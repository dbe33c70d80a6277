import Mathlib.Data.List.Find
import Mathlib.Logic.Relation
import PositionAutomata.Proofs.Construction.Stepwise

/-
  Why there is no automaton of a tree.

  `Config.fault?` tests the reasons in turn: the tree has no root, the root is no
  node, a lexer is asked for and the root is no alternation, or a repetition that
  the root reaches has its minimum above its maximum. Of such repetitions the
  first in pre-order is named; the pre-order goes through what can be reached,
  from parents to children, and through nothing else (`mem_preorder_iff`,
  `fault?_eq_none_iff`). Where children come before their parents, the
  construction step by step fails for these reasons and no others: what it looks
  up on the way is there (`build_fails_iff`).
-/

namespace PositionAutomata

/-- Whether the node is an alternation. -/
def Node.isAlternation : Node → Bool
  | alternation _ _ => true
  | _ => false

theorem Expr.isAlternation_node (e : Expr NodeId) : e.node.isAlternation = e.isAlternation := by
  cases e <;> rfl

namespace Tree

variable {t : Tree} {id : NodeId} {n : Node} {e : Expr NodeId}

/-! ## Nodes in pre-order -/

/-- A node stands right below another. -/
def IsChild (t : Tree) (id child : NodeId) : Prop := ∃ n, t.get? id = some n ∧ child ∈ n.children

/-- The number of a node and of those below it, each before those below it; a shared one as often as
it is met. -/
def preorder (t : Tree) (id : NodeId) : List NodeId :=
  match t.expr id with
  | .ok e => e.tags
  | .error _ => []

/-- The first node in pre-order that is a repetition with its minimum above its maximum. -/
def misbounded? (t : Tree) (id : NodeId) : Option NodeId :=
  (t.preorder id).find? fun id => (t.get? id).any Node.isMisbounded

theorem preorder_of_expr (h : t.expr id = .ok e) : t.preorder id = e.tags := by
  rw [preorder, h]

theorem preorder_of_get? (wf : t.WellFormed) (hn : t.get? id = some n) :
    t.preorder id = id :: n.children.flatMap t.preorder := by
  obtain ⟨hlt, _⟩ := Array.getElem?_eq_some_iff.mp hn
  obtain ⟨e, he, rfl⟩ := expr_isOk wf hlt
  have hparts : ∀ x ∈ e.subexprs, t.preorder x.tag = x.tags := fun x hx =>
    preorder_of_expr (expr_of_mem_subexprs he x hx)
  obtain rfl : n = e.node := Option.some.inj (hn.symm.trans (get?_of_expr he))
  rw [preorder_of_expr he]
  cases e with
  | leaf a l => rfl
  | concat a l r =>
    have hl := hparts l (by simp [Expr.mem_subexprs_self])
    have hr := hparts r (by simp [Expr.mem_subexprs_self])
    simp [Expr.node, Node.children, Expr.tags, hl, hr]
  | alternation a l r =>
    have hl := hparts l (by simp [Expr.mem_subexprs_self])
    have hr := hparts r (by simp [Expr.mem_subexprs_self])
    simp [Expr.node, Node.children, Expr.tags, hl, hr]
  | repetition a q e =>
    have he := hparts e (by simp [Expr.mem_subexprs_self])
    simp [Expr.node, Node.children, Expr.tags, he]
  | capture a g e =>
    have he := hparts e (by simp [Expr.mem_subexprs_self])
    simp [Expr.node, Node.children, Expr.tags, he]

/-- The nodes met in pre-order are those that can be reached. -/
theorem mem_preorder_iff (wf : t.WellFormed) (hid : id < t.size) {c : NodeId} :
    c ∈ t.preorder id ↔ Relation.ReflTransGen t.IsChild id c := by
  induction id using Nat.strongRecOn with
  | ind id ih =>
    have hn : t.get? id = some t.nodes[id] := Array.getElem?_eq_getElem hid
    have hchild : ∀ b, t.IsChild id b ↔ b ∈ t.nodes[id].children := fun b => by simp [IsChild, hn]
    rw [preorder_of_get? wf hn, List.mem_cons, List.mem_flatMap,
      Relation.ReflTransGen.cases_head_iff]
    refine or_congr eq_comm (exists_congr fun b => ?_)
    rw [hchild]
    refine and_congr_right fun hb => ?_
    have hlt := wf id _ hn b hb
    exact ih b hlt (Nat.lt_trans hlt hid)

theorem misbounded?_eq_none_iff (wf : t.WellFormed) (hid : id < t.size) :
    t.misbounded? id = none ↔ ∀ b m, Relation.ReflTransGen t.IsChild id b → t.get? b = some m →
      m.isMisbounded = false := by
  rw [misbounded?, List.find?_eq_none]
  refine forall_congr' fun b => ?_
  rw [mem_preorder_iff wf hid]
  cases hb : t.get? b with
  | none => simp
  | some m => simp

theorem misbounded?_of_expr (h : t.expr id = .ok e) : t.misbounded? id = e.misbounded? := by
  rw [misbounded?, preorder_of_expr h, Expr.tags, List.find?_map, Expr.misbounded?]
  congr 1
  apply List.find?_congr
  intro x hx
  simp [get?_of_expr (expr_of_mem_subexprs h x hx)]

theorem expr_of_get?_none (h : t.get? id = none) : t.expr id = .error (.unknownNode id) := by
  have hle : t.exprs.size ≤ id := by
    rw [size_exprs]
    exact Array.getElem?_eq_none_iff.mp h
  rw [expr, entry, Array.getElem?_eq_none hle]
  rfl

theorem wellFormed_iff :
    t.WellFormed ↔ ∀ id (_ : id < t.nodes.size), ∀ c ∈ t.nodes[id].children, c < id := by
  refine ⟨fun wf id hid => wf id _ (Array.getElem?_eq_getElem hid), fun h id n hn => ?_⟩
  obtain ⟨hid, rfl⟩ := Array.getElem?_eq_some_iff.mp hn
  exact h id hid

end Tree

/-! ## Reasons of failure -/

namespace Config

variable {c : Config} {t : Tree}

/-- The first reason for which no automaton of the tree is built. -/
def fault? (c : Config) (t : Tree) : Option Failure :=
  match t.root with
  | none => some .missingRoot
  | some root =>
    match t.get? root with
    | none => some (.unknownNode root)
    | some n =>
      if c.lexer && !n.isAlternation then some .rootNotAlternation
      else (t.misbounded? root).map .invalidRepetition

/-- The root is a node, an alternation in a lexer, and no repetition that can be reached from it has
its minimum above its maximum. -/
def Admits (c : Config) (t : Tree) : Prop :=
  ∃ root n, t.root = some root ∧ t.get? root = some n ∧
    (c.lexer = true → n.isAlternation = true) ∧
    ∀ id m, Relation.ReflTransGen t.IsChild root id → t.get? id = some m → m.isMisbounded = false

theorem fault?_of_get? {root : NodeId} {n : Node} (hroot : t.root = some root)
    (hn : t.get? root = some n) :
    c.fault? t =
      if c.lexer && !n.isAlternation then some .rootNotAlternation
      else (t.misbounded? root).map .invalidRepetition := by
  simp only [fault?, hroot, hn]

theorem of?_augment_eq_fault? (wf : t.WellFormed) (c : Config) :
    Failure.of? (c.augment t) = c.fault? t := by
  cases hroot : t.root with
  | none =>
    rw [augment, Tree.rootExpr, fault?, hroot]
    rfl
  | some root =>
    have hexpr : t.rootExpr = t.expr root := by rw [Tree.rootExpr, hroot]
    cases hn : t.get? root with
    | none =>
      simp only [fault?, hroot, hn]
      rw [augment, hexpr, Tree.expr_of_get?_none hn]
      rfl
    | some n =>
      obtain ⟨hlt, _⟩ := Array.getElem?_eq_some_iff.mp hn
      obtain ⟨e, he, _⟩ := Tree.expr_isOk wf hlt
      obtain rfl : n = e.node := Option.some.inj (hn.symm.trans (Tree.get?_of_expr he))
      rw [of?_augment (hexpr.trans he), fault?_of_get? hroot hn, e.isAlternation_node,
        Tree.misbounded?_of_expr he]

theorem fault?_eq_none_iff (wf : t.WellFormed) (c : Config) : c.fault? t = none ↔ c.Admits t := by
  rw [Admits]
  cases hroot : t.root with
  | none => simp [fault?, hroot]
  | some root =>
    cases hn : t.get? root with
    | none => simp [fault?, hroot, hn]
    | some n =>
      have hlt : root < t.size := (Array.getElem?_eq_some_iff.mp hn).1
      rw [fault?_of_get? hroot hn]
      refine ⟨fun h => ?_, fun ⟨_, _, hroot', hn', hlexer, hbounds⟩ => ?_⟩
      · split at h
        next => exact absurd h (by simp)
        next hlexer =>
          exact ⟨root, n, rfl, hn, fun hl => by simpa [hl] using hlexer,
            (Tree.misbounded?_eq_none_iff wf hlt).mp (Option.map_eq_none_iff.mp h)⟩
      · cases hroot'
        obtain rfl := Option.some.inj (hn.symm.trans hn')
        have hlexer : ¬(c.lexer && !n.isAlternation) = true := by simpa using hlexer
        rw [if_neg hlexer, (Tree.misbounded?_eq_none_iff wf hlt).mpr hbounds]
        rfl

theorem fault?_ne_unknownPosition (c : Config) (t : Tree) (p : Position) :
    c.fault? t ≠ some (.unknownPosition p) := by
  rw [fault?]
  split
  next => simp
  next =>
    split
    next => simp
    next =>
      split
      next => simp
      next => simp

end Config

/-- Once the copy of a tree is made, nothing fails any more. -/
theorem Automaton.of?_ofTree (t : Tree) (c : Config) :
    Failure.of? (ofTree t c) = Failure.of? (c.augment t) := by
  cases hu : c.augment t with
  | error f =>
    rw [ofTree, Config.analyze, hu]
    rfl
  | ok u =>
    obtain ⟨e, he, hv, hlexer⟩ := Config.of_augment hu
    obtain ⟨_, _, _, hd⟩ := ofTree_of_valid he hv hlexer
    rw [hd]
    rfl

namespace Stepwise

variable {t : Tree}

theorem of?_build (wf : t.WellFormed) (c : Config) : Failure.of? (build t c) = c.fault? t := by
  rw [build_eq_ofTree, Automaton.of?_ofTree, Config.of?_augment_eq_fault? wf]

/-- Where every child comes before its parent, an automaton is built of exactly the trees that the
options admit, and else the failure is the first reason there is against the tree. Whether
repetitions are written out makes no difference to it, and no position is ever unknown. -/
theorem build_fails_iff (wf : t.WellFormed) (c : Config) :
    build t c = Automaton.ofTree t c ∧
      (∀ f, build t c = .error f ↔ c.fault? t = some f) ∧
      ((∃ d, build t c = .ok d) ↔ c.Admits t) ∧
      (∀ p, build t c ≠ .error (.unknownPosition p)) ∧
      ∀ expand f, build t { c with expand := expand } = .error f ↔ build t c = .error f := by
  have hfails : ∀ c f, build t c = .error f ↔ c.fault? t = some f := fun c f => by
    rw [← of?_build wf, Failure.of?_eq_some_iff]
  refine ⟨build_eq_ofTree t c, hfails c, ?_, fun p hp => ?_, fun expand f => ?_⟩
  · rw [← Config.fault?_eq_none_iff wf, ← of?_build wf, Failure.of?_eq_none_iff]
  · exact Config.fault?_ne_unknownPosition c t p ((hfails c _).mp hp)
  · exact (hfails { c with expand := expand } f).trans (hfails c f).symm

/-- Two repetitions that cannot be written out. The one with the larger number stands first. -/
def misboundedTwice : Tree where
  nodes := #[.leaf (.codepoint 0x61), .repetition 0 ⟨3, 2, false⟩, .repetition 1 ⟨2, 1, false⟩,
    .repetition 2 ⟨0, 4, true⟩, .concat 3 1]
  root := some 4

theorem build_misboundedTwice_fails :
    misboundedTwice.WellFormed ∧
      build misboundedTwice = .error (.invalidRepetition 2) ∧
      build misboundedTwice { expand := false } = .error (.invalidRepetition 2) ∧
      build misboundedTwice { lexer := true } = .error .rootNotAlternation := by
  have wf : misboundedTwice.WellFormed := Tree.wellFormed_iff.mpr (by decide)
  have hfault : Config.fault? {} misboundedTwice = some (.invalidRepetition 2) := by rfl
  have hlexer : Config.fault? { lexer := true } misboundedTwice = some .rootNotAlternation := by rfl
  obtain ⟨_, hfails, _, _, hexpand⟩ := build_fails_iff wf {}
  have hbuild := (hfails _).mpr hfault
  exact ⟨wf, hbuild, (hexpand false _).mpr hbuild,
    ((build_fails_iff wf { lexer := true }).2.1 _).mpr hlexer⟩

end Stepwise

end PositionAutomata
