import PositionAutomata.Construction.Build
import PositionAutomata.Proofs.Tree.Faults

/-
  The tree that is analysed.

  An automaton is built from a copy of the expression in which each rule is
  followed by a terminator of its own; outside of a lexer the expression is the
  only rule. The copy has the shape that `Config.augmented` says and no leaf
  twice (`Config.Augments`), and it is made exactly if no repetition has a
  minimum above its maximum and the root of a lexer is an alternation
  (`augments_of_valid`, `of_augment`); else the failure says which (`of?_augment`).
-/

namespace PositionAutomata

namespace Config

variable {c : Config} {t : Tree} {e : Expr NodeId}

/-- The expressions that are accepted with a symbol of their own, in the order of the symbols. -/
def rules (c : Config) (e : Expr NodeId) : List (Expr NodeId) :=
  if c.lexer then e.alternatives else [e]

/-- The shape of the copy of a rule. -/
def copied (c : Config) (e : Expr NodeId) : Expr Unit := if c.expand then e.unrolled else e.shape

/-- The shape of a rule with its terminator. -/
def terminated (c : Config) (e : Expr NodeId) (symbol : Symbol) : Expr Unit :=
  .concat () (c.copied e) (.leaf () (.terminator symbol))

/-- The shape of the expression that is analysed. -/
def augmented (c : Config) (e : Expr NodeId) : Expr Unit :=
  .anyOf ((c.rules e).zipIdx.map fun (x, i) => c.terminated x i)

/-- The tree `u` holds at its root, over leaves of their own, the copy of `e` that is analysed. -/
structure Augments (c : Config) (e : Expr NodeId) (u : Tree) (f : Expr NodeId) : Prop where
  root : u.rootExpr = .ok f
  shape : f.shape = c.augmented e
  nodup : (f.leaves.map Prod.fst).Nodup
  bounded : ∀ y ∈ f.leaves, y.1 < u.size

theorem forall_mem_rules {p : Expr NodeId → Prop}
    (hp : ∀ a l r, p (.alternation a l r) ↔ p l ∧ p r) : (∀ x ∈ c.rules e, p x) ↔ p e := by
  rw [rules]
  split
  · exact Expr.forall_mem_alternatives hp
  · exact List.forall_mem_singleton

theorem mem_rules_valid (hv : e.Valid) : ∀ x ∈ c.rules e, x.Valid :=
  (forall_mem_rules fun _ _ _ => Iff.rfl).mpr hv

theorem adds_copied (hv : e.Valid) : Tree.Adds (c.copy e) (c.copied e) := by
  rw [copy, copied]
  split
  · exact Expr.adds_expand hv
  · exact Expr.adds_copy hv

theorem adds_terminated (hv : e.Valid) (symbol : Symbol) :
    Tree.Adds (c.terminate e symbol) (c.terminated e symbol) :=
  Tree.joins_concat.adds (adds_copied hv) (Tree.adds_leaf (.terminator symbol))

/-- What a step adds is what is built with it. -/
theorem exists_build {s : Tree.PartialStep NodeId} {x : Expr Unit} (hs : Tree.Adds s x) :
    ∃ u f, Tree.build s = .ok u ∧ u.rootExpr = .ok f ∧ f.shape = x ∧
      (f.leaves.map Prod.fst).Nodup ∧ ∀ y ∈ f.leaves, y.1 < u.size := by
  obtain ⟨root, u, hrun, _, f, hf, hx, hnd, hb⟩ := hs .empty
  refine ⟨{ u with root := some root }, f, ?_, hf, hx, hnd, fun y hy => (hb y hy).2⟩
  rw [Tree.build, hrun]

theorem augment_eq (he : t.rootExpr = .ok e) :
    c.augment t =
      if c.lexer then
        if e.isAlternation then
          Tree.build do Tree.anyOf (← e.alternatives.zipIdx.mapM fun (x, i) => c.terminate x i)
        else .error .rootNotAlternation
      else Tree.build (c.terminate e 0) := by
  rw [augment, he]
  rfl

theorem augments_of_valid (he : t.rootExpr = .ok e) (hv : e.Valid)
    (hlexer : c.lexer = true → e.isAlternation = true) :
    ∃ u f, c.augment t = .ok u ∧ c.Augments e u f := by
  have hadds : ∃ s, c.augment t = Tree.build s ∧ Tree.Adds s (c.augmented e) := by
    rw [augment_eq he, augmented, rules]
    by_cases hl : c.lexer = true
    · rw [if_pos hl, if_pos (hlexer hl), if_pos hl]
      refine ⟨_, rfl, Tree.joins_alternation.addsChain (.mapM fun (x, i) hx => ?_)⟩
      have hx : x ∈ e.alternatives := by
        obtain ⟨_, _, h⟩ := List.mem_zipIdx hx
        rw [h]
        exact List.getElem_mem _
      exact adds_terminated ((Expr.forall_mem_alternatives fun _ _ _ => Iff.rfl).mpr hv x hx) i
    · rw [if_neg hl, if_neg hl]
      exact ⟨_, rfl, adds_terminated hv 0⟩
  obtain ⟨s, haug, hs⟩ := hadds
  obtain ⟨u, f, hbuild, hf, hx, hnd, hb⟩ := exists_build hs
  exact ⟨u, f, by rw [haug, hbuild], hf, hx, hnd, hb⟩

theorem hasFault_copy (c : Config) (e : Expr NodeId) :
    Tree.HasFault (c.copy e) (e.misbounded?.map .invalidRepetition) := by
  rw [copy]
  split
  · exact Expr.hasFault_expand e
  · exact Expr.hasFault_copy e

theorem hasFault_terminate (c : Config) (e : Expr NodeId) (symbol : Symbol) :
    Tree.HasFault (c.terminate e symbol) (e.misbounded?.map .invalidRepetition) :=
  (hasFault_copy c e).bind_none fun id =>
    (Tree.hasFault_lift (Tree.leaf (.terminator symbol))).bind_none fun last =>
      Tree.hasFault_lift (Tree.concat id last)

theorem hasFault_rules (c : Config) (e : Expr NodeId) :
    Tree.HasFault
      (do Tree.anyOf (← e.alternatives.zipIdx.mapM fun (x, i) => c.terminate x i))
      (e.misbounded?.map .invalidRepetition) := by
  have h := (Tree.HasFault.mapM (fun y : Expr NodeId × Nat => hasFault_terminate c y.1 y.2)
    e.alternatives.zipIdx).bind_none fun items => Tree.hasFault_lift (Tree.anyOf items)
  have hfirst : e.alternatives.zipIdx.findSome? (fun y => y.1.misbounded?.map .invalidRepetition) =
      e.misbounded?.map Failure.invalidRepetition := by
    rw [← Expr.findSome?_alternatives, List.map_findSome?]
    conv => rhs; rw [← List.zipIdx_map_fst 0 e.alternatives, List.findSome?_map]
    rfl
  exact hfirst ▸ h

/-- A tree that unfolds is not copied if it should be a lexer and is none, or else if it has a
misbounded repetition, the first one in pre-order being named. -/
theorem of?_augment (he : t.rootExpr = .ok e) :
    Failure.of? (c.augment t) =
      if c.lexer && !e.isAlternation then some .rootNotAlternation
      else e.misbounded?.map .invalidRepetition := by
  rw [augment_eq he]
  cases c.lexer with
  | false => exact (hasFault_terminate c e 0).build
  | true =>
    cases e.isAlternation with
    | false => rfl
    | true => exact (hasFault_rules c e).build

theorem of_augment {u : Tree} (h : c.augment t = .ok u) :
    ∃ e, t.rootExpr = .ok e ∧ e.Valid ∧ (c.lexer = true → e.isAlternation = true) := by
  obtain ⟨e, he, _⟩ := bind_eq_ok.mp h
  have hnone : Failure.of? (c.augment t) = none := by
    rw [h]
    rfl
  rw [of?_augment he] at hnone
  split at hnone
  next => exact absurd hnone (by simp)
  next hlexer =>
    refine ⟨e, he, Expr.misbounded?_eq_none_iff.mp (Option.map_eq_none_iff.mp hnone), fun hl => ?_⟩
    simpa [hl] using hlexer

theorem analyze_eq {u : Tree} {f : Expr NodeId} (haug : c.augment t = .ok u)
    (hf : u.rootExpr = .ok f) : c.analyze t = .ok (.ofExpr u f c.lazy c.captures) := by
  rw [analyze, haug]
  show (u.rootExpr >>= fun e => _) = _
  rw [hf]
  rfl

/-- What is analysed is the augmented copy of a tree without misplaced bounds. -/
theorem augments_of_analyze {a : Analysis} (h : c.analyze t = .ok a) :
    ∃ e u f, t.rootExpr = .ok e ∧ c.Augments e u f ∧ a = .ofExpr u f c.lazy c.captures := by
  obtain ⟨_, hu, _⟩ := bind_eq_ok.mp h
  obtain ⟨e, he, hv, hlexer⟩ := of_augment hu
  obtain ⟨u, f, haug, hf⟩ := augments_of_valid he hv hlexer
  rw [analyze_eq haug hf.root] at h
  exact ⟨e, u, f, he, hf, (Except.ok.inj h).symm⟩

theorem augments_of_rootExpr {a : Analysis} (he : t.rootExpr = .ok e) (h : c.analyze t = .ok a) :
    ∃ u f, c.Augments e u f ∧ a = .ofExpr u f c.lazy c.captures := by
  obtain ⟨e', u, f, he', haug, ha⟩ := augments_of_analyze h
  obtain rfl : e' = e := Except.ok.inj (he'.symm.trans he)
  exact ⟨u, f, haug, ha⟩

end Config

/-! ## Automata of trees -/

namespace Automaton

variable {c : Config} {t : Tree} {e : Expr NodeId}

theorem ofTree_eq {u : Tree} {f : Expr NodeId} (haug : c.augment t = .ok u)
    (hf : u.rootExpr = .ok f) :
    ofTree t c = .ok (ofAnalysis (.ofExpr u f c.lazy c.captures) c) := by
  rw [ofTree, Config.analyze_eq haug hf]
  rfl

/-- A tree whose repetitions have a minimum up to their maximum has an automaton; in a lexer its
root has to be an alternation. -/
theorem ofTree_of_valid (he : t.rootExpr = .ok e) (hv : e.Valid)
    (hlexer : c.lexer = true → e.isAlternation = true) :
    ∃ u f, c.Augments e u f ∧
      ofTree t c = .ok (ofAnalysis (.ofExpr u f c.lazy c.captures) c) := by
  obtain ⟨u, f, haug, h⟩ := Config.augments_of_valid he hv hlexer
  exact ⟨u, f, h, ofTree_eq haug h.root⟩

theorem ofTree_of_analyze {a : Analysis} (h : c.analyze t = .ok a) :
    ofTree t c = .ok (ofAnalysis a c) :=
  bind_eq_ok.mpr ⟨a, h, rfl⟩

theorem exists_analyze_of_ofTree {d : Automaton} (h : ofTree t c = .ok d) :
    ∃ a, c.analyze t = .ok a ∧ d = ofAnalysis a c := by
  obtain ⟨a, ha, hd⟩ := bind_eq_ok.mp h
  exact ⟨a, ha, (Except.ok.inj hd).symm⟩

theorem of_ofTree {d : Automaton} (h : ofTree t c = .ok d) :
    ∃ e, t.rootExpr = .ok e ∧ e.Valid ∧ (c.lexer = true → e.isAlternation = true) := by
  obtain ⟨a, ha, _⟩ := bind_eq_ok.mp h
  obtain ⟨u, hu, _⟩ := bind_eq_ok.mp ha
  exact Config.of_augment hu

end Automaton

end PositionAutomata
