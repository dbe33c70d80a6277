import Mathlib
import PositionAutomata.Proofs.Document.Forms
import PositionAutomata.Proofs.Tree.Single

/-
  What the reader adds to a tree.

  Reading tokens adds a block of nodes and numbers a block of capture groups. The
  expressions that were read and not joined yet are made of just the nodes of
  the block, and meet the captures in the order of their numbers (`Added`). Each
  step of the reader keeps this: a leaf begins an expression, a node over some
  expressions takes their place (`Added.place`), and a capture has its number before
  those inside it (`Reads.capture`). By recursion on the token whatever is read is
  one expression (`keptByForms_reads`), and the tree of a document is nothing else
  (`ofString_single`).
-/

namespace PositionAutomata

/-- The number of the capture group that the node is. -/
def Node.groupNumber? : Node → Option Nat
  | capture _ g => some g.number
  | _ => none

/-- The numbers of the capture groups, each before those inside it. -/
def Expr.groupNumbers (e : Expr NodeId) : List Nat :=
  e.subexprs.filterMap fun x => x.node.groupNumber?

namespace Expr

variable (id : NodeId)

@[simp] theorem groupNumbers_leaf (l : Leaf) : (leaf id l).groupNumbers = [] := rfl

@[simp] theorem groupNumbers_concat (l r : Expr NodeId) :
    (concat id l r).groupNumbers = l.groupNumbers ++ r.groupNumbers := by
  rw [groupNumbers, subexprs_concat, List.filterMap_cons_none rfl, List.filterMap_append]
  rfl

@[simp] theorem groupNumbers_alternation (l r : Expr NodeId) :
    (alternation id l r).groupNumbers = l.groupNumbers ++ r.groupNumbers := by
  rw [groupNumbers, subexprs_alternation, List.filterMap_cons_none rfl, List.filterMap_append]
  rfl

@[simp] theorem groupNumbers_repetition (q : Quantifier) (e : Expr NodeId) :
    (repetition id q e).groupNumbers = e.groupNumbers := rfl

@[simp] theorem groupNumbers_capture (g : Group) (e : Expr NodeId) :
    (capture id g e).groupNumbers = g.number :: e.groupNumbers := rfl

end Expr

namespace Reader

/-! ## Blocks of nodes and of capture groups -/

/-- Between two states some expressions were added: they are made of the new nodes, each once, and
their captures have the new numbers, in order. -/
structure Added (s s' : State) (es : List (Expr NodeId)) : Prop where
  grows : s.tree.Grows s'.tree
  groups_le : s.groups ≤ s'.groups
  expr : ∀ e ∈ es, s'.tree.expr e.tag = .ok e
  tags : (es.flatMap Expr.tags).Perm (List.Ico s.tree.size s'.tree.size)
  numbers : es.flatMap Expr.groupNumbers = List.Ico (s.groups + 1) (s'.groups + 1)

namespace Added

variable {s s' s'' : State} {e f : Expr NodeId} {es fs : List (Expr NodeId)}

theorem refl (s : State) : Added s s [] where
  grows := .refl _
  groups_le := Nat.le_refl _
  expr := fun e he => absurd he List.not_mem_nil
  tags := by rw [List.Ico.self_empty]; exact .refl _
  numbers := by rw [List.Ico.self_empty]; rfl

theorem append (h : Added s s' es) (h' : Added s' s'' fs) : Added s s'' (es ++ fs) where
  grows := h.grows.trans h'.grows
  groups_le := Nat.le_trans h.groups_le h'.groups_le
  expr := List.forall_mem_append.mpr
    ⟨fun e he => Tree.expr_of_grows h'.grows (h.expr e he), h'.expr⟩
  tags := by
    rw [List.flatMap_append, ← List.Ico.append_consecutive h.grows.size_le h'.grows.size_le]
    exact h.tags.append h'.tags
  numbers := by
    rw [List.flatMap_append, h.numbers, h'.numbers,
      List.Ico.append_consecutive (Nat.succ_le_succ h.groups_le) (Nat.succ_le_succ h'.groups_le)]

/-- A node over the first expressions takes their place. The block may begin with capture groups
that were numbered before. -/
theorem place (s₀ : State) (es : List (Expr NodeId)) (h : Added s s' (es ++ fs))
    (htree : s₀.tree = s.tree) (hle : s₀.groups ≤ s.groups) {n : Node} {c : Expr NodeId}
    (hc : n.unfold ((Tree.place n s'.tree).2.childExpr s'.tree.size) s'.tree.size = .ok c)
    (htags : c.tags = s'.tree.size :: es.flatMap Expr.tags)
    (hnumbers : c.groupNumbers ++ fs.flatMap Expr.groupNumbers =
      List.Ico (s₀.groups + 1) (s'.groups + 1)) :
    Added s₀ { s' with tree := (Tree.place n s'.tree).2 } (c :: fs) where
  grows := htree ▸ h.grows.trans (Tree.grows_place n _)
  groups_le := Nat.le_trans hle h.groups_le
  expr := by
    have hexpr : (Tree.place n s'.tree).2.expr s'.tree.size = .ok c := Tree.expr_place.trans hc
    refine List.forall_mem_cons.mpr ⟨?_, fun e he => ?_⟩
    · rwa [Tree.tag_of_expr hexpr]
    · exact Tree.expr_of_grows (Tree.grows_place n _) (h.expr e (List.mem_append_right _ he))
  tags := by
    have hlast : List.Ico s₀.tree.size (Tree.place n s'.tree).2.size =
        List.Ico s.tree.size s'.tree.size ++ [s'.tree.size] := by
      rw [htree, Tree.size_place, List.Ico.succ_top h.grows.size_le]
    rw [hlast, List.flatMap_cons, htags, List.cons_append, ← List.flatMap_append]
    exact (h.tags.cons _).trans (List.perm_append_singleton _ _).symm
  numbers := hnumbers

theorem leaf (s : State) (l : Leaf) :
    Added s { s with tree := (Tree.leaf l s.tree).2 } [.leaf s.tree.size l] :=
  place s [] (refl s) rfl (Nat.le_refl _) rfl rfl (refl s).numbers

end Added

/-! ## Steps of the reader -/

variable {α β : Type} {s s' : State}

/-- A step that adds nothing where it succeeds. -/
def Steady (x : Read α) : Prop := ∀ ⦃s a s'⦄, x.run s = .ok (a, s') → s' = s

/-- A step that adds one expression where it succeeds, and answers its topmost node. -/
def Reads (x : Read NodeId) : Prop :=
  ∀ ⦃s id s'⦄, x.run s = .ok (id, s') → ∃ e, e.tag = id ∧ Added s s' [e]

/-- A step that adds some expressions where it succeeds, and answers their topmost nodes. -/
def ReadsAll (x : Read (List NodeId)) : Prop :=
  ∀ ⦃s ids s'⦄, x.run s = .ok (ids, s') → ∃ es, es.map Expr.tag = ids ∧ Added s s' es

theorem steady_pure (a : α) : Steady (pure a) := by
  intro s b s' h
  cases h
  rfl

theorem steady_fault (span : Span) (f : DocumentFault) : Steady (fault span f : Read α) := nofun

theorem Steady.bind {x : Read α} {f : α → Read β} (hx : Steady x) (hf : ∀ a, Steady (f a)) :
    Steady (x >>= f) := by
  intro s b s' h
  obtain ⟨a, s₁, hrun, h⟩ := run_bind_eq_ok.mp h
  rw [hf a h, hx hrun]

theorem steady_name (t : Token) : Steady (name t) := by
  cases t with
  | ident span cs => exact steady_pure _
  | group span items => exact steady_fault _ _
  | string span text => exact steady_fault _ _
  | charset span set => exact steady_fault _ _

theorem steady_bound (t : Token) : Steady (bound t) := by
  refine (steady_name t).bind fun name => ?_
  split
  · split
    · exact steady_pure _
    · exact steady_fault _ _
  · exact steady_fault _ _

theorem Steady.reads {x : Read α} {f : α → Read NodeId} (hx : Steady x)
    (hf : ∀ a, Reads (f a)) : Reads (x >>= f) := by
  intro s id s' h
  obtain ⟨a, s₁, hrun, hid⟩ := run_bind_eq_ok.mp h
  obtain rfl := hx hrun
  exact hf a hid

theorem reads_fault (span : Span) (f : DocumentFault) : Reads (fault span f) := nofun

theorem reads_leaf (l : Leaf) : Reads (add (Tree.leaf l)) := by
  intro s id s' h
  cases h
  exact ⟨_, rfl, .leaf s l⟩

/-! ## Chains -/

/-- A node over two others unfolds to their expressions joined, and is no capture. -/
structure JoinsBy (node : NodeId → NodeId → Node)
    (whole : NodeId → Expr NodeId → Expr NodeId → Expr NodeId) : Prop where
  unfold : ∀ {child : NodeId → Except Failure (Expr NodeId)} {id e f},
    child e.tag = .ok e → child f.tag = .ok f →
      (node e.tag f.tag).unfold child id = .ok (whole id e f)
  tag : ∀ id e f, (whole id e f).tag = id
  tags : ∀ id e f, (whole id e f).tags = id :: (e.tags ++ f.tags)
  numbers : ∀ id e f, (whole id e f).groupNumbers = e.groupNumbers ++ f.groupNumbers

theorem joinsBy_concat : JoinsBy .concat .concat where
  unfold he hf := by rw [Node.unfold, he, hf]; rfl
  tag := Expr.tag_concat
  tags := Expr.tags_concat
  numbers := Expr.groupNumbers_concat

theorem joinsBy_alternation : JoinsBy .alternation .alternation where
  unfold he hf := by rw [Node.unfold, he, hf]; rfl
  tag := Expr.tag_alternation
  tags := Expr.tags_alternation
  numbers := Expr.groupNumbers_alternation

section

variable {node : NodeId → NodeId → Node}
  {whole : NodeId → Expr NodeId → Expr NodeId → Expr NodeId} {e f : Expr NodeId}
  {es : List (Expr NodeId)}

/-- Joining the first two expressions takes their place. -/
theorem Added.join (hjoin : JoinsBy node whole) (h : Added s s' (e :: f :: es)) :
    Added s { s' with tree := (Tree.place (node e.tag f.tag) s'.tree).2 }
      (whole s'.tree.size e f :: es) := by
  obtain ⟨he, hf, _⟩ := List.forall_mem_cons.mp h.expr |>.imp_right List.forall_mem_cons.mp
  refine place s [e, f] h rfl (Nat.le_refl _) ?_ ?_ ?_
  · exact hjoin.unfold (Tree.childExpr_place he) (Tree.childExpr_place hf)
  · rw [hjoin.tags]
    simp
  · rw [hjoin.numbers, ← h.numbers]
    simp

theorem Added.chain (hjoin : JoinsBy node whole) (h : Added s s' es) :
    ∃ e, e.tag = (Tree.chain (fun l r => Tree.place (node l r)) (es.map Expr.tag) s'.tree).1 ∧
      Added s { s' with tree :=
        (Tree.chain (fun l r => Tree.place (node l r)) (es.map Expr.tag) s'.tree).2 } [e] := by
  cases es with
  | nil => exact ⟨_, rfl, h.append (.leaf s' .empty)⟩
  | cons e es =>
    rw [List.map_cons, Tree.chain]
    induction es generalizing e s' with
    | nil => exact ⟨e, rfl, h⟩
    | cons f es ih =>
      have hall := ih _ (h.join hjoin)
      rw [hjoin.tag] at hall
      exact hall

theorem ReadsAll.chain (hjoin : JoinsBy node whole) {x : Read (List NodeId)} (hx : ReadsAll x) :
    Reads (x >>= fun ids => add (Tree.chain (fun l r => Tree.place (node l r)) ids)) := by
  intro s id s' h
  obtain ⟨ids, s₁, hrun, hid⟩ := run_bind_eq_ok.mp h
  obtain ⟨es, rfl, hadded⟩ := hx hrun
  cases hid
  exact hadded.chain hjoin

end

theorem ReadsAll.concatAll {x : Read (List NodeId)} (hx : ReadsAll x) :
    Reads (x >>= fun ids => add (Tree.concatAll ids)) := hx.chain joinsBy_concat

theorem ReadsAll.anyOf {x : Read (List NodeId)} (hx : ReadsAll x) :
    Reads (x >>= fun ids => add (Tree.anyOf ids)) := hx.chain joinsBy_alternation

theorem readsAll_nil : ReadsAll (pure []) := by
  intro s ids s' h
  cases h
  exact ⟨[], rfl, .refl s⟩

theorem ReadsAll.cons {x : Read NodeId} {y : Read (List NodeId)} (hx : Reads x)
    (hy : ReadsAll y) : ReadsAll (do return (← x) :: (← y)) := by
  intro s ids s' h
  obtain ⟨id, s₁, hid, h⟩ := run_bind_eq_ok.mp h
  obtain ⟨rest, s₂, hrest, h⟩ := run_bind_eq_ok.mp h
  cases h
  obtain ⟨e, rfl, he⟩ := hx hid
  obtain ⟨es, rfl, hes⟩ := hy hrest
  exact ⟨e :: es, rfl, he.append hes⟩

/-! ## Expressions -/

/-- The leaves of some characters. -/
theorem added_leaves (s : State) (cs : List Char) :
    ∃ es, es.map Expr.tag = ((cs.mapM fun c => Tree.leaf (.codepoint c.toNat)) s.tree).1 ∧
      Added s { s with tree := ((cs.mapM fun c => Tree.leaf (.codepoint c.toNat)) s.tree).2 }
        es := by
  induction cs generalizing s with
  | nil => exact ⟨[], rfl, .refl s⟩
  | cons c cs ih =>
    obtain ⟨es, htags, hes⟩ := ih { s with tree := (Tree.leaf (.codepoint c.toNat) s.tree).2 }
    rw [List.mapM_cons]
    exact ⟨.leaf s.tree.size (.codepoint c.toNat) :: es, congrArg (s.tree.size :: ·) htags,
      (Added.leaf s _).append hes⟩

theorem reads_string (cs : List Char) : Reads (add (Tree.string cs)) := by
  intro s id s' h
  obtain ⟨es, htags, hes⟩ := added_leaves s cs
  obtain ⟨e, htag, he⟩ := hes.chain joinsBy_concat
  rw [htags] at htag he
  cases h
  exact ⟨e, htag, he⟩

theorem Reads.repetition {x : Read NodeId} (hx : Reads x) (q : Quantifier) :
    Reads (x >>= fun id => add (Tree.repetition id q)) := by
  intro s id s' h
  obtain ⟨_, s₁, hrun, hid⟩ := run_bind_eq_ok.mp h
  obtain ⟨e, rfl, he⟩ := hx hrun
  cases hid
  have hunfold : ∀ n : NodeId, (Node.repetition e.tag q).unfold
      ((Tree.place (.repetition e.tag q) s₁.tree).2.childExpr s₁.tree.size) n =
        .ok (.repetition n q e) := by
    intro n
    rw [Node.unfold, Tree.childExpr_place (he.expr e (by simp))]
    rfl
  exact ⟨_, rfl, .place s [e] he rfl (Nat.le_refl _) (hunfold _) (by simp)
    (by simpa using he.numbers)⟩

/-- A capture takes its number before what is read inside it. -/
theorem Reads.capture {x : Read NodeId} (hx : Reads x) {label : Read α} (hlabel : Steady label)
    (group : Nat → α → Group) (hgroup : ∀ n a, (group n a).number = n) :
    Reads (newGroup >>= fun number => label >>= fun a => x >>= fun id =>
      add (Tree.capture id (group number a))) := by
  intro s id s' h
  obtain ⟨_, s₁, hnumber, hnamed⟩ := run_bind_eq_ok.mp h
  obtain ⟨a, s₂, ha, hread⟩ := run_bind_eq_ok.mp hnamed
  obtain rfl := hlabel ha
  obtain ⟨_, s₃, hrun, hid⟩ := run_bind_eq_ok.mp hread
  obtain ⟨e, rfl, he⟩ := hx hrun
  cases hnumber
  cases hid
  have hunfold : ∀ (n : NodeId) (g : Group), (Node.capture e.tag g).unfold
      ((Tree.place (.capture e.tag g) s₃.tree).2.childExpr s₃.tree.size) n =
        .ok (.capture n g e) := by
    intro n g
    rw [Node.unfold, Tree.childExpr_place (he.expr e (by simp))]
    rfl
  have hnumbers : (s.groups + 1) :: e.groupNumbers = List.Ico (s.groups + 1) (s₃.groups + 1) := by
    have hinner : e.groupNumbers = List.Ico (s.groups + 2) (s₃.groups + 1) := by
      simpa using he.numbers
    rw [hinner]
    exact (List.Ico.eq_cons (Nat.lt_succ_of_le he.groups_le)).symm
  refine ⟨_, rfl, .place s [e] he rfl (Nat.le_succ _) (hunfold _ _) (by simp) ?_⟩
  simpa [hgroup] using hnumbers

theorem reads_newGroup_fault (span : Span) (f : DocumentFault) :
    Reads (newGroup >>= fun _ => fault span f) := by
  intro s id s' h
  obtain ⟨_, _, _, hfault⟩ := run_bind_eq_ok.mp h
  cases hfault

theorem keptByForms_reads : KeptByForms (fun _ => True) Reads ReadsAll where
  item _ _ _ := trivial
  fault _ := reads_fault _ _
  leaf := reads_leaf
  string := reads_string
  nil := readsAll_nil
  cons := .cons
  concatAll := ReadsAll.concatAll
  anyOf := ReadsAll.anyOf
  repetition := Reads.repetition
  name t _ := (steady_name t).reads
  bound t _ := (steady_bound t).reads
  capture hx := hx.capture (steady_pure ()) (fun n _ => ⟨n, none⟩) fun _ _ => rfl
  labelled hx t _ := hx.capture (steady_name t) (fun n s => ⟨n, some s⟩) fun _ _ => rfl
  uncaptured _ := reads_newGroup_fault _ _

/-- The items of a document add their alternatives to those before, and join them at the end. -/
theorem added_readItems {s s' s'' : State} {es : List (Expr NodeId)} {id : NodeId} {span : Span}
    {items : List Lexer.Item} (hes : Added s s' es)
    (h : (readItems span (es.map Expr.tag).reverse items).run s' = .ok (id, s'')) :
    ∃ e, e.tag = id ∧ Added s s'' [e] := by
  induction items generalizing s' es span with
  | nil =>
    rw [readItems] at h
    split at h
    · cases h
    · rw [List.reverse_reverse] at h
      cases h
      exact hes.chain joinsBy_alternation
  | cons item items ih =>
    cases item with
    | error f => cases h
    | ok t =>
      obtain ⟨_, s₁, hread, hrest⟩ := run_bind_eq_ok.mp h
      obtain ⟨e, rfl, he⟩ := keptByForms_reads.read t trivial false hread
      have hnext :
          (readItems (span.append t.span) ((es ++ [e]).map Expr.tag).reverse items).run s₁ =
            .ok (id, s'') := by
        rw [List.map_append, List.reverse_append]
        exact hrest
      exact ih (hes.append he) hnext

end Reader

/-! ## Documents -/

namespace Tree

variable {t : Tree} {id : NodeId} {e : Expr NodeId}

/-- A walk from a node meets the captures of its expression in their order. -/
theorem filterMap_visits (h : t.expr id = .ok e) :
    ((e.visits fun _ => false).filterMap fun v => (t.get? v.node).bind Node.groupNumber?) =
      e.groupNumbers := by
  have hnodes : ((e.visits fun _ => false).filterMap
      fun v => (t.get? v.node).bind Node.groupNumber?) =
        e.tags.filterMap fun a => (t.get? a).bind Node.groupNumber? := by
    rw [← e.map_node_walk none 0 0, List.filterMap_map]
    rfl
  rw [hnodes, Expr.tags, List.filterMap_map, Expr.groupNumbers]
  refine List.filterMap_congr fun x hx => ?_
  rw [Function.comp_apply, get?_of_expr (expr_of_mem_subexprs h x hx)]
  rfl

/-- A tree that is read from a document is one expression and nothing else. The root is the last
node, every other node is a child, once, and comes before its parent, and the expression of the root
holds each node once. A walk from the root, parents first and stopping nowhere, meets the capture
groups in the order of their numbers, which are those from one on. -/
theorem ofString_single {document : String} (h : ofString document = .ok t) :
    ∃ root e k, t.root = some root ∧ root + 1 = t.size ∧ t.WellFormed ∧
      (t.nodes.toList.flatMap Node.children).Perm (List.range root) ∧
      t.rootExpr = .ok e ∧ e.tags.Perm (List.range t.size) ∧
      ((e.visits fun _ => false).filterMap fun v => (t.get? v.node).bind Node.groupNumber?) =
        List.range' 1 k := by
  rw [ofString, Tree.read] at h
  cases hread : (Reader.readItems .origin [] (Lexer.ofSource (.ofChars document.toList)).items).run
      ⟨.empty, 0⟩ with
  | error f => rw [hread] at h; cases h
  | ok p =>
    obtain ⟨root, s⟩ := p
    rw [hread] at h
    cases h
    obtain ⟨e, rfl, hadded⟩ := Reader.added_readItems (.refl _) hread
    have hexpr : s.tree.expr e.tag = .ok e := hadded.expr e List.mem_cons_self
    have htags : e.tags.Perm (List.range s.tree.size) := by
      rw [← List.Ico.zero_bot]
      simpa [empty, size] using hadded.tags
    have hnumbers : e.groupNumbers = List.range' 1 s.groups := by
      simpa [List.Ico] using hadded.numbers
    obtain ⟨hlast, hwf, hchildren⟩ := single_of_tags hexpr htags
    exact ⟨e.tag, e, s.groups, rfl, hlast, hwf, hchildren, hexpr, htags,
      (filterMap_visits hexpr).trans hnumbers⟩

/-- A capture inside another one beside the empty string, and then a lazy repetition of a third one
as another expression. -/
def nestedCaptures : String :=
  "(capture a (cat (capture \"x\") \"\")) # first\n(lazy (star (capture [yz])))"

/-- The tree of `nestedCaptures`. -/
def nestedCapturesTree : Tree where
  nodes := #[.leaf (.codepoint 0x78), .capture 0 ⟨2, none⟩, .leaf .empty, .concat 1 2,
    .capture 3 ⟨1, some "a"⟩, .leaf (.charset ⟨[.char 0x79, .char 0x7a], false⟩),
    .capture 5 ⟨3, none⟩, .repetition 6 ⟨0, Quantifier.unbounded, true⟩, .alternation 4 7]
  root := some 8

theorem ofString_nestedCaptures_single :
    ofString nestedCaptures = .ok nestedCapturesTree ∧ nestedCapturesTree.WellFormed ∧
      (nestedCapturesTree.nodes.toList.flatMap Node.children).Perm (List.range 8) ∧
      ∃ e k, nestedCapturesTree.rootExpr = .ok e ∧ e.tags.Perm (List.range 9) ∧
        ((e.visits fun _ => false).filterMap
          fun v => (nestedCapturesTree.get? v.node).bind Node.groupNumber?) =
            List.range' 1 k := by
  have hread : ofString nestedCaptures = .ok nestedCapturesTree := by cbv
  obtain ⟨root, e, k, hroot, _, hwf, hchildren, hexpr, htags, hnumbers⟩ := ofString_single hread
  obtain rfl : 8 = root := Option.some.inj hroot
  exact ⟨hread, hwf, hchildren, e, k, hexpr, htags, hnumbers⟩

end Tree

end PositionAutomata
