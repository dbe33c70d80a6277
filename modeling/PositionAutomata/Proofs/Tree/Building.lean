import PositionAutomata.Proofs.Expr.Unrolling
import PositionAutomata.Proofs.Tree.Unfolding

/-
  What building steps add.

  A step adds an expression of a given shape if it always succeeds, keeps the
  nodes that are there, and answers a node that unfolds to that shape over
  leaves of its own (`Adds`). As long as no repetition has a minimum above its
  maximum, copying adds the shape of the expression (`adds_copy`), and expanding
  adds it with its counted repetitions written out (`adds_expand`).
-/

namespace PositionAutomata

namespace Tree

/-- A node unfolds to an expression of that shape, over leaves numbered from `lo` up to `hi`. -/
def Holds (t : Tree) (lo hi : Nat) (id : NodeId) (x : Expr Unit) : Prop :=
  ∃ e, t.expr id = .ok e ∧ e.shape = x ∧ (e.leaves.map Prod.fst).Nodup ∧
    ∀ y ∈ e.leaves, lo ≤ y.1 ∧ y.1 < hi

/-- Nodes unfold to expressions of those shapes, over leaves numbered in ascending blocks. -/
inductive HoldsAll (t : Tree) : Nat → Nat → List NodeId → List (Expr Unit) → Prop where
  | nil {lo hi : Nat} : lo ≤ hi → HoldsAll t lo hi [] []
  | cons {lo mid hi : Nat} {id : NodeId} {ids : List NodeId} {x : Expr Unit}
      {xs : List (Expr Unit)} : lo ≤ mid → Holds t lo mid id x → HoldsAll t mid hi ids xs →
      HoldsAll t lo hi (id :: ids) (x :: xs)

/-- A step adds an expression of that shape to every tree. -/
def Adds (step : PartialStep NodeId) (x : Expr Unit) : Prop :=
  ∀ t : Tree, ∃ id u, step.run t = (.ok id, u) ∧ t.Grows u ∧ Holds u t.size u.size id x

/-- A step adds expressions of those shapes to every tree. -/
def AddsAll (step : PartialStep (List NodeId)) (xs : List (Expr Unit)) : Prop :=
  ∀ t : Tree, ∃ ids u, step.run t = (.ok ids, u) ∧ t.Grows u ∧ HoldsAll u t.size u.size ids xs

/-- A step joins two nodes into one of the joined shape. -/
def Joins (join : NodeId → NodeId → Step NodeId) (shape : Expr Unit → Expr Unit → Expr Unit) :
    Prop :=
  ∀ ⦃t : Tree⦄ ⦃lo mid hi : Nat⦄ ⦃l r : NodeId⦄ ⦃x y : Expr Unit⦄, lo ≤ mid → mid ≤ hi →
    Holds t lo mid l x → Holds t mid hi r y →
    t.Grows (join l r t).2 ∧ Holds (join l r t).2 lo hi (join l r t).1 (shape x y)

/-! ## Steps -/

variable {α β : Type}

theorem run_bind {s : PartialStep α} {f : α → PartialStep β} {t u : Tree} {a : α}
    (h : s.run t = (.ok a, u)) : (s >>= f).run t = (f a).run u := by
  show (ExceptT.bindCont f (s.run t).1) (s.run t).2 = _
  rw [h]
  rfl

/-- A step with a continuation fails where the step fails. -/
theorem run_bind_error {s : PartialStep α} {f : α → PartialStep β} {t u : Tree} {e : Failure}
    (h : s.run t = (.error e, u)) : (s >>= f).run t = (.error e, u) := by
  show (ExceptT.bindCont f (s.run t).1) (s.run t).2 = _
  rw [h]
  rfl

/-! ## Blocks of leaves -/

theorem Holds.mono {t u : Tree} {lo lo' hi hi' : Nat} {id : NodeId} {x : Expr Unit}
    (h : Holds t lo hi id x) (hg : t.Grows u) (hlo : lo' ≤ lo) (hhi : hi ≤ hi') :
    Holds u lo' hi' id x := by
  obtain ⟨e, he, hx, hnd, hb⟩ := h
  exact ⟨e, expr_of_grows hg he, hx, hnd, fun y hy =>
    ⟨Nat.le_trans hlo (hb y hy).1, Nat.lt_of_lt_of_le (hb y hy).2 hhi⟩⟩

theorem HoldsAll.mono {t u : Tree} {lo hi : Nat} {ids : List NodeId} {xs : List (Expr Unit)}
    (h : HoldsAll t lo hi ids xs) (hg : t.Grows u) : HoldsAll u lo hi ids xs := by
  induction h with
  | nil hle => exact .nil hle
  | cons hle hx _ ih => exact .cons hle (hx.mono hg (Nat.le_refl _) (Nat.le_refl _)) ih

theorem HoldsAll.le {t : Tree} {lo hi : Nat} {ids : List NodeId} {xs : List (Expr Unit)}
    (h : HoldsAll t lo hi ids xs) : lo ≤ hi := by
  induction h with
  | nil hle => exact hle
  | cons hle _ _ ih => exact Nat.le_trans hle ih

theorem HoldsAll.append {t : Tree} {lo mid hi : Nat} {ids ids' : List NodeId}
    {xs xs' : List (Expr Unit)} (h : HoldsAll t lo mid ids xs) (h' : HoldsAll t mid hi ids' xs') :
    HoldsAll t lo hi (ids ++ ids') (xs ++ xs') := by
  induction h with
  | @nil lo mid hle =>
    cases h' with
    | nil hle' => exact .nil (Nat.le_trans hle hle')
    | cons hle' hx hxs =>
      exact .cons (Nat.le_trans hle hle') (hx.mono (Grows.refl t) hle (Nat.le_refl _)) hxs
  | cons hle hx _ ih => exact .cons hle hx (ih h')

theorem nodup_append_of_blocks {l r : Expr NodeId} {lo mid hi : Nat}
    (hl : (l.leaves.map Prod.fst).Nodup) (hr : (r.leaves.map Prod.fst).Nodup)
    (hlb : ∀ y ∈ l.leaves, lo ≤ y.1 ∧ y.1 < mid) (hrb : ∀ y ∈ r.leaves, mid ≤ y.1 ∧ y.1 < hi) :
    ((l.leaves ++ r.leaves).map Prod.fst).Nodup := by
  rw [List.map_append]
  refine List.nodup_append.mpr ⟨hl, hr, fun a ha b hb => ?_⟩
  obtain ⟨y, hy, rfl⟩ := List.mem_map.mp ha
  obtain ⟨z, hz, rfl⟩ := List.mem_map.mp hb
  exact Nat.ne_of_lt (Nat.lt_of_lt_of_le (hlb y hy).2 (hrb z hz).1)

theorem mem_block_of_blocks {l r : Expr NodeId} {lo mid hi : Nat} (hlo : lo ≤ mid)
    (hhi : mid ≤ hi) (hlb : ∀ y ∈ l.leaves, lo ≤ y.1 ∧ y.1 < mid)
    (hrb : ∀ y ∈ r.leaves, mid ≤ y.1 ∧ y.1 < hi) {y : NodeId × Leaf}
    (hy : y ∈ l.leaves ∨ y ∈ r.leaves) : lo ≤ y.1 ∧ y.1 < hi := by
  rcases hy with hy | hy
  · exact ⟨(hlb y hy).1, Nat.lt_of_lt_of_le (hlb y hy).2 hhi⟩
  · exact ⟨Nat.le_trans hlo (hrb y hy).1, (hrb y hy).2⟩

/-- A node over two others joins them if it unfolds to their expressions joined. -/
theorem joins_of_unfold (node : NodeId → NodeId → Node)
    (whole : NodeId → Expr NodeId → Expr NodeId → Expr NodeId)
    {shape : Expr Unit → Expr Unit → Expr Unit}
    (hunfold : ∀ {child : NodeId → Except Failure (Expr NodeId)} {id l r e f},
      child l = .ok e → child r = .ok f → (node l r).unfold child id = .ok (whole id e f))
    (hshape : ∀ id e f, (whole id e f).shape = shape e.shape f.shape)
    (hleaves : ∀ id e f, (whole id e f).leaves = e.leaves ++ f.leaves) :
    Joins (fun l r => place (node l r)) shape := by
  intro t lo mid hi l r x y hlo hhi hx hy
  obtain ⟨e, he, rfl, hend, heb⟩ := hx
  obtain ⟨f, hf, rfl, hfnd, hfb⟩ := hy
  refine ⟨grows_place _ t, whole t.size e f, ?_, hshape _ e f, ?_, fun z hz => ?_⟩
  · show (place _ t).2.expr t.size = _
    rw [expr_place]
    exact hunfold (childExpr_place he) (childExpr_place hf)
  · rw [hleaves]
    exact nodup_append_of_blocks hend hfnd heb hfb
  · rw [hleaves, List.mem_append] at hz
    exact mem_block_of_blocks hlo hhi heb hfb hz

theorem joins_concat : Joins Tree.concat (.concat ()) := by
  refine joins_of_unfold .concat .concat ?_ (fun _ _ _ => rfl)
    Expr.leaves_concat
  intro child id l r e f he hf
  rw [Node.unfold, he, hf]
  rfl

theorem joins_alternation : Joins Tree.alternation (.alternation ()) := by
  refine joins_of_unfold .alternation .alternation ?_ (fun _ _ _ => rfl)
    Expr.leaves_alternation
  intro child id l r e f he hf
  rw [Node.unfold, he, hf]
  rfl

theorem Holds.repetition {t : Tree} {lo hi : Nat} {c : NodeId} {x : Expr Unit} (q : Quantifier)
    (h : Holds t lo hi c x) :
    Holds (Tree.repetition c q t).2 lo hi t.size (.repetition () q x) := by
  obtain ⟨e, he, rfl, hnd, hb⟩ := h
  refine ⟨.repetition t.size q e, ?_, rfl, hnd, hb⟩
  rw [Tree.repetition, expr_place, Node.unfold, childExpr_place he]
  rfl

theorem Holds.capture {t : Tree} {lo hi : Nat} {c : NodeId} {x : Expr Unit} (g : Group)
    (h : Holds t lo hi c x) : Holds (Tree.capture c g t).2 lo hi t.size (.capture () g x) := by
  obtain ⟨e, he, rfl, hnd, hb⟩ := h
  refine ⟨.capture t.size g e, ?_, rfl, hnd, hb⟩
  rw [Tree.capture, expr_place, Node.unfold, childExpr_place he]
  rfl

theorem holds_leaf (t : Tree) (l : Leaf) :
    Holds (Tree.leaf l t).2 t.size (Tree.leaf l t).2.size t.size (.leaf () l) := by
  refine ⟨.leaf t.size l, ?_, rfl, List.pairwise_singleton _ _, fun y hy => ?_⟩
  · rw [Tree.leaf, expr_place]
    rfl
  · obtain rfl := List.mem_singleton.mp hy
    exact ⟨Nat.le_refl _, by simp [Tree.leaf]⟩

/-! ## Joining what was added -/

section

variable {join : NodeId → NodeId → Step NodeId} {shape : Expr Unit → Expr Unit → Expr Unit}

theorem Joins.foldlM (hjoin : Joins join shape) {ids : List NodeId} {xs : List (Expr Unit)}
    {t : Tree} {lo mid hi : Nat} {id : NodeId} {x : Expr Unit} (hlo : lo ≤ mid)
    (hx : Holds t lo mid id x) (h : HoldsAll t mid hi ids xs) :
    t.Grows (ids.foldlM join id t).2 ∧
      Holds (ids.foldlM join id t).2 lo hi (ids.foldlM join id t).1 (xs.foldl shape x) := by
  induction ids generalizing xs t mid id x with
  | nil =>
    cases h with
    | nil hle => exact ⟨Grows.refl t, hx.mono (Grows.refl t) (Nat.le_refl _) hle⟩
  | cons id' ids ih =>
    cases h with
    | cons hle hy hys =>
      obtain ⟨hgrows, hxy⟩ := hjoin hlo hle hx hy
      obtain ⟨hgrows', hall⟩ := ih (Nat.le_trans hlo hle) hxy (hys.mono hgrows)
      exact ⟨hgrows.trans hgrows', hall⟩

theorem Joins.chain (hjoin : Joins join shape) {t : Tree} {lo : Nat} {ids : List NodeId}
    {xs : List (Expr Unit)} (h : HoldsAll t lo t.size ids xs) :
    t.Grows (Tree.chain join ids t).2 ∧
      Holds (Tree.chain join ids t).2 lo (Tree.chain join ids t).2.size (Tree.chain join ids t).1
        (Expr.joined shape xs) := by
  cases h with
  | nil hle =>
    exact ⟨grows_place _ t, (holds_leaf t .empty).mono (Grows.refl _) hle (Nat.le_refl _)⟩
  | cons hle hx hxs =>
    obtain ⟨hgrows, h⟩ := hjoin.foldlM hle hx hxs
    exact ⟨hgrows, h.mono (Grows.refl _) (Nat.le_refl _) hgrows.size_le⟩

theorem Joins.adds (hjoin : Joins join shape) {s r : PartialStep NodeId} {x y : Expr Unit}
    (hs : Adds s x) (hr : Adds r y) :
    Adds (do liftM (join (← s) (← r))) (shape x y) := by
  intro t
  obtain ⟨a, u, hs, hgu, hx⟩ := hs t
  obtain ⟨b, v, hr, hgv, hy⟩ := hr u
  obtain ⟨hgw, hxy⟩ := hjoin hgu.size_le hgv.size_le
    (hx.mono hgv (Nat.le_refl _) (Nat.le_refl _)) hy
  refine ⟨_, (join a b v).2, ?_, (hgu.trans hgv).trans hgw,
    hxy.mono (Grows.refl _) (Nat.le_refl _) hgw.size_le⟩
  rw [run_bind hs, run_bind hr]
  rfl

/-- A list of steps and a joining of what they add. -/
theorem Joins.addsChain (hjoin : Joins join shape) {s : PartialStep (List NodeId)}
    {xs : List (Expr Unit)} (hs : AddsAll s xs) :
    Adds (do liftM (Tree.chain join (← s))) (Expr.joined shape xs) := by
  intro t
  obtain ⟨ids, u, hs, hgu, hxs⟩ := hs t
  obtain ⟨hgv, h⟩ := hjoin.chain hxs
  exact ⟨_, (Tree.chain join ids u).2, by rw [run_bind hs]; rfl, hgu.trans hgv, h⟩

end

theorem adds_leaf (l : Leaf) : Adds (Tree.leaf l) (.leaf () l) := fun t =>
  ⟨t.size, _, rfl, grows_place _ t, holds_leaf t l⟩

theorem Adds.repetition {s : PartialStep NodeId} {x : Expr Unit} (hs : Adds s x) (q : Quantifier) :
    Adds (do Tree.repetition (← s) q) (.repetition () q x) := by
  intro t
  obtain ⟨a, u, hs, hgu, hx⟩ := hs t
  refine ⟨u.size, (Tree.repetition a q u).2, ?_, hgu.trans (grows_place _ u), ?_⟩
  · rw [run_bind hs]
    rfl
  · exact (hx.repetition q).mono (Grows.refl _) (Nat.le_refl _) (grows_place _ u).size_le

theorem Adds.capture {s : PartialStep NodeId} {x : Expr Unit} (hs : Adds s x) (g : Group) :
    Adds (do Tree.capture (← s) g) (.capture () g x) := by
  intro t
  obtain ⟨a, u, hs, hgu, hx⟩ := hs t
  refine ⟨u.size, (Tree.capture a g u).2, ?_, hgu.trans (grows_place _ u), ?_⟩
  · rw [run_bind hs]
    rfl
  · exact (hx.capture g).mono (Grows.refl _) (Nat.le_refl _) (grows_place _ u).size_le

/-! ## Lists of steps -/

theorem addsAll_nil : AddsAll (pure []) [] := fun t =>
  ⟨[], t, rfl, Grows.refl t, .nil (Nat.le_refl _)⟩

theorem AddsAll.cons {s : PartialStep NodeId} {r : PartialStep (List NodeId)} {x : Expr Unit}
    {xs : List (Expr Unit)} (hs : Adds s x) (hr : AddsAll r xs) :
    AddsAll (do return (← s) :: (← r)) (x :: xs) := by
  intro t
  obtain ⟨a, u, hs, hgu, hx⟩ := hs t
  obtain ⟨ids, v, hr, hgv, hxs⟩ := hr u
  refine ⟨a :: ids, v, ?_, hgu.trans hgv, ?_⟩
  · rw [run_bind hs, run_bind hr]
    rfl
  · exact .cons hgu.size_le (hx.mono hgv (Nat.le_refl _) (Nat.le_refl _)) hxs

theorem AddsAll.append {s r : PartialStep (List NodeId)} {xs ys : List (Expr Unit)}
    (hs : AddsAll s xs) (hr : AddsAll r ys) :
    AddsAll (do return (← s) ++ (← r)) (xs ++ ys) := by
  intro t
  obtain ⟨ids, u, hs, hgu, hxs⟩ := hs t
  obtain ⟨ids', v, hr, hgv, hys⟩ := hr u
  refine ⟨ids ++ ids', v, ?_, hgu.trans hgv, (hxs.mono hgv).append hys⟩
  rw [run_bind hs, run_bind hr]
  rfl

theorem AddsAll.times {s : PartialStep NodeId} {x : Expr Unit} (hs : Adds s x) (n : Nat) :
    AddsAll (Expr.times s n) (List.replicate n x) := by
  induction n with
  | zero => exact addsAll_nil
  | succ n ih => exact .cons hs ih

theorem AddsAll.timesFrom {s : Nat → PartialStep NodeId} {x : Nat → Expr Unit}
    (hs : ∀ n, Adds (s n) (x n)) (first n : Nat) :
    AddsAll (Expr.timesFrom s first n) ((List.range' first n).map x) := by
  induction n generalizing first with
  | zero => exact addsAll_nil
  | succ n ih => exact .cons (hs first) (ih (first + 1))

theorem AddsAll.mapM {α : Type} {s : α → PartialStep NodeId} {x : α → Expr Unit} {as : List α}
    (hs : ∀ a ∈ as, Adds (s a) (x a)) : AddsAll (as.mapM s) (as.map x) := by
  induction as with
  | nil => exact addsAll_nil
  | cons a as ih =>
    rw [List.mapM_cons]
    exact .cons (hs a (by simp)) (ih fun b hb => hs b (List.mem_cons_of_mem _ hb))

end Tree

namespace Expr

variable {α : Type}

/-! ## Copies -/

theorem run_checkBounds {id : NodeId} {q : Quantifier} (hv : q.isValid = true) (t : Tree) :
    (checkBounds id q).run t = (.ok (), t) := by
  rw [checkBounds, if_pos hv]
  rfl

theorem adds_checked {id : NodeId} {q : Quantifier} (hv : q.isValid = true)
    {s : Tree.PartialStep NodeId} {x : Expr Unit} (hs : Tree.Adds s x) :
    Tree.Adds (do checkBounds id q; s) x := by
  intro t
  obtain ⟨a, u, hs, h⟩ := hs t
  exact ⟨a, u, by rw [Tree.run_bind (run_checkBounds hv t), hs], h⟩

theorem adds_copy {e : Expr NodeId} (hv : e.Valid) : Tree.Adds e.copy e.shape := by
  induction e with
  | leaf a l => exact Tree.adds_leaf l
  | concat a l r ihl ihr => exact Tree.joins_concat.adds (ihl hv.1) (ihr hv.2)
  | alternation a l r ihl ihr => exact Tree.joins_alternation.adds (ihl hv.1) (ihr hv.2)
  | repetition a q e ih => exact adds_checked hv.1 ((ih hv.2).repetition q)
  | capture a g e ih => exact (ih hv).capture g

theorem adds_unroll {q : Quantifier} {s : Tree.PartialStep NodeId} {x : Expr Unit}
    (hs : Tree.Adds s x) : Tree.Adds (unroll q s) (unrolling q x) := by
  rw [unroll, unrolling]
  split
  · have hlast :=
      Tree.AddsAll.cons (hs.repetition ⟨1, Quantifier.unbounded, q.lazy⟩) Tree.addsAll_nil
    have hall := Tree.joins_concat.addsChain (.append (.times hs (q.required - 1)) hlast)
    simp only [bind_assoc, pure_bind] at hall
    exact hall
  split
  · exact Tree.joins_concat.addsChain (.times hs _)
  split
  · have hrest := Tree.AddsAll.times (hs.repetition ⟨0, 1, true⟩) (q.max.toNat - q.required)
    have hall := Tree.joins_concat.addsChain (.append (.times hs q.required) hrest)
    simp only [bind_assoc, pure_bind] at hall
    exact hall
  · exact Tree.joins_alternation.addsChain
      (.timesFrom (fun n => Tree.joins_concat.addsChain (.times hs n)) _ _)

theorem adds_expand {e : Expr NodeId} (hv : e.Valid) : Tree.Adds e.expand e.unrolled := by
  induction e with
  | leaf a l => exact Tree.adds_leaf l
  | concat a l r ihl ihr => exact Tree.joins_concat.adds (ihl hv.1) (ihr hv.2)
  | alternation a l r ihl ihr => exact Tree.joins_alternation.adds (ihl hv.1) (ihr hv.2)
  | repetition a q e ih =>
    rw [expand, unrolled_repetition]
    apply adds_checked hv.1
    split
    · exact adds_unroll (ih hv.2)
    · exact (ih hv.2).repetition q
  | capture a g e ih => exact (ih hv).capture g

end Expr

end PositionAutomata
