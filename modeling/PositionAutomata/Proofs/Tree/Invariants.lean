import PositionAutomata.Proofs.Tree.Building

/-
  What building steps keep.

  A step keeps a property of trees if the tree it leaves has it whenever the tree
  before had it, also where the step fails (`Keeps`). Steps in turn keep what each
  of them keeps, so an expression that is written out keeps what its nodes keep:
  these count nothing, except for repetitions of an empty leaf (`keeps_expand`).
-/

namespace PositionAutomata

/-- Whether the node is a repetition that has to be written out. -/
def Node.isCounted : Node → Bool
  | repetition _ q => q.isCounted
  | _ => false

namespace Tree

variable {α β : Type} {p : Tree → Prop} {s : PartialStep α}

/-- The step leaves a property true of trees, also if it fails. -/
def Keeps (p : Tree → Prop) (s : PartialStep α) : Prop := ∀ t, p t → p (s.run t).2

theorem keeps_pure (a : α) : Keeps p (pure a) := fun _ h => h

theorem keeps_lift {s : Step α} (hs : ∀ t, p t → p (s t).2) : Keeps p (liftM s) := hs

theorem keeps_checkBounds (id : NodeId) (q : Quantifier) : Keeps p (Expr.checkBounds id q) := by
  intro t ht
  rw [Expr.checkBounds]
  split
  · exact ht
  · exact ht

theorem Keeps.bind {r : α → PartialStep β} (hs : Keeps p s) (hr : ∀ a, Keeps p (r a)) :
    Keeps p (s >>= r) := by
  intro t ht
  have hu := hs t ht
  cases hrun : (s.run t).1 with
  | ok a =>
    rw [run_bind (Prod.ext hrun rfl)]
    exact hr a _ hu
  | error e =>
    rw [run_bind_error (Prod.ext hrun rfl)]
    exact hu

theorem Keeps.cons {r : PartialStep (List α)} (hs : Keeps p s) (hr : Keeps p r) :
    Keeps p (do return (← s) :: (← r)) :=
  hs.bind fun a => hr.bind fun as => keeps_pure (a :: as)

theorem Keeps.times (hs : Keeps p s) (n : Nat) : Keeps p (Expr.times s n) := by
  induction n with
  | zero => exact keeps_pure []
  | succ n ih => exact hs.cons ih

theorem Keeps.timesFrom {r : Nat → PartialStep α} (hr : ∀ n, Keeps p (r n)) (first n : Nat) :
    Keeps p (Expr.timesFrom r first n) := by
  induction n generalizing first with
  | zero => exact keeps_pure []
  | succ n ih => exact (hr first).cons (ih (first + 1))

/-- What is built has a property that the steps keep, which does not depend on the root. -/
theorem Keeps.build {s : PartialStep NodeId} (hs : Keeps p s) (empty : p empty)
    (root : ∀ t id, p t → p { t with root := some id }) {u : Tree} (h : build s = .ok u) : p u := by
  rw [Tree.build] at h
  have hp := hs .empty empty
  split at h
  next id t hrun =>
    cases h
    rw [hrun] at hp
    exact root t id hp
  next => exact absurd h (by simp)

/-! ## Nodes that count nothing -/

section

variable (hplace : ∀ n t, n.isCounted = false → p t → p (place n t).2)

include hplace

theorem keeps_place {n : Node} (hn : n.isCounted = false) : Keeps p (liftM (place n)) :=
  keeps_lift fun t => hplace n t hn

theorem keeps_chain {node : NodeId → NodeId → Node} (hnode : ∀ l r, (node l r).isCounted = false)
    (ids : List NodeId) : Keeps p (liftM (chain (fun l r => place (node l r)) ids)) := by
  apply keeps_lift
  intro t ht
  cases ids with
  | nil => exact hplace (.leaf .empty) t rfl ht
  | cons id ids =>
    rw [chain]
    induction ids generalizing id t with
    | nil => exact ht
    | cons id' ids ih => exact ih _ (hplace _ t (hnode id id') ht) _

theorem keeps_concatAll (ids : List NodeId) : Keeps p (liftM (concatAll ids)) :=
  keeps_chain hplace (fun _ _ => rfl) ids

theorem keeps_anyOf (ids : List NodeId) : Keeps p (liftM (anyOf ids)) :=
  keeps_chain hplace (fun _ _ => rfl) ids

/-- The repetitions that are left of a counted one count nothing. -/
theorem keeps_unroll {s : PartialStep NodeId} (hs : Keeps p s) (q : Quantifier) :
    Keeps p (Expr.unroll q s) := by
  rw [Expr.unroll]
  split
  · exact (hs.times _).bind fun items => hs.bind fun c =>
      (keeps_place hplace rfl).bind fun last => keeps_concatAll hplace _
  split
  · exact (hs.times _).bind fun items => keeps_concatAll hplace items
  split
  · have hoptional : Keeps p (do Tree.repetition (← s) ⟨0, 1, true⟩) :=
      hs.bind fun c => keeps_place hplace rfl
    exact (hs.times _).bind fun items => (hoptional.times _).bind fun rest =>
      keeps_concatAll hplace _
  · have hcopies : ∀ n, Keeps p (do Tree.concatAll (← Expr.times s n)) := fun n =>
      (hs.times n).bind fun items => keeps_concatAll hplace items
    exact (Keeps.timesFrom hcopies _ _).bind fun items => keeps_anyOf hplace items

/-- Writing out an expression keeps what is kept by nodes that count nothing and by repetitions of
an empty leaf. -/
theorem keeps_expand
    (hempty : ∀ q t, p t → p (repetition (leaf .empty t).1 q (leaf .empty t).2).2)
    (e : Expr NodeId) : Keeps p e.expand := by
  induction e with
  | leaf a l => exact keeps_place hplace rfl
  | concat a l r ihl ihr => exact ihl.bind fun _ => ihr.bind fun _ => keeps_place hplace rfl
  | alternation a l r ihl ihr => exact ihl.bind fun _ => ihr.bind fun _ => keeps_place hplace rfl
  | repetition a q e ih =>
    refine (keeps_checkBounds a q).bind fun _ => ?_
    split
    · exact keeps_unroll hplace ih q
    next hc =>
      by_cases hq : q.isCounted = true
      · have hleaf : e.isEmptyLeaf = true := by simpa [hq] using hc
        obtain ⟨b, rfl⟩ := Expr.exists_of_isEmptyLeaf hleaf
        exact hempty q
      · exact ih.bind fun c => keeps_place hplace (by simpa [Node.isCounted] using hq)
  | capture a g e ih => exact ih.bind fun _ => keeps_place hplace rfl

end

end Tree

end PositionAutomata
