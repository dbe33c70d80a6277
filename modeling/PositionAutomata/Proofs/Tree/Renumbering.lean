import PositionAutomata.Proofs.Tree.Building

/-
  Copies of renumbered expressions.

  A copy does not depend on the numbers of the nodes that it is made of. They
  show in failures alone, so to copy or to expand an expression with other tags
  is to copy or to expand it and to renumber the failures (`copy_map`,
  `expand_map`). Renumbering goes through whatever steps are put together from
  (`renumber_bind`).
-/

namespace PositionAutomata

/-- The failure with the node that it names renumbered. -/
def Failure.renumber (g : NodeId → NodeId) : Failure → Failure
  | unknownNode id => unknownNode (g id)
  | invalidRepetition id => invalidRepetition (g id)
  | f => f

namespace Tree

variable {α β : Type} {g : NodeId → NodeId}

/-- The step, its failures naming renumbered nodes. -/
def renumber (g : NodeId → NodeId) (s : PartialStep α) : PartialStep α :=
  ExceptT.adapt (Failure.renumber g) s

theorem run_renumber (s : PartialStep α) (t : Tree) :
    (renumber g s).run t = ((s.run t).1.mapError (Failure.renumber g), (s.run t).2) := rfl

theorem renumber_bind (s : PartialStep α) (f : α → PartialStep β) :
    renumber g (s >>= f) = renumber g s >>= fun a => renumber g (f a) := by
  funext t
  show (renumber g (s >>= f)).run t = (renumber g s >>= fun a => renumber g (f a)).run t
  rcases hs : s.run t with ⟨e | a, u⟩
  · have hr : (renumber g s).run t = (.error (e.renumber g), u) := by rw [run_renumber, hs]; rfl
    rw [run_renumber, run_bind_error hs, run_bind_error hr]
    rfl
  · have hr : (renumber g s).run t = (.ok a, u) := by rw [run_renumber, hs]; rfl
    rw [run_renumber, run_bind hs, run_bind hr, run_renumber]

theorem renumber_mapM (s : β → PartialStep α) (bs : List β) :
    renumber g (bs.mapM s) = bs.mapM fun b => renumber g (s b) := by
  induction bs with
  | nil => rfl
  | cons b bs ih =>
    simp only [List.mapM_cons, renumber_bind, ih]
    rfl

theorem build_renumber (s : PartialStep NodeId) :
    build (renumber g s) = (build s).mapError (Failure.renumber g) := by
  rw [build, build, run_renumber]
  rcases s.run empty with ⟨e | id, u⟩
  · rfl
  · rfl

end Tree

namespace Expr

open PositionAutomata.Tree (PartialStep renumber renumber_bind)

variable {α : Type} {g : NodeId → NodeId}

/-! ## Steps that are repeated -/

theorem renumber_times (s : PartialStep α) (n : Nat) :
    renumber g (times s n) = times (renumber g s) n := by
  induction n with
  | zero => rfl
  | succ n ih =>
    simp only [times, renumber_bind, ih]
    rfl

theorem renumber_timesFrom (s : Nat → PartialStep α) (first n : Nat) :
    renumber g (timesFrom s first n) = timesFrom (fun i => renumber g (s i)) first n := by
  induction n generalizing first with
  | zero => rfl
  | succ n ih =>
    simp only [timesFrom, renumber_bind, ih]
    rfl

theorem renumber_checkBounds (id : NodeId) (q : Quantifier) :
    renumber g (checkBounds id q) = checkBounds (g id) q := by
  rw [checkBounds, checkBounds]
  split
  · rfl
  · rfl

theorem renumber_unroll (q : Quantifier) (s : PartialStep NodeId) :
    renumber g (unroll q s) = unroll q (renumber g s) := by
  rw [unroll, unroll]
  split
  · simp only [renumber_bind, renumber_times]
    rfl
  split
  · simp only [renumber_bind, renumber_times]
    rfl
  split
  · simp only [renumber_bind, renumber_times]
    rfl
  · simp only [renumber_bind, renumber_timesFrom, renumber_times]
    rfl

/-! ## Copies -/

theorem copy_map (e : Expr NodeId) : (e.map g).copy = renumber g e.copy := by
  induction e with
  | leaf a l => rfl
  | concat a l r ihl ihr =>
    simp only [map, copy, renumber_bind, ihl, ihr]
    rfl
  | alternation a l r ihl ihr =>
    simp only [map, copy, renumber_bind, ihl, ihr]
    rfl
  | repetition a q e ih =>
    simp only [map, copy, renumber_bind, renumber_checkBounds, ih]
    rfl
  | capture a c e ih =>
    simp only [map, copy, renumber_bind, ih]
    rfl

theorem expand_map (e : Expr NodeId) : (e.map g).expand = renumber g e.expand := by
  induction e with
  | leaf a l => rfl
  | concat a l r ihl ihr =>
    simp only [map, expand, renumber_bind, ihl, ihr]
    rfl
  | alternation a l r ihl ihr =>
    simp only [map, expand, renumber_bind, ihl, ihr]
    rfl
  | repetition a q e ih =>
    simp only [map, expand, renumber_bind, renumber_checkBounds, isEmptyLeaf_map, ih]
    split
    · rw [renumber_unroll]
    · simp only [renumber_bind]
      rfl
  | capture a c e ih =>
    simp only [map, expand, renumber_bind, ih]
    rfl

end Expr

end PositionAutomata
