import PositionAutomata.Proofs.Tree.Building

/-
  Why copies of an expression are not made.

  A step has a fault if it fails with it whatever was built before, and none if
  it always succeeds (`HasFault`). The fault of steps in turn is that of the first
  one that has any. Copying meets the nodes of an expression in pre-order, and
  writing out a repetition goes through what it repeats at least once; so either
  way the fault is the first repetition in pre-order whose minimum is above its
  maximum (`hasFault_copy`, `hasFault_expand`).
-/

namespace PositionAutomata

/-- The failure of a result that is one. -/
def Failure.of? {α : Type} : Except Failure α → Option Failure
  | .ok _ => none
  | .error f => some f

/-- Whether the node is a bounded repetition whose minimum is above its maximum. -/
def Node.isMisbounded : Node → Bool
  | repetition _ q => 0 < q.max && q.max < q.min
  | _ => false

/-- The tag of the first part, in pre-order, that is a repetition with its minimum above its
maximum. -/
def Expr.misbounded? (e : Expr NodeId) : Option NodeId :=
  (e.subexprs.find? fun x => x.node.isMisbounded).map tag

section

variable {α β : Type} {f : Failure}

theorem Failure.of?_eq_some_iff {x : Except Failure α} : of? x = some f ↔ x = .error f := by
  cases x with
  | ok a => simp [of?]
  | error g => simp [of?]

theorem Failure.of?_eq_none_iff {x : Except Failure α} : of? x = none ↔ ∃ a, x = .ok a := by
  cases x with
  | ok a => simp [of?]
  | error g => simp [of?]

theorem findSome?_cons_eq_or {x : α → Option β} {a : α} {as : List α} :
    (a :: as).findSome? x = (x a).or (as.findSome? x) := by
  rw [List.findSome?_cons]
  cases x a with
  | none => rfl
  | some b => rfl

/-- If one thing alone may be found, and is found somewhere, then it is found first. -/
theorem findSome?_ite {p : α → Prop} [DecidablePred p] {as : List α} {b : Option β}
    (h : ∃ a ∈ as, ¬p a) : (as.findSome? fun a => if p a then none else b) = b := by
  cases hx : as.findSome? fun a => if p a then none else b with
  | none =>
    obtain ⟨a, ha, hp⟩ := h
    have hb := List.findSome?_eq_none_iff.mp hx a ha
    rw [if_neg hp] at hb
    exact hb.symm
  | some c =>
    obtain ⟨a, _, ha⟩ := List.exists_of_findSome?_eq_some hx
    split at ha
    next => exact absurd ha (by simp)
    next => exact ha.symm

end

/-! ## Steps in turn -/

namespace Tree

variable {α β : Type}

/-- A step fails in that way on every tree, or on none. -/
def HasFault (s : PartialStep α) (f : Option Failure) : Prop := ∀ t, Failure.of? (s.run t).1 = f

variable {s : PartialStep α} {f g : Option Failure}

theorem hasFault_lift (s : Step α) : HasFault (liftM s) none := fun _ => rfl

theorem hasFault_pure (a : α) : HasFault (pure a) none := fun _ => rfl

theorem HasFault.bind {r : α → PartialStep β} (hs : HasFault s f) (hr : ∀ a, HasFault (r a) g) :
    HasFault (s >>= r) (f.or g) := by
  intro t
  rw [← hs t]
  cases hrun : (s.run t).1 with
  | ok a =>
    rw [run_bind (Prod.ext hrun rfl), hr a]
    rfl
  | error e =>
    rw [run_bind_error (Prod.ext hrun rfl)]
    rfl

/-- A step without a fault after another one leaves it its fault. -/
theorem HasFault.bind_none {r : α → PartialStep β} (hs : HasFault s f)
    (hr : ∀ a, HasFault (r a) none) : HasFault (s >>= r) f := by
  have h := hs.bind hr
  rwa [Option.or_none] at h

theorem HasFault.cons {r : PartialStep (List α)} (hs : HasFault s f) (hr : HasFault r g) :
    HasFault (do return (← s) :: (← r)) (f.or g) :=
  hs.bind fun a => hr.bind_none fun as => hasFault_pure (a :: as)

theorem HasFault.times (hs : HasFault s f) (n : Nat) :
    HasFault (Expr.times s n) (if n = 0 then none else f) := by
  induction n with
  | zero => exact hasFault_pure []
  | succ n ih =>
    have hf : f.or (if n = 0 then none else f) = f := by
      split
      next => exact Option.or_none
      next => exact Option.or_self
    rw [if_neg n.succ_ne_zero]
    exact hf ▸ hs.cons ih

theorem HasFault.timesFrom {r : Nat → PartialStep α} {x : Nat → Option Failure}
    (hr : ∀ n, HasFault (r n) (x n)) (first n : Nat) :
    HasFault (Expr.timesFrom r first n) ((List.range' first n).findSome? x) := by
  induction n generalizing first with
  | zero => exact hasFault_pure []
  | succ n ih =>
    rw [List.range'_succ, findSome?_cons_eq_or]
    exact (hr first).cons (ih (first + 1))

theorem HasFault.mapM {r : β → PartialStep α} {x : β → Option Failure}
    (hr : ∀ b, HasFault (r b) (x b)) (bs : List β) : HasFault (bs.mapM r) (bs.findSome? x) := by
  induction bs with
  | nil => exact hasFault_pure []
  | cons b bs ih =>
    rw [List.mapM_cons, findSome?_cons_eq_or]
    exact (hr b).cons ih

theorem HasFault.build {s : PartialStep NodeId} (hs : HasFault s f) :
    Failure.of? (build s) = f := by
  rw [← hs .empty, Tree.build]
  split
  next h => rw [h]; rfl
  next h => rw [h]; rfl

end Tree

/-! ## Copies -/

namespace Expr

variable {a : NodeId} {q : Quantifier} {e l r : Expr NodeId} {s : Tree.PartialStep NodeId}
  {f : Option Failure}

theorem misbounded?_concat : (concat a l r).misbounded? = l.misbounded?.or r.misbounded? := by
  simp [misbounded?, node, Node.isMisbounded, Option.map_or]

theorem misbounded?_alternation :
    (alternation a l r).misbounded? = l.misbounded?.or r.misbounded? := by
  simp [misbounded?, node, Node.isMisbounded, Option.map_or]

theorem misbounded?_repetition :
    (repetition a q e).misbounded? = if q.isValid then e.misbounded? else some a := by
  have hv : q.isValid = !(decide (0 < q.max) && decide (q.max < q.min)) := by
    rw [Quantifier.isValid, Quantifier.isUnbounded, Bool.eq_iff_iff]
    simp
  rw [hv]
  cases h : decide (0 < q.max) && decide (q.max < q.min) with
  | true => simp [misbounded?, node, Node.isMisbounded, h]
  | false => simp [misbounded?, node, Node.isMisbounded, h]

theorem misbounded?_eq_none_iff : e.misbounded? = none ↔ e.Valid := by
  induction e with
  | leaf a l => exact iff_of_true rfl trivial
  | concat a l r ihl ihr => rw [misbounded?_concat, Option.or_eq_none_iff, ihl, ihr, Valid]
  | alternation a l r ihl ihr =>
    rw [misbounded?_alternation, Option.or_eq_none_iff, ihl, ihr, Valid]
  | repetition a q e ih =>
    rw [misbounded?_repetition, Valid, ← ih]
    cases q.isValid <;> simp
  | capture a g e ih => exact ih

/-- What an alternation of alternatives has misbounded first, the first alternative with any has. -/
theorem findSome?_alternatives (e : Expr NodeId) :
    e.alternatives.findSome? misbounded? = e.misbounded? := by
  induction e with
  | alternation a l r ihl ihr =>
    rw [alternatives, List.findSome?_append, ihl, ihr, misbounded?_alternation]
  | _ => exact List.findSome?_singleton

theorem hasFault_checked
    (hs : q.isValid = true → Tree.HasFault s (e.misbounded?.map .invalidRepetition)) :
    Tree.HasFault (do checkBounds a q; s)
      ((repetition a q e).misbounded?.map .invalidRepetition) := by
  intro t
  rw [misbounded?_repetition]
  cases hv : q.isValid with
  | true =>
    rw [Tree.run_bind (run_checkBounds hv t)]
    exact hs hv t
  | false =>
    have hrun : (checkBounds a q).run t = (.error (.invalidRepetition a), t) := by
      rw [checkBounds, hv]
      rfl
    rw [Tree.run_bind_error hrun]
    rfl

theorem hasFault_copy (e : Expr NodeId) :
    Tree.HasFault e.copy (e.misbounded?.map .invalidRepetition) := by
  induction e with
  | leaf a l => exact Tree.hasFault_lift _
  | concat a l r ihl ihr =>
    rw [misbounded?_concat, Option.map_or]
    exact ihl.bind fun _ => ihr.bind_none fun _ => Tree.hasFault_lift _
  | alternation a l r ihl ihr =>
    rw [misbounded?_alternation, Option.map_or]
    exact ihl.bind fun _ => ihr.bind_none fun _ => Tree.hasFault_lift _
  | repetition a q e ih =>
    exact hasFault_checked fun _ => ih.bind_none fun _ => Tree.hasFault_lift _
  | capture a g e ih => exact ih.bind_none fun _ => Tree.hasFault_lift _

/-- A counted repetition is not written out without adding what it repeats. -/
theorem hasFault_unroll (hs : Tree.HasFault s f) (hv : q.isValid = true)
    (hc : q.isCounted = true) : Tree.HasFault (unroll q s) f := by
  have hor : ∀ n : Nat, (if n = 0 then none else f).or f = f := by
    intro n
    split
    next => exact Option.none_or
    next => exact Option.or_self
  have hchain : ∀ n, Tree.HasFault (do liftM (Tree.concatAll (← times s n)))
      (if n = 0 then none else f) := fun n =>
    (hs.times n).bind_none fun _ => Tree.hasFault_lift _
  rw [unroll]
  split
  next =>
    have h := (hs.times (q.required - 1)).bind fun items => hs.bind_none fun a =>
      (Tree.hasFault_lift (Tree.repetition a ⟨1, Quantifier.unbounded, q.lazy⟩)).bind_none
        fun last => Tree.hasFault_lift (Tree.concatAll (items ++ [last]))
    exact hor (q.required - 1) ▸ h
  next hu =>
    have hmax : 1 < q.max := by simpa [Quantifier.isCounted, hu] using hc
    have hle : q.min ≤ q.max := by simpa [Quantifier.isValid, hu] using hv
    have hreq : (q.required : Int) = max q.min 0 := by
      rw [Quantifier.required]
      omega
    split
    next heq =>
      have h := hchain q.required
      rwa [if_neg (by omega)] at h
    split
    -- Nothing may be required, but then something is optional.
    next hne _ =>
      have hoptional : Tree.HasFault (do Tree.repetition (← s) ⟨0, 1, true⟩) f :=
        hs.bind_none fun _ => Tree.hasFault_lift _
      have h := (hs.times q.required).bind fun items =>
        (hoptional.times (q.max.toNat - q.required)).bind_none fun rest =>
          Tree.hasFault_lift (Tree.concatAll (items ++ rest))
      have hrest : q.max.toNat - q.required ≠ 0 := by omega
      rw [if_neg hrest] at h
      exact hor q.required ▸ h
    -- The choice of most copies has some, since the maximum is above one.
    next hne _ =>
      have h := (Tree.HasFault.timesFrom hchain q.required q.choices).bind_none fun items =>
        Tree.hasFault_lift (Tree.anyOf items)
      have hmost : ∃ n ∈ List.range' q.required q.choices, n ≠ 0 :=
        ⟨q.max.toNat, List.mem_range'_1.mpr (by rw [Quantifier.choices]; omega), by omega⟩
      rwa [findSome?_ite hmost] at h

theorem hasFault_expand (e : Expr NodeId) :
    Tree.HasFault e.expand (e.misbounded?.map .invalidRepetition) := by
  induction e with
  | leaf a l => exact Tree.hasFault_lift _
  | concat a l r ihl ihr =>
    rw [misbounded?_concat, Option.map_or]
    exact ihl.bind fun _ => ihr.bind_none fun _ => Tree.hasFault_lift _
  | alternation a l r ihl ihr =>
    rw [misbounded?_alternation, Option.map_or]
    exact ihl.bind fun _ => ihr.bind_none fun _ => Tree.hasFault_lift _
  | repetition a q e ih =>
    refine hasFault_checked fun hv => ?_
    split
    next hc =>
      rw [Bool.and_eq_true] at hc
      exact hasFault_unroll ih hv hc.1
    next => exact ih.bind_none fun _ => Tree.hasFault_lift _
  | capture a g e ih => exact ih.bind_none fun _ => Tree.hasFault_lift _

/-- What is built as a copy of an expression shows that no repetition in it is misbounded. -/
theorem valid_of_build {u : Tree} (hs : Tree.HasFault s (e.misbounded?.map .invalidRepetition))
    (h : Tree.build s = .ok u) : e.Valid := by
  have hfault := hs.build
  rw [h] at hfault
  exact misbounded?_eq_none_iff.mp (Option.map_eq_none_iff.mp hfault.symm)

end Expr

end PositionAutomata
