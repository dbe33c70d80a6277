import PositionAutomata.Proofs.Tree.Building

/-
  What building steps leave as it is.

  Whether a step succeeds or fails, it only adds nodes at the end of the tree that
  it is given (`Extends`), and a step that ends by adding a node answers the last
  one (`Appends`). So do copying and expanding (`appends_copy`, `appends_expand`),
  because a repetition that is written out has two parts at least, which a node of
  its own joins last.
-/

namespace PositionAutomata

namespace Tree

variable {α β : Type} {p : α → Prop} {q : β → Prop} {s : PartialStep α}

/-! ## What steps leave as it is -/

/-- Whatever tree it is given, the step adds nodes at its end and changes nothing else, and if it
succeeds, its answer is as stated. -/
def Extends (p : α → Prop) (s : PartialStep α) : Prop :=
  ∀ t, t.Grows (s.run t).2 ∧ (s.run t).2.root = t.root ∧ ∀ a, (s.run t).1 = .ok a → p a

/-- Whatever tree it is given, the step adds nodes at its end and changes nothing else, and if it
succeeds, it has added some and answers the last one. -/
def Appends (s : PartialStep NodeId) : Prop :=
  ∀ t, t.Grows (s.run t).2 ∧ (s.run t).2.root = t.root ∧
    ∀ id, (s.run t).1 = .ok id → t.size ≤ id ∧ id + 1 = (s.run t).2.size

theorem Appends.extends {s : PartialStep NodeId} (hs : Appends s) : Extends (fun _ => True) s :=
  fun t => ⟨(hs t).1, (hs t).2.1, fun _ _ => trivial⟩

theorem extends_pure {a : α} (ha : p a) : Extends p (pure a) := by
  refine fun t => ⟨Grows.refl t, rfl, fun b hb => ?_⟩
  cases hb
  exact ha

theorem extends_error (f : Failure) : Extends p (throw f) :=
  fun t => ⟨Grows.refl t, rfl, fun _ h => nomatch h⟩

theorem extends_lift (x : Except Failure α) : Extends (fun _ => True) (liftM x) := by
  cases x with
  | ok a => exact extends_pure trivial
  | error f => exact extends_error f

theorem Extends.bind {r : α → PartialStep β} (hs : Extends p s)
    (hr : ∀ a, p a → Extends q (r a)) : Extends q (s >>= r) := by
  intro t
  obtain ⟨hgrows, hroot, hp⟩ := hs t
  cases hrun : (s.run t).1 with
  | ok a =>
    rw [run_bind (Prod.ext hrun rfl)]
    obtain ⟨hgrows', hroot', hq⟩ := hr a (hp a hrun) (s.run t).2
    exact ⟨hgrows.trans hgrows', hroot'.trans hroot, hq⟩
  | error f =>
    rw [run_bind_error (Prod.ext hrun rfl)]
    exact ⟨hgrows, hroot, fun _ h => nomatch h⟩

/-- What the last step answers comes after all that was there before the first one. -/
theorem Extends.appends {r : α → PartialStep NodeId} (hs : Extends p s)
    (hr : ∀ a, p a → Appends (r a)) : Appends (s >>= r) := by
  intro t
  obtain ⟨hgrows, hroot, hp⟩ := hs t
  cases hrun : (s.run t).1 with
  | ok a =>
    rw [run_bind (Prod.ext hrun rfl)]
    obtain ⟨hgrows', hroot', hlast⟩ := hr a (hp a hrun) (s.run t).2
    refine ⟨hgrows.trans hgrows', hroot'.trans hroot, fun id hid => ?_⟩
    exact ⟨Nat.le_trans hgrows.size_le (hlast id hid).1, (hlast id hid).2⟩
  | error f =>
    rw [run_bind_error (Prod.ext hrun rfl)]
    exact ⟨hgrows, hroot, fun _ h => nomatch h⟩

theorem appends_place (n : Node) : Appends (liftM (place n)) := by
  refine fun t => ⟨grows_place n t, rfl, fun id hid => ?_⟩
  cases hid
  exact ⟨Nat.le_refl _, (size_place n t).symm⟩

theorem Appends.place {s : PartialStep NodeId} (hs : Appends s) (node : NodeId → Node) :
    Appends (do liftM (Tree.place (node (← s)))) :=
  hs.extends.appends fun a _ => appends_place (node a)

theorem Appends.place_two {s r : PartialStep NodeId} (hs : Appends s) (hr : Appends r)
    (node : NodeId → NodeId → Node) : Appends (do liftM (Tree.place (node (← s) (← r)))) :=
  hs.extends.appends fun a _ => hr.place (node a)

theorem extends_checkBounds (id : NodeId) (q : Quantifier) :
    Extends (fun _ => q.isValid = true) (Expr.checkBounds id q) := by
  rw [Expr.checkBounds]
  split
  next hv => exact extends_pure hv
  next => exact extends_error _

/-! ## Chains -/

variable {node : NodeId → NodeId → Node}

theorem appends_foldlM (first second : NodeId) (rest : List NodeId) :
    Appends (liftM ((second :: rest).foldlM (fun l r => place (node l r)) first)) := by
  induction rest generalizing first second with
  | nil =>
    rw [List.foldlM_cons]
    simp only [List.foldlM_nil, bind_pure]
    exact appends_place _
  | cons third rest ih =>
    rw [List.foldlM_cons, liftM_bind]
    exact (appends_place _).extends.appends fun joined _ => ih joined third

/-- A chain of two items at least ends with a node that joins. -/
theorem appends_chain {ids : List NodeId} (h : 2 ≤ ids.length) :
    Appends (liftM (chain (fun l r => place (node l r)) ids)) :=
  match ids with
  | first :: second :: rest => appends_foldlM first second rest

theorem extends_chain (ids : List NodeId) :
    Extends (fun _ => True) (liftM (chain (fun l r => place (node l r)) ids)) :=
  match ids with
  | [] => (appends_place (.leaf .empty)).extends
  | [_] => extends_pure trivial
  | first :: second :: rest => (appends_foldlM first second rest).extends

/-! ## Repeated steps -/

theorem Extends.times (hs : Extends (fun _ => True) s) (n : Nat) :
    Extends (fun as => as.length = n) (Expr.times s n) := by
  induction n with
  | zero => exact extends_pure rfl
  | succ n ih =>
    exact hs.bind fun a _ => ih.bind fun as has => extends_pure (congrArg Nat.succ has)

theorem Extends.timesFrom {r : Nat → PartialStep α} (hr : ∀ n, Extends (fun _ => True) (r n))
    (first n : Nat) : Extends (fun as => as.length = n) (Expr.timesFrom r first n) := by
  induction n generalizing first with
  | zero => exact extends_pure rfl
  | succ n ih =>
    exact (hr first).bind fun a _ => (ih _).bind fun as has => extends_pure (congrArg Nat.succ has)

end Tree

namespace Expr

open PositionAutomata.Tree (PartialStep Appends Extends)

theorem appends_copy (e : Expr NodeId) : Appends e.copy := by
  induction e with
  | leaf a l => exact Tree.appends_place _
  | concat a l r ihl ihr => exact ihl.place_two ihr .concat
  | alternation a l r ihl ihr => exact ihl.place_two ihr .alternation
  | repetition a q e ih =>
    exact (Tree.extends_checkBounds a q).appends fun _ _ => ih.place (.repetition · q)
  | capture a g e ih => exact ih.place (.capture · g)

/-- A repetition that is written out has two parts at least. -/
theorem appends_unroll {q : Quantifier} {s : PartialStep NodeId} (hs : Appends s)
    (hv : q.isValid = true) (hc : q.isCounted = true) : Appends (unroll q s) := by
  rw [unroll]
  split
  -- No maximum: all copies but one, then the last one repeated.
  next hu =>
    have hmin : 1 < q.min := by simpa [Quantifier.isCounted, hu] using hc
    refine (hs.extends.times _).appends fun items hitems => hs.extends.appends fun c _ =>
      (Tree.appends_place _).extends.appends fun last _ => Tree.appends_chain ?_
    rw [List.length_append, List.length_singleton, hitems, Quantifier.required]
    omega
  next hu =>
    have hmax : 1 < q.max := by simpa [Quantifier.isCounted, hu] using hc
    have hle : q.min ≤ q.max := by simpa [Quantifier.isValid, hu] using hv
    split
    -- One count: as many copies as required.
    next heq =>
      refine (hs.extends.times _).appends fun items hitems => Tree.appends_chain ?_
      rw [hitems, Quantifier.required]
      omega
    split
    -- Lazy: the required copies, then optional ones.
    next hne _ =>
      have hoptional : Appends (do Tree.repetition (← s) ⟨0, 1, true⟩) := hs.place (.repetition · _)
      refine (hs.extends.times _).appends fun items hitems =>
        (hoptional.extends.times _).appends fun rest hrest => Tree.appends_chain ?_
      rw [List.length_append, hitems, hrest, Quantifier.required]
      omega
    -- Greedy: a choice of counts, of which there are two at least.
    next hne _ =>
      have hcopies : ∀ n, Extends (fun _ => True) (do Tree.concatAll (← times s n)) := fun n =>
        (hs.extends.times n).bind fun items _ => Tree.extends_chain items
      refine (Tree.Extends.timesFrom hcopies _ _).appends fun items hitems => Tree.appends_chain ?_
      rw [hitems, Quantifier.choices, Quantifier.required]
      omega

theorem appends_expand (e : Expr NodeId) : Appends e.expand := by
  induction e with
  | leaf a l => exact Tree.appends_place _
  | concat a l r ihl ihr => exact ihl.place_two ihr .concat
  | alternation a l r ihl ihr => exact ihl.place_two ihr .alternation
  | repetition a q e ih =>
    refine (Tree.extends_checkBounds a q).appends fun _ hv => ?_
    split
    next hc =>
      rw [Bool.and_eq_true] at hc
      exact appends_unroll ih hv hc.1
    next => exact ih.place (.repetition · q)
  | capture a g e ih => exact ih.place (.capture · g)

end Expr

end PositionAutomata
