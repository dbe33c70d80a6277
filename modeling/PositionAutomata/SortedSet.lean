/-
  Finite sets of natural numbers, kept as strictly increasing lists.

  Sets of positions, of states and of interval bounds are all of this type.
  The order is part of the type, so two sets with the same members are equal
  (`SortedSet.ext`) and listing a set always gives its members in ascending
  order. Each operation is described by its members: `mem_union`,
  `mem_inter`, `mem_insert`, `mem_ofList`, `mem_filter`, `mem_biUnion`.
-/

namespace PositionAutomata

/-- A finite set of natural numbers. -/
structure SortedSet where
  toList : List Nat
  sorted : toList.Pairwise (· < ·)
  deriving DecidableEq

namespace SortedSet

instance : Membership Nat SortedSet where
  mem s x := x ∈ s.toList

instance (x : Nat) (s : SortedSet) : Decidable (x ∈ s) :=
  inferInstanceAs (Decidable (x ∈ s.toList))

theorem ext_toList {s t : SortedSet} (h : s.toList = t.toList) : s = t := by
  cases s
  cases t
  simp_all

theorem mem_def {x : Nat} {s : SortedSet} : x ∈ s ↔ x ∈ s.toList := Iff.rfl

/-- The set without members. -/
def empty : SortedSet := ⟨[], .nil⟩

instance : EmptyCollection SortedSet := ⟨empty⟩
instance : Inhabited SortedSet := ⟨empty⟩

/-- The set with one member. -/
def singleton (x : Nat) : SortedSet := ⟨[x], List.pairwise_singleton _ _⟩

/-- The smallest member. -/
def min? (s : SortedSet) : Option Nat := s.toList.head?

/-- Whether there is no member. -/
def isEmpty (s : SortedSet) : Bool := s.toList.isEmpty

/-- Number of members. -/
def size (s : SortedSet) : Nat := s.toList.length

/-! ## Union -/

/-- Merge of two strictly increasing lists; a value in both is kept once. -/
def mergeLists : List Nat → List Nat → List Nat
  | [], ys => ys
  | x :: xs, [] => x :: xs
  | x :: xs, y :: ys =>
    if x < y then x :: mergeLists xs (y :: ys)
    else if y < x then y :: mergeLists (x :: xs) ys
    else x :: mergeLists xs ys
  termination_by xs ys => xs.length + ys.length

theorem mem_mergeLists {a : Nat} {xs ys : List Nat} :
    a ∈ mergeLists xs ys ↔ a ∈ xs ∨ a ∈ ys := by
  fun_induction mergeLists xs ys with
  | case1 ys => simp
  | case2 x xs => simp
  | case3 x xs y ys h ih => simp [ih, or_assoc]
  | case4 x xs y ys h h' ih => simp only [List.mem_cons, ih]; grind
  | case5 x xs y ys h h' ih =>
    obtain rfl : x = y := by omega
    simp only [List.mem_cons, ih]; grind

theorem sorted_mergeLists {xs ys : List Nat} (hx : xs.Pairwise (· < ·))
    (hy : ys.Pairwise (· < ·)) : (mergeLists xs ys).Pairwise (· < ·) := by
  fun_induction mergeLists xs ys with
  | case1 ys => exact hy
  | case2 x xs => exact hx
  | case3 x xs y ys h ih =>
    rw [List.pairwise_cons] at hx
    refine List.pairwise_cons.mpr ⟨fun a ha => ?_, ih hx.2 hy⟩
    rw [List.pairwise_cons] at hy
    rcases mem_mergeLists.mp ha with ha | ha
    · exact hx.1 a ha
    · rcases List.mem_cons.mp ha with rfl | ha
      · exact h
      · exact Nat.lt_trans h (hy.1 a ha)
  | case4 x xs y ys h h' ih =>
    rw [List.pairwise_cons] at hy
    refine List.pairwise_cons.mpr ⟨fun a ha => ?_, ih hx hy.2⟩
    rw [List.pairwise_cons] at hx
    rcases mem_mergeLists.mp ha with ha | ha
    · rcases List.mem_cons.mp ha with rfl | ha
      · exact h'
      · exact Nat.lt_trans h' (hx.1 a ha)
    · exact hy.1 a ha
  | case5 x xs y ys h h' ih =>
    obtain rfl : x = y := by omega
    rw [List.pairwise_cons] at hx hy
    refine List.pairwise_cons.mpr ⟨fun a ha => ?_, ih hx.2 hy.2⟩
    rcases mem_mergeLists.mp ha with ha | ha
    · exact hx.1 a ha
    · exact hy.1 a ha

/-- The members of either set. -/
def union (s t : SortedSet) : SortedSet :=
  ⟨mergeLists s.toList t.toList, sorted_mergeLists s.sorted t.sorted⟩

instance : Union SortedSet := ⟨union⟩

/-! ## Intersection -/

/-- The values that are in both of two strictly increasing lists. -/
def meetLists : List Nat → List Nat → List Nat
  | [], _ => []
  | _ :: _, [] => []
  | x :: xs, y :: ys =>
    if x < y then meetLists xs (y :: ys)
    else if y < x then meetLists (x :: xs) ys
    else x :: meetLists xs ys
  termination_by xs ys => xs.length + ys.length

theorem meetLists_sublist (xs ys : List Nat) : (meetLists xs ys).Sublist xs := by
  fun_induction meetLists xs ys with
  | case1 ys => exact .slnil
  | case2 x xs => exact List.nil_sublist _
  | case3 x xs y ys h ih => exact ih.cons _
  | case4 x xs y ys h h' ih => exact ih
  | case5 x xs y ys h h' ih => exact ih.cons_cons _

theorem mem_meetLists {a : Nat} {xs ys : List Nat} (hx : xs.Pairwise (· < ·))
    (hy : ys.Pairwise (· < ·)) : a ∈ meetLists xs ys ↔ a ∈ xs ∧ a ∈ ys := by
  fun_induction meetLists xs ys with
  | case1 ys => simp
  | case2 x xs => simp
  | case3 x xs y ys h ih =>
    rw [List.pairwise_cons] at hx
    have hlt : a ∈ ys → y < a := (List.pairwise_cons.mp hy).1 a
    rw [ih hx.2 hy, List.mem_cons, List.mem_cons]
    constructor
    · exact fun ⟨ha, hb⟩ => ⟨.inr ha, hb⟩
    · rintro ⟨rfl | ha, hb⟩
      · rcases hb with rfl | hb
        · exact absurd h (Nat.lt_irrefl _)
        · exact absurd (hlt hb) (Nat.lt_asymm h)
      · exact ⟨ha, hb⟩
  | case4 x xs y ys h h' ih =>
    rw [List.pairwise_cons] at hy
    have hlt : a ∈ xs → x < a := (List.pairwise_cons.mp hx).1 a
    rw [ih hx hy.2, List.mem_cons, List.mem_cons]
    constructor
    · exact fun ⟨ha, hb⟩ => ⟨ha, .inr hb⟩
    · rintro ⟨ha, rfl | hb⟩
      · rcases ha with rfl | ha
        · exact absurd h' (Nat.lt_irrefl _)
        · exact absurd (hlt ha) (Nat.lt_asymm h')
      · exact ⟨ha, hb⟩
  | case5 x xs y ys h h' ih =>
    obtain rfl : x = y := by omega
    rw [List.pairwise_cons] at hx hy
    have hlt : a ∈ xs → x < a := hx.1 a
    have hlt' : a ∈ ys → x < a := hy.1 a
    rw [List.mem_cons, ih hx.2 hy.2, List.mem_cons, List.mem_cons]
    constructor
    · rintro (rfl | ⟨ha, hb⟩)
      · exact ⟨.inl rfl, .inl rfl⟩
      · exact ⟨.inr ha, .inr hb⟩
    · rintro ⟨rfl | ha, hb⟩
      · exact .inl rfl
      · exact .inr ⟨ha, hb.resolve_left fun h => Nat.lt_irrefl x (h ▸ hlt ha)⟩

/-- The members of both sets. -/
def inter (s t : SortedSet) : SortedSet :=
  ⟨meetLists s.toList t.toList, s.sorted.sublist (meetLists_sublist _ _)⟩

instance : Inter SortedSet := ⟨inter⟩

/-! ## Sets of given members -/

/-- The set with one more member. -/
def insert (x : Nat) (s : SortedSet) : SortedSet := singleton x ∪ s

/-- The set of the values of a list. -/
def ofList (xs : List Nat) : SortedSet := xs.foldr insert ∅

/-- The union of the sets that `f` gives to the members of a list. -/
def biUnion {α : Type} (xs : List α) (f : α → SortedSet) : SortedSet :=
  xs.foldr (fun x s => f x ∪ s) ∅

/-- The members that satisfy a test. -/
def filter (p : Nat → Bool) (s : SortedSet) : SortedSet :=
  ⟨s.toList.filter p, s.sorted.filter p⟩

/-- Whether no value is in both sets. -/
def isDisjoint (s t : SortedSet) : Bool := (s ∩ t).isEmpty

/-! ## Members -/

theorem ext {s t : SortedSet} (h : ∀ x, x ∈ s ↔ x ∈ t) : s = t := by
  obtain ⟨xs, hs⟩ := s
  obtain ⟨ys, ht⟩ := t
  simp only [mem_def] at h
  congr
  induction xs generalizing ys with
  | nil =>
    cases ys with
    | nil => rfl
    | cons y ys => exact absurd ((h y).mpr (by simp)) (by simp)
  | cons x xs ih =>
    cases ys with
    | nil => exact absurd ((h x).mp (by simp)) (by simp)
    | cons y ys =>
      rw [List.pairwise_cons] at hs ht
      obtain rfl : x = y := by
        rcases List.mem_cons.mp ((h x).mp (by simp)) with hx | hx
        · exact hx
        · rcases List.mem_cons.mp ((h y).mpr (by simp)) with hy | hy
          · exact hy.symm
          · exact absurd (hs.1 y hy) (Nat.lt_asymm (ht.1 x hx))
      congr 1
      refine ih hs.2 ys ht.2 fun z => ?_
      constructor
      · intro hz
        rcases List.mem_cons.mp ((h z).mp (by simp [hz])) with rfl | hz'
        · exact absurd (hs.1 z hz) (Nat.lt_irrefl z)
        · exact hz'
      · intro hz
        rcases List.mem_cons.mp ((h z).mpr (by simp [hz])) with rfl | hz'
        · exact absurd (ht.1 z hz) (Nat.lt_irrefl z)
        · exact hz'

@[simp] theorem not_mem_empty {x : Nat} : ¬ x ∈ (∅ : SortedSet) := List.not_mem_nil

@[simp] theorem mem_singleton {x y : Nat} : x ∈ singleton y ↔ x = y := List.mem_singleton

@[simp] theorem mem_union {x : Nat} {s t : SortedSet} : x ∈ s ∪ t ↔ x ∈ s ∨ x ∈ t :=
  mem_mergeLists

@[simp] theorem mem_inter {x : Nat} {s t : SortedSet} : x ∈ s ∩ t ↔ x ∈ s ∧ x ∈ t :=
  mem_meetLists s.sorted t.sorted

@[simp] theorem mem_insert {x y : Nat} {s : SortedSet} : x ∈ s.insert y ↔ x = y ∨ x ∈ s := by
  simp [insert]

@[simp] theorem mem_ofList {x : Nat} {xs : List Nat} : x ∈ ofList xs ↔ x ∈ xs := by
  induction xs with
  | nil => exact ⟨fun h => absurd h not_mem_empty, fun h => absurd h List.not_mem_nil⟩
  | cons y ys ih => simp only [ofList, List.foldr_cons, mem_insert, List.mem_cons] at ih ⊢; rw [ih]

@[simp] theorem mem_biUnion {α : Type} {x : Nat} {xs : List α} {f : α → SortedSet} :
    x ∈ biUnion xs f ↔ ∃ a ∈ xs, x ∈ f a := by
  induction xs with
  | nil => simp [biUnion]
  | cons y ys ih => simp only [biUnion, List.foldr_cons, mem_union] at ih ⊢; simp [ih]

theorem mem_foldl_union {α : Type} {x : Nat} {xs : List α} {f : α → SortedSet} {s : SortedSet} :
    x ∈ xs.foldl (fun t a => t ∪ f a) s ↔ x ∈ s ∨ ∃ a ∈ xs, x ∈ f a := by
  induction xs generalizing s with
  | nil => simp
  | cons y ys ih => rw [List.foldl_cons, ih]; simp [or_assoc]

@[simp] theorem mem_filter {x : Nat} {p : Nat → Bool} {s : SortedSet} :
    x ∈ s.filter p ↔ x ∈ s ∧ p x = true :=
  List.mem_filter

theorem isEmpty_iff {s : SortedSet} : s.isEmpty = true ↔ s = ∅ := by
  constructor
  · intro h
    refine ext fun x => ⟨fun hx => ?_, fun hx => absurd hx not_mem_empty⟩
    rw [isEmpty, List.isEmpty_iff] at h
    rw [mem_def, h] at hx
    exact absurd hx List.not_mem_nil
  · rintro rfl
    rfl

theorem isDisjoint_iff {s t : SortedSet} : s.isDisjoint t = true ↔ ∀ x ∈ s, ¬ x ∈ t := by
  rw [isDisjoint, isEmpty_iff]
  constructor
  · intro h x hs ht
    have hx : x ∈ s ∩ t := mem_inter.mpr ⟨hs, ht⟩
    rw [h] at hx
    exact not_mem_empty hx
  · intro h
    exact ext fun x => ⟨fun hx => absurd (mem_inter.mp hx).2 (h x (mem_inter.mp hx).1),
      fun hx => absurd hx not_mem_empty⟩

end SortedSet

end PositionAutomata
