import Std.Data.TreeMap.Lemmas

/-
  Where the values of a list stand.

  An index of a list answers at which place a value first stands in it, without
  going through the list again (`Index.get?_ofList`). States are numbered by
  their places in lists, of keys or of older numbers.
-/

namespace PositionAutomata

/-- The places of some values. -/
structure Index (α : Type) [Ord α] where
  places : Std.TreeMap α Nat

namespace Index

variable {α : Type} [Ord α]

/-- The place of a value. -/
def get? (x : Index α) (a : α) : Option Nat := x.places[a]?

/-- Adds the values of a list whose first one is at `place`; values that have a place
keep it. -/
def extend (x : Index α) (place : Nat) : List α → Index α
  | [] => x
  | a :: rest => extend ⟨x.places.insertIfNew a place⟩ (place + 1) rest

/-- The index of a list. -/
def ofList (xs : List α) : Index α := extend ⟨∅⟩ 0 xs

variable [Std.TransOrd α] [Std.LawfulEqOrd α] [BEq α] [LawfulBEq α]

theorem get?_extend (x : Index α) (place : Nat) (xs : List α) (a : α) :
    (x.extend place xs).get? a = (x.get? a).or ((xs.idxOf? a).map (· + place)) := by
  induction xs generalizing x place with
  | nil => simp [extend]
  | cons b rest ih =>
    rw [extend, ih, List.idxOf?_cons]
    simp only [get?]
    rw [Std.TreeMap.getElem?_insertIfNew]
    by_cases h : b = a
    · subst h
      cases hb : x.places[b]? with
      | none => simp_all
      | some n =>
        have hm : b ∈ x.places := Std.TreeMap.mem_iff_isSome_getElem?.mpr (by simp [hb])
        simp [hm]
    · simp [h, Function.comp_def, Nat.add_assoc, Nat.add_comm 1]

/-- The index of a list knows the first place of each value. -/
theorem get?_ofList (xs : List α) (a : α) : (ofList xs).get? a = xs.idxOf? a := by
  have empty : get? (⟨∅⟩ : Index α) a = none := Std.TreeMap.getElem?_emptyc
  rw [ofList, get?_extend, empty]
  simp

end Index

end PositionAutomata
