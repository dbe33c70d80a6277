import PositionAutomata.Index

/-
  Places in lists without repetitions.

  The index of a list and the list undo each other: a place that the index
  answers holds the value (`getElem?_of_get?`), and where no value stands twice
  the index answers the place at which it stands (`get?_of_getElem?`).
-/

namespace PositionAutomata.Index

variable {α : Type} [Ord α] [Std.TransOrd α] [Std.LawfulEqOrd α] [BEq α] [LawfulBEq α]

theorem getElem?_of_get? {xs : List α} {a : α} {i : Nat} (h : (ofList xs).get? a = some i) :
    xs[i]? = some a := by
  rw [get?_ofList, List.idxOf?_eq_some_iff] at h
  obtain ⟨hlt, ha, _⟩ := h
  rw [List.getElem?_eq_getElem hlt, ha]

theorem exists_get?_of_mem {xs : List α} {a : α} (h : a ∈ xs) :
    ∃ i, (ofList xs).get? a = some i := by
  rw [get?_ofList]
  exact Option.isSome_iff_exists.mp (List.isSome_idxOf?.mpr h)

theorem get?_of_getElem? {xs : List α} (hnd : xs.Nodup) {a : α} {i : Nat} (h : xs[i]? = some a) :
    (ofList xs).get? a = some i := by
  obtain ⟨j, hj⟩ := exists_get?_of_mem (List.mem_of_getElem? h)
  have hlt : j < xs.length := (List.getElem?_eq_some_iff.mp (getElem?_of_get? hj)).1
  have hij : j = i :=
    (List.getElem?_inj hlt hnd).mp ((getElem?_of_get? hj).trans h.symm)
  rw [hj, hij]

end PositionAutomata.Index
