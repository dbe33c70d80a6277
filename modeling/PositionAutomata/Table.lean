/-
  Tables that are gathered from items.

  Each item names an entry of the table by its number and adds something to it.
  An entry is what its own items make of the start, in their order
  (`Table.getElem?_gather`); items that name no entry are dropped.
-/

namespace PositionAutomata.Table

/-- A table of `size` entries, gathered from items that each name an entry. An entry is
made from `start` by adding its items in order. -/
def gather {α β : Type} (size : Nat) (start : β) (add : β → α → β) (items : List (Nat × α)) :
    Array β :=
  items.foldl (fun table (i, a) => table.modify i (add · a)) (Array.replicate size start)

theorem getElem?_foldl {α β : Type} (add : β → α → β) (items : List (Nat × α)) (table : Array β)
    (i : Nat) :
    (items.foldl (fun table (j, a) => table.modify j (add · a)) table)[i]? =
      table[i]?.map fun b => (items.filter fun x => x.1 = i).foldl (fun b x => add b x.2) b := by
  induction items generalizing table with
  | nil => simp
  | cons x items ih =>
    obtain ⟨j, a⟩ := x
    rw [List.foldl_cons, ih]
    by_cases h : j = i
    · simp [h, Array.getElem?_modify, Function.comp_def]
    · simp [h, Array.getElem?_modify]

/-- An entry of a gathered table. -/
theorem getElem?_gather {α β : Type} (size : Nat) (start : β) (add : β → α → β)
    (items : List (Nat × α)) (i : Nat) :
    (gather size start add items)[i]? =
      if i < size then
        some ((items.filter fun x => x.1 = i).foldl (fun b x => add b x.2) start)
      else none := by
  rw [gather, getElem?_foldl, Array.getElem?_replicate]
  split <;> rfl

end PositionAutomata.Table
