import Mathlib.Data.List.Basic
import PositionAutomata.Automaton.Packed
import PositionAutomata.Proofs.Automaton.Grouping
import PositionAutomata.Proofs.Automaton.Renumbering

/-
  What is written of an automaton.

  An array only depends on the records of an automaton (`encode_eq_pack`), and
  these say of each state its symbol and its groups. So listing transitions by
  groups changes no array (`encode_regrouped`), and neither does dropping
  unreachable states and renumbering the others: each record is written with
  the offsets of its targets, which are those of the targets before
  (`encode_retainReachable`).
-/

namespace PositionAutomata

namespace Packed

/-! ## Lengths -/

theorem length_items (e : Encoding) (rs : List Range) :
    (e.items rs).length = e.itemSize * e.itemCount rs := by
  cases e with
  | ranges =>
    induction rs with
    | nil => rfl
    | cons r rs ih =>
      simp only [Encoding.items, Encoding.itemSize, Encoding.itemCount, List.flatMap_cons,
        List.length_append, List.length_cons, List.length_nil] at ih ⊢
      omega
  | codepoints =>
    induction rs with
    | nil => rfl
    | cons r rs ih =>
      simp only [Encoding.items, Encoding.itemSize, Encoding.itemCount, List.flatMap_cons,
        List.length_append, List.length_map, List.foldr_cons, Range.length_codepoints] at ih ⊢
      omega

/-- Number of integers that some groups take. -/
def groupsLength (e : Encoding) (groups : List (StateId × List Range)) : Nat :=
  groups.foldr (fun (_, rs) n => 2 + e.itemSize * e.itemCount rs + n) 0

/-- The integers of some groups, given the offsets of the states. -/
def writeGroups (e : Encoding) (offset : StateId → Nat) (groups : List (StateId × List Range)) :
    List Int :=
  groups.flatMap fun (target, rs) => word (offset target) :: word (e.itemCount rs) :: e.items rs

theorem length_writeGroups (e : Encoding) (offset : StateId → Nat)
    (groups : List (StateId × List Range)) :
    (writeGroups e offset groups).length = groupsLength e groups := by
  induction groups with
  | nil => rfl
  | cons g rest ih =>
    obtain ⟨target, rs⟩ := g
    show (word (offset target) :: word (e.itemCount rs) :: e.items rs ++
      writeGroups e offset rest).length = 2 + e.itemSize * e.itemCount rs + groupsLength e rest
    rw [List.length_append, List.length_cons, List.length_cons, length_items, ih]
    omega

theorem Record.length_write (r : Record) (e : Encoding) (offset : StateId → Nat) :
    (r.write e offset).length = r.length e := by
  show (writeGroups e offset r.groups).length + 1 + 1 = 2 + groupsLength e r.groups
  rw [length_writeGroups]
  omega

/-- Number of integers that some records take. -/
def bodyLength (rs : List Record) (e : Encoding) : Nat := rs.foldr (fun r n => r.length e + n) 0

theorem length_flatMap_write (rs : List Record) (e : Encoding) (offset : StateId → Nat) :
    (rs.flatMap (·.write e offset)).length = bodyLength rs e := by
  induction rs with
  | nil => rfl
  | cons r rs ih =>
    rw [List.flatMap_cons, List.length_append, Record.length_write, ih]
    rfl

/-! ## Arrays of records -/

/-- The offset at which the record of a state is written. -/
def offsetOf (rs : List Record) (e : Encoding) (q : StateId) : Nat :=
  ((offsets e 0 rs).lookup q).getD 0

/-- The array of some records. -/
def pack (rs : List Record) (e : Encoding) : List Int :=
  let written := rs.flatMap (·.write e (offsetOf rs e))
  if e.needsPadding written.length then written ++ [noAccept] else written

theorem encode_eq_pack (a : Automaton) (e : Encoding) : encode a e = pack (records a) e := rfl

/-! ## Renaming -/

/-- A record with its states renamed. -/
def Record.rename (f : StateId → StateId) (r : Record) : Record :=
  ⟨f r.state, r.accept, r.groups.map fun (target, rs) => (f target, rs)⟩

theorem Record.length_rename (f : StateId → StateId) (r : Record) (e : Encoding) :
    (r.rename f).length e = r.length e := by
  rw [Record.length, Record.length, Record.rename, List.foldr_map]

theorem Record.write_rename (f : StateId → StateId) (r : Record) (e : Encoding)
    (offset : StateId → Nat) : (r.rename f).write e offset = r.write e (offset ∘ f) := by
  rw [Record.write, Record.write, Record.rename, List.length_map, List.flatMap_map]
  rfl

theorem Record.write_congr {r : Record} {offset offset' : StateId → Nat}
    (h : ∀ g ∈ r.groups, offset g.1 = offset' g.1) (e : Encoding) :
    r.write e offset = r.write e offset' := by
  have hgroups : writeGroups e offset r.groups = writeGroups e offset' r.groups := by
    refine List.flatMap_congr fun g hg => ?_
    exact congrArg (fun o => word o :: word (e.itemCount g.2) :: e.items g.2) (h g hg)
  rw [Record.write, Record.write]
  exact congrArg (fun groups => _ :: _ :: groups) hgroups

theorem offsets_rename (f : StateId → StateId) (e : Encoding) (start : Nat) (rs : List Record) :
    offsets e start (rs.map (·.rename f)) = (offsets e start rs).map fun (q, o) => (f q, o) := by
  induction rs generalizing start with
  | nil => rfl
  | cons r rs ih => rw [List.map_cons, offsets, offsets, Record.length_rename, ih, List.map_cons]; rfl

theorem map_fst_offsets (e : Encoding) (start : Nat) (rs : List Record) :
    (offsets e start rs).map Prod.fst = rs.map Record.state := by
  induction rs generalizing start with
  | nil => rfl
  | cons r rs ih => rw [offsets, List.map_cons, List.map_cons, ih]

theorem lookup_map_of_injective {f : StateId → StateId} {table : List (StateId × Nat)} {q : StateId}
    (hf : ∀ p ∈ table.map Prod.fst, f q = f p → q = p) :
    (table.map fun (p, o) => (f p, o)).lookup (f q) = table.lookup q := by
  induction table with
  | nil => rfl
  | cons x table ih =>
    obtain ⟨p, o⟩ := x
    obtain ⟨hp, hrest⟩ := List.forall_mem_cons.mp hf
    rw [List.map_cons, List.lookup_cons, List.lookup_cons, ih hrest]
    have heq : (f q == f p) = (q == p) := by
      rw [Bool.eq_iff_iff, beq_iff_eq, beq_iff_eq]
      exact ⟨hp, congrArg f⟩
    rw [heq]

/-- Renaming states apart from each other changes no array. -/
theorem pack_rename {f : StateId → StateId} {rs : List Record}
    (hf : ∀ r ∈ rs, ∀ g ∈ r.groups, ∀ r' ∈ rs, f g.1 = f r'.state → g.1 = r'.state)
    (e : Encoding) : pack (rs.map (·.rename f)) e = pack rs e := by
  have hoffset : ∀ r ∈ rs, ∀ g ∈ r.groups,
      offsetOf (rs.map (·.rename f)) e (f g.1) = offsetOf rs e g.1 := by
    intro r hr g hg
    rw [offsetOf, offsets_rename, lookup_map_of_injective, offsetOf]
    rw [map_fst_offsets]
    intro p hp
    obtain ⟨r', hr', rfl⟩ := List.mem_map.mp hp
    exact hf r hr g hg r' hr'
  have hwritten : (rs.map (·.rename f)).flatMap (·.write e (offsetOf (rs.map (·.rename f)) e)) =
      rs.flatMap (·.write e (offsetOf rs e)) := by
    rw [List.flatMap_map]
    refine List.flatMap_congr fun r hr => ?_
    exact (Record.write_rename f r e _).trans (Record.write_congr (hoffset r hr) e)
  rw [pack, pack, hwritten]

/-! ## Records of an automaton -/

/-- The record of a state. -/
def recordOf (a : Automaton) (q : StateId) : Record :=
  ⟨q, a.accept q, (a.get? q).elim [] State.grouped⟩

theorem records_eq (a : Automaton) : records a = a.order.map (recordOf a) := rfl

theorem mem_groups_recordOf {a : Automaton} {q : StateId} {g : StateId × List Range}
    (hg : g ∈ (recordOf a q).groups) : g.1 ∈ a.successors q := by
  rw [Automaton.successors]
  simp only [recordOf] at hg
  cases h : a.get? q with
  | none =>
    rw [h] at hg
    exact absurd hg (by simp)
  | some s =>
    rw [h] at hg
    exact (State.mem_grouped.mp hg).1

theorem recordOf_regrouped (a : Automaton) (q : StateId) :
    recordOf a.regrouped q = recordOf a q := by
  rw [recordOf, recordOf, Automaton.accept_regrouped, Automaton.get?_regrouped]
  cases a.get? q with
  | none => rfl
  | some s =>
    show Record.mk q _ s.regrouped.grouped = Record.mk q _ s.grouped
    rw [State.grouped_regrouped]

/-- Listing transitions by groups changes no array. -/
theorem encode_regrouped (a : Automaton) (e : Encoding) : encode a.regrouped e = encode a e := by
  have horder : a.regrouped.order = a.order := Automaton.closure_regrouped a.start
  have hrecords : records a.regrouped = records a := by
    rw [records_eq, records_eq, horder]
    exact List.map_congr_left fun q _ => recordOf_regrouped a q
  rw [encode_eq_pack, encode_eq_pack, hrecords]

/-- Renumbering the targets of a state renumbers those of its groups. -/
theorem grouped_renumberState {f : StateId → StateId} {s : State}
    (hf : ∀ q ∈ s.successors, ∀ r ∈ s.successors, f q = f r → q = r) :
    (Automaton.renumberState f s).grouped = s.grouped.map fun (target, rs) => (f target, rs) := by
  have hsucc : (Automaton.renumberState f s).successors = s.successors.map f := by
    simp [State.successors, Automaton.renumberState]
  rw [State.grouped, State.grouped, hsucc, State.firsts_eq_eraseDups, State.firsts_eq_eraseDups,
    eraseDups_map hf, List.map_map, List.map_map]
  refine List.map_congr_left fun q hq => ?_
  rw [List.mem_eraseDups] at hq
  -- The transitions that lead to the new number of `q` are those that led to `q`.
  have htrans : ((Automaton.renumberState f s).transitions.filter (·.target = f q)).map
      Transition.range = (s.transitions.filter (·.target = q)).map Transition.range := by
    rw [Automaton.renumberState, List.filter_map, List.map_map]
    show (s.transitions.filter _).map Transition.range = _
    congr 1
    refine List.filter_congr fun t ht => ?_
    have hinj := hf t.target (List.mem_map.mpr ⟨t, ht, rfl⟩) q hq
    rw [Function.comp_apply, decide_eq_decide]
    exact ⟨hinj, congrArg f⟩
  show (f q, Range.normalize _) = (f q, Range.normalize _)
  rw [htrans]

theorem recordOf_newId {a : Automaton} (wf : a.WellFormed) {q : StateId} (hq : q ∈ a.order) :
    recordOf a.retainReachable (a.newId q) = (recordOf a q).rename a.newId := by
  rw [recordOf, Automaton.accept_newId hq, Automaton.get?_newId hq, recordOf, Record.rename]
  cases hs : a.get? q with
  | none => rfl
  | some s =>
    have hmem : ∀ r ∈ s.successors, r ∈ a.order := by
      intro r hr
      refine Automaton.successor_mem_order wf hq ?_
      rw [Automaton.successors, hs]
      exact hr
    show Record.mk _ _ (Automaton.renumberState a.newId s).grouped = _
    rw [grouped_renumberState fun q hq r hr => Automaton.newId_injective (hmem q hq) (hmem r hr)]
    rfl

theorem records_retainReachable {a : Automaton} (wf : a.WellFormed) :
    records a.retainReachable = (records a).map (·.rename a.newId) := by
  calc records a.retainReachable
    _ = (a.retainReachable.closure 0).map (recordOf a.retainReachable) := rfl
    _ = (a.order.map a.newId).map (recordOf a.retainReachable) := by
      rw [Automaton.closure_retainReachable wf, Automaton.map_newId_order,
        Automaton.size_retainReachable]
    _ = a.order.map fun q => (recordOf a q).rename a.newId := by
      rw [List.map_map]
      exact List.map_congr_left fun q hq => recordOf_newId wf hq
    _ = (records a).map (·.rename a.newId) := by
      rw [records_eq, List.map_map]
      rfl

/-- Dropping unreachable states and renumbering the others changes no array. -/
theorem encode_retainReachable {a : Automaton} (wf : a.WellFormed) (e : Encoding) :
    encode a.retainReachable e = encode a e := by
  rw [encode_eq_pack, encode_eq_pack, records_retainReachable wf]
  apply pack_rename
  intro r hr g hg r' hr'
  rw [records_eq] at hr hr'
  obtain ⟨q, hq, rfl⟩ := List.mem_map.mp hr
  obtain ⟨q', hq', rfl⟩ := List.mem_map.mp hr'
  exact Automaton.newId_injective (Automaton.successor_mem_order wf hq (mem_groups_recordOf hg)) hq'

end Packed

end PositionAutomata
