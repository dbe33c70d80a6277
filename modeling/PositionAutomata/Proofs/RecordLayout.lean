import Mathlib
import PositionAutomata.Proofs.Automaton.Packing

/-
  Where the records of an array stand.

  The lengths of the records are added up twice, once for the length of an array
  and once for the offsets that stand in it; what is written is as long as both say
  (`length_encode`, `offsetOf_of_getElem?`). The counts and offsets of an array that
  is short enough are written as they are (`write_of_short`). So an array is the
  records of the reachable states in the order of their closure, one behind the
  other, in which the numbers of targets are the lengths of what stands before their
  records (`encode_lays_out_records`).
-/

namespace PositionAutomata

/-- An automaton that starts in one of its states and only leads to its states, and whose arrays are
so short that offsets and counts fit into 32-bit integers. -/
structure Automaton.Addressable (a : Automaton) : Prop where
  wellFormed : a.WellFormed
  short : ∀ e, (Packed.encode a e).length < 0x80000000

namespace Packed

variable {a : Automaton} {e : Encoding} {rs : List Record} {r : Record}

/-! ## Lengths -/

theorem length_encode (a : Automaton) (e : Encoding) : (encode a e).length = length a e := by
  rw [encode_eq_pack, length_pack]
  show _ = if e.needsPadding (bodyLength (records a) e) then bodyLength (records a) e + 1
    else bodyLength (records a) e
  split
  · rfl
  · rfl

/-- The length of an array is even in the range encoding alone. -/
theorem isRangeArray_encode : isRangeArray (encode a e).toArray = true ↔ e = .ranges := by
  have hencoding := encodingOf_pack (records a) e
  rw [← encode_eq_pack, encodingOf] at hencoding
  cases h : isRangeArray (encode a e).toArray with
  | true => simpa [h] using hencoding.symm
  | false =>
    rw [h, if_neg Bool.false_ne_true] at hencoding
    simp [← hencoding]

theorem length_encode_mod_two (a : Automaton) (e : Encoding) :
    (encode a e).length % 2 = if e = .ranges then 0 else 1 := by
  have heven : (encode a e).length % 2 = 0 ↔ e = .ranges := by
    rw [← isRangeArray_encode (a := a), isRangeArray, decide_eq_true_eq, List.size_toArray]
  split
  next he => exact heven.mpr he
  next he => exact Nat.mod_two_ne_zero.mp fun h => he (heven.mp h)

/-- The shortest encoding is shorter than the other one. -/
theorem length_shortest_lt (he : e ≠ shortest a) :
    (encode a (shortest a)).length < (encode a e).length := by
  have hranges := length_encode_mod_two a .ranges
  have hcodepoints := length_encode_mod_two a .codepoints
  rw [if_pos rfl] at hranges
  rw [if_neg (by decide)] at hcodepoints
  rw [shortest, ← length_encode, ← length_encode] at he ⊢
  split at he
  next hlt =>
    rw [if_pos hlt]
    cases e with
    | ranges => exact absurd rfl he
    | codepoints => exact hlt
  next hle =>
    rw [if_neg hle]
    cases e with
    | ranges => omega
    | codepoints => exact absurd rfl he

/-! ## Offsets -/

theorem lookup_offsets {start i : Nat} (hn : (rs.map Record.state).Nodup) (h : rs[i]? = some r) :
    (offsets e start rs).lookup r.state = some (start + bodyLength (rs.take i) e) := by
  induction rs generalizing start i with
  | nil => exact absurd h (by simp)
  | cons r' rs ih =>
    obtain ⟨hnew, hn⟩ := List.nodup_cons.mp hn
    rw [offsets, List.lookup_cons]
    cases i with
    | zero =>
      obtain rfl := Option.some.inj h
      rw [beq_self_eq_true]
      rfl
    | succ i =>
      have hr : rs[i]? = some r := h
      have hne : (r.state == r'.state) = false := by
        rw [beq_eq_false_iff_ne]
        intro heq
        exact hnew (heq ▸ List.mem_map_of_mem (List.mem_of_getElem? hr))
      rw [hne, List.take_succ_cons]
      show List.lookup r.state (offsets e (start + r'.length e) rs) =
        some (start + (r'.length e + bodyLength (rs.take i) e))
      rw [ih hn hr, Nat.add_assoc]

/-- A record begins behind those before it. -/
theorem offsetOf_of_getElem? (hn : (rs.map Record.state).Nodup) {i : Nat} (h : rs[i]? = some r) :
    offsetOf rs e r.state = bodyLength (rs.take i) e := by
  rw [offsetOf, lookup_offsets hn h, Option.getD_some, Nat.zero_add]

/-! ## Records -/

/-- The integers of a state with some groups, given the offsets of the states. -/
def layOut (e : Encoding) (offset : StateId → Nat) (accept : Option Nat)
    (groups : List (StateId × List Range)) : List Int :=
  accept.elim noAccept word :: (groups.length : Int) ::
    groups.flatMap fun (target, rs) => (offset target : Int) :: (e.itemCount rs : Int) :: e.items rs

theorem itemCount_le_groupsLength {groups : List (StateId × List Range)}
    {g : StateId × List Range} (hg : g ∈ groups) : e.itemCount g.2 ≤ groupsLength e groups := by
  induction groups with
  | nil => exact absurd hg List.not_mem_nil
  | cons g' rest ih =>
    show _ ≤ 2 + e.itemSize * e.itemCount g'.2 + groupsLength e rest
    rcases List.mem_cons.mp hg with rfl | hg
    · have hitems := itemCount_le e g.2
      rw [length_items] at hitems
      omega
    · have hrest := ih hg
      omega

/-- In a short record the numbers stand as they are. -/
theorem write_of_short {offset : StateId → Nat} (hr : r.length e < 0x80000000)
    (hoffset : ∀ g ∈ r.groups, offset g.1 < 0x80000000) :
    r.write e offset = layOut e offset r.accept r.groups := by
  have hlength : r.length e = 2 + groupsLength e r.groups := rfl
  have hle := length_le_groupsLength e r.groups
  have hcount : word r.groups.length = r.groups.length := word_of_lt (by omega)
  have hgroups : writeGroups e offset r.groups = r.groups.flatMap fun (target, rs) =>
      (offset target : Int) :: (e.itemCount rs : Int) :: e.items rs := by
    refine List.flatMap_congr fun g hg => ?_
    have hitems := itemCount_le_groupsLength (e := e) hg
    have htarget : word (offset g.1) = offset g.1 := word_of_lt (hoffset g hg)
    have hcount : word (e.itemCount g.2) = e.itemCount g.2 := word_of_lt (by omega)
    exact congrArg₂ (fun target count => target :: count :: e.items g.2) htarget hcount
  exact congrArg₂ (fun count groups => r.accept.elim noAccept word :: count :: groups) hcount
    hgroups

theorem bodyLength_le {rs' : List Record} (h : rs'.Sublist rs) :
    bodyLength rs' e ≤ bodyLength rs e := by
  rw [← length_flatMap_write rs' e fun _ => 0, ← length_flatMap_write rs e fun _ => 0]
  exact (h.flatMap _).length_le

/-- Blocks of integers, one for each reachable state in the order of the closure, of which an array
consists: a state is at the length of the blocks before its own, its targets have blocks, and its
block names them by their offsets. -/
structure Layout (a : Automaton) (e : Encoding) (blocks : List (List Int))
    (offset : StateId → Nat) : Prop where
  array_eq : encode a e =
    blocks.flatten ++ if e.needsPadding blocks.flatten.length then [noAccept] else []
  length_eq : blocks.length = (a.closure a.start).length
  offset_eq : ∀ (i : Nat) (q : StateId), (a.closure a.start)[i]? = some q →
    offset q = (blocks.take i).flatten.length
  targets : ∀ q ∈ a.closure a.start, ∀ r ∈ a.successors q, r ∈ a.closure a.start
  block_eq : ∀ (i : Nat) (q : StateId), (a.closure a.start)[i]? = some q →
    ∃ s, a.get? q = some s ∧ blocks[i]? = some (layOut e offset s.accept s.grouped)

theorem nodup_map_state_records (a : Automaton) : ((records a).map Record.state).Nodup := by
  have hstates : (records a).map Record.state = a.order := by
    rw [records_eq, List.map_map]
    exact List.map_id' _
  rw [hstates]
  exact a.nodup_order

theorem length_flatten_take_write (rs : List Record) (e : Encoding) (offset : StateId → Nat)
    (i : Nat) :
    ((rs.map (·.write e offset)).take i).flatten.length = bodyLength (rs.take i) e := by
  rw [← List.map_take, ← List.flatMap_def, length_flatMap_write]

theorem layout_encode (h : a.Addressable) (e : Encoding) :
    Layout a e ((records a).map (·.write e (offsetOf (records a) e))) (offsetOf (records a) e) := by
  have horder : a.order = a.closure a.start := rfl
  have hrecord : ∀ {i : Nat} {q : StateId}, (a.closure a.start)[i]? = some q →
      (records a)[i]? = some (recordOf a q) := by
    intro i q hq
    rw [records_eq, List.getElem?_map, horder, hq, Option.map_some]
  have hoffset : ∀ {i : Nat} {q : StateId}, (a.closure a.start)[i]? = some q →
      offsetOf (records a) e q = bodyLength ((records a).take i) e := fun hq =>
    offsetOf_of_getElem? (nodup_map_state_records a) (hrecord hq)
  have hbody : bodyLength (records a) e < 0x80000000 := by
    have hshort := h.short e
    rw [encode_eq_pack, length_pack] at hshort
    omega
  have htargets : ∀ q ∈ a.closure a.start, ∀ r ∈ a.successors q, r ∈ a.closure a.start :=
    fun q hq r hr => Automaton.successor_mem_order h.wellFormed hq hr
  refine ⟨?_, ?_, ?_, htargets, ?_⟩
  · rw [encode_eq_pack, pack, List.flatMap_def]
    split
    · rfl
    · rw [List.append_nil]
  · rw [List.length_map, records_eq, List.length_map, horder]
  · intro i q hq
    rw [hoffset hq, length_flatten_take_write]
  · intro i q hq
    have hmem := List.mem_of_getElem? hq
    obtain ⟨s, hs⟩ := Automaton.exists_get? (Automaton.lt_size_of_mem_order hmem)
    have hstate : recordOf a q = ⟨q, s.accept, s.grouped⟩ := by
      rw [recordOf, Automaton.accept, hs]
      rfl
    have hlength : (recordOf a q).length e ≤ bodyLength (records a) e :=
      bodyLength_le (List.singleton_sublist.mpr (List.mem_of_getElem? (hrecord hq)))
    -- A target's record begins inside the array, so its offset is short.
    have htarget : ∀ g ∈ (recordOf a q).groups, offsetOf (records a) e g.1 < 0x80000000 := by
      intro g hg
      obtain ⟨j, hj⟩ := List.mem_iff_getElem?.mp (htargets q hmem g.1 (mem_groups_recordOf hg))
      rw [hoffset hj]
      exact Nat.lt_of_le_of_lt (bodyLength_le (List.take_sublist _ _)) hbody
    have hwrite := write_of_short (Nat.lt_of_le_of_lt hlength hbody) htarget
    rw [hstate] at hwrite
    exact ⟨s, hs, by rw [List.getElem?_map, hrecord hq, Option.map_some, hstate, hwrite]⟩

/-- The computed length of an array is its length, which is even in the range encoding alone; the
shorter of the two arrays is written; and each consists of the records of the reachable states in
the order of the closure, one behind the other, whose targets are the offsets of their records. -/
theorem encode_lays_out_records (h : a.Addressable) :
    (∀ e, length a e = (encode a e).length) ∧
      (∀ e, (encode a e).length % 2 = if e = .ranges then 0 else 1) ∧
      (∀ e, isRangeArray (encode a e).toArray = true ↔ e = .ranges) ∧
      (∃ e, encodeShortest a = encode a e ∧
        ∀ e', e' ≠ e → (encode a e).length < (encode a e').length) ∧
      ∀ e, ∃ blocks offset, Layout a e blocks offset :=
  ⟨fun e => (length_encode a e).symm, length_encode_mod_two a, fun _ => isRangeArray_encode,
    ⟨shortest a, rfl, fun _ => length_shortest_lt⟩, fun e => ⟨_, _, layout_encode h e⟩⟩

/-- Four states, of which the second is not reached. The first and the third one lead to each
other. -/
def backAndForth : Automaton where
  states := #[
    ⟨[⟨⟨0x70, 0x72, by decide⟩, 2⟩, ⟨.single lineStart, 2⟩], none, []⟩,
    ⟨[⟨.single 0x61, 0⟩], some 1, []⟩,
    ⟨[⟨.single 0x78, 0⟩, ⟨.single textEnd, 3⟩], some 0, []⟩,
    ⟨[], some 5, []⟩]
  start := 0

theorem backAndForth_lays_out_records :
    backAndForth.Addressable ∧
      encode backAndForth .ranges =
        [-1, 1, 8, 2, 112, 114, -2, -2, 0, 2, 0, 1, 120, 120, 18, 1, -3, -3, 5, 0] ∧
      encodeShortest backAndForth =
        [-1, 1, 8, 4, 112, 113, 114, -2, 0, 2, 0, 1, 120, 16, 1, -3, 5, 0, -1] ∧
      (∀ e, length backAndForth e = (encode backAndForth e).length) ∧
      ∀ e, ∃ blocks offset, Layout backAndForth e blocks offset ∧ offset 0 = 0 := by
  have hrecords : records backAndForth =
      [⟨0, none, [(2, [⟨0x70, 0x72, by decide⟩, .single lineStart])]⟩,
        ⟨2, some 0, [(0, [.single 0x78]), (3, [.single textEnd])]⟩, ⟨3, some 5, []⟩] := by cbv
  have hranges : encode backAndForth .ranges =
      [-1, 1, 8, 2, 112, 114, -2, -2, 0, 2, 0, 1, 120, 120, 18, 1, -3, -3, 5, 0] := by
    rw [encode_eq_pack, hrecords]
    decide
  have hcodepoints : encode backAndForth .codepoints =
      [-1, 1, 8, 4, 112, 113, 114, -2, 0, 2, 0, 1, 120, 16, 1, -3, 5, 0, -1] := by
    rw [encode_eq_pack, hrecords]
    decide
  have haddressable : backAndForth.Addressable :=
    { wellFormed := by decide
      short := by
        intro e
        cases e with
        | ranges => rw [hranges]; decide
        | codepoints => rw [hcodepoints]; decide }
  obtain ⟨hlength, -, -, ⟨e, hshortest, hlt⟩, hlayout⟩ := encode_lays_out_records haddressable
  have he : e = .codepoints := by
    by_contra hne
    have hlt := hlt .codepoints (Ne.symm hne)
    cases e with
    | ranges => rw [hranges, hcodepoints] at hlt; exact absurd hlt (by decide)
    | codepoints => exact hne rfl
  subst he
  refine ⟨haddressable, hranges, hshortest.trans hcodepoints, hlength, fun e => ?_⟩
  obtain ⟨blocks, offset, h⟩ := hlayout e
  exact ⟨blocks, offset, h, h.offset_eq 0 0 (by cbv)⟩

end Packed

end PositionAutomata
