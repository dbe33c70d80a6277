import PositionAutomata.Proofs.Automaton.Decoding
import PositionAutomata.Proofs.Automaton.Records

/-
  Arrays read back.

  What the decoder does at an offset depends on the integers that stand there
  (`Written`), so each of its functions is shown to read what the encoder wrote:
  a value from its code (`readValue_code`), the normal ranges of a group from
  its items (`exists_readRanges`), the state of a record from the record
  (`readState_write`). Both passes over the records find the same offsets
  (`starts_write`), also when the first one stops in front of a last integer
  that may be padding, and so the decoder tells padding from data
  (`stopOf_pack`). An offset has the rank of the record that is written there,
  so the array of records in their order is read as their states
  (`decode_pack`).
-/

namespace PositionAutomata

/-- The values are code points, or the range is an anchor. -/
def Range.IsLabel (r : Range) : Prop :=
  r.last ≤ maxCodepoint ∨ r = single lineStart ∨ r = single textEnd

instance : DecidablePred Range.IsLabel := fun r =>
  inferInstanceAs (Decidable (r.last ≤ maxCodepoint ∨ _ ∨ _))

theorem Range.IsLabel.values {r : Range} (h : r.IsLabel) {c : Nat} (hc : r.contains c = true) :
    c ≤ maxCodepoint ∨ c = lineStart ∨ c = textEnd := by
  rw [Range.contains_iff] at hc
  rcases h with h | rfl | rfl
  · exact .inl (Nat.le_trans hc.2 h)
  · exact .inr (.inl (Nat.le_antisymm hc.2 hc.1))
  · exact .inr (.inr (Nat.le_antisymm hc.2 hc.1))

theorem Range.IsLabel.isSharp {r : Range} (h : r.IsLabel) : r.IsSharp := by
  rcases h with h | rfl | rfl
  · exact .inl h
  · exact .inr rfl
  · exact .inr rfl

namespace Packed

variable {array : Array Int} {o : Nat}

/-! ## Integers in arrays -/

/-- The integers stand in the array from an offset on. -/
def Written (array : Array Int) (o : Nat) (xs : List Int) : Prop := xs <+: array.toList.drop o

theorem written_cons {x : Int} {xs : List Int} :
    Written array o (x :: xs) ↔ array[o]? = some x ∧ Written array (o + 1) xs := by
  rw [Written, Written, ← Array.getElem?_toList]
  rcases Nat.lt_or_ge o array.toList.length with ho | ho
  · rw [List.drop_eq_getElem_cons ho, List.cons_prefix_cons, List.getElem?_eq_getElem ho,
      Option.some.injEq, eq_comm]
  · rw [List.drop_eq_nil_of_le ho, List.getElem?_eq_none ho]
    simp

theorem written_append {xs ys : List Int} :
    Written array o (xs ++ ys) ↔ Written array o xs ∧ Written array (o + xs.length) ys := by
  induction xs generalizing o with
  | nil => simp [Written]
  | cons x xs ih =>
    rw [List.cons_append, written_cons, written_cons, ih, and_assoc, List.length_cons,
      show o + (xs.length + 1) = o + 1 + xs.length by omega]

theorem Written.length_le {xs : List Int} (h : Written array o xs) : xs.length ≤ array.size := by
  have hle := List.IsPrefix.length_le h
  rw [List.length_drop] at hle
  exact Nat.le_trans hle (Nat.sub_le _ _)

theorem word_of_lt {n : Nat} (h : n < 0x80000000) : word n = n :=
  Int.bmod_eq_of_le (by omega) (by omega)

theorem readCount_word {n : Nat} (h : array[o]? = some (word n)) (hn : n < 0x80000000) :
    readCount array o = .ok n := by
  rwa [readCount_eq_ok, ← word_of_lt hn]

/-! ## Values and ranges -/

theorem readValue_code {c : Nat} (h : array[o]? = some (code c))
    (hc : c ≤ maxCodepoint ∨ c = lineStart ∨ c = textEnd) : readValue array o = .ok c := by
  rw [readValue_eq_ok]
  rcases hc with hc | rfl | rfl
  · have hne : c ≠ lineStart ∧ c ≠ textEnd := by
      simp only [maxCodepoint, lineStart, textEnd] at hc ⊢
      omega
    rw [code, if_neg hne.1, if_neg hne.2,
      word_of_lt (Nat.lt_of_le_of_lt hc (by decide))] at h
    exact .inr (.inr ⟨hc, h⟩)
  · exact .inl ⟨rfl, h⟩
  · exact .inr (.inl ⟨rfl, h⟩)

theorem readRanges_pairs {rs : List Range} (hw : Written array o (Encoding.ranges.items rs))
    (hl : ∀ r ∈ rs, r.IsLabel) : readRanges array .ranges rs.length o = .ok rs := by
  induction rs generalizing o with
  | nil => rfl
  | cons r rs ih =>
    obtain ⟨hr, hrest⟩ := List.forall_mem_cons.mp hl
    have hle := r.first_le_last
    have hitems : Encoding.ranges.items (r :: rs) =
        code r.first :: code r.last :: Encoding.ranges.items rs := rfl
    rw [hitems, written_cons, written_cons] at hw
    obtain ⟨hfirst, hlast, hw⟩ := hw
    have hrange : readRange array o .ranges = .ok r := readRange_pair_eq_ok.mpr
      ⟨readValue_code hfirst (hr.values (Range.contains_iff.mpr ⟨Nat.le_refl _, hle⟩)),
        readValue_code hlast (hr.values (Range.contains_iff.mpr ⟨hle, Nat.le_refl _⟩))⟩
    exact readRanges_succ_eq_ok.mpr ⟨r, rs, hrange, ih hw hrest, rfl⟩

theorem readRanges_values {cs : List Nat} (hw : Written array o (cs.map code))
    (hc : ∀ c ∈ cs, c ≤ maxCodepoint ∨ c = lineStart ∨ c = textEnd) :
    readRanges array .codepoints cs.length o = .ok (cs.map Range.single) := by
  induction cs generalizing o with
  | nil => rfl
  | cons c cs ih =>
    obtain ⟨hc, hrest⟩ := List.forall_mem_cons.mp hc
    rw [List.map_cons, written_cons] at hw
    have hrange : readRange array o .codepoints = .ok (.single c) :=
      readRange_value_eq_ok.mpr ⟨c, readValue_code hw.1 hc, rfl⟩
    exact readRanges_succ_eq_ok.mpr ⟨_, _, hrange, ih hw.2 hrest, rfl⟩

/-- The items of a group are read as ranges whose normal form is the group's. -/
theorem exists_readRanges {e : Encoding} {rs : List Range} (hw : Written array o (e.items rs))
    (hl : ∀ r ∈ rs, r.IsLabel) (hn : Range.IsNormal rs) :
    ∃ rs', readRanges array e (e.itemCount rs) o = .ok rs' ∧ Range.normalize rs' = rs := by
  cases e with
  | ranges => exact ⟨rs, readRanges_pairs hw hl, Range.normalize_of_isNormal hn⟩
  | codepoints =>
    have hitems : Encoding.codepoints.items rs = (rs.flatMap Range.codepoints).map code :=
      List.map_flatMap.symm
    have hsingles : Range.singles rs = (rs.flatMap Range.codepoints).map Range.single :=
      List.map_flatMap.symm
    have hcount : Encoding.codepoints.itemCount rs = (rs.flatMap Range.codepoints).length := by
      have hlength := length_items .codepoints rs
      rw [hitems, List.length_map] at hlength
      rw [hlength, Encoding.itemSize, Nat.one_mul]
    rw [hitems] at hw
    have hvalues : ∀ c ∈ rs.flatMap Range.codepoints,
        c ≤ maxCodepoint ∨ c = lineStart ∨ c = textEnd := by
      intro c hc
      obtain ⟨r, hr, hc⟩ := List.mem_flatMap.mp hc
      exact (hl r hr).values (Range.mem_codepoints.mp hc)
    refine ⟨Range.singles rs, ?_, Range.normalize_singles hn fun r hr => (hl r hr).isSharp⟩
    rw [hcount, hsingles]
    exact readRanges_values hw hvalues

variable {e : Encoding}

/-! ## The offsets of records -/

theorem offsets_cons (start : Nat) (r : Record) (rs : List Record) :
    (offsets e start (r :: rs)).map Prod.snd =
      start :: (offsets e (start + r.length e) rs).map Prod.snd := rfl

theorem two_le_length (r : Record) : 2 ≤ r.length e := Nat.le_add_right _ _

theorem le_of_mem_offsets {start o : Nat} {rs : List Record}
    (h : o ∈ (offsets e start rs).map Prod.snd) : start ≤ o ∧ o < start + bodyLength rs e := by
  induction rs generalizing start with
  | nil => exact absurd h (by simp [offsets])
  | cons r rs ih =>
    have hbody : bodyLength (r :: rs) e = r.length e + bodyLength rs e := rfl
    have htwo := two_le_length (e := e) r
    rw [offsets_cons] at h
    rcases List.mem_cons.mp h with rfl | h
    · omega
    · have hrest := ih h
      omega

theorem nodup_offsets (start : Nat) (rs : List Record) :
    ((offsets e start rs).map Prod.snd).Nodup := by
  induction rs generalizing start with
  | nil => exact List.nodup_nil
  | cons r rs ih =>
    rw [offsets_cons, List.nodup_cons]
    refine ⟨fun h => ?_, ih _⟩
    have hlt := (le_of_mem_offsets h).1
    have htwo := two_le_length (e := e) r
    omega

theorem lookup_eq_getElem? {table : List (StateId × Nat)} {first i : Nat}
    (h : table.map Prod.fst = List.range' first table.length) (hi : i < table.length) :
    table.lookup (first + i) = (table.map Prod.snd)[i]? := by
  induction table generalizing first i with
  | nil => exact absurd hi (by simp)
  | cons x table ih =>
    obtain ⟨q, o⟩ := x
    rw [List.length_cons, List.range'_succ, List.map_cons, List.cons.injEq] at h
    obtain ⟨rfl, h⟩ := h
    cases i with
    | zero => simp
    | succ i =>
      have hne : (q + (i + 1) == q) = false := by simp
      rw [List.lookup_cons, hne, List.map_cons, List.getElem?_cons_succ,
        ← ih h (Nat.lt_of_succ_lt_succ hi)]
      show table.lookup (q + (i + 1)) = table.lookup (q + 1 + i)
      rw [Nat.add_right_comm, Nat.add_assoc]

/-- In numbered records a state is written at the offset of its place. -/
theorem getElem?_offsetOf {rs : List Record} (hn : rs.map Record.state = List.range rs.length)
    {q : StateId} (hq : q < rs.length) :
    ((offsets e 0 rs).map Prod.snd)[q]? = some (offsetOf rs e q) := by
  have hlength : (offsets e 0 rs).length = rs.length := by
    rw [← List.length_map (f := Prod.fst), map_fst_offsets, List.length_map]
  have hplaces : (offsets e 0 rs).map Prod.fst = List.range' 0 (offsets e 0 rs).length := by
    rw [map_fst_offsets, hn, hlength, List.range_eq_range']
  have hlookup := lookup_eq_getElem? hplaces (show q < (offsets e 0 rs).length by rwa [hlength])
  rw [Nat.zero_add] at hlookup
  have hsome : q < ((offsets e 0 rs).map Prod.snd).length := by rwa [List.length_map, hlength]
  rw [offsetOf, hlookup, List.getElem?_eq_getElem hsome, Option.getD_some]

/-! ## Groups -/

theorem foldl_addTransition {q : State} {ts : List Transition}
    (hnd : (q.transitions ++ ts).Nodup) :
    ts.foldl State.addTransition q = { q with transitions := q.transitions ++ ts } := by
  induction ts generalizing q with
  | nil => simp
  | cons t ts ih =>
    have hnew : t ∉ q.transitions := fun h =>
      (List.nodup_append.mp hnd).2.2 t h t (by simp) rfl
    have hadd : q.addTransition t = { q with transitions := q.transitions ++ [t] } := if_neg hnew
    rw [List.foldl_cons, hadd, ih (by simpa using hnd)]
    simp

theorem itemCount_le (e : Encoding) (rs : List Range) : e.itemCount rs ≤ (e.items rs).length := by
  rw [length_items]
  cases e with
  | ranges => exact Nat.le_mul_of_pos_left _ (by decide)
  | codepoints => exact Nat.le_mul_of_pos_left _ (by decide)

theorem length_le_groupsLength (e : Encoding) (groups : List (StateId × List Range)) :
    groups.length ≤ groupsLength e groups := by
  induction groups with
  | nil => exact Nat.le_refl _
  | cons g rest ih =>
    show rest.length + 1 ≤ 2 + e.itemSize * e.itemCount g.2 + groupsLength e rest
    omega

theorem writeGroups_cons (e : Encoding) (offset : StateId → Nat) (target : StateId)
    (rs : List Range) (groups : List (StateId × List Range)) :
    writeGroups e offset ((target, rs) :: groups) =
      word (offset target) :: word (e.itemCount rs) :: (e.items rs ++ writeGroups e offset groups) :=
  rfl

/-! ## Groups and records in an array -/

variable {offset : StateId → Nat} (hsize : array.size < 0x80000000)

include hsize

theorem skipGroups_writeGroups {groups : List (StateId × List Range)}
    (hw : Written array o (writeGroups e offset groups)) :
    ∃ h, skipGroups array e groups.length o = .ok ⟨o + groupsLength e groups, h⟩ := by
  induction groups generalizing o with
  | nil => exact ⟨Nat.le_refl _, rfl⟩
  | cons g rest ih =>
    obtain ⟨target, rs⟩ := g
    rw [writeGroups_cons, written_cons, written_cons, written_append] at hw
    obtain ⟨_, hcount, hitems, hrest⟩ := hw
    have hsmall : e.itemCount rs < 0x80000000 :=
      Nat.lt_of_le_of_lt (Nat.le_trans (itemCount_le e rs) hitems.length_le) hsize
    rw [length_items] at hrest
    have hnext : o + 2 + e.itemSize * e.itemCount rs + groupsLength e rest =
        o + groupsLength e ((target, rs) :: rest) := by
      show _ = o + (2 + e.itemSize * e.itemCount rs + groupsLength e rest)
      omega
    rw [List.length_cons, skipGroups_succ_eq_ok]
    refine ⟨e.itemCount rs, readCount_word hcount hsmall, ?_⟩
    rw [← hnext]
    exact ih hrest

theorem written_write {r : Record} (hw : Written array o (r.write e offset)) :
    array[o]? = some (r.accept.elim noAccept word) ∧
      readCount array (o + 1) = .ok r.groups.length ∧
      Written array (o + 2) (writeGroups e offset r.groups) := by
  have hwrite : r.write e offset =
      r.accept.elim noAccept word :: word r.groups.length :: writeGroups e offset r.groups := rfl
  rw [hwrite, written_cons, written_cons] at hw
  obtain ⟨haccept, hcount, hgroups⟩ := hw
  have hlength := hgroups.length_le
  rw [length_writeGroups] at hlength
  have hsmall : r.groups.length < 0x80000000 :=
    Nat.lt_of_le_of_lt (Nat.le_trans (length_le_groupsLength e r.groups) hlength) hsize
  exact ⟨haccept, readCount_word hcount hsmall, hgroups⟩

theorem skipRecord_write {r : Record} (hw : Written array o (r.write e offset)) :
    ∃ h, skipRecord array e o = .ok ⟨o + r.length e, h⟩ := by
  obtain ⟨_, hcount, hgroups⟩ := written_write hsize hw
  have hnext : o + 2 + groupsLength e r.groups = o + r.length e := Nat.add_assoc _ _ _
  rw [skipRecord_eq_ok, ← hnext]
  exact ⟨r.groups.length, hcount, skipGroups_writeGroups hsize hgroups⟩

/-! ## Records in a row -/

/-- Records that follow each other are found one after the other, from any offset to stop at that
is at or just before their end. -/
theorem starts_write {rs : List Record} {stop : Nat}
    (hw : Written array o (rs.flatMap (·.write e offset))) (hstop : stop ≤ o + bodyLength rs e)
    (hlast : o + bodyLength rs e < stop + 2) :
    starts array e stop o = .ok ((offsets e o rs).map Prod.snd, o + bodyLength rs e) := by
  rw [starts_eq_ok]
  induction rs generalizing o with
  | nil => exact .inl ⟨hstop, rfl, rfl⟩
  | cons r rs ih =>
    have hbody : bodyLength (r :: rs) e = r.length e + bodyLength rs e := rfl
    have htwo := two_le_length (e := e) r
    rw [List.flatMap_cons, written_append, Record.length_write] at hw
    obtain ⟨h, hskip⟩ := skipRecord_write hsize hw.1
    have hrest := starts_eq_ok.mpr (ih hw.2 (by omega) (by omega))
    rw [hbody, ← Nat.add_assoc]
    exact .inr ⟨by omega, _, _, hskip, hrest, offsets_cons o r rs⟩

/-! ## States -/

theorem readGroups_writeGroups {rank? : Nat → Option StateId}
    {groups : List (StateId × List Range)} {q : State}
    (hw : Written array o (writeGroups e offset groups))
    (hrank : ∀ g ∈ groups, rank? (offset g.1) = some g.1)
    (hoffset : ∀ g ∈ groups, offset g.1 < 0x80000000)
    (hnormal : ∀ g ∈ groups, Range.IsNormal g.2) (hl : ∀ g ∈ groups, ∀ r ∈ g.2, r.IsLabel)
    (hnd : (q.transitions ++ (State.ofGroups none groups).transitions).Nodup) :
    readGroups array e rank? groups.length o q =
      .ok { q with transitions := q.transitions ++ (State.ofGroups none groups).transitions } := by
  induction groups generalizing o q with
  | nil =>
    rw [State.ofGroups, List.flatMap_nil, List.append_nil]
    rfl
  | cons g rest ih =>
    obtain ⟨target, rs⟩ := g
    have hcons : (State.ofGroups none ((target, rs) :: rest)).transitions =
        rs.map (⟨·, target⟩) ++ (State.ofGroups none rest).transitions := rfl
    rw [hcons, ← List.append_assoc] at hnd
    rw [writeGroups_cons, written_cons, written_cons, written_append, length_items] at hw
    obtain ⟨hplace, hcount, hitems, hrest⟩ := hw
    have hsmall : e.itemCount rs < 0x80000000 :=
      Nat.lt_of_le_of_lt (Nat.le_trans (itemCount_le e rs) hitems.length_le) hsize
    obtain ⟨rs', hread, hnormalize⟩ := exists_readRanges hitems (hl (target, rs) (by simp))
      (hnormal (target, rs) (by simp))
    have hadd : rs.foldl (fun q r => q.addTransition ⟨r, target⟩) q =
        { q with transitions := q.transitions ++ rs.map (⟨·, target⟩) } := by
      rw [← List.foldl_map (f := fun r => (⟨r, target⟩ : Transition)),
        foldl_addTransition (List.nodup_append.mp hnd).1]
    have hstep := ih (q := { q with transitions := q.transitions ++ rs.map (⟨·, target⟩) }) hrest
      (fun g hg => hrank g (List.mem_cons_of_mem _ hg))
      (fun g hg => hoffset g (List.mem_cons_of_mem _ hg))
      (fun g hg => hnormal g (List.mem_cons_of_mem _ hg))
      (fun g hg => hl g (List.mem_cons_of_mem _ hg)) hnd
    rw [List.length_cons, readGroups_succ_eq_ok]
    refine ⟨offset target, target, e.itemCount rs, rs', ?_, hrank (target, rs) (by simp),
      readCount_word hcount hsmall, hread, ?_⟩
    · exact readCount_word hplace (hoffset (target, rs) (by simp))
    · rw [hnormalize, hadd, hstep, hcons, List.append_assoc]

/-- A record whose data can be written: the offsets of its targets and its symbol are 32-bit
numbers, and its labels have codes. -/
structure Fits (offset : StateId → Nat) (r : Record) : Prop where
  offset_lt : ∀ g ∈ r.groups, offset g.1 < 0x80000000
  symbol_lt : ∀ k, r.accept = some k → k < 0x80000000
  grouping : State.IsGrouping r.groups
  labels : ∀ g ∈ r.groups, ∀ x ∈ g.2, x.IsLabel

/-- A record is read as a state with its symbol and its groups. -/
theorem readState_write {rank? : Nat → Option StateId} {r : Record} (hr : Fits offset r)
    (hw : Written array o (r.write e offset))
    (hrank : ∀ g ∈ r.groups, rank? (offset g.1) = some g.1) :
    readState array e rank? o = .ok (State.ofGroups r.accept r.groups) := by
  obtain ⟨haccept, hcount, hgroups⟩ := written_write hsize hw
  have hsymbol : (if r.accept.elim noAccept word < 0 then none
      else some (r.accept.elim noAccept word).toNat) = r.accept := by
    cases h : r.accept with
    | none => rfl
    | some k =>
      rw [Option.elim_some, word_of_lt (hr.symbol_lt k h), if_neg (by omega), Int.toNat_natCast]
  have hread := readGroups_writeGroups hsize (q := .isolated r.accept []) hgroups hrank
    hr.offset_lt hr.grouping.normal hr.labels
    (by simpa [State.isolated] using State.nodup_transitions_ofGroups hr.grouping)
  rw [readState_eq_ok]
  refine ⟨_, _, haccept, hcount, ?_⟩
  rw [hsymbol]
  exact hread

theorem map_readState {rank? : Nat → Option StateId} {rs : List Record}
    (hfits : ∀ r ∈ rs, Fits offset r) (hw : Written array o (rs.flatMap (·.write e offset)))
    (hrank : ∀ r ∈ rs, ∀ g ∈ r.groups, rank? (offset g.1) = some g.1) :
    ((offsets e o rs).map Prod.snd).map (readState array e rank?) =
      (rs.map fun r => State.ofGroups r.accept r.groups).map .ok := by
  induction rs generalizing o with
  | nil => rfl
  | cons r rs ih =>
    obtain ⟨hfit, hfits⟩ := List.forall_mem_cons.mp hfits
    obtain ⟨hr, hrank⟩ := List.forall_mem_cons.mp hrank
    rw [List.flatMap_cons, written_append, Record.length_write] at hw
    rw [offsets_cons, List.map_cons, readState_write hsize hfit hw.1 hr, ih hfits hw.2 hrank,
      List.map_cons, List.map_cons]

omit hsize

/-! ## Arrays -/

theorem length_pack (rs : List Record) (e : Encoding) :
    (pack rs e).length = bodyLength rs e + if e.needsPadding (bodyLength rs e) then 1 else 0 := by
  rw [pack, length_flatMap_write]
  split
  · rw [List.length_append, length_flatMap_write]
    rfl
  · rw [length_flatMap_write]
    rfl

theorem written_pack (rs : List Record) (e : Encoding) :
    Written (pack rs e).toArray 0 (rs.flatMap (·.write e (offsetOf rs e))) := by
  show _ <+: pack rs e
  rw [pack]
  split
  · exact List.prefix_append _ _
  · exact List.prefix_refl _

theorem bodyLength_even (rs : List Record) : bodyLength rs .ranges % 2 = 0 := by
  have hgroups : ∀ groups, groupsLength .ranges groups % 2 = 0 := by
    intro groups
    induction groups with
    | nil => rfl
    | cons g rest ih =>
      show (2 + 2 * g.2.length + groupsLength .ranges rest) % 2 = 0
      omega
  induction rs with
  | nil => rfl
  | cons r rs ih =>
    have hr := hgroups r.groups
    show (2 + groupsLength .ranges r.groups + bodyLength rs .ranges) % 2 = 0
    omega

theorem two_le_bodyLength {rs : List Record} (h : rs ≠ []) : 2 ≤ bodyLength rs e := by
  obtain ⟨r, rest, rfl⟩ := List.exists_cons_of_ne_nil h
  exact Nat.le_trans (two_le_length r) (Nat.le_add_right _ _)

/-- The length of an array says which encoding it is in. -/
theorem encodingOf_pack (rs : List Record) (e : Encoding) : encodingOf (pack rs e).toArray = e := by
  have hlength := length_pack rs e
  rw [encodingOf, isRangeArray, List.size_toArray, hlength]
  cases e with
  | ranges =>
    have heven := bodyLength_even rs
    simp [Encoding.needsPadding, heven]
  | codepoints =>
    simp only [Encoding.needsPadding, decide_true, Bool.true_and, decide_eq_true_eq]
    rcases Nat.mod_two_eq_zero_or_one (bodyLength rs .codepoints) with heven | hodd
    · rw [if_pos heven, if_neg (by omega)]
    · rw [if_neg (by omega : ¬ bodyLength rs .codepoints % 2 = 0), if_neg (by omega)]

/-- The records of an array end before its padding, and the decoder finds out where. -/
theorem stopOf_pack {rs : List Record} (hne : rs ≠ [])
    (hshort : (pack rs e).length < 0x80000000) :
    stopOf (pack rs e).toArray e = .ok (bodyLength rs e) := by
  have hpos := two_le_bodyLength (e := e) hne
  have hlength := length_pack rs e
  have hsize : (pack rs e).toArray.size = (pack rs e).length := List.size_toArray
  cases e with
  | ranges =>
    have hsame : (pack rs .ranges).toArray.size = bodyLength rs .ranges := by
      rw [hsize, hlength]
      rfl
    exact congrArg Except.ok hsame
  | codepoints =>
    have hstarts : ∀ stop, stop ≤ bodyLength rs .codepoints →
        bodyLength rs .codepoints < stop + 2 →
        starts (pack rs .codepoints).toArray .codepoints stop 0 =
          .ok ((offsets .codepoints 0 rs).map Prod.snd, bodyLength rs .codepoints) := by
      intro stop hstop hlast
      rw [← Nat.zero_add (bodyLength rs .codepoints)] at hstop hlast
      have h := starts_write (by rwa [hsize]) (written_pack rs .codepoints) hstop hlast
      rwa [Nat.zero_add] at h
    rw [stopOf]
    by_cases hpad : Encoding.codepoints.needsPadding (bodyLength rs .codepoints) = true
    · have hback : (pack rs .codepoints).toArray.back? = some noAccept := by
        rw [pack, length_flatMap_write, if_pos hpad]
        simp
      rw [if_pos hpad] at hlength
      rw [if_pos hback, hsize, hlength, Nat.add_sub_cancel,
        hstarts _ (Nat.le_refl _) (by omega)]
      exact congrArg Except.ok (if_pos rfl)
    · rw [if_neg hpad, Nat.add_zero] at hlength
      rw [hsize, hlength]
      split
      · rw [hstarts _ (Nat.sub_le _ _) (by omega)]
        exact congrArg Except.ok (if_neg (by omega))
      · rfl

/-- Records that stand in their order and whose data can be written. -/
structure Readable (rs : List Record) (e : Encoding) : Prop where
  nonempty : rs ≠ []
  numbered : rs.map Record.state = List.range rs.length
  targets : ∀ r ∈ rs, ∀ g ∈ r.groups, g.1 < rs.length
  grouping : ∀ r ∈ rs, State.IsGrouping r.groups
  labels : ∀ r ∈ rs, ∀ g ∈ r.groups, ∀ x ∈ g.2, x.IsLabel
  symbols : ∀ r ∈ rs, ∀ k, r.accept = some k → k < 0x80000000
  short : (pack rs e).length < 0x80000000

/-- The array of such records is read as their states. -/
theorem decode_pack {rs : List Record} (h : Readable rs e) :
    decode (pack rs e).toArray =
      .ok ⟨(rs.map fun r => State.ofGroups r.accept r.groups).toArray, 0⟩ := by
  have hpos := two_le_bodyLength (e := e) h.nonempty
  have hsize : (pack rs e).toArray.size = (pack rs e).length := List.size_toArray
  have hbody : bodyLength rs e ≤ (pack rs e).length := by
    rw [length_pack]
    exact Nat.le_add_right _ _
  have hsmall : (pack rs e).toArray.size < 0x80000000 := by
    rw [hsize]
    exact h.short
  have hw := written_pack rs e
  -- The targets of the groups are written at offsets of the array, and these have their ranks.
  have hoffset : ∀ r ∈ rs, ∀ g ∈ r.groups, offsetOf rs e g.1 < 0x80000000 := by
    intro r hr g hg
    have hget := getElem?_offsetOf (e := e) h.numbered (h.targets r hr g hg)
    have hlt := (le_of_mem_offsets (List.mem_of_getElem? hget)).2
    have hshort := h.short
    omega
  have hrank : ∀ r ∈ rs, ∀ g ∈ r.groups,
      (Index.ofList ((offsets e 0 rs).map Prod.snd)).get? (offsetOf rs e g.1) = some g.1 :=
    fun r hr g hg => Index.get?_of_getElem? (nodup_offsets 0 rs)
      (getElem?_offsetOf h.numbered (h.targets r hr g hg))
  have hfits : ∀ r ∈ rs, Fits (offsetOf rs e) r := fun r hr =>
    ⟨hoffset r hr, h.symbols r hr, h.grouping r hr, h.labels r hr⟩
  have hstarts := starts_write hsmall hw (show bodyLength rs e ≤ 0 + bodyLength rs e by omega)
    (by omega)
  have hstates := map_readState hsmall hfits hw hrank
  have hne : (pack rs e).toArray ≠ #[] := by
    intro hempty
    rw [hempty, Array.size_empty] at hsize
    omega
  rw [Nat.zero_add] at hstarts
  rw [decode_eq_ok hne, encodingOf_pack]
  exact ⟨_, _, _, _, stopOf_pack h.nonempty h.short, hstarts, Nat.le_refl _, mapM_eq_ok.mpr hstates,
    rfl⟩

end Packed

end PositionAutomata
