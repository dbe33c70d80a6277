import Mathlib
import PositionAutomata.Proofs.Automaton.Packing

/-
  Automata written and read back.

  An automaton whose symbols, labels and arrays fit into 32-bit integers comes
  back from either of its arrays as the same automaton: its reachable states in
  the order of their closure, each with its symbol and its transitions listed
  by groups (`decode_encode`). That automaton has the arrays it was read from,
  and where no value leads to two targets of a state it runs as the one that was
  written (`decode_encode_agrees`).
-/

namespace PositionAutomata

theorem Range.IsLabel.hull {r s : Range} (hr : r.IsLabel) (hs : s.IsLabel)
    (ht : r.touches s = true) : (r.hull s).IsLabel := by
  rw [touches] at ht
  split at ht
  next =>
    obtain rfl : r = s := by simpa using ht
    have hsame : r.hull r = r := by simp [Range.hull]
    rwa [hsame]
  next ha =>
    simp only [Bool.or_eq_true, isAnchor_iff, not_or, Nat.not_lt] at ha
    have hlast : ∀ {u : Range}, u.IsLabel → u.first ≤ maxCodepoint → u.last ≤ maxCodepoint := by
      rintro u (hu | rfl | rfl) hle
      · exact hu
      · exact absurd hle (by decide)
      · exact absurd hle (by decide)
    exact .inl (Nat.max_le.mpr ⟨hlast hr ha.1, hlast hs ha.2⟩)

namespace Automaton

variable {a : Automaton}

/-- An automaton that its arrays can hold: it starts in one of its states and only leads to its
states, and its symbols, labels and arrays fit into 32-bit integers. -/
structure Packable (a : Automaton) : Prop where
  wellFormed : a.WellFormed
  symbol_lt : ∀ s ∈ a.states, ∀ k ∈ s.accept, k < 0x80000000
  labels : ∀ s ∈ a.states, ∀ t ∈ s.transitions, t.range.IsLabel
  short : ∀ e, (Packed.encode a e).length < 0x80000000

theorem Packable.retainReachable (h : a.Packable) : a.retainReachable.Packable where
  wellFormed := h.wellFormed.retainReachable
  symbol_lt := by
    intro s hs
    obtain ⟨u, hu, rfl⟩ := exists_of_mem_retainReachable hs
    exact h.symbol_lt u hu
  labels := by
    intro s hs t ht
    obtain ⟨u, hu, rfl⟩ := exists_of_mem_retainReachable hs
    obtain ⟨v, hv, rfl⟩ := List.mem_map.mp ht
    exact h.labels u hu v hv
  short := by
    intro e
    rw [Packed.encode_retainReachable h.wellFormed]
    exact h.short e

end Automaton

namespace Packed

variable {a : Automaton}

theorem isLabel_of_mem_groups (h : a.Packable) {q : StateId} {g : StateId × List Range}
    (hg : g ∈ (recordOf a q).groups) : ∀ r ∈ g.2, r.IsLabel := by
  simp only [recordOf] at hg
  cases hs : a.get? q with
  | none =>
    rw [hs] at hg
    exact absurd hg (by simp)
  | some s =>
    rw [hs] at hg
    rw [(State.mem_grouped.mp hg).2]
    refine Range.mem_normalize (fun _ _ => Range.IsLabel.hull) fun r hr => ?_
    obtain ⟨t, ht, rfl⟩ := List.mem_map.mp hr
    exact h.labels s (Array.mem_of_getElem? hs) t (List.mem_filter.mp ht).1

theorem isGrouping_recordOf (a : Automaton) (q : StateId) :
    State.IsGrouping (recordOf a q).groups := by
  simp only [recordOf]
  cases a.get? q with
  | none => exact ⟨List.nodup_nil, by simp, by simp⟩
  | some s => exact s.isGrouping_grouped

/-- The records of an automaton whose states are numbered in the order of their closure. -/
theorem readable_records (h : a.Packable) (horder : a.order = List.range a.size) (e : Encoding) :
    Readable (records a) e := by
  have hlength : (records a).length = a.size := by
    rw [records_eq, List.length_map, horder, List.length_range]
  have hmem : ∀ {r}, r ∈ records a → ∃ q, recordOf a q = r := by
    intro r hr
    obtain ⟨q, _, hq⟩ := List.mem_map.mp hr
    exact ⟨q, hq⟩
  constructor
  · intro hnil
    rw [hnil] at hlength
    exact absurd h.wellFormed.1 (by rw [← hlength]; exact Nat.not_lt_zero _)
  · rw [hlength, records_eq, List.map_map, ← horder]
    exact List.map_id' _
  · intro r hr g hg
    obtain ⟨q, rfl⟩ := hmem hr
    rw [hlength]
    exact h.wellFormed.2 q g.1 (mem_groups_recordOf hg)
  · intro r hr
    obtain ⟨q, rfl⟩ := hmem hr
    exact isGrouping_recordOf a q
  · intro r hr g hg
    obtain ⟨q, rfl⟩ := hmem hr
    exact isLabel_of_mem_groups h hg
  · intro r hr k hk
    obtain ⟨q, rfl⟩ := hmem hr
    obtain ⟨s, hs, hk⟩ := Option.bind_eq_some_iff.mp hk
    exact h.symbol_lt s (Array.mem_of_getElem? hs) k hk
  · exact h.short e

/-- Such an automaton comes back with its transitions listed by groups. -/
theorem decode_encode_of_order (h : a.Packable) (hstart : a.start = 0)
    (horder : a.order = List.range a.size) (e : Encoding) :
    decode (encode a e).toArray = .ok a.regrouped := by
  have hstates : ((records a).map fun r => State.ofGroups r.accept r.groups).toArray =
      a.states.map State.regrouped := by
    rw [records_eq, horder, List.map_map]
    apply Array.ext_getElem?
    intro i
    rw [List.getElem?_toArray, List.getElem?_map, Array.getElem?_map]
    rcases Nat.lt_or_ge i a.size with hi | hi
    · obtain ⟨s, hs⟩ := Automaton.exists_get? hi
      have hrecord : recordOf a i = ⟨i, s.accept, s.grouped⟩ := by
        rw [recordOf, Automaton.accept, hs]
        rfl
      have hget : a.states[i]? = some s := hs
      rw [List.getElem?_range hi, hget, Option.map_some, Option.map_some, Function.comp_apply,
        hrecord]
      rfl
    · rw [List.getElem?_eq_none (by simpa using hi), Array.getElem?_eq_none hi]
      rfl
  rw [encode_eq_pack, decode_pack (readable_records h horder e), hstates, ← hstart]
  rfl

/-- Both arrays of an automaton are read as its reachable states in the order of their closure,
their transitions listed by groups. -/
theorem decode_encode (h : a.Packable) (e : Encoding) :
    decode (encode a e).toArray = .ok a.retainReachable.regrouped := by
  rw [← encode_retainReachable h.wellFormed e]
  exact decode_encode_of_order h.retainReachable rfl
    (Automaton.closure_retainReachable h.wellFormed) e

end Packed

namespace Automaton

variable {a : Automaton}

/-- An automaton that its arrays can hold is read back from both of them as one automaton: its
reachable states in the order of their closure, with their symbols and their groups. That
automaton has the same arrays, and it runs as the one that was written where no value leads to two
targets of a state. -/
theorem decode_encode_agrees (h : a.Packable) :
    ∃ d : Automaton, (∀ e, Packed.decode (Packed.encode a e).toArray = .ok d) ∧
      d.start = 0 ∧ d.size = (a.closure a.start).length ∧
      (∀ i q, (a.closure a.start)[i]? = some q → ∃ s s', a.get? q = some s ∧ d.get? i = some s' ∧
        s'.accept = s.accept ∧ s'.events = [] ∧
          s'.grouped = s.grouped.map fun (target, rs) => ((a.closure a.start).idxOf target, rs)) ∧
      (∀ e, Packed.encode d e = Packed.encode a e) ∧
      (a.Consistent → ∀ text, d.run text = a.run text ∧ d.longestMatch text = a.longestMatch text) := by
  have wf := h.wellFormed
  refine ⟨a.retainReachable.regrouped, Packed.decode_encode h, rfl, ?_, ?_, ?_, ?_⟩
  · rw [size_regrouped, size_retainReachable]
    rfl
  · intro i q hq
    have hmem : q ∈ a.order := List.mem_of_getElem? hq
    obtain ⟨s, hs⟩ := exists_get? (lt_size_of_mem_order hmem)
    have hsucc : ∀ r ∈ s.successors, r ∈ a.order := fun r hr =>
      successor_mem_order wf hmem (by rwa [successors, hs])
    refine ⟨s, (renumberState a.newId s).regrouped, hs, ?_, rfl, rfl, ?_⟩
    · rw [get?_regrouped, get?_retainReachable, show a.order[i]? = some q from hq,
        Option.bind_some, hs]
      rfl
    · rw [State.grouped_regrouped, Packed.grouped_renumberState fun q hq r hr =>
        newId_injective (hsucc q hq) (hsucc r hr)]
      refine List.map_congr_left fun g hg => ?_
      have htarget := hsucc g.1 (State.mem_grouped.mp hg).1
      exact congrArg (·, g.2) (newId_eq_idxOf htarget)
  · intro e
    rw [Packed.encode_regrouped, Packed.encode_retainReachable wf]
  · intro hcon text
    have hreports : ∀ i k, a.retainReachable.regrouped.Reports text i k ↔ a.Reports text i k := by
      intro i k
      rw [reports_regrouped hcon.retainReachable, reports_retainReachable wf]
    exact ⟨run_congr (hreports text.length), longestMatch_congr hreports⟩

/-- Four states, of which the second is not reached. The first one leads to the third by three
ranges that can be joined in part and by the line start, and to the last one by the text end. -/
def lettersOrEnd : Automaton where
  states := #[
    ⟨[⟨⟨0x65, 0x67, by decide⟩, 2⟩, ⟨.single textEnd, 3⟩, ⟨.single lineStart, 2⟩,
      ⟨⟨0x61, 0x64, by decide⟩, 2⟩, ⟨.single 0x7a, 2⟩], none, []⟩,
    ⟨[⟨.single 0x61, 0⟩], some 1, []⟩,
    ⟨[⟨.single 0x2d, 0⟩], some 7, [⟨0, true, none⟩]⟩,
    ⟨[], some 0, []⟩]
  start := 0

theorem decode_encode_lettersOrEnd_agrees :
    lettersOrEnd.Packable ∧ lettersOrEnd.Consistent ∧
      ∃ d : Automaton, (∀ e, Packed.decode (Packed.encode lettersOrEnd e).toArray = .ok d) ∧
        d.start = 0 ∧ d.size = (lettersOrEnd.closure 0).length ∧
        (∀ e, Packed.encode d e = Packed.encode lettersOrEnd e) ∧
        ∀ text, d.run text = lettersOrEnd.run text ∧
          d.longestMatch text = lettersOrEnd.longestMatch text := by
  have hranges : Packed.bodyLength (Packed.records lettersOrEnd) .ranges = 22 := by cbv
  have hvalues : Packed.bodyLength (Packed.records lettersOrEnd) .codepoints = 23 := by cbv
  have hpackable : lettersOrEnd.Packable :=
    { wellFormed := by decide
      symbol_lt := by decide
      labels := by decide
      short := by
        intro e
        rw [Packed.encode_eq_pack, Packed.length_pack]
        cases e with
        | ranges => rw [hranges]; decide
        | codepoints => rw [hvalues]; decide }
  have hconsistent : lettersOrEnd.Consistent := by decide
  obtain ⟨d, hd, hstart, hsize, _, hencode, hruns⟩ := decode_encode_agrees hpackable
  exact ⟨hpackable, hconsistent, d, hd, hstart, hsize, hencode, hruns hconsistent⟩

end Automaton

end PositionAutomata
