import Mathlib.Data.List.Nodup
import PositionAutomata.Proofs.Automaton.Changes
import PositionAutomata.Proofs.Charset.Normal
import PositionAutomata.Proofs.Graph.Order

/-
  States by their groups.

  The groups of a state name each target once, with a list of ranges that is
  normal and not empty (`State.isGrouping_grouped`). A state that is put together
  from such groups has exactly these groups (`State.grouped_ofGroups`), so
  putting a state together from its own groups keeps them. It also keeps which
  value leads where (`State.leads_regrouped`) and the order in which targets
  first appear: an automaton and its regrouped form have the same closures
  (`closure_regrouped`) and, where no value leads to two targets of a state, the
  same runs (`reports_regrouped`).
-/

namespace PositionAutomata

namespace State

variable {s : State}

/-! ## Groups -/

theorem foldl_eq_append_eraseDups (kept xs : List StateId) :
    xs.foldl (fun kept x => if x ∈ kept then kept else kept ++ [x]) kept =
      kept ++ (xs.removeAll kept).eraseDups := by
  induction xs generalizing kept with
  | nil => simp
  | cons x xs ih =>
    rw [List.foldl_cons, ih, List.cons_removeAll]
    by_cases hx : x ∈ kept
    · simp [hx]
    · have hremove : xs.removeAll (kept ++ [x]) = (xs.removeAll kept).filter (fun b => !b == x) := by
        simp only [List.removeAll, List.filter_filter]
        apply List.filter_congr
        intro b _
        rw [Bool.eq_iff_iff]
        simp [and_comm]
      simp [hx, hremove, List.eraseDups_cons]

/-- The values of a list where they first appear are the list without later repetitions. -/
theorem firsts_eq_eraseDups (xs : List StateId) : firsts xs = xs.eraseDups := by
  rw [firsts, foldl_eq_append_eraseDups, List.removeAll_nil, List.nil_append]

/-- Groups as a state can have them: no target comes twice, and its ranges are in normal form. -/
structure IsGrouping (groups : List (StateId × List Range)) : Prop where
  nodup : (groups.map Prod.fst).Nodup
  nonempty : ∀ g ∈ groups, g.2 ≠ []
  normal : ∀ g ∈ groups, Range.IsNormal g.2

theorem map_fst_grouped (s : State) : s.grouped.map Prod.fst = s.successors.eraseDups := by
  rw [grouped, List.map_map, firsts_eq_eraseDups]
  exact List.map_id' _

theorem mem_grouped {target : StateId} {rs : List Range} :
    (target, rs) ∈ s.grouped ↔ target ∈ s.successors ∧
      rs = Range.normalize ((s.transitions.filter (·.target = target)).map Transition.range) := by
  rw [grouped, List.mem_map]
  simp only [firsts_eq_eraseDups, List.mem_eraseDups, Prod.mk.injEq]
  constructor
  · rintro ⟨x, hx, rfl, rfl⟩
    exact ⟨hx, rfl⟩
  · rintro ⟨ht, rfl⟩
    exact ⟨target, ht, rfl, rfl⟩

/-- A value leads from the state to a target by some transition. -/
def Leads (s : State) (c : Nat) (target : StateId) : Prop :=
  ∃ t ∈ s.transitions, t.target = target ∧ t.range.contains c = true

/-- The ranges of a group hold the values that lead to its target. -/
theorem leads_iff_grouped {c : Nat} {target : StateId} :
    s.Leads c target ↔ ∃ rs, (target, rs) ∈ s.grouped ∧ ∃ r ∈ rs, r.contains c = true := by
  simp only [mem_grouped]
  constructor
  · intro ⟨t, ht, htarget, hc⟩
    refine ⟨_, ⟨List.mem_map.mpr ⟨t, ht, htarget⟩, rfl⟩, ?_⟩
    refine Range.contains_normalize.mpr ⟨t.range, ?_, hc⟩
    exact List.mem_map.mpr ⟨t, List.mem_filter.mpr ⟨ht, by simpa using htarget⟩, rfl⟩
  · rintro ⟨rs, ⟨_, rfl⟩, hrs⟩
    obtain ⟨r, hr, hc⟩ := Range.contains_normalize.mp hrs
    obtain ⟨t, ht, rfl⟩ := List.mem_map.mp hr
    obtain ⟨ht, htarget⟩ := List.mem_filter.mp ht
    exact ⟨t, ht, by simpa using htarget, hc⟩

theorem isGrouping_grouped (s : State) : IsGrouping s.grouped where
  nodup := by
    rw [map_fst_grouped]
    exact nodup_eraseDups _
  nonempty := by
    intro (target, rs) hg
    obtain ⟨t, ht, htarget⟩ := List.mem_map.mp (mem_grouped.mp hg).1
    have hfirst : t.range.contains t.range.first = true :=
      Range.contains_iff.mpr ⟨Nat.le_refl _, t.range.first_le_last⟩
    obtain ⟨rs', hg', r, hr, _⟩ := leads_iff_grouped.mp ⟨t, ht, htarget, hfirst⟩
    obtain rfl : rs' = rs := (mem_grouped.mp hg').2.trans (mem_grouped.mp hg).2.symm
    exact List.ne_nil_of_mem hr
  normal := by
    intro (target, rs) hg
    rw [(mem_grouped.mp hg).2]
    exact Range.isNormal_normalize _

/-! ## States from groups -/

/-- A state whose transitions are listed group by group. -/
def ofGroups (accept : Option Nat) (groups : List (StateId × List Range)) : State :=
  ⟨groups.flatMap fun (target, rs) => rs.map (⟨·, target⟩), accept, []⟩

theorem mem_ofGroups {accept : Option Nat} {groups : List (StateId × List Range)} {t : Transition} :
    t ∈ (ofGroups accept groups).transitions ↔ ∃ rs, (t.target, rs) ∈ groups ∧ t.range ∈ rs := by
  simp only [ofGroups, List.mem_flatMap, List.mem_map]
  constructor
  · rintro ⟨⟨target, rs⟩, hg, r, hr, rfl⟩
    exact ⟨rs, hg, hr⟩
  · rintro ⟨rs, hg, hr⟩
    exact ⟨(t.target, rs), hg, t.range, hr, rfl⟩

theorem nodup_transitions_ofGroups {accept : Option Nat} {groups : List (StateId × List Range)}
    (h : IsGrouping groups) : (ofGroups accept groups).transitions.Nodup := by
  rw [ofGroups, List.nodup_flatMap]
  refine ⟨fun g hg => ?_, ?_⟩
  · have hnormal : g.2.Nodup := (h.normal g hg).imp fun hb => (Range.before_iff.mp hb).2.1
    exact hnormal.map fun r r' heq => congrArg Transition.range heq
  · refine (List.pairwise_map.mp h.nodup).imp fun hne => ?_
    intro t ht hu
    obtain ⟨r, _, rfl⟩ := List.mem_map.mp ht
    obtain ⟨u, _, heq⟩ := List.mem_map.mp hu
    exact hne (congrArg Transition.target heq).symm

/-- The targets of a state that is put together from groups are those of the groups. -/
theorem eraseDups_successors_ofGroups {accept : Option Nat}
    {groups : List (StateId × List Range)} (h : IsGrouping groups) :
    (ofGroups accept groups).successors.eraseDups = groups.map Prod.fst := by
  obtain ⟨hnd, hne, -⟩ := h
  induction groups with
  | nil => rfl
  | cons g rest ih =>
    obtain ⟨target, rs⟩ := g
    have hrs : rs ≠ [] := hne (target, rs) (by simp)
    obtain ⟨r, rs, rfl⟩ := List.exists_cons_of_ne_nil hrs
    obtain ⟨hfresh, hnd⟩ := List.nodup_cons.mp hnd
    have hrest := ih hnd fun g hg => hne g (List.mem_cons_of_mem _ hg)
    have hsucc : (ofGroups accept ((target, r :: rs) :: rest)).successors =
        target :: (rs.map fun _ => target) ++ (ofGroups accept rest).successors := by
      simp [successors, ofGroups, Function.comp_def]
    have hsame : (rs.map fun _ => target).filter (fun b => !b == target) = [] := by
      rw [List.filter_eq_nil_iff]
      simp
    -- The target of the first group is none of the others.
    have hother : (ofGroups accept rest).successors.filter (fun b => !b == target) =
        (ofGroups accept rest).successors := by
      refine List.filter_eq_self.mpr fun b hb => ?_
      rw [← List.mem_eraseDups, hrest] at hb
      rw [Bool.not_eq_true', beq_eq_false_iff_ne]
      rintro rfl
      exact hfresh hb
    rw [hsucc, List.cons_append, List.eraseDups_cons, List.filter_append, hsame, hother,
      List.nil_append, hrest, List.map_cons]

theorem ranges_ofGroups {accept : Option Nat} {groups : List (StateId × List Range)}
    (hnd : (groups.map Prod.fst).Nodup) {target : StateId} {rs : List Range}
    (hg : (target, rs) ∈ groups) :
    ((ofGroups accept groups).transitions.filter (·.target = target)).map Transition.range = rs := by
  induction groups with
  | nil => exact absurd hg (by simp)
  | cons g rest ih =>
    obtain ⟨hfresh, hnd⟩ := List.nodup_cons.mp hnd
    have hcons : (ofGroups accept (g :: rest)).transitions =
        g.2.map (⟨·, g.1⟩) ++ (ofGroups accept rest).transitions := rfl
    rw [hcons, List.filter_append, List.map_append]
    rcases List.mem_cons.mp hg with rfl | hg
    · have hrest : (ofGroups accept rest).transitions.filter (·.target = target) = [] := by
        rw [List.filter_eq_nil_iff]
        intro t ht htarget
        obtain ⟨us, hus, _⟩ := mem_ofGroups.mp ht
        obtain rfl : t.target = target := by simpa using htarget
        exact hfresh (List.mem_map.mpr ⟨_, hus, rfl⟩)
      have hall : (rs.map fun r => (⟨r, target⟩ : Transition)).filter (·.target = target) =
          rs.map (⟨·, target⟩) := by
        rw [List.filter_eq_self]
        simp
      rw [hrest, hall, List.map_nil, List.append_nil, List.map_map]
      exact List.map_id' rs
    · have hnone : (g.2.map fun r => (⟨r, g.1⟩ : Transition)).filter (·.target = target) = [] := by
        rw [List.filter_eq_nil_iff]
        intro t ht htarget
        obtain ⟨r, _, rfl⟩ := List.mem_map.mp ht
        obtain rfl : g.1 = target := by simpa using htarget
        exact hfresh (List.mem_map.mpr ⟨_, hg, rfl⟩)
      rw [hnone, List.map_nil, List.nil_append]
      exact ih hnd hg

/-- A state that is put together from groups has these groups. -/
theorem grouped_ofGroups {accept : Option Nat} {groups : List (StateId × List Range)}
    (h : IsGrouping groups) : (ofGroups accept groups).grouped = groups := by
  rw [grouped, firsts_eq_eraseDups, eraseDups_successors_ofGroups h, List.map_map]
  calc groups.map _
    _ = groups.map id := by
      refine List.map_congr_left fun g hg => ?_
      show (g.1, Range.normalize _) = g
      rw [ranges_ofGroups h.nodup hg, Range.normalize_of_isNormal (h.normal g hg)]
    _ = groups := List.map_id _

/-- The state with its transitions listed by its groups, and without events. -/
def regrouped (s : State) : State := ofGroups s.accept s.grouped

@[simp] theorem grouped_regrouped (s : State) : s.regrouped.grouped = s.grouped :=
  grouped_ofGroups s.isGrouping_grouped

theorem eraseDups_successors_regrouped (s : State) :
    s.regrouped.successors.eraseDups = s.successors.eraseDups := by
  rw [← map_fst_grouped, grouped_regrouped, map_fst_grouped]

/-- Listing transitions by groups keeps which value leads where. -/
theorem leads_regrouped {c : Nat} {target : StateId} :
    s.regrouped.Leads c target ↔ s.Leads c target := by
  rw [leads_iff_grouped, grouped_regrouped, ← leads_iff_grouped]

theorem consistent_iff_leads :
    s.Consistent ↔ ∀ c q r, s.Leads c q → s.Leads c r → q = r := by
  constructor
  · rintro h c q r ⟨t, ht, rfl, hct⟩ ⟨u, hu, rfl, hcu⟩
    by_contra hne
    have hdisjoint := h t ht u hu hne
    rw [Range.intersects_iff.mpr ⟨c, hct, hcu⟩] at hdisjoint
    exact absurd hdisjoint (by simp)
  · intro h t ht u hu hne
    rw [Bool.eq_false_iff]
    intro hshared
    obtain ⟨c, hct, hcu⟩ := Range.intersects_iff.mp hshared
    exact hne (h c _ _ ⟨t, ht, rfl, hct⟩ ⟨u, hu, rfl, hcu⟩)

theorem Consistent.regrouped (h : s.Consistent) : s.regrouped.Consistent := by
  rw [consistent_iff_leads] at h ⊢
  simpa only [leads_regrouped] using h

end State

/-! ## Values taken -/

/-- After `i` characters of a text the value can be taken, and leads to offset `j`: an anchor that
holds there, or the character that is read. -/
def Offers (text : List Char) (i j c : Nat) : Prop :=
  (c = lineStart ∧ (i = 0 ∨ text.toArray[i - 1]? = some '\n') ∧ j = i) ∨
    (c = textEnd ∧ i = text.length ∧ j = i) ∨ ∃ x, text[i]? = some x ∧ c = x.toNat ∧ j = i + 1

theorem Range.takes_iff {r : Range} {text : List Char} {i j : Nat} :
    r.Takes text i j ↔ ∃ c, Offers text i j c ∧ r.contains c = true := by
  have hchar : ∀ x : Char, r.contains x.toNat = true → r.isAnchor = false := by
    intro x hx
    have hle := le_maxCodepoint_of_char x
    rw [Range.contains_iff] at hx
    rw [Range.isAnchor, decide_eq_false_iff_not]
    omega
  simp only [Takes, holdsAt, Offers, Bool.or_eq_true, Bool.and_eq_true, decide_eq_true_eq,
    List.size_toArray]
  constructor
  · rintro (⟨⟨hc, hi⟩ | ⟨hc, hi⟩, hj⟩ | ⟨_, hj, x, hx, hc⟩)
    · exact ⟨lineStart, .inl ⟨rfl, hi, hj⟩, hc⟩
    · exact ⟨textEnd, .inr (.inl ⟨rfl, hi, hj⟩), hc⟩
    · exact ⟨x.toNat, .inr (.inr ⟨x, hx, rfl, hj⟩), hc⟩
  · rintro ⟨c, ⟨rfl, hi, hj⟩ | ⟨rfl, hi, hj⟩ | ⟨x, hx, rfl, hj⟩, hc⟩
    · exact .inl ⟨.inl ⟨hc, hi⟩, hj⟩
    · exact .inl ⟨.inr ⟨hc, hi⟩, hj⟩
    · exact .inr ⟨hchar x hc, hj, x, hx, hc⟩

namespace Automaton

variable {a b : Automaton} {text : List Char}

/-- In consistent automata a value that leads from a reached state leads to a reached state. -/
theorem Reached.step_leads (hcon : a.Consistent) {i j c : Nat} {q r : StateId} {s : State}
    (h : a.Reached text i q) (hg : a.get? q = some s) (hc : Offers text i j c)
    (hl : s.Leads c r) (hlt : r < a.size) : a.Reached text j r := by
  obtain ⟨t, ht, rfl, hr⟩ := hl
  exact h.step hcon hg ht (Range.takes_iff.mpr ⟨c, hc, hr⟩) hlt

/-- What is reached only depends on which values lead where. -/
theorem Reached.of_leads (hcon : b.Consistent) (hstart : a.start = b.start)
    (hsize : a.size = b.size)
    (hleads : ∀ q s, a.get? q = some s →
      ∃ s', b.get? q = some s' ∧ ∀ c r, s.Leads c r → s'.Leads c r)
    {i : Nat} {q : StateId} (h : a.Reached text i q) : b.Reached text i q := by
  refine Reached.step_induction (motive := fun i q => b.Reached text i q) (fun h => ?_)
    (fun i j q s t _ ih hg ht hj hlt => ?_) h
  · rw [hstart, hsize] at *
    exact .start h
  · obtain ⟨c, hc, hr⟩ := Range.takes_iff.mp hj
    obtain ⟨s', hs', hs⟩ := hleads q s hg
    exact ih.step_leads hcon hs' hc (hs c _ ⟨t, ht, rfl, hr⟩) (hsize ▸ hlt)

/-- The automaton with the transitions of each state listed by groups, and without events. -/
def regrouped (a : Automaton) : Automaton := ⟨a.states.map State.regrouped, a.start⟩

@[simp] theorem get?_regrouped (q : StateId) :
    a.regrouped.get? q = (a.get? q).map State.regrouped := by
  simp [regrouped, get?]

@[simp] theorem start_regrouped : a.regrouped.start = a.start := rfl

@[simp] theorem size_regrouped : a.regrouped.size = a.size := by simp [regrouped, size]

@[simp] theorem accept_regrouped (q : StateId) : a.regrouped.accept q = a.accept q := by
  rw [accept, accept, get?_regrouped]
  cases a.get? q <;> rfl

theorem eraseDups_successors_regrouped (q : StateId) :
    (a.regrouped.successors q).eraseDups = (a.successors q).eraseDups := by
  rw [successors, successors, get?_regrouped]
  cases a.get? q with
  | none => rfl
  | some s => exact s.eraseDups_successors_regrouped

/-- Listing transitions by groups keeps the order of a closure. -/
theorem closure_regrouped (q : StateId) : a.regrouped.closure q = a.closure q := by
  refine Graph.reachable_congr (fun q => ?_) eraseDups_successors_regrouped [q]
  simp [graph]

theorem Consistent.regrouped (hcon : a.Consistent) : a.regrouped.Consistent := by
  intro q s hs
  rw [get?_regrouped] at hs
  obtain ⟨u, hu, rfl⟩ := Option.map_eq_some_iff.mp hs
  exact (hcon q u hu).regrouped

theorem reached_regrouped (hcon : a.Consistent) {i : Nat} {q : StateId} :
    a.regrouped.Reached text i q ↔ a.Reached text i q := by
  constructor
  · apply Reached.of_leads hcon start_regrouped size_regrouped
    intro q s hs
    rw [get?_regrouped] at hs
    obtain ⟨u, hu, rfl⟩ := Option.map_eq_some_iff.mp hs
    exact ⟨u, hu, fun _ _ => State.leads_regrouped.mp⟩
  · apply Reached.of_leads hcon.regrouped start_regrouped.symm size_regrouped.symm
    intro q s hs
    exact ⟨s.regrouped, by rw [get?_regrouped, hs]; rfl, fun _ _ => State.leads_regrouped.mpr⟩

/-- Where no value leads to two targets, listing transitions by groups changes no run. -/
theorem reports_regrouped (hcon : a.Consistent) {i k : Nat} :
    a.regrouped.Reports text i k ↔ a.Reports text i k := by
  simp only [Reports, reached_regrouped hcon, accept_regrouped]

end Automaton

end PositionAutomata
