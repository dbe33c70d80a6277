import PositionAutomata.Construction.Build
import PositionAutomata.Proofs.Analysis.Awaiting
import PositionAutomata.Proofs.Automaton.Renumbering
import PositionAutomata.Proofs.Construction.Keys

/-
  Runs of synthesized automata.

  The state of a key leads by each letter to the state of the key after it
  (`mem_transitions`). So while a text is read the automaton is in the states of
  the keys that are entered (`reached_iff`), also when only some of the steps
  between keys are kept. Pruning and renumbering aside, which change no run,
  this is what the built automaton does (`run_ofAnalysis`).
-/

namespace PositionAutomata

namespace Analysis

variable {a : Analysis} {text : List Char} {i j : Nat} {q : StateId} {k k' : Key} {s : State}

/-- The automaton of all keys, before transitions are removed. -/
def synthesized (a : Analysis) : Automaton := a.synthesize a.expansions

/-- The keys that are entered after the first `i` characters of a text by steps that are kept. -/
inductive Enters (a : Analysis) (keep : Key → Key → Prop) (text : List Char) :
    Nat → Key → Prop where
  | start : Enters a keep text 0 a.startKey
  | step {i j : Nat} {k k' : Key} {letter : Range} : Enters a keep text i k →
      letter ∈ a.alphabet.letters → a.step? k letter = some k' → letter.Takes text i j →
      keep k k' → Enters a keep text j k'

/-- The step goes on with a lazy repetition from a key that accepts. -/
def Trims (a : Analysis) (k k' : Key) : Prop :=
  (a.positions.accept k.positions).isSome = true ∧
    k'.positions.isDisjoint (a.loopStarts k) = false

/-! ## Keys and states -/

theorem getElem?_zero_keys : a.keys[0]? = some a.startKey := by
  have hpos : Nat.pow 4 a.positions.size ≠ 0 := Nat.ne_of_gt (Nat.pow_pos (by omega))
  rw [keys, expansions]
  obtain ⟨fuel, hfuel⟩ := Nat.exists_eq_succ_of_ne_zero hpos
  rw [hfuel, discover]
  rfl

theorem expansion_of_key (hb : a.Bounded) (h : a.keys[q]? = some k) :
    a.expansions[q]? = some (a.expand k) := by
  rw [keys, List.getElem?_map, Option.map_eq_some_iff] at h
  obtain ⟨x, hx, rfl⟩ := h
  obtain ⟨hexp, _⟩ := (expansions_spec hb).1 x (List.mem_of_getElem? hx)
  rw [hx, ← hexp]

theorem step_mem_keys (hb : a.Bounded) (hk : k ∈ a.keys) {letter : Range}
    (hl : letter ∈ a.alphabet.letters) (hs : a.step? k letter = some k') : k' ∈ a.keys := by
  obtain ⟨q, hq⟩ := List.mem_iff_getElem?.mp hk
  have hx := List.mem_of_getElem? (expansion_of_key hb hq)
  exact (expansions_spec hb).2.2.2 _ hx _ (mem_steps_expand.mpr ⟨hl, hs⟩)

theorem key_unique (hb : a.Bounded) {q' : StateId} (h : a.keys[q]? = some k)
    (h' : a.keys[q']? = some k) : q = q' := by
  obtain ⟨hlt, _⟩ := List.getElem?_eq_some_iff.mp h
  exact (List.getElem?_inj hlt (expansions_spec hb).2.1).mp (h.trans h'.symm)

theorem get?_synthesized (hb : a.Bounded) (h : a.keys[q]? = some k) :
    a.synthesized.get? q = some
      { transitions := (a.expand k).steps.filterMap fun (letter, k) =>
          ((Index.ofList a.keys).get? k).map (⟨letter, ·⟩)
        accept := a.positions.accept k.positions
        events := a.events.ofSet k.positions } := by
  rw [synthesized, synthesize, Automaton.get?]
  simp only [List.getElem?_toArray, List.getElem?_map, expansion_of_key hb h]
  rfl

theorem exists_key (h : a.synthesized.get? q = some s) : ∃ k, a.keys[q]? = some k := by
  rw [synthesized, synthesize, Automaton.get?] at h
  simp only [List.getElem?_toArray, List.getElem?_map, Option.map_eq_some_iff] at h
  obtain ⟨x, hx, _⟩ := h
  exact ⟨x.key, by rw [keys, List.getElem?_map, hx]; rfl⟩

theorem lt_size_of_key (hb : a.Bounded) (h : a.keys[q]? = some k) : q < a.synthesized.size :=
  Automaton.lt_size_of_get? (get?_synthesized hb h)

theorem accept_synthesized (hb : a.Bounded) (h : a.keys[q]? = some k) :
    a.synthesized.accept q = a.positions.accept k.positions := by
  rw [Automaton.accept, get?_synthesized hb h]
  rfl

/-- The transitions of the state of a key are the steps of the key. -/
theorem mem_transitions (hb : a.Bounded) (h : a.keys[q]? = some k)
    (hs : a.synthesized.get? q = some s) {t : Transition} :
    t ∈ s.transitions ↔ t.range ∈ a.alphabet.letters ∧
      ∃ k', a.step? k t.range = some k' ∧ a.keys[t.target]? = some k' := by
  rw [get?_synthesized hb h] at hs
  obtain rfl := Option.some.inj hs
  simp only [List.mem_filterMap, Option.map_eq_some_iff]
  constructor
  · intro h
    obtain ⟨⟨letter, k'⟩, hm, j, hj, rfl⟩ := h
    obtain ⟨hl, hstep⟩ := mem_steps_expand.mp hm
    exact ⟨hl, k', hstep, Index.getElem?_of_get? hj⟩
  · intro h
    obtain ⟨hl, k', hstep, ht⟩ := h
    exact ⟨(t.range, k'), mem_steps_expand.mpr ⟨hl, hstep⟩, t.target,
      Index.get?_of_getElem? (expansions_spec hb).2.1 ht, rfl⟩

theorem wellFormed_synthesized (hb : a.Bounded) : a.synthesized.WellFormed := by
  refine ⟨lt_size_of_key hb getElem?_zero_keys, fun q r hr => ?_⟩
  obtain ⟨s, hs, t, ht, rfl⟩ := Automaton.mem_successors.mp hr
  obtain ⟨k, hk⟩ := exists_key hs
  obtain ⟨_, k', _, ht⟩ := (mem_transitions hb hk hs).mp ht
  exact lt_size_of_key hb ht

theorem separated_synthesized (hb : a.Bounded) (hp : a.Partitioned) : a.synthesized.Separated := by
  intro q s hs
  obtain ⟨k, hk⟩ := exists_key hs
  rw [get?_synthesized hb hk] at hs
  obtain rfl := Option.some.inj hs
  -- The steps of a key are in the order of the letters, and so are its transitions.
  have hsteps : (a.expand k).steps.Pairwise fun x y => x.1.last < y.1.first := by
    apply hp.disjoint.filterMap _
    intro x y hxy s hs t ht
    obtain ⟨_, _, rfl⟩ := Option.map_eq_some_iff.mp hs
    obtain ⟨_, _, rfl⟩ := Option.map_eq_some_iff.mp ht
    exact hxy
  apply hsteps.filterMap _
  intro x y hxy t ht u hu
  obtain ⟨_, _, rfl⟩ := Option.map_eq_some_iff.mp ht
  obtain ⟨_, _, rfl⟩ := Option.map_eq_some_iff.mp hu
  simp only [Range.intersects, Bool.and_eq_false_iff, decide_eq_false_iff_not]
  omega

/-! ## Entered keys -/

theorem Enters.mem_keys (hb : a.Bounded) {keep : Key → Key → Prop} (h : a.Enters keep text i k) :
    k ∈ a.keys := by
  induction h with
  | start => exact (expansions_spec hb).2.2.1
  | step _ hl hs _ _ ih => exact step_mem_keys hb ih hl hs

/-- By transitions that are kept, the states of the keys that are entered are reached. -/
theorem reached_iff (hb : a.Bounded) (hl : a.Lettered) {keep : Key → Key → Prop}
    {test : StateId → Transition → Bool}
    (hkeep : ∀ {q t k k'}, a.keys[q]? = some k → a.keys[t.target]? = some k' →
      (test q t = true ↔ keep k k')) :
    (a.synthesized.filterTransitions test).Reached text i q ↔
      ∃ k, a.keys[q]? = some k ∧ a.Enters keep text i k := by
  have hsep := separated_synthesized hb hl.toPartitioned
  constructor
  · intro h
    refine Automaton.Reached.step_induction
      (motive := fun i q => ∃ k, a.keys[q]? = some k ∧ a.Enters keep text i k)
      (fun _ => ⟨_, getElem?_zero_keys, .start⟩) (fun i j q s t _ ih hg ht hj _ => ?_) h
    -- A transition that is taken is a step of the key of its state.
    obtain ⟨k, hk, hent⟩ := ih
    rw [Automaton.get?_filterTransitions] at hg
    obtain ⟨u, hu, rfl⟩ := Option.map_eq_some_iff.mp hg
    obtain ⟨ht, htest⟩ := List.mem_filter.mp ht
    obtain ⟨hletter, k', hstep, hk'⟩ := (mem_transitions hb hk hu).mp ht
    exact ⟨k', hk', .step hent hletter hstep hj ((hkeep hk hk').mp htest)⟩
  · intro h
    obtain ⟨k, hk, h⟩ := h
    induction h generalizing q with
    | start =>
      obtain rfl := key_unique hb hk getElem?_zero_keys
      have hlt := lt_size_of_key hb hk
      exact .start (by rwa [Automaton.size_filterTransitions])
    | @step i j k k' letter hent hletter hstep hj hkk ih =>
      obtain ⟨p, hp⟩ := List.mem_iff_getElem?.mp (hent.mem_keys hb)
      have hs := get?_synthesized hb hp
      refine (ih hp).step_filterTransitions hsep hs (t := ⟨letter, q⟩) ?_ ((hkeep hp hk).mpr hkk) hj
        (lt_size_of_key hb hk)
      exact (mem_transitions hb hp hs).mpr ⟨hletter, k', hstep, hk⟩

theorem reports_iff (hb : a.Bounded) (hl : a.Lettered) {keep : Key → Key → Prop}
    {test : StateId → Transition → Bool}
    (hkeep : ∀ {q t k k'}, a.keys[q]? = some k → a.keys[t.target]? = some k' →
      (test q t = true ↔ keep k k')) {n : Symbol} :
    (a.synthesized.filterTransitions test).Reports text i n ↔
      ∃ k, a.Enters keep text i k ∧ a.positions.accept k.positions = some n := by
  simp only [Automaton.Reports, reached_iff hb hl hkeep, Automaton.accept_filterTransitions]
  constructor
  · intro h
    obtain ⟨q, ⟨k, hk, hent⟩, hacc⟩ := h
    exact ⟨k, hent, by rwa [accept_synthesized hb hk] at hacc⟩
  · intro h
    obtain ⟨k, hent, hacc⟩ := h
    obtain ⟨q, hq⟩ := List.mem_iff_getElem?.mp (hent.mem_keys hb)
    exact ⟨q, ⟨k, hq, hent⟩, by rwa [accept_synthesized hb hq]⟩

/-! ## Built automata -/

/-- The steps that the options keep. -/
def Keeps (a : Analysis) (c : Config) (k k' : Key) : Prop :=
  c.trim = true → c.lazy = true → ¬ a.Trims k k'

/-- The transitions of the synthesized automaton that the options keep. -/
def keptTransition (a : Analysis) (c : Config) (q : StateId) (t : Transition) : Bool :=
  if c.trim && c.lazy then
    let starts := if a.synthesized.isAccepting q then a.keys[q]?.elim ∅ a.loopStarts else ∅
    a.keys[t.target]?.all fun k => k.positions.isDisjoint starts
  else true

theorem isDisjoint_empty (s : SortedSet) : s.isDisjoint ∅ = true :=
  SortedSet.isDisjoint_iff.mpr fun _ _ => SortedSet.not_mem_empty

theorem keptTransition_iff (hb : a.Bounded) (c : Config) {t : Transition}
    (hk : a.keys[q]? = some k) (hk' : a.keys[t.target]? = some k') :
    a.keptTransition c q t = true ↔ a.Keeps c k k' := by
  rw [keptTransition, Keeps, Trims, hk, hk', Automaton.isAccepting, accept_synthesized hb hk]
  simp only [Option.elim_some, Option.all_some]
  cases c.trim <;> cases c.lazy <;> simp
  cases hacc : (a.positions.accept k.positions).isSome with
  | true => simp
  | false => simp [isDisjoint_empty]

/-- The synthesized automaton, pruned if the options ask for it. -/
def pruned (a : Analysis) (c : Config) : Automaton :=
  if c.prune then a.synthesized.prune.2 else a.synthesized

/-- Pruning takes transitions away and nothing else. -/
theorem exists_pruned_eq (a : Analysis) (c : Config) :
    ∃ test, a.pruned c = a.synthesized.filterTransitions test := by
  rw [pruned]
  split
  · exact ⟨_, Automaton.prune_eq_filterTransitions _⟩
  · exact ⟨_, (Automaton.filterTransitions_true _).symm⟩

/-- The built automaton is the pruned one with the transitions that are kept, renumbered. -/
theorem ofAnalysis_eq (a : Analysis) (c : Config) : Automaton.ofAnalysis a c =
    ((a.pruned c).filterTransitions (a.keptTransition c)).retainReachable := by
  -- Trimming looks at accepting states and keys alone, and pruning changes neither.
  have hpruned : ∀ q, (a.pruned c).isAccepting q = a.synthesized.isAccepting q := by
    intro q
    obtain ⟨test, htest⟩ := exists_pruned_eq a c
    rw [htest, Automaton.isAccepting, Automaton.accept_filterTransitions, Automaton.isAccepting]
  have htrim : (if c.trim && c.lazy then a.trim a.keys.toArray (a.pruned c) else a.pruned c) =
      (a.pruned c).filterTransitions (a.keptTransition c) := by
    split
    next hc =>
      rw [trim]
      congr 1
      funext q t
      simp only [keptTransition, hc, hpruned, List.getElem?_toArray, if_true]
    next hc =>
      conv => lhs; rw [← Automaton.filterTransitions_true (a.pruned c)]
      congr 1
      funext q t
      simp [keptTransition, hc]
  exact congrArg Automaton.retainReachable htrim

/-- The built automaton runs as the synthesized one does by the transitions that are kept. -/
theorem run_ofAnalysis_eq (hb : a.Bounded) (hl : a.Lettered) (c : Config) (text : List Char) :
    (Automaton.ofAnalysis a c).run text =
      (a.synthesized.filterTransitions (a.keptTransition c)).run text := by
  have hwf : (a.pruned c).WellFormed := by
    obtain ⟨test, htest⟩ := exists_pruned_eq a c
    rw [htest]
    exact (wellFormed_synthesized hb).filterTransitions _
  rw [ofAnalysis_eq, Automaton.run_retainReachable (hwf.filterTransitions _), pruned]
  split
  · exact Automaton.run_filterTransitions_prune (separated_synthesized hb hl.toPartitioned) _ text
  · rfl

/-- A text is accepted with the least symbol of a key that is entered at its end. -/
theorem run_ofAnalysis (hb : a.Bounded) (hl : a.Lettered) (c : Config) {n : Symbol} :
    (Automaton.ofAnalysis a c).run text = some n ↔
      IsLeast {n | ∃ k, a.Enters (a.Keeps c) text text.length k ∧
        a.positions.accept k.positions = some n} n := by
  rw [run_ofAnalysis_eq hb hl, Automaton.run_eq_some_iff]
  simp only [reports_iff hb hl fun hk hk' => keptTransition_iff hb c hk hk']

end Analysis

end PositionAutomata
