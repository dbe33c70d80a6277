import PositionAutomata.Proofs.Construction.Recognition

/-
  What trimming takes away.

  Without anchors an automaton reads a character with each step and is in one
  key at a time (`Enters.unique`). A key is then left out by trimming exactly if
  the text is cut before it: what was read is accepted, and a position that
  begins a lazy repetition around an awaited one comes next (`Analysis.Cut`). So
  a trimmed automaton accepts what the untrimmed one accepts without a cut
  (`run_eq_some_iff_not_cut`).
-/

namespace PositionAutomata

namespace Analysis

variable {a : Analysis} {c : Config} {text : List Char} {i j : Nat} {k k' : Key} {p q : Position}

/-- No leaf at a position holds at an anchor. -/
def AnchorFree (a : Analysis) : Prop :=
  ∀ p o, a.positions.get? p = some o → o.leaf.IsAnchorFree

/-- The keys that are entered when no step is trimmed. -/
def Passes (a : Analysis) (text : List Char) (i : Nat) (k : Key) : Prop :=
  a.Enters (fun _ _ => True) text i k

/-- What was read after `i` characters is accepted, and the next character leads to a position that
begins a lazy repetition around one of the positions before it. -/
def Cut (a : Analysis) (text : List Char) (i : Nat) : Prop :=
  (∃ p n, a.Awaits text i p ∧ a.positions.symbol? p = some n) ∧
    ∃ p r q, a.Awaits text i p ∧ a.laziness.parent? p = some r ∧ q ∈ (a.endsOf r).first ∧
      a.Awaits text (i + 1) q

theorem Enters.mono {keep keep' : Key → Key → Prop} (hk : ∀ k k', keep k k' → keep' k k')
    (h : a.Enters keep text i k) : a.Enters keep' text i k := by
  induction h with
  | start => exact .start
  | step _ hletter hstep htake hkeep ih => exact .step ih hletter hstep htake (hk _ _ hkeep)

/-! ## One key at a time -/

/-- Without anchors a step reads a character of its letter. -/
theorem char_of_step (hl : a.Lettered) (ha : a.AnchorFree) {letter : Range}
    (hletter : letter ∈ a.alphabet.letters) (hstep : a.step? k letter = some k')
    (htake : letter.Takes text i j) :
    j = i + 1 ∧ ∃ c, text[i]? = some c ∧ letter.contains c.toNat = true := by
  -- If an anchor held, some leaf that the letter is read by would read nothing.
  rcases htake with ⟨hholds, rfl⟩ | ⟨_, rfl, c, hc, hlc⟩
  · obtain ⟨q, hq⟩ := exists_mem_of_step hstep
    obtain ⟨p, _, hread, _⟩ := (mem_positions_step hstep).mp hq
    rw [Positions.reads, Option.any_eq_true] at hread
    obtain ⟨o, ho, hr⟩ := hread
    have hreads := hl.reads ho hletter hr (.inl ⟨hholds, rfl⟩)
    exact absurd ((Leaf.reads_iff (ha p o ho)).mp hreads).1 (by omega)
  · exact ⟨rfl, c, hc, hlc⟩

theorem letter_unique (hl : a.Lettered) {l m : Range} (hlm : l ∈ a.alphabet.letters)
    (hm : m ∈ a.alphabet.letters) {c : Nat} (hlc : l.contains c = true)
    (hmc : m.contains c = true) : l = m := by
  rw [Range.contains_iff] at hlc hmc
  obtain ⟨x, hx, rfl⟩ := List.mem_iff_getElem.mp hlm
  obtain ⟨y, hy, rfl⟩ := List.mem_iff_getElem.mp hm
  have hlt := List.pairwise_iff_getElem.mp hl.disjoint
  rcases Nat.lt_trichotomy x y with h | h | h
  · have := hlt x y hx hy h
    omega
  · subst h
    rfl
  · have := hlt y x hy hx h
    omega

/-- Without anchors one key is entered after each number of characters. -/
theorem Enters.unique (hl : a.Lettered) (ha : a.AnchorFree) {keep keep' : Key → Key → Prop}
    (h : a.Enters keep text i k) (h' : a.Enters keep' text i k') : k = k' := by
  induction h generalizing k' with
  | start =>
    cases h' with
    | start => rfl
    | step _ hletter hstep htake _ =>
      exact absurd (char_of_step hl ha hletter hstep htake).1 (by omega)
  | step _ hletter hstep htake _ ih =>
    obtain ⟨rfl, c, hc, hlc⟩ := char_of_step hl ha hletter hstep htake
    generalize hj : _ + 1 = j at h'
    cases h' with
    | start => exact absurd hj (by omega)
    | step hent hletter' hstep' htake' _ =>
      obtain ⟨rfl, c', hc', hlc'⟩ := char_of_step hl ha hletter' hstep' htake'
      obtain rfl := Nat.succ.inj hj
      obtain rfl := ih hent
      rw [hc] at hc'
      cases hc'
      obtain rfl := letter_unique hl hletter hletter' hlc hlc'
      exact Option.some.inj (hstep.symm.trans hstep')

/-- A key is entered by kept steps if it is entered at all and every step before it is kept. -/
theorem enters_iff (hl : a.Lettered) (ha : a.AnchorFree) {keep : Key → Key → Prop} :
    a.Enters keep text i k ↔ a.Passes text i k ∧ ∀ j < i, ∀ x y, a.Passes text j x →
      a.Passes text (j + 1) y → keep x y := by
  constructor
  · intro h
    refine ⟨h.mono fun _ _ _ => trivial, ?_⟩
    induction h with
    | start => exact fun j hj => absurd hj (Nat.not_lt_zero j)
    | step hent hletter hstep htake hkeep ih =>
      obtain ⟨rfl, _⟩ := char_of_step hl ha hletter hstep htake
      intro j hj x y hx hy
      rcases Nat.lt_succ_iff_lt_or_eq.mp hj with hj | rfl
      · exact ih j hj x y hx hy
      · have hxk := hx.unique hl ha hent
        have hyk := hy.unique hl ha (Enters.step hent hletter hstep htake hkeep)
        rwa [hxk, hyk]
  · intro h
    obtain ⟨h, hkeep⟩ := h
    induction h with
    | start => exact .start
    | step hent hletter hstep htake _ ih =>
      obtain ⟨rfl, _⟩ := char_of_step hl ha hletter hstep htake
      refine .step (ih fun j hj => hkeep j (Nat.lt_succ_of_lt hj)) hletter hstep htake ?_
      exact hkeep _ (Nat.lt_succ_self _) _ _ hent (.step hent hletter hstep htake trivial)

/-! ## Cuts -/

/-- The positions of the key that is entered are those that are awaited. -/
theorem Passes.mem_positions_iff (hl : a.Lettered) (ha : a.AnchorFree) (h : a.Passes text i k) :
    p ∈ k.positions ↔ a.Awaits text i p := by
  refine ⟨awaits_of_enters hl h, fun hp => ?_⟩
  obtain ⟨k', hk', hp⟩ : ∃ k', a.Passes text i k' ∧ p ∈ k'.positions :=
    enters_of_awaits hl (fun _ _ => trivial) hp
  rwa [h.unique hl ha hk']

theorem Enters.sound (hb : a.Bounded) {keep : Key → Key → Prop} (h : a.Enters keep text i k) :
    k.Sound a := by
  cases h with
  | start => exact sound_startKey hb
  | step _ _ hs _ _ => exact sound_step hb hs

theorem accept_isSome_iff {ps : Positions} {s : SortedSet} :
    (ps.accept s).isSome = true ↔ ∃ p ∈ s, ∃ n, ps.symbol? p = some n := by
  rw [Option.isSome_iff_exists]
  constructor
  · intro h
    obtain ⟨n, hn⟩ := h
    obtain ⟨p, hp, hn⟩ := (Positions.accept_eq_some_iff.mp hn).1
    exact ⟨p, hp, n, hn⟩
  · intro h
    obtain ⟨p, hp, n, hn⟩ := h
    obtain ⟨m, hm⟩ := exists_isLeast (s := {m | ∃ p ∈ s, ps.symbol? p = some m}) ⟨n, p, hp, hn⟩
    exact ⟨m, Positions.accept_eq_some_iff.mpr hm⟩

/-- The lazy repetitions that a sound key is part of are those around its positions. -/
theorem mem_loopStarts_iff (hk : k.Sound a) :
    q ∈ a.loopStarts k ↔ ∃ p ∈ k.positions, ∃ r, a.laziness.parent? p = some r ∧
      q ∈ (a.endsOf r).first := by
  simp only [loopStarts, SortedSet.mem_biUnion, List.mem_filterMap]
  constructor
  · intro h
    obtain ⟨r, ⟨p, hp, hr⟩, hq⟩ := h
    exact ⟨p, hk.lazy p hp, r, hr, hq⟩
  · intro h
    obtain ⟨p, hp, r, hr, hq⟩ := h
    have hlazy : a.laziness.isLazy p = true := by rw [Laziness.isLazy, hr]; rfl
    exact ⟨r, ⟨p, hk.inherent p hp hlazy, hr⟩, hq⟩

/-- A step between the keys that are entered is trimmed exactly where the text is cut. -/
theorem trims_iff_cut (hb : a.Bounded) (hl : a.Lettered) (ha : a.AnchorFree)
    (hk : a.Passes text i k) (hk' : a.Passes text (i + 1) k') :
    a.Trims k k' ↔ a.Cut text i := by
  have hpos : ∀ {p}, p ∈ k.positions ↔ a.Awaits text i p := Passes.mem_positions_iff hl ha hk
  have hpos' : ∀ {p}, p ∈ k'.positions ↔ a.Awaits text (i + 1) p :=
    Passes.mem_positions_iff hl ha hk'
  -- Both sides speak of the positions of the keys, which are the awaited ones.
  have hdisj : k'.positions.isDisjoint (a.loopStarts k) = false ↔
      ∃ q ∈ k'.positions, q ∈ a.loopStarts k := by
    rw [← Bool.not_eq_true, SortedSet.isDisjoint_iff]
    simp only [not_forall, Decidable.not_not, exists_prop]
  rw [Trims, Cut, accept_isSome_iff, hdisj]
  simp only [mem_loopStarts_iff (Enters.sound hb hk), hpos, hpos']
  refine and_congr ?_ ?_
  · simp only [exists_and_left]
  · constructor
    · intro h
      obtain ⟨q, hq, p, hp, r, hr, hqr⟩ := h
      exact ⟨p, r, q, hp, hr, hqr, hq⟩
    · intro h
      obtain ⟨p, r, q, hp, hr, hqr, hq⟩ := h
      exact ⟨q, hq, p, hp, r, hr, hqr⟩

/-- To be entered after `i + 1` characters is to have been entered after `i`. -/
theorem exists_passes (hl : a.Lettered) (ha : a.AnchorFree) (h : a.Passes text i k) :
    ∀ j ≤ i, ∃ x, a.Passes text j x := by
  induction h with
  | start => exact fun j hj => ⟨a.startKey, by rw [Nat.le_zero.mp hj]; exact .start⟩
  | step hent hletter hstep htake _ ih =>
    obtain ⟨rfl, _⟩ := char_of_step hl ha hletter hstep htake
    intro j hj
    rcases Nat.le_succ_iff.mp hj with hj | rfl
    · exact ih j hj
    · exact ⟨_, .step hent hletter hstep htake trivial⟩

/-- By the steps that the options keep, a key is entered unless the text is cut before it. -/
theorem enters_keeps_iff (hb : a.Bounded) (hl : a.Lettered) (ha : a.AnchorFree) :
    a.Enters (a.Keeps c) text i k ↔ a.Passes text i k ∧
      (c.trim = true → c.lazy = true → ∀ j < i, ¬ a.Cut text j) := by
  rw [enters_iff hl ha]
  apply and_congr_right
  intro hk
  constructor
  · intro h htrim hlazy j hj
    obtain ⟨x, hx⟩ := exists_passes hl ha hk j (Nat.le_of_lt hj)
    obtain ⟨y, hy⟩ := exists_passes hl ha hk (j + 1) hj
    exact fun hcut => h j hj x y hx hy htrim hlazy ((trims_iff_cut hb hl ha hx hy).mpr hcut)
  · intro h j hj x y hx hy htrim hlazy hxy
    exact h htrim hlazy j hj ((trims_iff_cut hb hl ha hx hy).mp hxy)

/-- The built automaton accepts what it would accept untrimmed unless the text is cut. -/
theorem run_eq_some_iff_not_cut (hb : a.Bounded) (hl : a.Lettered) (ha : a.AnchorFree)
    {n : Symbol} :
    (Automaton.ofAnalysis a c).run text = some n ↔
      (Automaton.ofAnalysis a { c with trim := false }).run text = some n ∧
        (c.trim = true → c.lazy = true → ∀ j < text.length, ¬ a.Cut text j) := by
  have hfree : ∀ k, a.Enters (a.Keeps { c with trim := false }) text text.length k ↔
      a.Passes text text.length k := fun k => by
    rw [enters_keeps_iff hb hl ha]
    exact and_iff_left fun h => absurd h (by simp)
  rw [run_ofAnalysis hb hl, run_ofAnalysis hb hl]
  simp only [enters_keeps_iff hb hl ha (c := c), hfree]
  -- The condition does not depend on the symbol, so it can be decided first.
  generalize (c.trim = true → c.lazy = true → ∀ j < text.length, ¬ a.Cut text j) = uncut
  by_cases h : uncut
  · simp only [h, and_true]
  · simp only [h, and_false, false_and, exists_false, iff_false]
    exact fun hleast => hleast.1

/-! ## Accepted prefixes -/

/-- Without anchors what is awaited after some characters does not depend on the others. -/
theorem Awaits.take (ha : a.AnchorFree) (h : a.Awaits text i p) {n : Nat} (hi : i ≤ n) :
    a.Awaits (text.take n) i p := by
  induction h with
  | first hp => exact .first hp
  | next _ ho hread hq ih =>
    obtain ⟨rfl, c, hc, r, hr, hcr⟩ := (Leaf.reads_iff (ha _ _ ho)).mp hread
    refine .next (ih (Nat.le_of_succ_le hi)) ho (.char ?_ hr hcr) hq
    rwa [List.getElem?_take_of_lt hi]

/-- A text is accepted untrimmed if some terminator is awaited at its end. -/
theorem run_isSome_iff (hb : a.Bounded) (hl : a.Lettered) (hkeep : ∀ k k', a.Keeps c k k') :
    ((Automaton.ofAnalysis a c).run text).isSome = true ↔
      ∃ p n, a.Awaits text text.length p ∧ a.positions.symbol? p = some n := by
  rw [Option.isSome_iff_exists]
  simp only [run_eq_some_iff_awaits hb hl hkeep]
  constructor
  · intro h
    obtain ⟨n, ⟨p, hp⟩, _⟩ := h
    exact ⟨p, n, hp⟩
  · intro h
    obtain ⟨p, n, hp⟩ := h
    exact exists_isLeast (s := {m | ∃ p, a.Awaits text text.length p ∧
      a.positions.symbol? p = some m}) ⟨n, p, hp⟩

/-- Where a text is cut, what was read so far is accepted. -/
theorem Cut.accepts (hb : a.Bounded) (hl : a.Lettered) (ha : a.AnchorFree)
    (hkeep : ∀ k k', a.Keeps c k k') (hi : i ≤ text.length) (h : a.Cut text i) :
    ((Automaton.ofAnalysis a c).run (text.take i)).isSome = true := by
  obtain ⟨⟨p, n, hp, hn⟩, _⟩ := h
  rw [run_isSome_iff hb hl hkeep, List.length_take_of_le hi]
  exact ⟨p, n, hp.take ha (Nat.le_refl i), hn⟩

theorem keeps_of_untrimmed (a : Analysis) (c : Config) (k k' : Key) :
    a.Keeps { c with trim := false } k k' :=
  fun h => absurd h (by simp)

/-- A text of which no shorter beginning is accepted is not cut. -/
theorem run_of_first_match (hb : a.Bounded) (hl : a.Lettered) (ha : a.AnchorFree) {n : Symbol}
    (hrun : (Automaton.ofAnalysis a { c with trim := false }).run text = some n)
    (hfirst : ∀ i < text.length,
      (Automaton.ofAnalysis a { c with trim := false }).run (text.take i) = none) :
    (Automaton.ofAnalysis a c).run text = some n := by
  refine (run_eq_some_iff_not_cut hb hl ha).mpr ⟨hrun, fun _ _ i hi hcut => ?_⟩
  have hsome := hcut.accepts hb hl ha (keeps_of_untrimmed a c) (Nat.le_of_lt hi)
  rw [hfirst i hi] at hsome
  exact absurd hsome (by simp)

end Analysis

end PositionAutomata
