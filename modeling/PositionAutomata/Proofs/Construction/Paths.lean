import PositionAutomata.Proofs.Automaton.Words
import PositionAutomata.Proofs.Construction.Recognition

/-
  Paths of positions.

  A path for a word (`Analysis.Path`) begins with a first position of the
  expression; each position of it but the last reads its code point of the word,
  and the next one follows it. A code point is in one letter, so a state leads by
  it to the positions that follow those which read it, and these are lazy if they
  are inherently so or follow a lazy one that reads it (`mem_positions_next?`,
  `mem_lazy_next?`). So a word leads to the last positions of its paths, and to
  the lazy ones of them where a path has an inherently lazy position
  (`exists_key_of_follow?`). It can be followed as far as paths go
  (`exists_follow?_iff`).
-/

namespace PositionAutomata

/-- The leaf at a position reads a code point. -/
def Positions.Matches (ps : Positions) (p : Position) (c : Nat) : Prop :=
  ∃ o, ps.get? p = some o ∧ ∃ r ∈ o.ranges, r.contains c = true

/-- The positions of the list and then one more are a path for a word. -/
inductive Analysis.Path (a : Analysis) : List Nat → List Position → Position → Prop where
  | first {p : Position} : p ∈ (a.endsOf a.expr.tag).first → Path a [] [] p
  | next {w : List Nat} {ps : List Position} {p q : Position} {c : Nat} : Path a w ps p →
      a.positions.Matches p c → q ∈ a.follow.after p → Path a (w ++ [c]) (ps ++ [p]) q

namespace Analysis

variable {a : Analysis} {w : List Nat} {c : Nat} {ps : List Position} {p p' : Position}
  {q r : StateId} {k k' : Key} {letter : Range}

/-! ## Steps by code points -/

/-- A position reads a letter if it reads some code point of it. -/
theorem reads_iff_matches (hp : a.Partitioned) (hl : letter ∈ a.alphabet.letters)
    (hc : letter.contains c = true) :
    a.positions.reads p letter = true ↔ a.positions.Matches p c := by
  rw [Positions.reads, Option.any_eq_true]
  constructor
  · intro h
    obtain ⟨o, ho, hr⟩ := h
    exact ⟨o, ho, hp.whole ho hl hr hc⟩
  · intro h
    obtain ⟨o, ho, r, hr, hrc⟩ := h
    exact ⟨o, ho, List.any_eq_true.mpr ⟨r, hr, Range.intersects_iff.mpr ⟨c, hrc, hc⟩⟩⟩

/-- The state of a key leads by a code point to the state of the key after its letter. -/
theorem next?_synthesized_iff (hb : a.Bounded) (hp : a.Partitioned) (hk : a.keys[q]? = some k) :
    a.synthesized.next? q c = some r ↔ ∃ letter ∈ a.alphabet.letters, letter.isAnchor = false ∧
      letter.contains c = true ∧ ∃ k', a.step? k letter = some k' ∧ a.keys[r]? = some k' := by
  have hs := get?_synthesized hb hk
  rw [Automaton.next?_eq_some_iff (separated_synthesized hb hp).consistent]
  constructor
  · intro h
    obtain ⟨s, hs, t, ht, hna, hc, rfl⟩ := h
    obtain ⟨hl, hstep⟩ := (mem_transitions hb hk hs).mp ht
    exact ⟨t.range, hl, hna, hc, hstep⟩
  · intro h
    obtain ⟨letter, hl, hna, hc, hstep⟩ := h
    exact ⟨_, hs, ⟨letter, r⟩, (mem_transitions hb hk hs).mpr ⟨hl, hstep⟩, hna, hc, rfl⟩

section

variable (hb : a.Bounded) (hp : a.Partitioned) (hk : a.keys[q]? = some k)

include hb hp hk

/-- A code point can be read where something follows a position that reads it. -/
theorem exists_next? (hc : c ≤ maxCodepoint) (hpk : p ∈ k.positions)
    (hm : a.positions.Matches p c) (hq : p' ∈ a.follow.after p) :
    ∃ r, a.synthesized.next? q c = some r := by
  obtain ⟨letter, hl, hna, hlc⟩ := hp.covers hc
  obtain ⟨k', hstep⟩ := exists_step hpk ((reads_iff_matches hp hl hlc).mpr hm) hq
  obtain ⟨r, hr⟩ := List.mem_iff_getElem?.mp
    (step_mem_keys hb (List.mem_of_getElem? hk) hl hstep)
  exact ⟨r, (next?_synthesized_iff hb hp hk).mpr ⟨letter, hl, hna, hlc, k', hstep, hr⟩⟩

variable (h : a.synthesized.next? q c = some r) (hk' : a.keys[r]? = some k')

include h hk'

theorem exists_step_of_next? : ∃ letter ∈ a.alphabet.letters, letter.contains c = true ∧
    a.step? k letter = some k' := by
  obtain ⟨letter, hl, _, hlc, x, hstep, hx⟩ := (next?_synthesized_iff hb hp hk).mp h
  obtain rfl := Option.some.inj (hx.symm.trans hk')
  exact ⟨letter, hl, hlc, hstep⟩

/-- The positions after a code point follow a position that reads it. -/
theorem mem_positions_next? : p' ∈ k'.positions ↔
    ∃ p ∈ k.positions, a.positions.Matches p c ∧ p' ∈ a.follow.after p := by
  obtain ⟨letter, hl, hlc, hstep⟩ := exists_step_of_next? hb hp hk h hk'
  simp only [mem_positions_step hstep, reads_iff_matches hp hl hlc]

/-- The lazy positions after a code point are the inherently lazy ones and those that follow a
lazy position that reads it. -/
theorem mem_lazy_next? : p' ∈ k'.lazy ↔
    (p' ∈ k'.positions ∧ a.laziness.isLazy p' = true) ∨
      ∃ p ∈ k.lazy, a.positions.Matches p c ∧ p' ∈ a.follow.after p := by
  have hsound : k.Sound a := sound_of_mem_keys hb (List.mem_of_getElem? hk)
  have hpositions : p' ∈ k'.positions ↔
      ∃ p ∈ k.positions, a.positions.Matches p c ∧ p' ∈ a.follow.after p :=
    mem_positions_next? hb hp hk h hk'
  obtain ⟨letter, hl, hlc, hstep⟩ := exists_step_of_next? hb hp hk h hk'
  -- Laziness spreads from the lazy positions of the group, which the inherently lazy ones are.
  have hlazy : p' ∈ k'.lazy ↔ p' ∈ k'.positions ∧ (a.laziness.isLazy p' = true ∨
      ∃ p ∈ k.positions, a.positions.Matches p c ∧
        (a.laziness.isLazy p = true ∨ p ∈ k.lazy) ∧ p' ∈ a.follow.after p) := by
    rw [step?_eq_some hstep, Laziness.mem_spread]
    simp only [SortedSet.mem_filter, reads_iff_matches hp hl hlc, and_assoc]
  rw [hlazy, and_or_left]
  refine or_congr_right ?_
  constructor
  · intro h
    obtain ⟨_, p, hpk, hm, hor, hq⟩ := h
    exact ⟨p, hor.elim (hsound.inherent p hpk) id, hm, hq⟩
  · intro h
    obtain ⟨p, hpl, hm, hq⟩ := h
    have hpk := hsound.lazy p hpl
    exact ⟨hpositions.mpr ⟨p, hpk, hm, hq⟩, p, hpk, hm, .inr hpl, hq⟩

end

/-! ## Paths -/

theorem path_nil_iff : a.Path [] ps p ↔ ps = [] ∧ p ∈ (a.endsOf a.expr.tag).first := by
  constructor
  · intro h
    generalize hw : ([] : List Nat) = w at h
    cases h with
    | first hp => exact ⟨rfl, hp⟩
    | next => exact absurd hw (by simp)
  · intro h
    obtain ⟨rfl, hp⟩ := h
    exact .first hp

theorem path_concat_iff : a.Path (w ++ [c]) ps p' ↔
    ∃ qs p, ps = qs ++ [p] ∧ a.Path w qs p ∧ a.positions.Matches p c ∧ p' ∈ a.follow.after p := by
  constructor
  · intro h
    generalize hv : w ++ [c] = v at h
    cases h with
    | first => exact absurd hv (by simp)
    | @next u qs p q d hpath hm hq =>
      obtain ⟨rfl, hcd⟩ := List.append_inj' hv rfl
      obtain rfl := List.singleton_inj.mp hcd
      exact ⟨qs, p, rfl, hpath, hm, hq⟩
  · intro h
    obtain ⟨qs, p, rfl, hpath, hm, hq⟩ := h
    exact .next hpath hm hq

/-- One code point on, paths end in what follows a position that ended one and reads it. -/
theorem exists_path_concat_iff : (∃ ps, a.Path (w ++ [c]) ps p') ↔
    ∃ p, (∃ ps, a.Path w ps p) ∧ a.positions.Matches p c ∧ p' ∈ a.follow.after p := by
  constructor
  · intro h
    obtain ⟨_, h⟩ := h
    obtain ⟨ps, p, rfl, hpath, hm, hq⟩ := path_concat_iff.mp h
    exact ⟨p, ⟨ps, hpath⟩, hm, hq⟩
  · intro h
    obtain ⟨p, ⟨ps, hpath⟩, hm, hq⟩ := h
    exact ⟨ps ++ [p], hpath.next hm hq⟩

/-- A path with an inherently lazy position has it at its end, or had it one code point before. -/
theorem exists_lazy_path_concat_iff :
    (∃ ps, a.Path (w ++ [c]) ps p' ∧ ∃ x ∈ ps ++ [p'], a.laziness.isLazy x = true) ↔
      ((∃ ps, a.Path (w ++ [c]) ps p') ∧ a.laziness.isLazy p' = true) ∨
        ∃ p, (∃ ps, a.Path w ps p ∧ ∃ x ∈ ps ++ [p], a.laziness.isLazy x = true) ∧
          a.positions.Matches p c ∧ p' ∈ a.follow.after p := by
  constructor
  · intro h
    obtain ⟨_, hpath, x, hx, hlazy⟩ := h
    rcases List.mem_append.mp hx with hx | hx
    · obtain ⟨ps, p, rfl, hpath, hm, hq⟩ := path_concat_iff.mp hpath
      exact .inr ⟨p, ⟨ps, hpath, x, hx, hlazy⟩, hm, hq⟩
    · rw [List.mem_singleton] at hx
      exact .inl ⟨⟨_, hpath⟩, by rwa [← hx]⟩
  · intro h
    rcases h with ⟨⟨ps, hpath⟩, hlazy⟩ | ⟨p, ⟨ps, hpath, x, hx, hlazy⟩, hm, hq⟩
    · exact ⟨ps, hpath, p', by simp, hlazy⟩
    · exact ⟨ps ++ [p], hpath.next hm hq, x, List.mem_append_left _ hx, hlazy⟩

/-- The key has the last positions of the paths for a word, and as lazy positions those to which a
path with an inherently lazy position leads. -/
structure Collects (a : Analysis) (w : List Nat) (k : Key) : Prop where
  positions : ∀ p, p ∈ k.positions ↔ ∃ ps, a.Path w ps p
  lazy : ∀ p, p ∈ k.lazy ↔
    ∃ ps, a.Path w ps p ∧ ∃ x ∈ ps ++ [p], a.laziness.isLazy x = true

theorem collects_startKey : a.Collects [] a.startKey where
  positions p := by
    simp only [path_nil_iff, exists_and_right, exists_eq, true_and]
    rfl
  lazy p := by
    simp only [path_nil_iff, and_assoc, exists_eq_left, List.nil_append, List.mem_singleton]
    exact SortedSet.mem_filter

/-- Where a key collects the paths for a word, the key after a code point does for one more. -/
theorem Collects.next (hb : a.Bounded) (hp : a.Partitioned) (hk : a.keys[q]? = some k)
    (hk' : a.keys[r]? = some k') (h : a.synthesized.next? q c = some r)
    (hcol : a.Collects w k) : a.Collects (w ++ [c]) k' := by
  have hpositions : ∀ p, p ∈ k'.positions ↔ ∃ ps, a.Path (w ++ [c]) ps p := by
    intro p'
    simp only [mem_positions_next? hb hp hk h hk', hcol.positions, exists_path_concat_iff]
  refine ⟨hpositions, fun p' => ?_⟩
  rw [mem_lazy_next? hb hp hk h hk', hpositions, exists_lazy_path_concat_iff]
  simp only [hcol.lazy]

/-- The key of the state to which a word leads collects the paths for the word. -/
theorem exists_key_of_follow? (hb : a.Bounded) (hp : a.Partitioned)
    (h : a.synthesized.follow? a.synthesized.start w = some q) :
    ∃ k, a.keys[q]? = some k ∧ a.Collects w k := by
  induction w using List.reverseRecOn generalizing q with
  | nil =>
    obtain rfl : 0 = q := Option.some.inj h
    exact ⟨_, getElem?_zero_keys, collects_startKey⟩
  | append_singleton w c ih =>
    obtain ⟨p, hfollow, hnext⟩ := Automaton.follow?_concat_eq_some_iff.mp h
    obtain ⟨k, hk, hcol⟩ := ih hfollow
    obtain ⟨_, _, _, _, k', _, hk'⟩ := (next?_synthesized_iff hb hp hk).mp hnext
    exact ⟨k', hk', hcol.next hb hp hk hk' hnext⟩

theorem Path.exists_follow? (hb : a.Bounded) (hp : a.Partitioned) (h : a.Path w ps p)
    (hw : ∀ c ∈ w, c ≤ maxCodepoint) :
    ∃ q, a.synthesized.follow? a.synthesized.start w = some q := by
  induction h with
  | first _ => exact ⟨_, rfl⟩
  | @next w ps p p' c hpath hm hq ih =>
    obtain ⟨q, hfollow⟩ := ih fun x hx => hw x (List.mem_append_left _ hx)
    obtain ⟨k, hk, hcol⟩ := exists_key_of_follow? hb hp hfollow
    obtain ⟨r, hr⟩ := exists_next? hb hp hk (hw c (by simp)) ((hcol.positions p).mpr ⟨ps, hpath⟩)
      hm hq
    exact ⟨r, Automaton.follow?_concat_eq_some_iff.mpr ⟨q, hfollow, hr⟩⟩

end Analysis

/-- A terminator has to be read. -/
theorem Config.not_nullable_augmented {c : Config} {e : Expr NodeId} :
    ¬ (c.augmented e).Nullable :=
  augmented_induction (motive := fun x => ¬ x.Nullable)
    (fun _ _ _ h => absurd h.2 (by simp [Expr.Nullable]))
    fun _ _ hl hr h => h.elim hl hr

namespace Analysis

variable {t : Tree} {c : Config} {a : Analysis} {w : List Nat}

/-! ## Words that can be followed -/

/-- The start of an analysed tree has a position. -/
theorem exists_path_nil (h : c.analyze t = .ok a) : ∃ ps p, a.Path [] ps p := by
  obtain ⟨e, u, f, _, haug, rfl⟩ := Config.augments_of_analyze h
  obtain ⟨root, hroot⟩ := exists_root_of_rootExpr haug.root
  have hnull : ¬ f.Nullable := by
    have hshape := Config.not_nullable_augmented (c := c) (e := e)
    rw [← haug.shape] at hshape
    exact fun hf => hshape (Expr.nullable_map.mpr hf)
  obtain ⟨x, hx⟩ := Expr.exists_first hnull
  obtain ⟨p, hp⟩ := Expr.exists_at (Expr.mem_leaves_of_first hx)
  exact ⟨[], p, .first ((mem_first_iff hroot haug.nodup haug.bounded).mpr ⟨x, hx, hp⟩)⟩

/-- A word is followed to its end exactly if there is a path for it. -/
theorem exists_follow?_iff (h : c.analyze t = .ok a) (hw : ∀ x ∈ w, x ≤ maxCodepoint) :
    (∃ q, a.synthesized.follow? a.synthesized.start w = some q) ↔ ∃ ps p, a.Path w ps p := by
  have hb := bounded_of_analyze h
  have hp := partitioned_of_analyze h
  constructor
  · intro hfollow
    obtain ⟨q, hq⟩ := hfollow
    induction w using List.reverseRecOn with
    | nil => exact exists_path_nil h
    | append_singleton w c _ =>
      -- The last code point was read by some position of the key before it.
      obtain ⟨r, hr, hnext⟩ := Automaton.follow?_concat_eq_some_iff.mp hq
      obtain ⟨k, hk, hcol⟩ := exists_key_of_follow? hb hp hr
      obtain ⟨letter, hl, _, hlc, k', hstep, _⟩ := (next?_synthesized_iff hb hp hk).mp hnext
      obtain ⟨p', hp'⟩ := exists_mem_of_step hstep
      obtain ⟨p, hpk, hread, hq⟩ := (mem_positions_step hstep).mp hp'
      obtain ⟨ps, hpath⟩ := (hcol.positions p).mp hpk
      exact ⟨_, _, hpath.next ((reads_iff_matches hp hl hlc).mp hread) hq⟩
  · intro hpath
    obtain ⟨ps, p, hpath⟩ := hpath
    exact hpath.exists_follow? hb hp hw

end Analysis

end PositionAutomata
