import Mathlib.Data.Finset.Powerset
import Mathlib.Data.Finset.Prod
import Mathlib.Order.Interval.Finset.Nat
import PositionAutomata.Construction.Key
import PositionAutomata.Proofs.Analysis.Tables

/-
  The keys that are met.

  Every key that is met is sound (`Key.Sound`): its positions exist, its lazy
  positions are among them, and those that are inherently lazy are lazy. There
  are at most `4 ^ n` sound keys over `n` positions, so the fuel of the search
  is enough: the keys are listed once each, the start first, and no step leads
  to a key that is not listed (`expansions_spec`).
-/

namespace PositionAutomata

/-- A key over the positions of an analysis whose lazy positions are some of its positions, the
inherently lazy ones among them. -/
structure Key.Sound (a : Analysis) (k : Key) : Prop where
  bounded : ∀ p ∈ k.positions, 0 < p ∧ p ≤ a.positions.size
  lazy : ∀ p ∈ k.lazy, p ∈ k.positions
  inherent : ∀ p ∈ k.positions, a.laziness.isLazy p = true → p ∈ k.lazy

/-- A key that is met from the start. -/
inductive Analysis.Meets (a : Analysis) : Key → Prop where
  | start : Meets a a.startKey
  | step {k k' : Key} {letter : Range} : Meets a k → letter ∈ a.alphabet.letters →
      a.step? k letter = some k' → Meets a k'

namespace Analysis

variable {a : Analysis} {k k' : Key} {letter : Range}

/-! ## Steps -/

theorem mem_steps_expand :
    (letter, k') ∈ (a.expand k).steps ↔
      letter ∈ a.alphabet.letters ∧ a.step? k letter = some k' := by
  simp only [expand, List.mem_filterMap, Option.map_eq_some_iff, Prod.mk.injEq]
  constructor
  · intro h
    obtain ⟨l, hl, k, hk, rfl, rfl⟩ := h
    exact ⟨hl, hk⟩
  · intro h
    obtain ⟨hl, hk⟩ := h
    exact ⟨letter, hl, k', hk, rfl, rfl⟩

theorem step?_eq_some (h : a.step? k letter = some k') :
    let group := k.positions.filter fun p => a.positions.reads p letter
    k' = ⟨a.follow.afterAny group,
      a.laziness.spread a.follow group (a.follow.afterAny group) k.lazy⟩ := by
  rw [step?] at h
  split at h
  · exact absurd h (by simp)
  · exact (Option.some.inj h).symm

/-- The positions after a letter are those that follow a position that reads it. -/
theorem mem_positions_step (h : a.step? k letter = some k') {q : Position} :
    q ∈ k'.positions ↔
      ∃ p ∈ k.positions, a.positions.reads p letter = true ∧ q ∈ a.follow.after p := by
  rw [step?_eq_some h]
  simp only [Follow.mem_afterAny, SortedSet.mem_filter, and_assoc]

/-- No letter leads to a key without positions. -/
theorem exists_mem_of_step (h : a.step? k letter = some k') : ∃ q, q ∈ k'.positions := by
  rw [step?] at h
  split at h
  · exact absurd h (by simp)
  next hempty =>
    obtain rfl := Option.some.inj h
    by_contra hnone
    apply hempty
    rw [SortedSet.isEmpty_iff]
    apply SortedSet.ext
    intro q
    exact iff_of_false (fun hq => hnone ⟨q, hq⟩) SortedSet.not_mem_empty

/-- A letter leads on from a key if something follows a position that reads it. -/
theorem exists_step {p q : Position} (hp : p ∈ k.positions)
    (hr : a.positions.reads p letter = true) (hq : q ∈ a.follow.after p) :
    ∃ k', a.step? k letter = some k' := by
  refine ⟨_, if_neg fun he => ?_⟩
  have hm : q ∈ a.follow.afterAny (k.positions.filter fun p => a.positions.reads p letter) :=
    Follow.mem_afterAny.mpr ⟨p, SortedSet.mem_filter.mpr ⟨hp, hr⟩, hq⟩
  rw [SortedSet.isEmpty_iff.mp he] at hm
  exact SortedSet.not_mem_empty hm

theorem sound_startKey (hb : a.Bounded) : a.startKey.Sound a where
  bounded := hb.first
  lazy _ hp := (SortedSet.mem_filter.mp hp).1
  inherent _ hp hl := SortedSet.mem_filter.mpr ⟨hp, hl⟩

theorem sound_step (hb : a.Bounded) (h : a.step? k letter = some k') : k'.Sound a where
  bounded q hq := by
    obtain ⟨p, _, _, hq⟩ := (mem_positions_step h).mp hq
    exact hb.after p q hq
  lazy q hq := by
    rw [step?_eq_some h] at hq ⊢
    exact (Laziness.mem_spread.mp hq).1
  inherent q hq hl := by
    rw [step?_eq_some h] at hq ⊢
    exact Laziness.mem_spread.mpr ⟨hq, .inl hl⟩

theorem Meets.sound (hb : a.Bounded) (h : a.Meets k) : k.Sound a := by
  cases h with
  | start => exact sound_startKey hb
  | step _ _ hs => exact sound_step hb hs

/-! ## The number of keys -/

/-- There are at most `4 ^ n` sound keys over `n` positions. -/
theorem length_le_of_sound {ks : List Key} (hnd : ks.Nodup) (hs : ∀ k ∈ ks, k.Sound a) :
    ks.length ≤ 4 ^ a.positions.size := by
  -- A key is a pair of subsets of the positions.
  let members (k : Key) : Finset Nat × Finset Nat :=
    (k.positions.toList.toFinset, k.lazy.toList.toFinset)
  let all := Finset.Icc 1 a.positions.size
  have inj : Function.Injective members := by
    intro k k' h
    have hp := congrArg Prod.fst h
    have hl := congrArg Prod.snd h
    have hpos : k.positions = k'.positions := SortedSet.ext fun x => by
      simpa [members, SortedSet.mem_def] using Finset.ext_iff.mp hp x
    have hlazy : k.lazy = k'.lazy := SortedSet.ext fun x => by
      simpa [members, SortedSet.mem_def] using Finset.ext_iff.mp hl x
    cases k
    cases k'
    simp_all
  have hsub : (ks.map members).toFinset ⊆ all.powerset ×ˢ all.powerset := by
    intro m hm
    obtain ⟨k, hk, rfl⟩ := List.mem_map.mp (List.mem_toFinset.mp hm)
    have hpos : ∀ p ∈ k.positions, p ∈ all := fun p hp =>
      Finset.mem_Icc.mpr ((hs k hk).bounded p hp)
    simp only [Finset.mem_product, Finset.mem_powerset]
    constructor
    · exact fun p hp => hpos p (List.mem_toFinset.mp hp)
    · exact fun p hp => hpos p ((hs k hk).lazy p (List.mem_toFinset.mp hp))
  calc ks.length = (ks.map members).length := (List.length_map _).symm
    _ = (ks.map members).toFinset.card := (List.toFinset_card_of_nodup (hnd.map inj)).symm
    _ ≤ (all.powerset ×ˢ all.powerset).card := Finset.card_le_card hsub
    _ = 4 ^ a.positions.size := by
      rw [Finset.card_product, Finset.card_powerset, Nat.card_Icc, Nat.add_sub_cancel,
        ← Nat.mul_pow]

/-! ## The search for keys -/

theorem mem_fresh {known : Std.TreeSet Key} {ks : List Key} :
    k ∈ fresh known ks ↔ k ∈ ks ∧ ¬ k ∈ known := by
  induction ks generalizing known with
  | nil => simp [fresh]
  | cons l ks ih =>
    rw [fresh]
    by_cases hl : l ∈ known
    · rw [if_pos hl, ih, List.mem_cons]
      constructor
      · exact fun h => ⟨.inr h.1, h.2⟩
      · intro h
        obtain ⟨rfl | h, hk⟩ := h
        · exact absurd hl hk
        · exact ⟨h, hk⟩
    · rw [if_neg hl, List.mem_cons, List.mem_cons, ih, Std.TreeSet.mem_insert]
      simp only [Std.LawfulEqOrd.compare_eq_iff_eq]
      by_cases hk : k = l
      · simp [hk, hl]
      · simp [hk, Ne.symm hk]

theorem nodup_fresh (known : Std.TreeSet Key) (ks : List Key) : (fresh known ks).Nodup := by
  induction ks generalizing known with
  | nil => exact .nil
  | cons l ks ih =>
    rw [fresh]
    split
    · exact ih known
    · exact List.nodup_cons.mpr
        ⟨fun h => (mem_fresh.mp h).2 Std.TreeSet.mem_insert_self, ih _⟩

/-- How far the search for keys has come: the keys that are done and those that wait are known,
and are met, each once. -/
structure Search (a : Analysis) (done : List Key) (known : Std.TreeSet Key) (waiting : List Key) :
    Prop where
  nodup : (done ++ waiting).Nodup
  known : ∀ k, k ∈ known ↔ k ∈ done ++ waiting
  meets : ∀ k ∈ done ++ waiting, a.Meets k

theorem Search.start (a : Analysis) : Search a [] (.ofList [a.startKey]) [a.startKey] where
  nodup := List.pairwise_singleton _ _
  known k := by rw [Std.TreeSet.mem_ofList, List.contains_iff_mem, List.nil_append]
  meets k hk := by
    rw [List.mem_singleton.mp hk]
    exact .start

theorem Search.step {done waiting : List Key} {known : Std.TreeSet Key}
    (h : Search a done known (k :: waiting)) :
    Search a (done ++ [k]) (known.insertMany (fresh known ((a.expand k).steps.map Prod.snd)))
      (waiting ++ fresh known ((a.expand k).steps.map Prod.snd)) := by
  have hassoc : ∀ found : List Key,
      done ++ [k] ++ (waiting ++ found) = done ++ k :: waiting ++ found := by simp
  constructor
  · rw [hassoc]
    refine List.nodup_append.mpr ⟨h.nodup, nodup_fresh _ _, fun x hx y hy hxy => ?_⟩
    rw [hxy, ← h.known] at hx
    exact (mem_fresh.mp hy).2 hx
  · intro x
    rw [hassoc, List.mem_append, ← h.known, Std.TreeSet.mem_insertMany_list, List.contains_iff_mem]
  · intro x hx
    rw [hassoc, List.mem_append] at hx
    rcases hx with hx | hx
    · exact h.meets x hx
    · obtain ⟨⟨letter, l⟩, hs, rfl⟩ := List.mem_map.mp (mem_fresh.mp hx).1
      obtain ⟨hletter, hstep⟩ := mem_steps_expand.mp hs
      exact .step (h.meets k (by simp)) hletter hstep

/-- With fuel for all keys that there can be, the search ends only when no key waits. -/
theorem discover_spec (hb : a.Bounded) (fuel : Nat) {done waiting : List Key}
    {known : Std.TreeSet Key} (h : Search a done known waiting)
    (hfuel : done.length + fuel = 4 ^ a.positions.size) :
    let xs := a.discover fuel known waiting
    (∀ x ∈ xs, x = a.expand x.key ∧ a.Meets x.key) ∧ (done ++ xs.map Expansion.key).Nodup ∧
      (∀ k ∈ waiting, k ∈ xs.map Expansion.key) ∧
        ∀ x ∈ xs, ∀ s ∈ x.steps, s.2 ∈ done ++ xs.map Expansion.key := by
  induction fuel generalizing done known waiting with
  | zero =>
    -- As many keys are done as there can be, so none waits.
    have hlen := length_le_of_sound h.nodup fun k hk => (h.meets k hk).sound hb
    rw [List.length_append] at hlen
    obtain rfl : waiting = [] := List.length_eq_zero_iff.mp (by omega)
    exact ⟨by simp [discover], by simpa [discover] using h.nodup, by simp, by simp [discover]⟩
  | succ fuel ih =>
    cases waiting with
    | nil =>
      exact ⟨by simp [discover], by simpa [discover] using h.nodup, by simp, by simp [discover]⟩
    | cons k waiting =>
      obtain ⟨hexp, hnd, hwait, hclosed⟩ := ih h.step (by
        rw [List.length_append, List.length_singleton]
        omega)
      rw [discover]
      simp only [List.append_assoc, List.singleton_append, List.mem_append, List.mem_cons,
        List.map_cons, forall_eq_or_imp] at hexp hnd hwait hclosed ⊢
      refine ⟨⟨⟨rfl, h.meets k (by simp)⟩, hexp⟩, hnd,
        ⟨.inl rfl, fun l hl => .inr (hwait l (.inl hl))⟩, fun s hs => ?_, hclosed⟩
      -- A step leads to a key that was known before or that is fresh and waits now.
      by_cases hk : s.2 ∈ known
      · rw [h.known, List.mem_append, List.mem_cons] at hk
        exact hk.imp id (.imp id fun hk => hwait _ (.inl hk))
      · exact .inr (.inr (hwait _ (.inr (mem_fresh.mpr ⟨List.mem_map_of_mem hs, hk⟩))))

/-! ## The keys of an analysis -/

/-- The keys in the order in which they are met. -/
def keys (a : Analysis) : List Key := a.expansions.map Expansion.key

theorem expansions_spec (hb : a.Bounded) :
    (∀ x ∈ a.expansions, x = a.expand x.key ∧ a.Meets x.key) ∧ a.keys.Nodup ∧
      a.startKey ∈ a.keys ∧ ∀ x ∈ a.expansions, ∀ s ∈ x.steps, s.2 ∈ a.keys := by
  have h := discover_spec hb (Nat.pow 4 a.positions.size) (Search.start a)
    (by rw [List.length_nil, Nat.zero_add]; rfl)
  simpa [expansions, keys] using h

theorem sound_of_mem_keys (hb : a.Bounded) (hk : k ∈ a.keys) : k.Sound a := by
  obtain ⟨x, hx, rfl⟩ := List.mem_map.mp hk
  exact ((expansions_spec hb).1 x hx).2.sound hb

end Analysis

end PositionAutomata
