import PositionAutomata.Proofs.Analysis.Laziness
import PositionAutomata.Proofs.Construction.StepwiseTables

/-
  Automata that are made step by step.

  The worklist is turned until no state waits, which is after as many turns as
  there are keys (`finish_eq`). Trimming the first states is to take away those
  of their transitions that trimming all at once takes away (`trimState_eq`). The
  repetitions looked up for it are nodes of the tree, so nothing fails but the
  copying of the tree, and the automaton is that of the tree (`build_eq_ofTree`).
-/

namespace PositionAutomata.Stepwise

variable {a : Analysis} {k : Key} {keys : Array Key} {d : Automaton}

/-! ## States -/

/-- Where every turn until the end succeeds and the end is reached in time, it is what is left. -/
theorem finish_eq {n : Nat} {v : Worklist} (hv : Worklist.after a n = .ok v)
    (hend : v.queue = [])
    (hturns : ∀ m < n, ∃ w, Worklist.after a m = .ok w ∧ w.queue.head? = some m) {fuel m : Nat}
    {w : Worklist} (hw : Worklist.after a m = .ok w) (hm : m ≤ n) (hfuel : n ≤ m + fuel) :
    finish a fuel w = .ok v := by
  induction fuel generalizing m w with
  | zero =>
    obtain rfl : m = n := Nat.le_antisymm hm hfuel
    exact hw.symm.trans hv
  | succ fuel ih =>
    rw [finish]
    rcases Nat.eq_or_lt_of_le hm with rfl | hlt
    · obtain rfl : w = v := Except.ok.inj (hw.symm.trans hv)
      rw [hend]
      rfl
    · obtain ⟨w', hw', hhead⟩ := hturns m hlt
      obtain rfl : w' = w := Except.ok.inj (hw'.symm.trans hw)
      have hwaits : w'.queue.isEmpty = false := by
        cases hq : w'.queue with
        | nil => simp [hq] at hhead
        | cons _ _ => rfl
      have hturn : w'.turn a = Worklist.after a (m + 1) := by
        rw [Worklist.after, hw]
        rfl
      obtain ⟨x, hx⟩ : ∃ x, Worklist.after a (m + 1) = .ok x := by
        rcases Nat.eq_or_lt_of_le hlt with heq | hlt'
        · exact ⟨v, by rw [← Nat.succ_eq_add_one, heq, hv]⟩
        · obtain ⟨x, hx, _⟩ := hturns (m + 1) hlt'
          exact ⟨x, hx⟩
      rw [hwaits, hturn, hx]
      exact ih hx hlt (by omega)

/-- The worklist comes to its end, with a state for each key. -/
theorem exists_synthesize (hb : a.Bounded) (hl : a.alphabet.letters.Nodup)
    (hroot : a.nodeEnds a.expr.tag = .ok (a.endsOf a.expr.tag)) :
    ∃ w, synthesize a = .ok w ∧ Worklist.Ends a a.keys w := by
  obtain ⟨⟨v, hv⟩, hturns⟩ := Worklist.exists_ends_keys hb hl hroot
  obtain ⟨w, hw, _⟩ := Worklist.start_spec hb hroot
  have hlength := Analysis.length_le_of_sound (Analysis.expansions_spec hb).2.1 fun k hk =>
    Analysis.sound_of_mem_keys hb hk
  refine ⟨v, ?_, hv⟩
  rw [synthesize, hw]
  exact finish_eq hv.after hv.queue hturns (m := 0) hw (Nat.zero_le _) (by omega)

/-! ## Trimming -/

/-- The lazy repetitions around positions are nodes with known ends. -/
def KnowsParents (a : Analysis) : Prop :=
  ∀ p id, a.laziness.parent? p = some id → a.nodeEnds id = .ok (a.endsOf id)

theorem foldlM_addLoopStarts (ha : KnowsParents a) (ps : List Position) (starts : SortedSet) :
    ps.foldlM (addLoopStarts a) starts =
      .ok (starts ∪ .biUnion (ps.filterMap a.laziness.parent?) fun id => (a.endsOf id).first) := by
  induction ps generalizing starts with
  | nil =>
    have hempty : starts ∪ ∅ = starts := by
      apply SortedSet.ext
      simp
    exact congrArg Except.ok hempty.symm
  | cons p ps ih =>
    rw [List.foldlM_cons, addLoopStarts]
    cases hp : a.laziness.parent? p with
    | none =>
      rw [List.filterMap_cons_none hp]
      exact ih starts
    | some id =>
      simp only [List.filterMap_cons_some hp, ha p id hp]
      refine (ih _).trans (congrArg Except.ok ?_)
      apply SortedSet.ext
      simp [or_assoc]

theorem loopStarts_eq (ha : KnowsParents a) (k : Key) : loopStarts a k = .ok (a.loopStarts k) := by
  rw [loopStarts, foldlM_addLoopStarts ha]
  refine congrArg Except.ok ?_
  apply SortedSet.ext
  simp [Analysis.loopStarts]

/-- The test by which the transitions of a state are trimmed. -/
def keepsState (a : Analysis) (keys : Array Key) (d : Automaton) (q : StateId) (t : Transition) :
    Bool :=
  let starts := if d.isAccepting q then keys[q]?.elim ∅ a.loopStarts else ∅
  keys[t.target]?.all fun k => k.positions.isDisjoint starts

theorem keepsState_of_starts {q : StateId}
    (h : (if d.isAccepting q then keys[q]?.elim ∅ a.loopStarts else ∅) = ∅) (t : Transition) :
    keepsState a keys d q t = true := by
  simp only [keepsState, h, Analysis.isDisjoint_empty]
  cases keys[t.target]? <;> rfl

/-- What is left when the first states are trimmed. -/
def trimmedTo (a : Analysis) (keys : Array Key) (d : Automaton) (n : Nat) : Automaton :=
  d.filterTransitions fun q t => decide (n ≤ q) || keepsState a keys d q t

/-- A state that keeps all transitions is trimmed as it is. -/
theorem trimmedTo_succ_of_keeps {n : Nat} (h : ∀ t, keepsState a keys d n t = true) :
    trimmedTo a keys d (n + 1) = trimmedTo a keys d n := by
  rw [trimmedTo, trimmedTo]
  congr 1
  funext q t
  rcases Nat.lt_trichotomy q n with hlt | rfl | hlt
  · simp [Nat.not_le.mpr hlt, Nat.not_le.mpr (Nat.lt_succ_of_lt hlt)]
  · simp [h t]
  · simp [Nat.le_of_lt hlt, Nat.succ_le_of_lt hlt]

theorem trimState_eq (ha : KnowsParents a) (n : Nat) :
    trimState a keys (trimmedTo a keys d n) n = .ok (trimmedTo a keys d (n + 1)) := by
  have hacc : (trimmedTo a keys d n).isAccepting n = d.isAccepting n := by
    rw [Automaton.isAccepting, trimmedTo, Automaton.accept_filterTransitions, Automaton.isAccepting]
  rw [trimState, hacc]
  by_cases hn : d.isAccepting n = true
  · rw [if_pos hn]
    cases hk : keys[n]? with
    | none =>
      rw [trimmedTo_succ_of_keeps (keepsState_of_starts (by rw [if_pos hn, hk]; rfl))]
      rfl
    | some k =>
      show (loopStarts a k >>= fun starts => if starts.isEmpty = true then pure _ else pure _) = _
      rw [loopStarts_eq ha]
      show (if (a.loopStarts k).isEmpty = true then _ else _) = _
      by_cases hempty : (a.loopStarts k).isEmpty = true
      · rw [if_pos hempty, trimmedTo_succ_of_keeps (keepsState_of_starts ?_)]
        · rfl
        · rw [if_pos hn, hk]
          exact SortedSet.isEmpty_iff.mp hempty
      · rw [if_neg hempty]
        refine congrArg Except.ok ?_
        show Automaton.filterTransitions (trimmedTo a keys d n) _ = _
        rw [trimmedTo, Automaton.filterTransitions_filterTransitions, trimmedTo]
        congr 1
        funext q t
        rcases Nat.lt_trichotomy q n with hlt | rfl | hlt
        · simp [Nat.not_le.mpr hlt, Nat.not_le.mpr (Nat.lt_succ_of_lt hlt), Nat.ne_of_lt hlt]
        · simp [keepsState, hn, hk]
        · simp [Nat.le_of_lt hlt, Nat.succ_le_of_lt hlt, Nat.ne_of_gt hlt]
  · rw [if_neg hn, trimmedTo_succ_of_keeps (keepsState_of_starts (by rw [if_neg hn]))]
    rfl

theorem foldlM_trimState (ha : KnowsParents a) (n : Nat) :
    (List.range n).foldlM (trimState a keys) d = .ok (trimmedTo a keys d n) := by
  induction n with
  | zero =>
    have hall : trimmedTo a keys d 0 = d := by
      conv => rhs; rw [← d.filterTransitions_true]
      rw [trimmedTo]
      simp
    rw [hall]
    rfl
  | succ n ih =>
    rw [List.range_succ, List.foldlM_append, ih]
    show (trimState a keys _ n >>= pure) = _
    rw [trimState_eq ha]
    rfl

/-- State by state the transitions are trimmed that are trimmed at once. -/
theorem trim_eq (ha : KnowsParents a) : trim a keys d = .ok (a.trim keys d) := by
  rw [trim, foldlM_trimState ha]
  refine congrArg Except.ok ?_
  rw [trimmedTo, Analysis.trim]
  apply Automaton.filterTransitions_congr
  intro q hq t
  simp [Nat.not_le.mpr hq, keepsState]

/-! ## Automata -/

theorem knowsParents_of_augments {c : Config} {e f : Expr NodeId} {u : Tree}
    (haug : c.Augments e u f) (lazy captures : Bool) :
    KnowsParents (.ofExpr u f lazy captures) := by
  obtain ⟨root, hroot⟩ := Analysis.exists_root_of_rootExpr haug.root
  intro p id hid
  have hparent : (if lazy then Laziness.ofExpr (.ofExpr u.size f) f else .greedy _).parent? p =
    some id := hid
  cases lazy with
  | false =>
    rw [if_neg Bool.false_ne_true, Laziness.parent?_greedy] at hparent
    exact absurd hparent (by simp)
  | true =>
    rw [if_pos rfl, Laziness.parent?_eq_some_iff haug.nodup haug.bounded] at hparent
    obtain ⟨y, _, hy⟩ := hparent
    obtain ⟨l, hl⟩ := Expr.mem_lazyLeaves_iff.mp hy
    have htag : id ∈ f.tags := (Expr.mem_tags_of_mem_withLazyParents hl).resolve_left (by simp)
    obtain ⟨x, hx, rfl⟩ := List.mem_map.mp htag
    rw [Analysis.nodeEnds_of_mem hroot hx, Analysis.endsOf_of_mem hroot hx]

/-- Whatever is looked up is known, and the automaton made step by step is that of the tree. -/
theorem build_eq_ofTree (t : Tree) (c : Config) : build t c = Automaton.ofTree t c := by
  cases hu : c.augment t with
  | error f =>
    rw [build, Automaton.ofTree, Config.analyze, hu]
    rfl
  | ok u =>
    obtain ⟨e, he, hv, hlexer⟩ := Config.of_augment hu
    obtain ⟨v, f, hv', haug⟩ := Config.augments_of_valid he hv hlexer
    obtain rfl : v = u := Except.ok.inj (hv'.symm.trans hu)
    have ha := Config.analyze_eq hu haug.root
    obtain ⟨hb, hl, hroot⟩ := Config.tables_of_analyze ha
    obtain ⟨w, hw, hends⟩ := exists_synthesize hb hl hroot
    have hkeys : ((Analysis.ofExpr v f c.lazy c.captures).expansions.map Expansion.key).toArray =
        w.provenance :=
      (congrArg List.toArray hends.provenance.symm).trans Array.toArray_toList
    have htrim : ∀ d, trim (.ofExpr v f c.lazy c.captures) w.provenance d =
        .ok (Analysis.trim (.ofExpr v f c.lazy c.captures) w.provenance d) := fun d =>
      trim_eq (knowsParents_of_augments haug c.lazy c.captures)
    rw [Automaton.ofTree_eq hu haug.root, Automaton.ofAnalysis]
    simp only [build, hu, analyze_eq haug.root, hw, hends.synthesize_eq hb, hkeys, htrim, bind,
      Except.bind]
    cases c.trim && c.lazy with
    | false => rfl
    | true => rfl

end PositionAutomata.Stepwise
