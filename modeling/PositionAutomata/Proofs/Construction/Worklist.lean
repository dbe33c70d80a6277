import PositionAutomata.Construction.Worklist
import PositionAutomata.Proofs.Construction.Recognition

/-
  The end of the worklist.

  Whatever is looked up while states are made is known, so no turn fails. The
  four parts of the worklist stay in step (`Worklist.InStep`): a look-up or an
  insertion keeps them so also in the middle of the expansion of another state
  (`getOrInsert_spec`), and therefore a whole expansion does (`addSteps_spec`).
  It adds the keys that `fresh` finds, so that the turns go through the keys as
  `Analysis.discover` does (`turn_spec`, `exists_ends`). There are finitely many
  keys, and at the end the states are those of the synthesized automaton
  (`ends_of_analyze`).
-/

namespace PositionAutomata

namespace Analysis

variable {a : Analysis} {k k' : Key}

theorem known_of_bounded {α : Type} {s : SortedSet} {value : α}
    (h : ∀ p ∈ s, 0 < p ∧ p ≤ a.positions.size) : a.known s value = .ok value := by
  have hfind : s.toList.find? (fun p => (a.positions.get? p).isNone) = none := by
    rw [List.find?_eq_none]
    intro p hp
    obtain ⟨hpos, hle⟩ := h p hp
    obtain ⟨o, ho⟩ := Positions.exists_get? hpos hle
    rw [ho]
    exact Bool.false_ne_true
  rw [known, hfind]

theorem accept_of_sound (hk : k.Sound a) :
    a.accept k.positions = .ok (a.positions.accept k.positions) :=
  known_of_bounded hk.bounded

/-- The steps of a key by some letters. -/
def stepsBy (a : Analysis) (k : Key) (letters : List Range) : List (Range × Key) :=
  letters.filterMap fun letter => (a.step? k letter).map (letter, ·)

theorem stepsBy_cons (a : Analysis) (k : Key) (letter : Range) (letters : List Range) :
    a.stepsBy k (letter :: letters) =
      (a.step? k letter).elim [] (fun k' => [(letter, k')]) ++ a.stepsBy k letters := by
  rw [stepsBy, List.filterMap_cons]
  cases a.step? k letter <;> rfl

theorem steps_expand (a : Analysis) (k : Key) :
    (a.expand k).steps = a.stepsBy k a.alphabet.letters := rfl

/-- A key is added to those that are known if it is new, and then it is fresh. -/
theorem exists_fresh_cons {known : Std.TreeSet Key} {keys : List Key}
    (hknown : ∀ x, x ∈ known ↔ x ∈ keys) (k : Key) (rest : List Key) :
    ∃ known' : Std.TreeSet Key, (∀ x, x ∈ known' ↔ x ∈ keys ++ if k ∈ keys then [] else [k]) ∧
      fresh known (k :: rest) = (if k ∈ keys then [] else [k]) ++ fresh known' rest := by
  by_cases hold : k ∈ keys
  · refine ⟨known, ?_, ?_⟩
    · rwa [if_pos hold, List.append_nil]
    · rw [fresh, if_pos ((hknown k).mpr hold), if_pos hold, List.nil_append]
  · refine ⟨known.insert k, fun x => ?_, ?_⟩
    · rw [if_neg hold, List.mem_append, List.mem_singleton, ← hknown, Std.TreeSet.mem_insert,
        Std.LawfulEqOrd.compare_eq_iff_eq, or_comm, eq_comm]
    · rw [fresh, if_neg fun h => hold ((hknown k).mp h), if_neg hold, List.singleton_append]

theorem size_endsTable (size : Nat) (e : Expr (NodeId × Ends)) :
    (endsTable size e).size = size :=
  (size_foldl_set Prod.fst Prod.snd e.tags _).trans Array.size_replicate

/-- The ends of every node that the root of an analysed tree reaches are known. -/
theorem nodeEnds_of_mem {t : Tree} {e x : Expr NodeId} {root : NodeId} {lazy captures : Bool}
    (h : t.expr root = .ok e) (hx : x ∈ e.subexprs) :
    (ofExpr t e lazy captures).nodeEnds x.tag =
      .ok (x.ends (Positions.ofExpr t.size e).nodePosition?) := by
  have hlt : x.tag < (ofExpr t e lazy captures).ends.size := by
    show _ < (endsTable _ _).size
    rw [size_endsTable]
    exact Tree.lt_size_of_expr (Tree.expr_of_mem_subexprs h x hx)
  have hends : (ofExpr t e lazy captures).endsOf x.tag = _ := endsOf_of_mem h hx
  rw [← hends, nodeEnds, endsOf, Array.getElem?_eq_getElem hlt]
  rfl

end Analysis

/-- In the tables of an analysed tree the positions exist, the letters differ and the ends of the
root are known. -/
theorem Config.tables_of_analyze {c : Config} {t : Tree} {a : Analysis}
    (h : c.analyze t = .ok a) :
    a.Bounded ∧ a.alphabet.letters.Nodup ∧
      a.nodeEnds a.expr.tag = .ok (a.endsOf a.expr.tag) := by
  refine ⟨Analysis.bounded_of_analyze h, ?_, ?_⟩
  · refine (Analysis.partitioned_of_analyze h).disjoint.imp fun {x y} hxy => ?_
    rintro rfl
    exact absurd x.first_le_last (Nat.not_le.mpr hxy)
  · obtain ⟨_, u, f, _, haug, rfl⟩ := augments_of_analyze h
    obtain ⟨root, hroot⟩ := Analysis.exists_root_of_rootExpr haug.root
    show (Analysis.ofExpr u f c.lazy c.captures).nodeEnds f.tag = .ok _
    rw [Analysis.nodeEnds_of_mem hroot f.mem_subexprs_self]
    exact congrArg Except.ok (Analysis.endsOf_root hroot).symm

namespace Worklist

variable {a : Analysis} {w : Worklist} {n : Nat} {q : StateId} {k k' : Key} {letter : Range}

/-- The transitions go where some steps lead, by the numbers that the keys have. -/
def Leads (provenance : Array Key) : List Transition → List (Range × Key) → Prop :=
  List.Forall₂ fun t x => t.range = x.1 ∧ provenance[t.target]? = some x.2

/-- The parts of a worklist belong together after `n` turns. Each key stands once; its number is
known and is that of its state, which has the transitions for those steps of the key that were
taken; and the states from the `n`-th on wait in the order of their numbers. -/
structure InStep (a : Analysis) (n : Nat) (taken : Key → List (Range × Key)) (w : Worklist) :
    Prop where
  nodup : w.provenance.toList.Nodup
  size : w.states.size = w.provenance.size
  number : ∀ (k : Key) (accept : Option Symbol) (q : StateId), w.numbers.lookup (k, accept) = some q ↔
    w.provenance[q]? = some k ∧ accept = a.positions.accept k.positions
  state : ∀ (q : StateId) (k : Key), w.provenance[q]? = some k → ∃ s, w.states[q]? = some s ∧
    s.accept = a.positions.accept k.positions ∧ s.events = a.events.ofSet k.positions ∧
    Leads w.provenance s.transitions (taken k)
  untaken : ∀ k, ¬ k ∈ w.provenance → taken k = []
  waiting : w.queue = List.range' n (w.provenance.size - n)
  begun : n ≤ w.provenance.size

variable {taken : Key → List (Range × Key)}

theorem getElem?_push_of_getElem? {α : Type} {xs : Array α} {q : Nat} {x : α} (h : xs[q]? = some x)
    (y : α) : (xs.push y)[q]? = some x := by
  obtain ⟨hlt, _⟩ := Array.getElem?_eq_some_iff.mp h
  rwa [Array.getElem?_push, if_neg (Nat.ne_of_lt hlt)]

theorem Leads.push {xs : Array Key} {ts : List Transition} {steps : List (Range × Key)}
    (h : Leads xs ts steps) (x : Key) : Leads (xs.push x) ts steps :=
  h.imp fun _ _ h => ⟨h.1, getElem?_push_of_getElem? h.2 x⟩

theorem Leads.exists_of_mem {xs : Array Key} {ts : List Transition} {steps : List (Range × Key)}
    (h : Leads xs ts steps) {t : Transition} (ht : t ∈ ts) :
    ∃ x ∈ steps, t.range = x.1 ∧ xs[t.target]? = some x.2 := by
  induction h with
  | nil => exact absurd ht List.not_mem_nil
  | cons hux _ ih =>
    rcases List.mem_cons.mp ht with rfl | ht
    · exact ⟨_, List.mem_cons_self, hux⟩
    · obtain ⟨x, hx, h⟩ := ih ht
      exact ⟨x, List.mem_cons_of_mem _ hx, h⟩

theorem InStep.key_unique (h : InStep a n taken w) {q r : StateId} (hq : w.provenance[q]? = some k)
    (hr : w.provenance[r]? = some k) : q = r := by
  obtain ⟨hlt, _⟩ := Array.getElem?_eq_some_iff.mp hq
  rw [← Array.getElem?_toList] at hq hr
  exact (List.getElem?_inj (by rwa [Array.length_toList]) h.nodup).mp (hq.trans hr.symm)

/-! ## Look-ups and insertions -/

/-- A new state keeps the worklist in step. -/
theorem InStep.insert (h : InStep a n taken w) (hk : ¬ k ∈ w.provenance) :
    InStep a n taken (w.insert a k (a.positions.accept k.positions)) where
  nodup := by
    rw [Worklist.insert, Array.toList_push, List.nodup_append]
    refine ⟨h.nodup, List.nodup_singleton _, fun x hx y hy hxy => hk ?_⟩
    rw [List.mem_singleton.mp hy] at hxy
    rw [← hxy]
    exact Array.mem_toList_iff.mp hx
  size := by rw [Worklist.insert, Array.size_push, Array.size_push, h.size]
  number k' accept q := by
    have hnumber := h.number k' accept q
    have hsize : w.provenance[w.states.size]? = none :=
      Array.getElem?_eq_none (Nat.le_of_eq h.size.symm)
    have hmem : w.provenance[q]? = some k → k ∈ w.provenance := Array.mem_of_getElem?
    rw [Worklist.insert, List.lookup_cons, Array.getElem?_push, ← h.size]
    grind
  state q k' hq := by
    rw [Worklist.insert, Array.getElem?_push] at hq
    split at hq
    next hsize =>
      obtain rfl := Option.some.inj hq
      refine ⟨_, by rw [hsize, ← h.size]; exact Array.getElem?_push_size, rfl, rfl, ?_⟩
      rw [h.untaken k hk]
      exact .nil
    next =>
      obtain ⟨s, hs, haccept, hevents, hleads⟩ := h.state q k' hq
      exact ⟨s, getElem?_push_of_getElem? hs _, haccept, hevents, hleads.push k⟩
  untaken k' hk' := h.untaken k' fun hm => hk' (Array.mem_push.mpr (.inl hm))
  waiting := by
    have hle := h.begun
    rw [Worklist.insert, h.waiting, Array.size_push, h.size,
      show w.provenance.size + 1 - n = (w.provenance.size - n) + 1 by omega, List.range'_concat,
      show n + 1 * (w.provenance.size - n) = w.provenance.size by omega]
  begun := by
    rw [Worklist.insert, Array.size_push]
    exact Nat.le_succ_of_le h.begun

/-- To look a key up or insert it never fails, keeps the worklist in step and adds the key exactly
if it is new. -/
theorem getOrInsert_spec (h : InStep a n taken w) (hk : k.Sound a) :
    ∃ q w', w.getOrInsert a k = .ok (q, w') ∧ InStep a n taken w' ∧ w'.provenance[q]? = some k ∧
      w'.provenance.toList =
        w.provenance.toList ++ if k ∈ w.provenance.toList then [] else [k] := by
  have haccept := Analysis.accept_of_sound hk
  cases hlookup : w.numbers.lookup (k, a.positions.accept k.positions) with
  | some q =>
    have hget : w.getOrInsert a k = .ok (q, w) := by
      refine bind_eq_ok.mpr ⟨_, haccept, ?_⟩
      rw [hlookup]
      rfl
    have hq := ((h.number _ _ _).mp hlookup).1
    have hmem : k ∈ w.provenance.toList := Array.mem_toList_iff.mpr (Array.mem_of_getElem? hq)
    exact ⟨q, w, hget, h, hq, by rw [if_pos hmem, List.append_nil]⟩
  | none =>
    have hnew : ¬ k ∈ w.provenance := by
      intro hm
      obtain ⟨q, hq⟩ := Array.mem_iff_getElem?.mp hm
      rw [(h.number _ _ q).mpr ⟨hq, rfl⟩] at hlookup
      exact absurd hlookup (by simp)
    have hget : w.getOrInsert a k =
        .ok (w.states.size, w.insert a k (a.positions.accept k.positions)) := by
      refine bind_eq_ok.mpr ⟨_, haccept, ?_⟩
      rw [hlookup]
      rfl
    refine ⟨w.states.size, _, hget, h.insert hnew, ?_, ?_⟩
    · rw [h.size]
      exact Array.getElem?_push_size
    · rw [if_neg fun hm => hnew (Array.mem_toList_iff.mp hm)]
      exact Array.toList_push

/-! ## Expansions -/

/-- A transition by a letter that no step was taken for keeps the worklist in step. -/
theorem InStep.addTransition (h : InStep a n taken w) (hq : w.provenance[q]? = some k)
    {r : StateId} (hr : w.provenance[r]? = some k') (hletter : ∀ x ∈ taken k, x.1 ≠ letter) :
    InStep a n (Function.update taken k (taken k ++ [(letter, k')]))
      { w with states := w.states.modify q (·.addTransition ⟨letter, r⟩) } where
  nodup := h.nodup
  size := by rw [Array.size_modify, h.size]
  number := h.number
  state q' k'' hq' := by
    obtain ⟨s, hs, haccept, hevents, hleads⟩ := h.state q' k'' hq'
    by_cases hk : k'' = k
    · subst hk
      obtain rfl := h.key_unique hq hq'
      have hnew : ¬ (⟨letter, r⟩ : Transition) ∈ s.transitions := by
        intro hm
        obtain ⟨x, hx, hrange, _⟩ := Leads.exists_of_mem hleads hm
        exact hletter x hx hrange.symm
      refine ⟨s.addTransition ⟨letter, r⟩, ?_, ?_, ?_, ?_⟩
      · rw [Array.getElem?_modify, if_pos rfl, hs]
        rfl
      · rwa [State.addTransition, if_neg hnew]
      · rwa [State.addTransition, if_neg hnew]
      · rw [State.addTransition, if_neg hnew, Function.update_self]
        exact List.rel_append hleads (.cons ⟨rfl, hr⟩ .nil)
    · have hne : ¬ q = q' := by
        rintro rfl
        exact hk (Option.some.inj (hq'.symm.trans hq))
      refine ⟨s, ?_, haccept, hevents, ?_⟩
      · rwa [Array.getElem?_modify, if_neg hne]
      · rwa [Function.update_of_ne hk]
  untaken k'' hk'' := by
    have hne : k'' ≠ k := by
      rintro rfl
      exact hk'' (Array.mem_of_getElem? hq)
    rw [Function.update_of_ne hne]
    exact h.untaken k'' hk''
  waiting := h.waiting
  begun := h.begun

/-- A transition is added as the key steps; nothing that is looked up for it is unknown. -/
theorem addStep_eq (hk : k.Sound a) (q : StateId) (w : Worklist) (letter : Range) :
    addStep a q k w letter =
      match a.step? k letter with
      | none => .ok w
      | some k' => do
        let (r, w) ← w.getOrInsert a k'
        return { w with states := w.states.modify q (·.addTransition ⟨letter, r⟩) } := by
  let group := k.positions.filter fun p => a.positions.reads p letter
  have hbounded : ∀ p ∈ group, 0 < p ∧ p ≤ a.positions.size := fun p hp =>
    hk.bounded p (SortedSet.mem_filter.mp hp).1
  have hgroup : a.known k.positions group = .ok group := Analysis.known_of_bounded hk.bounded
  have hnext : a.followers group = .ok (a.follow.afterAny group) :=
    Analysis.known_of_bounded hbounded
  have hlazy : a.contagion group (a.follow.afterAny group) k.lazy =
      .ok (a.laziness.spread a.follow group (a.follow.afterAny group) k.lazy) :=
    Analysis.known_of_bounded fun p hp => hbounded p (SortedSet.mem_filter.mp hp).1
  rw [addStep, hgroup, Analysis.step?]
  show (if group.isEmpty then .ok w else a.followers group >>= _) = _
  rw [hnext]
  -- Without a position that reads the letter nothing follows either.
  have hempty : group.isEmpty = true → (a.follow.afterAny group).isEmpty = true := by
    intro h
    rw [SortedSet.isEmpty_iff.mp h, SortedSet.isEmpty_iff]
    apply SortedSet.ext
    simp [Follow.mem_afterAny]
  show (if group.isEmpty then .ok w
    else if (a.follow.afterAny group).isEmpty then .ok w
    else a.contagion group (a.follow.afterAny group) k.lazy >>= _) = _
  rw [hlazy]
  show _ = match (if (a.follow.afterAny group).isEmpty then none else some _ : Option Key) with
    | none => _
    | some _ => _
  by_cases hf : (a.follow.afterAny group).isEmpty = true
  · rw [if_pos hf, if_pos hf, ite_self]
  · rw [if_neg fun h => hf (hempty h), if_neg hf, if_neg hf]
    rfl

/-- The transition by a letter that the key steps by is added without failure. The key that it leads
to becomes known if it is new. -/
theorem addStep_spec (hb : a.Bounded) (hk : k.Sound a) (h : InStep a n taken w)
    (hq : w.provenance[q]? = some k) (hstep : a.step? k letter = some k')
    (hletter : ∀ x ∈ taken k, x.1 ≠ letter) :
    ∃ w', addStep a q k w letter = .ok w' ∧
      InStep a n (Function.update taken k (taken k ++ [(letter, k')])) w' ∧
      w'.provenance[q]? = some k ∧
      w'.provenance.toList =
        w.provenance.toList ++ if k' ∈ w.provenance.toList then [] else [k'] := by
  obtain ⟨r, v, hget, hv, hr, hprov⟩ := getOrInsert_spec h (Analysis.sound_step hb hstep)
  have hqv : v.provenance[q]? = some k := by
    rw [← Array.getElem?_toList] at hq ⊢
    obtain ⟨hlt, _⟩ := List.getElem?_eq_some_iff.mp hq
    rw [hprov, List.getElem?_append_left hlt, hq]
  refine ⟨_, ?_, hv.addTransition hqv hr hletter, hqv, hprov⟩
  rw [addStep_eq hk, hstep]
  exact bind_eq_ok.mpr ⟨_, hget, rfl⟩

/-- The transitions by some letters are added without failure, and keep the worklist in step. The
keys that are new are those that are fresh among the keys that the steps lead to. -/
theorem addSteps_spec (hb : a.Bounded) (hk : k.Sound a) {letters : List Range}
    (hnd : letters.Nodup) (h : InStep a n taken w) (hq : w.provenance[q]? = some k)
    (hletters : ∀ x ∈ taken k, ¬ x.1 ∈ letters) {known : Std.TreeSet Key}
    (hknown : ∀ x, x ∈ known ↔ x ∈ w.provenance.toList) :
    ∃ w', letters.foldlM (addStep a q k) w = .ok w' ∧
      InStep a n (Function.update taken k (taken k ++ a.stepsBy k letters)) w' ∧
      w'.provenance.toList =
        w.provenance.toList ++ Analysis.fresh known ((a.stepsBy k letters).map Prod.snd) := by
  induction letters generalizing w taken known with
  | nil =>
    refine ⟨w, rfl, ?_, by simp [Analysis.stepsBy, Analysis.fresh]⟩
    rwa [Analysis.stepsBy, List.filterMap_nil, List.append_nil, Function.update_eq_self]
  | cons letter letters ih =>
    obtain ⟨hletter, hnd⟩ := List.nodup_cons.mp hnd
    rw [List.foldlM_cons, Analysis.stepsBy_cons]
    cases hstep : a.step? k letter with
    | none =>
      rw [addStep_eq hk, hstep]
      exact ih hnd h hq (fun x hx hm => hletters x hx (List.mem_cons_of_mem _ hm)) hknown
    | some k' =>
      obtain ⟨v, hadded, hv, hqv, hprov⟩ := addStep_spec hb hk h hq hstep
        fun x hx heq => hletters x hx (heq ▸ List.mem_cons_self)
      have htaken : ∀ x ∈ Function.update taken k (taken k ++ [(letter, k')]) k,
          ¬ x.1 ∈ letters := by
        rw [Function.update_self]
        intro x hx
        rcases List.mem_append.mp hx with hx | hx
        · exact fun hm => hletters x hx (List.mem_cons_of_mem _ hm)
        · rw [List.mem_singleton.mp hx]
          exact hletter
      obtain ⟨known', hknown', hfresh⟩ :=
        Analysis.exists_fresh_cons hknown k' ((a.stepsBy k letters).map Prod.snd)
      obtain ⟨w', hw', hin, hprov'⟩ := ih hnd hv hqv htaken (hprov ▸ hknown')
      rw [hadded]
      refine ⟨w', hw', ?_, ?_⟩
      · rwa [Function.update_self, Function.update_idem, List.append_assoc] at hin
      · rw [hprov', hprov, Option.elim_some, List.singleton_append, List.map_cons, hfresh,
          List.append_assoc]

/-! ## Turns -/

/-- The steps that are taken when some keys had their turn: all steps of these keys. -/
def takenBy (a : Analysis) (done : List Key) (k : Key) : List (Range × Key) :=
  if k ∈ done then (a.expand k).steps else []

/-- A key that has its turn gets all of its steps. -/
theorem takenBy_append_singleton {done : List Key} (hk : ¬ k ∈ done) :
    takenBy a (done ++ [k]) = Function.update (takenBy a done) k
      (takenBy a done k ++ a.stepsBy k a.alphabet.letters) := by
  funext x
  by_cases hx : x = k
  · subst hx
    rw [Function.update_self, takenBy, takenBy, if_neg hk, if_pos (by simp)]
    rfl
  · rw [Function.update_of_ne hx]
    simp [takenBy, hx]

theorem InStep.queue_eq_cons (h : InStep a n taken w) (hn : n < w.provenance.size) :
    w.queue = n :: List.range' (n + 1) (w.provenance.size - (n + 1)) := by
  rw [h.waiting, ← List.range'_succ]
  congr 1
  omega

/-- The worklist stays in step when the state that waits longest is taken from the queue. -/
theorem InStep.pop (h : InStep a n taken w) (hn : n < w.provenance.size) :
    InStep a (n + 1) taken { w with queue := w.queue.tail } :=
  { h with
    waiting := by rw [h.queue_eq_cons hn, List.tail_cons]
    begun := hn }

/-- In a turn the key that waits longest gets all of its steps, and those that it leads to wait. -/
theorem turn_spec (hb : a.Bounded) (hl : a.alphabet.letters.Nodup) {done waiting : List Key}
    {known : Std.TreeSet Key} (h : InStep a done.length (takenBy a done) w)
    (hs : a.Search done known (k :: waiting)) (hprov : w.provenance.toList = done ++ k :: waiting) :
    w.queue.head? = some done.length ∧
      ∃ w', w.turn a = .ok w' ∧
        InStep a (done.length + 1) (takenBy a (done ++ [k])) w' ∧
        w'.provenance.toList = done ++ [k] ++
          (waiting ++ Analysis.fresh known ((a.expand k).steps.map Prod.snd)) := by
  have hk : k.Sound a := (hs.meets k (by simp)).sound hb
  have hnew : ¬ k ∈ done := by
    intro hm
    exact (List.nodup_append.mp hs.nodup).2.2 k hm k List.mem_cons_self rfl
  have hq : w.provenance[done.length]? = some k := by
    rw [← Array.getElem?_toList, hprov, List.getElem?_append_right (Nat.le_refl _), Nat.sub_self]
    rfl
  obtain ⟨hlt, _⟩ := Array.getElem?_eq_some_iff.mp hq
  have hqueue := h.queue_eq_cons hlt
  have hknown : ∀ x, x ∈ known ↔ x ∈ w.provenance.toList := fun x => by rw [hs.known, hprov]
  obtain ⟨w', hw', hin, hprov'⟩ :=
    addSteps_spec hb hk hl (h.pop hlt) hq (by simp [takenBy, hnew]) hknown
  refine ⟨by rw [hqueue]; rfl, w', ?_, ?_, ?_⟩
  · rw [hqueue] at hw'
    rw [turn, hqueue]
    show expand a _ _ = _
    rw [expand]
    simp only [hq]
    exact hw'
  · rwa [takenBy_append_singleton hnew]
  · rw [hprov']
    show w.provenance.toList ++ _ = _
    rw [hprov, ← Analysis.steps_expand]
    simp

/-- What holds when each key of a list had its turn and no other key is known: no state waits, and
turn by turn the states were taken from the queue in the order of their numbers. -/
structure Ends (a : Analysis) (met : List Key) (w : Worklist) : Prop where
  after : after a met.length = .ok w
  inStep : InStep a met.length (takenBy a met) w
  provenance : w.provenance.toList = met

theorem Ends.queue {met : List Key} (h : Ends a met w) : w.queue = [] := by
  rw [h.inStep.waiting, ← Array.length_toList, h.provenance, Nat.sub_self]
  rfl

/-- The turns go through the keys as they are discovered, until no state waits. -/
theorem exists_ends (hb : a.Bounded) (hl : a.alphabet.letters.Nodup) (fuel : Nat)
    {done waiting : List Key} {known : Std.TreeSet Key} (hw : after a done.length = .ok w)
    (h : InStep a done.length (takenBy a done) w) (hs : a.Search done known waiting)
    (hprov : w.provenance.toList = done ++ waiting)
    (hfuel : done.length + fuel = 4 ^ a.positions.size) :
    let met := done ++ (a.discover fuel known waiting).map Expansion.key
    (∃ w', Ends a met w') ∧
      ∀ m, done.length ≤ m → m < met.length → ∃ v, after a m = .ok v ∧ v.queue.head? = some m := by
  induction fuel generalizing done waiting known w with
  | zero =>
    -- As many keys are done as there can be, so none waits.
    have hlen := Analysis.length_le_of_sound hs.nodup fun k hk => (hs.meets k hk).sound hb
    rw [List.length_append] at hlen
    obtain rfl : waiting = [] := List.length_eq_zero_iff.mp (by omega)
    rw [List.append_nil] at hprov
    simp only [Analysis.discover, List.map_nil, List.append_nil]
    exact ⟨⟨w, hw, h, hprov⟩, fun m hle hlt => absurd hlt (Nat.not_lt.mpr hle)⟩
  | succ fuel ih =>
    cases waiting with
    | nil =>
      rw [List.append_nil] at hprov
      simp only [Analysis.discover, List.map_nil, List.append_nil]
      exact ⟨⟨w, hw, h, hprov⟩, fun m hle hlt => absurd hlt (Nat.not_lt.mpr hle)⟩
    | cons k waiting =>
      obtain ⟨hhead, v, hturn, hv, hprov'⟩ := turn_spec hb hl h hs hprov
      have hlength : (done ++ [k]).length = done.length + 1 := by
        rw [List.length_append, List.length_singleton]
      have hafter : after a (done ++ [k]).length = .ok v := by
        rw [hlength, after, hw]
        exact hturn
      rw [← hlength] at hv
      obtain ⟨hends, hturns⟩ := ih hafter hv hs.step hprov' (by omega)
      rw [Analysis.discover]
      simp only [List.append_assoc, List.singleton_append, List.map_cons] at hends hturns ⊢
      refine ⟨hends, fun m hle hlt => ?_⟩
      rcases Nat.eq_or_lt_of_le hle with rfl | hlt'
      · exact ⟨w, hw, hhead⟩
      · exact hturns m (by rw [hlength]; exact hlt') hlt

/-! ## The whole synthesis -/

theorem inStep_empty (a : Analysis) : InStep a 0 (takenBy a []) empty where
  nodup := List.nodup_nil
  size := rfl
  number := by simp [empty]
  state := by simp [empty]
  untaken := by simp [takenBy]
  waiting := rfl
  begun := Nat.le_refl 0

theorem start_spec (hb : a.Bounded) (hroot : a.nodeEnds a.expr.tag = .ok (a.endsOf a.expr.tag)) :
    ∃ w, start a = .ok w ∧ InStep a 0 (takenBy a []) w ∧ w.provenance.toList = [a.startKey] := by
  obtain ⟨q, w, hget, hw, _, hprov⟩ :=
    getOrInsert_spec (inStep_empty a) (Analysis.sound_startKey hb)
  refine ⟨w, ?_, hw, ?_⟩
  · rw [start, hroot]
    show (empty.getOrInsert a a.startKey >>= _) = _
    rw [hget]
    rfl
  · rw [hprov]
    rfl

/-- The transitions that go where some steps lead are those that the synthesis makes of them. -/
theorem Leads.eq_filterMap {keys : List Key} (hnd : keys.Nodup) {ts : List Transition}
    {steps : List (Range × Key)} (h : Leads keys.toArray ts steps) :
    ts = steps.filterMap fun (letter, k) => ((Index.ofList keys).get? k).map (⟨letter, ·⟩) := by
  induction h with
  | nil => rfl
  | @cons t x ts steps htx _ ih =>
    obtain ⟨letter, k⟩ := x
    obtain ⟨rfl, htarget⟩ := htx
    rw [List.getElem?_toArray] at htarget
    have hmade : ((Index.ofList keys).get? k).map (⟨t.range, ·⟩) = some t := by
      rw [Index.get?_of_getElem? hnd htarget]
      rfl
    rw [List.filterMap_cons]
    simp only [hmade]
    rw [← ih]

/-- The states at the end of the worklist are those of the synthesized automaton. -/
theorem Ends.synthesize_eq (hb : a.Bounded) (h : Ends a a.keys w) :
    a.synthesize a.expansions = ⟨w.states, 0⟩ := by
  have hnd : a.keys.Nodup := (Analysis.expansions_spec hb).2.1
  have hprov : w.provenance = a.keys.toArray := by rw [← h.provenance]
  have hstates : a.synthesized.states = w.states := by
    apply Array.ext_getElem?
    intro q
    cases hk : a.keys[q]? with
    | none =>
      have hsize : w.states.size ≤ q := by
        rw [h.inStep.size, hprov, List.size_toArray]
        exact List.getElem?_eq_none_iff.mp hk
      rw [Array.getElem?_eq_none hsize]
      cases hs : a.synthesized.get? q with
      | none => exact hs
      | some s =>
        obtain ⟨k, hk'⟩ := Analysis.exists_key hs
        rw [hk] at hk'
        exact absurd hk' (by simp)
    | some k =>
      obtain ⟨s, hs, haccept, hevents, hleads⟩ :=
        h.inStep.state q k (by rw [hprov, List.getElem?_toArray, hk])
      rw [hprov, takenBy, if_pos (List.mem_of_getElem? hk)] at hleads
      rw [hs, ← Automaton.get?, Analysis.get?_synthesized hb hk, ← hleads.eq_filterMap hnd,
        ← haccept, ← hevents]
  rw [← hstates]
  rfl

theorem Ends.nodup_keys {met : List Key} (h : Ends a met w) : w.keys.Nodup := by
  have hlength : w.provenance.toList.length ≤ w.states.toList.length := by
    rw [Array.length_toList, Array.length_toList, h.inStep.size]
  have hmap : w.keys.map (fun x => Key.mk x.1 x.2.1) = w.provenance.toList := by
    rw [keys, List.map_map]
    exact List.map_fst_zip hlength
  exact List.Nodup.of_map _ (hmap ▸ h.inStep.nodup)

/-- What is known of each state at the end of the worklist. -/
theorem Ends.state {met : List Key} (h : Ends a met w) (hsound : ∀ k ∈ met, k.Sound a)
    (hq : q < met.length) :
    ∃ k s, w.provenance[q]? = some k ∧ w.states[q]? = some s ∧
      Leads w.provenance s.transitions (a.expand k).steps ∧
      (∀ t ∈ s.transitions, t.target < met.length) ∧
      (∀ p ∈ a.laziness.inherent k.positions, p ∈ k.lazy) ∧ (∀ p ∈ k.lazy, p ∈ k.positions) ∧
      a.accept k.positions = .ok s.accept := by
  have hprov : w.provenance = met.toArray := by rw [← h.provenance]
  have hk : w.provenance[q]? = some met[q] := by
    rw [hprov, List.getElem?_toArray]
    exact List.getElem?_eq_getElem hq
  have hmem : met[q] ∈ met := List.getElem_mem hq
  have hs := hsound _ hmem
  obtain ⟨s, hget, haccept, _, hleads⟩ := h.inStep.state q _ hk
  rw [takenBy, if_pos hmem] at hleads
  refine ⟨_, s, hk, hget, hleads, fun t ht => ?_, fun p hp => ?_, hs.lazy, ?_⟩
  · obtain ⟨_, _, _, htarget⟩ := hleads.exists_of_mem ht
    obtain ⟨hlt, _⟩ := Array.getElem?_eq_some_iff.mp htarget
    rwa [hprov, List.size_toArray] at hlt
  · obtain ⟨hp, hlazy⟩ := SortedSet.mem_filter.mp hp
    exact hs.inherent p hp hlazy
  · rw [haccept]
    exact Analysis.accept_of_sound hs

/-- The synthesis of an analysis with known positions ends with all keys. -/
theorem exists_ends_keys (hb : a.Bounded) (hl : a.alphabet.letters.Nodup)
    (hroot : a.nodeEnds a.expr.tag = .ok (a.endsOf a.expr.tag)) :
    (∃ w, Ends a a.keys w) ∧
      ∀ m < a.keys.length, ∃ v, after a m = .ok v ∧ v.queue.head? = some m := by
  obtain ⟨v, hv, hin, hprov⟩ := start_spec hb hroot
  have hv : after a ([] : List Key).length = .ok v := hv
  obtain ⟨hends, hturns⟩ := exists_ends hb hl (Nat.pow 4 a.positions.size) hv hin
    (Analysis.Search.start a) hprov (Nat.zero_add _)
  exact ⟨hends, fun m hm => hturns m (Nat.zero_le m) hm⟩

/-- For each analysis of a tree, the synthesis ends after as many turns as there are states, which
no turn fails to make. The turns go through the states by number, so that each is expanded once, and
the states go with what they were made for, each with other positions, lazy positions or symbol. The
transitions of a state are the steps of its key to states that exist, its lazy positions are some of
its positions, the inherently lazy ones among them, and its symbol is that of its positions. -/
theorem ends_of_analyze {t : Tree} {c : Config} {a : Analysis} (h : c.analyze t = .ok a) :
    ∃ n ≤ 4 ^ a.positions.size, ∃ w, after a n = .ok w ∧ w.queue = [] ∧
      (∀ m < n, ∃ v, after a m = .ok v ∧ v.queue.head? = some m) ∧
      w.states.size = n ∧ w.provenance.size = n ∧ w.keys.Nodup ∧
      (∀ q < n, ∃ k s, w.provenance[q]? = some k ∧ w.states[q]? = some s ∧
        Leads w.provenance s.transitions (a.expand k).steps ∧
        (∀ t ∈ s.transitions, t.target < n) ∧
        (∀ p ∈ a.laziness.inherent k.positions, p ∈ k.lazy) ∧ (∀ p ∈ k.lazy, p ∈ k.positions) ∧
        a.accept k.positions = .ok s.accept) ∧
      a.synthesize a.expansions = ⟨w.states, 0⟩ := by
  obtain ⟨hb, hl, hroot⟩ := Config.tables_of_analyze h
  obtain ⟨⟨w, hw⟩, hturns⟩ := exists_ends_keys hb hl hroot
  have hsize : w.provenance.size = a.keys.length := by
    rw [← Array.length_toList, hw.provenance]
  have hsound : ∀ k ∈ a.keys, k.Sound a := fun k hk => Analysis.sound_of_mem_keys hb hk
  exact ⟨_, Analysis.length_le_of_sound (Analysis.expansions_spec hb).2.1 hsound, w, hw.after,
    hw.queue, hturns, hw.inStep.size.trans hsize, hsize, hw.nodup_keys,
    fun q hq => hw.state hsound hq, hw.synthesize_eq hb⟩

/-- Some letters from `a` to `m`, as few as possible, up to an `a`. -/
def lettersUpToA : Tree where
  nodes := #[.leaf (.charset ⟨[.range ⟨0x61, 0x6d, by decide⟩], false⟩),
    .repetition 0 ⟨1, Quantifier.unbounded, true⟩, .leaf (.codepoint 0x61), .concat 1 2]
  root := some 3

theorem ends_of_analyze_lettersUpToA :
    ∃ a, Config.analyze {} lettersUpToA = .ok a ∧
      ∃ n ≤ 4 ^ a.positions.size, ∃ w, after a n = .ok w ∧ w.queue = [] ∧
        (∀ m < n, ∃ v, after a m = .ok v ∧ v.queue.head? = some m) ∧
        w.states.size = n ∧ w.provenance.size = n ∧ w.keys.Nodup ∧
        (∀ q < n, ∃ k s, w.provenance[q]? = some k ∧ w.states[q]? = some s ∧
          Leads w.provenance s.transitions (a.expand k).steps ∧
          (∀ t ∈ s.transitions, t.target < n) ∧
          (∀ p ∈ a.laziness.inherent k.positions, p ∈ k.lazy) ∧ (∀ p ∈ k.lazy, p ∈ k.positions) ∧
          a.accept k.positions = .ok s.accept) ∧
        a.synthesize a.expansions = ⟨w.states, 0⟩ := by
  have hroot : ∃ e, lettersUpToA.rootExpr = .ok e ∧ e.Valid := ⟨_, by rfl, by decide⟩
  obtain ⟨e, he, hv⟩ := hroot
  obtain ⟨u, f, haug, hf⟩ := Config.augments_of_valid (c := {}) he hv (by simp)
  have ha := Config.analyze_eq haug hf.root
  exact ⟨_, ha, ends_of_analyze ha⟩

end Worklist

end PositionAutomata
