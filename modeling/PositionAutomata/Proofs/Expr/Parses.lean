import PositionAutomata.Proofs.Expr.Unrolling

/-
  Parses, and what groups capture in them.

  `Expr.Parses` goes through an expression as a match does and lists on the way
  which part of the text each group captures. An expression matches exactly if
  it has a parse (`matches_iff_exists_parses`). What a parse captures depends on
  the shape of the expression alone, and it stays a parse when counted repetitions
  are written out (`parses_shape`, `Parses.unrolled`). Whatever is captured is read
  by a word that a group spells, inside a word of the whole expression
  (`Parses.surrounds`).
-/

namespace PositionAutomata

/-- A part of a text that a group holds. -/
structure Capture where
  group : Group
  start : Nat
  stop : Nat
  deriving DecidableEq

/-- Some number of parses, one after the other, with all that they capture. -/
def IteratedParses (m : Nat → Nat → List Capture → Prop) : Nat → Nat → Nat → List Capture → Prop
  | 0, i, j, cs => i = j ∧ cs = []
  | n + 1, i, j, cs => ∃ k as bs, m i k as ∧ IteratedParses m n k j bs ∧ cs = as ++ bs

namespace Expr

variable {α β : Type}

/-- The expression matches the text from offset `i` to `j` in a way in which its groups capture the
given parts, outer ones first and then from left to right. -/
def Parses (text : List Char) : Expr α → Nat → Nat → List Capture → Prop
  | leaf _ l, i, j, cs => l.Matches text i j ∧ cs = []
  | concat _ l r, i, j, cs =>
    ∃ k as bs, l.Parses text i k as ∧ r.Parses text k j bs ∧ cs = as ++ bs
  | alternation _ l r, i, j, cs => l.Parses text i j cs ∨ r.Parses text i j cs
  | repetition _ q e, i, j, cs => ∃ n, q.Allows n ∧ IteratedParses (e.Parses text) n i j cs
  | capture _ g e, i, j, cs => ∃ as, e.Parses text i j as ∧ cs = ⟨g, i, j⟩ :: as

end Expr

/-! ## Iterations -/

section

variable {m : Nat → Nat → List Capture → Prop} {a b i j k n : Nat} {as bs cs : List Capture}

theorem IteratedParses.one (h : m i j cs) : IteratedParses m 1 i j cs :=
  ⟨j, cs, [], h, ⟨rfl, rfl⟩, (List.append_nil cs).symm⟩

theorem IteratedParses.split (h : IteratedParses m (a + b) i j cs) :
    ∃ k as bs, IteratedParses m a i k as ∧ IteratedParses m b k j bs ∧ cs = as ++ bs := by
  induction a generalizing i cs with
  | zero =>
    rw [Nat.zero_add] at h
    exact ⟨i, [], cs, ⟨rfl, rfl⟩, h, rfl⟩
  | succ a ih =>
    rw [Nat.succ_add] at h
    obtain ⟨k, as, bs, hk, h, rfl⟩ := h
    obtain ⟨l, cs, ds, ha, hb, rfl⟩ := ih h
    exact ⟨l, as ++ cs, ds, ⟨k, as, cs, hk, ha, rfl⟩, hb, (List.append_assoc _ _ _).symm⟩

theorem IteratedParses.mono {m' : Nat → Nat → List Capture → Prop}
    (h : ∀ i j cs, m i j cs → m' i j cs) (hm : IteratedParses m n i j cs) :
    IteratedParses m' n i j cs := by
  induction n generalizing i cs with
  | zero => exact hm
  | succ n ih =>
    obtain ⟨k, as, bs, hk, hj, rfl⟩ := hm
    exact ⟨k, as, bs, h _ _ _ hk, ih hj, rfl⟩

/-- Where single matches are parses, so are iterated ones. -/
theorem iterated_iff_exists_iteratedParses {p : Nat → Nat → Prop}
    (h : ∀ i j, p i j ↔ ∃ cs, m i j cs) :
    Iterated p n i j ↔ ∃ cs, IteratedParses m n i j cs := by
  constructor
  · intro hp
    induction n generalizing i with
    | zero => exact ⟨[], hp, rfl⟩
    | succ n ih =>
      obtain ⟨k, hk, hj⟩ := hp
      obtain ⟨as, ha⟩ := (h i k).mp hk
      obtain ⟨bs, hb⟩ := ih hj
      exact ⟨as ++ bs, k, as, bs, ha, hb, rfl⟩
  · intro hm
    obtain ⟨cs, hm⟩ := hm
    induction n generalizing i cs with
    | zero => exact hm.1
    | succ n ih =>
      obtain ⟨k, as, bs, ha, hb, _⟩ := hm
      exact ⟨k, (h i k).mpr ⟨as, ha⟩, ih bs hb⟩

/-- What is captured in some iterations is captured in one of them. -/
theorem IteratedParses.exists_of_mem (h : IteratedParses m n i j cs) {o : Capture} (ho : o ∈ cs) :
    ∃ a b k l as bs ds, n = a + (1 + b) ∧ IteratedParses m a i k as ∧ (m k l bs ∧ o ∈ bs) ∧
      IteratedParses m b l j ds := by
  induction n generalizing i cs with
  | zero => exact absurd ho (by simp [h.2])
  | succ n ih =>
    obtain ⟨k, as, bs, hk, hj, rfl⟩ := h
    rcases List.mem_append.mp ho with ho | ho
    · exact ⟨0, n, i, k, [], as, bs, by omega, ⟨rfl, rfl⟩, ⟨hk, ho⟩, hj⟩
    · obtain ⟨a, b, k', l, cs, ds, es, rfl, ha, hb, he⟩ := ih hj ho
      exact ⟨a + 1, b, k', l, as ++ cs, ds, es, by omega, ⟨k, as, cs, hk, ha, rfl⟩, hb, he⟩

end

namespace Expr

variable {α β : Type} {text : List Char} {i j k : Nat} {as bs cs : List Capture}

/-! ## Parses and matches -/

/-- An expression matches exactly if it has a parse. -/
theorem matches_iff_exists_parses {e : Expr α} :
    e.Matches text i j ↔ ∃ cs, e.Parses text i j cs := by
  induction e generalizing i j with
  | leaf a l => simp [Matches, Parses]
  | concat a l r ihl ihr =>
    simp only [Matches, Parses, ihl, ihr]
    constructor
    · intro h
      obtain ⟨k, ⟨as, ha⟩, bs, hb⟩ := h
      exact ⟨as ++ bs, k, as, bs, ha, hb, rfl⟩
    · intro h
      obtain ⟨_, k, as, bs, ha, hb, _⟩ := h
      exact ⟨k, ⟨as, ha⟩, bs, hb⟩
  | alternation a l r ihl ihr => simp only [Matches, Parses, ihl, ihr, exists_or]
  | repetition a q e ih =>
    simp only [Matches, Parses, iterated_iff_exists_iteratedParses fun i j => ih]
    constructor
    · intro h
      obtain ⟨n, hn, cs, h⟩ := h
      exact ⟨cs, n, hn, h⟩
    · intro h
      obtain ⟨cs, n, hn, h⟩ := h
      exact ⟨n, hn, cs, h⟩
  | capture a g e ih =>
    simp only [Matches, Parses, ih]
    constructor
    · intro h
      obtain ⟨as, h⟩ := h
      exact ⟨_, as, h, rfl⟩
    · intro h
      obtain ⟨_, as, h, _⟩ := h
      exact ⟨as, h⟩

theorem parses_map {f : α → β} {e : Expr α} :
    (e.map f).Parses text i j cs ↔ e.Parses text i j cs := by
  have h : (e.map f).Parses text = e.Parses text := by
    induction e with
    | leaf a l => rfl
    | concat a l r ihl ihr => funext i j cs; simp only [map, Parses, ihl, ihr]
    | alternation a l r ihl ihr => funext i j cs; simp only [map, Parses, ihl, ihr]
    | repetition a q e ih => funext i j cs; simp only [map, Parses, ih]
    | capture a g e ih => funext i j cs; simp only [map, Parses, ih]
  rw [h]

theorem parses_shape {e : Expr α} : e.shape.Parses text i j cs ↔ e.Parses text i j cs := parses_map

theorem alternatives_map {f : α → β} {e : Expr α} :
    (e.map f).alternatives = e.alternatives.map (map f) := by
  induction e with
  | alternation a l r ihl ihr => simp only [map, alternatives, ihl, ihr, List.map_append]
  | _ => rfl

/-- A parse of an expression is one of some alternative. -/
theorem parses_iff_exists_alternative {e : Expr α} :
    e.Parses text i j cs ↔ ∃ x ∈ e.alternatives, x.Parses text i j cs := by
  induction e with
  | alternation a l r ihl ihr =>
    simp only [Parses, alternatives, List.mem_append, or_and_right, exists_or, ihl, ihr]
  | _ => simp [alternatives]

/-! ## Counted repetitions -/

/-- The parts have parses one after the other, with all that they capture. -/
def ParsesInTurn (text : List Char) : List (Expr Unit) → Nat → Nat → List Capture → Prop
  | [], i, j, cs => i = j ∧ cs = []
  | e :: rest, i, j, cs =>
    ∃ k as bs, e.Parses text i k as ∧ ParsesInTurn text rest k j bs ∧ cs = as ++ bs

theorem ParsesInTurn.append {es fs : List (Expr Unit)} (he : ParsesInTurn text es i k as)
    (hf : ParsesInTurn text fs k j bs) : ParsesInTurn text (es ++ fs) i j (as ++ bs) := by
  induction es generalizing i as with
  | nil =>
    obtain ⟨rfl, rfl⟩ := he
    exact hf
  | cons e es ih =>
    obtain ⟨l, cs, ds, hl, h, rfl⟩ := he
    exact ⟨l, cs, ds ++ bs, hl, ih h, List.append_assoc _ _ _⟩

theorem parses_concatAll {es : List (Expr Unit)} (h : ParsesInTurn text es i j cs) :
    (concatAll es).Parses text i j cs := by
  cases es with
  | nil => exact ⟨.inl ⟨rfl, h.1⟩, h.2⟩
  | cons e rest =>
    rw [concatAll, joined]
    induction rest generalizing e cs with
    | nil =>
      obtain ⟨k, as, bs, hk, ⟨rfl, rfl⟩, rfl⟩ := h
      rwa [List.append_nil]
    | cons f rest ih =>
      obtain ⟨k, as, _, hk, ⟨l, bs, ds, hl, h, rfl⟩, rfl⟩ := h
      exact ih (concat () e f) ⟨l, as ++ bs, ds, ⟨k, as, bs, hk, hl, rfl⟩, h,
        (List.append_assoc _ _ _).symm⟩

theorem alternatives_anyOf {es : List (Expr Unit)} (hne : es ≠ []) :
    (anyOf es).alternatives = es.flatMap alternatives := by
  cases es with
  | nil => exact absurd rfl hne
  | cons e rest =>
    rw [anyOf, joined]
    clear hne
    induction rest generalizing e with
    | nil => simp
    | cons f rest ih =>
      rw [List.foldl_cons, ih, List.flatMap_cons, alternatives, List.flatMap_cons,
        List.flatMap_cons, List.append_assoc]

theorem parses_anyOf {es : List (Expr Unit)} {e : Expr Unit} (he : e ∈ es)
    (h : e.Parses text i j cs) : (anyOf es).Parses text i j cs := by
  obtain ⟨x, hx, h⟩ := parses_iff_exists_alternative.mp h
  rw [parses_iff_exists_alternative, alternatives_anyOf (List.ne_nil_of_mem he)]
  exact ⟨x, List.mem_flatMap.mpr ⟨e, he, hx⟩, h⟩

theorem ParsesInTurn.of_iterated {e : Expr Unit} {n : Nat}
    (h : IteratedParses (e.Parses text) n i j cs) :
    ParsesInTurn text (List.replicate n e) i j cs := by
  induction n generalizing i cs with
  | zero => exact h
  | succ n ih =>
    obtain ⟨k, as, bs, hk, h, rfl⟩ := h
    exact ⟨k, as, bs, hk, ih h, rfl⟩

/-- Iterations are parses of optional copies, of which some may be left out. -/
theorem ParsesInTurn.of_iterated_optional {e : Expr Unit} {lz : Bool} {m n : Nat} (hn : n ≤ m)
    (h : IteratedParses (e.Parses text) n i j cs) :
    ParsesInTurn text (List.replicate m (repetition () ⟨0, 1, lz⟩ e)) i j cs := by
  have hzero : (⟨0, 1, lz⟩ : Quantifier).Allows 0 := Quantifier.allows_zero rfl
  have hone : (⟨0, 1, lz⟩ : Quantifier).Allows 1 := Quantifier.allows_one rfl rfl
  induction m generalizing n i cs with
  | zero =>
    obtain rfl := Nat.le_zero.mp hn
    exact h
  | succ m ih =>
    cases n with
    | zero =>
      obtain ⟨rfl, rfl⟩ := h
      exact ⟨i, [], [], ⟨0, hzero, rfl, rfl⟩, ih (Nat.zero_le m) ⟨rfl, rfl⟩, rfl⟩
    | succ n =>
      obtain ⟨k, as, bs, hk, h, rfl⟩ := h
      exact ⟨k, as, bs, ⟨1, hone, .one hk⟩, ih (Nat.le_of_succ_le_succ hn) h, rfl⟩

/-- The iterations of a counted repetition are a parse of it when it is written out. -/
theorem parses_unrolling {q : Quantifier} (hc : q.isCounted = true) {e : Expr Unit} {n : Nat}
    (hn : q.Allows n) (h : IteratedParses (e.Parses text) n i j cs) :
    (unrolling q e).Parses text i j cs := by
  obtain ⟨hmin, hmax⟩ := hn
  rw [unrolling]
  split
  next hu =>
    -- All iterations but the required ones go to the last copy, which takes one at least.
    have hreq : q.required - 1 < n := by
      have hcount : 1 < q.min := by simpa [Quantifier.isCounted, hu] using hc
      rw [Quantifier.required] at hmin ⊢
      omega
    obtain ⟨r, rfl⟩ := Nat.exists_eq_add_of_lt hreq
    rw [Nat.add_assoc] at h
    obtain ⟨k, as, bs, ha, hb, rfl⟩ := h.split
    have hallows : (⟨1, Quantifier.unbounded, q.lazy⟩ : Quantifier).Allows (r + 1) :=
      Quantifier.allows_of_canRepeat rfl rfl (Nat.succ_pos r)
    refine parses_concatAll ((ParsesInTurn.of_iterated ha).append ?_)
    exact ⟨j, bs, [], ⟨r + 1, hallows, hb⟩, ⟨rfl, rfl⟩, (List.append_nil bs).symm⟩
  next hu =>
    have hmax : (n : Int) ≤ q.max := hmax (by simpa using hu)
    rw [Quantifier.required] at hmin
    split
    next heq =>
      obtain rfl : n = q.required := by
        rw [Quantifier.required]
        omega
      exact parses_concatAll (.of_iterated h)
    split
    next =>
      obtain ⟨r, rfl⟩ := Nat.exists_eq_add_of_le hmin
      obtain ⟨k, as, bs, ha, hb, rfl⟩ := h.split
      have hr : r ≤ q.max.toNat - q.required := by
        rw [Quantifier.required]
        omega
      exact parses_concatAll ((ParsesInTurn.of_iterated ha).append (.of_iterated_optional hr hb))
    next =>
      have hrange : n ∈ List.range' q.required q.choices := by
        rw [List.mem_range'_1, Quantifier.choices, Quantifier.required]
        omega
      exact parses_anyOf (List.mem_map.mpr ⟨n, hrange, rfl⟩) (parses_concatAll (.of_iterated h))

/-- Writing out counted repetitions keeps every parse. -/
theorem Parses.unrolled {e : Expr α} (h : e.Parses text i j cs) :
    e.unrolled.Parses text i j cs := by
  induction e generalizing i j cs with
  | leaf a l => exact h
  | concat a l r ihl ihr =>
    obtain ⟨k, as, bs, hl, hr, rfl⟩ := h
    exact ⟨k, as, bs, ihl hl, ihr hr, rfl⟩
  | alternation a l r ihl ihr => exact Or.imp ihl ihr h
  | repetition a q e ih =>
    obtain ⟨n, hn, h⟩ := h
    have h := h.mono fun _ _ _ => ih
    rw [Expr.unrolled_repetition]
    split
    next hc =>
      rw [Bool.and_eq_true] at hc
      exact parses_unrolling hc.1 hn h
    next => exact ⟨n, hn, h⟩
  | capture a g e ih =>
    obtain ⟨as, h, rfl⟩ := h
    exact ⟨as, ih h, rfl⟩

/-! ## Words -/

/-- What has a parse is read by a word. -/
theorem Parses.exists_spells {e : Expr α} (h : e.Parses text i j cs) :
    ∃ u, e.Spells u ∧ Consumes text u i j :=
  matches_iff_spells.mp (matches_iff_exists_parses.mpr ⟨cs, h⟩)

theorem exists_repeated_of_iteratedParses {e : Expr α} {n : Nat}
    (h : IteratedParses (e.Parses text) n i j cs) :
    ∃ u, Repeated e.Spells n u ∧ Consumes text u i j :=
  (iterated_iff_repeated fun _ _ => matches_iff_spells).mp
    ((iterated_iff_exists_iteratedParses fun _ _ => matches_iff_exists_parses).mpr ⟨cs, h⟩)

/-- In some word of the expression, after leaves that read the text from `i` on, a word of the group
of a capture reads what is captured. -/
def Surrounds (e : Expr α) (text : List Char) (o : Capture) (i : Nat) : Prop :=
  ∃ a z u v w, capture a o.group z ∈ e.subexprs ∧ z.Spells v ∧ e.Spells (u ++ v ++ w) ∧
    Consumes text u i o.start ∧ Consumes text v o.start o.stop

/-- What is surrounded by a part is surrounded by the whole, if words of the part can be continued on
both sides. -/
theorem Surrounds.extend {e f : Expr α} {o : Capture} (h : e.Surrounds text o k)
    (hsub : e.subexprs ⊆ f.subexprs) {x y : List (α × Leaf)} (hx : Consumes text x i k)
    (hwords : ∀ m, e.Spells m → f.Spells (x ++ (m ++ y))) : f.Surrounds text o i := by
  obtain ⟨a, z, u, v, w, hmem, hz, he, hu, hv⟩ := h
  refine ⟨a, z, x ++ u, v, w ++ y, hsub hmem, hz, ?_, consumes_append.mpr ⟨k, hx, hu⟩, hv⟩
  have hwhole := hwords _ he
  simpa only [List.append_assoc] using hwhole

theorem Surrounds.mono {e f : Expr α} {o : Capture} (h : e.Surrounds text o i)
    (hsub : e.subexprs ⊆ f.subexprs) (hwords : ∀ m, e.Spells m → f.Spells m) :
    f.Surrounds text o i :=
  h.extend (x := []) (y := []) hsub rfl fun m hm => by
    rw [List.nil_append, List.append_nil]
    exact hwords m hm

theorem Surrounds.of_alternative {e x : Expr α} {o : Capture} (h : x.Surrounds text o i)
    (hx : x ∈ e.alternatives) : e.Surrounds text o i := by
  induction e with
  | alternation a l r ihl ihr =>
    rcases List.mem_append.mp hx with hx | hx
    · exact (ihl hx).mono (fun z hz => by simp [hz]) fun _ => .inl
    · exact (ihr hx).mono (fun z hz => by simp [hz]) fun _ => .inr
  | _ => rwa [← List.mem_singleton.mp hx]

/-- Whatever a parse captures is surrounded by a word of the expression. -/
theorem Parses.surrounds {e : Expr α} (h : e.Parses text i j cs) {o : Capture} (ho : o ∈ cs) :
    e.Surrounds text o i := by
  induction e generalizing i j cs with
  | leaf a l => exact absurd ho (by simp [h.2])
  | concat a l r ihl ihr =>
    obtain ⟨k, as, bs, hl, hr, rfl⟩ := h
    rcases List.mem_append.mp ho with ho | ho
    · obtain ⟨y, hy, _⟩ := hr.exists_spells
      exact (ihl hl ho).extend (x := []) (fun x hx => by simp [hx]) rfl fun m hm =>
        ⟨m, y, rfl, hm, hy⟩
    · obtain ⟨x, hx, hcx⟩ := hl.exists_spells
      exact (ihr hr ho).extend (y := []) (fun x hx => by simp [hx]) hcx fun m hm =>
        ⟨x, m, by rw [List.append_nil], hx, hm⟩
  | alternation a l r ihl ihr =>
    rcases h with h | h
    · exact (ihl h ho).mono (fun x hx => by simp [hx]) fun _ => .inl
    · exact (ihr h ho).mono (fun x hx => by simp [hx]) fun _ => .inr
  | repetition a q e ih =>
    obtain ⟨n, hn, h⟩ := h
    obtain ⟨b, b', k, l, as, bs, ds, rfl, hbefore, ⟨hm, ho⟩, hafter⟩ := h.exists_of_mem ho
    -- The iterations before and after it have words of their own.
    obtain ⟨x, hx, hcx⟩ := exists_repeated_of_iteratedParses hbefore
    obtain ⟨y, hy, _⟩ := exists_repeated_of_iteratedParses hafter
    refine (ih hm ho).extend (y := y) (fun x hx => by simp [hx]) hcx fun m hm => ⟨_, hn, ?_⟩
    exact hx.append (Repeated.append ⟨m, [], (List.append_nil m).symm, hm, rfl⟩ hy)
  | capture a g e ih =>
    obtain ⟨as, h, rfl⟩ := h
    rcases List.mem_cons.mp ho with rfl | ho
    -- The group itself: all of its word is captured.
    · obtain ⟨v, hv, hc⟩ := h.exists_spells
      refine ⟨a, e, [], v, [], by simp, hv, ?_, rfl, hc⟩
      rwa [List.nil_append, List.append_nil]
    · exact (ih h ho).mono (fun x hx => by simp [hx]) fun _ hm => hm

end Expr

end PositionAutomata
