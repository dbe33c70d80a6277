import PositionAutomata.Proofs.Construction.Augmenting
import PositionAutomata.Proofs.Construction.Synthesis
import PositionAutomata.Proofs.Expr.Rules

/-
  What built automata recognize.

  The positions of the keys that are entered are the awaited ones
  (`awaits_of_enters`, `enters_of_awaits`), and the terminator of a rule is
  awaited exactly where the rule matches what was read (`awaits_symbol_iff`).
  Unless transitions are trimmed, a text is accepted with the least symbol of a
  terminator that is awaited at its end (`run_eq_some_iff_awaits`).
-/

namespace PositionAutomata

namespace Config

variable {c : Config} {e : Expr NodeId}

/-! ## The shape that is analysed -/

theorem rules_ne_nil : c.rules e ≠ [] := by
  have halt : ∀ e : Expr NodeId, e.alternatives ≠ [] := by
    intro e
    induction e with
    | alternation a l r ihl _ => exact fun h => ihl (List.append_eq_nil_iff.mp h).1
    | _ => exact List.cons_ne_nil _ _
  rw [rules]
  split
  · exact halt e
  · exact List.cons_ne_nil _ _

theorem map_rules_ne_nil {α : Type} (g : Expr NodeId × Nat → α) :
    (c.rules e).zipIdx.map g ≠ [] := by
  intro h
  have hlen := congrArg List.length h
  rw [List.length_map, List.length_zipIdx, List.length_nil, List.length_eq_zero_iff] at hlen
  exact rules_ne_nil hlen

theorem mem_rules_allLeaves {p : Leaf → Prop} (h : e.AllLeaves p) :
    ∀ x ∈ c.rules e, x.AllLeaves p :=
  (forall_mem_rules fun _ _ _ => Iff.rfl).mpr h

theorem allLeaves_copied {p : Leaf → Prop} (hp : p .empty) (h : e.AllLeaves p) :
    (c.copied e).AllLeaves p := by
  rw [copied]
  split
  · exact h.unrolled hp
  · exact Expr.allLeaves_map.mpr h

/-- What holds of each rule with its terminator, and of a choice if it holds of both sides, holds of
the expression that is analysed. -/
theorem augmented_induction {motive : Expr Unit → Prop}
    (rule : ∀ x ∈ c.rules e, ∀ i, motive (c.terminated x i))
    (choice : ∀ l r, motive l → motive r → motive (.alternation () l r)) :
    motive (c.augmented e) := by
  apply Expr.joined_induction (fun h => absurd h (map_rules_ne_nil _)) choice
  intro f hf
  obtain ⟨⟨x, i⟩, hx, rfl⟩ := List.mem_map.mp hf
  exact rule x (List.mem_of_getElem? (List.mem_zipIdx_iff_getElem?.mp hx)) i

theorem allLeaves_augmented {p : Leaf → Prop} (hp : p .empty) (hterm : ∀ n, p (.terminator n))
    (h : e.AllLeaves p) : (c.augmented e).AllLeaves p :=
  augmented_induction (fun x hx i => ⟨allLeaves_copied hp (mem_rules_allLeaves h x hx), hterm i⟩)
    fun _ _ hl hr => ⟨hl, hr⟩

theorem ruled_augmented (h : e.AllLeaves Leaf.IsPlain) : (c.augmented e).Ruled :=
  augmented_induction
    (fun x hx _ => .rule (allLeaves_copied rfl (mem_rules_allLeaves h x hx)))
    fun _ _ hl hr => .choice hl hr

theorem Augments.ruled {u : Tree} {f : Expr NodeId} (haug : c.Augments e u f)
    (h : e.AllLeaves Leaf.IsPlain) : f.Ruled := by
  have hruled := ruled_augmented (c := c) h
  rw [← haug.shape] at hruled
  exact hruled.of_map

theorem unrolled_augmented (hexp : c.expand = true) (hv : e.Valid) : (c.augmented e).Unrolled := by
  refine augmented_induction (fun x hx i => ⟨?_, trivial⟩) fun _ _ hl hr => ⟨hl, hr⟩
  rw [copied, if_pos hexp]
  exact Expr.unrolled_unrolled (mem_rules_valid hv x hx)

theorem matches_copied {text : List Char} {i j : Nat} (hv : e.Valid) :
    (c.copied e).Matches text i j ↔ e.Matches text i j := by
  rw [copied]
  split
  · exact Expr.matches_unrolled hv
  · exact Expr.matches_shape

/-- The analysed expression spells what a rule spells, followed by the terminator of the rule. -/
theorem spells_augmented_iff {n : Symbol} {v : List (Unit × Leaf)} :
    (c.augmented e).Spells (v ++ [((), .terminator n)]) ↔
      ∃ x, (c.rules e)[n]? = some x ∧ (c.copied x).Spells v := by
  rw [augmented, Expr.spells_anyOf (map_rules_ne_nil _)]
  constructor
  · intro h
    obtain ⟨f, hf, h⟩ := h
    obtain ⟨⟨x, i⟩, hx, rfl⟩ := List.mem_map.mp hf
    obtain ⟨rfl, hv⟩ := Expr.spells_rule_iff.mp h
    exact ⟨x, List.mem_zipIdx_iff_getElem?.mp hx, hv⟩
  · intro h
    obtain ⟨x, hx, hv⟩ := h
    exact ⟨_, List.mem_map.mpr ⟨(x, n), List.mem_zipIdx_iff_getElem?.mpr hx, rfl⟩,
      Expr.spells_rule_iff.mpr ⟨rfl, hv⟩⟩

end Config

/-! ## Awaited terminators -/

namespace Positions

variable {size : Nat} {e : Expr NodeId}

theorem symbol?_ofExpr {p : Position} {n : Symbol} :
    (ofExpr size e).symbol? p = some n ↔ ∃ x, e.At p x ∧ x.2.symbol? = some n := by
  rw [symbol?, Option.bind_eq_some_iff]
  constructor
  · intro h
    obtain ⟨o, ho, hn⟩ := h
    obtain ⟨x, hx, rfl⟩ := get?_ofExpr.mp ho
    exact ⟨x, hx, hn⟩
  · intro h
    obtain ⟨x, hx, hn⟩ := h
    exact ⟨_, get?_ofExpr.mpr ⟨x, hx, rfl⟩, hn⟩

/-- A set of positions accepts with the least symbol of its terminators. -/
theorem accept_eq_some_iff {ps : Positions} {s : SortedSet} {n : Symbol} :
    ps.accept s = some n ↔ IsLeast {m | ∃ p ∈ s, ps.symbol? p = some m} n :=
  SortedSet.min?_filterMap_eq_some_iff

end Positions

namespace Analysis

variable {t : Tree} {c : Config} {e f : Expr NodeId} {lazy captures : Bool} {text : List Char}
  {i : Nat}

theorem exists_root_of_rootExpr (h : t.rootExpr = .ok f) : ∃ root, t.expr root = .ok f := by
  rw [Tree.rootExpr] at h
  split at h
  · exact absurd h (by simp)
  next root _ => exact ⟨root, h⟩

theorem bounded_of_analyze {a : Analysis} (h : c.analyze t = .ok a) : a.Bounded := by
  obtain ⟨_, u, f, _, haug, rfl⟩ := Config.augments_of_analyze h
  obtain ⟨root, hroot⟩ := exists_root_of_rootExpr haug.root
  exact bounded_ofExpr hroot

theorem partitioned_of_analyze {a : Analysis} (h : c.analyze t = .ok a) : a.Partitioned := by
  obtain ⟨_, u, f, _, _, rfl⟩ := Config.augments_of_analyze h
  exact partitioned_ofExpr

theorem symbol?_eq_some_iff {l : Leaf} {n : Symbol} :
    l.symbol? = some n ↔ l = .terminator n := by
  cases l <;> simp [Leaf.symbol?]

/-- If the analysed expression guides the words of one with the shape that some options and rules
have, the terminator of a rule is awaited exactly where the copy of the rule matches what was
read. -/
theorem awaits_symbol_iff_copied {g : Expr NodeId} (hroot : t.rootExpr = .ok f)
    (hnd : (f.leaves.map Prod.fst).Nodup) (hb : ∀ y ∈ f.leaves, y.1 < t.size) (hruled : f.Ruled)
    (hguides : f.Guides g.Spells) (hshape : g.shape = c.augmented e) {n : Symbol} :
    (∃ p, (ofExpr t f lazy captures).Awaits text i p ∧
        (ofExpr t f lazy captures).positions.symbol? p = some n) ↔
      ∃ x, (c.rules e)[n]? = some x ∧ (c.copied x).Matches text 0 i := by
  obtain ⟨root, hroot⟩ := exists_root_of_rootExpr hroot
  have hlast : ∀ p x, f.At p x → x.2.symbol? = some n →
      ((ofExpr t f lazy captures).Awaits text i p ↔
        ∃ u, Consumes text u 0 i ∧ g.Spells (u ++ [x])) := fun p x hx hn =>
    awaits_last_iff hroot hnd hb hguides hx (hruled.last hx.mem hn)
  -- The guided words are those of the augmented expression but for tags.
  have hwords : (∃ x u, x.2.symbol? = some n ∧ Consumes text u 0 i ∧ g.Spells (u ++ [x])) ↔
      ∃ v, Consumes text v 0 i ∧ (c.augmented e).Spells (v ++ [((), .terminator n)]) := by
    rw [← hshape]
    constructor
    · intro h
      obtain ⟨x, u, hn, hc, hs⟩ := h
      refine ⟨u.map (Prod.map (fun _ => ()) id), Expr.consumes_map.mpr hc,
        Expr.spells_map.mpr ⟨_, hs, ?_⟩⟩
      rw [List.map_append, List.map_singleton, Prod.map, symbol?_eq_some_iff.mp hn]
      rfl
    · intro h
      obtain ⟨v, hc, hs⟩ := h
      obtain ⟨w, hw, heq⟩ := Expr.spells_map.mp hs
      obtain ⟨u, z, rfl, rfl, hz⟩ := List.map_eq_append_iff.mp heq
      obtain ⟨x, rfl, hx⟩ := List.map_eq_singleton_iff.mp hz
      exact ⟨x, u, symbol?_eq_some_iff.mpr (congrArg Prod.snd hx), Expr.consumes_map.mp hc, hw⟩
  -- A word of the augmented expression up to a terminator is a word of the rule of the terminator.
  have hrules : (∃ v, Consumes text v 0 i ∧
        (c.augmented e).Spells (v ++ [((), .terminator n)])) ↔
      ∃ x, (c.rules e)[n]? = some x ∧ (c.copied x).Matches text 0 i := by
    simp only [Config.spells_augmented_iff, Expr.matches_iff_spells]
    constructor
    · intro h
      obtain ⟨v, hc, x, hx, hs⟩ := h
      exact ⟨x, hx, v, hs, hc⟩
    · intro h
      obtain ⟨x, hx, v, hs, hc⟩ := h
      exact ⟨v, hc, x, hx, hs⟩
  rw [← hrules, ← hwords]
  constructor
  · intro h
    obtain ⟨p, hp, hn⟩ := h
    obtain ⟨x, hx, hn⟩ := Positions.symbol?_ofExpr.mp hn
    obtain ⟨u, hc, hs⟩ := (hlast p x hx hn).mp hp
    exact ⟨x, u, hn, hc, hs⟩
  · intro h
    obtain ⟨x, u, hn, hc, hs⟩ := h
    obtain ⟨p, hx⟩ := Expr.exists_at (hguides.mem_leaves hs)
    exact ⟨p, (hlast p x hx hn).mpr ⟨u, hc, hs⟩, Positions.symbol?_ofExpr.mpr ⟨x, hx, hn⟩⟩

/-- The terminator of a rule is awaited exactly where the rule matches what was read. -/
theorem awaits_symbol_iff (haug : c.Augments e t f) (hexp : c.expand = true) (hv : e.Valid)
    (hplain : e.AllLeaves Leaf.IsPlain) {n : Symbol} :
    (∃ p, (ofExpr t f lazy captures).Awaits text i p ∧
        (ofExpr t f lazy captures).positions.symbol? p = some n) ↔
      ∃ x, (c.rules e)[n]? = some x ∧ x.Matches text 0 i := by
  have hunrolled : f.Unrolled := by
    have h := Config.unrolled_augmented hexp hv
    rw [← haug.shape] at h
    exact Expr.unrolled_map.mp h
  rw [awaits_symbol_iff_copied haug.root haug.nodup haug.bounded (haug.ruled hplain)
    (Expr.guides_spells hunrolled haug.nodup.of_map) haug.shape]
  refine exists_congr fun x => and_congr_right fun hx => ?_
  exact Config.matches_copied (Config.mem_rules_valid hv x (List.mem_of_getElem? hx))

/-- Some terminator is awaited exactly where some rule matches what was read. -/
theorem exists_awaits_symbol_iff (haug : c.Augments e t f) (hexp : c.expand = true)
    (hv : e.Valid) (hplain : e.AllLeaves Leaf.IsPlain) :
    (∃ p n, (ofExpr t f lazy captures).Awaits text i p ∧
        (ofExpr t f lazy captures).positions.symbol? p = some n) ↔
      ∃ x ∈ c.rules e, x.Matches text 0 i := by
  rw [exists_comm]
  simp only [awaits_symbol_iff haug hexp hv hplain, List.mem_iff_getElem?]
  rw [exists_comm]
  simp only [exists_and_right]

/-! ## Entered keys and awaited positions -/

section

variable {a : Analysis} {keep : Key → Key → Prop} {p : Position}

theorem awaits_of_enters (hl : a.Lettered) {k : Key} (h : a.Enters keep text i k)
    (hp : p ∈ k.positions) : a.Awaits text i p := by
  induction h generalizing p with
  | start => exact .first hp
  | step _ hletter hstep htake _ ih =>
    obtain ⟨q, hq, hread, hpq⟩ := (mem_positions_step hstep).mp hp
    rw [Positions.reads, Option.any_eq_true] at hread
    obtain ⟨o, ho, hr⟩ := hread
    exact .next (ih hq) ho (hl.reads ho hletter hr htake) hpq

/-- If all steps are kept, what is awaited is a position of some key that is entered. -/
theorem enters_of_awaits (hl : a.Lettered) (hkeep : ∀ k k', keep k k') (h : a.Awaits text i p) :
    ∃ k, a.Enters keep text i k ∧ p ∈ k.positions := by
  induction h with
  | first hp => exact ⟨_, .start, hp⟩
  | @next i j p q o _ ho hread hq ih =>
    obtain ⟨k, hk, hp⟩ := ih
    obtain ⟨letter, hletter, htake, hr⟩ := hl.letter ho hread
    have hreads : a.positions.reads p letter = true := by
      rw [Positions.reads, Option.any_eq_true]
      exact ⟨_, ho, hr⟩
    obtain ⟨k', hstep⟩ := exists_step hp hreads hq
    exact ⟨k', .step hk hletter hstep htake (hkeep k k'),
      (mem_positions_step hstep).mpr ⟨_, hp, hreads, hq⟩⟩

/-- If no transition is trimmed, a text is accepted with the least symbol that is awaited. -/
theorem run_eq_some_iff_awaits (hb : a.Bounded) (hl : a.Lettered) (hkeep : ∀ k k', a.Keeps c k k')
    {n : Symbol} :
    (Automaton.ofAnalysis a c).run text = some n ↔
      IsLeast {m | ∃ p, a.Awaits text text.length p ∧ a.positions.symbol? p = some m} n := by
  rw [run_ofAnalysis hb hl]
  have hsound : ∀ m, (∃ k, a.Enters (a.Keeps c) text text.length k ∧
      a.positions.accept k.positions = some m) →
      ∃ p, a.Awaits text text.length p ∧ a.positions.symbol? p = some m := by
    intro m h
    obtain ⟨k, hk, hm⟩ := h
    obtain ⟨p, hp, hm⟩ := (Positions.accept_eq_some_iff.mp hm).1
    exact ⟨p, awaits_of_enters hl hk hp, hm⟩
  -- The key that holds an awaited terminator accepts with its symbol or a smaller one.
  have hcomplete : ∀ m, (∃ p, a.Awaits text text.length p ∧ a.positions.symbol? p = some m) →
      ∃ m' ≤ m, ∃ k, a.Enters (a.Keeps c) text text.length k ∧
        a.positions.accept k.positions = some m' := by
    intro m h
    obtain ⟨p, hp, hm⟩ := h
    obtain ⟨k, hk, hp⟩ := enters_of_awaits hl hkeep hp
    obtain ⟨m', hm'⟩ := exists_isLeast
      (s := {m | ∃ p ∈ k.positions, a.positions.symbol? p = some m}) ⟨m, p, hp, hm⟩
    exact ⟨m', hm'.2 ⟨p, hp, hm⟩, k, hk, Positions.accept_eq_some_iff.mpr hm'⟩
  constructor
  · intro h
    obtain ⟨hn, hmin⟩ := h
    refine ⟨hsound n hn, fun m hm => ?_⟩
    obtain ⟨m', hle, hm'⟩ := hcomplete m hm
    exact Nat.le_trans (hmin hm') hle
  · intro h
    obtain ⟨hn, hmin⟩ := h
    obtain ⟨n', hle, hn'⟩ := hcomplete n hn
    obtain rfl : n' = n := Nat.le_antisymm hle (hmin (hsound n' hn'))
    exact ⟨hn', fun m hm => hmin (hsound m hm)⟩

end

end Analysis

end PositionAutomata
