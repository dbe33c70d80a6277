import Mathlib
import PositionAutomata.Proofs.Expr.Loosening
import PositionAutomata.Proofs.Recognition

/-
  Construction without writing out counted repetitions.

  A counted repetition that is not written out is told apart by its neighbours
  only, so the automaton accepts what the rules match when their repetitions are
  loosened. As long as trimming cannot act, it does so with the number of the
  first such rule; it accepts all that the automaton with written out
  repetitions accepts, with the same symbol or a smaller one.
-/

namespace PositionAutomata

open PositionAutomata.Expr

namespace Config

variable {c : Config} {e : Expr NodeId}

theorem rules_loosened : c.rules e.loosened = (c.rules e).map loosened := by
  rw [rules, rules]
  split
  · exact alternatives_loosened
  · rfl

theorem loosened_terminated (hexp : c.expand = false) {i : Symbol} :
    (c.terminated e i).loosened = c.terminated e.loosened i := by
  simp [terminated, copied, hexp, loosened, shape, loosened_map]

theorem loosened_augmented (hexp : c.expand = false) :
    (c.augmented e).loosened = c.augmented e.loosened := by
  rw [augmented, anyOf, loosened_joined (alternation ()) fun _ _ => rfl, augmented, anyOf,
    rules_loosened, List.zipIdx_map, List.map_map, List.map_map]
  congr 1
  exact List.map_congr_left fun _ _ => loosened_terminated hexp

end Config

namespace Analysis

variable {c : Config} {t : Tree} {e f : Expr NodeId} {lazy captures : Bool} {text : List Char}
  {i : Nat}

/-- If counted repetitions are not written out, the terminator of a rule is awaited exactly where
the loosened rule matches what was read. -/
theorem awaits_symbol_iff_loosened (haug : c.Augments e t f) (hexp : c.expand = false)
    (hplain : e.AllLeaves Leaf.IsPlain) {n : Symbol} :
    (∃ p, (ofExpr t f lazy captures).Awaits text i p ∧
        (ofExpr t f lazy captures).positions.symbol? p = some n) ↔
      ∃ x, (c.rules e)[n]? = some x ∧ x.loosened.Matches text 0 i := by
  have hshape : f.loosened.shape = c.augmented e.loosened := by
    rw [← Config.loosened_augmented hexp, ← haug.shape, shape, shape, loosened_map]
  rw [awaits_symbol_iff_copied haug.root haug.nodup haug.bounded (haug.ruled hplain)
    (guides_loosened haug.nodup.of_map) hshape]
  simp only [Config.rules_loosened, List.getElem?_map, Option.map_eq_some_iff]
  constructor
  · intro h
    obtain ⟨_, ⟨x, hx, rfl⟩, hm⟩ := h
    exact ⟨x, hx, (Config.matches_copied unrolled_loosened.valid).mp hm⟩
  · intro h
    obtain ⟨x, hx, hm⟩ := h
    exact ⟨_, ⟨x, hx, rfl⟩, (Config.matches_copied unrolled_loosened.valid).mpr hm⟩

/-- If counted repetitions are not written out and trimming cannot act, a text is accepted with the
number of the first loosened rule that matches. -/
theorem run_eq_some_iff_loosened (haug : c.Augments e t f) (hplain : e.AllLeaves Leaf.IsPlain)
    (hsharp : e.AllLeaves Leaf.IsSharp) (hexp : c.expand = false) (htrim : c.NeverTrims e)
    {n : Symbol} :
    (Automaton.ofAnalysis (ofExpr t f c.lazy c.captures) c).run text = some n ↔
      IsLeast {i | ∃ x, (c.rules e)[i]? = some x ∧ x.loosened.Matches text 0 text.length} n := by
  rw [run_eq_some_iff_awaits (haug.analysis_bounded _ _) (haug.analysis_lettered _ _ hsharp)
    (keeps_of_neverTrims haug htrim)]
  simp only [awaits_symbol_iff_loosened haug hexp hplain]

end Analysis

/-- An optional number that is the least of a set is missing exactly if the set is empty. -/
theorem eq_none_iff_of_isLeast {o : Option Nat} {s : Set Nat} (h : ∀ n, o = some n ↔ IsLeast s n) :
    o = none ↔ ∀ n, n ∉ s := by
  constructor
  · intro hnone n hn
    obtain ⟨m, hm⟩ := exists_isLeast ⟨n, hn⟩
    rw [(h m).mpr hm] at hnone
    exact absurd hnone (by simp)
  · intro hempty
    rw [Option.eq_none_iff_forall_ne_some]
    exact fun n hn => hempty n ((h n).mp hn).1

namespace Automaton

/-- If counted repetitions are not written out, the automaton of a tree without terminators accepts
a text with the number of the first rule that matches all of it when its repetitions are loosened,
and rejects it if there is none. What is accepted when they are written out is accepted with a
symbol that is not greater. -/
theorem ofTree_recognizes_loosened_rules {t : Tree} {c : Config} {e : Expr NodeId}
    (hroot : t.rootExpr = .ok e) (hplain : e.AllLeaves Leaf.IsPlain)
    (hbounded : e.AllLeaves Leaf.IsBounded) (hvalid : e.Valid)
    (hlexer : c.lexer = true → e.isAlternation = true) (hexpand : c.expand = false)
    (htrim : c.NeverTrims e) :
    ∃ d d', ofTree t c = .ok d ∧ ofTree t { c with expand := true } = .ok d' ∧
      ∀ text : List Char,
        (∀ k, d.run text = some k ↔ IsLeast
          {i | ∃ x, (c.rules e)[i]? = some x ∧ x.loosened.Matches text 0 text.length} k) ∧
        (d.run text = none ↔ ∀ x ∈ c.rules e, ¬ x.loosened.Matches text 0 text.length) ∧
        ∀ k, d'.run text = some k → ∃ j ≤ k, d.run text = some j := by
  obtain ⟨u, f, haug, hd⟩ := ofTree_of_valid hroot hvalid hlexer
  obtain ⟨u', f', haug', hd'⟩ :=
    ofTree_of_valid (c := { c with expand := true }) hroot hvalid hlexer
  have hsharp : e.AllLeaves Leaf.IsSharp := hbounded.mono fun _ => Leaf.IsBounded.isSharp
  refine ⟨_, _, hd, hd', fun text => ?_⟩
  have hrun : ∀ k, Automaton.run _ text = some k ↔ IsLeast
      {i | ∃ x, (c.rules e)[i]? = some x ∧ x.loosened.Matches text 0 text.length} k := fun _ =>
    Analysis.run_eq_some_iff_loosened haug hplain hsharp hexpand htrim
  refine ⟨hrun, ?_, fun k hk => ?_⟩
  · rw [eq_none_iff_of_isLeast hrun]
    simp only [List.mem_iff_getElem?]
    exact ⟨fun h x hx hm => hx.elim fun i hi => h i ⟨x, hi, hm⟩,
      fun h i hi => hi.elim fun x hx => h x ⟨i, hx.1⟩ hx.2⟩
  -- The rule that matches still matches when it is loosened, so the least of these comes no later.
  · rw [Analysis.run_eq_some_iff_matches haug' hvalid hplain hsharp rfl htrim] at hk
    obtain ⟨x, hx, hm⟩ := hk.1
    have hx : (c.rules e)[k]? = some x := hx
    obtain ⟨j, hj⟩ := exists_isLeast
      (s := {i | ∃ x, (c.rules e)[i]? = some x ∧ x.loosened.Matches text 0 text.length})
      ⟨k, x, hx, hm.loosened⟩
    exact ⟨j, hj.2 ⟨x, hx, hm.loosened⟩, (hrun j).mpr hj⟩

/-- A lexer of two rules: an even number of letters `a`, and a letter `a` or `b` after a line
start. -/
def countingLexer : Tree where
  nodes := #[.leaf (.codepoint 0x61), .repetition 0 ⟨2, 2, false⟩, .repetition 1 .star,
    .leaf (.codepoint lineStart), .leaf (.charset ⟨[.range ⟨0x61, 0x62, by decide⟩], false⟩),
    .concat 3 4, .alternation 2 5]
  root := some 6

/-- What the root of `countingLexer` unfolds to. -/
def countingRules : Expr NodeId :=
  .alternation 6
    (.repetition 2 .star (.repetition 1 ⟨2, 2, false⟩ (.leaf 0 (.codepoint 0x61))))
    (.concat 5 (.leaf 3 (.codepoint lineStart))
      (.leaf 4 (.charset ⟨[.range ⟨0x61, 0x62, by decide⟩], false⟩)))

set_option maxRecDepth 5000 in
/-- One letter `a` is too few for the first rule of `countingLexer`, unless it is loosened. -/
theorem ofTree_recognizes_loosened_countingRules :
    countingLexer.rootExpr = .ok countingRules ∧ countingRules.AllLeaves Leaf.IsPlain ∧
      countingRules.AllLeaves Leaf.IsBounded ∧ countingRules.Valid ∧
      countingRules.isAlternation = true ∧
      Config.NeverTrims { lexer := true, expand := false } countingRules ∧
      ∃ d d', ofTree countingLexer { lexer := true, expand := false } = .ok d ∧
        ofTree countingLexer { lexer := true } = .ok d' ∧
        d.run ['a'] = some 0 ∧ d'.run ['a'] = some 1 ∧
        ∀ text : List Char,
          (∀ k, d.run text = some k ↔ IsLeast
            {i | ∃ x, (Config.rules { lexer := true, expand := false } countingRules)[i]? = some x ∧
              x.loosened.Matches text 0 text.length} k) ∧
          (d.run text = none ↔
            ∀ x ∈ Config.rules { lexer := true, expand := false } countingRules,
              ¬ x.loosened.Matches text 0 text.length) ∧
          ∀ k, d'.run text = some k → ∃ j ≤ k, d.run text = some j := by
  have hroot : countingLexer.rootExpr = .ok countingRules := by rfl
  have hplain : countingRules.AllLeaves Leaf.IsPlain := by decide
  have hbounded : countingRules.AllLeaves Leaf.IsBounded := by decide
  have hvalid : countingRules.Valid := by decide
  have hgreedy : countingRules.Greedy := by decide
  have htrim : Config.NeverTrims { lexer := true, expand := false } countingRules :=
    .inr (.inr hgreedy)
  obtain ⟨d, d', hd, hd', h⟩ :=
    ofTree_recognizes_loosened_rules hroot hplain hbounded hvalid (fun _ => rfl) rfl htrim
  have hrun : (ofTree countingLexer { lexer := true, expand := false }).map
      (·.run ['a']) = .ok (some 0) := by cbv
  have hrun' : (ofTree countingLexer { lexer := true }).map (·.run ['a']) =
      .ok (some 1) := by cbv
  have hd' : ofTree countingLexer { lexer := true } = .ok d' := hd'
  rw [hd] at hrun
  rw [hd'] at hrun'
  exact ⟨hroot, hplain, hbounded, hvalid, rfl, htrim, d, d', hd, hd', Except.ok.inj hrun,
    Except.ok.inj hrun', h⟩

end Automaton

end PositionAutomata
