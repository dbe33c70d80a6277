import PositionAutomata.Proofs.Analysis.Laziness
import PositionAutomata.Proofs.Construction.Recognition

/-
  Correctness of the construction.

  As long as trimming cannot act, the automaton of a tree accepts a text with
  the number of the first rule that matches all of it, and rejects it if no rule
  does.
-/

namespace PositionAutomata

namespace Config

/-- The options leave trimming nothing to act on. -/
def NeverTrims (c : Config) (e : Expr NodeId) : Prop :=
  c.lazy = false ∨ c.trim = false ∨ e.Greedy

variable {c : Config} {t u : Tree} {e f : Expr NodeId} {text : List Char}

theorem mem_rules_greedy (h : e.Greedy) : ∀ x ∈ c.rules e, x.Greedy :=
  (forall_mem_rules fun _ _ _ => Iff.rfl).mpr h

theorem greedy_augmented (h : e.Greedy) : (c.augmented e).Greedy := by
  refine augmented_induction (fun x hx i => ⟨?_, trivial⟩) fun _ _ hl hr => ⟨hl, hr⟩
  rw [copied]
  split
  · exact (mem_rules_greedy h x hx).unrolled
  · exact Expr.greedy_map.mpr (mem_rules_greedy h x hx)

theorem Augments.greedy (haug : c.Augments e u f) (h : e.Greedy) : f.Greedy := by
  have hshape := greedy_augmented (c := c) h
  rw [← haug.shape] at hshape
  exact Expr.greedy_map.mp hshape

theorem Augments.allLeaves {p : Leaf → Prop} (haug : c.Augments e u f) (hp : p .empty)
    (hterm : ∀ n, p (.terminator n)) (h : e.AllLeaves p) : f.AllLeaves p := by
  have hshape := allLeaves_augmented (c := c) hp hterm h
  rw [← haug.shape] at hshape
  exact Expr.allLeaves_map.mp hshape

/-! ## The analysis of what is built -/

variable (lazy captures : Bool)

theorem Augments.analysis_bounded (haug : c.Augments e u f) :
    (Analysis.ofExpr u f lazy captures).Bounded := by
  obtain ⟨root, hroot⟩ := Analysis.exists_root_of_rootExpr haug.root
  exact Analysis.bounded_ofExpr hroot

theorem Augments.analysis_lettered (haug : c.Augments e u f) (h : e.AllLeaves Leaf.IsSharp) :
    (Analysis.ofExpr u f lazy captures).Lettered :=
  Analysis.lettered_ofExpr (haug.allLeaves (fun _ hr => absurd hr (by simp [Leaf.ranges]))
    (fun _ _ hr => absurd hr (by simp [Leaf.ranges])) h)

end Config

namespace Analysis

variable {a : Analysis} {c : Config} {k k' : Key}

theorem lettered_of_analyze {t : Tree} {e : Expr NodeId} (hroot : t.rootExpr = .ok e)
    (h : c.analyze t = .ok a) (hsharp : e.AllLeaves Leaf.IsSharp) : a.Lettered := by
  obtain ⟨_, _, haug, rfl⟩ := Config.augments_of_rootExpr hroot h
  exact haug.analysis_lettered _ _ hsharp

/-- Without lazy positions no step goes on with a lazy repetition. -/
theorem not_trims (h : ∀ p, a.laziness.parent? p = none) : ¬ a.Trims k k' := by
  intro h
  obtain ⟨_, hd⟩ := h
  have hempty : a.loopStarts k = ∅ := by
    rw [loopStarts, List.filterMap_eq_nil_iff.mpr fun p _ => h p]
    rfl
  rw [hempty, isDisjoint_empty] at hd
  exact absurd hd (by simp)

theorem keeps_of_neverTrims {t : Tree} {e f : Expr NodeId} (haug : c.Augments e t f)
    (h : c.NeverTrims e) (k k' : Key) : (ofExpr t f c.lazy c.captures).Keeps c k k' := by
  intro htrim hlazy
  rcases h with h | h | h
  · exact absurd hlazy (by simp [h])
  · exact absurd htrim (by simp [h])
  · exact not_trims (parent?_of_greedy (haug.greedy h))

/-- If trimming cannot act, a text is accepted with the number of the first rule that matches. -/
theorem run_eq_some_iff_matches {t : Tree} {e f : Expr NodeId} {text : List Char}
    (haug : c.Augments e t f) (hv : e.Valid) (hplain : e.AllLeaves Leaf.IsPlain)
    (hsharp : e.AllLeaves Leaf.IsSharp) (hexp : c.expand = true) (htrim : c.NeverTrims e)
    {n : Symbol} :
    (Automaton.ofAnalysis (ofExpr t f c.lazy c.captures) c).run text = some n ↔
      IsLeast {i | ∃ x, (c.rules e)[i]? = some x ∧ x.Matches text 0 text.length} n := by
  rw [run_eq_some_iff_awaits (haug.analysis_bounded _ _) (haug.analysis_lettered _ _ hsharp)
    (keeps_of_neverTrims haug htrim)]
  simp only [awaits_symbol_iff haug hexp hv hplain]

end Analysis

namespace Automaton

/-- The automaton of a tree without terminators, in which repetitions have a minimum up to their
maximum and charsets name no range above the code points, accepts a text with the number of the
first rule that matches all of it and rejects it if there is none. -/
theorem ofTree_recognizes_rules {t : Tree} {c : Config} {e : Expr NodeId}
    (hroot : t.rootExpr = .ok e) (hplain : e.AllLeaves Leaf.IsPlain)
    (hbounded : e.AllLeaves Leaf.IsBounded) (hvalid : e.Valid)
    (hlexer : c.lexer = true → e.isAlternation = true) (hexpand : c.expand = true)
    (htrim : c.NeverTrims e) :
    ∃ d, ofTree t c = .ok d ∧ ∀ text : List Char,
      (∀ k, d.run text = some k ↔
        IsLeast {i | ∃ x, (c.rules e)[i]? = some x ∧ x.Matches text 0 text.length} k) ∧
      (d.run text = none ↔ ∀ x ∈ c.rules e, ¬ x.Matches text 0 text.length) := by
  obtain ⟨u, f, haug, hd⟩ := ofTree_of_valid hroot hvalid hlexer
  have hsharp : e.AllLeaves Leaf.IsSharp := hbounded.mono fun _ => Leaf.IsBounded.isSharp
  have hrun : ∀ text n, Automaton.run _ text = some n ↔
      IsLeast {i | ∃ x, (c.rules e)[i]? = some x ∧ x.Matches text 0 text.length} n := fun _ _ =>
    Analysis.run_eq_some_iff_matches haug hvalid hplain hsharp hexpand htrim
  refine ⟨_, hd, fun text => ⟨hrun text, ?_⟩⟩
  constructor
  -- If some rule matches, one matches first.
  · intro hnone x hx hm
    obtain ⟨i, hi⟩ := List.mem_iff_getElem?.mp hx
    obtain ⟨n, hn⟩ := exists_isLeast
      (s := {i | ∃ x, (c.rules e)[i]? = some x ∧ x.Matches text 0 text.length}) ⟨i, x, hi, hm⟩
    rw [(hrun text n).mpr hn] at hnone
    exact absurd hnone (by simp)
  · intro h
    cases hr : Automaton.run _ text with
    | none => rfl
    | some n =>
      obtain ⟨x, hx, hm⟩ := ((hrun text n).mp hr).1
      exact absurd hm (h x (List.mem_of_getElem? hx))

/-- A lexer of two rules: letters `a` at a line start, and two or three letters up to `c`. -/
def lineLexer : Tree where
  nodes := #[.leaf (.codepoint lineStart), .leaf (.codepoint 0x61), .repetition 1 .star,
    .concat 0 2, .leaf (.charset ⟨[.range ⟨0x61, 0x63, by decide⟩], false⟩),
    .repetition 4 ⟨2, 3, false⟩, .alternation 3 5]
  root := some 6

/-- What the root of `lineLexer` unfolds to. -/
def lineRules : Expr NodeId :=
  .alternation 6
    (.concat 3 (.leaf 0 (.codepoint lineStart)) (.repetition 2 .star (.leaf 1 (.codepoint 0x61))))
    (.repetition 5 ⟨2, 3, false⟩ (.leaf 4 (.charset ⟨[.range ⟨0x61, 0x63, by decide⟩], false⟩)))

theorem ofTree_recognizes_lineRules :
    lineLexer.rootExpr = .ok lineRules ∧ lineRules.AllLeaves Leaf.IsPlain ∧
      lineRules.AllLeaves Leaf.IsBounded ∧ lineRules.Valid ∧ lineRules.isAlternation = true ∧
      Config.NeverTrims { lexer := true } lineRules ∧
      ∃ d, ofTree lineLexer { lexer := true } = .ok d ∧ ∀ text : List Char,
        (∀ k, d.run text = some k ↔
          IsLeast {i | ∃ x, (Config.rules { lexer := true } lineRules)[i]? = some x ∧
            x.Matches text 0 text.length} k) ∧
        (d.run text = none ↔
          ∀ x ∈ Config.rules { lexer := true } lineRules, ¬ x.Matches text 0 text.length) := by
  have hroot : lineLexer.rootExpr = .ok lineRules := by rfl
  have hplain : lineRules.AllLeaves Leaf.IsPlain := by decide
  have hbounded : lineRules.AllLeaves Leaf.IsBounded := by decide
  have hvalid : lineRules.Valid := by decide
  have hgreedy : lineRules.Greedy := by decide
  have htrim : Config.NeverTrims { lexer := true } lineRules := .inr (.inr hgreedy)
  exact ⟨hroot, hplain, hbounded, hvalid, rfl, htrim,
    ofTree_recognizes_rules hroot hplain hbounded hvalid (fun _ => rfl) rfl htrim⟩

end Automaton

end PositionAutomata
