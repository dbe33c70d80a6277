import PositionAutomata.Proofs.Construction.Trimming
import PositionAutomata.Proofs.Recognition

/-
  Trees built twice.

  A tree without anchors is built as its options say and once more without
  trimming. The second automaton accepts a text with the number of the first
  rule that matches all of it; the first one accepts the same unless the text is
  cut (`Config.BuiltTwice`). A text is cut only after a beginning that a rule
  matches, and never if no repetition is lazy.
-/

namespace PositionAutomata

theorem Config.Augments.analysis_anchorFree {c : Config} {u : Tree} {e f : Expr NodeId}
    (lazy captures : Bool) (haug : c.Augments e u f) (h : e.AllLeaves Leaf.IsAnchorFree) :
    (Analysis.ofExpr u f lazy captures).AnchorFree := by
  have hf : f.AllLeaves Leaf.IsAnchorFree :=
    haug.allLeaves (fun _ hr => absurd hr (by simp [Leaf.ranges]))
      (fun _ _ hr => absurd hr (by simp [Leaf.ranges])) h
  intro p o ho
  obtain ⟨x, hx, rfl⟩ := Positions.get?_ofExpr.mp ho
  exact Expr.allLeaves_iff.mp hf x hx.mem

theorem Analysis.anchorFree_of_analyze {c : Config} {t : Tree} {e : Expr NodeId} {a : Analysis}
    (hroot : t.rootExpr = .ok e) (h : c.analyze t = .ok a)
    (hanchor : e.AllLeaves Leaf.IsAnchorFree) : a.AnchorFree := by
  obtain ⟨_, _, haug, rfl⟩ := Config.augments_of_rootExpr hroot h
  exact haug.analysis_anchorFree _ _ hanchor

/-- The tree `t` of `e` has the analysis `a` and the automaton `d`, and without trimming the
automaton `d'`. -/
structure Config.BuiltTwice (c : Config) (t : Tree) (e : Expr NodeId) (a : Analysis)
    (d d' : Automaton) : Prop where
  analysis : c.analyze t = .ok a
  trimmed : Automaton.ofTree t c = .ok d
  untrimmed : Automaton.ofTree t { c with trim := false } = .ok d'
  recognizes (text : List Char) (n : Symbol) : d'.run text = some n ↔
    IsLeast {i | ∃ x, (c.rules e)[i]? = some x ∧ x.Matches text 0 text.length} n
  uncut (text : List Char) (n : Symbol) : d.run text = some n ↔ d'.run text = some n ∧
    (c.trim = true → c.lazy = true → ∀ j < text.length, ¬ a.Cut text j)
  matches_of_cut (text : List Char) (i : Nat) : a.Cut text i →
    ∃ x ∈ c.rules e, x.Matches text 0 i
  not_cut_of_greedy (text : List Char) (i : Nat) : e.Greedy → ¬ a.Cut text i

namespace Config

variable {c : Config} {t : Tree} {e : Expr NodeId} {a : Analysis} {d d' : Automaton}

theorem exists_builtTwice (hroot : t.rootExpr = .ok e) (hv : e.Valid)
    (hanchor : e.AllLeaves Leaf.IsAnchorFree) (hplain : e.AllLeaves Leaf.IsPlain)
    (hlexer : c.lexer = true → e.isAlternation = true) (hexp : c.expand = true) :
    ∃ a d d', c.BuiltTwice t e a d d' := by
  obtain ⟨u, f, haug, h⟩ := augments_of_valid hroot hv hlexer
  have hsharp : e.AllLeaves Leaf.IsSharp := hanchor.mono fun _ => Leaf.IsAnchorFree.isSharp
  have hb := h.analysis_bounded c.lazy c.captures
  have hl := h.analysis_lettered c.lazy c.captures hsharp
  have ha := h.analysis_anchorFree c.lazy c.captures hanchor
  have h' : { c with trim := false }.Augments e u f := ⟨h.root, h.shape, h.nodup, h.bounded⟩
  refine ⟨.ofExpr u f c.lazy c.captures, _, _, analyze_eq haug h.root,
    Automaton.ofTree_eq haug h.root, Automaton.ofTree_eq haug h.root, ?_, ?_, ?_, ?_⟩
  · exact fun text n => Analysis.run_eq_some_iff_matches h' hv hplain hsharp hexp (.inr (.inl rfl))
  · exact fun text n => Analysis.run_eq_some_iff_not_cut hb hl ha
  · exact fun text i hcut => (Analysis.exists_awaits_symbol_iff h hexp hv hplain).mp hcut.1
  · intro text i hgreedy h
    obtain ⟨_, p, r, q, _, hr, _⟩ := h
    rw [Analysis.parent?_of_greedy (h.greedy hgreedy)] at hr
    exact absurd hr (by simp)

/-- A tree that has an automaton is built twice. -/
theorem builtTwice_of_ofTree (hroot : t.rootExpr = .ok e)
    (hanchor : e.AllLeaves Leaf.IsAnchorFree) (hplain : e.AllLeaves Leaf.IsPlain)
    (hexp : c.expand = true) (hd : Automaton.ofTree t c = .ok d) :
    ∃ a d', c.BuiltTwice t e a d d' := by
  obtain ⟨e', he', hv, hlexer⟩ := Automaton.of_ofTree hd
  obtain rfl : e' = e := Except.ok.inj (he'.symm.trans hroot)
  obtain ⟨a, d₀, d', h⟩ := exists_builtTwice hroot hv hanchor hplain hlexer hexp
  obtain rfl : d₀ = d := Except.ok.inj (h.trimmed.symm.trans hd)
  exact ⟨a, d', h⟩

namespace BuiltTwice

variable {text : List Char}

theorem run_eq_none_of_cut (h : c.BuiltTwice t e a d d') (htrim : c.trim = true)
    (hlazy : c.lazy = true) {i : Nat} (hi : i < text.length) (hcut : a.Cut text i) :
    d.run text = none := by
  rw [Option.eq_none_iff_forall_ne_some]
  intro n hn
  exact ((h.uncut text n).mp hn).2 htrim hlazy i hi hcut

/-- What a rule matches is accepted without trimming, by this rule or an earlier one. -/
theorem exists_le_of_matches (h : c.BuiltTwice t e a d d') {i : Nat} {x : Expr NodeId}
    (hx : (c.rules e)[i]? = some x) (hm : x.Matches text 0 text.length) :
    ∃ j ≤ i, d'.run text = some j := by
  obtain ⟨j, hj⟩ := exists_isLeast
    (s := {i | ∃ x, (c.rules e)[i]? = some x ∧ x.Matches text 0 text.length}) ⟨i, x, hx, hm⟩
  exact ⟨j, hj.2 ⟨x, hx, hm⟩, (h.recognizes text j).mpr hj⟩

/-- Without trimming a text is accepted if some rule matches it. -/
theorem accepts_untrimmed_iff (h : c.BuiltTwice t e a d d') :
    d'.accepts text = true ↔ ∃ x ∈ c.rules e, x.Matches text 0 text.length := by
  rw [Automaton.accepts, Option.isSome_iff_exists]
  constructor
  · intro h
    obtain ⟨n, hn⟩ := h
    obtain ⟨x, hx, hm⟩ := ((h.recognizes text n).mp hn).1
    exact ⟨x, List.mem_of_getElem? hx, hm⟩
  · intro h
    obtain ⟨x, hx, hm⟩ := h
    obtain ⟨i, hi⟩ := List.mem_iff_getElem?.mp hx
    obtain ⟨j, _, hj⟩ := h.exists_le_of_matches hi hm
    exact ⟨j, hj⟩

/-- A text is accepted if it is accepted without trimming and is not cut. -/
theorem accepts_iff_uncut (h : c.BuiltTwice t e a d d') :
    d.accepts text = true ↔ d'.accepts text = true ∧
      (c.trim = true → c.lazy = true → ∀ i < text.length, ¬ a.Cut text i) := by
  simp only [Automaton.accepts, Option.isSome_iff_exists, h.uncut, exists_and_right]

end BuiltTwice

end Config

end PositionAutomata
