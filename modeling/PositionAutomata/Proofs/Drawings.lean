import Mathlib
import PositionAutomata.Proofs.Document.Names
import PositionAutomata.Proofs.Drawing.Lines

/-
  Drawings of the automata of documents.

  The names of the groups of a document are words, so they keep to their lines, and
  the states of a built automaton are numbered as the closure lists them. So the
  lines of a drawing say which edges and nodes there are, each once, and whatever
  the letters of an edge, its label is read as their text
  (`statements_of_document`). A name of a group stands in a label as it is written in
  the document. The label is read with the markup of its table alone if no such name
  has a `<`, a `>` or an `&`; else there is other markup in it, or it cannot be read
  (`label_of_angleName`).
-/

namespace PositionAutomata

theorem Lexer.IsWord.oneLine {cs : List Char} (h : IsWord cs) : OneLine cs := fun hm =>
  absurd (h '\n' hm) (by decide)

namespace Automaton

variable {d : Automaton} {t : Tree} {c : Config} {document : String}

theorem exists_bounded_of_ofTree (hd : ofTree t c = .ok d) :
    ∃ a : Analysis, a.Bounded ∧ ofAnalysis a c = d := by
  obtain ⟨a, ha, rfl⟩ := exists_analyze_of_ofTree hd
  obtain ⟨_, _, _, _, haug, rfl⟩ := Config.augments_of_analyze ha
  exact ⟨_, haug.analysis_bounded _ _, rfl⟩

theorem wellFormed_of_ofTree (hd : ofTree t c = .ok d) : d.WellFormed := by
  obtain ⟨a, hb, rfl⟩ := exists_bounded_of_ofTree hd
  exact Analysis.wellFormed_ofAnalysis hb c

/-- The states of a built automaton are numbered as they are reached. -/
theorem newId_of_ofTree (hd : ofTree t c = .ok d) {q : StateId} (hq : q ∈ d.order) :
    d.newId q = q := by
  obtain ⟨a, hb, rfl⟩ := exists_bounded_of_ofTree hd
  have horder : (ofAnalysis a c).order = List.range (ofAnalysis a c).size :=
    Analysis.closure_ofAnalysis hb c
  rw [horder, List.mem_range] at hq
  exact newId_of_getElem? (by rw [horder, List.getElem?_range hq])

/-- The names of the groups of a document are on one line. -/
theorem lineNames_of_ofTree (ht : Tree.ofString document = .ok t) (hd : ofTree t c = .ok d) :
    ∀ q ∈ d.order, (d.stateAt q).LineNames := by
  intro q hq e he name hname
  obtain ⟨x, hroot, _, _⟩ := of_ofTree hd
  obtain ⟨s, hs⟩ := exists_get? (lt_size_of_mem_order hq)
  rw [stateAt, hs, Option.getD_some] at he
  have hgroup : Group.Worded e.toGroup :=
    group_of_mem_events hroot (Tree.rootExpr_worded ht hroot) hd hs he
  exact (hgroup name hname).oneLine

end Automaton

namespace Drawing

variable {d : Automaton} {t : Tree} {c : Config} {document : String}

/-- What the lines of the drawing of a document say: between the heading and the closing brace is a
line for each edge and each node. There is one edge for each state that is reached and each target
of its transitions, and its label, without the backslashes that escape, is the text of the ranges
that lead there. There is one node for each state that is reached. The label of a node is read with
the markup of its table and no other exactly if no name of a group in it has a character that marks
up. -/
theorem statements_of_document (ht : Tree.ofString document = .ok t)
    (hd : Automaton.ofTree t c = .ok d) :
    (∃ ls, lines d = heading ++ ls ++ [['\x7d']] ∧
      ls.length = (edges d).length + (nodeNames d).length) ∧
    (∀ e, e ∈ edges d ↔ ∃ q r, q ∈ d.closure d.start ∧ r ∈ d.successors q ∧
      e = ⟨node q, node r, Label.chars (d.rangesTo q r)⟩) ∧
    ((edges d).map fun e => (e.source, e.target)).Nodup ∧
    nodeNames d = (d.closure d.start).map node ∧ (nodeNames d).Nodup ∧
    ∀ q ∈ d.closure d.start, ∀ line ∈ lines d, nodeName? line = some (node q) →
      ((∃ n, NodeStatement.ofLine? line = some n ∧ n.markup = tableMarkup (d.stateAt q)) ↔
        PlainNames (d.stateAt q)) := by
  have hnames := Automaton.lineNames_of_ofTree ht hd
  have hid : ∀ {q}, q ∈ d.order → d.newId q = q := Automaton.newId_of_ofTree hd
  have wf := Automaton.wellFormed_of_ofTree hd
  refine ⟨exists_lines_eq hnames, fun e => ?_, nodup_edges wf hnames, ?_, nodup_nodeNames hnames,
    fun q hq line hline hname => ?_⟩
  · rw [mem_edges hnames]
    refine exists₂_congr fun q r => and_congr_right fun hq => and_congr_right fun hr => ?_
    rw [hid hq, hid (Automaton.successor_mem_order wf hq hr)]
  · rw [nodeNames_eq hnames]
    exact List.map_congr_left fun q hq => congrArg node (hid hq)
  · obtain ⟨q', hq', hnode, rfl⟩ := exists_of_nodeName? hnames hline hname
    rw [hid hq'] at hnode
    obtain rfl := node_injective hnode
    exact NodeStatement.ofLine?_nodeText_iff

/-- A group around a quote or a backslash, which are escaped in the label of its edge. -/
def wordName : String := "(capture word [\"\\\\])"

/-- The same group with a name that begins a tag. -/
def angleName : String := "(capture < [\"\\\\])"

/-- The tree of such a document. -/
def namedTree (name : String) : Tree where
  nodes := #[.leaf (.charset ⟨[.char 0x22, .char 0x5c], false⟩), .capture 0 ⟨1, some name⟩]
  root := some 1

/-- The automaton of such a tree. -/
def namedAutomaton (name : String) : Automaton where
  states := #[
    ⟨[⟨.single 0x22, 1⟩, ⟨.single 0x5c, 1⟩], none, [⟨1, true, some name⟩, ⟨1, false, some name⟩]⟩,
    ⟨[], some 0, []⟩]
  start := 0

theorem ofString_names : Tree.ofString wordName = .ok (namedTree "word") ∧
    Tree.ofString angleName = .ok (namedTree "<") := by
  constructor <;> cbv

set_option maxRecDepth 4000 in
theorem ofTree_namedTree (name : String) :
    Automaton.ofTree (namedTree name) {} = .ok (namedAutomaton name) ∧
      (namedAutomaton name).order = [0, 1] ∧
      Label.chars ((namedAutomaton name).rangesTo 0 1) = "[\"\\\\]".toList := by
  refine ⟨?_, by cbv, by cbv⟩
  have hanalysis : ∃ u f, Config.augment {} (namedTree name) = .ok u ∧ u.rootExpr = .ok f ∧
      (Analysis.ofExpr u f true true).synthesized = namedAutomaton name ∧
      (Analysis.ofExpr u f true true).trim (Analysis.ofExpr u f true true).keys.toArray
        (namedAutomaton name) = namedAutomaton name := by
    refine ⟨⟨(namedTree name).nodes ++ #[.leaf (.terminator 0), .concat 1 2], some 3⟩,
      .concat 3 (.capture 1 ⟨1, some name⟩
        (.leaf 0 (.charset ⟨[.char 0x22, .char 0x5c], false⟩))) (.leaf 2 (.terminator 0)), ?_, ?_,
      ?_, ?_⟩ <;> cbv
  have hprune : (namedAutomaton name).prune.2 = namedAutomaton name := by cbv
  have hretain : (namedAutomaton name).retainReachable = namedAutomaton name := by cbv
  obtain ⟨u, f, haug, hroot, hsynthesized, htrim⟩ := hanalysis
  have hstages : Automaton.ofAnalysis (.ofExpr u f true true) {} =
      ((Analysis.ofExpr u f true true).trim (Analysis.ofExpr u f true true).keys.toArray
        (Analysis.ofExpr u f true true).synthesized.prune.2).retainReachable := rfl
  rw [hsynthesized, hprune, htrim, hretain] at hstages
  rw [Automaton.ofTree_eq haug hroot]
  exact congrArg Except.ok hstages

theorem plainNames_namedAutomaton {name : String} (h : ∀ c ∈ name.toList, isMark c = false) :
    PlainNames ((namedAutomaton name).stateAt 0) := by
  have hevents : ((namedAutomaton name).stateAt 0).events =
      [⟨1, true, some name⟩, ⟨1, false, some name⟩] := rfl
  intro e he _ hname
  rw [hevents, List.mem_pair] at he
  obtain rfl | rfl := he
  all_goals
    cases hname
    exact h

set_option maxRecDepth 4000 in
theorem statements_of_wordName :
    Tree.ofString wordName = .ok (namedTree "word") ∧
      Automaton.ofTree (namedTree "word") {} = .ok (namedAutomaton "word") ∧
      ⟨['q', '0'], ['q', '1'], "[\"\\\\]".toList⟩ ∈ edges (namedAutomaton "word") ∧
      nodeNames (namedAutomaton "word") = [['q', '0'], ['q', '1']] ∧
      ∃ line ∈ lines (namedAutomaton "word"), nodeName? line = some ['q', '0'] ∧
        ∃ n, NodeStatement.ofLine? line = some n ∧
          n.markup = tableMarkup ((namedAutomaton "word").stateAt 0) := by
  obtain ⟨ht, _⟩ := ofString_names
  obtain ⟨hd, horder, hlabel⟩ := ofTree_namedTree "word"
  rw [Automaton.order] at horder
  have hplain : PlainNames ((namedAutomaton "word").stateAt 0) :=
    plainNames_namedAutomaton (by simp [isMark])
  obtain ⟨_, hedges, _, hnames, _, hmarkup⟩ := statements_of_document ht hd
  rw [horder] at hedges hnames hmarkup
  have hname : ['q', '0'] ∈ nodeNames (namedAutomaton "word") := by
    rw [hnames]
    decide
  obtain ⟨line, hline, hnode⟩ := List.mem_filterMap.mp hname
  refine ⟨ht, hd, (hedges _).mpr ⟨0, 1, by decide, by decide, ?_⟩, hnames, line, hline, hnode,
    (hmarkup 0 (by decide) line hline hnode).mpr hplain⟩
  rw [hlabel]
  rfl

set_option maxRecDepth 4000 in
theorem label_of_angleName :
    Tree.ofString angleName = .ok (namedTree "<") ∧
      Automaton.ofTree (namedTree "<") {} = .ok (namedAutomaton "<") ∧
      ∃ q ∈ (namedAutomaton "<").closure (namedAutomaton "<").start,
        ∃ line ∈ lines (namedAutomaton "<"), nodeName? line = some (node q) ∧
          NodeStatement.ofLine? line = none := by
  obtain ⟨_, ht⟩ := ofString_names
  obtain ⟨hd, horder, _⟩ := ofTree_namedTree "<"
  have hmem : 0 ∈ (namedAutomaton "<").order := by
    rw [horder]
    decide
  have hline := nodeText_mem_lines (Automaton.lineNames_of_ofTree ht hd) hmem
  rw [Automaton.newId_of_ofTree hd hmem] at hline
  refine ⟨ht, hd, 0, hmem, _, hline, nodeName?_nodeText, ?_⟩
  rw [NodeStatement.ofLine?, nodeHead?_nodeText]
  rfl

end Drawing

end PositionAutomata
