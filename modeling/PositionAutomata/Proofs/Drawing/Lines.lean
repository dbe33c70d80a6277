import Mathlib
import PositionAutomata.Proofs.Automaton.Grouping
import PositionAutomata.Proofs.Automaton.Renumbering
import PositionAutomata.Proofs.Drawing.Statements

/-
  The lines of a drawing.

  A label has no line feed, whatever its ranges (`oneLine_label`), so unless a name of
  a group has one, the lines of a drawing are the heading, a line for each state that
  is reached and each target of its transitions, a line for each state, and the
  closing brace (`lines_eq`).
-/

namespace PositionAutomata

/-- The text has no line feed. -/
def OneLine (cs : List Char) : Prop := '\n' ∉ cs

theorem oneLine_nil : OneLine [] := List.not_mem_nil

theorem oneLine_singleton {c : Char} (h : c ≠ '\n') : OneLine [c] := fun hm =>
  h (List.mem_singleton.mp hm).symm

theorem OneLine.append {xs ys : List Char} (hx : OneLine xs) (hy : OneLine ys) :
    OneLine (xs ++ ys) := fun h => (List.mem_append.mp h).elim hx hy

theorem OneLine.cons {c : Char} {cs : List Char} (hc : c ≠ '\n') (h : OneLine cs) :
    OneLine (c :: cs) := (oneLine_singleton hc).append h

theorem OneLine.flatMap {α : Type} {xs : List α} {f : α → List Char} (h : ∀ x ∈ xs, OneLine (f x)) :
    OneLine (xs.flatMap f) := fun hm => by
  obtain ⟨x, hx, hmem⟩ := List.mem_flatMap.mp hm
  exact h x hx hmem

/-! ## Labels -/

theorem Text.ne_newline_of_mem_toDigits (n : Nat) : ∀ d ∈ Nat.toDigits 16 n, d ≠ '\n' := by
  have hdigit : ∀ k < 16, Nat.digitChar k ≠ '\n' := by decide
  induction n using Nat.strongRecOn with
  | ind n ih =>
    intro d hd
    by_cases hn : n < 16
    · rw [Nat.toDigits_of_lt_base hn, List.mem_singleton] at hd
      exact hd ▸ hdigit n hn
    · rw [Nat.toDigits_of_base_le (by decide) (Nat.not_lt.mp hn), List.mem_append,
        List.mem_singleton] at hd
      rcases hd with hd | rfl
      · exact ih (n / 16) (Nat.div_lt_self (by omega) (by decide)) d hd
      · exact hdigit _ (Nat.mod_lt n (by decide))

theorem Text.oneLine_hexDigits (width n : Nat) : OneLine (hexDigits width n) := by
  rw [hexDigits, List.leftpad]
  refine .append (fun h => ?_) fun h => ne_newline_of_mem_toDigits n _ h rfl
  exact absurd (List.eq_of_mem_replicate h) (by decide)

theorem Text.oneLine_encodeChar (c : Char) : OneLine (encodeChar c) := by
  rw [encodeChar]
  split
  · exact .cons (by decide) (oneLine_singleton (by decide))
  split
  · exact .cons (by decide) (oneLine_singleton (by decide))
  split
  · exact .cons (by decide) (oneLine_singleton (by decide))
  split
  · exact .cons (by decide) (oneLine_singleton (by decide))
  split
  · exact .cons (by decide) (.cons (by decide) (oneLine_hexDigits 2 c.toNat))
  next hnewline _ _ => exact oneLine_singleton hnewline

theorem oneLine_codepointChars (n : Nat) : OneLine (codepointChars n) := by
  rw [codepointChars]
  split
  · exact .cons (by decide) (.cons (by decide) (oneLine_singleton (by decide)))
  split
  · exact .cons (by decide) (.cons (by decide) (oneLine_singleton (by decide)))
  split
  · exact Text.oneLine_encodeChar _
  · exact .cons (by decide) (.cons (by decide) (Text.oneLine_hexDigits 4 n))

theorem Range.oneLine_chars (r : Range) : OneLine r.chars := by
  rw [chars]
  split
  · exact oneLine_codepointChars _
  split
  · exact (oneLine_codepointChars _).append (oneLine_codepointChars _)
  · exact (oneLine_codepointChars _).append (.cons (by decide) (oneLine_codepointChars _))

namespace Label

theorem oneLine_body (rs : List Range) : OneLine (body rs) := by
  simp only [body]
  split
  · exact oneLine_singleton (by decide)
  split
  · exact .cons (by decide) (.flatMap fun r _ => r.oneLine_chars)
  · exact .flatMap fun r _ => r.oneLine_chars

theorem oneLine_bracket {cs : List Char} (h : OneLine cs) : OneLine (bracket cs) := by
  have htake : OneLine (cs.take maxLength) := fun hm => h (List.mem_of_mem_take hm)
  rw [bracket]
  split
  · exact .append (.cons (by decide) htake) (by simp [OneLine])
  split
  · exact .append (.cons (by decide) h) (oneLine_singleton (by decide))
  · exact h

theorem oneLine_label (rs : List Range) : OneLine (chars rs) := by
  simp only [chars]
  refine .append (.flatMap fun r _ => r.oneLine_chars) ?_
  split
  · exact oneLine_nil
  · exact oneLine_bracket (oneLine_body _)

end Label

/-! ## Lines -/

/-- No name of a group in the state has a line feed. -/
def State.LineNames (q : State) : Prop := ∀ e ∈ q.events, ∀ name ∈ e.name, OneLine name.toList

theorem oneLine_repr (n : Nat) : OneLine n.repr.toList := fun h =>
  absurd (Drawing.isDigit_of_mem_repr h) (by decide)

theorem CaptureEvent.oneLine_chars {e : CaptureEvent} (h : ∀ name ∈ e.name, OneLine name.toList) :
    OneLine e.chars := by
  have hkind : OneLine (if e.isStart then "start(" else "end(").toList := by
    split <;> simp [OneLine]
  have hname : OneLine (e.name.elim [] fun name => ", ".toList ++ name.toList) := by
    cases hn : e.name with
    | none => exact oneLine_nil
    | some name => exact .append (by simp [OneLine]) (h name hn)
  exact ((hkind.append (oneLine_repr _)).append hname).append (oneLine_singleton (by decide))

namespace Drawing

theorem oneLine_node (i : Nat) : OneLine (node i) := .cons (by decide) (oneLine_repr i)

theorem oneLine_escape {cs : List Char} (h : OneLine cs) : OneLine (escape cs) := by
  refine .flatMap fun c hc => ?_
  have hne : c ≠ '\n' := fun heq => h (heq ▸ hc)
  split
  · exact .cons (by decide) (oneLine_singleton hne)
  · exact oneLine_singleton hne

theorem oneLine_edgeText (source target : Nat) (rs : List Range) :
    OneLine (edgeText source target rs) := by
  have harrow : OneLine " -> ".toList := by simp [OneLine]
  have hopen : OneLine " [ label=\"".toList := by simp [OneLine]
  have hclose : OneLine "\" ]".toList := by simp [OneLine]
  have hsource : OneLine ('\t' :: node source) := .cons (by decide) (oneLine_node source)
  exact ((((hsource.append harrow).append (oneLine_node target)).append hopen).append
    (oneLine_escape (Label.oneLine_label rs))).append hclose

theorem oneLine_row {cs : List Char} (h : OneLine cs) : OneLine (row cs) := by
  have hopen : OneLine "<TR><TD>".toList := by simp [OneLine]
  have hclose : OneLine "</TD></TR>".toList := by simp [OneLine]
  exact (hopen.append h).append hclose

theorem oneLine_labelText {q : State} (h : q.LineNames) (i : Nat) : OneLine (labelText i q) := by
  have hopen : OneLine "<TABLE BORDER=\"0\">".toList := by simp [OneLine]
  have hclose : OneLine "</TABLE>".toList := by simp [OneLine]
  have hbegin : OneLine "q<SUB>".toList := by simp [OneLine]
  have hend : OneLine "</SUB>".toList := by simp [OneLine]
  have hnumber := oneLine_row ((hbegin.append (oneLine_repr i)).append hend)
  have hsymbol : OneLine (q.accept.elim [] fun symbol => row symbol.repr.toList) := by
    cases q.accept with
    | none => exact oneLine_nil
    | some symbol => exact oneLine_row (oneLine_repr symbol)
  have hevents : OneLine (q.events.flatMap fun e => row e.chars) :=
    .flatMap fun e he => oneLine_row (CaptureEvent.oneLine_chars (h e he))
  exact ((((hopen.append hnumber).append hsymbol)).append hevents).append hclose

theorem oneLine_nodeText {q : State} (h : q.LineNames) (i : Nat) : OneLine (nodeText i q) := by
  have hopen : OneLine " [ label=<".toList := by simp [OneLine]
  have hclose : OneLine " ]".toList := by simp [OneLine]
  have hshape : OneLine (shape q) := by
    rw [shape]
    split
    · simp [OneLine]
    split <;> simp [OneLine]
  have hname : OneLine ('\t' :: node i) := .cons (by decide) (oneLine_node i)
  exact ((hname.append hopen).append (oneLine_labelText h i)).append
    (.cons (by decide) (hshape.append hclose))

end Drawing

/-! ## States and links -/

namespace Automaton

variable {a : Automaton} {q r : StateId}

/-- The state of a number; a number without a state has the empty one. -/
def stateAt (a : Automaton) (q : StateId) : State := (a.get? q).getD default

/-- The ranges that lead from a state to another one, in normal form. -/
def rangesTo (a : Automaton) (q r : StateId) : List Range :=
  Range.normalize (((a.stateAt q).transitions.filter (·.target = r)).map Transition.range)

/-- Each state that is reached with each target of its transitions, in order. -/
def links (a : Automaton) : List (StateId × StateId) :=
  a.order.flatMap fun q => (a.successors q).eraseDups.map (q, ·)

theorem successors_eq_stateAt (a : Automaton) (q : StateId) :
    a.successors q = (a.stateAt q).successors := by
  rw [successors, stateAt]
  cases a.get? q <;> rfl

theorem mem_links : (q, r) ∈ a.links ↔ q ∈ a.order ∧ r ∈ a.successors q := by
  simp [links]

theorem nodup_links (a : Automaton) : a.links.Nodup := by
  refine List.nodup_flatMap.mpr ⟨fun q _ => ?_, a.nodup_order.imp fun {q q'} hne l hl hl' => ?_⟩
  · exact (nodup_eraseDups _).map fun r r' h => congrArg Prod.snd h
  · obtain ⟨r, _, rfl⟩ := List.mem_map.mp hl
    obtain ⟨r', _, heq⟩ := List.mem_map.mp hl'
    exact hne (congrArg Prod.fst heq).symm

theorem newId_inj (hq : q ∈ a.order) (hr : r ∈ a.order) (h : a.newId q = a.newId r) : q = r := by
  have hget := getElem?_newId hq
  rw [h, getElem?_newId hr] at hget
  exact (Option.some.inj hget).symm

/-- The states that are reached with their new numbers. -/
theorem zipIdx_states (a : Automaton) :
    (a.order.filterMap a.get?).zipIdx = a.order.map fun q => (a.stateAt q, a.newId q) := by
  refine List.ext_getElem? fun i => ?_
  have hstates : ∀ q ∈ a.order, (a.get? q).isSome = true := fun q hq => by
    obtain ⟨s, hs⟩ := exists_get? (lt_size_of_mem_order hq)
    rw [hs]
    rfl
  rw [List.getElem?_zipIdx, getElem?_filterMap_of_isSome hstates, List.getElem?_map]
  cases hi : a.order[i]? with
  | none => rfl
  | some q =>
    obtain ⟨s, hs⟩ := exists_get? (lt_size_of_mem_order (List.mem_of_getElem? hi))
    simp [stateAt, hs, newId_of_getElem? hi]

end Automaton

/-! ## Drawings -/

namespace Drawing

variable {a : Automaton}

/-- The lines of a drawing. -/
def lines (a : Automaton) : List (List Char) := (chars a).splitOn '\n'

/-- The lines before those of edges and nodes. -/
def heading : List (List Char) :=
  ["digraph FA \x7b".toList, "\trankdir=LR".toList, "\tnode [shape=circle]".toList]

/-- The lines of the edges. -/
def edgeTexts (a : Automaton) : List (List Char) :=
  a.links.map fun (q, r) => edgeText (a.newId q) (a.newId r) (a.rangesTo q r)

/-- The lines of the nodes. -/
def nodeTexts (a : Automaton) : List (List Char) :=
  a.order.map fun q => nodeText (a.newId q) (a.stateAt q)

/-- Lines that line feeds end, and a last one, are found again. -/
theorem splitOn_lines {ls : List (List Char)} {last : List Char} (h : ∀ l ∈ ls, OneLine l)
    (hlast : OneLine last) :
    ((ls.flatMap fun l => l ++ ['\n']) ++ last).splitOn '\n' = ls ++ [last] := by
  induction ls with
  | nil => exact List.splitOn_eq_singleton hlast
  | cons l ls ih =>
    obtain ⟨hl, hls⟩ := List.forall_mem_cons.mp h
    rw [List.flatMap_cons, List.append_assoc, List.append_assoc, List.singleton_append,
      List.splitOn_append_cons_self_of_not_mem hl, ih hls]
    rfl

theorem edgeLines_eq (a : Automaton) :
    (a.order.flatMap fun q => (a.stateAt q).grouped.flatMap fun g =>
      edgeLine (a.newId q) (a.newId g.1) g.2) = (edgeTexts a).flatMap fun l => l ++ ['\n'] := by
  rw [edgeTexts, List.flatMap_map, Automaton.links, List.flatMap_assoc]
  refine List.flatMap_congr fun q _ => ?_
  rw [State.grouped, List.flatMap_map, List.flatMap_map, State.firsts_eq_eraseDups,
    a.successors_eq_stateAt]
  exact List.flatMap_congr fun r _ => edgeLine_eq

theorem nodeLines_eq (a : Automaton) :
    (a.order.flatMap fun q => nodeLine (a.newId q) (a.stateAt q)) =
      (nodeTexts a).flatMap fun l => l ++ ['\n'] := by
  rw [nodeTexts, List.flatMap_map]
  exact List.flatMap_congr fun q _ => nodeLine_eq

/-- A drawing is its lines, each ended by a line feed, and the closing brace. -/
theorem chars_eq (a : Automaton) :
    chars a =
      ((heading ++ edgeTexts a ++ nodeTexts a).flatMap fun l => l ++ ['\n']) ++ ['\x7d'] := by
  have hheading : "digraph FA \x7b\n\trankdir=LR\n\tnode [shape=circle]\n".toList =
      heading.flatMap fun l => l ++ ['\n'] := rfl
  rw [List.flatMap_append, List.flatMap_append, ← edgeLines_eq, ← nodeLines_eq, ← hheading]
  unfold chars
  show _ ++ ((a.order.filterMap a.get?).zipIdx.flatMap fun p => p.1.grouped.flatMap fun g =>
      edgeLine p.2 (a.newId g.1) g.2) ++
    ((a.order.filterMap a.get?).zipIdx.flatMap fun p => nodeLine p.2 p.1) ++ _ = _
  rw [a.zipIdx_states, List.flatMap_map, List.flatMap_map]

theorem oneLine_heading : ∀ l ∈ heading, OneLine l := by
  simp [heading, OneLine]

theorem lines_eq (h : ∀ q ∈ a.order, (a.stateAt q).LineNames) :
    lines a = heading ++ edgeTexts a ++ nodeTexts a ++ [['\x7d']] := by
  rw [lines, chars_eq]
  refine splitOn_lines (fun l hl => ?_) (oneLine_singleton (by decide))
  rcases List.mem_append.mp hl with hl | hl
  · rcases List.mem_append.mp hl with hl | hl
    · exact oneLine_heading l hl
    · obtain ⟨⟨q, r⟩, _, rfl⟩ := List.mem_map.mp hl
      exact oneLine_edgeText _ _ _
  · obtain ⟨q, hq, rfl⟩ := List.mem_map.mp hl
    exact oneLine_nodeText (h q hq) _

/-! ## What the lines say -/

/-- The edges of a drawing, as its lines have them. -/
def edges (a : Automaton) : List EdgeStatement := (lines a).filterMap EdgeStatement.ofLine?

/-- The names of the nodes of a drawing, as its lines have them. -/
def nodeNames (a : Automaton) : List (List Char) := (lines a).filterMap nodeName?

theorem edges_eq (h : ∀ q ∈ a.order, (a.stateAt q).LineNames) :
    edges a = a.links.map fun (q, r) =>
      ⟨node (a.newId q), node (a.newId r), Label.chars (a.rangesTo q r)⟩ := by
  have hheading : heading.filterMap EdgeStatement.ofLine? = [] := rfl
  have hlast : [['\x7d']].filterMap EdgeStatement.ofLine? = [] := rfl
  have hnodes : (nodeTexts a).filterMap EdgeStatement.ofLine? = [] := by
    rw [nodeTexts, List.filterMap_map, List.filterMap_eq_nil_iff]
    intro q _
    rw [Function.comp_apply, EdgeStatement.ofLine?_nodeText]
  have hedges : (edgeTexts a).filterMap EdgeStatement.ofLine? = a.links.map fun (q, r) =>
      ⟨node (a.newId q), node (a.newId r), Label.chars (a.rangesTo q r)⟩ := by
    rw [edgeTexts, List.filterMap_map, ← List.filterMap_eq_map]
    refine List.filterMap_congr fun l _ => ?_
    rw [Function.comp_apply, EdgeStatement.ofLine?_edgeText, Function.comp_apply]
  rw [edges, lines_eq h, List.filterMap_append, List.filterMap_append, List.filterMap_append,
    hheading, hlast, hnodes, hedges, List.nil_append, List.append_nil, List.append_nil]

/-- There is an edge for each state that is reached and each target of its transitions. -/
theorem mem_edges (h : ∀ q ∈ a.order, (a.stateAt q).LineNames) {e : EdgeStatement} :
    e ∈ edges a ↔ ∃ q r, q ∈ a.order ∧ r ∈ a.successors q ∧
      e = ⟨node (a.newId q), node (a.newId r), Label.chars (a.rangesTo q r)⟩ := by
  rw [edges_eq h, List.mem_map]
  constructor
  · rintro ⟨⟨q, r⟩, hl, rfl⟩
    obtain ⟨hq, hr⟩ := Automaton.mem_links.mp hl
    exact ⟨q, r, hq, hr, rfl⟩
  · rintro ⟨q, r, hq, hr, rfl⟩
    exact ⟨(q, r), Automaton.mem_links.mpr ⟨hq, hr⟩, rfl⟩

theorem nodeNames_eq (h : ∀ q ∈ a.order, (a.stateAt q).LineNames) :
    nodeNames a = a.order.map fun q => node (a.newId q) := by
  have hheading : heading.filterMap nodeName? = [] := rfl
  have hlast : [['\x7d']].filterMap nodeName? = [] := rfl
  have hedges : (edgeTexts a).filterMap nodeName? = [] := by
    rw [edgeTexts, List.filterMap_map, List.filterMap_eq_nil_iff]
    rintro ⟨q, r⟩ _
    rw [Function.comp_apply, nodeName?_edgeText]
  have hnodes : (nodeTexts a).filterMap nodeName? = a.order.map fun q => node (a.newId q) := by
    rw [nodeTexts, List.filterMap_map, ← List.filterMap_eq_map]
    refine List.filterMap_congr fun q _ => ?_
    rw [Function.comp_apply, nodeName?_nodeText, Function.comp_apply]
  rw [nodeNames, lines_eq h, List.filterMap_append, List.filterMap_append, List.filterMap_append,
    hheading, hlast, hnodes, hedges, List.append_nil, List.append_nil, List.nil_append]

/-- Besides the lines of edges and nodes there are the heading and the closing brace. -/
theorem exists_lines_eq (h : ∀ q ∈ a.order, (a.stateAt q).LineNames) :
    ∃ ls, lines a = heading ++ ls ++ [['\x7d']] ∧
      ls.length = (edges a).length + (nodeNames a).length := by
  refine ⟨edgeTexts a ++ nodeTexts a, ?_, ?_⟩
  · rw [lines_eq h, List.append_assoc heading]
  · rw [edges_eq h, nodeNames_eq h, edgeTexts, nodeTexts]
    simp only [List.length_append, List.length_map]

/-- No two edges have the same ends. -/
theorem nodup_edges (wf : a.WellFormed) (h : ∀ q ∈ a.order, (a.stateAt q).LineNames) :
    ((edges a).map fun e => (e.source, e.target)).Nodup := by
  rw [edges_eq h, List.map_map]
  refine List.Nodup.map_on ?_ a.nodup_links
  rintro ⟨q, r⟩ hl ⟨q', r'⟩ hl' heq
  obtain ⟨hq, hr⟩ := Automaton.mem_links.mp hl
  obtain ⟨hq', hr'⟩ := Automaton.mem_links.mp hl'
  obtain ⟨hsource, htarget⟩ := Prod.mk.inj heq
  rw [Automaton.newId_inj hq hq' (node_injective hsource),
    Automaton.newId_inj (Automaton.successor_mem_order wf hq hr)
      (Automaton.successor_mem_order wf hq' hr') (node_injective htarget)]

/-- No two nodes have the same name. -/
theorem nodup_nodeNames (h : ∀ q ∈ a.order, (a.stateAt q).LineNames) : (nodeNames a).Nodup := by
  rw [nodeNames_eq h]
  exact List.Nodup.map_on (fun q hq r hr heq => Automaton.newId_inj hq hr (node_injective heq))
    a.nodup_order

theorem nodeText_mem_lines (h : ∀ q ∈ a.order, (a.stateAt q).LineNames) {q : StateId}
    (hq : q ∈ a.order) : nodeText (a.newId q) (a.stateAt q) ∈ lines a := by
  have hmem : nodeText (a.newId q) (a.stateAt q) ∈ nodeTexts a :=
    List.mem_map_of_mem (f := fun q => nodeText (a.newId q) (a.stateAt q)) hq
  rw [lines_eq h]
  exact List.mem_append_left _ (List.mem_append_right _ hmem)

/-- A line about a node is the line of a state that is reached. -/
theorem exists_of_nodeName? (h : ∀ q ∈ a.order, (a.stateAt q).LineNames) {line name : List Char}
    (hline : line ∈ lines a) (hname : nodeName? line = some name) :
    ∃ q ∈ a.order, name = node (a.newId q) ∧ line = nodeText (a.newId q) (a.stateAt q) := by
  have hheading : ∀ line ∈ heading ++ [['\x7d']], nodeName? line = none :=
    List.filterMap_eq_nil_iff.mp rfl
  rw [lines_eq h] at hline
  simp only [List.mem_append] at hline
  rcases hline with ((hline | hline) | hline) | hline
  · exact absurd (hheading line (List.mem_append_left _ hline)) (by simp [hname])
  · obtain ⟨⟨q, r⟩, _, rfl⟩ := List.mem_map.mp hline
    rw [nodeName?_edgeText] at hname
    cases hname
  · obtain ⟨q, hq, rfl⟩ := List.mem_map.mp hline
    rw [nodeName?_nodeText] at hname
    exact ⟨q, hq, (Option.some.inj hname).symm, rfl⟩
  · exact absurd (hheading line (List.mem_append_right _ hline)) (by simp [hname])

end Drawing

end PositionAutomata
