import PositionAutomata.Proofs.Analysis.Events
import PositionAutomata.Proofs.Automaton.Traces
import PositionAutomata.Proofs.Construction.States
import PositionAutomata.Proofs.Expr.Parses
import PositionAutomata.Proofs.Trimming

/-
  What built automata capture.

  For every parse of an expression the copy that is analysed has a word that
  surrounds what the parse captures (`Augments.surrounds`). Without anchors a
  leaf that begins what a group holds is then awaited where the captured part
  starts, and one that ends it before the last character
  (`exists_marks_of_surrounds`). The state on the path of an accepted text holds
  every position that is awaited there, whatever was trimmed or pruned elsewhere,
  so it carries the events of these leaves (`marks_captures_of_awaits`).
-/

namespace PositionAutomata

open PositionAutomata.Expr

/-! ## Words around captures -/

namespace Config

variable {c : Config} {u : Tree} {e f : Expr NodeId} {text : List Char} {i j : Nat}
  {cs : List Capture}

theorem exists_rule_of_parses (h : e.Parses text i j cs) :
    ∃ x ∈ c.rules e, x.Parses text i j cs := by
  rw [rules]
  split
  · exact parses_iff_exists_alternative.mp h
  · exact ⟨e, List.mem_singleton.mpr rfl, h⟩

/-- A copy has the parses of what is copied. -/
theorem parses_copied (h : e.Parses text i j cs) : (c.copied e).Parses text i j cs := by
  rw [copied]
  split
  · exact h.unrolled
  · exact parses_shape.mpr h

/-- The copy of a rule stands among the alternatives of the expression that is analysed, with its
terminator after it. -/
theorem Augments.exists_alternative (haug : c.Augments e u f) {x : Expr NodeId}
    (hx : x ∈ c.rules e) : ∃ b y z, .concat b y z ∈ f.alternatives ∧ y.shape = c.copied x ∧
      ∃ w, z.Spells w := by
  obtain ⟨n, hn⟩ := List.mem_iff_getElem?.mp hx
  have hrule : c.terminated x n ∈ f.alternatives.map Expr.shape := by
    have hmem : c.terminated x n ∈ (c.rules e).zipIdx.map fun y => c.terminated y.1 y.2 :=
      List.mem_map.mpr ⟨(x, n), List.mem_zipIdx_iff_getElem?.mpr hn, rfl⟩
    have hshape : f.alternatives.map Expr.shape = (c.augmented e).alternatives := by
      rw [← haug.shape]
      exact alternatives_map.symm
    rw [hshape, augmented, alternatives_anyOf (map_rules_ne_nil _)]
    exact List.mem_flatMap.mpr ⟨_, hmem, List.mem_singleton.mpr rfl⟩
  obtain ⟨y, hy, hshape⟩ := List.mem_map.mp hrule
  cases y with
  | concat b y z =>
    simp only [Expr.shape, map, terminated, concat.injEq, true_and] at hshape
    obtain ⟨hcopied, hterm⟩ := hshape
    refine ⟨b, y, z, hy, hcopied, ?_⟩
    cases z with
    | leaf b' l => exact ⟨_, rfl⟩
    | _ => exact absurd hterm (by simp [map])
  | _ => exact absurd hshape (by simp [Expr.shape, map, terminated])

/-- Whatever a parse captures is surrounded by a word of the expression that is analysed. -/
theorem Augments.surrounds (haug : c.Augments e u f) (h : e.Parses text i j cs) {o : Capture}
    (ho : o ∈ cs) : f.Surrounds text o i := by
  obtain ⟨x, hx, h⟩ := exists_rule_of_parses (c := c) h
  obtain ⟨b, y, z, hmem, hshape, w, hw⟩ := haug.exists_alternative hx
  have hy : y.Parses text i j cs := by
    rw [← parses_shape, hshape]
    exact parses_copied h
  exact ((hy.surrounds ho).extend (x := []) (y := w) (f := .concat b y z)
    (fun m hm => by simp [hm]) rfl fun m hm => ⟨m, w, rfl, hm, hw⟩).of_alternative hmem

end Config

namespace Analysis

open CaptureEvent

/-! ## Positions around captures -/

section

variable {t : Tree} {root : NodeId} {f : Expr NodeId} (lazy : Bool) {text : List Char}
  (isStart : Bool) (hroot : t.expr root = .ok f) (hnd : (f.leaves.map Prod.fst).Nodup)
  (hb : ∀ y ∈ f.leaves, y.1 < t.size) (ha : f.AllLeaves Leaf.IsAnchorFree)

include hroot hnd hb ha

/-- A leaf of a word that begins, or ends, what a group holds reads one character, and before it a
position is awaited that marks the group. -/
theorem exists_marks_of_spells {i j : Nat} {u v : List (NodeId × Leaf)} {x : NodeId × Leaf}
    (hf : f.Spells (u ++ x :: v)) (hu : Consumes text u 0 i) (hread : x.2.Reads text i j)
    {a : NodeId} {g : Group} {z : Expr NodeId} (hz : .capture a g z ∈ f.subexprs)
    (hx : if isStart then z.First x else z.Last x) :
    j = i + 1 ∧ i < text.length ∧ ∃ p, (ofExpr t f lazy true).Awaits text i p ∧
      Marks ((ofExpr t f lazy true).events.ofPosition p) g.number isStart := by
  have hmem : x ∈ f.leaves := by
    have hsub := Expr.leaves_subset_of_mem_subexprs hz
    cases isStart with
    | true => exact hsub (Expr.mem_leaves_of_first hx)
    | false => exact hsub (Expr.mem_leaves_of_last hx)
  obtain ⟨hj, c, hc, _⟩ := (Leaf.reads_iff (Expr.allLeaves_iff.mp ha x hmem)).mp hread
  obtain ⟨hlt, _⟩ := List.getElem?_eq_some_iff.mp hc
  obtain ⟨p, hp⟩ := Expr.exists_at hmem
  exact ⟨hj, hlt, p, awaits_of_spells hroot hnd hb hf hu hp,
    (marks_ofPosition_iff hnd hb hp).mpr ⟨a, g, z, hz, rfl, hx⟩⟩

/-- Before the first character of a captured part a position is awaited that marks the start of the
group, and before the last one a position that marks the end. -/
theorem exists_marks_of_surrounds {o : Capture} (h : f.Surrounds text o 0)
    (hlt : o.start < o.stop) {i : Nat} (hi : i = if isStart then o.start else o.stop - 1) :
    i < text.length ∧ ∃ p, (ofExpr t f lazy true).Awaits text i p ∧
      Marks ((ofExpr t f lazy true).events.ofPosition p) o.group.number isStart := by
  obtain ⟨a, z, u, v, w, hz, hv, hf, hu, hread⟩ := h
  have hne : v ≠ [] := by
    rintro rfl
    exact Nat.ne_of_lt hlt hread
  cases isStart with
  | true =>
    obtain ⟨x, v, rfl⟩ := List.exists_cons_of_ne_nil hne
    obtain ⟨k, hk, _⟩ := hread
    rw [if_pos rfl] at hi
    subst hi
    rw [List.append_assoc, List.cons_append] at hf
    exact (exists_marks_of_spells lazy true hroot hnd hb ha hf hu hk hz (first_of_spells hv)).2
  | false =>
    obtain ⟨v, x, rfl⟩ := List.eq_nil_or_concat v |>.resolve_left hne
    rw [List.concat_eq_append] at hv hf hread
    obtain ⟨k, hk, _, hlast, rfl⟩ := consumes_append.mp hread
    rw [← List.append_assoc, List.append_assoc, List.singleton_append] at hf
    obtain ⟨hj, hmarks⟩ := exists_marks_of_spells lazy false hroot hnd hb ha hf
      (consumes_append.mpr ⟨_, hu, hk⟩) hlast hz (last_of_spells hv)
    rw [if_neg Bool.false_ne_true, hj, Nat.add_sub_cancel] at hi
    rwa [hi]

end

/-! ## States of accepted texts -/

/-- What a position marks that is awaited after some characters of an accepted text is captured
there. -/
theorem marks_captures_of_awaits {a : Analysis} {c : Config} {text : List Char} (hb : a.Bounded)
    (hl : a.Lettered) (ha : a.AnchorFree) {path : List (Nat × StateId)}
    (htrace : (Automaton.ofAnalysis a c).trace text = some path) :
    ∃ es, (Automaton.ofAnalysis a c).captures text = some es ∧
      ∀ {i p n isStart}, i ≤ text.length → a.Awaits text i p →
        Marks (a.events.ofPosition p) n isStart →
        ∃ e, (i, e) ∈ es ∧ e.group = n ∧ e.isStart = isStart := by
  obtain ⟨es, hes, hmem⟩ := Automaton.exists_captures htrace
  refine ⟨es, hes, fun hi hp hmarks => ?_⟩
  obtain ⟨q, hq⟩ := Automaton.exists_mem_trace htrace hi
  have hcon := (separated_ofAnalysis hb hl.toPartitioned c).consistent
  have hreach := Automaton.reached_of_mem_trace hcon htrace _ hq
  obtain ⟨k, s, henter, hs, hevents⟩ := exists_enters_of_reached hb hl hreach
  -- The key holds what is awaited even if steps from other keys are trimmed.
  have hpass : a.Passes text _ k := henter.mono fun _ _ _ => trivial
  obtain ⟨e, he, hgroup⟩ :=
    Events.marks_ofSet_iff.mpr ⟨_, (hpass.mem_positions_iff hl ha).mpr hp, hmarks⟩
  exact ⟨e, hmem hq hs (by rwa [hevents]), hgroup⟩

end Analysis

namespace Automaton

/-- If an automaton that carries events is built of an expression without anchors and accepts a text,
its captures hold for every parse of the text, and every part of it that a group captures without
being empty, the start of the group at the first character of the part and the end at the last. -/
theorem captures_hold_parsed_groups {t : Tree} {c : Config} {e : Expr NodeId} {d : Automaton}
    {text : List Char} (hroot : t.rootExpr = .ok e) (hanchor : e.AllLeaves Leaf.IsAnchorFree)
    (hcaptures : c.captures = true) (hd : ofTree t c = .ok d) (haccept : d.accepts text = true) :
    ∃ es, d.captures text = some es ∧
      ∀ cs, e.Parses text 0 text.length cs → ∀ o ∈ cs, o.start < o.stop →
        (∃ s, (o.start, s) ∈ es ∧ s.group = o.group.number ∧ s.isStart = true) ∧
        ∃ s, (o.stop - 1, s) ∈ es ∧ s.group = o.group.number ∧ s.isStart = false := by
  obtain ⟨e', he', hv, hlexer⟩ := of_ofTree hd
  obtain rfl : e' = e := Except.ok.inj (he'.symm.trans hroot)
  obtain ⟨u, f, haug, h⟩ := Config.augments_of_valid hroot hv hlexer
  rw [ofTree_eq haug h.root] at hd
  obtain rfl := Except.ok.inj hd
  obtain ⟨root, hf⟩ := Analysis.exists_root_of_rootExpr h.root
  have hb := h.analysis_bounded c.lazy c.captures
  have hl := h.analysis_lettered c.lazy c.captures
    (hanchor.mono fun _ => Leaf.IsAnchorFree.isSharp)
  have ha := h.analysis_anchorFree c.lazy c.captures hanchor
  have hanchor' : f.AllLeaves Leaf.IsAnchorFree :=
    h.allLeaves (fun _ hr => absurd hr (by simp [Leaf.ranges]))
      (fun _ _ hr => absurd hr (by simp [Leaf.ranges])) hanchor
  have hlabels := Analysis.isUniform_ofAnalysis hb (fun _ => Alphabet.isUniform_of_mem_letters) c
  obtain ⟨path, htrace⟩ := (exists_trace_iff hlabels).mpr (Option.isSome_iff_exists.mp haccept)
  obtain ⟨es, hes, hmarks⟩ := Analysis.marks_captures_of_awaits hb hl ha htrace
  refine ⟨es, hes, fun cs hcs o ho hlt => ?_⟩
  have hsurrounds := h.surrounds hcs ho
  rw [hcaptures] at hmarks
  have hend := fun isStart => Analysis.exists_marks_of_surrounds c.lazy isStart hf h.nodup h.bounded
    hanchor' hsurrounds hlt rfl
  obtain ⟨hstart, _, hp, hm⟩ := hend true
  obtain ⟨hstop, _, hp', hm'⟩ := hend false
  exact ⟨hmarks (Nat.le_of_lt hstart) hp hm, hmarks (Nat.le_of_lt hstop) hp' hm'⟩

/-- A group that holds one letter `a` or two. -/
def part : Group := ⟨1, some "part"⟩

/-- Two or three parts of letters `a`, all of them captured by one group. -/
def parted : Tree where
  nodes := #[.leaf (.codepoint 0x61), .concat 0 0, .alternation 0 1, .capture 2 part,
    .repetition 3 ⟨2, 3, false⟩]
  root := some 4

/-- What the root of `parted` unfolds to. -/
def partedExpr : Expr NodeId :=
  .repetition 4 ⟨2, 3, false⟩ (.capture 3 part
    (.alternation 2 (.leaf 0 (.codepoint 0x61))
      (.concat 1 (.leaf 0 (.codepoint 0x61)) (.leaf 0 (.codepoint 0x61)))))

/-- Three letters have several parses; in this one the first part is the longer one. -/
theorem captures_hold_parsed_part :
    parted.rootExpr = .ok partedExpr ∧ partedExpr.AllLeaves Leaf.IsAnchorFree ∧
      partedExpr.Parses ['a', 'a', 'a'] 0 3 [⟨part, 0, 2⟩, ⟨part, 2, 3⟩] ∧
      ∃ d, ofTree parted = .ok d ∧ d.accepts ['a', 'a', 'a'] = true ∧
        ∃ es, d.captures ['a', 'a', 'a'] = some es ∧
          ∀ cs, partedExpr.Parses ['a', 'a', 'a'] 0 3 cs → ∀ o ∈ cs, o.start < o.stop →
            (∃ s, (o.start, s) ∈ es ∧ s.group = o.group.number ∧ s.isStart = true) ∧
            ∃ s, (o.stop - 1, s) ∈ es ∧ s.group = o.group.number ∧ s.isStart = false := by
  have hroot : parted.rootExpr = .ok partedExpr := by rfl
  have hanchor : partedExpr.AllLeaves Leaf.IsAnchorFree := by decide
  have hvalid : partedExpr.Valid := by decide
  have hgreedy : partedExpr.Greedy := by decide
  have hread : ∀ i < 3, (Expr.leaf 0 (.codepoint 0x61)).Parses ['a', 'a', 'a'] i (i + 1) [] := by
    intro i hi
    refine ⟨.inr (.char (c := 'a') ?_ List.mem_cons_self (by decide)), rfl⟩
    match i, hi with
    | 0, _ => rfl
    | 1, _ => rfl
    | 2, _ => rfl
  have hparse : partedExpr.Parses ['a', 'a', 'a'] 0 3 [⟨part, 0, 2⟩, ⟨part, 2, 3⟩] := by
    refine ⟨2, by decide, 2, [⟨part, 0, 2⟩], [⟨part, 2, 3⟩], ?_, .one ?_, rfl⟩
    · exact ⟨[], .inr ⟨1, [], [], hread 0 (by decide), hread 1 (by decide), rfl⟩, rfl⟩
    · exact ⟨[], .inl (hread 2 (by decide)), rfl⟩
  obtain ⟨u, f, haug, hd⟩ := ofTree_of_valid (c := {}) hroot hvalid (by decide)
  have hrun := (Analysis.run_eq_some_iff_matches haug hvalid (by decide)
    (hanchor.mono fun _ => Leaf.IsAnchorFree.isSharp) rfl (.inr (.inr hgreedy))).mpr
    ⟨⟨partedExpr, rfl, matches_iff_exists_parses.mpr ⟨_, hparse⟩⟩, fun _ _ => Nat.zero_le _⟩
  have haccept : Automaton.accepts _ ['a', 'a', 'a'] = true :=
    Option.isSome_iff_exists.mpr ⟨0, hrun⟩
  exact ⟨hroot, hanchor, hparse, _, hd, haccept,
    captures_hold_parsed_groups hroot hanchor rfl hd haccept⟩

end Automaton

end PositionAutomata
