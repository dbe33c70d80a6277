import PositionAutomata.Proofs.Document.Scanning
import PositionAutomata.Proofs.Document.Tokens

/-
  Documents further down.

  What the lexer yields does not depend on the line at which it starts, but for
  the lines of the spans. Two lexers, one of them some lines below the other,
  stay so with each character (`State.Below.step`) up to the end of an item, and
  yield the same items some lines apart (`items_below`). Between tokens only
  the place matters where a span stops, since a token clears the span.
-/

namespace PositionAutomata

variable {n : Nat}

/-! ## Places, spans and tokens some lines below -/

/-- The place some lines below. -/
def Place.down (n : Nat) (p : Place) : Place := ⟨p.line + n, p.column⟩

theorem Place.before_down (n : Nat) (p q : Place) :
    (p.down n).before (q.down n) = p.before q := by
  grind [before, down]

theorem Place.after_down (n : Nat) (p : Place) (c : Char) :
    (p.down n).after c = (p.after c).down n := by
  simp only [after, down]
  split
  · rw [Nat.add_right_comm]
  · split
    · rfl
    · split <;> rfl

/-- The span some lines below. -/
def Span.down (n : Nat) (s : Span) : Span := ⟨s.start.down n, s.last.down n, s.stop.down n⟩

namespace Span

@[simp] theorem stop_down (n : Nat) (s : Span) : (s.down n).stop = s.stop.down n := rfl

theorem ofPlace_down (n : Nat) (p : Place) : (ofPlace p).down n = ofPlace (p.down n) := rfl

theorem push_down (n : Nat) (s : Span) (c : Char) : (s.down n).push c = (s.push c).down n := by
  simp only [push, down, Place.after_down]

theorem append_down (n : Nat) (s t : Span) :
    (s.down n).append (t.down n) = (s.append t).down n := by
  have hlast : (s.down n).last.before (t.down n).last = s.last.before t.last :=
    Place.before_down n s.last t.last
  have hstop : (s.down n).stop.before (t.down n).stop = s.stop.before t.stop :=
    Place.before_down n s.stop t.stop
  rw [append, append, hlast, hstop]
  split <;> rfl

end Span

/-- The token some lines below, with all tokens in it. -/
def Token.down (n : Nat) : Token → Token := mapSpans (Span.down n)

namespace Lexer

/-- The item some lines below. -/
def Item.down (n : Nat) : Item → Item
  | .ok t => .ok (t.down n)
  | .error f => .error ⟨f.value, f.span.down n⟩

/-- The group some lines below. -/
def OpenGroup.down (n : Nat) (g : OpenGroup) : OpenGroup :=
  ⟨g.span.down n, g.items.map (Token.down n)⟩

theorem OpenGroup.push_down (n : Nat) (g : OpenGroup) (t : Token) :
    (g.down n).push (t.down n) = (g.push t).down n := by
  simp only [push, down, Token.down, Token.span_mapSpans, Span.append_down, List.map_cons]

/-! ## Reading some lines below -/

/-- The state some lines below. -/
def State.down (n : Nat) (s : State) : State :=
  ⟨s.span.down n, s.groups.map (OpenGroup.down n), s.phase⟩

/-- A state is the other one some lines below. Between tokens the spans need only stop alike. -/
inductive State.Below (n : Nat) : State → State → Prop where
  | down (s : State) : Below n s (s.down n)
  | blank {span span' : Span} (groups : List OpenGroup) : span'.stop = span.stop.down n →
      Below n ⟨span, groups, .blank⟩ ⟨span', groups.map (OpenGroup.down n), .blank⟩
  | comment {span span' : Span} (groups : List OpenGroup) : span'.stop = span.stop.down n →
      Below n ⟨span, groups, .comment⟩ ⟨span', groups.map (OpenGroup.down n), .comment⟩

/-- An action is the other one some lines below. -/
inductive Action.Below (n : Nat) : Action → Action → Prop where
  | more {s s' : State} : s.Below n s' → Below n (.more s) (.more s')
  | token {t : Token} {span span' : Span} : span'.stop = span.stop.down n →
      Below n (.token t span) (.token (t.down n) span')
  | tokenBefore {t : Token} {span span' : Span} : span'.stop = span.stop.down n →
      Below n (.tokenBefore t span) (.tokenBefore (t.down n) span')
  | fault {f : LexicalFault} {span : Span} : Below n (.fault f span) (.fault f (span.down n))

namespace State

theorem Below.stop {s s' : State} (h : s.Below n s') : s'.span.stop = s.span.stop.down n := by
  cases h with
  | down s => rfl
  | blank groups h => exact h
  | comment groups h => exact h

theorem below_endToken (n : Nat) (span : Span) (groups : List OpenGroup) (t : Token) :
    (endToken span groups t).Below n
      (endToken (span.down n) (groups.map (OpenGroup.down n)) (t.down n)) := by
  cases groups with
  | nil => exact .token rfl
  | cons g outer =>
    rw [List.map_cons, endToken, endToken, OpenGroup.push_down]
    exact .more (.down ⟨span, g.push t :: outer, .blank⟩)

theorem stop_push_down {span span' : Span} (h : span'.stop = span.stop.down n) (c : Char) :
    (span'.push c).stop = (span.push c).stop.down n := by
  rw [Span.push, h, Place.after_down]
  rfl

theorem below_stepBlank {span span' : Span} (h : span'.stop = span.stop.down n)
    (groups : List OpenGroup) (c : Char) :
    (stepBlank span groups c).Below n (stepBlank span' (groups.map (OpenGroup.down n)) c) := by
  have hclear : span'.clear.push c = (span.clear.push c).down n := by
    rw [Span.clear, h, ← Span.ofPlace_down, Span.push_down]
    rfl
  simp only [stepBlank, hclear]
  split
  · exact .more (.blank groups (stop_push_down h c))
  split
  · exact .more (.comment groups (stop_push_down h c))
  split
  · exact .more (.down ⟨span.clear.push c, ⟨span.clear.push c, []⟩ :: groups, .blank⟩)
  split
  · cases groups with
    | nil => exact .fault
    | cons g outer =>
      have hgroup : Token.group ((g.down n).span.append ((span.clear.push c).down n))
            (g.down n).items.reverse =
          (Token.group (g.span.append (span.clear.push c)) g.items.reverse).down n := by
        simp only [OpenGroup.down, Span.append_down, Token.down, Token.mapSpans,
          Token.mapSpansAll_eq_map, List.map_reverse]
      simp only [List.map_cons, hgroup]
      exact below_endToken n (span.clear.push c) outer _
  split
  · exact .fault
  split
  · exact .more (.down ⟨span.clear.push c, groups, _⟩)
  split
  · exact .more (.down ⟨span.clear.push c, groups, _⟩)
  · exact .more (.down ⟨span.clear.push c, groups, _⟩)

theorem below_stepComment {span span' : Span} (h : span'.stop = span.stop.down n)
    (groups : List OpenGroup) (c : Char) :
    (step ⟨span, groups, .comment⟩ c).Below n
      (step ⟨span', groups.map (OpenGroup.down n), .comment⟩ c) := by
  simp only [step]
  split
  · exact .more (.blank groups (stop_push_down h c))
  · exact .more (.comment groups (stop_push_down h c))

theorem push_ident_down (n : Nat) (span : Span) (name : List Char) (g : OpenGroup) :
    (g.down n).push (.ident (span.down n) name) = (g.push (.ident span name)).down n :=
  OpenGroup.push_down n g (.ident span name)

theorem below_step_down (s : State) (c : Char) : (s.step c).Below n ((s.down n).step c) := by
  obtain ⟨span, groups, phase⟩ := s
  cases phase with
  | blank => exact below_stepBlank rfl groups c
  | comment => exact below_stepComment rfl groups c
  | word name =>
    simp only [State.down, step]
    split
    · cases groups with
      | nil => exact .tokenBefore rfl
      | cons g outer =>
        simp only [List.map_cons, push_ident_down]
        exact below_stepBlank rfl (g.push (.ident span name.reverse) :: outer) c
    · rw [Span.push_down]
      exact .more (.down ⟨span.push c, groups, _⟩)
  | string text =>
    simp only [State.down, step, Span.push_down]
    split
    · exact below_endToken n (span.push c) groups (.string (span.push c) text.reverse)
    split
    · exact .more (.down ⟨span.push c, groups, _⟩)
    · exact .more (.down ⟨span.push c, groups, _⟩)
  | stringEscape text e =>
    simp only [State.down, step, Span.push_down]
    cases e.step c with
    | done d => exact .more (.down ⟨span.push c, groups, _⟩)
    | more e => exact .more (.down ⟨span.push c, groups, _⟩)
    | invalid => exact .fault
  | charset p =>
    simp only [State.down, step, Span.push_down]
    cases p.step c with
    | more p => exact .more (.down ⟨span.push c, groups, _⟩)
    | closed set => exact below_endToken n (span.push c) groups (.charset (span.push c) set)
    | fault f => exact .fault

/-- States some lines apart stay so with each character. -/
theorem Below.step {s s' : State} (h : s.Below n s') (c : Char) :
    (s.step c).Below n (s'.step c) := by
  cases h with
  | down s => exact below_step_down s c
  | blank groups h => exact below_stepBlank h groups c
  | comment groups h => exact below_stepComment h groups c

theorem Below.finish {s s' : State} (h : s.Below n s') :
    s'.finish = s.finish.map (Item.down n) := by
  cases h with
  | blank groups h => cases groups <;> rfl
  | comment groups h => cases groups <;> rfl
  | down s =>
    obtain ⟨span, groups, phase⟩ := s
    cases phase with
    | blank => cases groups <;> rfl
    | comment => cases groups <;> rfl
    | word name =>
      cases groups with
      | nil => rfl
      | cons g outer =>
        simp only [State.down, State.finish, List.map_cons, push_ident_down]
        rfl
    | string text => rfl
    | stringEscape text e => rfl
    | charset p => rfl

end State

/-! ## Items some lines below -/

/-- A lexer between two items has as much to read as the other one and is some lines below. -/
structure Below (n : Nat) (l l' : Lexer) : Prop where
  rest : l'.rest = l.rest
  stop : l'.span.stop = l.span.stop.down n

/-- An answer is the other one some lines below, the lexer after it included. -/
def AnswersBelow (n : Nat) (x x' : Item × Lexer) : Prop := x'.1 = x.1.down n ∧ x.2.Below n x'.2

theorem scan_below {s s' : State} (h : s.Below n s') (source : Source) :
    Option.Rel (AnswersBelow n) (scan s source) (scan s' source) := by
  induction source generalizing s s' with
  | nil =>
    rw [scan, scan, h.finish]
    cases s.finish with
    | none => exact .none
    | some item => exact .some ⟨rfl, rfl, h.stop⟩
  | cons x source ih =>
    cases x with
    | error reason =>
      rw [scan, scan, h.stop, ← Span.ofPlace_down]
      exact .some ⟨rfl, rfl, h.stop⟩
    | ok c =>
      rw [scan, scan]
      have hstep := h.step c
      generalize s.step c = x at hstep
      generalize s'.step c = x' at hstep
      cases hstep with
      | more h => exact ih h
      | token hstop => exact .some ⟨rfl, rfl, hstop⟩
      | tokenBefore hstop => exact .some ⟨rfl, rfl, hstop⟩
      | fault => exact .some ⟨rfl, rfl, rfl⟩

theorem Below.next? {l l' : Lexer} (h : l.Below n l') :
    Option.Rel (AnswersBelow n) l.next? l'.next? := by
  rw [Lexer.next?, Lexer.next?, h.rest]
  exact scan_below (.blank [] h.stop) l.rest

/-- A lexer some lines below yields the same items some lines below. -/
theorem Below.items {l l' : Lexer} (h : l.Below n l') : l'.items = l.items.map (Item.down n) := by
  have hnext := h.next?
  induction l using items.induct generalizing l' with
  | case1 l hl =>
    rw [hl] at hnext
    generalize hl' : l'.next? = x' at hnext
    cases hnext with
    | none => rw [items_of_next?_eq_none hl, items_of_next?_eq_none hl', List.map_nil]
  | case2 l item last hl ih =>
    rw [hl] at hnext
    generalize hl' : l'.next? = x' at hnext
    cases hnext with
    | @some _ x' hbelow =>
      obtain ⟨item', last'⟩ := x'
      obtain ⟨rfl, hlast⟩ := hbelow
      rw [items_of_next?_eq_some hl, items_of_next?_eq_some hl', List.map_cons,
        ih hlast hlast.next?]

end Lexer

end PositionAutomata
