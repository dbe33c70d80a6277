import PositionAutomata.Proofs.Document.Scanning

/-
  Places in a document.

  The span of the lexer stops at the place after all characters read: each
  character moves it on, whatever it does otherwise (`State.advances_step`). A
  word that ends before a character leaves the place where it is, and the
  character is read again. So the place after an item is the place after the
  characters it took (`exists_read_chars`).
-/

namespace PositionAutomata

namespace Place

/-- The place after a text. -/
def afterAll (p : Place) (cs : List Char) : Place := cs.foldl after p

@[simp] theorem afterAll_nil (p : Place) : p.afterAll [] = p := rfl

@[simp] theorem afterAll_cons (p : Place) (c : Char) (cs : List Char) :
    p.afterAll (c :: cs) = (p.after c).afterAll cs := rfl

theorem afterAll_append (p : Place) (xs ys : List Char) :
    p.afterAll (xs ++ ys) = (p.afterAll xs).afterAll ys := List.foldl_append

theorem line_after (p : Place) (c : Char) :
    (p.after c).line = p.line + if c = '\n' then 1 else 0 := by
  rw [after]
  split
  · rfl
  · split
    · rfl
    · split <;> rfl

/-- A text goes down one line for each of its line feeds. -/
theorem line_afterAll (p : Place) (cs : List Char) :
    (p.afterAll cs).line = p.line + cs.count '\n' := by
  induction cs generalizing p with
  | nil => rfl
  | cons c cs ih =>
    rw [afterAll_cons, ih, line_after, List.count_cons]
    simp only [beq_iff_eq]
    omega

theorem after_lineFeed (p : Place) : p.after '\n' = ⟨p.line + 1, 0⟩ := rfl

end Place

namespace Lexer

variable {s s' : State} {l : Lexer} {item : Item} {cs : List Char}

/-! ## Steps -/

/-- An action after which the place is the one after a character read from a span. -/
inductive Action.Advances (span : Span) (c : Char) : Action → Prop where
  | more {s : State} : s.span.stop = span.stop.after c → Advances span c (.more s)
  | token {t : Token} {after : Span} : after.stop = span.stop.after c →
      Advances span c (.token t after)
  | tokenBefore {t : Token} {after : Span} : after.stop = span.stop →
      Advances span c (.tokenBefore t after)
  | fault {f : LexicalFault} {after : Span} : after.stop = span.stop.after c →
      Advances span c (.fault f after)

namespace State

theorem advances_endToken {span after : Span} {c : Char} (h : after.stop = span.stop.after c)
    (groups : List OpenGroup) (t : Token) : (endToken after groups t).Advances span c := by
  cases groups with
  | nil => exact .token h
  | cons g outer => exact .more h

theorem advances_stepBlank (span : Span) (groups : List OpenGroup) (c : Char) :
    (stepBlank span groups c).Advances span c := by
  simp only [stepBlank]
  split
  · exact .more rfl
  split
  · exact .more rfl
  split
  · exact .more rfl
  split
  · cases groups with
    | nil => exact .fault rfl
    | cons g outer => exact advances_endToken rfl outer _
  split
  · exact .fault rfl
  split
  · exact .more rfl
  split
  · exact .more rfl
  · exact .more rfl

/-- The span of the lexer stops after the last character read. -/
theorem advances_step (s : State) (c : Char) : (s.step c).Advances s.span c := by
  obtain ⟨span, groups, phase⟩ := s
  cases phase with
  | blank => exact advances_stepBlank span groups c
  | comment => exact .more rfl
  | word name =>
    simp only [step]
    split
    · cases groups with
      | nil => exact .tokenBefore rfl
      | cons g outer => exact advances_stepBlank span _ c
    · exact .more rfl
  | string text =>
    simp only [step]
    split
    · exact advances_endToken rfl groups _
    split
    · exact .more rfl
    · exact .more rfl
  | stringEscape text e =>
    simp only [step]
    cases e.step c with
    | done d => exact .more rfl
    | more e => exact .more rfl
    | invalid => exact .fault rfl
  | charset p =>
    simp only [step]
    cases p.step c with
    | more p => exact .more rfl
    | closed set => exact advances_endToken rfl groups _
    | fault f => exact .fault rfl

theorem stop_of_readAll? (h : s.readAll? cs = some s') :
    s'.span.stop = s.span.stop.afterAll cs := by
  induction cs generalizing s with
  | nil =>
    obtain rfl := Option.some.inj h
    rfl
  | cons c cs ih =>
    rw [readAll?] at h
    have hstep := advances_step s c
    generalize s.step c = x at h hstep
    cases hstep with
    | more hstop => rw [Place.afterAll_cons, ← hstop, ih h]
    | token _ => cases h
    | tokenBefore _ => cases h
    | fault _ => cases h

end State

/-! ## Items -/

/-- From a text an item takes a beginning, and the place is moved on by it. -/
theorem exists_read_chars {a : List Char} (h : scan s (.ofChars a) = some (item, l)) :
    ∃ read b, a = read ++ b ∧ l.rest = .ofChars b ∧
      l.span.stop = s.span.stop.afterAll read := by
  induction a generalizing s with
  | nil =>
    rw [Source.ofChars_nil, scan] at h
    obtain ⟨_, _, heq⟩ := Option.map_eq_some_iff.mp h
    cases heq
    exact ⟨[], [], rfl, rfl, rfl⟩
  | cons c a ih =>
    rw [Source.ofChars_cons, scan] at h
    have hstep := State.advances_step s c
    generalize s.step c = x at h hstep
    cases hstep with
    | more hstop =>
      obtain ⟨read, b, rfl, hrest, hplace⟩ := ih h
      exact ⟨c :: read, b, rfl, hrest, by rw [hplace, Place.afterAll_cons, hstop]⟩
    | token hstop => cases h; exact ⟨[c], a, rfl, rfl, hstop⟩
    | tokenBefore hstop => cases h; exact ⟨[], c :: a, rfl, rfl, hstop⟩
    | fault hstop => cases h; exact ⟨[c], a, rfl, rfl, hstop⟩

end Lexer

end PositionAutomata
