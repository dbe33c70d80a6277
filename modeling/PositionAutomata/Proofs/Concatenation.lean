import PositionAutomata.Proofs.Document.Lowering
import PositionAutomata.Proofs.Document.Places
import PositionAutomata.Proofs.Progress

/-
  Documents one below the other.

  A line feed after a text that is read without a fault ends what the end of the
  text would end: a word, a comment, or nothing at all (`scan_append_newline`).
  So the items of the text are yielded as if nothing followed, and then the
  lexer is between two tokens at the start of a line (`items_append_newline`).
  What follows is read there as a document of its own, some lines further down.
-/

namespace PositionAutomata.Lexer

variable {s : State} {l l' : Lexer} {t : Token} {source : Source}

/-- What ends with a token at the end of the stream ends with it before a line feed. -/
theorem step_newline_of_finish (h : s.finish = some (.ok t)) :
    s.step '\n' = .tokenBefore t s.span := by
  obtain ⟨span, groups, phase⟩ := s
  cases phase with
  | word name =>
    cases groups with
    | nil => cases h; rfl
    | cons g outer => cases h
  | blank => cases groups <;> cases h
  | comment => cases groups <;> cases h
  | string text => cases h
  | stringEscape text e => cases h
  | charset p => cases h

/-- Where nothing is begun at the end of the stream, a line feed leads between two tokens. -/
theorem step_newline_of_finish_none (h : s.finish = none) :
    s.step '\n' = .more (.between (s.span.push '\n')) := by
  obtain ⟨span, groups, phase⟩ := s
  cases phase with
  | blank =>
    cases groups with
    | nil => rfl
    | cons g outer => cases h
  | comment =>
    cases groups with
    | nil => rfl
    | cons g outer => cases h
  | word name => cases groups <;> cases h
  | string text => cases h
  | stringEscape text e => cases h
  | charset p => cases h

/-- A token of a stream is also one of the stream with a line feed and more after it. -/
theorem scan_append_newline (h : scan s source = some (.ok t, l)) (rest : Source) :
    scan s (source ++ .ok '\n' :: rest) = some (.ok t, ⟨l.span, l.rest ++ .ok '\n' :: rest⟩) := by
  induction source generalizing s with
  | nil =>
    rw [scan] at h
    obtain ⟨item, hitem, heq⟩ := Option.map_eq_some_iff.mp h
    cases heq
    rw [List.nil_append, scan, step_newline_of_finish hitem]
  | cons x source ih =>
    cases x with
    | error reason => cases h
    | ok c =>
      rw [scan] at h
      rw [List.cons_append, scan]
      generalize s.step c = x at h
      cases x with
      | more s => exact ih h
      | token t span => cases h; rfl
      | tokenBefore t span => cases h; rfl
      | fault f span => cases h

/-- A text without faults, a line feed and some more stream: first come the items of the text, then
those of the stream from the start of the next line on. -/
theorem items_append_newline {a : List Char} (ha : l.rest = .ofChars a)
    (hok : ∀ item ∈ l.items, item.isOk = true) (rest : Source) :
    ∃ span, span.stop = (l.span.stop.afterAll a).after '\n' ∧
      (Lexer.mk l.span (l.rest ++ .ok '\n' :: rest)).items =
        l.items ++ (Lexer.mk span rest).items := by
  induction l using items.induct generalizing a with
  | case1 l h =>
    obtain ⟨cs, s, hcs, hread, hfinish⟩ := next?_eq_none_iff.mp h
    obtain rfl : a = cs := Source.ofChars_inj.mp (ha.symm.trans hcs)
    refine ⟨s.span.push '\n', ?_, ?_⟩
    · rw [Span.push, State.stop_of_readAll? hread]
      rfl
    · rw [items_of_next?_eq_none h, List.nil_append]
      apply items_congr
      rw [next?, next?, hcs, scan_readAll? hread, scan, step_newline_of_finish_none hfinish]
  | case2 l item next h ih =>
    rw [items_of_next?_eq_some h] at hok ⊢
    obtain ⟨hitem, hlater⟩ := List.forall_mem_cons.mp hok
    obtain ⟨t, rfl⟩ : ∃ t, item = .ok t := by
      cases item with
      | error f => cases hitem
      | ok t => exact ⟨t, rfl⟩
    have hscan := h
    rw [next?, ha] at hscan
    obtain ⟨read, b, rfl, hb, hplace⟩ := exists_read_chars hscan
    obtain ⟨span, hstop, hitems⟩ := ih hb hlater
    refine ⟨span, ?_, ?_⟩
    · rw [hstop, hplace, Place.afterAll_append]
      rfl
    · rw [List.cons_append, ← hitems]
      exact items_of_next?_eq_some (scan_append_newline h rest)

/-- The line after a text and a line feed. -/
theorem after_afterAll_origin (a : List Char) :
    (Place.origin.afterAll a).after '\n' = Place.origin.down (1 + a.count '\n') := by
  rw [Place.after_lineFeed, Place.line_afterAll, Place.down, Place.origin, Nat.add_assoc,
    Nat.add_comm 1]

/-- The items of a text without faults, a line feed and another text are those of the first text,
as they are, and then those of the other text, tokens and faults with all spans in them further down
by the lines of the first text. -/
theorem items_text_newline_text {a : List Char}
    (ha : ∀ item ∈ (ofSource (.ofChars a)).items, item.isOk = true) (b : List Char) :
    (ofSource (.ofChars (a ++ '\n' :: b))).items =
      (ofSource (.ofChars a)).items ++
        (ofSource (.ofChars b)).items.map (Item.down (1 + a.count '\n')) := by
  obtain ⟨span, hstop, hitems⟩ := items_append_newline rfl ha (.ofChars b)
  have hbelow : (ofSource (.ofChars b)).Below (1 + a.count '\n') ⟨span, .ofChars b⟩ :=
    ⟨rfl, hstop.trans (after_afterAll_origin a)⟩
  calc (ofSource (.ofChars (a ++ '\n' :: b))).items
      = (Lexer.mk .origin (Source.ofChars a ++ .ok '\n' :: Source.ofChars b)).items := by
        rw [Source.ofChars_append, Source.ofChars_cons]
        rfl
    _ = (ofSource (.ofChars a)).items ++ (Lexer.mk span (.ofChars b)).items := hitems
    _ = (ofSource (.ofChars a)).items ++
        (ofSource (.ofChars b)).items.map (Item.down (1 + a.count '\n')) := by
        rw [hbelow.items]

/-- A group over two lines that holds a string, a tab, a word, and a comment up to the end. -/
def commentedGroup : List Char := ['(', 'a', '\n', ' ', '"', 'x', '"', ')', '\t', 'b', '#', 'c']

/-- A group over two lines that holds a charset, a bracket that is left over, and a string that does
not end. -/
def bracketsLeft : List Char := ['(', '[', 'x', ']', '\n', ')', ']', '"', 'q']

theorem items_commentedGroup_bracketsLeft :
    (∀ item ∈ (ofSource (.ofChars commentedGroup)).items, item.isOk = true) ∧
      (ofSource (.ofChars commentedGroup)).items.length = 2 ∧
      (ofSource (.ofChars bracketsLeft)).items.length = 3 ∧
      (ofSource (.ofChars (commentedGroup ++ '\n' :: bracketsLeft))).items =
        (ofSource (.ofChars commentedGroup)).items ++
          (ofSource (.ofChars bracketsLeft)).items.map (Item.down 2) := by
  have habove : ∃ t u, (ofSource (.ofChars commentedGroup)).items = [.ok t, .ok u] :=
    ⟨_, _, Yields.items_of_end (.cons rfl (.cons rfl .nil)) rfl⟩
  have hbelow : ∃ t f g, (ofSource (.ofChars bracketsLeft)).items = [.ok t, .error f, .error g] :=
    ⟨_, _, _, Yields.items_of_end (.cons rfl (.cons rfl (.cons rfl .nil))) rfl⟩
  obtain ⟨t, u, hitems⟩ := habove
  obtain ⟨t', f, g, hitems'⟩ := hbelow
  have hok : ∀ item ∈ (ofSource (.ofChars commentedGroup)).items, item.isOk = true := by
    rw [hitems]
    simp [Except.isOk, Except.toBool]
  refine ⟨hok, ?_, ?_, items_text_newline_text hok bracketsLeft⟩
  · rw [hitems]
    rfl
  · rw [hitems']
    rfl

end PositionAutomata.Lexer
