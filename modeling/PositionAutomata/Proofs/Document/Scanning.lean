import PositionAutomata.Document.Token.Lexer

/-
  Reading on up to the end of an item.

  A state of the lexer takes characters as long as none of them ends an item
  (`State.readAll?`). What comes next ends it in one of five ways
  (`State.Ends`): the stream is over, there is a reason instead of a character,
  a token ends with or before the character, or the character cannot be there.
  `exists_ends` says that scanning is just this. So an item takes a beginning of
  the stream (`exists_read_of_next?`), and there is none only if the lexer has
  read all of it (`next?_eq_none_iff`).
-/

namespace PositionAutomata

@[simp] theorem Source.ofChars_nil : Source.ofChars [] = [] := rfl

@[simp] theorem Source.ofChars_cons (c : Char) (cs : List Char) :
    Source.ofChars (c :: cs) = .ok c :: Source.ofChars cs := rfl

@[simp] theorem Source.ofChars_append (xs ys : List Char) :
    Source.ofChars (xs ++ ys) = Source.ofChars xs ++ Source.ofChars ys := List.map_append

@[simp] theorem Source.ofChars_inj {xs ys : List Char} :
    Source.ofChars xs = Source.ofChars ys ↔ xs = ys :=
  List.map_inj_right fun _ _ => Except.ok.inj

namespace Lexer

variable {s s' : State} {l l' : Lexer} {item : Item} {source rest : Source} {cs : List Char}

/-! ## Characters inside an item -/

/-- The state after some characters, unless one of them ends the item. -/
def State.readAll? (s : State) : List Char → Option State
  | [] => some s
  | c :: cs =>
    match s.step c with
    | .more s => s.readAll? cs
    | _ => none

namespace State

@[simp] theorem readAll?_nil (s : State) : s.readAll? [] = some s := rfl

theorem readAll?_cons {c : Char} (h : s.step c = .more s') (cs : List Char) :
    s.readAll? (c :: cs) = s'.readAll? cs := by
  rw [readAll?, h]

theorem readAll?_append (s : State) (xs ys : List Char) :
    s.readAll? (xs ++ ys) = (s.readAll? xs).bind (·.readAll? ys) := by
  induction xs generalizing s with
  | nil => rfl
  | cons x xs ih =>
    rw [List.cons_append, readAll?, readAll?]
    cases s.step x with
    | more s => exact ih s
    | token t span => rfl
    | tokenBefore t span => rfl
    | fault f span => rfl

theorem readAll?_append_of_eq {xs : List Char} (h : s.readAll? xs = some s') (ys : List Char) :
    s.readAll? (xs ++ ys) = s'.readAll? ys := by
  rw [readAll?_append, h, Option.bind_some]

/-- How a state ends an item with what comes next: what is yielded, and the lexer after it. -/
inductive Ends (s : State) : Source → Option (Item × Lexer) → Prop where
  | stop : Ends s [] (s.finish.map (·, ⟨s.span, []⟩))
  | missing {reason : String} {rest : Source} :
      Ends s (.error reason :: rest)
        (some (.error ⟨.input reason, .ofPlace s.span.stop⟩, ⟨s.span, rest⟩))
  | token {c : Char} {t : Token} {span : Span} {rest : Source} : s.step c = .token t span →
      Ends s (.ok c :: rest) (some (.ok t, ⟨span, rest⟩))
  | tokenBefore {c : Char} {t : Token} {span : Span} {rest : Source} :
      s.step c = .tokenBefore t span →
      Ends s (.ok c :: rest) (some (.ok t, ⟨span, .ok c :: rest⟩))
  | fault {c : Char} {f : LexicalFault} {span : Span} {rest : Source} :
      s.step c = .fault f span → Ends s (.ok c :: rest) (some (.error ⟨f, span⟩, ⟨span, rest⟩))

end State

theorem scan_readAll? (h : s.readAll? cs = some s') (rest : Source) :
    scan s (.ofChars cs ++ rest) = scan s' rest := by
  induction cs generalizing s with
  | nil =>
    obtain rfl := Option.some.inj h
    rfl
  | cons c cs ih =>
    rw [State.readAll?] at h
    rw [Source.ofChars_cons, List.cons_append, scan]
    cases hs : s.step c with
    | more s => rw [hs] at h; exact ih h
    | token t span => rw [hs] at h; cases h
    | tokenBefore t span => rw [hs] at h; cases h
    | fault f span => rw [hs] at h; cases h

/-- Characters that all go on with the item, and then the end of the stream. -/
theorem scan_ofChars (h : s.readAll? cs = some s') :
    scan s (.ofChars cs) = s'.finish.map (·, ⟨s'.span, []⟩) := by
  have hscan := scan_readAll? h []
  rwa [List.append_nil] at hscan

/-- A scan takes some characters and then ends the item with what comes next. -/
theorem exists_ends (s : State) (source : Source) :
    ∃ cs s' rest, source = .ofChars cs ++ rest ∧ s.readAll? cs = some s' ∧
      s'.Ends rest (scan s source) := by
  induction source generalizing s with
  | nil => exact ⟨[], s, [], rfl, rfl, .stop⟩
  | cons x source ih =>
    cases x with
    | error reason => exact ⟨[], s, _, rfl, rfl, .missing⟩
    | ok c =>
      rw [scan]
      cases hs : s.step c with
      | more next =>
        obtain ⟨cs, s', rest, rfl, hread, hends⟩ := ih next
        exact ⟨c :: cs, s', rest, rfl, by rw [State.readAll?_cons hs, hread], hends⟩
      | token t span => exact ⟨[], s, _, rfl, rfl, .token hs⟩
      | tokenBefore t span => exact ⟨[], s, _, rfl, rfl, .tokenBefore hs⟩
      | fault f span => exact ⟨[], s, _, rfl, rfl, .fault hs⟩

/-! ## Items -/

/-- What the lexer has not read after an item is an end of what it had not read before it. -/
theorem exists_read_of_scan (h : scan s source = some (item, l)) :
    ∃ read, source = read ++ l.rest := by
  obtain ⟨cs, s', rest, rfl, _, hends⟩ := exists_ends s source
  rw [h] at hends
  generalize hx : some (item, l) = x at hends
  cases hends with
  | stop =>
    obtain ⟨_, _, hx⟩ := Option.map_eq_some_iff.mp hx.symm
    cases hx
    exact ⟨Source.ofChars cs, rfl⟩
  | missing => cases hx; exact ⟨_, List.append_cons _ _ _⟩
  | token _ => cases hx; exact ⟨_, List.append_cons _ _ _⟩
  | tokenBefore _ => cases hx; exact ⟨Source.ofChars cs, rfl⟩
  | fault _ => cases hx; exact ⟨_, List.append_cons _ _ _⟩

/-- An item takes the next element of the stream and maybe more. -/
theorem exists_read_of_next? (h : l.next? = some (item, l')) :
    ∃ x read, l.rest = x :: read ++ l'.rest := by
  obtain ⟨read, hread⟩ := exists_read_of_scan h
  have hlt := length_rest_lt h
  cases read with
  | nil =>
    rw [hread, List.nil_append] at hlt
    exact absurd hlt (Nat.lt_irrefl _)
  | cons x read => exact ⟨x, read, hread⟩

/-- There is no item only if the stream is read up to its end and nothing was begun there. -/
theorem scan_eq_none_iff :
    scan s source = none ↔
      ∃ cs s', source = .ofChars cs ∧ s.readAll? cs = some s' ∧ s'.finish = none := by
  constructor
  · intro h
    obtain ⟨cs, s', rest, rfl, hread, hends⟩ := exists_ends s source
    rw [h] at hends
    generalize hx : none = x at hends
    cases hends with
    | stop =>
      exact ⟨cs, s', by rw [List.append_nil], hread, Option.map_eq_none_iff.mp hx.symm⟩
    | missing => cases hx
    | token _ => cases hx
    | tokenBefore _ => cases hx
    | fault _ => cases hx
  · rintro ⟨cs, s', rfl, hread, hfinish⟩
    rw [scan_ofChars hread, hfinish, Option.map_none]

theorem next?_eq_none_iff :
    l.next? = none ↔ ∃ cs s, l.rest = .ofChars cs ∧
      (State.between l.span).readAll? cs = some s ∧ s.finish = none :=
  scan_eq_none_iff

theorem items_of_next?_eq_none (h : l.next? = none) : l.items = [] := by
  rw [items]
  split
  next => rfl
  next hsome => rw [h] at hsome; cases hsome

theorem items_of_next?_eq_some (h : l.next? = some (item, l')) : l.items = item :: l'.items := by
  rw [items]
  split
  next hnone => rw [h] at hnone; cases hnone
  next hsome =>
    rw [h] at hsome
    cases hsome
    rfl

/-- Lexers that yield the same next item and go on alike yield the same items. -/
theorem items_congr (h : l.next? = l'.next?) : l.items = l'.items := by
  cases hl : l.next? with
  | none =>
    have hl' : l'.next? = none := h ▸ hl
    rw [items_of_next?_eq_none hl, items_of_next?_eq_none hl']
  | some x =>
    have hl' : l'.next? = some (x.1, x.2) := h ▸ hl
    rw [items_of_next?_eq_some hl, items_of_next?_eq_some hl']

@[simp] theorem items_at_end (span : Span) : (Lexer.mk span []).items = [] :=
  items_of_next?_eq_none rfl

end Lexer

end PositionAutomata
