import PositionAutomata.Proofs.Document.Escapes
import PositionAutomata.Proofs.Document.Tokens
import PositionAutomata.Proofs.Progress

/-
  Tokens that are read as they were written.

  A token is written as characters that make a token again wherever they are
  read between two tokens (`remade_of_writable`, by induction on the token). A group
  and a string end with their last character. A word goes on until something
  else comes, which is the end of the text, a blank or the parenthesis that
  closes a group: all of them leave the token in place (`Completes.scan`,
  `Completes.exists_readAll?`).
-/

namespace PositionAutomata.Lexer

open Text

variable {t : Token} {c : Char} {cs : List Char}

/-! ## Words -/

/-- A character that is no separator begins a word. -/
theorem stepBlank_of_isSeparator_eq_false (h : isSeparator c = false) (span : Span)
    (groups : List OpenGroup) :
    State.stepBlank span groups c = .more ⟨span.clear.push c, groups, .word [c]⟩ := by
  simp only [isSeparator, Bool.or_eq_false_iff, List.contains_eq_mem, decide_eq_false_iff_not,
    List.mem_cons, not_or] at h
  simp [State.stepBlank, h]

/-- A word goes on with all that is no separator. -/
theorem readAll?_word (h : ∀ c ∈ cs, isSeparator c = false) (span : Span)
    (groups : List OpenGroup) (name : List Char) :
    (State.mk span groups (.word name)).readAll? cs =
      some ⟨span.pushAll cs, groups, .word (cs.reverse ++ name)⟩ := by
  induction cs generalizing span name with
  | nil => rfl
  | cons c cs ih =>
    obtain ⟨hc, hcs⟩ := List.forall_mem_cons.mp h
    have hstep : (State.mk span groups (.word name)).step c =
        .more ⟨span.push c, groups, .word (c :: name)⟩ := by
      simp [State.step, hc]
    rw [State.readAll?_cons hstep, ih hcs, List.reverse_cons, List.append_assoc]
    rfl

/-! ## Strings -/

/-- An escape in a string adds the character to which it is undone. -/
theorem readAll?_stringEscape {e : Escape} (h : e.undo? cs = some c) (span : Span)
    (groups : List OpenGroup) (text : List Char) :
    (State.mk span groups (.stringEscape text e)).readAll? cs =
      some ⟨span.pushAll cs, groups, .string (c :: text)⟩ := by
  induction cs generalizing span e with
  | nil => cases h
  | cons x cs ih =>
    rw [Escape.undo?] at h
    cases hx : e.step x with
    | done d =>
      simp only [hx, List.isEmpty_iff, Option.ite_none_right_eq_some, Option.some.injEq] at h
      obtain ⟨rfl, rfl⟩ := h
      have hstep : (State.mk span groups (.stringEscape text e)).step x =
          .more ⟨span.push x, groups, .string (d :: text)⟩ := by
        simp only [State.step, hx]
      rw [State.readAll?_cons hstep]
      rfl
    | more e' =>
      rw [hx] at h
      have hstep : (State.mk span groups (.stringEscape text e)).step x =
          .more ⟨span.push x, groups, .stringEscape text e'⟩ := by
        simp only [State.step, hx]
      rw [State.readAll?_cons hstep, ih h]
      rfl
    | invalid => rw [hx] at h; cases h

/-- What is written for a character of a string adds the character. -/
theorem readAll?_encodeChar (h : c ≠ '"') (span : Span) (groups : List OpenGroup)
    (text : List Char) :
    (State.mk span groups (.string text)).readAll? (encodeChar c) =
      some ⟨span.pushAll (encodeChar c), groups, .string (c :: text)⟩ := by
  obtain ⟨hself, hbackslash⟩ | ⟨body, hbody, hundo⟩ := encodeChar_undone c
  · have hstep : (State.mk span groups (.string text)).step c =
        .more ⟨span.push c, groups, .string (c :: text)⟩ := by
      simp [State.step, h, hbackslash]
    rw [hself, State.readAll?_cons hstep]
    rfl
  · have hstep : (State.mk span groups (.string text)).step '\\' =
        .more ⟨span.push '\\', groups, .stringEscape text .start⟩ := rfl
    rw [hbody, State.readAll?_cons hstep, readAll?_stringEscape hundo]
    rfl

theorem readAll?_encode (h : '"' ∉ cs) (span : Span) (groups : List OpenGroup)
    (text : List Char) :
    (State.mk span groups (.string text)).readAll? (encode cs) =
      some ⟨span.pushAll (encode cs), groups, .string (cs.reverse ++ text)⟩ := by
  induction cs generalizing span text with
  | nil => rfl
  | cons c cs ih =>
    obtain ⟨hc, hcs⟩ := List.ne_and_not_mem_of_not_mem_cons h
    have hcons : encode (c :: cs) = encodeChar c ++ encode cs := List.flatMap_cons
    rw [hcons, State.readAll?_append_of_eq (readAll?_encodeChar hc.symm span groups text),
      ih hcs, Span.pushAll_append, List.reverse_cons, List.append_assoc]
    rfl

/-! ## Tokens -/

/-- With any separator the state goes on as if it were between two tokens. -/
def State.Settled (s : State) (groups : List OpenGroup) : Prop :=
  ∀ c, isSeparator c = true → s.step c = stepBlank s.span groups c

/-- Between two tokens, with some groups open, the characters make a token. It ends with the last
of them, or it is a word, which goes on up to a separator. -/
inductive Completes (span : Span) (groups : List OpenGroup) (t : Token) : List Char → Prop where
  | closed {cs : List Char} {c : Char} {s : State} {after : Span} :
      (State.mk span groups .blank).readAll? cs = some s →
      s.step c = State.endToken after groups t → Completes span groups t (cs ++ [c])
  | word {cs : List Char} {after : Span} {name : List Char} :
      (State.mk span groups .blank).readAll? cs = some ⟨after, groups, .word name⟩ →
      t = .ident after name.reverse → Completes span groups t cs

namespace Completes

variable {span : Span} {g : OpenGroup} {outer : List OpenGroup}

/-- At the end of the stream the token is complete. -/
theorem scan (h : Completes span [] t cs) :
    ∃ after, Lexer.scan (.between span) (.ofChars cs) = some (.ok t, ⟨after, []⟩) := by
  cases h with
  | @closed cs c s after hread hstep =>
    refine ⟨after, ?_⟩
    rw [Source.ofChars_append, State.between, scan_readAll? hread, Source.ofChars_cons, Lexer.scan,
      hstep]
    rfl
  | @word _ after name hread ht =>
    subst ht
    exact ⟨after, scan_ofChars hread⟩

/-- In a group the token is complete before any separator. -/
theorem exists_readAll? (h : Completes span (g :: outer) t cs) :
    ∃ s, (State.mk span (g :: outer) .blank).readAll? cs = some s ∧
      s.Settled (g.push t :: outer) := by
  cases h with
  | @closed cs c s after hread hstep =>
    refine ⟨⟨after, g.push t :: outer, .blank⟩, ?_, fun _ _ => rfl⟩
    rw [State.readAll?_append_of_eq hread, State.readAll?_cons hstep]
    rfl
  | @word _ after name hread ht =>
    subst ht
    refine ⟨⟨after, g :: outer, .word name⟩, hread, fun c hc => ?_⟩
    simp [State.step, hc]

end Completes

/-- Wherever the text of the token is read between two tokens, it makes the token again. -/
def Remade (t : Token) : Prop :=
  ∀ span groups, ∃ u, u.bare = t.bare ∧ Completes span groups u t.chars

theorem remade_ident {name : List Char} (hne : name ≠ [])
    (h : ∀ c ∈ name, isSeparator c = false) (span : Span) : Remade (.ident span name) := by
  intro before groups
  obtain ⟨c, cs, rfl⟩ := List.exists_cons_of_ne_nil hne
  obtain ⟨hc, hcs⟩ := List.forall_mem_cons.mp h
  have hfirst : (State.mk before groups .blank).step c =
      .more ⟨before.clear.push c, groups, .word [c]⟩ :=
    stepBlank_of_isSeparator_eq_false hc before groups
  have hread := (State.readAll?_cons hfirst cs).trans (readAll?_word hcs _ groups [c])
  have hname : (cs.reverse ++ [c]).reverse = c :: cs := by
    rw [← List.reverse_cons, List.reverse_reverse]
  exact ⟨.ident ((before.clear.push c).pushAll cs) (c :: cs), rfl, .word hread (by rw [hname])⟩

theorem remade_string {text : List Char} (h : '"' ∉ text) (span : Span) :
    Remade (.string span text) := by
  intro before groups
  have hquote : (State.mk before groups .blank).step '"' =
      .more ⟨before.clear.push '"', groups, .string []⟩ := rfl
  have hread := (State.readAll?_cons hquote _).trans (readAll?_encode h _ groups [])
  rw [List.append_nil] at hread
  refine ⟨.string _ text.reverse.reverse, ?_, .closed hread rfl⟩
  rw [List.reverse_reverse]
  rfl

/-- In a group the texts of some tokens, one blank apart, make these tokens in order. The last of
them may be a word that has not ended. -/
theorem exists_readAll?_charsOfAll {items : List Token} (h : ∀ t ∈ items, Remade t) (span : Span)
    (g : OpenGroup) (outer : List OpenGroup) :
    ∃ (s : State) (g' : OpenGroup) (us : List Token),
      (State.mk span (g :: outer) .blank).readAll? (Token.charsOfAll items) = some s ∧
        s.Settled (g' :: outer) ∧ g'.items = us.reverse ++ g.items ∧
        us.map Token.bare = items.map Token.bare := by
  induction items generalizing span g with
  | nil => exact ⟨⟨span, g :: outer, .blank⟩, g, [], rfl, fun _ _ => rfl, rfl, rfl⟩
  | cons t rest ih =>
    obtain ⟨ht, hrest⟩ := List.forall_mem_cons.mp h
    obtain ⟨u, hu, hcompletes⟩ := ht span (g :: outer)
    obtain ⟨s, hread, hsettled⟩ := hcompletes.exists_readAll?
    cases rest with
    | nil => exact ⟨s, g.push u, [u], hread, hsettled, rfl, congrArg ([·]) hu⟩
    | cons t' rest =>
      have hblank : s.step ' ' = .more ⟨s.span.push ' ', g.push u :: outer, .blank⟩ :=
        hsettled ' ' rfl
      obtain ⟨s', g', us, hread', hsettled', hitems, hus⟩ :=
        ih hrest (s.span.push ' ') (g.push u)
      refine ⟨s', g', u :: us, ?_, hsettled', ?_, ?_⟩
      · rw [Token.charsOfAll_cons_cons, State.readAll?_append_of_eq hread,
          State.readAll?_cons hblank, hread']
      · rw [hitems, List.reverse_cons, List.append_assoc]
        rfl
      · rw [List.map_cons, hu, hus]
        rfl

theorem remade_group {items : List Token} (h : ∀ t ∈ items, Remade t) (span : Span) :
    Remade (.group span items) := by
  intro before groups
  have hopen : (State.mk before groups .blank).step '(' =
      .more ⟨before.clear.push '(', ⟨before.clear.push '(', []⟩ :: groups, .blank⟩ := rfl
  obtain ⟨s, g, us, hread, hsettled, hitems, hus⟩ :=
    exists_readAll?_charsOfAll h (before.clear.push '(') ⟨before.clear.push '(', []⟩ groups
  have hclose : s.step ')' = State.endToken (s.span.clear.push ')') groups
      (.group (g.span.append (s.span.clear.push ')')) g.items.reverse) := hsettled ')' rfl
  rw [hitems, List.append_nil, List.reverse_reverse] at hclose
  refine ⟨.group _ us, ?_, .closed ((State.readAll?_cons hopen _).trans hread) hclose⟩
  rw [Token.bare_group, Token.bare_group, hus]

theorem remade_of_writable (h : t.Writable) : Remade t := by
  induction h with
  | @group span items _ ih => exact remade_group ih span
  | @string span text h => exact remade_string h span
  | @ident span name hne h => exact remade_ident hne h span

/-- The text of a token that is made of words without a separator, strings without a double quote
and groups is read as that token, wherever it stood, and as nothing else. So what is written for a
character of a string is undone: a character is written as itself, unless it is a backslash, or as a
backslash and an escape that stands for just this character. An escape of two, four or eight
hexadecimal digits is undone to the character whose number they are. -/
theorem items_written_token :
    (∀ t : Token, t.Writable →
      ∃ u, (ofSource (.ofChars t.chars)).items = [.ok u] ∧ u.bare = t.bare) ∧
    (∀ c, (encodeChar c = [c] ∧ c ≠ '\\') ∨
      ∃ body, encodeChar c = '\\' :: body ∧ Escape.start.undo? body = some c) ∧
    ∀ c : Char,
      (c.toNat < 16 ^ 2 → Escape.start.undo? ('x' :: hexDigits 2 c.toNat) = some c) ∧
      (c.toNat < 16 ^ 4 → Escape.start.undo? ('u' :: hexDigits 4 c.toNat) = some c) ∧
      Escape.start.undo? ('U' :: hexDigits 8 c.toNat) = some c := by
  refine ⟨fun t h => ?_, encodeChar_undone, fun c => ⟨undo?_hexDigits, undo?_hexDigits, ?_⟩⟩
  · obtain ⟨u, hu, hcompletes⟩ := remade_of_writable h .origin []
    obtain ⟨after, hscan⟩ := hcompletes.scan
    exact ⟨u, Yields.items_of_end (.cons hscan .nil) rfl, hu⟩
  · have hsmall : c.toNat < 16 ^ 8 := c.val.toNat_lt
    exact undo?_hexDigits hsmall

/-- A group of a word with a backslash, a string with a tab, a backslash, two control characters and
a parenthesis, an empty group, and a group that ends with a word. -/
def nestedGroup : Token :=
  .group ⟨⟨4, 2⟩, ⟨4, 9⟩, ⟨5, 0⟩⟩ [.ident .origin ['\\', 'n'],
    .string .origin ['\t', '\\', '\x7f', '\x85', ')'], .group .origin [],
    .group .origin [.string .origin [], .ident .origin ['-', '1']]]

theorem items_written_nestedGroup :
    nestedGroup.Writable ∧
      nestedGroup.chars = "(\\n \"\\t\\\\\\x7f\\x85)\" () (\"\" -1))".toList ∧
      (∃ u, (ofSource (.ofChars nestedGroup.chars)).items = [.ok u] ∧
        u.bare = nestedGroup.bare) ∧
      Escape.start.undo? ['x', '8', '5'] = some '\x85' ∧
      Escape.start.undo? ['u', '2', '0', '2', '8'] = some '\u2028' := by
  have hword {c d : Char} (hc : isSeparator c = false) (hd : isSeparator d = false) :
      Token.Writable (.ident .origin [c, d]) :=
    .ident (List.cons_ne_nil c [d])
      (List.forall_mem_cons.mpr ⟨hc, List.forall_mem_singleton.mpr hd⟩)
  have hinner : Token.Writable (.group .origin [.string .origin [], .ident .origin ['-', '1']]) := by
    refine .group fun t ht => ?_
    obtain rfl | rfl : _ ∨ _ := by simpa using ht
    · exact .string (by decide)
    · exact hword rfl rfl
  have hwritable : nestedGroup.Writable := by
    refine .group fun t ht => ?_
    obtain rfl | rfl | rfl | rfl : _ ∨ _ ∨ _ ∨ _ := by simpa using ht
    · exact hword rfl rfl
    · exact .string (by decide)
    · exact .group fun t ht => absurd ht List.not_mem_nil
    · exact hinner
  obtain ⟨hread, _, hnumbers⟩ := items_written_token
  exact ⟨hwritable, rfl, hread nestedGroup hwritable, (hnumbers '\x85').1 (by decide),
    (hnumbers '\u2028').2.1 (by decide)⟩

end PositionAutomata.Lexer
