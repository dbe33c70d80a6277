import PositionAutomata.Document.Fault

/-
  The lexer: tokens from a stream of characters.

  An element of the stream is a character or the reason why there is none. The
  lexer keeps what it is in the middle of as a `Phase` and a stack of open
  groups, and reads one element at a time: `State.step` reads a character and
  `State.finish` says what the end of the stream makes of the state. A word has
  no closing mark, so it ends before the character that ends it.

  `Lexer.next?` answers one item, a token or a fault, and where to go on; after
  a fault it goes on as between two tokens. Each item takes at least one
  element of the stream (`length_rest_lt`), so `Lexer.items` ends.
-/

namespace PositionAutomata

/-- Characters, and reasons why one could not be had. -/
abbrev Source := List (Except String Char)

/-- The stream of the characters of a text. -/
def Source.ofChars (cs : List Char) : Source := cs.map .ok

/-- A token, or a fault and where it is. -/
abbrev Lexer.Item := Except (Located LexicalFault) Token

namespace Lexer

/-! ## Escapes -/

/-- What has been read of an escape after its backslash: nothing, or its kind
and some of its hexadecimal digits. -/
inductive Escape where
  | start
  | hex (missing value : Nat)

/-- What a character makes of an escape. -/
inductive Escape.Next where
  | done (c : Char)
  | more (e : Escape)
  | invalid

/-- The value of a hexadecimal digit. -/
def hexDigit? (c : Char) : Option Nat :=
  if '0' ≤ c && c ≤ '9' then some (c.toNat - '0'.toNat)
  else if 'a' ≤ c && c ≤ 'f' then some (c.toNat - 'a'.toNat + 10)
  else if 'A' ≤ c && c ≤ 'F' then some (c.toNat - 'A'.toNat + 10)
  else none

/-- Reads one more character of an escape. -/
def Escape.step : Escape → Char → Escape.Next
  | start, 'r' => .done '\r'
  | start, 'n' => .done '\n'
  | start, 's' => .done ' '
  | start, 't' => .done '\t'
  | start, 'x' => .more (.hex 2 0)
  | start, 'u' => .more (.hex 4 0)
  | start, 'U' => .more (.hex 8 0)
  | start, c => .done c
  | hex missing value, c =>
    match hexDigit? c with
    | none => .invalid
    | some d =>
      let value := 16 * value + d
      if 1 < missing then .more (.hex (missing - 1) value)
      else if value.isValidChar then .done (Char.ofNat value)
      else .invalid

/-- The fault of an escape at the end of the stream. -/
def Escape.atEnd (incomplete : LexicalFault) : Escape → LexicalFault
  | start => incomplete
  | hex _ _ => .invalidChar

/-! ## Charsets -/

/-- Where the lexer is inside a charset. -/
inductive Inside where
  /-- After the opening bracket; a `^` may follow. -/
  | opening
  /-- Before an entry or the closing bracket. -/
  | entry
  /-- After an opening bracket inside the charset; a `:` makes it a class. -/
  | bracket
  /-- In the name of a class, read so far in reverse. -/
  | className (name : List Char)
  /-- After the name of a class and its colon. -/
  | classEnd (name : List Char)
  /-- After a backslash. -/
  | backslash
  /-- In the escape of a character. -/
  | escape (e : Escape)
  /-- After a character; a `-` may follow. -/
  | after (first : Char)
  /-- After a character and a `-`. -/
  | dash (first : Char)
  /-- In the escape of the last character of a range. -/
  | lastEscape (first : Char) (e : Escape)

/-- What has been read of a charset, its entries in reverse. -/
structure PartialCharset where
  entries : List Entry
  negated : Bool
  inside : Inside

/-- What a character makes of a charset. -/
inductive CharsetNext where
  | more (s : PartialCharset)
  | closed (set : Charset)
  | fault (f : LexicalFault)

/-- The class that a letter after a backslash stands for. -/
def shorthand? : Char → Option (CharClass × Bool)
  | 'd' => some (.digit, false)
  | 'D' => some (.digit, true)
  | 'w' => some (.word, false)
  | 'W' => some (.word, true)
  | 's' => some (.space, false)
  | 'S' => some (.space, true)
  | _ => none

namespace PartialCharset

/-- The charset before its next entry. -/
def next (s : PartialCharset) (entries : List Entry) : CharsetNext :=
  .more { s with entries := entries ++ s.entries, inside := .entry }

/-- The charset, its entries in the order in which they were read. -/
def close (s : PartialCharset) (entries : List Entry) : CharsetNext :=
  .closed ⟨(entries ++ s.entries).reverse, s.negated⟩

/-- The character where an entry or the closing bracket is expected. -/
def stepEntry (s : PartialCharset) : Char → CharsetNext
  | ']' => s.close []
  | '[' => .more { s with inside := .bracket }
  | '\\' => .more { s with inside := .backslash }
  | c => .more { s with inside := .after c }

/-- The character after one that may be the first of a range. -/
def stepAfter (s : PartialCharset) (first : Char) : Char → CharsetNext
  | '-' => .more { s with inside := .dash first }
  | c => { s with entries := .char first.toNat :: s.entries }.stepEntry c

/-- A character of an escape. -/
def stepEscape (s : PartialCharset) (e : Escape) (c : Char) : CharsetNext :=
  match e.step c with
  | .done d => .more { s with inside := .after d }
  | .more e => .more { s with inside := .escape e }
  | .invalid => .fault .invalidChar

/-- The last character of a range. -/
def endRange (s : PartialCharset) (first last : Char) : CharsetNext :=
  if h : first.toNat ≤ last.toNat then s.next [.range ⟨first.toNat, last.toNat, h⟩]
  else .fault .invalidRange

/-- The class of a name in reverse. -/
def endClass (s : PartialCharset) (name : List Char) : CharsetNext :=
  let name := String.ofList name.reverse
  match CharClass.ofSpelling? name with
  | some (cls, negated) => s.next [.named cls negated]
  | none => .fault (.unknownClass name)

/-- Reads one more character of a charset. -/
def step (s : PartialCharset) (c : Char) : CharsetNext :=
  match s.inside with
  | .opening =>
    if c = '^' then .more { s with negated := true, inside := .entry } else s.stepEntry c
  | .entry => s.stepEntry c
  | .bracket => if c = ':' then .more { s with inside := .className [] } else s.stepAfter '[' c
  | .className name =>
    .more { s with inside := if c = ':' then .classEnd name else .className (c :: name) }
  | .classEnd name => if c = ']' then s.endClass name else .fault (.unexpected c)
  | .backslash =>
    match shorthand? c with
    | some (cls, negated) => s.next [.named cls negated]
    | none => s.stepEscape .start c
  | .escape e => s.stepEscape e c
  | .after first => s.stepAfter first c
  | .dash first =>
    if c = ']' then s.close [.char '-'.toNat, .char first.toNat]
    else if c = '\\' then .more { s with inside := .lastEscape first .start }
    else s.endRange first c
  | .lastEscape first e =>
    match e.step c with
    | .done last => s.endRange first last
    | .more e => .more { s with inside := .lastEscape first e }
    | .invalid => .fault .invalidChar

/-- The fault of a charset at the end of the stream. -/
def atEnd (s : PartialCharset) : LexicalFault :=
  match s.inside with
  | .escape e => e.atEnd .incompleteCharset
  | .lastEscape _ e => e.atEnd .incompleteCharset
  | _ => .incompleteCharset

end PartialCharset

/-! ## Tokens -/

/-- What the lexer is in the middle of. Texts are kept in reverse. -/
inductive Phase where
  /-- Between tokens. -/
  | blank
  | comment
  | word (name : List Char)
  | string (text : List Char)
  | stringEscape (text : List Char) (e : Escape)
  | charset (s : PartialCharset)

/-- A group whose closing parenthesis has not been read, its tokens in
reverse. -/
structure OpenGroup where
  span : Span
  items : List Token

/-- The group with one more token. -/
def OpenGroup.push (g : OpenGroup) (t : Token) : OpenGroup := ⟨g.span.append t.span, t :: g.items⟩

/-- The lexer in the middle of a token: the span of the innermost token being
read, the open groups from the innermost outwards, and the phase. -/
structure State where
  span : Span
  groups : List OpenGroup
  phase : Phase

/-- Between two tokens, no group being open. -/
def State.between (span : Span) : State := ⟨span, [], .blank⟩

/-- Whether a character ends a word. -/
def isSeparator (c : Char) : Bool := Text.isBlank c || ['(', ')', '[', ']', '"', '#'].contains c

/-- What a character makes of a state. -/
inductive Action where
  /-- The token goes on. -/
  | more (s : State)
  /-- A token ends with the character. -/
  | token (t : Token) (span : Span)
  /-- A token ended before the character. -/
  | tokenBefore (t : Token) (span : Span)
  /-- The character cannot be here. -/
  | fault (f : LexicalFault) (span : Span)

namespace State

/-- Ends a token with the last character read. -/
def endToken (span : Span) (groups : List OpenGroup) (t : Token) : Action :=
  match groups with
  | [] => .token t span
  | g :: outer => .more ⟨span, g.push t :: outer, .blank⟩

/-- A character between tokens. -/
def stepBlank (span : Span) (groups : List OpenGroup) (c : Char) : Action :=
  if Text.isBlank c then .more ⟨span.push c, groups, .blank⟩
  else if c = '#' then .more ⟨span.push c, groups, .comment⟩
  else
    let span := span.clear.push c
    if c = '(' then .more ⟨span, ⟨span, []⟩ :: groups, .blank⟩
    else if c = ')' then
      match groups with
      | [] => .fault (.unexpected c) span
      | g :: outer => endToken span outer (.group (g.span.append span) g.items.reverse)
    else if c = ']' then .fault (.unexpected c) span
    else if c = '[' then .more ⟨span, groups, .charset ⟨[], false, .opening⟩⟩
    else if c = '"' then .more ⟨span, groups, .string []⟩
    else .more ⟨span, groups, .word [c]⟩

/-- Reads one more character. -/
def step (s : State) (c : Char) : Action :=
  let span := s.span.push c
  match s.phase with
  | .blank => stepBlank s.span s.groups c
  | .comment => .more ⟨span, s.groups, if c = '\n' then .blank else .comment⟩
  | .word name =>
    if isSeparator c then
      let t := Token.ident s.span name.reverse
      match s.groups with
      | [] => .tokenBefore t s.span
      | g :: outer => stepBlank s.span (g.push t :: outer) c
    else .more ⟨span, s.groups, .word (c :: name)⟩
  | .string text =>
    if c = '"' then endToken span s.groups (.string span text.reverse)
    else if c = '\\' then .more ⟨span, s.groups, .stringEscape text .start⟩
    else .more ⟨span, s.groups, .string (c :: text)⟩
  | .stringEscape text e =>
    match e.step c with
    | .done d => .more ⟨span, s.groups, .string (d :: text)⟩
    | .more e => .more ⟨span, s.groups, .stringEscape text e⟩
    | .invalid => .fault .invalidChar span
  | .charset p =>
    match p.step c with
    | .more p => .more ⟨span, s.groups, .charset p⟩
    | .closed set => endToken span s.groups (.charset span set)
    | .fault f => .fault f span

/-- A group that is open at the end of the stream. -/
def unclosed (g : OpenGroup) : Item := .error ⟨.missingCloser, g.span⟩

/-- The item that the end of the stream gives. -/
def finish (s : State) : Option Item :=
  match s.phase with
  | .blank => s.groups.head?.map unclosed
  | .comment => s.groups.head?.map unclosed
  | .word name =>
    let t := Token.ident s.span name.reverse
    match s.groups with
    | [] => some (.ok t)
    | g :: _ => some (unclosed (g.push t))
  | .string _ => some (.error ⟨.incompleteString, s.span⟩)
  | .stringEscape _ e => some (.error ⟨e.atEnd .incompleteString, s.span⟩)
  | .charset p => some (.error ⟨p.atEnd, s.span⟩)

end State

end Lexer

/-! ## Items of a stream -/

/-- The lexer between two items: the span of what it read last and what it has
not read. -/
structure Lexer where
  span : Span
  rest : Source

namespace Lexer

/-- The lexer at the start of a stream. -/
def ofSource (source : Source) : Lexer := ⟨.origin, source⟩

/-- Reads on from a state up to the end of an item. -/
def scan (s : State) : Source → Option (Item × Lexer)
  | [] => s.finish.map (·, ⟨s.span, []⟩)
  | .error reason :: rest => some (.error ⟨.input reason, .ofPlace s.span.stop⟩, ⟨s.span, rest⟩)
  | .ok c :: rest =>
    match s.step c with
    | .more s => scan s rest
    | .token t span => some (.ok t, ⟨span, rest⟩)
    | .tokenBefore t span => some (.ok t, ⟨span, .ok c :: rest⟩)
    | .fault f span => some (.error ⟨f, span⟩, ⟨span, rest⟩)

/-- The next item, and the lexer after it. -/
def next? (l : Lexer) : Option (Item × Lexer) := scan (.between l.span) l.rest

/-- Only a word ends before a character. -/
theorem step_tokenBefore {s : State} {c : Char} {t : Token} {span : Span}
    (h : s.step c = .tokenBefore t span) : ∃ name, s.phase = .word name := by
  have blank : ∀ sp gs, State.stepBlank sp gs c ≠ .tokenBefore t span := by
    intro sp gs
    simp only [State.stepBlank, State.endToken]
    grind
  cases hp : s.phase with
  | word name => exact ⟨name, rfl⟩
  | blank => simp only [State.step, hp] at h; exact absurd h (blank _ _)
  | comment => simp [State.step, hp] at h
  | string text => simp only [State.step, hp, State.endToken] at h; grind
  | stringEscape text e => simp only [State.step, hp] at h; grind
  | charset p => simp only [State.step, hp, State.endToken] at h; grind

theorem length_scan_le {s : State} {source : Source} {item : Item} {l : Lexer}
    (h : scan s source = some (item, l)) : l.rest.length ≤ source.length := by
  fun_induction scan s source <;> grind [List.length_cons, Option.map_eq_some_iff]

/-- Each item takes at least one element of the stream. -/
theorem length_rest_lt {l l' : Lexer} {item : Item} (h : l.next? = some (item, l')) :
    l'.rest.length < l.rest.length := by
  obtain ⟨span, rest⟩ := l
  simp only [next?] at h
  cases rest with
  | nil => simp [scan, State.between, State.finish] at h
  | cons x rest =>
    cases x with
    | error reason => simp only [scan, Option.some.injEq, Prod.mk.injEq] at h; simp [← h.2]
    | ok c =>
      simp only [scan] at h
      cases hs : (State.between span).step c with
      | more s => rw [hs] at h; exact Nat.lt_succ_of_le (length_scan_le h)
      | token t sp => rw [hs] at h; simp only [Option.some.injEq, Prod.mk.injEq] at h; simp [← h.2]
      | tokenBefore t sp =>
        obtain ⟨name, hn⟩ := step_tokenBefore hs
        simp [State.between] at hn
      | fault f sp => rw [hs] at h; simp only [Option.some.injEq, Prod.mk.injEq] at h; simp [← h.2]

/-- All items up to the end of the stream. -/
def items (l : Lexer) : List Item :=
  match _ : l.next? with
  | none => []
  | some (item, l') => item :: l'.items
  termination_by l.rest.length
  decreasing_by exact length_rest_lt ‹_›

end Lexer

end PositionAutomata
