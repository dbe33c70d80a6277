import PositionAutomata.Document.Token.Lexer

/-
  Tokens and the spans in them.

  `Token.mapSpans` changes every span of a token, also those of the tokens in
  it, and leaves all else. `Token.bare` is the token without where it stands. The
  tokens that are written so that they can be read are the `Writable` ones.
-/

namespace PositionAutomata

@[simp] theorem Span.pushAll_nil (s : Span) : s.pushAll [] = s := rfl

@[simp] theorem Span.pushAll_cons (s : Span) (c : Char) (cs : List Char) :
    s.pushAll (c :: cs) = (s.push c).pushAll cs := rfl

theorem Span.pushAll_append (s : Span) (xs ys : List Char) :
    s.pushAll (xs ++ ys) = (s.pushAll xs).pushAll ys := List.foldl_append

namespace Token

/-- What holds of a group if it holds of the tokens in it, and of all other tokens, holds of every
token. -/
@[elab_as_elim]
theorem induction {P : Token → Prop}
    (group : ∀ span items, (∀ t ∈ items, P t) → P (group span items))
    (string : ∀ span text, P (string span text)) (charset : ∀ span set, P (charset span set))
    (ident : ∀ span name, P (ident span name)) (t : Token) : P t :=
  @Token.rec P (fun ts => ∀ t ∈ ts, P t) group string charset ident
    (fun _ ht => absurd ht List.not_mem_nil)
    (fun _ _ ht hts => List.forall_mem_cons.mpr ⟨ht, hts⟩) t

mutual

/-- The token with all its spans changed, those of the tokens in it included. -/
def mapSpans (f : Span → Span) : Token → Token
  | group span items => group (f span) (mapSpansAll f items)
  | string span text => string (f span) text
  | charset span set => charset (f span) set
  | ident span name => ident (f span) name

/-- Some tokens with all their spans changed. -/
def mapSpansAll (f : Span → Span) : List Token → List Token
  | [] => []
  | t :: rest => t.mapSpans f :: mapSpansAll f rest

end

theorem mapSpansAll_eq_map (f : Span → Span) (ts : List Token) :
    mapSpansAll f ts = ts.map (mapSpans f) := by
  induction ts with
  | nil => rfl
  | cons t ts ih => rw [mapSpansAll, ih, List.map_cons]

@[simp] theorem span_mapSpans (f : Span → Span) (t : Token) : (t.mapSpans f).span = f t.span := by
  cases t <;> rfl

/-- The token without where it stands: every span is the one at the start of a text. -/
def bare : Token → Token := mapSpans fun _ => .origin

theorem bare_group (span : Span) (items : List Token) :
    (group span items).bare = .group .origin (items.map bare) := by
  rw [bare, mapSpans, mapSpansAll_eq_map]

theorem charsOfAll_cons_cons (t u : Token) (rest : List Token) :
    charsOfAll (t :: u :: rest) = t.chars ++ ' ' :: charsOfAll (u :: rest) := rfl

/-- Words without a separator, strings without a double quote, and groups of them. -/
inductive Writable : Token → Prop where
  | group {span : Span} {items : List Token} :
      (∀ t ∈ items, Writable t) → Writable (.group span items)
  | string {span : Span} {text : List Char} : '"' ∉ text → Writable (.string span text)
  | ident {span : Span} {name : List Char} :
      name ≠ [] → (∀ c ∈ name, Lexer.isSeparator c = false) → Writable (.ident span name)

end Token

end PositionAutomata
