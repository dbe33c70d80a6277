import PositionAutomata.Proofs.Document.Places

/-
  Items of a stream that is read on from a state.

  What some characters yield does not depend on what comes after them. They
  yield some items, none of which says that a character could not be had, and
  leave the lexer in a state from which the rest of the stream is read on
  (`Consumes`). This holds of one character (`exists_consumes_char`), and so of
  any text (`exists_consumes`). The state stops where the text does, and there
  the lexer says that a character could not be had if this is what comes next
  (`itemsFrom_error`).
-/

namespace PositionAutomata

/-- That a character could not be had. -/
def LexicalFault.IsInput : LexicalFault → Prop
  | input _ => True
  | _ => False

namespace Lexer

variable {s s' : State} {c : Char} {source : Source}

/-! ## Faults of characters -/

/-- What a character can make of a charset: only a bracket closes it, and no fault is that a
character could not be had. -/
inductive CharsetNext.MadeBy (c : Char) : CharsetNext → Prop where
  | more {p : PartialCharset} : MadeBy c (.more p)
  | closed {set : Charset} : c = ']' → MadeBy c (.closed set)
  | fault {f : LexicalFault} : ¬ f.IsInput → MadeBy c (.fault f)

namespace PartialCharset

theorem madeBy_stepEntry (p : PartialCharset) (c : Char) : (p.stepEntry c).MadeBy c := by
  unfold stepEntry
  split
  · exact .closed rfl
  · exact .more
  · exact .more
  · exact .more

theorem madeBy_stepAfter (p : PartialCharset) (first c : Char) :
    (p.stepAfter first c).MadeBy c := by
  unfold stepAfter
  split
  · exact .more
  · exact madeBy_stepEntry _ c

theorem madeBy_stepEscape (p : PartialCharset) (e : Escape) (c : Char) :
    (p.stepEscape e c).MadeBy c := by
  unfold stepEscape
  split
  · exact .more
  · exact .more
  · exact .fault id

theorem madeBy_endRange (p : PartialCharset) (first last c : Char) :
    (p.endRange first last).MadeBy c := by
  unfold endRange
  split
  · exact .more
  · exact .fault id

theorem madeBy_endClass (p : PartialCharset) (name : List Char) (c : Char) :
    (p.endClass name).MadeBy c := by
  unfold endClass
  dsimp only
  split
  · exact .more
  · exact .fault id

theorem madeBy_step (p : PartialCharset) (c : Char) : (p.step c).MadeBy c := by
  obtain ⟨entries, negated, inside⟩ := p
  cases inside with
  | opening =>
    simp only [step]
    split
    · exact .more
    · exact madeBy_stepEntry _ c
  | entry => exact madeBy_stepEntry _ c
  | bracket =>
    simp only [step]
    split
    · exact .more
    · exact madeBy_stepAfter _ _ c
  | className name => exact .more
  | classEnd name =>
    simp only [step]
    split
    · exact madeBy_endClass _ name c
    · exact .fault id
  | backslash =>
    simp only [step]
    split
    · exact .more
    · exact madeBy_stepEscape _ _ c
  | escape e => exact madeBy_stepEscape _ e c
  | after first => exact madeBy_stepAfter _ first c
  | dash first =>
    simp only [step]
    split
    next h => exact .closed h
    split
    · exact .more
    · exact madeBy_endRange _ first c c
  | lastEscape first e =>
    simp only [step]
    split
    next last _ => exact madeBy_endRange _ first last c
    · exact .more
    · exact .fault id

end PartialCharset

/-- The action does not say that a character could not be had. -/
def Action.IsOwn : Action → Prop
  | fault f _ => ¬ f.IsInput
  | _ => True

namespace State

theorem isOwn_endToken (span : Span) (groups : List OpenGroup) (t : Token) :
    (endToken span groups t).IsOwn := by
  cases groups with
  | nil => exact trivial
  | cons g outer => exact trivial

theorem isOwn_stepBlank (span : Span) (groups : List OpenGroup) (c : Char) :
    (stepBlank span groups c).IsOwn := by
  simp only [stepBlank]
  split
  · exact trivial
  split
  · exact trivial
  split
  · exact trivial
  split
  · cases groups with
    | nil => exact id
    | cons g outer => exact isOwn_endToken _ outer _
  split
  · exact id
  split
  · exact trivial
  split
  · exact trivial
  · exact trivial

theorem isOwn_step (s : State) (c : Char) : (s.step c).IsOwn := by
  obtain ⟨span, groups, phase⟩ := s
  cases phase with
  | blank => exact isOwn_stepBlank span groups c
  | comment => exact trivial
  | word name =>
    simp only [step]
    split
    · cases groups with
      | nil => exact trivial
      | cons g outer => exact isOwn_stepBlank span _ c
    · exact trivial
  | string text =>
    simp only [step]
    split
    · exact isOwn_endToken _ groups _
    split
    · exact trivial
    · exact trivial
  | stringEscape text e =>
    simp only [step]
    cases e.step c with
    | done d => exact trivial
    | more e => exact trivial
    | invalid => exact id
  | charset p =>
    simp only [step]
    have hnext := p.madeBy_step c
    generalize p.step c = next at hnext ⊢
    cases hnext with
    | more => exact trivial
    | closed _ => exact isOwn_endToken _ groups _
    | fault h => exact h

end State

/-! ## Reading on -/

/-- The items of a stream that is read on from a state. -/
def itemsFrom (s : State) (source : Source) : List Item :=
  match scan s source with
  | none => []
  | some (item, l) => item :: l.items

theorem items_eq_itemsFrom (span : Span) (source : Source) :
    (Lexer.mk span source).items = itemsFrom (.between span) source := by
  unfold itemsFrom
  split
  next h => exact items_of_next?_eq_none h
  next h => exact items_of_next?_eq_some h

theorem itemsFrom_nil (s : State) : itemsFrom s [] = s.finish.toList := by
  rw [itemsFrom, scan]
  cases s.finish with
  | none => rfl
  | some item => exact congrArg (item :: ·) (items_at_end s.span)

theorem itemsFrom_error (s : State) (reason : String) (rest : Source) :
    itemsFrom s (.error reason :: rest) =
      .error ⟨.input reason, .ofPlace s.span.stop⟩ :: itemsFrom (.between s.span) rest := by
  rw [← items_eq_itemsFrom]
  rfl

/-- What a character makes of the state decides how the stream is read on. -/
theorem itemsFrom_ok (s : State) (c : Char) (rest : Source) :
    itemsFrom s (.ok c :: rest) =
      match s.step c with
      | .more s => itemsFrom s rest
      | .token t span => .ok t :: itemsFrom (.between span) rest
      | .tokenBefore t span => .ok t :: itemsFrom (.between span) (.ok c :: rest)
      | .fault f span => .error ⟨f, span⟩ :: itemsFrom (.between span) rest := by
  rw [itemsFrom, scan]
  cases s.step c with
  | more s => rfl
  | token t span => exact congrArg (_ :: ·) (items_eq_itemsFrom span rest)
  | tokenBefore t span => exact congrArg (_ :: ·) (items_eq_itemsFrom span _)
  | fault f span => exact congrArg (_ :: ·) (items_eq_itemsFrom span rest)

/-- Some characters make some items of a state and lead to another state, whatever comes next. No
item says that a character could not be had. -/
structure Consumes (s : State) (cs : List Char) (xs : List Item) (s' : State) : Prop where
  items : ∀ rest, itemsFrom s (.ofChars cs ++ rest) = xs ++ itemsFrom s' rest
  stop : s'.span.stop = s.span.stop.afterAll cs
  own : ∀ f, .error f ∈ xs → ¬ f.value.IsInput

namespace Consumes

theorem nil (s : State) : Consumes s [] [] s where
  items _ := rfl
  stop := rfl
  own _ hf := absurd hf List.not_mem_nil

theorem append {s₁ s₂ s₃ : State} {cs ds : List Char} {xs ys : List Item}
    (h : Consumes s₁ cs xs s₂) (h' : Consumes s₂ ds ys s₃) :
    Consumes s₁ (cs ++ ds) (xs ++ ys) s₃ where
  items rest := by
    rw [Source.ofChars_append, List.append_assoc, h.items, h'.items, List.append_assoc]
  stop := by rw [h'.stop, h.stop, Place.afterAll_append]
  own f hf := (List.mem_append.mp hf).elim (h.own f) (h'.own f)

/-- A character with which a token goes on or ends, or that cannot be there. -/
theorem of_step (h : ∀ t span, s.step c ≠ .tokenBefore t span) :
    ∃ xs s', Consumes s [c] xs s' := by
  have hadvances := State.advances_step s c
  have hown := State.isOwn_step s c
  have hitems : ∀ rest, itemsFrom s (.ofChars [c] ++ rest) = _ := itemsFrom_ok s c
  generalize s.step c = action at h hadvances hown hitems
  cases hadvances with
  | @more s' hstop =>
    exact ⟨[], s', hitems, hstop, fun f hf => absurd hf List.not_mem_nil⟩
  | @token t span hstop => exact ⟨[.ok t], .between span, hitems, hstop, by simp⟩
  | @tokenBefore t span _ => exact absurd rfl (h t span)
  | @fault f span hstop =>
    refine ⟨[.error ⟨f, span⟩], .between span, hitems, hstop, fun g hg => ?_⟩
    cases List.mem_singleton.mp hg
    exact hown

/-- A word ends before a character, which is then read as between two tokens. -/
theorem of_tokenBefore {t : Token} {span : Span} (h : s.step c = .tokenBefore t span)
    {xs : List Item} (hlater : Consumes (.between span) [c] xs s') :
    Consumes s [c] (.ok t :: xs) s' where
  items rest := by
    have hitems := itemsFrom_ok s c rest
    rw [h] at hitems
    exact hitems.trans (congrArg (_ :: ·) (hlater.items rest))
  stop := by
    have hadvances := State.advances_step s c
    rw [h] at hadvances
    cases hadvances with
    | tokenBefore hstop => rw [hlater.stop, State.between, hstop]
  own f hf := hlater.own f (by simpa using hf)

end Consumes

theorem exists_consumes_char (s : State) (c : Char) : ∃ xs s', Consumes s [c] xs s' := by
  by_cases h : ∃ t span, s.step c = .tokenBefore t span
  · obtain ⟨t, span, h⟩ := h
    have hblank : ∀ t' span', (State.between span).step c ≠ .tokenBefore t' span' := by
      intro t' span' hword
      obtain ⟨name, hname⟩ := step_tokenBefore hword
      cases hname
    obtain ⟨xs, s', hlater⟩ := Consumes.of_step hblank
    exact ⟨.ok t :: xs, s', .of_tokenBefore h hlater⟩
  · exact Consumes.of_step fun t span hword => h ⟨t, span, hword⟩

/-- What some characters yield, and where they lead, does not depend on what comes next. -/
theorem exists_consumes (s : State) (cs : List Char) : ∃ xs s', Consumes s cs xs s' := by
  induction cs generalizing s with
  | nil => exact ⟨[], s, .nil s⟩
  | cons c cs ih =>
    obtain ⟨xs, s₁, hfirst⟩ := exists_consumes_char s c
    obtain ⟨ys, s₂, hrest⟩ := ih s₁
    exact ⟨xs ++ ys, s₂, hfirst.append hrest⟩

end Lexer

end PositionAutomata
