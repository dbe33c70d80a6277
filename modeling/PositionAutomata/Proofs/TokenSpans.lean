import PositionAutomata.Proofs.Concatenation
import PositionAutomata.Proofs.Document.Slices
import PositionAutomata.Proofs.Document.Streams

/-
  The spans of the tokens of a text.

  The lexer keeps one span for the innermost token and one for each open group.
  `State.Tracks` says what they are the spans of: behind the open groups, each
  with the tokens that it has so far (`Opens`), are blanks and comments, and
  then what has been read of a token (`Begun`). Each character keeps this, and the
  token that it ends stands on its characters (`tracks_step`). So does every
  token of a text, one behind the other (`spread_items`), and with it every token
  inside it.
-/

namespace PositionAutomata.Lexer

open Token

variable {p : Place} {cs before gap slice : List Char} {c : Char} {span : Span}
  {groups outer : List OpenGroup} {g : OpenGroup} {t : Token} {s s' : State}

/-! ## What has been read -/

/-- Some open groups, the innermost first, were opened on these characters, which end with the last
token of the innermost one or its parenthesis. -/
def Opens : List OpenGroup → Place → List Char → Prop
  | [], _, cs => cs = []
  | g :: outer, p, cs => ∃ before gap inner, cs = before ++ gap ++ '(' :: inner ∧
      Opens outer p before ∧ Skipped gap ∧
      g.span = .ofChars (p.afterAll (before ++ gap)) ('(' :: inner) ∧
      StandAll g.items.reverse ((p.afterAll (before ++ gap)).after '(') inner

/-- What has been read since the last token, or the beginning of the text, if no token is begun. -/
inductive Between : List Char → Phase → Prop where
  | blank {gap : List Char} : Skipped gap → Between gap .blank
  | comment {gap body : List Char} :
      Skipped gap → '\n' ∉ body → Between (gap ++ '#' :: body) .comment

/-- What has been read of a token that is begun. -/
inductive Begun : List Char → Phase → Prop where
  | word {name : List Char} :
      name ≠ [] → (∀ c ∈ name, isSeparator c = false) → Begun name.reverse (.word name)
  | string {body text : List Char} : Spells body text.reverse → Begun ('"' :: body) (.string text)
  | stringEscape {body text esc : List Char} {e : Escape} :
      Spells body text.reverse → (∀ rest, Escape.start.undo? (esc ++ rest) = e.undo? rest) →
      Begun ('"' :: body ++ '\\' :: esc) (.stringEscape text e)
  | charset {body : List Char} {p : PartialCharset} :
      Fills body p → Begun ('[' :: body) (.charset p)

/-- The state is the one after these characters, the first of them at the place. -/
inductive State.Tracks (p : Place) (cs : List Char) (s : State) : Prop where
  | between {before gap : List Char} : cs = before ++ gap → Opens s.groups p before →
      Between gap s.phase → s.span.stop = p.afterAll cs → Tracks p cs s
  | begun {before gap slice : List Char} : cs = before ++ gap ++ slice →
      Opens s.groups p before → Skipped gap → Begun slice s.phase →
      s.span = .ofChars (p.afterAll (before ++ gap)) slice → Tracks p cs s

/-- These characters are those of a token, behind blanks and comments. -/
def Holds (p : Place) (cs : List Char) (t : Token) : Prop :=
  ∃ gap slice, cs = gap ++ slice ∧ Skipped gap ∧ t.Stands (p.afterAll gap) slice

/-- The action is right for a character after these ones. -/
inductive Action.Tracks (p : Place) (cs : List Char) (c : Char) : Action → Prop where
  | more {s : State} : s.Tracks p (cs ++ [c]) → Tracks p cs c (.more s)
  | token {t : Token} {span : Span} : Holds p (cs ++ [c]) t → span.stop = p.afterAll (cs ++ [c]) →
      Tracks p cs c (.token t span)
  | tokenBefore {t : Token} {span : Span} : Holds p cs t → span.stop = p.afterAll cs →
      Tracks p cs c (.tokenBefore t span)
  | fault {f : LexicalFault} {span : Span} : Tracks p cs c (.fault f span)

/-! ## Tokens that are begun -/

namespace Begun

variable {name text : List Char} {e e' : Escape} {d : Char} {q q' : PartialCharset}
  {set : Charset}

theorem word_more (h : Begun slice (.word name)) (hc : isSeparator c = false) :
    Begun (slice ++ [c]) (.word (c :: name)) := by
  cases h with
  | word hne hword =>
    rw [← List.reverse_cons]
    exact .word (List.cons_ne_nil c name) (List.forall_mem_cons.mpr ⟨hc, hword⟩)

/-- A word that has ended. -/
theorem stands_ident (h : Begun slice (.word name)) (p : Place) :
    (Token.ident (.ofChars p slice) name.reverse).Stands p slice := by
  cases h with
  | word hne hword => exact ⟨rfl, rfl, by simpa using hne, by simpa using hword⟩

theorem string_more (h : Begun slice (.string text)) (hquote : c ≠ '"') (hbackslash : c ≠ '\\') :
    Begun (slice ++ [c]) (.string (c :: text)) := by
  cases h with
  | string hspells =>
    refine .string ?_
    rw [List.reverse_cons]
    exact .char hquote hbackslash hspells

theorem string_backslash (h : Begun slice (.string text)) :
    Begun (slice ++ ['\\']) (.stringEscape text .start) := by
  cases h with
  | string hspells => exact .stringEscape hspells fun _ => rfl

/-- A string with its closing quote. -/
theorem stands_string (h : Begun slice (.string text)) (p : Place) :
    (Token.string (.ofChars p (slice ++ ['"'])) text.reverse).Stands p (slice ++ ['"']) := by
  cases h with
  | string hspells => exact ⟨rfl, _, rfl, hspells⟩

theorem escape_more (h : Begun slice (.stringEscape text e)) (hstep : e.step c = .more e') :
    Begun (slice ++ [c]) (.stringEscape text e') := by
  cases h with
  | stringEscape hspells hundo =>
    rw [List.append_assoc, List.cons_append (a := '\\')]
    refine .stringEscape hspells fun rest => ?_
    rw [List.append_assoc, hundo, List.singleton_append, Escape.undo?_of_more hstep]

/-- The last character of an escape. -/
theorem escape_done (h : Begun slice (.stringEscape text e)) (hstep : e.step c = .done d) :
    Begun (slice ++ [c]) (.string (d :: text)) := by
  cases h with
  | stringEscape hspells hundo =>
    rw [List.append_assoc, List.cons_append (a := '\\')]
    refine .string ?_
    rw [List.reverse_cons]
    refine .escape ?_ hspells
    rw [hundo, Escape.undo?_of_done hstep]

theorem charset_more (h : Begun slice (.charset q)) (hstep : q.step c = .more q') :
    Begun (slice ++ [c]) (.charset q') := by
  cases h with
  | charset hfills => exact .charset (.step hstep hfills)

/-- A charset with its closing bracket. -/
theorem stands_charset (h : Begun slice (.charset q)) (hstep : q.step c = .closed set) (p : Place) :
    (Token.charset (.ofChars p (slice ++ [c])) set).Stands p (slice ++ [c]) := by
  have hnext := q.madeBy_step c
  rw [hstep] at hnext
  cases hnext with
  | closed hbracket =>
    subst hbracket
    cases h with
    | charset hfills => exact ⟨rfl, _, q, rfl, hfills, hstep⟩

end Begun

/-! ## Groups -/

/-- A group whose parenthesis has just been read. -/
theorem Opens.cons (h : Opens groups p before) (hgap : Skipped gap) :
    Opens (⟨.ofChars (p.afterAll (before ++ gap)) ['('], []⟩ :: groups) p
      (before ++ gap ++ ['(']) :=
  ⟨before, gap, [], rfl, h, hgap, rfl, rfl⟩

/-- The innermost group: what is before it, and how its span grows. -/
theorem Opens.exists_inner (h : Opens (g :: outer) p cs) :
    ∃ before gap inner, cs = before ++ gap ++ '(' :: inner ∧ Opens outer p before ∧ Skipped gap ∧
      StandAll g.items.reverse ((p.afterAll (before ++ gap)).after '(') inner ∧
      ∀ gap' slice, EndsPlain slice → g.span.append (.ofChars (p.afterAll (cs ++ gap')) slice) =
        .ofChars (p.afterAll (before ++ gap)) ('(' :: inner ++ gap' ++ slice) := by
  obtain ⟨before, gap, inner, rfl, houter, hgap, hspan, hitems⟩ := h
  have hplain : EndsPlain ('(' :: inner) := by
    obtain rfl | hinner := hitems.endsPlain
    · exact ⟨[], '(', rfl, rfl⟩
    · exact hinner.append ['(']
  refine ⟨before, gap, inner, rfl, houter, hgap, hitems, fun gap' slice hslice => ?_⟩
  rw [hspan, List.append_assoc (before ++ gap), Place.afterAll_append p (before ++ gap)]
  exact Span.append_ofChars hplain hslice _ gap'

/-- The innermost group with one more token. -/
theorem Opens.push (h : Opens (g :: outer) p before) (hgap : Skipped gap)
    (ht : t.Stands (p.afterAll (before ++ gap)) slice) :
    Opens (g.push t :: outer) p (before ++ gap ++ slice) := by
  obtain ⟨before', gap', inner, rfl, houter, hgap', hitems, hspan⟩ := h.exists_inner
  refine ⟨before', gap', inner ++ gap ++ slice, by simp, houter, hgap', ?_, ?_⟩
  · rw [OpenGroup.push, ht.span_eq, hspan gap slice ht.endsPlain]
    simp
  · rw [OpenGroup.push, List.reverse_cons]
    refine hitems.append_singleton hgap ?_
    rwa [List.append_assoc (before' ++ gap'), Place.afterAll_append] at ht

/-- The innermost group with its closing parenthesis is a token. -/
theorem Opens.exists_stands (h : Opens (g :: outer) p before) (hgap : Skipped gap) :
    ∃ before' gap' slice, before ++ gap ++ [')'] = before' ++ gap' ++ slice ∧
      Opens outer p before' ∧ Skipped gap' ∧
      Stands (.group (g.span.append (.ofChars (p.afterAll (before ++ gap)) [')'])) g.items.reverse)
        (p.afterAll (before' ++ gap')) slice := by
  obtain ⟨before', gap', inner, rfl, houter, hgap', hitems, hspan⟩ := h.exists_inner
  exact ⟨before', gap', '(' :: inner ++ gap ++ [')'], by simp, houter, hgap',
    hspan gap [')'] ⟨[], ')', rfl, rfl⟩, inner, gap, rfl, hitems, hgap⟩

/-! ## Steps -/

namespace State

theorem tracks_endToken (hcs : cs ++ [c] = before ++ gap ++ slice) (h : Opens groups p before)
    (hgap : Skipped gap) (ht : t.Stands (p.afterAll (before ++ gap)) slice)
    (hstop : span.stop = p.afterAll (cs ++ [c])) : (endToken span groups t).Tracks p cs c := by
  cases groups with
  | nil =>
    obtain rfl := h
    exact .token ⟨gap, slice, hcs, hgap, ht⟩ hstop
  | cons g outer =>
    refine .more (.between ?_ (h.push hgap ht) (.blank .nil) hstop)
    rw [List.append_nil, hcs]

theorem tracks_stepBlank (hcs : cs = before ++ gap) (h : Opens groups p before)
    (hgap : Skipped gap) (hstop : span.stop = p.afterAll cs) (c : Char) :
    (stepBlank span groups c).Tracks p cs c := by
  have hclear : span.clear.push c = .ofChars (p.afterAll (before ++ gap)) [c] := by
    rw [← hcs, ← hstop]
    rfl
  have hbetween : ∀ {phase}, Between (gap ++ [c]) phase →
      (Action.more ⟨span.push c, groups, phase⟩).Tracks p cs c := fun hphase =>
    .more (.between (by rw [hcs, List.append_assoc]) h hphase (Span.stop_push_of_eq hstop c))
  have hbegun : ∀ {phase}, Begun [c] phase →
      (Action.more ⟨span.clear.push c, groups, phase⟩).Tracks p cs c := fun hphase =>
    .more (.begun (by rw [hcs]) h hgap hphase hclear)
  simp only [stepBlank]
  split
  next hblank => exact hbetween (.blank (.blank hblank hgap))
  split
  next hcomment =>
    subst hcomment
    exact hbetween (.comment hgap List.not_mem_nil)
  split
  next hopen =>
    subst hopen
    rw [hclear]
    exact .more (.between (by rw [hcs, List.append_nil]) (h.cons hgap) (.blank .nil)
      (by rw [Span.stop_ofChars, ← Place.afterAll_append, hcs]))
  split
  next hclose =>
    subst hclose
    cases groups with
    | nil => exact .fault
    | cons g outer =>
      obtain ⟨before', gap', slice, heq, houter, hgap', ht⟩ := h.exists_stands hgap
      rw [hclear]
      exact tracks_endToken (hcs ▸ heq) houter hgap' ht
        (by rw [Span.stop_ofChars, ← Place.afterAll_append, hcs])
  split
  · exact .fault
  split
  next hbracket =>
    subst hbracket
    exact hbegun (.charset .nil)
  split
  next hquote =>
    subst hquote
    exact hbegun (.string .nil)
  next hblank hcomment hopen hclose hright hbracket hquote =>
    have hword : isSeparator c = false := by
      simp [isSeparator, hblank, hcomment, hopen, hclose, hright, hbracket, hquote]
    exact hbegun (.word (List.cons_ne_nil c []) (List.forall_mem_singleton.mpr hword))

/-- A character of a token that is begun, or the one behind a word. -/
theorem tracks_of_begun {phase : Phase} (hcs : cs = before ++ gap ++ slice)
    (h : Opens groups p before) (hgap : Skipped gap) (hbegun : Begun slice phase)
    (hspan : span = .ofChars (p.afterAll (before ++ gap)) slice) (c : Char) :
    ((State.mk span groups phase).step c).Tracks p cs c := by
  have hstop : span.stop = p.afterAll cs := by
    rw [hspan, hcs, Place.afterAll_append p (before ++ gap)]
    rfl
  have hpush : span.push c = .ofChars (p.afterAll (before ++ gap)) (slice ++ [c]) := by
    rw [hspan, Span.push_ofChars]
  have hmore : ∀ {phase}, Begun (slice ++ [c]) phase →
      (Action.more ⟨span.push c, groups, phase⟩).Tracks p cs c := fun hphase =>
    .more (.begun (by rw [hcs, List.append_assoc]) h hgap hphase hpush)
  have hend : ∀ {t : Token}, t.Stands (p.afterAll (before ++ gap)) (slice ++ [c]) →
      (endToken (span.push c) groups t).Tracks p cs c := fun ht =>
    tracks_endToken (by rw [hcs, List.append_assoc]) h hgap ht (Span.stop_push_of_eq hstop c)
  cases phase with
  | blank => cases hbegun
  | comment => cases hbegun
  | word name =>
    simp only [step]
    split
    · have ht := hbegun.stands_ident (p.afterAll (before ++ gap))
      rw [← hspan] at ht
      cases groups with
      | nil =>
        obtain rfl := h
        exact .tokenBefore ⟨gap, slice, hcs, hgap, ht⟩ hstop
      | cons g outer =>
        exact tracks_stepBlank (by rw [hcs, List.append_nil]) (h.push hgap ht) .nil hstop c
    next hc => exact hmore (hbegun.word_more (Bool.eq_false_iff.mpr hc))
  | string text =>
    simp only [step]
    split
    next hquote =>
      subst hquote
      rw [hpush] at hend ⊢
      exact hend (hbegun.stands_string _)
    split
    next hbackslash =>
      subst hbackslash
      exact hmore hbegun.string_backslash
    next hquote hbackslash => exact hmore (hbegun.string_more hquote hbackslash)
  | stringEscape text e =>
    simp only [step]
    cases hstep : e.step c with
    | done d => exact hmore (hbegun.escape_done hstep)
    | more e' => exact hmore (hbegun.escape_more hstep)
    | invalid => exact .fault
  | charset q =>
    simp only [step]
    cases hstep : q.step c with
    | more q' => exact hmore (hbegun.charset_more hstep)
    | closed set =>
      rw [hpush] at hend ⊢
      exact hend (hbegun.stands_charset hstep _)
    | fault f => exact .fault

/-- Each character keeps what the state says about those before it. -/
theorem tracks_step (h : s.Tracks p cs) (c : Char) : (s.step c).Tracks p cs c := by
  cases h with
  | @between before gap hcs hopens hbetween hstop =>
    obtain ⟨span, groups, phase⟩ := s
    cases hbetween with
    | blank hgap => exact tracks_stepBlank hcs hopens hgap hstop c
    | @comment gap body hgap hbody =>
      refine .more (.between (by rw [hcs, List.append_assoc]) hopens ?_
        (Span.stop_push_of_eq hstop c))
      dsimp only
      split
      next hc =>
        subst hc
        exact .blank (.comment hbody hgap)
      next hc =>
        rw [List.append_assoc, List.cons_append]
        refine .comment hgap fun hmem => ?_
        obtain hmem | hmem := List.mem_append.mp hmem
        · exact hbody hmem
        · exact hc (List.mem_singleton.mp hmem).symm
  | begun hcs hopens hgap hbegun hspan => exact tracks_of_begun hcs hopens hgap hbegun hspan c

theorem tracks_between (span : Span) : (State.between span).Tracks span.stop [] :=
  .between (List.append_nil []).symm rfl (.blank .nil) rfl

end State

/-! ## Tokens of a text -/

/-- A token that is read on a text stands behind blanks and comments, and the lexer goes on at the
place just after it. -/
theorem holds_of_scan {a : List Char} {l : Lexer} (h : s.Tracks p cs)
    (hscan : scan s (.ofChars a) = some (.ok t, l)) :
    ∃ read later, a = read ++ later ∧ l.rest = .ofChars later ∧ Holds p (cs ++ read) t ∧
      l.span.stop = p.afterAll (cs ++ read) := by
  induction a generalizing s cs with
  | nil =>
    rw [Source.ofChars_nil, scan] at hscan
    obtain ⟨item, hfinish, heq⟩ := Option.map_eq_some_iff.mp hscan
    cases heq
    -- The end of the text ends a word just as a line feed would.
    have hstep := State.tracks_step h '\n'
    rw [step_newline_of_finish hfinish] at hstep
    cases hstep with
    | tokenBefore hholds hstop =>
      rw [← List.append_nil cs] at hholds hstop
      exact ⟨[], [], rfl, rfl, hholds, hstop⟩
  | cons c a ih =>
    rw [Source.ofChars_cons, scan] at hscan
    have hstep := State.tracks_step h c
    generalize s.step c = action at hscan hstep
    cases hstep with
    | more hs =>
      obtain ⟨read, later, rfl, hrest, hholds, hstop⟩ := ih hs hscan
      rw [List.append_assoc, List.singleton_append] at hholds hstop
      exact ⟨c :: read, later, rfl, hrest, hholds, hstop⟩
    | token hholds hstop =>
      cases hscan
      exact ⟨[c], a, rfl, rfl, hholds, hstop⟩
    | tokenBefore hholds hstop =>
      cases hscan
      rw [← List.append_nil cs] at hholds hstop
      exact ⟨[], c :: a, rfl, rfl, hholds, hstop⟩
    | fault => cases hscan

/-- The tokens of a text stand on its characters, one behind the other, also with faults between
them. -/
theorem spread_items {l : Lexer} {a : List Char} (h : l.rest = .ofChars a) :
    Spread (l.items.filterMap Except.toOption) l.span.stop a := by
  induction l using items.induct generalizing a with
  | case1 l hnone =>
    rw [items_of_next?_eq_none hnone]
    exact trivial
  | case2 l item next hsome ih =>
    rw [items_of_next?_eq_some hsome]
    rw [next?, h] at hsome
    cases item with
    | error f =>
      obtain ⟨read, later, rfl, hrest, hstop⟩ := exists_read_chars hsome
      have hlater := ih hrest
      rw [hstop] at hlater
      exact hlater.widen read
    | ok t =>
      obtain ⟨read, later, rfl, hrest, ⟨gap, slice, rfl, _, ht⟩, hstop⟩ :=
        holds_of_scan (State.tracks_between l.span) hsome
      have hlater := ih hrest
      rw [hstop] at hlater
      exact ⟨gap, slice, later, rfl, ht, hlater⟩

/-- Every token that the lexer makes of a text, at any depth, stands on some of its characters: they
are written as one writes the token, and its span starts at the place of the first of them, has the
place of the last one as that of its last character, and stops just after that. So a group spans
what is from its opening parenthesis to the one that closes it, and holds its tokens strictly
inside. The tokens of a group are in order and do not overlap, and neither do those of the text. -/
theorem items_stand_in_text (a : List Char) :
    (∀ t u, .ok t ∈ (ofSource (.ofChars a)).items → u ∈ t.parts →
      ∃ before slice after, a = before ++ slice ++ after ∧
        u.Stands (Place.origin.afterAll before) slice ∧
        u.span = ⟨Place.origin.afterAll before, Place.origin.afterAll (before ++ slice.dropLast),
          Place.origin.afterAll (before ++ slice)⟩ ∧
        u.span.start < u.span.stop) ∧
    (∀ t span inner, .ok t ∈ (ofSource (.ofChars a)).items → .group span inner ∈ t.parts →
      (∀ u ∈ inner, u.span.Within span) ∧
        inner.Pairwise fun u v => u.span.stop ≤ v.span.start) ∧
    ((ofSource (.ofChars a)).items.filterMap Except.toOption).Pairwise fun t u =>
      t.span.stop ≤ u.span.start := by
  have hspread : Spread ((ofSource (.ofChars a)).items.filterMap Except.toOption) .origin a :=
    spread_items rfl
  have hparts : ∀ t u, .ok t ∈ (ofSource (.ofChars a)).items → u ∈ t.parts →
      u.StandsIn .origin a := by
    intro t u ht hu
    have hmem : t ∈ (ofSource (.ofChars a)).items.filterMap Except.toOption :=
      List.mem_filterMap.mpr ⟨_, ht, rfl⟩
    obtain ⟨before, slice, after, heq, hstands⟩ := hspread.standsIn hmem
    rw [heq]
    exact .widen before after (hstands.standsIn_of_mem_parts hu)
  refine ⟨fun t u ht hu => ?_, fun t span inner ht hu => ?_, hspread.pairwise⟩
  · obtain ⟨before, slice, after, rfl, hu⟩ := hparts t u ht hu
    refine ⟨before, slice, after, rfl, hu, ?_, hu.start_lt_stop⟩
    rw [hu.span_eq, Span.ofChars, Place.afterAll_append, Place.afterAll_append]
  · obtain ⟨before, slice, after, rfl, hgroup⟩ := hparts t _ ht hu
    exact ⟨fun u hu => hgroup.within hu, hgroup.pairwise⟩

theorem items_stand_in_commentedGroup :
    ∃ inner word, (ofSource (.ofChars commentedGroup)).items =
        [.ok (.group ⟨⟨0, 0⟩, ⟨1, 4⟩, ⟨1, 5⟩⟩ inner), .ok word] ∧
      inner.length = 2 ∧
      (∀ u ∈ inner, ∃ before slice after, commentedGroup = before ++ slice ++ after ∧
        u.Stands (Place.origin.afterAll before) slice) ∧
      (∀ u ∈ inner, u.span.Within ⟨⟨0, 0⟩, ⟨1, 4⟩, ⟨1, 5⟩⟩) ∧
      (inner.Pairwise fun u v => u.span.stop ≤ v.span.start) ∧
      (⟨1, 5⟩ : Place) ≤ word.span.start := by
  have hitems : ∃ inner word, (ofSource (.ofChars commentedGroup)).items =
      [.ok (.group ⟨⟨0, 0⟩, ⟨1, 4⟩, ⟨1, 5⟩⟩ inner), .ok word] ∧ inner.length = 2 :=
    ⟨_, _, Yields.items_of_end (.cons rfl (.cons rfl .nil)) rfl, rfl⟩
  obtain ⟨inner, word, hitems, hlength⟩ := hitems
  obtain ⟨hstands, hgroups, hordered⟩ := items_stand_in_text commentedGroup
  have hgroup : .ok (.group ⟨⟨0, 0⟩, ⟨1, 4⟩, ⟨1, 5⟩⟩ inner) ∈
      (ofSource (.ofChars commentedGroup)).items := by
    rw [hitems]
    exact List.mem_cons_self
  rw [hitems] at hordered
  obtain ⟨hwithin, hinner⟩ := hgroups _ _ _ hgroup (mem_parts_group.mpr (.inl rfl))
  refine ⟨inner, word, hitems, hlength, fun u hu => ?_, hwithin, hinner, ?_⟩
  · obtain ⟨before, slice, after, htext, hstand, _⟩ :=
      hstands _ u hgroup (mem_parts_group.mpr (.inr ⟨u, hu, mem_parts_self u⟩))
    exact ⟨before, slice, after, htext, hstand⟩
  · exact List.rel_of_pairwise_cons hordered List.mem_cons_self

-- A character of no width, a tab, a line feed and a comment between two words of a group.
example :
    (ofSource (.ofChars "(\x01a\t# b\n c)".toList)).next?.map Prod.fst =
      some (.ok (.group ⟨⟨0, 0⟩, ⟨1, 2⟩, ⟨1, 3⟩⟩
        [.ident ⟨⟨0, 1⟩, ⟨0, 1⟩, ⟨0, 2⟩⟩ ['a'], .ident ⟨⟨1, 1⟩, ⟨1, 1⟩, ⟨1, 2⟩⟩ ['c']])) := rfl

end PositionAutomata.Lexer
