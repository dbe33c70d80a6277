import Mathlib
import PositionAutomata.Proofs.Document.Forms
import PositionAutomata.Proofs.Document.Streams

/-
  Documents that break off.

  The characters before the first reason why none could be had leave the reader
  in one of two ways. Either some item they yield is at fault, or is no
  expression: then every text that begins with them has this fault, and so has
  every stream (`Tree.Forces`). Or the reader goes on with what the lexer is in
  the middle of, and the reason is its next item. In the second case the
  characters decide nothing yet: whatever has been begun, two texts that begin
  with them part (`exists_parting`), so no fault is that of all of them.
-/

namespace PositionAutomata

/-- That a character could not be had. -/
def DocumentFault.IsInput : DocumentFault → Prop
  | lexical f => f.IsInput
  | _ => False

theorem not_isInput_of_ne_lexical {f : DocumentFault} (h : ∀ g, f ≠ .lexical g) :
    ¬ f.IsInput := by
  cases f with
  | lexical g => exact absurd rfl (h g)
  | _ => exact id

namespace Reader

variable {α β : Type}

/-! ## Faults of the reader -/

/-- A step whose faults are those of the reader itself. -/
def Own (x : Read α) : Prop := ∀ ⦃s f⦄, x.run s = .error f → ∀ g, f.value ≠ .lexical g

theorem own_pure (a : α) : Own (pure a) := nofun

theorem own_add (step : Tree.Step NodeId) : Own (add step) := nofun

theorem own_newGroup : Own newGroup := nofun

theorem own_fault {span : Span} {f : DocumentFault} (h : ∀ g, f ≠ .lexical g) :
    Own (fault span f : Read α) := by
  intro s g hg
  cases hg
  exact h

theorem Own.bind {x : Read α} {y : α → Read β} (hx : Own x) (hy : ∀ a, Own (y a)) :
    Own (x >>= y) := by
  intro s f h
  obtain h | ⟨a, s', _, h⟩ := run_bind_eq_error.mp h
  · exact hx h
  · exact hy a h

theorem own_name (t : Token) : Own (name t) := by
  cases t with
  | ident span cs => exact own_pure _
  | group span items => exact own_fault nofun
  | string span text => exact own_fault nofun
  | charset span set => exact own_fault nofun

theorem own_bound (t : Token) : Own (bound t) := by
  refine (own_name t).bind fun name => ?_
  split
  · split
    · exact own_pure _
    · exact own_fault nofun
  · exact own_fault nofun

theorem keptByForms_own : KeptByForms (fun _ => True) Own Own where
  item _ _ _ := trivial
  fault := own_fault
  leaf _ := own_add _
  string _ := own_add _
  nil := own_pure []
  cons hx hy := hx.bind fun _ => hy.bind fun _ => own_pure _
  concatAll hx := hx.bind fun _ => own_add _
  anyOf hx := hx.bind fun _ => own_add _
  repetition hx _ := hx.bind fun _ => own_add _
  name t _ := (own_name t).bind
  bound t _ := (own_bound t).bind
  capture hx := own_newGroup.bind fun _ => hx.bind fun _ => own_add _
  labelled hx t _ := own_newGroup.bind fun _ => (own_name t).bind fun _ =>
    hx.bind fun _ => own_add _
  uncaptured h := own_newGroup.bind fun _ => own_fault h

/-! ## Items one after the other -/

/-- Some items have a fault, whatever comes next, or the reader goes on after them. -/
theorem readItems_append {xs : List Lexer.Item} (h : ∀ f, .error f ∈ xs → ¬ f.value.IsInput)
    (span : Span) (alternatives : List NodeId) (s : State) :
    (∃ f, ¬ f.value.IsInput ∧
        ∀ ys, (readItems span alternatives (xs ++ ys)).run s = .error f) ∨
      ∃ span' alternatives' s', ∀ ys, (readItems span alternatives (xs ++ ys)).run s =
        (readItems span' alternatives' ys).run s' := by
  induction xs generalizing span alternatives s with
  | nil => exact .inr ⟨span, alternatives, s, fun _ => rfl⟩
  | cons x xs ih =>
    obtain ⟨hx, hxs⟩ : (∀ f, .error f = x → ¬ f.value.IsInput) ∧
        ∀ f, .error f ∈ xs → ¬ f.value.IsInput :=
      ⟨fun f hf => h f (hf ▸ List.mem_cons_self), fun f hf => h f (List.mem_cons_of_mem _ hf)⟩
    cases x with
    | error f => exact .inl ⟨⟨.lexical f.value, f.span⟩, hx f rfl, fun _ => rfl⟩
    | ok t =>
      have hrun : ∀ ys, (readItems span alternatives (.ok t :: xs ++ ys)).run s =
          (read false t).run s >>= fun p =>
            (readItems (span.append t.span) (p.1 :: alternatives) (xs ++ ys)).run p.2 :=
        fun ys => StateT.run_bind _ _ _
      cases hread : (read false t).run s with
      | error f =>
        have hown : ¬ f.value.IsInput :=
          not_isInput_of_ne_lexical (keptByForms_own.read t trivial false hread)
        refine .inl ⟨f, hown, fun ys => ?_⟩
        rw [hrun, hread]
        rfl
      | ok p =>
        obtain ⟨id, s'⟩ := p
        have hnext : ∀ ys, (readItems span alternatives (.ok t :: xs ++ ys)).run s =
            (readItems (span.append t.span) (id :: alternatives) (xs ++ ys)).run s' := by
          intro ys
          rw [hrun, hread]
          rfl
        simp only [hnext]
        exact ih hxs _ _ s'

/-- Whatever was read before them, two lists of items do not have the same fault. -/
def Parted (xs ys : List Lexer.Item) : Prop :=
  ∀ span alternatives s f, (readItems span alternatives xs).run s = .error f →
    (readItems span alternatives ys).run s ≠ .error f

theorem parted_errors {f g : Located LexicalFault} (h : f ≠ g) (xs ys : List Lexer.Item) :
    Parted (.error f :: xs) (.error g :: ys) := by
  intro span alternatives s e hf hg
  obtain ⟨value, fspan⟩ := f
  obtain ⟨value', gspan⟩ := g
  cases hf
  cases hg
  exact h rfl

theorem parted_nil_error (f : Located LexicalFault) (ys : List Lexer.Item) :
    Parted [] (.error f :: ys) := by
  intro span alternatives s e hnil herror
  rw [readItems] at hnil
  split at hnil
  · cases hnil
    cases herror
  · cases hnil

/-- If the last item is a word, only the word can be at fault. -/
theorem span_of_readItems_word {span word : Span} {name : List Char} {alternatives : List NodeId}
    {s : State} {f : Located DocumentFault}
    (h : (readItems span alternatives [.ok (.ident word name)]).run s = .error f) :
    f.span = word := by
  obtain h | ⟨id, s', _, h⟩ := run_bind_eq_error.mp h
  · rw [read] at h
    simp only [Bool.false_eq_true, if_false, readWord] at h
    split at h
    · cases h
    · cases h
    · cases h
    · cases h
      rfl
  · cases h

theorem parted_words {word word' : Span} (h : word ≠ word') (name name' : List Char) :
    Parted [.ok (.ident word name)] [.ok (.ident word' name')] := by
  intro span alternatives s f hf hf'
  exact h ((span_of_readItems_word hf).symm.trans (span_of_readItems_word hf'))

/-! ## Texts that part -/

section

open Lexer (itemsFrom itemsFrom_nil itemsFrom_ok)
open Lexer.State (unclosed)

theorem ne_push_letter (span : Span) : span ≠ span.push 'a' := by
  intro h
  have hcolumn : span.stop.column = span.stop.column + 1 := congrArg (·.stop.column) h
  exact Nat.succ_ne_self _ hcolumn.symm

/-- Where nothing but groups is begun, a bracket on the next line is another fault than the end. -/
theorem parted_of_blank {s : Lexer.State} {span : Span} (groups : List Lexer.OpenGroup)
    (hend : s.finish = groups.head?.map unclosed)
    (hline : s.step '\n' = .more ⟨span, groups, .blank⟩) :
    Parted (itemsFrom s []) (itemsFrom s (.ofChars ['\n', ']'])) := by
  have hbracket : itemsFrom s (.ofChars ['\n', ']']) =
      .error ⟨.unexpected ']', span.clear.push ']'⟩ ::
        itemsFrom (.between (span.clear.push ']')) [] := by
    rw [Source.ofChars_cons, itemsFrom_ok, hline]
    exact itemsFrom_ok _ ']' []
  rw [itemsFrom_nil, hend, hbracket]
  cases groups with
  | nil => exact parted_nil_error _ _
  | cons g outer =>
    have hne : (⟨.missingCloser, g.span⟩ : Located LexicalFault) ≠
        ⟨.unexpected ']', span.clear.push ']'⟩ := nofun
    exact parted_errors hne _ _

/-- Where a string or a charset is begun, its fault at the end grows with one more letter. -/
theorem parted_of_begun {s : Lexer.State} {f : LexicalFault}
    (hend : s.finish = some (.error ⟨f, s.span⟩))
    (hmore : ∃ g xs, itemsFrom s (.ofChars ['a']) = .error ⟨g, s.span.push 'a'⟩ :: xs) :
    Parted (itemsFrom s []) (itemsFrom s (.ofChars ['a'])) := by
  obtain ⟨g, xs, hmore⟩ := hmore
  rw [itemsFrom_nil, hend, hmore]
  exact parted_errors (fun h => ne_push_letter _ (congrArg Located.span h)) _ _

/-- Whatever the lexer is in the middle of, it can go on in two ways that part. -/
theorem exists_parting (s : Lexer.State) :
    ∃ cs ds, Parted (itemsFrom s (.ofChars cs)) (itemsFrom s (.ofChars ds)) := by
  obtain ⟨span, groups, phase⟩ := s
  cases phase with
  | blank => exact ⟨[], ['\n', ']'], parted_of_blank groups rfl rfl⟩
  | comment => exact ⟨[], ['\n', ']'], parted_of_blank groups rfl rfl⟩
  | word name =>
    cases groups with
    | nil =>
      have hletter : itemsFrom ⟨span, [], .word name⟩ (.ofChars ['a']) =
          [.ok (.ident (span.push 'a') ('a' :: name).reverse)] :=
        (itemsFrom_ok _ 'a' []).trans (itemsFrom_nil _)
      refine ⟨[], ['a'], ?_⟩
      rw [Source.ofChars_nil, itemsFrom_nil, hletter]
      exact parted_words (ne_push_letter span) _ _
    | cons g outer =>
      exact ⟨[], ['\n', ']'],
        parted_of_blank (g.push (.ident span name.reverse) :: outer) rfl rfl⟩
  | string text =>
    refine ⟨[], ['a'], parted_of_begun rfl ?_⟩
    rw [Source.ofChars_cons, itemsFrom_ok]
    exact ⟨_, _, itemsFrom_nil _⟩
  | stringEscape text e =>
    refine ⟨[], ['a'], parted_of_begun rfl ?_⟩
    rw [Source.ofChars_cons, itemsFrom_ok]
    simp only [Lexer.State.step]
    cases e.step 'a' with
    | done d => exact ⟨_, _, itemsFrom_nil _⟩
    | more e => exact ⟨_, _, itemsFrom_nil _⟩
    | invalid => exact ⟨_, _, rfl⟩
  | charset p =>
    refine ⟨[], ['a'], parted_of_begun rfl ?_⟩
    rw [Source.ofChars_cons, itemsFrom_ok]
    simp only [Lexer.State.step]
    have hnext := p.madeBy_step 'a'
    generalize p.step 'a' = next at hnext ⊢
    cases hnext with
    | more => exact ⟨_, _, itemsFrom_nil _⟩
    | closed hbracket => exact absurd hbracket (by decide)
    | fault _ => exact ⟨_, _, rfl⟩

end

end Reader

/-! ## Documents -/

/-- Somewhere on the stream a character cannot be had. -/
def Source.BreaksOff (source : Source) : Prop :=
  ∃ reason : String, (Except.error reason : Except String Char) ∈ source

/-- A stream that breaks off begins with the characters before it does. -/
theorem Source.exists_first_error {source : Source} (h : source.BreaksOff) :
    ∃ (cs : List Char) (reason : String) (rest : Source),
      source = Source.ofChars cs ++ .error reason :: rest := by
  induction source with
  | nil =>
    obtain ⟨reason, h⟩ := h
    exact absurd h List.not_mem_nil
  | cons x source ih =>
    cases x with
    | error reason => exact ⟨[], reason, source, rfl⟩
    | ok c =>
      obtain ⟨reason, hmem⟩ := h
      obtain ⟨cs, first, rest, rfl⟩ := ih ⟨reason, by simpa using hmem⟩
      exact ⟨c :: cs, first, rest, rfl⟩

/-- A stream breaks off first at one place only. -/
theorem Source.first_error_inj {cs cs' : List Char} {reason reason' : String} {rest rest' : Source}
    (h : Source.ofChars cs ++ .error reason :: rest =
      Source.ofChars cs' ++ .error reason' :: rest') :
    cs = cs' ∧ reason = reason' ∧ rest = rest' := by
  induction cs generalizing cs' with
  | nil =>
    cases cs' with
    | nil =>
      cases h
      exact ⟨rfl, rfl, rfl⟩
    | cons c cs' => cases h
  | cons c cs ih =>
    cases cs' with
    | nil => cases h
    | cons c' cs' =>
      obtain ⟨hc, hcs⟩ := List.cons.inj h
      obtain ⟨rfl, hrest⟩ := ih hcs
      exact ⟨congrArg (· :: cs) (Except.ok.inj hc), hrest⟩

namespace Tree

/-- Every text that begins with these characters has this fault. -/
def Forces (cs : List Char) (f : Located DocumentFault) : Prop :=
  ∀ more, read (.ofChars (cs ++ more)) = .error f

/-- A tree is read from a stream unless its items have a fault, which is then that of the stream. -/
theorem read_eq_error_iff {source : Source} {f : Located DocumentFault} :
    read source = .error f ↔
      (Reader.readItems .origin [] (Lexer.itemsFrom (.between .origin) source)).run ⟨.empty, 0⟩ =
        .error f := by
  rw [read, Lexer.ofSource, Lexer.items_eq_itemsFrom]
  generalize StateT.run _ _ = result
  cases result with
  | error g => simp [bind, Except.bind]
  | ok p => exact iff_of_false nofun nofun

/-- From a stream that breaks off no tree is read. Of the characters before it first does, either
all texts that begin with them have the same fault, one of the lexer or of the reader, and so has
the stream, also if it goes on without breaking off there; or there is no such fault, and the fault
is that the next character could not be had, at the place after them. A word that has been begun
forces no fault: which one it has depends on how it goes on. -/
theorem read_of_breaksOff {source : Source} (h : source.BreaksOff) :
    ∃ (cs : List Char) (reason : String) (rest : Source),
      source = Source.ofChars cs ++ .error reason :: rest ∧
      ((∃ f, ¬ f.value.IsInput ∧ Forces cs f ∧
          read source = .error f ∧ read (Source.ofChars cs ++ rest) = .error f) ∨
        (∀ f, ¬ Forces cs f) ∧
          read source =
            .error ⟨.lexical (.input reason), .ofPlace (Place.origin.afterAll cs)⟩) := by
  obtain ⟨cs, reason, rest, rfl⟩ := Source.exists_first_error h
  obtain ⟨xs, s, hconsumes⟩ := Lexer.exists_consumes (.between .origin) cs
  refine ⟨cs, reason, rest, rfl, ?_⟩
  obtain ⟨f, hown, hfault⟩ | ⟨span, alternatives, s', hgoes⟩ :=
    Reader.readItems_append hconsumes.own .origin [] ⟨.empty, 0⟩
  · have hread : ∀ later, read (Source.ofChars cs ++ later) = .error f := by
      intro later
      rw [read_eq_error_iff, hconsumes.items]
      exact hfault _
    refine .inl ⟨f, hown, fun more => ?_, hread _, hread rest⟩
    rw [Source.ofChars_append]
    exact hread _
  · refine .inr ⟨fun f hforces => ?_, ?_⟩
    · obtain ⟨ds, es, hparted⟩ := Reader.exists_parting s
      have hrun : ∀ more, (Reader.readItems span alternatives
          (Lexer.itemsFrom s (.ofChars more))).run s' = .error f := by
        intro more
        have hmore := hforces more
        rwa [read_eq_error_iff, Source.ofChars_append, hconsumes.items, hgoes] at hmore
      exact hparted span alternatives s' f (hrun ds) (hrun es)
    · rw [read_eq_error_iff, hconsumes.items, hgoes, Lexer.itemsFrom_error, hconsumes.stop]
      rfl

/-- The beginning of a document up to a letter of a charset on its second line. -/
def charsetBegun : List Char := "(or \"a\"\n (star [b".toList

/-- A stream that breaks off in a charset. -/
def cutCharset : Source := Source.ofChars charsetBegun ++ [.error "boom", .ok ']']

/-- A group that is no expression, and the beginning of another group. -/
def formUnknown : List Char := "(nope) (".toList

/-- A stream that breaks off behind a group that is no expression. -/
def cutForm : Source := Source.ofChars formUnknown ++ [.error "boom", .ok ')']

theorem read_cutCharset_cutForm :
    cutCharset.BreaksOff ∧ (∀ f, ¬ Forces charsetBegun f) ∧
      read cutCharset = .error ⟨.lexical (.input "boom"), .ofPlace ⟨1, 9⟩⟩ ∧
      cutForm.BreaksOff ∧
      Forces formUnknown ⟨.unknownForm "nope", ⟨⟨0, 0⟩, ⟨0, 5⟩, ⟨0, 6⟩⟩⟩ ∧
      read cutForm = .error ⟨.unknownForm "nope", ⟨⟨0, 0⟩, ⟨0, 5⟩, ⟨0, 6⟩⟩⟩ := by
  have hbegun : cutCharset.BreaksOff :=
    ⟨"boom", List.mem_append_right _ List.mem_cons_self⟩
  have hunknown : cutForm.BreaksOff := ⟨"boom", List.mem_append_right _ List.mem_cons_self⟩
  have hinput : read cutCharset = .error ⟨.lexical (.input "boom"), .ofPlace ⟨1, 9⟩⟩ := by cbv
  have hform : read cutForm =
      .error ⟨.unknownForm "nope", ⟨⟨0, 0⟩, ⟨0, 5⟩, ⟨0, 6⟩⟩⟩ := by cbv
  refine ⟨hbegun, ?_, hinput, hunknown, ?_, hform⟩
  · obtain ⟨cs, reason, rest, hsource, hcase⟩ := read_of_breaksOff hbegun
    obtain ⟨rfl, rfl, rfl⟩ := Source.first_error_inj hsource
    obtain ⟨f, hown, _, hfault, _⟩ | ⟨hnone, _⟩ := hcase
    · cases hinput.symm.trans hfault
      exact absurd trivial hown
    · exact hnone
  · obtain ⟨cs, reason, rest, hsource, hcase⟩ := read_of_breaksOff hunknown
    obtain ⟨rfl, rfl, rfl⟩ := Source.first_error_inj hsource
    obtain ⟨f, _, hforces, hfault, _⟩ | ⟨_, hinput⟩ := hcase
    · cases hform.symm.trans hfault
      exact hforces
    · cases hform.symm.trans hinput

end Tree

end PositionAutomata
