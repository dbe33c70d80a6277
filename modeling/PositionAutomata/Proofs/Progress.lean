import PositionAutomata.Proofs.Document.Scanning

/-
  Progress of the lexer.

  Whoever asks for one item after the other, past all faults, is answered
  `Lexer.items` and then nothing (`exists_yields_items`). Each answer takes at least one
  element of the stream, so what has been answered at any time is no longer
  than what has been read by then (`Yields.exists_read`), and no answer is only
  given where everything has been read.
-/

namespace PositionAutomata.Lexer

variable {l l' : Lexer} {xs : List Item}

/-- A lexer yields some items one after the other and then is another one. -/
inductive Yields : Lexer → List Item → Lexer → Prop where
  | nil {l : Lexer} : Yields l [] l
  | cons {l l' last : Lexer} {item : Item} {xs : List Item} :
      l.next? = some (item, l') → Yields l' xs last → Yields l (item :: xs) last

/-- What is yielded is no longer than what is read. -/
theorem Yields.exists_read (h : l.Yields xs l') :
    ∃ read, l.rest = read ++ l'.rest ∧ xs.length ≤ read.length := by
  induction h with
  | nil => exact ⟨[], rfl, Nat.le_refl _⟩
  | cons hnext _ ih =>
    obtain ⟨x, first, hfirst⟩ := exists_read_of_next? hnext
    obtain ⟨read, hread, hle⟩ := ih
    refine ⟨x :: first ++ read, ?_, ?_⟩
    · rw [hfirst, hread, List.append_assoc]
    · simp only [List.length_cons, List.length_append]
      omega

/-- What is yielded after some items are the items that are left. -/
theorem Yields.items_eq (h : l.Yields xs l') : l.items = xs ++ l'.items := by
  induction h with
  | nil => rfl
  | cons hnext _ ih => rw [items_of_next?_eq_some hnext, ih, List.cons_append]

/-- What is yielded before there is no more are the items. -/
theorem Yields.items_of_end (h : l.Yields xs l') (hend : l'.next? = none) : l.items = xs := by
  rw [h.items_eq, items_of_next?_eq_none hend, List.append_nil]

/-- A lexer yields all its items and then none. -/
theorem exists_yields_items (l : Lexer) : ∃ last, l.Yields l.items last ∧ last.next? = none := by
  induction l using items.induct with
  | case1 l h =>
    rw [items_of_next?_eq_none h]
    exact ⟨l, .nil, h⟩
  | case2 l item l' h ih =>
    obtain ⟨last, hyields, hlast⟩ := ih
    rw [items_of_next?_eq_some h]
    exact ⟨last, .cons h hyields, hlast⟩

/-- From any place of any stream the lexer comes to its end: there is a last item, after which there
is none. Each item takes at least one element of the stream, so whatever has been yielded is a
beginning of the items and no longer than what has been read. There is no item exactly if all that
is left are characters, and reading them all leaves nothing to be yielded at the end. -/
theorem items_consume_stream (l : Lexer) :
    (∃ last, l.Yields l.items last ∧ last.next? = none) ∧
      l.items.length ≤ l.rest.length ∧
      (∀ item l', l.next? = some (item, l') → ∃ x read, l.rest = x :: read ++ l'.rest) ∧
      (∀ xs l', l.Yields xs l' →
        xs <+: l.items ∧ ∃ read, l.rest = read ++ l'.rest ∧ xs.length ≤ read.length) ∧
      (l.next? = none ↔ ∃ cs s, l.rest = .ofChars cs ∧
        (State.between l.span).readAll? cs = some s ∧ s.finish = none) := by
  obtain ⟨last, hyields, hlast⟩ := exists_yields_items l
  refine ⟨⟨last, hyields, hlast⟩, ?_, fun _ _ => exists_read_of_next?, fun xs l' h => ?_,
    next?_eq_none_iff⟩
  · obtain ⟨read, hread, hle⟩ := hyields.exists_read
    calc l.items.length
        ≤ read.length := hle
      _ ≤ (read ++ last.rest).length := by
          rw [List.length_append]
          exact Nat.le_add_right _ _
      _ = l.rest.length := by rw [hread]
  · exact ⟨⟨l'.items, h.items_eq.symm⟩, h.exists_read⟩

/-- Inside a group a string that an input fault cuts off after a backslash, the parenthesis that is
left over, a range the wrong way round and what is left of its charset, a comment that another input
fault cuts off, a word, and a comment up to the end. -/
def brokenOff : Source :=
  Source.ofChars ['(', 'a', '"', '\\'] ++ .error "boom" ::
    Source.ofChars [')', '[', 'b', '-', 'a', ']', '#'] ++ .error "bang" ::
      Source.ofChars ['c', ' ', '#']

theorem items_consume_brokenOff :
    brokenOff.length = 16 ∧ (ofSource brokenOff).items.length ≤ 16 ∧
      (∃ last, (ofSource brokenOff).Yields (ofSource brokenOff).items last ∧ last.next? = none) ∧
      (∃ item l, (ofSource brokenOff).next? = some (item, l) ∧
        ∃ x read, brokenOff = x :: read ++ l.rest) ∧
      ∃ xs l, (ofSource brokenOff).Yields xs l ∧ xs.length = 6 ∧ l.next? = none ∧
        xs <+: (ofSource brokenOff).items ∧
        ∃ cs s, l.rest = .ofChars cs ∧ (State.between l.span).readAll? cs = some s ∧
          s.finish = none := by
  have hyields : ∃ xs l, (ofSource brokenOff).Yields xs l ∧ xs.length = 6 ∧ l.next? = none :=
    ⟨_, _, .cons rfl (.cons rfl (.cons rfl (.cons rfl (.cons rfl (.cons rfl .nil))))), rfl, rfl⟩
  obtain ⟨hend, hlength, hread, hbegins, _⟩ := items_consume_stream (ofSource brokenOff)
  obtain ⟨xs, l, hxs, hsix, hnone⟩ := hyields
  have hlast := (items_consume_stream l).2.2.2.2.mp hnone
  exact ⟨rfl, hlength, hend, ⟨_, _, rfl, hread _ _ rfl⟩, xs, l, hxs, hsix, hnone,
    (hbegins xs l hxs).1, hlast⟩

end PositionAutomata.Lexer
