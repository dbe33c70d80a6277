import Mathlib.Order.Basic
import PositionAutomata.Proofs.Document.Escapes
import PositionAutomata.Proofs.Document.Places
import PositionAutomata.Proofs.Document.Tokens

/-
  The characters of a token.

  A token stands on some characters from a place on if they are written as one
  writes such a token and its span is that of the characters (`Token.Stands`):
  it starts at the place of the first, its last character is the last of them,
  and it stops just after that. The tokens of a group stand on what is between its
  parentheses, in order, with blanks and comments before each of them and after
  the last (`Token.StandAll`).

  The first and the last character of a token take up a column, whatever is
  between them and however tokens are set apart. So spans that are appended grow
  (`Span.append_ofChars`), a group has its tokens strictly inside (`Stands.within`),
  and no token starts before the one in front of it stops (`Spread.pairwise`).
-/

namespace PositionAutomata

/-! ## Places in order -/

namespace Place

theorem before_iff {p q : Place} :
    p.before q = true ↔ p.line < q.line ∨ p.line = q.line ∧ p.column < q.column := by
  simp [before]

theorem before_eq_false_iff {p q : Place} :
    p.before q = false ↔ q.line < p.line ∨ q.line = p.line ∧ q.column ≤ p.column := by
  rw [← Bool.not_eq_true, before_iff]
  omega

/-- A place is up to another one if that is not before it. -/
instance : Preorder Place where
  le p q := q.before p = false
  lt p q := p.before q = true
  le_refl p := by
    rw [before_eq_false_iff]
    omega
  le_trans p q r hpq hqr := by
    rw [before_eq_false_iff] at *
    omega
  lt_iff_le_not_ge p q := by
    rw [Bool.not_eq_false, before_iff, before_eq_false_iff]
    omega

theorem le_iff {p q : Place} :
    p ≤ q ↔ p.line < q.line ∨ p.line = q.line ∧ p.column ≤ q.column := before_eq_false_iff

theorem lt_iff {p q : Place} :
    p < q ↔ p.line < q.line ∨ p.line = q.line ∧ p.column < q.column := before_iff

theorem le_after (p : Place) (c : Char) : p ≤ p.after c := by
  rw [le_iff, after]
  split
  · exact .inl (Nat.lt_succ_self _)
  split
  · refine .inr ⟨rfl, ?_⟩
    simp only [tabWidth]
    omega
  split
  · exact .inr ⟨rfl, Nat.le_refl _⟩
  · exact .inr ⟨rfl, Nat.le_succ _⟩

theorem le_afterAll (p : Place) (cs : List Char) : p ≤ p.afterAll cs := by
  induction cs generalizing p with
  | nil => exact le_refl p
  | cons c cs ih => exact (le_after p c).trans (ih _)

/-- A character that is no control character takes up a column. -/
theorem lt_after {c : Char} (h : Text.isControl c = false) (p : Place) : p < p.after c := by
  have hline : c ≠ '\n' := by rintro rfl; exact absurd h (by decide)
  have htab : c ≠ '\t' := by rintro rfl; exact absurd h (by decide)
  rw [lt_iff, after, if_neg hline, if_neg htab, if_neg (by simp [h])]
  exact .inr ⟨rfl, Nat.lt_succ_self _⟩

end Place

/-! ## Spans of characters -/

/-- The last of these characters takes up a column. -/
def EndsPlain (cs : List Char) : Prop := ∃ first c, cs = first ++ [c] ∧ Text.isControl c = false

theorem EndsPlain.append {cs : List Char} (h : EndsPlain cs) (first : List Char) :
    EndsPlain (first ++ cs) := by
  obtain ⟨xs, c, rfl, hc⟩ := h
  exact ⟨first ++ xs, c, (List.append_assoc first xs [c]).symm, hc⟩

namespace Span

variable {xs ys : List Char}

/-- The span of some characters from a place on. -/
def ofChars (p : Place) (cs : List Char) : Span := ⟨p, p.afterAll cs.dropLast, p.afterAll cs⟩

@[simp] theorem start_ofChars (p : Place) (cs : List Char) : (ofChars p cs).start = p := rfl

@[simp] theorem stop_ofChars (p : Place) (cs : List Char) :
    (ofChars p cs).stop = p.afterAll cs := rfl

theorem ofChars_append_singleton (p : Place) (cs : List Char) (c : Char) :
    ofChars p (cs ++ [c]) = ⟨p, p.afterAll cs, p.afterAll (cs ++ [c])⟩ := by
  rw [ofChars, List.dropLast_concat]

theorem push_ofChars (p : Place) (cs : List Char) (c : Char) :
    (ofChars p cs).push c = ofChars p (cs ++ [c]) := by
  rw [ofChars_append_singleton, Place.afterAll_append]
  rfl

/-- A span stops at the place after what has been read, and so after one more character. -/
theorem stop_push_of_eq {s : Span} {p : Place} {cs : List Char} (h : s.stop = p.afterAll cs)
    (c : Char) : (s.push c).stop = p.afterAll (cs ++ [c]) := by
  rw [Place.afterAll_append, ← h]
  rfl

/-- Where both end with a character that takes up a column, a span grows up to the end of another
one behind it. -/
theorem append_ofChars (hx : EndsPlain xs) (hy : EndsPlain ys) (p : Place) (gap : List Char) :
    (ofChars p xs).append (ofChars (p.afterAll (xs ++ gap)) ys) = ofChars p (xs ++ gap ++ ys) := by
  obtain ⟨xs, c, rfl, hc⟩ := hx
  obtain ⟨ys, d, rfl, hd⟩ := hy
  simp only [ofChars_append_singleton, ← List.append_assoc, Place.afterAll_append,
    Place.afterAll_cons, Place.afterAll_nil]
  generalize p.afterAll xs = last
  have hle : last.after c ≤ ((last.after c).afterAll gap).afterAll ys :=
    (Place.le_afterAll _ gap).trans (Place.le_afterAll _ ys)
  generalize ((last.after c).afterAll gap).afterAll ys = last' at hle ⊢
  have hlast : last < last' := (Place.lt_after hc last).trans_le hle
  have hstop : last.after c < last'.after d := hle.trans_lt (Place.lt_after hd last')
  rw [append, if_pos (Bool.and_eq_true_iff.mpr ⟨hlast, hstop⟩)]

/-- A span is strictly inside another one. -/
structure Within (s t : Span) : Prop where
  start : t.start < s.start
  stop : s.stop < t.stop

end Span

/-! ## What tokens are written as -/

namespace Lexer

/-- Blanks, and comments that a line feed ends. -/
inductive Skipped : List Char → Prop where
  | nil : Skipped []
  | blank {c : Char} {cs : List Char} : Text.isBlank c = true → Skipped cs → Skipped (cs ++ [c])
  | comment {cs body : List Char} :
      '\n' ∉ body → Skipped cs → Skipped (cs ++ '#' :: body ++ ['\n'])

/-- What is between the quotes of a string, and the text of the string. -/
inductive Spells : List Char → List Char → Prop where
  | nil : Spells [] []
  | char {c : Char} {body text : List Char} :
      c ≠ '"' → c ≠ '\\' → Spells body text → Spells (body ++ [c]) (text ++ [c])
  | escape {esc body text : List Char} {c : Char} :
      Escape.start.undo? esc = some c → Spells body text →
      Spells (body ++ '\\' :: esc) (text ++ [c])

/-- What has been read after the bracket of a charset, and what has been made of it. -/
inductive Fills : List Char → PartialCharset → Prop where
  | nil : Fills [] ⟨[], false, .opening⟩
  | step {body : List Char} {c : Char} {p p' : PartialCharset} :
      p.step c = .more p' → Fills body p → Fills (body ++ [c]) p'

end Lexer

namespace Token

open Lexer

mutual

/-- The token and all tokens in it are written on these characters, the first of them at the place,
and have the spans of their characters. -/
def Stands : Token → Place → List Char → Prop
  | group span items, p, cs => span = .ofChars p cs ∧
      ∃ inner gap, cs = '(' :: inner ++ gap ++ [')'] ∧ StandAll items (p.after '(') inner ∧
        Skipped gap
  | string span text, p, cs => span = .ofChars p cs ∧
      ∃ body, cs = '"' :: body ++ ['"'] ∧ Spells body text
  | charset span set, p, cs => span = .ofChars p cs ∧
      ∃ body s, cs = '[' :: body ++ [']'] ∧ Fills body s ∧ s.step ']' = .closed set
  | ident span name, p, cs => span = .ofChars p cs ∧
      cs = name ∧ name ≠ [] ∧ ∀ c ∈ name, isSeparator c = false

/-- The tokens stand on these characters in order, set apart by blanks and comments. -/
def StandAll : List Token → Place → List Char → Prop
  | [], _, cs => cs = []
  | t :: rest, p, cs => ∃ gap slice later, cs = gap ++ slice ++ later ∧ Skipped gap ∧
      Stands t (p.afterAll gap) slice ∧ StandAll rest (p.afterAll (gap ++ slice)) later

end

variable {t u : Token} {items : List Token} {p : Place} {cs : List Char} {span : Span}

theorem Stands.span_eq (h : t.Stands p cs) : t.span = .ofChars p cs := by
  cases t with
  | group span items => exact h.1
  | string span text => exact h.1
  | charset span set => exact h.1
  | ident span name => exact h.1

theorem isControl_eq_false_of_isSeparator {c : Char} (h : isSeparator c = false) :
    Text.isControl c = false := by
  simp only [isSeparator, Text.isBlank, Bool.or_eq_false_iff] at h
  exact h.1.2

theorem Stands.endsPlain (h : t.Stands p cs) : EndsPlain cs := by
  cases t with
  | group span items =>
    obtain ⟨_, inner, gap, rfl, _⟩ := h
    exact ⟨_, ')', rfl, rfl⟩
  | string span text =>
    obtain ⟨_, body, rfl, _⟩ := h
    exact ⟨_, '"', rfl, rfl⟩
  | charset span set =>
    obtain ⟨_, body, s, rfl, _⟩ := h
    exact ⟨_, ']', rfl, rfl⟩
  | ident span name =>
    obtain ⟨_, rfl, hne, hword⟩ := h
    refine ⟨cs.dropLast, cs.getLast hne, (List.dropLast_concat_getLast hne).symm, ?_⟩
    exact isControl_eq_false_of_isSeparator (hword _ (List.getLast_mem hne))

theorem Stands.start_lt_stop (h : t.Stands p cs) : t.span.start < t.span.stop := by
  obtain ⟨first, c, rfl, hc⟩ := h.endsPlain
  rw [h.span_eq, Span.stop_ofChars, Place.afterAll_append]
  exact (Place.le_afterAll p first).trans_lt (Place.lt_after hc _)

/-- The token stands on some of these characters, the first of them at the place. -/
def StandsIn (t : Token) (p : Place) (cs : List Char) : Prop :=
  ∃ before slice after, cs = before ++ slice ++ after ∧ t.Stands (p.afterAll before) slice

theorem Stands.standsIn (h : t.Stands p cs) : t.StandsIn p cs := ⟨[], cs, [], by simp, h⟩

theorem StandsIn.widen (first last : List Char) (h : t.StandsIn (p.afterAll first) cs) :
    t.StandsIn p (first ++ cs ++ last) := by
  obtain ⟨before, slice, after, rfl, ht⟩ := h
  refine ⟨first ++ before, slice, after ++ last, by simp, ?_⟩
  rwa [Place.afterAll_append]

/-! ## Tokens in a row -/

/-- One more token behind some others. -/
theorem StandAll.append_singleton (h : StandAll items p cs) {gap slice : List Char}
    (hgap : Skipped gap) (ht : t.Stands (p.afterAll (cs ++ gap)) slice) :
    StandAll (items ++ [t]) p (cs ++ gap ++ slice) := by
  induction items generalizing p cs with
  | nil =>
    obtain rfl := h
    exact ⟨gap, slice, [], by simp, hgap, ht, rfl⟩
  | cons u items ih =>
    obtain ⟨gap', slice', later, rfl, hgap', hu, hlater⟩ := h
    refine ⟨gap', slice', later ++ gap ++ slice, by simp, hgap', hu, ih hlater ?_⟩
    rwa [← Place.afterAll_append, ← List.append_assoc]

/-- The last character of some tokens in a row is that of the last of them. -/
theorem StandAll.endsPlain (h : StandAll items p cs) : cs = [] ∨ EndsPlain cs := by
  induction items generalizing p cs with
  | nil => exact .inl h
  | cons t items ih =>
    obtain ⟨gap, slice, later, rfl, _, ht, hlater⟩ := h
    obtain rfl | hplain := ih hlater
    · rw [List.append_nil]
      exact .inr (ht.endsPlain.append gap)
    · exact .inr (hplain.append (gap ++ slice))

/-- The tokens stand on some of these characters, one behind the other. -/
def Spread : List Token → Place → List Char → Prop
  | [], _, _ => True
  | t :: rest, p, cs => ∃ before slice later, cs = before ++ slice ++ later ∧
      t.Stands (p.afterAll before) slice ∧ Spread rest (p.afterAll (before ++ slice)) later

theorem StandAll.spread (h : StandAll items p cs) : Spread items p cs := by
  induction items generalizing p cs with
  | nil => exact trivial
  | cons t items ih =>
    obtain ⟨gap, slice, later, rfl, _, ht, hlater⟩ := h
    exact ⟨gap, slice, later, rfl, ht, ih hlater⟩

namespace Spread

theorem widen (first : List Char) (h : Spread items (p.afterAll first) cs) :
    Spread items p (first ++ cs) := by
  cases items with
  | nil => exact trivial
  | cons t items =>
    obtain ⟨before, slice, later, rfl, ht, hlater⟩ := h
    rw [← Place.afterAll_append] at ht hlater
    exact ⟨first ++ before, slice, later, by simp, ht, by rwa [List.append_assoc]⟩

theorem standsIn (h : Spread items p cs) (ht : t ∈ items) : t.StandsIn p cs := by
  induction items generalizing p cs with
  | nil => exact absurd ht List.not_mem_nil
  | cons u items ih =>
    obtain ⟨before, slice, later, rfl, hu, hlater⟩ := h
    obtain rfl | ht := List.mem_cons.mp ht
    · exact .widen before later hu.standsIn
    · simpa using StandsIn.widen (before ++ slice) [] (ih hlater ht)

/-- Tokens one behind the other are in order and do not overlap. -/
theorem pairwise (h : Spread items p cs) :
    items.Pairwise fun t u => t.span.stop ≤ u.span.start := by
  induction items generalizing p cs with
  | nil => exact .nil
  | cons t items ih =>
    obtain ⟨before, slice, later, rfl, ht, hlater⟩ := h
    refine .cons (fun u hu => ?_) (ih hlater)
    obtain ⟨between, slice', after, rfl, hu⟩ := hlater.standsIn hu
    rw [ht.span_eq, hu.span_eq, Span.stop_ofChars, Span.start_ofChars, ← Place.afterAll_append]
    exact Place.le_afterAll _ between

end Spread

/-- The tokens of a group are between its parentheses. -/
theorem Stands.within (h : (group span items).Stands p cs) (ht : t ∈ items) :
    t.span.Within span := by
  obtain ⟨rfl, inner, gap, rfl, hitems, _⟩ := h
  obtain ⟨before, slice, after, rfl, ht⟩ := hitems.spread.standsIn ht
  rw [ht.span_eq]
  refine ⟨(Place.lt_after rfl p).trans_le (Place.le_afterAll _ before), ?_⟩
  calc ((p.after '(').afterAll before).afterAll slice
      ≤ (((p.after '(').afterAll before).afterAll slice).afterAll (after ++ gap) :=
        Place.le_afterAll _ _
    _ < ((((p.after '(').afterAll before).afterAll slice).afterAll (after ++ gap)).after ')' :=
        Place.lt_after rfl _
    _ = p.afterAll ('(' :: (before ++ slice ++ after) ++ gap ++ [')']) := by
        simp [Place.afterAll_append]

/-- The tokens of a group are in order and do not overlap. -/
theorem Stands.pairwise (h : (group span items).Stands p cs) :
    items.Pairwise fun t u => t.span.stop ≤ u.span.start := by
  obtain ⟨_, _, _, _, hitems, _⟩ := h
  exact hitems.spread.pairwise

/-! ## Tokens at any depth -/

mutual

/-- The token and all tokens in it, at any depth. -/
def parts : Token → List Token
  | group span items => group span items :: partsOfAll items
  | string span text => [string span text]
  | charset span set => [charset span set]
  | ident span name => [ident span name]

/-- The tokens and all tokens in them. -/
def partsOfAll : List Token → List Token
  | [] => []
  | t :: rest => t.parts ++ partsOfAll rest

end

theorem partsOfAll_eq_flatMap (ts : List Token) : partsOfAll ts = ts.flatMap parts := by
  induction ts with
  | nil => rfl
  | cons t ts ih => rw [partsOfAll, ih, List.flatMap_cons]

theorem mem_parts_self (t : Token) : t ∈ t.parts := by cases t <;> simp [parts]

theorem mem_parts_group : u ∈ (group span items).parts ↔
    u = group span items ∨ ∃ t ∈ items, u ∈ t.parts := by
  rw [parts, List.mem_cons, partsOfAll_eq_flatMap, List.mem_flatMap]

/-- Whatever is in a token stands on some of its characters. -/
theorem Stands.standsIn_of_mem_parts (h : t.Stands p cs) (hu : u ∈ t.parts) :
    u.StandsIn p cs := by
  induction t using Token.induction generalizing p cs with
  | group span items ih =>
    obtain rfl | ⟨t, ht, hu⟩ := mem_parts_group.mp hu
    · exact h.standsIn
    · obtain ⟨_, inner, gap, rfl, hitems, _⟩ := h
      obtain ⟨before, slice, after, rfl, hstands⟩ := hitems.spread.standsIn ht
      have hwide : u.StandsIn p ('(' :: before ++ slice ++ (after ++ gap ++ [')'])) :=
        .widen ('(' :: before) _ (ih t ht hstands hu)
      simpa using hwide
  | string span text => exact (List.mem_singleton.mp hu ▸ h).standsIn
  | charset span set => exact (List.mem_singleton.mp hu ▸ h).standsIn
  | ident span name => exact (List.mem_singleton.mp hu ▸ h).standsIn

end Token

end PositionAutomata
