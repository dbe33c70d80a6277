import Mathlib.Algebra.Group.Nat.Defs
import PositionAutomata.Document.Token.Lexer

/-
  Escapes and what undoes them.

  What follows the backslash of an escape is read one character at a time.
  `Escape.undo?` is the character that it stands for, if the escape ends exactly
  where the text ends. A character is written as itself or as a backslash and
  an escape that is undone to it (`encodeChar_undone`). Hexadecimal digits give
  back the number of the character, however many there are (`undo?_hexDigits`).
-/

namespace PositionAutomata.Lexer

open Text

/-- The character that the rest of an escape stands for, if the escape ends with the last of these
characters. -/
def Escape.undo? (e : Escape) : List Char → Option Char
  | [] => none
  | c :: cs =>
    match e.step c with
    | .done d => if cs.isEmpty then some d else none
    | .more e => e.undo? cs
    | .invalid => none

theorem Escape.undo?_of_more {e e' : Escape} {c : Char} (h : e.step c = .more e')
    (cs : List Char) : e.undo? (c :: cs) = e'.undo? cs := by
  rw [Escape.undo?, h]

theorem Escape.undo?_of_done {e : Escape} {c d : Char} (h : e.step c = .done d) :
    e.undo? [c] = some d := by
  rw [Escape.undo?, h]
  rfl

/-! ## Hexadecimal digits -/

theorem hexDigit?_digitChar {d : Nat} (h : d < 16) : hexDigit? d.digitChar = some d := by
  revert d
  decide

theorem leftpad_append_singleton {α : Type} (n : Nat) (a b : α) (xs : List α) :
    (xs ++ [b]).leftpad (n + 1) a = xs.leftpad n a ++ [b] := by
  simp [List.leftpad]

theorem hexDigits_zero (width : Nat) :
    hexDigits (width + 1) 0 = [].leftpad (width + 1) '0' := by
  simp [hexDigits, List.leftpad, List.replicate_succ']

/-- The last of several digits. -/
theorem hexDigits_succ (width n : Nat) :
    hexDigits (width + 2) n = hexDigits (width + 1) (n / 16) ++ [(n % 16).digitChar] := by
  by_cases h : n < 16
  · have hdigit : Nat.toDigits 16 n = [] ++ [n.digitChar] := Nat.toDigits_of_lt_base h
    rw [Nat.div_eq_of_lt h, Nat.mod_eq_of_lt h, hexDigits_zero, hexDigits, hdigit,
      leftpad_append_singleton]
  · rw [hexDigits, hexDigits, Nat.toDigits_of_base_le (by omega) (by omega),
      leftpad_append_singleton]

theorem div_lt_pow {width n : Nat} (h : n < 16 ^ (width + 1)) : n / 16 < 16 ^ width := by
  apply Nat.div_lt_of_lt_mul
  rwa [← Nat.pow_succ']

theorem hexDigits_one {n : Nat} (h : n < 16) : hexDigits 1 n = [n.digitChar] := by
  rw [hexDigits, Nat.toDigits_of_lt_base h]
  rfl

/-! ## Escapes -/

/-- A digit that is followed by more. -/
theorem step_digitChar {d : Nat} (h : d < 16) (missing value : Nat) :
    (Escape.hex (missing + 2) value).step d.digitChar =
      .more (.hex (missing + 1) (16 * value + d)) := by
  simp only [Escape.step, hexDigit?_digitChar h]
  rfl

/-- The last digit. -/
theorem step_digitChar_last {d value : Nat} (h : d < 16) (hv : (16 * value + d).isValidChar) :
    (Escape.hex 1 value).step d.digitChar = .done (Char.ofNat (16 * value + d)) := by
  simp only [Escape.step, hexDigit?_digitChar h, Nat.lt_irrefl, if_false, if_pos hv]

/-- Digits that are followed by more. -/
theorem undo?_hexDigits_append {width n : Nat} (h : n < 16 ^ (width + 1)) (missing value : Nat)
    (rest : List Char) :
    (Escape.hex (missing + width + 2) value).undo? (hexDigits (width + 1) n ++ rest) =
      (Escape.hex (missing + 1) (value * 16 ^ (width + 1) + n)).undo? rest := by
  induction width generalizing n missing rest with
  | zero =>
    rw [hexDigits_one h]
    refine (Escape.undo?_of_more (step_digitChar h missing value) rest).trans ?_
    rw [Nat.mul_comm 16 value, Nat.zero_add, Nat.pow_one]
  | succ width ih =>
    have hlast : n % 16 < 16 := Nat.mod_lt n (by decide)
    have hvalue : 16 * (value * 16 ^ (width + 1) + n / 16) + n % 16 =
        value * 16 ^ (width + 2) + n := by
      rw [Nat.mul_add, Nat.add_assoc, Nat.div_add_mod, Nat.mul_left_comm,
        ← Nat.pow_succ']
    have hmissing : missing + (width + 1) + 2 = missing + 1 + width + 2 := by omega
    calc (Escape.hex (missing + (width + 1) + 2) value).undo? (hexDigits (width + 2) n ++ rest)
        = (Escape.hex (missing + 1 + width + 2) value).undo?
            (hexDigits (width + 1) (n / 16) ++ (n % 16).digitChar :: rest) := by
          rw [hexDigits_succ, List.append_assoc, List.singleton_append, hmissing]
      _ = (Escape.hex (missing + 2) (value * 16 ^ (width + 1) + n / 16)).undo?
            ((n % 16).digitChar :: rest) := ih (div_lt_pow h) (missing + 1) _
      _ = (Escape.hex (missing + 1) (value * 16 ^ (width + 2) + n)).undo? rest := by
          rw [Escape.undo?_of_more (step_digitChar hlast _ _), hvalue]

/-- A character whose number is written in some digits is the one that they stand for. -/
theorem undo?_hexDigits {width : Nat} {c : Char} (h : c.toNat < 16 ^ (width + 2)) :
    (Escape.hex (width + 2) 0).undo? (hexDigits (width + 2) c.toNat) = some c := by
  have hlast : c.toNat % 16 < 16 := Nat.mod_lt _ (by decide)
  have hdigits := undo?_hexDigits_append (div_lt_pow h) 0 0 [(c.toNat % 16).digitChar]
  rw [Nat.zero_add, Nat.zero_mul, Nat.zero_add, ← hexDigits_succ] at hdigits
  have hvalid : (16 * (c.toNat / 16) + c.toNat % 16).isValidChar := by
    rw [Nat.div_add_mod]
    exact c.valid
  rw [hdigits, Nat.zero_add, Escape.undo?_of_done (step_digitChar_last hlast hvalid),
    Nat.div_add_mod, Char.ofNat_toNat]

theorem toNat_lt_of_isControl {c : Char} (h : isControl c = true) : c.toNat < 16 ^ 2 := by
  simp only [isControl, Bool.or_eq_true, Bool.and_eq_true, decide_eq_true_eq] at h
  omega

/-- A character is written as itself, unless it is a backslash, or as a backslash and an escape that
is undone to it. -/
theorem encodeChar_undone (c : Char) :
    (encodeChar c = [c] ∧ c ≠ '\\') ∨
      ∃ body, encodeChar c = '\\' :: body ∧ Escape.start.undo? body = some c := by
  by_cases hbackslash : c = '\\'
  · subst hbackslash
    exact .inr ⟨['\\'], rfl, rfl⟩
  by_cases hreturn : c = '\r'
  · subst hreturn
    exact .inr ⟨['r'], rfl, rfl⟩
  by_cases hfeed : c = '\n'
  · subst hfeed
    exact .inr ⟨['n'], rfl, rfl⟩
  by_cases htab : c = '\t'
  · subst htab
    exact .inr ⟨['t'], rfl, rfl⟩
  cases hcontrol : isControl c with
  | false => exact .inl ⟨encodeChar_of_plain hcontrol hbackslash, hbackslash⟩
  | true =>
    refine .inr ⟨'x' :: hexDigits 2 c.toNat, ?_, undo?_hexDigits (toNat_lt_of_isControl hcontrol)⟩
    simp [encodeChar, hbackslash, hreturn, hfeed, htab, hcontrol]

end PositionAutomata.Lexer
