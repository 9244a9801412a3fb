import Mathlib.Tactic

/-!
# Numerals

Texts are lists of characters. `numeral` is the number that digits spell in a base.
-/

set_option autoImplicit false

namespace Lib

/-- Characters. -/
abbrev Text := List Char

/-- The value of a digit or a letter as a digit, in bases up to 36. -/
def digit (c : Char) : Option ℕ :=
  if '0' ≤ c ∧ c ≤ '9' then some (c.toNat - 48)
  else if 'a' ≤ c ∧ c ≤ 'z' then some (c.toNat - 97 + 10)
  else if 'A' ≤ c ∧ c ≤ 'Z' then some (c.toNat - 65 + 10)
  else none

/-- Digits of a base. -/
def IsDigit (base : ℕ) (c : Char) : Prop := ∃ d, digit c = some d ∧ d < base

/-- The number that the digits of `s` spell, after digits that spell `n`. -/
def numeralFrom (base : ℕ) : ℕ → Text → ℕ
  | n, [] => n
  | n, c :: s => numeralFrom base (n * base + (digit c).getD 0) s

/-- The value of a numeral. -/
def numeral (base : ℕ) (s : Text) : ℕ := numeralFrom base 0 s

end Lib
