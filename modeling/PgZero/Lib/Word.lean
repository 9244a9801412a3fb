import Mathlib.Tactic

/-!
# Signed machine words

`wrap w x` is the value of `x` in two's complement arithmetic on `w` bits.
-/

set_option autoImplicit false

namespace Lib

/-- The `w`-bit signed value of `x`. -/
def wrap (w : ℕ) (x : ℤ) : ℤ := Int.bmod x (2 ^ w)

theorem wrap32_eq {x : ℤ} (h1 : -2 ^ 31 ≤ x) (h2 : x < 2 ^ 31) : wrap 32 x = x :=
  Int.bmod_eq_of_le_mul_two (by norm_num at h1 ⊢; omega) (by norm_num at h2 ⊢; omega)

theorem wrap64_eq {x : ℤ} (h1 : -2 ^ 63 ≤ x) (h2 : x < 2 ^ 63) : wrap 64 x = x :=
  Int.bmod_eq_of_le_mul_two (by norm_num at h1 ⊢; omega) (by norm_num at h2 ⊢; omega)

theorem wrap_sub (w : ℕ) (x : ℤ) : wrap w (x - 2 ^ w) = wrap w x := by
  have hsub := Int.sub_mul_bmod_self_left x (2 ^ w) 1
  rw [mul_one] at hsub
  exact_mod_cast hsub

theorem wrap32_over {x : ℤ} (h1 : 2 ^ 31 ≤ x) (h2 : x < 2 ^ 32) : wrap 32 x = x - 2 ^ 32 := by
  rw [← wrap_sub]
  exact wrap32_eq (by omega) (by omega)

theorem wrap64_over {x : ℤ} (h1 : 2 ^ 63 ≤ x) (h2 : x < 2 ^ 64) : wrap 64 x = x - 2 ^ 64 := by
  rw [← wrap_sub]
  exact wrap64_eq (by omega) (by omega)

end Lib
