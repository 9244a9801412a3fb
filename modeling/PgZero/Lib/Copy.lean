import Mathlib.Tactic

/-!
# Copies

Bytes are copied one after the other: the `i`-th one comes from `src i` and goes to the place
`dst i` of a memory.

* **`Copied.more`**: a further piece.
-/

set_option autoImplicit false

namespace Lib

/-- The first `n` elements of `src` are at their places in `m`, which is otherwise `m0`. -/
structure Copied {α β : Type} (m0 : α → β) (dst : ℕ → α) (src : ℕ → β) (m : α → β) (n : ℕ) : Prop
    where
  there : ∀ i < n, m (dst i) = src i
  frame : ∀ a, (∀ i < n, a ≠ dst i) → m a = m0 a

section

variable {α β : Type} {m0 m m' : α → β} {dst : ℕ → α} {src : ℕ → β} {n k : ℕ}

theorem copied_zero : Copied m0 dst src m0 0 := ⟨fun i hi => absurd hi (Nat.not_lt_zero i),
  fun _ _ => rfl⟩

theorem Copied.more (h : Copied m0 dst src m n)
    (hinj : ∀ i < n + k, ∀ j < n + k, dst i = dst j → i = j)
    (hnew : ∀ i < k, m' (dst (n + i)) = src (n + i))
    (hold : ∀ a, (∀ i < k, a ≠ dst (n + i)) → m' a = m a) :
    Copied m0 dst src m' (n + k) where
  there i hi := by
    by_cases hin : i < n
    · -- an earlier byte is not written again
      rw [hold (dst i), h.there i hin]
      intro j hj heq
      have hij := hinj i hi (n + j) (by omega) heq
      omega
    · obtain ⟨j, rfl⟩ := Nat.exists_eq_add_of_le (not_lt.mp hin)
      exact hnew j (by omega)
  frame a ha := by
    rw [hold a fun i hi => ha (n + i) (by omega), h.frame a fun i hi => ha i (by omega)]

end

end Lib
