import Mathlib.Data.Option.Basic
import Mathlib.Logic.Function.Basic
import Mathlib.Tactic

/-!
# Borrowed slots

A table of which some slots are overwritten for a while: before that, the value of the slot is put
at a place that was free, and in the end it is put back and the place is freed. `Borrowed g f σ`
says that `f` is the table `g` with the slots `i` borrowed for which `σ i` is a place.

* **`eq_of_none`**: when nothing is borrowed, the table is as it was.
-/

set_option autoImplicit false

namespace Lib

open Function

/-- The table `f` is `g`, with the slots of `σ` borrowed. -/
structure Borrowed {α β : Type} (g f : α → Option β) (σ : α → Option α) : Prop where
  kept : ∀ i j, σ i = some j → f j = g i
  free : ∀ i j, σ i = some j → g j = none
  full : ∀ i j, σ i = some j → g i ≠ none
  inj : ∀ i i' j, σ i = some j → σ i' = some j → i = i'
  rest : ∀ x, σ x = none → (∀ i, σ i ≠ some x) → f x = g x

namespace Borrowed

variable {α β : Type} {g f : α → Option β} {σ : α → Option α} {i j : α}

theorem start (g : α → Option β) : Borrowed g g fun _ => none where
  kept := nofun
  free := nofun
  full := nofun
  inj := nofun
  rest := fun _ _ _ => rfl

theorem ne (h : Borrowed g f σ) {i i' j j' : α} (hi : σ i = some j) (hi' : σ i' = some j') :
    i ≠ j' := by
  rintro rfl
  exact h.full i j hi (h.free i' i hi')

theorem eq_of_full (h : Borrowed g f σ) (hi : σ i = none) (hg : g i ≠ none) : f i = g i :=
  h.rest i hi fun i' hi' => hg (h.free i' i hi')

theorem eq_none (h : Borrowed g f σ) (hj : f j = none) (hσ : σ j = none) : g j = none := by
  rw [← h.rest j hσ, hj]
  intro i hi
  exact h.full i j hi ((h.kept i j hi).symm.trans hj)

theorem eq_of_none (h : Borrowed g f σ) (hσ : ∀ x, σ x = none) : f = g := by
  funext x
  refine h.rest x (hσ x) fun i hi => ?_
  rw [hσ] at hi
  cases hi

variable [DecidableEq α]

theorem save (h : Borrowed g f σ) (hi : σ i = none) (hg : g i ≠ none) (hj : f j = none)
    (hσ : σ j = none) : Borrowed g (update f j (f i)) (update σ i (some j)) := by
  have hgj := h.eq_none hj hσ
  have hnew : ∀ i', σ i' ≠ some j := fun i' hi' => h.full i' j hi' ((h.kept i' j hi').symm.trans hj)
  have hcases : ∀ i' j', update σ i (some j) i' = some j' →
      i' = i ∧ j' = j ∨ i' ≠ i ∧ j' ≠ j ∧ σ i' = some j' := by
    intro i' j' h'
    by_cases hii : i' = i
    · rw [hii, update_self] at h'
      exact Or.inl ⟨hii, (Option.some.inj h').symm⟩
    · rw [update_of_ne hii] at h'
      exact Or.inr ⟨hii, fun hjj => hnew i' (hjj ▸ h'), h'⟩
  refine ⟨fun i' j' h' => ?_, fun i' j' h' => ?_, fun i' j' h' => ?_, fun i' i2 j' h' h2 => ?_,
    fun x hx hno => ?_⟩
  · rcases hcases i' j' h' with ⟨rfl, rfl⟩ | ⟨-, hne, h'⟩
    · rw [update_self, h.eq_of_full hi hg]
    · rw [update_of_ne hne, h.kept i' j' h']
  · rcases hcases i' j' h' with ⟨-, rfl⟩ | ⟨-, -, h'⟩
    · exact hgj
    · exact h.free i' j' h'
  · rcases hcases i' j' h' with ⟨rfl, -⟩ | ⟨-, -, h'⟩
    · exact hg
    · exact h.full i' j' h'
  · rcases hcases i' j' h' with ⟨rfl, rfl⟩ | ⟨-, hne, h'⟩ <;>
      rcases hcases i2 _ h2 with ⟨rfl, hj2⟩ | ⟨-, hne2, h2⟩
    · rfl
    · exact absurd rfl hne2
    · exact absurd hj2 hne
    · exact h.inj i' i2 j' h' h2
  · have hxi : x ≠ i := by
      rintro rfl
      rw [update_self] at hx
      cases hx
    have hxj : x ≠ j := by
      rintro rfl
      exact hno i (update_self _ _ _)
    rw [update_of_ne hxi] at hx
    rw [update_of_ne hxj]
    refine h.rest x hx fun i' hi' => ?_
    refine hno i' ?_
    rw [update_of_ne, hi']
    rintro rfl
    rw [hi] at hi'
    cases hi'

theorem write (h : Borrowed g f σ) (hi : σ i = some j) (v : Option β) :
    Borrowed g (update f i v) σ := by
  refine ⟨fun i' j' h' => ?_, h.free, h.full, h.inj, fun x hx hno => ?_⟩
  · rw [update_of_ne (h.ne hi h').symm, h.kept i' j' h']
  · have hxi : x ≠ i := by
      rintro rfl
      rw [hi] at hx
      cases hx
    rw [update_of_ne hxi, h.rest x hx hno]

theorem restore (h : Borrowed g f σ) (hi : σ i = some j) :
    Borrowed g (update (update f i (f j)) j none) (update σ i none) := by
  have hold : ∀ i' j', update σ i none i' = some j' → i' ≠ i ∧ σ i' = some j' := by
    intro i' j' h'
    have hii : i' ≠ i := by
      rintro rfl
      rw [update_self] at h'
      cases h'
    rw [update_of_ne hii] at h'
    exact ⟨hii, h'⟩
  refine ⟨fun i' j' h' => ?_, fun i' j' h' => h.free i' j' (hold i' j' h').2,
    fun i' j' h' => h.full i' j' (hold i' j' h').2,
    fun i' i2 j' h' h2 => h.inj i' i2 j' (hold i' j' h').2 (hold i2 j' h2).2, fun x hx hno => ?_⟩
  · obtain ⟨hne, h'⟩ := hold i' j' h'
    have hjj : j' ≠ j := fun hjj => hne (h.inj i' i j (hjj ▸ h') hi)
    rw [update_of_ne hjj, update_of_ne (h.ne hi h').symm, h.kept i' j' h']
  · by_cases hxj : x = j
    · rw [hxj, update_self, h.free i j hi]
    · rw [update_of_ne hxj]
      by_cases hxi : x = i
      · rw [hxi, update_self, h.kept i j hi]
      · rw [update_of_ne hxi] at hx ⊢
        refine h.rest x hx fun i' hi' => hno i' ?_
        rw [update_of_ne, hi']
        rintro rfl
        rw [hi] at hi'
        exact hxj (Option.some.inj hi').symm

end Borrowed

end Lib
