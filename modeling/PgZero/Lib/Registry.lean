import Mathlib.Logic.Function.Basic
import Mathlib.Tactic

/-!
# Registries

A registry maps names to handles. An owner registers a new handle under a name that is free, later
closes it, and at last takes it out of the registry if it is still registered. Between the last two
another owner may come; it finds the name taken.

* **`Registry.Inv.step`**: handles in the registry have one owner, and open handles are registered.
* **`Registry.Inv.name_inj`**: open handles have different names.
-/

set_option autoImplicit false

namespace Lib

open Function

/-- A registry, with the handles made so far and their names. An owner holds at most one handle,
with a flag for whether it has closed it. -/
structure Registry (κ ι : Type) where
  map : κ → Option ℕ
  name : ℕ → κ
  closed : ℕ → Bool
  made : ℕ
  holds : ι → Option (ℕ × Bool)

namespace Registry

variable {κ ι : Type} [DecidableEq κ] [DecidableEq ι]

/-- An owner registers an entry, closes it or unregisters it. -/
inductive Step (r : Registry κ ι) : Registry κ ι → Prop
  | skip : Step r r
  | register (i : ι) (k : κ) : r.map k = none → r.holds i = none → Step r
      { map := update r.map k (some r.made)
        name := update r.name r.made k
        closed := update r.closed r.made false
        made := r.made + 1
        holds := update r.holds i (some (r.made, false)) }
  | close (i : ι) (l : ℕ) : r.holds i = some (l, false) → Step r
      { r with
        closed := update r.closed l true
        holds := update r.holds i (some (l, true)) }
  | unregister (i : ι) (l : ℕ) : r.holds i = some (l, true) → Step r
      { r with
        map := if r.map (r.name l) = some l then update r.map (r.name l) none else r.map
        holds := update r.holds i none }

/-- The entries of the map are held, each by one owner. -/
structure Inv (r : Registry κ ι) : Prop where
  held : ∀ i l c, r.holds i = some (l, c) →
    l < r.made ∧ r.closed l = c ∧ r.map (r.name l) = some l
  reg : ∀ k l, r.map k = some l → r.name l = k ∧ ∃ i c, r.holds i = some (l, c)
  one : ∀ i j l c c', r.holds i = some (l, c) → r.holds j = some (l, c') → i = j
  opened : ∀ l, l < r.made → r.closed l = false → ∃ i, r.holds i = some (l, false)

variable {r r' : Registry κ ι}

theorem Inv.register (h : r.Inv) {i : ι} {k : κ} (hk : r.map k = none) (hi : r.holds i = none) :
    Inv
      { map := update r.map k (some r.made)
        name := update r.name r.made k
        closed := update r.closed r.made false
        made := r.made + 1
        holds := update r.holds i (some (r.made, false)) } := by
  refine ⟨fun j l c hj => ?_, fun k' l hk' => ?_, fun j j' l c c' hj hj' => ?_, fun l hl ho => ?_⟩
  · dsimp only at hj ⊢
    by_cases hji : j = i
    · rw [hji, update_self] at hj
      cases hj
      simp
    · rw [update_of_ne hji] at hj
      obtain ⟨h1, h2, h3⟩ := h.held j l c hj
      have hname : r.name l ≠ k := fun he => by simp [he, hk] at h3
      simp only [update_of_ne h1.ne, update_of_ne hname]
      exact ⟨Nat.lt_succ_of_lt h1, h2, h3⟩
  · dsimp only at hk' ⊢
    by_cases hkk : k' = k
    · rw [hkk, update_self] at hk'
      cases hk'
      rw [hkk]
      exact ⟨update_self _ _ _, i, false, update_self _ _ _⟩
    · rw [update_of_ne hkk] at hk'
      obtain ⟨hn, j, c, hj⟩ := h.reg k' l hk'
      have hji : j ≠ i := fun he => by simp [he, hi] at hj
      rw [update_of_ne (h.held j l c hj).1.ne]
      exact ⟨hn, j, c, by rw [update_of_ne hji]; exact hj⟩
  · dsimp only at hj hj'
    by_cases hji : j = i <;> by_cases hji' : j' = i
    · rw [hji, hji']
    · rw [hji, update_self] at hj
      rw [update_of_ne hji'] at hj'
      cases hj
      exact absurd (h.held j' _ c' hj').1 (lt_irrefl _)
    · rw [hji', update_self] at hj'
      rw [update_of_ne hji] at hj
      cases hj'
      exact absurd (h.held j _ c hj).1 (lt_irrefl _)
    · rw [update_of_ne hji] at hj
      rw [update_of_ne hji'] at hj'
      exact h.one j j' l c c' hj hj'
  · dsimp only at hl ho ⊢
    rcases Nat.lt_succ_iff_lt_or_eq.mp hl with hl | rfl
    · rw [update_of_ne hl.ne] at ho
      obtain ⟨j, hj⟩ := h.opened l hl ho
      have hji : j ≠ i := fun he => by simp [he, hi] at hj
      exact ⟨j, by rw [update_of_ne hji]; exact hj⟩
    · exact ⟨i, update_self _ _ _⟩

omit [DecidableEq κ] in
theorem Inv.close (h : r.Inv) {i : ι} {l : ℕ} (hi : r.holds i = some (l, false)) :
    Inv { r with
      closed := update r.closed l true
      holds := update r.holds i (some (l, true)) } := by
  -- the owners and their handles stay, only the flag of one changes
  have hsame : ∀ j l' c, update r.holds i (some (l, true)) j = some (l', c) →
      ∃ c', r.holds j = some (l', c') := by
    intro j l' c hj
    by_cases hji : j = i
    · rw [hji, update_self] at hj
      cases hj
      exact ⟨false, hji ▸ hi⟩
    · rw [update_of_ne hji] at hj
      exact ⟨c, hj⟩
  refine ⟨fun j l' c hj => ?_, fun k l' hk => ?_, fun j j' l' c c' hj hj' => ?_,
    fun l' hl ho => ?_⟩
  · dsimp only at hj ⊢
    by_cases hji : j = i
    · rw [hji, update_self] at hj
      cases hj
      obtain ⟨h1, -, h3⟩ := h.held i l false hi
      exact ⟨h1, update_self _ _ _, h3⟩
    · rw [update_of_ne hji] at hj
      obtain ⟨h1, h2, h3⟩ := h.held j l' c hj
      have hne : l' ≠ l := by
        rintro rfl
        exact hji (h.one j i l' c false hj hi)
      rw [update_of_ne hne]
      exact ⟨h1, h2, h3⟩
  · obtain ⟨hn, j, c, hj⟩ := h.reg k l' hk
    refine ⟨hn, j, ?_⟩
    by_cases hji : j = i
    · rw [hji, hi] at hj
      cases hj
      exact ⟨true, by rw [hji]; exact update_self _ _ _⟩
    · exact ⟨c, (update_of_ne hji _ _).trans hj⟩
  · obtain ⟨d, hd⟩ := hsame j l' c hj
    obtain ⟨d', hd'⟩ := hsame j' l' c' hj'
    exact h.one j j' l' d d' hd hd'
  · dsimp only at ho ⊢
    have hne : l' ≠ l := by
      rintro rfl
      rw [update_self] at ho
      cases ho
    rw [update_of_ne hne] at ho
    obtain ⟨j, hj⟩ := h.opened l' hl ho
    have hji : j ≠ i := by
      rintro rfl
      rw [hi] at hj
      cases hj
      exact hne rfl
    exact ⟨j, (update_of_ne hji _ _).trans hj⟩

theorem Inv.unregister (h : r.Inv) {i : ι} {l : ℕ} (hi : r.holds i = some (l, true)) :
    Inv { r with
      map := if r.map (r.name l) = some l then update r.map (r.name l) none else r.map
      holds := update r.holds i none } := by
  obtain ⟨-, -, hmap⟩ := h.held i l true hi
  rw [if_pos hmap]
  have hkeep : ∀ j l' c, update r.holds i none j = some (l', c) →
      j ≠ i ∧ r.holds j = some (l', c) := by
    intro j l' c hj
    by_cases hji : j = i
    · rw [hji, update_self] at hj
      cases hj
    · rw [update_of_ne hji] at hj
      exact ⟨hji, hj⟩
  refine ⟨fun j l' c hj => ?_, fun k l' hk => ?_, fun j j' l' c c' hj hj' => ?_,
    fun l' hl ho => ?_⟩
  · obtain ⟨hji, hj⟩ := hkeep j l' c hj
    obtain ⟨h1, h2, h3⟩ := h.held j l' c hj
    have hname : r.name l' ≠ r.name l := by
      intro he
      rw [he, hmap] at h3
      cases h3
      exact hji (h.one j i l c true hj hi)
    exact ⟨h1, h2, (update_of_ne hname _ _).trans h3⟩
  · dsimp only at hk ⊢
    by_cases hkk : k = r.name l
    · rw [hkk, update_self] at hk
      cases hk
    · rw [update_of_ne hkk] at hk
      obtain ⟨hn, j, c, hj⟩ := h.reg k l' hk
      have hji : j ≠ i := by
        rintro rfl
        rw [hi] at hj
        cases hj
        exact hkk hn.symm
      exact ⟨hn, j, c, (update_of_ne hji _ _).trans hj⟩
  · exact h.one j j' l' c c' (hkeep j l' c hj).2 (hkeep j' l' c' hj').2
  · obtain ⟨j, hj⟩ := h.opened l' hl ho
    have hji : j ≠ i := by
      rintro rfl
      rw [hi] at hj
      cases hj
    exact ⟨j, (update_of_ne hji _ _).trans hj⟩

theorem Inv.step (h : r.Inv) (hs : Step r r') : r'.Inv := by
  cases hs with
  | skip => exact h
  | register i k hk hi => exact h.register hk hi
  | close i l hi => exact h.close hi
  | unregister i l hi => exact h.unregister hi

omit [DecidableEq κ] [DecidableEq ι] in
theorem Inv.name_inj (h : r.Inv) {l l' : ℕ} (hl : l < r.made) (hl' : l' < r.made)
    (ho : r.closed l = false) (ho' : r.closed l' = false) (hn : r.name l = r.name l') : l = l' := by
  obtain ⟨i, hi⟩ := h.opened l hl ho
  obtain ⟨i', hi'⟩ := h.opened l' hl' ho'
  have hm := (h.held i l false hi).2.2
  rw [hn, (h.held i' l' false hi').2.2] at hm
  exact (Option.some.inj hm).symm

end Registry

end Lib
