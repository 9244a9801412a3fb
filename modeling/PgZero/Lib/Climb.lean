import Mathlib.Data.Finset.Card
import Mathlib.Logic.Function.Iterate
import Mathlib.Tactic

/-!
# Parent chains

A forest given by parent pointers: `Climbs parent r a` says that following `parent` from `a` reaches
`r`. Roots are their own parents.

* **`Climbs.update`**: a node `n` can be moved below any `t` that climbs to the root without meeting
  `n`.
* **`Climbs.exists_iterate_lt_card`**: in a finite closed set, the way up is shorter than the set.
-/

set_option autoImplicit false

namespace Lib

variable {α β : Type}

/-- Parents lead to `r`. -/
inductive Climbs (parent : α → Option α) (r : α) : α → Prop
  | refl : Climbs parent r r
  | step {a b : α} : parent a = some b → Climbs parent r b → Climbs parent r a

/-- The same, without meeting `n`. -/
inductive ClimbsAvoiding (parent : α → Option α) (n r : α) : α → Prop
  | refl : r ≠ n → ClimbsAvoiding parent n r r
  | step {a b : α} : a ≠ n → parent a = some b → ClimbsAvoiding parent n r b →
      ClimbsAvoiding parent n r a

namespace Climbs

variable {parent parent' : α → Option α} {r r' a : α}

theorem up (h : Climbs parent r a) (ha : a ≠ r) : ∃ b, parent a = some b ∧ Climbs parent r b := by
  cases h with
  | refl => exact absurd rfl ha
  | step hp hb => exact ⟨_, hp, hb⟩

theorem of_parent (h : Climbs parent r a) (hr : parent r = some r) {b : α} (hb : parent a = some b) :
    Climbs parent r b := by
  cases h with
  | refl =>
    rw [hr] at hb
    rw [← Option.some.inj hb]
    exact .refl
  | step hp hc =>
    rw [hp] at hb
    rw [← Option.some.inj hb]
    exact hc

theorem root_eq (hr : parent r = some r) (h : Climbs parent r' a) (ha : a = r) : r' = r := by
  induction h with
  | refl => exact ha
  | step hp _ ih =>
    rw [ha, hr] at hp
    exact ih (Option.some.inj hp).symm

theorem unique (hr : parent r = some r) (hr' : parent r' = some r') (h : Climbs parent r a)
    (h' : Climbs parent r' a) : r = r' := by
  induction h with
  | refl => exact (root_eq hr h' rfl).symm
  | step hp _ ih => exact ih (h'.of_parent hr' hp)

theorem transfer {S : α → Prop} (hS : ∀ x y, S x → parent x = some y → S y)
    (heq : ∀ x, S x → parent' x = parent x) (h : Climbs parent r a) (ha : S a) :
    Climbs parent' r a := by
  induction h with
  | refl => exact .refl
  | step hp _ ih => exact .step ((heq _ ha).trans hp) (ih (hS _ _ ha hp))

/-- A map that commutes with the parents below the root takes chains to chains. -/
theorem map {q : β → Option β} {m : α → Option β} {r1 a1 : β}
    (hm : ∀ x y x1, parent x = some y → x ≠ r → m x = some x1 → ∃ y1, m y = some y1 ∧ q x1 = some y1)
    (hr : m r = some r1) (h : Climbs parent r a) (ha : m a = some a1) : Climbs q r1 a1 := by
  induction h generalizing a1 with
  | refl =>
    rw [hr] at ha
    rw [← Option.some.inj ha]
    exact .refl
  | @step x y hp hb ih =>
    by_cases hx : x = r
    · subst hx
      rw [hr] at ha
      rw [← Option.some.inj ha]
      exact .refl
    · obtain ⟨y1, hy, hq⟩ := hm x y a1 hp hx ha
      exact .step hq (ih hy)

/-! ### Moving a node -/

theorem update_of_avoiding [DecidableEq α] {n t : α} (b : α) (h : ClimbsAvoiding parent n r t) :
    Climbs (Function.update parent n (some b)) r t := by
  induction h with
  | refl _ => exact .refl
  | step hn hp _ ih => exact .step ((Function.update_of_ne hn _ _).trans hp) ih

theorem update [DecidableEq α] {n t : α} (h : Climbs parent r a)
    (ht : ClimbsAvoiding parent n r t) : Climbs (Function.update parent n (some t)) r a := by
  induction h with
  | refl => exact .refl
  | @step x y hp _ ih =>
    by_cases hx : x = n
    · subst hx
      exact .step (Function.update_self _ _ _) (update_of_avoiding t ht)
    · exact .step ((Function.update_of_ne hx _ _).trans hp) ih

theorem update_of_not [DecidableEq α] {n : α} {x : Option α} (h : Climbs parent r a)
    (hn : ¬ Climbs parent r n) : Climbs (Function.update parent n x) r a := by
  induction h with
  | refl => exact .refl
  | @step y z hp hz ih =>
    have hy : y ≠ n := by
      rintro rfl
      exact hn (.step hp hz)
    exact .step ((Function.update_of_ne hy _ _).trans hp) ih

/-! ### The length of a chain -/

/-- One step up, staying where there is no parent. -/
def next (parent : α → Option α) (x : α) : α := (parent x).getD x

theorem exists_iterate (h : Climbs parent r a) : ∃ k, (next parent)^[k] a = r := by
  induction h with
  | refl => exact ⟨0, rfl⟩
  | step hp _ ih =>
    obtain ⟨k, hk⟩ := ih
    refine ⟨k + 1, ?_⟩
    rw [Function.iterate_succ_apply, next, hp]
    exact hk

theorem eq_root_of_cycle (h : Climbs parent r a) (hr : parent r = some r) {k : ℕ}
    (hk : (next parent)^[k + 1] a = a) : a = r := by
  obtain ⟨j, hj⟩ := h.exists_iterate
  have hroot : next parent r = r := by rw [next, hr]; rfl
  have hround : (next parent)^[(k + 1) * j] a = a := by
    rw [Function.iterate_mul]
    exact Function.iterate_fixed hk j
  calc a = (next parent)^[(k + 1) * j] a := hround.symm
    _ = (next parent)^[k * j + j] a := by rw [Nat.succ_mul]
    _ = (next parent)^[k * j] r := by rw [Function.iterate_add_apply, hj]
    _ = r := Function.iterate_fixed hroot _

theorem eq_root_of_parent_climbs (h : Climbs parent r a) (hr : parent r = some r) {b : α}
    (hp : parent a = some b) (hb : Climbs parent a b) : a = r := by
  obtain ⟨k, hk⟩ := hb.exists_iterate
  refine h.eq_root_of_cycle hr (k := k) ?_
  rw [Function.iterate_succ_apply, next, hp]
  exact hk

theorem iterate_mem {S : Finset α} (hS : ∀ x ∈ S, ∀ y, parent x = some y → y ∈ S) (ha : a ∈ S)
    (k : ℕ) : (next parent)^[k] a ∈ S := by
  induction k with
  | zero => exact ha
  | succ k ih =>
    rw [Function.iterate_succ_apply', next]
    cases hp : parent ((next parent)^[k] a) with
    | none => exact ih
    | some y => exact hS _ ih y hp

theorem exists_iterate_lt_card {S : Finset α} (hS : ∀ x ∈ S, ∀ y, parent x = some y → y ∈ S)
    (ha : a ∈ S) (h : Climbs parent r a) : ∃ k < S.card, (next parent)^[k] a = r := by
  classical
  have hex := h.exists_iterate
  set k := Nat.find hex with hk
  have hkr : (next parent)^[k] a = r := Nat.find_spec hex
  refine ⟨k, ?_, hkr⟩
  have hinj : Set.InjOn (fun i => (next parent)^[i] a) (Finset.range (k + 1)) := by
    intro i hi j hj hij
    by_contra hne
    -- a repeated node would give a shorter way
    wlog hlt : i < j generalizing i j
    · exact this hj hi hij.symm (Ne.symm hne) (by omega)
    have hj' : j < k + 1 := by simpa using hj
    have hshort : (next parent)^[k - j + i] a = r := by
      calc (next parent)^[k - j + i] a = (next parent)^[k - j] ((next parent)^[i] a) :=
            Function.iterate_add_apply _ _ _ _
        _ = (next parent)^[k - j] ((next parent)^[j] a) := congrArg _ hij
        _ = (next parent)^[k - j + j] a := (Function.iterate_add_apply _ _ _ _).symm
        _ = r := by rw [Nat.sub_add_cancel (by omega)]; exact hkr
    exact Nat.find_min hex (by omega) hshort
  have hcard := Finset.card_le_card_of_injOn (fun i => (next parent)^[i] a)
    (fun i _ => iterate_mem hS ha i) hinj
  rw [Finset.card_range] at hcard
  omega

end Climbs

theorem ClimbsAvoiding.not_climbs {parent : α → Option α} {n r a : α}
    (h : ClimbsAvoiding parent n r a) (hr : parent r = some r) : ¬ Climbs parent n a := by
  induction h with
  | refl hne => exact fun hc => hne (Climbs.root_eq hr hc rfl).symm
  | step hne hp _ ih =>
    intro hc
    obtain ⟨b, hb, hcb⟩ := hc.up hne
    obtain rfl := Option.some.inj (hp.symm.trans hb)
    exact ih hcb

end Lib
