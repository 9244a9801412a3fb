import Mathlib.Data.List.AList
import Mathlib.Algebra.BigOperators.Group.Finset.Basic
import Mathlib.Algebra.Order.BigOperators.Group.Finset
import Mathlib.Tactic

/-!
# Finite tables

A table is an association list without duplicate keys. `Table.count P t` is the number of entries
whose value satisfies `P`, and the lemmas say how it changes with the table.
-/

set_option autoImplicit false

namespace Lib

open Function

/-- A finite map from `α` to `β`. -/
abbrev Table (α β : Type) := AList (fun _ : α => β)

namespace Table

variable {α β γ : Type} [DecidableEq α]

/-- The number of entries whose value satisfies `P`. -/
def count (P : β → Bool) (t : Table α β) : ℕ := t.entries.countP fun e => P e.2

/-- The number of entries at `k` whose value satisfies `P`: one or none. -/
def countAt (P : β → Bool) (t : Table α β) (k : α) : ℕ :=
  match t.lookup k with
  | some v => if P v then 1 else 0
  | none => 0

/-- The table of the values that `f` keeps. -/
def select (f : β → Option γ) (t : Table α β) : Table α γ :=
  ⟨t.entries.filterMap fun e => (f e.2).map fun v => ⟨e.1, v⟩, by
    have hs : (t.entries.filterMap fun e => (f e.2).map fun v => (⟨e.1, v⟩ : Σ _ : α, γ)).keys.Sublist
        t.keys := by
      unfold AList.keys
      induction t.entries with
      | nil => exact List.Sublist.refl _
      | cons e l ih =>
        rw [List.filterMap_cons]
        cases f e.2 with
        | none => exact ih.trans (List.sublist_cons_self _ _)
        | some v => exact ih.cons_cons _
    exact List.Nodup.sublist hs t.keys_nodup⟩

theorem lookup_eq_some {t : Table α β} {k : α} {v : β} :
    t.lookup k = some v ↔ (⟨k, v⟩ : Σ _ : α, β) ∈ t.entries :=
  AList.mem_lookup_iff

theorem count_erase (P : β → Bool) (t : Table α β) (k : α) :
    count P (t.erase k) + countAt P t k = count P t := by
  unfold count countAt
  show (t.entries.kerase k).countP _ + _ = _
  cases h : t.lookup k with
  | none =>
    have hk : k ∉ t.entries.keys := AList.lookup_eq_none.mp h
    rw [List.kerase_of_notMem_keys hk]
    rfl
  | some v =>
    have hk : k ∈ t.entries.keys := AList.lookup_isSome.mp (by rw [h]; rfl)
    obtain ⟨w, l1, l2, -, h1, h2⟩ := List.exists_of_kerase hk
    have hw : w = v := by
      have hm : (⟨k, w⟩ : Σ _ : α, β) ∈ t.entries := by rw [h1]; simp
      exact Option.some.inj ((lookup_eq_some.mpr hm).symm.trans h)
    subst hw
    rw [h2, h1, List.countP_append, List.countP_append, List.countP_cons]
    dsimp only
    omega

theorem count_insert (P : β → Bool) (t : Table α β) (k : α) (v : β) :
    count P (t.insert k v) + countAt P t k = count P t + if P v then 1 else 0 := by
  have h := count_erase P t k
  have hi : count P (t.insert k v) = count P (t.erase k) +
      if P v then 1 else 0 := by
    unfold count
    rw [AList.entries_insert, List.countP_cons]
    rfl
  omega

theorem count_pos_iff (P : β → Bool) (t : Table α β) :
    0 < count P t ↔ ∃ k v, t.lookup k = some v ∧ P v := by
  unfold count
  rw [List.countP_pos_iff]
  constructor
  · rintro ⟨⟨k, v⟩, hm, hp⟩
    exact ⟨k, v, lookup_eq_some.mpr hm, hp⟩
  · rintro ⟨k, v, hl, hp⟩
    exact ⟨⟨k, v⟩, lookup_eq_some.mp hl, hp⟩

theorem lookup_select (f : β → Option γ) (t : Table α β) (k : α) :
    (t.select f).lookup k = (t.lookup k).bind f := by
  apply Option.ext
  intro v
  show (t.select f).lookup k = some v ↔ (t.lookup k).bind f = some v
  rw [lookup_eq_some, Option.bind_eq_some_iff]
  unfold select
  rw [List.mem_filterMap]
  constructor
  · rintro ⟨⟨k', w⟩, hm, hf⟩
    rw [Option.map_eq_some_iff] at hf
    obtain ⟨v', hv, he⟩ := hf
    cases he
    exact ⟨w, lookup_eq_some.mpr hm, hv⟩
  · rintro ⟨w, hw, hf⟩
    exact ⟨⟨k, w⟩, lookup_eq_some.mp hw, by rw [hf]; rfl⟩

theorem countAt_eq_zero {P : β → Bool} {t : Table α β} {k : α} (h : t.lookup k = none) :
    countAt P t k = 0 := by
  rw [countAt, h]

end Table

theorem sum_range_update {δ : Type} (g : δ → ℕ) (f : ℕ → δ) {n p : ℕ} (hp : p < n) (x : δ) :
    (∑ i ∈ Finset.range n, g (update f p x i)) + g (f p) =
      (∑ i ∈ Finset.range n, g (f i)) + g x := by
  have hm : p ∈ Finset.range n := Finset.mem_range.mpr hp
  have hc : ∀ i ∈ (Finset.range n).erase p, g (update f p x i) = g (f i) := by
    intro i hi
    rw [update_of_ne (Finset.ne_of_mem_erase hi)]
  rw [← Finset.add_sum_erase _ _ hm, ← Finset.add_sum_erase _ (fun i => g (f i)) hm,
    Finset.sum_congr rfl hc, update_self]
  omega

end Lib
