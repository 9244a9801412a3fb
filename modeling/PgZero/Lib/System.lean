import Mathlib.Data.List.Basic
import Mathlib.Tactic

/-!
# Transition systems

A system is given by its initial states and a guarded step function: `step s e` is `none` when the
event `e` is not enabled in `s`, and otherwise the next state with what the step returns. The step
function is executable, so a fixed list of events can be replayed (`exec`).

* **`Run.invariant`**: what every step preserves holds at the end of every run.
* **`Run.history`**: the same for a property of the state and the trace so far.
-/

set_option autoImplicit false

namespace Lib

/-- A transition system: initial states, and a guarded step function with answers. -/
structure System (σ ε ω : Type) where
  init : σ → Prop
  step : σ → ε → Option (σ × ω)

namespace System

variable {σ ε ω : Type} (sys : System σ ε ω)

/-- A run from `s0`, with its events and their answers, the latest one last. -/
inductive Run (s0 : σ) : List (ε × ω) → σ → Prop
  | nil : Run s0 [] s0
  | snoc {tr : List (ε × ω)} {s s' : σ} {e : ε} {o : ω} :
      Run s0 tr s → sys.step s e = some (s', o) → Run s0 (tr ++ [(e, o)]) s'

/-- The states of the runs from an initial state. -/
def Reachable (s : σ) : Prop := ∃ s0 tr, sys.init s0 ∧ sys.Run s0 tr s

/-- The system whose steps all meet `C`, a condition on the state before the step. -/
def restrict (C : σ → ε → Prop) [∀ s e, Decidable (C s e)] : System σ ε ω where
  init := sys.init
  step s e := if C s e then sys.step s e else none

/-- Replay a list of events; `none` if one of them is not enabled. -/
def exec : σ → List ε → Option (σ × List (ε × ω))
  | s, [] => some (s, [])
  | s, e :: es => do
    let (s1, o) ← sys.step s e
    let (s2, tr) ← exec s1 es
    return (s2, (e, o) :: tr)

variable {sys}

theorem Run.cons {s s1 s2 : σ} {e : ε} {o : ω} {tr : List (ε × ω)}
    (h : sys.step s e = some (s1, o)) (hr : sys.Run s1 tr s2) : sys.Run s ((e, o) :: tr) s2 := by
  induction hr with
  | nil =>
    show sys.Run s ([] ++ [(e, o)]) s1
    exact Run.snoc Run.nil h
  | snoc _ hs ih => exact Run.snoc ih hs

theorem Run.trans {s s1 s2 : σ} {tr tr' : List (ε × ω)} (h : sys.Run s tr s1)
    (h' : sys.Run s1 tr' s2) : sys.Run s (tr ++ tr') s2 := by
  induction h' with
  | nil => exact (List.append_nil tr).symm ▸ h
  | snoc _ hs ih => exact List.append_assoc _ _ _ ▸ ih.snoc hs

theorem Run.of_snoc {s s' : σ} {tr : List (ε × ω)} {e : ε} {o : ω}
    (h : sys.Run s (tr ++ [(e, o)]) s') : ∃ s1, sys.Run s tr s1 ∧ sys.step s1 e = some (s', o) := by
  generalize htr : tr ++ [(e, o)] = tr' at h
  cases h with
  | nil => simp at htr
  | snoc hr hs =>
    obtain ⟨rfl, he⟩ := List.append_inj' htr rfl
    cases he
    exact ⟨_, hr, hs⟩

theorem Run.eq_of_nil {s s' : σ} (h : sys.Run s [] s') : s' = s := by
  generalize htr : ([] : List (ε × ω)) = tr at h
  cases h with
  | nil => rfl
  | snoc => simp at htr

theorem exec_run (s : σ) (es : List ε) {s' : σ} {tr : List (ε × ω)}
    (h : sys.exec s es = some (s', tr)) : sys.Run s tr s' := by
  induction es generalizing s tr with
  | nil => cases h; exact Run.nil
  | cons e es ih =>
    simp only [exec, Option.bind_eq_bind, Option.bind_eq_some_iff, Prod.exists] at h
    obtain ⟨s1, o, h1, s2, tr2, h2, h3⟩ := h
    cases h3
    exact Run.cons h1 (ih _ h2)

theorem Run.invariant {P : σ → Prop} (hs : ∀ s e s' o, P s → sys.step s e = some (s', o) → P s')
    {s0 s : σ} {tr : List (ε × ω)} (h : sys.Run s0 tr s) (h0 : P s0) : P s := by
  induction h with
  | nil => exact h0
  | snoc _ hst ih => exact hs _ _ _ _ ih hst

/-- **Invariance along runs, with the trace.** -/
theorem Run.history {P : List (ε × ω) → σ → Prop}
    (hs : ∀ tr s e s' o, P tr s → sys.step s e = some (s', o) → P (tr ++ [(e, o)]) s')
    {s0 s : σ} {tr : List (ε × ω)} (h : sys.Run s0 tr s) (h0 : P [] s0) : P tr s := by
  induction h with
  | nil => exact h0
  | snoc _ hst ih => exact hs _ _ _ _ _ ih hst

theorem Reachable.invariant {P : σ → Prop} (h0 : ∀ s, sys.init s → P s)
    (hs : ∀ s e s' o, P s → sys.step s e = some (s', o) → P s') {s : σ} (h : sys.Reachable s) :
    P s := by
  obtain ⟨s0, tr, hi, hr⟩ := h
  exact hr.invariant hs (h0 s0 hi)

theorem Reachable.step {s s' : σ} {e : ε} {o : ω} (h : sys.Reachable s)
    (hs : sys.step s e = some (s', o)) : sys.Reachable s' := by
  obtain ⟨s0, tr, hi, hr⟩ := h
  exact ⟨s0, _, hi, hr.snoc hs⟩

theorem reachable_of_exec {s s' : σ} (es : List ε) {tr : List (ε × ω)} (hi : sys.init s)
    (h : sys.exec s es = some (s', tr)) : sys.Reachable s' :=
  ⟨s, tr, hi, exec_run s es h⟩

theorem restrict_step {C : σ → ε → Prop} [∀ s e, Decidable (C s e)] {s s' : σ} {e : ε} {o : ω} :
    (sys.restrict C).step s e = some (s', o) ↔ C s e ∧ sys.step s e = some (s', o) := by
  simp only [restrict]
  split_ifs with h
  · simp [h]
  · simp [h]

theorem Reachable.of_restrict {C : σ → ε → Prop} [∀ s e, Decidable (C s e)] {s : σ}
    (h : (sys.restrict C).Reachable s) : sys.Reachable s := by
  refine h.invariant (fun s hs => ⟨s, [], hs, Run.nil⟩) (fun s e s' o hr hs => ?_)
  exact hr.step (restrict_step.mp hs).2

end System

end Lib
