import PgZero.Lib.System

/-!
# Notifiers

A notifier wakes everyone waiting for a state change. A waiter takes the current channel with
`wait` before it re-checks its condition; `notify` closes that channel and forgets it.

Channels are numbered in the order in which they are made. All of them but the current one are
closed, so **`closed_notify`**: a channel that was ever taken is closed once `notify` has run.
-/

set_option autoImplicit false

namespace PgZero.Kernel

/-- A notifier: its current channel, if there is one, and the number of channels made so far. -/
@[ext] structure Notifier where
  ch : Option ℕ
  made : ℕ
  lt_made : ∀ c, ch = some c → c < made

namespace Notifier

/-- The zero notifier. -/
def zero : Notifier := ⟨none, 0, by simp⟩

/-- Take the current channel, making one if there is none. -/
def wait (n : Notifier) : Notifier × ℕ :=
  match n.ch with
  | some c => (n, c)
  | none => (⟨some n.made, n.made + 1, by simp⟩, n.made)

/-- Close the current channel. -/
def notify (n : Notifier) : Notifier := ⟨none, n.made, by simp⟩

/-- Channel `c` has been made and closed. -/
def closed (n : Notifier) (c : ℕ) : Prop := c < n.made ∧ n.ch ≠ some c

instance (n : Notifier) (c : ℕ) : Decidable (n.closed c) := inferInstanceAs (Decidable (_ ∧ _))

/-- **A notification closes every channel taken before it.** -/
@[simp] theorem closed_notify (n : Notifier) (c : ℕ) : n.notify.closed c ↔ c < n.made := by
  simp [closed, notify]

theorem wait_ch (n : Notifier) : n.wait.1.ch = some n.wait.2 := by
  unfold wait
  cases h : n.ch <;> simp [h]

theorem wait_lt (n : Notifier) : n.wait.2 < n.wait.1.made :=
  n.wait.1.lt_made _ n.wait_ch

theorem made_le_wait (n : Notifier) : n.made ≤ n.wait.1.made := by
  unfold wait
  cases h : n.ch <;> simp

theorem closed_wait {n : Notifier} {c : ℕ} (hc : c < n.made) : n.wait.1.closed c ↔ n.closed c := by
  unfold wait closed
  cases h : n.ch with
  | some d => simp [h]
  | none =>
    have : n.made ≠ c := by omega
    simp [this]
    omega

/-- A waiter that took channel `c` before it found its condition false is woken, still rightly
asleep (`blocked`), or someone who changed the state has yet to notify (`busy`). -/
def Waits (n : Notifier) (c : ℕ) (blocked busy : Prop) : Prop :=
  c < n.made ∧ (n.closed c ∨ blocked ∨ busy)

variable {n : Notifier} {c : ℕ} {blocked busy blocked' busy' : Prop}

theorem Waits.of_blocked (hc : c < n.made) (h : blocked) : n.Waits c blocked busy :=
  ⟨hc, Or.inr (Or.inl h)⟩

/-- A change of the state puts its author between the change and the notification. -/
theorem Waits.change (h : n.Waits c blocked busy) (hb : busy') : n.Waits c blocked' busy' :=
  ⟨h.1, Or.inr (Or.inr hb)⟩

theorem Waits.notify (h : n.Waits c blocked busy) : n.notify.Waits c blocked' busy' :=
  ⟨h.1, Or.inl ((n.closed_notify c).mpr h.1)⟩

theorem Waits.wait (h : n.Waits c blocked busy) : n.wait.1.Waits c blocked busy :=
  ⟨lt_of_lt_of_le h.1 n.made_le_wait, h.2.imp_left (closed_wait h.1).mpr⟩

theorem Waits.mono (h : n.Waits c blocked busy) (h1 : blocked → blocked') (h2 : busy → busy') :
    n.Waits c blocked' busy' :=
  ⟨h.1, h.2.imp_right (Or.imp h1 h2)⟩

/-- **No lost wake-up**: with the channel open, the waiter is rightly asleep. -/
theorem Waits.asleep (h : n.Waits c blocked busy) (hc : ¬ n.closed c) (hb : ¬ busy) : blocked :=
  (h.2.resolve_left hc).resolve_right hb

end Notifier

end PgZero.Kernel
