import PgZero.Kernel.Notify
import PgZero.Lib.Word

/-!
# Counting semaphores

One semaphore and any number of processes. `semaLock` takes the notifier's channel, tries, and
parks on the channel, as three steps; `unlock` increments and notifies, as two. A parked process is
woken by the close of its channel, and a signal or a kill may end its wait at any point.

* **`sema_conserved`**: the count is the tally, and no process sleeps through a unit.
-/

set_option autoImplicit false

namespace PgZero.Kernel

open Lib

/-- Where a process is in its call on the semaphore. -/
inductive SemaPc
  | idle
  /-- In `semaLock`, at the head of its loop. -/
  | head
  /-- In `semaLock`, with the channel taken and `tryLock` still to run. -/
  | taken (c : ℕ)
  /-- In `semaLock`, blocked on the channel. -/
  | parked (c : ℕ)
  /-- In `unlock`, between the increment and the notification. -/
  | posting
  deriving DecidableEq, Repr

/-- A semaphore and the processes. -/
structure SemaState where
  count : ℤ
  n : Notifier
  pc : ℕ → SemaPc

/-- The steps of a process. -/
inductive SemaAct
  | semaLock | wait | tryLock | woken | interrupted | killed
  | tryLockCall | unlock | notify | reset
  deriving DecidableEq, Repr

/-- What a step returns to the guest, if its call returns. -/
inductive SemaAns
  | none
  | locked
  | again
  | eintr
  | killed
  | unlocked
  | reset
  deriving DecidableEq, Repr

/-- The process `p` goes on. -/
def SemaState.goto (s : SemaState) (p : ℕ) (x : SemaPc) : SemaState :=
  { s with pc := Function.update s.pc p x }

/-- `tryLock`: take a unit if there is one. -/
def tryLock (count : ℤ) : ℤ × Bool := if 0 < count then (wrap 32 (count - 1), true) else (count, false)

/-- One step of a process. -/
def semaStep (s : SemaState) : ℕ × SemaAct → Option (SemaState × SemaAns)
  | (p, a) =>
    match a, s.pc p with
    | .semaLock, .idle => some (s.goto p .head, .none)
    | .wait, .head => some ({ s.goto p (.taken s.n.wait.2) with n := s.n.wait.1 }, .none)
    | .tryLock, .taken c =>
      let (count, ok) := tryLock s.count
      if ok then some ({ s.goto p .idle with count }, .locked)
      else some ({ s.goto p (.parked c) with count }, .none)
    | .woken, .parked c => if s.n.closed c then some (s.goto p .head, .none) else none
    | .interrupted, .parked _ => some (s.goto p .idle, .eintr)
    | .killed, .parked _ => some (s.goto p .idle, .killed)
    | .tryLockCall, .idle =>
      let (count, ok) := tryLock s.count
      some ({ s with count }, if ok then .locked else .again)
    | .unlock, .idle => some ({ s.goto p .posting with count := wrap 32 (s.count + 1) }, .none)
    | .notify, .posting => some ({ s.goto p .idle with n := s.n.notify }, .unlocked)
    | .reset, .idle => some ({ s with count := 0 }, .reset)
    | _, _ => none

/-- A semaphore with `c` units at first. -/
def semaSystem (c : ℤ) : System SemaState (ℕ × SemaAct) SemaAns where
  init s := s = ⟨c, .zero, fun _ => .idle⟩
  step := semaStep

/-- The count stays below `2 ^ 31`: no unlock meets the largest count. -/
def CountBelow (s : SemaState) (e : ℕ × SemaAct) : Prop := e.2 = .unlock → s.count + 1 < 2 ^ 31

instance (s : SemaState) (e : ℕ × SemaAct) : Decidable (CountBelow s e) :=
  inferInstanceAs (Decidable (_ → _))

/-! ### The count -/

/-- The count accounted for: its value at the creation or the last reset, and the unlocks and
successful locks since then. -/
structure Tally where
  base : ℤ
  unlocks : ℤ
  locks : ℤ

/-- The count that the tally gives. -/
def Tally.count (t : Tally) : ℤ := t.base + t.unlocks - t.locks

/-- The tally after one more step. -/
def Tally.next (t : Tally) : (ℕ × SemaAct) × SemaAns → Tally
  | ((_, .unlock), _) => { t with unlocks := t.unlocks + 1 }
  | (_, .locked) => { t with locks := t.locks + 1 }
  | (_, .reset) => ⟨0, 0, 0⟩
  | _ => t

/-- The tally of a run from count `c`. -/
def tally (c : ℤ) (tr : List ((ℕ × SemaAct) × SemaAns)) : Tally := tr.foldl Tally.next ⟨c, 0, 0⟩

theorem tally_snoc (c : ℤ) (tr : List ((ℕ × SemaAct) × SemaAns)) (x : (ℕ × SemaAct) × SemaAns) :
    tally c (tr ++ [x]) = (tally c tr).next x := by
  simp [tally]

/-! ### The invariant -/

/-- Some unlock is between its increment and its notification. -/
def SemaState.Posting (s : SemaState) : Prop := ∃ q, s.pc q = .posting

/-- The invariant of a run with tally `t`. -/
structure SemaInv (t : Tally) (s : SemaState) : Prop where
  nonneg : 0 ≤ s.count
  lt : s.count < 2 ^ 31
  count_eq : s.count = t.count
  taken : ∀ q c, s.pc q = .taken c → c < s.n.made
  parked : ∀ q c, s.pc q = .parked c → s.n.Waits c (s.count = 0) s.Posting

theorem posting_goto {s : SemaState} {p : ℕ} {x : SemaPc} (hp : s.pc p ≠ .posting)
    (h : s.Posting) : (s.goto p x).Posting := by
  obtain ⟨q, hq⟩ := h
  have hne : q ≠ p := fun e => hp (e ▸ hq)
  exact ⟨q, by simpa [SemaState.goto, hne] using hq⟩

/-- A step of `p` that changes neither the count nor the notifier keeps the invariant. -/
theorem SemaInv.goto {t : Tally} {s : SemaState} (h : SemaInv t s) {p : ℕ} {x : SemaPc}
    (hp : s.pc p ≠ .posting) (ht : ∀ c, x ≠ .taken c)
    (hx : ∀ c, x = .parked c → c < s.n.made ∧ s.count = 0) : SemaInv t (s.goto p x) := by
  refine ⟨h.nonneg, h.lt, h.count_eq, fun q c hq => ?_, fun q c hq => ?_⟩
  · by_cases hqp : q = p
    · subst hqp
      exact absurd (by simpa [SemaState.goto] using hq) (ht c)
    · exact h.taken q c (by simpa [SemaState.goto, hqp] using hq)
  · by_cases hqp : q = p
    · subst hqp
      obtain ⟨hc, h0⟩ := hx c (by simpa [SemaState.goto] using hq)
      exact Notifier.Waits.of_blocked hc h0
    · exact (h.parked q c (by simpa [SemaState.goto, hqp] using hq)).mono id (posting_goto hp)

theorem SemaInv.take {t : Tally} {s : SemaState} (h : SemaInv t s) (hpos : 0 < s.count) :
    SemaInv { t with locks := t.locks + 1 } { s with count := s.count - 1 } := by
  have hc := h.count_eq
  refine ⟨by dsimp only; omega, by have := h.lt; dsimp only; omega, ?_, h.taken, fun q c hq => ?_⟩
  · simp only [Tally.count] at hc ⊢
    omega
  · exact (h.parked q c hq).mono (fun h0 => by omega) id

theorem tryLock_eq {count : ℤ} (h0 : 0 ≤ count) (h1 : count < 2 ^ 31) :
    (0 < count ∧ tryLock count = (count - 1, true)) ∨ (count = 0 ∧ tryLock count = (0, false)) := by
  unfold tryLock
  split_ifs with h
  · exact Or.inl ⟨h, by rw [wrap32_eq (by omega) (by omega)]⟩
  · obtain rfl : count = 0 := by omega
    exact Or.inr ⟨rfl, rfl⟩

theorem semaStep_inv {t : Tally} {s s' : SemaState} {e : ℕ × SemaAct} {o : SemaAns}
    (h : SemaInv t s) (he : CountBelow s e) (hs : semaStep s e = some (s', o)) :
    SemaInv (t.next (e, o)) s' := by
  obtain ⟨p, a⟩ := e
  cases a <;> cases hpc : s.pc p <;> simp only [semaStep, hpc, reduceCtorEq] at hs
  case semaLock.idle =>
    cases hs
    exact h.goto (by simp [hpc]) (by simp) (by simp)
  case wait.head =>
    cases hs
    refine ⟨h.nonneg, h.lt, h.count_eq, fun q c hq => ?_, fun q c hq => ?_⟩
    · by_cases hqp : q = p
      · subst hqp
        obtain rfl : s.n.wait.2 = c := by simpa [SemaState.goto] using hq
        exact s.n.wait_lt
      · exact lt_of_lt_of_le (h.taken q c (by simpa [SemaState.goto, hqp] using hq)) s.n.made_le_wait
    · by_cases hqp : q = p
      · subst hqp
        simp [SemaState.goto] at hq
      · exact (h.parked q c (by simpa [SemaState.goto, hqp] using hq)).wait.mono id
          (posting_goto (by simp [hpc]))
  case tryLock.taken c =>
    rcases tryLock_eq h.nonneg h.lt with ⟨hpos, ht⟩ | ⟨h0, ht⟩ <;> rw [ht] at hs <;> cases hs
    · exact (h.take hpos).goto (by simp [hpc]) (by simp) (by simp)
    · have := h.goto (p := p) (x := .parked c) (by simp [hpc]) (by simp)
        (fun c' hc' => by cases hc'; exact ⟨h.taken p c hpc, h0⟩)
      rwa [SemaState.goto, h0] at this
  case woken.parked c =>
    split_ifs at hs
    cases hs
    exact h.goto (by simp [hpc]) (by simp) (by simp)
  case interrupted.parked c =>
    cases hs
    exact h.goto (by simp [hpc]) (by simp) (by simp)
  case killed.parked c =>
    cases hs
    exact h.goto (by simp [hpc]) (by simp) (by simp)
  case tryLockCall.idle =>
    rcases tryLock_eq h.nonneg h.lt with ⟨hpos, ht⟩ | ⟨h0, ht⟩ <;> rw [ht] at hs <;> cases hs
    · exact h.take hpos
    · rwa [← h0]
  case unlock.idle =>
    have hlt : s.count + 1 < 2 ^ 31 := he rfl
    have hnn := h.nonneg
    cases hs
    have hw : wrap 32 (s.count + 1) = s.count + 1 := wrap32_eq (by omega) hlt
    have hpost : SemaState.Posting { s.goto p .posting with count := wrap 32 (s.count + 1) } :=
      ⟨p, by simp [SemaState.goto]⟩
    refine ⟨by dsimp only; omega, by dsimp only; omega, ?_, fun q c hq => ?_, fun q c hq => ?_⟩
    · have := h.count_eq
      simp only [Tally.count, Tally.next, hw] at this ⊢
      omega
    · by_cases hqp : q = p
      · subst hqp
        simp [SemaState.goto] at hq
      · exact h.taken q c (by simpa [SemaState.goto, hqp] using hq)
    · by_cases hqp : q = p
      · subst hqp
        simp [SemaState.goto] at hq
      · exact (h.parked q c (by simpa [SemaState.goto, hqp] using hq)).change hpost
  case notify.posting =>
    cases hs
    refine ⟨h.nonneg, h.lt, h.count_eq, fun q c hq => ?_, fun q c hq => ?_⟩
    · by_cases hqp : q = p
      · subst hqp
        simp [SemaState.goto] at hq
      · exact h.taken q c (by simpa [SemaState.goto, hqp] using hq)
    · by_cases hqp : q = p
      · subst hqp
        simp [SemaState.goto] at hq
      · exact (h.parked q c (by simpa [SemaState.goto, hqp] using hq)).notify
  case reset.idle =>
    cases hs
    refine ⟨le_rfl, by norm_num, by simp [Tally.count, Tally.next], h.taken, fun q c hq => ?_⟩
    exact (h.parked q c hq).mono (fun _ => rfl) id

/-- **Conservation and no lost wake-up.** The count is the base plus the unlocks minus the
successful locks, and a process parked while it is positive is about to be woken. -/
theorem sema_conserved {c : ℤ} (h0 : 0 ≤ c) (h1 : c < 2 ^ 31)
    {tr : List ((ℕ × SemaAct) × SemaAns)} {s : SemaState}
    (h : ((semaSystem c).restrict CountBelow).Run ⟨c, .zero, fun _ => .idle⟩ tr s) :
    0 ≤ s.count ∧ s.count = (tally c tr).base + (tally c tr).unlocks - (tally c tr).locks ∧
      ∀ p ch, s.pc p = .parked ch → ¬ s.n.closed ch → 0 < s.count → ∃ q, s.pc q = .posting := by
  have hinv : SemaInv (tally c tr) s := by
    refine h.history (P := fun tr s => SemaInv (tally c tr) s) ?_ ?_
    · intro tr s e s' o hi hs
      obtain ⟨he, hs⟩ := System.restrict_step.mp hs
      rw [tally_snoc]
      exact semaStep_inv hi he hs
    · exact ⟨h0, h1, by simp [tally, Tally.count], by simp, by simp⟩
  refine ⟨hinv.nonneg, hinv.count_eq, fun p ch hp hch hpos => ?_⟩
  by_contra hq
  have := (hinv.parked p ch hp).asleep hch hq
  omega

/-- A process parks, and another one is between its increment and its notification. -/
theorem sema_conserved_posting : ∃ tr s,
    ((semaSystem 0).restrict CountBelow).Run ⟨0, .zero, fun _ => .idle⟩ tr s ∧
      s.pc 0 = .parked 0 ∧ 0 < s.count ∧ ∃ q, s.pc q = .posting := by
  have hr := @System.exec_run _ _ _ ((semaSystem 0).restrict CountBelow)
    ⟨0, .zero, fun _ => .idle⟩ [(0, .semaLock), (0, .wait), (0, .tryLock), (1, .unlock)] _ _ rfl
  have h := sema_conserved (by norm_num) (by norm_num) hr
  exact ⟨_, _, hr, rfl, by decide, h.2.2 0 0 rfl (by decide) (by decide)⟩

end PgZero.Kernel
