import PgZero.Kernel.PidAlloc
import PgZero.Kernel.Signal

/-!
# `kill`

A process is addressed by its pid or the negation of it, every process being its own group. A pid
that is not one of the kernel's own may belong to another kernel or another host process; it can be
asked for, but not signalled.

* `SigState.signalled`: a whole call of `Signal`; **`signalled_steps`**: its two steps.
* **`kill_delivers`**: a signal that is reported as sent is pending, except for signal `64`.
-/

set_option autoImplicit false

namespace PgZero.Kernel

open Function Lib SigState

/-- `EPERM`, as it is numbered. -/
def EPERM : ℤ := 63
/-- `ESRCH`, as it is numbered. -/
def ESRCH : ℤ := 71

/-- `Signal(sig)`, from its start to its end. -/
def SigState.signalled (s : SigState) (sig : ℕ) : SigState :=
  if sig = SIGKILL then { s with cancelled := true }
  else if s.attached then
    { s with
      block := { s.block with pending := s.block.pending ||| 1#64 <<< sig }
      sigWake := true }
  else { s with early := s.early ||| 1#64 <<< sig, sigWake := true }

/-- A call of `Signal` is the two steps that the signalled process sees. -/
theorem signalled_steps (s : SigState) (sig : ℕ) :
    (sig = SIGKILL → s.host (.signal sig) = some (s.signalled sig, .none)) ∧
    (sig ≠ SIGKILL → ∃ s1, s.host (.signal sig) = some (s1, .none) ∧
      s1.host .send = some (s.signalled sig, .none)) := by
  constructor
  · intro h
    rw [host, if_pos h, signalled, if_pos h]
  · intro h
    rw [host, if_neg h, signalled, if_neg h]
    split_ifs
    · exact ⟨_, rfl, rfl⟩
    · exact ⟨_, rfl, rfl⟩

/-- What `syscall.Kill(pid, 0)` finds. -/
inductive HostProbe
  | ok
  | eperm
  | failed
  deriving DecidableEq, Repr

/-- A kernel: its processes by pid, the pids of all kernels of its Go process, and the signal state
of every process. -/
structure KillState where
  hostPid : ℕ
  procs : BitVec 32 → Option ℕ
  pids : PidTable
  sigs : ℕ → SigState

namespace KillState

/-- `killForeign`: a pid that is not the kernel's own. -/
def killForeign (s : KillState) (probe : ℤ → HostProbe) (pid sig : BitVec 32) : ℤ :=
  if pid.toInt ≤ 0 then -ESRCH
  else
    let owner := hostPidOf pid
    let known :=
      if owner = hostPidOf (pidBase32 s.hostPid) then (s.pids.owners pid).isSome
      else if owner = 0 then false
      else probe owner ≠ .failed
    if known = false then -ESRCH
    else if sig ≠ 0 then -EPERM
    else 0

/-- The process that `pid` addresses in a call of the process `self`. The negation of the smallest
`int32` is itself. -/
def addressed (self pid : BitVec 32) : BitVec 32 :=
  let pid := if pid.toInt < 0 then -pid else pid
  if pid = 0 then self else pid

/-- `kill` by the process `self`; `probe` is what the host says of its processes. -/
def kill (s : KillState) (self : BitVec 32) (probe : ℤ → HostProbe) (pid sig : BitVec 32) :
    KillState × ℤ :=
  if sig.toInt < 0 ∨ (NSIG : ℤ) ≤ sig.toInt then (s, -Errno.EINVAL.code)
  else
    match s.procs (addressed self pid) with
    | none => (s, s.killForeign probe (addressed self pid) sig)
    | some x =>
      if sig = 0 then (s, 0)
      else ({ s with sigs := update s.sigs x ((s.sigs x).signalled sig.toNat) }, 0)

end KillState

/-- The signal has arrived: the process is cancelled, or the bit is set in the word of the guest's
control block, or in `early` when there is none. -/
def SigState.Has (s : SigState) (sig : ℕ) : Prop :=
  sig = SIGKILL ∧ s.cancelled = true ∨
    (if s.attached then s.block.pending else s.early).getLsbD sig = true

theorem getLsbD_or_bit (w : BitVec 64) {sig : ℕ} (h : sig < 64) :
    (w ||| 1#64 <<< sig).getLsbD sig = true := by
  simp [h]

theorem signalled_has (s : SigState) {sig : ℕ} (h : sig < 64) : (s.signalled sig).Has sig := by
  unfold signalled
  split_ifs with hk ha
  · exact .inl ⟨hk, rfl⟩
  · refine .inr ?_
    simp only [ha, if_true]
    exact getLsbD_or_bit _ h
  · refine .inr ?_
    simp only [ha, Bool.false_eq_true, if_false]
    exact getLsbD_or_bit _ h

theorem killForeign_nonneg (s : KillState) (probe : ℤ → HostProbe) {pid sig : BitVec 32}
    (h : 0 ≤ s.killForeign probe pid sig) : sig = 0 := by
  by_contra hne
  unfold KillState.killForeign at h
  simp only [if_pos hne, EPERM, ESRCH] at h
  split_ifs at h <;> omega

theorem not_signalled_has (s : SigState) : ¬ (s.signalled 64).Has 64 := by
  rintro (⟨h, -⟩ | h)
  · exact absurd h (by decide)
  · simp at h

/-- **`kill` delivers what it reports**, if and only if the signal is not `64` or `pid` addresses no
process of the kernel. -/
theorem kill_delivers (s : KillState) (self : BitVec 32) (probe : ℤ → HostProbe)
    (pid sig : BitVec 32) :
    (((s.kill self probe pid sig).2 = 0 → sig ≠ 0 →
      ∃ x, s.procs (KillState.addressed self pid) = some x ∧
        ((s.kill self probe pid sig).1.sigs x).Has sig.toNat) ∧
    ((s.kill self probe pid sig).2 < 0 → (s.kill self probe pid sig).1.sigs = s.sigs) ∧
    (sig = 0 → (s.kill self probe pid sig).1.sigs = s.sigs)) ↔
      (sig ≠ 64 ∨ s.procs (KillState.addressed self pid) = none) := by
  unfold KillState.kill
  by_cases hsig : sig.toInt < 0 ∨ (NSIG : ℤ) ≤ sig.toInt
  · rw [if_pos hsig]
    have hne : sig ≠ 64 := fun h => absurd hsig (h ▸ by decide)
    exact iff_of_true
      ⟨fun h => absurd h (show -Errno.EINVAL.code ≠ 0 by decide), fun _ => rfl, fun _ => rfl⟩
      (Or.inl hne)
  rw [if_neg hsig]
  cases hp : s.procs (KillState.addressed self pid) with
  | none =>
    refine iff_of_true ⟨fun h h0 => ?_, fun _ => rfl, fun _ => rfl⟩ (Or.inr rfl)
    exact absurd (killForeign_nonneg s probe h.ge) h0
  | some x =>
    dsimp only
    split_ifs with h0
    · exact iff_of_true ⟨fun _ hne => absurd h0 hne, fun _ => rfl, fun _ => rfl⟩
        (Or.inl (h0 ▸ by decide))
    constructor
    · rintro ⟨hsent, -, -⟩
      refine Or.inl ?_
      rintro rfl
      obtain ⟨y, hy, hhas⟩ := hsent rfl h0
      cases hy
      dsimp only at hhas
      rw [update_self] at hhas
      exact not_signalled_has _ hhas
    · rintro (hne | hnone)
      · refine ⟨fun _ _ => ⟨x, rfl, ?_⟩, fun h => absurd h (lt_irrefl (0 : ℤ)),
          fun h => absurd h h0⟩
        dsimp only
        rw [update_self]
        refine signalled_has _ ?_
        -- what is left are the signals from `1` to `63`
        simp only [NSIG, not_or, not_lt, not_le] at hsig
        have hne : sig.toNat ≠ 64 := fun h => hne (BitVec.eq_of_toNat_eq h)
        rw [BitVec.toInt_eq_toNat_cond] at hsig
        split_ifs at hsig <;> omega
      · cases hnone

/-- A kernel with one process, of pid `1`, that has registered its control block. -/
def oneKilled : KillState :=
  ⟨0, fun pid => if pid = 1 then some 0 else none, ⟨fun pid => if pid = 1 then some 0 else none, 2⟩,
    fun _ => { start with attached := true }⟩

theorem kill_delivers_term :
    (oneKilled.kill 1 (fun _ => .failed) (-1) 15).2 = 0 ∧
    ∃ x, oneKilled.procs 1 = some x ∧
      ((oneKilled.kill 1 (fun _ => .failed) (-1) 15).1.sigs x).Has 15 := by
  have h : (oneKilled.kill 1 (fun _ => .failed) (-1) 15).2 = 0 := by decide
  exact ⟨h, ((kill_delivers oneKilled 1 (fun _ => .failed) (-1) 15).mpr (Or.inl (by decide))).1 h
    (by decide)⟩

/-- The bit of signal `64` is shifted out of the word: `kill` returns `0` all the same. -/
theorem kill_lost :
    (oneKilled.kill 1 (fun _ => .failed) 1 64).2 = 0 ∧
    ((oneKilled.kill 1 (fun _ => .failed) 1 64).1.sigs 0).block.pending = 0 ∧
    ((oneKilled.kill 1 (fun _ => .failed) 1 64).1.sigs 0).early = 0 ∧
    ((oneKilled.kill 1 (fun _ => .failed) 1 64).1.sigs 0).cancelled = false ∧
    ¬ ((oneKilled.kill 1 (fun _ => .failed) 1 64).1.sigs 0).Has 64 := by
  have hpend : ((oneKilled.kill 1 (fun _ => .failed) 1 64).1.sigs 0).block.pending = 0 := by decide
  refine ⟨by decide, hpend, by decide, by decide, ?_⟩
  rintro (⟨h, -⟩ | h)
  · exact absurd h (by decide)
  · rw [if_pos (by decide), hpend] at h
    exact absurd h (by decide)

end PgZero.Kernel
