import PgZero.Kernel.ProcHistory

/-!
# Closing a kernel

`Kernel.Close` takes the registered processes in one section under the kernel's mutex, kills each of
them, waits until each has closed its `done` channel, and closes the shared memory. The processes
run on until they stop, and nothing keeps them from registering children in the meantime.

* **`close_stops_all`**: the runs that meet it and `NoReuse`.
* **`close_misses`**: a run that does not.
-/

set_option autoImplicit false

namespace PgZero.Kernel

open Lib

/-- Where the call is. -/
inductive ClosePc
  | idle
  /-- `todo` is still to be killed, of the snapshot `all` -/
  | killing (todo all : List ℕ)
  | waiting (todo : List ℕ)
  | returned
  deriving DecidableEq, Repr

/-- All processes, and the call of `Close` on kernel `k`. A killed process has its context
cancelled, which stops its guest code at some later point. -/
structure CloseState where
  pids : PidState
  k : ℕ
  pc : ClosePc
  killed : ℕ → Bool

/-- The steps of `Close` and of the processes. -/
inductive CloseAct
  | pid (a : PidAct)
  /-- the section, which finds the processes in some order -/
  | snapshot (running : List ℕ)
  | kill
  | wait
  deriving DecidableEq, Repr

/-- The values of `k.procs`. -/
def PidState.registered (s : PidState) (k : ℕ) : List ℕ :=
  (List.range s.nprocs).filter fun c => s.procs k (s.info c).pid = some c

/-- One step of `Close`, or of a process. -/
def closeStep (base : ℕ) (s : CloseState) : CloseAct → Option CloseState
  | .pid a => (pidStep base s.pids a).map fun pids => { s with pids }
  | .snapshot running =>
    if s.pc = .idle ∧ running.Perm (s.pids.registered s.k) then
      some { s with pc := .killing running running }
    else none
  | .kill =>
    match s.pc with
    | .killing (p :: todo) all =>
      some { s with pc := .killing todo all, killed := Function.update s.killed p true }
    | .killing [] all => some { s with pc := .waiting all }
    | _ => none
  | .wait =>
    match s.pc with
    | .waiting (p :: todo) =>
      if (s.pids.info p).exited then some { s with pc := .waiting todo } else none
    -- `k.shm.closeAll` and the return
    | .waiting [] => some { s with pc := .returned }
    | _ => none

/-- A kernel and a call of `Close`. -/
def closeSystem (hostPid : ℕ) : System CloseState CloseAct Unit where
  init s := ∃ k, s = ⟨.empty, k, .idle, fun _ => false⟩
  step s a := (closeStep (pidBase hostPid) s a).map fun s' => (s', ())

/-- Once the snapshot is taken, no step registers a process in the kernel. -/
def NoneAdded (s : CloseState) : CloseAct → Prop
  | .pid a => NoReuse s.pids a ∧ (s.pc ≠ .idle → ∀ x ∈ s.pids.registers a, x.1 ≠ s.k)
  | _ => True

instance (s : CloseState) : (a : CloseAct) → Decidable (NoneAdded s a)
  | .pid _ => inferInstanceAs (Decidable (_ ∧ (_ → _)))
  | .snapshot _ | .kill | .wait => inferInstanceAs (Decidable True)

/-! ### Who is waited for -/

/-- The processes whose end the call has still to see. -/
def ClosePc.pending : ClosePc → List ℕ
  | .idle => []
  | .killing _ all => all
  | .waiting todo => todo
  | .returned => []

/-- After the snapshot, each process of the kernel has exited or is still waited for. -/
structure CloseInv (s : CloseState) : Prop where
  pids : PidInv s.pids
  seen : s.pc ≠ .idle → ∀ c < s.pids.nprocs, (s.pids.info c).kernel = s.k →
    (s.pids.info c).exited ∨ c ∈ s.pc.pending

theorem PidInv.mem_registered {s : PidState} (h : PidInv s) {c : ℕ} (hc : c < s.nprocs)
    (hx : (s.info c).exited = false) : c ∈ s.registered (s.info c).kernel := by
  have hreg := h.strong c ⟨hc, .inl hx⟩
  rw [PidState.registered, List.mem_filter]
  exact ⟨List.mem_range.mpr hc, decide_eq_true hreg⟩

theorem CloseInv.pidStep {s : CloseState} {base : ℕ} {a : PidAct} {pids : PidState}
    (h : CloseInv s) (hc : NoneAdded s (.pid a)) (hs : pidStep base s.pids a = some pids) :
    CloseInv { s with pids } := by
  obtain ⟨hlater, hnew⟩ := pidStep_later h.pids hs
  refine ⟨pidInv_step h.pids hc.1 hs, ?_⟩
  intro hpc c hlt hk
  by_cases hold : c < s.pids.nprocs
  · have hl := hlater.proc c hold
    apply (h.seen hpc c hold (hl.kernel.symm.trans hk)).imp
    · exact hl.exited
    · exact id
  · -- a new process belongs to another kernel
    have hreg := hnew c hlt (not_lt.mp hold)
    exact absurd hk (hc.2 hpc _ hreg)

/-- The call goes on, and drops from its list only a process that has exited. -/
theorem CloseInv.setPc {s s' : CloseState} (h : CloseInv s) (hpids : s'.pids = s.pids)
    (hk : s'.k = s.k) (hpc : s.pc ≠ .idle)
    (hpend : ∀ c ∈ s.pc.pending, (s.pids.info c).exited ∨ c ∈ s'.pc.pending) : CloseInv s' := by
  refine ⟨hpids ▸ h.pids, ?_⟩
  rw [hpids, hk]
  intro _ c hlt hkc
  rcases h.seen hpc c hlt hkc with hx | hc
  · exact .inl hx
  · exact hpend c hc

theorem closeInv_step {hostPid : ℕ} {s s' : CloseState} {a : CloseAct} (h : CloseInv s)
    (hstep : ((closeSystem hostPid).restrict NoneAdded).step s a = some (s', ())) :
    CloseInv s' := by
  obtain ⟨hc, hmap⟩ := System.restrict_step.mp hstep
  have hs : closeStep (pidBase hostPid) s a = some s' := by simpa [closeSystem] using hmap
  clear hmap hstep
  cases a with
  | pid a =>
    obtain ⟨pids, hpid, rfl⟩ := Option.map_eq_some_iff.mp hs
    exact h.pidStep hc hpid
  | snapshot running =>
    obtain ⟨⟨_, hperm⟩, hs⟩ := Option.ite_none_right_eq_some.mp hs
    cases hs
    refine ⟨h.pids, ?_⟩
    intro _ c hlt hk
    by_cases hx : (s.pids.info c).exited
    · exact .inl hx
    · have hmem := h.pids.mem_registered hlt (Bool.not_eq_true _ ▸ hx)
      rw [hk] at hmem
      exact .inr (hperm.mem_iff.mpr hmem)
  | kill =>
    simp only [closeStep] at hs
    split at hs
    · rename_i hpc
      cases hs
      refine h.setPc rfl rfl (by simp [hpc]) ?_
      intro c hc
      rw [hpc] at hc
      exact .inr hc
    · rename_i hpc
      cases hs
      refine h.setPc rfl rfl (by simp [hpc]) ?_
      intro c hc
      rw [hpc] at hc
      exact .inr hc
    · cases hs
  | wait =>
    simp only [closeStep] at hs
    split at hs
    · rename_i p todo hpc
      obtain ⟨hx, hs⟩ := Option.ite_none_right_eq_some.mp hs
      cases hs
      refine h.setPc rfl rfl (by simp [hpc]) ?_
      intro c hc
      rw [hpc] at hc
      rcases List.mem_cons.mp hc with rfl | hc
      · exact .inl hx
      · exact .inr hc
    · rename_i hpc
      cases hs
      refine h.setPc rfl rfl (by simp [hpc]) ?_
      intro c hc
      rw [hpc] at hc
      exact .inr hc
    · cases hs

theorem closeInv_reachable {hostPid : ℕ} {s : CloseState}
    (h : ((closeSystem hostPid).restrict NoneAdded).Reachable s) : CloseInv s := by
  apply h.invariant
  · rintro s ⟨k, rfl⟩
    exact ⟨pidInv_empty, fun hne => absurd rfl hne⟩
  · intro s a s' o hi hs
    exact closeInv_step hi hs

/-- **`Close` stops everything** if no process is registered in the kernel after the snapshot. -/
theorem close_stops_all (hostPid : ℕ) (s : CloseState)
    (h : ((closeSystem hostPid).restrict NoneAdded).Reachable s) (hr : s.pc = .returned) :
    ∀ c < s.pids.nprocs, (s.pids.info c).kernel = s.k → (s.pids.info c).exited = true := by
  intro c hc hk
  have hseen := (closeInv_reachable h).seen (by simp [hr]) c hc hk
  rw [hr] at hseen
  exact hseen.resolve_right (List.not_mem_nil)

/-- No process yet. -/
def closeStart : CloseState := ⟨.empty, 0, .idle, fun _ => false⟩

/-- A process with a child that it has reaped. -/
theorem close_stops_all_family : ∃ s, ((closeSystem 7).restrict NoneAdded).Reachable s ∧
    s.pc = .returned ∧ s.pids.nprocs = 2 ∧
    ∀ c < s.pids.nprocs, (s.pids.info c).kernel = s.k → (s.pids.info c).exited = true := by
  have hr := @System.reachable_of_exec _ _ _ ((closeSystem 7).restrict NoneAdded) closeStart _
    [.pid (.startAlloc 0 0), .pid (.startInsert 0), .pid (.spawnAlloc 0), .pid (.spawnInsert 0),
      .pid (.spawnRun 0), .snapshot [1, 0], .kill, .pid (.close 1), .kill, .kill, .wait,
      .pid (.waitReap 0 (7 * 2048 + 2)), .pid (.waitForget 0), .pid (.close 0), .wait, .wait]
    _ ⟨0, rfl⟩ rfl
  exact ⟨_, hr, rfl, rfl, close_stops_all 7 _ hr rfl⟩

/-- **A process that `Close` misses**: a child spawned after the snapshot. -/
theorem close_misses : ∃ s, (closeSystem 7).Reachable s ∧ s.pc = .returned ∧
    (s.pids.info 1).kernel = s.k ∧ (s.pids.info 1).phase = .running ∧ s.killed 1 = false := by
  have hr := @System.reachable_of_exec _ _ _ (closeSystem 7) closeStart _
    [.pid (.startAlloc 0 0), .pid (.startInsert 0), .snapshot [0], .pid (.spawnAlloc 0),
      .pid (.spawnInsert 0), .pid (.spawnRun 0), .kill, .kill, .pid (.close 0), .wait, .wait]
    _ ⟨0, rfl⟩ rfl
  exact ⟨_, hr, rfl, rfl, rfl, rfl⟩

end PgZero.Kernel
