import PgZero.Lib.System
import PgZero.Lib.Table

/-!
# Process ids

Pids are allocated across all kernels of one Go process, and a kernel registers its processes by
pid. A pid is released by the parent that reaps the process, by the parent's exit, or by the exit of
the process itself. `finish` has two steps, `close` and `finish` below: the first
closes the process's `done` channel, the second runs under the kernel's mutex.
-/

set_option autoImplicit false

namespace PgZero.Kernel

open Function Lib

/-- The pids of one host process. -/
def pidsPerHost : ℕ := 2 ^ 11

/-- The host pids that fit. -/
def hostPidRange : ℕ := 2 ^ 20

/-- The pids of the Go process with host pid `hostPid` are `pidBase hostPid + n`. -/
def pidBase (hostPid : ℕ) : ℕ := (hostPid % hostPidRange) * 2 ^ 11

/-- Where a process is. -/
inductive Phase
  /-- registered, its goroutine not started yet -/
  | created
  | running
  /-- between the two steps of `finish` -/
  | exiting
  | finished
  deriving DecidableEq, Repr

/-- What a process's goroutine is in the middle of. -/
inductive Task
  | none
  /-- `spawn`, with a pid allocated -/
  | allocated (pid : ℕ)
  /-- `spawn`, with the child registered -/
  | inserted (c : ℕ)
  /-- `waitpid`, with `c` taken from the children and not forgotten yet -/
  | reaping (c : ℕ)
  deriving DecidableEq, Repr

/-- A process, with what its kernel and its parent know of it. -/
structure Proc where
  kernel : ℕ
  pid : ℕ
  parent : Option ℕ
  phase : Phase
  parentGone : Bool
  reaped : Bool
  children : Table ℕ ℕ
  task : Task

/-- Kernels, processes and the goroutines that call `Start` are numbered; `starts t` is the kernel
and the pid of a `Start` between its two steps. -/
structure PidState where
  owners : ℕ → Option ℕ
  next : ℕ
  procs : ℕ → ℕ → Option ℕ
  info : ℕ → Proc
  nprocs : ℕ
  starts : ℕ → Option (ℕ × ℕ)

/-- The processes that have closed `done`. -/
def Proc.exited (x : Proc) : Bool := x.phase = .exiting || x.phase = .finished

namespace PidState

/-- No process yet. -/
def empty : PidState :=
  ⟨fun _ => none, 1, fun _ _ => none, fun _ => ⟨0, 0, none, .created, false, false, ∅, .none⟩, 0,
    fun _ => none⟩

/-- The loop of `allocPid`, with `i` turns left. -/
def allocFrom (owners : ℕ → Option ℕ) (base : ℕ) : ℕ → ℕ → Option ℕ × ℕ
  | 0, next => (none, next)
  | i + 1, next =>
    let next' := next % (pidsPerHost - 1) + 1
    if owners (base + next) = none then (some (base + next), next')
    else allocFrom owners base i next'

/-- `allocPid` for kernel `k`; no pid when all are in use. -/
def allocPid (s : PidState) (base k : ℕ) : PidState × Option ℕ :=
  match allocFrom s.owners base pidsPerHost s.next with
  | (some pid, next) =>
    ({ s with owners := update s.owners pid (some k), next := next }, some pid)
  | (none, next) => ({ s with next := next }, none)

/-- The process `p` changes. -/
def setInfo (s : PidState) (p : ℕ) (x : Proc) : PidState :=
  { s with info := update s.info p x }

/-- Its goroutine goes on. -/
def setTask (s : PidState) (p : ℕ) (task : Task) : PidState :=
  s.setInfo p { s.info p with task }

/-- Its phase changes. -/
def setPhase (s : PidState) (p : ℕ) (phase : Phase) : PidState :=
  s.setInfo p { s.info p with phase }

/-- Its children change. -/
def setChildren (s : PidState) (p : ℕ) (children : Table ℕ ℕ) : PidState :=
  s.setInfo p { s.info p with children }

/-- Its parent is gone. -/
def setGone (s : PidState) (p : ℕ) : PidState := s.setInfo p { s.info p with parentGone := true }

/-- It is reaped. -/
def setReaped (s : PidState) (p : ℕ) : PidState := s.setInfo p { s.info p with reaped := true }

/-- The second half of `Kernel.newProcess`: the new process has number `s.nprocs`. -/
def insert (s : PidState) (k pid : ℕ) (parent : Option ℕ) (phase : Phase) : PidState :=
  { s.setInfo s.nprocs ⟨k, pid, parent, phase, false, false, ∅, .none⟩ with
    procs := update s.procs k (update (s.procs k) pid (some s.nprocs))
    nprocs := s.nprocs + 1 }

/-- `forgetLocked`: the pid can be given again. -/
def forgetLocked (s : PidState) (k pid : ℕ) : PidState :=
  if (s.procs k pid).isSome then
    { s with
      procs := update s.procs k (update (s.procs k) pid none)
      owners := update s.owners pid none }
  else s

/-- One turn of the loop of `finish` over the children. -/
def orphanChild (k : ℕ) (s : PidState) (e : Σ _ : ℕ, ℕ) : PidState :=
  let s' := s.setGone e.2
  if (s'.info e.2).exited then s'.forgetLocked k e.1 else s'

/-- The loop of `finish` over all the children. -/
def orphanChildren (s : PidState) (p : ℕ) : PidState :=
  ((s.info p).children.entries.foldl (orphanChild (s.info p).kernel) s).setChildren p ∅

/-- The section of `finish` under the kernel's mutex. -/
def finishSection (s : PidState) (p : ℕ) : PidState :=
  let s' := (s.orphanChildren p).setPhase p .finished
  if (s'.info p).parent = none ∨ (s'.info p).parentGone then
    s'.forgetLocked (s'.info p).kernel (s'.info p).pid
  else s'

end PidState

/-- The steps of the goroutines. -/
inductive PidAct
  | startAlloc (t k : ℕ)
  | startInsert (t : ℕ)
  | spawnAlloc (p : ℕ)
  | spawnInsert (p : ℕ)
  /-- put the child among the children and start its goroutine -/
  | spawnRun (p : ℕ)
  /-- `waitpid` takes an exited child -/
  | waitReap (p pid : ℕ)
  | waitForget (p : ℕ)
  | close (p : ℕ)
  | finish (p : ℕ)
  deriving DecidableEq, Repr

/-- A process whose goroutine runs guest code and makes calls. -/
def PidState.atWork (s : PidState) (p : ℕ) : Bool :=
  p < s.nprocs && (s.info p).phase = .running

/-- One step of a goroutine, under the locks it takes. -/
def pidStep (base : ℕ) (s : PidState) : PidAct → Option PidState
  | .startAlloc t k =>
    if s.starts t = none then
      let r := s.allocPid base k
      some { r.1 with starts := update s.starts t (r.2.map fun pid => (k, pid)) }
    else none
  | .startInsert t =>
    match s.starts t with
    | some (k, pid) =>
      some { s.insert k pid none .running with starts := update s.starts t none }
    | none => none
  | .spawnAlloc p =>
    if s.atWork p ∧ (s.info p).task = .none then
      let r := s.allocPid base (s.info p).kernel
      match r.2 with
      | some pid => some (r.1.setTask p (.allocated pid))
      | none => some r.1
    else none
  | .spawnInsert p =>
    match (s.info p).task with
    | .allocated pid =>
      some (((s.setTask p .none).insert (s.info p).kernel pid (some p) .created).setTask p
        (.inserted s.nprocs))
    | _ => none
  | .spawnRun p =>
    match (s.info p).task with
    | .inserted c =>
      let s' := (s.setTask p .none).setPhase c .running
      some (s'.setChildren p ((s'.info p).children.insert (s'.info c).pid c))
    | _ => none
  | .waitReap p pid =>
    if s.atWork p ∧ (s.info p).task = .none then
      match (s.info p).children.lookup pid with
      | some c =>
        if (s.info c).exited then
          some (((s.setChildren p ((s.info p).children.erase pid)).setReaped c).setTask p
            (.reaping c))
        else none
      | none => none
    else none
  | .waitForget p =>
    match (s.info p).task with
    | .reaping c => some ((s.setTask p .none).forgetLocked (s.info p).kernel (s.info c).pid)
    | _ => none
  | .close p =>
    if s.atWork p ∧ (s.info p).task = .none then some (s.setPhase p .exiting) else none
  | .finish p =>
    if p < s.nprocs ∧ (s.info p).phase = .exiting then some (s.finishSection p) else none

/-- The runs of all kernels of a Go process. -/
def pidSystem (hostPid : ℕ) : System PidState PidAct Unit where
  init s := s = .empty
  step s a := (pidStep (pidBase hostPid) s a).map fun s' => (s', ())

/-! ### The steps -/

/-- What a step does. -/
inductive PidCase (base : ℕ) (s : PidState) : PidAct → PidState → Prop
  | startAlloc (t k : ℕ) (h : s.starts t = none) : PidCase base s (.startAlloc t k)
      { (s.allocPid base k).1 with
        starts := update s.starts t ((s.allocPid base k).2.map fun pid => (k, pid)) }
  | startInsert (t k pid : ℕ) (h : s.starts t = some (k, pid)) : PidCase base s (.startInsert t)
      { s.insert k pid none .running with starts := update s.starts t none }
  | spawnAlloc (p pid : ℕ) (hw : s.atWork p) (ht : (s.info p).task = .none)
      (hr : (s.allocPid base (s.info p).kernel).2 = some pid) : PidCase base s (.spawnAlloc p)
      ((s.allocPid base (s.info p).kernel).1.setTask p (.allocated pid))
  | spawnFull (p : ℕ) (hw : s.atWork p) (ht : (s.info p).task = .none)
      (hr : (s.allocPid base (s.info p).kernel).2 = none) : PidCase base s (.spawnAlloc p)
      (s.allocPid base (s.info p).kernel).1
  | spawnInsert (p pid : ℕ) (ht : (s.info p).task = .allocated pid) :
      PidCase base s (.spawnInsert p)
        (((s.setTask p .none).insert (s.info p).kernel pid (some p) .created).setTask p
          (.inserted s.nprocs))
  | spawnRun (p c : ℕ) (ht : (s.info p).task = .inserted c) : PidCase base s (.spawnRun p)
      (((s.setTask p .none).setPhase c .running).setChildren p
        ((((s.setTask p .none).setPhase c .running).info p).children.insert
          (((s.setTask p .none).setPhase c .running).info c).pid c))
  | waitReap (p pid c : ℕ) (hw : s.atWork p) (ht : (s.info p).task = .none)
      (hl : (s.info p).children.lookup pid = some c) (hx : (s.info c).exited) :
      PidCase base s (.waitReap p pid)
        (((s.setChildren p ((s.info p).children.erase pid)).setReaped c).setTask p (.reaping c))
  | waitForget (p c : ℕ) (ht : (s.info p).task = .reaping c) : PidCase base s (.waitForget p)
      ((s.setTask p .none).forgetLocked (s.info p).kernel (s.info c).pid)
  | close (p : ℕ) (hw : s.atWork p) (ht : (s.info p).task = .none) :
      PidCase base s (.close p) (s.setPhase p .exiting)
  | finish (p : ℕ) (hp : p < s.nprocs) (hx : (s.info p).phase = .exiting) :
      PidCase base s (.finish p) (s.finishSection p)

theorem pidCase_of_step {base : ℕ} {s s' : PidState} {a : PidAct}
    (h : pidStep base s a = some s') : PidCase base s a s' := by
  cases a with
  | startAlloc t k =>
    obtain ⟨ht, he⟩ := Option.ite_none_right_eq_some.mp h
    cases he
    exact .startAlloc t k ht
  | startInsert t =>
    simp only [pidStep] at h
    split at h
    · rename_i k pid ht
      cases h
      exact .startInsert t k pid ht
    · cases h
  | spawnAlloc p =>
    obtain ⟨⟨hw, ht⟩, he⟩ := Option.ite_none_right_eq_some.mp h
    split at he
    · rename_i pid hr
      cases he
      exact .spawnAlloc p pid hw ht hr
    · rename_i hr
      cases he
      exact .spawnFull p hw ht hr
  | spawnInsert p =>
    simp only [pidStep] at h
    split at h
    · rename_i pid ht
      cases h
      exact .spawnInsert p pid ht
    · cases h
  | spawnRun p =>
    simp only [pidStep] at h
    split at h
    · rename_i c ht
      cases h
      exact .spawnRun p c ht
    · cases h
  | waitReap p pid =>
    obtain ⟨⟨hw, ht⟩, he⟩ := Option.ite_none_right_eq_some.mp h
    split at he
    · rename_i c hl
      obtain ⟨hx, he⟩ := Option.ite_none_right_eq_some.mp he
      cases he
      exact .waitReap p pid c hw ht hl hx
    · cases he
  | waitForget p =>
    simp only [pidStep] at h
    split at h
    · rename_i c ht
      cases h
      exact .waitForget p c ht
    · cases h
  | close p =>
    obtain ⟨⟨hw, ht⟩, he⟩ := Option.ite_none_right_eq_some.mp h
    cases he
    exact .close p hw ht
  | finish p =>
    obtain ⟨⟨hp, hx⟩, he⟩ := Option.ite_none_right_eq_some.mp h
    cases he
    exact .finish p hp hx

/-! ### The condition -/

/-- A process that is running, or has exited and is neither reaped nor orphaned. -/
def PidState.Live (s : PidState) (c : ℕ) : Prop :=
  c < s.nprocs ∧ ((s.info c).exited = false ∨
    ((s.info c).reaped = false ∧ (s.info c).parent ≠ none ∧ (s.info c).parentGone = false))

/-- What a step registers: the kernel and the pid. -/
def PidState.registers (s : PidState) : PidAct → Option (ℕ × ℕ)
  | .startInsert t => s.starts t
  | .spawnInsert p =>
    match (s.info p).task with
    | .allocated pid => some ((s.info p).kernel, pid)
    | _ => none
  | _ => none

/-- Process `q` of kernel `k` and pid `pid` has closed `done`, its parent is gone, and its own
section under the mutex is still to come. -/
def PidState.Stale (s : PidState) (k pid q : ℕ) : Prop :=
  (s.info q).kernel = k ∧ (s.info q).pid = pid ∧ (s.info q).phase = .exiting ∧
    (s.info q).parentGone = true

/-- The step registers no process under the pid of such a process. -/
def NoReuse (s : PidState) (a : PidAct) : Prop :=
  ∀ x ∈ s.registers a, ∀ q < s.nprocs, ¬ s.Stale x.1 x.2 q

instance (s : PidState) (k pid q : ℕ) : Decidable (s.Stale k pid q) :=
  inferInstanceAs (Decidable (_ ∧ _ ∧ _ ∧ _))

instance (s : PidState) (a : PidAct) : Decidable (NoReuse s a) :=
  inferInstanceAs (Decidable (∀ x ∈ s.registers a, ∀ q < s.nprocs, ¬ s.Stale x.1 x.2 q))

end PgZero.Kernel
