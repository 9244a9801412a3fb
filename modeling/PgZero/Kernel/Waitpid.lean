import PgZero.Abi
import PgZero.Kernel.Notify
import PgZero.Kernel.Family

/-!
# Waiting for children

`waitpid` takes the current channel of the parent's notifier, looks through the children one by one
under the parent's mutex, and parks on the channel if it finds a match but none that has exited. An
exit comes in steps: it stores the status and closes `done`, runs its section under the kernel's
mutex, and then notifies the parent.

* **`reapInv_step`**: a step that meets `ReapOk` keeps it.
-/

set_option autoImplicit false

namespace PgZero.Kernel

open Function Lib PidState Option

/-- The option that makes `waitpid` return at once. -/
def WNOHANG : BitVec 32 := 1

/-- A call of `waitpid`, with the children its caller had when the call began. -/
structure WaitCall where
  pid : ℤ
  nohang : Bool
  before : Table ℕ ℕ

/-- The pid of a child is one the call waits for. -/
def WaitCall.takes (w : WaitCall) (cpid : ℕ) : Bool := w.pid = -1 || (cpid : ℤ) = w.pid

/-- Where a call of `waitpid` is. -/
inductive WaitPc
  | idle
  /-- at the head of the loop -/
  | head (w : WaitCall)
  /-- with channel `ch` -/
  | taken (w : WaitCall) (ch : ℕ)
  /-- with `childMu`, and the entries `todo` still to be looked at -/
  | scanning (w : WaitCall) (ch : ℕ) (todo : List (Σ _ : ℕ, ℕ)) (found : Bool)
  | parked (w : WaitCall) (ch : ℕ)
  /-- with the entry `e` deleted from the children -/
  | forgetting (w : WaitCall) (e : Σ _ : ℕ, ℕ)

variable {p : ℕ} {pc : WaitPc}

/-- The process is in no call. -/
def WaitPc.isIdle : WaitPc → Bool
  | .idle => true
  | _ => false

/-- The process table, with each process's status, notifier `childEvts` and call of `waitpid`. A
process with `notifying` has left its section of `finish` and is about to notify its parent, and
`notified` records that it has. -/
structure ReapState where
  pids : PidState
  status : ℕ → ℤ
  evts : ℕ → Notifier
  pc : ℕ → WaitPc
  notifying : ℕ → Bool
  notified : ℕ → Bool

/-- The steps of the processes. -/
inductive ReapAct
  /-- a step of `Start` or `spawn` -/
  | pid (a : PidAct)
  /-- `finish` up to the closing of `done` -/
  | exit (p : ℕ) (status : ℤ)
  | finish (p : ℕ)
  | notify (p : ℕ)
  | waitpid (p : ℕ) (pid : ℤ) (options : BitVec 32)
  | take (p : ℕ)
  /-- lock `childMu` and find the children in some order -/
  | lock (p : ℕ) (order : List (Σ _ : ℕ, ℕ))
  | scan (p : ℕ)
  | forget (p : ℕ)
  | wake (p : ℕ)
  /-- `block` ends because of a signal or because the process is killed -/
  | interrupt (p : ℕ)

/-- What a call returns: a child with its pid and status, nothing, or an error. -/
inductive WaitRet
  | child (c cpid : ℕ) (status : ℤ)
  | none
  | err (e : Errno)
  deriving DecidableEq, Repr

namespace ReapState

/-- No process yet. -/
def empty : ReapState :=
  ⟨.empty, fun _ => 0, fun _ => .zero, fun _ => .idle, fun _ => false, fun _ => false⟩

/-- The call of `p` goes on. -/
def setPc (s : ReapState) (p : ℕ) (pc : WaitPc) : ReapState :=
  { s with pc := update s.pc p pc }

/-- The children of `p`. -/
def children (s : ReapState) (p : ℕ) : Table ℕ ℕ := (s.pids.info p).children

/-- The steps of `Start`, and of `spawn` by a process that is in no call of `waitpid`. -/
def launches (s : ReapState) : PidAct → Bool
  | .startAlloc _ _ | .startInsert _ => true
  | .spawnAlloc p | .spawnInsert p | .spawnRun p => (s.pc p).isIdle
  | .waitReap _ _ | .waitForget _ | .close _ | .finish _ => false

/-- The process has nobody left to notify. -/
def orphan (s : PidState) (p : ℕ) : Bool := (s.info p).parent = none || (s.info p).parentGone

end ReapState

/-- One step of a process. -/
def reapStep (base : ℕ) (s : ReapState) : ReapAct → Option (ReapState × Option WaitRet)
  | .pid a =>
    if s.launches a then (pidStep base s.pids a).map fun pids => ({ s with pids }, none) else none
  | .exit p status =>
    if (s.pc p).isIdle then
      (pidStep base s.pids (.close p)).map fun pids =>
        ({ s with pids, status := update s.status p status }, none)
    else none
  | .finish p =>
    (pidStep base s.pids (.finish p)).map fun pids =>
      ({ s with pids, notifying := update s.notifying p (!ReapState.orphan pids p) }, none)
  | .notify c =>
    match s.notifying c, (s.pids.info c).parent with
    | true, some p =>
      some ({ s with
        evts := update s.evts p (s.evts p).notify
        notifying := update s.notifying c false
        notified := update s.notified c true }, none)
    | _, _ => none
  | .waitpid p pid options =>
    if (s.pc p).isIdle ∧ s.pids.atWork p ∧ (s.pids.info p).task = .none then
      some (s.setPc p (.head ⟨pid, options &&& WNOHANG ≠ 0, s.children p⟩), none)
    else none
  | .take p =>
    match s.pc p with
    | .head w =>
      some ({ s.setPc p (.taken w (s.evts p).wait.2) with
        evts := update s.evts p (s.evts p).wait.1 }, none)
    | _ => none
  | .lock p order =>
    match s.pc p with
    | .taken w ch =>
      if order.Perm (s.children p).entries then some (s.setPc p (.scanning w ch order false), none)
      else none
    | _ => none
  | .scan p =>
    match s.pc p with
    | .scanning w ch (e :: todo) found =>
      if !w.takes e.1 then some (s.setPc p (.scanning w ch todo found), none)
      else if (s.pids.info e.2).exited then
        (pidStep base s.pids (.waitReap p e.1)).map fun pids =>
          ({ s.setPc p (.forgetting w e) with pids }, none)
      else some (s.setPc p (.scanning w ch todo true), none)
    | .scanning w ch [] found =>
      if !found then some (s.setPc p .idle, some (.err .ECHILD))
      else if w.nohang then some (s.setPc p .idle, some .none)
      else some (s.setPc p (.parked w ch), none)
    | _ => none
  | .forget p =>
    match s.pc p with
    | .forgetting _ e =>
      (pidStep base s.pids (.waitForget p)).map fun pids =>
        ({ s.setPc p .idle with pids }, some (.child e.2 e.1 (s.status e.2)))
    | _ => none
  | .wake p =>
    match s.pc p with
    | .parked w ch => if (s.evts p).closed ch then some (s.setPc p (.head w), none) else none
    | _ => none
  | .interrupt p =>
    match s.pc p with
    | .parked _ _ => some (s.setPc p .idle, some (.err .EINTR))
    | _ => none

/-- Processes that wait for their children. -/
def reapSystem (hostPid : ℕ) : System ReapState ReapAct (Option WaitRet) where
  init s := s = .empty
  step := reapStep (pidBase hostPid)

/-- The step reuses no pid of a stale orphan. -/
def ReapOk (s : ReapState) : ReapAct → Prop
  | .pid a => NoReuse s.pids a
  | _ => True

instance (s : ReapState) : (a : ReapAct) → Decidable (ReapOk s a)
  | .pid a => inferInstanceAs (Decidable (NoReuse s.pids a))
  | .exit _ _ | .finish _ | .notify _ | .waitpid _ _ _ | .take _ | .lock _ _ | .scan _ | .forget _
  | .wake _ | .interrupt _ => inferInstanceAs (Decidable True)

/-! ### The calls in a state -/

namespace ReapState

/-- The process is in a call, and its children are still those it had when the call began. -/
structure Calling (s : ReapState) (p : ℕ) (w : WaitCall) : Prop where
  work : s.pids.atWork p
  task : (s.pids.info p).task = .none
  before : w.before = s.children p

/-- A scan with `todo` left: it has looked at all other matching children, and it will hear of those
among them that exit. -/
structure Scan (s : ReapState) (p : ℕ) (w : WaitCall) (ch : ℕ) (todo : List (Σ _ : ℕ, ℕ))
    (found : Bool) : Prop where
  sub : ∀ e ∈ todo, e ∈ (s.children p).entries
  seen : ∀ e ∈ (s.children p).entries, w.takes e.1 → e ∈ todo ∨ found = true
  found : found = true → ∃ e ∈ (s.children p).entries, w.takes e.1
  wakes : (s.evts p).Waits ch
    (∀ e ∈ (s.children p).entries, w.takes e.1 → e ∈ todo ∨ s.notified e.2 = false) False

/-- What a call of `waitpid` knows, by where it is. -/
def CallOk (s : ReapState) (p : ℕ) : WaitPc → Prop
  | .idle => True
  | .head w => s.Calling p w
  | .taken w ch => s.Calling p w ∧ ch < (s.evts p).made
  | .scanning w ch todo found => s.Calling p w ∧ s.Scan p w ch todo found
  | .parked w ch => s.Calling p w ∧ s.Scan p w ch [] true
  | .forgetting w e => (s.pids.info p).task = .reaping e.2 ∧ (s.pids.info e.2).pid = e.1 ∧
      w.takes e.1

end ReapState

/-- The families, what each call knows, and who has been told of an exit. -/
structure ReapInv (s : ReapState) : Prop where
  pids : PidInv s.pids
  family : FamilyInv s.pids
  call : ∀ p, s.CallOk p (s.pc p)
  told : ∀ c, s.notifying c ∨ s.notified c → c < s.pids.nprocs ∧ (s.pids.info c).exited

variable {s s' : ReapState}

theorem ReapState.CallOk.running (h : s.CallOk p pc) (hinv : PidInv s.pids)
    (hpc : pc ≠ .idle) : p < s.pids.nprocs ∧ (s.pids.info p).phase = .running := by
  cases pc with
  | idle => exact absurd rfl hpc
  | head w => exact atWork_iff.mp h.work
  | taken w ch | scanning w ch todo found | parked w ch => exact atWork_iff.mp h.1.work
  | forgetting w e => exact hinv.busy p (by simp [h.1])

/-- What a call looks at is the same in both states, up to notifications still to come. -/
structure SameCall (s s' : ReapState) (p : ℕ) : Prop where
  nprocs : s.pids.nprocs ≤ s'.pids.nprocs
  other : p < s.pids.nprocs → s.pids.Bystander s'.pids p
  pid : ∀ c < s.pids.nprocs, (s'.pids.info c).pid = (s.pids.info c).pid
  evts : s'.evts p = s.evts p
  notified : ∀ e ∈ (s.children p).entries, s.notified e.2 = false → s'.notified e.2 = false

theorem SameCall.of_pids (hp : s'.pids = s.pids) (hev : s'.evts p = s.evts p)
    (hnot : ∀ e ∈ (s.children p).entries, s.notified e.2 = false → s'.notified e.2 = false) :
    SameCall s s' p := by
  refine ⟨?_, ?_, ?_, hev, hnot⟩
  · rw [hp]
  · intro _
    rw [hp]
    exact .of_eq rfl
  · intro c _
    rw [hp]

theorem SameCall.calling {w : WaitCall} (h : SameCall s s' p) (hinv : PidInv s.pids)
    (hc : s.Calling p w) : s'.Calling p w := by
  obtain ⟨hlt, hrun⟩ := atWork_iff.mp hc.work
  have hb := h.other hlt
  refine ⟨atWork_iff.mpr ⟨hlt.trans_le h.nprocs, ?_⟩, hb.task.trans hc.task, ?_⟩
  · refine (hb.phase ?_).trans hrun
    intro q hq
    have hcr := (hinv.inserted q p hq).phase
    rw [hrun] at hcr
    cases hcr
  · exact hc.before.trans hb.children.symm

theorem SameCall.scan {ch : ℕ} {w : WaitCall} {todo : List (Σ _ : ℕ, ℕ)} {found : Bool}
    (h : SameCall s s' p) (hlt : p < s.pids.nprocs) (hs : s.Scan p w ch todo found) :
    s'.Scan p w ch todo found := by
  have hch : s'.children p = s.children p := (h.other hlt).children
  refine ⟨?_, ?_, ?_, ?_⟩
  · rw [hch]
    exact hs.sub
  · rw [hch]
    exact hs.seen
  · rw [hch]
    exact hs.found
  · rw [hch, h.evts]
    apply hs.wakes.mono
    · intro hb e he ht
      exact (hb e he ht).imp_right (h.notified e he)
    · exact id

theorem SameCall.callOk (h : SameCall s s' p) (hinv : PidInv s.pids)
    (hc : s.CallOk p pc) : s'.CallOk p pc := by
  cases pc with
  | idle => trivial
  | head w => exact h.calling hinv hc
  | taken w ch =>
    refine ⟨h.calling hinv hc.1, ?_⟩
    rw [h.evts]
    exact hc.2
  | scanning w ch todo found =>
    exact ⟨h.calling hinv hc.1, h.scan (hc.running hinv (by simp)).1 hc.2⟩
  | parked w ch => exact ⟨h.calling hinv hc.1, h.scan (hc.running hinv (by simp)).1 hc.2⟩
  | forgetting w e =>
    obtain ⟨h1, h2, h3⟩ := hc
    have hlt := (hinv.busy p (by simp [h1])).1
    refine ⟨(h.other hlt).task.trans h1, ?_, h3⟩
    rw [h.pid e.2 (hinv.reaping p e.2 h1).lt]
    exact h2

/-! ### Steps -/

/-- What a step of the scan does. -/
inductive ScanStep (base : ℕ) (s : ReapState) (p : ℕ) : ReapState → Option WaitRet → Prop
  | skip {w : WaitCall} {ch : ℕ} {e : Σ _ : ℕ, ℕ} {todo : List (Σ _ : ℕ, ℕ)} {found : Bool}
      (hpc : s.pc p = .scanning w ch (e :: todo) found) (ht : w.takes e.1 = false) :
      ScanStep base s p (s.setPc p (.scanning w ch todo found)) none
  | reap {w : WaitCall} {ch : ℕ} {e : Σ _ : ℕ, ℕ} {todo : List (Σ _ : ℕ, ℕ)} {found : Bool}
      {pids : PidState} (hpc : s.pc p = .scanning w ch (e :: todo) found)
      (ht : w.takes e.1 = true) (hp : pidStep base s.pids (.waitReap p e.1) = some pids) :
      ScanStep base s p { s.setPc p (.forgetting w e) with pids } none
  | pass {w : WaitCall} {ch : ℕ} {e : Σ _ : ℕ, ℕ} {todo : List (Σ _ : ℕ, ℕ)} {found : Bool}
      (hpc : s.pc p = .scanning w ch (e :: todo) found) (ht : w.takes e.1 = true)
      (hx : (s.pids.info e.2).exited = false) :
      ScanStep base s p (s.setPc p (.scanning w ch todo true)) none
  | echild {w : WaitCall} {ch : ℕ} (hpc : s.pc p = .scanning w ch [] false) :
      ScanStep base s p (s.setPc p .idle) (some (.err .ECHILD))
  | nohang {w : WaitCall} {ch : ℕ} (hpc : s.pc p = .scanning w ch [] true) :
      ScanStep base s p (s.setPc p .idle) (some .none)
  | park {w : WaitCall} {ch : ℕ} (hpc : s.pc p = .scanning w ch [] true) :
      ScanStep base s p (s.setPc p (.parked w ch)) none

theorem scanStep_of_step {base : ℕ} {o : Option WaitRet}
    (hs : reapStep base s (.scan p) = some (s', o)) : ScanStep base s p s' o := by
  simp only [reapStep] at hs
  split at hs
  · rename_i w ch e todo found hpc
    by_cases ht : w.takes e.1
    · rw [if_neg (by simpa using ht)] at hs
      by_cases hx : (s.pids.info e.2).exited
      · rw [if_pos hx] at hs
        obtain ⟨pids, hp, he⟩ := map_eq_some_iff.mp hs
        cases he
        exact .reap hpc ht hp
      · rw [if_neg hx] at hs
        cases hs
        exact .pass hpc ht (Bool.not_eq_true _ ▸ hx)
    · rw [if_pos (by simpa using ht)] at hs
      cases hs
      exact .skip hpc (Bool.not_eq_true _ ▸ ht)
  · rename_i w ch found hpc
    cases found with
    | false =>
      cases hs
      exact .echild hpc
    | true =>
      rw [if_neg (by simp)] at hs
      split at hs
      · cases hs
        exact .nohang hpc
      · cases hs
        exact .park hpc
  · cases hs

/-- A step on the process table. Only the call of the process that takes it may change. -/
theorem ReapInv.table (h : ReapInv s) {base : ℕ} {a : PidAct} (hr : NoReuse s.pids a)
    (hs : pidStep base s.pids a = some s'.pids)
    (hpc : ∀ p, a.actor ≠ some p → s'.pc p = s.pc p)
    (hact : ∀ p, a.actor = some p → s'.CallOk p (s'.pc p)) (hev : s'.evts = s.evts)
    (hnot : s'.notified = s.notified)
    (htold : ∀ c, s'.notifying c → s.notifying c ∨ c < s.pids.nprocs ∧ (s'.pids.info c).exited) :
    ReapInv s' := by
  have hlater := (pidStep_later h.pids hs).1
  refine ⟨pidInv_step h.pids hr hs, familyInv_step h.family h.pids hs, ?_, ?_⟩
  · intro p
    by_cases ha : a.actor = some p
    · exact hact p ha
    · rw [hpc p ha]
      refine SameCall.callOk ⟨hlater.nprocs, ?_, ?_, congrFun hev p, ?_⟩ h.pids (h.call p)
      · intro hlt
        exact pidStep_other hs (.inl (ne_of_lt hlt)) ha
      · intro c hc
        exact (hlater.proc c hc).pid
      · intro e _ he
        rw [hnot]
        exact he
  · intro c hc
    have hold : s.notifying c ∨ s.notified c → c < s'.pids.nprocs ∧ (s'.pids.info c).exited := by
      intro hc'
      obtain ⟨hlt, hx⟩ := h.told c hc'
      exact ⟨hlt.trans_le hlater.nprocs, (hlater.proc c hlt).exited hx⟩
    rcases hc with hc | hc
    · rcases htold c hc with hc | ⟨hlt, hx⟩
      · exact hold (.inl hc)
      · exact ⟨hlt.trans_le hlater.nprocs, hx⟩
    · rw [hnot] at hc
      exact hold (.inr hc)

theorem ReapInv.setPc (h : ReapInv s) {p : ℕ} {pc : WaitPc} (hp : s.CallOk p pc) :
    ReapInv (s.setPc p pc) := by
  refine ⟨h.pids, h.family, ?_, h.told⟩
  intro q
  have hsame : SameCall s (s.setPc p pc) q := .of_pids rfl rfl fun _ _ => id
  apply hsame.callOk h.pids
  show s.CallOk q (update s.pc p pc q)
  by_cases hq : q = p
  · subst hq
    rw [update_self]
    exact hp
  · rw [update_of_ne hq]
    exact h.call q

theorem ReapInv.take (h : ReapInv s) {p : ℕ} {w : WaitCall} (hpc : s.pc p = .head w) :
    ReapInv { s.setPc p (.taken w (s.evts p).wait.2) with
      evts := update s.evts p (s.evts p).wait.1 } := by
  refine ⟨h.pids, h.family, ?_, h.told⟩
  intro q
  dsimp only [ReapState.setPc]
  have hq := h.call q
  by_cases hqp : q = p
  · subst hqp
    rw [hpc] at hq
    rw [update_self]
    refine ⟨⟨hq.work, hq.task, hq.before⟩, ?_⟩
    dsimp only
    rw [update_self]
    exact (s.evts q).wait_lt
  · rw [update_of_ne hqp]
    refine SameCall.callOk (s := s) (.of_pids rfl ?_ fun _ _ => id) h.pids hq
    exact update_of_ne hqp ..

theorem ReapInv.lock (h : ReapInv s) {p ch : ℕ} {w : WaitCall} {order : List (Σ _ : ℕ, ℕ)}
    (hpc : s.pc p = .taken w ch) (ho : order.Perm (s.children p).entries) :
    ReapInv (s.setPc p (.scanning w ch order false)) := by
  have hp := h.call p
  rw [hpc] at hp
  apply h.setPc
  refine ⟨hp.1, fun e => ho.mem_iff.mp, ?_, ?_, ?_⟩
  · intro e he _
    exact .inl (ho.mem_iff.mpr he)
  · intro hf
    cases hf
  · apply Notifier.Waits.of_blocked hp.2
    intro e he _
    exact .inl (ho.mem_iff.mpr he)

theorem ReapInv.skip (h : ReapInv s) {p ch : ℕ} {w : WaitCall} {e : Σ _ : ℕ, ℕ}
    {todo : List (Σ _ : ℕ, ℕ)} {found : Bool} (hpc : s.pc p = .scanning w ch (e :: todo) found)
    (ht : w.takes e.1 = false) : ReapInv (s.setPc p (.scanning w ch todo found)) := by
  have hp := h.call p
  rw [hpc] at hp
  obtain ⟨hcall, hsub, hseen, hfound, hwakes⟩ := hp
  have hdrop : ∀ d, w.takes d.1 = true → d ∈ e :: todo → d ∈ todo := by
    intro d hd hmem
    rcases List.mem_cons.mp hmem with rfl | hmem
    · rw [ht] at hd
      cases hd
    · exact hmem
  apply h.setPc
  refine ⟨hcall, fun d hd => hsub d (List.mem_cons_of_mem e hd), ?_, hfound, ?_⟩
  · intro d hd htd
    exact (hseen d hd htd).imp_left (hdrop d htd)
  · apply hwakes.mono
    · intro hb d hd htd
      exact (hb d hd htd).imp_left (hdrop d htd)
    · exact id

/-- A matching child that has not exited will close the channel. -/
theorem ReapInv.pass (h : ReapInv s) {p ch : ℕ} {w : WaitCall} {e : Σ _ : ℕ, ℕ}
    {todo : List (Σ _ : ℕ, ℕ)} {found : Bool} (hpc : s.pc p = .scanning w ch (e :: todo) found)
    (ht : w.takes e.1 = true) (hx : (s.pids.info e.2).exited = false) :
    ReapInv (s.setPc p (.scanning w ch todo true)) := by
  have hp := h.call p
  rw [hpc] at hp
  obtain ⟨hcall, hsub, hseen, hfound, hwakes⟩ := hp
  have hnot : s.notified e.2 = false := by
    by_contra hn
    have hx' := (h.told e.2 (.inr (by simpa using hn))).2
    rw [hx] at hx'
    cases hx'
  apply h.setPc
  refine ⟨hcall, fun d hd => hsub d (List.mem_cons_of_mem e hd), fun _ _ _ => .inr rfl, ?_, ?_⟩
  · intro _
    exact ⟨e, hsub e List.mem_cons_self, ht⟩
  · apply hwakes.mono
    · intro hb d hd htd
      rcases hb d hd htd with hmem | hn
      · rcases List.mem_cons.mp hmem with rfl | hmem
        · exact .inr hnot
        · exact .inl hmem
      · exact .inr hn
    · exact id

theorem ReapState.CallOk.notify (h : s.CallOk p pc) (hp : s'.pids = s.pids)
    (hev : s'.evts p = (s.evts p).notify) : s'.CallOk p pc := by
  have hch : s'.children p = s.children p := congrArg (fun x => (x.info p).children) hp
  have hcall : ∀ w, s.Calling p w → s'.Calling p w := by
    rintro w ⟨h1, h2, h3⟩
    refine ⟨?_, ?_, h3.trans hch.symm⟩
    · rw [hp]
      exact h1
    · rw [hp]
      exact h2
  have hscan : ∀ w ch todo found, s.Scan p w ch todo found → s'.Scan p w ch todo found := by
    rintro w ch todo found ⟨h1, h2, h3, h4⟩
    rw [← hch] at h1 h2 h3
    refine ⟨h1, h2, h3, ?_⟩
    rw [hev]
    exact h4.notify
  cases pc with
  | idle => trivial
  | head w => exact hcall w h
  | taken w ch =>
    refine ⟨hcall w h.1, ?_⟩
    rw [hev]
    exact h.2
  | scanning w ch todo found => exact ⟨hcall w h.1, hscan w ch todo found h.2⟩
  | parked w ch => exact ⟨hcall w h.1, hscan w ch [] true h.2⟩
  | forgetting w e =>
    show (s'.pids.info p).task = _ ∧ _ ∧ _
    rw [hp]
    exact h

/-- A notification wakes the parent, and nobody else has the child in a table. -/
theorem ReapInv.notify (h : ReapInv s) {c p : ℕ} (hn : s.notifying c = true)
    (hpar : (s.pids.info c).parent = some p) :
    ReapInv { s with
      evts := update s.evts p (s.evts p).notify
      notifying := update s.notifying c false
      notified := update s.notified c true } := by
  refine ⟨h.pids, h.family, ?_, ?_⟩
  · intro q
    have hq := h.call q
    dsimp only
    by_cases hqp : q = p
    · subst hqp
      exact hq.notify rfl (update_self ..)
    · refine SameCall.callOk (s := s) (.of_pids rfl (update_of_ne hqp ..) ?_) h.pids hq
      intro e he hne
      have hch := (h.pids.child q e.1 e.2 (Table.lookup_eq_some.mpr he)).parent
      have hec : e.2 ≠ c := by
        intro hec
        rw [hec, hpar] at hch
        exact hqp (Option.some.inj hch).symm
      dsimp only
      rw [update_of_ne hec]
      exact hne
  · intro d hd
    by_cases hdc : d = c
    · subst hdc
      exact h.told d (.inl hn)
    · dsimp only at hd
      rw [update_of_ne hdc, update_of_ne hdc] at hd
      exact h.told d hd

theorem noReuse_of_registers {s : PidState} {a : PidAct} (h : s.registers a = none) :
    NoReuse s a := by
  intro x hx
  rw [h] at hx
  cases hx

theorem ReapState.CallOk.idle_of_exiting (h : s.CallOk p pc)
    (hinv : PidInv s.pids) (hx : (s.pids.info p).phase = .exiting) : pc = .idle := by
  by_contra hpc
  have hrun := (h.running hinv hpc).2
  rw [hx] at hrun
  cases hrun

theorem WaitPc.eq_idle (h : pc.isIdle = true) : pc = .idle := by
  cases pc with
  | idle => rfl
  | head w => cases h
  | taken w ch => cases h
  | scanning w ch todo found => cases h
  | parked w ch => cases h
  | forgetting w e => cases h

theorem launches_idle {a : PidAct} (h : s.launches a = true) {p : ℕ} (ha : a.actor = some p) :
    s.pc p = .idle := by
  cases a with
  | startAlloc t k => cases ha
  | startInsert t => cases ha
  | spawnAlloc q | spawnInsert q | spawnRun q => cases ha; exact WaitPc.eq_idle h
  | waitReap q pid => cases h
  | waitForget q => cases h
  | close q => cases h
  | finish q => cases h

theorem ReapInv.launch (h : ReapInv s) {base : ℕ} {a : PidAct} {pids : PidState}
    (hl : s.launches a = true) (hr : NoReuse s.pids a) (hs : pidStep base s.pids a = some pids) :
    ReapInv { s with pids } := by
  refine h.table hr hs (fun _ _ => rfl) ?_ rfl rfl (fun _ => .inl)
  intro p ha
  show ReapState.CallOk _ p (s.pc p)
  rw [launches_idle hl ha]
  trivial

theorem ReapInv.exit (h : ReapInv s) {base p : ℕ} {status : ℤ} {pids : PidState}
    (hpc : (s.pc p).isIdle = true) (hs : pidStep base s.pids (.close p) = some pids) :
    ReapInv { s with pids, status := update s.status p status } := by
  refine h.table (noReuse_of_registers rfl) hs (fun _ _ => rfl) ?_ rfl rfl (fun _ => .inl)
  intro q hq
  cases hq
  show ReapState.CallOk _ p (s.pc p)
  rw [WaitPc.eq_idle hpc]
  trivial

theorem ReapInv.finish (h : ReapInv s) {base p : ℕ} {pids : PidState} (b : Bool)
    (hs : pidStep base s.pids (.finish p) = some pids) :
    ReapInv { s with pids, notifying := update s.notifying p b } := by
  obtain ⟨hlt, hx⟩ := (ite_none_right_eq_some.mp hs).1
  refine h.table (noReuse_of_registers rfl) hs (fun _ _ => rfl) ?_ rfl rfl ?_
  · intro q hq
    cases hq
    show ReapState.CallOk _ p (s.pc p)
    rw [(h.call p).idle_of_exiting h.pids hx]
    trivial
  · intro c hc
    by_cases hcp : c = p
    · subst hcp
      have hx' : (s.pids.info c).exited := by simp [Proc.exited, hx]
      exact .inr ⟨hlt, ((pidStep_later h.pids hs).1.proc c hlt).exited hx'⟩
    · dsimp only at hc
      rw [update_of_ne hcp] at hc
      exact .inl hc

theorem ReapInv.reap (h : ReapInv s) {base p ch : ℕ} {w : WaitCall} {e : Σ _ : ℕ, ℕ}
    {todo : List (Σ _ : ℕ, ℕ)} {found : Bool} {pids : PidState}
    (hpc : s.pc p = .scanning w ch (e :: todo) found) (ht : w.takes e.1 = true)
    (hs : pidStep base s.pids (.waitReap p e.1) = some pids) :
    ReapInv { s.setPc p (.forgetting w e) with pids } := by
  have hp := h.call p
  rw [hpc] at hp
  have hl : (s.pids.info p).children.lookup e.1 = some e.2 :=
    Table.lookup_eq_some.mpr (hp.2.sub e List.mem_cons_self)
  refine h.table (noReuse_of_registers rfl) hs ?_ ?_ rfl rfl (fun _ => .inl)
  · intro q hq
    exact update_of_ne (fun he => hq (congrArg some he.symm)) ..
  · intro q hq
    cases hq
    show ReapState.CallOk _ p (update s.pc p (.forgetting w e) p)
    rw [update_self]
    have hpid := (h.pids.child p e.1 e.2 hl).pid
    obtain ⟨-, hs⟩ := ite_none_right_eq_some.mp hs
    rw [hl] at hs
    obtain ⟨-, hs⟩ := ite_none_right_eq_some.mp hs
    obtain rfl := Option.some.inj hs
    refine ⟨?_, ?_, ht⟩
    · simp
    · simpa using hpid

theorem ReapInv.forget (h : ReapInv s) {base p : ℕ} {pids : PidState}
    (hs : pidStep base s.pids (.waitForget p) = some pids) :
    ReapInv { s.setPc p .idle with pids } := by
  refine h.table (noReuse_of_registers rfl) hs ?_ ?_ rfl rfl (fun _ => .inl)
  · intro q hq
    exact update_of_ne (fun he => hq (congrArg some he.symm)) ..
  · intro q hq
    cases hq
    show ReapState.CallOk _ p (update s.pc p .idle p)
    rw [update_self]
    trivial

theorem reapInv_step {base : ℕ} {a : ReapAct} {o : Option WaitRet} (h : ReapInv s)
    (hc : ReapOk s a) (hs : reapStep base s a = some (s', o)) : ReapInv s' := by
  cases a with
  | pid a =>
    obtain ⟨hl, hs⟩ := ite_none_right_eq_some.mp hs
    obtain ⟨pids, hp, he⟩ := map_eq_some_iff.mp hs
    cases he
    exact h.launch hl hc hp
  | exit p status =>
    obtain ⟨hpc, hs⟩ := ite_none_right_eq_some.mp hs
    obtain ⟨pids, hp, he⟩ := map_eq_some_iff.mp hs
    cases he
    exact h.exit hpc hp
  | finish p =>
    obtain ⟨pids, hp, he⟩ := map_eq_some_iff.mp hs
    cases he
    exact h.finish _ hp
  | notify c =>
    simp only [reapStep] at hs
    split at hs
    · rename_i p hn hpar
      cases hs
      exact h.notify hn hpar
    · cases hs
  | waitpid p pid options =>
    obtain ⟨⟨_, hw, ht⟩, hs⟩ := ite_none_right_eq_some.mp hs
    cases hs
    exact h.setPc ⟨hw, ht, rfl⟩
  | take p =>
    simp only [reapStep] at hs
    split at hs
    · rename_i w hpc
      cases hs
      exact h.take hpc
    · cases hs
  | lock p order =>
    simp only [reapStep] at hs
    split at hs
    · rename_i w ch hpc
      obtain ⟨ho, hs⟩ := ite_none_right_eq_some.mp hs
      cases hs
      exact h.lock hpc ho
    · cases hs
  | scan p =>
    cases scanStep_of_step hs with
    | skip hpc ht => exact h.skip hpc ht
    | reap hpc ht hp => exact h.reap hpc ht hp
    | pass hpc ht hx => exact h.pass hpc ht hx
    | echild hpc | nohang hpc => exact h.setPc trivial
    | park hpc =>
      have hp := h.call p
      rw [hpc] at hp
      exact h.setPc hp
  | forget p =>
    simp only [reapStep] at hs
    split at hs
    · obtain ⟨pids, hp, he⟩ := map_eq_some_iff.mp hs
      cases he
      exact h.forget hp
    · cases hs
  | wake p =>
    simp only [reapStep] at hs
    split at hs
    · rename_i w ch hpc
      have hp := h.call p
      rw [hpc] at hp
      obtain ⟨-, hs⟩ := ite_none_right_eq_some.mp hs
      cases hs
      exact h.setPc hp.1
    · cases hs
  | interrupt p =>
    simp only [reapStep] at hs
    split at hs
    · cases hs
      exact h.setPc trivial
    · cases hs

theorem reapInv_empty : ReapInv .empty := by
  refine ⟨pidInv_empty, familyInv_empty, fun _ => trivial, ?_⟩
  intro c hc
  simp [ReapState.empty] at hc

end PgZero.Kernel
