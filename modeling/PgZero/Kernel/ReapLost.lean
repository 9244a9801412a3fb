import PgZero.Kernel.Reaping

/-!
# A child that nobody can wait for

A process gets the pid of a stale orphan; when the orphan's exit releases that pid, the next child
of the same parent gets it too and takes the place of the first.

* **`reaping_lost`**: a call that returns `ECHILD` while a child is running.
-/

set_option autoImplicit false

namespace PgZero.Kernel

open Function Lib PidState

variable {s : ReapState} {hostPid : ℕ}

theorem reapSystem_step (a : ReapAct) :
    (reapSystem hostPid).step s a = reapStep (pidBase hostPid) s a := rfl

/-- Process tables that need no `waitpid` are reached with no call under way. -/
theorem launched {pids : PidState} (h : launchSystem.Reachable pids) :
    ∃ s, (reapSystem 0).Reachable s ∧ s.pids = pids ∧ ∀ p, s.pc p = .idle := by
  apply h.invariant (P := fun pids => ∃ s, (reapSystem 0).Reachable s ∧ s.pids = pids ∧
    ∀ p, s.pc p = .idle)
  · rintro pids rfl
    exact ⟨.empty, ⟨_, [], rfl, .nil⟩, rfl, fun _ => rfl⟩
  · rintro pids a pids' o ⟨s, hr, rfl, hidle⟩ hs
    obtain ⟨hw, hs⟩ := System.restrict_step.mp hs
    have hs := pidSystem_step.mp hs
    have hpc : ∀ p, (s.pc p).isIdle = true := fun p => by rw [hidle p]; rfl
    have hlaunch : s.launches a = true →
        ∃ s', (reapSystem 0).Reachable s' ∧ s'.pids = pids' ∧ ∀ p, s'.pc p = .idle := by
      intro hl
      refine ⟨{ s with pids := pids' }, hr.step (e := .pid a) (o := none) ?_, rfl, hidle⟩
      rw [reapSystem_step, reapStep, if_pos hl, hs]
      rfl
    cases a with
    | startAlloc t k | startInsert t => exact hlaunch rfl
    | spawnAlloc p | spawnInsert p | spawnRun p => exact hlaunch (hpc p)
    | waitReap p pid => cases hw
    | waitForget p => cases hw
    | close p =>
      refine ⟨{ s with pids := pids', status := update s.status p 0 },
        hr.step (e := .exit p 0) (o := none) ?_, rfl, hidle⟩
      rw [reapSystem_step, reapStep, if_pos (hpc p), hs]
      rfl
    | finish p =>
      refine ⟨{ s with
          pids := pids'
          notifying := update s.notifying p (!ReapState.orphan pids' p) },
        hr.step (e := .finish p) (o := none) ?_, rfl, hidle⟩
      rw [reapSystem_step, reapStep, hs]
      rfl

theorem scan_begins {p : ℕ} {order : List (Σ _ : ℕ, ℕ)} (hr : (reapSystem hostPid).Reachable s)
    (hpc : s.pc p = .idle) (hw : s.pids.atWork p) (ht : (s.pids.info p).task = .none)
    (ho : order.Perm (s.children p).entries) :
    ∃ s' ch, (reapSystem hostPid).Reachable s' ∧ s'.pids = s.pids ∧
      s'.pc p = .scanning ⟨-1, false, s.children p⟩ ch order false ∧
      ∀ q, q ≠ p → s'.pc q = s.pc q := by
  set w : WaitCall := ⟨-1, false, s.children p⟩
  have h1 : (reapSystem hostPid).step s (.waitpid p (-1) 0) = some (s.setPc p (.head w), none) := by
    rw [reapSystem_step, reapStep, if_pos ⟨by rw [hpc]; rfl, hw, ht⟩]
    rfl
  set s1 := s.setPc p (.head w) with hs1
  have hpc1 : s1.pc p = .head w := update_self ..
  have h2 : (reapSystem hostPid).step s1 (.take p) = some
      ({ s1.setPc p (.taken w (s1.evts p).wait.2) with
        evts := update s1.evts p (s1.evts p).wait.1 }, none) := by
    rw [reapSystem_step, reapStep, hpc1]
  set s2 : ReapState := { s1.setPc p (.taken w (s1.evts p).wait.2) with
        evts := update s1.evts p (s1.evts p).wait.1 } with hs2
  have hpc2 : s2.pc p = .taken w (s1.evts p).wait.2 := update_self ..
  have h3 : (reapSystem hostPid).step s2 (.lock p order) = some
      (s2.setPc p (.scanning w (s1.evts p).wait.2 order false), none) := by
    rw [reapSystem_step, reapStep, hpc2]
    exact if_pos ho
  refine ⟨_, _, ((hr.step h1).step h2).step h3, rfl, update_self .., ?_⟩
  intro q hq
  simp only [hs2, hs1, ReapState.setPc, update_of_ne hq]

/-! ### The pid that is found again -/

section Lost

variable {s : PidState}

/-- The pid that `allocPid` looks at after `n`. -/
def nextPid (n : ℕ) : ℕ := n % (pidsPerHost - 1) + 1

theorem allocFrom_skip {owners : ℕ → Option ℕ} (d : ℕ) {i next : ℕ} (hd : d < i)
    (hused : ∀ j < d, owners (nextPid^[j] next) ≠ none) (hfree : owners (nextPid^[d] next) = none) :
    ∃ n, allocFrom owners 0 i next = (some (nextPid^[d] next), n) := by
  induction d generalizing i next with
  | zero =>
    obtain ⟨i, rfl⟩ : ∃ k, i = k + 1 := ⟨i - 1, by omega⟩
    refine ⟨nextPid next, ?_⟩
    rw [allocFrom, Nat.zero_add]
    exact if_pos hfree
  | succ d ih =>
    obtain ⟨i, rfl⟩ : ∃ k, i = k + 1 := ⟨i - 1, by omega⟩
    have hne : owners next ≠ none := hused 0 (Nat.succ_pos d)
    rw [allocFrom, Nat.zero_add]
    simp only [if_neg hne]
    have hrest : ∀ j < d, owners (nextPid^[j] (nextPid next)) ≠ none :=
      fun j hj => hused (j + 1) (by omega)
    exact ih (by omega) hrest hfree

theorem nextPid_iterate (j : ℕ) : nextPid^[j] 3 = (j + 2) % 2047 + 1 := by
  induction j with
  | zero => rfl
  | succ j ih =>
    rw [iterate_succ_apply', ih]
    show ((j + 2) % 2047 + 1) % 2047 + 1 = (j + 1 + 2) % 2047 + 1
    omega

/-- All pids but 2 are in use. -/
def AllButTwo (s : PidState) : Prop :=
  ∀ pid, 1 ≤ pid → pid < 2048 → pid ≠ 2 → s.owners pid ≠ none

theorem alloc_two (h : AllButTwo s) (hf : s.owners 2 = none) (hn : s.next = 3) :
    ∃ n, allocFrom s.owners 0 pidsPerHost s.next = (some 2, n) := by
  have htwo : nextPid^[2046] 3 = 2 := by
    rw [nextPid_iterate]
  rw [hn, ← htwo]
  apply allocFrom_skip 2046 (by decide)
  · intro j hj
    rw [nextPid_iterate]
    apply h
    · omega
    · omega
    · omega
  · rw [htwo]
    exact hf

theorem spawn_reach {p x pid n : ℕ} {par : Option ℕ} {ch : Table ℕ ℕ}
    (hr : launchSystem.Reachable s) (hp : p < s.nprocs)
    (hi : s.info p = ⟨0, x, par, .running, false, false, ch, .none⟩)
    (ha : allocFrom s.owners 0 pidsPerHost s.next = (some pid, n)) :
    ∃ s', launchSystem.Reachable s' ∧ s'.nprocs = s.nprocs + 1 ∧ s'.next = n ∧
      s'.owners = update s.owners pid (some 0) ∧ s'.procs 0 pid = some s.nprocs ∧
      s'.info s.nprocs = ⟨0, pid, some p, .running, false, false, ∅, .none⟩ ∧
      s'.info p = ⟨0, x, par, .running, false, false, ch.insert pid s.nprocs, .none⟩ ∧
      ∀ q, q ≠ p → q ≠ s.nprocs → s'.info q = s.info q := by
  have hne : p ≠ s.nprocs := ne_of_lt hp
  -- the pid
  have halloc : s.allocPid 0 0 = ({ s with
      owners := update s.owners pid (some 0), next := n }, some pid) := by
    rw [allocPid, ha]
  set s1 : PidState := { s with owners := update s.owners pid (some 0), next := n } with hs1
  have h1 : launchSystem.step s (.spawnAlloc p) = some (s1.setTask p (.allocated pid), ()) := by
    apply launchSystem_step rfl
    rw [pidStep, if_pos ⟨atWork_iff.mpr ⟨hp, by rw [hi]⟩, by rw [hi]⟩, hi]
    simp only [halloc]
  -- the process
  set s2 := s1.setTask p (.allocated pid) with hs2
  have ht2 : (s2.info p).task = .allocated pid := by simp [hs2]
  have hk2 : (s2.info p).kernel = 0 := by simp [hs2, hs1, hi]
  have h2 : launchSystem.step s2 (.spawnInsert p) = some
      (((s2.setTask p .none).insert 0 pid (some p) .created).setTask p (.inserted s.nprocs), ()) := by
    apply launchSystem_step rfl
    rw [pidStep, ht2, hk2]
    rfl
  set s3 := ((s2.setTask p .none).insert 0 pid (some p) .created).setTask p (.inserted s.nprocs)
    with hs3
  have hnew : ((s2.setTask p .none).insert 0 pid (some p) .created).info s.nprocs =
      ⟨0, pid, some p, .created, false, false, ∅, .none⟩ := insert_info_self ..
  have hold : ∀ q, q ≠ s.nprocs → ((s2.setTask p .none).insert 0 pid (some p) .created).info q =
      { s.info q with task := if q = p then .none else (s.info q).task } := by
    intro q hq
    have hins := insert_info_of_ne (s2.setTask p .none) 0 pid (some p) .created hq
    rw [hins, setTask_info, hs2, setTask_info]
    by_cases hqp : q = p
    · simp only [if_pos hqp, hs1]
    · simp only [if_neg hqp, hs1]
  have ht3 : (s3.info p).task = .inserted s.nprocs := by simp [hs3]
  -- the goroutine
  have h3 : launchSystem.step s3 (.spawnRun p) = some (((s3.setTask p .none).setPhase s.nprocs
      .running).setChildren p ((((s3.setTask p .none).setPhase s.nprocs .running).info p).children.insert
        (((s3.setTask p .none).setPhase s.nprocs .running).info s.nprocs).pid s.nprocs), ()) := by
    apply launchSystem_step rfl
    rw [pidStep, ht3]
  have hpid : (((s3.setTask p .none).setPhase s.nprocs .running).info s.nprocs).pid = pid := by
    simp [hs3, hnew]
  have hch : (((s3.setTask p .none).setPhase s.nprocs .running).info p).children = ch := by
    simp [hs3, hold p hne, hi]
  rw [hpid, hch] at h3
  refine ⟨_, ((hr.step h1).step h2).step h3, rfl, rfl, rfl, ?_, ?_, ?_, ?_⟩
  · exact (insert_procs (s2.setTask p .none) 0 pid (some p) .created 0 pid).trans (if_pos ⟨rfl, rfl⟩)
  · simp [hs3, hnew, hne.symm]
  · simp [hs3, hold p hne, hi, hne]
  · intro q hq hqn
    simp [hs3, hold q hqn, hq, hqn]

/-- Process `2` has a child with the pid that process `1` is about to release. -/
theorem reused_child : ∃ s, launchSystem.Reachable s ∧ s.nprocs = 2049 ∧ s.next = 3 ∧
    AllButTwo s ∧ s.procs 0 2 = some 2048 ∧
    s.info 1 = ⟨0, 2, some 0, .exiting, true, false, ∅, .none⟩ ∧
    s.info 2 = ⟨0, 3, none, .running, false, false, AList.insert 2 2048 ∅, .none⟩ ∧
    s.info 2048 = ⟨0, 2, some 2, .running, false, false, ∅, .none⟩ := by
  obtain ⟨s0, h⟩ := filled (le_refl 2045)
  have hn0 : s0.next = 1 := h.next
  obtain ⟨s1, r1, -, n1, p1, o1, -, i1⟩ := start_next h.reach h.starts (h.free _ (by omega))
  rw [hn0] at n1 o1 i1
  rw [h.nprocs] at p1 i1
  have hf : s1.owners 2 = none := by
    rw [o1, update_of_ne (by omega)]
    exact h.free 2 (by omega)
  have halloc : allocFrom s1.owners 0 pidsPerHost s1.next = (some 2, 3) := by
    rw [n1, show pidsPerHost = 2047 + 1 from rfl, allocFrom, if_pos hf]
    rfl
  have hi : s1.info 2 = ⟨0, 3, none, .running, false, false, ∅, .none⟩ := by
    rw [i1, update_of_ne (by omega)]
    exact h.first (by omega)
  obtain ⟨s, r, p, n, o, q, hc, hp, hother⟩ := spawn_reach r1 (by omega) hi halloc
  rw [p1] at p q hc hp hother
  refine ⟨s, r, p, n, ?_, q, ?_, hp, hc⟩
  · intro pid h1 h2 h3
    rw [o, update_of_ne h3, o1]
    by_cases he : pid = 1
    · rw [he, update_self]
      simp
    · rw [update_of_ne he]
      exact h.used pid (by omega) (by omega)
  · rw [hother 1 (by omega) (by omega), i1, update_of_ne (by omega)]
    exact h.orphan

/-- Process `1` releases the pid, and the next child of process `2` gets it. -/
theorem displaced_child : ∃ s, launchSystem.Reachable s ∧ 2049 < s.nprocs ∧
    s.info 2 = ⟨0, 3, none, .running, false, false, AList.insert 2 2049 (AList.insert 2 2048 ∅), .none⟩ ∧
    s.info 2048 = ⟨0, 2, some 2, .running, false, false, ∅, .none⟩ ∧
    (s.info 2049).exited = true := by
  obtain ⟨s, r, hn, hnext, hused, hprocs, i1, i2, i3⟩ := reused_child
  -- the exit of process 1
  have hfin := finishSection_orphan i1
  have hstep : launchSystem.step s (.finish 1) = some (s.finishSection 1, ()) :=
    launchSystem_step rfl (if_pos ⟨by omega, by rw [i1]⟩)
  have hinfo : ∀ c, c ≠ 1 → (s.finishSection 1).info c = s.info c := by
    intro c hc
    rw [hfin, forgetLocked_info]
    simp [hc]
  have howners : ∀ pid, (s.finishSection 1).owners pid =
      if pid = 2 then none else s.owners pid := by
    intro pid
    rw [hfin, forgetLocked_owners]
    have hsome : (((s.setChildren 1 ∅).setPhase 1 .finished).procs 0 2).isSome = true :=
      Option.isSome_of_eq_some hprocs
    simp only [hsome, and_true]
    rfl
  have hfree : (s.finishSection 1).owners 2 = none := by rw [howners, if_pos rfl]
  have hused' : AllButTwo (s.finishSection 1) := by
    intro pid h1 h2 h3
    rw [howners, if_neg h3]
    exact hused pid h1 h2 h3
  have hnext' : (s.finishSection 1).next = 3 := by
    rw [hfin, forgetLocked_next]
    exact hnext
  have hn' : (s.finishSection 1).nprocs = 2049 := (finishSection_nprocs s 1).trans hn
  -- the second child, and its exit
  obtain ⟨n, halloc⟩ := alloc_two hused' hfree hnext'
  have i2' := (hinfo 2 (by omega)).trans i2
  obtain ⟨t, rt, pt, -, -, -, hc, hp, hother⟩ :=
    spawn_reach (r.step hstep) (by omega) i2' halloc
  rw [hn'] at pt hc hp hother
  have h1 : launchSystem.step t (.close 2049) = some (t.setPhase 2049 .exiting, ()) :=
    launchSystem_step rfl (if_pos ⟨atWork_iff.mpr ⟨by omega, by rw [hc]⟩, by rw [hc]⟩)
  refine ⟨_, rt.step h1, ?_, ?_, ?_, by simp [Proc.exited]⟩
  · show 2049 < t.nprocs
    omega
  · simp [hp]
  · simp [hother 2048, hinfo 2048, i3]

end Lost

/-- Process `2` reaps its second child and has none left in its table. -/
theorem reaped_child : ∃ s, (reapSystem 0).Reachable s ∧ s.pc 2 = .idle ∧ 2048 < s.pids.nprocs ∧
    s.pids.info 2 = ⟨0, 3, none, .running, false, false, ∅, .none⟩ ∧
    s.pids.info 2048 = ⟨0, 2, some 2, .running, false, false, ∅, .none⟩ := by
  obtain ⟨pids, hpids, hn, i2, i3, hx⟩ := displaced_child
  obtain ⟨s0, hr0, rfl, hidle⟩ := launched hpids
  have hwork : s0.pids.atWork 2 = true := atWork_iff.mpr ⟨by omega, by rw [i2]⟩
  have hentries : List.Perm [⟨2, 2049⟩] (s0.children 2).entries := by
    rw [ReapState.children, i2]
    exact List.Perm.refl _
  obtain ⟨s1, ch, hr1, hp1, hpc1, -⟩ := scan_begins hr0 (hidle 2) hwork (by rw [i2]) hentries
  -- the scan takes the child
  set t := ((s1.pids.setChildren 2 ((s1.pids.info 2).children.erase 2)).setReaped 2049).setTask 2
    (.reaping 2049) with ht
  have hreap : pidStep 0 s1.pids (.waitReap 2 2) = some t := by
    rw [hp1] at ht ⊢
    rw [pidStep, if_pos ⟨hwork, by rw [i2]⟩, i2, AList.lookup_insert]
    exact (if_pos hx).trans (congrArg some (by rw [ht, i2]))
  have h2 : (reapSystem 0).step s1 (.scan 2) = some
      ({ s1.setPc 2 (.forgetting ⟨-1, false, s0.children 2⟩ ⟨2, 2049⟩) with pids := t }, none) := by
    rw [reapSystem_step, reapStep, hpc1]
    dsimp only
    rw [if_neg (by simp [WaitCall.takes]), hp1, if_pos hx, ← hp1]
    exact congrArg _ hreap
  set s2 : ReapState := { s1.setPc 2 (.forgetting ⟨-1, false, s0.children 2⟩ ⟨2, 2049⟩) with
    pids := t } with hs2
  -- and forgets it
  have htask : (t.info 2).task = .reaping 2049 := by simp [ht]
  have hforget : pidStep 0 s2.pids (.waitForget 2) = some
      ((t.setTask 2 .none).forgetLocked (t.info 2).kernel (t.info 2049).pid) := by
    rw [pidStep, htask]
  have h3 : (reapSystem 0).step s2 (.forget 2) = some ({ s2.setPc 2 .idle with
      pids := (t.setTask 2 .none).forgetLocked (t.info 2).kernel (t.info 2049).pid },
      some (.child 2049 2 (s2.status 2049))) := by
    have hpc2 : s2.pc 2 = .forgetting ⟨-1, false, s0.children 2⟩ ⟨2, 2049⟩ :=
      update_self (β := fun _ => WaitPc) 2 _ s1.pc
    rw [reapSystem_step, reapStep, hpc2]
    dsimp only
    rw [show pidBase 0 = 0 from rfl, hforget]
    rfl
  refine ⟨_, (hr1.step h2).step h3, update_self (β := fun _ => WaitPc) 2 _ s2.pc, ?_, ?_, ?_⟩
  · show 2048 < ((t.setTask 2 .none).forgetLocked _ _).nprocs
    rw [forgetLocked_nprocs]
    show 2048 < s1.pids.nprocs
    rw [hp1]
    omega
  · show ((t.setTask 2 .none).forgetLocked _ _).info 2 = _
    rw [forgetLocked_info, ht, hp1]
    simp [i2]
    rfl
  · show ((t.setTask 2 .none).forgetLocked _ _).info 2048 = _
    rw [forgetLocked_info, ht, hp1]
    simp [i3]

/-- **A lost child.** `waitpid` fails with `ECHILD` while a child is running. -/
theorem reaping_lost : ∃ s s' w ch, (reapSystem 0).Reachable s ∧
    s.pc 2 = .scanning w ch [] false ∧ s.Unreaped 2 w 2048 ∧
    (s.pids.info 2048).phase = .running ∧
    (reapSystem 0).step s (.scan 2) = some (s', some (.err .ECHILD)) := by
  obtain ⟨s0, hr0, hidle, hn, i2, i3⟩ := reaped_child
  have hnil : List.Perm [] (s0.children 2).entries := by
    rw [ReapState.children, i2]
    exact List.Perm.refl _
  obtain ⟨s, ch, hr, hp, hpc, -⟩ := scan_begins hr0 hidle
    (atWork_iff.mpr ⟨by omega, by rw [i2]⟩) (by rw [i2]) hnil
  rw [← hp] at hn i3
  refine ⟨s, s.setPc 2 .idle, _, ch, hr, hpc, ?_, ?_, ?_⟩
  · refine ⟨hn, ?_, ?_, ?_, ?_⟩
    · rw [i3]
    · rw [i3]
    · rw [i3]
      simp
    · simp [WaitCall.takes]
  · rw [i3]
  · rw [reapSystem_step, reapStep, hpc]
    rfl

end PgZero.Kernel
