import PgZero.Kernel.Waitpid

/-!
# Reaping

A child is returned by the call that has taken it from the table and forgotten it, so the trace of a
run never has it twice.

* **`reaping`**: the runs that meet `ReapOk` keep it.
-/

set_option autoImplicit false

namespace PgZero.Kernel

open Function Lib PidState List Option

/-! ### Exits and reaped children in the process table -/

section Table

variable {s s' : PidState} {base : ℕ} {a : PidAct}

theorem pidStep_exited (hs : pidStep base s a = some s') {c : ℕ} (hc : c < s'.nprocs)
    (hx : (s'.info c).exited) : (c < s.nprocs ∧ (s.info c).exited) ∨ a = .close c := by
  have hinsert : ∀ (t : PidState) k pid parent phase, phase = .running ∨ phase = .created →
      t.nprocs = s.nprocs → (∀ q, (t.info q).phase = (s.info q).phase) →
      c < (t.insert k pid parent phase).nprocs →
      ((t.insert k pid parent phase).info c).exited → c < s.nprocs ∧ (s.info c).exited := by
    intro t k pid parent phase hph hn hi hc hx
    by_cases hlt : c < t.nprocs
    · rw [t.insert_info_of_ne k pid parent phase (ne_of_lt hlt)] at hx
      refine ⟨hn ▸ hlt, ?_⟩
      rwa [Proc.exited, hi] at hx
    · obtain rfl : c = t.nprocs := le_antisymm (Nat.lt_succ_iff.mp hc) (not_lt.mp hlt)
      rw [t.insert_info_self k pid parent phase] at hx
      rcases hph with rfl | rfl <;> cases hx
  cases pidCase_of_step hs with
  | startAlloc t k =>
    obtain ⟨hi, hn⟩ := s.allocPid_info base k
    dsimp only at hc hx
    rw [hi] at hx
    exact .inl ⟨hn ▸ hc, hx⟩
  | startInsert => exact .inl (hinsert s _ _ _ _ (.inl rfl) rfl (fun _ => rfl) hc hx)
  | spawnAlloc p pid =>
    obtain ⟨hi, hn⟩ := s.allocPid_info base (s.info p).kernel
    rw [setTask_info, hi] at hx
    exact .inl ⟨hn ▸ hc, hx⟩
  | spawnFull p =>
    obtain ⟨hi, hn⟩ := s.allocPid_info base (s.info p).kernel
    rw [hi] at hx
    exact .inl ⟨hn ▸ hc, hx⟩
  | spawnInsert p pid =>
    rw [setTask_info] at hx
    refine .inl (hinsert (s.setTask p .none) _ _ _ _ (.inr rfl) rfl ?_ hc hx)
    intro q
    rw [setTask_info]
  | spawnRun p d =>
    rw [setChildren_info, setPhase_info, setTask_info] at hx
    by_cases hcd : c = d
    · rw [if_pos hcd] at hx
      cases hx
    · rw [if_neg hcd] at hx
      exact .inl ⟨hc, hx⟩
  | waitReap p pid d =>
    rw [setTask_info, setReaped_info, setChildren_info] at hx
    exact .inl ⟨hc, hx⟩
  | waitForget p d =>
    rw [forgetLocked_nprocs] at hc
    rw [forgetLocked_info, setTask_info] at hx
    exact .inl ⟨hc, hx⟩
  | close p =>
    by_cases hcp : c = p
    · exact .inr (hcp ▸ rfl)
    · rw [setPhase_info, if_neg hcp] at hx
      exact .inl ⟨hc, hx⟩
  | finish p hp hph =>
    rw [finishSection_nprocs] at hc
    rw [finishSection_info] at hx
    refine .inl ⟨hc, ?_⟩
    by_cases hcp : c = p
    · rw [hcp, Proc.exited, hph]
      rfl
    · rwa [if_neg hcp] at hx

theorem pidStep_reaping (h : PidInv s) (h' : PidInv s') (hs : pidStep base s a = some s') {p c : ℕ}
    (hc : c < s.nprocs) (ht : (s'.info p).task = .reaping c) :
    (s.info p).task = .reaping c ∨ (s.info c).reaped = false := by
  have hlater := (pidStep_later h hs).1
  have hp : p < s.nprocs := by
    have hpar := (h'.reaping p c ht).parent
    rw [(hlater.proc c hc).parent] at hpar
    exact (h.older c p hc hpar).trans hc
  by_cases ha : a.actor = some p
  · cases pidCase_of_step hs with
    | startAlloc => cases ha
    | startInsert => cases ha
    | spawnAlloc q pid =>
      cases ha
      rw [setTask_info, if_pos rfl] at ht
      cases ht
    | spawnFull q =>
      rw [(s.allocPid_info base (s.info q).kernel).1] at ht
      exact .inl ht
    | spawnInsert q pid =>
      cases ha
      rw [setTask_info, if_pos rfl] at ht
      cases ht
    | spawnRun q d =>
      cases ha
      rw [setChildren_info, setPhase_info, setTask_info, if_pos rfl] at ht
      cases ht
    | waitReap q pid d _ _ hl =>
      cases ha
      rw [setTask_info, if_pos rfl] at ht
      cases ht
      exact .inr (h.child p pid c hl).reaped
    | waitForget q d =>
      cases ha
      rw [forgetLocked_info, setTask_info, if_pos rfl] at ht
      cases ht
    | close q =>
      rw [setPhase_info] at ht
      exact .inl ht
    | finish q =>
      rw [finishSection_info] at ht
      exact .inl ht
  · rw [(pidStep_other hs (.inl (ne_of_lt hp)) ha).task] at ht
    exact .inl ht

end Table

/-! ### The children a run returns -/

variable {s s' : ReapState} {base hostPid : ℕ} {a : ReapAct} {o : Option WaitRet}

/-- The children returned by the successful calls of a trace. -/
def returned (tr : List (ReapAct × Option WaitRet)) : List ℕ :=
  tr.filterMap fun x => match x.2 with
    | some (.child c _ _) => some c
    | _ => none

/-- A step leaves the table alone, or is a step of the table; it returns only forgotten children. -/
theorem reapStep_cases (hs : reapStep base s a = some (s', o)) :
    (s'.pids = s.pids ∧ s'.status = s.status ∧ ∀ c cpid st, o ≠ some (.child c cpid st)) ∨
    (∃ b, (∀ q, b ≠ .close q) ∧ pidStep base s.pids b = some s'.pids ∧ s'.status = s.status ∧
      o = none) ∨
    (∃ p st, a = .exit p st ∧ pidStep base s.pids (.close p) = some s'.pids ∧
      s'.status = update s.status p st ∧ o = none) ∨
    ∃ p w e, s.pc p = .forgetting w e ∧ pidStep base s.pids (.waitForget p) = some s'.pids ∧
      s'.status = s.status ∧ o = some (.child e.2 e.1 (s.status e.2)) := by
  cases a with
  | pid a =>
    obtain ⟨hl, hs⟩ := ite_none_right_eq_some.mp hs
    obtain ⟨pids, hp, he⟩ := map_eq_some_iff.mp hs
    cases he
    refine .inr (.inl ⟨a, ?_, hp, rfl, rfl⟩)
    rintro q rfl
    cases hl
  | exit p status =>
    obtain ⟨_, hs⟩ := ite_none_right_eq_some.mp hs
    obtain ⟨pids, hp, he⟩ := map_eq_some_iff.mp hs
    cases he
    exact .inr (.inr (.inl ⟨p, status, rfl, hp, rfl, rfl⟩))
  | finish p =>
    obtain ⟨pids, hp, he⟩ := map_eq_some_iff.mp hs
    cases he
    exact .inr (.inl ⟨.finish p, by simp, hp, rfl, rfl⟩)
  | notify c =>
    simp only [reapStep] at hs
    split at hs
    · cases hs
      exact .inl ⟨rfl, rfl, by simp⟩
    · cases hs
  | waitpid p pid options =>
    obtain ⟨_, hs⟩ := ite_none_right_eq_some.mp hs
    cases hs
    exact .inl ⟨rfl, rfl, by simp⟩
  | take p =>
    simp only [reapStep] at hs
    split at hs
    · cases hs
      exact .inl ⟨rfl, rfl, by simp⟩
    · cases hs
  | lock p order =>
    simp only [reapStep] at hs
    split at hs
    · obtain ⟨_, hs⟩ := ite_none_right_eq_some.mp hs
      cases hs
      exact .inl ⟨rfl, rfl, by simp⟩
    · cases hs
  | scan p =>
    cases scanStep_of_step hs with
    | skip => exact .inl ⟨rfl, rfl, by simp⟩
    | reap hpc ht hp => exact .inr (.inl ⟨_, by simp, hp, rfl, rfl⟩)
    | pass | echild | nohang | park => exact .inl ⟨rfl, rfl, by simp⟩
  | forget p =>
    simp only [reapStep] at hs
    split at hs
    · rename_i w e hpc
      obtain ⟨pids, hp, he⟩ := map_eq_some_iff.mp hs
      cases he
      exact .inr (.inr (.inr ⟨p, w, e, hpc, hp, rfl, rfl⟩))
    · cases hs
  | wake p =>
    simp only [reapStep] at hs
    split at hs
    · obtain ⟨_, hs⟩ := ite_none_right_eq_some.mp hs
      cases hs
      exact .inl ⟨rfl, rfl, by simp⟩
    · cases hs
  | interrupt p =>
    simp only [reapStep] at hs
    split at hs
    · cases hs
      exact .inl ⟨rfl, rfl, by simp⟩
    · cases hs

/-- A child that was returned is reaped and nobody is about to forget it, and statuses are those of
the exits in the trace. -/
structure ReapHistory (tr : List (ReapAct × Option WaitRet)) (s : ReapState) : Prop where
  inv : ReapInv s
  once : (returned tr).Nodup
  gone : ∀ c ∈ returned tr, c < s.pids.nprocs ∧ (s.pids.info c).reaped = true ∧
    ∀ p, (s.pids.info p).task ≠ .reaping c
  exits : ∀ c < s.pids.nprocs, (s.pids.info c).exited → (.exit c (s.status c), none) ∈ tr
  ret : ∀ a c cpid st, (a, some (.child c cpid st)) ∈ tr →
    c < s.pids.nprocs ∧ (s.pids.info c).exited ∧ cpid = (s.pids.info c).pid ∧ st = s.status c

theorem returned_snoc (tr : List (ReapAct × Option WaitRet)) (x : ReapAct × Option WaitRet) :
    returned (tr ++ [x]) = returned tr ++ returned [x] :=
  filterMap_append

theorem returned_none {x : ReapAct × Option WaitRet}
    (h : ∀ c cpid st, x.2 ≠ some (.child c cpid st)) :
    returned [x] = [] := by
  apply filterMap_eq_nil_iff.mpr
  intro y hy
  rw [mem_singleton.mp hy]
  split
  · rename_i c cpid st heq
    exact absurd heq (h c cpid st)
  · rfl

/-- What a step does to the processes that the trace is about. -/
structure ReapLater (s s' : ReapState) (x : ReapAct × Option WaitRet) : Prop where
  later : s.pids.Later s'.pids
  task : ∀ c < s.pids.nprocs, ∀ p, (s'.pids.info p).task = .reaping c →
    (s.pids.info p).task = .reaping c ∨ (s.pids.info c).reaped = false
  exit : ∀ c < s'.pids.nprocs, (s'.pids.info c).exited →
    (c < s.pids.nprocs ∧ (s.pids.info c).exited) ∨ x = (.exit c (s'.status c), none)
  status : ∀ c, (s.pids.info c).exited → s'.status c = s.status c

variable {tr : List (ReapAct × Option WaitRet)} {x : ReapAct × Option WaitRet}

theorem ReapLater.gone (hl : ReapLater s s' x) (h : ReapHistory tr s) {c : ℕ}
    (hc : c ∈ returned tr) : c < s'.pids.nprocs ∧ (s'.pids.info c).reaped = true ∧
      ∀ p, (s'.pids.info p).task ≠ .reaping c := by
  obtain ⟨hlt, hr, ht⟩ := h.gone c hc
  refine ⟨hlt.trans_le hl.later.nprocs, (hl.later.proc c hlt).reaped hr, ?_⟩
  intro p hp
  rcases hl.task c hlt p hp with h1 | h1
  · exact ht p h1
  · rw [hr] at h1
    cases h1

theorem ReapLater.exits (hl : ReapLater s s' x) (h : ReapHistory tr s) {c : ℕ}
    (hc : c < s'.pids.nprocs) (hx : (s'.pids.info c).exited) :
    (.exit c (s'.status c), none) ∈ tr ++ [x] := by
  rcases hl.exit c hc hx with ⟨hlt, hx⟩ | he
  · rw [hl.status c hx]
    exact mem_append_left _ (h.exits c hlt hx)
  · rw [he]
    exact mem_append_right _ (mem_singleton_self _)

theorem ReapLater.ret (hl : ReapLater s s' x) (h : ReapHistory tr s) {b : ReapAct} {c cpid : ℕ}
    {st : ℤ} (hmem : (b, some (.child c cpid st)) ∈ tr) : c < s'.pids.nprocs ∧
      (s'.pids.info c).exited ∧ cpid = (s'.pids.info c).pid ∧ st = s'.status c := by
  obtain ⟨hlt, hx, hp, hst⟩ := h.ret b c cpid st hmem
  have hc := hl.later.proc c hlt
  exact ⟨hlt.trans_le hl.later.nprocs, hc.exited hx, hp.trans hc.pid.symm,
    hst.trans (hl.status c hx).symm⟩

theorem ReapHistory.quiet (h : ReapHistory tr s) (hinv : ReapInv s')
    (hl : ReapLater s s' (a, o)) (ho : ∀ c cpid st, o ≠ some (.child c cpid st)) :
    ReapHistory (tr ++ [(a, o)]) s' := by
  have hret := returned_none (x := (a, o)) ho
  refine ⟨hinv, ?_, ?_, fun c => hl.exits h, ?_⟩
  · rw [returned_snoc, hret, append_nil]
    exact h.once
  · rw [returned_snoc, hret, append_nil]
    exact fun c => hl.gone h
  · intro b c cpid st hmem
    rcases mem_append.mp hmem with hmem | hmem
    · exact hl.ret h hmem
    · have he := (Prod.mk.inj (mem_singleton.mp hmem)).2
      exact absurd he.symm (ho c cpid st)

theorem ReapHistory.forget (h : ReapHistory tr s) (hinv : ReapInv s') {p : ℕ} {e : Σ _ : ℕ, ℕ}
    (hl : ReapLater s s' (a, some (.child e.2 e.1 (s.status e.2))))
    (ht : (s.pids.info p).task = .reaping e.2) (hpid : (s.pids.info e.2).pid = e.1)
    (ht' : (s'.pids.info p).task = .none) :
    ReapHistory (tr ++ [(a, some (.child e.2 e.1 (s.status e.2)))]) s' := by
  have hreap := h.inv.pids.reaping p e.2 ht
  have hc := hl.later.proc e.2 hreap.lt
  have hret : returned (tr ++ [(a, some (.child e.2 e.1 (s.status e.2)))]) =
      returned tr ++ [e.2] := returned_snoc ..
  refine ⟨hinv, ?_, ?_, fun c => hl.exits h, ?_⟩
  · rw [hret]
    refine nodup_append.mpr ⟨h.once, nodup_singleton _, ?_⟩
    rintro c hc d hd rfl
    rw [mem_singleton.mp hd] at hc
    exact (h.gone e.2 hc).2.2 p ht
  · rw [hret]
    intro c hmem
    rcases mem_append.mp hmem with hmem | hmem
    · exact hl.gone h hmem
    · rw [mem_singleton.mp hmem]
      refine ⟨hreap.lt.trans_le hl.later.nprocs, hc.reaped hreap.reaped, ?_⟩
      intro q hq
      -- only the parent forgets a child
      rcases hl.task e.2 hreap.lt q hq with h1 | h1
      · have hpar := (h.inv.pids.reaping q e.2 h1).parent
        rw [hreap.parent] at hpar
        rw [← Option.some.inj hpar, ht'] at hq
        cases hq
      · rw [hreap.reaped] at h1
        cases h1
  · intro b c cpid st hmem
    rcases mem_append.mp hmem with hmem | hmem
    · exact hl.ret h hmem
    · have he := (Prod.mk.inj (mem_singleton.mp hmem)).2
      cases he
      exact ⟨hreap.lt.trans_le hl.later.nprocs, hc.exited hreap.exited,
        hpid.symm.trans hc.pid.symm, (hl.status e.2 hreap.exited).symm⟩

theorem pidLater_refl (s : PidState) : s.Later s := ⟨le_rfl, fun _ _ => .refl _⟩

theorem reapLater_pids (h : ReapInv s) (hinv : ReapInv s') {b : PidAct}
    (hp : pidStep base s.pids b = some s'.pids) (hst : s'.status = s.status)
    (hb : ∀ q, b ≠ .close q) : ReapLater s s' x where
  later := (pidStep_later h.pids hp).1
  task c hlt p := pidStep_reaping h.pids hinv.pids hp hlt
  exit c hlt hx := by
    rcases pidStep_exited hp hlt hx with hx | rfl
    · exact .inl hx
    · exact absurd rfl (hb c)
  status c _ := congrFun hst c

theorem reapHistory_step (h : ReapHistory tr s) (hc : ReapOk s a)
    (hs : reapStep base s a = some (s', o)) : ReapHistory (tr ++ [(a, o)]) s' := by
  have hinv := reapInv_step h.inv hc hs
  rcases reapStep_cases hs with ⟨hp, hst, ho⟩ | ⟨b, hb, hp, hst, rfl⟩ | ⟨p, st, rfl, hp, hst, rfl⟩ |
    ⟨p, w, e, hpc, hp, hst, rfl⟩
  · refine h.quiet hinv ⟨?_, ?_, ?_, fun c _ => congrFun hst c⟩ ho
    · rw [hp]
      exact pidLater_refl _
    · rw [hp]
      exact fun _ _ _ => .inl
    · rw [hp]
      exact fun c hlt hx => .inl ⟨hlt, hx⟩
  · exact h.quiet hinv (reapLater_pids h.inv hinv hp hst hb) (by simp)
  · refine h.quiet hinv ⟨(pidStep_later h.inv.pids hp).1, ?_, ?_, ?_⟩ (by simp)
    · exact fun c hlt q => pidStep_reaping h.inv.pids hinv.pids hp hlt
    · intro c hlt hx
      rcases pidStep_exited hp hlt hx with hx | he
      · exact .inl hx
      · cases he
        rw [hst, update_self]
        exact .inr rfl
    · intro c hx
      have hrun := (atWork_iff.mp (ite_none_right_eq_some.mp hp).1.1).2
      have hcp : c ≠ p := by
        rintro rfl
        simp [Proc.exited, hrun] at hx
      rw [hst, update_of_ne hcp]
  · have hcall := h.inv.call p
    rw [hpc] at hcall
    refine h.forget hinv (reapLater_pids h.inv hinv hp hst (by simp)) hcall.1 hcall.2.1 ?_
    simp only [pidStep, hcall.1] at hp
    rw [← Option.some.inj hp, forgetLocked_info, setTask_info, if_pos rfl]

theorem reapHistory_run (hr : ((reapSystem hostPid).restrict ReapOk).Run .empty tr s) :
    ReapHistory tr s := by
  apply hr.history
  · intro tr s a s' o h hs
    obtain ⟨hc, hs⟩ := System.restrict_step.mp hs
    exact reapHistory_step h hc hs
  · refine ⟨reapInv_empty, nodup_nil, ?_, ?_, ?_⟩
    · intro c hc
      cases hc
    · intro c hc
      exact absurd hc (Nat.not_lt_zero c)
    · intro b c cpid st hc
      cases hc

/-! ### What `waitpid` promises -/

/-- A child of `p` that `spawn` has started, that is not reaped and that the call waits for. -/
structure ReapState.Unreaped (s : ReapState) (p : ℕ) (w : WaitCall) (c : ℕ) : Prop where
  lt : c < s.pids.nprocs
  parent : (s.pids.info c).parent = some p
  reaped : (s.pids.info c).reaped = false
  phase : (s.pids.info c).phase ≠ .created
  takes : w.takes (s.pids.info c).pid

/-- The call that a process is in. -/
def WaitPc.call : WaitPc → Option WaitCall
  | .idle => none
  | .head w | .taken w _ | .scanning w _ _ _ | .parked w _ | .forgetting w _ => some w

/-- **The contract of `waitpid`**, after trace `tr` in state `s`. -/
structure WaitpidOk (hostPid : ℕ) (tr : List (ReapAct × Option WaitRet)) (s : ReapState) : Prop where
  /-- each child is returned at most once -/
  once : (returned tr).Nodup
  /-- with its pid and the status it exited with -/
  status : ∀ b c cpid st, (b, some (.child c cpid st)) ∈ tr →
    cpid = (s.pids.info c).pid ∧ st = s.status c ∧ (.exit c st, none) ∈ tr
  /-- a completed scan returns `ECHILD` if and only if there is nobody to wait for -/
  echild : ∀ p w ch found s' o, s.pc p = .scanning w ch [] found →
    (reapSystem hostPid).step s (.scan p) = some (s', o) →
    (o = some (.err .ECHILD) ↔ ¬ ∃ c, s.Unreaped p w c)
  /-- and only a completed scan returns it -/
  scanned : ∀ b s', (reapSystem hostPid).step s b = some (s', some (.err .ECHILD)) →
    ∃ p w ch found, b = .scan p ∧ s.pc p = .scanning w ch [] found
  /-- a call that returns 0 or `EINTR` leaves its caller the children it had -/
  kept : ∀ b s' r, (reapSystem hostPid).step s b = some (s', some r) →
    r = .none ∨ r = .err .EINTR → ∃ p w, (s.pc p).call = some w ∧ w.before = s.children p ∧
      s'.children p = s.children p
  /-- no caller is parked on an open channel once a matching child has notified -/
  heard : ∀ p w ch c, s.pc p = .parked w ch → ¬ (s.evts p).closed ch → s.Unreaped p w c →
    (s.pids.info c).exited → s.notified c = false

theorem ReapInv.unreaped_iff (h : ReapInv s) {p c : ℕ} {w : WaitCall} (hc : s.Calling p w) :
    s.Unreaped p w c ↔ ∃ e ∈ (s.children p).entries, e.2 = c ∧ w.takes e.1 := by
  constructor
  · rintro ⟨h1, h2, h3, h4, h5⟩
    have hg : (s.pids.info c).parentGone = false := by
      by_contra hg
      have hfin := h.family.gone c h1 (by simpa using hg) p h2
      rw [(atWork_iff.mp hc.work).2] at hfin
      cases hfin
    have hl := h.family.complete p c ⟨h1, h2, h3, hg, h4⟩
    exact ⟨_, Table.lookup_eq_some.mp hl, rfl, h5⟩
  · rintro ⟨e, he, rfl, ht⟩
    obtain ⟨h1, h2, -, h3, h4, -, h5⟩ := h.pids.child p e.1 e.2 (Table.lookup_eq_some.mpr he)
    exact ⟨h1, h3, h4, h5, h2 ▸ ht⟩

theorem ReapInv.echild (h : ReapInv s) {p ch : ℕ} {w : WaitCall} {found : Bool}
    (hpc : s.pc p = .scanning w ch [] found) (hs : reapStep base s (.scan p) = some (s', o)) :
    o = some (.err .ECHILD) ↔ ¬ ∃ c, s.Unreaped p w c := by
  have hp := h.call p
  rw [hpc] at hp
  obtain ⟨hcall, hscan⟩ := hp
  have hfound : found = true ↔ ∃ c, s.Unreaped p w c := by
    constructor
    · intro hf
      obtain ⟨e, he, ht⟩ := hscan.found hf
      exact ⟨e.2, (h.unreaped_iff hcall).mpr ⟨e, he, rfl, ht⟩⟩
    · rintro ⟨c, hc⟩
      obtain ⟨e, he, -, ht⟩ := (h.unreaped_iff hcall).mp hc
      exact (hscan.seen e he ht).resolve_left not_mem_nil
  rw [← hfound]
  cases scanStep_of_step hs with
  | skip hpc' | reap hpc' | pass hpc' => rw [hpc] at hpc'; cases hpc'
  | echild hpc' | nohang hpc' | park hpc' => rw [hpc] at hpc'; cases hpc'; simp

theorem reapStep_returns {r : WaitRet} (hs : reapStep base s a = some (s', some r)) :
    (∃ p w ch found, a = .scan p ∧ s.pc p = .scanning w ch [] found ∧ s'.pids = s.pids) ∨
    (∃ p w ch, s.pc p = .parked w ch ∧ s'.pids = s.pids ∧ r = .err .EINTR) ∨
    ∃ c cpid st, r = .child c cpid st := by
  cases a with
  | pid a | exit p status =>
    obtain ⟨_, hs⟩ := ite_none_right_eq_some.mp hs
    obtain ⟨pids, hp, he⟩ := map_eq_some_iff.mp hs
    cases he
  | finish p =>
    obtain ⟨pids, hp, he⟩ := map_eq_some_iff.mp hs
    cases he
  | notify c =>
    simp only [reapStep] at hs
    split at hs <;> cases hs
  | waitpid p pid options =>
    obtain ⟨_, hs⟩ := ite_none_right_eq_some.mp hs
    cases hs
  | take p =>
    simp only [reapStep] at hs
    split at hs <;> cases hs
  | lock p order =>
    simp only [reapStep] at hs
    split at hs
    · obtain ⟨_, hs⟩ := ite_none_right_eq_some.mp hs
      cases hs
    · cases hs
  | scan p =>
    cases scanStep_of_step hs with
    | echild hpc | nohang hpc => exact .inl ⟨p, _, _, _, rfl, hpc, rfl⟩
  | forget p =>
    simp only [reapStep] at hs
    split at hs
    · obtain ⟨pids, hp, he⟩ := map_eq_some_iff.mp hs
      cases he
      exact .inr (.inr ⟨_, _, _, rfl⟩)
    · cases hs
  | wake p =>
    simp only [reapStep] at hs
    split at hs
    · obtain ⟨_, hs⟩ := ite_none_right_eq_some.mp hs
      cases hs
    · cases hs
  | interrupt p =>
    simp only [reapStep] at hs
    split at hs
    · rename_i w ch hpc
      cases hs
      exact .inr (.inl ⟨p, w, ch, hpc, rfl, rfl⟩)
    · cases hs

/-- **Reaping**, in the runs that reuse no pid of a stale orphan. -/
theorem reaping (hostPid : ℕ) {s : ReapState} {tr : List (ReapAct × Option WaitRet)}
    (hr : ((reapSystem hostPid).restrict ReapOk).Run .empty tr s) : WaitpidOk hostPid tr s := by
  have h := reapHistory_run hr
  refine ⟨h.once, ?_, ?_, ?_, ?_, ?_⟩
  · intro b c cpid st hmem
    obtain ⟨hlt, hx, hp, rfl⟩ := h.ret b c cpid st hmem
    exact ⟨hp, rfl, h.exits c hlt hx⟩
  · intro p w ch found s' o hpc hs
    exact h.inv.echild hpc hs
  · intro b s' hs
    rcases reapStep_returns hs with ⟨p, w, ch, found, rfl, hpc, -⟩ | ⟨p, w, ch, -, -, he⟩ |
      ⟨c, cpid, st, he⟩
    · exact ⟨p, w, ch, found, rfl, hpc⟩
    · cases he
    · cases he
  · intro b s' r hs hr
    rcases reapStep_returns hs with ⟨p, w, ch, found, -, hpc, hp⟩ | ⟨p, w, ch, hpc, hp, -⟩ |
      ⟨c, cpid, st, rfl⟩
    · have hcall := h.inv.call p
      rw [hpc] at hcall
      refine ⟨p, w, by rw [hpc]; rfl, hcall.1.before, ?_⟩
      rw [ReapState.children, hp]
      rfl
    · have hcall := h.inv.call p
      rw [hpc] at hcall
      refine ⟨p, w, by rw [hpc]; rfl, hcall.1.before, ?_⟩
      rw [ReapState.children, hp]
      rfl
    · rcases hr with hr | hr <;> cases hr
  · intro p w ch c hpc hopen hc _
    have hcall := h.inv.call p
    rw [hpc] at hcall
    obtain ⟨e, he, rfl, ht⟩ := (h.inv.unreaped_iff hcall.1).mp hc
    exact (hcall.2.wakes.asleep hopen id e he ht).resolve_left not_mem_nil

/-- A parent that parks, is woken by the exit of its child and reaps it. -/
theorem reaping_woken : ∃ s tr, ((reapSystem 7).restrict ReapOk).Run .empty tr s ∧
    returned tr = [1] ∧ WaitpidOk 7 tr s := by
  have hr := @System.exec_run _ _ _ ((reapSystem 7).restrict ReapOk) .empty
    [.pid (.startAlloc 0 0), .pid (.startInsert 0), .pid (.spawnAlloc 0), .pid (.spawnInsert 0),
      .pid (.spawnRun 0), .waitpid 0 (-1) 0, .take 0, .lock 0 [⟨14338, 1⟩], .scan 0, .scan 0,
      .exit 1 5, .finish 1, .notify 1, .wake 0, .take 0, .lock 0 [⟨14338, 1⟩], .scan 0, .forget 0]
    _ _ rfl
  exact ⟨_, _, hr, rfl, reaping 7 hr⟩

end PgZero.Kernel
