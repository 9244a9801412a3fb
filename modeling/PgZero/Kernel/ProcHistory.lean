import PgZero.Kernel.PidOwner

/-!
# What a step does to a process

The kernel, the pid and the parent of a process never change, and what has happened to it (it has
exited, it is reaped, its parent is gone) stays so. New processes come from the steps that register
one.

* **`pidStep_later`**: every step.
-/

set_option autoImplicit false

namespace PgZero.Kernel

open Lib

/-- `y` is a later record of the process of `x`. -/
structure Proc.Later (x y : Proc) : Prop where
  kernel : y.kernel = x.kernel
  pid : y.pid = x.pid
  parent : y.parent = x.parent
  exited : x.exited → y.exited
  reaped : x.reaped → y.reaped
  gone : x.parentGone → y.parentGone

theorem Proc.Later.refl (x : Proc) : x.Later x := ⟨rfl, rfl, rfl, id, id, id⟩

theorem Proc.Later.of_eq {x y : Proc} (hk : y.kernel = x.kernel) (hp : y.pid = x.pid)
    (hpar : y.parent = x.parent) (hph : y.phase = x.phase) (hr : y.reaped = x.reaped)
    (hg : y.parentGone = x.parentGone) : x.Later y where
  kernel := hk
  pid := hp
  parent := hpar
  exited h := by rwa [Proc.exited, hph]
  reaped h := by rwa [hr]
  gone h := by rwa [hg]

namespace PidState

variable (s : PidState)

/-- The loop over the children marks them and changes nothing else of a process. -/
theorem foldl_orphanChild_info (k : ℕ) (l : List (Σ _ : ℕ, ℕ)) (q : ℕ) :
    (l.foldl (orphanChild k) s).info q =
      { s.info q with parentGone := (s.info q).parentGone || decide (q ∈ l.map Sigma.snd) } := by
  induction l generalizing s with
  | nil => simp
  | cons e l ih =>
    rw [List.foldl_cons, ih, orphanChild_info]
    by_cases hq : q = e.2
    · simp [hq]
    · have hmem : q ∈ (e :: l).map Sigma.snd ↔ q ∈ l.map Sigma.snd := by
        rw [List.map_cons, List.mem_cons, or_iff_right hq]
      have hdec : decide (q ∈ (e :: l).map Sigma.snd) = decide (q ∈ l.map Sigma.snd) :=
        decide_eq_decide.mpr hmem
      rw [hdec]
      simp [hq]

theorem foldl_orphanChild_nprocs (k : ℕ) (l : List (Σ _ : ℕ, ℕ)) :
    (l.foldl (orphanChild k) s).nprocs = s.nprocs := by
  induction l generalizing s with
  | nil => rfl
  | cons e l ih => rw [List.foldl_cons, ih, orphanChild_nprocs]

/-- The children of an exiting process. -/
def isChildOf (p q : ℕ) : Bool := decide (q ∈ (s.info p).children.entries.map Sigma.snd)

theorem finishSection_info (p q : ℕ) : (s.finishSection p).info q =
    { s.info q with
      phase := if q = p then .finished else (s.info q).phase
      parentGone := (s.info q).parentGone || s.isChildOf p q
      children := if q = p then ∅ else (s.info q).children } := by
  have hinfo : (s.finishSection p).info = ((s.orphanChildren p).setPhase p .finished).info := by
    unfold finishSection
    dsimp only
    split
    · exact forgetLocked_info ..
    · rfl
  rw [hinfo, setPhase_info, orphanChildren, setChildren_info, foldl_orphanChild_info]
  rfl

theorem finishSection_nprocs (p : ℕ) : (s.finishSection p).nprocs = s.nprocs := by
  have hn : ((s.orphanChildren p).setPhase p .finished).nprocs = s.nprocs :=
    foldl_orphanChild_nprocs s _ _
  unfold finishSection
  dsimp only
  split
  · exact (forgetLocked_nprocs ..).trans hn
  · exact hn

theorem allocPid_info (base k : ℕ) : (s.allocPid base k).1.info = s.info ∧
    (s.allocPid base k).1.nprocs = s.nprocs := by
  rcases allocPid_cases s base k with ⟨next, h⟩ | ⟨pid, next, _, h⟩
  · rw [h]
    exact ⟨rfl, rfl⟩
  · rw [h]
    exact ⟨rfl, rfl⟩

/-- The processes of `s` go on in `s'`. -/
structure Later (s s' : PidState) : Prop where
  nprocs : s.nprocs ≤ s'.nprocs
  proc : ∀ c < s.nprocs, (s.info c).Later (s'.info c)

theorem Later.of_info {s s' : PidState} (hn : s'.nprocs = s.nprocs)
    (h : ∀ c, (s.info c).Later (s'.info c)) : s.Later s' :=
  ⟨hn.ge, fun c _ => h c⟩

theorem insert_later (k pid : ℕ) (parent : Option ℕ) (phase : Phase) :
    s.Later (s.insert k pid parent phase) := by
  refine ⟨Nat.le_succ _, ?_⟩
  intro c hc
  rw [s.insert_info_of_ne k pid parent phase (ne_of_lt hc)]
  exact .refl _

end PidState

open PidState

variable {s s' : PidState}

/-- **A step leaves the processes what they are**, and may register a new one. -/
theorem pidStep_later {base : ℕ} {a : PidAct} (h : PidInv s) (hs : pidStep base s a = some s') :
    s.Later s' ∧ ∀ c < s'.nprocs, s.nprocs ≤ c →
      s.registers a = some ((s'.info c).kernel, (s'.info c).pid) := by
  cases pidCase_of_step hs with
  | startAlloc t k =>
    obtain ⟨hi, hn⟩ := s.allocPid_info base k
    refine ⟨.of_info hn fun c => ?_, fun c hc hc' => absurd hc (not_lt.mpr (hn.le.trans hc'))⟩
    dsimp only
    rw [hi]
    exact .refl _
  | startInsert t k pid ht =>
    have hl := s.insert_later k pid none .running
    refine ⟨⟨hl.nprocs, hl.proc⟩, ?_⟩
    intro c hc hc'
    obtain rfl : c = s.nprocs := le_antisymm (Nat.lt_succ_iff.mp hc) hc'
    have hself := s.insert_info_self k pid none .running
    dsimp only
    rw [hself]
    exact ht
  | spawnAlloc p pid =>
    obtain ⟨hi, hn⟩ := s.allocPid_info base (s.info p).kernel
    refine ⟨.of_info hn fun c => ?_, fun c hc hc' => absurd hc (not_lt.mpr (hn.le.trans hc'))⟩
    rw [setTask_info, hi]
    exact .of_eq rfl rfl rfl rfl rfl rfl
  | spawnFull p =>
    obtain ⟨hi, hn⟩ := s.allocPid_info base (s.info p).kernel
    refine ⟨.of_info hn fun c => ?_, fun c hc hc' => absurd hc (not_lt.mpr (hn.le.trans hc'))⟩
    rw [hi]
    exact .refl _
  | spawnInsert p pid ht =>
    have hl := (s.setTask p .none).insert_later (s.info p).kernel pid (some p) .created
    refine ⟨⟨hl.nprocs, ?_⟩, ?_⟩
    · intro c hc
      have hne := (s.setTask p .none).insert_info_of_ne (s.info p).kernel pid (some p) .created
        (ne_of_lt hc)
      rw [setTask_info, hne, setTask_info]
      exact .of_eq rfl rfl rfl rfl rfl rfl
    · intro c hc hc'
      obtain rfl : c = s.nprocs := le_antisymm (Nat.lt_succ_iff.mp hc) hc'
      have hself := (s.setTask p .none).insert_info_self (s.info p).kernel pid (some p) .created
      have hself' : ((s.setTask p .none).insert (s.info p).kernel pid (some p) .created).info
        s.nprocs = _ := hself
      rw [setTask_info, hself']
      simp [PidState.registers, ht]
  | spawnRun p c ht =>
    refine ⟨.of_info rfl fun q => ?_, fun q hq hq' => absurd hq (not_lt.mpr hq')⟩
    rw [setChildren_info, setPhase_info, setTask_info]
    by_cases hq : q = c
    · -- a process that has not run has not exited
      have hph := (h.inserted p c ht).phase
      subst hq
      refine ⟨rfl, rfl, rfl, ?_, id, id⟩
      intro hx
      simp [Proc.exited, hph] at hx
    · refine .of_eq rfl rfl rfl ?_ rfl rfl
      simp [hq]
  | waitReap p pid c =>
    refine ⟨.of_info rfl fun q => ?_, fun q hq hq' => absurd hq (not_lt.mpr hq')⟩
    rw [setTask_info, setReaped_info, setChildren_info]
    refine ⟨rfl, rfl, rfl, id, ?_, id⟩
    intro hr
    dsimp only
    split
    · rfl
    · exact hr
  | waitForget p c =>
    refine ⟨.of_info (forgetLocked_nprocs ..) fun q => ?_, fun q hq hq' => ?_⟩
    · rw [forgetLocked_info, setTask_info]
      exact .of_eq rfl rfl rfl rfl rfl rfl
    · rw [forgetLocked_nprocs] at hq
      exact absurd hq (not_lt.mpr hq')
  | close p =>
    refine ⟨.of_info rfl fun q => ?_, fun q hq hq' => absurd hq (not_lt.mpr hq')⟩
    rw [setPhase_info]
    refine ⟨rfl, rfl, rfl, ?_, id, id⟩
    intro hx
    by_cases hq : q = p
    · simp [Proc.exited, hq]
    · simpa [Proc.exited, hq] using hx
  | finish p =>
    refine ⟨.of_info (finishSection_nprocs s p) fun q => ?_, fun q hq hq' => ?_⟩
    · rw [finishSection_info]
      refine ⟨rfl, rfl, rfl, ?_, id, ?_⟩
      · intro hx
        by_cases hq : q = p
        · simp [Proc.exited, hq]
        · simpa [Proc.exited, hq] using hx
      · intro hg
        simp [hg]
    · rw [finishSection_nprocs] at hq
      exact absurd hq (not_lt.mpr hq')

end PgZero.Kernel
