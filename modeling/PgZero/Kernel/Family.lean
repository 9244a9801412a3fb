import PgZero.Kernel.ProcHistory

/-!
# Parents and children

A process keeps its children in a table until it reaps them or exits. In a run that meets `NoReuse`
the table is complete: it has every child that is not reaped, at the child's pid.

* `PidAct.actor`: the process whose goroutine takes the step; the step leaves the tables and the
  tasks of all others alone (**`pidStep_other`**).
* **`FamilyInv`**: the table is complete, and only an exit leaves orphans.
-/

set_option autoImplicit false

namespace PgZero.Kernel

open Lib PidState

/-- The process that takes a step, if it is one. -/
def PidAct.actor : PidAct → Option ℕ
  | .startAlloc _ _ | .startInsert _ => none
  | .spawnAlloc p | .spawnInsert p | .spawnRun p | .waitReap p _ | .waitForget p | .close p
  | .finish p => some p

variable {s s' : PidState}

/-- What process `p` sees of a step that it does not take. -/
structure PidState.Bystander (s s' : PidState) (p : ℕ) : Prop where
  task : (s'.info p).task = (s.info p).task
  children : (s'.info p).children = (s.info p).children
  phase : (∀ q, (s.info q).task ≠ .inserted p) → (s'.info p).phase = (s.info p).phase

theorem PidState.Bystander.of_eq {p : ℕ} (h : s'.info p = s.info p) : s.Bystander s' p where
  task := by rw [h]
  children := by rw [h]
  phase _ := by rw [h]

/-- **A step is seen by its actor only**, and by a process it registers. -/
theorem pidStep_other {base : ℕ} {a : PidAct} (hs : pidStep base s a = some s') {p : ℕ}
    (hp : p ≠ s.nprocs ∨ s.registers a = none) (ha : a.actor ≠ some p) : s.Bystander s' p := by
  have hactor : ∀ q, a.actor = some q → p ≠ q := by
    rintro q hq rfl
    exact ha hq
  cases pidCase_of_step hs with
  | startAlloc t k => exact .of_eq (congrFun (s.allocPid_info base k).1 p)
  | startInsert t k pid ht =>
    have hne : p ≠ s.nprocs := hp.resolve_right (by simp [PidState.registers, ht])
    exact .of_eq (s.insert_info_of_ne _ _ none .running hne)
  | spawnAlloc q pid =>
    apply Bystander.of_eq
    rw [setTask_info, (s.allocPid_info base (s.info q).kernel).1, if_neg (hactor q rfl)]
  | spawnFull q => exact .of_eq (congrFun (s.allocPid_info base (s.info q).kernel).1 p)
  | spawnInsert q pid ht =>
    have hne := hactor q rfl
    have hnew : p ≠ s.nprocs := hp.resolve_right (by simp [PidState.registers, ht])
    have hi := (s.setTask q .none).insert_info_of_ne (s.info q).kernel pid (some q) .created hnew
    apply Bystander.of_eq
    rw [setTask_info, if_neg hne, hi, setTask_info, if_neg hne]
  | spawnRun q c ht =>
    have hne := hactor q rfl
    have hinfo : ∀ x, ((((s.setTask q .none).setPhase c .running).setChildren q x).info p) =
        { s.info p with phase := if p = c then .running else (s.info p).phase } := by
      intro x
      rw [setChildren_info, setPhase_info, setTask_info, if_neg hne, if_neg hne]
    refine ⟨by rw [hinfo], by rw [hinfo], ?_⟩
    intro hins
    have hpc : p ≠ c := fun he => hins q (he ▸ ht)
    rw [hinfo, if_neg hpc]
  | waitReap q pid c =>
    have hne := hactor q rfl
    refine ⟨?_, ?_, fun _ => ?_⟩ <;>
      rw [setTask_info, setReaped_info, setChildren_info, if_neg hne, if_neg hne]
  | waitForget q c =>
    apply Bystander.of_eq
    rw [forgetLocked_info, setTask_info, if_neg (hactor q rfl)]
  | close q =>
    apply Bystander.of_eq
    rw [setPhase_info, if_neg (hactor q rfl)]
  | finish q =>
    have hne := hactor q rfl
    have hinfo := s.finishSection_info q p
    rw [if_neg hne, if_neg hne] at hinfo
    exact ⟨by rw [hinfo], by rw [hinfo], fun _ => by rw [hinfo]⟩

/-! ### The children of a process -/

/-- `c` is a child that `p` has spawned, has not reaped and has not left behind. -/
structure PidState.Child (s : PidState) (p c : ℕ) : Prop where
  lt : c < s.nprocs
  parent : (s.info c).parent = some p
  reaped : (s.info c).reaped = false
  gone : (s.info c).parentGone = false
  phase : (s.info c).phase ≠ .created

theorem PidState.Child.keeps {p c : ℕ} (h : s.Child p c) : s.Keeps c :=
  ⟨h.lt, .inr (.inl ⟨h.reaped, h.gone, .inr (by simp [h.parent])⟩)⟩

/-- A process has all its children in its table, until it has finished. -/
structure FamilyInv (s : PidState) : Prop where
  complete : ∀ p c, s.Child p c → (s.info p).children.lookup (s.info c).pid = some c
  gone : ∀ c < s.nprocs, (s.info c).parentGone = true → ∀ p, (s.info c).parent = some p →
    (s.info p).phase = .finished

/-- A step that leaves the tables alone and makes neither children nor orphans. -/
theorem FamilyInv.keep (h : FamilyInv s) (hinv : PidInv s) (hl : s.Later s')
    (hchild : ∀ p c, s'.Child p c → s.Child p c)
    (htab : ∀ p < s.nprocs, (s'.info p).children = (s.info p).children)
    (hgone : ∀ c < s'.nprocs, (s'.info c).parentGone = true →
      c < s.nprocs ∧ (s.info c).parentGone = true)
    (hfin : ∀ p < s.nprocs, (s.info p).phase = .finished → (s'.info p).phase = .finished) :
    FamilyInv s' := by
  refine ⟨?_, ?_⟩
  · intro p c hc
    have hc' := hchild p c hc
    have hp := (hinv.older c p hc'.lt hc'.parent).trans hc'.lt
    rw [htab p hp, (hl.proc c hc'.lt).pid]
    exact h.complete p c hc'
  · intro c hc hg p hpar
    obtain ⟨hlt, hg'⟩ := hgone c hc hg
    rw [(hl.proc c hlt).parent] at hpar
    apply hfin p ((hinv.older c p hlt hpar).trans hlt)
    exact h.gone c hlt hg' p hpar

theorem FamilyInv.insert (h : FamilyInv s) (hinv : PidInv s) (k pid : ℕ) {parent : Option ℕ}
    {phase : Phase} (hno : parent = none ∨ phase = .created) :
    FamilyInv (s.insert k pid parent phase) := by
  have hself := s.insert_info_self k pid parent phase
  have hold : ∀ c < s.nprocs, (s.insert k pid parent phase).info c = s.info c := by
    intro c hc
    exact s.insert_info_of_ne k pid parent phase (ne_of_lt hc)
  have hnew : ∀ c < (s.insert k pid parent phase).nprocs, ¬ c < s.nprocs → c = s.nprocs := by
    intro c hc hge
    exact le_antisymm (Nat.lt_succ_iff.mp hc) (not_lt.mp hge)
  apply h.keep hinv (s.insert_later k pid parent phase)
  · rintro p c ⟨h1, h2, h3, h4, h5⟩
    by_cases hc : c < s.nprocs
    · rw [hold c hc] at h2 h3 h4 h5
      exact ⟨hc, h2, h3, h4, h5⟩
    · -- the new process has no parent or has not been started
      obtain rfl := hnew c h1 hc
      rw [hself] at h2 h5
      rcases hno with rfl | rfl
      · cases h2
      · exact absurd rfl h5
  · intro p hp
    rw [hold p hp]
  · intro c hc hg
    by_cases hlt : c < s.nprocs
    · rw [hold c hlt] at hg
      exact ⟨hlt, hg⟩
    · obtain rfl := hnew c hc hlt
      rw [hself] at hg
      cases hg
  · intro p hp hf
    rwa [hold p hp]

theorem FamilyInv.sameInfo (h : FamilyInv s) (hn : s'.nprocs = s.nprocs)
    (hi : ∀ q, ∃ t, s'.info q = { s.info q with task := t }) : FamilyInv s' := by
  refine ⟨?_, ?_⟩
  · rintro p c ⟨h1, h2, h3, h4, h5⟩
    obtain ⟨t, ht⟩ := hi p
    obtain ⟨t', ht'⟩ := hi c
    rw [ht'] at h2 h3 h4 h5
    rw [ht, ht']
    exact h.complete p c ⟨hn ▸ h1, h2, h3, h4, h5⟩
  · intro c hc hg p hpar
    obtain ⟨t, ht⟩ := hi p
    obtain ⟨t', ht'⟩ := hi c
    rw [ht'] at hg hpar
    rw [ht]
    exact h.gone c (hn ▸ hc) hg p hpar

theorem FamilyInv.setTask (h : FamilyInv s) (p : ℕ) (t : Task) : FamilyInv (s.setTask p t) :=
  h.sameInfo rfl fun q => ⟨_, setTask_info s p q t⟩

/-- A child put in the table displaces no other: an unreaped child keeps its pid. -/
theorem FamilyInv.spawnRun (h : FamilyInv s) (hinv : PidInv s) {p c : ℕ}
    (ht : (s.info p).task = .inserted c) :
    FamilyInv (((s.setTask p .none).setPhase c .running).setChildren p
      ((((s.setTask p .none).setPhase c .running).info p).children.insert
        (((s.setTask p .none).setPhase c .running).info c).pid c)) := by
  have hc := hinv.inserted p c ht
  have hreg := hinv.strong c ⟨hc.lt, .inl (by simp [Proc.exited, hc.phase])⟩
  have hpc : p ≠ c := by
    rintro rfl
    have hrun := (hinv.busy p (by simp [ht])).2
    rw [hc.phase] at hrun
    cases hrun
  refine ⟨?_, ?_⟩
  · rintro q d ⟨h1, h2, h3, h4, h5⟩
    simp only [setChildren_info, setPhase_info, setTask_info] at h2 h3 h4 h5
    rw [setChildren_info, setChildren_info, setPhase_info, setTask_info, setPhase_info, setTask_info,
      setPhase_info, setTask_info]
    dsimp only
    by_cases hd : d = c
    · subst hd
      obtain rfl : p = q := Option.some.inj (hc.parent.symm.trans h2)
      rw [if_pos rfl, AList.lookup_insert]
    · rw [if_neg hd] at h5
      have hdc : s.Child q d := ⟨h1, h2, h3, h4, h5⟩
      by_cases hq : q = p
      · subst hq
        -- both are registered, so they have different pids
        have hne : (s.info d).pid ≠ (s.info c).pid := by
          intro he
          have hregd := hinv.strong d hdc.keeps
          have hk := (hinv.child q _ d (h.complete q d hdc)).kernel
          rw [he, hk, ← hc.kernel, hreg] at hregd
          exact hd (Option.some.inj hregd).symm
        rw [if_pos rfl, AList.lookup_insert_ne hne]
        exact h.complete q d hdc
      · rw [if_neg hq, setPhase_info, setTask_info]
        exact h.complete q d hdc
  · intro d hd hg q hpar
    simp only [setChildren_info, setPhase_info, setTask_info] at hg hpar ⊢
    have hfin := h.gone d hd hg q hpar
    have hq : q ≠ c := by
      rintro rfl
      rw [hc.phase] at hfin
      cases hfin
    rw [if_neg hq]
    exact hfin

theorem FamilyInv.waitReap (h : FamilyInv s) {p pid c : ℕ}
    (hl : (s.info p).children.lookup pid = some c) :
    FamilyInv (((s.setChildren p ((s.info p).children.erase pid)).setReaped c).setTask p
      (.reaping c)) := by
  apply FamilyInv.setTask
  refine ⟨?_, ?_⟩
  · rintro q d ⟨h1, h2, h3, h4, h5⟩
    simp only [setChildren_info, setReaped_info] at h2 h3 h4 h5
    rw [setReaped_info, setReaped_info, setChildren_info, setChildren_info]
    dsimp only
    have hd : d ≠ c := by
      rintro rfl
      simp at h3
    rw [if_neg hd] at h3
    have hcomp := h.complete q d ⟨h1, h2, h3, h4, h5⟩
    by_cases hq : q = p
    · subst hq
      have hne : (s.info d).pid ≠ pid := by
        intro he
        rw [he, hl] at hcomp
        exact hd (Option.some.inj hcomp).symm
      rw [if_pos rfl, AList.lookup_erase_ne hne]
      exact hcomp
    · rw [if_neg hq]
      exact hcomp
  · intro d hd hg q hpar
    simp only [setChildren_info, setReaped_info] at hg hpar ⊢
    exact h.gone d hd hg q hpar

/-- The exit of `p` leaves its children behind, and those are all in its table. -/
theorem FamilyInv.finish (h : FamilyInv s) (hinv : PidInv s) {p : ℕ}
    (hx : (s.info p).phase = .exiting) : FamilyInv (s.finishSection p) := by
  have hphase : ∀ d, (if d = p then Phase.finished else (s.info d).phase) ≠ .created →
      (s.info d).phase ≠ .created := by
    intro d hd hph
    by_cases hdp : d = p
    · rw [hdp, hx] at hph
      cases hph
    · rw [if_neg hdp] at hd
      exact hd hph
  refine ⟨?_, ?_⟩
  · rintro q d ⟨h1, h2, h3, h4, h5⟩
    rw [finishSection_nprocs] at h1
    rw [finishSection_info] at h2 h3 h4 h5
    rw [finishSection_info, finishSection_info]
    dsimp only at h2 h3 h4 h5 ⊢
    obtain ⟨h4, h6⟩ := Bool.or_eq_false_iff.mp h4
    have hcomp := h.complete q d ⟨h1, h2, h3, h4, hphase d h5⟩
    have hq : q ≠ p := by
      rintro rfl
      have hmem := List.mem_map_of_mem (f := Sigma.snd) (Table.lookup_eq_some.mp hcomp)
      exact of_decide_eq_false h6 hmem
    rw [if_neg hq]
    exact hcomp
  · intro d hd hg q hpar
    rw [finishSection_nprocs] at hd
    rw [finishSection_info] at hg hpar
    rw [finishSection_info]
    dsimp only at hg hpar ⊢
    by_cases hq : q = p
    · rw [if_pos hq]
    · rw [if_neg hq]
      rcases (Bool.or_eq_true _ _).mp hg with hg | hg
      · exact h.gone d hd hg q hpar
      · obtain ⟨e, he, rfl⟩ := List.mem_map.mp (of_decide_eq_true hg)
        have hch := hinv.child p e.1 e.2 (Table.lookup_eq_some.mpr he)
        exact absurd (Option.some.inj (hpar.symm.trans hch.parent)) hq

theorem FamilyInv.close (h : FamilyInv s) {p : ℕ} (hrun : (s.info p).phase = .running) :
    FamilyInv (s.setPhase p .exiting) := by
  refine ⟨?_, ?_⟩
  · rintro q d ⟨h1, h2, h3, h4, h5⟩
    rw [setPhase_info] at h2 h3 h4 h5
    rw [setPhase_info, setPhase_info]
    apply h.complete q d ⟨h1, h2, h3, h4, ?_⟩
    intro hph
    by_cases hd : d = p
    · rw [hd, hrun] at hph
      cases hph
    · exact h5 ((if_neg hd).trans hph)
  · intro d hd hg q hpar
    rw [setPhase_info] at hg hpar
    have hfin := h.gone d hd hg q hpar
    have hq : q ≠ p := by
      rintro rfl
      rw [hrun] at hfin
      cases hfin
    rw [setPhase_info, if_neg hq]
    exact hfin

theorem familyInv_empty : FamilyInv .empty := by
  refine ⟨?_, ?_⟩
  · intro p c hc
    exact absurd hc.lt (Nat.not_lt_zero c)
  · intro c hc
    exact absurd hc (Nat.not_lt_zero c)

theorem familyInv_step {base : ℕ} {a : PidAct} (h : FamilyInv s) (hinv : PidInv s)
    (hs : pidStep base s a = some s') : FamilyInv s' := by
  have halloc : ∀ k, FamilyInv (s.allocPid base k).1 := by
    intro k
    obtain ⟨hi, hn⟩ := s.allocPid_info base k
    exact h.sameInfo hn fun q => ⟨_, congrFun hi q⟩
  cases pidCase_of_step hs with
  | startAlloc t k => exact (halloc k).sameInfo rfl fun q => ⟨_, rfl⟩
  | startInsert t k pid =>
    have hins : FamilyInv (s.insert k pid none .running) := h.insert hinv k pid (.inl rfl)
    exact hins.sameInfo rfl fun q => ⟨_, rfl⟩
  | spawnAlloc p pid => exact (halloc _).setTask p _
  | spawnFull p => exact halloc _
  | spawnInsert p pid =>
    exact ((h.setTask p .none).insert (hinv.endTask p) _ _ (.inr rfl)).setTask p _
  | spawnRun p c ht => exact h.spawnRun hinv ht
  | waitReap p pid c hw ht hl => exact h.waitReap hl
  | waitForget p c =>
    apply (h.setTask p .none).sameInfo (forgetLocked_nprocs ..)
    intro q
    exact ⟨_, congrFun (forgetLocked_info ..) q⟩
  | close p hw => exact h.close (atWork_iff.mp hw).2
  | finish p hp hx => exact h.finish hinv hx

end PgZero.Kernel
