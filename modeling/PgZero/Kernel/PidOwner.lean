import PgZero.Kernel.Pid

/-!
# Pid ownership

In a run that never registers a process under the pid of a stale orphan (`NoReuse`), every live
process is registered at its pid and its kernel owns the pid.

* **`pid_ownership`**: the runs that meet `NoReuse`.
* **`pid_reused`**: a run that does not.
-/

set_option autoImplicit false

namespace PgZero.Kernel

open Function Lib Proc List

namespace PidState

variable (s : PidState) (p q : ℕ)

/-! ### Setters -/

theorem setInfo_info (x : Proc) : (s.setInfo p x).info q = if q = p then x else s.info q :=
  update_apply s.info p x q

@[simp] theorem setTask_info (t : Task) : (s.setTask p t).info q =
    { s.info q with task := if q = p then t else (s.info q).task } := by
  by_cases h : q = p
  · subst h; simp [setTask, setInfo]
  · simp [setTask, setInfo, h]

@[simp] theorem setPhase_info (x : Phase) : (s.setPhase p x).info q =
    { s.info q with phase := if q = p then x else (s.info q).phase } := by
  by_cases h : q = p
  · subst h; simp [setPhase, setInfo]
  · simp [setPhase, setInfo, h]

@[simp] theorem setChildren_info (x : Table ℕ ℕ) : (s.setChildren p x).info q =
    { s.info q with children := if q = p then x else (s.info q).children } := by
  by_cases h : q = p
  · subst h; simp [setChildren, setInfo]
  · simp [setChildren, setInfo, h]

@[simp] theorem setGone_info : (s.setGone p).info q =
    { s.info q with parentGone := if q = p then true else (s.info q).parentGone } := by
  by_cases h : q = p
  · subst h; simp [setGone, setInfo]
  · simp [setGone, setInfo, h]

@[simp] theorem setReaped_info : (s.setReaped p).info q =
    { s.info q with reaped := if q = p then true else (s.info q).reaped } := by
  by_cases h : q = p
  · subst h; simp [setReaped, setInfo]
  · simp [setReaped, setInfo, h]

@[simp] theorem forgetLocked_info (k pid : ℕ) : (s.forgetLocked k pid).info = s.info := by
  unfold forgetLocked
  split_ifs <;> rfl

@[simp] theorem forgetLocked_nprocs (k pid : ℕ) : (s.forgetLocked k pid).nprocs = s.nprocs := by
  unfold forgetLocked
  split_ifs <;> rfl

@[simp] theorem forgetLocked_starts (k pid : ℕ) : (s.forgetLocked k pid).starts = s.starts := by
  unfold forgetLocked
  split_ifs <;> rfl

@[simp] theorem forgetLocked_next (k pid : ℕ) : (s.forgetLocked k pid).next = s.next := by
  unfold forgetLocked
  split_ifs <;> rfl

theorem forgetLocked_procs (k pid k' pid' : ℕ) : (s.forgetLocked k pid).procs k' pid' =
    if k' = k ∧ pid' = pid then none else s.procs k' pid' := by
  unfold forgetLocked
  split_ifs with h1 h2 h2
  · obtain ⟨rfl, rfl⟩ := h2
    simp
  · show (update s.procs k (update (s.procs k) pid none)) k' pid' = _
    by_cases hk : k' = k
    · subst hk
      rw [update_self, update_of_ne (fun he => h2 ⟨rfl, he⟩)]
    · rw [update_of_ne hk]
  · obtain ⟨rfl, rfl⟩ := h2
    simpa using h1
  · rfl

theorem forgetLocked_owners (k pid pid' : ℕ) : (s.forgetLocked k pid).owners pid' =
    if pid' = pid ∧ (s.procs k pid).isSome then none else s.owners pid' := by
  unfold forgetLocked
  by_cases h1 : (s.procs k pid).isSome
  · rw [if_pos h1]
    by_cases hp : pid' = pid
    · subst hp
      simp [h1]
    · simp [hp]
  · rw [if_neg h1, if_neg (fun h => h1 h.2)]

end PidState

/-! ### The invariant -/

/-- A pid that is allocated for `k`, with its process still to be registered. -/
def PidState.Pending (s : PidState) (k pid : ℕ) : Prop :=
  s.owners pid = some k ∧ ∀ k', s.procs k' pid = none

/-- Such a pid that no goroutine has got from `allocPid`. -/
structure PidState.Unclaimed (s : PidState) (k pid : ℕ) : Prop where
  pending : s.Pending k pid
  start : ∀ t k', s.starts t ≠ some (k', pid)
  spawn : ∀ q, (s.info q).task ≠ .allocated pid

/-- A process that must be registered: it has not exited, nobody has taken it from its parent, or
its parent is about to forget it. -/
def PidState.Keeps (s : PidState) (c : ℕ) : Prop :=
  c < s.nprocs ∧ ((s.info c).exited = false ∨
    ((s.info c).reaped = false ∧ (s.info c).parentGone = false ∧
      ((s.info c).phase = .exiting ∨ (s.info c).parent ≠ none)) ∨
    ∃ p, (s.info p).task = .reaping c)

/-- Process `c` is in the table of its parent `p`, at `pid`. -/
structure IsChild (info : ℕ → Proc) (n p pid c : ℕ) : Prop where
  lt : c < n
  pid : (info c).pid = pid
  kernel : (info c).kernel = (info p).kernel
  parent : (info c).parent = some p
  reaped : (info c).reaped = false
  gone : (info c).parentGone = false
  phase : (info c).phase ≠ .created

/-- Process `c` is registered by a `spawn` of `p` and not yet in its table. -/
structure IsInserted (info : ℕ → Proc) (n p c : ℕ) : Prop where
  lt : c < n
  kernel : (info c).kernel = (info p).kernel
  parent : (info c).parent = some p
  reaped : (info c).reaped = false
  gone : (info c).parentGone = false
  phase : (info c).phase = .created

/-- Process `c` is taken by a `waitpid` of `p`, which has still to forget it. -/
structure IsReaping (info : ℕ → Proc) (n p c : ℕ) : Prop where
  lt : c < n
  kernel : (info c).kernel = (info p).kernel
  parent : (info c).parent = some p
  reaped : (info c).reaped = true
  gone : (info c).parentGone = false
  exited : (info c).exited = true

/-- Who is registered, who waits to be, and what a process knows of its children. -/
structure PidInv (s : PidState) : Prop where
  sound : ∀ k pid c, s.procs k pid = some c →
    c < s.nprocs ∧ (s.info c).kernel = k ∧ (s.info c).pid = pid ∧ s.owners pid = some k
  strong : ∀ c, s.Keeps c → s.procs (s.info c).kernel (s.info c).pid = some c
  weak : ∀ c, c < s.nprocs → (s.info c).phase = .exiting → (s.info c).parentGone = true →
    s.procs (s.info c).kernel (s.info c).pid = some c ∨
      s.procs (s.info c).kernel (s.info c).pid = none
  start : ∀ t k pid, s.starts t = some (k, pid) → s.Pending k pid
  spawn : ∀ p pid, (s.info p).task = .allocated pid → s.Pending (s.info p).kernel pid
  startInj : ∀ t t' k k' pid, s.starts t = some (k, pid) → s.starts t' = some (k', pid) → t = t'
  spawnInj : ∀ p p' pid, (s.info p).task = .allocated pid → (s.info p').task = .allocated pid →
    p = p'
  mixed : ∀ t k pid p, s.starts t = some (k, pid) → (s.info p).task ≠ .allocated pid
  child : ∀ p pid c, (s.info p).children.lookup pid = some c → IsChild s.info s.nprocs p pid c
  inserted : ∀ p c, (s.info p).task = .inserted c → IsInserted s.info s.nprocs p c
  reaping : ∀ p c, (s.info p).task = .reaping c → IsReaping s.info s.nprocs p c
  busy : ∀ p, (s.info p).task ≠ .none → p < s.nprocs ∧ (s.info p).phase = .running
  older : ∀ c p, c < s.nprocs → (s.info c).parent = some p → p < c
  hadParent : ∀ c, c < s.nprocs → (s.info c).reaped = true ∨ (s.info c).parentGone = true →
    (s.info c).parent ≠ none

variable {s : PidState}

section Relations

variable {info info' : ℕ → Proc} {n n' p pid c : ℕ}

/-! The relations are about the two processes only. -/

theorem IsChild.mono (h : IsChild info n p pid c) (hn : n ≤ n') (hc : info' c = info c)
    (hp : (info' p).kernel = (info p).kernel) : IsChild info' n' p pid c := by
  obtain ⟨h1, h2, h3, h4, h5, h6, h7⟩ := h
  rw [← hc] at h2 h3 h4 h5 h6 h7
  exact ⟨h1.trans_le hn, h2, h3.trans hp.symm, h4, h5, h6, h7⟩

theorem IsInserted.mono (h : IsInserted info n p c) (hn : n ≤ n') (hc : info' c = info c)
    (hp : (info' p).kernel = (info p).kernel) : IsInserted info' n' p c := by
  obtain ⟨h1, h2, h3, h4, h5, h6⟩ := h
  rw [← hc] at h2 h3 h4 h5 h6
  exact ⟨h1.trans_le hn, h2.trans hp.symm, h3, h4, h5, h6⟩

theorem IsReaping.mono (h : IsReaping info n p c) (hn : n ≤ n') (hc : info' c = info c)
    (hp : (info' p).kernel = (info p).kernel) : IsReaping info' n' p c := by
  obtain ⟨h1, h2, h3, h4, h5, h6⟩ := h
  rw [← hc] at h2 h3 h4 h5 h6
  exact ⟨h1.trans_le hn, h2.trans hp.symm, h3, h4, h5, h6⟩

end Relations

/-! ### The parts of a step -/

/-- Two states that differ only in what processes are doing. -/
structure SameNames (s s' : PidState) : Prop where
  owners : s'.owners = s.owners
  procs : s'.procs = s.procs
  nprocs : s'.nprocs = s.nprocs
  starts : s'.starts = s.starts
  kernel : ∀ q, (s'.info q).kernel = (s.info q).kernel
  pid : ∀ q, (s'.info q).pid = (s.info q).pid
  parent : ∀ q, (s'.info q).parent = (s.info q).parent

theorem PidInv.sameNames (h : PidInv s) {s' : PidState} (hn : SameNames s s')
    (hkeep : ∀ c, s'.Keeps c → s.Keeps c ∨ s.procs (s.info c).kernel (s.info c).pid = some c)
    (hweak : ∀ c, c < s.nprocs → (s'.info c).phase = .exiting → (s'.info c).parentGone = true →
      s.Keeps c ∨ ((s.info c).phase = .exiting ∧ (s.info c).parentGone = true))
    (halloc : ∀ q pid, (s'.info q).task = .allocated pid → (s.info q).task = .allocated pid ∨
      (s.Unclaimed (s.info q).kernel pid ∧ ∀ q', (s'.info q').task = .allocated pid → q' = q))
    (hchild : ∀ p pid c, (s'.info p).children.lookup pid = some c → IsChild s'.info s'.nprocs p pid c)
    (hins : ∀ p c, (s'.info p).task = .inserted c → IsInserted s'.info s'.nprocs p c)
    (hreap : ∀ p c, (s'.info p).task = .reaping c → IsReaping s'.info s'.nprocs p c)
    (hbusy : ∀ p, (s'.info p).task ≠ .none → p < s.nprocs ∧ (s'.info p).phase = .running)
    (hpar : ∀ c, c < s.nprocs → (s'.info c).reaped = true ∨ (s'.info c).parentGone = true →
      (s.info c).parent ≠ none) : PidInv s' := by
  have hpend : ∀ k pid, s.Pending k pid → s'.Pending k pid := by
    intro k pid hp
    unfold PidState.Pending
    rw [hn.owners, hn.procs]
    exact hp
  have hlt : ∀ {c}, c < s'.nprocs → c < s.nprocs := fun hc => hn.nprocs ▸ hc
  exact {
    sound := fun k pid c hc => by
      rw [hn.nprocs, hn.kernel, hn.pid, hn.owners]
      exact h.sound k pid c (by rw [← hn.procs]; exact hc)
    strong := fun c hc => by
      rw [hn.procs, hn.kernel, hn.pid]
      exact (hkeep c hc).elim (h.strong c) id
    weak := fun c hc h1 h2 => by
      rw [hn.procs, hn.kernel, hn.pid]
      rcases hweak c (hlt hc) h1 h2 with hk | ⟨h3, h4⟩
      · exact Or.inl (h.strong c hk)
      · exact h.weak c (hlt hc) h3 h4
    start := fun t k pid ht => hpend k pid (h.start t k pid (hn.starts ▸ ht))
    spawn := fun q pid hq => by
      rw [hn.kernel]
      rcases halloc q pid hq with h1 | ⟨h1, -⟩
      · exact hpend _ pid (h.spawn q pid h1)
      · exact hpend _ pid h1.pending
    startInj := by
      rw [hn.starts]
      exact h.startInj
    spawnInj := fun q q' pid h1 h2 => by
      rcases halloc q pid h1 with h3 | ⟨-, h3⟩
      · rcases halloc q' pid h2 with h4 | ⟨-, h4⟩
        · exact h.spawnInj q q' pid h3 h4
        · exact h4 q h1
      · exact (h3 q' h2).symm
    mixed := fun t k pid q ht hq => by
      rw [hn.starts] at ht
      rcases halloc q pid hq with h1 | ⟨h1, -⟩
      · exact h.mixed t k pid q ht h1
      · exact h1.start t k ht
    child := hchild
    inserted := hins
    reaping := hreap
    busy := fun q hq => by
      rw [hn.nprocs]
      exact hbusy q hq
    older := fun c q hc h1 => h.older c q (hlt hc) (hn.parent c ▸ h1)
    hadParent := fun c hc h1 => by
      rw [hn.parent]
      exact hpar c (hlt hc) h1 }

theorem sameNames_setInfo (s : PidState) (p : ℕ) (x : Proc) (hk : x.kernel = (s.info p).kernel)
    (hpid : x.pid = (s.info p).pid) (hpar : x.parent = (s.info p).parent) :
    SameNames s (s.setInfo p x) := by
  refine ⟨rfl, rfl, rfl, rfl, fun q => ?_, fun q => ?_, fun q => ?_⟩
  all_goals
    rw [PidState.setInfo_info]
    split_ifs with hq
    · rw [hq]
      assumption
    · rfl

/-- What has to hold when process `p` starts the task. -/
def PidState.TaskOk (s : PidState) (p : ℕ) : Task → Prop
  | .none => True
  | .allocated pid => s.atWork p ∧ s.Unclaimed (s.info p).kernel pid
  | .inserted c => s.atWork p ∧ IsInserted s.info s.nprocs p c
  | .reaping c => s.atWork p ∧ IsReaping s.info s.nprocs p c ∧
    s.procs (s.info c).kernel (s.info c).pid = some c

theorem PidState.atWork_iff {p : ℕ} :
    s.atWork p = true ↔ p < s.nprocs ∧ (s.info p).phase = .running := by
  simp [PidState.atWork]

theorem PidState.TaskOk.atWork {p : ℕ} {t : Task} (h : s.TaskOk p t) (ht : t ≠ .none) :
    p < s.nprocs ∧ (s.info p).phase = .running := by
  cases t with
  | none => exact absurd rfl ht
  | allocated pid | inserted c | reaping c => exact PidState.atWork_iff.mp h.1

theorem PidInv.setTask (h : PidInv s) {p : ℕ} {t : Task} (ht : s.TaskOk p t) :
    PidInv (s.setTask p t) := by
  have htask : ∀ q t', ((s.setTask p t).info q).task = t' →
      (q = p ∧ t = t') ∨ (q ≠ p ∧ (s.info q).task = t') := by
    intro q t' hq
    simp only [PidState.setTask_info] at hq
    split_ifs at hq with hqp
    · exact Or.inl ⟨hqp, hq⟩
    · exact Or.inr ⟨hqp, hq⟩
  have hn : SameNames s (s.setTask p t) := sameNames_setInfo s p _ rfl rfl rfl
  apply h.sameNames hn
  · rintro c ⟨hc, hk | hk | ⟨q, hq⟩⟩
    · exact Or.inl ⟨hc, Or.inl (by simpa [exited] using hk)⟩
    · exact Or.inl ⟨hc, Or.inr (Or.inl (by simpa using hk))⟩
    · rcases htask q _ hq with ⟨-, rfl⟩ | ⟨-, h1⟩
      · exact Or.inr ht.2.2
      · exact Or.inl ⟨hc, Or.inr (Or.inr ⟨q, h1⟩)⟩
  · intro c _ h1 h2
    exact Or.inr ⟨by simpa using h1, by simpa using h2⟩
  · intro q pid hq
    rcases htask q _ hq with ⟨rfl, rfl⟩ | ⟨-, h1⟩
    · refine Or.inr ⟨ht.2, fun q' hq' => ?_⟩
      rcases htask q' _ hq' with ⟨h1, -⟩ | ⟨-, h1⟩
      · exact h1
      · exact absurd h1 (ht.2.spawn q')
    · exact Or.inl h1
  · intro q pid c hc
    obtain ⟨h1, h2, h3, h4, h5, h6, h7⟩ := h.child q pid c (by simpa using hc)
    exact ⟨h1, by simpa, by simpa, by simpa, by simpa, by simpa, by simpa⟩
  · intro q c hq
    have hins : IsInserted s.info s.nprocs q c := by
      rcases htask q _ hq with ⟨rfl, rfl⟩ | ⟨-, h1⟩
      · exact ht.2
      · exact h.inserted q c h1
    obtain ⟨h1, h2, h3, h4, h5, h6⟩ := hins
    exact ⟨h1, by simpa, by simpa, by simpa, by simpa, by simpa⟩
  · intro q c hq
    have hreap : IsReaping s.info s.nprocs q c := by
      rcases htask q _ hq with ⟨rfl, rfl⟩ | ⟨-, h1⟩
      · exact ht.2.1
      · exact h.reaping q c h1
    obtain ⟨h1, h2, h3, h4, h5, h6⟩ := hreap
    exact ⟨h1, by simpa, by simpa, by simpa, by simpa, by simpa [exited] using h6⟩
  · intro q hq
    have hwork : q < s.nprocs ∧ (s.info q).phase = .running := by
      rcases htask q _ rfl with ⟨rfl, h1⟩ | ⟨-, h1⟩
      · exact ht.atWork (h1 ▸ hq)
      · exact h.busy q (h1 ▸ hq)
    exact ⟨hwork.1, by simpa using hwork.2⟩
  · intro c hc h1
    exact h.hadParent c hc (by simpa using h1)

theorem PidInv.endTask (h : PidInv s) (p : ℕ) : PidInv (s.setTask p .none) :=
  h.setTask (t := .none) trivial

theorem PidInv.setChildren (h : PidInv s) {p : ℕ} {x : Table ℕ ℕ}
    (hx : ∀ pid c, x.lookup pid = some c → IsChild s.info s.nprocs p pid c) :
    PidInv (s.setChildren p x) := by
  have hn : SameNames s (s.setChildren p x) := sameNames_setInfo s p _ rfl rfl rfl
  apply h.sameNames hn
  · rintro c ⟨hc, hk | hk | ⟨q, hq⟩⟩
    · exact Or.inl ⟨hc, Or.inl (by simpa [exited] using hk)⟩
    · exact Or.inl ⟨hc, Or.inr (Or.inl (by simpa using hk))⟩
    · exact Or.inl ⟨hc, Or.inr (Or.inr ⟨q, by simpa using hq⟩)⟩
  · intro c _ h1 h2
    exact Or.inr ⟨by simpa using h1, by simpa using h2⟩
  · intro q pid hq
    exact Or.inl (by simpa using hq)
  · intro q pid c hc
    have hch : IsChild s.info s.nprocs q pid c := by
      simp only [PidState.setChildren_info] at hc
      split_ifs at hc with hqp
      · exact hqp ▸ hx pid c hc
      · exact h.child q pid c hc
    obtain ⟨h1, h2, h3, h4, h5, h6, h7⟩ := hch
    exact ⟨h1, by simpa, by simpa, by simpa, by simpa, by simpa, by simpa⟩
  · intro q c hq
    obtain ⟨h1, h2, h3, h4, h5, h6⟩ := h.inserted q c (by simpa using hq)
    exact ⟨h1, by simpa, by simpa, by simpa, by simpa, by simpa⟩
  · intro q c hq
    obtain ⟨h1, h2, h3, h4, h5, h6⟩ := h.reaping q c (by simpa using hq)
    exact ⟨h1, by simpa, by simpa, by simpa, by simpa, by simpa [exited] using h6⟩
  · intro q hq
    simpa using h.busy q (by simpa using hq)
  · intro c hc h1
    exact h.hadParent c hc (by simpa using h1)

/-- A process that is taken from its parent's children. -/
structure PidState.Taken (s : PidState) (c : ℕ) : Prop where
  keeps : s.Keeps c
  phase : (s.info c).phase ≠ .created
  reaped : (s.info c).reaped = false
  parent : (s.info c).parent ≠ none
  noChild : ∀ p pid, (s.info p).children.lookup pid ≠ some c

theorem PidInv.setFlags (h : PidInv s) {c : ℕ} (hc : s.Taken c) (gone reaped : Bool) :
    PidInv (s.setInfo c { s.info c with parentGone := gone, reaped := reaped }) := by
  generalize hs' : s.setInfo c { s.info c with parentGone := gone, reaped := reaped } = s'
  have hn : SameNames s s' := hs' ▸ sameNames_setInfo s c _ rfl rfl rfl
  have hself : s'.info c = { s.info c with parentGone := gone, reaped := reaped } := by
    rw [← hs', PidState.setInfo_info, if_pos rfl]
  have hother : ∀ q, q ≠ c → s'.info q = s.info q := by
    intro q hq
    rw [← hs', PidState.setInfo_info, if_neg hq]
  have htask : ∀ q, (s'.info q).task = (s.info q).task := by
    intro q
    by_cases hq : q = c
    · rw [hq, hself]
    · rw [hother q hq]
  apply h.sameNames hn
  · intro q hk
    by_cases hq : q = c
    · exact Or.inl (hq ▸ hc.keeps)
    · obtain ⟨hlt, hk⟩ := hk
      rw [hother q hq] at hk
      simp only [htask] at hk
      exact Or.inl ⟨hn.nprocs ▸ hlt, hk⟩
  · intro q _ h1 h2
    by_cases hq : q = c
    · exact Or.inl (hq ▸ hc.keeps)
    · rw [hother q hq] at h1 h2
      exact Or.inr ⟨h1, h2⟩
  · intro q pid hq
    exact Or.inl (htask q ▸ hq)
  · intro p pid q hq
    have hq' : (s.info p).children.lookup pid = some q := by
      by_cases hp : p = c
      · rw [hp, hself] at hq
        rw [hp]
        exact hq
      · rw [← hother p hp]
        exact hq
    have hne : q ≠ c := fun he => hc.noChild p pid (he ▸ hq')
    exact (h.child p pid q hq').mono hn.nprocs.ge (hother q hne) (hn.kernel p)
  · intro p q hq
    have hins := h.inserted p q (htask p ▸ hq)
    have hne : q ≠ c := fun he => hc.phase (he ▸ hins.phase)
    exact hins.mono hn.nprocs.ge (hother q hne) (hn.kernel p)
  · intro p q hq
    have hreap := h.reaping p q (htask p ▸ hq)
    have hne : q ≠ c := by
      rintro rfl
      exact absurd hreap.reaped (by rw [hc.reaped]; decide)
    exact hreap.mono hn.nprocs.ge (hother q hne) (hn.kernel p)
  · intro q hq
    rw [htask] at hq
    refine ⟨(h.busy q hq).1, ?_⟩
    by_cases hqc : q = c
    · rw [hqc, hself]
      exact (h.busy c (hqc ▸ hq)).2
    · rw [hother q hqc]
      exact (h.busy q hq).2
  · intro q hq h1
    by_cases hqc : q = c
    · exact hqc ▸ hc.parent
    · rw [hother q hqc] at h1
      exact h.hadParent q hq h1

theorem PidInv.setReaped (h : PidInv s) {c : ℕ} (hc : s.Taken c) : PidInv (s.setReaped c) :=
  h.setFlags hc (s.info c).parentGone true

theorem PidInv.setGone (h : PidInv s) {c : ℕ} (hc : s.Taken c) : PidInv (s.setGone c) :=
  h.setFlags hc true (s.info c).reaped

theorem PidInv.setPhase (h : PidInv s) {p : ℕ} {x : Phase} (hx : x ≠ .created)
    (hkeep : x ≠ .finished → s.Keeps p) (hrun : x = .running ∨ (s.info p).task = .none)
    (hins : ∀ q, (s.info q).task ≠ .inserted p) (hexit : x = .running → (s.info p).exited = false) :
    PidInv (s.setPhase p x) := by
  have hn : SameNames s (s.setPhase p x) := sameNames_setInfo s p _ rfl rfl rfl
  apply h.sameNames hn
  · rintro q ⟨hq, hk⟩
    by_cases hne : q = p
    · subst hne
      by_cases hfin : x = .finished
      · subst hfin
        rcases hk with hk | ⟨h1, h2, h3⟩ | ⟨p', hp'⟩
        · simp [exited] at hk
        · refine Or.inl ⟨hq, Or.inr (Or.inl ⟨by simpa using h1, by simpa using h2, Or.inr ?_⟩)⟩
          simpa using h3
        · exact Or.inl ⟨hq, Or.inr (Or.inr ⟨p', by simpa using hp'⟩)⟩
      · exact Or.inl (hkeep hfin)
    · refine Or.inl ⟨hq, ?_⟩
      simpa [exited, hne] using hk
  · intro q _ h1 h2
    by_cases hne : q = p
    · subst hne
      refine Or.inl (hkeep ?_)
      rintro rfl
      simp at h1
    · exact Or.inr ⟨by simpa [hne] using h1, by simpa using h2⟩
  · intro q pid hq
    exact Or.inl (by simpa using hq)
  · intro q pid c hc
    obtain ⟨h1, h2, h3, h4, h5, h6, h7⟩ := h.child q pid c (by simpa using hc)
    refine ⟨h1, by simpa, by simpa, by simpa, by simpa, by simpa, ?_⟩
    by_cases hne : c = p <;> simp [hne, hx]
    exact h7
  · intro q c hq
    obtain ⟨h1, h2, h3, h4, h5, h6⟩ := h.inserted q c (by simpa using hq)
    have hne : c ≠ p := by
      rintro rfl
      exact hins q (by simpa using hq)
    exact ⟨h1, by simpa, by simpa, by simpa, by simpa, by simpa [hne]⟩
  · intro q c hq
    obtain ⟨h1, h2, h3, h4, h5, h6⟩ := h.reaping q c (by simpa using hq)
    refine ⟨h1, by simpa, by simpa, by simpa, by simpa, ?_⟩
    by_cases hne : c = p
    · subst hne
      cases x with
      | created => exact absurd rfl hx
      | running => exact absurd h6 (by simp [hexit rfl])
      | exiting | finished => simp [exited]
    · simpa [exited, hne] using h6
  · intro q hq
    have hq' : (s.info q).task ≠ .none := by simpa using hq
    refine ⟨(h.busy q hq').1, ?_⟩
    by_cases hne : q = p
    · subst hne
      simpa using hrun.resolve_right hq'
    · simpa [hne] using (h.busy q hq').2
  · intro c hc h1
    exact h.hadParent c hc (by simpa using h1)

theorem PidInv.forget (h : PidInv s) {k pid : ℕ}
    (hk : ∀ c, s.procs k pid = some c → ¬ s.Keeps c) : PidInv (s.forgetLocked k pid) := by
  have hprocs := s.forgetLocked_procs k pid
  have howners := s.forgetLocked_owners k pid
  have hpend : ∀ k' pid', s.Pending k' pid' → (s.forgetLocked k pid).Pending k' pid' := by
    rintro k' pid' ⟨h1, h2⟩
    refine ⟨?_, fun k'' => ?_⟩
    · rw [howners, if_neg]
      · exact h1
      · rintro ⟨rfl, hs⟩
        rw [h2 k] at hs
        cases hs
    · rw [hprocs]
      split_ifs
      · rfl
      · exact h2 k''
  have hkeep : ∀ c, (s.forgetLocked k pid).Keeps c → s.Keeps c := by
    intro c hc
    unfold PidState.Keeps at hc ⊢
    simpa using hc
  exact {
    sound := fun k' pid' c hc => by
      rw [hprocs] at hc
      split_ifs at hc with hkp
      obtain ⟨h1, h2, h3, h4⟩ := h.sound k' pid' c hc
      refine ⟨by simpa using h1, by simpa using h2, by simpa using h3, ?_⟩
      rw [howners, if_neg]
      · exact h4
      · -- another kernel cannot have the pid registered
        rintro ⟨rfl, hs⟩
        obtain ⟨c', hc'⟩ := Option.isSome_iff_exists.mp hs
        have h5 := (h.sound k pid' c' hc').2.2.2
        exact hkp ⟨Option.some.inj (h4.symm.trans h5), rfl⟩
    strong := fun c hc => by
      have hc' := hkeep c hc
      have hreg := h.strong c hc'
      rw [PidState.forgetLocked_info, hprocs, if_neg]
      · exact hreg
      · rintro ⟨h1, h2⟩
        rw [h1, h2] at hreg
        exact hk c hreg hc'
    weak := fun c hc h1 h2 => by
      rw [PidState.forgetLocked_info] at h1 h2 ⊢
      rw [hprocs]
      split_ifs
      · exact Or.inr rfl
      · exact h.weak c (by simpa using hc) h1 h2
    start := fun t k' pid' ht => hpend k' pid' (h.start t k' pid' (by simpa using ht))
    spawn := fun q pid' hq => by
      rw [PidState.forgetLocked_info] at hq ⊢
      exact hpend _ pid' (h.spawn q pid' hq)
    startInj := by simpa using h.startInj
    spawnInj := by simpa using h.spawnInj
    mixed := by simpa using h.mixed
    child := by simpa using h.child
    inserted := by simpa using h.inserted
    reaping := by simpa using h.reaping
    busy := by simpa using h.busy
    older := by simpa using h.older
    hadParent := by simpa using h.hadParent }

/-! ### Registration -/

namespace PidState

variable (s : PidState) (k pid : ℕ) (parent : Option ℕ) (phase : Phase)

theorem insert_info_of_ne {q : ℕ} (hq : q ≠ s.nprocs) :
    (s.insert k pid parent phase).info q = s.info q :=
  update_of_ne hq _ _

theorem insert_info_self : (s.insert k pid parent phase).info s.nprocs =
    ⟨k, pid, parent, phase, false, false, ∅, .none⟩ :=
  update_self _ _ _

theorem insert_procs (k' pid' : ℕ) : (s.insert k pid parent phase).procs k' pid' =
    if k' = k ∧ pid' = pid then some s.nprocs else s.procs k' pid' := by
  show (update s.procs k (update (s.procs k) pid (some s.nprocs))) k' pid' = _
  by_cases hk : k' = k
  · subst hk
    rw [update_self, update_apply]
    simp
  · rw [update_of_ne hk, if_neg (fun h => hk h.1)]

end PidState

section Insert

variable {k pid c q : ℕ} {parent : Option ℕ} {phase : Phase}

theorem PidState.insert_info_of_lt (hq : q < s.nprocs) :
    (s.insert k pid parent phase).info q = s.info q :=
  s.insert_info_of_ne k pid parent phase hq.ne

theorem PidInv.insert_task (h : PidInv s) {t : Task} (ht : t ≠ .none)
    (hq : ((s.insert k pid parent phase).info q).task = t) :
    q < s.nprocs ∧ (s.info q).task = t := by
  by_cases hqn : q = s.nprocs
  · rw [hqn, PidState.insert_info_self] at hq
    exact absurd hq.symm ht
  · rw [s.insert_info_of_ne k pid parent phase hqn] at hq
    exact ⟨(h.busy q (by rw [hq]; exact ht)).1, hq⟩

theorem PidState.Pending.insert {k' pid' : ℕ} (h : s.Pending k' pid') (hne : pid' ≠ pid) :
    (s.insert k pid parent phase).Pending k' pid' := by
  refine ⟨h.1, fun k'' => ?_⟩
  rw [PidState.insert_procs, if_neg fun he => hne he.2]
  exact h.2 k''

theorem PidState.lt_or_eq_of_insert (hc : c < (s.insert k pid parent phase).nprocs) :
    c < s.nprocs ∨ c = s.nprocs :=
  Nat.lt_succ_iff_lt_or_eq.mp hc

theorem PidInv.insert_keeps (h : PidInv s) (hlt : c < s.nprocs)
    (hc : (s.insert k pid parent phase).Keeps c) : s.Keeps c := by
  refine ⟨hlt, ?_⟩
  have hk := hc.2
  rw [PidState.insert_info_of_lt hlt] at hk
  rcases hk with hk | hk | ⟨q, hq⟩
  · exact Or.inl hk
  · exact Or.inr (Or.inl hk)
  · exact Or.inr (Or.inr ⟨q, (h.insert_task (by simp) hq).2⟩)

theorem PidInv.insert_sound (h : PidInv s) (hu : s.Unclaimed k pid) {k' pid' : ℕ}
    (hc : (s.insert k pid parent phase).procs k' pid' = some c) :
    c < s.nprocs + 1 ∧ ((s.insert k pid parent phase).info c).kernel = k' ∧
      ((s.insert k pid parent phase).info c).pid = pid' ∧ s.owners pid' = some k' := by
  rw [PidState.insert_procs] at hc
  split_ifs at hc with hkp
  · obtain ⟨rfl, rfl⟩ := hkp
    obtain rfl := Option.some.inj hc
    rw [PidState.insert_info_self]
    exact ⟨Nat.lt_succ_self _, rfl, rfl, hu.pending.1⟩
  · obtain ⟨h1, h2, h3, h4⟩ := h.sound k' pid' c hc
    rw [PidState.insert_info_of_lt h1]
    exact ⟨Nat.lt_succ_of_lt h1, h2, h3, h4⟩

theorem PidInv.insert_strong (h : PidInv s) (hu : s.Unclaimed k pid)
    (hc : (s.insert k pid parent phase).Keeps c) :
    (s.insert k pid parent phase).procs ((s.insert k pid parent phase).info c).kernel
      ((s.insert k pid parent phase).info c).pid = some c := by
  rcases PidState.lt_or_eq_of_insert hc.1 with hlt | rfl
  · have hreg := h.strong c (h.insert_keeps hlt hc)
    rw [PidState.insert_info_of_lt hlt, PidState.insert_procs, if_neg]
    · exact hreg
    · rintro ⟨h1, h2⟩
      rw [h1, h2, hu.pending.2 k] at hreg
      cases hreg
  · rw [PidState.insert_info_self, PidState.insert_procs, if_pos ⟨rfl, rfl⟩]

theorem PidInv.insert_weak (h : PidInv s) (hstale : ∀ q < s.nprocs, ¬ s.Stale k pid q)
    (hc : c < (s.insert k pid parent phase).nprocs)
    (h1 : ((s.insert k pid parent phase).info c).phase = .exiting)
    (h2 : ((s.insert k pid parent phase).info c).parentGone = true) :
    (s.insert k pid parent phase).procs ((s.insert k pid parent phase).info c).kernel
        ((s.insert k pid parent phase).info c).pid = some c ∨
      (s.insert k pid parent phase).procs ((s.insert k pid parent phase).info c).kernel
        ((s.insert k pid parent phase).info c).pid = none := by
  rcases PidState.lt_or_eq_of_insert hc with hlt | rfl
  · rw [PidState.insert_info_of_lt hlt] at h1 h2 ⊢
    rw [PidState.insert_procs, if_neg fun he => hstale c hlt ⟨he.1, he.2, h1, h2⟩]
    exact h.weak c hlt h1 h2
  · rw [PidState.insert_info_self] at h2
    cases h2

theorem PidInv.insert_child (h : PidInv s) {pid' : ℕ}
    (hc : ((s.insert k pid parent phase).info q).children.lookup pid' = some c) :
    IsChild (s.insert k pid parent phase).info (s.nprocs + 1) q pid' c := by
  have hqn : q ≠ s.nprocs := by
    rintro rfl
    rw [PidState.insert_info_self, AList.lookup_empty] at hc
    cases hc
  have hq := s.insert_info_of_ne k pid parent phase hqn
  rw [hq] at hc
  have hch := h.child q pid' c hc
  exact hch.mono (Nat.le_succ _) (PidState.insert_info_of_lt hch.lt) (by rw [hq])

/-- Registering a process at a pid allocated for it, which nobody else waits to register. -/
theorem PidInv.insert (h : PidInv s) (parent : Option ℕ) (phase : Phase)
    (hu : s.Unclaimed k pid) (hstale : ∀ q < s.nprocs, ¬ s.Stale k pid q)
    (hparent : ∀ p, parent = some p → p < s.nprocs) :
    PidInv (s.insert k pid parent phase) where
  sound _ _ _ hc := h.insert_sound hu hc
  strong _ hc := h.insert_strong hu hc
  weak _ hc h1 h2 := h.insert_weak hstale hc h1 h2
  start t k' pid' ht := (h.start t k' pid' ht).insert fun he => hu.start t k' (he ▸ ht)
  spawn q pid' hq := by
    obtain ⟨hlt, ht⟩ := h.insert_task (by simp) hq
    rw [PidState.insert_info_of_lt hlt]
    exact (h.spawn q pid' ht).insert fun he => hu.spawn q (he ▸ ht)
  startInj := h.startInj
  spawnInj q q' pid' h1 h2 :=
    h.spawnInj q q' pid' (h.insert_task (by simp) h1).2 (h.insert_task (by simp) h2).2
  mixed t k' pid' q ht hq := h.mixed t k' pid' q ht (h.insert_task (by simp) hq).2
  child _ _ _ hc := h.insert_child hc
  inserted q c hq := by
    obtain ⟨hlt, ht⟩ := h.insert_task (by simp) hq
    have hins := h.inserted q c ht
    exact hins.mono (Nat.le_succ _) (PidState.insert_info_of_lt hins.lt)
      (by rw [PidState.insert_info_of_lt hlt])
  reaping q c hq := by
    obtain ⟨hlt, ht⟩ := h.insert_task (by simp) hq
    have hreap := h.reaping q c ht
    exact hreap.mono (Nat.le_succ _) (PidState.insert_info_of_lt hreap.lt)
      (by rw [PidState.insert_info_of_lt hlt])
  busy q hq := by
    obtain ⟨hlt, ht⟩ := h.insert_task hq rfl
    rw [PidState.insert_info_of_lt hlt] at hq ⊢
    exact ⟨Nat.lt_succ_of_lt hlt, (h.busy q hq).2⟩
  older c q hc h1 := by
    rcases PidState.lt_or_eq_of_insert hc with hlt | rfl
    · rw [PidState.insert_info_of_lt hlt] at h1
      exact h.older c q hlt h1
    · rw [PidState.insert_info_self] at h1
      exact hparent q h1
  hadParent c hc h1 := by
    rcases PidState.lt_or_eq_of_insert hc with hlt | rfl
    · rw [PidState.insert_info_of_lt hlt] at h1 ⊢
      exact h.hadParent c hlt h1
    · rw [PidState.insert_info_self] at h1
      simp at h1

end Insert

/-! ### Allocation -/

theorem allocFrom_free {owners : ℕ → Option ℕ} {base i next pid next' : ℕ}
    (h : PidState.allocFrom owners base i next = (some pid, next')) : owners pid = none := by
  induction i generalizing next with
  | zero => simp [PidState.allocFrom] at h
  | succ i ih =>
    rw [PidState.allocFrom] at h
    split_ifs at h with hf
    · obtain ⟨h1, -⟩ := Prod.mk.inj h
      rw [← Option.some.inj h1]
      exact hf
    · exact ih h

theorem PidInv.alloc (h : PidInv s) {pid : ℕ} (k next : ℕ) (hf : s.owners pid = none) :
    PidInv { s with owners := update s.owners pid (some k), next := next } ∧
      PidState.Unclaimed { s with owners := update s.owners pid (some k), next := next }
        k pid := by
  have hother : ∀ k' pid', s.Pending k' pid' → pid' ≠ pid := by
    rintro k' pid' ⟨h1, -⟩ rfl
    rw [hf] at h1
    cases h1
  have hprocs : ∀ k', s.procs k' pid = none := by
    intro k'
    by_contra hne
    obtain ⟨c, hc⟩ := Option.ne_none_iff_exists'.mp hne
    rw [(h.sound k' pid c hc).2.2.2] at hf
    cases hf
  have hpend : ∀ k' pid', s.Pending k' pid' →
      PidState.Pending { s with owners := update s.owners pid (some k), next := next }
        k' pid' := by
    intro k' pid' hp
    refine ⟨?_, hp.2⟩
    show update s.owners pid (some k) pid' = some k'
    rw [update_of_ne (hother k' pid' hp)]
    exact hp.1
  constructor
  · exact { h with
      sound := fun k' pid' c hc => by
        obtain ⟨h1, h2, h3, h4⟩ := h.sound k' pid' c hc
        refine ⟨h1, h2, h3, ?_⟩
        show update s.owners pid (some k) pid' = some k'
        rw [update_of_ne]
        · exact h4
        · rintro rfl
          rw [hf] at h4
          cases h4
      start := fun t k' pid' ht => hpend k' pid' (h.start t k' pid' ht)
      spawn := fun q pid' hq => hpend _ pid' (h.spawn q pid' hq) }
  · exact {
      pending := ⟨update_self _ _ _, hprocs⟩
      start := fun t k' ht => hother k' pid (h.start t k' pid ht) rfl
      spawn := fun q hq => hother _ pid (h.spawn q pid hq) rfl }

theorem PidInv.setNext (h : PidInv s) (next : ℕ) : PidInv { s with next := next } :=
  { h with }

theorem allocPid_cases (s : PidState) (base k : ℕ) :
    (∃ next, s.allocPid base k = ({ s with next := next }, none)) ∨
    ∃ pid next, s.owners pid = none ∧ s.allocPid base k =
      ({ s with owners := update s.owners pid (some k), next := next }, some pid) := by
  unfold PidState.allocPid
  cases hr : PidState.allocFrom s.owners base pidsPerHost s.next with
  | mk r next =>
    cases r with
    | none => exact Or.inl ⟨next, rfl⟩
    | some pid => exact Or.inr ⟨pid, next, allocFrom_free hr, rfl⟩

theorem PidInv.setStart (h : PidInv s) (t : ℕ) (x : Option (ℕ × ℕ))
    (hx : ∀ k pid, x = some (k, pid) → s.Unclaimed k pid) :
    PidInv { s with starts := update s.starts t x } where
  __ := h
  start t' k pid ht := by
    simp only [update_apply] at ht
    split_ifs at ht
    · exact (hx k pid ht).pending
    · exact h.start t' k pid ht
  startInj t1 t2 k1 k2 pid h1 h2 := by
    simp only [update_apply] at h1 h2
    split_ifs at h1 h2 with e1 e2 e2
    · rw [e1, e2]
    · exact absurd h2 ((hx k1 pid h1).start t2 k2)
    · exact absurd h1 ((hx k2 pid h2).start t1 k1)
    · exact h.startInj t1 t2 k1 k2 pid h1 h2
  mixed t' k pid q ht := by
    simp only [update_apply] at ht
    split_ifs at ht
    · exact (hx k pid ht).spawn q
    · exact h.mixed t' k pid q ht

/-! ### Calls -/

theorem PidInv.startAlloc (h : PidInv s) (base t k : ℕ) :
    PidInv { (s.allocPid base k).1 with
      starts := update s.starts t ((s.allocPid base k).2.map fun pid => (k, pid)) } := by
  rcases allocPid_cases s base k with ⟨next, hr⟩ | ⟨pid, next, hf, hr⟩
  · rw [hr]
    exact (h.setNext next).setStart t none (fun k pid hx => by cases hx)
  · rw [hr]
    have hu := h.alloc k next hf
    refine hu.1.setStart t (some (k, pid)) ?_
    intro k' pid' hx
    obtain ⟨rfl, rfl⟩ := Prod.mk.inj (Option.some.inj hx)
    exact hu.2

theorem PidInv.startInsert (h : PidInv s) {t k pid : ℕ} (ht : s.starts t = some (k, pid))
    (hstale : ∀ q < s.nprocs, ¬ s.Stale k pid q) :
    PidInv { s.insert k pid none .running with starts := update s.starts t none } := by
  have h1 : PidInv { s with starts := update s.starts t none } :=
    h.setStart t none (fun k pid hx => by cases hx)
  refine PidInv.insert (k := k) h1 none .running ⟨h.start t k pid ht, ?_, ?_⟩ hstale
    (fun p hp => by cases hp)
  · intro t' k' ht'
    have hup : update s.starts t none t' = some (k', pid) := ht'
    by_cases hne : t' = t
    · subst hne
      rw [update_self] at hup
      cases hup
    · rw [update_of_ne hne] at hup
      exact hne (h.startInj t' t k' k pid hup ht)
  · intro q
    exact h.mixed t k pid q ht

theorem PidInv.spawnAlloc (h : PidInv s) {base p pid : ℕ} {s1 : PidState} (hp : s.atWork p)
    (hr : s.allocPid base (s.info p).kernel = (s1, some pid)) :
    PidInv (s1.setTask p (.allocated pid)) := by
  rcases allocPid_cases s base (s.info p).kernel with ⟨next, hr'⟩ | ⟨pid', next, hf, hr'⟩
  · rw [hr'] at hr
    cases hr
  · rw [hr'] at hr
    obtain ⟨rfl, h1⟩ := Prod.mk.inj hr
    obtain rfl := Option.some.inj h1
    have hu := h.alloc (s.info p).kernel next hf
    exact hu.1.setTask (p := p) (t := .allocated pid') ⟨hp, hu.2⟩

theorem PidInv.spawnInsert (h : PidInv s) {p pid : ℕ} (ht : (s.info p).task = .allocated pid)
    (hstale : ∀ q < s.nprocs, ¬ s.Stale (s.info p).kernel pid q) :
    PidInv (((s.setTask p .none).insert (s.info p).kernel pid (some p) .created).setTask p
      (.inserted s.nprocs)) := by
  have hwork := h.busy p (by simp [ht])
  have hu : (s.setTask p .none).Unclaimed (s.info p).kernel pid := by
    refine ⟨h.spawn p pid ht, fun t k hs => h.mixed t k pid p hs ht, fun q hq => ?_⟩
    simp only [PidState.setTask_info] at hq
    split_ifs at hq with hne
    exact hne (h.spawnInj q p pid hq ht)
  have hins : PidInv ((s.setTask p .none).insert (s.info p).kernel pid (some p) .created) := by
    refine (h.endTask p).insert (some p) .created hu (fun q hq hst => hstale q hq ?_) (fun q hq => ?_)
    · simpa [PidState.Stale] using hst
    · obtain rfl := Option.some.inj hq
      exact hwork.1
  have hself := (s.setTask p .none).insert_info_self (s.info p).kernel pid (some p) .created
  have hne := (s.setTask p .none).insert_info_of_ne (s.info p).kernel pid (some p) .created
    (ne_of_lt hwork.1)
  have hself' : ((s.setTask p .none).insert (s.info p).kernel pid (some p) .created).info s.nprocs =
    ⟨(s.info p).kernel, pid, some p, .created, false, false, ∅, .none⟩ := hself
  refine hins.setTask (t := .inserted s.nprocs) ⟨?_, ?_⟩
  · refine PidState.atWork_iff.mpr ⟨Nat.lt_succ_of_lt hwork.1, ?_⟩
    rw [hne]
    simpa using hwork.2
  · refine ⟨Nat.lt_succ_self s.nprocs, ?_, ?_, ?_, ?_, ?_⟩ <;> rw [hself']
    rw [hne]
    simp

theorem PidInv.spawnRun (h : PidInv s) {p c : ℕ} (ht : (s.info p).task = .inserted c) :
    PidInv (((s.setTask p .none).setPhase c .running).setChildren p
      ((((s.setTask p .none).setPhase c .running).info p).children.insert
        (((s.setTask p .none).setPhase c .running).info c).pid c)) := by
  have hc := h.inserted p c ht
  have hphase : PidInv ((s.setTask p .none).setPhase c .running) := by
    apply (h.endTask p).setPhase (by simp)
    · intro _
      exact ⟨hc.lt, Or.inl (by simp [exited, hc.phase])⟩
    · exact Or.inl rfl
    · intro q hq
      simp only [PidState.setTask_info] at hq
      split_ifs at hq with hne
      -- only its parent has registered a process
      have hq' := (h.inserted q c hq).parent
      rw [hc.parent] at hq'
      exact hne (Option.some.inj hq').symm
    · intro _
      simp [exited, hc.phase]
  apply hphase.setChildren
  intro pid c' hl
  by_cases hpid : pid = (s.info c).pid
  · subst hpid
    have hl' : some c = some c' := by
      rw [← hl]
      simp [AList.lookup_insert]
    obtain rfl := Option.some.inj hl'
    obtain ⟨h1, h2, h3, h4, h5, -⟩ := hc
    exact ⟨h1, by simp, by simpa, by simpa, by simpa, by simpa, by simp⟩
  · rw [AList.lookup_insert_ne (by simpa using hpid)] at hl
    exact hphase.child p pid c' hl

theorem PidInv.waitReap (h : PidInv s) {p pid c : ℕ} (hp : s.atWork p)
    (hl : (s.info p).children.lookup pid = some c) (he : (s.info c).exited = true) :
    PidInv (((s.setChildren p ((s.info p).children.erase pid)).setReaped c).setTask p
      (.reaping c)) := by
  have hc := h.child p pid c hl
  have hkeep : s.Keeps c :=
    ⟨hc.lt, Or.inr (Or.inl ⟨hc.reaped, hc.gone, Or.inr (by simp [hc.parent])⟩)⟩
  have herase : PidInv (s.setChildren p ((s.info p).children.erase pid)) := by
    apply h.setChildren
    intro pid' c' hl'
    by_cases hpid : pid' = pid
    · rw [hpid, AList.lookup_erase] at hl'
      cases hl'
    · rw [AList.lookup_erase_ne hpid] at hl'
      exact h.child p pid' c' hl'
  have htaken : (s.setChildren p ((s.info p).children.erase pid)).Taken c := by
    refine ⟨?_, by simpa using hc.phase, by simpa using hc.reaped, by simp [hc.parent], ?_⟩
    · exact ⟨hc.lt, Or.inr (Or.inl ⟨by simpa using hc.reaped, by simpa using hc.gone,
        Or.inr (by simp [hc.parent])⟩)⟩
    · intro q pid' hq
      -- a process is among the children of its parent only, at its own pid
      have hq' := herase.child q pid' c hq
      have hpar : q = p := Option.some.inj (hq'.parent.symm.trans (by simpa using hc.parent))
      have hpid : pid' = pid := hq'.pid.symm.trans (by simpa using hc.pid)
      rw [hpar, hpid] at hq
      simp at hq
  refine (herase.setReaped htaken).setTask (t := .reaping c) ⟨?_, ⟨hc.lt, ?_, ?_, ?_, ?_, ?_⟩, ?_⟩
  · obtain ⟨hlt, hrun⟩ := PidState.atWork_iff.mp hp
    exact PidState.atWork_iff.mpr ⟨hlt, by simpa using hrun⟩
  · simpa using hc.kernel
  · simpa using hc.parent
  · simp
  · simpa using hc.gone
  · simpa [exited] using he
  · simp only [PidState.setReaped_info, PidState.setChildren_info]
    exact h.strong c hkeep

theorem PidInv.waitForget (h : PidInv s) {p c : ℕ} (ht : (s.info p).task = .reaping c) :
    PidInv ((s.setTask p .none).forgetLocked (s.info p).kernel (s.info c).pid) := by
  have hc := h.reaping p c ht
  have hreg := h.strong c ⟨hc.lt, Or.inr (Or.inr ⟨p, ht⟩)⟩
  rw [hc.kernel] at hreg
  apply (h.endTask p).forget
  intro c' hc'
  obtain rfl : c' = c := Option.some.inj (hc'.symm.trans hreg)
  rintro ⟨-, hk | hk | ⟨q, hq⟩⟩
  · simp only [PidState.setTask_info, exited] at hk
    exact absurd hc.exited (by simp [exited, hk])
  · exact absurd hc.reaped (by simpa using hk.1)
  · simp only [PidState.setTask_info] at hq
    split_ifs at hq with hne
    have hq' := (h.reaping q c' hq).parent
    rw [hc.parent] at hq'
    exact hne (Option.some.inj hq').symm

theorem PidInv.close (h : PidInv s) {p : ℕ} (hp : s.atWork p) (ht : (s.info p).task = .none) :
    PidInv (s.setPhase p .exiting) := by
  obtain ⟨hlt, hrun⟩ := PidState.atWork_iff.mp hp
  apply h.setPhase (by simp)
  · intro _
    exact ⟨hlt, Or.inl (by simp [exited, hrun])⟩
  · exact Or.inr ht
  · intro q hq
    exact absurd (h.inserted q p hq).phase (by simp [hrun])
  · intro hx
    cases hx

/-! ### Exit -/

namespace PidState

theorem setGone_setChildren (s : PidState) (c p : ℕ) (x : Table ℕ ℕ) :
    (s.setChildren p x).setGone c = (s.setGone c).setChildren p x := by
  have hinfo : ((s.setChildren p x).setGone c).info = ((s.setGone c).setChildren p x).info := by
    funext q
    simp
  exact congrArg (fun info => { s with info := info }) hinfo

theorem forgetLocked_setChildren (s : PidState) (k pid p : ℕ) (x : Table ℕ ℕ) :
    (s.setChildren p x).forgetLocked k pid = (s.forgetLocked k pid).setChildren p x := by
  unfold forgetLocked
  by_cases h : (s.procs k pid).isSome
  · rw [if_pos h, if_pos (by exact h)]
    rfl
  · rw [if_neg h, if_neg (by exact h)]

/-- The loop over the children does not depend on the table they are in. -/
theorem orphanChild_setChildren (s : PidState) (k p : ℕ) (x : Table ℕ ℕ) (e : Σ _ : ℕ, ℕ) :
    orphanChild k (s.setChildren p x) e = (orphanChild k s e).setChildren p x := by
  have hx : (((s.setChildren p x).setGone e.2).info e.2).exited =
      ((s.setGone e.2).info e.2).exited := by
    simp [exited]
  unfold orphanChild
  by_cases h : ((s.setGone e.2).info e.2).exited
  · simp only [if_pos h, if_pos (hx.trans h)]
    rw [setGone_setChildren, forgetLocked_setChildren]
  · simp only [if_neg h, if_neg (fun h' => h (hx.symm.trans h'))]
    rw [setGone_setChildren]

theorem orphanChild_info (s : PidState) (k : ℕ) (e : Σ _ : ℕ, ℕ) :
    (orphanChild k s e).info = (s.setGone e.2).info := by
  unfold orphanChild
  by_cases h : ((s.setGone e.2).info e.2).exited
  · simp only [if_pos h, forgetLocked_info]
  · simp only [if_neg h]

theorem orphanChild_nprocs (s : PidState) (k : ℕ) (e : Σ _ : ℕ, ℕ) :
    (orphanChild k s e).nprocs = s.nprocs := by
  unfold orphanChild
  by_cases h : ((s.setGone e.2).info e.2).exited
  · simp only [if_pos h, forgetLocked_nprocs]
    rfl
  · simp only [if_neg h]
    rfl

end PidState

/-- A child that its exiting parent `p` has already taken from its table. -/
structure Orphan (s : PidState) (p : ℕ) (e : Σ _ : ℕ, ℕ) : Prop where
  child : IsChild s.info s.nprocs p e.1 e.2
  noChild : ∀ q pid, (s.info q).children.lookup pid ≠ some e.2

theorem Orphan.taken {p : ℕ} {e : Σ _ : ℕ, ℕ} (h : Orphan s p e) : s.Taken e.2 :=
  have hpar : (s.info e.2).parent ≠ none := by simp [h.child.parent]
  ⟨⟨h.child.lt, Or.inr (Or.inl ⟨h.child.reaped, h.child.gone, Or.inr hpar⟩)⟩, h.child.phase,
    h.child.reaped, hpar, h.noChild⟩

theorem Orphan.registered (h : PidInv s) {p : ℕ} {e : Σ _ : ℕ, ℕ} (he : Orphan s p e) :
    s.procs (s.info p).kernel e.1 = some e.2 := by
  have hreg := h.strong e.2 he.taken.keeps
  rwa [he.child.kernel, he.child.pid] at hreg

theorem PidInv.orphanChild (h : PidInv s) {p : ℕ} {e : Σ _ : ℕ, ℕ} (he : Orphan s p e) :
    PidInv (PidState.orphanChild (s.info p).kernel s e) := by
  have hgone := h.setGone he.taken
  unfold PidState.orphanChild
  by_cases hx : ((s.setGone e.2).info e.2).exited
  · simp only [if_pos hx]
    apply hgone.forget
    intro c hc
    obtain rfl : c = e.2 := Option.some.inj (hc.symm.trans (he.registered h))
    rintro ⟨-, hk | hk | ⟨q, hq⟩⟩
    · rw [hx] at hk
      cases hk
    · simp at hk
    · have hreap := (hgone.reaping q _ hq).gone
      simp at hreap
  · simp only [if_neg hx]
    exact hgone

/-- What the loop leaves alone. -/
structure Orphaned (l : List (Σ _ : ℕ, ℕ)) (s s' : PidState) : Prop where
  inv : PidInv s'
  nprocs : s'.nprocs = s.nprocs
  info : ∀ q, (∀ e ∈ l, e.2 ≠ q) → s'.info q = s.info q
  procs : ∀ k pid c, s.procs k pid = some c → (∀ e ∈ l, e.2 = c → (s.info c).exited = false) →
    s'.procs k pid = some c

theorem PidState.orphanChild_procs {k k' pid c : ℕ} {e : Σ _ : ℕ, ℕ}
    (he : s.procs k e.1 = some e.2) (hc : s.procs k' pid = some c)
    (hx : e.2 = c → (s.info c).exited = false) :
    (PidState.orphanChild k s e).procs k' pid = some c := by
  unfold PidState.orphanChild
  by_cases hex : ((s.setGone e.2).info e.2).exited
  · simp only [if_pos hex]
    rw [PidState.forgetLocked_procs, if_neg]
    · exact hc
    · rintro ⟨rfl, rfl⟩
      obtain rfl := Option.some.inj (he.symm.trans hc)
      have hx' := hx rfl
      simp only [PidState.setGone_info, exited] at hex
      rw [exited, hex] at hx'
      cases hx'
  · simp only [if_neg hex]
    exact hc

theorem orphaned_foldl {p k : ℕ} (l : List (Σ _ : ℕ, ℕ)) (h : PidInv s)
    (hl : ∀ e ∈ l, Orphan s p e) (hnd : (l.map Sigma.snd).Nodup) (hk : (s.info p).kernel = k) :
    Orphaned l s (l.foldl (PidState.orphanChild k) s) := by
  induction l generalizing s with
  | nil => exact ⟨h, rfl, fun _ _ => rfl, fun _ _ _ hc _ => hc⟩
  | cons e l ih =>
    rw [map_cons, nodup_cons] at hnd
    have he := hl e mem_cons_self
    have hinfo := s.orphanChild_info k e
    have hn := s.orphanChild_nprocs k e
    have hreg := he.registered h
    -- the other entries are about other processes
    have hother : ∀ e' ∈ l, e'.2 ≠ e.2 := by
      intro e' he' heq
      exact hnd.1 (heq ▸ mem_map_of_mem he')
    have hl' : ∀ e' ∈ l, Orphan (PidState.orphanChild k s e) p e' := by
      intro e' he'
      have hne := hother e' he'
      obtain ⟨⟨h1, h2, h3, h4, h5, h6, h7⟩, h8⟩ := hl e' (mem_cons_of_mem e he')
      refine ⟨?_, ?_⟩
      · rw [hinfo, hn]
        exact ⟨h1, by simpa, by simpa, by simpa, by simpa, by simpa [hne], by simpa⟩
      · rw [hinfo]
        simpa using h8
    have hinv : PidInv (PidState.orphanChild k s e) := hk ▸ h.orphanChild he
    obtain ⟨i1, i2, i3, i4⟩ := ih hinv hl' hnd.2 (by rw [hinfo]; simpa using hk)
    rw [foldl_cons]
    refine ⟨i1, i2.trans hn, fun q hq => ?_, fun k' pid c hc hx => ?_⟩
    · have hne : q ≠ e.2 := fun heq => hq e mem_cons_self heq.symm
      rw [i3 q (fun e' he' => hq e' (mem_cons_of_mem e he')), hinfo]
      simp [hne]
    · apply i4 k' pid c
      · exact PidState.orphanChild_procs (hk ▸ hreg) hc (hx e mem_cons_self)
      · intro e' he' heq
        rw [hinfo]
        simpa [exited] using hx e' (mem_cons_of_mem e he') heq

theorem PidInv.orphans (h : PidInv s) (p : ℕ) :
    Orphaned (s.info p).children.entries (s.setChildren p ∅) (s.orphanChildren p) := by
  have hmem : ∀ e ∈ (s.info p).children.entries, IsChild s.info s.nprocs p e.1 e.2 := by
    intro e he
    exact h.child p e.1 e.2 (AList.mem_lookup_iff.mpr he)
  have hempty : PidInv (s.setChildren p ∅) := h.setChildren (fun pid c hl => by simp at hl)
  rw [PidState.orphanChildren, ← foldl_hom (fun s' => PidState.setChildren s' p ∅)
    (fun s' e => s'.orphanChild_setChildren _ p ∅ e)]
  apply orphaned_foldl (p := p) _ hempty
  · intro e he
    obtain ⟨h1, h2, h3, h4, h5, h6, h7⟩ := hmem e he
    refine ⟨⟨h1, by simpa, by simpa, by simpa, by simpa, by simpa, by simpa⟩, ?_⟩
    intro q pid hq
    have hpar := (hempty.child q pid e.2 hq).parent
    simp only [PidState.setChildren_info] at hpar
    obtain rfl : p = q := Option.some.inj (h4.symm.trans hpar)
    simp at hq
  · refine List.Nodup.map_on ?_ (s.info p).children.nodupKeys.nodup
    intro e he e' he' heq
    have hpid : e.1 = e'.1 := by
      rw [← (hmem e he).pid, ← (hmem e' he').pid, heq]
    exact Sigma.ext hpid (heq_of_eq heq)
  · simp

theorem PidInv.finish (h : PidInv s) {p : ℕ} (hp : p < s.nprocs)
    (hx : (s.info p).phase = .exiting) :
    PidInv (s.finishSection p) ∧ ∀ k pid c, s.procs k pid = some c → c ≠ p →
      ¬ ((s.info c).parent = some p ∧ (s.info c).exited = true) →
      (s.finishSection p).procs k pid = some c := by
  unfold PidState.finishSection
  obtain ⟨h1, hn, hinfo, hprocs⟩ := h.orphans p
  generalize s.orphanChildren p = s1 at h1 hn hinfo hprocs ⊢
  -- the process is not a child of itself
  have hself : s1.info p = { s.info p with children := ∅ } := by
    rw [hinfo p, PidState.setChildren_info, if_pos rfl]
    intro e he heq
    have hpar := (h.child p e.1 e.2 (AList.mem_lookup_iff.mpr he)).parent
    exact absurd (h.older e.2 p (heq ▸ hp) hpar) (heq ▸ lt_irrefl p)
  have hx1 : (s1.info p).phase = .exiting := by rw [hself]; exact hx
  have hp1 : p < s1.nprocs := by rw [hn]; exact hp
  have h2 : PidInv (s1.setPhase p .finished) := by
    apply h1.setPhase (by simp)
    · intro hne
      exact absurd rfl hne
    · by_contra hne
      have hrun := (h1.busy p (fun h => hne (Or.inr h))).2
      rw [hx1] at hrun
      cases hrun
    · intro q hq
      exact absurd (h1.inserted q p hq).phase (by simp [hx1])
    · intro hr
      cases hr
  have hprocs1 : ∀ k pid c, s.procs k pid = some c →
      ¬ ((s.info c).parent = some p ∧ (s.info c).exited = true) → s1.procs k pid = some c := by
    intro k pid c hc hnc
    apply hprocs k pid c hc
    rintro e he rfl
    have hpar := (h.child p e.1 e.2 (AList.mem_lookup_iff.mpr he)).parent
    by_contra hex
    simp only [PidState.setChildren_info, exited] at hex
    exact hnc ⟨hpar, by simpa only [exited, Bool.not_eq_false] using hex⟩
  by_cases ho : ((s1.setPhase p .finished).info p).parent = none ∨
      ((s1.setPhase p .finished).info p).parentGone
  · -- nobody else is registered at the pid of an orphan
    have hown : ∀ c, s1.procs (s1.info p).kernel (s1.info p).pid = some c → c = p := by
      intro c hc
      have hreg : s1.procs (s1.info p).kernel (s1.info p).pid = some p ∨
          s1.procs (s1.info p).kernel (s1.info p).pid = none := by
        by_cases hg : (s1.info p).parentGone = true
        · exact h1.weak p hp1 hx1 hg
        · have hpar : (s1.info p).parent = none := by simpa [hg] using ho
          refine Or.inl (h1.strong p ⟨hp1, Or.inr (Or.inl ⟨?_, by simpa using hg, Or.inl hx1⟩)⟩)
          by_contra hr
          exact h1.hadParent p hp1 (Or.inl (by simpa using hr)) hpar
      rcases hreg with hreg | hreg
      · exact Option.some.inj (hc.symm.trans hreg)
      · rw [hreg] at hc
        cases hc
    simp only [if_pos ho]
    refine ⟨h2.forget fun c hc => ?_, fun k pid c hc hne hnc => ?_⟩
    · obtain rfl : c = p := hown c (by simp only [PidState.setPhase_info] at hc; exact hc)
      rintro ⟨-, hk | hk | ⟨q, hq⟩⟩
      · simp [exited] at hk
      · rcases ho with ho | ho
        · exact hk.2.2.elim (by simp) (fun hpar => hpar ho)
        · rw [hk.2.1] at ho
          cases ho
      · have hreap := h2.reaping q c hq
        rcases ho with ho | ho
        · rw [hreap.parent] at ho
          cases ho
        · rw [hreap.gone] at ho
          cases ho
    · rw [PidState.forgetLocked_procs, if_neg]
      · exact hprocs1 k pid c hc hnc
      · rintro ⟨rfl, rfl⟩
        apply hne
        apply hown
        simpa using hprocs1 _ _ c hc hnc
  · simp only [if_neg ho]
    exact ⟨h2, fun k pid c hc _ hnc => hprocs1 k pid c hc hnc⟩

/-! ### Runs -/

theorem pidInv_empty : PidInv .empty := by
  constructor <;> simp [PidState.empty, PidState.Keeps]

theorem pidInv_step {base : ℕ} {s' : PidState} {a : PidAct} (h : PidInv s) (hr : NoReuse s a)
    (hs : pidStep base s a = some s') : PidInv s' := by
  cases pidCase_of_step hs with
  | startAlloc t k => exact h.startAlloc base t k
  | startInsert t k pid ht => exact h.startInsert ht (hr (k, pid) ht)
  | spawnAlloc p pid hw ht ha => exact h.spawnAlloc hw (Prod.ext rfl ha)
  | spawnFull p hw ht ha =>
    rcases allocPid_cases s base (s.info p).kernel with ⟨next, hr'⟩ | ⟨pid', next, hf, hr'⟩
    · rw [hr']
      exact h.setNext next
    · rw [hr'] at ha
      cases ha
  | spawnInsert p pid ht =>
    refine h.spawnInsert ht (hr ((s.info p).kernel, pid) ?_)
    simp [PidState.registers, ht]
  | spawnRun p c ht => exact h.spawnRun ht
  | waitReap p pid c hw ht hl hx => exact h.waitReap hw hl hx
  | waitForget p c ht => exact h.waitForget ht
  | close p hw ht => exact h.close hw ht
  | finish p hp hx => exact (h.finish hp hx).1

theorem pidSystem_step {hostPid : ℕ} {s' : PidState} {a : PidAct} :
    (pidSystem hostPid).step s a = some (s', ()) ↔ pidStep (pidBase hostPid) s a = some s' := by
  simp [pidSystem]

theorem pidInv_reachable {hostPid : ℕ} (h : ((pidSystem hostPid).restrict NoReuse).Reachable s) :
    PidInv s := by
  apply h.invariant
  · rintro s rfl
    exact pidInv_empty
  · intro s a s' o hinv hs
    obtain ⟨hr, hs⟩ := System.restrict_step.mp hs
    exact pidInv_step hinv hr (pidSystem_step.mp hs)

theorem PidState.Live.keeps {c : ℕ} (h : s.Live c) : s.Keeps c :=
  ⟨h.1, h.2.imp id fun hx => Or.inl ⟨hx.1, hx.2.2, Or.inr hx.2.1⟩⟩

/-- **Pid ownership**, in every state that a run meeting `NoReuse` reaches. -/
theorem pid_ownership (hostPid : ℕ) (s : PidState)
    (h : ((pidSystem hostPid).restrict NoReuse).Reachable s) :
    (∀ c, s.Live c → s.procs (s.info c).kernel (s.info c).pid = some c ∧
      s.owners (s.info c).pid = some (s.info c).kernel) ∧
    (∀ c c', s.Live c → s.Live c' → (s.info c).pid = (s.info c').pid → c = c') ∧
    (∀ p s', (pidSystem hostPid).step s (.finish p) = some (s', ()) →
      ∀ k pid c, s.procs k pid = some c → c ≠ p →
        ¬ ((s.info c).parent = some p ∧ (s.info c).exited = true) → s'.procs k pid = some c) := by
  have hinv := pidInv_reachable h
  have hreg : ∀ c, s.Live c → s.procs (s.info c).kernel (s.info c).pid = some c ∧
      s.owners (s.info c).pid = some (s.info c).kernel := by
    intro c hc
    have hp := hinv.strong c hc.keeps
    exact ⟨hp, (hinv.sound _ _ c hp).2.2.2⟩
  refine ⟨hreg, fun c c' hc hc' hpid => ?_, fun p s' hs => ?_⟩
  · obtain ⟨h1, h2⟩ := hreg c hc
    obtain ⟨h3, h4⟩ := hreg c' hc'
    -- one pid has one owner
    rw [hpid, h4] at h2
    rw [hpid, ← Option.some.inj h2, h3] at h1
    exact (Option.some.inj h1).symm
  · obtain ⟨⟨hp, hx⟩, hs⟩ := Option.ite_none_right_eq_some.mp (pidSystem_step.mp hs)
    obtain rfl := Option.some.inj hs
    exact (hinv.finish hp hx).2

theorem pid_ownership_unreaped : ∃ s, ((pidSystem 7).restrict NoReuse).Reachable s ∧
    (s.info 1).phase = .finished ∧ s.Live 1 ∧ s.procs 0 (7 * 2048 + 2) = some 1 ∧
    s.owners (7 * 2048 + 2) = some 0 := by
  have hr := @System.reachable_of_exec _ _ _ ((pidSystem 7).restrict NoReuse) .empty _
    [.startAlloc 0 0, .startInsert 0, .spawnAlloc 0, .spawnInsert 0, .spawnRun 0, .close 1,
      .finish 1] _ rfl rfl
  have h := (pid_ownership 7 _ hr).1 1 ⟨by decide, Or.inr ⟨by decide, by decide, by decide⟩⟩
  exact ⟨_, hr, rfl, ⟨by decide, Or.inr ⟨by decide, by decide, by decide⟩⟩, h⟩

/-! ### Reuse -/

/-- Whether the step is one of `waitpid`. -/
def PidAct.waits : PidAct → Bool
  | .waitReap _ _ | .waitForget _ => true
  | _ => false

/-- The runs without `waitpid`. -/
def launchSystem : System PidState PidAct Unit := (pidSystem 0).restrict fun _ a => a.waits = false

theorem launchSystem_step {s' : PidState} {a : PidAct} (hw : a.waits = false)
    (hs : pidStep 0 s a = some s') : launchSystem.step s a = some (s', ()) :=
  System.restrict_step.mpr ⟨hw, pidSystem_step.mpr hs⟩

theorem start_next (hr : launchSystem.Reachable s) (ht : s.starts 0 = none)
    (hf : s.owners s.next = none) : ∃ s', launchSystem.Reachable s' ∧ s'.starts 0 = none ∧
      s'.next = s.next % 2047 + 1 ∧ s'.nprocs = s.nprocs + 1 ∧
      s'.owners = update s.owners s.next (some 0) ∧
      s'.procs 0 s.next = some s.nprocs ∧
      s'.info = update s.info s.nprocs
        ⟨0, s.next, none, .running, false, false, ∅, .none⟩ := by
  have halloc : s.allocPid 0 0 = ({ s with
      owners := update s.owners s.next (some 0), next := s.next % 2047 + 1 },
      some s.next) := by
    have hfrom : PidState.allocFrom s.owners 0 pidsPerHost s.next =
        (some s.next, s.next % 2047 + 1) := by
      rw [show pidsPerHost = 2047 + 1 from rfl, PidState.allocFrom, Nat.zero_add, if_pos hf]
      rfl
    rw [PidState.allocPid, hfrom]
  have h1 : launchSystem.step s (.startAlloc 0 0) = some ({ s with
      owners := update s.owners s.next (some 0), next := s.next % 2047 + 1,
      starts := update s.starts 0 (some (0, s.next)) }, ()) := by
    apply launchSystem_step rfl
    rw [pidStep, if_pos ht, halloc]
    rfl
  generalize hs1 : ({ s with
      owners := update s.owners s.next (some 0), next := s.next % 2047 + 1,
      starts := update s.starts 0 (some (0, s.next)) } : PidState) = s1 at h1
  have hst : s1.starts 0 = some (0, s.next) := by
    rw [← hs1]
    exact update_self (β := fun _ => Option (ℕ × ℕ)) 0 _ s.starts
  have h2 : launchSystem.step s1 (.startInsert 0) = some
      ({ s1.insert 0 s.next none .running with starts := update s1.starts 0 none }, ()) := by
    apply launchSystem_step rfl
    rw [pidStep, hst]
  refine ⟨_, (hr.step h1).step h2,
    update_self (β := fun _ => Option (ℕ × ℕ)) 0 none s1.starts, ?_, ?_, ?_, ?_, ?_⟩
  · rw [← hs1]
    rfl
  · rw [← hs1]
    rfl
  · rw [← hs1]
    rfl
  · have hp := s1.insert_procs 0 s.next none .running 0 s.next
    rw [if_pos ⟨rfl, rfl⟩] at hp
    rw [← hs1] at hp ⊢
    exact hp
  · rw [← hs1]
    rfl

/-- Process `1` is a stale orphan with pid 2, and `j` further processes have the pids from 3. -/
structure Filled (j : ℕ) (s : PidState) : Prop where
  reach : launchSystem.Reachable s
  starts : s.starts 0 = none
  next : s.next = (j + 2) % 2047 + 1
  nprocs : s.nprocs = j + 2
  free : ∀ pid, pid < 3 ∨ j + 3 ≤ pid → s.owners pid = none
  used : ∀ pid, 3 ≤ pid → pid < j + 3 → s.owners pid ≠ none
  orphan : s.info 1 = ⟨0, 2, some 0, .exiting, true, false, ∅, .none⟩
  first : 1 ≤ j → s.info 2 = ⟨0, 3, none, .running, false, false, ∅, .none⟩

/-- A process and its child, each between the two steps of its `finish`. -/
theorem two_exiting : ∃ s, launchSystem.Reachable s ∧ s.starts 0 = none ∧ s.next = 3 ∧
    s.nprocs = 2 ∧ (∀ pid, 3 ≤ pid → s.owners pid = none) ∧ s.owners 0 = none ∧
    s.procs 0 1 = some 0 ∧ s.procs 0 2 = some 1 ∧
    s.info 0 = ⟨0, 1, none, .exiting, false, false, AList.insert 2 1 ∅, .none⟩ ∧
    s.info 1 = ⟨0, 2, some 0, .exiting, false, false, ∅, .none⟩ := by
  have hr := @System.reachable_of_exec _ _ _ launchSystem .empty _
    [.startAlloc 0 0, .startInsert 0, .spawnAlloc 0, .spawnInsert 0, .spawnRun 0, .close 1,
      .close 0] _ rfl rfl
  refine ⟨_, hr, rfl, rfl, rfl, fun pid hp => ?_, rfl, rfl, rfl, rfl, rfl⟩
  have hp1 : pid ≠ 1 := by omega
  have hp2 : pid ≠ 2 := by omega
  exact (update_of_ne hp2 _ _).trans (update_of_ne hp1 _ _)

theorem filled_zero : ∃ s, Filled 0 s := by
  obtain ⟨s, hr, ht, hn, hp, ho, ho0, hp0, hp1, h0, h1⟩ := two_exiting
  have hfin : s.finishSection 0 = ((((s.setGone 1).forgetLocked 0 2).setChildren 0 ∅).setPhase 0
      .finished).forgetLocked 0 1 := by
    have hch : s.orphanChildren 0 = ((s.setGone 1).forgetLocked 0 2).setChildren 0 ∅ := by
      rw [PidState.orphanChildren, h0]
      show (PidState.orphanChild 0 s ⟨2, 1⟩).setChildren 0 ∅ = _
      simp [PidState.orphanChild, h1, exited]
    simp only [PidState.finishSection, hch]
    rw [if_pos (by simp [h0])]
    simp [h0]
  have hstep : launchSystem.step s (.finish 0) = some (s.finishSection 0, ()) :=
    launchSystem_step rfl (if_pos ⟨by omega, by rw [h0]⟩)
  rw [hfin] at hstep
  have hpid1 : ((s.setGone 1).forgetLocked 0 2).procs 0 1 = some 0 := by
    rw [PidState.forgetLocked_procs, if_neg (by simp)]
    exact hp0
  refine ⟨_, hr.step hstep, ?_, ?_, ?_, fun pid hpid => ?_, by omega, ?_, by omega⟩
  · rw [PidState.forgetLocked_starts]
    exact (congrFun ((s.setGone 1).forgetLocked_starts 0 2) 0).trans ht
  · rw [PidState.forgetLocked_next]
    exact ((s.setGone 1).forgetLocked_next 0 2).trans hn
  · rw [PidState.forgetLocked_nprocs]
    exact ((s.setGone 1).forgetLocked_nprocs 0 2).trans hp
  · by_cases h : pid = 1
    · rw [PidState.forgetLocked_owners, if_pos ⟨h, Option.isSome_of_eq_some hpid1⟩]
    · rw [PidState.forgetLocked_owners, if_neg (fun hh => h hh.1)]
      show ((s.setGone 1).forgetLocked 0 2).owners pid = none
      by_cases h2 : pid = 2
      · rw [PidState.forgetLocked_owners, if_pos ⟨h2, Option.isSome_of_eq_some hp1⟩]
      · rw [PidState.forgetLocked_owners, if_neg (fun hh => h2 hh.1)]
        rcases hpid with hpid | hpid
        · obtain rfl : pid = 0 := by omega
          exact ho0
        · exact ho pid hpid
  · simp [h1]

theorem filled_succ {j : ℕ} (hj : j < 2045) (h : Filled j s) : ∃ s', Filled (j + 1) s' := by
  have hnext : s.next = j + 3 := by
    rw [h.next, Nat.mod_eq_of_lt (by omega)]
  obtain ⟨s', h1, h2, h3, h4, h5, -, h7⟩ :=
    start_next h.reach h.starts (h.free _ (Or.inr (by omega)))
  rw [hnext] at h3 h5 h7
  rw [h.nprocs] at h4 h7
  refine ⟨s', h1, h2, h3, h4, fun pid hp => ?_, fun pid hp hlt => ?_, ?_, fun _ => ?_⟩
  · rw [h5, update_of_ne (by omega)]
    exact h.free pid (by omega)
  · rw [h5]
    by_cases he : pid = j + 3
    · rw [he, update_self]
      simp
    · rw [update_of_ne he]
      exact h.used pid hp (by omega)
  · rw [h7, update_of_ne (by omega)]
    exact h.orphan
  · rw [h7]
    by_cases hj0 : j = 0
    · subst hj0
      rfl
    · rw [update_of_ne (by omega)]
      exact h.first (by omega)

theorem filled {j : ℕ} (hj : j ≤ 2045) : ∃ s, Filled j s := by
  induction j with
  | zero => exact filled_zero
  | succ j ih =>
    obtain ⟨s, hs⟩ := ih (by omega)
    exact filled_succ (by omega) hs

/-- The second step of the orphan's `finish`. -/
theorem finishSection_orphan (h : s.info 1 = ⟨0, 2, some 0, .exiting, true, false, ∅, .none⟩) :
    s.finishSection 1 = ((s.setChildren 1 ∅).setPhase 1 .finished).forgetLocked 0 2 := by
  have hch : s.orphanChildren 1 = s.setChildren 1 ∅ := by
    rw [PidState.orphanChildren, h]
    rfl
  simp only [PidState.finishSection, hch]
  rw [if_pos (by simp [h])]
  simp [h]

/-- **A reused pid.** Process `0` forgets its child between the two steps of the child's `finish`;
the second step unregisters the process that then has its pid. -/
theorem pid_reused : ∃ s s', (pidSystem 0).Reachable s ∧
    (pidSystem 0).step s (.finish 1) = some (s', ()) ∧ (s.info 2048).phase = .running ∧
    (s.info 2048).parent = none ∧ s.procs (s.info 2048).kernel (s.info 2048).pid = some 2048 ∧
    s'.Live 2048 ∧ s'.procs (s'.info 2048).kernel (s'.info 2048).pid = none := by
  obtain ⟨s0, h⟩ := filled (le_refl 2045)
  have hn0 : s0.next = 1 := h.next
  obtain ⟨s1, r1, t1, n1, p1, o1, -, i1⟩ := start_next h.reach h.starts (h.free _ (by omega))
  have hn1 : s1.next = 2 := by rw [n1, hn0]
  have hf1 : s1.owners s1.next = none := by
    rw [o1, hn1, hn0, update_of_ne (by omega)]
    exact h.free 2 (by omega)
  obtain ⟨s, r, -, -, p, -, q, i⟩ := start_next r1 t1 hf1
  have hp1 : s1.nprocs = 2048 := by rw [p1, h.nprocs]
  rw [hn1, hp1] at i q
  -- the orphan and the new process
  have horph : s.info 1 = ⟨0, 2, some 0, .exiting, true, false, ∅, .none⟩ := by
    rw [i, update_of_ne (by omega), i1, update_of_ne (by rw [h.nprocs]; omega)]
    exact h.orphan
  have hnew : s.info 2048 = ⟨0, 2, none, .running, false, false, ∅, .none⟩ := by
    rw [i, update_self]
  have hlt : 1 < s.nprocs := by rw [p, hp1]; omega
  have hfin := finishSection_orphan horph
  have hinfo : (s.finishSection 1).info 2048 = s.info 2048 := by
    rw [hfin, PidState.forgetLocked_info]
    simp
  refine ⟨s, s.finishSection 1, r.of_restrict, ?_, ?_, ?_, ?_, ⟨?_, ?_⟩, ?_⟩
  · rw [pidSystem_step, pidStep, if_pos ⟨hlt, by rw [horph]⟩]
  · rw [hnew]
  · rw [hnew]
  · rw [hnew]
    exact q
  · rw [hfin, PidState.forgetLocked_nprocs]
    show 2048 < s.nprocs
    rw [p, hp1]
    omega
  · rw [hinfo, hnew]
    exact Or.inl rfl
  · rw [hinfo, hnew, hfin, PidState.forgetLocked_procs, if_pos ⟨rfl, rfl⟩]

end PgZero.Kernel
