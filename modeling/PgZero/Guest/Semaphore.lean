import PgZero.Abi
import PgZero.Kernel.Sema

/-!
# The semaphores of the Postgres port

`PGSemaphoreLock` and its kin over the kernel's semaphore table. The postmaster creates the
semaphores and leaves their ids in shared memory. A lock calls the host again after `EINTR`, so it
may take several calls, with the steps of other processes between any two of their steps.

* **`pg_semaphore_units`**: the count is `pgTally`, what the callers count.
* **`pg_semaphore_progress`**: no unit is slept through, and no call fails.
-/

set_option autoImplicit false

namespace PgZero.Guest

open Function Lib Kernel

/-- `semaTable`: the semaphores made so far, the map from ids to them and the next id. -/
structure SemaTable where
  sems : ℕ → SemaState
  made : ℕ
  ids : ℤ → Option ℕ
  next : ℤ

/-- The table at the start. -/
def SemaTable.init : SemaTable := ⟨fun _ => ⟨0, .zero, fun _ => .idle⟩, 0, fun _ => none, 1⟩

/-- `semaCreate`. -/
def SemaTable.create (t : SemaTable) (initial : ℤ) : SemaTable × ℤ :=
  (⟨update t.sems t.made ⟨initial, .zero, fun _ => .idle⟩, t.made + 1,
    update t.ids t.next (some t.made), wrap 32 (t.next + 1)⟩, t.next)

/-- The semaphore with an id. -/
def SemaTable.get (t : SemaTable) (id : ℤ) : Option ℕ := t.ids id

/-- Where a process is: in `PGSemaphoreLock` it is in the host or before its next call of it. -/
inductive PgPc
  | idle
  | lock (i : ℕ)
  | unlock (i : ℕ)
  | dead
  deriving DecidableEq, Repr

/-- What an event gives a process or the postmaster. `gave` is what the host has done in
`PGSemaphoreUnlock` before it returns. -/
inductive PgAns
  | none
  | made (i : ℕ)
  | panic
  | locked (i : ℕ)
  | tryLock (i : ℕ) (b : Bool)
  | gave (i : ℕ)
  | unlocked
  | reset (i : ℕ)
  | killed
  | fatal
  deriving DecidableEq, Repr

/-- The host calls on a semaphore. -/
inductive SemaOp
  | lock | tryLock | unlock | reset
  deriving DecidableEq, Repr

namespace SemaOp

/-- The first step of the host call. -/
def act : SemaOp → SemaAct
  | lock => .semaLock
  | tryLock => .tryLockCall
  | unlock => .unlock
  | reset => .reset

/-- The later steps of the host call. -/
def later : SemaOp → SemaAct → Bool
  | lock, .wait | lock, .tryLock | lock, .woken | lock, .interrupted | lock, .killed => true
  | unlock, .notify => true
  | _, _ => false

/-- What the call makes of a result of the host: `EINTR` sends `PGSemaphoreLock` round its loop. -/
@[simp] def done (i : ℕ) : SemaOp → Except Errno ℤ → PgPc × PgAns
  | lock, .ok _ => (.idle, .locked i)
  | lock, .error .EINTR => (.lock i, .none)
  | tryLock, .ok _ => (.idle, .tryLock i true)
  | tryLock, .error .EAGAIN => (.idle, .tryLock i false)
  | unlock, .ok _ => (.idle, .unlocked)
  | reset, .ok _ => (.idle, .reset i)
  | _, .error _ => (.dead, .fatal)

/-- The process after a step of the host. -/
@[simp] def after (c : SemaOp) (i : ℕ) : SemaAns → PgPc × PgAns
  | .none => if c = unlock then (.unlock i, .gave i) else (.lock i, .none)
  | .killed => (.dead, .killed)
  | .locked | .unlocked | .reset => c.done i (.ok 0)
  | .again => c.done i (.error .EAGAIN)
  | .eintr => c.done i (.error .EINTR)

end SemaOp

/-- The kernel's table, the ids in `sharedSemas`, the postmaster's variables and the processes. A
semaphore is named by its place in `semas`, which is not cut when the postmaster reserves the
array again after a crash: the processes of before are gone. -/
structure PgSemas where
  table : SemaTable
  semas : List ℤ
  numSems : ℤ
  maxSems : ℤ
  panicked : Bool
  pc : ℕ → PgPc

/-- The events: the postmaster's calls; a call of a process, the loop's next host call and a
further step of the one it is in. A process that ends outside the host has no further event. -/
inductive PgEvent
  | reserve (maxSemas : ℤ)
  | create
  | op (p i : ℕ) (c : SemaOp)
  | retry (p : ℕ)
  | resume (p : ℕ) (a : SemaAct)

/-- The events of a run. -/
abbrev PgTrace := List (PgEvent × PgAns)

namespace PgSemas

/-- Nothing is reserved. -/
def init : PgSemas := ⟨.init, [], 0, 0, false, fun _ => .idle⟩

/-- `PGSemaphoreCreate`. -/
def semaphoreCreate (s : PgSemas) : PgSemas × PgAns :=
  if s.maxSems ≤ s.numSems then ({ s with panicked := true }, .panic)
  else
    let (table, id) := s.table.create 1
    if id < 0 then ({ s with table, panicked := true }, .panic)
    else ({ s with table, semas := s.semas ++ [id], numSems := s.numSems + 1 },
      .made s.semas.length)

/-- The kernel's semaphore behind semaphore `i`, by the id that is read in shared memory. -/
def sema (s : PgSemas) (i : ℕ) : Option ℕ := s.semas[i]?.bind s.table.get

/-- The process `p` goes on. -/
@[simp] def setPc (s : PgSemas) (p : ℕ) (y : PgPc × PgAns) : PgSemas × PgAns :=
  ({ s with pc := update s.pc p y.1 }, y.2)

/-- A step in the host of process `p`, in a call of semaphore `i`. -/
def host (s : PgSemas) (c : SemaOp) (p i : ℕ) (a : SemaAct) : Option (PgSemas × PgAns) :=
  if i < s.semas.length then
    match s.sema i with
    | none => some (s.setPc p (c.done i (.error .EINVAL)))
    | some o => (semaStep (s.table.sems o) (p, a)).map fun (x, ans) =>
        { s with table := { s.table with sems := update s.table.sems o x } }.setPc p
          (c.after i ans)
  else none

/-- One event of the postmaster or of a process. -/
def step (s : PgSemas) : PgEvent → Option (PgSemas × PgAns)
  -- `PGReserveSemaphores`
  | .reserve maxSemas => some ({ s with numSems := 0, maxSems := maxSemas }, .none)
  | .create => if s.panicked then none else some s.semaphoreCreate
  | .op p i c => if s.pc p = .idle then s.host c p i c.act else none
  | .retry p =>
    match s.pc p with
    | .lock i => s.host .lock p i .semaLock
    | _ => none
  | .resume p a =>
    match s.pc p with
    | .lock i => if SemaOp.lock.later a then s.host .lock p i a else none
    | .unlock i => if SemaOp.unlock.later a then s.host .unlock p i a else none
    | _ => none

/-- The count of semaphore `i`. -/
def units (s : PgSemas) (i : ℕ) : ℤ := ((s.sema i).map fun o => (s.table.sems o).count).getD 0

end PgSemas

/-- The postmaster and the processes. -/
def pgSemaSystem : System PgSemas PgEvent PgAns where
  init s := s = .init
  step := PgSemas.step

/-- No unlock meets the largest count. -/
def UnitsBelow (s : PgSemas) : PgEvent → Prop
  | .op _ i .unlock => s.units i + 1 < 2 ^ 31
  | _ => True

instance (s : PgSemas) (e : PgEvent) : Decidable (UnitsBelow s e) := by
  unfold UnitsBelow
  split <;> infer_instance

/-- The units of semaphore `i`, as its callers count them: one when it is made, none after a
reset, one more when it is unlocked and one less when a lock returns. -/
def pgNext (i : ℕ) (t : Tally) : PgAns → Tally
  | .made j => if j = i then ⟨1, 0, 0⟩ else t
  | .locked j | .tryLock j true => if j = i then { t with locks := t.locks + 1 } else t
  | .gave j => if j = i then { t with unlocks := t.unlocks + 1 } else t
  | .reset j => if j = i then ⟨0, 0, 0⟩ else t
  | _ => t

/-- What the callers have counted. -/
def pgTally (i : ℕ) (tr : PgTrace) : Tally :=
  tr.foldl (fun t x => pgNext i t x.2) ⟨0, 0, 0⟩

theorem pgTally_snoc (i : ℕ) (tr : PgTrace) (x : PgEvent × PgAns) :
    pgTally i (tr ++ [x]) = pgNext i (pgTally i tr) x.2 := by
  simp [pgTally]

/-- How the place of a process in semaphore `i` of the kernel fits its place in the port. -/
@[simp] def Fits (i : ℕ) (y : PgPc) : SemaPc → Prop
  | .idle => y ≠ .unlock i
  | .posting => y = .unlock i
  | _ => y = .lock i

theorem semaStep_pc_ne {s x : SemaState} {p q : ℕ} {a : SemaAct} {ans : SemaAns}
    (h : semaStep s (p, a) = some (x, ans)) (hq : q ≠ p) : x.pc q = s.pc q := by
  cases a <;> cases hpc : s.pc p <;> simp only [semaStep, hpc, reduceCtorEq] at h
  case tryLock.taken c | woken.parked c =>
    split_ifs at h <;> cases h <;> simp [SemaState.goto, hq]
  all_goals
    cases h
    simp [SemaState.goto, hq]

/-- What the port makes of a step counts as the step does, and fits where it leads. -/
structure AfterOk (i : ℕ) (e : (ℕ × SemaAct) × SemaAns) (y : PgPc × PgAns) (pc : SemaPc) :
    Prop where
  self : ∀ t, pgNext i t y.2 = t.next e
  ne : ∀ j t, i ≠ j → pgNext j t y.2 = t
  fatal : y.2 ≠ .fatal
  fits : Fits i y.1 pc
  other : ∀ j, i ≠ j → y.1 ≠ .lock j ∧ y.1 ≠ .unlock j

theorem after_ok {s x : SemaState} {p i : ℕ} {a : SemaAct} {ans : SemaAns} {c : SemaOp}
    (h : semaStep s (p, a) = some (x, ans)) (hc : a = c.act ∨ c.later a = true) :
    AfterOk i ((p, a), ans) (c.after i ans) (x.pc p) := by
  cases c <;> cases a <;> simp only [SemaOp.act, SemaOp.later, reduceCtorEq, or_false, or_true,
    Bool.false_eq_true] at hc <;> cases hpc : s.pc p <;>
    simp only [semaStep, hpc, reduceCtorEq] at h
  case lock.tryLock.taken c | lock.woken.parked c =>
    split_ifs at h <;> cases h <;> constructor <;> intros <;>
      simp_all [pgNext, Tally.next, SemaState.goto]
  case tryLock.tryLockCall.idle =>
    cases h
    dsimp only
    split_ifs <;> constructor <;> intros <;> simp_all [pgNext, Tally.next]
  all_goals
    cases h
    constructor <;> intros <;> simp_all [pgNext, Tally.next, SemaState.goto]

theorem Fits.idle {o : ℕ} {y : PgPc} {pc : SemaPc} (h : Fits o y pc)
    (hy : y ≠ .lock o ∧ y ≠ .unlock o) : pc = .idle := by
  cases pc <;> simp_all

/-- The invariant of a run with trace `tr`: semaphore `i` has id `i + 1`, and no id is reused while
the postmaster has not failed to create one. -/
structure PgInv (tr : PgTrace) (s : PgSemas) : Prop where
  ids : ∀ i < s.semas.length, s.semas[i]? = some (i + 1 : ℤ) ∧ s.table.ids (i + 1) = some i
  fresh : s.panicked = false → s.table.made = s.semas.length ∧
    s.table.next = wrap 32 (s.table.made + 1) ∧ s.table.made + 1 ≤ 2 ^ 31
  units : ∀ i < s.semas.length, SemaInv (pgTally i tr) (s.table.sems i)
  fits : ∀ p o, Fits o (s.pc p) ((s.table.sems o).pc p)
  named : ∀ p i, s.pc p = .lock i ∨ s.pc p = .unlock i → i < s.semas.length
  noFatal : .fatal ∉ tr.map Prod.snd

namespace PgInv

variable {tr : PgTrace} {s : PgSemas}

theorem sema_eq (h : PgInv tr s) {i : ℕ} (hi : i < s.semas.length) : s.sema i = some i := by
  obtain ⟨hid, hget⟩ := h.ids i hi
  simp [PgSemas.sema, hid, SemaTable.get, hget]

theorem units_eq (h : PgInv tr s) {i : ℕ} (hi : i < s.semas.length) :
    s.units i = (s.table.sems i).count := by
  simp [PgSemas.units, h.sema_eq hi]

/-- **A step in the host keeps the invariant.** -/
theorem host (h : PgInv tr s) {c : SemaOp} {p i : ℕ} {a : SemaAct} {r : PgSemas × PgAns}
    (hc : a = c.act ∨ c.later a = true)
    (hp : ∀ o, i ≠ o → s.pc p ≠ .lock o ∧ s.pc p ≠ .unlock o)
    (hb : a = .unlock → s.units i + 1 < 2 ^ 31) (hr : s.host c p i a = some r) (e : PgEvent) :
    PgInv (tr ++ [(e, r.2)]) r.1 := by
  unfold PgSemas.host at hr
  split_ifs at hr with hi
  rw [h.sema_eq hi] at hr
  obtain ⟨⟨x, ans⟩, hs, rfl⟩ := Option.map_eq_some_iff.mp hr
  have ho := after_ok (i := i) hs hc
  dsimp only
  generalize c.after i ans = y at ho ⊢
  have hb : CountBelow (s.table.sems i) (p, a) := fun ha => h.units_eq hi ▸ hb ha
  refine ⟨h.ids, h.fresh, fun j hj => ?_, fun q o => ?_, fun q j hq => ?_,
    by simpa [ho.fatal.symm] using h.noFatal⟩
  · rw [pgTally_snoc]
    by_cases hij : i = j
    · subst hij
      simpa [ho.self] using semaStep_inv (h.units i hj) hb hs
    · simpa [ho.ne j _ hij, Ne.symm hij] using h.units j hj
  · by_cases hqp : q = p <;> by_cases hio : i = o
    · subst hqp hio
      simpa using ho.fits
    · subst hqp
      have hidle := (h.fits q o).idle (hp o hio)
      simpa [Ne.symm hio, hidle] using (ho.other o hio).2
    · subst hio
      simpa [hqp, semaStep_pc_ne hs hqp] using h.fits q i
    · simpa [hqp, Ne.symm hio] using h.fits q o
  · by_cases hqp : q = p
    · subst hqp
      by_cases hij : i = j
      · exact hij ▸ hi
      · simp [ho.other j hij] at hq
    · exact h.named q j (by simpa [hqp] using hq)

theorem fits_create (h : PgInv tr s) (hmade : s.table.made = s.semas.length) (q o : ℕ) :
    Fits o (s.pc q) (((s.table.create 1).1.sems o).pc q) := by
  by_cases ho : o = s.table.made
  · have hq : s.pc q ≠ .unlock o := fun hq => by
      have := h.named q o (.inr hq)
      omega
    simpa [SemaTable.create, ho] using ho ▸ hq
  · simpa [SemaTable.create, ho] using h.fits q o

theorem create (h : PgInv tr s) (hp : s.panicked = false) :
    PgInv (tr ++ [(.create, s.semaphoreCreate.2)]) s.semaphoreCreate.1 := by
  obtain ⟨hmade, hnext, hle⟩ := h.fresh hp
  have hunits : ∀ i < s.semas.length, ∀ o, (∀ t, pgNext i t o = t) →
      SemaInv (pgTally i (tr ++ [(.create, o)])) ((s.table.create 1).1.sems i) := by
    intro i hi o ho
    rw [pgTally_snoc, ho]
    simpa [SemaTable.create, show i ≠ s.table.made by omega] using h.units i hi
  have hids : ∀ i < s.semas.length, s.table.next ≠ i + 1 →
      (s.table.create 1).1.ids (i + 1) = some i := fun i hi hne => by
    rw [← (h.ids i hi).2]
    exact update_of_ne hne.symm _ _
  unfold PgSemas.semaphoreCreate
  rw [show s.table.create 1 = ((s.table.create 1).1, s.table.next) from rfl]
  by_cases hfull : s.maxSems ≤ s.numSems
  · rw [if_pos hfull]
    refine ⟨h.ids, by simp, fun i hi => ?_, h.fits, h.named, by simpa using h.noFatal⟩
    rw [pgTally_snoc]
    exact h.units i hi
  rw [if_neg hfull]
  dsimp only
  by_cases hneg : s.table.next < 0
  · rw [if_pos hneg]
    exact ⟨fun i hi => ⟨(h.ids i hi).1, hids i hi (by omega)⟩, by simp, fun i hi =>
      hunits i hi _ fun _ => rfl, h.fits_create hmade, h.named, by simpa using h.noFatal⟩
  rw [if_neg hneg]
  -- the id after the last one would be negative
  have hlt : s.table.made + 1 < 2 ^ 31 := by
    rcases Nat.lt_or_eq_of_le hle with hlt | heq
    · exact hlt
    · rw [show ((s.table.made : ℤ) + 1) = 2 ^ 31 by exact_mod_cast heq] at hnext
      exact absurd (hnext ▸ hneg) (by decide)
  rw [wrap32_eq (by omega) (by omega)] at hnext
  refine ⟨fun i hi => ?_, fun _ => ⟨?_, ?_, hlt⟩, fun i hi => ?_, h.fits_create hmade,
    fun q i hq => ?_, by simpa using h.noFatal⟩
  · rcases Nat.lt_succ_iff_lt_or_eq.mp (by simpa using hi) with hi | rfl
    · exact ⟨by simpa [List.getElem?_append_left hi] using (h.ids i hi).1,
        hids i hi (by omega)⟩
    · refine ⟨by simp [hnext, hmade], ?_⟩
      rw [show ((s.semas.length : ℤ) + 1) = s.table.next by omega, ← hmade]
      exact update_self _ _ _
  · simp [SemaTable.create, hmade]
  · simp [SemaTable.create, hnext]
  · rcases Nat.lt_succ_iff_lt_or_eq.mp (by simpa using hi) with hi | rfl
    · exact hunits i hi _ fun t => by simp [pgNext, show s.semas.length ≠ i by omega]
    · rw [pgTally_snoc, show (s.table.create 1).1.sems s.semas.length =
        ⟨1, .zero, fun _ => .idle⟩ by simp [SemaTable.create, hmade]]
      exact ⟨by simp, by simp, by simp [pgNext, Tally.count], by simp, by simp⟩
  · exact (h.named q i hq).trans (by simp)

theorem step (h : PgInv tr s) {e : PgEvent} (he : UnitsBelow s e) {r : PgSemas × PgAns}
    (hs : s.step e = some r) : PgInv (tr ++ [(e, r.2)]) r.1 := by
  cases e with
  | reserve m =>
    cases hs
    refine ⟨h.ids, h.fresh, fun i hi => ?_, h.fits, h.named, by simpa using h.noFatal⟩
    rw [pgTally_snoc]
    exact h.units i hi
  | create =>
    simp only [PgSemas.step] at hs
    split_ifs at hs with hp
    exact Option.some.inj hs ▸ h.create (by simpa using hp)
  | op p i c =>
    simp only [PgSemas.step] at hs
    split_ifs at hs with hp
    refine h.host (.inl rfl) (by simp [hp]) (fun hc => ?_) hs _
    cases c <;> first | exact he | simp [SemaOp.act] at hc
  | retry p =>
    cases hp : s.pc p <;> simp only [PgSemas.step, hp, reduceCtorEq] at hs
    exact h.host (.inl rfl) (by simp [hp]) (by simp [SemaOp.act]) hs _
  | resume p a =>
    cases hp : s.pc p <;> simp only [PgSemas.step, hp, reduceCtorEq] at hs
    all_goals
      split_ifs at hs with ha
      refine h.host (.inr ha) (by simp [hp]) ?_ hs _
      rintro rfl
      simp [SemaOp.later] at ha

theorem of_run (h : (pgSemaSystem.restrict UnitsBelow).Run .init tr s) : PgInv tr s := by
  refine h.history (P := PgInv) ?_ ?_
  · intro tr s e s' o hi hs
    obtain ⟨he, hs⟩ := System.restrict_step.mp hs
    exact hi.step he hs
  · exact ⟨by simp [PgSemas.init], fun _ => ⟨rfl, by decide, by decide⟩,
      by simp [PgSemas.init], fun p o => by simp [PgSemas.init, SemaTable.init],
      by simp [PgSemas.init], by simp⟩

end PgInv

/-- **The units of a semaphore** are the callers' tally: a lock counts once, when it returns, and
one that was killed not at all. -/
theorem pg_semaphore_units {tr : PgTrace} {s : PgSemas}
    (h : (pgSemaSystem.restrict UnitsBelow).Run .init tr s) {i : ℕ} (hi : i < s.semas.length) :
    (s.sema i).isSome ∧ 0 ≤ s.units i ∧
      s.units i = (pgTally i tr).base + (pgTally i tr).unlocks - (pgTally i tr).locks ∧
      (pgTally i tr).locks ≤ (pgTally i tr).base + (pgTally i tr).unlocks := by
  have hinv := PgInv.of_run h
  have hu := hinv.units i hi
  have hc : (s.table.sems i).count = _ := hu.count_eq
  have hpos := hu.nonneg
  rw [hinv.units_eq hi]
  refine ⟨by simp [hinv.sema_eq hi], hpos, hc, ?_⟩
  simp only [Tally.count] at hc
  omega

/-- Two processes compete for a semaphore; the second lock is interrupted and made again. -/
theorem pg_semaphore_units_interrupted : ∃ tr s,
    (pgSemaSystem.restrict UnitsBelow).Run .init tr s ∧ s.pc 1 = .lock 0 ∧ s.units 0 = 0 ∧
      (pgTally 0 tr).locks ≤ 1 := by
  have hr := @System.exec_run _ _ _ (pgSemaSystem.restrict UnitsBelow) .init
    [.reserve 1, .create, .op 0 0 .lock, .resume 0 .wait, .resume 0 .tryLock, .op 1 0 .lock,
      .resume 1 .wait, .resume 1 .tryLock, .resume 1 .interrupted, .retry 1] _ _ rfl
  obtain ⟨-, -, -, hle⟩ := pg_semaphore_units hr (i := 0) (by decide)
  exact ⟨_, _, hr, rfl, by decide, hle⟩

/-- **A unit is never slept through**, and no call fails. -/
theorem pg_semaphore_progress {tr : PgTrace} {s : PgSemas}
    (h : (pgSemaSystem.restrict UnitsBelow).Run .init tr s) :
    .fatal ∉ tr.map Prod.snd ∧ ∀ p i, s.pc p = .lock i → 0 < s.units i →
      (∀ q, s.pc q ≠ .unlock i) →
        ∃ e ∈ [PgEvent.retry p, .resume p .wait, .resume p .tryLock, .resume p .woken],
          (s.step e).isSome := by
  have hinv := PgInv.of_run h
  refine ⟨hinv.noFatal, fun p i hp hpos hq => ?_⟩
  have hi := hinv.named p i (.inl hp)
  have hu := hinv.units i hi
  rw [hinv.units_eq hi] at hpos
  have hstep : ∀ c a, (s.host c p i a).isSome = (semaStep (s.table.sems i) (p, a)).isSome := by
    intro c a
    rw [PgSemas.host, if_pos hi, hinv.sema_eq hi]
    exact Option.isSome_map
  cases hpc : (s.table.sems i).pc p with
  | idle => exact ⟨.retry p, by simp, by simp [PgSemas.step, hp, hstep, semaStep, hpc]⟩
  | head =>
    exact ⟨.resume p .wait, by simp, by simp [PgSemas.step, hp, SemaOp.later, hstep, semaStep, hpc]⟩
  | taken c =>
    refine ⟨.resume p .tryLock, by simp, ?_⟩
    simp only [PgSemas.step, hp, SemaOp.later, if_true, hstep, semaStep, hpc]
    split_ifs <;> rfl
  | parked c =>
    -- nobody is about to close the channel, so it is closed already
    have hclosed : (s.table.sems i).n.closed c := by
      by_contra hopen
      have hno : ¬ (s.table.sems i).Posting := by
        rintro ⟨q, hpost⟩
        exact hq q (by simpa [hpost] using hinv.fits q i)
      have := (hu.parked p c hpc).asleep hopen hno
      omega
    refine ⟨.resume p .woken, by simp, ?_⟩
    simp [PgSemas.step, hp, SemaOp.later, hstep, semaStep, hpc, hclosed]
  | posting =>
    have := hinv.fits p i
    simp [hpc, hp] at this

/-- A process sleeps in `PGSemaphoreLock`, and the holder's unlock has returned. -/
theorem pg_semaphore_progress_woken : ∃ tr s,
    (pgSemaSystem.restrict UnitsBelow).Run .init tr s ∧
      ∃ e ∈ [PgEvent.retry 1, .resume 1 .wait, .resume 1 .tryLock, .resume 1 .woken],
        (s.step e).isSome := by
  have hr := @System.exec_run _ _ _ (pgSemaSystem.restrict UnitsBelow) .init
    [.reserve 1, .create, .op 0 0 .tryLock, .op 1 0 .lock, .resume 1 .wait, .resume 1 .tryLock,
      .op 0 0 .unlock, .resume 0 .notify] _ _ rfl
  refine ⟨_, _, hr, (pg_semaphore_progress hr).2 1 0 rfl (by decide) fun q => ?_⟩
  rcases q with _ | _ | q <;> nofun

end PgZero.Guest
