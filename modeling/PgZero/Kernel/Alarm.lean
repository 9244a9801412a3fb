import PgZero.Lib.System

/-!
# The interval timer

`setAlarm`, `stop` and the callback of a timer each run one section under `alarmState.mu`. A timer
that has expired runs its callback in a goroutine of its own, which `Stop` no longer reaches: the
callback waits for the mutex, decides from the shared fields what to do, and then signals.

* **`alarm_single`**: the runs that meet it have one armed timer, and a disarmed one stays silent.
* **`alarm_forgotten`**: a run that does not.
-/

set_option autoImplicit false

namespace PgZero.Kernel

open Function Lib Option System

/-- A timer made by `time.AfterFunc`. -/
inductive TimerPhase
  | armed
  | stopped
  /-- its callback waits for the mutex -/
  | expired
  /-- its callback has left the section and is about to signal -/
  | signalling
  | done
  deriving DecidableEq, Repr

/-- `alarmState`, with all timers ever made. -/
structure AlarmState where
  timer : Option ℕ
  deadline : ℤ
  interval : ℤ
  timers : ℕ → TimerPhase
  ntimers : ℕ

/-- The sections, each with what it reads from the clock. -/
inductive AlarmAct
  | setAlarm (value interval now : ℤ)
  | stop
  /-- the runtime starts the callback of timer `t` -/
  | expire (t : ℕ)
  /-- the section of the callback -/
  | fire (t : ℕ) (now : ℤ)
  | signal (t : ℕ)
  deriving DecidableEq, Repr

/-- What a section returns. -/
inductive AlarmAns
  | done
  | remaining (r : ℤ)
  | sigalrm
  deriving DecidableEq, Repr

variable {s' s : AlarmState} {a : AlarmAct} {o : AlarmAns}

namespace AlarmState

/-- The timer `t` goes on. -/
def setPhase (s : AlarmState) (t : ℕ) (x : TimerPhase) : AlarmState :=
  { s with timers := update s.timers t x }

/-- `timer.Stop()`, which does nothing to a timer that has expired. -/
def stopTimer (s : AlarmState) (t : ℕ) : AlarmState :=
  if s.timers t = .armed then s.setPhase t .stopped else s

/-- `a.timer = time.AfterFunc(…)` -/
def afterFunc (s : AlarmState) : AlarmState :=
  { s.setPhase s.ntimers .armed with timer := some s.ntimers, ntimers := s.ntimers + 1 }

/-- `alarmState.stop`. -/
def stop (s : AlarmState) : AlarmState :=
  match s.timer with
  | some t => { s.stopTimer t with timer := none }
  | none => s

/-- The time left on the previous timer. -/
def remaining (s : AlarmState) (now : ℤ) : ℤ :=
  if s.timer ≠ none ∧ 0 < s.deadline - now then s.deadline - now else 0

/-- `setAlarm`. -/
def setAlarm (s : AlarmState) (value interval now : ℤ) : AlarmState :=
  if value ≤ 0 then s.stop
  else { s.stop.afterFunc with interval := interval, deadline := now + value }

/-- The section of the callback `fire`. -/
def fire (s : AlarmState) (now : ℤ) : AlarmState :=
  if 0 < s.interval ∧ s.timer ≠ none then { s.afterFunc with deadline := now + s.interval }
  else { s with timer := none }

end AlarmState

/-- One section, or a timer that expires. -/
def alarmStep (s : AlarmState) : AlarmAct → Option (AlarmState × AlarmAns)
  | .setAlarm value interval now =>
    some (s.setAlarm value interval now, .remaining (s.remaining now))
  | .stop => some (s.stop, .done)
  | .expire t =>
    if t < s.ntimers ∧ s.timers t = .armed then some (s.setPhase t .expired, .done) else none
  | .fire t now =>
    if t < s.ntimers ∧ s.timers t = .expired then
      some ((s.setPhase t .signalling).fire now, .done)
    else none
  | .signal t =>
    if t < s.ntimers ∧ s.timers t = .signalling then some (s.setPhase t .done, .sigalrm) else none

/-- The timers of a process. -/
def alarmSystem : System AlarmState AlarmAct AlarmAns where
  init s := s = ⟨none, 0, 0, fun _ => .stopped, 0⟩
  step := alarmStep

/-- The call starts a timer. -/
def AlarmAct.arms : AlarmAct → Bool
  | .setAlarm value _ _ => 0 < value
  | _ => false

/-- The call stops the timer. -/
def AlarmAct.disarms : AlarmAct → Bool
  | .setAlarm value _ _ => value ≤ 0
  | .stop => true
  | _ => false

/-- An arming finds no callback that waits for the mutex. -/
def NoneExpired (s : AlarmState) (a : AlarmAct) : Prop :=
  a.arms → ∀ t < s.ntimers, s.timers t ≠ .expired

instance (s : AlarmState) (a : AlarmAct) : Decidable (NoneExpired s a) :=
  inferInstanceAs (Decidable (_ → _))

/-- No callback waits for the mutex or is about to signal. -/
def AlarmState.Drained (s : AlarmState) : Prop :=
  ∀ t < s.ntimers, s.timers t ≠ .expired ∧ s.timers t ≠ .signalling

/-- At most one timer is armed, and the field refers to it. -/
structure AlarmState.Single (s : AlarmState) : Prop where
  one : ∀ t t', s.timers t = .armed → s.timers t' = .armed → t = t'
  field : ∀ t, s.timers t = .armed → s.timer = some t

/-! ### Armed timers and pending callbacks -/

namespace AlarmState

/-- The timer is armed, or its callback waits for the mutex. -/
def Live (s : AlarmState) (t : ℕ) : Prop := s.timers t = .armed ∨ s.timers t = .expired

/-- At most one timer is live, and it is the one in the field. -/
structure Inv (s : AlarmState) : Prop where
  one : ∀ t t', s.Live t → s.Live t' → t = t'
  field : ∀ t, s.timers t = .armed → s.timer = some t
  made : ∀ t, s.Live t → t < s.ntimers

theorem Inv.single (h : s.Inv) : s.Single where
  one t t' h1 h2 := h.one t t' (.inl h1) (.inl h2)
  field := h.field

theorem Inv.of_less (h : s.Inv) (hl : ∀ t, s'.Live t → s.Live t)
    (ha : ∀ t, s'.timers t = .armed → s'.timer = some t) (hn : s'.ntimers = s.ntimers) :
    s'.Inv where
  one t t' h1 h2 := h.one t t' (hl t h1) (hl t' h2)
  field := ha
  made t h1 := by
    rw [hn]
    exact h.made t (hl t h1)

theorem setPhase_armed {t u : ℕ} {x : TimerPhase} (hx : x ≠ .armed)
    (h : (s.setPhase t x).timers u = .armed) : u ≠ t ∧ s.timers u = .armed := by
  by_cases hu : u = t
  · subst hu
    exact absurd ((update_self ..).symm.trans h) hx
  · exact ⟨hu, (update_of_ne hu ..).symm.trans h⟩

theorem setPhase_live {t u : ℕ} {x : TimerPhase} (hx : x ≠ .armed)
    (hx' : x ≠ .expired) (h : (s.setPhase t x).Live u) : u ≠ t ∧ s.Live u := by
  by_cases hu : u = t
  · subst hu
    rcases h with h | h
    · exact absurd ((update_self ..).symm.trans h) hx
    · exact absurd ((update_self ..).symm.trans h) hx'
  · have he : (s.setPhase t x).timers u = s.timers u := update_of_ne hu ..
    rw [Live, he] at h
    exact ⟨hu, h⟩

theorem stop_timer (s : AlarmState) : s.stop.timer = none := by
  unfold stop
  split
  · rfl
  · assumption

theorem stop_ntimers (s : AlarmState) : s.stop.ntimers = s.ntimers := by
  unfold stop stopTimer
  split
  · split <;> rfl
  · rfl

theorem stop_live (h : s.Inv) {t : ℕ} (ht : s.stop.Live t) :
    s.timers t = .expired ∧ s.stop.timers t = .expired := by
  have hf := h.field t
  rcases hs : s.timer with _ | u
  · have he : s.stop = s := by
      unfold stop
      rw [hs]
    rw [he] at ht ⊢
    rcases ht with ha | hx
    · exact absurd ((hf ha).symm.trans hs) (by simp)
    · exact ⟨hx, hx⟩
  · have he : s.stop = { s.stopTimer u with timer := none } := by
      unfold stop
      rw [hs]
    by_cases hu : s.timers u = .armed
    · have he' : s.stop.timers = (s.setPhase u .stopped).timers := by
        rw [he, stopTimer, if_pos hu]
      rw [Live, he'] at ht
      rw [he']
      obtain ⟨hne, hl⟩ := setPhase_live (by decide) (by decide) ht
      have hx : s.timers t = .expired := by
        rcases hl with ha | hx
        · exact absurd (Option.some.inj ((hf ha).symm.trans hs)) hne
        · exact hx
      exact ⟨hx, (update_of_ne hne ..).trans hx⟩
    · have he' : s.stop.timers = s.timers := by
        rw [he, stopTimer, if_neg hu]
      rw [Live, he'] at ht
      rw [he']
      rcases ht with ha | hx
      · have htu : t = u := Option.some.inj ((hf ha).symm.trans hs)
        exact absurd (htu ▸ ha) hu
      · exact ⟨hx, hx⟩

theorem stop_not_armed (h : s.Inv) (t : ℕ) : s.stop.timers t ≠ .armed := by
  intro ha
  have hx := (stop_live h (.inl ha)).2
  rw [ha] at hx
  exact TimerPhase.noConfusion hx

theorem Inv.stop (h : s.Inv) : s.stop.Inv := by
  apply h.of_less
  · intro t ht
    exact .inr (stop_live h ht).1
  · intro t ht
    exact absurd ht (stop_not_armed h t)
  · exact stop_ntimers s

theorem Inv.afterFunc (h : ∀ t, ¬ s.Live t) : s.afterFunc.Inv := by
  have hl : ∀ t, s.afterFunc.Live t → t = s.ntimers := by
    intro t ht
    by_contra hne
    have he : s.afterFunc.timers t = s.timers t := update_of_ne hne ..
    rw [Live, he] at ht
    exact h t ht
  refine ⟨?_, ?_, ?_⟩
  · intro t t' h1 h2
    exact (hl t h1).trans (hl t' h2).symm
  · intro t ht
    exact congrArg some (hl t (.inl ht)).symm
  · intro t ht
    exact (hl t ht).trans_lt (Nat.lt_succ_self _)

theorem Inv.congr (h : s.Inv) (ht : s'.timers = s.timers)
    (hf : s'.timer = s.timer) (hn : s'.ntimers = s.ntimers) : s'.Inv := by
  apply h.of_less
  · intro t hl
    rwa [Live, ht] at hl
  · intro t ha
    rw [ht] at ha
    rw [hf]
    exact h.field t ha
  · exact hn

theorem Inv.setAlarm (h : s.Inv) {value interval now : ℤ}
    (hc : NoneExpired s (.setAlarm value interval now)) : (s.setAlarm value interval now).Inv := by
  unfold AlarmState.setAlarm
  by_cases hv : value ≤ 0
  · rw [if_pos hv]
    exact h.stop
  · rw [if_neg hv]
    have hx : ∀ t < s.ntimers, s.timers t ≠ .expired := hc (by simpa [AlarmAct.arms] using hv)
    have hn : ∀ t, ¬ s.stop.Live t := by
      intro t ht
      have he := (stop_live h ht).1
      exact hx t (h.made t (.inr he)) he
    exact (Inv.afterFunc hn).congr rfl rfl rfl

theorem Inv.expire (h : s.Inv) {t : ℕ} (ht : s.timers t = .armed) :
    (s.setPhase t .expired).Inv := by
  apply h.of_less
  · intro u hu
    by_cases he : u = t
    · subst he
      exact .inl ht
    · have hs : (s.setPhase t .expired).timers u = s.timers u := update_of_ne he ..
      rwa [Live, hs] at hu
  · intro u hu
    exact h.field u (setPhase_armed (by decide) hu).2
  · rfl

theorem Inv.signalling (h : s.Inv) {t : ℕ} (ht : s.timers t = .expired) (u : ℕ) :
    ¬ (s.setPhase t .signalling).Live u := by
  intro hu
  obtain ⟨hne, hl⟩ := setPhase_live (by decide) (by decide) hu
  exact hne (h.one u t hl (.inr ht))

/-- The callback that holds the mutex was the only live timer, so the one it makes is. -/
theorem Inv.fire (h : s.Inv) {t : ℕ} (ht : s.timers t = .expired) (now : ℤ) :
    ((s.setPhase t .signalling).fire now).Inv := by
  have hn := h.signalling ht
  unfold AlarmState.fire
  split
  · exact (Inv.afterFunc hn).congr rfl rfl rfl
  · apply h.of_less
    · intro u hu
      exact absurd hu (hn u)
    · intro u hu
      exact absurd (.inl hu) (hn u)
    · rfl

theorem Inv.signal (h : s.Inv) (t : ℕ) : (s.setPhase t .done).Inv := by
  apply h.of_less
  · intro u hu
    exact (setPhase_live (by decide) (by decide) hu).2
  · intro u hu
    exact h.field u (setPhase_armed (by decide) hu).2
  · rfl

end AlarmState

open AlarmState

theorem alarmInv_step (h : s.Inv)
    (hs : (alarmSystem.restrict NoneExpired).step s a = some (s', o)) : s'.Inv := by
  obtain ⟨hc, hs⟩ := restrict_step.mp hs
  cases a with
  | setAlarm value interval now =>
    cases hs
    exact h.setAlarm hc
  | stop =>
    cases hs
    exact h.stop
  | expire t =>
    obtain ⟨⟨_, ht⟩, hs⟩ := ite_none_right_eq_some.mp hs
    cases hs
    exact h.expire ht
  | fire t now =>
    obtain ⟨⟨_, ht⟩, hs⟩ := ite_none_right_eq_some.mp hs
    cases hs
    exact h.fire ht now
  | signal t =>
    obtain ⟨_, hs⟩ := ite_none_right_eq_some.mp hs
    cases hs
    exact h.signal t

theorem alarmInv_init (h : alarmSystem.init s) : s.Inv := by
  subst h
  refine ⟨?_, ?_, ?_⟩ <;> simp [Live]

theorem alarmInv_reachable
    (h : (alarmSystem.restrict NoneExpired).Reachable s) : s.Inv := by
  apply h.invariant
  · intro s0 h0
    exact alarmInv_init h0
  · intro s1 a s2 o hi hs
    exact alarmInv_step hi hs

/-! ### A disarmed timer -/

/-- No timer is armed and the field is nil, so that no callback arms one. -/
structure AlarmState.Off (s : AlarmState) : Prop where
  field : s.timer = none
  armed : ∀ t, s.timers t ≠ .armed

theorem off_of_disarm (h : s.Inv)
    (ha : a.disarms) (hs : alarmSystem.step s a = some (s', o)) : s'.Off := by
  have hoff : s.stop.Off := ⟨stop_timer s, stop_not_armed h⟩
  cases a with
  | setAlarm value interval now =>
    cases hs
    have hv : value ≤ 0 := by simpa [AlarmAct.disarms] using ha
    unfold AlarmState.setAlarm
    rw [if_pos hv]
    exact hoff
  | stop =>
    cases hs
    exact hoff
  | expire t | fire t now | signal t => exact absurd ha (by simp [AlarmAct.disarms])

theorem AlarmState.Off.setPhase (h : s.Off) (t : ℕ) {x : TimerPhase}
    (hx : x ≠ .armed) : (s.setPhase t x).Off where
  field := h.field
  armed u hu := h.armed u (setPhase_armed hx hu).2

theorem AlarmState.Off.stop_eq (h : s.Off) : s.stop = s := by
  unfold AlarmState.stop
  rw [h.field]

theorem off_step (h : s.Off)
    (ha : a.arms = false) (hs : alarmSystem.step s a = some (s', o)) : s'.Off := by
  cases a with
  | setAlarm value interval now =>
    cases hs
    have hv : value ≤ 0 := by simpa [AlarmAct.arms] using ha
    unfold AlarmState.setAlarm
    rw [if_pos hv, h.stop_eq]
    exact h
  | stop =>
    cases hs
    rw [h.stop_eq]
    exact h
  | expire t =>
    obtain ⟨⟨_, ht⟩, hs⟩ := ite_none_right_eq_some.mp hs
    exact absurd ht (h.armed t)
  | fire t now =>
    obtain ⟨_, hs⟩ := ite_none_right_eq_some.mp hs
    cases hs
    have hoff := h.setPhase t (x := .signalling) (by decide)
    have hf : (s.setPhase t .signalling).fire now =
        { s.setPhase t .signalling with timer := none } :=
      if_neg fun hc => hc.2 hoff.field
    rw [hf]
    exact ⟨rfl, hoff.armed⟩
  | signal t =>
    obtain ⟨_, hs⟩ := ite_none_right_eq_some.mp hs
    cases hs
    exact h.setPhase t (by decide)

/-- Without an arming, a disarmed and drained timer takes no step of its own. -/
theorem silent_step (h : s.Off)
    (hd : s.Drained) (ha : a.arms = false) (hs : alarmSystem.step s a = some (s', o)) :
    s' = s ∧ o ≠ .sigalrm := by
  cases a with
  | setAlarm value interval now =>
    cases hs
    have hv : value ≤ 0 := by simpa [AlarmAct.arms] using ha
    unfold AlarmState.setAlarm
    rw [if_pos hv, h.stop_eq]
    exact ⟨rfl, by simp⟩
  | stop =>
    cases hs
    exact ⟨h.stop_eq, by simp⟩
  | expire t =>
    obtain ⟨⟨_, ht⟩, hs⟩ := ite_none_right_eq_some.mp hs
    exact absurd ht (h.armed t)
  | fire t now =>
    obtain ⟨⟨hn, ht⟩, hs⟩ := ite_none_right_eq_some.mp hs
    exact absurd ht (hd t hn).1
  | signal t =>
    obtain ⟨⟨hn, ht⟩, hs⟩ := ite_none_right_eq_some.mp hs
    exact absurd ht (hd t hn).2

/-! ### Whole runs -/

/-- No event of the trace arms the timer. -/
def Unarmed (tr : List (AlarmAct × AlarmAns)) : Prop := ∀ x ∈ tr, x.1.arms = false

theorem off_run {tr : List (AlarmAct × AlarmAns)} (h : s.Off)
    (hr : alarmSystem.Run s tr s') (hu : Unarmed tr) : s'.Off := by
  induction hr with
  | nil => exact h
  | snoc hr hs ih =>
    have hu' := List.forall_mem_append.mp hu
    exact off_step (ih hu'.1) (hu'.2 _ (List.mem_singleton_self _)) hs

theorem silent_run {tr : List (AlarmAct × AlarmAns)} (h : s.Off)
    (hd : s.Drained) (hr : alarmSystem.Run s tr s') (hu : Unarmed tr) :
    s' = s ∧ ∀ x ∈ tr, x.2 ≠ .sigalrm := by
  induction hr with
  | nil => exact ⟨rfl, by simp⟩
  | snoc hr hs ih =>
    have hu' := List.forall_mem_append.mp hu
    obtain ⟨rfl, hq⟩ := ih hu'.1
    obtain ⟨he, ho⟩ := silent_step h hd (hu'.2 _ (List.mem_singleton_self _)) hs
    refine ⟨he, List.forall_mem_append.mpr ⟨hq, ?_⟩⟩
    intro x hx
    rw [List.mem_singleton.mp hx]
    exact ho

/-- **One armed timer**, in the runs that arm the timer only when no callback waits for the mutex. -/
theorem alarm_single {s : AlarmState} (h : (alarmSystem.restrict NoneExpired).Reachable s) :
    s.Single ∧ ∀ a o s1, a.disarms → alarmSystem.step s a = some (s1, o) →
      ∀ tr1 s2, alarmSystem.Run s1 tr1 s2 → Unarmed tr1 → s2.Drained →
        (∀ t, s2.timers t ≠ .armed) ∧
        ∀ tr2 s3, alarmSystem.Run s2 tr2 s3 → Unarmed tr2 →
          (∀ t, s3.timers t ≠ .armed) ∧ ∀ x ∈ tr2, x.2 ≠ .sigalrm := by
  have hi := alarmInv_reachable h
  refine ⟨hi.single, ?_⟩
  intro a o s1 ha hs tr1 s2 hr1 hu1 hd
  have hoff : s2.Off := off_run (off_of_disarm hi ha hs) hr1 hu1
  refine ⟨hoff.armed, ?_⟩
  intro tr2 s3 hr2 hu2
  obtain ⟨rfl, hq⟩ := silent_run hoff hd hr2 hu2
  exact ⟨hoff.armed, hq⟩

instance (s : AlarmState) : Decidable s.Drained :=
  inferInstanceAs (Decidable (∀ t < s.ntimers, _ ∧ _))

/-- No timer yet. -/
def alarmStart : AlarmState := ⟨none, 0, 0, fun _ => .stopped, 0⟩

/-- A disarming that finds a callback of the interval timer waiting for the mutex. -/
theorem alarm_single_pending : ∃ s s1 s2 s3 o tr1 tr2,
    (alarmSystem.restrict NoneExpired).Reachable s ∧
    alarmSystem.step s (.setAlarm 0 0 16) = some (s1, o) ∧ s1.timers 1 = .expired ∧
    alarmSystem.Run s1 tr1 s2 ∧ s2.Drained ∧ alarmSystem.Run s2 tr2 s3 ∧
    s.Single ∧ (∀ t, s2.timers t ≠ .armed) ∧ (∀ t, s3.timers t ≠ .armed) ∧
    ∀ x ∈ tr2, x.2 ≠ .sigalrm := by
  have h := @reachable_of_exec _ _ _ (alarmSystem.restrict NoneExpired) alarmStart _
    [.setAlarm 10 5 0, .expire 0, .fire 0 10, .signal 0, .expire 1] _ rfl rfl
  refine ⟨_, _, _, _, _, _, _, h, rfl, rfl, exec_run _ [.fire 1 17, .signal 1] rfl,
    by decide, exec_run _ [.stop] rfl, ?_⟩
  obtain ⟨hs, hd⟩ := alarm_single h
  obtain ⟨ha, hq⟩ := hd (.setAlarm 0 0 16) _ _ rfl rfl _ _
    (exec_run _ [.fire 1 17, .signal 1] rfl) (by simp [Unarmed, AlarmAct.arms]) (by decide)
  obtain ⟨hb, hq⟩ := hq _ _ (exec_run _ [.stop] rfl) (by simp [Unarmed, AlarmAct.arms])
  exact ⟨hs, ha, hb, hq⟩

/-- Timer 1 is armed while the callback of timer 0 waits: no `stop` finds it later. -/
theorem alarm_forgotten : ∃ s s1 s2 tr,
    alarmSystem.Reachable s ∧ s.timers 1 = .armed ∧ s.timers 2 = .armed ∧ s.timer = some 2 ∧
    alarmSystem.step s .stop = some (s1, .done) ∧ s1.Drained ∧ s1.timers 1 = .armed ∧
    alarmSystem.Run s1 tr s2 ∧ Unarmed tr ∧ (.signal 1, .sigalrm) ∈ tr := by
  have h := @reachable_of_exec _ _ _ alarmSystem alarmStart _
    [.setAlarm 10 0 0, .expire 0, .setAlarm 20 0 11, .fire 0 12, .signal 0, .setAlarm 30 0 13]
    _ rfl rfl
  exact ⟨_, _, _, _, h, rfl, rfl, rfl, rfl, by decide, rfl,
    exec_run _ [.expire 1, .fire 1 32, .signal 1] rfl, by simp [Unarmed, AlarmAct.arms],
    by simp⟩

end PgZero.Kernel
