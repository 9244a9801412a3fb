import PgZero.Kernel.PipeIo

/-!
# No lost wake-up on pipes

A waiter's claim on a pipe is a channel `c` it took and a condition `B` on the pipe's data that it
then found true: `s.WaitsOn i c B`. Every step of every process keeps every such claim, so the
invariant of a parked process is the claim it had when it parked.

* **`ioMove_later`**: claims are kept.
* **`pipe_io`**.
-/

set_option autoImplicit false

namespace PgZero.Kernel

open Function Lib List

variable {i p : ℕ} {s' s : IoState} {a : IoAct} {o : IoAns} {call : PollCall}
  {chs : List (Option ℕ)} {tr : List ((ℕ × IoAct) × IoAns)}

/-! ### Claims on a pipe -/

/-- The pipe a process has changed and has yet to notify. -/
def IoPc.posts : IoPc → Option ℕ
  | .ioPosting op _ => some op.file.pipe
  | .releasing i => some i
  | _ => none

/-- Some process is between changing pipe `i` and its notification. -/
def IoState.Busy (s : IoState) (i : ℕ) : Prop := ∃ q, (s.pc q).posts = some i

/-- Whoever took channel `c` of pipe `i` and then found `B` is woken, or `B` still holds, or a
notification is under way. -/
def IoState.WaitsOn (s : IoState) (i c : ℕ) (B : Pipe → Prop) : Prop :=
  (s.pipes i).n.Waits c (B (s.pipes i).data) (s.Busy i)

/-- Channels that were made stay made, and claims are kept. -/
structure Later (s s' : IoState) : Prop where
  made : ∀ i, (s.pipes i).n.made ≤ (s'.pipes i).n.made
  waits : ∀ i c B, s.WaitsOn i c B → s'.WaitsOn i c B

theorem Later.trans {s1 s2 s3 : IoState} (h : Later s1 s2) (h' : Later s2 s3) : Later s1 s3 :=
  ⟨fun i => (h.made i).trans (h'.made i), fun i c B hw => h'.waits i c B (h.waits i c B hw)⟩

theorem Busy.goto (x : IoPc) (hp : (s.pc p).posts ≠ some i)
    (h : s.Busy i) : (s.goto p x).Busy i := by
  obtain ⟨q, hq⟩ := h
  have hne : q ≠ p := fun he => hp (he ▸ hq)
  refine ⟨q, ?_⟩
  show (update s.pc p x q).posts = some i
  rw [update_of_ne hne]
  exact hq

theorem later_goto (x : IoPc) (hp : (s.pc p).posts = none) :
    Later s (s.goto p x) :=
  ⟨fun _ => le_rfl, fun i c B hw => hw.mono id (Busy.goto x (by simp [hp]))⟩

theorem later_at (i : ℕ) (hpipe : ∀ j, j ≠ i → s'.pipes j = s.pipes j)
    (hbusy : ∀ j, j ≠ i → s.Busy j → s'.Busy j)
    (hmade : (s.pipes i).n.made ≤ (s'.pipes i).n.made)
    (hwaits : ∀ c B, s.WaitsOn i c B → s'.WaitsOn i c B) : Later s s' := by
  refine ⟨fun j => ?_, fun j c B hw => ?_⟩
  · by_cases hj : j = i
    · exact hj ▸ hmade
    · rw [hpipe j hj]
  · by_cases hj : j = i
    · subst hj
      exact hwaits c B hw
    · unfold IoState.WaitsOn at hw ⊢
      rw [hpipe j hj]
      exact hw.mono id (hbusy j hj)

theorem changed_self (s : IoState) (i : ℕ) :
    (s.changed i).1.pipes i = { s.pipes i with n := (s.pipes i).n.wait.1 } :=
  update_self _ _ _

theorem later_changed (s : IoState) (i : ℕ) : Later s (s.changed i).1 := by
  refine later_at i (fun j hj => update_of_ne hj _ _) (fun _ _ hb => hb) ?_ fun c B hw => ?_
  · rw [changed_self]
    exact (s.pipes i).n.made_le_wait
  · unfold IoState.WaitsOn at hw ⊢
    rw [changed_self]
    exact hw.wait

theorem later_post (d : Pipe) (l : Bool) {x : IoPc}
    (hp : (s.pc p).posts = none) (hx : x.posts = some i) :
    Later s ((s.setPipe i ⟨d, (s.pipes i).n, l⟩).goto p x) := by
  have hself : ((s.setPipe i ⟨d, (s.pipes i).n, l⟩).goto p x).pipes i = ⟨d, (s.pipes i).n, l⟩ :=
    update_self _ _ _
  have hbusy : ((s.setPipe i ⟨d, (s.pipes i).n, l⟩).goto p x).Busy i := by
    refine ⟨p, ?_⟩
    show (update s.pc p x p).posts = some i
    rw [update_self]
    exact hx
  refine later_at i (fun j hj => update_of_ne hj _ _) (fun j _ hb => ?_) ?_ fun c B hw => ?_
  · have hp' : (s.pc p).posts ≠ some j := by simp [hp]
    exact Busy.goto (s := s.setPipe i ⟨d, (s.pipes i).n, l⟩) x hp' hb
  · rw [hself]
  · unfold IoState.WaitsOn at hw ⊢
    rw [hself]
    exact hw.change hbusy

theorem later_notify (unlock : Bool) (hp : (s.pc p).posts = some i) :
    Later s ((s.notify i unlock).goto p .idle) := by
  have hself : ((s.notify i unlock).goto p .idle).pipes i =
      ⟨(s.pipes i).data, (s.pipes i).n.notify, (s.pipes i).locked && !unlock⟩ :=
    update_self _ _ _
  refine later_at i (fun j hj => update_of_ne hj _ _) (fun j hj hb => ?_) ?_ fun c B hw => ?_
  · have hp' : (s.pc p).posts ≠ some j := by
      rw [hp]
      exact fun he => hj (Option.some.inj he).symm
    exact Busy.goto (s := s.notify i unlock) .idle hp' hb
  · rw [hself]
    exact le_rfl
  · unfold IoState.WaitsOn at hw ⊢
    rw [hself]
    exact hw.notify

theorem ioMove_later (h : IoMove s p a s' o) :
    Later s s' := by
  cases h with
  | fault => exact ⟨fun _ => le_rfl, fun _ _ _ hw => hw⟩
  | ioWait op hp | pollWait call chs ent e hp =>
    exact (later_changed s _).trans (later_goto _ (by
      show (s.pc p).posts = none
      rw [hp]; rfl))
  | opPost op c n nonblock hp | release e hp => exact later_post _ _ (by rw [hp]; rfl) rfl
  | ioNotify op n hp => exact later_notify true (by rw [hp]; rfl)
  | releaseNotify i hp => exact later_notify false (by rw [hp]; rfl)
  | _ => exact later_goto _ (by simp [IoPc.posts, *])

/-! ### The claims of a process -/

/-- The channels taken for the entries of a `poll` call so far. -/
def Channels (s : IoState) (call : PollCall) (chs : List (Option ℕ)) : Prop :=
  ∀ (j : ℕ) ent e, call.entries[j]? = some ent → ent.of = some (.pipe e) → j < chs.length →
    ∃ c, chs[j]? = some (some c) ∧ c < (s.pipes e.pipe).n.made

/-- The claims on the pipes that a `poll` call has found not ready. -/
def Checked (s : IoState) (call : PollCall) (chs : List (Option ℕ)) (rs : List Events) : Prop :=
  ∀ (j : ℕ) ent e c, call.entries[j]? = some ent → ent.of = some (.pipe e) →
    chs[j]? = some (some c) → rs[j]? = some 0 →
    s.WaitsOn e.pipe c fun d => ent.revents (e.poll d) = 0

/-- What a call has seen still holds, unless a notification is on its way. -/
def PcOk (s : IoState) : IoPc → Prop
  | .ioTaken op c => c < (s.pipes op.file.pipe).n.made
  | .ioParked op c => s.WaitsOn op.file.pipe c fun d => (op.run d).ret = .error .EAGAIN
  | .pollTaking call chs => Channels s call chs
  | .pollChecking call chs rs =>
    call.entries.length ≤ chs.length ∧ Channels s call chs ∧ Checked s call chs rs
  | .pollParked call chs rs =>
    call.entries.length ≤ chs.length ∧ Channels s call chs ∧ Checked s call chs rs ∧
      call.entries.length = rs.length ∧ ∀ r ∈ rs, r = 0
  | _ => True

theorem PcOk.later (h : Later s s') {x : IoPc} (hx : PcOk s x) : PcOk s' x := by
  have hchs : ∀ call chs, Channels s call chs → Channels s' call chs :=
    fun call chs hc j ent e h1 h2 h3 => by
      obtain ⟨c, h4, h5⟩ := hc j ent e h1 h2 h3
      exact ⟨c, h4, h5.trans_le (h.made _)⟩
  have hck : ∀ call chs rs, Checked s call chs rs → Checked s' call chs rs :=
    fun call chs rs hc j ent e c h1 h2 h3 h4 => h.waits _ _ _ (hc j ent e c h1 h2 h3 h4)
  cases x with
  | ioTaken op c => exact lt_of_lt_of_le hx (h.made _)
  | ioParked op c =>
    exact h.waits op.file.pipe c (fun d => (op.run d).ret = .error .EAGAIN) hx
  | pollTaking call chs => exact hchs _ _ hx
  | pollChecking call chs rs => exact ⟨hx.1, hchs _ _ hx.2.1, hck _ _ _ hx.2.2⟩
  | pollParked call chs rs => exact ⟨hx.1, hchs _ _ hx.2.1, hck _ _ _ hx.2.2.1, hx.2.2.2⟩
  | _ => exact trivial

theorem Channels.snoc {x : Option ℕ}
    (h : Channels s call chs)
    (hx : ∀ ent e, call.entries[chs.length]? = some ent → ent.of = some (.pipe e) →
      ∃ c, x = some c ∧ c < (s.pipes e.pipe).n.made) : Channels s call (chs ++ [x]) := by
  intro j ent e h1 h2 h3
  rw [length_append, length_singleton] at h3
  rcases Nat.lt_succ_iff_lt_or_eq.mp h3 with hlt | rfl
  · rw [List.getElem?_append_left hlt]
    exact h j ent e h1 h2 hlt
  · obtain ⟨c, rfl, hc⟩ := hx ent e h1 h2
    exact ⟨c, by simp, hc⟩

theorem Checked.snoc {rs : List Events}
    {r : Events} (h : Checked s call chs rs)
    (hr : ∀ ent e c, call.entries[rs.length]? = some ent → ent.of = some (.pipe e) →
      chs[rs.length]? = some (some c) → r = 0 →
      s.WaitsOn e.pipe c fun d => ent.revents (e.poll d) = 0) : Checked s call chs (rs ++ [r]) := by
  intro j ent e c h1 h2 h3 h4
  by_cases hlt : j < rs.length
  · rw [List.getElem?_append_left hlt] at h4
    exact h j ent e c h1 h2 h3 h4
  · have hj : j = rs.length := by
      have := (List.getElem?_eq_some_iff.mp h4).1
      rw [length_append, length_singleton] at this
      omega
    subst hj
    exact hr ent e c h1 h2 h3 (by simpa using h4)

/-- The poll bits of the file of an entry; a file that is no pipe reports `bits`. -/
def IoState.bitsOf (s : IoState) (ent : PollEntry) (bits : Events) : Events :=
  match ent.of with
  | some (.pipe e) => e.poll (s.pipes e.pipe).data
  | _ => bits

theorem pollFile_eq {ent : PollEntry} {bits r : Events}
    (h : s.pollFile ent bits = some r) : r = ent.revents (s.bitsOf ent bits) := by
  unfold IoState.pollFile at h
  unfold IoState.bitsOf
  cases hof : ent.of with
  | none =>
    rw [hof] at h
    exact (Option.some.inj h).symm
  | some f =>
    rw [hof] at h
    cases f with
    | pipe e =>
      obtain ⟨-, h⟩ := Option.ite_none_left_eq_some.mp h
      exact (Option.some.inj h).symm
    | other => exact (Option.some.inj h).symm

theorem ioMove_pcOk (h : IoMove s p a s' o)
    (hi : PcOk s (s.pc p)) : PcOk s' (s'.pc p) := by
  have hgo : ∀ (t : IoState) (x : IoPc), (t.goto p x).pc p = x := fun t x =>
    update_self _ _ _
  cases h with
  | fault call hp =>
    rw [hp]
    exact trivial
  | poll call hp | pollWoken _ call chs rs _ hp =>
    rw [hgo]
    intro j ent e _ _ hj
    exact absurd hj (Nat.not_lt_zero _)
  | ioWait op hp =>
    rw [hgo]
    show (s.pipes op.file.pipe).n.wait.2 < ((s.changed op.file.pipe).1.pipes op.file.pipe).n.made
    rw [changed_self]
    exact (s.pipes op.file.pipe).n.wait_lt
  | opPark op c nonblock hp hr =>
    rw [hp] at hi
    rw [hgo]
    exact Notifier.Waits.of_blocked hi hr
  | pollWait call chs ent e hp hent hof =>
    rw [hp] at hi
    rw [hgo]
    have hold : Channels (s.changed e.pipe).1 call chs :=
      PcOk.later (later_changed s e.pipe) (x := .pollTaking call chs) hi
    refine Channels.snoc hold fun ent' e' h1 h2 => ⟨_, rfl, ?_⟩
    obtain rfl : ent = ent' := Option.some.inj (hent.symm.trans h1)
    obtain rfl : e = e' := PolledFile.pipe.inj (Option.some.inj (hof.symm.trans h2))
    show (s.pipes e.pipe).n.wait.2 < ((s.changed e.pipe).1.pipes e.pipe).n.made
    rw [changed_self]
    exact (s.pipes e.pipe).n.wait_lt
  | pollSkip call chs ent hp hent hof =>
    rw [hp] at hi
    rw [hgo]
    refine Channels.snoc (s := s) hi fun ent' e h1 h2 => ?_
    obtain rfl : ent = ent' := Option.some.inj (hent.symm.trans h1)
    exact absurd h2 (hof e)
  | pollTaken call chs hp hent =>
    rw [hp] at hi
    rw [hgo]
    exact ⟨List.getElem?_eq_none_iff.mp hent, hi, fun j ent e c _ _ _ h4 => by simp at h4⟩
  | check call chs rs ent bits r hp hent hr =>
    rw [hp] at hi
    rw [hgo]
    obtain ⟨h1, h2, h3⟩ := PcOk.later (later_goto _ (by rw [hp]; rfl)) hi
    refine ⟨h1, h2, Checked.snoc h3 fun ent' e c h4 h5 h6 h7 => ?_⟩
    obtain rfl : ent = ent' := Option.some.inj (hent.symm.trans h4)
    -- the channel was taken before the check
    have hlt : rs.length < chs.length := (List.getElem?_eq_some_iff.mp h6).1
    obtain ⟨c', hc', hmade⟩ := h2 rs.length ent e hent h5 hlt
    obtain rfl : c' = c := Option.some.inj (Option.some.inj (hc'.symm.trans h6))
    have hbits : s.bitsOf ent bits = e.poll (s.pipes e.pipe).data := by
      unfold IoState.bitsOf
      rw [h5]
    rw [pollFile_eq hr, hbits] at h7
    exact Notifier.Waits.of_blocked hmade h7
  | finishPark call chs rs hp hlen hz =>
    rw [hp] at hi
    rw [hgo]
    obtain ⟨h1, h2, h3⟩ := PcOk.later (later_goto _ (by rw [hp]; rfl)) hi
    refine ⟨h1, h2, h3, hlen.symm, fun r hr => ?_⟩
    have := countP_eq_zero.mp hz r hr
    simpa using this
  | _ =>
    rw [hgo]
    exact trivial

theorem pc_of_ne {q : ℕ} (h : IoMove s p a s' o)
    (hq : q ≠ p) : s'.pc q = s.pc q := by
  cases h <;> first | rfl | exact update_of_ne hq _ _

/-- No call yet. -/
def ioStart : IoState := ⟨fun _ => ⟨newPipe, .zero, false⟩, fun _ => .idle⟩

theorem pcOk_run (h : ioSystem.Run ioStart tr s) :
    ∀ p, PcOk s (s.pc p) := by
  refine h.invariant (P := fun s => ∀ p, PcOk s (s.pc p)) (fun s e s' o hi hs q => ?_)
    (fun _ => trivial)
  obtain ⟨p, a⟩ := e
  have hm := ioStep_move hs
  by_cases hq : q = p
  · subst hq
    exact ioMove_pcOk hm (hi q)
  · rw [pc_of_ne hm hq]
    exact PcOk.later (ioMove_later hm) (hi q)

/-! ### What a call has done -/

/-- The operations that the current `io` call of `p` has run. -/
def callOps (p : ℕ) (tr : List ((ℕ × IoAct) × IoAns)) : List OpRecord :=
  tr.foldl (fun acc x =>
    if x.1.1 = p then
      match x.1.2 with
      | .io _ => []
      | _ => acc ++ x.2.ran.toList
    else acc) []

/-- The results that `p` has stored in the current pass of its `poll` call. -/
def passStored (p : ℕ) (tr : List ((ℕ × IoAct) × IoAns)) : List Events :=
  tr.foldl (fun acc x =>
    if x.1.1 = p then
      match x.1.2 with
      | .poll _ _ | .woken | .wokenOther => []
      | _ => acc ++ x.2.stored.toList
    else acc) []

/-- An operation that failed and left the pipe as it was. -/
def OpRecord.Failed (x : OpRecord) : Prop := x.after = x.before ∧ ∃ e, x.ret = .error e

/-- What the trace says about a process, by where it is. -/
def LogOk (ops : List OpRecord) (stored : List Events) : IoPc → Prop
  | .ioHead _ | .ioTaken _ _ | .ioParked _ _ => ∀ x ∈ ops, x.Failed
  | .ioPosting _ n => ∃ l x, ops = l ++ [x] ∧ x.ret = .ok n ∧ ∀ y ∈ l, y.Failed
  | .pollTaking _ _ => stored = []
  | .pollChecking _ _ rs | .pollParked _ _ rs => stored = rs
  | _ => True

theorem callOps_snoc (p : ℕ) (tr : List ((ℕ × IoAct) × IoAns)) (q : ℕ) (a : IoAct) (o : IoAns) :
    callOps p (tr ++ [((q, a), o)]) =
      if q = p then
        match a with
        | .io _ => []
        | _ => callOps p tr ++ o.ran.toList
      else callOps p tr := by
  unfold callOps
  rw [foldl_append]
  rfl

theorem passStored_snoc (p : ℕ) (tr : List ((ℕ × IoAct) × IoAns)) (q : ℕ) (a : IoAct) (o : IoAns) :
    passStored p (tr ++ [((q, a), o)]) =
      if q = p then
        match a with
        | .poll _ _ | .woken | .wokenOther => []
        | _ => passStored p tr ++ o.stored.toList
      else passStored p tr := by
  unfold passStored
  rw [foldl_append]
  rfl

theorem ioMove_logOk (h : IoMove s p a s' o)
    {tr : List ((ℕ × IoAct) × IoAns)} (hi : LogOk (callOps p tr) (passStored p tr) (s.pc p)) :
    LogOk (callOps p (tr ++ [((p, a), o)])) (passStored p (tr ++ [((p, a), o)])) (s'.pc p) := by
  have hgo : ∀ (t : IoState) (x : IoPc), (t.goto p x).pc p = x := fun t x =>
    update_self _ _ _
  rw [callOps_snoc, passStored_snoc, if_pos rfl, if_pos rfl]
  cases h with
  | fault call hp =>
    rw [hp]
    exact trivial
  | io op hp =>
    rw [hgo]
    intro x hx
    cases hx
  | ioWait op hp =>
    rw [hp] at hi
    rw [hgo]
    simpa [LogOk] using hi
  | opPost op c n nonblock hp hr =>
    rw [hp] at hi
    rw [hgo]
    exact ⟨_, _, rfl, rfl, hi⟩
  | opPark op c nonblock hp hr =>
    rw [hp] at hi
    rw [hgo]
    intro x hx
    rcases mem_append.mp hx with hx | hx
    · exact hi x hx
    · obtain rfl := mem_singleton.mp hx
      exact ⟨rfl, .EAGAIN, rfl⟩
  | ioWoken op c hp =>
    rw [hp] at hi
    rw [hgo]
    simpa [LogOk] using hi
  | poll call hp =>
    rw [hgo]
    rfl
  | pollWoken _ call chs rs ha hp =>
    rw [hgo]
    rcases ha with rfl | rfl <;> rfl
  | pollWait call chs ent e hp | pollSkip call chs ent hp | pollTaken call chs hp =>
    rw [hp] at hi
    rw [hgo]
    simpa [LogOk] using hi
  | check call chs rs ent bits r hp hent hr =>
    rw [hp] at hi
    rw [hgo]
    show passStored p tr ++ [r] = rs ++ [r]
    rw [show passStored p tr = rs from hi]
  | finishPark call chs rs hp =>
    rw [hp] at hi
    rw [hgo]
    simpa [LogOk] using hi
  | _ =>
    rw [hgo]
    exact trivial

theorem logOk_run
    (h : ioSystem.Run ioStart tr s) (p : ℕ) : LogOk (callOps p tr) (passStored p tr) (s.pc p) := by
  refine h.history (P := fun tr s => LogOk (callOps p tr) (passStored p tr) (s.pc p))
    (fun tr s e s' o hi hs => ?_) ?_
  swap
  · exact trivial
  obtain ⟨q, a⟩ := e
  have hm := ioStep_move hs
  by_cases hq : q = p
  · subst hq
    exact ioMove_logOk hm hi
  · rw [callOps_snoc, passStored_snoc, if_neg hq, if_neg hq, pc_of_ne hm (Ne.symm hq)]
    exact hi

/-! ### Calls that return -/

/-- The process is in `io`. -/
def IoPc.inIo : IoPc → Bool
  | .ioHead _ | .ioTaken _ _ | .ioPosting _ _ | .ioParked _ _ => true
  | _ => false

/-- The call of a process in `poll`. -/
def IoPc.pollCall? : IoPc → Option PollCall
  | .pollTaking call _ | .pollChecking call _ _ | .pollParked call _ _ => some call
  | _ => none

/-- **`io` applies its operation once or not at all.** -/
theorem io_returns {r : CallRet} (h : IoMove s p a s' o)
    (hlog : LogOk (callOps p tr) (passStored p tr) (s.pc p)) (hio : (s.pc p).inIo = true)
    (hr : o.ret = some r) :
    (∀ n, r = .ok n → ∃ l x, callOps p (tr ++ [((p, a), o)]) = l ++ [x] ∧ x.ret = .ok n ∧
      ∀ y ∈ l, y.Failed) ∧
    ((∀ n, r ≠ .ok n) → ∀ x ∈ callOps p (tr ++ [((p, a), o)]), x.Failed) := by
  rw [callOps_snoc, if_pos rfl]
  cases h with
  | opDone op c n nonblock hp hrun =>
    rw [hp] at hlog
    obtain rfl := Option.some.inj hr
    refine ⟨fun m hm => ?_, fun hne => absurd rfl (hne n)⟩
    obtain rfl := CallRet.ok.inj hm
    exact ⟨_, _, rfl, rfl, hlog⟩
  | opFail op c e nonblock hp hrun =>
    rw [hp] at hlog
    obtain rfl := Option.some.inj hr
    refine ⟨fun m hm => (by cases hm), fun _ x hx => ?_⟩
    rcases mem_append.mp hx with hx | hx
    · exact hlog x hx
    · obtain rfl := mem_singleton.mp hx
      exact ⟨rfl, e, rfl⟩
  | ioNotify op n hp =>
    rw [hp] at hlog
    obtain rfl := Option.some.inj hr
    refine ⟨fun m hm => ?_, fun hne => absurd rfl (hne n)⟩
    obtain rfl := CallRet.ok.inj hm
    obtain ⟨l, x, h1, h2⟩ := hlog
    exact ⟨l, x, by simpa using h1, h2⟩
  | ioInterrupted op c hp | ioKilled op c hp =>
    rw [hp] at hlog
    obtain rfl := Option.some.inj hr
    exact ⟨fun m hm => (by cases hm), fun _ x hx => hlog x (by simpa using hx)⟩
  | _ => simp_all [IoPc.inIo]

/-- **`poll` returns the number of results that are not zero.** -/
theorem poll_returns {n : ℕ} (h : IoMove s p a s' o)
    (hi : PcOk s (s.pc p)) (hlog : LogOk (callOps p tr) (passStored p tr) (s.pc p))
    (hpoll : (s.pc p).pollCall? = some call) (hr : o.ret = some (.ok n)) :
    n = (passStored p tr).countP (· ≠ 0) ∧ (passStored p tr).length = call.entries.length := by
  cases h with
  | finish call' chs rs hp hlen =>
    rw [hp] at hlog hpoll
    obtain rfl := Option.some.inj hpoll
    rw [show passStored p tr = rs from hlog]
    exact ⟨(CallRet.ok.inj (Option.some.inj hr)).symm, hlen⟩
  | timedOut call' chs rs hp =>
    rw [hp] at hlog hpoll hi
    obtain rfl := Option.some.inj hpoll
    obtain ⟨-, -, -, hlen, hz⟩ := hi
    rw [show passStored p tr = rs from hlog]
    refine ⟨?_, hlen.symm⟩
    rw [← CallRet.ok.inj (Option.some.inj hr), eq_comm, countP_eq_zero]
    intro r hr'
    simpa using hz r hr'
  | _ => simp_all [IoPc.pollCall?]

theorem anyClosed_false
    (h : s.anyClosed call chs = false) {j : ℕ} {ent : PollEntry} {e : PipeEnd} {c : ℕ}
    (h1 : call.entries[j]? = some ent) (h2 : ent.of = some (.pipe e))
    (h3 : chs[j]? = some (some c)) : ¬ (s.pipes e.pipe).n.closed c := by
  intro hc
  have hm : (ent, some c) ∈ call.entries.zip chs := by
    apply mem_of_getElem? (i := j)
    rw [List.getElem?_zip_eq_some]
    exact ⟨h1, h3⟩
  unfold IoState.anyClosed at h
  rw [any_eq_false] at h
  apply h _ hm
  simp [h2, hc]

/-- **I/O and poll on pipes.** A parked process is rightly asleep unless someone is about to notify;
`io` returns after one operation, and `poll` counts the results it stored. -/
theorem pipe_io {tr : List ((ℕ × IoAct) × IoAns)} {s : IoState}
    (h : ioSystem.Run ioStart tr s) :
    (∀ p op c, s.pc p = .ioParked op c → ¬ (s.pipes op.file.pipe).n.closed c →
      ¬ s.Busy op.file.pipe → (op.run (s.pipes op.file.pipe).data).ret = .error .EAGAIN) ∧
    (∀ p call chs rs, s.pc p = .pollParked call chs rs → s.anyClosed call chs = false →
      ∀ ent ∈ call.entries, ∀ e, ent.of = some (.pipe e) → ¬ s.Busy e.pipe →
        ent.revents (e.poll (s.pipes e.pipe).data) = 0) ∧
    (∀ p a s' o r, ioSystem.step s (p, a) = some (s', o) → (s.pc p).inIo = true →
      o.ret = some r →
      (∀ n, r = .ok n → ∃ l x, callOps p (tr ++ [((p, a), o)]) = l ++ [x] ∧ x.ret = .ok n ∧
        ∀ y ∈ l, y.Failed) ∧
      ((∀ n, r ≠ .ok n) → ∀ x ∈ callOps p (tr ++ [((p, a), o)]), x.Failed)) ∧
    (∀ p a s' o n call, ioSystem.step s (p, a) = some (s', o) →
      (s.pc p).pollCall? = some call → o.ret = some (.ok n) →
      n = (passStored p tr).countP (· ≠ 0) ∧ (passStored p tr).length = call.entries.length) ∧
    (∀ p bits s' o, ioSystem.step s (p, .check bits) = some (s', o) →
      ∃ call ent, (s.pc p).pollCall? = some call ∧
        call.entries[(passStored p tr).length]? = some ent ∧
        o.stored = some (ent.revents (s.bitsOf ent bits))) := by
  have hok := pcOk_run h
  have hlog := logOk_run h
  refine ⟨fun p op c hp hc hb => ?_, fun p call chs rs hp hc ent hent e hof hb => ?_,
    fun p a s' o r hs hio hr => io_returns (ioStep_move hs) (hlog p) hio hr,
    fun p a s' o n call hs hpoll hr => poll_returns (ioStep_move hs) (hok p) (hlog p) hpoll hr,
    fun p bits s' o hs => ?_⟩
  · have hw := hok p
    rw [hp] at hw
    exact Notifier.Waits.asleep hw hc hb
  · have hw := hok p
    rw [hp] at hw
    obtain ⟨h1, h2, h3, h4, h5⟩ := hw
    obtain ⟨j, hj⟩ := mem_iff_getElem?.mp hent
    have hlt : j < call.entries.length := (List.getElem?_eq_some_iff.mp hj).1
    obtain ⟨c, hc', -⟩ := h2 j ent e hj hof (hlt.trans_le h1)
    have hz : rs[j]? = some 0 := by
      obtain ⟨r, hr⟩ : ∃ r, rs[j]? = some r :=
        ⟨_, List.getElem?_eq_getElem (h4 ▸ hlt)⟩
      rw [hr, h5 r (mem_of_getElem? hr)]
    exact Notifier.Waits.asleep (h3 j ent e c hj hof hc' hz) (anyClosed_false hc hj hof hc') hb
  · have hm := ioStep_move hs
    generalize ha : IoAct.check bits = a at hm
    cases hm with
    | check call chs rs ent bits' r hp hent hr =>
      obtain rfl := IoAct.check.inj ha
      have hl := hlog p
      rw [hp] at hl ⊢
      refine ⟨call, ent, rfl, ?_, congrArg some (pollFile_eq hr)⟩
      rw [show passStored p tr = rs from hl]
      exact hent
    | pollWoken _ _ _ _ ha' => rcases ha' with rfl | rfl <;> cases ha
    | _ => cases ha

/-- A reader parks on an empty pipe, and a writer has put a byte there but not notified yet. -/
theorem pipe_io_posting : ∃ tr s, ioSystem.Run ioStart tr s ∧
    s.pc 0 = .ioParked ⟨.reader 0, .read 1⟩ 0 ∧ ¬ (s.pipes 0).n.closed 0 ∧
    ((⟨.reader 0, .read 1⟩ : IoOp).run (s.pipes 0).data).ret ≠ .error .EAGAIN ∧ s.Busy 0 := by
  have hr := @System.exec_run _ _ _ ioSystem ioStart
    [(0, .io ⟨.reader 0, .read 1⟩), (0, .wait), (0, .op false),
      (1, .io ⟨.writer 0, .write [7]⟩), (1, .wait), (1, .op false)] _ _ rfl
  have h := (pipe_io hr).1 0 ⟨.reader 0, .read 1⟩ 0 rfl (by decide)
  refine ⟨_, _, hr, rfl, by decide, by decide, ?_⟩
  by_contra hb
  exact absurd (h hb) (by decide)

end PgZero.Kernel
