import PgZero.Abi
import PgZero.Lib.System

/-!
# Signals

Host goroutines set bits of a process's `pending` word, or of `early` before the guest has
registered its control block; the guest clears them. A call of `Signal` has two steps, the bit and
the token on the one-slot channel `sigWake`. The process's own goroutine is either in guest code or
in `block`, so the guest's words `blocked` and `ignored` stand still while it blocks.

* **`no_missed_signal`**: a parked process never sleeps over a deliverable signal.
-/

set_option autoImplicit false

namespace PgZero.Kernel

open Lib

/-! ### The guest's control block -/

/-- It kills, and cannot be caught. -/
def SIGKILL : ℕ := 9
/-- A child has exited. -/
def SIGCHLD : ℕ := 17
/-- It stops, and cannot be caught. -/
def SIGSTOP : ℕ := 19
/-- There is urgent data. -/
def SIGURG : ℕ := 23
/-- The window has changed. -/
def SIGWINCH : ℕ := 28
/-- One more than the last signal. -/
def NSIG : ℕ := 65

/-- `1ULL << sig` in wasm, where the shift count is taken modulo 64. -/
def BIT (sig : ℕ) : BitVec 64 := 1#64 <<< (sig % 64)

/-- The signals without a default action. -/
def DEFAULT_IGNORED : BitVec 64 := BIT SIGCHLD ||| BIT SIGURG ||| BIT SIGWINCH

/-- The control block a guest registers. -/
structure SigBlock where
  pending : BitVec 64
  blocked : BitVec 64
  ignored : BitVec 64
  deriving DecidableEq, Repr

/-- A handler, as far as it is compared with anything. -/
inductive SigHandler
  | dfl
  | ign
  | fn
  deriving DecidableEq, Repr

/-- What `sigaction` sets. -/
structure SigAction where
  handler : SigHandler
  mask : BitVec 64
  resethand : Bool
  nodefer : Bool
  deriving DecidableEq, Repr

/-- `valid_signal`. -/
def validSignal (sig : ℕ) : Bool := 0 < sig && sig < NSIG

/-- The mask `update_ignored` computes. -/
def ignoredMask (actions : ℕ → SigAction) : BitVec 64 :=
  (List.range (NSIG - 1)).foldl (fun ignored i =>
    let h := (actions (i + 1)).handler
    if h = .ign ∨ (h = .dfl ∧ DEFAULT_IGNORED &&& BIT (i + 1) ≠ 0) then ignored ||| BIT (i + 1)
    else ignored) 0

/-- The mask `set_blocked` stores. -/
def blockedMask (mask : BitVec 64) : BitVec 64 := mask &&& ~~~(BIT SIGKILL ||| BIT SIGSTOP)

/-- Where the guest is: in user code, when there is no frame or a handler on top, or inside one of
the functions that take signals. -/
inductive SigFrame
  /-- at the head of the loop of `pgzero_dispatch_signals` -/
  | dispatch
  /-- about to clear `sig` and run its handler -/
  | deliver (sig : ℕ)
  /-- in a handler, with the mask to restore -/
  | handler (saved : BitVec 64)
  /-- at the head of the loop of `sigwait` -/
  | sigwait (set : BitVec 64)
  /-- about to clear `sig` and return it -/
  | consume (sig : ℕ)
  /-- in `sigaction`, about to discard `sig` -/
  | discard (sig : ℕ)
  deriving DecidableEq, Repr

/-! ### The process -/

/-- Why `block` returns. -/
inductive WakeReason
  | woken
  | interrupted
  | timedOut
  | killed
  deriving DecidableEq, Repr

/-- Where the process's goroutine is. -/
inductive BlockPc
  | running
  | checkCtx
  | checkInterrupted
  | parked
  deriving DecidableEq, Repr

/-- `senders` counts the `Signal` calls between their two steps, `sigWake` says whether the channel
holds its token, and `attached` whether `sigPending` points to the control block. -/
structure SigState where
  block : SigBlock
  actions : ℕ → SigAction
  frames : List SigFrame
  attached : Bool
  early : BitVec 64
  sigWake : Bool
  senders : ℕ
  cancelled : Bool
  alive : Bool
  pc : BlockPc

/-- A new process. -/
def SigState.start : SigState :=
  ⟨⟨0, 0, 0⟩, fun _ => ⟨.dfl, 0, false, false⟩, [], false, 0, false, 0, false, true, .running⟩

/-- What a step reports: a signal the guest took, what `block` returned, or an errno. -/
inductive SigAns
  | none
  | handled (sig : ℕ)
  | waited (sig : ℕ)
  | discarded (sig : ℕ)
  | returned (r : WakeReason)
  | failed (e : Errno)
  deriving DecidableEq, Repr

variable {s' s : SigState} {o : SigAns}

namespace SigState

/-! ### Host goroutines -/

/-- The two steps of `Signal`. -/
inductive HostAct
  /-- the first step of `Signal(sig)` -/
  | signal (sig : ℕ)
  /-- its second step -/
  | send
  deriving DecidableEq, Repr

/-- A step of a goroutine of the host. -/
def host (s : SigState) : HostAct → Option (SigState × SigAns)
  | .signal sig =>
    if sig = SIGKILL then some ({ s with cancelled := true }, .none)
    else if s.attached then
      some ({ s with
        block := { s.block with pending := s.block.pending ||| 1#64 <<< sig }
        senders := s.senders + 1 }, .none)
    else some ({ s with early := s.early ||| 1#64 <<< sig, senders := s.senders + 1 }, .none)
  | .send =>
    -- a send on the full channel is dropped
    if 0 < s.senders then some ({ s with senders := s.senders - 1, sigWake := true }, .none)
    else none

/-! ### The process's goroutine outside guest code -/

/-- A signal that is deliverable, or an early one. -/
def interrupted (s : SigState) : Bool :=
  if s.attached then s.block.pending &&& ~~~s.block.blocked &&& ~~~s.block.ignored != 0
  else s.early != 0

/-- The steps of the process's own goroutine. -/
inductive ProcessAct
  /-- `registerSignals`, for an address that is valid or not -/
  | register (ok : Bool)
  /-- guest code stops: it exits, traps or is killed -/
  | halt
  | stopSignals
  | block
  | checkCtx
  | checkInterrupted
  /-- the select in `block` takes one of its ready cases -/
  | wakeKilled
  | wakeSignal
  | wakeTimer
  | wakeChan
  deriving DecidableEq, Repr

/-- A step outside of guest code. -/
def process (s : SigState) : ProcessAct → Option (SigState × SigAns)
  | .register ok =>
    if s.alive ∧ s.pc = .running then
      if ok then
        some ({ s with
          attached := true
          block := { s.block with pending := s.block.pending ||| s.early }
          early := 0 }, .none)
      else some (s, .failed .EFAULT)
    else none
  | .halt => if s.alive ∧ s.pc = .running then some ({ s with alive := false }, .none) else none
  | .stopSignals => if !s.alive then some ({ s with attached := false }, .none) else none
  | .block =>
    if s.alive ∧ s.pc = .running then some ({ s with pc := .checkCtx }, .none) else none
  | .checkCtx =>
    if s.pc = .checkCtx then
      if s.cancelled then some ({ s with pc := .running }, .returned .killed)
      else some ({ s with pc := .checkInterrupted }, .none)
    else none
  | .checkInterrupted =>
    if s.pc = .checkInterrupted then
      if s.interrupted then some ({ s with pc := .running }, .returned .interrupted)
      else some ({ s with pc := .parked }, .none)
    else none
  | .wakeKilled =>
    if s.pc = .parked ∧ s.cancelled then some ({ s with pc := .running }, .returned .killed) else none
  | .wakeSignal =>
    if s.pc = .parked ∧ s.sigWake then some ({ s with pc := .checkCtx, sigWake := false }, .none)
    else none
  | .wakeTimer =>
    if s.pc = .parked then some ({ s with pc := .running }, .returned .timedOut) else none
  | .wakeChan =>
    if s.pc = .parked then some ({ s with pc := .running }, .returned .woken) else none

/-! ### Guest code -/

/-- `__builtin_ctzll`: the number of the lowest set bit. -/
def ctzll (x : BitVec 64) : ℕ := ((List.range 64).find? x.getLsbD).getD 64

/-- A signal is taken. -/
def clear (s : SigState) (sig : ℕ) : SigState :=
  { s with block := { s.block with pending := s.block.pending &&& ~~~BIT sig } }

/-- `run_handler` up to the call of the handler, with `rest` below the dispatch loop. -/
def runHandler (s : SigState) (sig : ℕ) (rest : List SigFrame) : SigState :=
  let act := s.actions sig
  let saved := s.block.blocked
  match act.handler with
  | .ign => { s with frames := .dispatch :: rest }
  | .dfl =>
    if DEFAULT_IGNORED &&& BIT sig ≠ 0 then { s with frames := .dispatch :: rest }
    else { s with alive := false }  -- `host_exit`
  | .fn =>
    let actions :=
      if act.resethand then Function.update s.actions sig { act with handler := .dfl }
      else s.actions
    { s with
      actions := actions
      block :=
        { s.block with
          ignored := if act.resethand then ignoredMask actions else s.block.ignored
          blocked := blockedMask (saved ||| act.mask ||| if act.nodefer then 0 else BIT sig) }
      frames := .handler saved :: .dispatch :: rest }

/-- The steps of guest code. -/
inductive GuestAct
  /-- `update_ignored`, from the constructor -/
  | updateIgnored
  | setBlocked (mask : BitVec 64)
  | dispatch
  | sigwait (set : BitVec 64)
  | sigaction (sig : ℕ) (act : SigAction)
  /-- the next step of the function on top of the stack, or the return of the handler there -/
  | advance

/-- Whether the guest runs code that may call anything. -/
def userCode : List SigFrame → Bool
  | [] | .handler _ :: _ => true
  | _ => false

/-- A step of the function on top of the stack. The fetch-and that takes a signal and what follows
it up to the next access of the shared word are one step. -/
def advance (s : SigState) : Option (SigState × SigAns) :=
  match s.frames with
  | .dispatch :: rest =>
    let deliverable := s.block.pending &&& ~~~s.block.blocked
    if deliverable = 0 then some ({ s with frames := rest }, .none)
    else some ({ s with frames := .deliver (ctzll deliverable) :: rest }, .none)
  | .deliver sig :: rest => some ((s.clear sig).runHandler sig rest, .handled sig)
  | .handler saved :: rest =>
    some ({ s with block := { s.block with blocked := blockedMask saved }, frames := rest }, .none)
  | .sigwait set :: rest =>
    let found := s.block.pending &&& set
    -- `host_sleep` in between may block
    if found = 0 then some (s, .none)
    else some ({ s with frames := .consume (ctzll found) :: rest }, .none)
  | .consume sig :: rest => some ({ s.clear sig with frames := rest }, .waited sig)
  | .discard sig :: rest =>
    some ({ s.clear sig with frames := rest },
      if s.block.pending &&& BIT sig ≠ 0 then .discarded sig else .none)
  | [] => none

/-- A step of guest code. -/
def guest (s : SigState) : GuestAct → Option (SigState × SigAns)
  | .advance => s.advance
  | .updateIgnored =>
    if userCode s.frames then
      some ({ s with block := { s.block with ignored := ignoredMask s.actions } }, .none)
    else none
  | .setBlocked mask =>
    if userCode s.frames then
      some ({ s with block := { s.block with blocked := blockedMask mask } }, .none)
    else none
  | .dispatch =>
    if userCode s.frames then some ({ s with frames := .dispatch :: s.frames }, .none) else none
  | .sigwait set =>
    if userCode s.frames then some ({ s with frames := .sigwait set :: s.frames }, .none) else none
  | .sigaction sig act =>
    if userCode s.frames then
      if !validSignal sig || sig = SIGKILL || sig = SIGSTOP then some (s, .failed .EINVAL)
      else
        let actions := Function.update s.actions sig act
        let ignored := ignoredMask actions
        some ({ s with
          actions := actions
          block := { s.block with ignored := ignored }
          frames := if ignored &&& BIT sig ≠ 0 then .discard sig :: s.frames else s.frames }, .none)
    else none

end SigState

/-- The events of a run. -/
inductive SigEvent
  | host (a : SigState.HostAct)
  | process (a : SigState.ProcessAct)
  | guest (a : SigState.GuestAct)

/-- A process with its guest, and any number of goroutines that signal it. Guest code runs while
the process is alive and not in `block`. -/
def sigSystem : System SigState SigEvent SigAns where
  init s := s = .start
  step s
    | .host a => s.host a
    | .process a => s.process a
    | .guest a => if s.alive ∧ s.pc = .running then s.guest a else none

theorem sigSystem_guest {a : SigState.GuestAct} :
    sigSystem.step s (.guest a) = some (s', o) ↔
      (s.alive = true ∧ s.pc = .running) ∧ s.guest a = some (s', o) :=
  Option.ite_none_right_eq_some

/-! ### What guest code can do -/

theorem runHandler_keeps (s : SigState) (sig : ℕ) (rest : List SigFrame) :
    (s.runHandler sig rest).pc = s.pc ∧ (s.runHandler sig rest).attached = s.attached ∧
      (s.runHandler sig rest).early = s.early ∧
      (s.runHandler sig rest).block.pending = s.block.pending := by
  unfold SigState.runHandler
  dsimp only
  cases (s.actions sig).handler with
  | ign => exact ⟨rfl, rfl, rfl, rfl⟩
  | dfl =>
    dsimp only
    split_ifs <;> exact ⟨rfl, rfl, rfl, rfl⟩
  | fn => exact ⟨rfl, rfl, rfl, rfl⟩

theorem guest_keeps {a : SigState.GuestAct}
    (hs : s.guest a = some (s', o)) :
    s'.pc = s.pc ∧ s'.attached = s.attached ∧ s'.early = s.early := by
  cases a with
  | advance =>
    simp only [SigState.guest, SigState.advance] at hs
    split at hs
    case h_2 sig rest _ =>
      obtain ⟨rfl, -⟩ := Prod.mk.inj (Option.some.inj hs)
      obtain ⟨h1, h2, h3, -⟩ := runHandler_keeps (s.clear sig) sig rest
      exact ⟨h1, h2, h3⟩
    case h_7 => exact absurd hs (by simp)
    all_goals
      try split_ifs at hs
      all_goals
        obtain ⟨rfl, -⟩ := Prod.mk.inj (Option.some.inj hs)
        exact ⟨rfl, rfl, rfl⟩
  | sigaction sig act =>
    simp only [SigState.guest] at hs
    split_ifs at hs <;>
    · obtain ⟨rfl, -⟩ := Prod.mk.inj (Option.some.inj hs)
      exact ⟨rfl, rfl, rfl⟩
  | _ =>
    simp only [SigState.guest] at hs
    split_ifs at hs
    obtain ⟨rfl, -⟩ := Prod.mk.inj (Option.some.inj hs)
    exact ⟨rfl, rfl, rfl⟩

/-- **Taking a signal.** Guest code clears at most the one signal it is about to take. -/
theorem guest_pending {a : SigState.GuestAct}
    (hs : s.guest a = some (s', o)) :
    (s'.block.pending = s.block.pending ∧ (o = .none ∨ ∃ e, o = .failed e)) ∨
    ∃ sig rest, s'.block.pending = s.block.pending &&& ~~~BIT sig ∧
      ((s.frames = .deliver sig :: rest ∧ o = .handled sig) ∨
        (s.frames = .consume sig :: rest ∧ o = .waited sig) ∨
        (s.frames = .discard sig :: rest ∧
          o = if s.block.pending &&& BIT sig ≠ 0 then .discarded sig else .none)) := by
  cases a with
  | advance =>
    simp only [SigState.guest, SigState.advance] at hs
    split at hs
    case h_2 sig rest hf =>
      obtain ⟨rfl, rfl⟩ := Prod.mk.inj (Option.some.inj hs)
      exact Or.inr ⟨sig, rest, (runHandler_keeps (s.clear sig) sig rest).2.2.2, Or.inl ⟨hf, rfl⟩⟩
    case h_5 sig rest hf =>
      obtain ⟨rfl, rfl⟩ := Prod.mk.inj (Option.some.inj hs)
      exact Or.inr ⟨sig, rest, rfl, Or.inr (Or.inl ⟨hf, rfl⟩)⟩
    case h_6 sig rest hf =>
      obtain ⟨rfl, rfl⟩ := Prod.mk.inj (Option.some.inj hs)
      exact Or.inr ⟨sig, rest, rfl, Or.inr (Or.inr ⟨hf, rfl⟩)⟩
    case h_7 => exact absurd hs (by simp)
    all_goals
      try split_ifs at hs
      all_goals
        obtain ⟨rfl, rfl⟩ := Prod.mk.inj (Option.some.inj hs)
        exact Or.inl ⟨rfl, by simp⟩
  | sigaction sig act =>
    simp only [SigState.guest] at hs
    split_ifs at hs <;>
    · obtain ⟨rfl, rfl⟩ := Prod.mk.inj (Option.some.inj hs)
      exact Or.inl ⟨rfl, by simp⟩
  | _ =>
    simp only [SigState.guest] at hs
    split_ifs at hs
    obtain ⟨rfl, rfl⟩ := Prod.mk.inj (Option.some.inj hs)
    exact Or.inl ⟨rfl, by simp⟩

/-! ### No missed signal -/

/-- A parked process that should be interrupted has a token waiting, or one under way. A process
that blocks is alive, and until it has registered its control block nothing is pending there. -/
structure SigInv (s : SigState) : Prop where
  alert : s.pc = .parked → s.interrupted = true → s.sigWake = true ∨ 0 < s.senders
  alive : s.pc ≠ .running → s.alive = true
  unregistered : s.attached = false → s.alive = true → s.block.pending = 0

theorem host_sigInv {a : SigState.HostAct} (h : SigInv s)
    (hs : s.host a = some (s', o)) : SigInv s' := by
  cases a with
  | signal sig =>
    simp only [SigState.host] at hs
    split_ifs at hs with h1 h2
    · obtain ⟨rfl, -⟩ := Prod.mk.inj (Option.some.inj hs)
      exact ⟨h.alert, h.alive, h.unregistered⟩
    · obtain ⟨rfl, -⟩ := Prod.mk.inj (Option.some.inj hs)
      exact ⟨fun _ _ => Or.inr (Nat.succ_pos _), h.alive, fun hf => absurd (h2.symm.trans hf) (by simp)⟩
    · obtain ⟨rfl, -⟩ := Prod.mk.inj (Option.some.inj hs)
      exact ⟨fun _ _ => Or.inr (Nat.succ_pos _), h.alive, h.unregistered⟩
  | send =>
    simp only [SigState.host] at hs
    split_ifs at hs
    obtain ⟨rfl, -⟩ := Prod.mk.inj (Option.some.inj hs)
    exact ⟨fun _ _ => Or.inl rfl, h.alive, h.unregistered⟩

theorem process_sigInv {a : SigState.ProcessAct} (h : SigInv s)
    (hs : s.process a = some (s', o)) : SigInv s' := by
  cases a <;> simp only [SigState.process] at hs
  case register ok =>
    split_ifs at hs with h1 h2 <;> obtain ⟨rfl, -⟩ := Prod.mk.inj (Option.some.inj hs)
    · exact ⟨fun hp => absurd (h1.2.symm.trans hp) (by simp), h.alive, fun hf => by cases hf⟩
    · exact h
  case halt =>
    split_ifs at hs with h1
    obtain ⟨rfl, -⟩ := Prod.mk.inj (Option.some.inj hs)
    exact ⟨h.alert, fun hp => absurd h1.2 hp, fun _ hf => by cases hf⟩
  case stopSignals =>
    split_ifs at hs with h1
    obtain ⟨rfl, -⟩ := Prod.mk.inj (Option.some.inj hs)
    have hd : s.alive = false := by simpa using h1
    have hp : s.pc = .running := by
      by_contra hp
      exact absurd ((h.alive hp).symm.trans hd) (by simp)
    exact ⟨fun hp' => absurd (hp.symm.trans hp') (by simp), h.alive,
      fun _ hf => absurd (hf.symm.trans hd) (by simp)⟩
  case block =>
    split_ifs at hs with h1
    obtain ⟨rfl, -⟩ := Prod.mk.inj (Option.some.inj hs)
    exact ⟨fun hp => (by cases hp), fun _ => h1.1, h.unregistered⟩
  case checkCtx =>
    split_ifs at hs with h1 h2 <;> obtain ⟨rfl, -⟩ := Prod.mk.inj (Option.some.inj hs)
    · exact ⟨fun hp => (by cases hp), fun hp => absurd rfl hp, h.unregistered⟩
    · exact ⟨fun hp => (by cases hp), fun _ => h.alive (by simp [h1]), h.unregistered⟩
  case checkInterrupted =>
    split_ifs at hs with h1 h2 <;> obtain ⟨rfl, -⟩ := Prod.mk.inj (Option.some.inj hs)
    · exact ⟨fun hp => (by cases hp), fun hp => absurd rfl hp, h.unregistered⟩
    · -- the check found nothing to deliver
      exact ⟨fun _ hi => absurd hi h2, fun _ => h.alive (by simp [h1]), h.unregistered⟩
  case wakeSignal =>
    split_ifs at hs with h1
    obtain ⟨rfl, -⟩ := Prod.mk.inj (Option.some.inj hs)
    exact ⟨fun hp => (by cases hp), fun _ => h.alive (by simp [h1]), h.unregistered⟩
  all_goals
    split_ifs at hs
    obtain ⟨rfl, -⟩ := Prod.mk.inj (Option.some.inj hs)
    exact ⟨fun hp => (by cases hp), fun hp => absurd rfl hp, h.unregistered⟩

theorem guest_sigInv {a : SigState.GuestAct} (h : SigInv s)
    (hrun : s.alive = true ∧ s.pc = .running) (hs : s.guest a = some (s', o)) : SigInv s' := by
  obtain ⟨hpc, hat, -⟩ := guest_keeps hs
  rw [hrun.2] at hpc
  refine ⟨fun hp => absurd (hpc.symm.trans hp) (by simp), fun hp => absurd hpc hp, fun hf _ => ?_⟩
  have h0 := h.unregistered (hat.symm.trans hf) hrun.1
  rcases guest_pending hs with ⟨h1, -⟩ | ⟨sig, rest, h1, -⟩
  · rw [h1, h0]
  · rw [h1, h0]
    exact BitVec.zero_and

theorem sigInv_reachable (h : sigSystem.Reachable s) : SigInv s := by
  refine h.invariant (fun s hs => ?_) (fun s e s' o hi hs => ?_)
  · obtain rfl : s = .start := hs
    exact ⟨fun hp => (by cases hp), fun hp => absurd rfl hp, fun _ _ => rfl⟩
  · cases e with
    | host a => exact host_sigInv hi hs
    | process a => exact process_sigInv hi hs
    | guest a =>
      obtain ⟨hrun, hs⟩ := sigSystem_guest.mp hs
      exact guest_sigInv hi hrun hs

theorem step_returned_interrupted {e : SigEvent}
    (hs : sigSystem.step s e = some (s', .returned .interrupted)) :
    s.pc = .checkInterrupted ∧ s.interrupted = true := by
  cases e with
  | host a =>
    have hs : s.host a = some (s', .returned .interrupted) := hs
    cases a <;> simp only [SigState.host] at hs <;> split_ifs at hs <;> simp at hs
  | process a =>
    have hs : s.process a = some (s', .returned .interrupted) := hs
    cases a <;> simp only [SigState.process] at hs
    case checkInterrupted =>
      split_ifs at hs with h1 h2
      · exact ⟨h1, h2⟩
      · simp at hs
    all_goals split_ifs at hs <;> simp at hs
  | guest a =>
    obtain ⟨-, hs⟩ := sigSystem_guest.mp hs
    rcases guest_pending hs with ⟨-, h | ⟨e, h⟩⟩ | ⟨sig, rest, -, ⟨-, h⟩ | ⟨-, h⟩ | ⟨-, h⟩⟩
    any_goals cases h
    split_ifs at h

/-- **No missed signal.** No process is parked with a signal to deliver, unless it is about to be
woken, and `block` returns `interrupted` only if its check found one. Before registration, the
signals to deliver are those in `early`. -/
theorem no_missed_signal {s : SigState} (h : sigSystem.Reachable s) :
    ¬ (s.pc = .parked ∧ s.block.pending &&& ~~~s.block.blocked &&& ~~~s.block.ignored ≠ 0 ∧
      s.sigWake = false ∧ s.senders = 0) ∧
    ¬ (s.pc = .parked ∧ s.interrupted = true ∧ s.sigWake = false ∧ s.senders = 0) ∧
    ∀ e s', sigSystem.step s e = some (s', .returned .interrupted) →
      (s.attached = true ∧ s.block.pending &&& ~~~s.block.blocked &&& ~~~s.block.ignored ≠ 0) ∨
      (s.attached = false ∧ s.early ≠ 0) := by
  have hi := sigInv_reachable h
  have halert : ¬ (s.pc = .parked ∧ s.interrupted = true ∧ s.sigWake = false ∧ s.senders = 0) := by
    rintro ⟨hp, hint, hw, hn⟩
    rcases hi.alert hp hint with h1 | h1
    · exact absurd (h1.symm.trans hw) (by simp)
    · omega
  refine ⟨?_, halert, fun e s' hs => ?_⟩
  · rintro ⟨hp, hne, hw, hn⟩
    -- a control block that is not registered yet has nothing pending
    have hat : s.attached = true := by
      by_contra hat
      have h0 := hi.unregistered (by simpa using hat) (hi.alive (by simp [hp]))
      rw [h0] at hne
      simp at hne
    have hint : s.interrupted = true := by
      unfold SigState.interrupted
      rw [if_pos hat]
      exact bne_iff_ne.mpr hne
    exact halert ⟨hp, hint, hw, hn⟩
  · obtain ⟨-, hint⟩ := step_returned_interrupted hs
    unfold SigState.interrupted at hint
    cases hat : s.attached with
    | true =>
      rw [hat, if_pos rfl] at hint
      exact Or.inl ⟨rfl, bne_iff_ne.mp hint⟩
    | false =>
      rw [hat, if_neg (by simp)] at hint
      exact Or.inr ⟨rfl, bne_iff_ne.mp hint⟩

/-- A process parks, and a signal is sent: until the token is there, the call is under way. -/
theorem no_missed_signal_parked : ∃ s, sigSystem.Reachable s ∧ s.pc = .parked ∧
    s.block.pending &&& ~~~s.block.blocked &&& ~~~s.block.ignored ≠ 0 ∧
    ¬ (s.sigWake = false ∧ s.senders = 0) := by
  have hr := @System.reachable_of_exec _ _ _ sigSystem .start _
    [.process (.register true), .process .block, .process .checkCtx, .process .checkInterrupted,
      .host (.signal 15)] _ rfl rfl
  have h := (no_missed_signal hr).1
  exact ⟨_, hr, rfl, by decide, fun hn => h ⟨rfl, by decide, hn⟩⟩

end PgZero.Kernel
