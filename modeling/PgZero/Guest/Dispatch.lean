import PgZero.Kernel.Delivery

/-!
# Signal handlers in libpgzero

The guest's side of signals, one access of the shared words at a time. The stack holds the
activations of the library's functions and of the handlers they call; with no frame, or a handler on
top, the guest runs code that may call anything. Between any two steps the host may set pending
bits.

* **`GuestStep`**: everything a step can do.
-/

set_option autoImplicit false

namespace PgZero.Guest

open Function Lib Kernel

/-! ### The model -/

/-- The locals of `run_handler`. `unblocked` is no variable of the program: the signals that the
handler's own code took out of the blocked mask and has not put back. -/
structure Activation where
  sig : ℕ
  act : SigAction
  saved : BitVec 64
  unblocked : BitVec 64
  deriving DecidableEq, Repr

/-- Where an activation of a library function is. -/
inductive GuestFrame
  /-- in `pgzero_check_signals` -/
  | check
  /-- at the head of the loop of `pgzero_dispatch_signals` -/
  | dispatch
  /-- about to clear `sig` and call `run_handler` -/
  | deliver (sig : ℕ)
  /-- in the `SA_RESETHAND` update of `run_handler`, about to call `update_ignored` -/
  | resetting (a : Activation)
  /-- about to set the mask and call the handler -/
  | blocking (a : Activation)
  /-- in the handler -/
  | handler (a : Activation)
  /-- in the `host_sleep` loop of `sigsuspend` -/
  | suspending (saved : BitVec 64)
  /-- in `sigsuspend`, about to restore the mask -/
  | suspended (saved : BitVec 64)
  /-- in `sigaction`, about to call `update_ignored` -/
  | storing (sig : ℕ)
  /-- in `sigaction`, about to discard `sig` -/
  | discard (sig : ℕ)
  deriving DecidableEq, Repr

/-- The control block, the handlers and the stack. -/
structure GuestState where
  block : SigBlock
  actions : ℕ → SigAction
  stack : List GuestFrame
  alive : Bool

/-- What the library returns: the previous disposition or mask, an errno, or the handler called. -/
inductive GuestAns
  | none
  | action (oact : SigAction)
  | mask (oset : BitVec 64) (err : Option Errno)
  | failed (e : Errno)
  | started (a : Activation)
  deriving DecidableEq, Repr

/-- The first argument of `sigprocmask`. -/
inductive MaskHow
  | block
  | unblock
  | setmask
  | other
  deriving DecidableEq, Repr

/-- The switch of `sigprocmask`. -/
def MaskHow.apply (cur set : BitVec 64) : MaskHow → Option (BitVec 64)
  | .block => some (cur ||| set)
  | .unblock => some (cur &&& ~~~set)
  | .setmask => some set
  | .other => none

/-- A call of the library. -/
inductive UserCall
  /-- `sysret` after a host call, or `CHECK_FOR_INTERRUPTS` -/
  | checkSignals
  | dispatchSignals
  /-- with `act` null or not -/
  | sigaction (sig : ℕ) (act : Option SigAction)
  /-- with `set` null or not -/
  | sigprocmask (how : MaskHow) (set : Option (BitVec 64))
  | sigsuspend (mask : BitVec 64)
  deriving DecidableEq, Repr

/-- The events of a run. -/
inductive GuestEvent
  /-- the host sets bits of the pending word -/
  | arrive (bits : BitVec 64)
  | user (c : UserCall)
  /-- the handler on top returns -/
  | handlerReturn
  /-- `host_sleep` returns to `sigsuspend` -/
  | slept (r : ℤ)
  /-- the next step of the function on top -/
  | advance
  deriving DecidableEq, Repr

/-- Whether the guest runs code that may call anything. -/
def userCode : List GuestFrame → Bool
  | [] | .handler _ :: _ => true
  | _ => false

/-- Note in the running handler what it has unblocked, when the mask changes from `old` to `new`. -/
def noteUnblocked (old new : BitVec 64) : List GuestFrame → List GuestFrame
  | .handler a :: rest =>
    .handler { a with unblocked := (a.unblocked ||| old) &&& ~~~new } :: rest
  | stack => stack

namespace GuestState

/-- After the constructor `pgzero_signal_init`. -/
def start : GuestState :=
  let actions : ℕ → SigAction := fun _ => ⟨.dfl, 0, false, false⟩
  ⟨⟨0, 0, ignoredMask actions⟩, actions, [], true⟩

/-- The stack changes. -/
def goto (s : GuestState) (stack : List GuestFrame) : GuestState := { s with stack := stack }

/-- The host sets pending bits. -/
def arrive (s : GuestState) (bits : BitVec 64) : GuestState :=
  { s with block := { s.block with pending := s.block.pending ||| bits } }

/-- The fetch-and that takes a signal. -/
def clear (s : GuestState) (sig : ℕ) : GuestState :=
  { s with block := { s.block with pending := s.block.pending &&& ~~~BIT sig } }

/-- `update_ignored`. -/
def updateIgnored (s : GuestState) : GuestState :=
  { s with block := { s.block with ignored := ignoredMask s.actions } }

/-- The blocked mask changes. -/
def setBlocked (s : GuestState) (blocked : BitVec 64) : GuestState :=
  { s with block := { s.block with blocked := blockedMask blocked } }

/-- `set_blocked`, called for the code on top of the stack. -/
def changeMask (s : GuestState) (mask : BitVec 64) : GuestState :=
  (s.setBlocked mask).goto (noteUnblocked s.block.blocked (blockedMask mask) s.stack)

/-- What is pending and not blocked. -/
def deliverable (s : GuestState) : BitVec 64 := s.block.pending &&& ~~~s.block.blocked

/-- `run_handler` up to the `SA_RESETHAND` update or the call of the handler, with `rest` below the
dispatch loop. -/
def runHandler (s : GuestState) (sig : ℕ) (rest : List GuestFrame) : GuestState :=
  let act := s.actions sig
  let a : Activation := ⟨sig, act, s.block.blocked, 0⟩
  match act.handler with
  | .ign => s.goto (.dispatch :: rest)
  | .dfl =>
    if DEFAULT_IGNORED &&& BIT sig ≠ 0 then s.goto (.dispatch :: rest)
    else { s with alive := false }  -- `host_exit`
  | .fn =>
    if act.resethand then
      { s with
        actions := update s.actions sig { act with handler := .dfl }
        stack := .resetting a :: .dispatch :: rest }
    else s.goto (.blocking a :: .dispatch :: rest)

/-- The mask a handler runs under. -/
def handlerMask (a : Activation) : BitVec 64 :=
  a.saved ||| a.act.mask ||| if a.act.nodefer then 0 else BIT a.sig

/-- A call of the library. -/
def user (s : GuestState) : UserCall → GuestState × GuestAns
  | .checkSignals => (s.goto (.check :: s.stack), .none)
  | .dispatchSignals => (s.goto (.dispatch :: s.stack), .none)
  | .sigaction sig act =>
    if !validSignal sig || (act.isSome && (sig = SIGKILL || sig = SIGSTOP)) then
      (s, .failed .EINVAL)
    else
      match act with
      | none => (s, .action (s.actions sig))
      | some act =>
        ({ s with
          actions := update s.actions sig act
          stack := .storing sig :: s.stack }, .action (s.actions sig))
  | .sigprocmask how set =>
    let cur := s.block.blocked
    match set with
    | none => (s, .mask cur none)
    | some set =>
      match how.apply cur set with
      | none => (s, .mask cur (some .EINVAL))
      | some mask =>
        let s' := s.changeMask mask
        (s'.goto (.check :: s'.stack), .mask cur none)
  | .sigsuspend mask =>
    let s' := s.changeMask mask
    (s'.goto (.suspending s.block.blocked :: s'.stack), .none)

/-- The next access of the function on top. -/
def advance (s : GuestState) : Option (GuestState × GuestAns) :=
  match s.stack with
  | .check :: rest =>
    if s.deliverable ≠ 0 then some (s.goto (.dispatch :: rest), .none)
    else some (s.goto rest, .none)
  | .dispatch :: rest =>
    if s.deliverable = 0 then some (s.goto rest, .none)
    else some (s.goto (.deliver (SigState.ctzll s.deliverable) :: rest), .none)
  | .deliver sig :: rest => some ((s.clear sig).runHandler sig rest, .none)
  | .resetting a :: rest => some (s.updateIgnored.goto (.blocking a :: rest), .none)
  | .blocking a :: rest =>
    some ((s.setBlocked (handlerMask a)).goto (.handler a :: rest), .started a)
  | .suspended saved :: rest => some ((s.goto rest).changeMask saved, .failed .EINTR)
  | .storing sig :: rest =>
    let s := s.updateIgnored
    if s.block.ignored &&& BIT sig ≠ 0 then some (s.goto (.discard sig :: rest), .none)
    else some (s.goto rest, .none)
  | .discard sig :: rest => some ((s.clear sig).goto rest, .none)
  | .handler _ :: _ | .suspending _ :: _ | [] => none

/-- A step of the guest, while it lives. -/
def guest (s : GuestState) : GuestEvent → Option (GuestState × GuestAns)
  | .arrive bits => some (s.arrive bits, .none)
  | .user c => if userCode s.stack then some (s.user c) else none
  | .handlerReturn =>
    match s.stack with
    | .handler a :: rest => some ((s.setBlocked a.saved).goto rest, .none)
    | _ => none
  | .slept r =>
    match s.stack with
    | .suspending saved :: rest =>
      if r = 0 then some (s, .none)
      else some (s.goto (.dispatch :: .suspended saved :: rest), .none)
    | _ => none
  | .advance => s.advance

end GuestState

/-- A guest that may call the library from its main code and from any handler, and a host that may
signal it at any time. Handlers return normally. -/
def maskSystem : System GuestState GuestEvent GuestAns where
  init s := s = .start
  step s e := if s.alive then s.guest e else none

/-! ### What a step can do -/

/-- The activation `run_handler` sets up for `sig`. -/
def GuestState.activation (s : GuestState) (sig : ℕ) : Activation :=
  ⟨sig, s.actions sig, s.block.blocked, 0⟩

/-- The steps, with the guards and the answers that matter to the masks. -/
inductive GuestStep (s : GuestState) : GuestEvent → GuestState → GuestAns → Prop
  | arrive (bits : BitVec 64) : GuestStep s (.arrive bits) (s.arrive bits) .none
  /-- a call that is refused or only reads, or a sleep that goes on -/
  | stay {e : GuestEvent} {o : GuestAns} (ho : ∀ a, o ≠ .started a) : GuestStep s e s o
  | call {e : GuestEvent} (f : GuestFrame) (hf : f = .check ∨ f = .dispatch)
      (hu : userCode s.stack = true) : GuestStep s e (s.goto (f :: s.stack)) .none
  | install (sig : ℕ) (act : SigAction) (hu : userCode s.stack = true)
      (hv : validSignal sig = true) (hk : sig ≠ SIGKILL) (hst : sig ≠ SIGSTOP) :
      GuestStep s (.user (.sigaction sig (some act)))
        { s with
          actions := update s.actions sig act
          stack := .storing sig :: s.stack } (.action (s.actions sig))
  | changeMask {e : GuestEvent} {o : GuestAns} (mask : BitVec 64) (f : GuestFrame)
      (hf : f = .check ∨ f = .suspending s.block.blocked) (hu : userCode s.stack = true)
      (ho : ∀ a, o ≠ .started a) :
      GuestStep s e ((s.changeMask mask).goto (f :: (s.changeMask mask).stack)) o
  | wake {e : GuestEvent} {saved : BitVec 64} {rest : List GuestFrame}
      (h : s.stack = .suspending saved :: rest) :
      GuestStep s e (s.goto (.dispatch :: .suspended saved :: rest)) .none
  | resume {e : GuestEvent} {saved : BitVec 64} {rest : List GuestFrame}
      (h : s.stack = .suspended saved :: rest) :
      GuestStep s e ((s.goto rest).changeMask saved) (.failed .EINTR)
  | leave {e : GuestEvent} {f : GuestFrame} {rest : List GuestFrame} (h : s.stack = f :: rest)
      (hf : f = .check ∨ f = .dispatch) : GuestStep s e (s.goto rest) .none
  | enter {e : GuestEvent} {rest : List GuestFrame} (h : s.stack = .check :: rest) :
      GuestStep s e (s.goto (.dispatch :: rest)) .none
  | take {e : GuestEvent} {sig : ℕ} {rest : List GuestFrame} (h : s.stack = .dispatch :: rest)
      (hlt : sig < 64) (hb : s.block.blocked.getLsbD sig = false) :
      GuestStep s e (s.goto (.deliver sig :: rest)) .none
  | skip {e : GuestEvent} {sig : ℕ} {rest : List GuestFrame} (h : s.stack = .deliver sig :: rest) :
      GuestStep s e ((s.clear sig).goto (.dispatch :: rest)) .none
  | exit {e : GuestEvent} {sig : ℕ} {rest : List GuestFrame} (h : s.stack = .deliver sig :: rest) :
      GuestStep s e { s.clear sig with alive := false } .none
  | run {e : GuestEvent} {sig : ℕ} {rest : List GuestFrame} (h : s.stack = .deliver sig :: rest)
      (hfn : (s.actions sig).handler = .fn) :
      GuestStep s e ((s.clear sig).goto (.blocking (s.activation sig) :: .dispatch :: rest)) .none
  | reset {e : GuestEvent} {sig : ℕ} {rest : List GuestFrame} (h : s.stack = .deliver sig :: rest)
      (hfn : (s.actions sig).handler = .fn) :
      GuestStep s e
        { s.clear sig with
          actions := update s.actions sig { s.actions sig with handler := .dfl }
          stack := .resetting (s.activation sig) :: .dispatch :: rest } .none
  | resetDone {e : GuestEvent} {a : Activation} {rest : List GuestFrame}
      (h : s.stack = .resetting a :: rest) :
      GuestStep s e (s.updateIgnored.goto (.blocking a :: rest)) .none
  | start {e : GuestEvent} {a : Activation} {rest : List GuestFrame}
      (h : s.stack = .blocking a :: rest) :
      GuestStep s e ((s.setBlocked (GuestState.handlerMask a)).goto (.handler a :: rest))
        (.started a)
  | handlerReturn {e : GuestEvent} {a : Activation} {rest : List GuestFrame}
      (h : s.stack = .handler a :: rest) :
      GuestStep s e ((s.setBlocked a.saved).goto rest) .none
  | stored {e : GuestEvent} {sig : ℕ} {rest stack : List GuestFrame}
      (h : s.stack = .storing sig :: rest) (hst : stack = rest ∨ stack = .discard sig :: rest) :
      GuestStep s e (s.updateIgnored.goto stack) .none
  | discard {e : GuestEvent} {sig : ℕ} {rest : List GuestFrame}
      (h : s.stack = .discard sig :: rest) : GuestStep s e ((s.clear sig).goto rest) .none

theorem user_cases {s : GuestState} {c : UserCall} (hu : userCode s.stack = true) :
    GuestStep s (.user c) (s.user c).1 (s.user c).2 := by
  cases c with
  | checkSignals => exact .call .check (Or.inl rfl) hu
  | dispatchSignals => exact .call .dispatch (Or.inr rfl) hu
  | sigaction sig act =>
    simp only [GuestState.user]
    split_ifs with hr
    · exact .stay (by simp)
    · cases act with
      | none => exact .stay (by simp)
      | some act =>
        simp only [Bool.not_eq_true, Bool.or_eq_false_iff, Bool.not_eq_false', Option.isSome_some,
          Bool.true_and, decide_eq_false_iff_not] at hr
        exact .install sig act hu hr.1 hr.2.1 hr.2.2
  | sigprocmask how set =>
    simp only [GuestState.user]
    cases set with
    | none => exact .stay (by simp)
    | some set =>
      dsimp only
      cases how.apply s.block.blocked set with
      | none => exact .stay (by simp)
      | some mask => exact .changeMask mask .check (Or.inl rfl) hu (by simp)
  | sigsuspend mask => exact .changeMask mask (.suspending _) (Or.inr rfl) hu (fun _ => nofun)

theorem runHandler_cases {s : GuestState} {e : GuestEvent} {sig : ℕ} {rest : List GuestFrame}
    (h : s.stack = .deliver sig :: rest) :
    GuestStep s e ((s.clear sig).runHandler sig rest) .none := by
  unfold GuestState.runHandler
  dsimp only
  cases hh : ((s.clear sig).actions sig).handler with
  | ign => exact .skip h
  | dfl =>
    dsimp only
    split_ifs
    · exact .skip h
    · exact .exit h
  | fn =>
    dsimp only
    split_ifs
    · exact .reset h hh
    · exact .run h hh

theorem not_blocked_of_deliverable {s : GuestState} {sig : ℕ}
    (h : s.deliverable.getLsbD sig = true) : s.block.blocked.getLsbD sig = false := by
  simp only [GuestState.deliverable, BitVec.getLsbD_and, BitVec.getLsbD_not, Bool.and_eq_true,
    Bool.not_eq_true'] at h
  exact h.2.2

theorem advance_cases {s s' : GuestState} {e : GuestEvent} {o : GuestAns}
    (hs : s.advance = some (s', o)) : GuestStep s e s' o := by
  unfold GuestState.advance at hs
  split at hs
  case h_1 rest h =>
    split_ifs at hs <;> cases hs
    · exact .enter h
    · exact .leave h (Or.inl rfl)
  case h_2 rest h =>
    split_ifs at hs with h0 <;> cases hs
    · exact .leave h (Or.inr rfl)
    · obtain ⟨hlt, hbit⟩ := ctzll_spec h0
      exact .take h hlt (not_blocked_of_deliverable hbit)
  case h_3 sig rest h =>
    cases hs
    exact runHandler_cases h
  case h_4 a rest h =>
    cases hs
    exact .resetDone h
  case h_5 a rest h =>
    cases hs
    exact .start h
  case h_6 saved rest h =>
    cases hs
    exact .resume h
  case h_7 sig rest h =>
    dsimp only at hs
    split_ifs at hs <;> cases hs
    · exact .stored h (Or.inr rfl)
    · exact .stored h (Or.inl rfl)
  case h_8 sig rest h =>
    cases hs
    exact .discard h
  all_goals cases hs

theorem step_cases {s s' : GuestState} {e : GuestEvent} {o : GuestAns}
    (hs : maskSystem.step s e = some (s', o)) : GuestStep s e s' o := by
  obtain ⟨-, hs⟩ := Option.ite_none_right_eq_some.mp hs
  cases e with
  | arrive bits =>
    cases hs
    exact .arrive bits
  | user c =>
    obtain ⟨hu, hs⟩ := Option.ite_none_right_eq_some.mp hs
    have h := user_cases (c := c) hu
    rwa [Option.some.inj hs] at h
  | handlerReturn =>
    simp only [GuestState.guest] at hs
    split at hs
    case h_1 a rest h =>
      cases hs
      exact .handlerReturn h
    case h_2 => cases hs
  | slept r =>
    simp only [GuestState.guest] at hs
    split at hs
    case h_1 saved rest h =>
      split_ifs at hs <;> cases hs
      · exact .stay (by simp)
      · exact .wake h
    case h_2 => cases hs
  | advance => exact advance_cases hs

end PgZero.Guest
