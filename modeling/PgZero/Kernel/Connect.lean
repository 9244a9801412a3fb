import PgZero.Abi
import PgZero.Lib.System
import PgZero.Kernel.Socket

/-!
# Binding, listening and connecting

Processes that share a socket may call `bind`, `listen` and `connect` on it at the same time. `bind`
and `listen` are one section each. `connect` checks the state in one section, dials without the
lock, and starts the connection in a second section that does not look at the state again.

* **`leaves_new_once`**: the runs that meet it start at most one connection, and what the socket
  became it stays.
* **`connected_twice`**: runs that do not.
-/

set_option autoImplicit false

namespace PgZero.Kernel

open Lib

/-- The socket domains. -/
inductive Domain
  | AF_INET
  | AF_INET6
  | AF_UNIX
  deriving DecidableEq, Repr

/-- `sockaddr`: the family, with the address and port or the path as it is handed to the host. -/
structure SockAddr where
  family : Domain
  name : List UInt8
  deriving DecidableEq, Repr

/-- The errors of the host network that `netErrno` tells apart. -/
inductive NetErr
  | EADDRINUSE | EADDRNOTAVAIL | ECONNREFUSED | ECONNRESET | EACCES | EPERM | ENOENT
  | ENETUNREACH | EHOSTUNREACH | ETIMEDOUT | EPIPE | EINVAL | deadlineExceeded | other
  deriving DecidableEq, Repr

/-- `netErrno`. -/
def netErrno : NetErr → Errno
  | .EADDRINUSE => .EADDRINUSE
  | .EADDRNOTAVAIL => .EADDRNOTAVAIL
  | .ECONNREFUSED => .ECONNREFUSED
  | .ECONNRESET => .ECONNRESET
  | .EACCES | .EPERM => .EACCES
  | .ENOENT => .ENOENT
  | .ENETUNREACH => .ENETUNREACH
  | .EHOSTUNREACH => .EHOSTUNREACH
  | .ETIMEDOUT => .ETIMEDOUT
  | .EPIPE => .EPIPE
  | .EINVAL => .EINVAL
  | .deadlineExceeded => .ETIMEDOUT
  | .other => Errno.EIO

/-- A listener: in the kernel (`virtualListener`) or of the host. -/
inductive Listener
  | virtual
  | host
  deriving DecidableEq, Repr

/-- What the mutex guards of a socket before it is connected, and `conn`. -/
structure SharedSock where
  domain : Domain
  state : SockState
  bound : Option SockAddr
  peer : Option SockAddr
  lns : List Listener
  conn : Option ℕ
  deriving DecidableEq, Repr

/-- The answers `bind` meets: `net.Listen` for TCP with the listener's address, `listenUnix`, and
`net.Listen` for the host path, if the guest path has one. -/
structure BindHost where
  tcp : Except NetErr SockAddr
  listenUnix : Except NetErr Unit
  unix : Option (Except NetErr Unit)

/-- The answers `connect` meets: `DialUnix`, whether the path has a host path, and `DialContext`.
A dial gives the connection and its local address. -/
structure DialHost where
  dialUnix : Except NetErr (ℕ × SockAddr)
  hostPath : Bool
  dialContext : Except NetErr (ℕ × SockAddr)

namespace SharedSock

/-- A new socket. -/
def new (domain : Domain) : SharedSock := ⟨domain, .sockNew, none, none, [], none⟩

/-- `bind`, with the host's answers. -/
def bind (s : SharedSock) (a : SockAddr) (h : BindHost) : SharedSock × Except Errno Unit :=
  if a.family ≠ s.domain then (s, .error .EAFNOSUPPORT)
  else if s.bound ≠ none ∨ s.state ≠ .sockNew then (s, .error .EINVAL)
  else
    match s.domain with
    | .AF_INET | .AF_INET6 =>
      match h.tcp with
      | .error e => (s, .error (netErrno e))
      -- the actual port, in case it was 0
      | .ok addr => ({ s with bound := some addr, lns := [.host] }, .ok ())
    | .AF_UNIX =>
      match h.listenUnix with
      | .error e => (s, .error (netErrno e))
      | .ok () =>
        match h.unix with
        | none => ({ s with bound := some a, lns := [.virtual] }, .ok ())
        | some (.error e) => (s, .error (netErrno e))
        | some (.ok ()) => ({ s with bound := some a, lns := [.virtual, .host] }, .ok ())

/-- `listen`. -/
def listen (s : SharedSock) : SharedSock × Except Errno Unit :=
  if s.state = .sockListening then (s, .ok ())
  else if s.state ≠ .sockNew ∨ s.lns.length = 0 then (s, .error .EINVAL)
  else ({ s with state := .sockListening }, .ok ())

/-- The first section of `connect`, and the check of the family. -/
def connect (s : SharedSock) (a : SockAddr) : Except Errno Unit :=
  if s.state ≠ .sockNew then .error .EISCONN
  else if a.family ≠ s.domain then .error .EAFNOSUPPORT
  else .ok ()

/-- The second section of `connect`. -/
def startConn (s : SharedSock) (c : ℕ) : SharedSock :=
  { s with conn := some c, state := .sockConnected }

/-- The second section of `connect`, for a connection `c` with local address `la`. -/
def connected (s : SharedSock) (a : SockAddr) (c : ℕ) (la : SockAddr) : SharedSock :=
  ({ s with
    peer := some a
    bound := if s.bound = none then some la else s.bound } : SharedSock).startConn c

end SharedSock

/-- `connect` between its sections. -/
def dial (a : SockAddr) (h : DialHost) : Except Errno (ℕ × SockAddr) :=
  match a.family, h.dialUnix with
  | .AF_UNIX, .ok c => .ok c
  | .AF_UNIX, .error _ => if h.hostPath then h.dialContext.mapError netErrno
    else .error .ECONNREFUSED
  | _, _ => h.dialContext.mapError netErrno

/-- Where a call of `connect` is. -/
inductive ConnectPc
  | idle
  | dialing (a : SockAddr)
  /-- with the connection and its local address -/
  | dialled (a : SockAddr) (c : ℕ) (la : SockAddr)
  deriving DecidableEq, Repr

/-- A socket with the processes that share it. -/
structure ConnectSys where
  sock : SharedSock
  pc : ℕ → ConnectPc

/-- The calls, and the sections of `connect`. -/
inductive ConnectAct
  | bind (a : SockAddr) (h : BindHost)
  | listen
  | connect (p : ℕ) (a : SockAddr)
  | dial (p : ℕ) (h : DialHost)
  | start (p : ℕ)

/-- What a step returns. -/
inductive ConnectAns
  | ret (r : Except Errno Unit)
  | pending
  | started (c : ℕ)

/-- The process `p` goes on. -/
def ConnectSys.setPc (s : ConnectSys) (p : ℕ) (x : ConnectPc) : ConnectSys :=
  { s with pc := Function.update s.pc p x }

/-- One step of a process. -/
def connectStep (s : ConnectSys) : ConnectAct → Option (ConnectSys × ConnectAns)
  | .bind a h => some ({ s with sock := (s.sock.bind a h).1 }, .ret (s.sock.bind a h).2)
  | .listen => some ({ s with sock := s.sock.listen.1 }, .ret s.sock.listen.2)
  | .connect p a =>
    if s.pc p = .idle then
      match s.sock.connect a with
      | .error e => some (s, .ret (.error e))
      | .ok () => some (s.setPc p (.dialing a), .pending)
    else none
  | .dial p h =>
    match s.pc p with
    | .dialing a =>
      match dial a h with
      | .error e => some (s.setPc p .idle, .ret (.error e))
      | .ok (c, la) => some (s.setPc p (.dialled a c la), .pending)
    | _ => none
  | .start p =>
    match s.pc p with
    | .dialled a c la =>
      some ({ s.setPc p .idle with sock := s.sock.connected a c la }, .started c)
    | _ => none

/-- A socket that processes share. -/
def connectSystem : System ConnectSys ConnectAct ConnectAns where
  init s := ∃ domain, s = ⟨.new domain, fun _ => .idle⟩
  step := connectStep

/-- A connection is started only on a socket that is still new. -/
def StillNew (s : ConnectSys) : ConnectAct → Prop
  | .start _ => s.sock.state = .sockNew
  | _ => True

instance (s : ConnectSys) : (a : ConnectAct) → Decidable (StillNew s a)
  | .start _ => inferInstanceAs (Decidable (_ = _))
  | .bind _ _ | .listen | .connect _ _ | .dial _ _ => inferInstanceAs (Decidable True)

/-- The connections a trace starts. -/
def startedConns (tr : List (ConnectAct × ConnectAns)) : List ℕ :=
  tr.filterMap fun x => match x.2 with
    | .started c => some c
    | _ => none

/-! ### What a step does to the state -/

theorem SharedSock.bind_state (s : SharedSock) (a : SockAddr) (h : BindHost) :
    (s.bind a h).1.state = s.state := by
  unfold SharedSock.bind
  repeat' split
  all_goals rfl

theorem SharedSock.listen_state (s : SharedSock) :
    s.listen.1.state = s.state ∨ s.state = .sockNew ∧ s.listen.1.state = .sockListening := by
  unfold SharedSock.listen
  by_cases h1 : s.state = .sockListening
  · rw [if_pos h1]
    exact .inl rfl
  · by_cases h2 : s.state ≠ .sockNew ∨ s.lns.length = 0
    · rw [if_neg h1, if_pos h2]
      exact .inl rfl
    · rw [if_neg h1, if_neg h2]
      exact .inr ⟨not_not.mp (not_or.mp h2).1, rfl⟩

/-- A step starts a connection, or moves the state at most from new to listening. -/
theorem connectStep_state {s s' : ConnectSys} {a : ConnectAct} {o : ConnectAns}
    (h : connectStep s a = some (s', o)) :
    (∃ p c, a = .start p ∧ o = .started c ∧ s'.sock.state = .sockConnected) ∨
    startedConns [(a, o)] = [] ∧ (s'.sock.state = s.sock.state ∨
      s.sock.state = .sockNew ∧ s'.sock.state = .sockListening) := by
  cases a with
  | bind a h' =>
    cases h
    exact .inr ⟨rfl, .inl (s.sock.bind_state a h')⟩
  | listen =>
    cases h
    exact .inr ⟨rfl, s.sock.listen_state⟩
  | connect p a =>
    obtain ⟨_, h⟩ := Option.ite_none_right_eq_some.mp h
    split at h
    · cases h
      exact .inr ⟨rfl, .inl rfl⟩
    · cases h
      exact .inr ⟨rfl, .inl rfl⟩
  | dial p h' =>
    simp only [connectStep] at h
    split at h
    · split at h
      · cases h
        exact .inr ⟨rfl, .inl rfl⟩
      · cases h
        exact .inr ⟨rfl, .inl rfl⟩
    · cases h
  | start p =>
    simp only [connectStep] at h
    split at h
    · cases h
      exact .inl ⟨p, _, rfl, rfl, rfl⟩
    · cases h

/-- With the condition, a connection is started on a new socket, which is then connected. -/
theorem restrictedStep_state {s s' : ConnectSys} {a : ConnectAct} {o : ConnectAns}
    (h : (connectSystem.restrict StillNew).step s a = some (s', o)) :
    (s.sock.state = .sockNew ∧ s'.sock.state = .sockConnected ∧
      ∃ c, startedConns [(a, o)] = [c]) ∨
    startedConns [(a, o)] = [] ∧ (s'.sock.state = s.sock.state ∨
      s.sock.state = .sockNew ∧ s'.sock.state = .sockListening) := by
  obtain ⟨hc, hs⟩ := System.restrict_step.mp h
  rcases connectStep_state hs with ⟨p, c, rfl, rfl, hst⟩ | hst
  · exact .inl ⟨hc, hst, c, rfl⟩
  · exact .inr hst

theorem startedConns_append (tr tr' : List (ConnectAct × ConnectAns)) :
    startedConns (tr ++ tr') = startedConns tr ++ startedConns tr' :=
  List.filterMap_append

/-! ### Whole runs -/

/-- The connections started so far: one if the socket is connected, none otherwise. -/
theorem started_of_run {s0 s : ConnectSys} {tr : List (ConnectAct × ConnectAns)}
    (h0 : connectSystem.init s0) (hr : (connectSystem.restrict StillNew).Run s0 tr s) :
    (startedConns tr).length = if s.sock.state = .sockConnected then 1 else 0 := by
  induction hr with
  | nil =>
    obtain ⟨domain, rfl⟩ := h0
    rfl
  | snoc _ hs ih =>
    rw [startedConns_append, List.length_append, ih]
    rcases restrictedStep_state hs with ⟨hn, hc, c, ho⟩ | ⟨ho, he | ⟨hn, hl⟩⟩
    · rw [ho, hn, hc]
      rfl
    · rw [ho, he]
      rfl
    · rw [ho, hn, hl]
      rfl

/-- A socket that has left the new state keeps its state and starts nothing. -/
theorem state_kept {s s' : ConnectSys} {tr : List (ConnectAct × ConnectAns)}
    (hr : (connectSystem.restrict StillNew).Run s tr s') (hn : s.sock.state ≠ .sockNew) :
    s'.sock.state = s.sock.state ∧ startedConns tr = [] := by
  induction hr with
  | nil => exact ⟨rfl, rfl⟩
  | snoc _ hs ih =>
    obtain ⟨hst, htr⟩ := ih
    rw [← hst] at hn
    rcases restrictedStep_state hs with ⟨hn', _⟩ | ⟨ho, he | ⟨hn', _⟩⟩
    · exact absurd hn' hn
    · refine ⟨he.trans hst, ?_⟩
      rw [startedConns_append, htr, ho]
      rfl
    · exact absurd hn' hn

/-- **The new state is left at most once**, if every `connect` finds the socket still new. -/
theorem leaves_new_once {s0 s : ConnectSys} {tr : List (ConnectAct × ConnectAns)}
    (h0 : connectSystem.init s0) (hr : (connectSystem.restrict StillNew).Run s0 tr s) :
    (startedConns tr).length ≤ 1 ∧
    ∀ tr' s', (connectSystem.restrict StillNew).Run s tr' s' → s.sock.state ≠ .sockNew →
      s'.sock.state = s.sock.state ∧ startedConns tr' = [] := by
  refine ⟨?_, ?_⟩
  · rw [started_of_run h0 hr]
    split <;> omega
  · intro tr' s' hr' hn
    exact state_kept hr' hn

/-- An address. -/
def unixAddr : SockAddr := ⟨.AF_UNIX, [115]⟩

/-- A host network that accepts every call; a dial gives connection `c`. -/
def openHost (c : ℕ) : DialHost := ⟨.ok (c, unixAddr), false, .error .other⟩

/-- A new Unix socket. -/
def connectStart : ConnectSys := ⟨.new .AF_UNIX, fun _ => .idle⟩

/-- One `connect` dials and starts, and a later one is refused. -/
theorem leaves_new_once_refused : ∃ s s' tr tr',
    (connectSystem.restrict StillNew).Run connectStart tr s ∧
    (connectSystem.restrict StillNew).Run s tr' s' ∧ s.sock.conn = some 3 ∧
    (startedConns tr).length ≤ 1 ∧ s'.sock.state = .sockConnected ∧ startedConns tr' = [] := by
  have hr := @System.exec_run _ _ _ (connectSystem.restrict StillNew) connectStart
    [.connect 0 unixAddr, .dial 0 (openHost 3), .start 0] _ _ rfl
  obtain ⟨h1, h2⟩ := leaves_new_once ⟨.AF_UNIX, rfl⟩ hr
  refine ⟨_, _, _, _, hr, System.exec_run _ [.connect 1 unixAddr] rfl, rfl, h1, ?_⟩
  exact h2 _ _ (System.exec_run _ [.connect 1 unixAddr] rfl) (by decide)

/-- Two calls that both pass the check, and a `connect` while the socket starts to listen. -/
theorem connected_twice :
    (∃ s tr, connectSystem.Run connectStart tr s ∧ startedConns tr = [3, 4]) ∧
    ∃ s s' tr, connectSystem.Reachable s ∧ connectSystem.Run s tr s' ∧
      s.sock.state = .sockListening ∧ s'.sock.state = .sockConnected := by
  have h1 := @System.exec_run _ _ _ connectSystem connectStart
    [.connect 0 unixAddr, .connect 1 unixAddr, .dial 0 (openHost 3), .dial 1 (openHost 4),
      .start 0, .start 1] _ _ rfl
  have h2 := @System.reachable_of_exec _ _ _ connectSystem connectStart _
    [.bind unixAddr ⟨.error .other, .ok (), none⟩, .connect 0 unixAddr, .dial 0 (openHost 3),
      .listen] _ ⟨.AF_UNIX, rfl⟩ rfl
  exact ⟨⟨_, _, h1, rfl⟩, _, _, _, h2, System.exec_run _ [.start 0] rfl, rfl, rfl⟩

end PgZero.Kernel
