import PgZero.Kernel.Connect
import PgZero.Kernel.SocketClose

/-!
# Accepting connections

Each listener of a socket has an `acceptLoop`. A connection comes from the host or is handed over by
`virtualListener.dial`; the loop puts it in the socket's queue, from which `accept` takes it for a
new socket. `release` takes the queue, closes the listeners and then the connections of the queue; a
loop that comes later closes the connection it holds.
-/

set_option autoImplicit false

namespace PgZero.Kernel

open Function Lib

/-- Where an `acceptLoop` is. -/
inductive LoopPc
  /-- not started -/
  | idle
  | accepting
  /-- `ln.Accept` has returned the connection -/
  | holding (c : ℕ)
  /-- with the connection, having found the socket released -/
  | closing (c : ℕ)
  | notifying
  | done
  deriving DecidableEq, Repr

/-- The connection that a loop holds. -/
def LoopPc.conn : LoopPc → Option ℕ
  | .holding c | .closing c => some c
  | _ => none

/-- Where `release` is. -/
inductive ReleasePc
  | idle
  /-- after the section, with the listeners and connections still to be closed -/
  | closing (lns queued : List ℕ)
  | done
  deriving DecidableEq, Repr

/-- The connections that `release` has still to close. -/
def ReleasePc.queued : ReleasePc → List ℕ
  | .closing _ queued => queued
  | _ => []

/-- A socket, its loops by listener and its accepted sockets. Connections are numbered; `obtained`
and `closes` record the loop that has obtained each of them and how often it was closed. -/
structure AcceptSys where
  sock : SharedSock
  released : Bool
  acceptQ : List ℕ
  n : Notifier
  loops : ℕ → LoopPc
  release : ReleasePc
  closedLn : ℕ → Bool
  /-- the calls of `dial`, with the listener and the server's end of the pipe -/
  dials : ℕ → Option (ℕ × ℕ)
  nconns : ℕ
  obtained : ℕ → Option ℕ
  closes : ℕ → ℕ
  accepted : ℕ → SharedSock
  socks : ℕ → SockSys
  nsocks : ℕ

/-- The steps of the callers, the loops and `release`. -/
inductive AcceptAct
  | listen
  /-- call `d` dials listener `l` -/
  | dial (d l : ℕ)
  /-- the loop of the listener receives what call `d` sends -/
  | handover (d : ℕ)
  | dialClosed (d : ℕ)
  | dialCancel (d : ℕ)
  /-- `Accept` of a host listener returns a connection -/
  | hostAccept (i : ℕ)
  | acceptErr (i : ℕ)
  /-- the loop's section -/
  | enqueue (i : ℕ)
  | loopClose (i : ℕ)
  | loopNotify (i : ℕ)
  | accept (peer : SockAddr) (halfClose : Bool)
  /-- a step of accepted socket `j` -/
  | sock (j : ℕ) (a : SockAct)
  | release
  /-- the next close of `release`, or its end -/
  | releaseNext

/-- What a step returns. -/
inductive AcceptAns
  | done
  | err (e : Errno)
  | enqueued (c : ℕ)
  | accepted (j c : ℕ)
  | took (queued : List ℕ)
  | sock (o : SockAns)
  deriving DecidableEq, Repr

namespace AcceptSys

/-- A socket bound to the listeners `lns`. -/
def start (domain : Domain) (addr : SockAddr) (lns : List Listener) : AcceptSys :=
  ⟨{ SharedSock.new domain with bound := some addr, lns }, false, [], .zero, fun _ => .idle, .idle,
    fun _ => false, fun _ => none, 0, fun _ => none, fun _ => 0, fun _ => .new domain,
    fun _ => .start false, 0⟩

/-- The loop of listener `i` goes on. -/
def setLoop (s : AcceptSys) (i : ℕ) (pc : LoopPc) : AcceptSys :=
  { s with loops := update s.loops i pc }

/-- The call `d` of `dial` goes on. -/
def setDial (s : AcceptSys) (d : ℕ) (x : Option (ℕ × ℕ)) : AcceptSys :=
  { s with dials := update s.dials d x }

/-- `c.Close()`, `k` times -/
def close (s : AcceptSys) (c k : ℕ) : AcceptSys :=
  { s with closes := update s.closes c (s.closes c + k) }

/-- `net.Pipe()`, or a connection of the host -/
def newConn (s : AcceptSys) : AcceptSys := { s with nconns := s.nconns + 1 }

/-- Loop `i` obtains connection `c`. -/
def obtain (s : AcceptSys) (i c : ℕ) : AcceptSys :=
  { s.setLoop i (.holding c) with obtained := update s.obtained c (some i) }

/-- The socket that `accept` makes for connection `c`. -/
def addSock (s : AcceptSys) (c : ℕ) (peer : SockAddr) (halfClose : Bool) : AcceptSys :=
  { s with
    accepted := update s.accepted s.nsocks
      (SharedSock.startConn
        { SharedSock.new s.sock.domain with bound := s.sock.bound, peer := some peer } c)
    socks := update s.socks s.nsocks { SockSys.start halfClose with
      sock := { newSocket with state := .sockConnected }, reader := .reading, writer := .starting }
    nsocks := s.nsocks + 1 }

end AcceptSys

/-- One step of a caller, of a loop or of `release`. -/
def acceptStep (s : AcceptSys) : AcceptAct → Option (AcceptSys × AcceptAns)
  | .listen =>
    match s.sock.listen with
    | (_, .error e) => some (s, .err e)
    | (sock, .ok ()) =>
      if s.sock.state = .sockListening then some (s, .done)
      else some ({ s with
        sock
        loops := fun i => if i < s.sock.lns.length then .accepting else s.loops i }, .done)
  | .dial d l =>
    if s.dials d = none ∧ s.sock.lns[l]? = some .virtual then
      some ({ s.newConn with dials := update s.dials d (some (l, s.nconns)) }, .done)
    else none
  | .handover d =>
    match s.dials d with
    | some (l, c) =>
      if s.loops l = .accepting then some ((s.setDial d none).obtain l c, .done) else none
    | none => none
  | .dialClosed d =>
    match s.dials d with
    | some (l, c) =>
      if s.closedLn l then some ((s.setDial d none).close c 1, .err .ECONNREFUSED) else none
    | none => none
  | .dialCancel d =>
    match s.dials d with
    | some (_, c) => some ((s.setDial d none).close c 1, .err Errno.EIO)
    | none => none
  | .hostAccept i =>
    if s.sock.lns[i]? = some .host ∧ s.loops i = .accepting then
      some (s.newConn.obtain i s.nconns, .done)
    else none
  | .acceptErr i =>
    if s.loops i = .accepting ∧ (s.sock.lns[i]? = some .virtual → s.closedLn i) then
      some (s.setLoop i .done, .done)
    else none
  | .enqueue i =>
    match s.loops i with
    | .holding c =>
      if s.released then some (s.setLoop i (.closing c), .done)
      else some ({ s.setLoop i .notifying with acceptQ := s.acceptQ ++ [c] }, .enqueued c)
    | _ => none
  | .loopClose i =>
    match s.loops i with
    | .closing c => some ((s.setLoop i .done).close c 1, .done)
    | _ => none
  | .loopNotify i =>
    if s.loops i = .notifying then some ({ s.setLoop i .accepting with n := s.n.notify }, .done)
    else none
  | .accept peer halfClose =>
    if s.sock.state ≠ .sockListening then some (s, .err .EINVAL)
    else
      match s.acceptQ with
      | [] => some (s, .err .EAGAIN)
      | c :: q =>
        some (({ s with acceptQ := q } : AcceptSys).addSock c peer halfClose, .accepted s.nsocks c)
  | .sock j a =>
    match (s.accepted j).conn, sockStep (s.socks j) a with
    | some c, some (x, o) =>
      -- the last descriptor is gone once
      if j < s.nsocks ∧ (a = .release → (s.socks j).sock.released = false) then
        some ({ s with socks := update s.socks j x }.close c o.closes, .sock o)
      else none
    | _, _ => none
  | .release =>
    if s.release = .idle then
      some ({ s with
        released := true
        acceptQ := []
        release := .closing (List.range s.sock.lns.length) s.acceptQ }, .took s.acceptQ)
    else none
  | .releaseNext =>
    match s.release with
    | .closing (l :: lns) queued =>
      some ({ s with
        release := .closing lns queued
        closedLn := update s.closedLn l true }, .done)
    | .closing [] (c :: queued) => some ({ s with release := .closing [] queued }.close c 1, .done)
    | .closing [] [] => some ({ s with release := .done, n := s.n.notify }, .done)
    | _ => none

/-- A socket and its listeners, from the start on. -/
def acceptSystem : System AcceptSys AcceptAct AcceptAns where
  init s := ∃ domain addr lns, s = .start domain addr lns
  step := acceptStep

end PgZero.Kernel
