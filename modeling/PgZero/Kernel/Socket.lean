import PgZero.Abi
import PgZero.Lib.System
import PgZero.Kernel.Notify

/-!
# Connected sockets

A connected socket buffers both directions. `readLoop` moves what `conn.Read` returns to `rbuf`, and
`writeLoop` hands snapshots of `wbuf` to `conn.Write`; both call the connection without the lock, so
any call on the socket can come between the connection's answer and the section that records it.
-/

set_option autoImplicit false

namespace PgZero.Kernel

open Lib

/-- The limit of `rbuf`. -/
def sockReadAhead : ℕ := 256 * 1024

/-- The limit of `wbuf`. -/
def sockWriteBuf : ℕ := 256 * 1024

/-- The size of the chunks `readLoop` reads. -/
def sockChunk : ℕ := 64 * 1024

/-- The state of a socket. -/
inductive SockState
  | sockNew
  | sockListening
  | sockConnected
  deriving DecidableEq, Repr

/-- The errors of `conn.Read`: `io.EOF`, `net.ErrClosed` and all others. -/
inductive ConnErr
  | eof
  | errClosed
  | other
  deriving DecidableEq, Repr

/-- Why the reader has stopped. -/
inductive ReadErr
  | eof
  | conn
  deriving DecidableEq, Repr

/-- What the socket's mutex guards. -/
structure Socket where
  state : SockState
  rbuf : List UInt8
  rerr : Option ReadErr
  wbuf : List UInt8
  werr : Bool
  wshut : Bool
  wdone : Bool
  released : Bool
  deriving DecidableEq, Repr

/-- A section on a socket: the data it leaves, the conditions it signals and what it returns. -/
structure SockSection (α : Type) where
  sock : Socket
  rcond : Bool
  wcond : Bool
  ret : Except Errno α

/-- `newSocket`. -/
def newSocket : Socket := ⟨.sockNew, [], none, [], false, false, false, false⟩

namespace Socket

/-- Receive into a buffer of `len` bytes. -/
def recv (s : Socket) (len : ℕ) (peek : Bool) : SockSection (List UInt8) :=
  if s.state ≠ .sockConnected then ⟨s, false, false, .error .ENOTCONN⟩
  else if len = 0 then ⟨s, false, false, .ok []⟩
  else if 0 < s.rbuf.length then
    if peek then ⟨s, false, false, .ok (s.rbuf.take len)⟩
    else ⟨{ s with rbuf := s.rbuf.drop len }, true, false, .ok (s.rbuf.take len)⟩
  else
    match s.rerr with
    | some .eof => ⟨s, false, false, .ok []⟩
    | some .conn => ⟨s, false, false, .error .ECONNRESET⟩
    | none => ⟨s, false, false, .error .EAGAIN⟩

/-- `send`. -/
def send (s : Socket) (b : List UInt8) : SockSection ℕ :=
  if s.state ≠ .sockConnected then ⟨s, false, false, .error .ENOTCONN⟩
  else if s.werr || s.wshut then ⟨s, false, false, .error .EPIPE⟩
  else if b.length = 0 then ⟨s, false, false, .ok 0⟩
  else
    let space : ℤ := sockWriteBuf - s.wbuf.length
    if space ≤ 0 then ⟨s, false, false, .error .EAGAIN⟩
    else
      let n := min b.length space.toNat
      ⟨{ s with wbuf := s.wbuf ++ b.take n }, false, true, .ok n⟩

/-- `shutdown`. -/
def shutdown (s : Socket) (how : ℤ) : SockSection Unit :=
  if s.state ≠ .sockConnected then ⟨s, false, false, .error .ENOTCONN⟩
  else if how = SHUT_WR ∨ how = SHUT_RDWR then ⟨{ s with wshut := true }, false, true, .ok ()⟩
  else ⟨s, false, false, .ok ()⟩

/-- The section of `release`. -/
def release (s : Socket) : SockSection Unit :=
  ⟨{ s with released := true, wshut := true }, true, true, .ok ()⟩

/-- `readLoop` takes up what `conn.Read` returned. -/
def append (s : Socket) (chunk : List UInt8) (err : Option ConnErr) : Socket :=
  { s with
    rbuf := s.rbuf ++ chunk
    rerr := match err with
      | none => s.rerr
      | some .other => some .conn
      | some .eof | some .errClosed => some .eof }

/-- `readLoop` waits for room. -/
def readerWaits (s : Socket) : Bool :=
  sockReadAhead ≤ s.rbuf.length && s.rerr = none && !s.released

/-- `writeLoop` cuts off the `n` bytes written. -/
def cut (s : Socket) (n : ℕ) (err : Bool) : Socket :=
  { s with wbuf := s.wbuf.drop n, werr := s.werr || err }

/-- `writeLoop` waits for output. -/
def writerWaits (s : Socket) : Bool := s.wbuf.length = 0 && !s.wshut && !s.werr

end Socket

/-! ### The loops -/

/-- Where `readLoop` is. -/
inductive ReaderPc
  | idle
  /-- in `conn.Read` -/
  | reading
  /-- `conn.Read` has returned, the section is still to come -/
  | read (chunk : List UInt8) (err : Option ConnErr)
  /-- in `rcond.Wait`, signalled or not -/
  | waiting (woken : Bool)
  | notifying (stop : Bool)
  | done
  deriving DecidableEq, Repr

/-- Where `writeLoop` is. -/
inductive WriterPc
  | idle
  | starting
  /-- in `wcond.Wait`, signalled or not -/
  | waiting (woken : Bool)
  /-- in `conn.Write` of `out` -/
  | writing (out : List UInt8)
  /-- `conn.Write` has returned `n`, the section is still to come -/
  | wrote (n : ℕ) (err : Bool)
  /-- after the loop, with what it read of `released` -/
  | closing (released : Bool)
  | notifying
  | done
  deriving DecidableEq, Repr

/-- A socket with its loops. `halfClose` says whether the connection has `CloseWrite`, and
`releasing` is a `release` after its section, with what it read of `conn != nil` and `wdone`. -/
structure SockSys where
  sock : Socket
  n : Notifier
  reader : ReaderPc
  writer : WriterPc
  releasing : Option (Bool × Bool)
  halfClose : Bool

namespace SockSys

/-- A new socket. -/
def start (halfClose : Bool) : SockSys := ⟨newSocket, .zero, .idle, .idle, none, halfClose⟩

/-- `rcond.Signal`. -/
def signalReader : ReaderPc → ReaderPc
  | .waiting _ => .waiting true
  | pc => pc

/-- `wcond.Signal`. -/
def signalWriter : WriterPc → WriterPc
  | .waiting _ => .waiting true
  | pc => pc

/-- Run a section of a call. -/
def call {α : Type} (s : SockSys) (x : SockSection α) : SockSys :=
  { s with
    sock := x.sock
    reader := if x.rcond then signalReader s.reader else s.reader
    writer := if x.wcond then signalWriter s.writer else s.writer }

/-- The end of `readLoop`'s section: wait for room, or unlock. -/
def readRoom (s : SockSys) : SockSys :=
  if s.sock.readerWaits then { s with reader := .waiting false }
  else { s with reader := .notifying (s.sock.rerr ≠ none || s.sock.released) }

/-- The head of `writeLoop`, with the lock: wait, leave the loop, or write a snapshot. -/
def writeHead (s : SockSys) : SockSys :=
  if s.sock.writerWaits then { s with writer := .waiting false }
  else if s.sock.werr ∨ (s.sock.wbuf.length = 0 ∧ s.sock.wshut) then
    { s with sock := { s.sock with wdone := true }, writer := .closing s.sock.released }
  else { s with writer := .writing s.sock.wbuf }

end SockSys

/-- The calls, and the steps of the loops. -/
inductive SockAct
  | startConn
  | recv (len : ℕ) (peek : Bool)
  | send (b : List UInt8)
  | shutdown (how : ℤ)
  | release
  /-- `release` after its section -/
  | releaseConn
  | changed
  /-- `conn.Read` returns -/
  | connRead (chunk : List UInt8) (err : Option ConnErr)
  | append
  | readWake
  | readNotify
  | writeLock
  /-- `conn.Write` returns -/
  | connWrite (n : ℕ) (err : Bool)
  | cut
  | writeClose
  | writeNotify
  deriving DecidableEq, Repr

/-- What a step calls on the connection after its last byte. -/
inductive ConnOp
  | close
  | closeWrite
  | setWriteDeadline
  deriving DecidableEq, Repr

/-- What a step returns. -/
inductive SockAns
  | done
  | err (e : Errno)
  | got (bs : List UInt8)
  | sent (n : ℕ)
  | channel (c : ℕ)
  | transmitted (bs : List UInt8)
  | conn (op : Option ConnOp)
  deriving DecidableEq, Repr

/-- The answer of a call. -/
def answer {α : Type} (f : α → SockAns) : Except Errno α → SockAns
  | .ok a => f a
  | .error e => .err e

/-- One step of a call, or of a loop. -/
def sockStep (s : SockSys) : SockAct → Option (SockSys × SockAns)
  | .startConn =>
    if s.sock.state = .sockNew then
      some ({ s with
        sock := { s.sock with state := .sockConnected }
        reader := .reading
        writer := .starting }, .done)
    else none
  | .recv len peek =>
    let x := s.sock.recv len peek
    some (s.call x, answer .got x.ret)
  | .send b =>
    let x := s.sock.send b
    some (s.call x, answer .sent x.ret)
  | .shutdown how =>
    let x := s.sock.shutdown how
    some (s.call x, answer (fun _ => .done) x.ret)
  | .release =>
    if s.releasing = none then
      some ({ s.call s.sock.release with
        releasing := some (s.sock.state = .sockConnected, s.sock.wdone) }, .done)
    else none
  | .releaseConn =>
    match s.releasing with
    | some (conn, wdone) =>
      some ({ s with releasing := none, n := s.n.notify },
        .conn (if conn && wdone then some .close else if conn then some .setWriteDeadline else none))
    | none => none
  | .changed => some ({ s with n := s.n.wait.1 }, .channel s.n.wait.2)
  | .connRead chunk err =>
    if s.reader = .reading ∧ chunk.length ≤ sockChunk then
      some ({ s with reader := .read chunk err }, .done)
    else none
  | .append =>
    match s.reader with
    | .read chunk err => some (({ s with sock := s.sock.append chunk err } : SockSys).readRoom, .done)
    | _ => none
  | .readWake => if s.reader = .waiting true then some (s.readRoom, .done) else none
  | .readNotify =>
    match s.reader with
    | .notifying stop =>
      some ({ s with n := s.n.notify, reader := if stop then .done else .reading }, .done)
    | _ => none
  | .writeLock =>
    if s.writer = .starting ∨ s.writer = .waiting true then some (s.writeHead, .done) else none
  | .connWrite n err =>
    match s.writer with
    | .writing out =>
      if n ≤ out.length then some ({ s with writer := .wrote n err }, .transmitted (out.take n))
      else none
    | _ => none
  | .cut =>
    match s.writer with
    | .wrote n err =>
      some (({ s with sock := s.sock.cut n err, n := s.n.notify } : SockSys).writeHead, .done)
    | _ => none
  | .writeClose =>
    match s.writer with
    | .closing released =>
      some ({ s with writer := .notifying },
        .conn (if released then some .close else if s.halfClose then some .closeWrite else none))
    | _ => none
  | .writeNotify =>
    if s.writer = .notifying then some ({ s with n := s.n.notify, writer := .done }, .done) else none

/-- The runs of a socket, from its creation. -/
def sockSystem : System SockSys SockAct SockAns where
  init s := ∃ halfClose, s = .start halfClose
  step := sockStep

/-! ### The steps -/

/-- What a step of a socket does. -/
inductive SockCase (s : SockSys) : SockAct → SockSys → SockAns → Prop
  | startConn (h : s.sock.state = .sockNew) : SockCase s .startConn { s with
      sock := { s.sock with state := .sockConnected }
      reader := .reading
      writer := .starting } .done
  | recv (len : ℕ) (peek : Bool) : SockCase s (.recv len peek)
      (s.call (s.sock.recv len peek)) (answer .got (s.sock.recv len peek).ret)
  | send (b : List UInt8) : SockCase s (.send b)
      (s.call (s.sock.send b)) (answer .sent (s.sock.send b).ret)
  | shutdown (how : ℤ) : SockCase s (.shutdown how)
      (s.call (s.sock.shutdown how)) (answer (fun _ => .done) (s.sock.shutdown how).ret)
  | release (h : s.releasing = none) : SockCase s .release { s.call s.sock.release with
      releasing := some (s.sock.state = .sockConnected, s.sock.wdone) } .done
  | releaseConn (conn wdone : Bool) (h : s.releasing = some (conn, wdone)) :
      SockCase s .releaseConn { s with releasing := none, n := s.n.notify }
        (.conn (if conn && wdone then some .close
          else if conn then some .setWriteDeadline else none))
  | changed : SockCase s .changed { s with n := s.n.wait.1 } (.channel s.n.wait.2)
  | connRead (chunk : List UInt8) (err : Option ConnErr) (h : s.reader = .reading)
      (hc : chunk.length ≤ sockChunk) :
      SockCase s (.connRead chunk err) { s with reader := .read chunk err } .done
  | append (chunk : List UInt8) (err : Option ConnErr) (h : s.reader = .read chunk err) :
      SockCase s .append ({ s with sock := s.sock.append chunk err } : SockSys).readRoom .done
  | readWake (h : s.reader = .waiting true) : SockCase s .readWake s.readRoom .done
  | readNotify (stop : Bool) (h : s.reader = .notifying stop) : SockCase s .readNotify
      { s with n := s.n.notify, reader := if stop then .done else .reading } .done
  | writeLock (h : s.writer = .starting ∨ s.writer = .waiting true) :
      SockCase s .writeLock s.writeHead .done
  | connWrite (out : List UInt8) (n : ℕ) (err : Bool) (h : s.writer = .writing out)
      (hn : n ≤ out.length) :
      SockCase s (.connWrite n err) { s with writer := .wrote n err } (.transmitted (out.take n))
  | cut (n : ℕ) (err : Bool) (h : s.writer = .wrote n err) : SockCase s .cut
      ({ s with sock := s.sock.cut n err, n := s.n.notify } : SockSys).writeHead .done
  | writeClose (released : Bool) (h : s.writer = .closing released) :
      SockCase s .writeClose { s with writer := .notifying }
        (.conn (if released then some .close else if s.halfClose then some .closeWrite else none))
  | writeNotify (h : s.writer = .notifying) :
      SockCase s .writeNotify { s with n := s.n.notify, writer := .done } .done

theorem sockCase_of_step {s s' : SockSys} {a : SockAct} {o : SockAns}
    (h : sockStep s a = some (s', o)) : SockCase s a s' o := by
  cases a with
  | startConn =>
    obtain ⟨hnew, he⟩ := Option.ite_none_right_eq_some.mp h
    cases he
    exact .startConn hnew
  | recv len peek =>
    cases h
    exact .recv len peek
  | send b =>
    cases h
    exact .send b
  | shutdown how =>
    cases h
    exact .shutdown how
  | release =>
    obtain ⟨hr, he⟩ := Option.ite_none_right_eq_some.mp h
    cases he
    exact .release hr
  | releaseConn =>
    cases hr : s.releasing <;> simp only [sockStep, hr, reduceCtorEq] at h
    cases h
    exact .releaseConn _ _ hr
  | changed =>
    cases h
    exact .changed
  | connRead chunk err =>
    obtain ⟨⟨hr, hc⟩, he⟩ := Option.ite_none_right_eq_some.mp h
    cases he
    exact .connRead chunk err hr hc
  | append =>
    cases hr : s.reader <;> simp only [sockStep, hr, reduceCtorEq] at h
    cases h
    exact .append _ _ hr
  | readWake =>
    obtain ⟨hr, he⟩ := Option.ite_none_right_eq_some.mp h
    cases he
    exact .readWake hr
  | readNotify =>
    cases hr : s.reader <;> simp only [sockStep, hr, reduceCtorEq] at h
    cases h
    exact .readNotify _ hr
  | writeLock =>
    obtain ⟨hw, he⟩ := Option.ite_none_right_eq_some.mp h
    cases he
    exact .writeLock hw
  | connWrite n err =>
    cases hw : s.writer <;> simp only [sockStep, hw, reduceCtorEq] at h
    obtain ⟨hn, he⟩ := Option.ite_none_right_eq_some.mp h
    cases he
    exact .connWrite _ n err hw hn
  | cut =>
    cases hw : s.writer <;> simp only [sockStep, hw, reduceCtorEq] at h
    cases h
    exact .cut _ _ hw
  | writeClose =>
    cases hw : s.writer <;> simp only [sockStep, hw, reduceCtorEq] at h
    cases h
    exact .writeClose _ hw
  | writeNotify =>
    obtain ⟨hw, he⟩ := Option.ite_none_right_eq_some.mp h
    cases he
    exact .writeNotify hw

end PgZero.Kernel
