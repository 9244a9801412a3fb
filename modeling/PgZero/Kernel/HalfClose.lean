import PgZero.Kernel.ReadAhead
import PgZero.Kernel.SocketClose

/-!
# Half-close and the two transports

A connection is a host connection, which can close its write side alone, or an in-memory pipe, which
cannot. `writeLoop` asks the connection at run time, and does nothing at the end of the stream if it
cannot.

* **`still_receives`**: a socket whose read side has not ended goes on to receive.
* **`half_close`**: over a host connection the peer reads all bytes and then end of file.
* **`pipe_no_eof`**, **`half_close_pipe`**: over a pipe it waits until the socket is released.
-/

set_option autoImplicit false

namespace PgZero.Kernel

open Lib WriterPc SockAns

/-! ### The peer -/

/-- What carries a connection: TCP and Unix sockets of the host, or the pipe that `DialUnix`
makes. -/
inductive Transport
  | host
  | pipe
  deriving DecidableEq, Repr

/-- The connection has `CloseWrite`. -/
def Transport.closeWrite : Transport → Bool
  | .host => true
  | .pipe => false

/-- A socket and its peer: the bytes on their way to it, and whether its reads end after them. -/
structure PeerSys where
  sys : SockSys
  inbox : List UInt8
  eof : Bool

/-- A new connection. -/
def PeerSys.start (t : Transport) : PeerSys := ⟨.start t.closeWrite, [], false⟩

/-- The step closes the connection, or its write side. -/
def SockAns.ends : SockAns → Bool
  | .conn (some .close) | .conn (some .closeWrite) => true
  | _ => false

/-- The steps of the socket and of its peer. -/
inductive PeerAct
  | sock (a : SockAct)
  | peerRead (len : ℕ)
  deriving DecidableEq, Repr

/-- What a step returns. -/
inductive PeerAns
  | sock (o : SockAns)
  | got (bs : List UInt8)
  | eof
  deriving DecidableEq, Repr

/-- One step of the socket, or of its peer. -/
def peerStep (s : PeerSys) : PeerAct → Option (PeerSys × PeerAns)
  | .sock a =>
    (sockStep s.sys a).map fun r =>
      (⟨r.1, s.inbox ++ Sock.transmitted (a, r.2), s.eof || r.2.ends⟩, .sock r.2)
  | .peerRead len =>
    if s.inbox ≠ [] then some ({ s with inbox := s.inbox.drop len }, .got (s.inbox.take len))
    -- a read of an open connection blocks
    else if s.eof then some (s, .eof) else none

/-- A socket and its peer. -/
def peerSystem (t : Transport) : System PeerSys PeerAct PeerAns where
  init s := s = .start t
  step := peerStep

namespace Peer

/-- The steps of the socket. -/
def sockTrace (tr : List (PeerAct × PeerAns)) : List (SockAct × SockAns) :=
  tr.filterMap fun
    | (.sock a, .sock o) => some (a, o)
    | _ => none

/-- The bytes that the peer has read. -/
def readBytes : PeerAct × PeerAns → List UInt8
  | (.peerRead _, .got bs) => bs
  | _ => []

/-- The bytes the peer has read. -/
def bytes (tr : List (PeerAct × PeerAns)) : List UInt8 := (tr.map readBytes).flatten

@[simp] theorem bytes_snoc (tr : List (PeerAct × PeerAns)) (x : PeerAct × PeerAns) :
    bytes (tr ++ [x]) = bytes tr ++ readBytes x := by
  simp [bytes]

@[simp] theorem sockTrace_sock (tr : List (PeerAct × PeerAns)) (a : SockAct) (o : SockAns) :
    sockTrace (tr ++ [(.sock a, .sock o)]) = sockTrace tr ++ [(a, o)] := by
  simp [sockTrace]

@[simp] theorem sockTrace_peerRead (tr : List (PeerAct × PeerAns)) (len : ℕ) (o : PeerAns) :
    sockTrace (tr ++ [(.peerRead len, o)]) = sockTrace tr := by
  simp [sockTrace]

end Peer

/-! ### The end of the write side -/

/-- `writeLoop` is past its call on the connection. -/
def WriterPc.finished : WriterPc → Bool
  | .notifying | .done => true
  | .idle | .starting | .waiting _ | .writing _ | .wrote _ _ | .closing _ => false

theorem WriterPc.ended_signal (pc : WriterPc) : (SockSys.signalWriter pc).ended = pc.ended := by
  cases pc <;> rfl

theorem WriterPc.finished_signal (pc : WriterPc) :
    (SockSys.signalWriter pc).finished = pc.finished := by
  cases pc <;> rfl

theorem WriterPc.signal_closing {pc : WriterPc} {r : Bool}
    (h : SockSys.signalWriter pc = .closing r) : pc = .closing r := by
  cases pc <;> first | exact h | cases h

theorem ReaderPc.signal_idle {pc : ReaderPc} (h : SockSys.signalReader pc = .idle) :
    pc = .idle := by
  cases pc <;> first | rfl | cases h

/-- The write side of a socket whose peer has, or has not, been sent end of file. -/
structure EndInv (halfClose : Bool) (s : SockSys) (eof : Bool) : Prop where
  half : s.halfClose = halfClose
  conn : s.writer ≠ .idle → s.sock.state = .sockConnected ∧ s.reader ≠ .idle
  wdone : s.writer.ended = true → s.sock.wdone = true
  early : s.sock.released = false →
    s.releasing = none ∧ s.writer ≠ .closing true ∧ (halfClose = false → eof = false)
  closed : halfClose = true → s.writer.finished = true → eof = true

namespace EndInv

variable {halfClose : Bool} {s s' : SockSys} {eof : Bool}

/-- A step that leaves the write side alone, or only signals `writeLoop`. -/
theorem congr (h : EndInv halfClose s eof) (hst : s'.sock.state = s.sock.state)
    (hd : s'.sock.wdone = s.sock.wdone) (hr : s'.sock.released = s.sock.released)
    (hrel : s'.releasing = s.releasing) (hh : s'.halfClose = s.halfClose)
    (hw : s'.writer = s.writer ∨ s'.writer = SockSys.signalWriter s.writer)
    (hrd : s.reader ≠ .idle → s'.reader ≠ .idle) : EndInv halfClose s' eof := by
  have hidle : s.writer = .idle → s'.writer = .idle := by
    intro hi
    rcases hw with hw | hw <;> rw [hw, hi]
    rfl
  have hend : s'.writer.ended = s.writer.ended := by
    rcases hw with hw | hw <;> rw [hw]
    exact s.writer.ended_signal
  have hfin : s'.writer.finished = s.writer.finished := by
    rcases hw with hw | hw <;> rw [hw]
    exact s.writer.finished_signal
  have hcl : s'.writer = .closing true → s.writer = .closing true := by
    rcases hw with hw | hw <;> rw [hw]
    · exact id
    · exact signal_closing
  refine ⟨hh.trans h.half, fun hne => ?_, fun he => ?_, fun hf => ?_, fun hhc hfi => ?_⟩
  · rw [hst]
    exact (h.conn (mt hidle hne)).imp_right hrd
  · rw [hd]
    exact h.wdone (hend ▸ he)
  · obtain ⟨h1, h2, h3⟩ := h.early (hr ▸ hf)
    exact ⟨hrel.trans h1, mt hcl h2, h3⟩
  · exact h.closed hhc (hfin ▸ hfi)

theorem call {α : Type} (h : EndInv halfClose s eof) (x : SockSection α)
    (hst : x.sock.state = s.sock.state) (hd : x.sock.wdone = s.sock.wdone)
    (hr : x.sock.released = s.sock.released) :
    EndInv halfClose (s.call x) eof := by
  refine h.congr hst hd hr rfl rfl ?_ fun hne => ?_
  · unfold SockSys.call
    dsimp only
    split
    · exact .inr rfl
    · exact .inl rfl
  · unfold SockSys.call
    dsimp only
    split
    · exact mt ReaderPc.signal_idle hne
    · exact hne

theorem readRoom (h : EndInv halfClose s eof) : EndInv halfClose s.readRoom eof := by
  unfold SockSys.readRoom
  split
  · exact h.congr rfl rfl rfl rfl rfl (.inl rfl) fun _ => by simp
  · exact h.congr rfl rfl rfl rfl rfl (.inl rfl) fun _ => by simp

theorem goto (h : EndInv halfClose s eof) (hne : s.writer ≠ .idle) {pc : WriterPc}
    (he : pc.ended = false) : EndInv halfClose { s with writer := pc } eof := by
  refine ⟨h.half, fun _ => h.conn hne, fun hx => ?_, fun hf => ?_, fun _ hx => ?_⟩
  · exact absurd (he.symm.trans hx) Bool.false_ne_true
  · obtain ⟨h1, -, h3⟩ := h.early hf
    refine ⟨h1, fun hp => ?_, h3⟩
    obtain rfl : pc = .closing true := hp
    cases he
  · cases pc <;> simp_all [ended, finished]

theorem writeHead (h : EndInv halfClose s eof) (hne : s.writer ≠ .idle) :
    EndInv halfClose s.writeHead eof := by
  unfold SockSys.writeHead
  split_ifs
  · exact h.goto hne rfl
  · refine ⟨h.half, fun _ => h.conn hne, fun _ => rfl, fun hf => ?_,
      fun _ hx => absurd hx Bool.false_ne_true⟩
    obtain ⟨h1, -, h3⟩ := h.early hf
    exact ⟨h1, fun hp => absurd ((closing.inj hp).symm.trans hf) Bool.noConfusion, h3⟩
  · exact h.goto hne rfl

theorem release (h : EndInv halfClose s eof) (r : Option (Bool × Bool)) :
    EndInv halfClose { s.call s.sock.release with releasing := r } eof := by
  refine ⟨h.half, fun hne => ?_, fun he => h.wdone (s.writer.ended_signal.symm.trans he),
    fun hf => absurd hf.symm Bool.false_ne_true,
    fun hhc hfi => h.closed hhc (s.writer.finished_signal.symm.trans hfi)⟩
  have hc := h.conn fun hi => hne (show SockSys.signalWriter s.writer = .idle by rw [hi]; rfl)
  exact ⟨hc.1, mt ReaderPc.signal_idle hc.2⟩

/-- **What a step does at the end of the write side.** -/
theorem step (h : EndInv halfClose s eof) {a : SockAct} {o : SockAns}
    (hs : sockStep s a = some (s', o)) : EndInv halfClose s' (eof || o.ends) := by
  have hdone : (eof || done.ends) = eof := Bool.or_false eof
  have hans : ∀ {α : Type} {f : α → SockAns} {r : Except Errno α}, (∀ a, (f a).ends = false) →
      (eof || (answer f r).ends) = eof := by
    intro α f r hf
    cases r with
    | ok a => simp [answer, hf]
    | error e => simp [answer, ends]
  cases sockCase_of_step hs with
  | startConn =>
    rw [hdone]
    refine ⟨h.half, fun _ => ⟨rfl, by simp⟩, fun hx => absurd hx Bool.false_ne_true, fun hf => ?_,
      fun _ hx => absurd hx Bool.false_ne_true⟩
    obtain ⟨h1, -, h3⟩ := h.early hf
    exact ⟨h1, by simp, h3⟩
  | recv len peek =>
    obtain ⟨h1, h2, h3⟩ := s.sock.recv_flags len peek
    rw [hans fun _ => rfl]
    exact h.call _ h1 h2 h3
  | send b =>
    obtain ⟨h1, h2, h3⟩ := s.sock.send_flags b
    rw [hans fun _ => rfl]
    exact h.call _ h1 h2 h3
  | shutdown how =>
    obtain ⟨h1, h2, h3⟩ := s.sock.shutdown_flags how
    rw [hans fun _ => rfl]
    exact h.call _ h1 h2 h3
  | release =>
    rw [hdone]
    exact h.release _
  | releaseConn conn wdone hrel =>
    refine ⟨h.half, h.conn, h.wdone, fun hf => ?_, fun hhc hfi => ?_⟩
    · -- a `release` in progress has released the socket
      exact absurd (hrel.symm.trans (h.early hf).1) (by simp)
    · rw [h.closed hhc hfi, Bool.true_or]
  | changed =>
    rw [show (eof || (channel s.n.wait.2).ends) = eof from Bool.or_false eof]
    exact h.congr rfl rfl rfl rfl rfl (.inl rfl) id
  | connRead chunk err =>
    rw [hdone]
    exact h.congr rfl rfl rfl rfl rfl (.inl rfl) fun _ => by simp
  | append chunk err hpc =>
    rw [hdone]
    refine readRoom ?_
    exact h.congr rfl rfl rfl rfl rfl (.inl rfl) fun _ => by simp [hpc]
  | readWake =>
    rw [hdone]
    exact h.readRoom
  | readNotify stop =>
    rw [hdone]
    refine h.congr rfl rfl rfl rfl rfl (.inl rfl) fun _ => ?_
    cases stop <;> simp
  | writeLock hpc =>
    rw [hdone]
    refine h.writeHead ?_
    rcases hpc with hpc | hpc <;> simp [hpc]
  | connWrite out n err hpc =>
    rw [show ∀ bs, (eof || (transmitted bs).ends) = eof from fun _ => Bool.or_false eof]
    exact h.goto (by simp [hpc]) rfl
  | cut n err hpc =>
    rw [hdone]
    refine writeHead ?_ (by simp [hpc])
    exact h.congr rfl rfl rfl rfl rfl (.inl rfl) id
  | writeClose released hpc =>
    have hcl : s.writer.ended = true := by rw [hpc]; rfl
    refine ⟨h.half, fun _ => h.conn (by simp [hpc]), fun _ => h.wdone hcl, fun hf => ?_,
      fun hhc _ => ?_⟩
    · obtain ⟨h1, h2, h3⟩ := h.early hf
      have hr : released = false := by
        cases released with
        | false => rfl
        | true => exact absurd hpc h2
      refine ⟨h1, by simp, fun hhc => ?_⟩
      have hhc' : s.halfClose = false := h.half.trans hhc
      simp [h3 hhc, hr, hhc', ends]
    · have hhc' : s.halfClose = true := h.half.trans hhc
      cases released <;> simp [hhc', ends]
  | writeNotify hpc =>
    rw [hdone]
    have hend : s.writer.ended = true ∧ s.writer.finished = true := by rw [hpc]; exact ⟨rfl, rfl⟩
    refine ⟨h.half, fun _ => h.conn (by simp [hpc]), fun _ => h.wdone hend.1, fun hf => ?_,
      fun hhc _ => h.closed hhc hend.2⟩
    obtain ⟨h1, -, h3⟩ := h.early hf
    exact ⟨h1, by simp, h3⟩

end EndInv

/-! ### The read side -/

/-- The loop is stopped only by an end of the stream or a release. -/
def Ahead.Stops (a : Ahead) : Prop :=
  a.pc = .notifying true ∨ a.pc = .done → a.ended = true ∨ a.released = true

theorem Ahead.Stops.room {limit : ℕ} {a : Ahead} : (a.room limit).Stops := by
  unfold Ahead.room Ahead.Stops
  split
  · simp
  · intro h
    simpa using h

theorem Ahead.Stops.step {limit chunk : ℕ} {a a' : Ahead} (h : a.Stops)
    (hs : Ahead.Step limit chunk a a') : a'.Stops := by
  cases hs with
  | skip => exact h
  | start | hostRead => simp [Ahead.Stops]
  | append | wake => exact Ahead.Stops.room
  | @loopNotify stop hpc =>
    cases stop with
    | false => simp [Ahead.Stops]
    | true => exact fun _ => h (.inl hpc)
  | notify | wait => exact h
  | drain k =>
    intro hpc
    refine h ?_
    cases hp : a.pc <;> simp_all [Ahead.signal]
  | release => exact fun _ => .inr rfl

theorem sock_stops {s : SockSys} (h : sockSystem.Reachable s) : s.ahead.Stops := by
  have hP : sockSystem.Reachable s ∧ s.ahead.Stops := by
    refine h.invariant (P := fun s => sockSystem.Reachable s ∧ s.ahead.Stops)
      (fun s hi => ⟨⟨_, _, hi, .nil⟩, ?_⟩) fun s e s' o hs hst => ?_
    · obtain ⟨halfClose, rfl⟩ := hi
      rintro (hpc | hpc) <;> cases hpc
    · exact ⟨hs.1.step hst, hs.2.step (SockSys.ahead_step (SockSys.fresh hs.1) hst)⟩
  exact hP.2

/-- The read side runs, and the peer's stream has not ended. A loop that has not been signalled
waits for the buffer to be read. -/
structure Live (s : SockSys) : Prop where
  conn : s.sock.state = .sockConnected
  rerr : s.sock.rerr = none
  released : s.sock.released = false
  runs : s.reader = .reading ∨ (∃ c, s.reader = .read c none) ∨ s.reader = .notifying false ∨
    s.reader = .waiting true ∨ (s.reader = .waiting false ∧ s.sock.rbuf ≠ [])

/-- The loop is in `conn.Read`, and all it has read is delivered. -/
structure Awaits (s : SockSys) : Prop where
  conn : s.sock.state = .sockConnected
  rerr : s.sock.rerr = none
  released : s.sock.released = false
  reading : s.reader = .reading
  rbuf : s.sock.rbuf = []

/-- A step in which the connection returns nothing. -/
def QuietStep (s s' : SockSys) : Prop :=
  ∃ a o, sockStep s a = some (s', o) ∧ Sock.received (a, o) = []

/-- Some steps of the socket alone lead to `Awaits`. -/
def Settles (s : SockSys) : Prop := ∃ s', Relation.ReflTransGen QuietStep s s' ∧ Awaits s'

section Receive

variable {s s' : SockSys}

theorem quiet_run (h : Relation.ReflTransGen QuietStep s s') :
    ∃ tr, sockSystem.Run s tr s' ∧ Sock.bytes Sock.received tr = [] := by
  induction h with
  | refl => exact ⟨[], .nil, rfl⟩
  | tail _ hs ih =>
    obtain ⟨tr, hr, hb⟩ := ih
    obtain ⟨a, o, hst, hq⟩ := hs
    have hst' : sockSystem.step _ a = some (_, o) := hst
    refine ⟨_, hr.snoc hst', ?_⟩
    rw [Sock.bytes_snoc, hb, hq]
    rfl

theorem Settles.head (hs : QuietStep s s') (h : Settles s') : Settles s := by
  obtain ⟨s1, hr, ha⟩ := h
  exact ⟨s1, .head hs hr, ha⟩

theorem settles_notifying (h : Live s) (hpc : s.reader = .notifying false)
    (hb : s.sock.rbuf = []) : Settles s := by
  have hst : sockStep s .readNotify =
      some ({ s with n := s.n.notify, reader := .reading }, .done) := by
    simp [sockStep, hpc]
  exact ⟨_, .single ⟨_, _, hst, rfl⟩, h.conn, h.rerr, h.released, rfl, hb⟩

theorem readRoom_of_lt (h : Live s) (hl : s.sock.rbuf.length < sockReadAhead) :
    s.readRoom = { s with reader := .notifying false } := by
  have hw : s.sock.readerWaits = false := by simp [Socket.readerWaits, hl]
  rw [SockSys.readRoom, if_neg (by simp [hw])]
  simp [h.rerr, h.released]

theorem settles_waiting (h : Live s) (hpc : s.reader = .waiting true) (hb : s.sock.rbuf = []) :
    Settles s := by
  have hl : s.sock.rbuf.length < sockReadAhead := by
    rw [hb]
    decide
  have hst : sockStep s .readWake = some ({ s with reader := .notifying false }, .done) := by
    rw [sockStep, if_pos hpc, readRoom_of_lt h hl]
  refine Settles.head ⟨_, _, hst, rfl⟩ (settles_notifying ?_ rfl hb)
  exact ⟨h.conn, h.rerr, h.released, .inr (.inr (.inl rfl))⟩

theorem settles_empty (h : Live s) (hpc : ∀ c, s.reader ≠ .read c none) (hb : s.sock.rbuf = []) :
    Settles s := by
  rcases h.runs with hr | ⟨c, hr⟩ | hr | hr | ⟨-, hr⟩
  · exact ⟨s, .refl, h.conn, h.rerr, h.released, hr, hb⟩
  · exact absurd hr (hpc c)
  · exact settles_notifying h hr hb
  · exact settles_waiting h hr hb
  · exact absurd hb hr

theorem recv_drains (hc : s.sock.state = .sockConnected) (hb : s.sock.rbuf ≠ []) :
    ∃ bs, sockStep s (.recv s.sock.rbuf.length false) =
      some ({ s with
        sock := { s.sock with rbuf := [] }
        reader := SockSys.signalReader s.reader }, .got bs) := by
  have hl : 0 < s.sock.rbuf.length := List.length_pos_iff.mpr hb
  have hrecv : s.sock.recv s.sock.rbuf.length false =
      ⟨{ s.sock with rbuf := [] }, true, false, .ok s.sock.rbuf⟩ := by
    rw [Socket.recv, if_neg (by simp [hc]), if_neg hl.ne', if_pos hl]
    simp
  exact ⟨s.sock.rbuf, by simp [sockStep, hrecv, SockSys.call, answer]⟩

theorem settles_drain (h : Live s) (hpc : ∀ c, s.reader ≠ .read c none) : Settles s := by
  by_cases hb : s.sock.rbuf = []
  · exact settles_empty h hpc hb
  obtain ⟨bs, hst⟩ := recv_drains h.conn hb
  refine Settles.head ⟨_, _, hst, rfl⟩ (settles_empty ⟨h.conn, h.rerr, h.released, ?_⟩ ?_ rfl)
  · rcases h.runs with hr | ⟨c, hr⟩ | hr | hr | ⟨hr, -⟩ <;> simp [hr, SockSys.signalReader]
  · intro c hc
    rcases h.runs with hr | ⟨c, hr⟩ | hr | hr | ⟨hr, -⟩ <;> simp_all [SockSys.signalReader]

theorem Live.settles (h : Live s) : Settles s := by
  by_cases hpc : ∃ c, s.reader = .read c none
  · obtain ⟨c, hpc⟩ := hpc
    have hst : sockStep s .append =
        some (({ s with sock := s.sock.append c none } : SockSys).readRoom, .done) := by
      simp [sockStep, hpc]
    refine Settles.head ⟨_, _, hst, rfl⟩ (settles_drain ?_ ?_)
    · unfold SockSys.readRoom
      split
      · next hw =>
        refine ⟨h.conn, h.rerr, h.released, .inr (.inr (.inr (.inr ⟨rfl, fun hnil => ?_⟩)))⟩
        have hnil' : (s.sock.append c none).rbuf = [] := hnil
        simp [Socket.readerWaits, hnil', sockReadAhead] at hw
      · refine ⟨h.conn, h.rerr, h.released, .inr (.inr (.inl ?_))⟩
        simp [Socket.append, h.rerr, h.released]
    · intro c'
      unfold SockSys.readRoom
      split <;> simp
  · exact settles_drain h fun c hc => hpc ⟨c, hc⟩

/-- **A socket whose read side has not ended goes on to receive** whatever the peer sends. -/
theorem still_receives (h : Live s) {chunk : List UInt8} (hne : chunk ≠ [])
    (hle : chunk.length ≤ sockChunk) :
    ∃ tr s', sockSystem.Run s tr s' ∧ Sock.bytes Sock.received tr = chunk ∧
      s'.sock.rbuf = [] ∧ s'.reader.pending = [] := by
  obtain ⟨s1, hquiet, ha⟩ := h.settles
  obtain ⟨tr, hr, hb⟩ := quiet_run hquiet
  have hread : sockSystem.step s1 (.connRead chunk none) =
      some ({ s1 with reader := .read chunk none }, .done) := by
    simp [sockSystem, sockStep, ha.reading, hle]
  -- the chunk is added to an empty buffer, and does not fill it
  have hadd : s1.sock.append chunk none = { s1.sock with rbuf := chunk } := by
    simp [Socket.append, ha.rbuf]
  have hlt : chunk.length < sockReadAhead := lt_of_le_of_lt hle (by decide)
  have happend : sockSystem.step { s1 with reader := .read chunk none } .append =
      some ({ s1 with sock := { s1.sock with rbuf := chunk }, reader := .notifying false },
        .done) := by
    simp only [sockSystem, sockStep, hadd]
    rw [readRoom_of_lt (s := ⟨{ s1.sock with rbuf := chunk }, s1.n, .read chunk none, s1.writer,
      s1.releasing, s1.halfClose⟩) ⟨ha.conn, ha.rerr, ha.released, .inr (.inl ⟨_, rfl⟩)⟩ hlt]
  obtain ⟨bs, hst⟩ := @recv_drains
    ({ s1 with sock := { s1.sock with rbuf := chunk }, reader := .notifying false }) ha.conn hne
  have hrecv : sockSystem.step _ (.recv chunk.length false) = some (_, .got bs) := hst
  refine ⟨_, _, ((hr.snoc hread).snoc happend).snoc hrecv, ?_, rfl, rfl⟩
  simp only [Sock.bytes_snoc, hb, Sock.received, List.nil_append, List.append_nil]

end Receive

/-! ### Half-close -/

/-- What the peer has read, or can read, is what the socket has sent. -/
structure PeerInv (t : Transport) (tr : List (PeerAct × PeerAns)) (s : PeerSys) : Prop where
  run : sockSystem.Run (.start t.closeWrite) (Peer.sockTrace tr) s.sys
  stream : Peer.bytes tr ++ s.inbox = Sock.bytes Sock.transmitted (Peer.sockTrace tr)
  ends : EndInv t.closeWrite s.sys s.eof

variable {t : Transport} {tr : List (PeerAct × PeerAns)} {s s' : PeerSys}

theorem PeerInv.step {e : PeerAct} {o : PeerAns} (h : PeerInv t tr s)
    (hs : peerStep s e = some (s', o)) : PeerInv t (tr ++ [(e, o)]) s' := by
  cases e with
  | sock a =>
    obtain ⟨⟨s1, o1⟩, hst, he⟩ := Option.map_eq_some_iff.mp hs
    cases he
    have hst' : sockSystem.step s.sys a = some (s1, o1) := hst
    refine ⟨?_, ?_, h.ends.step hst⟩
    · rw [Peer.sockTrace_sock]
      exact h.run.snoc hst'
    · rw [Peer.sockTrace_sock, Sock.bytes_snoc, Peer.bytes_snoc, ← h.stream]
      simp [Peer.readBytes]
  | peerRead len =>
    simp only [peerStep] at hs
    split_ifs at hs with hne heof
    · cases hs
      refine ⟨?_, ?_, h.ends⟩
      · rw [Peer.sockTrace_peerRead]
        exact h.run
      · rw [Peer.sockTrace_peerRead, Peer.bytes_snoc, ← h.stream]
        simp [Peer.readBytes]
    · cases hs
      refine ⟨?_, ?_, h.ends⟩
      · rw [Peer.sockTrace_peerRead]
        exact h.run
      · rw [Peer.sockTrace_peerRead, Peer.bytes_snoc, ← h.stream]
        simp [Peer.readBytes]

theorem PeerInv.of_run (h : (peerSystem t).Run (.start t) tr s) : PeerInv t tr s := by
  refine h.history (P := PeerInv t) (fun tr s e s' o hinv hs => hinv.step hs) ⟨.nil, rfl, ?_⟩
  exact ⟨rfl, fun hne => absurd rfl hne, fun he => absurd he Bool.false_ne_true,
    fun _ => ⟨rfl, by simp [PeerSys.start, SockSys.start], fun _ => rfl⟩,
    fun _ hf => absurd hf Bool.false_ne_true⟩

/-- A socket whose `writeLoop` is past its end, and whose read side has not ended, is live. -/
theorem PeerInv.live (h : PeerInv t tr s) (hne : s.sys.writer ≠ .idle)
    (hrel : s.sys.sock.released = false) (hrerr : s.sys.sock.rerr = none)
    (hread : ∀ c e, s.sys.reader ≠ .read c (some e)) : Live s.sys := by
  have hreach : sockSystem.Reachable s.sys := ⟨_, _, ⟨_, rfl⟩, h.run⟩
  have hstop : ¬ (s.sys.ahead.pc = .notifying true ∨ s.sys.ahead.pc = .done) := by
    intro hpc
    rcases sock_stops hreach hpc with hx | hx
    · simp [SockSys.ahead, hrerr] at hx
    · simp [SockSys.ahead, hrel] at hx
  obtain ⟨hconn, hidle⟩ := h.ends.conn hne
  refine ⟨hconn, hrerr, hrel, ?_⟩
  cases hpc : s.sys.reader with
  | idle => exact absurd hpc hidle
  | reading => exact .inl rfl
  | read c e =>
    cases e with
    | none => exact .inr (.inl ⟨c, rfl⟩)
    | some e => exact absurd hpc (hread c e)
  | waiting w =>
    cases w with
    | true => exact .inr (.inr (.inr (.inl rfl)))
    | false =>
      have hfull := (sock_readsAhead.ok hreach).asleep (by rw [SockSys.ahead, hpc]; rfl)
      refine .inr (.inr (.inr (.inr ⟨rfl, fun hnil => ?_⟩)))
      simp [SockSys.ahead, hnil, sockReadAhead] at hfull
  | notifying stop =>
    cases stop with
    | false => exact .inr (.inr (.inl rfl))
    | true => exact absurd (.inl (by rw [SockSys.ahead, hpc]; rfl)) hstop
  | done => exact absurd (.inr (by rw [SockSys.ahead, hpc]; rfl)) hstop

/-- **Half-close over a host connection.** The peer reads all that was sent and then end of file,
and the socket still receives. -/
theorem half_close (h : (peerSystem .host).Run (.start .host) tr s)
    (hend : s.sys.writer.finished = true) (hwerr : s.sys.sock.werr = false) :
    Peer.bytes tr ++ s.inbox = Sock.bytes Sock.accepted (Peer.sockTrace tr) ∧
    (∀ len, peerStep s (.peerRead len) =
      if s.inbox ≠ [] then some ({ s with inbox := s.inbox.drop len }, .got (s.inbox.take len))
      else some (s, .eof)) ∧
    (s.sys.sock.released = false → s.sys.sock.rerr = none →
      (∀ c e, s.sys.reader ≠ .read c (some e)) →
      ∀ chunk : List UInt8, chunk ≠ [] → chunk.length ≤ sockChunk →
        ∃ tr' s', sockSystem.Run s.sys tr' s' ∧ Sock.bytes Sock.received tr' = chunk ∧
          Sock.bytes Sock.delivered (Peer.sockTrace tr ++ tr') =
            Sock.bytes Sock.received (Peer.sockTrace tr ++ tr')) := by
  have hinv := PeerInv.of_run h
  have hended : s.sys.writer.ended = true := by
    cases hpc : s.sys.writer <;> simp_all [finished, ended]
  refine ⟨?_, fun len => ?_, fun hrel hrerr hread chunk hne hle => ?_⟩
  · -- `wbuf` is empty, so all accepted bytes are transmitted
    have hw := (sock_run ⟨_, rfl⟩ hinv.run).1
    have hbuf : s.sys.sock.wbuf = [] := by
      rcases hw.fin (hinv.ends.wdone hended) with he | he
      · rw [hwerr] at he
        cases he
      · exact he.1
    rw [hinv.stream, hw.stream, hbuf, List.drop_nil, List.append_nil]
  · have heof : s.eof = true := hinv.ends.closed rfl hend
    simp only [peerStep, heof, if_true]
  · have hlive : Live s.sys := by
      refine hinv.live (fun hi => ?_) hrel hrerr hread
      rw [hi] at hend
      cases hend
    obtain ⟨tr', s1, hr, hrec, hnil, hpend⟩ := still_receives hlive hne hle
    refine ⟨tr', s1, hr, hrec, ?_⟩
    have hst := (sock_run ⟨_, rfl⟩ (hinv.run.trans hr)).2.stream
    rw [hst, hnil, hpend, List.append_nil, List.append_nil]

/-- One byte is sent; the peer reads it and then end of file. -/
theorem half_close_host : ∃ tr s, (peerSystem .host).Run (.start .host) tr s ∧
    s.sys.writer = .done ∧ s.sys.sock.released = false ∧ Peer.bytes tr = [1] ∧
    peerStep s (.peerRead 1) = some (s, .eof) := by
  have hr := @System.exec_run _ _ _ (peerSystem .host) (.start .host)
    [.sock .startConn, .sock (.send [1]), .sock (.shutdown SHUT_WR), .sock .writeLock,
      .sock (.connWrite 1 false), .sock .cut, .peerRead 1, .sock .writeClose, .sock .writeNotify]
    _ _ rfl
  exact ⟨_, _, hr, rfl, rfl, rfl, (half_close hr rfl rfl).2.1 1⟩

/-- **Over a pipe the peer gets no end of file** before the socket is released. -/
theorem pipe_no_eof (h : (peerSystem .pipe).Run (.start .pipe) tr s)
    (hrel : s.sys.sock.released = false) (hin : s.inbox = []) (len : ℕ) :
    peerStep s (.peerRead len) = none := by
  have heof : s.eof = false := ((PeerInv.of_run h).ends.early hrel).2.2 rfl
  simp [peerStep, hin, heof]

/-- Over a pipe the peer has read the byte, and its next read blocks until the release. -/
theorem half_close_pipe : ∃ tr s, (peerSystem .pipe).Run (.start .pipe) tr s ∧
    (.sock (.shutdown SHUT_WR), .sock .done) ∈ tr ∧ s.sys.writer = .done ∧
    s.sys.sock.werr = false ∧ s.sys.sock.wbuf = [] ∧ s.sys.sock.released = false ∧ s.inbox = [] ∧
    Sock.bytes Sock.accepted (Peer.sockTrace tr) = [1] ∧ Peer.bytes tr = [1] ∧
    ∀ tr' s', (peerSystem .pipe).Run s tr' s' → s'.sys.sock.released = false → s'.inbox = [] →
      peerStep s' (.peerRead 1) = none := by
  have hr := @System.exec_run _ _ _ (peerSystem .pipe) (.start .pipe)
    [.sock .startConn, .sock (.send [1]), .sock (.shutdown SHUT_WR), .sock .writeLock,
      .sock (.connWrite 1 false), .sock .cut, .peerRead 1, .sock .writeClose, .sock .writeNotify]
    _ _ rfl
  refine ⟨_, _, hr, by decide, rfl, rfl, rfl, rfl, rfl, rfl, rfl, fun tr' s' hr' hrel hin => ?_⟩
  exact pipe_no_eof (hr.trans hr') hrel hin 1

end PgZero.Kernel
