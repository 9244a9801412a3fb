import PgZero.Kernel.Accept
import PgZero.Kernel.Pipe

/-!
# Readiness

`poll` and the calls it speaks for are written separately for every kind of file. A file that
reports input can be read without blocking and, for the kinds that can block, the other way round; a
file that reports room takes a write of any length.

* **`poll_agrees`**: `poll` against `read`, `recv`, `accept` and `write`, for every file.
* **`sender_learns`**: `poll` against `send`, unless the socket is only shut down.
-/

set_option autoImplicit false

namespace PgZero

/-- Some event of `bits` is reported. -/
def Events.Has (ev bits : Events) : Prop := ev &&& bits ≠ 0

instance (ev bits : Events) : Decidable (ev.Has bits) := inferInstanceAs (Decidable (_ ≠ _))

theorem Events.has_or {a b bits : Events} :
    Events.Has (a ||| b) bits ↔ a.Has bits ∨ b.Has bits := by
  have hdist : (a ||| b) &&& bits = a &&& bits ||| b &&& bits := by
    ext i
    simp [Bool.and_or_distrib_right]
  have hzero : ∀ x y : Events, x ||| y = 0 ↔ x = 0 ∧ y = 0 := fun x y => BitVec.or_eq_zero_iff
  unfold Events.Has
  rw [hdist, ne_eq, hzero, not_and_or]

theorem Events.has_ite {c : Prop} [Decidable c] {ev bits : Events} :
    Events.Has (if c then ev else 0) bits ↔ c ∧ ev.Has bits := by
  split_ifs with hc
  · exact (and_iff_right hc).symm
  · simp [hc, Events.Has]

end PgZero

namespace PgZero.Kernel

open Lib

/-! ### Files of the host -/

/-- The kernel's stdin: what its reader has read ahead, and whether the reader has ended. -/
structure ReaderFile where
  buf : List UInt8
  eof : Bool
  deriving DecidableEq, Repr

namespace ReaderFile

/-- Read into a buffer of `len` bytes, which may be empty. -/
def read (f : ReaderFile) (len : ℕ) : ReaderFile × Except Errno (List UInt8) :=
  if 0 < f.buf.length then ({ f with buf := f.buf.drop len }, .ok (f.buf.take len))
  else if f.eof then (f, .ok [])
  else (f, .error .EAGAIN)

/-- Input takes no write. -/
def write (_ : ReaderFile) (_ : List UInt8) : Except Errno ℕ := .error .EBADF

/-- `poll` of input. -/
def poll (f : ReaderFile) : Events :=
  if 0 < f.buf.length then POLLIN else if f.eof then POLLHUP else 0

end ReaderFile

/-- Output gives nothing. -/
def WriterFile.read (_ : ℕ) : Except Errno (List UInt8) := .error .EBADF

/-- `n` and `err` are what the host's writer returns. -/
def WriterFile.write (n : ℕ) (err : Bool) : Except Errno ℕ :=
  if err ∧ n = 0 then .error Errno.EIO else .ok n

/-- `poll` of output. -/
def WriterFile.poll : Events := POLLOUT

/-- `/dev/null` is empty. -/
def NullFile.read (_ : ℕ) : Except Errno (List UInt8) := .ok []

/-- `/dev/null` takes all. -/
def NullFile.write (b : List UInt8) : Except Errno ℕ := .ok b.length

/-- `poll` of `/dev/null`. -/
def NullFile.poll : Events := POLLIN ||| POLLOUT

/-- No `read` of shared memory. -/
def ShmFile.read (_ : ℕ) : Except Errno (List UInt8) := .error .EINVAL

/-- No `write` to shared memory. -/
def ShmFile.write (_ : List UInt8) : Except Errno ℕ := .error .EINVAL

/-- `poll` of shared memory. -/
def ShmFile.poll : Events := POLLIN ||| POLLOUT

/-! ### Sockets -/

namespace Socket

/-- With the queue of a listening socket. -/
def poll (s : Socket) (acceptQ : List ℕ) : Events :=
  match s.state with
  | .sockNew => 0
  | .sockListening => if 0 < acceptQ.length then POLLIN else 0
  | .sockConnected =>
    (if 0 < s.rbuf.length ∨ s.rerr ≠ none then POLLIN else 0) |||
    (if s.rerr ≠ none ∧ s.rerr ≠ some .eof then POLLERR else 0) |||
    (if s.werr then POLLERR else if s.wbuf.length < sockWriteBuf ∧ !s.wshut then POLLOUT else 0) |||
    (if s.rerr ≠ none ∧ (s.wshut ∨ s.werr) then POLLHUP else 0)

/-- The connection that `accept` takes. -/
def accept (s : Socket) (acceptQ : List ℕ) : Except Errno ℕ :=
  if s.state ≠ .sockListening then .error .EINVAL
  else
    match acceptQ with
    | [] => .error .EAGAIN
    | c :: _ => .ok c

end Socket

theorem acceptStep_error {a : AcceptSys} {s : Socket} {e : Errno} (hs : s.state = a.sock.state)
    (he : s.accept a.acceptQ = .error e) (peer : SockAddr) (halfClose : Bool) :
    acceptStep a (.accept peer halfClose) = some (a, .err e) := by
  unfold Socket.accept at he
  rw [hs] at he
  unfold acceptStep
  dsimp only
  split_ifs at he ⊢ with hstate
  · cases he
    rfl
  · cases hq : a.acceptQ with
    | nil =>
      rw [hq] at he
      cases he
      rfl
    | cons c q =>
      rw [hq] at he
      cases he

theorem acceptStep_ok {a : AcceptSys} {s : Socket} {c : ℕ} (hs : s.state = a.sock.state)
    (hc : s.accept a.acceptQ = .ok c) (peer : SockAddr) (halfClose : Bool) :
    ∃ a', acceptStep a (.accept peer halfClose) = some (a', .accepted a.nsocks c) := by
  unfold Socket.accept at hc
  rw [hs] at hc
  unfold acceptStep
  dsimp only
  split_ifs at hc ⊢ with hstate
  cases hq : a.acceptQ with
  | nil =>
    rw [hq] at hc
    cases hc
  | cons c' q =>
    rw [hq] at hc
    cases hc
    exact ⟨_, rfl⟩

section

variable {s : Socket} {acceptQ : List ℕ}

theorem Socket.poll_listening (hs : s.state = .sockListening) :
    (s.poll acceptQ).Has (POLLIN ||| POLLHUP) ↔ acceptQ ≠ [] := by
  unfold Socket.poll
  rw [hs]
  dsimp only
  rw [Events.has_ite, List.length_pos_iff]
  exact and_iff_left (by decide)

theorem Socket.poll_connected (hs : s.state = .sockConnected) (bits : Events) :
    (s.poll acceptQ).Has bits ↔
      (s.rbuf ≠ [] ∨ s.rerr ≠ none) ∧ POLLIN.Has bits ∨
      (s.rerr = some .conn ∨ s.werr = true) ∧ POLLERR.Has bits ∨
      (s.werr = false ∧ s.wbuf.length < sockWriteBuf ∧ s.wshut = false) ∧ POLLOUT.Has bits ∨
      (s.rerr ≠ none ∧ (s.wshut = true ∨ s.werr = true)) ∧ POLLHUP.Has bits := by
  unfold Socket.poll
  rw [hs]
  dsimp only
  rw [Events.has_or, Events.has_or, Events.has_or, Events.has_ite, Events.has_ite, Events.has_ite,
    List.length_pos_iff]
  have hconn : s.rerr ≠ none ∧ s.rerr ≠ some .eof ↔ s.rerr = some .conn := by
    rcases s.rerr with _ | _ | _ <;> simp
  rw [hconn]
  by_cases hw : s.werr = true
  · rw [if_pos hw]
    simp [hw]
    grind
  · have hw' : s.werr = false := by simpa using hw
    rw [if_neg hw, Events.has_ite]
    simp [hw']
    grind

theorem Socket.poll_input (hs : s.state = .sockConnected) :
    (s.poll acceptQ).Has (POLLIN ||| POLLHUP) ↔ s.rbuf ≠ [] ∨ s.rerr ≠ none := by
  have hin : POLLIN.Has (POLLIN ||| POLLHUP) := by decide
  have herr : ¬ POLLERR.Has (POLLIN ||| POLLHUP) := by decide
  have hout : ¬ POLLOUT.Has (POLLIN ||| POLLHUP) := by decide
  rw [Socket.poll_connected hs]
  grind

theorem Socket.poll_room (hs : s.state = .sockConnected) :
    (s.poll acceptQ).Has POLLOUT ↔
      s.werr = false ∧ s.wbuf.length < sockWriteBuf ∧ s.wshut = false := by
  have hin : ¬ POLLIN.Has POLLOUT := by decide
  have herr : ¬ POLLERR.Has POLLOUT := by decide
  have hout : POLLOUT.Has POLLOUT := by decide
  have hhup : ¬ POLLHUP.Has POLLOUT := by decide
  rw [Socket.poll_connected hs]
  grind

theorem Socket.recv_again (hs : s.state = .sockConnected) {len : ℕ} (hlen : 0 < len)
    (peek : Bool) : (s.recv len peek).ret = .error .EAGAIN ↔ s.rbuf = [] ∧ s.rerr = none := by
  unfold Socket.recv
  rw [if_neg (not_not.mpr hs), if_neg hlen.ne']
  by_cases hbuf : s.rbuf = []
  · rw [if_neg (by simp [hbuf])]
    rcases s.rerr with _ | _ | _ <;> simp [hbuf]
  · rw [if_pos (List.length_pos_iff.mpr hbuf)]
    cases peek <;> simp [hbuf]

theorem Socket.send_again (hs : s.state = .sockConnected) {b : List UInt8} (hb : b ≠ []) :
    (s.send b).ret = .error .EAGAIN ↔
      s.werr = false ∧ s.wshut = false ∧ sockWriteBuf ≤ s.wbuf.length := by
  have hlen : b.length ≠ 0 := fun h => hb (List.length_eq_zero_iff.mp h)
  unfold Socket.send
  rw [if_neg (not_not.mpr hs)]
  by_cases hw : (s.werr || s.wshut) = true
  · rw [if_pos hw]
    rcases Bool.or_eq_true_iff.mp hw with h | h <;> simp [h]
  · obtain ⟨h1, h2⟩ := Bool.or_eq_false_iff.mp (Bool.eq_false_iff.mpr hw)
    rw [if_neg hw, if_neg hlen]
    dsimp only
    split_ifs with hspace
    · have hfull : sockWriteBuf ≤ s.wbuf.length := by omega
      simp [h1, h2, hfull]
    · have hroom : ¬ sockWriteBuf ≤ s.wbuf.length := by omega
      simp [h1, h2, hroom]

end

/-! ### All files -/

/-- A file of the kernel, with the data that its `poll` and its calls read. -/
inductive KernelFile
  | pipeReader (p : Pipe)
  | pipeWriter (p : Pipe)
  | readerFile (f : ReaderFile)
  | writerFile
  | nullFile
  | shmFile (o : ℕ)
  | socket (s : Socket) (acceptQ : List ℕ)

/-- The errno of a result. -/
def errno {α : Type} : Except Errno α → Option Errno
  | .ok _ => none
  | .error e => some e

namespace KernelFile

/-- `poll`. -/
def poll : KernelFile → Events
  | pipeReader p => PipeReader.poll p
  | pipeWriter p => PipeWriter.poll p
  | readerFile f => f.poll
  | writerFile => WriterFile.poll
  | nullFile => NullFile.poll
  | shmFile _ => ShmFile.poll
  | socket s acceptQ => s.poll acceptQ

/-- The errno of the call that takes from the file into a buffer of `len` bytes: `accept` of a
listening socket, `recv` of another one, and `read` of all other files. -/
def takeErrno (len : ℕ) (peek : Bool) : KernelFile → Option Errno
  | pipeReader p => errno (PipeReader.read p len).ret
  | pipeWriter p => errno (PipeWriter.read p len).ret
  | readerFile f => errno (f.read len).2
  | writerFile => errno (WriterFile.read len)
  | nullFile => errno (NullFile.read len)
  | shmFile _ => errno (ShmFile.read len)
  | socket s acceptQ =>
    if s.state = .sockListening then errno (s.accept acceptQ) else errno (s.recv len peek).ret

/-- The errno of `write`; `n` and `err` are what the host's writer returns. -/
def writeErrno (b : List UInt8) (n : ℕ) (err : Bool) : KernelFile → Option Errno
  | pipeReader p => errno (PipeReader.write p b).ret
  | pipeWriter p => errno (PipeWriter.write p b).ret
  | readerFile f => errno (f.write b)
  | writerFile => errno (WriterFile.write n err)
  | nullFile => errno (NullFile.write b)
  | shmFile _ => errno (ShmFile.write b)
  | socket s _ => errno (s.send b).ret

/-- The files from which taking can block. -/
def CanBlock : KernelFile → Prop
  | pipeReader _ | readerFile _ => True
  | socket s _ => s.state = .sockListening ∨ s.state = .sockConnected
  | _ => False

end KernelFile

theorem errno_again {α : Type} {r : Except Errno α} :
    errno r = some .EAGAIN ↔ r = .error .EAGAIN := by
  cases r with
  | ok a => simp [errno]
  | error e => simp [errno]

theorem PipeReader.poll_input (p : Pipe) {len : ℕ} (hlen : 0 < len) :
    (poll p).Has (POLLIN ||| POLLHUP) ↔ errno (read p len).ret ≠ some .EAGAIN := by
  unfold PipeReader.poll
  have hin : POLLIN.Has (POLLIN ||| POLLHUP) := by decide
  have hhup : POLLHUP.Has (POLLIN ||| POLLHUP) := by decide
  rw [Events.has_or, Events.has_ite, Events.has_ite, List.length_pos_iff, and_iff_left hin,
    and_iff_left hhup]
  rcases read_cases p len with ⟨h0, -⟩ | ⟨-, hbuf, h⟩ | ⟨-, hbuf, hw, h⟩ | ⟨-, hbuf, hw, h⟩
  · omega
  · rw [h]
    simp [hbuf, errno]
  · rw [h]
    simp [hw, errno]
  · rw [h]
    simp [hbuf, hw, errno]

theorem ReaderFile.poll_input (f : ReaderFile) (len : ℕ) :
    f.poll.Has (POLLIN ||| POLLHUP) ↔ errno (f.read len).2 ≠ some .EAGAIN := by
  have hin : POLLIN.Has (POLLIN ||| POLLHUP) := by decide
  have hhup : POLLHUP.Has (POLLIN ||| POLLHUP) := by decide
  have hzero : ¬ Events.Has 0 (POLLIN ||| POLLHUP) := by decide
  unfold ReaderFile.poll ReaderFile.read
  split_ifs with h1 h2
  · exact iff_of_true hin (by simp [errno])
  · exact iff_of_true hhup (by simp [errno])
  · exact iff_of_false hzero (by simp [errno])

/-- On a socket that neither listens nor is connected nothing blocks. -/
theorem Socket.poll_new {s : Socket} (hs : s.state = .sockNew) (acceptQ : List ℕ) (bits : Events) :
    ¬ (s.poll acceptQ).Has bits := by
  unfold Socket.poll
  rw [hs]
  simp [Events.Has]

theorem Socket.accept_again {s : Socket} (hs : s.state = .sockListening) (acceptQ : List ℕ) :
    (s.poll acceptQ).Has (POLLIN ||| POLLHUP) ↔ errno (s.accept acceptQ) ≠ some .EAGAIN := by
  rw [Socket.poll_listening hs]
  unfold Socket.accept
  rw [if_neg (not_not.mpr hs)]
  cases acceptQ with
  | nil => simp [errno]
  | cons c q => simp [errno]

/-- A pipe that reports room has `pipeAtomic` bytes of it. -/
theorem PipeWriter.poll_room {p : Pipe} (h : (poll p).Has POLLOUT) (b : List UInt8) :
    errno (write p b).ret ≠ some .EAGAIN := by
  have hspace : pipeAtomic ≤ p.space := by
    unfold PipeWriter.poll at h
    unfold Pipe.space
    split_ifs at h with h1 h2
    · exact absurd h (by decide)
    · omega
    · exact absurd h (by decide)
  have hpos : 0 < pipeAtomic := by decide
  rcases write_cases p b with
    ⟨-, hr⟩ | ⟨-, -, hr⟩ | ⟨-, -, hfull, hr⟩ | ⟨-, -, -, -, hr⟩
  · rw [hr]
    simp [errno]
  · rw [hr]
    simp [errno]
  · omega
  · rw [hr]
    simp [errno]

namespace KernelFile

/-- **Taking.** A file that reports input or a hangup does not block. -/
theorem take_of_poll {f : KernelFile} {len : ℕ} (peek : Bool) (hlen : 0 < len)
    (h : f.poll.Has (POLLIN ||| POLLHUP)) : f.takeErrno len peek ≠ some .EAGAIN := by
  cases f with
  | pipeReader p => exact (PipeReader.poll_input p hlen).mp h
  | pipeWriter p => simp [takeErrno, PipeWriter.read, errno]
  | readerFile f => exact (f.poll_input len).mp h
  | writerFile => simp [takeErrno, WriterFile.read, errno]
  | nullFile => simp [takeErrno, NullFile.read, errno]
  | shmFile o => simp [takeErrno, ShmFile.read, errno]
  | socket s acceptQ =>
    unfold takeErrno
    dsimp only
    split_ifs with hs
    · exact (Socket.accept_again hs acceptQ).mp h
    · cases hstate : s.state with
      | sockNew => exact absurd h (Socket.poll_new hstate acceptQ _)
      | sockListening => exact absurd hstate hs
      | sockConnected =>
        have hinput := (Socket.poll_input hstate).mp h
        rw [ne_eq, errno_again, Socket.recv_again hstate hlen peek]
        grind

/-- **Readiness.** A file from which taking can block reports when it does not. -/
theorem poll_of_take {f : KernelFile} {len : ℕ} {peek : Bool} (hf : f.CanBlock) (hlen : 0 < len)
    (h : f.takeErrno len peek ≠ some .EAGAIN) : f.poll.Has (POLLIN ||| POLLHUP) := by
  cases f with
  | pipeReader p => exact (PipeReader.poll_input p hlen).mpr h
  | readerFile f => exact (f.poll_input len).mpr h
  | socket s acceptQ =>
    unfold takeErrno at h
    dsimp only at h
    rcases hf with hs | hs
    · rw [if_pos hs] at h
      exact (Socket.accept_again hs acceptQ).mpr h
    · rw [if_neg (by simp [hs]), ne_eq, errno_again, Socket.recv_again hs hlen peek] at h
      refine (Socket.poll_input hs).mpr ?_
      grind
  | pipeWriter p | writerFile | nullFile | shmFile o => exact hf.elim

/-- **Writing.** A file that reports room takes part of a write, or fails otherwise. -/
theorem write_of_poll {f : KernelFile} {b : List UInt8} (n : ℕ) (err : Bool) (hb : b ≠ [])
    (h : f.poll.Has POLLOUT) : f.writeErrno b n err ≠ some .EAGAIN := by
  cases f with
  | pipeReader p => simp [writeErrno, PipeReader.write, errno]
  | pipeWriter p => exact PipeWriter.poll_room h b
  | readerFile f => simp [writeErrno, ReaderFile.write, errno]
  | writerFile =>
    unfold writeErrno WriterFile.write
    split_ifs <;> simp [errno]
  | nullFile => simp [writeErrno, NullFile.write, errno]
  | shmFile o => simp [writeErrno, ShmFile.write, errno]
  | socket s acceptQ =>
    unfold writeErrno
    dsimp only
    cases hstate : s.state with
    | sockNew => exact absurd h (Socket.poll_new hstate acceptQ _)
    | sockListening =>
      have hnone : ¬ (s.poll acceptQ).Has POLLOUT := by
        unfold Socket.poll
        rw [hstate]
        dsimp only
        rw [Events.has_ite, not_and_or]
        exact Or.inr (by decide)
      exact absurd h hnone
    | sockConnected =>
      obtain ⟨-, hroom, -⟩ := (Socket.poll_room hstate).mp h
      rw [ne_eq, errno_again, Socket.send_again hstate hb]
      omega

end KernelFile

/-- **Readiness agrees with blocking**, for every file in every state of it. -/
theorem poll_agrees (f : KernelFile) :
    (f.poll.Has (POLLIN ||| POLLHUP) → ∀ len peek, 0 < len →
      f.takeErrno len peek ≠ some .EAGAIN) ∧
    (f.CanBlock → ∀ len peek, 0 < len → f.takeErrno len peek ≠ some .EAGAIN →
      f.poll.Has (POLLIN ||| POLLHUP)) ∧
    (f.poll.Has POLLOUT → ∀ b n err, b ≠ [] → f.writeErrno b n err ≠ some .EAGAIN) :=
  ⟨fun h _ peek hlen => f.take_of_poll peek hlen h,
    fun hf _ _ hlen h => f.poll_of_take hf hlen h,
    fun h _ n err hb => f.write_of_poll n err hb h⟩

/-- Each part at a pipe: input in the buffer, input to be taken, and room. -/
theorem poll_agrees_pipe :
    (KernelFile.pipeReader ⟨[1], 1, 1⟩).takeErrno 1 false ≠ some .EAGAIN ∧
    (KernelFile.pipeReader ⟨[1], 1, 1⟩).poll.Has (POLLIN ||| POLLHUP) ∧
    (KernelFile.pipeWriter ⟨[1], 1, 1⟩).writeErrno [2] 0 false ≠ some .EAGAIN :=
  ⟨(poll_agrees (.pipeReader ⟨[1], 1, 1⟩)).1 (by decide) 1 false (by decide),
    (poll_agrees (.pipeReader ⟨[1], 1, 1⟩)).2.1 trivial 1 false (by decide) (by decide),
    (poll_agrees (.pipeWriter ⟨[1], 1, 1⟩)).2.2 (by decide) [2] 0 false (by decide)⟩

/-- **A sender learns** that `send` would not block if and only if the socket is not shut down for
writing, or a side of the connection has ended. -/
theorem sender_learns {s : Socket} (hs : s.state = .sockConnected) (acceptQ : List ℕ)
    {b : List UInt8} (hb : b ≠ []) :
    ((s.send b).ret ≠ .error .EAGAIN → (s.poll acceptQ).Has (POLLOUT ||| POLLERR ||| POLLHUP)) ↔
      (s.wshut = true → s.werr = true ∨ s.rerr ≠ none) := by
  have herr : POLLERR.Has (POLLOUT ||| POLLERR ||| POLLHUP) := by decide
  have hout : POLLOUT.Has (POLLOUT ||| POLLERR ||| POLLHUP) := by decide
  have hhup : POLLHUP.Has (POLLOUT ||| POLLERR ||| POLLHUP) := by decide
  have hin : ¬ POLLIN.Has (POLLOUT ||| POLLERR ||| POLLHUP) := by decide
  rw [ne_eq, Socket.send_again hs hb, Socket.poll_connected hs]
  cases hw : s.werr with
  | true => simp [herr]
  | false =>
    cases hd : s.wshut with
    | true =>
      simp only [herr, hin, hhup, reduceCtorEq, and_false, and_true, false_and, or_false,
        false_or, not_false_eq_true, forall_const]
      exact ⟨fun h => h.elim (fun hr => hr ▸ Option.some_ne_none _) id, Or.inr⟩
    | false =>
      simp only [hout, reduceCtorEq, and_true, true_and, not_le, false_imp_iff, iff_true]
      exact fun hroom => Or.inr (Or.inr (Or.inl hroom))

/-- A socket shut down for writing whose peer has closed: `send` fails, and POLLHUP says so. -/
theorem sender_learns_hangup : ∃ s, sockSystem.Reachable s ∧ s.sock.wshut = true ∧
    (s.sock.send [1]).ret = .error .EPIPE ∧
    (s.sock.poll []).Has (POLLOUT ||| POLLERR ||| POLLHUP) := by
  refine ⟨_, @System.reachable_of_exec _ _ _ sockSystem (.start true) _
    [.startConn, .connRead [] (some .eof), .append, .shutdown SHUT_WR] _ ⟨true, rfl⟩ rfl,
    rfl, rfl, ?_⟩
  exact (sender_learns rfl [] (b := [1]) (by decide)).mpr (fun _ => Or.inr (by decide)) (by decide)

/-- A socket that is only shut down for writing: no event of a sender is reported. -/
theorem sender_not_woken : ∃ s, sockSystem.Reachable s ∧ s.sock.state = .sockConnected ∧
    (s.sock.send [1]).ret = .error .EPIPE ∧
    ¬ (s.sock.poll []).Has (POLLOUT ||| POLLERR ||| POLLHUP) :=
  ⟨_, @System.reachable_of_exec _ _ _ sockSystem (.start true) _
    [.startConn, .shutdown SHUT_WR] _ ⟨true, rfl⟩ rfl, rfl, rfl, by decide⟩

end PgZero.Kernel
