import PgZero.Kernel.Socket

/-!
# Who closes a connection

`release` closes the connection of a socket whose `writeLoop` has ended; otherwise `writeLoop`
closes it when it ends. Both decide under the mutex, from `wdone` and `released`.

* **`CloseOk.step`**: the closes done and due are one once the socket is released, none before.
-/

set_option autoImplicit false

namespace PgZero.Kernel

open Lib WriterPc

/-- The loop has ended, and `wdone` is set. -/
def WriterPc.ended : WriterPc → Bool
  | .closing _ | .notifying | .done => true
  | .idle | .starting | .waiting _ | .writing _ | .wrote _ _ => false

/-- The closes that `writeLoop` has still to make, if the socket is `released`. -/
def WriterPc.due (released : Bool) : WriterPc → ℕ
  | .closing r => r.toNat
  | .idle | .notifying | .done => 0
  | .starting | .waiting _ | .writing _ | .wrote _ _ => released.toNat

/-- The closes that a `release` in progress has still to make. -/
def releaseDue : Option (Bool × Bool) → ℕ
  | some (true, true) => 1
  | _ => 0

/-- The closes still to come. -/
def SockSys.due (s : SockSys) : ℕ := releaseDue s.releasing + s.writer.due s.sock.released

/-- The step closes the connection. -/
def SockAns.closes : SockAns → ℕ
  | .conn (some .close) => 1
  | _ => 0

/-- A connected socket whose connection has been closed `n` times. -/
structure CloseOk (s : SockSys) (n : ℕ) : Prop where
  conn : s.sock.state = .sockConnected
  started : s.writer ≠ .idle
  wdone : s.sock.wdone = s.writer.ended
  early : s.sock.released = false → s.releasing = none
  paid : n + s.due = s.sock.released.toNat

variable {s s' : SockSys} {n : ℕ}

theorem WriterPc.due_signal (released : Bool) (pc : WriterPc) :
    (SockSys.signalWriter pc).due released = pc.due released := by
  cases pc <;> rfl

theorem WriterPc.signal_idle {pc : WriterPc} (h : SockSys.signalWriter pc = .idle) : pc = .idle := by
  cases pc <;> first | rfl | cases h

/-- Before the release nothing is due, so `writeLoop` has not decided to close. -/
theorem WriterPc.due_false {pc : WriterPc} (h : pc.due false = 0) (r : Bool) :
    pc = .closing r → r = false := by
  rintro rfl
  cases r with
  | false => rfl
  | true => cases h

theorem CloseOk.call {α : Type} (h : CloseOk s n) (x : SockSection α)
    (hst : x.sock.state = s.sock.state) (hw : x.sock.wdone = s.sock.wdone)
    (hr : x.sock.released = s.sock.released) : CloseOk (s.call x) n := by
  have hpc : (s.call x).writer = s.writer ∨ (s.call x).writer = SockSys.signalWriter s.writer := by
    unfold SockSys.call
    dsimp only
    split
    · exact .inr rfl
    · exact .inl rfl
  have hend : (s.call x).writer.ended = s.writer.ended := by
    rcases hpc with hpc | hpc
    · rw [hpc]
    · rw [hpc]
      cases s.writer <;> rfl
  have hdue : (s.call x).writer.due x.sock.released = s.writer.due s.sock.released := by
    rw [hr]
    rcases hpc with hpc | hpc
    · rw [hpc]
    · rw [hpc, due_signal]
  refine ⟨hst.trans h.conn, ?_, ?_, ?_, ?_⟩
  · rcases hpc with hpc | hpc
    · rw [hpc]
      exact h.started
    · rw [hpc]
      exact fun hi => h.started (signal_idle hi)
  · rw [hend]
    exact hw.trans h.wdone
  · intro hf
    exact h.early (hr.symm.trans hf)
  · show n + (releaseDue s.releasing + (s.call x).writer.due x.sock.released) = x.sock.released.toNat
    rw [hdue, hr]
    exact h.paid

theorem CloseOk.congr (h : CloseOk s n) (hst : s'.sock.state = s.sock.state)
    (hw : s'.sock.wdone = s.sock.wdone) (hr : s'.sock.released = s.sock.released)
    (hpc : s'.writer = s.writer) (hrel : s'.releasing = s.releasing) : CloseOk s' n := by
  refine ⟨hst.trans h.conn, ?_, ?_, ?_, ?_⟩
  · rw [hpc]
    exact h.started
  · rw [hpc, hw]
    exact h.wdone
  · rw [hr, hrel]
    exact h.early
  · rw [SockSys.due, hpc, hr, hrel]
    exact h.paid

theorem CloseOk.readRoom (h : CloseOk s n) : CloseOk s.readRoom n := by
  unfold SockSys.readRoom
  split
  · exact h.congr rfl rfl rfl rfl rfl
  · exact h.congr rfl rfl rfl rfl rfl

theorem CloseOk.setWriter (h : CloseOk s n) {pc : WriterPc} (hp : pc ≠ .idle)
    (hend : pc.ended = s.writer.ended)
    (hdue : pc.due s.sock.released = s.writer.due s.sock.released) :
    CloseOk { s with writer := pc } n := by
  refine ⟨h.conn, hp, h.wdone.trans hend.symm, h.early, ?_⟩
  show n + (releaseDue s.releasing + pc.due s.sock.released) = _
  rw [hdue]
  exact h.paid

/-- At the head of the loop the writer waits, takes a snapshot, or leaves. -/
theorem CloseOk.writeHead (h : CloseOk s n) (hend : s.writer.ended = false) :
    CloseOk s.writeHead n := by
  have hdue : s.writer.due s.sock.released = s.sock.released.toNat := by
    cases hw : s.writer with
    | idle => exact absurd hw h.started
    | starting => rfl
    | waiting woken => rfl
    | writing out => rfl
    | wrote n err => rfl
    | closing r | notifying | done => rw [hw] at hend; cases hend
  unfold SockSys.writeHead
  split
  · exact h.setWriter (by simp) hend.symm hdue.symm
  · split
    · refine ⟨h.conn, by simp, rfl, h.early, ?_⟩
      have hpaid := h.paid
      rwa [SockSys.due, hdue] at hpaid
    · exact h.setWriter (by simp) hend.symm hdue.symm

/-- The section of `release` leaves the loop or itself to close. -/
theorem CloseOk.release (h : CloseOk s n) (hr : s.sock.released = false) :
    CloseOk { s.call s.sock.release with
      releasing := some (s.sock.state = .sockConnected, s.sock.wdone) } n := by
  have hpaid := h.paid
  rw [SockSys.due, h.early hr, hr] at hpaid
  have hn : n = 0 ∧ s.writer.due false = 0 := by
    simp only [releaseDue, Bool.toNat_false] at hpaid
    omega
  have hwriter : ({ s.call s.sock.release with
      releasing := some (s.sock.state = .sockConnected, s.sock.wdone) } : SockSys).writer =
      SockSys.signalWriter s.writer := rfl
  refine ⟨h.conn, ?_, ?_, (by intro hf; cases hf), ?_⟩
  · rw [hwriter]
    exact fun hi => h.started (signal_idle hi)
  · rw [hwriter]
    refine h.wdone.trans ?_
    cases s.writer <;> rfl
  · show n + (releaseDue (some (decide (s.sock.state = .sockConnected), s.sock.wdone)) +
      (SockSys.signalWriter s.writer).due true) = 1
    rw [hn.1, due_signal, h.conn, h.wdone]
    cases hw : s.writer with
    | idle => exact absurd hw h.started
    | starting => rfl
    | waiting woken => rfl
    | writing out => rfl
    | wrote m err => rfl
    | closing r =>
      obtain rfl := due_false hn.2 r hw
      rfl
    | notifying => rfl
    | done => rfl

theorem answer_closes {α : Type} {f : α → SockAns} (hf : ∀ a, (f a).closes = 0) (r : Except Errno α) :
    (answer f r).closes = 0 := by
  cases r with
  | ok a => exact hf a
  | error e => rfl

theorem Socket.recv_flags (s : Socket) (len : ℕ) (peek : Bool) :
    (s.recv len peek).sock.state = s.state ∧ (s.recv len peek).sock.wdone = s.wdone ∧
      (s.recv len peek).sock.released = s.released := by
  unfold Socket.recv
  repeat' split
  all_goals exact ⟨rfl, rfl, rfl⟩

theorem Socket.send_flags (s : Socket) (b : List UInt8) :
    (s.send b).sock.state = s.state ∧ (s.send b).sock.wdone = s.wdone ∧
      (s.send b).sock.released = s.released := by
  unfold Socket.send
  dsimp only
  repeat' split
  all_goals exact ⟨rfl, rfl, rfl⟩

theorem Socket.shutdown_flags (s : Socket) (how : ℤ) :
    (s.shutdown how).sock.state = s.state ∧ (s.shutdown how).sock.wdone = s.wdone ∧
      (s.shutdown how).sock.released = s.released := by
  unfold Socket.shutdown
  repeat' split
  all_goals exact ⟨rfl, rfl, rfl⟩

/-- **The closes of a connection.** A step of a socket that is released at most once. -/
theorem CloseOk.step (h : CloseOk s n) {a : SockAct} {o : SockAns}
    (ha : a = .release → s.sock.released = false) (hs : sockStep s a = some (s', o)) :
    CloseOk s' (n + o.closes) := by
  cases sockCase_of_step hs with
  | startConn hst =>
    rw [h.conn] at hst
    cases hst
  | recv len peek =>
    obtain ⟨h1, h2, h3⟩ := s.sock.recv_flags len peek
    rw [answer_closes (fun _ => rfl)]
    exact h.call _ h1 h2 h3
  | send b =>
    obtain ⟨h1, h2, h3⟩ := s.sock.send_flags b
    rw [answer_closes (fun _ => rfl)]
    exact h.call _ h1 h2 h3
  | shutdown how =>
    obtain ⟨h1, h2, h3⟩ := s.sock.shutdown_flags how
    rw [answer_closes (fun _ => rfl)]
    exact h.call _ h1 h2 h3
  | release => exact h.release (ha rfl)
  | releaseConn conn wdone hrel =>
    refine ⟨h.conn, h.started, h.wdone, fun _ => rfl, ?_⟩
    have hpaid := h.paid
    rw [SockSys.due, hrel] at hpaid
    cases conn <;> cases wdone <;> simpa [SockSys.due, releaseDue, SockAns.closes, add_assoc,
      add_comm, add_left_comm] using hpaid
  | changed | connRead => exact h.congr rfl rfl rfl rfl rfl
  | append =>
    refine CloseOk.readRoom ?_
    exact h.congr rfl rfl rfl rfl rfl
  | readWake => exact h.readRoom
  | readNotify => exact h.congr rfl rfl rfl rfl rfl
  | writeLock hw =>
    apply h.writeHead
    rcases hw with hw | hw <;> rw [hw] <;> rfl
  | connWrite out m err hw => exact h.setWriter (by simp) (by rw [hw]; rfl) (by rw [hw]; rfl)
  | cut m err hw =>
    refine CloseOk.writeHead ?_ ?_
    · exact h.congr rfl rfl rfl rfl rfl
    · exact congrArg ended hw
  | writeClose r hw =>
    have hwd := h.wdone
    have hpaid := h.paid
    rw [SockSys.due, hw] at hpaid
    rw [hw] at hwd
    refine ⟨h.conn, by simp, hwd, h.early, ?_⟩
    show n + _ + (releaseDue s.releasing + 0) = _
    cases r with
    | false =>
      have hc : (SockAns.conn (if false = true then some ConnOp.close
          else if s.halfClose = true then some .closeWrite else none)).closes = 0 := by
        cases s.halfClose <;> rfl
      rw [hc]
      exact hpaid
    | true =>
      show n + 1 + (releaseDue s.releasing + 0) = _
      rw [← hpaid]
      simp only [due, Bool.toNat_true]
      omega
  | writeNotify hw =>
    have hcong : CloseOk { s with n := s.n.notify } n := h.congr rfl rfl rfl rfl rfl
    exact hcong.setWriter (by simp) (by rw [hw]; rfl) (by rw [hw]; rfl)

theorem closeOk_started (halfClose : Bool) :
    CloseOk { SockSys.start halfClose with
      sock := { newSocket with state := .sockConnected }, reader := .reading, writer := .starting } 0 :=
  ⟨rfl, by simp, rfl, fun _ => rfl, rfl⟩

end PgZero.Kernel
