import PgZero.Kernel.Socket

/-!
# Socket streams

No byte is lost, duplicated or reordered in either direction of a socket, whatever the interleaving
of the calls with the two loops and whatever the connection answers.

* **`sock_streams`**, and **`sock_uncut`** for the bytes between the connection and the buffers.
-/

set_option autoImplicit false

namespace PgZero.Kernel

open Lib List Socket ReaderPc

/-! ### Calls -/

namespace Socket

/-- **A receive** takes or copies bytes from the front of `rbuf`. -/
theorem recv_cases (s : Socket) (len : ℕ) (peek : Bool) :
    (∃ r, s.recv len peek = ⟨s, false, false, r⟩ ∧
      (peek = false → ∀ bs, r = .ok bs → bs = []) ∧
      (0 < len → r = .ok [] ∨ r = .error .ECONNRESET → s.rbuf = [] ∧ s.rerr ≠ none)) ∨
    (peek = false ∧ 0 < len ∧ s.rbuf ≠ [] ∧ s.recv len peek =
      ⟨{ s with rbuf := s.rbuf.drop len }, true, false, .ok (s.rbuf.take len)⟩) := by
  unfold recv
  split_ifs with h1 h2 h3 h4
  · refine Or.inl ⟨_, rfl, ?_, ?_⟩ <;> simp
  · refine Or.inl ⟨_, rfl, ?_, ?_⟩
    · simp
    · omega
  · refine Or.inl ⟨_, rfl, ?_, ?_⟩
    · simp [h4]
    · intro hlen hr
      have hne : s.rbuf ≠ [] := length_pos_iff.mp h3
      simp [hne, h2] at hr
  · exact Or.inr ⟨by simpa using h4, by omega, length_pos_iff.mp h3, rfl⟩
  · have hnil : s.rbuf = [] := by simpa using h3
    cases hr : s.rerr with
    | none => refine Or.inl ⟨_, rfl, ?_, ?_⟩ <;> simp
    | some e => cases e <;> refine Or.inl ⟨_, rfl, ?_, ?_⟩ <;> simp [hnil]

/-- **A send** appends what there is room for while the write side is open. -/
theorem send_cases (s : Socket) (b : List UInt8) :
    (∃ r, s.send b = ⟨s, false, false, r⟩ ∧ ∀ n, r = .ok n → n = 0) ∨
    (s.werr = false ∧ s.wshut = false ∧ ∃ n, n ≤ b.length ∧ s.wbuf.length + n ≤ sockWriteBuf ∧
      s.send b = ⟨{ s with wbuf := s.wbuf ++ b.take n }, false, true, .ok n⟩) := by
  unfold send
  dsimp only
  split_ifs with h1 h2 h3 h4
  · exact Or.inl ⟨_, rfl, by simp⟩
  · exact Or.inl ⟨_, rfl, by simp⟩
  · exact Or.inl ⟨_, rfl, by simp⟩
  · exact Or.inl ⟨_, rfl, by simp⟩
  · have hopen : s.werr = false ∧ s.wshut = false := by simpa using h2
    exact Or.inr ⟨hopen.1, hopen.2, _, min_le_left _ _, by omega, rfl⟩

theorem shutdown_cases (s : Socket) (how : ℤ) :
    (∃ r, s.shutdown how = ⟨s, false, false, r⟩) ∨
      s.shutdown how = ⟨{ s with wshut := true }, false, true, .ok ()⟩ := by
  unfold shutdown
  split_ifs
  · exact Or.inl ⟨_, rfl⟩
  · exact Or.inr rfl
  · exact Or.inl ⟨_, rfl⟩

end Socket

/-! ### The bytes of a step -/

namespace Sock

/-- The bytes a `send` accepted. -/
def accepted : SockAct × SockAns → List UInt8
  | (.send b, .sent n) => b.take n
  | _ => []

/-- The bytes a `conn.Write` transmitted. -/
def transmitted : SockAct × SockAns → List UInt8
  | (.connWrite _ _, .transmitted bs) => bs
  | _ => []

/-- The bytes a `conn.Read` returned. -/
def received : SockAct × SockAns → List UInt8
  | (.connRead chunk _, _) => chunk
  | _ => []

/-- The bytes a `recv` without peek returned. -/
def delivered : SockAct × SockAns → List UInt8
  | (.recv _ false, .got bs) => bs
  | _ => []

/-- All bytes of a run, in order. -/
def bytes (f : SockAct × SockAns → List UInt8) (tr : List (SockAct × SockAns)) : List UInt8 :=
  (tr.map f).flatten

@[simp] theorem bytes_snoc (f : SockAct × SockAns → List UInt8) (tr : List (SockAct × SockAns))
    (x : SockAct × SockAns) : bytes f (tr ++ [x]) = bytes f tr ++ f x := by
  simp [bytes]

end Sock

/-- The bytes at the front of `wbuf` that the connection has already transmitted. -/
def WriterPc.uncut : WriterPc → ℕ
  | .wrote n _ => n
  | _ => 0

/-- The bytes received that are not in `rbuf` yet. -/
def ReaderPc.pending : ReaderPc → List UInt8
  | .read chunk _ => chunk
  | _ => []

/-- The reader has not found `rbuf` full since it last looked. -/
def ReaderPc.hasRoom : ReaderPc → Bool
  | .waiting _ => false
  | .notifying stop => !stop
  | .done => false
  | _ => true

namespace SockSys

theorem signalWriter_uncut (pc : WriterPc) : (signalWriter pc).uncut = pc.uncut := by
  cases pc <;> rfl

theorem signalWriter_writing {pc : WriterPc} {out : List UInt8}
    (h : signalWriter pc = .writing out) : pc = .writing out := by
  cases pc <;> first | exact h | cases h

theorem signalReader_pending (pc : ReaderPc) : (signalReader pc).pending = pc.pending := by
  cases pc <;> rfl

theorem signalReader_hasRoom (pc : ReaderPc) : (signalReader pc).hasRoom = pc.hasRoom := by
  cases pc <;> rfl

theorem signalReader_of_not_waiting {pc : ReaderPc} (h : ∀ w, pc ≠ .waiting w) :
    signalReader pc = pc := by
  cases pc with
  | waiting w => exact absurd rfl (h w)
  | _ => rfl

end SockSys

/-! ### The write side -/

/-- What `send` accepted has been transmitted or is in `wbuf`, in order. -/
structure WriteInv (acc tra : List UInt8) (s : SockSys) : Prop where
  stream : acc = tra ++ s.sock.wbuf.drop s.writer.uncut
  uncut_le : s.writer.uncut ≤ s.sock.wbuf.length
  out : ∀ out, s.writer = .writing out → out <+: s.sock.wbuf
  bound : s.sock.wbuf.length ≤ sockWriteBuf
  fin : s.sock.wdone = true → s.sock.werr = true ∨ (s.sock.wbuf = [] ∧ s.sock.wshut = true)
  fresh : s.sock.state = .sockNew → s.writer = .idle

section Write

variable {acc tra : List UInt8} {s s' : SockSys}

theorem WriteInv.congr (h : WriteInv acc tra s) (hb : s'.sock.wbuf = s.sock.wbuf)
    (he : s'.sock.werr = s.sock.werr) (hw : s'.sock.wshut = s.sock.wshut)
    (hd : s'.sock.wdone = s.sock.wdone) (hs : s'.sock.state = s.sock.state)
    (hp : s'.writer = s.writer) : WriteInv acc tra s' := by
  refine ⟨?_, ?_, ?_, ?_, ?_, ?_⟩
  · rw [hb, hp]; exact h.stream
  · rw [hb, hp]; exact h.uncut_le
  · rw [hb, hp]; exact h.out
  · rw [hb]; exact h.bound
  · rw [hb, he, hw, hd]; exact h.fin
  · rw [hs, hp]; exact h.fresh

theorem writeInv_readRoom (h : WriteInv acc tra s) : WriteInv acc tra s.readRoom := by
  unfold SockSys.readRoom
  split_ifs
  · exact h.congr rfl rfl rfl rfl rfl rfl
  · exact h.congr rfl rfl rfl rfl rfl rfl

theorem WriteInv.call {α : Type} (h : WriteInv acc tra s) {x : SockSection α}
    (hb : x.sock.wbuf = s.sock.wbuf) (he : x.sock.werr = s.sock.werr)
    (hw : s.sock.wshut = true → x.sock.wshut = true) (hd : x.sock.wdone = s.sock.wdone)
    (hs : x.sock.state = s.sock.state) : WriteInv acc tra (s.call x) := by
  have hun : (s.call x).writer.uncut = s.writer.uncut := by
    simp only [SockSys.call]
    split_ifs
    · exact SockSys.signalWriter_uncut s.writer
    · rfl
  refine ⟨?_, ?_, fun out ho => ?_, ?_, fun hdone => ?_, fun hnew => ?_⟩
  · rw [hun]; simpa [SockSys.call, hb] using h.stream
  · rw [hun]; simpa [SockSys.call, hb] using h.uncut_le
  · have ho' : s.writer = .writing out := by
      simp only [SockSys.call] at ho
      split_ifs at ho
      · exact SockSys.signalWriter_writing ho
      · exact ho
    simpa [SockSys.call, hb] using h.out out ho'
  · simpa [SockSys.call, hb] using h.bound
  · rcases h.fin (hd ▸ hdone) with h1 | ⟨h1, h2⟩
    · exact Or.inl (he.trans h1)
    · exact Or.inr ⟨hb.trans h1, hw h2⟩
  · have hidle := h.fresh (hs ▸ hnew)
    simp [SockSys.call, hidle, SockSys.signalWriter]

/-- Bytes are appended to `wbuf` behind the snapshot that is being written. -/
theorem writeInv_send (h : WriteInv acc tra s) (b : List UInt8) :
    WriteInv (acc ++ Sock.accepted (.send b, answer .sent (s.sock.send b).ret)) tra
      (s.call (s.sock.send b)) := by
  rcases send_cases s.sock b with ⟨r, hr, hn⟩ | ⟨he, hw, n, -, hle, hr⟩
  · have hacc : Sock.accepted (.send b, answer .sent r) = [] := by
      cases r with
      | error e => rfl
      | ok n => simp [answer, Sock.accepted, hn n rfl]
    rw [hr, hacc, append_nil]
    exact h.call rfl rfl id rfl rfl
  · rw [hr]
    have hun : (SockSys.signalWriter s.writer).uncut = s.writer.uncut :=
      SockSys.signalWriter_uncut s.writer
    refine ⟨?_, ?_, fun out ho => ?_, ?_, fun hd => ?_, fun hnew => ?_⟩
    · show acc ++ b.take n = tra ++ (s.sock.wbuf ++ b.take n).drop (SockSys.signalWriter s.writer).uncut
      rw [hun, drop_append_of_le_length h.uncut_le, ← append_assoc, ← h.stream]
    · show (SockSys.signalWriter s.writer).uncut ≤ (s.sock.wbuf ++ b.take n).length
      rw [hun, length_append]
      exact Nat.le_add_right_of_le h.uncut_le
    · exact (h.out out (SockSys.signalWriter_writing ho)).trans (prefix_append _ _)
    · show (s.sock.wbuf ++ b.take n).length ≤ sockWriteBuf
      rw [length_append, length_take]
      omega
    · -- after the loop the write side is closed, and nothing is accepted
      rcases h.fin hd with h1 | ⟨-, h1⟩
      · rw [he] at h1; cases h1
      · rw [hw] at h1; cases h1
    · have hidle := h.fresh hnew
      simp [SockSys.call, hidle, SockSys.signalWriter]

/-- The writer is outside `conn.Write`, with all transmitted bytes cut off. -/
theorem writeInv_quiet (hs : acc = tra ++ s.sock.wbuf) (hb : s.sock.wbuf.length ≤ sockWriteBuf)
    (hd : s.sock.wdone = true → s.sock.werr = true ∨ (s.sock.wbuf = [] ∧ s.sock.wshut = true))
    (hc : s.sock.state ≠ .sockNew) (hq : s.writer.uncut = 0) (hw : ∀ out, s.writer ≠ .writing out) :
    WriteInv acc tra s := by
  refine ⟨?_, ?_, fun out ho => absurd ho (hw out), hb, hd, fun hn => absurd hn hc⟩
  · rw [hq, drop_zero]
    exact hs
  · rw [hq]
    exact Nat.zero_le _

theorem writeInv_writeHead (hs : acc = tra ++ s.sock.wbuf) (hb : s.sock.wbuf.length ≤ sockWriteBuf)
    (hd : s.sock.wdone = true → s.sock.werr = true ∨ (s.sock.wbuf = [] ∧ s.sock.wshut = true))
    (hc : s.sock.state ≠ .sockNew) : WriteInv acc tra s.writeHead := by
  unfold SockSys.writeHead
  split_ifs with h1 h2
  · exact writeInv_quiet hs hb hd hc rfl (by simp)
  · refine writeInv_quiet hs hb (fun _ => ?_) hc rfl (by simp)
    exact h2.imp id fun hx => ⟨length_eq_zero_iff.mp hx.1, hx.2⟩
  · refine ⟨hs, Nat.zero_le _, fun out ho => ?_, hb, hd, fun hn => absurd hn hc⟩
    rw [← WriterPc.writing.inj ho]

theorem writeInv_step {a : SockAct} {o : SockAns} (h : WriteInv acc tra s)
    (hs : sockStep s a = some (s', o)) :
    WriteInv (acc ++ Sock.accepted (a, o)) (tra ++ Sock.transmitted (a, o)) s' := by
  have hnew : s.writer ≠ .idle → s.sock.state ≠ .sockNew := fun h1 h2 => h1 (h.fresh h2)
  have hst := h.stream
  cases sockCase_of_step hs <;>
    simp only [Sock.accepted, Sock.transmitted, append_nil]
  case startConn hc =>
    rw [h.fresh hc] at hst
    exact writeInv_quiet hst h.bound h.fin (by simp) rfl (by simp)
  case recv len peek =>
    rcases recv_cases s.sock len peek with ⟨r, hr, -⟩ | ⟨-, -, -, hr⟩
    · rw [hr]
      exact h.call rfl rfl id rfl rfl
    · rw [hr]
      exact h.call rfl rfl id rfl rfl
  case send b => exact writeInv_send h b
  case shutdown how =>
    rcases shutdown_cases s.sock how with ⟨r, hr⟩ | hr
    · rw [hr]
      exact h.call rfl rfl id rfl rfl
    · rw [hr]
      exact h.call rfl rfl (fun _ => rfl) rfl rfl
  case release =>
    have hcall : WriteInv acc tra (s.call s.sock.release) := h.call rfl rfl (fun _ => rfl) rfl rfl
    exact hcall.congr rfl rfl rfl rfl rfl rfl
  case releaseConn => exact h.congr rfl rfl rfl rfl rfl rfl
  case changed => exact h.congr rfl rfl rfl rfl rfl rfl
  case connRead => exact h.congr rfl rfl rfl rfl rfl rfl
  case append => exact writeInv_readRoom (h.congr rfl rfl rfl rfl rfl rfl)
  case readWake => exact writeInv_readRoom h
  case readNotify => exact h.congr rfl rfl rfl rfl rfl rfl
  case writeLock hp =>
    refine writeInv_writeHead ?_ h.bound h.fin (hnew ?_)
    · rcases hp with hp | hp <;> rw [hp] at hst <;> exact hst
    · rcases hp with hp | hp <;> simp [hp]
  case connWrite out n err hp hn =>
    have hpre := h.out out hp
    rw [hp] at hst
    refine ⟨?_, ?_, fun out' ho => (by cases ho), h.bound, h.fin,
      fun hc => absurd hc (hnew (by simp [hp]))⟩
    · -- the transmitted bytes are the first `n` bytes of the present buffer
      have htake : out.take n = s.sock.wbuf.take n := by
        rw [prefix_iff_eq_take.mp hpre, take_take, min_eq_left hn]
      rw [hst, htake, append_assoc]
      show tra ++ s.sock.wbuf = tra ++ (s.sock.wbuf.take n ++ s.sock.wbuf.drop n)
      rw [take_append_drop]
    · exact hn.trans hpre.length_le
  case cut n err hp =>
    rw [hp] at hst
    refine writeInv_writeHead hst ?_ (fun hd => ?_) (hnew (by simp [hp]))
    · have hb := h.bound
      simp only [cut, length_drop]
      omega
    · rcases h.fin hd with h1 | ⟨h1, h2⟩
      · exact Or.inl (by simp [cut, h1])
      · exact Or.inr ⟨by simp [cut, h1], h2⟩
  case writeClose rel hp =>
    rw [hp] at hst
    exact writeInv_quiet hst h.bound h.fin (hnew (by simp [hp])) rfl (by simp)
  case writeNotify hp =>
    rw [hp] at hst
    exact writeInv_quiet hst h.bound h.fin (hnew (by simp [hp])) rfl (by simp)

end Write

/-! ### The read side -/

/-- What was received has been delivered, or is in `rbuf` or with the loop, in order. -/
structure ReadInv (rec del : List UInt8) (s : SockSys) : Prop where
  stream : rec = del ++ s.sock.rbuf ++ s.reader.pending
  room : s.reader.hasRoom = true → s.sock.rbuf.length < sockReadAhead
  chunk : s.reader.pending.length ≤ sockChunk
  bound : s.sock.rbuf.length < sockReadAhead + sockChunk
  stop : s.sock.rerr ≠ none → s.reader = .notifying true ∨ s.reader = .done
  fresh : s.sock.state = .sockNew → s.reader = .idle

section Read

variable {rec del : List UInt8} {s s' : SockSys}

theorem ReadInv.congr (h : ReadInv rec del s) (hb : s'.sock.rbuf = s.sock.rbuf)
    (he : s'.sock.rerr = s.sock.rerr) (hs : s'.sock.state = s.sock.state)
    (hp : s'.reader = s.reader) : ReadInv rec del s' := by
  refine ⟨?_, ?_, ?_, ?_, ?_, ?_⟩
  · rw [hb, hp]; exact h.stream
  · rw [hb, hp]; exact h.room
  · rw [hp]; exact h.chunk
  · rw [hb]; exact h.bound
  · rw [he, hp]; exact h.stop
  · rw [hs, hp]; exact h.fresh

theorem ReadInv.call {α : Type} (h : ReadInv rec del s) {x : SockSection α} {bs : List UInt8}
    (hb : s.sock.rbuf = bs ++ x.sock.rbuf) (he : x.sock.rerr = s.sock.rerr)
    (hs : x.sock.state = s.sock.state) : ReadInv rec (del ++ bs) (s.call x) := by
  have hlen : x.sock.rbuf.length ≤ s.sock.rbuf.length := by
    rw [hb, length_append]
    omega
  have hpend : (s.call x).reader.pending = s.reader.pending := by
    simp only [SockSys.call]
    split_ifs
    · exact SockSys.signalReader_pending s.reader
    · rfl
  have hroom : (s.call x).reader.hasRoom = s.reader.hasRoom := by
    simp only [SockSys.call]
    split_ifs
    · exact SockSys.signalReader_hasRoom s.reader
    · rfl
  have hsame : (∀ w, s.reader ≠ .waiting w) → (s.call x).reader = s.reader := by
    intro hw
    simp only [SockSys.call]
    split_ifs
    · exact SockSys.signalReader_of_not_waiting hw
    · rfl
  refine ⟨?_, fun hr => ?_, ?_, ?_, fun hne => ?_, fun hnew => ?_⟩
  · rw [h.stream, hpend, hb]
    simp [SockSys.call]
  · exact lt_of_le_of_lt hlen (h.room (hroom ▸ hr))
  · rw [hpend]
    exact h.chunk
  · exact lt_of_le_of_lt hlen h.bound
  · have hstop := h.stop (he ▸ hne)
    rw [hsame (by rcases hstop with hp | hp <;> simp [hp])]
    exact hstop
  · have hidle := h.fresh (hs ▸ hnew)
    rw [hsame (by simp [hidle])]
    exact hidle

theorem readInv_readRoom (hs : rec = del ++ s.sock.rbuf)
    (hb : s.sock.rbuf.length < sockReadAhead + sockChunk) (hc : s.sock.state ≠ .sockNew) :
    ReadInv rec del s.readRoom := by
  unfold SockSys.readRoom
  split_ifs with hw
  · refine ⟨by simpa [pending] using hs, fun hr => (by cases hr), Nat.zero_le _, hb,
      fun hne => ?_, fun hn => absurd hn hc⟩
    simp only [readerWaits, Bool.and_eq_true, decide_eq_true_eq] at hw
    exact absurd hw.1.2 hne
  · refine ⟨by simpa [pending] using hs, fun hr => ?_, Nat.zero_le _, hb, fun hne => ?_,
      fun hn => absurd hn hc⟩
    · -- the loop goes on, so it did not wait because there is room
      have hgo : s.sock.rerr = none ∧ s.sock.released = false := by
        simpa [hasRoom] using hr
      simp only [readerWaits, hgo.1, hgo.2, Bool.and_eq_true, decide_eq_true_eq] at hw
      show s.sock.rbuf.length < sockReadAhead
      by_contra hge
      exact hw ⟨⟨by omega, trivial⟩, rfl⟩
    · refine Or.inl ?_
      have hne' : s.sock.rerr ≠ none := hne
      simp [hne']

theorem readInv_writeHead (h : ReadInv rec del s) : ReadInv rec del s.writeHead := by
  unfold SockSys.writeHead
  split_ifs
  · exact h.congr rfl rfl rfl rfl
  · exact h.congr rfl rfl rfl rfl
  · exact h.congr rfl rfl rfl rfl

theorem readInv_recv (h : ReadInv rec del s) (len : ℕ) (peek : Bool) :
    ReadInv rec (del ++ Sock.delivered (.recv len peek, answer .got (s.sock.recv len peek).ret))
      (s.call (s.sock.recv len peek)) := by
  rcases recv_cases s.sock len peek with ⟨r, hr, hnil, -⟩ | ⟨rfl, -, -, hr⟩
  · have hdel : Sock.delivered (.recv len peek, answer .got r) = [] := by
      cases peek with
      | true => rfl
      | false =>
        cases r with
        | error e => rfl
        | ok bs => exact hnil rfl bs rfl
    rw [hr, hdel]
    exact h.call rfl rfl rfl
  · rw [hr]
    exact h.call (take_append_drop len s.sock.rbuf).symm rfl rfl

theorem readInv_step {a : SockAct} {o : SockAns} (h : ReadInv rec del s)
    (hs : sockStep s a = some (s', o)) :
    ReadInv (rec ++ Sock.received (a, o)) (del ++ Sock.delivered (a, o)) s' := by
  have hnew : s.reader ≠ .idle → s.sock.state ≠ .sockNew := fun h1 h2 => h1 (h.fresh h2)
  have hst := h.stream
  have hroom := h.room
  have hstop := h.stop
  cases sockCase_of_step hs <;> simp only [Sock.received, Sock.delivered, append_nil]
  case startConn hc =>
    rw [h.fresh hc] at hst hroom hstop
    exact ⟨hst, fun _ => hroom rfl, Nat.zero_le _, h.bound,
      fun hne => (hstop hne).elim (fun hp => by cases hp) (fun hp => by cases hp),
      fun hn => (by cases hn)⟩
  case recv len peek => exact readInv_recv h len peek
  case send b =>
    rcases send_cases s.sock b with ⟨r, hr, -⟩ | ⟨-, -, n, -, -, hr⟩
    · rw [hr]
      exact h.congr rfl rfl rfl rfl
    · rw [hr]
      exact h.congr rfl rfl rfl rfl
  case shutdown how =>
    rcases shutdown_cases s.sock how with ⟨r, hr⟩ | hr
    · rw [hr]
      exact h.congr rfl rfl rfl rfl
    · rw [hr]
      exact h.congr rfl rfl rfl rfl
  case release =>
    have hcall : ReadInv rec (del ++ []) (s.call s.sock.release) := h.call rfl rfl rfl
    rw [append_nil] at hcall
    exact hcall.congr rfl rfl rfl rfl
  case releaseConn => exact h.congr rfl rfl rfl rfl
  case changed => exact h.congr rfl rfl rfl rfl
  case connRead chunk err hp hc =>
    rw [hp] at hst hroom hstop
    refine ⟨?_, fun _ => hroom rfl, hc, h.bound, fun hne => ?_,
      fun hn => absurd hn (hnew (by simp [hp]))⟩
    · rw [hst]
      simp [pending]
    · rcases hstop hne with hq | hq <;> cases hq
  case append chunk err hp =>
    have hchunk := h.chunk
    rw [hp] at hst hroom hchunk
    refine readInv_readRoom ?_ ?_ (hnew (by simp [hp]))
    · rw [hst]
      simp [append, pending]
    · -- there was room before the chunk
      have hlt := hroom rfl
      simp only [pending] at hchunk
      simp only [append, length_append]
      omega
  case readWake hp =>
    rw [hp] at hst
    exact readInv_readRoom (by simpa [pending] using hst) h.bound (hnew (by simp [hp]))
  case readNotify stop hp =>
    rw [hp] at hst hroom hstop
    cases stop with
    | true =>
      exact ⟨hst, fun hr => (by cases hr), Nat.zero_le _, h.bound, fun _ => Or.inr rfl,
        fun hn => absurd hn (hnew (by simp [hp]))⟩
    | false =>
      refine ⟨hst, fun _ => hroom rfl, Nat.zero_le _, h.bound, fun hne => ?_,
        fun hn => absurd hn (hnew (by simp [hp]))⟩
      rcases hstop hne with hq | hq <;> cases hq
  case writeLock => exact readInv_writeHead h
  case connWrite => exact h.congr rfl rfl rfl rfl
  case cut => exact readInv_writeHead (h.congr rfl rfl rfl rfl)
  case writeClose => exact h.congr rfl rfl rfl rfl
  case writeNotify => exact h.congr rfl rfl rfl rfl

end Read

/-! ### Runs -/

theorem sock_run {s0 s : SockSys} {tr : List (SockAct × SockAns)} (hi : sockSystem.init s0)
    (h : sockSystem.Run s0 tr s) :
    WriteInv (Sock.bytes Sock.accepted tr) (Sock.bytes Sock.transmitted tr) s ∧
      ReadInv (Sock.bytes Sock.received tr) (Sock.bytes Sock.delivered tr) s := by
  obtain ⟨halfClose, rfl⟩ := hi
  apply h.history (P := fun tr s =>
    WriteInv (Sock.bytes Sock.accepted tr) (Sock.bytes Sock.transmitted tr) s ∧
    ReadInv (Sock.bytes Sock.received tr) (Sock.bytes Sock.delivered tr) s)
  · intro tr s a s' o hinv hs
    simp only [Sock.bytes_snoc]
    exact ⟨writeInv_step hinv.1 hs, readInv_step hinv.2 hs⟩
  · have hroom : (0 : ℕ) < sockReadAhead := by decide
    exact ⟨⟨rfl, Nat.zero_le _, fun out ho => (by cases ho), Nat.zero_le _, fun hd => (by cases hd),
      fun _ => rfl⟩, ⟨rfl, fun _ => hroom, Nat.zero_le _, Nat.lt_add_right _ hroom,
      fun hne => absurd rfl hne, fun _ => rfl⟩⟩

theorem recv_peek {s s' : SockSys} {len : ℕ} {o : SockAns}
    (h : sockStep s (.recv len true) = some (s', o)) : s' = s := by
  obtain ⟨rfl, -⟩ := Prod.mk.inj (Option.some.inj h)
  rcases recv_cases s.sock len true with ⟨r, hr, -⟩ | ⟨hp, -⟩
  · rw [hr]
    rfl
  · cases hp

/-- End of file and a reset are reported with `rbuf` empty and the reader stopped. -/
theorem recv_end {s s' : SockSys} {len : ℕ} {peek : Bool} {o : SockAns} (hlen : 0 < len)
    (h : sockStep s (.recv len peek) = some (s', o)) (ho : o = .got [] ∨ o = .err .ECONNRESET) :
    s.sock.rbuf = [] ∧ s.sock.rerr ≠ none := by
  obtain ⟨-, rfl⟩ := Prod.mk.inj (Option.some.inj h)
  rcases recv_cases s.sock len peek with ⟨r, hr, -, hend⟩ | ⟨-, -, hne, hr⟩
  · rw [hr] at ho
    apply hend hlen
    cases r with
    | error e => exact Or.inr (by simpa [answer] using ho)
    | ok bs => exact Or.inl (by simpa [answer] using ho)
  · rw [hr] at ho
    have hnil : s.sock.rbuf.take len = [] := by simpa [answer] using ho
    rcases take_eq_nil_iff.mp hnil with h1 | h1
    · omega
    · exact absurd h1 hne

/-- **Socket streams.** The accepted bytes are those transmitted and then `wbuf`, the received ones
those delivered and then `rbuf`, up to what a loop still has to cut off or to append; end of file
and a reset come last. -/
theorem sock_streams {s0 s : SockSys} {tr : List (SockAct × SockAns)} (hi : sockSystem.init s0)
    (h : sockSystem.Run s0 tr s) :
    (Sock.bytes Sock.accepted tr = Sock.bytes Sock.transmitted tr ++ s.sock.wbuf.drop s.writer.uncut ∧
      s.writer.uncut ≤ s.sock.wbuf.length ∧
      (s.sock.wdone = true → s.sock.werr = false → s.sock.wbuf = [])) ∧
    (Sock.bytes Sock.received tr = Sock.bytes Sock.delivered tr ++ s.sock.rbuf ++ s.reader.pending ∧
      (∀ len s' o, sockSystem.step s (.recv len true) = some (s', o) → s' = s) ∧
      (∀ len peek s' o, 0 < len → sockSystem.step s (.recv len peek) = some (s', o) →
        o = .got [] ∨ o = .err .ECONNRESET → Sock.bytes Sock.received tr = Sock.bytes Sock.delivered tr ∧
          (s.reader = .notifying true ∨ s.reader = .done))) ∧
    s.sock.wbuf.length ≤ 256 * 1024 ∧ s.sock.rbuf.length < 256 * 1024 + 64 * 1024 := by
  obtain ⟨hw, hr⟩ := sock_run hi h
  refine ⟨⟨hw.stream, hw.uncut_le, fun hd he => ?_⟩, ⟨hr.stream, fun len s' o => recv_peek, ?_⟩,
    hw.bound, hr.bound⟩
  · rcases hw.fin hd with h1 | h1
    · rw [he] at h1
      cases h1
    · exact h1.1
  · intro len peek s' o hlen hs ho
    obtain ⟨hnil, hne⟩ := recv_end hlen hs ho
    have hstop := hr.stop hne
    refine ⟨?_, hstop⟩
    have hst := hr.stream
    rcases hstop with hp | hp <;> rw [hnil, hp] at hst <;>
      simpa [pending] using hst

/-- A short write, a second send during it, and end of file after the last byte. -/
theorem sock_streams_short : ∃ tr s, sockSystem.Run (.start true) tr s ∧
    Sock.bytes Sock.accepted tr = [1, 2, 3] ∧ Sock.bytes Sock.transmitted tr = [1] ∧ s.sock.wbuf = [2, 3] ∧
    Sock.bytes Sock.received tr = Sock.bytes Sock.delivered tr := by
  have hr := @System.exec_run _ _ _ sockSystem (.start true)
    [.startConn, .send [1, 2], .writeLock, .send [3], .connWrite 1 false, .cut,
      .connRead [7] (some .eof), .append, .recv 4 false] _ _ rfl
  have h := (sock_streams ⟨true, rfl⟩ hr).2.1.2.2 1 false _ _ (by decide) rfl (Or.inl rfl)
  exact ⟨_, _, hr, rfl, rfl, rfl, h.1⟩

/-- Between `conn.Write` and its section, and between `conn.Read` and its section. -/
theorem sock_uncut : ∃ tr s, sockSystem.Run (.start true) tr s ∧
    Sock.bytes Sock.accepted tr ≠ Sock.bytes Sock.transmitted tr ++ s.sock.wbuf ∧
    Sock.bytes Sock.received tr ≠ Sock.bytes Sock.delivered tr ++ s.sock.rbuf := by
  have hr := @System.exec_run _ _ _ sockSystem (.start true)
    [.startConn, .send [1], .writeLock, .connWrite 1 false, .connRead [7] none] _ _ rfl
  exact ⟨_, _, hr, by decide, by decide⟩

end PgZero.Kernel
