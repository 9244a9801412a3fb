import PgZero.Kernel.Readiness
import PgZero.Kernel.SocketStream

/-!
# Read-ahead and its readers

The loop that fills a socket's `rbuf`, and the one that fills the buffer of standard input, append a
chunk, wait for room while the buffer is full, and only then notify. Readers take a channel, try to
read, and park. A reader that parks has seen the buffer empty, and a chunk that is added to an empty
buffer does not fill it: the notification it needs comes before the next wait.

* **`Ahead.Step.waits`**: every step keeps the claim of a reader that saw the buffer empty.
* **`read_ahead_wakes`**: no parked reader is forgotten, on sockets and on standard input.
-/

set_option autoImplicit false

namespace PgZero.Kernel

open Function Lib Socket SockSys Option

/-! ### Reading ahead -/

/-- Where a loop is. -/
inductive AheadPc
  | off
  /-- in the host's read -/
  | reading
  /-- the host has returned `k` bytes, and an error if `err`; the section is still to come -/
  | full (k : ℕ) (err : Bool)
  /-- waiting for room, signalled or not -/
  | waiting (woken : Bool)
  | notifying (stop : Bool)
  | done

/-- A buffer of `len` bytes that a loop fills; `ended` when its end or an error is recorded. -/
structure Ahead where
  len : ℕ
  ended : Bool
  released : Bool
  n : Notifier
  pc : AheadPc

namespace Ahead

/-- The loop is signalled. -/
def signal : AheadPc → AheadPc
  | .waiting _ => .waiting true
  | pc => pc

/-- The end of the loop's section: wait for room, or unlock. -/
def room (limit : ℕ) (a : Ahead) : Ahead :=
  if limit ≤ a.len ∧ a.ended = false ∧ a.released = false then { a with pc := .waiting false }
  else { a with pc := .notifying (a.ended || a.released) }

/-- The steps of the loop, of the readers and of everyone else who uses the notifier. -/
inductive Step (limit chunk : ℕ) (a : Ahead) : Ahead → Prop
  | skip : Step limit chunk a a
  | start : a.pc = .off → Step limit chunk a { a with pc := .reading }
  | hostRead (k : ℕ) (err : Bool) : a.pc = .reading → k ≤ chunk →
      Step limit chunk a { a with pc := .full k err }
  | append {k : ℕ} {err : Bool} : a.pc = .full k err →
      Step limit chunk a (room limit { a with len := a.len + k, ended := a.ended || err })
  | wake : a.pc = .waiting true → Step limit chunk a (a.room limit)
  | loopNotify {stop : Bool} : a.pc = .notifying stop →
      Step limit chunk a { a with n := a.n.notify, pc := if stop then .done else .reading }
  | notify : Step limit chunk a { a with n := a.n.notify }
  | wait : Step limit chunk a { a with n := a.n.wait.1 }
  | drain (k : ℕ) : Step limit chunk a { a with len := a.len - k, pc := signal a.pc }
  | release : Step limit chunk a { a with released := true, pc := signal a.pc }

/-- The loop holds at most a chunk, and it sleeps only on a full buffer. -/
structure Ok (limit chunk : ℕ) (a : Ahead) : Prop where
  chunk_le : ∀ k err, a.pc = .full k err → k ≤ chunk
  asleep : a.pc = .waiting false → limit ≤ a.len ∧ a.ended = false ∧ a.released = false

/-- Whoever took channel `c` and then found the buffer empty is woken, or it is still empty, or the
loop is about to notify. -/
def WaitsOn (a : Ahead) (c : ℕ) : Prop :=
  a.n.Waits c (a.len = 0 ∧ a.ended = false) (∃ stop, a.pc = .notifying stop)

variable {limit chunk : ℕ} {a a' : Ahead}

theorem Step.of_eq (h : a' = a) : Step limit chunk a a' := h ▸ .skip

theorem room_of_lt (h : a.len < limit) :
    a.room limit = { a with pc := .notifying (a.ended || a.released) } :=
  if_neg fun hw => absurd hw.1 (not_le.mpr h)

theorem room_n : (a.room limit).n = a.n := by
  unfold room
  split <;> rfl

theorem Ok.room : (a.room limit).Ok limit chunk := by
  unfold Ahead.room
  split
  · next h => exact ⟨by simp, fun _ => h⟩
  · exact ⟨by simp, by simp⟩

theorem Ok.signal {len : ℕ} {released : Bool} (h : a.Ok limit chunk) :
    Ok limit chunk { a with len := len, released := released, pc := signal a.pc } := by
  refine ⟨fun k err hpc => h.chunk_le k err ?_, fun hpc => ?_⟩
  · cases h' : a.pc <;> simp_all [Ahead.signal]
  · cases h' : a.pc <;> simp_all [Ahead.signal]

theorem Ok.step (h : a.Ok limit chunk) (hs : Step limit chunk a a') : a'.Ok limit chunk := by
  cases hs with
  | skip => exact h
  | start => exact ⟨by simp, by simp⟩
  | hostRead k err _ hk =>
    refine ⟨fun k' err' he => ?_, by simp⟩
    cases he
    exact hk
  | append | wake => exact Ok.room
  | @loopNotify stop => cases stop <;> exact ⟨by simp, by simp⟩
  | notify | wait => exact ⟨h.chunk_le, h.asleep⟩
  | drain | release => exact h.signal

theorem Step.made_le (hs : Step limit chunk a a') : a.n.made ≤ a'.n.made := by
  cases hs with
  | append | wake => rw [room_n]
  | wait => exact a.n.made_le_wait
  | _ => exact le_rfl

theorem WaitsOn.room {b : Ahead} {c : ℕ} (hw : a.WaitsOn c) (hn : b.n = a.n)
    (hpc : ∀ stop, a.pc ≠ .notifying stop) (hlt : a.len = 0 → b.len < limit) :
    (b.room limit).WaitsOn c := by
  obtain ⟨hc, hclosed | ⟨h0, -⟩ | ⟨stop, hb⟩⟩ := hw
  · refine ⟨?_, .inl ?_⟩
    · rw [room_n, hn]
      exact hc
    · rw [room_n, hn]
      exact hclosed
  · rw [room_of_lt (hlt h0)]
    refine ⟨?_, .inr (.inr ⟨_, rfl⟩)⟩
    show c < b.n.made
    rw [hn]
    exact hc
  · exact absurd hb (hpc stop)

theorem WaitsOn.signal {len : ℕ} {released : Bool} {c : ℕ} (hw : a.WaitsOn c) (hl : len ≤ a.len) :
    WaitsOn { a with len := len, released := released, pc := signal a.pc } c := by
  refine Notifier.Waits.mono hw (fun h => ⟨Nat.le_zero.mp (h.1 ▸ hl), h.2⟩) ?_
  rintro ⟨stop, hb⟩
  exact ⟨stop, by simp [hb, Ahead.signal]⟩

/-- **Every step keeps the claim of a reader that found the buffer empty.** -/
theorem Step.waits (hlt : chunk < limit) (hok : a.Ok limit chunk) (hs : Step limit chunk a a')
    {c : ℕ} (hw : a.WaitsOn c) : a'.WaitsOn c := by
  cases hs with
  | skip => exact hw
  | start hpc | hostRead k err hpc _ =>
    exact Notifier.Waits.mono hw id fun ⟨_, hb⟩ => by simp [hpc] at hb
  | @append k err hpc =>
    have hk := hok.chunk_le k err hpc
    refine hw.room rfl (by simp [hpc]) fun h0 => ?_
    show a.len + k < limit
    omega
  | wake hpc => exact hw.room rfl (by simp [hpc]) fun h0 => by omega
  | loopNotify | notify => exact Notifier.Waits.notify hw
  | wait => exact Notifier.Waits.wait hw
  | drain => exact hw.signal (Nat.sub_le _ _)
  | release => exact hw.signal le_rfl

/-- With the channel open and the loop not about to notify, there is nothing to read. -/
theorem WaitsOn.empty {c : ℕ} (hw : a.WaitsOn c) (hc : ¬ a.n.closed c)
    (hpc : ∀ stop, a.pc ≠ .notifying stop) : a.len = 0 ∧ a.ended = false :=
  Notifier.Waits.asleep hw hc fun ⟨stop, hb⟩ => hpc stop hb

end Ahead

/-! ### `io` -/

/-- How `io` uses a file: its notifier, the step that takes a channel, and the steps of the
operation. -/
structure IoFile (σ ε ω ι : Type) where
  n : σ → Notifier
  changed : ε
  channel : ω → Option ℕ
  op : ι → ε
  errno : ω → Option Errno

/-- Where a process is in a call of `io`. -/
inductive OpPc (ι : Type)
  | idle
  | head (op : ι)
  | taken (op : ι) (c : ℕ)
  | parked (op : ι) (c : ℕ)

/-- A file, and the calls of `io` on it. -/
structure FileIo (σ ι : Type) where
  file : σ
  pc : ℕ → OpPc ι

/-- The steps of the calls and of the file. -/
inductive FileIoAct (ε ι : Type)
  /-- a step of the file, or a call that is not made by `io` -/
  | file (e : ε)
  | io (p : ℕ) (op : ι)
  | changed (p : ℕ)
  /-- run the operation; `nonblock` is the flag as it is read afterwards -/
  | op (p : ℕ) (nonblock : Bool)
  | woken (p : ℕ)
  | interrupted (p : ℕ)
  | killed (p : ℕ)

/-- What a step returns. -/
inductive FileIoAns (ω : Type)
  | next
  | file (o : ω)
  | ret (o : ω)
  | eintr
  | errKilled

section FileIo

variable {σ ε ω ι : Type} (base : System σ ε ω) (F : IoFile σ ε ω ι)

/-- One step of a call, or of the file. -/
def fileIoStep (s : FileIo σ ι) : FileIoAct ε ι → Option (FileIo σ ι × FileIoAns ω)
  | .file e => (base.step s.file e).map fun r => ({ s with file := r.1 }, .file r.2)
  | .io p op =>
    match s.pc p with
    | .idle => some ({ s with pc := update s.pc p (.head op) }, .next)
    | _ => none
  | .changed p =>
    match s.pc p with
    | .head op =>
      (base.step s.file F.changed).bind fun r =>
        (F.channel r.2).map fun c => (⟨r.1, update s.pc p (.taken op c)⟩, .next)
    | _ => none
  | .op p nonblock =>
    match s.pc p with
    | .taken op c =>
      (base.step s.file (F.op op)).map fun r =>
        if F.errno r.2 = some .EAGAIN ∧ nonblock = false then
          (⟨r.1, update s.pc p (.parked op c)⟩, .next)
        else (⟨r.1, update s.pc p .idle⟩, .ret r.2)
    | _ => none
  | .woken p =>
    match s.pc p with
    | .parked op c =>
      if (F.n s.file).closed c then
        some ({ s with pc := update s.pc p (.head op) }, .next)
      else none
    | _ => none
  | .interrupted p =>
    match s.pc p with
    | .parked _ _ => some ({ s with pc := update s.pc p .idle }, .eintr)
    | _ => none
  | .killed p =>
    match s.pc p with
    | .parked _ _ => some ({ s with pc := update s.pc p .idle }, .errKilled)
    | _ => none

/-- Any number of processes in `io` on a file. -/
def fileIo : System (FileIo σ ι) (FileIoAct ε ι) (FileIoAns ω) where
  init s := base.init s.file ∧ ∀ p, s.pc p = .idle
  step := fileIoStep base F

/-- The process holds no channel. -/
def OpPc.Free : OpPc ι → Prop
  | .idle | .head _ => True
  | .taken _ _ | .parked _ _ => False

/-- The steps, by what they do to the file and to a process. -/
inductive FileIoMove (s : FileIo σ ι) : FileIo σ ι → Prop
  | file {e : ε} {f : σ} {o : ω} : base.step s.file e = some (f, o) → FileIoMove s ⟨f, s.pc⟩
  | changed {p c : ℕ} {op : ι} {f : σ} {o : ω} : base.step s.file F.changed = some (f, o) →
      F.channel o = some c → FileIoMove s ⟨f, update s.pc p (.taken op c)⟩
  | parks {p c : ℕ} {op : ι} {f : σ} {o : ω} : s.pc p = .taken op c →
      base.step s.file (F.op op) = some (f, o) → F.errno o = some .EAGAIN →
      FileIoMove s ⟨f, update s.pc p (.parked op c)⟩
  | returns {p : ℕ} {op : ι} {f : σ} {o : ω} : base.step s.file (F.op op) = some (f, o) →
      FileIoMove s ⟨f, update s.pc p .idle⟩
  | goto {p : ℕ} {x : OpPc ι} : x.Free → FileIoMove s ⟨s.file, update s.pc p x⟩

variable {base F} {s s' : FileIo σ ι}

theorem fileIoStep_move {e : FileIoAct ε ι} {o : FileIoAns ω}
    (h : fileIoStep base F s e = some (s', o)) : FileIoMove base F s s' := by
  cases e with
  | file e =>
    obtain ⟨⟨f, o⟩, hf, he⟩ := map_eq_some_iff.mp h
    cases he
    exact .file hf
  | io p op =>
    cases hpc : s.pc p <;> simp only [fileIoStep, hpc, reduceCtorEq] at h
    cases h
    exact .goto trivial
  | changed p =>
    cases hpc : s.pc p <;> simp only [fileIoStep, hpc, reduceCtorEq] at h
    obtain ⟨⟨f, o⟩, hf, h⟩ := bind_eq_some_iff.mp h
    obtain ⟨c, hc, he⟩ := map_eq_some_iff.mp h
    cases he
    exact .changed hf hc
  | op p nonblock =>
    cases hpc : s.pc p <;> simp only [fileIoStep, hpc, reduceCtorEq] at h
    obtain ⟨⟨f, o⟩, hf, he⟩ := map_eq_some_iff.mp h
    split_ifs at he with hag
    · cases he
      exact .parks hpc hf hag.1
    · cases he
      exact .returns hf
  | woken p =>
    cases hpc : s.pc p <;> simp only [fileIoStep, hpc, reduceCtorEq] at h
    obtain ⟨-, he⟩ := ite_none_right_eq_some.mp h
    cases he
    exact .goto trivial
  | interrupted p | killed p =>
    cases hpc : s.pc p <;> simp only [fileIoStep, hpc, reduceCtorEq] at h
    cases h
    exact .goto trivial

theorem fileIo_file (h : (fileIo base F).Reachable s) : base.Reachable s.file := by
  refine h.invariant (P := fun s => base.Reachable s.file) (fun s hi => ?_) fun s e s' o hr hs => ?_
  · exact ⟨_, _, hi.1, .nil⟩
  cases fileIoStep_move hs with
  | file hf | changed hf | parks _ hf | returns hf => exact hr.step hf
  | goto => exact hr

/-- A file that is filled by a loop with the given limits, and which `io` reads. -/
structure ReadsAhead (limit chunk : ℕ) (base : System σ ε ω) (F : IoFile σ ε ω ι)
    (view : σ → Ahead) : Prop where
  lt : chunk < limit
  init : ∀ f, base.init f → (view f).Ok limit chunk
  step : ∀ f e f' o, base.Reachable f → base.step f e = some (f', o) →
    Ahead.Step limit chunk (view f) (view f')
  channel : ∀ f f' o c, base.step f F.changed = some (f', o) → F.channel o = some c →
    c < (view f').n.made
  again : ∀ f op f' o, base.step f (F.op op) = some (f', o) → F.errno o = some .EAGAIN →
    (view f').len = 0 ∧ (view f').ended = false

/-- What a process may rely on, by where it is. -/
def OpPc.Ok (a : Ahead) : OpPc ι → Prop
  | .idle | .head _ => True
  | .taken _ c => c < a.n.made
  | .parked _ c => a.WaitsOn c

theorem OpPc.Free.ok {x : OpPc ι} (h : x.Free) (a : Ahead) : x.Ok a := by
  cases x with
  | idle | head => trivial
  | taken | parked => exact h.elim

theorem OpPc.Ok.step {limit chunk : ℕ} {a a' : Ahead} {x : OpPc ι} (hlt : chunk < limit)
    (hok : a.Ok limit chunk) (hs : Ahead.Step limit chunk a a') (h : x.Ok a) : x.Ok a' := by
  cases x with
  | idle | head => trivial
  | taken op c => exact lt_of_lt_of_le h hs.made_le
  | parked op c => exact hs.waits hlt hok h

variable {limit chunk : ℕ} {view : σ → Ahead}

theorem ReadsAhead.ok (hR : ReadsAhead limit chunk base F view) {f : σ} (h : base.Reachable f) :
    (view f).Ok limit chunk := by
  have hP : base.Reachable f ∧ (view f).Ok limit chunk := by
    refine h.invariant (P := fun f => base.Reachable f ∧ (view f).Ok limit chunk)
      (fun f hi => ⟨⟨_, _, hi, .nil⟩, hR.init f hi⟩) fun f e f' o hf hs => ?_
    exact ⟨hf.1.step hs, hf.2.step (hR.step f e f' o hf.1 hs)⟩
  exact hP.2

/-- The claims of all processes. -/
def FileIo.Claims (view : σ → Ahead) (s : FileIo σ ι) : Prop := ∀ p, (s.pc p).Ok (view s.file)

theorem FileIo.Claims.goto {f : σ} {pc : ℕ → OpPc ι} {p : ℕ} {x : OpPc ι}
    (h : FileIo.Claims view ⟨f, pc⟩) (hx : x.Ok (view f)) :
    FileIo.Claims view ⟨f, update pc p x⟩ :=
  (forall_update_iff pc fun _ x => x.Ok (view f)).mpr ⟨hx, fun q _ => h q⟩

theorem ReadsAhead.file (hR : ReadsAhead limit chunk base F view) (hr : base.Reachable s.file)
    (h : s.Claims view) {e : ε} {f : σ} {o : ω} (hf : base.step s.file e = some (f, o)) :
    FileIo.Claims view ⟨f, s.pc⟩ :=
  fun p => (h p).step hR.lt (hR.ok hr) (hR.step _ _ _ _ hr hf)

theorem ReadsAhead.move (hR : ReadsAhead limit chunk base F view) (hr : base.Reachable s.file)
    (h : s.Claims view) (hm : FileIoMove base F s s') : s'.Claims view := by
  cases hm with
  | file hf => exact hR.file hr h hf
  | changed hf hc => exact (hR.file hr h hf).goto (hR.channel _ _ _ _ hf hc)
  | @parks p c op f o hpc hf hag =>
    have hc : OpPc.Ok (view f) (.taken op c) := hpc ▸ hR.file hr h hf p
    exact (hR.file hr h hf).goto (Notifier.Waits.of_blocked hc (hR.again _ _ _ _ hf hag))
  | returns hf => exact (hR.file hr h hf).goto trivial
  | goto hx => exact FileIo.Claims.goto h (hx.ok _)

/-- **The claims of all processes hold** in every reachable state. -/
theorem ReadsAhead.claims (hR : ReadsAhead limit chunk base F view)
    (h : (fileIo base F).Reachable s) : s.Claims view := by
  have hP : (fileIo base F).Reachable s ∧ s.Claims view := by
    refine h.invariant (P := fun s => (fileIo base F).Reachable s ∧ s.Claims view)
      (fun s hi => ⟨⟨_, _, hi, .nil⟩, fun p => ?_⟩) fun s e s' o hs hst => ?_
    · rw [hi.2 p]
      trivial
    · exact ⟨hs.1.step hst, hR.move (fileIo_file hs.1) hs.2 (fileIoStep_move hst)⟩
  exact hP.2

/-- **No wake-up is swallowed**: with something to read, the loop is about to notify. -/
theorem ReadsAhead.parked (hR : ReadsAhead limit chunk base F view)
    (h : (fileIo base F).Reachable s) {p c : ℕ} {op : ι} (hp : s.pc p = .parked op c)
    (hc : ¬ (view s.file).n.closed c) (hd : (view s.file).len ≠ 0 ∨ (view s.file).ended = true) :
    ∃ stop, (view s.file).pc = .notifying stop := by
  by_contra hb
  have hw : OpPc.Ok (view s.file) (.parked op c) := hp ▸ hR.claims h p
  have he := Ahead.WaitsOn.empty hw hc fun stop hs => hb ⟨stop, hs⟩
  rcases hd with hd | hd
  · exact hd he.1
  · exact absurd (he.2.symm.trans hd) Bool.false_ne_true

/-- A loop that waits with room in its buffer has been signalled, and notifies next. -/
theorem ReadsAhead.room (hR : ReadsAhead limit chunk base F view)
    (h : (fileIo base F).Reachable s) {woken : Bool} (hw : (view s.file).pc = .waiting woken)
    (hl : (view s.file).len < limit) : woken = true := by
  cases woken with
  | true => rfl
  | false => exact absurd ((hR.ok (fileIo_file h)).asleep hw).1 (not_le.mpr hl)

end FileIo

/-! ### Sockets -/

/-- The loop of a socket. -/
def ReaderPc.ahead : ReaderPc → AheadPc
  | .idle => .off
  | .reading => .reading
  | .read chunk err => .full chunk.length err.isSome
  | .waiting woken => .waiting woken
  | .notifying stop => .notifying stop
  | .done => .done

/-- The read side of a socket. -/
def SockSys.ahead (s : SockSys) : Ahead :=
  ⟨s.sock.rbuf.length, s.sock.rerr.isSome, s.sock.released, s.n, s.reader.ahead⟩

/-- A socket in `io`, read with a buffer of a given length, to take or to peek. -/
def sockFile : IoFile SockSys SockAct SockAns (ℕ × Bool) where
  n := n
  changed := .changed
  channel
    | .channel c => some c
    | _ => none
  op b := .recv b.1 b.2
  errno
    | .err e => some e
    | _ => none

namespace SockSys

variable {s s' : SockSys}

theorem ahead_signal (pc : ReaderPc) : (signalReader pc).ahead = Ahead.signal pc.ahead := by
  cases pc <;> rfl

theorem ahead_readRoom (s : SockSys) : s.readRoom.ahead = s.ahead.room sockReadAhead := by
  have hw : s.sock.readerWaits = true ↔
      sockReadAhead ≤ s.ahead.len ∧ s.ahead.ended = false ∧ s.ahead.released = false := by
    simp [readerWaits, ahead, and_assoc]
  unfold readRoom Ahead.room
  by_cases h : s.sock.readerWaits = true
  · rw [if_pos h, if_pos (hw.mp h)]
    rfl
  · rw [if_neg h, if_neg (mt hw.mpr h)]
    cases hr : s.sock.rerr <;> simp [ahead, ReaderPc.ahead, hr]

theorem ahead_writeHead (s : SockSys) : s.writeHead.ahead = s.ahead := by
  unfold writeHead
  split_ifs <;> rfl

theorem ahead_call {α : Type} (s : SockSys) (x : SockSection α) (hb : x.sock.rbuf = s.sock.rbuf)
    (he : x.sock.rerr = s.sock.rerr) (hr : x.sock.released = s.sock.released)
    (hc : x.rcond = false) : (s.call x).ahead = s.ahead := by
  simp [call, ahead, hb, he, hr, hc]

/-- **Every step of a socket is a step of reading ahead.** -/
theorem ahead_step (hfresh : s.sock.state = .sockNew → s.reader = .idle) {a : SockAct} {o : SockAns}
    (h : sockStep s a = some (s', o)) : Ahead.Step sockReadAhead sockChunk s.ahead s'.ahead := by
  cases sockCase_of_step h with
  | startConn hnew => exact Ahead.Step.start (by rw [ahead, hfresh hnew]; rfl)
  | recv len peek =>
    rcases recv_cases s.sock len peek with ⟨r, hr, -⟩ | ⟨-, -, -, hr⟩
    · rw [hr]
      exact .skip
    · rw [hr]
      have hd : s.ahead.Step sockReadAhead sockChunk _ := Ahead.Step.drain len
      simpa [call, ahead, ahead_signal] using hd
  | send b =>
    refine Ahead.Step.of_eq (ahead_call s _ ?_ ?_ ?_ ?_) <;>
      rcases send_cases s.sock b with ⟨r, hr, -⟩ | ⟨-, -, n, -, -, hr⟩ <;> rw [hr]
  | shutdown how =>
    refine Ahead.Step.of_eq (ahead_call s _ ?_ ?_ ?_ ?_) <;>
      rcases shutdown_cases s.sock how with ⟨r, hr⟩ | hr <;> rw [hr]
  | release =>
    have hd : s.ahead.Step sockReadAhead sockChunk _ := Ahead.Step.release
    simpa [call, release, ahead, ahead_signal] using hd
  | releaseConn => exact .notify
  | changed => exact .wait
  | connRead chunk err hpc hk => exact .hostRead _ _ (by rw [ahead, hpc]; rfl) hk
  | append chunk err hpc =>
    rw [ahead_readRoom]
    have ha : s.ahead.pc = .full chunk.length err.isSome := by rw [ahead, hpc]; rfl
    have hst := @Ahead.Step.append sockReadAhead sockChunk _ _ _ ha
    cases err with
    | none => simpa [ahead, append, hpc] using hst
    | some e => cases e <;> simpa [ahead, append, hpc] using hst
  | readWake hpc =>
    rw [ahead_readRoom]
    exact .wake (by rw [ahead, hpc]; rfl)
  | readNotify stop hpc =>
    have ha : s.ahead.pc = .notifying stop := by rw [ahead, hpc]; rfl
    have hst := @Ahead.Step.loopNotify sockReadAhead sockChunk _ _ ha
    cases stop <;> exact hst
  | writeLock => exact .of_eq (ahead_writeHead s)
  | connWrite => exact .skip
  | cut =>
    rw [ahead_writeHead]
    exact .notify
  | writeClose => exact .skip
  | writeNotify => exact .notify

theorem fresh (h : sockSystem.Reachable s) (hnew : s.sock.state = .sockNew) : s.reader = .idle := by
  obtain ⟨s0, tr, hi, hr⟩ := h
  exact (sock_run hi hr).2.fresh hnew

end SockSys

/-- `recv` blocks only with nothing to read, and leaves the socket as it is. -/
theorem Socket.recv_blocks {s : Socket} {len : ℕ} {peek : Bool}
    (h : (s.recv len peek).ret = .error .EAGAIN) :
    (s.recv len peek).sock = s ∧ s.rbuf = [] ∧ s.rerr = none := by
  have hs : s.state = .sockConnected := by
    by_contra hs
    simp [recv, hs] at h
  have hlen : 0 < len := by
    by_contra hlen
    simp [recv, hs, Nat.eq_zero_of_not_pos hlen] at h
  obtain ⟨hnil, hnone⟩ := (recv_again hs hlen peek).mp h
  rcases recv_cases s len peek with ⟨r, hr, -⟩ | ⟨-, -, hne, -⟩
  · rw [hr]
    exact ⟨rfl, hnil, hnone⟩
  · exact absurd hnil hne

theorem sock_readsAhead :
    ReadsAhead sockReadAhead sockChunk sockSystem sockFile ahead where
  lt := by decide
  init := by
    rintro f ⟨halfClose, rfl⟩
    exact ⟨fun k err h => (by cases h), fun h => (by cases h)⟩
  step f e f' o hr hs := ahead_step (fresh hr) hs
  channel f f' o c hs hc := by
    cases hs
    cases hc
    exact f.n.wait_lt
  again f op f' o hs hag := by
    cases hs
    have hret : (f.sock.recv op.1 op.2).ret = .error .EAGAIN := by
      cases hr : (f.sock.recv op.1 op.2).ret with
      | ok bs => simp [hr, answer, sockFile] at hag
      | error e => simpa [hr, answer, sockFile] using hag
    obtain ⟨hsock, hnil, hnone⟩ := recv_blocks hret
    simp [ahead, call, hsock, hnil, hnone]

/-! ### Standard input -/

/-- The limit of the buffer. -/
def readerAhead : ℕ := 64 * 1024

/-- The size of the chunks `pump` reads. -/
def readerChunk : ℕ := 32 * 1024

/-- `pump` takes up what the host's reader returned. -/
def ReaderFile.append (f : ReaderFile) (chunk : List UInt8) (err : Bool) : ReaderFile :=
  ⟨f.buf ++ chunk, f.eof || err⟩

/-- `pump` waits for room. -/
def ReaderFile.pumpWaits (f : ReaderFile) : Bool := readerAhead ≤ f.buf.length && !f.eof

/-- Where the pump of standard input is. -/
inductive PumpPc
  /-- in the host's `Read` -/
  | reading
  /-- it has returned, the section is still to come -/
  | read (chunk : List UInt8) (err : Bool)
  /-- in `room.Wait`, signalled or not -/
  | waiting (woken : Bool)
  | notifying (stop : Bool)
  | done
  deriving DecidableEq, Repr

/-- Standard input with its pump. -/
structure StdinSys where
  file : ReaderFile
  n : Notifier
  pump : PumpPc

namespace StdinSys

/-- `newReaderFile`. -/
def start : StdinSys := ⟨⟨[], false⟩, .zero, .reading⟩

/-- The pump is signalled. -/
def signalPump : PumpPc → PumpPc
  | .waiting _ => .waiting true
  | pc => pc

/-- The end of the pump's section: wait for room, or unlock. -/
def pumpRoom (s : StdinSys) : StdinSys :=
  if s.file.pumpWaits then { s with pump := .waiting false }
  else { s with pump := .notifying s.file.eof }

end StdinSys

/-- The steps of the pump and of the readers. -/
inductive StdinAct
  | read (len : ℕ)
  | changed
  /-- the host's `Read` returns -/
  | hostRead (chunk : List UInt8) (err : Bool)
  | append
  | pumpWake
  | pumpNotify
  deriving DecidableEq, Repr

/-- What a step returns. -/
inductive StdinAns
  | done
  | got (r : Except Errno (List UInt8))
  | channel (c : ℕ)

/-- One step of the pump, or of a reader. -/
def stdinStep (s : StdinSys) : StdinAct → Option (StdinSys × StdinAns)
  | .read len =>
    -- `read` signals whenever there was something in the buffer
    let pump := if 0 < s.file.buf.length then StdinSys.signalPump s.pump else s.pump
    some ({ s with file := (s.file.read len).1, pump }, .got (s.file.read len).2)
  | .changed => some ({ s with n := s.n.wait.1 }, .channel s.n.wait.2)
  | .hostRead chunk err =>
    if s.pump = .reading ∧ chunk.length ≤ readerChunk then
      some ({ s with pump := .read chunk err }, .done)
    else none
  | .append =>
    match s.pump with
    | .read chunk err =>
      some (({ s with file := s.file.append chunk err } : StdinSys).pumpRoom, .done)
    | _ => none
  | .pumpWake => if s.pump = .waiting true then some (s.pumpRoom, .done) else none
  | .pumpNotify =>
    match s.pump with
    | .notifying stop =>
      some ({ s with n := s.n.notify, pump := if stop then .done else .reading }, .done)
    | _ => none

/-- The runs of standard input, from its creation. -/
def pumpSystem : System StdinSys StdinAct StdinAns where
  init s := s = .start
  step := stdinStep

/-- Standard input in `io`, read with a buffer of a given length. -/
def stdinFile : IoFile StdinSys StdinAct StdinAns ℕ where
  n := StdinSys.n
  changed := .changed
  channel
    | .channel c => some c
    | _ => none
  op := .read
  errno
    | .got r => errno r
    | _ => none

/-- The pump as a loop. -/
def PumpPc.ahead : PumpPc → AheadPc
  | .reading => .reading
  | .read chunk err => .full chunk.length err
  | .waiting woken => .waiting woken
  | .notifying stop => .notifying stop
  | .done => .done

namespace StdinSys

/-- Standard input as a buffer with a loop. -/
def ahead (s : StdinSys) : Ahead := ⟨s.file.buf.length, s.file.eof, false, s.n, s.pump.ahead⟩

variable {s s' : StdinSys}

theorem ahead_signal (pc : PumpPc) : (signalPump pc).ahead = Ahead.signal pc.ahead := by
  cases pc <;> rfl

theorem ahead_pumpRoom (s : StdinSys) : s.pumpRoom.ahead = s.ahead.room readerAhead := by
  have hw : s.file.pumpWaits = true ↔
      readerAhead ≤ s.ahead.len ∧ s.ahead.ended = false ∧ s.ahead.released = false := by
    simp [ReaderFile.pumpWaits, ahead]
  unfold pumpRoom Ahead.room
  by_cases h : s.file.pumpWaits = true
  · rw [if_pos h, if_pos (hw.mp h)]
    rfl
  · rw [if_neg h, if_neg (mt hw.mpr h)]
    simp [ahead, PumpPc.ahead]

/-- **Every step of standard input is a step of reading ahead.** -/
theorem ahead_step {a : StdinAct} {o : StdinAns} (h : stdinStep s a = some (s', o)) :
    Ahead.Step readerAhead readerChunk s.ahead s'.ahead := by
  cases a with
  | read len =>
    cases h
    by_cases hb : 0 < s.file.buf.length
    · have hd : s.ahead.Step readerAhead readerChunk _ := Ahead.Step.drain len
      simpa [ahead, ReaderFile.read, hb, ahead_signal] using hd
    · refine Ahead.Step.of_eq ?_
      cases he : s.file.eof <;> simp [ahead, ReaderFile.read, hb, he]
  | changed =>
    cases h
    exact .wait
  | hostRead chunk err =>
    obtain ⟨⟨hpc, hk⟩, he⟩ := ite_none_right_eq_some.mp h
    cases he
    exact .hostRead _ _ (by rw [ahead, hpc]; rfl) hk
  | append =>
    cases hpc : s.pump <;> simp only [stdinStep, hpc, reduceCtorEq] at h
    cases h
    rename_i chunk err
    rw [ahead_pumpRoom]
    have ha : s.ahead.pc = .full chunk.length err := by rw [ahead, hpc]; rfl
    have hst := @Ahead.Step.append readerAhead readerChunk _ _ _ ha
    simpa [ahead, ReaderFile.append, hpc] using hst
  | pumpWake =>
    obtain ⟨hpc, he⟩ := ite_none_right_eq_some.mp h
    cases he
    rw [ahead_pumpRoom]
    exact .wake (by rw [ahead, hpc]; rfl)
  | pumpNotify =>
    cases hpc : s.pump <;> simp only [stdinStep, hpc, reduceCtorEq] at h
    cases h
    rename_i stop
    have ha : s.ahead.pc = .notifying stop := by rw [ahead, hpc]; rfl
    have hst := @Ahead.Step.loopNotify readerAhead readerChunk _ _ ha
    cases stop <;> exact hst

end StdinSys

theorem stdin_readsAhead :
    ReadsAhead readerAhead readerChunk pumpSystem stdinFile StdinSys.ahead where
  lt := by decide
  init := by
    rintro f rfl
    exact ⟨fun k err h => (by cases h), fun h => (by cases h)⟩
  step f e f' o _ hs := StdinSys.ahead_step hs
  channel f f' o c hs hc := by
    cases hs
    cases hc
    exact f.n.wait_lt
  again f len f' o hs hag := by
    cases hs
    have hret : errno (f.file.read len).2 = some .EAGAIN := hag
    by_cases hb : 0 < f.file.buf.length
    · simp [ReaderFile.read, hb, errno] at hret
    · cases he : f.file.eof with
      | true => simp [ReaderFile.read, hb, he, errno] at hret
      | false =>
        have hnil : f.file.buf = [] := by simpa using hb
        simp [StdinSys.ahead, ReaderFile.read, hnil, he]

/-! ### No wake-up is swallowed -/

/-- Processes that receive from a socket. -/
def sockIo : System (FileIo SockSys (ℕ × Bool)) (FileIoAct SockAct (ℕ × Bool))
    (FileIoAns SockAns) :=
  fileIo sockSystem sockFile

/-- Processes that read standard input. -/
def stdinIo : System (FileIo StdinSys ℕ) (FileIoAct StdinAct ℕ) (FileIoAns StdinAns) :=
  fileIo pumpSystem stdinFile

/-- **Read-ahead swallows no wake-up**, on a socket and on standard input: with a process parked and
something to read, the loop goes on to notify. -/
theorem read_ahead_wakes :
    (∀ s, sockIo.Reachable s →
      (∀ p op c, s.pc p = .parked op c → ¬ s.file.n.closed c →
        s.file.sock.rbuf ≠ [] ∨ s.file.sock.rerr ≠ none →
        s.file.reader ≠ .reading ∧ ∀ woken, s.file.reader ≠ .waiting woken) ∧
      ∀ woken, s.file.reader = .waiting woken → s.file.sock.rbuf.length < sockReadAhead →
        woken = true ∧ ∃ f stop, sockStep s.file .readWake = some (f, .done) ∧
          f.reader = .notifying stop) ∧
    ∀ s, stdinIo.Reachable s →
      (∀ p op c, s.pc p = .parked op c → ¬ s.file.n.closed c →
        s.file.file.buf ≠ [] ∨ s.file.file.eof = true →
        s.file.pump ≠ .reading ∧ ∀ woken, s.file.pump ≠ .waiting woken) ∧
      ∀ woken, s.file.pump = .waiting woken → s.file.file.buf.length < readerAhead →
        woken = true ∧ ∃ f stop, stdinStep s.file .pumpWake = some (f, .done) ∧
          f.pump = .notifying stop := by
  refine ⟨fun s h => ⟨fun p op c hp hc hd => ?_, fun woken hw hl => ?_⟩,
    fun s h => ⟨fun p op c hp hc hd => ?_, fun woken hw hl => ?_⟩⟩
  · have hd' : s.file.ahead.len ≠ 0 ∨ s.file.ahead.ended = true :=
      hd.imp (fun hb => mt List.length_eq_zero_iff.mp hb) isSome_iff_ne_none.mpr
    obtain ⟨stop, hpc⟩ := sock_readsAhead.parked h hp hc hd'
    refine ⟨fun hr => ?_, fun woken hr => ?_⟩ <;>
      simp [ahead, hr, ReaderPc.ahead] at hpc
  · have hpc : s.file.ahead.pc = .waiting woken := by rw [ahead, hw]; rfl
    obtain rfl := sock_readsAhead.room h hpc hl
    refine ⟨rfl, s.file.readRoom, s.file.sock.rerr ≠ none || s.file.sock.released, if_pos hw, ?_⟩
    rw [readRoom, if_neg (by simp [readerWaits, hl])]
  · have hd' : s.file.ahead.len ≠ 0 ∨ s.file.ahead.ended = true :=
      hd.imp (fun hb => mt List.length_eq_zero_iff.mp hb) id
    obtain ⟨stop, hpc⟩ := stdin_readsAhead.parked h hp hc hd'
    refine ⟨fun hr => ?_, fun woken hr => ?_⟩ <;>
      simp [StdinSys.ahead, hr, PumpPc.ahead] at hpc
  · have hpc : s.file.ahead.pc = .waiting woken := by rw [StdinSys.ahead, hw]; rfl
    obtain rfl := stdin_readsAhead.room h hpc hl
    refine ⟨rfl, s.file.pumpRoom, s.file.file.eof, if_pos hw, ?_⟩
    rw [StdinSys.pumpRoom, if_neg (by simp [ReaderFile.pumpWaits, hl])]

/-- A byte has been appended for a parked reader, on a socket and on standard input. -/
theorem read_ahead_wakes_byte :
    (∃ s, sockIo.Reachable s ∧ s.pc 0 = .parked (4, false) 0 ∧ s.file.sock.rbuf = [7] ∧
      s.file.reader ≠ .reading) ∧
    ∃ s, stdinIo.Reachable s ∧ s.pc 0 = .parked 4 0 ∧ s.file.file.buf = [7] ∧
      s.file.pump ≠ .reading := by
  have h1 := @System.reachable_of_exec _ _ _ sockIo ⟨.start true, fun _ => .idle⟩ _
    [.file .startConn, .io 0 (4, false), .changed 0, .op 0 false, .file (.connRead [7] none),
      .file .append] _ ⟨⟨true, rfl⟩, fun _ => rfl⟩ rfl
  have h2 := @System.reachable_of_exec _ _ _ stdinIo ⟨.start, fun _ => .idle⟩ _
    [.io 0 4, .changed 0, .op 0 false, .file (.hostRead [7] false), .file .append] _
    ⟨rfl, fun _ => rfl⟩ rfl
  have hw1 := (read_ahead_wakes.1 _ h1).1 0 (4, false) 0 rfl (by decide) (.inl (by decide))
  have hw2 := (read_ahead_wakes.2 _ h2).1 0 4 0 rfl (by decide) (.inl (by decide))
  exact ⟨⟨_, h1, rfl, rfl, hw1.1⟩, _, h2, rfl, rfl, hw2.1⟩

end PgZero.Kernel
