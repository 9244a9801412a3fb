import PgZero.Abi
import PgZero.Lib.System

/-!
# Pipes

The data of a pipe that its mutex guards, and the operations of its two ends. Each operation runs
in one critical section, so a run of a pipe is a sequence of whole calls, by whichever readers and
writers.
-/

set_option autoImplicit false

namespace PgZero.Kernel

open Lib List

/-- The bytes a pipe holds at most. -/
def pipeCapacity : ℕ := 64 * 1024

/-- PIPE_BUF: writes up to this size are never split. -/
def pipeAtomic : ℕ := 4096

/-- An in-memory pipe shared by its read and write ends. -/
structure Pipe where
  buf : List UInt8
  readers : ℤ
  writers : ℤ
  deriving DecidableEq, Repr

/-- `newPipe`. -/
def newPipe : Pipe := ⟨[], 1, 1⟩

/-- What a critical section on a pipe does: the data it leaves, whether it calls `notify` before
it unlocks, and what it returns. -/
structure Section (α : Type) where
  pipe : Pipe
  notifies : Bool
  ret : Except Errno α

/-- Read into a buffer of `len` bytes. -/
def PipeReader.read (p : Pipe) (len : ℕ) : Section (List UInt8) :=
  if len = 0 then ⟨p, false, .ok []⟩
  else if 0 < p.buf.length then ⟨{ p with buf := p.buf.drop len }, true, .ok (p.buf.take len)⟩
  else if p.writers = 0 then ⟨p, false, .ok []⟩
  else ⟨p, false, .error .EAGAIN⟩

/-- The read end takes no write. -/
def PipeReader.write (p : Pipe) (_ : List UInt8) : Section ℕ := ⟨p, false, .error .EBADF⟩

/-- `poll` of the read end. -/
def PipeReader.poll (p : Pipe) : Events :=
  (if 0 < p.buf.length then POLLIN else 0) ||| (if p.writers = 0 then POLLHUP else 0)

/-- Drop the read end. The notification follows outside the lock. -/
def PipeReader.release (p : Pipe) : Pipe := { p with readers := p.readers - 1 }

/-- The write end takes no read. -/
def PipeWriter.read (p : Pipe) (_ : ℕ) : Section (List UInt8) := ⟨p, false, .error .EBADF⟩

/-- `write`: a small write is not split. -/
def PipeWriter.write (p : Pipe) (b : List UInt8) : Section ℕ :=
  if p.readers = 0 then ⟨p, false, .error .EPIPE⟩
  else if b.length = 0 then ⟨p, false, .ok 0⟩
  else
    -- `space` is a signed difference in the source
    let space : ℤ := pipeCapacity - p.buf.length
    if space ≤ 0 ∨ (b.length ≤ pipeAtomic ∧ space < b.length) then ⟨p, false, .error .EAGAIN⟩
    else
      let n := min b.length space.toNat
      ⟨{ p with buf := p.buf ++ b.take n }, true, .ok n⟩

/-- `poll` of the write end. -/
def PipeWriter.poll (p : Pipe) : Events :=
  if p.readers = 0 then POLLERR
  else if (pipeAtomic : ℤ) ≤ pipeCapacity - p.buf.length then POLLOUT
  else 0

/-- Drop the write end. The notification follows outside the lock. -/
def PipeWriter.release (p : Pipe) : Pipe := { p with writers := p.writers - 1 }

/-! ### What one call does -/

/-- **A read** takes bytes from the front, or meets an empty pipe and changes nothing. -/
theorem PipeReader.read_cases (p : Pipe) (len : ℕ) :
    (len = 0 ∧ read p len = ⟨p, false, .ok []⟩) ∨
    (0 < len ∧ p.buf ≠ [] ∧
      read p len = ⟨{ p with buf := p.buf.drop len }, true, .ok (p.buf.take len)⟩) ∨
    (0 < len ∧ p.buf = [] ∧ p.writers = 0 ∧ read p len = ⟨p, false, .ok []⟩) ∨
    (0 < len ∧ p.buf = [] ∧ p.writers ≠ 0 ∧ read p len = ⟨p, false, .error .EAGAIN⟩) := by
  unfold read
  split_ifs with h1 h2 h3
  · exact Or.inl ⟨h1, rfl⟩
  · exact Or.inr (Or.inl ⟨by omega, length_pos_iff.mp h2, rfl⟩)
  · exact Or.inr (Or.inr (Or.inl ⟨by omega, by simpa using h2, h3, rfl⟩))
  · exact Or.inr (Or.inr (Or.inr ⟨by omega, by simpa using h2, h3, rfl⟩))

/-- The space left in a pipe. -/
def Pipe.space (p : Pipe) : ℕ := pipeCapacity - p.buf.length

/-- **A write** is refused without a reader, accepted up to the space left, or would block. -/
theorem PipeWriter.write_cases (p : Pipe) (b : List UInt8) :
    (p.readers = 0 ∧ write p b = ⟨p, false, .error .EPIPE⟩) ∨
    (p.readers ≠ 0 ∧ b = [] ∧ write p b = ⟨p, false, .ok 0⟩) ∨
    (p.readers ≠ 0 ∧ b ≠ [] ∧ (p.space = 0 ∨ (b.length ≤ pipeAtomic ∧ p.space < b.length)) ∧
      write p b = ⟨p, false, .error .EAGAIN⟩) ∨
    (p.readers ≠ 0 ∧ b ≠ [] ∧ 0 < p.space ∧ (b.length ≤ pipeAtomic → b.length ≤ p.space) ∧
      write p b = ⟨{ p with buf := p.buf ++ b.take (min b.length p.space) }, true,
        .ok (min b.length p.space)⟩) := by
  have hs : ((pipeCapacity : ℤ) - p.buf.length).toNat = p.space := by unfold Pipe.space; omega
  unfold write
  dsimp only
  split_ifs with h1 h2 h3
  · exact Or.inl ⟨h1, rfl⟩
  · exact Or.inr (Or.inl ⟨h1, length_eq_zero_iff.mp h2, rfl⟩)
  · exact Or.inr (Or.inr (Or.inl ⟨h1, fun h => h2 (by simp [h]), by omega, rfl⟩))
  · refine Or.inr (Or.inr (Or.inr ⟨h1, fun h => h2 (by simp [h]), by omega, by omega, ?_⟩))
    rw [hs]

theorem PipeReader.read_users (p : Pipe) (len : ℕ) :
    (read p len).pipe.readers = p.readers ∧ (read p len).pipe.writers = p.writers := by
  rcases read_cases p len with ⟨-, h⟩ | ⟨-, -, h⟩ | ⟨-, -, -, h⟩ | ⟨-, -, -, h⟩ <;> rw [h] <;>
    exact ⟨rfl, rfl⟩

theorem PipeWriter.write_users (p : Pipe) (b : List UInt8) :
    (write p b).pipe.readers = p.readers ∧ (write p b).pipe.writers = p.writers := by
  rcases write_cases p b with ⟨-, h⟩ | ⟨-, -, h⟩ | ⟨-, -, -, h⟩ | ⟨-, -, -, -, h⟩ <;> rw [h] <;>
    exact ⟨rfl, rfl⟩

/-! ### Runs -/

/-- The calls on a pipe, by any reader or writer. -/
inductive PipeCall
  | read (len : ℕ)
  | write (b : List UInt8)
  | releaseReader
  | releaseWriter
  deriving DecidableEq, Repr

/-- What a call returns. -/
inductive PipeAns
  | got (bs : List UInt8)
  | wrote (n : ℕ)
  | err (e : Errno)
  | released
  deriving DecidableEq, Repr

/-- A call on a pipe. -/
def pipeStep (p : Pipe) : PipeCall → Pipe × PipeAns
  | .read len =>
    let s := PipeReader.read p len
    (s.pipe, match s.ret with | .ok bs => .got bs | .error e => .err e)
  | .write b =>
    let s := PipeWriter.write p b
    (s.pipe, match s.ret with | .ok n => .wrote n | .error e => .err e)
  | .releaseReader => (PipeReader.release p, .released)
  | .releaseWriter => (PipeWriter.release p, .released)

/-- The runs of a new pipe. -/
def pipeSystem : System Pipe PipeCall PipeAns where
  init p := p = newPipe
  step p c := some (pipeStep p c)

theorem pipeSystem_step {p p' : Pipe} {c : PipeCall} {a : PipeAns} :
    pipeSystem.step p c = some (p', a) ↔ p' = (pipeStep p c).1 ∧ a = (pipeStep p c).2 := by
  simp [pipeSystem, Prod.ext_iff, eq_comm]

/-- The bytes a call returned to its reader. -/
def delivered : PipeCall × PipeAns → List UInt8
  | (.read _, .got bs) => bs
  | _ => []

/-- The bytes of a call that the pipe accepted. -/
def accepted : PipeCall × PipeAns → List UInt8
  | (.write b, .wrote n) => b.take n
  | _ => []

/-- **Conservation in one call.** -/
theorem pipeStep_conserves (p : Pipe) (c : PipeCall) :
    delivered (c, (pipeStep p c).2) ++ (pipeStep p c).1.buf =
      p.buf ++ accepted (c, (pipeStep p c).2) := by
  cases c with
  | read len =>
    rcases PipeReader.read_cases p len with
      ⟨-, h⟩ | ⟨-, -, h⟩ | ⟨-, -, -, h⟩ | ⟨-, -, -, h⟩ <;>
      simp [pipeStep, h, delivered, accepted]
  | write b =>
    rcases PipeWriter.write_cases p b with
      ⟨-, h⟩ | ⟨-, -, h⟩ | ⟨-, -, -, h⟩ | ⟨-, -, -, -, h⟩ <;>
      simp [pipeStep, h, delivered, accepted]
  | releaseReader => simp [pipeStep, delivered, accepted, PipeReader.release]
  | releaseWriter => simp [pipeStep, delivered, accepted, PipeWriter.release]

theorem pipeStep_length_le {p : Pipe} (hp : p.buf.length ≤ pipeCapacity) (c : PipeCall) :
    (pipeStep p c).1.buf.length ≤ pipeCapacity := by
  cases c with
  | read len =>
    rcases PipeReader.read_cases p len with
      ⟨-, h⟩ | ⟨-, -, h⟩ | ⟨-, -, -, h⟩ | ⟨-, -, -, h⟩ <;>
      simp only [pipeStep, h, length_drop] <;> omega
  | write b =>
    rcases PipeWriter.write_cases p b with
      ⟨-, h⟩ | ⟨-, -, h⟩ | ⟨-, -, -, h⟩ | ⟨-, -, hs, -, h⟩ <;>
      simp only [pipeStep, h, length_append, length_take]
    any_goals exact hp
    unfold Pipe.space at hs ⊢
    omega
  | releaseReader => exact hp
  | releaseWriter => exact hp

theorem pipeStep_err {p : Pipe} {c : PipeCall} {e : Errno} (h : (pipeStep p c).2 = .err e) :
    (pipeStep p c).1 = p := by
  cases c with
  | read len =>
    rcases PipeReader.read_cases p len with
      ⟨-, h'⟩ | ⟨-, -, h'⟩ | ⟨-, -, -, h'⟩ | ⟨-, -, -, h'⟩ <;>
      simp [pipeStep, h'] at h ⊢
  | write b =>
    rcases PipeWriter.write_cases p b with
      ⟨-, h'⟩ | ⟨-, -, h'⟩ | ⟨-, -, -, h'⟩ | ⟨-, -, -, -, h'⟩ <;>
      simp [pipeStep, h'] at h ⊢
  | releaseReader => cases h
  | releaseWriter => cases h

/-- A write of at most `pipeAtomic` bytes is appended whole, or refused. -/
theorem pipeStep_atomic (p : Pipe) {b : List UInt8} (hb : b.length ≤ pipeAtomic) :
    pipeStep p (.write b) = ({ p with buf := p.buf ++ b }, .wrote b.length) ∨
      ∃ e, pipeStep p (.write b) = (p, .err e) := by
  rcases PipeWriter.write_cases p b with
    ⟨-, h⟩ | ⟨-, rfl, h⟩ | ⟨-, -, -, h⟩ | ⟨-, -, -, hs, h⟩
  · exact Or.inr ⟨.EPIPE, by simp [pipeStep, h]⟩
  · exact Or.inl (by simp [pipeStep, h])
  · exact Or.inr ⟨.EAGAIN, by simp [pipeStep, h]⟩
  · have hm : min b.length p.space = b.length := min_eq_left (hs hb)
    exact Or.inl (by simp [pipeStep, h, hm])

theorem pipeStep_eof {p : Pipe} {len : ℕ} (hl : 0 < len)
    (h : (pipeStep p (.read len)).2 = .got []) : p.buf = [] ∧ p.writers = 0 := by
  rcases PipeReader.read_cases p len with
    ⟨h0, -⟩ | ⟨-, hb, h'⟩ | ⟨-, hb, hw, -⟩ | ⟨-, -, -, h'⟩
  · omega
  · simp only [pipeStep, h', PipeAns.got.injEq, take_eq_nil_iff] at h
    exact absurd h (by simp [hb]; omega)
  · exact ⟨hb, hw⟩
  · simp [pipeStep, h'] at h

/-- **Pipe streams.** The bytes read and then the buffer are the accepted bytes in order; small
writes stay in one piece, and end of file comes last. -/
theorem pipe_stream {tr : List (PipeCall × PipeAns)} {p : Pipe}
    (h : pipeSystem.Run newPipe tr p) :
    (tr.map delivered).flatten ++ p.buf = (tr.map accepted).flatten ∧
    p.buf.length ≤ pipeCapacity ∧
    ∀ c p' a, pipeSystem.step p c = some (p', a) →
      (∀ b, c = .write b → b.length ≤ pipeAtomic →
        (p' = { p with buf := p.buf ++ b } ∧ a = .wrote b.length) ∨ (p' = p ∧ ∃ e, a = .err e)) ∧
      (∀ e, a = .err e → p' = p) ∧
      (∀ len, c = .read len → 0 < len → a = .got [] → p.buf = [] ∧ p.writers = 0) := by
  have hinv := h.history (P := fun tr p => (tr.map delivered).flatten ++ p.buf =
    (tr.map accepted).flatten ∧ p.buf.length ≤ pipeCapacity) ?_ ⟨rfl, by decide⟩
  · refine ⟨hinv.1, hinv.2, fun c p' a hs => ?_⟩
    obtain ⟨rfl, rfl⟩ := pipeSystem_step.mp hs
    refine ⟨?_, fun e => pipeStep_err, ?_⟩
    · rintro b rfl hb
      rcases pipeStep_atomic p hb with h' | ⟨e, h'⟩
      · exact Or.inl ⟨congrArg Prod.fst h', congrArg Prod.snd h'⟩
      · exact Or.inr ⟨congrArg Prod.fst h', e, congrArg Prod.snd h'⟩
    · rintro len rfl hl
      exact pipeStep_eof hl
  · rintro tr p c p' a ⟨h1, h2⟩ hs
    obtain ⟨rfl, rfl⟩ := pipeSystem_step.mp hs
    refine ⟨?_, pipeStep_length_le h2 c⟩
    simp only [map_append, flatten_append, map_cons, map_nil,
      flatten_cons, flatten_nil, append_nil]
    rw [append_assoc, pipeStep_conserves, ← append_assoc, h1]

/-- A run in which a read takes part of a write. -/
theorem pipe_stream_partial :
    pipeSystem.Run newPipe [(.write [1, 2, 3], .wrote 3), (.read 2, .got [1, 2])] ⟨[3], 1, 1⟩ ∧
      [1, 2] ++ (⟨[3], 1, 1⟩ : Pipe).buf = [1, 2, 3] := by
  have hr : pipeSystem.Run newPipe [(.write [1, 2, 3], .wrote 3), (.read 2, .got [1, 2])]
      ⟨[3], 1, 1⟩ := System.exec_run _ [.write [1, 2, 3], .read 2] rfl
  exact ⟨hr, (pipe_stream hr).1⟩

end PgZero.Kernel
