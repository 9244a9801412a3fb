import Mathlib.Data.List.Sort
import PgZero.Kernel.Pipe
import PgZero.Lib.Table

/-!
# Descriptor tables

Open files are shared by the descriptors that `dup` makes and that a spawned child inherits, and
are counted by `refs`. A process's table is touched by that process alone, so one host call is one
step; the tables of different processes meet in the open files and the pipes.
-/

set_option autoImplicit false

namespace PgZero.Kernel

open Function Lib

/-- What an open file refers to. -/
inductive FileRef
  | pipeReader (i : ℕ)
  | pipeWriter (i : ℕ)
  | readerFile
  | writerFile
  | nullFile
  /-- a shared memory object, by its segment -/
  | shmFile (s : ℕ)
  deriving DecidableEq, Repr

/-- An open file description. `releases` counts the calls of its file's `release`; `refs` is an
`atomic.Int32`, here an integer: `fd_words` bounds it, and the numbers of descriptors. -/
structure OpenFile where
  f : FileRef
  nonblock : Bool
  refs : ℤ
  releases : ℕ
  deriving DecidableEq, Repr

/-- A descriptor: the number of its open file, and whether a spawned child loses it. -/
structure FdEntry where
  of : ℕ
  cloexec : Bool
  deriving DecidableEq, Repr

/-- A table of descriptors. -/
abbrev FdTable := Table ℤ FdEntry

/-- The open files, pipes and processes made so far, and the tables of the processes. -/
structure FdState where
  files : ℕ → OpenFile
  nfiles : ℕ
  pipes : ℕ → Pipe
  npipes : ℕ
  tables : ℕ → FdTable
  running : ℕ → Bool
  nprocs : ℕ

namespace FdState

/-- No process yet. -/
def empty : FdState :=
  ⟨fun _ => ⟨.nullFile, false, 0, 0⟩, 0, fun _ => newPipe, 0, fun _ => ∅, fun _ => false, 0⟩

/-! ### Open files -/

/-- The open file `o` changes. -/
def setFile (s : FdState) (o : ℕ) (x : OpenFile) : FdState :=
  { s with files := update s.files o x }

/-- The pipe `i` changes. -/
def setPipe (s : FdState) (i : ℕ) (x : Pipe) : FdState :=
  { s with pipes := update s.pipes i x }

/-- The table of `p` changes. -/
def setTable (s : FdState) (p : ℕ) (t : FdTable) : FdState :=
  { s with tables := update s.tables p t }

/-- A new pipe; its ends are open files made later. -/
def addPipe (s : FdState) : FdState := { s.setPipe s.npipes newPipe with npipes := s.npipes + 1 }

/-- A new process with descriptor table `t`. -/
def addProc (s : FdState) (t : FdTable) : FdState :=
  { s.setTable s.nprocs t with
    running := update s.running s.nprocs true, nprocs := s.nprocs + 1 }

/-- `newOpenFile`. -/
def newOpenFile (s : FdState) (f : FileRef) (nonblock : Bool) : FdState :=
  { s.setFile s.nfiles ⟨f, nonblock, 0, 0⟩ with nfiles := s.nfiles + 1 }

/-- `ref`: one more reference. -/
def ref (s : FdState) (o : ℕ) : FdState :=
  s.setFile o { s.files o with refs := (s.files o).refs + 1 }

/-- `release` of the file behind an open file. -/
def release (s : FdState) (o : ℕ) : FdState :=
  let s' := s.setFile o { s.files o with releases := (s.files o).releases + 1 }
  match (s.files o).f with
  | .pipeReader i => s'.setPipe i (PipeReader.release (s.pipes i))
  | .pipeWriter i => s'.setPipe i (PipeWriter.release (s.pipes i))
  | _ => s'

/-- `unref`, with the `release` of the last reference. -/
def unref (s : FdState) (o : ℕ) : FdState :=
  let s' := s.setFile o { s.files o with refs := (s.files o).refs - 1 }
  if (s'.files o).refs = 0 then s'.release o else s'

/-! ### Tables -/

/-- Put `o` at `fd`, closing whatever was there. -/
def install (s : FdState) (p : ℕ) (fd : ℤ) (o : ℕ) (cloexec : Bool) : FdState :=
  let s' := (s.ref o).setTable p ((s.tables p).insert fd ⟨o, cloexec⟩)
  match (s.tables p).lookup fd with
  | some old => s'.unref old.of
  | none => s'

/-- The first number from `fd` on that is free in `t`, looking at `k` numbers. -/
def freeFrom (t : FdTable) : ℕ → ℤ → ℤ
  | 0, fd => fd
  | k + 1, fd => if (t.lookup fd).isSome then freeFrom t k (fd + 1) else fd

/-- The lowest free number `≥ FDBase`. -/
def freeFd (t : FdTable) : ℤ := freeFrom t t.entries.length FDBase

/-- `add`: the lowest free descriptor. -/
def add (s : FdState) (p : ℕ) (o : ℕ) (cloexec : Bool) : FdState × ℤ :=
  let fd := freeFd (s.tables p)
  ((s.ref o).setTable p ((s.tables p).insert fd ⟨o, cloexec⟩), fd)

/-- `get`: the open file of a descriptor. -/
def get (s : FdState) (p : ℕ) (fd : ℤ) : Option ℕ := ((s.tables p).lookup fd).map FdEntry.of

/-- `close`: the descriptor is free again. -/
def close (s : FdState) (p : ℕ) (fd : ℤ) : FdState × ℤ :=
  match (s.tables p).lookup fd with
  | none => (s, -Errno.EBADF.code)
  | some e => ((s.setTable p ((s.tables p).erase fd)).unref e.of, 0)

/-- The flag of a descriptor. -/
def setCloexec (s : FdState) (p : ℕ) (fd : ℤ) (cloexec : Bool) : FdState :=
  match (s.tables p).lookup fd with
  | none => s
  | some e => s.setTable p ((s.tables p).insert fd { e with cloexec })

/-- What a spawned child inherits of an entry. -/
def inherit (e : FdEntry) : Option FdEntry := if e.cloexec then none else some ⟨e.of, false⟩

/-- The open files of a table, in the order of the descriptors. -/
def sortedFiles (t : FdTable) : List ℕ :=
  (t.entries.insertionSort fun a b => a.1 ≤ b.1).map fun e => e.2.of

/-- The table a spawned child of `p` starts with, and the state with its references counted. -/
def cloneForExec (s : FdState) (p : ℕ) : FdState × FdTable :=
  let c := (s.tables p).select inherit
  ((c.entries.map fun e => e.2.of).foldl ref s, c)

/-- `closeAll`: every descriptor of a process. -/
def closeAll (s : FdState) (p : ℕ) : FdState :=
  (sortedFiles (s.tables p)).foldl unref (s.setTable p ∅)

/-! ### Host calls -/

/-- `validHostFD`: a standard stream, or one of the kernel. -/
def validHostFD (fd : ℤ) : Bool := (0 ≤ fd && fd ≤ 2) || FDBase ≤ fd

/-- `Start`: a process with no parent and the kernel's stdio. -/
def start (s : FdState) : FdState × ℤ :=
  let p := s.nprocs
  let s1 := s.addProc ∅
  let s2 := (s1.newOpenFile .readerFile false).install p 0 s1.nfiles false
  let s3 := (s2.newOpenFile .writerFile false).install p 1 s2.nfiles false
  let s4 := (s3.newOpenFile .writerFile false).install p 2 s3.nfiles false
  (s4, p)

/-- `Pipe`; `ok1` and `ok2` say whether the two descriptors can be stored in guest memory. -/
def pipe (s : FdState) (p : ℕ) (nonblock ok1 ok2 : Bool) : FdState × ℤ :=
  let i := s.npipes
  let s1 := s.addPipe
  let r := (s1.newOpenFile (.pipeReader i) nonblock).add p s1.nfiles false
  let w := (r.1.newOpenFile (.pipeWriter i) nonblock).add p r.1.nfiles false
  if !ok1 || !ok2 then (((w.1.close p r.2).1.close p w.2).1, -Errno.EFAULT.code) else (w.1, 0)

/-- `devnull`: a descriptor of `/dev/null`. -/
def devnull (s : FdState) (p : ℕ) : FdState × ℤ :=
  (s.newOpenFile .nullFile false).add p s.nfiles false

/-- `dup` and `dup2`. -/
def dup (s : FdState) (p : ℕ) (fd newFd : ℤ) : FdState × ℤ :=
  match s.get p fd with
  | none => (s, -Errno.EBADF.code)
  | some o =>
    if newFd < 0 then s.add p o false
    else if !validHostFD newFd then (s, -Errno.EBADF.code)
    else if newFd ≠ fd then (s.install p newFd o false, newFd)
    else (s, newFd)

/-- `Fcntl`; the commands are `F_GETFD`, `F_SETFD`, `F_GETFL`, `F_SETFL`, `F_DUPFD` and
`F_DUPFD_CLOEXEC`. -/
def fcntl (s : FdState) (p : ℕ) (fd : ℤ) (cmd arg : BitVec 32) : FdState × ℤ :=
  match s.get p fd with
  | none => (s, -Errno.EBADF.code)
  | some o =>
    if cmd = 1 then
      (s, if ((s.tables p).lookup fd).any FdEntry.cloexec then 1 else 0)
    else if cmd = 2 then (s.setCloexec p fd (arg &&& 1 ≠ 0), 0)
    else if cmd = 3 then (s, if (s.files o).nonblock then 4 else 0)
    else if cmd = 4 then (s.setFile o { s.files o with nonblock := arg &&& 4 ≠ 0 }, 0)
    else if cmd = 5 ∨ cmd = 6 then s.add p o (cmd = 6)
    else (s, -Errno.EINVAL.code)

/-- `spawn`: the child's number. -/
def spawn (s : FdState) (p : ℕ) : FdState × ℤ :=
  let (s', t) := s.cloneForExec p
  (s'.addProc t, s.nprocs)

/-- A process ends. -/
def exit (s : FdState) (p : ℕ) : FdState × ℤ :=
  ({ s.closeAll p with running := update s.running p false }, 0)

/-- The result of an operation, as the guest sees it. -/
def result {α : Type} (n : α → ℤ) : Except Errno α → ℤ
  | .ok a => n a
  | .error e => -e.code

/-- One attempt of `Read`. What stdio returns is up to the host, so it is not modelled here. -/
def read (s : FdState) (p : ℕ) (fd : ℤ) (len : ℕ) : Option (FdState × ℤ) :=
  match s.get p fd with
  | none => some (s, -Errno.EBADF.code)
  | some o =>
    match (s.files o).f with
    | .pipeReader i =>
      let r := PipeReader.read (s.pipes i) len
      some (s.setPipe i r.pipe, result (fun bs => bs.length) r.ret)
    | .pipeWriter i =>
      let r := PipeWriter.read (s.pipes i) len
      some (s.setPipe i r.pipe, result (fun bs => bs.length) r.ret)
    | .nullFile => some (s, 0)
    | .shmFile _ => some (s, -Errno.EINVAL.code)
    | .readerFile | .writerFile => none

/-- One attempt of `Write`. -/
def write (s : FdState) (p : ℕ) (fd : ℤ) (b : List UInt8) : Option (FdState × ℤ) :=
  match s.get p fd with
  | none => some (s, -Errno.EBADF.code)
  | some o =>
    match (s.files o).f with
    | .pipeReader i =>
      let r := PipeReader.write (s.pipes i) b
      some (s.setPipe i r.pipe, result (fun n => n) r.ret)
    | .pipeWriter i =>
      let r := PipeWriter.write (s.pipes i) b
      some (s.setPipe i r.pipe, result (fun n => n) r.ret)
    | .nullFile => some (s, b.length)
    | .shmFile _ => some (s, -Errno.EINVAL.code)
    | .readerFile | .writerFile => none

end FdState

theorem le_freeFrom (t : FdTable) (k : ℕ) (fd : ℤ) : fd ≤ FdState.freeFrom t k fd := by
  induction k generalizing fd with
  | zero => exact le_rfl
  | succ k ih =>
    rw [FdState.freeFrom]
    split
    · have := ih (fd + 1)
      omega
    · exact le_rfl

/-- The host calls of a process, and the start of a new one. -/
inductive FdCall
  | start
  | pipe (p : ℕ) (nonblock ok1 ok2 : Bool)
  | devnull (p : ℕ)
  | dup (p : ℕ) (fd newFd : ℤ)
  | fcntl (p : ℕ) (fd : ℤ) (cmd arg : BitVec 32)
  | close (p : ℕ) (fd : ℤ)
  | spawn (p : ℕ)
  | exit (p : ℕ)
  | read (p : ℕ) (fd : ℤ) (len : ℕ)
  | write (p : ℕ) (fd : ℤ) (b : List UInt8)

/-- The process that makes a call. -/
def FdCall.proc : FdCall → Option ℕ
  | .start => none
  | .pipe p _ _ _ | .devnull p | .dup p _ _ | .fcntl p _ _ _ | .close p _ | .spawn p | .exit p
  | .read p _ _ | .write p _ _ => some p

/-- A call of a process. -/
def FdState.call (s : FdState) : FdCall → Option (FdState × ℤ)
  | .start => some s.start
  | .pipe p nonblock ok1 ok2 => some (s.pipe p nonblock ok1 ok2)
  | .devnull p => some (s.devnull p)
  | .dup p fd newFd => some (s.dup p fd newFd)
  | .fcntl p fd cmd arg => some (s.fcntl p fd cmd arg)
  | .close p fd => some (s.close p fd)
  | .spawn p => some (s.spawn p)
  | .exit p => some (s.exit p)
  | .read p fd len => s.read p fd len
  | .write p fd b => s.write p fd b

/-- The runs of a kernel's processes. Only a running process makes calls. -/
def fdSystem : System FdState FdCall ℤ where
  init s := s = .empty
  step s c := if c.proc.all s.running then s.call c else none

end PgZero.Kernel
