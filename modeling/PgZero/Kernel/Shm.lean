import PgZero.Kernel.FdTable

/-!
# Shared memory

A segment is anonymous (`create`, `attach`, `remove`) or has a name (`open`, `unlink`) and is sized
and mapped through a descriptor (`truncate`, `mapFd`). It counts its attachments and its open files,
and is freed once it has been removed or unlinked and both are zero. `mmap` may fail at any call; it
then changes nothing.
-/

set_option autoImplicit false

namespace PgZero.Kernel

open Function Lib

/-! ### Linear memory -/

/-- The size of a page. -/
def PageSize : ℕ := 65536

/-- Rounded up to whole pages. -/
def alignUp (n : ℕ) : ℕ := (n + PageSize - 1) / PageSize * PageSize

/-- The memory of a process: what is reserved and committed, and the segment that each page shows
(`none`: private memory). -/
structure Memory where
  reserved : ℕ
  committed : ℕ
  pages : ℕ → Option ℕ

/-- Why a call on a memory fails. Go panics when it indexes the buffer at its length. -/
inductive MemErr
  | err
  | panic
  deriving DecidableEq, Repr

namespace Memory

/-- `Reallocate`; `ok` says whether `mprotect` succeeds. -/
def reallocate (m : Memory) (size : ℕ) (ok : Bool) : Option Memory :=
  if m.reserved < size then none
  else if m.committed < alignUp size then
    if ok then some { m with committed := alignUp size } else none
  else some m

/-- The pages of `[addr, addr + length)` show `x`. -/
def setPages (m : Memory) (addr length : ℕ) (x : Option ℕ) : Memory :=
  { m with pages := fun i =>
      if addr ≤ i * PageSize ∧ i * PageSize < addr + length then x else m.pages i }

/-- `MapRange` of segment `o`, of the given size; `ok` says whether `mmap` succeeds. -/
def mapRange (m : Memory) (addr o size length : ℕ) (ok : Bool) : Except MemErr Memory :=
  if addr % PageSize ≠ 0 ∨ length % PageSize ≠ 0 ∨ length = 0 then .error .err
  else if size < length then .error .err
  else if m.committed < addr + length then .error .err
  else if m.reserved ≤ addr then .error .panic
  else if ok then .ok (m.setPages addr length (some o)) else .error .err

/-- `Unmap`: private memory again. -/
def unmap (m : Memory) (addr length : ℕ) (ok : Bool) : Except MemErr Memory :=
  if addr % PageSize ≠ 0 ∨ length % PageSize ≠ 0 then .error .err
  else if m.committed < addr + length then .error .err
  else if m.reserved ≤ addr then .error .panic
  else if ok then .ok (m.setPages addr length none) else .error .err

end Memory

/-! ### The table of segments -/

/-- A segment, anonymous or named. -/
structure Segment where
  id : BitVec 32
  name : List UInt8
  /-- the size of its memory, `none` until a named object is sized -/
  seg : Option ℕ
  attached : ℤ
  fds : ℤ
  removed : Bool
  deriving DecidableEq, Repr

/-- A segment mapped into a process. -/
structure Attachment where
  addr : ℕ
  len : ℕ
  s : ℕ
  deriving DecidableEq, Repr

/-- The segments made so far and the two maps to them. `frees` counts how often each was freed. -/
structure ShmTable where
  objs : ℕ → Segment
  nobjs : ℕ
  segs : BitVec 32 → Option ℕ
  names : List UInt8 → Option ℕ
  next : BitVec 32
  frees : ℕ → ℕ

/-- What a process has of shared memory. `releasing` are the open files whose last descriptor its
current call has closed, and whose `release` has still to run. -/
structure ShmProc where
  mem : Memory
  shmAttached : List Attachment
  releasing : List ℕ
  detached : Bool

/-- `open` may make the object. -/
def O_CREAT : BitVec 32 := 4096
/-- The object must be new. -/
def O_EXCL : BitVec 32 := 16384

namespace ShmTable

/-- The empty table. -/
def init : ShmTable :=
  ⟨fun _ => ⟨0, [], none, 0, 0, false⟩, 0, fun _ => none, fun _ => none, 1, fun _ => 0⟩

/-- The segment `o` changes. -/
def setObj (t : ShmTable) (o : ℕ) (x : Segment) : ShmTable :=
  { t with objs := update t.objs o x }

/-- The new segment is number `t.nobjs`. -/
def newSegment (t : ShmTable) (name : List UInt8) (seg : Option ℕ) : ShmTable :=
  { t with
    objs := update t.objs t.nobjs ⟨t.next, name, seg, 0, 0, false⟩
    nobjs := t.nobjs + 1
    segs := update t.segs t.next (some t.nobjs)
    next := t.next + 1 }

/-- `maybeFree`: a segment that is removed and unused. -/
def maybeFree (t : ShmTable) (o : ℕ) : ShmTable :=
  let s := t.objs o
  if s.removed = true ∧ s.attached = 0 ∧ s.fds = 0 then
    { t.setObj o { s with seg := none } with
      segs := update t.segs s.id none
      frees := update t.frees o (t.frees o + 1) }
  else t

/-- `ok` says whether `NewSegment` succeeds. -/
def create (t : ShmTable) (size : BitVec 32) (ok : Bool) : ShmTable × ℤ :=
  if size = 0 then (t, -Errno.EINVAL.code)
  else if !ok then (t, -Errno.ENOMEM.code)
  else (t.newSegment [] (some (alignUp size.toNat)), t.next.toInt)

/-- `size`. -/
def size (t : ShmTable) (id : BitVec 32) : ℤ :=
  match t.segs id with
  | none => -Errno.ENOENT.code
  | some o =>
    match (t.objs o).removed, (t.objs o).seg with
    | false, some size => (BitVec.ofNat 32 size).toInt
    | _, _ => -Errno.ENOENT.code

/-- One attachment of segment `o` is forgotten. -/
def detach (t : ShmTable) (o : ℕ) : ShmTable :=
  (t.setObj o { t.objs o with attached := (t.objs o).attached - 1 }).maybeFree o

/-- `shmFile.release` -/
def release (t : ShmTable) (o : ℕ) : ShmTable :=
  (t.setObj o { t.objs o with fds := (t.objs o).fds - 1 }).maybeFree o

/-- The attachment lies within `[addr, addr + length)`. -/
def within (addr length : ℕ) (a : Attachment) : Bool :=
  addr ≤ a.addr && a.addr + a.len ≤ addr + length

/-- The attachments in a range are forgotten. -/
def dropAttachments (t : ShmTable) (p : ShmProc) (addr length : ℕ) : ShmTable × ShmProc :=
  (((p.shmAttached.filter (within addr length)).map Attachment.s).foldl detach t,
    { p with shmAttached := p.shmAttached.filter fun a => !within addr length a })

/-- A segment of the given size is mapped; the caller has checked that it has memory. -/
def mapLocked (t : ShmTable) (p : ShmProc) (o size addr length : ℕ) (ok : Bool) :
    Except MemErr (ShmTable × ShmProc) :=
  match p.mem.mapRange addr o size length ok with
  | .error e => .error e
  | .ok mem =>
    -- a new mapping over an old one replaces it
    let (t', p') := t.dropAttachments { p with mem } addr length
    .ok (t'.setObj o { t'.objs o with attached := (t'.objs o).attached + 1 },
      { p' with shmAttached := p'.shmAttached ++ [⟨addr, length, o⟩] })

/-- `remove`: the segment is freed once it is not attached. -/
def remove (t : ShmTable) (id : BitVec 32) : ShmTable × ℤ :=
  match t.segs id with
  | none => (t, -Errno.ENOENT.code)
  | some o =>
    if (t.objs o).removed then (t, -Errno.ENOENT.code)
    else ((t.setObj o { t.objs o with removed := true }).maybeFree o, 0)

/-- `unlink`: the name is forgotten. -/
def unlink (t : ShmTable) (name : List UInt8) : ShmTable × ℤ :=
  match t.names name with
  | none => (t, -Errno.ENOENT.code)
  | some o =>
    ((({ t with names := update t.names name none } : ShmTable).setObj o
      { t.objs o with removed := true }).maybeFree o, 0)

/-- The segment that `open` gives a descriptor for. -/
def lookupName (t : ShmTable) (name : List UInt8) (flags : BitVec 32) :
    Except Errno (ShmTable × ℕ) :=
  match t.names name with
  | some o => if flags &&& O_CREAT ≠ 0 ∧ flags &&& O_EXCL ≠ 0 then .error .EEXIST else .ok (t, o)
  | none =>
    if flags &&& O_CREAT = 0 then .error .ENOENT
    else
      let t' := t.newSegment name none
      .ok ({ t' with names := update t'.names name (some t.nobjs) }, t.nobjs)

/-- `truncate`: the size is set once. -/
def truncate (t : ShmTable) (o : ℕ) (size : BitVec 32) (ok : Bool) : ShmTable × ℤ :=
  match (t.objs o).seg with
  | some n => if size.toNat ≤ n then (t, 0) else (t, -Errno.EINVAL.code)
  | none =>
    if size = 0 then (t, 0)
    else if !ok then (t, -Errno.ENOMEM.code)
    else (t.setObj o { t.objs o with seg := some (alignUp size.toNat) }, 0)

/-- The size of an object. -/
def fdSize (t : ShmTable) (o : ℕ) : ℤ :=
  match (t.objs o).seg with
  | none => 0
  | some n => (BitVec.ofNat 32 n).toInt

end ShmTable

/-! ### Processes -/

/-- A shared memory object. -/
def FileRef.isShm : FileRef → Bool
  | .shmFile _ => true
  | _ => false

/-- The table, the processes and their descriptors; `returned` are the ids that `create` returned. -/
structure ShmState where
  t : ShmTable
  fd : FdState
  procs : ℕ → ShmProc
  returned : BitVec 32 → Bool

/-- A call of a running process. A name is what the guest's memory holds at its address, if that is
in range; `ok` says whether the host call that it makes succeeds. -/
inductive ShmCall
  | create (size : BitVec 32) (ok : Bool)
  | size (id : BitVec 32)
  | attach (id addr : BitVec 32) (ok : Bool)
  | remove (id : BitVec 32)
  | open (name : Option (List UInt8)) (flags : BitVec 32)
  | unlink (name : Option (List UInt8))
  | truncate (fd : ℤ) (size : BitVec 32) (ok : Bool)
  | fdSize (fd : ℤ)
  | mapFd (fd : ℤ) (addr n : BitVec 32) (ok : Bool)
  | unmap (addr n : BitVec 32) (ok : Bool)
  /-- the guest grows its memory -/
  | grow (size : ℕ) (ok : Bool)
  deriving DecidableEq, Repr

/-- The steps of the processes. -/
inductive ShmAct
  | call (p : ℕ) (c : ShmCall)
  | fd (c : FdCall)
  /-- `release` of the next open file that the process has let go -/
  | release (p : ℕ)
  /-- the end of a process that has exited -/
  | detachAll (p : ℕ)

/-- What a step returns. -/
inductive ShmAns
  | ret (n : ℤ)
  | panic
  deriving DecidableEq, Repr

namespace ShmState

/-- No process; the memory of process `p` will reserve `reserved p` bytes. -/
def start (reserved : ℕ → ℕ) : ShmState :=
  ⟨.init, .empty, fun p => ⟨⟨reserved p, 0, fun _ => none⟩, [], [], false⟩, fun _ => false⟩

/-- The process `p` changes. -/
def setProc (s : ShmState) (p : ℕ) (x : ShmProc) : ShmState :=
  { s with procs := update s.procs p x }

/-- The segment behind a descriptor. -/
def shmFD (s : ShmState) (p : ℕ) (fd : ℤ) : Except Errno ℕ :=
  match s.fd.get p fd with
  | none => .error .EBADF
  | some f =>
    match (s.fd.files f).f with
    | .shmFile o => .ok o
    | _ => .error .EINVAL

/-- The result of `mapLocked` for process `p`. -/
def mapped (s : ShmState) (p : ℕ) : Except MemErr (ShmTable × ShmProc) → ShmState × ShmAns
  | .ok (t, x) => ({ s.setProc p x with t }, .ret 0)
  | .error .err => (s, .ret (-Errno.EINVAL.code))
  | .error .panic => (s, .panic)

/-- The result of a section that touches only the table. -/
def locked (s : ShmState) (r : ShmTable × ℤ) : ShmState × ShmAns := ({ s with t := r.1 }, .ret r.2)

/-- The call fails. -/
def fail (s : ShmState) (e : Errno) : ShmState × ShmAns := (s, .ret (-e.code))

/-- `create`: a new segment with an id. -/
def create (s : ShmState) (size : BitVec 32) (ok : Bool) : ShmState × ShmAns :=
  let r := s.t.create size ok
  ({ s with
    t := r.1
    returned := if size ≠ 0 ∧ ok then update s.returned s.t.next true else s.returned },
    .ret r.2)

/-- `attach`: the segment with an id is mapped. -/
def attach (s : ShmState) (p : ℕ) (id addr : BitVec 32) (ok : Bool) : ShmState × ShmAns :=
  match s.t.segs id with
  | none => s.fail .ENOENT
  | some o =>
    match (s.t.objs o).removed, (s.t.objs o).seg with
    | false, some size => s.mapped p (s.t.mapLocked (s.procs p) o size addr.toNat size ok)
    | _, _ => s.fail .ENOENT

/-- `open`: a descriptor of a named segment. -/
def openShm (s : ShmState) (p : ℕ) (name : List UInt8) (flags : BitVec 32) : ShmState × ShmAns :=
  match s.t.lookupName name flags with
  | .error e => s.fail e
  | .ok (t, o) =>
    let r := (s.fd.newOpenFile (.shmFile o) false).add p s.fd.nfiles false
    ({ s with t := t.setObj o { t.objs o with fds := (t.objs o).fds + 1 }, fd := r.1 }, .ret r.2)

/-- `mapFd`: the segment of a descriptor is mapped. -/
def mapFd (s : ShmState) (p : ℕ) (fd : ℤ) (addr n : BitVec 32) (ok : Bool) : ShmState × ShmAns :=
  match s.shmFD p fd with
  | .error e => s.fail e
  | .ok o =>
    match (s.t.objs o).seg with
    | none => s.fail .EINVAL
    | some size => s.mapped p (s.t.mapLocked (s.procs p) o size addr.toNat n.toNat ok)

/-- `unmap`. -/
def unmap (s : ShmState) (p : ℕ) (addr n : BitVec 32) (ok : Bool) : ShmState × ShmAns :=
  s.mapped p (match (s.procs p).mem.unmap addr.toNat n.toNat ok with
    | .error e => .error e
    | .ok mem => .ok (s.t.dropAttachments { s.procs p with mem } addr.toNat n.toNat))

/-- The guest's memory grows. -/
def grow (s : ShmState) (p size : ℕ) (ok : Bool) : ShmState × ShmAns :=
  match (s.procs p).mem.reallocate size ok with
  | none => (s, .ret (-1))
  | some mem => (s.setProc p { s.procs p with mem }, .ret 0)

/-- The segments that a process removes are ones `create` gave an id for. -/
def call (s : ShmState) (p : ℕ) : ShmCall → Option (ShmState × ShmAns)
  | .create size ok => some (s.create size ok)
  | .size id => some (s, .ret (s.t.size id))
  | .attach id addr ok => some (s.attach p id addr ok)
  | .remove id => if s.returned id then some (s.locked (s.t.remove id)) else none
  | .open name flags => some (match name with
    | none => s.fail .EFAULT
    | some name => s.openShm p name flags)
  | .unlink name => some (match name with
    | none => s.fail .EFAULT
    | some name => s.locked (s.t.unlink name))
  | .truncate fd size ok => some (match s.shmFD p fd with
    | .error e => s.fail e
    | .ok o => s.locked (s.t.truncate o size ok))
  | .fdSize fd => some (match s.shmFD p fd with
    | .error e => s.fail e
    | .ok o => (s, .ret (s.t.fdSize o)))
  | .mapFd fd addr n ok => some (s.mapFd p fd addr n ok)
  | .unmap addr n ok => some (s.unmap p addr n ok)
  | .grow size ok => some (s.grow p size ok)

/-- The shared memory objects whose last descriptor, in the table of `p`, is gone from `fd` to `fd'`.
`closeAll` comes to them in the order of these descriptors. -/
def letGo (fd fd' : FdState) (p : ℕ) : List ℕ :=
  (FdState.sortedFiles (fd.tables p)).dedup.filter fun f =>
    (fd.files f).f.isShm && decide ((fd.files f).releases < (fd'.files f).releases)

/-- A process makes a call when it runs and is done with the one before. -/
def idle (s : ShmState) (p : ℕ) : Bool := s.fd.running p && (s.procs p).releasing.isEmpty

/-- One step of a process. -/
def step (s : ShmState) : ShmAct → Option (ShmState × ShmAns)
  | .call p c => if s.idle p then s.call p c else none
  | .fd c =>
    if c.proc.all s.idle then
      (s.fd.call c).map fun (fd, n) =>
        ({ s with
          fd
          procs := fun p => if c.proc = some p then
            { s.procs p with releasing := letGo s.fd fd p } else s.procs p }, .ret n)
    else none
  | .release p =>
    match (s.procs p).releasing with
    | f :: fs =>
      match (s.fd.files f).f with
      | .shmFile o =>
        some ({ s.setProc p { s.procs p with releasing := fs } with t := s.t.release o }, .ret 0)
      | _ => none
    | [] => none
  | .detachAll p =>
    if p < s.fd.nprocs ∧ s.fd.running p = false ∧ (s.procs p).releasing = [] ∧
        (s.procs p).detached = false then
      some ({ s.setProc p { s.procs p with shmAttached := [], detached := true } with
        t := ((s.procs p).shmAttached.map Attachment.s).foldl ShmTable.detach s.t }, .ret 0)
    else none

end ShmState

/-- Processes that share memory. -/
def shmSystem : System ShmState ShmAct ShmAns where
  init s := ∃ reserved, s = .start reserved
  step := ShmState.step

end PgZero.Kernel
