import Mathlib.Data.UInt
import PgZero.Lib.System
import PgZero.Lib.Word
import PgZero.Memfs.Node

/-!
# File content

The calls on an open file that read or change its node. A truncated slice keeps its array, so the
bytes cut off stay behind the end of the slice until an extension clears them.
-/

set_option autoImplicit false

namespace PgZero.Memfs

open Lib

/-- What `Read`, `Write` and their variants return besides a count. -/
inductive IoErr
  | eof
  | path (e : PathError)
  deriving DecidableEq, Repr

/-- The `PathError` of a call. -/
def ioErr (op : String) (name : Str) (e : SysErr) : IoErr := .path ⟨op, name, .sys e⟩

/-- Extend `data` to `size`, zero-filling, with amortized reallocation, which is taken to succeed. -/
def grow (data : Slice UInt8) (size : ℕ) : Slice UInt8 :=
  if h : size ≤ data.cap then (data.reslice size h).clearFrom data.len
  else
    let c := max (size : ℤ) (wrap 64 (2 * data.cap))
    (Slice.make size c.toNat (by omega)).copyAt 0 data.toList

namespace File

/-- Read at `off` into a buffer of `len` bytes. -/
def readAt (n : Node) (f : File) (len : ℕ) (off : ℤ) : List UInt8 × Option IoErr :=
  if n.mode.isDir then ([], some (ioErr "read" f.name .EISDIR))
  else if off < 0 then ([], some (ioErr "read" f.name .EINVAL))
  else if (n.data.len : ℤ) ≤ off then ([], some .eof)
  else
    let bs := (n.data.toList.drop off.toNat).take len
    (bs, if bs.length < len then some .eof else none)

/-- `Read`, from the offset on. -/
def read (n : Node) (f : File) (len : ℕ) : File × List UInt8 × Option IoErr :=
  let r := f.readAt n len f.offset
  ({ f with offset := wrap 64 (f.offset + r.1.length) }, r.1,
    if r.2 = some .eof ∧ 0 < r.1.length then none else r.2)

/-- Write at `off`; `none` is a slice bound out of range. -/
def writeAt (n : Node) (f : File) (b : List UInt8) (off now : ℤ) :
    Option (Node × ℕ × Option IoErr) :=
  if n.mode.isDir then some (n, 0, some (ioErr "write" f.name .EISDIR))
  else if !f.writable then some (n, 0, some (ioErr "write" f.name .EBADF))
  else if off < 0 then some (n, 0, some (ioErr "write" f.name .EINVAL))
  else
    let stop := wrap 64 (off + b.length)
    let data := if (n.data.len : ℤ) < stop then grow n.data stop.toNat else n.data
    if (data.len : ℤ) < off then none
    else some ({ n with data := data.copyAt off.toNat b, modTime := now }, b.length, none)

/-- The offset at which `Write` writes. -/
def writePos (n : Node) (f : File) : ℤ := if f.flag.append then n.data.len else f.offset

/-- `Write`, at the offset or at the end. -/
def write (n : Node) (f : File) (b : List UInt8) (now : ℤ) :
    Option (Node × File × ℕ × Option IoErr) :=
  (f.writeAt n b (f.writePos n) now).map fun r =>
    (r.1, { f with offset := wrap 64 (f.writePos n + r.2.1) }, r.2)

/-- `Seek`. -/
def seek (n : Node) (f : File) (offset whence : ℤ) : File × Except PathError ℤ :=
  let target : Option ℤ :=
    if whence = 0 then some offset
    else if whence = 1 then some (wrap 64 (offset + f.offset))
    else if whence = 2 then some (wrap 64 (offset + n.data.len))
    else none
  match target with
  | none => (f, .error ⟨"seek", f.name, .sys .EINVAL⟩)
  | some p =>
    if p < 0 then (f, .error ⟨"seek", f.name, .sys .EINVAL⟩) else ({ f with offset := p }, .ok p)

/-- `Truncate`: cut, or filled up with zeros. -/
def truncate (n : Node) (f : File) (size now : ℤ) : Node × Option PathError :=
  if n.mode.isDir then (n, some ⟨"truncate", f.name, .sys .EISDIR⟩)
  else if size < 0 then (n, some ⟨"truncate", f.name, .sys .EINVAL⟩)
  else if h : size.toNat ≤ n.data.len then
    ({ n with data := n.data.reslice size.toNat (h.trans n.data.le), modTime := now }, none)
  else ({ n with data := grow n.data size.toNat, modTime := now }, none)

/-- `OpenAt` with its new handle `f` of the node it has found at `name`. -/
def openNode (n : Node) (f : File) (name : Str) (now : ℤ) : Node × Except PathError File :=
  if n.mode.isDir then
    if f.writable || f.flag.trunc then (n, .error ⟨"open", name, .sys .EISDIR⟩) else (n, .ok f)
  else if f.flag.trunc && f.writable then
    ({ n with data := n.data.reslice 0 (Nat.zero_le _), modTime := now }, .ok f)
  else (n, .ok f)

end File

/-! ### One file -/

/-- A node with its handles. -/
structure OneFile where
  fs : FS
  id : NodeId
  node : Node
  files : List File

/-- A call on one file. -/
inductive FileCall
  | openAt (name : Str) (flag : Flags) (now : ℤ)
  | readAt (i len : ℕ) (off : ℤ)
  | read (i len : ℕ)
  | writeAt (i : ℕ) (b : List UInt8) (off now : ℤ)
  | write (i : ℕ) (b : List UInt8) (now : ℤ)
  | seek (i : ℕ) (offset whence : ℤ)
  | truncate (i : ℕ) (size now : ℤ)
  deriving DecidableEq, Repr

/-- What a call returns. -/
inductive FileAns
  | opened
  | data (bs : List UInt8) (err : Option IoErr)
  | wrote (n : ℕ) (err : Option IoErr)
  | pos (p : ℤ)
  | done
  | failed (e : PathError)
  | panic
  deriving DecidableEq, Repr

/-- The answer of `Seek`. -/
def FileAns.ofSeek : Except PathError ℤ → FileAns
  | .ok p => .pos p
  | .error e => .failed e

/-- The answer of `Truncate`. -/
def FileAns.ofErr : Option PathError → FileAns
  | none => .done
  | some e => .failed e

/-- An `int64` -/
def IsInt64 (x : ℤ) : Prop := -2 ^ 63 ≤ x ∧ x < 2 ^ 63

instance (x : ℤ) : Decidable (IsInt64 x) := inferInstanceAs (Decidable (_ ∧ _))

/-- The offsets and sizes of a call. -/
def FileCall.inRange : FileCall → Prop
  | .readAt _ _ off => IsInt64 off
  | .writeAt _ _ off _ => IsInt64 off
  | .seek _ offset _ => IsInt64 offset
  | .truncate _ size _ => IsInt64 size
  | _ => True

instance (c : FileCall) : Decidable c.inRange := by
  cases c <;> unfold FileCall.inRange <;> infer_instance

namespace OneFile

/-- One call on the file. -/
def call (s : OneFile) : FileCall → Option (OneFile × FileAns)
  | .openAt name flag now =>
    let r := File.openNode s.node ⟨s.fs, s.id, GoPath.base name, flag, 0, 0⟩ name now
    match r.2 with
    | .ok f => some ({ s with node := r.1, files := s.files ++ [f] }, .opened)
    | .error e => some ({ s with node := r.1 }, .failed e)
  | .readAt i len off =>
    s.files[i]?.map fun f => (s, .data (f.readAt s.node len off).1 (f.readAt s.node len off).2)
  | .read i len =>
    s.files[i]?.map fun f =>
      let r := f.read s.node len
      ({ s with files := s.files.set i r.1 }, .data r.2.1 r.2.2)
  | .writeAt i b off now =>
    s.files[i]?.map fun f =>
      match f.writeAt s.node b off now with
      | none => (s, .panic)
      | some r => ({ s with node := r.1 }, .wrote r.2.1 r.2.2)
  | .write i b now =>
    s.files[i]?.map fun f =>
      match f.write s.node b now with
      | none => (s, .panic)
      | some r => ({ s with node := r.1, files := s.files.set i r.2.1 }, .wrote r.2.2.1 r.2.2.2)
  | .seek i offset whence =>
    s.files[i]?.map fun f =>
      let r := f.seek s.node offset whence
      ({ s with files := s.files.set i r.1 }, .ofSeek r.2)
  | .truncate i size now =>
    s.files[i]?.map fun f =>
      let r := f.truncate s.node size now
      ({ s with node := r.1 }, .ofErr r.2)

end OneFile

/-- The runs of a regular file, of any content and without handles at first. -/
def fileSystem : System OneFile FileCall FileAns where
  init s := s.node.mode.isDir = false ∧ s.node.data.len < 2 ^ 63 ∧ s.files = []
  step s c := if c.inRange then s.call c else none

end PgZero.Memfs
