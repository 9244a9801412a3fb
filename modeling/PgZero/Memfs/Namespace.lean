import PgZero.Memfs.Content

/-!
# The namespace

The calls that open, create, remove, rename and link entries. Each of them runs under the
filesystem's namespace lock, so a run is a sequence of whole calls.
-/

set_option autoImplicit false

namespace PgZero.Memfs

open Lib

/-- `New` -/
def FS.new (h : Heap) (now : ℤ) : Heap × FS :=
  (h.alloc ⟨modeDir ||| 0o700, .nil, now, ∅, some h.next⟩, ⟨h.next⟩)

/-- The end of `OpenAt`, with the node found. -/
def Heap.openFound (h : Heap) (fs : FS) (n : NodeId) (name : Str) (flag : Flags) (now : ℤ) :
    Heap × Except Fault File :=
  let r := File.openNode (h.node n) ⟨fs, n, GoPath.base name, flag, 0, 0⟩ name now
  (h.modify n fun _ => r.1, match r.2 with | .ok f => .ok f | .error e => .error (.err e))

/-- How the loop of `RenameAt` ends: at the node that moves, at the root, with a nil pointer, or
not within the bound. -/
inductive SubtreeEnd
  | inside
  | outside
  | nil
  | endless
  deriving DecidableEq, Repr

/-- The loop of `RenameAt`: `d` climbs to the root and looks for `n`. -/
def Heap.subtreeLoop (h : Heap) (n root : NodeId) : ℕ → Option NodeId → SubtreeEnd
  | 0, _ => .endless
  | turns + 1, d =>
    if d = some n then .inside
    else if d = some root then .outside
    else
      match d with
      | none => .nil
      | some d => h.subtreeLoop n root turns (h.parent d)

/-- What `RenameAt` makes of an existing target: it is the same node, it is in the way, or it may
be replaced. -/
def Heap.checkTarget (h : Heap) (n : NodeId) : Option NodeId → Except SysErr Bool
  | none => .ok false
  | some target =>
    if target = n then .ok true
    else if h.isDir n && !h.isDir target then .error .ENOTDIR
    else if !h.isDir n && h.isDir target then .error .EISDIR
    else if h.isDir target && 0 < (h.node target).entries.keys.length then .error .ENOTEMPTY
    else .ok false

/-- The end of `RenameAt`: the entry moves. -/
def Heap.moveEntry (h : Heap) (odir : NodeId) (obase : Str) (ndir : NodeId) (nbase : Str)
    (n : NodeId) (now : ℤ) : Heap :=
  (((h.delEntry odir obase).setEntry ndir nbase n).touch odir now).touch ndir now

namespace File

/-- `OpenAt`: a handle, of a file that is found or created. -/
def openAt (h : Heap) (f : File) (name : Str) (flag : Flags) (perm : FileMode) (now : ℤ) :
    Heap × Except Fault File :=
  if flag.creat then
    match h.resolve f.fs.root f.node name true with
    | .error e => (h, .error (e.fault "open" name))
    | .ok (dir, base) =>
      match h.entry dir base with
      | some existing =>
        if flag.excl then (h, .error (pathErr "open" name .EEXIST))
        else h.openFound f.fs existing name flag now
      | none =>
        (((h.newFile (perm.perm ||| 0o600) now).setEntry dir base h.next).touch dir now).openFound
          f.fs h.next name flag now
  else
    match h.resolve f.fs.root f.node name false with
    | .error e => (h, .error (e.fault "open" name))
    | .ok (n, _) => h.openFound f.fs n name flag now

/-- `MkdirAt`: a new directory. -/
def mkdirAt (h : Heap) (f : File) (name : Str) (perm : FileMode) (now : ℤ) :
    Heap × Except Fault Unit :=
  match h.resolve f.fs.root f.node name true with
  | .error e => (h, .error (e.fault "mkdir" name))
  | .ok (dir, base) =>
    match h.entry dir base with
    | some _ => (h, .error (pathErr "mkdir" name .EEXIST))
    | none =>
      (((h.newDir (modeDir ||| perm.perm ||| 0o700) dir now).setEntry dir base h.next).touch dir
        now, .ok ())

/-- `RmdirAt`: an empty directory is removed. -/
def rmdirAt (h : Heap) (f : File) (name : Str) (now : ℤ) : Heap × Except Fault Unit :=
  match h.resolve f.fs.root f.node name true with
  | .error e => (h, .error (e.fault "rmdir" name))
  | .ok (dir, base) =>
    match h.entry dir base with
    | none => (h, .error (pathErr "rmdir" name .ENOENT))
    | some n =>
      if !h.isDir n then (h, .error (pathErr "rmdir" name .ENOTDIR))
      else if 0 < (h.node n).entries.keys.length then (h, .error (pathErr "rmdir" name .ENOTEMPTY))
      else ((h.delEntry dir base).touch dir now, .ok ())

/-- `UnlinkAt`: a name of a file is removed. -/
def unlinkAt (h : Heap) (f : File) (name : Str) (now : ℤ) : Heap × Except Fault Unit :=
  match h.resolve f.fs.root f.node name true with
  | .error e => (h, .error (e.fault "unlink" name))
  | .ok (dir, base) =>
    match h.entry dir base with
    | none => (h, .error (pathErr "unlink" name .ENOENT))
    | some n =>
      if h.isDir n then (h, .error (pathErr "unlink" name .EISDIR))
      else ((h.delEntry dir base).touch dir now, .ok ())

/-- `newDir` as a directory of this filesystem; `none` is a file of another implementation. -/
def otherDir (h : Heap) (f : File) : Option File → Except SysErr NodeId
  | none => .error .EXDEV
  | some nd =>
    if nd.fs ≠ f.fs then .error .EXDEV
    else if !h.isDir nd.node then .error .ENOTDIR
    else .ok nd.node

/-- `RenameAt`: an entry moves, in place of what had the new name. -/
def renameAt (h : Heap) (f : File) (oldName : Str) (newDir : Option File) (newName : Str)
    (now : ℤ) : Heap × Except Fault Unit :=
  match f.otherDir h newDir with
  | .error e => (h, .error (pathErr "rename" oldName e))
  | .ok nd =>
  match h.resolve f.fs.root f.node oldName true with
  | .error e => (h, .error (e.fault "rename" oldName))
  | .ok (odir, obase) =>
  match h.resolve f.fs.root nd newName true with
  | .error e => (h, .error (e.fault "rename" newName))
  | .ok (ndir, nbase) =>
  match h.entry odir obase with
  | none => (h, .error (pathErr "rename" oldName .ENOENT))
  | some n =>
  match h.checkTarget n (h.entry ndir nbase) with
  | .error e => (h, .error (pathErr "rename" newName e))
  | .ok true => (h, .ok ())
  | .ok false =>
    if h.isDir n then
      match h.subtreeLoop n f.fs.root (h.next + 1) (some ndir) with
      | .inside => (h, .error (pathErr "rename" newName .EINVAL))
      | .nil => (h, .error .panic)
      | .endless => (h, .error .endless)
      | .outside => ((h.setParent n ndir).moveEntry odir obase ndir nbase n now, .ok ())
    else (h.moveEntry odir obase ndir nbase n now, .ok ())

/-- `LinkAt`: one more name for a file. -/
def linkAt (h : Heap) (f : File) (oldName : Str) (newDir : Option File) (newName : Str)
    (now : ℤ) : Heap × Except Fault Unit :=
  match f.otherDir h newDir with
  | .error e => (h, .error (pathErr "link" oldName e))
  | .ok nd =>
  match h.resolve f.fs.root f.node oldName false with
  | .error e => (h, .error (e.fault "link" oldName))
  | .ok (n, _) =>
  if h.isDir n then (h, .error (pathErr "link" oldName .EPERM))
  else
  match h.resolve f.fs.root nd newName true with
  | .error e => (h, .error (e.fault "link" newName))
  | .ok (ndir, nbase) =>
  match h.entry ndir nbase with
  | some _ => (h, .error (pathErr "link" newName .EEXIST))
  | none => ((h.setEntry ndir nbase n).touch ndir now, .ok ())

end File

/-! ### Metadata -/

/-- A snapshot of a node's metadata. -/
structure FileInfo where
  name : Str
  size : ℕ
  mode : FileMode
  modTime : ℤ
  deriving DecidableEq, Repr

/-- The info of a node. -/
def Node.info (n : Node) (name : Str) : FileInfo := ⟨name, n.data.len, n.mode, n.modTime⟩

namespace File

/-- `Stat` of a handle. -/
def stat (h : Heap) (f : File) : FileInfo := (h.node f.node).info f.name

/-- `StatAt`: the info of what a path leads to. -/
def statAt (h : Heap) (f : File) (name : Str) : Except Fault FileInfo :=
  match h.resolve f.fs.root f.node name false with
  | .error e => .error (e.fault "stat" name)
  | .ok (n, _) => .ok ((h.node n).info (GoPath.base name))

/-- `Chtimes`. -/
def chtimes (h : Heap) (f : File) (mtime : ℤ) : Heap := h.touch f.node mtime

/-- `ChtimesAt`. -/
def chtimesAt (h : Heap) (f : File) (name : Str) (mtime : ℤ) : Heap × Except Fault Unit :=
  match h.resolve f.fs.root f.node name false with
  | .error e => (h, .error (e.fault "chtimes" name))
  | .ok (n, _) => (h.touch n mtime, .ok ())

/-- The entries from the cursor on, in name order; `none` is a slice with a negative capacity, when
`f.dirPos+count` overflows. -/
def readDir (h : Heap) (f : File) (count : ℤ) : File × Option (List FileInfo × Option IoErr) :=
  if !h.isDir f.node then (f, some ([], some (ioErr "readdir" f.name .ENOTDIR)))
  else
    let names := (h.node f.node).entries.keys.mergeSort fun a b => decide (a ≤ b)
    if names.length ≤ f.dirPos then (f, some ([], if 0 < count then some .eof else none))
    else
      let stop := wrap 64 (f.dirPos + count)
      let stop := if 0 < count ∧ stop < names.length then stop else names.length
      if stop < f.dirPos then (f, none)
      else
        let out := ((names.take stop.toNat).drop f.dirPos).filterMap fun k =>
          (h.entry f.node k).map fun n => (h.node n).info k
        ({ f with dirPos := stop.toNat }, some (out, none))

end File

/-- The handle on which `Open` and `AddTar` work. -/
def FS.rootFile (fs : FS) : File := ⟨fs, fs.root, GoPath.dot, O_RDONLY, 0, 0⟩

/-- `Open` -/
def FS.openPath (fs : FS) (h : Heap) (name : Str) (now : ℤ) : Heap × Except Fault File :=
  if !GoPath.validPath name then (h, .error (.err ⟨"open", name, .errInvalid⟩))
  else fs.rootFile.openAt h name O_RDONLY 0 now

end PgZero.Memfs
