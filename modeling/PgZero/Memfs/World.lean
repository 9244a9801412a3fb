import PgZero.Lib.System
import PgZero.Memfs.Namespace

/-!
# Filesystems and handles

A world has any number of filesystems and open files over one heap. Filesystems are created empty or
as clones, filled from tar archives, and worked on through the handles.
-/

set_option autoImplicit false

namespace PgZero.Memfs

open Lib GoPath

/-! ### Clones -/

/-- A copy of a node without its entries. It has data of its own, as every data slice has one owner;
`spare` is the capacity that `append` leaves behind so many bytes, and allocation succeeds. -/
def Node.copy (n : Node) (parent : Option NodeId) (spare : ℕ → List UInt8) : Node :=
  { mode := n.mode
    data := if n.data.len = 0 then .nil else .ofList n.data.toList (spare n.data.len)
    modTime := n.modTime
    entries := ∅
    parent := if n.mode.isDir then parent else none }

/-- The heap and the copies made so far. -/
structure Copying where
  heap : Heap
  copies : NodeId → Option NodeId

/-- The start of a call of `clone` on a node without a copy. -/
def Copying.add (s : Copying) (n : NodeId) (parent : Option NodeId) (spare : ℕ → List UInt8) :
    Copying :=
  ⟨s.heap.alloc ((s.heap.node n).copy parent spare),
    Function.update s.copies n (some s.heap.next)⟩

/-- `c.entries[name] = clone(child, c)` for one entry. -/
def Copying.cloneEntry (clone : Copying → NodeId → Option NodeId → Option (Copying × NodeId))
    (c : NodeId) (t : Copying) (e : (_ : Str) × NodeId) : Option Copying :=
  (clone t e.2 (some c)).map fun r => { r.1 with heap := r.1.heap.setEntry c e.1 r.2 }

/-- `clone` of `Clone`, to a depth of at most `depth`. -/
def Copying.clone (spare : ℕ → List UInt8) :
    ℕ → Copying → NodeId → Option NodeId → Option (Copying × NodeId)
  | 0, _, _, _ => none
  | depth + 1, s, n, parent =>
    match s.copies n with
    | some c => some (s, c)
    | none =>
      let c := s.heap.next
      let entries := if s.heap.isDir n then (s.heap.node n).entries.entries else []
      (entries.foldlM (Copying.cloneEntry (Copying.clone spare depth) c)
        (s.add n parent spare)).map fun t => (t, c)

/-- `Clone` -/
def FS.clone (fs : FS) (h : Heap) (spare : ℕ → List UInt8) : Option (Heap × FS) :=
  (Copying.clone spare (h.next + 1) ⟨h, fun _ => none⟩ fs.root none).map fun r =>
    (r.1.heap.setParent r.2 r.2, ⟨r.2⟩)

/-! ### Tar archives -/

/-- The type of a member. -/
inductive TarType
  | typeDir
  | typeReg
  | other
  deriving DecidableEq, Repr

/-- A header with the pieces of its body that `io.Copy` passes on, and whether reading the body
fails after them. -/
structure TarEntry where
  name : Str
  typeflag : TarType
  mode : FileMode
  modTime : ℤ
  body : List (List UInt8)
  bodyErr : Bool

/-- The errors of `AddTar`. -/
inductive TarErr
  /-- an error of the archive's reader -/
  | reader
  | unsupported (name : Str)
  | io (e : IoErr)
  | fault (f : Fault)
  deriving DecidableEq, Repr

/-- `errors.Is(err, fs.ErrExist)` -/
def Fault.isExist : Fault → Bool
  | .err ⟨_, _, .sys e⟩ => e.isExist
  | _ => false

/-- The loop of `mkdirAll`, with the path so far. -/
def FS.mkdirLoop (fs : FS) (perm : FileMode) (now : ℤ) :
    Heap → Str → List Str → Heap × Except Fault Unit
  | h, _, [] => (h, .ok ())
  | h, cur, p :: ps =>
    let r := fs.rootFile.mkdirAt h (join cur p) perm now
    match r.2 with
    | .ok _ => fs.mkdirLoop perm now r.1 (join cur p) ps
    | .error e =>
      if e.isExist then fs.mkdirLoop perm now r.1 (join cur p) ps else (r.1, .error e)

/-- `MkdirAll`. -/
def FS.mkdirAll (fs : FS) (h : Heap) (name : Str) (perm : FileMode) (now : ℤ) :
    Heap × Except Fault Unit :=
  fs.mkdirLoop perm now h [] (split name)

/-- `io.Copy` to an open file. -/
def Heap.copyBody (now : ℤ) : Heap → File → List (List UInt8) → Heap × Option TarErr
  | h, _, [] => (h, none)
  | h, f, b :: bs =>
    match f.write (h.node f.node) b now with
    | none => (h, some (.fault .panic))
    | some r =>
      let h' := h.modify f.node fun _ => r.1
      match r.2.2.2 with
      | some e => (h', some (.io e))
      | none => h'.copyBody now r.2.1 bs

/-- `O_CREAT|O_TRUNC|O_WRONLY` -/
def createFlags : Flags := ⟨1, true, false, true, false⟩

/-- The path of an entry in the filesystem. -/
def TarEntry.target (e : TarEntry) : Str :=
  trimEnd (clean (trimStart e.name [46, 47])) [47]

/-- A regular file of an archive, whose directory exists. -/
def FS.addFile (fs : FS) (h : Heap) (e : TarEntry) (now : ℤ) : Heap × Option TarErr :=
  let r := fs.rootFile.openAt h e.target createFlags e.mode now
  match r.2 with
  | .error f => (r.1, some (.fault f))
  | .ok f =>
    let c := r.1.copyBody now f e.body
    match c.2 with
    | some err => (c.1, some err)
    | none =>
      if e.bodyErr then (c.1, some .reader)
      else (c.1.modify f.node fun n => { n with modTime := e.modTime }, none)

/-- One turn of the loop of `AddTar`. -/
def FS.addEntry (fs : FS) (h : Heap) (e : TarEntry) (now : ℤ) : Heap × Option TarErr :=
  if e.target = dot ∨ e.target = [] then (h, none)
  else
    match e.typeflag with
    | .typeDir =>
      let r := fs.mkdirAll h e.target e.mode now
      (r.1, match r.2 with | .ok _ => none | .error f => some (.fault f))
    | .typeReg =>
      if dir e.target ≠ dot then
        let r := fs.mkdirAll h (dir e.target) 0o700 now
        match r.2 with
        | .ok _ => fs.addFile r.1 e now
        | .error f => (r.1, some (.fault f))
      else fs.addFile h e now
    | .other => (h, some (.unsupported e.name))

/-- `AddTar` of an archive that ends, or breaks off with an error of its reader. -/
def FS.addTar (fs : FS) (now : ℤ) (broken : Bool) : Heap → List TarEntry → Heap × Option TarErr
  | h, [] => (h, if broken then some .reader else none)
  | h, e :: es =>
    let r := fs.addEntry h e now
    match r.2 with
    | some err => (r.1, some err)
    | none => fs.addTar now broken r.1 es

/-! ### Worlds -/

/-- Filesystems and open files. -/
structure World where
  heap : Heap
  fss : List FS
  files : List File

/-- Filesystems and handles are given by their numbers. -/
inductive Call
  | new (now : ℤ)
  | clone (k : ℕ) (spare : ℕ → List UInt8)
  | addTar (k : ℕ) (entries : List TarEntry) (broken : Bool) (now : ℤ)
  | openPath (k : ℕ) (name : Str) (now : ℤ)
  | openAt (i : ℕ) (name : Str) (flag : Flags) (perm : FileMode) (now : ℤ)
  | mkdirAt (i : ℕ) (name : Str) (perm : FileMode) (now : ℤ)
  | rmdirAt (i : ℕ) (name : Str) (now : ℤ)
  | unlinkAt (i : ℕ) (name : Str) (now : ℤ)
  | renameAt (i : ℕ) (oldName : Str) (newDir : Option ℕ) (newName : Str) (now : ℤ)
  | linkAt (i : ℕ) (oldName : Str) (newDir : Option ℕ) (newName : Str) (now : ℤ)
  | readAt (i len : ℕ) (off : ℤ)
  | read (i len : ℕ)
  | writeAt (i : ℕ) (b : List UInt8) (off now : ℤ)
  | write (i : ℕ) (b : List UInt8) (now : ℤ)
  | seek (i : ℕ) (offset whence : ℤ)
  | truncate (i : ℕ) (size now : ℤ)
  | stat (i : ℕ)
  | statAt (i : ℕ) (name : Str)
  | readDir (i : ℕ) (count : ℤ)
  | chtimes (i : ℕ) (mtime : ℤ)
  | chtimesAt (i : ℕ) (name : Str) (mtime : ℤ)

/-- What a call returns. -/
inductive Ans
  | done
  | opened
  | data (bs : List UInt8) (err : Option IoErr)
  | wrote (n : ℕ) (err : Option IoErr)
  | pos (p : ℤ)
  | info (i : FileInfo)
  | dir (entries : List FileInfo) (err : Option IoErr)
  | fault (f : Fault)
  | tar (e : TarErr)
  deriving DecidableEq, Repr

namespace World

/-- No filesystem yet. -/
def empty : World := ⟨⟨fun _ => ⟨0, .nil, 0, ∅, none⟩, 0⟩, [], []⟩

/-- The end of a call that returns a handle. -/
def addFile (w : World) (r : Heap × Except Fault File) : World × Ans :=
  match r.2 with
  | .ok f => ({ w with heap := r.1, files := w.files ++ [f] }, .opened)
  | .error e => ({ w with heap := r.1 }, .fault e)

/-- The end of a call that returns nothing. -/
def result (w : World) (r : Heap × Except Fault Unit) : World × Ans :=
  ({ w with heap := r.1 }, match r.2 with | .ok _ => .done | .error e => .fault e)

/-- The directory argument of `RenameAt` and `LinkAt`: `none` is another implementation's file. -/
def otherFile (w : World) : Option ℕ → Option (Option File)
  | none => some none
  | some j => w.files[j]?.map some

/-- A node changes. -/
def setNode (w : World) (i : NodeId) (n : Node) : World :=
  { w with heap := w.heap.modify i fun _ => n }

/-- A handle changes. -/
def setFile (w : World) (i : ℕ) (f : File) : World := { w with files := w.files.set i f }

/-- The node of a handle. -/
def nodeOf (w : World) (f : File) : Node := w.heap.node f.node

/-- One call on a filesystem or on a handle. -/
def call (w : World) : Call → Option (World × Ans)
  | .new now =>
    let r := FS.new w.heap now
    some ({ w with heap := r.1, fss := w.fss ++ [r.2] }, .done)
  | .clone k spare =>
    w.fss[k]?.map fun fs =>
      match fs.clone w.heap spare with
      | some r => ({ w with heap := r.1, fss := w.fss ++ [r.2] }, .done)
      | none => (w, .fault .endless)
  | .addTar k entries broken now =>
    w.fss[k]?.map fun fs =>
      let r := fs.addTar now broken w.heap entries
      ({ w with heap := r.1 }, match r.2 with | none => .done | some e => .tar e)
  | .openPath k name now => w.fss[k]?.map fun fs => w.addFile (fs.openPath w.heap name now)
  | .openAt i name flag perm now =>
    w.files[i]?.map fun f => w.addFile (f.openAt w.heap name flag perm now)
  | .mkdirAt i name perm now => w.files[i]?.map fun f => w.result (f.mkdirAt w.heap name perm now)
  | .rmdirAt i name now => w.files[i]?.map fun f => w.result (f.rmdirAt w.heap name now)
  | .unlinkAt i name now => w.files[i]?.map fun f => w.result (f.unlinkAt w.heap name now)
  | .renameAt i oldName newDir newName now => do
    let f ← w.files[i]?
    let nd ← w.otherFile newDir
    return w.result (f.renameAt w.heap oldName nd newName now)
  | .linkAt i oldName newDir newName now => do
    let f ← w.files[i]?
    let nd ← w.otherFile newDir
    return w.result (f.linkAt w.heap oldName nd newName now)
  | .readAt i len off =>
    w.files[i]?.map fun f =>
      let r := f.readAt (w.nodeOf f) len off
      (w, .data r.1 r.2)
  | .read i len =>
    w.files[i]?.map fun f =>
      let r := f.read (w.nodeOf f) len
      (w.setFile i r.1, .data r.2.1 r.2.2)
  | .writeAt i b off now =>
    w.files[i]?.map fun f =>
      match f.writeAt (w.nodeOf f) b off now with
      | none => (w, .fault .panic)
      | some r => (w.setNode f.node r.1, .wrote r.2.1 r.2.2)
  | .write i b now =>
    w.files[i]?.map fun f =>
      match f.write (w.nodeOf f) b now with
      | none => (w, .fault .panic)
      | some r => ((w.setNode f.node r.1).setFile i r.2.1, .wrote r.2.2.1 r.2.2.2)
  | .seek i offset whence =>
    w.files[i]?.map fun f =>
      let r := f.seek (w.nodeOf f) offset whence
      (w.setFile i r.1, match r.2 with | .ok p => .pos p | .error e => .fault (.err e))
  | .truncate i size now =>
    w.files[i]?.map fun f =>
      let r := f.truncate (w.nodeOf f) size now
      (w.setNode f.node r.1, match r.2 with | none => .done | some e => .fault (.err e))
  | .stat i => w.files[i]?.map fun f => (w, .info (f.stat w.heap))
  | .statAt i name =>
    w.files[i]?.map fun f =>
      (w, match f.statAt w.heap name with | .ok info => .info info | .error e => .fault e)
  | .readDir i count =>
    w.files[i]?.map fun f =>
      let r := f.readDir w.heap count
      (w.setFile i r.1, match r.2 with | some d => .dir d.1 d.2 | none => .fault .panic)
  | .chtimes i mtime =>
    w.files[i]?.map fun f => ({ w with heap := f.chtimes w.heap mtime }, .done)
  | .chtimesAt i name mtime => w.files[i]?.map fun f => w.result (f.chtimesAt w.heap name mtime)

end World

/-- Any calls, one after the other. -/
def worldSystem : System World Call Ans where
  init w := w = .empty
  step := World.call

end PgZero.Memfs
