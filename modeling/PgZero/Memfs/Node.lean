import PgZero.Lib.GoPath
import PgZero.Lib.Slice
import PgZero.Lib.Table

/-!
# Nodes

The nodes of all in-memory filesystems live in one heap. A directory has entries and a parent; a
regular file has neither, and its content is a slice of bytes.
-/

set_option autoImplicit false

namespace PgZero.Memfs

open Function Lib GoPath

/-- A pointer to a node. -/
abbrev NodeId := ℕ

/-- `fs.FileMode` -/
abbrev FileMode := BitVec 32

/-- `fs.ModeDir`. -/
def modeDir : FileMode := 1 <<< 31

/-- `IsDir`. -/
def FileMode.isDir (m : FileMode) : Bool := m &&& modeDir ≠ 0

/-- `Perm`. -/
def FileMode.perm (m : FileMode) : FileMode := m &&& 0o777

/-- The errnos of the host that the filesystem returns. -/
inductive SysErr
  | EPERM | ENOENT | EBADF | EEXIST | EXDEV | ENOTDIR | EISDIR | EINVAL | ENOTEMPTY
  deriving DecidableEq, Repr

/-- `errors.Is(err, fs.ErrExist)` -/
def SysErr.isExist (e : SysErr) : Bool := e = .EEXIST || e = .ENOTEMPTY

/-- What is inside a `*fs.PathError`: an errno, or `fs.ErrInvalid`. -/
inductive FsErr
  | sys (e : SysErr)
  | errInvalid
  deriving DecidableEq, Repr

/-- `fs.PathError`. -/
structure PathError where
  op : String
  path : Str
  err : FsErr
  deriving DecidableEq, Repr

/-- How a call ends without a result: with an error, in a panic, or never. -/
inductive Fault
  | err (e : PathError)
  | panic
  | endless
  deriving DecidableEq, Repr

/-- The failure of a call. -/
def pathErr (op : String) (name : Str) (e : SysErr) : Fault := .err ⟨op, name, .sys e⟩

/-- A file or a directory. -/
structure Node where
  mode : FileMode
  data : Slice UInt8
  modTime : ℤ
  entries : Table Str NodeId
  parent : Option NodeId

/-- Nodes are numbered in the order of their creation. -/
structure Heap where
  node : NodeId → Node
  next : NodeId

/-- A filesystem is known by its root: no two of them share one. -/
structure FS where
  root : NodeId
  deriving DecidableEq, Repr

/-- The flags of `OpenAt`: the access mode, and the others that are looked at. -/
structure Flags where
  access : BitVec 2
  creat : Bool
  excl : Bool
  trunc : Bool
  append : Bool
  deriving DecidableEq, Repr

/-- Open for reading only. -/
def O_RDONLY : Flags := ⟨0, false, false, false, false⟩

/-- An open file or directory. -/
structure File where
  fs : FS
  node : NodeId
  name : Str
  flag : Flags
  offset : ℤ
  dirPos : ℕ
  deriving DecidableEq, Repr

/-- The handle is open for writing. -/
def File.writable (f : File) : Bool := f.flag.access ≠ 0

namespace Heap

/-- The node is a directory. -/
def isDir (h : Heap) (i : NodeId) : Bool := (h.node i).mode.isDir

/-- The entry of a name. -/
def entry (h : Heap) (d : NodeId) (k : Str) : Option NodeId := (h.node d).entries.lookup k

/-- The parent of a node. -/
def parent (h : Heap) (i : NodeId) : Option NodeId := (h.node i).parent

/-! ### Updates -/

/-- A node changes. -/
def modify (h : Heap) (i : NodeId) (f : Node → Node) : Heap :=
  { h with node := update h.node i (f (h.node i)) }

/-- A new node, number `h.next`. -/
def alloc (h : Heap) (n : Node) : Heap := ⟨update h.node h.next n, h.next + 1⟩

/-- `d.entries[k] = c` -/
def setEntry (h : Heap) (d : NodeId) (k : Str) (c : NodeId) : Heap :=
  h.modify d fun n => { n with entries := n.entries.insert k c }

/-- `delete(d.entries, k)` -/
def delEntry (h : Heap) (d : NodeId) (k : Str) : Heap :=
  h.modify d fun n => { n with entries := n.entries.erase k }

/-- A node gets a parent. -/
def setParent (h : Heap) (i p : NodeId) : Heap := h.modify i fun n => { n with parent := some p }

/-- A node gets a time. -/
def touch (h : Heap) (i : NodeId) (now : ℤ) : Heap := h.modify i fun n => { n with modTime := now }

/-- `newDir`, with the parent of a directory that is not a root. -/
def newDir (h : Heap) (mode : FileMode) (parent : NodeId) (now : ℤ) : Heap :=
  h.alloc ⟨mode, .nil, now, ∅, some parent⟩

/-- A new regular file. -/
def newFile (h : Heap) (mode : FileMode) (now : ℤ) : Heap := h.alloc ⟨mode, .nil, now, ∅, none⟩

/-! ### Paths -/

/-- How a walk fails. -/
inductive WalkFault
  | sys (e : SysErr)
  | panic
  deriving DecidableEq, Repr

/-- The failure of a call, if the walk fails. -/
def WalkFault.fault (op : String) (name : Str) : WalkFault → Fault
  | .sys e => pathErr op name e
  | .panic => .panic

/-- One turn of the loop of `resolve`, from a pointer `cur`. -/
def walkStep (h : Heap) (root : NodeId) (cur : Option NodeId) (p : Str) :
    Except WalkFault (Option NodeId) :=
  if p = [] ∨ p = dot then .ok cur
  else if p = dotdot then
    if cur = some root then .error (.sys .EPERM)
    else
      match cur with
      | none => .error .panic
      | some c => .ok (h.parent c)
  else
    match cur with
    | none => .error .panic
    | some c =>
      if !h.isDir c then .error (.sys .ENOTDIR)
      else
        match h.entry c p with
        | none => .error (.sys .ENOENT)
        | some n => .ok (some n)

/-- The loop of `resolve`. -/
def walk (h : Heap) (root : NodeId) :
    Option NodeId → List Str → Except WalkFault (Option NodeId)
  | cur, [] => .ok cur
  | cur, p :: ps =>
    match h.walkStep root cur p with
    | .error e => .error e
    | .ok cur' => h.walk root cur' ps

/-- The loop that drops empty components at the end, on the reversed list. -/
def dropEmpty : List Str → List Str
  | p :: q :: ps => if p = [] then dropEmpty (q :: ps) else p :: q :: ps
  | ps => ps

/-- The components to walk and the base name. -/
def components (name : Str) (parentOnly : Bool) : Except WalkFault (List Str × Str) :=
  if parentOnly then
    match dropEmpty (split name).reverse with
    | [] => .error .panic
    | base :: rest =>
      if base = [] ∨ base = dot ∨ base = dotdot then .error (.sys .EINVAL)
      else .ok (rest.reverse, base)
  else .ok (split name, [])

/-- Walk `name` from `dir`; with `parentOnly`, to the parent of its last component. -/
def resolve (h : Heap) (root dir : NodeId) (name : Str) (parentOnly : Bool) :
    Except WalkFault (NodeId × Str) :=
  if isAbs name then .error (.sys .EPERM)
  else
    match components name parentOnly with
    | .error e => .error e
    | .ok (parts, base) =>
      match h.walk root (some dir) parts with
      | .error e => .error e
      | .ok none => .error .panic
      | .ok (some cur) =>
        if !h.isDir cur && (parentOnly || endsInSlash name) then .error (.sys .ENOTDIR)
        else .ok (cur, base)

/-! ### Lemmas of the updates -/

variable (h : Heap)

theorem node_modify (i j : NodeId) (f : Node → Node) :
    (h.modify i f).node j = if j = i then f (h.node j) else h.node j := by
  by_cases hj : j = i
  · subst hj
    simp [modify]
  · simp [modify, hj]

theorem node_alloc (n : Node) (j : NodeId) :
    (h.alloc n).node j = if j = h.next then n else h.node j := by
  simp [alloc, update_apply]

@[simp] theorem next_setParent (i p : NodeId) : (h.setParent i p).next = h.next := rfl

@[simp] theorem isDir_setEntry (d : NodeId) (k : Str) (c : NodeId) (i : NodeId) :
    (h.setEntry d k c).isDir i = h.isDir i := by
  simp only [isDir, setEntry, node_modify]
  split_ifs <;> rfl

@[simp] theorem isDir_delEntry (d : NodeId) (k : Str) (i : NodeId) :
    (h.delEntry d k).isDir i = h.isDir i := by
  simp only [isDir, delEntry, node_modify]
  split_ifs <;> rfl

@[simp] theorem isDir_setParent (j p i : NodeId) : (h.setParent j p).isDir i = h.isDir i := by
  simp only [isDir, setParent, node_modify]
  split_ifs <;> rfl

theorem isDir_alloc (n : Node) (i : NodeId) :
    (h.alloc n).isDir i = if i = h.next then n.mode.isDir else h.isDir i := by
  simp only [isDir, node_alloc]
  split_ifs <;> rfl

@[simp] theorem parent_setEntry (d : NodeId) (k : Str) (c : NodeId) :
    (h.setEntry d k c).parent = h.parent := by
  funext i
  simp only [parent, setEntry, node_modify]
  split_ifs <;> rfl

@[simp] theorem parent_delEntry (d : NodeId) (k : Str) : (h.delEntry d k).parent = h.parent := by
  funext i
  simp only [parent, delEntry, node_modify]
  split_ifs <;> rfl

theorem parent_setParent (j p : NodeId) :
    (h.setParent j p).parent = update h.parent j (some p) := by
  funext i
  simp only [parent, setParent, node_modify, update_apply]
  split_ifs <;> rfl

theorem parent_alloc (n : Node) :
    (h.alloc n).parent = update h.parent h.next n.parent := by
  funext i
  simp only [parent, node_alloc, update_apply]
  split_ifs <;> rfl

theorem entry_setEntry (d : NodeId) (k : Str) (c i : NodeId) (k' : Str) :
    (h.setEntry d k c).entry i k' = if i = d ∧ k' = k then some c else h.entry i k' := by
  simp only [entry, setEntry, node_modify]
  by_cases hi : i = d
  · rw [if_pos hi]
    by_cases hk : k' = k
    · rw [if_pos ⟨hi, hk⟩, hk]
      exact AList.lookup_insert _
    · rw [if_neg (fun hh => hk hh.2)]
      exact AList.lookup_insert_ne hk
  · rw [if_neg hi, if_neg (fun hh => hi hh.1)]

theorem entry_delEntry (d : NodeId) (k : Str) (i : NodeId) (k' : Str) :
    (h.delEntry d k).entry i k' = if i = d ∧ k' = k then none else h.entry i k' := by
  simp only [entry, delEntry, node_modify]
  by_cases hi : i = d
  · rw [if_pos hi]
    by_cases hk : k' = k
    · rw [if_pos ⟨hi, hk⟩, hk]
      exact AList.lookup_erase _ _
    · rw [if_neg (fun hh => hk hh.2)]
      exact AList.lookup_erase_ne hk
  · rw [if_neg hi, if_neg (fun hh => hi hh.1)]

@[simp] theorem entry_setParent (j p i : NodeId) (k : Str) :
    (h.setParent j p).entry i k = h.entry i k := by
  simp only [entry, setParent, node_modify]
  split_ifs <;> rfl

theorem entry_alloc {n : Node} (hn : n.entries = ∅) (i : NodeId) (k : Str) :
    (h.alloc n).entry i k = if i = h.next then none else h.entry i k := by
  simp only [entry, node_alloc]
  split_ifs
  · rw [hn]
    exact AList.lookup_empty k
  · rfl

/-- Two heaps with the same namespace. -/
structure SameTree (h h' : Heap) : Prop where
  next : h'.next = h.next
  isDir : h'.isDir = h.isDir
  entry : h'.entry = h.entry
  parent : h'.parent = h.parent

variable {h}

theorem SameTree.trans {h1 h2 h3 : Heap} (a : SameTree h1 h2) (b : SameTree h2 h3) :
    SameTree h1 h3 :=
  ⟨b.next.trans a.next, b.isDir.trans a.isDir, b.entry.trans a.entry, b.parent.trans a.parent⟩

theorem sameTree_modify (h : Heap) {i : NodeId} {f : Node → Node}
    (h1 : (f (h.node i)).mode = (h.node i).mode) (h2 : (f (h.node i)).entries = (h.node i).entries)
    (h3 : (f (h.node i)).parent = (h.node i).parent) : SameTree h (h.modify i f) := by
  refine ⟨rfl, ?_, ?_, ?_⟩
  · funext j
    simp only [isDir, node_modify]
    split_ifs with hj
    · rw [hj, h1]
    · rfl
  · funext j k
    simp only [entry, node_modify]
    split_ifs with hj
    · rw [hj, h2]
    · rfl
  · funext j
    simp only [parent, node_modify]
    split_ifs with hj
    · rw [hj, h3]
    · rfl

theorem modify_node (h : Heap) (i : NodeId) : (h.modify i fun _ => h.node i) = h := by
  rw [Heap.modify, Function.update_eq_self]

theorem sameTree_touch (h : Heap) (i : NodeId) (now : ℤ) : SameTree h (h.touch i now) :=
  sameTree_modify h rfl rfl rfl

end Heap

end PgZero.Memfs
