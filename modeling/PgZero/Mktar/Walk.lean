import PgZero.Lib.PathNames
import PgZero.Memfs.Tree
import PgZero.Memfs.World

/-!
# Packing a directory tree

`mktar` walks a directory in lexical order, every directory before what is in it, and writes one
member of the archive for each directory and each regular file. Names are relative to the directory
it starts from, which has no member itself.
-/

set_option autoImplicit false

namespace PgZero.Mktar

open Lib GoPath Memfs

/-- The entries of a directory on disk, in the order in which `WalkDir` visits them, and all that is
below them. -/
inductive DirTree
  | nil
  | file (name : Str) (mode : FileMode) (content : List UInt8) (rest : DirTree)
  | dir (name : Str) (mode : FileMode) (entries rest : DirTree)
  /-- neither a directory nor a regular file -/
  | other (name : Str) (rest : DirTree)
  deriving DecidableEq, Repr

/-- A header and the body after it. -/
structure Member where
  name : Str
  typeflag : TarType
  mode : FileMode
  modTime : ℤ
  content : List UInt8
  deriving DecidableEq, Repr

namespace DirTree

/-- The names of the entries. -/
def names : DirTree → List Str
  | nil => []
  | file name _ _ rest | dir name _ _ rest | other name rest => name :: rest.names

/-- The names in a directory are different, and the sizes of files are `int64`s. -/
def Valid : DirTree → Prop
  | nil => True
  | file name _ content rest =>
    ValidName name ∧ name ∉ rest.names ∧ content.length < 2 ^ 63 ∧ rest.Valid
  | dir name _ entries rest => ValidName name ∧ name ∉ rest.names ∧ entries.Valid ∧ rest.Valid
  | other name rest => ValidName name ∧ name ∉ rest.names ∧ rest.Valid

/-- The members that the callback of `WalkDir` writes below a directory. `pre` are the names that
lead to it, so `filepath.Rel` gives those names and the entry's own. -/
def walk (pre : List Str) : DirTree → List Member
  | nil => []
  | file name mode content rest =>
    ⟨spell (pre ++ [name]), .typeReg, mode.perm, 0, content⟩ :: rest.walk pre
  | dir name mode entries rest =>
    ⟨spell (pre ++ [name]) ++ [slash], .typeDir, mode.perm, 0, []⟩ ::
      (entries.walk (pre ++ [name]) ++ rest.walk pre)
  | other _ rest => rest.walk pre

end DirTree

/-- The members that `mktar` writes. -/
def mktar (t : DirTree) : List Member := t.walk []

/-- What `tar.Reader` gives back of a member: its header, and its body in pieces. -/
structure Member.Reads (m : Member) (e : TarEntry) : Prop where
  name : e.name = m.name
  typeflag : e.typeflag = m.typeflag
  mode : e.mode = m.mode
  modTime : e.modTime = m.modTime
  body : e.body.flatten = m.content
  complete : e.bodyErr = false

/-! ### Paths -/

/-- A directory or a regular file of a tree. -/
inductive Item
  | file (mode : FileMode) (content : List UInt8)
  | dir (mode : FileMode)
  deriving DecidableEq, Repr

/-- What is at a path below the directory. -/
def DirTree.item : DirTree → List Str → Option Item
  | nil, _ => none
  | _, [] => none
  | file name mode content rest, p :: ps =>
    if p = name then if ps = [] then some (.file mode content) else none else rest.item (p :: ps)
  | dir name mode entries rest, p :: ps =>
    if p = name then if ps = [] then some (.dir mode) else entries.item ps else rest.item (p :: ps)
  | other name rest, p :: ps => if p = name then none else rest.item (p :: ps)

theorem DirTree.item_of_notMem {t : DirTree} {p : Str} (hp : p ∉ t.names) (ps : List Str) :
    t.item (p :: ps) = none := by
  induction t with
  | nil => rfl
  | file name mode content rest ih | dir name mode entries rest _ ih | other name rest ih =>
    rw [names, List.mem_cons, not_or] at hp
    rw [item, if_neg hp.1, ih hp.2]

end PgZero.Mktar
