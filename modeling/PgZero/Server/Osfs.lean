import PgZero.Lib.Ascii
import PgZero.Lib.HostFs
import PgZero.Lib.System

/-!
# The host directories of the guest

`osfs`: `Dir.Open` and the methods of open files, with the calls of the host that they make.

* **`osfs_confined`**: every call is for a place in the tree, if no symbolic link of the host leads
  out.
-/

set_option autoImplicit false

namespace PgZero.Osfs

open Lib GoPath List

/-- `File.resolve`, with `none` for `fs.ErrPermission`. -/
def resolve (path name : Str) : Option Str :=
  let name := clean name
  if isAbs name ∨ name = dotdot ∨ (dotdot ++ [slash]) <+: name then none
  else some (join path name)

/-! ### The host -/

/-- A call of the host. -/
inductive HostCall
  | openFile (p : Str) (flag : ℤ) (perm : ℕ)
  | lstat (p : Str)
  | readlink (p : Str)
  | mkdir (p : Str) (perm : ℕ)
  | remove (p : Str)
  /-- The target is the text of the new link: it is not looked up. -/
  | symlink (target p : Str)
  | chtimes (p : Str) (atime mtime : ℤ)
  deriving DecidableEq

/-- What a call reads or changes. -/
def HostCall.path : HostCall → Str
  | openFile p _ _ | lstat p | readlink p | mkdir p _ | remove p | symlink _ p | chtimes p _ _ => p

/-- How the host answers. -/
structure Host where
  fails : HostCall → Bool
  /-- `IsDir` of what `Lstat` returns. -/
  isDir : Str → Bool

/-- The errors of `fs.PathError`: `fs.ErrInvalid`, `ENOTDIR`, `EISDIR`. -/
inductive Cause
  | invalid
  | notDir
  | isDir
  deriving DecidableEq

/-- An error of a method, or one of the host. -/
inductive OsErr
  | path (op : String) (name : Str) (cause : Cause)
  | permission
  | host (call : HostCall)
  deriving DecidableEq

/-- The calls of a method, and its result: the path of a file that was opened. What else the host
tells is left out. -/
abbrev Called := List HostCall × Except OsErr (Option Str)

/-- A call whose result is the result of the method. -/
def Host.call (h : Host) (c : HostCall) : Called :=
  ([c], if h.fails c then .error (.host c) else .ok none)

/-! ### The methods -/

/-- `openFile` -/
def openFile (h : Host) (p : Str) (flag : ℤ) (perm : ℕ) : Called :=
  let c := HostCall.openFile p flag perm
  ([c], if h.fails c then .error (.host c) else .ok (some p))

/-- `Dir.Open`; `O_RDONLY` is zero. -/
def dirOpen (h : Host) (d name : Str) : Called :=
  if !validPath name then ([], .error (.path "open" name .invalid))
  else openFile h (join d name) 0 0

/-- The start of every `*At` method. -/
def resolved (path name : Str) (k : Str → Called) : Called :=
  match resolve path name with
  | none => ([], .error .permission)
  | some p => k p

/-- `File.OpenAt` -/
def openAt (h : Host) (path name : Str) (flag : ℤ) (perm : ℕ) : Called :=
  resolved path name fun p => openFile h p flag perm

/-- `File.StatAt` -/
def statAt (h : Host) (path name : Str) : Called :=
  resolved path name fun p => h.call (.lstat p)

/-- `File.ReadlinkAt` -/
def readlinkAt (h : Host) (path name : Str) : Called :=
  resolved path name fun p => h.call (.readlink p)

/-- `File.MkdirAt` -/
def mkdirAt (h : Host) (path name : Str) (perm : ℕ) : Called :=
  resolved path name fun p => h.call (.mkdir p perm)

/-- The body of `RmdirAt` and `UnlinkAt`: only a directory, or anything else, is removed. -/
def removeAt (op : String) (dir : Bool) (cause : Cause) (h : Host) (path name : Str) : Called :=
  resolved path name fun p =>
    if h.fails (.lstat p) then h.call (.lstat p)
    else if h.isDir p ≠ dir then ([.lstat p], .error (.path op name cause))
    else (.lstat p :: (h.call (.remove p)).1, (h.call (.remove p)).2)

/-- `File.RmdirAt` -/
def rmdirAt : Host → Str → Str → Called := removeAt "rmdir" true .notDir

/-- `File.UnlinkAt` -/
def unlinkAt : Host → Str → Str → Called := removeAt "unlink" false .isDir

/-- `File.SymlinkAt` -/
def symlinkAt (h : Host) (path target linkName : Str) : Called :=
  resolved path linkName fun p => h.call (.symlink target p)

/-- `File.Chtimes` -/
def chtimes (h : Host) (path : Str) (atime mtime : ℤ) : Called :=
  h.call (.chtimes path atime mtime)

/-- `File.ChtimesAt` -/
def chtimesAt (h : Host) (path name : Str) (atime mtime : ℤ) : Called :=
  resolved path name fun p => h.call (.chtimes p atime mtime)

/-! ### The files of the guest -/

/-- What is done with the tree, or with the open file `f`. -/
inductive Request
  | dirOpen (name : Str)
  | openAt (f : ℕ) (name : Str) (flag : ℤ) (perm : ℕ)
  | statAt (f : ℕ) (name : Str)
  | readlinkAt (f : ℕ) (name : Str)
  | mkdirAt (f : ℕ) (name : Str) (perm : ℕ)
  | rmdirAt (f : ℕ) (name : Str)
  | unlinkAt (f : ℕ) (name : Str)
  | symlinkAt (f : ℕ) (target linkName : Str)
  | chtimes (f : ℕ) (atime mtime : ℤ)
  | chtimesAt (f : ℕ) (name : Str) (atime mtime : ℤ)

/-- A request, where `files` are the paths of the open files. -/
def serve (d : Str) (h : Host) (files : List Str) : Request → Option Called
  | .dirOpen name => some (Osfs.dirOpen h d name)
  | .openAt f name flag perm => files[f]?.map (Osfs.openAt h · name flag perm)
  | .statAt f name => files[f]?.map (Osfs.statAt h · name)
  | .readlinkAt f name => files[f]?.map (Osfs.readlinkAt h · name)
  | .mkdirAt f name perm => files[f]?.map (Osfs.mkdirAt h · name perm)
  | .rmdirAt f name => files[f]?.map (Osfs.rmdirAt h · name)
  | .unlinkAt f name => files[f]?.map (Osfs.unlinkAt h · name)
  | .symlinkAt f target linkName => files[f]?.map (Osfs.symlinkAt h · target linkName)
  | .chtimes f atime mtime => files[f]?.map (Osfs.chtimes h · atime mtime)
  | .chtimesAt f name atime mtime => files[f]?.map (Osfs.chtimesAt h · name atime mtime)

/-- The file that was opened. -/
def opened : Except OsErr (Option Str) → List Str
  | .ok p => p.toList
  | .error _ => []

/-- The tree `d`: at every request the host answers as it likes. -/
def mount (d : Str) : System (List Str) (Host × Request) Called where
  init files := files = []
  step files e := (serve d e.1 files e.2).map fun x => (files ++ opened x.2, x)

/-! ### Names -/

/-- `Clean` leaves `..` in a relative path only where its first component is one. -/
theorem foldl_dotdot (ps : List Str) {kept : List Str}
    (hk : dotdot ∈ kept → kept.getLast? = some dotdot) :
    dotdot ∈ ps.foldl (cleanStep false) kept →
      (ps.foldl (cleanStep false) kept).getLast? = some dotdot := by
  induction ps generalizing kept with
  | nil => exact hk
  | cons p ps ih =>
    refine ih ?_
    rcases kept with _ | ⟨t, _ | ⟨u, ts⟩⟩ <;> grind [cleanStep]

theorem dotdot_not_mem {name : Str} (hrel : isAbs name = false) (hne : clean name ≠ dotdot)
    (hpre : ¬(dotdot ++ [slash]) <+: clean name) : dotdot ∉ components name := by
  intro hdd
  have hhead : (components name).head? = some dotdot := by
    simp only [components, hrel, mem_reverse, List.head?_reverse] at hdd ⊢
    exact foldl_dotdot _ (by simp) hdd
  obtain ⟨cs, hcs : components name = [dotdot] ++ cs⟩ := List.head?_eq_some_iff.mp hhead
  rw [clean_rel hrel, hcs] at hne hpre
  by_cases hnil : cs = []
  · subst hnil
    exact hne (by decide)
  · rw [spell_append (by simp) hnil, spell_singleton, if_neg (by simp)] at hpre
    exact hpre (prefix_append _ _)

/-- A place in the tree `d`. -/
def Below (cwd : Loc) (d path : Str) : Prop := locate cwd d <:+ locate cwd path

theorem Below.trans {cwd : Loc} {d path p : Str} (h : Below cwd d path) (h' : Below cwd path p) :
    Below cwd d p :=
  List.IsSuffix.trans h h'

theorem below_of_resolve {path name p : Str} (h : resolve path name = some p) (cwd : Loc) :
    Below cwd path p := by
  simp only [resolve, Option.ite_none_left_eq_some, not_or, Bool.not_eq_true] at h
  obtain ⟨⟨habs, hne, hpre⟩, h⟩ := h
  cases h
  have hrel : isAbs name = false := by
    refine Bool.eq_false_iff.mpr fun hn => ?_
    simp [clean_abs hn, isAbs_cons] at habs
  obtain ⟨hk, hloc⟩ := components_spec (locate cwd path) name
  have hplain : ∀ p ∈ components name, Plain p := fun p hp =>
    ⟨(hk p hp).1, (hk p hp).2.2, (hk p hp).2.1, fun he =>
      dotdot_not_mem hrel hne hpre (he ▸ hp)⟩
  have hjoin : locate cwd (join path (clean name)) = locate (locate cwd path) (clean name) :=
    (locate_join cwd path _ habs).trans (by simp [locate, habs])
  rw [Below, hjoin, locate_clean, ← hloc, hrel, foldl_cleanStep hplain]
  exact suffix_append _ _

theorem below_of_validPath {name : Str} (h : validPath name = true) (cwd : Loc) (d : Str) :
    Below cwd d (join d name) := by
  rw [validPath, Bool.and_eq_true, Bool.or_eq_true, decide_eq_true_iff] at h
  rcases h.2 with rfl | hall
  · rw [Below, locate_join cwd d dot rfl]
    exact suffix_refl _
  · have hplain : ∀ p ∈ split name, Plain p := by
      intro p hp
      have hp' := all_eq_true.mp hall p hp
      simp only [Bool.and_eq_true, decide_eq_true_iff] at hp'
      exact ⟨hp'.1.1, slash_not_mem_of_mem_split hp, hp'.1.2, hp'.2⟩
    have hrel : isAbs name = false := by
      refine Bool.eq_false_iff.mpr fun habs => ?_
      obtain ⟨t, rfl⟩ := List.head?_eq_some_iff.mp (of_decide_eq_true habs)
      rw [split_cons_slash] at hplain
      exact (hplain [] mem_cons_self).1 rfl
    rw [Below, locate_join cwd d name hrel, foldl_cleanStep hplain]
    exact suffix_append _ _

/-! ### Calls -/

section Calls

variable {cwd : Loc} {d path name : Str} {h : Host}

/-- Every call is for a place in the tree, and so is what was opened. -/
def Confined (cwd : Loc) (d : Str) (x : Called) : Prop :=
  (∀ c ∈ x.1, Below cwd d c.path) ∧ ∀ p ∈ opened x.2, Below cwd d p

theorem Confined.call {c : HostCall} (hc : Below cwd d c.path) : Confined cwd d (h.call c) := by
  refine ⟨forall_mem_singleton.mpr hc, fun p hp => ?_⟩
  unfold Host.call at hp
  split_ifs at hp <;> cases hp

theorem Confined.openFile {p : Str} {flag : ℤ} {perm : ℕ} (hp : Below cwd d p) :
    Confined cwd d (openFile h p flag perm) := by
  refine ⟨forall_mem_singleton.mpr hp, fun q hq => ?_⟩
  unfold Osfs.openFile at hq
  dsimp only at hq
  split_ifs at hq
  · cases hq
  · cases mem_singleton.mp hq
    exact hp

theorem Confined.resolved {k : Str → Called} (hpath : Below cwd d path)
    (hk : ∀ p, Below cwd d p → Confined cwd d (k p)) : Confined cwd d (resolved path name k) := by
  unfold Osfs.resolved
  cases hr : resolve path name with
  | none => exact ⟨nofun, nofun⟩
  | some p => exact hk p (hpath.trans (below_of_resolve hr cwd))

theorem Confined.removeAt {op : String} {dir : Bool} {cause : Cause} (hpath : Below cwd d path) :
    Confined cwd d (removeAt op dir cause h path name) := by
  refine .resolved hpath fun p hp => ?_
  split_ifs
  · exact .call hp
  · exact ⟨forall_mem_singleton.mpr hp, nofun⟩
  · have hremove : Confined cwd d (h.call (.remove p)) := .call hp
    exact ⟨forall_mem_cons.mpr ⟨hp, hremove.1⟩, hremove.2⟩

theorem Confined.dirOpen : Confined cwd d (dirOpen h d name) := by
  unfold Osfs.dirOpen
  split_ifs with hv
  · exact ⟨nofun, nofun⟩
  · exact .openFile (below_of_validPath (by simpa using hv) cwd d)

theorem confined_of_serve {files : List Str} {r : Request} {x : Called}
    (hfiles : ∀ path ∈ files, Below cwd d path) (hx : serve d h files r = some x) :
    Confined cwd d x := by
  have hmem {f : ℕ} {k : Str → Called} (hx : files[f]?.map k = some x)
      (hk : ∀ path, Below cwd d path → Confined cwd d (k path)) : Confined cwd d x := by
    obtain ⟨path, hpath, rfl⟩ := Option.map_eq_some_iff.mp hx
    exact hk path (hfiles path (mem_of_getElem? hpath))
  cases r with
  | dirOpen name =>
    cases hx
    exact .dirOpen
  | openAt f name flag perm => exact hmem hx fun _ hp => .resolved hp fun _ => .openFile
  | statAt f name | readlinkAt f name | mkdirAt f name perm =>
    exact hmem hx fun _ hp => .resolved hp fun _ hp => .call hp
  | rmdirAt f name | unlinkAt f name => exact hmem hx fun _ => .removeAt
  | symlinkAt f target linkName => exact hmem hx fun _ hp => .resolved hp fun _ hp => .call hp
  | chtimes f atime mtime => exact hmem hx fun _ hp => .call hp
  | chtimesAt f name atime mtime => exact hmem hx fun _ hp => .resolved hp fun _ hp => .call hp

end Calls

/-- **No method reaches out of the tree**, however the host answers. -/
theorem osfs_confined {d : Str} {tr : List ((Host × Request) × Called)} {files : List Str}
    (h : (mount d).Run [] tr files) (cwd : Loc) :
    (∀ path ∈ files, locate cwd d <:+ locate cwd path) ∧
      ∀ x ∈ tr, ∀ c ∈ x.2.1, locate cwd d <:+ locate cwd c.path := by
  refine h.history (P := fun tr files => (∀ path ∈ files, Below cwd d path) ∧
    ∀ x ∈ tr, ∀ c ∈ x.2.1, Below cwd d c.path) ?_ ⟨nofun, nofun⟩
  rintro tr files e files' o ⟨hfiles, htr⟩ hs
  obtain ⟨x, hx, he⟩ := Option.map_eq_some_iff.mp hs
  cases he
  obtain ⟨hcalls, hopened⟩ := confined_of_serve hfiles hx
  constructor
  · intro path hp
    rcases mem_append.mp hp with hp | hp
    · exact hfiles path hp
    · exact hopened path hp
  · intro y hy
    rcases mem_append.mp hy with hy | hy
    · exact htr y hy
    · cases mem_singleton.mp hy
      exact hcalls

/-- A link to `../..` in `base` of `/d`: the call is for the link, whatever its target. -/
theorem osfs_confined_link :
    let host : Host := ⟨fun _ => false, fun _ => true⟩
    let tr : List ((Host × Request) × Called) :=
      [((host, .dirOpen dot), [.openFile (ascii "/d") 0 0], .ok (some (ascii "/d"))),
        ((host, .openAt 0 (ascii "base") 0 0),
          [.openFile (ascii "/d/base") 0 0], .ok (some (ascii "/d/base"))),
        ((host, .symlinkAt 1 (ascii "../..") (ascii "y/../x")),
          [.symlink (ascii "../..") (ascii "/d/base/x")], .ok none),
        ((host, .rmdirAt 0 (ascii "../d")), [], .error .permission)]
    (mount (ascii "/d")).Run [] tr [ascii "/d", ascii "/d/base"] ∧
      ∀ x ∈ tr, ∀ c ∈ x.2.1, locate [] (ascii "/d") <:+ locate [] c.path := by
  intro host tr
  have hrun : (mount (ascii "/d")).Run [] tr [ascii "/d", ascii "/d/base"] :=
    System.exec_run [] (tr.map Prod.fst) rfl
  exact ⟨hrun, (osfs_confined hrun []).2⟩

end PgZero.Osfs
