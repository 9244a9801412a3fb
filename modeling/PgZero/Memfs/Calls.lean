import PgZero.Memfs.Effect
import PgZero.Memfs.Rename

/-!
# The calls keep the tree

* `Handle`: what a call needs of an open file, whether or not its directory is still linked.
* `openAt_opens`, **`Tries.done`**: the calls on a handle.
* `TarInv.addTar`: what the calls in the loop of `AddTar` keep, the loop keeps.
-/

set_option autoImplicit false

namespace PgZero.Memfs

open Lib File Heap

/-! ### Handles -/

/-- A handle on a node of its filesystem, linked or not. -/
structure Handle (h : Heap) (R : NodeId → Prop) (f : File) : Prop where
  root : R f.fs.root
  below : Below h f.fs.root f.node

section

variable {h h' : Heap} {R : NodeId → Prop} {f : File} {name : Str} {now : ℤ}

theorem Handle.mono (hf : Handle h R f) (he : Extends R h h') : Handle h' R f :=
  ⟨hf.root, he.below hf.root hf.below⟩

theorem File.Finds.below_root (ht : TreeInv h R) (hf : Handle h R f) {n : NodeId} (hn : f.Finds h n) :
    Below h f.fs.root n := by
  induction hn with
  | self => exact hf.below
  | name hres => exact (resolve_ok ht hf.root hf.below hres).1
  | entry _ he ih => exact ht.entry_below ih he

/-- A directory of the filesystem, and a name that it may have an entry for. -/
structure Place (h : Heap) (root d : NodeId) (k : Str) : Prop where
  below : Below h root d
  isDir : h.isDir d = true
  name : ValidName k

theorem Handle.parent (ht : TreeInv h R) (hf : Handle h R f) {d : NodeId} {k : Str}
    (hp : f.Parent h name d k) : Place h f.fs.root d k := by
  obtain ⟨hb, hbase⟩ := resolve_ok ht hf.root hf.below hp
  exact ⟨hb, (hbase rfl).1, (hbase rfl).2⟩

theorem Kept.touch (hk : Kept R h h') (d : NodeId) (now : ℤ) : Kept R h (h'.touch d now) :=
  hk.trans (hk.inv.kept (sameTree_touch _ d now))

theorem rootFile_handle (ht : TreeInv h R) {fs : FS} (hr : R fs.root) : Handle h R fs.rootFile :=
  ⟨hr, (ht.root _ hr).1, fun _ => .refl⟩

/-- What a call leaves behind: the tree is kept, and no loop of it was endless. -/
structure Done {α : Type} (R : NodeId → Prop) (h : Heap) (r : Heap × Except Fault α) : Prop where
  kept : Kept R h r.1
  ends : r.2 ≠ .error .endless

theorem Done.error {α : Type} (ht : TreeInv h R) {e : Fault} (he : e ≠ .endless) :
    Done R h ((h, .error e) : Heap × Except Fault α) :=
  ⟨.refl ht, fun h1 => he (Except.error.inj h1)⟩

/-- A call that opens a file also returns a handle. -/
structure Opens (R : NodeId → Prop) (h : Heap) (r : Heap × Except Fault File) : Prop
    extends Done R h r where
  handle : ∀ f, r.2 = .ok f → Handle r.1 R f

theorem Opens.error (ht : TreeInv h R) {e : Fault} (he : e ≠ .endless) :
    Opens R h (h, .error e) :=
  ⟨.error ht he, fun _ hf => by cases hf⟩

theorem openFound_opens (ht : TreeInv h R) {fs : FS} {n : NodeId} (name : Str) (flag : Flags)
    (now : ℤ) (hr : R fs.root) (hb : Below h fs.root n) :
    Opens R h (h.openFound fs n name flag now) := by
  have hs := sameTree_openFound h name now fs n flag
  refine ⟨⟨ht.kept hs, ?_⟩, fun g hg => ?_⟩
  · unfold openFound openNode
    dsimp only
    split_ifs <;> exact fun h1 => by cases h1
  have hfile : g.fs = fs ∧ g.node = n := by
    unfold openFound openNode at hg
    dsimp only at hg
    split_ifs at hg <;> cases hg <;> exact ⟨rfl, rfl⟩
  refine ⟨hfile.1 ▸ hr, ?_⟩
  rw [hfile.1, hfile.2]
  exact hs.extends.below hr hb

theorem create_opens (ht : TreeInv h R) {fs : FS} {dir : NodeId} {base : Str} (hr : R fs.root)
    (hb : Below h fs.root dir) (hdir : h.isDir dir = true) (hname : ValidName base) (flag : Flags)
    (perm : FileMode) : Opens R h
      ((((h.newFile (perm.perm ||| 0o600) now).setEntry dir base h.next).touch dir now).openFound
        fs h.next name flag now) := by
  have hk1 : Kept R h ((h.newFile (perm.perm ||| 0o600) now).setEntry dir base h.next) :=
    ht.addChild hb.lt hdir hname rfl (by rw [isDir_fileMode]; rfl)
  have hk2 := hk1.touch dir now
  have he := entry_setEntry (h.newFile (perm.perm ||| 0o600) now) dir base h.next dir base
  rw [if_pos ⟨rfl, rfl⟩, ← (sameTree_touch _ dir now).entry] at he
  have ho := openFound_opens hk2.inv name flag now hr
    (hk2.inv.entry_below (hk2.ext.below hr hb) he)
  exact ⟨⟨hk2.trans ho.kept, ho.ends⟩, ho.handle⟩

theorem openAt_opens (ht : TreeInv h R) (hf : Handle h R f) (flag : Flags) (perm : FileMode) :
    Opens R h (f.openAt h name flag perm now) := by
  obtain ⟨e, hne, heq⟩ | ⟨n, hn, heq⟩ | ⟨d, k, -, hp, -, heq⟩ :=
    openAt_cases h f name flag perm now
  · exact heq ▸ .error ht hne
  · exact heq ▸ openFound_opens ht name flag now hf.root (hn.below_root ht hf)
  · obtain ⟨hb, hdir, hname⟩ := hf.parent ht hp
    exact heq ▸ create_opens ht hf.root hb hdir hname flag perm

theorem openPath_opens (ht : TreeInv h R) {fs : FS} (hr : R fs.root) :
    Opens R h (fs.openPath h name now) := by
  unfold FS.openPath
  split_ifs
  · exact .error ht (fun h1 => by cases h1)
  · exact openAt_opens ht (rootFile_handle ht hr) O_RDONLY 0

theorem Effect.kept {P : NodeId → Str → Prop} (ht : TreeInv h R) (hf : Handle h R f)
    (hP : ∀ d k, P d k → Place h f.fs.root d k) (he : Effect h f now P h') : Kept R h h' := by
  cases he with
  | same => exact .refl ht
  | create hp hnone hn hpar =>
    obtain ⟨hb, hdir, hname⟩ := hP _ _ hp
    exact (ht.addChild hb.lt hdir hname hn hpar).touch _ now
  | remove hd he hempty => exact Kept.touch ⟨ht.delEntry _ _, extends_delEntry h _ _⟩ _ now
  | @link d c k hc hfile hp hnone =>
    obtain ⟨hb, hdir, hname⟩ := hP _ _ hp
    have hd : h.isDir c ≠ true := by simp [hfile]
    -- a root is a directory
    have hgood : GoodEntry h R d k c := ⟨hb.lt, hdir, (hc.below_root ht hf).lt, hname,
      fun h1 => absurd h1 hd, fun hr => hd (ht.root c hr).2.1⟩
    exact Kept.touch ⟨ht.setEntry hgood fun h1 => absurd h1 hd, extends_setEntry h d k c⟩ _ now
  | @move odir ndir n obase nbase ho hp he hm =>
    obtain ⟨hb, hdir, hname⟩ := hP _ _ hp
    unfold moved
    split_ifs with hd
    · have hends := subtreeLoop_ends (n := n) ht hb hdir
      rw [hm.outside hd] at hends
      obtain ⟨-, hav⟩ := hends.resolve_left (by simp)
      exact ht.move hf.root (ho.below_root ht hf) he hd hb.lt hdir hav hname now
    · exact ht.moveFile he (by simpa using hd) hb.lt hdir hname now

theorem Tries.done {P : NodeId → Str → Prop} (ht : TreeInv h R) (hf : Handle h R f)
    (hP : ∀ d k, P d k → Place h f.fs.root d k) {r : Heap × Except Fault Unit}
    (hr : Tries h f now P r) : Done R h r := by
  refine ⟨hr.effect.kept ht hf hP, fun h1 => ?_⟩
  obtain ⟨d, k, n, hp, hend⟩ := hr.ends h1
  obtain ⟨hb, hdir, -⟩ := hP d k hp
  rcases subtreeLoop_ends (n := n) ht hb hdir with h2 | ⟨h2, -⟩ <;> cases hend.symm.trans h2

/-! ### Archives -/

variable {fs : FS}

/-- A property `I` of the heap that the calls of `AddTar` keep; `F` holds of the node it writes. -/
structure TarInv (fs : FS) (now : ℤ) (I : Heap → Prop) (F : Heap → NodeId → Prop) : Prop where
  mkdir : ∀ h name perm, I h → I (fs.rootFile.mkdirAt h name perm now).1
  create : ∀ h name perm, I h → I (fs.rootFile.openAt h name createFlags perm now).1
  file : ∀ h name perm f, I h → (fs.rootFile.openAt h name createFlags perm now).2 = .ok f →
    F (fs.rootFile.openAt h name createFlags perm now).1 f.node
  node : ∀ h i (g : Node → Node), I h → F h i → SameNode (h.node i) (g (h.node i)) →
    I (h.modify i g) ∧ F (h.modify i g) i

namespace TarInv

variable {I : Heap → Prop} {F : Heap → NodeId → Prop} (hI : TarInv fs now I F)

include hI

theorem mkdirLoop (h0 : I h) (perm : FileMode) (cur : Str) (ps : List Str) :
    I (fs.mkdirLoop perm now h cur ps).1 := by
  induction ps generalizing h cur with
  | nil => exact h0
  | cons p ps ih =>
    have h1 := hI.mkdir h (GoPath.join cur p) perm h0
    rw [FS.mkdirLoop]
    split
    · exact ih h1 _
    · split_ifs
      · exact ih h1 _
      · exact h1

theorem copyBody (h0 : I h) (hf : F h f.node) (bs : List (List UInt8)) :
    I (h.copyBody now f bs).1 ∧ F (h.copyBody now f bs).1 f.node := by
  induction bs generalizing h f with
  | nil => exact ⟨h0, hf⟩
  | cons b bs ih =>
    rw [Heap.copyBody]
    split
    · exact ⟨h0, hf⟩
    · rename_i r hw
      obtain ⟨hs, -, hnode⟩ := write_same hw
      have h1 := hI.node h f.node (fun _ => r.1) h0 hf hs
      split
      · exact h1
      · rw [← hnode] at h1 ⊢
        exact ih h1.1 h1.2

theorem addFile (h0 : I h) (e : TarEntry) : I (fs.addFile h e now).1 := by
  have h1 := hI.create h e.target e.mode h0
  unfold FS.addFile
  dsimp only
  split
  · exact h1
  · rename_i f hf
    obtain ⟨h2, hnode⟩ := hI.copyBody h1 (hI.file h e.target e.mode f h0 hf) e.body
    split
    · exact h2
    · split_ifs
      · exact h2
      · exact (hI.node _ f.node (fun n => { n with modTime := e.modTime }) h2 hnode
          ⟨rfl, rfl, rfl⟩).1

theorem addEntry (h0 : I h) (e : TarEntry) : I (fs.addEntry h e now).1 := by
  unfold FS.addEntry
  by_cases hskip : e.target = GoPath.dot ∨ e.target = []
  · rw [if_pos hskip]
    exact h0
  rw [if_neg hskip]
  split
  · exact hI.mkdirLoop h0 _ _ _
  · split_ifs
    · have h1 : I (fs.mkdirAll h (GoPath.dir e.target) 0o700 now).1 := hI.mkdirLoop h0 _ _ _
      dsimp only
      split
      · exact hI.addFile h1 e
      · exact h1
    · exact hI.addFile h0 e
  · exact h0

theorem addTar (h0 : I h) (es : List TarEntry) (broken : Bool) :
    I (fs.addTar now broken h es).1 := by
  induction es generalizing h with
  | nil => exact h0
  | cons e es ih =>
    have h1 := hI.addEntry h0 e
    rw [FS.addTar]
    split
    · exact h1
    · exact ih h1

end TarInv

theorem tarInv_kept (hr : R fs.root) (now : ℤ) : TarInv fs now (Kept R h) fun _ _ => True where
  mkdir _ _ perm hk := hk.trans <| (mkdirAt_tries (fun _ _ hp => hp) perm now).effect.kept hk.inv
    (rootFile_handle hk.inv hr) fun _ _ => (rootFile_handle hk.inv hr).parent hk.inv
  create _ _ perm hk :=
    hk.trans (openAt_opens hk.inv (rootFile_handle hk.inv hr) createFlags perm).kept
  file _ _ _ _ _ _ := trivial
  node _ _ _ hk _ hs :=
    ⟨hk.trans (hk.inv.kept hs.sameTree), trivial⟩

end

end PgZero.Memfs
