import PgZero.Memfs.World

/-!
# What a call does

Each call of the namespace looks at everything first and changes the heap at its end, by one change
of the entries.

* `Effect`, `Tries`, `openAt_cases`: the calls on a heap.
* **`call_content`**, **`call_names`**: the calls in a world.
* **`failed_unchanged`**: a failed call leaves the world as it was.
-/

set_option autoImplicit false

namespace PgZero.Memfs

open Lib File Heap Option

/-! ### Modes -/

theorem FileMode.isDir_eq (m : FileMode) : m.isDir = m.getLsbD 31 := by
  have hbit : modeDir = BitVec.twoPow 32 31 := by decide
  rw [FileMode.isDir, hbit, BitVec.and_twoPow]
  cases m.getLsbD 31 <;> decide

theorem isDir_fileMode (perm : FileMode) : FileMode.isDir (perm.perm ||| 0o600) = false := by
  rw [FileMode.isDir_eq]
  simp [FileMode.perm]

theorem isDir_dirMode (perm : FileMode) :
    FileMode.isDir (modeDir ||| perm.perm ||| 0o700) = true := by
  rw [FileMode.isDir_eq]
  simp [modeDir]

/-! ### Calls on content -/

/-- A node whose content or time changes. -/
structure SameNode (n n' : Node) : Prop where
  mode : n'.mode = n.mode
  entries : n'.entries = n.entries
  parent : n'.parent = n.parent

theorem SameNode.sameTree {h : Heap} {i : NodeId} {f : Node → Node}
    (hs : SameNode (h.node i) (f (h.node i))) : Heap.SameTree h (h.modify i f) :=
  sameTree_modify h hs.mode hs.entries hs.parent

theorem openNode_same (n : Node) (f : File) (name : Str) (now : ℤ) :
    SameNode n (openNode n f name now).1 := by
  unfold openNode
  split_ifs <;> exact ⟨rfl, rfl, rfl⟩

theorem writeAt_same {n : Node} {f : File} {b : List UInt8} {off now : ℤ}
    {r : Node × ℕ × Option IoErr} (hw : f.writeAt n b off now = some r) : SameNode n r.1 := by
  unfold writeAt at hw
  dsimp only at hw
  split_ifs at hw <;> obtain rfl := Option.some.inj hw <;> exact ⟨rfl, rfl, rfl⟩

theorem write_same {n : Node} {f : File} {b : List UInt8} {now : ℤ}
    {r : Node × File × ℕ × Option IoErr} (hw : f.write n b now = some r) :
    SameNode n r.1 ∧ r.2.1.fs = f.fs ∧ r.2.1.node = f.node := by
  obtain ⟨r', hw', rfl⟩ := Option.map_eq_some_iff.mp hw
  exact ⟨writeAt_same hw', rfl, rfl⟩

theorem truncate_same (n : Node) (f : File) (size now : ℤ) :
    SameNode n (f.truncate n size now).1 := by
  unfold truncate
  split_ifs <;> exact ⟨rfl, rfl, rfl⟩

theorem seek_same (n : Node) (f : File) (offset whence : ℤ) :
    (f.seek n offset whence).1.fs = f.fs ∧ (f.seek n offset whence).1.node = f.node := by
  unfold seek
  dsimp only
  split
  · exact ⟨rfl, rfl⟩
  · split_ifs <;> exact ⟨rfl, rfl⟩

theorem readDir_same (h : Heap) (f : File) (count : ℤ) :
    (f.readDir h count).1.fs = f.fs ∧ (f.readDir h count).1.node = f.node := by
  unfold readDir
  dsimp only
  split_ifs <;> exact ⟨rfl, rfl⟩

/-! ### What a call does -/

/-- The result of a call that changes the heap only when it succeeds. -/
def OnlyDone {α : Type} (h : Heap) (r : Heap × Except Fault α) : Prop :=
  ∀ e, r.2 = .error e → r.1 = h

/-- What `RenameAt` resolves its arguments to. -/
structure RenameArgs (h : Heap) (f : File) (oldName : Str) (newDir : Option File) (newName : Str)
    (odir : NodeId) (obase : Str) (ndir : NodeId) (nbase : Str) (n : NodeId) : Prop where
  old : h.resolve f.fs.root f.node oldName true = .ok (odir, obase)
  new : ∃ nd, f.otherDir h newDir = .ok nd ∧
    h.resolve f.fs.root nd newName true = .ok (ndir, nbase)
  entry : h.entry odir obase = some n

/-- What `RenameAt` has checked when it moves the entry of `n`. -/
structure Moves (h : Heap) (root ndir : NodeId) (nbase : Str) (n : NodeId) : Prop where
  fresh : h.entry ndir nbase ≠ some n
  target : ∀ t, h.entry ndir nbase = some t →
    h.isDir t = h.isDir n ∧ (h.isDir t = true → ∀ k, h.entry t k = none)
  outside : h.isDir n = true → h.subtreeLoop n root (h.next + 1) (some ndir) = .outside

/-- The heap after the move. -/
def Heap.moved (h : Heap) (odir : NodeId) (obase : Str) (ndir : NodeId) (nbase : Str) (n : NodeId)
    (now : ℤ) : Heap :=
  if h.isDir n then (h.setParent n ndir).moveEntry odir obase ndir nbase n now
  else h.moveEntry odir obase ndir nbase n now

theorem entry_none_of_length {h : Heap} {t : NodeId} (ht : ¬ 0 < (h.node t).entries.keys.length)
    (k : Str) : h.entry t k = none := by
  have hnil : (h.node t).entries.keys = [] := List.length_eq_zero_iff.mp (by omega)
  refine AList.lookup_eq_none.mpr fun hk => ?_
  rw [AList.mem_keys, hnil] at hk
  cases hk

theorem checkTarget_true {h : Heap} {n : NodeId} {target : Option NodeId}
    (hc : h.checkTarget n target = .ok true) : target = some n := by
  cases target with
  | none => cases hc
  | some t =>
    unfold Heap.checkTarget at hc
    dsimp only at hc
    split_ifs at hc with ht
    · exact congrArg some ht
    · cases hc

theorem checkTarget_false {h : Heap} {n : NodeId} {target : Option NodeId}
    (hc : h.checkTarget n target = .ok false) : target ≠ some n ∧ ∀ t, target = some t →
      h.isDir t = h.isDir n ∧ (h.isDir t = true → ∀ k, h.entry t k = none) := by
  cases target with
  | none => exact ⟨nofun, nofun⟩
  | some t =>
    unfold Heap.checkTarget at hc
    dsimp only at hc
    split_ifs at hc with h1 h2 h3 h4
    · cases hc
    refine ⟨fun he => h1 (Option.some.inj he), fun t' ht' => ?_⟩
    obtain rfl := Option.some.inj ht'
    refine ⟨?_, fun hd => entry_none_of_length fun hlen => h4 ?_⟩
    · revert h2 h3
      cases h.isDir n <;> cases h.isDir t <;> decide
    · rw [hd, Bool.true_and]
      exact decide_eq_true hlen

/-- The nodes that a call on `f` finds: its own, one that a name leads to, and their entries. -/
inductive File.Finds (h : Heap) (f : File) : NodeId → Prop
  | self : Finds h f f.node
  | name {name base : Str} {po : Bool} {n : NodeId}
      (hres : h.resolve f.fs.root f.node name po = .ok (n, base)) : Finds h f n
  | entry {n c : NodeId} {k : Str} (hn : Finds h f n) (he : h.entry n k = some c) : Finds h f c

/-- The directory of a name, and the last component. -/
def File.Parent (h : Heap) (f : File) (name : Str) (d : NodeId) (k : Str) : Prop :=
  h.resolve f.fs.root f.node name true = .ok (d, k)

/-- The same for the new name of `RenameAt` and `LinkAt`. -/
def File.NewParent (h : Heap) (f : File) (newDir : Option File) (newName : Str) (d : NodeId)
    (k : Str) : Prop :=
  ∃ nd, f.otherDir h newDir = .ok nd ∧ h.resolve f.fs.root nd newName true = .ok (d, k)

/-- The one change that a call on `f` makes, after it has looked everything up. If it puts an entry
somewhere, `P` holds of the place. -/
inductive Effect (h : Heap) (f : File) (now : ℤ) (P : NodeId → Str → Prop) : Heap → Prop
  | same : Effect h f now P h
  | create {d : NodeId} {k : Str} {n : Node} (hp : P d k) (hnone : h.entry d k = none)
      (hn : n.entries = ∅) (hpar : n.parent = if n.mode.isDir then some d else none) :
      Effect h f now P (((h.alloc n).setEntry d k h.next).touch d now)
  | remove {d c : NodeId} {k : Str} (hd : f.Finds h d) (he : h.entry d k = some c)
      (hempty : h.isDir c = true → ∀ k', h.entry c k' = none) :
      Effect h f now P ((h.delEntry d k).touch d now)
  | link {d c : NodeId} {k : Str} (hc : f.Finds h c) (hfile : h.isDir c = false) (hp : P d k)
      (hnone : h.entry d k = none) : Effect h f now P ((h.setEntry d k c).touch d now)
  | move {odir ndir n : NodeId} {obase nbase : Str} (ho : f.Finds h odir) (hp : P ndir nbase)
      (he : h.entry odir obase = some n) (hm : Moves h f.fs.root ndir nbase n) :
      Effect h f now P (h.moved odir obase ndir nbase n now)

/-- A call that makes one change when it succeeds. Only the loop of `RenameAt` may be endless. -/
structure Tries (h : Heap) (f : File) (now : ℤ) (P : NodeId → Str → Prop)
    (r : Heap × Except Fault Unit) : Prop where
  onlyDone : OnlyDone h r
  effect : Effect h f now P r.1
  ends : r.2 = .error .endless →
    ∃ d k n, P d k ∧ h.subtreeLoop n f.fs.root (h.next + 1) (some d) = .endless

section

variable {h h' : Heap} {f : File} {name : Str} {now : ℤ} {P : NodeId → Str → Prop}

theorem pathErr_ne (op : String) (e : SysErr) : pathErr op name e ≠ .endless :=
  fun h1 => by cases h1

theorem walkFault_ne (op : String) (e : Heap.WalkFault) : e.fault op name ≠ .endless := by
  cases e <;> exact fun h1 => by cases h1

theorem sameTree_openFound (h : Heap) (name : Str) (now : ℤ) (fs : FS) (n : NodeId) (flag : Flags) :
    Heap.SameTree h (h.openFound fs n name flag now).1 :=
  SameNode.sameTree (f := fun _ => _) (openNode_same _ _ _ _)

theorem Tries.error {e : Fault} (he : e ≠ .endless) : Tries h f now P (h, .error e) :=
  ⟨fun _ _ => rfl, .same, fun h1 => absurd (Except.error.inj h1) he⟩

theorem Tries.ok (he : Effect h f now P h') : Tries h f now P (h', .ok ()) :=
  ⟨fun _ h1 => (by cases h1), he, fun h1 => (by cases h1)⟩

theorem mkdirAt_tries (hP : ∀ d k, f.Parent h name d k → P d k) (perm : FileMode) (now : ℤ) :
    Tries h f now P (f.mkdirAt h name perm now) := by
  unfold mkdirAt
  split
  · exact .error (walkFault_ne _ _)
  · rename_i dir base hres
    split
    · exact .error (pathErr_ne _ _)
    · rename_i hnone
      exact .ok (.create (hP _ _ hres) hnone rfl (by rw [isDir_dirMode]; rfl))

theorem rmdirAt_tries (h : Heap) (f : File) (name : Str) (now : ℤ) :
    Tries h f now P (f.rmdirAt h name now) := by
  unfold rmdirAt
  split
  · exact .error (walkFault_ne _ _)
  · rename_i dir base hres
    split
    · exact .error (pathErr_ne _ _)
    · rename_i n he
      split_ifs with hd hlen
      · exact .error (pathErr_ne _ _)
      · exact .error (pathErr_ne _ _)
      · exact .ok (.remove (.name hres) he fun _ => entry_none_of_length hlen)

theorem unlinkAt_tries (h : Heap) (f : File) (name : Str) (now : ℤ) :
    Tries h f now P (f.unlinkAt h name now) := by
  unfold unlinkAt
  split
  · exact .error (walkFault_ne _ _)
  · rename_i dir base hres
    split
    · exact .error (pathErr_ne _ _)
    · rename_i n he
      split_ifs with hd
      · exact .error (pathErr_ne _ _)
      · exact .ok (.remove (.name hres) he fun hd' => absurd hd' hd)

/-- **`LinkAt`** fails, or has found a regular file and a free name. -/
theorem linkAt_cases (h : Heap) (f : File) (oldName : Str) (newDir : Option File) (newName : Str)
    (now : ℤ) :
    (∃ e, e ≠ .endless ∧ f.linkAt h oldName newDir newName now = (h, .error e)) ∨
    ∃ n base ndir nbase, h.resolve f.fs.root f.node oldName false = .ok (n, base) ∧
      h.isDir n = false ∧ f.NewParent h newDir newName ndir nbase ∧ h.entry ndir nbase = none ∧
      f.linkAt h oldName newDir newName now = ((h.setEntry ndir nbase n).touch ndir now, .ok ()) := by
  unfold linkAt
  split
  · exact .inl ⟨_, pathErr_ne _ _, rfl⟩
  rename_i nd hnd
  split
  · exact .inl ⟨_, walkFault_ne _ _, rfl⟩
  rename_i n base hold
  split_ifs with hd
  · exact .inl ⟨_, pathErr_ne _ _, rfl⟩
  split
  · exact .inl ⟨_, walkFault_ne _ _, rfl⟩
  rename_i ndir nbase hnew
  split
  · exact .inl ⟨_, pathErr_ne _ _, rfl⟩
  rename_i hnone
  exact .inr ⟨n, base, ndir, nbase, hold, by simpa using hd, ⟨nd, hnd, hnew⟩, hnone, rfl⟩

theorem linkAt_tries {newDir : Option File} {newName : Str}
    (hP : ∀ d k, f.NewParent h newDir newName d k → P d k) (oldName : Str) (now : ℤ) :
    Tries h f now P (f.linkAt h oldName newDir newName now) := by
  obtain ⟨e, hne, heq⟩ | ⟨n, base, ndir, nbase, hold, hfile, hnew, hnone, heq⟩ :=
    linkAt_cases h f oldName newDir newName now
  · exact heq ▸ .error hne
  · exact heq ▸ .ok (.link (.name hold) hfile (hP _ _ hnew) hnone)

/-- **`RenameAt`** fails, or moves an entry, unless it is at its place already. -/
theorem renameAt_cases (h : Heap) (f : File) (oldName : Str) (newDir : Option File) (newName : Str)
    (now : ℤ) :
    (∃ e, f.renameAt h oldName newDir newName now = (h, .error e) ∧ (e = .endless →
      ∃ ndir nbase n, f.NewParent h newDir newName ndir nbase ∧
        h.subtreeLoop n f.fs.root (h.next + 1) (some ndir) = .endless)) ∨
    ∃ odir obase ndir nbase n, RenameArgs h f oldName newDir newName odir obase ndir nbase n ∧
      ((h.entry ndir nbase = some n ∧ f.renameAt h oldName newDir newName now = (h, .ok ())) ∨
        (Moves h f.fs.root ndir nbase n ∧ f.renameAt h oldName newDir newName now =
          (h.moved odir obase ndir nbase n now, .ok ()))) := by
  unfold renameAt
  split
  · exact .inl ⟨_, rfl, fun h1 => absurd h1 (pathErr_ne _ _)⟩
  rename_i nd hnd
  split
  · exact .inl ⟨_, rfl, fun h1 => absurd h1 (walkFault_ne _ _)⟩
  rename_i odir obase hold
  split
  · exact .inl ⟨_, rfl, fun h1 => absurd h1 (walkFault_ne _ _)⟩
  rename_i ndir nbase hnew
  split
  · exact .inl ⟨_, rfl, fun h1 => absurd h1 (pathErr_ne _ _)⟩
  rename_i n hn
  have ha : RenameArgs h f oldName newDir newName odir obase ndir nbase n :=
    ⟨hold, ⟨nd, hnd, hnew⟩, hn⟩
  split
  · exact .inl ⟨_, rfl, fun h1 => absurd h1 (pathErr_ne _ _)⟩
  · rename_i hc
    exact .inr ⟨odir, obase, ndir, nbase, n, ha, .inl ⟨checkTarget_true hc, rfl⟩⟩
  · rename_i hc
    obtain ⟨hfresh, htarget⟩ := checkTarget_false hc
    by_cases hd : h.isDir n = true
    · rw [if_pos hd]
      cases hend : h.subtreeLoop n f.fs.root (h.next + 1) (some ndir) with
      | inside => exact .inl ⟨_, rfl, fun h1 => absurd h1 (pathErr_ne _ _)⟩
      | nil => exact .inl ⟨_, rfl, fun h1 => by cases h1⟩
      | endless => exact .inl ⟨_, rfl, fun _ => ⟨ndir, nbase, n, ha.new, hend⟩⟩
      | outside =>
        refine .inr ⟨odir, obase, ndir, nbase, n, ha, .inr ⟨⟨hfresh, htarget, fun _ => hend⟩, ?_⟩⟩
        rw [moved, if_pos hd]
    · refine .inr ⟨odir, obase, ndir, nbase, n, ha,
        .inr ⟨⟨hfresh, htarget, fun hd' => absurd hd' hd⟩, ?_⟩⟩
      rw [if_neg hd, moved, if_neg hd]

theorem renameAt_tries {newDir : Option File} {newName : Str}
    (hP : ∀ d k, f.NewParent h newDir newName d k → P d k) (oldName : Str) (now : ℤ) :
    Tries h f now P (f.renameAt h oldName newDir newName now) := by
  obtain ⟨e, heq, hend⟩ | ⟨odir, obase, ndir, nbase, n, ha, ⟨-, heq⟩ | ⟨hm, heq⟩⟩ :=
    renameAt_cases h f oldName newDir newName now
  · rw [heq]
    refine ⟨fun _ _ => rfl, .same, fun h1 => ?_⟩
    obtain ⟨d, k, n, hp, hloop⟩ := hend (Except.error.inj h1)
    exact ⟨d, k, n, hP d k hp, hloop⟩
  · exact heq ▸ .ok .same
  · exact heq ▸ .ok (.move (.name ha.old) (hP _ _ ha.new) ha.entry hm)

theorem renameAt_ok {oldName newName : Str} {newDir : Option File}
    (hr : f.renameAt h oldName newDir newName now = (h', .ok ())) :
    ∃ odir obase ndir nbase n, RenameArgs h f oldName newDir newName odir obase ndir nbase n ∧
      ((h.entry ndir nbase = some n ∧ h' = h) ∨
        (Moves h f.fs.root ndir nbase n ∧ h' = h.moved odir obase ndir nbase n now)) := by
  obtain ⟨e, heq, -⟩ | ⟨odir, obase, ndir, nbase, n, ha, hcases⟩ :=
    renameAt_cases h f oldName newDir newName now
  · cases hr.symm.trans heq
  · refine ⟨odir, obase, ndir, nbase, n, ha, hcases.imp ?_ ?_⟩
    · exact fun hs => ⟨hs.1, (Prod.mk.inj (hr.symm.trans hs.2)).1⟩
    · exact fun hm => ⟨hm.1, (Prod.mk.inj (hr.symm.trans hm.2)).1⟩

/-- **`OpenAt`** fails, finds a node, or creates one. -/
theorem openAt_cases (h : Heap) (f : File) (name : Str) (flag : Flags) (perm : FileMode) (now : ℤ) :
    (∃ e, e ≠ .endless ∧ f.openAt h name flag perm now = (h, .error e)) ∨
    (∃ n, f.Finds h n ∧ f.openAt h name flag perm now = h.openFound f.fs n name flag now) ∨
    ∃ d k, flag.creat = true ∧ f.Parent h name d k ∧ h.entry d k = none ∧
      f.openAt h name flag perm now =
        (((h.newFile (perm.perm ||| 0o600) now).setEntry d k h.next).touch d now).openFound f.fs
          h.next name flag now := by
  unfold openAt
  by_cases hcreat : flag.creat = true
  · rw [if_pos hcreat]
    split
    · exact .inl ⟨_, walkFault_ne _ _, rfl⟩
    · rename_i dir base hres
      split
      · rename_i existing he
        split_ifs
        · exact .inl ⟨_, pathErr_ne _ _, rfl⟩
        · exact .inr (.inl ⟨existing, .entry (.name hres) he, rfl⟩)
      · rename_i hnone
        exact .inr (.inr ⟨dir, base, hcreat, hres, hnone, rfl⟩)
  · rw [if_neg hcreat]
    split
    · exact .inl ⟨_, walkFault_ne _ _, rfl⟩
    · rename_i n base hres
      exact .inr (.inl ⟨n, .name hres, rfl⟩)

theorem openAt_effect (h : Heap) (f : File) (name : Str) (flag : Flags) (perm : FileMode)
    (now : ℤ) : ∃ h', Effect h f now (fun d k => flag.creat = true ∧ f.Parent h name d k) h' ∧
      Heap.SameTree h' (f.openAt h name flag perm now).1 := by
  obtain ⟨e, -, heq⟩ | ⟨n, -, heq⟩ | ⟨d, k, hcreat, hp, hnone, heq⟩ :=
    openAt_cases h f name flag perm now
  · exact ⟨h, .same, heq ▸ ⟨rfl, rfl, rfl, rfl⟩⟩
  · exact ⟨h, .same, heq ▸ sameTree_openFound h name now f.fs n flag⟩
  · exact ⟨_, .create ⟨hcreat, hp⟩ hnone rfl (by rw [isDir_fileMode]; rfl),
      heq ▸ sameTree_openFound _ name now f.fs h.next flag⟩

theorem openFound_onlyDone (h : Heap) (name : Str) (now : ℤ) (fs : FS) (n : NodeId) (flag : Flags) :
    OnlyDone h (h.openFound fs n name flag now) := by
  intro e he
  unfold openFound openNode at he ⊢
  dsimp only at he ⊢
  split_ifs at he ⊢
  exact h.modify_node n

theorem openFound_file {fs : FS} {n : NodeId} (hn : h.isDir n = false) (name : Str) (now : ℤ)
    (flag : Flags) (e : Fault) : (h.openFound fs n name flag now).2 ≠ .error e := by
  have hmode : (h.node n).mode.isDir = false := hn
  unfold openFound openNode
  simp only [hmode, Bool.false_eq_true, if_false]
  split_ifs <;> exact fun he => by cases he

theorem openAt_onlyDone (h : Heap) (f : File) (name : Str) (flag : Flags) (perm : FileMode)
    (now : ℤ) : OnlyDone h (f.openAt h name flag perm now) := by
  obtain ⟨e, -, heq⟩ | ⟨n, -, heq⟩ | ⟨d, k, -, -, -, heq⟩ := openAt_cases h f name flag perm now
  · exact heq ▸ fun _ _ => rfl
  · exact heq ▸ openFound_onlyDone h name now f.fs n flag
  · rw [heq]
    refine fun e he => absurd he (openFound_file ?_ name now flag e)
    rw [(sameTree_touch _ _ _).isDir, isDir_setEntry, newFile, isDir_alloc, if_pos rfl]
    exact isDir_fileMode perm

theorem statAt_ne (h : Heap) (f : File) (name : Str) : f.statAt h name ≠ .error .endless := by
  unfold statAt
  split
  · exact fun h1 => walkFault_ne _ _ (Except.error.inj h1)
  · exact fun h1 => by cases h1

end

section

variable {w : World}

/-! ### Calls on the content of a file -/

/-- The handle of a call that reads or writes the data, the times or the offset of a file. -/
def Call.content : Call → Option ℕ
  | .readAt i .. | .read i .. | .writeAt i .. | .write i .. | .seek i .. | .truncate i .. | .stat i
  | .statAt i .. | .readDir i .. | .chtimes i .. | .chtimesAt i .. => some i
  | _ => none

/-- A call on `f` changes the data and the times of a node, and the offsets of a handle. -/
structure OnContent (w : World) (f : File) (r : World × Ans) : Prop where
  node : ∃ i g, f.Finds w.heap i ∧ SameNode (w.heap.node i) (g (w.heap.node i)) ∧
    r.1.heap = w.heap.modify i g
  files : ∀ f' ∈ r.1.files, f' ∈ w.files ∨ f'.fs = f.fs ∧ f'.node = f.node
  fss : r.1.fss = w.fss
  ends : r.2 ≠ .fault .endless

section

variable {f : File} {a : Ans}

theorem OnContent.keep (f : File) (ha : a ≠ .fault .endless) : OnContent w f (w, a) := by
  refine ⟨⟨f.node, fun _ => w.heap.node f.node, .self, ⟨rfl, rfl, rfl⟩, ?_⟩, fun _ => .inl, rfl, ha⟩
  exact (w.heap.modify_node f.node).symm

theorem OnContent.setNode {n : Node} (hs : SameNode (w.nodeOf f) n) (ha : a ≠ .fault .endless) :
    OnContent w f (w.setNode f.node n, a) :=
  ⟨⟨f.node, fun _ => n, .self, hs, rfl⟩, fun _ => .inl, rfl, ha⟩

theorem OnContent.setFile {w' : World} (h : OnContent w f (w', a)) (i : ℕ) {g : File}
    (hg : g.fs = f.fs ∧ g.node = f.node) : OnContent w f (w'.setFile i g, a) := by
  refine ⟨h.node, fun f' hf' => ?_, h.fss, h.ends⟩
  rcases List.mem_or_eq_of_mem_set hf' with hold | rfl
  · exact h.files f' hold
  · exact .inr hg

theorem OnContent.touch {i : NodeId} (hi : f.Finds w.heap i) (mtime : ℤ) :
    OnContent w f ({ w with heap := w.heap.touch i mtime }, .done) :=
  ⟨⟨i, fun n => { n with modTime := mtime }, hi, ⟨rfl, rfl, rfl⟩, rfl⟩, fun _ => .inl, rfl, nofun⟩

theorem OnContent.chtimesAt (name : Str) (mtime : ℤ) :
    OnContent w f (w.result (f.chtimesAt w.heap name mtime)) := by
  unfold File.chtimesAt
  split
  · exact .keep f fun h1 => walkFault_ne _ _ (Ans.fault.inj h1)
  · rename_i n base hres
    exact .touch (.name hres) mtime

end

theorem call_content {c : Call} {i : ℕ} (hc : c.content = some i) {r : World × Ans}
    (hr : w.call c = some r) : ∃ f, w.files[i]? = some f ∧ OnContent w f r := by
  cases c
  case new | clone | addTar | openPath | openAt | mkdirAt | rmdirAt | unlinkAt | renameAt
    | linkAt => cases hc
  all_goals
    obtain rfl := Option.some.inj hc
    obtain ⟨f, hf, rfl⟩ := map_eq_some_iff.mp hr
    refine ⟨f, hf, ?_⟩
  case readAt | stat => exact .keep f nofun
  case read =>
    refine .setFile (.keep f ?_) _ ⟨rfl, rfl⟩
    nofun
  case writeAt =>
    split
    · exact .keep f nofun
    · rename_i r hwrite
      exact .setNode (writeAt_same hwrite) nofun
  case write =>
    split
    · exact .keep f nofun
    · rename_i r hwrite
      obtain ⟨hs, hg⟩ := write_same hwrite
      refine .setFile (.setNode hs ?_) _ hg
      nofun
  case seek =>
    refine .setFile (.keep f ?_) _ (seek_same ..)
    split <;> nofun
  case truncate =>
    refine .setNode (truncate_same ..) ?_
    split <;> nofun
  case statAt name =>
    refine .keep f ?_
    split
    · nofun
    · rename_i e he
      exact fun h1 => statAt_ne w.heap f name (Ans.fault.inj h1 ▸ he)
  case readDir =>
    refine .setFile (.keep f ?_) _ (readDir_same ..)
    split <;> nofun
  case chtimes mtime => exact .touch .self mtime
  case chtimesAt name mtime => exact .chtimesAt name mtime

/-! ### Calls on names -/

namespace World

/-- The root and the directory of a name, without its last component. -/
def parentDir (w : World) (f : File) (dir : NodeId) (name : Str) : Option (NodeId × NodeId) :=
  match w.heap.resolve f.fs.root dir name true with
  | .ok (d, _) => some (f.fs.root, d)
  | .error _ => none

/-- The directory of the new name of `RenameAt` and `LinkAt`. -/
def newParentDir (w : World) (f : File) (nd : Option File) (newName : Str) :
    Option (NodeId × NodeId) :=
  match f.otherDir w.heap nd with
  | .ok dir => w.parentDir f dir newName
  | .error _ => none

/-- The directory into which a call puts an entry, if it succeeds, with the root above it. -/
def enters (w : World) : Call → Option (NodeId × NodeId)
  | .openAt i name flag _ _ =>
    w.files[i]?.bind fun f => if flag.creat then w.parentDir f f.node name else none
  | .mkdirAt i name _ _ => w.files[i]?.bind fun f => w.parentDir f f.node name
  | .renameAt i _ newDir newName _ =>
    w.files[i]?.bind fun f => (w.otherFile newDir).bind fun nd => w.newParentDir f nd newName
  | .linkAt i _ newDir newName _ =>
    w.files[i]?.bind fun f => (w.otherFile newDir).bind fun nd => w.newParentDir f nd newName
  | _ => none

end World

/-- The handle of a call that creates, removes or moves entries. -/
def Call.names : Call → Option ℕ
  | .mkdirAt i .. | .rmdirAt i .. | .unlinkAt i .. | .renameAt i .. | .linkAt i .. => some i
  | _ => none

/-- A place that a call on `f` may put an entry into, found from a handle of the same filesystem. -/
structure World.Enters (w : World) (c : Call) (f : File) (d : NodeId) (k : Str) : Prop where
  found : ∃ g ∈ w.files, g.fs = f.fs ∧ ∃ name, g.Parent w.heap name d k
  enters : (f.fs.root, d) ∈ w.enters c

section

variable {f : File} {name : Str} {d dir : NodeId} {k : Str}

theorem World.mem_parentDir (hp : w.heap.resolve f.fs.root dir name true = .ok (d, k)) :
    (f.fs.root, d) ∈ w.parentDir f dir name := by
  unfold World.parentDir
  rw [hp]
  rfl

theorem otherDir_eq {h : Heap} {newDir : Option File} {nd : NodeId}
    (ho : f.otherDir h newDir = .ok nd) : ∃ g, newDir = some g ∧ g.fs = f.fs ∧ g.node = nd := by
  cases newDir with
  | none => cases ho
  | some g =>
    unfold otherDir at ho
    dsimp only at ho
    split_ifs at ho with hfs hdir
    exact ⟨g, rfl, not_not.mp hfs, Except.ok.inj ho⟩

/-- The directory argument is a file of another implementation or a handle. -/
theorem World.mem_of_otherFile {j : Option ℕ} {g : File} (hj : w.otherFile j = some (some g)) :
    g ∈ w.files := by
  cases j with
  | none => cases hj
  | some j =>
    obtain ⟨g', hg', h1⟩ := map_eq_some_iff.mp hj
    obtain rfl := Option.some.inj h1
    exact List.mem_of_getElem? hg'

theorem World.found_newParent {j : Option ℕ} {nd : Option File} (hj : w.otherFile j = some nd)
    (hp : f.NewParent w.heap nd name d k) :
    (∃ g ∈ w.files, g.fs = f.fs ∧ ∃ name, g.Parent w.heap name d k) ∧
      (f.fs.root, d) ∈ w.newParentDir f nd name := by
  obtain ⟨dir, hdir, hres⟩ := hp
  obtain ⟨g, rfl, hfs, rfl⟩ := otherDir_eq hdir
  refine ⟨⟨g, mem_of_otherFile hj, hfs, name, ?_⟩, ?_⟩
  · rw [← hfs] at hres
    exact hres
  · unfold World.newParentDir
    rw [hdir]
    exact mem_parentDir hres

end

theorem call_names {c : Call} {i : ℕ} (hc : c.names = some i) {x : World × Ans}
    (hx : w.call c = some x) : ∃ f r now, w.files[i]? = some f ∧ x = w.result r ∧
      Tries w.heap f now (w.Enters c f) r := by
  cases c
  case mkdirAt j name perm now =>
    obtain rfl := Option.some.inj hc
    obtain ⟨f, hf, rfl⟩ := map_eq_some_iff.mp hx
    refine ⟨f, _, now, hf, rfl, mkdirAt_tries (fun d k hp => ?_) perm now⟩
    refine ⟨⟨f, List.mem_of_getElem? hf, rfl, name, hp⟩, ?_⟩
    simp only [World.enters, hf, bind_some]
    exact World.mem_parentDir hp
  case rmdirAt j name now =>
    obtain rfl := Option.some.inj hc
    obtain ⟨f, hf, rfl⟩ := map_eq_some_iff.mp hx
    exact ⟨f, _, now, hf, rfl, rmdirAt_tries w.heap f name now⟩
  case unlinkAt j name now =>
    obtain rfl := Option.some.inj hc
    obtain ⟨f, hf, rfl⟩ := map_eq_some_iff.mp hx
    exact ⟨f, _, now, hf, rfl, unlinkAt_tries w.heap f name now⟩
  case renameAt j oldName newDir newName now =>
    obtain rfl := Option.some.inj hc
    obtain ⟨f, hf, hx⟩ := bind_eq_some_iff.mp hx
    obtain ⟨nd, hnd, hx⟩ := bind_eq_some_iff.mp hx
    refine ⟨f, _, now, hf, (Option.some.inj hx).symm, renameAt_tries (fun d k hp => ?_) oldName now⟩
    obtain ⟨hfound, henters⟩ := World.found_newParent hnd hp
    exact ⟨hfound, by simpa only [World.enters, hf, hnd, bind_some] using henters⟩
  case linkAt j oldName newDir newName now =>
    obtain rfl := Option.some.inj hc
    obtain ⟨f, hf, hx⟩ := bind_eq_some_iff.mp hx
    obtain ⟨nd, hnd, hx⟩ := bind_eq_some_iff.mp hx
    refine ⟨f, _, now, hf, (Option.some.inj hx).symm, linkAt_tries (fun d k hp => ?_) oldName now⟩
    obtain ⟨hfound, henters⟩ := World.found_newParent hnd hp
    exact ⟨hfound, by simpa only [World.enters, hf, hnd, bind_some] using henters⟩
  all_goals cases hc

/-! ### Failures -/

/-- The calls that look up names to open, create, remove or move entries. -/
def Call.onNames : Call → Bool
  | .openAt .. | .mkdirAt .. | .rmdirAt .. | .unlinkAt .. | .renameAt .. | .linkAt .. => true
  | _ => false

section

variable {w' : World} {e : Fault}

theorem World.result_fault {r : Heap × Except Fault Unit} (hr : OnlyDone w.heap r)
    (hw : w.result r = (w', .fault e)) : w' = w := by
  obtain ⟨rfl, ha⟩ := Prod.mk.inj hw
  split at ha
  · cases ha
  · rename_i e' he
    rw [hr e' he]

theorem World.result_done {r : Heap × Except Fault Unit} (hw : w.result r = (w', .done)) :
    r = (r.1, .ok ()) ∧ w' = { w with heap := r.1 } := by
  obtain ⟨rfl, ha⟩ := Prod.mk.inj hw
  refine ⟨Prod.ext rfl ?_, rfl⟩
  split at ha
  · assumption
  · cases ha

theorem World.addFile_fault {r : Heap × Except Fault File} (hr : OnlyDone w.heap r)
    (hw : w.addFile r = (w', .fault e)) : w' = w := by
  unfold World.addFile at hw
  split at hw
  · cases hw
  · rename_i e' he
    obtain ⟨rfl, -⟩ := Prod.mk.inj hw
    rw [hr e' he]

/-- **A failed call changes nothing.** -/
theorem failed_unchanged {c : Call} (hc : c.onNames = true)
    (hw : worldSystem.step w c = some (w', .fault e)) : w' = w := by
  change w.call c = _ at hw
  cases c with
  | openAt i name flag perm now =>
    obtain ⟨f, -, hw⟩ := map_eq_some_iff.mp hw
    exact World.addFile_fault (openAt_onlyDone w.heap f name flag perm now) hw
  | mkdirAt | rmdirAt | unlinkAt | renameAt | linkAt =>
    obtain ⟨f, r, now, -, hr, ht⟩ := call_names rfl hw
    exact World.result_fault ht.onlyDone hr.symm
  | _ => cases hc

/-- A directory is not moved below itself. -/
theorem failed_unchanged_subtree : ∃ w w', worldSystem.Reachable w ∧
    worldSystem.step w (.renameAt 0 [97] (some 0) [97, 47, 98] 7) =
      some (w', .fault (pathErr "rename" [97, 47, 98] .EINVAL)) ∧ w' = w := by
  have hr := @System.reachable_of_exec _ _ _ worldSystem .empty _
    [.new 0, .openPath 0 [46] 0, .mkdirAt 0 [97] 0 0] _ rfl rfl
  refine ⟨_, _, hr, rfl, ?_⟩
  exact failed_unchanged (c := .renameAt 0 [97] (some 0) [97, 47, 98] 7) rfl rfl

end

section

variable {h h' : Heap} {f : File} {oldName newName : Str} {newDir : Option File} {now : ℤ}

theorem RenameArgs.unique {odir odir' ndir ndir' n n' : NodeId} {obase obase' nbase nbase' : Str}
    (ha : RenameArgs h f oldName newDir newName odir obase ndir nbase n)
    (hb : RenameArgs h f oldName newDir newName odir' obase' ndir' nbase' n') :
    odir' = odir ∧ obase' = obase ∧ ndir' = ndir ∧ nbase' = nbase ∧ n' = n := by
  obtain ⟨nd, hnd, hnew⟩ := ha.new
  obtain ⟨nd', hnd', hnew'⟩ := hb.new
  obtain rfl := Except.ok.inj (hnd.symm.trans hnd')
  obtain ⟨rfl, rfl⟩ := Prod.mk.inj (Except.ok.inj (ha.old.symm.trans hb.old))
  obtain ⟨rfl, rfl⟩ := Prod.mk.inj (Except.ok.inj (hnew.symm.trans hnew'))
  exact ⟨rfl, rfl, rfl, rfl, Option.some.inj (hb.entry.symm.trans ha.entry)⟩

end

end

end PgZero.Memfs
