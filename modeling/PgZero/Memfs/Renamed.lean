import PgZero.Memfs.Unpack
import PgZero.Memfs.WorldTree

/-!
# After a rename

A whole subtree moves by one entry and one parent. What lies below the moved node is out of reach of
both directories, so that the walks from it are as before.

* **`walk_moved`**: ordinary names lead from `n` to the same nodes.
* **`rename_semantics`**: all of it, for a successful `RenameAt` in any world.
-/

set_option autoImplicit false

namespace PgZero.Memfs

open Lib GoPath Heap

/-! ### The moved entry -/

section

variable (h : Heap) (odir : NodeId) (obase : Str) (ndir : NodeId) (nbase : Str) (n : NodeId)
  (now : ℤ)

theorem sameTree_moved : Heap.SameTree
    (((if h.isDir n then h.setParent n ndir else h).delEntry odir obase).setEntry ndir nbase n)
    (h.moved odir obase ndir nbase n now) := by
  unfold moved
  split_ifs
  · exact sameTree_moveEntry _ odir obase ndir nbase n now
  · exact sameTree_moveEntry _ odir obase ndir nbase n now

theorem next_moved : (h.moved odir obase ndir nbase n now).next = h.next := by
  rw [(sameTree_moved h odir obase ndir nbase n now).next]
  split_ifs <;> rfl

theorem isDir_moved : (h.moved odir obase ndir nbase n now).isDir = h.isDir := by
  funext i
  rw [(sameTree_moved h odir obase ndir nbase n now).isDir, isDir_setEntry,
    isDir_delEntry]
  split_ifs
  · exact h.isDir_setParent n ndir i
  · rfl

theorem entry_moved (d : NodeId) (k : Str) :
    (h.moved odir obase ndir nbase n now).entry d k =
      if d = ndir ∧ k = nbase then some n else if d = odir ∧ k = obase then none
      else h.entry d k := by
  have hbefore : (if h.isDir n then h.setParent n ndir else h).entry d k = h.entry d k := by
    split_ifs
    · exact h.entry_setParent n ndir d k
    · rfl
  rw [(sameTree_moved h odir obase ndir nbase n now).entry, entry_setEntry,
    entry_delEntry, hbefore]

theorem parent_moved : (h.moved odir obase ndir nbase n now).parent =
    if h.isDir n then Function.update h.parent n (some ndir) else h.parent := by
  rw [(sameTree_moved h odir obase ndir nbase n now).parent, parent_setEntry,
    parent_delEntry]
  split_ifs
  · exact h.parent_setParent n ndir
  · rfl

end

/-- Two heaps with the same contents and modes. -/
def Heap.SameData (h h' : Heap) : Prop :=
  ∀ i, (h'.node i).data = (h.node i).data ∧ (h'.node i).mode = (h.node i).mode

theorem Heap.SameData.trans {h1 h2 h3 : Heap} (a : SameData h1 h2) (b : SameData h2 h3) :
    SameData h1 h3 :=
  fun i => ⟨(b i).1.trans (a i).1, (b i).2.trans (a i).2⟩

theorem Heap.sameData_modify (h : Heap) (j : NodeId) (f : Node → Node)
    (hd : ∀ n, (f n).data = n.data) (hm : ∀ n, (f n).mode = n.mode) :
    SameData h (h.modify j f) := by
  intro i
  rw [node_modify]
  split_ifs
  · exact ⟨hd _, hm _⟩
  · exact ⟨rfl, rfl⟩

theorem sameData_moveEntry (h : Heap) (odir : NodeId) (obase : Str) (ndir : NodeId) (nbase : Str)
    (n : NodeId) (now : ℤ) : Heap.SameData h (h.moveEntry odir obase ndir nbase n now) := by
  have hdel : Heap.SameData h (h.delEntry odir obase) :=
    sameData_modify _ _ _ (fun _ => rfl) fun _ => rfl
  have hset : ∀ h1 : Heap, Heap.SameData h1 (h1.setEntry ndir nbase n) := fun h1 =>
    sameData_modify _ _ _ (fun _ => rfl) fun _ => rfl
  have htouch : ∀ (h1 : Heap) i, Heap.SameData h1 (h1.touch i now) := fun h1 i =>
    h1.sameData_modify i _ (fun _ => rfl) fun _ => rfl
  exact ((hdel.trans (hset _)).trans (htouch _ odir)).trans (htouch _ ndir)

theorem sameData_moved (h : Heap) (odir : NodeId) (obase : Str) (ndir : NodeId) (nbase : Str)
    (n : NodeId) (now : ℤ) : Heap.SameData h (h.moved odir obase ndir nbase n now) := by
  unfold moved
  split_ifs
  · have hpar : Heap.SameData h (h.setParent n ndir) :=
      h.sameData_modify _ _ (fun _ => rfl) fun _ => rfl
    exact hpar.trans (sameData_moveEntry _ odir obase ndir nbase n now)
  · exact sameData_moveEntry h odir obase ndir nbase n now

/-! ### Below the moved node -/

section

variable {h h' : Heap} {R : NodeId → Prop} {r n : NodeId}

/-- The nodes that ordinary names lead to from `n`. -/
def Heap.Under (h : Heap) (n d : NodeId) : Prop := ∃ ps, h.find n ps = some d

theorem Heap.Under.step {d c : NodeId} {k : Str} (hu : h.Under n d) (hd : h.isDir d = true)
    (he : h.entry d k = some c) : h.Under n c := by
  obtain ⟨ps, hps⟩ := hu
  exact ⟨ps ++ [k], (find_snoc hps hd).trans he⟩

theorem find_climbs (ht : TreeInv h R) {d m : NodeId} (ps : List Str) (hd : Climbs h.parent n d)
    (hf : h.find d ps = some m) (hm : h.isDir m = true) : Climbs h.parent n m := by
  induction ps generalizing d with
  | nil =>
    obtain rfl := Option.some.inj hf
    exact hd
  | cons p ps ih =>
    obtain ⟨-, hf⟩ := Option.ite_none_right_eq_some.mp hf
    obtain ⟨c, hc, hf⟩ := Option.bind_eq_some_iff.mp hf
    by_cases hcd : h.isDir c = true
    · exact ih (.step (ht.childDir d p c hc hcd) hd) hf
    · -- a file has nothing below it but itself
      cases ps with
      | nil =>
        obtain rfl := Option.some.inj hf
        exact absurd hm hcd
      | cons q qs =>
        rw [find, if_neg hcd] at hf
        cases hf

theorem Heap.Under.climbs (ht : TreeInv h R) {d : NodeId} (hu : h.Under n d)
    (hd : h.isDir d = true) : Climbs h.parent n d := by
  obtain ⟨ps, hps⟩ := hu
  exact find_climbs ht ps .refl hps hd

theorem TreeInv.isDir_of_climbs (ht : TreeInv h R) {d : NodeId} (hc : Climbs h.parent n d)
    (hlt : d < h.next) (hd : h.isDir d = true) : h.isDir n = true := by
  induction hc with
  | refl => exact hd
  | step hp _ ih =>
    obtain ⟨h1, h2⟩ := ht.parentDir _ _ hlt hd hp
    exact ih h1 h2

/-- Walks along ordinary names see the entries of the directories on the way only. -/
theorem walk_congr {d : NodeId} {ps : List Str} (hp : ∀ p ∈ ps, Plain p) (hu : h.Under n d)
    (hdir : h'.isDir = h.isDir)
    (hent : ∀ c k, h.Under n c → h.isDir c = true → h'.entry c k = h.entry c k) :
    h'.walk r (some d) ps = h.walk r (some d) ps := by
  induction ps generalizing d with
  | nil => rfl
  | cons p ps ih =>
    have hp0 := hp p List.mem_cons_self
    have hps := fun q hq => hp q (List.mem_cons_of_mem p hq)
    rw [walk, walk]
    by_cases hd : h.isDir d = true
    · have hd' : h'.isDir d = true := by rw [hdir]; exact hd
      have he := hent d p hu hd
      cases hc : h.entry d p with
      | none =>
        rw [walkStep_missing hp0 hd hc, walkStep_missing hp0 hd' (he.trans hc)]
      | some c =>
        rw [walkStep_found hp0 hd hc, walkStep_found hp0 hd' (he.trans hc)]
        exact ih hps (hu.step hd hc)
    · have hf : h.isDir d = false := by simpa using hd
      rw [walkStep_file hp0 hf, walkStep_file hp0 (by rw [hdir]; exact hf)]

theorem resolve_dotdot {d : NodeId} (hn : n ≠ r) (hp : h.parent n = some d)
    (hd : h.isDir d = true) : h.resolve r n GoPath.dotdot false = .ok (d, []) := by
  have hsplit : GoPath.split GoPath.dotdot = [GoPath.dotdot] := by decide
  have hwalk : h.walk r (some n) [GoPath.dotdot] = .ok (some d) := by
    have hcur : some n ≠ some r := fun h1 => hn (Option.some.inj h1)
    rw [walk, walkStep, if_neg (by decide), if_pos rfl, if_neg hcur]
    dsimp only
    rw [hp]
    rfl
  have habs : GoPath.isAbs GoPath.dotdot = false := by decide
  simp [resolve, Heap.components, habs, hsplit, hwalk, hd]

variable {odir ndir : NodeId} {obase nbase : Str}

theorem not_climbs_odir (ht : TreeInv h R) (hr : R r) (hb : Below h r odir)
    (he : h.entry odir obase = some n) : ¬ Climbs h.parent n odir := by
  intro hc
  have hd : h.isDir n = true := ht.isDir_of_climbs hc hb.lt (ht.child odir obase n he).2.1
  have hn : Climbs h.parent r n := (ht.entry_below hb he).climbs hd
  obtain rfl := hn.eq_root_of_parent_climbs (ht.root r hr).2.2 (ht.childDir odir obase n he hd) hc
  exact ht.rootFree n hr odir obase he

theorem not_climbs_ndir (ht : TreeInv h R) (hr : R r) (hb : Below h r ndir)
    (hnd : h.isDir ndir = true) (hm : Moves h r ndir nbase n) : ¬ Climbs h.parent n ndir := by
  intro hc
  have hd : h.isDir n = true := ht.isDir_of_climbs hc hb.lt hnd
  rcases subtreeLoop_ends (n := n) ht hb hnd with hend | ⟨-, hav⟩
  · rw [hm.outside hd] at hend
    cases hend
  · exact hav.not_climbs (ht.root r hr).2.2 hc

/-- **Below the moved node** everything is at its place. -/
theorem walk_moved (ht : TreeInv h R) (hr : R r) (hbo : Below h r odir) (hbn : Below h r ndir)
    (hnd : h.isDir ndir = true) (he : h.entry odir obase = some n) (hm : Moves h r ndir nbase n)
    (now : ℤ) {ps : List Str} (hp : ∀ p ∈ ps, Plain p) :
    (h.moved odir obase ndir nbase n now).walk r (some n) ps = h.walk r (some n) ps := by
  refine walk_congr (n := n) hp ⟨[], rfl⟩ (isDir_moved h odir obase ndir nbase n now) ?_
  intro c k hu hc
  have hcl := hu.climbs ht hc
  have hcn : c ≠ ndir := by
    rintro rfl
    exact not_climbs_ndir ht hr hbn hnd hm hcl
  have hco : c ≠ odir := by
    rintro rfl
    exact not_climbs_odir ht hr hbo he hcl
  rw [entry_moved, if_neg (fun h1 => hcn h1.1), if_neg (fun h1 => hco h1.1)]

end

/-! ### The call -/

/-- A world before and after the entry of `n` has moved from `obase` in `odir` to `nbase` in
`ndir`, in the filesystem with the given root. -/
structure Renamed (w w' : World) (root odir : NodeId) (obase : Str) (ndir : NodeId) (nbase : Str)
    (n : NodeId) : Prop where
  old : w'.heap.entry odir obase = none
  new : w'.heap.entry ndir nbase = some n
  /-- below the node that moved, names lead where they led before, -/
  walk : ∀ ps, (∀ p ∈ ps, Plain p) →
    w'.heap.walk root (some n) ps = w.heap.walk root (some n) ps
  /-- and `..` leads to its new directory, -/
  dotdot : w.heap.isDir n = true → w'.heap.resolve root n GoPath.dotdot false = .ok (ndir, [])
  /-- which was not below it. -/
  above : ¬ Climbs w.heap.parent n ndir
  /-- A file replaced a file, or a directory an empty one. -/
  replaced : ∀ t, w.heap.entry ndir nbase = some t → w.heap.isDir t = w.heap.isDir n ∧
    (w.heap.isDir t = true → ∀ k, w.heap.entry t k = none)
  frame : ∀ d k, ¬ (d = odir ∧ k = obase) → ¬ (d = ndir ∧ k = nbase) →
    w'.heap.entry d k = w.heap.entry d k
  files : w'.files = w.files
  data : w.heap.SameData w'.heap

theorem renamed_of_moves {w : World} {f : File} {newDir : Option ℕ} {nd : Option File}
    {oldName newName obase nbase : Str} {odir ndir n : NodeId} (hi : WorldInv w)
    (hf : Handle w.heap w.IsRoot f)
    (hnd : w.otherFile newDir = some nd)
    (ha : RenameArgs w.heap f oldName nd newName odir obase ndir nbase n)
    (hm : Moves w.heap f.fs.root ndir nbase n) (now : ℤ) :
    Renamed w { w with heap := w.heap.moved odir obase ndir nbase n now } f.fs.root odir obase ndir
      nbase n := by
  have ht := hi.tree
  have hbo := (resolve_ok ht hf.root hf.below ha.old).1
  obtain ⟨hbn, hndir, -⟩ := hi.place (World.found_newParent hnd ha.new).1
  have hne : ¬ (odir = ndir ∧ obase = nbase) := by
    rintro ⟨rfl, rfl⟩
    exact hm.fresh ha.entry
  constructor
  case old =>
    dsimp only
    rw [entry_moved, if_neg hne, if_pos ⟨rfl, rfl⟩]
  case new =>
    dsimp only
    rw [entry_moved, if_pos ⟨rfl, rfl⟩]
  case walk => exact fun ps hp => walk_moved ht hf.root hbo hbn hndir ha.entry hm now hp
  case dotdot =>
    intro hdir
    have hroot : n ≠ f.fs.root := by
      rintro rfl
      exact ht.rootFree _ hf.root odir obase ha.entry
    have hpar : (w.heap.moved odir obase ndir nbase n now).parent n = some ndir := by
      rw [parent_moved, if_pos hdir, Function.update_self]
    exact resolve_dotdot hroot hpar (by rw [isDir_moved]; exact hndir)
  case above => exact not_climbs_ndir ht hf.root hbn hndir hm
  case replaced => exact hm.target
  case frame =>
    intro d k ho hn
    dsimp only
    rw [entry_moved, if_neg hn, if_neg ho]
  case files => rfl
  case data => exact sameData_moved w.heap odir obase ndir nbase n now

/-- **`RenameAt`** with its arguments resolved. -/
theorem rename_semantics {w w' : World} (hw : worldSystem.Reachable w) {i : ℕ} {newDir : Option ℕ}
    {oldName newName obase nbase : Str} {now : ℤ} {f : File} {nd : Option File}
    {odir ndir n : NodeId}
    (hstep : worldSystem.step w (.renameAt i oldName newDir newName now) = some (w', .done))
    (hf : w.files[i]? = some f) (hnd : w.otherFile newDir = some nd)
    (ha : RenameArgs w.heap f oldName nd newName odir obase ndir nbase n) :
    (w.heap.entry ndir nbase = some n → w' = w) ∧
    (w.heap.entry ndir nbase ≠ some n → Renamed w w' f.fs.root odir obase ndir nbase n) := by
  have hi := worldInv_of_reachable hw
  have hcall : w.result (f.renameAt w.heap oldName nd newName now) = (w', .done) := by
    have hstep' : w.call (.renameAt i oldName newDir newName now) = some (w', .done) := hstep
    simp only [World.call, hf, hnd] at hstep'
    exact Option.some.inj hstep'
  obtain ⟨hok, rfl⟩ := World.result_done hcall
  obtain ⟨odir', obase', ndir', nbase', n', ha', hres⟩ := renameAt_ok hok
  obtain ⟨rfl, rfl, rfl, rfl, rfl⟩ := ha.unique ha'
  rcases hres with ⟨hsame, hh⟩ | ⟨hm, hh⟩
  · exact ⟨fun _ => by rw [hh], fun hne => absurd hsame hne⟩
  · refine ⟨fun hsame => absurd hsame hm.fresh, fun _ => ?_⟩
    rw [hh]
    exact renamed_of_moves hi (hi.handleAt hf) hnd ha hm now

/-- A directory with a file in it replaces an empty directory. -/
theorem rename_semantics_replace : ∃ w w', worldSystem.Reachable w ∧
    worldSystem.step w (.renameAt 0 [97] (some 0) [98] 7) = some (w', .done) ∧
    w.heap.entry 1 [120] = some 3 ∧ w.heap.entry 0 [98] = some 2 ∧
    Renamed w w' 0 0 [97] 0 [98] 1 := by
  have hr := @System.reachable_of_exec _ _ _ worldSystem .empty _
    [.new 0, .openPath 0 [46] 0, .mkdirAt 0 [97] 0 0, .mkdirAt 0 [98] 0 0,
      .openAt 0 [97, 47, 120] ⟨1, true, false, false, false⟩ 0 0] _ rfl rfl
  refine ⟨_, _, hr, rfl, rfl, rfl, ?_⟩
  exact (@rename_semantics _ _ hr 0 (some 0) [97] [98] [97] [98] 7 _ _ 0 0 1 rfl rfl rfl
    ⟨rfl, ⟨0, rfl, rfl⟩, rfl⟩).2 (by decide)

end PgZero.Memfs
