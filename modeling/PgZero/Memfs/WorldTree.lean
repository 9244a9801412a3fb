import PgZero.Memfs.Clone

/-!
# The namespace of every world

* `WorldInv`: the tree of all filesystems, and the handles on it.
* `call_inv`: every call keeps it.
* **`namespace_tree`**: what this says of the parents, the entries and their names, in any world
  that a sequence of calls leads to.
-/

set_option autoImplicit false

namespace PgZero.Memfs

open Lib Option

/-- The root of a filesystem. -/
def World.IsRoot (w : World) (r : NodeId) : Prop := ∃ fs ∈ w.fss, fs.root = r

/-- The directories are trees below the roots, and the handles are in these trees. -/
structure WorldInv (w : World) : Prop where
  tree : TreeInv w.heap w.IsRoot
  handle : ∀ f ∈ w.files, Handle w.heap w.IsRoot f

/-- A world after a call, with its answer. -/
structure StepOk (r : World × Ans) : Prop where
  inv : WorldInv r.1
  ends : r.2 ≠ .fault .endless

section

variable {w : World}

theorem isRoot_append (fs : FS) (h : Heap) (files : List File) :
    World.IsRoot ⟨h, w.fss ++ [fs], files⟩ = fun r => w.IsRoot r ∨ r = fs.root := by
  funext r
  simp [World.IsRoot, or_and_right, exists_or, eq_comm]

theorem WorldInv.heap (hw : WorldInv w) {h : Heap} (hk : Kept w.IsRoot w.heap h) :
    WorldInv { w with heap := h } :=
  ⟨hk.inv, fun f hf => (hw.handle f hf).mono hk.ext⟩

theorem WorldInv.addFs (hw : WorldInv w) {h : Heap} {fs : FS}
    (ht : TreeInv h fun r => w.IsRoot r ∨ r = fs.root) (he : Extends w.IsRoot w.heap h) :
    WorldInv { w with heap := h, fss := w.fss ++ [fs] } := by
  have hroot := isRoot_append (w := w) fs h w.files
  refine ⟨hroot.symm ▸ ht, fun f hf => ?_⟩
  have hf' := (hw.handle f hf).mono he
  refine ⟨?_, hf'.below⟩
  rw [hroot]
  exact Or.inl hf'.root

theorem WorldInv.addFile (hw : WorldInv w) {r : Heap × Except Fault File}
    (hr : Opens w.IsRoot w.heap r) : StepOk (w.addFile r) := by
  have hk := hw.heap hr.kept
  unfold World.addFile
  split
  · rename_i f hf
    refine ⟨⟨hr.kept.inv, fun g hg => ?_⟩, fun h1 => by cases h1⟩
    rcases List.mem_append.mp hg with hg | hg
    · exact hk.handle g hg
    · obtain rfl := List.mem_singleton.mp hg
      exact hr.handle g hf
  · rename_i e he
    refine ⟨hk, fun h1 => hr.ends ?_⟩
    obtain rfl := Ans.fault.inj h1
    exact he

theorem WorldInv.result (hw : WorldInv w) {r : Heap × Except Fault Unit}
    (hr : Done w.IsRoot w.heap r) : StepOk (w.result r) := by
  refine ⟨hw.heap hr.kept, fun h1 => hr.ends ?_⟩
  unfold World.result at h1
  dsimp only at h1
  split at h1
  · cases h1
  · rename_i e he
    obtain rfl := Ans.fault.inj h1
    exact he

/-! ### Calls -/

theorem WorldInv.handleAt (hw : WorldInv w) {i : ℕ} {f : File} (hf : w.files[i]? = some f) :
    Handle w.heap w.IsRoot f :=
  hw.handle f (List.mem_of_getElem? hf)

theorem isRoot_of_getElem {k : ℕ} {fs : FS} (hk : w.fss[k]? = some fs) : w.IsRoot fs.root :=
  ⟨fs, List.mem_of_getElem? hk, rfl⟩

theorem OnContent.sameTree {f : File} {r : World × Ans} (h : OnContent w f r) :
    Heap.SameTree w.heap r.1.heap ∧ r.1.IsRoot = w.IsRoot := by
  obtain ⟨i, g, -, hs, hheap⟩ := h.node
  rw [hheap]
  exact ⟨hs.sameTree, by unfold World.IsRoot; rw [h.fss]⟩

theorem WorldInv.place (hw : WorldInv w) {f : File} {d : NodeId} {k : Str}
    (hp : ∃ g ∈ w.files, g.fs = f.fs ∧ ∃ name, g.Parent w.heap name d k) :
    Place w.heap f.fs.root d k := by
  obtain ⟨g, hg, hfs, name, hres⟩ := hp
  exact hfs ▸ (hw.handle g hg).parent hw.tree hres

theorem names_done (hw : WorldInv w) {c : Call} {i : ℕ} (hc : c.names = some i) {x : World × Ans}
    (hx : w.call c = some x) : ∃ r, x = w.result r ∧ Done w.IsRoot w.heap r := by
  obtain ⟨f, r, now, hf, rfl, hr⟩ := call_names hc hx
  exact ⟨r, rfl, hr.done hw.tree (hw.handleAt hf) fun d k hp => hw.place hp.found⟩

theorem call_inv (hw : WorldInv w) {c : Call} {r : World × Ans} (hr : w.call c = some r) :
    StepOk r := by
  cases c with
  | new now =>
    obtain rfl := Option.some.inj hr
    obtain ⟨ht, he⟩ := hw.tree.new (n := ⟨modeDir ||| 0o700, .nil, now, ∅, some w.heap.next⟩) rfl
      (show FileMode.isDir (modeDir ||| 0o700) = true by decide) rfl
    exact ⟨hw.addFs ht he, fun h1 => by cases h1⟩
  | clone k spare =>
    obtain ⟨fs, hk, rfl⟩ := map_eq_some_iff.mp hr
    obtain ⟨h', fs', hclone, ht, he⟩ := clone_kept hw.tree (isRoot_of_getElem hk) spare
    rw [hclone]
    exact ⟨hw.addFs ht he, fun h1 => by cases h1⟩
  | addTar k entries broken now =>
    obtain ⟨fs, hk, rfl⟩ := map_eq_some_iff.mp hr
    have hinv : TarInv fs now (Kept w.IsRoot w.heap) _ := tarInv_kept (isRoot_of_getElem hk) now
    refine ⟨hw.heap (hinv.addTar (.refl hw.tree) entries broken), ?_⟩
    dsimp only
    split <;> exact fun h1 => by cases h1
  | openPath k name now =>
    obtain ⟨fs, hk, rfl⟩ := map_eq_some_iff.mp hr
    exact hw.addFile (openPath_opens hw.tree (isRoot_of_getElem hk))
  | openAt i name flag perm now =>
    obtain ⟨f, hf, rfl⟩ := map_eq_some_iff.mp hr
    exact hw.addFile (openAt_opens hw.tree (hw.handleAt hf) flag perm)
  | mkdirAt | rmdirAt | unlinkAt | renameAt | linkAt =>
    obtain ⟨r, rfl, hd⟩ := names_done hw rfl hr
    exact hw.result hd
  | readAt | read | writeAt | write | seek | truncate | stat | statAt | readDir | chtimes
  | chtimesAt =>
    obtain ⟨f, hf, h⟩ := call_content rfl hr
    obtain ⟨hst, hroot⟩ := h.sameTree
    have hk := hw.tree.kept hst
    refine ⟨⟨hroot ▸ hk.inv, fun g hg => hroot ▸ ?_⟩, h.ends⟩
    rcases h.files g hg with hold | ⟨hfs, hnode⟩
    · exact (hw.handle g hold).mono hk.ext
    · obtain ⟨h1, h2⟩ := (hw.handleAt hf).mono hk.ext
      exact ⟨hfs ▸ h1, hfs ▸ hnode ▸ h2⟩

theorem worldInv_empty : WorldInv .empty where
  tree := by
    have hroot : ∀ r, ¬ World.empty.IsRoot r := fun r hr => by
      obtain ⟨fs, hfs, -⟩ := hr
      cases hfs
    have hentry : ∀ d k c, World.empty.heap.entry d k ≠ some c := fun d k c he => by cases he
    constructor
    case root => exact fun r hr => absurd hr (hroot r)
    case rootFree => exact fun r hr => absurd hr (hroot r)
    case climbs => exact fun d hd => absurd hd (Nat.not_lt_zero d)
    case parentDir => exact fun d p hd => absurd hd (Nat.not_lt_zero d)
    case fileParent => exact fun c hc => absurd hc (Nat.not_lt_zero c)
    case child => exact fun d k c he => absurd he (hentry d k c)
    case childDir => exact fun d k c he => absurd he (hentry d k c)
    case unique => exact fun d k k' c he => absurd he (hentry d k c)
  handle f hf := by cases hf

theorem worldInv_of_reachable (hw : worldSystem.Reachable w) : WorldInv w := by
  apply hw.invariant
  · intro w0 h0
    rw [show w0 = .empty from h0]
    exact worldInv_empty
  · intro w1 c w2 a h1 hstep
    exact (call_inv h1 hstep).inv

end

/-! ### The namespace -/

/-- The namespace of a world. Directories are the nodes ever created as such, also those that have
been removed or replaced. -/
structure NamespaceOk (w : World) : Prop where
  /-- Following the parents from any directory leads to the root of a filesystem, -/
  climbs : ∀ d, d < w.heap.next → w.heap.isDir d = true →
    ∃ fs ∈ w.fss, Climbs w.heap.parent fs.root d
  /-- which is that of the handle, for a directory that is open, -/
  handle : ∀ f ∈ w.files, w.heap.isDir f.node = true → Climbs w.heap.parent f.fs.root f.node
  /-- so that no other directory is on a cycle, -/
  acyclic : ∀ d k, d < w.heap.next → w.heap.isDir d = true →
    (Climbs.next w.heap.parent)^[k + 1] d = d → ∃ fs ∈ w.fss, d = fs.root
  /-- and the loop of `RenameAt`, like the recursion of `Clone`, ends. -/
  ends : ∀ c r, w.call c = some r → r.2 ≠ .fault .endless
  /-- A directory's entry is in its parent, and it has no other. -/
  parent : ∀ d k c, w.heap.entry d k = some c → w.heap.isDir c = true → w.heap.parent c = some d
  only : ∀ d k c, w.heap.entry d k = some c → w.heap.isDir c = true →
    ∀ d' k', w.heap.entry d' k' = some c → d' = d ∧ k' = k
  name : ∀ d k c, w.heap.entry d k = some c → ValidName k
  /-- A root is its own parent and nobody's entry. -/
  rootParent : ∀ fs ∈ w.fss, w.heap.parent fs.root = some fs.root
  rootFree : ∀ fs ∈ w.fss, ∀ d k, w.heap.entry d k ≠ some fs.root

/-- **The namespace in every reachable world.** -/
theorem namespace_tree {w : World} (hw : worldSystem.Reachable w) : NamespaceOk w := by
  have hi := worldInv_of_reachable hw
  have ht := hi.tree
  constructor
  case climbs =>
    intro d hlt hd
    obtain ⟨r, ⟨fs, hfs, rfl⟩, hc⟩ := ht.climbs d hlt hd
    exact ⟨fs, hfs, hc⟩
  case handle =>
    intro f hf hd
    exact (hi.handle f hf).below.climbs hd
  case acyclic =>
    intro d k hlt hd hk
    obtain ⟨r, ⟨fs, hfs, rfl⟩, hc⟩ := ht.climbs d hlt hd
    exact ⟨fs, hfs, hc.eq_root_of_cycle (ht.root _ ⟨fs, hfs, rfl⟩).2.2 hk⟩
  case ends =>
    intro c r hr
    exact (call_inv hi hr).ends
  case parent => exact ht.childDir
  case only =>
    intro d k c he hd d' k' he'
    have hp := ht.childDir d' k' c he' hd
    rw [ht.childDir d k c he hd] at hp
    obtain rfl := Option.some.inj hp
    exact ⟨rfl, ht.unique d k' k c he' he hd⟩
  case name =>
    intro d k c he
    exact (ht.child d k c he).2.2.2
  case rootParent =>
    intro fs hfs
    exact (ht.root fs.root ⟨fs, hfs, rfl⟩).2.2
  case rootFree =>
    intro fs hfs
    exact ht.rootFree fs.root ⟨fs, hfs, rfl⟩

/-- A directory is created in one that has been removed, and then moved to the root. -/
theorem namespace_tree_removed : ∃ w, worldSystem.Reachable w ∧ w.heap.entry 0 [97] = none ∧
    w.heap.entry 0 [99] = some 2 ∧ w.heap.isDir 1 = true ∧ NamespaceOk w := by
  have hr := @System.reachable_of_exec _ _ _ worldSystem .empty _
    [.new 0, .openPath 0 [46] 0, .mkdirAt 0 [97] 0 0, .openAt 0 [97] O_RDONLY 0 0,
      .rmdirAt 0 [97] 0, .mkdirAt 1 [98] 0 0, .renameAt 1 [98] (some 0) [99] 0] _ rfl rfl
  exact ⟨_, hr, rfl, rfl, rfl, namespace_tree hr⟩

end PgZero.Memfs
