import PgZero.Memfs.Isomorph
import PgZero.Memfs.Owner
import PgZero.Memfs.WorldTree

/-!
# Clones are independent

A clone starts out like its original, and what happens to one of the two later does not show in the
other.

* **`clone_isomorphic`**: the clone of any filesystem in any reachable world.
-/

set_option autoImplicit false

namespace PgZero.Memfs

open Lib Option List

/-! ### Owners in a world -/

/-- Nodes, roots and handles keep to their owners. -/
structure WorldOwn (w : World) (own : NodeId → NodeId) : Prop where
  owned : Owned w.heap own
  root : ∀ fs ∈ w.fss, Mine w.heap own fs.root fs.root
  file : ∀ f ∈ w.files, OwnFile w.heap own f

/-- The filesystem that a call works on. A new filesystem and a clone only create nodes. -/
def World.callFs (w : World) : Call → Option FS
  | .new _ | .clone _ _ => none
  | .addTar k _ _ _ | .openPath k _ _ => w.fss[k]?
  | .openAt i _ _ _ _ | .mkdirAt i _ _ _ | .rmdirAt i _ _ | .unlinkAt i _ _ | .renameAt i _ _ _ _
  | .linkAt i _ _ _ _ | .readAt i _ _ | .read i _ | .writeAt i _ _ _ | .write i _ _ | .seek i _ _
  | .truncate i _ _ | .stat i | .statAt i _ | .readDir i _ | .chtimes i _ | .chtimesAt i _ _ =>
    w.files[i]?.map File.fs

/-- A call on another filesystem than `fs`. -/
def NotOn (fs : FS) (w : World) (c : Call) : Prop := w.callFs c ≠ some fs

instance (fs : FS) (w : World) (c : Call) : Decidable (NotOn fs w c) :=
  inferInstanceAs (Decidable (w.callFs c ≠ some fs))

/-- A call that changes nodes of the filesystem with root `r` only. -/
structure CallTouches (w : World) (own : NodeId → NodeId) (c : Call) (w' : World) (r : NodeId) :
    Prop where
  touches : Touches r own w.heap w'.heap
  own : WorldOwn w' (extendOwn own w.heap.next r)
  other : ∀ fs, fs.root < w.heap.next → NotOn fs w c → fs.root ≠ r

section

variable {w w' : World} {own : NodeId → NodeId} {r : NodeId} {c : Call}

theorem WorldOwn.heap (ho : WorldOwn w own) {h : Heap} (ht : Touches r own w.heap h) :
    WorldOwn { w with heap := h } (extendOwn own w.heap.next r) :=
  ⟨ht.owned, fun fs hfs => ht.mine (ho.root fs hfs), fun f hf => ht.mine (ho.file f hf)⟩

theorem fs_root_ne {fs fs' : FS} (hne : some fs' ≠ some fs) : fs.root ≠ fs'.root := by
  rintro h
  exact hne (congrArg some (by cases fs; cases fs'; exact congrArg _ h.symm))

theorem CallTouches.on {fs : FS} (hc : w.callFs c = some fs)
    (ht : Touches fs.root own w.heap w'.heap)
    (ho : WorldOwn w' (extendOwn own w.heap.next fs.root)) : CallTouches w own c w' fs.root := by
  refine ⟨ht, ho, fun fs' _ hn => fs_root_ne ?_⟩
  rw [← hc]
  exact hn

theorem WorldOwn.result (ho : WorldOwn w own) {fs : FS} (hc : w.callFs c = some fs)
    {x : Heap × Except Fault Unit} (ht : Touches fs.root own w.heap x.1) :
    CallTouches w own c (w.result x).1 fs.root :=
  .on hc ht (ho.heap ht)

theorem WorldOwn.addFile (ho : WorldOwn w own) {fs : FS} (hc : w.callFs c = some fs)
    {x : Heap × Except Fault File} (ht : TouchesFile fs own w.heap x) :
    CallTouches w own c (w.addFile x).1 fs.root := by
  have hw := ho.heap ht.toTouches
  unfold World.addFile
  split
  · rename_i f hf
    refine .on hc ht.toTouches ⟨ht.owned, hw.root, fun g hg => ?_⟩
    rcases mem_append.mp hg with hg | hg
    · exact hw.file g hg
    · obtain rfl := mem_singleton.mp hg
      obtain ⟨hfs, hmine⟩ := ht.file g hf
      unfold OwnFile
      rw [hfs]
      exact hmine
  · exact .on hc ht.toTouches hw

theorem OnContent.touches {f : File} {x : World × Ans} (h : OnContent w f x) (hf : f ∈ w.files)
    (ho : WorldOwn w own) (hc : w.callFs c = some f.fs) : CallTouches w own c x.1 f.fs.root := by
  obtain ⟨i, g, hi, hs, hheap⟩ := h.node
  have ht := touches_same ho.owned (hi.mine ho.owned (ho.file f hf)) hs
  rw [← hheap] at ht
  refine .on hc ht ⟨ht.owned, fun fs hfs => ?_, fun f' hf' => ?_⟩
  · exact ht.mine (ho.root fs (h.fss ▸ hfs))
  · rcases h.files f' hf' with hold | ⟨hfs, hnode⟩
    · exact ht.mine (ho.file f' hold)
    · unfold OwnFile
      rw [hfs, hnode]
      exact ht.mine (ho.file f hf)

theorem WorldOwn.addFs (ho : WorldOwn w own) {h : Heap} {fs : FS}
    (hge : w.heap.next ≤ fs.root) (hlt : fs.root < h.next) (ht : Touches fs.root own w.heap h) :
    CallTouches w own c { w with heap := h, fss := w.fss ++ [fs] } fs.root := by
  have hw := ho.heap ht
  refine ⟨ht, ⟨ht.owned, fun fs' hfs' => ?_, hw.file⟩, fun fs' hlt' _ => ?_⟩
  · rcases mem_append.mp hfs' with hfs' | hfs'
    · exact hw.root fs' hfs'
    · obtain rfl := mem_singleton.mp hfs'
      exact ⟨hlt, extendOwn_ge hge⟩
  · exact (hlt'.trans_le hge).ne

theorem IsClone.touches {h h' : Heap} {r r' : NodeId} {copies : NodeId → Option NodeId}
    (hc : IsClone h h' r r' copies) (ho : Owned h own) (hle : h.next ≤ h'.next) :
    Touches r' own h h' := by
  have hnew : ∀ {n x}, copies n = some x → x < h'.next ∧ extendOwn own h.next r' x = r' :=
    fun hx => ⟨(hc.new _ _ hx).2, extendOwn_ge (hc.new _ _ hx).1⟩
  refine ⟨hle, fun i hi _ => hc.old i hi, fun n p hn hp => ?_, fun n k c hn he => ?_⟩
  · rcases Nat.lt_or_ge n h.next with hlt | hge
    · rw [Heap.parent, hc.old n hlt] at hp
      obtain ⟨h1, h2⟩ := ho.parent n p hlt hp
      exact ⟨h1.trans_le hle, by rw [extendOwn_lt h1, extendOwn_lt hlt, h2]⟩
    · obtain ⟨m, hm⟩ := hc.onto n hge hn
      have hrel := hc.sim.parent m n hm
      rw [hp] at hrel
      obtain ⟨q, -, hq⟩ := exists_of_rel_some hrel
      exact ⟨(hnew hq).1, by rw [(hnew hq).2, extendOwn_ge hge]⟩
  · rcases Nat.lt_or_ge n h.next with hlt | hge
    · rw [Heap.entry, hc.old n hlt] at he
      obtain ⟨h1, h2⟩ := ho.entry n k c hlt he
      exact ⟨h1.trans_le hle, by rw [extendOwn_lt h1, extendOwn_lt hlt, h2]⟩
    · obtain ⟨m, hm⟩ := hc.onto n hge hn
      have hrel := hc.sim.entry m n hm k
      rw [he] at hrel
      obtain ⟨q, -, hq⟩ := exists_of_rel_some hrel
      exact ⟨(hnew hq).1, by rw [(hnew hq).2, extendOwn_ge hge]⟩

theorem call_touches (hw : WorldInv w) (ho : WorldOwn w own) {x : World × Ans}
    (hx : w.call c = some x) : ∃ r, CallTouches w own c x.1 r := by
  have hfile : ∀ {i : ℕ} {f : File}, w.files[i]? = some f → OwnFile w.heap own f :=
    fun hf => ho.file _ (mem_of_getElem? hf)
  have hon : ∀ {i : ℕ} {f : File}, w.files[i]? = some f → w.files[i]?.map File.fs = some f.fs := by
    intro i f hf
    rw [hf]
    rfl
  cases c with
  | new now =>
    obtain rfl := Option.some.inj hx
    refine ⟨_, @WorldOwn.addFs w own _ ho _ ⟨w.heap.next⟩ (le_refl _) (Nat.lt_succ_self _) ?_⟩
    exact touches_alloc ho.owned rfl fun p hp => Or.inr (Option.some.inj hp).symm
  | clone k spare =>
    obtain ⟨fs, hk, rfl⟩ := map_eq_some_iff.mp hx
    obtain ⟨h', fs', copies, hclone, hc⟩ := clone_isClone hw.tree (isRoot_of_getElem hk) spare
    rw [hclone]
    obtain ⟨hge, hlt⟩ := hc.new _ _ hc.root
    exact ⟨fs'.root, ho.addFs hge hlt (hc.touches ho.owned (hge.trans hlt.le))⟩
  | addTar k entries broken now =>
    obtain ⟨fs, hk, rfl⟩ := map_eq_some_iff.mp hx
    have hinv := tarInv_touches (ho.root fs (mem_of_getElem? hk)) now
    have ht := hinv.addTar (.refl ho.owned _) entries broken
    exact ⟨fs.root, .on hk ht (ho.heap ht)⟩
  | openPath k name now =>
    obtain ⟨fs, hk, rfl⟩ := map_eq_some_iff.mp hx
    refine ⟨fs.root, ho.addFile ?_ ?_⟩
    · exact hk
    · exact openPath_touches ho.owned (ho.root fs (mem_of_getElem? hk)) name now
  | openAt i name flag perm now =>
    obtain ⟨f, hf, rfl⟩ := map_eq_some_iff.mp hx
    refine ⟨f.fs.root, ho.addFile ?_ ?_⟩
    · exact hon hf
    · exact openAt_touches ho.owned (hfile hf) name flag perm now
  | mkdirAt | rmdirAt | unlinkAt | renameAt | linkAt =>
    obtain ⟨f, r, now, hf, rfl, hr⟩ := call_names rfl hx
    refine ⟨f.fs.root, ho.result ?_ (hr.effect.touches ho.owned (hfile hf) fun d k hp => ?_)⟩
    · exact hon hf
    · obtain ⟨g, hg, hfs, name, hres⟩ := hp.found
      exact hfs ▸ ho.owned.resolve (ho.file g hg) hres
  | readAt | read | writeAt | write | seek | truncate | stat | statAt | readDir | chtimes
  | chtimesAt =>
    obtain ⟨f, hf, h⟩ := call_content rfl hx
    exact ⟨f.fs.root, h.touches (mem_of_getElem? hf) ho (hon hf)⟩

theorem worldOwn_of_reachable (hw : worldSystem.Reachable w) : ∃ own, WorldOwn w own := by
  refine (hw.invariant (P := fun w => WorldInv w ∧ ∃ own, WorldOwn w own) ?_ ?_).2
  · intro w0 h0
    rw [show w0 = .empty from h0]
    refine ⟨worldInv_empty, id, ⟨?_, ?_⟩, ?_, ?_⟩
    · exact fun n _ hn => absurd hn (Nat.not_lt_zero n)
    · exact fun n _ _ hn => absurd hn (Nat.not_lt_zero n)
    · exact fun fs hfs => by cases hfs
    · exact fun f hf => by cases hf
  · rintro w1 c w2 a ⟨hi, own, ho⟩ hs
    obtain ⟨r, ht⟩ := call_touches hi ho hs
    exact ⟨(call_inv hi hs).inv, _, ht.own⟩

/-! ### A filesystem that is left alone -/

/-- Every path of `fs` leads where it led, and the nodes there, as well as those that are open, are
as they were. -/
structure Unchanged (fs : FS) (w w' : World) : Prop where
  path : ∀ name po, w'.heap.resolve fs.root fs.root name po =
    w.heap.resolve fs.root fs.root name po
  node : ∀ name po n base, w.heap.resolve fs.root fs.root name po = .ok (n, base) →
    w'.heap.node n = w.heap.node n
  file : ∀ f ∈ w.files, f.fs = fs → w'.heap.node f.node = w.heap.node f.node

variable {fs : FS}

theorem WorldOwn.unchanged (ho : WorldOwn w own) (hr : Mine w.heap own fs.root fs.root)
    (hsame : ∀ i, Mine w.heap own fs.root i → w'.heap.node i = w.heap.node i) :
    Unchanged fs w w' := by
  constructor
  case path => exact (ho.owned.closed fs.root).resolve_eq hsame hr
  case node => exact fun name po n base h => hsame n (ho.owned.resolve hr h)
  case file =>
    rintro f hf rfl
    exact hsame f.node (ho.file f hf)

theorem run_unchanged (hw : WorldInv w) (ho : WorldOwn w own) (hr : Mine w.heap own fs.root fs.root)
    {tr : List (Call × Ans)} (hrun : (worldSystem.restrict (NotOn fs)).Run w tr w') :
    Unchanged fs w w' := by
  have h := hrun.invariant (P := fun w' => WorldInv w' ∧ ∃ own', WorldOwn w' own' ∧
    ∀ i, Mine w.heap own fs.root i →
      Mine w'.heap own' fs.root i ∧ w'.heap.node i = w.heap.node i) ?_
    ⟨hw, own, ho, fun i hi => ⟨hi, rfl⟩⟩
  · obtain ⟨-, own', -, hsame⟩ := h
    exact ho.unchanged hr fun i hi => (hsame i hi).2
  · rintro w1 c w2 a ⟨hi, own1, ho1, hsame⟩ hs
    obtain ⟨hn, hs⟩ := System.restrict_step.mp hs
    obtain ⟨r, ht⟩ := call_touches hi ho1 hs
    refine ⟨(call_inv hi hs).inv, _, ht.own, fun i hmine => ?_⟩
    obtain ⟨h1, h2⟩ := hsame i hmine
    have hne : own1 i ≠ r := by
      rw [h1.2]
      exact ht.other fs (hsame fs.root hr).1.1 hn
    exact ⟨ht.touches.mine h1, (ht.touches.frame i h1.1 hne).trans h2⟩

/-! ### The clone -/

/-- The filesystem `fs'` is a copy of `fs`, node by node. -/
structure Isomorphic (h h' : Heap) (fs fs' : FS) (copies : NodeId → Option NodeId) : Prop where
  /-- A path fails in both, with the same error, or it leads to a node and its copy. -/
  path : ∀ name po, WalkRel (PathRel fun n c => copies n = some c)
    (h.resolve fs.root fs.root name po) (h'.resolve fs'.root fs'.root name po)
  /-- The copy has the mode, the time and the content of the node. -/
  same : ∀ n c, copies n = some c → SameFile (h.node n) (h'.node c)
  /-- Two paths lead to the same node in one if they do in the other. -/
  links : ∀ name1 po1 name2 po2 x1 x2 y1 y2,
    h.resolve fs.root fs.root name1 po1 = .ok x1 → h.resolve fs.root fs.root name2 po2 = .ok x2 →
    h'.resolve fs'.root fs'.root name1 po1 = .ok y1 →
    h'.resolve fs'.root fs'.root name2 po2 = .ok y2 → (y1.1 = y2.1 ↔ x1.1 = x2.1)
  /-- Every node of the copy is the copy of a node; a directory's parent is that of its parent. -/
  onto : ∀ c, h.next ≤ c → c < h'.next → ∃ n, copies n = some c
  parent : ∀ n c, copies n = some c → h.isDir n = true →
    ∃ p p', h.parent n = some p ∧ copies p = some p' ∧ h'.parent c = some p'
  root : copies fs.root = some fs'.root
  rootParent : h'.parent fs'.root = some fs'.root

theorem IsClone.isomorphic {h h' : Heap} {R : NodeId → Prop} {fs fs' : FS}
    {copies : NodeId → Option NodeId} (ht : TreeInv h R) (hr : R fs.root)
    (hc : IsClone h h' fs.root fs'.root copies) : Isomorphic h h' fs fs' copies := by
  have hpath := hc.sim.resolve hc.root
  have hpar : ∀ n c, copies n = some c → h.isDir n = true →
      ∃ p p', h.parent n = some p ∧ copies p = some p' ∧ h'.parent c = some p' := by
    intro n c hn hd
    obtain ⟨p, hp⟩ : ∃ p, h.parent n = some p := by
      by_cases hroot : n = fs.root
      · exact ⟨fs.root, hroot ▸ (ht.root _ hr).2.2⟩
      · obtain ⟨p, hp, -⟩ := ((hc.below n c hn).climbs hd).up hroot
        exact ⟨p, hp⟩
    have hrel := hc.sim.parent n c hn
    rw [hp] at hrel
    cases hcp : h'.parent c with
    | none => rw [hcp] at hrel; cases hrel
    | some p' =>
      rw [hcp] at hrel
      cases hrel with
      | some hpp => exact ⟨p, p', hp, hpp, rfl⟩
  refine ⟨hpath, hc.same, ?_, hc.onto, hpar, hc.root, ?_⟩
  · intro name1 po1 name2 po2 x1 x2 y1 y2 hx1 hx2 hy1 hy2
    have h1 := hpath name1 po1
    have h2 := hpath name2 po2
    rw [hx1, hy1] at h1
    rw [hx2, hy2] at h2
    cases h1 with
    | ok h1 =>
      cases h2 with
      | ok h2 =>
        constructor
        · intro hy
          exact hc.inj _ _ _ h1.1 (hy ▸ h2.1)
        · intro hx
          exact Option.some.inj (h1.1.symm.trans (hx ▸ h2.1))
  · obtain ⟨hlt, hd, hp⟩ := ht.root _ hr
    obtain ⟨p, p', h1, h2, h3⟩ := hpar _ _ hc.root hd
    obtain rfl := Option.some.inj (hp.symm.trans h1)
    rwa [Option.some.inj (h2.symm.trans hc.root)] at h3

/-- **Clones.** `Clone` ends with a copy and leaves the filesystem as it is; from then on neither of
the two shows what is done to the other. -/
theorem clone_isomorphic (hw : worldSystem.Reachable w) {k : ℕ} (hk : w.fss[k]? = some fs)
    (spare : ℕ → List UInt8) :
    ∃ w' fs' copies, w.call (.clone k spare) = some (w', .done) ∧ w'.fss = w.fss ++ [fs'] ∧
      w'.files = w.files ∧ Isomorphic w.heap w'.heap fs fs' copies ∧ Unchanged fs w w' ∧
      ∀ x, x = fs ∨ x = fs' → ∀ tr w2, (worldSystem.restrict (NotOn x)).Run w' tr w2 →
        Unchanged x w' w2 := by
  have hi := worldInv_of_reachable hw
  obtain ⟨own, ho⟩ := worldOwn_of_reachable hw
  have hr := isRoot_of_getElem hk
  obtain ⟨h', fs', copies, hclone, hc⟩ := clone_isClone hi.tree hr spare
  have hcall : w.call (.clone k spare) =
      some ({ w with heap := h', fss := w.fss ++ [fs'] }, .done) := by
    simp only [World.call, hk, map_some, hclone]
  have hi' := (call_inv hi hcall).inv
  obtain ⟨r, ht⟩ := call_touches hi ho hcall
  have hmem : fs ∈ w.fss := mem_of_getElem? hk
  refine ⟨_, fs', copies, hcall, rfl, rfl, hc.isomorphic hi.tree hr, ?_, ?_⟩
  · refine ho.unchanged (ho.root fs hmem) fun i hmine => ht.touches.frame i hmine.1 ?_
    rw [hmine.2]
    exact ht.other fs (ho.root fs hmem).1 nofun
  · intro x hx tr w2 hrun
    refine run_unchanged hi' ht.own (ht.own.root x ?_) hrun
    rcases hx with rfl | rfl
    · exact mem_append_left _ hmem
    · exact mem_append_right _ (mem_singleton_self _)

end

/-- A file with two names and a directory, cloned. -/
theorem clone_isomorphic_link : ∃ w w' fs' copies, worldSystem.Reachable w ∧
    w.fss[0]? = some ⟨0⟩ ∧ w.heap.entry 0 [97] = some 1 ∧ w.heap.entry 0 [98] = some 1 ∧
    w.heap.isDir 2 = true ∧ w.call (.clone 0 fun _ => []) = some (w', .done) ∧
    Isomorphic w.heap w'.heap ⟨0⟩ fs' copies ∧
    ∀ tr w2, (worldSystem.restrict (NotOn fs')).Run w' tr w2 → Unchanged fs' w' w2 := by
  have hr := @System.reachable_of_exec _ _ _ worldSystem .empty _
    [.new 0, .openPath 0 [46] 0, .openAt 0 [97] ⟨1, true, false, false, false⟩ 0o644 1,
      .write 1 [1, 2, 3] 2, .linkAt 0 [97] (some 0) [98] 3, .mkdirAt 0 [100] 0 4] _ rfl rfl
  obtain ⟨w', fs', copies, hcall, -, -, hiso, -, hind⟩ :=
    clone_isomorphic (k := 0) hr rfl fun _ => []
  exact ⟨_, w', fs', copies, hr, rfl, rfl, rfl, rfl, hcall, hiso, hind fs' (Or.inr rfl)⟩

end PgZero.Memfs
