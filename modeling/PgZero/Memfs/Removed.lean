import PgZero.Memfs.Change
import PgZero.Memfs.Isomorph

/-!
# Removed directories

A directory that has been removed or replaced lives on in the handles on it. Nothing keeps a call
from putting an entry into it, and what is put there is lost to all other handles. As long as no
call does, removed directories are empty and every entry is at the end of a path from the root.

* **`call_settled`**: every call keeps the namespace settled.
* **`entries_reached`**: this in all runs, and for what `RenameAt` and `LinkAt` leave behind.
-/

set_option autoImplicit false

namespace PgZero.Memfs

open Lib GoPath Option Heap

/-- Directory `d` is the root, or its parent has an entry for it. -/
def Heap.linked (h : Heap) (root d : NodeId) : Bool :=
  d = root || (h.parent d).any fun p => (h.node p).entries.entries.any fun e => e.2 = d

section

variable {h h' : Heap} {R : NodeId → Prop} {r d : NodeId}

theorem Heap.held_of_linked (hr : R r) (hl : h.linked r d = true) : h.Held R d := by
  unfold linked at hl
  rcases Bool.or_eq_true_iff.mp hl with hd | hd
  · exact Or.inl (of_decide_eq_true hd ▸ hr)
  · cases hp : h.parent d with
    | none =>
      rw [hp] at hd
      cases hd
    | some p =>
      rw [hp, any_some] at hd
      obtain ⟨⟨k, c⟩, hmem, hc⟩ := List.any_eq_true.mp hd
      obtain rfl : c = d := of_decide_eq_true hc
      exact Or.inr ⟨p, k, AList.mem_lookup_iff.mpr hmem⟩

theorem Heap.linked_of_held (ht : TreeInv h R) (hr : R r) (hb : Below h r d)
    (hd : h.isDir d = true) (hh : h.Held R d) : h.linked r d = true := by
  unfold linked
  rcases hh with hroot | ⟨p, k, he⟩
  · have heq : d = r := ht.root_unique hroot hr .refl (hb.climbs hd)
    simp [heq]
  · have hmem : (⟨k, d⟩ : (_ : Str) × NodeId) ∈ (h.node p).entries.entries :=
      AList.mem_lookup_iff.mp he
    rw [ht.childDir p k d he hd, any_some, List.any_eq_true.mpr ⟨_, hmem, by simp⟩,
      Bool.or_true]

theorem Settled.closed (ht : TreeInv h R) (hs : Settled h R) :
    WalkClosed h fun n => n < h.next ∧ h.Held R n := by
  constructor
  · rintro n p ⟨hlt, hn⟩ hp
    -- a file has no parent, and the root is its own
    have hd : h.isDir n = true := by
      by_contra hf
      rw [ht.fileParent n hlt (by simpa using hf)] at hp
      cases hp
    refine ⟨(ht.parentDir n p hlt hd hp).1, ?_⟩
    rcases hn with hr | ⟨q, k, he⟩
    · rw [(ht.root n hr).2.2] at hp
      exact Option.some.inj hp ▸ Or.inl hr
    · rw [ht.childDir q k n he hd] at hp
      exact Option.some.inj hp ▸ hs.held ht he
  · rintro n k c - he
    exact ⟨(ht.child n k c he).2.2.1, Or.inr ⟨n, k, he⟩⟩

theorem Settled.resolve_held (ht : TreeInv h R) (hs : Settled h R) (hr : R r) {n : NodeId}
    {name base : Str} {po : Bool} (hres : h.resolve r r name po = .ok (n, base)) : h.Held R n :=
  ((hs.closed ht).resolve_mem ⟨(ht.root r hr).1, Or.inl hr⟩ hres).2

/-! ### Archives -/

/-- A namespace that is a settled tree. -/
structure SettledTree (h : Heap) (R : NodeId → Prop) : Prop where
  tree : TreeInv h R
  settled : Settled h R

section

variable {fs : FS} {now : ℤ}

theorem SettledTree.onRoot (hs : SettledTree h R) (hr : R fs.root) {P : NodeId → Str → Prop}
    (hP : ∀ d k, P d k → ∃ name, fs.rootFile.Parent h name d k)
    (he : Effect h fs.rootFile now P h') : SettledTree h' R := by
  have hf := rootFile_handle hs.tree hr
  constructor
  · refine (he.kept hs.tree hf fun d k hp => ?_).inv
    obtain ⟨name, hres⟩ := hP d k hp
    exact hf.parent hs.tree hres
  · refine hs.settled.effect hs.tree (fun d k hp => ?_) he
    obtain ⟨name, hres⟩ := hP d k hp
    exact hs.settled.resolve_held hs.tree hr hres

theorem SettledTree.sameTree (hs : SettledTree h R) (hst : Heap.SameTree h h') :
    SettledTree h' R :=
  ⟨hs.tree.congr hst, hs.settled.congr hst⟩

theorem tarInv_settled (hr : R fs.root) (now : ℤ) :
    TarInv fs now (fun h => SettledTree h R) fun _ _ => True where
  mkdir h name perm hs :=
    hs.onRoot hr (fun _ _ hp => ⟨name, hp⟩) (mkdirAt_tries (fun _ _ hp => hp) perm now).effect
  create h name perm hs := by
    obtain ⟨h', he, hst⟩ := openAt_effect h fs.rootFile name createFlags perm now
    exact (hs.onRoot hr (fun _ _ hp => ⟨name, hp.2⟩) he).sameTree hst
  file _ _ _ _ _ _ := trivial
  node _ _ _ hs _ hn := ⟨hs.sameTree (sameTree_modify _ hn.mode hn.entries hn.parent), trivial⟩

end

/-! ### New filesystems -/

theorem IsClone.settled {r' : NodeId} {copies : NodeId → Option NodeId} (ht : TreeInv h R)
    (hs : Settled h R) (hc : IsClone h h' r r' copies) (hr : R r) :
    Settled h' fun x => R x ∨ x = r' := by
  intro i hlt hi
  rcases Nat.lt_or_ge i h.next with hold | hge
  · rw [isDir, hc.old i hold] at hi
    refine (hs i hold hi).imp ?_ fun hempty k => ?_
    · rintro (hroot | ⟨p, k, he⟩)
      · exact Or.inl (Or.inl hroot)
      · refine Or.inr ⟨p, k, ?_⟩
        rw [entry, hc.old p (ht.child p k i he).1]
        exact he
    · rw [entry, hc.old i hold]
      exact hempty k
  · obtain ⟨n, hn⟩ := hc.onto i hge hlt
    have hd : h.isDir n = true := (hc.sim.isDir n i hn).symm.trans hi
    rcases hs n (hc.below n i hn).lt hd with (hroot | ⟨p, k, he⟩) | hempty
    · have hnr : n = r := ht.root_unique hroot hr .refl ((hc.below n i hn).climbs hd)
      exact Or.inl (Or.inl (Or.inr ((hc.sim.root n i hn).mp hnr)))
    · -- the parent has been copied too, with its entries
      have hpar := hc.sim.parent n i hn
      rw [ht.childDir p k n he hd] at hpar
      obtain ⟨p', hp'⟩ : ∃ p', copies p = some p' := by
        cases hq : h'.parent i with
        | none =>
          rw [hq] at hpar
          cases hpar
        | some q =>
          rw [hq] at hpar
          cases hpar with
          | some h1 => exact ⟨q, h1⟩
      have hent := hc.sim.entry p p' hp' k
      rw [he] at hent
      cases hq : h'.entry p' k with
      | none =>
        rw [hq] at hent
        cases hent
      | some q =>
        rw [hq] at hent
        cases hent with
        | some h1 =>
          obtain rfl := Option.some.inj (hn.symm.trans h1)
          exact Or.inl (Or.inr ⟨p', k, hq⟩)
    · refine Or.inr fun k => ?_
      have hent := hc.sim.entry n i hn k
      rw [hempty k] at hent
      cases hq : h'.entry i k with
      | none => rfl
      | some q =>
        rw [hq] at hent
        cases hent

theorem Settled.new (hs : Settled h R) (ht : TreeInv h R) {n : Node} (hn : n.entries = ∅) :
    Settled (h.alloc n) fun x => R x ∨ x = h.next := by
  intro i hlt hi
  by_cases hnew : i = h.next
  · exact Or.inl (Or.inl (Or.inr hnew))
  have hlt' : i < h.next := Nat.lt_of_le_of_ne (Nat.le_of_lt_succ hlt) hnew
  rw [isDir_alloc, if_neg hnew] at hi
  refine (hs i hlt' hi).imp ?_ fun hempty k => ?_
  · rintro (hroot | ⟨p, k, he⟩)
    · exact Or.inl (Or.inl hroot)
    · refine Or.inr ⟨p, k, ?_⟩
      rw [entry_alloc h hn, if_neg (ht.child p k i he).1.ne]
      exact he
  · rw [entry_alloc h hn, if_neg hnew]
    exact hempty k

/-! ### Paths -/

/-- A path leads from the root to `n`. -/
def Heap.Reached (h : Heap) (root n : NodeId) : Prop :=
  ∃ name base, h.resolve root root name false = .ok (n, base)

/-- The names that lead to a held directory, by induction on the way up from it. -/
theorem exists_find (ht : TreeInv h R) (hs : Settled h R) (hr : R r) (hc : Climbs h.parent r d)
    (hlt : d < h.next) (hd : h.isDir d = true) (hh : h.Held R d) :
    ∃ ps, (∀ p ∈ ps, Plain p) ∧ h.find r ps = some d := by
  induction hc with
  | refl => exact ⟨[], nofun, rfl⟩
  | @step d b hp hcb ih =>
    rcases hh with hroot | ⟨p, k, he⟩
    · obtain rfl := ht.root_unique hr hroot (.step hp hcb) .refl
      exact ⟨[], nofun, rfl⟩
    · obtain rfl := Option.some.inj (hp.symm.trans (ht.childDir p k d he hd))
      obtain ⟨hblt, hbd, -, hk⟩ := ht.child b k d he
      obtain ⟨ps, hps, hf⟩ := ih hblt hbd (hs.held ht he)
      exact ⟨ps ++ [k], plain_snoc hps hk.plain, (find_snoc hf hbd).trans he⟩

/-- **Every entry** is at the end of a path from the root. -/
theorem reached_of_entry (ht : TreeInv h R) (hs : Settled h R) (hr : R r) (hb : Below h r d)
    {k : Str} {c : NodeId} (he : h.entry d k = some c) : h.Reached r c := by
  obtain ⟨hlt, hd, -, hk⟩ := ht.child d k c he
  obtain ⟨ps, hps, hf⟩ := exists_find ht hs hr (hb.climbs hd) hlt hd (hs.held ht he)
  have hf' : h.find r (ps ++ [k]) = some c := (find_snoc hf hd).trans he
  exact ⟨_, _, resolve_found (List.append_ne_nil_of_right_ne_nil ps (List.cons_ne_nil k []))
    (plain_snoc hps hk.plain) hf'⟩

theorem not_reached_of_empty {n : NodeId} (hp : h.parent r = some r)
    (hempty : ∀ k, h.entry r k = none) (hn : n ≠ r) : ¬ h.Reached r n := by
  rintro ⟨name, base, hres⟩
  have hclosed : WalkClosed h fun x => x = r := by
    constructor
    · rintro x p rfl hx
      exact Option.some.inj (hx.symm.trans hp)
    · rintro x k c rfl he
      rw [hempty k] at he
      cases he
  exact hn (hclosed.resolve_mem rfl hres)

end

/-! ### Runs -/

/-- Calls put entries only into directories that have not been removed. -/
def IntoLinked (w : World) (c : Call) : Prop := ∀ x ∈ w.enters c, w.heap.linked x.1 x.2 = true

instance (w : World) (c : Call) : Decidable (IntoLinked w c) :=
  inferInstanceAs (Decidable (∀ x ∈ w.enters c, w.heap.linked x.1 x.2 = true))

section

variable {w w' : World} {f : File}

theorem World.addFile_settled {r : Heap × Except Fault File} {a : Ans}
    (hr : Settled r.1 w.IsRoot) (hc : w.addFile r = (w', a)) : Settled w'.heap w'.IsRoot := by
  unfold World.addFile at hc
  split at hc
  · obtain ⟨rfl, -⟩ := Prod.mk.inj hc
    exact hr
  · obtain ⟨rfl, -⟩ := Prod.mk.inj hc
    exact hr

/-- **Every call** that puts its entry into a linked directory keeps the namespace settled. -/
theorem call_settled (hi : WorldInv w) (hs : Settled w.heap w.IsRoot) {c : Call} {a : Ans}
    (hl : IntoLinked w c) (hc : w.call c = some (w', a)) : Settled w'.heap w'.IsRoot := by
  have ht := hi.tree
  -- what the condition says of a handle's root
  have hheld : ∀ {f d}, f ∈ w.files → (f.fs.root, d) ∈ w.enters c → w.heap.Held w.IsRoot d :=
    fun hf hd => held_of_linked (hi.handle _ hf).root (hl _ hd)
  cases c with
  | new now =>
    obtain ⟨rfl, rfl⟩ := Prod.mk.inj (Option.some.inj hc)
    rw [isRoot_append]
    exact hs.new ht rfl
  | clone k spare =>
    obtain ⟨fs, hk, hc⟩ := map_eq_some_iff.mp hc
    have hr := isRoot_of_getElem hk
    obtain ⟨h', fs', copies, hclone, hcl⟩ := clone_isClone ht hr spare
    rw [hclone] at hc
    obtain ⟨rfl, rfl⟩ := Prod.mk.inj hc
    rw [isRoot_append]
    exact hcl.settled ht hs hr
  | addTar k entries broken now =>
    obtain ⟨fs, hk, hc⟩ := map_eq_some_iff.mp hc
    obtain ⟨rfl, -⟩ := Prod.mk.inj hc
    have hinv := tarInv_settled (isRoot_of_getElem hk) now
    exact (hinv.addTar ⟨ht, hs⟩ entries broken).settled
  | openPath k name now =>
    obtain ⟨fs, hk, hc⟩ := map_eq_some_iff.mp hc
    refine World.addFile_settled ?_ hc
    unfold FS.openPath
    split_ifs
    · exact hs
    · obtain ⟨h', he, hst⟩ := openAt_effect w.heap fs.rootFile name O_RDONLY 0 now
      exact (hs.effect ht (fun d k hp => by cases hp.1) he).congr hst
  | openAt i name flag perm now =>
    obtain ⟨f, hf, hc⟩ := map_eq_some_iff.mp hc
    obtain ⟨h', he, hst⟩ := openAt_effect w.heap f name flag perm now
    refine World.addFile_settled ((hs.effect ht (fun d k hp => ?_) he).congr hst) hc
    refine hheld (List.mem_of_getElem? hf) ?_
    simp only [World.enters, hf, bind_some, hp.1, if_true]
    exact World.mem_parentDir hp.2
  | mkdirAt | rmdirAt | unlinkAt | renameAt | linkAt =>
    obtain ⟨f, r, now, hf, hx, hr⟩ := call_names rfl hc
    obtain ⟨rfl, -⟩ := Prod.mk.inj hx
    exact hs.effect ht (fun d k hp => hheld (List.mem_of_getElem? hf) hp.enters) hr.effect
  | readAt | read | writeAt | write | seek | truncate | stat | statAt | readDir | chtimes
  | chtimesAt =>
    obtain ⟨f, -, h⟩ := call_content rfl hc
    obtain ⟨htree, hroots⟩ := h.sameTree
    exact hroots ▸ hs.congr htree

theorem settled_of_reachable (hw : (worldSystem.restrict IntoLinked).Reachable w) :
    WorldInv w ∧ Settled w.heap w.IsRoot := by
  apply hw.invariant
  · intro w0 h0
    rw [show w0 = .empty from h0]
    exact ⟨worldInv_empty, fun d hd => absurd hd (Nat.not_lt_zero d)⟩
  · rintro w1 c w2 a ⟨hi, hs⟩ hstep
    obtain ⟨hl, hstep⟩ := System.restrict_step.mp hstep
    exact ⟨(call_inv hi hstep).inv, call_settled hi hs hl hstep⟩

theorem renameAt_entry {h h' : Heap} {oldName newName : Str} {newDir : Option File} {now : ℤ}
    (hr : f.renameAt h oldName newDir newName now = (h', .ok ())) :
    ∃ odir obase ndir nbase n, RenameArgs h f oldName newDir newName odir obase ndir nbase n ∧
      h'.entry ndir nbase = some n := by
  obtain ⟨odir, obase, ndir, nbase, n, ha, ⟨hsame, rfl⟩ | ⟨-, rfl⟩⟩ := renameAt_ok hr
  · exact ⟨odir, obase, ndir, nbase, n, ha, hsame⟩
  · refine ⟨odir, obase, ndir, nbase, n, ha, ?_⟩
    rw [entry_moved, if_pos ⟨rfl, rfl⟩]

theorem names_below (hi : WorldInv w) {c : Call} {i : ℕ} (hc : c.names = some i) {a : Ans}
    (hw : worldSystem.step w c = some (w', a)) {r n : NodeId} (hr : w.IsRoot r)
    (hb : Below w.heap r n) : Below w'.heap r n := by
  obtain ⟨x, hx, hd⟩ := names_done hi hc hw
  obtain ⟨rfl, -⟩ := Prod.mk.inj hx
  exact hd.kept.ext.below hr hb

/-- **Removed directories stay empty**, in all runs that put entries only into linked ones; what is
renamed or linked can be reached. -/
theorem entries_reached (hw : (worldSystem.restrict IntoLinked).Reachable w) :
    (∀ f ∈ w.files, w.heap.isDir f.node = true → w.heap.linked f.fs.root f.node = false →
      ∀ k, w.heap.entry f.node k = none) ∧
    (∀ i oldName newDir newName now w', (worldSystem.restrict IntoLinked).step w
        (.renameAt i oldName newDir newName now) = some (w', .done) →
      ∃ f nd odir obase ndir nbase n, w.files[i]? = some f ∧ w.otherFile newDir = some nd ∧
        RenameArgs w.heap f oldName nd newName odir obase ndir nbase n ∧
        w'.heap.Reached f.fs.root n) ∧
    (∀ i oldName newDir newName now w', (worldSystem.restrict IntoLinked).step w
        (.linkAt i oldName newDir newName now) = some (w', .done) →
      ∃ f n base, w.files[i]? = some f ∧
        w.heap.resolve f.fs.root f.node oldName false = .ok (n, base) ∧
        w'.heap.Reached f.fs.root n) := by
  obtain ⟨hi, hs⟩ := settled_of_reachable hw
  have ht := hi.tree
  refine ⟨fun f hf hd hl => ?_, ?_, ?_⟩
  · have hh := hi.handle f hf
    refine (hs f.node hh.below.lt hd).resolve_left fun hheld => ?_
    rw [linked_of_held ht hh.root hh.below hd hheld] at hl
    cases hl
  · intro i oldName newDir newName now w' hstep
    obtain ⟨hi', hs'⟩ := settled_of_reachable (hw.step hstep)
    obtain ⟨-, hdone⟩ := System.restrict_step.mp hstep
    obtain ⟨f, hf, hcall⟩ := bind_eq_some_iff.mp hdone
    obtain ⟨nd, hnd, hcall⟩ := bind_eq_some_iff.mp hcall
    obtain ⟨hok, rfl⟩ := World.result_done (Option.some.inj hcall)
    obtain ⟨odir, obase, ndir, nbase, n, ha, he⟩ := renameAt_entry hok
    have hh := hi.handleAt hf
    have hb := names_below hi rfl hdone hh.root (hi.place (World.found_newParent hnd ha.new).1).below
    exact ⟨f, nd, odir, obase, ndir, nbase, n, hf, hnd, ha,
      reached_of_entry hi'.tree hs' hh.root hb he⟩
  · intro i oldName newDir newName now w' hstep
    obtain ⟨hi', hs'⟩ := settled_of_reachable (hw.step hstep)
    obtain ⟨-, hdone⟩ := System.restrict_step.mp hstep
    obtain ⟨f, hf, hcall⟩ := bind_eq_some_iff.mp hdone
    obtain ⟨nd, hnd, hcall⟩ := bind_eq_some_iff.mp hcall
    obtain ⟨hok, rfl⟩ := World.result_done (Option.some.inj hcall)
    obtain ⟨e, -, heq⟩ | ⟨n, base, ndir, nbase, hold, -, hnew, -, heq⟩ :=
      linkAt_cases w.heap f oldName nd newName now
    · cases (Prod.mk.inj (hok.symm.trans heq)).2
    have hh := hi.handleAt hf
    have hb := names_below hi rfl hdone hh.root (hi.place (World.found_newParent hnd hnew).1).below
    have he : (f.linkAt w.heap oldName nd newName now).1.entry ndir nbase = some n := by
      rw [heq, (sameTree_touch _ _ _).entry, entry_setEntry, if_pos ⟨rfl, rfl⟩]
    exact ⟨f, n, base, hf, hold, reached_of_entry hi'.tree hs' hh.root hb he⟩

end

/-- A removed directory that is open, and a file renamed in the root. -/
theorem entries_reached_rename : ∃ w w', (worldSystem.restrict IntoLinked).Reachable w ∧
    w.heap.linked 0 1 = false ∧ (∀ k, w.heap.entry 1 k = none) ∧
    (worldSystem.restrict IntoLinked).step w (.renameAt 0 [120] (some 0) [121] 0) =
      some (w', .done) ∧
    ∃ f n, w.files[0]? = some f ∧ w'.heap.Reached f.fs.root n := by
  have hr := @System.reachable_of_exec _ _ _ (worldSystem.restrict IntoLinked) .empty _
    [.new 0, .openPath 0 [46] 0, .mkdirAt 0 [97] 0 0, .openAt 0 [97] O_RDONLY 0 0,
      .openAt 0 [120] createFlags 0 0, .rmdirAt 0 [97] 0] _ rfl rfl
  obtain ⟨hempty, hrename, -⟩ := entries_reached hr
  refine ⟨_, _, hr, rfl, ?_, rfl, ?_⟩
  · exact hempty ⟨⟨0⟩, 1, [97], O_RDONLY, 0, 0⟩ (by decide) rfl rfl
  · obtain ⟨f, nd, odir, obase, ndir, nbase, n, hf, -, -, hn⟩ :=
      hrename 0 [120] (some 0) [121] 0 _ rfl
    exact ⟨f, n, hf, hn⟩

/-- A file is renamed into a directory created in a removed one. -/
theorem file_lost : ∃ w w' w'', worldSystem.Reachable w ∧ w.heap.linked 0 1 = false ∧
    worldSystem.step w (.mkdirAt 1 [98] 0 0) = some (w', .done) ∧
    worldSystem.step w' (.renameAt 0 [120] (some 1) [121] 0) = some (w'', .done) ∧
    w'.heap.entry 0 [120] = some 2 ∧ ¬ w''.heap.Reached 0 2 := by
  have hr := @System.reachable_of_exec _ _ _ worldSystem .empty _
    [.new 0, .openPath 0 [46] 0, .mkdirAt 0 [97] 0 0, .openAt 0 [97] O_RDONLY 0 0,
      .openAt 0 [120] createFlags 0 0, .rmdirAt 0 [97] 0] _ rfl rfl
  exact ⟨_, _, _, hr, rfl, rfl, rfl, rfl,
    not_reached_of_empty rfl (entry_none_of_length (by decide)) (by decide)⟩

end PgZero.Memfs
