import PgZero.Memfs.Calls
import PgZero.Memfs.Follow

/-!
# Nodes and their filesystems

Every node belongs to the filesystem in which it was created: parents and entries do not lead out of
it, not even for files that have no name any more. A call on one filesystem changes nodes of that
filesystem only.

* `openAt_touches`, **`Effect.touches`**: the calls.
-/

set_option autoImplicit false

namespace PgZero.Memfs

open Lib Heap

/-- A node, its parent and its entries have one owner. -/
structure Owned (h : Heap) (own : NodeId → NodeId) : Prop where
  parent : ∀ n p, n < h.next → h.parent n = some p → p < h.next ∧ own p = own n
  entry : ∀ n k c, n < h.next → h.entry n k = some c → c < h.next ∧ own c = own n

/-- Node `i` belongs to the filesystem with root `r`. -/
def Mine (h : Heap) (own : NodeId → NodeId) (r i : NodeId) : Prop := i < h.next ∧ own i = r

/-- The owners, with new nodes from number `n` on that belong to `r`. -/
def extendOwn (own : NodeId → NodeId) (n r : NodeId) : NodeId → NodeId :=
  fun i => if i < n then own i else r

/-- A change of the filesystem with root `r` only. -/
structure Touches (r : NodeId) (own : NodeId → NodeId) (h h' : Heap) : Prop where
  next : h.next ≤ h'.next
  frame : ∀ i, i < h.next → own i ≠ r → h'.node i = h.node i
  owned : Owned h' (extendOwn own h.next r)

section

variable {h h' h1 h2 : Heap} {own own' : NodeId → NodeId} {r i : NodeId}

theorem Owned.closed (ho : Owned h own) (r : NodeId) : WalkClosed h (Mine h own r) := by
  constructor
  · rintro n p ⟨hn, rfl⟩ hp
    exact ho.parent n p hn hp
  · rintro n k c ⟨hn, rfl⟩ he
    exact ho.entry n k c hn he

theorem Owned.congr (ho : Owned h own) (hown : ∀ i, i < h.next → own' i = own i) :
    Owned h own' := by
  constructor
  · intro n p hn hp
    obtain ⟨hlt, heq⟩ := ho.parent n p hn hp
    exact ⟨hlt, by rw [hown p hlt, hown n hn, heq]⟩
  · intro n k c hn he
    obtain ⟨hlt, heq⟩ := ho.entry n k c hn he
    exact ⟨hlt, by rw [hown c hlt, hown n hn, heq]⟩

theorem extendOwn_lt {n : NodeId} (hi : i < n) : extendOwn own n r i = own i := if_pos hi

theorem extendOwn_ge {n : NodeId} (hi : n ≤ i) : extendOwn own n r i = r :=
  if_neg (Nat.not_lt.mpr hi)

theorem extendOwn_extendOwn {m n : NodeId} (hmn : m ≤ n) :
    extendOwn (extendOwn own m r) n r = extendOwn own m r := by
  funext i
  by_cases hi : i < n
  · exact extendOwn_lt hi
  · have hni : n ≤ i := Nat.le_of_not_lt hi
    rw [extendOwn_ge hni, extendOwn_ge (hmn.trans hni)]

theorem Owned.extend (ho : Owned h own) (r : NodeId) : Owned h (extendOwn own h.next r) :=
  ho.congr fun _ hi => extendOwn_lt hi

theorem Touches.refl (ho : Owned h own) (r : NodeId) : Touches r own h h :=
  ⟨le_refl _, fun _ _ _ => rfl, ho.extend r⟩

theorem Touches.trans (a : Touches r own h h1)
    (b : Touches r (extendOwn own h.next r) h1 h2) : Touches r own h h2 := by
  refine ⟨a.next.trans b.next, fun i hi hne => ?_, ?_⟩
  · rw [b.frame i (hi.trans_le a.next) (by rwa [extendOwn_lt hi]), a.frame i hi hne]
  · have hb := b.owned
    rwa [extendOwn_extendOwn a.next] at hb

theorem Touches.mine (a : Touches r own h h') {r' : NodeId} (hi : Mine h own r' i) :
    Mine h' (extendOwn own h.next r) r' i :=
  ⟨hi.1.trans_le a.next, (extendOwn_lt hi.1).trans hi.2⟩

theorem Owned.resolve (ho : Owned h own) {root dir n : NodeId} {name base : Str} {po : Bool}
    (hd : Mine h own r dir) (hr : h.resolve root dir name po = .ok (n, base)) : Mine h own r n :=
  (ho.closed r).resolve_mem hd hr

theorem Owned.mine_entry (ho : Owned h own) {d c : NodeId} {k : Str} (hd : Mine h own r d)
    (he : h.entry d k = some c) : Mine h own r c :=
  (ho.closed r).entry d k c hd he

/-! ### Single changes -/

/-- A change of one node, with the parent and the entries it may have afterwards. -/
theorem touches_modify (ho : Owned h own) {f : Node → Node} (hi : Mine h own r i)
    (hp : ∀ p, (f (h.node i)).parent = some p → Mine h own r p)
    (he : ∀ k c, (f (h.node i)).entries.lookup k = some c → Mine h own r c) :
    Touches r own h (h.modify i f) := by
  refine ⟨le_refl _, fun j _ hne => ?_, ?_⟩
  · rw [node_modify, if_neg]
    rintro rfl
    exact hne hi.2
  · suffices hown : Owned (h.modify i f) own from hown.extend r
    refine ⟨fun n p hn hpar => ?_, fun n k c hn hent => ?_⟩
    · rw [parent, node_modify] at hpar
      split_ifs at hpar with hni
      · obtain ⟨h1, h2⟩ := hp p (hni ▸ hpar)
        exact ⟨h1, by rw [h2, hni, hi.2]⟩
      · exact ho.parent n p hn hpar
    · rw [entry, node_modify] at hent
      split_ifs at hent with hni
      · obtain ⟨h1, h2⟩ := he k c (hni ▸ hent)
        exact ⟨h1, by rw [h2, hni, hi.2]⟩
      · exact ho.entry n k c hn hent

theorem Owned.parent_mine (ho : Owned h own) (hi : Mine h own r i) {p : NodeId}
    (hp : (h.node i).parent = some p) : Mine h own r p :=
  (ho.closed r).parent i p hi hp

theorem touches_same (ho : Owned h own) {f : Node → Node} (hi : Mine h own r i)
    (hs : SameNode (h.node i) (f (h.node i))) : Touches r own h (h.modify i f) := by
  refine touches_modify ho hi (fun p hp => ?_) (fun k c hc => ?_)
  · rw [hs.parent] at hp
    exact ho.parent_mine hi hp
  · rw [hs.entries] at hc
    exact ho.mine_entry hi hc

theorem touches_setNode (ho : Owned h own) {n : Node} (hi : Mine h own r i)
    (hs : SameNode (h.node i) n) : Touches r own h (h.modify i fun _ => n) :=
  touches_same (f := fun _ => n) ho hi hs

theorem touches_touch (ho : Owned h own) (hi : Mine h own r i) (now : ℤ) :
    Touches r own h (h.touch i now) :=
  touches_same ho hi ⟨rfl, rfl, rfl⟩

theorem touches_setEntry (ho : Owned h own) {d c : NodeId} (hd : Mine h own r d) (k : Str)
    (hc : Mine h own r c) : Touches r own h (h.setEntry d k c) := by
  refine touches_modify ho hd (fun p hp => ho.parent_mine hd hp) (fun k' c' he => ?_)
  by_cases hk : k' = k
  · subst hk
    have he : ((h.node d).entries.insert k' c).lookup k' = some c' := he
    rw [AList.lookup_insert] at he
    exact Option.some.inj he ▸ hc
  · have he : ((h.node d).entries.insert k c).lookup k' = some c' := he
    rw [AList.lookup_insert_ne hk] at he
    exact ho.mine_entry hd he

theorem touches_delEntry (ho : Owned h own) {d : NodeId} (hd : Mine h own r d) (k : Str) :
    Touches r own h (h.delEntry d k) := by
  refine touches_modify ho hd (fun p hp => ho.parent_mine hd hp) (fun k' c' he => ?_)
  have he : ((h.node d).entries.erase k).lookup k' = some c' := he
  by_cases hk : k' = k
  · rw [hk, AList.lookup_erase] at he
    cases he
  · rw [AList.lookup_erase_ne hk] at he
    exact ho.mine_entry hd he

theorem touches_setParent (ho : Owned h own) {n t : NodeId} (hn : Mine h own r n)
    (ht : Mine h own r t) : Touches r own h (h.setParent n t) := by
  refine touches_modify ho hn (fun p hp => ?_) (fun k c hc => ho.mine_entry hn hc)
  exact Option.some.inj hp ▸ ht

theorem touches_alloc (ho : Owned h own) {n : Node} (hn : n.entries = ∅)
    (hp : ∀ p, n.parent = some p → Mine h own r p ∨ p = h.next) :
    Touches r own h (h.alloc n) := by
  have hold : ∀ j, j < h.next → (h.alloc n).node j = h.node j := fun j hj => by
    rw [node_alloc, if_neg hj.ne]
  have hnew : (h.alloc n).node h.next = n := by rw [node_alloc, if_pos rfl]
  refine ⟨Nat.le_succ _, fun j hj _ => hold j hj, fun j p hj hpar => ?_, fun j k c hj he => ?_⟩
  · rcases Nat.lt_succ_iff_lt_or_eq.mp hj with hlt | rfl
    · rw [parent, hold j hlt] at hpar
      obtain ⟨h1, h2⟩ := ho.parent j p hlt hpar
      exact ⟨Nat.lt_succ_of_lt h1, by rw [extendOwn_lt h1, extendOwn_lt hlt, h2]⟩
    · rw [parent, hnew] at hpar
      rw [extendOwn_ge (le_refl _)]
      rcases hp p hpar with ⟨h1, h2⟩ | rfl
      · exact ⟨Nat.lt_succ_of_lt h1, (extendOwn_lt h1).trans h2⟩
      · exact ⟨Nat.lt_succ_self _, extendOwn_ge (le_refl _)⟩
  · rcases Nat.lt_succ_iff_lt_or_eq.mp hj with hlt | rfl
    · rw [entry, hold j hlt] at he
      obtain ⟨h1, h2⟩ := ho.entry j k c hlt he
      exact ⟨Nat.lt_succ_of_lt h1, by rw [extendOwn_lt h1, extendOwn_lt hlt, h2]⟩
    · rw [entry, hnew, hn, AList.lookup_empty] at he
      cases he

theorem touches_addChild (ho : Owned h own) {d : NodeId} {k : Str} {n : Node}
    (hd : Mine h own r d) (hn : n.entries = ∅) (hp : ∀ p, n.parent = some p → p = d) (now : ℤ) :
    Touches r own h (((h.alloc n).setEntry d k h.next).touch d now) ∧
      Mine (((h.alloc n).setEntry d k h.next).touch d now) (extendOwn own h.next r) r h.next := by
  have ha : Touches r own h (h.alloc n) := touches_alloc ho hn fun p h1 => Or.inl (hp p h1 ▸ hd)
  have hnew : Mine (h.alloc n) (extendOwn own h.next r) r h.next :=
    ⟨Nat.lt_succ_self _, extendOwn_ge (le_refl _)⟩
  have hset := ha.trans (touches_setEntry ha.owned (ha.mine hd) k hnew)
  have htouch := hset.trans (touches_touch hset.owned (hset.mine hd) now)
  exact ⟨htouch, hnew⟩

/-! ### Calls -/

variable {f : File} {name : Str} {now : ℤ}

/-- A handle on a node of its filesystem. -/
def OwnFile (h : Heap) (own : NodeId → NodeId) (f : File) : Prop := Mine h own f.fs.root f.node

/-- What a call that opens a file leaves behind. -/
structure TouchesFile (fs : FS) (own : NodeId → NodeId) (h : Heap)
    (x : Heap × Except Fault File) : Prop extends Touches fs.root own h x.1 where
  file : ∀ g, x.2 = .ok g → g.fs = fs ∧ Mine x.1 (extendOwn own h.next fs.root) fs.root g.node

theorem TouchesFile.error (ho : Owned h own) (fs : FS) (e : Fault) :
    TouchesFile fs own h (h, .error e) :=
  ⟨.refl ho fs.root, fun _ hg => by cases hg⟩

theorem openFound_touches (ho : Owned h own) {fs : FS} {n : NodeId} (hn : Mine h own fs.root n)
    (name : Str) (flag : Flags) (now : ℤ) :
    TouchesFile fs own h (h.openFound fs n name flag now) := by
  have ht : Touches fs.root own h (h.openFound fs n name flag now).1 :=
    touches_setNode ho hn (openNode_same _ _ _ _)
  refine ⟨ht, fun g hg => ?_⟩
  have hfile : g.fs = fs ∧ g.node = n := by
    unfold openFound File.openNode at hg
    dsimp only at hg
    split_ifs at hg <;> cases hg <;> exact ⟨rfl, rfl⟩
  refine ⟨hfile.1, ?_⟩
  rw [hfile.2]
  exact ht.mine hn

theorem File.Finds.mine (ho : Owned h own) (hf : OwnFile h own f) {n : NodeId} (hn : f.Finds h n) :
    Mine h own f.fs.root n := by
  induction hn with
  | self => exact hf
  | name hres => exact ho.resolve hf hres
  | entry _ he ih => exact ho.mine_entry ih he

theorem openAt_touches (ho : Owned h own) (hf : OwnFile h own f) (name : Str) (flag : Flags)
    (perm : FileMode) (now : ℤ) : TouchesFile f.fs own h (f.openAt h name flag perm now) := by
  obtain ⟨e, -, heq⟩ | ⟨n, hn, heq⟩ | ⟨d, k, -, hp, -, heq⟩ := openAt_cases h f name flag perm now
  · exact heq ▸ .error ho _ _
  · exact heq ▸ openFound_touches ho (hn.mine ho hf) name flag now
  · rw [heq]
    obtain ⟨hadd, hnew⟩ := touches_addChild (k := k)
      (n := ⟨perm.perm ||| 0o600, .nil, now, ∅, none⟩) ho (ho.resolve hf hp) rfl
      (fun p hp => by cases hp) now
    have hopen := openFound_touches hadd.owned hnew name flag now
    refine ⟨hadd.trans hopen.toTouches, fun g hg => ?_⟩
    have hfile := hopen.file g hg
    rwa [extendOwn_extendOwn hadd.next] at hfile

theorem rootFile_own {fs : FS} (hr : Mine h own fs.root fs.root) : OwnFile h own fs.rootFile := hr

theorem openPath_touches (ho : Owned h own) {fs : FS} (hr : Mine h own fs.root fs.root) (name : Str)
    (now : ℤ) : TouchesFile fs own h (fs.openPath h name now) := by
  unfold FS.openPath
  split_ifs
  · exact .error ho _ _
  · exact openAt_touches ho (rootFile_own hr) name O_RDONLY 0 now

theorem touches_moveEntry (ho : Owned h own) {odir ndir n : NodeId} (hodir : Mine h own r odir)
    (hndir : Mine h own r ndir) (hn : Mine h own r n) (obase nbase : Str) (now : ℤ) :
    Touches r own h (h.moveEntry odir obase ndir nbase n now) := by
  have h1 := touches_delEntry ho hodir obase
  have h2 := h1.trans (touches_setEntry h1.owned (h1.mine hndir) nbase (h1.mine hn))
  have h3 := h2.trans (touches_touch h2.owned (h2.mine hodir) now)
  exact h3.trans (touches_touch h3.owned (h3.mine hndir) now)

/-- **A call on a handle** changes nodes of its filesystem only. -/
theorem Effect.touches {P : NodeId → Str → Prop} (ho : Owned h own) (hf : OwnFile h own f)
    (hP : ∀ d k, P d k → Mine h own f.fs.root d) (he : Effect h f now P h') :
    Touches f.fs.root own h h' := by
  cases he with
  | same => exact .refl ho _
  | create hp hnone hn hpar =>
    refine (touches_addChild ho (hP _ _ hp) hn (fun p h1 => ?_) now).1
    rw [hpar] at h1
    split_ifs at h1
    exact (Option.some.inj h1).symm
  | @remove d c k hd he hempty =>
    have hmine := hd.mine ho hf
    have hdel := touches_delEntry ho hmine k
    exact hdel.trans (touches_touch hdel.owned (hdel.mine hmine) now)
  | @link d c k hc hfile hp hnone =>
    have hmine := hP d k hp
    have hset := touches_setEntry ho hmine k (hc.mine ho hf)
    exact hset.trans (touches_touch hset.owned (hset.mine hmine) now)
  | @move odir ndir n obase nbase hd hp he hm =>
    have hodir := hd.mine ho hf
    have hndir := hP ndir nbase hp
    have hn := ho.mine_entry hodir he
    unfold moved
    split_ifs
    · have hset := touches_setParent ho hn hndir
      exact hset.trans (touches_moveEntry hset.owned (hset.mine hodir) (hset.mine hndir)
        (hset.mine hn) obase nbase now)
    · exact touches_moveEntry ho hodir hndir hn obase nbase now

/-! ### Archives -/

variable {fs : FS}

theorem tarInv_touches (hr : Mine h own fs.root fs.root) (now : ℤ) :
    TarInv fs now (Touches fs.root own h)
      fun h' => Mine h' (extendOwn own h.next fs.root) fs.root where
  mkdir _ name perm ht :=
    ht.trans ((mkdirAt_tries (fun _ _ hp => hp) perm now).effect.touches ht.owned
      (rootFile_own (ht.mine hr)) fun _ _ hp => ht.owned.resolve (ht.mine hr) hp)
  create _ name perm ht :=
    ht.trans (openAt_touches ht.owned (rootFile_own (ht.mine hr)) name createFlags perm now).toTouches
  file h' name perm f ht hf := by
    have hopen := openAt_touches ht.owned (rootFile_own (ht.mine hr)) name createFlags perm now
    have hmine : Mine _ (extendOwn (extendOwn own h.next fs.root) h'.next fs.root) fs.root f.node :=
      (hopen.file f hf).2
    rwa [extendOwn_extendOwn ht.next] at hmine
  node _ _ _ ht hi hs := ⟨ht.trans (touches_same ht.owned hi hs), hi⟩

end

end PgZero.Memfs
