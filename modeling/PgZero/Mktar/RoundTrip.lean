import PgZero.Memfs.Unpack
import PgZero.Memfs.WorldTree
import PgZero.Mktar.Walk

/-!
# Packing and unpacking

`AddTar` of what `mktar` writes for a tree makes the same tree: the walk writes every directory
before what is in it, so each entry finds its directory and adds one node.

* **`walk_built`**: the members of a directory, read in its place.
* **`addTar_mktar`**.
-/

set_option autoImplicit false

namespace PgZero.Mktar

open Lib GoPath Memfs List Option

/-! ### Modes -/

theorem perm_perm (m : FileMode) : m.perm.perm = m.perm := by
  rw [FileMode.perm, FileMode.perm, BitVec.and_assoc, BitVec.and_self]

theorem perm_or (a b : FileMode) : FileMode.perm (a ||| b) = a.perm ||| b.perm := by
  ext i
  simp [FileMode.perm, Bool.and_or_distrib_right]

theorem perm_fileMode (m : FileMode) : FileMode.perm (m.perm ||| 0o600) = m.perm ||| 0o600 := by
  rw [perm_or, perm_perm]
  rfl

theorem perm_dirMode (m : FileMode) :
    FileMode.perm (modeDir ||| m.perm ||| 0o700) = m.perm ||| 0o700 := by
  have hdir : FileMode.perm modeDir = 0#32 := by decide
  rw [perm_or, perm_or, perm_perm, hdir, BitVec.zero_or]
  rfl

/-! ### Nodes and items -/

/-- The node of a directory or a regular file, with the bits that `MkdirAt` and `OpenAt` add. -/
def IsItem (h : Heap) (n : NodeId) : Item → Prop
  | .file mode content => h.isDir n = false ∧ (h.node n).mode.perm = mode.perm ||| 0o600 ∧
      (h.node n).data.toList = content
  | .dir mode => h.isDir n = true ∧ (h.node n).mode.perm = mode.perm ||| 0o700

/-- The nodes `S` hold what is in the tree `t`, below the directory `d`. -/
def Holds (h : Heap) (S : NodeId → Prop) : NodeId → DirTree → Prop
  | _, .nil => True
  | d, .file name mode content rest =>
    (∃ n, S n ∧ h.entry d name = some n ∧ IsItem h n (.file mode content)) ∧ Holds h S d rest
  | d, .dir name mode entries rest =>
    (∃ n, S n ∧ h.entry d name = some n ∧ IsItem h n (.dir mode) ∧
      (∀ k, k ∉ entries.names → h.entry n k = none) ∧ Holds h S n entries) ∧ Holds h S d rest
  | d, .other name rest => h.entry d name = none ∧ Holds h S d rest

section

variable {h h' : Heap} {S S' : NodeId → Prop}

theorem IsItem.congr {n : NodeId} {x : Item} (hx : IsItem h n x) (hn : h'.node n = h.node n) :
    IsItem h' n x := by
  cases x with
  | file mode content | dir mode =>
    unfold IsItem Heap.isDir at hx ⊢
    rwa [hn]

theorem Holds.congr {d : NodeId} {t : DirTree} (ht : Holds h S d t) (hS : ∀ i, S i → S' i)
    (hn : ∀ i, S i → h'.node i = h.node i) (hd : ∀ k, h'.entry d k = h.entry d k) :
    Holds h' S' d t := by
  induction t generalizing d with
  | nil => trivial
  | file name mode content rest ih =>
    obtain ⟨⟨n, hs, he, hx⟩, ht⟩ := ht
    exact ⟨⟨n, hS n hs, (hd name).trans he, hx.congr (hn n hs)⟩, ih ht hd⟩
  | dir name mode entries rest ihe ih =>
    obtain ⟨⟨n, hs, he, hx, hfree, hsub⟩, ht⟩ := ht
    have hn' : ∀ k, h'.entry n k = h.entry n k := fun k => by rw [Heap.entry, hn n hs, Heap.entry]
    exact ⟨⟨n, hS n hs, (hd name).trans he, hx.congr (hn n hs),
      fun k hk => (hn' k).trans (hfree k hk), ihe hsub hn'⟩, ih ht hd⟩
  | other name rest ih => exact ⟨(hd name).trans ht.1, ih ht.2 hd⟩

/-- A path below the directory leads to a node exactly if there is an item. -/
theorem Holds.find {d : NodeId} {t : DirTree} (ht : Holds h S d t) (hd : h.isDir d = true) {p : Str}
    (hp : p ∈ t.names) (ps : List Str) :
    Option.Rel (IsItem h) (h.find d (p :: ps)) (t.item (p :: ps)) := by
  induction t generalizing d p ps with
  | nil => cases hp
  | file name mode content rest ih =>
    obtain ⟨⟨n, -, he, hx⟩, ht⟩ := ht
    rw [DirTree.item]
    by_cases hname : p = name
    · rw [if_pos hname, Heap.find, if_pos hd, hname, he, bind_some]
      cases ps with
      | nil => exact .some hx
      | cons q qs =>
        rw [Heap.find, if_neg (by simp [hx.1]), if_neg (cons_ne_nil q qs)]
        exact .none
    · rw [if_neg hname]
      exact ih ht hd ((mem_cons.mp hp).resolve_left hname) ps
  | dir name mode entries rest ihe ih =>
    obtain ⟨⟨n, -, he, hx, hfree, hsub⟩, ht⟩ := ht
    rw [DirTree.item]
    by_cases hname : p = name
    · rw [if_pos hname, Heap.find, if_pos hd, hname, he, bind_some]
      cases ps with
      | nil => exact .some hx
      | cons q qs =>
        rw [if_neg (cons_ne_nil q qs)]
        by_cases hq : q ∈ entries.names
        · exact ihe hsub hx.1 hq qs
        · rw [DirTree.item_of_notMem hq, Heap.find, hfree q hq, bind_none, ite_self]
          exact .none
    · rw [if_neg hname]
      exact ih ht hd ((mem_cons.mp hp).resolve_left hname) ps
  | other name rest ih =>
    rw [DirTree.item]
    by_cases hname : p = name
    · rw [if_pos hname, Heap.find, hname, ht.1, bind_none, ite_self]
      exact .none
    · rw [if_neg hname]
      exact ih ht.2 hd ((mem_cons.mp hp).resolve_left hname) ps

end

/-! ### Reading the archive -/

/-- The tree is kept, and no entry is lost. -/
structure Grows (R : NodeId → Prop) (h h' : Heap) : Prop extends Kept R h h' where
  keep : ∀ i k c, h.entry i k = some c → h'.entry i k = some c

section

variable {R : NodeId → Prop} {h h' : Heap}

theorem Grows.trans {h1 h2 h3 : Heap} (a : Grows R h1 h2) (b : Grows R h2 h3) : Grows R h1 h3 :=
  ⟨a.toKept.trans b.toKept, fun i k c he => b.keep i k c (a.keep i k c he)⟩

theorem find_lt (ht : TreeInv h R) {d n : NodeId} {ps : List Str} (hd : d < h.next)
    (hf : h.find d ps = some n) : n < h.next := by
  induction ps generalizing d with
  | nil => exact Option.some.inj hf ▸ hd
  | cons p ps ih =>
    obtain ⟨-, hf⟩ := ite_none_right_eq_some.mp hf
    obtain ⟨c, hc, hf⟩ := bind_eq_some_iff.mp hf
    exact ih (ht.child d p c hc).2.2.1 hf

theorem Grows.find (hg : Grows R h h') (ht : TreeInv h R) {d n : NodeId} {ps : List Str}
    (hd : d < h.next) (hf : h.find d ps = some n) : h'.find d ps = some n := by
  induction ps generalizing d with
  | nil => exact hf
  | cons p ps ih =>
    obtain ⟨hdir, hf⟩ := ite_none_right_eq_some.mp hf
    obtain ⟨c, hc, hf⟩ := bind_eq_some_iff.mp hf
    rw [Heap.find, if_pos ((hg.ext.isDir d hd).trans hdir), hg.keep d p c hc, bind_some]
    exact ih (ht.child d p c hc).2.2.1 hf

theorem Adds.grows (ht : TreeInv h R) {d : NodeId} {k : Str} {n : Node} (ha : Adds h h' d k n)
    (hk : Kept R h h') (hfree : h.entry d k = none) : Grows R h h' := by
  refine ⟨hk, fun i k' c he => ?_⟩
  by_cases hi : i = d
  · subst hi
    rw [ha.entry, if_neg (fun h1 => by rw [h1, hfree] at he; cases he)]
    exact he
  · have hlt := (ht.child i k' c he).1
    rwa [Heap.entry, ha.old i hi hlt.ne]

/-- Of the old nodes only the directory `d` changes, and of its entries only the names `ks`. -/
structure Fills (h h' : Heap) (d : NodeId) (ks : List Str) : Prop where
  old : ∀ i, i < h.next → i ≠ d → h'.node i = h.node i
  mode : (h'.node d).mode = (h.node d).mode
  entry : ∀ k, k ∉ ks → h'.entry d k = h.entry d k

theorem Adds.fills {d : NodeId} {k : Str} {n : Node} (ha : Adds h h' d k n) :
    Fills h h' d [k] := by
  refine ⟨fun i hi hid => ha.old i hid hi.ne, ha.mode, fun k' hk => ?_⟩
  rw [ha.entry, if_neg (fun h1 => hk (mem_singleton.mpr h1))]

theorem Fills.trans {h1 h2 : Heap} {d : NodeId} {k : Str} {ks : List Str}
    (hle : h.next ≤ h1.next) (a : Fills h h1 d [k]) (b : Fills h1 h2 d ks) :
    Fills h h2 d (k :: ks) := by
  refine ⟨fun i hi hid => ?_, b.mode.trans a.mode, fun k' hk => ?_⟩
  · rw [b.old i (hi.trans_le hle) hid, a.old i hi hid]
  · rw [mem_cons, not_or] at hk
    rw [b.entry k' hk.2, a.entry k' (fun h1 => hk.1 (mem_singleton.mp h1))]

theorem Fills.below {h1 h2 : Heap} {d n : NodeId} {ks ks' : List Str} (hle : h.next ≤ h1.next)
    (hd : d < h.next) (hn : h.next ≤ n) (a : Fills h h1 d ks) (b : Fills h1 h2 n ks') :
    Fills h h2 d ks := by
  have hold : ∀ i, i < h.next → h2.node i = h1.node i := fun i hi =>
    b.old i (hi.trans_le hle) (hi.trans_le hn).ne
  refine ⟨fun i hi hid => (hold i hi).trans (a.old i hi hid), ?_, fun k hk => ?_⟩
  · rw [hold d hd, a.mode]
  · rw [Heap.entry, hold d hd]
    exact a.entry k hk

/-- What the members of a directory add to it. -/
structure Built (R : NodeId → Prop) (h h' : Heap) (d : NodeId) (t : DirTree) : Prop
    extends Grows R h h', Fills h h' d t.names where
  holds : Holds h' (fun i => h.next ≤ i ∧ i < h'.next) d t

theorem Built.nil (ht : TreeInv h R) (d : NodeId) : Built R h h d .nil :=
  ⟨⟨.refl ht, fun _ _ _ he => he⟩, ⟨fun _ _ _ => rfl, rfl, fun _ _ => rfl⟩, trivial⟩

section

variable {h1 h2 h3 : Heap} {d : NodeId} {name : Str} {mode : FileMode} {n : Node}
  {content : List UInt8} {entries rest : DirTree}

theorem Built.file (ha : Adds h h1 d name n) (hg : Grows R h h1) (hd : d < h.next)
    (hx : IsItem h1 h.next (.file mode content)) (hb : Built R h1 h2 d rest) :
    Built R h h2 d (.file name mode content rest) := by
  have hle := hg.ext.next
  have hnext : h.next < h1.next := by rw [ha.next]; exact Nat.lt_succ_self _
  have hnew : h1.entry d name = some h.next := by rw [ha.entry, if_pos rfl]
  refine ⟨hg.trans hb.toGrows, (Adds.fills ha).trans hle hb.toFills,
    ⟨h.next, ⟨le_refl _, hnext.trans_le hb.ext.next⟩, hb.keep _ _ _ hnew,
      hx.congr (hb.old _ hnext hd.ne')⟩, ?_⟩
  exact hb.holds.congr (fun i hi => ⟨hle.trans hi.1, hi.2⟩) (fun _ _ => rfl) fun _ => rfl

/-- A directory, what is in it, and then the rest of the directory it is in. -/
theorem Built.dir (ha : Adds h h1 d name n) (hg : Grows R h h1) (hd : d < h.next)
    (hx : IsItem h1 h.next (.dir mode)) (hempty : ∀ k, h1.entry h.next k = none)
    (hsub : Built R h1 h2 h.next entries) (hb : Built R h2 h3 d rest) :
    Built R h h3 d (.dir name mode entries rest) := by
  have hle := hg.ext.next
  have hle2 := hsub.ext.next
  have hnext : h.next < h1.next := by rw [ha.next]; exact Nat.lt_succ_self _
  have hnew : h1.entry d name = some h.next := by rw [ha.entry, if_pos rfl]
  -- the rest of the outer directory leaves the inner one alone
  have hnode : ∀ i, h.next ≤ i → i < h2.next → h3.node i = h2.node i := fun i hi hi' =>
    hb.old i hi' (hd.trans_le hi).ne'
  have hentry : ∀ k, h3.entry h.next k = h2.entry h.next k := fun k => by
    rw [Heap.entry, hnode _ le_rfl (hnext.trans_le hle2), Heap.entry]
  have hx2 : IsItem h2 h.next (.dir mode) := by
    unfold IsItem Heap.isDir at hx ⊢
    rwa [hsub.mode]
  refine ⟨(hg.trans hsub.toGrows).trans hb.toGrows,
    ((Adds.fills ha).below hle hd le_rfl hsub.toFills).trans (hle.trans hle2) hb.toFills,
    ⟨h.next, ⟨le_refl _, (hnext.trans_le hle2).trans_le hb.ext.next⟩,
      hb.keep _ _ _ (hsub.keep _ _ _ hnew),
      hx2.congr (hnode _ le_rfl (hnext.trans_le hle2)), fun k hk => ?_, ?_⟩, ?_⟩
  · rw [hentry, hsub.entry k hk, hempty]
  · refine hsub.holds.congr (fun i hi => ⟨hle.trans hi.1, hi.2.trans_le hb.ext.next⟩)
      (fun i hi => hnode i (hle.trans hi.1) hi.2) hentry
  · exact hb.holds.congr (fun i hi => ⟨(hle.trans hle2).trans hi.1, hi.2⟩) (fun _ _ => rfl)
      fun _ => rfl

end

theorem forall₂_append {ms ms' : List Member} {es : List TarEntry}
    (h : List.Forall₂ Member.Reads (ms ++ ms') es) :
    ∃ es1 es2, List.Forall₂ Member.Reads ms es1 ∧ List.Forall₂ Member.Reads ms' es2 ∧
      es = es1 ++ es2 :=
  ⟨_, _, (forall₂_take_append _ _ _ h.flip).flip, (forall₂_drop_append _ _ _ h.flip).flip,
    (take_append_drop ms.length es).symm⟩

/-- **The members of a directory**, read where the archive has made the directory. -/
theorem walk_built {fs : FS} (hr : R fs.root) (now : ℤ) {t : DirTree} (hv : t.Valid)
    {d : NodeId} {ps : List Str} {es : List TarEntry} (ht : TreeInv h R) (hps : ∀ p ∈ ps, Plain p)
    (hf : h.find fs.root ps = some d) (hd : h.isDir d = true)
    (hfree : ∀ k ∈ t.names, h.entry d k = none) (hes : List.Forall₂ Member.Reads (t.walk ps) es) :
    ∃ h', (∀ es', fs.addTar now false h (es ++ es') = fs.addTar now false h' es') ∧
      Built R h h' d t := by
  induction t generalizing h d ps es with
  | nil =>
    cases hes
    exact ⟨h, fun _ => rfl, .nil ht d⟩
  | file name mode content rest ih =>
    obtain ⟨hname, hnot, hsize, hv⟩ := hv
    have hlt := find_lt ht (ht.root _ hr).1 hf
    have hnone := hfree name mem_cons_self
    cases hes with
    | @cons _ e _ es hm hes =>
      obtain ⟨h1, n, hadd, ha, hmode, hdata⟩ := addEntry_file hps hname.plain hf hd hlt hnone
        hm.name hm.typeflag hm.complete (by rw [hm.body]; exact hsize) now
      have hk := (tarInv_kept hr now).addEntry (.refl ht) e
      rw [hadd] at hk
      have hg := Adds.grows ht ha hk hnone
      have hx : IsItem h1 h.next (.file mode content) := by
        rw [hm.mode, perm_perm] at hmode
        refine ⟨?_, ?_, ?_⟩
        · rw [Heap.isDir, ha.new, hmode, isDir_fileMode]
        · rw [ha.new, hmode, perm_fileMode]
        · rw [ha.new, hdata, hm.body]
      have hfree1 : ∀ k ∈ rest.names, h1.entry d k = none := fun k hmem => by
        have hne : k ≠ name := fun heq => hnot (heq ▸ hmem)
        rw [ha.entry, if_neg hne]
        exact hfree k (mem_cons_of_mem name hmem)
      obtain ⟨h2, hrest, hb⟩ := ih hv hk.inv hps (hg.find ht (ht.root _ hr).1 hf)
        ((hk.ext.isDir d hlt).trans hd) hfree1 hes
      refine ⟨h2, fun es' => ?_, Built.file ha hg hlt hx hb⟩
      rw [cons_append, FS.addTar, hadd]
      exact hrest es'
  | dir name mode entries rest ihe ih =>
    obtain ⟨hname, hnot, hve, hv⟩ := hv
    have hlt := find_lt ht (ht.root _ hr).1 hf
    have hnone := hfree name mem_cons_self
    cases hes with
    | @cons _ e _ es hm hes =>
      obtain ⟨h1, hadd, ha⟩ := addEntry_dir hps hname.plain hf hd hlt hnone hm.name hm.typeflag now
      have hk := (tarInv_kept hr now).addEntry (.refl ht) e
      rw [hadd] at hk
      have hg := Adds.grows ht ha hk hnone
      have hx : IsItem h1 h.next (.dir mode) := by
        refine ⟨?_, ?_⟩
        · rw [Heap.isDir, ha.new, isDir_dirMode]
        · rw [ha.new, hm.mode, perm_perm, perm_dirMode]
      have hempty : ∀ k, h1.entry h.next k = none := fun k => by
        rw [Heap.entry, ha.new]
        exact AList.lookup_empty k
      have hf1 := hg.find ht (ht.root _ hr).1 hf
      have hd1 := (hk.ext.isDir d hlt).trans hd
      have hnew : h1.find fs.root (ps ++ [name]) = some h.next := by
        rw [Heap.find_snoc hf1 hd1, ha.entry, if_pos rfl]
      -- the members of the new directory come first, then the rest of the outer one
      obtain ⟨es1, es2, hes1, hes2, rfl⟩ := forall₂_append hes
      obtain ⟨h2, hsub, hb1⟩ := ihe hve hk.inv (plain_snoc hps hname.plain) hnew hx.1
        (fun k _ => hempty k) hes1
      have hd2 : d < h1.next := hlt.trans_le hk.ext.next
      have hfree2 : ∀ k ∈ rest.names, h2.entry d k = none := fun k hmem => by
        have hne : k ≠ name := fun heq => hnot (heq ▸ hmem)
        rw [Heap.entry, hb1.old d hd2 hlt.ne, ← Heap.entry, ha.entry, if_neg hne]
        exact hfree k (mem_cons_of_mem name hmem)
      obtain ⟨h3, hrest, hb2⟩ := ih hv hb1.inv hps
        (hb1.find hk.inv ((ht.root _ hr).1.trans_le hk.ext.next) hf1)
        ((hb1.ext.isDir d hd2).trans hd1) hfree2 hes2
      refine ⟨h3, fun es' => ?_, Built.dir ha hg hlt hx hempty hb1 hb2⟩
      rw [cons_append, FS.addTar, hadd]
      dsimp only
      rw [append_assoc, hsub, hrest]
  | other name rest ih =>
    obtain ⟨hname, hnot, hv⟩ := hv
    obtain ⟨h', hadd, hb⟩ := ih hv ht hps hf hd
      (fun k hk => hfree k (mem_cons_of_mem name hk)) hes
    refine ⟨h', hadd, hb.toGrows, ⟨hb.old, hb.mode, fun k hk => ?_⟩, ?_, hb.holds⟩
    · exact hb.entry k fun h1 => hk (mem_cons_of_mem name h1)
    · exact (hb.entry name hnot).trans (hfree name mem_cons_self)

end

/-! ### The round trip -/

/-- The node to which a path leads from the root. -/
def nodeAt (h : Heap) (root : NodeId) (path : Str) : Option NodeId :=
  match h.resolve root root path false with
  | .ok x => some x.1
  | .error _ => none

theorem nodeAt_spell {h : Heap} {root : NodeId} {ps : List Str} (hps : ps ≠ [])
    (hp : ∀ p ∈ ps, Plain p) : nodeAt h root (spell ps) = h.find root ps := by
  unfold nodeAt
  cases hf : h.find root ps with
  | none =>
    obtain ⟨e, hres⟩ := resolve_missing hps hp hf
    rw [hres]
  | some n => rw [resolve_found hps hp hf]

theorem Built.find {R : NodeId → Prop} {h h' : Heap} {d : NodeId} {t : DirTree}
    (hb : Built R h h' d t) (hd : h'.isDir d = true) (hempty : ∀ k, h.entry d k = none)
    {ps : List Str} (hps : ps ≠ []) : Option.Rel (IsItem h') (h'.find d ps) (t.item ps) := by
  obtain ⟨p, ps, rfl⟩ := exists_cons_of_ne_nil hps
  by_cases hp : p ∈ t.names
  · exact hb.holds.find hd hp ps
  · rw [DirTree.item_of_notMem hp, Heap.find, hb.entry p hp, hempty, bind_none, ite_self]
    exact .none

/-- **What `mktar` writes for a tree, `AddTar` reads back into an empty filesystem**, with its
content and permission bits. -/
theorem addTar_mktar {w : World} (hw : worldSystem.Reachable w) {k : ℕ} {fs : FS}
    (hk : w.fss[k]? = some fs) (hempty : ∀ name, w.heap.entry fs.root name = none) {t : DirTree}
    (hv : t.Valid) {es : List TarEntry} (hes : List.Forall₂ Member.Reads (mktar t) es) (now : ℤ) :
    ∃ w', w.call (.addTar k es false now) = some (w', .done) ∧
      ∀ ps, ps ≠ [] → (∀ p ∈ ps, ValidName p) →
        Option.Rel (IsItem w'.heap) (nodeAt w'.heap fs.root (spell ps)) (t.item ps) := by
  have hi := worldInv_of_reachable hw
  have hr := isRoot_of_getElem hk
  obtain ⟨hlt, hdir, -⟩ := hi.tree.root _ hr
  have hroot : w.heap.find fs.root [] = some fs.root := rfl
  obtain ⟨h', hadd, hb⟩ := walk_built hr now hv hi.tree (forall_mem_nil _) hroot hdir
    (fun name _ => hempty name) hes
  have htar : fs.addTar now false w.heap es = (h', none) := by
    rw [← append_nil es, hadd]
    rfl
  refine ⟨{ w with heap := h' }, ?_, fun ps hps hp => ?_⟩
  · simp only [World.call, hk, map_some, htar]
  · rw [nodeAt_spell hps fun p h => (hp p h).plain]
    exact hb.find ((hb.ext.isDir _ hlt).trans hdir) hempty hps

/-- A file, and a directory with an empty directory and a file in it. -/
def sample : DirTree :=
  .file [97] 0o644 [1, 2, 3]
    (.dir [100] (modeDir ||| 0o555) (.dir [101] (modeDir ||| 0o755) .nil (.file [102] 0 [] .nil))
      .nil)

theorem addTar_mktar_sample : ∃ w w' es, worldSystem.Reachable w ∧
    List.Forall₂ Member.Reads (mktar sample) es ∧
    w.call (.addTar 0 es false 7) = some (w', .done) ∧
    Option.Rel (IsItem w'.heap) (nodeAt w'.heap 0 [100, 47, 102]) (some (.file 0 [])) ∧
    Option.Rel (IsItem w'.heap) (nodeAt w'.heap 0 [97, 47, 97]) none := by
  have hr := @System.reachable_of_exec _ _ _ worldSystem .empty _ [.new 0] _ rfl rfl
  have hname : ∀ b : UInt8, b ≠ 46 → b ≠ 47 → ValidName [b] := fun b h1 h2 =>
    ⟨cons_ne_nil b [], fun h => h2 (mem_singleton.mp h).symm,
      fun h => h1 (List.cons.inj h).1, nofun⟩
  have ha := hname 97 (by decide) (by decide)
  have hd := hname 100 (by decide) (by decide)
  have hf := hname 102 (by decide) (by decide)
  have hv : sample.Valid := ⟨ha, by decide, by decide, hd, by decide,
    ⟨hname 101 (by decide) (by decide), by decide, trivial, hf, by decide, by decide, trivial⟩,
    trivial⟩
  have hes : List.Forall₂ Member.Reads (mktar sample)
      [⟨[97], .typeReg, 0o644, 0, [[1, 2], [3]], false⟩, ⟨[100, 47], .typeDir, 0o555, 0, [], false⟩,
        ⟨[100, 47, 101, 47], .typeDir, 0o755, 0, [], false⟩,
        ⟨[100, 47, 102], .typeReg, 0, 0, [], false⟩] :=
    .cons ⟨rfl, rfl, rfl, rfl, rfl, rfl⟩ (.cons ⟨rfl, rfl, rfl, rfl, rfl, rfl⟩
      (.cons ⟨rfl, rfl, rfl, rfl, rfl, rfl⟩ (.cons ⟨rfl, rfl, rfl, rfl, rfl, rfl⟩ .nil)))
  obtain ⟨w', hcall, hpath⟩ := addTar_mktar (k := 0) hr rfl (fun _ => rfl) hv hes 7
  refine ⟨_, w', _, hr, hes, hcall, hpath [[100], [102]] (cons_ne_nil _ _) ?_,
    hpath [[97], [97]] (cons_ne_nil _ _) ?_⟩
  · rintro p (_ | ⟨_, _ | ⟨_, ⟨⟩⟩⟩)
    · exact hd
    · exact hf
  · rintro p (_ | ⟨_, _ | ⟨_, ⟨⟩⟩⟩)
    · exact ha
    · exact ha

end PgZero.Mktar
