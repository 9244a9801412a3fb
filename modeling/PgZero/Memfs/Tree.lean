import PgZero.Lib.Climb
import PgZero.Memfs.Namespace

/-!
# The tree of directories

Directories form a forest along their parents, whether or not they are still linked: a removed
directory keeps its parent, and what is created in it later hangs below it.

* `NewNodes`, **`TreeInv.grow`**: nodes are added, a whole tree at once or one at a time.
-/

set_option autoImplicit false

namespace PgZero.Memfs

open Lib Heap

/-- The names of entries. -/
structure ValidName (k : Str) : Prop where
  ne_nil : k ≠ []
  slash : GoPath.slash ∉ k
  ne_dot : k ≠ GoPath.dot
  ne_dotdot : k ≠ GoPath.dotdot

/-- The directories are trees below the roots. -/
structure TreeInv (h : Heap) (R : NodeId → Prop) : Prop where
  root : ∀ r, R r → r < h.next ∧ h.isDir r = true ∧ h.parent r = some r
  rootFree : ∀ r, R r → ∀ d k, h.entry d k ≠ some r
  climbs : ∀ d, d < h.next → h.isDir d = true → ∃ r, R r ∧ Climbs h.parent r d
  parentDir : ∀ d p, d < h.next → h.isDir d = true → h.parent d = some p →
    p < h.next ∧ h.isDir p = true
  fileParent : ∀ c, c < h.next → h.isDir c = false → h.parent c = none
  child : ∀ d k c, h.entry d k = some c → d < h.next ∧ h.isDir d = true ∧ c < h.next ∧ ValidName k
  childDir : ∀ d k c, h.entry d k = some c → h.isDir c = true → h.parent c = some d
  unique : ∀ d k k' c, h.entry d k = some c → h.entry d k' = some c → h.isDir c = true → k = k'

/-- Node `i` belongs to the filesystem with root `r`, as far as it is a directory. -/
structure Below (h : Heap) (r i : NodeId) : Prop where
  lt : i < h.next
  climbs : h.isDir i = true → Climbs h.parent r i

/-- What lies below a root stays there. -/
structure Extends (R : NodeId → Prop) (h h' : Heap) : Prop where
  next : h.next ≤ h'.next
  isDir : ∀ i, i < h.next → h'.isDir i = h.isDir i
  climbs : ∀ r i, R r → i < h.next → h.isDir i = true → Climbs h.parent r i → Climbs h'.parent r i

/-- The invariant after a change. -/
structure Kept (R : NodeId → Prop) (h h' : Heap) : Prop where
  inv : TreeInv h' R
  ext : Extends R h h'

section

variable {h h' : Heap} {R : NodeId → Prop} {r : NodeId}

theorem Extends.refl (R : NodeId → Prop) (h : Heap) : Extends R h h :=
  ⟨le_refl _, fun _ _ => rfl, fun _ _ _ _ _ hc => hc⟩

theorem Extends.trans {h1 h2 h3 : Heap} (a : Extends R h1 h2) (b : Extends R h2 h3) :
    Extends R h1 h3 := by
  refine ⟨a.next.trans b.next, fun i hi => ?_, fun r i hr hi hd hc => ?_⟩
  · rw [b.isDir i (hi.trans_le a.next), a.isDir i hi]
  · exact b.climbs r i hr (hi.trans_le a.next) ((a.isDir i hi).trans hd) (a.climbs r i hr hi hd hc)

theorem Extends.below (h1 : Extends R h h') (hr : R r) {i : NodeId} (hb : Below h r i) :
    Below h' r i := by
  refine ⟨hb.lt.trans_le h1.next, fun hd => ?_⟩
  rw [h1.isDir i hb.lt] at hd
  exact h1.climbs r i hr hb.lt hd (hb.climbs hd)

theorem Heap.SameTree.extends (hs : Heap.SameTree h h') : Extends R h h' := by
  refine ⟨hs.next.ge, fun i _ => by rw [hs.isDir], fun r i _ _ _ hc => ?_⟩
  rw [hs.parent]
  exact hc

theorem TreeInv.congr (ht : TreeInv h R) (hs : Heap.SameTree h h') : TreeInv h' R := by
  constructor
  · rw [hs.next, hs.isDir, hs.parent]; exact ht.root
  · rw [hs.entry]; exact ht.rootFree
  · rw [hs.next, hs.isDir, hs.parent]; exact ht.climbs
  · rw [hs.next, hs.isDir, hs.parent]; exact ht.parentDir
  · rw [hs.next, hs.isDir, hs.parent]; exact ht.fileParent
  · rw [hs.next, hs.isDir, hs.entry]; exact ht.child
  · rw [hs.isDir, hs.entry, hs.parent]; exact ht.childDir
  · rw [hs.isDir, hs.entry]; exact ht.unique

theorem Kept.refl (ht : TreeInv h R) : Kept R h h := ⟨ht, .refl R h⟩

theorem Kept.trans {h1 h2 h3 : Heap} (a : Kept R h1 h2) (b : Kept R h2 h3) : Kept R h1 h3 :=
  ⟨b.inv, a.ext.trans b.ext⟩

theorem TreeInv.kept (ht : TreeInv h R) (hs : Heap.SameTree h h') : Kept R h h' :=
  ⟨ht.congr hs, hs.extends⟩

theorem TreeInv.root_unique (ht : TreeInv h R) {r' i : NodeId} (hr : R r) (hr' : R r')
    (hc : Climbs h.parent r i) (hc' : Climbs h.parent r' i) : r = r' :=
  hc.unique (ht.root r hr).2.2 (ht.root r' hr').2.2 hc'

/-! ### Paths -/

theorem TreeInv.entry_below (ht : TreeInv h R) {d c : NodeId} {k : Str} (hb : Below h r d)
    (he : h.entry d k = some c) : Below h r c := by
  obtain ⟨-, hd, hc, -⟩ := ht.child d k c he
  exact ⟨hc, fun hdir => .step (ht.childDir d k c he hdir) (hb.climbs hd)⟩

theorem walkStep_below (ht : TreeInv h R) (hr : R r) {cur res : Option NodeId} {p : Str}
    (hcur : ∀ c, cur = some c → Below h r c) (hw : h.walkStep r cur p = .ok res) :
    ∀ c, res = some c → Below h r c := by
  intro q hq
  subst hq
  unfold walkStep at hw
  split_ifs at hw with h1 h2 h3
  · exact hcur q (Except.ok.inj hw)
  · cases cur with
    | none => cases hw
    | some c =>
      have hb := hcur c rfl
      have hp : h.parent c = some q := Except.ok.inj hw
      -- a regular file has no parent
      by_cases hd : h.isDir c = true
      · refine ⟨(ht.parentDir c q hb.lt hd hp).1, fun _ => ?_⟩
        exact (hb.climbs hd).of_parent (ht.root r hr).2.2 hp
      · rw [ht.fileParent c hb.lt (by simpa using hd)] at hp
        cases hp
  · cases cur with
    | none => cases hw
    | some c =>
      dsimp only at hw
      split_ifs at hw with hd
      split at hw
      · cases hw
      · rename_i n he
        obtain rfl := Option.some.inj (Except.ok.inj hw)
        exact ht.entry_below (hcur c rfl) he

theorem walk_below (ht : TreeInv h R) (hr : R r) (ps : List Str) {cur res : Option NodeId}
    (hcur : ∀ c, cur = some c → Below h r c) (hw : h.walk r cur ps = .ok res) :
    ∀ c, res = some c → Below h r c := by
  induction ps generalizing cur with
  | nil =>
    obtain rfl := Except.ok.inj hw
    exact hcur
  | cons p ps ih =>
    rw [walk] at hw
    split at hw
    · cases hw
    · rename_i cur' hstep
      exact ih (walkStep_below ht hr hcur hstep) hw

theorem mem_dropEmpty {ps : List Str} {p : Str} (hp : p ∈ dropEmpty ps) : p ∈ ps := by
  induction ps with
  | nil => exact hp
  | cons a ps ih =>
    cases ps with
    | nil => exact hp
    | cons b ps =>
      rw [dropEmpty] at hp
      split_ifs at hp
      · exact List.mem_cons_of_mem a (ih hp)
      · exact hp

theorem components_base {name base : Str} {parts : List Str}
    (hc : components name true = .ok (parts, base)) : ValidName base := by
  simp only [components, if_true] at hc
  split at hc
  · cases hc
  · rename_i b rest hd
    split_ifs at hc with hb
    obtain ⟨-, rfl⟩ := Prod.mk.inj (Except.ok.inj hc)
    have hmem : b ∈ GoPath.split name := by
      have hm := mem_dropEmpty (hd ▸ List.mem_cons_self : b ∈ dropEmpty _)
      exact List.mem_reverse.mp hm
    exact ⟨fun h1 => hb (Or.inl h1), GoPath.slash_not_mem_of_mem_split hmem,
      fun h1 => hb (Or.inr (Or.inl h1)), fun h1 => hb (Or.inr (Or.inr h1))⟩

/-- **A path** leads to a node of the same filesystem. -/
theorem resolve_ok (ht : TreeInv h R) (hr : R r) {dir c : NodeId} {name base : Str} {po : Bool}
    (hb : Below h r dir) (hres : h.resolve r dir name po = .ok (c, base)) :
    Below h r c ∧ (po = true → h.isDir c = true ∧ ValidName base) := by
  unfold resolve at hres
  split_ifs at hres with habs
  split at hres
  · cases hres
  · rename_i parts base' hcomp
    split at hres
    · cases hres
    · cases hres
    · rename_i cur hwalk
      split_ifs at hres with hdir
      obtain ⟨rfl, rfl⟩ := Prod.mk.inj (Except.ok.inj hres)
      refine ⟨walk_below ht hr parts ?_ hwalk cur rfl, fun hpo => ?_⟩
      · intro c hc
        obtain rfl := Option.some.inj hc
        exact hb
      · subst hpo
        exact ⟨by simpa using hdir, components_base hcomp⟩

/-! ### New nodes -/

/-- The old nodes are as they were, and the new ones form trees of their own or hang below old
directories. -/
structure NewNodes (h h' : Heap) (R : NodeId → Prop) : Prop where
  next : h.next ≤ h'.next
  old : ∀ i, i < h.next → h'.node i = h.node i
  root : ∀ r, R r → h.next ≤ r → r < h'.next ∧ h'.isDir r = true ∧ h'.parent r = some r
  rootFree : ∀ r, R r → h.next ≤ r → ∀ d k, h.next ≤ d → h'.entry d k ≠ some r
  climbs : ∀ d, h.next ≤ d → d < h'.next → h'.isDir d = true → ∃ r, R r ∧ Climbs h'.parent r d
  parentDir : ∀ d p, h.next ≤ d → d < h'.next → h'.isDir d = true → h'.parent d = some p →
    p < h'.next ∧ h'.isDir p = true
  fileParent : ∀ c, h.next ≤ c → c < h'.next → h'.isDir c = false → h'.parent c = none
  child : ∀ d k c, h.next ≤ d → h'.entry d k = some c →
    d < h'.next ∧ h'.isDir d = true ∧ h.next ≤ c ∧ c < h'.next ∧ ValidName k
  childDir : ∀ d k c, h.next ≤ d → h'.entry d k = some c → h'.isDir c = true → h'.parent c = some d
  unique : ∀ d k k' c, h.next ≤ d → h'.entry d k = some c → h'.entry d k' = some c →
    h'.isDir c = true → k = k'

section

variable {R' : NodeId → Prop} {i : NodeId}

theorem NewNodes.isDir_old (hn : NewNodes h h' R) (hi : i < h.next) : h'.isDir i = h.isDir i := by
  rw [isDir, isDir, hn.old i hi]

theorem NewNodes.parent_old (hn : NewNodes h h' R) (hi : i < h.next) :
    h'.parent i = h.parent i := by
  rw [parent, parent, hn.old i hi]

theorem NewNodes.entry_old (hn : NewNodes h h' R) (hi : i < h.next) (k : Str) :
    h'.entry i k = h.entry i k := by
  rw [entry, entry, hn.old i hi]

theorem TreeInv.climbs_old (ht : TreeInv h R) (hold : ∀ i, i < h.next → h'.node i = h.node i)
    (hi : i < h.next) (hd : h.isDir i = true) (hc : Climbs h.parent r i) :
    Climbs h'.parent r i := by
  refine hc.transfer (S := fun x => x < h.next ∧ h.isDir x = true) ?_ ?_ ⟨hi, hd⟩
  · intro x y hx hp
    exact ht.parentDir x y hx.1 hx.2 hp
  · intro x hx
    rw [parent, parent, hold x hx.1]

theorem NewNodes.extends (hn : NewNodes h h' R') (ht : TreeInv h R) : Extends R h h' :=
  ⟨hn.next, fun _ hi => hn.isDir_old hi, fun _ _ _ hi hd hc => ht.climbs_old hn.old hi hd hc⟩

theorem NewNodes.entry_cases (hn : NewNodes h h' R') (ht : TreeInv h R) {d c : NodeId} {k : Str}
    (he : h'.entry d k = some c) :
    (d < h.next ∧ c < h.next ∧ h.entry d k = some c) ∨ (h.next ≤ d ∧ h.next ≤ c) := by
  rcases Nat.lt_or_ge d h.next with hd | hd
  · rw [hn.entry_old hd] at he
    exact Or.inl ⟨hd, (ht.child d k c he).2.2.1, he⟩
  · exact Or.inr ⟨hd, (hn.child d k c hd he).2.2.1⟩

theorem TreeInv.grow (ht : TreeInv h R) (hn : NewNodes h h' R')
    (hR : ∀ r, r < h.next → (R' r ↔ R r)) : TreeInv h' R' := by
  have hle := hn.next
  constructor
  · intro r hr
    rcases Nat.lt_or_ge r h.next with hlt | hge
    · obtain ⟨-, hd, hp⟩ := ht.root r ((hR r hlt).mp hr)
      rw [hn.isDir_old hlt, hn.parent_old hlt]
      exact ⟨hlt.trans_le hle, hd, hp⟩
    · exact hn.root r hr hge
  · intro r hr d k he
    rcases hn.entry_cases ht he with ⟨-, hc, he'⟩ | ⟨hd, hc⟩
    · exact ht.rootFree r ((hR r hc).mp hr) d k he'
    · exact hn.rootFree r hr hc d k hd he
  · intro d hlt hd
    rcases Nat.lt_or_ge d h.next with hold | hge
    · rw [hn.isDir_old hold] at hd
      obtain ⟨r, hr, hc⟩ := ht.climbs d hold hd
      exact ⟨r, (hR r (ht.root r hr).1).mpr hr, ht.climbs_old hn.old hold hd hc⟩
    · exact hn.climbs d hge hlt hd
  · intro d p hlt hd hp
    rcases Nat.lt_or_ge d h.next with hold | hge
    · rw [hn.isDir_old hold] at hd
      rw [hn.parent_old hold] at hp
      obtain ⟨h1, h2⟩ := ht.parentDir d p hold hd hp
      rw [hn.isDir_old h1]
      exact ⟨h1.trans_le hle, h2⟩
    · exact hn.parentDir d p hge hlt hd hp
  · intro c hlt hd
    rcases Nat.lt_or_ge c h.next with hold | hge
    · rw [hn.isDir_old hold] at hd
      rw [hn.parent_old hold]
      exact ht.fileParent c hold hd
    · exact hn.fileParent c hge hlt hd
  · intro d k c he
    rcases hn.entry_cases ht he with ⟨hold, hc, he'⟩ | ⟨hd, -⟩
    · obtain ⟨-, hd, -, hk⟩ := ht.child d k c he'
      rw [hn.isDir_old hold]
      exact ⟨hold.trans_le hle, hd, hc.trans_le hle, hk⟩
    · obtain ⟨h1, h2, -, h3, h4⟩ := hn.child d k c hd he
      exact ⟨h1, h2, h3, h4⟩
  · intro d k c he hdir
    rcases hn.entry_cases ht he with ⟨-, hc, he'⟩ | ⟨hd, -⟩
    · rw [hn.isDir_old hc] at hdir
      rw [hn.parent_old hc]
      exact ht.childDir d k c he' hdir
    · exact hn.childDir d k c hd he hdir
  · intro d k k' c he he' hdir
    rcases hn.entry_cases ht he with ⟨hold, hc, h1⟩ | ⟨hd, -⟩
    · rw [hn.isDir_old hc] at hdir
      rw [hn.entry_old hold] at he'
      exact ht.unique d k k' c h1 he' hdir
    · exact hn.unique d k k' c hd he he' hdir

end

section

variable {R' : NodeId → Prop} {n : Node}

/-- A new node without entries: a file, a directory below an old one, or a new root. -/
theorem newNodes_alloc (ht : TreeInv h R) (hn : n.entries = ∅)
    (hR : ∀ r, R r → R' r)
    (hroot : ∀ r, R' r → h.next ≤ r →
      r = h.next ∧ n.mode.isDir = true ∧ n.parent = some h.next)
    (hfile : n.mode.isDir = false → n.parent = none)
    (hdir : n.mode.isDir = true → ∃ d, n.parent = some d ∧
      (d < h.next ∧ h.isDir d = true ∨ d = h.next ∧ R' h.next)) :
    NewNodes h (h.alloc n) R' := by
  have hnew : ∀ {i}, h.next ≤ i → i < h.next + 1 → i = h.next := fun ha hb =>
    Nat.le_antisymm (Nat.le_of_lt_succ hb) ha
  have hpar : (h.alloc n).parent h.next = n.parent := by
    rw [parent_alloc, Function.update_self]
  have hmode : (h.alloc n).isDir h.next = n.mode.isDir := by
    rw [isDir_alloc, if_pos rfl]
  have hold : ∀ i, i < h.next → (h.alloc n).node i = h.node i := fun i hi => by
    rw [node_alloc, if_neg hi.ne]
  have hentry : ∀ d k c, h.next ≤ d → (h.alloc n).entry d k ≠ some c := fun d k c hd he => by
    rw [entry_alloc h hn] at he
    split_ifs at he
    exact absurd (ht.child d k c he).1 (Nat.not_lt.mpr hd)
  refine ⟨Nat.le_succ _, hold, ?_, ?_, ?_, ?_, ?_, ?_, ?_, ?_⟩
  · intro r hr hge
    obtain ⟨rfl, hd, hp⟩ := hroot r hr hge
    exact ⟨Nat.lt_succ_self _, hmode.trans hd, hpar.trans hp⟩
  · intro r _ _ d k hd
    exact hentry d k r hd
  · intro d hge hlt hd
    obtain rfl := hnew hge hlt
    obtain ⟨p, hp, ⟨hlp, hdp⟩ | ⟨rfl, hr⟩⟩ := hdir (hmode ▸ hd)
    · obtain ⟨r, hr, hc⟩ := ht.climbs p hlp hdp
      exact ⟨r, hR r hr, .step (hpar.trans hp) (ht.climbs_old hold hlp hdp hc)⟩
    · exact ⟨_, hr, .refl⟩
  · intro d p hge hlt hd hp
    obtain rfl := hnew hge hlt
    obtain ⟨q, hq, hq'⟩ := hdir (hmode ▸ hd)
    rw [hpar, hq] at hp
    obtain rfl := Option.some.inj hp
    rcases hq' with ⟨hlq, hdq⟩ | ⟨rfl, -⟩
    · rw [isDir, hold q hlq]
      exact ⟨Nat.lt_succ_of_lt hlq, hdq⟩
    · exact ⟨Nat.lt_succ_self _, hd⟩
  · intro c hge hlt hd
    obtain rfl := hnew hge hlt
    rw [hpar]
    exact hfile (hmode ▸ hd)
  · intro d k c hd he
    exact absurd he (hentry d k c hd)
  · intro d k c hd he
    exact absurd he (hentry d k c hd)
  · intro d k k' c hd he
    exact absurd he (hentry d k c hd)

theorem TreeInv.alloc (ht : TreeInv h R) (hn : n.entries = ∅)
    (hfile : n.mode.isDir = false → n.parent = none)
    (hdir : n.mode.isDir = true → ∃ d, n.parent = some d ∧ d < h.next ∧ h.isDir d = true) :
    Kept R h (h.alloc n) := by
  have hnew : NewNodes h (h.alloc n) R := by
    refine newNodes_alloc ht hn (fun _ hr => hr) ?_ hfile ?_
    · intro r hr hge
      exact absurd (ht.root r hr).1 (Nat.not_lt.mpr hge)
    · intro hd
      obtain ⟨d, hp, hd'⟩ := hdir hd
      exact ⟨d, hp, Or.inl hd'⟩
  exact ⟨ht.grow hnew fun _ _ => Iff.rfl, hnew.extends ht⟩

theorem TreeInv.new (ht : TreeInv h R) (hn : n.entries = ∅) (hmode : n.mode.isDir = true)
    (hp : n.parent = some h.next) :
    TreeInv (h.alloc n) (fun r => R r ∨ r = h.next) ∧ Extends R h (h.alloc n) := by
  have hnew : NewNodes h (h.alloc n) fun r => R r ∨ r = h.next := by
    refine newNodes_alloc ht hn (fun _ hr => Or.inl hr) ?_ ?_ ?_
    · rintro r (hr | rfl) hge
      · exact absurd (ht.root r hr).1 (Nat.not_lt.mpr hge)
      · exact ⟨rfl, hmode, hp⟩
    · intro hd
      rw [hmode] at hd
      cases hd
    · intro _
      exact ⟨_, hp, Or.inr ⟨rfl, Or.inr rfl⟩⟩
  refine ⟨ht.grow hnew fun r hr => ?_, hnew.extends ht⟩
  exact ⟨fun h1 => h1.resolve_right hr.ne, Or.inl⟩

end

/-! ### Entries -/

/-- What an entry `d.entries[k] = c` has to satisfy. -/
structure GoodEntry (h : Heap) (R : NodeId → Prop) (d : NodeId) (k : Str) (c : NodeId) : Prop where
  dir_lt : d < h.next
  dir : h.isDir d = true
  lt : c < h.next
  name : ValidName k
  childDir : h.isDir c = true → h.parent c = some d
  not_root : ¬ R c

theorem TreeInv.goodEntry (ht : TreeInv h R) {d c : NodeId} {k : Str} (he : h.entry d k = some c) :
    GoodEntry h R d k c := by
  obtain ⟨h1, h2, h3, h4⟩ := ht.child d k c he
  exact ⟨h1, h2, h3, h4, ht.childDir d k c he, fun hr => ht.rootFree c hr d k he⟩

theorem TreeInv.entries (ht : TreeInv h R) (hnext : h'.next = h.next) (hdir : h'.isDir = h.isDir)
    (hpar : h'.parent = h.parent)
    (hgood : ∀ d k c, h'.entry d k = some c → GoodEntry h R d k c)
    (huniq : ∀ d k k' c, h'.entry d k = some c → h'.entry d k' = some c → h.isDir c = true →
      k = k') : TreeInv h' R := by
  constructor
  · rw [hnext, hdir, hpar]; exact ht.root
  · exact fun r hr d k he => (hgood d k r he).not_root hr
  · rw [hnext, hdir, hpar]; exact ht.climbs
  · rw [hnext, hdir, hpar]; exact ht.parentDir
  · rw [hnext, hdir, hpar]; exact ht.fileParent
  · intro d k c he
    have hg := hgood d k c he
    rw [hnext, hdir]
    exact ⟨hg.dir_lt, hg.dir, hg.lt, hg.name⟩
  · rw [hdir, hpar]
    exact fun d k c he => (hgood d k c he).childDir
  · rw [hdir]; exact huniq

theorem TreeInv.delEntry (ht : TreeInv h R) (d : NodeId) (k : Str) :
    TreeInv (h.delEntry d k) R := by
  have hsub : ∀ {d' k' c}, (h.delEntry d k).entry d' k' = some c → h.entry d' k' = some c := by
    intro d' k' c he
    rw [entry_delEntry] at he
    split_ifs at he
    exact he
  refine ht.entries rfl (funext (h.isDir_delEntry d k)) (h.parent_delEntry d k) ?_ ?_
  · exact fun d' k' c he => ht.goodEntry (hsub he)
  · exact fun d' k1 k2 c h1 h2 => ht.unique d' k1 k2 c (hsub h1) (hsub h2)

theorem TreeInv.setEntry (ht : TreeInv h R) {d c : NodeId} {k : Str} (hg : GoodEntry h R d k c)
    (hfree : h.isDir c = true → ∀ k', h.entry d k' ≠ some c) : TreeInv (h.setEntry d k c) R := by
  refine ht.entries rfl (funext (h.isDir_setEntry d k c)) (h.parent_setEntry d k c) ?_ ?_
  · intro d' k' c' he
    rw [entry_setEntry] at he
    split_ifs at he with hk
    · obtain ⟨rfl, rfl⟩ := hk
      obtain rfl := Option.some.inj he
      exact hg
    · exact ht.goodEntry he
  · intro d' k1 k2 c' h1 h2 hd
    rw [entry_setEntry] at h1 h2
    split_ifs at h1 h2 with hk1 hk2 hk2
    · exact hk1.2.trans hk2.2.symm
    · obtain rfl := Option.some.inj h1
      exact absurd (hk1.1 ▸ h2) (hfree hd k2)
    · obtain rfl := Option.some.inj h2
      exact absurd (hk2.1 ▸ h1) (hfree hd k1)
    · exact ht.unique d' k1 k2 c' h1 h2 hd

theorem extends_delEntry (h : Heap) (d : NodeId) (k : Str) : Extends R h (h.delEntry d k) := by
  refine ⟨le_refl _, fun i _ => h.isDir_delEntry d k i, fun r i _ _ _ hc => ?_⟩
  rw [h.parent_delEntry]
  exact hc

theorem extends_setEntry (h : Heap) (d : NodeId) (k : Str) (c : NodeId) :
    Extends R h (h.setEntry d k c) := by
  refine ⟨le_refl _, fun i _ => h.isDir_setEntry d k c i, fun r i _ _ _ hc => ?_⟩
  rw [h.parent_setEntry]
  exact hc

theorem TreeInv.addChild (ht : TreeInv h R) {d : NodeId} {k : Str} {n : Node} (hlt : d < h.next)
    (hd : h.isDir d = true) (hk : ValidName k) (hn : n.entries = ∅)
    (hp : n.parent = if n.mode.isDir then some d else none) :
    Kept R h ((h.alloc n).setEntry d k h.next) := by
  obtain ⟨ht', he⟩ := ht.alloc hn (fun h1 => by rw [hp, h1]; rfl)
    (fun h1 => ⟨d, by rw [hp, h1]; rfl, hlt, hd⟩)
  have hentry : ∀ d' k', (h.alloc n).entry d' k' ≠ some h.next := by
    intro d' k' h1
    rw [entry_alloc h hn] at h1
    split_ifs at h1
    exact absurd (ht.child d' k' _ h1).2.2.1 (Nat.lt_irrefl _)
  refine ⟨ht'.setEntry ⟨hlt.trans_le he.next, ?_, Nat.lt_succ_self _, hk, ?_, ?_⟩ ?_,
    he.trans (extends_setEntry _ d k _)⟩
  · rw [he.isDir d hlt]
    exact hd
  · intro h1
    rw [isDir_alloc, if_pos rfl] at h1
    rw [parent_alloc, Function.update_self, hp, h1]
    rfl
  · exact fun hr => Nat.lt_irrefl _ (ht.root _ hr).1
  · exact fun _ k' => hentry d k'

end

end PgZero.Memfs
