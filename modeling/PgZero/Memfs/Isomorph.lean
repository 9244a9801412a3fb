import PgZero.Memfs.Clone
import PgZero.Memfs.Follow

/-!
# The copy of a filesystem

What `Clone` leaves behind: a copy that paths cannot tell from the original.

* **`clone_isClone`**: `Clone` ends with one.
-/

set_option autoImplicit false

namespace PgZero.Memfs

open Lib Heap

section

variable {h : Heap} {R : NodeId → Prop} {r : NodeId} {s : Copying}

/-- The filesystem with root `r'` in `h'` is a copy of the one with root `r` in `h`, made of new
nodes. -/
structure IsClone (h h' : Heap) (r r' : NodeId) (copies : NodeId → Option NodeId) : Prop where
  root : copies r = some r'
  below : ∀ n c, copies n = some c → Below h r n
  inj : ∀ n n' c, copies n = some c → copies n' = some c → n = n'
  new : ∀ n c, copies n = some c → h.next ≤ c ∧ c < h'.next
  onto : ∀ c, h.next ≤ c → c < h'.next → ∃ n, copies n = some c
  old : ∀ i, i < h.next → h'.node i = h.node i
  same : ∀ n c, copies n = some c → SameFile (h.node n) (h'.node c)
  sim : WalkSim h h' r r' fun n c => copies n = some c

theorem sameFile_setParent {n : Node} {x : NodeId} (i p : NodeId)
    (hs : SameFile n (s.heap.node x)) : SameFile n ((s.heap.setParent i p).node x) := by
  rw [setParent, node_modify]
  split_ifs
  · exact ⟨hs.mode, hs.modTime, hs.content⟩
  · exact hs

theorem CopyInv.walkSim (ht : TreeInv h R) (hr : R r) (hs : CopyInv h r s)
    (hf : Filled h ⟨h, fun _ => none⟩ s) {c : NodeId} (hc : s.copies r = some c) :
    WalkSim h (s.heap.setParent c c) r c fun n x => s.copies n = some x := by
  constructor
  case isDir =>
    intro n x hx
    rw [isDir_setParent]
    exact hs.isDir hx
  case parent =>
    intro n x hx
    have hlt := (hs.below n x hx).lt
    by_cases hn : n = r
    · subst hn
      obtain rfl := Option.some.inj (hc.symm.trans hx)
      rw [(ht.root n hr).2.2, parent_setParent, Function.update_self]
      exact .some hc
    by_cases hd : h.isDir n = true
    · obtain ⟨p, p', h1, h2, h3⟩ := hs.up hc hx hd hn
      rw [h1, h3]
      exact .some h2
    · have hfile : h.isDir n = false := by simpa using hd
      rw [ht.fileParent n hlt hfile, hs.parent_copy hc hx hn, hs.file n x hx hfile]
      exact .none
  case entry =>
    intro n x hx k
    rw [entry_setParent]
    cases he : h.entry n k with
    | some m =>
      obtain ⟨y, hy, hye⟩ := hf.full n x hx rfl k m he
      rw [hye]
      exact .some hy
    | none =>
      cases hxe : s.heap.entry x k with
      | none => exact .none
      | some y =>
        obtain ⟨n', m, h1, h2, -⟩ := hs.entry x k y (hs.copy n x hx).1 hxe
        obtain rfl := hs.inj n' n x h1 hx
        rw [he] at h2
        cases h2
  case root =>
    intro n x hx
    constructor
    · rintro rfl
      exact Option.some.inj (hx.symm.trans hc)
    · rintro rfl
      exact hs.inj n r x hx hc

theorem clone_isClone (ht : TreeInv h R) {fs : FS} (hr : R fs.root) (spare : ℕ → List UInt8) :
    ∃ h' fs' copies, fs.clone h spare = some (h', fs') ∧
      IsClone h h' fs.root fs'.root copies := by
  obtain ⟨t, c, hclone, hcopied⟩ := clone_copied ht hr spare
  have hs := hcopied.inv
  refine ⟨_, ⟨c⟩, t.copies, hclone, hcopied.copy, hs.below, hs.inj, ?_, hs.onto, ?_, ?_, ?_⟩
  · exact fun n x hx => ⟨(hs.copy n x hx).1, (hs.copy n x hx).2.1⟩
  · exact (hs.newNodes ht hr hcopied.copy).old
  · exact fun n x hx => sameFile_setParent c c (hs.copy n x hx).2.2
  · exact hs.walkSim ht hr hcopied.toFilled hcopied.copy

end

end PgZero.Memfs
