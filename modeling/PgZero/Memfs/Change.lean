import PgZero.Memfs.Renamed

/-!
# Directories without an entry

A directory that was removed or replaced has lost its entry, and is empty.

* **`Settled.effect`**: a call keeps this when it puts nothing into such a directory.
-/

set_option autoImplicit false

namespace PgZero.Memfs

open Lib Heap

/-- A root, or a node with an entry. -/
def Heap.Held (h : Heap) (R : NodeId → Prop) (d : NodeId) : Prop :=
  R d ∨ ∃ p k, h.entry p k = some d

/-- A directory that has lost its entry is empty. -/
def Settled (h : Heap) (R : NodeId → Prop) : Prop :=
  ∀ d, d < h.next → h.isDir d = true → h.Held R d ∨ ∀ k, h.entry d k = none

section

variable {h h' : Heap} {R : NodeId → Prop}

theorem Settled.congr (hs : Settled h R) (ht : Heap.SameTree h h') : Settled h' R := by
  unfold Settled Heap.Held
  rw [ht.next, ht.isDir, ht.entry]
  exact hs

theorem Settled.held (ht : TreeInv h R) (hs : Settled h R) {d c : NodeId} {k : Str}
    (he : h.entry d k = some c) : h.Held R d := by
  obtain ⟨hlt, hd, -⟩ := ht.child d k c he
  rcases hs d hlt hd with hh | hempty
  · exact hh
  · rw [hempty k] at he
    cases he

theorem Settled.create (ht : TreeInv h R) (hs : Settled h R) {d : NodeId} {k : Str} {n : Node}
    (hd : h.Held R d) (hn : n.entries = ∅) (hnone : h.entry d k = none) :
    Settled ((h.alloc n).setEntry d k h.next) R := by
  have hentry : ∀ i k', ((h.alloc n).setEntry d k h.next).entry i k' =
      if i = d ∧ k' = k then some h.next else if i = h.next then none else h.entry i k' := by
    intro i k'
    rw [entry_setEntry, entry_alloc h hn]
  -- no entry is lost
  have hkeep : ∀ {p k' c}, h.entry p k' = some c →
      ((h.alloc n).setEntry d k h.next).entry p k' = some c := by
    intro p k' c he
    rw [hentry, if_neg, if_neg (ht.child p k' c he).1.ne, he]
    rintro ⟨rfl, rfl⟩
    rw [hnone] at he
    cases he
  have hheld : ∀ {i}, h.Held R i → ((h.alloc n).setEntry d k h.next).Held R i := by
    rintro i (hr | ⟨p, k', he⟩)
    · exact Or.inl hr
    · exact Or.inr ⟨p, k', hkeep he⟩
  intro i hlt hi
  by_cases hnew : i = h.next
  · exact Or.inl (Or.inr ⟨d, k, by rw [hentry, if_pos ⟨rfl, rfl⟩, hnew]⟩)
  by_cases hid : i = d
  · exact Or.inl (hheld (hid ▸ hd))
  rw [isDir_setEntry, isDir_alloc, if_neg hnew] at hi
  have hlt' : i < h.next := Nat.lt_of_le_of_ne (Nat.le_of_lt_succ hlt) hnew
  refine (hs i hlt' hi).imp hheld fun hempty k' => ?_
  rw [hentry, if_neg (fun h1 => hid h1.1), if_neg hnew]
  exact hempty k'

theorem Settled.remove (hs : Settled h R) {d c : NodeId} {k : Str} (he : h.entry d k = some c)
    (hempty : h.isDir c = true → ∀ k', h.entry c k' = none) : Settled (h.delEntry d k) R := by
  -- an empty directory stays empty
  have hnone : ∀ {i}, (∀ k', h.entry i k' = none) → ∀ k', (h.delEntry d k).entry i k' = none := by
    intro i hi k'
    rw [entry_delEntry, hi k', ite_self]
  intro i hlt hi
  rw [isDir_delEntry] at hi
  rcases hs i hlt hi with (hr | ⟨p, k', he'⟩) | hi'
  · exact Or.inl (Or.inl hr)
  · by_cases hk : p = d ∧ k' = k
    · obtain ⟨rfl, rfl⟩ := hk
      obtain rfl := Option.some.inj (he.symm.trans he')
      exact Or.inr (hnone (hempty hi))
    · refine Or.inl (Or.inr ⟨p, k', ?_⟩)
      rw [entry_delEntry, if_neg hk]
      exact he'
  · exact Or.inr (hnone hi')

theorem Settled.link (hs : Settled h R) {d c : NodeId} {k : Str} (hd : h.Held R d)
    (hnone : h.entry d k = none) : Settled (h.setEntry d k c) R := by
  have hheld : ∀ {i}, h.Held R i → (h.setEntry d k c).Held R i := by
    rintro i (hr | ⟨p, k', he⟩)
    · exact Or.inl hr
    · refine Or.inr ⟨p, k', ?_⟩
      rw [entry_setEntry, if_neg, he]
      rintro ⟨rfl, rfl⟩
      rw [hnone] at he
      cases he
  intro i hlt hi
  by_cases hid : i = d
  · exact Or.inl (hheld (hid ▸ hd))
  rw [isDir_setEntry] at hi
  refine (hs i hlt hi).imp hheld fun hempty k' => ?_
  rw [entry_setEntry, if_neg (fun h1 => hid h1.1)]
  exact hempty k'

theorem Settled.move (hs : Settled h R) {r odir ndir n : NodeId} {obase nbase : Str}
    (hheld : h.Held R ndir) (he : h.entry odir obase = some n) (hm : Moves h r ndir nbase n)
    (now : ℤ) : Settled (h.moved odir obase ndir nbase n now) R := by
  -- a replaced directory was empty, and is none of the two
  have htarget : ∀ {t}, h.entry ndir nbase = some t → h.isDir t = true →
      ∀ k, (h.moved odir obase ndir nbase n now).entry t k = none := by
    intro t ht htd k
    have hempty := (hm.target t ht).2 htd
    have hne : t ≠ ndir := by
      rintro rfl
      rw [hempty nbase] at ht
      cases ht
    rw [entry_moved, if_neg (fun h1 => hne h1.1), hempty k, ite_self]
  intro i hlt hi
  rw [next_moved] at hlt
  rw [isDir_moved] at hi
  by_cases hin : i = n
  · exact Or.inl (Or.inr ⟨ndir, nbase, by rw [entry_moved, if_pos ⟨rfl, rfl⟩, hin]⟩)
  -- the other entries stay, but for the one that is replaced
  have hkeep : h.Held R i → (h.moved odir obase ndir nbase n now).Held R i ∨
      h.entry ndir nbase = some i := by
    rintro (hr | ⟨p, k, hp⟩)
    · exact Or.inl (Or.inl hr)
    by_cases hk : p = ndir ∧ k = nbase
    · obtain ⟨rfl, rfl⟩ := hk
      exact Or.inr hp
    · refine Or.inl (Or.inr ⟨p, k, ?_⟩)
      rw [entry_moved, if_neg hk, if_neg, hp]
      rintro ⟨rfl, rfl⟩
      exact hin (Option.some.inj (hp.symm.trans he))
  by_cases hnd : i = ndir
  · subst hnd
    rcases hkeep hheld with hh | ht
    · exact Or.inl hh
    · exact Or.inr (htarget ht hi)
  rcases hs i hlt hi with hh | hempty
  · exact (hkeep hh).imp_right fun ht => htarget ht hi
  · refine Or.inr fun k => ?_
    rw [entry_moved, if_neg (fun h1 => hnd h1.1), hempty k, ite_self]

/-- **A call keeps the namespace settled** when it puts its entry into a held directory. -/
theorem Settled.effect {f : File} {now : ℤ} {P : NodeId → Str → Prop} (ht : TreeInv h R)
    (hs : Settled h R) (hP : ∀ d k, P d k → h.Held R d) (he : Effect h f now P h') :
    Settled h' R := by
  cases he with
  | same => exact hs
  | create hp hnone hn _ => exact (hs.create ht (hP _ _ hp) hn hnone).congr (sameTree_touch _ _ _)
  | remove _ he hempty => exact (hs.remove he hempty).congr (sameTree_touch _ _ _)
  | link _ _ hp hnone => exact (hs.link (hP _ _ hp) hnone).congr (sameTree_touch _ _ _)
  | move _ hp he hm => exact hs.move (hP _ _ hp) he hm now

end

end PgZero.Memfs
