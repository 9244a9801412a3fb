import PgZero.Memfs.Tree

/-!
# Moving directories

`RenameAt` gives a directory a new parent after its loop has climbed from there to the root without
meeting the directory.

* **`subtreeLoop_ends`**: the loop ends within its bound, at the moving directory or at the root.
* **`TreeInv.move`**: the move of an entry.
-/

set_option autoImplicit false

namespace PgZero.Memfs

open Function Lib Heap

variable {h : Heap} {R : NodeId → Prop} {r n t : NodeId}

/-! ### The loop -/

theorem subtreeLoop_iterate (hc : Climbs h.parent r t) {k turns : ℕ}
    (hk : (Climbs.next h.parent)^[k] t = r) (hlt : k < turns) :
    h.subtreeLoop n r turns (some t) = .inside ∨
      (h.subtreeLoop n r turns (some t) = .outside ∧ ClimbsAvoiding h.parent n r t) := by
  induction turns generalizing k t with
  | zero => omega
  | succ turns ih =>
    rw [subtreeLoop]
    by_cases hn : t = n
    · rw [if_pos (congrArg some hn)]
      exact Or.inl rfl
    rw [if_neg (fun h1 => hn (Option.some.inj h1))]
    by_cases hr : t = r
    · rw [if_pos (congrArg some hr)]
      subst hr
      exact Or.inr ⟨rfl, .refl hn⟩
    rw [if_neg (fun h1 => hr (Option.some.inj h1))]
    obtain ⟨b, hp, hb⟩ := hc.up hr
    cases k with
    | zero => exact absurd hk hr
    | succ k =>
      rw [iterate_succ_apply, Climbs.next, hp] at hk
      rw [hp]
      apply (ih hb hk (by omega)).imp_right
      rintro ⟨hend, hav⟩
      exact ⟨hend, .step hn hp hav⟩

/-- The directories. -/
def Heap.dirs (h : Heap) : Finset NodeId := (Finset.range h.next).filter fun i => h.isDir i = true

theorem Heap.mem_dirs {i : NodeId} : i ∈ h.dirs ↔ i < h.next ∧ h.isDir i = true := by
  rw [dirs, Finset.mem_filter, Finset.mem_range]

theorem Heap.card_dirs_le (h : Heap) : h.dirs.card ≤ h.next :=
  (Finset.card_filter_le _ _).trans (Finset.card_range h.next).le

/-- **The loop of `RenameAt` ends**: the way up has fewer steps than there are directories. -/
theorem subtreeLoop_ends (ht : TreeInv h R) (hb : Below h r t) (hd : h.isDir t = true) :
    h.subtreeLoop n r (h.next + 1) (some t) = .inside ∨
      (h.subtreeLoop n r (h.next + 1) (some t) = .outside ∧ ClimbsAvoiding h.parent n r t) := by
  have hS : ∀ x ∈ h.dirs, ∀ y, h.parent x = some y → y ∈ h.dirs := by
    intro x hx y hy
    rw [mem_dirs] at hx ⊢
    exact ht.parentDir x y hx.1 hx.2 hy
  obtain ⟨k, hk, hr⟩ :=
    (hb.climbs hd).exists_iterate_lt_card hS (mem_dirs.mpr ⟨hb.lt, hd⟩)
  have hcard := h.card_dirs_le
  exact subtreeLoop_iterate (hb.climbs hd) hr (by omega)

/-! ### Moves -/

theorem climbs_setParent (ht : TreeInv h R) (hr : R r) (hn : Climbs h.parent r n)
    (hav : ClimbsAvoiding h.parent n r t) {r' i : NodeId} (hr' : R r')
    (hc : Climbs h.parent r' i) : Climbs (h.setParent n t).parent r' i := by
  rw [parent_setParent]
  by_cases heq : r' = r
  · subst heq
    exact hc.update hav
  · -- the directory belongs to one filesystem only
    exact hc.update_of_not fun hn' => heq (ht.root_unique hr' hr hn' hn)

theorem TreeInv.setParent (ht : TreeInv h R) (hr : R r) (hn : Below h r n) (hd : h.isDir n = true)
    (hfree : ∀ d k, h.entry d k ≠ some n) (hroot : ¬ R n) (hlt : t < h.next)
    (htd : h.isDir t = true) (hav : ClimbsAvoiding h.parent n r t) :
    Kept R h (h.setParent n t) := by
  have hclimbs : ∀ r' i, R r' → Climbs h.parent r' i → Climbs (h.setParent n t).parent r' i :=
    fun r' i hr' => climbs_setParent ht hr (hn.climbs hd) hav hr'
  have hpar : ∀ {i}, i ≠ n → (h.setParent n t).parent i = h.parent i := fun hi => by
    rw [parent_setParent, update_of_ne hi]
  refine ⟨?_, le_refl _, fun i _ => h.isDir_setParent n t i,
    fun r' i hr' _ _ hc => hclimbs r' i hr' hc⟩
  constructor <;> simp only [next_setParent, isDir_setParent, entry_setParent]
  · intro r' hr'
    rw [hpar (fun h1 => hroot (h1 ▸ hr'))]
    exact ht.root r' hr'
  · exact ht.rootFree
  · intro d hlt' hd'
    obtain ⟨r', hr', hc⟩ := ht.climbs d hlt' hd'
    exact ⟨r', hr', hclimbs r' d hr' hc⟩
  · intro d p hlt' hd' hp
    by_cases hdn : d = n
    · subst hdn
      rw [parent_setParent, update_self] at hp
      obtain rfl := Option.some.inj hp
      exact ⟨hlt, htd⟩
    · rw [hpar hdn] at hp
      exact ht.parentDir d p hlt' hd' hp
  · intro c hlt' hc
    rw [hpar (fun h1 => by rw [h1, hd] at hc; cases hc)]
    exact ht.fileParent c hlt' hc
  · exact ht.child
  · intro d k c he hc
    rw [hpar (fun h1 => hfree d k (h1 ▸ he))]
    exact ht.childDir d k c he hc
  · exact ht.unique

theorem Heap.sameTree_delEntry_setParent (h : Heap) (d : NodeId) (k : Str) (n t : NodeId) :
    SameTree ((h.delEntry d k).setParent n t) ((h.setParent n t).delEntry d k) := by
  refine ⟨rfl, ?_, ?_, ?_⟩
  · funext i
    rw [isDir_delEntry, isDir_setParent, isDir_setParent, isDir_delEntry]
  · funext i k'
    rw [entry_delEntry, entry_setParent, entry_setParent, entry_delEntry]
  · rw [parent_delEntry, parent_setParent, parent_setParent, parent_delEntry]

theorem sameTree_moveEntry (h : Heap) (odir : NodeId) (obase : Str) (ndir : NodeId) (nbase : Str)
    (n : NodeId) (now : ℤ) : Heap.SameTree ((h.delEntry odir obase).setEntry ndir nbase n)
      (h.moveEntry odir obase ndir nbase n now) :=
  (sameTree_touch _ _ _).trans (sameTree_touch _ _ _)

theorem TreeInv.delEntry_free (ht : TreeInv h R) {d : NodeId} {k : Str} (he : h.entry d k = some n)
    (hd : h.isDir n = true) (d' : NodeId) (k' : Str) : (h.delEntry d k).entry d' k' ≠ some n := by
  intro he'
  rw [entry_delEntry] at he'
  split_ifs at he' with hk
  have hp := ht.childDir d' k' n he' hd
  rw [ht.childDir d k n he hd] at hp
  obtain rfl := Option.some.inj hp
  exact hk ⟨rfl, ht.unique d k' k n he' he hd⟩

section

variable {odir ndir : NodeId} {obase nbase : Str}

theorem TreeInv.moveFile (ht : TreeInv h R) (he : h.entry odir obase = some n)
    (hfile : h.isDir n = false) (hlt : ndir < h.next) (hdir : h.isDir ndir = true)
    (hname : ValidName nbase) (now : ℤ) :
    Kept R h (h.moveEntry odir obase ndir nbase n now) := by
  have hs := sameTree_moveEntry h odir obase ndir nbase n now
  have hn := ht.goodEntry he
  have ht' : TreeInv ((h.delEntry odir obase).setEntry ndir nbase n) R := by
    apply (ht.delEntry odir obase).setEntry
    · refine ⟨hlt, ?_, hn.lt, hname, ?_, hn.not_root⟩
      · rwa [isDir_delEntry]
      · rw [isDir_delEntry, hfile]
        exact fun h1 => by cases h1
    · rw [isDir_delEntry, hfile]
      exact fun h1 => by cases h1
  exact ⟨ht'.congr hs, ((extends_delEntry _ _ _).trans (extends_setEntry _ _ _ _)).trans hs.extends⟩

/-- **The move of a directory**, to one from which the loop found the root. -/
theorem TreeInv.move (ht : TreeInv h R) (hr : R r) (hb : Below h r odir)
    (he : h.entry odir obase = some n) (hd : h.isDir n = true) (hlt : ndir < h.next)
    (hdir : h.isDir ndir = true) (hav : ClimbsAvoiding h.parent n r ndir) (hname : ValidName nbase)
    (now : ℤ) : Kept R h ((h.setParent n ndir).moveEntry odir obase ndir nbase n now) := by
  have hfree := ht.delEntry_free he hd
  have hn := ht.goodEntry he
  have hbn : Below (h.delEntry odir obase) r n :=
    (extends_delEntry h odir obase).below hr (ht.entry_below hb he)
  -- without its entry the directory is free to get a new parent
  obtain ⟨ht1, he1⟩ := (ht.delEntry odir obase).setParent (t := ndir) hr hbn
    (by rwa [isDir_delEntry]) hfree hn.not_root hlt (by rwa [isDir_delEntry])
    (by rwa [parent_delEntry])
  have hs1 := h.sameTree_delEntry_setParent odir obase n ndir
  have ht2 := ht1.congr hs1
  have hs2 := sameTree_moveEntry (h.setParent n ndir) odir obase ndir nbase n now
  have ht3 : TreeInv (((h.setParent n ndir).delEntry odir obase).setEntry ndir nbase n) R := by
    apply ht2.setEntry
    · refine ⟨hlt, ?_, hn.lt, hname, ?_, hn.not_root⟩
      · rwa [isDir_delEntry, isDir_setParent]
      · intro _
        rw [parent_delEntry, parent_setParent, update_self]
    · intro _ k' h1
      rw [hs1.entry, entry_setParent] at h1
      exact hfree ndir k' h1
  refine ⟨ht3.congr hs2, ?_⟩
  exact ((((extends_delEntry h odir obase).trans he1).trans hs1.extends).trans
    (extends_setEntry _ _ _ _)).trans hs2.extends

end

end PgZero.Memfs
