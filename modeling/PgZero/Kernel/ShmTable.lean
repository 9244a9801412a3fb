import PgZero.Kernel.Shm

/-!
# The table of segments

What the sections of the table keep, as long as the ids have not run out: ids are given in order, a
name leads to a segment that is not removed, and a segment has been freed exactly when it is removed
and unused.
-/

set_option autoImplicit false

namespace PgZero.Kernel

open Function Lib

/-- The segment is removed and nothing uses it. -/
def Segment.unused (x : Segment) : Bool :=
  x.removed && decide (x.attached = 0) && decide (x.fds = 0)

theorem Segment.unused_iff {x : Segment} :
    x.unused = true ↔ x.removed = true ∧ x.attached = 0 ∧ x.fds = 0 := by
  simp [Segment.unused, and_assoc]

/-- Ids are given in order, and those of the segments in use lead to them until they run out. -/
structure IdsInv (t : ShmTable) : Prop where
  ids : ∀ o < t.nobjs, (t.objs o).id = BitVec.ofNat 32 (o + 1)
  unmade : ∀ o, t.nobjs ≤ o → (t.objs o).id = 0
  segs : ∀ id o, t.segs id = some o → o < t.nobjs ∧ (t.objs o).id = id
  made : ∀ n o, t.names n = some o → o < t.nobjs
  next : t.next = BitVec.ofNat 32 (t.nobjs + 1)
  live : t.nobjs < 2 ^ 31 → ∀ o < t.nobjs, t.frees o = 0 → t.segs (t.objs o).id = some o

/-- The invariant: names lead to segments that are not removed, and a segment has been freed exactly
when it is removed and unused. -/
structure TableInv (t : ShmTable) : Prop extends IdsInv t where
  frees : ∀ o, t.frees o = (t.objs o).unused.toNat
  rest : ∀ o, t.nobjs ≤ o →
    (t.objs o).removed = false ∧ (t.objs o).attached = 0 ∧ (t.objs o).fds = 0
  named : ∀ n o, t.names n = some o → (t.objs o).removed = false ∧ (t.objs o).name = n
  bound : t.nobjs < 2 ^ 31

/-- From `t` to `t'` no segment is made, removed, opened or closed, and no name changes. -/
structure TableFrame (t t' : ShmTable) : Prop where
  nobjs : t'.nobjs = t.nobjs
  names : t'.names = t.names
  next : t'.next = t.next
  fds : ∀ o, (t'.objs o).fds = (t.objs o).fds
  removed : ∀ o, (t'.objs o).removed = (t.objs o).removed

variable {t t' : ShmTable} {o : ℕ} {x : Segment}

theorem TableFrame.trans {t'' : ShmTable} (h1 : TableFrame t t') (h2 : TableFrame t' t'') :
    TableFrame t t'' :=
  ⟨h2.nobjs.trans h1.nobjs, h2.names.trans h1.names, h2.next.trans h1.next,
    fun o => (h2.fds o).trans (h1.fds o), fun o => (h2.removed o).trans (h1.removed o)⟩

/-! ### Freeing -/

theorem maybeFree_obj (t : ShmTable) (o i : ℕ) :
    ∃ seg, (t.maybeFree o).objs i = { t.objs i with seg } := by
  unfold ShmTable.maybeFree
  dsimp only
  split
  · by_cases hi : i = o
    · subst hi
      exact ⟨none, by simp [ShmTable.setObj]⟩
    · exact ⟨(t.objs i).seg, by simp [ShmTable.setObj, hi]⟩
  · exact ⟨(t.objs i).seg, rfl⟩

theorem maybeFree_rest (t : ShmTable) (o : ℕ) : (t.maybeFree o).nobjs = t.nobjs ∧
    (t.maybeFree o).names = t.names ∧ (t.maybeFree o).next = t.next := by
  unfold ShmTable.maybeFree
  dsimp only
  split <;> exact ⟨rfl, rfl, rfl⟩

theorem maybeFree_segs {id : BitVec 32} {i : ℕ} (h : (t.maybeFree o).segs id = some i) :
    t.segs id = some i := by
  unfold ShmTable.maybeFree at h
  dsimp only at h
  split at h
  · dsimp only at h
    rw [update_apply] at h
    split at h
    · cases h
    · exact h
  · exact h

theorem maybeFree_frees (t : ShmTable) (o i : ℕ) : (t.maybeFree o).frees i =
    t.frees i + if i = o then (t.objs o).unused.toNat else 0 := by
  unfold ShmTable.maybeFree
  dsimp only
  split
  · rename_i hu
    dsimp only
    rw [Segment.unused_iff.mpr hu, update_apply]
    split
    · rename_i hi
      rw [hi]
      rfl
    · rfl
  · rename_i hu
    have hf : (t.objs o).unused = false := Bool.eq_false_iff.mpr fun h => hu (Segment.unused_iff.mp h)
    rw [hf]
    split <;> rfl

/-! ### Ids and names -/

theorem ofNat_succ_inj {i j : ℕ} (hi : i < 2 ^ 31) (hj : j < 2 ^ 31)
    (h : BitVec.ofNat 32 (i + 1) = BitVec.ofNat 32 (j + 1)) : i = j := by
  have h' := congrArg BitVec.toNat h
  rw [BitVec.toNat_ofNat, BitVec.toNat_ofNat, Nat.mod_eq_of_lt (by omega),
    Nat.mod_eq_of_lt (by omega)] at h'
  omega

theorem succ_lt_of_next_pos (hnext : t.next = BitVec.ofNat 32 (t.nobjs + 1))
    (hb : t.nobjs < 2 ^ 31) (hn : 0 < t.next.toInt) : t.nobjs + 1 < 2 ^ 31 := by
  rw [hnext, BitVec.toInt_ofNat', Int.bmod] at hn
  omega

theorem newSegment_obj_self (t : ShmTable) (name : List UInt8) (seg : Option ℕ) :
    (t.newSegment name seg).objs t.nobjs = ⟨t.next, name, seg, 0, 0, false⟩ :=
  update_self ..

theorem newSegment_obj_of_ne {i : ℕ} (hi : i ≠ t.nobjs) (name : List UInt8) (seg : Option ℕ) :
    (t.newSegment name seg).objs i = t.objs i :=
  update_of_ne hi _ _

theorem newSegment_next (hnext : t.next = BitVec.ofNat 32 (t.nobjs + 1)) (name : List UInt8)
    (seg : Option ℕ) : (t.newSegment name seg).next = BitVec.ofNat 32 (t.nobjs + 1 + 1) := by
  show t.next + 1 = _
  rw [hnext]
  exact (BitVec.ofNat_add (t.nobjs + 1) 1).symm

theorem IdsInv.init : IdsInv .init :=
  ⟨fun _ ho => absurd ho (Nat.not_lt_zero _), fun _ _ => rfl, nofun, nofun, rfl,
    fun _ _ ho => absurd ho (Nat.not_lt_zero _)⟩

theorem IdsInv.id_ne (h : IdsInv t) (hb : t.nobjs < 2 ^ 31) {i j : ℕ} (hi : i < t.nobjs)
    (hij : i ≠ j) : (t.objs i).id ≠ (t.objs j).id := by
  intro he
  rw [h.ids i hi] at he
  by_cases hj : j < t.nobjs
  · rw [h.ids j hj] at he
    exact hij (ofNat_succ_inj (hi.trans hb) (hj.trans hb) he)
  · rw [h.unmade j (Nat.not_lt.mp hj)] at he
    have h' := congrArg BitVec.toNat he
    rw [BitVec.toNat_ofNat, Nat.mod_eq_of_lt (by omega)] at h'
    exact absurd h' (Nat.succ_ne_zero i)

theorem IdsInv.setObj (h : IdsInv t) {x : Segment} (hid : x.id = (t.objs o).id) :
    IdsInv (t.setObj o x) := by
  have hids : ∀ i, ((t.setObj o x).objs i).id = (t.objs i).id := by
    intro i
    by_cases hi : i = o
    · subst hi
      exact (congrArg Segment.id (update_self ..)).trans hid
    · exact congrArg Segment.id (update_of_ne hi _ _)
  refine ⟨fun i hi => (hids i).trans (h.ids i hi), fun i hi => (hids i).trans (h.unmade i hi),
    fun id i hi => ⟨(h.segs id i hi).1, (hids i).trans (h.segs id i hi).2⟩, h.made, h.next,
    fun hb i hi hf => ?_⟩
  rw [hids i]
  exact h.live hb i hi hf

theorem IdsInv.maybeFree (h : IdsInv t) (o : ℕ) : IdsInv (t.maybeFree o) := by
  obtain ⟨hnobjs, hnames, hnext⟩ := maybeFree_rest t o
  have hids : ∀ i, ((t.maybeFree o).objs i).id = (t.objs i).id := fun i => by
    obtain ⟨seg, hg⟩ := maybeFree_obj t o i
    rw [hg]
  refine ⟨fun i hi => (hids i).trans (h.ids i (hnobjs ▸ hi)),
    fun i hi => (hids i).trans (h.unmade i (hnobjs ▸ hi)), fun id i hi => ?_, fun n i hi => ?_, ?_,
    fun hb i hi hf => ?_⟩
  · obtain ⟨hlt, hid⟩ := h.segs id i (maybeFree_segs hi)
    exact ⟨hnobjs ▸ hlt, (hids i).trans hid⟩
  · exact hnobjs ▸ h.made n i (hnames ▸ hi)
  · rw [hnext, hnobjs]
    exact h.next
  · rw [hnobjs] at hb hi
    rw [hids i]
    rw [maybeFree_frees] at hf
    have hseg := h.live hb i hi (Nat.eq_zero_of_add_eq_zero_right hf)
    unfold ShmTable.maybeFree
    dsimp only
    split
    · -- the segment that is freed is another one, with another id
      rename_i hu
      have hio : i ≠ o := by
        intro he
        rw [if_pos he, Segment.unused_iff.mpr hu] at hf
        exact absurd hf (Nat.succ_ne_zero _)
      exact (update_of_ne (h.id_ne hb hi hio) _ _).trans hseg
    · exact hseg

theorem IdsInv.newSegment (h : IdsInv t) (name : List UInt8) (seg : Option ℕ) :
    IdsInv (t.newSegment name seg) := by
  have hnew := newSegment_obj_self t name seg
  have hold : ∀ {i : ℕ}, i ≠ t.nobjs → (t.newSegment name seg).objs i = t.objs i := fun hi =>
    newSegment_obj_of_ne hi name seg
  refine ⟨fun i hi => ?_, fun i hi => ?_, fun id i hi => ?_, fun n i hi =>
    Nat.lt_succ_of_lt (h.made n i hi), newSegment_next h.next name seg, fun hb i hi hf => ?_⟩
  · by_cases hin : i = t.nobjs
    · rw [hin, hnew]
      exact h.next
    · rw [hold hin]
      exact h.ids i (Nat.lt_of_le_of_ne (Nat.le_of_lt_succ hi) hin)
  · have hi' : t.nobjs + 1 ≤ i := hi
    rw [hold (by omega)]
    exact h.unmade i (by omega)
  · have hi' : update t.segs t.next (some t.nobjs) id = some i := hi
    rw [update_apply] at hi'
    split at hi'
    · rename_i hid
      cases hi'
      rw [hnew]
      exact ⟨Nat.lt_succ_self _, hid.symm⟩
    · obtain ⟨hlt, hidi⟩ := h.segs id i hi'
      rw [hold (ne_of_lt hlt)]
      exact ⟨Nat.lt_succ_of_lt hlt, hidi⟩
  · have hb' : t.nobjs + 1 < 2 ^ 31 := hb
    by_cases hin : i = t.nobjs
    · rw [hin, hnew]
      exact update_self ..
    · have hlt : i < t.nobjs := Nat.lt_of_le_of_ne (Nat.le_of_lt_succ hi) hin
      have hne : (t.objs i).id ≠ t.next := by
        intro he
        rw [h.ids i hlt, h.next] at he
        exact hin (ofNat_succ_inj (by omega) (by omega) he)
      rw [hold hin]
      exact (update_of_ne hne _ _).trans (h.live (by omega) i hlt hf)

/-- A name changes. -/
theorem IdsInv.setName (h : IdsInv t) {n : List UInt8} {y : Option ℕ}
    (hy : ∀ i, y = some i → i < t.nobjs) :
    IdsInv { t with names := update t.names n y } := by
  refine ⟨h.ids, h.unmade, h.segs, fun m i hi => ?_, h.next, h.live⟩
  dsimp only at hi
  rw [update_apply] at hi
  split at hi
  · exact hy i hi
  · exact h.made m i hi

/-! ### The invariant -/

theorem TableInv.names (h : TableInv t) (n : List UInt8) (o : ℕ) (hn : t.names n = some o) :
    o < t.nobjs ∧ (t.objs o).removed = false ∧ (t.objs o).name = n :=
  ⟨h.made n o hn, h.named n o hn⟩

theorem TableInv.touch (h : TableInv t) (ho : o < t.nobjs) (hused : (t.objs o).unused = false)
    (hid : x.id = (t.objs o).id) (hname : x.name = (t.objs o).name)
    (hnames : x.removed = true → ∀ n, t.names n ≠ some o) :
    TableInv ((t.setObj o x).maybeFree o) := by
  obtain ⟨hnobjs, hnam, -⟩ := maybeFree_rest (t.setObj o x) o
  have hobj : ∀ i, ∃ seg, ((t.setObj o x).maybeFree o).objs i =
      { update t.objs o x i with seg } := fun i => maybeFree_obj _ o i
  refine ⟨(h.toIdsInv.setObj hid).maybeFree o, fun i => ?_, fun i hi => ?_, fun n i hi => ?_, ?_⟩
  · obtain ⟨seg, hg⟩ := hobj i
    rw [maybeFree_frees, hg]
    by_cases hio : i = o
    · subst hio
      have h0 : t.frees i = 0 := by rw [h.frees, hused]; rfl
      show t.frees i + _ = _
      rw [h0, if_pos rfl, Nat.zero_add]
      rfl
    · rw [if_neg hio, update_of_ne hio]
      exact h.frees i
  · obtain ⟨seg, hg⟩ := hobj i
    rw [hnobjs] at hi
    have hio : i ≠ o := fun he => absurd ho (not_lt.mpr (he ▸ hi))
    rw [hg, update_of_ne hio]
    exact h.rest i hi
  · obtain ⟨seg, hg⟩ := hobj i
    rw [hnam] at hi
    obtain ⟨hr, hn⟩ := h.named n i hi
    rw [hg]
    by_cases hio : i = o
    · subst hio
      rw [update_self]
      exact ⟨Bool.eq_false_iff.mpr fun hrem => hnames hrem n hi, hname.trans hn⟩
    · rw [update_of_ne hio]
      exact ⟨hr, hn⟩
  · rw [hnobjs]
    exact h.bound

theorem TableInv.setObj (h : TableInv t) (ho : o < t.nobjs) (hused : x.unused = (t.objs o).unused)
    (hid : x.id = (t.objs o).id) (hname : x.name = (t.objs o).name)
    (hremoved : x.removed = (t.objs o).removed) : TableInv (t.setObj o x) := by
  have hupd : ∀ {β : Type} (f : Segment → β), f x = f (t.objs o) →
      ∀ i, f (update t.objs o x i) = f (t.objs i) := by
    intro β f hf i
    by_cases hi : i = o
    · subst hi
      rw [update_self, hf]
    · rw [update_of_ne hi]
  refine ⟨h.toIdsInv.setObj hid, fun i => ?_, fun i hi => ?_, fun n i hi => ?_, h.bound⟩
  · exact (h.frees i).trans (congrArg Bool.toNat (hupd Segment.unused hused i).symm)
  · have hio : i ≠ o := fun he => absurd ho (not_lt.mpr (he ▸ hi))
    have hobj : (t.setObj o x).objs i = t.objs i := update_of_ne hio _ _
    rw [hobj]
    exact h.rest i hi
  · obtain ⟨hr, hn⟩ := h.named n i hi
    exact ⟨(hupd Segment.removed hremoved i).trans hr, (hupd Segment.name hname i).trans hn⟩

/-! ### Attachments -/

/-- A segment with an attachment or an open file has been made and is in use. -/
theorem TableInv.in_use (h : TableInv t) (hpos : (t.objs o).attached ≠ 0 ∨ (t.objs o).fds ≠ 0) :
    o < t.nobjs ∧ (t.objs o).unused = false := by
  constructor
  · by_contra hn
    obtain ⟨-, h1, h2⟩ := h.rest o (not_lt.mp hn)
    rcases hpos with hp | hp
    · exact hp h1
    · exact hp h2
  · rw [Bool.eq_false_iff]
    intro hu
    obtain ⟨-, h1, h2⟩ := Segment.unused_iff.mp hu
    rcases hpos with hp | hp
    · exact hp h1
    · exact hp h2

theorem detach_frame (t : ShmTable) (o : ℕ) : TableFrame t (t.detach o) := by
  obtain ⟨h1, h2, h3⟩ := maybeFree_rest
    (t.setObj o { t.objs o with attached := (t.objs o).attached - 1 }) o
  refine ⟨h1, h2, h3, fun i => ?_, fun i => ?_⟩
  all_goals
    obtain ⟨seg, hg⟩ := maybeFree_obj
      (t.setObj o { t.objs o with attached := (t.objs o).attached - 1 }) o i
    rw [ShmTable.detach, hg]
    unfold ShmTable.setObj
    by_cases hi : i = o
    · subst hi
      simp
    · simp [hi]

theorem detach_attached (t : ShmTable) (o i : ℕ) :
    ((t.detach o).objs i).attached = (t.objs i).attached - if i = o then 1 else 0 := by
  obtain ⟨seg, hg⟩ := maybeFree_obj
    (t.setObj o { t.objs o with attached := (t.objs o).attached - 1 }) o i
  rw [ShmTable.detach, hg]
  unfold ShmTable.setObj
  by_cases hi : i = o
  · subst hi
    simp
  · simp [hi]

theorem release_obj (t : ShmTable) (o i : ℕ) :
    ((t.release o).objs i).attached = (t.objs i).attached ∧
      ((t.release o).objs i).fds = (t.objs i).fds - (if i = o then 1 else 0) ∧
      ((t.release o).objs i).removed = (t.objs i).removed := by
  obtain ⟨seg, hg⟩ := maybeFree_obj (t.setObj o { t.objs o with fds := (t.objs o).fds - 1 }) o i
  rw [ShmTable.release, hg]
  unfold ShmTable.setObj
  by_cases hi : i = o
  · subst hi
    simp
  · simp [hi]

theorem TableInv.detach (h : TableInv t) (hpos : (t.objs o).attached ≠ 0) :
    TableInv (t.detach o) := by
  obtain ⟨ho, hused⟩ := h.in_use (.inl hpos)
  refine h.touch ho hused rfl rfl fun hrem n hn => ?_
  rw [(h.names n o hn).2.1] at hrem
  cases hrem

theorem TableInv.release (h : TableInv t) (hpos : (t.objs o).fds ≠ 0) : TableInv (t.release o) := by
  obtain ⟨ho, hused⟩ := h.in_use (.inr hpos)
  refine h.touch ho hused rfl rfl fun hrem n hn => ?_
  rw [(h.names n o hn).2.1] at hrem
  cases hrem

/-- **A list of attachments is forgotten**, each of them counted. -/
theorem TableInv.foldlDetach (l : List ℕ) (h : TableInv t)
    (hl : ∀ i, (l.count i : ℤ) ≤ (t.objs i).attached) :
    TableInv (l.foldl ShmTable.detach t) ∧ TableFrame t (l.foldl ShmTable.detach t) ∧
      ∀ i, ((l.foldl ShmTable.detach t).objs i).attached = (t.objs i).attached - l.count i := by
  induction l generalizing t with
  | nil => exact ⟨h, ⟨rfl, rfl, rfl, fun _ => rfl, fun _ => rfl⟩, fun i => by simp⟩
  | cons o l ih =>
    have hcount : ∀ i, ((o :: l).count i : ℤ) = l.count i + if i = o then 1 else 0 := by
      intro i
      rw [List.count_cons]
      by_cases hi : i = o
      · subst hi
        simp
      · simp [hi, Ne.symm hi]
    have hpos : (t.objs o).attached ≠ 0 := by
      have := hl o
      rw [hcount, if_pos rfl] at this
      omega
    obtain ⟨h1, h2, h3⟩ := ih (h.detach hpos) fun i => by
      have := hl i
      rw [hcount] at this
      rw [detach_attached]
      omega
    refine ⟨h1, (detach_frame t o).trans h2, fun i => ?_⟩
    rw [List.foldl_cons, h3, detach_attached, hcount]
    omega

theorem TableInv.attach (h : TableInv t) (ho : o < t.nobjs) (hused : (t.objs o).unused = false)
    (hpos : 0 ≤ (t.objs o).attached) :
    TableInv (t.setObj o { t.objs o with attached := (t.objs o).attached + 1 }) := by
  refine h.setObj ho ?_ rfl rfl rfl
  rw [hused, Bool.eq_false_iff]
  intro hu
  obtain ⟨-, h1, -⟩ := Segment.unused_iff.mp hu
  dsimp only at h1
  omega

theorem TableInv.opened (h : TableInv t) (ho : o < t.nobjs) (hused : (t.objs o).unused = false)
    (hpos : 0 ≤ (t.objs o).fds) :
    TableInv (t.setObj o { t.objs o with fds := (t.objs o).fds + 1 }) := by
  refine h.setObj ho ?_ rfl rfl rfl
  rw [hused, Bool.eq_false_iff]
  intro hu
  obtain ⟨-, -, h1⟩ := Segment.unused_iff.mp hu
  dsimp only at h1
  omega

theorem TableInv.newSegment (h : TableInv t) (hn : 0 < t.next.toInt) (name : List UInt8)
    (seg : Option ℕ) : TableInv (t.newSegment name seg) := by
  have hnew := newSegment_obj_self t name seg
  refine ⟨h.toIdsInv.newSegment name seg, fun i => ?_, fun i hi => ?_, fun n i hi => ?_,
    succ_lt_of_next_pos h.next h.bound hn⟩
  · by_cases hin : i = t.nobjs
    · subst hin
      rw [hnew]
      refine (h.frees t.nobjs).trans ?_
      simp [Segment.unused, (h.rest t.nobjs le_rfl).1]
    · rw [newSegment_obj_of_ne hin]
      exact h.frees i
  · have hi' : t.nobjs + 1 ≤ i := hi
    rw [newSegment_obj_of_ne (by omega)]
    exact h.rest i (by omega)
  · rw [newSegment_obj_of_ne (ne_of_lt (h.made n i hi))]
    exact h.named n i hi

end PgZero.Kernel
