import PgZero.Memfs.Calls

/-!
# Clones

`Clone` walks the entries from the root and keeps a table of the copies it has made, so that a hard
link is copied once.

* **`clone_copies`**: a call of the recursion ends; its node has a copy then, and the copies made on
  the way have all their entries.
* **`clone_kept`**: the copy is a filesystem of its own, and the old ones are as they were.
-/

set_option autoImplicit false

namespace PgZero.Memfs

open Function Lib

/-- The data that a copy shares with its node. -/
structure SameFile (n c : Node) : Prop where
  mode : c.mode = n.mode
  modTime : c.modTime = n.modTime
  content : c.data.toList = n.data.toList

theorem sameFile_copy (n : Node) (parent : Option NodeId) (spare : ℕ → List UInt8) :
    SameFile n (n.copy parent spare) := by
  refine ⟨rfl, rfl, ?_⟩
  simp only [Node.copy]
  split_ifs with h
  · have hl := n.data.length_toList
    rw [h] at hl
    rw [List.eq_nil_of_length_eq_zero hl]
    rfl
  · exact Slice.toList_ofList _ _

/-- The copies `s` of nodes of `h` below the root `r`. -/
structure CopyInv (h : Heap) (r : NodeId) (s : Copying) : Prop where
  next : h.next ≤ s.heap.next
  old : ∀ i, i < h.next → s.heap.node i = h.node i
  below : ∀ n c, s.copies n = some c → Below h r n
  copy : ∀ n c, s.copies n = some c →
    h.next ≤ c ∧ c < s.heap.next ∧ SameFile (h.node n) (s.heap.node c)
  inj : ∀ n n' c, s.copies n = some c → s.copies n' = some c → n = n'
  onto : ∀ c, h.next ≤ c → c < s.heap.next → ∃ n, s.copies n = some c
  file : ∀ n c, s.copies n = some c → h.isDir n = false → s.heap.parent c = none
  dir : ∀ n c, s.copies n = some c → h.isDir n = true → n ≠ r →
    ∃ p p', h.parent n = some p ∧ s.copies p = some p' ∧ s.heap.parent c = some p'
  entry : ∀ d k c, h.next ≤ d → s.heap.entry d k = some c →
    ∃ n m, s.copies n = some d ∧ h.entry n k = some m ∧ s.copies m = some c

/-- No copy is lost. -/
def Copying.Later (s t : Copying) : Prop := ∀ n c, s.copies n = some c → t.copies n = some c

/-- From `s` to `t` no copy and no entry of one is lost, and the nodes copied on the way have their
entries. -/
structure Filled (h : Heap) (s t : Copying) : Prop where
  later : s.Later t
  entry : ∀ d k x, h.next ≤ d → s.heap.entry d k = some x → t.heap.entry d k = some x
  full : ∀ n c, t.copies n = some c → s.copies n = none → ∀ k m, h.entry n k = some m →
    ∃ x, t.copies m = some x ∧ t.heap.entry c k = some x

/-- The nodes of `h` without a copy. -/
def Copying.uncopied (s : Copying) (h : Heap) : Finset NodeId :=
  (Finset.range h.next).filter fun n => s.copies n = none

section

variable {h : Heap} {R : NodeId → Prop} {r n : NodeId} {s t u : Copying}

theorem Copying.Later.trans (hst : s.Later t) (htu : t.Later u) : s.Later u :=
  fun n c hc => htu n c (hst n c hc)

theorem Copying.mem_uncopied : n ∈ s.uncopied h ↔ n < h.next ∧ s.copies n = none := by
  rw [uncopied, Finset.mem_filter, Finset.mem_range]

theorem Copying.Later.uncopied_subset (hst : s.Later t) : t.uncopied h ⊆ s.uncopied h := by
  intro n hn
  rw [Copying.mem_uncopied] at hn ⊢
  refine ⟨hn.1, ?_⟩
  cases hc : s.copies n with
  | none => rfl
  | some c =>
    rw [hst n c hc] at hn
    cases hn.2

theorem Filled.refl (h : Heap) (s : Copying) : Filled h s s :=
  ⟨fun _ _ hc => hc, fun _ _ _ _ he => he, fun n c hc hn => by rw [hc] at hn; cases hn⟩

theorem Filled.trans (hge : ∀ n c, t.copies n = some c → h.next ≤ c) (hst : Filled h s t)
    (htu : Filled h t u) : Filled h s u := by
  refine ⟨hst.later.trans htu.later,
    fun d k x hd he => htu.entry d k x hd (hst.entry d k x hd he), ?_⟩
  intro n c hc hn k m he
  cases hct : t.copies n with
  | none => exact htu.full n c hc hct k m he
  | some c' =>
    -- copied before `t`, and complete there
    obtain rfl := Option.some.inj ((htu.later n c' hct).symm.trans hc)
    obtain ⟨x, hx, hxe⟩ := hst.full n c' hct hn k m he
    exact ⟨x, htu.later m x hx, htu.entry c' k x (hge n c' hct) hxe⟩

theorem CopyInv.isDir (hs : CopyInv h r s) {c : NodeId} (hc : s.copies n = some c) :
    s.heap.isDir c = h.isDir n :=
  congrArg FileMode.isDir (hs.copy n c hc).2.2.mode

/-! ### A new copy -/

section

variable {parent : Option NodeId} {spare : ℕ → List UInt8}

theorem add_later (hn : s.copies n = none) : s.Later (s.add n parent spare) := by
  intro m c hc
  have hne : m ≠ n := by
    rintro rfl
    rw [hn] at hc
    cases hc
  exact (update_of_ne hne _ _).trans hc

theorem add_copies : (s.add n parent spare).copies n = some s.heap.next :=
  update_self _ _ _

theorem add_uncopied_lt (hlt : n < h.next) (hn : s.copies n = none) :
    ((s.add n parent spare).uncopied h).card < (s.uncopied h).card := by
  apply Finset.card_lt_card
  refine (Finset.ssubset_iff_of_subset (add_later hn).uncopied_subset).mpr ⟨n, ?_, ?_⟩
  · exact Copying.mem_uncopied.mpr ⟨hlt, hn⟩
  · intro hm
    rw [Copying.mem_uncopied, add_copies] at hm
    cases hm.2

theorem add_cases {m c : NodeId} (hc : (s.add n parent spare).copies m = some c) :
    (m = n ∧ c = s.heap.next) ∨ (m ≠ n ∧ s.copies m = some c) := by
  by_cases hm : m = n
  · subst hm
    rw [add_copies] at hc
    exact Or.inl ⟨rfl, (Option.some.inj hc).symm⟩
  · exact Or.inr ⟨hm, (update_of_ne hm _ _).symm.trans hc⟩

/-- The parent that a call for `n` gets: the copy of the parent of `n`. -/
def ParentCopied (h : Heap) (r : NodeId) (s : Copying) (n : NodeId) (parent : Option NodeId) :
    Prop :=
  h.isDir n = true → n ≠ r → ∃ p p', h.parent n = some p ∧ s.copies p = some p' ∧ parent = some p'

theorem CopyInv.add (hs : CopyInv h r s) (hb : Below h r n) (hn : s.copies n = none)
    (hp : ParentCopied h r s n parent) : CopyInv h r (s.add n parent spare) := by
  have hsame : SameFile (h.node n) ((s.add n parent spare).heap.node s.heap.next) := by
    rw [Copying.add, Heap.node_alloc, if_pos rfl, hs.old n hb.lt]
    exact sameFile_copy (h.node n) parent spare
  have hpar : (s.add n parent spare).heap.parent s.heap.next =
      if h.isDir n then parent else none := by
    rw [Copying.add, Heap.parent_alloc, update_self, Heap.isDir, ← hs.old n hb.lt]
    rfl
  have hnode : ∀ {i}, i < s.heap.next → (s.add n parent spare).heap.node i = s.heap.node i :=
    fun hi => by rw [Copying.add, Heap.node_alloc, if_neg hi.ne]
  refine ⟨hs.next.trans (Nat.le_succ _), ?_, ?_, ?_, ?_, ?_, ?_, ?_, ?_⟩
  · intro i hi
    rw [hnode (hi.trans_le hs.next)]
    exact hs.old i hi
  · intro m c hc
    rcases add_cases hc with ⟨rfl, -⟩ | ⟨-, hc'⟩
    · exact hb
    · exact hs.below m c hc'
  · intro m c hc
    rcases add_cases hc with ⟨rfl, rfl⟩ | ⟨-, hc'⟩
    · exact ⟨hs.next, Nat.lt_succ_self _, hsame⟩
    · obtain ⟨h1, h2, h3⟩ := hs.copy m c hc'
      refine ⟨h1, Nat.lt_succ_of_lt h2, ?_⟩
      rw [hnode h2]
      exact h3
  · intro m m' c hc hc'
    rcases add_cases hc with ⟨rfl, rfl⟩ | ⟨-, h1⟩ <;> rcases add_cases hc' with ⟨rfl, h2⟩ | ⟨-, h2⟩
    · rfl
    · exact absurd (hs.copy m' _ h2).2.1 (Nat.lt_irrefl _)
    · exact absurd (h2 ▸ (hs.copy m _ h1).2.1) (Nat.lt_irrefl _)
    · exact hs.inj m m' c h1 h2
  · intro c hge hlt
    rcases Nat.lt_or_ge c s.heap.next with hc | hc
    · obtain ⟨m, hm⟩ := hs.onto c hge hc
      exact ⟨m, add_later hn m c hm⟩
    · obtain rfl := Nat.le_antisymm (Nat.le_of_lt_succ hlt) hc
      exact ⟨n, add_copies⟩
  · intro m c hc hf
    rcases add_cases hc with ⟨rfl, rfl⟩ | ⟨-, hc'⟩
    · rw [hpar, hf]
      rfl
    · rw [Heap.parent, hnode (hs.copy m c hc').2.1]
      exact hs.file m c hc' hf
  · intro m c hc hd hne
    rcases add_cases hc with ⟨rfl, rfl⟩ | ⟨-, hc'⟩
    · obtain ⟨p, p', h1, h2, h3⟩ := hp hd hne
      refine ⟨p, p', h1, add_later hn p p' h2, ?_⟩
      rw [hpar, if_pos hd]
      exact h3
    · obtain ⟨p, p', h1, h2, h3⟩ := hs.dir m c hc' hd hne
      refine ⟨p, p', h1, add_later hn p p' h2, ?_⟩
      rw [Heap.parent, hnode (hs.copy m c hc').2.1]
      exact h3
  · intro d k c hge he
    rw [Copying.add, Heap.entry_alloc s.heap rfl] at he
    split_ifs at he
    obtain ⟨m, m', h1, h2, h3⟩ := hs.entry d k c hge he
    exact ⟨m, m', add_later hn m d h1, h2, add_later hn m' c h3⟩

theorem CopyInv.setEntry (hs : CopyInv h r s) {m c c' : NodeId} {k : Str}
    (hc : s.copies n = some c) (he : h.entry n k = some m) (hc' : s.copies m = some c') :
    CopyInv h r { s with heap := s.heap.setEntry c k c' } := by
  have hge := (hs.copy n c hc).1
  refine ⟨hs.next, ?_, hs.below, ?_, hs.inj, hs.onto, ?_, ?_, ?_⟩
  · intro i hi
    have hne : i ≠ c := (hi.trans_le hge).ne
    dsimp only
    rw [Heap.setEntry, Heap.node_modify, if_neg hne]
    exact hs.old i hi
  · intro n' c1 h1
    obtain ⟨h2, h3, h4⟩ := hs.copy n' c1 h1
    refine ⟨h2, h3, ?_⟩
    dsimp only
    rw [Heap.setEntry, Heap.node_modify]
    split_ifs
    · exact ⟨h4.mode, h4.modTime, h4.content⟩
    · exact h4
  · intro n' c1 h1 hf
    rw [Heap.parent_setEntry]
    exact hs.file n' c1 h1 hf
  · intro n' c1 h1 hd hne
    rw [Heap.parent_setEntry]
    exact hs.dir n' c1 h1 hd hne
  · intro d k' c1 hd h1
    rw [Heap.entry_setEntry] at h1
    split_ifs at h1 with hk
    · obtain ⟨rfl, rfl⟩ := hk
      obtain rfl := Option.some.inj h1
      exact ⟨n, m, hc, he, hc'⟩
    · exact hs.entry d k' c1 hd h1

end

theorem filled_setEntry (hs : CopyInv h r s) {m c x : NodeId} {k : Str}
    (hc : s.copies n = some c) (he : h.entry n k = some m) (hx : s.copies m = some x) :
    Filled h s { s with heap := s.heap.setEntry c k x } := by
  refine ⟨fun _ _ h1 => h1, fun d k' y hd hy => ?_, fun n' c' h1 h2 => by rw [h1] at h2; cases h2⟩
  show (s.heap.setEntry c k x).entry d k' = some y
  rw [Heap.entry_setEntry]
  split_ifs with hk
  · obtain ⟨rfl, rfl⟩ := hk
    obtain ⟨n', m', h1, h2, h3⟩ := hs.entry d k' y hd hy
    obtain rfl := hs.inj n' n d h1 hc
    obtain rfl := Option.some.inj (h2.symm.trans he)
    exact hx.symm.trans h3
  · exact hy

/-! ### The recursion -/

/-- What a call leaves behind, with the copy `c` of `n`. -/
structure Copied (h : Heap) (r : NodeId) (s t : Copying) (n c : NodeId) : Prop
    extends Filled h s t where
  inv : CopyInv h r t
  copy : t.copies n = some c

/-- The copy `c` has the entry `e`. -/
def Copying.Has (s : Copying) (c : NodeId) (e : (_ : Str) × NodeId) : Prop :=
  ∃ x, s.copies e.2 = some x ∧ s.heap.entry c e.1 = some x

/-- `clone` ends with a copy when fewer than `depth` nodes have none yet. -/
def ClonesTo (h : Heap) (r : NodeId) (depth : ℕ)
    (clone : Copying → NodeId → Option NodeId → Option (Copying × NodeId)) : Prop :=
  ∀ s n parent, CopyInv h r s → Below h r n → ParentCopied h r s n parent →
    (s.uncopied h).card < depth → ∃ t c, clone s n parent = some (t, c) ∧ Copied h r s t n c

section

variable {depth : ℕ} {c : NodeId}
  {clone : Copying → NodeId → Option NodeId → Option (Copying × NodeId)}

theorem cloneEntry_copied (ht : TreeInv h R) (hcl : ClonesTo h r depth clone) (hs : CopyInv h r s)
    (hc : s.copies n = some c) (hlt : (s.uncopied h).card < depth) {e : (_ : Str) × NodeId}
    (he : h.entry n e.1 = some e.2) :
    ∃ t, s.cloneEntry clone c e = some t ∧ CopyInv h r t ∧ Filled h s t ∧ t.Has c e := by
  have hp : ParentCopied h r s e.2 (some c) := by
    intro hd _
    exact ⟨n, c, ht.childDir n e.1 e.2 he hd, hc, rfl⟩
  obtain ⟨t, x, hcall, hcopied⟩ :=
    hcl s e.2 (some c) hs (ht.entry_below (hs.below n c hc) he) hp hlt
  have hcn := hcopied.later n c hc
  refine ⟨{ t with heap := t.heap.setEntry c e.1 x }, ?_, ?_, ?_, x, hcopied.copy, ?_⟩
  · rw [Copying.cloneEntry, hcall]
    rfl
  · exact hcopied.inv.setEntry hcn he hcopied.copy
  · exact hcopied.toFilled.trans (fun m y hm => (hcopied.inv.copy m y hm).1)
      (filled_setEntry hcopied.inv hcn he hcopied.copy)
  · show (t.heap.setEntry c e.1 x).entry c e.1 = some x
    rw [Heap.entry_setEntry, if_pos ⟨rfl, rfl⟩]

theorem cloneEntries_copied (ht : TreeInv h R) (hcl : ClonesTo h r depth clone)
    (es : List ((_ : Str) × NodeId)) (hs : CopyInv h r s) (hc : s.copies n = some c)
    (hlt : (s.uncopied h).card < depth) (hes : ∀ e ∈ es, h.entry n e.1 = some e.2) :
    ∃ t, es.foldlM (Copying.cloneEntry clone c) s = some t ∧ CopyInv h r t ∧ Filled h s t ∧
      ∀ e ∈ es, t.Has c e := by
  induction es generalizing s with
  | nil => exact ⟨s, rfl, hs, .refl h s, fun e he => by cases he⟩
  | cons e es ih =>
    obtain ⟨t, h1, hinv, hst, x, hx, hxe⟩ :=
      cloneEntry_copied ht hcl hs hc hlt (hes e List.mem_cons_self)
    have hle := Finset.card_le_card (hst.later.uncopied_subset (h := h))
    have hct := hst.later n c hc
    obtain ⟨u, h2, hinv', htu, hrest⟩ := ih hinv hct (by omega)
      (fun e' he' => hes e' (List.mem_cons_of_mem e he'))
    refine ⟨u, ?_, hinv', hst.trans (fun m y hm => (hinv.copy m y hm).1) htu, fun e' he' => ?_⟩
    · rw [List.foldlM_cons, h1]
      exact h2
    · rcases List.mem_cons.mp he' with rfl | he'
      · exact ⟨x, htu.later e'.2 x hx, htu.entry c e'.1 x (hinv.copy n c hct).1 hxe⟩
      · exact hrest e' he'

end

theorem mem_cloneEntries (hs : CopyInv h r s) (hlt : n < h.next)
    (e : (_ : Str) × NodeId) :
    e ∈ (if s.heap.isDir n then (s.heap.node n).entries.entries else []) ↔
      h.isDir n = true ∧ h.entry n e.1 = some e.2 := by
  have hnode := hs.old n hlt
  have hdir : s.heap.isDir n = h.isDir n := by rw [Heap.isDir, Heap.isDir, hnode]
  rw [hdir, hnode]
  split_ifs with hd
  · exact AList.mem_lookup_iff.symm.trans (and_iff_right hd).symm
  · simp [hd]

/-- **A call of `clone` ends**, by induction on the depth: each level makes a copy. -/
theorem clone_copies (ht : TreeInv h R) (spare : ℕ → List UInt8) (depth : ℕ) :
    ClonesTo h r depth (Copying.clone spare depth) := by
  induction depth with
  | zero =>
    intro s n parent _ _ _ hlt
    exact absurd hlt (Nat.not_lt_zero _)
  | succ depth ih =>
    intro s n parent hs hb hp hlt
    cases hn : s.copies n with
    | some c =>
      refine ⟨s, c, ?_, .refl h s, hs, hn⟩
      rw [Copying.clone, hn]
    | none =>
      have hadd : CopyInv h r (s.add n parent spare) := hs.add hb hn hp
      have hless : ((s.add n parent spare).uncopied h).card < (s.uncopied h).card :=
        add_uncopied_lt hb.lt hn
      have hes := mem_cloneEntries hs hb.lt
      obtain ⟨t, h1, hinv, hst, hall⟩ := cloneEntries_copied ht ih _ hadd add_copies (by omega)
        (fun e he => ((hes e).mp he).2)
      have hcopy := hst.later n _ add_copies
      refine ⟨t, s.heap.next, ?_, ⟨(add_later hn).trans hst.later, ?_, ?_⟩, hinv, hcopy⟩
      · rw [Copying.clone, hn]
        dsimp only
        rw [h1]
        rfl
      · intro d k x hge he
        obtain ⟨m, m', hm, -, -⟩ := hs.entry d k x hge he
        refine hst.entry d k x hge ?_
        rw [Copying.add, Heap.entry_alloc s.heap rfl, if_neg (hs.copy m d hm).2.1.ne]
        exact he
      · intro m c hc hm k m' he
        by_cases hmn : m = n
        · subst hmn
          obtain rfl := Option.some.inj (hcopy.symm.trans hc)
          exact hall ⟨k, m'⟩ ((hes ⟨k, m'⟩).mpr ⟨(ht.child m k m' he).2.1, he⟩)
        · exact hst.full m c hc ((update_of_ne hmn _ _).trans hm) k m' he

/-! ### The copy of a filesystem -/

theorem copyInv_start (ht : TreeInv h R) (r : NodeId) : CopyInv h r ⟨h, fun _ => none⟩ where
  next := le_refl _
  old _ _ := rfl
  below _ _ hc := by cases hc
  copy _ _ hc := by cases hc
  inj _ _ _ hc := by cases hc
  onto _ hge hlt := absurd hlt (Nat.not_lt.mpr hge)
  file _ _ hc := by cases hc
  dir _ _ hc := by cases hc
  entry d k c hge he := absurd (ht.child d k c he).1 (Nat.not_lt.mpr hge)

section

variable {c x : NodeId}

theorem CopyInv.parent_copy (hs : CopyInv h r s) (hc : s.copies r = some c)
    (hx : s.copies n = some x) (hn : n ≠ r) :
    (s.heap.setParent c c).parent x = s.heap.parent x := by
  rw [Heap.parent_setParent, update_of_ne]
  rintro rfl
  exact hn (hs.inj n r x hx hc)

theorem CopyInv.up (hs : CopyInv h r s) (hc : s.copies r = some c) (hx : s.copies n = some x)
    (hd : h.isDir n = true) (hn : n ≠ r) : ∃ p p', h.parent n = some p ∧ s.copies p = some p' ∧
      (s.heap.setParent c c).parent x = some p' := by
  obtain ⟨p, p', h1, h2, h3⟩ := hs.dir n x hx hd hn
  exact ⟨p, p', h1, h2, (hs.parent_copy hc hx hn).trans h3⟩

theorem CopyInv.climbs_copy (ht : TreeInv h R) (hs : CopyInv h r s) (hc : s.copies r = some c)
    (hx : s.copies n = some x) (hd : h.isDir n = true) :
    Climbs (s.heap.setParent c c).parent c x := by
  refine ((hs.below n x hx).climbs hd).map ?_ hc hx
  intro y p y' hp hy hy'
  have hyd : h.isDir y = true := by
    by_contra hf
    rw [ht.fileParent y (hs.below y y' hy').lt (by simpa using hf)] at hp
    cases hp
  obtain ⟨q, q', h1, h2, h3⟩ := hs.up hc hy' hyd hy
  obtain rfl := Option.some.inj (hp.symm.trans h1)
  exact ⟨q', h2, h3⟩

theorem CopyInv.parentDir_copy (ht : TreeInv h R) (hr : R r) (hs : CopyInv h r s)
    (hc : s.copies r = some c) (hx : s.copies n = some x) (hd : h.isDir n = true) {p : NodeId}
    (hp : (s.heap.setParent c c).parent x = some p) :
    p < s.heap.next ∧ s.heap.isDir p = true := by
  by_cases hn : n = r
  · subst hn
    obtain rfl := Option.some.inj (hc.symm.trans hx)
    rw [Heap.parent_setParent, update_self] at hp
    obtain rfl := Option.some.inj hp
    exact ⟨(hs.copy n c hc).2.1, (hs.isDir hc).trans (ht.root n hr).2.1⟩
  · obtain ⟨q, q', h1, h2, h3⟩ := hs.up hc hx hd hn
    obtain rfl := Option.some.inj (h3.symm.trans hp)
    exact ⟨(hs.copy q q' h2).2.1,
      (hs.isDir h2).trans (ht.parentDir n q (hs.below n x hx).lt hd h1).2⟩

theorem CopyInv.childDir_copy (ht : TreeInv h R) (hr : R r) (hs : CopyInv h r s)
    (hc : s.copies r = some c) {d : NodeId} {k : Str} (hge : h.next ≤ d)
    (he : s.heap.entry d k = some x) (hd : s.heap.isDir x = true) :
    (s.heap.setParent c c).parent x = some d := by
  obtain ⟨n, m, hn, he', hm⟩ := hs.entry d k x hge he
  rw [hs.isDir hm] at hd
  have hmr : m ≠ r := by
    rintro rfl
    exact ht.rootFree m hr n k he'
  obtain ⟨p, p', h1, h2, h3⟩ := hs.up hc hm hd hmr
  obtain rfl := Option.some.inj (h1.symm.trans (ht.childDir n k m he' hd))
  rw [h3, ← h2]
  exact hn

theorem CopyInv.newNodes (ht : TreeInv h R) (hr : R r) (hs : CopyInv h r s)
    (hc : s.copies r = some c) : NewNodes h (s.heap.setParent c c) fun x => R x ∨ x = c := by
  obtain ⟨hge, hlt, -⟩ := hs.copy r c hc
  have hdir := (hs.isDir hc).trans (ht.root r hr).2.1
  constructor
  case next => exact hs.next
  case old =>
    intro i hi
    rw [Heap.setParent, Heap.node_modify, if_neg (hi.trans_le hge).ne]
    exact hs.old i hi
  all_goals simp only [Heap.next_setParent, Heap.isDir_setParent, Heap.entry_setParent]
  case root =>
    rintro x (hx | rfl) hxge
    · exact absurd (ht.root x hx).1 (Nat.not_lt.mpr hxge)
    · refine ⟨hlt, hdir, ?_⟩
      rw [Heap.parent_setParent, update_self]
  case rootFree =>
    rintro x (hx | rfl) hxge d k hd he
    · exact absurd (ht.root x hx).1 (Nat.not_lt.mpr hxge)
    · obtain ⟨n, m, -, he', hm⟩ := hs.entry d k x hd he
      obtain rfl := hs.inj m r x hm hc
      exact ht.rootFree m hr n k he'
  case climbs =>
    intro x hxge hxlt hd
    obtain ⟨n, hx⟩ := hs.onto x hxge hxlt
    rw [hs.isDir hx] at hd
    exact ⟨c, Or.inr rfl, hs.climbs_copy ht hc hx hd⟩
  case parentDir =>
    intro x p hxge hxlt hd hp
    obtain ⟨n, hx⟩ := hs.onto x hxge hxlt
    rw [hs.isDir hx] at hd
    exact hs.parentDir_copy ht hr hc hx hd hp
  case fileParent =>
    intro x hxge hxlt hf
    obtain ⟨n, hx⟩ := hs.onto x hxge hxlt
    rw [hs.isDir hx] at hf
    have hn : n ≠ r := by
      rintro rfl
      rw [(ht.root n hr).2.1] at hf
      cases hf
    exact (hs.parent_copy hc hx hn).trans (hs.file n x hx hf)
  case child =>
    intro d k x hd he
    obtain ⟨n, m, hn, he', hm⟩ := hs.entry d k x hd he
    obtain ⟨-, hnd, -, hk⟩ := ht.child n k m he'
    obtain ⟨hxge, hxlt, -⟩ := hs.copy m x hm
    exact ⟨(hs.copy n d hn).2.1, (hs.isDir hn).trans hnd, hxge, hxlt, hk⟩
  case childDir =>
    intro d k x hd he hxd
    exact hs.childDir_copy ht hr hc hd he hxd
  case unique =>
    intro d k k' x hd he he' hxd
    obtain ⟨n, m, hn, h1, hm⟩ := hs.entry d k x hd he
    obtain ⟨n', m', hn', h2, hm'⟩ := hs.entry d k' x hd he'
    obtain rfl := hs.inj n n' d hn hn'
    obtain rfl := hs.inj m m' x hm hm'
    rw [hs.isDir hm] at hxd
    exact ht.unique n k k' m h1 h2 hxd

end

theorem clone_copied (ht : TreeInv h R) {fs : FS} (hr : R fs.root) (spare : ℕ → List UInt8) :
    ∃ t c, fs.clone h spare = some (t.heap.setParent c c, ⟨c⟩) ∧
      Copied h fs.root ⟨h, fun _ => none⟩ t fs.root c := by
  have hcard : ((⟨h, fun _ => none⟩ : Copying).uncopied h).card < h.next + 1 :=
    Nat.lt_succ_of_le ((Finset.card_filter_le _ _).trans (Finset.card_range _).le)
  obtain ⟨t, c, hcall, hcopied⟩ := clone_copies ht spare (h.next + 1) ⟨h, fun _ => none⟩ fs.root
    none (copyInv_start ht fs.root) ⟨(ht.root _ hr).1, fun _ => .refl⟩
    (fun _ hne => absurd rfl hne) hcard
  refine ⟨t, c, ?_, hcopied⟩
  rw [FS.clone, hcall]
  rfl

/-- **`Clone` ends** with a filesystem of its own. -/
theorem clone_kept (ht : TreeInv h R) {fs : FS} (hr : R fs.root) (spare : ℕ → List UInt8) :
    ∃ h' fs', fs.clone h spare = some (h', fs') ∧ TreeInv h' (fun x => R x ∨ x = fs'.root) ∧
      Extends R h h' := by
  obtain ⟨t, c, hclone, hcopied⟩ := clone_copied ht hr spare
  have hnew := hcopied.inv.newNodes ht hr hcopied.copy
  refine ⟨_, _, hclone, ht.grow hnew ?_, hnew.extends ht⟩
  intro x hx
  refine ⟨fun h1 => h1.resolve_right ?_, Or.inl⟩
  rintro rfl
  exact absurd hx (Nat.not_lt.mpr (hcopied.inv.copy _ _ hcopied.copy).1)

end

end PgZero.Memfs
