import PgZero.Memfs.WorldTree

/-!
# Directory iteration

`ReadDir` keeps an index into the sorted list of names, which is made anew by every call. Names that
come or go behind the index do not disturb it; names before it shift all others.

* **`call_iteration`**: such a call keeps the names returned so far at the front of the list.
* **`iteration_stable`**: iterations of all runs of such calls.
-/

set_option autoImplicit false

namespace PgZero.Memfs

open Lib Option World

/-! ### Sorted lists -/

section

variable {α : Type} {lt : α → α → Prop}

/-- A sorted list starts with `P` when all its other elements come after those of `P`. -/
theorem take_of_agree (hirr : ∀ a, ¬ lt a a) (htr : ∀ a b c, lt a b → lt b c → lt a c)
    {P L : List α} (hP : P.Pairwise lt) (hL : L.Pairwise lt) (hsub : ∀ k ∈ P, k ∈ L)
    (hafter : ∀ k ∈ L, k ∈ P ∨ ∀ x ∈ P, lt x k) : L.take P.length = P := by
  induction P generalizing L with
  | nil => rfl
  | cons x P ih =>
    obtain ⟨hx, hP'⟩ := List.pairwise_cons.mp hP
    cases L with
    | nil => cases hsub x List.mem_cons_self
    | cons y L =>
      obtain ⟨hy, hL'⟩ := List.pairwise_cons.mp hL
      -- the heads are the least elements
      obtain rfl : y = x := by
        rcases List.mem_cons.mp (hsub x List.mem_cons_self) with h | hxL
        · exact h.symm
        · have hyx := hy x hxL
          rcases hafter y List.mem_cons_self with hyP | hall
          · rcases List.mem_cons.mp hyP with h | hyP
            · exact h
            · exact absurd (htr _ _ _ hyx (hx y hyP)) (hirr y)
          · exact absurd (htr _ _ _ hyx (hall x List.mem_cons_self)) (hirr y)
      have hsub' : ∀ k ∈ P, k ∈ L := by
        intro k hk
        rcases List.mem_cons.mp (hsub k (List.mem_cons_of_mem y hk)) with rfl | hkL
        · exact absurd (hx k hk) (hirr k)
        · exact hkL
      have hafter' : ∀ k ∈ L, k ∈ P ∨ ∀ x ∈ P, lt x k := by
        intro k hk
        rcases hafter k (List.mem_cons_of_mem y hk) with hkP | hall
        · rcases List.mem_cons.mp hkP with rfl | hkP
          · exact absurd (hy k hk) (hirr k)
          · exact Or.inl hkP
        · exact Or.inr fun z hz => hall z (List.mem_cons_of_mem y hz)
      rw [List.length_cons, List.take_succ_cons, ih hP' hL' hsub' hafter']

end

/-! ### One call -/

/-- `names`, sorted. -/
def Heap.names (h : Heap) (d : NodeId) : List Str :=
  (h.node d).entries.keys.mergeSort fun a b => decide (a ≤ b)

section

variable {h : Heap} {d : NodeId}

theorem Heap.mem_names {k : Str} : k ∈ h.names d ↔ h.entry d k ≠ none := by
  rw [names, List.mem_mergeSort, ← AList.mem_keys, entry, ne_eq, AList.lookup_eq_none, not_not]

theorem Heap.names_sorted (h : Heap) (d : NodeId) : (h.names d).Pairwise (· < ·) := by
  have hle : (h.names d).Pairwise fun a b : Str => decide (a ≤ b) = true := by
    apply List.pairwise_mergeSort
    · intro a b c hab hbc
      exact decide_eq_true (List.le_trans (of_decide_eq_true hab) (of_decide_eq_true hbc))
    · intro a b
      rw [Bool.or_eq_true_iff, decide_eq_true_iff, decide_eq_true_iff]
      exact List.le_total a b
  have hne : (h.names d).Nodup :=
    (List.mergeSort_perm _ _).nodup_iff.mpr (h.node d).entries.nodupKeys
  refine (hle.and hne).imp fun {a b} hab => ?_
  exact List.not_le.mp fun hba => hab.2 (List.le_antisymm (of_decide_eq_true hab.1) hba)

theorem Heap.names_nodup (h : Heap) (d : NodeId) : (h.names d).Nodup :=
  (h.names_sorted d).imp fun {a b} hab => by
    rintro rfl
    exact List.lt_irrefl a hab

theorem Heap.names_eq {l : List Str} (hl : l.Pairwise (· < ·))
    (hk : (h.node d).entries.keys.Perm l) : h.names d = l := by
  have hirr : ∀ a b : Str, a ∈ h.names d → b ∈ l → a < b → b < a → a = b := fun a b _ _ hab hba =>
    absurd (List.lt_trans hab hba) (List.lt_irrefl a)
  exact List.Perm.eq_of_pairwise hirr (h.names_sorted d) hl ((List.mergeSort_perm _ _).trans hk)

variable {f : File} {count : ℤ}

theorem readDir_dir (hd : h.isDir f.node = true) (hc : 0 < count)
    (hfit : f.dirPos + count < 2 ^ 63) : f.readDir h count =
      if (h.names f.node).length ≤ f.dirPos then (f, some ([], some .eof))
      else
        let stop := min (f.dirPos + count.toNat) (h.names f.node).length
        ({ f with dirPos := stop },
          some ((((h.names f.node).take stop).drop f.dirPos).filterMap fun k =>
            (h.entry f.node k).map fun n => (h.node n).info k, none)) := by
  have hnames : (h.node f.node).entries.keys.mergeSort (fun a b => decide (a ≤ b)) =
      h.names f.node := rfl
  have hwrap : wrap 64 (f.dirPos + count) = f.dirPos + count := wrap64_eq (by omega) hfit
  unfold File.readDir
  rw [hd, if_neg (by simp)]
  simp only [hnames, hwrap, hc, if_true, true_and]
  by_cases hlen : (h.names f.node).length ≤ f.dirPos
  · rw [if_pos hlen, if_pos hlen]
  rw [if_neg hlen, if_neg hlen]
  -- the index stays between the old one and the end
  have hstop : (if (f.dirPos : ℤ) + count < (h.names f.node).length then (f.dirPos : ℤ) + count
      else (h.names f.node).length) =
      (min (f.dirPos + count.toNat) (h.names f.node).length : ℕ) := by
    split_ifs <;> omega
  rw [hstop, if_neg (by omega), Int.toNat_natCast]

/-- The infos that `ReadDir` returns have the names they were asked for. -/
theorem map_name_infos {l : List Str} (hl : ∀ k ∈ l, h.entry d k ≠ none) :
    (l.filterMap fun k => (h.entry d k).map fun n => (h.node n).info k).map FileInfo.name = l := by
  induction l with
  | nil => rfl
  | cons k l ih =>
    obtain ⟨n, hn⟩ := ne_none_iff_exists'.mp (hl k List.mem_cons_self)
    rw [List.filterMap_cons, hn, map_some]
    dsimp only
    rw [List.map_cons, ih fun q hq => hl q (List.mem_cons_of_mem k hq)]
    rfl

/-- **One call** returns the names from the old index to the new one. -/
theorem readDir_spec (hc : 0 < count) (hfit : f.dirPos + count < 2 ^ 63)
    (hle : f.dirPos ≤ (h.names f.node).length) :
    ∃ p infos err, f.readDir h count = ({ f with dirPos := p }, some (infos, err)) ∧
      f.dirPos ≤ p ∧ p ≤ (h.names f.node).length ∧
      infos.map FileInfo.name = ((h.names f.node).take p).drop f.dirPos ∧
      (err = some .eof → f.dirPos = (h.names f.node).length) := by
  have hnone : ((h.names f.node).take f.dirPos).drop f.dirPos = [] := by
    rw [List.drop_eq_nil_iff, List.length_take]
    omega
  by_cases hd : h.isDir f.node = true
  · rw [readDir_dir hd hc hfit]
    split_ifs with hlen
    · exact ⟨f.dirPos, [], some .eof, rfl, le_refl _, hle, hnone.symm, fun _ => by omega⟩
    · refine ⟨_, _, none, rfl, by omega, min_le_right _ _, ?_, nofun⟩
      refine map_name_infos fun k hk => ?_
      exact Heap.mem_names.mp (List.mem_of_mem_take (List.mem_of_mem_drop hk))
  · refine ⟨f.dirPos, [], some (ioErr "readdir" f.name .ENOTDIR), ?_, le_refl _, hle, hnone.symm,
      nofun⟩
    unfold File.readDir
    rw [if_pos (by simpa using hd)]

end

/-! ### Handles -/

section

variable {w w' : World} {i j : ℕ} {f g : File}

/-- The handle after a call: the same directory and the same index. -/
def SameCursor (w : World) (i : ℕ) (f : File) : Prop :=
  ∃ f', w.files[i]? = some f' ∧ f'.node = f.node ∧ f'.dirPos = f.dirPos

theorem sameCursor_setFile (hf : w.files[i]? = some f) (hg : w.files[j]? = some g) {g' : File}
    (hnode : g'.node = g.node) (hpos : g'.dirPos = g.dirPos) : SameCursor (w.setFile j g') i f := by
  by_cases hij : j = i
  · subst hij
    obtain rfl := Option.some.inj (hf.symm.trans hg)
    refine ⟨g', ?_, hnode, hpos⟩
    have hlt := (List.getElem?_eq_some_iff.mp hf).1
    simp [setFile, hlt]
  · refine ⟨f, ?_, rfl, rfl⟩
    simp only [setFile]
    rw [List.getElem?_set_ne hij]
    exact hf

theorem sameCursor_addFile (hf : w.files[i]? = some f) {r : Heap × Except Fault File} {a : Ans}
    (hc : w.addFile r = (w', a)) : SameCursor w' i f := by
  unfold addFile at hc
  split at hc
  · obtain ⟨rfl, -⟩ := Prod.mk.inj hc
    refine ⟨f, ?_, rfl, rfl⟩
    rw [List.getElem?_append_left (List.getElem?_eq_some_iff.mp hf).1]
    exact hf
  · obtain ⟨rfl, -⟩ := Prod.mk.inj hc
    exact ⟨f, hf, rfl, rfl⟩

theorem call_readDir (hf : w.files[i]? = some f) {count : ℤ} {f' : File} {infos : List FileInfo}
    {err : Option IoErr} (hr : f.readDir w.heap count = (f', some (infos, err))) :
    w.call (.readDir i count) = some (w.setFile i f', .dir infos err) := by
  simp only [call, hf, map_some, hr]

theorem call_cursor (hf : w.files[i]? = some f) {c : Call} {a : Ans} (hc : w.call c = some (w', a))
    (hne : ∀ count, c ≠ .readDir i count) : SameCursor w' i f := by
  have hself : SameCursor w i f := ⟨f, hf, rfl, rfl⟩
  cases c with
  | new now =>
    obtain ⟨rfl, -⟩ := Prod.mk.inj (Option.some.inj hc)
    exact hself
  | clone k spare =>
    obtain ⟨fs, -, hc⟩ := map_eq_some_iff.mp hc
    split at hc <;> obtain ⟨rfl, -⟩ := Prod.mk.inj hc <;> exact hself
  | openPath k name now =>
    obtain ⟨fs, -, hc⟩ := map_eq_some_iff.mp hc
    exact sameCursor_addFile hf hc
  | openAt i name flag perm now =>
    obtain ⟨g, -, hc⟩ := map_eq_some_iff.mp hc
    exact sameCursor_addFile hf hc
  | read j len =>
    obtain ⟨g, hg, hc⟩ := map_eq_some_iff.mp hc
    obtain ⟨rfl, -⟩ := Prod.mk.inj hc
    exact sameCursor_setFile hf hg rfl rfl
  | writeAt j b off now =>
    obtain ⟨g, -, hc⟩ := map_eq_some_iff.mp hc
    split at hc <;> obtain ⟨rfl, -⟩ := Prod.mk.inj hc <;> exact hself
  | write j b now =>
    obtain ⟨g, hg, hc⟩ := map_eq_some_iff.mp hc
    split at hc
    · obtain ⟨rfl, -⟩ := Prod.mk.inj hc
      exact hself
    · rename_i r hw
      obtain ⟨r', -, rfl⟩ := map_eq_some_iff.mp hw
      obtain ⟨rfl, -⟩ := Prod.mk.inj hc
      exact sameCursor_setFile (w := w.setNode g.node r'.1) hf hg rfl rfl
  | seek j offset whence =>
    obtain ⟨g, hg, hc⟩ := map_eq_some_iff.mp hc
    obtain ⟨rfl, -⟩ := Prod.mk.inj hc
    have hpos : (g.seek (w.nodeOf g) offset whence).1.dirPos = g.dirPos := by
      unfold File.seek
      dsimp only
      split
      · rfl
      · split_ifs <;> rfl
    exact sameCursor_setFile hf hg (seek_same (w.nodeOf g) g offset whence).2 hpos
  | readDir j count =>
    obtain ⟨g, hg, hc⟩ := map_eq_some_iff.mp hc
    obtain ⟨rfl, -⟩ := Prod.mk.inj hc
    have hij : j ≠ i := fun h1 => hne count (h1 ▸ rfl)
    refine ⟨f, ?_, rfl, rfl⟩
    simp only [setFile]
    rw [List.getElem?_set_ne hij]
    exact hf
  | renameAt j oldName newDir newName now | linkAt j oldName newDir newName now =>
    obtain ⟨g, -, hc⟩ := bind_eq_some_iff.mp hc
    obtain ⟨nd, -, hc⟩ := bind_eq_some_iff.mp hc
    obtain ⟨rfl, -⟩ := Prod.mk.inj (Option.some.inj hc)
    exact hself
  | addTar | mkdirAt | rmdirAt | unlinkAt | readAt | truncate | stat | statAt | chtimes
  | chtimesAt =>
    obtain ⟨g, -, hc⟩ := map_eq_some_iff.mp hc
    obtain ⟨rfl, -⟩ := Prod.mk.inj hc
    exact hself

end

/-! ### Iterations -/

/-- The names that come into directory `d` or leave it from one heap to the next. -/
def Heap.changedNames (h h' : Heap) (d : NodeId) : List Str :=
  ((h.node d).entries.keys ++ (h'.node d).entries.keys).filter fun k =>
    (h.entry d k).isSome ≠ (h'.entry d k).isSome

theorem Heap.mem_changedNames {h h' : Heap} {d : NodeId} {k : Str} :
    k ∈ h.changedNames h' d ↔ (h.entry d k).isSome ≠ (h'.entry d k).isSome := by
  rw [changedNames, List.mem_filter, decide_eq_true_iff, List.mem_append]
  refine and_iff_right_of_imp fun hne => ?_
  by_contra hnot
  rw [not_or, ← AList.mem_keys, ← AList.mem_keys, ← AList.lookup_eq_none,
    ← AList.lookup_eq_none] at hnot
  exact hne (by rw [entry, entry, hnot.1, hnot.2])

/-- The count of a `ReadDir` on handle `i` is positive and does not take the index out of range. -/
def CountFits (i : ℕ) (f : File) : Call → Prop
  | .readDir j count => j = i → 0 < count ∧ f.dirPos + count < 2 ^ 63
  | _ => True

instance (i : ℕ) (f : File) : (c : Call) → Decidable (CountFits i f c)
  | .readDir j count => inferInstanceAs
      (Decidable (j = i → 0 < count ∧ f.dirPos + count < 2 ^ 63))
  | .new .. | .clone .. | .addTar .. | .openPath .. | .openAt .. | .mkdirAt .. | .rmdirAt ..
  | .unlinkAt .. | .renameAt .. | .linkAt .. | .readAt .. | .read .. | .writeAt .. | .write ..
  | .seek .. | .truncate .. | .stat .. | .statAt .. | .chtimes .. | .chtimesAt .. =>
    inferInstanceAs (Decidable True)

/-- Names that come into the directory of handle `i` or leave it sort after those that have been
returned. -/
def AfterCursor (i : ℕ) (w : World) (c : Call) : Prop :=
  ∀ f ∈ w.files[i]?, CountFits i f c ∧ ∀ r ∈ w.call c,
    ∀ k ∈ w.heap.changedNames r.1.heap f.node,
      ∀ k' ∈ (w.heap.names f.node).take f.dirPos, k' < k

instance (i : ℕ) (w : World) (c : Call) : Decidable (AfterCursor i w c) :=
  inferInstanceAs (Decidable (∀ f ∈ w.files[i]?, CountFits i f c ∧ ∀ r ∈ w.call c,
    ∀ k ∈ w.heap.changedNames r.1.heap f.node,
      ∀ k' ∈ (w.heap.names f.node).take f.dirPos, k' < k))

/-- The names that one call returns on handle `i`. -/
def returnedBy (i : ℕ) : Call × Ans → List Str
  | (.readDir j _, .dir entries _) => if j = i then entries.map FileInfo.name else []
  | _ => []

/-- The names returned in a run. -/
def returned (i : ℕ) (tr : List (Call × Ans)) : List Str := tr.flatMap (returnedBy i)

theorem returned_snoc (i : ℕ) (tr : List (Call × Ans)) (x : Call × Ans) :
    returned i (tr ++ [x]) = returned i tr ++ returnedBy i x := by
  simp [returned]

theorem returnedBy_other {i : ℕ} {c : Call} (hne : ∀ count, c ≠ .readDir i count) (a : Ans) :
    returnedBy i (c, a) = [] := by
  unfold returnedBy
  split
  · rename_i j count entries err heq
    obtain ⟨rfl, -⟩ := Prod.mk.inj heq
    exact if_neg fun hj : j = i => hne count (by rw [hj])
  · rfl

/-- Handle `i` on `d`, with what it has returned: the first names of the list. -/
structure Iterating (i : ℕ) (d : NodeId) (tr : List (Call × Ans)) (w : World) (f : File) :
    Prop where
  file : w.files[i]? = some f
  node : f.node = d
  le : f.dirPos ≤ (w.heap.names d).length
  front : returned i tr = (w.heap.names d).take f.dirPos

section

variable {w w' : World} {i : ℕ} {d : NodeId} {f : File} {tr : List (Call × Ans)} {a : Ans}

theorem take_names {h h' : Heap} {p : ℕ} (hp : p ≤ (h.names d).length)
    (hafter : ∀ k ∈ h.changedNames h' d, ∀ k' ∈ (h.names d).take p, k' < k) :
    (h'.names d).take p = (h.names d).take p := by
  have hlen : ((h.names d).take p).length = p := by rw [List.length_take]; omega
  have hsorted := h.names_sorted d
  have hpart : ∀ x ∈ (h.names d).take p, ∀ y ∈ (h.names d).drop p, x < y := by
    rw [← List.take_append_drop p (h.names d)] at hsorted
    exact (List.pairwise_append.mp hsorted).2.2
  -- a name that has come or gone is behind all of them
  have hmem : ∀ k, (k ∈ h.names d ↔ k ∈ h'.names d) ∨ ∀ k' ∈ (h.names d).take p, k' < k := by
    intro k
    by_cases hk : k ∈ h.changedNames h' d
    · exact Or.inr (hafter k hk)
    · rw [Heap.mem_changedNames, ne_eq, not_not] at hk
      rw [Heap.mem_names, Heap.mem_names, ne_none_iff_isSome, ne_none_iff_isSome, hk]
      exact Or.inl Iff.rfl
  have htake := @take_of_agree _ (· < ·) List.lt_irrefl (fun _ _ _ => List.lt_trans) _ _
    (hsorted.sublist (List.take_sublist p _)) (h'.names_sorted d)
    (fun k hk => ?_) (fun k hk => ?_)
  · rwa [hlen] at htake
  · rcases hmem k with h1 | h1
    · exact h1.mp (List.mem_of_mem_take hk)
    · exact absurd (h1 k hk) (List.lt_irrefl k)
  · rcases hmem k with h1 | h1
    · have hkl : k ∈ (h.names d).take p ++ (h.names d).drop p := by
        rw [List.take_append_drop]
        exact h1.mpr hk
      rcases List.mem_append.mp hkl with hkl | hkl
      · exact Or.inl hkl
      · exact Or.inr fun x hx => hpart x hx k hkl
    · exact Or.inr h1

/-- **One call of a run** keeps the returned names at the front. -/
theorem call_iteration (hit : Iterating i d tr w f) {c : Call} (hafter : AfterCursor i w c)
    (hc : w.call c = some (w', a)) : ∃ f', Iterating i d (tr ++ [(c, a)]) w' f' := by
  obtain ⟨hf, rfl, hle, hfront⟩ := hit
  obtain ⟨hcount, hnames⟩ := hafter f hf
  by_cases hread : ∃ count, c = .readDir i count
  · obtain ⟨count, rfl⟩ := hread
    obtain ⟨hpos, hfit⟩ := hcount rfl
    obtain ⟨p, infos, err, hr, hge, hle', hinfos, -⟩ := readDir_spec hpos hfit hle
    obtain ⟨rfl, rfl⟩ := Prod.mk.inj (Option.some.inj ((call_readDir hf hr).symm.trans hc))
    refine ⟨{ f with dirPos := p }, ?_, rfl, hle', ?_⟩
    · simp [setFile, (List.getElem?_eq_some_iff.mp hf).1]
    · rw [returned_snoc, hfront]
      show _ ++ (if i = i then infos.map FileInfo.name else []) = (w.heap.names f.node).take p
      rw [if_pos rfl, hinfos]
      conv_rhs => rw [← List.take_append_drop f.dirPos ((w.heap.names f.node).take p)]
      rw [List.take_take, min_eq_left hge]
  · have hne : ∀ count, c ≠ .readDir i count := fun count h1 => hread ⟨count, h1⟩
    obtain ⟨f', hf', hnode, hdir⟩ := call_cursor hf hc hne
    have htake := take_names hle (hnames (w', a) hc)
    refine ⟨f', hf', hnode, ?_, ?_⟩
    · have hlen := congrArg List.length htake
      rw [List.length_take, List.length_take] at hlen
      dsimp only at hlen
      omega
    · rw [returned_snoc, returnedBy_other hne, List.append_nil, hfront, hdir]
      exact htake.symm

/-- **Directory iteration**, along all runs in which names come and go only behind the index: every
name is returned, and none twice. -/
theorem iteration_stable {w0 : World} (hf : w0.files[i]? = some f) (hpos : f.dirPos = 0)
    (hr : (worldSystem.restrict (AfterCursor i)).Run w0 tr w) :
    (returned i tr).Nodup ∧
    ∀ count w', (worldSystem.restrict (AfterCursor i)).step w (.readDir i count) =
        some (w', .dir [] (some .eof)) →
      ∀ k, w.heap.entry f.node k ≠ none → (returned i tr).count k = 1 := by
  have hit : ∃ f', Iterating i f.node tr w f' := by
    refine hr.history (P := fun tr w => ∃ f', Iterating i f.node tr w f') ?_ ?_
    · rintro tr w c w' a ⟨f', hit⟩ hstep
      obtain ⟨hafter, hstep⟩ := System.restrict_step.mp hstep
      exact call_iteration hit hafter hstep
    · exact ⟨f, hf, rfl, by omega, by rw [hpos]; rfl⟩
  obtain ⟨f', hit⟩ := hit
  have hnodup : (returned i tr).Nodup := by
    rw [hit.front]
    exact (w.heap.names_nodup f.node).sublist (List.take_sublist _ _)
  refine ⟨hnodup, fun count w' hstep k hk => ?_⟩
  obtain ⟨hafter, hstep⟩ := System.restrict_step.mp hstep
  obtain ⟨hc, hfit⟩ := (hafter f' hit.file).1 rfl
  have hle := hit.le
  rw [← hit.node] at hle
  obtain ⟨p, infos, err, hread, -, -, -, hend⟩ := readDir_spec hc hfit hle
  have hcall := (call_readDir hit.file hread).symm.trans hstep
  obtain ⟨-, hans⟩ := Prod.mk.inj (Option.some.inj hcall)
  obtain ⟨-, rfl⟩ := Ans.dir.inj hans
  have hlen := hend rfl
  rw [hit.node] at hlen
  refine List.count_eq_one_of_mem hnodup ?_
  rw [hit.front, hlen, List.take_length]
  exact Heap.mem_names.mpr hk

end

/-- A root with the files `a` and `b`, and its handle. -/
def World.twoFiles : World :=
  ((worldSystem.exec .empty [.new 0, .openPath 0 [46] 0, .openAt 0 [98] createFlags 0 0,
    .openAt 0 [97] createFlags 0 0]).map Prod.fst).getD .empty

theorem reachable_twoFiles : worldSystem.Reachable .twoFiles :=
  @System.reachable_of_exec _ _ _ worldSystem .empty _ [.new 0, .openPath 0 [46] 0,
    .openAt 0 [98] createFlags 0 0, .openAt 0 [97] createFlags 0 0] _ rfl rfl

/-- The root's handle, after `p` names. -/
def rootCursor (p : ℕ) : File := ⟨⟨0⟩, 0, GoPath.dot, O_RDONLY, 0, p⟩

theorem names_twoFiles : twoFiles.heap.names 0 = [[97], [98]] :=
  Heap.names_eq (by decide) (by decide)

theorem readDir_twoFiles : worldSystem.step .twoFiles (.readDir 0 1) =
    some (twoFiles.setFile 0 (rootCursor 1), .dir [⟨[97], 0, 0o600, 0⟩] none) := by
  have hnames : twoFiles.heap.names (rootCursor 0).node = [[97], [98]] := names_twoFiles
  have hread : (rootCursor 0).readDir twoFiles.heap 1 =
      (rootCursor 1, some ([⟨[97], 0, 0o600, 0⟩], none)) := by
    rw [readDir_dir rfl (by decide) (by decide), hnames]
    rfl
  exact call_readDir (i := 0) rfl hread

/-- One of the files is removed after `a` has been returned. -/
def World.oneFile (k : Str) : World :=
  ((twoFiles.setFile 0 (rootCursor 1)).result
    ((rootCursor 1).unlinkAt twoFiles.heap k 0)).1

theorem readDir_end {w : World} {k : Str} (hf : w.files[0]? = some (rootCursor 1))
    (hd : w.heap.isDir 0 = true) (hk : (w.heap.node 0).entries.keys = [k]) :
    worldSystem.step w (.readDir 0 1) =
      some (w.setFile 0 (rootCursor 1), .dir [] (some .eof)) := by
  have hnames : w.heap.names (rootCursor 1).node = [k] :=
    Heap.names_eq (List.pairwise_singleton _ k) (hk ▸ List.Perm.refl [k])
  refine call_readDir hf ?_
  rw [readDir_dir hd (by decide) (by decide), hnames]
  rfl

theorem afterCursor_readDir {w : World} {i : ℕ} {f : File} {count : ℤ}
    (hf : w.files[i]? = some f) (hc : 0 < count) (hfit : f.dirPos + count < 2 ^ 63) :
    AfterCursor i w (.readDir i count) := by
  intro g hg
  obtain rfl := Option.some.inj (hf.symm.trans hg)
  refine ⟨fun _ => ⟨hc, hfit⟩, fun r hr k hk => ?_⟩
  obtain ⟨f', -, rfl⟩ := map_eq_some_iff.mp hr
  exact absurd rfl (Heap.mem_changedNames.mp hk)

/-- `b` is removed after `a` has been returned. -/
theorem iteration_stable_unlink : ∃ tr w w', worldSystem.Reachable .twoFiles ∧
    (worldSystem.restrict (AfterCursor 0)).Run .twoFiles tr w ∧
    (worldSystem.restrict (AfterCursor 0)).step w (.readDir 0 1) =
      some (w', .dir [] (some .eof)) ∧
    w.heap.entry 0 [98] = none ∧ (returned 0 tr).count [97] = 1 := by
  have h1 : (worldSystem.restrict (AfterCursor 0)).step .twoFiles (.readDir 0 1) = _ :=
    System.restrict_step.mpr
      ⟨afterCursor_readDir (f := rootCursor 0) rfl (by decide) (by decide), readDir_twoFiles⟩
  have hafter : AfterCursor 0 (twoFiles.setFile 0 (rootCursor 1)) (.unlinkAt 0 [98] 0) := by
    intro f hf
    obtain rfl := Option.some.inj hf
    refine ⟨trivial, fun r hr k hk k' hk' => ?_⟩
    obtain rfl := Option.some.inj hr
    have hk1 : k ∈ [([98] : Str)] := hk
    have hk2 : k' ∈ (twoFiles.heap.names 0).take 1 := hk'
    rw [names_twoFiles] at hk2
    rw [List.mem_singleton.mp hk1, List.mem_singleton.mp hk2]
    decide
  have h2 : (worldSystem.restrict (AfterCursor 0)).step _ (.unlinkAt 0 [98] 0) =
      some (.oneFile [98], .done) :=
    System.restrict_step.mpr ⟨hafter, rfl⟩
  have h3 : (worldSystem.restrict (AfterCursor 0)).step (.oneFile [98]) (.readDir 0 1) = _ :=
    System.restrict_step.mpr
      ⟨afterCursor_readDir (f := rootCursor 1) rfl (by decide) (by decide),
        readDir_end (k := [97]) rfl rfl rfl⟩
  have hrun := (System.Run.nil.snoc h1).snoc h2
  refine ⟨_, _, _, reachable_twoFiles, hrun, h3, rfl, ?_⟩
  exact (iteration_stable (f := rootCursor 0) rfl rfl hrun).2 1 _ h3 [97] (by decide)

/-- `a` is removed after it has been returned: `b` takes its index, and is never returned. -/
theorem entry_skipped : ∃ w1 w2 w3 infos, worldSystem.Reachable .twoFiles ∧
    worldSystem.step .twoFiles (.readDir 0 1) = some (w1, .dir infos none) ∧
    infos.map FileInfo.name = [[97]] ∧
    worldSystem.step w1 (.unlinkAt 0 [97] 0) = some (w2, .done) ∧
    worldSystem.step w2 (.readDir 0 1) = some (w3, .dir [] (some .eof)) ∧
    ∀ w ∈ [twoFiles, w1, w2, w3], w.heap.entry 0 [98] = some 1 := by
  have h2 : worldSystem.step (twoFiles.setFile 0 (rootCursor 1)) (.unlinkAt 0 [97] 0) =
    some (.oneFile [97], .done) := rfl
  have h3 : worldSystem.step (.oneFile [97]) (.readDir 0 1) = _ :=
    readDir_end (k := [98]) rfl rfl rfl
  refine ⟨_, _, _, _, reachable_twoFiles, readDir_twoFiles, rfl, h2, h3, ?_⟩
  simp only [List.forall_mem_cons]
  exact ⟨rfl, rfl, rfl, rfl, nofun⟩

end PgZero.Memfs
