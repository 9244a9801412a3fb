import PgZero.Kernel.FdTable
import PgZero.Lib.Word

/-!
# Reference counts

`s.held o` is the number of descriptors, in the tables of all processes, that refer to the open
file `o`. Inside a table operation the count `refs` runs ahead of it: `FdInv b d m s` states the
invariant with a surplus `d o` of references to `o` that no table holds.

* **`fd_refs`**: reference counting and pipe hang-up, in every run.
-/

set_option autoImplicit false

namespace PgZero.Kernel

open Function Lib Table Option

/-- The number of descriptors of `t` that refer to `o`. -/
def holds (o : ℕ) (t : FdTable) : ℕ := count (fun e => e.of == o) t

/-- The number of descriptors, in all tables, that refer to `o`. -/
def FdState.held (s : FdState) (o : ℕ) : ℕ := ∑ p ∈ Finset.range s.nprocs, holds o (s.tables p)

/-- The pipe behind a file, if it is a pipe end. -/
def FileRef.pipe? : FileRef → Option ℕ
  | .pipeReader i | .pipeWriter i => some i
  | _ => none

/-- The users of a pipe end, as its pipe counts them. -/
def FdState.users (s : FdState) : FileRef → ℤ
  | .pipeReader i => (s.pipes i).readers
  | .pipeWriter i => (s.pipes i).writers
  | _ => 1

/-- From `b` to `s` open files are only added, and `release` only runs more often. -/
structure Kept (b s : FdState) : Prop where
  nfiles : b.nfiles ≤ s.nfiles
  releases : ∀ o, o < b.nfiles → (b.files o).releases ≤ (s.files o).releases

/-- The invariant, with a surplus of `d o` references to each open file `o`, and with both ends
made of the first `m` pipes, in the middle of a call that started in `b`. -/
structure FdInv (b : FdState) (d : ℕ → ℤ) (m : ℕ) (s : FdState) : Prop where
  bal : ∀ o, (s.files o).refs = s.held o + d o
  dzero : ∀ o, s.nfiles ≤ o → d o = 0
  valid : ∀ p fd e, (s.tables p).lookup fd = some e → e.of < s.nfiles
  unborn : ∀ p, s.nprocs ≤ p → s.tables p = ∅
  alive : ∀ p, s.running p = true → p < s.nprocs
  rel : ∀ o, o < s.nfiles → (s.files o).releases = if (s.files o).refs = 0 then 1 else 0
  ends : ∀ o, o < s.nfiles → ∀ i, (s.files o).f.pipe? = some i →
    i < s.npipes ∧ s.users (s.files o).f = 1 - (s.files o).releases
  unique : ∀ o o', o < s.nfiles → o' < s.nfiles → (s.files o).f.pipe?.isSome →
    (s.files o).f = (s.files o').f → o = o'
  made : ∀ i, i < m → ∀ g : FileRef, g.pipe? = some i → ∃ o, o < s.nfiles ∧ (s.files o).f = g
  kept : Kept b s

/-- The surplus `d` with `k` more for `o`. -/
def bump (d : ℕ → ℤ) (o : ℕ) (k : ℤ) : ℕ → ℤ := fun x => d x + if x = o then k else 0

variable {b s : FdState} {d : ℕ → ℤ} {m : ℕ}

/-! ### Counting -/

theorem holds_pos_iff {o : ℕ} {t : FdTable} :
    0 < holds o t ↔ ∃ fd e, t.lookup fd = some e ∧ e.of = o := by
  unfold holds
  rw [count_pos_iff]
  simp

theorem held_pos_iff {o : ℕ} :
    0 < s.held o ↔ ∃ p < s.nprocs, ∃ fd e, (s.tables p).lookup fd = some e ∧ e.of = o := by
  unfold FdState.held
  rw [Finset.sum_pos_iff]
  simp only [Finset.mem_range, holds_pos_iff]

theorem held_setTable (s : FdState) {p : ℕ} (hp : p < s.nprocs) (t : FdTable) (o : ℕ) :
    (s.setTable p t).held o + holds o (s.tables p) = s.held o + holds o t :=
  sum_range_update (holds o) s.tables hp t

theorem holds_eq_zero {n o : ℕ} {t : FdTable} (hv : ∀ fd e, t.lookup fd = some e → e.of < n)
    (ho : n ≤ o) : holds o t = 0 := by
  by_contra h
  obtain ⟨fd, e, hl, rfl⟩ := holds_pos_iff.mp (Nat.pos_of_ne_zero h)
  exact absurd (hv fd e hl) (by omega)

theorem FdInv.held_eq_zero (h : FdInv b d m s) {o : ℕ} (ho : s.nfiles ≤ o) :
    s.held o = 0 :=
  Finset.sum_eq_zero fun p _ => holds_eq_zero (h.valid p) ho

theorem FdInv.congr {d' : ℕ → ℤ} (h : FdInv b d m s) (hd : ∀ o, d' o = d o) :
    FdInv b d' m s := by
  have : d' = d := funext hd
  rwa [this]

/-! ### The parts of an operation -/

theorem FdInv.setTable {d' : ℕ → ℤ} (h : FdInv b d m s) {p : ℕ} (hp : p < s.nprocs)
    {t : FdTable} (hv : ∀ fd e, t.lookup fd = some e → e.of < s.nfiles)
    (hd : ∀ o, d' o + holds o t = d o + holds o (s.tables p)) : FdInv b d' m (s.setTable p t) := by
  refine ⟨fun o => ?_, fun o ho => ?_, fun q fd e hq => ?_, fun q hq => ?_, h.alive, h.rel, h.ends,
    h.unique, h.made, ⟨h.kept.nfiles, h.kept.releases⟩⟩
  · have h1 := h.bal o
    have h2 := held_setTable s hp t o
    have h3 := hd o
    show (s.files o).refs = _
    omega
  · have h1 := hd o
    rw [holds_eq_zero hv ho, holds_eq_zero (h.valid p) ho, h.dzero o ho] at h1
    simpa using h1
  · by_cases hqp : q = p
    · subst hqp
      exact hv fd e (by simpa [FdState.setTable] using hq)
    · exact h.valid q fd e (by simpa [FdState.setTable, hqp] using hq)
  · have hqp : q ≠ p := fun he => by subst he; exact absurd hp (not_lt.mpr hq)
    simpa [FdState.setTable, hqp] using h.unborn q hq

theorem ref_f (s : FdState) (o x : ℕ) : ((s.ref o).files x).f = (s.files x).f := by
  unfold FdState.ref FdState.setFile
  by_cases hx : x = o
  · subst hx; simp
  · simp [hx]

theorem ref_releases (s : FdState) (o x : ℕ) :
    ((s.ref o).files x).releases = (s.files x).releases := by
  unfold FdState.ref FdState.setFile
  by_cases hx : x = o
  · subst hx; simp
  · simp [hx]

theorem ref_refs (s : FdState) (o x : ℕ) :
    ((s.ref o).files x).refs = (s.files x).refs + if x = o then 1 else 0 := by
  unfold FdState.ref FdState.setFile
  by_cases hx : x = o
  · subst hx; simp
  · simp [hx]

/-- The processes, their tables and the numbers of files and pipes are the same. -/
structure SameTables (s s' : FdState) : Prop where
  nfiles : s'.nfiles = s.nfiles
  npipes : s'.npipes = s.npipes
  tables : s'.tables = s.tables
  running : s'.running = s.running
  nprocs : s'.nprocs = s.nprocs

/-- A change of the counts of open files. -/
theorem FdInv.counts {s' : FdState} {d' : ℕ → ℤ} (h : FdInv b d m s) (hs : SameTables s s')
    (hf : ∀ x, (s'.files x).f = (s.files x).f)
    (hbal : ∀ x, (s'.files x).refs - (s.files x).refs = d' x - d x)
    (hnew : ∀ x, s.nfiles ≤ x → d' x = d x)
    (hrel : ∀ x < s.nfiles, (s'.files x).releases = if (s'.files x).refs = 0 then 1 else 0)
    (hle : ∀ x, (s.files x).releases ≤ (s'.files x).releases)
    (hends : ∀ x < s.nfiles, ∀ i, (s.files x).f.pipe? = some i →
      s'.users (s.files x).f = 1 - (s'.files x).releases) : FdInv b d' m s' := by
  obtain ⟨hnf, hnp, ht, hrun, hn⟩ := hs
  have hheld : s'.held = s.held := by
    funext x
    unfold FdState.held
    rw [ht, hn]
  refine ⟨fun x => ?_, fun x hx => ?_, ?_, ?_, ?_, fun x hx => hrel x (hnf ▸ hx),
    fun x hx i hi => ?_, fun x y hx hy hi hxy => ?_, fun i hi g hg => ?_,
    h.kept.nfiles.trans hnf.ge, fun x hx => (h.kept.releases x hx).trans (hle x)⟩
  · have h1 := h.bal x
    have h2 := hbal x
    rw [hheld]
    omega
  · rw [hnf] at hx
    rw [hnew x hx]
    exact h.dzero x hx
  · rw [hnf, ht]
    exact h.valid
  · rw [hn, ht]
    exact h.unborn
  · rw [hrun, hn]
    exact h.alive
  · rw [hnf] at hx
    rw [hf] at hi ⊢
    exact ⟨hnp ▸ (h.ends x hx i hi).1, hends x hx i hi⟩
  · rw [hnf] at hx hy
    rw [hf] at hi hxy
    rw [hf] at hxy
    exact h.unique x y hx hy hi hxy
  · obtain ⟨x, hx, hg'⟩ := h.made i hi g hg
    exact ⟨x, hnf ▸ hx, (hf x).trans hg'⟩

theorem bump_of_ne {o x : ℕ} {k : ℤ} (hx : x ≠ o) : bump d o k x = d x := by
  unfold bump
  rw [if_neg hx, add_zero]

theorem FdInv.ref (h : FdInv b d m s) {o : ℕ} (ho : o < s.nfiles)
    (hr : 0 < (s.files o).refs) : FdInv b (bump d o 1) m (s.ref o) := by
  refine h.counts ⟨rfl, rfl, rfl, rfl, rfl⟩ (ref_f s o) (fun x => ?_)
    (fun x hx => bump_of_ne (ho.trans_le hx).ne') (fun x hx => ?_)
    (fun x => (ref_releases s o x).ge) fun x hx i hi => ?_
  · rw [ref_refs, bump]
    ring
  · rw [ref_releases, ref_refs, h.rel x hx]
    by_cases hxo : x = o
    · subst hxo
      rw [if_pos rfl, if_neg (by omega), if_neg (by omega)]
    · rw [if_neg hxo, add_zero]
  · rw [ref_releases]
    exact (h.ends x hx i hi).2

/-! `unref` runs the file's `release` exactly when it drops the last reference. -/

theorem release_refs (s : FdState) (o x : ℕ) :
    ((s.release o).files x).refs = (s.files x).refs ∧ ((s.release o).files x).f = (s.files x).f ∧
      ((s.release o).files x).releases = (s.files x).releases + if x = o then 1 else 0 := by
  have hx : (s.release o).files = update s.files o
      { s.files o with releases := (s.files o).releases + 1 } := by
    unfold FdState.release
    cases (s.files o).f <;> rfl
  rw [hx]
  by_cases hxo : x = o
  · subst hxo; simp
  · simp [hxo]

theorem users_release (s : FdState) (o : ℕ) (g : FileRef) :
    (s.release o).users g =
      s.users g - if g.pipe?.isSome ∧ g = (s.files o).f then 1 else 0 := by
  have hpipe : ∀ i j (x : Pipe), (update s.pipes i x) j =
      if j = i then x else s.pipes j := fun i j x => update_apply s.pipes i x j
  unfold FdState.release
  cases hf : (s.files o).f <;> cases g <;>
    simp only [FdState.users, FdState.setPipe, FdState.setFile, FileRef.pipe?, hpipe, reduceCtorEq,
      FileRef.pipeReader.injEq, FileRef.pipeWriter.injEq, isSome_some, isSome_none,
      true_and, false_and, and_false, if_false, sub_zero, Bool.false_eq_true]
  all_goals split_ifs with hij <;> simp [PipeReader.release, PipeWriter.release, hij]

/-- `unref` without the `release`. -/
def FdState.drop (s : FdState) (o : ℕ) : FdState :=
  s.setFile o { s.files o with refs := (s.files o).refs - 1 }

theorem unref_eq (s : FdState) (o : ℕ) :
    s.unref o = if (s.files o).refs = 1 then (s.drop o).release o else s.drop o := by
  unfold FdState.unref FdState.drop
  simp [FdState.setFile, sub_eq_zero]

theorem release_rest (s : FdState) (o : ℕ) : SameTables s ((s.drop o).release o) := by
  unfold FdState.release
  cases ((s.drop o).files o).f <;> exact ⟨rfl, rfl, rfl, rfl, rfl⟩

theorem unref_rest (s : FdState) (o : ℕ) : SameTables s (s.unref o) := by
  rw [unref_eq]
  split_ifs
  · exact release_rest s o
  · exact ⟨rfl, rfl, rfl, rfl, rfl⟩

theorem drop_refs (s : FdState) (o x : ℕ) :
    ((s.drop o).files x).refs = (s.files x).refs - (if x = o then 1 else 0) ∧
      ((s.drop o).files x).f = (s.files x).f ∧
      ((s.drop o).files x).releases = (s.files x).releases := by
  unfold FdState.drop FdState.setFile
  by_cases hx : x = o
  · subst hx; simp
  · simp [hx]

theorem FdInv.lt_of_surplus (h : FdInv b d m s) {o : ℕ} (hd : 1 ≤ d o) : o < s.nfiles := by
  by_contra hn
  rw [h.dzero o (not_lt.mp hn)] at hd
  omega

theorem FdInv.drop (h : FdInv b d m s) {o : ℕ} (hd : 1 ≤ d o)
    (hr : (s.files o).refs ≠ 1) : FdInv b (bump d o (-1)) m (s.drop o) := by
  have ho := h.lt_of_surplus hd
  have hb := h.bal o
  refine h.counts ⟨rfl, rfl, rfl, rfl, rfl⟩ (fun x => (drop_refs s o x).2.1) (fun x => ?_)
    (fun x hx => bump_of_ne (ho.trans_le hx).ne') (fun x hx => ?_)
    (fun x => (drop_refs s o x).2.2.ge) fun x hx i hi => ?_
  · rw [(drop_refs s o x).1, bump]
    split_ifs <;> omega
  · rw [(drop_refs s o x).2.2, (drop_refs s o x).1, h.rel x hx]
    by_cases hxo : x = o
    · subst hxo
      rw [if_pos rfl, if_neg (by omega), if_neg (by omega)]
    · rw [if_neg hxo, sub_zero]
  · rw [(drop_refs s o x).2.2]
    exact (h.ends x hx i hi).2

theorem FdInv.dropLast (h : FdInv b d m s) {o : ℕ} (hd : 1 ≤ d o)
    (hr : (s.files o).refs = 1) : FdInv b (bump d o (-1)) m ((s.drop o).release o) := by
  have ho := h.lt_of_surplus hd
  have hrefs : ∀ x, (((s.drop o).release o).files x).refs =
      (s.files x).refs - if x = o then 1 else 0 := fun x =>
    (release_refs _ o x).1.trans (drop_refs s o x).1
  have hrel : ∀ x, (((s.drop o).release o).files x).releases =
      (s.files x).releases + if x = o then 1 else 0 := fun x => by
    rw [(release_refs _ o x).2.2, (drop_refs s o x).2.2]
  refine h.counts (release_rest s o)
    (fun x => (release_refs _ o x).2.1.trans (drop_refs s o x).2.1) (fun x => ?_)
    (fun x hx => bump_of_ne (ho.trans_le hx).ne') (fun x hx => ?_) (fun x => ?_) fun x hx i hi => ?_
  · rw [hrefs, bump]
    split_ifs <;> omega
  · rw [hrel, hrefs, h.rel x hx]
    by_cases hxo : x = o
    · subst hxo
      rw [if_pos rfl, if_pos rfl, hr]
      rfl
    · rw [if_neg hxo, if_neg hxo, sub_zero, add_zero]
  · rw [hrel]
    exact Nat.le_add_right _ _
  · rw [hrel, users_release, (drop_refs s o o).2.1]
    show s.users (s.files x).f - _ = _
    rw [(h.ends x hx i hi).2, hi]
    by_cases hxo : x = o
    · subst hxo
      simp only [isSome_some, and_self, if_true]
      push_cast
      ring
    · have hne : (s.files x).f ≠ (s.files o).f := fun he =>
        hxo (h.unique x o hx ho (by rw [hi]; rfl) he)
      simp [hxo, hne]

theorem FdInv.unref (h : FdInv b d m s) {o : ℕ} (hd : 1 ≤ d o) :
    FdInv b (bump d o (-1)) m (s.unref o) := by
  rw [unref_eq]
  split_ifs with hr
  · exact h.dropLast hd hr
  · exact h.drop hd hr

/-! A new open file is referred to at once, by the descriptor it is made for. -/

theorem openFile_files (s : FdState) (g : FileRef) (nonblock : Bool) :
    ((s.newOpenFile g nonblock).ref s.nfiles).files =
      update s.files s.nfiles ⟨g, nonblock, 1, 0⟩ := by
  unfold FdState.ref FdState.newOpenFile FdState.setFile
  simp

theorem FdInv.openFile (h : FdInv b d m s) (g : FileRef) (nonblock : Bool)
    (hg : ∀ i, g.pipe? = some i →
      i < s.npipes ∧ s.users g = 1 ∧ ∀ o < s.nfiles, (s.files o).f ≠ g) :
    FdInv b (bump d s.nfiles 1) m ((s.newOpenFile g nonblock).ref s.nfiles) := by
  have hold : ∀ x, x < s.nfiles →
      ((s.newOpenFile g nonblock).ref s.nfiles).files x = s.files x := fun x hx => by
    rw [openFile_files, update_of_ne (ne_of_lt hx)]
  have hnew : ((s.newOpenFile g nonblock).ref s.nfiles).files s.nfiles = ⟨g, nonblock, 1, 0⟩ := by
    rw [openFile_files, update_self]
  refine ⟨fun x => ?_, fun x hx => ?_, fun q fd e hq => ?_, h.unborn, h.alive, fun x hx => ?_,
    fun x hx i hi => ?_, fun x y hx hy hi hxy => ?_, fun i hi f hf => ?_,
    h.kept.nfiles.trans (Nat.le_succ _), fun x hx => ?_⟩
  · show _ = (s.held x : ℤ) + (d x + _)
    by_cases hx : x = s.nfiles
    · subst hx
      rw [hnew, h.held_eq_zero le_rfl, h.dzero _ le_rfl]
      simp
    · rw [openFile_files, update_of_ne hx, if_neg hx, add_zero]
      exact h.bal x
  · have hx' : s.nfiles < x := hx
    unfold bump
    rw [if_neg (by omega), add_zero]
    exact h.dzero x hx'.le
  · have hv : e.of < s.nfiles := h.valid q fd e hq
    exact hv.trans (Nat.lt_succ_self _)
  · rcases Nat.lt_succ_iff_lt_or_eq.mp hx with hlt | rfl
    · rw [hold x hlt]
      exact h.rel x hlt
    · rw [hnew]
      rfl
  · rcases Nat.lt_succ_iff_lt_or_eq.mp hx with hlt | rfl
    · rw [hold x hlt] at hi ⊢
      exact h.ends x hlt i hi
    · rw [hnew] at hi ⊢
      obtain ⟨h1, h2, -⟩ := hg i hi
      exact ⟨h1, h2⟩
  · -- the new file is the only one for its pipe end
    rcases Nat.lt_succ_iff_lt_or_eq.mp hx with hlt | rfl <;>
      rcases Nat.lt_succ_iff_lt_or_eq.mp hy with hlt' | rfl
    · rw [hold x hlt] at hi hxy
      rw [hold y hlt'] at hxy
      exact h.unique x y hlt hlt' hi hxy
    · rw [hold x hlt] at hi hxy
      rw [hnew] at hxy
      rw [hxy] at hi
      obtain ⟨i, hi⟩ := isSome_iff_exists.mp hi
      exact absurd hxy ((hg i hi).2.2 x hlt)
    · rw [hnew] at hi hxy
      rw [hold y hlt'] at hxy
      obtain ⟨i, hi⟩ := isSome_iff_exists.mp hi
      exact absurd hxy.symm ((hg i hi).2.2 y hlt')
    · rfl
  · obtain ⟨x, hx, hf'⟩ := h.made i hi f hf
    refine ⟨x, hx.trans (Nat.lt_succ_self _), ?_⟩
    rw [hold x hx]
    exact hf'
  · rw [hold x (hx.trans_le h.kept.nfiles)]
    exact h.kept.releases x hx

/-! ### Table operations -/

theorem holds_insert (x : ℕ) (t : FdTable) (fd : ℤ) (e : FdEntry) :
    holds x (t.insert fd e) + countAt (fun e => e.of == x) t fd =
      holds x t + if x = e.of then 1 else 0 := by
  have h := count_insert (fun e => e.of == x) t fd e
  simp only [beq_iff_eq, eq_comm (b := x)] at h
  exact h

theorem countAt_some (x : ℕ) {t : FdTable} {fd : ℤ} {e : FdEntry} (h : t.lookup fd = some e) :
    countAt (fun e => e.of == x) t fd = if x = e.of then 1 else 0 := by
  rw [countAt, h]
  simp only [beq_iff_eq, eq_comm (b := x)]

theorem lookup_insert_valid {n : ℕ} {t : FdTable} (hv : ∀ fd e, t.lookup fd = some e → e.of < n)
    {fd : ℤ} {e : FdEntry} (he : e.of < n) :
    ∀ fd' e', (t.insert fd e).lookup fd' = some e' → e'.of < n := by
  intro fd' e' h
  by_cases hfd : fd' = fd
  · subst hfd
    rw [AList.lookup_insert] at h
    rwa [← Option.some.inj h]
  · rw [AList.lookup_insert_ne hfd] at h
    exact hv fd' e' h

theorem FdInv.insertFree {o : ℕ} (h : FdInv b (bump d o 1) m s) {p : ℕ} (hp : p < s.nprocs)
    (ho : o < s.nfiles) {fd : ℤ} (hfd : (s.tables p).lookup fd = none) (cloexec : Bool) :
    FdInv b d m (s.setTable p ((s.tables p).insert fd ⟨o, cloexec⟩)) := by
  refine h.setTable hp (lookup_insert_valid (h.valid p) ho) fun x => ?_
  have h1 := holds_insert x (s.tables p) fd ⟨o, cloexec⟩
  rw [countAt_eq_zero hfd] at h1
  unfold bump
  dsimp only at h1
  split_ifs at h1 ⊢ <;> omega

theorem bump_bump_neg (d : ℕ → ℤ) (o : ℕ) : bump (bump d o 1) o (-1) = d := by
  funext x
  unfold bump
  split_ifs <;> omega

/-- A surplus reference to `o` becomes a descriptor, in the place of what was there. -/
theorem FdInv.insert {o : ℕ} (h : FdInv b (bump 0 o 1) m s) {p : ℕ} (hp : p < s.nprocs)
    (ho : o < s.nfiles) (fd : ℤ) (cloexec : Bool) :
    FdInv b 0 m (match (s.tables p).lookup fd with
      | some old => (s.setTable p ((s.tables p).insert fd ⟨o, cloexec⟩)).unref old.of
      | none => s.setTable p ((s.tables p).insert fd ⟨o, cloexec⟩)) := by
  cases hfd : (s.tables p).lookup fd with
  | none => exact h.insertFree hp ho hfd cloexec
  | some old =>
    have h1 : FdInv b (bump 0 old.of 1) m (s.setTable p ((s.tables p).insert fd ⟨o, cloexec⟩)) := by
      refine h.setTable hp (lookup_insert_valid (h.valid p) ho) fun x => ?_
      have h2 := holds_insert x (s.tables p) fd ⟨o, cloexec⟩
      rw [countAt_some x hfd] at h2
      unfold bump
      dsimp only at h2
      split_ifs at h2 ⊢ <;> omega
    have h2 := h1.unref (o := old.of) (by simp [bump])
    rwa [bump_bump_neg] at h2

theorem FdInv.refs_pos (h : FdInv b 0 m s) {p : ℕ} (hp : p < s.nprocs) {fd : ℤ} {e : FdEntry}
    (he : (s.tables p).lookup fd = some e) : 0 < (s.files e.of).refs := by
  rw [h.bal]
  have := held_pos_iff.mpr ⟨p, hp, fd, e, he, rfl⟩
  show 0 < (s.held e.of : ℤ) + 0
  omega

theorem FdInv.install (h : FdInv b 0 m s) {p : ℕ} (hp : p < s.nprocs) {o : ℕ} (ho : o < s.nfiles)
    (hr : 0 < (s.files o).refs) (fd : ℤ) (cloexec : Bool) :
    FdInv b 0 m (s.install p fd o cloexec) :=
  (h.ref ho hr).insert hp ho fd cloexec

theorem FdInv.installNew (h : FdInv b 0 m s) {p : ℕ} (hp : p < s.nprocs) (g : FileRef)
    (nonblock : Bool) (hg : g.pipe? = none) (fd : ℤ) (cloexec : Bool) :
    FdInv b 0 m ((s.newOpenFile g nonblock).install p fd s.nfiles cloexec) :=
  (h.openFile g nonblock (by simp [hg])).insert hp (Nat.lt_succ_self _) fd cloexec

theorem install_rest (s : FdState) (p : ℕ) (fd : ℤ) (o : ℕ) (cloexec : Bool) :
    (s.install p fd o cloexec).nprocs = s.nprocs ∧ (s.install p fd o cloexec).npipes = s.npipes := by
  unfold FdState.install
  cases (s.tables p).lookup fd with
  | none => exact ⟨rfl, rfl⟩
  | some old =>
    obtain ⟨-, hnp, -, -, hn⟩ :=
      unref_rest ((s.ref o).setTable p ((s.tables p).insert fd ⟨o, cloexec⟩)) old.of
    exact ⟨hn, hnp⟩

theorem freeFrom_taken (t : FdTable) (k : ℕ) (fd : ℤ)
    (h : (t.lookup (FdState.freeFrom t k fd)).isSome) :
    ∀ j ≤ k, (t.lookup (fd + j)).isSome := by
  have h0 : fd + ((0 : ℕ) : ℤ) = fd := by simp
  induction k generalizing fd with
  | zero =>
    intro j hj
    obtain rfl := Nat.le_zero.mp hj
    rw [h0]
    exact h
  | succ k ih =>
    by_cases hfd : (t.lookup fd).isSome
    · rw [FdState.freeFrom, if_pos hfd] at h
      intro j hj
      cases j with
      | zero =>
        rw [h0]
        exact hfd
      | succ j =>
        have h1 := ih (fd + 1) h (by simp) j (by omega)
        have h2 : fd + ((j + 1 : ℕ) : ℤ) = fd + 1 + j := by push_cast; ring
        rw [h2]
        exact h1
    · rw [FdState.freeFrom, if_neg hfd] at h
      exact absurd h hfd

/-- The search for a free descriptor finds one: there are more numbers than entries. -/
theorem freeFd_free (t : FdTable) : t.lookup (FdState.freeFd t) = none := by
  by_contra hne
  have h := freeFrom_taken t t.entries.length FDBase (isSome_iff_ne_none.mpr hne)
  have hsub : (Finset.range (t.entries.length + 1)).image (fun j : ℕ => FDBase + (j : ℤ)) ⊆
      t.keys.toFinset := by
    intro fd hfd
    obtain ⟨j, hj, rfl⟩ := Finset.mem_image.mp hfd
    rw [List.mem_toFinset]
    exact AList.lookup_isSome.mp (h j (by simpa [Nat.lt_succ_iff] using hj))
  have hinj : Injective (fun j : ℕ => FDBase + (j : ℤ)) := fun a b hab => by
    simpa using hab
  have h1 := Finset.card_le_card hsub
  rw [Finset.card_image_of_injective _ hinj, Finset.card_range] at h1
  have h2 := t.keys.toFinset_card_le
  have h3 : t.keys.length = t.entries.length := List.length_map _
  omega

theorem FdInv.add (h : FdInv b 0 m s) {p : ℕ} (hp : p < s.nprocs) {o : ℕ} (ho : o < s.nfiles)
    (hr : 0 < (s.files o).refs) (cloexec : Bool) : FdInv b 0 m (s.add p o cloexec).1 :=
  (h.ref ho hr).insertFree hp ho (freeFd_free _) cloexec

theorem FdInv.addNew (h : FdInv b 0 m s) {p : ℕ} (hp : p < s.nprocs) (g : FileRef) (nonblock : Bool)
    (hg : ∀ i, g.pipe? = some i →
      i < s.npipes ∧ s.users g = 1 ∧ ∀ o < s.nfiles, (s.files o).f ≠ g) (cloexec : Bool) :
    FdInv b 0 m ((s.newOpenFile g nonblock).add p s.nfiles cloexec).1 :=
  (h.openFile g nonblock hg).insertFree hp (Nat.lt_succ_self _) (freeFd_free _) cloexec

theorem addNew_f (s : FdState) (g : FileRef) (nonblock : Bool) (p : ℕ) (cloexec : Bool) (x : ℕ) :
    ((((s.newOpenFile g nonblock).add p s.nfiles cloexec).1).files x).f =
      if x = s.nfiles then g else (s.files x).f := by
  show (((s.newOpenFile g nonblock).ref s.nfiles).files x).f = _
  rw [openFile_files, update_apply]
  split_ifs <;> rfl

theorem FdInv.close (h : FdInv b 0 m s) {p : ℕ} (hp : p < s.nprocs) (fd : ℤ) :
    FdInv b 0 m (s.close p fd).1 := by
  unfold FdState.close
  cases hfd : (s.tables p).lookup fd with
  | none => exact h
  | some e =>
    have hv : ∀ fd' e', ((s.tables p).erase fd).lookup fd' = some e' → e'.of < s.nfiles := by
      intro fd' e' he
      by_cases hf : fd' = fd
      · subst hf
        rw [AList.lookup_erase] at he
        exact absurd he (by simp)
      · rw [AList.lookup_erase_ne hf] at he
        exact h.valid p fd' e' he
    have h1 : FdInv b (bump 0 e.of 1) m (s.setTable p ((s.tables p).erase fd)) := by
      refine h.setTable hp hv fun x => ?_
      have h2 : holds x ((s.tables p).erase fd) + _ = holds x (s.tables p) :=
        count_erase (fun e => e.of == x) (s.tables p) fd
      rw [countAt_some x hfd] at h2
      unfold bump
      show (0 : ℤ) + _ + _ = 0 + _
      split_ifs at h2 ⊢ <;> omega
    have h2 := h1.unref (o := e.of) (by simp [bump])
    rwa [bump_bump_neg] at h2

theorem close_rest (s : FdState) (p : ℕ) (fd : ℤ) :
    (s.close p fd).1.nprocs = s.nprocs ∧ (s.close p fd).1.npipes = s.npipes := by
  unfold FdState.close
  cases (s.tables p).lookup fd with
  | none => exact ⟨rfl, rfl⟩
  | some e =>
    obtain ⟨-, hnp, -, -, hn⟩ := unref_rest (s.setTable p ((s.tables p).erase fd)) e.of
    exact ⟨hn, hnp⟩

theorem FdInv.setCloexec (h : FdInv b 0 m s) {p : ℕ} (hp : p < s.nprocs) (fd : ℤ) (cloexec : Bool) :
    FdInv b 0 m (s.setCloexec p fd cloexec) := by
  unfold FdState.setCloexec
  cases hfd : (s.tables p).lookup fd with
  | none => exact h
  | some e =>
    refine h.setTable hp (lookup_insert_valid (h.valid p) (h.valid p fd e hfd)) fun x => ?_
    have h1 := holds_insert x (s.tables p) fd { e with cloexec }
    rw [countAt_some x hfd] at h1
    have h2 : holds x ((s.tables p).insert fd { e with cloexec }) = holds x (s.tables p) :=
      Nat.add_right_cancel h1
    rw [h2]

theorem setCloexec_npipes (s : FdState) (p : ℕ) (fd : ℤ) (cloexec : Bool) :
    (s.setCloexec p fd cloexec).npipes = s.npipes := by
  unfold FdState.setCloexec
  cases (s.tables p).lookup fd <;> rfl

/-! ### Whole tables -/

theorem FdInv.foldlRef (l : List ℕ) (h : FdInv b d m s)
    (hl : ∀ o ∈ l, o < s.nfiles ∧ 0 < (s.files o).refs) :
    FdInv b (fun o => d o + l.count o) m (l.foldl FdState.ref s) ∧
      (l.foldl FdState.ref s).tables = s.tables ∧ (l.foldl FdState.ref s).running = s.running ∧
      (l.foldl FdState.ref s).nprocs = s.nprocs ∧ (l.foldl FdState.ref s).npipes = s.npipes ∧
      (l.foldl FdState.ref s).nfiles = s.nfiles := by
  induction l generalizing d s with
  | nil => exact ⟨h.congr fun o => by simp, rfl, rfl, rfl, rfl, rfl⟩
  | cons x l ih =>
    obtain ⟨hx, hr⟩ := hl x List.mem_cons_self
    have hl' : ∀ o ∈ l, o < (s.ref x).nfiles ∧ 0 < ((s.ref x).files o).refs := fun o ho => by
      obtain ⟨h1, h2⟩ := hl o (List.mem_cons_of_mem _ ho)
      refine ⟨h1, ?_⟩
      rw [ref_refs]
      split_ifs <;> omega
    obtain ⟨h1, h2⟩ := ih (h.ref hx hr) hl'
    refine ⟨h1.congr fun o => ?_, h2⟩
    unfold bump
    rw [List.count_cons]
    by_cases ho : o = x
    · subst ho; simp; ring
    · simp [ho, Ne.symm ho]

theorem FdInv.foldlUnref (l : List ℕ) (h : FdInv b (fun o => (l.count o : ℤ)) m s) :
    FdInv b 0 m (l.foldl FdState.unref s) ∧ (l.foldl FdState.unref s).running = s.running ∧
      (l.foldl FdState.unref s).npipes = s.npipes := by
  induction l generalizing s with
  | nil => exact ⟨h.congr fun o => by simp, rfl, rfl⟩
  | cons x l ih =>
    obtain ⟨-, hnp, -, hr, -⟩ := unref_rest s x
    have h1 := ih ((h.unref (o := x) (by simp)).congr fun o => ?_)
    · rw [hr, hnp] at h1
      exact h1
    unfold bump
    dsimp only
    rw [List.count_cons]
    by_cases ho : o = x
    · subst ho; simp
    · simp [ho, Ne.symm ho]

theorem count_map_of (l : List (Σ _ : ℤ, FdEntry)) (o : ℕ) :
    (l.map fun e => e.2.of).count o = l.countP fun e => e.2.of == o := by
  rw [List.count, List.countP_map]
  rfl

theorem count_sortedFiles (t : FdTable) (o : ℕ) : (FdState.sortedFiles t).count o = holds o t := by
  unfold FdState.sortedFiles holds count
  rw [count_map_of]
  exact (List.perm_insertionSort _ _).countP_eq _

theorem FdInv.addProc (t : FdTable) (h : FdInv b (fun o => (holds o t : ℤ)) m s)
    (hv : ∀ fd e, t.lookup fd = some e → e.of < s.nfiles) :
    FdInv b 0 m (s.addProc t) := by
  have hne : ∀ q, q < s.nprocs → update s.tables s.nprocs t q = s.tables q := fun q hq =>
    update_of_ne (ne_of_lt hq) _ _
  refine ⟨fun o => ?_, fun _ _ => rfl, fun q fd e hq => ?_, fun q hq => ?_, fun q hq => ?_, h.rel,
    h.ends, h.unique, h.made, ⟨h.kept.nfiles, h.kept.releases⟩⟩
  · have hsum : ∑ q ∈ Finset.range s.nprocs, holds o (update s.tables s.nprocs t q) =
        s.held o := Finset.sum_congr rfl fun q hq => by rw [hne q (Finset.mem_range.mp hq)]
    have h1 : (∑ q ∈ Finset.range (s.nprocs + 1),
        holds o (update s.tables s.nprocs t q)) = s.held o + holds o t := by
      rw [Finset.sum_range_succ, hsum, update_self]
    show (s.files o).refs = ((∑ q ∈ Finset.range (s.nprocs + 1),
      holds o (update s.tables s.nprocs t q) : ℕ) : ℤ) + 0
    rw [h1, h.bal o]
    push_cast
    ring
  · have hq' : (update s.tables s.nprocs t q).lookup fd = some e := hq
    by_cases hqn : q = s.nprocs
    · subst hqn
      rw [update_self] at hq'
      exact hv fd e hq'
    · rw [update_of_ne hqn] at hq'
      exact h.valid q fd e hq'
  · have hq' : s.nprocs + 1 ≤ q := hq
    show update s.tables s.nprocs t q = ∅
    rw [update_of_ne (by omega)]
    exact h.unborn q (by omega)
  · show q < s.nprocs + 1
    by_cases hqn : q = s.nprocs
    · omega
    · have hq' : update s.running s.nprocs true q = true := hq
      rw [update_of_ne hqn] at hq'
      have := h.alive q hq'
      omega

theorem FdInv.spawn (h : FdInv b 0 m s) {p : ℕ} (hp : p < s.nprocs) :
    FdInv b 0 m (s.spawn p).1 ∧ (s.spawn p).1.npipes = s.npipes := by
  have hsel : ∀ fd e, ((s.tables p).select FdState.inherit).lookup fd = some e →
      ∃ e', (s.tables p).lookup fd = some e' ∧ e'.of = e.of := by
    intro fd e he
    rw [lookup_select, bind_eq_some_iff] at he
    obtain ⟨e', h1, h2⟩ := he
    refine ⟨e', h1, ?_⟩
    unfold FdState.inherit at h2
    split_ifs at h2
    rw [← Option.some.inj h2]
  have hl : ∀ o ∈ ((s.tables p).select FdState.inherit).entries.map fun e => e.2.of,
      o < s.nfiles ∧ 0 < (s.files o).refs := by
    intro o ho
    obtain ⟨⟨fd, e⟩, hm, rfl⟩ := List.mem_map.mp ho
    obtain ⟨e', h1, h2⟩ := hsel fd e (lookup_eq_some.mpr hm)
    dsimp only
    rw [← h2]
    exact ⟨h.valid p fd e' h1, h.refs_pos hp h1⟩
  obtain ⟨h1, ht, hr, hn, hnp, hnf⟩ := h.foldlRef _ hl
  have h2 := FdInv.addProc ((s.tables p).select FdState.inherit) (h1.congr fun o => by
    rw [count_map_of]
    exact (zero_add _).symm) (fun fd e he => by
      obtain ⟨e', h2, h3⟩ := hsel fd e he
      rw [hnf, ← h3]
      exact h.valid p fd e' h2)
  exact ⟨h2, hnp⟩

theorem FdInv.exit (h : FdInv b 0 m s) {p : ℕ} (hp : p < s.nprocs) :
    FdInv b 0 m (s.exit p).1 ∧ (s.exit p).1.npipes = s.npipes := by
  have h1 : FdInv b (fun o => ((FdState.sortedFiles (s.tables p)).count o : ℤ)) m
      (s.setTable p ∅) := by
    refine h.setTable hp (fun fd e he => ?_) fun o => ?_
    · rw [AList.lookup_empty] at he
      exact absurd he (by simp)
    · rw [count_sortedFiles]
      show (holds o (s.tables p) : ℤ) + ((0 : ℕ) : ℤ) = 0 + _
      omega
  obtain ⟨h2, hr, hnp⟩ := h1.foldlUnref
  refine ⟨⟨h2.bal, h2.dzero, h2.valid, h2.unborn, fun q hq => ?_, h2.rel, h2.ends, h2.unique,
    h2.made, ⟨h2.kept.nfiles, h2.kept.releases⟩⟩, hnp⟩
  have hq' : update s.running p false q = true := hq
  rw [update_apply] at hq'
  split_ifs at hq'
  exact h2.alive q ((congrFun hr q).trans hq')

/-! ### Calls -/

theorem FdInv.start (h : FdInv b 0 m s) :
    FdInv b 0 m s.start.1 ∧ s.start.1.npipes = s.npipes := by
  have h1 := FdInv.addProc (b := b) (m := m) (s := s) ∅ (h.congr fun o => rfl) (fun fd e he => by
    rw [AList.lookup_empty] at he
    exact absurd he (by simp))
  have hlt : s.nprocs < s.nprocs + 1 := Nat.lt_succ_self _
  have h2 := h1.installNew hlt .readerFile false rfl 0 false
  obtain ⟨hn2, hp2⟩ := install_rest ((s.addProc ∅).newOpenFile .readerFile false) s.nprocs 0
    (s.addProc ∅).nfiles false
  generalize hs2 : ((s.addProc ∅).newOpenFile .readerFile false).install s.nprocs 0
    (s.addProc ∅).nfiles false = s2 at h2 hn2 hp2
  have hlt2 : s.nprocs < s2.nprocs := by rw [hn2]; exact hlt
  have h3 := h2.installNew hlt2 .writerFile false rfl 1 false
  obtain ⟨hn3, hp3⟩ := install_rest (s2.newOpenFile .writerFile false) s.nprocs 1 s2.nfiles false
  generalize hs3 : (s2.newOpenFile .writerFile false).install s.nprocs 1 s2.nfiles false = s3
    at h3 hn3 hp3
  have hlt3 : s.nprocs < s3.nprocs := by rw [hn3]; exact hlt2
  have h4 := h3.installNew hlt3 .writerFile false rfl 2 false
  obtain ⟨-, hp4⟩ := install_rest (s3.newOpenFile .writerFile false) s.nprocs 2 s3.nfiles false
  unfold FdState.start
  dsimp only
  rw [hs2, hs3]
  exact ⟨h4, hp4.trans (hp3.trans hp2)⟩

theorem FdInv.addPipe (h : FdInv b 0 m s) : FdInv b 0 m s.addPipe := by
  refine ⟨h.bal, h.dzero, h.valid, h.unborn, h.alive, h.rel, fun o ho i hi => ?_, h.unique, h.made,
    ⟨h.kept.nfiles, h.kept.releases⟩⟩
  obtain ⟨h1, h2⟩ := h.ends o ho i hi
  refine ⟨Nat.lt_succ_of_lt h1, Eq.trans ?_ h2⟩
  have hne : s.addPipe.pipes i = s.pipes i := update_of_ne (ne_of_lt h1) _ _
  show s.addPipe.users (s.files o).f = s.users (s.files o).f
  have hi' : (s.files o).f.pipe? = some i := hi
  cases hf : (s.files o).f with
  | pipeReader j =>
    rw [hf] at hi'
    obtain rfl : j = i := Option.some.inj hi'
    exact congrArg Pipe.readers hne
  | pipeWriter j =>
    rw [hf] at hi'
    obtain rfl : j = i := Option.some.inj hi'
    exact congrArg Pipe.writers hne
  | _ => rfl

theorem FdInv.allMade (h : FdInv b d m s)
    (hm : ∀ g : FileRef, g.pipe? = some m → ∃ o, o < s.nfiles ∧ (s.files o).f = g) :
    FdInv b d (m + 1) s := by
  refine { h with made := fun i hi g hg => ?_ }
  rcases Nat.lt_succ_iff_lt_or_eq.mp hi with hlt | rfl
  · exact h.made i hlt g hg
  · exact hm g hg

theorem FdInv.pipe (h : FdInv b 0 s.npipes s) {p : ℕ} (hp : p < s.nprocs)
    (nonblock ok1 ok2 : Bool) :
    FdInv b 0 (s.npipes + 1) (s.pipe p nonblock ok1 ok2).1 ∧
      (s.pipe p nonblock ok1 ok2).1.npipes = s.npipes + 1 := by
  have hfree : ∀ o < s.nfiles, ∀ g : FileRef, g.pipe? = some s.npipes → (s.files o).f ≠ g := by
    intro o ho g hg hf
    have := (h.ends o ho s.npipes (hf ▸ hg)).1
    omega
  have hpipe : s.addPipe.pipes s.npipes = newPipe := update_self _ _ _
  -- the read end, then the write end, each at its own open file
  have h1 := h.addPipe.addNew hp (.pipeReader s.npipes) nonblock (fun i hi => by
    obtain rfl : s.npipes = i := Option.some.inj hi
    exact ⟨Nat.lt_succ_self _, congrArg Pipe.readers hpipe, fun o ho => hfree o ho _ rfl⟩) false
  have hf1 := addNew_f s.addPipe (.pipeReader s.npipes) nonblock p false
  generalize hs1 : ((s.addPipe.newOpenFile (.pipeReader s.npipes) nonblock).add p
    s.addPipe.nfiles false).1 = s1 at h1 hf1
  have hn1 : s1.nfiles = s.nfiles + 1 := by rw [← hs1]; rfl
  have hp1 : p < s1.nprocs := by rw [← hs1]; exact hp
  have h2 := h1.addNew hp1 (.pipeWriter s.npipes) nonblock (fun i hi => by
    obtain rfl : s.npipes = i := Option.some.inj hi
    refine ⟨by rw [← hs1]; exact Nat.lt_succ_self _, ?_, fun o ho => ?_⟩
    · rw [← hs1]
      exact congrArg Pipe.writers hpipe
    · rw [hf1 o]
      split_ifs with hon
      · exact FileRef.noConfusion
      · have hon' : o ≠ s.nfiles := hon
        exact hfree o (by omega) _ rfl) false
  have hf2 := addNew_f s1 (.pipeWriter s.npipes) nonblock p false
  have h3 := h2.allMade (fun g hg => by
    cases g with
    | pipeReader j =>
      obtain rfl : j = s.npipes := Option.some.inj hg
      refine ⟨s.nfiles, Nat.lt_succ_of_lt (by omega), ?_⟩
      rw [hf2, if_neg (by omega), hf1]
      exact if_pos rfl
    | pipeWriter j =>
      obtain rfl : j = s.npipes := Option.some.inj hg
      refine ⟨s1.nfiles, Nat.lt_succ_self _, ?_⟩
      rw [hf2, if_pos rfl]
    | readerFile | writerFile | nullFile | shmFile _ => exact absurd hg (by simp [FileRef.pipe?]))
  unfold FdState.pipe
  dsimp only
  rw [hs1]
  split_ifs
  · refine ⟨(h3.close hp1 _).close (by rw [(close_rest _ _ _).1]; exact hp1) _, ?_⟩
    rw [(close_rest _ _ _).2, (close_rest _ _ _).2, ← hs1]
    rfl
  · exact ⟨h3, by rw [← hs1]; rfl⟩

theorem FdInv.addOpen (h : FdInv b 0 m s) {p : ℕ} (hp : p < s.nprocs) {fd : ℤ} {o : ℕ}
    (ho : s.get p fd = some o) : o < s.nfiles ∧ 0 < (s.files o).refs := by
  obtain ⟨e, he, rfl⟩ := map_eq_some_iff.mp ho
  exact ⟨h.valid p fd e he, h.refs_pos hp he⟩

theorem FdInv.dup (h : FdInv b 0 m s) {p : ℕ} (hp : p < s.nprocs) (fd newFd : ℤ) :
    FdInv b 0 m (s.dup p fd newFd).1 ∧ (s.dup p fd newFd).1.npipes = s.npipes := by
  unfold FdState.dup
  cases ho : s.get p fd with
  | none => exact ⟨h, rfl⟩
  | some o =>
    obtain ⟨h1, h2⟩ := h.addOpen hp ho
    dsimp only
    split_ifs
    · exact ⟨h.add hp h1 h2 false, rfl⟩
    · exact ⟨h, rfl⟩
    · exact ⟨h.install hp h1 h2 newFd false, (install_rest _ _ _ _ _).2⟩
    · exact ⟨h, rfl⟩

theorem FdInv.setNonblock (h : FdInv b d m s) (o : ℕ) (nonblock : Bool) :
    FdInv b d m (s.setFile o { s.files o with nonblock }) := by
  have hx : ∀ x, ((s.setFile o { s.files o with nonblock }).files x).refs = (s.files x).refs ∧
      ((s.setFile o { s.files o with nonblock }).files x).f = (s.files x).f ∧
      ((s.setFile o { s.files o with nonblock }).files x).releases = (s.files x).releases := by
    intro x
    unfold FdState.setFile
    by_cases hxo : x = o
    · subst hxo; simp
    · simp [hxo]
  refine h.counts ⟨rfl, rfl, rfl, rfl, rfl⟩ (fun x => (hx x).2.1) (fun x => ?_) (fun _ _ => rfl)
    (fun x hlt => ?_) (fun x => (hx x).2.2.ge) fun x hlt i hi => ?_
  · rw [(hx x).1, sub_self, sub_self]
  · rw [(hx x).2.2, (hx x).1]
    exact h.rel x hlt
  · rw [(hx x).2.2]
    exact (h.ends x hlt i hi).2

theorem FdInv.fcntl (h : FdInv b 0 m s) {p : ℕ} (hp : p < s.nprocs) (fd : ℤ) (cmd arg : BitVec 32) :
    FdInv b 0 m (s.fcntl p fd cmd arg).1 ∧ (s.fcntl p fd cmd arg).1.npipes = s.npipes := by
  unfold FdState.fcntl
  cases ho : s.get p fd with
  | none => exact ⟨h, rfl⟩
  | some o =>
    obtain ⟨h1, h2⟩ := h.addOpen hp ho
    dsimp only
    by_cases hc1 : cmd = 1
    · rw [if_pos hc1]
      exact ⟨h, rfl⟩
    rw [if_neg hc1]
    by_cases hc2 : cmd = 2
    · rw [if_pos hc2]
      exact ⟨h.setCloexec hp fd _, setCloexec_npipes s p fd _⟩
    rw [if_neg hc2]
    by_cases hc3 : cmd = 3
    · rw [if_pos hc3]
      exact ⟨h, rfl⟩
    rw [if_neg hc3]
    by_cases hc4 : cmd = 4
    · rw [if_pos hc4]
      exact ⟨h.setNonblock o _, rfl⟩
    rw [if_neg hc4]
    by_cases hc5 : cmd = 5 ∨ cmd = 6
    · rw [if_pos hc5]
      exact ⟨h.add hp h1 h2 _, rfl⟩
    · rw [if_neg hc5]
      exact ⟨h, rfl⟩

theorem FdInv.setPipe (h : FdInv b d m s) (i : ℕ) {x : Pipe}
    (hr : x.readers = (s.pipes i).readers) (hw : x.writers = (s.pipes i).writers) :
    FdInv b d m (s.setPipe i x) := by
  have hu : ∀ g, (s.setPipe i x).users g = s.users g := by
    intro g
    unfold FdState.users FdState.setPipe
    cases g with
    | pipeReader j =>
      by_cases hj : j = i
      · subst hj; simp [hr]
      · simp [hj]
    | pipeWriter j =>
      by_cases hj : j = i
      · subst hj; simp [hw]
      · simp [hj]
    | _ => rfl
  refine ⟨h.bal, h.dzero, h.valid, h.unborn, h.alive, h.rel, fun o ho j hj => ?_, h.unique, h.made,
    h.kept.nfiles, h.kept.releases⟩
  rw [hu]
  exact h.ends o ho j hj

/-- At most one pipe is replaced, by one with the same users. -/
inductive Piped (s : FdState) : FdState → Prop
  | same : Piped s s
  | pipe {i : ℕ} {x : Pipe} (hr : x.readers = (s.pipes i).readers)
      (hw : x.writers = (s.pipes i).writers) : Piped s (s.setPipe i x)

theorem piped_of_read {p : ℕ} {fd : ℤ} {len : ℕ} {r : FdState × ℤ}
    (h : s.read p fd len = some r) : Piped s r.1 := by
  unfold FdState.read at h
  split at h
  · cases h
    exact .same
  · split at h
    all_goals cases h
    · exact .pipe (PipeReader.read_users _ len).1 (PipeReader.read_users _ len).2
    · exact .pipe rfl rfl
    · exact .same
    · exact .same

theorem piped_of_write {p : ℕ} {fd : ℤ} {bs : List UInt8} {r : FdState × ℤ}
    (h : s.write p fd bs = some r) : Piped s r.1 := by
  unfold FdState.write at h
  split at h
  · cases h
    exact .same
  · split at h
    all_goals cases h
    · exact .pipe rfl rfl
    · exact .pipe (PipeWriter.write_users _ bs).1 (PipeWriter.write_users _ bs).2
    · exact .same
    · exact .same

theorem FdInv.piped {s' : FdState} (h : FdInv b 0 m s) (hp : Piped s s') :
    FdInv b 0 m s' ∧ s'.npipes = s.npipes := by
  cases hp with
  | same => exact ⟨h, rfl⟩
  | pipe hr hw => exact ⟨h.setPipe _ hr hw, rfl⟩

/-! ### Runs -/

theorem FdInv.rebase (h : FdInv b d m s) : FdInv s d m s :=
  { h with kept := ⟨le_rfl, fun _ _ => le_rfl⟩ }

/-- **One call** keeps the counts right, and makes both ends of a pipe it makes. -/
theorem FdInv.step {s' : FdState} {c : FdCall} {a : ℤ} (h : FdInv s 0 s.npipes s)
    (hs : fdSystem.step s c = some (s', a)) : FdInv s 0 s'.npipes s' := by
  obtain ⟨hrun, hc⟩ := ite_none_right_eq_some.mp hs
  have hp : ∀ p, c.proc = some p → p < s.nprocs := fun p hp => h.alive p (by simpa [hp] using hrun)
  -- a call that makes no pipe
  have hsame : ∀ {r : FdState × ℤ}, FdInv s 0 s.npipes r.1 ∧ r.1.npipes = s.npipes →
      some r = some (s', a) → FdInv s 0 s'.npipes s' := by
    intro r hr he
    obtain rfl := Option.some.inj he
    have h1 := hr.1
    rwa [← hr.2] at h1
  cases c with
  | start => exact hsame h.start hc
  | pipe p nonblock ok1 ok2 =>
    obtain ⟨h1, h2⟩ := h.pipe (hp p rfl) nonblock ok1 ok2
    obtain rfl : (s.pipe p nonblock ok1 ok2).1 = s' := congrArg Prod.fst (Option.some.inj hc)
    rwa [← h2] at h1
  | devnull p =>
    exact hsame ⟨h.addNew (hp p rfl) .nullFile false (fun i hi => by cases hi) false, rfl⟩ hc
  | dup p fd newFd => exact hsame (h.dup (hp p rfl) fd newFd) hc
  | fcntl p fd cmd arg => exact hsame (h.fcntl (hp p rfl) fd cmd arg) hc
  | close p fd => exact hsame ⟨h.close (hp p rfl) fd, (close_rest s p fd).2⟩ hc
  | spawn p => exact hsame (h.spawn (hp p rfl)) hc
  | exit p => exact hsame (h.exit (hp p rfl)) hc
  | read p fd len => exact hsame (h.piped (piped_of_read hc)) rfl
  | write p fd bs => exact hsame (h.piped (piped_of_write hc)) rfl

theorem fdInv_reachable (h : fdSystem.Reachable s) : FdInv s 0 s.npipes s := by
  refine h.invariant (P := fun s => FdInv s 0 s.npipes s) (fun s hs => ?_)
    (fun s c s' a hi hs => (hi.step hs).rebase)
  obtain rfl : s = .empty := hs
  refine ⟨fun o => rfl, fun _ _ => rfl, fun p fd e he => ?_, fun _ _ => rfl, fun p hp => ?_,
    fun o ho => ?_, fun o ho => ?_, fun o _ ho => ?_, fun i hi => ?_, le_rfl, fun _ _ => le_rfl⟩
  · exact absurd he (by rw [show FdState.empty.tables p = ∅ from rfl, AList.lookup_empty]; simp)
  · exact absurd hp (by simp [FdState.empty])
  · exact absurd ho (Nat.not_lt_zero _)
  · exact absurd ho (Nat.not_lt_zero _)
  · exact absurd ho (Nat.not_lt_zero _)
  · exact absurd hi (Nat.not_lt_zero _)

/-! ### Pipe ends -/

/-- Some table holds a descriptor of `g`. -/
def FdState.Holds (s : FdState) (g : FileRef) : Prop :=
  ∃ p fd e, (s.tables p).lookup fd = some e ∧ (s.files e.of).f = g

theorem FdInv.lookup_lt (h : FdInv b d m s) {p : ℕ} {fd : ℤ} {e : FdEntry}
    (he : (s.tables p).lookup fd = some e) : p < s.nprocs := by
  by_contra hp
  rw [h.unborn p (not_lt.mp hp), AList.lookup_empty] at he
  exact absurd he (by simp)

theorem FdInv.refs_eq_held (h : FdInv b 0 m s) (o : ℕ) : (s.files o).refs = s.held o := by
  rw [h.bal o]
  exact add_zero _

theorem FdInv.releases_eq (h : FdInv b 0 m s) {o : ℕ} (ho : o < s.nfiles) :
    (s.files o).releases = if s.held o = 0 then 1 else 0 := by
  rw [h.rel o ho, h.refs_eq_held o]
  simp

theorem FdInv.users_eq_zero_iff (h : FdInv b 0 m s) {i : ℕ} (hi : i < m) {g : FileRef}
    (hg : g.pipe? = some i) : s.users g = 0 ↔ ¬ s.Holds g := by
  obtain ⟨o, ho, rfl⟩ := h.made i hi g hg
  have hheld : s.Holds (s.files o).f ↔ 0 < s.held o := by
    rw [held_pos_iff]
    constructor
    · rintro ⟨p, fd, e, he, hf⟩
      have hoe : o = e.of :=
        h.unique o e.of ho (h.valid p fd e he) (by rw [hg]; rfl) hf.symm
      exact ⟨p, h.lookup_lt he, fd, e, he, hoe.symm⟩
    · rintro ⟨p, -, fd, e, he, rfl⟩
      exact ⟨p, fd, e, he, rfl⟩
  rw [hheld, (h.ends o ho i hg).2, h.releases_eq ho]
  split_ifs with hz <;> simp <;> omega

/-- The number of descriptors in all tables. -/
def FdState.descriptors (s : FdState) : ℕ :=
  ∑ p ∈ Finset.range s.nprocs, (s.tables p).entries.length

theorem held_le_descriptors (s : FdState) (o : ℕ) : s.held o ≤ s.descriptors :=
  Finset.sum_le_sum fun _ _ => List.countP_le_length

theorem freeFrom_bounds (t : FdTable) (k : ℕ) (fd : ℤ) :
    fd ≤ FdState.freeFrom t k fd ∧ FdState.freeFrom t k fd ≤ fd + k := by
  induction k generalizing fd with
  | zero => simp [FdState.freeFrom]
  | succ k ih =>
    have hnext := ih (fd + 1)
    unfold FdState.freeFrom
    split_ifs <;> push_cast <;> omega

/-- **Machine words.** While fewer than `2 ^ 31 - 2 ^ 20` descriptors are open, counts and numbers
of descriptors are numbers of the source's `int32`. -/
theorem fd_words {s : FdState} (h : fdSystem.Reachable s) (hd : s.descriptors < 2 ^ 31 - 2 ^ 20) :
    (∀ o, wrap 32 (s.files o).refs = (s.files o).refs) ∧
    ∀ p < s.nprocs, wrap 32 (FdState.freeFd (s.tables p)) = FdState.freeFd (s.tables p) := by
  constructor
  · intro o
    rw [(fdInv_reachable h).refs_eq_held o]
    have hle := held_le_descriptors s o
    exact wrap32_eq (by omega) (by omega)
  · intro p hp
    have hlen : (s.tables p).entries.length ≤ s.descriptors :=
      Finset.single_le_sum (f := fun p => (s.tables p).entries.length) (fun _ _ => Nat.zero_le _)
        (Finset.mem_range.mpr hp)
    obtain ⟨h1, h2⟩ : FDBase ≤ FdState.freeFd (s.tables p) ∧
        FdState.freeFd (s.tables p) ≤ FDBase + (s.tables p).entries.length :=
      freeFrom_bounds _ _ FDBase
    have hbase : FDBase = 2 ^ 20 := rfl
    exact wrap32_eq (by omega) (by omega)

theorem PipeReader.poll_hup_iff (p : Pipe) : poll p &&& POLLHUP ≠ 0 ↔ p.writers = 0 := by
  unfold poll
  split_ifs with h1 h2 h2 <;> simp only [h2, iff_true, iff_false, not_not] <;> decide

theorem PipeWriter.poll_err_iff (p : Pipe) : poll p &&& POLLERR ≠ 0 ↔ p.readers = 0 := by
  unfold poll
  split_ifs with h1 h2 <;> simp only [h1, iff_true, iff_false, not_not] <;> decide

theorem PipeReader.read_eof_iff {p : Pipe} (hp : p.buf = []) {len : ℕ} (hl : 0 < len) :
    (read p len).ret = .ok [] ↔ p.writers = 0 := by
  rcases read_cases p len with ⟨h, -⟩ | ⟨-, h, -⟩ | ⟨-, -, hw, h⟩ | ⟨-, -, hw, h⟩
  · omega
  · exact absurd hp h
  · simp [h, hw]
  · simp [h, hw]

theorem PipeWriter.write_epipe_iff (p : Pipe) (bs : List UInt8) :
    (write p bs).ret = .error .EPIPE ↔ p.readers = 0 := by
  rcases write_cases p bs with ⟨hr, h⟩ | ⟨hr, -, h⟩ | ⟨hr, -, -, h⟩ | ⟨hr, -, -, -, h⟩ <;>
    simp [h, hr]

theorem foldlRef_nprocs (l : List ℕ) (s : FdState) :
    (l.foldl FdState.ref s).nprocs = s.nprocs := by
  induction l generalizing s with
  | nil => rfl
  | cons o l ih => exact ih (s.ref o)

/-- **A spawned child** holds the parent's entries that are not close-on-exec. -/
theorem spawn_lookup (s : FdState) (p : ℕ) (fd : ℤ) (e : FdEntry) :
    ((s.spawn p).1.tables s.nprocs).lookup fd = some e ↔
      (s.tables p).lookup fd = some e ∧ e.cloexec = false := by
  have ht : (s.spawn p).1.tables s.nprocs = (s.tables p).select FdState.inherit := by
    show update _ (List.foldl FdState.ref s _).nprocs _ s.nprocs = _
    rw [foldlRef_nprocs, update_self]
  rw [ht, lookup_select, bind_eq_some_iff]
  constructor
  · rintro ⟨e', he, hi⟩
    unfold FdState.inherit at hi
    split_ifs at hi with hc
    obtain rfl := Option.some.inj hi
    obtain ⟨of, cloexec⟩ := e'
    obtain rfl : cloexec = false := by simpa using hc
    exact ⟨he, rfl⟩
  · rintro ⟨he, hc⟩
    refine ⟨e, he, ?_⟩
    obtain ⟨of, cloexec⟩ := e
    obtain rfl : cloexec = false := hc
    rfl

/-- **Descriptor reference counts.** The count of an open file is the number of its descriptors, and
`release` runs once, with the last of them. -/
theorem fd_refs {s : FdState} (h : fdSystem.Reachable s) :
    (∀ o < s.nfiles, (s.files o).refs = s.held o ∧
      (s.files o).releases = if s.held o = 0 then 1 else 0) ∧
    (∀ c s' a, fdSystem.step s c = some (s', a) → ∀ o < s.nfiles, (s'.files o).releases =
      (s.files o).releases + if 0 < s.held o ∧ s'.held o = 0 then 1 else 0) ∧
    (∀ p s' a, fdSystem.step s (.spawn p) = some (s', a) → ∃ child : ℕ, a = child ∧
      s.nprocs ≤ child ∧ child < s'.nprocs ∧ ∀ fd e, (s'.tables child).lookup fd = some e ↔
        (s.tables p).lookup fd = some e ∧ e.cloexec = false) ∧
    ∀ i < s.npipes,
      (((s.pipes i).writers = 0 ↔ ¬ s.Holds (.pipeWriter i)) ∧
        (PipeReader.poll (s.pipes i) &&& POLLHUP ≠ 0 ↔ ¬ s.Holds (.pipeWriter i)) ∧
        ((s.pipes i).buf = [] → ∀ len, 0 < len →
          ((PipeReader.read (s.pipes i) len).ret = .ok [] ↔ ¬ s.Holds (.pipeWriter i)))) ∧
      (((s.pipes i).readers = 0 ↔ ¬ s.Holds (.pipeReader i)) ∧
        (PipeWriter.poll (s.pipes i) &&& POLLERR ≠ 0 ↔ ¬ s.Holds (.pipeReader i)) ∧
        ∀ bs, ((PipeWriter.write (s.pipes i) bs).ret = .error .EPIPE ↔
          ¬ s.Holds (.pipeReader i))) := by
  have hi := fdInv_reachable h
  refine ⟨fun o ho => ⟨hi.refs_eq_held o, hi.releases_eq ho⟩, fun c s' a hs o ho => ?_,
    fun p s' a hs => ?_, fun i hip => ?_⟩
  · -- `release` never runs back, so a file without descriptors gets none again
    have hi' := hi.step hs
    have hk := hi'.kept.releases o ho
    have hr' := hi'.releases_eq (ho.trans_le hi'.kept.nfiles)
    rw [hi.releases_eq ho] at hk ⊢
    rw [hr'] at hk ⊢
    split_ifs at hk ⊢ <;> omega
  · obtain ⟨-, hc⟩ := ite_none_right_eq_some.mp hs
    obtain ⟨rfl, rfl⟩ : (s.spawn p).1 = s' ∧ (s.spawn p).2 = a :=
      Prod.mk.inj (Option.some.inj hc)
    have hlt : s.nprocs < (s.spawn p).1.nprocs := by
      show s.nprocs < (List.foldl FdState.ref s _).nprocs + 1
      rw [foldlRef_nprocs]
      exact Nat.lt_succ_self _
    exact ⟨s.nprocs, rfl, le_rfl, hlt, spawn_lookup s p⟩
  · have hw : (s.pipes i).writers = 0 ↔ ¬ s.Holds (.pipeWriter i) :=
      hi.users_eq_zero_iff hip (g := .pipeWriter i) rfl
    have hr : (s.pipes i).readers = 0 ↔ ¬ s.Holds (.pipeReader i) :=
      hi.users_eq_zero_iff hip (g := .pipeReader i) rfl
    refine ⟨⟨hw, (PipeReader.poll_hup_iff _).trans hw, fun hb len hl => ?_⟩,
      ⟨hr, (PipeWriter.poll_err_iff _).trans hr, fun bs => ?_⟩⟩
    · exact (PipeReader.read_eof_iff hb hl).trans hw
    · exact (PipeWriter.write_epipe_iff _ bs).trans hr

/-- A child inherits both ends of a pipe and the parent closes its write end. -/
theorem fd_refs_inherited : ∃ s, fdSystem.Reachable s ∧ (s.pipes 0).writers = 1 ∧
    s.held 4 = 1 ∧ (s.files 4).refs = s.held 4 ∧ s.Holds (.pipeWriter 0) := by
  have hr := @System.reachable_of_exec _ _ _ fdSystem .empty _
    [.start, .pipe 0 false true true, .spawn 0, .close 0 (FDBase + 1)] _ rfl rfl
  have h := fd_refs hr
  have hw := (h.2.2.2 0 (by decide)).1.1
  refine ⟨_, hr, rfl, by decide, (h.1 4 (by decide)).1, ?_⟩
  by_contra hn
  exact absurd (hw.mpr hn) (by decide)

end PgZero.Kernel
