import PgZero.Kernel.FdKinds
import PgZero.Kernel.ShmTable

/-!
# Counting attachments and open files

`ShmInv` adds to the invariant of the table that its counts are right: `attached` is the number of
attachments in all processes, `fds` the number of open files whose `release` has not run, and every
page that shows a segment lies in an attachment of it.
-/

set_option autoImplicit false

namespace PgZero.Kernel

open Function Lib

namespace ShmState

/-- The segments that process `p` has attached. -/
def attachedBy (x : ShmProc) : List ℕ := x.shmAttached.map Attachment.s

/-- The number of attachments of segment `o`, in all processes. -/
def attachments (s : ShmState) (o : ℕ) : ℕ :=
  ∑ p ∈ Finset.range s.fd.nprocs, (attachedBy (s.procs p)).count o

/-- The open file has a descriptor, or its `release` has still to run. -/
def Live (s : ShmState) (f : ℕ) : Prop :=
  (s.fd.files f).releases = 0 ∨ ∃ p < s.fd.nprocs, f ∈ (s.procs p).releasing

instance (s : ShmState) : DecidablePred s.Live := fun _ => inferInstanceAs (Decidable (_ ∨ _))

/-- The live open files for segment `o`. -/
def liveFiles (s : ShmState) (o : ℕ) : Finset ℕ :=
  (Finset.range s.fd.nfiles).filter fun f => (s.fd.files f).f = .shmFile o ∧ s.Live f

end ShmState

/-- The page lies in the attachment. -/
def Attachment.Covers (a : Attachment) (i : ℕ) : Prop :=
  a.addr ≤ i * PageSize ∧ (i + 1) * PageSize ≤ a.addr + a.len

/-- The counts are those of the attachments and the descriptors. -/
structure ShmInv (s : ShmState) : Prop where
  fd : FdInv s.fd 0 s.fd.npipes s.fd
  table : TableInv s.t
  returned : ∀ id, s.returned id = true →
    ∃ o < s.t.nobjs, id = BitVec.ofNat 32 (o + 1) ∧ ∀ n, s.t.names n ≠ some o
  attached : ∀ o, (s.t.objs o).attached = s.attachments o
  fds : ∀ o, (s.t.objs o).fds = (s.liveFiles o).card
  unborn : ∀ p, s.fd.nprocs ≤ p → (s.procs p).shmAttached = [] ∧ (s.procs p).releasing = []
  pages : ∀ p i o, (s.procs p).detached = false → (s.procs p).mem.pages i = some o →
    ∃ a ∈ (s.procs p).shmAttached, a.s = o ∧ a.Covers i
  releasing : ∀ p, ∀ f ∈ (s.procs p).releasing,
    f < s.fd.nfiles ∧ (s.fd.files f).f.isShm = true ∧ (s.fd.files f).releases ≠ 0
  nodup : ∀ p, (s.procs p).releasing.Nodup
  disjoint : ∀ p q f, f ∈ (s.procs p).releasing → f ∈ (s.procs q).releasing → p = q

variable {s : ShmState} {t : ShmTable} {p o : ℕ}

/-! ### Sections of the table -/

theorem ShmInv.retable (h : ShmInv s) (ht : TableInv t) (hatt : ∀ i,
      (t.objs i).attached = (s.t.objs i).attached) (hfds : ∀ i, (t.objs i).fds = (s.t.objs i).fds)
    (hnobjs : s.t.nobjs ≤ t.nobjs)
    (hnames : ∀ n i, t.names n = some i → s.t.names n = some i ∨ s.t.nobjs ≤ i) :
    ShmInv { s with t } := by
  refine ⟨h.fd, ht, fun id hid => ?_, fun i => (hatt i).trans (h.attached i),
    fun i => (hfds i).trans (h.fds i), h.unborn, h.pages, h.releasing, h.nodup, h.disjoint⟩
  obtain ⟨i, hi, he, hn⟩ := h.returned id hid
  refine ⟨i, hi.trans_le hnobjs, he, fun n hni => ?_⟩
  rcases hnames n i hni with hold | hge
  · exact hn n hold
  · omega

theorem ShmInv.create (h : ShmInv s) (hn : 0 < s.t.next.toInt) (size : ℕ) :
    ShmInv { s with
      t := s.t.newSegment [] (some size)
      returned := update s.returned s.t.next true } := by
  have hb := succ_lt_of_next_pos h.table.next h.table.bound hn
  have hobj : ∀ i, ((s.t.newSegment [] (some size)).objs i).attached = (s.t.objs i).attached ∧
      ((s.t.newSegment [] (some size)).objs i).fds = (s.t.objs i).fds := by
    intro i
    unfold ShmTable.newSegment
    by_cases hi : i = s.t.nobjs
    · subst hi
      obtain ⟨-, h1, h2⟩ := h.table.rest s.t.nobjs le_rfl
      simp [h1, h2]
    · simp [hi]
  have h1 : ShmInv { s with t := s.t.newSegment [] (some size) } :=
    h.retable (h.table.newSegment hn [] _) (fun i => (hobj i).1) (fun i => (hobj i).2)
      (Nat.le_succ _) fun n i hi => .inl hi
  refine { h1 with returned := fun id hid => ?_ }
  have hid' : update s.returned s.t.next true id = true := hid
  rw [update_apply] at hid'
  split at hid'
  · rename_i he
    refine ⟨s.t.nobjs, Nat.lt_succ_self _, he.trans h.table.next, fun n hni => ?_⟩
    exact absurd (h.table.names n _ hni).1 (lt_irrefl _)
  · exact h1.returned id hid'

theorem ShmInv.anonymous (h : ShmInv s) {id : BitVec 32} (hid : s.returned id = true)
    (ho : s.t.segs id = some o) (n : List UInt8) : s.t.names n ≠ some o := by
  obtain ⟨i, hi, he, hn⟩ := h.returned id hid
  obtain ⟨hlt, hido⟩ := h.table.segs id o ho
  have hb := h.table.bound
  rw [h.table.ids o hlt, he] at hido
  obtain rfl : o = i := ofNat_succ_inj (by omega) (by omega) hido
  exact hn n

theorem Segment.unused_of_not_removed {x : Segment} (h : x.removed = false) : x.unused = false := by
  simp [Segment.unused, h]

theorem markRemoved_counts (t : ShmTable) (o i : ℕ) :
    (((t.setObj o { t.objs o with removed := true }).maybeFree o).objs i).attached =
        (t.objs i).attached ∧
      (((t.setObj o { t.objs o with removed := true }).maybeFree o).objs i).fds =
        (t.objs i).fds := by
  obtain ⟨seg, hg⟩ := maybeFree_obj (t.setObj o { t.objs o with removed := true }) o i
  rw [hg]
  unfold ShmTable.setObj
  by_cases hi : i = o
  · subst hi
    simp
  · simp [hi]

theorem ShmInv.remove (h : ShmInv s) {id : BitVec 32} (hid : s.returned id = true) :
    ShmInv { s with t := (s.t.remove id).1 } := by
  unfold ShmTable.remove
  cases ho : s.t.segs id with
  | none => exact h
  | some o =>
    dsimp only
    cases hr : (s.t.objs o).removed with
    | true => exact h
    | false =>
      obtain ⟨hlt, -⟩ := h.table.segs id o ho
      obtain ⟨hnobjs, hnames, -⟩ := maybeFree_rest
        (s.t.setObj o { s.t.objs o with removed := true }) o
      have hcount := markRemoved_counts s.t o
      refine h.retable (h.table.touch hlt (Segment.unused_of_not_removed hr) rfl rfl
        fun _ => h.anonymous hid ho) (fun i => (hcount i).1) (fun i => (hcount i).2) hnobjs.ge ?_
      intro n i hi
      rw [if_neg (by simp), hnames] at hi
      exact .inl hi

theorem ShmInv.unlink (h : ShmInv s) (name : List UInt8) :
    ShmInv { s with t := (s.t.unlink name).1 } := by
  unfold ShmTable.unlink
  cases ho : s.t.names name with
  | none => exact h
  | some o =>
    obtain ⟨hlt, hr, hname⟩ := h.table.names name o ho
    have hold : ∀ n i, update s.t.names name none n = some i →
        n ≠ name ∧ s.t.names n = some i := by
      intro n i hi
      rw [update_apply] at hi
      split at hi
      · cases hi
      · exact ⟨‹_›, hi⟩
    have hun : TableInv { s.t with names := update s.t.names name none } :=
      ⟨h.table.setName (by simp), h.table.frees, h.table.rest,
        fun n i hi => h.table.named n i (hold n i hi).2, h.table.bound⟩
    obtain ⟨hnobjs, hnames, -⟩ := maybeFree_rest
      (({ s.t with names := update s.t.names name none } : ShmTable).setObj o
        { s.t.objs o with removed := true }) o
    have hcount := markRemoved_counts { s.t with names := update s.t.names name none } o
    refine h.retable (hun.touch hlt (Segment.unused_of_not_removed hr) rfl rfl ?_)
      (fun i => (hcount i).1) (fun i => (hcount i).2) hnobjs.ge ?_
    · intro _ n hn
      obtain ⟨hne, hno⟩ := hold n o hn
      exact hne ((h.table.names n o hno).2.2.symm.trans hname)
    · intro n i hi
      rw [hnames] at hi
      exact .inl (hold n i hi).2

theorem ShmInv.truncate (h : ShmInv s) (ho : o < s.t.nobjs) (size : BitVec 32) (ok : Bool) :
    ShmInv { s with t := (s.t.truncate o size ok).1 } := by
  unfold ShmTable.truncate
  split
  · split <;> exact h
  · split
    · exact h
    · split
      · exact h
      · refine h.retable (h.table.setObj ho rfl rfl rfl rfl) (fun i => ?_) (fun i => ?_) le_rfl
          fun n i hi => .inl hi
        all_goals
          unfold ShmTable.setObj
          by_cases hi : i = o
          · subst hi
            simp
          · simp [hi]

/-! ### Open files -/

theorem ShmInv.fds_pos (h : ShmInv s) {f : ℕ} (hf : f < s.fd.nfiles)
    (hk : (s.fd.files f).f = .shmFile o) (hl : s.Live f) : 0 < (s.t.objs o).fds := by
  have hmem : f ∈ s.liveFiles o := Finset.mem_filter.mpr ⟨Finset.mem_range.mpr hf, hk, hl⟩
  rw [h.fds o]
  exact_mod_cast Finset.card_pos.mpr ⟨f, hmem⟩

theorem ShmInv.shmFD (h : ShmInv s) (hp : p < s.fd.nprocs) {fd : ℤ} (ho : s.shmFD p fd = .ok o) :
    o < s.t.nobjs ∧ 0 < (s.t.objs o).fds := by
  unfold ShmState.shmFD at ho
  split at ho
  · cases ho
  · rename_i f hget
    split at ho
    · rename_i i hk
      cases ho
      obtain ⟨hf, hrefs⟩ := h.fd.addOpen hp hget
      have hrel : (s.fd.files f).releases = 0 := by
        rw [h.fd.rel f hf, if_neg hrefs.ne']
      have hpos := h.fds_pos hf hk (.inl hrel)
      exact ⟨(h.table.in_use (.inr hpos.ne')).1, hpos⟩
    · cases ho

theorem TableInv.lookupName {t' : ShmTable} (h : TableInv t) {name : List UInt8}
    {flags : BitVec 32} (hn : t.names name = none → flags &&& O_CREAT ≠ 0 → 0 < t.next.toInt)
    (hl : t.lookupName name flags = .ok (t', o)) :
    TableInv t' ∧ o < t'.nobjs ∧ (t'.objs o).removed = false ∧ t.nobjs ≤ t'.nobjs ∧
      (∀ i, (t'.objs i).attached = (t.objs i).attached ∧ (t'.objs i).fds = (t.objs i).fds) ∧
      ∀ n i, t'.names n = some i → t.names n = some i ∨ t.nobjs ≤ i := by
  unfold ShmTable.lookupName at hl
  cases hname : t.names name with
  | some i =>
    rw [hname] at hl
    dsimp only at hl
    split at hl
    · cases hl
    · cases hl
      obtain ⟨hlt, hr, -⟩ := h.names name o hname
      exact ⟨h, hlt, hr, le_rfl, fun _ => ⟨rfl, rfl⟩, fun _ _ hi => .inl hi⟩
  | none =>
    rw [hname] at hl
    dsimp only at hl
    split at hl
    · cases hl
    · rename_i hc
      cases hl
      have h1 := h.newSegment (hn hname hc) name none
      have hnew : (t.newSegment name none).objs t.nobjs = ⟨t.next, name, none, 0, 0, false⟩ :=
        update_self ..
      refine ⟨⟨h1.setName fun i hi => Option.some.inj hi ▸ Nat.lt_succ_self _, h1.frees, h1.rest,
        fun n i hi => ?_, h1.bound⟩, Nat.lt_succ_self _, ?_, Nat.le_succ _, ?_, ?_⟩
      · have hi' : update t.names name (some t.nobjs) n = some i := hi
        rw [update_apply] at hi'
        split at hi'
        · rename_i he
          cases hi'
          rw [hnew]
          exact ⟨rfl, he.symm⟩
        · exact h1.named n i hi'
      · show ((t.newSegment name none).objs t.nobjs).removed = false
        rw [hnew]
      · intro i
        show ((t.newSegment name none).objs i).attached = _ ∧
          ((t.newSegment name none).objs i).fds = _
        by_cases hi : i = t.nobjs
        · subst hi
          obtain ⟨-, h2, h3⟩ := h.rest t.nobjs le_rfl
          rw [hnew, h2, h3]
          exact ⟨rfl, rfl⟩
        · have hold : (t.newSegment name none).objs i = t.objs i := update_of_ne hi _ _
          rw [hold]
          exact ⟨rfl, rfl⟩
      · intro n i hi
        have hi' : update t.names name (some t.nobjs) n = some i := hi
        rw [update_apply] at hi'
        split at hi'
        · cases hi'
          exact .inr le_rfl
        · exact .inl hi'

/-- The state after a new open file for segment `o` is added. -/
def ShmState.addShm (s : ShmState) (p o : ℕ) : ShmState :=
  { s with
    t := s.t.setObj o { s.t.objs o with fds := (s.t.objs o).fds + 1 }
    fd := ((s.fd.newOpenFile (.shmFile o) false).add p s.fd.nfiles false).1 }

theorem addShm_files (s : ShmState) (p o : ℕ) : (s.addShm p o).fd.files =
    update s.fd.files s.fd.nfiles ⟨.shmFile o, false, 1, 0⟩ :=
  openFile_files s.fd (.shmFile o) false

theorem addShm_liveFiles (s : ShmState) (p o i : ℕ) : (s.addShm p o).liveFiles i =
    if i = o then insert s.fd.nfiles (s.liveFiles i) else s.liveFiles i := by
  have hold : ∀ f < s.fd.nfiles, (s.addShm p o).fd.files f = s.fd.files f := fun f hf => by
    rw [addShm_files, update_of_ne (ne_of_lt hf)]
  have hnew : (s.addShm p o).fd.files s.fd.nfiles = ⟨.shmFile o, false, 1, 0⟩ := by
    rw [addShm_files, update_self]
  have hlive : ∀ f < s.fd.nfiles, (s.addShm p o).Live f ↔ s.Live f := fun f hf => by
    unfold ShmState.Live
    rw [hold f hf]
    exact Iff.rfl
  have hnewlive : (s.addShm p o).Live s.fd.nfiles := by
    left
    rw [hnew]
  have hmem : ∀ f, f ∈ (s.addShm p o).liveFiles i ↔
      f ∈ s.liveFiles i ∨ f = s.fd.nfiles ∧ i = o := by
    intro f
    unfold ShmState.liveFiles
    rw [Finset.mem_filter, Finset.mem_filter, Finset.mem_range, Finset.mem_range]
    show f < s.fd.nfiles + 1 ∧ _ ↔ _
    by_cases hf : f = s.fd.nfiles
    · subst hf
      rw [hnew]
      constructor
      · rintro ⟨-, hk, -⟩
        exact .inr ⟨rfl, (FileRef.shmFile.inj hk).symm⟩
      · rintro (⟨hlt, -⟩ | ⟨-, rfl⟩)
        · exact absurd hlt (lt_irrefl _)
        · exact ⟨Nat.lt_succ_self _, rfl, hnewlive⟩
    · constructor
      · rintro ⟨hlt, hk, hl⟩
        have hf' : f < s.fd.nfiles := by omega
        rw [hold f hf'] at hk
        exact .inl ⟨hf', hk, (hlive f hf').mp hl⟩
      · rintro (⟨hlt, hk, hl⟩ | ⟨he, -⟩)
        · rw [hold f hlt]
          exact ⟨Nat.lt_succ_of_lt hlt, hk, (hlive f hlt).mpr hl⟩
        · exact absurd he hf
  ext f
  rw [hmem]
  split
  · rename_i hi
    simp [hi, or_comm]
  · rename_i hi
    simp [hi]

theorem ShmInv.addShm (h : ShmInv s) (hp : p < s.fd.nprocs) (ho : o < s.t.nobjs)
    (hr : (s.t.objs o).removed = false) : ShmInv (s.addShm p o) := by
  have hpos : 0 ≤ (s.t.objs o).fds := by
    rw [h.fds o]
    exact Int.natCast_nonneg _
  have hfd := h.fd.addNew hp (.shmFile o) false (fun i hi => by cases hi) false
  have hfiles := addShm_files s p o
  have hobj : ∀ {β : Type} (g : Segment → β), g { s.t.objs o with fds := (s.t.objs o).fds + 1 } =
      g (s.t.objs o) → ∀ i, g ((s.addShm p o).t.objs i) = g (s.t.objs i) := by
    intro β g hg i
    show g (update s.t.objs o _ i) = _
    by_cases hi : i = o
    · subst hi
      rw [update_self, hg]
    · rw [update_of_ne hi]
  refine ⟨hfd.rebase, h.table.opened ho (Segment.unused_of_not_removed hr) hpos, h.returned,
    fun i => (hobj Segment.attached rfl i).trans (h.attached i), fun i => ?_, h.unborn, h.pages,
    fun q f hf => ?_, h.nodup, h.disjoint⟩
  · rw [addShm_liveFiles]
    show (update s.t.objs o _ i).fds = _
    by_cases hi : i = o
    · subst hi
      have hnot : s.fd.nfiles ∉ s.liveFiles i := fun hm =>
        absurd (Finset.mem_range.mp (Finset.mem_filter.mp hm).1) (lt_irrefl _)
      rw [update_self, if_pos rfl, Finset.card_insert_of_notMem hnot]
      dsimp only
      rw [h.fds i]
      push_cast
      rfl
    · rw [update_of_ne hi, if_neg hi]
      exact h.fds i
  · obtain ⟨hlt, hk, hrel⟩ := h.releasing q f hf
    rw [hfiles, update_of_ne (ne_of_lt hlt)]
    exact ⟨Nat.lt_succ_of_lt hlt, hk, hrel⟩

theorem ShmInv.openShm (h : ShmInv s) (hp : p < s.fd.nprocs) {name : List UInt8}
    {flags : BitVec 32}
    (hn : s.t.names name = none → flags &&& O_CREAT ≠ 0 → 0 < s.t.next.toInt) :
    ShmInv (s.openShm p name flags).1 := by
  unfold ShmState.openShm
  cases hl : s.t.lookupName name flags with
  | error e => exact h
  | ok r =>
    obtain ⟨t', o⟩ := r
    obtain ⟨ht, ho, hr, hnobjs, hcount, hnames⟩ := h.table.lookupName hn hl
    have h1 : ShmInv { s with t := t' } :=
      h.retable ht (fun i => (hcount i).1) (fun i => (hcount i).2) hnobjs hnames
    exact h1.addShm hp ho hr

end PgZero.Kernel
