import PgZero.Kernel.ShmCount

/-!
# The accounts of shared memory

The steps that change the counts, and the runs.

* `ShmInv.remap`: a range of a process shows something else, and the attachments within it are
  forgotten; with it `attach`, `mapFd` and `unmap`.
* `ShmInv.fdCall`, `ShmInv.release`, `ShmInv.detachAll`: descriptors are closed, processes end.
* `IdsLeft`: a segment is made only while the next id is positive.
* **`shm_accounts`**: in the runs that meet it the counts are right and a segment is freed once,
  exactly when it is removed and unused.
-/

set_option autoImplicit false

namespace PgZero.Kernel

open Lib ShmState List Option

variable {length addr f q : ℕ} {ok : Bool}

variable {s s' : ShmState} {t : ShmTable} {p o : ℕ}

/-! ### Mapping -/

theorem attachments_setProc (hp : p < s.fd.nprocs) (x : ShmProc) (o : ℕ) :
    (s.setProc p x).attachments o + (attachedBy (s.procs p)).count o =
      s.attachments o + (attachedBy x).count o :=
  sum_range_update (fun x => (attachedBy x).count o) s.procs hp x

theorem count_le_attachments (hp : p < s.fd.nprocs) (o : ℕ) :
    (attachedBy (s.procs p)).count o ≤ s.attachments o := by
  have h := attachments_setProc hp { s.procs p with shmAttached := [] } o
  have h0 : (attachedBy { s.procs p with shmAttached := [] }).count o = 0 := rfl
  omega

theorem liveFiles_congr (hfd : s'.fd = s.fd)
    (hrel : ∀ q, (s'.procs q).releasing = (s.procs q).releasing) (o : ℕ) :
    s'.liveFiles o = s.liveFiles o := by
  unfold ShmState.liveFiles
  rw [hfd]
  refine Finset.filter_congr fun f _ => and_congr_right fun _ => ?_
  unfold ShmState.Live
  rw [hfd]
  simp only [hrel]

theorem count_within (l : List Attachment) (addr length o : ℕ) :
    (l.map Attachment.s).count o =
      ((l.filter (ShmTable.within addr length)).map Attachment.s).count o +
        ((l.filter fun a => !ShmTable.within addr length a).map Attachment.s).count o := by
  induction l with
  | nil => rfl
  | cons a l ih =>
    rw [map_cons, count_cons, ih]
    cases hw : ShmTable.within addr length a with
    | true | false => simp [hw, count_cons]; omega

/-- A page outside the range keeps its attachment. -/
theorem kept_covers {a : Attachment} {i : ℕ} (hc : a.Covers i)
    (hi : ¬ (addr ≤ i * PageSize ∧ i * PageSize < addr + length)) :
    ShmTable.within addr length a = false := by
  obtain ⟨h₁, h2⟩ := hc
  have hP : (i + 1) * PageSize = i * PageSize + PageSize := Nat.succ_mul i PageSize
  have hpos : 0 < PageSize := by decide
  by_contra hw
  rw [Bool.not_eq_false, ShmTable.within, Bool.and_eq_true, decide_eq_true_iff,
    decide_eq_true_iff] at hw
  exact hi ⟨by omega, by omega⟩

/-- Process `p` and the table change. -/
def ShmState.put (s : ShmState) (p : ℕ) (x : ShmProc) (t : ShmTable) : ShmState :=
  { s.setProc p x with t }

theorem put_self (s : ShmState) (p : ℕ) (x : ShmProc) (t : ShmTable) : (s.put p x t).procs p = x :=
  Function.update_self ..

theorem put_ne (s : ShmState) {p q : ℕ} (hq : q ≠ p) (x : ShmProc) (t : ShmTable) :
    (s.put p x t).procs q = s.procs q :=
  Function.update_of_ne hq ..

theorem ShmInv.put (h : ShmInv s) (hp : p < s.fd.nprocs) {x : ShmProc} (ht : TableInv t)
    (hatt : ∀ i, (t.objs i).attached + (attachedBy (s.procs p)).count i =
      (s.t.objs i).attached + (attachedBy x).count i)
    (hfds : ∀ i, (t.objs i).fds = (s.t.objs i).fds) (hnobjs : t.nobjs = s.t.nobjs)
    (hnames : t.names = s.t.names) (hxrel : x.releasing = (s.procs p).releasing)
    (hpages : ∀ i o, x.detached = false → x.mem.pages i = some o →
      ∃ a ∈ x.shmAttached, a.s = o ∧ a.Covers i) : ShmInv (s.put p x t) := by
  have hrel : ∀ q, ((s.put p x t).procs q).releasing = (s.procs q).releasing := by
    intro q
    by_cases hq : q = p
    · subst hq
      rw [put_self, hxrel]
    · rw [put_ne s hq]
  refine ⟨h.fd, ht, fun id hid => ?_, fun i => ?_, fun i => ?_, fun q hq => ?_,
    fun q i o hd hpg => ?_, fun q f hf => ?_, fun q => ?_, fun q r f hf hf' => ?_⟩
  · obtain ⟨i, hi, he, hn⟩ := h.returned id hid
    refine ⟨i, hnobjs ▸ hi, he, fun n hni => hn n ?_⟩
    rw [← hnames]
    exact hni
  · have h₁ : (s.put p x t).attachments i + _ = _ := attachments_setProc hp x i
    have h2 := h.attached i
    have h3 : (t.objs i).attached + _ = _ := hatt i
    show (t.objs i).attached = _
    omega
  · have hfd : (s.put p x t).fd = s.fd := rfl
    have hlive : (s.put p x t).liveFiles i = s.liveFiles i := liveFiles_congr hfd hrel i
    rw [hlive]
    exact (hfds i).trans (h.fds i)
  · have hqp : q ≠ p := fun he => absurd hp (not_lt.mpr (he ▸ hq))
    rw [put_ne s hqp]
    exact h.unborn q hq
  · by_cases hq : q = p
    · subst hq
      rw [put_self] at hd hpg ⊢
      exact hpages i o hd hpg
    · rw [put_ne s hq] at hd hpg ⊢
      exact h.pages q i o hd hpg
  · rw [hrel q] at hf
    exact h.releasing q f hf
  · rw [hrel q]
    exact h.nodup q
  · rw [hrel] at hf hf'
    exact h.disjoint q r f hf hf'

/-- The pages of a range show `y`; its attachments are forgotten and `new` are added. -/
theorem ShmInv.remap (h : ShmInv s) (hp : p < s.fd.nprocs) {addr length : ℕ} {y : Option ℕ}
    (new : List Attachment) (ht : TableInv t)
    (hatt : ∀ i, (t.objs i).attached = (s.t.objs i).attached -
      (((s.procs p).shmAttached.filter (ShmTable.within addr length)).map Attachment.s).count i +
      (new.map Attachment.s).count i)
    (hfds : ∀ i, (t.objs i).fds = (s.t.objs i).fds) (hnobjs : t.nobjs = s.t.nobjs)
    (hnames : t.names = s.t.names)
    (hy : ∀ i o, addr ≤ i * PageSize → i * PageSize < addr + length → y = some o →
      ∃ a ∈ new, a.s = o ∧ a.Covers i) :
    ShmInv (s.put p { s.procs p with
      mem := (s.procs p).mem.setPages addr length y
      shmAttached := ((s.procs p).shmAttached.filter fun a =>
        !ShmTable.within addr length a) ++ new } t) := by
  refine h.put hp ht (fun i => ?_) hfds hnobjs hnames rfl fun i o hd hpg => ?_
  · have h₁ := count_within (s.procs p).shmAttached addr length i
    unfold attachedBy
    rw [hatt i, map_append, count_append]
    omega
  · dsimp only [Memory.setPages] at hpg ⊢
    split at hpg
    · rename_i hin
      obtain ⟨a, ha, hc⟩ := hy i o hin.1 hin.2 hpg
      exact ⟨a, mem_append_right _ ha, hc⟩
    · rename_i hout
      obtain ⟨a, ha, hao, hc⟩ := h.pages p i o hd hpg
      refine ⟨a, mem_append_left _ (mem_filter.mpr ⟨ha, ?_⟩), hao, hc⟩
      rw [kept_covers hc hout]
      rfl

theorem ShmInv.dropped_le (h : ShmInv s) (hp : p < s.fd.nprocs) (addr length i : ℕ) :
    ((((s.procs p).shmAttached.filter (ShmTable.within addr length)).map Attachment.s).count i : ℤ) ≤
      (s.t.objs i).attached := by
  have h₁ := count_within (s.procs p).shmAttached addr length i
  have h2 := count_le_attachments hp i
  have h3 := h.attached i
  unfold attachedBy at h2
  omega

theorem mapRange_ok {m m' : Memory} {size : ℕ}
    (h : m.mapRange addr o size length ok = .ok m') :
    addr % PageSize = 0 ∧ length % PageSize = 0 ∧ m' = m.setPages addr length (some o) := by
  unfold Memory.mapRange at h
  split at h
  · cases h
  · rename_i hal
    rw [not_or, not_or, not_not, not_not] at hal
    refine ⟨hal.1, hal.2.1, ?_⟩
    split at h
    · cases h
    · split at h
      · cases h
      · split at h
        · cases h
        · split at h
          · cases h
            rfl
          · cases h

theorem unmap_ok {m m' : Memory}
    (h : m.unmap addr length ok = .ok m') : m' = m.setPages addr length none := by
  unfold Memory.unmap at h
  split at h
  · cases h
  · split at h
    · cases h
    · split at h
      · cases h
      · split at h
        · cases h
          rfl
        · cases h

theorem covers_aligned {i : ℕ} (ha : addr % PageSize = 0) (hl : length % PageSize = 0)
    (h₁ : addr ≤ i * PageSize) (h2 : i * PageSize < addr + length) :
    (⟨addr, length, o⟩ : Attachment).Covers i := by
  refine ⟨h₁, ?_⟩
  have hsum : (addr + length) % PageSize = 0 := by
    rw [Nat.add_mod, ha, hl]
    rfl
  show (i + 1) * PageSize ≤ addr + length
  unfold PageSize at *
  omega

theorem ShmInv.mapped (h : ShmInv s) (hp : p < s.fd.nprocs) (ho : o < s.t.nobjs)
    (hused : (s.t.objs o).removed = false ∨ 0 < (s.t.objs o).fds) (size addr length : ℕ)
    (ok : Bool) : ShmInv (s.mapped p (s.t.mapLocked (s.procs p) o size addr length ok)).1 := by
  unfold ShmTable.mapLocked
  cases hm : (s.procs p).mem.mapRange addr o size length ok with
  | error e => cases e <;> exact h
  | ok mem =>
    obtain ⟨ha, hl, rfl⟩ := mapRange_ok hm
    obtain ⟨ht, hframe, hatt⟩ := h.table.foldlDetach _ (h.dropped_le hp addr length)
    dsimp only [ShmTable.dropAttachments]
    generalize (((s.procs p).shmAttached.filter (ShmTable.within addr length)).map
      Attachment.s).foldl ShmTable.detach s.t = t' at ht hframe hatt
    -- the segment itself is not freed by what the mapping replaces
    have hused' : (t'.objs o).unused = false := by
      rw [Bool.eq_false_iff]
      intro hu
      obtain ⟨hr, -, hf⟩ := Segment.unused_iff.mp hu
      rw [hframe.removed] at hr
      rw [hframe.fds] at hf
      rcases hused with hu' | hu'
      · rw [hr] at hu'
        cases hu'
      · omega
    have hpos : 0 ≤ (t'.objs o).attached := by
      rw [hatt o]
      have := h.dropped_le hp addr length o
      omega
    have hobj : ∀ i, (t'.setObj o { t'.objs o with attached := (t'.objs o).attached + 1 }).objs i =
        { t'.objs i with attached := (t'.objs i).attached + if i = o then 1 else 0 } := by
      intro i
      unfold ShmTable.setObj
      by_cases hi : i = o
      · subst hi
        simp
      · simp [hi]
    refine h.remap hp [⟨addr, length, o⟩] (ht.attach (hframe.nobjs ▸ ho) hused' hpos) (fun i => ?_)
      (fun i => ?_) hframe.nobjs hframe.names fun i x h₁ h2 hx => ?_
    · rw [hobj i]
      show (t'.objs i).attached + _ = _
      rw [hatt i, map_singleton, count_singleton]
      by_cases hi : i = o
      · subst hi
        simp
      · simp [hi, Ne.symm hi]
    · rw [hobj i]
      exact hframe.fds i
    · cases hx
      exact ⟨_, mem_singleton_self _, rfl, covers_aligned ha hl h₁ h2⟩

theorem ShmInv.unmap (h : ShmInv s) (hp : p < s.fd.nprocs) (addr n : BitVec 32) (ok : Bool) :
    ShmInv (s.unmap p addr n ok).1 := by
  unfold ShmState.unmap
  cases hm : (s.procs p).mem.unmap addr.toNat n.toNat ok with
  | error e => cases e <;> exact h
  | ok mem =>
    obtain rfl := unmap_ok hm
    obtain ⟨ht, hframe, hatt⟩ := h.table.foldlDetach _ (h.dropped_le hp addr.toNat n.toNat)
    have h₁ := h.remap hp [] ht (fun i => by simpa using hatt i) hframe.fds hframe.nobjs
      hframe.names (y := none) fun i x _ _ hx => by cases hx
    rw [append_nil] at h₁
    exact h₁

theorem ShmInv.attach (h : ShmInv s) (hp : p < s.fd.nprocs) (id addr : BitVec 32) (ok : Bool) :
    ShmInv (s.attach p id addr ok).1 := by
  unfold ShmState.attach
  split
  · exact h
  · rename_i o ho
    split
    · rename_i size hr _
      exact h.mapped hp (h.table.segs id o ho).1 (.inl hr) _ _ _ ok
    · exact h

theorem ShmInv.mapFd (h : ShmInv s) (hp : p < s.fd.nprocs) (fd : ℤ) (addr n : BitVec 32)
    (ok : Bool) : ShmInv (s.mapFd p fd addr n ok).1 := by
  unfold ShmState.mapFd
  split
  · exact h
  · rename_i o ho
    obtain ⟨hlt, hpos⟩ := h.shmFD hp ho
    split
    · exact h
    · exact h.mapped hp hlt (.inr hpos) _ _ _ ok

theorem ShmInv.grow (h : ShmInv s) (hp : p < s.fd.nprocs) (size : ℕ) (ok : Bool) :
    ShmInv (s.grow p size ok).1 := by
  unfold ShmState.grow
  split
  · exact h
  · rename_i mem hm
    refine h.put hp h.table (fun _ => rfl) (fun _ => rfl) rfl rfl rfl fun i o hd hpg => ?_
    have hpages : mem.pages = (s.procs p).mem.pages := by
      unfold Memory.reallocate at hm
      split at hm
      · cases hm
      · split at hm
        · split at hm
          · cases hm
            rfl
          · cases hm
        · cases hm
          rfl
    dsimp only at hpg
    rw [hpages] at hpg
    exact h.pages p i o hd hpg

/-! ### Descriptors -/

theorem FdInv.releases_step {fd fd' : FdState} {c : FdCall} {n : ℤ} (h : FdInv fd 0 fd.npipes fd)
    (hs : fdSystem.step fd c = some (fd', n)) {f : ℕ} (hf : f < fd.nfiles) :
    (fd.files f).releases ≤ (fd'.files f).releases ∧ (fd'.files f).releases ≤ 1 := by
  have h' := h.step hs
  refine ⟨h'.kept.releases f hf, ?_⟩
  rw [h'.rel f (hf.trans_le h'.kept.nfiles)]
  split <;> omega

/-- The state after a descriptor call. -/
def ShmState.withFd (s : ShmState) (c : FdCall) (fd : FdState) : ShmState :=
  { s with
    fd
    procs := fun p => if c.proc = some p then
      { s.procs p with releasing := letGo s.fd fd p } else s.procs p }

theorem withFd_rest (s : ShmState) (c : FdCall) (fd : FdState) (q : ℕ) :
    ((s.withFd c fd).procs q).shmAttached = (s.procs q).shmAttached ∧
      ((s.withFd c fd).procs q).mem = (s.procs q).mem ∧
      ((s.withFd c fd).procs q).detached = (s.procs q).detached := by
  unfold ShmState.withFd
  dsimp only
  split <;> exact ⟨rfl, rfl, rfl⟩

theorem withFd_releasing (s : ShmState) (c : FdCall) (fd : FdState) (q : ℕ) :
    ((s.withFd c fd).procs q).releasing =
      if c.proc = some q then letGo s.fd fd q else (s.procs q).releasing := by
  unfold ShmState.withFd
  dsimp only
  split <;> rfl

theorem mem_letGo {fd fd' : FdState} : f ∈ letGo fd fd' p ↔
    f ∈ FdState.sortedFiles (fd.tables p) ∧
      (fd.files f).f.isShm = true ∧ (fd.files f).releases < (fd'.files f).releases := by
  simp [letGo]

section FdCall

variable {c : FdCall} {fd : FdState} {n : ℤ} (h : ShmInv s)
  (hidle : ∀ q, c.proc = some q → s.fd.running q = true ∧ (s.procs q).releasing = [])
  (hc : s.fd.call c = some (fd, n))

include hidle hc in
theorem fdSystem_step_of_call : fdSystem.step s.fd c = some (fd, n) := by
  refine ite_none_right_eq_some.mpr ⟨?_, hc⟩
  cases hq : c.proc with
  | none => rfl
  | some q => exact (hidle q hq).1

include h in
theorem ShmInv.lt_of_letGo (hf : f ∈ letGo s.fd fd p) : f < s.fd.nfiles := by
  have hcount := count_pos_iff.mpr (mem_letGo.mp hf).1
  rw [count_sortedFiles, holds_pos_iff] at hcount
  obtain ⟨n, e, he, rfl⟩ := hcount
  exact h.fd.valid p n e he

include h hidle hc in
theorem ShmInv.releases_fdCall (hf : f < s.fd.nfiles) :
    (s.fd.files f).releases ≤ (fd.files f).releases ∧ (fd.files f).releases ≤ 1 :=
  h.fd.releases_step (fdSystem_step_of_call hidle hc) hf

include h hidle hc in
/-- A descriptor call counts no open file out: what it lets go has still to be released. -/
theorem ShmInv.live_fdCall (hf : f < s.fd.nfiles) (hk : (s.fd.files f).f.isShm = true) :
    (s.withFd c fd).Live f ↔ s.Live f := by
  have hg := fdGrows_call hc
  obtain ⟨hmono, hone⟩ := h.releases_fdCall hidle hc hf
  constructor
  · rintro (h0 | ⟨q, hq, hm⟩)
    · have h0' : (fd.files f).releases = 0 := h0
      exact .inl (by omega)
    · rw [withFd_releasing] at hm
      split at hm
      · have hlt := (mem_letGo.mp hm).2.2
        exact .inl (by omega)
      · refine .inr ⟨q, ?_, hm⟩
        by_contra hn
        rw [(h.unborn q (not_lt.mp hn)).2] at hm
        cases hm
  · rintro (h0 | ⟨q, hq, hm⟩)
    · by_cases h1 : (fd.files f).releases = 0
      · exact .inl h1
      · have hlt : (s.fd.files f).releases < (fd.files f).releases := by omega
        obtain ⟨q, hq, hmem⟩ :=
          h.fd.mem_of_release (fdSystem_step_of_call hidle hc) hf hlt
        refine .inr ⟨q, (h.fd.alive q (hidle q hq).1).trans_le hg.nprocs, ?_⟩
        rw [withFd_releasing, if_pos hq]
        exact mem_letGo.mpr ⟨hmem, hk, hlt⟩
    · refine .inr ⟨q, hq.trans_le hg.nprocs, ?_⟩
      have hnot : c.proc ≠ some q := fun he => by
        rw [(hidle q he).2] at hm
        cases hm
      rw [withFd_releasing, if_neg hnot]
      exact hm

include h hidle hc in
theorem ShmInv.liveFiles_fdCall (o : ℕ) : (s.withFd c fd).liveFiles o = s.liveFiles o := by
  have hg := fdGrows_call hc
  ext f
  unfold liveFiles
  rw [Finset.mem_filter, Finset.mem_filter, Finset.mem_range, Finset.mem_range]
  show f < fd.nfiles ∧ (fd.files f).f = _ ∧ _ ↔ _
  constructor
  · rintro ⟨hlt, hk, hl⟩
    have hf : f < s.fd.nfiles := by
      by_contra hn
      have hfresh := hg.fresh f (not_lt.mp hn) hlt
      rw [hk] at hfresh
      cases hfresh
    rw [hg.kind f hf] at hk
    exact ⟨hf, hk, (h.live_fdCall hidle hc hf (by rw [hk]; rfl)).mp hl⟩
  · rintro ⟨hf, hk, hl⟩
    rw [hg.kind f hf]
    exact ⟨hf.trans_le hg.nfiles, hk, (h.live_fdCall hidle hc hf (by rw [hk]; rfl)).mpr hl⟩

include h hc in
theorem ShmInv.attachments_fdCall (o : ℕ) : (s.withFd c fd).attachments o = s.attachments o := by
  unfold attachments attachedBy
  simp only [(withFd_rest s c fd _).1]
  refine (Finset.sum_subset (Finset.range_mono (fdGrows_call hc).nprocs) fun q _ hq => ?_).symm
  rw [(h.unborn q (not_lt.mp fun hlt => hq (Finset.mem_range.mpr hlt))).1]
  rfl

include h hidle hc in
theorem ShmInv.releasing_fdCall (hf : f ∈ ((s.withFd c fd).procs p).releasing) :
    f < fd.nfiles ∧ (fd.files f).f.isShm = true ∧ (fd.files f).releases ≠ 0 := by
  have hg := fdGrows_call hc
  obtain ⟨hlt, hk, hr⟩ : f < s.fd.nfiles ∧ (s.fd.files f).f.isShm = true ∧
      (fd.files f).releases ≠ 0 := by
    rw [withFd_releasing] at hf
    split at hf
    · obtain ⟨-, hk, hr⟩ := mem_letGo.mp hf
      exact ⟨h.lt_of_letGo hf, hk, (Nat.zero_le _).trans_lt hr |>.ne'⟩
    · obtain ⟨hlt, hk, hr⟩ := h.releasing p f hf
      have hmono := (h.releases_fdCall hidle hc hlt).1
      exact ⟨hlt, hk, by omega⟩
  exact ⟨hlt.trans_le hg.nfiles, by rw [hg.kind f hlt]; exact hk, hr⟩

include h hidle hc in
theorem ShmInv.not_mem_of_letGo (hf : f ∈ letGo s.fd fd p) :
    f ∉ (s.procs q).releasing := by
  intro hq
  have hne := (h.releasing q f hq).2.2
  have hone := (h.releases_fdCall hidle hc (h.lt_of_letGo hf)).2
  have hlt := (mem_letGo.mp hf).2.2
  omega

include h hidle hc in
theorem ShmInv.disjoint_fdCall {r : ℕ} (hf : f ∈ ((s.withFd c fd).procs q).releasing)
    (hf' : f ∈ ((s.withFd c fd).procs r).releasing) : q = r := by
  rw [withFd_releasing] at hf hf'
  split at hf
  · split at hf'
    · rename_i hq hr
      exact Option.some.inj (hq.symm.trans hr)
    · exact absurd hf' (h.not_mem_of_letGo hidle hc hf)
  · split at hf'
    · exact absurd hf (h.not_mem_of_letGo hidle hc hf')
    · exact h.disjoint q r f hf hf'

include h hidle hc in
theorem ShmInv.fdCall : ShmInv (s.withFd c fd) where
  fd := (h.fd.step (fdSystem_step_of_call hidle hc)).rebase
  table := h.table
  returned := h.returned
  attached o := by
    rw [h.attachments_fdCall hc]
    exact h.attached o
  fds o := by
    rw [h.liveFiles_fdCall hidle hc]
    exact h.fds o
  unborn q hq := by
    have hq' : s.fd.nprocs ≤ q := (fdGrows_call hc).nprocs.trans hq
    have hnot : c.proc ≠ some q := fun he => by
      have := h.fd.alive q (hidle q he).1
      omega
    rw [(withFd_rest s c fd q).1, withFd_releasing, if_neg hnot]
    exact h.unborn q hq'
  pages q i o hd hpg := by
    obtain ⟨h₁, h2, h3⟩ := withFd_rest s c fd q
    rw [h3] at hd
    rw [h2] at hpg
    rw [h₁]
    exact h.pages q i o hd hpg
  releasing q f hf := h.releasing_fdCall hidle hc hf
  nodup q := by
    rw [withFd_releasing]
    split
    · exact (nodup_dedup _).filter _
    · exact h.nodup q
  disjoint q r f hf hf' := h.disjoint_fdCall hidle hc hf hf'

end FdCall

theorem ShmInv.release (h : ShmInv s) {f : ℕ} {fs : List ℕ}
    (hp : (s.procs p).releasing = f :: fs) (hk : (s.fd.files f).f = .shmFile o) :
    ShmInv (s.put p { s.procs p with releasing := fs } (s.t.release o)) := by
  have hmem : f ∈ (s.procs p).releasing := by
    rw [hp]
    exact mem_cons_self
  obtain ⟨hf, -, hrel⟩ := h.releasing p f hmem
  have hlt : p < s.fd.nprocs := by
    by_contra hn
    rw [(h.unborn p (not_lt.mp hn)).2] at hmem
    cases hmem
  have hnodup := h.nodup p
  rw [hp, nodup_cons] at hnodup
  have hpos := h.fds_pos hf hk (.inr ⟨p, hlt, hmem⟩)
  have hobj := release_obj s.t o
  obtain ⟨hnobjs, hnames, -⟩ := maybeFree_rest
    (s.t.setObj o { s.t.objs o with fds := (s.t.objs o).fds - 1 }) o
  -- the lists lose this open file and no other
  have hlists : ∀ q g, g ∈ ((s.put p { s.procs p with releasing := fs } (s.t.release o)).procs
      q).releasing ↔ g ∈ (s.procs q).releasing ∧ g ≠ f := by
    intro q g
    by_cases hq : q = p
    · subst hq
      rw [put_self, hp, mem_cons]
      constructor
      · intro hg
        exact ⟨.inr hg, fun he => hnodup.1 (he ▸ hg)⟩
      · rintro ⟨rfl | hg, hne⟩
        · exact absurd rfl hne
        · exact hg
    · rw [put_ne s hq]
      exact ⟨fun hg => ⟨hg, fun he => hq (h.disjoint q p f (he ▸ hg) hmem)⟩, And.left⟩
  have hlive : ∀ g, (s.put p { s.procs p with releasing := fs } (s.t.release o)).Live g ↔
      s.Live g ∧ g ≠ f := by
    intro g
    constructor
    · rintro (h0 | ⟨q, hq, hg⟩)
      · exact ⟨.inl h0, fun he => hrel (he ▸ h0)⟩
      · obtain ⟨hg', hne⟩ := (hlists q g).mp hg
        exact ⟨.inr ⟨q, hq, hg'⟩, hne⟩
    · rintro ⟨h0 | ⟨q, hq, hg⟩, hne⟩
      · exact .inl h0
      · exact .inr ⟨q, hq, (hlists q g).mpr ⟨hg, hne⟩⟩
  have hset : ∀ i, (s.put p { s.procs p with releasing := fs } (s.t.release o)).liveFiles i =
      (s.liveFiles i).erase f := by
    intro i
    ext g
    unfold liveFiles
    rw [Finset.mem_erase, Finset.mem_filter, Finset.mem_filter]
    show g ∈ Finset.range s.fd.nfiles ∧ (s.fd.files g).f = _ ∧ _ ↔ _
    rw [hlive g]
    tauto
  refine ⟨h.fd, h.table.release hpos.ne', fun id hid => ?_, fun i => ?_, fun i => ?_,
    fun q hq => ?_, fun q i o' hd hpg => ?_, fun q g hg => ?_, fun q => ?_, fun q r g hg hg' => ?_⟩
  · obtain ⟨i, hi, he, hn⟩ := h.returned id hid
    refine ⟨i, hnobjs ▸ hi, he, fun n hni => hn n ?_⟩
    have hni' : (s.t.release o).names n = some i := hni
    rwa [ShmTable.release, hnames] at hni'
  · have h₁ : (s.put p { s.procs p with releasing := fs } (s.t.release o)).attachments i + _ = _ :=
      attachments_setProc hlt { s.procs p with releasing := fs } i
    have h2 : (attachedBy { s.procs p with releasing := fs }).count i =
        (attachedBy (s.procs p)).count i := rfl
    have h3 := h.attached i
    show ((s.t.release o).objs i).attached = _
    rw [(hobj i).1]
    omega
  · rw [hset i]
    show ((s.t.release o).objs i).fds = _
    rw [(hobj i).2.1]
    by_cases hi : i = o
    · subst hi
      have hfm : f ∈ s.liveFiles i :=
        Finset.mem_filter.mpr ⟨Finset.mem_range.mpr hf, hk, .inr ⟨p, hlt, hmem⟩⟩
      have hcard := Finset.card_erase_add_one hfm
      rw [if_pos rfl, h.fds i, ← hcard]
      push_cast
      ring
    · have hfm : f ∉ s.liveFiles i := fun hm => by
        have hk' := (Finset.mem_filter.mp hm).2.1
        rw [hk] at hk'
        exact hi (FileRef.shmFile.inj hk').symm
      rw [if_neg hi, Finset.erase_eq_of_notMem hfm, sub_zero]
      exact h.fds i
  · have hqp : q ≠ p := fun he => absurd hlt (not_lt.mpr (he ▸ hq))
    rw [put_ne s hqp]
    exact h.unborn q hq
  · by_cases hq : q = p
    · subst hq
      rw [put_self] at hd hpg ⊢
      exact h.pages q i o' hd hpg
    · rw [put_ne s hq] at hd hpg ⊢
      exact h.pages q i o' hd hpg
  · exact h.releasing q g ((hlists q g).mp hg).1
  · by_cases hq : q = p
    · subst hq
      rw [put_self]
      exact hnodup.2
    · rw [put_ne s hq]
      exact h.nodup q
  · exact h.disjoint q r g ((hlists q g).mp hg).1 ((hlists r g).mp hg').1

theorem ShmInv.detachAll (h : ShmInv s) (hp : p < s.fd.nprocs) :
    ShmInv (s.put p { s.procs p with shmAttached := [], detached := true }
      ((attachedBy (s.procs p)).foldl ShmTable.detach s.t)) := by
  obtain ⟨ht, hframe, hatt⟩ := h.table.foldlDetach (attachedBy (s.procs p)) fun i => by
    have h₁ := count_le_attachments hp i
    have h2 := h.attached i
    omega
  refine h.put hp ht (fun i => ?_) hframe.fds hframe.nobjs hframe.names rfl fun i o hd => ?_
  · have h₀ : (attachedBy { s.procs p with shmAttached := [], detached := true }).count i = 0 := rfl
    rw [hatt i, h₀]
    omega
  · cases hd

/-! ### Steps -/

/-- A call that makes a segment finds the next id positive. -/
def IdsLeft (s : ShmState) : ShmAct → Prop
  | .call _ (.create size ok) => size ≠ 0 → ok = true → 0 < s.t.next.toInt
  | .call _ (.open (some name) flags) =>
    s.t.names name = none → flags &&& O_CREAT ≠ 0 → 0 < s.t.next.toInt
  | _ => True

instance (s : ShmState) : (a : ShmAct) → Decidable (IdsLeft s a)
  | .call _ (.create _ _) => inferInstanceAs (Decidable (_ → _ → _))
  | .call _ (.open (some _) _) => inferInstanceAs (Decidable (_ → _ → _))
  | .call _ (.open none _) | .call _ (.size _) | .call _ (.attach _ _ _) | .call _ (.remove _)
  | .call _ (.unlink _) | .call _ (.truncate _ _ _) | .call _ (.fdSize _) | .call _ (.mapFd _ _ _ _)
  | .call _ (.unmap _ _ _) | .call _ (.grow _ _) | .fd _ | .release _ | .detachAll _ =>
    inferInstanceAs (Decidable True)

theorem ShmInv.call (h : ShmInv s) (hp : p < s.fd.nprocs) {c : ShmCall} {r : ShmState × ShmAns}
    (hids : IdsLeft s (.call p c)) (hc : s.call p c = some r) : ShmInv r.1 := by
  cases c with
  | create size ok =>
    cases hc
    unfold ShmState.create ShmTable.create
    dsimp only
    by_cases h0 : size = 0
    · rw [if_pos h0, if_neg (by simp [h0])]
      exact h
    · cases ok with
      | false =>
        rw [if_neg h0, if_pos (show (!false) = true from rfl), if_neg (by simp)]
        exact h
      | true =>
        rw [if_neg h0, if_neg (by simp), if_pos ⟨h0, rfl⟩]
        exact h.create (hids h0 rfl) _
  | size id => cases hc; exact h
  | attach id addr ok => cases hc; exact h.attach hp id addr ok
  | remove id =>
    obtain ⟨hid, he⟩ := ite_none_right_eq_some.mp hc
    cases he
    exact h.remove hid
  | «open» name flags =>
    cases hc
    cases name with
    | none => exact h
    | some name => exact h.openShm hp hids
  | unlink name =>
    cases hc
    cases name with
    | none => exact h
    | some name => exact h.unlink name
  | truncate fd size ok =>
    cases hc
    cases ho : s.shmFD p fd with
    | error e => exact h
    | ok o => exact h.truncate (h.shmFD hp ho).1 size ok
  | fdSize fd =>
    cases hc
    cases ho : s.shmFD p fd with
    | error e => exact h
    | ok o => exact h
  | mapFd fd addr n ok => cases hc; exact h.mapFd hp fd addr n ok
  | unmap addr n ok => cases hc; exact h.unmap hp addr n ok
  | grow size ok => cases hc; exact h.grow hp size ok

theorem idle_iff : s.idle q = true ↔
    s.fd.running q = true ∧ (s.procs q).releasing = [] := by
  simp [ShmState.idle]

/-- **One step** keeps the accounts, while ids are left. -/
theorem ShmInv.step (h : ShmInv s) {a : ShmAct} {r : ShmAns} (hids : IdsLeft s a)
    (hs : s.step a = some (s', r)) : ShmInv s' := by
  cases a with
  | call p c =>
    obtain ⟨hidle, hc⟩ := ite_none_right_eq_some.mp hs
    exact h.call (h.fd.alive p (idle_iff.mp hidle).1) hids hc
  | fd c =>
    obtain ⟨hidle, hc⟩ := ite_none_right_eq_some.mp hs
    obtain ⟨⟨fd, n⟩, hcall, he⟩ := map_eq_some_iff.mp hc
    cases he
    refine h.fdCall (fun q hq => idle_iff.mp ?_) hcall
    rw [hq] at hidle
    exact hidle
  | release p =>
    simp only [ShmState.step] at hs
    split at hs
    · rename_i f fs hp
      split at hs
      · rename_i o hk
        cases hs
        exact h.release hp hk
      · cases hs
    · cases hs
  | detachAll p =>
    obtain ⟨⟨hp, -⟩, he⟩ := ite_none_right_eq_some.mp hs
    cases he
    exact h.detachAll hp

theorem shmInv_start (reserved : ℕ → ℕ) : ShmInv (.start reserved) := by
  have hfd := fdInv_reachable (s := .empty) ⟨.empty, [], rfl, .nil⟩
  refine ⟨hfd, ?_, fun id hid => ?_, fun o => rfl, fun o => rfl, fun p _ => ⟨rfl, rfl⟩,
    fun p i o _ hpg => ?_, fun p f hf => ?_, fun p => nodup_nil, fun p q f hf => ?_⟩
  · refine ⟨IdsInv.init, fun _ => rfl, fun _ _ => ⟨rfl, rfl, rfl⟩, fun n o ho => ?_,
      Nat.two_pow_pos 31⟩
    cases ho
  · cases hid
  · cases hpg
  · cases hf
  · cases hf

/-! ### Errors -/

/-- The call reports an error. -/
def ShmAns.failed : ShmAns → Prop
  | .ret n => n < 0
  | .panic => True

/-- The same table, attachments and memory. -/
structure ShmKept (s s' : ShmState) : Prop where
  table : s'.t = s.t
  attached : ∀ p, (s'.procs p).shmAttached = (s.procs p).shmAttached
  mem : ∀ p, (s'.procs p).mem = (s.procs p).mem

theorem ShmKept.refl (s : ShmState) : ShmKept s s := ⟨rfl, fun _ => rfl, fun _ => rfl⟩

theorem mapped_failed {x : Except MemErr (ShmTable × ShmProc)} (h : (s.mapped p x).2.failed) :
    (s.mapped p x).1 = s := by
  cases x with
  | ok y => exact absurd h (lt_irrefl 0)
  | error e => cases e <;> rfl

theorem attach_failed {id addr : BitVec 32} (h : (s.attach p id addr ok).2.failed) :
    (s.attach p id addr ok).1 = s := by
  unfold ShmState.attach at h ⊢
  split
  · rfl
  · rename_i o ho
    rw [ho] at h
    dsimp only at h ⊢
    split
    · rename_i size hr hseg
      rw [hr, hseg] at h
      exact mapped_failed h
    · rfl

theorem mapFd_failed {fd : ℤ} {addr n : BitVec 32}
    (h : (s.mapFd p fd addr n ok).2.failed) : (s.mapFd p fd addr n ok).1 = s := by
  unfold ShmState.mapFd at h ⊢
  split
  · rfl
  · rename_i o ho
    rw [ho] at h
    dsimp only at h ⊢
    split
    · rfl
    · rename_i size hseg
      rw [hseg] at h
      exact mapped_failed h

theorem openShm_failed {name : List UInt8} {flags : BitVec 32}
    (h : (s.openShm p name flags).2.failed) : (s.openShm p name flags).1 = s := by
  unfold ShmState.openShm at h ⊢
  split
  · rfl
  · rename_i t o hl
    rw [hl] at h
    have hfd : (0 : ℤ) ≤ FdState.freeFd (s.fd.tables p) := by
      refine le_trans ?_ (le_freeFrom _ _ FDBase)
      decide
    exact absurd hfd (not_le.mpr h)

theorem remove_failed {id : BitVec 32} (h : (t.remove id).2 < 0) : (t.remove id).1 = t := by
  unfold ShmTable.remove at h ⊢
  split
  · rfl
  · rename_i o ho
    rw [ho] at h
    dsimp only at h ⊢
    split
    · rfl
    · rename_i hr
      rw [if_neg hr] at h
      exact absurd h (lt_irrefl 0)

theorem unlink_failed {name : List UInt8} (h : (t.unlink name).2 < 0) : (t.unlink name).1 = t := by
  unfold ShmTable.unlink at h ⊢
  split
  · rfl
  · rename_i o ho
    rw [ho] at h
    exact absurd h (lt_irrefl 0)

theorem truncate_failed {size : BitVec 32} (h : (t.truncate o size ok).2 < 0) :
    (t.truncate o size ok).1 = t := by
  unfold ShmTable.truncate at h ⊢
  split
  · split <;> rfl
  · rename_i hseg
    rw [hseg] at h
    dsimp only at h ⊢
    split
    · rfl
    · rename_i h0
      rw [if_neg h0] at h
      split
      · rfl
      · rename_i hok
        rw [if_neg hok] at h
        exact absurd h (lt_irrefl 0)

theorem call_failed {c : ShmCall} {r : ShmState × ShmAns} (hids : IdsLeft s (.call p c))
    (hc : s.call p c = some r) (hr : r.2.failed) : ShmKept s r.1 := by
  have hsame : r.1 = s → ShmKept s r.1 := fun he => he ▸ ShmKept.refl r.1
  cases c with
  | create size ok =>
    cases hc
    have ht : (s.t.create size ok).1 = s.t := by
      have hneg : (s.t.create size ok).2 < 0 := hr
      unfold ShmTable.create at hneg ⊢
      split
      · rfl
      · rename_i h0
        rw [if_neg h0] at hneg
        split
        · rfl
        · rename_i hok
          rw [if_neg hok] at hneg
          have hok' : ok = true := by simpa using hok
          exact absurd hneg (not_lt.mpr (hids h0 hok').le)
    exact ⟨ht, fun _ => rfl, fun _ => rfl⟩
  | size id => cases hc; exact .refl s
  | attach id addr ok => cases hc; exact hsame (attach_failed hr)
  | remove id =>
    obtain ⟨-, he⟩ := ite_none_right_eq_some.mp hc
    cases he
    exact ⟨remove_failed hr, fun _ => rfl, fun _ => rfl⟩
  | «open» name flags =>
    cases hc
    cases name with
    | none => exact .refl s
    | some name => exact hsame (openShm_failed hr)
  | unlink name =>
    cases hc
    cases name with
    | none => exact .refl s
    | some name => exact ⟨unlink_failed hr, fun _ => rfl, fun _ => rfl⟩
  | truncate fd size ok =>
    cases hc
    cases ho : s.shmFD p fd with
    | error e => exact .refl s
    | ok o =>
      rw [ho] at hr
      exact ⟨truncate_failed hr, fun _ => rfl, fun _ => rfl⟩
  | fdSize fd =>
    cases hc
    cases ho : s.shmFD p fd with
    | error e | ok o => exact .refl s
  | mapFd fd addr n ok => cases hc; exact hsame (mapFd_failed hr)
  | unmap addr n ok => cases hc; exact hsame (mapped_failed hr)
  | grow size ok =>
    cases hc
    refine hsame ?_
    unfold ShmState.grow at hr ⊢
    split
    · rfl
    · rename_i mem hm
      rw [hm] at hr
      exact absurd hr (lt_irrefl 0)

theorem step_failed {a : ShmAct} {r : ShmAns} (hids : IdsLeft s a)
    (hs : s.step a = some (s', r)) (hr : r.failed) : ShmKept s s' := by
  cases a with
  | call p c =>
    obtain ⟨-, hc⟩ := ite_none_right_eq_some.mp hs
    exact call_failed hids hc hr
  | fd c =>
    obtain ⟨-, hc⟩ := ite_none_right_eq_some.mp hs
    obtain ⟨⟨fd, n⟩, -, he⟩ := map_eq_some_iff.mp hc
    cases he
    exact ⟨rfl, fun q => (withFd_rest s c fd q).1, fun q => (withFd_rest s c fd q).2.1⟩
  | release p =>
    simp only [ShmState.step] at hs
    split at hs
    · split at hs
      · cases hs
        exact absurd hr (lt_irrefl 0)
      · cases hs
    · cases hs
  | detachAll p =>
    obtain ⟨-, he⟩ := ite_none_right_eq_some.mp hs
    cases he
    exact absurd hr (lt_irrefl 0)

/-! ### Runs -/

theorem shmInv_of_run {s0 : ShmState} {tr : List (ShmAct × ShmAns)} (h₀ : shmSystem.init s0)
    (hr : (shmSystem.restrict IdsLeft).Run s0 tr s) : ShmInv s := by
  refine hr.invariant (fun s a s' r h hs => ?_) ?_
  · obtain ⟨hids, hs⟩ := System.restrict_step.mp hs
    exact h.step hids hs
  · obtain ⟨reserved, rfl⟩ := h₀
    exact shmInv_start reserved

/-- **The accounts of shared memory.** The counts of a segment are its attachments and its live open
files; it is freed once, when it is removed and has neither. -/
theorem shm_accounts {s0 : ShmState} {tr : List (ShmAct × ShmAns)} (h₀ : shmSystem.init s0)
    (hr : (shmSystem.restrict IdsLeft).Run s0 tr s) :
    (∀ o, (s.t.objs o).attached = s.attachments o) ∧
    (∀ o, (s.t.objs o).fds = (s.liveFiles o).card) ∧
    (∀ o, s.t.frees o = if (s.t.objs o).removed = true ∧ s.attachments o = 0 ∧
      s.liveFiles o = ∅ then 1 else 0) ∧
    (∀ p i o, (s.procs p).detached = false → (s.procs p).mem.pages i = some o →
      s.t.frees o = 0) ∧
    (∀ p fd f o, s.fd.get p fd = some f → (s.fd.files f).f = .shmFile o → s.t.frees o = 0) ∧
    ∀ a s' r, (shmSystem.restrict IdsLeft).step s a = some (s', r) → r.failed → ShmKept s s' := by
  have h := shmInv_of_run h₀ hr
  have hfree : ∀ o, (s.t.objs o).attached ≠ 0 ∨ (s.t.objs o).fds ≠ 0 → s.t.frees o = 0 := by
    intro o ho
    rw [h.table.frees, (h.table.in_use ho).2]
    rfl
  have hlt : ∀ {q f}, f ∈ (s.procs q).shmAttached → q < s.fd.nprocs := by
    intro q f hf
    by_contra hn
    rw [(h.unborn q (not_lt.mp hn)).1] at hf
    cases hf
  refine ⟨h.attached, h.fds, fun o => ?_, fun p i o hd hpg => ?_, fun p fd f o hget hk => ?_,
    fun a s' r hs hfail => ?_⟩
  · rw [h.table.frees o]
    have hatt : (s.t.objs o).attached = 0 ↔ s.attachments o = 0 := by
      rw [h.attached o]
      exact Int.natCast_eq_zero
    have hfds : (s.t.objs o).fds = 0 ↔ s.liveFiles o = ∅ := by
      rw [h.fds o, Int.natCast_eq_zero, Finset.card_eq_zero]
    split
    · rename_i hc
      rw [Segment.unused_iff.mpr ⟨hc.1, hatt.mpr hc.2.1, hfds.mpr hc.2.2⟩]
      rfl
    · rename_i hc
      have hu : (s.t.objs o).unused = false := Bool.eq_false_iff.mpr fun hu => by
        obtain ⟨h₁, h2, h3⟩ := Segment.unused_iff.mp hu
        exact hc ⟨h₁, hatt.mp h2, hfds.mp h3⟩
      rw [hu]
      rfl
  · obtain ⟨a, ha, rfl, -⟩ := h.pages p i o hd hpg
    refine hfree a.s (.inl ?_)
    have hcount : 0 < (attachedBy (s.procs p)).count a.s :=
      count_pos_iff.mpr (mem_map_of_mem ha)
    have hle := count_le_attachments (hlt ha) a.s
    rw [h.attached]
    omega
  · obtain ⟨e, he, -⟩ := map_eq_some_iff.mp hget
    have hfd : s.shmFD p fd = .ok o := by
      unfold ShmState.shmFD
      rw [hget]
      dsimp only
      rw [hk]
    exact hfree o (.inr (h.shmFD (h.fd.lookup_lt he) hfd).2.ne')
  · obtain ⟨hids, hs⟩ := System.restrict_step.mp hs
    exact step_failed hids hs hfail

/-- A segment that is unlinked and has lost its descriptor stays while a page shows it. -/
theorem shm_accounts_mapped : ∃ s tr, (shmSystem.restrict IdsLeft).Run (.start fun _ => 131072) tr s ∧
    (s.t.objs 0).removed = true ∧ (s.procs 0).mem.pages 0 = some 0 ∧
    (s.t.objs 0).attached = s.attachments 0 ∧ s.t.frees 0 = 0 ∧
    ∃ s' r, (shmSystem.restrict IdsLeft).step s (.call 0 (.unmap 1 65536 true)) = some (s', r) ∧
      r.failed ∧ ShmKept s s' := by
  have hr := @System.exec_run _ _ _ (shmSystem.restrict IdsLeft) (.start fun _ => 131072)
    [.fd .start, .call 0 (.grow 131072 true), .call 0 (.open (some [97]) O_CREAT),
      .call 0 (.truncate FDBase 65536 true), .call 0 (.mapFd FDBase 0 65536 true),
      .call 0 (.unlink (some [97])), .fd (.close 0 FDBase), .release 0] _ _ rfl
  obtain ⟨h₁, -, -, h2, -, h3⟩ := shm_accounts ⟨_, rfl⟩ hr
  have hfail : (ShmAns.ret (-Errno.EINVAL.code)).failed := by
    show -Errno.EINVAL.code < 0
    decide
  refine ⟨_, _, hr, rfl, rfl, h₁ 0, h2 0 0 0 rfl rfl, _, .ret (-Errno.EINVAL.code), rfl, hfail, ?_⟩
  exact h3 (.call 0 (.unmap 1 65536 true)) _ (.ret (-Errno.EINVAL.code)) rfl hfail

end PgZero.Kernel
