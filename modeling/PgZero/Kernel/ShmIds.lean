import PgZero.Kernel.ShmMoves
import PgZero.Kernel.ShmWrap

/-!
# Ids and sizes of segments

Ids come from one counter of 32 bits, for anonymous segments and named objects alike. It is never
checked against the ids in use. The size of a segment is rounded up to whole pages and handed to the
guest as an `int32`.

* **`segment_ids`**: up to the first `2 ^ 31 - 1` segments ids are positive and never in use.
* **`ids_run_out`**: after that they are negative, and one of a live segment is given again.
* **`segment_sizes`**: sizes up to `2 ^ 31 - 65536`, and no others, come back rounded up.
-/

set_option autoImplicit false

namespace PgZero.Kernel

open Function Lib ShmState Option

variable {s s' : ShmState} {t t' : ShmTable} {p o : ℕ}

/-! ### Ids -/

namespace IdsInv

theorem move (h : IdsInv t) (hm : TableMove t t') : IdsInv t' := by
  cases hm with
  | obj o x hid => exact h.setObj hid
  | free o => exact h.maybeFree o
  | new name seg => exact h.newSegment name seg
  | forget n => exact h.setName (by simp)
  | name n o ho => exact h.setName fun i hi => Option.some.inj hi ▸ ho

theorem moves (h : IdsInv t) (hm : TableMoves t t') : IdsInv t' := by
  induction hm with
  | refl => exact h
  | tail _ hm ih => exact ih.move hm

theorem of_reachable (h : shmAnySystem.Reachable s) : IdsInv s.t := by
  obtain ⟨s0, tr, ⟨reserved, rfl⟩, hr⟩ := h
  exact init.moves (TableMoves.of_run hr)

theorem next_free (h : IdsInv t) (hb : t.nobjs + 1 < 2 ^ 31) :
    0 < t.next.toInt ∧ t.segs t.next = none := by
  constructor
  · rw [h.next, BitVec.toInt_ofNat', Int.bmod]
    omega
  · by_contra hsome
    obtain ⟨o, ho⟩ := ne_none_iff_exists'.mp hsome
    obtain ⟨hlt, hid⟩ := h.segs _ o ho
    rw [h.ids o hlt, h.next] at hid
    exact absurd (ofNat_succ_inj (by omega) (by omega) hid) (ne_of_lt hlt)

end IdsInv

/-- **Ids of segments**, as long as less than `2 ^ 31 - 1` have been made. -/
theorem segment_ids (hs : shmAnySystem.Reachable s) (hb : s.t.nobjs < 2 ^ 31 - 1) :
    (∀ size, size ≠ 0 → 0 < (s.t.create size true).2) ∧
    (∀ name seg id o, s.t.segs id = some o → (s.t.newSegment name seg).segs id = some o) ∧
    ∀ o < s.t.nobjs, s.t.frees o = 0 → s.t.segs (s.t.objs o).id = some o := by
  have h := IdsInv.of_reachable hs
  obtain ⟨hpos, hfree⟩ := h.next_free (by omega)
  refine ⟨fun size h0 => ?_, fun name seg id o ho => ?_, h.live (by omega)⟩
  · rw [ShmTable.create, if_neg h0]
    exact hpos
  · have hne : id ≠ s.t.next := fun he => by
      rw [he, hfree] at ho
      cases ho
    exact (update_of_ne hne _ _).trans ho

theorem segment_ids_first : ∃ s, shmAnySystem.Reachable s ∧ s.t.nobjs = 1 ∧
    0 < (s.t.create 1 true).2 ∧ s.t.segs (s.t.objs 0).id = some 0 := by
  have hr := @System.reachable_of_exec _ _ _ shmAnySystem (.start fun _ => 0) _
    [.fd .start, .call 0 (.create 1 true)] _ ⟨_, rfl⟩ rfl
  obtain ⟨h1, -, h3⟩ := segment_ids hr (by decide)
  exact ⟨_, hr, rfl, h1 1 (by decide), h3 0 (by decide) rfl⟩

/-! ### A long run -/

/-- The segments that have not been freed. -/
def ShmTable.alive (t : ShmTable) : Finset ℕ := (Finset.range t.nobjs).filter fun o => t.frees o = 0

/-- At most two segments are alive. -/
def TwoAlive (s : ShmState) (_ : ShmAct) : Prop := s.t.alive.card ≤ 2

instance (s : ShmState) (a : ShmAct) : Decidable (TwoAlive s a) :=
  inferInstanceAs (Decidable (_ ≤ _))

/-- The first segment is alive; `k` more were made and removed. -/
structure Churned (s : ShmState) (k : ℕ) : Prop where
  fd : s.fd = oneProc
  idle : (s.procs 0).releasing = []
  nobjs : s.t.nobjs = k + 1
  next : s.t.next = BitVec.ofNat 32 (k + 2)
  first : s.t.segs 1 = some 0
  alive : ∀ o < s.t.nobjs, s.t.frees o = 0 ↔ o = 0

theorem remove_new (t : ShmTable) (seg : Option ℕ) :
    ((t.newSegment [] seg).remove t.next).1.nobjs = t.nobjs + 1 ∧
    ((t.newSegment [] seg).remove t.next).1.next = t.next + 1 ∧
    ((t.newSegment [] seg).remove t.next).1.segs = update t.segs t.next none ∧
    ((t.newSegment [] seg).remove t.next).1.frees =
      update t.frees t.nobjs (t.frees t.nobjs + 1) := by
  simp [ShmTable.remove, ShmTable.newSegment, ShmTable.maybeFree, ShmTable.setObj]

theorem step_create (hfd : s.fd = oneProc) (hidle : (s.procs 0).releasing = []) :
    shmAnySystem.step s (.call 0 (.create 1 true)) = some ({ s with
      t := s.t.newSegment [] (some (alignUp 1))
      returned := update s.returned s.t.next true }, .ret s.t.next.toInt) := by
  have hrun : s.fd.running 0 = true := by
    rw [hfd]
    rfl
  exact step_call hrun hidle (.create 1 true)

theorem Churned.twoAlive {k : ℕ} (h : Churned s k) (a : ShmAct) : TwoAlive s a := by
  have hsub : s.t.alive ⊆ {0} := fun o ho => by
    obtain ⟨hlt, hf⟩ := Finset.mem_filter.mp ho
    exact Finset.mem_singleton.mpr ((h.alive o (Finset.mem_range.mp hlt)).mp hf)
  exact (Finset.card_le_card hsub).trans (by decide)

theorem Churned.succ {k : ℕ} (h : Churned s k) (hk : k + 1 < 2 ^ 32)
    (hr : (shmAnySystem.restrict TwoAlive).Reachable s) :
    ∃ s', (shmAnySystem.restrict TwoAlive).Reachable s' ∧ Churned s' (k + 1) := by
  have h1 := hr.step (System.restrict_step.mpr ⟨h.twoAlive _, step_create h.fd h.idle⟩)
  set s1 : ShmState := { s with
      t := s.t.newSegment [] (some (alignUp 1))
      returned := update s.returned s.t.next true } with hs1
  have halive : TwoAlive s1 (.call 0 (.remove s.t.next)) := by
    have hsub : s1.t.alive ⊆ {0, s.t.nobjs} := fun o ho => by
      obtain ⟨hlt, hf⟩ := Finset.mem_filter.mp ho
      have hlt' : o < s.t.nobjs + 1 := Finset.mem_range.mp hlt
      rw [Finset.mem_insert, Finset.mem_singleton]
      by_cases ho : o < s.t.nobjs
      · exact .inl ((h.alive o ho).mp hf)
      · exact .inr (by omega)
    exact (Finset.card_le_card hsub).trans Finset.card_le_two
  have h2 : shmAnySystem.step s1 (.call 0 (.remove s.t.next)) =
      some (s1.locked (s1.t.remove s.t.next)) := by
    refine if_pos (idle_iff.mpr ⟨?_, h.idle⟩)
    show s.fd.running 0 = true
    rw [h.fd]
    rfl
  obtain ⟨hnobjs, hnext, hsegs, hfrees⟩ := remove_new s.t (some (alignUp 1))
  refine ⟨_, h1.step (System.restrict_step.mpr ⟨halive, h2⟩), h.fd, h.idle, ?_, ?_, ?_,
    fun o ho => ?_⟩
  · exact hnobjs.trans (by rw [h.nobjs])
  · refine hnext.trans ?_
    rw [h.next]
    exact (BitVec.ofNat_add (k + 2) 1).symm
  · refine (congrFun hsegs 1).trans ((update_of_ne ?_ _ _).trans h.first)
    rw [h.next]
    intro he
    have h' : 1 = (k + 2) % 2 ^ 32 := (congrArg BitVec.toNat he).trans (BitVec.toNat_ofNat ..)
    omega
  · have ho' : o < s.t.nobjs + 1 := hnobjs ▸ ho
    refine (iff_of_eq (congrArg (· = 0) (congrFun hfrees o))).trans ?_
    rw [update_apply]
    split
    · rename_i hon
      rw [h.nobjs] at hon
      simp
      omega
    · exact h.alive o (by omega)

theorem churned_reach (k : ℕ) (hk : k < 2 ^ 32) :
    ∃ s, (shmAnySystem.restrict TwoAlive).Reachable s ∧ Churned s k := by
  induction k with
  | zero =>
    refine ⟨_, System.reachable_of_exec [.fd .start, .call 0 (.create 1 true)] ⟨fun _ => 0, rfl⟩
      rfl, rfl, rfl, rfl, rfl, rfl, fun o ho => ?_⟩
    have ho' : o < 1 := ho
    exact iff_of_true rfl (by omega)
  | succ k ih =>
    obtain ⟨s, hr, h⟩ := ih (by omega)
    exact h.succ hk hr

/-- **Ids run out**, with never more than two segments alive. -/
theorem ids_run_out :
    (∃ s s' r, (shmAnySystem.restrict TwoAlive).Reachable s ∧
      shmAnySystem.step s (.call 0 (.create 1 true)) = some (s', .ret r) ∧ r < 0) ∧
    ∃ s s' r, (shmAnySystem.restrict TwoAlive).Reachable s ∧
      shmAnySystem.step s (.call 0 (.create 1 true)) = some (s', .ret r) ∧
      s.t.frees 0 = 0 ∧ s.t.segs 1 = some 0 ∧ s'.t.frees 0 = 0 ∧ s'.t.segs 1 = some (2 ^ 32) := by
  constructor
  · obtain ⟨s, hr, h⟩ := churned_reach (2 ^ 31 - 2) (by decide)
    refine ⟨s, _, _, hr, step_create h.fd h.idle, ?_⟩
    rw [h.next]
    decide
  · obtain ⟨s, hr, h⟩ := churned_reach (2 ^ 32 - 1) (by decide)
    have hlt : 0 < s.t.nobjs := by
      rw [h.nobjs]
      exact Nat.succ_pos _
    have halive : s.t.frees 0 = 0 := (h.alive 0 hlt).mpr rfl
    have hnext : s.t.next = 1 := by
      rw [h.next]
      decide
    refine ⟨s, _, _, hr, step_create h.fd h.idle, halive, h.first, halive, ?_⟩
    show update s.t.segs s.t.next (some s.t.nobjs) 1 = _
    rw [hnext, update_self, h.nobjs]
    norm_num

/-! ### Descriptors are for segments that have been made -/

/-- Descriptors are for segments that have been made. -/
structure MadeInv (s : ShmState) : Prop where
  fd : FdInv s.fd 0 s.fd.npipes s.fd
  ids : IdsInv s.t
  made : ∀ f < s.fd.nfiles, ∀ o, (s.fd.files f).f = .shmFile o → o < s.t.nobjs

theorem TableMoves.nobjs_le (h : TableMoves t t') : t.nobjs ≤ t'.nobjs := by
  induction h with
  | refl => exact le_rfl
  | tail _ hm ih => exact ih.trans hm.mono.1

namespace MadeInv

theorem of_fd_eq (h : MadeInv s) (hfd : s'.fd = s.fd) (hm : TableMoves s.t s'.t) : MadeInv s' := by
  refine ⟨hfd ▸ h.fd, h.ids.moves hm, fun f hf o ho => ?_⟩
  rw [hfd] at hf ho
  exact (h.made f hf o ho).trans_le hm.nobjs_le

theorem lookupName (h : IdsInv t) {name : List UInt8} {flags : BitVec 32}
    (hl : t.lookupName name flags = .ok (t', o)) : o < t'.nobjs := by
  unfold ShmTable.lookupName at hl
  split at hl
  · rename_i ho
    split at hl
    · cases hl
    · cases hl
      exact h.made name o ho
  · split at hl
    · cases hl
    · cases hl
      exact Nat.lt_succ_self _

theorem openShm (h : MadeInv s) (hp : p < s.fd.nprocs) (name : List UInt8) (flags : BitVec 32) :
    MadeInv (s.openShm p name flags).1 := by
  have hmoves := TableMoves.openShm (s := s) (p := p) name flags
  unfold ShmState.openShm at hmoves ⊢
  split
  · exact h
  · rename_i t o hl
    simp only [hl] at hmoves
    refine ⟨(h.fd.addNew hp (.shmFile o) false (fun i hi => by cases hi) false).rebase,
      h.ids.moves hmoves, fun f hf i hi => ?_⟩
    have hf' : f < s.fd.nfiles + 1 := hf
    rw [addNew_f] at hi
    split at hi
    · cases hi
      exact show o < t.nobjs from lookupName h.ids hl
    · exact (h.made f (by omega) i hi).trans_le hmoves.nobjs_le

theorem mapped_fd (s : ShmState) (p : ℕ) (x : Except MemErr (ShmTable × ShmProc)) :
    (s.mapped p x).1.fd = s.fd := by
  cases x with
  | ok y => rfl
  | error e => cases e <;> rfl

theorem call_fd {c : ShmCall} {r : ShmState × ShmAns} (hc : s.call p c = some r)
    (hne : ∀ name flags, c ≠ .open name flags) : r.1.fd = s.fd := by
  cases c with
  | «open» name flags => exact absurd rfl (hne name flags)
  | remove id =>
    obtain ⟨-, he⟩ := ite_none_right_eq_some.mp hc
    cases he
    rfl
  | create | size => cases hc; rfl
  | attach id addr ok =>
    cases hc
    unfold ShmState.attach
    split
    · rfl
    · split
      · exact mapped_fd ..
      · rfl
  | unlink name => cases hc; cases name <;> rfl
  | truncate fd size ok | fdSize fd => cases hc; cases s.shmFD p fd <;> rfl
  | mapFd fd addr n ok =>
    cases hc
    unfold ShmState.mapFd
    split
    · rfl
    · split
      · rfl
      · exact mapped_fd ..
  | unmap addr n ok => cases hc; exact mapped_fd ..
  | grow size ok =>
    cases hc
    unfold ShmState.grow
    split <;> rfl

theorem call (h : MadeInv s) (hp : p < s.fd.nprocs) {c : ShmCall} {r : ShmState × ShmAns}
    (hc : s.call p c = some r) (hm : TableMoves s.t r.1.t) : MadeInv r.1 := by
  by_cases hopen : ∃ name flags, c = .open name flags
  · obtain ⟨name, flags, rfl⟩ := hopen
    cases hc
    cases name with
    | none => exact h
    | some name => exact h.openShm hp name flags
  · exact h.of_fd_eq (call_fd hc fun name flags he => hopen ⟨name, flags, he⟩) hm

theorem step (h : MadeInv s) {a : ShmAct} {r : ShmAns}
    (hs : shmAnySystem.step s a = some (s', r)) : MadeInv s' := by
  have hm := TableMoves.of_case (tableCase_of_step hs)
  rcases stepAny_cases hs with hs | ⟨p, id, -, he⟩
  · cases a with
    | call p c =>
      obtain ⟨hidle, hc⟩ := ite_none_right_eq_some.mp hs
      exact h.call (h.fd.alive p (idle_iff.mp hidle).1) hc hm
    | fd c =>
      obtain ⟨hidle, hc⟩ := ite_none_right_eq_some.mp hs
      obtain ⟨⟨fd, n⟩, hcall, he⟩ := map_eq_some_iff.mp hc
      cases he
      have hstep : fdSystem.step s.fd c = some (fd, n) := by
        refine ite_none_right_eq_some.mpr ⟨?_, hcall⟩
        cases hq : c.proc with
        | none => rfl
        | some q =>
          rw [hq] at hidle
          exact (idle_iff.mp hidle).1
      have hg := fdGrows_call hcall
      refine ⟨(h.fd.step hstep).rebase, h.ids, fun f hf o ho => ?_⟩
      by_cases hold : f < s.fd.nfiles
      · rw [show (fd.files f).f = (s.fd.files f).f from hg.kind f hold] at ho
        exact h.made f hold o ho
      · have hk := hg.fresh f (Nat.not_lt.mp hold) hf
        rw [show (fd.files f).f = .shmFile o from ho] at hk
        cases hk
    | release p =>
      refine h.of_fd_eq ?_ hm
      simp only [ShmState.step] at hs
      split at hs
      · split at hs
        · cases hs
          rfl
        · cases hs
      · cases hs
    | detachAll p =>
      obtain ⟨-, he⟩ := ite_none_right_eq_some.mp hs
      cases he
      exact h.of_fd_eq rfl hm
  · cases he
    exact h.of_fd_eq rfl hm

theorem of_reachable (h : shmAnySystem.Reachable s) : MadeInv s := by
  refine h.invariant (fun s hi => ?_) (fun s a s' r h hs => h.step hs)
  obtain ⟨reserved, rfl⟩ := hi
  exact ⟨fdInv_reachable (s := .empty) ⟨.empty, [], rfl, .nil⟩, IdsInv.init,
    fun f hf => absurd hf (Nat.not_lt_zero f)⟩

theorem shmFD (h : MadeInv s) {fd : ℤ} (ho : s.shmFD p fd = .ok o) : o < s.t.nobjs := by
  unfold ShmState.shmFD at ho
  split at ho
  · cases ho
  · rename_i f hf
    split at ho
    · rename_i i hk
      cases ho
      obtain ⟨e, he, rfl⟩ := map_eq_some_iff.mp hf
      exact h.made _ (h.fd.valid p fd e he) _ hk
    · cases ho

end MadeInv

/-! ### Sizes -/

/-- Rounded up, the size is the same `int32` if and only if it is below `2 ^ 31`. -/
theorem toInt_alignUp_iff (n : ℕ) :
    (BitVec.ofNat 32 (alignUp n)).toInt = alignUp n ↔ n ≤ 2 ^ 31 - 65536 := by
  rw [BitVec.toInt_ofNat', Int.bmod]
  unfold alignUp PageSize
  omega

theorem size_eq {id : BitVec 32} {n : ℕ} (hid : t.segs id = some o)
    (hrem : (t.objs o).removed = false) (hseg : (t.objs o).seg = some n) :
    t.size id = (BitVec.ofNat 32 n).toInt := by
  simp only [ShmTable.size, hid, hrem, hseg]

theorem fdSize_eq {n : ℕ} (hseg : (t.objs o).seg = some n) :
    t.fdSize o = (BitVec.ofNat 32 n).toInt := by
  simp only [ShmTable.fdSize, hseg]

/-- **Sizes of segments.** `size` is the size rounded up if and only if that was at most
`2 ^ 31 - 65536`. -/
theorem segment_sizes (hs : shmAnySystem.Reachable s) {size : BitVec 32} (h0 : size ≠ 0) :
    (∀ p s1 r, shmAnySystem.step s (.call p (.create size true)) = some (s1, r) →
      r = .ret s.t.next.toInt ∧
      (s1.t.size s.t.next = alignUp size.toNat ↔ size.toNat ≤ 2 ^ 31 - 65536) ∧
      ∀ tr s2, shmAnySystem.Run s1 tr s2 → s2.t.segs s.t.next = some s.t.nobjs →
        (s2.t.objs s.t.nobjs).removed = false → s2.t.frees s.t.nobjs = s1.t.frees s.t.nobjs →
        (s2.t.size s.t.next = alignUp size.toNat ↔ size.toNat ≤ 2 ^ 31 - 65536)) ∧
    ∀ p fd o s1 r, s.shmFD p fd = .ok o → (s.t.objs o).seg = none →
      shmAnySystem.step s (.call p (.truncate fd size true)) = some (s1, r) →
      r = .ret 0 ∧ (s1.t.fdSize o = alignUp size.toNat ↔ size.toNat ≤ 2 ^ 31 - 65536) ∧
      ∀ tr s2, shmAnySystem.Run s1 tr s2 → s2.t.frees o = s1.t.frees o →
        (s2.t.fdSize o = alignUp size.toNat ↔ size.toNat ≤ 2 ^ 31 - 65536) := by
  have hint := toInt_alignUp_iff size.toNat
  refine ⟨fun p s1 r hst => ?_, fun p fd o s1 r hfd hnone hst => ?_⟩
  · obtain ⟨-, hc⟩ := ite_none_right_eq_some.mp hst
    have ht : s.t.create size true =
        (s.t.newSegment [] (some (alignUp size.toNat)), s.t.next.toInt) := if_neg h0
    have he : (s.create size true) = (s1, r) := Option.some.inj hc
    simp only [ShmState.create, ht] at he
    cases he
    have hobj := newSegment_obj_self s.t [] (some (alignUp size.toNat))
    have hseg := congrArg Segment.seg hobj
    refine ⟨rfl, ?_, fun tr s2 hr hid hrem hf => ?_⟩
    · rwa [size_eq (update_self ..) (congrArg Segment.removed hobj) hseg]
    · rwa [size_eq hid hrem ((TableMoves.of_run hr).seg (Nat.lt_succ_self _) hseg hf)]
  · obtain ⟨-, hc⟩ := ite_none_right_eq_some.mp hst
    have ht : s.t.truncate o size true =
        (s.t.setObj o { s.t.objs o with seg := some (alignUp size.toNat) }, 0) := by
      simp only [ShmTable.truncate, hnone]
      exact if_neg h0
    simp only [ShmState.call, hfd, ShmState.locked, ht] at hc
    cases hc
    have hmade := (MadeInv.of_reachable hs).shmFD hfd
    have hobj : (s.t.setObj o { s.t.objs o with seg := some (alignUp size.toNat) }).objs o =
        { s.t.objs o with seg := some (alignUp size.toNat) } := update_self ..
    have hseg := congrArg Segment.seg hobj
    refine ⟨rfl, ?_, fun tr s2 hr hf => ?_⟩
    · rwa [fdSize_eq hseg]
    · rwa [fdSize_eq ((TableMoves.of_run hr).seg hmade hseg hf)]

theorem segment_sizes_page : ∃ s s1, shmAnySystem.Reachable s ∧
    shmAnySystem.step s (.call 0 (.create 1 true)) = some (s1, .ret 1) ∧
    s1.t.size 1 = 65536 := by
  have hr := @System.reachable_of_exec _ _ _ shmAnySystem (.start fun _ => 0) _ [.fd .start] _
    ⟨_, rfl⟩ rfl
  exact ⟨_, _, hr, rfl, ((segment_sizes hr (by decide)).1 0 _ _ rfl).2.1.mpr (by decide)⟩

/-- The largest size, `2 ^ 31 - 1`, comes back as `-2 ^ 31`. -/
theorem size_negative :
    (∃ s, shmAnySystem.Run (.start fun _ => 0) [(.fd .start, .ret 0),
      (.call 0 (.create 2147483647 true), .ret 1), (.call 0 (.size 1), .ret (-2147483648))] s) ∧
    ∃ s, shmAnySystem.Run (.start fun _ => 0) [(.fd .start, .ret 0),
      (.call 0 (.open (some [97]) O_CREAT), .ret FDBase),
      (.call 0 (.truncate FDBase 2147483647 true), .ret 0),
      (.call 0 (.fdSize FDBase), .ret (-2147483648))] s :=
  ⟨⟨_, System.exec_run _ [.fd .start, .call 0 (.create 2147483647 true), .call 0 (.size 1)] rfl⟩,
    ⟨_, System.exec_run _ [.fd .start, .call 0 (.open (some [97]) O_CREAT),
      .call 0 (.truncate FDBase 2147483647 true), .call 0 (.fdSize FDBase)] rfl⟩⟩

end PgZero.Kernel
