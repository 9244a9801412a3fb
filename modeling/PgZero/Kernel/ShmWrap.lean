import PgZero.Kernel.ShmAccount

/-!
# When the ids run out

The next id is an `int32` that wraps. After `2 ^ 32` segments an id that `create` returned may belong
to a named object; `remove` then marks the object as removed and leaves its name.

* **`freed_while_open`**: a segment that is freed while it has a descriptor.
-/

set_option autoImplicit false

namespace PgZero.Kernel

open Function Lib ShmState ShmTable

/-- The descriptors of a kernel with one process. -/
def oneProc : FdState := FdState.empty.start.1

/-- `k` segments were made and removed, and nothing is left of them but their ids. -/
structure Spent (s : ShmState) (k : ℕ) : Prop where
  fd : s.fd = oneProc
  idle : (s.procs 0).releasing = []
  next : s.t.next = BitVec.ofNat 32 (k + 1)
  names : ∀ n, s.t.names n = none
  returned : 0 < k → s.returned 1 = true

variable {s : ShmState} {k : ℕ}

theorem step_call (hrun : s.fd.running 0 = true) (hrel : (s.procs 0).releasing = [])
    (c : ShmCall) : shmSystem.step s (.call 0 c) = s.call 0 c :=
  if_pos (idle_iff.mpr ⟨hrun, hrel⟩)

theorem remove_rest (t : ShmTable) (id : BitVec 32) :
    (t.remove id).1.next = t.next ∧ (t.remove id).1.names = t.names := by
  unfold remove
  split
  · exact ⟨rfl, rfl⟩
  · rename_i o _
    split
    · exact ⟨rfl, rfl⟩
    · obtain ⟨-, h1, h2⟩ := maybeFree_rest (t.setObj o { t.objs o with removed := true }) o
      exact ⟨h2, h1⟩

theorem Spent.succ (h : Spent s k) (hr : shmSystem.Reachable s) :
    ∃ s', shmSystem.Reachable s' ∧ Spent s' (k + 1) := by
  have hrun : s.fd.running 0 = true := by
    rw [h.fd]
    rfl
  have h1 : shmSystem.step s (.call 0 (.create 1 true)) = some ({ s with
      t := s.t.newSegment [] (some (alignUp 1))
      returned := update s.returned s.t.next true }, .ret s.t.next.toInt) :=
    step_call hrun h.idle _
  set s1 : ShmState := { s with
      t := s.t.newSegment [] (some (alignUp 1))
      returned := update s.returned s.t.next true } with hs1
  have hret : s1.returned s.t.next = true := update_self ..
  have h2 : shmSystem.step s1 (.call 0 (.remove s.t.next)) =
      some (s1.locked (s1.t.remove s.t.next)) := by
    have hrun1 : s1.fd.running 0 = true := hrun
    rw [step_call hrun1 h.idle]
    exact if_pos hret
  obtain ⟨hnext, hnames⟩ := remove_rest s1.t s.t.next
  refine ⟨_, (hr.step h1).step h2, h.fd, h.idle, ?_, fun n => ?_, fun _ => ?_⟩
  · show (s1.t.remove s.t.next).1.next = _
    rw [hnext]
    show s.t.next + 1 = _
    rw [h.next]
    exact (BitVec.ofNat_add (k + 1) 1).symm
  · show (s1.t.remove s.t.next).1.names n = none
    rw [hnames]
    exact h.names n
  · show update s.returned s.t.next true 1 = true
    rw [update_apply]
    split
    · rfl
    · rename_i hne
      refine h.returned (Nat.pos_of_ne_zero fun hk => hne ?_)
      rw [h.next, hk]
      rfl

theorem spent_reach (k : ℕ) : ∃ s, shmSystem.Reachable s ∧ Spent s k := by
  induction k with
  | zero =>
    refine ⟨_, System.reachable_of_exec [.fd .start] ⟨fun _ => 0, rfl⟩ rfl, rfl, rfl, rfl,
      fun _ => rfl, fun h => absurd h (lt_irrefl 0)⟩
  | succ k ih =>
    obtain ⟨s, hr, h⟩ := ih
    exact h.succ hr

/-! ### A named object with a removed id -/

/-- The descriptors with one more open file, for segment `o`. -/
def opened (fd : FdState) (o : ℕ) : FdState :=
  ((fd.newOpenFile (.shmFile o) false).add 0 fd.nfiles false).1

theorem step_open (hrun : s.fd.running 0 = true) (hrel : (s.procs 0).releasing = [])
    {flags : BitVec 32} {t : ShmTable} {o : ℕ} (hl : s.t.lookupName [97] flags = .ok (t, o)) :
    ∃ r, shmSystem.step s (.call 0 (.open (some [97]) flags)) =
      some (({ s with t } : ShmState).addShm 0 o, r) := by
  refine ⟨.ret ((s.fd.newOpenFile (.shmFile o) false).add 0 s.fd.nfiles false).2, ?_⟩
  rw [step_call hrun hrel]
  show some (s.openShm 0 [97] flags) = _
  unfold ShmState.openShm
  rw [hl]
  rfl

/-- All ids were used and the name is free: a named object gets the id `1`. -/
theorem Spent.open_named (h : Spent s (2 ^ 32)) (hr : shmSystem.Reachable s) :
    ∃ s' o, shmSystem.Reachable s' ∧ s'.fd = opened oneProc o ∧ (s'.procs 0).releasing = [] ∧
      s'.returned 1 = true ∧ s'.t.names [97] = some o ∧ s'.t.segs 1 = some o ∧
      s'.t.objs o = ⟨1, [97], none, 0, 1, false⟩ := by
  have hrun : s.fd.running 0 = true := by
    rw [h.fd]
    rfl
  have hone : s.t.next = 1 := by
    rw [h.next]
    decide
  have hl : s.t.lookupName [97] O_CREAT = .ok ({ s.t.newSegment [97] none with
      names := update (s.t.newSegment [97] none).names [97] (some s.t.nobjs) },
      s.t.nobjs) := by
    unfold lookupName
    rw [h.names [97]]
    rfl
  have hnew : (s.t.newSegment [97] none).objs s.t.nobjs = ⟨1, [97], none, 0, 0, false⟩ := by
    unfold newSegment
    rw [hone]
    exact update_self ..
  obtain ⟨r, hs⟩ := step_open hrun h.idle hl
  refine ⟨_, s.t.nobjs, hr.step hs, ?_, h.idle, h.returned (by decide), ?_, ?_, ?_⟩
  · rw [← h.fd]
    rfl
  · show update (s.t.newSegment [97] none).names [97] (some s.t.nobjs) [97] = _
    rw [update_self]
  · show update s.t.segs s.t.next (some s.t.nobjs) 1 = _
    rw [hone, update_self]
  · show update (s.t.newSegment [97] none).objs s.t.nobjs
      { (s.t.newSegment [97] none).objs s.t.nobjs with
        fds := ((s.t.newSegment [97] none).objs s.t.nobjs).fds + 1 } s.t.nobjs = _
    rw [update_self, hnew]
    rfl

theorem remove_open {t : ShmTable} {o : ℕ} (hseg : t.segs 1 = some o)
    (hobj : t.objs o = ⟨1, [97], none, 0, 1, false⟩) :
    t.remove 1 = (t.setObj o ⟨1, [97], none, 0, 1, true⟩, 0) := by
  unfold remove
  rw [hseg]
  dsimp only
  rw [hobj]
  have hkept : (t.setObj o ⟨1, [97], none, 0, 1, true⟩).maybeFree o =
      t.setObj o ⟨1, [97], none, 0, 1, true⟩ := by
    unfold maybeFree
    have hself : (t.setObj o ⟨1, [97], none, 0, 1, true⟩).objs o = ⟨1, [97], none, 0, 1, true⟩ :=
      update_self ..
    rw [hself]
    rfl
  exact congrArg (·, (0 : ℤ)) hkept

/-- The id is removed and the descriptor closed: the name still leads to the object. -/
theorem freed_named : ∃ s o, shmSystem.Reachable s ∧
    s.fd = ((opened oneProc o).close 0 FDBase).1 ∧ (s.procs 0).releasing = [] ∧
    s.t.names [97] = some o ∧ 0 < s.t.frees o := by
  obtain ⟨s0, hr0, hspent⟩ := spent_reach (2 ^ 32)
  obtain ⟨s, o, hr, hfd, hrel, hret, hname, hseg, hobj⟩ := hspent.open_named hr0
  have hrun : s.fd.running 0 = true := by
    rw [hfd]
    rfl
  -- the id `1` was returned by `create`
  have h1 : shmSystem.step s (.call 0 (.remove 1)) =
      some ({ s with t := s.t.setObj o ⟨1, [97], none, 0, 1, true⟩ }, .ret 0) := by
    rw [step_call hrun hrel]
    show (if s.returned 1 then some (s.locked (s.t.remove 1)) else none) = _
    rw [hret, remove_open hseg hobj]
    rfl
  set s1 : ShmState := { s with t := s.t.setObj o ⟨1, [97], none, 0, 1, true⟩ } with hs1
  have hfd1 : s1.fd = opened oneProc o := hfd
  have h2 : shmSystem.step s1 (.fd (.close 0 FDBase)) = some (s1.withFd (.close 0 FDBase)
      (s1.fd.close 0 FDBase).1, .ret (s1.fd.close 0 FDBase).2) := by
    have hidle : s1.idle 0 = true := idle_iff.mpr ⟨hrun, hrel⟩
    show (if s1.idle 0 then (some (s1.fd.close 0 FDBase)).map _ else none) = _
    rw [if_pos hidle]
    rfl
  rw [hfd1] at h2
  set s2 := s1.withFd (.close 0 FDBase) ((opened oneProc o).close 0 FDBase).1 with hs2
  have hrel2 : (s2.procs 0).releasing = [3] := by
    have hgo : letGo (opened oneProc o) ((opened oneProc o).close 0 FDBase).1 0 = [3] := rfl
    rw [hs2, withFd_releasing, hfd1]
    exact hgo
  have h3 : shmSystem.step s2 (.release 0) =
      some (s2.put 0 { s2.procs 0 with releasing := [] } (s2.t.release o), .ret 0) := by
    show s2.step (.release 0) = _
    simp only [ShmState.step, hrel2]
    rfl
  refine ⟨_, o, ((hr.step h1).step h2).step h3, rfl, ?_, ?_, ?_⟩
  · rw [put_self]
  · show (s1.t.release o).names [97] = some o
    obtain ⟨-, hnames, -⟩ := maybeFree_rest
      (s1.t.setObj o { s1.t.objs o with fds := (s1.t.objs o).fds - 1 }) o
    rw [release, hnames]
    exact hname
  · show 0 < (s1.t.release o).frees o
    have hobj1 : s1.t.objs o = ⟨1, [97], none, 0, 1, true⟩ := update_self ..
    have hself : (s1.t.setObj o { s1.t.objs o with fds := (s1.t.objs o).fds - 1 }).objs o =
        ⟨1, [97], none, 0, 0, true⟩ := by
      rw [hobj1]
      exact update_self ..
    rw [release, maybeFree_frees, hself, if_pos rfl]
    exact Nat.succ_pos _

/-- After `2 ^ 32` segments, `remove` of an id that `create` returned frees a named object, which is
opened again. -/
theorem freed_while_open : ∃ s o, shmSystem.Reachable s ∧ 0 < s.t.frees o ∧
    s.fd.get 0 FDBase = some 4 ∧ (s.fd.files 4).f = .shmFile o := by
  obtain ⟨s, o, hr, hfd, hrel, hname, hfree⟩ := freed_named
  have hrun : s.fd.running 0 = true := by
    rw [hfd]
    rfl
  have hl : s.t.lookupName [97] 0 = .ok (s.t, o) := by
    unfold lookupName
    rw [hname]
    rfl
  obtain ⟨r, hs⟩ := step_open hrun hrel hl
  have hfd' : ((s.addShm 0 o).fd) = opened ((opened oneProc o).close 0 FDBase).1 o := by
    rw [← hfd]
    rfl
  refine ⟨_, o, hr.step hs, hfree, ?_, ?_⟩
  · show (s.addShm 0 o).fd.get 0 FDBase = some 4
    rw [hfd']
    rfl
  · show ((s.addShm 0 o).fd.files 4).f = .shmFile o
    rw [hfd']
    rfl

end PgZero.Kernel
