import PgZero.Kernel.ShmMoves

/-!
# The names of shared memory

`unlink` takes the name away and marks the segment as removed; `remove` marks the segment that an id
leads to, and leaves the names. Anonymous segments and named objects share one space of ids, so
`remove` of the id of a named object leaves a name that leads to a removed segment.

* **`names_valid`**: in the runs that meet it, while ids are left, every name is right, and `open`
  without `O_CREAT` gives only objects that are neither removed nor freed.
* **`open_freed`**: without it, `open` gives a descriptor for an object that has been freed.
-/

set_option autoImplicit false

namespace PgZero.Kernel

open Function Lib ShmState

/-- Segment `o` is in the table under its id, carries the name `n` and is not removed. -/
def ShmTable.Names (t : ShmTable) (n : List UInt8) (o : ℕ) : Prop :=
  t.segs (t.objs o).id = some o ∧ (t.objs o).name = n ∧ (t.objs o).removed = false

/-- A name leads to a segment with this name that is not removed. -/
structure NamesInv (t : ShmTable) : Prop extends IdsInv t where
  removed : ∀ o, (t.objs o).removed = true → o < t.nobjs
  freed : ∀ o, t.frees o ≠ 0 → (t.objs o).removed = true
  named : ∀ n o, t.names n = some o → (t.objs o).name = n ∧ (t.objs o).removed = false
  bound : t.nobjs < 2 ^ 31

variable {s s' : ShmState} {t t' : ShmTable} {p o : ℕ} {x : Segment}

namespace NamesInv

theorem init : NamesInv .init :=
  ⟨IdsInv.init, nofun, fun _ ho => absurd rfl ho, nofun, Nat.two_pow_pos 31⟩

theorem names (h : NamesInv t) (n : List UInt8) (o : ℕ) (hn : t.names n = some o) :
    o < t.nobjs ∧ t.Names n o := by
  obtain ⟨hname, hrem⟩ := h.named n o hn
  have hlt := h.made n o hn
  refine ⟨hlt, h.live h.bound o hlt (by_contra fun hf => ?_), hname, hrem⟩
  rw [h.freed o hf] at hrem
  cases hrem

theorem unnamed (h : NamesInv t) (hn : t.names (t.objs o).name ≠ some o) (n : List UInt8) :
    t.names n ≠ some o := fun he =>
  hn (by rw [(h.named n o he).1]; exact he)

/-! ### Sections of the table -/

theorem setObj (h : NamesInv t) (hid : x.id = (t.objs o).id) (hname : x.name = (t.objs o).name)
    (hrem : x.removed = (t.objs o).removed ∨
      x.removed = true ∧ o < t.nobjs ∧ ∀ n, t.names n ≠ some o) : NamesInv (t.setObj o x) := by
  have hother : ∀ i, i ≠ o → (t.setObj o x).objs i = t.objs i := fun i hi =>
    update_of_ne hi _ _
  have hself : (t.setObj o x).objs o = x := update_self ..
  refine ⟨h.toIdsInv.setObj hid, fun i hi => ?_, fun i hi => ?_, fun n i hi => ?_, h.bound⟩
  · by_cases hio : i = o
    · subst hio
      rw [hself] at hi
      rcases hrem with he | ⟨-, hlt, -⟩
      · exact h.removed i (he ▸ hi)
      · exact hlt
    · rw [hother i hio] at hi
      exact h.removed i hi
  · have hi' := h.freed i hi
    by_cases hio : i = o
    · subst hio
      rw [hself]
      rcases hrem with he | ⟨he, -⟩
      · exact he.trans hi'
      · exact he
    · rw [hother i hio]
      exact hi'
  · obtain ⟨hn, hr⟩ := h.named n i hi
    by_cases hio : i = o
    · subst hio
      rw [hself]
      rcases hrem with he | ⟨-, -, hno⟩
      · exact ⟨hname.trans hn, he.trans hr⟩
      · exact absurd hi (hno n)
    · rw [hother i hio]
      exact ⟨hn, hr⟩

theorem maybeFree (h : NamesInv t) (o : ℕ) : NamesInv (t.maybeFree o) := by
  obtain ⟨hnobjs, hnames, -⟩ := maybeFree_rest t o
  refine ⟨h.toIdsInv.maybeFree o, fun i hi => ?_, fun i hi => ?_, fun n i hi => ?_, ?_⟩
  · obtain ⟨seg, hg⟩ := maybeFree_obj t o i
    rw [hg] at hi
    rw [hnobjs]
    exact h.removed i hi
  · obtain ⟨seg, hg⟩ := maybeFree_obj t o i
    rw [hg]
    rw [maybeFree_frees] at hi
    by_cases h0 : t.frees i = 0
    · rw [h0, Nat.zero_add] at hi
      split at hi
      · rename_i hio
        subst hio
        cases hu : (t.objs i).unused with
        | false => exact absurd (by rw [hu]; rfl) hi
        | true => exact (Segment.unused_iff.mp hu).1
      · exact absurd rfl hi
    · exact h.freed i h0
  · obtain ⟨seg, hg⟩ := maybeFree_obj t o i
    rw [hnames] at hi
    rw [hg]
    exact h.named n i hi
  · rw [hnobjs]
    exact h.bound

theorem forget (h : NamesInv t) (name : List UInt8) :
    NamesInv { t with names := update t.names name none } := by
  refine ⟨h.toIdsInv.setName (by simp), h.removed, h.freed, fun n i hi => ?_, h.bound⟩
  dsimp only at hi
  rw [update_apply] at hi
  split at hi
  · cases hi
  · exact h.named n i hi

theorem newSegment (h : NamesInv t) (hn : 0 < t.next.toInt) (name : List UInt8)
    (seg : Option ℕ) : NamesInv (t.newSegment name seg) := by
  refine ⟨h.toIdsInv.newSegment name seg, fun i hi => ?_, fun i hi => ?_, fun n i hi => ?_,
    succ_lt_of_next_pos h.next h.bound hn⟩
  · by_cases hin : i = t.nobjs
    · rw [hin]
      exact Nat.lt_succ_self _
    · rw [newSegment_obj_of_ne hin] at hi
      exact Nat.lt_succ_of_lt (h.removed i hi)
  · have hrem := h.freed i hi
    rw [newSegment_obj_of_ne (ne_of_lt (h.removed i hrem))]
    exact hrem
  · rw [newSegment_obj_of_ne (ne_of_lt (h.made n i hi))]
    exact h.named n i hi

theorem quiet (h : NamesInv t) (hm : QuietMoves t t') : NamesInv t' := by
  induction hm with
  | refl => exact h
  | tail _ hm ih =>
    cases hm with
    | obj o x hid hname hrem => exact ih.setObj hid hname (.inl hrem)
    | free o => exact ih.maybeFree o

theorem create (h : NamesInv t) {size : BitVec 32} {ok : Bool}
    (hids : size ≠ 0 → ok = true → 0 < t.next.toInt) : NamesInv (t.create size ok).1 := by
  unfold ShmTable.create
  split
  · exact h
  · rename_i h0
    split
    · exact h
    · rename_i hok
      exact h.newSegment (hids h0 (by simpa using hok)) _ _

theorem remove (h : NamesInv t) {id : BitVec 32}
    (hn : ∀ o ∈ t.segs id, t.names (t.objs o).name ≠ some o) : NamesInv (t.remove id).1 := by
  unfold ShmTable.remove
  split
  · exact h
  · rename_i o ho
    split
    · exact h
    · refine maybeFree ?_ o
      exact h.setObj rfl rfl (.inr ⟨rfl, (h.segs id o ho).1, h.unnamed (hn o ho)⟩)

theorem unlink (h : NamesInv t) (name : List UInt8) : NamesInv (t.unlink name).1 := by
  unfold ShmTable.unlink
  split
  · exact h
  · rename_i o ho
    refine maybeFree ?_ o
    refine (h.forget name).setObj rfl rfl (.inr ⟨rfl, h.made name o ho, fun n hn => ?_⟩)
    dsimp only at hn
    rw [update_apply] at hn
    split at hn
    · cases hn
    · rename_i hne
      exact hne ((h.named n o hn).1.symm.trans (h.named name o ho).1)

theorem lookupName (h : NamesInv t) {name : List UInt8} {flags : BitVec 32}
    (hids : t.names name = none → flags &&& O_CREAT ≠ 0 → 0 < t.next.toInt)
    (hl : t.lookupName name flags = .ok (t', o)) : NamesInv t' := by
  unfold ShmTable.lookupName at hl
  split at hl
  · split at hl
    · cases hl
    · cases hl
      exact h
  · rename_i hnone
    split at hl
    · cases hl
    · rename_i hcreat
      cases hl
      have h' := h.newSegment (hids hnone hcreat) name none
      refine ⟨h'.toIdsInv.setName fun i hi => ?_, h'.removed, h'.freed, fun n i hi => ?_, h'.bound⟩
      · cases hi
        exact Nat.lt_succ_self _
      dsimp only at hi
      rw [update_apply] at hi
      split at hi
      · rename_i hn
        cases hi
        simp [ShmTable.newSegment, hn]
      · exact h'.named n i hi

end NamesInv

/-! ### Steps -/

/-- `remove` is not called for a segment that its name leads to. -/
def KeepsName (s : ShmState) : ShmAct → Prop
  | .call _ (.remove id) => ∀ o ∈ s.t.segs id, s.t.names (s.t.objs o).name ≠ some o
  | _ => True

instance (s : ShmState) : (a : ShmAct) → Decidable (KeepsName s a)
  | .call _ (.remove id) => inferInstanceAs (Decidable (∀ o ∈ s.t.segs id, _))
  | .call _ (.create _ _) | .call _ (.open _ _) | .call _ (.size _) | .call _ (.attach _ _ _)
  | .call _ (.unlink _) | .call _ (.truncate _ _ _) | .call _ (.fdSize _) | .call _ (.mapFd _ _ _ _)
  | .call _ (.unmap _ _ _) | .call _ (.grow _ _) | .fd _ | .release _ | .detachAll _ =>
    inferInstanceAs (Decidable True)

theorem NamesInv.openShm (h : NamesInv s.t) {name : List UInt8} {flags : BitVec 32}
    (hids : IdsLeft s (.call p (.open (some name) flags))) :
    NamesInv (s.openShm p name flags).1.t := by
  unfold ShmState.openShm
  split
  · exact h
  · rename_i t o hl
    exact (h.lookupName hids hl).setObj rfl rfl (.inl rfl)

theorem NamesInv.step (h : NamesInv s.t) {a : ShmAct} (hkeep : KeepsName s a) (hids : IdsLeft s a)
    (hc : TableCase s a t) : NamesInv t := by
  cases hc with
  | quiet _ _ hq => exact h.quiet hq
  | create p size ok => exact h.create hids
  | openShm p name flags => exact h.openShm hids
  | remove p id => exact h.remove hkeep
  | unlink p name => exact h.unlink name

/-! ### Runs -/

/-- `open` of a name that exists gives a descriptor for the object that it leads to. -/
theorem openShm_existing {name : List UInt8} {flags : BitVec 32} {fd : ℤ}
    (hflags : flags &&& O_CREAT = 0) (hs : s.openShm p name flags = (s', .ret fd)) (hfd : 0 ≤ fd) :
    ∃ o, s.t.names name = some o ∧ s'.shmFD p fd = .ok o ∧
      s'.t = s.t.setObj o { s.t.objs o with fds := (s.t.objs o).fds + 1 } := by
  unfold ShmState.openShm ShmTable.lookupName at hs
  cases ho : s.t.names name with
  | none =>
    simp only [ho, if_pos hflags] at hs
    cases hs
    exact absurd hfd (by decide)
  | some o =>
    simp only [ho, hflags, ne_eq, not_true_eq_false, false_and, if_false] at hs
    cases hs
    refine ⟨o, rfl, ?_, rfl⟩
    have hget : (((s.fd.newOpenFile (.shmFile o) false).add p s.fd.nfiles false).1).get p
        ((s.fd.newOpenFile (.shmFile o) false).add p s.fd.nfiles false).2 = some s.fd.nfiles := by
      simp [FdState.get, FdState.add, FdState.setTable]
    unfold ShmState.shmFD
    simp only [hget, addNew_f, if_true]

/-- **Names stay valid**, in every run that removes no segment that still has its name and makes
segments only while the next id is positive. -/
theorem names_valid
    (hs : (shmAnySystem.restrict fun s a => KeepsName s a ∧ IdsLeft s a).Reachable s) :
    (∀ n o, s.t.names n = some o → s.t.Names n o) ∧
    ∀ p name flags s' fd, flags &&& O_CREAT = 0 →
      shmAnySystem.step s (.call p (.open (some name) flags)) = some (s', .ret fd) → 0 ≤ fd →
      ∃ o, s'.shmFD p fd = .ok o ∧ s'.t.Names name o ∧ s'.t.frees o = 0 := by
  have h : NamesInv s.t := by
    refine hs.invariant (P := fun s => NamesInv s.t) (fun s0 h₀ => ?_) fun s a s' r h hst => ?_
    · obtain ⟨reserved, rfl⟩ := h₀
      exact .init
    · obtain ⟨⟨hkeep, hids⟩, hst⟩ := System.restrict_step.mp hst
      exact h.step hkeep hids (tableCase_of_step hst)
  refine ⟨fun n o hn => (h.names n o hn).2, fun p name flags s' fd hflags hst hfd => ?_⟩
  obtain ⟨-, hopen⟩ := Option.ite_none_right_eq_some.mp hst
  obtain ⟨o, ho, hdesc, ht⟩ := openShm_existing hflags (Option.some.inj hopen) hfd
  have h' : NamesInv s'.t := ht ▸ h.setObj rfl rfl (.inl rfl)
  have hnames : s'.t.Names name o := by
    refine (h'.names name o ?_).2
    rw [ht]
    exact ho
  refine ⟨o, hdesc, hnames, by_contra fun hf => ?_⟩
  have hrem := hnames.2.2
  rw [h'.freed o hf] at hrem
  cases hrem

/-- An anonymous segment is removed, and with it its id; the named object stays as it is. -/
theorem names_valid_remove : ∃ s,
    (shmAnySystem.restrict fun s a => KeepsName s a ∧ IdsLeft s a).Reachable s ∧
    s.t.segs 1 = none ∧ s.t.frees 0 = 1 ∧ s.t.Names [97] 1 ∧
    ∃ s', shmAnySystem.step s (.call 0 (.open (some [97]) 0)) = some (s', .ret (FDBase + 1)) ∧
      ∃ o, s'.shmFD 0 (FDBase + 1) = .ok o ∧ s'.t.Names [97] o ∧ s'.t.frees o = 0 := by
  have hr := @System.reachable_of_exec _ _ _
    (shmAnySystem.restrict fun s a => KeepsName s a ∧ IdsLeft s a) (.start fun _ => 0) _
    [.fd .start, .call 0 (.create 1 true), .call 0 (.open (some [97]) O_CREAT),
      .call 0 (.remove 1)] _ ⟨_, rfl⟩ rfl
  obtain ⟨h1, h2⟩ := names_valid hr
  exact ⟨_, hr, rfl, rfl, h1 [97] 1 rfl, _, rfl, h2 0 [97] 0 _ _ rfl rfl (by decide)⟩

/-- **`open` of a freed object**: its id was removed, and its name stays. -/
theorem open_freed : ∃ s, shmAnySystem.Reachable s ∧ s.t.names [97] = some 0 ∧
    (s.t.objs 0).id = 1 ∧ s.t.segs 1 = none ∧ (s.t.objs 0).removed = true ∧ s.t.frees 0 = 1 ∧
    ∃ s', shmAnySystem.step s (.call 0 (.open (some [97]) 0)) = some (s', .ret FDBase) ∧
      s'.shmFD 0 FDBase = .ok 0 :=
  ⟨_, @System.reachable_of_exec _ _ _ shmAnySystem (.start fun _ => 0) _
    [.fd .start, .call 0 (.open (some [97]) O_CREAT), .fd (.close 0 FDBase), .release 0,
      .call 0 (.remove 1)] _ ⟨_, rfl⟩ rfl, rfl, rfl, rfl, rfl, rfl, _, rfl, rfl⟩

end PgZero.Kernel
