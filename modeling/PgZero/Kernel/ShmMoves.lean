import PgZero.Kernel.ShmAccount

/-!
# Changes of the table of segments

Whatever a process does to shared memory is, for the table, a list of five kinds of changes. What
each of them keeps, every call keeps. Four calls make, name or remove a segment; all others only
change the counts and the memory of segments.

* **`tableCase_of_step`**: every step of `shmAnySystem` is one of the four calls or a list of quiet
  changes.
-/

set_option autoImplicit false

namespace PgZero.Kernel

open Function Lib ShmState

/-- As `step`, with `remove` of any id. -/
def ShmState.stepAny (s : ShmState) : ShmAct → Option (ShmState × ShmAns)
  | .call p (.remove id) => if s.idle p then some (s.locked (s.t.remove id)) else none
  | a => s.step a

/-- The processes, with `remove` of any id. -/
def shmAnySystem : System ShmState ShmAct ShmAns where
  init s := ∃ reserved, s = .start reserved
  step := ShmState.stepAny

/-- A change of one segment that leaves its id, its name and `removed` alone. -/
inductive QuietMove (t : ShmTable) : ShmTable → Prop
  /-- its memory stays once it has some -/
  | obj (o : ℕ) (x : Segment) (hid : x.id = (t.objs o).id) (hname : x.name = (t.objs o).name)
      (hrem : x.removed = (t.objs o).removed)
      (hseg : (t.objs o).seg = none ∨ x.seg = (t.objs o).seg) : QuietMove t (t.setObj o x)
  | free (o : ℕ) : QuietMove t (t.maybeFree o)

/-- A list of quiet changes. -/
abbrev QuietMoves : ShmTable → ShmTable → Prop := Relation.ReflTransGen QuietMove

/-- One change of the table. -/
inductive TableMove (t : ShmTable) : ShmTable → Prop
  /-- a segment changes; its id stays, and its memory once it has some -/
  | obj (o : ℕ) (x : Segment) (hid : x.id = (t.objs o).id)
      (hseg : (t.objs o).seg = none ∨ x.seg = (t.objs o).seg) : TableMove t (t.setObj o x)
  | free (o : ℕ) : TableMove t (t.maybeFree o)
  | new (name : List UInt8) (seg : Option ℕ) : TableMove t (t.newSegment name seg)
  | forget (n : List UInt8) :
      TableMove t { t with names := update t.names n none }
  | name (n : List UInt8) (o : ℕ) (ho : o < t.nobjs) :
      TableMove t { t with names := update t.names n (some o) }

/-- A list of changes. -/
abbrev TableMoves : ShmTable → ShmTable → Prop := Relation.ReflTransGen TableMove

variable {s s' : ShmState} {t t' : ShmTable} {p o : ℕ}

/-! ### Quiet sections -/

namespace QuietMoves

theorem touch {x : Segment} (hid : x.id = (t.objs o).id) (hname : x.name = (t.objs o).name)
    (hrem : x.removed = (t.objs o).removed) (hseg : x.seg = (t.objs o).seg) :
    QuietMoves t ((t.setObj o x).maybeFree o) :=
  .tail (.single (.obj o x hid hname hrem (.inr hseg))) (.free o)

theorem detach (t : ShmTable) (o : ℕ) : QuietMoves t (t.detach o) := by
  refine touch ?_ ?_ ?_ ?_ <;> rfl

theorem release (t : ShmTable) (o : ℕ) : QuietMoves t (t.release o) := by
  refine touch ?_ ?_ ?_ ?_ <;> rfl

theorem foldlDetach (l : List ℕ) (t : ShmTable) : QuietMoves t (l.foldl ShmTable.detach t) := by
  induction l generalizing t with
  | nil => exact .refl
  | cons o l ih => exact (detach t o).trans (ih (t.detach o))

theorem mapLocked {q q' : ShmProc} {size addr length : ℕ} {ok : Bool}
    (hm : t.mapLocked q o size addr length ok = .ok (t', q')) : QuietMoves t t' := by
  unfold ShmTable.mapLocked at hm
  split at hm
  · cases hm
  · cases hm
    exact .tail (foldlDetach _ t) (.obj o _ rfl rfl rfl (.inr rfl))

theorem truncate (t : ShmTable) (o : ℕ) (size : BitVec 32) (ok : Bool) :
    QuietMoves t (t.truncate o size ok).1 := by
  unfold ShmTable.truncate
  split
  · split <;> exact .refl
  · rename_i hnone
    split
    · exact .refl
    · split
      · exact .refl
      · exact .single (.obj o _ rfl rfl rfl (.inl hnone))

theorem mapped {x : Except MemErr (ShmTable × ShmProc)}
    (hx : ∀ t q, x = .ok (t, q) → QuietMoves s.t t) : QuietMoves s.t (s.mapped p x).1.t := by
  cases x with
  | ok y => exact hx y.1 y.2 rfl
  | error e => cases e <;> exact .refl

theorem attach (id addr : BitVec 32) (ok : Bool) :
    QuietMoves s.t (s.attach p id addr ok).1.t := by
  unfold ShmState.attach
  split
  · exact .refl
  · split
    · exact mapped fun t q hm => mapLocked hm
    · exact .refl

theorem mapFd (fd : ℤ) (addr n : BitVec 32) (ok : Bool) :
    QuietMoves s.t (s.mapFd p fd addr n ok).1.t := by
  unfold ShmState.mapFd
  split
  · exact .refl
  · split
    · exact .refl
    · exact mapped fun t q hm => mapLocked hm

theorem unmap (addr n : BitVec 32) (ok : Bool) : QuietMoves s.t (s.unmap p addr n ok).1.t := by
  refine mapped fun t q hm => ?_
  split at hm
  · cases hm
  · cases hm
    exact foldlDetach _ s.t

end QuietMoves

/-! ### Steps -/

/-- What a step does to the table. -/
inductive TableCase (s : ShmState) : ShmAct → ShmTable → Prop
  | quiet (a : ShmAct) (t : ShmTable) (h : QuietMoves s.t t) : TableCase s a t
  | create (p : ℕ) (size : BitVec 32) (ok : Bool) :
      TableCase s (.call p (.create size ok)) (s.t.create size ok).1
  | openShm (p : ℕ) (name : List UInt8) (flags : BitVec 32) :
      TableCase s (.call p (.open (some name) flags)) (s.openShm p name flags).1.t
  | remove (p : ℕ) (id : BitVec 32) : TableCase s (.call p (.remove id)) (s.t.remove id).1
  | unlink (p : ℕ) (name : List UInt8) :
      TableCase s (.call p (.unlink (some name))) (s.t.unlink name).1

theorem tableCase_of_call {c : ShmCall} {r : ShmState × ShmAns} (hc : s.call p c = some r) :
    TableCase s (.call p c) r.1.t := by
  cases c with
  | create size ok => cases hc; exact .create p size ok
  | size id => cases hc; exact .quiet _ _ .refl
  | attach id addr ok => cases hc; exact .quiet _ _ (.attach id addr ok)
  | remove id =>
    obtain ⟨-, he⟩ := Option.ite_none_right_eq_some.mp hc
    cases he
    exact .remove p id
  | «open» name flags =>
    cases hc
    cases name with
    | none => exact .quiet _ _ .refl
    | some name => exact .openShm p name flags
  | unlink name =>
    cases hc
    cases name with
    | none => exact .quiet _ _ .refl
    | some name => exact .unlink p name
  | truncate fd size ok =>
    cases hc
    cases s.shmFD p fd with
    | error e => exact .quiet _ _ .refl
    | ok o => exact .quiet _ _ (.truncate s.t o size ok)
  | fdSize fd =>
    cases hc
    cases s.shmFD p fd with
    | error e | ok o => exact .quiet _ _ .refl
  | mapFd fd addr n ok => cases hc; exact .quiet _ _ (.mapFd fd addr n ok)
  | unmap addr n ok => cases hc; exact .quiet _ _ (.unmap addr n ok)
  | grow size ok =>
    cases hc
    refine .quiet _ _ ?_
    unfold ShmState.grow
    split <;> exact .refl

theorem stepAny_cases {a : ShmAct} {r : ShmAns} (hs : s.stepAny a = some (s', r)) :
    s.step a = some (s', r) ∨
    ∃ p id, a = .call p (.remove id) ∧ (s', r) = s.locked (s.t.remove id) := by
  cases a with
  | call p c =>
    cases c with
    | remove id =>
      obtain ⟨-, he⟩ := Option.ite_none_right_eq_some.mp hs
      exact .inr ⟨p, id, rfl, (Option.some.inj he).symm⟩
    | _ => exact .inl hs
  | _ => exact .inl hs

/-- **Every step** makes, names or removes a segment, or is a list of quiet changes. -/
theorem tableCase_of_step {a : ShmAct} {r : ShmAns} (hs : shmAnySystem.step s a = some (s', r)) :
    TableCase s a s'.t := by
  rcases stepAny_cases hs with hs | ⟨p, id, rfl, he⟩
  · cases a with
    | call p c =>
      obtain ⟨-, hc⟩ := Option.ite_none_right_eq_some.mp hs
      exact tableCase_of_call hc
    | fd c =>
      obtain ⟨-, hc⟩ := Option.ite_none_right_eq_some.mp hs
      obtain ⟨⟨fd, n⟩, -, he⟩ := Option.map_eq_some_iff.mp hc
      cases he
      exact .quiet _ _ .refl
    | release p =>
      simp only [ShmState.step] at hs
      split at hs
      · split at hs
        · cases hs
          exact .quiet _ _ (.release _ _)
        · cases hs
      · cases hs
    | detachAll p =>
      obtain ⟨-, he⟩ := Option.ite_none_right_eq_some.mp hs
      cases he
      exact .quiet _ _ (.foldlDetach _ _)
  · cases he
    exact .remove p id

namespace TableMoves

theorem of_quiet (h : QuietMoves t t') : TableMoves t t' := by
  refine Relation.ReflTransGen.mono (fun t t' hm => ?_) _ _ h
  cases hm with
  | obj o x hid _ _ hseg => exact .obj o x hid hseg
  | free o => exact .free o

theorem touch {x : Segment} (hid : x.id = (t.objs o).id) (hseg : x.seg = (t.objs o).seg) :
    TableMoves t ((t.setObj o x).maybeFree o) :=
  .tail (.single (.obj o x hid (.inr hseg))) (.free o)

theorem create (t : ShmTable) (size : BitVec 32) (ok : Bool) :
    TableMoves t (t.create size ok).1 := by
  unfold ShmTable.create
  split
  · exact .refl
  · split
    · exact .refl
    · exact .single (.new _ _)

theorem remove (t : ShmTable) (id : BitVec 32) : TableMoves t (t.remove id).1 := by
  unfold ShmTable.remove
  split
  · exact .refl
  · split
    · exact .refl
    · refine touch ?_ ?_ <;> rfl

theorem unlink (t : ShmTable) (name : List UInt8) : TableMoves t (t.unlink name).1 := by
  unfold ShmTable.unlink
  split
  · exact .refl
  · rename_i o _
    have h : TableMoves t { t with names := update t.names name none } :=
      .single (.forget name)
    refine h.trans (touch ?_ ?_) <;> rfl

theorem lookupName {name : List UInt8} {flags : BitVec 32}
    (hl : t.lookupName name flags = .ok (t', o)) : TableMoves t t' := by
  unfold ShmTable.lookupName at hl
  split at hl
  · split at hl
    · cases hl
    · cases hl
      exact .refl
  · split at hl
    · cases hl
    · cases hl
      exact .tail (.single (.new name none)) (.name name _ (Nat.lt_succ_self _))

theorem openShm (name : List UInt8) (flags : BitVec 32) :
    TableMoves s.t (s.openShm p name flags).1.t := by
  unfold ShmState.openShm
  split
  · exact .refl
  · rename_i hl
    exact .tail (lookupName hl) (.obj _ _ rfl (.inr rfl))

theorem of_case {a : ShmAct} (h : TableCase s a t) : TableMoves s.t t := by
  cases h with
  | quiet _ _ hq => exact of_quiet hq
  | create p size ok => exact create s.t size ok
  | openShm p name flags => exact openShm name flags
  | remove p id => exact remove s.t id
  | unlink p name => exact unlink s.t name

end TableMoves

theorem TableMoves.of_run {tr : List (ShmAct × ShmAns)} (h : shmAnySystem.Run s tr s') :
    TableMoves s.t s'.t := by
  refine h.invariant (P := fun s' => TableMoves s.t s'.t) (fun _ _ _ _ ih hs => ?_) .refl
  exact ih.trans (of_case (tableCase_of_step hs))

/-! ### The memory of a segment -/

theorem TableMove.mono (h : TableMove t t') :
    t.nobjs ≤ t'.nobjs ∧ ∀ o, t.frees o ≤ t'.frees o := by
  cases h with
  | obj o x => exact ⟨le_rfl, fun _ => le_rfl⟩
  | free o =>
    refine ⟨(maybeFree_rest t o).1.ge, fun i => ?_⟩
    rw [maybeFree_frees]
    exact Nat.le_add_right _ _
  | new name seg => exact ⟨Nat.le_succ _, fun _ => le_rfl⟩
  | forget n | name n o => exact ⟨le_rfl, fun _ => le_rfl⟩

theorem TableMove.seg (h : TableMove t t') {i n : ℕ} (hi : i < t.nobjs)
    (hseg : (t.objs i).seg = some n) (hf : t'.frees i = t.frees i) : (t'.objs i).seg = some n := by
  cases h with
  | obj o x hid hx =>
    by_cases hio : i = o
    · subst hio
      rw [hseg] at hx
      exact (congrArg Segment.seg (update_self ..)).trans (hx.resolve_left nofun)
    · exact (congrArg Segment.seg (update_of_ne hio _ _)).trans hseg
  | free o =>
    rw [maybeFree_frees] at hf
    unfold ShmTable.maybeFree
    dsimp only
    split
    · rename_i hu
      have hio : i ≠ o := by
        intro he
        rw [if_pos he, Segment.unused_iff.mpr hu] at hf
        exact absurd hf (Nat.succ_ne_self _)
      exact (congrArg Segment.seg (update_of_ne hio _ _)).trans hseg
    · exact hseg
  | new name seg =>
    rw [newSegment_obj_of_ne (ne_of_lt hi)]
    exact hseg
  | forget n => exact hseg
  | name n o => exact hseg

theorem TableMoves.seg (h : TableMoves t t') {i n : ℕ} (hi : i < t.nobjs)
    (hseg : (t.objs i).seg = some n) (hf : t'.frees i = t.frees i) : (t'.objs i).seg = some n := by
  suffices h : i < t'.nobjs ∧ t.frees i ≤ t'.frees i ∧
      (t'.frees i = t.frees i → (t'.objs i).seg = some n) from h.2.2 hf
  clear hf
  induction h with
  | refl => exact ⟨hi, le_rfl, fun _ => hseg⟩
  | tail _ hm ih =>
    obtain ⟨hlt, hle, ih⟩ := ih
    obtain ⟨hn, hfr⟩ := hm.mono
    have hfi := hfr i
    refine ⟨hlt.trans_le hn, hle.trans hfi, fun hf => ?_⟩
    exact hm.seg hlt (ih (by omega)) (by omega)

end PgZero.Kernel
