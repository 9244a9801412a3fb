import PgZero.Lib.System
import PgZero.Lib.HostFs
import PgZero.Memfs.Unpack
import PgZero.Mktar.Walk

/-!
# The data directory

`initDataDir` leaves a directory that has a `PG_VERSION` alone, refuses any other that is not empty,
and unpacks the template archive into the rest. It does so step by step on the host's filesystem:
every step may fail, and the process may be cut off before any of them.

* **`init_complete`**: in the runs that meet it, a call that returns nil leaves every entry.
* **`init_partial`**: without it, a call returns nil and an entry is missing.
-/

set_option autoImplicit false

namespace PgZero.Server

open Lib GoPath Mktar Memfs List HostFs Option

/-! ### The calls -/

/-- `"PG_VERSION"` -/
def pgVersion : Str := [80, 71, 95, 86, 69, 82, 83, 73, 79, 78]

/-- The errors of `initDataDir`. -/
inductive InitErr
  /-- `"%s is not empty and not a database cluster"` -/
  | notEmpty (dir : Str)
  /-- `"template: bad path %q"` -/
  | badPath (name : Str)
  /-- an error of the host or of the archive's reader -/
  | host
  deriving DecidableEq, Repr

/-- What the current call does next. -/
inductive Pc
  | idle
  | stat
  | readDir
  /-- `MkdirAll` has the places `todo` before it; then the loop goes on with `es` -/
  | mkdirAll (todo : List Loc) (es : List Member)
  /-- `tr.Next` -/
  | next (es : List Member)
  | openFile (e : Member) (es : List Member)
  /-- `io.Copy` has still to write `rest` -/
  | copy (l : Loc) (rest : List UInt8) (es : List Member)
  | close (es : List Member)
  deriving DecidableEq, Repr

/-- The host's files, and where the call is. -/
structure InitState where
  fs : HostFs
  pc : Pc

/-- What happens next. -/
inductive InitEv
  /-- `initDataDir` is called -/
  | call
  /-- the next step is done; what it finds depends on the files -/
  | ok
  /-- `io.Copy` writes `n` bytes -/
  | write (n : ℕ)
  /-- the next step fails -/
  | fail
  /-- the process ends -/
  | cut
  deriving DecidableEq, Repr

/-- What the call does. -/
inductive InitAns
  | going
  | ret (err : Option InitErr)
  | cut
  deriving DecidableEq, Repr

namespace InitState

/-- The call goes on. -/
def goto (s : InitState) (pc : Pc) : InitState × InitAns := (⟨s.fs, pc⟩, .going)

/-- The call returns. -/
def finish (s : InitState) (err : Option InitErr) : InitState × InitAns := (⟨s.fs, .idle⟩, .ret err)

/-- A step that changes the files, or finds that it cannot. -/
def change (s : InitState) (fs : Option HostFs) (pc : Pc) : InitState × InitAns :=
  match fs with
  | none => s.finish (some .host)
  | some fs => (⟨fs, pc⟩, .going)

end InitState

section

variable (cwd : Loc) (dir : Str) (archive : List Member)

/-- The place of an entry. -/
def place (e : Member) : Loc := locate cwd (join dir e.name)

/-- The header of the next entry. Entries of other types are passed over. -/
def initEntry (s : InitState) (e : Member) (es : List Member) : InitState × InitAns :=
  if !(clean dir ++ [slash]).isPrefixOf (join dir e.name) then s.finish (some (.badPath e.name))
  else
    match e.typeflag with
    | .typeDir => s.goto (.mkdirAll (prefixes (place cwd dir e)) es)
    | .typeReg => s.goto (.openFile e es)
    | .other => s.goto (.next es)

/-- The next step, when it is done. -/
def initOk (s : InitState) : Option (InitState × InitAns) :=
  match s.pc with
  | .idle => none
  | .stat =>
    some (if (s.fs.lookup (locate cwd (join dir pgVersion))).isSome then s.finish none
      else s.goto .readDir)
  | .readDir =>
    some (if s.fs.lookup (locate cwd dir) = some .dir ∧ s.fs.hasEntry (locate cwd dir) then
        s.finish (some (.notEmpty dir))
      else s.goto (.mkdirAll (prefixes (locate cwd dir)) archive))
  | .mkdirAll [] es => some (s.goto (.next es))
  | .mkdirAll (l :: ls) es => some (s.change (s.fs.mkdir l) (.mkdirAll ls es))
  | .next [] => some (s.finish none)
  | .next (e :: es) => some (initEntry cwd dir s e es)
  | .openFile e es =>
    some (s.change (s.fs.create (place cwd dir e)) (.copy (place cwd dir e) e.content es))
  | .copy _ rest es => if rest = [] then some (s.goto (.close es)) else none
  | .close es => some (s.goto (.next es))

/-- The next step, when it fails. The errors of `Stat` and `ReadDir` are not returned. -/
def initFail (s : InitState) : Option (InitState × InitAns) :=
  match s.pc with
  | .idle => none
  | .stat => some (s.goto .readDir)
  | .readDir => some (s.goto (.mkdirAll (prefixes (locate cwd dir)) archive))
  | .mkdirAll _ _ | .next _ | .openFile _ _ | .copy _ _ _ | .close _ =>
    some (s.finish (some .host))

/-- One step of a call, or a cut. -/
def initStep (s : InitState) : InitEv → Option (InitState × InitAns)
  | .call => if s.pc = .idle then some (s.goto .stat) else none
  | .ok => initOk cwd dir archive s
  | .write n =>
    match s.pc with
    | .copy l rest es =>
      if 0 < n ∧ n ≤ rest.length then
        some (⟨s.fs.append l (rest.take n), .copy l (rest.drop n) es⟩, .going)
      else none
    | _ => none
  | .fail => initFail cwd dir archive s
  | .cut => if s.pc = .idle then none else some (⟨s.fs, .idle⟩, .cut)

/-- The calls on a directory that is missing or empty at first. -/
def initSystem : System InitState InitEv InitAns where
  init s := s.pc = .idle ∧ s.fs.Fresh (locate cwd dir)
  step := initStep cwd dir archive

/-! ### Entries -/

/-- The entry is in the files, with all its content. -/
def Present (fs : HostFs) (e : Member) : Prop :=
  match e.typeflag with
  | .typeDir => fs.lookup (place cwd dir e) = some .dir
  | .typeReg => fs.lookup (place cwd dir e) = some (.file e.content)
  | .other => False

/-- No two regular files have one place. -/
def Distinct : Prop :=
  archive.Pairwise fun e e' => e.typeflag = .typeReg → e'.typeflag = .typeReg →
    place cwd dir e ≠ place cwd dir e'

/-- All entries but `es` are present. -/
def Unpacked (fs : HostFs) (es : List Member) : Prop :=
  ∃ done, done ++ es = archive ∧ ∀ e ∈ done, Present cwd dir fs e

/-- The call has begun to unpack. -/
def Pc.extracting : Pc → Bool
  | .idle | .stat | .readDir => false
  | _ => true

/-- The call ends without success. -/
def InitAns.stops : InitAns → Bool
  | .cut | .ret (some _) => true
  | .going | .ret none => false

/-- If the step stops an extraction, there is no `PG_VERSION`. -/
def EarlyStop (s : InitState) (ev : InitEv) : Prop :=
  ∀ r ∈ initStep cwd dir archive s ev, r.2.stops = true → s.pc.extracting = true →
    s.fs.lookup (locate cwd (join dir pgVersion)) = none

instance (s : InitState) (ev : InitEv) : Decidable (EarlyStop cwd dir archive s ev) :=
  inferInstanceAs (Decidable (∀ r ∈ initStep cwd dir archive s ev, _))

/-- What the files hold between the steps. -/
def InitInv (s : InitState) : Prop :=
  match s.pc with
  | .idle | .stat | .readDir =>
    s.fs.lookup (locate cwd (join dir pgVersion)) ≠ none → ∀ e ∈ archive, Present cwd dir s.fs e
  | .mkdirAll todo es =>
    ∃ done, done ++ es = archive ∧ ∀ e ∈ done, Present cwd dir s.fs e ∨
      e.typeflag = .typeDir ∧ place cwd dir e ∈ todo
  | .next es | .close es => Unpacked cwd dir archive s.fs es
  | .openFile e es => e.typeflag = .typeReg ∧ Unpacked cwd dir archive s.fs (e :: es)
  | .copy l rest es =>
    ∃ e d, e.typeflag = .typeReg ∧ place cwd dir e = l ∧ s.fs.lookup l = some (.file d) ∧
      d ++ rest = e.content ∧ Unpacked cwd dir archive s.fs (e :: es)

end

section

variable {cwd : Loc} {dir : Str} {archive : List Member} {fs fs' : HostFs} {s s' : InitState}
  {e : Member} {es : List Member}

theorem Present.mono (h : Present cwd dir fs e)
    (hmono : ∀ l x, fs.lookup l = some x → fs'.lookup l = some x) : Present cwd dir fs' e := by
  unfold Present at h ⊢
  split at h
  · exact hmono _ _ h
  · exact hmono _ _ h
  · exact h

theorem Present.other {l : Loc} (h : Present cwd dir fs e) (hdir : fs.lookup l ≠ some .dir)
    (hreg : e.typeflag = .typeReg → place cwd dir e ≠ l)
    (hother : ∀ l', l' ≠ l → fs'.lookup l' = fs.lookup l') : Present cwd dir fs' e := by
  unfold Present at h ⊢
  split at h
  · refine (hother _ fun he => hdir ?_).trans h
    rw [← he]
    exact h
  · rename_i ht
    exact (hother _ (hreg ht)).trans h
  · exact h

theorem Unpacked.other (h : Unpacked cwd dir archive fs (e :: es))
    (hd : Distinct cwd dir archive) (he : e.typeflag = .typeReg)
    (hdir : fs.lookup (place cwd dir e) ≠ some .dir)
    (hother : ∀ l', l' ≠ place cwd dir e → fs'.lookup l' = fs.lookup l') :
    Unpacked cwd dir archive fs' (e :: es) := by
  obtain ⟨done, rfl, hdone⟩ := h
  refine ⟨done, rfl, fun x hx => (hdone x hx).other hdir (fun hreg => ?_) hother⟩
  exact (pairwise_append.mp hd).2.2 x hx e mem_cons_self hreg he

theorem Unpacked.snoc (h : Unpacked cwd dir archive fs (e :: es)) (he : Present cwd dir fs e) :
    Unpacked cwd dir archive fs es := by
  obtain ⟨done, rfl, hdone⟩ := h
  refine ⟨done ++ [e], by simp, fun x hx => ?_⟩
  rcases mem_append.mp hx with hx | hx
  · exact hdone x hx
  · exact mem_singleton.mp hx ▸ he

/-! ### Steps -/

theorem InitInv.stop (h : InitInv cwd dir archive s) (hearly : s.pc.extracting = true →
    s.fs.lookup (locate cwd (join dir pgVersion)) = none) :
    InitInv cwd dir archive ⟨s.fs, .idle⟩ := by
  obtain ⟨fs, pc⟩ := s
  cases pc with
  | idle | stat | readDir => exact h
  | _ => exact fun hv => absurd (hearly rfl) hv

theorem InitInv.change {x : Option HostFs} {pc : Pc}
    (hstop : (s.change x pc).2.stops = true → InitInv cwd dir archive ⟨s.fs, .idle⟩)
    (hok : ∀ fs', x = some fs' → InitInv cwd dir archive ⟨fs', pc⟩) :
    InitInv cwd dir archive (s.change x pc).1 := by
  cases x with
  | none => exact hstop rfl
  | some fs' => exact hok fs' rfl

theorem InitInv.entry (h : Unpacked cwd dir archive s.fs (e :: es)) (ht : e.typeflag ≠ .other)
    (hstop : (initEntry cwd dir s e es).2.stops = true → InitInv cwd dir archive ⟨s.fs, .idle⟩) :
    InitInv cwd dir archive (initEntry cwd dir s e es).1 := by
  unfold initEntry at hstop ⊢
  by_cases hpath : (!(clean dir ++ [slash]).isPrefixOf (join dir e.name)) = true
  · rw [if_pos hpath] at hstop ⊢
    exact hstop rfl
  · rw [if_neg hpath]
    split
    · rename_i hdir
      obtain ⟨done, rfl, hdone⟩ := h
      refine ⟨done ++ [e], by simp, fun x hx => ?_⟩
      rcases mem_append.mp hx with hx | hx
      · exact .inl (hdone x hx)
      · rw [mem_singleton.mp hx]
        exact .inr ⟨hdir, mem_prefixes _⟩
    · rename_i hreg
      exact ⟨hreg, h⟩
    · rename_i hother
      exact absurd hother ht

theorem InitInv.mkdir {l : Loc} {ls : List Loc}
    (h : InitInv cwd dir archive ⟨fs, .mkdirAll (l :: ls) es⟩) (hm : fs.mkdir l = some fs') :
    InitInv cwd dir archive ⟨fs', .mkdirAll ls es⟩ := by
  obtain ⟨done, harch, hdone⟩ := h
  refine ⟨done, harch, fun x hx => ?_⟩
  rcases hdone x hx with hp | ⟨hdir, hmem⟩
  · exact .inl (hp.mono fun _ _ hx => mkdir_other hm hx)
  · rcases mem_cons.mp hmem with he | hmem
    · left
      unfold Present
      rw [hdir, he]
      exact mkdir_self hm
    · exact .inr ⟨hdir, hmem⟩

theorem InitInv.create (hd : Distinct cwd dir archive)
    (h : InitInv cwd dir archive ⟨fs, .openFile e es⟩)
    (hc : fs.create (place cwd dir e) = some fs') :
    InitInv cwd dir archive ⟨fs', .copy (place cwd dir e) e.content es⟩ := by
  obtain ⟨hreg, hu⟩ := h
  obtain ⟨hdir, hself⟩ := create_self hc
  exact ⟨e, [], hreg, rfl, hself, rfl,
    hu.other hd hreg hdir fun l' hne => create_other hc hne⟩

theorem InitInv.append (hd : Distinct cwd dir archive) {l : Loc} {rest : List UInt8}
    (h : InitInv cwd dir archive ⟨fs, .copy l rest es⟩) (n : ℕ) :
    InitInv cwd dir archive ⟨fs.append l (rest.take n), .copy l (rest.drop n) es⟩ := by
  obtain ⟨e, d, hreg, rfl, hfile, hcontent, hu⟩ := h
  have hdir : fs.lookup (place cwd dir e) ≠ some .dir := by
    rw [hfile]
    nofun
  refine ⟨e, d ++ rest.take n, hreg, rfl, append_self hfile _, ?_,
    hu.other hd hreg hdir fun l' hne => append_other hne _⟩
  rw [append_assoc, take_append_drop, hcontent]

theorem InitInv.copied {l : Loc} (h : InitInv cwd dir archive ⟨fs, .copy l [] es⟩) :
    InitInv cwd dir archive ⟨fs, .close es⟩ := by
  obtain ⟨e, d, hreg, rfl, hfile, hcontent, hu⟩ := h
  refine hu.snoc ?_
  unfold Present
  rw [hreg]
  rw [append_nil] at hcontent
  rw [← hcontent]
  exact hfile

theorem InitInv.ok (htypes : ∀ e ∈ archive, e.typeflag ≠ .other) (hd : Distinct cwd dir archive)
    {r : InitState × InitAns} (h : InitInv cwd dir archive s)
    (hstop : r.2.stops = true → InitInv cwd dir archive ⟨s.fs, .idle⟩)
    (hst : initOk cwd dir archive s = some r) : InitInv cwd dir archive r.1 := by
  obtain ⟨fs, pc⟩ := s
  cases pc with
  | idle => cases hst
  | stat =>
    cases hst
    split <;> exact h
  | readDir =>
    cases hst
    split
    · exact h
    · exact ⟨[], rfl, fun e he => absurd he not_mem_nil⟩
  | mkdirAll todo es =>
    cases todo with
    | nil =>
      cases hst
      obtain ⟨done, harch, hdone⟩ := h
      exact ⟨done, harch, fun x hx => (hdone x hx).resolve_right fun hr =>
        absurd hr.2 not_mem_nil⟩
    | cons l ls =>
      cases hst
      exact .change hstop fun fs' hm => h.mkdir hm
  | next es =>
    cases es with
    | nil =>
      cases hst
      obtain ⟨done, harch, hdone⟩ := h
      rw [append_nil] at harch
      exact fun _ => harch ▸ hdone
    | cons e es =>
      cases hst
      have hmem : e ∈ archive := by
        obtain ⟨done, harch, -⟩ := h
        rw [← harch]
        exact mem_append_right done mem_cons_self
      exact .entry h (htypes e hmem) hstop
  | openFile e es =>
    cases hst
    exact .change hstop fun fs' hc => h.create hd hc
  | copy l rest es =>
    obtain ⟨hrest, he⟩ := ite_none_right_eq_some.mp hst
    cases he
    rw [hrest] at h
    exact h.copied
  | close es =>
    cases hst
    exact h

theorem InitInv.step (htypes : ∀ e ∈ archive, e.typeflag ≠ .other)
    (hd : Distinct cwd dir archive) {ev : InitEv} {r : InitState × InitAns}
    (h : InitInv cwd dir archive s) (hearly : EarlyStop cwd dir archive s ev)
    (hst : initStep cwd dir archive s ev = some r) : InitInv cwd dir archive r.1 := by
  have hstop : r.2.stops = true → InitInv cwd dir archive ⟨s.fs, .idle⟩ := fun hr =>
    h.stop (hearly r hst hr)
  cases ev with
  | call =>
    obtain ⟨hpc, he⟩ := ite_none_right_eq_some.mp hst
    cases he
    obtain ⟨fs, pc⟩ := s
    cases hpc
    exact h
  | ok => exact h.ok htypes hd hstop hst
  | write n =>
    obtain ⟨fs, pc⟩ := s
    cases pc with
    | copy l rest es =>
      obtain ⟨-, he⟩ := ite_none_right_eq_some.mp hst
      cases he
      exact h.append hd n
    | _ => cases hst
  | fail =>
    obtain ⟨fs, pc⟩ := s
    cases pc with
    | idle => cases hst
    | stat => cases hst; exact h
    | readDir =>
      cases hst
      exact ⟨[], rfl, fun e he => absurd he not_mem_nil⟩
    | _ => cases hst; exact hstop rfl
  | cut =>
    obtain ⟨-, he⟩ := ite_none_left_eq_some.mp hst
    cases he
    exact hstop rfl

theorem change_ne_nil {x : Option HostFs} {pc : Pc} : (s.change x pc).2 ≠ .ret none := by
  cases x with
  | none => nofun
  | some fs => nofun

theorem initEntry_ne_nil : (initEntry cwd dir s e es).2 ≠ .ret none := by
  unfold initEntry
  split
  · nofun
  · split <;> nofun

/-- A call returns nil when it finds `PG_VERSION`, and at the end of the archive. -/
theorem initStep_nil {ev : InitEv}
    (hst : initStep cwd dir archive s ev = some (s', .ret none)) : s'.fs = s.fs ∧
    (s.pc = .stat ∧ s.fs.lookup (locate cwd (join dir pgVersion)) ≠ none ∨ s.pc = .next []) := by
  obtain ⟨fs, pc⟩ := s
  cases ev with
  | call =>
    obtain ⟨-, he⟩ := ite_none_right_eq_some.mp hst
    cases he
  | ok =>
    cases pc with
    | idle => cases hst
    | stat =>
      have he := Option.some.inj hst
      dsimp only at he
      split_ifs at he with hv
      · cases he
        exact ⟨rfl, .inl ⟨rfl, isSome_iff_ne_none.mp hv⟩⟩
      · cases he
    | readDir =>
      have he := Option.some.inj hst
      dsimp only at he
      split_ifs at he <;> cases he
    | mkdirAll todo es =>
      cases todo with
      | nil => cases hst
      | cons l ls => exact absurd (congrArg Prod.snd (Option.some.inj hst)) change_ne_nil
    | next es =>
      cases es with
      | nil =>
        cases hst
        exact ⟨rfl, .inr rfl⟩
      | cons e es => exact absurd (congrArg Prod.snd (Option.some.inj hst)) initEntry_ne_nil
    | openFile e es => exact absurd (congrArg Prod.snd (Option.some.inj hst)) change_ne_nil
    | copy l rest es =>
      obtain ⟨-, he⟩ := ite_none_right_eq_some.mp hst
      cases he
    | close es => cases hst
  | write n =>
    cases pc with
    | copy l rest es =>
      obtain ⟨-, he⟩ := ite_none_right_eq_some.mp hst
      cases he
    | _ => cases hst
  | fail => cases pc <;> cases hst
  | cut =>
    obtain ⟨-, he⟩ := ite_none_left_eq_some.mp hst
    cases he

/-! ### Archives of `mktar` -/

variable (cwd dir) in
theorem place_spell {ps : List Str} (hps : ps ≠ []) (hp : ∀ p ∈ ps, Plain p)
    (he : e.name = spell ps) : place cwd dir e = ps.reverse ++ locate cwd dir := by
  unfold place
  rw [he, locate_join cwd dir _ (isAbs_spell hps hp), split_plain hps hp, foldl_cleanStep hp]

theorem walk_types {t : DirTree} {pre : List Str} (he : e ∈ t.walk pre) :
    e.typeflag ≠ .other := by
  induction t generalizing pre with
  | nil => cases he
  | file name mode content rest ih =>
    rcases mem_cons.mp he with rfl | he
    · nofun
    · exact ih he
  | dir name mode entries rest ih1 ih2 =>
    rcases mem_cons.mp he with rfl | he
    · nofun
    · rcases mem_append.mp he with he | he
      · exact ih1 he
      · exact ih2 he
  | other name rest ih => exact ih he

theorem below_snoc (l d : Loc) (q name : Str) (pre : List Str) :
    l ++ q :: ((pre ++ [name]).reverse ++ d) = (l ++ [q]) ++ name :: (pre.reverse ++ d) := by
  simp

variable (cwd dir) in
/-- A regular file of a walk has its place below an entry of the directory. -/
theorem walk_place {t : DirTree} (hv : t.Valid) {pre : List Str} (hpre : ∀ p ∈ pre, Plain p)
    (he : e ∈ t.walk pre) (hreg : e.typeflag = .typeReg) :
    ∃ q ∈ t.names, ∃ l, place cwd dir e = l ++ q :: (pre.reverse ++ locate cwd dir) := by
  induction t generalizing pre with
  | nil => cases he
  | file name mode content rest ih =>
    rcases mem_cons.mp he with rfl | he
    · refine ⟨name, mem_cons_self, [], ?_⟩
      rw [place_spell cwd dir (append_ne_nil_of_right_ne_nil pre (cons_ne_nil name []))
        (plain_snoc hpre hv.1.plain) rfl, reverse_append]
      rfl
    · obtain ⟨q, hq, hl⟩ := ih hv.2.2.2 hpre he
      exact ⟨q, mem_cons_of_mem name hq, hl⟩
  | dir name mode entries rest ih1 ih2 =>
    rcases mem_cons.mp he with rfl | he
    · cases hreg
    · rcases mem_append.mp he with he | he
      · obtain ⟨q, -, l, hl⟩ := ih1 hv.2.2.1 (plain_snoc hpre hv.1.plain) he
        exact ⟨name, mem_cons_self, l ++ [q], hl.trans (below_snoc l _ q name pre)⟩
      · obtain ⟨q, hq, hl⟩ := ih2 hv.2.2.2 hpre he
        exact ⟨q, mem_cons_of_mem name hq, hl⟩
  | other name rest ih =>
    obtain ⟨q, hq, hl⟩ := ih hv.2.2 hpre he
    exact ⟨q, mem_cons_of_mem name hq, hl⟩

theorem ne_of_names {q q' : Str} {l l' d : Loc} (hne : q ≠ q') : l ++ q :: d ≠ l' ++ q' :: d := by
  intro h
  have h' : (l ++ [q]) ++ d = (l' ++ [q']) ++ d := by simpa using h
  exact hne (singleton_inj.mp (append_inj_right' (append_cancel_right h') rfl))

theorem walk_distinct {t : DirTree} (hv : t.Valid) {pre : List Str} (hpre : ∀ p ∈ pre, Plain p) :
    Distinct cwd dir (t.walk pre) := by
  induction t generalizing pre with
  | nil => exact .nil
  | file name mode content rest ih =>
    refine pairwise_cons.mpr ⟨fun e he _ hreg => ?_, ih hv.2.2.2 hpre⟩
    obtain ⟨q, hq, l, hl⟩ := walk_place cwd dir hv.2.2.2 hpre he hreg
    have hself := place_spell cwd dir
      (e := ⟨spell (pre ++ [name]), .typeReg, mode.perm, 0, content⟩)
      (append_ne_nil_of_right_ne_nil pre (cons_ne_nil name []))
      (plain_snoc hpre hv.1.plain) rfl
    rw [hself, hl, reverse_append]
    exact ne_of_names (l := []) fun h => hv.2.1 (h ▸ hq)
  | dir name mode entries rest ih1 ih2 =>
    have hpre' := plain_snoc hpre hv.1.plain
    refine pairwise_cons.mpr ⟨fun e he hdir => ?_, pairwise_append.mpr
      ⟨ih1 hv.2.2.1 hpre', ih2 hv.2.2.2 hpre, fun e he e' he' hreg hreg' => ?_⟩⟩
    · cases hdir
    · obtain ⟨q, -, l, hl⟩ := walk_place cwd dir hv.2.2.1 hpre' he hreg
      obtain ⟨q', hq', l', hl'⟩ := walk_place cwd dir hv.2.2.2 hpre he' hreg'
      rw [hl.trans (below_snoc l _ q name pre), hl']
      exact ne_of_names fun h => hv.2.1 (h ▸ hq')
  | other name rest ih => exact ih hv.2.2 hpre

/-- **An archive that `mktar` writes** has every file at a place of its own. -/
theorem mktar_unpackable {t : DirTree} (hv : t.Valid) (cwd : Loc) (dir : Str) :
    (∀ e ∈ mktar t, e.typeflag ≠ .other) ∧ Distinct cwd dir (mktar t) :=
  ⟨fun _ he => walk_types he, walk_distinct hv fun _ hp => absurd hp not_mem_nil⟩

/-! ### Runs -/

theorem plain_pgVersion : Plain pgVersion :=
  ⟨by decide, by decide, by decide, by decide⟩

theorem initInv_of_reachable (htypes : ∀ e ∈ archive, e.typeflag ≠ .other)
    (hd : Distinct cwd dir archive)
    (hs : ((initSystem cwd dir archive).restrict (EarlyStop cwd dir archive)).Reachable s) :
    InitInv cwd dir archive s := by
  refine hs.invariant (fun s0 h0 => ?_) fun s ev s' r h hst => ?_
  · obtain ⟨fs, pc⟩ := s0
    obtain ⟨hpc, hfresh⟩ := h0
    cases hpc
    refine fun hv => absurd ?_ hv
    rw [locate_join_name cwd dir plain_pgVersion]
    exact hfresh.lookup_cons pgVersion
  · obtain ⟨hearly, hst⟩ := System.restrict_step.mp hst
    exact h.step htypes hd hearly hst

/-- **All or nothing**, whatever fails or is cut off, if an extraction that does not come to its end
stops before it has made `PG_VERSION`. -/
theorem init_complete (htypes : ∀ e ∈ archive, e.typeflag ≠ .other)
    (hd : Distinct cwd dir archive)
    (hs : ((initSystem cwd dir archive).restrict (EarlyStop cwd dir archive)).Reachable s)
    {ev : InitEv} (hst : (initSystem cwd dir archive).step s ev = some (s', .ret none)) :
    ∀ e ∈ archive, Present cwd dir s'.fs e := by
  have h := initInv_of_reachable htypes hd hs
  obtain ⟨hfs, hpc⟩ := initStep_nil hst
  rw [hfs]
  obtain ⟨fs, pc⟩ := s
  rcases hpc with ⟨hpc, hv⟩ | hpc
  · cases hpc
    exact h hv
  · cases hpc
    obtain ⟨done, harch, hdone⟩ := h
    rw [append_nil] at harch
    exact harch ▸ hdone

/-- A cluster: its version, and a directory with a file. -/
def cluster : DirTree :=
  .file pgVersion 0o600 [49, 55]
    (.dir [98] (modeDir ||| 0o700) (.file [97] 0o600 [1, 2] .nil) .nil)

theorem cluster_valid : cluster.Valid := by
  have hname : ∀ b : UInt8, b ≠ 46 → b ≠ 47 → ValidName [b] := fun b h1 h2 =>
    ⟨cons_ne_nil b [], fun h => h2 (mem_singleton.mp h).symm,
      fun h => h1 (List.cons.inj h).1, nofun⟩
  have hv : ValidName pgVersion := ⟨by decide, by decide, by decide, by decide⟩
  exact ⟨hv, by decide, by decide, hname 98 (by decide) (by decide), by decide,
    ⟨hname 97 (by decide) (by decide), by decide, by decide, trivial⟩, trivial⟩

/-- A host with an empty root. -/
def emptyHost : HostFs := (∅ : HostFs).insert [] .dir

theorem emptyHost_fresh (n : Str) : emptyHost.Fresh [n] := by
  refine ⟨.inl (AList.lookup_insert_ne (cons_ne_nil n [])), fun l hl hs => ?_⟩
  have hroot : l = [] := by simpa [emptyHost] using hl
  rw [hroot] at hs
  exact absurd (suffix_nil.mp hs) (cons_ne_nil n [])

/-- The first call is cut off; the second one unpacks the cluster. -/
theorem init_complete_second : ∃ s s',
    ((initSystem [] [47, 100] (mktar cluster)).restrict
      (EarlyStop [] [47, 100] (mktar cluster))).Reachable s ∧
    (initSystem [] [47, 100] (mktar cluster)).step s .ok = some (s', .ret none) ∧
    ∀ e ∈ mktar cluster, Present [] [47, 100] s'.fs e := by
  obtain ⟨htypes, hd⟩ := mktar_unpackable cluster_valid [] [47, 100]
  have hr := @System.reachable_of_exec _ _ _ ((initSystem [] [47, 100] (mktar cluster)).restrict
      (EarlyStop [] [47, 100] (mktar cluster))) ⟨emptyHost, .idle⟩ _
    [.call, .ok, .ok, .ok, .ok, .cut, .call, .ok, .ok, .ok, .ok, .ok, .ok, .ok, .write 2, .ok, .ok,
      .ok, .ok, .ok, .ok, .ok, .ok, .ok, .write 1, .write 1, .ok, .ok] _
    ⟨rfl, emptyHost_fresh [100]⟩ rfl
  exact ⟨_, _, hr, rfl, @init_complete _ _ _ _ _ htypes hd hr .ok rfl⟩

/-- **A cluster in part.** The first call is cut off inside `PG_VERSION`, and the second finds the
file. -/
theorem init_partial : ∃ s s', (initSystem [] [47, 100] (mktar cluster)).Reachable s ∧
    (initSystem [] [47, 100] (mktar cluster)).step s .ok = some (s', .ret none) ∧
    s'.fs.lookup [pgVersion, [100]] = some (.file [49]) ∧
    s'.fs.lookup [[97], [98], [100]] = none ∧
    ∃ e ∈ mktar cluster, ¬Present [] [47, 100] s'.fs e := by
  have hr := @System.reachable_of_exec _ _ _ (initSystem [] [47, 100] (mktar cluster))
    ⟨emptyHost, .idle⟩ _
    [.call, .ok, .ok, .ok, .ok, .ok, .ok, .ok, .write 1, .cut, .call] _
    ⟨rfl, emptyHost_fresh [100]⟩ rfl
  exact ⟨_, _, hr, rfl, rfl, rfl, _, mem_cons_self, nofun⟩

end

end PgZero.Server
