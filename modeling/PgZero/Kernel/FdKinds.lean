import PgZero.Kernel.FdRefs
import PgZero.Kernel.Shm

/-!
# The kinds of open files

What the descriptor calls of a process leave alone: an open file keeps its kind, no call of
`fdSystem` makes a shared memory object, and the tables of other processes stay.

* **`fdGrows_call`**: every call is one of these.
-/

set_option autoImplicit false

namespace PgZero.Kernel

open Function Lib

/-- From `b` to `s` no open file and no process is made, and only the table of `p` changes. -/
structure FdSame (p : ℕ) (b s : FdState) : Prop where
  nfiles : s.nfiles = b.nfiles
  nprocs : s.nprocs = b.nprocs
  kind : ∀ o, (s.files o).f = (b.files o).f
  tables : ∀ q ≠ p, s.tables q = b.tables q

/-- From `b` to `s` open files and processes are only added, and no shared memory objects; of the
tables that were there only that of `p` changes. -/
structure FdGrows (p : ℕ) (b s : FdState) : Prop where
  nfiles : b.nfiles ≤ s.nfiles
  nprocs : b.nprocs ≤ s.nprocs
  kind : ∀ o < b.nfiles, (s.files o).f = (b.files o).f
  fresh : ∀ o, b.nfiles ≤ o → o < s.nfiles → (s.files o).f.isShm = false
  tables : ∀ q < b.nprocs, q ≠ p → s.tables q = b.tables q

variable {a b s : FdState} {p : ℕ}

namespace FdSame

theorem refl (s : FdState) : FdSame p s s := ⟨rfl, rfl, fun _ => rfl, fun _ _ => rfl⟩

theorem trans (h1 : FdSame p a b) (h2 : FdSame p b s) : FdSame p a s :=
  ⟨h2.nfiles.trans h1.nfiles, h2.nprocs.trans h1.nprocs, fun o => (h2.kind o).trans (h1.kind o),
    fun q hq => (h2.tables q hq).trans (h1.tables q hq)⟩

theorem setTable (s : FdState) (p : ℕ) (t : FdTable) : FdSame p s (s.setTable p t) :=
  ⟨rfl, rfl, fun _ => rfl, fun _ hq => update_of_ne hq _ _⟩

theorem setFile (s : FdState) (o : ℕ) {x : OpenFile} (hx : x.f = (s.files o).f) :
    FdSame p s (s.setFile o x) := by
  refine ⟨rfl, rfl, fun i => ?_, fun _ _ => rfl⟩
  unfold FdState.setFile
  by_cases hi : i = o
  · subst hi
    simpa using hx
  · simp [hi]

theorem piped {s' : FdState} (h : Piped s s') : FdSame p s s' := by
  cases h with
  | same => exact refl s
  | pipe hr hw => exact ⟨rfl, rfl, fun _ => rfl, fun _ _ => rfl⟩

theorem ref (s : FdState) (o : ℕ) : FdSame p s (s.ref o) := setFile s o rfl

theorem unref (s : FdState) (o : ℕ) : FdSame p s (s.unref o) := by
  obtain ⟨hnf, -, ht, -, hn⟩ := unref_rest s o
  refine ⟨hnf, hn, fun i => ?_, fun q _ => congrFun ht q⟩
  rw [unref_eq]
  split
  · rw [(release_refs _ o i).2.1, (drop_refs s o i).2.1]
  · exact (drop_refs s o i).2.1

theorem foldl {f : FdState → ℕ → FdState} (hf : ∀ s o, FdSame p s (f s o)) (l : List ℕ)
    (s : FdState) : FdSame p s (l.foldl f s) := by
  induction l generalizing s with
  | nil => exact refl s
  | cons o l ih => exact (hf s o).trans (ih (f s o))

theorem install (s : FdState) (p : ℕ) (fd : ℤ) (o : ℕ) (cloexec : Bool) :
    FdSame p s (s.install p fd o cloexec) := by
  unfold FdState.install
  dsimp only
  split
  · exact ((ref s o).trans (setTable _ p _)).trans (unref _ _)
  · exact (ref s o).trans (setTable _ p _)

theorem add (s : FdState) (p o : ℕ) (cloexec : Bool) : FdSame p s (s.add p o cloexec).1 :=
  (ref s o).trans (setTable _ p _)

theorem close (s : FdState) (p : ℕ) (fd : ℤ) : FdSame p s (s.close p fd).1 := by
  unfold FdState.close
  split
  · exact refl s
  · exact (setTable s p _).trans (unref _ _)

theorem setCloexec (s : FdState) (p : ℕ) (fd : ℤ) (cloexec : Bool) :
    FdSame p s (s.setCloexec p fd cloexec) := by
  unfold FdState.setCloexec
  split
  · exact refl s
  · exact setTable s p _

theorem grows (h : FdSame p b s) : FdGrows p b s := by
  refine ⟨h.nfiles.ge, h.nprocs.ge, fun o _ => h.kind o, fun o ho hs => ?_, fun q _ => h.tables q⟩
  rw [h.nfiles] at hs
  omega

end FdSame

namespace FdGrows

theorem trans (h1 : FdGrows p a b) (h2 : FdGrows p b s) : FdGrows p a s := by
  refine ⟨h1.nfiles.trans h2.nfiles, h1.nprocs.trans h2.nprocs, fun o ho => ?_, fun o ho hs => ?_,
    fun q hq hne => (h2.tables q (hq.trans_le h1.nprocs) hne).trans (h1.tables q hq hne)⟩
  · exact (h2.kind o (ho.trans_le h1.nfiles)).trans (h1.kind o ho)
  · by_cases hb : o < b.nfiles
    · rw [h2.kind o hb]
      exact h1.fresh o ho hb
    · exact h2.fresh o (not_lt.mp hb) hs

theorem newOpenFile (s : FdState) {g : FileRef} (hg : g.isShm = false) (nonblock : Bool) :
    FdGrows p s (s.newOpenFile g nonblock) := by
  refine ⟨Nat.le_succ _, le_rfl, fun o ho => ?_, fun o ho hs => ?_, fun _ _ _ => rfl⟩
  · show ((update s.files s.nfiles _) o).f = _
    rw [update_of_ne (ne_of_lt ho)]
  · obtain rfl : o = s.nfiles := by
      have : o < s.nfiles + 1 := hs
      omega
    show ((update s.files s.nfiles _) s.nfiles).f.isShm = false
    rw [update_self]
    exact hg

theorem addProc (s : FdState) (t : FdTable) : FdGrows p s (s.addProc t) :=
  ⟨le_rfl, Nat.le_succ _, fun _ _ => rfl, fun _ ho hs => absurd hs (not_lt.mpr ho),
    fun _ hq _ => update_of_ne hq.ne _ _⟩

theorem addPipe (s : FdState) : FdGrows p s s.addPipe :=
  ⟨le_rfl, le_rfl, fun _ _ => rfl, fun _ ho hs => absurd hs (not_lt.mpr ho), fun _ _ _ => rfl⟩

theorem installNew (s : FdState) {g : FileRef} (hg : g.isShm = false) (nonblock : Bool) (p : ℕ)
    (fd : ℤ) (cloexec : Bool) :
    FdGrows p s ((s.newOpenFile g nonblock).install p fd s.nfiles cloexec) :=
  (newOpenFile s hg nonblock).trans (FdSame.install _ p fd _ cloexec).grows

theorem addNew (s : FdState) {g : FileRef} (hg : g.isShm = false) (nonblock : Bool) (p : ℕ)
    (cloexec : Bool) : FdGrows p s ((s.newOpenFile g nonblock).add p s.nfiles cloexec).1 :=
  (newOpenFile s hg nonblock).trans (FdSame.add _ p _ cloexec).grows

theorem start (s : FdState) : FdGrows s.nprocs s s.start.1 :=
  (((addProc s ∅).trans (installNew _ rfl _ _ _ _)).trans (installNew _ rfl _ _ _ _)).trans
    (installNew _ rfl _ _ _ _)

theorem pipe (s : FdState) (p : ℕ) (nonblock ok1 ok2 : Bool) :
    FdGrows p s (s.pipe p nonblock ok1 ok2).1 := by
  have hw := ((addPipe s).trans (addNew _ (g := .pipeReader s.npipes) rfl nonblock p false)).trans
    (addNew _ (g := .pipeWriter s.npipes) rfl nonblock p false)
  unfold FdState.pipe
  dsimp only
  split
  · exact hw.trans ((FdSame.close _ p _).trans (FdSame.close _ p _)).grows
  · exact hw

theorem dup (s : FdState) (p : ℕ) (fd newFd : ℤ) : FdGrows p s (s.dup p fd newFd).1 := by
  apply FdSame.grows
  unfold FdState.dup
  split
  · exact .refl s
  · split_ifs
    · exact .add s p _ false
    · exact .refl s
    · exact .install s p newFd _ false
    · exact .refl s

theorem fcntl (s : FdState) (p : ℕ) (fd : ℤ) (cmd arg : BitVec 32) :
    FdGrows p s (s.fcntl p fd cmd arg).1 := by
  apply FdSame.grows
  unfold FdState.fcntl
  split
  · exact .refl s
  · split_ifs
    · exact .refl s
    · exact .refl s
    · exact .setCloexec s p fd _
    · exact .refl s
    · exact .refl s
    · exact .setFile s _ rfl
    · exact .add s p _ _
    · exact .refl s

theorem spawn (s : FdState) (p : ℕ) : FdGrows p s (s.spawn p).1 :=
  (FdSame.foldl FdSame.ref _ s).grows.trans (addProc _ _)

theorem exit (s : FdState) (p : ℕ) : FdGrows p s (s.exit p).1 := by
  have h := (FdSame.setTable s p ∅).trans
    (FdSame.foldl FdSame.unref (FdState.sortedFiles (s.tables p)) (s.setTable p ∅))
  have h' : FdSame p s (s.exit p).1 := ⟨h.nfiles, h.nprocs, h.kind, h.tables⟩
  exact h'.grows

end FdGrows

/-- **Descriptor calls** make no shared memory object and change no table but the caller's. -/
theorem fdGrows_call {s' : FdState} {c : FdCall} {n : ℤ} (h : s.call c = some (s', n)) :
    FdGrows (c.proc.getD s.nprocs) s s' := by
  have hret : ∀ {p} {r : FdState × ℤ}, FdGrows p s r.1 → some r = some (s', n) →
      FdGrows p s s' := by
    intro p r hr he
    rwa [Option.some.inj he] at hr
  cases c with
  | start => exact hret (.start s) h
  | pipe p nonblock ok1 ok2 => exact hret (.pipe s p nonblock ok1 ok2) h
  | devnull p => exact hret (.addNew s rfl false p false) h
  | dup p fd newFd => exact hret (.dup s p fd newFd) h
  | fcntl p fd cmd arg => exact hret (.fcntl s p fd cmd arg) h
  | close p fd => exact hret (FdSame.close s p fd).grows h
  | spawn p => exact hret (.spawn s p) h
  | exit p => exact hret (.exit s p) h
  | read p fd len => exact (FdSame.piped (piped_of_read h)).grows
  | write p fd b => exact (FdSame.piped (piped_of_write h)).grows

/-- **What a call lets go** was in the table of the process that makes it. -/
theorem FdInv.mem_of_release {s' : FdState} {c : FdCall} {n : ℤ} (h : FdInv s 0 s.npipes s)
    (hs : fdSystem.step s c = some (s', n)) {f : ℕ} (hf : f < s.nfiles)
    (hlt : (s.files f).releases < (s'.files f).releases) :
    ∃ p, c.proc = some p ∧ f ∈ FdState.sortedFiles (s.tables p) := by
  have h' := h.step hs
  have hg := fdGrows_call (Option.ite_none_right_eq_some.mp hs).2
  rw [h.releases_eq hf, h'.releases_eq (hf.trans_le h'.kept.nfiles)] at hlt
  obtain ⟨hbefore, hafter⟩ : s.held f ≠ 0 ∧ s'.held f = 0 := by
    split_ifs at hlt <;> omega
  -- the descriptors of `f` were all in the table that has changed
  obtain ⟨q, hq, fd, e, he, rfl⟩ := held_pos_iff.mp (Nat.pos_of_ne_zero hbefore)
  have hcaller : q = c.proc.getD s.nprocs := by
    by_contra hne
    refine absurd hafter (held_pos_iff.mpr ⟨q, hq.trans_le hg.nprocs, fd, e, ?_, rfl⟩).ne'
    rw [hg.tables q hq hne]
    exact he
  cases hp : c.proc with
  | none =>
    rw [hp] at hcaller
    exact absurd hcaller hq.ne
  | some p =>
    rw [hp, Option.getD_some] at hcaller
    subst hcaller
    refine ⟨q, rfl, List.count_pos_iff.mp ?_⟩
    rw [count_sortedFiles, holds_pos_iff]
    exact ⟨fd, e, he, rfl⟩

end PgZero.Kernel
