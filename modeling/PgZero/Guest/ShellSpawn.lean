import PgZero.Guest.ShellWords
import PgZero.Kernel.FdRefs
import PgZero.Lib.Borrow

/-!
# Spawning a command

`spawn_command` of libpgzero: the descriptors that are redirected are saved with `dup`, overwritten
with `dup2`, inherited by the child and put back.

* **`spawn_restores`**: the caller's descriptors are as before exactly if every descriptor that is
  overwritten was open.
-/

set_option autoImplicit false

namespace PgZero.Guest

open Function Lib Kernel

/-! ### The code -/

/-- `__wrap_dup2` for the host; no redirection is to a file of wasi-libc. -/
def dup2 (s : FdState) (p : ℕ) (fd newFd : ℤ) : FdState × ℤ :=
  if FdState.validHostFD fd && FdState.validHostFD newFd then s.dup p fd newFd
  else (s, -Errno.EBADF.code)

/-- What `popen` adds: descriptor 0 or 1 becomes a copy of its pipe. -/
abbrev Extra := Option (Fin 2 × ℤ)

/-- `target` before the redirections; `-1` is no target. -/
def Extra.targets (extra : Extra) (fd : ℕ) : ℤ :=
  match extra with
  | some (extraFd, extraTarget) => if fd = extraFd then extraTarget else -1
  | none => -1

/-- `target[fd]`, when the descriptors before `fd` have their targets. -/
def nextTarget (redirect : ℕ → Redirect) (devnull : ℤ) (target : ℕ → ℤ) (fd : ℕ) : ℤ :=
  match redirect fd with
  | .keep => target fd
  | .devnull => devnull
  | .copy src => if 0 ≤ target src then target src else src

/-- One turn of the loop that finds the targets. -/
def targetTurn (redirect : ℕ → Redirect) (devnull : ℤ) (target : ℕ → ℤ) (fd : ℕ) : ℕ → ℤ :=
  update target fd (nextTarget redirect devnull target fd)

/-- `target` after the loop. -/
def targets (redirect : ℕ → Redirect) (devnull : ℤ) (extra : Extra) : ℕ → ℤ :=
  (List.range 3).foldl (targetTurn redirect devnull) extra.targets

/-- `fd` is redirected. -/
def Moves (target : ℕ → ℤ) (fd : ℕ) : Prop := 0 ≤ target fd ∧ target fd ≠ fd

instance (target : ℕ → ℤ) (fd : ℕ) : Decidable (Moves target fd) :=
  inferInstanceAs (Decidable (_ ∧ _))

/-- Save and redirect `fd`. -/
def saveTurn (p : ℕ) (target : ℕ → ℤ) (x : FdState × (ℕ → ℤ)) (fd : ℕ) : FdState × (ℕ → ℤ) :=
  if Moves target fd then
    let r := x.1.dup p fd (-1)
    ((dup2 r.1 p (target fd) fd).1, update x.2 fd (if r.2 < 0 then -1 else r.2))
  else (x.1, update x.2 fd (-1))

/-- The loop that saves and redirects. -/
def redirectAll (s : FdState) (p : ℕ) (target : ℕ → ℤ) : FdState × (ℕ → ℤ) :=
  (List.range 3).foldl (saveTurn p target) (s, fun _ => -1)

/-- Put `fd` back, if it was saved. -/
def restoreTurn (p : ℕ) (saved : ℕ → ℤ) (s : FdState) (fd : ℕ) : FdState :=
  if 0 ≤ saved fd then ((dup2 s p (saved fd) fd).1.close p (saved fd)).1 else s

/-- `pgzero_spawn`, which may fail. -/
def pgzeroSpawn (spawnOk : Bool) (s : FdState) (p : ℕ) : FdState × ℤ :=
  if spawnOk then s.spawn p else (s, -1)

/-- `spawn_command` -/
def spawnCommand (spawnOk : Bool) (s : FdState) (p : ℕ) (cmd : Command) (devnull : ℤ)
    (extra : Extra) : FdState × ℤ :=
  let x := redirectAll s p (targets cmd.redirect devnull extra)
  let r := pgzeroSpawn spawnOk x.1 p
  ((List.range 3).foldl (restoreTurn p x.2) r.1, r.2)

/-! ### The host calls -/

theorem stdio_lt_base : (2 : ℤ) < FDBase := by decide

theorem validHostFD_stdio {fd : ℕ} (h : fd < 3) : FdState.validHostFD fd = true := by
  have h1 : (0 : ℤ) ≤ fd ∧ (fd : ℤ) ≤ 2 := by omega
  simp [FdState.validHostFD, h1]

theorem validHostFD_base {fd : ℤ} (h : FDBase ≤ fd) : FdState.validHostFD fd = true := by
  simp [FdState.validHostFD, h]

theorem validHostFD_nonneg {fd : ℤ} (h : FdState.validHostFD fd) : 0 ≤ fd := by
  have hbase := stdio_lt_base
  simp only [FdState.validHostFD, Bool.or_eq_true, Bool.and_eq_true, decide_eq_true_eq] at h
  omega

/-- The entries of a process's table. -/
def entry (s : FdState) (p : ℕ) (fd : ℤ) : Option FdEntry := (s.tables p).lookup fd

theorem get_eq (s : FdState) (p : ℕ) : s.get p = Option.map FdEntry.of ∘ entry s p := rfl

theorem get_of_entry {s : FdState} {p : ℕ} {fd : ℤ} {e : Option FdEntry} (h : entry s p fd = e) :
    s.get p fd = e.map FdEntry.of :=
  congrArg (Option.map FdEntry.of) h

theorem entry_insert {s s' : FdState} {p : ℕ} {fd : ℤ} {e : FdEntry}
    (h : s'.tables = update s.tables p ((s.tables p).insert fd e)) :
    entry s' p = update (entry s p) fd (some e) := by
  funext x
  rw [entry, h, update_self]
  by_cases hx : x = fd
  · rw [hx, update_self, AList.lookup_insert]
  · rw [update_of_ne hx, AList.lookup_insert_ne hx]
    rfl

section

variable (s : FdState) (p : ℕ)

theorem install_tables (fd : ℤ) (o : ℕ) (cloexec : Bool) :
    (s.install p fd o cloexec).tables =
      update s.tables p ((s.tables p).insert fd ⟨o, cloexec⟩) := by
  unfold FdState.install
  cases (s.tables p).lookup fd with
  | none => rfl
  | some old =>
    exact (unref_rest ((s.ref o).setTable p ((s.tables p).insert fd ⟨o, cloexec⟩)) old.of).tables

/-- A host call of `p` changes no other table and makes no process. -/
def Own (s' : FdState) : Prop := s'.nprocs = s.nprocs ∧ ∀ q ≠ p, s'.tables q = s.tables q

variable {s p}

theorem Own.trans {s1 s2 : FdState} (h : Own s p s1) (h' : Own s1 p s2) : Own s p s2 :=
  ⟨h'.1.trans h.1, fun q hq => (h'.2 q hq).trans (h.2 q hq)⟩

variable (s p)

theorem close_entry (fd : ℤ) :
    entry (s.close p fd).1 p = update (entry s p) fd none ∧ Own s p (s.close p fd).1 := by
  refine ⟨?_, ?_⟩
  · unfold FdState.close
    cases h : (s.tables p).lookup fd with
    | none =>
      have hsame := update_eq_self fd (entry s p)
      rw [show entry s p fd = none from h] at hsame
      exact hsame.symm
    | some e =>
      obtain ⟨-, -, htab, -⟩ := unref_rest (s.setTable p ((s.tables p).erase fd)) e.of
      funext x
      show (FdState.tables _ p).lookup x = _
      rw [htab]
      show (update s.tables p ((s.tables p).erase fd) p).lookup x = _
      rw [update_self]
      by_cases hx : x = fd
      · rw [hx, update_self, AList.lookup_erase]
      · rw [update_of_ne hx, AList.lookup_erase_ne hx]
        rfl
  · unfold FdState.close
    cases (s.tables p).lookup fd with
    | none => exact ⟨rfl, fun _ _ => rfl⟩
    | some e =>
      obtain ⟨-, -, htab, -, hn⟩ := unref_rest (s.setTable p ((s.tables p).erase fd)) e.of
      refine ⟨hn, fun q hq => ?_⟩
      show FdState.tables _ q = _
      rw [htab]
      exact update_of_ne hq _ _

theorem add_entry (o : ℕ) (cloexec : Bool) :
    entry (s.add p o cloexec).1 p =
        update (entry s p) (s.add p o cloexec).2 (some ⟨o, cloexec⟩) ∧
      Own s p (s.add p o cloexec).1 :=
  ⟨entry_insert rfl, rfl, fun _ hq => update_of_ne hq _ _⟩

theorem dup_entry {fd : ℤ} {e : FdEntry} (h : entry s p fd = some e) :
    ∃ j, FDBase ≤ j ∧ entry s p j = none ∧ (s.dup p fd (-1)).2 = j ∧
      entry (s.dup p fd (-1)).1 p = update (entry s p) j (some ⟨e.of, false⟩) ∧
      Own s p (s.dup p fd (-1)).1 := by
  have hdup : s.dup p fd (-1) = s.add p e.of false := by
    rw [FdState.dup, get_of_entry h]
    exact if_pos (by decide)
  rw [hdup]
  exact ⟨_, le_freeFrom _ _ _, freeFd_free _, rfl, add_entry s p e.of false⟩

/-- The entry that `dup2` makes. -/
def copied (s : FdState) (p : ℕ) (fd newFd : ℤ) : Option FdEntry :=
  if FdState.validHostFD fd ∧ fd ≠ newFd then
    (s.get p fd).elim (entry s p newFd) fun o => some ⟨o, false⟩
  else entry s p newFd

theorem dup2_entry (fd : ℤ) {newFd : ℤ} (h : FdState.validHostFD newFd) :
    entry (dup2 s p fd newFd).1 p = update (entry s p) newFd (copied s p fd newFd) ∧
      Own s p (dup2 s p fd newFd).1 := by
  have hsame : entry s p = update (entry s p) newFd (entry s p newFd) :=
    (update_eq_self _ _).symm
  unfold dup2 copied
  by_cases hv : FdState.validHostFD fd
  · rw [hv, h, Bool.and_self, if_pos rfl]
    unfold FdState.dup
    cases s.get p fd with
    | none =>
      refine ⟨?_, rfl, fun _ _ => rfl⟩
      dsimp only [Option.elim]
      rw [ite_self]
      exact hsame
    | some o =>
      dsimp only [Option.elim]
      rw [if_neg (not_lt.mpr (validHostFD_nonneg h)), h, Bool.not_true, if_neg Bool.false_ne_true]
      by_cases hne : newFd ≠ fd
      · rw [if_pos hne, if_pos ⟨rfl, hne.symm⟩]
        refine ⟨entry_insert (install_tables s p newFd o false),
          (install_rest s p newFd o false).1, fun q hq => ?_⟩
        show FdState.tables _ q = _
        rw [install_tables]
        exact update_of_ne hq _ _
      · rw [if_neg hne, if_neg fun hc => hne hc.2.symm]
        exact ⟨hsame, rfl, fun _ _ => rfl⟩
  · rw [Bool.not_eq_true] at hv
    rw [hv, Bool.false_and, if_neg Bool.false_ne_true, if_neg fun hc => Bool.false_ne_true hc.1]
    exact ⟨hsame, rfl, fun _ _ => rfl⟩

end

/-! ### Turns that leave a descriptor alone -/

/-- A descriptor that `dup` does not give to a copy. -/
def Old (s : FdState) (p : ℕ) (x : ℤ) : Prop := x < FDBase ∨ s.get p x ≠ none

section

variable {s : FdState} {p : ℕ}

/-- `dup` leaves the old descriptors and the other tables alone, also if it fails. -/
theorem dup_old (s : FdState) (p : ℕ) (fd : ℤ) :
    (∀ x, Old s p x → entry (s.dup p fd (-1)).1 p x = entry s p x) ∧
      Own s p (s.dup p fd (-1)).1 := by
  cases he : entry s p fd with
  | none =>
    rw [FdState.dup, get_of_entry he]
    exact ⟨fun _ _ => rfl, rfl, fun _ _ => rfl⟩
  | some e =>
    obtain ⟨j, hj, hfree, -, hent, hown⟩ := dup_entry s p he
    refine ⟨fun x hx => ?_, hown⟩
    rw [hent]
    refine update_of_ne ?_ _ _
    rintro rfl
    rcases hx with hx | hx
    · exact absurd hj (not_le.mpr hx)
    · exact hx (get_of_entry hfree)

theorem saveTurn_own {fd : ℕ} (hfd : fd < 3) (target saved : ℕ → ℤ) :
    Own s p (saveTurn p target (s, saved) fd).1 := by
  unfold saveTurn
  split_ifs
  · exact (dup_old s p fd).2.trans (dup2_entry _ p _ (validHostFD_stdio hfd)).2
  · exact ⟨rfl, fun _ _ => rfl⟩

theorem saveTurn_own_all (l : List ℕ) (hl : ∀ fd ∈ l, fd < 3) (target : ℕ → ℤ)
    (x : FdState × (ℕ → ℤ)) : Own x.1 p (l.foldl (saveTurn p target) x).1 := by
  induction l generalizing x with
  | nil => exact ⟨rfl, fun _ _ => rfl⟩
  | cons fd l ih =>
    exact (saveTurn_own (hl fd List.mem_cons_self) target x.2).trans
      (ih (fun fd' h => hl fd' (List.mem_cons_of_mem fd h)) _)

end

/-! ### Save and restore -/

/-- Where the entry of a descriptor is saved. -/
def slotOf (saved : ℕ → ℤ) (x : ℤ) : Option ℤ :=
  if 0 ≤ x ∧ x ≤ 2 ∧ 0 ≤ saved x.toNat then some (saved x.toNat) else none

theorem slotOf_update (saved : ℕ → ℤ) {fd : ℕ} (hfd : fd < 3) (v : ℤ) :
    slotOf (update saved fd v) =
      update (slotOf saved) fd (if 0 ≤ v then some v else none) := by
  funext x
  unfold slotOf
  by_cases hx : x = fd
  · subst hx
    rw [update_self, Int.toNat_natCast, update_self]
    have h1 : (0 : ℤ) ≤ fd ∧ (fd : ℤ) ≤ 2 := by omega
    simp only [h1, true_and]
  · rw [update_of_ne hx]
    by_cases h0 : 0 ≤ x
    · have hne : x.toNat ≠ fd := fun h => hx (by omega)
      rw [update_of_ne hne]
    · simp only [h0, false_and, if_false]

theorem slotOf_natCast (saved : ℕ → ℤ) {fd : ℕ} (hfd : fd < 3) :
    slotOf saved fd = if 0 ≤ saved fd then some (saved fd) else none := by
  unfold slotOf
  have h1 : (0 : ℤ) ≤ fd ∧ (fd : ℤ) ≤ 2 := by omega
  simp only [h1, true_and, Int.toNat_natCast]

/-- Some descriptors of `g` are saved. -/
structure Saved (n p : ℕ) (g : ℤ → Option ℕ) (s : FdState) (σ : ℤ → Option ℤ) : Prop where
  borrowed : Borrowed g (s.get p) σ
  places : ∀ x j, σ x = some j → 0 ≤ x ∧ x ≤ 2 ∧ FDBase ≤ j
  nprocs : s.nprocs = n

section

variable {n p : ℕ} {g : ℤ → Option ℕ} {s : FdState} {σ : ℤ → Option ℤ} {fd : ℕ}

theorem get_update {s' : FdState} {x : ℤ} {v : Option FdEntry}
    (h : entry s' p = update (entry s p) x v) :
    s'.get p = update (s.get p) x (v.map FdEntry.of) := by
  rw [get_eq, h, comp_update, get_eq]

theorem Saved.dup (h : Saved n p g s σ) (hfd : fd < 3) (hσ : σ fd = none) (hopen : g fd ≠ none) :
    ∃ j, FDBase ≤ j ∧ (s.dup p fd (-1)).2 = j ∧
      Saved n p g (s.dup p fd (-1)).1 (update σ fd (some j)) := by
  -- the entry is still there
  have hget := h.borrowed.eq_of_full hσ hopen
  obtain ⟨e, he⟩ : ∃ e, entry s p fd = some e := by
    refine Option.ne_none_iff_exists'.mp fun hnone => hopen ?_
    rw [← hget, get_of_entry hnone]
    rfl
  obtain ⟨j, hj, hfree, hres, hent, hown⟩ := dup_entry s p he
  have hσj : σ j = none := by
    cases hc : σ j with
    | none => rfl
    | some j' =>
      have hle := (h.places j j' hc).2.1
      have hbase := stdio_lt_base
      omega
  have hval : some (⟨e.of, false⟩ : FdEntry).of = s.get p fd := (get_of_entry he).symm
  refine ⟨j, hj, hres, ?_, fun y j' hy => ?_, hown.1.trans h.nprocs⟩
  · rw [get_update hent, Option.map_some, hval]
    exact h.borrowed.save hσ hopen (get_of_entry hfree) hσj
  · by_cases hyf : y = fd
    · rw [hyf, update_self] at hy
      cases hy
      exact ⟨by omega, by omega, hj⟩
    · rw [update_of_ne hyf] at hy
      exact h.places y j' hy

theorem Saved.dup2 (h : Saved n p g s σ) (hfd : fd < 3) {j : ℤ} (hσ : σ fd = some j) (src : ℤ) :
    Saved n p g (dup2 s p src fd).1 σ := by
  obtain ⟨hent, hown⟩ := dup2_entry s p src (validHostFD_stdio hfd)
  refine ⟨?_, h.places, hown.1.trans h.nprocs⟩
  rw [get_update hent]
  exact h.borrowed.write hσ _

theorem Saved.restore (h : Saved n p g s σ) (hfd : fd < 3) {j : ℤ} (hσ : σ fd = some j) :
    Saved n p g ((Guest.dup2 s p j fd).1.close p j).1 (update σ fd none) := by
  have hne : j ≠ fd := (h.borrowed.ne hσ hσ).symm
  obtain ⟨hent, hown⟩ := dup2_entry s p j (validHostFD_stdio hfd)
  obtain ⟨hent', hown'⟩ := close_entry (Guest.dup2 s p j fd).1 p j
  -- `dup2` finds the saved entry
  have hval : (copied s p j fd).map FdEntry.of = s.get p j := by
    obtain ⟨o, ho⟩ := Option.ne_none_iff_exists'.mp
      (h.borrowed.kept _ _ hσ ▸ h.borrowed.full _ _ hσ : s.get p j ≠ none)
    rw [copied, if_pos ⟨validHostFD_base (h.places _ _ hσ).2.2, hne⟩, ho]
    rfl
  refine ⟨?_, fun y j' hy => ?_, (hown.trans hown').1.trans h.nprocs⟩
  · rw [get_update hent', get_update hent, hval]
    exact h.borrowed.restore hσ
  · by_cases hyf : y = fd
    · rw [hyf, update_self] at hy
      cases hy
    · rw [update_of_ne hyf] at hy
      exact h.places y j' hy

theorem dup_closed (h : s.get p fd = none) (newFd : ℤ) :
    s.dup p fd newFd = (s, -Errno.EBADF.code) := by
  rw [FdState.dup, h]

theorem dup2_closed {x : ℤ} (h : FdState.validHostFD x → s.get p x = none) (newFd : ℤ) :
    (dup2 s p x newFd).1 = s := by
  unfold dup2
  split_ifs with hv
  · rw [FdState.dup, h (Bool.and_eq_true_iff.mp hv).1]
  · rfl

theorem saveTurn_saved {x : FdState × (ℕ → ℤ)} {target : ℕ → ℤ} (hfd : fd < 3)
    (h : Saved n p g x.1 (slotOf x.2)) (hnew : x.2 fd = -1)
    (hopen : Moves target fd → FdState.validHostFD (target fd) → x.1.get p (target fd) ≠ none →
      g fd ≠ none) :
    Saved n p g (saveTurn p target x fd).1 (slotOf (saveTurn p target x fd).2) := by
  have hσ : slotOf x.2 fd = none := by
    rw [slotOf_natCast _ hfd, hnew]
    rfl
  have hslot : update x.2 fd (-1) = x.2 := by
    rw [← hnew, update_eq_self]
  unfold saveTurn
  by_cases hm : Moves target fd
  · rw [if_pos hm]
    dsimp only
    by_cases hg : g fd = none
    · -- neither call does anything
      have hclosed : x.1.get p fd = none := by
        rw [h.borrowed.rest fd hσ fun i hi => ?_, hg]
        have hplace := (h.places i fd hi).2.2
        have hbase := stdio_lt_base
        omega
      have hsrc : (dup2 x.1 p (target fd) fd).1 = x.1 := by
        refine dup2_closed (fun hv => ?_) fd
        by_contra hne
        exact hopen hm hv hne hg
      have hneg : -Errno.EBADF.code < 0 := by decide
      rw [dup_closed hclosed, hsrc, if_pos hneg, hslot]
      exact h
    · obtain ⟨j, hj, hres, hsave⟩ := h.dup hfd hσ hg
      have hj0 : (0 : ℤ) ≤ j := le_trans (by decide) hj
      rw [hres, slotOf_update _ hfd, if_neg (not_lt.mpr hj0), if_pos hj0]
      exact hsave.dup2 hfd (update_self _ _ _) _
  · rw [if_neg hm, hslot]
    exact h

/-- The places that are still to be restored. -/
def pending (saved : ℕ → ℤ) (k : ℕ) (x : ℤ) : Option ℤ := if k ≤ x then slotOf saved x else none

theorem pending_succ (saved : ℕ → ℤ) (k : ℕ) :
    pending saved (k + 1) = update (pending saved k) k none := by
  funext x
  unfold pending
  by_cases hx : x = k
  · rw [hx, update_self, if_neg (by omega)]
  · rw [update_of_ne hx]
    by_cases hk : (k : ℤ) ≤ x
    · rw [if_pos hk, if_pos (by omega)]
    · rw [if_neg hk, if_neg (by omega)]

theorem restoreTurn_saved {saved : ℕ → ℤ} (hfd : fd < 3) (h : Saved n p g s (pending saved fd)) :
    Saved n p g (restoreTurn p saved s fd) (pending saved (fd + 1)) := by
  have hσ : pending saved fd fd = if 0 ≤ saved fd then some (saved fd) else none := by
    rw [pending, if_pos le_rfl, slotOf_natCast _ hfd]
  rw [pending_succ]
  unfold restoreTurn
  by_cases hs : 0 ≤ saved fd
  · rw [if_pos hs] at hσ ⊢
    exact h.restore hfd hσ
  · rw [if_neg hs] at hσ ⊢
    rw [← hσ, update_eq_self]
    exact h

end

/-! ### The whole call -/

theorem foldl_ref_tables (l : List ℕ) (s : FdState) :
    (l.foldl FdState.ref s).tables = s.tables ∧ (l.foldl FdState.ref s).nprocs = s.nprocs := by
  induction l generalizing s with
  | nil => exact ⟨rfl, rfl⟩
  | cons o l ih => exact ih (s.ref o)

theorem pgzeroSpawn_tables (spawnOk : Bool) (s : FdState) {p : ℕ} (hp : p < s.nprocs) :
    (pgzeroSpawn spawnOk s p).1.tables p = s.tables p := by
  unfold pgzeroSpawn
  split_ifs
  · obtain ⟨htab, hn⟩ := foldl_ref_tables
      (((s.tables p).select FdState.inherit).entries.map fun e => e.2.of) s
    show update (FdState.tables _) (FdState.nprocs _) _ p = _
    rw [hn, htab, update_of_ne (ne_of_lt hp)]
  · rfl

section

variable {s : FdState} {p : ℕ} {target : ℕ → ℤ}

/-- The state when it is the turn of `fd`. -/
def atTurn (s : FdState) (p : ℕ) (target : ℕ → ℤ) (fd : ℕ) : FdState :=
  ((List.range fd).foldl (saveTurn p target) (s, fun _ => -1)).1

/-- `fd` is redirected, to a descriptor that is open when it is the turn of `fd`. -/
def Overwritten (s : FdState) (p : ℕ) (target : ℕ → ℤ) (fd : ℕ) : Prop :=
  Moves target fd ∧ FdState.validHostFD (target fd) ∧
    (atTurn s p target fd).get p (target fd) ≠ none

instance (s : FdState) (p : ℕ) (target : ℕ → ℤ) (fd : ℕ) :
    Decidable (Overwritten s p target fd) :=
  inferInstanceAs (Decidable (_ ∧ _ ∧ _))

theorem saveTurn_slot (x : FdState × (ℕ → ℤ)) {fd fd' : ℕ} (hne : fd' ≠ fd) :
    (saveTurn p target x fd).2 fd' = x.2 fd' := by
  unfold saveTurn
  split_ifs <;> exact update_of_ne hne _ _

theorem redirectAll_saved (hopen : ∀ fd < 3, Overwritten s p target fd → s.get p fd ≠ none) :
    Saved s.nprocs p (s.get p) (redirectAll s p target).1 (slotOf (redirectAll s p target).2) := by
  have h0 : Saved s.nprocs p (s.get p) s (slotOf fun _ => -1) := by
    have hnone : slotOf (fun _ => -1) = fun _ => none := by
      funext x
      exact if_neg fun h => absurd h.2.2 (show ¬ (0 : ℤ) ≤ -1 by decide)
    rw [hnone]
    exact ⟨.start _, nofun, rfl⟩
  have h1 := saveTurn_saved (x := (s, fun _ => -1)) (by decide) h0 rfl
    fun hm hv hs => hopen 0 (by decide) ⟨hm, hv, hs⟩
  have h2 := saveTurn_saved (by decide) h1 (saveTurn_slot _ (by decide))
    fun hm hv hs => hopen 1 (by decide) ⟨hm, hv, hs⟩
  refine saveTurn_saved (by decide) h2 ?_ fun hm hv hs => hopen 2 (by decide) ⟨hm, hv, hs⟩
  rw [saveTurn_slot _ (by decide), saveTurn_slot _ (by decide)]

theorem restoreAll_saved {n : ℕ} {g : ℤ → Option ℕ} {saved : ℕ → ℤ}
    (h : Saved n p g s (slotOf saved)) :
    ((List.range 3).foldl (restoreTurn p saved) s).get p = g := by
  have h0 : Saved n p g s (pending saved 0) := by
    have hall : pending saved 0 = slotOf saved := by
      funext x
      unfold pending slotOf
      split_ifs with h1 h2 h2 <;> first | rfl | exact absurd h2.1 h1
    rwa [hall]
  have h1 := restoreTurn_saved (by decide) h0
  have h2 := restoreTurn_saved (by decide) h1
  have h3 := restoreTurn_saved (by decide) h2
  refine h3.borrowed.eq_of_none fun x => ?_
  -- the slots are the descriptors up to 2
  unfold pending slotOf
  split_ifs with hx hx' <;> first | rfl | omega

end

section

variable {s : FdState} {p : ℕ} {target : ℕ → ℤ} {x : FdState × (ℕ → ℤ)} {fd : ℕ}

theorem saveTurn_get {y : ℕ} (hfd : fd < 3) (hy : y < 3) (hne : y ≠ fd) :
    (saveTurn p target x fd).1.get p y = x.1.get p y := by
  have hbase := stdio_lt_base
  have hold : Old x.1 p y := Or.inl (by omega)
  unfold saveTurn
  split_ifs
  · rw [get_update (dup2_entry _ p _ (validHostFD_stdio hfd)).1,
      update_of_ne (by omega), get_of_entry ((dup_old x.1 p fd).1 y hold)]
    rfl
  · rfl

theorem saveTurn_place (h : ∀ y, x.2 y < 0 ∨ FDBase ≤ x.2 y) (y : ℕ) :
    (saveTurn p target x fd).2 y < 0 ∨ FDBase ≤ (saveTurn p target x fd).2 y := by
  by_cases hy : y = fd
  · subst hy
    unfold saveTurn
    split_ifs
    · dsimp only
      rw [update_self]
      cases he : entry x.1 p y with
      | none =>
        have hneg : -Errno.EBADF.code < 0 := by decide
        rw [dup_closed (get_of_entry he), if_pos hneg]
        exact Or.inl (by decide)
      | some e =>
        obtain ⟨j, hj, -, hres, -⟩ := dup_entry x.1 p he
        have hj0 : (0 : ℤ) ≤ j := le_trans (by decide) hj
        rw [hres, if_neg (not_lt.mpr hj0)]
        exact Or.inr hj
    · dsimp only
      rw [update_self]
      exact Or.inl (by decide)
  · rw [saveTurn_slot x hy]
    exact h y

/-- `fd` was opened and is not saved. -/
structure Leaked (p fd : ℕ) (x : FdState × (ℕ → ℤ)) : Prop where
  opened : x.1.get p fd ≠ none
  unsaved : x.2 fd < 0
  places : ∀ y, x.2 y < 0 ∨ FDBase ≤ x.2 y

theorem saveTurn_leaks (hfd : fd < 3) (hm : Moves target fd)
    (hv : FdState.validHostFD (target fd)) (hsrc : x.1.get p (target fd) ≠ none)
    (hclosed : x.1.get p fd = none) (hplaces : ∀ y, x.2 y < 0 ∨ FDBase ≤ x.2 y) :
    Leaked p fd (saveTurn p target x fd) := by
  have hneg : -Errno.EBADF.code < 0 := by decide
  refine ⟨?_, ?_, saveTurn_place hplaces⟩
  · obtain ⟨o, ho⟩ := Option.ne_none_iff_exists'.mp hsrc
    rw [saveTurn, if_pos hm, dup_closed hclosed]
    dsimp only
    rw [get_update (dup2_entry x.1 p _ (validHostFD_stdio hfd)).1, update_self, copied,
      if_pos ⟨hv, hm.2⟩, ho]
    nofun
  · rw [saveTurn, if_pos hm, dup_closed hclosed]
    dsimp only
    rw [update_self, if_pos hneg]
    decide

theorem Leaked.saveTurns (h : Leaked p fd x) (hfd : fd < 3) (l : List ℕ)
    (hl : ∀ y ∈ l, y < 3 ∧ y ≠ fd) : Leaked p fd (l.foldl (saveTurn p target) x) := by
  induction l generalizing x with
  | nil => exact h
  | cons y l ih =>
    obtain ⟨hy, hne⟩ := hl y List.mem_cons_self
    refine ih ⟨?_, ?_, saveTurn_place h.places⟩ fun z hz => hl z (List.mem_cons_of_mem y hz)
    · rw [saveTurn_get hy hfd hne.symm]
      exact h.opened
    · rw [saveTurn_slot x hne.symm]
      exact h.unsaved

theorem atTurn_spec (s : FdState) (p : ℕ) (target : ℕ → ℤ) {y : ℕ} (hy : y < 3) {k : ℕ}
    (hk : k ≤ y) :
    (atTurn s p target k).get p y = s.get p y ∧
      ∀ z, ((List.range k).foldl (saveTurn p target) (s, fun _ => -1)).2 z < 0 ∨
        FDBase ≤ ((List.range k).foldl (saveTurn p target) (s, fun _ => -1)).2 z := by
  unfold atTurn
  induction k with
  | zero => exact ⟨rfl, fun _ => Or.inl neg_one_lt_zero⟩
  | succ k ih =>
    obtain ⟨hget, hplaces⟩ := ih (by omega)
    rw [List.range_succ, List.foldl_append]
    exact ⟨(saveTurn_get (by omega) hy (by omega)).trans hget, saveTurn_place hplaces⟩

theorem redirectAll_leaks (hfd : fd < 3) (h : Overwritten s p target fd)
    (hclosed : s.get p fd = none) : Leaked p fd (redirectAll s p target) := by
  obtain ⟨hm, hv, hsrc⟩ := h
  obtain ⟨hget, hplaces⟩ := atTurn_spec s p target hfd le_rfl
  have hsplit : ∀ fd < 3, List.range 3 = List.range fd ++ fd :: (List.range 3).drop (fd + 1) ∧
      ∀ y ∈ (List.range 3).drop (fd + 1), y < 3 ∧ y ≠ fd := by decide
  obtain ⟨hrange, hrest⟩ := hsplit fd hfd
  rw [redirectAll, hrange, List.foldl_append, List.foldl_cons]
  exact (saveTurn_leaks hfd hm hv hsrc (hget.trans hclosed) hplaces).saveTurns hfd _ hrest

theorem restoreAll_leaks (hfd : fd < 3) (h : Leaked p fd x) (l : List ℕ) (hl : ∀ y ∈ l, y < 3)
    {s : FdState} (hs : s.get p fd ≠ none) : (l.foldl (restoreTurn p x.2) s).get p fd ≠ none := by
  induction l generalizing s with
  | nil => exact hs
  | cons y l ih =>
    refine ih (fun z hz => hl z (List.mem_cons_of_mem y hz)) ?_
    unfold restoreTurn
    split_ifs with hy
    · have hne : (fd : ℤ) ≠ y := by
        rintro he
        obtain rfl : fd = y := by exact_mod_cast he
        exact absurd hy (not_le.mpr h.unsaved)
      have hplace : (fd : ℤ) ≠ x.2 y := by
        have hbase := stdio_lt_base
        rcases h.places y with hp | hp <;> omega
      rw [get_update (close_entry _ p _).1, update_of_ne hplace,
        get_update (dup2_entry s p _ (validHostFD_stdio (hl y List.mem_cons_self))).1,
        update_of_ne hne]
      exact hs
    · exact hs

end

/-- **The caller's descriptors are left alone** exactly if every descriptor among 0, 1 and 2 that is
overwritten was open. -/
theorem spawn_restores (spawnOk : Bool) (s : FdState) {p : ℕ} (hp : p < s.nprocs) (cmd : Command)
    (devnull : ℤ) (extra : Extra) :
    (∀ fd, (spawnCommand spawnOk s p cmd devnull extra).1.get p fd = s.get p fd) ↔
      ∀ fd < 3, Overwritten s p (targets cmd.redirect devnull extra) fd → s.get p fd ≠ none := by
  set target := targets cmd.redirect devnull extra
  have hown : Own s p (redirectAll s p target).1 :=
    saveTurn_own_all (List.range 3) (by simp) target _
  have hget : (pgzeroSpawn spawnOk (redirectAll s p target).1 p).1.get p =
      (redirectAll s p target).1.get p := by
    funext fd
    rw [FdState.get, pgzeroSpawn_tables spawnOk _ (by rw [hown.1]; exact hp)]
    rfl
  constructor
  · intro hall fd hfd hover hclosed
    have hleak := redirectAll_leaks hfd hover hclosed
    refine restoreAll_leaks hfd hleak (List.range 3) (by simp) ?_ ((hall fd).trans hclosed)
    rw [hget]
    exact hleak.opened
  · intro hopen
    have hsaved := redirectAll_saved hopen
    have hspawned : Saved (pgzeroSpawn spawnOk (redirectAll s p target).1 p).1.nprocs p (s.get p)
        (pgzeroSpawn spawnOk (redirectAll s p target).1 p).1 (slotOf (redirectAll s p target).2) :=
      ⟨hget ▸ hsaved.borrowed, hsaved.places, rfl⟩
    exact congrFun (restoreAll_saved hspawned)

/-- A caller with the three descriptors and `/dev/null`. -/
def stdioCaller : FdState := (FdState.empty.start.1.devnull 0).1

/-- The same caller, but descriptor 0 was closed. -/
def closedCaller : FdState := ((FdState.empty.start.1.close 0 0).1.devnull 0).1

/-- The command lines of `initdb`. -/
theorem spawn_restores_initdb :
    ∃ cmd, parseCommand true true (fun _ => 7)
        ⟨ascii "\"a\" < \"/dev/null\" > \"/dev/null\" 2>&1", by decide⟩ = some (.done cmd) ∧
      ∀ fd, (spawnCommand true stdioCaller 0 cmd FDBase none).1.get 0 fd = stdioCaller.get 0 fd :=
  ⟨_, rfl, (spawn_restores true stdioCaller (by decide) _ FDBase none).mpr (by decide)⟩

/-- A descriptor that was closed and is redirected stays open. -/
theorem spawn_leaks :
    ∃ cmd, parseCommand true true (fun _ => 7) ⟨ascii "a < /dev/null", by decide⟩ =
        some (.done cmd) ∧
      closedCaller.get 0 0 = none ∧
      (spawnCommand true closedCaller 0 cmd FDBase none).1.get 0 0 ≠ none :=
  ⟨_, rfl, by decide, by decide⟩

end PgZero.Guest
