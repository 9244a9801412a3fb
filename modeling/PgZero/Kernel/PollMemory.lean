import PgZero.Kernel.PipeIo
import PgZero.Kernel.Signal
import PgZero.Lib.Bytes
import PgZero.Vmem.Memory

/-!
# The array of `poll`

`poll` takes a slice of the guest's memory for its array and then indexes the slice for every entry:
once to look up the descriptors, and in every pass to read an entry and store its result. The memory
may be shared, so any byte may change between two accesses.

* **`poll_in_array`**: a call stays in its array if and only if it has less than `2 ^ 29` entries or
  fails to take the slice.
-/

set_option autoImplicit false

namespace PgZero.Kernel

open Lib Option

/-- The size of a `pollfd`. -/
def SizeofPollfd : ℕ := 8
/-- The offset of `fd`. -/
def OffPollfdFD : ℕ := 0
/-- The offset of `events`. -/
def OffPollfdEvents : ℕ := 4
/-- The offset of `revents`. -/
def OffPollfdRevents : ℕ := 6

/-- An access to the array. -/
inductive Access
  | read (w : Vmem.Window)
  | write (w : Vmem.Window)
  deriving DecidableEq, Repr

/-- The bytes that it touches. -/
def Access.window : Access → Vmem.Window
  | .read w | .write w => w

/-- The arguments of `poll`. -/
structure PollArgs where
  fdsAddr : BitVec 32
  nfds : BitVec 32
  timeoutMs : ℤ
  deriving DecidableEq, Repr

/-- The slice that the call takes, whose length is a product of 32-bit numbers. -/
def PollArgs.slice (a : PollArgs) (m : Vmem.Memory) : Except MemErr Vmem.Window :=
  m.slice a.fdsAddr (a.nfds * BitVec.ofNat 32 SizeofPollfd)

/-- Where the call is. `files` says for which entries an open file was found. -/
inductive PollPc
  | idle
  | lookup (a : PollArgs) (raw : Vmem.Window) (files : List Bool)
  /-- in a pass over the entries: the next one, and the count so far -/
  | check (a : PollArgs) (raw : Vmem.Window) (files : List Bool) (i ready : ℕ)
  | returned (n : ℤ)
  | killed
  | panicked
  deriving DecidableEq, Repr

/-- The arguments of the call in progress. -/
def PollPc.args : PollPc → Option PollArgs
  | .lookup a _ _ | .check a _ _ _ _ => some a
  | _ => none

/-- The memory, and where the call is. -/
structure PollState where
  mem : Vmem.Memory
  bytes : ByteMem
  pc : PollPc

/-- The steps of `poll` and of other processes. -/
inductive PollAct
  | call (a : PollArgs)
  /-- look up the next descriptor; `found` is what the table says of it -/
  | lookup (found : Bool)
  /-- all are looked up, and the channels are taken -/
  | pass
  /-- the next entry; its file, if it has one, reports `bits` -/
  | check (bits : Events)
  /-- the end of a pass; a call that blocks is woken for `reason` -/
  | finish (reason : WakeReason)
  /-- another process writes to a segment that both have mapped -/
  | shared (addr : ℕ) (b : UInt8)

/-- The fields of entry `i`, as the call slices and indexes them. -/
def pollEntry (raw : Vmem.Window) (i : ℕ) : Option (Vmem.Window × Vmem.Window × Vmem.Window) := do
  let ent ← raw.drop (i * SizeofPollfd)
  let fd ← ent.field OffPollfdFD 4
  let events ← ent.field OffPollfdEvents 2
  let revents ← ent.field OffPollfdRevents 2
  return (fd, events, revents)

namespace PollState

/-- The `int32` in a range. -/
def int32 (s : PollState) (w : Vmem.Window) : ℤ :=
  (BitVec.ofNat 32 (ofLE (s.bytes.load w.addr w.len))).toInt

/-- A field of two bytes. -/
def uint16 (s : PollState) (w : Vmem.Window) : Events :=
  BitVec.ofNat 16 (ofLE (s.bytes.load w.addr w.len))

/-- One step, with its accesses. -/
def step (s : PollState) : PollAct → Option (PollState × List Access)
  | .call a =>
    match s.pc with
    | .idle =>
      match a.slice s.mem with
      | .error .err => some ({ s with pc := .returned (-Errno.EFAULT.code) }, [])
      | .error .panic => some ({ s with pc := .panicked }, [])
      | .ok raw => some ({ s with pc := .lookup a raw [] }, [])
    | _ => none
  | .lookup found =>
    match s.pc with
    | .lookup a raw files =>
      if files.length < a.nfds.toNat then
        match raw.field (files.length * SizeofPollfd + OffPollfdFD) 4 with
        | none => some ({ s with pc := .panicked }, [])
        | some w =>
          some ({ s with pc := .lookup a raw (files ++ [decide (0 ≤ s.int32 w) && found]) },
            [.read w])
      else none
    | _ => none
  | .pass =>
    match s.pc with
    | .lookup a raw files =>
      if files.length = a.nfds.toNat then some ({ s with pc := .check a raw files 0 0 }, [])
      else none
    | _ => none
  | .check bits =>
    match s.pc with
    | .check a raw files i ready =>
      match files[i]? with
      | some found =>
        match pollEntry raw i with
        | none => some ({ s with pc := .panicked }, [])
        | some (fd, events, revents) =>
          let ent : PollEntry :=
            ⟨s.int32 fd, if found then some .other else none, s.uint16 events⟩
          let r := ent.revents bits
          some (⟨s.mem, s.bytes.store revents.addr (toLE 2 r.toNat),
            .check a raw files (i + 1) (if r = 0 then ready else ready + 1)⟩,
            [.read fd, .read events, .write revents])
      | none => none
    | _ => none
  | .finish reason =>
    match s.pc with
    | .check a raw files i ready =>
      if i = files.length then
        if 0 < ready ∨ a.timeoutMs = 0 then some ({ s with pc := .returned ready }, [])
        else some ({ s with pc :=
          match reason with
          | .woken => .check a raw files 0 0
          | .interrupted => .returned (-Errno.EINTR.code)
          | .killed => .killed
          | .timedOut => .returned 0 }, [])
      else none
    | _ => none
  | .shared addr b => some ({ s with bytes := Function.update s.bytes addr b }, [])

end PollState

/-- A call on any guest memory. -/
def pollSystem : System PollState PollAct (List Access) where
  init s := Vmem.vmemSystem.Reachable s.mem ∧ s.pc = .idle
  step := PollState.step

/-- The runs of one call. -/
def OnlyCall (a : PollArgs) (_ : PollState) : PollAct → Prop
  | .call b => b = a
  | _ => True

instance (a : PollArgs) (s : PollState) : (e : PollAct) → Decidable (OnlyCall a s e)
  | .call b => inferInstanceAs (Decidable (b = a))
  | .lookup _ | .pass | .check _ | .finish _ | .shared _ _ => instDecidableTrue

/-! ### The slice and the array -/

/-- The array of a call, without wrap-around. -/
def PollArgs.array (a : PollArgs) : Vmem.Window := ⟨a.fdsAddr.toNat, SizeofPollfd * a.nfds.toNat⟩

/-- The field `revents` of entry `i`. -/
def PollArgs.revents (a : PollArgs) (i : ℕ) : Vmem.Window :=
  ⟨a.fdsAddr.toNat + SizeofPollfd * i + OffPollfdRevents, 2⟩

theorem slice_eq {m : Vmem.Memory} {a : PollArgs} {raw : Vmem.Window} (hs : a.slice m = .ok raw) :
    raw = ⟨a.fdsAddr.toNat, SizeofPollfd * a.nfds.toNat % 2 ^ 32⟩ := by
  have hn : (a.nfds * BitVec.ofNat 32 SizeofPollfd).toNat =
      SizeofPollfd * a.nfds.toNat % 2 ^ 32 := by
    simp only [SizeofPollfd, BitVec.toNat_mul, BitVec.toNat_ofNat]
    omega
  simp only [PollArgs.slice, Vmem.Memory.slice] at hs
  split_ifs at hs
  cases hs
  rw [hn]

theorem slice_array {m : Vmem.Memory} {a : PollArgs} (h : a.nfds.toNat < 2 ^ 29)
    {raw : Vmem.Window} (hs : a.slice m = .ok raw) : raw = a.array := by
  rw [slice_eq hs, PollArgs.array, Nat.mod_eq_of_lt (by unfold SizeofPollfd; omega)]

theorem PollArgs.entry_le (a : PollArgs) {i : ℕ} (hi : i < a.nfds.toNat) :
    i * SizeofPollfd + SizeofPollfd ≤ a.array.len := by
  simp only [array, SizeofPollfd]
  omega

theorem pollEntry_array (a : PollArgs) {i : ℕ} (hi : i < a.nfds.toNat) :
    pollEntry a.array i = some (⟨a.fdsAddr.toNat + SizeofPollfd * i, 4⟩,
      ⟨a.fdsAddr.toNat + SizeofPollfd * i + OffPollfdEvents, 2⟩, a.revents i) := by
  have hle := a.entry_le hi
  have hlen : SizeofPollfd ≤ a.array.len - i * SizeofPollfd := by omega
  rw [pollEntry, Vmem.Window.drop_of_le (by omega), Nat.mul_comm i] at *
  simp only [bind_eq_bind, bind_some]
  rw [Vmem.Window.field_of_le, bind_some, Vmem.Window.field_of_le, bind_some,
    Vmem.Window.field_of_le, bind_some]
  · rfl
  all_goals exact le_trans (by decide) hlen

theorem lookup_array (a : PollArgs) {i : ℕ} (hi : i < a.nfds.toNat) :
    a.array.field (i * SizeofPollfd + OffPollfdFD) 4 =
      some ⟨a.fdsAddr.toNat + SizeofPollfd * i, 4⟩ := by
  have hle := a.entry_le hi
  rw [Vmem.Window.field_of_le (by simp only [SizeofPollfd, OffPollfdFD] at hle ⊢; omega),
    Nat.mul_comm i]
  rfl

/-! ### Every step stays in the array -/

/-- The array of the call in progress lies in the memory, and the slice is the array. -/
def PollPc.InArray (m : Vmem.Memory) : PollPc → Prop
  | .lookup a raw files =>
    raw = a.array ∧ a.array.stop ≤ m.size.toNat ∧ files.length ≤ a.nfds.toNat
  | .check a raw files i _ =>
    raw = a.array ∧ a.array.stop ≤ m.size.toNat ∧ files.length = a.nfds.toNat ∧ i ≤ files.length
  | .panicked => False
  | _ => True

/-- The memory is well formed, and the call works within its array. -/
structure PollInv (s : PollState) : Prop where
  wf : s.mem.Wf
  pc : s.pc.InArray s.mem

/-- What a step may do. -/
structure StaysInArray (s : PollState) (e : PollAct) (s' : PollState) (o : List Access) : Prop where
  /-- a new call fails, or its array lies in the memory -/
  fault : ∀ a, e = .call a →
    s'.pc = .returned (-Errno.EFAULT.code) ∨ a.array.stop ≤ s.mem.size.toNat
  range : ∀ x ∈ o, ∃ a, s.pc.args = some a ∧ a.array.stop ≤ s.mem.size.toNat ∧
    a.array.addr ≤ x.window.addr ∧ x.window.stop ≤ a.array.stop
  revents : ∀ w, .write w ∈ o → ∃ a i, s.pc.args = some a ∧ i < a.nfds.toNat ∧ w = a.revents i
  frame : (∀ addr b, e ≠ .shared addr b) → ∀ addr, s'.bytes addr ≠ s.bytes addr →
    ∃ w, .write w ∈ o ∧ w.addr ≤ addr ∧ addr < w.stop
  indexed : s'.pc ≠ .panicked

theorem StaysInArray.quiet {s : PollState} {e : PollAct} {pc : PollPc}
    (he : ∀ a, e ≠ .call a) (hpc : pc ≠ .panicked) :
    StaysInArray s e { s with pc } [] where
  fault a ha := absurd ha (he a)
  range x hx := by cases hx
  revents w hw := by cases hw
  frame _ addr ha := absurd rfl ha
  indexed := hpc

variable {s s' : PollState} {o : List Access}

theorem PollInv.call (h : PollInv s) {a : PollArgs}
    (ha : a.nfds.toNat < 2 ^ 29 ∨ a.slice s.mem = .error .err)
    (hs : s.step (.call a) = some (s', o)) : PollInv s' ∧ StaysInArray s (.call a) s' o := by
  have hq : ∀ {pc : PollPc}, pc ≠ .panicked →
      (pc = .returned (-Errno.EFAULT.code) ∨ a.array.stop ≤ s.mem.size.toNat) →
      StaysInArray s (.call a) { s with pc } [] := fun hpc hf =>
    ⟨fun _ he => (PollAct.call.inj he) ▸ hf, fun x hx => (by cases hx), fun w hw => (by cases hw),
      fun _ addr hb => absurd rfl hb, hpc⟩
  cases hpc : s.pc with
  | idle =>
    simp only [PollState.step, hpc] at hs
    have hin : Vmem.Memory.Within s.mem.size (a.slice s.mem) := h.wf.slice _ _
    rcases hin with he | ⟨raw, he, hle⟩
    · rw [he] at hs
      cases hs
      exact ⟨⟨h.wf, trivial⟩, hq (by simp) (Or.inl rfl)⟩
    · rw [he] at hs
      cases hs
      obtain rfl := slice_array (ha.resolve_right fun h => by cases he.symm.trans h) he
      exact ⟨⟨h.wf, rfl, hle, Nat.zero_le _⟩, hq (by simp) (Or.inr hle)⟩
  | lookup | check | returned | killed | panicked => simp [PollState.step, hpc] at hs

theorem PollInv.lookup (h : PollInv s) {found : Bool}
    (hs : s.step (.lookup found) = some (s', o)) :
    PollInv s' ∧ StaysInArray s (.lookup found) s' o := by
  cases hpc : s.pc with
  | lookup a raw files =>
    have hin := h.pc
    rw [hpc] at hin
    simp only [PollState.step, hpc] at hs
    obtain ⟨rfl, hle, hlen⟩ := hin
    obtain ⟨hi, hs⟩ := ite_none_right_eq_some.mp hs
    rw [lookup_array a hi] at hs
    cases hs
    refine ⟨⟨h.wf, rfl, hle, by simpa using hi⟩, ?_⟩
    refine ⟨fun _ he => (by cases he), fun x hx => ?_, fun w hw => ?_,
      fun _ addr hb => absurd rfl hb, by simp⟩
    · have hent := a.entry_le hi
      obtain rfl := List.mem_singleton.mp hx
      refine ⟨a, by rw [hpc]; rfl, hle, ?_⟩
      simp only [Access.window, Vmem.Window.stop, PollArgs.array, SizeofPollfd] at hent ⊢
      omega
    · cases List.mem_singleton.mp hw
  | idle | check | returned | killed | panicked => simp [PollState.step, hpc] at hs

theorem PollInv.pass (h : PollInv s) (hs : s.step .pass = some (s', o)) :
    PollInv s' ∧ StaysInArray s .pass s' o := by
  cases hpc : s.pc with
  | lookup a raw files =>
    have hin := h.pc
    rw [hpc] at hin
    simp only [PollState.step, hpc] at hs
    obtain ⟨rfl, hle, -⟩ := hin
    obtain ⟨hlen, hs⟩ := ite_none_right_eq_some.mp hs
    cases hs
    exact ⟨⟨h.wf, rfl, hle, hlen, Nat.zero_le _⟩, .quiet (by simp) (by simp)⟩
  | idle | check | returned | killed | panicked => simp [PollState.step, hpc] at hs

theorem PollInv.check (h : PollInv s) {bits : Events} (hs : s.step (.check bits) = some (s', o)) :
    PollInv s' ∧ StaysInArray s (.check bits) s' o := by
  cases hpc : s.pc with
  | check a raw files i ready =>
    have hin := h.pc
    rw [hpc] at hin
    simp only [PollState.step, hpc] at hs
    obtain ⟨rfl, hle, hlen, -⟩ := hin
    cases hf : files[i]? with
    | none => simp [hf] at hs
    | some found =>
      obtain ⟨hif, -⟩ := List.getElem?_eq_some_iff.mp hf
      have hi : i < a.nfds.toNat := hlen ▸ hif
      have hargs : s.pc.args = some a := by rw [hpc]; rfl
      have hent := a.entry_le hi
      simp only [hf, pollEntry_array a hi] at hs
      cases hs
      refine ⟨⟨h.wf, rfl, hle, hlen, hif⟩, fun _ he => (by cases he),
        fun x hx => ⟨a, hargs, hle, ?_⟩, fun w hw => ⟨a, i, hargs, hi, ?_⟩, fun _ addr hb => ?_,
        by simp⟩
      · -- the three fields of the entry
        simp only [List.mem_cons, List.not_mem_nil, or_false] at hx
        rcases hx with rfl | rfl | rfl
        all_goals
          simp only [Access.window, Vmem.Window.stop, PollArgs.array, PollArgs.revents,
            SizeofPollfd, OffPollfdEvents, OffPollfdRevents] at hent ⊢
          omega
      · simpa using hw
      · refine ⟨a.revents i, by simp, ?_⟩
        by_contra hout
        refine hb (ByteMem.store_of_outside ?_)
        simp only [Vmem.Window.stop, PollArgs.revents, length_toLE] at hout ⊢
        omega
  | idle | lookup | returned | killed | panicked => simp [PollState.step, hpc] at hs

theorem PollInv.finish (h : PollInv s) {reason : WakeReason}
    (hs : s.step (.finish reason) = some (s', o)) :
    PollInv s' ∧ StaysInArray s (.finish reason) s' o := by
  cases hpc : s.pc with
  | check a raw files i ready =>
    have hin := h.pc
    rw [hpc] at hin
    simp only [PollState.step, hpc] at hs
    obtain ⟨rfl, hle, hlen, -⟩ := hin
    obtain ⟨-, hs⟩ := ite_none_right_eq_some.mp hs
    split_ifs at hs with hr
    · cases hs
      exact ⟨⟨h.wf, trivial⟩, .quiet (by simp) (by simp)⟩
    · cases reason with
      | woken =>
        cases hs
        exact ⟨⟨h.wf, rfl, hle, hlen, Nat.zero_le _⟩, .quiet (by simp) (by simp)⟩
      | interrupted | timedOut | killed =>
        cases hs
        exact ⟨⟨h.wf, trivial⟩, .quiet (by simp) (by simp)⟩
  | idle | lookup | returned | killed | panicked => simp [PollState.step, hpc] at hs

theorem PollState.step_mem {e : PollAct} (hs : s.step e = some (s', o)) : s'.mem = s.mem := by
  cases e <;> grind [PollState.step]

theorem PollInv.step {a : PollArgs} (h : PollInv s)
    (ha : a.nfds.toNat < 2 ^ 29 ∨ a.slice s.mem = .error .err) {e : PollAct} (he : OnlyCall a s e)
    (hs : s.step e = some (s', o)) : PollInv s' ∧ StaysInArray s e s' o := by
  cases e with
  | call b =>
    obtain rfl : b = a := he
    exact h.call ha hs
  | lookup found => exact h.lookup hs
  | pass => exact h.pass hs
  | check bits => exact h.check hs
  | finish reason => exact h.finish hs
  | shared addr b =>
    cases hs
    refine ⟨⟨h.wf, h.pc⟩, fun _ he => (by cases he), fun x hx => (by cases hx),
      fun w hw => (by cases hw), fun hne => absurd rfl (hne addr b), fun hp => ?_⟩
    have hin := h.pc
    rw [show s.pc = .panicked from hp] at hin
    exact hin

theorem PollInv.of_run {s0 : PollState} (h0 : pollSystem.init s0) {a : PollArgs}
    (ha : a.nfds.toNat < 2 ^ 29 ∨ a.slice s0.mem = .error .err) {tr : List (PollAct × List Access)}
    (hr : (pollSystem.restrict (OnlyCall a)).Run s0 tr s) : PollInv s ∧ s.mem = s0.mem := by
  refine hr.invariant (P := fun s => PollInv s ∧ s.mem = s0.mem) (fun s e s' o ih hs => ?_)
    ⟨⟨.of_reachable h0.1, h0.2 ▸ trivial⟩, rfl⟩
  obtain ⟨he, hs⟩ := System.restrict_step.mp hs
  exact ⟨(ih.1.step (ih.2 ▸ ha) he hs).1, (PollState.step_mem hs).trans ih.2⟩

/-! ### A slice that is shorter than the array -/

theorem exists_run_lookup {s0 : PollState} (h0 : s0.pc = .idle) {a : PollArgs} {raw : Vmem.Window}
    (hraw : a.slice s0.mem = .ok raw) (k : ℕ) (hk : k * SizeofPollfd ≤ raw.len)
    (hn : k ≤ a.nfds.toNat) :
    ∃ tr files, (pollSystem.restrict (OnlyCall a)).Run s0 tr { s0 with pc := .lookup a raw files } ∧
      files.length = k := by
  induction k with
  | zero =>
    have hs : pollSystem.step s0 (.call a) = some ({ s0 with pc := .lookup a raw [] }, []) := by
      simp only [pollSystem, PollState.step, h0, hraw]
    have hcall : OnlyCall a s0 (.call a) := rfl
    exact ⟨_, [], .snoc .nil (System.restrict_step.mpr ⟨hcall, hs⟩), rfl⟩
  | succ k ih =>
    obtain ⟨tr, files, hr, rfl⟩ := ih (by unfold SizeofPollfd at *; omega) (by omega)
    have hle : files.length * SizeofPollfd + OffPollfdFD + 4 ≤ raw.len := by
      unfold SizeofPollfd OffPollfdFD at *
      omega
    have hs : ∃ found o, pollSystem.step { s0 with pc := .lookup a raw files } (.lookup true) =
        some ({ s0 with pc := .lookup a raw (files ++ [found]) }, o) := by
      simp only [pollSystem, PollState.step]
      rw [if_pos (Nat.lt_of_succ_le hn), Vmem.Window.field_of_le hle]
      exact ⟨_, _, rfl⟩
    obtain ⟨found, o, hs⟩ := hs
    have hother : OnlyCall a { s0 with pc := .lookup a raw files } (.lookup true) := trivial
    exact ⟨_, _, hr.snoc (System.restrict_step.mpr ⟨hother, hs⟩), by simp⟩

theorem exists_panic {s0 : PollState} (h0 : pollSystem.init s0) {a : PollArgs}
    (ha : 2 ^ 29 ≤ a.nfds.toNat) {raw : Vmem.Window} (hraw : a.slice s0.mem = .ok raw) :
    ∃ tr s s' o, (pollSystem.restrict (OnlyCall a)).Run s0 tr s ∧
      (pollSystem.restrict (OnlyCall a)).step s (.lookup true) = some (s', o) ∧
      s'.pc = .panicked := by
  have hlen := congrArg Vmem.Window.len (slice_eq hraw)
  dsimp only at hlen
  have hlt : raw.len < 2 ^ 32 := hlen ▸ Nat.mod_lt _ (by decide)
  obtain ⟨tr, files, hr, hfiles⟩ := exists_run_lookup h0.2 hraw (raw.len / SizeofPollfd)
    (Nat.div_mul_le_self _ _) (by unfold SizeofPollfd; omega)
  have hfield : raw.field (files.length * SizeofPollfd + OffPollfdFD) 4 = none := by
    have hdvd : SizeofPollfd ∣ raw.len := by
      unfold SizeofPollfd at hlen ⊢
      omega
    rw [hfiles, Nat.div_mul_cancel hdvd, OffPollfdFD, Nat.add_zero, Vmem.Window.field,
      Vmem.Window.drop_of_le le_rfl]
    simp
  have hs : pollSystem.step { s0 with pc := .lookup a raw files } (.lookup true) =
      some ({ s0 with pc := .panicked }, []) := by
    simp only [pollSystem, PollState.step]
    rw [if_pos (by unfold SizeofPollfd at hfiles; omega), hfield]
  exact ⟨tr, _, _, [], hr, System.restrict_step.mpr ⟨trivial, hs⟩, rfl⟩

/-- **`poll` stays in its array**, in every step of every run, if and only if it has less than
`2 ^ 29` entries or fails to take its slice. -/
theorem poll_in_array {s0 : PollState} (h0 : pollSystem.init s0) (a : PollArgs) :
    (∀ tr s, (pollSystem.restrict (OnlyCall a)).Run s0 tr s → ∀ e s' o,
      (pollSystem.restrict (OnlyCall a)).step s e = some (s', o) → StaysInArray s e s' o) ↔
      a.nfds.toNat < 2 ^ 29 ∨ a.slice s0.mem = .error .err := by
  constructor
  · intro h
    by_contra hne
    obtain ⟨hn, herr⟩ := not_or.mp hne
    obtain ⟨raw, hraw, -⟩ :=
      ((Vmem.Memory.Wf.of_reachable h0.1).slice _ _).resolve_left herr
    obtain ⟨tr, s, s', o, hr, hs, hp⟩ := exists_panic h0 (Nat.not_lt.mp hn) hraw
    exact (h tr s hr _ s' o hs).indexed hp
  · intro ha tr s hr e s' o hs
    obtain ⟨hI, hmem⟩ := PollInv.of_run h0 ha hr
    obtain ⟨he, hs⟩ := System.restrict_step.mp hs
    exact (hI.step (hmem ▸ ha) he hs).2

/-- A call with one page of memory. -/
def pollStart : PollState := ⟨Vmem.onePage, fun _ => 0, .idle⟩

theorem pollStart_init : pollSystem.init pollStart := ⟨Vmem.onePage_reachable, rfl⟩

theorem poll_in_array_start :
    StaysInArray pollStart (.call ⟨65520, 2, 0⟩)
      { pollStart with pc := .lookup ⟨65520, 2, 0⟩ ⟨65520, 16⟩ [] } [] :=
  (poll_in_array pollStart_init ⟨65520, 2, 0⟩).mpr (Or.inl (by decide)) [] pollStart .nil
    (.call ⟨65520, 2, 0⟩) _ _ rfl

/-- An array of `2 ^ 32` bytes has an empty slice: the first lookup panics. -/
theorem poll_past_array : ∃ s tr,
    pollSystem.Run pollStart tr s ∧ tr.map Prod.fst = [.call ⟨0, 2 ^ 29, 0⟩, .lookup true] ∧
    s.mem.size.toNat < (⟨0, 2 ^ 29, 0⟩ : PollArgs).array.stop ∧ s.pc = .panicked :=
  ⟨_, _, System.exec_run _ [.call ⟨0, 2 ^ 29, 0⟩, .lookup true] rfl, rfl, by decide, rfl⟩

end PgZero.Kernel
