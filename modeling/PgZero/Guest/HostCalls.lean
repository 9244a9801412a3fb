import Mathlib.Data.List.TakeWhile
import PgZero.Abi
import PgZero.Lib.System
import PgZero.Lib.Word

/-!
# Calls on host descriptors

`__wrap_read`, `__wrap_write`, `__wrap_readv` and `__wrap_writev` of libpgzero on a host descriptor:
the host is called for one vector after the other. Any number of calls are in progress on one file,
those of the processes and of the handlers that run within them, and between any two steps of a call
the others and the file itself go on.

* **`callsInv`**: where each call is in its vectors.
-/

set_option autoImplicit false

namespace PgZero.Guest

open Lib List

/-- The step of the file for a vector with what its answer means, and the steps of the file that
are not made by these calls. -/
structure HostOp (σ ε ω ι : Type) where
  op : ι → ε
  result : ω → Except Errno ℕ
  len : ι → ℕ
  other : ε → Bool

/-- A call of the guest. -/
inductive GuestCall (ι : Type)
  /-- `__wrap_read`, `__wrap_write` -/
  | one (v : ι)
  /-- `__wrap_readv`, `__wrap_writev` -/
  | vec (vs : List ι)
  deriving DecidableEq

/-- The vectors of a call. -/
def GuestCall.vectors {ι : Type} : GuestCall ι → List ι
  | .one v => [v]
  | .vec vs => vs

/-- A call at the vector `v`, with what it has transferred before. -/
structure Turn (ι : Type) where
  /-- The number of the call. -/
  id : ℕ
  v : ι
  rest : List ι
  total : ℤ
  deriving DecidableEq

/-- `return total > 0 ? total : -1;` -/
def Turn.failed {ι : Type} (t : Turn ι) : ℤ := if 0 < t.total then t.total else -1

/-- Where a process is. -/
inductive CallPc (ι : Type)
  | idle
  | calling (t : Turn ι)
  | parked (t : Turn ι)
  deriving DecidableEq

/-- The call in progress. -/
def CallPc.turn {ι : Type} : CallPc ι → Option (Turn ι)
  | .idle => none
  | .calling t | .parked t => some t

/-- A file, and the calls on it. -/
structure HostCalls (σ ι : Type) where
  file : σ
  pc : ℕ → CallPc ι
  /-- All calls so far. -/
  calls : List (GuestCall ι)

/-- The steps of the calls and of the file. -/
inductive HostAct (ε ι : Type)
  | file (e : ε)
  | call (p : ℕ) (c : GuestCall ι)
  /-- the host call; `nonblock` is the flag as it is read afterwards -/
  | op (p : ℕ) (nonblock : Bool)
  | woken (p : ℕ)
  | interrupted (p : ℕ)
  | killed (p : ℕ)

/-- What a step returns. -/
inductive HostAns (ω ι : Type)
  | next
  | file (o : ω)
  /-- the call returns at once, or not yet -/
  | started (ret : Option ℤ)
  /-- what the host call returned, and the call if it is over -/
  | host (t : Turn ι) (r : Except Errno ℕ) (ret : Option ℤ)
  | ret (r : ℤ)
  | errKilled

section

variable {σ ε ω ι : Type}

namespace HostOp

variable (F : HostOp σ ε ω ι)

/-- The head of the loop: the next vector that is not empty. -/
def next (id : ℕ) (total : ℤ) (vs : List ι) : CallPc ι × Option ℤ :=
  match vs.dropWhile (F.len · = 0) with
  | [] => (.idle, some total)
  | v :: rest => (.calling ⟨id, v, rest, total⟩, none)

/-- The start of a call. -/
def start (id : ℕ) : GuestCall ι → CallPc ι × Option ℤ
  | .one v => (.calling ⟨id, v, [], 0⟩, none)
  | .vec vs => F.next id 0 vs

/-- After the host call. -/
def after (t : Turn ι) (nonblock : Bool) : Except Errno ℕ → CallPc ι × Option ℤ
  | .error e =>
    if e = .EAGAIN ∧ nonblock = false then (.parked t, none) else (.idle, some t.failed)
  | .ok n =>
    let total := wrap 32 (t.total + n)
    if n < F.len t.v then (.idle, some total) else F.next t.id total t.rest

end HostOp

variable (base : System σ ε ω) (F : HostOp σ ε ω ι)

/-- One step of a call, or of the file. -/
def hostStep (s : HostCalls σ ι) : HostAct ε ι → Option (HostCalls σ ι × HostAns ω ι)
  | .file e =>
    if F.other e then (base.step s.file e).map fun r => ({ s with file := r.1 }, .file r.2)
    else none
  | .call p c =>
    match s.pc p with
    | .idle =>
      let x := F.start s.calls.length c
      some ({ s with pc := Function.update s.pc p x.1, calls := s.calls ++ [c] }, .started x.2)
    | _ => none
  | .op p nonblock =>
    match s.pc p with
    | .calling t =>
      (base.step s.file (F.op t.v)).map fun r =>
        let x := F.after t nonblock (F.result r.2)
        ({ s with file := r.1, pc := Function.update s.pc p x.1 }, .host t (F.result r.2) x.2)
    | _ => none
  | .woken p =>
    match s.pc p with
    | .parked t => some ({ s with pc := Function.update s.pc p (.calling t) }, .next)
    | _ => none
  | .interrupted p =>
    match s.pc p with
    | .parked t => some ({ s with pc := Function.update s.pc p .idle }, .ret t.failed)
    | _ => none
  | .killed p =>
    match s.pc p with
    | .parked _ => some ({ s with pc := Function.update s.pc p .idle }, .errKilled)
    | _ => none

/-- The calls on a file. -/
def hostCalls : System (HostCalls σ ι) (HostAct ε ι) (HostAns ω ι) where
  init s := base.init s.file ∧ (∀ p, s.pc p = .idle) ∧ s.calls = []
  step := hostStep base F

/-- What a step does. -/
inductive HostCase (s : HostCalls σ ι) : HostAct ε ι → HostCalls σ ι → HostAns ω ι → Prop
  | file {e : ε} {f : σ} {o : ω} (ho : F.other e) (hs : base.step s.file e = some (f, o)) :
    HostCase s (.file e) { s with file := f } (.file o)
  | call {p : ℕ} {c : GuestCall ι} (hpc : s.pc p = .idle) :
    HostCase s (.call p c) { s with
      pc := Function.update s.pc p (F.start s.calls.length c).1
      calls := s.calls ++ [c] } (.started (F.start s.calls.length c).2)
  | op {p : ℕ} {nonblock : Bool} {t : Turn ι} {f : σ} {o : ω} (hpc : s.pc p = .calling t)
    (hs : base.step s.file (F.op t.v) = some (f, o)) :
    HostCase s (.op p nonblock) { s with
      file := f
      pc := Function.update s.pc p (F.after t nonblock (F.result o)).1 }
      (.host t (F.result o) (F.after t nonblock (F.result o)).2)
  | woken {p : ℕ} {t : Turn ι} (hpc : s.pc p = .parked t) :
    HostCase s (.woken p) { s with pc := Function.update s.pc p (.calling t) } .next
  | interrupted {p : ℕ} {t : Turn ι} (hpc : s.pc p = .parked t) :
    HostCase s (.interrupted p) { s with pc := Function.update s.pc p .idle } (.ret t.failed)
  | killed {p : ℕ} {t : Turn ι} (hpc : s.pc p = .parked t) :
    HostCase s (.killed p) { s with pc := Function.update s.pc p .idle } .errKilled

variable {base F} {s s' : HostCalls σ ι}

theorem hostCase_of_step {e : HostAct ε ι} {o : HostAns ω ι}
    (h : (hostCalls base F).step s e = some (s', o)) : HostCase base F s e s' o := by
  change hostStep base F s e = some (s', o) at h
  cases e with
  | file e =>
    obtain ⟨ho, h⟩ := Option.ite_none_right_eq_some.mp h
    obtain ⟨⟨f, o'⟩, hs, he⟩ := Option.map_eq_some_iff.mp h
    cases he
    exact .file ho hs
  | call p c =>
    cases hpc : s.pc p <;> simp only [hostStep, hpc, reduceCtorEq] at h
    cases h
    exact .call hpc
  | op p nonblock =>
    cases hpc : s.pc p <;> simp only [hostStep, hpc, reduceCtorEq] at h
    obtain ⟨⟨f, o'⟩, hs, he⟩ := Option.map_eq_some_iff.mp h
    cases he
    exact .op hpc hs
  | woken p =>
    cases hpc : s.pc p <;> simp only [hostStep, hpc, reduceCtorEq] at h
    cases h
    exact .woken hpc
  | interrupted p =>
    cases hpc : s.pc p <;> simp only [hostStep, hpc, reduceCtorEq] at h
    cases h
    exact .interrupted hpc
  | killed p =>
    cases hpc : s.pc p <;> simp only [hostStep, hpc, reduceCtorEq] at h
    cases h
    exact .killed hpc

theorem hostCalls_file (h : (hostCalls base F).Reachable s) : base.Reachable s.file := by
  refine h.invariant (P := fun s => base.Reachable s.file) (fun s hi => ?_) fun s e s' o hr hs => ?_
  · exact ⟨_, _, hi.1, .nil⟩
  cases hostCase_of_step hs with
  | file _ hf | op _ hf => exact hr.step hf
  | call => exact hr
  | woken => exact hr
  | interrupted => exact hr
  | killed => exact hr

/-! ### Where a call is -/

/-- The call `c` is at one of its vectors; nothing was transferred if all before were empty. -/
structure TurnOk (F : HostOp σ ε ω ι) (calls : List (GuestCall ι)) (t : Turn ι) (c : GuestCall ι)
    (before : List ι) : Prop where
  listed : calls[t.id]? = some c
  vectors : c.vectors = before ++ t.v :: t.rest
  full : 0 < F.len t.v ∨ c = .one t.v
  fresh : (∀ v ∈ before, F.len v = 0) → t.total = 0

section

variable {calls : List (GuestCall ι)} {t t' : Turn ι} {c : GuestCall ι} {before : List ι}

theorem TurnOk.snoc (h : TurnOk F calls t c before) (d : GuestCall ι) :
    TurnOk F (calls ++ [d]) t c before where
  listed := by
    obtain ⟨hlt, -⟩ := List.getElem?_eq_some_iff.mp h.listed
    rw [List.getElem?_append_left hlt, h.listed]
  vectors := h.vectors
  full := h.full
  fresh := h.fresh

theorem HostOp.next_turn {id : ℕ} {total : ℤ} {vs : List ι}
    (h : (F.next id total vs).1.turn = some t) :
    t.id = id ∧ t.total = total ∧ 0 < F.len t.v ∧
      ∃ skipped, vs = skipped ++ t.v :: t.rest ∧ ∀ v ∈ skipped, F.len v = 0 := by
  have hsplit := vs.takeWhile_append_dropWhile (p := (F.len · = 0))
  unfold HostOp.next at h
  cases hd : vs.dropWhile (F.len · = 0) with
  | nil => simp [hd, CallPc.turn] at h
  | cons v rest =>
    rw [hd] at h hsplit
    have hhead : F.len v ≠ 0 := by
      have hne : vs.dropWhile (F.len · = 0) ≠ [] := by simp [hd]
      have hnot := head_dropWhile_not (F.len · = 0) hne
      simpa [hd] using hnot
    cases h
    refine ⟨rfl, rfl, Nat.pos_of_ne_zero hhead, _, hsplit.symm, fun u hu => ?_⟩
    simpa using mem_takeWhile_imp hu

theorem HostOp.start_turn {id : ℕ} (h : (F.start id c).1.turn = some t)
    (hc : calls[id]? = some c) : t.id = id ∧ ∃ before, TurnOk F calls t c before := by
  cases c with
  | one v =>
    cases h
    exact ⟨rfl, [], hc, rfl, Or.inr rfl, fun _ => rfl⟩
  | vec vs =>
    obtain ⟨hid, htotal, hpos, skipped, hvs, -⟩ := HostOp.next_turn h
    exact ⟨hid, skipped, hid ▸ hc, hvs, Or.inl hpos, fun _ => htotal⟩

/-- A host call leaves the call where it is, ends it or goes on to a later vector. -/
theorem TurnOk.after (h : TurnOk F calls t c before) {nonblock : Bool} {r : Except Errno ℕ}
    (ht : (F.after t nonblock r).1.turn = some t') :
    t'.id = t.id ∧ ∃ before, TurnOk F calls t' c before := by
  cases r with
  | error e =>
    rw [HostOp.after] at ht
    split_ifs at ht
    · cases ht
      exact ⟨rfl, before, h⟩
    · cases ht
  | ok n =>
    rw [HostOp.after] at ht
    split_ifs at ht
    · cases ht
    · obtain ⟨hid, -, hpos, skipped, hvs, -⟩ := HostOp.next_turn ht
      have hvec : c.vectors = (before ++ t.v :: skipped) ++ t'.v :: t'.rest := by
        rw [h.vectors, hvs]
        simp
      have hfull : 0 < F.len t.v := by
        refine h.full.resolve_right fun hc => ?_
        -- a single vector has none after it
        have hlen := congrArg List.length hvec
        rw [hc, GuestCall.vectors] at hlen
        simp at hlen
        omega
      refine ⟨hid, _, hid ▸ h.listed, hvec, Or.inl hpos, fun hall => ?_⟩
      exact absurd (hall t.v (by simp)) hfull.ne'

/-- A call with at most one vector that is not empty has this one to transfer, or none. -/
theorem TurnOk.single (h : TurnOk F calls t c before)
    (hc : c.vectors.countP (0 < F.len ·) ≤ 1) :
    t.total = 0 ∧ (∀ v ∈ before, F.len v = 0) ∧ ∀ v ∈ t.rest, F.len v = 0 := by
  have hempty : (∀ v ∈ before, F.len v = 0) ∧ ∀ v ∈ t.rest, F.len v = 0 := by
    rcases h.full with hpos | hone
    · rw [h.vectors, countP_append, countP_cons_of_pos (by simpa using hpos)] at hc
      have h1 : before.countP (0 < F.len ·) = 0 := by omega
      have h2 : t.rest.countP (0 < F.len ·) = 0 := by omega
      rw [countP_eq_zero] at h1 h2
      exact ⟨fun v hv => by simpa using h1 v hv, fun v hv => by simpa using h2 v hv⟩
    · have hlen := congrArg List.length h.vectors
      rw [hone, GuestCall.vectors, length_append] at hlen
      simp only [length_cons, length_nil] at hlen
      have h1 : before = [] := length_eq_zero_iff.mp (by omega)
      have h2 : t.rest = [] := length_eq_zero_iff.mp (by omega)
      simp [h1, h2]
  exact ⟨h.fresh hempty.1, hempty⟩

theorem HostOp.next_empty {id : ℕ} {total : ℤ} {vs : List ι} (h : ∀ v ∈ vs, F.len v = 0) :
    F.next id total vs = (.idle, some total) := by
  have hd : vs.dropWhile (F.len · = 0) = [] := by
    rw [dropWhile_eq_nil_iff]
    simpa using h
  rw [HostOp.next, hd]

end

/-! ### All calls -/

/-- Every call in progress is somewhere in its vectors, and made once. -/
structure CallsInv (F : HostOp σ ε ω ι) (s : HostCalls σ ι) : Prop where
  turn : ∀ p t, (s.pc p).turn = some t → ∃ c before, TurnOk F s.calls t c before
  once : ∀ p q t t', (s.pc p).turn = some t → (s.pc q).turn = some t' → t.id = t'.id → p = q

theorem CallsInv.lt_length (h : CallsInv F s) {p : ℕ} {t : Turn ι}
    (ht : (s.pc p).turn = some t) : t.id < s.calls.length := by
  obtain ⟨c, before, hok⟩ := h.turn p t ht
  exact (List.getElem?_eq_some_iff.mp hok.listed).1

theorem CallsInv.update (h : CallsInv F s) {f : σ} {p : ℕ} {x : CallPc ι}
    {calls : List (GuestCall ι)} (hcalls : calls = s.calls ∨ ∃ d, calls = s.calls ++ [d])
    (hx : ∀ t, x.turn = some t → (∃ c before, TurnOk F calls t c before) ∧
      ∀ q t', q ≠ p → (s.pc q).turn = some t' → t'.id ≠ t.id) :
    CallsInv F ⟨f, Function.update s.pc p x, calls⟩ where
  turn q t ht := by
    dsimp only at ht
    by_cases hq : q = p
    · subst hq
      rw [Function.update_self] at ht
      exact (hx t ht).1
    · rw [Function.update_of_ne hq] at ht
      obtain ⟨c, before, hok⟩ := h.turn q t ht
      rcases hcalls with rfl | ⟨d, rfl⟩
      · exact ⟨c, before, hok⟩
      · exact ⟨c, before, hok.snoc d⟩
  once q q' t t' ht ht' hid := by
    dsimp only at ht ht'
    by_cases hq : q = p
    · by_cases hq' : q' = p
      · rw [hq, hq']
      · subst hq
        rw [Function.update_self] at ht
        rw [Function.update_of_ne hq'] at ht'
        exact absurd hid.symm ((hx t ht).2 q' t' hq' ht')
    · by_cases hq' : q' = p
      · subst hq'
        rw [Function.update_self] at ht'
        rw [Function.update_of_ne hq] at ht
        exact absurd hid ((hx t' ht').2 q t hq ht)
      · rw [Function.update_of_ne hq] at ht
        rw [Function.update_of_ne hq'] at ht'
        exact h.once q q' t t' ht ht' hid

theorem CallsInv.idle (h : CallsInv F s) {f : σ} {p : ℕ} :
    CallsInv F ⟨f, Function.update s.pc p .idle, s.calls⟩ :=
  h.update (Or.inl rfl) fun _ ht => by cases ht

theorem CallsInv.step (h : CallsInv F s) {e : HostAct ε ι} {o : HostAns ω ι}
    (hs : HostCase base F s e s' o) : CallsInv F s' := by
  cases hs with
  | file => exact ⟨h.turn, h.once⟩
  | call hpc =>
    refine h.update (Or.inr ⟨_, rfl⟩) fun t ht => ?_
    obtain ⟨hid, before, hok⟩ := HostOp.start_turn ht List.getElem?_concat_length
    refine ⟨⟨_, before, hok⟩, fun q t' _ ht' => ?_⟩
    exact hid ▸ (h.lt_length ht').ne
  | @op p nonblock t f o hpc =>
    have hturn : (s.pc p).turn = some t := by
      rw [hpc]
      rfl
    obtain ⟨c, before, hok⟩ := h.turn p t hturn
    refine h.update (Or.inl rfl) fun t' ht' => ?_
    obtain ⟨hid, before', hok'⟩ := hok.after ht'
    refine ⟨⟨c, before', hok'⟩, fun q t'' hq ht'' heq => hq ?_⟩
    exact h.once q p t'' t ht'' hturn (heq.trans hid)
  | @woken p t hpc =>
    have hturn : (s.pc p).turn = some t := by
      rw [hpc]
      rfl
    refine h.update (Or.inl rfl) fun t' ht' => ?_
    cases ht'
    exact ⟨h.turn p t hturn, fun q t'' hq ht'' heq => hq (h.once q p t'' t ht'' hturn heq)⟩
  | interrupted => exact h.idle
  | killed => exact h.idle

theorem callsInv (h : (hostCalls base F).Reachable s) : CallsInv F s := by
  refine h.invariant (fun s hi => ?_) fun s e s' o hI hs => hI.step (hostCase_of_step hs)
  obtain ⟨-, hidle, -⟩ := hi
  have hnone : ∀ p t, (s.pc p).turn ≠ some t := by
    intro p t ht
    rw [hidle p] at ht
    cases ht
  exact ⟨fun p t ht => absurd ht (hnone p t), fun p q t t' ht => absurd ht (hnone p t)⟩

end

end PgZero.Guest
