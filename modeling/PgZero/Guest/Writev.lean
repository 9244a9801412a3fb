import PgZero.Guest.HostCalls
import PgZero.Kernel.Pipe

/-!
# Small writes to a pipe

`__wrap_write` makes one host call and `__wrap_writev` one for each vector. A host call of at most
`pipeAtomic` bytes is not split; between two of them other writers may come.

* **`writes_contiguous`**.
-/

set_option autoImplicit false

namespace PgZero.Guest

open Function Lib Kernel List

/-- Writes to a pipe; the other steps are the reader's, and the releases. -/
def pipeWrite : HostOp Pipe PipeCall PipeAns (List UInt8) where
  op := .write
  result
    | .wrote n => .ok n
    | .got bs => .ok bs.length
    | .err e => .error e
    | .released => .ok 0
  len := List.length
  other
    | .write _ => false
    | _ => true

/-- Writes to a pipe. -/
def pipeWrites := hostCalls pipeSystem pipeWrite

/-- An event with its answer. -/
abbrev WriteEvent := HostAct PipeCall (List UInt8) × HostAns PipeAns (List UInt8)

/-- The bytes of a step that the pipe accepted, with the number of the call. -/
def stamped : WriteEvent → List (ℕ × UInt8)
  | (.op _ _, .host t (.ok n) _) => (t.v.take n).map (t.id, ·)
  | _ => []

/-- The bytes of a step that the reader got. -/
def seen : WriteEvent → List UInt8
  | (.file e, .file o) => delivered (e, o)
  | _ => []

/-- All bytes that were accepted, in their order. -/
def stream (tr : List WriteEvent) : List (ℕ × UInt8) := (tr.map stamped).flatten

/-- The bytes of the call `id` stand together. -/
def Together (id : ℕ) (bytes : List UInt8) (l : List (ℕ × UInt8)) : Prop :=
  ∃ a b, l = a ++ bytes.map (id, ·) ++ b ∧ (∀ x ∈ a, x.1 ≠ id) ∧ ∀ x ∈ b, x.1 ≠ id

/-- The bytes of a call. -/
def GuestCall.bytes (c : GuestCall (List UInt8)) : List UInt8 := c.vectors.flatten

/-- A call of at most `PIPE_BUF` bytes, all in one vector. -/
structure SmallSingle (c : GuestCall (List UInt8)) : Prop where
  small : c.bytes.length ≤ pipeAtomic
  single : c.vectors.countP (0 < ·.length) ≤ 1

/-! ### One host call -/

theorem stream_snoc (tr : List WriteEvent) (x : WriteEvent) :
    stream (tr ++ [x]) = stream tr ++ stamped x := by
  simp [stream]

theorem Together.append {id : ℕ} {bytes : List UInt8} {l m : List (ℕ × UInt8)}
    (h : Together id bytes l) (hm : ∀ x ∈ m, x.1 ≠ id) : Together id bytes (l ++ m) := by
  obtain ⟨a, b, rfl, ha, hb⟩ := h
  refine ⟨a, b ++ m, by simp, ha, fun x hx => ?_⟩
  rcases mem_append.mp hx with hx | hx
  · exact hb x hx
  · exact hm x hx

theorem flatten_of_empty {vs : List (List UInt8)} (h : ∀ v ∈ vs, v.length = 0) :
    vs.flatten = [] := by
  rw [flatten_eq_nil_iff]
  exact fun v hv => length_eq_zero_iff.mp (h v hv)

theorem TurnOk.bytes {calls : List (GuestCall (List UInt8))} {t : Turn (List UInt8)}
    {c : GuestCall (List UInt8)} {before : List (List UInt8)}
    (h : TurnOk pipeWrite calls t c before) (hc : SmallSingle c) :
    t.v = c.bytes ∧ ∀ v ∈ t.rest, v.length = 0 := by
  obtain ⟨-, hbefore, hrest⟩ := h.single hc.single
  refine ⟨?_, hrest⟩
  rw [GuestCall.bytes, h.vectors, flatten_append, flatten_cons,
    flatten_of_empty hbefore, flatten_of_empty hrest]
  simp

/-- A small call with one vector writes everything and returns, or nothing. -/
theorem after_small {p p' : Pipe} {o : PipeAns} {t : Turn (List UInt8)}
    (hs : pipeSystem.step p (.write t.v) = some (p', o)) (hv : t.v.length ≤ pipeAtomic)
    (hrest : ∀ v ∈ t.rest, v.length = 0) (nonblock : Bool) :
    (accepted (.write t.v, o) = t.v ∧
      (pipeWrite.after t nonblock (pipeWrite.result o)).1 = .idle) ∨
    accepted (.write t.v, o) = [] := by
  obtain ⟨-, rfl⟩ := pipeSystem_step.mp hs
  rcases pipeStep_atomic p hv with h | ⟨e, h⟩
  · have hres : pipeWrite.result (pipeStep p (.write t.v)).2 = .ok t.v.length := by rw [h]; rfl
    refine Or.inl ⟨by rw [h]; exact take_length, ?_⟩
    rw [hres, HostOp.after, HostOp.next_empty hrest, ite_self]
  · exact Or.inr (by rw [h]; rfl)

/-! ### All calls -/

/-- The pipe's bytes are those of the calls in order, and a small write is in one piece. -/
structure StreamInv (tr : List WriteEvent) (s : HostCalls Pipe (List UInt8)) : Prop where
  bytes : (tr.map seen).flatten ++ s.file.buf = (stream tr).map Prod.snd
  old : ∀ x ∈ stream tr, x.1 < s.calls.length
  small : ∀ id c, s.calls[id]? = some c → SmallSingle c →
    (∀ x ∈ stream tr, x.1 ≠ id) ∨
    (Together id c.bytes (stream tr) ∧ ∀ p t, (s.pc p).turn = some t → t.id ≠ id)

section

variable {tr : List WriteEvent} {s s' : HostCalls Pipe (List UInt8)}

theorem accepted_other {p : Pipe} {e : PipeCall} (h : pipeWrite.other e) :
    accepted (e, (pipeStep p e).2) = [] := by
  cases e with
  | write b => cases h
  | read => rfl
  | releaseReader => rfl
  | releaseWriter => rfl

theorem StreamInv.quiet (h : StreamInv tr s) {x : WriteEvent} (hx : stamped x = [])
    (hcalls : s'.calls = s.calls) (hbuf : seen x ++ s'.file.buf = s.file.buf)
    (hturn : ∀ p t, (s'.pc p).turn = some t → (s.pc p).turn = some t) :
    StreamInv (tr ++ [x]) s' where
  bytes := by
    rw [stream_snoc, hx, append_nil, ← h.bytes, ← hbuf]
    simp
  old := by
    rw [stream_snoc, hx, append_nil, hcalls]
    exact h.old
  small id c hc hsmall := by
    rw [hcalls] at hc
    rw [stream_snoc, hx, append_nil]
    rcases h.small id c hc hsmall with hnone | ⟨htog, hno⟩
    · exact Or.inl hnone
    · exact Or.inr ⟨htog, fun p t ht => hno p t (hturn p t ht)⟩

theorem turn_of_idle {pc : ℕ → CallPc (List UInt8)} {p : ℕ} :
    ∀ q t, (update pc p .idle q).turn = some t → (pc q).turn = some t := by
  intro q t ht
  by_cases hq : q = p
  · subst hq
    rw [update_self] at ht
    cases ht
  · rwa [update_of_ne hq] at ht

theorem StreamInv.call (h : StreamInv tr s) {p : ℕ} {c : GuestCall (List UInt8)} {x : WriteEvent}
    (hx : stamped x = []) (hseen : seen x = []) :
    StreamInv (tr ++ [x]) { s with
      pc := update s.pc p (pipeWrite.start s.calls.length c).1
      calls := s.calls ++ [c] } where
  bytes := by
    rw [stream_snoc, hx, append_nil, ← h.bytes]
    simp [hseen]
  old y hy := by
    rw [stream_snoc, hx, append_nil] at hy
    rw [length_append]
    exact (h.old y hy).trans (Nat.lt_succ_self _)
  small id d hd hsmall := by
    rw [stream_snoc, hx, append_nil]
    by_cases hlt : id < s.calls.length
    · rw [List.getElem?_append_left hlt] at hd
      rcases h.small id d hd hsmall with hnone | ⟨htog, hno⟩
      · exact Or.inl hnone
      · refine Or.inr ⟨htog, fun q t ht => ?_⟩
        dsimp only at ht
        by_cases hq : q = p
        · subst hq
          rw [update_self] at ht
          obtain ⟨hid, -⟩ := HostOp.start_turn ht List.getElem?_concat_length
          omega
        · rw [update_of_ne hq] at ht
          exact hno q t ht
    · -- the new call has written nothing
      exact Or.inl fun y hy => ((h.old y hy).trans_le (not_lt.mp hlt)).ne

theorem stamped_op {p : Pipe} {t : Turn (List UInt8)} {q : ℕ} {nonblock : Bool} {ret : Option ℤ} :
    stamped (.op q nonblock, .host t (pipeWrite.result (pipeStep p (.write t.v)).2) ret) =
      (accepted (.write t.v, (pipeStep p (.write t.v)).2)).map (t.id, ·) := by
  rcases PipeWriter.write_cases p t.v with ⟨-, h⟩ | ⟨-, -, h⟩ | ⟨-, -, -, h⟩ | ⟨-, -, -, -, h⟩ <;>
    simp [pipeStep, h, pipeWrite, stamped, accepted]

theorem StreamInv.small_op (h : StreamInv tr s) (hI : CallsInv pipeWrite s) {p : ℕ}
    {t : Turn (List UInt8)} (hturn : (s.pc p).turn = some t) {c : GuestCall (List UInt8)}
    {before : List (List UInt8)} (hok : TurnOk pipeWrite s.calls t c before) {acc : List UInt8}
    {x : CallPc (List UInt8)} (hown : SmallSingle c → (acc = t.v ∧ x = .idle) ∨ acc = [])
    (hx : ∀ t', x.turn = some t' → t'.id = t.id) {id : ℕ} {d : GuestCall (List UInt8)}
    (hd : s.calls[id]? = some d) (hsmall : SmallSingle d) :
    (∀ y ∈ stream tr ++ acc.map (t.id, ·), y.1 ≠ id) ∨
    (Together id d.bytes (stream tr ++ acc.map (t.id, ·)) ∧
      ∀ q t', (update s.pc p x q).turn = some t' → t'.id ≠ id) := by
  by_cases heq : id = t.id
  · subst heq
    obtain rfl : d = c := Option.some.inj (hd.symm.trans hok.listed)
    have hnone := (h.small _ d hd hsmall).resolve_right fun hno => hno.2 p t hturn rfl
    rcases hown hsmall with ⟨hacc, rfl⟩ | rfl
    · -- everything is written, and the call is over
      rw [hacc, (hok.bytes hsmall).1]
      refine Or.inr ⟨⟨stream tr, [], by simp, hnone, by simp⟩, fun q t' ht' hid => ?_⟩
      have hqp := hI.once q p t' t (turn_of_idle q t' ht') hturn hid
      rw [hqp, update_self] at ht'
      cases ht'
    · exact Or.inl (by simpa using hnone)
  · have hne : ∀ y ∈ acc.map (t.id, ·), y.1 ≠ id := by
      intro y hy
      obtain ⟨b, -, rfl⟩ := mem_map.mp hy
      exact Ne.symm heq
    rcases h.small id d hd hsmall with hnone | ⟨htog, hno⟩
    · refine Or.inl fun y hy => ?_
      rcases mem_append.mp hy with hy | hy
      · exact hnone y hy
      · exact hne y hy
    · refine Or.inr ⟨htog.append hne, fun q t' ht' => ?_⟩
      by_cases hq : q = p
      · subst hq
        rw [update_self] at ht'
        rw [hx t' ht']
        exact Ne.symm heq
      · rw [update_of_ne hq] at ht'
        exact hno q t' ht'

theorem StreamInv.op (h : StreamInv tr s) (hI : CallsInv pipeWrite s) {p : ℕ} {nonblock : Bool}
    {t : Turn (List UInt8)} {f : Pipe} {o : PipeAns} (hpc : s.pc p = .calling t)
    (hs : pipeSystem.step s.file (.write t.v) = some (f, o)) {ret : Option ℤ} :
    StreamInv (tr ++ [(.op p nonblock, .host t (pipeWrite.result o) ret)]) { s with
      file := f
      pc := update s.pc p (pipeWrite.after t nonblock (pipeWrite.result o)).1 } := by
  have hturn : (s.pc p).turn = some t := by
    rw [hpc]
    rfl
  obtain ⟨c, before, hok⟩ := hI.turn p t hturn
  have hown := fun hc : SmallSingle c => after_small hs
    ((hok.bytes hc).1 ▸ hc.small) (hok.bytes hc).2 nonblock
  obtain ⟨rfl, rfl⟩ := pipeSystem_step.mp hs
  have hbuf : (pipeStep s.file (.write t.v)).1.buf =
      s.file.buf ++ accepted (.write t.v, (pipeStep s.file (.write t.v)).2) :=
    pipeStep_conserves s.file (.write t.v)
  refine ⟨?_, ?_, fun id d hd hsmall => ?_⟩
  · rw [stream_snoc, stamped_op, map_append (f := Prod.snd), ← h.bytes]
    simp [seen, hbuf]
  · rw [stream_snoc, stamped_op]
    intro x hx
    rcases mem_append.mp hx with hx | hx
    · exact h.old x hx
    · obtain ⟨b, -, rfl⟩ := mem_map.mp hx
      exact hI.lt_length hturn
  · rw [stream_snoc, stamped_op]
    exact h.small_op hI hturn hok hown (fun t' ht' => (hok.after ht').1) hd hsmall

theorem StreamInv.step (h : StreamInv tr s) (hI : CallsInv pipeWrite s)
    {e : HostAct PipeCall (List UInt8)} {o : HostAns PipeAns (List UInt8)}
    (hs : HostCase pipeSystem pipeWrite s e s' o) : StreamInv (tr ++ [(e, o)]) s' := by
  cases hs with
  | @file e f o ho hf =>
    obtain ⟨rfl, rfl⟩ := pipeSystem_step.mp hf
    refine h.quiet rfl rfl ?_ fun p t ht => ht
    have hcons := pipeStep_conserves s.file e
    rwa [accepted_other ho, append_nil] at hcons
  | call hpc => exact h.call rfl rfl
  | op hpc hf => exact h.op hI hpc hf
  | @woken p t hpc =>
    refine h.quiet rfl rfl rfl fun q t' ht' => ?_
    dsimp only at ht'
    by_cases hq : q = p
    · subst hq
      rw [update_self] at ht'
      rw [hpc]
      exact ht'
    · rwa [update_of_ne hq] at ht'
  | interrupted | killed => exact h.quiet rfl rfl rfl turn_of_idle

end

/-- **Small writes are contiguous.** The bytes of a call of at most `PIPE_BUF` bytes in one vector
stand together, all or none. -/
theorem writes_contiguous {s0 s : HostCalls Pipe (List UInt8)} {tr : List WriteEvent}
    (hi : pipeWrites.init s0) (h : pipeWrites.Run s0 tr s) :
    (tr.map seen).flatten ++ s.file.buf = (stream tr).map Prod.snd ∧
    ∀ id c, s.calls[id]? = some c → c.bytes.length ≤ pipeAtomic →
      c.vectors.countP (0 < ·.length) ≤ 1 →
      ∃ bytes, (bytes = [] ∨ bytes = c.bytes) ∧ Together id bytes (stream tr) := by
  have hinv := h.history (P := fun tr s => CallsInv pipeWrite s ∧ StreamInv tr s) ?_ ?_
  · refine ⟨hinv.2.bytes, fun id c hc hlen hone => ?_⟩
    rcases hinv.2.small id c hc ⟨hlen, hone⟩ with hnone | ⟨htog, -⟩
    · exact ⟨[], Or.inl rfl, stream tr, [], by simp, hnone, by simp⟩
    · exact ⟨c.bytes, Or.inr rfl, htog⟩
  · rintro tr s e s' o ⟨hI, hS⟩ hs
    have hcase := hostCase_of_step hs
    exact ⟨hI.step hcase, hS.step hI hcase⟩
  · refine ⟨callsInv ⟨s0, [], hi, .nil⟩, ?_, by simp [stream], ?_⟩
    · obtain ⟨hnew, -, -⟩ := hi
      rw [hnew]
      rfl
    · intro id c hc
      rw [hi.2.2] at hc
      cases hc

/-- A write of two bytes and a `writev` of one, which are started together. -/
theorem writes_contiguous_two : ∃ tr s, pipeWrites.Run ⟨newPipe, fun _ => .idle, []⟩ tr s ∧
    s.file.buf = [99, 97, 98] ∧
    ∃ bytes, (bytes = [] ∨ bytes = [97, 98]) ∧ Together 0 bytes (stream tr) := by
  have h := @System.exec_run _ _ _ pipeWrites ⟨newPipe, fun _ => .idle, []⟩
    [.call 0 (.one [97, 98]), .call 1 (.vec [[], [99]]), .op 1 false, .op 0 false] _ _ rfl
  have hi : pipeWrites.init ⟨newPipe, fun _ => .idle, []⟩ := ⟨rfl, fun _ => rfl, rfl⟩
  refine ⟨_, _, h, rfl, ?_⟩
  exact (writes_contiguous hi h).2 0 (.one [97, 98]) rfl (by decide) (by decide)

/-- A `writev` of `a` and `b`, with a write of `c` between its two host calls. -/
theorem writes_apart : ∃ tr s, pipeWrites.Run ⟨newPipe, fun _ => .idle, []⟩ tr s ∧
    s.calls[0]? = some (.vec [[97], [98]]) ∧ s.file.buf = [97, 99, 98] ∧
    ∀ bytes, ¬ Together 0 bytes (stream tr) := by
  have h := @System.exec_run _ _ _ pipeWrites ⟨newPipe, fun _ => .idle, []⟩
    [.call 0 (.vec [[97], [98]]), .call 1 (.one [99]), .op 0 false, .op 1 false, .op 0 false] _ _
    rfl
  refine ⟨_, _, h, rfl, rfl, ?_⟩
  rintro bytes ⟨a, b, hl, ha, hb⟩
  have hl : [(0, 97), (1, 99), (0, 98)] = a ++ bytes.map (0, ·) ++ b := hl
  have hmem : ((1, 99) : ℕ × UInt8) ∉ bytes.map (0, ·) := by simp
  cases a with
  | cons x a =>
    obtain ⟨rfl, -⟩ := List.cons.inj hl
    exact ha _ mem_cons_self rfl
  | nil =>
    rcases eq_nil_or_concat b with rfl | ⟨b, y, rfl⟩
    · rw [append_nil, nil_append] at hl
      exact hmem (hl ▸ by simp)
    · have hlast := congrArg List.getLast? hl
      rw [concat_eq_append, ← append_assoc, List.getLast?_concat] at hlast
      exact hb y (by simp) (Option.some.inj hlast ▸ rfl)

end PgZero.Guest
