import PgZero.Guest.HostCalls
import PgZero.Kernel.ReadAhead

/-!
# `readv` on pipes and sockets

`__wrap_readv` reads one vector after the other and stops at the first that is not filled. If the
bytes that are there end where a vector ends, it reads on for the next one, and waits.

* **`waitsWithData_iff`**: when a call that is left alone waits although it has data.
* **`readv_waits`**: a call with at most one vector that is not empty never does.
-/

set_option autoImplicit false

namespace PgZero.Guest

open Function Lib Kernel List

/-! ### The two files -/

/-- Reads from a pipe, into buffers of the given lengths. -/
def pipeRead : HostOp Pipe PipeCall PipeAns ℕ where
  op := .read
  result
    | .got bs => .ok bs.length
    | .wrote n => .ok n
    | .err e => .error e
    | .released => .ok 0
  len := id
  other _ := true

/-- Reads from a socket. -/
def sockRead : HostOp SockSys SockAct SockAns ℕ where
  op len := .recv len false
  result
    | .got bs => .ok bs.length
    | .err e => .error e
    | _ => .ok 0
  len := id
  other _ := true

/-- Reads of a pipe. -/
def pipeReads := hostCalls pipeSystem pipeRead

/-- Reads of a socket. -/
def sockReads := hostCalls sockSystem sockRead

/-- No end of file: more may come. -/
def pipeLive (p : Pipe) : Prop := p.writers ≠ 0

/-- The socket can still receive. -/
def sockLive (s : SockSys) : Prop := s.sock.state = .sockConnected ∧ s.sock.rerr = none

section

variable {σ ε ω : Type} {base : System σ ε ω} {F : HostOp σ ε ω ℕ} {avail : σ → List UInt8}
  {live : σ → Prop}

/-- A file with the bytes `avail`. As long as it is `live`, a read takes some or blocks. -/
structure ReadFile (base : System σ ε ω) (F : HostOp σ ε ω ℕ) (avail : σ → List UInt8)
    (live : σ → Prop) : Prop where
  len : ∀ n, F.len n = n
  bound : ∀ f, base.Reachable f → (avail f).length < 2 ^ 31
  moved : ∀ f n f' o k, base.step f (F.op n) = some (f', o) → F.result o = .ok k →
    k ≤ (avail f).length
  reads : ∀ f n, 0 < n → live f → ∃ f' o, base.step f (F.op n) = some (f', o) ∧ live f' ∧
    avail f' = (avail f).drop n ∧
    F.result o = if avail f = [] then .error .EAGAIN else .ok (min n (avail f).length)

theorem pipe_readFile : ReadFile pipeSystem pipeRead Pipe.buf pipeLive where
  len _ := rfl
  bound p hp := by
    obtain ⟨p0, tr, rfl, hr⟩ := hp
    exact (pipe_stream hr).2.1.trans_lt (by decide)
  moved p n p' o k hs hk := by
    obtain ⟨-, rfl⟩ := pipeSystem_step.mp hs
    rcases PipeReader.read_cases p n with ⟨-, h⟩ | ⟨-, -, h⟩ | ⟨-, -, -, h⟩ | ⟨-, -, -, h⟩ <;>
      simp only [pipeStep, pipeRead, h] at hk <;> cases hk
    · exact Nat.zero_le _
    · exact length_take_le' _ _
    · exact Nat.zero_le _
  reads p n hn hl := by
    by_cases hb : p.buf = []
    · have h : PipeReader.read p n = ⟨p, false, .error .EAGAIN⟩ := by
        rw [PipeReader.read, if_neg hn.ne', if_neg (by simp [hb]), if_neg hl]
      refine ⟨p, .err .EAGAIN, ?_, hl, by simp [hb], by simp [pipeRead, hb]⟩
      simp [pipeSystem, pipeStep, pipeRead, h]
    · have h : PipeReader.read p n =
          ⟨{ p with buf := p.buf.drop n }, true, .ok (p.buf.take n)⟩ := by
        rw [PipeReader.read, if_neg hn.ne', if_pos (length_pos_iff.mpr hb)]
      refine ⟨{ p with buf := p.buf.drop n }, .got (p.buf.take n), ?_, hl, rfl, ?_⟩
      · simp [pipeSystem, pipeStep, pipeRead, h]
      · simp [pipeRead, hb]

theorem sock_readFile :
    ReadFile sockSystem sockRead (fun s => s.sock.rbuf) sockLive where
  len _ := rfl
  bound s hs := by
    obtain ⟨s0, tr, hi, hr⟩ := hs
    exact (sock_run hi hr).2.bound.trans (by decide)
  moved s n s' o k hs hk := by
    obtain ⟨-, rfl⟩ := Prod.mk.inj (Option.some.inj hs)
    rcases Socket.recv_cases s.sock n false with ⟨r, h, hnil, -⟩ | ⟨-, -, -, h⟩
    · rw [h] at hk
      cases r with
      | error e => cases hk
      | ok bs =>
        cases hk
        rw [hnil rfl bs rfl]
        exact Nat.zero_le _
    · rw [h] at hk
      cases hk
      exact length_take_le' _ _
  reads s n hn hl := by
    obtain ⟨hst, hnone⟩ := hl
    by_cases hb : s.sock.rbuf = []
    · have h : s.sock.recv n false = ⟨s.sock, false, false, .error .EAGAIN⟩ := by
        simp [Socket.recv, hst, hn.ne', hb, hnone]
      refine ⟨s, .err .EAGAIN, ?_, ⟨hst, hnone⟩, by simp [hb], by simp [sockRead, hb]⟩
      simp [sockSystem, sockStep, sockRead, h, SockSys.call, answer]
    · have h : s.sock.recv n false = ⟨{ s.sock with rbuf := s.sock.rbuf.drop n }, true, false,
          .ok (s.sock.rbuf.take n)⟩ := by
        simp [Socket.recv, hst, hn.ne', length_pos_iff.mpr hb]
      refine ⟨s.call (s.sock.recv n false), .got (s.sock.rbuf.take n), ?_, ?_, ?_, ?_⟩
      · simp [sockSystem, sockStep, sockRead, h, answer]
      · rw [h]
        exact ⟨hst, hnone⟩
      · rw [h]
        rfl
      · simp [sockRead, hb]

/-! ### The vectors that count -/

theorem filter_dropWhile_zero (vs : List ℕ) :
    (vs.dropWhile (· = 0)).filter (0 < ·) = vs.filter (0 < ·) := by
  induction vs with
  | nil => rfl
  | cons v vs ih =>
    by_cases hv : v = 0
    · rw [dropWhile_cons_of_pos (by simpa using hv), ih,
        filter_cons_of_neg (by simpa using hv)]
    · rw [dropWhile_cons_of_neg (by simpa using hv)]

theorem ReadFile.next_eq (hR : ReadFile base F avail live) {vs us : List ℕ} {u : ℕ}
    (h : vs.filter (0 < ·) = u :: us) (id : ℕ) (total : ℤ) :
    ∃ rest, F.next id total vs = (.calling ⟨id, u, rest, total⟩, none) ∧
      rest.filter (0 < ·) = us := by
  have hlen : (fun v => decide (F.len v = 0)) = fun v => decide (v = 0) := by
    funext v
    rw [hR.len]
  rw [← filter_dropWhile_zero] at h
  unfold HostOp.next
  rw [hlen]
  cases hd : vs.dropWhile (· = 0) with
  | nil => simp [hd] at h
  | cons v rest =>
    have hv : ¬ v = 0 := by
      have hne : vs.dropWhile (· = 0) ≠ [] := by simp [hd]
      have hnot := head_dropWhile_not (· = 0) hne
      simpa [hd] using hnot
    rw [hd, filter_cons_of_pos (by simp; omega)] at h
    obtain ⟨rfl, hrest⟩ := List.cons.inj h
    exact ⟨rest, rfl, hrest⟩

/-! ### A call that is left alone -/

/-- The process waits although its call has data, if only this call goes on. -/
def WaitsWithData (sys : System (HostCalls σ ℕ) (HostAct ε ℕ) (HostAns ω ℕ)) (p : ℕ)
    (s : HostCalls σ ℕ) : Prop :=
  ∃ tr s' t, sys.Run s tr s' ∧ (∀ x ∈ tr, x.1 = .op p false) ∧ s'.pc p = .parked t ∧ t.total ≠ 0

/-- `n` bytes end where a vector ends that is not the last. -/
def LinedUp (lens : List ℕ) (n : ℕ) : Prop := ∃ k, 0 < k ∧ k < lens.length ∧ n = (lens.take k).sum

/-- The vectors of a call from here on that are not empty. -/
def Turn.lens (t : Turn ℕ) : List ℕ := t.v :: t.rest.filter (0 < ·)

/-- Of `n` bytes and the vectors `lens`, the first ones have been filled. -/
structure Filled (avail : σ → List UInt8) (live : σ → Prop) (lens : List ℕ) (n : ℕ) (f : σ)
    (t : Turn ℕ) (filled : List ℕ) : Prop where
  lens : lens = filled ++ t.lens
  pos : 0 < t.v
  total : t.total = filled.sum
  rest : filled.sum + (avail f).length = n
  live : live f

variable {s s' : HostCalls σ ℕ} {p : ℕ} {t : Turn ℕ} {lens filled : List ℕ} {n : ℕ}

/-- One more read: the call waits, returns, or has filled one more vector. -/
theorem Filled.read (hR : ReadFile base F avail live) (hn : n < 2 ^ 31)
    (h : Filled avail live lens n s.file t filled) {f : σ} {o : ω}
    (hs : base.step s.file (F.op t.v) = some (f, o)) :
    (avail s.file = [] ∧ avail f = [] ∧ F.after t false (F.result o) = (.parked t, none) ∧
      Filled avail live lens n f t filled) ∨
    (avail s.file ≠ [] ∧ ((avail s.file).length < t.v ∨ t.lens = [t.v]) ∧
      ∃ r, F.after t false (F.result o) = (.idle, some r)) ∨
    ∃ t', t.lens = t.v :: t'.lens ∧ F.after t false (F.result o) = (.calling t', none) ∧
      Filled avail live lens n f t' (filled ++ [t.v]) := by
  obtain ⟨f', o', hs', hl, ha, ho⟩ := hR.reads s.file t.v h.pos h.live
  rw [hs] at hs'
  cases hs'
  have hrest := h.rest
  rw [ho]
  by_cases hnil : avail s.file = []
  · refine Or.inl ⟨hnil, by rw [ha, hnil, drop_nil], ?_, h.lens, h.pos, h.total, ?_, hl⟩
    · rw [if_pos hnil, HostOp.after, if_pos ⟨rfl, rfl⟩]
    · rw [ha, hnil, drop_nil, ← hrest, hnil]
  refine Or.inr ?_
  rw [if_neg hnil, HostOp.after, hR.len]
  by_cases hlt : min t.v (avail s.file).length < t.v
  · exact Or.inl ⟨hnil, Or.inl (by omega), _, if_pos hlt⟩
  have hle : t.v ≤ (avail s.file).length := by omega
  have htotal : wrap 32 (t.total + ↑(min t.v (avail s.file).length)) = ↑(filled ++ [t.v]).sum := by
    rw [min_eq_left hle, h.total, sum_append, sum_singleton, wrap32_eq]
    · push_cast
      rfl
    · omega
    · omega
  rw [if_neg hlt, htotal]
  cases hf : t.rest.filter (0 < ·) with
  | nil =>
    refine Or.inl ⟨hnil, Or.inr (by rw [Turn.lens, hf]), _, HostOp.next_empty fun v hv => ?_⟩
    have hnot := filter_eq_nil_iff.mp hf v hv
    rw [hR.len]
    simpa using hnot
  | cons u us =>
    obtain ⟨rest, hnext, hus⟩ := hR.next_eq hf t.id (filled ++ [t.v]).sum
    have hu : 0 < u := by
      have hmem : u ∈ t.rest.filter (0 < ·) := hf ▸ mem_cons_self
      simpa using (mem_filter.mp hmem).2
    have hlens : t.lens = t.v :: u :: us := by rw [Turn.lens, hf]
    refine Or.inr ⟨_, by rw [hlens, Turn.lens, hus], hnext, ?_, hu, rfl, ?_, hl⟩
    · rw [h.lens, hlens, Turn.lens, hus, append_assoc]
      rfl
    · rw [ha, length_drop, sum_append, sum_singleton]
      omega

/-- While only this call goes on, some vectors are filled; it waits with nothing to read. -/
theorem alone_filled (hR : ReadFile base F avail live) (hn : n < 2 ^ 31)
    (hpc : s.pc p = .calling t) (h : Filled avail live lens n s.file t [])
    {tr : List (HostAct ε ℕ × HostAns ω ℕ)} (hr : (hostCalls base F).Run s tr s')
    (htr : ∀ x ∈ tr, x.1 = .op p false) :
    ∀ t', (s'.pc p).turn = some t' →
      (s'.pc p = .parked t' → avail s'.file = []) ∧
        ∃ filled, Filled avail live lens n s'.file t' filled := by
  induction hr with
  | nil =>
    intro t' ht'
    rw [hpc] at ht' ⊢
    cases ht'
    exact ⟨fun hp => (by cases hp), [], h⟩
  | @snoc tr s1 s2 e o _ hs ih =>
    have he : e = .op p false := htr (e, o) (by simp)
    have ih := ih fun x hx => htr x (mem_append_left _ hx)
    subst he
    cases hostCase_of_step hs with
    | op hpc1 hf =>
      rw [hpc1] at ih
      obtain ⟨-, filled, hfill⟩ := ih _ rfl
      intro t' ht'
      dsimp only at ht' ⊢
      rw [update_self] at ht' ⊢
      rcases hfill.read hR hn hf with ⟨-, hnil, hafter, hkeep⟩ | ⟨-, -, r, hafter⟩ |
        ⟨t2, -, hafter, hmore⟩
      · rw [hafter] at ht'
        cases ht'
        exact ⟨fun _ => hnil, filled, hkeep⟩
      · rw [hafter] at ht'
        cases ht'
      · rw [hafter] at ht' ⊢
        cases ht'
        exact ⟨fun hp => (by cases hp), _, hmore⟩

theorem op_step (hpc : s.pc p = .calling t) {f : σ} {o : ω}
    (hs : base.step s.file (F.op t.v) = some (f, o)) :
    (hostCalls base F).step s (.op p false) = some
      (⟨f, update s.pc p (F.after t false (F.result o)).1, s.calls⟩,
        .host t (F.result o) (F.after t false (F.result o)).2) := by
  simp [hostCalls, hostStep, hpc, hs]

/-- With as many bytes as some vectors take, and a vector after them, the call waits. -/
theorem waits_of_filled (hR : ReadFile base F avail live) (hn : n < 2 ^ 31) {left : List ℕ}
    (hpc : s.pc p = .calling t) (h : Filled avail live lens n s.file t filled)
    (hleft : left <+: t.lens) (hlt : left.length < t.lens.length)
    (hsum : (avail s.file).length = left.sum) :
    ∃ tr s' t', (hostCalls base F).Run s tr s' ∧ (∀ x ∈ tr, x.1 = .op p false) ∧
      s'.pc p = .parked t' ∧ t'.total = n := by
  induction left generalizing s t filled with
  | nil =>
    obtain ⟨f, o, hs, -⟩ := hR.reads s.file t.v h.pos h.live
    have hnil : avail s.file = [] := length_eq_zero_iff.mp hsum
    rcases h.read hR hn hs with ⟨-, -, hafter, hkeep⟩ | ⟨hne, -⟩ | ⟨t', -, -, hmore⟩
    · refine ⟨_, _, t, .snoc .nil (op_step hpc hs), by simp, ?_, ?_⟩
      · simp [hafter]
      · have hrest := h.rest
        rw [hsum, sum_nil] at hrest
        rw [h.total]
        omega
    · exact absurd hnil hne
    · have hrest := h.rest
      have hrest' := hmore.rest
      have hpos := h.pos
      rw [sum_append, sum_singleton] at hrest'
      rw [hnil, length_nil] at hrest
      omega
  | cons u left ih =>
    obtain ⟨f, o, hs, -⟩ := hR.reads s.file t.v h.pos h.live
    have hu : u = t.v := by
      obtain ⟨more, hmore⟩ := hleft
      exact (List.cons.inj hmore).1
    rw [sum_cons] at hsum
    have hpos := h.pos
    rcases h.read hR hn hs with ⟨hnil, -⟩ | ⟨-, hshort | hlast, -⟩ | ⟨t', hlens, hafter, hmore⟩
    · rw [hnil, length_nil] at hsum
      omega
    · omega
    · rw [hlast] at hlt
      simp at hlt
    · -- the vector is filled, and the next one is read
      have hrest := h.rest
      have hrest' := hmore.rest
      rw [hlens, length_cons, length_cons] at hlt
      rw [hlens, hu, cons_prefix_cons] at hleft
      rw [sum_append, sum_singleton] at hrest'
      obtain ⟨tr, s', t'', hrun, htr, hpc', htotal⟩ :=
        @ih ⟨f, update s.pc p (.calling t'), s.calls⟩ t' _ (update_self _ _ _)
          hmore hleft.2 (by omega) (by dsimp only; omega)
      have hstep := op_step hpc hs
      rw [hafter] at hstep
      refine ⟨_, s', t'', .cons hstep hrun, ?_, hpc', htotal⟩
      simpa using htr

/-- **When a call waits with data**: the bytes that are there line up with its vectors. -/
theorem waitsWithData_iff (hR : ReadFile base F avail live) (hf : base.Reachable s.file)
    (hpc : s.pc p = .calling t) (h0 : t.total = 0) (hpos : 0 < t.v) (hlive : live s.file) :
    WaitsWithData (hostCalls base F) p s ↔ LinedUp t.lens (avail s.file).length := by
  have hn := hR.bound s.file hf
  have hstart : Filled avail live t.lens (avail s.file).length s.file t [] :=
    ⟨rfl, hpos, h0, Nat.zero_add _, hlive⟩
  constructor
  · rintro ⟨tr, s', t', hrun, htr, hpc', htotal⟩
    obtain ⟨hnil, filled, hfill⟩ := alone_filled hR hn hpc hstart hrun htr t' (by rw [hpc']; rfl)
    have hne : filled ≠ [] := by
      rintro rfl
      exact htotal hfill.total
    refine ⟨filled.length, length_pos_iff.mpr hne, ?_, ?_⟩
    · rw [hfill.lens, length_append, Turn.lens, length_cons]
      omega
    · rw [← hfill.rest, hnil hpc', hfill.lens, take_left]
      rfl
  · rintro ⟨k, hk, hlt, hsum⟩
    obtain ⟨tr, s', t', hrun, htr, hpc', htotal⟩ := waits_of_filled hR hn hpc hstart
      ( take_prefix k _) (by rw [length_take]; omega) hsum
    refine ⟨tr, s', t', hrun, htr, hpc', ?_⟩
    -- the first of the vectors is not empty
    obtain ⟨j, rfl⟩ := Nat.exists_eq_succ_of_ne_zero hk.ne'
    rw [Turn.lens, take_succ_cons, sum_cons] at hsum
    omega

/-! ### Calls with one vector -/

/-- A call with at most one vector that is not empty returns what it has read. -/
theorem single_read (hR : ReadFile base F avail live) (h : (hostCalls base F).Reachable s)
    (ht : (s.pc p).turn = some t) {c : GuestCall ℕ} (hc : s.calls[t.id]? = some c)
    (hsingle : c.vectors.countP (0 < ·) ≤ 1) :
    t.total = 0 ∧ ∀ nonblock s' k ret,
      (hostCalls base F).step s (.op p nonblock) = some (s', .host t (.ok k) ret) →
        ret = some (k : ℤ) ∧ s'.pc p = .idle := by
  obtain ⟨c', before, hok⟩ := (callsInv h).turn p t ht
  obtain rfl : c' = c := Option.some.inj (hok.listed.symm.trans hc)
  have hcount : c'.vectors.countP (0 < F.len ·) ≤ 1 := by simpa only [hR.len] using hsingle
  obtain ⟨htotal, -, hrest⟩ := hok.single hcount
  refine ⟨htotal, fun nonblock s' k ret hs => ?_⟩
  generalize hans : HostAns.host t (.ok k) ret = o at hs
  cases hostCase_of_step hs with
  | @op _ _ t' f o hpc hf =>
    injection hans with h1 h2 h3
    subst h1
    have hle := hR.moved _ _ _ _ k hf h2.symm
    have hbound := hR.bound s.file (hostCalls_file h)
    have hafter : F.after t nonblock (F.result o) = (.idle, some (k : ℤ)) := by
      rw [← h2, HostOp.after, htotal, zero_add, wrap32_eq (by omega) (by omega),
        HostOp.next_empty hrest, ite_self]
    rw [h3, hafter]
    exact ⟨rfl, update_self _ _ _⟩

/-- What holds of the calls that read from a file. -/
structure ReadvSpec (sys : System (HostCalls σ ℕ) (HostAct ε ℕ) (HostAns ω ℕ))
    (avail : σ → List UInt8) (live : σ → Prop) (s : HostCalls σ ℕ) : Prop where
  /-- A call with at most one vector that is not empty makes its host read, and waits in it, with
  nothing read before, and returns what this read gives. -/
  single : ∀ p t c, (s.pc p).turn = some t → s.calls[t.id]? = some c →
    c.vectors.countP (0 < ·) ≤ 1 →
    t.total = 0 ∧ ∀ nonblock s' k ret,
      sys.step s (.op p nonblock) = some (s', .host t (.ok k) ret) →
        ret = some (k : ℤ) ∧ s'.pc p = .idle
  /-- Any call that is left alone waits with data exactly if the bytes line up with its vectors. -/
  alone : ∀ p t, s.pc p = .calling t → t.total = 0 → 0 < t.v → live s.file →
    (WaitsWithData sys p s ↔ LinedUp t.lens (avail s.file).length)

theorem ReadFile.readvSpec (hR : ReadFile base F avail live)
    (h : (hostCalls base F).Reachable s) : ReadvSpec (hostCalls base F) avail live s where
  single _ _ _ ht hc hsingle := single_read hR h ht hc hsingle
  alone _ _ hpc h0 hpos hlive := waitsWithData_iff hR (hostCalls_file h) hpc h0 hpos hlive

end

/-- **`readv` waits only without data** if at most one of its vectors is not empty. With more, a
call that is left alone waits with data exactly if the bytes end where a vector does. -/
theorem readv_waits {s : HostCalls Pipe ℕ} {s' : HostCalls SockSys ℕ}
    (h : pipeReads.Reachable s) (h' : sockReads.Reachable s') :
    ReadvSpec pipeReads Pipe.buf pipeLive s ∧
      ReadvSpec sockReads (fun f => f.sock.rbuf) sockLive s' :=
  ⟨pipe_readFile.readvSpec h, sock_readFile.readvSpec h'⟩

/-- Two bytes in a pipe, and vectors of which one is not empty. -/
theorem readv_waits_single : ∃ s, pipeReads.Reachable s ∧
    (s.pc 0).turn = some ⟨0, 4, [0], 0⟩ ∧ s.file.buf = [1, 2] ∧ ¬ WaitsWithData pipeReads 0 s := by
  have h := @System.reachable_of_exec _ _ _ pipeReads ⟨newPipe, fun _ => .idle, []⟩ _
    [.file (.write [1, 2]), .call 0 (.vec [0, 4, 0])] _ ⟨rfl, fun _ => rfl, rfl⟩ rfl
  have h' := @System.reachable_of_exec _ _ _ sockReads ⟨.start true, fun _ => .idle, []⟩ _ [] _
    ⟨⟨true, rfl⟩, fun _ => rfl, rfl⟩ rfl
  have hlive : (1 : ℤ) ≠ 0 := by decide
  refine ⟨_, h, rfl, rfl, ?_⟩
  rw [(readv_waits h h').1.alone 0 ⟨0, 4, [0], 0⟩ rfl rfl (by decide) hlive]
  rintro ⟨k, hk, hlt, -⟩
  have hlen : k < 1 := hlt
  omega

/-- Two bytes in a pipe and vectors of two and three. -/
theorem readv_waits_lined_up : ∃ s s' o, pipeReads.Reachable s ∧ s.calls = [.vec [2, 3]] ∧
    s.pc 0 = .calling ⟨0, 3, [], 2⟩ ∧ s.file.buf = [] ∧ pipeLive s.file ∧
    pipeReads.step s (.op 0 false) = some (s', o) ∧ s'.pc 0 = .parked ⟨0, 3, [], 2⟩ := by
  have h := @System.reachable_of_exec _ _ _ pipeReads ⟨newPipe, fun _ => .idle, []⟩ _
    [.file (.write [1, 2]), .call 0 (.vec [2, 3]), .op 0 false] _ ⟨rfl, fun _ => rfl, rfl⟩ rfl
  have hlive : (1 : ℤ) ≠ 0 := by decide
  exact ⟨_, _, _, h, rfl, by decide +kernel, rfl, hlive, rfl, by decide +kernel⟩

end PgZero.Guest
