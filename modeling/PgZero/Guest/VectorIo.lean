import PgZero.Lib.Copy
import PgZero.Lib.Loop
import PgZero.Lib.Word

/-!
# Reading and writing files

`__wrap_pwritev`, `__wrap_preadv` and `write_file_fully` of libpgzero: they call on until everything
is transferred. Each call transfers as many bytes as it likes, or fails. Sizes have 32 bits: the
running total of the vectors is a `ssize_t`.

* **`file_transfers`**: every transfer is exact, whatever the calls do, exactly if these bytes can
  be counted in a `ssize_t` (and those that are read have different places).
-/

set_option autoImplicit false

namespace PgZero.Guest

open Lib

/-- The largest `ssize_t`. -/
def SSIZE_MAX : ℕ := 2 ^ 31 - 1

/-- The largest `off_t`. -/
def OFF_MAX : ℤ := 2 ^ 63 - 1

/-- A range of the memory, which has `2 ^ 32` bytes. -/
structure IoVec where
  base : ℕ
  len : ℕ
  size : len < 2 ^ 32
  fits : base + len ≤ 2 ^ 32

/-- The memory, and the file that is read or written. -/
structure IoWorld where
  mem : ℕ → UInt8
  file : ℤ → UInt8

/-- The bytes from `p` on go to the file. -/
def IoWorld.pwrite (w : IoWorld) (p n : ℕ) (pos : ℤ) : IoWorld :=
  { w with
    file := fun a => if pos ≤ a ∧ a < pos + n then w.mem (p + (a - pos).toNat) else w.file a }

/-- The bytes of the file go to `p`. -/
def IoWorld.pread (w : IoWorld) (p n : ℕ) (pos : ℤ) : IoWorld :=
  { w with mem := fun a => if p ≤ a ∧ a < p + n then w.file (pos + (a - p : ℕ)) else w.mem a }

/-- How a call goes: it fails, or moves at most so many bytes. -/
abbrev IoCall := Option ℕ

/-- The result of a call for `left` bytes at `pos`: a `ssize_t` that is not more than what was asked
for, and no byte after the last `off_t`. -/
def IoCall.moved (c : IoCall) (left : ℕ) (pos : ℤ) : Option ℕ :=
  c.map fun k => min (min k left) (min SSIZE_MAX (OFF_MAX - pos).toNat)

/-- Which `return` was reached. -/
inductive IoReturn
  | error
  | zero
  | all
  deriving DecidableEq

/-- How a function ends: its result, and what it leaves. -/
structure IoExit where
  ret : IoReturn
  value : ℤ
  world : IoWorld

/-! ### `__wrap_pwritev` and `__wrap_preadv` -/

/-- The variables of the loops, and how many calls were made. -/
structure VecState where
  p : ℕ
  left : ℕ
  /-- The vectors after the current one. -/
  rest : List IoVec
  total : ℤ
  world : IoWorld
  calls : ℕ

/-- One turn of the inner loop, or the start of the next vector. -/
def vecTurn (op : IoWorld → ℕ → ℕ → ℤ → IoWorld) (call : ℕ → IoCall) (offset : BitVec 64)
    (s : VecState) : VecState ⊕ IoExit :=
  if 0 < s.left then
    let pos := wrap 64 (offset.toInt + s.total)
    match (call s.calls).moved s.left pos with
    | none => .inr ⟨.error, if 0 < s.total then s.total else -1, s.world⟩
    | some n =>
      if n = 0 then .inr ⟨.zero, s.total, s.world⟩
      else
        .inl { s with
          p := s.p + n
          left := s.left - n
          total := wrap 32 (s.total + n)
          world := op s.world s.p n pos
          calls := s.calls + 1 }
  else
    match s.rest with
    | [] => .inr ⟨.all, s.total, s.world⟩
    | v :: rest => .inl { s with p := v.base, left := v.len, rest := rest }

/-- The bytes of the vectors. -/
def totalLen (vs : List IoVec) : ℕ := (vs.map IoVec.len).sum

/-- The turns that are left, at most. -/
def VecState.work (s : VecState) : ℕ := s.left + (totalLen s.rest + s.rest.length)

/-- Both loops, from the first vector on. -/
def vecLoop (op : IoWorld → ℕ → ℕ → ℤ → IoWorld) (call : ℕ → IoCall) (offset : BitVec 64)
    (vs : List IoVec) (w : IoWorld) : Option IoExit :=
  let s : VecState := ⟨0, 0, vs, 0, w, 0⟩
  Loop.run (vecTurn op call offset) (s.work + 1) s

/-- `__wrap_pwritev`. -/
def pwritev : (ℕ → IoCall) → BitVec 64 → List IoVec → IoWorld → Option IoExit :=
  vecLoop IoWorld.pwrite

/-- `__wrap_preadv`. -/
def preadv : (ℕ → IoCall) → BitVec 64 → List IoVec → IoWorld → Option IoExit :=
  vecLoop IoWorld.pread

/-! ### `write_file_fully` -/

/-- The variables of the loop, and how many calls were made. -/
structure FullyState where
  total : ℕ
  /-- The position of the file. -/
  pos : ℤ
  world : IoWorld
  calls : ℕ

/-- One turn; the exit has the position of the file with it. -/
def fullyTurn (call : ℕ → IoCall) (buf : IoVec) (s : FullyState) : FullyState ⊕ (IoExit × ℤ) :=
  if s.total < buf.len then
    match (call s.calls).moved (buf.len - s.total) s.pos with
    | none => .inr (⟨.error, if 0 < s.total then wrap 32 s.total else -1, s.world⟩, s.pos)
    | some n =>
      if n = 0 then .inr (⟨.zero, wrap 32 s.total, s.world⟩, s.pos)
      else
        .inl {
          total := (s.total + n) % 2 ^ 32
          pos := s.pos + n
          world := s.world.pwrite (buf.base + s.total) n s.pos
          calls := s.calls + 1 }
  else .inr (⟨.all, wrap 32 s.total, s.world⟩, s.pos)

/-- `write_file_fully`, with the file at `pos`. -/
def writeFileFully (call : ℕ → IoCall) (buf : IoVec) (pos : ℤ) (w : IoWorld) :
    Option (IoExit × ℤ) :=
  Loop.run (fullyTurn call buf) (buf.len + 1) ⟨0, pos, w, 0⟩

/-! ### What is transferred -/

/-- The address of the `i`-th byte of the vectors. -/
def addrAt : List IoVec → ℕ → ℕ
  | [], _ => 0
  | v :: vs, i => if i < v.len then v.base + i else addrAt vs (i - v.len)

/-- `n` bytes from the addresses `addr` are in the file from `pos` on, and nothing else changed. -/
structure Wrote (w : IoWorld) (pos : ℤ) (addr : ℕ → ℕ) (w' : IoWorld) (n : ℕ) : Prop where
  mem : w'.mem = w.mem
  file : Copied w.file (fun i => pos + i) (fun i => w.mem (addr i)) w'.file n

/-- `n` bytes of the file from `pos` on are at the addresses `addr`, and nothing else changed. -/
structure Fetched (w : IoWorld) (pos : ℤ) (addr : ℕ → ℕ) (w' : IoWorld) (n : ℕ) : Prop where
  file : w'.file = w.file
  mem : Copied w.mem addr (fun i => w.file (pos + i)) w'.mem n

/-- `n` of `len` bytes were transferred as `Done` says, and this is what is returned: less than
everything only after a call that moved nothing or failed, and `-1` only for nothing. -/
structure Transferred (len : ℕ) (Done : IoWorld → ℕ → Prop) (e : IoExit) (n : ℕ) : Prop where
  le : n ≤ len
  done : Done e.world n
  short : n < len → e.ret ≠ .all
  value : e.value = n ∨ (e.value = -1 ∧ n = 0 ∧ e.ret = .error)

/-- The bytes that can be transferred from `pos` on, up to the last `off_t`. -/
def reach (pos : ℤ) (len : ℕ) : ℕ := min len (OFF_MAX - pos).toNat

theorem IoCall.moved_some {c : IoCall} {left n : ℕ} {pos : ℤ} (h : c.moved left pos = some n) :
    n ≤ left ∧ (n ≠ 0 → pos + n ≤ OFF_MAX) := by
  obtain ⟨k, -, rfl⟩ := Option.map_eq_some_iff.mp h
  refine ⟨(Nat.min_le_left _ _).trans (Nat.min_le_right _ _), fun h0 => ?_⟩
  have hle : min (min k left) (min SSIZE_MAX (OFF_MAX - pos).toNat) ≤ (OFF_MAX - pos).toNat :=
    (Nat.min_le_right _ _).trans (Nat.min_le_right _ _)
  omega

theorem moved_one {left k : ℕ} {pos : ℤ} (h : IoCall.moved (some 1) left pos = some k)
    (hl : 0 < left) : k = 1 ∨ k = 0 ∧ OFF_MAX ≤ pos := by
  have hk : min (min 1 left) (min SSIZE_MAX (OFF_MAX - pos).toNat) = k := Option.some.inj h
  have hmax : SSIZE_MAX = 2 ^ 31 - 1 := rfl
  omega

theorem IoWorld.wrote_pwrite {w w' : IoWorld} {pos : ℤ} {addr : ℕ → ℕ} {n k p : ℕ}
    (h : Wrote w pos addr w' n) (hp : ∀ i < k, addr (n + i) = p + i) :
    Wrote w pos addr (w'.pwrite p k (pos + n)) (n + k) where
  mem := h.mem
  file := by
    refine h.file.more (fun i _ j _ hij => ?_) (fun i hi => ?_) fun a ha => ?_
    · omega
    · have hin : pos + n ≤ pos + ↑(n + i) ∧ pos + ↑(n + i) < pos + n + k := by
        push_cast
        omega
      have hat : p + (pos + ↑(n + i) - (pos + n)).toNat = p + i := by
        push_cast
        omega
      simp only [IoWorld.pwrite]
      rw [if_pos hin, hat, hp i hi, h.mem]
    · simp only [IoWorld.pwrite]
      refine if_neg fun hin => ?_
      refine ha (a - (pos + n)).toNat (by omega) ?_
      push_cast
      omega

theorem IoWorld.fetched_pread {w w' : IoWorld} {pos : ℤ} {addr : ℕ → ℕ} {n k p : ℕ}
    (h : Fetched w pos addr w' n) (hp : ∀ i < k, addr (n + i) = p + i)
    (hinj : ∀ i < n + k, ∀ j < n + k, addr i = addr j → i = j) :
    Fetched w pos addr (w'.pread p k (pos + n)) (n + k) where
  file := h.file
  mem := by
    refine h.mem.more hinj (fun i hi => ?_) fun a ha => ?_
    · have hpos : pos + n + ↑(p + i - p) = pos + ↑(n + i) := by
        push_cast
        omega
      simp only [IoWorld.pread]
      rw [hp i hi, if_pos ⟨Nat.le_add_right _ _, Nat.add_lt_add_left hi p⟩, h.file, hpos]
    · simp only [IoWorld.pread]
      refine if_neg fun hin => ?_
      refine ha (a - p) (by omega) ?_
      rw [hp (a - p) (by omega)]
      omega

/-! ### The loops over the vectors -/

section Vectors

variable {op : IoWorld → ℕ → ℕ → ℤ → IoWorld} {call : ℕ → IoCall} {offset : BitVec 64}
  {vs : List IoVec} {Done : IoWorld → ℕ → Prop} {s s' : VecState} {n : ℕ}

/-- After `n` bytes: the current vector and the rest are where the next bytes are. -/
structure VecInv (vs : List IoVec) (offset : BitVec 64) (Done : IoWorld → ℕ → Prop) (s : VecState)
    (n : ℕ) : Prop where
  total : s.total = wrap 32 n
  len : n + (s.left + totalLen s.rest) = totalLen vs
  here : ∀ i < s.left, addrAt vs (n + i) = s.p + i
  after : ∀ i, addrAt vs (n + s.left + i) = addrAt s.rest i
  pos : offset.toInt + n ≤ OFF_MAX
  done : Done s.world n

theorem VecInv.next (h : VecInv vs offset Done s n) (hl : s.left = 0) {v : IoVec}
    {rest : List IoVec} (hr : s.rest = v :: rest) :
    VecInv vs offset Done { s with p := v.base, left := v.len, rest := rest } n where
  total := h.total
  len := by
    have hlen := h.len
    rw [hl, hr, totalLen, List.map_cons, List.sum_cons] at hlen
    dsimp only
    rw [totalLen]
    omega
  here i hi := by
    have hi : i < v.len := hi
    have hafter := h.after i
    rw [hl, hr, addrAt, if_pos hi] at hafter
    exact hafter
  after i := by
    have hafter := h.after (v.len + i)
    rw [hl, hr, addrAt, if_neg (by omega), Nat.add_sub_cancel_left] at hafter
    rw [← hafter]
    congr 1
    dsimp only
    omega
  pos := h.pos
  done := h.done

theorem VecInv.total_eq (h : VecInv vs offset Done s n) (hn : n ≤ SSIZE_MAX) : s.total = n := by
  have hmax : SSIZE_MAX = 2 ^ 31 - 1 := rfl
  rw [h.total, wrap32_eq (by omega) (by omega)]

theorem VecInv.wrap_pos (h : VecInv vs offset Done s n) (hn : n ≤ SSIZE_MAX) :
    wrap 64 (offset.toInt + s.total) = offset.toInt + n := by
  have hpos := h.pos
  have hlow := @BitVec.le_toInt 64 offset
  unfold OFF_MAX at hpos
  rw [h.total_eq hn]
  exact wrap64_eq (by omega) (by omega)

theorem VecInv.le_reach (h : VecInv vs offset Done s n) : n ≤ reach offset.toInt (totalLen vs) := by
  have hlen := h.len
  have hpos := h.pos
  exact le_min (by omega) (by omega)

theorem VecInv.move (hop : ∀ w n p k, Done w n → n + k ≤ reach offset.toInt (totalLen vs) →
      (∀ i < k, addrAt vs (n + i) = p + i) → Done (op w p k (offset.toInt + n)) (n + k))
    (h : VecInv vs offset Done s n) (hn : n ≤ SSIZE_MAX) {k : ℕ} (hk : k ≤ s.left)
    (hpos : offset.toInt + n + k ≤ OFF_MAX) :
    VecInv vs offset Done { s with
      p := s.p + k
      left := s.left - k
      total := wrap 32 (s.total + k)
      world := op s.world s.p k (offset.toInt + n)
      calls := s.calls + 1 } (n + k) where
  total := by
    dsimp only
    rw [h.total_eq hn, Nat.cast_add]
  len := by
    have hsum := h.len
    dsimp only
    omega
  here i hi := by
    have hi : i < s.left - k := hi
    have hat := h.here (k + i) (by omega)
    rw [← Nat.add_assoc] at hat
    rw [hat, Nat.add_assoc]
  after i := by
    rw [← h.after i]
    congr 1
    dsimp only
    omega
  pos := by
    push_cast
    omega
  done := by
    have hsum := h.len
    refine hop s.world n s.p k h.done (le_min ?_ ?_) fun i hi => h.here i (by omega)
    · omega
    · omega

/-- What a turn that goes on does. -/
inductive VecCase (op : IoWorld → ℕ → ℕ → ℤ → IoWorld) (call : ℕ → IoCall) (offset : BitVec 64)
    (s : VecState) : VecState → Prop
  | next (v : IoVec) (rest : List IoVec) (hl : s.left = 0) (hr : s.rest = v :: rest) :
    VecCase op call offset s { s with p := v.base, left := v.len, rest := rest }
  | move (k : ℕ) (hl : 0 < s.left) (h0 : k ≠ 0)
    (hk : (call s.calls).moved s.left (wrap 64 (offset.toInt + s.total)) = some k) :
    VecCase op call offset s { s with
      p := s.p + k
      left := s.left - k
      total := wrap 32 (s.total + k)
      world := op s.world s.p k (wrap 64 (offset.toInt + s.total))
      calls := s.calls + 1 }

theorem vecCase_of_turn (h : vecTurn op call offset s = .inl s') : VecCase op call offset s s' := by
  unfold vecTurn at h
  by_cases hl : 0 < s.left
  · rw [if_pos hl] at h
    dsimp only at h
    cases hk : (call s.calls).moved s.left (wrap 64 (offset.toInt + s.total)) with
    | none => simp [hk] at h
    | some k =>
      rw [hk] at h
      dsimp only at h
      split_ifs at h with h0
      cases h
      exact .move k hl h0 hk
  · rw [if_neg hl] at h
    cases hr : s.rest with
    | nil => simp [hr] at h
    | cons v rest =>
      rw [hr] at h
      cases h
      exact .next v rest (by omega) hr

theorem vecTurn_leave {e : IoExit} (h : vecTurn op call offset s = .inr e) : e.world = s.world ∧
    ((e.ret = .error ∧ call s.calls = none ∧ e.value = if 0 < s.total then s.total else -1) ∨
      (e.ret = .zero ∧ (0 < s.left ∧
        (call s.calls).moved s.left (wrap 64 (offset.toInt + s.total)) = some 0) ∧
        e.value = s.total) ∨
      (s.left = 0 ∧ s.rest = [] ∧ e.ret = .all ∧ e.value = s.total)) := by
  unfold vecTurn at h
  by_cases hl : 0 < s.left
  · rw [if_pos hl] at h
    dsimp only at h
    cases hk : (call s.calls).moved s.left (wrap 64 (offset.toInt + s.total)) with
    | none =>
      rw [hk] at h
      cases h
      exact ⟨rfl, Or.inl ⟨rfl, Option.map_eq_none_iff.mp hk, rfl⟩⟩
    | some k =>
      rw [hk] at h
      dsimp only at h
      split_ifs at h with h0
      cases h
      exact ⟨rfl, Or.inr (Or.inl ⟨rfl, ⟨hl, by rw [h0]⟩, rfl⟩)⟩
  · rw [if_neg hl] at h
    cases hr : s.rest with
    | nil =>
      rw [hr] at h
      cases h
      exact ⟨rfl, Or.inr (Or.inr ⟨by omega, rfl, rfl, rfl⟩)⟩
    | cons v rest =>
      rw [hr] at h
      cases h

theorem work_lt_of_vecTurn (h : vecTurn op call offset s = .inl s') : s'.work < s.work := by
  cases vecCase_of_turn h with
  | next v rest hl hr =>
    simp only [VecState.work, hl, hr, totalLen, List.map_cons, List.sum_cons, List.length_cons]
    omega
  | move k hl h0 hk =>
    have hle := (IoCall.moved_some hk).1
    simp only [VecState.work]
    omega

theorem VecInv.start (vs : List IoVec) (offset : BitVec 64) {w : IoWorld} (h0 : Done w 0) :
    VecInv vs offset Done ⟨0, 0, vs, 0, w, 0⟩ 0 := by
  refine ⟨rfl, by simp, by simp, by simp, ?_, h0⟩
  have hlt := @BitVec.toInt_lt 64 offset
  unfold OFF_MAX
  norm_num at hlt ⊢
  omega

variable (op Done) in
/-- **The loops over the vectors**, for whatever `op` does with a piece. -/
theorem vecLoop_spec (hop : ∀ w n p k, Done w n → n + k ≤ reach offset.toInt (totalLen vs) →
      (∀ i < k, addrAt vs (n + i) = p + i) → Done (op w p k (offset.toInt + n)) (n + k))
    (hlen : reach offset.toInt (totalLen vs) ≤ SSIZE_MAX) (call : ℕ → IoCall) {w : IoWorld}
    (h0 : Done w 0) :
    ∃ e n, vecLoop op call offset vs w = some e ∧ Transferred (totalLen vs) Done e n ∧
      n ≤ reach offset.toInt (totalLen vs) := by
  have hturn : ∀ s s', (∃ n, VecInv vs offset Done s n) → vecTurn op call offset s = .inl s' →
      (∃ n, VecInv vs offset Done s' n) ∧ s'.work < s.work := by
    rintro s s' ⟨n, hI⟩ hs
    have hn := hI.le_reach.trans hlen
    refine ⟨?_, work_lt_of_vecTurn hs⟩
    cases vecCase_of_turn hs with
    | next v rest hl hr => exact ⟨n, hI.next hl hr⟩
    | move k hl hk0 hk =>
      rw [hI.wrap_pos hn] at hk ⊢
      obtain ⟨hle, hpos⟩ := IoCall.moved_some hk
      exact ⟨n + k, hI.move hop hn hle (hpos hk0)⟩
  have hleave : ∀ s e, (∃ n, VecInv vs offset Done s n) → vecTurn op call offset s = .inr e →
      ∃ n, Transferred (totalLen vs) Done e n ∧ n ≤ reach offset.toInt (totalLen vs) := by
    rintro s e ⟨n, hI⟩ hs
    have hsum := hI.len
    have htotal := hI.total_eq (hI.le_reach.trans hlen)
    obtain ⟨hw, hret⟩ := vecTurn_leave hs
    refine ⟨n, ⟨by omega, hw ▸ hI.done, fun hlt hall => ?_, ?_⟩, hI.le_reach⟩
    · rcases hret with ⟨h, -⟩ | ⟨h, -⟩ | ⟨hl, hr, -, -⟩
      · simp [h] at hall
      · simp [h] at hall
      · rw [hl, hr] at hsum
        simp only [totalLen, List.map_nil, List.sum_nil] at hsum hlt
        omega
    · rcases hret with ⟨h, -, hv⟩ | ⟨-, -, hv⟩ | ⟨-, -, -, hv⟩
      · split_ifs at hv with hpos
        · exact Or.inl (hv.trans htotal)
        · exact Or.inr ⟨hv, by omega, h⟩
      · exact Or.inl (hv.trans htotal)
      · exact Or.inl (hv.trans htotal)
  obtain ⟨e, hrun, n, he, hn⟩ := Loop.run_spec VecState.work hturn hleave
    ⟨0, VecInv.start vs offset h0⟩ (Nat.lt_succ_self _)
  exact ⟨e, n, hrun, he, hn⟩

/-- Calls that move one byte each, until `2 ^ 31` bytes have been moved, and then fail. -/
def bytewise (i : ℕ) : IoCall := if i < 2 ^ 31 then some 1 else none

variable (op offset vs Done) in
theorem vecLoop_bytewise (hop : ∀ w n p k, Done w n → n + k ≤ reach offset.toInt (totalLen vs) →
      (∀ i < k, addrAt vs (n + i) = p + i) → Done (op w p k (offset.toInt + n)) (n + k))
    {w : IoWorld} (h0 : Done w 0) :
    ∃ e n, vecLoop op bytewise offset vs w = some e ∧ Done e.world n ∧
      n = min (2 ^ 31) (reach offset.toInt (totalLen vs)) ∧
      (e.ret = .error ∧ n = 2 ^ 31 ∧ e.value = -1 ∨ e.ret ≠ .error ∧ e.value = wrap 32 n) := by
  have hmax : SSIZE_MAX = 2 ^ 31 - 1 := rfl
  -- every call has moved one byte
  let I (s : VecState) := ∃ n, VecInv vs offset Done s n ∧ s.calls = n ∧ n ≤ 2 ^ 31
  have hturn : ∀ s s', I s → vecTurn op bytewise offset s = .inl s' → I s' ∧ s'.work < s.work := by
    rintro s s' ⟨n, hI, hcalls, hn⟩ hs
    refine ⟨?_, work_lt_of_vecTurn hs⟩
    cases vecCase_of_turn hs with
    | next v rest hl hr => exact ⟨n, hI.next hl hr, hcalls, hn⟩
    | move k hl hk0 hk =>
      have hlt : n < 2 ^ 31 := by
        by_contra hge
        rw [hcalls, bytewise, if_neg hge] at hk
        cases hk
      rw [hI.wrap_pos (by omega)] at hk ⊢
      obtain ⟨hle, hpos⟩ := IoCall.moved_some hk
      rw [hcalls, bytewise, if_pos hlt] at hk
      obtain rfl := (moved_one hk hl).resolve_right fun h => hk0 h.1
      exact ⟨n + 1, hI.move hop (by omega) hle (hpos hk0), congrArg (· + 1) hcalls, hlt⟩
  have hleave : ∀ s e, I s → vecTurn op bytewise offset s = .inr e → ∃ n, Done e.world n ∧
      n = min (2 ^ 31) (reach offset.toInt (totalLen vs)) ∧
      (e.ret = .error ∧ n = 2 ^ 31 ∧ e.value = -1 ∨ e.ret ≠ .error ∧ e.value = wrap 32 n) := by
    rintro s e ⟨n, hI, hcalls, hn⟩ hs
    have hreach := hI.le_reach
    have hlen := hI.len
    obtain ⟨hw, ⟨hret, hcall, hv⟩ | ⟨hret, ⟨hl, hk⟩, hv⟩ | ⟨hl, hr, hret, hv⟩⟩ := vecTurn_leave hs
    · -- all `2 ^ 31` bytes have been moved, and the total is negative
      have hn' : n = 2 ^ 31 := by
        by_contra hne
        rw [hcalls, bytewise, if_pos (by omega)] at hcall
        cases hcall
      rw [hI.total, hn', if_neg (by decide)] at hv
      exact ⟨n, hw ▸ hI.done, by omega, Or.inl ⟨hret, hn', hv⟩⟩
    · have hlt : n < 2 ^ 31 := by
        by_contra hge
        rw [hcalls, bytewise, if_neg hge] at hk
        cases hk
      rw [hI.wrap_pos (by omega), hcalls, bytewise, if_pos hlt] at hk
      have hend := ((moved_one hk hl).resolve_left Nat.zero_ne_one).2
      refine ⟨n, hw ▸ hI.done, ?_, Or.inr ⟨by rw [hret]; nofun, hv.trans hI.total⟩⟩
      have hle : reach offset.toInt (totalLen vs) ≤ (OFF_MAX - offset.toInt).toNat :=
        Nat.min_le_right _ _
      omega
    · refine ⟨n, hw ▸ hI.done, ?_, Or.inr ⟨by rw [hret]; nofun, hv.trans hI.total⟩⟩
      have hle : reach offset.toInt (totalLen vs) ≤ totalLen vs := Nat.min_le_left _ _
      rw [hl, hr] at hlen
      simp only [totalLen, List.map_nil, List.sum_nil] at hlen hle hreach ⊢
      omega
  obtain ⟨e, hrun, n, he⟩ := Loop.run_spec VecState.work hturn hleave
    ⟨0, VecInv.start vs offset h0, rfl, Nat.zero_le _⟩ (Nat.lt_succ_self _)
  exact ⟨e, n, hrun, he⟩

end Vectors

/-! ### One buffer -/

section Fully

variable {call : ℕ → IoCall} {buf : IoVec} {pos : ℤ} {w : IoWorld} {s s' : FullyState}

/-- After `total` bytes of the buffer. -/
structure FullyInv (buf : IoVec) (start : ℤ) (w : IoWorld) (s : FullyState) : Prop where
  le : s.total ≤ reach start buf.len
  pos : s.pos = start + s.total
  wrote : Wrote w start (fun i => buf.base + i) s.world s.total

theorem FullyInv.turn (h : FullyInv buf pos w s) (hs : fullyTurn call buf s = .inl s') :
    FullyInv buf pos w s' ∧ buf.len - s'.total < buf.len - s.total := by
  unfold fullyTurn at hs
  by_cases hlt : s.total < buf.len
  · rw [if_pos hlt] at hs
    cases hk : (call s.calls).moved (buf.len - s.total) s.pos with
    | none => simp [hk] at hs
    | some k =>
      rw [hk] at hs
      dsimp only at hs
      split_ifs at hs with h0
      obtain ⟨hle, hmax⟩ := IoCall.moved_some hk
      have hend := hmax h0
      have hsize := buf.size
      rw [Nat.mod_eq_of_lt (by omega)] at hs
      cases hs
      have hpos := h.pos
      refine ⟨⟨le_min (by dsimp only; omega) (by dsimp only; omega),
        by dsimp only; push_cast; omega, ?_⟩, by dsimp only; omega⟩
      rw [hpos]
      exact IoWorld.wrote_pwrite h.wrote fun i _ => (Nat.add_assoc _ _ _).symm
  · rw [if_neg hlt] at hs
    cases hs

theorem fullyTurn_leave {x : IoExit × ℤ} (hs : fullyTurn call buf s = .inr x) :
    x.2 = s.pos ∧ x.1.world = s.world ∧
      ((x.1.ret = .error ∧ call s.calls = none ∧
          x.1.value = if 0 < s.total then wrap 32 s.total else -1) ∨
        (x.1.ret = .zero ∧ (s.total < buf.len ∧
          (call s.calls).moved (buf.len - s.total) s.pos = some 0) ∧ x.1.value = wrap 32 s.total) ∨
        (buf.len ≤ s.total ∧ x.1.ret = .all ∧ x.1.value = wrap 32 s.total)) := by
  unfold fullyTurn at hs
  by_cases hlt : s.total < buf.len
  · rw [if_pos hlt] at hs
    cases hk : (call s.calls).moved (buf.len - s.total) s.pos with
    | none =>
      rw [hk] at hs
      cases hs
      exact ⟨rfl, rfl, Or.inl ⟨rfl, Option.map_eq_none_iff.mp hk, rfl⟩⟩
    | some k =>
      rw [hk] at hs
      dsimp only at hs
      split_ifs at hs with h0
      cases hs
      refine ⟨rfl, rfl, Or.inr (Or.inl ⟨rfl, ⟨hlt, by rw [h0]⟩, ?_⟩)⟩
      dsimp only
  · rw [if_neg hlt] at hs
    cases hs
    refine ⟨rfl, rfl, Or.inr (Or.inr ⟨not_lt.mp hlt, rfl, ?_⟩)⟩
    dsimp only

theorem FullyInv.start (buf : IoVec) (pos : ℤ) (w : IoWorld) :
    FullyInv buf pos w ⟨0, pos, w, 0⟩ :=
  ⟨Nat.zero_le _, (add_zero pos).symm, rfl, copied_zero⟩

/-- What `write_file_fully` has done. -/
def WroteFully (buf : IoVec) (pos : ℤ) (w : IoWorld) (r : Option (IoExit × ℤ)) : Prop :=
  ∃ e n, r = some (e, pos + (n : ℕ)) ∧
    Transferred buf.len (Wrote w pos fun i => buf.base + i) e n

theorem writeFileFully_spec (hlen : reach pos buf.len ≤ SSIZE_MAX) (call : ℕ → IoCall)
    (w : IoWorld) : WroteFully buf pos w (writeFileFully call buf pos w) := by
  have hmax : SSIZE_MAX = 2 ^ 31 - 1 := rfl
  have hlen' : reach pos buf.len ≤ buf.len := Nat.min_le_left _ _
  have hleave : ∀ s x, FullyInv buf pos w s → fullyTurn call buf s = .inr x →
      ∃ n : ℕ, x.2 = pos + n ∧
        Transferred buf.len (Wrote w pos fun i => buf.base + i) x.1 n := by
    intro s x hI hs
    have hle := hI.le
    have hwrap : wrap 32 s.total = s.total := wrap32_eq (by omega) (by omega)
    obtain ⟨hpos, hw, hret⟩ := fullyTurn_leave hs
    rw [hwrap] at hret
    refine ⟨s.total, hpos.trans hI.pos, by omega, hw ▸ hI.wrote, fun hlt hall => ?_, ?_⟩
    · rcases hret with ⟨h, -⟩ | ⟨h, -⟩ | ⟨h, -⟩
      · simp [h] at hall
      · simp [h] at hall
      · omega
    · rcases hret with ⟨h, -, hv⟩ | ⟨-, -, hv⟩ | ⟨-, -, hv⟩
      · split_ifs at hv with h0
        · exact Or.inl hv
        · exact Or.inr ⟨hv, by omega, h⟩
      · exact Or.inl hv
      · exact Or.inl hv
  obtain ⟨⟨e, pos'⟩, hrun, n, hx, hspec⟩ := Loop.run_spec (fun s : FullyState => buf.len - s.total)
    (fun s s' hI hs => hI.turn hs) hleave (FullyInv.start buf pos w) (Nat.lt_succ_self _)
  have hx : pos' = pos + n := hx
  subst hx
  exact ⟨e, n, hrun, hspec⟩

/-- With calls that move one byte each everything is written; the result may be negative. -/
theorem writeFileFully_overflow (hlen : SSIZE_MAX < reach pos buf.len) (w : IoWorld) :
    ¬ WroteFully buf pos w (writeFileFully (fun _ => some 1) buf pos w) := by
  have hmax : SSIZE_MAX = 2 ^ 31 - 1 := rfl
  have hsize := buf.size
  have hlen' : reach pos buf.len ≤ buf.len := Nat.min_le_left _ _
  have hroom : reach pos buf.len ≤ (OFF_MAX - pos).toNat := Nat.min_le_right _ _
  have hleave : ∀ s x, FullyInv buf pos w s → fullyTurn (fun _ => some 1) buf s = .inr x →
      x.1.ret ≠ .error ∧ x.1.value < 0 := by
    intro s x hI hs
    have hle := hI.le
    have hpos := hI.pos
    have hneg : reach pos buf.len ≤ s.total → wrap 32 s.total < 0 := by
      intro hge
      rw [wrap32_over (by omega) (by omega)]
      omega
    obtain ⟨-, -, ⟨-, h, -⟩ | ⟨h, ⟨hlt, hk⟩, hv⟩ | ⟨hge, h, hv⟩⟩ := fullyTurn_leave hs
    · cases h
    · have hend := ((moved_one hk (by omega)).resolve_left Nat.zero_ne_one).2
      exact ⟨by rw [h]; nofun, hv ▸ hneg (by omega)⟩
    · exact ⟨by rw [h]; nofun, hv ▸ hneg (by omega)⟩
  obtain ⟨x, hrun, hret, hv⟩ := Loop.run_spec (fun s : FullyState => buf.len - s.total)
    (fun s s' hI hs => hI.turn hs) hleave (FullyInv.start buf pos w) (Nat.lt_succ_self _)
  rintro ⟨e, n, he, hT⟩
  obtain rfl := Option.some.inj (hrun.symm.trans he)
  rcases hT.value with h | ⟨-, -, h⟩
  · have hv : e.value < 0 := hv
    omega
  · exact hret h

end Fully

/-! ### The three functions -/

section

variable {offset : BitVec 64} {vs : List IoVec}

/-- What `__wrap_pwritev` has done. -/
def WroteVectors (offset : BitVec 64) (vs : List IoVec) (w : IoWorld) (r : Option IoExit) : Prop :=
  ∃ e n, r = some e ∧ Transferred (totalLen vs) (Wrote w offset.toInt (addrAt vs)) e n

/-- What `__wrap_preadv` has done: also, the bytes of the vectors after those that were read are
untouched. -/
def FetchedVectors (offset : BitVec 64) (vs : List IoVec) (w : IoWorld) (r : Option IoExit) :
    Prop :=
  ∃ e n, r = some e ∧ Transferred (totalLen vs) (Fetched w offset.toInt (addrAt vs)) e n ∧
    ∀ i, n ≤ i → i < totalLen vs → e.world.mem (addrAt vs i) = w.mem (addrAt vs i)

theorem pwritev_spec (hlen : reach offset.toInt (totalLen vs) ≤ SSIZE_MAX) (call : ℕ → IoCall)
    (w : IoWorld) : WroteVectors offset vs w (pwritev call offset vs w) := by
  obtain ⟨e, n, hrun, he, -⟩ := vecLoop_spec .pwrite (Wrote w offset.toInt (addrAt vs))
    (fun _ _ _ _ hdone _ hp => IoWorld.wrote_pwrite hdone hp) hlen call ⟨rfl, copied_zero⟩
  exact ⟨e, n, hrun, he⟩

/-- The bytes that can be read have places of their own in the vectors. -/
def OwnPlaces (offset : BitVec 64) (vs : List IoVec) : Prop :=
  ∀ i < reach offset.toInt (totalLen vs), ∀ j < totalLen vs, addrAt vs i = addrAt vs j → i = j

instance (offset : BitVec 64) (vs : List IoVec) : Decidable (OwnPlaces offset vs) :=
  inferInstanceAs (Decidable (∀ i < _, ∀ j < _, _))

theorem preadv_spec (hlen : reach offset.toInt (totalLen vs) ≤ SSIZE_MAX)
    (hown : OwnPlaces offset vs) (call : ℕ → IoCall) (w : IoWorld) :
    FetchedVectors offset vs w (preadv call offset vs w) := by
  have hle : reach offset.toInt (totalLen vs) ≤ totalLen vs := Nat.min_le_left _ _
  obtain ⟨e, n, hrun, he, hn⟩ := vecLoop_spec .pread (Fetched w offset.toInt (addrAt vs))
    (fun w' n p k hdone hk hp => IoWorld.fetched_pread hdone hp fun i hi j hj =>
      hown i (by omega) j (by omega)) hlen call ⟨rfl, copied_zero⟩
  refine ⟨e, n, hrun, he, fun i hni hi => he.done.mem.frame _ fun j hj heq => ?_⟩
  have hij := hown j (by omega) i hi heq.symm
  omega

/-- `2 ^ 31` bytes have been moved, one by one: the result can only stand for none. -/
theorem Transferred.overflow {Done : IoWorld → ℕ → Prop} {e : IoExit} {n n' len : ℕ}
    (h : Transferred len Done e n') (hn : n = 2 ^ 31)
    (he : e.ret = .error ∧ n = 2 ^ 31 ∧ e.value = -1 ∨ e.ret ≠ .error ∧ e.value = wrap 32 n) :
    Done e.world 0 := by
  have hneg : e.value < 0 := by
    rcases he with ⟨-, -, hv⟩ | ⟨-, hv⟩
    · rw [hv]
      decide
    · rw [hv, wrap32_over (by omega) (by omega)]
      omega
  rcases h.value with hv | ⟨-, rfl, -⟩
  · omega
  · exact h.done

theorem pwritev_overflow (hlen : SSIZE_MAX < reach offset.toInt (totalLen vs)) :
    ¬ WroteVectors offset vs ⟨fun _ => 1, fun _ => 0⟩
      (pwritev bytewise offset vs ⟨fun _ => 1, fun _ => 0⟩) := by
  have hmax : SSIZE_MAX = 2 ^ 31 - 1 := rfl
  -- the file has ones where it was written
  let Done (w : IoWorld) (n : ℕ) := w.mem = (fun _ => 1) ∧ ∀ i < n, w.file (offset.toInt + i) = 1
  have hop : ∀ w n p k, Done w n → Done (w.pwrite p k (offset.toInt + n)) (n + k) := by
    rintro w n p k ⟨hmem, hfile⟩
    refine ⟨hmem, fun i hi => ?_⟩
    simp only [IoWorld.pwrite]
    split_ifs with hin
    · rw [hmem]
    · exact hfile i (by omega)
  obtain ⟨e, n, hrun, hdone, hn, hret⟩ := vecLoop_bytewise _ _ _ _
    (fun w n p k h _ _ => hop w n p k h) (w := ⟨fun _ => 1, fun _ => 0⟩) ⟨rfl, nofun⟩
  rintro ⟨e', n', he', hT⟩
  obtain rfl := Option.some.inj (hrun.symm.trans he')
  have hn0 : n = 2 ^ 31 := by omega
  have hframe := (hT.overflow hn0 hret).file.frame (offset.toInt + (0 : ℕ)) nofun
  rw [hdone.2 0 (by omega)] at hframe
  cases hframe

theorem preadv_overflow (hlen : SSIZE_MAX < reach offset.toInt (totalLen vs)) :
    ¬ FetchedVectors offset vs ⟨fun _ => 0, fun _ => 1⟩
      (preadv bytewise offset vs ⟨fun _ => 0, fun _ => 1⟩) := by
  have hmax : SSIZE_MAX = 2 ^ 31 - 1 := rfl
  let Done (w : IoWorld) (n : ℕ) := w.file = (fun _ => 1) ∧ ∀ i < n, w.mem (addrAt vs i) = 1
  have hop : ∀ w n p k, Done w n → (∀ i < k, addrAt vs (n + i) = p + i) →
      Done (w.pread p k (offset.toInt + n)) (n + k) := by
    rintro w n p k ⟨hfile, hmem⟩ hp
    refine ⟨hfile, fun i hi => ?_⟩
    simp only [IoWorld.pread]
    split_ifs with hin
    · rw [hfile]
    · by_cases hlt : i < n
      · exact hmem i hlt
      · have hat := hp (i - n) (by omega)
        rw [Nat.add_sub_cancel' (not_lt.mp hlt)] at hat
        omega
  obtain ⟨e, n, hrun, hdone, hn, hret⟩ := vecLoop_bytewise _ _ _ _
    (fun w n p k h _ hp => hop w n p k h hp) (w := ⟨fun _ => 0, fun _ => 1⟩) ⟨rfl, nofun⟩
  rintro ⟨e', n', he', hT, -⟩
  obtain rfl := Option.some.inj (hrun.symm.trans he')
  have hn0 : n = 2 ^ 31 := by omega
  have hframe := (hT.overflow hn0 hret).mem.frame (addrAt vs 0) nofun
  rw [hdone.2 0 (by omega)] at hframe
  cases hframe

/-- Two bytes of the vectors at one address: the file may have another byte for one of them. -/
theorem preadv_overlap (hlen : reach offset.toInt (totalLen vs) ≤ SSIZE_MAX) {i j : ℕ}
    (hi : i < reach offset.toInt (totalLen vs)) (hj : j < totalLen vs) (hne : i ≠ j)
    (haddr : addrAt vs i = addrAt vs j) :
    ¬ FetchedVectors offset vs ⟨fun _ => 0, fun a => if a = offset.toInt + i then 1 else 0⟩
      (preadv bytewise offset vs ⟨fun _ => 0, fun a => if a = offset.toInt + i then 1 else 0⟩) := by
  have hother_pos : offset.toInt + (j : ℤ) ≠ offset.toInt + i := by omega
  have hmax : SSIZE_MAX = 2 ^ 31 - 1 := rfl
  obtain ⟨e, n, hrun, -, hn, hret⟩ := vecLoop_bytewise .pread offset vs (fun _ _ => True)
    (w := ⟨fun _ => 0, fun a => if a = offset.toInt + i then 1 else 0⟩) (fun _ _ _ _ _ _ _ => trivial) trivial
  rintro ⟨e', n', he', hT, hafter⟩
  obtain rfl := Option.some.inj (hrun.symm.trans he')
  have hvalue : e.value = n := by
    rcases hret with ⟨-, h, -⟩ | ⟨-, hv⟩
    · omega
    · rw [hv, wrap32_eq (by omega) (by omega)]
  have hreach : n = reach offset.toInt (totalLen vs) := by
    rw [hn, min_eq_right (by omega)]
  have hn' : n' = reach offset.toInt (totalLen vs) := by
    rcases hT.value with hv | ⟨hv, -⟩
    · exact (Int.ofNat.inj (hv.symm.trans hvalue)).trans hreach
    · exact absurd (hvalue.symm.trans hv) nofun
  have hthere := hT.done.mem.there i (hn' ▸ hi)
  dsimp only at hthere
  rw [if_pos rfl, haddr] at hthere
  by_cases hlt : j < n'
  · have hother := hT.done.mem.there j hlt
    dsimp only at hother
    rw [hthere, if_neg hother_pos] at hother
    cases hother
  · have hother := hafter j (not_lt.mp hlt) hj
    rw [hthere] at hother
    cases hother

end

/-- **Transfers are exact** if and only if the bytes that can be transferred can be counted in a
`ssize_t` and, for reading, have places of their own. -/
theorem file_transfers (offset : BitVec 64) (vs : List IoVec) (buf : IoVec) (pos : ℤ) :
    ((∀ call w, WroteVectors offset vs w (pwritev call offset vs w)) ↔
      reach offset.toInt (totalLen vs) ≤ SSIZE_MAX) ∧
    ((∀ call w, FetchedVectors offset vs w (preadv call offset vs w)) ↔
      reach offset.toInt (totalLen vs) ≤ SSIZE_MAX ∧ OwnPlaces offset vs) ∧
    ((∀ call w, WroteFully buf pos w (writeFileFully call buf pos w)) ↔
      reach pos buf.len ≤ SSIZE_MAX) := by
  refine ⟨⟨fun h => ?_, pwritev_spec⟩, ⟨fun h => ?_, fun h => preadv_spec h.1 h.2⟩,
    ⟨fun h => ?_, writeFileFully_spec⟩⟩
  · by_contra hlen
    exact pwritev_overflow (not_le.mp hlen) (h _ _)
  · have hlen : reach offset.toInt (totalLen vs) ≤ SSIZE_MAX := by
      by_contra hlen
      exact preadv_overflow (not_le.mp hlen) (h _ _)
    refine ⟨hlen, fun i hi j hj haddr => ?_⟩
    by_contra hne
    exact preadv_overlap hlen hi hj hne haddr (h _ _)
  · by_contra hlen
    exact writeFileFully_overflow (not_le.mp hlen) ⟨fun _ => 0, fun _ => 0⟩ (h _ _)

/-- Three vectors, one of them empty. -/
theorem file_transfers_bytewise :
    let vs : List IoVec := [⟨0, 2, by decide, by decide⟩, ⟨8, 0, by decide, by decide⟩,
      ⟨4, 1, by decide, by decide⟩]
    (∀ call w, WroteVectors 7 vs w (pwritev call 7 vs w)) ∧
      ∀ call w, FetchedVectors 7 vs w (preadv call 7 vs w) := by
  intro vs
  have h := file_transfers 7 vs ⟨0, 0, by decide, by decide⟩ 0
  exact ⟨h.1.mpr (by decide), h.2.1.mpr ⟨by decide, by decide⟩⟩

/-- Four times the same gibibyte: the total comes out as `0`, and `write_file_fully` returns `-1`. -/
theorem transfers_wrap :
    let v : IoVec := ⟨0, 2 ^ 30, by decide, by decide⟩
    let w : IoWorld := ⟨fun _ => 1, fun _ => 0⟩
    (pwritev (fun _ => some (2 ^ 30)) (BitVec.ofNat 64 (2 ^ 31)) [v, v, v, v] w).map
      (fun e => (e.ret, e.value, e.world.file 0, e.world.file (2 ^ 31))) =
        some (.all, 0, 1, 1) ∧
    (writeFileFully (fun _ => some SSIZE_MAX) ⟨0, 2 ^ 32 - 1, by decide, by decide⟩ 0 w).map
      (fun x => (x.1.ret, x.1.value, x.1.world.file 0)) = some (.all, -1, 1) := by
  decide +kernel

end PgZero.Guest
