import PgZero.Kernel.Shm

/-!
# Linear memories

A memory is a fixed reservation of address space. `Reallocate` makes more of it accessible and sets
the size that the guest sees; `Free` gives all of it back. The four accessors check their range
against one of these sizes and then index the reservation, which Go checks against its length.

* **`linear_memory_bounds`**: the accessors stay in bounds, except for an empty range at the end of
  the reservation.
-/

set_option autoImplicit false

namespace PgZero.Vmem

open Lib

variable {length addr : BitVec 64} {ok : Bool}
open PgZero.Kernel (PageSize MemErr)

/-- Rounded up to whole pages. -/
def alignUp (n : BitVec 64) : BitVec 64 := (n + 65535) &&& ~~~65535

/-- A range of a memory: a slice of the buffer, or what is handed to `mmap`. -/
structure Window where
  addr : ℕ
  len : ℕ
  deriving DecidableEq, Repr

/-- The end of a range. -/
def Window.stop (w : Window) : ℕ := w.addr + w.len

/-- `w[k:]`, unless the index is out of range. -/
def Window.drop (w : Window) (k : ℕ) : Option Window :=
  if k ≤ w.len then some ⟨w.addr + k, w.len - k⟩ else none

/-- The `n` bytes at `w[off:]`, unless the slice is too short to index them. -/
def Window.field (w : Window) (off n : ℕ) : Option Window :=
  (w.drop off).bind fun b => if n ≤ b.len then some ⟨b.addr, n⟩ else none

theorem Window.drop_of_le {w : Window} {k : ℕ} (h : k ≤ w.len) :
    w.drop k = some ⟨w.addr + k, w.len - k⟩ := if_pos h

theorem Window.field_of_le {w : Window} {off n : ℕ} (h : off + n ≤ w.len) :
    w.field off n = some ⟨w.addr + off, n⟩ := by
  rw [field, drop_of_le (by omega), Option.bind_some, if_pos (Nat.le_sub_of_add_le' h)]

/-- `len` is the length of `buf`: the reservation, and zero once it is freed. `pages` has the
segment that each page shows (`none`: private memory). -/
structure Memory where
  len : BitVec 64
  committed : BitVec 64
  size : BitVec 64
  pages : ℕ → Option ℕ

/-! ### The operations -/

/-- `Reserve`; `ok` says whether the host has the address space. `mmap` refuses an empty range, and
`unsafe.Slice` a length that is no `int`. -/
def reserve (max : BitVec 64) (ok : Bool) : Except MemErr Memory :=
  let max := alignUp (if max = 0 then BitVec.ofNat 64 PageSize else max)
  if max = 0 ∨ ok = false then .error .err
  else if max.toNat < 2 ^ 63 then .ok ⟨max, 0, 0, fun _ => none⟩
  else .error .panic

namespace Memory

/-- `Reallocate`, with the slice it returns; `ok` says whether `mprotect` succeeds. -/
def reallocate (m : Memory) (size : BitVec 64) (ok : Bool) : Except MemErr (Memory × Window) :=
  if m.len < size then .error .err
  else if m.committed < alignUp size then
    -- the slice `m.buf[m.committed:want]`
    if m.len < alignUp size then .error .panic
    else if ok then .ok ({ m with committed := alignUp size, size }, ⟨0, size.toNat⟩)
    else .error .err
  else .ok ({ m with size }, ⟨0, size.toNat⟩)

/-- `Free`: the whole range is given back. -/
def free (m : Memory) : Memory :=
  if m.len = 0 then m else ⟨0, 0, 0, fun _ => none⟩

/-- `Slice`: a range within the size. -/
def slice (m : Memory) (addr n : BitVec 32) : Except MemErr Window :=
  let stop := addr.setWidth 64 + n.setWidth 64
  if m.size < stop then .error .err
  else if m.len < stop then .error .panic
  else .ok ⟨addr.toNat, n.toNat⟩

/-- `Uint64Ptr`. -/
def uint64Ptr (m : Memory) (addr : BitVec 32) : Except MemErr Window :=
  if addr % 8 ≠ 0 ∨ m.size < addr.setWidth 64 + 8 then .error .err
  else if m.len ≤ addr.setWidth 64 then .error .panic
  else .ok ⟨addr.toNat, 8⟩

/-- The pages of a range show `x`. -/
def setPages (m : Memory) (w : Window) (x : Option ℕ) : Memory :=
  { m with pages := fun i =>
      if w.addr ≤ i * PageSize ∧ i * PageSize < w.stop then x else m.pages i }

/-- `mmap` over `[addr, addr + length)`; `&m.buf[addr]` is its first argument, and it refuses an
empty range. -/
def mmap (m : Memory) (addr length : BitVec 64) (x : Option ℕ) (ok : Bool) :
    Except MemErr (Memory × Window) :=
  let w : Window := ⟨addr.toNat, length.toNat⟩
  if m.len ≤ addr then .error .panic
  else if length = 0 ∨ ok = false then .error .err
  else .ok (m.setPages w x, w)

/-- `MapRange` of segment `seg`, of the given size. -/
def mapRange (m : Memory) (addr : BitVec 64) (seg : ℕ) (segSize length : BitVec 64) (ok : Bool) :
    Except MemErr (Memory × Window) :=
  if addr.toNat % PageSize ≠ 0 ∨ length.toNat % PageSize ≠ 0 ∨ length = 0 then .error .err
  else if segSize < length then .error .err
  else if m.committed < addr + length then .error .err
  else m.mmap addr length (some seg) ok

/-- `Unmap`: private memory again. -/
def unmap (m : Memory) (addr length : BitVec 64) (ok : Bool) : Except MemErr (Memory × Window) :=
  if addr.toNat % PageSize ≠ 0 ∨ length.toNat % PageSize ≠ 0 then .error .err
  else if m.committed < addr + length then .error .err
  else m.mmap addr length none ok

end Memory

/-- The calls on a memory. -/
inductive VmemOp
  | reallocate (size : BitVec 64) (ok : Bool)
  | free
  | slice (addr n : BitVec 32)
  | uint64Ptr (addr : BitVec 32)
  | mapRange (addr : BitVec 64) (seg : ℕ) (segSize length : BitVec 64) (ok : Bool)
  | unmap (addr length : BitVec 64) (ok : Bool)
  deriving DecidableEq, Repr

/-- The memory after an operation that changes it only if it succeeds. -/
def Memory.andThen (m : Memory) :
    Except MemErr (Memory × Window) → Memory × Except MemErr Window
  | .ok (m', w) => (m', .ok w)
  | .error e => (m, .error e)

/-- One call. -/
def Memory.step (m : Memory) : VmemOp → Memory × Except MemErr Window
  | .reallocate size ok => m.andThen (m.reallocate size ok)
  | .free => (m.free, .ok ⟨0, 0⟩)
  | .slice addr n => (m, m.slice addr n)
  | .uint64Ptr addr => (m, m.uint64Ptr addr)
  | .mapRange addr seg segSize length ok => m.andThen (m.mapRange addr seg segSize length ok)
  | .unmap addr length ok => m.andThen (m.unmap addr length ok)

/-- Calls on one memory. -/
def vmemSystem : System Memory VmemOp (Except MemErr Window) where
  init m := ∃ max, reserve max true = .ok m
  step m op := some (m.step op)

/-! ### Page rounding -/

theorem getLsbD_pageMask : ∀ i < 64, (~~~65535#64).getLsbD i = decide (16 ≤ i) := by decide

theorem and_pageMask (n : BitVec 64) : n &&& ~~~65535#64 = n >>> 16 <<< 16 := by
  apply BitVec.eq_of_getLsbD_eq
  intro i hi
  rw [BitVec.getLsbD_and, getLsbD_pageMask i hi, BitVec.getLsbD_shiftLeft,
    BitVec.getLsbD_ushiftRight]
  by_cases h : i < 16
  · simp [h, show ¬ 16 ≤ i by omega]
  · simp [h, hi, show 16 + (i - 16) = i by omega, show 16 ≤ i by omega]

theorem toNat_and_pageMask (n : BitVec 64) :
    (n &&& ~~~65535#64).toNat = n.toNat / 65536 * 65536 := by
  have h := n.isLt
  rw [and_pageMask, BitVec.toNat_shiftLeft, BitVec.toNat_ushiftRight, Nat.shiftRight_eq_div_pow,
    Nat.shiftLeft_eq]
  exact Nat.mod_eq_of_lt (by omega)

theorem toNat_alignUp (n : BitVec 64) :
    (alignUp n).toNat = (n.toNat + 65535) % 2 ^ 64 / 65536 * 65536 := by
  have h : (n + 65535#64).toNat = (n.toNat + 65535) % 2 ^ 64 := BitVec.toNat_add n 65535#64
  rw [← h]
  exact toNat_and_pageMask (n + 65535#64)

theorem toNat_alignUp_of_lt {n : BitVec 64} (h : n.toNat < 2 ^ 63) :
    (alignUp n).toNat = Kernel.alignUp n.toNat := by
  rw [toNat_alignUp, Kernel.alignUp, PageSize]
  omega

theorem alignUp_mod (n : BitVec 64) : (alignUp n).toNat % PageSize = 0 := by
  rw [toNat_alignUp, PageSize]
  omega

/-! ### The order of the sizes -/

namespace Memory

/-- The size is within the committed pages, and these are within the reserved ones. -/
structure Wf (m : Memory) : Prop where
  size_le : m.size.toNat ≤ m.committed.toNat
  committed_le : m.committed.toNat ≤ m.len.toNat
  aligned : m.committed.toNat % PageSize = 0
  len_aligned : m.len.toNat % PageSize = 0
  len_lt : m.len.toNat < 2 ^ 63

variable {m m' m0 : Memory} {w : Window}

theorem Wf.of_reserve {max : BitVec 64} (h : reserve max ok = .ok m) :
    m.Wf ∧ m.committed = 0 := by
  have hmod := alignUp_mod (if max = 0 then BitVec.ofNat 64 PageSize else max)
  simp only [reserve] at h
  generalize alignUp _ = k at h hmod
  split_ifs at h with h1 h2
  cases h
  exact ⟨⟨le_rfl, Nat.zero_le _, rfl, hmod, h2⟩, rfl⟩

theorem Wf.alignUp_le (h : m.Wf) {size : BitVec 64} (hs : size.toNat ≤ m.len.toNat) :
    (alignUp size).toNat ≤ m.len.toNat ∧ size.toNat ≤ (alignUp size).toNat := by
  have h1 := h.len_aligned
  have h2 := h.len_lt
  rw [toNat_alignUp, PageSize] at *
  omega

theorem Wf.reallocate (h : m.Wf) (size : BitVec 64) (ok : Bool) :
    m.reallocate size ok = .error .err ∨
    ∃ c, m.reallocate size ok = .ok ({ m with committed := c, size }, ⟨0, size.toNat⟩) ∧
      m.committed.toNat ≤ c.toNat ∧ ({ m with committed := c, size } : Memory).Wf := by
  simp only [Memory.reallocate, BitVec.lt_def]
  by_cases h1 : m.len.toNat < size.toNat
  · exact Or.inl (if_pos h1)
  rw [if_neg h1]
  obtain ⟨hlen, hle⟩ := h.alignUp_le (Nat.not_lt.mp h1)
  by_cases h2 : m.committed.toNat < (alignUp size).toNat
  · rw [if_pos h2, if_neg (Nat.not_lt.mpr hlen)]
    cases ok with
    | false => exact Or.inl rfl
    | true => exact Or.inr ⟨_, rfl, h2.le, ⟨hle, hlen, alignUp_mod size, h.len_aligned, h.len_lt⟩⟩
  · rw [if_neg h2]
    exact Or.inr ⟨m.committed, rfl, le_rfl,
      ⟨hle.trans (Nat.not_lt.mp h2), h.committed_le, h.aligned, h.len_aligned, h.len_lt⟩⟩

theorem Wf.free (h : m.Wf) : m.free.Wf := by
  unfold Memory.free
  split_ifs
  · exact h
  · exact ⟨le_rfl, le_rfl, rfl, rfl, by decide⟩

theorem Wf.setPages (h : m.Wf) (w : Window) (x : Option ℕ) : (m.setPages w x).Wf :=
  ⟨h.1, h.2, h.3, h.4, h.5⟩

theorem mmap_ok {x : Option ℕ}
    (h : m.mmap addr length x ok = .ok (m', w)) :
    w = ⟨addr.toNat, length.toNat⟩ ∧ m' = m.setPages w x := by
  simp only [Memory.mmap] at h
  split_ifs at h
  cases h
  exact ⟨rfl, rfl⟩

theorem mapRange_ok {segSize : BitVec 64} {seg : ℕ}
    (h : m.mapRange addr seg segSize length ok = .ok (m', w)) :
    w = ⟨addr.toNat, length.toNat⟩ ∧ m' = m.setPages w (some seg) := by
  unfold Memory.mapRange at h
  split_ifs at h
  exact mmap_ok h

theorem unmap_ok
    (h : m.unmap addr length ok = .ok (m', w)) :
    w = ⟨addr.toNat, length.toNat⟩ ∧ m' = m.setPages w none := by
  unfold Memory.unmap at h
  split_ifs at h
  exact mmap_ok h

theorem andThen_fst {P : Memory → Prop} {r : Except MemErr (Memory × Window)} (hm : P m)
    (hr : ∀ m' w, r = .ok (m', w) → P m') : P (m.andThen r).1 := by
  cases r with
  | error e => exact hm
  | ok r => exact hr r.1 r.2 rfl

/-- The sizes of a memory that has not been freed only grow, within its reservation. -/
structure Grows (m m' : Memory) : Prop where
  wf : m'.Wf
  len : m'.len = m.len
  committed : m.committed.toNat ≤ m'.committed.toNat

theorem Wf.refl (h : m.Wf) : m.Grows m := ⟨h, rfl, le_rfl⟩

theorem Grows.trans (h : m0.Grows m) (h' : m.Grows m') : m0.Grows m' :=
  ⟨h'.wf, h'.len.trans h.len, h.committed.trans h'.committed⟩

theorem Wf.step (h : m.Wf) {op : VmemOp} (hop : op ≠ .free) : m.Grows (m.step op).1 := by
  cases op with
  | reallocate size ok =>
    refine andThen_fst h.refl fun m' w he => ?_
    rcases h.reallocate size ok with hr | ⟨c, hr, hc, hw⟩
    · cases hr.symm.trans he
    · cases hr.symm.trans he
      exact ⟨hw, rfl, hc⟩
  | free => exact absurd rfl hop
  | slice addr n => exact h.refl
  | uint64Ptr addr => exact h.refl
  | mapRange addr seg segSize length ok =>
    refine andThen_fst h.refl fun m' w he => ?_
    rw [(mapRange_ok he).2]
    exact ⟨h.setPages _ _, rfl, le_rfl⟩
  | unmap addr length ok =>
    refine andThen_fst h.refl fun m' w he => ?_
    rw [(unmap_ok he).2]
    exact ⟨h.setPages _ _, rfl, le_rfl⟩

theorem free_len (m : Memory) : m.free.len = 0 := by
  unfold Memory.free
  split_ifs with h
  · exact h
  · rfl

theorem step_eq {op : VmemOp} {o : Except MemErr Window}
    (h : vmemSystem.step m op = some (m', o)) : m' = (m.step op).1 :=
  congrArg Prod.fst (Option.some.inj h).symm

/-- Along every sequence of operations the sizes stay in order within the reservation. -/
theorem Wf.run {tr : List (VmemOp × Except MemErr Window)} (h : m0.Wf)
    (hr : vmemSystem.Run m0 tr m) : m.Wf ∧ m.len.toNat ≤ m0.len.toNat := by
  refine hr.invariant (P := fun m => m.Wf ∧ m.len.toNat ≤ m0.len.toNat)
    (fun m op m' o hm hs => ?_) ⟨h, le_rfl⟩
  obtain rfl := step_eq hs
  by_cases hop : op = .free
  · subst hop
    refine ⟨hm.1.free, ?_⟩
    rw [show (m.step .free).1.len = 0 from m.free_len]
    exact Nat.zero_le _
  · have hg := hm.1.step hop
    exact ⟨hg.wf, hg.len ▸ hm.2⟩

theorem Wf.of_reachable (h : vmemSystem.Reachable m) : m.Wf := by
  obtain ⟨m0, tr, ⟨max, hmax⟩, hr⟩ := h
  exact ((Wf.of_reserve hmax).1.run hr).1

theorem Wf.run_grows {tr : List (VmemOp × Except MemErr Window)} (h : m.Wf)
    (hr : vmemSystem.Run m tr m') (hf : ∀ e ∈ tr, e.1 ≠ .free) : m.Grows m' := by
  refine hr.history (P := fun tr m' => (∀ e ∈ tr, e.1 ≠ .free) → m.Grows m')
    (fun tr m1 op m2 o ih hs hf => ?_) (fun _ => h.refl) hf
  have hg := ih fun e he => hf e (List.mem_append_left _ he)
  obtain rfl := step_eq hs
  exact hg.trans (hg.wf.step (hf (op, o) (by simp)))

/-! ### The accessors -/

/-- An accessor fails, or touches a range below `limit` only. -/
def Within (limit : BitVec 64) (r : Except MemErr Window) : Prop :=
  r = .error .err ∨ ∃ w, r = .ok w ∧ w.stop ≤ limit.toNat

theorem toNat_add_setWidth (addr n : BitVec 32) :
    (addr.setWidth 64 + n.setWidth 64).toNat = addr.toNat + n.toNat := by
  bv_omega

theorem Wf.slice (h : m.Wf) (addr n : BitVec 32) : Within m.size (m.slice addr n) := by
  have h1 := h.size_le
  have h2 := h.committed_le
  simp only [Memory.slice, BitVec.lt_def, toNat_add_setWidth]
  by_cases hs : m.size.toNat < addr.toNat + n.toNat
  · exact Or.inl (if_pos hs)
  · rw [if_neg hs, if_neg (by omega)]
    exact Or.inr ⟨_, rfl, Nat.not_lt.mp hs⟩

theorem Wf.slice_ok (h : m.Wf) {addr n : BitVec 32}
    (hs : addr.toNat + n.toNat ≤ m.size.toNat) : m.slice addr n = .ok ⟨addr.toNat, n.toNat⟩ := by
  have h1 := h.size_le
  have h2 := h.committed_le
  simp only [Memory.slice, BitVec.lt_def, toNat_add_setWidth]
  rw [if_neg (by omega), if_neg (by omega)]

theorem slice_err {addr n : BitVec 32} (hs : m.size.toNat < addr.toNat + n.toNat) :
    m.slice addr n = .error .err := by
  simp only [Memory.slice, BitVec.lt_def, toNat_add_setWidth]
  exact if_pos hs

theorem Wf.uint64Ptr (h : m.Wf) (addr : BitVec 32) : Within m.size (m.uint64Ptr addr) := by
  have h1 := h.size_le
  have h2 := h.committed_le
  have h3 : (addr.setWidth 64 + 8).toNat = addr.toNat + 8 := by bv_omega
  have h4 : (addr.setWidth 64).toNat = addr.toNat := by bv_omega
  simp only [Memory.uint64Ptr, BitVec.lt_def, BitVec.le_def, h3, h4]
  by_cases hs : addr % 8 ≠ 0 ∨ m.size.toNat < addr.toNat + 8
  · exact Or.inl (if_pos hs)
  · rw [if_neg hs, if_neg (by omega)]
    refine Or.inr ⟨_, rfl, ?_⟩
    show addr.toNat + 8 ≤ m.size.toNat
    omega

/-- A remapping fails, or touches a range below `committed` and the pages in it only. -/
def Remaps (m : Memory) (r : Except MemErr (Memory × Window)) : Prop :=
  r = .error .err ∨ ∃ m' w, r = .ok (m', w) ∧ w.stop ≤ m.committed.toNat ∧
    ∀ i, m'.pages i ≠ m.pages i → w.addr ≤ i * PageSize ∧ (i + 1) * PageSize ≤ w.stop

theorem remaps_mmap {x : Option ℕ}
    (ha : addr.toNat % PageSize = 0) (hl : length.toNat % PageSize = 0)
    (hc : addr.toNat + length.toNat ≤ m.committed.toNat) (hlen : addr.toNat < m.len.toNat) :
    m.Remaps (m.mmap addr length x ok) := by
  simp only [Memory.mmap, BitVec.le_def]
  rw [if_neg (Nat.not_le.mpr hlen)]
  split_ifs with h
  · exact Or.inl rfl
  · refine Or.inr ⟨_, _, rfl, hc, fun i hi => ?_⟩
    have hr : addr.toNat ≤ i * PageSize ∧ i * PageSize < addr.toNat + length.toNat :=
      by_contra fun hr => hi (if_neg hr)
    -- the end of the range is a multiple of the page size
    simp only [Window.stop, PageSize] at ha hl hr ⊢
    omega

variable {addr length : BitVec 64}

theorem Wf.mapRange (h : m.Wf) (hw : addr.toNat + length.toNat < 2 ^ 64) (seg : ℕ)
    (segSize : BitVec 64) (ok : Bool) : m.Remaps (m.mapRange addr seg segSize length ok) := by
  have hlen := h.committed_le
  unfold Memory.mapRange
  split_ifs with h1 h2 h3
  · exact Or.inl rfl
  · exact Or.inl rfl
  · exact Or.inl rfl
  · simp only [not_or, ne_eq, not_not] at h1
    have hpos : length.toNat ≠ 0 := fun h₀ => h1.2.2 (BitVec.eq_of_toNat_eq h₀)
    rw [BitVec.lt_def, BitVec.toNat_add, Nat.mod_eq_of_lt hw] at h3
    exact remaps_mmap h1.1 h1.2.1 (by omega) (by omega)

/-- `Unmap` stays in bounds unless its range is the empty one at the end of a full buffer. -/
theorem Wf.unmap_iff (h : m.Wf) (hw : addr.toNat + length.toNat < 2 ^ 64) (ok : Bool) :
    m.Remaps (m.unmap addr length ok) ↔
      ¬ (length = 0 ∧ addr = m.committed ∧ m.committed = m.len) := by
  have hlen := h.committed_le
  constructor
  · rintro hm ⟨rfl, rfl, he⟩
    have hpanic : m.unmap m.committed 0 ok = .error .panic := by
      have hpage : ¬ (m.committed.toNat % PageSize ≠ 0 ∨ (0 : BitVec 64).toNat % PageSize ≠ 0) := by
        simp [h.aligned]
      rw [Memory.unmap, if_neg hpage, if_neg (by simp), Memory.mmap,
        if_pos (BitVec.le_def.mpr (congrArg BitVec.toNat he).ge)]
    rw [hpanic] at hm
    rcases hm with hm | ⟨_, _, hm, -⟩ <;> cases hm
  · intro he
    unfold Memory.unmap
    split_ifs with h1 h2
    · exact Or.inl rfl
    · exact Or.inl rfl
    · simp only [not_or, ne_eq, not_not] at h1
      rw [BitVec.lt_def, BitVec.toNat_add, Nat.mod_eq_of_lt hw] at h2
      refine remaps_mmap h1.1 h1.2 (by omega) (Nat.lt_of_not_le fun hle => he ?_)
      have h₀ : (0 : BitVec 64).toNat = 0 := rfl
      refine ⟨BitVec.eq_of_toNat_eq ?_, BitVec.eq_of_toNat_eq ?_, BitVec.eq_of_toNat_eq ?_⟩
      all_goals omega

/-! ### The memory of the kernel's model -/

/-- The memory as `Kernel.Memory` has it. -/
def toKernel (m : Memory) : Kernel.Memory := ⟨m.len.toNat, m.committed.toNat, m.pages⟩

theorem toKernel_mk (len committed size : BitVec 64) (pages : ℕ → Option ℕ) :
    toKernel ⟨len, committed, size, pages⟩ = ⟨len.toNat, committed.toNat, pages⟩ := rfl

theorem Wf.reallocate_toKernel (h : m.Wf) (size : BitVec 64) (ok : Bool) :
    ((m.reallocate size ok).toOption.map fun r => r.1.toKernel) =
      m.toKernel.reallocate size.toNat ok := by
  unfold Memory.reallocate Kernel.Memory.reallocate
  by_cases h1 : m.len.toNat < size.toNat
  · rw [if_pos (BitVec.lt_def.mpr h1), if_pos (show m.toKernel.reserved < size.toNat from h1)]
    rfl
  have hlen := h.alignUp_le (Nat.not_lt.mp h1)
  have hlt := h.len_lt
  have hal := toNat_alignUp_of_lt (show size.toNat < 2 ^ 63 by omega)
  rw [if_neg (mt BitVec.lt_def.mp h1), if_neg (show ¬ m.toKernel.reserved < size.toNat from h1)]
  rw [← hal]
  by_cases h2 : m.committed.toNat < (alignUp size).toNat
  · rw [if_pos (BitVec.lt_def.mpr h2), if_neg (mt BitVec.lt_def.mp (Nat.not_lt.mpr hlen.1)),
      if_pos (show m.toKernel.committed < (alignUp size).toNat from h2)]
    cases ok with
    | false => rfl
    | true =>
      rw [if_pos rfl, if_pos rfl]
      exact congrArg some (toKernel_mk m.len (alignUp size) size m.pages)
  · rw [if_neg (mt BitVec.lt_def.mp h2),
      if_neg (show ¬ m.toKernel.committed < (alignUp size).toNat from h2)]
    rfl

theorem map_ite_error {α β : Type} {f : α → β} {e : MemErr} {c c' : Prop} [Decidable c]
    [Decidable c'] {x : Except MemErr α} {y : Except MemErr β} (hc : c ↔ c')
    (h : ¬ c → x.map f = y) :
    (if c then .error e else x).map f = if c' then .error e else y := by
  by_cases hc1 : c
  · rw [if_pos hc1, if_pos (hc.mp hc1)]
    rfl
  · rw [if_neg hc1, if_neg (mt hc.mpr hc1), h hc1]

theorem lt_add_iff (m : Memory) (hw : addr.toNat + length.toNat < 2 ^ 64) :
    m.committed < addr + length ↔ m.toKernel.committed < addr.toNat + length.toNat := by
  rw [BitVec.lt_def, BitVec.toNat_add, Nat.mod_eq_of_lt hw]
  rfl

theorem mapRange_toKernel (m : Memory) (hw : addr.toNat + length.toNat < 2 ^ 64) (seg : ℕ)
    (segSize : BitVec 64) (ok : Bool) :
    (m.mapRange addr seg segSize length ok).map (fun r => r.1.toKernel) =
      m.toKernel.mapRange addr.toNat seg segSize.toNat length.toNat ok := by
  have h₀ : length = 0 ↔ length.toNat = 0 := by rw [← BitVec.toNat_inj]; rfl
  unfold Memory.mapRange Memory.mmap Kernel.Memory.mapRange
  refine map_ite_error (by rw [h₀]) fun hpage => ?_
  refine map_ite_error BitVec.lt_def fun _ => ?_
  refine map_ite_error (m.lt_add_iff hw) fun _ => ?_
  refine map_ite_error BitVec.le_def fun _ => ?_
  simp only [not_or] at hpage
  cases ok with
  | false => simp [Except.map]
  | true =>
    rw [if_neg (by simpa using hpage.2.2)]
    rfl

/-- `mmap` refuses the empty range, which the kernel's model leaves to `ok`. -/
theorem unmap_toKernel (m : Memory) (hw : addr.toNat + length.toNat < 2 ^ 64) (ok : Bool) :
    (m.unmap addr length ok).map (fun r => r.1.toKernel) =
      m.toKernel.unmap addr.toNat length.toNat (ok && decide (length ≠ 0)) := by
  unfold Memory.unmap Memory.mmap Kernel.Memory.unmap
  refine map_ite_error Iff.rfl fun _ => ?_
  refine map_ite_error (m.lt_add_iff hw) fun _ => ?_
  refine map_ite_error BitVec.le_def fun _ => ?_
  by_cases h : length = 0 ∨ ok = false
  · rw [if_pos h, if_neg (by grind)]
    rfl
  · rw [if_neg h, if_pos (by grind)]
    rfl

end Memory

/-! ### The bounds -/

/-- **Bounds of a linear memory.** The sizes stay in order, and every accessor fails or stays below
the size it checks, `Unmap` if and only if it is not given the empty range at the end of a full
buffer. -/
theorem linear_memory_bounds {max : BitVec 64} {m0 m : Memory}
    {tr : List (VmemOp × Except MemErr Window)} (h₀ : reserve max true = .ok m0)
    (hr : vmemSystem.Run m0 tr m) :
    (m.size ≤ m.committed ∧ m.committed.toNat % PageSize = 0 ∧ m.committed ≤ m0.len) ∧
    (∀ tr' m', vmemSystem.Run m tr' m' → (∀ e ∈ tr', e.1 ≠ .free) → m.committed ≤ m'.committed) ∧
    (∀ size ok, m.reallocate size ok ≠ .error .panic) ∧
    (∀ addr n, Memory.Within m.size (m.slice addr n)) ∧
    (∀ addr, Memory.Within m.size (m.uint64Ptr addr)) ∧
    (∀ (addr n : BitVec 32) seg segSize ok,
      m.Remaps (m.mapRange (addr.setWidth 64) seg segSize (n.setWidth 64) ok)) ∧
    (∀ (addr n : BitVec 32) ok, m.Remaps (m.unmap (addr.setWidth 64) (n.setWidth 64) ok) ↔
      ¬ (n = 0 ∧ addr.setWidth 64 = m.committed ∧ m.committed = m.len)) := by
  obtain ⟨hm, hlen⟩ := (Memory.Wf.of_reserve h₀).1.run hr
  have hw : ∀ addr n : BitVec 32,
      (addr.setWidth 64).toNat + (n.setWidth 64).toNat < 2 ^ 64 := fun addr n => by bv_omega
  refine ⟨⟨hm.size_le, hm.aligned, hm.committed_le.trans hlen⟩, ?_, ?_, hm.slice, hm.uint64Ptr, ?_,
    ?_⟩
  · intro tr' m' hr' hf
    exact (hm.run_grows hr' hf).committed
  · intro size ok hp
    rcases hm.reallocate size ok with he | ⟨c, he, _⟩
    · cases he.symm.trans hp
    · cases he.symm.trans hp
  · intro addr n seg segSize ok
    exact hm.mapRange (hw addr n) seg segSize ok
  · intro addr n ok
    have h0 : n = 0 ↔ n.setWidth 64 = 0 := by bv_omega
    rw [h0]
    exact hm.unmap_iff (hw addr n) ok

/-- A memory of one page, all of it committed. -/
def onePage : Memory := ⟨65536, 65536, 65536, fun _ => none⟩

theorem onePage_reachable : vmemSystem.Reachable onePage :=
  ⟨_, _, ⟨65536, rfl⟩, System.exec_run _ [.reallocate 65536 true] rfl⟩

theorem linear_memory_bounds_page :
    reserve 1 true = .ok ⟨65536, 0, 0, fun _ => none⟩ ∧
    Memory.Within 65536 (onePage.slice 65532 4) ∧
    onePage.Remaps (onePage.unmap ((0 : BitVec 32).setWidth 64) ((65536 : BitVec 32).setWidth 64)
      true) := by
  have h₀ : reserve 1 true = .ok ⟨65536, 0, 0, fun _ => none⟩ := rfl
  have hr : vmemSystem.Run ⟨65536, 0, 0, fun _ => none⟩
      [(.reallocate 65536 true, .ok ⟨0, 65536⟩)] onePage :=
    System.exec_run _ [.reallocate 65536 true] rfl
  have h := linear_memory_bounds h₀ hr
  exact ⟨h₀, h.2.2.2.1 65532 4, (h.2.2.2.2.2.2 0 65536 true).mpr (by decide)⟩

/-- An empty `Unmap` at the end of a full memory panics, and so does one of a freed memory. -/
theorem unmap_empty_at_end :
    ∃ m0 m1 o0 o1, reserve 65536 true = .ok m0 ∧
      vmemSystem.Run m0 [(.reallocate 65536 true, o0)] onePage ∧
      (∀ ok, onePage.unmap ((65536 : BitVec 32).setWidth 64) ((0 : BitVec 32).setWidth 64) ok =
        .error .panic) ∧
      vmemSystem.Run onePage [(.free, o1)] m1 ∧
      ∀ ok, m1.unmap ((0 : BitVec 32).setWidth 64) ((0 : BitVec 32).setWidth 64) ok =
        .error .panic := by
  refine ⟨_, _, _, _, rfl, System.exec_run _ [.reallocate 65536 true] rfl, fun ok => rfl,
    System.exec_run _ [.free] rfl, fun ok => rfl⟩

end PgZero.Vmem
