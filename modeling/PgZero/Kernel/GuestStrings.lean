import PgZero.Kernel.AddrCodec
import PgZero.Lib.GoPath
import PgZero.Lib.Loop

/-!
# Strings in guest memory

`cstring` reads the string that ends at a zero byte, `strings` the list of strings whose pointers
end at a zero word. Addresses are `uint32` and wrap around.

* **`guest_strings`**: what is read is what there is, and `strings` ends, exactly for the other
  calls.
-/

set_option autoImplicit false

namespace PgZero.Kernel

open Lib

variable {a n j : ℕ} {s : Str}

/-- `maxLen` of `cstring` -/
def maxLen : ℕ := 65536

/-- The loop of `cstring` from `n` on, with the turns that are left. -/
def cstringFrom (m : Vmem.Memory) (bytes : ByteMem) (addr : BitVec 32) :
    ℕ → BitVec 32 → Except MemErr Str
  | 0, _ => .error .err
  | k + 1, n =>
    match m.slice (addr + n) 1 with
    | .error e => .error e
    | .ok b =>
      if bytes b.addr = 0 then
        match m.slice addr n with
        | .ok s => .ok (bytes.load s.addr s.len)
        -- the second result of `Slice` is not looked at: the nil slice is the empty string
        | .error .err => .ok []
        | .error .panic => .error .panic
      else cstringFrom m bytes addr k (n + 1)

/-- `cstring`; `.err` when its second result is false. -/
def cstring (m : Vmem.Memory) (bytes : ByteMem) (addr : BitVec 32) : Except MemErr Str :=
  cstringFrom m bytes addr maxLen 0

/-- One turn of the loop of `strings`, with `i` and `list`. -/
def stringsTurn (m : Vmem.Memory) (bytes : ByteMem) (addr : BitVec 32) (x : BitVec 32 × List Str) :
    (BitVec 32 × List Str) ⊕ Except MemErr (List Str) :=
  match readU32 m bytes (addr + 4 * x.1) with
  | .error e => .inr (.error e)
  | .ok ptr =>
    if ptr = 0 then .inr (.ok x.2)
    else
      match cstring m bytes (BitVec.ofNat 32 ptr) with
      | .error e => .inr (.error e)
      | .ok s => .inl (x.1 + 1, x.2 ++ [s])

/-- `strings`, if it ends: after `2 ^ 30` turns it comes to the first word again. -/
def strings (m : Vmem.Memory) (bytes : ByteMem) (addr : BitVec 32) :
    Option (Except MemErr (List Str)) :=
  Loop.run (stringsTurn m bytes addr) (2 ^ 30 + 1) (0, [])

theorem stringsTurn_eq_inl_iff {m : Vmem.Memory} {bytes : ByteMem} {addr : BitVec 32}
    {x x' : BitVec 32 × List Str} :
    stringsTurn m bytes addr x = .inl x' ↔
      ∃ ptr s, readU32 m bytes (addr + 4 * x.1) = .ok ptr ∧ ptr ≠ 0 ∧
        cstring m bytes (BitVec.ofNat 32 ptr) = .ok s ∧ x' = (x.1 + 1, x.2 ++ [s]) := by
  unfold stringsTurn
  constructor
  · intro h
    cases hr : readU32 m bytes (addr + 4 * x.1) with
    | error e =>
      rw [hr] at h
      cases h
    | ok ptr =>
      rw [hr] at h
      dsimp only at h
      split_ifs at h with hz
      cases hc : cstring m bytes (BitVec.ofNat 32 ptr) with
      | error e =>
        rw [hc] at h
        cases h
      | ok s =>
        rw [hc] at h
        cases h
        exact ⟨ptr, s, rfl, hz, hc, rfl⟩
  · rintro ⟨ptr, s, hr, hz, hc, rfl⟩
    rw [hr]
    dsimp only
    rw [if_neg hz, hc]

/-! ### What there is to read -/

/-- The word at an address. -/
def wordAt (bytes : ByteMem) (a : ℕ) : ℕ := ofLE (bytes.load a 4)

/-- The string `s`, with the zero byte that ends it. -/
structure CStringAt (m : Vmem.Memory) (bytes : ByteMem) (a : ℕ) (s : Str) : Prop where
  short : s.length < maxLen
  inside : a + s.length < m.size.toNat
  load : bytes.load a s.length = s
  no_nul : ∀ j < s.length, bytes (a + j) ≠ 0
  nul : bytes (a + s.length) = 0

/-- Bytes of the memory that are not zero. -/
def NonzeroAt (m : Vmem.Memory) (bytes : ByteMem) (a n : ℕ) : Prop :=
  ∀ j < n, a + j < m.size.toNat ∧ bytes (a + j) ≠ 0

/-- Pointers to the strings `list`, one after the other. -/
def PointersAt (m : Vmem.Memory) (bytes : ByteMem) (a : ℕ) (list : List Str) : Prop :=
  ∀ j s, list[j]? = some s → wordAt bytes (a + 4 * j) ≠ 0 ∧
    CStringAt m bytes (wordAt bytes (a + 4 * j)) s

/-- Pointers to the strings `list`, with the zero word that ends them. -/
structure StringsAt (m : Vmem.Memory) (bytes : ByteMem) (a : ℕ) (list : List Str) : Prop where
  inside : a + 4 * list.length + 4 ≤ m.size.toNat
  pointers : PointersAt m bytes a list
  zero : wordAt bytes (a + 4 * list.length) = 0

/-- The loop of `cstring` reads around the end: the memory is the whole address space, there is no
zero byte from `a` on, and there is one at its start that is near enough. -/
structure StringAround (m : Vmem.Memory) (bytes : ByteMem) (a : ℕ) : Prop where
  size : m.size.toNat = 2 ^ 32
  no_nul : ∀ b, a ≤ b → b < 2 ^ 32 → bytes b ≠ 0
  nul : ∃ b, bytes b = 0 ∧ 2 ^ 32 + b < a + maxLen

/-- The address of the `i`-th pointer of a list. -/
def listAddr (a i : ℕ) : ℕ := (a + 4 * i) % 2 ^ 32

/-- The `i`-th pointer of a list. -/
def listWord (bytes : ByteMem) (a i : ℕ) : ℕ := wordAt bytes (listAddr a i)

/-- The list has a `j`-th string: no word up to there is zero. -/
def Listed (bytes : ByteMem) (a j : ℕ) : Prop := ∀ i ≤ j, listWord bytes a i ≠ 0

/-- There is a string at an address, or one that is read around the end. -/
def Readable (m : Vmem.Memory) (bytes : ByteMem) (a : ℕ) : Prop :=
  (∃ s, CStringAt m bytes a s) ∨ StringAround m bytes a

/-- A zero word ends the list before the end of the memory. -/
def ZeroInside (m : Vmem.Memory) (bytes : ByteMem) (a : ℕ) : Prop :=
  ∃ n, a + 4 * n + 4 ≤ m.size.toNat ∧ wordAt bytes (a + 4 * n) = 0

/-- The loop of `strings` reads around the end: it can read every string, and one of them around
the end; or it reads the pointers around the end, as the memory is the whole address space. -/
structure ListAround (m : Vmem.Memory) (bytes : ByteMem) (a : ℕ) : Prop where
  readable : ∀ j, Listed bytes a j → Readable m bytes (listWord bytes a j)
  around : (ZeroInside m bytes a ∧ ∃ j, Listed bytes a j ∧
      StringAround m bytes (listWord bytes a j)) ∨
    (¬ ZeroInside m bytes a ∧ m.size.toNat = 2 ^ 32 ∧ a % 4 = 0)

section Reading

variable {m : Vmem.Memory} {bytes : ByteMem} {a : ℕ} {s s' : Str} {list list' : List Str}

theorem CStringAt.unique (h : CStringAt m bytes a s) (h' : CStringAt m bytes a s') : s = s' := by
  have hlen : s.length = s'.length := by
    rcases Nat.lt_trichotomy s.length s'.length with hlt | heq | hgt
    · exact absurd h.nul (h'.no_nul _ hlt)
    · exact heq
    · exact absurd h'.nul (h.no_nul _ hgt)
  rw [← h.load, ← h'.load, hlen]

theorem CStringAt.length_ge (h : CStringAt m bytes a s) (hn : NonzeroAt m bytes a n) :
    n ≤ s.length := by
  by_contra hlt
  exact (hn _ (Nat.not_le.mp hlt)).2 h.nul

theorem NonzeroAt.succ (h : NonzeroAt m bytes a n) (hin : a + n < m.size.toNat)
    (hb : bytes (a + n) ≠ 0) : NonzeroAt m bytes a (n + 1) := by
  intro j hj
  rcases Nat.lt_succ_iff_lt_or_eq.mp hj with hj | rfl
  · exact h j hj
  · exact ⟨hin, hb⟩

theorem NonzeroAt.cstringAt_iff (h : NonzeroAt m bytes a n) (hshort : n < maxLen)
    (hin : a + n < m.size.toNat) (hz : bytes (a + n) = 0) :
    CStringAt m bytes a s ↔ bytes.load a n = s := by
  constructor
  · intro hs
    have hlen : s.length = n := by
      refine Nat.le_antisymm ?_ (hs.length_ge h)
      by_contra hgt
      exact hs.no_nul n (Nat.not_le.mp hgt) hz
    rw [← hlen, hs.load]
  · rintro rfl
    refine ⟨?_, ?_, ?_, ?_, ?_⟩ <;> rw [ByteMem.length_load]
    · exact hshort
    · exact hin
    · exact fun j hj => (h j hj).2
    · exact hz

theorem StringsAt.isPrefix (h : StringsAt m bytes a list') (hp : PointersAt m bytes a list) :
    list <+: list' := by
  have hlen : list.length ≤ list'.length := by
    by_contra hlt
    obtain ⟨s, hs⟩ : ∃ s, list[list'.length]? = some s :=
      ⟨_, List.getElem?_eq_getElem (Nat.not_le.mp hlt)⟩
    exact (hp _ s hs).1 h.zero
  rw [List.prefix_iff_eq_take]
  refine List.ext_getElem? fun j => ?_
  by_cases hj : j < list.length
  · rw [List.getElem?_take_of_lt hj, List.getElem?_eq_getElem hj,
      List.getElem?_eq_getElem (hj.trans_le hlen), Option.some_inj]
    exact (hp j _ (List.getElem?_eq_getElem hj)).2.unique
      (h.pointers j _ (List.getElem?_eq_getElem (hj.trans_le hlen))).2
  · rw [List.getElem?_eq_none (Nat.not_lt.mp hj), List.getElem?_eq_none (by simp; omega)]

theorem StringsAt.unique (h : StringsAt m bytes a list) (h' : StringsAt m bytes a list') :
    list = list' :=
  (h'.isPrefix h.pointers).eq_of_length_le (h.isPrefix h'.pointers).length_le

end Reading

/-! ### One string -/

theorem toNat_add_ofNat {addr : BitVec 32} (h : addr.toNat + n < 2 ^ 32) :
    (addr + BitVec.ofNat 32 n).toNat = addr.toNat + n := by
  bv_omega

section OneString

variable {m : Vmem.Memory} {bytes : ByteMem} {addr : BitVec 32} (hm : m.Wf)
  (hsize : m.size.toNat ≤ 2 ^ 32)

theorem StringAround.not_cstringAt (h : StringAround m bytes a) :
    ¬ CStringAt m bytes a s := by
  intro hs
  have hin := hs.inside
  rw [h.size] at hin
  exact h.no_nul _ (Nat.le_add_right a _) hin hs.nul

variable (bytes addr) in
include hm in
/-- The loop, around the end of the address space and `i` bytes further. -/
theorem cstringFrom_around (hwhole : m.size.toNat = 2 ^ 32) {k n i : ℕ} (hk : n + k = maxLen)
    (hi : addr.toNat + n = 2 ^ 32 + i) :
    cstringFrom m bytes addr k (BitVec.ofNat 32 n) ≠ .error .panic ∧
    ((∃ s, cstringFrom m bytes addr k (BitVec.ofNat 32 n) = .ok s) ↔
      ∃ b, i ≤ b ∧ bytes b = 0 ∧ 2 ^ 32 + b < addr.toNat + maxLen) := by
  have hmax : maxLen = 65536 := rfl
  induction k generalizing n i with
  | zero =>
    rw [cstringFrom]
    refine ⟨nofun, nofun, ?_⟩
    rintro ⟨b, hb, -, hlt⟩
    omega
  | succ k ih =>
    have hval : (addr + BitVec.ofNat 32 n).toNat = i := by bv_omega
    have hslice : m.slice (addr + BitVec.ofNat 32 n) 1 = .ok ⟨i, 1⟩ := by
      have h1 : (1 : BitVec 32).toNat = 1 := rfl
      rw [hm.slice_ok (by rw [hval, hwhole, h1]; omega), hval, h1]
    rw [cstringFrom, hslice]
    dsimp only
    split_ifs with hz
    · have hfound : ∃ b, i ≤ b ∧ bytes b = 0 ∧ 2 ^ 32 + b < addr.toNat + maxLen :=
        ⟨i, le_rfl, hz, by omega⟩
      by_cases hend : m.size.toNat < addr.toNat + (BitVec.ofNat 32 n).toNat
      · rw [Vmem.Memory.slice_err hend]
        exact ⟨nofun, iff_of_true ⟨_, rfl⟩ hfound⟩
      · rw [hm.slice_ok (not_lt.mp hend)]
        exact ⟨nofun, iff_of_true ⟨_, rfl⟩ hfound⟩
    · have hnext : BitVec.ofNat 32 n + 1 = BitVec.ofNat 32 (n + 1) := by bv_omega
      obtain ⟨hpanic, hok⟩ := ih (n := n + 1) (i := i + 1) (by omega) (by omega)
      rw [hnext, hok]
      refine ⟨hpanic, ?_, ?_⟩
      · rintro ⟨b, hb, h⟩
        exact ⟨b, by omega, h⟩
      · rintro ⟨b, hb, h⟩
        exact ⟨b, lt_of_le_of_ne hb fun he => hz (he ▸ h.1), h⟩

include hm hsize in
theorem cstringFrom_spec {k : ℕ} (hk : n + k = maxLen) (hin : addr.toNat + n < 2 ^ 32)
    (hn : NonzeroAt m bytes addr.toNat n) :
    cstringFrom m bytes addr k (BitVec.ofNat 32 n) ≠ .error .panic ∧
    (¬ StringAround m bytes addr.toNat →
      ∀ s, cstringFrom m bytes addr k (BitVec.ofNat 32 n) = .ok s ↔
        CStringAt m bytes addr.toNat s) ∧
    (StringAround m bytes addr.toNat →
      ∃ s, cstringFrom m bytes addr k (BitVec.ofNat 32 n) = .ok s) := by
  induction k generalizing n with
  | zero =>
    rw [cstringFrom]
    refine ⟨nofun, fun _ s => ⟨nofun, fun hs => ?_⟩, fun h => ?_⟩
    · have h1 := hs.length_ge hn
      have h2 := hs.short
      omega
    · obtain ⟨b, -, hb⟩ := h.nul
      omega
  | succ k ih =>
    have hval := toNat_add_ofNat hin
    rw [cstringFrom]
    by_cases hlt : addr.toNat + n < m.size.toNat
    · have hslice : m.slice (addr + BitVec.ofNat 32 n) 1 = .ok ⟨addr.toNat + n, 1⟩ := by
        rw [hm.slice_ok (by rw [hval]; exact hlt), hval]
        rfl
      rw [hslice]
      dsimp only
      split_ifs with hz
      · have hlen : (BitVec.ofNat 32 n).toNat = n := by bv_omega
        rw [hm.slice_ok (by omega), hlen]
        refine ⟨nofun, fun _ s => ?_, fun _ => ⟨_, rfl⟩⟩
        rw [hn.cstringAt_iff (by omega) hlt hz]
        exact ⟨Except.ok.inj, congrArg Except.ok⟩
      · have hnext : BitVec.ofNat 32 n + 1 = BitVec.ofNat 32 (n + 1) := by bv_omega
        rw [hnext]
        have hn' := hn.succ hlt hz
        by_cases hlast : addr.toNat + (n + 1) < 2 ^ 32
        · exact ih (by omega) hlast hn'
        · -- the last byte of the address space: the next one is at address zero
          have hwhole : m.size.toNat = 2 ^ 32 := by omega
          obtain ⟨hpanic, hok⟩ := cstringFrom_around bytes addr hm hwhole
            (k := k) (n := n + 1) (i := 0) (by omega) (by omega)
          refine ⟨hpanic, fun hnot s => ⟨fun hs => ?_, fun hs => ?_⟩, fun h => ?_⟩
          · obtain ⟨b, -, hb⟩ := hok.mp ⟨s, hs⟩
            refine absurd ⟨hwhole, fun c hc hc' => ?_, b, hb⟩ hnot
            have hcn := (hn' (c - addr.toNat) (by omega)).2
            rwa [Nat.add_sub_cancel' hc] at hcn
          · have h1 := hs.length_ge hn'
            have h2 := hs.inside
            omega
          · obtain ⟨b, hb⟩ := h.nul
            exact hok.mpr ⟨b, Nat.zero_le b, hb⟩
    · rw [Vmem.Memory.slice_err (by rw [hval]; exact Nat.lt_succ_of_le (Nat.not_lt.mp hlt))]
      refine ⟨nofun, fun _ s => ⟨nofun, fun hs => ?_⟩, fun h => ?_⟩
      · have h1 := hs.length_ge hn
        have h2 := hs.inside
        omega
      · have h1 := h.size
        omega

variable (bytes) in
include hm hsize in
theorem cstring_spec (addr : BitVec 32) :
    cstring m bytes addr ≠ .error .panic ∧
    (¬ StringAround m bytes addr.toNat →
      ∀ s, cstring m bytes addr = .ok s ↔ CStringAt m bytes addr.toNat s) ∧
    (StringAround m bytes addr.toNat → ∃ s, cstring m bytes addr = .ok s) :=
  cstringFrom_spec hm hsize (n := 0) (Nat.zero_add _) addr.isLt
    fun j hj => absurd hj (Nat.not_lt_zero j)

include hm hsize in
theorem cstring_right_iff (addr : BitVec 32) :
    (∀ s, cstring m bytes addr = .ok s ↔ CStringAt m bytes addr.toNat s) ↔
      ¬ StringAround m bytes addr.toNat := by
  obtain ⟨-, hright, haround⟩ := cstring_spec bytes hm hsize addr
  refine ⟨fun h hA => ?_, hright⟩
  obtain ⟨s, hs⟩ := haround hA
  exact hA.not_cstringAt ((h s).mp hs)

variable (bytes) in
include hm hsize in
theorem cstring_ok_iff (addr : BitVec 32) :
    (∃ s, cstring m bytes addr = .ok s) ↔ Readable m bytes addr.toNat := by
  obtain ⟨-, hright, haround⟩ := cstring_spec bytes hm hsize addr
  by_cases hA : StringAround m bytes addr.toNat
  · exact iff_of_true (haround hA) (Or.inr hA)
  · constructor
    · rintro ⟨s, hs⟩
      exact Or.inl ⟨s, (hright hA s).mp hs⟩
    · rintro (⟨s, hs⟩ | h)
      · exact ⟨s, (hright hA s).mpr hs⟩
      · exact absurd h hA

/-! ### A list of strings -/

include hm in
theorem readU32_spec (addr : BitVec 32) :
    (addr.toNat + 4 ≤ m.size.toNat ∧ readU32 m bytes addr = .ok (wordAt bytes addr.toNat)) ∨
    (m.size.toNat < addr.toNat + 4 ∧ readU32 m bytes addr = .error .err) := by
  by_cases h : addr.toNat + 4 ≤ m.size.toNat
  · refine Or.inl ⟨h, ?_⟩
    rw [readU32, hm.slice_ok (n := 4) h]
    rfl
  · refine Or.inr ⟨Nat.not_le.mp h, ?_⟩
    rw [readU32, Vmem.Memory.slice_err (n := 4) (Nat.not_le.mp h)]
    rfl

theorem wordAt_lt (bytes : ByteMem) (a : ℕ) : wordAt bytes a < 2 ^ 32 := by
  have h := ofLE_lt (bytes.load a 4)
  rw [ByteMem.length_load] at h
  exact h

/-- A turn at the `j`-th pointer goes on with the string `s`. -/
structure Goes (m : Vmem.Memory) (bytes : ByteMem) (a j : ℕ) (s : Str) : Prop where
  inside : listAddr a j + 4 ≤ m.size.toNat
  ne : listWord bytes a j ≠ 0
  string : cstring m bytes (BitVec.ofNat 32 (listWord bytes a j)) = .ok s

theorem toNat_listAddr (addr : BitVec 32) (j : ℕ) :
    (addr + 4 * BitVec.ofNat 32 j).toNat = listAddr addr.toNat j := by
  have h : (4 * BitVec.ofNat 32 j).toNat = 4 * j % 2 ^ 32 := by bv_omega
  rw [BitVec.toNat_add, h, Nat.add_mod_mod, listAddr]

theorem toNat_listWord (bytes : ByteMem) (a j : ℕ) :
    (BitVec.ofNat 32 (listWord bytes a j)).toNat = listWord bytes a j := by
  rw [BitVec.toNat_ofNat]
  exact Nat.mod_eq_of_lt (wordAt_lt _ _)

theorem listAddr_aligned (h : a % 4 = 0) (j : ℕ) : listAddr a j + 4 ≤ 2 ^ 32 := by
  unfold listAddr
  omega

theorem listAddr_eq (h : a + 4 * j < 2 ^ 32) : listAddr a j = a + 4 * j :=
  Nat.mod_eq_of_lt h

include hm in
theorem goes_of_turn {list : List Str} {x' : BitVec 32 × List Str}
    (hs : stringsTurn m bytes addr (BitVec.ofNat 32 j, list) = .inl x') :
    ∃ s, Goes m bytes addr.toNat j s ∧ x' = (BitVec.ofNat 32 (j + 1), list ++ [s]) := by
  obtain ⟨ptr, s, hr, hz, hc, rfl⟩ := stringsTurn_eq_inl_iff.mp hs
  dsimp only at hr
  rcases @readU32_spec _ bytes hm (addr + 4 * BitVec.ofNat 32 j) with ⟨hin, hr'⟩ | ⟨-, hr'⟩
  · rw [toNat_listAddr] at hin hr'
    cases hr.symm.trans hr'
    refine ⟨s, ⟨hin, hz, hc⟩, Prod.ext ?_ rfl⟩
    exact (BitVec.ofNat_add j 1).symm
  · cases hr.symm.trans hr'

/-- The loop of `strings`, after the strings `x.2`. -/
structure ListRead (m : Vmem.Memory) (bytes : ByteMem) (a : ℕ) (x : BitVec 32 × List Str) :
    Prop where
  index : x.1 = BitVec.ofNat 32 x.2.length
  read : ∀ j s, x.2[j]? = some s → Goes m bytes a j s

variable {x x' : BitVec 32 × List Str}

include hm in
theorem ListRead.turn (h : ListRead m bytes addr.toNat x)
    (hs : stringsTurn m bytes addr x = .inl x') : ListRead m bytes addr.toNat x' := by
  obtain ⟨i, list⟩ := x
  obtain ⟨hi, hread⟩ := h
  dsimp only at hi hread
  subst hi
  obtain ⟨s, hgoes, rfl⟩ := goes_of_turn hm hs
  refine ⟨?_, fun j t hj => ?_⟩
  · rw [List.length_append, List.length_singleton]
  · rcases Nat.lt_trichotomy j list.length with hlt | rfl | hgt
    · rw [List.getElem?_append_left hlt] at hj
      exact hread j t hj
    · rw [List.getElem?_concat_length] at hj
      cases hj
      exact hgoes
    · rw [List.getElem?_eq_none (by simp; omega)] at hj
      cases hj

/-- How the loop leaves at the `n`-th pointer. -/
inductive LeavesAt (m : Vmem.Memory) (bytes : ByteMem) (a n : ℕ) (list : List Str) :
    Except MemErr (List Str) → Prop
  | outside (h : m.size.toNat < listAddr a n + 4) : LeavesAt m bytes a n list (.error .err)
  | zero (h : listAddr a n + 4 ≤ m.size.toNat) (hz : listWord bytes a n = 0) :
    LeavesAt m bytes a n list (.ok list)
  | unreadable (hz : listWord bytes a n ≠ 0) (hs : ¬ Readable m bytes (listWord bytes a n)) :
    LeavesAt m bytes a n list (.error .err)

include hm hsize in
theorem ListRead.leave (h : ListRead m bytes addr.toNat x) {r : Except MemErr (List Str)}
    (hs : stringsTurn m bytes addr x = .inr r) :
    LeavesAt m bytes addr.toNat x.2.length x.2 r := by
  unfold stringsTurn at hs
  rw [h.index] at hs
  have haddr := toNat_listAddr addr x.2.length
  rcases @readU32_spec _ bytes hm (addr + 4 * BitVec.ofNat 32 x.2.length) with
    ⟨hin, hr⟩ | ⟨hout, hr⟩
  · rw [haddr] at hin hr
    rw [hr] at hs
    dsimp only at hs
    split_ifs at hs with hz
    · cases hs
      exact .zero hin hz
    · have hok := cstring_ok_iff bytes hm hsize
        (BitVec.ofNat 32 (listWord bytes addr.toNat x.2.length))
      have hpanic := (cstring_spec bytes hm hsize
        (BitVec.ofNat 32 (listWord bytes addr.toNat x.2.length))).1
      rw [toNat_listWord] at hok
      rw [← listWord] at hs hz
      cases hc : cstring m bytes (BitVec.ofNat 32 (listWord bytes addr.toNat x.2.length)) with
      | ok t =>
        rw [hc] at hs
        cases hs
      | error e =>
        rw [hc] at hs hpanic hok
        cases hs
        cases e with
        | err => exact .unreadable hz fun hs => nomatch hok.mpr hs
        | panic => exact absurd rfl hpanic
  · rw [hr] at hs
    rw [haddr] at hout
    cases hs
    exact .outside hout

include hm hsize in
theorem leavesAt_of_strings {r : Except MemErr (List Str)} (h : strings m bytes addr = some r) :
    ∃ list, (∀ j s, list[j]? = some s → Goes m bytes addr.toNat j s) ∧
      LeavesAt m bytes addr.toNat list.length list r := by
  obtain ⟨x, hl, hr⟩ := Loop.ends_of_run h
  have hI : ListRead m bytes addr.toNat x :=
    hl.invariant (fun _ _ hI hs => hI.turn hm hs) ⟨rfl, fun j s hj => by cases hj⟩
  exact ⟨x.2, hI.read, hI.leave hm hsize hr⟩

theorem turn_of_strings_eq_none (h : strings m bytes addr = none) (k : ℕ) :
    ∃ list x', stringsTurn m bytes addr (BitVec.ofNat 32 (k % 2 ^ 30), list) = .inl x' := by
  have hreach : ∀ k ≤ 2 ^ 30, ∃ list,
      Loop.run (stringsTurn m bytes addr) (2 ^ 30 + 1 - k) (BitVec.ofNat 32 k, list) = none := by
    intro k hk
    induction k with
    | zero => exact ⟨[], h⟩
    | succ k ih =>
      obtain ⟨list, hl⟩ := ih (by omega)
      rw [show 2 ^ 30 + 1 - k = 2 ^ 30 + 1 - (k + 1) + 1 by omega] at hl
      obtain ⟨x', hx, hl'⟩ := Loop.exists_of_run_eq_none hl
      obtain ⟨-, s, -, -, -, rfl⟩ := stringsTurn_eq_inl_iff.mp hx
      refine ⟨list ++ [s], ?_⟩
      have hi : BitVec.ofNat 32 k + 1 = BitVec.ofNat 32 (k + 1) := by bv_omega
      rw [← hi]
      exact hl'
  obtain ⟨list, hl⟩ := hreach (k % 2 ^ 30) (by omega)
  rw [show 2 ^ 30 + 1 - k % 2 ^ 30 = 2 ^ 30 - k % 2 ^ 30 + 1 by omega] at hl
  obtain ⟨x', hx, -⟩ := Loop.exists_of_run_eq_none hl
  exact ⟨list, x', hx⟩

/-- **The bound of `strings`.** A loop that comes to the first word again never ends. -/
theorem run_of_strings_eq_none (h : strings m bytes addr = none) (n : ℕ) :
    Loop.run (stringsTurn m bytes addr) n (0, []) = none := by
  refine Loop.run_eq_none (I := fun _ => True) (fun x _ => ?_) trivial n
  -- the same word as in one of the first `2 ^ 30` turns
  obtain ⟨list, x', hx⟩ := turn_of_strings_eq_none h x.1.toNat
  obtain ⟨ptr, s, hr, hz, hc, -⟩ := stringsTurn_eq_inl_iff.mp hx
  have hword : 4 * BitVec.ofNat 32 (x.1.toNat % 2 ^ 30) = 4 * x.1 := by bv_omega
  rw [hword] at hr
  exact ⟨_, stringsTurn_eq_inl_iff.mpr ⟨ptr, s, hr, hz, hc, rfl⟩, trivial⟩

include hm in
theorem goes_of_strings_eq_none (h : strings m bytes addr = none) (j : ℕ) :
    ∃ s, Goes m bytes addr.toNat j s := by
  obtain ⟨list, x', hx⟩ := turn_of_strings_eq_none h j
  obtain ⟨s, hgoes, -⟩ := goes_of_turn hm hx
  have haddr : listAddr addr.toNat (j % 2 ^ 30) = listAddr addr.toNat j := by
    unfold listAddr
    omega
  refine ⟨s, ?_, ?_, ?_⟩
  · exact haddr ▸ hgoes.inside
  · rw [listWord, ← haddr]
    exact hgoes.ne
  · rw [listWord, ← haddr]
    exact hgoes.string

/-! ### When the list is right -/

variable {a n : ℕ} {list : List Str}

include hm hsize in
theorem Goes.readable (h : Goes m bytes a j s) :
    Readable m bytes (listWord bytes a j) := by
  have hok := (cstring_ok_iff bytes hm hsize _).mp ⟨s, h.string⟩
  rwa [toNat_listWord] at hok

include hm hsize in
theorem Goes.cstringAt (h : Goes m bytes a j s)
    (hA : ¬ StringAround m bytes (listWord bytes a j)) :
    CStringAt m bytes (listWord bytes a j) s := by
  have hright := (cstring_spec bytes hm hsize
    (BitVec.ofNat 32 (listWord bytes a j))).2.1
  rw [toNat_listWord] at hright
  exact (hright hA s).mp h.string

/-- What `strings` should do. -/
def StringsRight (m : Vmem.Memory) (bytes : ByteMem) (addr : BitVec 32) : Prop :=
  (∃ r, strings m bytes addr = some r ∧ r ≠ .error .panic) ∧
    ∀ list, strings m bytes addr = some (.ok list) ↔ StringsAt m bytes addr.toNat list

theorem StringsRight.of_error (hrun : strings m bytes addr = some (.error .err))
    (h : ∀ list, ¬ StringsAt m bytes addr.toNat list) : StringsRight m bytes addr := by
  refine ⟨⟨_, hrun, nofun⟩, fun list => iff_of_false (fun he => ?_) (h list)⟩
  cases hrun.symm.trans he

theorem StringsRight.iff_of_ok (hrun : strings m bytes addr = some (.ok list)) :
    StringsRight m bytes addr ↔ StringsAt m bytes addr.toNat list := by
  refine ⟨fun h => (h.2 list).mp hrun, fun h => ⟨⟨_, hrun, nofun⟩, fun l => ⟨fun he => ?_, ?_⟩⟩⟩
  · cases hrun.symm.trans he
    exact h
  · intro hl
    rw [hrun, h.unique hl]

theorem StringsAt.zeroInside (h : StringsAt m bytes a list) : ZeroInside m bytes a :=
  ⟨_, h.inside, h.zero⟩

/-- Pointers up to a zero word: the list is right if no string was read around the end. -/
theorem stringsAt_iff (hm : m.Wf) (hsize : m.size.toNat ≤ 2 ^ 32)
    (hread : ∀ j s, list[j]? = some s → Goes m bytes a j s)
    (hin : a + 4 * list.length + 4 ≤ m.size.toNat) (hz : wordAt bytes (a + 4 * list.length) = 0) :
    StringsAt m bytes a list ↔ ∀ j < list.length, ¬ StringAround m bytes (listWord bytes a j) := by
  have haddr : ∀ j < list.length, listWord bytes a j = wordAt bytes (a + 4 * j) := by
    intro j hj
    rw [listWord, listAddr_eq (by omega)]
  constructor
  · intro h j hj hA
    have hstr := (h.pointers j _ (List.getElem?_eq_getElem hj)).2
    rw [← haddr j hj] at hstr
    exact hA.not_cstringAt hstr
  · intro h
    refine ⟨hin, fun j s hj => ?_, hz⟩
    have hlt := (List.getElem?_eq_some_iff.mp hj).1
    have hgoes := hread j s hj
    rw [← haddr j hlt]
    exact ⟨hgoes.ne, hgoes.cstringAt hm hsize (h j hlt)⟩

section Read

variable (ha : a < 2 ^ 32) (hread : ∀ j < n, ∃ s, Goes m bytes a j s)

include hread in
theorem le_of_zeroInside {k : ℕ} (hsize : m.size.toNat ≤ 2 ^ 32)
    (hk : a + 4 * k + 4 ≤ m.size.toNat) (hz : wordAt bytes (a + 4 * k) = 0) : n ≤ k := by
  by_contra hlt
  obtain ⟨s, hs⟩ := hread k (not_le.mp hlt)
  refine hs.ne ?_
  rwa [listWord, listAddr_eq (by omega)]

include hread in
theorem listed_of_lt (hj : j < n) : Listed bytes a j := by
  intro i hi
  obtain ⟨s, hs⟩ := hread i (hi.trans_lt hj)
  exact hs.ne

include hsize hread ha in
/-- Pointers read around the end are aligned, and the memory is the whole address space. -/
theorem whole_of_read (hn : 2 ^ 32 ≤ a + 4 * n) : m.size.toNat = 2 ^ 32 ∧ a % 4 = 0 := by
  obtain ⟨s, hs⟩ := hread ((2 ^ 32 - 1 - a) / 4) (by omega)
  have hlast := hs.inside
  rw [listAddr_eq (by omega)] at hlast
  omega

include hsize hread ha in
theorem not_zeroInside_of_outside (hout : m.size.toNat < listAddr a n + 4) :
    ¬ ZeroInside m bytes a ∧ ¬ ListAround m bytes a := by
  have hlt : a + 4 * n < 2 ^ 32 := by
    by_contra hge
    obtain ⟨hwhole, h4⟩ := whole_of_read hsize ha hread (not_lt.mp hge)
    exact absurd (listAddr_aligned h4 n) (by omega)
  rw [listAddr_eq hlt] at hout
  have hzero : ¬ ZeroInside m bytes a := by
    rintro ⟨k, hk, hz⟩
    have hle := le_of_zeroInside hread hsize hk hz
    omega
  refine ⟨hzero, fun hA => ?_⟩
  rcases hA.around with ⟨h, -⟩ | ⟨-, hwhole, h4⟩
  · exact hzero h
  · omega

include hm hsize hread in
theorem readable_of_zero (hz : listWord bytes a n = 0) {j : ℕ} (hj : Listed bytes a j) :
    j < n ∧ Readable m bytes (listWord bytes a j) := by
  have hlt : j < n := by
    by_contra hge
    exact hj n (not_lt.mp hge) hz
  obtain ⟨s, hs⟩ := hread j hlt
  exact ⟨hlt, hs.readable hm hsize⟩

include hm hsize hread in
theorem listAround_iff (hin : a + 4 * n + 4 ≤ m.size.toNat) (hz : wordAt bytes (a + 4 * n) = 0) :
    ListAround m bytes a ↔ ∃ j < n, StringAround m bytes (listWord bytes a j) := by
  have hword : listWord bytes a n = 0 := by
    rwa [listWord, listAddr_eq (by omega)]
  constructor
  · intro hA
    rcases hA.around with ⟨-, j, hj, hAj⟩ | ⟨hnot, -⟩
    · exact ⟨j, (readable_of_zero hm hsize hread hword hj).1, hAj⟩
    · exact absurd ⟨n, hin, hz⟩ hnot
  · rintro ⟨j, hj, hAj⟩
    exact ⟨fun i hi => (readable_of_zero hm hsize hread hword hi).2,
      Or.inl ⟨⟨n, hin, hz⟩, j, listed_of_lt hread hj, hAj⟩⟩

include hm hsize hread ha in
theorem listAround_of_beyond (hn : 2 ^ 32 ≤ a + 4 * n) (hz : listWord bytes a n = 0) :
    ListAround m bytes a := by
  refine ⟨fun j hj => (readable_of_zero hm hsize hread hz hj).2,
    Or.inr ⟨?_, whole_of_read hsize ha hread hn⟩⟩
  rintro ⟨k, hk, hz⟩
  have hle := le_of_zeroInside hread hsize hk hz
  omega

end Read

include hm hsize in
theorem listAround_of_goes (ha : a < 2 ^ 32) (hgoes : ∀ j, ∃ s, Goes m bytes a j s) :
    ListAround m bytes a := by
  have hwhole := whole_of_read hsize ha (n := 2 ^ 30) (fun j _ => hgoes j) (by omega)
  refine ⟨fun j _ => ?_, Or.inr ⟨?_, hwhole⟩⟩
  · obtain ⟨s, hs⟩ := hgoes j
    exact hs.readable hm hsize
  · rintro ⟨k, hk, hz⟩
    have hle := le_of_zeroInside (n := k + 1) (fun j _ => hgoes j) hsize hk hz
    omega

include hm hsize in
theorem strings_right_iff (addr : BitVec 32) :
    StringsRight m bytes addr ↔ ¬ ListAround m bytes addr.toNat := by
  have ha := addr.isLt
  cases hrun : strings m bytes addr with
  | none =>
    have hA := listAround_of_goes hm hsize ha (goes_of_strings_eq_none hm hrun)
    refine iff_of_false ?_ (not_not_intro hA)
    rintro ⟨⟨r, hr, -⟩, -⟩
    cases hrun.symm.trans hr
  | some r =>
    obtain ⟨list, hgoes, hleave⟩ := leavesAt_of_strings hm hsize hrun
    have hread : ∀ j < list.length, ∃ s, Goes m bytes addr.toNat j s := fun j hj =>
      ⟨_, hgoes j _ (List.getElem?_eq_getElem hj)⟩
    cases hleave with
    | outside hout =>
      obtain ⟨hzero, hA⟩ := not_zeroInside_of_outside hsize ha hread hout
      exact iff_of_true (.of_error hrun fun l hl => hzero hl.zeroInside) hA
    | zero hin hz =>
      rw [StringsRight.iff_of_ok hrun]
      by_cases hlt : addr.toNat + 4 * list.length < 2 ^ 32
      · rw [listWord, listAddr_eq hlt] at hz
        rw [listAddr_eq hlt] at hin
        rw [stringsAt_iff hm hsize hgoes hin hz, listAround_iff hm hsize hread hin hz]
        push Not
        rfl
      · refine iff_of_false (fun h => ?_)
          (not_not_intro (listAround_of_beyond hm hsize ha hread (not_lt.mp hlt) hz))
        have h1 := h.inside
        omega
    | unreadable hz hs =>
      have hn : Listed bytes addr.toNat list.length := by
        intro i hi
        rcases Nat.lt_or_eq_of_le hi with hlt | rfl
        · exact listed_of_lt hread hlt i le_rfl
        · exact hz
      refine iff_of_true (.of_error hrun fun l hl => hs (Or.inl ?_)) fun hA => hs (hA.readable _ hn)
      have hin := hl.inside
      have hlt : list.length < l.length := by
        refine lt_of_le_of_ne (le_of_zeroInside hread hsize hin hl.zero) fun he => hz ?_
        rw [he, listWord, listAddr_eq (by omega)]
        exact hl.zero
      have hstr := (hl.pointers _ _ (List.getElem?_eq_getElem hlt)).2
      rw [listWord, listAddr_eq (by omega)]
      exact ⟨_, hstr⟩

end OneString

/-! ### The guest's strings -/

/-- **Strings of the guest** are those that end at the first zero byte, and lists at the first zero
word, exactly if nothing is read around the end of the address space. -/
theorem guest_strings {m : Vmem.Memory} (hm : Vmem.vmemSystem.Reachable m)
    (hsize : m.size.toNat ≤ 2 ^ 32) (bytes : ByteMem) (addr : BitVec 32) :
    cstring m bytes addr ≠ .error .panic ∧
    ((∀ s, cstring m bytes addr = .ok s ↔ CStringAt m bytes addr.toNat s) ↔
      ¬ StringAround m bytes addr.toNat) ∧
    ((∃ r, strings m bytes addr = some r ∧ r ≠ .error .panic) ∧
        (∀ list, strings m bytes addr = some (.ok list) ↔ StringsAt m bytes addr.toNat list) ↔
      ¬ ListAround m bytes addr.toNat) := by
  have hwf := Vmem.Memory.Wf.of_reachable hm
  exact ⟨(cstring_spec bytes hwf hsize addr).1, cstring_right_iff hwf hsize addr,
    strings_right_iff hwf hsize addr⟩

/-- A pointer to the string `a` at address 8, and a zero word. -/
def argvBytes : ByteMem := ByteMem.store (fun _ => 0) 0 [8, 0, 0, 0, 0, 0, 0, 0, 97]

theorem guest_strings_argv :
    cstring Vmem.onePage argvBytes 8 = .ok [97] ∧
    strings Vmem.onePage argvBytes 0 = some (.ok [[97]]) := by
  have h := guest_strings Vmem.onePage_reachable (by decide) argvBytes
  have hstr : CStringAt Vmem.onePage argvBytes 8 [97] :=
    ⟨by decide, by decide, by decide, by decide, by decide⟩
  have hlist : StringsAt Vmem.onePage argvBytes 0 [[97]] := by
    refine ⟨by decide, fun j s hj => ?_, by decide⟩
    cases j with
    | zero =>
      cases hj
      exact ⟨by decide, hstr⟩
    | succ j => cases hj
  have hsize : Vmem.onePage.size.toNat ≠ 2 ^ 32 := by decide
  refine ⟨((h 8).2.1.mpr (fun hA => hsize hA.size) [97]).mpr hstr,
    ((h 0).2.2.mpr (fun hA => ?_)).2 [[97]] |>.mpr hlist⟩
  rcases hA.around with ⟨-, j, -, hj⟩ | ⟨-, hwhole, -⟩
  · exact hsize hj.size
  · exact hsize hwhole

/-! ### The whole address space -/

/-- A memory of `2 ^ 32` bytes. -/
def fourGiB : Vmem.Memory := ⟨4294967296, 4294967296, 4294967296, fun _ => none⟩

theorem fourGiB_reachable : Vmem.vmemSystem.Reachable fourGiB :=
  ⟨_, _, ⟨4294967296, rfl⟩, System.exec_run _ [.reallocate 4294967296 true] rfl⟩

/-- Every byte but the one at address 1 is one. -/
def nulAtOne : ByteMem := fun a => if a = 1 then 0 else 1

/-- Every aligned word is one. -/
def wordsOne : ByteMem := fun a => if a % 4 = 0 then 1 else 0

theorem wordAt_wordsOne (h : a % 4 = 0) : wordAt wordsOne a = 1 := by
  have h1 : ¬ (a + 1) % 4 = 0 := by omega
  have h2 : ¬ (a + 2) % 4 = 0 := by omega
  have h3 : ¬ (a + 3) % 4 = 0 := by omega
  simp [wordAt, ByteMem.load, List.range_succ, wordsOne, ofLE, h, h1, h2, h3]

theorem stringsTurn_wordsOne (x : BitVec 32 × List Str) :
    stringsTurn fourGiB wordsOne 0 x = .inl (x.1 + 1, x.2 ++ [[]]) := by
  have hmod : (0 + 4 * x.1).toNat % 4 = 0 := by bv_omega
  have hin : (0 + 4 * x.1).toNat + 4 ≤ fourGiB.size.toNat := by
    show _ ≤ 2 ^ 32
    bv_omega
  have hr : readU32 fourGiB wordsOne (0 + 4 * x.1) = .ok 1 := by
    rcases @readU32_spec _ wordsOne (.of_reachable fourGiB_reachable) (0 + 4 * x.1) with
      ⟨-, h⟩ | ⟨h, -⟩
    · rw [h, wordAt_wordsOne hmod]
    · exact absurd h (Nat.not_lt.mpr hin)
  have hc : cstring fourGiB wordsOne (BitVec.ofNat 32 1) = .ok [] := rfl
  exact stringsTurn_eq_inl_iff.mpr ⟨1, [], hr, Nat.one_ne_zero, hc, rfl⟩

/-- In a memory of `2 ^ 32` bytes a string and a list that go around its end. -/
theorem strings_around :
    Vmem.vmemSystem.Reachable fourGiB ∧ fourGiB.size.toNat = 2 ^ 32 ∧
    cstring fourGiB nulAtOne 4294967295 = .ok [] ∧ ¬ CStringAt fourGiB nulAtOne 4294967295 [] ∧
    strings fourGiB wordsOne 0 = none ∧
    ∀ n, Loop.run (stringsTurn fourGiB wordsOne 0) n (0, []) = none := by
  have hrun : ∀ n, Loop.run (stringsTurn fourGiB wordsOne 0) n (0, []) = none :=
    Loop.run_eq_none (I := fun _ => True) (fun x _ => ⟨_, stringsTurn_wordsOne x, trivial⟩) trivial
  exact ⟨fourGiB_reachable, rfl, rfl, fun h => absurd h.nul (by decide), hrun _, hrun⟩

end PgZero.Kernel
