import Mathlib.Data.List.Basic
import Mathlib.Data.List.GetD
import Mathlib.Tactic

/-!
# Bytes in memory, and numbers as bytes

A memory of bytes by address, with the range that is read or written; and the numbers below
`256 ^ w` as `w` bytes, the least significant one first (`LE`) or last (`BE`).

* `load`, `store`, with **`load_store`** and `store_of_outside`.
* `toLE`, `ofLE`, with the round trips **`ofLE_toLE`** and **`toLE_ofLE`**.
-/

set_option autoImplicit false

namespace Lib

open List

/-! ### Ranges -/

/-- Bytes by address. -/
abbrev ByteMem := ℕ → UInt8

namespace ByteMem

variable {m m' : ByteMem} {addr n : ℕ} {l : List UInt8}

/-- The `n` bytes from `addr` on. -/
def load (m : ByteMem) (addr n : ℕ) : List UInt8 := (List.range n).map fun i => m (addr + i)

/-- The bytes of `l`, written from `addr` on. -/
def store (m : ByteMem) (addr : ℕ) (l : List UInt8) : ByteMem := fun a =>
  if addr ≤ a then l.getD (a - addr) (m a) else m a

@[simp] theorem length_load (m : ByteMem) (addr n : ℕ) : (m.load addr n).length = n := by
  simp [load]

theorem load_congr (h : ∀ a, addr ≤ a → a < addr + n → m a = m' a) :
    m.load addr n = m'.load addr n := by
  refine map_congr_left fun i hi => ?_
  exact h _ (Nat.le_add_right _ _) (Nat.add_lt_add_left (mem_range.mp hi) _)

theorem store_of_outside {a : ℕ} (h : a < addr ∨ addr + l.length ≤ a) : m.store addr l a = m a := by
  unfold store
  split_ifs with ha
  · rw [getD_eq_getElem?_getD, List.getElem?_eq_none (by omega), Option.getD_none]
  · rfl

theorem load_store (m : ByteMem) (addr : ℕ) (h : l.length = n) :
    (m.store addr l).load addr n = l := by
  refine ext_getElem (by simp [h]) fun i h1 h2 => ?_
  simp [load, store, h2]

theorem load_add (m : ByteMem) (addr n k : ℕ) :
    m.load addr (n + k) = m.load addr n ++ m.load (addr + n) k := by
  simp only [load, range_add, map_append, map_map]
  congr 1
  refine map_congr_left fun i _ => ?_
  rw [Function.comp_apply, Nat.add_assoc]

theorem load_one (m : ByteMem) (addr : ℕ) : m.load addr 1 = [m addr] := by
  simp [load]

theorem getElem?_load {i : ℕ} (h : i < n) : (m.load addr n)[i]? = some (m (addr + i)) := by
  simp [load, h]

theorem load_store_end (m : ByteMem) (n : ℕ) (l : List UInt8) :
    (m.store n l).load 0 (n + l.length) = m.load 0 n ++ l := by
  rw [load_add, Nat.zero_add, load_store m n rfl]
  congr 1
  exact load_congr fun a _ ha => store_of_outside (Or.inl (by omega))

theorem store_append (m : ByteMem) (addr : ℕ) (l l' : List UInt8) :
    m.store addr (l ++ l') = (m.store addr l).store (addr + l.length) l' := by
  funext a
  unfold store
  by_cases h1 : addr ≤ a
  · by_cases h2 : addr + l.length ≤ a
    · rw [if_pos h1, if_pos h2, getD_append_right _ _ _ _ (by omega), if_pos h1,
        getD_eq_default l _ (by omega), Nat.sub_sub]
    · rw [if_pos h1, if_neg h2, if_pos h1, getD_append _ _ _ _ (by omega)]
  · rw [if_neg h1, if_neg (by omega), if_neg h1]

@[simp] theorem store_nil (m : ByteMem) (addr : ℕ) : m.store addr [] = m := by
  funext a
  simp [store]

@[simp] theorem store_singleton_self (m : ByteMem) (addr : ℕ) (b : UInt8) :
    m.store addr [b] addr = b := by
  simp [store]

/-- A write to a buffer of `cap` bytes. -/
def put (cap : ℕ) (m : ByteMem) (addr : ℕ) (l : List UInt8) : Option ByteMem :=
  if addr + l.length ≤ cap then some (m.store addr l) else none

/-- The string that a buffer of `cap` bytes begins with. -/
def cstring (cap : ℕ) (m : ByteMem) : List UInt8 := (m.load 0 cap).takeWhile (· ≠ 0)

theorem cstring_of_load {cap : ℕ} (hl : m.load 0 n = l) (h0 : 0 ∉ l) (hn : m n = 0)
    (hcap : n < cap) : m.cstring cap = l := by
  obtain ⟨k, rfl⟩ := Nat.exists_eq_add_of_lt hcap
  rw [cstring, show n + k + 1 = n + (1 + k) by omega, load_add, load_add, hl, Nat.zero_add,
    load_one, hn, takeWhile_append_of_pos]
  · simp
  · intro a ha
    have hne : a ≠ 0 := fun h => h0 (h ▸ ha)
    simpa using hne

end ByteMem

/-! ### Numbers -/

/-- The `w` lowest bytes of a number. -/
def toLE : ℕ → ℕ → List UInt8
  | 0, _ => []
  | w + 1, n => UInt8.ofNat (n % 256) :: toLE w (n / 256)

/-- The number that the bytes spell. -/
def ofLE : List UInt8 → ℕ
  | [] => 0
  | b :: l => b.toNat + 256 * ofLE l

@[simp] theorem length_toLE (w n : ℕ) : (toLE w n).length = w := by
  induction w generalizing n with
  | zero => rfl
  | succ w ih => simp [toLE, ih]

theorem ofLE_toLE {w n : ℕ} (h : n < 256 ^ w) : ofLE (toLE w n) = n := by
  induction w generalizing n with
  | zero => simp [toLE, ofLE, Nat.lt_one_iff.mp h]
  | succ w ih =>
    have hb : (UInt8.ofNat (n % 256)).toNat = n % 256 := by simp
    rw [toLE, ofLE, ih (by rw [pow_succ] at h; omega), hb]
    omega

theorem toLE_ofLE {w : ℕ} {l : List UInt8} (h : l.length = w) : toLE w (ofLE l) = l := by
  subst h
  induction l with
  | nil => rfl
  | cons b l ih =>
    have hb := b.toNat_lt
    rw [ofLE, length_cons, toLE, show (b.toNat + 256 * ofLE l) / 256 = ofLE l by omega, ih,
      show (b.toNat + 256 * ofLE l) % 256 = b.toNat by omega, UInt8.ofNat_toNat]

theorem ofLE_lt (l : List UInt8) : ofLE l < 256 ^ l.length := by
  induction l with
  | nil => simp [ofLE]
  | cons b l ih =>
    have hb := b.toNat_lt
    rw [ofLE, length_cons, pow_succ]
    omega

/-- The number that the bytes spell with the most significant one first. -/
def ofBE (l : List UInt8) : ℕ := ofLE l.reverse

/-- Big-endian bytes. -/
def toBE (w n : ℕ) : List UInt8 := (toLE w n).reverse

@[simp] theorem length_toBE (w n : ℕ) : (toBE w n).length = w := by simp [toBE]

theorem ofBE_toBE {w n : ℕ} (h : n < 256 ^ w) : ofBE (toBE w n) = n := by
  rw [ofBE, toBE, reverse_reverse, ofLE_toLE h]

theorem toBE_ofBE {w : ℕ} {l : List UInt8} (h : l.length = w) : toBE w (ofBE l) = l := by
  rw [toBE, ofBE, toLE_ofLE (by rw [length_reverse, h]), reverse_reverse]

theorem ofBE_lt (l : List UInt8) : ofBE l < 256 ^ l.length := by
  have h := ofLE_lt l.reverse
  rwa [length_reverse] at h

end Lib
