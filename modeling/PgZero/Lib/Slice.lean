import Mathlib.Algebra.Group.Defs
import Mathlib.Data.List.Basic
import Mathlib.Tactic

/-!
# Slices

A slice shows the first `len` elements of a backing array and hides the rest of its capacity.
Shrinking and extending a slice within its capacity leaves the array alone, so hidden elements can
come back; `clear` and `copy` write to the array.

* **`Slice.toList_clear_reslice`**: extending and clearing appends zeros, whatever was hidden.
-/

set_option autoImplicit false

namespace Lib

open List

/-- A slice that starts at the start of its array. -/
structure Slice (α : Type) where
  buf : List α
  len : ℕ
  le : len ≤ buf.length

namespace Slice

variable {α : Type}

/-- The capacity. -/
def cap (s : Slice α) : ℕ := s.buf.length

/-- The elements shown. -/
def toList (s : Slice α) : List α := s.buf.take s.len

/-- The nil slice. -/
def nil : Slice α := ⟨[], 0, Nat.le_refl 0⟩

/-- A slice of `l`, with the elements `spare` hidden behind it. -/
def ofList (l spare : List α) : Slice α := ⟨l ++ spare, l.length, by simp⟩

/-- `s[:n]` -/
def reslice (s : Slice α) (n : ℕ) (h : n ≤ s.cap) : Slice α := ⟨s.buf, n, h⟩

/-- `s[i:i+n]`, up to the capacity -/
def cut (s : Slice α) (i n : ℕ) (h : i + n ≤ s.cap) : Slice α :=
  ⟨s.buf.drop i, n, by rw [length_drop]; exact Nat.le_sub_of_add_le' h⟩

/-- `make([]T, len, cap)` -/
def make [Zero α] (len cap : ℕ) (h : len ≤ cap) : Slice α :=
  ⟨List.replicate cap 0, len, by simpa using h⟩

/-- `clear(s[k:])` -/
def clearFrom [Zero α] (s : Slice α) (k : ℕ) : Slice α :=
  ⟨s.buf.take (min k s.len) ++ List.replicate (s.len - k) 0 ++ s.buf.drop s.len, s.len, by
    have h := s.le
    simp only [length_append, length_take, length_replicate, length_drop]
    omega⟩

/-- `copy(s[off:], b)` for `off ≤ len(s)` -/
def copyAt (s : Slice α) (off : ℕ) (b : List α) : Slice α :=
  ⟨s.buf.take off ++ b.take (s.len - off) ++ s.buf.drop (off + min b.length (s.len - off)), s.len, by
    have h := s.le
    simp only [length_append, length_take, length_drop]
    omega⟩

theorem length_toList (s : Slice α) : s.toList.length = s.len := by
  have h := s.le
  simp only [toList, length_take]
  omega

theorem toList_ofList (l spare : List α) : (ofList l spare).toList = l := take_left

theorem toList_reslice {s : Slice α} {n : ℕ} (h : n ≤ s.len) (hc : n ≤ s.cap) :
    (s.reslice n hc).toList = s.toList.take n := by
  simp only [toList, reslice, take_take]
  congr 1
  omega

theorem toList_make [Zero α] {len cap : ℕ} (h : len ≤ cap) :
    (make len cap h : Slice α).toList = List.replicate len 0 := by
  simp only [toList, make, take_replicate]
  congr 1
  omega

theorem toList_clearFrom [Zero α] (s : Slice α) {k : ℕ} (hk : k ≤ s.len) :
    (s.clearFrom k).toList = s.buf.take k ++ List.replicate (s.len - k) 0 := by
  have hs := s.le
  have hlen : (s.buf.take (min k s.len) ++ List.replicate (s.len - k) 0).length = s.len := by
    simp only [length_append, length_take, length_replicate]
    omega
  unfold toList clearFrom
  rw [take_left' hlen, min_eq_left hk]

theorem toList_clear_reslice [Zero α] (s : Slice α) {n : ℕ} (h : s.len ≤ n) (hc : n ≤ s.cap) :
    ((s.reslice n hc).clearFrom s.len).toList = s.toList ++ List.replicate (n - s.len) 0 := by
  rw [toList_clearFrom (s.reslice n hc) h]
  rfl

theorem toList_copyAt (s : Slice α) {off : ℕ} {b : List α} (h : off + b.length ≤ s.len) :
    (s.copyAt off b).toList = s.toList.take off ++ b ++ s.toList.drop (off + b.length) := by
  have hs := s.le
  have hb : b.take (s.len - off) = b := take_of_length_le (by omega)
  have hm : min b.length (s.len - off) = b.length := by omega
  have hpre : (s.buf.take off ++ b).length = off + b.length := by
    simp only [length_append, length_take]
    omega
  show (s.buf.take off ++ b.take (s.len - off) ++
    s.buf.drop (off + min b.length (s.len - off))).take s.len = _
  rw [hb, hm, take_append, hpre, take_of_length_le (by rw [hpre]; exact h), toList,
    take_take, drop_take, min_eq_left (by omega : off ≤ s.len)]

end Slice

end Lib
