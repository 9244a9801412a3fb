import PgZero.Memfs.Content

variable {l : List UInt8} {f : File} {i : ℕ}

/-!
# The reference file

What a file is for: a list of bytes that writes overwrite, that `Truncate` shrinks or extends with
zeros, and that handles read from their offsets. Offsets are integers here; a seek out of the range
of `int64` fails.

* **`file_refines`**.
-/

set_option autoImplicit false

namespace PgZero.Memfs

open Lib List File Option OneFile

namespace Ref

/-- Zeros up to length `n`. -/
def padTo (l : List UInt8) (n : ℕ) : List UInt8 := l ++ List.replicate (n - l.length) 0

/-- The bytes from `off` on become `b`; a gap before `off` is zero. -/
def overwrite (l : List UInt8) (off : ℕ) (b : List UInt8) : List UInt8 :=
  if b = [] then l else (padTo l off).take off ++ b ++ l.drop (off + b.length)

/-- Cut, or filled up with zeros. -/
def resize (l : List UInt8) (n : ℕ) : List UInt8 := (padTo l n).take n

/-- `ReadAt` of the list. -/
def readAt (l : List UInt8) (f : File) (len : ℕ) (off : ℤ) : List UInt8 × Option IoErr :=
  if off < 0 then ([], some (ioErr "read" f.name .EINVAL))
  else
    let bs := (l.drop off.toNat).take len
    (bs, if bs.length < len ∨ l.length ≤ off.toNat then some .eof else none)

/-- `Read` of the list. -/
def read (l : List UInt8) (f : File) (len : ℕ) : File × List UInt8 × Option IoErr :=
  let r := readAt l f len f.offset
  ({ f with offset := f.offset + r.1.length }, r.1, if r.1 = [] then r.2 else none)

/-- `WriteAt` of the list. -/
def writeAt (l : List UInt8) (f : File) (b : List UInt8) (off : ℤ) :
    List UInt8 × ℕ × Option IoErr :=
  if !f.writable then (l, 0, some (ioErr "write" f.name .EBADF))
  else if off < 0 then (l, 0, some (ioErr "write" f.name .EINVAL))
  else (overwrite l off.toNat b, b.length, none)

/-- Where `Write` writes. -/
def writePos (l : List UInt8) (f : File) : ℤ := if f.flag.append then l.length else f.offset

/-- `Write` of the list. -/
def write (l : List UInt8) (f : File) (b : List UInt8) : List UInt8 × File × ℕ × Option IoErr :=
  let r := writeAt l f b (writePos l f)
  (r.1, { f with offset := writePos l f + r.2.1 }, r.2)

/-- `Seek` in the list. -/
def seek (l : List UInt8) (f : File) (offset whence : ℤ) : File × Except PathError ℤ :=
  let target : Option ℤ :=
    if whence = 0 then some offset
    else if whence = 1 then some (offset + f.offset)
    else if whence = 2 then some (offset + l.length)
    else none
  match target with
  | none => (f, .error ⟨"seek", f.name, .sys .EINVAL⟩)
  | some p =>
    if 0 ≤ p ∧ p < 2 ^ 63 then ({ f with offset := p }, .ok p)
    else (f, .error ⟨"seek", f.name, .sys .EINVAL⟩)

/-- `Truncate` of the list. -/
def truncate (l : List UInt8) (f : File) (size : ℤ) : List UInt8 × Option PathError :=
  if size < 0 then (l, some ⟨"truncate", f.name, .sys .EINVAL⟩) else (resize l size.toNat, none)

/-- Opening for writing with `O_TRUNC` empties the file. -/
def opened (l : List UInt8) (f : File) : List UInt8 := if f.flag.trunc && f.writable then [] else l

end Ref

/-- The content of a file, with its handles. -/
structure RefFile where
  fs : FS
  id : NodeId
  content : List UInt8
  files : List File
  deriving DecidableEq, Repr

/-- One call on the list. -/
def RefFile.call (r : RefFile) : FileCall → Option (RefFile × FileAns)
  | .openAt name flag _ =>
    let f : File := ⟨r.fs, r.id, GoPath.base name, flag, 0, 0⟩
    some ({ r with content := Ref.opened r.content f, files := r.files ++ [f] }, .opened)
  | .readAt i len off =>
    r.files[i]?.map fun f => (r, .data (Ref.readAt r.content f len off).1
      (Ref.readAt r.content f len off).2)
  | .read i len =>
    r.files[i]?.map fun f =>
      let x := Ref.read r.content f len
      ({ r with files := r.files.set i x.1 }, .data x.2.1 x.2.2)
  | .writeAt i b off _ =>
    r.files[i]?.map fun f =>
      let x := Ref.writeAt r.content f b off
      ({ r with content := x.1 }, .wrote x.2.1 x.2.2)
  | .write i b _ =>
    r.files[i]?.map fun f =>
      let x := Ref.write r.content f b
      ({ r with content := x.1, files := r.files.set i x.2.1 }, .wrote x.2.2.1 x.2.2.2)
  | .seek i offset whence =>
    r.files[i]?.map fun f =>
      let x := Ref.seek r.content f offset whence
      ({ r with files := r.files.set i x.1 }, .ofSeek x.2)
  | .truncate i size _ =>
    r.files[i]?.map fun f =>
      let x := Ref.truncate r.content f size
      ({ r with content := x.1 }, .ofErr x.2)

/-- A file that is a list of bytes. -/
def refSystem : System RefFile FileCall FileAns where
  init r := r.files = []
  step r c := r.call c

/-- The file as the reference sees it. -/
def OneFile.ref (s : OneFile) : RefFile := ⟨s.fs, s.id, s.node.data.toList, s.files⟩

/-! ### Slices -/

theorem len_grow {data : Slice UInt8} {size : ℕ} : (grow data size).len = size := by
  unfold grow
  split_ifs <;> rfl

theorem toList_grow {data : Slice UInt8} {size : ℕ} (h : data.len ≤ size) :
    (grow data size).toList = Ref.padTo data.toList size := by
  have hlen := data.length_toList
  unfold grow Ref.padTo
  rw [hlen]
  split_ifs with hc
  · -- the array is large enough: what comes back is cleared
    exact data.toList_clear_reslice h hc
  · -- a new array is zero, and the content is copied to its front
    rw [Slice.toList_copyAt _ (by rw [hlen, Nat.zero_add]; exact h), Slice.toList_make, hlen]
    simp

theorem Ref.take_padTo {m n : ℕ} (h : m ≤ n) :
    (padTo l n).take m = (padTo l m).take m := by
  unfold padTo
  rw [take_append, take_append, take_replicate, take_replicate]
  congr 2
  omega

theorem Ref.padTo_of_le {n : ℕ} (h : n ≤ l.length) : padTo l n = l := by
  simp [padTo, Nat.sub_eq_zero_of_le h]

/-! ### Calls -/

section Calls

variable {n : Node} {f : File}

theorem File.readAt_ref (hn : n.mode.isDir = false) (len : ℕ) (off : ℤ) :
    f.readAt n len off = Ref.readAt n.data.toList f len off := by
  have hlen := n.data.length_toList
  unfold readAt Ref.readAt
  rw [hn, if_neg (by simp)]
  split_ifs with h1 h2
  · rfl
  · -- at or behind the end nothing is left
    have hdrop : n.data.toList.drop off.toNat = [] := drop_eq_nil_of_le (by omega)
    dsimp only
    rw [hdrop, if_pos (Or.inr (by omega)), take_nil]
  · dsimp only
    congr 1
    by_cases h3 : ((n.data.toList.drop off.toNat).take len).length < len
    · rw [if_pos h3, if_pos (Or.inl h3)]
    · rw [if_neg h3, if_neg]
      rintro (h4 | h4)
      · exact h3 h4
      · omega

theorem Ref.readAt_length_le (l : List UInt8) (len : ℕ) {off : ℤ} (h : 0 ≤ off) :
    off + (Ref.readAt l f len off).1.length ≤ max off l.length := by
  unfold Ref.readAt
  rw [if_neg (by omega)]
  simp only [length_take, length_drop]
  omega

theorem Ref.readAt_err (l : List UInt8) (len : ℕ) {off : ℤ} (h : 0 ≤ off) :
    (Ref.readAt l f len off).2 = some .eof ∨ (Ref.readAt l f len off).2 = none := by
  unfold Ref.readAt
  rw [if_neg (by omega)]
  dsimp only
  split_ifs
  · exact Or.inl rfl
  · exact Or.inr rfl

theorem File.read_ref (hn : n.mode.isDir = false) (hd : n.data.len < 2 ^ 63) (h0 : 0 ≤ f.offset)
    (h1 : f.offset < 2 ^ 63) (len : ℕ) : f.read n len = Ref.read n.data.toList f len := by
  have hle := Ref.readAt_length_le (f := f) n.data.toList len h0
  have herr := Ref.readAt_err (f := f) n.data.toList len h0
  rw [n.data.length_toList] at hle
  unfold read Ref.read
  rw [readAt_ref hn]
  generalize Ref.readAt n.data.toList f len f.offset = r at hle herr ⊢
  dsimp only
  rw [wrap64_eq (by omega) (by omega)]
  by_cases hb : r.1 = []
  · simp [hb]
  · have hpos : 0 < r.1.length := length_pos_iff.mpr hb
    rcases herr with he | he <;> simp [he, hb, hpos]

theorem File.writeAt_ref (f : File) (hn : n.mode.isDir = false) {b : List UInt8} (hb : b ≠ [])
    {off : ℤ} (now : ℤ) (hlt : off + b.length < 2 ^ 63) :
    ∃ n', f.writeAt n b off now = some (n', (Ref.writeAt n.data.toList f b off).2) ∧
      n'.mode = n.mode ∧ n'.data.toList = (Ref.writeAt n.data.toList f b off).1 := by
  have hlen := n.data.length_toList
  unfold writeAt Ref.writeAt
  rw [hn, if_neg (by simp)]
  split_ifs with h1 h2
  · exact ⟨n, rfl, rfl, rfl⟩
  · exact ⟨n, rfl, rfl, rfl⟩
  · dsimp only
    rw [wrap64_eq (by omega) hlt, Ref.overwrite, if_neg hb]
    obtain ⟨k, rfl⟩ : ∃ k : ℕ, off = k := ⟨off.toNat, by omega⟩
    have hstop : ((k : ℤ) + b.length).toNat = k + b.length := by omega
    rw [hstop, Int.toNat_natCast]
    by_cases hgrow : (n.data.len : ℤ) < k + b.length
    · -- the content grows to the end of the write, and the bytes go to its end
      have hg : n.data.len ≤ k + b.length := by omega
      rw [if_pos hgrow, if_neg (by rw [len_grow]; omega)]
      refine ⟨_, rfl, rfl, ?_⟩
      show ((grow n.data (k + b.length)).copyAt k b).toList = _
      rw [Slice.toList_copyAt _ (by rw [len_grow]), toList_grow hg,
        Ref.take_padTo (Nat.le_add_right k b.length)]
      congr 1
      rw [drop_eq_nil_of_le, drop_eq_nil_of_le]
      · rw [hlen]; exact hg
      · simp only [Ref.padTo, length_append, length_replicate]
        omega
    · -- the write stays inside the content
      rw [if_neg hgrow, if_neg (by omega)]
      refine ⟨_, rfl, rfl, ?_⟩
      show (n.data.copyAt k b).toList = _
      rw [Slice.toList_copyAt _ (by omega), Ref.padTo_of_le (by omega)]

theorem File.writePos_ref : f.writePos n = Ref.writePos n.data.toList f := by
  unfold writePos Ref.writePos
  rw [n.data.length_toList]

theorem File.seek_ref (hd : n.data.len < 2 ^ 63) (h0 : 0 ≤ f.offset) (h1 : f.offset < 2 ^ 63)
    {offset : ℤ} (whence : ℤ) (hr : IsInt64 offset) :
    f.seek n offset whence = Ref.seek n.data.toList f offset whence := by
  obtain ⟨hr1, hr2⟩ := hr
  -- a sum that leaves `int64` wraps to a negative number
  have hwrap : ∀ x : ℤ, 0 ≤ x → x < 2 ^ 63 →
      (if wrap 64 (offset + x) < 0 then (f, Except.error ⟨"seek", f.name, .sys .EINVAL⟩)
        else ({ f with offset := wrap 64 (offset + x) }, .ok (wrap 64 (offset + x)))) =
      (if 0 ≤ offset + x ∧ offset + x < 2 ^ 63 then ({ f with offset := offset + x }, .ok (offset + x))
        else (f, Except.error (⟨"seek", f.name, .sys .EINVAL⟩ : PathError))) := by
    intro x hx0 hx1
    by_cases hs : offset + x < 2 ^ 63
    · rw [wrap64_eq (by omega) hs]
      by_cases hn : offset + x < 0
      · rw [if_pos hn, if_neg (by omega)]
      · rw [if_neg hn, if_pos ⟨by omega, hs⟩]
    · have hneg : wrap 64 (offset + x) < 0 := by
        rw [wrap64_over (by omega) (by omega)]
        omega
      rw [if_pos hneg, if_neg (fun h => hs h.2)]
  unfold seek Ref.seek
  rw [n.data.length_toList]
  by_cases hw0 : whence = 0
  · simp only [hw0, if_true]
    by_cases hn : offset < 0
    · rw [if_pos hn, if_neg (by omega)]
    · rw [if_neg hn, if_pos ⟨by omega, hr2⟩]
  · by_cases hw1 : whence = 1
    · simp only [hw1, one_ne_zero, if_true, if_false]
      exact hwrap f.offset h0 h1
    · by_cases hw2 : whence = 2
      · simp only [hw2, if_true]
        exact hwrap n.data.len (by omega) (by omega)
      · simp only [hw0, hw1, hw2, if_false]

theorem File.truncate_ref (hn : n.mode.isDir = false) (size now : ℤ) :
    ∃ n', f.truncate n size now = (n', (Ref.truncate n.data.toList f size).2) ∧
      n'.mode = n.mode ∧ n'.data.toList = (Ref.truncate n.data.toList f size).1 := by
  have hlen := n.data.length_toList
  unfold truncate Ref.truncate
  rw [hn, if_neg (by simp)]
  split_ifs with h1 h2
  · exact ⟨n, rfl, rfl, rfl⟩
  · refine ⟨_, rfl, rfl, ?_⟩
    show (n.data.reslice size.toNat _).toList = _
    rw [Slice.toList_reslice h2, Ref.resize, Ref.padTo_of_le (by omega)]
  · refine ⟨_, rfl, rfl, ?_⟩
    show (grow n.data size.toNat).toList = _
    rw [toList_grow (by omega), Ref.resize, take_of_length_le]
    simp only [Ref.padTo, length_append, length_replicate]
    omega

theorem File.openNode_ref (hn : n.mode.isDir = false) (name : Str) (now : ℤ) :
    ∃ n', f.openNode n name now = (n', .ok f) ∧ n'.mode = n.mode ∧
      n'.data.toList = Ref.opened n.data.toList f := by
  unfold openNode Ref.opened
  rw [hn, if_neg (by simp)]
  split_ifs
  · exact ⟨_, rfl, rfl, rfl⟩
  · exact ⟨n, rfl, rfl, rfl⟩

end Calls

/-! ### Runs -/

/-- Write buffers are not empty, and writes end below `2 ^ 63`. -/
def WriteOk (s : OneFile) : FileCall → Prop
  | .writeAt _ b off _ => b ≠ [] ∧ off + b.length < 2 ^ 63
  | .write i b _ => b ≠ [] ∧ ∀ f ∈ s.files[i]?, f.writePos s.node + b.length < 2 ^ 63
  | _ => True

instance (s : OneFile) : (c : FileCall) → Decidable (WriteOk s c)
  | .writeAt _ b off _ => inferInstanceAs (Decidable (b ≠ [] ∧ off + b.length < 2 ^ 63))
  | .write i b _ => inferInstanceAs
      (Decidable (b ≠ [] ∧ ∀ f ∈ s.files[i]?, f.writePos s.node + b.length < 2 ^ 63))
  | .openAt .. | .readAt .. | .read .. | .seek .. | .truncate .. =>
    inferInstanceAs (Decidable True)

/-- A regular file whose length and offsets are `int64`s. -/
structure FileInv (s : OneFile) : Prop where
  regular : s.node.mode.isDir = false
  len : s.node.data.len < 2 ^ 63
  offset : ∀ f ∈ s.files, 0 ≤ f.offset ∧ f.offset < 2 ^ 63

theorem Ref.length_overwrite (l : List UInt8) (off : ℕ) (b : List UInt8) :
    (overwrite l off b).length ≤ max l.length (off + b.length) := by
  unfold overwrite padTo
  split_ifs
  · omega
  · simp only [length_append, length_take, length_replicate, length_drop]
    omega

theorem Ref.length_resize (l : List UInt8) (n : ℕ) : (resize l n).length ≤ n := by
  simp [resize]

theorem Ref.length_writeAt {b : List UInt8} {off : ℤ}
    (hl : l.length < 2 ^ 63) (hlt : off + b.length < 2 ^ 63) :
    (Ref.writeAt l f b off).1.length < 2 ^ 63 := by
  unfold Ref.writeAt
  split_ifs
  · exact hl
  · exact hl
  · have h := Ref.length_overwrite l off.toNat b
    dsimp only
    omega

/-- What a write returns is the number of bytes, or nothing was written. -/
theorem Ref.writeAt_count (l : List UInt8) (f : File) (b : List UInt8) (off : ℤ) :
    (Ref.writeAt l f b off).2.1 = b.length ∨ (Ref.writeAt l f b off).2.1 = 0 := by
  unfold Ref.writeAt
  split_ifs
  · exact Or.inr rfl
  · exact Or.inr rfl
  · exact Or.inl rfl

theorem Ref.seek_offset (l : List UInt8) (offset whence : ℤ)
    (h : 0 ≤ f.offset ∧ f.offset < 2 ^ 63) :
    0 ≤ (Ref.seek l f offset whence).1.offset ∧ (Ref.seek l f offset whence).1.offset < 2 ^ 63 := by
  unfold Ref.seek
  dsimp only
  split
  · exact h
  · split_ifs with hp
    · exact hp
    · exact h

theorem forall_mem_set {P : File → Prop} {l : List File} (h : ∀ g ∈ l, P g)
    (hf : P f) : ∀ g ∈ l.set i f, P g := by
  intro g hg
  rcases mem_or_eq_of_mem_set hg with hg | rfl
  · exact h g hg
  · exact hf

/-- **A call on the file is the same call on the reference.** -/
theorem call_ref {s s' : OneFile} {c : FileCall} {o : FileAns} (h : FileInv s) (hr : c.inRange)
    (hw : WriteOk s c) (hs : s.call c = some (s', o)) :
    FileInv s' ∧ s.ref.call c = some (s'.ref, o) := by
  have hlen := s.node.data.length_toList
  cases c with
  | openAt name flag now =>
    have hz : ∀ g ∈ s.files ++ [⟨s.fs, s.id, GoPath.base name, flag, 0, 0⟩],
        0 ≤ g.offset ∧ g.offset < 2 ^ 63 := by
      intro g hg
      rcases mem_append.mp hg with hg | hg
      · exact h.offset g hg
      · rw [mem_singleton.mp hg]
        norm_num
    obtain ⟨n', hn, hm, hd⟩ := openNode_ref (f := ⟨s.fs, s.id, GoPath.base name, flag, 0, 0⟩)
      h.regular name now
    simp only [call, hn] at hs
    obtain ⟨rfl, rfl⟩ := Prod.mk.inj (Option.some.inj hs)
    refine ⟨⟨hm ▸ h.regular, ?_, hz⟩, ?_⟩
    · show n'.data.len < 2 ^ 63
      have hl := h.len
      rw [← n'.data.length_toList, hd, Ref.opened]
      split_ifs
      · exact Nat.two_pow_pos 63
      · rwa [hlen]
    · simp only [RefFile.call, ref, hd]
  | readAt i len off =>
    obtain ⟨f, hf, hs⟩ := map_eq_some_iff.mp hs
    obtain ⟨rfl, rfl⟩ := Prod.mk.inj hs
    refine ⟨h, ?_⟩
    simp only [RefFile.call, ref, hf, map_some]
    rw [readAt_ref h.regular]
  | read i len =>
    obtain ⟨f, hf, hs⟩ := map_eq_some_iff.mp hs
    obtain ⟨rfl, rfl⟩ := Prod.mk.inj hs
    obtain ⟨h0, h1⟩ := h.offset f (mem_of_getElem? hf)
    have href := read_ref h.regular h.len h0 h1 len
    refine ⟨⟨h.regular, h.len, forall_mem_set h.offset ?_⟩, ?_⟩
    · have hle := Ref.readAt_length_le (f := f) s.node.data.toList len h0
      have hlt := h.len
      rw [href]
      simp only [Ref.read]
      omega
    · simp only [RefFile.call, ref, hf, map_some]
      rw [href]
  | writeAt i b off now =>
    obtain ⟨f, hf, hs⟩ := map_eq_some_iff.mp hs
    obtain ⟨n', hn, hm, hd⟩ := writeAt_ref f h.regular hw.1 now hw.2
    rw [hn] at hs
    obtain ⟨rfl, rfl⟩ := Prod.mk.inj hs
    refine ⟨⟨hm ▸ h.regular, ?_, h.offset⟩, ?_⟩
    · show n'.data.len < 2 ^ 63
      rw [← n'.data.length_toList, hd]
      exact Ref.length_writeAt (hlen ▸ h.len) hw.2
    · simp only [RefFile.call, ref, hf, map_some, hd]
  | write i b now =>
    obtain ⟨f, hf, hs⟩ := map_eq_some_iff.mp hs
    have hlt : f.writePos s.node + b.length < 2 ^ 63 := hw.2 f hf
    obtain ⟨h0, h1⟩ := h.offset f (mem_of_getElem? hf)
    have hpos : 0 ≤ f.writePos s.node := by
      unfold writePos
      split_ifs <;> omega
    obtain ⟨n', hn, hm, hd⟩ := writeAt_ref f h.regular hw.1 now hlt
    have hcount := Ref.writeAt_count s.node.data.toList f b (f.writePos s.node)
    rw [write, hn] at hs
    obtain ⟨rfl, rfl⟩ := Prod.mk.inj hs
    have hwrap : wrap 64 (f.writePos s.node + (Ref.writeAt s.node.data.toList f b
        (f.writePos s.node)).2.1) = f.writePos s.node + (Ref.writeAt s.node.data.toList f b
        (f.writePos s.node)).2.1 := wrap64_eq (by omega) (by omega)
    refine ⟨⟨hm ▸ h.regular, ?_, forall_mem_set h.offset ?_⟩, ?_⟩
    · show n'.data.len < 2 ^ 63
      rw [← n'.data.length_toList, hd]
      exact Ref.length_writeAt (hlen ▸ h.len) hlt
    · dsimp only
      rw [hwrap]
      omega
    · simp only [RefFile.call, ref, hf, map_some, Ref.write, ← writePos_ref, hd,
        hwrap]
  | seek i offset whence =>
    obtain ⟨f, hf, hs⟩ := map_eq_some_iff.mp hs
    obtain ⟨rfl, rfl⟩ := Prod.mk.inj hs
    obtain ⟨h0, h1⟩ := h.offset f (mem_of_getElem? hf)
    have href := seek_ref h.len h0 h1 whence hr
    refine ⟨⟨h.regular, h.len, forall_mem_set h.offset ?_⟩, ?_⟩
    · rw [href]
      exact Ref.seek_offset s.node.data.toList offset whence ⟨h0, h1⟩
    · simp only [RefFile.call, ref, hf, map_some]
      rw [href]
  | truncate i size now =>
    obtain ⟨f, hf, hs⟩ := map_eq_some_iff.mp hs
    obtain ⟨n', hn, hm, hd⟩ := truncate_ref (f := f) h.regular size now
    rw [hn] at hs
    obtain ⟨rfl, rfl⟩ := Prod.mk.inj hs
    refine ⟨⟨hm ▸ h.regular, ?_, h.offset⟩, ?_⟩
    · show n'.data.len < 2 ^ 63
      have hl := h.len
      have hsz := hr.2
      rw [← n'.data.length_toList, hd]
      unfold Ref.truncate
      split_ifs
      · exact hlen ▸ h.len
      · have hle := Ref.length_resize s.node.data.toList size.toNat
        dsimp only
        omega
    · simp only [RefFile.call, ref, hf, map_some, hd]

theorem step_ref {s s' : OneFile} {c : FileCall} {o : FileAns} (h : FileInv s)
    (hs : (fileSystem.restrict WriteOk).step s c = some (s', o)) :
    FileInv s' ∧ refSystem.step s.ref c = some (s'.ref, o) := by
  obtain ⟨hw, hs⟩ := System.restrict_step.mp hs
  obtain ⟨hr, hs⟩ := ite_none_right_eq_some.mp hs
  exact call_ref h hr hw hs

theorem run_ref {s0 s : OneFile} {tr : List (FileCall × FileAns)} (h0 : FileInv s0)
    (h : (fileSystem.restrict WriteOk).Run s0 tr s) :
    FileInv s ∧ refSystem.Run s0.ref tr s.ref := by
  induction h with
  | nil => exact ⟨h0, .nil⟩
  | snoc _ hs ih =>
    obtain ⟨hinv, hrun⟩ := ih
    obtain ⟨hinv', hstep⟩ := step_ref hinv hs
    exact ⟨hinv', hrun.snoc hstep⟩

/-! ### Reading a file from a handle on -/

/-- The bytes that a run's calls returned. -/
def bytesRead (tr : List (FileCall × FileAns)) : List UInt8 :=
  (tr.map fun x => match x.2 with | .data bs _ => bs | _ => []).flatten

/-- The bytes that a run's reads asked for. -/
def bytesAsked (tr : List (FileCall × FileAns)) : ℕ :=
  (tr.map fun x => match x.1 with | .read _ len => len | _ => 0).sum

theorem bytesRead_snoc (tr : List (FileCall × FileAns)) (c : FileCall) (bs : List UInt8)
    (e : Option IoErr) : bytesRead (tr ++ [(c, .data bs e)]) = bytesRead tr ++ bs := by
  simp [bytesRead]

theorem bytesAsked_snoc (tr : List (FileCall × FileAns)) (i len : ℕ) (o : FileAns) :
    bytesAsked (tr ++ [(.read i len, o)]) = bytesAsked tr + len := by
  simp [bytesAsked]

/-- A run of reads on handle `i`. -/
def ReadsOnly (i : ℕ) (tr : List (FileCall × FileAns)) : Prop := ∀ x ∈ tr, ∃ len, x.1 = .read i len

theorem RefFile.read_eq {r : RefFile} (len : ℕ) (hf : r.files[i]? = some f)
    (h0 : 0 ≤ f.offset) :
    let bs := (r.content.drop f.offset.toNat).take len
    r.call (.read i len) = some
      ({ r with files := r.files.set i { f with offset := f.offset + bs.length } },
        .data bs (if bs = [] ∧ (0 < len ∨ r.content.length ≤ f.offset.toNat) then some .eof
          else none)) := by
  have hneg : ¬ f.offset < 0 := by omega
  simp only [RefFile.call, hf, map_some, Ref.read, Ref.readAt, if_neg hneg]
  congr 3
  generalize (r.content.drop f.offset.toNat).take len = bs
  by_cases hb : bs = []
  · simp [hb]
  · simp [hb]

/-- **Reads in sequence** return the rest of the content and then end of file. -/
theorem reads_ref {r r' : RefFile} {tr : List (FileCall × FileAns)}
    (h : refSystem.Run r tr r') (hi : ReadsOnly i tr) (hf : r.files[i]? = some f)
    (h0 : 0 ≤ f.offset) :
    r'.content = r.content ∧
    bytesRead tr = (r.content.drop f.offset.toNat).take (bytesAsked tr) ∧
    ∃ f', r'.files[i]? = some f' ∧ f'.offset = f.offset + (bytesRead tr).length := by
  induction h with
  | nil => exact ⟨rfl, by simp [bytesRead, bytesAsked], f, hf, by simp [bytesRead]⟩
  | @snoc tr r1 r2 c o _ hs ih =>
    obtain ⟨h1, h2, f1, hf1, ho⟩ := ih fun x hx => hi x (mem_append_left _ hx)
    obtain ⟨len, rfl⟩ : ∃ len, c = .read i len := hi (c, o) (by simp)
    have hread := RefFile.read_eq len hf1 (by omega : 0 ≤ f1.offset)
    obtain ⟨rfl, rfl⟩ := Prod.mk.inj (Option.some.inj (hs.symm.trans hread))
    have hlt : i < r1.files.length := (List.getElem?_eq_some_iff.mp hf1).1
    set rest := r.content.drop f.offset.toNat with hrest
    -- what the earlier reads have left
    have hleft : r1.content.drop f1.offset.toNat = rest.drop (bytesAsked tr) := by
      have hoff : f1.offset.toNat = f.offset.toNat + (bytesRead tr).length := by omega
      rw [h1, hoff, ← drop_drop, ← hrest, h2, length_take]
      rcases Nat.le_total (bytesAsked tr) rest.length with hle | hle
      · rw [min_eq_left hle]
      · rw [min_eq_right hle, drop_length, drop_eq_nil_of_le hle]
    rw [bytesRead_snoc, bytesAsked_snoc, hleft]
    refine ⟨h1, ?_, _, List.getElem?_set_self hlt, ?_⟩
    · rw [h2, take_add]
    · show f1.offset + _ = _
      rw [ho, length_append]
      omega

theorem reads_eof {r : RefFile} {len : ℕ} (hf : r.files[i]? = some f)
    (h0 : 0 ≤ f.offset) (hlen : 0 < len) {r' : RefFile} {o : FileAns}
    (hs : refSystem.step r (.read i len) = some (r', o)) :
    o = .data [] (some .eof) ↔ r.content.drop f.offset.toNat = [] := by
  have hread := RefFile.read_eq len hf h0
  obtain ⟨-, rfl⟩ := Prod.mk.inj (Option.some.inj (hs.symm.trans hread))
  simp only [FileAns.data.injEq]
  constructor
  · rintro ⟨h1, -⟩
    exact (take_eq_nil_iff.mp h1).resolve_left (by omega)
  · intro h1
    rw [h1, take_nil, if_pos ⟨rfl, Or.inl hlen⟩]
    exact ⟨rfl, rfl⟩

/-- **File content.** With non-empty writes that end below `2 ^ 63`, all answers are those of the
reference file, and reads return the content from the offset on. -/
theorem file_refines {s0 s : OneFile} {tr : List (FileCall × FileAns)} (hi : fileSystem.init s0)
    (h : (fileSystem.restrict WriteOk).Run s0 tr s) :
    refSystem.Run s0.ref tr s.ref ∧ s.node.data.len = s.ref.content.length ∧
    ∀ i f, s.files[i]? = some f → ∀ tr' s', (fileSystem.restrict WriteOk).Run s tr' s' →
      ReadsOnly i tr' →
      bytesRead tr' = (s.ref.content.drop f.offset.toNat).take (bytesAsked tr') ∧
      ∀ len s'' o, 0 < len → (fileSystem.restrict WriteOk).step s' (.read i len) = some (s'', o) →
        (o = .data [] (some .eof) ↔ bytesRead tr' = s.ref.content.drop f.offset.toNat) := by
  obtain ⟨hreg, hlen, hfiles⟩ := hi
  obtain ⟨hinv, hrun⟩ := run_ref ⟨hreg, hlen, by simp [hfiles]⟩ h
  refine ⟨hrun, s.node.data.length_toList.symm, fun i f hf tr' s' hr' hro => ?_⟩
  obtain ⟨h0, -⟩ := hinv.offset f (mem_of_getElem? hf)
  obtain ⟨hinv', hrun'⟩ := run_ref hinv hr'
  obtain ⟨h1, h2, f', hf', ho⟩ := reads_ref hrun' hro hf h0
  refine ⟨h2, fun len s'' o hl hs => ?_⟩
  obtain ⟨-, hs⟩ := step_ref hinv' hs
  rw [reads_eof hf' (by omega) hl hs, h1]
  -- nothing is left when everything has been returned
  have hoff : f'.offset.toNat = f.offset.toNat + (bytesRead tr').length := by omega
  rw [hoff, ← drop_drop, drop_eq_nil_iff]
  constructor
  · intro hle
    rw [h2, take_of_length_le]
    rw [h2, length_take] at hle
    omega
  · intro he
    rw [he]

/-- The bytes `2` and `3` are cut off, and zeros come back. -/
theorem file_refines_truncated : ∃ s0 tr s, fileSystem.init s0 ∧
    s0.node.data.buf = [1, 2, 3, 9] ∧ (fileSystem.restrict WriteOk).Run s0 tr s ∧
    tr = [(.openAt [97] ⟨2, false, false, false, false⟩ 0, .opened), (.truncate 0 1 0, .done),
      (.truncate 0 4 0, .done), (.read 0 4, .data [1, 0, 0, 0] none)] ∧
    refSystem.Run s0.ref tr s.ref := by
  have hi : fileSystem.init ⟨⟨0⟩, 1, ⟨0o600, .ofList [1, 2, 3] [9], 0, ∅, none⟩, []⟩ :=
    ⟨rfl, by decide, rfl⟩
  have hr := @System.exec_run _ _ _ (fileSystem.restrict WriteOk)
    ⟨⟨0⟩, 1, ⟨0o600, .ofList [1, 2, 3] [9], 0, ∅, none⟩, []⟩
    [.openAt [97] ⟨2, false, false, false, false⟩ 0, .truncate 0 1 0, .truncate 0 4 0, .read 0 4]
    _ _ rfl
  exact ⟨_, _, _, hi, rfl, hr, rfl, (file_refines hi hr).1⟩

end PgZero.Memfs
