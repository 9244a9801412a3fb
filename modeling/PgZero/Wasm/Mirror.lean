import PgZero.Wasm.Object

/-!
# Reading an object with changed flags

Bits are set in the first bytes of the flags of some symbols. If no such byte is read as something
that `Symbols` goes by, it reads the changed object as before, apart from these flags and from names
that have such a byte.

* **`symbols_mirror`**: the symbols of the changed object.
-/

set_option autoImplicit false

namespace PgZero.Wasm

open Lib List

variable {r' r : Reader} {t' t : Tables} {c : UInt8} {k : ℕ}

/-! ### Marked bytes -/

/-- The bits `w` set in the bytes at the offsets `P`. -/
def mark (w : UInt8) (P : Finset ℕ) (l : Str) : Str :=
  l.mapIdx fun k b => if k ∈ P then b ||| w else b

section Mark

variable {w : UInt8} {P : Finset ℕ} {l : Str}

@[simp] theorem length_mark : (mark w P l).length = l.length := length_mapIdx

theorem getElem?_mark (k : ℕ) :
    (mark w P l)[k]? = l[k]?.map fun b => if k ∈ P then b ||| w else b :=
  List.getElem?_mapIdx

theorem mark_empty (w : UInt8) (l : Str) : mark w ∅ l = l := by
  refine ext_getElem? fun k => ?_
  simp [getElem?_mark]

theorem take_drop_mark {i n : ℕ} (h : ∀ k ∈ P, k < i ∨ i + n ≤ k) :
    ((mark w P l).drop i).take n = (l.drop i).take n := by
  refine ext_getElem? fun j => ?_
  rw [List.getElem?_take, List.getElem?_take, List.getElem?_drop, List.getElem?_drop,
    getElem?_mark]
  by_cases hj : j < n
  · have hnot : i + j ∉ P := fun hmem => by
      rcases h _ hmem with h' | h' <;> omega
    simp [hnot]
  · rw [if_neg hj, if_neg hj]

theorem unmarked_of_eq {i n : ℕ}
    (h : ((mark w P l).drop i).take n = (l.drop i).take n) (hk : k ∈ P) (hi : i ≤ k)
    (hn : k < i + n) (hc : l[k]? = some c) : c ||| w = c := by
  have hget := congrArg (fun m => m[k - i]?) h
  simp only [List.getElem?_take, List.getElem?_drop, getElem?_mark] at hget
  rw [if_pos (by omega), if_pos (by omega), Nat.add_sub_cancel' hi, hc] at hget
  simpa [hk] using hget

end Mark

/-! ### The reader -/

/-- The reader `r` over a part of the file `F`, and the same reader over the marked file. -/
structure Like (w : UInt8) (P : Finset ℕ) (F : Str) (r t : Reader) : Prop where
  i : t.i = r.i
  base : t.base = r.base
  len : t.b.len = r.b.len
  buf : r.b.buf = F.drop r.base
  marked : t.b.buf = (mark w P F).drop r.base
  start : 8 ≤ r.offset

section Reading

variable {w : UInt8} {P : Finset ℕ} {F : Str} {r r' t : Reader} {α β : Type}

theorem Like.offset (h : Like w P F r t) : t.offset = r.offset := by
  rw [Reader.offset, Reader.offset, h.i, h.base]

theorem Like.more (h : Like w P F r t) : t.more = r.more := by
  rw [Reader.more, Reader.more, h.i, h.len]

theorem Like.cap (h : Like w P F r t) : t.b.cap = r.b.cap := by
  rw [Slice.cap, Slice.cap, h.buf, h.marked, length_drop, length_drop, length_mark]

theorem Like.skip (h : Like w P F r t) (n : ℕ) :
    Like w P F { r with i := r.i + n } { t with i := t.i + n } :=
  ⟨congrArg (· + n) h.i, h.base, h.len, h.buf, h.marked, h.start.trans (by
    show r.base + r.i ≤ r.base + (r.i + n)
    omega)⟩

theorem Like.file (h : Like w P F r t) (hc : r.b.toList[r.i]? = some c) :
    F[r.offset]? = some c := by
  rw [Slice.toList, List.getElem?_take] at hc
  split_ifs at hc
  rwa [h.buf, List.getElem?_drop] at hc

theorem Like.byte (h : Like w P F r t) {c : UInt8} (hb : byte.run r = .ok (c, r')) :
    ∃ t', byte.run t = .ok (if r.offset ∈ P then c ||| w else c, t') ∧ Like w P F r' t' := by
  obtain ⟨hc, rfl⟩ := run_byte.mp hb
  refine ⟨_, run_byte.mpr ⟨?_, rfl⟩, h.skip 1⟩
  have hfile := h.file hc
  rw [Slice.toList, List.getElem?_take] at hc ⊢
  split_ifs at hc with hi
  rw [h.i, h.len, if_pos hi, h.marked, List.getElem?_drop, getElem?_mark]
  rw [show r.base + r.i = r.offset from rfl, hfile]
  rfl

variable (w P F)

/-- An action that reads the same from the marked file, if it meets no mark. -/
def Agrees (p : Read α) : Prop :=
  ∀ r t x r', Like w P F r t → p.run r = .ok (x, r') →
    (∀ k ∈ P, k < r.offset ∨ r'.offset ≤ k) → ∃ t', p.run t = .ok (x, t') ∧ Like w P F r' t'

/-- Actions that come to the same place in the marked file. -/
def Skips (p : Read α) (q : Read β) : Prop :=
  ∀ r t x r', Like w P F r t → p.run r = .ok (x, r') → ∃ y t', q.run t = .ok (y, t') ∧
    Like w P F r' t'

variable {w P F}

theorem Agrees.pure (x : α) : Agrees w P F (pure x : Read α) := by
  intro r t y r' hl h _
  cases h
  exact ⟨t, rfl, hl⟩

theorem Agrees.bind {p : Read α} {f : α → Read β} (hp : Agrees w P F p) (hfwd : Forward p)
    (hf : ∀ x, Agrees w P F (f x)) (hfwd' : ∀ x, Forward (f x)) : Agrees w P F (p >>= f) := by
  intro r t y r' hl h hP
  rw [StateT.run_bind, bind_eq_ok] at h
  obtain ⟨⟨x, r1⟩, h1, h2⟩ := h
  have hle1 := hfwd.offset_le h1
  have hle2 := (hfwd' x).offset_le h2
  obtain ⟨t1, ht1, hl1⟩ := hp r t x r1 hl h1 fun k hk => (hP k hk).imp_right hle2.trans
  obtain ⟨t', ht', hl'⟩ := hf x r1 t1 y r' hl1 h2 fun k hk => (hP k hk).imp_left hle1.trans_lt'
  refine ⟨t', ?_, hl'⟩
  rw [StateT.run_bind, ht1]
  exact ht'

theorem agrees_byte : Agrees w P F byte := by
  intro r t c r' hl h hP
  obtain ⟨t', ht', hl'⟩ := hl.byte h
  obtain ⟨-, rfl⟩ := run_byte.mp h
  have hnot : r.offset ∉ P := fun hmem => by
    rcases hP _ hmem with h' | h'
    · exact lt_irrefl _ h'
    · exact absurd h' (Nat.not_succ_le_self _)
  rw [if_neg hnot] at ht'
  exact ⟨t', ht', hl'⟩

theorem skips_byte : Skips w P F byte byte := by
  intro r t c r' hl h
  obtain ⟨t', ht', hl'⟩ := hl.byte h
  exact ⟨_, t', ht', hl'⟩

theorem agrees_ulebFrom (k : ℕ) (v : BitVec 64) (shift : ℕ) :
    Agrees w P F (ulebFrom k v shift) := by
  induction k generalizing v shift with
  | zero => exact fun r t x r' _ h => by cases h
  | succ k ih =>
    refine agrees_byte.bind forward_byte (fun c => ?_) fun c => ?_
    · dsimp only
      split_ifs
      · exact .pure _
      · exact ih _ _
    · dsimp only
      split_ifs
      · exact forward_pure _
      · exact forward_ulebFrom _ _ _

theorem Like.run_uleb (h : Like w P F r t) :
    uleb.run t = (ulebFrom (r.b.len - r.i) 0 0).run t := by
  rw [Wasm.run_uleb, h.len, h.i]

theorem agrees_uleb : Agrees w P F uleb := by
  intro r t v r' hl h hP
  rw [run_uleb] at h
  rw [hl.run_uleb]
  exact agrees_ulebFrom _ 0 0 r t v r' hl h hP

theorem Like.cutAt (h : Like w P F r t) {n : ℤ} {s : Slice UInt8}
    (hs : (cutAt n).run r = .ok (s, r')) :
    ∃ s' t', (Wasm.cutAt n).run t = .ok (s', t') ∧ Like w P F r' t' ∧ s.len = n.toNat ∧
      r'.offset = r.offset + n.toNat ∧
      Like w P F ⟨s, 0, r.base + r.i⟩ ⟨s', 0, t.base + t.i⟩ := by
  obtain ⟨hc, hn, rfl, rfl⟩ := run_cutAt hs
  have hc' : t.i + n.toNat ≤ t.b.cap := by rw [h.i, h.cap]; exact hc
  refine ⟨t.b.cut t.i n.toNat hc', _, dif_pos ⟨hn, hc'⟩, h.skip _, rfl, ?_, ?_⟩
  · exact (Nat.add_assoc _ _ _).symm
  · refine ⟨rfl, h.offset, rfl, ?_, ?_, h.start⟩
    · show r.b.buf.drop r.i = _
      rw [h.buf, drop_drop]
    · show t.b.buf.drop t.i = _
      rw [h.marked, h.i, drop_drop]

theorem Like.bytes (h : Like w P F r t) {n : ℤ} {x : Str} (hx : (bytes n).run r = .ok (x, r')) :
    ∃ y t', (Wasm.bytes n).run t = .ok (y, t') ∧ Like w P F r' t' ∧
      x = (F.drop r.offset).take n.toNat ∧ y = ((mark w P F).drop r.offset).take n.toNat ∧
      r'.offset = r.offset + n.toNat := by
  rw [Wasm.bytes, StateT.run_bind, bind_eq_ok] at hx
  obtain ⟨⟨s, r1⟩, hs, hx⟩ := hx
  cases hx
  obtain ⟨s', t', ht', hl', hlen, hoff, hsub⟩ := h.cutAt hs
  have hlen' : s'.len = n.toNat := hsub.len.trans hlen
  have hbuf : s.buf = F.drop r.offset := hsub.buf
  have hbuf' : s'.buf = (mark w P F).drop r.offset := hsub.marked
  refine ⟨s'.toList, t', ?_, hl', ?_, ?_, hoff⟩
  · rw [Wasm.bytes, StateT.run_bind, ht']
    rfl
  · rw [Slice.toList, hbuf, hlen]
  · rw [Slice.toList, hbuf', hlen']

theorem agrees_bytes (n : ℤ) : Agrees w P F (bytes n) := by
  intro r t x r' hl h hP
  obtain ⟨y, t', ht', hl', hx, hy, hoff⟩ := hl.bytes h
  rw [hoff] at hP
  rw [take_drop_mark hP, ← hx] at hy
  exact ⟨t', hy ▸ ht', hl'⟩

theorem forward_bytes (n : ℤ) : Forward (bytes n) := by
  intro r x r' h
  rw [Wasm.bytes, StateT.run_bind, bind_eq_ok] at h
  obtain ⟨⟨s, r1⟩, hs, hx⟩ := h
  cases hx
  obtain ⟨-, -, -, rfl⟩ := run_cutAt hs
  exact ⟨rfl, rfl, Nat.le_add_right _ _⟩

theorem agrees_vector : Agrees w P F vector :=
  agrees_uleb.bind forward_uleb (fun v => agrees_bytes v.toInt) fun v => forward_bytes v.toInt

theorem agrees_limits : Agrees w P F limits := by
  have hfwd : ∀ c : Prop, [Decidable c] →
      Forward (if c then (do let _ ← uleb; pure ()) else pure () : Read Unit) := by
    intro c _
    split_ifs
    · exact forward_uleb.bind fun _ => forward_pure _
    · exact forward_pure _
  refine agrees_byte.bind forward_byte (fun flags => agrees_uleb.bind forward_uleb (fun _ => ?_)
    fun _ => hfwd _) fun flags => forward_uleb.bind fun _ => hfwd _
  split_ifs
  · exact agrees_uleb.bind forward_uleb (fun _ => .pure _) fun _ => forward_pure _
  · exact .pure _

end Reading

/-! ### Flags -/

/-- Flags of the first byte that are not looked at when an object is read. -/
structure Unread (w : UInt8) : Prop where
  low : w &&& 0x7f = w
  high : w &&& 0x80 = 0
  undefined : wide w &&& wide FlagUndefined = 0#64
  explicitName : wide w &&& wide FlagExplicitName = 0#64

theorem unread_local : Unread FlagBindingLocal := ⟨rfl, rfl, rfl, rfl⟩

theorem wide_or (a b : UInt8) : wide (a ||| b) = wide a ||| wide b := by
  rw [wide, UInt8.toBitVec_or, BitVec.setWidth_or]
  rfl

theorem or_and (a b m : UInt8) : (a ||| b) &&& m = (a &&& m) ||| (b &&& m) := by
  rw [← UInt8.toBitVec_inj, UInt8.toBitVec_and, UInt8.toBitVec_or, UInt8.toBitVec_or,
    UInt8.toBitVec_and, UInt8.toBitVec_and, BitVec.and_or_distrib_right]

/-- The loop of `uleb`, after a byte. -/
def ulebRest (k : ℕ) (v : BitVec 64) (shift : ℕ) (c : UInt8) : Read (BitVec 64) :=
  if c &&& 0x80 = 0 then pure (v ||| wide (c &&& 0x7f) <<< shift)
  else ulebFrom k (v ||| wide (c &&& 0x7f) <<< shift) (shift + 7)

theorem run_ulebFrom {shift : ℕ} {v u : BitVec 64} :
    (ulebFrom (k + 1) v shift).run r = .ok (u, r') ↔ ∃ c r1, byte.run r = .ok (c, r1) ∧
      (ulebRest k v shift c).run r1 = .ok (u, r') := by
  rw [ulebFrom, StateT.run_bind, bind_eq_ok]
  exact ⟨fun ⟨y, hc, h⟩ => ⟨y.1, y.2, hc, h⟩, fun ⟨c, r1, hc, h⟩ => ⟨(c, r1), hc, h⟩⟩

section Flags

variable {w : UInt8} {P : Finset ℕ} {F : Str} (hw : Unread w)

theorem ulebFrom_or {shift : ℕ} {v u x : BitVec 64}
    (h : (ulebFrom k v shift).run r = .ok (u, r')) :
    (ulebFrom k (v ||| x) shift).run r = .ok (u ||| x, r') := by
  induction k generalizing v shift r with
  | zero => cases h
  | succ k ih =>
    obtain ⟨c, r1, hc, h⟩ := run_ulebFrom.mp h
    refine run_ulebFrom.mpr ⟨c, r1, hc, ?_⟩
    have hcomm : v ||| x ||| wide (c &&& 0x7f) <<< shift =
        v ||| wide (c &&& 0x7f) <<< shift ||| x := by
      rw [BitVec.or_assoc, BitVec.or_comm x, BitVec.or_assoc]
    unfold ulebRest at h ⊢
    rw [hcomm]
    split_ifs at h ⊢ with hlast
    · cases h
      rfl
    · exact ih h

include hw in
theorem Unread.or_high (c : UInt8) : (c ||| w) &&& 0x80 = c &&& 0x80 := by
  rw [or_and, hw.high, UInt8.or_zero]

include hw in
theorem Unread.ulebRest_or {u : BitVec 64}
    (h : (ulebRest k 0 0 c).run r = .ok (u, r')) :
    (ulebRest k 0 0 (c ||| w)).run r = .ok (u ||| wide w, r') := by
  unfold ulebRest at h ⊢
  rw [hw.or_high, or_and, hw.low, wide_or, BitVec.shiftLeft_zero, ← BitVec.or_assoc]
  rw [BitVec.shiftLeft_zero] at h
  split_ifs at h ⊢ with hlast
  · cases h
    rfl
  · exact ulebFrom_or h

include hw in
/-- A number that is not kept: its bytes go on as before, whatever was read so far. -/
theorem skips_ulebFrom (k : ℕ) (v v' : BitVec 64) (shift : ℕ) :
    Skips w P F (ulebFrom k v shift) (ulebFrom k v' shift) := by
  induction k generalizing v v' shift with
  | zero => exact fun r t x r' _ h => by cases h
  | succ k ih =>
    intro r t x r' hl h
    obtain ⟨c, r1, hc, h⟩ := run_ulebFrom.mp h
    obtain ⟨t1, ht1, hl1⟩ := hl.byte hc
    have hhigh : (if r.offset ∈ P then c ||| w else c) &&& 0x80 = c &&& 0x80 := by
      split_ifs
      · exact hw.or_high c
      · rfl
    generalize (if r.offset ∈ P then c ||| w else c) = c' at ht1 hhigh
    have hrest : ∃ y t', (ulebRest k v' shift c').run t1 = .ok (y, t') ∧ Like w P F r' t' := by
      unfold ulebRest at h ⊢
      rw [hhigh]
      split_ifs at h ⊢ with hlast
      · cases h
        exact ⟨_, t1, rfl, hl1⟩
      · exact ih _ _ _ r1 t1 x r' hl1 h
    obtain ⟨y, t', hy, hl'⟩ := hrest
    exact ⟨y, t', run_ulebFrom.mpr ⟨c', t1, ht1, hy⟩, hl'⟩

include hw in
theorem skips_uleb : Skips w P F uleb uleb := by
  intro r t v r' hl h
  rw [run_uleb] at h
  rw [hl.run_uleb]
  exact skips_ulebFrom hw _ 0 0 0 r t v r' hl h

include hw in
/-- **The flags of a symbol**, with or without a mark at their first byte. -/
theorem Like.flags {t : Reader} {flags : BitVec 64} (hl : Like w P F r t)
    (h : (guarded (P.erase r.offset) uleb).run r = .ok (flags, r')) :
    (∃ t', uleb.run t = .ok (if r.offset ∈ P then flags ||| wide w else flags, t') ∧
      Like w P F r' t') ∧
    ∃ c, F[r.offset]? = some c ∧ (c ||| w = c → flags ||| wide w = flags) := by
  obtain ⟨h, hP⟩ := run_guarded.mp h
  rw [Wasm.run_uleb] at h
  rw [hl.run_uleb]
  cases hk : r.b.len - r.i with
  | zero =>
    rw [hk] at h
    cases h
  | succ k =>
    rw [hk] at h
    obtain ⟨c, r1, hc, h⟩ := run_ulebFrom.mp h
    obtain ⟨t1, ht1, hl1⟩ := hl.byte hc
    obtain ⟨hget, rfl⟩ := run_byte.mp hc
    have hplain : ∀ j ∈ P, j < r.offset + 1 ∨ r'.offset ≤ j := by
      intro j hj
      by_cases he : j = r.offset
      · exact Or.inl (by omega)
      · exact (hP j (Finset.mem_erase.mpr ⟨he, hj⟩)).imp_left fun h => by omega
    have hagree : Agrees w P F (ulebRest k 0 0 c) := by
      unfold ulebRest
      split_ifs
      · exact .pure _
      · exact agrees_ulebFrom _ _ _
    obtain ⟨t', ht', hl'⟩ := hagree _ t1 flags r' hl1 h hplain
    constructor
    · refine ⟨t', run_ulebFrom.mpr ⟨_, t1, ht1, ?_⟩, hl'⟩
      split_ifs
      · exact hw.ulebRest_or ht'
      · exact ht'
    · refine ⟨c, hl.file hget, fun hcw => ?_⟩
      have hor := hw.ulebRest_or h
      rw [hcw, h] at hor
      exact (congrArg Prod.fst (Except.ok.inj hor)).symm

include hw in
theorem Unread.definedFlags_or (flags : BitVec 64) :
    definedFlags (flags ||| wide w) = definedFlags flags := by
  rw [definedFlags, BitVec.and_or_distrib_right, hw.undefined, BitVec.or_zero]
  rfl

include hw in
theorem Unread.symbolBody_or (W : Watch) (t : Tables) (kind : UInt8) (flags : BitVec 64) :
    symbolBody W t kind (flags ||| wide w) = symbolBody W t kind flags := by
  unfold symbolBody
  rw [hw.definedFlags_or, BitVec.and_or_distrib_right, hw.explicitName, BitVec.or_zero]

end Flags

/-! ### The three readers -/

section Readers

variable {w : UInt8} {P : Finset ℕ} {F : Str} {α β γ : Type}

/-- An action that reads the same, without a name in it. -/
abbrev Plain (w : UInt8) (P : Finset ℕ) (F : Str) (p p' q : Read α) : Prop :=
  Mirrors (Like w P F) p p' q fun x y b => y = x ∧ b = true

theorem Plain.bind {p p' q : Read α} {f f' : α → Read β} {g : α → Read γ}
    {S : β → γ → Bool → Prop} (h : Plain w P F p p' q)
    (hf : ∀ x, Mirrors (Like w P F) (f x) (f' x) (g x) S) :
    Mirrors (Like w P F) (p >>= f) (p' >>= f') (q >>= g) S := by
  refine Mirrors.bind h fun x y b => ?_
  rintro ⟨rfl, rfl⟩
  exact (hf y).imp fun z u b' hS => by rwa [Bool.true_and]

theorem Agrees.plain {p : Read α} (h : Agrees w P F p) :
    Plain w P F (guarded P p) (guarded ∅ p) (guarded ∅ p) := by
  rw [guarded_empty]
  intro r t x r' hl hr
  obtain ⟨hr, hP⟩ := run_guarded.mp hr
  obtain ⟨t', ht', hl'⟩ := h r t x r' hl hr hP
  exact ⟨x, t', true, ht', hl', ⟨rfl, rfl⟩, hr⟩

theorem Skips.bind {p : Read α} (h : Skips w P F p p) {f f' : α → Read β} {g : α → Read γ}
    {S : β → γ → Bool → Prop} (hf : ∀ x y, Mirrors (Like w P F) (f x) (f' x) (g y) S) :
    Mirrors (Like w P F) (p >>= f) (p >>= f') (p >>= g) S := by
  have hp : Mirrors (Like w P F) p p p fun _ _ b => b = true := by
    intro r t x r' hl hr
    obtain ⟨y, t', ht', hl'⟩ := h r t x r' hl hr
    exact ⟨y, t', true, ht', hl', rfl, hr⟩
  refine Mirrors.bind hp fun x y b => ?_
  rintro rfl
  exact (hf x y).imp fun z u b' hS => by rwa [Bool.true_and]

/-- **A name**, which the second reader watches. -/
theorem mirrors_bytes (hbit : ∀ k ∈ P, ∃ c, F[k]? = some c ∧ c ||| w ≠ c) (n : ℤ) :
    Mirrors (Like w P F) (guarded ∅ (bytes n)) (guarded P (bytes n)) (guarded ∅ (bytes n))
      fun x y b => y = x ↔ b = true := by
  rw [guarded_empty]
  intro r t x r' hl hr
  obtain ⟨y, t', ht', hl', hx, hy, hoff⟩ := hl.bytes hr
  refine ⟨y, t', decide (∀ k ∈ P, k < r.offset ∨ r'.offset ≤ k), ht', hl', ?_, ?_⟩
  · show y = x ↔ decide _ = true
    rw [decide_eq_true_iff]
    constructor
    · intro he k hk
      by_contra hin
      simp only [not_or, not_lt, not_le, hoff] at hin
      rw [hx, hy] at he
      obtain ⟨c, hc, hne⟩ := hbit k hk
      exact hne (unmarked_of_eq he hk hin.1 hin.2 hc)
    · intro hP
      rw [hoff] at hP
      rw [hy, hx, take_drop_mark hP]
  · unfold Checks
    split_ifs with hd
    · exact run_guarded.mpr ⟨hr, of_decide_eq_true hd⟩
    · rintro ⟨z, r1⟩ hz
      obtain ⟨hz, hP⟩ := run_guarded.mp hz
      rw [hr] at hz
      cases hz
      exact hd (decide_eq_true hP)

/-- What is read from a part of the file is read from the same part of the marked file. -/
theorem mirrors_sub {p p' q : Read α} {R : α → α → Bool → Prop} (n : ℤ)
    (h : Mirrors (Like w P F) p p' q R) :
    Mirrors (Like w P F) (sub n p) (sub n p') (sub n q) R := by
  have hsub : ∀ (p : Read α) (r : Reader), (sub n p).run r = (cutAt n).run r >>= fun y =>
      p.run ⟨y.1, 0, r.base + r.i⟩ >>= fun x => .ok (x.1, y.2) := fun p r => rfl
  intro r t x r' hl hp
  rw [hsub] at hp
  obtain ⟨⟨s, r1⟩, hs, hp⟩ := bind_eq_ok.mp hp
  obtain ⟨⟨x1, s1⟩, hp1, hx⟩ := bind_eq_ok.mp hp
  cases hx
  obtain ⟨s', t', ht', hl', -, -, hpart⟩ := hl.cutAt hs
  obtain ⟨y, u, b, hq, -, hR, hc⟩ := h _ _ x1 s1 hpart hp1
  refine ⟨y, t', b, ?_, hl', hR, ?_⟩
  · rw [hsub, ht']
    show (q.run ⟨s', 0, t.base + t.i⟩ >>= fun x => Except.ok (x.1, t')) = _
    rw [hq]
    rfl
  · rw [hsub, hs]
    show Checks (p'.run ⟨s, 0, r.base + r.i⟩ >>= fun x => Except.ok (x.1, r1)) _ b
    cases b with
    | true =>
      rw [show p'.run ⟨s, 0, r.base + r.i⟩ = .ok (x1, s1) from hc]
      rfl
    | false =>
      intro z hz
      obtain ⟨y', hy, -⟩ := bind_eq_ok.mp hz
      exact hc y' hy

end Readers

/-! ### Symbols -/

section Symbols

variable (w : UInt8) (P : Finset ℕ) (F : Str)

/-- A symbol of the file, and the one that is read in its place from the marked file. -/
structure SymRel (s s' : Symbol) : Prop where
  same : s' = { s with
    flags := if s.flagsOffset ∈ P then s.flags ||| wide w else s.flags
    name := s'.name }
  start : 8 ≤ s.flagsOffset
  flags : ∃ c, F[s.flagsOffset]? = some c ∧ (c ||| w = c → s.flags ||| wide w = s.flags)

/-- The tables of the two readers. -/
structure TablesRel (t t' : Tables) : Prop where
  types : t'.types = t.types
  importedFuncs : t'.importedFuncs = t.importedFuncs
  funcTypes : t'.funcTypes = t.funcTypes
  found : t'.found = t.found
  syms : List.Forall₂ (SymRel w P F) t.syms t'.syms

/-- The names are the same. -/
def SameNames (t t' : Tables) : Prop := t'.syms.map Symbol.name = t.syms.map Symbol.name

/-- What the reader goes by is watched, in the first reader; names are watched in the second. -/
abbrev Reads (body : Watch → Tables → Read Tables) : Prop :=
  Follows (TablesRel w P F) SameNames (Like w P F) (body ⟨P, ∅⟩) (body ⟨∅, P⟩) (body .none)

variable {w P F}

theorem plain_byte : Plain w P F (guarded P byte) (guarded ∅ byte) (guarded ∅ byte) :=
  agrees_byte.plain

theorem plain_uleb : Plain w P F (guarded P uleb) (guarded ∅ uleb) (guarded ∅ uleb) :=
  agrees_uleb.plain

theorem plain_vector : Plain w P F (guarded P vector) (guarded ∅ vector) (guarded ∅ vector) :=
  agrees_vector.plain

theorem plain_limits : Plain w P F (guarded P limits) (guarded ∅ limits) (guarded ∅ limits) :=
  agrees_limits.plain

theorem Mirrors.tables {u u' : Tables} (hu : TablesRel w P F u u') (hs : u.syms = t.syms)
    (hs' : u'.syms = t'.syms) :
    Mirrors (Like w P F) (pure u : Read Tables) (pure u) (pure u') fun x' y' b =>
      TablesRel w P F x' y' ∧ (SameNames x' y' ↔ SameNames t t' ∧ b = true) :=
  Lib.Mirrors.pure ⟨hu, by rw [SameNames, SameNames, hs, hs']; simp⟩

theorem reads_typeEntry : Reads w P F typeEntry := by
  intro t t' h
  refine plain_byte.bind fun form => .ite .throw ?_
  refine plain_vector.bind fun params => plain_vector.bind fun results => ?_
  exact Mirrors.tables ⟨by rw [h.types], h.importedFuncs, h.funcTypes, h.found, h.syms⟩ rfl rfl

theorem reads_functionEntry : Reads w P F functionEntry := by
  intro t t' h
  refine plain_uleb.bind fun v => ?_
  exact Mirrors.tables ⟨h.types, h.importedFuncs, by rw [h.funcTypes], h.found, h.syms⟩ rfl rfl

theorem skips_bytes (n : ℤ) : Skips w P F (guarded ∅ (bytes n)) (guarded ∅ (bytes n)) := by
  rw [guarded_empty]
  intro r t x r' hl h
  obtain ⟨y, t', ht', hl', -⟩ := hl.bytes h
  exact ⟨y, t', ht', hl'⟩

theorem skipName_bind {α : Type} {f f' g : Str → Read α} {S : α → α → Bool → Prop}
    (hf : ∀ x y, Mirrors (Like w P F) (f x) (f' x) (g y) S) :
    Mirrors (Like w P F) (nameOver ⟨P, ∅⟩ ∅ >>= f) (nameOver ⟨∅, P⟩ ∅ >>= f')
      (nameOver .none ∅ >>= g) S := by
  unfold nameOver
  rw [bind_assoc, bind_assoc, bind_assoc]
  exact plain_uleb.bind fun n => (skips_bytes _).bind hf

variable (hw : Unread w)

include hw in
theorem reads_importEntry : Reads w P F importEntry := by
  intro t t' h
  have hend : Mirrors (Like w P F) (pure t : Read Tables) (pure t) (pure t') fun x' y' b =>
      TablesRel w P F x' y' ∧ (SameNames x' y' ↔ SameNames t t' ∧ b = true) :=
    Mirrors.tables h rfl rfl
  have huleb : Skips w P F uleb uleb := skips_uleb hw
  refine skipName_bind fun _ _ => skipName_bind fun _ _ => plain_byte.bind fun kind => ?_
  refine .ite ?_ (.ite ?_ (.ite ?_ (.ite ?_ (.ite ?_ hend))))
  · refine huleb.bind fun _ _ => Mirrors.tables ?_ rfl rfl
    exact ⟨h.types, by rw [h.importedFuncs], h.funcTypes, h.found, h.syms⟩
  · exact skips_byte.bind fun _ _ => plain_limits.bind fun _ => hend
  · exact plain_limits.bind fun _ => hend
  · exact skips_byte.bind fun _ _ => skips_byte.bind fun _ _ => hend
  · exact skips_byte.bind fun _ _ => huleb.bind fun _ _ => hend

variable (hbit : ∀ k ∈ P, ∃ c, F[k]? = some c ∧ c ||| w ≠ c)

include hbit in
theorem mirrors_name : Mirrors (Like w P F) (name ⟨P, ∅⟩) (name ⟨∅, P⟩) (name .none)
    fun x y b => y = x ↔ b = true :=
  plain_uleb.bind fun n => mirrors_bytes hbit n.toInt

include hbit in
theorem mirrors_nameIf (named : Bool) :
    Mirrors (Like w P F) (nameIf ⟨P, ∅⟩ named) (nameIf ⟨∅, P⟩ named) (nameIf .none named)
      fun x y b => y = x ↔ b = true :=
  .ite (mirrors_name hbit) (Lib.Mirrors.pure (by simp))

theorem TablesRel.signature (h : TablesRel w P F t t') (idx : BitVec 64)
    {name : Str} (name' : Str) {f : FuncSig} (hf : t.signature idx name = .ok f) :
    t'.signature idx name' = .ok f := by
  unfold Tables.signature at hf ⊢
  rw [h.importedFuncs, h.funcTypes, h.types]
  dsimp only at hf ⊢
  split_ifs at hf ⊢
  exact hf

include hw hbit in
theorem mirrors_symbolBody (h : TablesRel w P F t t') (kind : UInt8)
    (flags : BitVec 64) :
    Mirrors (Like w P F) (symbolBody ⟨P, ∅⟩ t kind flags) (symbolBody ⟨∅, P⟩ t kind flags)
      (symbolBody .none t' kind flags) fun x y b => y.2 = x.2 ∧ (y.1 = x.1 ↔ b = true) := by
  have huleb : Skips w P F uleb uleb := skips_uleb hw
  have hend : ∀ (x y : Str) (b : Bool), (y = x ↔ b = true) →
      Mirrors (Like w P F) (pure (x, none) : Read (Str × Option FuncSig)) (pure (x, none))
        (pure (y, none)) fun x y b' => y.2 = x.2 ∧ (y.1 = x.1 ↔ (b && b') = true) :=
    fun x y b hb => Lib.Mirrors.pure ⟨rfl, by rw [Bool.and_true]; exact hb⟩
  refine .ite ?_ (.ite ?_ (.ite ?_ (.ite ?_ .throw)))
  · refine plain_uleb.bind fun idx => (mirrors_nameIf hbit _).bind fun x y b hb => .ite ?_ ?_
    · intro r u z r' hl hr
      cases hf : t.signature idx x with
      | error e =>
        rw [hf] at hr
        cases hr
      | ok f =>
        rw [hf] at hr
        rw [h.signature idx y hf]
        cases hr
        exact ⟨(y, some f), u, true, rfl, hl, ⟨rfl, by rw [Bool.and_true]; exact hb⟩, rfl⟩
    · exact hend x y b hb
  · refine (mirrors_name hbit).bind fun x y b hb => .ite ?_ (hend x y b hb)
    exact huleb.bind fun _ _ => huleb.bind fun _ _ => huleb.bind fun _ _ => hend x y b hb
  · exact huleb.bind fun _ _ => (mirrors_nameIf hbit _).bind fun x y b hb => hend x y b hb
  · exact huleb.bind fun _ _ => Lib.Mirrors.pure ⟨rfl, by simp⟩

theorem run_symbolRest {W : Watch} {kind : UInt8} :
    (symbolRest W t kind).run r = .ok (t', r') ↔ ∃ flags r1 x,
      (guarded (W.layout.erase r.offset) uleb).run r = .ok (flags, r1) ∧
      (symbolBody W t kind flags).run r1 = .ok (x, r') ∧
      t' = { t with syms := t.syms ++ [⟨kind, flags, r.offset, x.1, x.2⟩] } := by
  rw [symbolRest, StateT.run_bind, StateT.run_get, pure_bind, StateT.run_bind, bind_eq_ok]
  constructor
  · rintro ⟨⟨flags, r1⟩, hflags, h⟩
    rw [StateT.run_bind, bind_eq_ok] at h
    obtain ⟨⟨x, r2⟩, hx, h⟩ := h
    cases h
    exact ⟨flags, r1, x, hflags, hx, rfl⟩
  · rintro ⟨flags, r1, x, hflags, hx, rfl⟩
    refine ⟨(flags, r1), hflags, ?_⟩
    rw [StateT.run_bind, hx]
    rfl

include hw hbit in
theorem reads_symbolRest (kind : UInt8) : Reads w P F fun W t => symbolRest W t kind := by
  intro t t' h r u x r' hl hr
  obtain ⟨flags, r1, y, hflags, hy, rfl⟩ := run_symbolRest.mp hr
  obtain ⟨⟨u1, hu1, hl1⟩, c, hc, hcw⟩ := hl.flags hw hflags
  obtain ⟨y', u', b, hy', hl', ⟨hfunc, hname⟩, hcheck⟩ :=
    mirrors_symbolBody hw hbit h kind flags r1 u1 y r' hl1 hy
  have hempty : ∀ k : ℕ, (Watch.none.layout.erase k) = ∅ := fun k => Finset.erase_empty k
  have hrun : (symbolRest .none t' kind).run u = .ok ({ t' with syms := t'.syms ++
      [⟨kind, if r.offset ∈ P then flags ||| wide w else flags, r.offset, y'.1, y'.2⟩] }, u') := by
    refine run_symbolRest.mpr ⟨_, u1, y', by rw [hempty, guarded_empty]; exact hu1, ?_, ?_⟩
    · -- the rest of the symbol does not depend on the flags that were set
      split_ifs
      · rw [hw.symbolBody_or]
        exact hy'
      · exact hy'
    · rw [hl.offset]
  refine ⟨_, u', b, hrun, hl', ⟨⟨h.types, h.importedFuncs, h.funcTypes, h.found, ?_⟩, ?_⟩, ?_⟩
  · refine rel_append h.syms (.cons ⟨?_, hl.start, c, hc, hcw⟩ .nil)
    rw [hfunc]
  · rw [SameNames, SameNames, map_append, map_append, ← hname]
    constructor
    · intro he
      obtain ⟨h1, h2⟩ := append_inj' he rfl
      exact ⟨h1, head_eq_of_cons_eq h2⟩
    · rintro ⟨h1, h2⟩
      rw [h1, map_singleton, map_singleton, h2]
  · have hflags' : (guarded ((⟨∅, P⟩ : Watch).layout.erase r.offset) uleb).run r =
        .ok (flags, r1) := by
      rw [show (⟨∅, P⟩ : Watch).layout.erase r.offset = ∅ from Finset.erase_empty _, guarded_empty]
      exact (run_guarded.mp hflags).1
    cases b with
    | true => exact run_symbolRest.mpr ⟨flags, r1, y, hflags', hcheck, rfl⟩
    | false =>
      rintro ⟨z, r2⟩ hz
      obtain ⟨flags2, r3, y2, hflags2, hy2, -⟩ := run_symbolRest.mp hz
      rw [hflags'] at hflags2
      cases hflags2
      exact hcheck _ hy2

include hw hbit in
theorem reads_symbolEntry : Reads w P F symbolEntry := fun t t' h =>
  plain_byte.bind fun kind => reads_symbolRest hw hbit kind t t' h

theorem reads_entries {body : Watch → Tables → Read Tables} (h : Reads w P F body) :
    Reads w P F fun W => entries W (body W) := fun t t' ht =>
  plain_uleb.bind fun n => h.times n.toNat t t' ht

theorem reads_loop {body : Watch → Tables → Read Tables} (h : Reads w P F body) :
    Reads w P F fun W => loop (body W) := by
  intro t t' ht r u x r' hl hr
  rw [run_loop_eq] at hr
  rw [run_loop_eq, run_loop_eq, hl.len, hl.i]
  exact h.whileMore (fun r u hl => hl.more) (r.b.len - r.i + 1) t t' ht r u x r' hl hr

include hw hbit in
theorem reads_subsection : Reads w P F subsection := by
  intro t t' h
  refine plain_byte.bind fun kind => plain_uleb.bind fun n => mirrors_sub _ (.ite ?_ ?_)
  · exact Mirrors.tables h rfl rfl
  · exact reads_entries (reads_symbolEntry hw hbit) t t' h

theorem plain_nameOver : Plain w P F (nameOver ⟨P, ∅⟩ P) (nameOver ⟨∅, P⟩ ∅) (nameOver .none ∅) :=
  plain_uleb.bind fun n => (agrees_bytes n.toInt).plain

include hw hbit in
theorem reads_sectionBody (id : UInt8) : Reads w P F fun W => sectionBody W id := by
  intro t t' h
  refine .ite ?_ (.ite ?_ (.ite ?_ (.ite ?_ (Mirrors.tables h rfl rfl))))
  · exact reads_entries reads_typeEntry t t' h
  · exact reads_entries (reads_importEntry hw) t t' h
  · exact reads_entries reads_functionEntry t t' h
  · refine plain_nameOver.bind fun name => .ite (Mirrors.tables h rfl rfl) ?_
    refine (skips_uleb hw).bind fun _ _ => ?_
    exact reads_loop (reads_subsection hw hbit) { t with found := true } { t' with found := true }
      ⟨h.types, h.importedFuncs, h.funcTypes, rfl, h.syms⟩

include hw hbit in
theorem reads_sectionEntry : Reads w P F sectionEntry := fun t t' h =>
  plain_byte.bind fun id => plain_uleb.bind fun _ =>
    mirrors_sub _ (reads_sectionBody hw hbit id t t' h)

/-! ### The file -/

theorem symbolsWith_eq_ok {W : Watch} {data : Slice UInt8} {syms : List Symbol} :
    symbolsWith W data = .ok syms ↔
      (8 ≤ data.len ∧ data.toList.take 4 = 0 :: ascii "asm" ∧
        ofLE ((data.toList.drop 4).take 4) = 1) ∧
      ∃ t r, (loop (sectionEntry W) ⟨[], 0, [], [], false⟩).run ⟨data, 8, 0⟩ = .ok (t, r) ∧
        t.found ∧ t.syms = syms := by
  unfold symbolsWith
  dsimp only
  constructor
  · intro h
    split_ifs at h with hhead
    obtain ⟨⟨t, r⟩, hrun, h⟩ := bind_eq_ok.mp h
    dsimp only at h
    split_ifs at h with hfound
    cases h
    simp only [not_or, not_lt, ne_eq, not_not] at hhead
    exact ⟨hhead, t, r, hrun, hfound, rfl⟩
  · rintro ⟨⟨hlen, hmagic, hversion⟩, t, r, hrun, hfound, rfl⟩
    rw [if_neg (by simp [hlen, hmagic, hversion]), hrun]
    exact if_pos hfound

include hw hbit in
/-- **The changed object.** If no mark is something that the reader goes by, the symbols are read
from the marked file; the names are the same if and only if no mark is in one. -/
theorem symbols_mirror {data data' : Slice UInt8} {syms : List Symbol} (hF : data.buf = F)
    (hbuf : data'.buf = mark w P F) (hlen : data'.len = data.len) (hP : ∀ k ∈ P, 8 ≤ k)
    (h : symbolsWith ⟨P, ∅⟩ data = .ok syms) :
    ∃ syms', symbols data' = .ok syms' ∧ List.Forall₂ (SymRel w P F) syms syms' ∧
      (syms'.map Symbol.name = syms.map Symbol.name ↔ symbolsWith ⟨∅, P⟩ data = .ok syms) := by
  obtain ⟨⟨hlen8, hmagic, hversion⟩, t, r, hrun, hfound, rfl⟩ := symbolsWith_eq_ok.mp h
  have hl : Like w P F ⟨data, 8, 0⟩ ⟨data', 8, 0⟩ := ⟨rfl, rfl, hlen, hF, hbuf, le_rfl⟩
  obtain ⟨t', u, b, hrun', -, ⟨hrel, hsame⟩, hcheck⟩ :=
    reads_loop (reads_sectionEntry hw hbit) ⟨[], 0, [], [], false⟩ ⟨[], 0, [], [], false⟩
      ⟨rfl, rfl, rfl, rfl, .nil⟩ _ _ t r hl hrun
  -- the header has no marks
  have hhead : data'.toList.take 8 = data.toList.take 8 := by
    have h0 := take_drop_mark (w := w) (l := F) (i := 0) (n := 8) fun k hk => Or.inr (hP k hk)
    rw [Slice.toList, Slice.toList, take_take, take_take, hlen, min_eq_left hlen8, hF,
      hbuf]
    exact h0
  have hhead' : 8 ≤ data'.len ∧ data'.toList.take 4 = 0 :: ascii "asm" ∧
      ofLE ((data'.toList.drop 4).take 4) = 1 := by
    refine ⟨hlen ▸ hlen8, ?_, ?_⟩
    · rw [← hmagic, show (4 : ℕ) = min 4 8 from rfl, ← take_take, ← take_take, hhead]
    · rw [← hversion, show (4 : ℕ) = 8 - 4 from rfl, ← drop_take, ← drop_take, hhead]
  refine ⟨t'.syms, symbolsWith_eq_ok.mpr ⟨hhead', t', u, hrun', hrel.found ▸ hfound, rfl⟩,
    hrel.syms, ?_⟩
  rw [show t'.syms.map Symbol.name = t.syms.map Symbol.name ↔ b = true from
    hsame.trans (and_iff_right rfl)]
  constructor
  · rintro rfl
    exact symbolsWith_eq_ok.mpr ⟨⟨hlen8, hmagic, hversion⟩, t, r, hcheck, hfound, rfl⟩
  · intro hok
    obtain ⟨-, t2, r2, hrun2, -⟩ := symbolsWith_eq_ok.mp hok
    by_contra hb
    rw [Bool.not_eq_true] at hb
    subst hb
    exact hcheck _ hrun2

end Symbols

end PgZero.Wasm
