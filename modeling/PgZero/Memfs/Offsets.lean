import PgZero.Memfs.Reference

/-!
# Offsets

The offsets of a file are `int64`s, and sums of them wrap. A `Seek` whose target wraps is refused,
since it comes out negative; a `Write` whose end wraps is not.

* `call_safe`, **`offsets_safe`**: no other call leaves the range, in any run.
-/

set_option autoImplicit false

namespace PgZero.Memfs

open Lib Option

/-- A call that has returned an error. -/
def FileAns.isErr : FileAns → Bool
  | .data _ err => err.isSome
  | .wrote _ err => err.isSome
  | .failed _ => true
  | _ => false

/-- The offset that a call writes up to or seeks to. -/
def OneFile.endOffset (s : OneFile) : FileCall → Option ℤ
  | .writeAt _ b off _ => some (off + b.length)
  | .write i b _ => s.files[i]?.map fun f => f.writePos s.node + b.length
  | .seek i offset whence => s.files[i]?.bind fun f =>
    if whence = 0 then some offset
    else if whence = 1 then some (offset + f.offset)
    else if whence = 2 then some (offset + s.node.data.len)
    else none
  | .truncate _ size _ => some size
  | _ => none

/-- Writes on handles that are open for writing end below `2 ^ 63`. -/
def EndFits (s : OneFile) : FileCall → Prop
  | .writeAt i b off _ => ∀ f ∈ s.files[i]?, f.writable = true → off + b.length < 2 ^ 63
  | .write i b _ =>
    ∀ f ∈ s.files[i]?, f.writable = true → f.writePos s.node + b.length < 2 ^ 63
  | _ => True

instance (s : OneFile) : (c : FileCall) → Decidable (EndFits s c)
  | .writeAt i b off _ => inferInstanceAs
      (Decidable (∀ f ∈ s.files[i]?, f.writable = true → off + b.length < 2 ^ 63))
  | .write i b _ => inferInstanceAs
      (Decidable (∀ f ∈ s.files[i]?, f.writable = true → f.writePos s.node + b.length < 2 ^ 63))
  | .openAt .. | .readAt .. | .read .. | .seek .. | .truncate .. =>
    inferInstanceAs (Decidable True)

section

variable {n : Node} {f : File} {b : List UInt8} {off : ℤ}

theorem writeAt_fits (hn : n.mode.isDir = false) (hl : n.data.len < 2 ^ 63)
    (hfit : f.writable = true → off + b.length < 2 ^ 63) (now : ℤ) :
    (∃ e, f.writeAt n b off now = some (n, 0, some e)) ∨
    (f.writable = true ∧ 0 ≤ off ∧ ∃ n', f.writeAt n b off now = some (n', b.length, none) ∧
      n'.mode = n.mode ∧ n'.data.len < 2 ^ 63) := by
  unfold File.writeAt
  rw [hn, if_neg (by simp)]
  split_ifs with h1 h2
  · exact Or.inl ⟨_, rfl⟩
  · exact Or.inl ⟨_, rfl⟩
  · have hw : f.writable = true := by simpa using h1
    have hlt := hfit hw
    refine Or.inr ⟨hw, by omega, ?_⟩
    dsimp only
    rw [wrap64_eq (by omega) hlt]
    by_cases hgrow : (n.data.len : ℤ) < off + b.length
    · rw [if_pos hgrow, if_neg (by rw [len_grow]; omega)]
      refine ⟨_, rfl, rfl, ?_⟩
      show (grow n.data (off + b.length).toNat).len < 2 ^ 63
      rw [len_grow]
      omega
    · rw [if_neg hgrow, if_neg (by omega)]
      exact ⟨_, rfl, rfl, hl⟩

end

/-- What a call leaves behind, and what it says when its end is out of range. -/
structure SafeCall (s : OneFile) (c : FileCall) (s' : OneFile) (o : FileAns) : Prop where
  inv : FileInv s'
  ne_panic : o ≠ .panic
  refused : ∀ e, s.endOffset c = some e → ¬ IsInt64 e → o.isErr = true ∧ s'.node = s.node

theorem RefFile.call_ne_panic {r r' : RefFile} {c : FileCall} {o : FileAns}
    (h : r.call c = some (r', o)) : o ≠ .panic := by
  cases c with
  | openAt name flag now => cases h; exact nofun
  | readAt i len off | read i len | writeAt i b off now | write i b now =>
    obtain ⟨f, -, h⟩ := map_eq_some_iff.mp h
    cases h
    exact nofun
  | seek i offset whence =>
    obtain ⟨f, -, h⟩ := map_eq_some_iff.mp h
    cases h
    unfold FileAns.ofSeek
    split <;> exact nofun
  | truncate i size now =>
    obtain ⟨f, -, h⟩ := map_eq_some_iff.mp h
    cases h
    unfold FileAns.ofErr
    split <;> exact nofun

section

variable {s s' : OneFile} {o : FileAns}

/-- A call that does not write is one on the reference file, which has no slices. -/
theorem SafeCall.of_ref {c : FileCall} (h : FileInv s) (hr : c.inRange) (hw : WriteOk s c)
    (hs : s.call c = some (s', o))
    (he : ∀ e, s.endOffset c = some e → ¬ IsInt64 e → o.isErr = true ∧ s'.node = s.node) :
    SafeCall s c s' o := by
  obtain ⟨hinv, href⟩ := call_ref h hr hw hs
  exact ⟨hinv, RefFile.call_ne_panic href, he⟩

theorem seek_refused (h : FileInv s) {i : ℕ} {offset whence : ℤ} (hr : IsInt64 offset)
    (hs : s.call (.seek i offset whence) = some (s', o)) {e : ℤ}
    (he : s.endOffset (.seek i offset whence) = some e) (hout : ¬ IsInt64 e) :
    o.isErr = true ∧ s'.node = s.node := by
  obtain ⟨f, hf, hs⟩ := map_eq_some_iff.mp hs
  obtain ⟨rfl, rfl⟩ := Prod.mk.inj hs
  refine ⟨?_, rfl⟩
  obtain ⟨h0, h1⟩ := h.offset f (List.mem_of_getElem? hf)
  rw [File.seek_ref h.len h0 h1 whence hr]
  have hlen := s.node.data.length_toList
  simp only [OneFile.endOffset, hf, bind_some] at he
  unfold Ref.seek
  dsimp only
  rw [hlen, he]
  dsimp only
  have hne : ¬ (0 ≤ e ∧ e < 2 ^ 63) := fun hin => hout ⟨by omega, hin.2⟩
  rw [if_neg hne]
  rfl

theorem writeAt_safe {i : ℕ} {b : List UInt8} {off now : ℤ} (h : FileInv s)
    (hfit : EndFits s (.writeAt i b off now)) (hs : s.call (.writeAt i b off now) = some (s', o)) :
    SafeCall s (.writeAt i b off now) s' o := by
  obtain ⟨f, hf, hs⟩ := map_eq_some_iff.mp hs
  rcases writeAt_fits h.regular h.len (hfit f hf) now with ⟨e, hw⟩ | ⟨hw, h0, n', hn, hm, hl⟩
  · rw [hw] at hs
    obtain ⟨rfl, rfl⟩ := Prod.mk.inj hs
    exact ⟨h, by simp, fun _ _ _ => ⟨rfl, rfl⟩⟩
  · rw [hn] at hs
    obtain ⟨rfl, rfl⟩ := Prod.mk.inj hs
    refine ⟨⟨hm ▸ h.regular, hl, h.offset⟩, by simp, fun e he hout => ?_⟩
    obtain rfl := Option.some.inj he
    exact absurd ⟨by omega, hfit f hf hw⟩ hout

theorem write_safe {i : ℕ} {b : List UInt8} {now : ℤ} (h : FileInv s)
    (hfit : EndFits s (.write i b now)) (hs : s.call (.write i b now) = some (s', o)) :
    SafeCall s (.write i b now) s' o := by
  obtain ⟨f, hf, hs⟩ := map_eq_some_iff.mp hs
  obtain ⟨h0, h1⟩ := h.offset f (List.mem_of_getElem? hf)
  have hlen := h.len
  have hpos : 0 ≤ f.writePos s.node ∧ f.writePos s.node < 2 ^ 63 := by
    unfold File.writePos
    split_ifs <;> omega
  rcases writeAt_fits h.regular h.len (hfit f hf) now with ⟨e, hw⟩ | ⟨hw, -, n', hn, hm, hl⟩
  · rw [File.write, hw] at hs
    obtain ⟨rfl, rfl⟩ := Prod.mk.inj hs
    refine ⟨⟨h.regular, h.len, forall_mem_set h.offset ?_⟩, by simp, fun _ _ _ => ⟨rfl, rfl⟩⟩
    dsimp only
    rw [wrap64_eq (by omega) (by omega)]
    omega
  · rw [File.write, hn] at hs
    obtain ⟨rfl, rfl⟩ := Prod.mk.inj hs
    have hfit' := hfit f hf hw
    refine ⟨⟨hm ▸ h.regular, hl, forall_mem_set h.offset ?_⟩, by simp, fun e he hout => ?_⟩
    · dsimp only
      rw [wrap64_eq (by omega) hfit']
      omega
    · simp only [OneFile.endOffset, hf, map_some, Option.some.injEq] at he
      subst he
      exact absurd ⟨by omega, hfit'⟩ hout

/-- **Every call** whose writes fit keeps the offsets and the length in range. -/
theorem call_safe {c : FileCall} (h : FileInv s) (hr : c.inRange) (hfit : EndFits s c)
    (hs : s.call c = some (s', o)) : SafeCall s c s' o := by
  cases c with
  | openAt name flag now | readAt i len off | read i len =>
    exact .of_ref h hr trivial hs fun e he => by cases he
  | seek i offset whence => exact .of_ref h hr trivial hs fun e => seek_refused h hr hs
  | truncate i size now =>
    refine .of_ref h hr trivial hs fun e he hout => ?_
    obtain rfl := Option.some.inj he
    exact absurd hr hout
  | writeAt i b off now => exact writeAt_safe h hfit hs
  | write i b now => exact write_safe h hfit hs

theorem fileInv_of_reachable (hs : (fileSystem.restrict EndFits).Reachable s) : FileInv s := by
  apply hs.invariant
  · rintro s0 ⟨hreg, hlen, hfiles⟩
    exact ⟨hreg, hlen, by simp [hfiles]⟩
  · intro s1 c s2 o h1 hstep
    obtain ⟨hfit, hstep⟩ := System.restrict_step.mp hstep
    obtain ⟨hr, hcall⟩ := ite_none_right_eq_some.mp hstep
    exact (call_safe h1 hr hfit hcall).inv

/-- **Offset arithmetic**, along all runs whose writes end below `2 ^ 63`. -/
theorem offsets_safe (hs : (fileSystem.restrict EndFits).Reachable s) :
    (∀ f ∈ s.files, 0 ≤ f.offset) ∧
    ∀ c s' o, (fileSystem.restrict EndFits).step s c = some (s', o) → o ≠ .panic ∧
      ∀ e, s.endOffset c = some e → ¬ IsInt64 e → o.isErr = true ∧ s'.node = s.node := by
  have hi := fileInv_of_reachable hs
  refine ⟨fun f hf => (hi.offset f hf).1, fun c s' o hstep => ?_⟩
  obtain ⟨hfit, hstep⟩ := System.restrict_step.mp hstep
  obtain ⟨hr, hcall⟩ := ite_none_right_eq_some.mp hstep
  have hsafe := call_safe hi hr hfit hcall
  exact ⟨hsafe.ne_panic, hsafe.refused⟩

end

/-- An empty file. -/
def OneFile.blank : OneFile := ⟨⟨0⟩, 1, ⟨0o600, .nil, 0, ∅, none⟩, []⟩

/-- From the last offset there is no way forward. -/
theorem offsets_safe_last : ∃ s s' o, (fileSystem.restrict EndFits).Reachable s ∧
    (fileSystem.restrict EndFits).step s (.seek 0 1 1) = some (s', o) ∧
    s.files.map File.offset = [2 ^ 63 - 1] ∧ o.isErr = true ∧ s'.node = s.node := by
  have hr := @System.reachable_of_exec _ _ _ (fileSystem.restrict EndFits) .blank _
    [.openAt [97] ⟨1, false, false, false, false⟩ 0, .seek 0 (2 ^ 63 - 1) 0] _
    ⟨rfl, by decide, rfl⟩ rfl
  refine ⟨_, _, _, hr, rfl, rfl, ?_⟩
  exact ((offsets_safe hr).2 (.seek 0 1 1) _ _ rfl).2 (2 ^ 63) rfl (by decide)

/-- A byte written at the last offset: the slice from there on is out of range. -/
theorem write_wraps : ∃ s s', fileSystem.Reachable s ∧
    fileSystem.step s (.write 0 [7] 0) = some (s', .panic) ∧
    s.endOffset (.write 0 [7] 0) = some (2 ^ 63) :=
  ⟨_, _, @System.reachable_of_exec _ _ _ fileSystem .blank _
    [.openAt [97] ⟨1, false, false, false, false⟩ 0, .seek 0 (2 ^ 63 - 1) 0] _
    ⟨rfl, by decide, rfl⟩ rfl, rfl, rfl⟩

end PgZero.Memfs
