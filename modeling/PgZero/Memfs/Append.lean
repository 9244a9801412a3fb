import PgZero.Memfs.Reference

/-!
# Concurrent appends

`Write` on a handle with `O_APPEND` reads the length of the file in one section under the node's
lock and writes in a second one. A handle's own mutex is held throughout, so a handle has one call
at a time, but the sections of different handles interleave.

* **`appends_kept`**: the runs that meet it lose no buffer.
* **`append_lost`**: a run that does not.
-/

set_option autoImplicit false

namespace PgZero.Memfs

open Function Lib File List

/-- `writing i` is the buffer of the call of `Write` on handle `i`, between its two sections. -/
structure AppendState where
  node : Node
  files : ℕ → File
  writing : ℕ → Option (List UInt8)

/-- The sections of `Write`. -/
inductive AppendAct
  /-- `Write` takes the handle's mutex and reads the length. -/
  | locate (i : ℕ) (b : List UInt8)
  /-- `WriteAt` -/
  | store (i : ℕ) (now : ℤ)
  deriving DecidableEq, Repr

/-- What a section returns. -/
inductive AppendAns
  | located
  /-- The call on a buffer returns. -/
  | wrote (b : List UInt8) (n : ℕ) (err : Option IoErr)
  | panic
  deriving DecidableEq, Repr

/-- The first section of `Write`. -/
def File.locate (n : Node) (f : File) : File := { f with offset := f.writePos n }

/-- The rest of `Write`. -/
def File.store (n : Node) (f : File) (b : List UInt8) (now : ℤ) :
    Option (Node × File × ℕ × Option IoErr) :=
  (f.writeAt n b f.offset now).map fun r =>
    (r.1, { f with offset := wrap 64 (f.offset + r.2.1) }, r.2)

/-- One section of a handle. -/
def appendStep (s : AppendState) : AppendAct → Option (AppendState × AppendAns)
  | .locate i b =>
    if s.writing i = none then
      some ({ s with
        files := update s.files i ((s.files i).locate s.node)
        writing := update s.writing i (some b) }, .located)
    else none
  | .store i now =>
    (s.writing i).map fun b =>
      let s' := { s with writing := update s.writing i none }
      match (s.files i).store s.node b now with
      | none => (s', .panic)
      | some r => ({ s' with node := r.1, files := update s.files i r.2.1 },
          .wrote b r.2.2.1 r.2.2.2)

/-- A regular file with handles for appending, none of them in a call. -/
def appendSystem : System AppendState AppendAct AppendAns where
  init s := s.node.mode.isDir = false ∧ s.node.data.len < 2 ^ 63 ∧
    ∀ i, (s.files i).flag.append = true ∧ s.writing i = none
  step := appendStep

/-- The buffers of the calls that have returned without an error, in the order of their returns. -/
def written (tr : List (AppendAct × AppendAns)) : List (List UInt8) :=
  tr.filterMap fun e =>
    match e.2 with
    | .wrote b _ none => some b
    | _ => none

/-- What is written goes to the end of the file, and the end stays an `int64`. -/
def InTime (s : AppendState) : AppendAct → Prop
  | .locate _ _ => True
  | .store i _ => ∀ b ∈ s.writing i, b = [] ∨
      ((s.files i).offset = s.node.data.len ∧ (s.files i).offset + b.length < 2 ^ 63)

instance (s : AppendState) : (a : AppendAct) → Decidable (InTime s a)
  | .locate _ _ => inferInstanceAs (Decidable True)
  | .store i _ => inferInstanceAs (Decidable (∀ b ∈ s.writing i, b = [] ∨
      ((s.files i).offset = s.node.data.len ∧ (s.files i).offset + b.length < 2 ^ 63)))

/-! ### The two sections -/

section

variable {n : Node} {f : File} {b : List UInt8} (now : ℤ)

theorem File.writeAt_nil (hn : n.mode.isDir = false) (h0 : 0 ≤ f.offset)
    (h1 : f.offset ≤ n.data.len) (hlen : n.data.len < 2 ^ 63) :
    ∃ n' err, f.writeAt n [] f.offset now = some (n', 0, err) ∧ n'.mode = n.mode ∧
      n'.data.toList = n.data.toList := by
  unfold writeAt
  rw [hn, if_neg (by simp)]
  split_ifs with hw hneg
  · exact ⟨n, _, rfl, rfl, rfl⟩
  · omega
  · dsimp only
    rw [length_nil, Nat.cast_zero, add_zero, wrap64_eq (by omega) (by omega),
      if_neg (by omega : ¬ (n.data.len : ℤ) < f.offset), if_neg (by omega)]
    refine ⟨_, none, rfl, rfl, ?_⟩
    show (n.data.copyAt f.offset.toNat []).toList = _
    rw [Slice.toList_copyAt _ (by rw [length_nil]; omega), append_nil, length_nil,
      Nat.add_zero, take_append_drop]

theorem Ref.overwrite_end (l : List UInt8) (hb : b ≠ []) : Ref.overwrite l l.length b = l ++ b := by
  rw [Ref.overwrite, if_neg hb, Ref.padTo_of_le (Nat.le_refl _), take_length,
    drop_eq_nil_of_le (Nat.le_add_right _ _), append_nil]

theorem File.writeAt_end (hn : n.mode.isDir = false) (hb : b ≠ []) (hoff : f.offset = n.data.len)
    (hlt : f.offset + b.length < 2 ^ 63) :
    ∃ n' k err, f.writeAt n b f.offset now = some (n', k, err) ∧ n'.mode = n.mode ∧
      n'.data.toList = n.data.toList ++ if err = none then b else [] := by
  obtain ⟨n', hw, hm, hd⟩ := f.writeAt_ref hn hb now hlt
  refine ⟨n', _, _, hw, hm, ?_⟩
  rw [hd, Ref.writeAt]
  by_cases hwr : f.writable = true
  · rw [if_neg (by simp [hwr]), if_neg (by omega), if_pos rfl, hoff, Int.toNat_natCast,
      ← n.data.length_toList]
    exact Ref.overwrite_end _ hb
  · rw [if_pos (by simpa using hwr), if_neg (fun h => by cases h), append_nil]

/-- **The second section**, when the condition holds. -/
theorem File.store_ok (hn : n.mode.isDir = false) (h0 : 0 ≤ f.offset)
    (h1 : f.offset ≤ n.data.len) (hlen : n.data.len < 2 ^ 63)
    (hb : b = [] ∨ (f.offset = n.data.len ∧ f.offset + b.length < 2 ^ 63)) :
    ∃ n' k err, f.store n b now =
        some (n', { f with offset := wrap 64 (f.offset + k) }, k, err) ∧ n'.mode = n.mode ∧
      n'.data.toList = n.data.toList ++ if err = none then b else [] := by
  by_cases hnil : b = []
  · subst hnil
    obtain ⟨n', err, hw, hm, hd⟩ := writeAt_nil now hn h0 h1 hlen
    refine ⟨n', 0, err, ?_, hm, ?_⟩
    · rw [store, hw]
      rfl
    · rw [hd, ite_self, append_nil]
  · obtain ⟨hoff, hlt⟩ := hb.resolve_left hnil
    obtain ⟨n', k, err, hw, hm, hd⟩ := writeAt_end now hn hnil hoff hlt
    refine ⟨n', k, err, ?_, hm, hd⟩
    rw [store, hw]
    rfl

end

/-! ### Runs -/

/-- The file is regular, and a call between its sections has read a length that the file has had. -/
structure AppendInv (s : AppendState) : Prop where
  regular : s.node.mode.isDir = false
  len : s.node.data.len < 2 ^ 63
  append : ∀ i, (s.files i).flag.append = true
  offset : ∀ i, s.writing i ≠ none → 0 ≤ (s.files i).offset ∧
    (s.files i).offset ≤ s.node.data.len

theorem written_snoc (tr : List (AppendAct × AppendAns)) (a : AppendAct) (o : AppendAns) :
    written (tr ++ [(a, o)]) = written tr ++ written [(a, o)] :=
  filterMap_append

section

variable {s s' : AppendState} {o : AppendAns}

theorem AppendInv.locate (h : AppendInv s) {i : ℕ} {b : List UInt8}
    (hs : appendStep s (.locate i b) = some (s', o)) :
    AppendInv s' ∧ s'.node = s.node ∧ o = .located := by
  obtain ⟨-, hs⟩ := Option.ite_none_right_eq_some.mp hs
  obtain ⟨rfl, rfl⟩ := Prod.mk.inj (Option.some.inj hs)
  have hpos : ((s.files i).locate s.node).offset = s.node.data.len := by
    rw [locate, writePos, if_pos (h.append i)]
  refine ⟨⟨h.regular, h.len, ?_, fun j hj => ?_⟩, rfl, rfl⟩
  · exact (forall_update_iff s.files fun _ f => f.flag.append = true).mpr
      ⟨h.append i, fun j _ => h.append j⟩
  · dsimp only at hj ⊢
    by_cases hji : j = i
    · subst hji
      rw [update_self, hpos]
      omega
    · rw [update_of_ne hji] at hj ⊢
      exact h.offset j hj

theorem AppendInv.store (h : AppendInv s) {i : ℕ} {now : ℤ} (hin : InTime s (.store i now))
    (hs : appendStep s (.store i now) = some (s', o)) :
    AppendInv s' ∧ s'.node.data.toList =
      s.node.data.toList ++ (written [(.store i now, o)]).flatten := by
  obtain ⟨b, hb, hs⟩ := Option.map_eq_some_iff.mp hs
  obtain ⟨h0, h1⟩ := h.offset i (by rw [hb]; simp)
  have hin := hin b hb
  obtain ⟨n', k, err, hst, hm, hd⟩ := store_ok now h.regular h0 h1 h.len hin
  dsimp only at hs
  rw [hst] at hs
  obtain ⟨rfl, rfl⟩ := Prod.mk.inj hs
  have hlen := h.len
  have hlen' : n'.data.len = s.node.data.len + (if err = none then b else []).length := by
    rw [← n'.data.length_toList, hd, length_append, s.node.data.length_toList]
  have hbound : (if err = none then b else []).length ≤ b.length := by
    split_ifs
    · exact Nat.le_refl _
    · exact Nat.zero_le _
  refine ⟨⟨?_, ?_, ?_, fun j hj => ?_⟩, ?_⟩
  · rw [hm]
    exact h.regular
  · show n'.data.len < 2 ^ 63
    rcases hin with rfl | ⟨hoff, hlt⟩
    · rw [length_nil] at hbound
      omega
    · omega
  · exact (forall_update_iff s.files fun _ f => f.flag.append = true).mpr
      ⟨h.append i, fun j _ => h.append j⟩
  · dsimp only at hj ⊢
    have hji : j ≠ i := by
      rintro rfl
      rw [update_self] at hj
      exact hj rfl
    rw [update_of_ne hji] at hj ⊢
    have hj' := h.offset j hj
    omega
  · rw [hd]
    cases err with
    | none | some e => simp [written]

end

/-- **No appended buffer is lost** if every buffer is written while the file has the length that its
call has read. -/
theorem appends_kept {s0 s : AppendState} {tr : List (AppendAct × AppendAns)}
    (hi : appendSystem.init s0) (h : (appendSystem.restrict InTime).Run s0 tr s) :
    ∃ bs : List (List UInt8), bs.Perm (written tr) ∧
      s.node.data.toList = s0.node.data.toList ++ bs.flatten := by
  have hrun := h.history (P := fun tr s => AppendInv s ∧
    s.node.data.toList = s0.node.data.toList ++ (written tr).flatten) ?_ ?_
  · exact ⟨written tr, .refl _, hrun.2⟩
  · intro tr s a s' o ⟨hinv, hdata⟩ hs
    obtain ⟨hin, hs⟩ := System.restrict_step.mp hs
    rw [written_snoc, flatten_append, ← append_assoc, ← hdata]
    cases a with
    | locate i b =>
      obtain ⟨hinv', hn, rfl⟩ := hinv.locate hs
      refine ⟨hinv', ?_⟩
      rw [hn]
      simp [written]
    | store i now => exact hinv.store hin hs
  · obtain ⟨hreg, hlen, hfiles⟩ := hi
    refine ⟨⟨hreg, hlen, fun i => (hfiles i).1, fun i hw => absurd (hfiles i).2 hw⟩, ?_⟩
    simp [written]

/-- A file with content `[7]`, and handles on it that append. -/
def appendStart : AppendState where
  node := ⟨0o600, .ofList [7] [], 0, ∅, none⟩
  files _ := ⟨⟨0⟩, 1, [97], ⟨1, false, false, false, true⟩, 0, 0⟩
  writing _ := none

theorem appendStart_init : appendSystem.init appendStart :=
  ⟨by decide, by decide, fun _ => ⟨rfl, rfl⟩⟩

theorem appends_kept_two : ∃ tr s, (appendSystem.restrict InTime).Run appendStart tr s ∧
    written tr = [[1], [2, 3]] ∧ ∃ bs : List (List UInt8), bs.Perm (written tr) ∧
      s.node.data.toList = appendStart.node.data.toList ++ bs.flatten := by
  have hr := @System.exec_run _ _ _ (appendSystem.restrict InTime) appendStart
    [.locate 0 [1], .store 0 0, .locate 1 [2, 3], .store 1 0] _ _ rfl
  exact ⟨_, _, hr, rfl, appends_kept appendStart_init hr⟩

/-- **A lost buffer**: both calls read the length `1` before either writes. -/
theorem append_lost : ∃ tr s, appendSystem.Run appendStart tr s ∧ (∀ i, s.writing i = none) ∧
    written tr = [[1], [2]] ∧ s.node.data.toList = [7, 2] ∧
    ¬ ∃ bs : List (List UInt8), bs.Perm (written tr) ∧
      s.node.data.toList = appendStart.node.data.toList ++ bs.flatten := by
  have hr := @System.exec_run _ _ _ appendSystem appendStart
    [.locate 0 [1], .locate 1 [2], .store 0 0, .store 1 0] _ _ rfl
  refine ⟨_, _, hr, ?_, rfl, rfl, ?_⟩
  · intro i
    show update (update (update (update (fun _ => none) 0 _)
      1 _) 0 none) 1 none i = none
    simp only [update_apply]
    split_ifs <;> rfl
  · -- both buffers would make the file three bytes long
    rintro ⟨bs, hp, he⟩
    have hlen := congrArg List.length he
    rw [length_append, hp.flatten.length_eq] at hlen
    exact absurd hlen (by decide)

end PgZero.Memfs
