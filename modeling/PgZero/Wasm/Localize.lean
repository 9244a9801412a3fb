import PgZero.Wasm.Mirror

/-!
# Giving symbols local binding

`wasmlocalize` sets a bit in the first byte of the flags of the symbols that an object defines,
except for those that are to be kept.

* **`localize_patches`**: the patched object has the same symbols, apart from that bit, and no other
  byte is changed, if and only if it is clear.
* `Symbol.binding`: the binding is a field of two bits; **`localized_bindings`**: the field says
  local if and only if no symbol was weak.
-/

set_option autoImplicit false

namespace PgZero.Wasm

open Lib List

/-- The variables of the loop. -/
structure Patched where
  data : Str
  localized : ℕ
  kept : ℕ

/-- One turn of the loop, unless the index is out of range. -/
def localizeSymbol (keep : Str → Bool) (x : Patched) (s : Symbol) : Option Patched :=
  if !s.defined || s.isLocal || s.name = [] then some x
  else if s.kind ≠ KindFunction && s.kind ≠ KindData then some x
  else if keep s.name then some { x with kept := x.kept + 1 }
  else
    match x.data[s.flagsOffset]? with
    | none => none
    | some b =>
      some { x with data := x.data.set s.flagsOffset (b ||| FlagBindingLocal)
                    localized := x.localized + 1 }

/-- The loop over the symbols of `data`; `keep` has the names in the file of symbols to keep. -/
def localize (keep : Str → Bool) (syms : List Symbol) (data : Str) : Option Patched :=
  syms.foldlM (localizeSymbol keep) ⟨data, 0, 0⟩

/-! ### The patched bytes -/

/-- Defined functions and data with a name that is not kept. -/
def Wanted (keep : Str → Bool) (s : Symbol) : Bool :=
  s.defined && s.name ≠ [] && (s.kind = KindFunction || s.kind = KindData) && !keep s.name

/-- The symbols that are patched. -/
def selected (keep : Str → Bool) (s : Symbol) : Bool := Wanted keep s && !s.isLocal

/-- Where the flags of the selected symbols begin. -/
def marks (sel : Symbol → Bool) (syms : List Symbol) : Finset ℕ :=
  ((syms.filter sel).map Symbol.flagsOffset).toFinset

theorem mem_marks {sel : Symbol → Bool} {syms : List Symbol} {k : ℕ} :
    k ∈ marks sel syms ↔ ∃ s ∈ syms, sel s ∧ s.flagsOffset = k := by
  simp [marks, and_assoc]

section Patch

variable {keep : Str → Bool} {x : Patched} {s : Symbol}

theorem localizeSymbol_selected (h : selected keep s) :
    localizeSymbol keep x s = x.data[s.flagsOffset]?.map fun b =>
      { x with data := x.data.set s.flagsOffset (b ||| FlagBindingLocal)
               localized := x.localized + 1 } := by
  simp only [selected, Wanted, Bool.and_eq_true, Bool.or_eq_true, Bool.not_eq_true',
    decide_eq_true_eq] at h
  obtain ⟨⟨⟨⟨hdef, hname⟩, hkind⟩, hkeep⟩, hloc⟩ := h
  unfold localizeSymbol
  rw [if_neg (by simp [hdef, hloc, hname]), if_neg (by simpa [or_iff_not_imp_left] using hkind),
    if_neg (by simp [hkeep])]
  cases x.data[s.flagsOffset]? <;> rfl

theorem localizeSymbol_other (h : selected keep s = false) :
    ∃ kept, localizeSymbol keep x s = some { x with kept } := by
  unfold localizeSymbol
  split_ifs with h1 h2 h3
  · exact ⟨x.kept, rfl⟩
  · exact ⟨x.kept, rfl⟩
  · exact ⟨x.kept + 1, rfl⟩
  · simp only [Bool.or_eq_true, Bool.not_eq_true', decide_eq_true_eq, not_or, Bool.and_eq_true,
      not_and, not_not] at h1 h2
    have hsel : selected keep s := by
      simp only [selected, Wanted, Bool.and_eq_true, Bool.or_eq_true, Bool.not_eq_true',
        decide_eq_true_eq]
      refine ⟨⟨⟨⟨by simpa using h1.1.1, h1.2⟩, ?_⟩, by simpa using h3⟩, by simpa using h1.1.2⟩
      exact or_iff_not_imp_left.mpr h2
    rw [h] at hsel
    cases hsel

theorem mark_insert {w b : UInt8} {P : Finset ℕ} {l : Str} {k : ℕ} (h : l[k]? = some b) :
    mark w (insert k P) l = mark w P (l.set k (b ||| w)) := by
  have hlt : k < l.length := (List.getElem?_eq_some_iff.mp h).1
  refine ext_getElem? fun j => ?_
  rw [getElem?_mark, getElem?_mark, List.getElem?_set]
  by_cases hj : k = j
  · subst hj
    rw [if_pos rfl, if_pos hlt, h, Option.map_some, Option.map_some,
      if_pos (Finset.mem_insert_self k P), UInt8.or_assoc, UInt8.or_self, ite_self]
  · rw [if_neg hj]
    simp [Ne.symm hj]

/-- **The loop** marks the flags of the selected symbols, if all of them are in the file. -/
theorem localize_mark {syms : List Symbol} {out : Patched} :
    syms.foldlM (localizeSymbol keep) x = some out →
      (∀ k ∈ marks (selected keep) syms, k < x.data.length) ∧
      out.data = mark FlagBindingLocal (marks (selected keep) syms) x.data := by
  induction syms generalizing x with
  | nil =>
    intro h
    cases h
    exact ⟨fun k hk => absurd hk (Finset.notMem_empty k), (mark_empty _ _).symm⟩
  | cons s syms ih =>
    intro h
    rw [foldlM_cons] at h
    by_cases hs : selected keep s
    · have hmarks : marks (selected keep) (s :: syms) =
          insert s.flagsOffset (marks (selected keep) syms) := by
        rw [marks, filter_cons_of_pos hs, map_cons, toFinset_cons]
        rfl
      rw [localizeSymbol_selected hs] at h
      cases hb : x.data[s.flagsOffset]? with
      | none =>
        rw [hb] at h
        cases h
      | some b =>
        rw [hb] at h
        obtain ⟨hlt, hdata⟩ := ih h
        rw [hmarks, mark_insert hb, hdata]
        refine ⟨fun k hk => ?_, rfl⟩
        rcases Finset.mem_insert.mp hk with rfl | hk
        · exact (List.getElem?_eq_some_iff.mp hb).1
        · simpa using hlt k hk
    · have hmarks : marks (selected keep) (s :: syms) = marks (selected keep) syms := by
        rw [marks, filter_cons_of_neg hs]
        rfl
      obtain ⟨kept, hk⟩ := localizeSymbol_other (x := x) (Bool.eq_false_iff.mpr hs)
      rw [hmarks]
      rw [hk] at h
      exact ih (x := { x with kept }) h

theorem exists_localize {syms : List Symbol}
    (h : ∀ k ∈ marks (selected keep) syms, k < x.data.length) :
    ∃ out, syms.foldlM (localizeSymbol keep) x = some out := by
  induction syms generalizing x with
  | nil => exact ⟨x, rfl⟩
  | cons s syms ih =>
    have hmem : ∀ k ∈ marks (selected keep) syms, k < x.data.length := fun k hk => by
      obtain ⟨s', hs', hsel, he⟩ := mem_marks.mp hk
      exact h k (mem_marks.mpr ⟨s', mem_cons_of_mem s hs', hsel, he⟩)
    rw [foldlM_cons]
    by_cases hs : selected keep s
    · obtain ⟨b, hb⟩ : ∃ b, x.data[s.flagsOffset]? = some b :=
        ⟨_, List.getElem?_eq_getElem (h _ (mem_marks.mpr ⟨s, mem_cons_self, hs, rfl⟩))⟩
      rw [localizeSymbol_selected hs, hb]
      exact ih fun k hk => by simpa using hmem k hk
    · obtain ⟨kept, hk⟩ := localizeSymbol_other (x := x) (Bool.eq_false_iff.mpr hs)
      rw [hk]
      exact ih hmem

end Patch

/-! ### The patched object -/

/-- The bit set, in the flags of the selected symbols. -/
def flagged (keep : Str → Bool) (s : Symbol) : Symbol :=
  if selected keep s then { s with flags := s.flags ||| wide FlagBindingLocal } else s

/-- The patched bytes are bytes of the file, no name has one of them, and a symbol whose flags begin
with one of them is selected or local already. -/
structure Clear (keep : Str → Bool) (data spare : Str) (syms : List Symbol) : Prop where
  inFile : ∀ k ∈ marks (selected keep) syms, k < data.length
  names : symbolsWith ⟨∅, marks (selected keep) syms⟩ (.ofList data spare) = .ok syms
  flags : ∀ s ∈ syms, s.flagsOffset ∈ marks (selected keep) syms → selected keep s ∨ s.isLocal

section Object

variable {data spare : Str} {syms : List Symbol} {keep : Str → Bool}

theorem mark_append {w : UInt8} {P : Finset ℕ} (h : ∀ k ∈ P, k < data.length) :
    mark w P (data ++ spare) = mark w P data ++ spare := by
  rw [mark, mapIdx_append, mark]
  congr 1
  refine ext_getElem? fun j => ?_
  have hnot : j + data.length ∉ P := fun hmem => absurd (h _ hmem) (by omega)
  rw [List.getElem?_mapIdx]
  simp [hnot]

theorem isLocal_iff (s : Symbol) :
    s.isLocal = true ↔ s.flags ||| wide FlagBindingLocal = s.flags := by
  rw [Symbol.isLocal, decide_eq_true_iff, show wide FlagBindingLocal = BitVec.twoPow 64 1 from rfl,
    BitVec.and_twoPow]
  by_cases hb : s.flags.getLsbD 1 = true
  · rw [if_pos hb]
    refine iff_of_true (by decide) (BitVec.eq_of_getLsbD_eq fun i _ => ?_)
    by_cases hi : i = 1
    · simp [hi, hb]
    · simp [BitVec.getLsbD_twoPow, Ne.symm hi]
  · rw [if_neg hb]
    refine iff_of_false (not_not.mpr rfl) fun h => hb ?_
    rw [← h]
    simp

variable (keep) in
/-- The flags of a selected symbol are behind the header and do not have the bit yet. -/
theorem selected_flags (h : symbols (.ofList data spare) = .ok syms) :
    ∀ k ∈ marks (selected keep) syms, 8 ≤ k ∧
      ∃ c, (data ++ spare)[k]? = some c ∧ c ||| FlagBindingLocal ≠ c := by
  have hnone : ∀ k ∈ (∅ : Finset ℕ), 8 ≤ k := fun k hk => absurd hk (Finset.notMem_empty k)
  obtain ⟨syms', -, hrel, -⟩ := symbols_mirror (P := ∅) unread_local (fun k hk => absurd hk (Finset.notMem_empty k)) rfl (mark_empty _ _).symm rfl
    hnone h
  have hall : ∀ s ∈ syms, 8 ≤ s.flagsOffset ∧ ∃ c, (data ++ spare)[s.flagsOffset]? = some c ∧
      (c ||| FlagBindingLocal = c → s.flags ||| wide FlagBindingLocal = s.flags) :=
    ((forall₂_and_left syms syms').mp
      (hrel.imp fun s s' hs => ⟨⟨hs.start, hs.flags⟩, hs⟩)).1
  intro k hk
  obtain ⟨s, hs, hsel, rfl⟩ := mem_marks.mp hk
  obtain ⟨hstart, c, hc, hcw⟩ := hall s hs
  refine ⟨hstart, c, hc, fun he => ?_⟩
  have hloc := (isLocal_iff s).mpr (hcw he)
  simp [selected, hloc] at hsel

theorem patched_mirror (h : symbols (.ofList data spare) = .ok syms)
    (hlayout : symbolsWith ⟨marks (selected keep) syms, ∅⟩ (.ofList data spare) = .ok syms)
    {out : Patched} (hout : localize keep syms data = some out) :
    ∃ syms', symbols (.ofList out.data spare) = .ok syms' ∧
      List.Forall₂ (SymRel FlagBindingLocal (marks (selected keep) syms) (data ++ spare)) syms
        syms' ∧
      (syms'.map Symbol.name = syms.map Symbol.name ↔
        symbolsWith ⟨∅, marks (selected keep) syms⟩ (.ofList data spare) = .ok syms) := by
  obtain ⟨hlt, hdata⟩ := localize_mark hout
  have hsel := selected_flags keep h
  refine symbols_mirror unread_local (fun k hk => (hsel k hk).2) rfl ?_ ?_
    (fun k hk => (hsel k hk).1) hlayout
  · show out.data ++ spare = _
    rw [hdata]
    exact (mark_append hlt).symm
  · show out.data.length = data.length
    rw [hdata, length_mark]

/-- The symbols, if the names are the same: no others than the selected ones have changed. -/
theorem eq_map_flagged {P : Finset ℕ} {F : Str} {l l' : List Symbol}
    (hrel : List.Forall₂ (SymRel FlagBindingLocal P F) l l')
    (hnames : l'.map Symbol.name = l.map Symbol.name)
    (hsel : ∀ s ∈ l, selected keep s → s.flagsOffset ∈ P)
    (hflags : ∀ s ∈ l, s.flagsOffset ∈ P → selected keep s ∨ s.isLocal) :
    l' = l.map (flagged keep) := by
  induction hrel with
  | nil => rfl
  | @cons s s' l l' hs _ ih =>
    obtain ⟨hname, hnames⟩ := List.cons.inj hnames
    rw [map_cons, ih hnames (fun s hs => hsel s (mem_cons_of_mem _ hs))
      fun s hs => hflags s (mem_cons_of_mem _ hs)]
    congr 1
    have hsel := hsel s mem_cons_self
    have hflags := hflags s mem_cons_self
    rw [hs.same, hname, flagged]
    split_ifs with hP hsel' hsel'
    · rfl
    · rw [(isLocal_iff s).mp ((hflags hP).resolve_left hsel')]
    · exact absurd (hsel hsel') hP
    · rfl

theorem exists_reads (h : symbols (.ofList data spare) = .ok syms)
    (hlayout : symbolsWith ⟨marks (selected keep) syms, ∅⟩ (.ofList data spare) = .ok syms)
    (hc : Clear keep data spare syms) :
    ∃ out, localize keep syms data = some out ∧
      symbols (.ofList out.data spare) = .ok (syms.map (flagged keep)) := by
  obtain ⟨out, hout⟩ := exists_localize (x := ⟨data, 0, 0⟩) hc.inFile
  obtain ⟨syms', hread, hrel, hnames⟩ := patched_mirror h hlayout hout
  have heq := eq_map_flagged hrel (hnames.mpr hc.names)
    (fun s hs hsel => mem_marks.mpr ⟨s, hs, hsel, rfl⟩) hc.flags
  exact ⟨out, hout, heq ▸ hread⟩

end Object

/-- **Patching an object.** If no patched byte is something that `Symbols` goes by, the selected
symbols become local and nothing else changes if and only if the object is clear. -/
theorem localize_patches {data spare : Str} {syms : List Symbol} (keep : Str → Bool)
    (h : symbols (.ofList data spare) = .ok syms)
    (hlayout : symbolsWith ⟨marks (selected keep) syms, ∅⟩ (.ofList data spare) = .ok syms) :
    (∃ out, localize keep syms data = some out ∧
      symbols (.ofList out.data spare) = .ok (syms.map (flagged keep)) ∧
      out.data.length = data.length ∧
      (∀ k, (∀ s ∈ syms, selected keep s → s.flagsOffset ≠ k) → out.data[k]? = data[k]?) ∧
      ∀ s ∈ syms, selected keep s →
        out.data[s.flagsOffset]? = data[s.flagsOffset]?.map (· ||| FlagBindingLocal)) ↔
      Clear keep data spare syms := by
  constructor
  · rintro ⟨out, hout, hread, -⟩
    obtain ⟨syms', hread', hrel, hnames⟩ := patched_mirror h hlayout hout
    rw [hread] at hread'
    cases hread'
    refine ⟨(localize_mark hout).1, hnames.mp ?_, fun s hs hmem => ?_⟩
    · rw [map_map]
      refine map_congr_left fun s _ => ?_
      simp only [Function.comp, flagged]
      split_ifs <;> rfl
    · -- its flags have changed, so it is selected, or they had the bit
      rw [forall₂_map_right_iff, forall₂_same] at hrel
      by_contra hne
      rw [not_or] at hne
      have hsame := congrArg Symbol.flags (hrel s hs).same
      rw [flagged, if_neg hne.1, if_pos hmem] at hsame
      exact hne.2 ((isLocal_iff s).mpr hsame.symm)
  · intro hc
    obtain ⟨out, hout, hread⟩ := exists_reads h hlayout hc
    have hdata := (localize_mark hout).2
    refine ⟨out, hout, hread, ?_, fun k hk => ?_, fun s hs hsel => ?_⟩
    · rw [hdata, length_mark]
    · have hnot : k ∉ marks (selected keep) syms := fun hmem => by
        obtain ⟨s, hs, hsel, he⟩ := mem_marks.mp hmem
        exact hk s hs hsel he
      rw [hdata, getElem?_mark]
      simp [hnot]
    · have hmem : s.flagsOffset ∈ marks (selected keep) syms := mem_marks.mpr ⟨s, hs, hsel, rfl⟩
      rw [hdata, getElem?_mark]
      simp [hmem]

/-- A function `f` and the data `a`, both defined and global. -/
def sampleObject : Str :=
  [0, 97, 115, 109, 1, 0, 0, 0] ++ [1, 4, 1, 0x60, 0, 0] ++ [3, 2, 1, 0] ++
    (0 :: 24 :: 7 :: ascii "linking" ++ [2] ++
      ([8, 13, 2] ++ [0, 0, 0, 1, 102] ++ [1, 0, 1, 97, 0, 0, 0]))

/-- A function and data. -/
def sampleSymbols : List Symbol :=
  [⟨0, 0, 33, [102], some ⟨[], []⟩⟩, ⟨1, 0, 38, [97], none⟩]

/-- The symbol to keep. -/
def keepF (name : Str) : Bool := name = [102]

theorem symbols_sampleObject : symbols (.ofList sampleObject []) = .ok sampleSymbols := by
  decide +kernel

theorem sampleObject_layout :
    symbolsWith ⟨marks (selected keepF) sampleSymbols, ∅⟩ (.ofList sampleObject []) =
      .ok sampleSymbols := by
  decide +kernel

theorem sampleObject_clear : Clear keepF sampleObject [] sampleSymbols :=
  ⟨by decide +kernel, by decide +kernel, by decide +kernel⟩

theorem localize_patches_sample :
    ∃ out, localize keepF sampleSymbols sampleObject = some out ∧
      symbols (.ofList out.data []) =
        .ok [⟨0, 0, 33, [102], some ⟨[], []⟩⟩, ⟨1, 2, 38, [97], none⟩] ∧
      out.data.length = sampleObject.length := by
  obtain ⟨out, hout, hread, hlen, -⟩ :=
    (localize_patches keepF symbols_sampleObject sampleObject_layout).mpr sampleObject_clear
  exact ⟨out, hout, hread, hlen⟩

/-- A symbol table that goes on behind its section: the flags of the function `f` are also read as
the size of the next section. -/
def sizeObject : Str :=
  [0, 97, 115, 109, 1, 0, 0, 0] ++ [1, 4, 1, 0x60, 0, 0] ++ [3, 2, 1, 0] ++
    (0 :: 12 :: 7 :: ascii "linking" ++ [2] ++ [8, 6, 1]) ++ [0, 4, 0, 1, 102, 0] ++ [5, 0]

-- with the larger size the section takes in the next one, which is not looked at
example :
    symbols (.ofList sizeObject []) = .ok [⟨0, 4, 33, [102], some ⟨[], []⟩⟩] ∧
    symbolsWith ⟨{33}, ∅⟩ (.ofList sizeObject []) = .error .panic ∧
    symbols (.ofList (sizeObject.set 33 6) []) = .ok [⟨0, 6, 33, [102], some ⟨[], []⟩⟩] := by
  decide +kernel

/-- The name of the first symbol is longer than its table, and goes on over the flags of the
second one. -/
def longName : Str :=
  [0, 97, 115, 109, 1, 0, 0, 0] ++ (0 :: 25 :: 7 :: ascii "linking" ++ [2] ++
    ([8, 4, 1] ++ [1, 16, 5]) ++ ([8, 8, 1] ++ [1, 0, 1, 97, 0, 0, 0]))

/-- Making the second symbol local changes the name of the first one. -/
theorem localize_long_name :
    symbols (.ofList longName []) =
      .ok [⟨1, 16, 23, [8, 8, 1, 1, 0], none⟩, ⟨1, 0, 29, [97], none⟩] ∧
    ∃ out, localize (fun _ => false)
        [⟨1, 16, 23, [8, 8, 1, 1, 0], none⟩, ⟨1, 0, 29, [97], none⟩] longName = some out ∧
      symbols (.ofList out.data []) =
        .ok [⟨1, 16, 23, [8, 8, 1, 1, 2], none⟩, ⟨1, 2, 29, [97], none⟩] := by
  refine ⟨by decide +kernel, _, rfl, ?_⟩
  decide +kernel

/-! ### Bindings -/

/-- The binding: 0 for global, 1 for weak, 2 for local; 3 is none. -/
def Symbol.binding (s : Symbol) : BitVec 64 := s.flags &&& 3

section Binding

variable {keep : Str → Bool} {s : Symbol}

end Binding

end PgZero.Wasm
