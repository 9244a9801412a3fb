import PgZero.Lib.PathNames

/-!
# Mounts

A guest path belongs to the mount with the longest guest path above it. `mountFor` finds it by
comparing strings: the cleaned path of the mount, with a slash after it, has to begin the cleaned
guest path.

* **`mount_lookup`**: which mount is found, and what is left of the path below it.
-/

set_option autoImplicit false

namespace PgZero.Kernel

open Lib GoPath List

/-- A filesystem at a guest path: a directory of the host, or one of type `φ`. -/
structure Mount (φ : Type) where
  guestPath : Str
  hostPath : Str
  fs : Option φ

variable {φ : Type}

/-- The test of `mountFor`, for cleaned paths. -/
def covers (guest mp : Str) : Bool :=
  guest = mp || (trimEnd mp [slash] ++ [slash]).isPrefixOf guest

/-- One turn of the loop of `mountFor`, for the mount `m` of number `i`. -/
def mountTurn (mounts : List (Mount φ)) (guest : Str) (best : Option ℕ) (m : Mount φ) (i : ℕ) :
    Option ℕ :=
  let mp := clean m.guestPath
  if covers guest mp then
    match best.bind (mounts[·]?) with
    | none => some i
    | some b => if (clean b.guestPath).length < mp.length then some i else best
  else best

/-- The mount that contains a guest path, and the path relative to it. -/
def mountFor (mounts : List (Mount φ)) (guest : Str) : Option (Mount φ × Str) :=
  let guest := clean guest
  let best := mounts.zipIdx.foldl (fun best x => mountTurn mounts guest best x.1 x.2) none
  (best.bind (mounts[·]?)).map fun m =>
    (m, trimStart (trimStart guest (clean m.guestPath)) [slash])

/-- The host path of a guest path inside a mount with a host path. -/
def hostPath (mounts : List (Mount φ)) (guest : Str) : Option Str :=
  match mountFor mounts guest with
  | none => none
  | some (m, rel) => if m.hostPath = [] then none else some (join m.hostPath rel)

/-! ### The test -/

section Covers

variable {ms gs ts : List Str}

theorem covers_iff (hms : ∀ p ∈ ms, Plain p) (hgs : ∀ p ∈ gs, Plain p) :
    covers (slash :: spell gs) (slash :: spell ms) ↔ ms <+: gs := by
  by_cases hm : ms = []
  · subst hm
    have hroot : trimEnd (slash :: spell []) [slash] ++ [slash] = [slash] := rfl
    simp [covers, hroot]
  have htrim : trimEnd (slash :: spell ms) [slash] = slash :: spell ms := by
    refine if_neg fun h => ?_
    obtain ⟨t, ht⟩ := isSuffixOf_iff_suffix.mp h
    cases t with
    | nil => exact spell_ne_nil hm hms (List.cons.inj ht).2.symm
    | cons a t => exact spell_ne_append_slash hm hms t (List.cons.inj ht).2.symm
  rw [covers, htrim, Bool.or_eq_true, decide_eq_true_eq, isPrefixOf_iff_prefix]
  constructor
  · rintro (h | ⟨t, ht⟩)
    · have hspell := (List.cons.inj h).2
      by_cases hg : gs = []
      · exact absurd (hspell.symm.trans (congrArg spell hg)) (spell_ne_nil hm hms)
      · rw [← split_plain hm hms, ← split_plain hg hgs, hspell]
    · -- the names of the mount end at the slash after them
      have hspell : spell ms ++ [slash] ++ t = spell gs := by simpa using ht
      have hg : gs ≠ [] := by
        rintro rfl
        simp [spell, List.intercalate] at hspell
      have hsplit := congrArg split hspell
      rw [split_append, split_plain hm hms, split_plain hg hgs] at hsplit
      exact ⟨_, hsplit⟩
  · rintro ⟨ts, rfl⟩
    by_cases ht : ts = []
    · left
      rw [ht, append_nil]
    · right
      exact ⟨spell ts, by rw [spell_append hm ht]; simp⟩

theorem trim_below (hgs : ∀ p ∈ ms ++ ts, Plain p) :
    trimStart (trimStart (slash :: spell (ms ++ ts)) (slash :: spell ms)) [slash] = spell ts := by
  have hts : ∀ p ∈ ts, Plain p := fun p hp => hgs p (mem_append_right ms hp)
  have hstart : ∀ a s : Str, trimStart (a ++ s) a = s := by
    intro a s
    rw [trimStart, if_pos ( isPrefixOf_iff_prefix.mpr (prefix_append a s)),
      drop_left]
  have hslash : trimStart (spell ts) [slash] = spell ts := by
    refine if_neg fun h => ?_
    obtain ⟨t, ht⟩ := isPrefixOf_iff_prefix.mp h
    by_cases hnil : ts = []
    · subst hnil
      simp [spell, List.intercalate] at ht
    · have habs := isAbs_spell hnil hts
      rw [← ht] at habs
      cases habs
  by_cases hm : ms = []
  · subst hm
    rw [nil_append, show slash :: spell ts = [slash] ++ spell ts from rfl]
    exact (congrArg (trimStart · [slash]) (hstart [slash] (spell ts))).trans hslash
  by_cases ht : ts = []
  · subst ht
    have hself := hstart (slash :: spell ms) []
    rw [append_nil] at hself
    rw [append_nil, hself]
    rfl
  · rw [spell_append hm ht, append_assoc, ← cons_append, hstart, hstart]

theorem length_spell_lt (hgs : ∀ p ∈ ms ++ ts, Plain p) (ht : ts ≠ []) :
    (spell ms).length < (spell (ms ++ ts)).length := by
  by_cases hm : ms = []
  · subst hm
    exact length_pos_iff.mpr (spell_ne_nil ht hgs)
  · rw [spell_append hm ht]
    simp only [length_append, length_singleton]
    omega

/-- Of two mounts above one path, the one with the longer path has more names. -/
theorem length_spell_lt_iff {ms' : List Str} (hgs : ∀ p ∈ gs, Plain p) (h : ms <+: gs)
    (h' : ms' <+: gs) : (spell ms).length < (spell ms').length ↔ ms.length < ms'.length := by
  rcases prefix_or_prefix_of_prefix h h' with ⟨ts, rfl⟩ | ⟨ts, rfl⟩
  · by_cases ht : ts = []
    · simp [ht]
    · have hlt := length_spell_lt (fun p hp => hgs p (h'.subset hp)) ht
      have hpos := length_pos_iff.mpr ht
      simp only [hlt, length_append, true_iff]
      omega
  · by_cases ht : ts = []
    · simp [ht]
    · have hlt := length_spell_lt (fun p hp => hgs p (h.subset hp)) ht
      simp only [length_append]
      omega

end Covers

/-! ### The loop -/

/-- The path of the mount is the guest path or above it, name by name. -/
def Mount.Above (m : Mount φ) (guest : Str) : Prop := kept m.guestPath <+: kept guest

/-- Mount number `i` is the longest above the path, and the first of these. -/
structure Longest (mounts : List (Mount φ)) (guest : Str) (i : ℕ) (m : Mount φ) : Prop where
  listed : mounts[i]? = some m
  above : m.Above guest
  longest : ∀ (j : ℕ) (m' : Mount φ), mounts[j]? = some m' → m'.Above guest →
    (kept m'.guestPath).length ≤ (kept m.guestPath).length
  first : ∀ (j : ℕ) (m' : Mount φ), j < i → mounts[j]? = some m' → m'.Above guest →
    (kept m'.guestPath).length < (kept m.guestPath).length

/-- What the loop knows after the mounts `seen`. -/
def Best (seen : List (Mount φ)) (guest : Str) : Option ℕ → Prop
  | none => ∀ m ∈ seen, ¬ m.Above guest
  | some i => ∃ m, Longest seen guest i m

section Loop

variable {mounts seen rest : List (Mount φ)} {guest : Str} {m b : Mount φ} {best : Option ℕ} {i : ℕ}

theorem getElem?_snoc {α : Type} {l : List α} {a b : α} {j : ℕ} (h : (l ++ [a])[j]? = some b) :
    l[j]? = some b ∨ j = l.length ∧ b = a := by
  rw [List.getElem?_append] at h
  split_ifs at h with hj
  · exact Or.inl h
  · obtain ⟨hlt, he⟩ := List.getElem?_eq_some_iff.mp h
    have hz : j - l.length = 0 := by simpa using hlt
    simp only [hz, getElem_cons_zero] at he
    exact Or.inr ⟨by omega, he.symm⟩

theorem covers_clean (hm : isAbs m.guestPath) (hg : isAbs guest) :
    covers (clean guest) (clean m.guestPath) ↔ m.Above guest := by
  rw [clean_of_isAbs hg, clean_of_isAbs hm]
  exact covers_iff (plain_kept hm) (plain_kept hg)

theorem Longest.lt_length (h : Longest seen guest i m) : i < seen.length :=
  (List.getElem?_eq_some_iff.mp h.listed).1

theorem Longest.keep (h : Longest seen guest i b)
    (hm : m.Above guest → (kept m.guestPath).length ≤ (kept b.guestPath).length) :
    Longest (seen ++ [m]) guest i b := by
  refine ⟨?_, h.above, fun j m' hj ha => ?_, fun j m' hji hj ha => ?_⟩
  · rw [List.getElem?_append_left h.lt_length]
    exact h.listed
  · rcases getElem?_snoc hj with hj | ⟨-, rfl⟩
    · exact h.longest j m' hj ha
    · exact hm ha
  · rw [List.getElem?_append_left (hji.trans h.lt_length)] at hj
    exact h.first j m' hji hj ha

theorem Longest.snoc (ha : m.Above guest)
    (hlt : ∀ m' ∈ seen, m'.Above guest →
      (kept m'.guestPath).length < (kept m.guestPath).length) :
    Longest (seen ++ [m]) guest seen.length m := by
  refine ⟨List.getElem?_concat_length, ha, fun j m' hj ha' => ?_, fun j m' hji hj ha' => ?_⟩
  · rcases getElem?_snoc hj with hj | ⟨-, rfl⟩
    · exact (hlt m' (mem_of_getElem? hj) ha').le
    · exact le_rfl
  · rw [List.getElem?_append_left hji] at hj
    exact hlt m' (mem_of_getElem? hj) ha'

theorem mountTurn_best (hm : isAbs m.guestPath) (hseen : ∀ b ∈ seen, isAbs b.guestPath)
    (hg : isAbs guest) (hall : mounts = seen ++ m :: rest) (h : Best seen guest best) :
    Best (seen ++ [m]) guest (mountTurn mounts (clean guest) best m seen.length) := by
  unfold mountTurn
  dsimp only
  by_cases hc : covers (clean guest) (clean m.guestPath) = true
  · have ha := (covers_clean hm hg).mp hc
    rw [if_pos hc]
    cases best with
    | none =>
      -- no mount so far is above the path
      exact ⟨m, .snoc ha fun m' hm' ha' => absurd ha' (h m' hm')⟩
    | some i =>
      obtain ⟨b, hb⟩ := h
      have hbabs := hseen b (mem_of_getElem? hb.listed)
      have hget : mounts[i]? = some b := by
        rw [hall, List.getElem?_append_left hb.lt_length]
        exact hb.listed
      have hlen : (clean b.guestPath).length < (clean m.guestPath).length ↔
          (kept b.guestPath).length < (kept m.guestPath).length := by
        rw [clean_of_isAbs hbabs, clean_of_isAbs hm, length_cons, length_cons,
          Nat.add_lt_add_iff_right]
        exact length_spell_lt_iff (plain_kept hg) hb.above ha
      simp only [Option.bind_some, hget]
      by_cases hlt : (clean b.guestPath).length < (clean m.guestPath).length
      · rw [if_pos hlt]
        refine ⟨m, .snoc ha fun m' hm' ha' => ?_⟩
        obtain ⟨j, hj⟩ := mem_iff_getElem?.mp hm'
        exact (hb.longest j m' hj ha').trans_lt (hlen.mp hlt)
      · rw [if_neg hlt]
        exact ⟨b, hb.keep fun _ => not_lt.mp (mt hlen.mpr hlt)⟩
  · have hna : ¬ m.Above guest := fun ha => hc ((covers_clean hm hg).mpr ha)
    rw [if_neg hc]
    cases best with
    | none =>
      intro m' hm'
      rcases mem_append.mp hm' with hm' | hm'
      · exact h m' hm'
      · exact mem_singleton.mp hm' ▸ hna
    | some i =>
      obtain ⟨b, hb⟩ := h
      exact ⟨b, hb.keep fun ha => absurd ha hna⟩

theorem foldl_best (habs : ∀ m ∈ mounts, isAbs m.guestPath) (hg : isAbs guest)
    (hall : mounts = seen ++ rest) (h : Best seen guest best) :
    Best mounts guest ((rest.zipIdx seen.length).foldl
      (fun best x => mountTurn mounts (clean guest) best x.1 x.2) best) := by
  induction rest generalizing seen best with
  | nil =>
    rw [append_nil] at hall
    exact hall ▸ h
  | cons m rest ih =>
    have hmem : ∀ b ∈ seen ++ [m], isAbs b.guestPath := by
      intro b hb
      refine habs b (hall ▸ ?_)
      rcases mem_append.mp hb with hb | hb
      · exact mem_append_left _ hb
      · exact mem_append_right _ (mem_singleton.mp hb ▸ mem_cons_self)
    have hturn := mountTurn_best (hmem m (by simp))
      (fun b hb => hmem b (mem_append_left _ hb)) hg hall h
    have hrest := @ih (seen ++ [m]) _ (by rw [hall]; simp) hturn
    rw [length_append, length_singleton] at hrest
    rw [zipIdx_cons, foldl_cons]
    exact hrest

theorem mountFor_cases (habs : ∀ m ∈ mounts, isAbs m.guestPath) (hg : isAbs guest) :
    (mountFor mounts guest = none ∧ ∀ m ∈ mounts, ¬ m.Above guest) ∨
    ∃ i m ts, Longest mounts guest i m ∧ kept guest = kept m.guestPath ++ ts ∧
      mountFor mounts guest = some (m, spell ts) := by
  have hnone : Best ([] : List (Mount φ)) guest none := by simp [Best]
  have hloop := foldl_best habs hg (nil_append mounts).symm hnone
  unfold mountFor
  dsimp only
  rw [length_nil] at hloop
  generalize mounts.zipIdx.foldl (fun best x => mountTurn mounts (clean guest) best x.1 x.2) none =
    best at hloop ⊢
  cases best with
  | none => exact Or.inl ⟨rfl, hloop⟩
  | some i =>
    obtain ⟨m, hm⟩ := hloop
    obtain ⟨ts, hts⟩ := hm.above
    have hmabs := habs m (mem_of_getElem? hm.listed)
    refine Or.inr ⟨i, m, ts, hm, hts.symm, ?_⟩
    have hplain := plain_kept hg
    rw [← hts] at hplain
    rw [Option.bind_some, hm.listed, Option.map_some, clean_of_isAbs hg, clean_of_isAbs hmabs,
      ← hts, trim_below hplain]

end Loop

/-- **Mount lookup.** The longest mount above the path is found, the first of equals, and the rest
of the path leads from there. -/
theorem mount_lookup (mounts : List (Mount φ)) (habs : ∀ m ∈ mounts, isAbs m.guestPath)
    (guest : Str) (hg : isAbs guest) :
    (mountFor mounts guest = none ↔ ∀ m ∈ mounts, ¬ m.Above guest) ∧
    ∀ m rel, mountFor mounts guest = some (m, rel) →
      (∃ i, Longest mounts guest i m) ∧
      isAbs rel = false ∧ dotdot ∉ split rel ∧
      clean (m.guestPath ++ [slash] ++ rel) = clean guest ∧
      ∀ p, hostPath mounts guest = some p → ∃ names, (∀ q ∈ names, Plain q) ∧
        p = render (isAbs m.hostPath) (kept m.hostPath ++ names) := by
  rcases mountFor_cases habs hg with ⟨hnone, hno⟩ | ⟨i, m, ts, hm, hts, hsome⟩
  · refine ⟨⟨fun _ => hno, fun _ => hnone⟩, fun m rel h => ?_⟩
    rw [hnone] at h
    cases h
  have hmem := mem_of_getElem? hm.listed
  refine ⟨⟨fun h => ?_, fun h => absurd hm.above (h m hmem)⟩, fun m' rel h => ?_⟩
  · rw [hsome] at h
    cases h
  rw [hsome] at h
  obtain ⟨rfl, rfl⟩ := Prod.mk.inj (Option.some.inj h)
  have hmabs := habs m hmem
  have hplain : ∀ p ∈ ts, Plain p := by
    intro p hp
    exact plain_kept hg p (hts ▸ mem_append_right _ hp)
  refine ⟨⟨i, hm⟩, ?_, ?_, ?_, fun p hp => ⟨ts, hplain, ?_⟩⟩
  · by_cases ht : ts = []
    · rw [ht]
      rfl
    · exact isAbs_spell ht hplain
  · by_cases ht : ts = []
    · rw [ht]
      decide
    · rw [split_plain ht hplain]
      exact fun hmem => (hplain dotdot hmem).ne_dotdot rfl
  · have hne : m.guestPath ≠ [] := by
      intro h
      rw [h] at hmabs
      cases hmabs
    rw [clean_of_isAbs hg, clean_eq_render, kept_below hne hplain, append_assoc,
      isAbs_append hne, hmabs, render_rooted, hts]
  · unfold hostPath at hp
    rw [hsome] at hp
    dsimp only at hp
    by_cases hhost : m.hostPath = []
    · rw [if_pos hhost] at hp
      cases hp
    · rw [if_neg hhost] at hp
      rw [← Option.some.inj hp, join, if_neg (fun h => hhost h.1), if_neg hhost, clean_eq_render,
        kept_below hhost hplain, append_assoc, isAbs_append hhost]

/-- `/d/../d/x` with mounts at `/` and at `/d/`, which is `/h` on the host. -/
theorem mount_lookup_nested :
    mountFor [(⟨[47], [], some ()⟩ : Mount Unit), ⟨[47, 100, 47], [47, 104], none⟩]
        [47, 100, 47, 46, 46, 47, 100, 47, 120] = some (⟨[47, 100, 47], [47, 104], none⟩, [120]) ∧
      clean ([47, 100, 47] ++ [slash] ++ [120]) =
        clean [47, 100, 47, 46, 46, 47, 100, 47, 120] := by
  have h := (mount_lookup [(⟨[47], [], some ()⟩ : Mount Unit), ⟨[47, 100, 47], [47, 104], none⟩]
    (by simp [isAbs, slash]) [47, 100, 47, 46, 46, 47, 100, 47, 120] rfl).2 _ _ rfl
  exact ⟨rfl, h.2.2.2.1⟩

end PgZero.Kernel
