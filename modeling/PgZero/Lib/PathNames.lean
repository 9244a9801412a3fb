import PgZero.Lib.GoPath

/-!
# Paths spelled from names

A list of names is spelled with slashes between them. The functions of `path` and `strings` take
such a spelling apart again, with or without a slash at its end.

* **`split_append`**: splitting at a slash.
* `kept`: the components of a cleaned path, with **`plain_kept`** and **`kept_below`**.
-/

set_option autoImplicit false

namespace Lib

open List

namespace GoPath

/-- A component that is the name of an entry. -/
structure Plain (p : Str) : Prop where
  ne_nil : p ≠ []
  slash : GoPath.slash ∉ p
  ne_dot : p ≠ dot
  ne_dotdot : p ≠ dotdot

/-- The names with slashes between them. -/
def spell (ps : List Str) : Str := [slash].intercalate ps

theorem spell_split (s : Str) : spell (split s) = s := intercalate_splitOn slash

theorem split_ne_nil (s : Str) : split s ≠ [] := splitOnP_ne_nil _ _

theorem split_spell {ps : List Str} (hps : ps ≠ []) (hs : ∀ p ∈ ps, slash ∉ p) :
    split (spell ps) = ps :=
  splitOn_intercalate slash hs hps

theorem spell_singleton (p : Str) : spell [p] = p := by
  simp [spell, List.intercalate]

theorem spell_append {ps qs : List Str} (hps : ps ≠ []) (hqs : qs ≠ []) :
    spell (ps ++ qs) = spell ps ++ [slash] ++ spell qs := by
  obtain ⟨q, qs, rfl⟩ := exists_cons_of_ne_nil hqs
  unfold spell
  induction ps with
  | nil => exact absurd rfl hps
  | cons p ps ih =>
    cases ps with
    | nil => simp [List.intercalate]
    | cons p' ps =>
      rw [cons_append, cons_append, intercalate_cons_cons,
        intercalate_cons_cons, ← cons_append, ih (cons_ne_nil _ _)]
      simp only [append_assoc]

theorem split_append (s t : Str) : split (s ++ [slash] ++ t) = split s ++ split t := by
  have h : s ++ [slash] ++ t = spell (split s ++ split t) := by
    rw [spell_append (split_ne_nil s) (split_ne_nil t), spell_split, spell_split]
  rw [h, split_spell (append_ne_nil_of_left_ne_nil (split_ne_nil s) _)]
  intro p hp
  rcases mem_append.mp hp with hp | hp
  · exact slash_not_mem_of_mem_split hp
  · exact slash_not_mem_of_mem_split hp

theorem split_append_slash (s : Str) : split (s ++ [slash]) = split s ++ [[]] := by
  have h := split_append s []
  rwa [append_nil] at h

/-! ### Plain names -/

section

variable {ps : List Str} {p : Str}

theorem split_plain (hps : ps ≠ []) (hp : ∀ p ∈ ps, Plain p) : split (spell ps) = ps :=
  split_spell hps fun p h => (hp p h).slash

theorem spell_ne_nil (hps : ps ≠ []) (hp : ∀ p ∈ ps, Plain p) : spell ps ≠ [] := by
  intro h
  have hs := split_plain hps hp
  rw [h] at hs
  exact (hp [] (hs ▸ mem_singleton_self [])).ne_nil rfl

theorem spell_ne_dot (hps : ps ≠ []) (hp : ∀ p ∈ ps, Plain p) : spell ps ≠ dot := by
  intro h
  have hs := split_plain hps hp
  rw [h] at hs
  exact (hp dot (hs ▸ mem_singleton_self dot)).ne_dot rfl

theorem spell_ne_append_slash (hps : ps ≠ []) (hp : ∀ p ∈ ps, Plain p) (s : Str) :
    spell ps ≠ s ++ [slash] := by
  intro h
  have hs := split_plain hps hp
  rw [h, split_append_slash] at hs
  have hmem : [] ∈ ps := hs ▸ mem_append_right _ (mem_singleton_self [])
  exact (hp [] hmem).ne_nil rfl

theorem endsInSlash_spell (hps : ps ≠ []) (hp : ∀ p ∈ ps, Plain p) :
    endsInSlash (spell ps) = false := by
  refine decide_eq_false fun h => ?_
  obtain ⟨s, hs⟩ := List.getLast?_eq_some_iff.mp h
  exact spell_ne_append_slash hps hp s hs

theorem isAbs_of_split {s : Str} (hps : ps ≠ []) (hp : ∀ p ∈ ps, Plain p) {qs : List Str}
    (hs : split s = ps ++ qs) : isAbs s = false := by
  refine decide_eq_false fun h => ?_
  obtain ⟨t, rfl⟩ := List.head?_eq_some_iff.mp h
  obtain ⟨q, ps, rfl⟩ := exists_cons_of_ne_nil hps
  have h1 := split_append [] t
  rw [nil_append, singleton_append, hs] at h1
  exact (hp q mem_cons_self).ne_nil (List.cons.inj h1).1

theorem isAbs_spell (hps : ps ≠ []) (hp : ∀ p ∈ ps, Plain p) : isAbs (spell ps) = false :=
  isAbs_of_split hps hp ((split_plain hps hp).trans (append_nil _).symm)

theorem foldl_cleanStep (hp : ∀ p ∈ ps, Plain p) (rooted : Bool) (kept : List Str) :
    ps.foldl (cleanStep rooted) kept = ps.reverse ++ kept := by
  induction ps generalizing kept with
  | nil => rfl
  | cons p ps ih =>
    have h := hp p mem_cons_self
    have hstep : cleanStep rooted kept p = p :: kept := by
      unfold cleanStep
      rw [if_neg (by simp [h.ne_nil, h.ne_dot]), if_neg h.ne_dotdot]
    rw [foldl_cons, hstep, ih fun q hq => hp q (mem_cons_of_mem p hq)]
    simp

/-- A string with the components `ps`, and perhaps an empty one after them. -/
theorem clean_of_split {s : Str} (hps : ps ≠ []) (hp : ∀ p ∈ ps, Plain p) {qs : List Str}
    (hs : split s = ps ++ qs) (hqs : qs = [] ∨ qs = [[]]) : clean s = spell ps := by
  have hkept : (ps ++ qs).foldl (cleanStep false) [] = ps.reverse := by
    rw [foldl_append, foldl_cleanStep hp, append_nil]
    rcases hqs with rfl | rfl
    · rfl
    · show cleanStep false ps.reverse [] = ps.reverse
      unfold cleanStep
      exact if_pos (Or.inl rfl)
  unfold clean
  rw [isAbs_of_split hps hp hs, hs, hkept, reverse_reverse]
  exact if_neg (spell_ne_nil hps hp)

theorem clean_spell (hps : ps ≠ []) (hp : ∀ p ∈ ps, Plain p) : clean (spell ps) = spell ps :=
  clean_of_split hps hp ((split_plain hps hp).trans (append_nil ps).symm) (Or.inl rfl)

theorem clean_spell_slash (hps : ps ≠ []) (hp : ∀ p ∈ ps, Plain p) :
    clean (spell ps ++ [slash]) = spell ps := by
  refine clean_of_split hps hp ?_ (Or.inr rfl)
  rw [split_append_slash, split_plain hps hp]

theorem plain_snoc (hp : ∀ q ∈ ps, Plain q) (h : Plain p) : ∀ q ∈ ps ++ [p], Plain q := by
  intro q hq
  rcases mem_append.mp hq with hq | hq
  · exact hp q hq
  · exact mem_singleton.mp hq ▸ h

theorem join_spell (hp : ∀ q ∈ ps, Plain q) (h : Plain p) :
    join (spell ps) p = spell (ps ++ [p]) := by
  have hclean := clean_spell (append_ne_nil_of_right_ne_nil ps (cons_ne_nil p []))
    (plain_snoc hp h)
  unfold join
  rw [if_neg (fun h1 => h.ne_nil h1.2)]
  by_cases hps : ps = []
  · subst hps
    rw [if_pos (by rfl : spell [] = [])]
    rwa [nil_append, spell_singleton] at hclean ⊢
  · rw [if_neg (spell_ne_nil hps hp)]
    rwa [spell_append hps (cons_ne_nil p []), spell_singleton] at hclean ⊢

theorem dir_spell (hps : ps ≠ []) (hp : ∀ q ∈ ps, Plain q) (h : Plain p) :
    dir (spell (ps ++ [p])) = spell ps := by
  have hdrop : (spell (ps ++ [p])).rdropWhile (· ≠ slash) = spell ps ++ [slash] := by
    rw [spell_append hps (cons_ne_nil p []), spell_singleton, List.rdropWhile,
      reverse_append, dropWhile_append_of_pos]
    · simp
    · intro a ha
      have hne : a ≠ slash := fun h1 => h.slash (h1 ▸ mem_reverse.mp ha)
      simpa using hne
  rw [dir, hdrop, clean_spell_slash hps hp]

theorem dir_name (h : Plain p) : dir p = dot := by
  have hdrop : p.rdropWhile (· ≠ slash) = [] := by
    rw [rdropWhile_eq_nil_iff]
    intro a ha
    have hne : a ≠ slash := fun h1 => h.slash (h1 ▸ ha)
    simpa using hne
  rw [dir, hdrop]
  rfl

theorem trimStart_of_split {s : Str} (hps : ps ≠ []) (hp : ∀ p ∈ ps, Plain p) {qs : List Str}
    (hs : split s = ps ++ qs) : trimStart s [46, 47] = s := by
  refine if_neg fun h => ?_
  obtain ⟨t, rfl⟩ : [46, 47] <+: s := by simpa using h
  obtain ⟨q, ps, rfl⟩ := exists_cons_of_ne_nil hps
  have h1 : split ([46, 47] ++ t) = split dot ++ split t := split_append dot t
  rw [hs] at h1
  exact (hp q mem_cons_self).ne_dot (List.cons.inj h1).1

theorem trimEnd_spell (hps : ps ≠ []) (hp : ∀ p ∈ ps, Plain p) :
    trimEnd (spell ps) [47] = spell ps := by
  refine if_neg fun h => ?_
  obtain ⟨t, ht⟩ := isSuffixOf_iff_suffix.mp h
  exact spell_ne_append_slash hps hp t ht.symm

end

/-! ### The components of a cleaned path -/

/-- The components that `path.Clean` keeps. -/
def kept (s : Str) : List Str := ((split s).foldl (cleanStep (isAbs s)) []).reverse

/-- The path with the components `ps`, from the root or not. -/
def render (rooted : Bool) (ps : List Str) : Str :=
  let t := (if rooted then [slash] else []) ++ spell ps
  if t = [] then dot else t

theorem clean_eq_render (s : Str) : clean s = render (isAbs s) (kept s) := rfl

theorem render_rooted (ps : List Str) : render true ps = slash :: spell ps := by
  simp [render]

theorem clean_of_isAbs {s : Str} (h : isAbs s) : clean s = slash :: spell (kept s) := by
  rw [clean_eq_render, h, render_rooted]

theorem cleanStep_plain {ps : List Str} (hps : ∀ p ∈ ps, Plain p) {p : Str} (hp : slash ∉ p) :
    ∀ q ∈ cleanStep true ps p, Plain q := by
  unfold cleanStep
  by_cases h1 : p = [] ∨ p = dot
  · rw [if_pos h1]
    exact hps
  rw [if_neg h1]
  by_cases h2 : p = dotdot
  · rw [if_pos h2]
    cases ps with
    | nil => simp
    | cons t ts =>
      have ht := (hps t mem_cons_self).ne_dotdot
      dsimp only
      rw [if_neg ht]
      exact fun q hq => hps q (mem_cons_of_mem t hq)
  · rw [if_neg h2]
    rw [not_or] at h1
    intro q hq
    rcases mem_cons.mp hq with rfl | hq
    · exact ⟨h1.1, hp, h1.2, h2⟩
    · exact hps q hq

theorem foldl_cleanStep_plain {ps cs : List Str} (hps : ∀ p ∈ ps, Plain p)
    (hcs : ∀ c ∈ cs, slash ∉ c) : ∀ q ∈ cs.foldl (cleanStep true) ps, Plain q := by
  induction cs generalizing ps with
  | nil => exact hps
  | cons c cs ih =>
    refine ih (cleanStep_plain hps (hcs c mem_cons_self)) ?_
    exact fun d hd => hcs d (mem_cons_of_mem c hd)

/-- **A cleaned path from the root has only names.** -/
theorem plain_kept {s : Str} (h : isAbs s) : ∀ p ∈ kept s, Plain p := by
  intro p hp
  rw [kept, h, mem_reverse] at hp
  exact foldl_cleanStep_plain (by simp) (fun c hc => slash_not_mem_of_mem_split hc) p hp

theorem foldl_cleanStep_spell {ps : List Str} (hps : ∀ p ∈ ps, Plain p) (rooted : Bool)
    (acc : List Str) : (split (spell ps)).foldl (cleanStep rooted) acc = ps.reverse ++ acc := by
  by_cases h : ps = []
  · subst h
    show cleanStep rooted acc [] = acc
    exact if_pos (Or.inl rfl)
  · rw [split_plain h hps, foldl_cleanStep hps]

theorem isAbs_append {s : Str} (hs : s ≠ []) (t : Str) : isAbs (s ++ t) = isAbs s := by
  obtain ⟨a, s, rfl⟩ := exists_cons_of_ne_nil hs
  rfl

theorem kept_below {s : Str} (hs : s ≠ []) {ps : List Str} (hps : ∀ p ∈ ps, Plain p) :
    kept (s ++ [slash] ++ spell ps) = kept s ++ ps := by
  have habs : isAbs (s ++ [slash] ++ spell ps) = isAbs s := by
    rw [append_assoc, isAbs_append hs]
  rw [kept, habs, split_append, foldl_append, foldl_cleanStep_spell hps, reverse_append,
    reverse_reverse, kept]

end GoPath

end Lib
