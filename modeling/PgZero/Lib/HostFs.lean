import PgZero.Lib.PathNames
import PgZero.Lib.Table

/-!
# The filesystem of a host

Directories and regular files of a host, without links. A file is where the names from the root lead
to it; relative paths start at the working directory.

* **`locate_clean`**, `locate_join`: it is the same after `Clean`, and `Join` goes on from it.
-/

set_option autoImplicit false

namespace Lib

open List

/-- A place: the names that lead to it, the last one first. -/
abbrev Loc := List Str

namespace GoPath

/-- The place of a path. -/
def locate (cwd : Loc) (s : Str) : Loc :=
  (split s).foldl (cleanStep true) (if isAbs s then [] else cwd)

/-! ### Cleaned paths -/

/-- A component that `Clean` keeps. -/
def Kept (p : Str) : Prop := p ≠ [] ∧ p ≠ dot ∧ slash ∉ p

theorem Kept.not_skipped {p : Str} (h : Kept p) : ¬(p = [] ∨ p = dot) := by
  rintro (he | he)
  · exact h.1 he
  · exact h.2.1 he

theorem kept_dotdot : Kept dotdot := by
  unfold Kept
  decide

theorem cleanStep_skipped {kept : List Str} {p : Str} (hp : p = [] ∨ p = dot) (rooted : Bool) :
    cleanStep rooted kept p = kept := if_pos hp

theorem cleanStep_name {kept : List Str} {p : Str} (hp : ¬(p = [] ∨ p = dot)) (hne : p ≠ dotdot)
    (rooted : Bool) : cleanStep rooted kept p = p :: kept := by
  unfold cleanStep
  rw [if_neg hp, if_neg hne]

theorem cleanStep_kept {kept : List Str} (hk : ∀ t ∈ kept, Kept t) {p : Str} (hp : slash ∉ p)
    (rooted : Bool) : ∀ t ∈ cleanStep rooted kept p, Kept t := by
  by_cases hskip : p = [] ∨ p = dot
  · rwa [cleanStep_skipped hskip]
  by_cases hdot : p = dotdot
  · subst hdot
    cases kept with
    | nil =>
      cases rooted with
      | true => exact hk
      | false => exact forall_mem_singleton.mpr kept_dotdot
    | cons t ts =>
      show ∀ q ∈ (if t = dotdot then dotdot :: t :: ts else ts), Kept q
      split_ifs with ht
      · exact forall_mem_cons.mpr ⟨kept_dotdot, hk⟩
      · exact (forall_mem_cons.mp hk).2
  · rw [cleanStep_name hskip hdot]
    rw [not_or] at hskip
    exact forall_mem_cons.mpr ⟨⟨hskip.1, hskip.2, hp⟩, hk⟩

/-- One more component leads on from where those before it lead. -/
theorem foldl_cleanStep_kept {kept : List Str} (hk : ∀ t ∈ kept, Kept t) {base : Loc}
    {rooted : Bool} (hb : rooted = true → base = []) (p : Str) :
    (cleanStep rooted kept p).reverse.foldl (cleanStep true) base =
      cleanStep true (kept.reverse.foldl (cleanStep true) base) p := by
  have hsnoc : ∀ q (ts : List Str), (q :: ts).reverse.foldl (cleanStep true) base =
      cleanStep true (ts.reverse.foldl (cleanStep true) base) q := by
    intro q ts
    rw [reverse_cons, foldl_append]
    rfl
  by_cases hskip : p = [] ∨ p = dot
  · rw [cleanStep_skipped hskip, cleanStep_skipped hskip]
  by_cases hp : p = dotdot
  · subst hp
    cases kept with
    | nil =>
      cases rooted with
      | true =>
        rw [hb rfl]
        rfl
      | false => exact hsnoc dotdot []
    | cons t ts =>
      have ht := forall_mem_cons.mp hk
      by_cases hdot : t = dotdot
      · subst hdot
        exact hsnoc dotdot (dotdot :: ts)
      · -- the name is taken away again
        rw [hsnoc, cleanStep_name ht.1.not_skipped hdot]
        unfold cleanStep
        simp only [if_neg hskip, if_pos trivial, if_neg hdot]
  · rw [cleanStep_name hskip hp rooted, hsnoc]

theorem foldl_clean {kept ps : List Str} (hk : ∀ t ∈ kept, Kept t) (hps : ∀ p ∈ ps, slash ∉ p)
    {base : Loc} {rooted : Bool} (hb : rooted = true → base = []) :
    (∀ t ∈ ps.foldl (cleanStep rooted) kept, Kept t) ∧
    (ps.foldl (cleanStep rooted) kept).reverse.foldl (cleanStep true) base =
      ps.foldl (cleanStep true) (kept.reverse.foldl (cleanStep true) base) := by
  induction ps generalizing kept with
  | nil => exact ⟨hk, rfl⟩
  | cons p ps ih =>
    have hp := forall_mem_cons.mp hps
    obtain ⟨h1, h2⟩ := ih (cleanStep_kept hk hp.1 rooted) hp.2
    refine ⟨h1, h2.trans ?_⟩
    rw [foldl_cleanStep_kept hk hb]
    rfl

theorem isAbs_cons (s : Str) : isAbs (slash :: s) = true := rfl

theorem split_cons_slash (s : Str) : split (slash :: s) = [] :: split s := split_append [] s

theorem isAbs_spell_kept {ps : List Str} (hps : ps ≠ []) (hk : ∀ p ∈ ps, Kept p) :
    isAbs (spell ps) = false := by
  refine decide_eq_false fun h => ?_
  obtain ⟨t, ht⟩ := List.head?_eq_some_iff.mp h
  have hs := split_spell hps fun p hp => (hk p hp).2.2
  rw [ht, split_cons_slash] at hs
  exact (hk [] (hs ▸ mem_cons_self)).1 rfl

/-- The components of a cleaned path. -/
def components (s : Str) : List Str := ((split s).foldl (cleanStep (isAbs s)) []).reverse

theorem components_spec (cwd : Loc) (s : Str) : (∀ p ∈ components s, Kept p) ∧
    (components s).foldl (cleanStep true) (if isAbs s then [] else cwd) = locate cwd s := by
  have hb : isAbs s = true → (if isAbs s then [] else cwd) = [] := fun h => if_pos h
  obtain ⟨hk, hfold⟩ := foldl_clean (fun t ht => absurd ht not_mem_nil)
    (fun p hp => slash_not_mem_of_mem_split (s := s) hp) hb
  exact ⟨fun p hp => hk p (mem_reverse.mp hp), hfold⟩

theorem clean_abs {s : Str} (h : isAbs s = true) : clean s = slash :: spell (components s) := by
  show (if (if isAbs s then [slash] else []) ++ spell (components s) = [] then dot
    else (if isAbs s then [slash] else []) ++ spell (components s)) = _
  rw [if_pos h]
  exact if_neg (cons_ne_nil _ _)

theorem clean_rel {s : Str} (h : isAbs s = false) :
    clean s = if spell (components s) = [] then dot else spell (components s) := by
  show (if (if isAbs s then [slash] else []) ++ spell (components s) = [] then dot
    else (if isAbs s then [slash] else []) ++ spell (components s)) = _
  rw [h]
  rfl

/-- **`Clean` does not change where a path leads.** -/
theorem locate_clean (cwd : Loc) (s : Str) : locate cwd (clean s) = locate cwd s := by
  obtain ⟨hk, hloc⟩ := components_spec cwd s
  rw [← hloc]
  have hsplit : components s ≠ [] → split (spell (components s)) = components s := fun hne =>
    split_spell hne fun p hp => (hk p hp).2.2
  cases hs : isAbs s with
  | true =>
    rw [clean_abs hs]
    unfold locate
    rw [isAbs_cons, split_cons_slash, foldl_cons, cleanStep_skipped (.inl rfl)]
    by_cases hne : components s = []
    · rw [hne]
      rfl
    · rw [hsplit hne]
  | false =>
    rw [clean_rel hs]
    by_cases hne : components s = []
    · rw [hne]
      rfl
    · have hnil : spell (components s) ≠ [] := by
        intro h
        have hsp := hsplit hne
        rw [h] at hsp
        exact (hk [] (hsp ▸ mem_singleton_self [])).1 rfl
      rw [if_neg hnil]
      unfold locate
      rw [isAbs_spell_kept hne hk, hsplit hne]

theorem locate_nil (cwd : Loc) : locate cwd [] = cwd := rfl

theorem locate_join (cwd : Loc) (a b : Str) (hb : isAbs b = false) :
    locate cwd (join a b) = (split b).foldl (cleanStep true) (locate cwd a) := by
  unfold join
  split_ifs with h1 h2
  · rw [h1.1, h1.2]
    rfl
  · rw [h2, locate_clean, locate_nil]
    unfold locate
    rw [hb]
    rfl
  · rw [locate_clean]
    unfold locate
    have habs : isAbs (a ++ [slash] ++ b) = isAbs a := by
      obtain ⟨x, a, rfl⟩ := exists_cons_of_ne_nil h2
      rfl
    rw [habs, split_append, foldl_append]

theorem locate_join_name (cwd : Loc) (a : Str) {p : Str} (hp : Plain p) :
    locate cwd (join a p) = p :: locate cwd a := by
  have hsplit : split p = [p] := by
    have h := split_plain (cons_ne_nil p []) (forall_mem_singleton.mpr hp)
    rwa [spell_singleton] at h
  have habs : isAbs p = false := by
    have h := isAbs_spell (cons_ne_nil p []) (forall_mem_singleton.mpr hp)
    rwa [spell_singleton] at h
  rw [locate_join cwd a p habs, hsplit]
  exact cleanStep_name (fun h => h.elim hp.ne_nil hp.ne_dot) hp.ne_dotdot true

end GoPath

/-! ### Files -/

/-- A file or a directory. -/
inductive HostNode
  | dir
  | file (data : List UInt8)
  deriving DecidableEq, Repr

/-- The files of the host, by location. -/
abbrev HostFs := Table Loc HostNode

namespace HostFs

/-- There is an entry in the directory. -/
def hasEntry (fs : HostFs) (d : Loc) : Bool := fs.keys.any fun l => l ≠ [] && l.tail = d

/-- The directory is missing or has nothing in it. -/
def Fresh (fs : HostFs) (d : Loc) : Prop :=
  (fs.lookup d = none ∨ fs.lookup d = some .dir) ∧ ∀ l ∈ fs.keys, d <:+ l → l = d

/-- The places that lead to `l`, the root first. -/
def prefixes (l : Loc) : List Loc := l.tails.reverse

/-- One turn of `MkdirAll`: a directory that is there stays. -/
def mkdir (fs : HostFs) (l : Loc) : Option HostFs :=
  match fs.lookup l with
  | some .dir => some fs
  | some (.file _) => none
  | none => some (fs.insert l .dir)

/-- `OpenFile` with `O_CREATE`, `O_WRONLY` and `O_TRUNC`. -/
def create (fs : HostFs) (l : Loc) : Option HostFs :=
  if l ≠ [] ∧ fs.lookup l.tail = some .dir ∧ fs.lookup l ≠ some .dir then
    some (fs.insert l (.file []))
  else none

/-- A write at the end of a file. -/
def append (fs : HostFs) (l : Loc) (b : List UInt8) : HostFs :=
  match fs.lookup l with
  | some (.file d) => fs.insert l (.file (d ++ b))
  | _ => fs

variable {fs fs' : HostFs} {l l' : Loc}

theorem mem_prefixes (l : Loc) : l ∈ prefixes l :=
  mem_reverse.mpr ((mem_tails l l).mpr suffix_rfl)

theorem mkdir_self (h : fs.mkdir l = some fs') : fs'.lookup l = some .dir := by
  unfold mkdir at h
  split at h
  · rename_i hl
    cases h
    exact hl
  · cases h
  · cases h
    exact AList.lookup_insert fs

theorem mkdir_other {x : HostNode} (h : fs.mkdir l = some fs') (hx : fs.lookup l' = some x) :
    fs'.lookup l' = some x := by
  unfold mkdir at h
  split at h
  · cases h
    exact hx
  · cases h
  · rename_i hl
    cases h
    have hne : l' ≠ l := by
      rintro rfl
      rw [hl] at hx
      cases hx
    exact (AList.lookup_insert_ne hne).trans hx

theorem create_self (h : fs.create l = some fs') :
    fs.lookup l ≠ some .dir ∧ fs'.lookup l = some (.file []) := by
  obtain ⟨hc, he⟩ := Option.ite_none_right_eq_some.mp h
  cases he
  exact ⟨hc.2.2, AList.lookup_insert fs⟩

theorem create_other (h : fs.create l = some fs') (hne : l' ≠ l) :
    fs'.lookup l' = fs.lookup l' := by
  obtain ⟨-, he⟩ := Option.ite_none_right_eq_some.mp h
  cases he
  exact AList.lookup_insert_ne hne

theorem append_self {d : List UInt8} (h : fs.lookup l = some (.file d)) (b : List UInt8) :
    (fs.append l b).lookup l = some (.file (d ++ b)) := by
  unfold append
  rw [h]
  exact AList.lookup_insert fs

theorem append_other (hne : l' ≠ l) (b : List UInt8) :
    (fs.append l b).lookup l' = fs.lookup l' := by
  unfold append
  split
  · exact AList.lookup_insert_ne hne
  · rfl

theorem Fresh.lookup_cons {d : Loc} (h : fs.Fresh d) (n : Str) : fs.lookup (n :: d) = none := by
  by_contra hne
  have hmem : n :: d ∈ fs := AList.lookup_isSome.mp (Option.isSome_iff_ne_none.mpr hne)
  have he := h.2 (n :: d) (AList.mem_keys.mp hmem) (suffix_cons n d)
  exact absurd (congrArg List.length he) (by simp)

end HostFs

end Lib
