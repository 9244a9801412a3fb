import PgZero.Memfs.Unpack
import PgZero.Memfs.WorldTree

/-!
# Path resolution

`resolve` against the walk that POSIX describes, in which every component is applied to a directory.
The loop of `resolve` looks at what it stands on only for ordinary names: an empty component, `.` or
`..` passes a regular file, and only the end of the name is checked again.

* `walkFrom_file`, **`walkFrom_dir`**: the loop from a file and from a directory.
* **`resolve_posix`**: `resolve` is the walk for all other names, and for no others.
-/

set_option autoImplicit false

namespace PgZero.Memfs

open Lib GoPath Heap List

namespace Heap

/-! ### The walk of POSIX -/

/-- One component. Every directory has a parent. -/
def posixStep (h : Heap) (root cur : NodeId) (p : Str) : Except SysErr NodeId :=
  if !h.isDir cur then .error .ENOTDIR
  else if p = [] ∨ p = dot then .ok cur
  else if p = dotdot then
    if cur = root then .error .EPERM else .ok ((h.parent cur).getD cur)
  else
    match h.entry cur p with
    | none => .error .ENOENT
    | some c => .ok c

/-- The walk of POSIX. -/
def posixWalk (h : Heap) (root : NodeId) : NodeId → List Str → Except SysErr NodeId
  | cur, [] => .ok cur
  | cur, p :: ps =>
    match h.posixStep root cur p with
    | .error e => .error e
    | .ok c => h.posixWalk root c ps

/-- The components to walk and the last one, which is left over with `parentOnly`; `none` when it
names no entry. -/
def posixParts (name : Str) (parentOnly : Bool) : Option (List Str × Str) :=
  if parentOnly then
    match (split name).reverse.dropWhile (· = []) with
    | [] => none
    | base :: rest => if base = dot ∨ base = dotdot then none else some (rest.reverse, base)
  else some (split name, [])

/-- Resolution by this walk. -/
def posixResolve (h : Heap) (root dir : NodeId) (name : Str) (parentOnly : Bool) :
    Except SysErr (NodeId × Str) :=
  if isAbs name then .error .EPERM
  else
    match posixParts name parentOnly with
    | none => .error .EINVAL
    | some (parts, base) =>
      match h.posixWalk root dir parts with
      | .error e => .error e
      | .ok c => if !h.isDir c && parentOnly then .error .ENOTDIR else .ok (c, base)

/-! ### Names that pass a regular file -/

/-- The components that the loop passes over. -/
def skipped (p : Str) : Bool := p = [] ∨ p = dot

/-- After a regular file, empty and `.` components aside, there is a `..`; or there is nothing, and
the name ends in `.`. -/
def dotsBehind (parentOnly : Bool) (ps : List Str) : Bool :=
  match ps.dropWhile skipped with
  | [] => !parentOnly && ps.getLast? = some dot
  | q :: _ => q = dotdot

/-- The walk comes to a regular file with such components behind it. -/
def dotsAtFile (h : Heap) (root : NodeId) (parentOnly : Bool) : NodeId → List Str → Bool
  | _, [] => false
  | cur, p :: ps =>
    if h.isDir cur then
      match h.posixStep root cur p with
      | .error _ => false
      | .ok c => h.dotsAtFile root parentOnly c ps
    else dotsBehind parentOnly (p :: ps)

/-- The condition for a name; an absolute one is not walked. -/
def passesFile (h : Heap) (root dir : NodeId) (name : Str) (parentOnly : Bool) : Bool :=
  !isAbs name &&
    match posixParts name parentOnly with
    | none => false
    | some (parts, _) => h.dotsAtFile root parentOnly dir parts

end Heap

/-! ### Components -/

theorem dropEmpty_eq {ps : List Str} (hps : ps ≠ []) :
    dropEmpty ps = if ps.dropWhile (· = []) = [] then [[]] else ps.dropWhile (· = []) := by
  induction ps with
  | nil => exact absurd rfl hps
  | cons p ps ih =>
    cases ps with
    | nil =>
      by_cases hp : p = []
      · simp [dropEmpty, hp]
      · simp [dropEmpty, hp]
    | cons q qs =>
      by_cases hp : p = []
      · rw [dropEmpty, if_pos hp, ih (cons_ne_nil q qs)]
        simp [hp]
      · rw [dropEmpty, if_neg hp]
        simp [hp]

theorem components_posix (name : Str) (parentOnly : Bool) :
    Heap.components name parentOnly =
      (posixParts name parentOnly).elim (.error (.sys .EINVAL)) .ok := by
  unfold Heap.components posixParts
  split_ifs with hpo
  · have hne : (split name).reverse ≠ [] := by simpa using split_ne_nil name
    rw [dropEmpty_eq hne]
    cases hd : (split name).reverse.dropWhile (· = []) with
    | nil => simp
    | cons base rest =>
      have hbase : base ≠ [] := by
        have hnot := head_dropWhile_not (fun p : Str => decide (p = []))
          (by rw [hd]; exact cons_ne_nil base rest)
        simpa [hd] using hnot
      simp only [cons_ne_nil, if_false, hbase, false_or]
      split_ifs <;> rfl
  · rfl

theorem endsInSlash_iff {name : Str} (hname : name ≠ []) :
    endsInSlash name = true ↔ (split name).getLast? = some [] := by
  unfold endsInSlash
  rw [decide_eq_true_iff]
  constructor
  · intro hs
    obtain ⟨s, hs⟩ := List.getLast?_eq_some_iff.mp hs
    rw [hs, split_append_slash, List.getLast?_append]
    rfl
  · intro hs
    obtain ⟨qs, hq⟩ := List.getLast?_eq_some_iff.mp hs
    have hspell := spell_split name
    rw [hq] at hspell
    cases qs with
    | nil => exact absurd hspell.symm (by simpa [spell_singleton] using hname)
    | cons q qs =>
      rw [spell_append (cons_ne_nil q qs) (cons_ne_nil _ _), spell_singleton] at hspell
      rw [← hspell]
      simp

/-! ### The loop -/

namespace Heap

/-- The loop of `resolve` with the check behind it; `slash` says whether the name ends in one. -/
def walkFrom (h : Heap) (root : NodeId) (parentOnly slash : Bool) (cur : NodeId) (ps : List Str) :
    Except WalkFault NodeId :=
  match h.walk root (some cur) ps with
  | .error e => .error e
  | .ok none => .error .panic
  | .ok (some c) =>
    if !h.isDir c && (parentOnly || slash) then .error (.sys .ENOTDIR) else .ok c

/-- The walk of POSIX with the check of the last component's directory. -/
def posixFrom (h : Heap) (root : NodeId) (parentOnly : Bool) (cur : NodeId) (ps : List Str) :
    Except SysErr NodeId :=
  match h.posixWalk root cur ps with
  | .error e => .error e
  | .ok c => if !h.isDir c && parentOnly then .error .ENOTDIR else .ok c

end Heap

section

variable {h : Heap} {R : NodeId → Prop} {r cur : NodeId} {parentOnly slash : Bool}
  {ps : List Str}

theorem walkStep_dir (hd : h.isDir cur = true) (hp : h.parent cur ≠ none) (p : Str) :
    h.walkStep r (some cur) p = ((h.posixStep r cur p).mapError .sys).map some := by
  obtain ⟨q, hq⟩ := Option.ne_none_iff_exists'.mp hp
  unfold walkStep posixStep
  simp only [hd, hq, Bool.not_true, Bool.false_eq_true, if_false, Option.some.injEq,
    Option.getD_some]
  split_ifs
  · rfl
  · rfl
  · rfl
  · cases h.entry cur p <;> rfl

theorem walk_skip (hs : ∀ p ∈ ps, p = [] ∨ p = dot) (qs : List Str) :
    h.walk r (some cur) (ps ++ qs) = h.walk r (some cur) qs := by
  induction ps with
  | nil => rfl
  | cons p ps ih =>
    rw [cons_append, walk, walkStep, if_pos (hs p mem_cons_self)]
    exact ih fun q hq => hs q (mem_cons_of_mem p hq)

theorem walkFrom_cons {c : NodeId} {p : Str} (hw : h.walkStep r (some cur) p = .ok (some c)) :
    h.walkFrom r parentOnly slash cur (p :: ps) = h.walkFrom r parentOnly slash c ps := by
  unfold walkFrom
  rw [walk, hw]

theorem walk_none (ps : List Str) :
    h.walk r none ps = .ok none ∨ h.walk r none ps = .error .panic := by
  induction ps with
  | nil => exact Or.inl rfl
  | cons p ps ih =>
    rw [walk, walkStep]
    split_ifs with _ _ hn
    · exact ih
    · cases hn
    · exact Or.inr rfl
    · exact Or.inr rfl

theorem walkFrom_behind (hf : h.isDir cur = false) (hpar : h.parent cur = none) (hroot : cur ≠ r)
    (hps : ps ≠ []) (hs : parentOnly = false → (ps.getLast? = some [] ↔ slash = true)) :
    h.walkFrom r parentOnly slash cur ps = .error (.sys .ENOTDIR) ↔
      dotsBehind parentOnly ps = false := by
  have hsplit : ps.takeWhile skipped ++ ps.dropWhile skipped = ps :=
    takeWhile_append_dropWhile
  have htake : ∀ p ∈ ps.takeWhile skipped, p = [] ∨ p = dot := by
    intro p hp
    have hp' : skipped p = true := mem_takeWhile_imp hp
    exact of_decide_eq_true hp'
  have hwalk : h.walk r (some cur) ps = h.walk r (some cur) (ps.dropWhile skipped) := by
    conv_lhs => rw [← hsplit]
    exact walk_skip htake _
  unfold dotsBehind walkFrom
  rw [hwalk]
  cases hd : ps.dropWhile skipped with
  | nil =>
    -- nothing but empty and `.` components: the end of the name decides
    obtain ⟨l, hl⟩ := Option.ne_none_iff_exists'.mp (mt List.getLast?_eq_none_iff.mp hps)
    rw [hd, append_nil] at hsplit
    have hskip := htake l (hsplit.symm ▸ mem_of_getLast? hl)
    have hne : ([] : Str) ≠ dot := by decide
    cases parentOnly with
    | true => simp [walk, hf]
    | false =>
      have hs := hs rfl
      rw [hl] at hs
      rcases hskip with rfl | rfl
      · simp [walk, hf, hs.mp rfl, hl, hne]
      · have hslash : slash = false := by simpa [hne.symm] using hs
        simp [walk, hf, hslash, hl]
  | cons q qs =>
    have hq : ¬ (q = [] ∨ q = dot) := by
      have hnot := head_dropWhile_not skipped (by rw [hd]; exact cons_ne_nil q qs)
      simpa [hd, skipped] using hnot
    by_cases hdd : q = dotdot
    · have hstep : h.walkStep r (some cur) q = .ok none := by
        unfold walkStep
        rw [if_neg hq, if_pos hdd, if_neg fun he => hroot (Option.some.inj he)]
        exact congrArg Except.ok hpar
      rw [walk, hstep]
      dsimp only
      rcases walk_none (h := h) (r := r) qs with hn | hn <;> simp [hn, hdd]
    · have hstep : h.walkStep r (some cur) q = .error (.sys .ENOTDIR) := by
        unfold walkStep
        rw [if_neg hq, if_neg hdd]
        simp [hf]
      rw [walk, hstep]
      simp [hdd]

theorem posixFrom_cons {c : NodeId} {p : Str} (hw : h.posixStep r cur p = .ok c) :
    h.posixFrom r parentOnly cur (p :: ps) = h.posixFrom r parentOnly c ps := by
  unfold posixFrom
  rw [posixWalk, hw]

/-- From a regular file, to which a component other than the empty one has led. -/
theorem walkFrom_file (hf : h.isDir cur = false) (hpar : h.parent cur = none) (hroot : cur ≠ r)
    (hs : parentOnly = false → (ps = [] → slash = false) ∧
      (ps ≠ [] → (ps.getLast? = some [] ↔ slash = true))) :
    h.walkFrom r parentOnly slash cur ps = (h.posixFrom r parentOnly cur ps).mapError .sys ↔
      (ps ≠ [] → dotsBehind parentOnly ps = false) := by
  cases ps with
  | nil =>
    refine iff_of_true ?_ fun h => absurd rfl h
    cases hpo : parentOnly with
    | true => simp [walkFrom, posixFrom, walk, posixWalk, hf, Except.mapError]
    | false =>
      simp [walkFrom, posixFrom, walk, posixWalk, (hs hpo).1 rfl,
        Except.mapError]
  | cons p ps =>
    have hposix : h.posixFrom r parentOnly cur (p :: ps) = .error .ENOTDIR := by
      simp [posixFrom, posixWalk, posixStep, hf]
    have hne := cons_ne_nil p ps
    rw [hposix, ← walkFrom_behind hf hpar hroot hne fun hpo => (hs hpo).2 hne]
    exact ⟨fun h _ => h, fun h => h hne⟩

variable (parentOnly slash ps) in
/-- **From a directory**, by induction on the components: both take the same step, and from a
regular file the check catches up with the loop, or not. -/
theorem walkFrom_dir (ht : TreeInv h R) (hr : R r) (hb : Below h r cur) (hd : h.isDir cur = true)
    (hs : parentOnly = false → (∃ p ∈ ps, p ≠ []) →
      ∀ l, ps.getLast? = some l → (l = [] ↔ slash = true)) :
    h.walkFrom r parentOnly slash cur ps = (h.posixFrom r parentOnly cur ps).mapError .sys ↔
      h.dotsAtFile r parentOnly cur ps = false := by
  induction ps generalizing cur with
  | nil =>
    simp [walkFrom, posixFrom, walk, posixWalk, hd, Except.mapError,
      dotsAtFile]
  | cons p ps ih =>
    have hpar : h.parent cur ≠ none := by
      intro hnone
      obtain ⟨r', hr', hc⟩ := ht.climbs cur hb.lt hd
      cases hc with
      | refl => exact absurd ((ht.root _ hr').2.2) (by simp [hnone])
      | step hp _ => simp [hnone] at hp
    have hstep := walkStep_dir (r := r) hd hpar p
    have hlast : ∀ {l}, ps.getLast? = some l → (p :: ps).getLast? = some l := fun hl => by
      rw [List.getLast?_cons, hl]
      rfl
    rw [dotsAtFile, if_pos hd]
    cases hp : h.posixStep r cur p with
    | error e =>
      rw [hp] at hstep
      simp only [walkFrom, posixFrom, walk, posixWalk, hstep, hp,
        Except.mapError, Except.map]
    | ok c =>
      rw [hp] at hstep
      have hstep' : h.walkStep r (some cur) p = .ok (some c) := hstep
      rw [walkFrom_cons hstep', posixFrom_cons hp]
      have hbc : Below h r c :=
        walkStep_below ht hr (fun x hx => Option.some.inj hx ▸ hb) hstep' c rfl
      by_cases hc : h.isDir c = true
      · refine ih hbc hc fun hpo hex l hl => hs hpo ?_ l (hlast hl)
        obtain ⟨q, hq, hne⟩ := hex
        exact ⟨q, mem_cons_of_mem p hq, hne⟩
      · have hf : h.isDir c = false := by simpa using hc
        -- the empty component would have stayed at the directory
        have hpne : p ≠ [] := by
          rintro rfl
          simp only [posixStep, hd, Bool.not_true, Bool.false_eq_true, if_false, true_or,
            if_true] at hp
          obtain rfl := Except.ok.inj hp
          exact hc hd
        have hs' := fun hpo => hs hpo ⟨p, mem_cons_self, hpne⟩
        have hroot : c ≠ r := by
          rintro rfl
          exact hc (ht.root c hr).2.1
        rw [walkFrom_file hf (ht.fileParent c hbc.lt hf) hroot fun hpo => ⟨?_, fun hne => ?_⟩]
        · cases ps with
          | nil => simp [dotsAtFile]
          | cons q qs => simp [dotsAtFile, hf]
        · rintro rfl
          have hslash := (hs' hpo p rfl).not.mp hpne
          simpa using hslash
        · obtain ⟨l, hl⟩ := Option.ne_none_iff_exists'.mp (mt List.getLast?_eq_none_iff.mp hne)
          rw [hl, Option.some.injEq]
          exact hs' hpo l (hlast hl)

theorem resolve_walkFrom {dir : NodeId} {name base : Str} {parts : List Str}
    (habs : isAbs name = false) (hparts : posixParts name parentOnly = some (parts, base)) :
    h.resolve r dir name parentOnly =
      (h.walkFrom r parentOnly (endsInSlash name) dir parts).map fun c => (c, base) := by
  unfold resolve walkFrom
  rw [habs, components_posix, hparts, if_neg (by simp)]
  dsimp only [Option.elim]
  rcases h.walk r (some dir) parts with e | _ | c
  · rfl
  · rfl
  · dsimp only
    split_ifs <;> rfl

theorem posixResolve_from {dir : NodeId} {name base : Str} {parts : List Str}
    (habs : isAbs name = false) (hparts : posixParts name parentOnly = some (parts, base)) :
    h.posixResolve r dir name parentOnly =
      (h.posixFrom r parentOnly dir parts).map fun c => (c, base) := by
  unfold posixResolve posixFrom
  rw [habs, hparts, if_neg (by simp)]
  dsimp only
  rcases h.posixWalk r dir parts with e | c
  · rfl
  · dsimp only
    split_ifs <;> rfl

theorem slash_of_parts {name base : Str} (hparts : posixParts name false = some (ps, base))
    (hex : ∃ p ∈ ps, p ≠ []) {l : Str} (hl : ps.getLast? = some l) :
    l = [] ↔ endsInSlash name = true := by
  obtain ⟨rfl, -⟩ := Prod.mk.inj (Option.some.inj hparts)
  have hname : name ≠ [] := by
    rintro rfl
    obtain ⟨p, hp, hne⟩ := hex
    have hp' : p ∈ [([] : Str)] := hp
    exact hne (mem_singleton.mp hp')
  rw [endsInSlash_iff hname, hl, Option.some.injEq]

end

/-! ### Every name -/

/-- **Path resolution.** `resolve` meets no nil pointer and is the walk of POSIX if and only if the
name is absolute or does not pass a regular file. -/
theorem resolve_posix {w : World} (hw : worldSystem.Reachable w) {fs : FS} (hfs : fs ∈ w.fss)
    {dir : NodeId} (hlt : dir < w.heap.next) (hdir : w.heap.isDir dir = true)
    (hc : Climbs w.heap.parent fs.root dir) (name : Str) (parentOnly : Bool) :
    (w.heap.resolve fs.root dir name parentOnly =
        (w.heap.posixResolve fs.root dir name parentOnly).mapError .sys ∧
      w.heap.resolve fs.root dir name parentOnly ≠ .error .panic) ↔
      w.heap.passesFile fs.root dir name parentOnly = false := by
  have ht := (worldInv_of_reachable hw).tree
  have hsys : ∀ x : Except SysErr (NodeId × Str),
      x.mapError .sys ≠ .error Heap.WalkFault.panic := by
    rintro (e | c) hx <;> cases hx
  rw [and_iff_left_of_imp fun heq => heq ▸ hsys _]
  cases habs : isAbs name with
  | true => simp [resolve, posixResolve, passesFile, habs, Except.mapError]
  | false =>
    cases hparts : posixParts name parentOnly with
    | none =>
      simp [resolve, posixResolve, passesFile, habs, components_posix, hparts,
        Except.mapError]
    | some x =>
      obtain ⟨parts, base⟩ := x
      have hpass : w.heap.passesFile fs.root dir name parentOnly =
          w.heap.dotsAtFile fs.root parentOnly dir parts := by
        simp [passesFile, habs, hparts]
      have hwalk := walkFrom_dir parentOnly (endsInSlash name) parts ht ⟨fs, hfs, rfl⟩ ⟨hlt, fun _ => hc⟩ hdir (by
          rintro rfl hex l hl
          exact slash_of_parts hparts hex hl)
      rw [resolve_walkFrom habs hparts, posixResolve_from habs hparts, hpass, ← hwalk]
      rcases w.heap.walkFrom fs.root parentOnly (endsInSlash name) dir parts with e | c <;>
        rcases w.heap.posixFrom fs.root parentOnly dir parts with e' | c' <;>
        simp [Except.map, Except.mapError]

/-- A slash behind a regular file. -/
theorem resolve_posix_slash : ∃ w, worldSystem.Reachable w ∧ w.heap.isDir 1 = false ∧
    w.heap.entry 0 [97] = some 1 ∧ w.heap.resolve 0 0 [97, 47] false = .error (.sys .ENOTDIR) := by
  have hr := @System.reachable_of_exec _ _ _ worldSystem .empty _
    [.new 0, .openPath 0 [46] 0, .openAt 0 [97] createFlags 0 0] _ rfl rfl
  refine ⟨_, hr, rfl, rfl, ?_⟩
  exact ((@resolve_posix _ hr ⟨0⟩ mem_cons_self 0 (by decide) rfl .refl [97, 47] false).mpr
    rfl).1

/-- `a/..` and `a/.` with a regular file `a`: the one is a nil pointer, the other the file. -/
theorem resolve_passes_file : ∃ w, worldSystem.Reachable w ∧ w.heap.isDir 1 = false ∧
    w.heap.entry 0 [97] = some 1 ∧
    w.heap.resolve 0 0 [97, 47, 46, 46] false = .error .panic ∧
    w.heap.posixResolve 0 0 [97, 47, 46, 46] false = .error .ENOTDIR ∧
    w.heap.resolve 0 0 [97, 47, 46] false = .ok (1, []) ∧
    w.heap.posixResolve 0 0 [97, 47, 46] false = .error .ENOTDIR :=
  ⟨_, @System.reachable_of_exec _ _ _ worldSystem .empty _
    [.new 0, .openPath 0 [46] 0, .openAt 0 [97] createFlags 0 0] _ rfl rfl,
    rfl, rfl, rfl, rfl, rfl, rfl⟩

end PgZero.Memfs
