import Mathlib.Data.List.DropRight
import Mathlib.Tactic

/-!
# Slash-separated paths

Strings are lists of bytes. The functions follow `strings`, `path` and `utf8` of Go's library:
`clean` works on the list of components, which is the same as the lexical rules of `path.Clean`.

* **`slash_not_mem_of_mem_split`**: no component has a slash.
-/

set_option autoImplicit false

namespace Lib

/-- A Go string. -/
abbrev Str := List UInt8

namespace GoPath

/-- A slash. -/
def slash : UInt8 := 47

/-- `"."` -/
def dot : Str := [46]

/-- `".."` -/
def dotdot : Str := [46, 46]

/-- `strings.Split(s, "/")` -/
def split (s : Str) : List Str := s.splitOn slash

/-- `strings.HasPrefix(s, "/")` -/
def isAbs (s : Str) : Bool := s.head? = some slash

/-- `strings.HasSuffix(s, "/")` -/
def endsInSlash (s : Str) : Bool := s.getLast? = some slash

/-- `strings.TrimPrefix(s, p)` -/
def trimStart (s p : Str) : Str := if p.isPrefixOf s then s.drop p.length else s

/-- `strings.TrimSuffix(s, p)` -/
def trimEnd (s p : Str) : Str := if p.isSuffixOf s then s.take (s.length - p.length) else s

/-- `path.Base` -/
def base (s : Str) : Str :=
  if s = [] then dot
  else
    let t := (s.rdropWhile (· = slash)).rtakeWhile (· ≠ slash)
    if t = [] then [slash] else t

/-- One component of `path.Clean`, with the components kept so far, the last one first. -/
def cleanStep (rooted : Bool) (kept : List Str) (p : Str) : List Str :=
  if p = [] ∨ p = dot then kept
  else if p = dotdot then
    match kept with
    | [] => if rooted then [] else [dotdot]
    | t :: ts => if t = dotdot then dotdot :: t :: ts else ts
  else p :: kept

/-- `path.Clean` -/
def clean (s : Str) : Str :=
  let kept := ((split s).foldl (cleanStep (isAbs s)) []).reverse
  let t := (if isAbs s then [slash] else []) ++ [slash].intercalate kept
  if t = [] then dot else t

/-- `path.Dir` -/
def dir (s : Str) : Str := clean (s.rdropWhile (· ≠ slash))

/-- `path.Join(a, b)` -/
def join (a b : Str) : Str :=
  if a = [] ∧ b = [] then []
  else if a = [] then clean b
  else clean (a ++ [slash] ++ b)

/-- A continuation byte of UTF-8 in a range. -/
def utf8Cont (lo hi b : UInt8) : Bool := lo ≤ b && b ≤ hi

/-- `utf8.ValidString` -/
def utf8Valid : Str → Bool
  | [] => true
  | a :: s =>
    if a < 0x80 then utf8Valid s
    else
      match s with
      | [] => false
      | b :: s =>
        if 0xC2 ≤ a && a ≤ 0xDF then utf8Cont 0x80 0xBF b && utf8Valid s
        else
          match s with
          | [] => false
          | c :: s =>
            if 0xE0 ≤ a && a ≤ 0xEF then
              utf8Cont (if a = 0xE0 then 0xA0 else 0x80) (if a = 0xED then 0x9F else 0xBF) b &&
                utf8Cont 0x80 0xBF c && utf8Valid s
            else
              match s with
              | [] => false
              | d :: s =>
                0xF0 ≤ a && a ≤ 0xF4 &&
                  utf8Cont (if a = 0xF0 then 0x90 else 0x80) (if a = 0xF4 then 0x8F else 0xBF) b &&
                  utf8Cont 0x80 0xBF c && utf8Cont 0x80 0xBF d && utf8Valid s

/-- `fs.ValidPath` -/
def validPath (s : Str) : Bool :=
  utf8Valid s && (s = dot || (split s).all fun p => p ≠ [] && p ≠ dot && p ≠ dotdot)

theorem slash_not_mem_of_mem_split {s p : Str} (h : p ∈ split s) : slash ∉ p := by
  unfold split List.splitOn at h
  induction s generalizing p with
  | nil =>
    rw [List.splitOnP_nil, List.mem_singleton] at h
    simp [h]
  | cons a s ih =>
    rw [List.splitOnP_cons_eq_if_modifyHead] at h
    split_ifs at h with ha
    · rcases List.mem_cons.mp h with rfl | h
      · simp
      · exact ih h
    · cases hs : List.splitOnP (· == slash) s with
      | nil => exact absurd hs (List.splitOnP_ne_nil _ _)
      | cons q qs =>
        rw [hs] at h ih
        rcases List.mem_cons.mp h with rfl | h
        · have hq := ih List.mem_cons_self
          have hne : slash ≠ a := fun heq => ha (by simp [heq])
          simp [hq, hne]
        · exact ih (List.mem_cons_of_mem q h)

end GoPath

end Lib
