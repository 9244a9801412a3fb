import PgZero.Lib.Ascii
import PgZero.Lib.Loop

/-!
# Connection strings

The keyword and value grammar of libpq: settings `keyword = value`, where a value is either without
quotes and ends at white space, or in single quotes; in both a backslash takes the next byte as it
is.

* `Keyword`, `Bare`: texts that stand for themselves; **`quoted_escape`**: any other, in quotes.
* **`turn_setting`**: a setting is read back.
-/

set_option autoImplicit false

namespace Lib

open List

namespace ConnInfo

/-- An equals sign. -/
def equals : UInt8 := 61

/-- The settings in the order of the string. -/
abbrev Settings := List (Str × Str)

/-! ### The parser -/

/-- A keyword, with the rest after its `=`. -/
def keyword (s : Str) : Option (Str × Str) :=
  let name := s.takeWhile fun b => b ≠ equals && !isSpace b
  match (s.drop name.length).dropWhile isSpace with
  | [] => none
  | b :: t => if b = equals then some (name, t) else none

/-- A value without quotes, with the rest after the white space that ends it; `esc` says whether a
backslash comes before. -/
def unquoted (esc : Bool) : Str → Str × Str
  | [] => ([], [])
  | b :: s =>
    if !esc && isSpace b then ([], s)
    else if !esc && b = backslash then unquoted true s
    else (b :: (unquoted false s).1, (unquoted false s).2)

/-- A value after its opening quote, with the rest after the closing one. -/
def quoted (esc : Bool) : Str → Option (Str × Str)
  | [] => none
  | b :: s =>
    if !esc && b = backslash then quoted true s
    else if !esc && b = quote then some ([], s)
    else (quoted false s).map fun x => (b :: x.1, x.2)

/-- A value, and what follows it. -/
def value (s : Str) : Option (Str × Str) :=
  let s := s.dropWhile isSpace
  if s.head? = some quote then quoted false s.tail else some (unquoted false s)

/-- One setting; the loop leaves with the settings, or with nothing if the string is refused. -/
def turn (x : Str × Settings) : (Str × Settings) ⊕ Option Settings :=
  let s := x.1.dropWhile isSpace
  if s = [] then .inr (some x.2)
  else
    match keyword s with
    | none => .inr none
    | some (k, t) =>
      match value t with
      | none => .inr none
      | some (v, rest) => .inl (rest, x.2 ++ [(k, v)])

/-- The settings of a string, which ends at its first zero byte. -/
def parse (s : Str) : Option Settings :=
  (Loop.run turn (s.length + 1) (s.takeWhile (· ≠ 0), [])).join

/-! ### The parser ends -/

theorem length_keyword {s k t : Str} (h : keyword s = some (k, t)) : t.length < s.length := by
  unfold keyword at h
  dsimp only at h
  generalize hd : (s.drop (s.takeWhile fun b => b ≠ equals && !isSpace b).length).dropWhile
    isSpace = d at h
  have hsub : d.Sublist s := hd ▸ (dropWhile_sublist _).trans (drop_sublist _ _)
  cases d with
  | nil => cases h
  | cons b d =>
    dsimp only at h
    split_ifs at h
    cases h
    exact hsub.length_le

theorem length_unquoted (esc : Bool) (s : Str) : (unquoted esc s).2.length ≤ s.length := by
  induction s generalizing esc with
  | nil => exact Nat.le_refl _
  | cons b s ih =>
    rw [unquoted]
    split_ifs
    · exact Nat.le_succ _
    · exact (ih true).trans (Nat.le_succ _)
    · exact (ih false).trans (Nat.le_succ _)

theorem length_quoted {esc : Bool} {s v t : Str} (h : quoted esc s = some (v, t)) :
    t.length ≤ s.length := by
  induction s generalizing esc v with
  | nil => cases h
  | cons b s ih =>
    rw [quoted] at h
    split_ifs at h
    · exact (ih h).trans (Nat.le_succ _)
    · cases h
      exact Nat.le_succ _
    · obtain ⟨⟨v', t'⟩, hq, hx⟩ := Option.map_eq_some_iff.mp h
      cases hx
      exact (ih hq).trans (Nat.le_succ _)

theorem length_value {s v t : Str} (h : value s = some (v, t)) : t.length ≤ s.length := by
  unfold value at h
  dsimp only at h
  have hsub := (dropWhile_sublist (l := s) isSpace).length_le
  split_ifs at h
  · exact (length_quoted h).trans ((tail_sublist _).length_le.trans hsub)
  · obtain ⟨-, rfl⟩ := Prod.ext_iff.mp (Option.some.inj h)
    exact (length_unquoted false _).trans hsub

theorem turn_eq_inl {x y : Str × Settings} (h : turn x = .inl y) :
    ∃ k t v, keyword (x.1.dropWhile isSpace) = some (k, t) ∧ value t = some (v, y.1) ∧
      y.2 = x.2 ++ [(k, v)] := by
  unfold turn at h
  dsimp only at h
  split_ifs at h
  cases hk : keyword (x.1.dropWhile isSpace) with
  | none => simp [hk] at h
  | some kt =>
    obtain ⟨k, t⟩ := kt
    cases hv : value t with
    | none => simp [hk, hv] at h
    | some vr =>
      obtain ⟨v, rest⟩ := vr
      simp only [hk, hv] at h
      cases h
      exact ⟨k, t, v, rfl, hv, rfl⟩

theorem turn_eq_inr {x : Str × Settings} {r : Settings} (h : turn x = .inr (some r)) : r = x.2 := by
  unfold turn at h
  dsimp only at h
  split_ifs at h
  · exact (Option.some.inj (Sum.inr.inj h)).symm
  · cases hk : keyword (x.1.dropWhile isSpace) with
    | none => simp [hk] at h
    | some kt =>
      cases hv : value kt.2 with
      | none | some vr => simp [hk, hv] at h

theorem length_turn {x y : Str × Settings} (h : turn x = .inl y) : y.1.length < x.1.length := by
  obtain ⟨k, t, v, hk, hv, -⟩ := turn_eq_inl h
  have hsub := (dropWhile_sublist (l := x.1) isSpace).length_le
  exact (length_value hv).trans_lt ((length_keyword hk).trans_le hsub)

theorem takeWhile_ne_zero {s : Str} (h0 : 0 ∉ s) : s.takeWhile (· ≠ 0) = s := by
  rw [takeWhile_eq_self_iff]
  intro b hb
  have hne : b ≠ 0 := fun h1 => h0 (h1 ▸ hb)
  simpa using hne

theorem ends_of_parse {s : Str} {r : Settings} (h0 : 0 ∉ s) (h : parse s = some r) :
    Loop.Ends turn (s, []) (some r) := by
  rw [parse, takeWhile_ne_zero h0, Option.join_eq_some_iff] at h
  exact Loop.ends_of_run h

theorem parse_of_ends {s : Str} {r : Option Settings} (h0 : 0 ∉ s)
    (h : Loop.Ends turn (s, []) r) : parse s = r := by
  obtain ⟨r', hrun, -⟩ := Loop.run_spec (f := turn) (I := fun _ => True) (Q := fun _ => True)
    (s := (s, [])) (fun x => x.1.length) (fun _ _ _ hs => ⟨trivial, length_turn hs⟩)
    (fun _ _ _ _ => trivial) trivial (Nat.lt_succ_self _)
  rw [parse, takeWhile_ne_zero h0, hrun, ← h.run_eq hrun]
  rfl

/-! ### Settings are read back -/

/-- A text that is read as a keyword. -/
structure Keyword (k : Str) : Prop where
  ne_nil : k ≠ []
  ne_equals : equals ∉ k
  not_space : ∀ b ∈ k, isSpace b = false

/-- A value that needs no quotes. -/
structure Bare (v : Str) : Prop where
  ne_nil : v ≠ []
  ne_quote : quote ∉ v
  ne_backslash : backslash ∉ v
  not_space : ∀ b ∈ v, isSpace b = false

theorem Keyword.of_all {k : Str} (hne : k ≠ [])
    (h : k.all fun b => b ≠ equals && !isSpace b) : Keyword k := by
  rw [all_eq_true] at h
  refine ⟨hne, fun hmem => ?_, fun b hb => ?_⟩
  · simpa using h equals hmem
  · exact (by simpa using h b hb : b ≠ equals ∧ isSpace b = false).2

theorem Bare.of_all {v : Str} (hne : v ≠ [])
    (h : v.all fun b => b ≠ quote && b ≠ backslash && !isSpace b) : Bare v := by
  rw [all_eq_true] at h
  refine ⟨hne, fun hmem => ?_, fun hmem => ?_, fun b hb => ?_⟩
  · simpa using h quote hmem
  · simpa using h backslash hmem
  · exact (by simpa using h b hb : (b ≠ quote ∧ b ≠ backslash) ∧ isSpace b = false).2

/-- A byte within quotes. -/
def escape (b : UInt8) : Str := if b = backslash ∨ b = quote then [backslash, b] else [b]

theorem dropWhile_isSpace {s : Str} (hs : ∀ b ∈ s.head?, isSpace b = false) :
    s.dropWhile isSpace = s := by
  cases s with
  | nil => rfl
  | cons b s => exact dropWhile_cons_of_neg (by simp [hs b rfl])

theorem keyword_append {k t : Str} (hk : Keyword k) :
    keyword (k ++ equals :: t) = some (k, t) := by
  have hname : (k ++ equals :: t).takeWhile (fun b => b ≠ equals && !isSpace b) = k := by
    rw [takeWhile_append_of_pos, takeWhile_cons_of_neg (by simp), append_nil]
    intro b hb
    have hne : b ≠ equals := fun h => hk.ne_equals (h ▸ hb)
    simp [hne, hk.not_space b hb]
  unfold keyword
  dsimp only
  rw [hname, drop_left, dropWhile_cons_of_neg (by decide)]
  exact if_pos rfl

theorem unquoted_cons {v : Str} {c : UInt8} (hc : c ≠ backslash) (hs : isSpace c = false) :
    unquoted false (c :: v) = (c :: (unquoted false v).1, (unquoted false v).2) := by
  simp [unquoted, hc, hs]

theorem unquoted_bare {v : Str} (hv : backslash ∉ v) (hs : ∀ b ∈ v, isSpace b = false) {b : UInt8}
    (hb : isSpace b) (rest : Str) : unquoted false (v ++ b :: rest) = (v, rest) := by
  induction v with
  | nil => simp [unquoted, hb]
  | cons c v ih =>
    have hc : c ≠ backslash := fun h => hv (h ▸ mem_cons_self)
    rw [cons_append, unquoted_cons hc (hs c mem_cons_self),
      ih (not_mem_of_not_mem_cons hv) fun b h => hs b (mem_cons_of_mem c h)]

theorem unquoted_all {v : Str} (hv : backslash ∉ v) (hs : ∀ b ∈ v, isSpace b = false) :
    unquoted false v = (v, []) := by
  induction v with
  | nil => rfl
  | cons c v ih =>
    have hc : c ≠ backslash := fun h => hv (h ▸ mem_cons_self)
    rw [unquoted_cons hc (hs c mem_cons_self),
      ih (not_mem_of_not_mem_cons hv) fun b h => hs b (mem_cons_of_mem c h)]

theorem quoted_escape (v rest : Str) :
    quoted false (v.flatMap escape ++ quote :: rest) = some (v, rest) := by
  induction v with
  | nil => rfl
  | cons b v ih =>
    rw [flatMap_cons, append_assoc, escape]
    by_cases hb : b = backslash ∨ b = quote
    · rw [if_pos hb]
      simp [quoted, ih]
    · rw [if_neg hb]
      rw [not_or] at hb
      simp [quoted, hb, ih]

theorem Bare.head {v : Str} (hv : Bare v) (s : Str) :
    (v ++ s).dropWhile isSpace = v ++ s ∧ (v ++ s).head? ≠ some quote := by
  obtain ⟨c, v, rfl⟩ := exists_cons_of_ne_nil hv.ne_nil
  refine ⟨dropWhile_isSpace ?_, fun h => ?_⟩
  · intro b hb
    exact hv.not_space b (Option.some.inj hb ▸ mem_cons_self)
  · exact hv.ne_quote (Option.some.inj h ▸ mem_cons_self)

theorem value_bare {v : Str} (hv : Bare v) {b : UInt8} (hb : isSpace b) (rest : Str) :
    value (v ++ b :: rest) = some (v, rest) := by
  obtain ⟨hdrop, hhead⟩ := hv.head (b :: rest)
  rw [value, hdrop, if_neg hhead, unquoted_bare hv.ne_backslash hv.not_space hb]

theorem value_bare_last {v : Str} (hv : Bare v) : value v = some (v, []) := by
  obtain ⟨hdrop, hhead⟩ := hv.head []
  rw [append_nil] at hdrop hhead
  rw [value, hdrop, if_neg hhead, unquoted_all hv.ne_backslash hv.not_space]

theorem value_quoted (v rest : Str) :
    value (quote :: (v.flatMap escape ++ quote :: rest)) = some (v, rest) := by
  rw [value, dropWhile_cons_of_neg (by decide), List.head?_cons, if_pos rfl, tail_cons,
    quoted_escape]

theorem dropWhile_keyword {k : Str} (hk : Keyword k) (t : Str) :
    (k ++ t).dropWhile isSpace = k ++ t := by
  obtain ⟨c, k, rfl⟩ := exists_cons_of_ne_nil hk.ne_nil
  refine dropWhile_isSpace fun b hb => ?_
  exact hk.not_space b (Option.some.inj hb ▸ mem_cons_self)

/-- **A setting**, perhaps after white space. -/
theorem turn_setting {sp k t v rest : Str} (acc : Settings) (hsp : ∀ b ∈ sp, isSpace b)
    (hk : Keyword k) (hv : value t = some (v, rest)) :
    turn (sp ++ (k ++ equals :: t), acc) = .inl (rest, acc ++ [(k, v)]) := by
  have hdrop : (sp ++ (k ++ equals :: t)).dropWhile isSpace = k ++ equals :: t := by
    rw [dropWhile_append_of_pos hsp, dropWhile_keyword hk]
  unfold turn
  dsimp only
  rw [hdrop, if_neg (by simp), keyword_append hk]
  dsimp only
  rw [hv]

theorem not_space_of_unquoted {s : Str} (hs : backslash ∉ s) :
    ∀ b ∈ (unquoted false s).1, isSpace b = false := by
  induction s with
  | nil => exact fun b hb => absurd hb not_mem_nil
  | cons c s ih =>
    by_cases hsp : isSpace c
    · simp [unquoted, hsp]
    · have hc : c ≠ backslash := fun h => hs (h ▸ mem_cons_self)
      rw [unquoted_cons hc (Bool.eq_false_iff.mpr hsp)]
      intro b hb
      rcases mem_cons.mp hb with rfl | hb
      · exact Bool.eq_false_iff.mpr hsp
      · exact ih (not_mem_of_not_mem_cons hs) b hb

theorem not_space_of_value {s v rest : Str} (hq : quote ∉ s) (hs : backslash ∉ s)
    (h : value s = some (v, rest)) : ∀ b ∈ v, isSpace b = false := by
  have hsub : (s.dropWhile isSpace).Sublist s := dropWhile_sublist _
  unfold value at h
  dsimp only at h
  rw [if_neg fun hh => hq (hsub.subset (mem_of_head? hh))] at h
  obtain ⟨rfl, -⟩ := Prod.ext_iff.mp (Option.some.inj h)
  exact not_space_of_unquoted fun hb => hs (hsub.subset hb)

theorem isPrefix_of_ends {x : Str × Settings} {r : Settings} (h : Loop.Ends turn x (some r)) :
    x.2 <+: r := by
  obtain ⟨y, hl, hy⟩ := h
  have hkeep : x.2 <+: y.2 := by
    refine hl.invariant (I := fun y => x.2 <+: y.2) (fun y y' hI hs => ?_) prefix_rfl
    obtain ⟨k, t, v, -, -, hy'⟩ := turn_eq_inl hs
    exact hy' ▸ hI.trans (prefix_append _ _)
  exact turn_eq_inr hy ▸ hkeep

theorem value_of_ends {k t : Str} {acc r : Settings} (hk : Keyword k)
    (h : Loop.Ends turn (k ++ equals :: t, acc) (some r)) :
    ∃ v rest, value t = some (v, rest) ∧ acc ++ [(k, v)] <+: r := by
  obtain ⟨y, hl, hy⟩ := h
  rcases Relation.ReflTransGen.cases_head hl with rfl | ⟨x, hx, hl⟩
  · -- the loop does not leave before a keyword, except without a value
    simp only [turn, dropWhile_keyword hk, keyword_append hk] at hy
    rw [if_neg (by simp)] at hy
    cases hv : value t <;> simp [hv] at hy
  · obtain ⟨k', t', v, hkey, hval, hacc⟩ := turn_eq_inl hx
    rw [dropWhile_keyword hk, keyword_append hk] at hkey
    cases hkey
    exact ⟨v, x.1, hval, hacc ▸ isPrefix_of_ends ⟨y, hl, hy⟩⟩

theorem turn_nil (acc : Settings) : turn ([], acc) = .inr (some acc) := rfl

end ConnInfo

end Lib
