import PgZero.Abi
import PgZero.Lib.Ascii
import PgZero.Lib.Bytes
import PgZero.Lib.Loop
import PgZero.Lib.PathNames

/-!
# Absolute paths

`__wrap_realpath` of libpgzero. The stack of components is the text in a buffer of fixed size: one
is popped by going back to the last slash.

* **`realpath_normalises`**.
-/

set_option autoImplicit false

namespace PgZero.Guest

open Lib GoPath List ByteMem

/-- The size of the buffer. -/
def PATH_MAX : ℕ := 4096

/-! ### The loop -/

/-- The rest of `buf` at `p`, and the first `len` bytes of `out`. -/
structure RealpathState where
  p : Str
  out : ByteMem
  len : ℕ

/-- How the loop ends. -/
inductive RealpathExit
  /-- A write outside `out`. -/
  | fault
  | nameTooLong
  | done (out : ByteMem) (len : ℕ)

/-- `while (len > 0 && out[len - 1] != '/') len--;` -/
def backToSlash (out : ByteMem) : ℕ → ℕ
  | 0 => 0
  | len + 1 => if out len ≠ slash then backToSlash out len else len + 1

/-- The length of `out` without its last component. -/
def popLen (out : ByteMem) (len : ℕ) : ℕ :=
  let len := backToSlash out len
  if 0 < len then len - 1 else len

/-- `out[len++] = '/'; memcpy(out + len, p, n); len += n; out[len] = '\0';` -/
def pushName (out : ByteMem) (len : ℕ) (name : Str) : Option ByteMem := do
  let out ← out.put PATH_MAX len [slash]
  let out ← out.put PATH_MAX (len + 1) name
  out.put PATH_MAX (len + 1 + name.length) [0]

/-- A turn of the loop, for one name. -/
def realpathTurn (s : RealpathState) : RealpathState ⊕ RealpathExit :=
  if s.p = [] then .inr (.done s.out s.len)
  else
    let p := s.p.dropWhile (· = slash)
    -- the `n` bytes before `end`
    let name := p.takeWhile (· ≠ slash)
    let next := p.drop name.length
    if name = [] ∨ name = dot then .inl { s with p := next }
    else if name = dotdot then
      let len := popLen s.out s.len
      match s.out.put PATH_MAX len [0] with
      | none => .inr .fault
      | some out => .inl ⟨next, out, len⟩
    else if PATH_MAX < s.len + 1 + name.length + 1 then .inr .nameTooLong
    else
      match pushName s.out s.len name with
      | none => .inr .fault
      | some out => .inl ⟨next, out, s.len + 1 + name.length⟩

/-- The loop over `buf`, with what happened to be in `out` before. -/
def normalise (junk : ByteMem) (buf : Str) : Option RealpathExit :=
  Loop.run realpathTurn (buf.length + 1) ⟨buf, junk.store 0 [0], 0⟩

/-! ### The function -/

/-- The error it leaves. -/
inductive RealpathErrno
  | EINVAL | ENAMETOOLONG | ENOMEM
  /-- As `getcwd` or `stat` left it. -/
  | call (e : Errno)

/-- How the calls of the function go. -/
structure RealpathCalls where
  getcwd : Except Errno CString
  stat : Str → Except Errno Unit
  strdup : Str → Bool

/-- What `realpath` returns. -/
inductive RealpathAnswer
  | fault
  | null (e : RealpathErrno)
  | path (s : Str)

/-- `out` after the loop. -/
def realpathOut (out : ByteMem) (len : ℕ) : ByteMem :=
  if len = 0 then out.store 0 [slash, 0] else out

/-- What is returned for the path in `out`; `resolved` says whether there is a buffer for it. -/
def RealpathCalls.answer (calls : RealpathCalls) (resolved : Bool) (s : Str) : RealpathAnswer :=
  match calls.stat s with
  | .error e => .null (.call e)
  | .ok () => if resolved || calls.strdup s then .path s else .null .ENOMEM

/-- The path in `buf`. -/
def RealpathCalls.buf (calls : RealpathCalls) (path : Str) : Except RealpathErrno Str :=
  if path.head? ≠ some slash then
    match calls.getcwd with
    | .error e => .error (.call e)
    | .ok cwd =>
      if PATH_MAX < cwd.bytes.length + 1 + path.length + 1 then .error .ENAMETOOLONG
      else .ok (cwd.bytes ++ [slash] ++ path)
  else if PATH_MAX < path.length + 1 then .error .ENAMETOOLONG
  else .ok path

/-- `__wrap_realpath`; it would be `none` if the loop went on. -/
def realpath (calls : RealpathCalls) (junk : ByteMem) (resolved : Bool) (path : Option CString) :
    Option RealpathAnswer :=
  match path with
  | none => some (.null .EINVAL)
  | some path =>
    match calls.buf path.bytes with
    | .error e => some (.null e)
    | .ok buf =>
      (normalise junk buf).map fun exit =>
        match exit with
        | .fault => .fault
        | .nameTooLong => .null .ENAMETOOLONG
        | .done out len => calls.answer resolved ((realpathOut out len).cstring PATH_MAX)

/-! ### The stack of components -/

/-- One component, with the last one of the stack first. -/
def pushComponent (stack : List Str) (c : Str) : List Str :=
  if c = [] ∨ c = dot then stack else if c = dotdot then stack.tail else c :: stack

/-- The stack after the components of a path, the first one first. -/
def stackOf (s : Str) : List Str := ((split s).foldl pushComponent []).reverse

/-- The path that is normalised. -/
def fullPath (cwd path : CString) : Str :=
  if isAbs path.bytes then path.bytes else cwd.bytes ++ [slash] ++ path.bytes

theorem pushComponent_eq_cleanStep {stack : List Str} (h : ∀ q ∈ stack, Plain q) (c : Str) :
    pushComponent stack c = cleanStep true stack c := by
  unfold pushComponent cleanStep
  congr 2
  cases stack with
  | nil => rfl
  | cons q stack => exact (if_neg (h q mem_cons_self).ne_dotdot).symm

theorem foldl_pushComponent {stack cs : List Str} (h : ∀ q ∈ stack, Plain q)
    (hcs : ∀ c ∈ cs, slash ∉ c) :
    cs.foldl pushComponent stack = cs.foldl (cleanStep true) stack := by
  induction cs generalizing stack with
  | nil => rfl
  | cons c cs ih =>
    rw [foldl_cons, foldl_cons, pushComponent_eq_cleanStep h]
    refine ih (cleanStep_plain h (hcs c mem_cons_self)) fun d hd => ?_
    exact hcs d (mem_cons_of_mem c hd)

theorem stackOf_eq_kept {s : Str} (h : isAbs s) : stackOf s = kept s := by
  rw [stackOf, kept, h, foldl_pushComponent (by simp) fun c hc => slash_not_mem_of_mem_split hc]

theorem plain_stackOf {s : Str} (h : isAbs s) : ∀ q ∈ stackOf s, Plain q :=
  stackOf_eq_kept h ▸ plain_kept h

theorem pushComponent_nil (stack : List Str) : pushComponent stack [] = stack := if_pos (Or.inl rfl)

theorem split_slash_cons (s : Str) : split (slash :: s) = [] :: split s := split_append [] s

theorem foldl_push_slashes (stack : List Str) (s : Str) :
    (split s).foldl pushComponent stack =
      (split (s.dropWhile (· = slash))).foldl pushComponent stack := by
  induction s with
  | nil => rfl
  | cons a s ih =>
    by_cases ha : a = slash
    · subst ha
      rw [split_slash_cons, foldl_cons, pushComponent_nil, ih,
        dropWhile_cons_of_pos (by simp)]
    · rw [dropWhile_cons_of_neg (by simpa using ha)]

theorem split_of_not_mem {s : Str} (h : slash ∉ s) : split s = [s] := by
  have hs := split_spell (cons_ne_nil s []) (by simpa using h)
  rwa [spell_singleton] at hs

/-- The first component is pushed; the rest begins at the slash after it. -/
theorem foldl_push_name (stack : List Str) {name next : Str} (hname : slash ∉ name)
    (hnext : next = [] ∨ isAbs next) :
    (split (name ++ next)).foldl pushComponent stack =
      (split next).foldl pushComponent (pushComponent stack name) := by
  rcases hnext with rfl | hnext
  · rw [append_nil, split_of_not_mem hname]
    exact (pushComponent_nil _).symm
  · obtain ⟨t, rfl⟩ := List.head?_eq_some_iff.mp (of_decide_eq_true hnext)
    have h := split_append name t
    rw [append_assoc, singleton_append] at h
    rw [h, split_of_not_mem hname, split_slash_cons, foldl_cons, pushComponent_nil]
    rfl

/-! ### The stack in the buffer -/

/-- Every component with its slash. -/
def stackText (stack : List Str) : Str := stack.reverse.flatMap (slash :: ·)

theorem stackText_cons (q : Str) (stack : List Str) :
    stackText (q :: stack) = stackText stack ++ slash :: q := by
  simp [stackText]

theorem stackText_reverse {ps : List Str} (h : ps ≠ []) :
    stackText ps.reverse = slash :: spell ps := by
  rw [stackText, reverse_reverse]
  induction ps with
  | nil => exact absurd rfl h
  | cons p ps ih =>
    by_cases hps : ps = []
    · subst hps
      simp [spell_singleton]
    · have happ := spell_append (cons_ne_nil p []) hps
      rw [singleton_append, spell_singleton] at happ
      rw [flatMap_cons, ih hps, happ]
      simp

theorem backToSlash_eq {out : ByteMem} {len : ℕ} {a q : Str} (hq : slash ∉ q)
    (h : out.load 0 len = a ++ slash :: q) : backToSlash out len = a.length + 1 := by
  have hlen : len = a.length + 1 + q.length := by
    have hl := congrArg List.length h
    rw [length_load, length_append, length_cons] at hl
    omega
  induction q using List.reverseRecOn generalizing len with
  | nil =>
    rw [length_nil, Nat.add_zero] at hlen
    subst hlen
    have hat := @getElem?_load out 0 _ a.length (Nat.lt_succ_self _)
    rw [h, List.getElem?_append_right (Nat.le_refl _), Nat.sub_self, Nat.zero_add] at hat
    have hs : out a.length = slash := (Option.some.inj hat).symm
    rw [backToSlash, if_neg (not_not.mpr hs)]
  | append_singleton q c ih =>
    rw [length_append, length_singleton, ← Nat.add_assoc] at hlen
    subst hlen
    rw [load_add, load_one, Nat.zero_add, ← cons_append,
      ← append_assoc] at h
    obtain ⟨hload, hc⟩ := append_inj' h rfl
    have hne : out (a.length + 1 + q.length) ≠ slash := by
      rw [(List.cons.inj hc).1]
      exact fun heq => hq (heq ▸ by simp)
    rw [backToSlash, if_pos hne]
    exact ih (fun hmem => hq (mem_append_left _ hmem)) hload rfl

/-- `out` holds the stack, and ends there. -/
structure Holds (out : ByteMem) (len : ℕ) (stack : List Str) : Prop where
  plain : ∀ q ∈ stack, Plain q
  nul : ∀ q ∈ stack, 0 ∉ q
  text : out.load 0 len = stackText stack
  ends : out len = 0

section

variable {out out' : ByteMem} {len : ℕ} {stack : List Str}

theorem Holds.popLen_eq (h : Holds out len stack) :
    popLen out len = (stackText stack.tail).length := by
  have hlen := congrArg List.length h.text
  rw [length_load] at hlen
  cases stack with
  | nil =>
    have h0 : len = 0 := hlen
    rw [h0]
    rfl
  | cons q stack =>
    have hback := backToSlash_eq (h.plain q mem_cons_self).slash
      (h.text.trans (stackText_cons q stack))
    rw [popLen, hback, if_pos (Nat.succ_pos _)]
    rfl

theorem Holds.popLen_le (h : Holds out len stack) : popLen out len ≤ len := by
  have hlen := congrArg List.length h.text
  rw [length_load] at hlen
  rw [h.popLen_eq, hlen]
  cases stack with
  | nil => exact Nat.le_refl _
  | cons q stack =>
    rw [stackText_cons, length_append]
    exact Nat.le_add_right _ _

theorem Holds.pop (h : Holds out len stack) :
    Holds (out.store (popLen out len) [0]) (popLen out len) stack.tail where
  plain q hq := h.plain q (mem_of_mem_tail hq)
  nul q hq := h.nul q (mem_of_mem_tail hq)
  text := by
    have hkeep : (out.store (popLen out len) [0]).load 0 (popLen out len) =
        out.load 0 (popLen out len) :=
      load_congr fun a _ ha => store_of_outside (Or.inl (by omega))
    obtain ⟨k, hk⟩ := Nat.exists_eq_add_of_le h.popLen_le
    have htext := h.text
    rw [hk, load_add] at htext
    rw [hkeep]
    cases stack with
    | nil => exact (append_eq_nil_iff.mp htext).1
    | cons q stack =>
      rw [stackText_cons] at htext
      refine (append_inj htext ?_).1
      rw [length_load, h.popLen_eq]
      rfl
  ends := store_singleton_self _ _ _

theorem pushName_eq {name : Str} (h : len + 1 + name.length + 1 ≤ PATH_MAX) :
    pushName out len name =
      some ((out.store len (slash :: name)).store (len + 1 + name.length) [0]) := by
  have hname : out.store len (slash :: name) = (out.store len [slash]).store (len + 1) name :=
    store_append out len [slash] name
  have h1 : len + [slash].length ≤ PATH_MAX := by simp only [length_singleton]; omega
  have h2 : len + 1 + name.length ≤ PATH_MAX := by omega
  have h3 : len + 1 + name.length + [(0 : UInt8)].length ≤ PATH_MAX := h
  rw [hname, pushName, put, if_pos h1, Option.bind_eq_bind, Option.bind_some, put,
    if_pos h2, Option.bind_some, put, if_pos h3]

theorem Holds.push (h : Holds out len stack) {name : Str} (hp : Plain name) (h₀ : 0 ∉ name) :
    Holds ((out.store len (slash :: name)).store (len + 1 + name.length) [0])
      (len + 1 + name.length) (name :: stack) where
  plain := by simpa using ⟨hp, h.plain⟩
  nul := by simpa using ⟨h₀, h.nul⟩
  text := by
    have hload := load_store_end out len (slash :: name)
    rw [length_cons, Nat.add_comm name.length, ← Nat.add_assoc] at hload
    rw [stackText_cons, ← h.text, ← hload]
    exact load_congr fun a _ ha => store_of_outside (Or.inl (by omega))
  ends := store_singleton_self _ _ _

end

/-! ### The invariant -/

/-- Before each turn: `out` holds a stack on which the rest of `buf` is still to be folded. -/
structure RealpathInv (buf : Str) (s : RealpathState) : Prop where
  rest : s.p = [] ∨ isAbs s.p
  nul : 0 ∉ s.p
  fits : s.len + s.p.length ≤ buf.length
  stack : ∃ stack, Holds s.out s.len stack ∧
    (split s.p).foldl pushComponent stack = (split buf).foldl pushComponent []

theorem realpath_parts {p : Str} (hp : p ≠ []) (hrest : p = [] ∨ isAbs p) :
    ∃ name next, p.dropWhile (· = slash) = name ++ next ∧
      (p.dropWhile (· = slash)).takeWhile (· ≠ slash) = name ∧
      slash ∉ name ∧ (next = [] ∨ isAbs next) ∧ name.length + next.length < p.length ∧
      name.Sublist p ∧ next.Sublist p := by
  obtain ⟨t, rfl⟩ := List.head?_eq_some_iff.mp (of_decide_eq_true (hrest.resolve_left hp))
  rw [dropWhile_cons_of_pos (by simp)]
  generalize hd : t.dropWhile (· = slash) = d
  have hsub : d.Sublist t := hd ▸ dropWhile_sublist _
  refine ⟨d.takeWhile (· ≠ slash), d.dropWhile (· ≠ slash), takeWhile_append_dropWhile.symm,
    rfl, ?_, ?_, ?_, ?_, ?_⟩
  · intro hmem
    simpa using mem_takeWhile_imp hmem
  · by_cases hn : d.dropWhile (· ≠ slash) = []
    · exact Or.inl hn
    · have hhead := head_dropWhile_not (· ≠ slash) hn
      refine Or.inr (decide_eq_true ?_)
      rw [List.head?_eq_some_head hn]
      simpa using hhead
  · rw [← length_append, takeWhile_append_dropWhile, length_cons]
    exact Nat.lt_succ_of_le hsub.length_le
  · exact ((takeWhile_sublist _).trans hsub).cons _
  · exact ((dropWhile_sublist _).trans hsub).cons _

/-- **A turn keeps the invariant**, and never fails. -/
theorem RealpathInv.turn {buf : Str} {s : RealpathState} (hbuf : buf.length < PATH_MAX)
    (h : RealpathInv buf s) (hp : s.p ≠ []) :
    ∃ s', realpathTurn s = .inl s' ∧ RealpathInv buf s' ∧ s'.p.length < s.p.length := by
  obtain ⟨name, next, hparts, hname, hslash, hnext, hlt, hsub, hsub'⟩ := realpath_parts hp h.rest
  obtain ⟨stack, hholds, hfold⟩ := h.stack
  rw [foldl_push_slashes, hparts, foldl_push_name stack hslash hnext] at hfold
  have hdrop : (s.p.dropWhile (· = slash)).drop name.length = next := by
    rw [hparts, drop_left]
  have hnul : 0 ∉ next := fun hmem => h.nul (hsub'.subset hmem)
  have hfits := h.fits
  unfold realpathTurn
  rw [if_neg hp]
  dsimp only
  rw [hname, hdrop]
  by_cases h1 : name = [] ∨ name = dot
  · rw [if_pos h1]
    rw [pushComponent, if_pos h1] at hfold
    exact ⟨_, rfl, ⟨hnext, hnul, by dsimp only; omega, stack, hholds, hfold⟩, by dsimp only; omega⟩
  rw [if_neg h1]
  by_cases h2 : name = dotdot
  · rw [pushComponent, if_neg h1, if_pos h2] at hfold
    have hle := hholds.popLen_le
    have hput : s.out.put PATH_MAX (popLen s.out s.len) [0] =
        some (s.out.store (popLen s.out s.len) [0]) := by
      rw [put, if_pos]
      rw [length_singleton]
      omega
    rw [if_pos h2, hput]
    exact ⟨_, rfl, ⟨hnext, hnul, by dsimp only; omega, stack.tail, hholds.pop, hfold⟩,
      by dsimp only; omega⟩
  · rw [pushComponent, if_neg h1, if_neg h2] at hfold
    rw [not_or] at h1
    have hplain : Plain name := ⟨h1.1, hslash, h1.2, h2⟩
    rw [if_neg h2, if_neg (by omega), pushName_eq (by omega)]
    refine ⟨_, rfl, ⟨hnext, hnul, by dsimp only; omega, name :: stack, ?_, hfold⟩,
      by dsimp only; omega⟩
    exact hholds.push hplain fun hmem => h.nul (hsub.subset hmem)

theorem RealpathInv.leave {buf : Str} {s : RealpathState} (h : RealpathInv buf s) (hp : s.p = []) :
    s.len ≤ buf.length ∧ Holds s.out s.len (stackOf buf).reverse := by
  obtain ⟨stack, hholds, hfold⟩ := h.stack
  have hstack : (stackOf buf).reverse = stack := by
    rw [stackOf, reverse_reverse, ← hfold, hp]
    exact pushComponent_nil stack
  exact ⟨(Nat.le_add_right _ _).trans h.fits, hstack ▸ hholds⟩

theorem normalise_spec (junk : ByteMem) {buf : Str} (habs : isAbs buf) (hnul : 0 ∉ buf)
    (hbuf : buf.length < PATH_MAX) :
    ∃ out len, normalise junk buf = some (.done out len) ∧ len ≤ buf.length ∧
      Holds out len (stackOf buf).reverse := by
  have hinit : RealpathInv buf ⟨buf, junk.store 0 [0], 0⟩ := by
    refine ⟨Or.inr habs, hnul, by simp, [], ⟨by simp, by simp, rfl, ?_⟩, rfl⟩
    exact store_singleton_self junk 0 0
  have hturn : ∀ s s', RealpathInv buf s → realpathTurn s = .inl s' →
      RealpathInv buf s' ∧ s'.p.length < s.p.length := by
    intro s s' hI hs
    by_cases hp : s.p = []
    · rw [realpathTurn, if_pos hp] at hs
      cases hs
    · obtain ⟨s1, hs1, hkeep⟩ := hI.turn hbuf hp
      rw [hs1] at hs
      cases hs
      exact hkeep
  have hleave : ∀ s r, RealpathInv buf s → realpathTurn s = .inr r →
      ∃ out len, r = .done out len ∧ len ≤ buf.length ∧ Holds out len (stackOf buf).reverse := by
    intro s r hI hs
    by_cases hp : s.p = []
    · rw [realpathTurn, if_pos hp] at hs
      exact ⟨s.out, s.len, (Sum.inr.inj hs).symm, hI.leave hp⟩
    · obtain ⟨s1, hs1, -⟩ := hI.turn hbuf hp
      rw [hs1] at hs
      cases hs
  obtain ⟨r, hrun, out, len, rfl, hend⟩ :=
    Loop.run_spec (fun s => s.p.length) hturn hleave hinit (Nat.lt_succ_self _)
  exact ⟨out, len, hrun, hend⟩

theorem Holds.cstring_realpathOut {out : ByteMem} {len : ℕ} {ps : List Str}
    (h : Holds out len ps.reverse) (hlen : len < PATH_MAX) :
    (realpathOut out len).cstring PATH_MAX = slash :: spell ps := by
  have hl := congrArg List.length h.text
  rw [length_load] at hl
  by_cases hps : ps = []
  · subst hps
    have h₀ : len = 0 := hl
    rw [realpathOut, if_pos h₀]
    exact cstring_of_load (n := 1) rfl (by decide) rfl (by decide)
  · rw [stackText_reverse hps] at hl
    have hne : len ≠ 0 := by
      rw [hl]
      exact Nat.succ_ne_zero _
    rw [realpathOut, if_neg hne, ← stackText_reverse hps]
    refine cstring_of_load h.text ?_ h.ends hlen
    intro hmem
    obtain ⟨q, hq, hmem⟩ := mem_flatMap.mp hmem
    rcases mem_cons.mp hmem with h1 | h1
    · exact absurd h1 (by decide)
    · exact h.nul q (mem_reverse.mp hq) h1

/-! ### The normal form -/

/-- The path with the components of the stack. -/
def normalForm (s : Str) : Str := slash :: spell (stackOf s)

theorem isAbs_normalForm (s : Str) : isAbs (normalForm s) := rfl

theorem stackOf_normalForm {s : Str} (h : isAbs s) : stackOf (normalForm s) = stackOf s := by
  have hplain := plain_stackOf h
  rw [stackOf_eq_kept (isAbs_normalForm s), kept, isAbs_normalForm, normalForm, split_slash_cons,
    foldl_cons, foldl_cleanStep_spell hplain]
  simp [cleanStep]

/-- The loop leaves the normal form in `out`; it is not longer than the path. -/
theorem normalise_normalForm (junk : ByteMem) {buf : Str} (habs : isAbs buf) (hnul : 0 ∉ buf)
    (hbuf : buf.length < PATH_MAX) :
    (∃ out len, normalise junk buf = some (.done out len) ∧
      (realpathOut out len).cstring PATH_MAX = normalForm buf) ∧
    (normalForm buf).length ≤ buf.length ∧ 0 ∉ normalForm buf := by
  obtain ⟨out, len, hrun, hlen, hholds⟩ := normalise_spec junk habs hnul hbuf
  have hstr := hholds.cstring_realpathOut (hlen.trans_lt hbuf)
  refine ⟨⟨out, len, hrun, hstr⟩, ?_, ?_⟩
  · by_cases hps : stackOf buf = []
    · obtain ⟨t, rfl⟩ := List.head?_eq_some_iff.mp (of_decide_eq_true habs)
      rw [normalForm, hps]
      exact Nat.succ_le_succ (Nat.zero_le _)
    · have hl := congrArg List.length hholds.text
      rw [length_load, stackText_reverse hps] at hl
      exact hl ▸ hlen
  · rw [normalForm, ← hstr, cstring]
    intro hmem
    simpa using mem_takeWhile_imp hmem

/-- The components of a normal form are names; only the root ends in a slash. -/
theorem normalForm_components {s : Str} (h : isAbs s) :
    (normalForm s = [slash] ∨ ∃ names, names ≠ [] ∧ (∀ q ∈ names, Plain q) ∧
      split (normalForm s) = [] :: names) ∧
    (endsInSlash (normalForm s) → normalForm s = [slash]) := by
  have hplain := plain_stackOf h
  by_cases hps : stackOf s = []
  · have hroot : normalForm s = [slash] := by
      rw [normalForm, hps]
      rfl
    exact ⟨Or.inl hroot, fun _ => hroot⟩
  · refine ⟨Or.inr ⟨stackOf s, hps, hplain, ?_⟩, fun hend => ?_⟩
    · rw [normalForm, split_slash_cons, split_plain hps hplain]
    · have hnot := endsInSlash_spell hps hplain
      rw [endsInSlash, normalForm, List.getLast?_cons,
        List.getLast?_eq_some_getLast (spell_ne_nil hps hplain)] at hend
      rw [endsInSlash, List.getLast?_eq_some_getLast (spell_ne_nil hps hplain)] at hnot
      rw [Option.getD_some] at hend
      exact absurd hend (by simpa using hnot)

theorem isAbs_fullPath {cwd path : CString} (hcwd : isAbs cwd.bytes) :
    isAbs (fullPath cwd path) := by
  unfold fullPath
  split_ifs with h
  · exact h
  · have hne : cwd.bytes ≠ [] := by
      rintro h₀
      rw [h₀] at hcwd
      cases hcwd
    rwa [append_assoc, isAbs_append hne]

theorem nul_fullPath (cwd path : CString) : 0 ∉ fullPath cwd path := by
  unfold fullPath
  split_ifs
  · exact path.nul
  · have h₀ : (0 : UInt8) ≠ slash := by decide
    simp [cwd.nul, path.nul, h₀]

theorem buf_eq_fullPath {calls : RealpathCalls} {cwd path : CString}
    (hget : calls.getcwd = .ok cwd) (hfit : (fullPath cwd path).length < PATH_MAX) :
    calls.buf path.bytes = .ok (fullPath cwd path) := by
  unfold RealpathCalls.buf
  unfold fullPath isAbs at *
  by_cases h : path.bytes.head? = some slash
  · rw [if_neg (not_not.mpr h), if_pos (decide_eq_true h)] at *
    rw [if_neg (by omega)]
  · have hd : ¬ decide (path.bytes.head? = some slash) = true := by simpa using h
    rw [if_neg hd] at *
    simp only [length_append, length_singleton] at hfit
    rw [if_pos h, hget]
    dsimp only
    rw [if_neg (by omega)]

/-- **Normalisation.** The loop ends without a write outside `out` and leaves the slash and the
stack of components there; the result is absolute and its own normal form. -/
theorem realpath_normalises (calls : RealpathCalls) (junk junk' : ByteMem) (resolved : Bool)
    (cwd path : CString) (hget : calls.getcwd = .ok cwd) (hcwd : isAbs cwd.bytes)
    (hfit : (fullPath cwd path).length < PATH_MAX) :
    let s := slash :: spell (stackOf (fullPath cwd path))
    (∃ out len, normalise junk (fullPath cwd path) = some (.done out len) ∧
      (realpathOut out len).cstring PATH_MAX = s) ∧
    realpath calls junk resolved (some path) = some (calls.answer resolved s) ∧
    isAbs s ∧
    (s = [slash] ∨ ∃ names, names ≠ [] ∧ (∀ q ∈ names, Plain q) ∧ split s = [] :: names) ∧
    (endsInSlash s → s = [slash]) ∧
    ∃ out len, normalise junk' s = some (.done out len) ∧
      (realpathOut out len).cstring PATH_MAX = s := by
  have habs := @isAbs_fullPath cwd path hcwd
  obtain ⟨⟨out, len, hrun, hout⟩, hle, hnul⟩ :=
    normalise_normalForm junk habs (nul_fullPath cwd path) hfit
  obtain ⟨hnames, hend⟩ := normalForm_components habs
  obtain ⟨⟨out', len', hrun', hout'⟩, -, -⟩ :=
    normalise_normalForm junk' (isAbs_normalForm _) hnul (hle.trans_lt hfit)
  refine ⟨⟨out, len, hrun, hout⟩, ?_, rfl, hnames, hend, out', len', hrun', ?_⟩
  · simp only [realpath, buf_eq_fullPath hget hfit, hrun, Option.map_some, hout]
    rfl
  · rw [hout', normalForm, stackOf_normalForm habs]

/-- `../b//./c/..` in the directory `/a/x`. -/
theorem realpath_normalises_relative :
    let cwd : CString := ⟨[47, 97, 47, 120], by decide⟩
    let path : CString := ⟨[46, 46, 47, 98, 47, 47, 46, 47, 99, 47, 46, 46], by decide⟩
    let calls : RealpathCalls := ⟨.ok cwd, fun _ => .ok (), fun _ => true⟩
    realpath calls (fun _ => 7) false (some path) = some (.path [47, 97, 47, 98]) := by
  intro cwd path calls
  have h := realpath_normalises calls (fun _ => 7) (fun _ => 7) false cwd path rfl (by decide)
    (by decide)
  exact h.2.1

end PgZero.Guest
