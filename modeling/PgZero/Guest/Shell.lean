import PgZero.Lib.Ascii
import PgZero.Lib.Bytes
import PgZero.Lib.Loop

/-!
# Command lines

`parse_command` of libpgzero: one pointer reads the line and one writes the words to a buffer as
long as the line. The line is read with its last byte, the zero byte, and every read is checked:
reads behind that byte, writes outside the buffer and writes outside `argv` are faults.
-/

set_option autoImplicit false

namespace PgZero.Guest

open Lib

/-- The arguments that `argv` has room for, besides the null pointer. -/
def MAX_ARGS : ℕ := 256

/-- What a descriptor of the child becomes. -/
inductive Redirect
  | keep
  | devnull
  | copy (src : ℕ)
  deriving DecidableEq, Repr

/-- A parsed command; the arguments are positions in `storage`. -/
structure Command where
  argv : List ℕ
  redirect : ℕ → Redirect
  storage : ByteMem
  /-- `*devnull` is a descriptor. -/
  opened : Bool

/-- A word that is read, and the redirection it is for. -/
structure WordPc where
  redirFd : Option ℕ
  word : ℕ
  haveWord : Bool

/-- The loop that the parser is in. -/
inductive ShellPc
  | top
  | word (w : WordPc)
  /-- between double quotes -/
  | dquote (w : WordPc)

/-- The bytes from `p` on, to the one that ends the line, and the first `out` bytes of the
buffer. -/
structure Shell extends Command where
  pc : ShellPc
  p : Str
  out : ℕ

/-- How the parser ends. -/
inductive ShellExit
  /-- A read or a write outside. -/
  | fault
  | unsupported
  | noMemory
  /-- `host_devnull` failed. -/
  | noDevnull
  | done (cmd : Command)

/-! ### Reads and writes -/

/-- `*p` and `p + 1`. Behind the end of the line there is nothing to read. -/
def deref (p : Str) (k : UInt8 → Str → Shell ⊕ ShellExit) : Shell ⊕ ShellExit :=
  match p with
  | [] => .inr .fault
  | c :: q => k c q

/-- `while (isspace(*p)) p++` -/
def skipSpace (k : Str → Shell ⊕ ShellExit) : Str → Shell ⊕ ShellExit
  | [] => .inr .fault
  | c :: q => if isSpace c then skipSpace k q else k (c :: q)

/-- `strchr(p, c)`: how far the first `c` is, or that the string ends before it. -/
def strchr (c : UInt8) (k : Option ℕ → Shell ⊕ ShellExit) : Str → Shell ⊕ ShellExit
  | [] => .inr .fault
  | d :: q =>
    if d = c then k (some 0) else if d = 0 then k none else strchr c (k <| ·.map (· + 1)) q

/-- Write `l` to a buffer of `cap` bytes and go on. -/
def Shell.emit (cap : ℕ) (s : Shell) (l : Str) (k : Shell → Shell ⊕ ShellExit) :
    Shell ⊕ ShellExit :=
  match s.storage.put cap s.out l with
  | none => .inr .fault
  | some m => k { s with storage := m, out := s.out + l.length }

/-! ### The parser -/

/-- `cmd->redirect[fd] = r` -/
def Command.setRedirect (c : Command) (fd : ℕ) (r : Redirect) : Command :=
  { c with redirect := Function.update c.redirect fd r }

/-- The string that was written from `word` on. -/
def Shell.text (s : Shell) (word : ℕ) : Str :=
  (s.storage.load word (s.out - word)).takeWhile (· ≠ 0)

/-- The number that a digit stands for. -/
def digit (c : UInt8) : ℕ := c.toNat - 48

/-- `<` or `>` -/
def isArrow (c : UInt8) : Bool := c = 62 || c = 60

/-- `word = out`, with `p` at the word and its redirection, if there is one. -/
def Shell.beginWord (s : Shell) (fd : Option ℕ) (p : Str) : Shell ⊕ ShellExit :=
  .inl { s with pc := .word ⟨fd, s.out, false⟩, p := p }

/-- `[n]>&m`, with `p` after it. -/
def Shell.copy (s : Shell) (fd src : ℕ) (p : Str) : Shell ⊕ ShellExit :=
  if 2 < fd ∨ 2 < src then .inr .unsupported
  else .inl { s with toCommand := s.toCommand.setRedirect fd (.copy src), p := p }

/-- What follows the first arrow of a redirection. -/
def Shell.operator (s : Shell) (fd : ℕ) (p : Str) : Shell ⊕ ShellExit :=
  deref p fun c q =>
    let p := if c = 62 then q else p
    deref p fun c q =>
      -- `p[1]` is read after an `&` only
      if c = 38 then
        deref q fun d r =>
          if isDigit d then s.copy fd (digit d) r else skipSpace (s.beginWord (some fd)) p
      else skipSpace (s.beginWord (some fd)) p

/-- The descriptor of a redirection that is written without one. -/
def defaultFd (arrow : UInt8) : ℕ := if arrow = 60 then 0 else 1

/-- The end of the line. -/
def Shell.finish (s : Shell) : Shell ⊕ ShellExit :=
  if s.argv = [] then .inr .unsupported
  -- `argv[argc] = NULL`
  else if s.argv.length < MAX_ARGS + 1 then .inr (.done s.toCommand)
  else .inr .fault

/-- The head of the outer loop. -/
def Shell.topTurn (s : Shell) : Shell ⊕ ShellExit :=
  skipSpace (fun p => deref p fun c q =>
    if c = 0 then s.finish
    else if isArrow c then s.operator (defaultFd c) q
    -- `p[1]` is read after a digit only
    else if isDigit c then
      deref q fun a r => if isArrow a then s.operator (digit c) r else s.beginWord none p
    else s.beginWord none p) s.p

/-- A word that is the target of a redirection. -/
def Shell.redirectDone (devnullOk : Bool) (fd word : ℕ) (s : Shell) : Shell ⊕ ShellExit :=
  if 2 < fd ∨ s.text word ≠ ascii "/dev/null" then .inr .unsupported
  else if !s.opened && !devnullOk then .inr .noDevnull
  else
    let cmd := s.toCommand.setRedirect fd .devnull
    .inl { s with toCommand := { cmd with opened := true }, pc := .top }

/-- A word that is an argument. -/
def Shell.argDone (word : ℕ) (s : Shell) : Shell ⊕ ShellExit :=
  if s.argv = [] ∧ s.text word = ascii "exec" then .inl { s with pc := .top }
  else if MAX_ARGS ≤ s.argv.length then .inr .unsupported
  else if s.argv.length < MAX_ARGS + 1 then .inl { s with argv := s.argv ++ [word], pc := .top }
  else .inr .fault

/-- After a word and the byte that ends it. -/
def Shell.wordDone (devnullOk : Bool) (w : WordPc) (s : Shell) : Shell ⊕ ShellExit :=
  if !w.haveWord then .inr .unsupported
  else
    match w.redirFd with
    | some fd => s.redirectDone devnullOk fd w.word
    | none => s.argDone w.word

/-- Characters that are not supported in a word. -/
def special : Str := ascii "|&;()<>$`*?["

/-- A character that stands for itself, with `p` after it. -/
def Shell.charTurn (cap : ℕ) (s : Shell) (next : ShellPc) (c : UInt8) (p : Str) :
    Shell ⊕ ShellExit :=
  if c ∈ special then .inr .unsupported
  else s.emit cap [c] fun s => .inl { s with pc := next, p := p }

/-- A text in single quotes, with `p` after the first quote. -/
def Shell.singleTurn (cap : ℕ) (s : Shell) (next : ShellPc) (p : Str) : Shell ⊕ ShellExit :=
  strchr quote (fun k =>
    match k with
    | none => .inr .unsupported
    | some k => s.emit cap (p.take k) fun s => .inl { s with pc := next, p := p.drop (k + 1) }) p

/-- One turn of the loop over a word. -/
def Shell.wordTurn (cap : ℕ) (devnullOk : Bool) (s : Shell) (w : WordPc) : Shell ⊕ ShellExit :=
  let next := ShellPc.word { w with haveWord := true }
  deref s.p fun c q =>
    if c = 0 ∨ isSpace c then s.emit cap [0] (Shell.wordDone devnullOk w)
    else if c = quote then s.singleTurn cap next q
    else if c = dquote then .inl { s with pc := .dquote w, p := q }
    else if c = backslash then
      deref q fun d r =>
        if d = 0 then s.charTurn cap next c q
        else s.emit cap [d] fun s => .inl { s with pc := next, p := r }
    else s.charTurn cap next c q

/-- Characters that a backslash escapes between double quotes. -/
def escapable : Str := ascii "\"\\$`"

/-- One turn between double quotes. -/
def Shell.dquoteTurn (cap : ℕ) (s : Shell) (w : WordPc) : Shell ⊕ ShellExit :=
  let next := ShellPc.dquote w
  deref s.p fun c q =>
    if c = 0 then .inr .unsupported
    else if c = dquote then .inl { s with pc := .word { w with haveWord := true }, p := q }
    else if c = backslash then
      deref q fun d r =>
        -- `strchr` also finds the zero byte that ends its string
        if d = 0 ∨ d ∈ escapable then s.emit cap [d] fun s => .inl { s with pc := next, p := r }
        else s.emit cap [c] fun s => .inl { s with pc := next, p := q }
    else if c = 36 ∨ c = 96 then .inr .unsupported
    else s.emit cap [c] fun s => .inl { s with pc := next, p := q }

/-- One turn of the loop that the parser is in. -/
def shellTurn (cap : ℕ) (devnullOk : Bool) (s : Shell) : Shell ⊕ ShellExit :=
  match s.pc with
  | .top => s.topTurn
  | .word w => s.wordTurn cap devnullOk w
  | .dquote w => s.dquoteTurn cap w

/-- Before the loop, with what happened to be in the buffer. -/
def Shell.start (junk : ByteMem) (line : Str) : Shell :=
  ⟨⟨[], fun _ => .keep, junk, false⟩, .top, line ++ [0], 0⟩

/-- `parse_command`; `none` would mean that it goes on. -/
def parseCommand (mallocOk devnullOk : Bool) (junk : ByteMem) (line : CString) :
    Option ShellExit :=
  if !mallocOk then some .noMemory
  else
    Loop.run (shellTurn (line.bytes.length + 1) devnullOk) (2 * line.bytes.length + 4)
      (Shell.start junk line.bytes)

/-! ### The end of the parser -/

/-- `p` is at a character of a word. -/
def startsWord : Str → Bool
  | [] => false
  | c :: _ => c ≠ 0 && !isSpace c

/-- The turns that are left, at most. -/
def Shell.work (s : Shell) : ℕ :=
  2 * s.p.length +
    match s.pc with
    | .top => if startsWord s.p then 1 else 0
    | _ => if startsWord s.p then 0 else 1

section

variable {s s' : Shell} {w : WordPc} {cap : ℕ} {devnullOk : Bool}

theorem work_le (s : Shell) : s.work ≤ 2 * s.p.length + 1 := by
  unfold Shell.work
  split <;> split_ifs <;> omega

theorem work_lt (h : s'.p.length < s.p.length) : s'.work < s.work := by
  have h1 := work_le s'
  have h2 : 2 * s.p.length ≤ s.work := Nat.le_add_right _ _
  omega

theorem deref_eq_inl {p : Str} {k : UInt8 → Str → Shell ⊕ ShellExit} (h : deref p k = .inl s') :
    ∃ c q, p = c :: q ∧ k c q = .inl s' := by
  cases p with
  | nil => cases h
  | cons c q => exact ⟨c, q, rfl, h⟩

theorem emit_eq_inl {l : Str} {k : Shell → Shell ⊕ ShellExit} (h : s.emit cap l k = .inl s') :
    ∃ m, k { s with storage := m, out := s.out + l.length } = .inl s' := by
  unfold Shell.emit at h
  split at h
  · cases h
  · exact ⟨_, h⟩

theorem skipSpace_eq_inl {p : Str} {k : Str → Shell ⊕ ShellExit} (h : skipSpace k p = .inl s') :
    ∃ c q, k (c :: q) = .inl s' ∧ isSpace c = false ∧
      ((c :: q).length < p.length ∨ c :: q = p) := by
  induction p with
  | nil => cases h
  | cons d p ih =>
    rw [skipSpace] at h
    split_ifs at h with hd
    · obtain ⟨c, q, hk, hc, hq⟩ := ih h
      refine ⟨c, q, hk, hc, Or.inl ?_⟩
      rcases hq with hq | rfl
      · exact hq.trans (Nat.lt_succ_self _)
      · exact Nat.lt_succ_self _
    · exact ⟨d, p, h, by simpa using hd, Or.inr rfl⟩

theorem strchr_eq_inl {c : UInt8} {p : Str} {k : Option ℕ → Shell ⊕ ShellExit}
    (h : strchr c k p = .inl s') : ∃ o, k o = .inl s' := by
  induction p generalizing k with
  | nil => cases h
  | cons d p ih =>
    rw [strchr] at h
    split_ifs at h
    · exact ⟨_, h⟩
    · exact ⟨_, h⟩
    · obtain ⟨o, ho⟩ := ih h
      exact ⟨_, ho⟩

theorem emit_p {l q : Str} {pc : ShellPc}
    (h : (s.emit cap l fun s => .inl { s with pc := pc, p := q }) = .inl s') : s'.p = q := by
  obtain ⟨m, hm⟩ := emit_eq_inl h
  cases hm
  rfl

theorem charTurn_p {next : ShellPc} {c : UInt8} {q : Str}
    (h : s.charTurn cap next c q = .inl s') : s'.p = q := by
  unfold Shell.charTurn at h
  split_ifs at h
  exact emit_p h

theorem wordDone_inl (h : s.wordDone devnullOk w = .inl s') : s'.p = s.p ∧ s'.pc = .top := by
  unfold Shell.wordDone at h
  split_ifs at h
  split at h
  · unfold Shell.redirectDone at h
    split_ifs at h
    cases h
    exact ⟨rfl, rfl⟩
  · unfold Shell.argDone at h
    split_ifs at h
    all_goals
      cases h
      exact ⟨rfl, rfl⟩

theorem wordTurn_work (hpc : s.pc = .word w) (h : s.wordTurn cap devnullOk w = .inl s') :
    s'.work < s.work := by
  obtain ⟨c, q, hp, h⟩ := deref_eq_inl h
  have hq : q.length < s.p.length := by simp [hp]
  split_ifs at h with h1 h2 h3 h4
  · -- nothing is read, but the word has ended
    obtain ⟨m, hm⟩ := emit_eq_inl h
    obtain ⟨hp', hpc'⟩ := wordDone_inl hm
    have hend : startsWord s.p = false := by
      rw [hp, startsWord]
      rcases h1 with h1 | h1 <;> simp [h1]
    simp [Shell.work, hpc, hpc', hp', hend]
  · obtain ⟨o, ho⟩ := strchr_eq_inl h
    cases o with
    | none => cases ho
    | some k =>
      refine work_lt ?_
      rw [emit_p ho, List.length_drop]
      omega
  · cases h
    exact work_lt hq
  · obtain ⟨d, r, rfl, h⟩ := deref_eq_inl h
    refine work_lt ?_
    split_ifs at h
    · rwa [charTurn_p h]
    · rw [emit_p h]
      exact (Nat.lt_succ_self _).trans hq
  · refine work_lt ?_
    rwa [charTurn_p h]

theorem dquoteTurn_work (h : s.dquoteTurn cap w = .inl s') : s'.work < s.work := by
  obtain ⟨c, q, hp, h⟩ := deref_eq_inl h
  have hq : q.length < s.p.length := by simp [hp]
  refine work_lt ?_
  split_ifs at h
  · cases h
    exact hq
  · obtain ⟨d, r, rfl, h⟩ := deref_eq_inl h
    split_ifs at h
    · rw [emit_p h]
      exact (Nat.lt_succ_self _).trans hq
    · rwa [emit_p h]
  · rwa [emit_p h]

theorem operator_length {fd : ℕ} {p : Str} (h : s.operator fd p = .inl s') :
    s'.p.length ≤ p.length := by
  have hskip : ∀ q, skipSpace (s.beginWord (some fd)) q = .inl s' → s'.p.length ≤ q.length := by
    intro q hq
    obtain ⟨c, q', hk, -, hlt | rfl⟩ := skipSpace_eq_inl hq <;> cases hk
    · exact hlt.le
    · exact le_rfl
  obtain ⟨c, q, rfl, h⟩ := deref_eq_inl h
  have hp : (if c = 62 then q else c :: q).length ≤ (c :: q).length := by
    split_ifs
    · exact Nat.le_succ _
    · exact le_rfl
  obtain ⟨c', q', hq', h⟩ := deref_eq_inl h
  rw [hq'] at hp h
  split_ifs at h
  · obtain ⟨d, r, rfl, h⟩ := deref_eq_inl h
    split_ifs at h
    · unfold Shell.copy at h
      split_ifs at h
      cases h
      exact (Nat.le_add_right r.length 2).trans hp
    · exact (hskip _ h).trans hp
  · exact (hskip _ h).trans hp

theorem topTurn_work (hpc : s.pc = .top) (h : s.topTurn = .inl s') : s'.work < s.work := by
  obtain ⟨c, q, h, hc, hp⟩ := skipSpace_eq_inl h
  replace h : (if c = 0 then _ else _) = Sum.inl s' := h
  have hlt : ∀ r : Str, r.length ≤ q.length → r.length < s.p.length := by
    intro r hr
    rcases hp with hp | hp
    · exact hr.trans_lt ((Nat.lt_succ_self _).trans hp)
    · rw [← hp]
      exact Nat.lt_succ_of_le hr
  -- nothing is read if the word begins at once
  have hword : c ≠ 0 → s.beginWord none (c :: q) = .inl s' → s'.work < s.work := by
    intro hc0 hw
    cases hw
    rcases hp with hp | hp
    · exact work_lt hp
    · simp [Shell.work, hpc, ← hp, startsWord, hc0, hc]
  split_ifs at h with h1 h2 h3
  · unfold Shell.finish at h
    split_ifs at h
  · exact work_lt (hlt _ (operator_length h))
  · obtain ⟨a, r, rfl, h⟩ := deref_eq_inl h
    split_ifs at h
    · exact work_lt (hlt _ ((operator_length h).trans (Nat.le_succ _)))
    · exact hword h1 h
  · exact hword h1 h

theorem work_lt_of_turn (h : shellTurn cap devnullOk s = .inl s') : s'.work < s.work := by
  unfold shellTurn at h
  cases hpc : s.pc with
  | top =>
    rw [hpc] at h
    exact topTurn_work hpc h
  | word w =>
    rw [hpc] at h
    exact wordTurn_work hpc h
  | dquote w =>
    rw [hpc] at h
    exact dquoteTurn_work h

end

end PgZero.Guest
