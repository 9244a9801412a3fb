import PgZero.Guest.Shell

/-!
# How a command line is read

What `parse_command` makes of a line, said over the text of the line alone: the words with their
quotes taken off, the redirections in the order of the line, and where the line is refused. The
parser, with its pointers, its buffer and its table, does what the reader says.

* **`parse_reads`**: the parser ends, with what the reader makes of the line.
* **`parse_safe`**: there is no fault, and every argument is a string in the buffer, exactly if the
  reader does not come to the end of the line after a backslash between double quotes.
-/

set_option autoImplicit false

namespace PgZero.Guest

open Function Lib Loop List Shell ByteMem

/-! ### The reader -/

/-- How the next character of a word is taken. -/
inductive Quoting
  | plain
  | escaped
  | single
  | double
  /-- after a backslash between double quotes -/
  | doubleEscaped
  deriving DecidableEq, Repr

/-- Why a line is refused. -/
inductive Refusal
  | unsupported
  /-- `/dev/null` cannot be opened. -/
  | noDevnull
  /-- The line ends after a backslash between double quotes. -/
  | overrun
  deriving DecidableEq, Repr

/-- The rest of a word, with `acc` before it: its text, and what follows the word. -/
def wordFrom : Quoting → Str → Str → Except Refusal (Str × Str)
  | .plain, acc, [] => .ok (acc, [])
  | .plain, acc, c :: q =>
    if isSpace c then .ok (acc, c :: q)
    else if c = quote then wordFrom .single acc q
    else if c = dquote then wordFrom .double acc q
    else if c = backslash then wordFrom .escaped acc q
    else if c ∈ special then .error .unsupported
    else wordFrom .plain (acc ++ [c]) q
  | .escaped, acc, [] => .ok (acc ++ [backslash], [])
  | .escaped, acc, c :: q => wordFrom .plain (acc ++ [c]) q
  | .single, _, [] => .error .unsupported
  | .single, acc, c :: q =>
    if c = quote then wordFrom .plain acc q else wordFrom .single (acc ++ [c]) q
  | .double, _, [] => .error .unsupported
  | .double, acc, c :: q =>
    if c = dquote then wordFrom .plain acc q
    else if c = backslash then wordFrom .doubleEscaped acc q
    else if c = 36 ∨ c = 96 then .error .unsupported
    else wordFrom .double (acc ++ [c]) q
  | .doubleEscaped, _, [] => .error .overrun
  | .doubleEscaped, acc, c :: q =>
    -- before other characters the backslash stays
    wordFrom .double (acc ++ if c ∈ escapable then [c] else [backslash, c]) q

/-- A word, and what follows it. -/
def readWord (t : Str) : Except Refusal (Str × Str) :=
  if t = [] then .error .unsupported else wordFrom .plain [] t

/-- The second `>` of `>>` is passed over. -/
def secondArrow : Str → Str
  | [] => []
  | c :: q => if c = 62 then q else c :: q

/-- `[n]<`, `[n]>` or `[n]>>`: the descriptor, and what follows. -/
def operatorAt : Str → Option (ℕ × Str)
  | [] => none
  | c :: q =>
    if isArrow c then some (defaultFd c, secondArrow q)
    else if isDigit c && q.head?.any isArrow then some (digit c, secondArrow q.tail)
    else none

/-- `&m` -/
def copySource : Str → Option ℕ
  | c :: d :: _ => if c = 38 ∧ isDigit d then some (digit d) else none
  | _ => none

/-- The arguments and the redirections of a line, both in its order. -/
structure Reading where
  args : List Str
  redirs : List (ℕ × Redirect)
  deriving DecidableEq

/-- `/dev/null` has been opened. -/
def Reading.opened (l : Reading) : Bool := l.redirs.any (·.2 = .devnull)

/-- One more redirection. -/
def Reading.redirect (l : Reading) (fd : ℕ) (r : Redirect) : Reading :=
  { l with redirs := l.redirs ++ [(fd, r)] }

/-- One more word: an argument, or the target of a redirection of `fd`. -/
def Reading.take (devnullOk : Bool) (l : Reading) (w : Str) : Option ℕ → Except Refusal Reading
  | some fd =>
    if 2 < fd ∨ w ≠ ascii "/dev/null" then .error .unsupported
    else if !l.opened && !devnullOk then .error .noDevnull
    else .ok (l.redirect fd .devnull)
  | none =>
    if l.args = [] ∧ w = ascii "exec" then .ok l
    else if MAX_ARGS ≤ l.args.length then .error .unsupported
    else .ok { l with args := l.args ++ [w] }

section

variable (devnullOk : Bool) (l : Reading) (rest : Reading → Str → Except Refusal Reading)

/-- A word, and the rest of the line. -/
def Reading.word (fd : Option ℕ) (t : Str) : Except Refusal Reading := do
  let x ← readWord t
  let l ← l.take devnullOk x.1 fd
  rest l x.2

/-- What follows the operator of a redirection, and the rest of the line. -/
def Reading.operator (fd : ℕ) (t : Str) : Except Refusal Reading :=
  match copySource t with
  | none => l.word devnullOk rest (some fd) (t.dropWhile isSpace)
  | some src =>
    if 2 < fd ∨ 2 < src then .error .unsupported
    else rest (l.redirect fd (.copy src)) (t.drop 2)

end

/-- The rest of a line, of at most `k` words and redirections. -/
def readFrom (devnullOk : Bool) : ℕ → Reading → Str → Except Refusal Reading
  | 0, _, _ => .error .unsupported
  | k + 1, l, t =>
    let t := t.dropWhile isSpace
    if t = [] then .ok l
    else
      match operatorAt t with
      | none => l.word devnullOk (readFrom devnullOk k) none t
      | some x => l.operator devnullOk (readFrom devnullOk k) x.1 x.2

/-- What a line says. -/
def readLine (devnullOk : Bool) (line : Str) : Except Refusal Reading :=
  readFrom devnullOk (line.length + 1) ⟨[], []⟩ line

/-- The table after some redirections: for each descriptor, the last one. -/
def tableOf (redirs : List (ℕ × Redirect)) : ℕ → Redirect :=
  redirs.foldl (fun t e => update t e.1 e.2) fun _ => .keep

theorem wordFrom_single (acc body r : Str) (h : quote ∉ body) :
    wordFrom .single acc (body ++ quote :: r) = wordFrom .plain (acc ++ body) r := by
  induction body generalizing acc with
  | nil => simp [wordFrom]
  | cons c body ih =>
    have hc : c ≠ quote := fun heq => h (heq ▸ mem_cons_self)
    rw [cons_append, wordFrom, if_neg hc, ih _ (not_mem_of_not_mem_cons h),
      append_assoc, singleton_append]

theorem wordFrom_single_open (acc : Str) {t : Str} (h : quote ∉ t) :
    wordFrom .single acc t = .error .unsupported := by
  induction t generalizing acc with
  | nil => rfl
  | cons c t ih =>
    have hc : c ≠ quote := fun heq => h (heq ▸ mem_cons_self)
    rw [wordFrom, if_neg hc, ih _ (not_mem_of_not_mem_cons h)]

/-! ### Reads within the line -/

section

variable {k : Str → Shell ⊕ ShellExit}

theorem skipSpace_append (k : Str → Shell ⊕ ShellExit) (t : Str) :
    skipSpace k (t ++ [0]) = k (t.dropWhile isSpace ++ [0]) := by
  induction t with
  | nil => rfl
  | cons c t ih =>
    rw [cons_append, skipSpace, ih, dropWhile_cons]
    split_ifs <;> rfl

theorem strchr_found {c : UInt8} (k : Option ℕ → Shell ⊕ ShellExit) {body : Str} (h0 : 0 ∉ body)
    (h : c ∉ body) (r : Str) : strchr c k (body ++ c :: r) = k (some body.length) := by
  induction body generalizing k with
  | nil => rw [nil_append, strchr, if_pos rfl]; rfl
  | cons d body ih =>
    rw [mem_cons, not_or] at h0 h
    rw [cons_append, strchr, if_neg (Ne.symm h.1), if_neg (Ne.symm h0.1), ih _ h0.2 h.2]
    rfl

theorem strchr_missing {c : UInt8} (k : Option ℕ → Shell ⊕ ShellExit) {t : Str} (h0 : 0 ∉ t)
    (h : c ∉ t) (hc : c ≠ 0) : strchr c k (t ++ [0]) = k none := by
  induction t generalizing k with
  | nil => rw [nil_append, strchr, if_neg (Ne.symm hc), if_pos rfl]
  | cons d t ih =>
    rw [mem_cons, not_or] at h0 h
    rw [cons_append, strchr, if_neg (Ne.symm h.1), if_neg (Ne.symm h0.1), ih _ h0.2 h.2]
    rfl

theorem secondArrow_suffix (q : Str) : secondArrow q <:+ q := by
  cases q with
  | nil => exact suffix_refl _
  | cons c q =>
    rw [secondArrow]
    split_ifs
    · exact suffix_cons c q
    · exact suffix_refl _

theorem operatorAt_suffix {t r : Str} {fd : ℕ} (h : operatorAt t = some (fd, r)) :
    r <:+ t.tail := by
  cases t with
  | nil => cases h
  | cons c q =>
    rw [operatorAt] at h
    split_ifs at h <;> cases h
    · exact secondArrow_suffix q
    · exact (secondArrow_suffix _).trans (tail_suffix q)

end

/-! ### The parser in a word -/

/-- The state after `l` is written, with `t` left of the line. -/
def Shell.wrote (s : Shell) (l : Str) (pc : ShellPc) (t : Str) : Shell :=
  { s with storage := s.storage.store s.out l, out := s.out + l.length, pc := pc, p := t ++ [0] }

theorem Shell.wrote_nil (s : Shell) (pc : ShellPc) (t : Str) :
    s.wrote [] pc t = { s with pc := pc, p := t ++ [0] } := by
  simp only [wrote, store_nil, length_nil, Nat.add_zero]

/-- The exit of the parser. -/
def Refusal.exit : Refusal → ShellExit
  | .unsupported => .unsupported
  | .noDevnull => .noDevnull
  | .overrun => .fault

section

variable {n : ℕ} {devnullOk : Bool} {s s1 s2 : Shell} {fd : Option ℕ}

theorem emit_wrote {acc l : Str} (h : s.out + acc.length + l.length ≤ n + 1) (pc : ShellPc)
    (t : Str) (k : Shell → Shell ⊕ ShellExit) :
    (s.wrote acc pc t).emit (n + 1) l k = k (s.wrote (acc ++ l) pc t) := by
  have hput : (s.wrote acc pc t).storage.put (n + 1) (s.wrote acc pc t).out l =
      some ((s.storage.store s.out acc).store (s.out + acc.length) l) := if_pos h
  rw [emit, hput]
  simp only [wrote, store_append, length_append, Nat.add_assoc]

theorem emit_next {acc l : Str} (h : s.out + acc.length + l.length ≤ n + 1) (pc pc' : ShellPc)
    (t t' : Str) :
    ((s.wrote acc pc t).emit (n + 1) l fun s => .inl { s with pc := pc', p := t' ++ [0] }) =
      .inl (s.wrote (acc ++ l) pc' t') := by
  rw [emit_wrote h]
  rfl

/-- What the parser does from `s1` on for a word that began in `s`, given what the reader says. -/
def WordRuns (n : ℕ) (devnullOk : Bool) (s : Shell) (fd : Option ℕ) (s1 : Shell) :
    Except Refusal (Str × Str) → Prop
  | .error r => Ends (shellTurn (n + 1) devnullOk) s1 r.exit
  | .ok x =>
    Leads (shellTurn (n + 1) devnullOk) s1 (s.wrote x.1 (.word ⟨fd, s.out, true⟩) x.2) ∧
      startsWord x.2 = false ∧ s.out + x.1.length + x.2.length ≤ n ∧ 0 ∉ x.1 ∧ 0 ∉ x.2

theorem WordRuns.turn {x : Except Refusal (Str × Str)}
    (hs : shellTurn (n + 1) devnullOk s1 = .inl s2) (h : WordRuns n devnullOk s fd s2 x) :
    WordRuns n devnullOk s fd s1 x := by
  cases x with
  | error r => exact (Leads.one hs).ends h
  | ok x => exact ⟨(Leads.one hs).trans h.1, h.2⟩

variable (n devnullOk s) in
theorem wordTurn_end {t : Str} (ht : startsWord t = false) (w : WordPc) (acc : Str)
    (hroom : s.out + acc.length ≤ n) :
    shellTurn (n + 1) devnullOk (s.wrote acc (.word w) t) =
      wordDone devnullOk w (s.wrote (acc ++ [0]) (.word w) t) := by
  refine Eq.trans ?_ (emit_wrote (n := n) (l := [0]) (Nat.succ_le_succ hroom) _ _ _)
  cases t with
  | nil => rfl
  | cons c t =>
    have hc : c = 0 ∨ isSpace c := by
      rw [startsWord] at ht
      by_cases hc : c = 0
      · exact Or.inl hc
      · exact Or.inr (by simpa [hc] using ht)
    exact if_pos hc

variable (s) in
theorem charTurn_wrote (acc : Str) (pc next : ShellPc) (t t' : Str) {c : UInt8}
    (hroom : s.out + acc.length + 1 ≤ n) :
    (s.wrote acc pc t).charTurn (n + 1) next c (t' ++ [0]) =
      if c ∈ special then .inr .unsupported else .inl (s.wrote (acc ++ [c]) next t') := by
  rw [charTurn, emit_next (Nat.le_succ_of_le hroom)]

theorem singleTurn_found {acc body : Str} (pc next : ShellPc) (t r : Str) (h0 : 0 ∉ body)
    (h : quote ∉ body) (hroom : s.out + acc.length + body.length ≤ n + 1) :
    (s.wrote acc pc t).singleTurn (n + 1) next (body ++ quote :: (r ++ [0])) =
      .inl (s.wrote (acc ++ body) next r) := by
  have hdrop : (body ++ quote :: (r ++ [0])).drop (body.length + 1) = r ++ [0] := by
    rw [← drop_drop, drop_left]
    rfl
  rw [singleTurn, strchr_found _ h0 h]
  dsimp only
  rw [take_left, hdrop, emit_next hroom]

theorem singleTurn_missing {t : Str} (next : ShellPc) (h0 : 0 ∉ t) (h : quote ∉ t) :
    s.singleTurn (n + 1) next (t ++ [0]) = .inr .unsupported :=
  strchr_missing _ h0 h (by decide)

/-- The parser does what the reader says, for at most `k` characters of a word. -/
def WordsRun (n : ℕ) (devnullOk : Bool) (s : Shell) (fd : Option ℕ) (k : ℕ) : Prop :=
  ∀ (t acc : Str) (have_ : Bool), t.length ≤ k → 0 ∉ t → 0 ∉ acc →
    s.out + acc.length + t.length ≤ n →
    (have_ ∨ startsWord t → WordRuns n devnullOk s fd
        (s.wrote acc (.word ⟨fd, s.out, have_⟩) t) (wordFrom .plain acc t)) ∧
      WordRuns n devnullOk s fd (s.wrote acc (.dquote ⟨fd, s.out, have_⟩) t)
        (wordFrom .double acc t)

theorem not_mem_snoc {acc : Str} {c : UInt8} (hacc : 0 ∉ acc) (hc : c ≠ 0) : 0 ∉ acc ++ [c] := by
  simp [hacc, hc.symm]

theorem single_runs {k : ℕ} (ih : WordsRun n devnullOk s fd k) {q acc : Str} (hk : q.length ≤ k)
    (hq : 0 ∉ q) (hacc : 0 ∉ acc) (hroom : s.out + acc.length + (q.length + 1) ≤ n) (have_ : Bool) :
    WordRuns n devnullOk s fd (s.wrote acc (.word ⟨fd, s.out, have_⟩) (quote :: q))
      (wordFrom .single acc q) := by
  by_cases hmem : quote ∈ q
  · obtain ⟨body, r, rfl, hbody⟩ := eq_append_cons_of_mem hmem
    simp only [mem_append, mem_cons, not_or] at hq
    rw [length_append, length_cons] at hk hroom
    have hturn : shellTurn (n + 1) devnullOk
        (s.wrote acc (.word ⟨fd, s.out, have_⟩) (quote :: (body ++ quote :: r))) =
          .inl (s.wrote (acc ++ body) (.word ⟨fd, s.out, true⟩) r) := by
      show singleTurn _ _ _ (body ++ quote :: r ++ [0]) = _
      rw [append_assoc]
      exact singleTurn_found _ _ _ r hq.1 hbody (by omega)
    rw [wordFrom_single acc body r hbody]
    refine WordRuns.turn hturn ((ih r (acc ++ body) true (by omega) hq.2.2 ?_ ?_).1 (Or.inl rfl))
    · simp [hacc, hq.1]
    · rw [length_append]
      omega
  · rw [wordFrom_single_open acc hmem]
    exact .now (singleTurn_missing _ hq hmem)

theorem escaped_runs {k : ℕ} (ih : WordsRun n devnullOk s fd k) {q acc : Str} (hk : q.length ≤ k)
    (hq : 0 ∉ q) (hacc : 0 ∉ acc) (hroom : s.out + acc.length + (q.length + 1) ≤ n) (have_ : Bool) :
    WordRuns n devnullOk s fd (s.wrote acc (.word ⟨fd, s.out, have_⟩) (backslash :: q))
      (wordFrom .escaped acc q) := by
  cases q with
  | nil =>
    -- at the end of the line it stands for itself
    have hturn := charTurn_wrote s acc (n := n) (.word ⟨fd, s.out, have_⟩)
      (.word ⟨fd, s.out, true⟩) [backslash] [] (c := backslash) hroom
    refine WordRuns.turn hturn ⟨.refl _, rfl, ?_, not_mem_snoc hacc (by decide), not_mem_nil⟩
    rw [length_append]
    exact hroom
  | cons d r =>
    rw [mem_cons, not_or] at hq
    rw [length_cons] at hk hroom
    have hturn : shellTurn (n + 1) devnullOk
        (s.wrote acc (.word ⟨fd, s.out, have_⟩) (backslash :: d :: r)) =
          .inl (s.wrote (acc ++ [d]) (.word ⟨fd, s.out, true⟩) r) :=
      (if_neg (Ne.symm hq.1)).trans (emit_next (by rw [length_singleton]; omega) _ _ _ _)
    refine WordRuns.turn hturn ((ih r (acc ++ [d]) true (by omega) hq.2
      (not_mem_snoc hacc (Ne.symm hq.1)) ?_).1 (Or.inl rfl))
    rw [length_append, length_singleton]
    omega

theorem plain_runs {k : ℕ} (ih : WordsRun n devnullOk s fd k) {t acc : Str} (hk : t.length ≤ k + 1)
    (ht : 0 ∉ t) (hacc : 0 ∉ acc) (hroom : s.out + acc.length + t.length ≤ n) {have_ : Bool}
    (hh : have_ ∨ startsWord t) :
    WordRuns n devnullOk s fd (s.wrote acc (.word ⟨fd, s.out, have_⟩) t)
      (wordFrom .plain acc t) := by
  -- the word ends
  have hend : startsWord t = false → WordRuns n devnullOk s fd
      (s.wrote acc (.word ⟨fd, s.out, have_⟩) t) (.ok (acc, t)) := by
    intro hw
    obtain rfl := hh.resolve_right (by simp [hw])
    exact ⟨.refl _, hw, hroom, hacc, ht⟩
  cases t with
  | nil => exact hend rfl
  | cons c q =>
    rw [mem_cons, not_or] at ht
    rw [length_cons] at hk hroom
    have hk' : q.length ≤ k := Nat.le_of_succ_le_succ hk
    rw [wordFrom]
    split_ifs with h1 h2 h3 h4 h5
    · exact hend (by simp [startsWord, h1])
    · rw [h2]
      exact single_runs ih hk' ht.2 hacc hroom have_
    · rw [h3]
      exact .turn rfl (ih q acc have_ hk' ht.2 hacc (by omega)).2
    · rw [h4]
      exact escaped_runs ih hk' ht.2 hacc hroom have_
    all_goals
      have hturn : shellTurn (n + 1) devnullOk (s.wrote acc (.word ⟨fd, s.out, have_⟩) (c :: q)) =
          charTurn (n + 1) (s.wrote acc (.word ⟨fd, s.out, have_⟩) (c :: q))
            (.word ⟨fd, s.out, true⟩) c (q ++ [0]) := by
        refine (if_neg ?_).trans ((if_neg h2).trans ((if_neg h3).trans (if_neg h4)))
        rintro (rfl | h)
        · exact ht.1 rfl
        · exact h1 h
      rw [charTurn_wrote _ _ _ _ _ q (by omega)] at hturn
    · rw [if_pos h5] at hturn
      exact .now hturn
    · rw [if_neg h5] at hturn
      refine WordRuns.turn hturn ((ih q (acc ++ [c]) true hk' ht.2
        (not_mem_snoc hacc (Ne.symm ht.1)) ?_).1 (Or.inl rfl))
      rw [length_append, length_singleton]
      omega

variable (devnullOk s) in
theorem dquoteTurn_char (acc q : Str) (w : WordPc) {c : UInt8} (hc : c ≠ 0) (h1 : c ≠ dquote)
    (h2 : c ≠ backslash) (hroom : s.out + acc.length + 1 ≤ n) :
    shellTurn (n + 1) devnullOk (s.wrote acc (.dquote w) (c :: q)) =
      if c = 36 ∨ c = 96 then .inr .unsupported else .inl (s.wrote (acc ++ [c]) (.dquote w) q) := by
  refine (if_neg hc).trans ((if_neg h1).trans ((if_neg h2).trans ?_))
  split_ifs
  · rfl
  · exact emit_next (Nat.le_succ_of_le hroom) _ _ _ q

theorem dquoteTurn_backslash (cap : ℕ) (w : WordPc) (acc q : Str) :
    shellTurn cap devnullOk (s.wrote acc (.dquote w) (backslash :: q)) =
      deref (q ++ [0]) fun d r =>
        if d = 0 ∨ d ∈ escapable then
          (s.wrote acc (.dquote w) (backslash :: q)).emit cap [d] fun s =>
            .inl { s with pc := .dquote w, p := r }
        else
          (s.wrote acc (.dquote w) (backslash :: q)).emit cap [backslash] fun s =>
            .inl { s with pc := .dquote w, p := q ++ [0] } :=
  rfl

theorem doubleEscaped_runs {k : ℕ} (ih : WordsRun n devnullOk s fd k) {q acc : Str}
    (hk : q.length ≤ k) (hq : 0 ∉ q) (hacc : 0 ∉ acc)
    (hroom : s.out + acc.length + (q.length + 1) ≤ n) (have_ : Bool) :
    WordRuns n devnullOk s fd (s.wrote acc (.dquote ⟨fd, s.out, have_⟩) (backslash :: q))
      (wordFrom .doubleEscaped acc q) := by
  have hcap : s.out + acc.length + 1 ≤ n + 1 := by omega
  cases q with
  | nil =>
    -- the zero byte is copied and passed
    have hturn : shellTurn (n + 1) devnullOk
        (s.wrote acc (.dquote ⟨fd, s.out, have_⟩) [backslash]) =
          .inl { s.wrote (acc ++ [0]) (.dquote ⟨fd, s.out, have_⟩) [] with p := [] } := by
      rw [dquoteTurn_backslash, nil_append, deref, if_pos (Or.inl rfl), emit_wrote hcap]
      rfl
    exact (Leads.one hturn).ends (.now rfl)
  | cons d r =>
    rw [mem_cons, not_or] at hq
    rw [length_cons] at hk hroom
    have hd0 : d ≠ 0 := Ne.symm hq.1
    rw [wordFrom]
    by_cases hd : d ∈ escapable
    · have hturn : shellTurn (n + 1) devnullOk
          (s.wrote acc (.dquote ⟨fd, s.out, have_⟩) (backslash :: d :: r)) =
            .inl (s.wrote (acc ++ [d]) (.dquote ⟨fd, s.out, have_⟩) r) := by
        rw [dquoteTurn_backslash, cons_append, deref, if_pos (Or.inr hd), emit_next hcap]
      rw [if_pos hd]
      refine WordRuns.turn hturn (ih r (acc ++ [d]) have_ (by omega) hq.2
        (not_mem_snoc hacc hd0) ?_).2
      rw [length_append, length_singleton]
      omega
    · -- two turns, for the backslash and for the character
      have hturn : shellTurn (n + 1) devnullOk
          (s.wrote acc (.dquote ⟨fd, s.out, have_⟩) (backslash :: d :: r)) =
            .inl (s.wrote (acc ++ [backslash]) (.dquote ⟨fd, s.out, have_⟩) (d :: r)) := by
        rw [dquoteTurn_backslash, cons_append, deref, if_neg (not_or.mpr ⟨hd0, hd⟩),
          ← cons_append, emit_next hcap]
      have hchar := dquoteTurn_char devnullOk s (acc ++ [backslash]) r ⟨fd, s.out, have_⟩ (n := n) hd0
        (by rintro rfl; exact hd (by decide)) (by rintro rfl; exact hd (by decide))
        (by rw [length_append, length_singleton]; omega)
      rw [if_neg (by rintro (rfl | rfl) <;> exact hd (by decide)), append_assoc] at hchar
      rw [if_neg hd]
      refine WordRuns.turn hturn (WordRuns.turn hchar (ih r (acc ++ [backslash, d]) have_
        (by omega) hq.2 ?_ ?_).2)
      · simp [hacc, hq.1, backslash]
      · rw [length_append, length_cons, length_singleton]
        omega

theorem double_runs {k : ℕ} (ih : WordsRun n devnullOk s fd k) {t acc : Str}
    (hk : t.length ≤ k + 1) (ht : 0 ∉ t) (hacc : 0 ∉ acc)
    (hroom : s.out + acc.length + t.length ≤ n) (have_ : Bool) :
    WordRuns n devnullOk s fd (s.wrote acc (.dquote ⟨fd, s.out, have_⟩) t)
      (wordFrom .double acc t) := by
  cases t with
  | nil => exact .now rfl
  | cons c q =>
    rw [mem_cons, not_or] at ht
    rw [length_cons] at hk hroom
    have hk' : q.length ≤ k := Nat.le_of_succ_le_succ hk
    have hc0 : c ≠ 0 := Ne.symm ht.1
    rw [wordFrom]
    split_ifs with h1 h2 h3
    · rw [h1]
      exact .turn rfl ((ih q acc true hk' ht.2 hacc (by omega)).1 (Or.inl rfl))
    · rw [h2]
      exact doubleEscaped_runs ih hk' ht.2 hacc hroom have_
    all_goals
      have hturn := dquoteTurn_char devnullOk s acc q ⟨fd, s.out, have_⟩ (n := n) hc0 h1 h2 (by omega)
    · rw [if_pos h3] at hturn
      exact .now hturn
    · rw [if_neg h3] at hturn
      refine WordRuns.turn hturn (ih q (acc ++ [c]) have_ hk' ht.2 (not_mem_snoc hacc hc0) ?_).2
      rw [length_append, length_singleton]
      omega

theorem wordsRun (n : ℕ) (devnullOk : Bool) (s : Shell) (fd : Option ℕ) (k : ℕ) :
    WordsRun n devnullOk s fd k := by
  induction k with
  | zero =>
    intro t acc have_ hk ht hacc hroom
    obtain rfl := length_eq_zero_iff.mp (Nat.le_zero.mp hk)
    refine ⟨fun hh => ?_, .now rfl⟩
    obtain rfl := hh.resolve_right (by simp [startsWord])
    exact ⟨.refl _, rfl, hroom, hacc, ht⟩
  | succ k ih =>
    intro t acc have_ hk ht hacc hroom
    exact ⟨plain_runs ih hk ht hacc hroom, double_runs ih hk ht hacc hroom have_⟩

end

/-! ### The parser between words -/

section

variable {s : Shell}

/-- What the parser does after the operator of a redirection, over the text of the line. -/
def Shell.target (s : Shell) (fd : ℕ) (t : Str) : Shell ⊕ ShellExit :=
  match copySource t with
  | none => s.beginWord (some fd) (t.dropWhile isSpace ++ [0])
  | some src => s.copy fd src (t.drop 2 ++ [0])

theorem operator_eq (fd : ℕ) (q : Str) :
    s.operator fd (q ++ [0]) = s.target fd (secondArrow q) := by
  -- the second arrow
  have hfirst : s.operator fd (q ++ [0]) = deref (secondArrow q ++ [0]) fun c r =>
      if c = 38 then
        deref r fun d r => if isDigit d then s.copy fd (digit d) r
          else skipSpace (s.beginWord (some fd)) (secondArrow q ++ [0])
      else skipSpace (s.beginWord (some fd)) (secondArrow q ++ [0]) := by
    cases q with
    | nil => rfl
    | cons c q =>
      rw [operator, cons_append, deref, secondArrow]
      split_ifs <;> rfl
  rw [hfirst, skipSpace_append, target]
  generalize secondArrow q = r
  rcases r with _ | ⟨c, _ | ⟨d, r⟩⟩
  · rfl
  · show (if c = 38 then _ else _) = _
    split_ifs <;> rfl
  · show (if c = 38 then (if isDigit d then _ else _) else _) = _
    rw [copySource]
    by_cases h1 : c = 38
    · by_cases h2 : isDigit d
      · rw [if_pos h1, if_pos h2, if_pos ⟨h1, h2⟩]
        rfl
      · rw [if_pos h1, if_neg h2, if_neg fun h => h2 h.2]
    · rw [if_neg h1, if_neg fun h => h1 h.1]

theorem startsWord_dropWhile {t : Str} (ht : 0 ∉ t) (h : t.dropWhile isSpace ≠ []) :
    startsWord (t.dropWhile isSpace) = true := by
  have hhead := head_dropWhile_not isSpace h
  have hsub : 0 ∉ t.dropWhile isSpace := fun h => ht ((dropWhile_sublist _).mem h)
  cases hd : t.dropWhile isSpace with
  | nil => exact absurd hd h
  | cons c q =>
    simp only [hd, head_cons] at hhead
    rw [hd, mem_cons, not_or] at hsub
    simp [startsWord, hhead, Ne.symm hsub.1]

theorem topTurn_end {t : Str} (hp : s.p = t ++ [0]) (h : t.dropWhile isSpace = []) :
    s.topTurn = s.finish := by
  rw [topTurn, hp, skipSpace_append, h]
  rfl

theorem topTurn_eq {t : Str} (hp : s.p = t ++ [0]) (ht : 0 ∉ t) (h : t.dropWhile isSpace ≠ []) :
    s.topTurn =
      ((operatorAt (t.dropWhile isSpace)).map fun x => s.target x.1 x.2).getD
        (s.beginWord none (t.dropWhile isSpace ++ [0])) := by
  have hsub : 0 ∉ t.dropWhile isSpace := fun h => ht ((dropWhile_sublist _).mem h)
  rw [topTurn, hp, skipSpace_append]
  generalize t.dropWhile isSpace = u at h hsub
  cases u with
  | nil => exact absurd rfl h
  | cons c q =>
    rw [mem_cons, not_or] at hsub
    rw [cons_append, deref, if_neg (Ne.symm hsub.1), operatorAt]
    by_cases ha : isArrow c
    · rw [if_pos ha, if_pos ha]
      exact operator_eq _ q
    rw [if_neg ha, if_neg ha]
    by_cases hd : isDigit c
    · rw [if_pos hd, hd, Bool.true_and]
      cases q with
      | nil => rfl
      | cons a r =>
        rw [cons_append, deref, List.head?_cons, Option.any_some]
        split_ifs
        · exact operator_eq _ r
        · rfl
    · rw [if_neg hd, if_neg (by simp [hd])]
      rfl

/-- The string `t` begins at `a` and ends before `lim`. -/
structure StringAt (m : ByteMem) (lim a : ℕ) (t : Str) : Prop where
  load : m.load a t.length = t
  nul : m (a + t.length) = 0
  lt : a + t.length < lim

theorem StringAt.store {m : ByteMem} {lim a : ℕ} {t : Str} (h : StringAt m lim a t) (l : Str) :
    StringAt (m.store lim l) (lim + l.length) a t := by
  have hlt := h.lt
  refine ⟨?_, ?_, by omega⟩
  · rw [load_congr fun b _ hb => store_of_outside (Or.inl (by omega)), h.load]
  · rw [store_of_outside (Or.inl hlt), h.nul]

theorem stringAt_wrote (m : ByteMem) (a : ℕ) (t : Str) :
    StringAt (m.store a (t ++ [0])) (a + (t ++ [0]).length) a t := by
  refine ⟨?_, ?_, by simp⟩
  · rw [store_append,
      load_congr fun b _ hb => store_of_outside (Or.inl hb),
      load_store _ _ rfl]
  · rw [store_append, store_singleton_self]

/-- A command that holds what was read, with its strings in the first `lim` bytes. -/
structure Recorded (lim : ℕ) (c : Command) (l : Reading) : Prop where
  argv : List.Forall₂ (StringAt c.storage lim) c.argv l.args
  argc : l.args.length ≤ MAX_ARGS
  table : c.redirect = tableOf l.redirs
  opened : c.opened = l.opened
  copies : ∀ fd src, (fd, .copy src) ∈ l.redirs → src ≤ 2

/-- The exit of the parser is the one that the reader says. -/
def Agrees (n : ℕ) : Except Refusal Reading → ShellExit → Prop
  | .error r, e => e = r.exit
  | .ok l, .unsupported => l.args = []
  | .ok l, .done cmd => l.args ≠ [] ∧ Recorded (n + 1) cmd l
  | .ok _, _ => False

variable {n : ℕ} {devnullOk : Bool} {l : Reading}

theorem Recorded.argv_nil {lim : ℕ} {c : Command} (h : Recorded lim c l) :
    c.argv = [] ↔ l.args = [] := by
  rw [← length_eq_zero_iff, ← length_eq_zero_iff, h.argv.length_eq]

theorem text_wrote (s : Shell) {t : Str} (ht : 0 ∉ t) (pc : ShellPc) (r : Str) :
    (s.wrote (t ++ [0]) pc r).text s.out = t := by
  have hload : (s.wrote (t ++ [0]) pc r).storage.load s.out
      ((s.wrote (t ++ [0]) pc r).out - s.out) = t ++ [0] :=
    load_store _ _ (Nat.add_sub_cancel_left _ _).symm
  rw [text, hload, takeWhile_append_of_pos]
  · simp
  · intro c hc
    have hne : c ≠ 0 := fun heq => ht (heq ▸ hc)
    simpa using hne

theorem tableOf_snoc (redirs : List (ℕ × Redirect)) (fd : ℕ) (r : Redirect) :
    tableOf (redirs ++ [(fd, r)]) = update (tableOf redirs) fd r := by
  rw [tableOf, foldl_append]
  rfl

theorem mem_of_tableOf {redirs : List (ℕ × Redirect)} {fd : ℕ} {r : Redirect}
    (h : tableOf redirs fd = r) (hr : r ≠ .keep) : (fd, r) ∈ redirs := by
  induction redirs using List.reverseRecOn with
  | nil => exact absurd h.symm hr
  | append_singleton l e ih =>
    rw [tableOf_snoc] at h
    by_cases he : fd = e.1
    · rw [he, update_self] at h
      rw [he, ← h]
      exact mem_append_right _ mem_cons_self
    · rw [update_of_ne he] at h
      exact mem_append_left _ (ih h)

/-- Between words, with `t` left of the line. -/
structure AtTop (n : ℕ) (s : Shell) (l : Reading) (t : Str) : Prop where
  pc : s.pc = .top
  p : s.p = t ++ [0]
  nul : 0 ∉ t
  holds : Recorded s.out s.toCommand l
  room : s.out + t.length ≤ n + 1
  room_word : startsWord t → s.out + t.length ≤ n

/-- The parser ends from `s` on, with the exit that the reader says. -/
def Runs (n : ℕ) (devnullOk : Bool) (s : Shell) (x : Except Refusal Reading) : Prop :=
  ∃ e, Ends (shellTurn (n + 1) devnullOk) s e ∧ Agrees n x e

theorem Runs.leads {s' : Shell} {x : Except Refusal Reading}
    (hl : Leads (shellTurn (n + 1) devnullOk) s s') (h : Runs n devnullOk s' x) :
    Runs n devnullOk s x := by
  obtain ⟨e, he, ha⟩ := h
  exact ⟨e, hl.ends he, ha⟩

theorem runs_error {r : Refusal} (h : shellTurn (n + 1) devnullOk s = .inr r.exit) :
    Runs n devnullOk s (.error r) :=
  ⟨_, .now h, rfl⟩

theorem Recorded.wrote (h : Recorded s.out s.toCommand l) (w : Str) :
    Recorded (s.out + w.length) { s.toCommand with storage := s.storage.store s.out w } l :=
  ⟨h.argv.imp fun _ _ ha => ha.store w, h.argc, h.table, h.opened, h.copies⟩

theorem Recorded.redirect {lim : ℕ} {c : Command} (h : Recorded lim c l) (fd : ℕ) (r : Redirect)
    (hr : ∀ src, r = .copy src → src ≤ 2) {opened : Bool}
    (ho : opened = (c.opened || decide (r = .devnull))) :
    Recorded lim { c.setRedirect fd r with opened := opened } (l.redirect fd r) := by
  refine ⟨h.argv, h.argc, ?_, ?_, fun fd' src hmem => ?_⟩
  · rw [Reading.redirect, tableOf_snoc, ← h.table]
    rfl
  · simp [ho, Reading.redirect, Reading.opened, h.opened]
  · rcases mem_append.mp hmem with hmem | hmem
    · exact h.copies fd' src hmem
    · exact hr src (Prod.mk.inj (mem_singleton.mp hmem)).2.symm

/-- The state after a word that is taken. -/
structure Took (s : Shell) (w r : Str) (l : Reading) (s' : Shell) : Prop where
  pc : s'.pc = .top
  p : s'.p = r ++ [0]
  out : s'.out = s.out + (w ++ [0]).length
  holds : Recorded s'.out s'.toCommand l

/-- What the parser does with a word. -/
def Takes (s : Shell) (w r : Str) (x : Shell ⊕ ShellExit) : Except Refusal Reading → Prop
  | .error e => x = .inr e.exit
  | .ok l => ∃ s', x = .inl s' ∧ Took s w r l s'

theorem redirectDone_takes (h : Recorded s.out s.toCommand l) {w : Str} (hw : 0 ∉ w) (fd : ℕ)
    (pc : ShellPc) (r : Str) :
    Takes s w r ((s.wrote (w ++ [0]) pc r).redirectDone devnullOk fd s.out)
      (l.take devnullOk w (some fd)) := by
  rw [redirectDone, text_wrote s hw, Reading.take]
  split_ifs with h1 h2 h3 h3
  · exact rfl
  · exact rfl
  · exact absurd (h.opened ▸ h2) h3
  · exact absurd (h.opened ▸ h3) h2
  · exact ⟨_, rfl, rfl, rfl, rfl, (h.wrote (w ++ [0])).redirect fd .devnull nofun (by simp)⟩

theorem argDone_takes (h : Recorded s.out s.toCommand l) {w : Str} (hw : 0 ∉ w)
    (pc : ShellPc) (r : Str) :
    Takes s w r ((s.wrote (w ++ [0]) pc r).argDone s.out) (l.take devnullOk w none) := by
  have hlen : s.argv.length = l.args.length := h.argv.length_eq
  have hnil : (s.wrote (w ++ [0]) pc r).argv = [] ↔ l.args = [] := h.argv_nil
  have hargv : (s.wrote (w ++ [0]) pc r).argv.length = l.args.length := hlen
  have hold := h.wrote (w ++ [0])
  rw [argDone, text_wrote s hw, Reading.take, hargv]
  by_cases h1 : l.args = [] ∧ w = ascii "exec"
  · rw [if_pos ⟨hnil.mpr h1.1, h1.2⟩, if_pos h1]
    exact ⟨_, rfl, rfl, rfl, rfl, hold⟩
  rw [if_neg fun h => h1 ⟨hnil.mp h.1, h.2⟩, if_neg h1]
  by_cases h2 : MAX_ARGS ≤ l.args.length
  · rw [if_pos h2, if_pos h2]
    rfl
  rw [if_neg h2, if_neg h2, if_pos (by omega)]
  refine ⟨_, rfl, rfl, rfl, rfl, ?_, ?_, hold.table, hold.opened, hold.copies⟩
  · exact rel_append hold.argv (.cons (stringAt_wrote s.storage s.out w) .nil)
  · rw [length_append]
    exact not_le.mp h2

variable (devnullOk) in
theorem wordDone_takes (h : Recorded s.out s.toCommand l) {w : Str} (hw : 0 ∉ w) (fd : Option ℕ)
    (pc : ShellPc) (r : Str) :
    Takes s w r (wordDone devnullOk ⟨fd, s.out, true⟩ (s.wrote (w ++ [0]) pc r))
      (l.take devnullOk w fd) := by
  cases fd with
  | some fd => exact redirectDone_takes h hw fd pc r
  | none => exact argDone_takes h hw pc r

theorem wordFrom_length {q : Quoting} {acc t : Str} {x : Str × Str}
    (h : wordFrom q acc t = .ok x) : x.2.length ≤ t.length := by
  induction t generalizing q acc with
  | nil => cases q <;> cases h <;> exact le_rfl
  | cons c t ih =>
    have hle : ∀ q' acc', wordFrom q' acc' t = .ok x → x.2.length ≤ (c :: t).length :=
      fun q' acc' h' => (ih h').trans (Nat.le_succ _)
    cases q <;> rw [wordFrom] at h
    case plain =>
      split_ifs at h
      · cases h
        exact le_rfl
      all_goals exact hle _ _ h
    case escaped => exact hle _ _ h
    case single => split_ifs at h <;> exact hle _ _ h
    case double => split_ifs at h <;> exact hle _ _ h
    case doubleEscaped => exact hle _ _ h

theorem readWord_length {t : Str} {x : Str × Str} (ht : startsWord t) (h : readWord t = .ok x) :
    x.2.length < t.length := by
  cases t with
  | nil => cases ht
  | cons c t =>
    have hc : ¬ isSpace c := by
      simp only [startsWord, Bool.and_eq_true, Bool.not_eq_true'] at ht
      simp [ht.2]
    rw [readWord, if_neg (cons_ne_nil c t), wordFrom, if_neg hc] at h
    refine Nat.lt_succ_of_le ?_
    split_ifs at h <;> exact wordFrom_length h

section

variable {rest : Reading → Str → Except Refusal Reading}

theorem word_then (h : Recorded s.out s.toCommand l) {t : Str} (ht : 0 ∉ t)
    (hw : t = [] ∨ startsWord t) (hroom : s.out + t.length ≤ n)
    (hrest : ∀ s' l' r, r.length < t.length → AtTop n s' l' r → Runs n devnullOk s' (rest l' r))
    (fd : Option ℕ) :
    Runs n devnullOk (s.wrote [] (.word ⟨fd, s.out, false⟩) t) (l.word devnullOk rest fd t) := by
  rcases hw with rfl | hw
  · -- nothing follows the operator
    exact runs_error (wordTurn_end _ _ _ rfl ⟨fd, s.out, false⟩ [] hroom)
  have hne : t ≠ [] := by
    rintro rfl
    cases hw
  have hrun := (wordsRun n devnullOk s fd t.length t [] false le_rfl ht not_mem_nil hroom).1
    (Or.inr hw)
  rw [Reading.word, readWord, if_neg hne]
  have hlen : ∀ x, wordFrom .plain [] t = .ok x → x.2.length < t.length := fun x hx =>
    readWord_length hw (by rw [readWord, if_neg hne, hx])
  cases hx : wordFrom .plain [] t with
  | error r =>
    rw [hx] at hrun
    exact ⟨_, hrun, rfl⟩
  | ok x =>
    rw [hx] at hrun
    obtain ⟨hl, hend, hroom', hx1, hx2⟩ := hrun
    refine Runs.leads hl ?_
    have hturn := wordTurn_end n devnullOk s hend ⟨fd, s.out, true⟩ x.1 (by omega)
    have htake := wordDone_takes devnullOk h hx1 fd (.word ⟨fd, s.out, true⟩) x.2
    rw [← hturn] at htake
    show Runs n devnullOk _ (l.take devnullOk x.1 fd >>= fun l => rest l x.2)
    cases hl' : l.take devnullOk x.1 fd with
    | error r =>
      rw [hl'] at htake
      exact runs_error htake
    | ok l' =>
      rw [hl'] at htake
      obtain ⟨s', hs', hT⟩ := htake
      refine Runs.leads (.one hs')
        (hrest s' l' x.2 (hlen x hx) ⟨hT.pc, hT.p, hx2, hT.holds, ?_, ?_⟩)
      · rw [hT.out, length_append, length_singleton]
        omega
      · intro hs
        rw [hend] at hs
        cases hs

theorem AtTop.room_dropWhile {t : Str} (h : AtTop n s l t) (hne : t.dropWhile isSpace ≠ []) :
    s.out + (t.dropWhile isSpace).length ≤ n := by
  cases t with
  | nil => exact absurd rfl hne
  | cons c q =>
    by_cases hc : isSpace c
    · rw [dropWhile_cons_of_pos hc]
      have hle := (dropWhile_sublist (l := q) isSpace).length_le
      have hroom := h.room
      rw [length_cons] at hroom
      omega
    · have heq := dropWhile_cons_of_neg (l := q) hc
      have hstart := startsWord_dropWhile h.nul hne
      rw [heq] at hstart ⊢
      exact h.room_word hstart

theorem finish_runs {t : Str} (h : AtTop n s l t) (hend : t.dropWhile isSpace = []) :
    Runs n devnullOk s (.ok l) := by
  have hturn : shellTurn (n + 1) devnullOk s = s.finish := by
    rw [shellTurn, h.pc]
    exact topTurn_end h.p hend
  have hlen : s.argv.length = l.args.length := h.holds.argv.length_eq
  have hargc := h.holds.argc
  rw [finish] at hturn
  by_cases hnil : s.argv = []
  · rw [if_pos hnil] at hturn
    exact ⟨_, .now hturn, h.holds.argv_nil.mp hnil⟩
  · rw [if_neg hnil, if_pos (by omega)] at hturn
    refine ⟨_, .now hturn, mt h.holds.argv_nil.mpr hnil, ?_, hargc, h.holds.table, h.holds.opened,
      h.holds.copies⟩
    have hroom := h.room
    exact h.holds.argv.imp fun a w ha => ⟨ha.load, ha.nul, by have := ha.lt; omega⟩

theorem target_runs {t r : Str} {fd : ℕ} (h : AtTop n s l t) (hr : 0 ∉ r)
    (hlt : r.length < t.length) (hroom : s.out + r.length < n)
    (hturn : shellTurn (n + 1) devnullOk s = s.target fd r)
    (hrest : ∀ s' l' r, r.length < t.length → AtTop n s' l' r → Runs n devnullOk s' (rest l' r)) :
    Runs n devnullOk s (l.operator devnullOk rest fd r) := by
  rw [target] at hturn
  rw [Reading.operator]
  cases hsrc : copySource r with
  | none =>
    rw [hsrc] at hturn
    have hle := (dropWhile_sublist (l := r) isSpace).length_le
    refine Runs.leads (.one (hturn.trans ?_)) (word_then h.holds (t := r.dropWhile isSpace) ?_ ?_ ?_
      (fun s' l' r' hr' => hrest s' l' r' (by omega)) (some fd))
    · rw [wrote_nil]
      rfl
    · exact fun h0 => hr ((dropWhile_sublist _).mem h0)
    · exact or_iff_not_imp_left.mpr (startsWord_dropWhile hr)
    · omega
  | some src =>
    rw [hsrc] at hturn
    have hle : (r.drop 2).length ≤ r.length := by simp
    dsimp only at hturn ⊢
    rw [copy] at hturn
    split_ifs at hturn ⊢ with hfd
    · exact runs_error hturn
    · refine Runs.leads (.one hturn) (hrest _ _ _ (by omega) ⟨h.pc, rfl, ?_, ?_, ?_, ?_⟩)
      · exact fun h0 => hr (mem_of_mem_drop h0)
      · refine h.holds.redirect fd (.copy src) (fun src' he => ?_) (by simp)
        cases he
        omega
      · show s.out + (r.drop 2).length ≤ n + 1
        omega
      · intro _
        show s.out + (r.drop 2).length ≤ n
        omega

variable (devnullOk) in
/-- The parser from the head of its outer loop on, by induction on what is left. -/
theorem top_runs (k : ℕ) {s : Shell} {l : Reading} {t : Str} (hk : t.length < k)
    (h : AtTop n s l t) : Runs n devnullOk s (readFrom devnullOk k l t) := by
  induction k generalizing s l t with
  | zero => exact absurd hk (Nat.not_lt_zero _)
  | succ k ih =>
    have hrest : ∀ s' l' r, r.length < t.length → AtTop n s' l' r →
        Runs n devnullOk s' (readFrom devnullOk k l' r) := fun s' l' r hr h' => ih (by omega) h'
    rw [readFrom]
    by_cases hend : t.dropWhile isSpace = []
    · rw [if_pos hend]
      exact finish_runs h hend
    rw [if_neg hend]
    have hturn : shellTurn (n + 1) devnullOk s = s.topTurn := by rw [shellTurn, h.pc]
    rw [topTurn_eq h.p h.nul hend] at hturn
    have hroom := h.room_dropWhile hend
    have hle := (dropWhile_sublist (l := t) isSpace).length_le
    have hsub : t.dropWhile isSpace ⊆ t := (dropWhile_sublist _).subset
    cases hop : operatorAt (t.dropWhile isSpace) with
    | none =>
      rw [hop] at hturn
      refine Runs.leads (.one (hturn.trans ?_)) (word_then h.holds (fun h0 => h.nul (hsub h0))
        (Or.inr (startsWord_dropWhile h.nul hend)) hroom
        (fun s' l' r hr => hrest s' l' r (by omega)) none)
      rw [wrote_nil]
      rfl
    | some x =>
      rw [hop] at hturn
      have hsuf := operatorAt_suffix hop
      have hlt := hsuf.length_le
      rw [length_tail] at hlt
      have hpos := length_pos_iff.mpr hend
      refine target_runs h (fun h0 => h.nul (hsub ?_)) (by omega) (by omega) hturn hrest
      exact tail_subset _ (hsuf.subset h0)

end

end

/-! ### Whole lines -/

/-- **The parser does what the reader says.** -/
theorem parse_reads (devnullOk : Bool) (junk : ByteMem) (line : CString) :
    ∃ e, parseCommand true devnullOk junk line = some e ∧
      Agrees line.bytes.length (readLine devnullOk line.bytes) e := by
  have hstart : AtTop line.bytes.length (start junk line.bytes) ⟨[], []⟩ line.bytes :=
    ⟨rfl, rfl, line.nul, ⟨.nil, Nat.zero_le _, rfl, rfl, nofun⟩, by simp [start],
      fun _ => by simp [start]⟩
  obtain ⟨e, he, hA⟩ := top_runs devnullOk _ (Nat.lt_succ_self _) hstart
  have hwork : (start junk line.bytes).work < 2 * line.bytes.length + 4 := by
    have hle := work_le (start junk line.bytes)
    have hp : (start junk line.bytes).p.length = line.bytes.length + 1 := by
      simp [start]
    omega
  obtain ⟨e', hrun, -⟩ := Loop.run_spec (f := shellTurn (line.bytes.length + 1) devnullOk)
    (I := fun _ => True) (Q := fun _ => True) work
    (fun s s' _ hs => ⟨trivial, work_lt_of_turn hs⟩) (fun _ _ _ _ => trivial) trivial hwork
  obtain rfl := he.run_eq hrun
  exact ⟨e', hrun, hA⟩

/-- A string that ends before `lim` begins at `a`. -/
def Terminated (m : ByteMem) (lim a : ℕ) : Prop := ∃ k, a + k < lim ∧ m (a + k) = 0

/-- No fault, and every argument is a string in the buffer of `n + 1` bytes. -/
def SafeExit (n : ℕ) : ShellExit → Prop
  | .fault => False
  | .done cmd => cmd.argv.length ≤ MAX_ARGS ∧ ∀ a ∈ cmd.argv, Terminated cmd.storage (n + 1) a
  | _ => True

theorem Recorded.terminated {lim : ℕ} {c : Command} {l : Reading} (h : Recorded lim c l) :
    ∀ a ∈ c.argv, Terminated c.storage lim a :=
  ((forall₂_and_left (p := Terminated c.storage lim) _ _).mp
    (h.argv.imp fun _ _ hw => ⟨⟨_, hw.lt, hw.nul⟩, hw⟩)).1

theorem Agrees.safe_iff {n : ℕ} {x : Except Refusal Reading} {e : ShellExit} (h : Agrees n x e) :
    SafeExit n e ↔ x ≠ .error .overrun := by
  cases x with
  | error r =>
    obtain rfl : e = r.exit := h
    cases r <;> simp [Refusal.exit, SafeExit]
  | ok l =>
    refine iff_of_true ?_ nofun
    cases e with
    | unsupported => exact trivial
    | done cmd => exact ⟨h.2.argv.length_eq ▸ h.2.argc, h.2.terminated⟩
    | fault | noMemory | noDevnull => exact h.elim

/-- **Memory safety**, exactly if there is no memory or the line, read as far as it is not refused,
does not end after a backslash between double quotes. -/
theorem parse_safe (mallocOk devnullOk : Bool) (junk : ByteMem) (line : CString) :
    (∃ e, parseCommand mallocOk devnullOk junk line = some e ∧ SafeExit line.bytes.length e) ↔
      (mallocOk = true → readLine devnullOk line.bytes ≠ .error .overrun) := by
  cases mallocOk with
  | false => exact iff_of_true ⟨_, rfl, trivial⟩ nofun
  | true =>
    obtain ⟨e, he, hA⟩ := parse_reads devnullOk junk line
    rw [he]
    constructor
    · rintro ⟨e', he', hsafe⟩ -
      obtain rfl := Option.some.inj he'
      exact hA.safe_iff.mp hsafe
    · exact fun h => ⟨e, rfl, hA.safe_iff.mpr (h rfl)⟩

/-- A backslash outside of quotes, and one after a `|`, which is refused. -/
theorem parse_safe_backslash :
    (∃ e, parseCommand true true (fun _ => 7) ⟨ascii "cp \"a b\" c\\", by decide⟩ = some e ∧
        SafeExit 11 e) ∧
      ∃ e, parseCommand true true (fun _ => 7) ⟨ascii "| \"\\", by decide⟩ = some e ∧
        SafeExit 4 e :=
  ⟨(parse_safe true true (fun _ => 7) ⟨ascii "cp \"a b\" c\\", by decide⟩).mpr fun _ => nofun,
    (parse_safe true true (fun _ => 7) ⟨ascii "| \"\\", by decide⟩).mpr fun _ => nofun⟩

/-- A double quote and a backslash: the parser goes past the end of the line. -/
theorem parse_dangling :
    readLine true (ascii "\"\\") = .error .overrun ∧
      ∀ junk, parseCommand true true junk ⟨ascii "\"\\", by decide⟩ = some .fault :=
  ⟨rfl, fun _ => rfl⟩

end PgZero.Guest
