import PgZero.Guest.ShellRead

/-!
# Words and redirections as they are written

What `parse_command` makes of a line that is written as words and redirections with white space
between them. A word is one or more parts, each in single quotes, in double quotes, a character
after a backslash, or a character that stands for itself.

* **`line_reads`**: the arguments and the redirections are those that are written.
* **`words_parse`**: the case without redirections.
-/

set_option autoImplicit false

namespace PgZero.Guest

open Lib Reading

/-! ### Lines -/

/-- White space. -/
abbrev Blank := { b : Str // ∀ c ∈ b, isSpace c }

/-- A character that stands for itself. -/
structure PlainChar (c : UInt8) : Prop where
  nul : c ≠ 0
  space : isSpace c = false
  quote : c ≠ quote
  dquote : c ≠ dquote
  backslash : c ≠ backslash
  special : c ∉ special

/-- A part of a word. -/
inductive Seg
  | single (s : CString) (h : quote ∉ s.bytes)
  | double (s : CString)
  | escaped (c : UInt8) (h : c ≠ 0)
  | plain (c : UInt8) (h : PlainChar c)

/-- A character between double quotes. -/
def inDouble (c : UInt8) : Str := if c ∈ escapable then [backslash, c] else [c]

/-- The text that a part stands for. -/
def Seg.text : Seg → Str
  | .single s _ | .double s => s.bytes
  | .escaped c _ | .plain c _ => [c]

/-- A part as it is written. -/
def Seg.render : Seg → Str
  | .single s _ => quote :: (s.bytes ++ [quote])
  | .double s => dquote :: (s.bytes.flatMap inDouble ++ [dquote])
  | .escaped c _ => [backslash, c]
  | .plain c _ => [c]

/-- A word: one or more parts. -/
structure Word where
  segs : List Seg
  ne : segs ≠ []

/-- The text of a word. -/
def Word.text (w : Word) : Str := w.segs.flatMap Seg.text

/-- A word as it is written. -/
def Word.render (w : Word) : Str := w.segs.flatMap Seg.render

/-- `<`, `>` or `>>` -/
inductive Arrow
  | input
  | output
  | append
  deriving DecidableEq, Repr

/-- The operator of a redirection, with its descriptor if that is written. -/
structure RedirOp where
  fd : Option (Fin 3)
  arrow : Arrow

/-- The descriptor that is redirected. -/
def RedirOp.target (op : RedirOp) : ℕ :=
  match op.fd with
  | some fd => fd
  | none => if op.arrow = .input then 0 else 1

/-- An arrow as it is written. -/
def Arrow.render : Arrow → Str
  | .input => [60]
  | .output => [62]
  | .append => [62, 62]

/-- The digit of a descriptor. -/
def digitChar (i : Fin 3) : UInt8 := UInt8.ofNat (48 + i)

/-- An operator as it is written. -/
def RedirOp.render (op : RedirOp) : Str := (op.fd.map digitChar).toList ++ op.arrow.render

/-- An argument or a redirection. -/
inductive Item
  | arg (w : Word)
  | devnull (op : RedirOp) (gap : Blank) (w : Word) (h : w.text = ascii "/dev/null")
  | copy (op : RedirOp) (src : Fin 3)

/-- An item as it is written. -/
def Item.render : Item → Str
  | .arg w => w.render
  | .devnull op gap w _ => op.render ++ (gap.1 ++ w.render)
  | .copy op src => op.render ++ [38, digitChar src]

/-- The words that an item adds. -/
def Item.words : Item → List Str
  | .arg w => [w.text]
  | .devnull _ _ _ _ | .copy _ _ => []

/-- The redirections that an item adds. -/
def Item.redirs : Item → List (ℕ × Redirect)
  | .arg _ => []
  | .devnull op _ _ _ => [(op.target, .devnull)]
  | .copy op src => [(op.target, .copy src)]

/-- Items as they are written, each after its white space. -/
def renderItems (items : List (Blank × Item)) : Str :=
  items.flatMap fun e => e.1.1 ++ e.2.render

/-- A line: items with white space before them, which is missing at most before the first. -/
structure Line where
  items : List (Blank × Item)
  gaps : ∀ e ∈ items.tail, e.1.1 ≠ []
  trail : Blank

/-- A line as it is written. -/
def Line.render (l : Line) : Str := renderItems l.items ++ l.trail.1

/-- The words of a line. -/
def Line.words (l : Line) : List Str := l.items.flatMap fun e => e.2.words

/-- The redirections of a line. -/
def Line.redirs (l : Line) : List (ℕ × Redirect) := l.items.flatMap fun e => e.2.redirs

/-- The arguments: `exec` is left out before the first one. -/
def argsOf (words : List Str) : List Str := words.dropWhile (· = ascii "exec")

/-! ### No zero bytes -/

theorem Seg.nul_render (g : Seg) : 0 ∉ g.render := by
  cases g with
  | single s h => simp [Seg.render, s.nul, quote]
  | double s =>
    have hs : 0 ∉ s.bytes.flatMap inDouble := by
      intro hm
      obtain ⟨c, hc, hm⟩ := List.mem_flatMap.mp hm
      have hc0 : c ≠ 0 := fun h => s.nul (h ▸ hc)
      unfold inDouble at hm
      split_ifs at hm <;> simp [backslash, hc0.symm] at hm
    simp [Seg.render, hs, dquote]
  | escaped c h => simp [Seg.render, h.symm, backslash]
  | plain c h => simp [Seg.render, h.nul.symm]

theorem Word.nul_render (w : Word) : 0 ∉ w.render := by
  intro h
  obtain ⟨g, -, hg⟩ := List.mem_flatMap.mp h
  exact g.nul_render hg

theorem Blank.nul (b : Blank) : 0 ∉ b.1 := fun h => absurd (b.2 0 h) (by decide)

theorem RedirOp.nul_render (op : RedirOp) : 0 ∉ op.render := by
  obtain ⟨fd, arrow⟩ := op
  cases fd with
  | none => cases arrow <;> decide
  | some i => fin_cases i <;> cases arrow <;> decide

theorem Item.nul_render (i : Item) : 0 ∉ i.render := by
  cases i with
  | arg w => exact w.nul_render
  | devnull op gap w _ =>
    simp only [Item.render, List.mem_append, not_or]
    exact ⟨op.nul_render, gap.nul, w.nul_render⟩
  | copy op src =>
    simp only [Item.render, List.mem_append, not_or]
    exact ⟨op.nul_render, by fin_cases src <;> decide⟩

/-- The line as `parse_command` is given it. -/
def Line.cstring (l : Line) : CString where
  bytes := l.render
  nul := by
    simp only [Line.render, renderItems, List.mem_append, List.mem_flatMap, not_or, not_exists,
      not_and]
    exact ⟨fun e _ => ⟨e.1.nul, e.2.nul_render⟩, l.trail.nul⟩

/-! ### Words -/

/-- The end of the line, or white space. -/
def EndsWord (r : Str) : Prop := ∀ c ∈ r.head?, isSpace c

theorem wordFrom_double (acc t r : Str) :
    wordFrom .double acc (t.flatMap inDouble ++ dquote :: r) = wordFrom .plain (acc ++ t) r := by
  induction t generalizing acc with
  | nil => simp [wordFrom]
  | cons c t ih =>
    rw [List.flatMap_cons, List.append_assoc, inDouble]
    by_cases hc : c ∈ escapable
    · rw [if_pos hc, List.cons_append, wordFrom, if_neg (by decide), if_pos rfl,
        List.singleton_append, wordFrom, if_pos hc, ih, List.append_assoc, List.singleton_append]
    · have hne : ∀ d ∈ escapable, c ≠ d := fun d hd h => hc (h ▸ hd)
      rw [if_neg hc, List.singleton_append, wordFrom, if_neg (hne _ (by decide)),
        if_neg (hne _ (by decide)), if_neg (not_or.mpr ⟨hne _ (by decide), hne _ (by decide)⟩), ih,
        List.append_assoc, List.singleton_append]

theorem wordFrom_seg (g : Seg) (acc r : Str) :
    wordFrom .plain acc (g.render ++ r) = wordFrom .plain (acc ++ g.text) r := by
  cases g with
  | single s h =>
    rw [Seg.render, List.cons_append, List.append_assoc, wordFrom, if_neg (by decide), if_pos rfl]
    exact wordFrom_single acc s.bytes r h
  | double s =>
    rw [Seg.render, List.cons_append, List.append_assoc, wordFrom, if_neg (by decide),
      if_neg (by decide), if_pos rfl]
    exact wordFrom_double acc s.bytes r
  | escaped c h =>
    rw [Seg.render, List.cons_append, wordFrom, if_neg (by decide), if_neg (by decide),
      if_neg (by decide), if_pos rfl]
    rfl
  | plain c h =>
    rw [Seg.render, List.singleton_append, wordFrom, if_neg (by simp [h.space]), if_neg h.quote,
      if_neg h.dquote, if_neg h.backslash, if_neg h.special]
    rfl

theorem wordFrom_segs (gs : List Seg) (acc r : Str) :
    wordFrom .plain acc (gs.flatMap Seg.render ++ r) =
      wordFrom .plain (acc ++ gs.flatMap Seg.text) r := by
  induction gs generalizing acc with
  | nil => simp
  | cons g gs ih =>
    rw [List.flatMap_cons, List.append_assoc, wordFrom_seg, ih, List.flatMap_cons,
      List.append_assoc]

theorem wordFrom_end (acc : Str) {r : Str} (hr : EndsWord r) :
    wordFrom .plain acc r = .ok (acc, r) := by
  cases r with
  | nil => rfl
  | cons c q => rw [wordFrom, if_pos (hr c rfl)]

/-- A character that begins a word. -/
def Begins (c : UInt8) : Prop := isSpace c = false ∧ c ∉ special

theorem Seg.render_head (g : Seg) : ∃ c q, g.render = c :: q ∧ Begins c := by
  cases g with
  | single s h | double s | escaped c h => exact ⟨_, _, rfl, by decide, by decide⟩
  | plain c h => exact ⟨_, _, rfl, h.space, h.special⟩

theorem Word.render_head (w : Word) : ∃ c q, w.render = c :: q ∧ Begins c := by
  obtain ⟨segs, ne⟩ := w
  cases segs with
  | nil => exact absurd rfl ne
  | cons g gs =>
    obtain ⟨c, q, hg, hc⟩ := g.render_head
    exact ⟨c, q ++ gs.flatMap Seg.render, by simp [Word.render, hg], hc⟩

theorem Word.readWord_render (w : Word) {r : Str} (hr : EndsWord r) :
    readWord (w.render ++ r) = .ok (w.text, r) := by
  obtain ⟨c, q, hw, -⟩ := w.render_head
  rw [readWord, if_neg (by simp [hw]), Word.render, wordFrom_segs, wordFrom_end _ hr]
  rfl

/-! ### Items -/

theorem not_arrow {c : UInt8} (h : isSpace c ∨ c ∉ special) : isArrow c = false := by
  by_contra ha
  rw [Bool.not_eq_false, isArrow, Bool.or_eq_true, decide_eq_true_eq, decide_eq_true_eq] at ha
  rcases ha with rfl | rfl <;> revert h <;> decide

theorem head_not_arrow (gs : List Seg) {r : Str} (hr : EndsWord r) :
    (gs.flatMap Seg.render ++ r).head?.any isArrow = false := by
  cases gs with
  | nil =>
    cases r with
    | nil => rfl
    | cons c q => exact not_arrow (Or.inl (hr c rfl))
  | cons g gs =>
    obtain ⟨c, q, hg, hc⟩ := g.render_head
    rw [List.flatMap_cons, hg]
    exact not_arrow (Or.inr hc.2)

theorem Word.operatorAt_render (w : Word) {r : Str} (hr : EndsWord r) :
    operatorAt (w.render ++ r) = none := by
  obtain ⟨segs, ne⟩ := w
  cases segs with
  | nil => exact absurd rfl ne
  | cons g gs =>
    cases g with
    | plain c h =>
      rw [Word.render, List.flatMap_cons, List.append_assoc, Seg.render, List.singleton_append,
        operatorAt, not_arrow (Or.inr h.special), head_not_arrow gs hr, Bool.and_false]
      rfl
    | single s h => rfl
    | double s => rfl
    | escaped c h => rfl

theorem RedirOp.operatorAt_render (op : RedirOp) {c : UInt8} {q : Str} (hc : c ≠ 62) :
    operatorAt (op.render ++ c :: q) = some (op.target, c :: q) := by
  obtain ⟨fd, arrow⟩ := op
  cases fd with
  | none => cases arrow <;> simp [operatorAt, RedirOp.render, Arrow.render, RedirOp.target, isArrow,
      defaultFd, secondArrow, hc]
  | some i =>
    fin_cases i <;> cases arrow <;>
      simp [operatorAt, RedirOp.render, Arrow.render, RedirOp.target, isArrow, isDigit, digitChar,
        digit, secondArrow, hc]

theorem RedirOp.target_le (op : RedirOp) : op.target ≤ 2 := by
  obtain ⟨fd, arrow⟩ := op
  cases fd with
  | none => cases arrow <;> decide
  | some i => exact Nat.lt_succ_iff.mp i.isLt

theorem dropWhile_blank (b : Blank) {c : UInt8} {q : Str} (hc : isSpace c = false) :
    (b.1 ++ c :: q).dropWhile isSpace = c :: q := by
  rw [List.dropWhile_append_of_pos b.2]
  exact List.dropWhile_cons_of_neg (by simp [hc])

theorem RedirOp.render_head (op : RedirOp) : ∃ c q, op.render = c :: q ∧ isSpace c = false := by
  obtain ⟨fd, arrow⟩ := op
  cases fd with
  | none => cases arrow <;> exact ⟨_, _, rfl, rfl⟩
  | some i => fin_cases i <;> cases arrow <;> exact ⟨_, _, rfl, rfl⟩

theorem head_blank_word (b : Blank) (w : Word) (r : Str) :
    ∃ c q, b.1 ++ (w.render ++ r) = c :: q ∧ c ≠ 62 ∧ c ≠ 38 := by
  obtain ⟨⟨⟩ | ⟨c, b⟩, hb⟩ := b
  · obtain ⟨c, q, hw, -, hc⟩ := w.render_head
    refine ⟨c, q ++ r, by rw [hw]; rfl, ?_, ?_⟩ <;> rintro rfl <;> exact hc (by decide)
  · have hc := hb c List.mem_cons_self
    refine ⟨c, b ++ (w.render ++ r), rfl, ?_, ?_⟩ <;> rintro rfl <;> revert hc <;> decide

theorem argsOf_append (ws ws' : List Str) :
    argsOf (ws ++ ws') = if argsOf ws = [] then argsOf ws' else argsOf ws ++ ws' := by
  rw [argsOf, List.dropWhile_append]
  simp [argsOf, List.isEmpty_iff]

theorem length_argsOf_le (ws ws' : List Str) :
    (argsOf ws).length ≤ (argsOf (ws ++ ws')).length := by
  rw [argsOf_append]
  split_ifs with h <;> simp [h]

section

variable {devnullOk : Bool} {words : List Str} {redirs : List (ℕ × Redirect)}

theorem take_arg (w : Str) (hlen : (argsOf (words ++ [w])).length ≤ MAX_ARGS) :
    take devnullOk ⟨argsOf words, redirs⟩ w none =
      .ok ⟨argsOf (words ++ [w]), redirs⟩ := by
  rw [argsOf_append] at hlen ⊢
  rw [take]
  by_cases hnil : argsOf words = []
  · rw [if_pos hnil, hnil]
    by_cases hexec : w = ascii "exec"
    · simp [hexec, argsOf]
    · simp [hexec, argsOf, MAX_ARGS]
  · rw [if_neg hnil, List.length_append] at hlen
    rw [if_neg hnil, if_neg fun h => hnil h.1, if_neg (not_le.mpr hlen)]

theorem take_devnull {w : Str} (hw : w = ascii "/dev/null") {fd : ℕ} (hfd : fd ≤ 2) :
    take true ⟨argsOf words, redirs⟩ w (some fd) =
      .ok ⟨argsOf words, redirs ++ [(fd, .devnull)]⟩ := by
  rw [take, if_neg (not_or.mpr ⟨not_lt.mpr hfd, not_not.mpr hw⟩), Bool.not_true,
    Bool.and_false]
  rfl

theorem readFrom_item (k : ℕ) (b : Blank) (i : Item) {r : Str} (hr : EndsWord r)
    (hlen : (argsOf (words ++ i.words)).length ≤ MAX_ARGS)
    (hdev : ∀ fd, (fd, .devnull) ∈ i.redirs → devnullOk = true) :
    readFrom devnullOk (k + 1) ⟨argsOf words, redirs⟩ (b.1 ++ (i.render ++ r)) =
      readFrom devnullOk k ⟨argsOf (words ++ i.words), redirs ++ i.redirs⟩ r := by
  rw [readFrom]
  cases i with
  | arg w =>
    obtain ⟨c, q, hw, hc, -⟩ := w.render_head
    have hdrop : (b.1 ++ (w.render ++ r)).dropWhile isSpace = w.render ++ r := by
      rw [hw]
      exact dropWhile_blank b hc
    rw [Item.render, hdrop, if_neg (by simp [hw]), w.operatorAt_render hr]
    dsimp only
    rw [word, w.readWord_render hr, Item.redirs, List.append_nil, Item.words]
    show (take devnullOk _ w.text none >>= _) = _
    rw [take_arg w.text hlen]
    rfl
  | devnull op gap w hw =>
    obtain rfl := hdev _ (List.mem_singleton_self _)
    obtain ⟨c, q, hop, hc⟩ := op.render_head
    obtain ⟨d, q', hq, h1, h2⟩ := head_blank_word gap w r
    obtain ⟨c', q'', hw', hc', -⟩ := w.render_head
    have hdrop : (b.1 ++ (op.render ++ (gap.1 ++ w.render) ++ r)).dropWhile isSpace =
        op.render ++ d :: q' := by
      rw [List.append_assoc, List.append_assoc, hq, hop]
      exact dropWhile_blank b hc
    have hgap : (d :: q').dropWhile isSpace = w.render ++ r := by
      rw [← hq, hw']
      exact dropWhile_blank gap hc'
    have hsrc : copySource (d :: q') = none := by
      cases q' with
      | nil => rfl
      | cons e q' => exact if_neg fun h => h2 h.1
    rw [Item.render, hdrop, if_neg (by simp), op.operatorAt_render h1]
    dsimp only
    rw [operator, hsrc, hgap]
    dsimp only
    rw [word, w.readWord_render hr, Item.redirs, Item.words, List.append_nil]
    show (take true _ w.text (some op.target) >>= _) = _
    rw [take_devnull hw op.target_le]
    rfl
  | copy op src =>
    obtain ⟨c, q, hop, hc⟩ := op.render_head
    have hdrop : (b.1 ++ (op.render ++ [38, digitChar src] ++ r)).dropWhile isSpace =
        op.render ++ 38 :: digitChar src :: r := by
      rw [List.append_assoc, hop]
      exact dropWhile_blank b hc
    have hsrc : copySource (38 :: digitChar src :: r) = some src.val := by fin_cases src <;> rfl
    have htgt := op.target_le
    have hlt := src.isLt
    rw [Item.render, hdrop, if_neg (by simp), op.operatorAt_render (by decide)]
    dsimp only
    rw [operator, hsrc]
    dsimp only
    rw [if_neg (by omega), Item.words, List.append_nil]
    rfl

theorem endsWord_rest {items : List (Blank × Item)} (hgaps : ∀ e ∈ items, e.1.1 ≠ [])
    (trail : Blank) : EndsWord (renderItems items ++ trail.1) := by
  have hblank : ∀ (b : Blank) (q : Str), b.1 ≠ [] → EndsWord (b.1 ++ q) := by
    rintro ⟨_ | ⟨c, b⟩, hb⟩ q hne d hd
    · exact absurd rfl hne
    · cases hd
      exact hb c List.mem_cons_self
  cases items with
  | nil =>
    intro c hc
    exact trail.2 c (List.mem_of_mem_head? hc)
  | cons e items =>
    rw [renderItems, List.flatMap_cons, List.append_assoc, List.append_assoc]
    exact hblank e.1 _ (hgaps e List.mem_cons_self)

variable (words redirs) in
theorem readFrom_items (trail : Blank) (items : List (Blank × Item)) {k : ℕ}
    (hk : items.length < k) (hgaps : ∀ e ∈ items.tail, e.1.1 ≠ [])
    (hlen : (argsOf (words ++ items.flatMap fun e => e.2.words)).length ≤ MAX_ARGS)
    (hdev : ∀ fd, (fd, .devnull) ∈ (items.flatMap fun e => e.2.redirs) → devnullOk = true) :
    readFrom devnullOk k ⟨argsOf words, redirs⟩ (renderItems items ++ trail.1) =
      .ok ⟨argsOf (words ++ items.flatMap fun e => e.2.words),
        redirs ++ items.flatMap fun e => e.2.redirs⟩ := by
  induction items generalizing k words redirs with
  | nil =>
    obtain ⟨k, rfl⟩ := Nat.exists_eq_succ_of_ne_zero hk.ne'
    have hdrop : trail.1.dropWhile isSpace = [] := List.dropWhile_eq_nil_iff.mpr trail.2
    rw [readFrom]
    simp [renderItems, hdrop]
  | cons e items ih =>
    obtain ⟨k, rfl⟩ := Nat.exists_eq_succ_of_ne_zero (Nat.ne_zero_of_lt hk)
    rw [List.flatMap_cons, ← List.append_assoc] at hlen
    rw [List.flatMap_cons] at hdev
    rw [List.tail_cons] at hgaps
    rw [renderItems, List.flatMap_cons, List.append_assoc, List.append_assoc, ← renderItems,
      readFrom_item k e.1 e.2 (endsWord_rest hgaps trail) ((length_argsOf_le _ _).trans hlen)
        fun fd hfd => hdev fd (List.mem_append_left _ hfd),
      ih _ _ (Nat.lt_of_succ_lt_succ hk) (fun e' he' => hgaps e' (List.mem_of_mem_tail he')) hlen
        fun fd hfd => hdev fd (List.mem_append_right _ hfd)]
    simp

end

/-! ### Whole lines -/

theorem Item.render_length (i : Item) : 0 < i.render.length := by
  cases i with
  | arg w =>
    obtain ⟨c, q, hw, -⟩ := w.render_head
    simp [Item.render, hw]
  | devnull op gap w _ =>
    obtain ⟨c, q, hop, -⟩ := op.render_head
    simp [Item.render, hop]
  | copy op src => simp [Item.render]

theorem length_renderItems (items : List (Blank × Item)) :
    items.length ≤ (renderItems items).length := by
  induction items with
  | nil => exact le_rfl
  | cons e items ih =>
    have hpos := e.2.render_length
    rw [renderItems, List.flatMap_cons, ← renderItems]
    simp only [List.length_cons, List.length_append]
    omega

/-- **Lines are read as they are written.** -/
theorem line_reads (devnullOk : Bool) (l : Line) (hlen : (argsOf l.words).length ≤ MAX_ARGS)
    (hdev : ∀ fd, (fd, .devnull) ∈ l.redirs → devnullOk = true) :
    readLine devnullOk l.render = .ok ⟨argsOf l.words, l.redirs⟩ := by
  have hk : l.items.length < l.render.length + 1 := by
    have hle := length_renderItems l.items
    rw [Line.render, List.length_append]
    omega
  exact readFrom_items [] [] l.trail l.items hk l.gaps hlen hdev

/-- White space between two words. -/
abbrev Gap := { b : Blank // b.1 ≠ [] }

/-- A line of words. -/
def Line.ofWords (lead trail : Blank) (first : Word) (rest : List (Gap × Word)) : Line where
  items := (lead, .arg first) :: rest.map fun e => (e.1.1, .arg e.2)
  gaps := by
    intro e he
    obtain ⟨e', -, rfl⟩ := List.mem_map.mp he
    exact e'.1.2
  trail := trail

theorem Line.words_ofWords (lead trail : Blank) (first : Word) (rest : List (Gap × Word)) :
    (Line.ofWords lead trail first rest).words = first.text :: rest.map fun e => e.2.text := by
  simp only [Line.ofWords, Line.words, List.flatMap_cons, List.flatMap_map, Item.words]
  rw [List.map_eq_flatMap]
  rfl

theorem Line.redirs_ofWords (lead trail : Blank) (first : Word) (rest : List (Gap × Word)) :
    (Line.ofWords lead trail first rest).redirs = [] := by
  simp [Line.ofWords, Line.redirs, List.flatMap_map, Item.redirs]

/-- **Quoted words.** Up to `MAX_ARGS` words, the first not `exec`, are the arguments of the
command. -/
theorem words_parse (devnullOk : Bool) (junk : ByteMem) (lead trail : Blank) (first : Word)
    (rest : List (Gap × Word)) (hlen : rest.length + 1 ≤ MAX_ARGS)
    (hexec : first.text ≠ ascii "exec") :
    ∃ cmd, parseCommand true devnullOk junk (Line.ofWords lead trail first rest).cstring =
        some (.done cmd) ∧
      List.Forall₂ (StringAt cmd.storage ((Line.ofWords lead trail first rest).render.length + 1))
        cmd.argv (first.text :: rest.map fun e => e.2.text) ∧
      readLine devnullOk (Line.ofWords lead trail first rest).render =
        .ok ⟨first.text :: rest.map fun e => e.2.text, []⟩ ∧
      ∀ fd, cmd.redirect fd = .keep := by
  have hwords : argsOf (Line.ofWords lead trail first rest).words =
      first.text :: rest.map fun e => e.2.text := by
    rw [Line.words_ofWords, argsOf, List.dropWhile_cons_of_neg (by simpa using hexec)]
  have hredirs := Line.redirs_ofWords lead trail first rest
  have hread := line_reads devnullOk (Line.ofWords lead trail first rest)
    (by rw [hwords]; simpa using hlen) (by rw [hredirs]; simp)
  rw [hwords, hredirs] at hread
  obtain ⟨e, he, hA⟩ := parse_reads devnullOk junk (Line.ofWords lead trail first rest).cstring
  rw [show (Line.ofWords lead trail first rest).cstring.bytes =
    (Line.ofWords lead trail first rest).render from rfl, hread] at hA
  cases e with
  | done cmd => exact ⟨cmd, he, hA.2.argv, hread, fun fd => by rw [hA.2.table]; rfl⟩
  | unsupported => exact absurd hA (List.cons_ne_nil _ _)
  | fault | noMemory | noDevnull => exact hA.elim

/-- One word in three parts, and one word that is `exec` but not the first. -/
theorem words_parse_parts :
    ∃ cmd, parseCommand true false (fun _ => 7) ⟨ascii "'a b'\"\\$\"\\; 'exec'", by decide⟩ =
        some (.done cmd) ∧
      List.Forall₂ (StringAt cmd.storage 19) cmd.argv [ascii "a b$;", ascii "exec"] ∧
      readLine false (ascii "'a b'\"\\$\"\\; 'exec'") =
        .ok ⟨[ascii "a b$;", ascii "exec"], []⟩ ∧
      ∀ fd, cmd.redirect fd = .keep :=
  words_parse false (fun _ => 7) ⟨[], by simp⟩ ⟨[], by simp⟩
    ⟨[.single ⟨ascii "a b", by decide⟩ (by decide), .double ⟨ascii "$", by decide⟩,
      .escaped 59 (by decide)], by simp⟩
    [(⟨⟨[32], List.forall_mem_singleton.mpr rfl⟩, by simp⟩,
      ⟨[.single ⟨ascii "exec", by decide⟩ (by decide)], by simp⟩)]
    (by decide) (by decide)

end PgZero.Guest
