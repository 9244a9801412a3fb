import Mathlib.Tactic

/-!
# Reading a text that was patched

A reader moves forward over its text. The rules here compare a run on a text with a run on a text
that is like it, action by action, and tell when the two give the same: if a second reader, which
checks what it reads, does not stop.

* `times`, `whileMore`: loops, with **`Follows.times`** and **`Follows.whileMore`**.
-/

set_option autoImplicit false

namespace Lib

theorem bind_eq_ok {ε α β : Type} {x : Except ε α} {f : α → Except ε β} {b : β} :
    x >>= f = .ok b ↔ ∃ a, x = .ok a ∧ f a = .ok b := by
  constructor
  · intro h
    cases x with
    | error e => cases h
    | ok a => exact ⟨a, rfl, h⟩
  · rintro ⟨a, rfl, h⟩
    exact h

/-! ### Loops of actions -/

section Loops

variable {σ ε τ : Type}

/-- `for range n` -/
def times (body : τ → StateT σ (Except ε) τ) : ℕ → τ → StateT σ (Except ε) τ
  | 0, x => pure x
  | n + 1, x => do times body n (← body x)

/-- At most `n` turns of a loop that goes on while there is more. -/
def whileMore (more : σ → Bool) (stuck : ε) (body : τ → StateT σ (Except ε) τ) :
    ℕ → τ → StateT σ (Except ε) τ
  | 0, _ => throw stuck
  | n + 1, x => do
    if more (← get) then whileMore more stuck body n (← body x) else pure x

variable {more : σ → Bool} {stuck : ε} {body : τ → StateT σ (Except ε) τ}

theorem run_whileMore_succ (n : ℕ) (x : τ) (s : σ) :
    (whileMore more stuck body (n + 1) x).run s =
      if more s then (body x).run s >>= fun y => (whileMore more stuck body n y.1).run y.2
      else .ok (x, s) := by
  rw [whileMore]
  by_cases h : more s
  · simp [h]
  · simp [h]
    rfl

/-- **The bound.** A larger one gives the same result. -/
theorem run_whileMore {μ : σ → ℕ}
    (hbody : ∀ x s x' s', more s → (body x).run s = .ok (x', s') → μ s' < μ s) {n n' : ℕ} {x : τ}
    {s : σ} (hn : μ s < n) (hn' : μ s < n') :
    (whileMore more stuck body n x).run s = (whileMore more stuck body n' x).run s := by
  induction n generalizing n' x s with
  | zero => exact absurd hn (Nat.not_lt_zero _)
  | succ n ih =>
    cases n' with
    | zero => exact absurd hn' (Nat.not_lt_zero _)
    | succ n' =>
      rw [run_whileMore_succ, run_whileMore_succ]
      split_ifs with hmore
      · cases hb : (body x).run s with
        | error e => rfl
        | ok y =>
          have hlt := hbody x s y.1 y.2 hmore hb
          exact ih (by omega) (by omega)
      · rfl

end Loops

/-! ### Mirrors -/

section Mirrors

variable {σ ε α β : Type} (Like : σ → σ → Prop)

/-- A checked run: with the result `z` if the check passes, and with none otherwise. -/
def Checks (m : Except ε α) (z : α) (b : Bool) : Prop :=
  if b then m = .ok z else ∀ z', m ≠ .ok z'

/-- Every run of `p` has a mirror: on a text that is like its own, `q` runs to a state that is like
the one that `p` runs to. The results are related by `R`, together with what the check of `p'` says,
which is `p` with a check. -/
def Mirrors (p p' : StateT σ (Except ε) α) (q : StateT σ (Except ε) β) (R : α → β → Bool → Prop) :
    Prop :=
  ∀ s t x s', Like s t → p.run s = .ok (x, s') → ∃ y t' b, q.run t = .ok (y, t') ∧ Like s' t' ∧
    R x y b ∧ Checks (p'.run s) (x, s') b

variable {Like} {p p' : StateT σ (Except ε) α} {q : StateT σ (Except ε) β}
  {R : α → β → Bool → Prop}

theorem Mirrors.imp {S : α → β → Bool → Prop} (h : Mirrors Like p p' q R)
    (hRS : ∀ x y b, R x y b → S x y b) : Mirrors Like p p' q S := by
  intro s t x s' hl hp
  obtain ⟨y, t', b, hq, hl', hR, hc⟩ := h s t x s' hl hp
  exact ⟨y, t', b, hq, hl', hRS x y b hR, hc⟩

theorem Mirrors.pure {x : α} {y : β} (h : R x y true) :
    Mirrors Like (pure x : StateT σ (Except ε) α) (pure x) (Pure.pure y) R := by
  intro s t x' s' hl hp
  cases hp
  exact ⟨y, t, true, rfl, hl, h, rfl⟩

theorem Mirrors.throw {e : ε} : Mirrors Like (throw e : StateT σ (Except ε) α) p' q R := by
  intro s t x s' _ hp
  cases hp

theorem Mirrors.ite {p1 p1' : StateT σ (Except ε) α} {q1 : StateT σ (Except ε) β} {c : Prop}
    [Decidable c] (h : Mirrors Like p p' q R) (h1 : Mirrors Like p1 p1' q1 R) :
    Mirrors Like (if c then p else p1) (if c then p' else p1') (if c then q else q1) R := by
  split_ifs
  · exact h
  · exact h1

/-- **One action after the other**: both checks have to pass. -/
theorem Mirrors.bind {γ δ : Type} {f f' : α → StateT σ (Except ε) γ} {g : β → StateT σ (Except ε) δ}
    {S : γ → δ → Bool → Prop} (h : Mirrors Like p p' q R)
    (hf : ∀ x y b, R x y b → Mirrors Like (f x) (f' x) (g y) fun z w b' => S z w (b && b')) :
    Mirrors Like (p >>= f) (p' >>= f') (q >>= g) S := by
  intro s t z s2 hl hp
  rw [StateT.run_bind, bind_eq_ok] at hp
  obtain ⟨⟨x, s1⟩, hp1, hp2⟩ := hp
  obtain ⟨y, t1, b, hq1, hl1, hR, hc1⟩ := h s t x s1 hl hp1
  obtain ⟨w, t2, b', hq2, hl2, hS, hc2⟩ := hf x y b hR s1 t1 z s2 hl1 hp2
  refine ⟨w, t2, b && b', ?_, hl2, hS, ?_⟩
  · rw [StateT.run_bind, hq1]
    exact hq2
  · rw [StateT.run_bind]
    cases b with
    | true =>
      rw [show p'.run s = .ok (x, s1) from hc1]
      exact hc2
    | false =>
      intro z' hz
      obtain ⟨y', hy, -⟩ := bind_eq_ok.mp hz
      exact hc1 y' hy

variable {τ : Type} {f f' g : τ → StateT σ (Except ε) τ} (Rel Same : τ → τ → Prop)

/-- Actions on a value, in the mirror on a related one. The check passes if the values were the same
and still are. -/
def Follows (Like : σ → σ → Prop) (f f' g : τ → StateT σ (Except ε) τ) : Prop :=
  ∀ x y, Rel x y → Mirrors Like (f x) (f' x) (g y) fun x' y' b =>
    Rel x' y' ∧ (Same x' y' ↔ Same x y ∧ b = true)

variable {Rel Same}

theorem Follows.bind (h : Follows Rel Same Like f f' g) {f1 f1' g1 : τ → StateT σ (Except ε) τ}
    (h1 : Follows Rel Same Like f1 f1' g1) :
    Follows Rel Same Like (fun x => f x >>= f1) (fun x => f' x >>= f1') fun x => g x >>= g1 := by
  intro x y hxy
  refine Mirrors.bind (h x y hxy) fun x' y' b => ?_
  rintro ⟨hrel, hsame⟩
  refine (h1 x' y' hrel).imp fun x'' y'' b' => ?_
  rintro ⟨hrel', hsame'⟩
  exact ⟨hrel', by rw [hsame', hsame, Bool.and_eq_true, and_assoc]⟩

theorem Follows.times (h : Follows Rel Same Like f f' g) (n : ℕ) :
    Follows Rel Same Like (times f n) (times f' n) (times g n) := by
  induction n with
  | zero => exact fun x y hxy => Mirrors.pure ⟨hxy, by simp⟩
  | succ n ih => exact h.bind ih

theorem Follows.whileMore (h : Follows Rel Same Like f f' g) {more : σ → Bool}
    (hmore : ∀ s t, Like s t → more t = more s) {stuck : ε} (n : ℕ) :
    Follows Rel Same Like (whileMore more stuck f n) (whileMore more stuck f' n)
      (whileMore more stuck g n) := by
  induction n with
  | zero => exact fun x y _ => Mirrors.throw
  | succ n ih =>
    intro x y hxy s t x2 s2 hl hp
    rw [run_whileMore_succ] at hp
    rw [run_whileMore_succ, run_whileMore_succ, hmore s t hl]
    split_ifs at hp ⊢ with hm
    · -- the turn, and then the rest of the loop
      have hturn := h.bind ih x y hxy s t x2 s2 hl (by rw [StateT.run_bind]; exact hp)
      rwa [StateT.run_bind, StateT.run_bind] at hturn
    · cases hp
      exact ⟨y, t, true, rfl, hl, ⟨hxy, by simp⟩, rfl⟩

end Mirrors

end Lib
