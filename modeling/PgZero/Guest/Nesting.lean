import PgZero.Guest.Dispatch

/-!
# Nesting of signal handlers

Dispatch is re-entrant: a handler may call into the library, which may call further handlers. The
masks that the activations on the stack saved are related to each other by one invariant.

* **`Nested`**: what is held is blocked, now and in every mask that is still to be restored.
* **`mask_discipline`**: the masks around handlers, and the ignored mask.
-/

set_option autoImplicit false

namespace PgZero.Guest

open Function Lib Kernel List

variable {new old : BitVec 64} {f : GuestFrame} {l : List GuestFrame} {t : ℕ} {a : Activation}

/-! ### The stored masks -/

theorem getLsbD_blockedMask (mask : BitVec 64) (t : ℕ) :
    (blockedMask mask).getLsbD t = (mask.getLsbD t && decide (t ≠ SIGKILL ∧ t ≠ SIGSTOP)) := by
  have hk : SIGKILL % 64 = SIGKILL := rfl
  have hs : SIGSTOP % 64 = SIGSTOP := rfl
  by_cases ht : t < 64
  · rw [blockedMask, BitVec.getLsbD_and, BitVec.getLsbD_not, BitVec.getLsbD_or, getLsbD_BIT,
      getLsbD_BIT, hk, hs]
    by_cases h1 : t = SIGKILL <;> by_cases h2 : t = SIGSTOP <;> simp [ht, h1, h2]
  · have hge : 64 ≤ t := by omega
    rw [BitVec.getLsbD_of_ge _ _ hge, BitVec.getLsbD_of_ge _ _ hge, Bool.false_and]

theorem blockedMask_self {mask : BitVec 64} (hk : mask.getLsbD SIGKILL = false)
    (hs : mask.getLsbD SIGSTOP = false) : blockedMask mask = mask := by
  apply BitVec.eq_of_getLsbD_eq
  intro t _
  rw [getLsbD_blockedMask]
  by_cases h1 : t = SIGKILL
  · rw [h1, hk, Bool.false_and]
  · by_cases h2 : t = SIGSTOP
    · rw [h2, hs, Bool.false_and]
    · simp [h1, h2]

/-- What `update_ignored` tests for one signal. -/
def Ignores (act : SigAction) (sig : ℕ) : Prop :=
  act.handler = .ign ∨ (act.handler = .dfl ∧ DEFAULT_IGNORED &&& BIT sig ≠ 0)

theorem getLsbD_ignoredFold (actions : ℕ → SigAction) (l : List ℕ) (m : BitVec 64) (i : ℕ) :
    (l.foldl (fun ignored j =>
      let h := (actions (j + 1)).handler
      if h = .ign ∨ (h = .dfl ∧ DEFAULT_IGNORED &&& BIT (j + 1) ≠ 0) then ignored ||| BIT (j + 1)
      else ignored) m).getLsbD i = true ↔
    m.getLsbD i = true ∨ ∃ j ∈ l, i = (j + 1) % 64 ∧ Ignores (actions (j + 1)) (j + 1) := by
  induction l generalizing m with
  | nil => simp
  | cons j l ih =>
    rw [foldl_cons, ih]
    dsimp only
    split_ifs with hj
    · rw [BitVec.getLsbD_or, Bool.or_eq_true, getLsbD_BIT, decide_eq_true_iff]
      constructor
      · rintro ((h | h) | ⟨k, hk, h⟩)
        · exact Or.inl h
        · exact Or.inr ⟨j, mem_cons_self, h, hj⟩
        · exact Or.inr ⟨k, mem_cons_of_mem _ hk, h⟩
      · rintro (h | ⟨k, hk, h⟩)
        · exact Or.inl (Or.inl h)
        · rcases mem_cons.mp hk with rfl | hk
          · exact Or.inl (Or.inr h.1)
          · exact Or.inr ⟨k, hk, h⟩
    · constructor
      · rintro (h | ⟨k, hk, h⟩)
        · exact Or.inl h
        · exact Or.inr ⟨k, mem_cons_of_mem _ hk, h⟩
      · rintro (h | ⟨k, hk, h⟩)
        · exact Or.inl h
        · rcases mem_cons.mp hk with rfl | hk
          · exact absurd h.2 hj
          · exact Or.inr ⟨k, hk, h⟩

/-- The bit of signal 64 falls on bit 0, and so below the signals in question. -/
theorem getLsbD_ignoredMask (actions : ℕ → SigAction) {i : ℕ} (h1 : 1 ≤ i) (h2 : i ≤ 63) :
    (ignoredMask actions).getLsbD i = true ↔ Ignores (actions i) i := by
  rw [ignoredMask, getLsbD_ignoredFold]
  constructor
  · rintro (h | ⟨j, hj, hi, h⟩)
    · simp at h
    · have hj : j < 64 := mem_range.mp hj
      have hij : j + 1 = i := by omega
      rwa [hij] at h
  · intro h
    have hi : i - 1 + 1 = i := by omega
    refine Or.inr ⟨i - 1, mem_range.mpr (show i - 1 < 64 by omega), by omega, ?_⟩
    rwa [hi]

/-! ### What the activations hold back -/

/-- The signals that `run_handler` adds to the mask. -/
def Activation.Blocks (a : Activation) (t : ℕ) : Prop :=
  (t = a.sig ∧ a.act.nodefer = false) ∨ a.act.mask.getLsbD t = true

/-- Some activation holds `t` back, and neither its handler nor one above it has `t` unblocked. -/
def Held (t : ℕ) : List GuestFrame → Prop
  | [] => False
  | .handler a :: rest => a.unblocked.getLsbD t = false ∧ (a.Blocks t ∨ Held t rest)
  | _ :: rest => Held t rest

namespace GuestFrame

/-- The mask a frame restores when it ends. -/
def saved : GuestFrame → Option (BitVec 64)
  | .handler a => some a.saved
  | .suspending saved | .suspended saved => some saved
  | _ => none

/-- Frames that only wait for what is above them. -/
def quiet : GuestFrame → Bool
  | .dispatch | .handler _ | .suspended _ => true
  | _ => false

/-- Inside the update of a disposition, before `update_ignored`. -/
def updating : GuestFrame → Bool
  | .resetting _ | .storing _ => true
  | _ => false

end GuestFrame

/-- The mask that a handler's frame restores covers what is held back below it; `sigsuspend` was
called by code that may change the mask. -/
def GuestFrame.Covers (t : ℕ) (rest : List GuestFrame) : GuestFrame → Prop
  | .handler a => Held t rest → a.saved.getLsbD t = true
  | .suspending _ | .suspended _ => userCode rest = true
  | _ => True

/-- All frames that are to restore a mask can do so. -/
def SavedOk (t : ℕ) : List GuestFrame → Prop
  | [] => True
  | f :: rest => f.Covers t rest ∧ SavedOk t rest

/-- **The masks of nested activations.** `SIGKILL` and `SIGSTOP` cannot be held back. -/
structure Nested (blocked : BitVec 64) (stack : List GuestFrame) : Prop where
  held : ∀ t, t ≠ SIGKILL → t ≠ SIGSTOP → Held t stack → blocked.getLsbD t = true
  saved : ∀ t, t ≠ SIGKILL → t ≠ SIGSTOP → SavedOk t stack

section Nested

variable {b mask : BitVec 64} {f : GuestFrame} {l : List GuestFrame}

theorem held_cons (hf : ∀ a, f ≠ .handler a) : Held t (f :: l) ↔ Held t l := by
  cases f with
  | handler a => exact absurd rfl (hf a)
  | _ => exact Iff.rfl

theorem nested_cons (hf : f.saved = none) : Nested b (f :: l) ↔ Nested b l := by
  have hh : ∀ a, f ≠ .handler a := by
    rintro a rfl
    cases hf
  constructor
  · intro h
    exact ⟨fun t hk hs ht => h.held t hk hs ((held_cons hh).mpr ht),
      fun t hk hs => (h.saved t hk hs).2⟩
  · intro h
    refine ⟨fun t hk hs ht => h.held t hk hs ((held_cons hh).mp ht),
      fun t hk hs => ⟨?_, h.saved t hk hs⟩⟩
    cases f <;> trivial

theorem Nested.restore (h : Nested b (.handler a :: l)) :
    Nested (blockedMask a.saved) l := by
  refine ⟨fun t hk hs ht => ?_, fun t hk hs => (h.saved t hk hs).2⟩
  rw [getLsbD_blockedMask, (h.saved t hk hs).1 ht]
  simp [hk, hs]

/-- `sigsuspend` sleeps, wakes and goes on to its end with the mask it saved. -/
theorem Nested.suspended (h : Nested b (.suspending mask :: l)) : Nested b (.suspended mask :: l) :=
  ⟨h.held, h.saved⟩

theorem nested_suspended (h : Nested b (.suspended mask :: l)) : Nested b l :=
  ⟨h.held, fun t hk hs => (h.saved t hk hs).2⟩

theorem Nested.suspending (h : Nested b l) (hu : userCode l = true) :
    Nested b (.suspending mask :: l) :=
  ⟨h.held, fun t hk hs => ⟨hu, h.saved t hk hs⟩⟩

theorem userCode_noteUnblocked (old new : BitVec 64) (l : List GuestFrame) :
    userCode (noteUnblocked old new l) = userCode l := by
  cases l with
  | nil => rfl
  | cons f l => cases f <;> rfl

/-- What is held under the new mask is in it, or was held and is not in the old one. -/
theorem held_noteUnblocked (hu : userCode l = true)
    (h : Held t (noteUnblocked old new l)) :
    new.getLsbD t = true ∨ (Held t l ∧ old.getLsbD t = false) := by
  cases l with
  | nil => exact h.elim
  | cons f l =>
    cases f with
    | handler a =>
      have h1 : ((a.unblocked ||| old) &&& ~~~new).getLsbD t = false := h.1
      by_cases hlt : t < 64
      · rw [BitVec.getLsbD_and, BitVec.getLsbD_or, BitVec.getLsbD_not, decide_eq_true hlt,
          Bool.true_and, Bool.and_eq_false_iff, Bool.or_eq_false_iff, Bool.not_eq_false'] at h1
        rcases h1 with h1 | h1
        · exact Or.inr ⟨⟨h1.1, h.2⟩, h1.2⟩
        · exact Or.inl h1
      · have hge : 64 ≤ t := not_lt.mp hlt
        exact Or.inr ⟨⟨BitVec.getLsbD_of_ge _ _ hge, h.2⟩, BitVec.getLsbD_of_ge _ _ hge⟩
    | _ => cases hu

theorem savedOk_noteUnblocked (h : SavedOk t l) :
    SavedOk t (noteUnblocked old new l) := by
  cases l with
  | nil => exact h
  | cons f l =>
    cases f with
    | handler a => exact ⟨h.1, h.2⟩
    | _ => exact h

theorem Nested.changeMask (h : Nested b l) (hu : userCode l = true) (mask : BitVec 64) :
    Nested mask (noteUnblocked b mask l) := by
  refine ⟨fun t hk hs ht => ?_, fun t hk hs => savedOk_noteUnblocked (h.saved t hk hs)⟩
  rcases held_noteUnblocked hu ht with hnew | ⟨hl, hold⟩
  · exact hnew
  · cases (h.held t hk hs hl).symm.trans hold

/-- A handler starts under a mask that covers its own signals and all that were held before. -/
theorem Nested.start (h : Nested a.saved l) (hlt : a.sig < 64) :
    Nested (blockedMask (GuestState.handlerMask a)) (.handler a :: l) := by
  refine ⟨fun t hk hs ht => ?_, fun t hk hs => ⟨fun he => ?_, h.saved t hk hs⟩⟩
  · have hm : (GuestState.handlerMask a).getLsbD t = true := by
      rw [GuestState.handlerMask, BitVec.getLsbD_or, BitVec.getLsbD_or]
      rcases ht.2 with (⟨rfl, hn⟩ | hmask) | hl
      · rw [hn, if_neg (by simp), getLsbD_BIT, Nat.mod_eq_of_lt hlt]
        simp
      · rw [hmask, Bool.or_true, Bool.true_or]
      · rw [h.held t hk hs hl, Bool.true_or, Bool.true_or]
    rw [getLsbD_blockedMask, hm]
    simp [hk, hs]
  · exact h.held t hk hs he

end Nested

/-! ### The frames -/

/-- What the function on top of the stack knows about the mask. -/
def TopReady (blocked : BitVec 64) : List GuestFrame → Prop
  | .deliver sig :: _ => sig < 64 ∧ blocked.getLsbD sig = false
  | .resetting a :: _ | .blocking a :: _ =>
    a.saved = blocked ∧ a.sig < 64 ∧ blocked.getLsbD a.sig = false ∧
      a.sig ≠ SIGKILL ∧ a.sig ≠ SIGSTOP
  | _ => True

theorem topReady_of_quiet {b : BitVec 64} (h : ∀ f ∈ l, f.quiet = true) :
    TopReady b l := by
  cases l with
  | nil => trivial
  | cons f l =>
    have hf := h f mem_cons_self
    cases f <;> trivial

/-- Only the top of the stack is in the middle of something. -/
def TailQuiet (stack : List GuestFrame) : Prop := ∀ f ∈ stack.tail, f.quiet = true

theorem quiet_of_user (h : TailQuiet l) (hu : userCode l = true) :
    ∀ f ∈ l, f.quiet = true := by
  intro f hf
  cases l with
  | nil => cases hf
  | cons g l =>
    rcases mem_cons.mp hf with rfl | hf
    · cases f <;> first | rfl | cases hu
    · exact h f hf

theorem quiet_noteUnblocked (old new : BitVec 64) {l : List GuestFrame}
    (h : ∀ f ∈ l, f.quiet = true) : ∀ f ∈ noteUnblocked old new l, f.quiet = true := by
  intro f hf
  cases l with
  | nil => cases hf
  | cons g l =>
    cases g with
    | handler a =>
      rcases mem_cons.mp hf with rfl | hf
      · rfl
      · exact h f (mem_cons_of_mem _ hf)
    | _ => exact h f hf

/-! ### The invariant -/

/-- SIGKILL and SIGSTOP are neither blocked nor handled, and the masks nest along the stack. -/
structure MaskInv (s : GuestState) : Prop where
  kill : s.block.blocked.getLsbD SIGKILL = false
  stop : s.block.blocked.getLsbD SIGSTOP = false
  fixed : ∀ sig, (s.actions sig).handler = .fn → sig ≠ SIGKILL ∧ sig ≠ SIGSTOP
  tail : TailQuiet s.stack
  top : TopReady s.block.blocked s.stack
  nested : Nested s.block.blocked s.stack

section Step

variable {s s' : GuestState} {e : GuestEvent} {o : GuestAns}

/-- The mask and the dispositions stay, and the stack changes above `rest`. -/
theorem MaskInv.goto {stack : List GuestFrame} (h : MaskInv s) (hq : TailQuiet stack)
    (ht : TopReady s.block.blocked stack) (hn : Nested s.block.blocked stack) :
    MaskInv (s.goto stack) :=
  ⟨h.kill, h.stop, h.fixed, hq, ht, hn⟩

theorem MaskInv.setBlocked {mask : BitVec 64} {stack : List GuestFrame} (h : MaskInv s)
    (hq : TailQuiet stack) (ht : TopReady (blockedMask mask) stack)
    (hn : Nested (blockedMask mask) stack) : MaskInv ((s.setBlocked mask).goto stack) := by
  refine ⟨?_, ?_, h.fixed, hq, ht, hn⟩
  · show (blockedMask mask).getLsbD SIGKILL = false
    rw [getLsbD_blockedMask]
    simp
  · show (blockedMask mask).getLsbD SIGSTOP = false
    rw [getLsbD_blockedMask]
    simp

theorem MaskInv.step (h : MaskInv s) (hs : GuestStep s e s' o) : MaskInv s' := by
  have hb : ∀ {f rest}, s.stack = f :: rest → ∀ g ∈ rest, g.quiet = true := by
    intro f rest hf g hg
    exact h.tail g (by rw [hf]; exact hg)
  have hq : ∀ {f rest}, s.stack = f :: rest →
      ∀ g ∈ GuestFrame.dispatch :: rest, g.quiet = true := by
    intro f rest hf g hg
    rcases mem_cons.mp hg with rfl | hg
    · rfl
    · exact hb hf g hg
  have hn : ∀ {f rest}, s.stack = f :: rest → f.saved = none →
      Nested s.block.blocked rest := by
    intro f rest hf hsv
    exact (nested_cons hsv).mp (hf ▸ h.nested)
  have htop := h.top
  cases hs with
  | arrive bits => exact ⟨h.kill, h.stop, h.fixed, h.tail, h.top, h.nested⟩
  | stay => exact h
  | call f hf hu =>
    refine h.goto (quiet_of_user h.tail hu) ?_ ?_
    · rcases hf with rfl | rfl <;> trivial
    · refine (nested_cons ?_).mpr h.nested
      rcases hf with rfl | rfl <;> rfl
  | install sig act hu hv hk hst =>
    refine ⟨h.kill, h.stop, fun t ht => ?_, quiet_of_user h.tail hu, trivial,
      (nested_cons rfl).mpr h.nested⟩
    by_cases hts : t = sig
    · exact hts ▸ ⟨hk, hst⟩
    · have ht : (update s.actions sig act t).handler = .fn := ht
      rw [update_of_ne hts] at ht
      exact h.fixed t ht
  | changeMask mask f hf hu ho =>
    have hq := quiet_noteUnblocked s.block.blocked (blockedMask mask) (quiet_of_user h.tail hu)
    have hm := h.nested.changeMask hu (blockedMask mask)
    refine h.setBlocked hq ?_ ?_
    · rcases hf with rfl | rfl <;> trivial
    · rcases hf with rfl | rfl
      · exact (nested_cons rfl).mpr hm
      · exact hm.suspending ((userCode_noteUnblocked _ _ _).trans hu)
  | @wake _ saved rest hst =>
    refine h.goto ?_ trivial ?_
    · intro f hf
      rcases mem_cons.mp hf with rfl | hf
      · rfl
      · exact hb hst f hf
    · exact (nested_cons rfl).mpr (hst ▸ h.nested : Nested _ (.suspending saved :: rest)).suspended
  | @resume _ saved rest hst =>
    have hnest : Nested s.block.blocked (.suspended saved :: rest) := hst ▸ h.nested
    have hu : userCode rest = true := (hnest.saved 0 (by decide) (by decide)).1
    have hq := quiet_noteUnblocked s.block.blocked (blockedMask saved) (hb hst)
    exact h.setBlocked (fun f hf => hq f (mem_of_mem_tail hf)) (topReady_of_quiet hq)
      ((nested_suspended hnest).changeMask hu (blockedMask saved))
  | leave hst hf =>
    refine h.goto (fun f hf => hb hst f (mem_of_mem_tail hf)) (topReady_of_quiet (hb hst))
      (hn hst ?_)
    rcases hf with rfl | rfl <;> rfl
  | enter hst => exact h.goto (hb hst) trivial ((nested_cons rfl).mpr (hn hst rfl))
  | take hst hlt hbit => exact h.goto (hb hst) ⟨hlt, hbit⟩ ((nested_cons rfl).mpr (hn hst rfl))
  | skip hst =>
    exact ⟨h.kill, h.stop, h.fixed, hb hst, trivial, (nested_cons rfl).mpr (hn hst rfl)⟩
  | exit hst => exact ⟨h.kill, h.stop, h.fixed, h.tail, h.top, h.nested⟩
  | @run _ sig rest hst hfn =>
    rw [hst] at htop
    exact ⟨h.kill, h.stop, h.fixed, hq hst, ⟨rfl, htop.1, htop.2, h.fixed sig hfn⟩,
      (nested_cons rfl).mpr ((nested_cons rfl).mpr (hn hst rfl))⟩
  | @reset _ sig rest hst hfn =>
    rw [hst] at htop
    refine ⟨h.kill, h.stop, fun t ht => ?_, hq hst, ⟨rfl, htop.1, htop.2, h.fixed sig hfn⟩,
      (nested_cons rfl).mpr ((nested_cons rfl).mpr (hn hst rfl))⟩
    have ht :
        (update s.actions sig { s.actions sig with handler := .dfl } t).handler = .fn :=
      ht
    by_cases hts : t = sig
    · rw [hts, update_self] at ht
      cases ht
    · rw [update_of_ne hts] at ht
      exact h.fixed t ht
  | resetDone hst =>
    rw [hst] at htop
    exact ⟨h.kill, h.stop, h.fixed, hb hst, htop, (nested_cons rfl).mpr (hn hst rfl)⟩
  | start hst =>
    rw [hst] at htop
    refine h.setBlocked (hb hst) trivial ?_
    refine Nested.start ?_ htop.2.1
    rw [htop.1]
    exact hn hst rfl
  | @handlerReturn _ a rest hst =>
    exact h.setBlocked (fun f hf => hb hst f (mem_of_mem_tail hf))
      (topReady_of_quiet (hb hst)) (Nested.restore (hst ▸ h.nested))
  | stored hst hor =>
    rcases hor with rfl | rfl
    · exact ⟨h.kill, h.stop, h.fixed, fun f hf => hb hst f (mem_of_mem_tail hf),
        topReady_of_quiet (hb hst), hn hst rfl⟩
    · exact ⟨h.kill, h.stop, h.fixed, hb hst, trivial, (nested_cons rfl).mpr (hn hst rfl)⟩
  | discard hst =>
    exact ⟨h.kill, h.stop, h.fixed, fun f hf => hb hst f (mem_of_mem_tail hf),
      topReady_of_quiet (hb hst), hn hst rfl⟩

theorem maskInv_reachable (h : maskSystem.Reachable s) : MaskInv s := by
  refine h.invariant (fun s hs => ?_) (fun s e s' o hi hs => hi.step (step_cases hs))
  obtain rfl : s = .start := hs
  refine ⟨by decide, by decide, fun _ => nofun, fun _ => nofun, trivial, ?_⟩
  exact ⟨fun _ _ _ hf => hf.elim, fun _ _ _ => trivial⟩

/-! ### The ignored mask -/

/-- Outside the updates of a disposition, the ignored mask is up to date. -/
def IgnoredOk (s : GuestState) : Prop :=
  (∀ f ∈ s.stack.head?, f.updating = false) → s.block.ignored = ignoredMask s.actions

theorem not_updating_of_user (hu : userCode l = true) :
    ∀ f ∈ l.head?, f.updating = false := by
  intro f hf
  cases l with
  | nil => cases hf
  | cons g l =>
    cases hf
    cases f <;> first | rfl | cases hu

theorem ignoredOk_of_eq (ha : s'.actions = s.actions) (hi : s'.block.ignored = s.block.ignored)
    (h : s.block.ignored = ignoredMask s.actions) : IgnoredOk s' := by
  intro _
  rw [hi, ha, h]

theorem ignoredOk_updateIgnored (s : GuestState) (stack : List GuestFrame) :
    IgnoredOk (s.updateIgnored.goto stack) := by
  intro _
  show ignoredMask s.actions = ignoredMask s.actions
  rfl

theorem IgnoredOk.step (h : IgnoredOk s) (hs : GuestStep s e s' o) : IgnoredOk s' := by
  have hst : ∀ {f rest}, s.stack = f :: rest → f.updating = false →
      s.block.ignored = ignoredMask s.actions := by
    intro f rest hf hn
    refine h (fun g hg => ?_)
    rw [hf] at hg
    cases hg
    exact hn
  cases hs with
  | arrive bits => exact h
  | stay => exact h
  | exit h1 => exact h
  | call f hf hu | changeMask mask f hf hu ho =>
    exact ignoredOk_of_eq rfl rfl (h (not_updating_of_user hu))
  | install sig act hu hv hk hs | reset h1 hfn =>
    exact fun hn => absurd (hn _ rfl) (by simp [GuestFrame.updating])
  | resetDone h1 | stored h1 hor => exact ignoredOk_updateIgnored s _
  | leave h1 hf =>
    refine ignoredOk_of_eq rfl rfl (hst h1 ?_)
    rcases hf with rfl | rfl <;> rfl
  | wake h1 | resume h1 | enter h1 | take h1 | skip h1 | run h1 | start h1 | handlerReturn h1
  | discard h1 => exact ignoredOk_of_eq rfl rfl (hst h1 rfl)

theorem ignoredOk_reachable (h : maskSystem.Reachable s) : IgnoredOk s := by
  refine h.invariant (fun s hs => ?_) (fun s e s' o hi hs => hi.step (step_cases hs))
  obtain rfl : s = .start := hs
  exact ignoredOk_updateIgnored .start []

/-! ### The return of `run_handler` -/

theorem noteUnblocked_cons (old new : BitVec 64) (f : GuestFrame) (l : List GuestFrame) :
    ∃ g, noteUnblocked old new (f :: l) = g :: l := by
  cases f <;> exact ⟨_, rfl⟩

/-- A step changes the top of the stack; the end of `sigsuspend` also makes a note below it. -/
theorem step_below (hs : GuestStep s e s' o) {f : GuestFrame} {l : List GuestFrame}
    (hf : s.stack = f :: l) : l <:+ s'.stack ∨ ∃ old new, s'.stack = noteUnblocked old new l := by
  have hl : l <:+ s.stack := hf ▸ suffix_cons f l
  have hrest : ∀ {g rest}, s.stack = g :: rest → l = rest := by
    intro g rest hg
    exact (List.cons.inj (hf.symm.trans hg)).2
  cases hs with
  | arrive bits | stay | exit h => exact Or.inl hl
  | call f hf hu | install sig act hu hv hk hst => exact Or.inl (hl.trans (suffix_cons _ _))
  | changeMask mask f1 hf1 hu ho =>
    obtain ⟨g, hg⟩ := noteUnblocked_cons s.block.blocked (blockedMask mask) f l
    have hnote : l <:+ noteUnblocked s.block.blocked (blockedMask mask) s.stack := by
      rw [hf, hg]
      exact suffix_cons g l
    exact Or.inl (hnote.trans (suffix_cons _ _))
  | wake h | run h | reset h =>
    rw [hrest h]
    exact Or.inl ((suffix_cons _ _).trans (suffix_cons _ _))
  | enter h | take h | skip h | resetDone h | start h =>
    rw [hrest h]
    exact Or.inl (suffix_cons _ _)
  | resume h =>
    rw [hrest h]
    exact Or.inr ⟨_, _, rfl⟩
  | leave h | handlerReturn h | discard h =>
    rw [hrest h]
    exact Or.inl (suffix_refl _)
  | stored h hor =>
    rw [hrest h]
    rcases hor with rfl | rfl
    · exact Or.inl (suffix_refl _)
    · exact Or.inl (suffix_cons _ _)

/-- The frame of a call of `run_handler` that is going to restore `b`. -/
def GuestFrame.Restores (b : BitVec 64) : GuestFrame → Prop
  | .resetting a | .blocking a | .handler a => a.saved = b
  | _ => False

theorem GuestFrame.Restores.noteUnblocked {b : BitVec 64}
    {rest : List GuestFrame} (hf : f.Restores b) (old new : BitVec 64)
    (h : f :: rest <:+ l) : ∃ f', f'.Restores b ∧ f' :: rest <:+ noteUnblocked old new l := by
  cases l with
  | nil => cases suffix_nil.mp h
  | cons g l =>
    rcases suffix_cons_iff.mp h with heq | hl
    · cases heq
      cases f with
      | handler a => exact ⟨.handler { a with unblocked := (a.unblocked ||| old) &&& ~~~new }, hf,
          suffix_refl _⟩
      | _ => exact ⟨_, hf, suffix_refl _⟩
    · obtain ⟨g', hg'⟩ := noteUnblocked_cons old new g l
      exact ⟨f, hf, hg' ▸ hl.trans (suffix_cons g' l)⟩

/-- Where a call of `run_handler` is, entered under the mask `b` for `sig`: not begun, with its
frame on the stack, or done. -/
inductive InCall (b : BitVec 64) (sig : ℕ) (rest : List GuestFrame) (s : GuestState) : Prop
  | before (h : s.stack = .deliver sig :: rest) (hb : s.block.blocked = b)
  | inside (f : GuestFrame) (hf : f.Restores b) (h : f :: .dispatch :: rest <:+ s.stack)
  | after (h : s.stack = .dispatch :: rest) (hb : s.block.blocked = b)

variable {b : BitVec 64} {sig : ℕ} {rest : List GuestFrame}

theorem InCall.begin (hs : GuestStep s e s' o) (h : s.stack = .deliver sig :: rest)
    (hb : s.block.blocked = b) : InCall b sig rest s' := by
  cases hs with
  | arrive bits | stay | exit h1 => exact .before h hb
  | call f hf hu | install sig act hu hv hk hst | changeMask mask f hf hu ho =>
    rw [h] at hu
    cases hu
  | skip h1 =>
    cases h.symm.trans h1
    exact .after rfl hb
  | run h1 hfn =>
    cases h.symm.trans h1
    exact .inside (.blocking (s.activation sig)) hb (suffix_refl _)
  | reset h1 hfn =>
    cases h.symm.trans h1
    exact .inside (.resetting (s.activation sig)) hb (suffix_refl _)
  | leave h1 hf =>
    cases h.symm.trans h1
    rcases hf with hf | hf <;> cases hf
  | wake h1 | resume h1 | enter h1 | take h1 | resetDone h1 | start h1 | handlerReturn h1
  | stored h1 | discard h1 => cases h.symm.trans h1

theorem InCall.own (hs : GuestStep s e s' o) (hclean : blockedMask b = b)
    (hf : f.Restores b) (h : s.stack = f :: .dispatch :: rest) : InCall b sig rest s' := by
  have hself : f :: .dispatch :: rest <:+ s.stack := h ▸ suffix_refl _
  cases hs with
  | arrive bits | stay | exit h1 => exact .inside f hf hself
  | call g hg hu | install sig act hu hv hk hst =>
    exact .inside f hf (hself.trans (suffix_cons _ _))
  | changeMask mask g hg hu ho =>
    cases f with
    | handler a =>
      obtain ⟨f, hf, hnote⟩ := hf.noteUnblocked s.block.blocked (blockedMask mask)
        (suffix_refl (.handler a :: .dispatch :: rest))
      rw [← h] at hnote
      exact .inside f hf (hnote.trans (suffix_cons _ _))
    | _ =>
      rw [h] at hu
      cases hu
  | resetDone h1 =>
    cases h.symm.trans h1
    exact .inside (.blocking _) hf (suffix_refl _)
  | start h1 =>
    cases h.symm.trans h1
    exact .inside (.handler _) hf (suffix_refl _)
  | @handlerReturn _ a _ h1 =>
    cases h.symm.trans h1
    have hf : a.saved = b := hf
    refine .after rfl ?_
    show blockedMask a.saved = b
    rw [hf, hclean]
  | leave h1 hl =>
    cases h.symm.trans h1
    rcases hl with rfl | rfl <;> cases hf
  | wake h1 | resume h1 | enter h1 | take h1 | skip h1 | run h1 | reset h1 | stored h1
  | discard h1 =>
    cases h.symm.trans h1
    cases hf

theorem InCall.step (h : InCall b sig rest s) (hclean : blockedMask b = b)
    (hn : s.stack ≠ .dispatch :: rest) (hs : GuestStep s e s' o) : InCall b sig rest s' := by
  cases h with
  | before h hb => exact .begin hs h hb
  | inside f hf h =>
    cases hst : s.stack with
    | nil =>
      rw [hst] at h
      cases suffix_nil.mp h
    | cons g l =>
      rw [hst] at h
      rcases suffix_cons_iff.mp h with heq | hl
      · exact .own hs hclean hf (hst.trans heq.symm)
      · rcases step_below hs hst with hbelow | ⟨old, new, hbelow⟩
        · exact .inside f hf (hl.trans hbelow)
        · obtain ⟨f, hf, hnote⟩ := hf.noteUnblocked old new hl
          exact .inside f hf (hbelow ▸ hnote)
  | after h hb => exact absurd h hn

end Step

/-! ### Flags that stay -/

namespace GuestFrame

/-- The locals of a `run_handler`. -/
def activation : GuestFrame → Option Activation
  | .resetting a | .blocking a | .handler a => some a
  | _ => none

/-- Whether a frame is an activation for `t`. -/
def runs (t : ℕ) (f : GuestFrame) : Bool := f.activation.any fun a => a.sig = t

end GuestFrame

/-- The activations of `t` have the flag `SA_NODEFER` as in `v`. -/
def FlagKept (t : ℕ) (v : Bool) (stack : List GuestFrame) : Prop :=
  ∀ f ∈ stack, ∀ a, f.activation = some a → a.sig = t → a.act.nodefer = v

/-- No handler installs a disposition for `t` while an activation of `t` is on the stack. -/
def NotReinstalled (t : ℕ) (s : GuestState) : GuestEvent → Prop
  | .user (.sigaction sig (some _)) => sig ≠ t ∨ s.stack.any (·.runs t) = false
  | _ => True

instance (t : ℕ) (s : GuestState) : (e : GuestEvent) → Decidable (NotReinstalled t s e)
  | .user (.sigaction sig (some _)) =>
    inferInstanceAs (Decidable (sig ≠ t ∨ s.stack.any (·.runs t) = false))
  | .user (.sigaction _ none) | .user .checkSignals | .user .dispatchSignals
  | .user (.sigprocmask _ _) | .user (.sigsuspend _) | .arrive _ | .handlerReturn | .slept _
  | .advance => inferInstanceAs (Decidable True)

section FlagKept

variable {s s' : GuestState} {e : GuestEvent} {o : GuestAns} {t : ℕ} {v : Bool}

theorem flagKept_cons :
    FlagKept t v (f :: l) ↔
      (∀ a, f.activation = some a → a.sig = t → a.act.nodefer = v) ∧ FlagKept t v l :=
  forall_mem_cons

theorem flagKept_push (hf : f.activation = none) :
    FlagKept t v (f :: l) ↔ FlagKept t v l := by
  rw [flagKept_cons, hf]
  exact and_iff_right nofun

theorem FlagKept.noteUnblocked (h : FlagKept t v l) :
    FlagKept t v (noteUnblocked old new l) := by
  cases l with
  | nil => exact h
  | cons f l =>
    cases f with
    | handler a =>
      obtain ⟨h1, h2⟩ := flagKept_cons.mp h
      refine flagKept_cons.mpr ⟨fun a' ha' hsig => ?_, h2⟩
      cases ha'
      exact h1 a rfl hsig
    | _ => exact h

theorem flagKept_of_not_runs (h : l.any (·.runs t) = false) :
    FlagKept t v l := by
  intro f hf a ha hsig
  have hr : f.runs t = false := by
    simpa using any_eq_false.mp h f hf
  rw [GuestFrame.runs, ha] at hr
  simp [hsig] at hr

theorem FlagKept.step (h : FlagKept t (s.actions t).nodefer s.stack) (hs : GuestStep s e s' o)
    (hc : NotReinstalled t s e) : FlagKept t (s'.actions t).nodefer s'.stack := by
  have hbelow : ∀ {f rest}, s.stack = f :: rest → FlagKept t (s.actions t).nodefer rest := by
    intro f rest hf
    rw [hf] at h
    exact (flagKept_cons.mp h).2
  cases hs with
  | arrive bits => exact h
  | stay => exact h
  | exit h1 => exact h
  | call f hf hu =>
    refine (flagKept_push ?_).mpr h
    rcases hf with rfl | rfl <;> rfl
  | install sig act hu hv hk hst =>
    refine (flagKept_push rfl).mpr ?_
    rcases hc with hne | hno
    · show FlagKept t (update s.actions sig act t).nodefer s.stack
      rw [update_of_ne (Ne.symm hne)]
      exact h
    · exact flagKept_of_not_runs hno
  | changeMask mask f hf hu ho =>
    refine (flagKept_push ?_).mpr h.noteUnblocked
    rcases hf with rfl | rfl <;> rfl
  | wake h1 => exact (flagKept_push rfl).mpr ((flagKept_push rfl).mpr (hbelow h1))
  | enter h1 | take h1 | skip h1 => exact (flagKept_push rfl).mpr (hbelow h1)
  | resume h1 => exact (hbelow h1).noteUnblocked
  | leave h1 | handlerReturn h1 | discard h1 => exact hbelow h1
  | run h1 hfn =>
    refine flagKept_cons.mpr ⟨fun a ha hsig => ?_, (flagKept_push rfl).mpr (hbelow h1)⟩
    cases ha
    obtain rfl : _ = t := hsig
    rfl
  | @reset _ sig _ h1 hfn =>
    have hflag : (update s.actions sig { s.actions sig with handler := .dfl } t).nodefer =
        (s.actions t).nodefer := by
      by_cases hts : t = sig
      · rw [hts, update_self]
      · rw [update_of_ne hts]
    show FlagKept t (update s.actions sig _ t).nodefer _
    rw [hflag]
    refine flagKept_cons.mpr ⟨fun a ha hsig => ?_, (flagKept_push rfl).mpr (hbelow h1)⟩
    cases ha
    obtain rfl : sig = t := hsig
    rfl
  | resetDone h1 | start h1 =>
    rw [h1] at h
    obtain ⟨ha, hrest⟩ := flagKept_cons.mp h
    exact flagKept_cons.mpr ⟨ha, hrest⟩
  | stored h1 hor =>
    rcases hor with rfl | rfl
    · exact hbelow h1
    · exact (flagKept_push rfl).mpr (hbelow h1)

theorem flagKept_reachable (h : (maskSystem.restrict (NotReinstalled t)).Reachable s) :
    FlagKept t (s.actions t).nodefer s.stack := by
  refine h.invariant (P := fun s => FlagKept t (s.actions t).nodefer s.stack) (fun s hs => ?_)
    (fun s e s' o hi hs => ?_)
  · obtain rfl : s = .start := hs
    exact fun _ => nofun
  · obtain ⟨hc, hs⟩ := System.restrict_step.mp hs
    exact hi.step (step_cases hs) hc

end FlagKept

/-! ### The discipline -/

theorem unblocked_of_not_held {above below : List GuestFrame}
    (h : ¬ Held t (above ++ .handler a :: below)) (ha : a.Blocks t) :
    ∃ c, .handler c ∈ above ++ [.handler a] ∧ c.unblocked.getLsbD t = true := by
  induction above with
  | nil =>
    refine ⟨a, mem_singleton_self _, ?_⟩
    by_contra hu
    exact h ⟨by simpa using hu, Or.inl ha⟩
  | cons f above ih =>
    by_cases hf : Held t (above ++ .handler a :: below)
    · -- the frame on top is the one that lets it go
      cases f with
      | handler c =>
        refine ⟨c, mem_cons_self, ?_⟩
        by_contra hu
        exact h ⟨by simpa using hu, Or.inr hf⟩
      | _ => exact absurd hf h
    · obtain ⟨c, hc, hu⟩ := ih hf
      exact ⟨c, mem_cons_of_mem _ hc, hu⟩

theorem started_blocking {s s' : GuestState} {e : GuestEvent}
    (hs : GuestStep s e s' (.started a)) : ∃ rest, s.stack = .blocking a :: rest := by
  cases hs with
  | stay ho | changeMask mask f hf hu ho => exact absurd rfl (ho a)
  | start h => exact ⟨_, h⟩

theorem started_not_held {s s' : GuestState} {e : GuestEvent} (h : MaskInv s)
    (hs : GuestStep s e s' (.started a)) : ¬ Held a.sig s.stack := by
  intro hheld
  obtain ⟨rest, hst⟩ := started_blocking hs
  have htop := h.top
  rw [hst] at htop
  obtain ⟨-, -, hb, hk, hs⟩ := htop
  cases (h.nested.held a.sig hk hs hheld).symm.trans hb

/-- The steps before `run_handler` returns to the dispatch loop with `rest` below. -/
def BeforeReturn (rest : List GuestFrame) (s : GuestState) (_ : GuestEvent) : Prop :=
  s.stack ≠ .dispatch :: rest

instance (rest : List GuestFrame) (s : GuestState) (e : GuestEvent) :
    Decidable (BeforeReturn rest s e) :=
  inferInstanceAs (Decidable (s.stack ≠ .dispatch :: rest))

/-- **Handlers and masks.** `run_handler` restores the mask; a handler runs inside an activation
that holds its signal back only if the signal was unblocked there; `SIGKILL` and `SIGSTOP` are not
blocked; and the ignored mask is that of the dispositions. -/
theorem mask_discipline :
    (∀ s1 sig rest, maskSystem.Reachable s1 → s1.stack = .deliver sig :: rest →
      ∀ tr s2, (maskSystem.restrict (BeforeReturn rest)).Run s1 tr s2 →
        s2.stack = .dispatch :: rest → s2.block.blocked = s1.block.blocked) ∧
    (∀ s e s' a0, maskSystem.Reachable s → maskSystem.step s e = some (s', .started a0) →
      ∀ above a below, s.stack = above ++ .handler a :: below → a.Blocks a0.sig →
        ∃ c, .handler c ∈ above ++ [.handler a] ∧ c.unblocked.getLsbD a0.sig = true) ∧
    (∀ s e s' a0, (maskSystem.restrict (NotReinstalled a0.sig)).Reachable s →
      maskSystem.step s e = some (s', .started a0) → a0.act.nodefer = false →
      ∀ above a below, s.stack = above ++ .handler a :: below → a.sig = a0.sig →
        ∃ c, .handler c ∈ above ++ [.handler a] ∧ c.unblocked.getLsbD a0.sig = true) ∧
    (∀ s, maskSystem.Reachable s →
      s.block.blocked.getLsbD SIGKILL = false ∧ s.block.blocked.getLsbD SIGSTOP = false) ∧
    (∀ s, maskSystem.Reachable s → (∀ f ∈ s.stack.head?, f.updating = false) →
      ∀ i, 1 ≤ i → i ≤ 63 → (s.block.ignored.getLsbD i = true ↔ Ignores (s.actions i) i)) := by
  have hstart : ∀ s e s' a0, MaskInv s → maskSystem.step s e = some (s', .started a0) →
      ∀ above a below, s.stack = above ++ .handler a :: below → a.Blocks a0.sig →
        ∃ c, .handler c ∈ above ++ [.handler a] ∧ c.unblocked.getLsbD a0.sig = true := by
    intro s e s' a0 hi hs above a below hst ha
    have hn := started_not_held hi (step_cases hs)
    rw [hst] at hn
    exact unblocked_of_not_held hn ha
  refine ⟨?_, fun s e s' a0 h hs => hstart s e s' a0 (maskInv_reachable h) hs, ?_, ?_, ?_⟩
  · intro s1 sig rest h1 hst tr s2 hr h2
    have hi := maskInv_reachable h1
    have hcall : InCall s1.block.blocked sig rest s2 := by
      refine hr.invariant (P := InCall s1.block.blocked sig rest) (fun s e s' o hin hs => ?_)
        (.before hst rfl)
      obtain ⟨hn, hs⟩ := System.restrict_step.mp hs
      exact hin.step (blockedMask_self hi.kill hi.stop) hn (step_cases hs)
    cases hcall with
    | before h hb => cases h2.symm.trans h
    | inside f hf h =>
      rw [h2] at h
      exact absurd h.length_le (by simp)
    | after h hb => exact hb
  · intro s e s' a0 h hs hno above a below hst hsig
    obtain ⟨rest, hrest⟩ := started_blocking (step_cases hs)
    have hflag := flagKept_reachable h
    have ha0 := hflag (.blocking a0) (by rw [hrest]; exact mem_cons_self) a0 rfl rfl
    have ha := hflag (.handler a) (by rw [hst]; simp) a rfl hsig
    have ha : a.act.nodefer = false := ha.trans (ha0.symm.trans hno)
    exact hstart s e s' a0 (maskInv_reachable h.of_restrict) hs above a below hst
      (Or.inl ⟨hsig.symm, ha⟩)
  · intro s h
    exact ⟨(maskInv_reachable h).kill, (maskInv_reachable h).stop⟩
  · intro s h hn i h1 h2
    rw [ignoredOk_reachable h hn]
    exact getLsbD_ignoredMask s.actions h1 h2

/-- Two handlers are installed, the first with the second's signal in its mask, and the first
signal is about to be delivered. -/
def nestedDeliver : List GuestEvent :=
  [.user (.sigaction 10 (some ⟨.fn, BIT 12, false, false⟩)), .advance,
    .user (.sigaction 12 (some ⟨.fn, 0, true, false⟩)), .advance,
    .arrive (BIT 10), .user .checkSignals, .advance, .advance]

/-- The first handler unblocks the second signal, whose handler is about to be called. -/
def nestedInner : List GuestEvent :=
  [.advance, .advance, .user (.sigprocmask .unblock (some (BIT 12))), .arrive (BIT 12),
    .advance, .advance, .advance, .advance]

theorem nestedInner_exec :
    ((maskSystem.exec .start (nestedDeliver ++ nestedInner)).bind fun p =>
      (maskSystem.step p.1 .advance).map fun q => (p.1.stack, q.2)) =
    some ([.blocking ⟨12, ⟨.fn, 0, true, false⟩, BIT 10, 0⟩, .dispatch,
      .handler ⟨10, ⟨.fn, BIT 12, false, false⟩, 0, BIT 12⟩, .dispatch],
      .started ⟨12, ⟨.fn, 0, true, false⟩, BIT 10, 0⟩) := by
  decide

theorem nestedReturn_exec :
    ((maskSystem.exec .start nestedDeliver).bind fun p =>
      ((maskSystem.restrict (BeforeReturn [])).exec p.1
        (nestedInner ++ [.advance, .handlerReturn, .advance, .handlerReturn])).map fun q =>
          (p.1.stack, q.1.stack)) =
    some ([.deliver 10], [.dispatch]) := by
  decide

/-- The second handler runs inside the first, which had unblocked its signal. -/
theorem mask_discipline_nested :
    (∃ s1 tr s2, maskSystem.Reachable s1 ∧ s1.stack = [.deliver 10] ∧
      (maskSystem.restrict (BeforeReturn [])).Run s1 tr s2 ∧ s2.stack = [.dispatch] ∧
      s2.block.blocked = s1.block.blocked) ∧
    ∃ s s' a0, maskSystem.Reachable s ∧ maskSystem.step s .advance = some (s', .started a0) ∧
      a0.sig = 12 ∧ ∃ c, .handler c ∈ s.stack ∧ c.unblocked.getLsbD 12 = true := by
  obtain ⟨hret, hheld, -⟩ := mask_discipline
  constructor
  · obtain ⟨⟨s1, tr1⟩, he1, h⟩ := Option.bind_eq_some_iff.mp nestedReturn_exec
    obtain ⟨⟨s2, tr2⟩, he2, h⟩ := Option.map_eq_some_iff.mp h
    obtain ⟨hst1, hst2⟩ := Prod.mk.inj h
    have h1 := System.reachable_of_exec nestedDeliver rfl he1
    have hr := System.exec_run _ _ he2
    exact ⟨s1, tr2, s2, h1, hst1, hr, hst2, hret s1 10 [] h1 hst1 tr2 s2 hr hst2⟩
  · obtain ⟨⟨s, tr⟩, he, h⟩ := Option.bind_eq_some_iff.mp nestedInner_exec
    obtain ⟨⟨s', o⟩, hs, h⟩ := Option.map_eq_some_iff.mp h
    obtain ⟨hst, rfl⟩ := Prod.mk.inj h
    have hr := System.reachable_of_exec (nestedDeliver ++ nestedInner) rfl he
    obtain ⟨c, hc, hu⟩ := hheld s .advance s' _ hr hs [.blocking _, .dispatch] _ [.dispatch] hst
      (Or.inr (by decide))
    refine ⟨s, s', _, hr, hs, rfl, c, ?_, hu⟩
    have hst : s.stack = _ := hst
    rw [hst]
    simpa using hc

end PgZero.Guest
