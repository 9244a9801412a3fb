import PgZero.Kernel.Signal

/-!
# Signal delivery

The life of one signal number, over the runs of `sigSystem`: it is sent, waits in `early` or in the
pending word, and is taken by a handler, by `sigwait` or by `sigaction`.

* **`step_signal`**: everything a step can do to one signal.
* **`signals_delivered`**: no signal is lost, and none is made up.
-/

set_option autoImplicit false

namespace PgZero.Kernel

open Lib SigState List

variable {s' s : SigState} {sig : ℕ} {o : SigAns} {e : SigEvent} {tr : List (SigEvent × SigAns)}

/-! ### Bits -/

theorem getLsbD_BIT (sig i : ℕ) : (BIT sig).getLsbD i = decide (i = sig % 64) := by
  have h : sig % 64 < 64 := Nat.mod_lt _ (by decide)
  show (BitVec.twoPow 64 (sig % 64)).getLsbD i = _
  rw [BitVec.getLsbD_twoPow]
  simp [h, eq_comm]

theorem getLsbD_shift {i : ℕ} (hi : i < 64) :
    (1#64 <<< sig).getLsbD i = decide (i = sig) := by
  show (BitVec.twoPow 64 sig).getLsbD i = _
  rw [BitVec.getLsbD_twoPow]
  by_cases h : i = sig
  · subst h; simp [hi]
  · simp [h, Ne.symm h]

theorem and_BIT_ne_zero (x : BitVec 64) (sig : ℕ) :
    x &&& BIT sig ≠ 0 ↔ x.getLsbD (sig % 64) = true := by
  have h : sig % 64 < 64 := Nat.mod_lt _ (by decide)
  constructor
  · intro hne
    by_contra hx
    apply hne
    apply BitVec.eq_of_getLsbD_eq
    intro i hi
    rw [BitVec.getLsbD_and, getLsbD_BIT]
    by_cases his : i = sig % 64
    · subst his
      simpa using hx
    · simp [his]
  · intro hx he
    have h1 : (x &&& BIT sig).getLsbD (sig % 64) = false := by rw [he]; simp
    rw [BitVec.getLsbD_and, getLsbD_BIT, hx] at h1
    simp at h1

theorem getLsbD_clear (x : BitVec 64) (sig : ℕ) {i : ℕ} (hi : i < 64) :
    (x &&& ~~~BIT sig).getLsbD i = (x.getLsbD i && decide (i ≠ sig % 64)) := by
  rw [BitVec.getLsbD_and, BitVec.getLsbD_not, getLsbD_BIT]
  simp [hi]

theorem ctzll_spec {x : BitVec 64} (hx : x ≠ 0) :
    ctzll x < 64 ∧ x.getLsbD (ctzll x) = true := by
  have hex : ∃ i ∈ List.range 64, x.getLsbD i = true := by
    by_contra hn
    apply hx
    apply BitVec.eq_of_getLsbD_eq
    intro i hi
    have : x.getLsbD i ≠ true := fun h => hn ⟨i, mem_range.mpr hi, h⟩
    simpa using this
  obtain ⟨i, hi⟩ := Option.isSome_iff_exists.mp (List.find?_isSome.mpr hex)
  have hc : ctzll x = i := by rw [ctzll, hi]; rfl
  rw [hc]
  exact ⟨mem_range.mp (mem_of_find?_eq_some hi), List.find?_some hi⟩

/-! ### The function on top of the stack -/

/-- A function that is not in the middle of taking a signal. -/
def SigFrame.quiet : SigFrame → Bool
  | .dispatch | .handler _ => true
  | _ => false

/-- The signal that the function on top is about to take is pending; one about to be discarded is
ignored. -/
def TopOk (b : SigBlock) : List SigFrame → Prop
  | .deliver sig :: _ | .consume sig :: _ => sig < 64 ∧ b.pending.getLsbD sig = true
  | .discard sig :: _ => validSignal sig = true ∧ b.ignored &&& BIT sig ≠ 0
  | _ => True

/-- While the guest lives, only the top of its stack is in the middle of something. -/
structure FramesOk (s : SigState) : Prop where
  tail : s.alive = true → ∀ f ∈ s.frames.tail, f.quiet = true
  top : s.alive = true → TopOk s.block s.frames

theorem topOk_of_quiet {b : SigBlock} {l : List SigFrame} (h : ∀ f ∈ l, f.quiet = true) :
    TopOk b l := by
  cases l with
  | nil => exact trivial
  | cons f l =>
    have hf := h f mem_cons_self
    cases f <;> first | exact trivial | cases hf

theorem TopOk.mono {b b' : SigBlock} {l : List SigFrame} (h : TopOk b l)
    (hp : ∀ i, b.pending.getLsbD i = true → b'.pending.getLsbD i = true)
    (hi : b'.ignored = b.ignored) : TopOk b' l := by
  cases l with
  | nil => exact trivial
  | cons f l =>
    cases f with
    | deliver sig | consume sig => exact ⟨h.1, hp sig h.2⟩
    | discard sig => exact ⟨h.1, hi ▸ h.2⟩
    | _ => exact trivial

theorem quiet_of_userCode (h : FramesOk s) (ha : s.alive = true)
    (hu : userCode s.frames = true) : ∀ f ∈ s.frames, f.quiet = true := by
  intro f hf
  cases hfr : s.frames with
  | nil => rw [hfr] at hf; cases hf
  | cons g l =>
    rw [hfr] at hf hu
    rcases mem_cons.mp hf with rfl | hl
    · cases f <;> first | rfl | cases hu
    · exact h.tail ha f (by rw [hfr]; exact hl)

theorem host_framesOk {a : SigState.HostAct} (h : FramesOk s)
    (hs : s.host a = some (s', o)) : FramesOk s' := by
  cases a with
  | signal sig =>
    simp only [host] at hs
    split_ifs at hs <;> obtain ⟨rfl, -⟩ := Prod.mk.inj (Option.some.inj hs)
    · exact ⟨h.tail, h.top⟩
    · refine ⟨h.tail, fun ha => (h.top ha).mono (fun i hi => ?_) rfl⟩
      rw [BitVec.getLsbD_or, hi, Bool.true_or]
    · exact ⟨h.tail, h.top⟩
  | send =>
    simp only [host] at hs
    split_ifs at hs
    obtain ⟨rfl, -⟩ := Prod.mk.inj (Option.some.inj hs)
    exact ⟨h.tail, h.top⟩

theorem process_framesOk {a : SigState.ProcessAct} (h : FramesOk s)
    (hs : s.process a = some (s', o)) : FramesOk s' := by
  cases a <;> simp only [process] at hs
  case register ok =>
    split_ifs at hs <;> obtain ⟨rfl, -⟩ := Prod.mk.inj (Option.some.inj hs)
    · refine ⟨h.tail, fun ha => (h.top ha).mono (fun i hi => ?_) rfl⟩
      rw [BitVec.getLsbD_or, hi, Bool.true_or]
    · exact h
  case halt =>
    split_ifs at hs
    obtain ⟨rfl, -⟩ := Prod.mk.inj (Option.some.inj hs)
    exact ⟨fun ha => (by cases ha), fun ha => (by cases ha)⟩
  all_goals
    split_ifs at hs <;>
    · obtain ⟨rfl, -⟩ := Prod.mk.inj (Option.some.inj hs)
      exact ⟨h.tail, h.top⟩

theorem runHandler_framesOk (s : SigState) (sig : ℕ) {rest : List SigFrame}
    (h : ∀ f ∈ rest, f.quiet = true) : FramesOk (s.runHandler sig rest) := by
  unfold runHandler
  dsimp only
  cases (s.actions sig).handler with
  | ign => exact ⟨fun _ => h, fun _ => trivial⟩
  | dfl =>
    dsimp only
    split_ifs
    · exact ⟨fun _ => h, fun _ => trivial⟩
    · exact ⟨fun ha => (by cases ha), fun ha => (by cases ha)⟩
  | fn =>
    refine ⟨fun _ f hf => ?_, fun _ => trivial⟩
    rcases mem_cons.mp hf with rfl | hf
    · rfl
    · exact h f hf

theorem guest_framesOk {a : SigState.GuestAct} (h : FramesOk s)
    (ha : s.alive = true) (hs : s.guest a = some (s', o)) : FramesOk s' := by
  cases a with
  | advance =>
    have htail := h.tail ha
    simp only [guest, advance] at hs
    split at hs
    case h_1 rest hf =>
      rw [hf] at htail
      split_ifs at hs with hd <;> obtain ⟨rfl, -⟩ := Prod.mk.inj (Option.some.inj hs)
      · exact ⟨fun _ f hf => htail f (mem_of_mem_tail hf), fun _ => topOk_of_quiet htail⟩
      · obtain ⟨h1, h2⟩ := ctzll_spec hd
        rw [BitVec.getLsbD_and, Bool.and_eq_true] at h2
        exact ⟨fun _ => htail, fun _ => ⟨h1, h2.1⟩⟩
    case h_2 sig rest hf =>
      rw [hf] at htail
      obtain ⟨rfl, -⟩ := Prod.mk.inj (Option.some.inj hs)
      exact runHandler_framesOk _ sig htail
    case h_4 set rest hf =>
      rw [hf] at htail
      split_ifs at hs with hd <;> obtain ⟨rfl, -⟩ := Prod.mk.inj (Option.some.inj hs)
      · exact h
      · obtain ⟨h1, h2⟩ := ctzll_spec hd
        rw [BitVec.getLsbD_and, Bool.and_eq_true] at h2
        exact ⟨fun _ => htail, fun _ => ⟨h1, h2.1⟩⟩
    case h_7 => exact absurd hs (by simp)
    -- the other functions return
    all_goals
      rename_i hf
      rw [hf] at htail
      obtain ⟨rfl, -⟩ := Prod.mk.inj (Option.some.inj hs)
      exact ⟨fun _ f hf => htail f (mem_of_mem_tail hf), fun _ => topOk_of_quiet htail⟩
  | sigaction sig act =>
    simp only [guest] at hs
    split_ifs at hs with hu hv hd <;> obtain ⟨rfl, -⟩ := Prod.mk.inj (Option.some.inj hs)
    · exact h
    all_goals have hq := quiet_of_userCode h ha hu
    · exact ⟨fun _ => hq, fun _ => ⟨by revert hv; cases validSignal sig <;> simp, hd⟩⟩
    · exact ⟨h.tail, fun _ => topOk_of_quiet hq⟩
  | dispatch | sigwait set =>
    simp only [guest] at hs
    split_ifs at hs with hu
    obtain ⟨rfl, -⟩ := Prod.mk.inj (Option.some.inj hs)
    exact ⟨fun _ => quiet_of_userCode h ha hu, fun _ => trivial⟩
  | _ =>
    simp only [guest] at hs
    split_ifs at hs with hu
    obtain ⟨rfl, -⟩ := Prod.mk.inj (Option.some.inj hs)
    have hq := quiet_of_userCode h ha hu
    exact ⟨h.tail, fun _ => topOk_of_quiet hq⟩

theorem framesOk_step (h : FramesOk s)
    (hs : sigSystem.step s e = some (s', o)) : FramesOk s' := by
  cases e with
  | host a => exact host_framesOk h hs
  | process a => exact process_framesOk h hs
  | guest a =>
    obtain ⟨hrun, hs⟩ := sigSystem_guest.mp hs
    exact guest_framesOk h hrun.1 hs

/-! ### One signal -/

/-- The event is a call of `Signal(sig)`. -/
def sends (sig : ℕ) : SigEvent × SigAns → Bool
  | (.host (.signal n), _) => n == sig
  | _ => false

/-- The step activates `run_handler(sig)`, returns `sig` from `sigwait` or discards it. -/
def takes (sig : ℕ) : SigEvent × SigAns → Bool
  | (_, .handled n) | (_, .waited n) | (_, .discarded n) => n == sig
  | _ => false

/-- The event registers the control block. -/
def registers : SigEvent × SigAns → Bool
  | (.process (.register ok), _) => ok
  | _ => false

/-- The event is `stopSignals`. -/
def stops : SigEvent × SigAns → Bool
  | (.process .stopSignals, _) => true
  | _ => false

/-- Whether `sig` is pending for the guest, and before that, for its registration. -/
def SigState.isPending (s : SigState) (sig : ℕ) : Bool := s.block.pending.getLsbD sig

/-- The signal came before the control block. -/
def SigState.isEarly (s : SigState) (sig : ℕ) : Bool := s.early.getLsbD sig

/-- What a step does to one signal: it sends it, moves it to the control block, takes it while it is
pending, or leaves it. -/
inductive SignalStep (sig : ℕ) (s : SigState) (x : SigEvent × SigAns) (s' : SigState) : Prop
  | sent (hx : sends sig x = true) (ht : takes sig x = false) (hr : registers x = false)
      (h : if s.attached then s'.isPending sig = true ∧ s'.isEarly sig = s.isEarly sig
        else s'.isPending sig = s.isPending sig ∧ s'.isEarly sig = true)
  | moved (hx : sends sig x = false) (ht : takes sig x = false) (hr : registers x = true)
      (h1 : s'.isPending sig = (s.isPending sig || s.isEarly sig)) (h2 : s'.isEarly sig = false)
  | taken (hx : sends sig x = false) (ht : takes sig x = true) (hr : registers x = false)
      (h1 : s.isPending sig = true) (h2 : s'.isPending sig = false)
      (h3 : s'.isEarly sig = s.isEarly sig)
  | left (hx : sends sig x = false) (ht : takes sig x = false) (hr : registers x = false)
      (h1 : s'.isPending sig = s.isPending sig) (h2 : s'.isEarly sig = s.isEarly sig)

theorem host_signal {a : SigState.HostAct} (h6 : sig < 64)
    (hk : sig ≠ SIGKILL) (hs : s.host a = some (s', o)) :
    SignalStep sig s (.host a, o) s' := by
  cases a with
  | signal n =>
    have hbit := @getLsbD_shift n sig h6
    simp only [host] at hs
    split_ifs at hs with h1 h2 <;> obtain ⟨rfl, rfl⟩ := Prod.mk.inj (Option.some.inj hs)
    · have hn : sends sig (.host (.signal n), .none) = false := by
        rw [h1]
        simpa [sends] using Ne.symm hk
      exact .left hn rfl rfl rfl rfl
    · by_cases hn : n = sig
      · subst hn
        refine .sent (by simp [sends]) rfl rfl ?_
        rw [if_pos h2]
        refine ⟨?_, rfl⟩
        unfold isPending
        rw [BitVec.getLsbD_or, hbit]
        simp
      · refine .left (by simpa [sends] using hn) rfl rfl ?_ rfl
        unfold isPending
        rw [BitVec.getLsbD_or, hbit]
        simp [Ne.symm hn]
    · by_cases hn : n = sig
      · subst hn
        refine .sent (by simp [sends]) rfl rfl ?_
        rw [if_neg h2]
        refine ⟨rfl, ?_⟩
        unfold isEarly
        rw [BitVec.getLsbD_or, hbit]
        simp
      · refine .left (by simpa [sends] using hn) rfl rfl rfl ?_
        unfold isEarly
        rw [BitVec.getLsbD_or, hbit]
        simp [Ne.symm hn]
  | send =>
    simp only [host] at hs
    split_ifs at hs
    obtain ⟨rfl, rfl⟩ := Prod.mk.inj (Option.some.inj hs)
    exact .left rfl rfl rfl rfl rfl

theorem process_signal {a : SigState.ProcessAct} (sig : ℕ)
    (hs : s.process a = some (s', o)) : SignalStep sig s (.process a, o) s' := by
  cases a <;> simp only [process] at hs
  case register ok =>
    split_ifs at hs with h1 h2 <;> obtain ⟨rfl, rfl⟩ := Prod.mk.inj (Option.some.inj hs)
    · refine .moved rfl rfl h2 ?_ ?_
      · unfold isPending isEarly
        rw [BitVec.getLsbD_or]
      · unfold isEarly
        simp
    · exact .left rfl rfl (by simpa [registers] using h2) rfl rfl
  all_goals
    split_ifs at hs <;>
    · obtain ⟨rfl, rfl⟩ := Prod.mk.inj (Option.some.inj hs)
      exact .left rfl rfl rfl rfl rfl

theorem guest_signal {a : SigState.GuestAct} (h1 : 1 ≤ sig)
    (h6 : sig < 64) (hf : TopOk s.block s.frames) (hs : s.guest a = some (s', o)) :
    SignalStep sig s (.guest a, o) s' := by
  have hearly : s'.isEarly sig = s.isEarly sig := by
    unfold isEarly
    rw [(guest_keeps hs).2.2]
  rcases guest_pending hs with ⟨hp, ho⟩ | ⟨n, rest, hp, ho⟩
  · have ht : takes sig (.guest a, o) = false := by
      rcases ho with rfl | ⟨e, rfl⟩ <;> rfl
    exact .left rfl ht rfl (by unfold isPending; rw [hp]) hearly
  · have hbit : s'.isPending sig = (s.isPending sig && decide (sig ≠ n % 64)) := by
      unfold isPending
      rw [hp, getLsbD_clear _ _ h6]
    -- a pending signal that the step takes, or another signal than `sig`
    have hgo : n < 64 → s.block.pending.getLsbD n = true →
        takes sig (.guest a, o) = (n == sig) → SignalStep sig s (.guest a, o) s' := by
      intro hn hpn ht
      rw [Nat.mod_eq_of_lt hn] at hbit
      by_cases hns : n = sig
      · subst hns
        exact .taken rfl (by rw [ht]; simp) rfl hpn (by simpa using hbit) hearly
      · exact .left rfl (by rw [ht]; simpa using hns) rfl (by simpa [Ne.symm hns] using hbit) hearly
    rcases ho with ⟨hfr, rfl⟩ | ⟨hfr, rfl⟩ | ⟨hfr, ho⟩ <;> rw [hfr] at hf
    · exact hgo hf.1 hf.2 rfl
    · exact hgo hf.1 hf.2 rfl
    · have hn : n ≤ 64 := by
        have hv : validSignal n = true := hf.1
        unfold validSignal NSIG at hv
        simp only [Bool.and_eq_true, decide_eq_true_eq] at hv
        omega
      have hset := and_BIT_ne_zero s.block.pending n
      split_ifs at ho with hb
      · -- signal 64 shares the bit of signal 0
        rw [hset] at hb
        subst ho
        rcases Nat.lt_or_eq_of_le hn with hlt | rfl
        · rw [Nat.mod_eq_of_lt hlt] at hb
          exact hgo hlt hb rfl
        · have hne : (64 == sig) = false := by simp; omega
          have hs0 : sig ≠ 0 := by omega
          exact .left rfl hne rfl (by simpa [hs0] using hbit) hearly
      · subst ho
        refine .left rfl rfl rfl (hbit.trans ?_) hearly
        by_cases hns : sig = n % 64
        · have hz : s.isPending sig = false := by
            rw [hset, ← hns] at hb
            exact Bool.not_eq_true _ ▸ hb
          rw [hz, Bool.false_and]
        · simp [hns]

/-- **Everything a step can do to one signal.** -/
theorem step_signal (h1 : 1 ≤ sig)
    (h6 : sig < 64) (hk : sig ≠ SIGKILL) (hf : FramesOk s)
    (hs : sigSystem.step s e = some (s', o)) : SignalStep sig s (e, o) s' := by
  cases e with
  | host a => exact host_signal h6 hk hs
  | process a => exact process_signal sig hs
  | guest a =>
    obtain ⟨hrun, hs⟩ := sigSystem_guest.mp hs
    exact guest_signal h1 h6 (hf.top hrun.1) hs

/-! ### Registration -/

theorem step_attached
    (hs : sigSystem.step s e = some (s', o)) :
    (registers (e, o) = true ∧ s.alive = true ∧ s'.attached = true ∧ stops (e, o) = false) ∨
    (stops (e, o) = true ∧ s.alive = false ∧ s'.alive = false ∧ s'.attached = false ∧
      registers (e, o) = false) ∨
    (registers (e, o) = false ∧ stops (e, o) = false ∧ s'.attached = s.attached ∧
      (s.alive = false → s'.alive = false)) := by
  cases e with
  | host a =>
    have hs : s.host a = some (s', o) := hs
    refine Or.inr (Or.inr ⟨rfl, rfl, ?_⟩)
    cases a <;> simp only [host] at hs <;> split_ifs at hs <;>
    · obtain ⟨rfl, -⟩ := Prod.mk.inj (Option.some.inj hs)
      exact ⟨rfl, id⟩
  | process a =>
    have hs : s.process a = some (s', o) := hs
    cases a <;> simp only [process] at hs
    case register ok =>
      split_ifs at hs with h1 h2 <;> obtain ⟨rfl, -⟩ := Prod.mk.inj (Option.some.inj hs)
      · exact Or.inl ⟨h2, h1.1, rfl, rfl⟩
      · exact Or.inr (Or.inr ⟨by simpa [registers] using h2, rfl, rfl, id⟩)
    case stopSignals =>
      split_ifs at hs with h1
      obtain ⟨rfl, -⟩ := Prod.mk.inj (Option.some.inj hs)
      have hd : s.alive = false := by simpa using h1
      exact Or.inr (Or.inl ⟨rfl, hd, hd, rfl, rfl⟩)
    case halt =>
      split_ifs at hs
      obtain ⟨rfl, -⟩ := Prod.mk.inj (Option.some.inj hs)
      exact Or.inr (Or.inr ⟨rfl, rfl, rfl, fun _ => rfl⟩)
    all_goals
      refine Or.inr (Or.inr ⟨rfl, rfl, ?_⟩)
      split_ifs at hs <;>
      · obtain ⟨rfl, -⟩ := Prod.mk.inj (Option.some.inj hs)
        exact ⟨rfl, id⟩
  | guest a =>
    obtain ⟨hrun, hs⟩ := sigSystem_guest.mp hs
    exact Or.inr (Or.inr ⟨rfl, rfl, (guest_keeps hs).2.1,
      fun hd => absurd (hrun.1.symm.trans hd) (by simp)⟩)

/-- What the state tells of the registrations so far. -/
structure Registered (tr : List (SigEvent × SigAns)) (s : SigState) : Prop where
  attached : s.attached = true → ∃ x ∈ tr, registers x = true
  detached : (∀ x ∈ tr, stops x = false) → s.attached = false → ∀ x ∈ tr, registers x = false
  stopped : (∃ x ∈ tr, stops x = true) → s.alive = false ∧ s.attached = false

theorem forall_mem_snoc {α : Type} {P : α → Prop} {l : List α} {a : α} :
    (∀ x ∈ l ++ [a], P x) ↔ (∀ x ∈ l, P x) ∧ P a := by
  simp [or_imp, forall_and]

theorem exists_mem_snoc {α : Type} {P : α → Prop} {l : List α} {a : α} :
    (∃ x ∈ l ++ [a], P x) ↔ (∃ x ∈ l, P x) ∨ P a := by
  simp [or_and_right, exists_or]

theorem registered_step
    (h : Registered tr s) (hs : sigSystem.step s e = some (s', o)) :
    Registered (tr ++ [(e, o)]) s' := by
  rcases step_attached hs with ⟨hr, ha, hat, hst⟩ | ⟨hst, ha, ha', hat, hr⟩ | ⟨hr, hst, hat, ha⟩
  · refine ⟨fun _ => exists_mem_snoc.mpr (Or.inr hr), fun _ hf => ?_, fun hex => ?_⟩
    · exact absurd (hat.symm.trans hf) (by simp)
    · rcases exists_mem_snoc.mp hex with hex | hx
      · exact absurd ((h.stopped hex).1.symm.trans ha) (by simp)
      · exact absurd (hst.symm.trans hx) (by simp)
  · refine ⟨fun ht => absurd (hat.symm.trans ht) (by simp), fun hns _ => ?_, fun _ => ⟨ha', hat⟩⟩
    exact absurd (hst.symm.trans (forall_mem_snoc.mp hns).2) (by simp)
  · refine ⟨fun ht => ?_, fun hns hf => ?_, fun hex => ?_⟩
    · exact exists_mem_snoc.mpr (Or.inl (h.attached (hat.symm.trans ht)))
    · exact forall_mem_snoc.mpr ⟨h.detached (forall_mem_snoc.mp hns).1 (hat.symm.trans hf), hr⟩
    · rcases exists_mem_snoc.mp hex with hex | hx
      · obtain ⟨h1, h2⟩ := h.stopped hex
        exact ⟨ha h1, hat.trans h2⟩
      · exact absurd (hst.symm.trans hx) (by simp)

/-! ### Histories -/

/-- The account of one signal over a run. -/
structure Account (sig : ℕ) (tr : List (SigEvent × SigAns)) (s : SigState) : Prop where
  /-- a signal sent is taken later, or still waits -/
  kept : ∀ tr1 a tr2, tr = tr1 ++ (.host (.signal sig), a) :: tr2 → (∀ x ∈ tr1, stops x = false) →
    (∃ x ∈ tr2, takes sig x = true) ∨ s.isPending sig = true ∨
      ((∀ x ∈ tr, registers x = false) ∧ s.isEarly sig = true)
  /-- signals taken, and those that wait, have been sent -/
  count : tr.countP (takes sig) + (s.isPending sig).toNat + (s.isEarly sig).toNat ≤
    tr.countP (sends sig)
  /-- before registration, what was sent is in `early` -/
  early : (∀ x ∈ tr, registers x = false) → (∃ x ∈ tr, sends sig x = true) → s.isEarly sig = true

theorem snoc_eq_append_cons {α : Type} {l l1 l2 : List α} {a b : α}
    (h : l ++ [a] = l1 ++ b :: l2) :
    (l2 = [] ∧ l = l1 ∧ a = b) ∨ ∃ l2', l2 = l2' ++ [a] ∧ l = l1 ++ b :: l2' := by
  rcases eq_nil_or_concat l2 with rfl | ⟨l2', c, rfl⟩
  · obtain ⟨h1, h2⟩ := append_inj' h rfl
    exact Or.inl ⟨rfl, h1, (List.cons.inj h2).1⟩
  · rw [concat_eq_append] at h ⊢
    rw [← cons_append, ← append_assoc] at h
    obtain ⟨h1, h2⟩ := append_inj' h rfl
    exact Or.inr ⟨l2', by rw [(List.cons.inj h2).1], h1⟩

theorem account_kept (h : Account sig tr s) (hreg : Registered tr s)
    (hst : SignalStep sig s (e, o) s') (tr1 : List (SigEvent × SigAns)) (a : SigAns)
    (tr2 : List (SigEvent × SigAns)) (heq : tr ++ [(e, o)] = tr1 ++ (.host (.signal sig), a) :: tr2)
    (hns : ∀ x ∈ tr1, stops x = false) :
    (∃ x ∈ tr2, takes sig x = true) ∨ s'.isPending sig = true ∨
      ((∀ x ∈ tr ++ [(e, o)], registers x = false) ∧ s'.isEarly sig = true) := by
  rcases snoc_eq_append_cons heq with ⟨rfl, rfl, hx⟩ | ⟨tr2', rfl, htr⟩
  · -- the signal is sent by the last step
    have hsend : sends sig (e, o) = true := by rw [hx]; simp [sends]
    cases hst with
    | sent _ _ hr hb =>
      cases hat : s.attached with
      | true =>
        rw [hat, if_pos rfl] at hb
        exact Or.inr (Or.inl hb.1)
      | false =>
        rw [hat, if_neg (by simp)] at hb
        exact Or.inr (Or.inr ⟨forall_mem_snoc.mpr ⟨hreg.detached hns hat, hr⟩, hb.2⟩)
    | moved hx' | taken hx' | left hx' => exact absurd (hsend.symm.trans hx') (by simp)
  · rcases h.kept tr1 a tr2' htr hns with hex | hp | ⟨hr, he⟩
    · exact Or.inl (exists_mem_snoc.mpr (Or.inl hex))
    · cases hst with
      | sent _ _ _ hb =>
        split_ifs at hb
        · exact Or.inr (Or.inl hb.1)
        · exact Or.inr (Or.inl (hb.1.trans hp))
      | moved _ _ _ h1 => exact Or.inr (Or.inl (by rw [h1, hp, Bool.true_or]))
      | taken _ ht => exact Or.inl (exists_mem_snoc.mpr (Or.inr ht))
      | left _ _ _ h1 => exact Or.inr (Or.inl (h1.trans hp))
    · cases hst with
      | sent _ _ hr' hb =>
        split_ifs at hb
        · exact Or.inr (Or.inl hb.1)
        · exact Or.inr (Or.inr ⟨forall_mem_snoc.mpr ⟨hr, hr'⟩, hb.2⟩)
      | moved _ _ _ h1 => exact Or.inr (Or.inl (by rw [h1, he, Bool.or_true]))
      | taken _ ht => exact Or.inl (exists_mem_snoc.mpr (Or.inr ht))
      | left _ _ hr' _ h2 => exact Or.inr (Or.inr ⟨forall_mem_snoc.mpr ⟨hr, hr'⟩, h2.trans he⟩)

theorem account_step (h : Account sig tr s) (hreg : Registered tr s)
    (hst : SignalStep sig s (e, o) s') : Account sig (tr ++ [(e, o)]) s' := by
  refine ⟨account_kept h hreg hst, ?_, fun hr hex => ?_⟩
  · have hc := h.count
    rw [countP_append, countP_append, countP_singleton, countP_singleton]
    cases hst with
    | sent hx ht _ hb =>
      rw [hx, ht]
      split_ifs at hb
      · rw [hb.1, hb.2]
        have := Bool.toNat_le (s.isPending sig)
        simp
        omega
      · rw [hb.1, hb.2]
        simp
        omega
    | moved hx ht _ h1 h2 =>
      rw [hx, ht, h1, h2]
      generalize s.isPending sig = p at hc ⊢
      generalize s.isEarly sig = q at hc ⊢
      cases p <;> cases q <;> simp at hc ⊢ <;> omega
    | taken hx ht _ h1 h2 h3 =>
      rw [h1] at hc
      rw [hx, ht, h2, h3]
      simp at hc ⊢
      omega
    | left hx ht _ h1 h2 =>
      rw [hx, ht, h1, h2]
      simpa using hc
  · obtain ⟨hr, hr'⟩ := forall_mem_snoc.mp hr
    have hat : s.attached = false := by
      by_contra hat
      obtain ⟨x, hx, hx'⟩ := hreg.attached (by simpa using hat)
      exact absurd ((hr x hx).symm.trans hx') (by simp)
    have hold : (∃ x ∈ tr, sends sig x = true) → s.isEarly sig = true := h.early hr
    cases hst with
    | sent _ _ _ hb =>
      rw [hat, if_neg (by simp)] at hb
      exact hb.2
    | moved _ _ hr1 => exact absurd (hr'.symm.trans hr1) (by simp)
    | taken hx _ _ _ _ h3 =>
      rcases exists_mem_snoc.mp hex with hex | hx'
      · exact h3.trans (hold hex)
      · exact absurd (hx.symm.trans hx') (by simp)
    | left hx _ _ _ h2 =>
      rcases exists_mem_snoc.mp hex with hex | hx'
      · exact h2.trans (hold hex)
      · exact absurd (hx.symm.trans hx') (by simp)

theorem run_ok (h : sigSystem.Run .start tr s) :
    FramesOk s ∧ Registered tr s := by
  refine h.history (P := fun tr s => FramesOk s ∧ Registered tr s) (fun tr s e s' o hi hs => ?_) ?_
  · exact ⟨framesOk_step hi.1 hs, registered_step hi.2 hs⟩
  · refine ⟨⟨fun _ f hf => ?_, fun _ => trivial⟩, ⟨fun hf => ?_, fun _ _ x hx => ?_, fun hex => ?_⟩⟩
    · cases hf
    · cases hf
    · cases hx
    · obtain ⟨x, hx, -⟩ := hex
      cases hx

theorem run_account
    (h : sigSystem.Run .start tr s) {sig : ℕ} (h1 : 1 ≤ sig) (h6 : sig < 64) (hk : sig ≠ SIGKILL) :
    Account sig tr s := by
  induction h with
  | nil =>
    have h0 : start.isPending sig = false ∧ start.isEarly sig = false := by
      simp [isPending, isEarly, start]
    refine ⟨fun tr1 a tr2 heq => ?_, ?_, fun _ hex => ?_⟩
    · exact absurd heq.symm (by simp)
    · rw [h0.1, h0.2]
      exact le_rfl
    · obtain ⟨x, hx, -⟩ := hex
      cases hx
  | snoc hr hs ih =>
    obtain ⟨hf, hreg⟩ := run_ok hr
    exact account_step ih hreg (step_signal h1 h6 hk hf hs)

theorem step_discarded (hf : FramesOk s)
    (hs : sigSystem.step s e = some (s', .discarded sig)) : s.block.ignored &&& BIT sig ≠ 0 := by
  cases e with
  | host a =>
    have hs : s.host a = some (s', .discarded sig) := hs
    cases a <;> simp only [host] at hs <;> split_ifs at hs <;> simp at hs
  | process a =>
    have hs : s.process a = some (s', .discarded sig) := hs
    cases a <;> simp only [process] at hs <;> split_ifs at hs <;> simp at hs
  | guest a =>
    obtain ⟨hrun, hs⟩ := sigSystem_guest.mp hs
    have htop := hf.top hrun.1
    rcases guest_pending hs with ⟨-, h | ⟨e, h⟩⟩ | ⟨n, rest, -, ⟨-, h⟩ | ⟨-, h⟩ | ⟨hfr, h⟩⟩
    any_goals cases h
    split_ifs at h
    obtain rfl : sig = n := SigAns.discarded.inj h
    rw [hfr] at htop
    exact htop.2

/-- **No signal is lost or made up**, before registration and until `stopSignals`. -/
theorem signals_delivered {tr : List (SigEvent × SigAns)} {s : SigState}
    (h : sigSystem.Run .start tr s) :
    (∀ sig, 1 ≤ sig → sig ≤ 63 → sig ≠ SIGKILL →
      (∀ tr1 a tr2, tr = tr1 ++ (.host (.signal sig), a) :: tr2 →
        (∀ x ∈ tr1, stops x = false) →
        (∃ x ∈ tr2, takes sig x = true) ∨ s.isPending sig = true ∨
          ((∀ x ∈ tr, registers x = false) ∧ s.isEarly sig = true)) ∧
      tr.countP (takes sig) + (s.isPending sig).toNat + (s.isEarly sig).toNat ≤
        tr.countP (sends sig) ∧
      (∀ s' o, sigSystem.step s (.process (.register true)) = some (s', o) →
        (∀ x ∈ tr, registers x = false) → (∃ x ∈ tr, sends sig x = true) →
        s'.isPending sig = true)) ∧
    (∀ e s' sig, sigSystem.step s e = some (s', .discarded sig) →
      s.block.ignored &&& BIT sig ≠ 0) ∧
    ((∃ x ∈ tr, stops x = true) → ∀ sig s' o,
      sigSystem.step s (.host (.signal sig)) = some (s', o) → s'.block = s.block) := by
  obtain ⟨hf, hreg⟩ := run_ok h
  refine ⟨fun sig h1 h2 hk => ?_, fun e s' sig hs => step_discarded hf hs,
    fun hex sig s' o hs => ?_⟩
  · have hacc := run_account h h1 (by omega) hk
    refine ⟨hacc.kept, hacc.count, fun s' o hs hr hex => ?_⟩
    have he := hacc.early hr hex
    cases step_signal h1 (by omega) hk hf hs with
    | sent hx => cases hx
    | moved _ _ _ h3 => rw [h3, he, Bool.or_true]
    | taken _ _ hr' => cases hr'
    | left _ _ hr' => cases hr'
  · have hat := (hreg.stopped hex).2
    have hs : s.host (.signal sig) = some (s', o) := hs
    simp only [host, hat, Bool.false_eq_true, if_false] at hs
    split_ifs at hs <;>
    · obtain ⟨rfl, -⟩ := Prod.mk.inj (Option.some.inj hs)
      rfl

/-- SIGTERM sent before registration, and handled by default: the process exits. -/
theorem signals_delivered_early : ∃ tr s, sigSystem.Run .start tr s ∧
    tr.countP (sends 15) = 1 ∧ tr.countP (takes 15) = 1 ∧ s.isPending 15 = false := by
  have hr := @System.exec_run _ _ _ sigSystem .start
    [.host (.signal 15), .process (.register true), .guest .dispatch, .guest .advance,
      .guest .advance] _ _ rfl
  have h := ((signals_delivered hr).1 15 (by decide) (by decide) (by decide)).2.1
  refine ⟨_, _, hr, by decide, by decide, ?_⟩
  by_contra hp
  rw [Bool.not_eq_false] at hp
  rw [hp] at h
  exact absurd h (by decide)

end PgZero.Kernel
