import PgZero.Kernel.Accept

/-!
# Where a connection is

Every connection has one place, and each step of `acceptSystem` moves at most one connection, apart
from the section of `release`, which takes the whole queue.
-/

set_option autoImplicit false

namespace PgZero.Kernel

open Function Lib Option

/-- Where a connection is. -/
inductive Place
  /-- not made yet -/
  | fresh
  | dialing (d : ℕ)
  | held (i : ℕ)
  | queued
  /-- taken from the queue by `release`, which has still to close it -/
  | taken
  | owned (j : ℕ)
  | gone
  deriving DecidableEq, Repr

/-- The connection is somebody's, and not that of an accepted socket. -/
def Place.passing : Place → Bool
  | .owned _ | .gone => false
  | _ => true

theorem Place.ne_gone {p : Place} (hp : p.passing = true) : p ≠ .gone := by
  rintro rfl
  cases hp

theorem Place.ne_owned {p : Place} (hp : p.passing = true) (j : ℕ) : p ≠ .owned j := by
  rintro rfl
  cases hp

namespace AcceptSys

/-- Connection `c` is at the place. -/
def At (s : AcceptSys) (c : ℕ) : Place → Prop
  | .fresh => s.nconns ≤ c
  | .dialing d => ∃ l, s.dials d = some (l, c)
  | .held i => (s.loops i).conn = some c
  | .queued => c ∈ s.acceptQ
  | .taken => c ∈ s.release.queued
  | .owned j => j < s.nsocks ∧ (s.accepted j).conn = some c
  | .gone => True

/-- `pl` says where each connection is. -/
def Loc (s : AcceptSys) (pl : ℕ → Place) : Prop := ∀ c p, p ≠ .gone → (s.At c p ↔ pl c = p)

/-- From `s` to `s'` connection `c` moves from `p` to `q`. -/
structure Moves (s s' : AcceptSys) (c : ℕ) (p q : Place) : Prop where
  rest : ∀ c' r, r ≠ p → r ≠ q → (s'.At c' r ↔ s.At c' r)
  source : ∀ c', s'.At c' p ↔ s.At c' p ∧ c' ≠ c
  target : q ≠ .gone → ∀ c', s'.At c' q ↔ s.At c' q ∨ c' = c

variable {s s' : AcceptSys} {pl : ℕ → Place} {c : ℕ} {p q : Place}

theorem Loc.move (h : s.Loc pl) (hc : pl c = p) (hp : p ≠ .gone) (hm : s.Moves s' c p q) :
    s'.Loc (update pl c q) := by
  intro c' r hr
  by_cases hrq : r = q
  · subst hrq
    rw [hm.target hr, h c' r hr]
    by_cases hcc : c' = c
    · subst hcc
      rw [update_self]
      exact ⟨fun _ => rfl, fun _ => .inr rfl⟩
    · rw [update_of_ne hcc]
      exact or_iff_left hcc
  · by_cases hrp : r = p
    · subst hrp
      rw [hm.source, h c' r hp]
      by_cases hcc : c' = c
      · subst hcc
        rw [update_self]
        exact ⟨fun ⟨_, hne⟩ => absurd rfl hne, fun hq => absurd hq.symm hrq⟩
      · rw [update_of_ne hcc]
        exact and_iff_left hcc
    · rw [hm.rest c' r hrp hrq, h c' r hr]
      by_cases hcc : c' = c
      · subst hcc
        rw [update_self, hc]
        exact ⟨fun he => absurd he.symm hrp, fun he => absurd he.symm hrq⟩
      · rw [update_of_ne hcc]

theorem obtained_obtain {i k c' : ℕ} (h : (s.obtain i c).obtained c' = some k) :
    s.obtained c' = some k ∨ c' = c ∧ Place.held i = .held k := by
  by_cases hcc : c' = c
  · subst hcc
    have he : i = k := by simpa [AcceptSys.obtain] using h
    exact .inr ⟨rfl, by rw [he]⟩
  · exact .inl (by simpa [AcceptSys.obtain, AcceptSys.setLoop, hcc] using h)

end AcceptSys

/-- The places `pl` fit the state. -/
structure AcceptInv (s : AcceptSys) (pl : ℕ → Place) : Prop where
  loc : s.Loc pl
  queue : s.acceptQ.Nodup
  taken : s.release.queued.Nodup
  obtained : ∀ c i, s.obtained c = some i →
    pl c ≠ .fresh ∧ (∀ d, pl c ≠ .dialing d) ∧ ∀ k, pl c = .held k → k = i
  closes : ∀ c, (∀ j, pl c ≠ .owned j) → s.closes c = if pl c = .gone then 1 else 0
  sock : ∀ j c, j < s.nsocks → (s.accepted j).conn = some c → CloseOk (s.socks j) (s.closes c)
  quiet : s.released = true → s.acceptQ = []

variable {s s' : AcceptSys} {pl : ℕ → Place} {c : ℕ} {p q : Place}

namespace AcceptInv

theorem at_iff (h : AcceptInv s pl) (hp : p ≠ .gone) : s.At c p ↔ pl c = p := h.loc c p hp

theorem move (h : AcceptInv s pl) (hm : s.Moves s' c p q) (hc : pl c = p) (hp : p.passing = true)
    (hqueue : s'.acceptQ.Nodup) (htaken : s'.release.queued.Nodup)
    (hobt : ∀ c' i, s'.obtained c' = some i → s.obtained c' = some i ∨ c' = c ∧ q = .held i)
    (hkept : s.obtained c ≠ none → q ≠ .fresh ∧ (∀ d, q ≠ .dialing d) ∧ ∀ k, q ≠ .held k)
    (hcl : s'.closes = update s.closes c (if q = .gone then 1 else 0))
    (hns : s'.nsocks = s.nsocks) (hacc : s'.accepted = s.accepted) (hso : s'.socks = s.socks)
    (hquiet : s'.released = true → s'.acceptQ = []) :
    AcceptInv s' (update pl c q) where
  loc := h.loc.move hc (Place.ne_gone hp) hm
  queue := hqueue
  taken := htaken
  obtained c' i hi := by
    by_cases hcc : c' = c
    · subst hcc
      rw [update_self]
      rcases hobt c' i hi with hi | ⟨-, rfl⟩
      · obtain ⟨h1, h2, h3⟩ := hkept (by rw [hi]; simp)
        exact ⟨h1, h2, fun k hk => absurd hk (h3 k)⟩
      · exact ⟨by simp, by simp, fun k hk => (Place.held.inj hk).symm⟩
    · rw [update_of_ne hcc]
      rcases hobt c' i hi with hi | ⟨he, -⟩
      · exact h.obtained c' i hi
      · exact absurd he hcc
  closes c' ho := by
    rw [hcl]
    by_cases hcc : c' = c
    · subst hcc
      rw [update_self, update_self]
    · rw [update_of_ne hcc] at ho ⊢
      rw [update_of_ne hcc]
      exact h.closes c' ho
  sock j c' hj hconn := by
    rw [hns] at hj
    rw [hacc] at hconn
    rw [hso, hcl]
    have howned : pl c' = .owned j := (h.at_iff (by simp)).mp ⟨hj, hconn⟩
    have hcc : c' ≠ c := by
      rintro rfl
      exact Place.ne_owned hp j (hc.symm.trans howned)
    rw [update_of_ne hcc]
    exact h.sock j c' hj hconn
  quiet := hquiet

theorem held_iff (h : AcceptInv s pl) {i : ℕ} : (s.loops i).conn = some c ↔ pl c = .held i :=
  h.loc c (.held i) (by simp)

theorem closes_zero (h : AcceptInv s pl) (hc : pl c = p) (hp : p.passing = true) :
    s.closes c = 0 := by
  rw [h.closes c (by rw [hc]; exact Place.ne_owned hp), hc, if_neg (Place.ne_gone hp)]

theorem closes_same (h : AcceptInv s pl) (hc : pl c = p) (hp : p.passing = true) (hq : q ≠ .gone) :
    s.closes = update s.closes c (if q = .gone then 1 else 0) := by
  rw [if_neg hq, ← h.closes_zero hc hp, update_eq_self]

theorem closes_once (h : AcceptInv s pl) (hc : pl c = p) (hp : p.passing = true) :
    update s.closes c (s.closes c + 1) =
      update s.closes c (if Place.gone = .gone then 1 else 0) := by
  rw [h.closes_zero hc hp, if_pos rfl]

theorem obtained_none (h : AcceptInv s pl) (hc : pl c = .fresh ∨ ∃ d, pl c = .dialing d) :
    s.obtained c = none := by
  cases hi : s.obtained c with
  | none => rfl
  | some i =>
    obtain ⟨h1, h2, -⟩ := h.obtained c i hi
    rcases hc with hc | ⟨d, hc⟩
    · exact absurd hc h1
    · exact absurd hc (h2 d)

theorem congr (h : AcceptInv s pl) (hat : ∀ c p, s'.At c p ↔ s.At c p)
    (hqueue : s'.acceptQ = s.acceptQ) (htaken : s'.release.queued = s.release.queued)
    (hobt : s'.obtained = s.obtained) (hcl : s'.closes = s.closes) (hns : s'.nsocks = s.nsocks)
    (hacc : s'.accepted = s.accepted) (hso : s'.socks = s.socks)
    (hrel : s'.released = s.released) : AcceptInv s' pl where
  loc c p hp := (hat c p).trans (h.loc c p hp)
  queue := by rw [hqueue]; exact h.queue
  taken := by rw [htaken]; exact h.taken
  obtained := by rw [hobt]; exact h.obtained
  closes := by rw [hcl]; exact h.closes
  sock := by rw [hns, hacc, hso, hcl]; exact h.sock
  quiet := by rw [hrel, hqueue]; exact h.quiet

theorem setLoop (h : AcceptInv s pl) {i : ℕ} {pc : LoopPc} (hi : (s.loops i).conn = pc.conn) :
    AcceptInv (s.setLoop i pc) pl := by
  refine h.congr (fun c p => ?_) rfl rfl rfl rfl rfl rfl rfl rfl
  cases p with
  | held k =>
    show (update s.loops i pc k).conn = some c ↔ (s.loops k).conn = some c
    by_cases hk : k = i
    · subst hk
      rw [update_self, hi]
    · rw [update_of_ne hk]
  | _ => exact Iff.rfl

theorem dial (h : AcceptInv s pl) {d l : ℕ} (hd : s.dials d = none) :
    AcceptInv { s.newConn with dials := update s.dials d (some (l, s.nconns)) }
      (update pl s.nconns (.dialing d)) := by
  have hc : pl s.nconns = .fresh := (h.at_iff (by simp)).mp le_rfl
  have hobt := h.obtained_none (.inl hc)
  have hm : s.Moves { s.newConn with dials := update s.dials d (some (l, s.nconns)) }
      s.nconns .fresh (.dialing d) := by
    refine ⟨fun c' r hp hq => ?_, fun c' => ?_, fun _ c' => ?_⟩
    · cases r with
      | fresh => exact absurd rfl hp
      | dialing d' =>
        have hdd : d' ≠ d := fun he => hq (by rw [he])
        simp [AcceptSys.At, hdd]
      | _ => exact Iff.rfl
    · show s.nconns + 1 ≤ c' ↔ s.nconns ≤ c' ∧ c' ≠ s.nconns
      omega
    · simp [AcceptSys.At, hd, eq_comm]
  exact h.move hm hc rfl h.queue h.taken (fun _ _ hi => .inl hi)
    (fun hn => absurd hobt hn) (h.closes_same hc rfl (by simp)) rfl rfl rfl h.quiet

theorem handover (h : AcceptInv s pl) {d l : ℕ} (hd : s.dials d = some (l, c))
    (hl : s.loops l = .accepting) :
    AcceptInv ((s.setDial d none).obtain l c) (update pl c (.held l)) := by
  have hc : pl c = .dialing d := (h.at_iff (by simp)).mp ⟨l, hd⟩
  have hobt := h.obtained_none (.inr ⟨d, hc⟩)
  have hm : s.Moves ((s.setDial d none).obtain l c) c (.dialing d) (.held l) := by
    refine ⟨fun c' r hp hq => ?_, fun c' => ?_, fun _ c' => ?_⟩
    · cases r with
      | dialing d' =>
        have hdd : d' ≠ d := fun he => hp (by rw [he])
        simp [AcceptSys.At, AcceptSys.obtain, AcceptSys.setLoop, AcceptSys.setDial, hdd]
      | held i =>
        have hil : i ≠ l := fun he => hq (by rw [he])
        simp [AcceptSys.At, AcceptSys.obtain, AcceptSys.setLoop, AcceptSys.setDial, hil]
      | _ => exact Iff.rfl
    · simp [AcceptSys.At, AcceptSys.obtain, AcceptSys.setLoop, AcceptSys.setDial, hd, eq_comm]
    · simp [AcceptSys.At, AcceptSys.obtain, AcceptSys.setLoop, hl, LoopPc.conn, eq_comm]
  exact h.move hm hc rfl h.queue h.taken
    (fun _ _ hi => AcceptSys.obtained_obtain hi) (fun hn => absurd hobt hn)
    (h.closes_same hc rfl (by simp)) rfl rfl rfl h.quiet

theorem hostAccept (h : AcceptInv s pl) {i : ℕ} (hi : s.loops i = .accepting) :
    AcceptInv (s.newConn.obtain i s.nconns) (update pl s.nconns (.held i)) := by
  have hc : pl s.nconns = .fresh := (h.at_iff (by simp)).mp le_rfl
  have hobt := h.obtained_none (.inl hc)
  have hm : s.Moves (s.newConn.obtain i s.nconns) s.nconns .fresh (.held i) := by
    refine ⟨fun c' r hp hq => ?_, fun c' => ?_, fun _ c' => ?_⟩
    · cases r with
      | fresh => exact absurd rfl hp
      | held k =>
        have hki : k ≠ i := fun he => hq (by rw [he])
        simp [AcceptSys.At, AcceptSys.obtain, AcceptSys.setLoop, AcceptSys.newConn, hki]
      | _ => exact Iff.rfl
    · show s.nconns + 1 ≤ c' ↔ s.nconns ≤ c' ∧ c' ≠ s.nconns
      omega
    · simp [AcceptSys.At, AcceptSys.obtain, AcceptSys.setLoop, hi, LoopPc.conn, eq_comm]
  exact h.move hm hc rfl h.queue h.taken
    (fun _ _ hi => AcceptSys.obtained_obtain hi) (fun hn => absurd hobt hn)
    (h.closes_same hc rfl (by simp)) rfl rfl rfl h.quiet

theorem dialFails (h : AcceptInv s pl) {d l : ℕ} (hd : s.dials d = some (l, c)) :
    AcceptInv ((s.setDial d none).close c 1) (update pl c .gone) := by
  have hc : pl c = .dialing d := (h.at_iff (by simp)).mp ⟨l, hd⟩
  have hobt := h.obtained_none (.inr ⟨d, hc⟩)
  have hm : s.Moves ((s.setDial d none).close c 1) c (.dialing d) .gone := by
    refine ⟨fun c' r hp hq => ?_, fun c' => ?_, fun hq => absurd rfl hq⟩
    · cases r with
      | dialing d' =>
        have hdd : d' ≠ d := fun he => hp (by rw [he])
        simp [AcceptSys.At, AcceptSys.close, AcceptSys.setDial, hdd]
      | _ => exact Iff.rfl
    · simp [AcceptSys.At, AcceptSys.close, AcceptSys.setDial, hd, eq_comm]
  exact h.move hm hc rfl h.queue h.taken (fun _ _ hi => .inl hi)
    (fun hn => absurd hobt hn) (h.closes_once hc rfl) rfl rfl rfl h.quiet

theorem enqueue (h : AcceptInv s pl) {i : ℕ} (hi : s.loops i = .holding c)
    (hr : s.released = false) :
    AcceptInv { s.setLoop i .notifying with acceptQ := s.acceptQ ++ [c] }
      (update pl c .queued) := by
  have hc : pl c = .held i := h.held_iff.mp (by rw [hi]; rfl)
  have hfresh : c ∉ s.acceptQ := by
    intro hmem
    have hq : pl c = .queued := (h.at_iff (by simp)).mp hmem
    cases hc.symm.trans hq
  have hm : s.Moves { s.setLoop i .notifying with acceptQ := s.acceptQ ++ [c] } c
      (.held i) .queued := by
    refine ⟨fun c' r hp hq => ?_, fun c' => ?_, fun _ c' => ?_⟩
    · cases r with
      | held k =>
        have hki : k ≠ i := fun he => hp (by rw [he])
        simp [AcceptSys.At, AcceptSys.setLoop, hki]
      | queued => exact absurd rfl hq
      | _ => exact Iff.rfl
    · simp [AcceptSys.At, AcceptSys.setLoop, hi, LoopPc.conn, eq_comm]
    · simp [AcceptSys.At]
  have hnodup : (s.acceptQ ++ [c]).Nodup := by
    rw [← List.concat_eq_append, List.nodup_concat]
    exact ⟨hfresh, h.queue⟩
  refine h.move hm hc rfl hnodup h.taken (fun _ _ hi => .inl hi)
    (by simp) (h.closes_same hc rfl (by simp)) rfl rfl rfl (fun hr' => ?_)
  rw [AcceptSys.setLoop, hr] at hr'
  cases hr'

theorem loopClose (h : AcceptInv s pl) {i : ℕ} (hi : s.loops i = .closing c) :
    AcceptInv ((s.setLoop i .done).close c 1) (update pl c .gone) := by
  have hc : pl c = .held i := h.held_iff.mp (by rw [hi]; rfl)
  have hm : s.Moves ((s.setLoop i .done).close c 1) c (.held i) .gone := by
    refine ⟨fun c' r hp hq => ?_, fun c' => ?_, fun hq => absurd rfl hq⟩
    · cases r with
      | held k =>
        have hki : k ≠ i := fun he => hp (by rw [he])
        simp [AcceptSys.At, AcceptSys.close, AcceptSys.setLoop, hki]
      | _ => exact Iff.rfl
    · simp [AcceptSys.At, AcceptSys.close, AcceptSys.setLoop, hi, LoopPc.conn, eq_comm]
  exact h.move hm hc rfl h.queue h.taken (fun _ _ hi => .inl hi)
    (by simp) (h.closes_once hc rfl) rfl rfl rfl h.quiet

theorem releaseClose (h : AcceptInv s pl) {queued : List ℕ}
    (hr : s.release = .closing [] (c :: queued)) :
    AcceptInv ({ s with release := .closing [] queued }.close c 1)
      (update pl c .gone) := by
  have hq : s.release.queued = c :: queued := by
    rw [hr]
    rfl
  have hc : pl c = .taken := by
    refine (h.at_iff (by simp)).mp ?_
    show c ∈ s.release.queued
    rw [hq]
    exact List.mem_cons_self
  have hnodup := h.taken
  rw [hq, List.nodup_cons] at hnodup
  have hm : s.Moves ({ s with release := .closing [] queued }.close c 1) c .taken .gone := by
    refine ⟨fun c' r hp hq => ?_, fun c' => ?_, fun hq => absurd rfl hq⟩
    · cases r with
      | taken => exact absurd rfl hp
      | _ => exact Iff.rfl
    · show c' ∈ queued ↔ c' ∈ s.release.queued ∧ c' ≠ c
      rw [hq, List.mem_cons]
      constructor
      · intro hmem
        exact ⟨.inr hmem, fun he => hnodup.1 (he ▸ hmem)⟩
      · rintro ⟨rfl | hmem, hne⟩
        · exact absurd rfl hne
        · exact hmem
  exact h.move hm hc rfl h.queue hnodup.2 (fun _ _ hi => .inl hi)
    (by simp) (h.closes_once hc rfl) rfl rfl rfl h.quiet

theorem release (h : AcceptInv s pl) (hr : s.release = .idle) (lns : List ℕ) :
    AcceptInv { s with released := true, acceptQ := [], release := .closing lns s.acceptQ }
      (fun c => if c ∈ s.acceptQ then .taken else pl c) := by
  have hqueued : ∀ c, c ∈ s.acceptQ ↔ pl c = .queued := fun c => h.loc c .queued (by simp)
  refine ⟨fun c p hp => ?_, List.nodup_nil, h.queue, fun c i hi => ?_, fun c ho => ?_, h.sock,
    fun _ => rfl⟩
  · by_cases hc : c ∈ s.acceptQ
    · rw [if_pos hc]
      have hpl := (hqueued c).mp hc
      have hold := h.loc c p hp
      rw [hpl] at hold
      cases p with
      | queued => simp [AcceptSys.At]
      | taken => exact iff_of_true hc rfl
      | gone => exact absurd rfl hp
      | _ => exact ⟨fun hat => absurd (hold.mp hat) (by simp), fun he => by cases he⟩
    · rw [if_neg hc]
      have hold := h.loc c p hp
      cases p with
      | queued =>
        refine ⟨fun hat => ?_, fun he => absurd ((hqueued c).mpr he) hc⟩
        cases hat
      | taken =>
        refine ⟨fun hat => absurd hat hc, fun he => ?_⟩
        have hat := hold.mpr he
        rw [AcceptSys.At, hr] at hat
        cases hat
      | _ => exact hold
  · by_cases hc : c ∈ s.acceptQ
    · rw [if_pos hc]
      simp
    · rw [if_neg hc]
      exact h.obtained c i hi
  · by_cases hc : c ∈ s.acceptQ
    · rw [if_pos hc, if_neg (by simp)]
      exact h.closes_zero ((hqueued c).mp hc) rfl
    · rw [if_neg hc] at ho ⊢
      exact h.closes c ho

theorem accept (h : AcceptInv s pl) {q : List ℕ} (hq : s.acceptQ = c :: q) (peer : SockAddr)
    (halfClose : Bool) :
    AcceptInv (({ s with acceptQ := q } : AcceptSys).addSock c peer halfClose)
      (update pl c (.owned s.nsocks)) := by
  have hc : pl c = .queued := by
    refine (h.at_iff (by simp)).mp ?_
    show c ∈ s.acceptQ
    rw [hq]
    exact List.mem_cons_self
  have hnodup := h.queue
  rw [hq, List.nodup_cons] at hnodup
  have hm : s.Moves (({ s with acceptQ := q } : AcceptSys).addSock c peer halfClose) c .queued
      (.owned s.nsocks) := by
    refine ⟨fun c' r hp hr => ?_, fun c' => ?_, fun _ c' => ?_⟩
    · cases r with
      | queued => exact absurd rfl hp
      | owned j =>
        have hj : j ≠ s.nsocks := fun he => hr (by rw [he])
        simp only [AcceptSys.At, AcceptSys.addSock, update_of_ne hj]
        constructor
        · exact fun hat => ⟨by omega, hat.2⟩
        · exact fun hat => ⟨by omega, hat.2⟩
      | _ => exact Iff.rfl
    · show c' ∈ q ↔ c' ∈ s.acceptQ ∧ c' ≠ c
      rw [hq, List.mem_cons]
      constructor
      · intro hmem
        exact ⟨.inr hmem, fun he => hnodup.1 (he ▸ hmem)⟩
      · rintro ⟨rfl | hmem, hne⟩
        · exact absurd rfl hne
        · exact hmem
    · simp [AcceptSys.At, AcceptSys.addSock, SharedSock.startConn, eq_comm]
  refine ⟨h.loc.move hc (by simp) hm, hnodup.2, h.taken, fun c' i hi => ?_, fun c' ho => ?_,
    fun j c' hj hconn => ?_, fun hr => ?_⟩
  · by_cases hcc : c' = c
    · subst hcc
      rw [update_self]
      simp
    · rw [update_of_ne hcc]
      exact h.obtained c' i hi
  · have hcc : c' ≠ c := by
      rintro rfl
      rw [update_self] at ho
      exact ho _ rfl
    rw [update_of_ne hcc] at ho ⊢
    exact h.closes c' ho
  · dsimp only [AcceptSys.addSock] at hj hconn ⊢
    by_cases hjn : j = s.nsocks
    · subst hjn
      rw [update_self] at hconn ⊢
      cases hconn
      rw [h.closes_zero hc rfl]
      exact closeOk_started halfClose
    · rw [update_of_ne hjn] at hconn ⊢
      exact h.sock j c' (by omega) hconn
  · have hnil := h.quiet hr
    rw [hq] at hnil
    cases hnil

theorem sockStep (h : AcceptInv s pl) {j : ℕ} (hj : j < s.nsocks)
    (hconn : (s.accepted j).conn = some c) {x : SockSys} {k : ℕ} (hx : CloseOk x (s.closes c + k)) :
    AcceptInv ({ s with socks := update s.socks j x }.close c k) pl := by
  have hc : pl c = .owned j := (h.at_iff (by simp)).mp ⟨hj, hconn⟩
  refine ⟨fun c' p hp => ?_, h.queue, h.taken, h.obtained, fun c' ho => ?_,
    fun i c' hi hconn' => ?_, h.quiet⟩
  · refine Iff.trans ?_ (h.loc c' p hp)
    cases p <;> exact Iff.rfl
  · have hcc : c' ≠ c := by
      rintro rfl
      exact ho j hc
    dsimp only [AcceptSys.close]
    rw [update_of_ne hcc]
    exact h.closes c' ho
  · dsimp only [AcceptSys.close] at hi hconn' ⊢
    have hc' : pl c' = .owned i := (h.at_iff (by simp)).mp ⟨hi, hconn'⟩
    by_cases hij : i = j
    · subst hij
      obtain rfl : c = c' := Option.some.inj (hconn.symm.trans hconn')
      rw [update_self, update_self]
      exact hx
    · have hcc : c' ≠ c := by
        rintro rfl
        exact hij (Place.owned.inj (hc'.symm.trans hc))
      rw [update_of_ne hij, update_of_ne hcc]
      exact h.sock i c' hi hconn'

end AcceptInv

/-! ### Steps -/

/-- What a step does. -/
inductive AcceptCase (s : AcceptSys) : AcceptAct → AcceptSys → AcceptAns → Prop
  | refused (a : AcceptAct) (e : Errno) : AcceptCase s a s (.err e)
  | listening : AcceptCase s .listen s .done
  | listen (h : s.sock.state = .sockNew) : AcceptCase s .listen { s with
      sock := { s.sock with state := .sockListening }
      loops := fun i => if i < s.sock.lns.length then .accepting else s.loops i } .done
  | dial (d l : ℕ) (h : s.dials d = none) : AcceptCase s (.dial d l)
      { s.newConn with dials := update s.dials d (some (l, s.nconns)) } .done
  | handover (d l c : ℕ) (h : s.dials d = some (l, c)) (hl : s.loops l = .accepting) :
      AcceptCase s (.handover d) ((s.setDial d none).obtain l c) .done
  | dialFails (a : AcceptAct) (d l c : ℕ) (e : Errno) (h : s.dials d = some (l, c)) :
      AcceptCase s a ((s.setDial d none).close c 1) (.err e)
  | hostAccept (i : ℕ) (h : s.loops i = .accepting) :
      AcceptCase s (.hostAccept i) (s.newConn.obtain i s.nconns) .done
  | acceptErr (i : ℕ) (h : s.loops i = .accepting) :
      AcceptCase s (.acceptErr i) (s.setLoop i .done) .done
  | found (i c : ℕ) (h : s.loops i = .holding c) :
      AcceptCase s (.enqueue i) (s.setLoop i (.closing c)) .done
  | enqueue (i c : ℕ) (h : s.loops i = .holding c) (hr : s.released = false) :
      AcceptCase s (.enqueue i) { s.setLoop i .notifying with acceptQ := s.acceptQ ++ [c] }
        (.enqueued c)
  | loopClose (i c : ℕ) (h : s.loops i = .closing c) :
      AcceptCase s (.loopClose i) ((s.setLoop i .done).close c 1) .done
  | loopNotify (i : ℕ) (h : s.loops i = .notifying) :
      AcceptCase s (.loopNotify i) { s.setLoop i .accepting with n := s.n.notify } .done
  | accept (c : ℕ) (q : List ℕ) (peer : SockAddr) (halfClose : Bool) (h : s.acceptQ = c :: q) :
      AcceptCase s (.accept peer halfClose)
        (({ s with acceptQ := q } : AcceptSys).addSock c peer halfClose) (.accepted s.nsocks c)
  | sock (j c : ℕ) (a : SockAct) (x : SockSys) (o : SockAns) (hj : j < s.nsocks)
      (hc : (s.accepted j).conn = some c)
      (ha : a = .release → (s.socks j).sock.released = false)
      (hx : sockStep (s.socks j) a = some (x, o)) : AcceptCase s (.sock j a)
        ({ s with socks := update s.socks j x }.close c o.closes) (.sock o)
  | release (h : s.release = .idle) : AcceptCase s .release { s with
      released := true
      acceptQ := []
      release := .closing (List.range s.sock.lns.length) s.acceptQ } (.took s.acceptQ)
  | closeLn (l : ℕ) (lns queued : List ℕ) (h : s.release = .closing (l :: lns) queued) :
      AcceptCase s .releaseNext { s with
        release := .closing lns queued
        closedLn := update s.closedLn l true } .done
  | closeConn (c : ℕ) (queued : List ℕ) (h : s.release = .closing [] (c :: queued)) :
      AcceptCase s .releaseNext ({ s with release := .closing [] queued }.close c 1) .done
  | released (h : s.release = .closing [] []) :
      AcceptCase s .releaseNext { s with release := .done, n := s.n.notify } .done

theorem acceptCase_of_step {a : AcceptAct} {o : AcceptAns} (h : acceptStep s a = some (s', o)) :
    AcceptCase s a s' o := by
  cases a with
  | listen =>
    simp only [acceptStep, SharedSock.listen] at h
    by_cases hl : s.sock.state = .sockListening
    · rw [if_pos hl] at h
      dsimp only at h
      rw [if_pos hl] at h
      cases h
      exact .listening
    · rw [if_neg hl] at h
      by_cases hn : s.sock.state ≠ .sockNew ∨ s.sock.lns.length = 0
      · rw [if_pos hn] at h
        cases h
        exact .refused _ _
      · rw [if_neg hn] at h
        dsimp only at h
        rw [if_neg hl] at h
        cases h
        rw [not_or, not_not] at hn
        exact .listen hn.1
  | dial d l =>
    obtain ⟨⟨hd, -⟩, he⟩ := ite_none_right_eq_some.mp h
    cases he
    exact .dial d l hd
  | handover d =>
    simp only [acceptStep] at h
    split at h
    · rename_i l c hd
      obtain ⟨hl, he⟩ := ite_none_right_eq_some.mp h
      cases he
      exact .handover d l c hd hl
    · cases h
  | dialClosed d =>
    simp only [acceptStep] at h
    split at h
    · rename_i l c hd
      obtain ⟨-, he⟩ := ite_none_right_eq_some.mp h
      cases he
      exact .dialFails _ d l c _ hd
    · cases h
  | dialCancel d =>
    simp only [acceptStep] at h
    split at h
    · rename_i l c hd
      cases h
      exact .dialFails _ d l c _ hd
    · cases h
  | hostAccept i =>
    obtain ⟨⟨-, hi⟩, he⟩ := ite_none_right_eq_some.mp h
    cases he
    exact .hostAccept i hi
  | acceptErr i =>
    obtain ⟨⟨hi, -⟩, he⟩ := ite_none_right_eq_some.mp h
    cases he
    exact .acceptErr i hi
  | enqueue i =>
    simp only [acceptStep] at h
    split at h
    · rename_i c hi
      by_cases hr : s.released = true
      · rw [if_pos hr] at h
        cases h
        exact .found i c hi
      · rw [if_neg hr] at h
        cases h
        exact .enqueue i c hi (Bool.not_eq_true _ ▸ hr)
    · cases h
  | loopClose i =>
    simp only [acceptStep] at h
    split at h
    · rename_i c hi
      cases h
      exact .loopClose i c hi
    · cases h
  | loopNotify i =>
    obtain ⟨hi, he⟩ := ite_none_right_eq_some.mp h
    cases he
    exact .loopNotify i hi
  | accept peer halfClose =>
    simp only [acceptStep] at h
    split at h
    · cases h
      exact .refused _ _
    · split at h
      · cases h
        exact .refused _ _
      · rename_i c q hq
        cases h
        exact .accept c q peer halfClose hq
  | sock j a =>
    simp only [acceptStep] at h
    split at h
    · rename_i c x o' hc hx
      obtain ⟨⟨hj, ha⟩, he⟩ := ite_none_right_eq_some.mp h
      cases he
      exact .sock j c a x o' hj hc ha hx
    · cases h
  | release =>
    obtain ⟨hr, he⟩ := ite_none_right_eq_some.mp h
    cases he
    exact .release hr
  | releaseNext =>
    simp only [acceptStep] at h
    split at h
    · rename_i l lns queued hr
      cases h
      exact .closeLn l lns queued hr
    · rename_i c queued hr
      cases h
      exact .closeConn c queued hr
    · rename_i hr
      cases h
      exact .released hr
    · cases h

/-- The loops start with `listen`. -/
def NotListening (s : AcceptSys) : Prop := s.sock.state = .sockNew → ∀ i, s.loops i = .idle

theorem AcceptInv.step (h : AcceptInv s pl) (hn : NotListening s) {a : AcceptAct} {o : AcceptAns}
    (hs : AcceptCase s a s' o) : ∃ pl', AcceptInv s' pl' := by
  cases hs with
  | refused | listening => exact ⟨pl, h⟩
  | listen hnew =>
    refine ⟨pl, h.congr (fun c p => ?_) rfl rfl rfl rfl rfl rfl rfl rfl⟩
    cases p with
    | held i =>
      have hi : ((if i < s.sock.lns.length then LoopPc.accepting else s.loops i) : LoopPc).conn =
          (s.loops i).conn := by
        rw [hn hnew i]
        split <;> rfl
      exact iff_of_eq (congrArg (· = some c) hi)
    | _ => exact Iff.rfl
  | dial d l hd => exact ⟨_, h.dial hd⟩
  | handover d l c hd hl => exact ⟨_, h.handover hd hl⟩
  | dialFails _ d l c _ hd => exact ⟨_, h.dialFails hd⟩
  | hostAccept i hi => exact ⟨_, h.hostAccept hi⟩
  | acceptErr i hi | found i c hi => exact ⟨_, h.setLoop (by rw [hi]; rfl)⟩
  | enqueue i c hi hr => exact ⟨_, h.enqueue hi hr⟩
  | loopClose i c hi => exact ⟨_, h.loopClose hi⟩
  | loopNotify i hi =>
    have h' : AcceptInv (s.setLoop i .accepting) pl := h.setLoop (by rw [hi]; rfl)
    refine ⟨pl, h'.congr (fun c p => ?_) rfl rfl rfl rfl rfl rfl rfl rfl⟩
    cases p <;> exact Iff.rfl
  | accept c q peer halfClose hq => exact ⟨_, h.accept hq peer halfClose⟩
  | sock j c a x o hj hc ha hx => exact ⟨_, h.sockStep hj hc ((h.sock j c hj hc).step ha hx)⟩
  | release hr => exact ⟨_, h.release hr _⟩
  | closeLn l lns queued hr =>
    have hq : s.release.queued = queued := by rw [hr]; rfl
    refine ⟨pl, h.congr (fun c p => ?_) rfl hq.symm rfl rfl rfl rfl rfl rfl⟩
    cases p with
    | taken =>
      show c ∈ queued ↔ c ∈ s.release.queued
      rw [hq]
    | _ => exact Iff.rfl
  | closeConn c queued hr => exact ⟨_, h.releaseClose hr⟩
  | released hr =>
    have hq : s.release.queued = [] := by rw [hr]; rfl
    refine ⟨pl, h.congr (fun c p => ?_) rfl hq.symm rfl rfl rfl rfl rfl rfl⟩
    cases p with
    | taken =>
      show c ∈ [] ↔ c ∈ s.release.queued
      rw [hq]
    | _ => exact Iff.rfl

end PgZero.Kernel
