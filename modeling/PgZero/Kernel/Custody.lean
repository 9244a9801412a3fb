import PgZero.Kernel.Accepted

/-!
# No connection is lost

What `Accepted` proves of a state, with the history of a run.

* `Custody`, `AcceptSys.In`: where a connection is once a loop has obtained it.
* `AcceptHist`: the order of the queue, and who has closed the connection of an accepted socket.
* **`connections_kept`**: a connection has exactly one custodian at every moment, leaves the queue in
  order, and is closed once.
* **`queue_in_release`**: while `release` closes its copy of the queue, those connections are neither
  in the queue nor closed.
-/

set_option autoImplicit false

namespace PgZero.Kernel

open Function Lib List AcceptSys

/-- Who has the connection. -/
inductive Custody
  /-- the loop that obtained it -/
  | held
  | queued
  /-- `release` has taken it from the queue and has still to close it -/
  | taken
  | owned (j : ℕ)
  | closed
  deriving DecidableEq, Repr

/-- Connection `c`, which loop `i` has obtained, is in the custody. -/
def AcceptSys.In (s : AcceptSys) (c i : ℕ) : Custody → Prop
  | .held => (s.loops i).conn = some c
  | .queued => c ∈ s.acceptQ
  | .taken => c ∈ s.release.queued
  | .owned j => j < s.nsocks ∧ (s.accepted j).conn = some c ∧ s.closes c = 0
  | .closed => 0 < s.closes c

/-- The connections that were put in the queue. -/
def enqueuedConns (tr : List (AcceptAct × AcceptAns)) : List ℕ :=
  tr.filterMap fun x => match x.2 with
    | .enqueued c => some c
    | _ => none

/-- The connections that were taken from it. -/
def acceptedConns (tr : List (AcceptAct × AcceptAns)) : List ℕ :=
  tr.filterMap fun x => match x.2 with
    | .accepted _ c => some c
    | _ => none

/-- What `release` found in the queue. -/
def tookConns (tr : List (AcceptAct × AcceptAns)) : List ℕ :=
  tr.flatMap fun x => match x.2 with
    | .took queued => queued
    | _ => []

/-- The closes of one step by action `a` of socket `j`. -/
def stepCloses (j : ℕ) (a : SockAct) : AcceptAct × AcceptAns → ℕ
  | (.sock k b, .sock o) => if k = j ∧ b = a then o.closes else 0
  | _ => 0

/-- How often the action `a` of socket `j` has closed the connection. -/
def closesBy (j : ℕ) (a : SockAct) (tr : List (AcceptAct × AcceptAns)) : ℕ :=
  (tr.map (stepCloses j a)).sum

variable {s s' : AcceptSys} {pl : ℕ → Place} {tr : List (AcceptAct × AcceptAns)}

/-! ### One custodian -/

/-- The custody of a connection at place `p` that has been closed `n` times. -/
def Place.custody (n : ℕ) : Place → Custody
  | .held _ => .held
  | .queued => .queued
  | .taken => .taken
  | .owned j => if n = 0 then .owned j else .closed
  | .fresh | .dialing _ | .gone => .closed

theorem AcceptInv.in_custody (h : AcceptInv s pl) {c i : ℕ} (hi : s.obtained c = some i) :
    s.In c i ((pl c).custody (s.closes c)) := by
  obtain ⟨hf, hd, hheld⟩ := h.obtained c i hi
  cases hc : pl c with
  | fresh => exact absurd hc hf
  | dialing d => exact absurd hc (hd d)
  | held l =>
    obtain rfl := hheld l hc
    exact (h.loc c (.held l) (by simp)).mpr hc
  | queued => exact (h.loc c .queued (by simp)).mpr hc
  | taken => exact (h.loc c .taken (by simp)).mpr hc
  | owned j =>
    obtain ⟨hj, hconn⟩ := (h.loc c (.owned j) (by simp)).mpr hc
    by_cases h0 : s.closes c = 0
    · rw [Place.custody, if_pos h0]
      exact ⟨hj, hconn, h0⟩
    · rw [Place.custody, if_neg h0]
      exact Nat.pos_of_ne_zero h0
  | gone =>
    show 0 < s.closes c
    rw [h.closes c (by simp [hc]), if_pos hc]
    exact Nat.one_pos

theorem AcceptInv.custody_eq (h : AcceptInv s pl) {c i : ℕ} {k : Custody} (hk : s.In c i k) :
    k = (pl c).custody (s.closes c) := by
  cases k with
  | held => rw [(h.loc c (.held i) (by simp)).mp hk, Place.custody]
  | queued => rw [(h.loc c .queued (by simp)).mp hk, Place.custody]
  | taken => rw [(h.loc c .taken (by simp)).mp hk, Place.custody]
  | owned j => rw [(h.loc c (.owned j) (by simp)).mp ⟨hk.1, hk.2.1⟩, Place.custody, if_pos hk.2.2]
  | closed =>
    have hpos : s.closes c ≠ 0 := Nat.pos_iff_ne_zero.mp hk
    cases hc : pl c with
    | held l | queued | taken => exact absurd (h.closes_zero hc rfl) hpos
    | owned j => rw [Place.custody, if_neg hpos]
    | _ => rfl

theorem AcceptInv.custody (h : AcceptInv s pl) {c i : ℕ} (hi : s.obtained c = some i) :
    ∃! k, s.In c i k :=
  ⟨_, h.in_custody hi, fun _ hk => h.custody_eq hk⟩

theorem AcceptInv.closes_le (h : AcceptInv s pl) (c : ℕ) : s.closes c ≤ 1 := by
  by_cases ho : ∃ j, pl c = .owned j
  · obtain ⟨j, hj⟩ := ho
    obtain ⟨hlt, hconn⟩ := (h.loc c (.owned j) (by simp)).mpr hj
    have hpaid := (h.sock j c hlt hconn).paid
    have hle : (s.socks j).sock.released.toNat ≤ 1 := Bool.toNat_le _
    omega
  · rw [h.closes c (not_exists.mp ho)]
    split <;> omega

theorem AcceptInv.owner_unique (h : AcceptInv s pl) {j k c : ℕ} (hj : j < s.nsocks)
    (hk : k < s.nsocks) (hcj : (s.accepted j).conn = some c) (hck : (s.accepted k).conn = some c) :
    j = k := by
  have hpj : pl c = .owned j := (h.loc c (.owned j) (by simp)).mp ⟨hj, hcj⟩
  have hpk : pl c = .owned k := (h.loc c (.owned k) (by simp)).mp ⟨hk, hck⟩
  exact Place.owned.inj (hpj.symm.trans hpk)

theorem CloseOk.closed {x : SockSys} {n : ℕ} (h : CloseOk x n) (hr : x.sock.released = true)
    (hrel : x.releasing = none) (hw : x.writer = .notifying ∨ x.writer = .done) : n = 1 := by
  have hpaid := h.paid
  rw [SockSys.due, hrel, hr] at hpaid
  rcases hw with hw | hw <;> rw [hw] at hpaid <;> exact hpaid

/-! ### The history of a run -/

theorem enqueuedConns_snoc (tr : List (AcceptAct × AcceptAns)) (a : AcceptAct) (o : AcceptAns) :
    enqueuedConns (tr ++ [(a, o)]) = enqueuedConns tr ++ enqueuedConns [(a, o)] :=
  filterMap_append

theorem acceptedConns_snoc (tr : List (AcceptAct × AcceptAns)) (a : AcceptAct) (o : AcceptAns) :
    acceptedConns (tr ++ [(a, o)]) = acceptedConns tr ++ acceptedConns [(a, o)] :=
  filterMap_append

theorem tookConns_snoc (tr : List (AcceptAct × AcceptAns)) (a : AcceptAct) (o : AcceptAns) :
    tookConns (tr ++ [(a, o)]) = tookConns tr ++ tookConns [(a, o)] :=
  flatMap_append

theorem closesBy_snoc (j : ℕ) (b : SockAct) (tr : List (AcceptAct × AcceptAns))
    (x : AcceptAct × AcceptAns) :
    closesBy j b (tr ++ [x]) = closesBy j b tr + stepCloses j b x := by
  simp [closesBy]

theorem sockStep_closes {x y : SockSys} {a : SockAct} {o : SockAns}
    (h : sockStep x a = some (y, o)) (hr : a ≠ .releaseConn) (hw : a ≠ .writeClose) :
    o.closes = 0 := by
  cases sockCase_of_step h with
  | releaseConn => exact absurd rfl hr
  | writeClose => exact absurd rfl hw
  | recv len peek | send b | shutdown how => exact answer_closes (fun _ => rfl) _
  | _ => rfl

/-- The queue in order, and the closes of the accepted sockets' connections. -/
structure AcceptHist (tr : List (AcceptAct × AcceptAns)) (s : AcceptSys) : Prop where
  idle : s.release = .idle ↔ s.released = false
  took : s.released = false → tookConns tr = []
  order : enqueuedConns tr = acceptedConns tr ++ s.acceptQ ++ tookConns tr
  closed : ∀ j c, j < s.nsocks → (s.accepted j).conn = some c →
    s.closes c = closesBy j .releaseConn tr + closesBy j .writeClose tr
  unused : ∀ j b, s.nsocks ≤ j → closesBy j b tr = 0

theorem AcceptHist.other (h : AcceptHist tr s) {a : AcceptAct} {o : AcceptAns}
    (ho : ∀ x, o ≠ .sock x) (hns : s'.nsocks = s.nsocks) (hacc : s'.accepted = s.accepted)
    (hcl : ∀ j c, j < s.nsocks → (s.accepted j).conn = some c → s'.closes c = s.closes c)
    (hidle : s'.release = .idle ↔ s'.released = false)
    (htook : s'.released = false → tookConns (tr ++ [(a, o)]) = [])
    (horder : enqueuedConns (tr ++ [(a, o)]) =
      acceptedConns (tr ++ [(a, o)]) ++ s'.acceptQ ++ tookConns (tr ++ [(a, o)])) :
    AcceptHist (tr ++ [(a, o)]) s' := by
  have hzero : ∀ j b, stepCloses j b (a, o) = 0 := by
    intro j b
    unfold stepCloses
    split
    · rename_i heq
      cases heq
      exact absurd rfl (ho _)
    · rfl
  refine ⟨hidle, htook, horder, fun j c hj hc => ?_, fun j b hj => ?_⟩
  · rw [hns] at hj
    rw [hacc] at hc
    rw [hcl j c hj hc, closesBy_snoc, closesBy_snoc, hzero, hzero]
    exact h.closed j c hj hc
  · rw [hns] at hj
    rw [closesBy_snoc, hzero, h.unused j b hj]

theorem AcceptHist.silent (h : AcceptHist tr s) {a : AcceptAct} {o : AcceptAns}
    (ho : o = .done ∨ ∃ e, o = .err e) (hns : s'.nsocks = s.nsocks)
    (hacc : s'.accepted = s.accepted)
    (hcl : ∀ j c, j < s.nsocks → (s.accepted j).conn = some c → s'.closes c = s.closes c)
    (hq : s'.acceptQ = s.acceptQ) (hr : s'.released = s.released)
    (hidle : s'.release = .idle ↔ s.release = .idle) : AcceptHist (tr ++ [(a, o)]) s' := by
  have hnone : enqueuedConns [(a, o)] = [] ∧ acceptedConns [(a, o)] = [] ∧
      tookConns [(a, o)] = [] := by
    rcases ho with rfl | ⟨e, rfl⟩ <;> exact ⟨rfl, rfl, rfl⟩
  have hsnoc : tookConns (tr ++ [(a, o)]) = tookConns tr := by
    rw [tookConns_snoc, hnone.2.2, append_nil]
  refine h.other ?_ hns hacc hcl ?_ (fun hf => ?_) ?_
  · rcases ho with rfl | ⟨e, rfl⟩ <;> simp
  · rw [hr, hidle]
    exact h.idle
  · rw [hsnoc]
    exact h.took (hr.symm.trans hf)
  · rw [hsnoc, enqueuedConns_snoc, acceptedConns_snoc, hnone.1, hnone.2.1, hq, append_nil,
      append_nil]
    exact h.order

theorem AcceptInv.close_other (h : AcceptInv s pl) {c : ℕ} (hc : ∀ j, pl c ≠ .owned j) (k : ℕ) :
    ∀ j c', j < s.nsocks → (s.accepted j).conn = some c' →
      update s.closes c k c' = s.closes c' := by
  intro j c' hj hconn
  refine update_of_ne ?_ _ _
  rintro rfl
  exact hc j ((h.loc c' (.owned j) (by simp)).mp ⟨hj, hconn⟩)

theorem AcceptHist.accept (h : AcceptHist tr s) (hinv : AcceptInv s pl) {c : ℕ} {q : List ℕ}
    (hq : s.acceptQ = c :: q) (peer : SockAddr) (halfClose : Bool) :
    AcceptHist (tr ++ [(.accept peer halfClose, .accepted s.nsocks c)])
      (({ s with acceptQ := q } : AcceptSys).addSock c peer halfClose) := by
  have hzero : ∀ j b, stepCloses j b (.accept peer halfClose, .accepted s.nsocks c) = 0 :=
    fun _ _ => rfl
  have hc : pl c = .queued := by
    refine (hinv.loc c .queued (by simp)).mp ?_
    show c ∈ s.acceptQ
    rw [hq]
    exact mem_cons_self
  refine ⟨h.idle, fun hr => ?_, ?_, fun j c' hj hconn => ?_, fun j b hj => ?_⟩
  · rw [tookConns_snoc, h.took hr]
    rfl
  · rw [enqueuedConns_snoc, acceptedConns_snoc, tookConns_snoc, h.order, hq]
    simp [enqueuedConns, acceptedConns, tookConns, addSock]
  · rw [closesBy_snoc, closesBy_snoc, hzero, hzero]
    dsimp only [addSock] at hj hconn ⊢
    by_cases hjn : j = s.nsocks
    · subst hjn
      rw [update_self] at hconn
      cases hconn
      rw [hinv.closes_zero hc rfl, h.unused _ _ le_rfl, h.unused _ _ le_rfl]
    · rw [update_of_ne hjn] at hconn
      exact h.closed j c' (by omega) hconn
  · rw [closesBy_snoc, hzero]
    dsimp only [addSock] at hj
    exact h.unused j b (by omega)

theorem stepCloses_sock {j : ℕ} {a : SockAct} {x y : SockSys} {o : SockAns}
    (hx : sockStep x a = some (y, o)) :
    stepCloses j .releaseConn (.sock j a, .sock o) + stepCloses j .writeClose (.sock j a, .sock o) =
      o.closes := by
  by_cases hr : a = .releaseConn
  · subst hr
    simp [stepCloses]
  · by_cases hw : a = .writeClose
    · subst hw
      simp [stepCloses]
    · simp [stepCloses, hr, hw, sockStep_closes hx hr hw]

theorem AcceptHist.sock (h : AcceptHist tr s) (hinv : AcceptInv s pl) {j c : ℕ} {a : SockAct}
    {x : SockSys} {o : SockAns} (hj : j < s.nsocks) (hc : (s.accepted j).conn = some c)
    (hx : sockStep (s.socks j) a = some (x, o)) :
    AcceptHist (tr ++ [(.sock j a, .sock o)])
      ({ s with socks := update s.socks j x }.close c o.closes) := by
  have hother : ∀ k b, k ≠ j → stepCloses k b (.sock j a, .sock o) = 0 := by
    intro k b hk
    simp [stepCloses, Ne.symm hk]
  refine ⟨h.idle, fun hr => ?_, ?_, fun k c' hk hconn => ?_, fun k b hk => ?_⟩
  · rw [tookConns_snoc, h.took hr]
    rfl
  · rw [enqueuedConns_snoc, acceptedConns_snoc, tookConns_snoc, h.order]
    simp [enqueuedConns, acceptedConns, tookConns, close]
  · rw [closesBy_snoc, closesBy_snoc]
    dsimp only [close] at hk hconn ⊢
    by_cases hkj : k = j
    · subst hkj
      obtain rfl : c = c' := Option.some.inj (hc.symm.trans hconn)
      rw [update_self, h.closed k c hj hc, ← stepCloses_sock (j := k) hx]
      omega
    · have hcc : c' ≠ c := by
        rintro rfl
        exact hkj (hinv.owner_unique hk hj hconn hc)
      rw [update_of_ne hcc, hother k _ hkj, hother k _ hkj]
      exact h.closed k c' hk hconn
  · dsimp only [close] at hk
    rw [closesBy_snoc, hother k b (by omega)]
    exact h.unused k b hk

theorem AcceptHist.step (h : AcceptHist tr s) (hinv : AcceptInv s pl) {a : AcceptAct}
    {o : AcceptAns} (hs : AcceptCase s a s' o) : AcceptHist (tr ++ [(a, o)]) s' := by
  have hsame : ∀ j c, j < s.nsocks → (s.accepted j).conn = some c → s.closes c = s.closes c :=
    fun _ _ _ _ => rfl
  cases hs with
  | refused a e => exact h.silent (.inr ⟨e, rfl⟩) rfl rfl hsame rfl rfl Iff.rfl
  | listening | listen _ | dial d l _ | handover d l c _ _ =>
    exact h.silent (.inl rfl) rfl rfl hsame rfl rfl Iff.rfl
  | dialFails a d l c e hd =>
    have hc : pl c = .dialing d := (hinv.loc c (.dialing d) (by simp)).mp ⟨l, hd⟩
    exact h.silent (.inr ⟨e, rfl⟩) rfl rfl (hinv.close_other (by simp [hc]) _) rfl rfl Iff.rfl
  | hostAccept i _ | acceptErr i _ | found i c _ =>
    exact h.silent (.inl rfl) rfl rfl hsame rfl rfl Iff.rfl
  | enqueue i c hi hr =>
    have htook : tookConns (tr ++ [(AcceptAct.enqueue i, AcceptAns.enqueued c)]) = [] := by
      rw [tookConns_snoc, h.took hr]
      rfl
    refine h.other (by simp) rfl rfl hsame h.idle (fun _ => htook) ?_
    have horder := h.order
    rw [h.took hr, append_nil] at horder
    rw [htook, enqueuedConns_snoc, acceptedConns_snoc, horder]
    simp [enqueuedConns, acceptedConns]
  | loopClose i c hi =>
    have hc : pl c = .held i := by
      refine (hinv.loc c (.held i) (by simp)).mp ?_
      show (s.loops i).conn = some c
      rw [hi]
      rfl
    exact h.silent (.inl rfl) rfl rfl (hinv.close_other (by simp [hc]) _) rfl rfl Iff.rfl
  | loopNotify i _ => exact h.silent (.inl rfl) rfl rfl hsame rfl rfl Iff.rfl
  | accept c q peer halfClose hq => exact h.accept hinv hq peer halfClose
  | sock j c a x o hj hc _ hx => exact h.sock hinv hj hc hx
  | release hr =>
    have htook := h.took (h.idle.mp hr)
    refine h.other (by simp) rfl rfl hsame (by simp) (fun hf => by cases hf) ?_
    rw [enqueuedConns_snoc, acceptedConns_snoc, tookConns_snoc, h.order, htook]
    simp [enqueuedConns, acceptedConns, tookConns]
  | closeLn l lns queued hr =>
    exact h.silent (.inl rfl) rfl rfl hsame rfl rfl (by simp [hr])
  | closeConn c queued hr =>
    have hc : pl c = .taken := by
      refine (hinv.loc c .taken (by simp)).mp ?_
      show c ∈ s.release.queued
      rw [hr]
      exact mem_cons_self
    exact h.silent (.inl rfl) rfl rfl (hinv.close_other (by simp [hc]) _) rfl rfl
      (by simp [hr, close])
  | released hr => exact h.silent (.inl rfl) rfl rfl hsame rfl rfl (by simp [hr])

theorem NotListening.step (h : NotListening s) {a : AcceptAct} {o : AcceptAns}
    (hs : AcceptCase s a s' o) : NotListening s' := by
  cases hs with
  | listen _ => exact fun hst => by cases hst
  | handover d l c _ hl =>
    intro hst
    rw [h hst l] at hl
    cases hl
  | hostAccept i hi | acceptErr i hi | found i c hi | enqueue i c hi _ | loopClose i c hi
  | loopNotify i hi =>
    intro hst
    rw [h hst i] at hi
    cases hi
  | _ => exact h

/-! ### Runs -/

theorem acceptInv_start (domain : Domain) (addr : SockAddr) (lns : List Listener) :
    AcceptInv (.start domain addr lns) fun _ => .fresh := by
  refine ⟨fun c p hp => ?_, nodup_nil, nodup_nil, ?_, ?_, ?_, fun _ => rfl⟩
  · cases p <;> simp [AcceptSys.At, start, LoopPc.conn, ReleasePc.queued] at hp ⊢
  · intro c i hi
    cases hi
  · intro c _
    rfl
  · intro j c hj
    exact absurd hj (Nat.not_lt_zero j)

theorem accept_history (hinit : acceptSystem.init s) (hrun : acceptSystem.Run s tr s') :
    NotListening s' ∧ AcceptHist tr s' ∧ ∃ pl, AcceptInv s' pl := by
  refine hrun.history (P := fun tr s => NotListening s ∧ AcceptHist tr s ∧ ∃ pl, AcceptInv s pl)
    ?_ ?_
  · rintro tr s a s' o ⟨hn, hh, pl, hinv⟩ hs
    have hcase := acceptCase_of_step hs
    exact ⟨hn.step hcase, hh.step hinv hcase, hinv.step hn hcase⟩
  · obtain ⟨domain, addr, lns, rfl⟩ := hinit
    refine ⟨fun _ _ => rfl, ⟨iff_of_true rfl rfl, fun _ => rfl, rfl, fun j _ hj => ?_, fun _ _ _ => rfl⟩, _,
      acceptInv_start domain addr lns⟩
    exact absurd hj (Nat.not_lt_zero j)

/-- **Connections are neither lost nor duplicated.** Each is in one custody, where a queue that
`release` is closing counts as one, and is closed once. -/
theorem connections_kept (hinit : acceptSystem.init s) (hrun : acceptSystem.Run s tr s') :
    (∀ c i, s'.obtained c = some i → ∃! k, s'.In c i k) ∧
    (∀ c, s'.closes c ≤ 1) ∧
    (∀ j k c, j < s'.nsocks → k < s'.nsocks → (s'.accepted j).conn = some c →
      (s'.accepted k).conn = some c → j = k) ∧
    enqueuedConns tr = acceptedConns tr ++ s'.acceptQ ++ tookConns tr ∧
    (s'.released = true → s'.acceptQ = []) ∧
    (s'.release = .done → ∀ c i, s'.obtained c = some i →
      s'.In c i .held ∨ (∃ j, s'.In c i (.owned j)) ∨ s'.In c i .closed) ∧
    ∀ j c, j < s'.nsocks → (s'.accepted j).conn = some c →
      (s'.socks j).sock.released = true → (s'.socks j).releasing = none →
      (s'.socks j).writer = .notifying ∨ (s'.socks j).writer = .done →
      s'.closes c = 1 ∧ closesBy j .releaseConn tr + closesBy j .writeClose tr = 1 := by
  obtain ⟨-, hh, pl, hinv⟩ := accept_history hinit hrun
  refine ⟨fun c i hi => hinv.custody hi, hinv.closes_le,
    fun j k c hj hk hcj hck => hinv.owner_unique hj hk hcj hck, hh.order, hinv.quiet, ?_, ?_⟩
  · intro hdone c i hi
    have hquiet : s'.acceptQ = [] := by
      cases hr : s'.released with
      | true => exact hinv.quiet hr
      | false =>
        rw [hh.idle.mpr hr] at hdone
        cases hdone
    obtain ⟨k, hk, -⟩ := hinv.custody hi
    cases k with
    | held => exact .inl hk
    | queued =>
      rw [AcceptSys.In, hquiet] at hk
      cases hk
    | taken =>
      rw [AcceptSys.In, hdone] at hk
      cases hk
    | owned j => exact .inr (.inl ⟨j, hk⟩)
    | closed => exact .inr (.inr hk)
  · intro j c hj hconn hr hrel hw
    have hone := (hinv.sock j c hj hconn).closed hr hrel hw
    exact ⟨hone, (hh.closed j c hj hconn).symm.trans hone⟩

/-- A socket bound to a path of the kernel. -/
def acceptStart : AcceptSys := .start .AF_UNIX unixAddr [.virtual]

/-- The first connection is accepted and released, the second closed with the listener. -/
theorem connections_kept_two : ∃ s tr, acceptSystem.Run acceptStart tr s ∧
    acceptedConns tr = [0] ∧ tookConns tr = [1] ∧ s.release = .done ∧
    enqueuedConns tr = acceptedConns tr ++ s.acceptQ ++ tookConns tr ∧
    (∃! k, s.In 0 0 k) ∧ (∃! k, s.In 1 0 k) ∧ s.closes 0 = 1 := by
  have hr := @System.exec_run _ _ _ acceptSystem acceptStart
    [.listen, .dial 0 0, .handover 0, .enqueue 0, .loopNotify 0, .dial 1 0, .handover 1, .enqueue 0,
      .accept unixAddr false, .sock 0 .release, .sock 0 .writeLock, .sock 0 .writeClose,
      .sock 0 .releaseConn, .release, .releaseNext, .releaseNext, .releaseNext] _ _ rfl
  obtain ⟨h1, -, -, h2, -, -, h3⟩ := connections_kept ⟨_, _, _, rfl⟩ hr
  refine ⟨_, _, hr, rfl, rfl, rfl, h2, h1 0 0 rfl, h1 1 0 rfl, ?_⟩
  exact (h3 0 0 (by decide) rfl rfl rfl (.inl rfl)).1

/-- Between the section of `release` and its `Close` a connection is nowhere else. -/
theorem queue_in_release : ∃ s, acceptSystem.Reachable s ∧ s.obtained 0 = some 0 ∧
    ¬ s.In 0 0 .held ∧ ¬ s.In 0 0 .queued ∧ (∀ j, ¬ s.In 0 0 (.owned j)) ∧ ¬ s.In 0 0 .closed := by
  have hr := @System.reachable_of_exec _ _ _ acceptSystem acceptStart _
    [.listen, .dial 0 0, .handover 0, .enqueue 0, .release] _ ⟨_, _, _, rfl⟩ rfl
  refine ⟨_, hr, rfl, ?_, ?_, ?_, Nat.lt_irrefl 0⟩
  · show (none : Option ℕ) ≠ some 0
    simp
  · exact not_mem_nil
  · rintro j ⟨hj, -⟩
    exact absurd hj (Nat.not_lt_zero j)

end PgZero.Kernel
