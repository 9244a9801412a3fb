import PgZero.Kernel.UnixSock

/-!
# The registry of Unix sockets

A `bind` that fails has rolled back what it did. Between its steps others change the registry, so
what it leaves is compared with the registry that the others alone would have made.

* **`bind_refines`**: it does to its socket what `SharedSock.bind` does.
* **`unix_registry`**.
-/

set_option autoImplicit false

namespace PgZero.Kernel

open Function Lib UnixSock

/-! ### What a step leaves alone -/

/-- The registry after the entry of a step is set. -/
def UnixAns.apply (o : UnixAns) (unix : Str → Option ℕ) : Str → Option ℕ :=
  match o.entry with
  | none => unix
  | some (path, v) => update unix path v

/-- A step sets no entry, a free one to the next listener, or that of its own listener to none. -/
inductive EntryOf (s : UnixSys) (e : UnixAct) : Option (Str × Option ℕ) → Prop
  | none : EntryOf s e none
  | register {path : Str} : s.unix path = none → EntryOf s e (some (path, some s.made))
  | unregister {i l : ℕ} : e.unregisters = some i →
      (s.socks i).bind = none ∨ e.bindOf = some i → (s.socks i).holds = some (l, true) →
      s.unix (s.path l) = some l → EntryOf s e (some (s.path l, none))

/-- A step changes at most one entry, and no socket that another call binds. -/
structure Frame (s : UnixSys) (e : UnixAct) (s' : UnixSys) (o : UnixAns) : Prop where
  unix : s'.unix = o.apply s.unix
  entry : EntryOf s e o.entry
  made : s.made ≤ s'.made
  path : ∀ l, l < s.made → s'.path l = s.path l
  /-- a socket in `bind` is left alone by everyone else -/
  locked : ∀ i, (s.socks i).bind ≠ none → e.bindOf ≠ some i → s'.socks i = s.socks i

theorem locked_setSock {s t : UnixSys} {e : UnixAct} (ht : t.socks = s.socks) (j : ℕ) (u : UnixSock)
    (hj : (s.socks j).bind = none ∨ e.bindOf = some j) (i : ℕ) (hi : (s.socks i).bind ≠ none)
    (he : e.bindOf ≠ some i) : (t.setSock j u).socks i = s.socks i := by
  have hne : i ≠ j := by
    rintro rfl
    exact hj.elim hi he
  show update t.socks j u i = _
  rw [update_of_ne hne, ht]

theorem UnixEffect.frame {s s' : UnixSys} {e : UnixAct} {o : UnixAns} (h : UnixEffect s e s' o) :
    Frame s e s' o := by
  cases h with
  | calls => exact ⟨rfl, .none, le_rfl, fun _ _ => rfl, fun _ _ _ => rfl⟩
  | sock _ _ hj => exact ⟨rfl, .none, le_rfl, fun _ _ => rfl, locked_setSock rfl _ _ hj⟩
  | register hj _ hp =>
    refine ⟨rfl, .register hp, Nat.le_succ _, fun l hl => ?_, locked_setSock rfl _ _ hj⟩
    exact update_of_ne hl.ne _ _
  | close hj => exact ⟨rfl, .none, le_rfl, fun _ _ => rfl, locked_setSock rfl _ _ hj⟩
  | @unregister i l u r hj _ he hh =>
    refine ⟨?_, ?_, le_rfl, fun _ _ => rfl, locked_setSock rfl _ _ hj⟩
    · show (s.unregister l).unix = _
      unfold UnixSys.unregister UnixSys.removes UnixAns.apply
      split_ifs <;> rfl
    · show EntryOf s e (s.removes l)
      unfold UnixSys.removes
      split_ifs with hm
      · exact .unregister he hj hh hm
      · exact .none

/-! ### A `bind` in progress -/

/-- The listener that `bind` has made. -/
def BindPc.listener : BindPc → Option ℕ
  | .checked _ => none
  | .registered _ l | .closing l _ | .unregistering l _ => some l

/-- The address that `bind` has still to use. -/
def BindPc.addr : BindPc → Option SockAddr
  | .checked a | .registered a _ => some a
  | .closing _ _ | .unregistering _ _ => none

/-- A `bind` of socket `i` to `a`, called in `s0`, is in progress; without it the registry would be
`R`. It has added at most the entry of its own listener, at a path that is free in `R`. -/
structure BindView (s0 : UnixSys) (i : ℕ) (a : SockAddr) (R : Str → Option ℕ) (s : UnixSys)
    (x : BindPc) : Prop where
  idle : (s0.socks i).bind = none
  family : a.family = (s0.socks i).sock.domain
  ready : (s0.socks i).sock.bound = none ∧ (s0.socks i).sock.state = .sockNew
  addr : ∀ a', x.addr = some a' → a' = a
  sock : s.socks i = { s0.socks i with bind := some x }
  before : x.listener = none → s.unix = R
  after : ∀ l, x.listener = some l →
    l < s.made ∧ R (s.path l) = none ∧ s.unix = update R (s.path l) (some l)

section BindView

variable {s0 s s' : UnixSys} {i : ℕ} {a : SockAddr} {R : Str → Option ℕ} {x : BindPc}
  {e : UnixAct} {o : UnixAns}

theorem BindView.bind (h : BindView s0 i a R s x) : (s.socks i).bind = some x := by
  rw [h.sock]

theorem BindView.holds (h : BindView s0 i a R s x) {l : ℕ} (hl : x.listener = some l) :
    ∃ c, (s.socks i).holds = some (l, c) := by
  cases x with
  | checked => cases hl
  | registered a l' | closing l' e =>
    cases hl
    exact ⟨false, by simp [holds, h.bind]⟩
  | unregistering l' e =>
    cases hl
    exact ⟨true, by simp [holds, h.bind]⟩

/-- Another step that sets an entry sets one that is not the listener's own. -/
theorem BindView.entry_ne (h : BindView s0 i a R s x) (hinv : s.registry.Inv)
    (he : e.bindOf ≠ some i) {l : ℕ} (hl : x.listener = some l) {path : Str} {v : Option ℕ}
    (hent : EntryOf s e (some (path, v))) : path ≠ s.path l := by
  obtain ⟨-, -, hunix⟩ := h.after l hl
  have hown : s.unix (s.path l) = some l := by rw [hunix, update_self]
  rintro rfl
  generalize hx : some (s.path l, v) = ent at hent
  cases hent with
  | none => cases hx
  | register hfree =>
    cases hx
    rw [hown] at hfree
    cases hfree
  | @unregister j l' _ hj hh hreg =>
    obtain ⟨hp, -⟩ := Prod.mk.inj (Option.some.inj hx)
    rw [← hp, hown] at hreg
    cases hreg
    obtain ⟨c, hc⟩ := h.holds hl
    obtain rfl : j = i := hinv.one j i l true c hh hc
    rcases hj with hj | hj
    · rw [h.bind] at hj
      cases hj
    · exact he hj

theorem BindView.other (h : BindView s0 i a R s x) (hinv : s.registry.Inv) (hf : Frame s e s' o)
    (he : e.bindOf ≠ some i) : BindView s0 i a (o.apply R) s' x := by
  refine ⟨h.idle, h.family, h.ready, h.addr, ?_, fun hn => ?_, fun l hl => ?_⟩
  · rw [hf.locked i (by simp [h.bind]) he]
    exact h.sock
  · rw [hf.unix, h.before hn]
  · obtain ⟨hlt, hfree, hunix⟩ := h.after l hl
    rw [hf.path l hlt, hf.unix, hunix]
    refine ⟨lt_of_lt_of_le hlt hf.made, ?_⟩
    cases ho : o.entry with
    | none =>
      simp only [UnixAns.apply, ho]
      exact ⟨hfree, trivial⟩
    | some ent =>
      obtain ⟨path, v⟩ := ent
      have hne := h.entry_ne hinv he hl (ho ▸ hf.entry)
      simp only [UnixAns.apply, ho]
      rw [update_of_ne hne.symm]
      exact ⟨hfree, update_comm hne.symm _ _ _⟩

theorem BindView.call (h : unixStep s (.bind i a) = some (s', o))
    (ho : o.ret = none) : BindView s i a s.unix s' (.checked a) := by
  obtain ⟨⟨hb, -⟩, h⟩ := Option.ite_none_right_eq_some.mp h
  split_ifs at h with h1 h2
  · cases h
    cases ho
  · cases h
    cases ho
  · cases h
    obtain ⟨hbound, hstate⟩ := not_or.mp h2
    refine ⟨hb, not_not.mp h1, ⟨not_not.mp hbound, not_not.mp hstate⟩, fun a' ha => ?_,
      update_self _ _ _, fun _ => rfl, fun l hl => ?_⟩
    · cases ha
      rfl
    · cases hl

/-- A step of the `bind` on socket `i` that is at `x`. -/
inductive BindStep (s : UnixSys) (i : ℕ) : BindPc → UnixSys → UnixAns → Prop
  | free {a : SockAddr} : s.unix (GoPath.clean a.name) = none → BindStep s i (.checked a)
      ((s.register (GoPath.clean a.name)).setSock i
        { s.socks i with bind := some (.registered a s.made) })
      ⟨none, some (GoPath.clean a.name, some s.made)⟩
  | taken {a : SockAddr} : BindStep s i (.checked a) (s.setSock i { s.socks i with bind := none })
      ⟨some (.error (netErrno .EADDRINUSE)), none⟩
  | bound {a : SockAddr} {l : ℕ} {host : List Listener} : host = [] ∨ host = [.host] →
      BindStep s i (.registered a l) (s.setSock i ((s.socks i).bound a l host))
        ⟨some (.ok ()), none⟩
  | hostFails {a : SockAddr} {l : ℕ} (err : NetErr) : BindStep s i (.registered a l)
      (s.setSock i { s.socks i with bind := some (.closing l err) }) ⟨none, none⟩
  | close {l : ℕ} {err : NetErr} : BindStep s i (.closing l err)
      ((s.close l).setSock i { s.socks i with bind := some (.unregistering l err) }) ⟨none, none⟩
  | unregister {l : ℕ} {err : NetErr} : BindStep s i (.unregistering l err)
      ((s.unregister l).setSock i { s.socks i with bind := none })
      ⟨some (.error (netErrno err)), s.removes l⟩

theorem unixStep_bind (hb : (s.socks i).bind = some x) (hs : unixStep s e = some (s', o))
    (he : e.bindOf = some i) : BindStep s i x s' o := by
  cases e with
  | bind j a =>
    cases he
    obtain ⟨⟨hn, -⟩, -⟩ := Option.ite_none_right_eq_some.mp hs
    rw [hb] at hn
    cases hn
  | listenUnix j =>
    cases he
    cases x <;> simp only [unixStep, hb, reduceCtorEq] at hs
    split_ifs at hs with hp
    · cases hs
      exact .free hp
    · cases hs
      exact .taken
  | listenHost j r =>
    cases he
    rcases r with _ | err | ⟨⟨⟩⟩ <;> cases x <;> simp only [unixStep, hb, reduceCtorEq] at hs
    · cases hs
      exact .bound (.inl rfl)
    · cases hs
      exact .hostFails err
    · cases hs
      exact .bound (.inr rfl)
  | bindClose j =>
    cases he
    cases x <;> simp only [unixStep, hb, reduceCtorEq] at hs
    cases hs
    exact .close
  | bindUnregister j =>
    cases he
    cases x <;> simp only [unixStep, hb, reduceCtorEq] at hs
    cases hs
    exact .unregister
  | _ => cases he

theorem BindView.move (h : BindView s0 i a R s x) (x' : BindPc) (ha : x'.addr = none)
    (hl : x'.listener = x.listener) (t : UnixSys) (hu : t.unix = s.unix) (hm : t.made = s.made)
    (hp : t.path = s.path) :
    BindView s0 i a R (t.setSock i { s.socks i with bind := some x' }) x' := by
  refine ⟨h.idle, h.family, h.ready, fun a' ha' => ?_, ?_, fun hn => ?_, fun l hl' => ?_⟩
  · rw [ha] at ha'
    cases ha'
  · show update t.socks i _ i = _
    rw [update_self, h.sock]
  · exact hu.trans (h.before (hl ▸ hn))
  · show l < t.made ∧ R (t.path l) = none ∧ t.unix = update R (t.path l) (some l)
    rw [hm, hp, hu]
    exact h.after l (hl ▸ hl')

theorem BindView.own (h : BindView s0 i a R s x) (hs : BindStep s i x s' o) (ho : o.ret = none) :
    ∃ x', BindView s0 i a R s' x' := by
  cases hs with
  | @free a' hp =>
    have hR := h.before rfl
    refine ⟨.registered a' s.made, h.idle, h.family, h.ready, h.addr, ?_,
      fun hn => (by cases hn), fun l hl => ?_⟩
    · show update s.socks i _ i = _
      rw [update_self, h.sock]
    · cases hl
      show s.made < s.made + 1 ∧ R (update s.path s.made _ s.made) = none ∧
        update s.unix _ _ = update R (update s.path s.made _ s.made) _
      rw [update_self, ← hR]
      exact ⟨Nat.lt_succ_self _, hp, rfl⟩
  | taken => cases ho
  | bound => cases ho
  | @hostFails a' l err => exact ⟨_, h.move (.closing l err) rfl rfl s rfl rfl rfl⟩
  | @close l err => exact ⟨_, h.move (.unregistering l err) rfl rfl (s.close l) rfl rfl rfl⟩
  | unregister => cases ho

/-- **What `bind` returns and does to the socket** is what `SharedSock.bind` does. -/
theorem BindView.returns (h : BindView s0 i a R s x) (hok : s.SocksOk) (hs : BindStep s i x s' o)
    {r : Except Errno Unit} (ho : o.ret = some r) : ∃ answers : BindHost,
      ((s'.socks i).sock, r) = (s0.socks i).sock.bind a answers := by
  have hsock : (s.socks i).sock = (s0.socks i).sock := by rw [h.sock]
  have hdom : (s0.socks i).sock.domain = .AF_UNIX := hsock ▸ (hok i).domain
  have hfam : a.family = .AF_UNIX := h.family.trans hdom
  cases hs with
  | free => cases ho
  | taken =>
    cases ho
    refine ⟨⟨.error .other, .error .EADDRINUSE, none⟩, ?_⟩
    simp [SharedSock.bind, UnixSys.setSock, hsock, hdom, hfam, h.ready]
  | @bound a' l host hhost =>
    obtain rfl := h.addr a' rfl
    cases ho
    rcases hhost with rfl | rfl
    · refine ⟨⟨.error .other, .ok (), none⟩, ?_⟩
      simp [SharedSock.bind, UnixSys.setSock, bound, hsock, hdom, hfam, h.ready]
    · refine ⟨⟨.error .other, .ok (), some (.ok ())⟩, ?_⟩
      simp [SharedSock.bind, UnixSys.setSock, bound, hsock, hdom, hfam, h.ready]
  | hostFails => cases ho
  | close => cases ho
  | @unregister l err =>
    cases ho
    refine ⟨⟨.error .other, .ok (), some (.error err)⟩, ?_⟩
    simp [SharedSock.bind, UnixSys.setSock, hsock, hdom, hfam, h.ready]

/-- **A `bind` that fails leaves the socket as it was.** -/
theorem BindView.fails (h : BindView s0 i a R s x) (hs : BindStep s i x s' o) {err : Errno}
    (ho : o.ret = some (.error err)) : s'.socks i = s0.socks i ∧ s'.unix = R := by
  have hsame : ({ s.socks i with bind := none } : UnixSock) = s0.socks i := by
    rw [h.sock, ← h.idle]
  cases hs with
  | free => cases ho
  | taken => exact ⟨(update_self _ _ _).trans hsame, h.before rfl⟩
  | bound => cases ho
  | hostFails => cases ho
  | close => cases ho
  | @unregister l err' =>
    obtain ⟨-, hfree, hunix⟩ := h.after l rfl
    refine ⟨(update_self _ _ _).trans hsame, ?_⟩
    show (s.unregister l).unix = R
    have hown : s.unix (s.path l) = some l := by rw [hunix, update_self]
    rw [UnixSys.unregister]
    dsimp only
    rw [if_pos hown, hunix, update_idem, ← hfree, update_eq_self]

/-- What a step of `bind` on socket `i` returns. -/
def bindRet (i : ℕ) (x : UnixAct × UnixAns) : Option (Except Errno Unit) :=
  if x.1.bindOf = some i then x.2.ret else none

/-- The registry after the entries that all others have set in a trace: those who are not in a
`bind` on socket `i`. -/
def others (i : ℕ) (R : Str → Option ℕ) (tr : List (UnixAct × UnixAns)) : Str → Option ℕ :=
  tr.foldl (fun R x => if x.1.bindOf = some i then R else x.2.apply R) R

theorem others_snoc (i : ℕ) (R : Str → Option ℕ) (tr : List (UnixAct × UnixAns))
    (x : UnixAct × UnixAns) : others i R (tr ++ [x]) =
      if x.1.bindOf = some i then others i R tr else x.2.apply (others i R tr) := by
  simp [others]

theorem BindView.step (h : BindView s0 i a R s x) (hreach : unixSystem.Reachable s)
    (hs : unixStep s e = some (s', o)) (ho : bindRet i (e, o) = none) :
    ∃ x', BindView s0 i a (if e.bindOf = some i then R else o.apply R) s' x' := by
  obtain ⟨hinv, hok⟩ := unix_inv hreach
  by_cases he : e.bindOf = some i
  · rw [if_pos he]
    refine h.own (unixStep_bind h.bind hs he) ?_
    simpa [bindRet, he] using ho
  · rw [if_neg he]
    exact ⟨x, h.other hinv (unixStep_effect hok hs).frame he⟩

theorem BindView.of_run (hreach : unixSystem.Reachable s0) {tr : List (UnixAct × UnixAns)}
    (h : unixSystem.Run s0 tr s) {o0 : UnixAns}
    (hhead : tr.head? = some (.bind i a, o0)) (hret : ∀ y ∈ tr, bindRet i y = none) :
    ∃ x, BindView s0 i a (others i s0.unix tr) s x := by
  induction h with
  | nil => cases hhead
  | @snoc tr s s' e o hr hs ih =>
    have hlast : bindRet i (e, o) = none := hret (e, o) (by simp)
    rw [others_snoc]
    cases tr with
    | nil =>
      -- the call itself
      obtain rfl := hr.eq_of_nil
      cases hhead
      have hown : (UnixAct.bind i a, o0).1.bindOf = some i := rfl
      refine ⟨.checked a, ?_⟩
      rw [if_pos hown]
      exact BindView.call hs (by simpa [bindRet, UnixAct.bindOf] using hlast)
    | cons y tr =>
      obtain ⟨x, hx⟩ := ih hhead fun z hz => hret z (List.mem_append_left _ hz)
      obtain ⟨s1, tr1, hi, hr1⟩ := hreach
      exact hx.step ⟨s1, _, hi, hr1.trans hr⟩ hs hlast

end BindView

section Returns

variable {s s' : UnixSys} {i : ℕ} {a : SockAddr} {o0 o : UnixAns} {tr : List (UnixAct × UnixAns)}
  {e : UnixAct} {r : Except Errno Unit}

/-- The last step of a `bind`: its call fails at once, or it has been in progress. -/
theorem bind_last (hreach : unixSystem.Reachable s) (h : unixSystem.Run s (tr ++ [(e, o)]) s')
    (hhead : (tr ++ [(e, o)]).head? = some (.bind i a, o0)) (hret : ∀ y ∈ tr, bindRet i y = none)
    (hlast : bindRet i (e, o) = some r) :
    (tr = [] ∧ s' = s ∧ ∀ answers, (s.socks i).sock.bind a answers = ((s.socks i).sock, r)) ∨
    ∃ s1 x, unixSystem.Reachable s1 ∧ BindView s i a (others i s.unix tr) s1 x ∧
      unixStep s1 e = some (s', o) ∧ e.bindOf = some i ∧ o.ret = some r := by
  obtain ⟨s1, hr, hs⟩ := h.of_snoc
  have he : e.bindOf = some i := by
    by_contra he
    simp [bindRet, he] at hlast
  have ho : o.ret = some r := by simpa [bindRet, he] using hlast
  cases tr with
  | nil =>
    obtain rfl := hr.eq_of_nil
    cases hhead
    obtain ⟨-, hs⟩ := Option.ite_none_right_eq_some.mp hs
    refine .inl ⟨rfl, ?_⟩
    split_ifs at hs with h1 h2
    · cases hs
      cases ho
      exact ⟨rfl, fun answers => if_pos h1⟩
    · cases hs
      cases ho
      exact ⟨rfl, fun answers => (if_neg h1).trans (if_pos h2)⟩
    · cases hs
      cases ho
  | cons y tr =>
    obtain ⟨x, hx⟩ := BindView.of_run hreach hr hhead hret
    obtain ⟨s0, tr0, hi, hr0⟩ := hreach
    exact .inr ⟨s1, x, ⟨s0, _, hi, hr0.trans hr⟩, hx, hs, he, ho⟩

/-- **`bind` in steps is `bind` in one section**, whatever others do meanwhile. -/
theorem bind_refines (hreach : unixSystem.Reachable s) (h : unixSystem.Run s (tr ++ [(e, o)]) s')
    (hhead : (tr ++ [(e, o)]).head? = some (.bind i a, o0)) (hret : ∀ y ∈ tr, bindRet i y = none)
    (hlast : bindRet i (e, o) = some r) :
    ∃ answers, ((s'.socks i).sock, r) = (s.socks i).sock.bind a answers := by
  rcases bind_last hreach h hhead hret hlast with ⟨-, rfl, hsame⟩ | ⟨s1, x, hs1, hx, hs, he, ho⟩
  · exact ⟨⟨.error .other, .error .other, none⟩, (hsame _).symm⟩
  · exact hx.returns (unix_inv hs1).2 (unixStep_bind hx.bind hs he) ho

/-- **A `bind` that fails**, whatever others do meanwhile. -/
theorem bind_fails {err : Errno} (hreach : unixSystem.Reachable s)
    (h : unixSystem.Run s (tr ++ [(e, o)]) s')
    (hhead : (tr ++ [(e, o)]).head? = some (.bind i a, o0)) (hret : ∀ y ∈ tr, bindRet i y = none)
    (hlast : bindRet i (e, o) = some (.error err)) :
    s'.socks i = s.socks i ∧ s'.unix = others i s.unix tr := by
  rcases bind_last hreach h hhead hret hlast with ⟨rfl, rfl, -⟩ | ⟨s1, x, -, hx, hs, he, ho⟩
  · exact ⟨rfl, rfl⟩
  · exact hx.fails (unixStep_bind hx.bind hs he) ho

end Returns

/-! ### The registry -/

/-- No `bind`, no `release` and no `Close` is in progress. -/
def UnixSys.Quiet (s : UnixSys) : Prop :=
  ∀ i, (s.socks i).bind = none ∧ ((s.socks i).release = .idle ∨ (s.socks i).release = .done)

section Quiet

variable {s : UnixSys}

theorem UnixSys.Quiet.holds_iff (hq : s.Quiet) {i l : ℕ} {c : Bool} :
    (s.socks i).holds = some (l, c) ↔
      (s.socks i).vl = some l ∧ (s.socks i).released = false ∧ c = false := by
  obtain ⟨hb, hr | hr⟩ := hq i
  · simp only [holds, released, hb, hr]
    cases (s.socks i).vl <;> simp [eq_comm]
  · simp [holds, released, hb, hr]

theorem registered_iff (h : unixSystem.Reachable s) (hq : s.Quiet) (path : Str) (l : ℕ) :
    s.unix path = some l ↔ l < s.made ∧ s.closed l = false ∧ s.path l = path ∧
      ∃! i, (s.socks i).vl = some l ∧ (s.socks i).sock.bound ≠ none ∧
        (s.socks i).released = false := by
  obtain ⟨hinv, hok⟩ := unix_inv h
  constructor
  · intro hreg
    obtain ⟨hpath, i, c, hi⟩ := hinv.reg path l hreg
    obtain ⟨hlt, hclosed, -⟩ := hinv.held i l c hi
    obtain ⟨hvl, hrel, rfl⟩ := hq.holds_iff.mp hi
    refine ⟨hlt, hclosed, hpath, i, ⟨hvl, ?_, hrel⟩, ?_⟩
    · rcases (hok i).shape with hs | hs
      · rw [hs.2] at hvl
        cases hvl
      · exact hs.2.1
    · rintro j ⟨hvl', -, hrel'⟩
      exact hinv.one j i l false false (hq.holds_iff.mpr ⟨hvl', hrel', rfl⟩) hi
  · rintro ⟨hlt, hclosed, rfl, -⟩
    obtain ⟨i, hi⟩ := hinv.opened l hlt hclosed
    exact (hinv.held i l false hi).2.2

/-- A step takes a listener out of the registry only when it is the socket's own. -/
theorem unixStep_removes (hok : s.SocksOk) {s' : UnixSys} {e : UnixAct} {o : UnixAns}
    (h : unixStep s e = some (s', o)) {path : Str} {l : ℕ} (hreg : s.unix path = some l) :
    s'.unix path = some l ∨
      ∃ i, e.unregisters = some i ∧ (s.socks i).holds = some (l, true) := by
  have hf := (unixStep_effect hok h).frame
  rw [hf.unix]
  obtain ⟨r, ent⟩ := o
  have hent : EntryOf s e ent := hf.entry
  cases hent with
  | none => exact .inl hreg
  | @register path' hfree =>
    have hne : path ≠ path' := by
      rintro rfl
      rw [hfree] at hreg
      cases hreg
    exact .inl ((update_of_ne hne _ _).trans hreg)
  | @unregister i l' hun _ hh hown =>
    by_cases hp : path = s.path l'
    · rw [hp, hown] at hreg
      cases hreg
      exact .inr ⟨i, hun, hh⟩
    · exact .inl ((update_of_ne hp _ _).trans hreg)

end Quiet

/-- **The registry of Unix sockets.** Open virtual listeners have different paths; between calls the
registry maps a path to the open listener of a bound socket; a `bind` that fails changes nothing,
and only `Close` takes a listener out. -/
theorem unix_registry {s : UnixSys} (h : unixSystem.Reachable s) :
    (∀ l l', l < s.made → l' < s.made → s.closed l = false → s.closed l' = false →
      s.path l = s.path l' → l = l') ∧
    (s.Quiet → ∀ path l, s.unix path = some l ↔ l < s.made ∧ s.closed l = false ∧
      s.path l = path ∧ ∃! i, (s.socks i).vl = some l ∧ (s.socks i).sock.bound ≠ none ∧
        (s.socks i).released = false) ∧
    (∀ i a o0 tr e o err s', unixSystem.Run s (tr ++ [(e, o)]) s' →
      (tr ++ [(e, o)]).head? = some (.bind i a, o0) → (∀ y ∈ tr, bindRet i y = none) →
      bindRet i (e, o) = some (.error err) →
      s'.socks i = s.socks i ∧ s'.unix = others i s.unix tr) ∧
    (∀ e s' o, unixStep s e = some (s', o) → ∀ path l, s.unix path = some l →
      s'.unix path = some l ∨
        ∃ i, e.unregisters = some i ∧ (s.socks i).holds = some (l, true)) := by
  obtain ⟨hinv, hok⟩ := unix_inv h
  refine ⟨fun l l' hl hl' ho ho' hp => hinv.name_inj hl hl' ho ho' hp, registered_iff h, ?_, ?_⟩
  · intro i a o0 tr e o err s' hr hhead hret hlast
    exact bind_fails h hr hhead hret hlast
  · intro e s' o hs path l hreg
    exact unixStep_removes hok hs hreg

/-- A socket bound to `/s`. -/
theorem unix_registry_bound : ∃ s, unixSystem.Reachable s ∧
    s.unix (GoPath.clean [47, 115]) = some 0 ∧
    ∃! i, (s.socks i).vl = some 0 ∧ (s.socks i).sock.bound ≠ none ∧
      (s.socks i).released = false := by
  have hr := @System.reachable_of_exec _ _ _ unixSystem .start _
    [.bind 0 ⟨.AF_UNIX, [47, 115]⟩, .listenUnix 0, .listenHost 0 none] _ rfl rfl
  have hreg := (unix_registry hr).2.1 (fun i => ?_) (GoPath.clean [47, 115]) 0
  · refine ⟨_, hr, ?_, (hreg.mp ?_).2.2.2⟩ <;>
      simp [UnixSys.setSock, UnixSys.register, UnixSys.start]
  by_cases hi : i = 0
  · rw [hi]
    exact ⟨rfl, .inl rfl⟩
  · simp [UnixSys.setSock, UnixSys.register, UnixSys.start, new, hi]

end PgZero.Kernel
