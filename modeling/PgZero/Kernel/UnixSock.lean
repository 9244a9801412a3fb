import PgZero.Kernel.Connect
import PgZero.Lib.GoPath
import PgZero.Lib.Registry

/-!
# Unix sockets

`bind` of a Unix socket registers a virtual listener under its path and then listens on the host's
path, if there is one; if that fails it closes the listener again. `release` closes the listeners of
a socket. A listener is closed in two steps: its channel first, and its entry in the registry after
that, if the entry is still its own.

* `UnixEffect`: what a step does; **`unixStep_effect`**.
* **`unix_inv`**: the invariant of the registry.
-/

set_option autoImplicit false

namespace PgZero.Kernel

open Function Lib

/-! ### The calls -/

/-- Where a `bind` is that holds the mutex of its socket. -/
inductive BindPc
  /-- has checked the socket -/
  | checked (a : SockAddr)
  /-- `listenUnix` has registered `l` -/
  | registered (a : SockAddr) (l : ℕ)
  /-- the host has failed to listen, `l` is still open -/
  | closing (l : ℕ) (e : NetErr)
  /-- the channel of `l` is closed -/
  | unregistering (l : ℕ) (e : NetErr)
  deriving DecidableEq, Repr

/-- Where `release` is, with the listeners still to be closed. -/
inductive UnixReleasePc
  | idle
  | closing (lns : List Listener)
  /-- the channel of the virtual listener is closed -/
  | unregistering (lns : List Listener)
  | done
  deriving DecidableEq, Repr

/-- A Unix socket; `vl` is the virtual listener of its `lns`. -/
structure UnixSock where
  sock : SharedSock
  vl : Option ℕ
  bind : Option BindPc
  release : UnixReleasePc
  deriving DecidableEq, Repr

namespace UnixSock

/-- A new socket. -/
def new : UnixSock := ⟨.new .AF_UNIX, none, none, .idle⟩

/-- `release` has begun. -/
def released (u : UnixSock) : Bool := u.release ≠ .idle

/-- The end of `bind`, with listener `l` and perhaps one of the host. -/
def bound (u : UnixSock) (a : SockAddr) (l : ℕ) (host : List Listener) : UnixSock :=
  { u with
    sock := { u.sock with bound := some a, lns := .virtual :: host }
    vl := some l
    bind := none }

end UnixSock

/-- A kernel's Unix sockets: the map `k.unix`, the virtual listeners with their cleaned paths, the
sockets, and the calls of `connect` by process. -/
structure UnixSys where
  unix : Str → Option ℕ
  path : ℕ → Str
  closed : ℕ → Bool
  made : ℕ
  socks : ℕ → UnixSock
  calls : ℕ → ℕ × ConnectPc

/-- The steps of `bind`, `connect` and `release`. -/
inductive UnixAct
  | bind (i : ℕ) (a : SockAddr)
  | listenUnix (i : ℕ)
  /-- the host listens on the host's path, if there is one -/
  | listenHost (i : ℕ) (r : Option (Except NetErr Unit))
  | bindClose (i : ℕ)
  | bindUnregister (i : ℕ)
  | listen (i : ℕ)
  | connect (p i : ℕ) (a : SockAddr)
  | dial (p : ℕ) (h : DialHost)
  | start (p : ℕ)
  | release (i : ℕ)
  /-- the next `Close` of `release`, or its end -/
  | releaseClose (i : ℕ)
  | releaseUnregister (i : ℕ)

/-- What a step shows: what its call returns, if it ends, and the entry it sets in the registry. -/
structure UnixAns where
  ret : Option (Except Errno Unit) := none
  entry : Option (Str × Option ℕ) := none

namespace UnixSys

/-- No socket yet. -/
def start : UnixSys :=
  ⟨fun _ => none, fun _ => [], fun _ => false, 0, fun _ => .new, fun _ => (0, .idle)⟩

/-- The socket `i` changes. -/
def setSock (s : UnixSys) (i : ℕ) (u : UnixSock) : UnixSys :=
  { s with socks := update s.socks i u }

/-- The call of `connect` of `p` goes on. -/
def setCall (s : UnixSys) (p i : ℕ) (pc : ConnectPc) : UnixSys :=
  { s with calls := update s.calls p (i, pc) }

/-- `listenUnix`, when the path is free. -/
def register (s : UnixSys) (path : Str) : UnixSys :=
  { s with
    unix := update s.unix path (some s.made)
    path := update s.path s.made path
    closed := update s.closed s.made false
    made := s.made + 1 }

/-- The first step of `virtualListener.Close`. -/
def close (s : UnixSys) (l : ℕ) : UnixSys := { s with closed := update s.closed l true }

/-- The second step of `virtualListener.Close`. -/
def unregister (s : UnixSys) (l : ℕ) : UnixSys :=
  { s with
    unix := if s.unix (s.path l) = some l then update s.unix (s.path l) none else s.unix }

/-- The entry that the second step of `Close` removes. -/
def removes (s : UnixSys) (l : ℕ) : Option (Str × Option ℕ) :=
  if s.unix (s.path l) = some l then some (s.path l, none) else none

/-- `DialUnix` finds no listener, or the listener answers. -/
def dialUnix (s : UnixSys) (a : SockAddr) (h : DialHost) : DialHost :=
  { h with
    dialUnix := if s.unix (GoPath.clean a.name) = none then .error .ECONNREFUSED else h.dialUnix }

end UnixSys

/-- One step of `bind`, `connect` or `release`. -/
def unixStep (s : UnixSys) : UnixAct → Option (UnixSys × UnixAns)
  | .bind i a =>
    let u := s.socks i
    -- a call needs a descriptor, and the last one is gone when the socket is released
    if u.bind = none ∧ u.released = false then
      if a.family ≠ u.sock.domain then some (s, { ret := some (.error .EAFNOSUPPORT) })
      else if u.sock.bound ≠ none ∨ u.sock.state ≠ .sockNew then
        some (s, { ret := some (.error .EINVAL) })
      else some (s.setSock i { u with bind := some (.checked a) }, {})
    else none
  | .listenUnix i =>
    let u := s.socks i
    match u.bind with
    | some (.checked a) =>
      let path := GoPath.clean a.name
      if s.unix path = none then
        some ((s.register path).setSock i { u with bind := some (.registered a s.made) },
          { entry := some (path, some s.made) })
      else some (s.setSock i { u with bind := none },
        { ret := some (.error (netErrno .EADDRINUSE)) })
    | _ => none
  | .listenHost i r =>
    let u := s.socks i
    match u.bind, r with
    | some (.registered a l), none => some (s.setSock i (u.bound a l []), { ret := some (.ok ()) })
    | some (.registered a l), some (.ok ()) =>
      some (s.setSock i (u.bound a l [.host]), { ret := some (.ok ()) })
    | some (.registered _ l), some (.error e) =>
      some (s.setSock i { u with bind := some (.closing l e) }, {})
    | _, _ => none
  | .bindClose i =>
    let u := s.socks i
    match u.bind with
    | some (.closing l e) =>
      some ((s.close l).setSock i { u with bind := some (.unregistering l e) }, {})
    | _ => none
  | .bindUnregister i =>
    let u := s.socks i
    match u.bind with
    | some (.unregistering l e) =>
      some ((s.unregister l).setSock i { u with bind := none },
        { ret := some (.error (netErrno e)), entry := s.removes l })
    | _ => none
  | .listen i =>
    let u := s.socks i
    if u.bind = none then
      some (s.setSock i { u with sock := u.sock.listen.1 }, { ret := some u.sock.listen.2 })
    else none
  | .connect p i a =>
    if (s.calls p).2 = .idle ∧ (s.socks i).bind = none then
      match (s.socks i).sock.connect a with
      | .error e => some (s, { ret := some (.error e) })
      | .ok () => some (s.setCall p i (.dialing a), {})
    else none
  | .dial p h =>
    match s.calls p with
    | (i, .dialing a) =>
      match dial a (s.dialUnix a h) with
      | .error e => some (s.setCall p i .idle, { ret := some (.error e) })
      | .ok (c, la) => some (s.setCall p i (.dialled a c la), {})
    | _ => none
  | .start p =>
    match s.calls p with
    | (i, .dialled a c la) =>
      let u := s.socks i
      if u.bind = none then
        some ((s.setCall p i .idle).setSock i { u with sock := u.sock.connected a c la },
          { ret := some (.ok ()) })
      else none
    | _ => none
  | .release i =>
    let u := s.socks i
    if u.bind = none ∧ u.release = .idle then
      some (s.setSock i { u with release := .closing u.sock.lns }, {})
    else none
  | .releaseClose i =>
    let u := s.socks i
    match u.release, u.vl with
    | .closing (.virtual :: lns), some l =>
      some ((s.close l).setSock i { u with release := .unregistering lns }, {})
    | .closing (.host :: lns), _ => some (s.setSock i { u with release := .closing lns }, {})
    | .closing [], _ => some (s.setSock i { u with release := .done }, { ret := some (.ok ()) })
    | _, _ => none
  | .releaseUnregister i =>
    let u := s.socks i
    match u.release, u.vl with
    | .unregistering lns, some l =>
      some ((s.unregister l).setSock i { u with release := .closing lns },
        { entry := s.removes l })
    | _, _ => none

/-- The Unix sockets of a kernel. -/
def unixSystem : System UnixSys UnixAct UnixAns where
  init s := s = .start
  step := unixStep

/-! ### Sockets as owners -/

namespace UnixSock

/-- The virtual listener that is in the registry for the socket, and whether its channel is
closed. -/
def holds (u : UnixSock) : Option (ℕ × Bool) :=
  match u.bind with
  | some (.checked _) => none
  | some (.registered _ l) | some (.closing l _) => some (l, false)
  | some (.unregistering l _) => some (l, true)
  | none =>
    match u.release with
    | .idle => u.vl.map fun l => (l, false)
    | .closing lns => if .virtual ∈ lns then u.vl.map fun l => (l, false) else none
    | .unregistering _ => u.vl.map fun l => (l, true)
    | .done => none

/-- The virtual listener of a socket comes first, from `bind` on until `release` closes it. -/
structure Ok (u : UnixSock) : Prop where
  domain : u.sock.domain = .AF_UNIX
  shape : u.sock.lns = [] ∧ u.vl = none ∨ u.vl ≠ none ∧ u.sock.bound ≠ none ∧
    ∃ host, u.sock.lns = .virtual :: host ∧ .virtual ∉ host
  binding : u.bind ≠ none → u.sock.bound = none ∧ u.release = .idle
  closing : ∀ lns, u.release = .closing lns → lns = u.sock.lns ∨ .virtual ∉ lns
  unregistering : ∀ lns, u.release = .unregistering lns → .virtual ∉ lns

theorem Ok.new : UnixSock.new.Ok :=
  ⟨rfl, .inl ⟨rfl, rfl⟩, fun h => absurd rfl h, fun _ h => (by cases h), fun _ h => (by cases h)⟩

variable {u : UnixSock}

theorem Ok.fresh (h : u.Ok) (hb : u.bind ≠ none) :
    u.sock.lns = [] ∧ u.vl = none ∧ u.release = .idle := by
  obtain ⟨hbound, hrel⟩ := h.binding hb
  rcases h.shape with hs | ⟨-, hne, -⟩
  · exact ⟨hs.1, hs.2, hrel⟩
  · exact absurd hbound hne

theorem Ok.setBind (h : u.Ok) {x : Option BindPc}
    (hx : x ≠ none → u.sock.bound = none ∧ u.release = .idle) : Ok { u with bind := x } :=
  ⟨h.domain, h.shape, hx, h.closing, h.unregistering⟩

theorem Ok.bound (h : u.Ok) (hb : u.bind ≠ none) (a : SockAddr) (l : ℕ) {host : List Listener}
    (hv : .virtual ∉ host) : (u.bound a l host).Ok := by
  obtain ⟨-, -, hrel⟩ := h.fresh hb
  refine ⟨h.domain, .inr ⟨by simp [UnixSock.bound], by simp [UnixSock.bound], host, rfl, hv⟩,
    fun hne => absurd rfl hne, fun lns hl => ?_, fun lns hl => ?_⟩
  · have hl' : u.release = .closing lns := hl
    rw [hrel] at hl'
    cases hl'
  · have hl' : u.release = .unregistering lns := hl
    rw [hrel] at hl'
    cases hl'

theorem Ok.setSock (h : u.Ok) {x : SharedSock} (hd : x.domain = u.sock.domain)
    (hl : x.lns = u.sock.lns) (hb : u.sock.bound ≠ none → x.bound ≠ none) (hn : u.bind = none) :
    Ok { u with sock := x } := by
  refine ⟨hd.trans h.domain, ?_, fun hne => absurd hn hne, fun lns hc => ?_, h.unregistering⟩
  · rcases h.shape with ⟨h1, h2⟩ | ⟨h1, h2, host, h3⟩
    · exact .inl ⟨hl.trans h1, h2⟩
    · exact .inr ⟨h1, hb h2, host, hl.trans h3.1, h3.2⟩
  · show lns = x.lns ∨ _
    rw [hl]
    exact h.closing lns hc

theorem Ok.setRelease (h : u.Ok) {x : UnixReleasePc} (hn : u.bind = none)
    (hc : ∀ lns, x = .closing lns → lns = u.sock.lns ∨ .virtual ∉ lns)
    (hu : ∀ lns, x = .unregistering lns → .virtual ∉ lns) : Ok { u with release := x } :=
  ⟨h.domain, h.shape, fun hne => absurd hn hne, hc, hu⟩

/-- The list of a `release` that comes to a virtual listener is the whole list. -/
theorem Ok.closing_virtual (h : u.Ok) {lns : List Listener}
    (hr : u.release = .closing (.virtual :: lns)) :
    u.sock.lns = .virtual :: lns ∧ u.vl ≠ none ∧ .virtual ∉ lns := by
  have hlns : .virtual :: lns = u.sock.lns :=
    (h.closing _ hr).resolve_right fun hv => hv List.mem_cons_self
  rcases h.shape with ⟨h1, -⟩ | ⟨h1, -, host, h2, h3⟩
  · rw [h1] at hlns
    cases hlns
  · rw [h2] at hlns
    cases hlns
    exact ⟨h2, h1, h3⟩

theorem Ok.holds_unbound (h : u.Ok) (hb : u.bind ≠ none) :
    holds { u with bind := none } = none := by
  obtain ⟨-, hvl, hrel⟩ := h.fresh hb
  simp [holds, hvl, hrel]

theorem Ok.holds_bound (h : u.Ok) (hb : u.bind ≠ none) (a : SockAddr) (l : ℕ)
    (host : List Listener) : (u.bound a l host).holds = some (l, false) := by
  obtain ⟨-, -, hrel⟩ := h.fresh hb
  simp [holds, UnixSock.bound, hrel]

theorem Ok.holds_release (h : u.Ok) (hb : u.bind = none) (hr : u.release = .idle) :
    holds { u with release := .closing u.sock.lns } = u.holds := by
  rcases h.shape with ⟨h1, h2⟩ | ⟨-, -, host, h1, -⟩
  · simp [holds, hb, hr, h2]
  · simp [holds, hb, hr, h1]

theorem Ok.released (h : u.Ok) (hr : u.release ≠ .idle) : u.bind = none := by
  by_contra hb
  exact hr (h.binding hb).2

end UnixSock

namespace UnixSys

/-- The registry, with the sockets as owners of the listeners. -/
def registry (s : UnixSys) : Registry Str ℕ :=
  ⟨s.unix, s.path, s.closed, s.made, fun i => (s.socks i).holds⟩

/-- Every socket is so. -/
def SocksOk (s : UnixSys) : Prop := ∀ i, (s.socks i).Ok

variable {s s' : UnixSys}

theorem registry_setSock (s : UnixSys) (i : ℕ) (u : UnixSock) :
    (s.setSock i u).registry =
      { s.registry with holds := update s.registry.holds i u.holds } := by
  have hh : (fun j => (update s.socks i u j).holds) =
      update (fun j => (s.socks j).holds) i u.holds := by
    funext j
    exact apply_update (fun _ => UnixSock.holds) s.socks i u j
  simp only [registry, setSock, hh]

theorem registry_same {i : ℕ} {u : UnixSock} (h : u.holds = (s.socks i).holds) :
    (s.setSock i u).registry = s.registry := by
  rw [registry_setSock, h]
  show { s.registry with holds := update s.registry.holds i (s.registry.holds i) } = _
  rw [update_eq_self]

theorem SocksOk.setSock (h : s.SocksOk) {i : ℕ} {u : UnixSock} (hu : u.Ok) :
    (s.setSock i u).SocksOk :=
  (forall_update_iff s.socks fun _ u => u.Ok).mpr ⟨hu, fun j _ => h j⟩

end UnixSys

/-! ### What a step does -/

/-- The socket on which the step is one of a `bind`. -/
def UnixAct.bindOf : UnixAct → Option ℕ
  | .bind i _ | .listenUnix i | .listenHost i _ | .bindClose i | .bindUnregister i => some i
  | .listen _ | .connect _ _ _ | .dial _ _ | .start _ | .release _ | .releaseClose _
  | .releaseUnregister _ => none

/-- The socket whose listener the step takes out of the registry. -/
def UnixAct.unregisters : UnixAct → Option ℕ
  | .bindUnregister i | .releaseUnregister i => some i
  | _ => none

/-- What a step does. It works on one socket at most, and on one in `bind` only if it is a step of
that `bind`. -/
inductive UnixEffect (s : UnixSys) (e : UnixAct) : UnixSys → UnixAns → Prop
  | calls (c : ℕ → ℕ × ConnectPc) (r : Option (Except Errno Unit)) :
      UnixEffect s e { s with calls := c } ⟨r, none⟩
  /-- the socket holds what it held -/
  | sock {i : ℕ} {u : UnixSock} (c : ℕ → ℕ × ConnectPc) (r : Option (Except Errno Unit)) :
      (s.socks i).bind = none ∨ e.bindOf = some i → u.Ok → u.holds = (s.socks i).holds →
      UnixEffect s e (UnixSys.setSock { s with calls := c } i u) ⟨r, none⟩
  | register {i : ℕ} {u : UnixSock} {path : Str} :
      (s.socks i).bind = none ∨ e.bindOf = some i → u.Ok → s.unix path = none →
      (s.socks i).holds = none → u.holds = some (s.made, false) →
      UnixEffect s e ((s.register path).setSock i u) ⟨none, some (path, some s.made)⟩
  | close {i l : ℕ} {u : UnixSock} :
      (s.socks i).bind = none ∨ e.bindOf = some i → u.Ok →
      (s.socks i).holds = some (l, false) → u.holds = some (l, true) →
      UnixEffect s e ((s.close l).setSock i u) ⟨none, none⟩
  | unregister {i l : ℕ} {u : UnixSock} {r : Option (Except Errno Unit)} :
      (s.socks i).bind = none ∨ e.bindOf = some i → u.Ok → e.unregisters = some i →
      (s.socks i).holds = some (l, true) → u.holds = none →
      UnixEffect s e ((s.unregister l).setSock i u) ⟨r, s.removes l⟩

theorem SharedSock.listen_keeps (s : SharedSock) :
    s.listen.1.domain = s.domain ∧ s.listen.1.lns = s.lns ∧ s.listen.1.bound = s.bound := by
  unfold SharedSock.listen
  split_ifs <;> exact ⟨rfl, rfl, rfl⟩

theorem SharedSock.connected_keeps (s : SharedSock) (a : SockAddr) (c : ℕ) (la : SockAddr) :
    (s.connected a c la).lns = s.lns ∧ (s.bound ≠ none → (s.connected a c la).bound ≠ none) := by
  refine ⟨rfl, fun h => ?_⟩
  show (if s.bound = none then some la else s.bound) ≠ none
  rw [if_neg h]
  exact h

theorem unixStep_effect {s s' : UnixSys} {e : UnixAct} {o : UnixAns} (hok : s.SocksOk)
    (h : unixStep s e = some (s', o)) : UnixEffect s e s' o := by
  cases e with
  | bind i a =>
    obtain ⟨⟨hb, hrel⟩, h⟩ := Option.ite_none_right_eq_some.mp h
    have hidle : (s.socks i).release = .idle := by simpa [UnixSock.released] using hrel
    split_ifs at h with h1 h2
    · cases h
      exact .calls _ _
    · cases h
      exact .calls _ _
    · cases h
      obtain ⟨hbound, -⟩ := not_or.mp h2
      refine .sock _ _ (.inr rfl) ((hok i).setBind fun _ => ⟨not_not.mp hbound, hidle⟩) ?_
      have hvl : (s.socks i).vl = none := by
        rcases (hok i).shape with hs | hs
        · exact hs.2
        · exact absurd (not_not.mp hbound) hs.2.1
      simp [UnixSock.holds, hb, hidle, hvl]
  | listenUnix i =>
    simp only [unixStep] at h
    split at h
    · next a hb =>
      have hne : (s.socks i).bind ≠ none := by simp [hb]
      have hholds : (s.socks i).holds = none := by simp [UnixSock.holds, hb]
      split_ifs at h with hp
      · cases h
        exact .register (.inr rfl) ((hok i).setBind fun _ => (hok i).binding hne) hp hholds rfl
      · cases h
        refine .sock _ _ (.inr rfl) ((hok i).setBind fun hx => absurd rfl hx) ?_
        rw [hholds]
        exact (hok i).holds_unbound hne
    · cases h
  | listenHost i r =>
    simp only [unixStep] at h
    split at h
    · next a l hb =>
      have hne : (s.socks i).bind ≠ none := by simp [hb]
      cases h
      refine .sock _ _ (.inr rfl) ((hok i).bound hne a l (by simp)) ?_
      rw [(hok i).holds_bound hne]
      simp [UnixSock.holds, hb]
    · next a l hb =>
      have hne : (s.socks i).bind ≠ none := by simp [hb]
      cases h
      refine .sock _ _ (.inr rfl) ((hok i).bound hne a l (by simp)) ?_
      rw [(hok i).holds_bound hne]
      simp [UnixSock.holds, hb]
    · next a l e hb =>
      have hne : (s.socks i).bind ≠ none := by simp [hb]
      cases h
      refine .sock _ _ (.inr rfl) ((hok i).setBind fun _ => (hok i).binding hne) ?_
      simp [UnixSock.holds, hb]
    · cases h
  | bindClose i =>
    simp only [unixStep] at h
    split at h
    · next l e hb =>
      have hne : (s.socks i).bind ≠ none := by simp [hb]
      cases h
      exact .close (.inr rfl) ((hok i).setBind fun _ => (hok i).binding hne)
        (by simp [UnixSock.holds, hb]) rfl
    · cases h
  | bindUnregister i =>
    simp only [unixStep] at h
    split at h
    · next l e hb =>
      have hne : (s.socks i).bind ≠ none := by simp [hb]
      cases h
      exact .unregister (.inr rfl) ((hok i).setBind fun hx => absurd rfl hx) rfl
        (by simp [UnixSock.holds, hb]) ((hok i).holds_unbound hne)
    · cases h
  | listen i =>
    obtain ⟨hb, h⟩ := Option.ite_none_right_eq_some.mp h
    cases h
    obtain ⟨hd, hl, hbound⟩ := (s.socks i).sock.listen_keeps
    exact .sock _ _ (.inl hb) ((hok i).setSock hd hl (fun hx => hbound ▸ hx) hb) rfl
  | connect p i a =>
    obtain ⟨-, h⟩ := Option.ite_none_right_eq_some.mp h
    split at h
    · cases h
      exact .calls _ _
    · cases h
      exact .calls _ _
  | dial p h' =>
    simp only [unixStep] at h
    split at h
    · split at h
      · cases h
        exact .calls _ _
      · cases h
        exact .calls _ _
    · cases h
  | start p =>
    simp only [unixStep] at h
    split at h
    · next i a c la hc =>
      obtain ⟨hb, h⟩ := Option.ite_none_right_eq_some.mp h
      cases h
      obtain ⟨hl, hbound⟩ := (s.socks i).sock.connected_keeps a c la
      exact .sock _ _ (.inl hb) ((hok i).setSock rfl hl hbound hb) rfl
    · cases h
  | release i =>
    obtain ⟨⟨hb, hr⟩, h⟩ := Option.ite_none_right_eq_some.mp h
    cases h
    refine .sock _ _ (.inl hb) ((hok i).setRelease hb (fun lns hl => ?_) fun _ hl => ?_) ?_
    · cases hl
      exact .inl rfl
    · cases hl
    · exact (hok i).holds_release hb hr
  | releaseClose i =>
    simp only [unixStep] at h
    split at h
    · next lns l hr hvl =>
      have hb : (s.socks i).bind = none := (hok i).released (by simp [hr])
      obtain ⟨-, -, hv⟩ := (hok i).closing_virtual hr
      cases h
      refine .close (.inl hb) ((hok i).setRelease hb (fun _ hl => ?_) fun _ hl => ?_) ?_ ?_
      · cases hl
      · cases hl
        exact hv
      · simp [UnixSock.holds, hb, hr, hvl]
      · simp [UnixSock.holds, hb, hvl]
    · next lns hr =>
      have hb : (s.socks i).bind = none := (hok i).released (by simp [hr])
      have hv : .virtual ∉ lns := by
        rcases (hok i).closing _ hr with hl | hl
        · rcases (hok i).shape with ⟨h1, -⟩ | ⟨-, -, host, h1, -⟩ <;> rw [h1] at hl <;> cases hl
        · exact fun hm => hl (List.mem_cons_of_mem _ hm)
      cases h
      refine .sock _ _ (.inl hb) ((hok i).setRelease hb (fun _ hl => ?_) fun _ hl => ?_) ?_
      · cases hl
        exact .inr hv
      · cases hl
      · simp [UnixSock.holds, hb, hr]
    · next hr =>
      have hb : (s.socks i).bind = none := (hok i).released (by simp [hr])
      cases h
      refine .sock _ _ (.inl hb) ((hok i).setRelease hb (fun _ hl => ?_) fun _ hl => ?_) ?_
      · cases hl
      · cases hl
      · simp [UnixSock.holds, hb, hr]
    · cases h
  | releaseUnregister i =>
    simp only [unixStep] at h
    split at h
    · next lns l hr hvl =>
      have hb : (s.socks i).bind = none := (hok i).released (by simp [hr])
      have hv := (hok i).unregistering _ hr
      cases h
      refine .unregister (.inl hb) ((hok i).setRelease hb (fun _ hl => ?_) fun _ hl => ?_) rfl ?_ ?_
      · cases hl
        exact .inr hv
      · cases hl
      · simp [UnixSock.holds, hb, hr, hvl]
      · simp [UnixSock.holds, hb, hv]
    · cases h

section Effect

variable {s s' : UnixSys} {e : UnixAct} {o : UnixAns}

/-- **Every step is a step of the registry.** -/
theorem UnixEffect.registry (h : UnixEffect s e s' o) :
    Registry.Step s.registry s'.registry := by
  cases h with
  | calls => exact .skip
  | @sock i u c r _ _ hh =>
    have hsame : (UnixSys.setSock { s with calls := c } i u).registry = s.registry :=
      UnixSys.registry_same hh
    rw [hsame]
    exact .skip
  | @register i u path _ _ hp hi hh =>
    rw [UnixSys.registry_setSock, hh]
    exact Registry.Step.register i path hp hi
  | @close i l u _ _ hi hh =>
    rw [UnixSys.registry_setSock, hh]
    exact Registry.Step.close i l hi
  | @unregister i l u r _ _ _ hi hh =>
    rw [UnixSys.registry_setSock, hh]
    exact Registry.Step.unregister i l hi

theorem UnixEffect.socksOk (h : UnixEffect s e s' o) (hok : s.SocksOk) : s'.SocksOk := by
  have hset : ∀ {t : UnixSys} {i : ℕ} {u : UnixSock}, t.socks = s.socks → u.Ok →
      (t.setSock i u).SocksOk := fun ht hu =>
    UnixSys.SocksOk.setSock (fun j => ht ▸ hok j) hu
  cases h with
  | calls => exact hok
  | sock _ _ _ hu | register _ hu | close _ hu | unregister _ hu => exact hset rfl hu

end Effect

theorem unix_inv {s : UnixSys} (h : unixSystem.Reachable s) : s.registry.Inv ∧ s.SocksOk := by
  refine h.invariant (P := fun s => s.registry.Inv ∧ s.SocksOk) (fun s hi => ?_)
    fun s e s' o hs hst => ?_
  · obtain rfl : s = .start := hi
    refine ⟨⟨fun i l c hl => ?_, fun k l hk => ?_, fun i j l c c' hl => ?_, fun l hl => ?_⟩,
      fun _ => .new⟩
    · cases hl
    · cases hk
    · cases hl
    · exact absurd hl (Nat.not_lt_zero l)
  · have he := unixStep_effect hs.2 hst
    exact ⟨hs.1.step he.registry, he.socksOk hs.2⟩

end PgZero.Kernel
