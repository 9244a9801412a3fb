import PgZero.Kernel.PidOwner

/-!
# The pid allocator

`allocPid` looks for a free number from `1` to `2047` with a cursor that goes round, and packs it
with the host pid into an `int32`.

* `turn`: one turn of such a cursor; **`exists_turn`**: it meets every number in one round.
* **`pid_allocator`**: what is allocated, and when nothing is.
-/

set_option autoImplicit false

namespace PgZero.Kernel

open Function Lib PidState

/-! ### The cursor -/

/-- One turn of a cursor through `1, …, m`. -/
def turn (m n : ℕ) : ℕ := n % m + 1

theorem turn_mem {m : ℕ} (hm : 0 < m) (n : ℕ) : 1 ≤ turn m n ∧ turn m n ≤ m := by
  have h := Nat.mod_lt n hm
  unfold turn
  omega

theorem iterate_turn {m n : ℕ} (h1 : 1 ≤ n) (h2 : n ≤ m) (j : ℕ) :
    (turn m)^[j] n = (n - 1 + j) % m + 1 := by
  induction j with
  | zero =>
    rw [iterate_zero_apply, Nat.add_zero, Nat.mod_eq_of_lt (by omega)]
    omega
  | succ j ih =>
    rw [iterate_succ_apply', ih, turn, Nat.mod_add_mod]
    rfl

theorem exists_turn {m n c : ℕ} (h1 : 1 ≤ n) (h2 : n ≤ m) (hc1 : 1 ≤ c) (hc2 : c ≤ m) :
    ∃ j < m, (turn m)^[j] n = c := by
  by_cases hnc : n ≤ c
  · refine ⟨c - n, by omega, ?_⟩
    rw [iterate_turn h1 h2, show n - 1 + (c - n) = c - 1 by omega, Nat.mod_eq_of_lt (by omega)]
    omega
  · refine ⟨c + m - n, by omega, ?_⟩
    rw [iterate_turn h1 h2, show n - 1 + (c + m - n) = c - 1 + m by omega, Nat.add_mod_right,
      Nat.mod_eq_of_lt (by omega)]
    omega

section Scan

variable {owners : ℕ → Option ℕ} {base next : ℕ}

theorem allocFrom_none_iff (i : ℕ) : (allocFrom owners base i next).1 = none ↔
    ∀ j < i, owners (base + (turn 2047)^[j] next) ≠ none := by
  induction i generalizing next with
  | zero => simp [allocFrom]
  | succ i ih =>
    rw [allocFrom]
    split_ifs with hf
    · simp only [false_iff, not_forall]
      exact ⟨0, Nat.succ_pos i, fun h => h hf⟩
    · rw [ih]
      constructor
      · rintro h (_ | j) hj
        · exact hf
        · exact h j (Nat.lt_of_succ_lt_succ hj)
      · exact fun h j hj => h (j + 1) (Nat.succ_lt_succ hj)

theorem allocFrom_some {i pid : ℕ} (h1 : 1 ≤ next) (h2 : next ≤ 2047)
    (h : (allocFrom owners base i next).1 = some pid) :
    owners pid = none ∧ ∃ n, 1 ≤ n ∧ n ≤ 2047 ∧ pid = base + n := by
  induction i generalizing next with
  | zero => simp [allocFrom] at h
  | succ i ih =>
    rw [allocFrom] at h
    split_ifs at h with hf
    · cases h
      exact ⟨hf, next, h1, h2, rfl⟩
    · have ht := turn_mem (m := 2047) (by decide) next
      exact ih ht.1 ht.2 h

theorem allocFrom_next (h1 : 1 ≤ next) (h2 : next ≤ 2047) (i : ℕ) :
    1 ≤ (allocFrom owners base i next).2 ∧
      (allocFrom owners base i next).2 ≤ 2047 := by
  induction i generalizing next with
  | zero => exact ⟨h1, h2⟩
  | succ i ih =>
    have ht := turn_mem (m := 2047) (by decide) next
    rw [allocFrom]
    split_ifs
    · exact ht
    · exact ih ht.1 ht.2

/-- All `2047` numbers are in use exactly when the `2048` turns find none. -/
theorem allocFrom_full_iff (h1 : 1 ≤ next) (h2 : next ≤ 2047) :
    (allocFrom owners base pidsPerHost next).1 = none ↔
      ∀ n, 1 ≤ n → n ≤ 2047 → owners (base + n) ≠ none := by
  rw [allocFrom_none_iff]
  constructor
  · intro h n hn1 hn2
    obtain ⟨j, hj, rfl⟩ := exists_turn h1 h2 hn1 hn2
    exact h j (hj.trans (by decide))
  · intro h j _
    have hmem := iterate_turn h1 h2 j
    have hlt := Nat.mod_lt (next - 1 + j) (show 0 < 2047 by decide)
    exact h _ (by omega) (by omega)

end Scan

/-! ### The table of pids -/

/-- `pids`: the owners by pid, an `int32`, and the cursor. -/
structure PidTable where
  owners : BitVec 32 → Option ℕ
  next : BitVec 32

/-- `pidBase()` in the Go process with the given host pid. -/
def pidBase32 (hostPid : ℕ) : BitVec 32 := BitVec.ofNat 32 (hostPid % hostPidRange) <<< 11

/-- `hostPidOf`: the host process of a pid. -/
def hostPidOf (pid : BitVec 32) : ℤ := (pid.sshiftRight 11).toInt

namespace PidTable

/-- As the first call of `allocPid` sets it up. -/
def init : PidTable := ⟨fun _ => none, 1⟩

/-- The loop of `allocPid`, with `i` turns left. -/
def allocLoop (owners : BitVec 32 → Option ℕ) (base : BitVec 32) :
    ℕ → BitVec 32 → Option (BitVec 32) × BitVec 32
  | 0, next => (none, next)
  | i + 1, next =>
    let next' := next.srem (BitVec.ofNat 32 (pidsPerHost - 1)) + 1
    if owners (base + next) = none then (some (base + next), next')
    else allocLoop owners base i next'

/-- `allocPid` for kernel `k`. -/
def alloc (t : PidTable) (hostPid k : ℕ) : PidTable × BitVec 32 :=
  match allocLoop t.owners (pidBase32 hostPid) pidsPerHost t.next with
  | (some pid, next) => (⟨update t.owners pid (some k), next⟩, pid)
  | (none, next) => ({ t with next }, 0)

/-- `releasePid` -/
def release (t : PidTable) (pid : BitVec 32) : PidTable :=
  { t with owners := update t.owners pid none }

end PidTable

/-- The calls on the table. -/
inductive PidTableAct
  | alloc (k : ℕ)
  | release (pid : BitVec 32)
  deriving DecidableEq, Repr

/-- The calls of all kernels in the Go process with the given host pid. -/
def pidTableSystem (hostPid : ℕ) : System PidTable PidTableAct (BitVec 32) where
  init t := t = .init
  step t
    | .alloc k => some (t.alloc hostPid k)
    | .release pid => some (t.release pid, 0)

/-! ### The arithmetic of `int32` -/

theorem pidBase32_eq (hostPid : ℕ) : pidBase32 hostPid = BitVec.ofNat 32 (pidBase hostPid) := by
  have h := Nat.mod_lt hostPid (show 0 < hostPidRange by decide)
  apply BitVec.eq_of_toNat_eq
  rw [pidBase32, BitVec.toNat_shiftLeft, BitVec.toNat_ofNat, BitVec.toNat_ofNat, Nat.shiftLeft_eq,
    pidBase]
  unfold hostPidRange at h ⊢
  omega

theorem srem_turn {n : ℕ} (h : n ≤ 2047) :
    (BitVec.ofNat 32 n).srem (BitVec.ofNat 32 (pidsPerHost - 1)) + 1 =
      BitVec.ofNat 32 (turn 2047 n) := by
  -- neither operand is negative
  have hm : (BitVec.ofNat 32 n).msb = false := by
    rw [BitVec.msb_eq_false_iff_two_mul_lt, BitVec.toNat_ofNat]
    omega
  have hm' : (BitVec.ofNat 32 (pidsPerHost - 1)).msb = false := by decide
  have hn : n % 2 ^ 32 = n := Nat.mod_eq_of_lt (by omega)
  have hmod : (BitVec.ofNat 32 n).srem (BitVec.ofNat 32 (pidsPerHost - 1)) =
      BitVec.ofNat 32 (n % 2047) := by
    rw [BitVec.srem_eq, hm, hm']
    apply BitVec.eq_of_toNat_eq
    rw [BitVec.toNat_umod, BitVec.toNat_ofNat, BitVec.toNat_ofNat, BitVec.toNat_ofNat, hn,
      show (pidsPerHost - 1) % 2 ^ 32 = 2047 from rfl]
    omega
  rw [hmod, turn, BitVec.ofNat_add]
  rfl

theorem toInt_pid {hostPid n : ℕ} (hn : n ≤ 2047) :
    (BitVec.ofNat 32 (pidBase hostPid + n)).toInt = (hostPid % 2 ^ 20 : ℕ) * 2 ^ 11 + n := by
  have h := Nat.mod_lt hostPid (show 0 < 2 ^ 20 by decide)
  rw [BitVec.toInt_ofNat', Int.bmod, pidBase, hostPidRange]
  omega

theorem hostPidOf_pid {hostPid n : ℕ} (hn : n ≤ 2047) :
    hostPidOf (BitVec.ofNat 32 (pidBase hostPid + n)) = (hostPid % 2 ^ 20 : ℕ) := by
  rw [hostPidOf, BitVec.toInt_sshiftRight, toInt_pid hn, Int.shiftRight_eq_div_pow]
  omega

/-! ### Two views of the table -/

theorem allocLoop_eq (owners : BitVec 32 → Option ℕ) (base : ℕ) {next : ℕ} (h2 : next ≤ 2047)
    (i : ℕ) : PidTable.allocLoop owners (BitVec.ofNat 32 base) i (BitVec.ofNat 32 next) =
      ((allocFrom (fun p => owners (BitVec.ofNat 32 p)) base i next).1.map
        (BitVec.ofNat 32), BitVec.ofNat 32
          (allocFrom (fun p => owners (BitVec.ofNat 32 p)) base i next).2) := by
  induction i generalizing next with
  | zero => rfl
  | succ i ih =>
    have hturn := (turn_mem (m := 2047) (by decide) next).2
    rw [PidTable.allocLoop, allocFrom, srem_turn h2, ← BitVec.ofNat_add]
    split_ifs with hf
    · rfl
    · exact ih hturn

/-- The table as `PidState` has it, which knows pids as numbers. -/
structure PidTable.Agrees (t : PidTable) (s : PidState) : Prop where
  owners : ∀ p < 2 ^ 31, t.owners (BitVec.ofNat 32 p) = s.owners p
  next : t.next = BitVec.ofNat 32 s.next

theorem pidBase_add_lt (hostPid : ℕ) {n : ℕ} (hn : n ≤ 2047) : pidBase hostPid + n < 2 ^ 31 := by
  have h := Nat.mod_lt hostPid (show 0 < hostPidRange by decide)
  unfold pidBase hostPidRange at *
  omega

theorem allocFrom_congr {f g : ℕ → Option ℕ} {base next : ℕ}
    (hfg : ∀ n ≤ 2047, f (base + n) = g (base + n)) (h2 : next ≤ 2047) (i : ℕ) :
    allocFrom f base i next = allocFrom g base i next := by
  induction i generalizing next with
  | zero => rfl
  | succ i ih =>
    have hturn := (turn_mem (m := 2047) (by decide) next).2
    rw [allocFrom, allocFrom, hfg next h2]
    split_ifs
    · rfl
    · exact ih hturn

theorem PidTable.Agrees.alloc {t : PidTable} {s : PidState} (h : t.Agrees s) (h1 : 1 ≤ s.next)
    (h2 : s.next ≤ 2047) (hostPid k : ℕ) :
    (t.alloc hostPid k).1.Agrees (s.allocPid (pidBase hostPid) k).1 ∧
      (t.alloc hostPid k).2 =
        BitVec.ofNat 32 ((s.allocPid (pidBase hostPid) k).2.getD 0) := by
  have hloop := allocLoop_eq t.owners (pidBase hostPid) h2 pidsPerHost
  rw [allocFrom_congr (g := s.owners) (fun n hn => h.owners _ (pidBase_add_lt hostPid hn)) h2]
    at hloop
  unfold PidTable.alloc allocPid
  rw [pidBase32_eq, h.next, hloop]
  cases hr : allocFrom s.owners (pidBase hostPid) pidsPerHost s.next with
  | mk r next =>
    cases r with
    | none => exact ⟨⟨h.owners, rfl⟩, rfl⟩
    | some pid =>
      obtain ⟨-, n, -, hn, hpid⟩ := allocFrom_some h1 h2 (congrArg Prod.fst hr)
      have hlt : pid < 2 ^ 31 := hpid ▸ pidBase_add_lt hostPid hn
      refine ⟨⟨fun p hp => ?_, rfl⟩, rfl⟩
      simp only [Option.map_some, update_apply, h.owners p hp]
      have hiff : BitVec.ofNat 32 p = BitVec.ofNat 32 pid ↔ p = pid := by
        rw [← BitVec.toNat_inj, BitVec.toNat_ofNat, BitVec.toNat_ofNat]
        omega
      simp only [hiff]

/-! ### The allocator -/

/-- The cursor is in its range. -/
def PidTable.InRange (t : PidTable) : Prop := ∃ n, 1 ≤ n ∧ n ≤ 2047 ∧ t.next = BitVec.ofNat 32 n

theorem PidTable.InRange.alloc {t : PidTable} (h : t.InRange) (hostPid k : ℕ) :
    (t.alloc hostPid k).1.InRange ∧
    ((∀ n, 1 ≤ n → n ≤ 2047 → t.owners (BitVec.ofNat 32 (pidBase hostPid + n)) ≠ none) ∧
        (t.alloc hostPid k).2 = 0 ∧ (t.alloc hostPid k).1.owners = t.owners ∨
      ∃ n, 1 ≤ n ∧ n ≤ 2047 ∧ t.owners (BitVec.ofNat 32 (pidBase hostPid + n)) = none ∧
        (t.alloc hostPid k).2 = BitVec.ofNat 32 (pidBase hostPid + n) ∧
        (t.alloc hostPid k).1.owners =
          update t.owners (BitVec.ofNat 32 (pidBase hostPid + n)) (some k)) := by
  obtain ⟨next, h1, h2, hnext⟩ := h
  have hloop := allocLoop_eq t.owners (pidBase hostPid) h2 pidsPerHost
  have hrange := @allocFrom_next (fun p => t.owners (BitVec.ofNat 32 p)) (pidBase hostPid) next
    h1 h2 pidsPerHost
  rw [← pidBase32_eq, ← hnext] at hloop
  cases hr : allocFrom (fun p => t.owners (BitVec.ofNat 32 p)) (pidBase hostPid)
      pidsPerHost next with
  | mk r next' =>
    rw [hr] at hloop hrange
    cases r with
    | none =>
      have ha : t.alloc hostPid k = ({ t with next := BitVec.ofNat 32 next' }, 0) := by
        simp only [PidTable.alloc, hloop, Option.map_none]
      rw [ha]
      exact ⟨⟨next', hrange.1, hrange.2, rfl⟩, .inl
        ⟨(allocFrom_full_iff h1 h2).mp (congrArg Prod.fst hr), rfl, rfl⟩⟩
    | some pid =>
      obtain ⟨hfree, n, hn1, hn2, rfl⟩ := allocFrom_some h1 h2 (congrArg Prod.fst hr)
      have ha : t.alloc hostPid k = (⟨update t.owners
          (BitVec.ofNat 32 (pidBase hostPid + n)) (some k), BitVec.ofNat 32 next'⟩,
          BitVec.ofNat 32 (pidBase hostPid + n)) := by
        simp only [PidTable.alloc, hloop, Option.map_some]
      rw [ha]
      exact ⟨⟨next', hrange.1, hrange.2, rfl⟩, .inr ⟨n, hn1, hn2, hfree, rfl, rfl⟩⟩

theorem PidTable.InRange.of_reachable {hostPid : ℕ} {t : PidTable}
    (h : (pidTableSystem hostPid).Reachable t) : t.InRange := by
  refine h.invariant (fun t hi => ?_) (fun t e t' o h hs => ?_)
  · obtain rfl : t = .init := hi
    exact ⟨1, le_rfl, by decide, rfl⟩
  · cases e with
    | alloc k =>
      obtain rfl : (t.alloc hostPid k).1 = t' := congrArg Prod.fst (Option.some.inj hs)
      exact (h.alloc hostPid k).1
    | release pid =>
      cases hs
      exact h

/-- The pids of the Go process with the given host pid. -/
def pidOf (hostPid n : ℕ) : BitVec 32 := pidBase32 hostPid + BitVec.ofNat 32 n

/-- **The pid allocator.** `allocPid` returns `0` exactly when all `2047` numbers are owned, and
otherwise a positive `int32` that nobody owned; pids of Go processes whose host pids differ modulo
`2 ^ 20` are different. -/
theorem pid_allocator {hostPid : ℕ} {t : PidTable} (ht : (pidTableSystem hostPid).Reachable t)
    (k : ℕ) :
    ((t.alloc hostPid k).2 = 0 ↔ ∀ n, 1 ≤ n → n ≤ 2047 → t.owners (pidOf hostPid n) ≠ none) ∧
    ((t.alloc hostPid k).2 = 0 → (t.alloc hostPid k).1.owners = t.owners) ∧
    ((t.alloc hostPid k).2 ≠ 0 → ∃ n : ℕ, 1 ≤ n ∧ n ≤ 2047 ∧
      (t.alloc hostPid k).2.toInt = (hostPid % 2 ^ 20 : ℕ) * 2 ^ 11 + n ∧
      0 < (t.alloc hostPid k).2.toInt ∧ t.owners (t.alloc hostPid k).2 = none ∧
      (t.alloc hostPid k).1.owners (t.alloc hostPid k).2 = some k ∧
      (∀ pid ≠ (t.alloc hostPid k).2, (t.alloc hostPid k).1.owners pid = t.owners pid) ∧
      hostPidOf (t.alloc hostPid k).2 = (hostPid % 2 ^ 20 : ℕ) ∧
      ∀ hostPid' t' k', (pidTableSystem hostPid').Reachable t' →
        hostPid' % 2 ^ 20 ≠ hostPid % 2 ^ 20 →
        (t'.alloc hostPid' k').2 ≠ (t.alloc hostPid k).2) := by
  have hpid : ∀ h n, pidOf h n = BitVec.ofNat 32 (pidBase h + n) := fun h n => by
    rw [pidOf, pidBase32_eq, ← BitVec.ofNat_add]
  have hpos : ∀ h n, 1 ≤ n → n ≤ 2047 → 0 < (BitVec.ofNat 32 (pidBase h + n)).toInt :=
    fun h n h1 h2 => by
      rw [toInt_pid h2]
      omega
  have hne : ∀ h n, 1 ≤ n → n ≤ 2047 → BitVec.ofNat 32 (pidBase h + n) ≠ 0 := fun h n h1 h2 he => by
    have h0 := hpos h n h1 h2
    rw [he] at h0
    exact absurd h0 (by decide)
  simp only [hpid]
  rcases ((PidTable.InRange.of_reachable ht).alloc hostPid k).2 with
    ⟨hall, hz, ho⟩ | ⟨n, h1, h2, hfree, hp, ho⟩
  · exact ⟨iff_of_true hz hall, fun _ => ho, fun h => absurd hz h⟩
  · rw [hp, ho]
    refine ⟨iff_of_false (hne _ n h1 h2) fun hall => hall n h1 h2 hfree,
      fun hz => absurd hz (hne _ n h1 h2), fun _ => ⟨n, h1, h2, toInt_pid h2, hpos _ n h1 h2, hfree,
      update_self .., fun pid hq => update_of_ne hq _ _, hostPidOf_pid h2, ?_⟩⟩
    intro hostPid' t' k' ht' hdiff he
    rcases ((PidTable.InRange.of_reachable ht').alloc hostPid' k').2 with
      ⟨-, hz, -⟩ | ⟨n', -, h2', -, hp', -⟩
    · exact hne _ n h1 h2 (he.symm.trans hz)
    · have hhost := congrArg hostPidOf (hp'.symm.trans he)
      rw [hostPidOf_pid h2', hostPidOf_pid h2] at hhost
      exact hdiff (by exact_mod_cast hhost)

/-- After two allocations and a release: the pid that is still owned is kept. -/
theorem pid_allocator_released :
    let t := ((PidTable.init.alloc 1048577 0).1.alloc 1048577 1).1.release 2049
    t.owners 2049 = none ∧ t.owners 2050 = some 1 ∧
      ∃ n : ℕ, 1 ≤ n ∧ n ≤ 2047 ∧ (t.alloc 1048577 2).2.toInt = 1 * 2 ^ 11 + n ∧
        (t.alloc 1048577 2).1.owners (t.alloc 1048577 2).2 = some 2 ∧
        (t.alloc 1048577 2).1.owners 2050 = some 1 := by
  intro t
  have hr : (pidTableSystem 1048577).Reachable t :=
    System.reachable_of_exec [.alloc 0, .alloc 1, .release 2049] rfl rfl
  have hother : t.owners 2050 = some 1 := by decide
  obtain ⟨n, h1, h2, h3, -, hfree, hown, hkeep, -⟩ := (pid_allocator hr 2).2.2 (by decide)
  refine ⟨by decide, hother, n, h1, h2, h3, hown, ?_⟩
  rw [hkeep 2050 fun he => ?_, hother]
  rw [← he, hother] at hfree
  cases hfree

end PgZero.Kernel
