import PgZero.Memfs.Namespace

/-!
# Following a walk

A walk in one heap is followed step by step in another one, along a relation of their nodes. A copy
of a filesystem is followed along the table of copies, and a part of a heap that has not changed
along the identity.

* **`WalkSim.resolve`**: so do whole paths.
-/

set_option autoImplicit false

namespace PgZero.Memfs

open Lib

/-- Nodes of `h` related to nodes of `h'` by `E` have the same kind, their parents and entries are
related, and the root `r` is related to `r'` only. -/
structure WalkSim (h h' : Heap) (r r' : NodeId) (E : NodeId → NodeId → Prop) : Prop where
  isDir : ∀ n c, E n c → h'.isDir c = h.isDir n
  parent : ∀ n c, E n c → Option.Rel E (h.parent n) (h'.parent c)
  entry : ∀ n c, E n c → ∀ k, Option.Rel E (h.entry n k) (h'.entry c k)
  root : ∀ n c, E n c → (n = r ↔ c = r')

/-- Two walks that end with the same error, or at related nodes. -/
inductive WalkRel {α β : Type} (E : α → β → Prop) :
    Except Heap.WalkFault α → Except Heap.WalkFault β → Prop
  | error (e : Heap.WalkFault) : WalkRel E (.error e) (.error e)
  | ok {a : α} {b : β} : E a b → WalkRel E (.ok a) (.ok b)

/-- What two calls of `resolve` return: related nodes and the same base name. -/
def PathRel (E : NodeId → NodeId → Prop) (x y : NodeId × Str) : Prop := E x.1 y.1 ∧ x.2 = y.2

section

variable {h h' : Heap} {r r' : NodeId} {E : NodeId → NodeId → Prop}

theorem exists_of_rel_some {o : Option NodeId} {c : NodeId} (h : Option.Rel E o (some c)) :
    ∃ n, o = some n ∧ E n c := by
  cases h with
  | some hnc => exact ⟨_, rfl, hnc⟩

theorem WalkSim.walkStep (hs : WalkSim h h' r r' E) {cur cur' : Option NodeId}
    (hc : Option.Rel E cur cur') (p : Str) :
    WalkRel (Option.Rel E) (h.walkStep r cur p) (h'.walkStep r' cur' p) := by
  unfold Heap.walkStep
  by_cases hdot : p = [] ∨ p = GoPath.dot
  · rw [if_pos hdot, if_pos hdot]
    exact .ok hc
  rw [if_neg hdot, if_neg hdot]
  cases hc with
  | none =>
    split_ifs <;> exact .error _
  | @some n c hnc =>
    by_cases hup : p = GoPath.dotdot
    · rw [if_pos hup, if_pos hup]
      have hroot : some n = some r ↔ some c = some r' := by
        simpa using hs.root n c hnc
      by_cases hr : some n = some r
      · rw [if_pos hr, if_pos (hroot.mp hr)]
        exact .error _
      · rw [if_neg hr, if_neg (fun h1 => hr (hroot.mpr h1))]
        exact .ok (hs.parent n c hnc)
    · rw [if_neg hup, if_neg hup]
      dsimp only
      rw [hs.isDir n c hnc]
      by_cases hd : (!h.isDir n) = true
      · rw [if_pos hd, if_pos hd]
        exact .error _
      rw [if_neg hd, if_neg hd]
      have he := hs.entry n c hnc p
      revert he
      cases h.entry n p <;> cases h'.entry c p
      · exact fun _ => .error _
      · exact fun he => by cases he
      · exact fun he => by cases he
      · exact fun he => .ok he

theorem WalkSim.walk (hs : WalkSim h h' r r' E) {cur cur' : Option NodeId}
    (hc : Option.Rel E cur cur') (ps : List Str) :
    WalkRel (Option.Rel E) (h.walk r cur ps) (h'.walk r' cur' ps) := by
  induction ps generalizing cur cur' with
  | nil => exact .ok hc
  | cons p ps ih =>
    have hstep := hs.walkStep hc p
    rw [Heap.walk, Heap.walk]
    revert hstep
    cases h.walkStep r cur p <;> cases h'.walkStep r' cur' p
    · rintro ⟨⟩
      exact .error _
    · exact fun h1 => by cases h1
    · exact fun h1 => by cases h1
    · rintro (_ | hn)
      exact ih hn

/-- **Related directories and the same path** lead to related nodes, or to the same error. -/
theorem WalkSim.resolve (hs : WalkSim h h' r r' E) {dir dir' : NodeId} (hd : E dir dir')
    (name : Str) (po : Bool) :
    WalkRel (PathRel E) (h.resolve r dir name po) (h'.resolve r' dir' name po) := by
  unfold Heap.resolve
  split_ifs
  · exact .error _
  cases Heap.components name po with
  | error e => exact .error e
  | ok pb =>
    obtain ⟨parts, base⟩ := pb
    dsimp only
    have hw := hs.walk (.some hd) parts
    revert hw
    cases h.walk r (some dir) parts <;> cases h'.walk r' (some dir') parts
    · rintro ⟨⟩
      exact .error _
    · exact fun h1 => by cases h1
    · exact fun h1 => by cases h1
    · rintro (_ | hn)
      cases hn with
      | none => exact .error _
      | @some n c hnc =>
        dsimp only
        rw [hs.isDir n c hnc]
        split_ifs
        · exact .error _
        · exact .ok ⟨hnc, rfl⟩

/-! ### Within one heap, and after a change elsewhere -/

/-- Nodes that a walk from one of them does not leave. -/
structure WalkClosed (h : Heap) (S : NodeId → Prop) : Prop where
  parent : ∀ n p, S n → h.parent n = some p → S p
  entry : ∀ n k c, S n → h.entry n k = some c → S c

theorem option_rel_self {S : NodeId → Prop} {o : Option NodeId} (h : ∀ n, o = some n → S n) :
    Option.Rel (fun n c => n = c ∧ S n) o o := by
  cases o with
  | none => exact .none
  | some n => exact .some ⟨rfl, h n rfl⟩

theorem WalkClosed.sim {S : NodeId → Prop} (hS : WalkClosed h S)
    (hsame : ∀ n, S n → h'.node n = h.node n) : WalkSim h h' r r fun n c => n = c ∧ S n := by
  constructor
  · rintro n c ⟨rfl, hn⟩
    rw [Heap.isDir, Heap.isDir, hsame n hn]
  · rintro n c ⟨rfl, hn⟩
    have hp : h'.parent n = h.parent n := by rw [Heap.parent, Heap.parent, hsame n hn]
    rw [hp]
    exact option_rel_self fun p hp => hS.parent n p hn hp
  · rintro n c ⟨rfl, hn⟩ k
    have he : h'.entry n k = h.entry n k := by rw [Heap.entry, Heap.entry, hsame n hn]
    rw [he]
    exact option_rel_self fun m hm => hS.entry n k m hn hm
  · rintro n c ⟨rfl, -⟩
    exact Iff.rfl

theorem WalkClosed.resolve_mem {S : NodeId → Prop} (hS : WalkClosed h S) {dir n : NodeId}
    {name base : Str} {po : Bool} (hd : S dir) (hr : h.resolve r dir name po = .ok (n, base)) :
    S n := by
  have hw := (hS.sim (r := r) fun _ _ => rfl).resolve ⟨rfl, hd⟩ name po
  rw [hr] at hw
  cases hw with
  | ok h1 => exact h1.1.2

theorem WalkClosed.resolve_eq {S : NodeId → Prop} (hS : WalkClosed h S)
    (hsame : ∀ n, S n → h'.node n = h.node n) {dir : NodeId} (hd : S dir) (name : Str)
    (po : Bool) : h'.resolve r dir name po = h.resolve r dir name po := by
  have hw := (hS.sim (r := r) hsame).resolve ⟨rfl, hd⟩ name po
  revert hw
  generalize h.resolve r dir name po = x
  generalize h'.resolve r dir name po = y
  rintro (e | ⟨⟨hn, -⟩, hb⟩)
  · rfl
  · rw [Prod.ext hn hb]

end

end PgZero.Memfs
