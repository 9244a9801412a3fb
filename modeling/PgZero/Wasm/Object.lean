import PgZero.Lib.Ascii
import PgZero.Lib.Bytes
import PgZero.Lib.Slice
import PgZero.Lib.Tape

/-!
# Relocatable wasm objects

`Symbols` reads the symbol table of an object, from the `linking` section. It reads sections,
subsections and names through slices of the file, and each slice has its own reader.

A Go slice may be cut up to its capacity, and the slices of the file have the rest of the file as
capacity. So a name or a subsection that is too long is not refused: it goes on behind the end of
the slice that it is in, and what is there is read twice. `Watch` has offsets at which a second
reader stops; `Symbols` itself has none.
-/

set_option autoImplicit false

namespace PgZero.Wasm

open Lib

/-- A function. -/
def KindFunction : UInt8 := 0
/-- Data. -/
def KindData : UInt8 := 1
/-- A global. -/
def KindGlobal : UInt8 := 2
/-- A section. -/
def KindSection : UInt8 := 3
/-- A tag. -/
def KindTag : UInt8 := 4
/-- A table. -/
def KindTable : UInt8 := 5

/-- Local binding. -/
def FlagBindingLocal : UInt8 := 0x2
/-- The symbol is not defined here. -/
def FlagUndefined : UInt8 := 0x10
/-- The symbol has a name of its own. -/
def FlagExplicitName : UInt8 := 0x40

/-- A byte as `uint64`. -/
def wide (c : UInt8) : BitVec 64 := c.toBitVec.setWidth 64

/-- The type of a function. -/
structure FuncSig where
  params : Str
  results : Str
  deriving DecidableEq

/-- A symbol. -/
structure Symbol where
  kind : UInt8
  flags : BitVec 64
  flagsOffset : ℕ
  name : Str
  func : Option FuncSig
  deriving DecidableEq

/-- `Defined`, of the flags -/
def definedFlags (flags : BitVec 64) : Bool := flags &&& wide FlagUndefined = 0

/-- It is defined here. -/
def Symbol.defined (s : Symbol) : Bool := definedFlags s.flags

/-- It has local binding. -/
def Symbol.isLocal (s : Symbol) : Bool := s.flags &&& wide FlagBindingLocal ≠ 0

/-! ### Errors -/

/-- The errors of `Symbols`. -/
inductive ObjErr
  | notModule
  | typeForm (form : UInt8)
  | badIndex (name : Str)
  | unknownKind (kind : UInt8)
  | noLinking
  deriving DecidableEq

/-- The digits of a byte, in a base. -/
def digits (base : ℕ) (c : UInt8) : Str := ascii (String.ofList (Nat.toDigits base c.toNat))

/-- The text of an error. -/
def ObjErr.text : ObjErr → Str
  | .notModule => ascii "not a wasm module"
  | .typeForm form => ascii "unsupported type form 0x" ++ digits 16 form
  | .badIndex name => ascii "function symbol " ++ name ++ ascii ": bad index"
  | .unknownKind kind => ascii "unknown symbol kind " ++ digits 10 kind
  | .noLinking => ascii "no linking section (not a relocatable object?)"

/-- How reading stops: an index out of range, or an error. -/
inductive Stop
  | panic
  | err (e : ObjErr)
  deriving DecidableEq

/-! ### The reader -/

/-- `base` is the file offset of the first byte of `b`. -/
structure Reader where
  b : Slice UInt8
  i : ℕ
  base : ℕ

/-- A parser over a `Reader`. -/
abbrev Read (α : Type) := StateT Reader (Except Stop) α

/-- There are bytes left. -/
def Reader.more (r : Reader) : Bool := r.i < r.b.len

/-- `r.base + r.i` -/
def Reader.offset (r : Reader) : ℕ := r.base + r.i

/-- One byte. -/
def byte : Read UInt8 := fun r =>
  match r.b.toList[r.i]? with
  | none => .error .panic
  | some c => .ok (c, { r with i := r.i + 1 })

/-- The loop of `uleb`, with the bytes that are left: at the end of the slice `byte` panics. -/
def ulebFrom : ℕ → BitVec 64 → ℕ → Read (BitVec 64)
  | 0, _, _ => throw .panic
  | k + 1, v, shift => do
    let c ← byte
    let v := v ||| wide (c &&& 0x7f) <<< shift
    if c &&& 0x80 = 0 then pure v else ulebFrom k v (shift + 7)

/-- An unsigned LEB128 number. -/
def uleb : Read (BitVec 64) := do
  let r ← get
  ulebFrom (r.b.len - r.i) 0 0

/-- `r.b[r.i : r.i+n]`, up to the capacity; the sum is out of range also when it overflows. -/
def cutAt (n : ℤ) : Read (Slice UInt8) := fun r =>
  if h : 0 ≤ n ∧ r.i + n.toNat ≤ r.b.cap then
    .ok (r.b.cut r.i n.toNat h.2, { r with i := r.i + n.toNat })
  else .error .panic

/-- The next `n` bytes. -/
def bytes (n : ℤ) : Read Str := do
  let s ← cutAt n
  pure s.toList

/-- `r.bytes(int(r.uleb()))` -/
def vector : Read Str := do bytes (← uleb).toInt

/-- The limits of a table or a memory. -/
def limits : Read Unit := do
  let flags ← byte
  let _ ← uleb
  if flags &&& 1 ≠ 0 then
    let _ ← uleb
    pure ()
  else pure ()

/-- `sub`, and what is read from the reader that it returns. -/
def sub {α : Type} (n : ℤ) (p : Read α) : Read α := fun r => do
  let (s, r') ← (cutAt n).run r
  let (x, _) ← p.run ⟨s, 0, r.base + r.i⟩
  .ok (x, r')

/-! ### Watching offsets -/

/-- Offsets at which a reader stops: where it reads what it goes by, and where it reads names. -/
structure Watch where
  layout : Finset ℕ
  names : Finset ℕ

/-- No offsets. -/
def Watch.none : Watch := ⟨∅, ∅⟩

/-- What `p` reads has no offset in `P`. -/
def guarded {α : Type} (P : Finset ℕ) (p : Read α) : Read α := fun r => do
  let (x, r') ← p.run r
  if ∀ k ∈ P, k < r.offset ∨ r'.offset ≤ k then .ok (x, r') else .error .panic

section Parser

variable (W : Watch)

/-- A name of which the bytes are watched for `P`. -/
def nameOver (P : Finset ℕ) : Read Str := do
  let n ← guarded W.layout uleb
  guarded P (bytes n.toInt)

/-- A name. -/
def name : Read Str := nameOver W W.names

/-- The name of a symbol that has one. -/
def nameIf (named : Bool) : Read Str := if named then name W else pure []

/-! ### The sections -/

/-- The variables of `Symbols`. -/
structure Tables where
  types : List FuncSig
  importedFuncs : ℕ
  funcTypes : List (BitVec 32)
  syms : List Symbol
  found : Bool

/-- An entry of the type section. -/
def typeEntry (t : Tables) : Read Tables := do
  let form ← guarded W.layout byte
  if form ≠ 0x60 then throw (.err (.typeForm form))
  else
    let params ← guarded W.layout vector
    let results ← guarded W.layout vector
    pure { t with types := t.types ++ [⟨params, results⟩] }

/-- The names and the numbers of an import are not kept. -/
def importEntry (t : Tables) : Read Tables := do
  let _ ← nameOver W ∅
  let _ ← nameOver W ∅
  let kind ← guarded W.layout byte
  if kind = 0 then -- func
    let _ ← uleb
    pure { t with importedFuncs := t.importedFuncs + 1 }
  else if kind = 1 then -- table
    let _ ← byte
    guarded W.layout limits
    pure t
  else if kind = 2 then -- memory
    guarded W.layout limits
    pure t
  else if kind = 3 then -- global
    let _ ← byte
    let _ ← byte
    pure t
  else if kind = 4 then -- tag
    let _ ← byte
    let _ ← uleb
    pure t
  else pure t

/-- An entry of the function section. -/
def functionEntry (t : Tables) : Read Tables := do
  let v ← guarded W.layout uleb
  pure { t with funcTypes := t.funcTypes ++ [v.setWidth 32] }

/-- The signature of the function with index `idx`, of a symbol with the given name. -/
def Tables.signature (t : Tables) (idx : BitVec 64) (name : Str) : Except Stop FuncSig :=
  let d := idx.toInt - t.importedFuncs
  if d < 0 ∨ t.funcTypes.length ≤ d then .error (.err (.badIndex name))
  else
    match t.funcTypes[d.toNat]?.bind fun i => t.types[i.toNat]? with
    | none => .error .panic
    | some f => .ok f

/-- What follows the flags of a symbol: its name and its signature. -/
def symbolBody (t : Tables) (kind : UInt8) (flags : BitVec 64) : Read (Str × Option FuncSig) :=
  let named := definedFlags flags || flags &&& wide FlagExplicitName ≠ 0
  if kind = KindFunction then do
    let idx ← guarded W.layout uleb
    let name ← nameIf W named
    if definedFlags flags then
      let f ← t.signature idx name
      pure (name, some f)
    else pure (name, none)
  else if kind = KindData then do
    let name ← name W
    if definedFlags flags then
      let _ ← uleb
      let _ ← uleb
      let _ ← uleb
      pure (name, none)
    else pure (name, none)
  else if kind = KindGlobal ∨ kind = KindTag ∨ kind = KindTable then do
    let _ ← uleb
    let name ← nameIf W named
    pure (name, none)
  else if kind = KindSection then do
    let _ ← uleb
    pure ([], none)
  else throw (.err (.unknownKind kind))

/-- A symbol, after its kind. The first byte of its flags is not watched. -/
def symbolRest (t : Tables) (kind : UInt8) : Read Tables := do
  let r ← get
  let flags ← guarded (W.layout.erase r.offset) uleb
  let (name, func) ← symbolBody W t kind flags
  pure { t with syms := t.syms ++ [⟨kind, flags, r.offset, name, func⟩] }

/-- An entry of the symbol table. -/
def symbolEntry (t : Tables) : Read Tables := do
  let kind ← guarded W.layout byte
  symbolRest W t kind

/-- `for range n` over entries, after their number -/
def entries (entry : Tables → Read Tables) (t : Tables) : Read Tables := do
  let n ← guarded W.layout uleb
  times entry n.toNat t

/-- The id of the symbol table. -/
def linkingSymTable : UInt8 := 8

/-- A subsection of `linking`. -/
def subsection (t : Tables) : Read Tables := do
  let kind ← guarded W.layout byte
  let n ← guarded W.layout uleb
  sub n.toInt (if kind ≠ linkingSymTable then pure t else entries W (symbolEntry W) t)

/-- `for r.i < len(r.b)`; every turn reads a byte. -/
def loop (body : Tables → Read Tables) (t : Tables) : Read Tables := do
  let r ← get
  whileMore Reader.more .panic body (r.b.len - r.i + 1) t

/-- The id of custom sections. -/
def sectionCustom : UInt8 := 0
/-- The id of the types. -/
def sectionType : UInt8 := 1
/-- The id of the imports. -/
def sectionImport : UInt8 := 2
/-- The id of the functions. -/
def sectionFunction : UInt8 := 3

/-- The entries of a section, by its id. -/
def sectionBody (id : UInt8) (t : Tables) : Read Tables :=
  if id = sectionType then entries W (typeEntry W) t
  else if id = sectionImport then entries W (importEntry W) t
  else if id = sectionFunction then entries W (functionEntry W) t
  else if id = sectionCustom then do
    let name ← nameOver W W.layout
    if name ≠ ascii "linking" then pure t
    else
      let _ ← uleb -- version
      loop (subsection W) { t with found := true }
  else pure t

/-- A section. -/
def sectionEntry (t : Tables) : Read Tables := do
  let id ← guarded W.layout byte
  let size ← guarded W.layout uleb
  sub size.toInt (sectionBody W id t)

/-- `Symbols`, with the offsets of a `Watch`. -/
def symbolsWith (data : Slice UInt8) : Except Stop (List Symbol) := do
  let header := data.toList
  if data.len < 8 ∨ header.take 4 ≠ 0 :: ascii "asm" ∨ ofLE ((header.drop 4).take 4) ≠ 1 then
    .error (.err .notModule)
  else
    let (t, _) ← (loop (sectionEntry W) ⟨[], 0, [], [], false⟩).run ⟨data, 8, 0⟩
    if t.found then .ok t.syms else .error (.err .noLinking)

end Parser

/-- `Symbols` -/
def symbols (data : Slice UInt8) : Except Stop (List Symbol) := symbolsWith .none data

/-! ### The loops -/

section Loops

variable {α β : Type} {r r' : Reader}

theorem run_byte {c : UInt8} :
    byte.run r = .ok (c, r') ↔ r.b.toList[r.i]? = some c ∧ r' = { r with i := r.i + 1 } := by
  show byte r = _ ↔ _
  unfold byte
  cases h : r.b.toList[r.i]? with
  | none => exact ⟨nofun, fun h => nomatch h.1⟩
  | some d =>
    dsimp only
    rw [Except.ok.injEq, Prod.mk.injEq, Option.some_inj]
    exact and_congr_right' eq_comm

theorem run_uleb (r : Reader) : uleb.run r = (ulebFrom (r.b.len - r.i) 0 0).run r := by
  rw [uleb, StateT.run_bind]
  rfl

theorem guarded_empty (p : Read α) : guarded ∅ p = p := by
  funext r
  show (p.run r >>= fun y => if ∀ k ∈ (∅ : Finset ℕ), k < r.offset ∨ y.2.offset ≤ k then
    .ok (y.1, y.2) else .error .panic) = p.run r
  cases p.run r with
  | error e => rfl
  | ok y => simp [bind, Except.bind]

theorem run_guarded {P : Finset ℕ} {p : Read α} {x : α} :
    (guarded P p).run r = .ok (x, r') ↔
      p.run r = .ok (x, r') ∧ ∀ k ∈ P, k < r.offset ∨ r'.offset ≤ k := by
  show (p.run r >>= fun y => if ∀ k ∈ P, k < r.offset ∨ y.2.offset ≤ k then
    .ok (y.1, y.2) else .error .panic) = _ ↔ _
  rw [bind_eq_ok]
  constructor
  · rintro ⟨y, hy, h⟩
    split_ifs at h with hP
    cases h
    exact ⟨hy, hP⟩
  · rintro ⟨hy, hP⟩
    exact ⟨_, hy, if_pos hP⟩

/-- An action that reads on from where its reader is. -/
def Forward (p : Read α) : Prop :=
  ∀ r x r', p.run r = .ok (x, r') → r'.b = r.b ∧ r'.base = r.base ∧ r.i ≤ r'.i

theorem Forward.bind {p : Read α} {f : α → Read β} (h : Forward p) (hf : ∀ x, Forward (f x)) :
    Forward (p >>= f) := by
  intro r y r' hr
  rw [StateT.run_bind, bind_eq_ok] at hr
  obtain ⟨⟨x, r1⟩, h1, h2⟩ := hr
  obtain ⟨hb, hbase, hi⟩ := h r x r1 h1
  obtain ⟨hb', hbase', hi'⟩ := hf x r1 y r' h2
  exact ⟨hb'.trans hb, hbase'.trans hbase, hi.trans hi'⟩

theorem Forward.offset_le {p : Read α} (h : Forward p) {x : α} (hr : p.run r = .ok (x, r')) :
    r.offset ≤ r'.offset := by
  obtain ⟨-, hbase, hi⟩ := h r x r' hr
  rw [Reader.offset, Reader.offset, hbase]
  exact Nat.add_le_add_left hi _

theorem Forward.guarded {p : Read α} (h : Forward p) (P : Finset ℕ) : Forward (guarded P p) :=
  fun r x r' hr => h r x r' (run_guarded.mp hr).1

theorem forward_pure (x : α) : Forward (pure x : Read α) := by
  intro r y r' h
  cases h
  exact ⟨rfl, rfl, le_rfl⟩

theorem forward_byte : Forward byte := by
  intro r c r' h
  obtain ⟨-, rfl⟩ := run_byte.mp h
  exact ⟨rfl, rfl, Nat.le_succ _⟩

theorem forward_ulebFrom (k : ℕ) (v : BitVec 64) (shift : ℕ) : Forward (ulebFrom k v shift) := by
  induction k generalizing v shift with
  | zero => exact fun r x r' h => by cases h
  | succ k ih =>
    refine forward_byte.bind fun c => ?_
    dsimp only
    split_ifs
    · exact forward_pure _
    · exact ih _ _

theorem forward_uleb : Forward uleb := by
  intro r v r' h
  rw [run_uleb] at h
  exact forward_ulebFrom _ _ _ r v r' h

theorem run_cutAt {n : ℤ} {s : Slice UInt8} (h : (cutAt n).run r = .ok (s, r')) :
    ∃ hc : r.i + n.toNat ≤ r.b.cap, 0 ≤ n ∧ s = r.b.cut r.i n.toNat hc ∧
      r' = { r with i := r.i + n.toNat } := by
  change cutAt n r = _ at h
  unfold cutAt at h
  split_ifs at h with hn
  cases h
  exact ⟨hn.2, hn.1, rfl, rfl⟩

theorem forward_sub (n : ℤ) (p : Read α) : Forward (sub n p) := by
  intro r x r' h
  change sub n p r = _ at h
  unfold sub at h
  obtain ⟨⟨s, r1⟩, hs, h⟩ := bind_eq_ok.mp h
  obtain ⟨⟨x1, s1⟩, -, h⟩ := bind_eq_ok.mp h
  cases h
  obtain ⟨-, -, -, rfl⟩ := run_cutAt hs
  exact ⟨rfl, rfl, Nat.le_add_right _ _⟩

theorem lt_of_byte_bind {P : Finset ℕ} {f : UInt8 → Read α} (hf : ∀ c, Forward (f c)) {x : α}
    (hmore : r.more) (h : (guarded P byte >>= f).run r = .ok (x, r')) :
    r'.b.len - r'.i < r.b.len - r.i := by
  rw [StateT.run_bind, bind_eq_ok] at h
  obtain ⟨⟨c, r1⟩, h1, h2⟩ := h
  obtain ⟨-, rfl⟩ := run_byte.mp (run_guarded.mp h1).1
  obtain ⟨hb, -, hi⟩ := hf c _ x r' h2
  have hlt : r.i < r.b.len := of_decide_eq_true hmore
  rw [hb]
  dsimp only at hi ⊢
  omega

theorem run_loop_eq (body : Tables → Read Tables) (t : Tables) (r : Reader) :
    (loop body t).run r = (whileMore Reader.more .panic body (r.b.len - r.i + 1) t).run r := by
  rw [loop, StateT.run_bind]
  rfl

theorem run_loop {body : Tables → Read Tables}
    (hbody : ∀ t r t' r', Reader.more r → (body t).run r = .ok (t', r') →
      r'.b.len - r'.i < r.b.len - r.i) (t : Tables) (r : Reader) :
    (loop body t).run r =
      if r.more then (body t).run r >>= fun y => (loop body y.1).run y.2 else .ok (t, r) := by
  rw [run_loop_eq, run_whileMore_succ]
  split_ifs with hmore
  · cases hb : (body t).run r with
    | error e => rfl
    | ok y =>
      show _ = (loop body y.1).run y.2
      have hlt := hbody t r y.1 y.2 hmore hb
      rw [run_loop_eq]
      exact run_whileMore (μ := fun r => r.b.len - r.i) hbody (by omega) (Nat.lt_succ_self _)
  · rfl

/-- **The loop over the subsections** of a `linking` section. -/
theorem subsections_eq (W : Watch) (t : Tables) (r : Reader) :
    (loop (subsection W) t).run r =
      if r.more then (subsection W t).run r >>= fun y => (loop (subsection W) y.1).run y.2
      else .ok (t, r) := by
  refine run_loop (fun t r t' r' hmore h => lt_of_byte_bind (fun kind => ?_) hmore h) t r
  exact (forward_uleb.guarded _).bind fun n => forward_sub _ _

/-- **The loop over the sections** of a file. -/
theorem sections_eq (W : Watch) (t : Tables) (r : Reader) :
    (loop (sectionEntry W) t).run r =
      if r.more then (sectionEntry W t).run r >>= fun y => (loop (sectionEntry W) y.1).run y.2
      else .ok (t, r) := by
  refine run_loop (fun t r t' r' hmore h => lt_of_byte_bind (fun id => ?_) hmore h) t r
  exact (forward_uleb.guarded _).bind fun n => forward_sub _ _

end Loops

end PgZero.Wasm
