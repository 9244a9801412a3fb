import PgZero.Abi
import PgZero.Lib.Bytes
import PgZero.Vmem.Memory
import Mathlib.Data.List.TakeWhile
import Mathlib.Data.Vector.Basic

/-!
# Socket addresses in guest memory

`decodeSockaddr` reads an address from bytes of the guest, `encode` renders one in the guest's
layout, and `writeSockaddr` stores it in a buffer of the guest, cut to the room there is.

* **`decode_encode`**: the two are inverse on what is accepted, and the encoding has the bytes that
  were read.
* **`writeSockaddr_stores`**: what reaches the buffer and the length word.
-/

set_option autoImplicit false

namespace PgZero.Kernel

open Lib List ByteMem

/-- The family of IPv4. -/
def AF_INET : ℕ := 1
/-- The family of IPv6. -/
def AF_INET6 : ℕ := 2
/-- The family of Unix sockets. -/
def AF_UNIX : ℕ := 3

/-- The size of a `sockaddr_in`. -/
def SizeofSockaddrIn : ℕ := 16
/-- The size of a `sockaddr_in6`. -/
def SizeofSockaddrIn6 : ℕ := 32

/-! ### Addresses -/

/-- `netip.Addr`, without zones. -/
inductive NetipAddr
  | zero
  | v4 (b : List.Vector UInt8 4)
  | v6 (b : List.Vector UInt8 16)
  deriving DecidableEq

namespace NetipAddr

/-- What the 16 bytes of an IPv4-mapped address start with. -/
def v4InV6 : List.Vector UInt8 12 := ⟨[0, 0, 0, 0, 0, 0, 0, 0, 0, 0, 255, 255], rfl⟩

/-- `netip.Addr.Unmap`. -/
def unmap : NetipAddr → NetipAddr
  | .v6 b => if b.take 12 = v4InV6 then .v4 (b.drop 12) else .v6 b
  | a => a

/-- `As4`, unless it panics. -/
def as4 : NetipAddr → Option (List.Vector UInt8 4)
  | .zero => none
  | .v4 b => some b
  | .v6 b => if b.take 12 = v4InV6 then some (b.drop 12) else none

/-- `netip.Addr.As16`. -/
def as16 : NetipAddr → List.Vector UInt8 16
  | .zero => List.Vector.replicate 16 0
  | .v4 b => v4InV6 ++ b
  | .v6 b => b

end NetipAddr

/-- `netip.AddrPort`. -/
structure AddrPort where
  addr : NetipAddr
  port : UInt16
  deriving DecidableEq

/-- `sockaddr`: `ap` for the internet families, `path` for `AF_UNIX`. -/
structure Sockaddr where
  family : ℕ
  ap : AddrPort
  path : List UInt8
  deriving DecidableEq

/-- The `n` bytes at `off` of a buffer that has them. -/
def bytesAt (b : List UInt8) (off n : ℕ) (h : off + n ≤ b.length) : List.Vector UInt8 n :=
  ⟨(b.drop off).take n, by rw [length_take, length_drop]; omega⟩

/-- `decodeSockaddr`: the address in the guest's bytes. -/
def decodeSockaddr (b : List UInt8) : Except Errno Sockaddr :=
  if b.length < 2 then .error .EINVAL
  else
    let family := ofLE (b.take 2)
    let port := UInt16.ofNat (ofBE ((b.drop 2).take 2))
    if family = AF_INET then
      if h : b.length < SizeofSockaddrIn then .error .EINVAL
      else .ok ⟨family, ⟨.v4 (bytesAt b 4 4 (by unfold SizeofSockaddrIn at h; omega)), port⟩, []⟩
    else if family = AF_INET6 then
      if h : b.length < 28 then .error .EINVAL
      else .ok ⟨family, ⟨.v6 (bytesAt b 8 16 (by omega)), port⟩, []⟩
    else if family = AF_UNIX then
      let p := (b.drop 2).takeWhile (· ≠ 0)
      if p = [] then .error .EINVAL else .ok ⟨family, ⟨.zero, 0⟩, p⟩
    else .error .EAFNOSUPPORT

/-- `encode`, unless `As4` panics. -/
def Sockaddr.encode (a : Sockaddr) : Option (List UInt8) :=
  let port := toBE 2 a.ap.port.toNat
  if a.family = AF_INET then
    a.ap.addr.unmap.as4.map fun ip =>
      toLE 2 AF_INET ++ (port ++ (ip.toList ++ List.replicate (SizeofSockaddrIn - 8) 0))
  else if a.family = AF_INET6 then
    some (toLE 2 AF_INET6 ++
      (port ++ (List.replicate 4 0 ++
        (a.ap.addr.as16.toList ++ List.replicate (SizeofSockaddrIn6 - 24) 0))))
  else some (toLE 2 AF_UNIX ++ (a.path ++ [0]))

/-! ### Decoding and encoding -/

/-- The bytes of `e` and `b` that hold the address `a` are the same. -/
def Sockaddr.SameBytes (a : Sockaddr) (b e : List UInt8) : Prop :=
  if a.family = AF_INET then e.take 8 = b.take 8
  else if a.family = AF_INET6 then
    e.take 4 = b.take 4 ∧ (e.drop 8).take 16 = (b.drop 8).take 16
  else
    -- up to the terminating NUL, or the end of `b`
    e.take (2 + a.path.length) = b.take (2 + a.path.length) ∧
      ((b.drop (2 + a.path.length)).head? = some 0 ∨ b.length = 2 + a.path.length)

theorem portBytes (port : UInt16) (r : List UInt8) :
    UInt16.ofNat (ofBE ((toBE 2 port.toNat ++ r).take 2)) = port := by
  rw [take_left' (length_toBE _ _), ofBE_toBE port.toNat_lt, UInt16.ofNat_toNat]

theorem bytesAt_append {off n : ℕ} (l r : List UInt8) (v : List.Vector UInt8 n)
    (hl : l.length = off) (h : off + n ≤ (l ++ (v.toList ++ r)).length) :
    bytesAt (l ++ (v.toList ++ r)) off n h = v := by
  apply Subtype.ext
  show ((l ++ (v.toList ++ r)).drop off).take n = v.toList
  rw [drop_left' hl, take_left' v.toList_length]

theorem decode_inet (ip : List.Vector UInt8 4) (port : UInt16) :
    decodeSockaddr (toLE 2 AF_INET ++ (toBE 2 port.toNat ++ (ip.toList ++ List.replicate 8 0))) =
      .ok ⟨AF_INET, ⟨.v4 ip, port⟩, []⟩ := by
  have hF : ofLE (toLE 2 AF_INET) = AF_INET := by decide
  have hip := @bytesAt_append 4 4 (toLE 2 AF_INET ++ toBE 2 port.toNat) (List.replicate 8 0) ip
    (by simp) (by simp)
  simp only [append_assoc] at hip
  simp only [decodeSockaddr, take_left' (length_toLE 2 _), drop_left' (length_toLE 2 _),
    portBytes, hF]
  rw [if_neg (by simp), if_pos trivial, dif_neg (by simp [SizeofSockaddrIn]), hip]

theorem decode_inet6 (ip : List.Vector UInt8 16) (port : UInt16) :
    decodeSockaddr (toLE 2 AF_INET6 ++ (toBE 2 port.toNat ++
      (List.replicate 4 0 ++ (ip.toList ++ List.replicate 8 0)))) =
      .ok ⟨AF_INET6, ⟨.v6 ip, port⟩, []⟩ := by
  have hF : ofLE (toLE 2 AF_INET6) = AF_INET6 := by decide
  have hip := @bytesAt_append 8 16 (toLE 2 AF_INET6 ++ (toBE 2 port.toNat ++ List.replicate 4 0))
    (List.replicate 8 0) ip (by simp) (by simp)
  simp only [append_assoc] at hip
  simp only [decodeSockaddr, take_left' (length_toLE 2 _), drop_left' (length_toLE 2 _),
    portBytes, hF]
  rw [if_neg (by simp), if_neg (by decide), if_pos trivial, dif_neg (by simp), hip]

theorem decode_unix {path : List UInt8} (h : ∀ c ∈ path, c ≠ 0) (hne : path ≠ []) :
    decodeSockaddr (toLE 2 AF_UNIX ++ (path ++ [0])) = .ok ⟨AF_UNIX, ⟨.zero, 0⟩, path⟩ := by
  have hF : ofLE (toLE 2 AF_UNIX) = AF_UNIX := by decide
  have hp : (path ++ [0]).takeWhile (· ≠ 0) = path := by
    rw [takeWhile_append_of_pos (by simpa using h)]
    simp
  simp only [decodeSockaddr, take_left' (length_toLE 2 _), drop_left' (length_toLE 2 _),
    hF, hp]
  rw [if_neg (by simp; omega), if_neg (by decide), if_neg (by decide), if_pos trivial, if_neg hne]

/-! ### The bytes of an accepted buffer -/

section Accepted

variable {b : List UInt8}

theorem port_spelled (h : 4 ≤ b.length) :
    toBE 2 (UInt16.ofNat (ofBE ((b.drop 2).take 2))).toNat = (b.drop 2).take 2 := by
  have hl : ((b.drop 2).take 2).length = 2 := by simp; omega
  have hlt := ofBE_lt ((b.drop 2).take 2)
  rw [hl] at hlt
  rw [UInt16.toNat_ofNat', Nat.mod_eq_of_lt (show _ < 2 ^ 16 from hlt), toBE_ofBE hl]

theorem family_spelled {f : ℕ} (hf : ofLE (b.take 2) = f) (h : 2 ≤ b.length) :
    toLE 2 f = b.take 2 := by
  rw [← hf, toLE_ofLE (by simpa using h)]

/-- The path that is read is the start of what follows the family, up to a NUL or the end. -/
theorem path_spelled (h : 2 ≤ b.length) :
    let path := (b.drop 2).takeWhile (· ≠ 0)
    b.take (2 + path.length) = b.take 2 ++ path ∧
      ((b.drop (2 + path.length)).head? = some 0 ∨ b.length = 2 + path.length) := by
  intro path
  have hsplit : path ++ (b.drop 2).dropWhile (· ≠ 0) = b.drop 2 := takeWhile_append_dropWhile
  have hpre : path = (b.drop 2).take path.length :=
    prefix_iff_eq_take.mp ( takeWhile_prefix _)
  have hrest : b.drop (2 + path.length) = (b.drop 2).dropWhile (· ≠ 0) := by
    rw [← drop_drop]
    exact (congrArg (List.drop path.length) hsplit.symm).trans (drop_left ..)
  refine ⟨by rw [take_add, ← hpre], ?_⟩
  have hhead := List.head?_dropWhile_not (· ≠ (0 : UInt8)) (b.drop 2)
  rw [hrest]
  cases hd : (b.drop 2).dropWhile (· ≠ 0) with
  | nil =>
    right
    rw [hd, append_nil] at hsplit
    rw [hsplit, length_drop]
    omega
  | cons c t =>
    left
    rw [hd] at hhead
    simpa using hhead

/-- What `decodeSockaddr` accepts, family by family. -/
inductive Accepted (b : List UInt8) : Sockaddr → Prop
  | inet (hf : ofLE (b.take 2) = AF_INET) (hl : 16 ≤ b.length) :
      Accepted b ⟨AF_INET,
        ⟨.v4 (bytesAt b 4 4 (by omega)), UInt16.ofNat (ofBE ((b.drop 2).take 2))⟩, []⟩
  | inet6 (hf : ofLE (b.take 2) = AF_INET6) (hl : 28 ≤ b.length) :
      Accepted b ⟨AF_INET6,
        ⟨.v6 (bytesAt b 8 16 (by omega)), UInt16.ofNat (ofBE ((b.drop 2).take 2))⟩, []⟩
  | unix (hf : ofLE (b.take 2) = AF_UNIX) (hl : 2 ≤ b.length)
      (hne : (b.drop 2).takeWhile (· ≠ 0) ≠ []) :
      Accepted b ⟨AF_UNIX, ⟨.zero, 0⟩, (b.drop 2).takeWhile (· ≠ 0)⟩

theorem accepted_of_decode {a : Sockaddr} (h : decodeSockaddr b = .ok a) : Accepted b a := by
  unfold decodeSockaddr at h
  simp only [] at h
  split_ifs at h with h0 h1 h2 h3 h4 h5 h6
  · cases h
    rw [h1]
    exact .inet h1 (Nat.not_lt.mp h2)
  · cases h
    rw [h3]
    exact .inet6 h3 (Nat.not_lt.mp h4)
  · cases h
    rw [h5]
    exact .unix h5 (Nat.not_lt.mp h0) h6

/-- **Decoding and encoding.** An accepted address is encoded and read back as itself. -/
theorem decode_encode {a : Sockaddr} (h : decodeSockaddr b = .ok a) :
    ∃ e, a.encode = some e ∧ decodeSockaddr e = .ok a ∧ a.SameBytes b e := by
  cases accepted_of_decode h with
  | inet hf hl =>
    refine ⟨_, rfl, decode_inet _ _, ?_⟩
    have hb : b.take 8 = b.take 2 ++ ((b.drop 2).take 2 ++ (b.drop 4).take 4) := by
      rw [show 8 = 2 + (2 + 4) from rfl, take_add, take_add, drop_drop]
    have hlen : (b.take 8).length = 8 := by simp; omega
    rw [Sockaddr.SameBytes, if_pos rfl, family_spelled hf (by omega), port_spelled (by omega)]
    show (b.take 2 ++ ((b.drop 2).take 2 ++ ((b.drop 4).take 4 ++ List.replicate 8 0))).take 8 = _
    rw [← append_assoc ((b.drop 2).take 2), ← append_assoc (b.take 2), ← hb,
      take_left' hlen]
  | inet6 hf hl =>
    refine ⟨_, rfl, decode_inet6 _ _, ?_⟩
    have hb : b.take 4 = b.take 2 ++ (b.drop 2).take 2 := by
      rw [show 4 = 2 + 2 from rfl, take_add]
    have hlen : (b.take 4).length = 4 := by simp; omega
    rw [Sockaddr.SameBytes, if_neg (by simp [AF_INET, AF_INET6]), if_pos rfl,
      family_spelled hf (by omega), port_spelled (by omega), ← append_assoc, ← hb]
    refine ⟨take_left' hlen, ?_⟩
    rw [← append_assoc (b.take 4), drop_left' (by simp; omega)]
    exact take_left' (bytesAt b 8 16 (by omega)).toList_length
  | unix hf hl hne =>
    refine ⟨_, rfl, decode_unix (fun c hc => ?_) hne, ?_⟩
    · simpa using mem_takeWhile_imp hc
    · obtain ⟨htake, hend⟩ := path_spelled hl
      rw [Sockaddr.SameBytes, if_neg (by simp [AF_UNIX, AF_INET]),
        if_neg (by simp [AF_UNIX, AF_INET6])]
      refine ⟨?_, hend⟩
      rw [htake, family_spelled hf hl, ← append_assoc]
      exact take_left' (by simp; omega)

end Accepted

/-! ### Storing an address -/

/-- `readU32`: the number at `addr`; `.err` when it is out of range. -/
def readU32 (m : Vmem.Memory) (bytes : ByteMem) (addr : BitVec 32) : Except MemErr ℕ :=
  (m.slice addr 4).map fun b => ofLE (bytes.load b.addr b.len)

/-- `writeU32`. -/
def writeU32 (m : Vmem.Memory) (bytes : ByteMem) (addr : BitVec 32) (v : ℕ) :
    Except MemErr ByteMem :=
  (m.slice addr 4).map fun b => bytes.store b.addr (toLE 4 v)

/-- `writeSockaddr`: the memory after it and its result, unless it panics. -/
def writeSockaddr (m : Vmem.Memory) (bytes : ByteMem) (a : Sockaddr) (addr lenAddr : BitVec 32) :
    Option (ByteMem × ℤ) :=
  if addr = 0 ∨ lenAddr = 0 then some (bytes, 0)
  else
    match readU32 m bytes lenAddr with
    | .error .panic => none
    | .error .err => some (bytes, -Errno.EFAULT.code)
    | .ok room =>
      a.encode.bind fun enc =>
        let len := enc.length % 2 ^ 32
        match m.slice addr (BitVec.ofNat 32 (min len room)) with
        | .error .panic => none
        | .error .err => some (bytes, -Errno.EFAULT.code)
        | .ok b =>
          let bytes := bytes.store b.addr (enc.take b.len)
          match writeU32 m bytes lenAddr len with
          | .error .panic => none
          | .error .err => some (bytes, 0)
          | .ok bytes => some (bytes, 0)

section Stored

variable {m : Vmem.Memory} {bytes : ByteMem} {a : Sockaddr} {enc : List UInt8}
  {addr lenAddr : BitVec 32}

/-- **Storing an address.** Its encoding is cut to the room; the length word has its full length. -/
theorem writeSockaddr_stores (hm : m.Wf) (he : a.encode = some enc) (hlen : enc.length < 2 ^ 32)
    (h0 : addr ≠ 0) (h0' : lenAddr ≠ 0) {room : ℕ}
    (hroom : room = ofLE (bytes.load lenAddr.toNat 4))
    (hbuf : addr.toNat + room ≤ m.size.toNat) (hword : lenAddr.toNat + 4 ≤ m.size.toNat)
    (hdis : addr.toNat + room ≤ lenAddr.toNat ∨ lenAddr.toNat + 4 ≤ addr.toNat) :
    ∃ bytes', writeSockaddr m bytes a addr lenAddr = some (bytes', 0) ∧
      bytes'.load addr.toNat (min room enc.length) = enc.take (min room enc.length) ∧
      ofLE (bytes'.load lenAddr.toNat 4) = enc.length ∧
      ∀ x, (x < addr.toNat ∨ addr.toNat + min room enc.length ≤ x) →
        (x < lenAddr.toNat ∨ lenAddr.toNat + 4 ≤ x) → bytes' x = bytes x := by
  have hlt : room < 2 ^ 32 := by
    have h := ofLE_lt (bytes.load lenAddr.toNat 4)
    rw [length_load, ← hroom] at h
    exact h
  have hr : readU32 m bytes lenAddr = .ok room := by
    rw [readU32, hm.slice_ok (n := 4) hword, hroom]
    rfl
  generalize hn : min room enc.length = n
  have hcut : (enc.take n).length = n := by rw [length_take]; omega
  have hs : m.slice addr (BitVec.ofNat 32 (min (enc.length % 2 ^ 32) room)) =
      .ok ⟨addr.toNat, n⟩ := by
    have hval : (BitVec.ofNat 32 (min (enc.length % 2 ^ 32) room)).toNat = n := by
      rw [BitVec.toNat_ofNat, Nat.mod_eq_of_lt hlen]
      omega
    rw [hm.slice_ok (by omega), hval]
  have hw : ∀ bytes, writeU32 m bytes lenAddr (enc.length % 2 ^ 32) =
      .ok (bytes.store lenAddr.toNat (toLE 4 enc.length)) := fun bytes => by
    rw [writeU32, hm.slice_ok (n := 4) hword, Nat.mod_eq_of_lt hlen]
    rfl
  refine ⟨(bytes.store addr.toNat (enc.take n)).store lenAddr.toNat (toLE 4 enc.length), ?_, ?_, ?_,
    fun x h1 h2 => ?_⟩
  · simp only [writeSockaddr, hr, he, Option.bind_some, hs, hw]
    rw [if_neg (not_or.mpr ⟨h0, h0'⟩)]
  · -- the length word lies outside the buffer
    refine (load_congr fun x h1 h2 => ?_).trans (load_store bytes addr.toNat hcut)
    exact store_of_outside (by rw [length_toLE]; omega)
  · rw [load_store _ _ (length_toLE 4 _), ofLE_toLE hlen]
  · rw [store_of_outside (by rw [length_toLE]; exact h2),
      store_of_outside (by rw [hcut]; exact h1)]

end Stored

/-- **The socket address codec.** An accepted address is encoded with the bytes it was read from,
read back as itself, and cut to the room when it is stored. -/
theorem sockaddr_codec {b : List UInt8} {a : Sockaddr} (h : decodeSockaddr b = .ok a) :
    ∃ enc, a.encode = some enc ∧ decodeSockaddr enc = .ok a ∧ a.SameBytes b enc ∧
      ∀ (m : Vmem.Memory) (bytes : ByteMem) (addr lenAddr : BitVec 32) (room : ℕ),
        Vmem.vmemSystem.Reachable m → enc.length < 2 ^ 32 → addr ≠ 0 → lenAddr ≠ 0 →
        room = ofLE (bytes.load lenAddr.toNat 4) → addr.toNat + room ≤ m.size.toNat →
        lenAddr.toNat + 4 ≤ m.size.toNat →
        (addr.toNat + room ≤ lenAddr.toNat ∨ lenAddr.toNat + 4 ≤ addr.toNat) →
        ∃ bytes', writeSockaddr m bytes a addr lenAddr = some (bytes', 0) ∧
          bytes'.load addr.toNat (min room enc.length) = enc.take (min room enc.length) ∧
          ofLE (bytes'.load lenAddr.toNat 4) = enc.length ∧
          ∀ x, (x < addr.toNat ∨ addr.toNat + min room enc.length ≤ x) →
            (x < lenAddr.toNat ∨ lenAddr.toNat + 4 ≤ x) → bytes' x = bytes x := by
  obtain ⟨enc, he, hd, hb⟩ := decode_encode h
  refine ⟨enc, he, hd, hb, fun m bytes addr lenAddr room hm hlen h0 h0' hroom hbuf hword hdis => ?_⟩
  exact writeSockaddr_stores (.of_reachable hm) he hlen h0 h0' hroom hbuf hword hdis

/-- The path `/s` as an address, and a length word of 16 at address 64. -/
def pathAddr : Sockaddr := ⟨AF_UNIX, ⟨.zero, 0⟩, [47, 115]⟩

/-- A memory with the length 16 at address 64. -/
def sixteenAt64 : ByteMem := store (fun _ => 0) 64 (toLE 4 16)

theorem sockaddr_codec_path :
    decodeSockaddr [3, 0, 47, 115] = .ok pathAddr ∧
    ∃ bytes', writeSockaddr Vmem.onePage sixteenAt64 pathAddr 32 64 = some (bytes', 0) ∧
      bytes'.load 32 5 = [3, 0, 47, 115, 0] ∧ ofLE (bytes'.load 64 4) = 5 := by
  have h : decodeSockaddr [3, 0, 47, 115] = .ok pathAddr := by decide
  refine ⟨h, ?_⟩
  obtain ⟨enc, he, -, -, hw⟩ := sockaddr_codec h
  cases he
  obtain ⟨bytes', h1, h2, h3, -⟩ := hw Vmem.onePage sixteenAt64 32 64 16 Vmem.onePage_reachable
    (by decide) (by decide) (by decide) (by decide) (by decide) (by decide) (by decide)
  exact ⟨bytes', h1, h2, h3⟩

/-- Address zero lies in guest memory, but means that there is no buffer. -/
theorem writeSockaddr_null :
    decodeSockaddr [3, 0, 47, 115] = .ok pathAddr ∧ pathAddr.encode = some [3, 0, 47, 115, 0] ∧
    Vmem.vmemSystem.Reachable Vmem.onePage ∧
    ofLE (sixteenAt64.load 64 4) = 16 ∧ 64 + 4 ≤ Vmem.onePage.size.toNat ∧ 0 + 16 ≤ 64 ∧
    ∃ bytes', writeSockaddr Vmem.onePage sixteenAt64 pathAddr 0 64 = some (bytes', 0) ∧
      bytes'.load 0 5 = [0, 0, 0, 0, 0] ∧ ofLE (bytes'.load 64 4) = 16 :=
  ⟨by decide, by decide, Vmem.onePage_reachable, by decide, by decide, by decide, _, rfl, by decide,
    by decide⟩

end PgZero.Kernel
