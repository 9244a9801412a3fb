import PgZero.Lib.GoPath

/-!
# Strings of C

Strings of bytes without a zero byte, and the classes of `ctype.h`.
-/

set_option autoImplicit false

namespace Lib

/-- A string of C, without the byte that ends it. -/
structure CString where
  bytes : Str
  nul : 0 ∉ bytes

/-- The bytes of an ASCII string. -/
def ascii (s : String) : Str := s.toList.map fun c => UInt8.ofNat c.toNat

/-- `isspace` -/
def isSpace (b : UInt8) : Bool := b = 32 || (9 ≤ b && b ≤ 13)

/-- `isdigit` -/
def isDigit (b : UInt8) : Bool := 48 ≤ b && b ≤ 57

/-- A single quote. -/
def quote : UInt8 := 39

/-- A double quote. -/
def dquote : UInt8 := 34

/-- A backslash. -/
def backslash : UInt8 := 92

end Lib
