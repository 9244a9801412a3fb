import Mathlib.Data.BitVec
import Mathlib.Tactic

/-!
# The constants shared with the guest

The errno values, poll events and limits of the host interface. Results cross it as `s32`: a value
`≥ 0`, or a negated errno.
-/

set_option autoImplicit false

namespace PgZero

/-- The errno values the kernel returns. -/
inductive Errno
  | EACCES | EADDRINUSE | EADDRNOTAVAIL | EAFNOSUPPORT | EAGAIN | EBADF | ECHILD | ECONNREFUSED
  | ECONNRESET | EEXIST | EFAULT | EHOSTUNREACH | EINTR | EINVAL | EIO | EISCONN | ENETUNREACH
  | ENOENT | ENOMEM | ENOTCONN | EPIPE | ETIMEDOUT
  deriving DecidableEq, Repr

/-- The number of an errno. -/
def Errno.code : Errno → ℤ
  | .EACCES => 2
  | .EADDRINUSE => 3
  | .EADDRNOTAVAIL => 4
  | .EAFNOSUPPORT => 5
  | .EAGAIN => 6
  | .EBADF => 8
  | .ECHILD => 12
  | .ECONNREFUSED => 14
  | .ECONNRESET => 15
  | .EEXIST => 20
  | .EFAULT => 21
  | .EHOSTUNREACH => 23
  | .EINTR => 27
  | .EINVAL => 28
  | Errno.EIO => 29
  | .EISCONN => 30
  | .ENETUNREACH => 40
  | .ENOENT => 44
  | .ENOMEM => 48
  | .ENOTCONN => 53
  | .EPIPE => 64
  | .ETIMEDOUT => 73

/-- Poll events and results. -/
abbrev Events := BitVec 16

/-- There is input. -/
def POLLIN : Events := 1
/-- There is room. -/
def POLLOUT : Events := 2
/-- There is an error. -/
def POLLERR : Events := 4096
/-- The other side is gone. -/
def POLLHUP : Events := 8192
/-- No open descriptor. -/
def POLLNVAL : Events := 16384

/-- How a socket is shut down. -/
def SHUT_WR : ℤ := 2
/-- Both sides. -/
def SHUT_RDWR : ℤ := 3

/-- Descriptors from here up belong to the host, as do `0`, `1` and `2`. -/
def FDBase : ℤ := 2 ^ 20

end PgZero
