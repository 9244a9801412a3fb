import PgZero.Lib.System
import PgZero.Lib.Word
import PgZero.Lib.Table
import PgZero.Lib.Climb
import PgZero.Lib.Slice
import PgZero.Lib.GoPath
import PgZero.Lib.PathNames
import PgZero.Lib.HostFs
import PgZero.Lib.Bytes
import PgZero.Lib.Registry
import PgZero.Lib.Loop
import PgZero.Lib.Ascii
import PgZero.Lib.ConnInfo
import PgZero.Lib.Copy
import PgZero.Lib.Tape
import PgZero.Lib.Numeral
import PgZero.Lib.GoText
import PgZero.Lib.CConst
import PgZero.Abi
import PgZero.Kernel.Notify
import PgZero.Kernel.Pipe
import PgZero.Kernel.Sema
import PgZero.Kernel.FdTable
import PgZero.Kernel.FdRefs
import PgZero.Kernel.Shm
import PgZero.Kernel.FdKinds
import PgZero.Kernel.ShmTable
import PgZero.Kernel.ShmCount
import PgZero.Kernel.ShmAccount
import PgZero.Kernel.ShmWrap
import PgZero.Kernel.ShmMoves
import PgZero.Kernel.ShmNames
import PgZero.Kernel.ShmIds
import PgZero.Kernel.Signal
import PgZero.Kernel.Delivery
import PgZero.Guest.Dispatch
import PgZero.Guest.Nesting
import PgZero.Kernel.PipeIo
import PgZero.Kernel.Wakeup
import PgZero.Kernel.Pid
import PgZero.Kernel.PidOwner
import PgZero.Kernel.PidAlloc
import PgZero.Kernel.Kill
import PgZero.Kernel.Socket
import PgZero.Kernel.SocketStream
import PgZero.Kernel.Alarm
import PgZero.Kernel.Connect
import PgZero.Kernel.ProcHistory
import PgZero.Kernel.SocketClose
import PgZero.Kernel.Accept
import PgZero.Kernel.Accepted
import PgZero.Kernel.Readiness
import PgZero.Kernel.ReadAhead
import PgZero.Kernel.HalfClose
import PgZero.Kernel.UnixSock
import PgZero.Kernel.UnixRegistry
import PgZero.Kernel.Mounts
import PgZero.Guest.Realpath
import PgZero.Guest.VectorIo
import PgZero.Guest.HostCalls
import PgZero.Guest.Readv
import PgZero.Guest.Writev
import PgZero.Guest.Shell
import PgZero.Guest.ShellRead
import PgZero.Guest.ShellWords
import PgZero.Lib.Borrow
import PgZero.Guest.ShellSpawn
import PgZero.Guest.ShellRedirect
import PgZero.Guest.Semaphore
import PgZero.Kernel.AddrCodec
import PgZero.Kernel.GuestStrings
import PgZero.Vmem.Memory
import PgZero.Kernel.PollMemory
import PgZero.Kernel.Custody
import PgZero.Kernel.Close
import PgZero.Kernel.Family
import PgZero.Kernel.Waitpid
import PgZero.Kernel.Reaping
import PgZero.Kernel.ReapLost
import PgZero.Memfs.Node
import PgZero.Memfs.Content
import PgZero.Memfs.Reference
import PgZero.Memfs.Namespace
import PgZero.Memfs.Follow
import PgZero.Memfs.World
import PgZero.Memfs.Tree
import PgZero.Memfs.Rename
import PgZero.Memfs.Calls
import PgZero.Memfs.Clone
import PgZero.Memfs.WorldTree
import PgZero.Memfs.Isomorph
import PgZero.Memfs.Owner
import PgZero.Memfs.Independent
import PgZero.Memfs.Append
import PgZero.Memfs.Unpack
import PgZero.Memfs.Effect
import PgZero.Memfs.Renamed
import PgZero.Memfs.Posix
import PgZero.Memfs.Offsets
import PgZero.Memfs.Change
import PgZero.Memfs.Removed
import PgZero.Memfs.Iterate
import PgZero.Mktar.Walk
import PgZero.Mktar.RoundTrip
import PgZero.Server.DataDir
import PgZero.Server.ConnString
import PgZero.Server.Osfs
import PgZero.Wasm.Object
import PgZero.Wasm.Mirror
import PgZero.Wasm.Localize
import PgZero.Genabi.Eval
import PgZero.Genabi.Operators
import PgZero.Genabi.Constants
