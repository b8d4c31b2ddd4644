import SysvDev.Transition
import SysvDev.Regexp.Opcode
import SysvDev.Regexp.Advance
import SysvDev.Regexp.Program
import SysvDev.Regexp.Split
import SysvDev.Regexp.Scan
import SysvDev.Regexp.Dispatch
import SysvDev.Regexp.Match
import SysvDev.Regexp.Forward
import SysvDev.Regexp.Termination
import SysvDev.Regexp.Compile
import SysvDev.Regexp.Inversion
import SysvDev.Regexp.Halt
import SysvDev.Regexp.Room
import SysvDev.Regexp.Reads
import SysvDev.Regexp.Image
import SysvDev.Regexp.Contents
import SysvDev.Regexp.Decodes
import SysvDev.Regexp.Groups
import SysvDev.X86.Machine
import SysvDev.X86.Run
import SysvDev.Division.Text
import SysvDev.LongDivision
import SysvDev.Division.UDivRem
import SysvDev.Division.UDiv
import SysvDev.Division.Unsigned
import SysvDev.Division.SDiv
import SysvDev.Division.SRem
import SysvDev.Division.SDivRem
import SysvDev.Division.Signed
import SysvDev.Crc32.Table
import SysvDev.Crc32.Errors
import SysvDev.Interleaving
import SysvDev.Nca.Lock
import SysvDev.Nca.Invariant
import SysvDev.Nca.Wakeup
import SysvDev.Nca.Crowd
import SysvDev.Nca.Exclusion
import SysvDev.X86.Strings
import SysvDev.Copy.Ovbcopy
import SysvDev.Checksum.Reference
import SysvDev.Checksum.OcSum
import SysvDev.Inevitable
import SysvDev.X86.Traps
import SysvDev.Copy.Text
import SysvDev.Copy.Call
import SysvDev.Copy.Amd64.Core
import SysvDev.Copy.Amd64.Routines
import SysvDev.Copy.I386.Core
import SysvDev.Copy.I386.Routines
import SysvDev.Copy.NonTemporal
import SysvDev.Copy.Errno
import SysvDev.Copy.Confinement
import SysvDev.CExpr
import SysvDev.ByteOrder.Macros
import SysvDev.ByteOrder.Routines
import SysvDev.Xdr.Inline
import SysvDev.Sctp.ChunkSent
import SysvDev.Regexp.Atoms
import SysvDev.Regexp.Counts
import SysvDev.Regexp.Classes
import SysvDev.Regexp.Intervals
import SysvDev.Regexp.Signedness
import SysvDev.Swtch.Resume
import SysvDev.RwLock.Holders
import SysvDev.Swtch.OneCpu
import SysvDev.Mutex.Owner
import SysvDev.Files.UfEnter
import SysvDev.Cis.Inside
import SysvDev.Nca.Extents
import SysvDev.Nca.Overhang
import SysvDev.Regexp.Leftmost
import SysvDev.Hres.Text
import SysvDev.Hres.Tick
import SysvDev.Hres.Conservation
import SysvDev.Subr.Strlen
import SysvDev.Subr.Bcmp
import SysvDev.Subr.Spl
import SysvDev.Copy.Equivalence
import SysvDev.Monitor
import SysvDev.Ptms.PtLock
import SysvDev.Ipp.ConfigLock
import SysvDev.Rounding
import SysvDev.Sctp.Accounting
import SysvDev.Ufs.Blocks
import SysvDev.Cis.Spaces
import SysvDev.Subr.SplAmd64
import SysvDev.Subr.SplI386
import SysvDev.Subr.SplAlgebra
import SysvDev.LockPrim.Amd64
import SysvDev.LockPrim.I386
import SysvDev.LockPrim.Byte
import SysvDev.LockPrim.SpinLocks
import SysvDev.X86.Trace
import SysvDev.Modstubs.Amd64
import SysvDev.Modstubs.I386
import SysvDev.Modstubs.Transparent
import SysvDev.FpuProbe.Owns
import SysvDev.FpuProbe.Amd64
import SysvDev.FpuProbe.I386
import SysvDev.FpuProbe.Probe
import SysvDev.Avl.Node
import SysvDev.Sysmacros.P2
import SysvDev.Sysmacros.Devices
import SysvDev.Pcfs.NodeId
import SysvDev.Subr.Mul64
import SysvDev.Hres.Lock
import SysvDev.Rpc.CallTable
import SysvDev.Subr.Queue
import SysvDev.Copy.Copystr
import SysvDev.Regexp.Grammar
import SysvDev.Subr.OnFault
