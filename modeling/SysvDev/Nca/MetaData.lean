import Mathlib.Data.Fintype.Card
import Mathlib.Logic.Function.Basic
import SysvDev.Word

namespace SysvDev.Nca.MetaData

open Function

/-- The fields of `nca_io2_t` that have an offset into the meta data area. -/
inductive Field
  | peer | localAddr | data | direct | trailer
  deriving DecidableEq

instance : Fintype Field := ⟨{.peer, .localAddr, .data, .direct, .trailer}, fun f => by cases f <;> decide⟩

def structSize : Nat := 88

/-- The lengths and offsets of a `nca_io2_t`, the bytes behind it by their offset
from its beginning, and `n_used`. -/
structure Io where
  len : Field → BitVec 32
  off : Field → BitVec 32
  nUsed : BitVec 32
  bytes : Nat → BitVec 8

/-- `(n_used + sizeof (uint32_t) - 1) & ~(sizeof (uint32_t) - 1)` -/
def wordAligned (nUsed : BitVec 32) : BitVec 32 := (nUsed + 4#32 - 1#32) &&& ~~~(4#32 - 1#32)

def bcopy (val : List (BitVec 8)) (dst : Nat) (bytes : Nat → BitVec 8) : Nat → BitVec 8 :=
  fun k => if dst ≤ k then val[k - dst]?.getD (bytes k) else bytes k

def vsize (val : List (BitVec 8)) : BitVec 32 := BitVec.ofNat 32 val.length

/-- `NCA_IO_WDATA` with data. -/
def ncaIoWdata (val : List (BitVec 8)) (f : Field) (io : Io) : Io where
  len := update io.len f (vsize val)
  off := update io.off f (wordAligned io.nUsed)
  bytes := bcopy val (wordAligned io.nUsed).toNat io.bytes
  nUsed := wordAligned io.nUsed + vsize val

/-- `NCA_IO_WDATA` with `NULL`, for a `vsize` of -1 or 0. -/
def ncaIoWdataNull (append : Bool) (f : Field) (io : Io) : Io :=
  { io with len := update io.len f (if append then -1#32 else 0#32), off := update io.off f 0#32 }

/-- `NCA_IO_ADATA` gives a field that has none yet its offset. -/
def opened (f : Field) (io : Io) : Io :=
  if io.len f = -1#32 then
    { io with len := update io.len f 0#32, off := update io.off f (wordAligned io.nUsed) }
  else io

/-- `NCA_IO_ADATA` -/
def ncaIoAdata (val : List (BitVec 8)) (f : Field) (io : Io) : Io :=
  let p := opened f io
  { p with
    bytes := bcopy val ((p.off f).toNat + (p.len f).toNat) p.bytes
    len := update p.len f (p.len f + vsize val)
    nUsed := p.nUsed + vsize val }

/-- `NCA_IO_PDATA` -/
def ncaIoPdata (f : Field) (io : Io) : Nat := (io.off f).toNat

inductive Op
  | wdata (f : Field) (val : List (BitVec 8))
  | wdataNull (f : Field) (append : Bool)
  | adata (f : Field) (val : List (BitVec 8))

def Op.step : Op → Io → Io
  | wdata f val => ncaIoWdata val f
  | wdataNull f append => ncaIoWdataNull append f
  | adata f val => ncaIoAdata val f

def run (ops : List Op) (io : Io) : Io := ops.foldl (fun io op => op.step io) io

end SysvDev.Nca.MetaData
