import Mathlib.Data.BitVec

namespace SysvDev.Cis.Readers

variable {w : Nat}

def amSpace : BitVec 32 := 0x10000000#32

def memErr : BitVec 32 := 0x80000000#32

/-- `cistpl_t`; the members of the union `read` are one pointer. -/
structure Cistpl (w : Nat) where
  len : BitVec 8
  data : BitVec w
  read : BitVec w
  flags : BitVec 32
  deriving DecidableEq

/-- A tuple and the addresses that were read through it. -/
structure Cursor (w : Nat) where
  tp : Cistpl w
  touched : List (BitVec w)
  deriving DecidableEq

def isAm (flags : BitVec 32) : Bool := flags &&& amSpace != 0#32

/-- `*(tp)->read.byte++`, and the same with `read.sword` for a stride of two. -/
def next (mem : BitVec w → BitVec 8) (stride : Nat) (c : Cursor w) : BitVec 32 × Cursor w :=
  ((mem c.tp.read).setWidth 32,
    ⟨{ c.tp with read := c.tp.read + BitVec.ofNat w stride }, c.touched ++ [c.tp.read]⟩)

def fail (c : Cursor w) : BitVec 32 × Cursor w :=
  (c.tp.flags ||| memErr, { c with tp := { c.tp with flags := c.tp.flags ||| memErr } })

/-- The operands of `|` from left to right, as the values need it. -/
def both (f g : Cursor w → BitVec 32 × Cursor w) (join : BitVec 32 → BitVec 32 → BitVec 32) (c : Cursor w) :
    BitVec 32 × Cursor w :=
  let a := f c
  let b := g a.2
  (join a.1 b.1, b.2)

section Common

variable (mem : BitVec w → BitVec 8)

def getCmByte (c : Cursor w) : BitVec 32 × Cursor w :=
  if c.tp.read - c.tp.data ≤ c.tp.len.setWidth w then next mem 1 c else fail c

def getCmPair (join : BitVec 32 → BitVec 32 → BitVec 32) (c : Cursor w) : BitVec 32 × Cursor w :=
  if c.tp.read - c.tp.data + 1#w ≤ c.tp.len.setWidth w then both (next mem 1) (next mem 1) join c else fail c

def getCmShort : Cursor w → BitVec 32 × Cursor w := getCmPair mem fun a b => a ||| b <<< 8

def getCmBeShort : Cursor w → BitVec 32 × Cursor w := getCmPair mem fun a b => a <<< 8 ||| b

def getCmInt24 : Cursor w → BitVec 32 × Cursor w := both (getCmShort mem) (getCmByte mem) fun a b => a ||| b <<< 16

def getCmLong : Cursor w → BitVec 32 × Cursor w := both (getCmShort mem) (getCmShort mem) fun a b => a ||| b <<< 16

end Common

def getCmLen (tp : Cistpl w) : BitVec w := tp.len.setWidth w - (tp.read - tp.data)

section Attribute

variable (mem : BitVec w → BitVec 8)

def getAmByte (c : Cursor w) : BitVec 32 × Cursor w :=
  if (c.tp.read - c.tp.data) >>> 1 ≤ c.tp.len.setWidth w then next mem 2 c else fail c

def getAmShort : Cursor w → BitVec 32 × Cursor w := both (getAmByte mem) (getAmByte mem) fun a b => a ||| b <<< 8

def getAmBeShort : Cursor w → BitVec 32 × Cursor w := both (getAmByte mem) (getAmByte mem) fun a b => a <<< 8 ||| b

def getAmInt24 : Cursor w → BitVec 32 × Cursor w := both (getAmShort mem) (getAmByte mem) fun a b => a ||| b <<< 16

def getAmLong : Cursor w → BitVec 32 × Cursor w := both (getAmShort mem) (getAmShort mem) fun a b => a ||| b <<< 16

end Attribute

def getAmLen (tp : Cistpl w) : BitVec w := tp.len.setWidth w - (tp.read - tp.data) >>> 1

section Generic

variable (mem : BitVec w → BitVec 8)

def inSpace (am cm : Cursor w → BitVec 32 × Cursor w) (c : Cursor w) : BitVec 32 × Cursor w :=
  if isAm c.tp.flags then am c else cm c

def getByte : Cursor w → BitVec 32 × Cursor w := inSpace (getAmByte mem) (getCmByte mem)

def getShort : Cursor w → BitVec 32 × Cursor w := inSpace (getAmShort mem) (getCmShort mem)

def getBeShort : Cursor w → BitVec 32 × Cursor w := inSpace (getAmBeShort mem) (getCmBeShort mem)

def getInt24 : Cursor w → BitVec 32 × Cursor w := inSpace (getAmInt24 mem) (getCmInt24 mem)

def getLong : Cursor w → BitVec 32 × Cursor w := inSpace (getAmLong mem) (getCmLong mem)

end Generic

def getLen (tp : Cistpl w) : BitVec w := if isAm tp.flags then getAmLen tp else getCmLen tp

inductive Get
  | byte | short | beShort | int24 | long
  deriving DecidableEq

def Get.bytes : Get → Nat
  | byte => 1
  | short | beShort => 2
  | int24 => 3
  | long => 4

def Get.run (mem : BitVec w → BitVec 8) : Get → Cursor w → BitVec 32 × Cursor w
  | byte => getByte mem
  | short => getShort mem
  | beShort => getBeShort mem
  | int24 => getInt24 mem
  | long => getLong mem

def after (mem : BitVec w → BitVec 8) (tp : Cistpl w) (gets : List Get) : Cursor w :=
  gets.foldl (fun c get => (get.run mem c).2) ⟨tp, []⟩

end SysvDev.Cis.Readers
