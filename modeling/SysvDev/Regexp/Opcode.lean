import Mathlib.Data.Nat.Notation

namespace SysvDev.Regexp.Opcode

abbrev Byte := BitVec 8

@[simp] def cbra : Byte := 2#8
@[simp] def cchr : Byte := 4#8
@[simp] def cdot : Byte := 8#8
@[simp] def ccl : Byte := 12#8
@[simp] def cxcl : Byte := 16#8
@[simp] def cdol : Byte := 20#8
@[simp] def cceof : Byte := 22#8
@[simp] def cket : Byte := 24#8
@[simp] def cback : Byte := 36#8
@[simp] def nccl : Byte := 40#8

@[simp] def star : Byte := 1#8
@[simp] def rnge : Byte := 3#8

abbrev maxBra : Nat := 9

def bittab (i : Nat) : Byte := 1#8 <<< i

/-- The test `ep[c >> 3] & bittab[c & 07]`, where a byte past the end of the
program cannot be read. -/
def isThere (prog : List Byte) (ep : Nat) (c : Byte) : Option Bool :=
  (prog[ep + c.toNat / 8]?).map fun b => (b &&& bittab (c.toNat % 8)) != 0#8

def rngeSize (lo hi : Byte) : Int := if hi = 255#8 then 20000 else hi.toNat - lo.toNat

/-- The two counts of an interval: `low`, and how many more may follow. -/
def getrnge (prog : List Byte) (str : Nat) : Option (Nat × Int) := do
  let lo ← prog[str]?
  let hi ← prog[str + 1]?
  some (lo.toNat, rngeSize lo hi)

/-- `((c & 0200) == 0 && ISTHERE(c)) ^ neg`, the test of the plain and the
starred class. -/
def cclAccepts (prog : List Byte) (ep : Nat) (neg : Bool) (c : Byte) : Option Bool :=
  if c.msb then some neg else (isThere prog ep c).map fun b => b ^^ neg

/-- `((c & 0200) || !ISTHERE(c)) ^ neg`, the test of the class with an
interval, which leaves the loop when it holds. -/
def cclRejects (prog : List Byte) (ep : Nat) (neg : Bool) (c : Byte) : Option Bool :=
  if c.msb then some (true ^^ neg) else (isThere prog ep c).map fun b => !b ^^ neg

theorem cclRejects_eq (prog : List Byte) (ep : Nat) (neg : Bool) (c : Byte) :
    cclRejects prog ep neg c = (cclAccepts prog ep neg c).map (!·) := by
  unfold cclRejects cclAccepts
  split
  · cases neg <;> rfl
  · cases isThere prog ep c with
    | none => rfl
    | some b => cases b <;> cases neg <;> rfl

end SysvDev.Regexp.Opcode
