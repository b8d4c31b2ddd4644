import SysvDev.Word

namespace SysvDev.Division.Sign

variable {x y : BitVec 64}

def signed (neg : Bool) (x : BitVec 64) : BitVec 64 := if neg then -x else x

theorem signed_true (x : BitVec 64) : signed true x = -x := rfl

theorem signed_false (x : BitVec 64) : signed false x = x := rfl

/-- The number without its sign. That of the least number is itself. -/
def magnitude (x : BitVec 64) : BitVec 64 := signed x.msb x

/-- Division truncates towards zero: divide the magnitudes, then see to the
sign. -/
theorem sdiv_magnitude (x y : BitVec 64) :
    x.sdiv y = signed (x.msb != y.msb) (magnitude x / magnitude y) := by
  rw [BitVec.sdiv_eq, magnitude, magnitude]
  cases x.msb <;> cases y.msb <;> rfl

theorem srem_magnitude (x y : BitVec 64) :
    x.srem y = signed x.msb (magnitude x % magnitude y) := by
  rw [BitVec.srem_eq, magnitude, magnitude]
  cases x.msb <;> cases y.msb <;> rfl

theorem msb_pair (a b : BitVec 32) : (a ++ b).msb = a.msb := BitVec.msb_append

end SysvDev.Division.Sign
