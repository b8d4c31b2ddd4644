import Mathlib.Algebra.Order.Ring.Nat
import Mathlib.Data.BitVec
import Mathlib.Data.Nat.Bitwise
import Mathlib.Data.Nat.ModEq
import Mathlib.Order.Bounds.Basic
import Mathlib.Tactic.Ring

namespace SysvDev.Rounding

def rounddown (x n : Nat) : Nat := x / n * n

def roundup (x n : Nat) : Nat := (x + (n - 1)) / n * n

section Multiples

variable {x n : Nat}

theorem rounddown_add_mod : rounddown x n + x % n = x := by
  rw [rounddown, Nat.mul_comm]
  exact Nat.div_add_mod x n

theorem roundup_eq_rounddown : roundup x n = rounddown (x + (n - 1)) n := rfl

theorem roundup_mul_add (hn : 0 < n) (q x : Nat) : roundup (q * n + x) n = q * n + roundup x n := by
  rw [roundup, roundup, Nat.add_assoc, Nat.mul_comm q n, Nat.mul_add_div hn, Nat.add_mul, Nat.mul_comm q n]

theorem roundup_mul (hn : 0 < n) (q : Nat) : roundup (q * n) n = q * n := by
  have hzero : roundup 0 n = 0 := by
    rw [roundup, Nat.zero_add, Nat.div_eq_of_lt (by omega), Nat.zero_mul]
  rw [← Nat.add_zero (q * n), roundup_mul_add hn, hzero]

theorem roundup_of_pos_of_le (hx : 0 < x) (hle : x ≤ n) : roundup x n = n := by
  have hone : (x + (n - 1)) / n = 1 := by
    apply Nat.div_eq_of_lt_le
    · omega
    · omega
  rw [roundup, hone, Nat.one_mul]

theorem rounddown_le : rounddown x n ≤ x := Nat.div_mul_le_self x n

theorem roundup_lt (hn : 0 < n) : roundup x n < x + n := by
  have hle : roundup x n ≤ x + (n - 1) := rounddown_le
  omega

theorem isGreatest_rounddown (hn : 0 < n) : IsGreatest {m | n ∣ m ∧ m ≤ x} (rounddown x n) := by
  refine ⟨⟨Nat.dvd_mul_left n _, rounddown_le⟩, ?_⟩
  rintro m ⟨⟨q, rfl⟩, hle⟩
  rw [rounddown, Nat.mul_comm]
  exact Nat.mul_le_mul_right n ((Nat.le_div_iff_mul_le hn).mpr (Nat.mul_comm n q ▸ hle))

theorem isLeast_modEq {r c : Nat} (hr : r < n) (h : x + r ≡ c [MOD n]) :
    IsLeast {m | x ≤ m ∧ m ≡ c [MOD n]} (x + r) := by
  refine ⟨⟨Nat.le_add_right x r, h⟩, ?_⟩
  rintro m ⟨hle, hm⟩
  by_contra hlt
  rw [not_le] at hlt
  have hdvd : n ∣ x + r - m := (Nat.modEq_iff_dvd' hlt.le).mp (hm.trans h.symm)
  have hbound := Nat.le_of_dvd (by omega) hdvd
  omega

theorem isLeast_dvd {r : Nat} (hr : r < n) (h : n ∣ x + r) : IsLeast {m | n ∣ m ∧ x ≤ m} (x + r) := by
  have hset : {m | n ∣ m ∧ x ≤ m} = {m | x ≤ m ∧ m ≡ 0 [MOD n]} := by
    ext m
    exact and_comm.trans (and_congr_right' Nat.modEq_zero_iff_dvd.symm)
  rw [hset]
  exact isLeast_modEq hr (Nat.modEq_zero_iff_dvd.mpr h)

end Multiples

section HighBits

variable {x y n : Nat}

theorem xor_lt_two_pow_iff : x ^^^ y < 2 ^ n ↔ x / 2 ^ n = y / 2 ^ n := by
  have hdiv : (x ^^^ y) / 2 ^ n = x / 2 ^ n ^^^ y / 2 ^ n := by
    rw [← Nat.shiftRight_eq_div_pow, ← Nat.shiftRight_eq_div_pow, ← Nat.shiftRight_eq_div_pow,
      Nat.shiftRight_xor_distrib]
  rw [← Nat.div_eq_zero_iff_lt (Nat.two_pow_pos n), hdiv, Nat.xor_eq_zero_iff]

theorem xor_lt_and_of_log2_eq (hx : x ≠ 0) (hy : y ≠ 0) (h : x.log2 = y.log2) : x ^^^ y < x &&& y := by
  have hlead {z : Nat} (hz : z ≠ 0) (hlog : z.log2 = y.log2) : z / 2 ^ y.log2 = 1 := by
    obtain ⟨hlo, hhi⟩ := (Nat.log2_eq_iff hz).mp hlog
    rw [Nat.pow_succ] at hhi
    exact Nat.div_eq_of_lt_le (by omega) (by omega)
  have hxor : x ^^^ y < 2 ^ y.log2 := xor_lt_two_pow_iff.mpr ((hlead hx h).trans (hlead hy rfl).symm)
  have hbit : (x &&& y).testBit y.log2 = true := by
    rw [Nat.testBit_and, Nat.testBit_log2 hy, ← h, Nat.testBit_log2 hx]
    rfl
  exact hxor.trans_le (Nat.ge_two_pow_of_testBit hbit)

theorem and_lt_xor_of_log2_lt (hx : x ≠ 0) (h : y < 2 ^ x.log2) : x &&& y < x ^^^ y := by
  have hbit : (x ^^^ y).testBit x.log2 = true := by
    rw [Nat.testBit_xor, Nat.testBit_log2 hx, Nat.testBit_lt_two_pow h]
    rfl
  exact (Nat.and_le_right.trans_lt h).trans_le (Nat.ge_two_pow_of_testBit hbit)

/-- The numbers have the same highest bit. -/
theorem xor_lt_and_iff : x ^^^ y < x &&& y ↔ x ≠ 0 ∧ y ≠ 0 ∧ x.log2 = y.log2 := by
  constructor
  · intro h
    have hx : x ≠ 0 := by
      rintro rfl
      simp at h
    have hy : y ≠ 0 := by
      rintro rfl
      simp at h
    refine ⟨hx, hy, ?_⟩
    rcases Nat.lt_trichotomy x.log2 y.log2 with hlt | heq | hlt
    · have hsmall : x < 2 ^ y.log2 := Nat.lt_log2_self.trans_le (Nat.pow_le_pow_right (by decide) hlt)
      have hcontra := and_lt_xor_of_log2_lt hy hsmall
      rw [Nat.and_comm, Nat.xor_comm] at hcontra
      exact absurd h hcontra.asymm
    · exact heq
    · have hsmall : y < 2 ^ x.log2 := Nat.lt_log2_self.trans_le (Nat.pow_le_pow_right (by decide) hlt)
      exact absurd h (and_lt_xor_of_log2_lt hx hsmall).asymm
  · rintro ⟨hx, hy, h⟩
    exact xor_lt_and_of_log2_eq hx hy h

end HighBits

section Masks

variable {w : Nat} {x m : BitVec w} {k : Nat}

theorem toNat_and_low (hm : m.toNat = 2 ^ k - 1) : (x &&& m).toNat = x.toNat % 2 ^ k := by
  rw [BitVec.toNat_and, hm, Nat.and_two_pow_sub_one_eq_mod]

theorem and_not_and (x m : BitVec w) : (x &&& ~~~m) &&& (x &&& m) = 0#w := by
  ext i hi
  simp +contextual

theorem and_not_add (x m : BitVec w) : (x &&& ~~~m) + (x &&& m) = x := by
  rw [BitVec.add_eq_or_of_and_eq_zero _ _ (and_not_and x m), ← BitVec.and_or_distrib_left]
  simp

theorem toNat_and_high (hm : m.toNat = 2 ^ k - 1) : (x &&& ~~~m).toNat = rounddown x.toNat (2 ^ k) := by
  have hsum := BitVec.toNat_add_of_and_eq_zero (and_not_and x m)
  rw [and_not_add, toNat_and_low hm] at hsum
  have hmod := rounddown_add_mod (x := x.toNat) (n := 2 ^ k)
  omega

end Masks

end SysvDev.Rounding
