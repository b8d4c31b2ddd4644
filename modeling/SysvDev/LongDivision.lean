import Mathlib.Algebra.Order.Ring.Nat
import Mathlib.Tactic.Linarith
import Mathlib.Tactic.Ring

namespace SysvDev.LongDivision

variable {w n B X Y q r : Nat}

theorem div_mod_unique (h : X = q * Y + r) (hr : r < Y) : X / Y = q ∧ X % Y = r := by
  subst h
  have hY : 0 < Y := Nat.zero_lt_of_lt hr
  constructor
  · rw [Nat.mul_comm, Nat.mul_add_div hY, Nat.div_eq_of_lt hr, Nat.add_zero]
  · rw [Nat.mul_comm, Nat.mul_add_mod, Nat.mod_eq_of_lt hr]

theorem unshift (heq : X * 2 ^ n = q * (Y * 2 ^ n) + r) (hr : r < Y * 2 ^ n) :
    X / Y = q ∧ X % Y = r / 2 ^ n := by
  have hpos : 0 < 2 ^ n := Nat.two_pow_pos n
  obtain ⟨hdiv, hmod⟩ := div_mod_unique heq hr
  rw [Nat.mul_div_mul_right X Y hpos] at hdiv
  rw [Nat.mul_mod_mul_right] at hmod
  exact ⟨hdiv, by rw [← hmod, Nat.mul_div_cancel _ hpos]⟩

/-- Division by one digit, the high digit having been divided before. -/
theorem div_digit {q1 d x0 v : Nat} (hX : X = (q1 * v + d) * B + x0) (hd : d < v) :
    X / v = q1 * B + (d * B + x0) / v ∧ X % v = (d * B + x0) % v := by
  have hv : 0 < v := Nat.zero_lt_of_lt hd
  apply div_mod_unique _ (Nat.mod_lt _ hv)
  have h := Nat.div_add_mod (d * B + x0) v
  rw [hX]
  linarith

theorem div_lt_radix {d x0 v : Nat} (hd : d < v) (hx : x0 < B) : (d * B + x0) / v < B := by
  rw [Nat.div_lt_iff_lt_mul (Nat.zero_lt_of_lt hd)]
  calc d * B + x0 < d * B + B := Nat.add_lt_add_left hx _
    _ = (d + 1) * B := by ring
    _ ≤ v * B := Nat.mul_le_mul_right B hd
    _ = B * v := Nat.mul_comm v B

/-- The dividend and the divisor of two digits, shifted so that the high digit
of the divisor has its top bit, and the quotient estimated from the high
digits alone. -/
structure Normal (w n X Y x2 x1 x0 y1 y0 : Nat) : Prop where
  pos : 0 < n
  lt : n < w
  dividend : X * 2 ^ n = (x2 * 2 ^ w + x1) * 2 ^ w + x0
  divisor : Y * 2 ^ n = y1 * 2 ^ w + y0
  top : 2 ^ (w - 1) ≤ y1
  high : x2 < 2 ^ n
  mid : x1 < 2 ^ w
  low : x0 < 2 ^ w
  lowDivisor : y0 < 2 ^ w

namespace Normal

variable {x2 x1 x0 y1 y0 : Nat} (h : Normal w n X Y x2 x1 x0 y1 y0)

include h

theorem two_pow : 2 ^ w = 2 * 2 ^ (w - 1) := by
  have hw : w = w - 1 + 1 := by
    have := h.lt
    omega
  conv_lhs => rw [hw, Nat.pow_succ']

/-- The high digit is below the divisor's, so that the estimate is one digit. -/
theorem high_lt : x2 < y1 := by
  have hpow : 2 ^ n ≤ 2 ^ (w - 1) := Nat.pow_le_pow_right Nat.two_pos (Nat.le_sub_one_of_lt h.lt)
  exact Nat.lt_of_lt_of_le h.high (hpow.trans h.top)

theorem estimate_lt : (x2 * 2 ^ w + x1) / y1 < 2 ^ (n + 1) := by
  rw [Nat.div_lt_iff_lt_mul (Nat.zero_lt_of_lt h.high_lt)]
  have hB := h.two_pow
  calc x2 * 2 ^ w + x1 < (x2 + 1) * 2 ^ w := by
        have := h.mid
        linarith
    _ ≤ 2 ^ n * 2 ^ w := Nat.mul_le_mul_right _ h.high
    _ = 2 ^ (n + 1) * 2 ^ (w - 1) := by rw [hB]; ring
    _ ≤ 2 ^ (n + 1) * y1 := Nat.mul_le_mul_left _ h.top

theorem lowDivisor_le : y0 ≤ 2 ^ w - 2 ^ n := by
  have hw : 2 ^ w = 2 ^ n * 2 ^ (w - n) := by
    rw [← Nat.pow_add, Nat.add_sub_cancel' h.lt.le]
  have hdvd : 2 ^ n ∣ y0 := by
    have hy : 2 ^ n ∣ y1 * 2 ^ w + y0 := ⟨Y, by rw [← h.divisor, Nat.mul_comm]⟩
    exact (Nat.dvd_add_right (Dvd.dvd.mul_left ⟨_, hw⟩ y1)).mp hy
  obtain ⟨k, rfl⟩ := hdvd
  have hk : k < 2 ^ (w - n) := by
    have := h.lowDivisor
    rw [hw] at this
    exact Nat.lt_of_mul_lt_mul_left this
  have hle : 2 ^ n * (k + 1) ≤ 2 ^ w := by
    rw [hw]
    exact Nat.mul_le_mul_left _ hk
  have hmul : 2 ^ n * (k + 1) = 2 ^ n * k + 2 ^ n := by ring
  omega

/-- The estimate is too high by one at most. -/
theorem product_le : (x2 * 2 ^ w + x1) / y1 * y0 ≤ Y * 2 ^ n := by
  have hB := h.two_pow
  have hfit : 2 ^ (n + 1) * (2 ^ w - 2 ^ n) ≤ 2 ^ (w - 1) * 2 ^ w := by
    rcases Nat.lt_or_ge n (w - 1) with hn | hn
    · have hpow : 2 ^ (n + 1) ≤ 2 ^ (w - 1) := Nat.pow_le_pow_right Nat.two_pos hn
      exact Nat.mul_le_mul hpow (Nat.sub_le _ _)
    · obtain rfl : n = w - 1 := Nat.le_antisymm (Nat.le_sub_one_of_lt h.lt) hn
      have hhalf : 2 ^ w - 2 ^ (w - 1) = 2 ^ (w - 1) := by omega
      rw [hhalf, Nat.pow_succ', ← hB, Nat.mul_comm]
  calc (x2 * 2 ^ w + x1) / y1 * y0 ≤ 2 ^ (n + 1) * (2 ^ w - 2 ^ n) :=
        Nat.mul_le_mul h.estimate_lt.le h.lowDivisor_le
    _ ≤ 2 ^ (w - 1) * 2 ^ w := hfit
    _ ≤ y1 * 2 ^ w := Nat.mul_le_mul_right _ h.top
    _ ≤ Y * 2 ^ n := by
        rw [h.divisor]
        exact Nat.le_add_right _ _

theorem dividend_eq :
    X * 2 ^ n + (x2 * 2 ^ w + x1) / y1 * y0 =
      (x2 * 2 ^ w + x1) / y1 * (Y * 2 ^ n) + ((x2 * 2 ^ w + x1) % y1 * 2 ^ w + x0) := by
  have hdiv := Nat.div_add_mod (x2 * 2 ^ w + x1) y1
  rw [h.dividend, h.divisor]
  generalize (x2 * 2 ^ w + x1) / y1 = q at hdiv ⊢
  generalize (x2 * 2 ^ w + x1) % y1 = r at hdiv ⊢
  rw [← hdiv]
  ring

theorem rest_lt : (x2 * 2 ^ w + x1) % y1 * 2 ^ w + x0 < Y * 2 ^ n := by
  have hmod := Nat.mod_lt (x2 * 2 ^ w + x1) (Nat.zero_lt_of_lt h.high_lt)
  calc (x2 * 2 ^ w + x1) % y1 * 2 ^ w + x0 < ((x2 * 2 ^ w + x1) % y1 + 1) * 2 ^ w := by
        have := h.low
        linarith
    _ ≤ y1 * 2 ^ w := Nat.mul_le_mul_right _ hmod
    _ ≤ Y * 2 ^ n := by
        rw [h.divisor]
        exact Nat.le_add_right _ _

theorem exact_estimate
    (hle : (x2 * 2 ^ w + x1) / y1 * y0 ≤ (x2 * 2 ^ w + x1) % y1 * 2 ^ w + x0) :
    X / Y = (x2 * 2 ^ w + x1) / y1 ∧
      X % Y = ((x2 * 2 ^ w + x1) % y1 * 2 ^ w + x0 - (x2 * 2 ^ w + x1) / y1 * y0) / 2 ^ n := by
  have heq := h.dividend_eq
  have hlt := h.rest_lt
  apply unshift <;> omega

theorem high_estimate
    (hlt : (x2 * 2 ^ w + x1) % y1 * 2 ^ w + x0 < (x2 * 2 ^ w + x1) / y1 * y0) :
    X / Y = (x2 * 2 ^ w + x1) / y1 - 1 ∧
      X % Y = ((x2 * 2 ^ w + x1) % y1 * 2 ^ w + x0 + Y * 2 ^ n - (x2 * 2 ^ w + x1) / y1 * y0) / 2 ^ n := by
  have heq := h.dividend_eq
  have hle := h.product_le
  have hpos : 0 < (x2 * 2 ^ w + x1) / y1 := by
    by_contra hzero
    rw [Nat.eq_zero_of_not_pos hzero, Nat.zero_mul] at hlt
    exact Nat.not_lt_zero _ hlt
  obtain ⟨k, hk⟩ := Nat.exists_eq_add_of_lt hpos
  rw [Nat.zero_add] at hk
  have hsucc : (k + 1) * (Y * 2 ^ n) = k * (Y * 2 ^ n) + Y * 2 ^ n := by ring
  rw [hk, hsucc] at heq
  rw [hk] at hle hlt
  rw [hk, Nat.add_sub_cancel]
  apply unshift <;> omega

end Normal

end SysvDev.LongDivision
