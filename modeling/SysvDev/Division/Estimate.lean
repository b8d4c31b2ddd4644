import SysvDev.X86.Run

namespace SysvDev.Division.Estimate

open Word LongDivision X86.Machine X86.Run

variable {xl xh yl yh x2 x1 x0 y1 y0 : BitVec 32} {x y : BitVec 64} {n : Nat}

theorem zero_pair (a : BitVec 32) : (0#32 ++ a).toNat = a.toNat := by
  rw [toNat_pair, BitVec.toNat_ofNat, Nat.zero_mod, Nat.zero_mul, Nat.zero_add]

/-- A divisor of one word: the high word of the dividend has been divided
before, with the quotient `q` and the remainder `d`. -/
theorem div_word {q d : BitVec 32} (hx : xh.toNat = q.toNat * yl.toNat + d.toNat) (hd : d.toNat < yl.toNat) :
    q ++ quotient d xl yl = (xh ++ xl) / (0#32 ++ yl) ∧
      0#32 ++ remainder d xl yl = (xh ++ xl) % (0#32 ++ yl) := by
  have hX : (xh ++ xl).toNat = (q.toNat * yl.toNat + d.toNat) * 2 ^ 32 + xl.toNat := by rw [toNat_pair, hx]
  obtain ⟨hdiv, hmod⟩ := div_digit hX hd
  constructor
  · apply pair_eq
    rw [toNat_quotient xl hd, BitVec.toNat_udiv, zero_pair, hdiv]
  · apply BitVec.eq_of_toNat_eq
    rw [zero_pair, toNat_remainder xl hd, BitVec.toNat_umod, zero_pair, hmod]

theorem div_of_lt (h : x.toNat < y.toNat) : 0#32 ++ 0#32 = x / y ∧ x = x % y := by
  constructor
  · apply BitVec.eq_of_toNat_eq
    rw [BitVec.toNat_udiv, Nat.div_eq_of_lt h, zero_pair]
    rfl
  · apply BitVec.eq_of_toNat_eq
    rw [BitVec.toNat_umod, Nat.mod_eq_of_lt h]

/-- A divisor with its top bit set goes once into what is not below it. -/
theorem div_of_top (hy : 2 ^ 63 ≤ y.toNat) (h : y.toNat ≤ x.toNat) : 0#32 ++ 1#32 = x / y ∧ x - y = x % y := by
  have hlt := x.isLt
  have hquot : x.toNat / y.toNat = 1 := by
    rw [Nat.div_eq_iff (by omega)]
    omega
  have hmod := Nat.div_add_mod x.toNat y.toNat
  rw [hquot, Nat.mul_one] at hmod
  constructor
  · apply BitVec.eq_of_toNat_eq
    rw [BitVec.toNat_udiv, hquot, zero_pair]
    rfl
  · apply BitVec.eq_of_toNat_eq
    rw [BitVec.toNat_umod, BitVec.toNat_sub_of_le (BitVec.le_def.mpr h)]
    omega

theorem log2_lt (h : yh ≠ 0#32) : yh.toNat.log2 < 32 := by
  rw [Nat.log2_lt (fun hzero => h (BitVec.eq_of_toNat_eq hzero))]
  exact yh.isLt

theorem pos_of_pair_ne (h : 0#32 ++ yl ≠ 0#64) : 0 < yl.toNat := by
  apply Nat.pos_of_ne_zero
  intro hnat
  apply h
  apply BitVec.eq_of_toNat_eq
  rw [zero_pair, hnat]
  rfl

theorem high_word (hy : 0 < yl.toNat) (xh : BitVec 32) :
    xh.toNat = (quotient 0#32 xh yl).toNat * yl.toNat + (remainder 0#32 xh yl).toNat ∧
      (remainder 0#32 xh yl).toNat < yl.toNat := by
  have hzero : (0#32).toNat < yl.toNat := hy
  have hquot := toNat_quotient xh hzero
  have hrem := toNat_remainder xh hzero
  rw [BitVec.toNat_ofNat, Nat.zero_mod, Nat.zero_mul, Nat.zero_add] at hquot hrem
  constructor
  · rw [hquot, hrem, Nat.mul_comm, Nat.div_add_mod]
  · rw [hrem]
    exact Nat.mod_lt _ hy

theorem count_eq (hlt : n < 32) :
    n % 256 % 32 = n ∧ ∀ old : BitVec 32, State.merge old (BitVec.ofNat 8 n) &&& 32#32 = 0#32 := by
  refine ⟨by omega, fun old => merge_and old ?_⟩
  rw [BitVec.toNat_ofNat]
  omega

theorem count_sub_eq (h0 : 0 < n) (hlt : n < 32) :
    (difference (BitVec.ofNat 32 n) 32#32 false).1 = BitVec.ofNat 32 (32 - n) := by
  interval_cases n <;> rfl

theorem count_log2 (h : yh ≠ 0#32) (hn : yh.toNat.log2 ≠ 31) :
    31#32 ≠ BitVec.ofNat 32 yh.toNat.log2 ∧
      31#32 - BitVec.ofNat 32 yh.toNat.log2 = BitVec.ofNat 32 (31 - yh.toNat.log2) := by
  have hlog := log2_lt h
  constructor
  · intro heq
    have hnat := congrArg BitVec.toNat heq
    rw [BitVec.toNat_ofNat, BitVec.toNat_ofNat] at hnat
    omega
  · interval_cases yh.toNat.log2 <;> rfl

/-- The shift by the number of leading zeros of the divisor makes the words
that the estimate is taken from. -/
theorem normal_of_shift (h : yh ≠ 0#32) (h0 : 0 < n) (hn : n + yh.toNat.log2 = 31)
    (hx : x1 ++ x0 = (xh ++ xl) <<< n) (hy : y1 ++ y0 = (yh ++ yl) <<< n) :
    Normal 32 n (xh ++ xl).toNat (yh ++ yl).toNat (xh >>> (32 - n)).toNat x1.toNat x0.toNat y1.toNat y0.toNat := by
  have hne : yh.toNat ≠ 0 := fun hzero => h (BitVec.eq_of_toNat_eq hzero)
  have hlog : 2 ^ yh.toNat.log2 ≤ yh.toNat := Nat.log2_self_le hne
  have hlog' : yh.toNat < 2 ^ (yh.toNat.log2 + 1) := Nat.lt_log2_self
  have hpow : 2 ^ (32 - n) * 2 ^ n = 2 ^ 32 := by rw [← Nat.pow_add, Nat.sub_add_cancel (by omega)]
  have hhalf : 2 ^ yh.toNat.log2 * 2 ^ n = 2 ^ 31 := by rw [← Nat.pow_add, Nat.add_comm, hn]
  have hpos : 0 < 2 ^ n := Nat.two_pow_pos n
  rw [show yh.toNat.log2 + 1 = 32 - n by omega] at hlog'
  have hX : x1.toNat * 2 ^ 32 + x0.toNat = (xh ++ xl).toNat * 2 ^ n % 2 ^ 64 := by
    rw [← toNat_pair, hx, BitVec.toNat_shiftLeft, Nat.shiftLeft_eq]
  have hY : y1.toNat * 2 ^ 32 + y0.toNat = (yh ++ yl).toNat * 2 ^ n % 2 ^ 64 := by
    rw [← toNat_pair, hy, BitVec.toNat_shiftLeft, Nat.shiftLeft_eq]
  have hYle : 2 ^ 31 * 2 ^ 32 ≤ (yh ++ yl).toNat * 2 ^ n := by
    calc 2 ^ 31 * 2 ^ 32 = 2 ^ yh.toNat.log2 * 2 ^ 32 * 2 ^ n := by rw [← hhalf]; ring
      _ ≤ (yh ++ yl).toNat * 2 ^ n := by
          apply Nat.mul_le_mul_right
          rw [toNat_pair]
          exact Nat.le_add_right_of_le (Nat.mul_le_mul_right _ hlog)
  have hYlt : (yh ++ yl).toNat * 2 ^ n < 2 ^ 64 := by
    have hlt : (yh ++ yl).toNat < 2 ^ (32 - n) * 2 ^ 32 := by
      rw [toNat_pair]
      have hyl := yl.isLt
      have hmul := Nat.mul_le_mul_right (2 ^ 32) hlog'
      linarith
    calc (yh ++ yl).toNat * 2 ^ n < 2 ^ (32 - n) * 2 ^ 32 * 2 ^ n := Nat.mul_lt_mul_of_pos_right hlt hpos
      _ = 2 ^ (32 - n) * 2 ^ n * 2 ^ 32 := by ring
      _ = 2 ^ 64 := by rw [hpow]; rfl
  have hquot : (xh ++ xl).toNat * 2 ^ n / 2 ^ 64 = (xh >>> (32 - n)).toNat := by
    have h64 : 2 ^ 64 = 2 ^ 32 * 2 ^ (32 - n) * 2 ^ n := by
      rw [Nat.mul_assoc, hpow]
      rfl
    have hxl := xl.isLt
    rw [h64, Nat.mul_div_mul_right _ _ hpos, ← Nat.div_div_eq_div_mul, toNat_pair, BitVec.toNat_ushiftRight,
      Nat.shiftRight_eq_div_pow, Nat.mul_comm, Nat.mul_add_div (Nat.two_pow_pos 32), Nat.div_eq_of_lt hxl,
      Nat.add_zero]
  constructor
  · exact h0
  · omega
  · have hmod := Nat.div_add_mod ((xh ++ xl).toNat * 2 ^ n) (2 ^ 64)
    rw [hquot, ← hX] at hmod
    rw [← hmod]
    ring
  · rw [hY, Nat.mod_eq_of_lt hYlt]
  · rw [Nat.mod_eq_of_lt hYlt] at hY
    have hy0 := y0.isLt
    omega
  · rw [BitVec.toNat_ushiftRight, Nat.shiftRight_eq_div_pow, Nat.div_lt_iff_lt_mul (Nat.two_pow_pos _),
      Nat.mul_comm, hpow]
    exact xh.isLt
  · exact x1.isLt
  · exact x0.isLt
  · exact y0.isLt

/-- The product of the estimate and the low word of the divisor is not above
what the division has left. -/
theorem exact_words (h : Normal 32 n x.toNat y.toNat x2.toNat x1.toNat x0.toNat y1.toNat y0.toNat)
    (hle : (highProduct y0 (quotient x2 x1 y1) ++ y0 * quotient x2 x1 y1).toNat ≤
      (remainder x2 x1 y1 ++ x0).toNat) :
    0#32 ++ quotient x2 x1 y1 = x / y ∧
      ((remainder x2 x1 y1 ++ x0) - (highProduct y0 (quotient x2 x1 y1) ++ y0 * quotient x2 x1 y1)) >>> n =
        x % y := by
  have hprod := pair_product y0 (quotient x2 x1 y1)
  have hrest := toNat_pair (remainder x2 x1 y1) x0
  have hle' := hle
  rw [toNat_quotient x1 h.high_lt, Nat.mul_comm] at hprod
  rw [toNat_remainder x1 h.high_lt] at hrest
  rw [hprod, hrest] at hle'
  obtain ⟨hdiv, hmod⟩ := h.exact_estimate hle'
  constructor
  · apply BitVec.eq_of_toNat_eq
    rw [zero_pair, BitVec.toNat_udiv, toNat_quotient x1 h.high_lt, hdiv]
  · apply BitVec.eq_of_toNat_eq
    rw [BitVec.toNat_ushiftRight, Nat.shiftRight_eq_div_pow, BitVec.toNat_sub_of_le (BitVec.le_def.mpr hle),
      hprod, hrest, BitVec.toNat_umod, hmod]

/-- The product is above it, and the estimate one too high. -/
theorem high_words (h : Normal 32 n x.toNat y.toNat x2.toNat x1.toNat x0.toNat y1.toNat y0.toNat)
    (hlt : (remainder x2 x1 y1 ++ x0).toNat <
      (highProduct y0 (quotient x2 x1 y1) ++ y0 * quotient x2 x1 y1).toNat) :
    0#32 ++ (quotient x2 x1 y1 - 1#32) = x / y ∧
      ((remainder x2 x1 y1 ++ x0) -
        ((highProduct y0 (quotient x2 x1 y1) ++ y0 * quotient x2 x1 y1) - (y1 ++ y0))) >>> n = x % y := by
  have hprod := pair_product y0 (quotient x2 x1 y1)
  have hrest := toNat_pair (remainder x2 x1 y1) x0
  have hdivisor := toNat_pair y1 y0
  rw [← h.divisor] at hdivisor
  rw [toNat_quotient x1 h.high_lt, Nat.mul_comm] at hprod
  rw [toNat_remainder x1 h.high_lt] at hrest
  rw [hprod, hrest] at hlt
  obtain ⟨hdiv, hmod⟩ := h.high_estimate hlt
  have hle := h.product_le
  constructor
  · have hpos : 0 < (quotient x2 x1 y1).toNat := by
      rw [toNat_quotient x1 h.high_lt]
      by_contra hzero
      rw [Nat.eq_zero_of_not_pos hzero, Nat.zero_mul] at hlt
      exact Nat.not_lt_zero _ hlt
    have hone : (1#32) ≤ quotient x2 x1 y1 := BitVec.le_def.mpr hpos
    apply BitVec.eq_of_toNat_eq
    rw [zero_pair, BitVec.toNat_udiv, BitVec.toNat_sub_of_le hone, toNat_quotient x1 h.high_lt, hdiv]
    rfl
  · have hrest_lt := h.rest_lt
    have hsum : (remainder x2 x1 y1 ++ x0) -
        ((highProduct y0 (quotient x2 x1 y1) ++ y0 * quotient x2 x1 y1) - (y1 ++ y0)) =
          BitVec.ofNat 64 ((x2.toNat * 2 ^ 32 + x1.toNat) % y1.toNat * 2 ^ 32 + x0.toNat + y.toNat * 2 ^ n -
            (x2.toNat * 2 ^ 32 + x1.toNat) / y1.toNat * y0.toNat) := by
      have hlt64 := (y1 ++ y0).isLt
      apply BitVec.eq_of_toNat_eq
      rw [BitVec.toNat_sub, BitVec.toNat_sub, hprod, hrest, hdivisor, BitVec.toNat_ofNat]
      omega
    have hlt64 := (y1 ++ y0).isLt
    apply BitVec.eq_of_toNat_eq
    rw [hsum, BitVec.toNat_ushiftRight, Nat.shiftRight_eq_div_pow, BitVec.toNat_ofNat,
      Nat.mod_eq_of_lt (by omega), BitVec.toNat_umod, hmod]

end SysvDev.Division.Estimate
