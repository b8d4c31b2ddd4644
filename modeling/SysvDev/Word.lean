import Mathlib.Data.BitVec
import Mathlib.Tactic.Linarith
import Mathlib.Tactic.Ring

namespace SysvDev.Word

variable {n k : Nat} {a b c d : BitVec n}

theorem toNat_pair (a : BitVec n) (b : BitVec k) : (a ++ b).toNat = a.toNat * 2 ^ k + b.toNat := by
  rw [BitVec.toNat_append, Nat.shiftLeft_eq, Nat.mul_comm, Nat.two_pow_add_eq_or_of_lt b.isLt, Nat.mul_comm]

theorem pair_inj {a c : BitVec n} {b d : BitVec k} : a ++ b = c ++ d ↔ a = c ∧ b = d := by
  constructor
  · intro h
    have hlow := congrArg (BitVec.setWidth k) h
    rw [BitVec.setWidth_append_eq_right, BitVec.setWidth_append_eq_right] at hlow
    subst hlow
    exact ⟨(BitVec.append_left_inj b).mp h, rfl⟩
  · rintro ⟨rfl, rfl⟩
    rfl

theorem pair_eq {v : BitVec (n + n)} (h : a.toNat * 2 ^ n + b.toNat = v.toNat) : a ++ b = v :=
  BitVec.eq_of_toNat_eq ((toNat_pair a b).trans h)

theorem toNat_sub_cases (a b : BitVec n) :
    b.toNat ≤ a.toNat ∧ (a - b).toNat = a.toNat - b.toNat ∨
      a.toNat < b.toNat ∧ (a - b).toNat = 2 ^ n + a.toNat - b.toNat := by
  rcases Nat.lt_or_ge a.toNat b.toNat with h | h
  · right
    refine ⟨h, ?_⟩
    have hb := b.isLt
    rw [BitVec.toNat_sub, Nat.mod_eq_of_lt (by omega)]
    omega
  · exact .inl ⟨h, BitVec.toNat_sub_of_le h⟩

theorem pair_add (a b c d : BitVec n) :
    (a + c + BitVec.ofNat n (decide (2 ^ n ≤ b.toNat + d.toNat)).toNat) ++ (b + d) = (a ++ b) + (c ++ d) := by
  apply pair_eq
  have hlow : b.toNat + d.toNat =
      (decide (2 ^ n ≤ b.toNat + d.toNat)).toNat * 2 ^ n + (b.toNat + d.toNat) % 2 ^ n := by
    have hb := b.isLt
    have hd := d.isLt
    by_cases h : 2 ^ n ≤ b.toNat + d.toNat
    · rw [Nat.mod_eq_sub_mod h, Nat.mod_eq_of_lt (by omega), decide_eq_true h]
      simp only [Bool.toNat_true]
      omega
    · rw [Nat.mod_eq_of_lt (by omega), decide_eq_false h]
      simp
  generalize decide (2 ^ n ≤ b.toNat + d.toNat) = carry at hlow ⊢
  have hsum : (a ++ b).toNat + (c ++ d).toNat =
      2 ^ n * (a.toNat + c.toNat + carry.toNat) + (b.toNat + d.toNat) % 2 ^ n := by
    rw [toNat_pair, toNat_pair]
    linarith
  have hlt : (b.toNat + d.toNat) % 2 ^ n < 2 ^ n := Nat.mod_lt _ (Nat.two_pow_pos n)
  rw [BitVec.toNat_add (a ++ b), hsum, Nat.pow_add, Nat.mod_mul, Nat.mul_add_mod, Nat.mod_eq_of_lt hlt,
    Nat.mul_add_div (Nat.two_pow_pos n), Nat.div_eq_of_lt hlt, Nat.add_zero, Nat.mul_comm (2 ^ n), Nat.add_comm]
  simp only [BitVec.toNat_add, BitVec.toNat_ofNat, Nat.add_mod_mod, Nat.mod_add_mod]

theorem pair_sub (a b c d : BitVec n) :
    (a - c - BitVec.ofNat n (decide (b.toNat < d.toNat)).toNat) ++ (b - d) = (a ++ b) - (c ++ d) := by
  have hcarry : decide (2 ^ n ≤ (b - d).toNat + d.toNat) = decide (b.toNat < d.toNat) := by
    have hb := b.isLt
    apply decide_eq_decide.mpr
    rcases toNat_sub_cases b d with ⟨h1, h2⟩ | ⟨h1, h2⟩ <;> omega
  have hsum := pair_add (a - c - BitVec.ofNat n (decide (b.toNat < d.toNat)).toNat) (b - d) c d
  rw [hcarry, sub_add_cancel] at hsum
  rw [eq_sub_iff_add_eq, ← hsum]
  congr 1
  ring

/-- Multiplication word by word: what is carried out of the high word is lost. -/
theorem pair_mul (a b c d : BitVec n) :
    (a * d + BitVec.ofNat n (b.toNat * d.toNat / 2 ^ n) + b * c) ++ (b * d) = (a ++ b) * (c ++ d) := by
  apply pair_eq
  have hproduct : (a ++ b).toNat * (c ++ d).toNat =
      2 ^ n * (2 ^ n * (a.toNat * c.toNat) + (a.toNat * d.toNat + b.toNat * d.toNat / 2 ^ n + b.toNat * c.toNat)) +
        b.toNat * d.toNat % 2 ^ n := by
    have hlow := Nat.div_add_mod (b.toNat * d.toNat) (2 ^ n)
    rw [toNat_pair, toNat_pair]
    linarith
  have hlt : b.toNat * d.toNat % 2 ^ n < 2 ^ n := Nat.mod_lt _ (Nat.two_pow_pos n)
  rw [BitVec.toNat_mul (a ++ b), hproduct, Nat.pow_add, Nat.mod_mul, Nat.mul_add_mod, Nat.mod_eq_of_lt hlt,
    Nat.mul_add_div (Nat.two_pow_pos n), Nat.div_eq_of_lt hlt, Nat.add_zero, Nat.mul_add_mod, Nat.mul_comm (2 ^ n),
    Nat.add_comm]
  simp only [BitVec.toNat_add, BitVec.toNat_mul, BitVec.toNat_ofNat, Nat.add_mod_mod, Nat.mod_add_mod]

theorem pair_neg (a b : BitVec n) : (-(a + BitVec.ofNat n (decide (b ≠ 0#n)).toNat)) ++ (-b) = -(a ++ b) := by
  have hborrow : decide ((0#n).toNat < b.toNat) = decide (b ≠ 0#n) := by
    apply decide_eq_decide.mpr
    rw [BitVec.toNat_ofNat, Nat.zero_mod, Nat.pos_iff_ne_zero, ne_eq, ne_eq, ← BitVec.toNat_inj]
    simp
  have hzero : (0#n ++ 0#n : BitVec (n + n)) = 0#(n + n) := pair_eq (by simp)
  have hsub := pair_sub 0#n 0#n a b
  rw [hborrow, hzero] at hsub
  simp only [BitVec.zero_sub] at hsub
  rw [← hsub]
  congr 1
  ring

theorem pair_shiftLeft (a b : BitVec n) (h0 : 0 < k) (hk : k < n) :
    (a <<< k ||| b >>> (n - k)) ++ b <<< k = (a ++ b) <<< k := by
  apply BitVec.eq_of_getLsbD_eq
  intro i hi
  simp only [BitVec.getLsbD_append, BitVec.getLsbD_shiftLeft, BitVec.getLsbD_or, BitVec.getLsbD_ushiftRight]
  by_cases hlow : i < n
  · simp only [hlow, hi, if_true, decide_true, Bool.true_and]
    by_cases hik : i < k
    · simp [hik]
    · rw [if_pos (by omega)]
  · simp only [hlow, hi, if_false, decide_true, Bool.true_and, decide_false]
    by_cases hik : i - n < k
    · rw [if_pos (by omega), show n - k + (i - n) = i - k by omega]
      simp [hik, show ¬ i < k by omega, show i - n < n by omega]
    · rw [if_neg (by omega), BitVec.getLsbD_of_ge b _ (by omega), show i - k - n = i - n - k by omega]
      simp [hik, show ¬ i < k by omega, show i - n < n by omega]

theorem pair_ushiftRight (a b : BitVec n) (h0 : 0 < k) (hk : k < n) :
    a >>> k ++ (b >>> k ||| a <<< (n - k)) = (a ++ b) >>> k := by
  apply BitVec.eq_of_getLsbD_eq
  intro i hi
  simp only [BitVec.getLsbD_append, BitVec.getLsbD_shiftLeft, BitVec.getLsbD_or, BitVec.getLsbD_ushiftRight]
  by_cases hlow : i < n
  · simp only [hlow, if_true, decide_true, Bool.true_and]
    by_cases hik : k + i < n
    · simp [hik, show i < n - k by omega]
    · rw [if_neg hik, BitVec.getLsbD_of_ge b _ (by omega), show k + i - n = i - (n - k) by omega]
      simp [show ¬ i < n - k by omega]
  · simp only [hlow, if_false]
    rw [if_neg (by omega), show k + i - n = k + (i - n) by omega]

theorem toNat_and_not_three {w : Nat} (x : BitVec w) : (x &&& ~~~3#w).toNat = 4 * (x.toNat / 4) := by
  have hshift : x &&& ~~~3#w = x >>> 2 <<< 2 := by
    apply BitVec.eq_of_getLsbD_eq
    intro i hi
    have hthree : (3#w).getLsbD i = decide (i < 2) := by
      change (BitVec.ofNat w (2 ^ 2 - 1)).getLsbD i = _
      rw [BitVec.getLsbD_ofNat, Nat.testBit_two_pow_sub_one, decide_eq_true hi, Bool.true_and]
    rw [BitVec.getLsbD_and, BitVec.getLsbD_not, hthree, BitVec.getLsbD_shiftLeft, BitVec.getLsbD_ushiftRight,
      decide_eq_true hi]
    by_cases hlow : i < 2
    · simp [hlow]
    · simp [hlow, show 2 + (i - 2) = i by omega]
  have hlt := x.isLt
  rw [hshift, BitVec.toNat_shiftLeft, BitVec.toNat_ushiftRight, Nat.shiftLeft_eq, Nat.shiftRight_eq_div_pow,
    Nat.mod_eq_of_lt (by omega)]
  omega

theorem toNat_shiftLeft_or (hb : b.toNat < 2 ^ k) (ha : a.toNat * 2 ^ k < 2 ^ n) :
    (a <<< k ||| b).toNat = a.toNat * 2 ^ k + b.toNat := by
  rw [BitVec.toNat_or, BitVec.toNat_shiftLeft, Nat.shiftLeft_eq, Nat.mod_eq_of_lt ha, Nat.mul_comm,
    Nat.two_pow_add_eq_or_of_lt hb]

theorem toNat_signExtend {v : Nat} (ha : 2 * a.toNat < 2 ^ n) (hv : n ≤ v) : (a.signExtend v).toNat = a.toNat := by
  rw [BitVec.signExtend_eq_setWidth_of_msb_false (BitVec.msb_eq_false_iff_two_mul_lt.mpr ha),
    BitVec.toNat_setWidth_of_le hv]

theorem neg_eq_not (a : BitVec n) : -a = ~~~(a - 1#n) := by
  rw [← BitVec.not_neg, BitVec.not_not]

section Masks

variable {mask : BitVec n}

/-- The words differ at most in the bits of the mask. -/
def AgreeOff (mask a b : BitVec n) : Prop := a &&& ~~~mask = b &&& ~~~mask

instance : Decidable (AgreeOff mask a b) := inferInstanceAs (Decidable (_ = _))

theorem agreeOff_and (h : c &&& ~~~mask = ~~~mask) : AgreeOff mask (a &&& c) b ↔ AgreeOff mask a b := by
  rw [AgreeOff, AgreeOff, BitVec.and_assoc, h]

theorem or_and_right (a b c : BitVec n) : (a ||| b) &&& c = (a &&& c) ||| (b &&& c) := by
  ext i
  simp [Bool.and_or_distrib_right]

theorem agreeOff_or (h : c &&& ~~~mask = 0#n) : AgreeOff mask (a ||| c) b ↔ AgreeOff mask a b := by
  rw [AgreeOff, AgreeOff, or_and_right, h, BitVec.or_zero]

theorem and_not_eq_self (h : a &&& b = 0#n) : a &&& ~~~b = a := by
  apply BitVec.eq_of_getLsbD_eq
  intro i hi
  have hbit := congrArg (·.getLsbD i) h
  simp only [BitVec.getLsbD_and, BitVec.getLsbD_zero] at hbit
  rw [BitVec.getLsbD_and, BitVec.getLsbD_not, decide_eq_true hi, Bool.true_and]
  cases ha : a.getLsbD i with
  | false => rfl
  | true =>
      rw [ha, Bool.true_and] at hbit
      rw [hbit]
      rfl

theorem or_and_ne_zero (h : c &&& b = b) (hb : b ≠ 0#n) : (a ||| c) &&& b ≠ 0#n := by
  rw [or_and_right, h]
  intro hzero
  apply hb
  apply BitVec.eq_of_getLsbD_eq
  intro i _
  have hbit := congrArg (·.getLsbD i) hzero
  simp only [BitVec.getLsbD_or, BitVec.getLsbD_zero, Bool.or_eq_false_iff] at hbit
  simpa using hbit.2

end Masks

end SysvDev.Word
