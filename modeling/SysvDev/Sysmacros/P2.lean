import SysvDev.Rounding
import SysvDev.Word

namespace SysvDev.Sysmacros.P2

open Rounding Word

variable {w : Nat}

/-! The macros, for a type of `w` bits. -/

def p2align (x align : BitVec w) : BitVec w := x &&& -align

def p2phase (x align : BitVec w) : BitVec w := x &&& (align - 1#w)

def p2nphase (x align : BitVec w) : BitVec w := -x &&& (align - 1#w)

def p2roundup (x align : BitVec w) : BitVec w := -(-x &&& -align)

def p2end (x align : BitVec w) : BitVec w := -(~~~x &&& -align)

def p2phaseup (x align phase : BitVec w) : BitVec w := phase - ((phase - x) &&& -align)

def p2cross (x y align : BitVec w) : Bool := x ^^^ y > align - 1#w

def p2samehighbit (x y : BitVec w) : Bool := x ^^^ y < x &&& y

variable {k : Nat} {x y align phase : BitVec w}

theorem toNat_sub_one (h : align.toNat = 2 ^ k) : (align - 1#w).toNat = 2 ^ k - 1 := by
  have hpos := Nat.two_pow_pos k
  have hlt := align.isLt
  have hone : (1#w).toNat ≤ align.toNat := by
    rw [h, BitVec.toNat_ofNat]
    exact (Nat.mod_le 1 _).trans hpos
  rw [BitVec.toNat_sub_of_le hone, h, BitVec.toNat_ofNat, Nat.mod_eq_of_lt]
  omega

theorem toNat_p2phase (h : align.toNat = 2 ^ k) : (p2phase x align).toNat = x.toNat % 2 ^ k :=
  toNat_and_low (toNat_sub_one h)

theorem toNat_p2align (h : align.toNat = 2 ^ k) : (p2align x align).toNat = rounddown x.toNat (2 ^ k) := by
  rw [p2align, neg_eq_not]
  exact toNat_and_high (toNat_sub_one h)

theorem p2align_eq_sub (x align : BitVec w) : p2align x align = x - p2phase x align := by
  rw [p2align, neg_eq_not]
  exact eq_sub_of_add_eq (and_not_add x (align - 1#w))

theorem p2nphase_eq (x align : BitVec w) : p2nphase x align = p2phase (-x) align := rfl

/-! What is rounded up is the number and a phase. -/

theorem p2roundup_eq_add (x align : BitVec w) : p2roundup x align = x + p2phase (-x) align := by
  have hdown : -x &&& -align = -x - p2phase (-x) align := p2align_eq_sub (-x) align
  rw [p2roundup, hdown]
  ring

theorem p2end_eq_add (x align : BitVec w) : p2end x align = x + 1#w + p2phase (~~~x) align := by
  have hdown : ~~~x &&& -align = ~~~x - p2phase (~~~x) align := p2align_eq_sub (~~~x) align
  rw [p2end, hdown, BitVec.not_eq_neg_add]
  ring

theorem p2phaseup_eq_add (x align phase : BitVec w) :
    p2phaseup x align phase = x + p2phase (phase - x) align := by
  have hdown : (phase - x) &&& -align = phase - x - p2phase (phase - x) align := p2align_eq_sub (phase - x) align
  rw [p2phaseup, hdown]
  ring

theorem two_pow_dvd (h : align.toNat = 2 ^ k) : 2 ^ k ∣ 2 ^ w := by
  have hlt := align.isLt
  rw [h] at hlt
  exact Nat.pow_dvd_pow 2 (Nat.pow_lt_pow_iff_right (by decide) |>.mp hlt).le

theorem add_p2phase_modEq (h : align.toNat = 2 ^ k) (x y : BitVec w) :
    x.toNat + (p2phase y align).toNat ≡ (x + y).toNat [MOD 2 ^ k] := by
  have hsum : (x + y).toNat ≡ x.toNat + y.toNat [MOD 2 ^ w] := by
    rw [BitVec.toNat_add]
    exact Nat.mod_modEq _ _
  rw [toNat_p2phase h]
  exact (Nat.ModEq.add_left _ (Nat.mod_modEq _ _)).trans (hsum.of_dvd (two_pow_dvd h)).symm

theorem p2phase_lt (h : align.toNat = 2 ^ k) : (p2phase x align).toNat < 2 ^ k := by
  rw [toNat_p2phase h]
  exact Nat.mod_lt _ (Nat.two_pow_pos k)

theorem toNat_add_not (x : BitVec w) : (x + ~~~x).toNat + 1 = 2 ^ w := by
  have hx := x.isLt
  rw [BitVec.add_not_self, BitVec.toNat_allOnes]
  omega

theorem isLeast_p2roundup (h : align.toNat = 2 ^ k) :
    IsLeast {m | 2 ^ k ∣ m ∧ x.toNat ≤ m} (x.toNat + (p2phase (-x) align).toNat) := by
  refine isLeast_dvd (p2phase_lt h) (Nat.modEq_zero_iff_dvd.mp ?_)
  have hmod := add_p2phase_modEq h x (-x)
  rwa [add_neg_cancel] at hmod

theorem isLeast_p2end (h : align.toNat = 2 ^ k) :
    IsLeast {m | 2 ^ k ∣ m ∧ x.toNat < m} (x.toNat + 1 + (p2phase (~~~x) align).toNat) := by
  refine isLeast_dvd (p2phase_lt h) (Nat.modEq_zero_iff_dvd.mp ?_)
  have hmod := (add_p2phase_modEq h x (~~~x)).add_right 1
  rw [toNat_add_not] at hmod
  rw [Nat.succ_add]
  exact hmod.trans (Nat.modEq_zero_iff_dvd.mpr (two_pow_dvd h))

theorem isLeast_p2phaseup (h : align.toNat = 2 ^ k) :
    IsLeast {m | x.toNat ≤ m ∧ m ≡ phase.toNat [MOD 2 ^ k]} (x.toNat + (p2phase (phase - x) align).toNat) := by
  refine isLeast_modEq (p2phase_lt h) ?_
  have hmod := add_p2phase_modEq h x (phase - x)
  rwa [add_sub_cancel] at hmod

theorem isLeast_p2nphase (h : align.toNat = 2 ^ k) : IsLeast {d | 2 ^ k ∣ x.toNat + d} (p2nphase x align).toNat := by
  obtain ⟨⟨hdvd, -⟩, hleast⟩ := isLeast_p2roundup (x := x) h
  refine ⟨hdvd, fun d hd => ?_⟩
  have hle := hleast ⟨hd, Nat.le_add_right _ d⟩
  rw [p2nphase_eq]
  omega

theorem p2cross_iff (h : align.toNat = 2 ^ k) :
    p2cross x y align = true ↔ x.toNat / 2 ^ k ≠ y.toNat / 2 ^ k := by
  have hpos := Nat.two_pow_pos k
  rw [p2cross, decide_eq_true_iff, gt_iff_lt, BitVec.lt_def, toNat_sub_one h, BitVec.toNat_xor, ne_eq,
    ← xor_lt_two_pow_iff]
  omega

theorem p2samehighbit_iff :
    p2samehighbit x y = true ↔ x.toNat ≠ 0 ∧ y.toNat ≠ 0 ∧ x.toNat.log2 = y.toNat.log2 := by
  rw [p2samehighbit, decide_eq_true_iff, BitVec.lt_def, BitVec.toNat_xor, BitVec.toNat_and, xor_lt_and_iff]

theorem toNat_twoPow (k : Fin w) : (BitVec.twoPow w k).toNat = 2 ^ k.val := by
  rw [BitVec.toNat_twoPow, Nat.mod_eq_of_lt (Nat.pow_lt_pow_right (by decide) k.isLt)]

/-- For an alignment of `2 ^ k`. What lies above the type is taken modulo
`2 ^ w`. -/
theorem p2_macros (k : Fin w) (x y phase : BitVec w) :
    IsGreatest {m | 2 ^ k.val ∣ m ∧ m ≤ x.toNat} (p2align x (.twoPow w k)).toNat ∧
    (p2phase x (.twoPow w k)).toNat = x.toNat % 2 ^ k.val ∧
    IsLeast {d | 2 ^ k.val ∣ x.toNat + d} (p2nphase x (.twoPow w k)).toNat ∧
    (∃ m, IsLeast {m | 2 ^ k.val ∣ m ∧ x.toNat ≤ m} m ∧ (p2roundup x (.twoPow w k)).toNat = m % 2 ^ w) ∧
    (∃ m, IsLeast {m | 2 ^ k.val ∣ m ∧ x.toNat < m} m ∧ (p2end x (.twoPow w k)).toNat = m % 2 ^ w) ∧
    (∃ m, IsLeast {m | x.toNat ≤ m ∧ m ≡ phase.toNat [MOD 2 ^ k.val]} m ∧
      (p2phaseup x (.twoPow w k) phase).toNat = m % 2 ^ w) ∧
    (p2cross x y (.twoPow w k) = true ↔ x.toNat / 2 ^ k.val ≠ y.toNat / 2 ^ k.val) ∧
    (p2samehighbit x y = true ↔ x.toNat ≠ 0 ∧ y.toNat ≠ 0 ∧ x.toNat.log2 = y.toNat.log2) := by
  have h := toNat_twoPow k
  refine ⟨?_, toNat_p2phase h, isLeast_p2nphase h, ⟨_, isLeast_p2roundup h, ?_⟩, ⟨_, isLeast_p2end h, ?_⟩,
    ⟨_, isLeast_p2phaseup h, ?_⟩, p2cross_iff h, p2samehighbit_iff⟩
  · rw [toNat_p2align h]
    exact isGreatest_rounddown (Nat.two_pow_pos _)
  · rw [p2roundup_eq_add, BitVec.toNat_add]
  · simp [p2end_eq_add, BitVec.toNat_add]
  · rw [p2phaseup_eq_add, BitVec.toNat_add]

end SysvDev.Sysmacros.P2
