import SysvDev.EndAround
import SysvDev.X86.Memory

namespace SysvDev.Checksum.Reference

open EndAround X86.Memory

variable {w n : Nat} {m m' : Mem w} {a : BitVec w} {psum sum : BitVec 32}

theorem toNat_halves (psum : BitVec 32) :
    ((psum &&& 0xffff#32) + (psum >>> 16)).toNat = psum.toNat % 2 ^ 16 + psum.toNat / 2 ^ 16 := by
  have hlt := psum.isLt
  have hlow : psum.toNat &&& 0xffff = psum.toNat % 2 ^ 16 := Nat.and_two_pow_sub_one_eq_mod _ 16
  rw [BitVec.toNat_add, BitVec.toNat_and, BitVec.toNat_ushiftRight, Nat.shiftRight_eq_div_pow, BitVec.toNat_ofNat]
  norm_num [hlow]
  omega

theorem ushiftRight_eq_zero (psum : BitVec 32) : psum >>> 16 = 0#32 ↔ psum.toNat < 2 ^ 16 := by
  rw [← BitVec.toNat_inj, BitVec.toNat_ushiftRight, Nat.shiftRight_eq_div_pow]
  norm_num [Nat.div_eq_zero_iff]

/-- `for (i = 0; i < halfword_count; i++, address++) psum += *address;` -/
def addHalfwords (m : Mem w) : Nat → BitVec w → BitVec 32 → BitVec 32
  | 0, _, psum => psum
  | n + 1, a, psum => addHalfwords m n (a + 2#w) (psum + (load 16 m a).setWidth 32)

/-- `while ((psum >> 16) != 0) psum = (psum & 0xffff) + (psum >> 16);` -/
def foldHalves (psum : BitVec 32) : BitVec 32 :=
  if psum >>> 16 ≠ 0#32 then foldHalves ((psum &&& 0xffff#32) + (psum >>> 16)) else psum
termination_by psum.toNat
decreasing_by
  next h =>
    rw [Ne, ushiftRight_eq_zero] at h
    rw [toNat_halves]
    omega

/-- The C version that stands beside the assembly. -/
def ipOcsum (m : Mem w) (address : BitVec w) (halfwordCount : Nat) (sum : BitVec 32) : BitVec 32 :=
  foldHalves (foldHalves (addHalfwords m halfwordCount address 0#32) + sum)

def total (m : Mem w) : Nat → BitVec w → Nat
  | 0, _ => 0
  | n + 1, a => (load 16 m a).toNat + total m n (a + 2#w)

theorem total_add (m : Mem w) (j n : Nat) (a : BitVec w) :
    total m (j + n) a = total m j a + total m n (a + BitVec.ofNat w (2 * j)) := by
  induction j generalizing a with
  | zero => simp [total]
  | succ j ih =>
      have haddr : a + 2#w + BitVec.ofNat w (2 * j) = a + BitVec.ofNat w (2 * (j + 1)) := by
        rw [BitVec.add_assoc, ← BitVec.ofNat_add, Nat.mul_succ, Nat.add_comm 2]
      rw [Nat.succ_add, total, total, ih, haddr, Nat.add_assoc]

theorem total_congr (h : ∀ i < 2 * n, m' (a + BitVec.ofNat w i) = m (a + BitVec.ofNat w i)) :
    total m' n a = total m n a := by
  induction n generalizing a with
  | zero => rfl
  | succ n ih =>
      have hfirst : load 16 m' a = load 16 m a := by
        rw [load, load]
        congr 1
        exact loadNat_congr fun i hi => h i (by omega)
      have hrest : total m' n (a + 2#w) = total m n (a + 2#w) := by
        apply ih
        intro i hi
        have hi' := h (2 + i) (by omega)
        rwa [BitVec.ofNat_add, ← BitVec.add_assoc] at hi'
      rw [total, total, hfirst, hrest]

theorem toNat_addHalfwords (h : psum.toNat + total m n a < 2 ^ 32) :
    (addHalfwords m n a psum).toNat = psum.toNat + total m n a := by
  induction n generalizing a psum with
  | zero => rfl
  | succ n ih =>
      have hhalf : ((load 16 m a).setWidth 32).toNat = (load 16 m a).toNat := by
        rw [BitVec.toNat_setWidth, Nat.mod_eq_of_lt]
        have hlt := (load 16 m a).isLt
        omega
      rw [total] at h
      have hsum : (psum + (load 16 m a).setWidth 32).toNat = psum.toNat + (load 16 m a).toNat := by
        rw [BitVec.toNat_add_of_lt (by omega), hhalf]
      rw [addHalfwords, ih (by omega), hsum, total, Nat.add_assoc]

theorem foldHalves_stands (psum : BitVec 32) : Stands 0xffff (foldHalves psum).toNat psum.toNat := by
  fun_induction foldHalves psum with
  | case1 psum h ih =>
      refine ih.trans ?_
      rw [toNat_halves]
      exact Stands.carry (n := 16) (Nat.mod_add_div _ _)
  | case2 psum h => exact Stands.refl _ _

theorem foldHalves_le (psum : BitVec 32) : (foldHalves psum).toNat ≤ 0xffff ∧ (foldHalves psum).toNat ≤ psum.toNat := by
  fun_induction foldHalves psum with
  | case1 psum h ih =>
      rw [toNat_halves] at ih
      omega
  | case2 psum h =>
      rw [not_not, ushiftRight_eq_zero] at h
      omega

/-- The C version, where no carry leaves 32 bits. -/
theorem ipOcsum_stands (h : sum.toNat + total m n a < 2 ^ 32) :
    Stands 0xffff (ipOcsum m a n sum).toNat (sum.toNat + total m n a) := by
  have hadd : (addHalfwords m n a 0#32).toNat = total m n a := by
    rw [toNat_addHalfwords (by simp only [BitVec.toNat_ofNat, Nat.zero_mod]; omega), BitVec.toNat_ofNat, Nat.zero_mod,
      Nat.zero_add]
  have hfirst := foldHalves_stands (addHalfwords m n a 0#32)
  have hle := (foldHalves_le (addHalfwords m n a 0#32)).2
  rw [hadd] at hfirst hle
  have hsecond := foldHalves_stands (foldHalves (addHalfwords m n a 0#32) + sum)
  rw [BitVec.toNat_add_of_lt (by omega)] at hsecond
  rw [Nat.add_comm sum.toNat]
  exact hsecond.trans (hfirst.add (Stands.refl _ _))

theorem ipOcsum_le : (ipOcsum m a n sum).toNat ≤ 0xffff := (foldHalves_le _).1

end SysvDev.Checksum.Reference
