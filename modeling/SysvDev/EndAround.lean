import Mathlib.Data.Nat.ModEq

namespace SysvDev.EndAround

variable {M N n s s' t t' u x c : Nat}

/-- A sum `s` with end-around carries stands for the exact one `t`: they agree
modulo `M`, and only 0 stands for 0. -/
structure Stands (M s t : Nat) : Prop where
  modEq : s ≡ t [MOD M]
  zero : s = 0 ↔ t = 0

namespace Stands

theorem refl (M s : Nat) : Stands M s s := ⟨Nat.ModEq.refl s, Iff.rfl⟩

theorem symm (h : Stands M s t) : Stands M t s := ⟨h.modEq.symm, h.zero.symm⟩

theorem trans (h : Stands M s t) (h' : Stands M t u) : Stands M s u :=
  ⟨h.modEq.trans h'.modEq, h.zero.trans h'.zero⟩

theorem add (h : Stands M s t) (h' : Stands M s' t') : Stands M (s + s') (t + t') := by
  refine ⟨h.modEq.add h'.modEq, ?_⟩
  rw [Nat.add_eq_zero_iff, Nat.add_eq_zero_iff, h.zero, h'.zero]

theorem of_dvd (h : Stands M s t) (hN : N ∣ M) : Stands N s t := ⟨h.modEq.of_dvd hN, h.zero⟩

theorem carry (h : x + 2 ^ n * c = t) : Stands (2 ^ n - 1) (x + c) t := by
  have hpos := Nat.two_pow_pos n
  have hsplit : 2 ^ n * c = (2 ^ n - 1) * c + c := by
    rw [Nat.sub_mul, Nat.one_mul, Nat.sub_add_cancel (Nat.le_mul_of_pos_left c hpos)]
  constructor
  · have heq : t = x + c + (2 ^ n - 1) * c := by omega
    rw [Nat.ModEq, heq, Nat.add_mul_mod_self_left]
  · rw [← h, Nat.add_eq_zero_iff, Nat.add_eq_zero_iff, Nat.mul_eq_zero]
    omega

theorem unique (h : Stands M s t) (h' : Stands M s' t) (hs : s ≤ M) (hs' : s' ≤ M) : s = s' := by
  wlog hle : s ≤ s' generalizing s s'
  · exact (this h' h hs' hs (Nat.le_of_not_le hle)).symm
  have hdvd : M ∣ s' - s := (Nat.modEq_iff_dvd' hle).mp (h.modEq.trans h'.modEq.symm)
  have hzero : s = 0 ↔ s' = 0 := h.zero.trans h'.zero.symm
  by_contra hne
  have hbound := Nat.le_of_dvd (by omega) hdvd
  omega

end Stands

end SysvDev.EndAround
