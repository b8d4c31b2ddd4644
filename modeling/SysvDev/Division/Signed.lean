import SysvDev.Division.SDiv
import SysvDev.Division.SDivRem
import SysvDev.Division.SRem

namespace SysvDev.Division.Signed

open Word X86.Memory X86.Machine X86.Run Text Stack Interface

variable {o : State 32} {f : BitVec 32} {x y : BitVec 64} {name : Label}

attribute [local simp] merge_word load_store_word load_store_slot load_store_base BitVec.add_assoc
  add_sub_assoc

theorem leads_divrem64 (hat : At text (addr name) (.label name :: divrem64.tail)) (hlt : addr name < 2 ^ 31)
    (hsp : o.regs.sp = f + 148#32) (hx : load 64 o.mem (f + 152#32) = x) (hy : load 64 o.mem (f + 160#32) = y)
    (h0 : y ≠ 0#64) :
    Leads (Steps text) ⟨addr name, o⟩ fun c =>
      Returned o f 148 16 c ∧ c.state.regs.dx ++ c.state.regs.ax = x.sdiv y ∧
        c.state.regs.cx ++ c.state.regs.si = x.srem y := by
  obtain ⟨⟨ax, cx, dx, bx, sp, bp, si, di, hi⟩, fl, df, m⟩ := o
  obtain rfl : sp = f + 148#32 := hsp
  have hret : (addr name + 1 + 1 + 1 + 1 + 1 + 1 + 1 + 1 + 1) % 4294967296 =
      addr name + 1 + 1 + 1 + 1 + 1 + 1 + 1 + 1 + 1 := Nat.mod_eq_of_lt (by omega)
  have hlocals {v v' v'' v''' : BitVec 32} : ChangedIn f 148 m
      (store (store (store (store m (f + 124#32) v) (f + 120#32) v') (f + 116#32) v'') (f + 112#32) v''') :=
    ((((ChangedIn.refl f 148 m).store (by decide)).store (by decide)).store (by decide)).store (by decide)
  have hapart : Apart f 116 (f + 128#32) 8 := by
    have hslot : Apart (f + 0#32) 116 (f + 128#32) 8 := apart_add.mpr (by decide)
    rwa [BitVec.add_zero] at hslot
  have hpair := hx
  have hpair' := hy
  rw [load_pair] at hpair hpair'
  simp at hpair hpair'
  apply leads_run hat
  simp [divrem64]
  apply (SDivRem.leads_sDivRem (f := f) (r := f + 128#32) (y := y) ⟨rfl, by simp [load_pair, hpair'], by simp⟩
    hapart h0).trans
  rintro ⟨ip, ⟨⟨ax', cx', dx', bx', sp', bp', si', di', hi'⟩, fl', df', m'⟩⟩ hdivided
  have hout := hlocals.trans ((hdivided.changedIn (by decide)).mono (by decide))
  obtain ⟨hip, hsp, hbx, hbp, hsi, hdi, hq, hrem, -⟩ := hdivided
  simp [hpair] at hip hsp hbx hbp hsi hdi hq hrem
  rw [load_pair] at hrem
  simp at hrem
  subst hip hsp hbx hbp hsi hdi
  rw [hret]
  apply leads_run hat.tail.tail.tail.tail.tail.tail.tail.tail.tail
  simp
  refine .here ⟨⟨?_, ?_, rfl, rfl, rfl, hout⟩, hq, hrem⟩
  · exact congrArg BitVec.toNat (hout.above 148 (by decide) (by decide) (by decide) (by decide))
  · simp

inductive Routine
  | divdi3 | moddi3 | div64 | rem64 | sDivRem | divrem64

def Routine.entry : Routine → Entry
  | divdi3 => ⟨.divdi3, 84, 0, false, some .edxEax, none⟩
  | moddi3 => ⟨.moddi3, 104, 0, false, none, some .edxEax⟩
  | div64 => ⟨.div64, 84, 16, false, some .edxEax, none⟩
  | rem64 => ⟨.rem64, 104, 16, false, none, some .edxEax⟩
  | sDivRem => ⟨.sDivRem, 112, 0, true, some .edxEax, some .pmod⟩
  | divrem64 => ⟨.divrem64, 148, 16, false, some .edxEax, some .ecxEsi⟩

open Routine

theorem leads_routine_sDivRem (hy : sDivRem.entry.divisor o ≠ 0#64) (hr : sDivRem.entry.Fits o)
    (hf : o.regs.sp = f + 112#32) :
    Leads (Steps text) ⟨addr .sDivRem, o⟩ (sDivRem.entry.Divides BitVec.sdiv BitVec.srem o) := by
  have hbase : o.regs.sp - 112#32 = f := by rw [hf, BitVec.add_sub_cancel]
  have hdivisor : load 64 o.mem (f + 116#32) = sDivRem.entry.divisor o := by
    simp [Entry.divisor, Routine.entry, hf]
  have hpmod : load 32 o.mem (f + 124#32) = pmod o := by simp [pmod, hf]
  have hapart : Apart f 116 (pmod o) 8 := hbase ▸ hr rfl
  apply (SDivRem.leads_sDivRem ⟨hf, hdivisor, hpmod⟩ hapart hy).mono
  intro c h
  exact Entry.divides_pmod hf rfl rfl h.ip h.sp h.bx h.bp h.si h.di h.quotient h.remainder h.outside

theorem leads_routine (e : Routine) (o : State 32) (hy : e.entry.divisor o ≠ 0#64) (hr : e.entry.Fits o) :
    Leads (Steps text) ⟨addr e.entry.label, o⟩ (e.entry.Divides BitVec.sdiv BitVec.srem o) := by
  obtain ⟨f, hf⟩ : ∃ f, o.regs.sp = f + BitVec.ofNat 32 e.entry.depth :=
    ⟨o.regs.sp - BitVec.ofNat 32 e.entry.depth, (BitVec.sub_add_cancel _ _).symm⟩
  have hx := Entry.dividend_eq hf
  have hdivisor := Entry.divisor_eq hf
  cases e with
  | divdi3 =>
      apply (SDiv.leads_sdiv SDiv.placed_divdi3 hf (hx rfl) (hdivisor rfl) hy).mono
      exact fun c => Entry.divides_quotient hf rfl rfl
  | moddi3 =>
      apply (SRem.leads_srem SRem.placed_moddi3 hf (hx rfl) (hdivisor rfl) hy).mono
      exact fun c => Entry.divides_remainder hf rfl rfl
  | div64 =>
      apply (SDiv.leads_sdiv SDiv.placed_div64 hf (hx rfl) (hdivisor rfl) hy).mono
      exact fun c => Entry.divides_quotient hf rfl rfl
  | rem64 =>
      apply (SRem.leads_srem SRem.placed_rem64 hf (hx rfl) (hdivisor rfl) hy).mono
      exact fun c => Entry.divides_remainder hf rfl rfl
  | sDivRem => exact leads_routine_sDivRem hy hr hf
  | divrem64 =>
      apply (leads_divrem64 (by decide +kernel) (by decide +kernel) hf (hx rfl) (hdivisor rfl) hy).mono
      exact fun c h => Entry.divides_both hf rfl rfl h.1 h.2.1 h.2.2

/-- The quotient truncated towards zero, in as many bits as there are. -/
def truncated (x y : BitVec 64) : BitVec 64 := BitVec.ofInt 64 (x.toInt.tdiv y.toInt)

theorem sdiv_eq_truncated (x y : BitVec 64) : x.sdiv y = truncated x y := by
  apply BitVec.eq_of_toInt_eq
  rw [BitVec.toInt_sdiv, truncated, BitVec.toInt_ofInt]

/-- `r` is what the truncated quotient leaves, and not of the other sign
than `x`. -/
structure Leaves (x y r : BitVec 64) : Prop where
  rest : x = truncated x y * y + r
  lt : r.toInt.natAbs < y.toInt.natAbs
  sign : r.toInt = 0 ∨ r.toInt.sign = x.toInt.sign

theorem leaves_srem (hy : y ≠ 0#64) : Leaves x y (x.srem y) := by
  have hrem : x.srem y = BitVec.ofInt 64 (x.toInt.tmod y.toInt) := by
    rw [← BitVec.toInt_srem, BitVec.ofInt_toInt]
  have hne : y.toInt ≠ 0 := fun hzero => hy (BitVec.eq_of_toInt_eq hzero)
  constructor
  · calc x = BitVec.ofInt 64 (y.toInt * x.toInt.tdiv y.toInt + x.toInt.tmod y.toInt) := by
          rw [Int.mul_tdiv_add_tmod, BitVec.ofInt_toInt]
      _ = y * truncated x y + x.srem y := by
          rw [BitVec.ofInt_add, BitVec.ofInt_mul, BitVec.ofInt_toInt, truncated, hrem]
      _ = truncated x y * y + x.srem y := by rw [BitVec.mul_comm]
  · rw [BitVec.toInt_srem, Int.natAbs_tmod]
    exact Nat.mod_lt _ (Int.natAbs_pos.mpr hne)
  · rw [BitVec.toInt_srem, Int.sign_tmod]
    by_cases hdvd : y.toInt ∣ x.toInt
    · exact .inl (Int.tmod_eq_zero_of_dvd hdvd)
    · exact .inr (if_neg hdvd)

/-- Signed division, for all numbers but a divisor of zero: every routine
that returns a quotient returns the truncated one, and every routine that
returns a remainder returns what that quotient leaves. -/
theorem signed_division (e : Routine) (o : State 32) (hy : e.entry.divisor o ≠ 0#64) (hr : e.entry.Fits o) :
    Completes text ⟨addr e.entry.label, o⟩ (fun c => e.entry.Divides truncated BitVec.srem o c ∧
      ∀ p, e.entry.remainder = some p → Leaves (e.entry.dividend o) (e.entry.divisor o) (p.value o c)) := by
  have hsdiv : BitVec.sdiv = truncated := by
    funext x y
    exact sdiv_eq_truncated x y
  apply (leads_routine e o hy hr).completes
  rw [hsdiv]
  intro c hc
  refine ⟨hc, fun p hp => ?_⟩
  rw [hc.remainder p hp]
  exact leaves_srem hy

def leastByMinusOne : State 32 where
  regs := ⟨0#32, 0#32, 0x80000000#32, 0#32, 1000#32, 0#32, 0#32, 0#32, .zero⟩
  flags := undefinedFlags
  df := false
  mem := store (store (fun _ => 0#8) 1004#32 (-1#64)) 1012#32 2000#32

theorem signed_division_leastByMinusOne :
    Completes text ⟨addr .sDivRem, leastByMinusOne⟩ (fun c =>
      sDivRem.entry.Divides truncated BitVec.srem leastByMinusOne c ∧
        ∀ p, sDivRem.entry.remainder = some p →
          Leaves (sDivRem.entry.dividend leastByMinusOne) (sDivRem.entry.divisor leastByMinusOne)
            (p.value leastByMinusOne c)) :=
  signed_division .sDivRem leastByMinusOne (by decide +kernel) fun _ => by decide +kernel

end SysvDev.Division.Signed
