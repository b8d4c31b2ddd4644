import SysvDev.Checksum.Reference
import SysvDev.X86.Run

namespace SysvDev.Checksum.Unrolled

open EndAround Reference X86.Memory X86.Machine X86.Machine.Att X86.Run

/-- `only k` is the place of the unrolled loop that adds the last `k` bytes. -/
inductive Label
  | ipOcsum | ipCsumAligned | nextIter | only (k : Nat) | ipOcsumDone | ipCsumNotaligned | lessThan32 | sizeAligned
  deriving DecidableEq

/-! The parts that the two versions share, where `w` is the width of a pointer. -/

def unrolled : List (Line Label) := [
  addl (ind 0 .si) edx,
  .label (.only 60), adcl (ind 4 .si) eax, .label (.only 56), adcl (ind 8 .si) edx,
  .label (.only 52), adcl (ind 12 .si) eax, .label (.only 48), adcl (ind 16 .si) edx,
  .label (.only 44), adcl (ind 20 .si) eax, .label (.only 40), adcl (ind 24 .si) edx,
  .label (.only 36), adcl (ind 28 .si) eax, .label (.only 32), adcl (ind 32 .si) edx,
  .label (.only 28), adcl (ind 36 .si) eax, .label (.only 24), adcl (ind 40 .si) edx,
  .label (.only 20), adcl (ind 44 .si) eax, .label (.only 16), adcl (ind 48 .si) edx,
  .label (.only 12), adcl (ind 52 .si) eax, .label (.only 8), adcl (ind 56 .si) edx,
  .label (.only 4), adcl (ind 60 .si) eax,
  .label (.only 0), adcl (.imm 0) eax, adcl (.imm 0) eax]

def begin32 : List (Line Label) := [.label .ipCsumAligned, .label .nextIter, subl (.imm 32) ecx, jl .lessThan32]

def end32 (w : Nat) (test : Line Label) : List (Line Label) := [
  .op (.alu .add w (.imm 64) (.reg .si)), test, jnz .nextIter]

def ipOcsumDone : List (Line Label) := [
  .label .ipOcsumDone, addl eax edx, adcl (.imm 0) edx, movl edx eax, shrl (.imm 16) eax, addw edx eax,
  adcw (.imm 0) eax, andl (.imm 0xffff) eax]

def ipCsumNotaligned (w : Nat) : List (Line Label) := [
  .label .ipCsumNotaligned, xorl edi edi, movw (ind 0 .si) edi, addl edi edx, adcl (.imm 0) edx,
  .op (.alu .add w (.imm 2) (.reg .si)), decl ecx, .jmp .ipCsumAligned]

def lessThan32 : List (Line Label) := [
  .label .lessThan32, addl (.imm 32) ecx, testl (.imm 1) ecx, jz .sizeAligned, andl (.imm 0xfe) ecx,
  movzwl (.mem (.index 0 .si .cx 2)) edi, addl edi edx, adcl (.imm 0) edx]

/-- `table` takes the address of the entry of the jump table to `%edi`. -/
def sizeAligned (w : Nat) (table : List (Line Label)) : List (Line Label) := [
  .label .sizeAligned, movl ecx edi, shrl (.imm 1) ecx, sall (.imm 1) edi, .op (.alu .sub w (.imm 64) (.reg .di)),
  .op (.alu .add w (.place (.reg .di)) (.reg .si))] ++ table ++ [
  xorl ecx ecx, .op .clc, .jmpInd (.base 0 .di)]

namespace Amd64

def entry : List (Line Label) := [
  .label .ipOcsum, pushq rbp, movq rsp rbp, movl esi ecx, movq rdi rsi, xorl eax eax, testl ecx ecx, jz .ipOcsumDone,
  testq (.imm 3) rsi, jnz .ipCsumNotaligned]

def exit : List (Line Label) := [.op .leave, .ret 0]

def table (jmptbl : Int) : List (Line Label) := [leaq (.abs jmptbl) .di, leaq (.index 0 .di .cx 8) .di]

def text (jmptbl : Int) : List (Line Label) :=
  entry ++ (begin32 ++ unrolled ++ end32 64 (testl ecx ecx)) ++ (ipOcsumDone ++ exit) ++ ipCsumNotaligned 64 ++
    (lessThan32 ++ sizeAligned 64 (table jmptbl))

end Amd64

namespace I386

def entry : List (Line Label) := [
  .label .ipOcsum, pushl ebp, movl esp ebp, pushl (.place (.reg .bx)), pushl esi, pushl edi, movl (ind 12 .bp) ecx,
  movl (ind 16 .bp) edx, movl (ind 8 .bp) esi, xorl eax eax, testl ecx ecx, jz .ipOcsumDone, testl (.imm 3) esi,
  jnz .ipCsumNotaligned]

def exit : List (Line Label) := [popl .di, popl .si, popl .bx, .op .leave, .ret 0]

def table (jmptbl : Int) : List (Line Label) := [movl (.imm jmptbl) edi, .op (.lea (.index 0 .di .cx 4) .di)]

def text (jmptbl : Int) : List (Line Label) :=
  entry ++ (begin32 ++ unrolled ++ end32 32 (andl ecx ecx)) ++ (ipOcsumDone ++ exit) ++ ipCsumNotaligned 32 ++
    (lessThan32 ++ sizeAligned 32 (table jmptbl))

end I386

section Chain

variable {w : Nat} {m : Mem w} {x : BitVec w} {k : Nat}

def doublewords (m : Mem w) : Nat → BitVec w → Nat
  | 0, _ => 0
  | k + 1, x => (load 32 m x).toNat + doublewords m k (x + 4#w)

theorem toNat_load_halves (m : Mem w) (x : BitVec w) :
    (load 16 m x).toNat + 2 ^ 16 * (load 16 m (x + 2#w)).toNat = (load 32 m x).toNat := by
  have haddr : x + 1#w + 1#w = x + 2#w := by rw [BitVec.add_assoc, ← BitVec.ofNat_add]
  have h0 := (m x).isLt
  have h1 := (m (x + 1#w)).isLt
  have h2 := (m (x + 2#w)).isLt
  have h3 := (m (x + 2#w + 1#w)).isLt
  simp only [load, loadNat, BitVec.toNat_ofNat, Nat.reduceDiv, haddr]
  omega

theorem total_stands (m : Mem w) (k : Nat) (x : BitVec w) :
    Stands 0xffff (total m (2 * k) x) (doublewords m k x) := by
  induction k generalizing x with
  | zero => exact Stands.refl _ _
  | succ k ih =>
      have haddr : x + 2#w + 2#w = x + 4#w := by rw [BitVec.add_assoc, ← BitVec.ofNat_add]
      rw [Nat.mul_succ, total, total, haddr, ← Nat.add_assoc]
      exact (Stands.carry (n := 16) (toNat_load_halves m x)).add (ih (x + 4#w))

/-- The lines of the unrolled loop from `only` on, for `k` doublewords. -/
def only : Nat → List (Line Label)
  | 0 => [.label (.only 0), adcl (.imm 0) eax, adcl (.imm 0) eax]
  | k + 1 =>
      .label (.only (4 * (k + 1))) :: adcl (ind (64 - 4 * (k + 1) : Nat) .si) (if k % 2 = 0 then eax else edx) :: only k

theorem sum_stands {n : Nat} (src dst : BitVec n) (c : Bool) :
    Stands (2 ^ n - 1) ((sum src dst c).1.toNat + (decide (2 ^ n ≤ dst.toNat + src.toNat + c.toNat)).toNat)
      (dst.toNat + src.toNat + c.toNat) :=
  Stands.carry (toNat_sum src dst c)

/-- A sum, and then the carry of it added with `adc $0`. One of the summands
is less than it can be, so that there is no carry again. -/
theorem sum_carry_stands {n : Nat} (src dst : BitVec n) (c : Bool)
    (h : dst.toNat + src.toNat + c.toNat + 1 < 2 ^ (n + 1)) :
    Stands (2 ^ n - 1) (sum 0#n (sum src dst c).1 (decide (2 ^ n ≤ dst.toNat + src.toNat + c.toNat))).1.toNat
      (dst.toNat + src.toNat + c.toNat) := by
  have hexact := toNat_sum src dst c
  have hlt := (sum src dst c).1.isLt
  have hadd : (sum 0#n (sum src dst c).1 (decide (2 ^ n ≤ dst.toNat + src.toNat + c.toNat))).1.toNat =
      (sum src dst c).1.toNat + (decide (2 ^ n ≤ dst.toNat + src.toNat + c.toNat)).toNat := by
    have hagain := toNat_sum 0#n (sum src dst c).1 (decide (2 ^ n ≤ dst.toNat + src.toNat + c.toNat))
    rw [Nat.pow_succ] at h
    rw [BitVec.toNat_ofNat, Nat.zero_mod, Nat.add_zero] at hagain
    rw [decide_eq_false (p := 2 ^ n ≤ (sum src dst c).1.toNat + _), Bool.toNat_false, Nat.mul_zero] at hagain
    · exact hagain
    · by_cases hout : 2 ^ n ≤ dst.toNat + src.toNat + c.toNat
      · simp only [hout, decide_true, Bool.toNat_true] at hexact ⊢
        omega
      · simp only [hout, decide_false, Bool.toNat_false] at hexact ⊢
        omega
  rw [hadd]
  exact sum_stands src dst c

variable {text : List (Line Label)} {ip : Nat} {ax cx dx bx sp bp si di : BitVec w} {hi : HighRegs w} {fl : Flags}
  {df : Bool} {rest : List (Line Label)} {c : Bool}

theorem low_setWidth (hw : 32 ≤ w) (v : BitVec 32) : (v.setWidth w).setWidth 32 = v := by
  rw [BitVec.setWidth_setWidth_of_le _ hw, BitVec.setWidth_eq]

theorem run_adcl_eax {src : Operand} {v : BitVec 32} (hc : fl.cf = some c)
    (hv : State.value 32 (⟨⟨ax, cx, dx, bx, sp, bp, si, di, hi⟩, fl, df, m⟩ : State w) src = v) :
    run text ip ⟨⟨ax, cx, dx, bx, sp, bp, si, di, hi⟩, fl, df, m⟩ (adcl src eax :: rest) =
      run text (ip + 1) ⟨⟨(sum v (ax.setWidth 32) c).1.setWidth w, cx, dx, bx, sp, bp, si, di, hi⟩,
        (sum v (ax.setWidth 32) c).2, df, m⟩ rest := by
  subst hv
  simp only [run_adc, hc]
  rfl

theorem run_adcl_edx {src : Operand} {v : BitVec 32} (hc : fl.cf = some c)
    (hv : State.value 32 (⟨⟨ax, cx, dx, bx, sp, bp, si, di, hi⟩, fl, df, m⟩ : State w) src = v) :
    run text ip ⟨⟨ax, cx, dx, bx, sp, bp, si, di, hi⟩, fl, df, m⟩ (adcl src edx :: rest) =
      run text (ip + 1) ⟨⟨ax, cx, (sum v (dx.setWidth 32) c).1.setWidth w, bx, sp, bp, si, di, hi⟩,
        (sum v (dx.setWidth 32) c).2, df, m⟩ rest := by
  subst hv
  simp only [run_adc, hc]
  rfl

theorem run_addl_edx {src : Operand} {v : BitVec 32}
    (hv : State.value 32 (⟨⟨ax, cx, dx, bx, sp, bp, si, di, hi⟩, fl, df, m⟩ : State w) src = v) :
    run text ip ⟨⟨ax, cx, dx, bx, sp, bp, si, di, hi⟩, fl, df, m⟩ (addl src edx :: rest) =
      run text (ip + 1) ⟨⟨ax, cx, (sum v (dx.setWidth 32) false).1.setWidth w, bx, sp, bp, si, di, hi⟩,
        (sum v (dx.setWidth 32) false).2, df, m⟩ rest := by
  subst hv
  rfl

theorem run_only (hw : 32 ≤ w) (hk : k ≤ 16) (hc : fl.cf = some c) :
    ∃ ax' dx' fl', run text ip ⟨⟨ax, cx, dx, bx, sp, bp, si, di, hi⟩, fl, df, m⟩ (only k ++ rest) =
        run text (ip + (2 * k + 3)) ⟨⟨ax', cx, dx', bx, sp, bp, si, di, hi⟩, fl', df, m⟩ rest ∧
      Stands (2 ^ 32 - 1) ((ax'.setWidth 32).toNat + (dx'.setWidth 32).toNat)
        ((ax.setWidth 32).toNat + (dx.setWidth 32).toNat + c.toNat +
          doublewords m k (si + BitVec.ofNat w (64 - 4 * k))) := by
  induction k generalizing ip ax dx fl c with
  | zero =>
      have hlt := (ax.setWidth 32).isLt
      have hsum := sum_carry_stands 0#32 (ax.setWidth 32) c (by have hle := c.toNat_le; rw [BitVec.toNat_ofNat]; omega)
      have hall := hsum.add (Stands.refl (2 ^ 32 - 1) (dx.setWidth 32).toNat)
      rw [only, List.cons_append, run_label, List.cons_append, run_adcl_eax (v := 0#32) hc rfl,
        List.cons_append, run_adcl_eax (v := 0#32) (sum_cf _ _ _) rfl]
      refine ⟨_, _, _, rfl, ?_⟩
      rw [low_setWidth hw, low_setWidth hw, doublewords]
      convert hall using 1
      rw [BitVec.toNat_ofNat, Nat.zero_mod]
      omega
  | succ k ih =>
      have haddr : si + BitVec.ofNat w (64 - 4 * (k + 1)) + 4#w = si + BitVec.ofNat w (64 - 4 * k) := by
        rw [BitVec.add_assoc, ← BitVec.ofNat_add]
        congr 2
        omega
      have hload (ax dx : BitVec w) (fl : Flags) :
          State.value 32 (⟨⟨ax, cx, dx, bx, sp, bp, si, di, hi⟩, fl, df, m⟩ : State w)
            (ind (64 - 4 * (k + 1) : Nat) .si) = load 32 m (si + BitVec.ofNat w (64 - 4 * (k + 1))) := by
        simp only [State.value, State.read, State.addr, Regs.get, BitVec.ofInt_natCast]
      generalize hv : load 32 m (si + BitVec.ofNat w (64 - 4 * (k + 1))) = v at hload
      rw [doublewords, haddr, hv]
      by_cases hpar : k % 2 = 0
      · obtain ⟨ax', dx', fl', hrun, hstands⟩ := ih
          (Nat.le_of_succ_le hk) (sum_cf v (ax.setWidth 32) c)
        refine ⟨ax', dx', fl', ?_, ?_⟩
        · rw [only, if_pos hpar, List.cons_append, run_label, List.cons_append, run_adcl_eax hc (hload ..), hrun]
          congr 1
          omega
        · rw [low_setWidth hw] at hstands
          have hsum := (sum_stands v (ax.setWidth 32) c).add
            (Stands.refl _ ((dx.setWidth 32).toNat + doublewords m k (si + BitVec.ofNat w (64 - 4 * k))))
          refine hstands.trans ?_
          convert hsum using 1
          · omega
          · omega
      · obtain ⟨ax', dx', fl', hrun, hstands⟩ := ih
          (Nat.le_of_succ_le hk) (sum_cf v (dx.setWidth 32) c)
        refine ⟨ax', dx', fl', ?_, ?_⟩
        · rw [only, if_neg hpar, List.cons_append, run_label, List.cons_append, run_adcl_edx hc (hload ..), hrun]
          congr 1
          omega
        · rw [low_setWidth hw] at hstands
          have hsum := (sum_stands v (dx.setWidth 32) c).add
            (Stands.refl _ ((ax.setWidth 32).toNat + doublewords m k (si + BitVec.ofNat w (64 - 4 * k))))
          refine hstands.trans ?_
          convert hsum using 1
          · omega
          · omega

end Chain

end SysvDev.Checksum.Unrolled
