import SysvDev.LongDivision
import SysvDev.Transition
import SysvDev.X86.Machine
import Mathlib.Tactic.IntervalCases

namespace SysvDev.X86.Run

open StateTransition Transition Word LongDivision Memory Machine

variable {w n : Nat} {L : Type} [DecidableEq L] {text : List (Line L)} {ip : Nat} {s : State w}

/-- The lines one after the other, up to the first jump that is taken. -/
def run (text : List (Line L)) (ip : Nat) (s : State w) : List (Line L) → Option (Cfg w)
  | [] => some ⟨ip, s⟩
  | line :: lines =>
      match execLine text ip s line with
      | none => none
      | some (t, none) => run text (ip + 1) t lines
      | some (t, some target) => some ⟨target, t⟩

/-- The text has these lines at `ip`. -/
abbrev At (text : List (Line L)) (ip : Nat) (lines : List (Line L)) : Prop := lines <+: text.drop ip

omit [DecidableEq L] in
theorem At.head {line : Line L} {lines : List (Line L)} (h : At text ip (line :: lines)) :
    text[ip]? = some line := by
  obtain ⟨rest, hrest⟩ := h
  rw [← List.head?_drop, ← hrest]
  rfl

omit [DecidableEq L] in
theorem At.tail {line : Line L} {lines : List (Line L)} (h : At text ip (line :: lines)) :
    At text (ip + 1) lines := by
  obtain ⟨rest, hrest⟩ := h
  refine ⟨rest, ?_⟩
  rw [← List.tail_drop, ← hrest]
  rfl

omit [DecidableEq L] in
theorem At.take {lines : List (Line L)} (h : At text ip lines) (j : Nat) : At text ip (lines.take j) :=
  (List.take_prefix j lines).trans h

omit [DecidableEq L] in
theorem At.drop {lines : List (Line L)} (h : At text ip lines) (j : Nat) : At text (ip + j) (lines.drop j) := by
  obtain ⟨rest, hrest⟩ := h
  by_cases hj : j ≤ lines.length
  · refine ⟨rest, ?_⟩
    rw [← List.drop_drop, ← hrest, List.drop_append_of_le_length hj]
  · rw [List.drop_eq_nil_of_le (by omega)]
    exact List.nil_prefix

abbrev Steps (text : List (Line L)) (c d : Cfg w) : Prop := d ∈ next text c

theorem steps_run {R : Cfg w → Cfg w → Prop} {lines : List (Line L)} {c : Cfg w} (h : At text ip lines)
    (hR : ∀ i t d, ip ≤ i → i < ip + lines.length → Steps text ⟨i, t⟩ d → R ⟨i, t⟩ d)
    (hc : run text ip s lines = some c) : Relation.ReflTransGen R ⟨ip, s⟩ c := by
  induction lines generalizing ip s with
  | nil =>
      obtain rfl := Option.some.inj hc
      exact Relation.ReflTransGen.refl
  | cons line lines ih =>
      have hline : text[ip]? = some line := h.head
      have hnext : next text ⟨ip, s⟩ = (execLine text ip s line).map fun r => ⟨r.2.getD (ip + 1), r.1⟩ := by
        simp only [next, hline, Option.bind_some]
      have hhead {d : Cfg w} (hd : next text ⟨ip, s⟩ = some d) : R ⟨ip, s⟩ d := by
        apply hR _ _ _ le_rfl _ hd
        rw [List.length_cons]
        omega
      have htail (i : Nat) (t : State w) (d : Cfg w) (hi : ip + 1 ≤ i) (hlt : i < ip + 1 + lines.length)
          (hd : Steps text ⟨i, t⟩ d) : R ⟨i, t⟩ d := by
        apply hR _ _ _ (Nat.le_of_succ_le hi) _ hd
        rw [List.length_cons]
        omega
      rw [run] at hc
      split at hc
      · cases hc
      · next t hexec =>
          rw [hexec] at hnext
          exact Relation.ReflTransGen.head (hhead hnext) (ih h.tail htail hc)
      · next t target hexec =>
          rw [hexec] at hnext
          obtain rfl := Option.some.inj hc
          exact Relation.ReflTransGen.single (hhead hnext)

section Rules

/-! One equation for each line. They are proved by `(rfl)` and not by `rfl`,
so that the simplifier rewrites with them and the kernel is not left to
unfold words of 32 bits. -/

variable {l : L} {lines : List (Line L)} {src : Operand} {dst : Place} {r : Reg}

@[simp] theorem run_nil : run text ip s [] = some ⟨ip, s⟩ := (rfl)

@[simp] theorem run_label : run text ip s (.label l :: lines) = run text (ip + 1) s lines := (rfl)

@[simp] theorem run_align {k : Nat} : run text ip s (.align k :: lines) = run text (ip + 1) s lines := (rfl)

@[simp] theorem run_jmp : run text ip s (.jmp l :: lines) = some ⟨labelAddr text l, s⟩ := (rfl)

@[simp] theorem run_call :
    run text ip s (.call l :: lines) = some ⟨labelAddr text l, s.push (BitVec.ofNat w (ip + 1))⟩ := (rfl)

@[simp] theorem run_callInd {a : Addr} :
    run text ip s (.callInd a :: lines) =
      some ⟨(load w s.mem (s.addr a)).toNat, s.push (BitVec.ofNat w (ip + 1))⟩ := (rfl)

@[simp] theorem run_callReg :
    run text ip s (.callReg r :: lines) = some ⟨(s.regs.get r).toNat, s.push (BitVec.ofNat w (ip + 1))⟩ := (rfl)

@[simp] theorem run_ret {k : Nat} :
    run text ip s (.ret k :: lines) = some ⟨(s.pop k).1.toNat, (s.pop k).2⟩ := (rfl)

@[simp] theorem run_jcc_taken {c : Cond} (h : c.eval s.flags = some true) :
    run text ip s (.jcc c l :: lines) = some ⟨labelAddr text l, s⟩ := by
  rw [run, execLine, h]
  rfl

@[simp] theorem run_jcc_not {c : Cond} (h : c.eval s.flags = some false) :
    run text ip s (.jcc c l :: lines) = run text (ip + 1) s lines := by
  rw [run, execLine, h]
  rfl

theorem run_op {o : Op} {t : State w} (h : exec s o = some t) :
    run text ip s (.op o :: lines) = run text (ip + 1) t lines := by
  rw [run, execLine, h]
  rfl

@[simp] theorem run_mov :
    run text ip s (.op (.mov n src dst) :: lines) = run text (ip + 1) (s.write (s.value n src) dst) lines := (rfl)

@[simp] theorem run_movz {k : Nat} {p : Place} :
    run text ip s (.op (.movz k n p dst) :: lines) =
      run text (ip + 1) (s.write ((s.read k p).setWidth n) dst) lines := (rfl)

@[simp] theorem run_movsx {k : Nat} {p : Place} :
    run text ip s (.op (.movsx k n p dst) :: lines) =
      run text (ip + 1) (s.write ((s.read k p).signExtend n) dst) lines := (rfl)

@[simp] theorem run_xchg {a b : Reg} :
    run text ip s (.op (.xchg n a b) :: lines) =
      run text (ip + 1) ((s.setReg a (s.read n (.reg b))).setReg b (s.read n (.reg a))) lines := (rfl)

@[simp] theorem run_xchgMem {a : Addr} :
    run text ip s (.op (.xchgMem n r a) :: lines) =
      run text (ip + 1) ((s.write (s.read n (.reg r)) (.mem a)).setReg r (s.read n (.mem a))) lines := (rfl)

@[simp] theorem run_lea {a : Addr} :
    run text ip s (.op (.lea a r) :: lines) = run text (ip + 1) (s.setReg r (s.addr a)) lines := (rfl)

@[simp] theorem run_leaLabel :
    run text ip s (.leaLabel l r :: lines) =
      run text (ip + 1) (s.setReg r (BitVec.ofNat w (labelAddr text l))) lines := (rfl)

@[simp] theorem run_push :
    run text ip s (.op (.push src) :: lines) = run text (ip + 1) (s.push (s.value w src)) lines := (rfl)

@[simp] theorem run_pop :
    run text ip s (.op (.pop r) :: lines) = run text (ip + 1) ((s.pop 0).2.setReg r (s.pop 0).1) lines := (rfl)

@[simp] theorem run_leave :
    run text ip s (.op .leave :: lines) = run text (ip + 1)
      (((s.setReg .sp s.regs.bp).pop 0).2.setReg .bp ((s.setReg .sp s.regs.bp).pop 0).1) lines := (rfl)

@[simp] theorem run_add :
    run text ip s (.op (.alu .add n src dst) :: lines) =
      run text (ip + 1) (s.put dst (sum (s.value n src) (s.read n dst) false)) lines := (rfl)

@[simp] theorem run_adc :
    run text ip s (.op (.alu .adc n src dst) :: lines) =
      match s.flags.cf with
      | none => none
      | some c => run text (ip + 1) (s.put dst (sum (s.value n src) (s.read n dst) c)) lines := by
  rw [run, execLine, exec, Alu.eval]
  cases s.flags.cf <;> rfl

@[simp] theorem run_sub :
    run text ip s (.op (.alu .sub n src dst) :: lines) =
      run text (ip + 1) (s.put dst (difference (s.value n src) (s.read n dst) false)) lines := (rfl)

@[simp] theorem run_sbb :
    run text ip s (.op (.alu .sbb n src dst) :: lines) =
      match s.flags.cf with
      | none => none
      | some c => run text (ip + 1) (s.put dst (difference (s.value n src) (s.read n dst) c)) lines := by
  rw [run, execLine, exec, Alu.eval]
  cases s.flags.cf <;> rfl

@[simp] theorem run_cmp :
    run text ip s (.op (.alu .cmp n src dst) :: lines) =
      run text (ip + 1) (s.setFlags (difference (s.value n src) (s.read n dst) false).2) lines := (rfl)

@[simp] theorem run_and :
    run text ip s (.op (.alu .and n src dst) :: lines) =
      run text (ip + 1) (s.put dst (logical (s.read n dst &&& s.value n src))) lines := (rfl)

@[simp] theorem run_test :
    run text ip s (.op (.alu .test n src dst) :: lines) =
      run text (ip + 1) (s.setFlags (logical (s.read n dst &&& s.value n src)).2) lines := (rfl)

@[simp] theorem run_or :
    run text ip s (.op (.alu .or n src dst) :: lines) =
      run text (ip + 1) (s.put dst (logical (s.read n dst ||| s.value n src))) lines := (rfl)

@[simp] theorem run_xor :
    run text ip s (.op (.alu .xor n src dst) :: lines) =
      run text (ip + 1) (s.put dst (logical (s.read n dst ^^^ s.value n src))) lines := (rfl)

@[simp] theorem run_neg :
    run text ip s (.op (.neg n dst) :: lines) = run text (ip + 1) (s.put dst (negative (s.read n dst))) lines := (rfl)

@[simp] theorem run_inc :
    run text ip s (.op (.inc n dst) :: lines) =
      run text (ip + 1) (s.put dst (increment s.flags.cf (s.read n dst))) lines := (rfl)

@[simp] theorem run_dec :
    run text ip s (.op (.dec n dst) :: lines) =
      run text (ip + 1) (s.put dst (decrement s.flags.cf (s.read n dst))) lines := (rfl)

@[simp] theorem run_shift {op : Shift} {count : Count} (h : count.eval s n ≠ 0) :
    run text ip s (.op (.shift op n count dst) :: lines) =
      run text (ip + 1) (s.put dst (op.eval (count.eval s n) (s.read n dst))) lines :=
  run_op (by rw [exec, if_neg h])

@[simp] theorem run_shiftDouble {op : Shift} (h : Count.cl.eval s n ≠ 0) (hn : Count.cl.eval s n ≤ n) :
    run text ip s (.op (.shiftDouble op n r dst) :: lines) =
      run text (ip + 1) (s.put dst (shiftDouble op (Count.cl.eval s n) (s.read n (.reg r)) (s.read n dst))) lines :=
  run_op (by rw [exec, if_neg h, if_neg (Nat.not_lt.mpr hn)])

@[simp] theorem run_bsr (h : s.value n src ≠ 0#n) :
    run text ip s (.op (.bsr n src r) :: lines) =
      run text (ip + 1) ((s.setReg r (BitVec.ofNat n (s.value n src).toNat.log2)).setFlags
        { undefinedFlags with zf := some false }) lines :=
  run_op (by rw [exec, if_neg h])

@[simp] theorem run_bsr_zero (h : s.value n src = 0#n) :
    run text ip s (.op (.bsr n src r) :: lines) =
      run text (ip + 1) (s.setFlags { undefinedFlags with zf := some true }) lines :=
  run_op (by rw [exec, if_pos h])

@[simp] theorem run_mul :
    run text ip s (.op (.mul n dst) :: lines) =
      run text (ip + 1) (((s.setReg .ax (s.read n (.reg .ax) * s.read n dst)).setReg .dx
        (highProduct (s.read n (.reg .ax)) (s.read n dst))).setFlags { undefinedFlags with
          cf := some (highProduct (s.read n (.reg .ax)) (s.read n dst) != 0#n),
          of := some (highProduct (s.read n (.reg .ax)) (s.read n dst) != 0#n) }) lines := (rfl)

theorem not_divideError {hi v : BitVec n} (lo : BitVec n) (h : hi.toNat < v.toNat) : ¬ DivideError hi lo v := by
  rintro (hzero | hle)
  · omega
  · exact hle (div_lt_radix h lo.isLt)

@[simp] theorem run_div (h : (s.read n (.reg .dx)).toNat < (s.read n dst).toNat) :
    run text ip s (.op (.div n dst) :: lines) =
      run text (ip + 1) (((s.setReg .ax (quotient (s.read n (.reg .dx)) (s.read n (.reg .ax)) (s.read n dst))).setReg
        .dx (remainder (s.read n (.reg .dx)) (s.read n (.reg .ax)) (s.read n dst))).setFlags undefinedFlags) lines :=
  run_op (by rw [exec, if_neg (not_divideError _ h)])

@[simp] theorem run_bswap :
    run text ip s (.op (.bswap r) :: lines) =
      run text (ip + 1) (s.setReg r (reverseBytes (s.read 32 (.reg r)))) lines := (rfl)

@[simp] theorem run_clc :
    run text ip s (.op .clc :: lines) = run text (ip + 1) (s.setFlags { s.flags with cf := some false }) lines := (rfl)

@[simp] theorem run_cld : run text ip s (.op .cld :: lines) = run text (ip + 1) { s with df := false } lines := (rfl)

@[simp] theorem run_std : run text ip s (.op .std :: lines) = run text (ip + 1) { s with df := true } lines := (rfl)

@[simp] theorem run_mfence : run text ip s (.op .mfence :: lines) = run text (ip + 1) s lines := (rfl)

@[simp] theorem run_prefetchnta {a : Addr} :
    run text ip s (.op (.prefetchnta a) :: lines) = run text (ip + 1) s lines := (rfl)

@[simp] theorem run_cli : run text ip s (.op .cli :: lines) = run text (ip + 1) s lines := (rfl)

@[simp] theorem run_readCr0 :
    run text ip s (.op (.readCr0 r) :: lines) = run text (ip + 1) (s.setReg r s.regs.hi.cr0) lines := (rfl)

@[simp] theorem run_writeCr0 :
    run text ip s (.op (.writeCr0 r) :: lines) = run text (ip + 1) (s.setCr0 (s.regs.get r)) lines := (rfl)

@[simp] theorem run_readCr4 :
    run text ip s (.op (.readCr4 r) :: lines) = run text (ip + 1) (s.setReg r s.regs.hi.cr4) lines := (rfl)

@[simp] theorem run_writeCr4 :
    run text ip s (.op (.writeCr4 r) :: lines) = run text (ip + 1) (s.setCr4 (s.regs.get r)) lines := (rfl)

@[simp] theorem run_writeCr8 :
    run text ip s (.op (.writeCr8 r) :: lines) = run text (ip + 1) (s.setCr8 (s.regs.get r)) lines := (rfl)

@[simp] theorem run_clts :
    run text ip s (.op .clts :: lines) =
      run text (ip + 1) (s.setCr0 (s.regs.hi.cr0 &&& ~~~BitVec.ofInt w CR0_TS)) lines := (rfl)

@[simp] theorem run_sahf :
    run text ip s (.op .sahf :: lines) =
      run text (ip + 1) (s.setFlags (ahFlags (s.read 16 (.reg .ax)) s.flags.of)) lines := (rfl)

@[simp] theorem run_fninit :
    run text ip s (.op .fninit :: lines) = run text (ip + 1) (s.setStatus s.regs.hi.fpu.initial) lines := (rfl)

@[simp] theorem run_fcompp :
    run text ip s (.op .fcompp :: lines) = run text (ip + 1) (s.setStatus s.regs.hi.fpu.compared) lines := (rfl)

@[simp] theorem run_fnstsw :
    run text ip s (.op .fnstsw :: lines) = run text (ip + 1) (s.setReg .ax s.regs.hi.fpu.status) lines := (rfl)

@[simp] theorem run_fwait : run text ip s (.op .fwait :: lines) = run text (ip + 1) s lines := (rfl)

@[simp] theorem run_fsetpm : run text ip s (.op .fsetpm :: lines) = run text (ip + 1) s lines := (rfl)

@[simp] theorem run_fld {a : Addr} : run text ip s (.op (.fld a) :: lines) = run text (ip + 1) s lines := (rfl)

@[simp] theorem run_fdivr : run text ip s (.op .fdivr :: lines) = run text (ip + 1) s lines := (rfl)

@[simp] theorem run_fxch : run text ip s (.op .fxch :: lines) = run text (ip + 1) s lines := (rfl)

@[simp] theorem run_fdiv {a : Addr} : run text ip s (.op (.fdiv a) :: lines) = run text (ip + 1) s lines := (rfl)

@[simp] theorem run_fxsave {a : Addr} (h : (s.addr a).toNat % 16 = 0) :
    run text ip s (.op (.fxsave a) :: lines) = run text (ip + 1) (s.fxsave (s.addr a)) lines :=
  run_op (by rw [exec, if_pos h])

@[simp] theorem run_jmpInd {a : Addr} :
    run text ip s (.jmpInd a :: lines) = some ⟨(load w s.mem (s.addr a)).toNat, s⟩ := (rfl)

@[simp] theorem run_rep_done {o : Op} (h : s.regs.cx = 0#w) :
    run text ip s (.rep o :: lines) = run text (ip + 1) s lines := by
  rw [run, execLine, if_pos h]

end Rules

@[simp] theorem sum_ofNat (k : Nat) (dst : BitVec n) :
    (sum (BitVec.ofNat n k) dst false).1 = dst + BitVec.ofNat n k := by
  simp [sum]

@[simp] theorem sum_zero (src : BitVec n) : (sum src 0#n false).1 = src := by
  simp [sum]

@[simp] theorem sum_zero_cf (src : BitVec n) : (sum src 0#n false).2.cf = some false := by
  simp [sum, resultFlags, src.isLt]

theorem sum_cf (src dst : BitVec n) (carry : Bool) :
    (sum src dst carry).2.cf = some (decide (2 ^ n ≤ dst.toNat + src.toNat + carry.toNat)) := (rfl)

@[simp] theorem difference_ofNat (k : Nat) (dst : BitVec n) :
    (difference (BitVec.ofNat n k) dst false).1 = dst - BitVec.ofNat n k := by
  simp [difference]

@[simp] theorem difference_cf (src dst : BitVec n) (borrow : Bool) :
    (difference src dst borrow).2.cf = some (decide (dst.toNat < src.toNat + borrow.toNat)) := (rfl)

@[simp] theorem difference_zf (src dst : BitVec n) :
    (difference src dst false).2.zf = some (decide (dst = src)) := by
  have heq : (dst - src == 0#n) = decide (dst = src) := by
    rw [Bool.eq_iff_iff, beq_iff_eq, decide_eq_true_iff]
    exact sub_eq_zero
  simp [difference, resultFlags, heq]

theorem difference_a (src dst : BitVec n) :
    Cond.a.eval (difference src dst false).2 = some (decide (src.toNat < dst.toNat)) := by
  rw [Cond.eval, difference_cf, difference_zf, Option.bind_some, Option.map_some, Option.some_inj, Bool.eq_iff_iff]
  simp only [Bool.not_eq_true', Bool.or_eq_false_iff, decide_eq_false_iff_not, decide_eq_true_iff, ← BitVec.toNat_inj,
    Bool.toNat_false]
  omega

/-- The sign of a difference, and whether it has overflowed, tell the smaller
number. -/
theorem bmod_lt_zero {z H : Int} {N : Nat} (hN : (N : Int) = 2 * H) (hlo : -(2 * H) < z) (hhi : z < 2 * H) :
    z.bmod N < 0 ↔ ¬ ((z < -H ∨ H ≤ z) ↔ z < 0) := by
  rw [Int.bmod_def, hN]
  by_cases hneg : z < 0
  · have hmod : z % (2 * H) = z + 2 * H := by
      rw [← Int.add_emod_right, Int.emod_eq_of_lt] <;> omega
    rw [hmod]
    split <;> omega
  · rw [Int.emod_eq_of_lt (by omega) hhi]
    split <;> omega

theorem difference_l (src dst : BitVec n) :
    Cond.l.eval (difference src dst false).2 = some (decide (dst.toInt < src.toInt)) := by
  cases n with
  | zero => simp [difference, resultFlags, signedOverflow, BitVec.of_length_zero]
  | succ n =>
      have hpow : (2 : Int) ^ (n + 1) = 2 * 2 ^ n := Int.pow_succ' ..
      have hsrc := src.two_mul_toInt_lt
      have hsrc' := src.le_two_mul_toInt
      have hdst := dst.two_mul_toInt_lt
      have hdst' := dst.le_two_mul_toInt
      have hsign : (dst - src).msb = decide (¬ ((dst.toInt - src.toInt < -2 ^ n ∨ 2 ^ n ≤ dst.toInt - src.toInt) ↔
          dst.toInt - src.toInt < 0)) := by
        rw [BitVec.msb_eq_toInt, BitVec.toInt_sub]
        apply decide_eq_decide.mpr
        exact bmod_lt_zero (by push_cast; exact hpow) (by omega) (by omega)
      simp only [difference, resultFlags, Cond.eval, Option.bind_some, Option.map_some, Bool.toNat_false, Int.ofNat_zero,
        BitVec.sub_zero, hsign, signedOverflow, Nat.add_sub_cancel]
      congr 1
      rw [Bool.eq_iff_iff, bne_iff_ne, Ne, decide_eq_decide, decide_eq_true_iff, sub_neg, sub_zero]
      grind

theorem difference_g (src dst : BitVec n) :
    Cond.g.eval (difference src dst false).2 = some (decide (src.toInt < dst.toInt)) := by
  have hl := difference_l src dst
  have hz := difference_zf src dst
  obtain ⟨sf, hsf⟩ : ∃ sf, (difference src dst false).2.sf = some sf := ⟨_, rfl⟩
  obtain ⟨o, ho⟩ : ∃ o, (difference src dst false).2.of = some o := ⟨_, rfl⟩
  rw [Cond.eval, hsf, ho, Option.bind_some, Option.map_some, Option.some_inj] at hl
  rw [Cond.eval, hsf, ho, hz, Option.bind_some, Option.bind_some, Option.map_some, Option.some_inj]
  rw [bne, Bool.not_eq_eq_eq_not] at hl
  rw [hl, Bool.eq_iff_iff]
  simp only [Bool.and_eq_true, Bool.not_eq_true', decide_eq_false_iff_not, decide_eq_true_iff, ← BitVec.toInt_inj]
  omega

theorem difference_le (src dst : BitVec n) :
    Cond.le.eval (difference src dst false).2 = some (decide (dst.toInt ≤ src.toInt)) := by
  have hg := difference_g src dst
  obtain ⟨z, hz⟩ : ∃ z, (difference src dst false).2.zf = some z := ⟨_, rfl⟩
  obtain ⟨sf, hsf⟩ : ∃ sf, (difference src dst false).2.sf = some sf := ⟨_, rfl⟩
  obtain ⟨o, ho⟩ : ∃ o, (difference src dst false).2.of = some o := ⟨_, rfl⟩
  rw [Cond.eval, hz, hsf, ho, Option.bind_some, Option.bind_some, Option.map_some, Option.some_inj] at hg
  rw [Cond.eval, hz, hsf, ho, Option.bind_some, Option.bind_some, Option.map_some, Option.some_inj]
  have hnot : (z || sf != o) = !(!z && sf == o) := by
    cases z <;> cases sf <;> cases o <;> rfl
  rw [hnot, hg, ← decide_not, decide_eq_decide, not_lt]

theorem sum_zf (src dst : BitVec n) : (sum src dst false).2.zf = some (dst + src == 0#n) := by
  simp [sum, resultFlags]

theorem sum_val (src dst : BitVec n) : (sum src dst false).1 = dst + src := by
  simp [sum]

theorem difference_val (src dst : BitVec n) : (difference src dst false).1 = dst - src := by
  simp [difference]

theorem decrement_val (cf : Option Bool) (v : BitVec n) : (decrement cf v).1 = v - 1#n := rfl

@[simp] theorem decrement_zf (cf : Option Bool) (v : BitVec n) : (decrement cf v).2.zf = some (v - 1#n == 0#n) := (rfl)

theorem increment_val (cf : Option Bool) (v : BitVec n) : (increment cf v).1 = v + 1#n := rfl

theorem shr_val (k : Nat) (v : BitVec n) : (Shift.eval .shr k v).1 = v >>> k := rfl

theorem shl_val (k : Nat) (v : BitVec n) : (Shift.eval .shl k v).1 = v <<< k := rfl

theorem toNat_sum (src dst : BitVec n) (carry : Bool) :
    (sum src dst carry).1.toNat + 2 ^ n * (decide (2 ^ n ≤ dst.toNat + src.toNat + carry.toNat)).toNat =
      dst.toNat + src.toNat + carry.toNat := by
  have hsrc := src.isLt
  have hdst := dst.isLt
  have hcarry : carry.toNat ≤ 1 := carry.toNat_le
  have hval : (sum src dst carry).1.toNat = (dst.toNat + src.toNat + carry.toNat) % 2 ^ n := by
    simp [sum]
  rw [hval]
  by_cases hout : 2 ^ n ≤ dst.toNat + src.toNat + carry.toNat
  · rw [decide_eq_true hout, Nat.mod_eq_sub_mod hout, Nat.mod_eq_of_lt (by omega), Bool.toNat_true]
    omega
  · rw [decide_eq_false hout, Nat.mod_eq_of_lt (by omega)]
    rfl

@[simp] theorem logical_val (v : BitVec n) : (logical v).1 = v := (rfl)

@[simp] theorem logical_zf (v : BitVec n) : (logical v).2.zf = some (v == 0#n) := (rfl)

@[simp] theorem logical_sf (v : BitVec n) : (logical v).2.sf = some v.msb := (rfl)

@[simp] theorem logical_of (v : BitVec n) : (logical v).2.of = some false := (rfl)

@[simp] theorem negative_cf (v : BitVec n) : (negative v).2.cf = some (v != 0#n) := (rfl)

theorem pair_difference (a b c d : BitVec n) :
    (difference c a (decide (b.toNat < d.toNat))).1 ++ (difference d b false).1 = (a ++ b) - (c ++ d) := by
  rw [← pair_sub]
  simp [difference]

/-- `negl`, `adcl $0` and `negl` on the two words of a number. -/
theorem pair_negative (a b : BitVec n) :
    (negative (sum 0#n a (b != 0#n)).1).1 ++ (negative b).1 = -(a ++ b) := by
  have hcarry : (b != 0#n) = decide (b ≠ 0#n) := by
    rw [Bool.eq_iff_iff, bne_iff_ne, decide_eq_true_iff]
  rw [hcarry, ← pair_neg, negative, negative, sum, BitVec.add_zero]

theorem pair_shl {k : Nat} (a b : BitVec n) (h0 : 0 < k) (hk : k < n) :
    (shiftDouble .shl k b a).1 ++ (Shift.eval .shl k b).1 = (a ++ b) <<< k := pair_shiftLeft a b h0 hk

theorem pair_shr {k : Nat} (a b : BitVec n) (h0 : 0 < k) (hk : k < n) :
    (Shift.eval .shr k a).1 ++ (shiftDouble .shr k a b).1 = (a ++ b) >>> k := pair_ushiftRight a b h0 hk

theorem pair_product (a b : BitVec n) : (highProduct a b ++ a * b).toNat = a.toNat * b.toNat := by
  have hlt : a.toNat * b.toNat / 2 ^ n < 2 ^ n := by
    rw [Nat.div_lt_iff_lt_mul (Nat.two_pow_pos n)]
    exact Nat.mul_lt_mul'' a.isLt b.isLt
  rw [toNat_pair, highProduct, BitVec.toNat_ofNat, Nat.mod_eq_of_lt hlt, BitVec.toNat_mul, Nat.mul_comm _ (2 ^ n),
    Nat.div_add_mod]

theorem toNat_quotient {hi v : BitVec n} (lo : BitVec n) (h : hi.toNat < v.toNat) :
    (quotient hi lo v).toNat = (hi.toNat * 2 ^ n + lo.toNat) / v.toNat := by
  rw [quotient, BitVec.toNat_ofNat, Nat.mod_eq_of_lt (div_lt_radix h lo.isLt)]

theorem toNat_remainder {hi v : BitVec n} (lo : BitVec n) (h : hi.toNat < v.toNat) :
    (remainder hi lo v).toNat = (hi.toNat * 2 ^ n + lo.toNat) % v.toNat := by
  have hlt : (hi.toNat * 2 ^ n + lo.toNat) % v.toNat < 2 ^ n :=
    Nat.lt_trans (Nat.mod_lt _ (Nat.zero_lt_of_lt h)) v.isLt
  rw [remainder, BitVec.toNat_ofNat, Nat.mod_eq_of_lt hlt]

theorem merge_long {n : Nat} (old : BitVec w) (v : BitVec n) (h : 32 ≤ n) : State.merge old v = v.setWidth w := if_pos h

theorem merge_quad (old v : BitVec 64) : State.merge old v = v := by
  simp [State.merge]

theorem merge_word (old v : BitVec 32) : State.merge old v = v := by
  simp [State.merge]

theorem merge_low (hw : 8 ≤ w) (old : BitVec w) (v : BitVec 8) : (State.merge old v).setWidth 8 = v := by
  apply BitVec.eq_of_getLsbD_eq
  intro i hi
  have hlt : i < w := by omega
  simp [State.merge, hi, hlt]

theorem merge_and (old : BitVec 32) {v : BitVec 8} (h : v.toNat < 32) : State.merge old v &&& 32#32 = 0#32 := by
  have hbit : v.getLsbD 5 = false := by
    rw [BitVec.getLsbD, Nat.testBit_lt_two_pow h]
  apply BitVec.eq_of_getLsbD_eq
  intro i hi
  have hlit : (32#32).getLsbD i = decide (i = 5) := by
    interval_cases i <;> rfl
  rw [BitVec.getLsbD_and, hlit]
  by_cases h5 : i = 5
  · subst h5
    simpa [State.merge] using hbit
  · simp [h5]

theorem load_store_word (m : Mem 32) (a v : BitVec 32) : load 32 (store m a v) a = v :=
  load_store_same m a v rfl (by decide)

theorem load_store_slot {m : Mem 32} {f c d v : BitVec 32}
    (h : c.toNat + 4 ≤ d.toNat ∧ d.toNat + 4 ≤ 4294967296 ∨
      d.toNat + 4 ≤ c.toNat ∧ c.toNat + 4 ≤ 4294967296) :
    load 32 (store m (f + c) v) (f + d) = load 32 m (f + d) := by
  apply load_store_apart (apart_add.mpr _)
  constructor
  · rcases toNat_sub_cases d c with ⟨h1, h2⟩ | ⟨h1, h2⟩ <;> omega
  · rcases toNat_sub_cases c d with ⟨h1, h2⟩ | ⟨h1, h2⟩ <;> omega

theorem load_store_base {m : Mem 32} {f d v : BitVec 32} (h : 4 ≤ d.toNat ∧ d.toNat + 4 ≤ 4294967296) :
    load 32 (store m f v) (f + d) = load 32 m (f + d) := by
  have hslot : load 32 (store m (f + 0#32) v) (f + d) = load 32 m (f + d) := load_store_slot (.inl h)
  rwa [BitVec.add_zero] at hslot

theorem load_byte (m : Mem w) (a : BitVec w) : load 8 m a = (load 32 m a).setWidth 8 := by
  apply BitVec.eq_of_toNat_eq
  simp only [load, loadNat, BitVec.toNat_setWidth, BitVec.toNat_ofNat, Nat.reduceDiv, Nat.reducePow]
  omega

/-- The run comes from `c` to a point with `P`. -/
def Leads (R : Cfg w → Cfg w → Prop) (c : Cfg w) (P : Cfg w → Prop) : Prop :=
  ∃ d, Relation.ReflTransGen R c d ∧ P d

section Leads

variable {R : Cfg w → Cfg w → Prop} {c : Cfg w} {P Q : Cfg w → Prop} {lines : List (Line L)}

theorem Leads.here (h : P c) : Leads R c P := ⟨c, Relation.ReflTransGen.refl, h⟩

theorem Leads.trans (h : Leads R c P) (hP : ∀ d, P d → Leads R d Q) : Leads R c Q := by
  obtain ⟨d, hcd, hd⟩ := h
  obtain ⟨e, hde, he⟩ := hP d hd
  exact ⟨e, hcd.trans hde, he⟩

theorem Leads.of_reaches {d : Cfg w} (h : Relation.ReflTransGen R c d) (hd : Leads R d P) : Leads R c P := by
  obtain ⟨e, hde, he⟩ := hd
  exact ⟨e, h.trans hde, he⟩

theorem Leads.mono (h : Leads R c P) (hP : ∀ d, P d → Q d) : Leads R c Q := h.trans fun d hd => .here (hP d hd)

/-- Run through the lines that stand at `ip`, and on from there, where `R`
does not keep the machine from a step of theirs. -/
theorem leads_run_of (h : At text ip lines)
    (hR : ∀ i t d, ip ≤ i → i < ip + lines.length → Steps text ⟨i, t⟩ d → R ⟨i, t⟩ d)
    (hrun : ∃ d, run text ip s lines = some d ∧ Leads R d P) : Leads R ⟨ip, s⟩ P := by
  obtain ⟨d, hd, e, hde, he⟩ := hrun
  exact ⟨e, (steps_run h hR hd).trans hde, he⟩

theorem leads_run (h : At text ip lines) (hrun : ∃ d, run text ip s lines = some d ∧ Leads (Steps text) d P) :
    Leads (Steps text) ⟨ip, s⟩ P :=
  leads_run_of h (fun _ _ _ _ _ hstep => hstep) hrun

/-- The dividend's high word is below the divisor, where a division is next. -/
def DivisionFits (text : List (Line L)) (c : Cfg w) : Prop :=
  ∀ n p, text[c.ip]? = some (.op (.div n p)) → (c.state.read n (.reg .dx)).toNat < (c.state.read n p).toNat

theorem divisionFits_of_steps {d : Cfg w} (h : Steps text c d) : DivisionFits text c := by
  intro n p hline
  have hfits : ¬ DivideError (c.state.read n (.reg .dx)) (c.state.read n (.reg .ax)) (c.state.read n p) := by
    intro herr
    have hexec : exec c.state (.div n p) = none := by
      rw [exec]
      exact if_pos herr
    have hnone : next text c = none := by
      rw [next, hline, Option.bind_some, execLine, hexec]
      rfl
    rw [Steps, hnone] at h
    cases h
  rw [DivideError, not_or, not_not] at hfits
  obtain ⟨hne, hlt⟩ := hfits
  rw [Nat.div_lt_iff_lt_mul (Nat.pos_of_ne_zero hne), Nat.mul_comm (2 ^ n)] at hlt
  exact Nat.lt_of_mul_lt_mul_right (Nat.lt_of_le_of_lt (Nat.le_add_right _ _) hlt)

/-- The run comes to a point with `P`, and no division on the way overflows. -/
def Completes (text : List (Line L)) (c : Cfg w) (P : Cfg w → Prop) : Prop :=
  ∃ d, Relation.ReflTransGen (Steps text) c d ∧ P d ∧
    ∀ e, Relation.ReflTransGen (Steps text) c e → Relation.TransGen (Steps text) e d → DivisionFits text e

theorem Leads.completes (h : Leads (Steps text) c P) (hP : ∀ d, P d → Q d) : Completes text c Q := by
  obtain ⟨d, hcd, hd⟩ := h
  refine ⟨d, hcd, hP d hd, fun e _ hed => ?_⟩
  obtain ⟨e', hstep, -⟩ := Relation.TransGen.head'_iff.mp hed
  exact divisionFits_of_steps hstep

end Leads

end SysvDev.X86.Run
