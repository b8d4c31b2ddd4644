import SysvDev.X86.Accesses
import SysvDev.X86.Strings
import Mathlib.Tactic.IntervalCases

namespace SysvDev.Subr.Strlen

open X86.Memory X86.Machine X86.Machine.Att X86.Run X86.Strings X86.Accesses Inevitable

inductive Label
  | strlen | strValid | strlenLoop | wordAligned | notWordAligned | nullFound
  deriving DecidableEq

namespace Amd64

def enter : List (Line Label) := [
  .label .strlen,
  .label .strValid,
  cmpb (.imm 0) (ind 0 .di),
  movq rdi rax,
  je .nullFound,
  .align 4]

def strlenLoop : List (Line Label) := [
  .label .strlenLoop,
  incq rdi,
  cmpb (.imm 0) (ind 0 .di),
  jne .strlenLoop]

def nullFound : List (Line Label) := [
  .label .nullFound,
  subq rax rdi,
  movq rdi rax,
  .ret 0]

def strlen : List (Line Label) := enter ++ strlenLoop ++ nullFound

end Amd64

namespace I386

def enter : List (Line Label) := [
  .label .strlen,
  .label .strValid,
  movl (ind 4 .sp) eax,
  testl (.imm 3) eax,
  jnz .notWordAligned,
  .align 4]

def wordLoop : List (Line Label) := [
  .label .wordAligned,
  movl (ind 0 .ax) edx,
  movl (.imm 0x7f7f7f7f) ecx,
  andl edx ecx,
  addl (.imm 4) eax,
  addl (.imm 0x7f7f7f7f) ecx,
  orl edx ecx,
  andl (.imm 0x80808080) ecx,
  cmpl (.imm 0x80808080) ecx,
  je .wordAligned,
  subl (.imm 4) eax]

def byteLoop : List (Line Label) := [
  .label .notWordAligned,
  cmpb (.imm 0) (ind 0 .ax),
  je .nullFound,
  incl eax,
  testl (.imm 3) eax,
  jnz .notWordAligned,
  .jmp .wordAligned,
  .align 4]

def nullFound : List (Line Label) := [
  .label .nullFound,
  subl (ind 4 .sp) eax,
  .ret 0]

def strlen : List (Line Label) := enter ++ wordLoop ++ byteLoop ++ nullFound

end I386

/-- The first NUL from `a` on is `k` bytes away. -/
def IsLength {w : Nat} (m : Mem w) (a : BitVec w) (k : Nat) : Prop :=
  m (a + BitVec.ofNat w k) = 0#8 ∧ ∀ i < k, m (a + BitVec.ofNat w i) ≠ 0#8

namespace I386

/-- The argument and the return address, the bytes of the string, and aligned
words with one of them. -/
def Allowed (a sp : BitVec 32) (k : Nat) (x : Span 32) : Prop :=
  x = (sp + 4#32, 4) ∨ x = (sp, 4) ∨ (∃ i ≤ k, x = (a + BitVec.ofNat 32 i, 1)) ∨
    x.2 = 4 ∧ x.1.toNat % 4 = 0 ∧ ∃ i ≤ k, (a + BitVec.ofNat 32 i - x.1).toNat < 4

def Reads (a sp : BitVec 32) (k : Nat) (s : State 32) (line : Line Label) : Prop :=
  ∀ x ∈ loads s line, Allowed a sp k x

structure Returned (s : State 32) (k : Nat) (d : Cfg 32) : Prop where
  ip : d.ip = (load 32 s.mem s.regs.sp).toNat
  ax : d.state.regs.ax = BitVec.ofNat 32 k
  sp : d.state.regs.sp = s.regs.sp + 4#32
  mem : d.state.mem = s.mem

section Words

/-- The test of a word: with `v & 0x7f7f7f7f` no byte carries into the next
one, so that the top bit of each byte of the sum tells whether the byte is
zero. -/
def allSet (v : BitVec 32) : Prop :=
  ((0x7f7f7f7f#32 &&& v) + 0x7f7f7f7f#32 ||| v) &&& 0x80808080#32 = 0x80808080#32

theorem and_tops_iff (x : BitVec 32) :
    x &&& 0x80808080#32 = 0x80808080#32 ↔ ∀ t < 4, x.getLsbD (8 * t + 7) = true := by
  have htops : ∀ i < 32, (0x80808080#32).getLsbD i = true → ∃ t < 4, i = 8 * t + 7 := by decide
  have hset : ∀ t < 4, (0x80808080#32).getLsbD (8 * t + 7) = true := by decide
  constructor
  · intro h t ht
    have hand := congrArg (fun y : BitVec 32 => y.getLsbD (8 * t + 7)) h
    simpa only [BitVec.getLsbD_and, hset t ht, Bool.and_true] using hand
  · intro h
    apply BitVec.eq_of_getLsbD_eq
    intro i hi
    rw [BitVec.getLsbD_and]
    cases hbit : (0x80808080#32).getLsbD i with
    | false => exact Bool.and_false _
    | true =>
        obtain ⟨t, ht, rfl⟩ := htops i hi hbit
        rw [h t ht]
        rfl

theorem and_low_digit (x : Nat) {t : Nat} (ht : t < 4) :
    (0x7f7f7f7f &&& x) / 256 ^ t % 256 = x / 256 ^ t % 128 := by
  have hpow : 256 ^ t = 2 ^ (8 * t) := by rw [Nat.pow_mul]
  have hmask : 0x7f7f7f7f / 2 ^ (8 * t) % 2 ^ 8 = 2 ^ 7 - 1 := by
    interval_cases t <;> rfl
  rw [hpow, Nat.and_div_two_pow, show 256 = 2 ^ 8 from rfl, Nat.and_mod_two_pow, hmask, Nat.and_comm,
    Nat.and_two_pow_sub_one_eq_mod]
  omega

theorem digit_sum {y : Nat} (hy : ∀ t < 4, y / 256 ^ t % 256 < 128) {t : Nat} (ht : t < 4) :
    (y + 0x7f7f7f7f) / 256 ^ t % 256 = y / 256 ^ t % 256 + 127 := by
  have h0 := hy 0 (by decide)
  have h1 := hy 1 (by decide)
  have h2 := hy 2 (by decide)
  have h3 := hy 3 (by decide)
  interval_cases t
  · omega
  · omega
  · omega
  · omega

theorem getLsbD_top (x : BitVec 32) (t : Nat) :
    x.getLsbD (8 * t + 7) = true ↔ x.toNat / 256 ^ t % 256 / 128 = 1 := by
  have hpow : 2 ^ (8 * t + 7) = 256 ^ t * 128 := by rw [Nat.pow_add, Nat.pow_mul]
  rw [BitVec.getLsbD, Nat.testBit_eq_decide_div_mod_eq, decide_eq_true_iff, hpow, ← Nat.div_div_eq_div_mul]
  omega

theorem allSet_iff (v : BitVec 32) : allSet v ↔ ∀ t < 4, v.toNat / 256 ^ t % 256 ≠ 0 := by
  have hlow (t : Nat) (ht : t < 4) := and_low_digit v.toNat ht
  have hlt : 0x7f7f7f7f &&& v.toNat ≤ 0x7f7f7f7f := Nat.and_le_left
  have hsum : ((0x7f7f7f7f#32 &&& v) + 0x7f7f7f7f#32).toNat = (0x7f7f7f7f &&& v.toNat) + 0x7f7f7f7f := by
    have hmask : (0x7f7f7f7f#32).toNat = 0x7f7f7f7f := rfl
    rw [BitVec.toNat_add, BitVec.toNat_and, hmask]
    exact Nat.mod_eq_of_lt (by omega)
  rw [allSet, and_tops_iff]
  apply forall₂_congr
  intro t ht
  rw [BitVec.getLsbD_or, Bool.or_eq_true, getLsbD_top, getLsbD_top, hsum, digit_sum _ ht, hlow t ht]
  · omega
  · intro t ht
    rw [hlow t ht]
    exact Nat.mod_lt _ (by decide)

theorem allSet_load_iff (m : Mem 32) (a : BitVec 32) :
    allSet (load 32 m a) ↔ ∀ t < 4, m (a + BitVec.ofNat 32 t) ≠ 0#8 := by
  rw [allSet_iff]
  apply forall₂_congr
  intro t ht
  rw [toNat_load_digit (by decide) ht, ne_eq, ne_eq, ← BitVec.toNat_inj]
  rfl

end Words

section Run

variable {a ax cx dx bx sp bp si di : BitVec 32} {hi : HighRegs 32} {fl : Flags} {df : Bool} {m : Mem 32} {k i : Nat}
  {P : Cfg 32 → Prop}

theorem and_three_iff (x : BitVec 32) : x &&& 3#32 = 0#32 ↔ x.toNat % 4 = 0 := by
  have hand : (x &&& 3#32).toNat = x.toNat % 4 := by
    rw [BitVec.toNat_and]
    exact Nat.and_two_pow_sub_one_eq_mod x.toNat 2
  rw [← hand, ← BitVec.toNat_inj]
  rfl

theorem until_null {s : State 32} (harg : load 32 m (sp + 4#32) = a) (hs : s.regs.sp = sp) (hmem : s.mem = m) :
    Until (Steps strlen) (Guard strlen (Reads a sp k)) (Returned s k)
      ⟨labelAddr strlen .nullFound, ⟨⟨a + BitVec.ofNat 32 k, cx, dx, bx, sp, bp, si, di, hi⟩, fl, df, m⟩⟩ := by
  subst hs hmem
  have hat : At strlen (labelAddr strlen .nullFound) nullFound := ⟨_, rfl⟩
  apply until_passes hat
  simp [nullFound, merge_word, Reads, loads, opLoads, ofOperand, ofPlace,
    difference_val, harg]
  exact ⟨.inl rfl, .inr (.inl rfl), .here ⟨rfl, rfl, rfl, rfl⟩⟩

theorem until_byte_next (hik : i < k) (hlen : IsLength m a k)
    (hbyte : ∀ fl', Until (Steps strlen) (Guard strlen (Reads a sp k)) P ⟨labelAddr strlen .notWordAligned,
        ⟨⟨a + BitVec.ofNat 32 (i + 1), cx, dx, bx, sp, bp, si, di, hi⟩, fl', df, m⟩⟩)
    (hword : ∀ fl', a + BitVec.ofNat 32 (i + 1) &&& 3#32 = 0#32 →
      Until (Steps strlen) (Guard strlen (Reads a sp k)) P ⟨labelAddr strlen .wordAligned,
        ⟨⟨a + BitVec.ofNat 32 (i + 1), cx, dx, bx, sp, bp, si, di, hi⟩, fl', df, m⟩⟩) :
    Until (Steps strlen) (Guard strlen (Reads a sp k)) P ⟨labelAddr strlen .notWordAligned,
      ⟨⟨a + BitVec.ofNat 32 i, cx, dx, bx, sp, bp, si, di, hi⟩, fl, df, m⟩⟩ := by
  have hat : At strlen (labelAddr strlen .notWordAligned) byteLoop := ⟨_, rfl⟩
  have hload : m (a + BitVec.ofNat 32 i) ≠ 0#8 := hlen.2 i hik
  have hone : a + BitVec.ofNat 32 i + 1#32 = a + BitVec.ofNat 32 (i + 1) := by
    rw [BitVec.add_assoc, ← BitVec.ofNat_add]
  have hallowed : Allowed a sp k (a + BitVec.ofNat 32 i, 1) := .inr (.inr (.inl ⟨i, hik.le, rfl⟩))
  apply until_passes hat
  by_cases halign : a + BitVec.ofNat 32 (i + 1) &&& 3#32 = 0#32
  · simpa [byteLoop, merge_word, Reads, loads, opLoads, ofOperand, ofPlace,
      increment_val, load_byte_eq, hload, hone, halign, hallowed] using hword _ halign
  · simpa [byteLoop, merge_word, Reads, loads, opLoads, ofOperand, ofPlace,
      increment_val, load_byte_eq, hload, hone, halign, hallowed] using hbyte _

theorem until_byte_null (hlen : IsLength m a k)
    (hnull : ∀ fl', Until (Steps strlen) (Guard strlen (Reads a sp k)) P ⟨labelAddr strlen .nullFound,
        ⟨⟨a + BitVec.ofNat 32 k, cx, dx, bx, sp, bp, si, di, hi⟩, fl', df, m⟩⟩) :
    Until (Steps strlen) (Guard strlen (Reads a sp k)) P ⟨labelAddr strlen .notWordAligned,
      ⟨⟨a + BitVec.ofNat 32 k, cx, dx, bx, sp, bp, si, di, hi⟩, fl, df, m⟩⟩ := by
  have hat : At strlen (labelAddr strlen .notWordAligned) byteLoop := ⟨_, rfl⟩
  have hallowed : Allowed a sp k (a + BitVec.ofNat 32 k, 1) := .inr (.inr (.inl ⟨k, le_rfl, rfl⟩))
  apply until_passes hat
  simpa [byteLoop, Reads, loads, opLoads, ofOperand, ofPlace,
    load_byte_eq, hlen.1, hallowed] using hnull _

theorem until_word (hik : i ≤ k) (hlen : IsLength m a k) (halign : a + BitVec.ofNat 32 i &&& 3#32 = 0#32)
    (hword : ∀ cx' dx' fl', i + 4 ≤ k → 
      Until (Steps strlen) (Guard strlen (Reads a sp k)) P ⟨labelAddr strlen .wordAligned,
        ⟨⟨a + BitVec.ofNat 32 (i + 4), cx', dx', bx, sp, bp, si, di, hi⟩, fl', df, m⟩⟩)
    (hbyte : ∀ cx' dx' fl', Until (Steps strlen) (Guard strlen (Reads a sp k)) P ⟨labelAddr strlen .notWordAligned,
        ⟨⟨a + BitVec.ofNat 32 i, cx', dx', bx, sp, bp, si, di, hi⟩, fl', df, m⟩⟩) :
    Until (Steps strlen) (Guard strlen (Reads a sp k)) P ⟨labelAddr strlen .wordAligned,
      ⟨⟨a + BitVec.ofNat 32 i, cx, dx, bx, sp, bp, si, di, hi⟩, fl, df, m⟩⟩ := by
  have hat : At strlen (labelAddr strlen .wordAligned) wordLoop := ⟨_, rfl⟩
  have hallowed : Allowed a sp k (a + BitVec.ofNat 32 i, 4) := by
    refine .inr (.inr (.inr ⟨rfl, (and_three_iff _).mp halign, i, hik, ?_⟩))
    rw [BitVec.sub_self]
    decide
  have hfour : a + BitVec.ofNat 32 i + 4#32 = a + BitVec.ofNat 32 (i + 4) := by
    rw [BitVec.add_assoc, ← BitVec.ofNat_add]
  have hoff (t : Nat) : a + BitVec.ofNat 32 i + BitVec.ofNat 32 t = a + BitVec.ofNat 32 (i + t) := by
    rw [BitVec.add_assoc, ← BitVec.ofNat_add]
  have hnull := allSet_load_iff m (a + BitVec.ofNat 32 i)
  simp only [hoff] at hnull
  apply until_passes hat
  by_cases htest : allSet (load 32 m (a + BitVec.ofNat 32 i))
  · -- no byte of the word is the NUL, which is therefore behind it
    have hbehind : i + 4 ≤ k := by
      by_contra hlt
      apply hnull.mp htest (k - i) (by omega)
      rw [Nat.add_sub_cancel' hik]
      exact hlen.1
    rw [allSet] at htest
    simpa [wordLoop, merge_word, Reads, loads, opLoads, ofOperand, ofPlace, sum_val, htest, hallowed, hoff 4] using
      hword _ _ _ hbehind
  · rw [allSet] at htest
    simp [wordLoop, merge_word, Reads, loads, opLoads, ofOperand, ofPlace, sum_val, difference_val, htest, hallowed]
    exact hbyte _ _ _

theorem until_loops {s : State 32} (hlen : IsLength m a k) (harg : load 32 m (sp + 4#32) = a) (hs : s.regs.sp = sp)
    (hmem : s.mem = m) (n : Nat) (hn : i + n = k) (hax : ax = a + BitVec.ofNat 32 i) :
    (∀ cx dx fl, Until (Steps strlen) (Guard strlen (Reads a sp k)) (Returned s k) ⟨labelAddr strlen .notWordAligned,
      ⟨⟨ax, cx, dx, bx, sp, bp, si, di, hi⟩, fl, df, m⟩⟩) ∧
    (ax &&& 3#32 = 0#32 →
      ∀ cx dx fl, Until (Steps strlen) (Guard strlen (Reads a sp k)) (Returned s k) ⟨labelAddr strlen .wordAligned,
        ⟨⟨ax, cx, dx, bx, sp, bp, si, di, hi⟩, fl, df, m⟩⟩) := by
  induction n using Nat.strong_induction_on generalizing i ax with
  | _ n ih =>
      subst hax
      -- the byte loop first: where the word loop finds the NUL it goes there with the same address
      have hbyte (cx dx : BitVec 32) (fl : Flags) :
          Until (Steps strlen) (Guard strlen (Reads a sp k)) (Returned s k) ⟨labelAddr strlen .notWordAligned,
            ⟨⟨a + BitVec.ofNat 32 i, cx, dx, bx, sp, bp, si, di, hi⟩, fl, df, m⟩⟩ := by
        rcases Nat.eq_zero_or_pos n with rfl | hpos
        · obtain rfl : i = k := hn
          apply until_byte_null hlen
          intro fl'
          exact until_null harg hs hmem
        · obtain ⟨hnext, hword⟩ := ih (n - 1) (by omega) (i := i + 1) (by omega) rfl
          exact until_byte_next (by omega) hlen (fun fl' => hnext _ _ fl') (fun fl' halign => hword halign _ _ fl')
      refine ⟨hbyte, fun halign cx dx fl => ?_⟩
      apply until_word (by omega) hlen halign _ hbyte
      intro cx' dx' fl' hbehind
      have halign' : a + BitVec.ofNat 32 (i + 4) &&& 3#32 = 0#32 := by
        rw [and_three_iff] at halign ⊢
        rw [BitVec.ofNat_add, ← BitVec.add_assoc, BitVec.toNat_add]
        simp only [BitVec.toNat_ofNat]
        omega
      exact (ih (n - 4) (by omega) (i := i + 4) (by omega) rfl).2 halign' cx' dx' fl'

theorem until_strlen {s : State 32} (hlen : IsLength s.mem a k) (harg : load 32 s.mem (s.regs.sp + 4#32) = a) :
    Until (Steps strlen) (Guard strlen (Reads a s.regs.sp k)) (Returned s k) ⟨labelAddr strlen .strlen, s⟩ := by
  have hat : At strlen (labelAddr strlen .strlen) enter := ⟨_, rfl⟩
  have hallowed : Allowed a s.regs.sp k (s.regs.sp + 4#32, 4) := .inl rfl
  apply until_passes hat
  by_cases halign : a &&& 3#32 = 0#32
  · simp [enter, merge_word, Reads, loads, opLoads, ofOperand, ofPlace, harg, halign, hallowed]
    exact (until_loops hlen harg rfl rfl k (Nat.zero_add k) (BitVec.add_zero a).symm).2 halign _ _ _
  · simpa [enter, merge_word, Reads, loads, opLoads, ofOperand, ofPlace, harg, halign, hallowed] using
      (until_loops hlen harg rfl rfl k (Nat.zero_add k) (BitVec.add_zero a).symm).1 _ _ _

end Run

end I386

namespace Amd64

variable {a ax cx dx bx sp bp si di : BitVec 64} {hi : HighRegs 64} {fl : Flags} {df : Bool} {m : Mem 64} {k i : Nat}
  {P : Cfg 64 → Prop}

theorem leads_loop (hlen : IsLength m a k) (n : Nat) (hn : i + 1 + n = k) (hdi : di = a + BitVec.ofNat 64 i)
    (h : ∀ fl', Leads (Steps strlen) ⟨labelAddr strlen .nullFound,
      ⟨⟨ax, cx, dx, bx, sp, bp, si, a + BitVec.ofNat 64 k, hi⟩, fl', df, m⟩⟩ P) :
    Leads (Steps strlen) ⟨labelAddr strlen .strlenLoop,
      ⟨⟨ax, cx, dx, bx, sp, bp, si, di, hi⟩, fl, df, m⟩⟩ P := by
  have hat : At strlen (labelAddr strlen .strlenLoop) strlenLoop := ⟨_, rfl⟩
  have hone : di + 1#64 = a + BitVec.ofNat 64 (i + 1) := by
    rw [hdi, BitVec.add_assoc, ← BitVec.ofNat_add]
  induction n generalizing i di fl with
  | zero =>
      obtain rfl : i + 1 = k := hn
      apply leads_run hat
      simp [strlenLoop, merge_quad, increment_val, load_byte_eq, hone, hlen.1]
      exact h _
  | succ n ih =>
      have hne : m (a + BitVec.ofNat 64 (i + 1)) ≠ 0#8 := hlen.2 (i + 1) (by omega)
      apply leads_run hat
      simp [strlenLoop, merge_quad, increment_val, load_byte_eq, hone, hne]
      apply ih (by omega) rfl
      rw [BitVec.add_assoc, ← BitVec.ofNat_add]

theorem leads_strlen {s : State 64} (hlen : IsLength s.mem s.regs.di k) :
    Leads (Steps strlen) ⟨labelAddr strlen .strlen, s⟩ fun d =>
      d.ip = (load 64 s.mem s.regs.sp).toNat ∧ d.state.regs.ax = BitVec.ofNat 64 k := by
  obtain ⟨⟨ax, cx, dx, bx, sp, bp, si, di, hi⟩, fl, df, m⟩ := s
  have hat : At strlen (labelAddr strlen .strlen) enter := ⟨_, rfl⟩
  have hnull : At strlen (labelAddr strlen .nullFound) nullFound := ⟨_, rfl⟩
  have hend (fl' : Flags) : Leads (Steps strlen) ⟨labelAddr strlen .nullFound,
      ⟨⟨di, cx, dx, bx, sp, bp, si, di + BitVec.ofNat 64 k, hi⟩, fl', df, m⟩⟩ fun d =>
        d.ip = (load 64 m sp).toNat ∧ d.state.regs.ax = BitVec.ofNat 64 k := by
    apply leads_run hnull
    simp [nullFound, merge_quad, difference_val]
    exact .here ⟨rfl, rfl⟩
  apply leads_run hat
  cases k with
  | zero =>
      have hzero : m di = 0#8 := by simpa using hlen.1
      rw [BitVec.add_zero] at hend
      simpa [enter, merge_quad, load_byte_eq, hzero] using hend _
  | succ k =>
      have hne : m di ≠ 0#8 := by simpa using hlen.2 0 (Nat.succ_pos k)
      simp [enter, merge_quad, load_byte_eq, hne]
      exact leads_loop hlen k (by omega) (BitVec.add_zero di).symm hend

end Amd64

/-- Both versions return the distance to the first NUL, and the one that goes
by words reads no word without a byte of the string. -/
theorem strlen_length {s : State 32} {s' : State 64} {a : BitVec 32} {k : Nat}
    (harg : load 32 s.mem (s.regs.sp + 4#32) = a) (hlen : IsLength s.mem a k)
    (hsame : ∀ i ≤ k, s'.mem (s'.regs.di + BitVec.ofNat 64 i) = s.mem (a + BitVec.ofNat 32 i)) :
    Until (Steps I386.strlen) (Guard I386.strlen (I386.Reads a s.regs.sp k)) (I386.Returned s k)
      ⟨labelAddr I386.strlen .strlen, s⟩ ∧
    Leads (Steps Amd64.strlen) ⟨labelAddr Amd64.strlen .strlen, s'⟩ fun d =>
      d.ip = (load 64 s'.mem s'.regs.sp).toNat ∧ d.state.regs.ax = BitVec.ofNat 64 k := by
  have hlen' : IsLength s'.mem s'.regs.di k := by
    refine ⟨(hsame k le_rfl).trans hlen.1, fun i hi => ?_⟩
    rw [hsame i hi.le]
    exact hlen.2 i hi
  exact ⟨I386.until_strlen hlen harg, Amd64.leads_strlen hlen'⟩

def letters {w : Nat} (a : BitVec w) : Mem w := fun b => if b = a then 0#8 else 0x61#8

def blank {w : Nat} (m : Mem w) : State w :=
  ⟨⟨0#w, 0#w, 0#w, 0#w, 0#w, 0#w, 0#w, 0#w, .zero⟩, undefinedFlags, false, m⟩

/-- The argument, on a stack that is full of letters too, is 0x61616161. -/
theorem strlen_length_two :
    (∃ d, Relation.ReflTransGen (Steps I386.strlen) ⟨labelAddr I386.strlen .strlen, blank (letters 0x61616163#32)⟩ d ∧
      d.state.regs.ax = 2#32) ∧
    Leads (Steps Amd64.strlen) ⟨labelAddr Amd64.strlen .strlen, blank (letters 2#64)⟩ fun d =>
      d.state.regs.ax = 2#64 := by
  obtain ⟨huntil, hleads⟩ := @strlen_length (blank (letters 0x61616163#32)) (blank (letters 2#64)) 0x61616161#32 2
    (by decide) ⟨by decide, by decide⟩ (by decide)
  obtain ⟨d, hd, hret⟩ := huntil.exists_end
  exact ⟨⟨d, hd, hret.ax⟩, hleads.mono fun d hd => hd.2⟩

end SysvDev.Subr.Strlen
