import SysvDev.X86.Accesses
import SysvDev.X86.Strings

namespace SysvDev.Subr.Bcmp

open X86.Memory X86.Machine X86.Machine.Att X86.Run X86.Strings X86.Accesses Inevitable

inductive Label
  | bcmp | wordLoop | byteCheck | wordNotEqual | byteLoop | equal | notEqual
  deriving DecidableEq

abbrev argS1 : Int := 8

abbrev argS2 : Int := 12

abbrev argLength : Int := 16

def enter : List (Line Label) := [
  .label .bcmp,
  pushl edi,
  movl (ind argS1 .sp) eax,
  movl (ind argS2 .sp) ecx,
  cmpl eax ecx,
  je .equal,
  movl (ind argLength .sp) edi,
  cmpl (.imm 4) edi,
  jb .byteCheck,
  .align 4]

def wordLoop : List (Line Label) := [
  .label .wordLoop,
  movl (ind 0 .cx) edx,
  leal (-4) .di .di,
  cmpl (ind 0 .ax) edx,
  jne .wordNotEqual,
  leal 4 .cx .cx,
  leal 4 .ax .ax,
  cmpl (.imm 4) edi,
  jae .wordLoop]

def byteCheck : List (Line Label) := [
  .label .byteCheck,
  cmpl (.imm 0) edi,
  je .equal,
  .jmp .byteLoop]

def wordNotEqual : List (Line Label) := [
  .label .wordNotEqual,
  leal 4 .di .di,
  .align 4]

def byteLoop : List (Line Label) := [
  .label .byteLoop,
  movb (ind 0 .cx) dl,
  cmpb dl (ind 0 .ax),
  jne .notEqual,
  incl ecx,
  incl eax,
  decl edi,
  jnz .byteLoop]

def equal : List (Line Label) := [
  .label .equal,
  xorl eax eax,
  popl .di,
  .ret 0,
  .align 4]

def notEqual : List (Line Label) := [
  .label .notEqual,
  movl (.imm 1) eax,
  popl .di,
  .ret 0]

def bcmp : List (Line Label) := enter ++ wordLoop ++ byteCheck ++ wordNotEqual ++ byteLoop ++ equal ++ notEqual

def Same (m : Mem 32) (a b : BitVec 32) (n : Nat) : Prop :=
  ∀ i < n, m (a + BitVec.ofNat 32 i) = m (b + BitVec.ofNat 32 i)

/-- The words of the frame, from the saved register up, and the bytes to be
compared. -/
def Allowed (f a b : BitVec 32) (n : Nat) (x : Span 32) : Prop :=
  (∃ d ≤ 4, x = (f + BitVec.ofNat 32 (4 * d), 4)) ∨ (∃ i, x.1 = a + BitVec.ofNat 32 i ∧ i + x.2 ≤ n) ∨
    ∃ i, x.1 = b + BitVec.ofNat 32 i ∧ i + x.2 ≤ n

def Reads (f a b : BitVec 32) (n : Nat) (s : State 32) (line : Line Label) : Prop :=
  ∀ x ∈ loads s line, Allowed f a b n x

structure Returned (s : State 32) (m : Mem 32) (v : BitVec 32) (d : Cfg 32) : Prop where
  ip : d.ip = (load 32 s.mem s.regs.sp).toNat
  ax : d.state.regs.ax = v
  sp : d.state.regs.sp = s.regs.sp + 4#32
  di : d.state.regs.di = s.regs.di
  mem : d.state.mem = m

section Run

variable {f a b ax cx dx bx bp si di : BitVec 32} {hi : HighRegs 32} {fl : Flags} {df : Bool} {m : Mem 32} {n j k : Nat}
  {P : Cfg 32 → Prop} {s : State 32}

attribute [local simp] Reads loads opLoads ofOperand ofPlace merge_word

theorem next_byte (a : BitVec 32) (j : Nat) : a + BitVec.ofNat 32 j + 1#32 = a + BitVec.ofNat 32 (j + 1) := by
  rw [BitVec.add_assoc, ← BitVec.ofNat_add]

theorem next_word (a : BitVec 32) (j : Nat) : a + BitVec.ofNat 32 j + 4#32 = a + BitVec.ofNat 32 (j + 4) := by
  rw [BitVec.add_assoc, ← BitVec.ofNat_add]

theorem less_byte (k : Nat) : BitVec.ofNat 32 (k + 1) - 1#32 = BitVec.ofNat 32 k := by
  rw [BitVec.ofNat_add, BitVec.add_sub_cancel]

theorem ofNat_ne_zero (hk : 0 < k) (hlt : k < 2 ^ 32) : BitVec.ofNat 32 k ≠ 0#32 := by
  intro h
  have hnat := congrArg BitVec.toNat h
  simp only [BitVec.toNat_ofNat] at hnat
  omega

structure Frame (s : State 32) (f : BitVec 32) (m : Mem 32) : Prop where
  stack : s.regs.sp = f + 4#32
  di : load 32 m f = s.regs.di
  ret : load 32 m (f + 4#32) = load 32 s.mem s.regs.sp

theorem until_equal (hf : Frame s f m) :
    Until (Steps bcmp) (Guard bcmp (Reads f a b n)) (Returned s m 0#32) ⟨labelAddr bcmp .equal,
      ⟨⟨ax, cx, dx, bx, f, bp, si, di, hi⟩, fl, df, m⟩⟩ := by
  have hat : At bcmp (labelAddr bcmp .equal) equal := ⟨_, rfl⟩
  apply until_passes hat
  simp [equal]
  refine ⟨.inl ⟨0, by decide, by simp⟩, .inl ⟨1, by decide, by simp⟩, .here ⟨?_, rfl, ?_, hf.di, rfl⟩⟩
  · exact congrArg BitVec.toNat hf.ret
  · exact congrArg (· + 4#32) hf.stack.symm

theorem until_notEqual (hf : Frame s f m) :
    Until (Steps bcmp) (Guard bcmp (Reads f a b n)) (Returned s m 1#32) ⟨labelAddr bcmp .notEqual,
      ⟨⟨ax, cx, dx, bx, f, bp, si, di, hi⟩, fl, df, m⟩⟩ := by
  have hat : At bcmp (labelAddr bcmp .notEqual) notEqual := ⟨_, rfl⟩
  apply until_passes hat
  simp [notEqual]
  refine ⟨.inl ⟨0, by decide, by simp⟩, .inl ⟨1, by decide, by simp⟩, .here ⟨?_, rfl, ?_, hf.di, rfl⟩⟩
  · exact congrArg BitVec.toNat hf.ret
  · exact congrArg (· + 4#32) hf.stack.symm

def Answer (m : Mem 32) (a b : BitVec 32) (n : Nat) (v : BitVec 32) : Prop :=
  Same m a b n ∧ v = 0#32 ∨ ¬ Same m a b n ∧ v = 1#32

theorem until_byteLoop (hf : Frame s f m) (hsame : Same m a b j) (hk : 0 < k) (hn : j + k = n) (hlt : n < 2 ^ 32) :
    Until (Steps bcmp) (Guard bcmp (Reads f a b n)) (fun d => ∃ v, Answer m a b n v ∧ Returned s m v d)
      ⟨labelAddr bcmp .byteLoop,
        ⟨⟨a + BitVec.ofNat 32 j, b + BitVec.ofNat 32 j, dx, bx, f, bp, si, BitVec.ofNat 32 k, hi⟩, fl, df, m⟩⟩ := by
  have hat : At bcmp (labelAddr bcmp .byteLoop) byteLoop := ⟨_, rfl⟩
  induction k generalizing j dx fl with
  | zero => exact absurd hk (Nat.lt_irrefl 0)
  | succ k ih =>
      have ha : Allowed f a b n (a + BitVec.ofNat 32 j, 1) := .inr (.inl ⟨j, rfl, by omega⟩)
      have hb : Allowed f a b n (b + BitVec.ofNat 32 j, 1) := .inr (.inr ⟨j, rfl, by omega⟩)
      apply until_passes hat
      by_cases hbyte : m (a + BitVec.ofNat 32 j) = m (b + BitVec.ofNat 32 j)
      · have hsame' : Same m a b (j + 1) := by
          intro i hi
          rcases Nat.lt_succ_iff_lt_or_eq.mp hi with hi | rfl
          · exact hsame i hi
          · exact hbyte
        rcases Nat.eq_zero_or_pos k with rfl | hpos
        · obtain rfl : j + 1 = n := by omega
          simp [byteLoop, merge_low, increment_val, decrement_val, load_byte_eq, hbyte, ha, hb]
          exact (until_equal hf).mono (fun _ h => h) fun d hd => ⟨_, .inl ⟨hsame', rfl⟩, hd⟩
        · simpa [byteLoop, merge_low, increment_val, decrement_val, load_byte_eq, hbyte, ha, hb, less_byte, next_byte,
            ofNat_ne_zero hpos (by omega)] using ih hsame' hpos (by omega)
      · have hdiffer : ¬ Same m a b n := fun h => hbyte (h j (by omega))
        simpa [byteLoop, merge_low, load_byte_eq, hbyte, ha, hb] using
          (until_notEqual hf).mono (fun _ h => h) fun d hd => ⟨_, .inr ⟨hdiffer, rfl⟩, hd⟩

theorem until_byteCheck (hf : Frame s f m) (hsame : Same m a b j) (hn : j + k = n) (hlt : n < 2 ^ 32)
    (hax : ax = a + BitVec.ofNat 32 j) (hcx : cx = b + BitVec.ofNat 32 j) :
    Until (Steps bcmp) (Guard bcmp (Reads f a b n)) (fun d => ∃ v, Answer m a b n v ∧ Returned s m v d)
      ⟨labelAddr bcmp .byteCheck, ⟨⟨ax, cx, dx, bx, f, bp, si, BitVec.ofNat 32 k, hi⟩, fl, df, m⟩⟩ := by
  subst hax hcx
  have hat : At bcmp (labelAddr bcmp .byteCheck) byteCheck := ⟨_, rfl⟩
  apply until_passes hat
  rcases Nat.eq_zero_or_pos k with rfl | hpos
  · obtain rfl : j = n := by omega
    simpa [byteCheck] using (until_equal hf).mono (fun _ h => h) fun d hd => ⟨_, .inl ⟨hsame, rfl⟩, hd⟩
  · simpa [byteCheck, ofNat_ne_zero hpos (by omega)] using until_byteLoop hf hsame hpos hn hlt

/-- The words before `j` are the same, and at least one more is left. A word
that differs is looked at again byte by byte. -/
theorem until_wordLoop (hf : Frame s f m) (hsame : Same m a b j) (hk : 4 ≤ k) (hn : j + k = n) (hlt : n < 2 ^ 32)
    (hax : ax = a + BitVec.ofNat 32 j) (hcx : cx = b + BitVec.ofNat 32 j) :
    Until (Steps bcmp) (Guard bcmp (Reads f a b n)) (fun d => ∃ v, Answer m a b n v ∧ Returned s m v d)
      ⟨labelAddr bcmp .wordLoop, ⟨⟨ax, cx, dx, bx, f, bp, si, BitVec.ofNat 32 k, hi⟩, fl, df, m⟩⟩ := by
  have hat : At bcmp (labelAddr bcmp .wordLoop) wordLoop := ⟨_, rfl⟩
  have hback : At bcmp (labelAddr bcmp .wordNotEqual) wordNotEqual := ⟨_, rfl⟩
  induction k using Nat.strong_induction_on generalizing j ax cx dx fl with
  | _ k ih =>
      subst hax hcx
      obtain ⟨k, rfl⟩ := Nat.exists_eq_add_of_le' hk
      have ha : Allowed f a b n (a + BitVec.ofNat 32 j, 4) := .inr (.inl ⟨j, rfl, by omega⟩)
      have hb : Allowed f a b n (b + BitVec.ofNat 32 j, 4) := .inr (.inr ⟨j, rfl, by omega⟩)
      have hless : BitVec.ofNat 32 (k + 4) + 4294967292#32 = BitVec.ofNat 32 k := by
        rw [BitVec.ofNat_add, BitVec.add_assoc]
        exact BitVec.add_zero _
      have hmore : BitVec.ofNat 32 k + 4#32 = BitVec.ofNat 32 (k + 4) := by
        rw [BitVec.ofNat_add]
      have hnat : (BitVec.ofNat 32 k).toNat = k := by
        rw [BitVec.toNat_ofNat, Nat.mod_eq_of_lt (by omega)]
      apply until_passes hat
      by_cases hword : load 32 m (b + BitVec.ofNat 32 j) = load 32 m (a + BitVec.ofNat 32 j)
      · have hsame' : Same m a b (j + 4) := by
          intro i hi
          by_cases hij : i < j
          · exact hsame i hij
          · have hbyte := (load_eq_iff (by decide)).mp hword (i - j) (by omega)
            rw [BitVec.add_assoc, BitVec.add_assoc, ← BitVec.ofNat_add, Nat.add_sub_cancel' (Nat.le_of_not_lt hij)]
              at hbyte
            exact hbyte.symm
        rcases Nat.lt_or_ge k 4 with hshort | hlong
        · simp [wordLoop, hless, hword, next_word, ha, hb, hnat, hshort]
          exact until_byteCheck hf hsame' (by omega) hlt rfl rfl
        · simpa [wordLoop, hless, hword, next_word, ha, hb, hnat, Nat.not_lt.mpr hlong] using
            ih k (by omega) hsame' hlong (by omega) rfl rfl
      · simp [wordLoop, hless, hword, ha, hb]
        apply until_passes hback
        simp [wordNotEqual, hmore]
        exact until_byteLoop hf hsame (by omega) hn hlt

/-- The memory with the register variable saved, the only thing that is
written. -/
def saved (s : State 32) : Mem 32 := store s.mem (s.regs.sp - 4#32) s.regs.di

def s1 (s : State 32) : BitVec 32 := load 32 s.mem (s.regs.sp + 4#32)

def s2 (s : State 32) : BitVec 32 := load 32 s.mem (s.regs.sp + 8#32)

def length (s : State 32) : Nat := (load 32 s.mem (s.regs.sp + 12#32)).toNat

theorem load_saved (s : State 32) (d : Nat) (hd : d + 8 ≤ 2 ^ 32) :
    load 32 (saved s) (s.regs.sp - 4#32 + BitVec.ofNat 32 (d + 4)) = load 32 s.mem (s.regs.sp + BitVec.ofNat 32 d) := by
  have hslot : s.regs.sp + BitVec.ofNat 32 d = s.regs.sp - 4#32 + BitVec.ofNat 32 (d + 4) := by
    rw [BitVec.ofNat_add]
    ring
  rw [hslot]
  apply load_store_base
  rw [BitVec.toNat_ofNat]
  omega

theorem until_bcmp (s : State 32) :
    Until (Steps bcmp) (Guard bcmp (Reads (s.regs.sp - 4#32) (s1 s) (s2 s) (length s)))
      (fun d => ∃ v, Answer (saved s) (s1 s) (s2 s) (length s) v ∧ Returned s (saved s) v d)
      ⟨labelAddr bcmp .bcmp, s⟩ := by
  have hat : At bcmp (labelAddr bcmp .bcmp) enter := ⟨_, rfl⟩
  have hret := load_saved s 0 (by decide)
  rw [BitVec.add_zero] at hret
  have hf : Frame s (s.regs.sp - 4#32) (saved s) := ⟨(BitVec.sub_add_cancel ..).symm, load_store_word .., hret⟩
  have hsame : Same (saved s) (s1 s) (s2 s) 0 := fun i hi => absurd hi (Nat.not_lt_zero i)
  have hlt : length s < 2 ^ 32 := (load 32 s.mem (s.regs.sp + 12#32)).isLt
  have hlen : load 32 s.mem (s.regs.sp + 12#32) = BitVec.ofNat 32 (length s) := by
    rw [length, BitVec.ofNat_toNat, BitVec.setWidth_eq]
  have hnat : (BitVec.ofNat 32 (length s)).toNat = length s := by
    rw [BitVec.toNat_ofNat, Nat.mod_eq_of_lt hlt]
  have harg1 : load 32 (store s.mem (s.regs.sp - 4#32) s.regs.di) (s.regs.sp - 4#32 + 8#32) = s1 s :=
    load_saved s 4 (by decide)
  have harg2 : load 32 (store s.mem (s.regs.sp - 4#32) s.regs.di) (s.regs.sp - 4#32 + 12#32) = s2 s :=
    load_saved s 8 (by decide)
  have harg3 : load 32 (store s.mem (s.regs.sp - 4#32) s.regs.di) (s.regs.sp - 4#32 + 16#32) =
      BitVec.ofNat 32 (length s) := (load_saved s 12 (by decide)).trans hlen
  have hframe (d : Nat) (hd : d ≤ 4) : Allowed (s.regs.sp - 4#32) (s1 s) (s2 s) (length s)
      (s.regs.sp - 4#32 + BitVec.ofNat 32 (4 * d), 4) := .inl ⟨d, hd, rfl⟩
  apply until_passes hat
  by_cases heq : s2 s = s1 s
  · have hall : Same (saved s) (s1 s) (s2 s) (length s) := by
      intro i _
      rw [heq]
    have hjump : (difference (s1 s) (s2 s) false).2.zf = some true := by
      rw [difference_zf, decide_eq_true heq]
    simp [enter, harg1, harg2, hjump]
    refine ⟨hframe 2 (by decide), hframe 3 (by decide), ?_⟩
    exact (until_equal hf).mono (fun _ h => h) fun d hd => ⟨_, .inl ⟨hall, rfl⟩, hd⟩
  · rcases Nat.lt_or_ge (length s) 4 with hshort | hlong
    · simp [enter, harg1, harg2, harg3, heq, hnat, hshort]
      refine ⟨hframe 2 (by decide), hframe 3 (by decide), hframe 4 (by decide), ?_⟩
      exact until_byteCheck hf hsame (Nat.zero_add _) hlt (BitVec.add_zero _).symm (BitVec.add_zero _).symm
    · simp [enter, harg1, harg2, harg3, heq, hnat, hlong]
      refine ⟨hframe 2 (by decide), hframe 3 (by decide), hframe 4 (by decide), ?_⟩
      exact until_wordLoop hf hsame hlong (Nat.zero_add _) hlt (BitVec.add_zero _).symm (BitVec.add_zero _).symm

/-- The bytes are those of the call where no buffer is below the stack. -/
theorem same_saved_iff
    (h : ∀ i < length s, 4 ≤ (s1 s + BitVec.ofNat 32 i - (s.regs.sp - 4#32)).toNat ∧
      4 ≤ (s2 s + BitVec.ofNat 32 i - (s.regs.sp - 4#32)).toNat) :
    Same (saved s) (s1 s) (s2 s) (length s) ↔ Same s.mem (s1 s) (s2 s) (length s) := by
  have hbyte {b : BitVec 32} (hb : 4 ≤ (b - (s.regs.sp - 4#32)).toNat) : saved s b = s.mem b :=
    if_neg (Nat.not_lt.mpr hb)
  apply forall₂_congr
  intro i hi
  rw [hbyte (h i hi).1, hbyte (h i hi).2]

end Run

/-- The routine returns 0 or 1 as the bytes are the same or not, having read
none but them. -/
theorem bcmp_compares (s : State 32) :
    Until (Steps bcmp) (Guard bcmp (Reads (s.regs.sp - 4#32) (s1 s) (s2 s) (length s)))
      (fun d => ∃ v, Answer (saved s) (s1 s) (s2 s) (length s) v ∧ Returned s (saved s) v d)
      ⟨labelAddr bcmp .bcmp, s⟩ ∧
    ((∀ i < length s, 4 ≤ (s1 s + BitVec.ofNat 32 i - (s.regs.sp - 4#32)).toNat ∧
        4 ≤ (s2 s + BitVec.ofNat 32 i - (s.regs.sp - 4#32)).toNat) →
      (Same (saved s) (s1 s) (s2 s) (length s) ↔ Same s.mem (s1 s) (s2 s) (length s))) :=
  ⟨until_bcmp s, same_saved_iff⟩

def third : State 32 :=
  ⟨⟨0#32, 0#32, 0#32, 0#32, 0x1000#32, 0#32, 0#32, 0#32, .zero⟩,
    undefinedFlags, false,
    store (store (store (store (fun _ => 0#8) 0x1004#32 0x2000#32) 0x1008#32 0x3000#32) 0x100c#32 5#32) 0x3002#32 1#8⟩

theorem bcmp_compares_third :
    ∃ d, Relation.ReflTransGen (Steps bcmp) ⟨labelAddr bcmp .bcmp, third⟩ d ∧ d.state.regs.ax = 1#32 := by
  obtain ⟨huntil, hsame⟩ := bcmp_compares third
  obtain ⟨d, hd, v, hv, hret⟩ := huntil.exists_end
  have hdiffer : ¬ Same (saved third) (s1 third) (s2 third) (length third) := by
    rw [hsame (by decide +kernel)]
    exact fun h => absurd (h 2 (by decide +kernel)) (by decide +kernel)
  rcases hv with ⟨h, -⟩ | ⟨-, rfl⟩
  · exact absurd h hdiffer
  · exact ⟨d, hd, hret.ax⟩

end SysvDev.Subr.Bcmp
