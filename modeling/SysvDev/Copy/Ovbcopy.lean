import SysvDev.X86.Strings

namespace SysvDev.Copy.Ovbcopy

open X86.Memory X86.Machine X86.Machine.Att X86.Run X86.Strings

inductive Label
  | ovbcopy | reverse
  deriving DecidableEq

namespace Amd64

def entry : List (Line Label) := [
  .label .ovbcopy, xchgq .si .di, movq rdx rcx, movq rdi rax, subq rsi rax, cmpq rcx rax, jb .reverse]

def forwards : List (Line Label) := [
  shrq (.imm 3) rcx, .op .cld, .rep movsq, movq rdx rcx, andq (.imm 7) rcx, .rep movsb, .ret 0]

def backwards : List (Line Label) := [
  .label .reverse, addq rcx rdi, addq rcx rsi, decq rdi, decq rsi, andq (.imm 7) rcx, .op .std, .rep movsb,
  movq rdx rcx, shrq (.imm 3) rcx, subq (.imm 7) rsi, subq (.imm 7) rdi, .rep movsq, .op .cld, .ret 0]

def text : List (Line Label) := entry ++ forwards ++ backwards

end Amd64

namespace I386

def entry : List (Line Label) := [
  .label .ovbcopy, pushl esi, pushl edi, movl (ind 12 .sp) esi, movl (ind 16 .sp) edi, movl (ind 20 .sp) ecx,
  movl edi eax, subl esi eax, cmpl ecx eax, jb .reverse]

def forwards : List (Line Label) := [
  shrl (.imm 2) ecx, .op .cld, .rep movsl, movl (ind 20 .sp) ecx, andl (.imm 3) ecx, .rep movsb, popl .di, popl .si,
  .ret 0]

def backwards : List (Line Label) := [
  .label .reverse, addl ecx edi, addl ecx esi, decl edi, decl esi, andl (.imm 3) ecx, .op .std, .rep movsb,
  movl (ind 20 .sp) ecx, shrl (.imm 2) ecx, subl (.imm 3) esi, subl (.imm 3) edi, .rep movsl, popl .di, popl .si,
  .op .cld, .ret 0]

def text : List (Line Label) := entry ++ forwards ++ backwards

end I386

variable {w : Nat}

/-- A call may be made with these arguments: the ranges do not wrap around, and
touch neither the words that it pushes, `below` bytes, nor its return address
and arguments, `above` bytes. -/
structure Admits (o : State w) (below above : Nat) (src dst cnt : BitVec w) : Prop where
  src_end : src.toNat + cnt.toNat ≤ 2 ^ w
  dst_end : dst.toNat + cnt.toNat ≤ 2 ^ w
  src_outside : Outside (o.regs.sp - BitVec.ofNat w below) (below + above) src cnt.toNat
  dst_outside : Outside (o.regs.sp - BitVec.ofNat w below) (below + above) dst cnt.toNat

structure Moved (o : State w) (below : Nat) (saved : List Reg) (src dst cnt : BitVec w) (c : Cfg w) : Prop where
  ip : c.ip = (load w o.mem o.regs.sp).toNat
  sp : c.state.regs.sp = o.regs.sp + BitVec.ofNat w (w / 8)
  saved : ∀ r ∈ saved, c.state.regs.get r = o.regs.get r
  df : c.state.df = false
  moved : ∀ i < cnt.toNat, c.state.mem (dst + BitVec.ofNat w i) = o.mem (src + BitVec.ofNat w i)
  outside : ∀ b, cnt.toNat ≤ (b - dst).toNat → below ≤ (b - (o.regs.sp - BitVec.ofNat w below)).toNat →
    c.state.mem b = o.mem b

/-- The distance upwards that the routine compares with the count: a smaller
one is the overlap that calls for the other direction. -/
theorem distance_add_le {src dst cnt : BitVec w} (hsrc : src.toNat + cnt.toNat ≤ 2 ^ w)
    (hdst : dst.toNat + cnt.toNat ≤ 2 ^ w) (h : (dst - src).toNat < cnt.toNat) :
    (dst - src).toNat + cnt.toNat ≤ 2 ^ w := by
  have hsub := Word.toNat_sub_cases dst src
  omega

attribute [local simp] sum_val difference_val decrement_val shr_val

/-- The routine has returned with the memory `m`, where the stack pointer was
at the return address. -/
def Returns (bx sp bp : BitVec w) (m : Mem w) (P : Regs w → Prop) (c : Cfg w) : Prop :=
  c.ip = (load w m sp).toNat ∧ c.state.regs.sp = sp + BitVec.ofNat w (w / 8) ∧ c.state.regs.bx = bx ∧
    c.state.regs.bp = bp ∧ c.state.df = false ∧ c.state.mem = m ∧ P c.state.regs

theorem moved_of_returns {o : State w} {below above : Nat} {saved : List Reg} {src dst cnt : BitVec w} {m : Mem w}
    {P : Regs w → Prop} {c : Cfg w} (h : Admits o below above src dst cnt)
    (hm : ChangedIn (o.regs.sp - BitVec.ofNat w below) below o.mem m)
    (hret : load w m o.regs.sp = load w o.mem o.regs.sp) (hbelow : below < 2 ^ w) (habove : w / 8 ≤ above)
    (hsaved : ∀ g, g.bx = o.regs.bx → g.bp = o.regs.bp → P g → ∀ r ∈ saved, g.get r = o.regs.get r)
    (hc : Returns o.regs.bx o.regs.sp o.regs.bp (copied m src dst 0 cnt.toNat) P c) :
    Moved o below saved src dst cnt c := by
  obtain ⟨hip, hsp, hbx, hbp, hdf, hmem, hP⟩ := hc
  have hframe : (o.regs.sp - (o.regs.sp - BitVec.ofNat w below)).toNat = below := by
    rw [sub_sub_cancel, BitVec.toNat_ofNat, Nat.mod_eq_of_lt hbelow]
  refine ⟨?_, hsp, hsaved _ hbx hbp hP, hdf, ?_, ?_⟩
  · rw [hip, h.dst_outside.load copied_changedIn (by omega), hret]
  · intro i hi
    rw [hmem, copied_inside (Nat.le_of_lt cnt.isLt) (Nat.zero_le i) hi, hm]
    exact (Nat.le_add_right below above).trans (h.src_outside i hi)
  · intro b hb hpushed
    rw [hmem, copied_changedIn b hb, hm b hpushed]

section Amd64

variable {o : State 64} {ax cx dx bx sp bp si di src dst cnt : BitVec 64} {hi : HighRegs 64} {fl : Flags} {df : Bool}
  {m : Mem 64}

attribute [local simp] merge_quad shiftRight_three and_seven

theorem leads_forwards (h : cnt.toNat ≤ (dst - src).toNat) :
    Leads (Steps Amd64.text) ⟨7, ⟨⟨ax, cnt, cnt, bx, sp, bp, src, dst, hi⟩, fl, df, m⟩⟩
      (Returns bx sp bp (copied m src dst 0 cnt.toNat) fun g => g.hi = hi) := by
  have hat : At Amd64.text 7 Amd64.forwards := by decide +kernel
  have hbegin : At Amd64.text 7 (Amd64.forwards.take 2) := by decide +kernel
  have hmiddle : At Amd64.text 10 ((Amd64.forwards.drop 3).take 2) := by decide +kernel
  have hlast : At Amd64.text 13 [.ret 0] := by decide +kernel
  have hmem := moves_words (n := 64) (m := m) (by decide) h
  simp only [Nat.reduceDiv] at hmem
  apply leads_run hbegin
  simp [Amd64.forwards]
  apply leads_rep hat.tail.tail
  apply leads_run hmiddle
  simp [Amd64.forwards]
  apply leads_rep hat.tail.tail.tail.tail.tail
  apply leads_run hlast
  simp [hmem]
  exact .here ⟨rfl, rfl, rfl, rfl, rfl, rfl, rfl⟩

theorem leads_backwards (h : (dst - src).toNat + cnt.toNat ≤ 2 ^ 64) :
    Leads (Steps Amd64.text) ⟨14, ⟨⟨ax, cnt, cnt, bx, sp, bp, src, dst, hi⟩, fl, df, m⟩⟩
      (Returns bx sp bp (copied m src dst 0 cnt.toNat) fun g => g.hi = hi) := by
  have hat : At Amd64.text 14 Amd64.backwards := by decide +kernel
  have hbegin : At Amd64.text 14 (Amd64.backwards.take 7) := by decide +kernel
  have hmiddle : At Amd64.text 22 ((Amd64.backwards.drop 8).take 4) := by decide +kernel
  have hlast : At Amd64.text 27 [.op .cld, .ret 0] := by decide +kernel
  have hmem := movesDown_words (n := 64) (m := m) (by decide) h
  have hunit (a : BitVec 64) := sub_words (k := 8) a cnt (by decide)
  simp only [Nat.reduceDiv] at hmem
  apply leads_run hbegin
  simp [Amd64.backwards]
  apply leads_rep_down src dst cnt.toNat hat.tail.tail.tail.tail.tail.tail.tail
  · simp
  · simp
  · simp [Nat.mod_le]
  apply leads_run hmiddle
  simp [Amd64.backwards]
  apply leads_rep_down src dst _
    hat.tail.tail.tail.tail.tail.tail.tail.tail.tail.tail.tail.tail
  · exact hunit src
  · exact hunit dst
  · simp
  apply leads_run hlast
  simp [hmem]
  exact .here ⟨rfl, rfl, rfl, rfl, rfl, rfl, rfl⟩

theorem leads_amd64 (h : Admits o 0 8 o.regs.di o.regs.si o.regs.dx) :
    Leads (Steps Amd64.text) ⟨labelAddr Amd64.text .ovbcopy, o⟩
      (Moved o 0 [.bx, .bp, .r12, .r13, .r14, .r15] o.regs.di o.regs.si o.regs.dx) := by
  obtain ⟨⟨ax, cx, cnt, bx, sp, bp, dst, src, hi⟩, fl, df, m⟩ := o
  have hback : labelAddr Amd64.text .reverse = 14 := by decide +kernel
  have hat : At Amd64.text (labelAddr Amd64.text .ovbcopy) Amd64.entry := by decide +kernel
  have hstart : labelAddr Amd64.text .ovbcopy = 0 := by decide +kernel
  have hmoved (c : Cfg 64) (hc : Returns bx sp bp (copied m src dst 0 cnt.toNat) (fun g => g.hi = hi) c) :
      Moved ⟨⟨ax, cx, cnt, bx, sp, bp, dst, src, hi⟩, fl, df, m⟩ 0 [.bx, .bp, .r12, .r13, .r14, .r15] src dst cnt c := by
    refine moved_of_returns h (ChangedIn.refl _ _ _) rfl (by decide) (by decide) ?_ hc
    intro g hbx hbp hhi r hr
    cases r <;> simp_all
  rw [hstart] at hat ⊢
  apply leads_run hat
  by_cases hoverlap : (dst - src).toNat < cnt.toNat
  · simpa [Amd64.entry, hoverlap, hback, -BitVec.toNat_sub] using
      (leads_backwards (distance_add_le h.src_end h.dst_end hoverlap)).mono hmoved
  · simpa [Amd64.entry, hoverlap, -BitVec.toNat_sub] using (leads_forwards (Nat.le_of_not_lt hoverlap)).mono hmoved

end Amd64

section I386

variable {o : State 32} {ax cx dx bx f bp si di src dst cnt : BitVec 32} {hi : HighRegs 32} {fl : Flags} {df : Bool}
  {m : Mem 32}

attribute [local simp] merge_word shiftRight_two and_three

theorem load_frame {m' : Mem 32} (hout : Outside f 24 dst cnt.toNat) (hm : ChangedIn dst cnt.toNat m m') {d : Nat}
    (hd : d + 4 ≤ 24) : load 32 m' (f + BitVec.ofNat 32 d) = load 32 m (f + BitVec.ofNat 32 d) := by
  apply hout.load hm
  rw [add_ofNat_sub (by omega)]
  exact hd

theorem leads_forwards32 (hcnt : load 32 m (f + 20#32) = cnt) (hout : Outside f 24 dst cnt.toNat)
    (h : cnt.toNat ≤ (dst - src).toNat) :
    Leads (Steps I386.text) ⟨10, ⟨⟨ax, cnt, dx, bx, f, bp, src, dst, hi⟩, fl, df, m⟩⟩
      (Returns bx (f + 8#32) bp (copied m src dst 0 cnt.toNat) fun g =>
        g.di = load 32 m f ∧ g.si = load 32 m (f + 4#32)) := by
  have hat : At I386.text 10 I386.forwards := by decide +kernel
  have hbegin : At I386.text 10 (I386.forwards.take 2) := by decide +kernel
  have hmiddle : At I386.text 13 ((I386.forwards.drop 3).take 2) := by decide +kernel
  have hlast : At I386.text 16 [popl .di, popl .si, .ret 0] := by decide +kernel
  have hmem := moves_words (n := 32) (m := m) (by decide) h
  have hreload : load 32 (moves 32 m src dst (cnt.toNat / 4)) (f + 20#32) = cnt :=
    (load_frame hout (moves_changedIn (Nat.div_mul_le_self _ _)) (d := 20) (by decide)).trans hcnt
  have hchanged : ChangedIn dst cnt.toNat m (copied m src dst 0 cnt.toNat) := copied_changedIn
  have hdi := load_frame hout hchanged (d := 0) (by decide)
  have hsi := load_frame hout hchanged (d := 4) (by decide)
  simp only [Nat.reduceDiv] at hmem
  rw [BitVec.add_zero] at hdi
  apply leads_run hbegin
  simp [I386.forwards]
  apply leads_rep hat.tail.tail
  apply leads_run hmiddle
  simp [I386.forwards, hreload]
  apply leads_rep hat.tail.tail.tail.tail.tail
  apply leads_run hlast
  simp [hmem, hdi, hsi, BitVec.add_assoc]
  exact .here ⟨rfl, by simp [BitVec.add_assoc], rfl, rfl, rfl, rfl, rfl, rfl⟩

theorem leads_backwards32 (hcnt : load 32 m (f + 20#32) = cnt) (hout : Outside f 24 dst cnt.toNat)
    (h : (dst - src).toNat + cnt.toNat ≤ 2 ^ 32) :
    Leads (Steps I386.text) ⟨19, ⟨⟨ax, cnt, dx, bx, f, bp, src, dst, hi⟩, fl, df, m⟩⟩
      (Returns bx (f + 8#32) bp (copied m src dst 0 cnt.toNat) fun g =>
        g.di = load 32 m f ∧ g.si = load 32 m (f + 4#32)) := by
  have hat : At I386.text 19 I386.backwards := by decide +kernel
  have hbegin : At I386.text 19 (I386.backwards.take 7) := by decide +kernel
  have hmiddle : At I386.text 27 ((I386.backwards.drop 8).take 4) := by decide +kernel
  have hlast : At I386.text 32 [popl .di, popl .si, .op .cld, .ret 0] := by decide +kernel
  have hmem := movesDown_words (n := 32) (m := m) (by decide) h
  have hunit (a : BitVec 32) := sub_words (k := 4) a cnt (by decide)
  have hreload : load 32 (movesDown 8 m src dst cnt.toNat (cnt.toNat % 4)) (f + 20#32) = cnt :=
    (load_frame hout (movesDown_changedIn le_rfl (by omega) (Nat.le_of_lt cnt.isLt)) (d := 20) (by decide)).trans hcnt
  have hchanged : ChangedIn dst cnt.toNat m (copied m src dst 0 cnt.toNat) := copied_changedIn
  have hdi := load_frame hout hchanged (d := 0) (by decide)
  have hsi := load_frame hout hchanged (d := 4) (by decide)
  simp only [Nat.reduceDiv] at hmem
  rw [BitVec.add_zero] at hdi
  apply leads_run hbegin
  simp [I386.backwards]
  apply leads_rep_down src dst cnt.toNat hat.tail.tail.tail.tail.tail.tail.tail
  · simp
  · simp
  · simp [Nat.mod_le]
  apply leads_run hmiddle
  simp [I386.backwards, hreload]
  apply leads_rep_down src dst _
    hat.tail.tail.tail.tail.tail.tail.tail.tail.tail.tail.tail.tail
  · exact hunit src
  · exact hunit dst
  · simp
  apply leads_run hlast
  simp [hmem, hdi, hsi, BitVec.add_assoc]
  exact .here ⟨rfl, by simp [BitVec.add_assoc], rfl, rfl, rfl, rfl, rfl, rfl⟩

attribute [local simp] load_store_word load_store_slot load_store_base BitVec.add_assoc add_sub_assoc

theorem leads_i386 {src dst cnt : BitVec 32} (hsrc : src = load 32 o.mem (o.regs.sp + 4#32))
    (hdst : dst = load 32 o.mem (o.regs.sp + 8#32)) (hcnt : cnt = load 32 o.mem (o.regs.sp + 12#32))
    (h : Admits o 8 16 src dst cnt) :
    Leads (Steps I386.text) ⟨labelAddr I386.text .ovbcopy, o⟩ (Moved o 8 [.bx, .bp, .si, .di] src dst cnt) := by
  obtain ⟨⟨ax, cx, dx, bx, sp, bp, si, di, hi⟩, fl, df, m⟩ := o
  obtain ⟨f, rfl⟩ : ∃ f, sp = f + 8#32 := ⟨sp - 8#32, (sub_add_cancel sp 8#32).symm⟩
  have hframe : f + 8#32 - 8#32 = f := add_sub_cancel_right f 8#32
  have hout : Outside f 24 dst cnt.toNat := by simpa only [hframe] using h.dst_outside
  simp only [BitVec.add_assoc, BitVec.reduceAdd] at hsrc hdst hcnt
  have hpushed : ChangedIn (f + 8#32 - 8#32) 8 m (store (store m (f + 4#32) si) f di) := by
    have hdi := ((ChangedIn.refl f 8 m).store (v := si) (c := 4#32) (by decide)).store (v := di) (c := 0#32)
      (by decide)
    rw [BitVec.add_zero] at hdi
    rwa [hframe]
  have hmoved (c : Cfg 32) (hc : Returns bx (f + 8#32) bp
      (copied (store (store m (f + 4#32) si) f di) src dst 0 cnt.toNat) (fun g =>
        g.di = load 32 (store (store m (f + 4#32) si) f di) f ∧
        g.si = load 32 (store (store m (f + 4#32) si) f di) (f + 4#32)) c) :
      Moved ⟨⟨ax, cx, dx, bx, f + 8#32, bp, si, di, hi⟩, fl, df, m⟩ 8 [.bx, .bp, .si, .di] src dst cnt c := by
    refine moved_of_returns h hpushed ?_ (by decide) (by decide) ?_ hc
    · simp
    · intro g hbx hbp hpops r hr
      cases r <;> simp_all
  have hback : labelAddr I386.text .reverse = 19 := by decide +kernel
  have hat : At I386.text (labelAddr I386.text .ovbcopy) I386.entry := by decide +kernel
  have hstart : labelAddr I386.text .ovbcopy = 0 := by decide +kernel
  have hcount : load 32 (store (store m (f + 4#32) si) f di) (f + 20#32) = cnt := by
    simp [hcnt]
  rw [hstart] at hat ⊢
  apply leads_run hat
  by_cases hoverlap : (dst - src).toNat < cnt.toNat
  · simpa [I386.entry, hoverlap, hback, ← hsrc, ← hdst, ← hcnt, -BitVec.toNat_sub] using
      (leads_backwards32 hcount hout (distance_add_le h.src_end h.dst_end hoverlap)).mono hmoved
  · simpa [I386.entry, hoverlap, ← hsrc, ← hdst, ← hcnt, -BitVec.toNat_sub] using
      (leads_forwards32 hcount hout (Nat.le_of_not_lt hoverlap)).mono hmoved

end I386

/-- `ovbcopy` moves the bytes whichever way the ranges overlap. -/
theorem ovbcopy_moves :
    (∀ o : State 64, Admits o 0 8 o.regs.di o.regs.si o.regs.dx →
      Leads (Steps Amd64.text) ⟨labelAddr Amd64.text .ovbcopy, o⟩
        (Moved o 0 [.bx, .bp, .r12, .r13, .r14, .r15] o.regs.di o.regs.si o.regs.dx)) ∧
    ∀ (o : State 32) (src dst cnt : BitVec 32), src = load 32 o.mem (o.regs.sp + 4#32) →
      dst = load 32 o.mem (o.regs.sp + 8#32) → cnt = load 32 o.mem (o.regs.sp + 12#32) → Admits o 8 16 src dst cnt →
      Leads (Steps I386.text) ⟨labelAddr I386.text .ovbcopy, o⟩ (Moved o 8 [.bx, .bp, .si, .di] src dst cnt) :=
  ⟨fun _ h => leads_amd64 h, fun _ _ _ _ hsrc hdst hcnt h => leads_i386 hsrc hdst hcnt h⟩

def upwards64 : State 64 :=
  ⟨⟨0, 0, 5, 0, 0x1000, 0, 0x102, 0x100, .zero⟩, undefinedFlags, false, fun a => a.setWidth 8⟩

def upwards32 : State 32 :=
  ⟨⟨0, 0, 0, 0, 0x1000, 0, 0, 0, .zero⟩, undefinedFlags, false,
    store (store (store (fun a => a.setWidth 8) 0x1004#32 0x100#32) 0x1008#32 0x102#32) 0x100c#32 5#32⟩

theorem ovbcopy_moves_upwards :
    Leads (Steps Amd64.text) ⟨labelAddr Amd64.text .ovbcopy, upwards64⟩ (fun c => c.state.mem 0x106#64 = 4#8) ∧
    Leads (Steps I386.text) ⟨labelAddr I386.text .ovbcopy, upwards32⟩ (fun c => c.state.mem 0x106#32 = 4#8) := by
  have h64 : Admits upwards64 0 8 0x100#64 0x102#64 5#64 :=
    ⟨by decide, by decide, by unfold Outside; decide, by unfold Outside; decide⟩
  have h32 : Admits upwards32 8 16 0x100#32 0x102#32 5#32 :=
    ⟨by decide, by decide, by unfold Outside; decide, by unfold Outside; decide⟩
  constructor
  · exact (ovbcopy_moves.1 upwards64 h64).mono fun c hc => hc.moved 4 (by decide)
  · exact (ovbcopy_moves.2 upwards32 _ _ _ (by decide) (by decide) (by decide) h32).mono fun c hc =>
      hc.moved 4 (by decide)

end SysvDev.Copy.Ovbcopy
