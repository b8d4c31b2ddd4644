import SysvDev.FpuProbe.Owns

namespace SysvDev.FpuProbe.Amd64

open Word X86.Memory X86.Machine X86.Machine.Att X86.Run X86.Cells X86.Words Inevitable
open Owns

inductive Label
  | fpuProbe | one | ignoreFpu | noFpuHw | done
  deriving DecidableEq

abbrev Line := X86.Machine.Line Label

section Text

variable (sym : Symbols)

def fpuProbe : List Line :=
  [ .label .fpuProbe,
    pushq rbp,
    movq rsp rbp,
    .op .clts,
    .op .fninit,
    .op .fnstsw,
    orb al al,
    jnz .noFpuHw,
    cmpl (.imm 0) (var sym.fpuExists),
    je .ignoreFpu ]

def chip : List Line :=
  [ .op (.readCr0 .dx),
    testl (.imm CR0_ET) edx,
    jz .noFpuHw,
    testl (.imm X86_SSE) (var sym.x86Feature),
    je .noFpuHw,
    testl (.imm X86_SSE2) (var sym.x86Feature),
    je .noFpuHw ]

def sse : List Line :=
  [ movl (.imm FP_SSE) (var sym.fpKind),
    .op (.readCr4 .ax),
    orq (.imm (CR4_OSFXSR + CR4_OSXMMEXCPT)) rax,
    .op (.writeCr4 .ax),
    orq (.imm (CR4_OSFXSR + CR4_OSXMMEXCPT)) (var sym.cr4Value),
    subq (.imm FXSAVE_STATE_SIZE) rsp,
    movl (.imm 0) (ind FXSAVE_STATE_MXCSR_MASK .sp),
    .op (.fxsave (.base 0 .sp)),
    movl (ind FXSAVE_STATE_MXCSR_MASK .sp) eax,
    cmpl (.imm 0) eax,
    je .one,
    movl eax (var sym.sseMxcsrMask) ]

def one : List Line :=
  [ .label .one,
    .op (.readCr0 .ax),
    andq (.imm (bitnot (CR0_TS + CR0_EM))) rdx,
    orq (.imm (CR0_MP + CR0_NE)) rdx,
    movl (.imm 1) (var sym.useSsePagecopy),
    movl (.imm 1) (var sym.useSsePagezero),
    movl (.imm 1) (var sym.useSseCopy),
    .jmp .done ]

def ignoreFpu : List Line :=
  [ .label .ignoreFpu,
    movl (.imm 1) (var sym.fpuIgnored) ]

def noFpuHw : List Line :=
  [ .label .noFpuHw,
    andq (.imm (bitnot CR0_MP)) rdx,
    orq (.imm CR0_EM) rdx,
    movl (.imm FP_NO) (var sym.fpKind),
    movl (.imm 0) (var sym.fpuExists),
    .op (.readCr4 .ax),
    andq (.imm (bitnot (CR4_OSFXSR + CR4_OSXMMEXCPT))) rax,
    .op (.writeCr4 .ax),
    andq (.imm (bitnot (CR4_OSFXSR + CR4_OSXMMEXCPT))) (var sym.cr4Value) ]

def done : List Line :=
  [ .label .done,
    .op (.writeCr0 .dx),
    .op .leave,
    .ret 0 ]

def code : List Line :=
  List.flatten [fpuProbe sym, chip sym, sse sym, one sym, ignoreFpu sym, noFpuHw sym, done]

end Text

def position : Label → Nat
  | .fpuProbe => 0
  | .one => 29
  | .ignoreFpu => 37
  | .noFpuHw => 39
  | .done => 48

variable {sym : Symbols}

@[simp] theorem labelAddr_code (l : Label) : labelAddr (code sym) l = position l := by
  cases l <;> rfl

inductive Cell : Nat → Type
  | fpuExists : Cell 32
  | fpKind : Cell 32
  | fpuIgnored : Cell 32
  | pagecopy : Cell 32
  | pagezero : Cell 32
  | copy : Cell 32
  | feature : Cell 32
  | cr4Value : Cell 64
  | mask : Cell 32
  | ret : Cell 64
  | frame : Cell 64
  | area : Cell 4096

def place (sym : Symbols) (sp : BitVec 64) : ∀ n, Cell n → BitVec 64
  | _, .fpuExists => BitVec.ofInt 64 sym.fpuExists
  | _, .fpKind => BitVec.ofInt 64 sym.fpKind
  | _, .fpuIgnored => BitVec.ofInt 64 sym.fpuIgnored
  | _, .pagecopy => BitVec.ofInt 64 sym.useSsePagecopy
  | _, .pagezero => BitVec.ofInt 64 sym.useSsePagezero
  | _, .copy => BitVec.ofInt 64 sym.useSseCopy
  | _, .feature => BitVec.ofInt 64 sym.x86Feature
  | _, .cr4Value => BitVec.ofInt 64 sym.cr4Value
  | _, .mask => BitVec.ofInt 64 sym.sseMxcsrMask
  | _, .ret => sp
  | _, .frame => sp - 8#64
  | _, .area => sp - 520#64

def Cell.kept {n : Nat} : Cell n → Bool
  | .fpuIgnored | .mask | .frame | .area => false
  | _ => true

variable {ext : Nat → Option (State 64 → State 64)} {s t : State 64} {m : Mem 64} {sp : BitVec 64} {P : Cfg 64 → Prop}

theorem places (sym : Symbols) (sp : BitVec 64) :
    BitVec.ofInt 64 sym.fpuExists = place sym sp 32 .fpuExists ∧
    BitVec.ofInt 64 sym.fpKind = place sym sp 32 .fpKind ∧
    BitVec.ofInt 64 sym.fpuIgnored = place sym sp 32 .fpuIgnored ∧
    BitVec.ofInt 64 sym.useSsePagecopy = place sym sp 32 .pagecopy ∧
    BitVec.ofInt 64 sym.useSsePagezero = place sym sp 32 .pagezero ∧
    BitVec.ofInt 64 sym.useSseCopy = place sym sp 32 .copy ∧
    BitVec.ofInt 64 sym.x86Feature = place sym sp 32 .feature ∧
    BitVec.ofInt 64 sym.cr4Value = place sym sp 64 .cr4Value ∧
    BitVec.ofInt 64 sym.sseMxcsrMask = place sym sp 32 .mask ∧
    sp - 8#64 = place sym sp 64 .frame ∧
    place sym sp 64 .frame + 8#64 = place sym sp 64 .ret ∧
    place sym sp 64 .frame - 512#64 = place sym sp 4096 .area := by
  refine ⟨rfl, rfl, rfl, rfl, rfl, rfl, rfl, rfl, rfl, rfl, ?_, ?_⟩ <;>
  · simp only [place]
    bv_omega

structure Framed (sym : Symbols) (s t : State 64) : Prop where
  bp : t.regs.bp = place sym s.regs.sp 64 .frame
  bx : t.regs.bx = s.regs.bx
  r12 : t.regs.hi.r12 = s.regs.hi.r12
  r13 : t.regs.hi.r13 = s.regs.hi.r13
  r14 : t.regs.hi.r14 = s.regs.hi.r14
  r15 : t.regs.hi.r15 = s.regs.hi.r15
  frame : word (place sym s.regs.sp) t.mem .frame = s.regs.bp
  ret : word (place sym s.regs.sp) t.mem .ret = word (place sym s.regs.sp) s.mem .ret

/-- There is no FPU, and `%cr0` was made of `dx`. -/
structure Absent (sym : Symbols) (s : State 64) (dx : BitVec 64) (d : Cfg 64) : Prop where
  ip : d.ip = (load 64 s.mem s.regs.sp).toNat
  keeps : Keeps64 s d.state
  cr0 : d.state.regs.hi.cr0 = dx &&& BitVec.ofInt 64 (bitnot CR0_MP) ||| BitVec.ofInt 64 CR0_EM
  cr4 : d.state.regs.hi.cr4 = s.regs.hi.cr4 &&& BitVec.ofInt 64 (bitnot (CR4_OSFXSR + CR4_OSXMMEXCPT))
  value : cr4Value sym d.state = cr4Value sym s &&& BitVec.ofInt 64 (bitnot (CR4_OSFXSR + CR4_OSXMMEXCPT))
  kind : var32 sym.fpKind d.state = BitVec.ofInt 32 FP_NO
  pagecopy : var32 sym.useSsePagecopy d.state = var32 sym.useSsePagecopy s
  pagezero : var32 sym.useSsePagezero d.state = var32 sym.useSsePagezero s
  copy : var32 sym.useSseCopy d.state = var32 sym.useSseCopy s

section Area

variable {n : Nat} {k : Cell n} (hspread : Spread (place sym sp)) (hk : (⟨4096, .area⟩ : Σ n, Cell n) ≠ ⟨n, k⟩)

include hspread hk

end Area

structure Present (sym : Symbols) (s : State 64) (dx : BitVec 64) (d : Cfg 64) : Prop where
  ip : d.ip = (load 64 s.mem s.regs.sp).toNat
  keeps : Keeps64 s d.state
  cr0 : d.state.regs.hi.cr0 =
    dx &&& BitVec.ofInt 64 (bitnot (CR0_TS + CR0_EM)) ||| BitVec.ofInt 64 (CR0_MP + CR0_NE)
  cr4 : d.state.regs.hi.cr4 = s.regs.hi.cr4 ||| BitVec.ofInt 64 (CR4_OSFXSR + CR4_OSXMMEXCPT)
  value : cr4Value sym d.state = cr4Value sym s ||| BitVec.ofInt 64 (CR4_OSFXSR + CR4_OSXMMEXCPT)
  kind : var32 sym.fpKind d.state = BitVec.ofInt 32 FP_SSE
  exists_ : var32 sym.fpuExists d.state = var32 sym.fpuExists s

structure Enabled (sym : Symbols) (s t : State 64) : Prop extends Framed sym s t where
  cr4 : t.regs.hi.cr4 = s.regs.hi.cr4 ||| BitVec.ofInt 64 (CR4_OSFXSR + CR4_OSXMMEXCPT)
  value : word (place sym s.regs.sp) t.mem .cr4Value =
    word (place sym s.regs.sp) s.mem .cr4Value ||| BitVec.ofInt 64 (CR4_OSFXSR + CR4_OSXMMEXCPT)
  kind : word (place sym s.regs.sp) t.mem .fpKind = BitVec.ofInt 32 FP_SSE
  exists_ : word (place sym s.regs.sp) t.mem .fpuExists = word (place sym s.regs.sp) s.mem .fpuExists

/-- The status is zero, and the FPU is not to be ignored. -/
def Chip (sym : Symbols) (s : State 64) : Prop :=
  s.regs.hi.fpu.initial.setWidth 8 = 0#8 ∧ var32 sym.fpuExists s ≠ 0#32

def cleared (s : State 64) : BitVec 64 := s.regs.hi.cr0 &&& ~~~BitVec.ofInt 64 CR0_TS

/-- Where there is no chip, `%cr0` is made of what `%rdx` was at the entry. -/
def Outcome (sym : Symbols) (s : State 64) (d : Cfg 64) : Prop :=
  (¬ Chip sym s ∧ Absent sym s s.regs.dx d) ∨
    (Chip sym s ∧ (Absent sym s (cleared s) d ∨ Present sym s (cleared s) d))

theorem Outcome.ip {d : Cfg 64} (h : Outcome sym s d) : d.ip = (load 64 s.mem s.regs.sp).toNat := by
  obtain ⟨-, h⟩ | ⟨-, h | h⟩ := h <;> exact h.ip

theorem Outcome.keeps {d : Cfg 64} (h : Outcome sym s d) : Keeps64 s d.state := by
  obtain ⟨-, h⟩ | ⟨-, h | h⟩ := h <;> exact h.keeps

/-- Where `%rdx` is not loaded from `%cr0`, it is as `%cr0` but for the bits of
`fpu_probe`. -/
def Sound (sym : Symbols) (s : State 64) : Prop :=
  Chip sym s ∨ AgreeOff (cr0Bits 64) s.regs.dx s.regs.hi.cr0

theorem agreeOff_cleared (s : State 64) : AgreeOff (cr0Bits 64) (cleared s) s.regs.hi.cr0 :=
  (agreeOff_and (by decide)).mpr rfl

theorem Present.owned {d : Cfg 64} (h : Present sym s (cleared s) d) (hexists : var32 sym.fpuExists s ≠ 0#32) :
    Owned sym s d.state := by
  have hset : d.state.regs.hi.cr4 &&& osfxsr 64 ≠ 0#64 := by
    rw [h.cr4]
    exact or_and_ne_zero (by decide) (by decide)
  refine ⟨?_, ?_, ?_, fun hzero => absurd (h.exists_.symm.trans hzero) hexists, fun _ _ _ => ⟨h.kind, hset⟩⟩
  · rw [h.cr0, agreeOff_or (by decide), agreeOff_and (by decide)]
    exact agreeOff_cleared s
  · rw [h.cr4]
    exact (agreeOff_or (by decide)).mpr rfl
  · rw [h.value]
    exact (agreeOff_or (by decide)).mpr rfl

end SysvDev.FpuProbe.Amd64
