import SysvDev.FpuProbe.Owns
import SysvDev.Rounding

namespace SysvDev.FpuProbe.I386

open Word X86.Memory X86.Machine X86.Machine.Att X86.Run X86.Cells X86.Words Inevitable
open Owns

inductive Label
  | fpuProbe | noBug | one | is287 | mathchip | ignoreFpu | noFpuHw | cont | patchSse | patchSse2
  deriving DecidableEq

abbrev Line := X86.Machine.Line Label

structure Symbols extends Owns.Symbols where
  fpuPentiumFdivbug : Int
  num1 : Int
  num2 : Int
  num3 : Int
  fpsaveBegin : Int
  fpxsaveBegin : Int

def XMM_ALIGN : Int := 16

section Text

variable (sym : Symbols)

def fpuProbe : List Line :=
  [ .label .fpuProbe,
    .op .clts,
    .op .fninit,
    .op .fnstsw,
    orb al al,
    jnz .noFpuHw,
    .op (.fld (.abs sym.num1)),
    .op (.fld (.abs sym.num2)),
    .op .fdivr,
    .op .fxch,
    .op (.fdiv (.abs sym.num3)),
    .op .fcompp,
    .op .fwait,
    .op .fnstsw,
    .op .sahf,
    jae .noBug,
    movl (.imm 1) (var sym.fpuPentiumFdivbug) ]

def noBug : List Line :=
  [ .label .noBug,
    .op .fninit,
    .op .fnstsw,
    cmpl (.imm 0) (var sym.fpuExists),
    je .ignoreFpu,
    cmpl (.imm 0) (var sym.fpuPentiumFdivbug),
    jne .ignoreFpu ]

def chip : List Line :=
  [ .op (.readCr0 .dx),
    testl (.imm CR0_ET) edx,
    jz .is287,
    movl (.imm FP_387) (var sym.fpKind),
    .op (.readCr4 .ax),
    andl (.imm (bitnot (CR4_OSFXSR + CR4_OSXMMEXCPT))) eax,
    .op (.writeCr4 .ax),
    andl (.imm (bitnot (CR4_OSFXSR + CR4_OSXMMEXCPT))) (var sym.cr4Value),
    testl (.imm X86_SSE) (var sym.x86Feature),
    je .mathchip ]

def sse : List Line :=
  [ movl (.imm FP_SSE) (var sym.fpKind),
    movl (.imm sym.fpxsaveBegin) eax,
    movl eax (var sym.fpsaveBegin),
    .call .patchSse ]

def enable : List Line :=
  [ .op (.readCr4 .ax),
    orl (.imm (CR4_OSFXSR + CR4_OSXMMEXCPT)) eax,
    .op (.writeCr4 .ax),
    orl (.imm (CR4_OSFXSR + CR4_OSXMMEXCPT)) (var sym.cr4Value),
    subl (.imm (FXSAVE_STATE_SIZE + XMM_ALIGN)) esp,
    movl esp eax,
    addl (.imm XMM_ALIGN) eax,
    andl (.imm (bitnot (XMM_ALIGN - 1))) eax,
    movl (.imm 0) (ind FXSAVE_STATE_MXCSR_MASK .ax),
    .op (.fxsave (.base 0 .ax)) ]

def mask : List Line :=
  [ movl (ind FXSAVE_STATE_MXCSR_MASK .ax) eax,
    addl (.imm (FXSAVE_STATE_SIZE + XMM_ALIGN)) esp,
    cmpl (.imm 0) eax,
    je .one,
    movl eax (var sym.sseMxcsrMask) ]

def one : List Line :=
  [ .label .one,
    testl (.imm X86_SSE2) (var sym.x86Feature),
    je .mathchip,
    movl (.imm 1) (var sym.useSsePagecopy),
    movl (.imm 1) (var sym.useSsePagezero),
    movl (.imm 1) (var sym.useSseCopy),
    .call .patchSse2 ]

def patched : List Line :=
  [ .jmp .mathchip ]

/-- `gnu` is `__GNUC_AS__`. -/
def is287 (gnu : Bool) : List Line :=
  .label .is287 ::
    if gnu then [movl (.imm FP_NO) (var sym.fpKind)] else [.op .fsetpm, movl (.imm FP_287) (var sym.fpKind)]

def mathchip : List Line :=
  [ .label .mathchip,
    .op (.readCr0 .dx),
    andl (.imm (bitnot (CR0_TS + CR0_EM))) edx,
    orl (.imm (CR0_MP + CR0_NE)) edx,
    .jmp .cont ]

def ignoreFpu : List Line :=
  [ .label .ignoreFpu,
    movl (.imm 1) (var sym.fpuIgnored) ]

def noFpuHw : List Line :=
  [ .label .noFpuHw,
    .op (.readCr0 .dx),
    andl (.imm (bitnot CR0_MP)) edx,
    movl (.imm FP_NO) (var sym.fpKind),
    movl (.imm 0) (var sym.fpuExists) ]

def cont : List Line :=
  [ .label .cont,
    .op (.writeCr0 .dx),
    .ret 0 ]

def code (gnu : Bool) : List Line :=
  List.flatten [fpuProbe sym, noBug sym, chip sym, sse sym, enable sym, mask sym, one sym, patched, is287 sym gnu,
    mathchip, ignoreFpu sym, noFpuHw sym, cont, [.label .patchSse, .label .patchSse2]]

end Text

def position (gnu : Bool) : Label → Nat
  | .fpuProbe => 0
  | .noBug => 17
  | .one => 53
  | .is287 => 61
  | .mathchip => 64 - gnu.toNat
  | .ignoreFpu => 69 - gnu.toNat
  | .noFpuHw => 71 - gnu.toNat
  | .cont => 76 - gnu.toNat
  | .patchSse => 79 - gnu.toNat
  | .patchSse2 => 80 - gnu.toNat

variable {sym : Symbols} {gnu : Bool}

@[simp] theorem labelAddr_code (l : Label) : labelAddr (code sym gnu) l = position gnu l := by
  cases gnu <;> cases l <;> rfl

inductive Cell : Nat → Type
  | fpuExists : Cell 32
  | fpKind : Cell 32
  | fpuIgnored : Cell 32
  | pagecopy : Cell 32
  | pagezero : Cell 32
  | copy : Cell 32
  | feature : Cell 32
  | cr4Value : Cell 32
  | mask : Cell 32
  | fdivbug : Cell 32
  | fpsaveBegin : Cell 32
  | ret : Cell 32
  | area : Cell 4224

/-- `sp` is the stack pointer at entry. -/
def place (sym : Symbols) (sp : BitVec 32) : ∀ n, Cell n → BitVec 32
  | _, .fpuExists => BitVec.ofInt 32 sym.fpuExists
  | _, .fpKind => BitVec.ofInt 32 sym.fpKind
  | _, .fpuIgnored => BitVec.ofInt 32 sym.fpuIgnored
  | _, .pagecopy => BitVec.ofInt 32 sym.useSsePagecopy
  | _, .pagezero => BitVec.ofInt 32 sym.useSsePagezero
  | _, .copy => BitVec.ofInt 32 sym.useSseCopy
  | _, .feature => BitVec.ofInt 32 sym.x86Feature
  | _, .cr4Value => BitVec.ofInt 32 sym.cr4Value
  | _, .mask => BitVec.ofInt 32 sym.sseMxcsrMask
  | _, .fdivbug => BitVec.ofInt 32 sym.fpuPentiumFdivbug
  | _, .fpsaveBegin => BitVec.ofInt 32 sym.fpsaveBegin
  | _, .ret => sp
  | _, .area => sp - 528#32

/-- What is not read any more when it is written, or only by others. -/
def Cell.kept {n : Nat} : Cell n → Bool
  | .fpuIgnored | .mask | .fdivbug | .fpsaveBegin | .fpKind | .area => false
  | _ => true

variable {ext : Nat → Option (State 32 → State 32)} {s t : State 32} {m : Mem 32} {sp : BitVec 32}

theorem places (sym : Symbols) (sp : BitVec 32) :
    BitVec.ofInt 32 sym.fpuExists = place sym sp 32 .fpuExists ∧
    BitVec.ofInt 32 sym.fpKind = place sym sp 32 .fpKind ∧
    BitVec.ofInt 32 sym.fpuIgnored = place sym sp 32 .fpuIgnored ∧
    BitVec.ofInt 32 sym.useSsePagecopy = place sym sp 32 .pagecopy ∧
    BitVec.ofInt 32 sym.useSsePagezero = place sym sp 32 .pagezero ∧
    BitVec.ofInt 32 sym.useSseCopy = place sym sp 32 .copy ∧
    BitVec.ofInt 32 sym.x86Feature = place sym sp 32 .feature ∧
    BitVec.ofInt 32 sym.cr4Value = place sym sp 32 .cr4Value ∧
    BitVec.ofInt 32 sym.sseMxcsrMask = place sym sp 32 .mask ∧
    BitVec.ofInt 32 sym.fpuPentiumFdivbug = place sym sp 32 .fdivbug ∧
    BitVec.ofInt 32 sym.fpsaveBegin = place sym sp 32 .fpsaveBegin ∧
    sp - 528#32 = place sym sp 4224 .area ∧
    sp - 4#32 = place sym sp 4224 .area + 524#32 := by
  refine ⟨rfl, rfl, rfl, rfl, rfl, rfl, rfl, rfl, rfl, rfl, rfl, rfl, ?_⟩
  simp only [place]
  bv_omega

/-- A call that was entered in `s`. -/
structure Framed (sym : Symbols) (s t : State 32) : Prop where
  bx : t.regs.bx = s.regs.bx
  bp : t.regs.bp = s.regs.bp
  si : t.regs.si = s.regs.si
  di : t.regs.di = s.regs.di
  ret : word (place sym s.regs.sp) t.mem .ret = word (place sym s.regs.sp) s.mem .ret

/-- All is decided but for `%cr0`. -/
structure Settled (sym : Symbols) (s t : State 32) : Prop extends Framed sym s t where
  owned : Owned sym.toSymbols s t

structure Done (sym : Symbols) (s : State 32) (d : Cfg 32) : Prop where
  ip : d.ip = (load 32 s.mem s.regs.sp).toNat
  keeps : Keeps32 s d.state
  owned : Owned sym.toSymbols s d.state

structure Chipped (sym : Symbols) (s t : State 32) : Prop extends Framed sym s t where
  cr0 : AgreeOff (cr0Bits 32) t.regs.hi.cr0 s.regs.hi.cr0
  cr4 : AgreeOff (cr4Bits 32) t.regs.hi.cr4 s.regs.hi.cr4
  value : AgreeOff (cr4Bits 32) (cr4Value sym.toSymbols t) (cr4Value sym.toSymbols s)
  exists_ : var32 sym.fpuExists t ≠ 0#32

structure Plain (sym : Symbols) (s t : State 32) : Prop extends Chipped sym s t where
  flags : ∀ a ∈ [sym.useSseCopy, sym.useSsePagecopy, sym.useSsePagezero], var32 a t = var32 a s

theorem Plain.settled (h : Plain sym s t) : Settled sym s t :=
  ⟨h.toFramed, h.cr0, h.cr4, h.value, fun hz => absurd hz h.exists_, fun a ha hne => absurd (h.flags a ha) hne⟩

structure Announced (sym : Symbols) (s t : State 32) : Prop extends Chipped sym s t where
  kind : var32 sym.fpKind t = BitVec.ofInt 32 FP_SSE

structure Enabled (sym : Symbols) (s t : State 32) : Prop extends Announced sym s t where
  osfxsr : t.regs.hi.cr4 &&& osfxsr 32 ≠ 0#32

theorem Enabled.settled (h : Enabled sym s t) : Settled sym s t :=
  ⟨h.toFramed, h.cr0, h.cr4, h.value, fun hz => absurd hz h.exists_, fun _ _ _ => ⟨h.kind, h.osfxsr⟩⟩

/-- What is not written any more once the chip is announced, but for `cr4_value`. -/
def Cell.core {n : Nat} : Cell n → Bool
  | .ret | .cr4Value | .fpuExists | .fpKind => true
  | _ => false

structure Same (sym : Symbols) (sp : BitVec 32) (u t : State 32) : Prop where
  bx : t.regs.bx = u.regs.bx
  bp : t.regs.bp = u.regs.bp
  si : t.regs.si = u.regs.si
  di : t.regs.di = u.regs.di
  cr0 : t.regs.hi.cr0 = u.regs.hi.cr0
  cr4 : t.regs.hi.cr4 = u.regs.hi.cr4
  words : ∀ n (k : Cell n), k.core = true → word (place sym sp) t.mem k = word (place sym sp) u.mem k

theorem Announced.same {u : State 32} (h : Announced sym s u) (hs : Same sym s.regs.sp u t) : Announced sym s t where
  bx := hs.bx.trans h.bx
  bp := hs.bp.trans h.bp
  si := hs.si.trans h.si
  di := hs.di.trans h.di
  ret := (hs.words 32 .ret rfl).trans h.ret
  cr0 := hs.cr0 ▸ h.cr0
  cr4 := hs.cr4 ▸ h.cr4
  value := by
    have hvalue : cr4Value sym.toSymbols t = cr4Value sym.toSymbols u := hs.words 32 .cr4Value rfl
    exact hvalue ▸ h.value
  exists_ := by
    have hexists : var32 sym.fpuExists t = var32 sym.fpuExists u := hs.words 32 .fpuExists rfl
    exact hexists ▸ h.exists_
  kind := (hs.words 32 .fpKind rfl).trans h.kind

theorem Enabled.same {u : State 32} (h : Enabled sym s u) (hs : Same sym s.regs.sp u t) : Enabled sym s t :=
  ⟨h.toAnnounced.same hs, hs.cr4 ▸ h.osfxsr⟩

section Area

variable {n : Nat} {k : Cell n} (hspread : Spread (place sym sp)) (hk : k.core = true)

include hspread hk

end Area

end SysvDev.FpuProbe.I386
