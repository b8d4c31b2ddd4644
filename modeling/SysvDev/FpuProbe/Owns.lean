import SysvDev.X86.Words

namespace SysvDev.FpuProbe.Owns

open Word X86.Memory X86.Machine

def CR0_MP : Int := 0x00000002

def CR0_EM : Int := 0x00000004

def CR0_ET : Int := 0x00000010

def CR0_NE : Int := 0x00000020

def CR4_OSFXSR : Int := 0x0200

def CR4_OSXMMEXCPT : Int := 0x0400

def X86_SSE : Int := 0x00002000

def X86_SSE2 : Int := 0x00004000

def FP_NO : Int := 0

def FP_287 : Int := 2

def FP_387 : Int := 3

def FP_SSE : Int := 0x103

def FXSAVE_STATE_MXCSR_MASK : Int := 28

def bitnot (x : Int) : Int := -x - 1

structure Symbols where
  fpuExists : Int
  fpKind : Int
  fpuIgnored : Int
  useSsePagecopy : Int
  useSsePagezero : Int
  useSseCopy : Int
  x86Feature : Int
  cr4Value : Int
  sseMxcsrMask : Int

variable {w : Nat}

def var32 (a : Int) (s : State w) : BitVec 32 := load 32 s.mem (BitVec.ofInt w a)

def cr4Value (sym : Symbols) (s : State w) : BitVec w := load w s.mem (BitVec.ofInt w sym.cr4Value)

/-- The bits of `%cr0` that `fpu_probe` owns, and those of `%cr4`. -/
def cr0Bits (w : Nat) : BitVec w := BitVec.ofInt w (CR0_TS + CR0_EM + CR0_MP + CR0_NE)

def cr4Bits (w : Nat) : BitVec w := BitVec.ofInt w (CR4_OSFXSR + CR4_OSXMMEXCPT)

def osfxsr (w : Nat) : BitVec w := BitVec.ofInt w CR4_OSFXSR

/-- What a call of `fpu_probe` does from `s` to `d`. -/
structure Owned (sym : Symbols) (s d : State w) : Prop where
  cr0 : AgreeOff (cr0Bits w) d.regs.hi.cr0 s.regs.hi.cr0
  cr4 : AgreeOff (cr4Bits w) d.regs.hi.cr4 s.regs.hi.cr4
  value : AgreeOff (cr4Bits w) (cr4Value sym d) (cr4Value sym s)
  absent : var32 sym.fpuExists d = 0#32 → var32 sym.fpKind d = BitVec.ofInt 32 FP_NO ∧
    (s.regs.hi.cr4 &&& osfxsr w = 0#w → d.regs.hi.cr4 &&& osfxsr w = 0#w) ∧
    (cr4Value sym s &&& osfxsr w = 0#w → cr4Value sym d &&& osfxsr w = 0#w)
  sse : ∀ a ∈ [sym.useSseCopy, sym.useSsePagecopy, sym.useSsePagezero], var32 a d ≠ var32 a s →
    var32 sym.fpKind d = BitVec.ofInt 32 FP_SSE ∧ d.regs.hi.cr4 &&& osfxsr w ≠ 0#w

end SysvDev.FpuProbe.Owns
