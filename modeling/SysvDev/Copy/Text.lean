import SysvDev.X86.Machine

namespace SysvDev.Copy.Text

open X86.Machine X86.Machine.Att

/-- The routines that copy from or to user space. -/
inductive Routine
  | copyin | xcopyinNta | copyout | xcopyoutNta | copyinstr | copyoutstr
  deriving DecidableEq

/-- `two` and `three` are the local labels of a routine. -/
inductive Label
  | kcopy | doCopyFault | kcopyCopyerr | kcopyNta | doCopyFaultNta | ntaLoop | kcopyNtaCopyerr
  | entry (r : Routine) | err (r : Routine) | three (r : Routine) | two (r : Routine)
  | copystr | doCopystr | copystrLoop | copystrEnametoolong | copystrNull | copystrOut | copystrDone
  deriving DecidableEq

/-- What assym.h and the linker put in: the addresses of symbols, and offsets
within the thread and within the copyops. -/
structure Symbols where
  cpuThread : Int
  kernelbase : Int
  useSseCopy : Int
  tLofault : Int
  tCopyops : Int
  cp : Routine → Int

abbrev enametoolong : Int := 78

abbrev efault : Int := 14

abbrev minSize : Int := 128

abbrev ntaAlignMask : Int := 3

abbrev countAlignMask : Int := 15

namespace Amd64

variable (k : Symbols)

def kcopy : List (Line Label) := [
  .label .kcopy, pushq rbp, movq rsp rbp, .leaLabel .kcopyCopyerr .cx, movq (var k.cpuThread) r9]

def doCopyFault : List (Line Label) := [
  .label .doCopyFault, movq (ind k.tLofault .r9) r11, movq rcx (ind k.tLofault .r9), xchgq .di .si, movq rdx rcx,
  shrq (.imm 3) rcx, .rep movsq, movq rdx rcx, andq (.imm 7) rcx, .rep movsb, xorl eax eax]

def kcopyCopyerr : List (Line Label) := [
  .label .kcopyCopyerr, movq r11 (ind k.tLofault .r9), .op .leave, .ret 0]

/-- The tests before the non-temporal loop, with the number of the lofault
label in `%rcx`. -/
def ntaTests (err : Label) : List (Line Label) := [
  cmpq (.imm 0) rcx, .leaLabel err .cx, jnz .doCopyFault, cmpq (.imm minSize) rdx, jb .doCopyFault, movq rdi r10,
  orq rsi r10, andq (.imm ntaAlignMask) r10, orq rdx r10, andq (.imm countAlignMask) r10, jnz .doCopyFault]

def kcopyNta : List (Line Label) :=
  .label .kcopyNta :: pushq rbp :: movq rsp rbp :: movq (var k.cpuThread) r9 :: ntaTests .kcopyNtaCopyerr

def doCopyFaultNta : List (Line Label) := [
  .label .doCopyFaultNta, movq (var k.cpuThread) r9, movq (ind k.tLofault .r9) r11, movq rcx (ind k.tLofault .r9),
  addq rdx rdi, addq rdx rsi, shrq (.imm 3) rdx, negq rdx]

def ntaLoop : List (Line Label) := [
  .label .ntaLoop, .op (.prefetchnta (.index 0x100 .di .dx 8)), movq (.mem (.index 0 .di .dx 8) : Place) rax,
  movq (.mem (.index 0x8 .di .dx 8) : Place) r8, movnti 64 .ax (.index 0 .si .dx 8),
  movnti 64 .r8 (.index 0x8 .si .dx 8), addq (.imm 2) rdx, jnz .ntaLoop]

def kcopyNtaCopyerr : List (Line Label) := [
  .op .mfence, xorl eax eax, .label .kcopyNtaCopyerr, movq r11 (ind k.tLofault .r9), .op .leave, .ret 0]

def saveArgs : List (Line Label) := [
  pushq rbp, movq rsp rbp, subq (.imm 32) rsp, movq rdi (ind 0 .sp), movq rsi (ind 0x8 .sp), movq rdx (ind 0x10 .sp)]

def uaddr : Routine → Place
  | .copyin | .xcopyinNta | .copyinstr => rdi
  | .copyout | .xcopyoutNta | .copyoutstr => rsi

variable (r : Routine)

def copyTest : List (Line Label) := [
  movq (var k.kernelbase) rax, .leaLabel (.err r) .cx, movq (var k.cpuThread) r9, cmpq rax (uaddr r),
  jb .doCopyFault, .jmp (.three r)]

def copyErr : List (Line Label) := [
  .label (.err r), movq r11 (ind k.tLofault .r9),
  .label (.three r), movq (ind k.tCopyops .r9) rax, cmpq (.imm 0) rax, jz (.two r),
  movq (ind 0 .sp) rdi, movq (ind 0x8 .sp) rsi, movq (ind 0x10 .sp) rdx, .op .leave, .jmpInd (.base (k.cp r) .ax),
  .label (.two r), movl (.imm (-1)) eax, .op .leave, .ret 0]

def copy : List (Line Label) := (.label (.entry r) :: saveArgs) ++ copyTest k r ++ copyErr k r

def xcopyTest : List (Line Label) := [
  movq (var k.kernelbase) rax, movq (var k.cpuThread) r9, cmpq rax (uaddr r), jae (.three r)]

def xcopyErr : List (Line Label) := [
  .label (.err r), movq r11 (ind k.tLofault .r9),
  .label (.three r), movq (ind k.tCopyops .r9) r8, cmpq (.imm 0) r8, jz (.two r),
  movq (ind 0 .sp) rdi, movq (ind 0x8 .sp) rsi, movq (ind 0x10 .sp) rdx, .op .leave, .jmpInd (.base (k.cp r) .r8),
  .label (.two r), .op .leave, .ret 0]

def xcopyNta : List (Line Label) :=
  (.label (.entry r) :: saveArgs) ++ xcopyTest k r ++ ntaTests (.err r) ++ (.jmp .doCopyFaultNta :: xcopyErr k r)

def copystr : List (Line Label) := [
  .label .copystr, pushq rbp, movq rsp rbp, movq (var k.cpuThread) r9, movq (ind k.tLofault .r9) r8]

def doCopystr : List (Line Label) := [
  .label .doCopystr, movq (var k.cpuThread) r9, movq (ind k.tLofault .r9) r11, movq r8 (ind k.tLofault .r9), movq rdx r8,
  cmpq (.imm 0) rdx, je .copystrEnametoolong]

def copystrLoop : List (Line Label) := [
  .label .copystrLoop, decq r8, movb (ind 0 .di) al, incq rdi, movb al (ind 0 .si), incq rsi, cmpb (.imm 0) al,
  je .copystrNull, cmpq (.imm 0) r8, jne .copystrLoop]

def copystrOut : List (Line Label) := [
  .label .copystrEnametoolong, movl (.imm enametoolong) eax, .jmp .copystrOut,
  .label .copystrNull, xorl eax eax,
  .label .copystrOut, cmpq (.imm 0) rcx, je .copystrDone, subq r8 rdx, movq rdx (ind 0 .cx),
  .label .copystrDone, movq r11 (ind k.tLofault .r9), .op .leave, .ret 0]

def copyStrTest : List (Line Label) := [
  movq rcx (ind 0x18 .sp), movq (var k.kernelbase) rax, .leaLabel (.err r) .r8, cmpq rax (uaddr r), jb .doCopystr,
  movq (var k.cpuThread) r9, .jmp (.three r)]

def copyStrErr : List (Line Label) := [
  .label (.err r), movq r11 (ind k.tLofault .r9),
  .label (.three r), movq (ind k.tCopyops .r9) rax, cmpq (.imm 0) rax, jz (.two r),
  movq (ind 0 .sp) rdi, movq (ind 0x8 .sp) rsi, movq (ind 0x10 .sp) rdx, movq (ind 0x18 .sp) rcx, .op .leave,
  .jmpInd (.base (k.cp r) .ax),
  .label (.two r), movl (.imm efault) eax, .op .leave, .ret 0]

def copyStr : List (Line Label) := (.label (.entry r) :: saveArgs) ++ copyStrTest k r ++ copyStrErr k r

def text : List (Line Label) :=
  [kcopy k, doCopyFault k, kcopyCopyerr k,
  kcopyNta k, doCopyFaultNta k, ntaLoop, kcopyNtaCopyerr k,
  copy k .copyin, xcopyNta k .xcopyinNta, copy k .copyout, xcopyNta k .xcopyoutNta,
  copystr k, doCopystr k, copystrLoop, copystrOut k, copyStr k .copyinstr, copyStr k .copyoutstr].flatten

end Amd64

namespace I386

variable (k : Symbols)

def kcopy : List (Line Label) := [.label .kcopy, .leaLabel .kcopyCopyerr .ax, movl (var k.cpuThread) edx]

def doCopyFault : List (Line Label) := [
  .label .doCopyFault, pushl ebp, movl esp ebp, pushl esi, pushl edi, movl (ind k.tLofault .dx) edi, pushl edi,
  movl eax (ind k.tLofault .dx), movl (ind 16 .bp) ecx, movl (ind 8 .bp) esi, movl (ind 12 .bp) edi, shrl (.imm 2) ecx,
  .rep movsl, movl (ind 16 .bp) ecx, andl (.imm 3) ecx, .rep movsb, xorl eax eax]

def kcopyCopyerr : List (Line Label) := [
  .label .kcopyCopyerr, popl .cx, popl .di, movl ecx (ind k.tLofault .dx), popl .si, popl .bp, .ret 0]

def kcopyNta : List (Line Label) := [.label .kcopyNta, .jmp .kcopy, .leaLabel .kcopyNtaCopyerr .ax]

def doCopyFaultNta : List (Line Label) := [
  .label .doCopyFaultNta, pushl ebp, movl esp ebp, pushl esi, pushl edi, movl (var k.cpuThread) edx,
  movl (ind k.tLofault .dx) edi, pushl edi, movl eax (ind k.tLofault .dx), movl (ind 16 .bp) ecx, movl (ind 8 .bp) edi,
  movl (ind 12 .bp) eax, addl ecx edi, addl ecx eax, shrl (.imm 3) ecx, negl ecx]

def ntaLoop : List (Line Label) := [
  .label .ntaLoop, .op (.prefetchnta (.index 0x100 .di .cx 8)),
  movl (.mem (.index 0 .di .cx 8) : Place) esi, movnti 32 .si (.index 0 .ax .cx 8),
  movl (.mem (.index 0x4 .di .cx 8) : Place) esi, movnti 32 .si (.index 0x4 .ax .cx 8),
  movl (.mem (.index 0x8 .di .cx 8) : Place) esi, movnti 32 .si (.index 0x8 .ax .cx 8),
  movl (.mem (.index 0xc .di .cx 8) : Place) esi, movnti 32 .si (.index 0xc .ax .cx 8),
  addl (.imm 2) ecx, jnz .ntaLoop]

def kcopyNtaCopyerr : List (Line Label) := [
  .op .mfence, xorl eax eax,
  .label .kcopyNtaCopyerr, popl .cx, popl .di, movl ecx (ind k.tLofault .dx), popl .si, .op .leave, .ret 0]

/-- ARG_UADDR, relative to the stack pointer at the entry. -/
def uaddr : Routine → Int
  | .copyin | .xcopyinNta | .copyinstr => 4
  | .copyout | .xcopyoutNta | .copyoutstr => 8

def kaddr : Routine → Int
  | .copyin | .xcopyinNta | .copyinstr => 8
  | .copyout | .xcopyoutNta | .copyoutstr => 4

variable (r : Routine)

def copyTest : List (Line Label) := [
  .label (.entry r), movl (var k.kernelbase) ecx, .leaLabel (.err r) .ax, movl (var k.cpuThread) edx,
  cmpl ecx (ind (uaddr r) .sp), jb .doCopyFault, .jmp (.three r)]

def copyErr : List (Line Label) := [
  .label (.err r), popl .cx, popl .di, movl ecx (ind k.tLofault .dx), popl .si, popl .bp,
  .label (.three r), movl (ind k.tCopyops .dx) eax, cmpl (.imm 0) eax, jz (.two r), .jmpInd (.base (k.cp r) .ax),
  .label (.two r), movl (.imm (-1)) eax, .ret 0]

def copy : List (Line Label) := copyTest k r ++ copyErr k r

def xcopyTest : List (Line Label) := [
  .label (.entry r), movl (var k.kernelbase) ecx, .leaLabel (.err r) .ax, movl (var k.cpuThread) edx,
  cmpl ecx (ind (uaddr r) .sp), jae (.three r)]

/-- `count` is what is compared with XCOPY_MIN_SIZE. -/
def ntaTests (count : Place) : List (Line Label) := [
  cmpl (.imm 0) (var k.useSseCopy), jz .doCopyFault, cmpl (.imm 0) (ind 16 .sp), jnz .doCopyFault,
  cmpl (.imm minSize) count, jb .doCopyFault, movl (ind (uaddr r) .sp) ecx, orl (ind (kaddr r) .sp) ecx,
  andl (.imm ntaAlignMask) ecx, orl (ind 12 .sp) ecx, andl (.imm countAlignMask) ecx, jnz .doCopyFault,
  .jmp .doCopyFaultNta]

def xcopyErr : List (Line Label) := [
  .label (.err r), popl .cx, popl .di, movl ecx (ind k.tLofault .dx), popl .si, popl .bp,
  .label (.three r), cmpl (.imm 0) (ind k.tCopyops .dx), jz (.two r), movl (ind k.tCopyops .dx) eax,
  .jmpInd (.base (k.cp r) .ax),
  .label (.two r), .ret 0]

/-- xcopyin_nta and xcopyout_nta. The latter compares the thread, which is in
`%edx`, and not the count. -/
def xcopyNta (count : Place) : List (Line Label) := xcopyTest k r ++ ntaTests k r count ++ xcopyErr k r

def copystr : List (Line Label) := [.label .copystr, movl (var k.cpuThread) eax, movl (ind k.tLofault .ax) eax]

def doCopystr : List (Line Label) := [
  .label .doCopystr, pushl ebp, movl esp ebp, pushl (.place (.reg .bx)), pushl edi, movl (var k.cpuThread) (.reg .bx),
  movl (ind k.tLofault .bx) edi, pushl edi, movl eax (ind k.tLofault .bx), movl (ind 16 .bp) ecx, cmpl (.imm 0) ecx,
  je .copystrEnametoolong, movl (ind 8 .bp) (.reg .bx), movl (ind 12 .bp) edx]

def copystrLoop : List (Line Label) := [
  .label .copystrLoop, decl ecx, movb (ind 0 .bx) al, incl (.reg .bx), movb al (ind 0 .dx), incl edx, cmpb (.imm 0) al,
  je .copystrNull, cmpl (.imm 0) ecx, jne .copystrLoop]

def copystrOut : List (Line Label) := [
  .label .copystrEnametoolong, movl (.imm enametoolong) eax, .jmp .copystrOut,
  .label .copystrNull, xorl eax eax,
  .label .copystrOut, cmpl (.imm 0) (ind 20 .bp), je .copystrDone, movl (ind 16 .bp) edx, subl ecx edx,
  movl (ind 20 .bp) ecx, movl edx (ind 0 .cx),
  .label .copystrDone, popl .di, movl (var k.cpuThread) (.reg .bx), movl edi (ind k.tLofault .bx), popl .di, popl .bx,
  popl .bp, .ret 0]

def copyStrTest : List (Line Label) := [
  .label (.entry r), movl (var k.kernelbase) ecx, .leaLabel (.err r) .ax, cmpl ecx (ind (uaddr r) .sp), jb .doCopystr,
  movl (var k.cpuThread) edx, .jmp (.three r)]

def copyStrErr : List (Line Label) := [
  .label (.err r), popl .di, movl (var k.cpuThread) edx, movl edi (ind k.tLofault .dx), popl .di, popl .bx, popl .bp,
  .label (.three r), movl (ind k.tCopyops .dx) eax, cmpl (.imm 0) eax, jz (.two r), .jmpInd (.base (k.cp r) .ax),
  .label (.two r), movl (.imm efault) eax, .ret 0]

def copyStr : List (Line Label) := copyStrTest k r ++ copyStrErr k r

def text : List (Line Label) :=
  [kcopy k, doCopyFault k, kcopyCopyerr k,
  kcopyNta, doCopyFaultNta k, ntaLoop, kcopyNtaCopyerr k,
  copy k .copyin, xcopyNta k .xcopyinNta (ind 12 .sp), copy k .copyout, xcopyNta k .xcopyoutNta edx,
  copystr k, doCopystr k, copystrLoop, copystrOut k, copyStr k .copyinstr, copyStr k .copyoutstr].flatten

end I386

end SysvDev.Copy.Text
