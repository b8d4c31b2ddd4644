import SysvDev.X86.Machine

namespace SysvDev.Division.Text

open X86.Machine X86.Machine.Att

inductive Label
  | uDivRem | uDiv | udivdi3 | umoddi3 | divdi3 | moddi3
  | udiv64 | urem64 | div64 | rem64 | udivrem64 | sDivRem | divrem64
  | LL (n : Nat)
  deriving DecidableEq

namespace UDivRem

def entry : List (Line Label) := [
  .label .uDivRem, pushl ebp, pushl edi, pushl esi, subl (.imm 48) esp, movl (ind 68 .sp) edi,
  testl edi edi, movl eax (ind 40 .sp), movl edx (ind 44 .sp), movl edi esi, movl edi ecx, jne (.LL 2),
  movl edx eax, cmpl (ind 64 .sp) eax, jae (.LL 21)]

def ll4 : List (Line Label) := [
  .label (.LL 4), movl (ind 72 .sp) ebp, xorl esi esi, movl (ind 40 .sp) eax, movl ecx edi,
  divl (ind 64 .sp), movl edx (ind 0 .bp), xorl edx edx, addl eax esi, movl (.imm 0) (ind 4 .bp),
  adcl edx edi, addl (.imm 48) esp, movl esi eax, popl .si, movl edi edx, popl .di, popl .bp, .ret 0,
  .align 16]

def ll2 : List (Line Label) := [
  .label (.LL 2), movl (ind 44 .sp) eax, xorl edx edx, cmpl esi eax, movl eax (ind 32 .sp),
  movl edx (ind 36 .sp), jae (.LL 6), movl (ind 72 .sp) esi, movl (ind 40 .sp) ebp,
  movl (ind 44 .sp) ecx, movl ebp (ind 0 .si), movl ecx (ind 4 .si), xorl edi edi, xorl esi esi]

def ll22 : List (Line Label) := [
  .label (.LL 22), addl (.imm 48) esp, movl esi eax, popl .si, movl edi edx, popl .di, popl .bp,
  .ret 0, .align 16]

def ll21 : List (Line Label) := [
  .label (.LL 21), movl edi edx, divl (ind 64 .sp), movl eax ecx, .jmp (.LL 4), .align 16]

def ll6 : List (Line Label) := [
  .label (.LL 6), movl (.imm 31) edi, bsrl esi .dx, subl edx edi, movl edi (ind 28 .sp), jne (.LL 8),
  movl (ind 32 .sp) edx, cmpl ecx edx, movl (ind 64 .sp) edi, movl (ind 40 .sp) esi, ja (.LL 10),
  xorl ebp ebp, cmpl edi esi, jb (.LL 11)]

def ll10 : List (Line Label) := [
  .label (.LL 10), movl (.imm 1) ebp, subl edi esi, sbbl ecx edx]

def ll11 : List (Line Label) := [
  .label (.LL 11), movl edx ecx, xorl edx edx, xorl edi edi, addl esi edx, adcl edi ecx,
  movl (ind 72 .sp) esi, movl edx (ind 0 .si), movl ecx (ind 4 .si), xorl edi edi, movl ebp esi,
  .jmp (.LL 22), .align 16]

def ll8 : List (Line Label) := [
  .label (.LL 8), movb (ind 28 .sp) (.reg .cx), movl (ind 64 .sp) esi, movl (ind 68 .sp) edi,
  shldl .si edi, sall .cl esi, andl (.imm 32) ecx, jne (.LL 23)]

def ll17 : List (Line Label) := [
  .label (.LL 17), movl (.imm 32) ecx, subl (ind 28 .sp) ecx, movl esi ebp, movl (ind 32 .sp) esi,
  shrl .cl esi, movl edi (ind 24 .sp), movb (ind 28 .sp) (.reg .cx), movl esi (ind 12 .sp),
  movl (ind 44 .sp) edi, movl (ind 40 .sp) esi, shldl .si edi, sall .cl esi, andl (.imm 32) ecx,
  je (.LL 18), movl esi edi, xorl esi esi]

def ll18 : List (Line Label) := [
  .label (.LL 18), movl edi ecx, movl edi eax, movl ecx (ind 0 .sp), movl (ind 12 .sp) edx,
  divl (ind 24 .sp), movl edx ecx, xorl edi edi, movl eax (ind 20 .sp), movl ebp eax,
  mull (ind 20 .sp), cmpl ecx edx, movl edi (ind 4 .sp), ja (.LL 14), je (.LL 24)]

def ll15 : List (Line Label) := [
  .label (.LL 15), movl ecx edi, subl eax esi, sbbl edx edi, movl edi eax, movl eax edx, xorl eax eax,
  xorl ebp ebp, addl esi eax, adcl ebp edx, movb (ind 28 .sp) (.reg .cx), shrdl .dx eax, shrl .cl edx,
  andl (.imm 32) ecx, je (.LL 16), movl edx eax, xorl edx edx]

def ll16 : List (Line Label) := [
  .label (.LL 16), movl (ind 72 .sp) ecx, movl (ind 20 .sp) esi, xorl edi edi, movl eax (ind 0 .cx),
  movl edx (ind 4 .cx), .jmp (.LL 22), .align 16]

def ll24 : List (Line Label) := [
  .label (.LL 24), cmpl esi eax, jbe (.LL 15)]

def ll14 : List (Line Label) := [
  .label (.LL 14), decl (ind 20 .sp), subl ebp eax, sbbl (ind 24 .sp) edx, .jmp (.LL 15)]

def ll23 : List (Line Label) := [
  .label (.LL 23), movl esi edi, xorl esi esi, .jmp (.LL 17)]

def lines : List (Line Label) :=
  [entry, ll4, ll2, ll22, ll21, ll6, ll10, ll11, ll8, ll17, ll18, ll15, ll16, ll24, ll14, ll23].flatten

end UDivRem

namespace UDiv

def entry : List (Line Label) := [
  .label .uDiv, pushl ebp, pushl edi, pushl esi, subl (.imm 40) esp, movl edx (ind 36 .sp),
  movl (ind 60 .sp) edx, testl edx edx, movl eax (ind 32 .sp), movl edx ecx, movl edx eax,
  jne (.LL 26), movl (ind 36 .sp) esi, cmpl (ind 56 .sp) esi, movl esi eax, movl esi edx, jb (.LL 28),
  movl ecx edx, divl (ind 56 .sp), movl eax ecx]

def ll28 : List (Line Label) := [
  .label (.LL 28), xorl esi esi, movl ecx edi, movl (ind 32 .sp) eax, xorl ecx ecx, divl (ind 56 .sp),
  addl eax esi, adcl ecx edi]

def ll25 : List (Line Label) := [
  .label (.LL 25), addl (.imm 40) esp, movl esi eax, popl .si, movl edi edx, popl .di, popl .bp,
  .ret 0, .align 16]

def ll26 : List (Line Label) := [
  .label (.LL 26), movl (ind 36 .sp) esi, xorl edi edi, movl esi (ind 24 .sp), movl edi (ind 28 .sp),
  xorl esi esi, xorl edi edi, cmpl eax (ind 24 .sp), jb (.LL 25), bsrl eax .bp, movl (.imm 31) eax,
  subl ebp eax, jne (.LL 32), movl (ind 24 .sp) eax, cmpl ecx eax, movl (ind 56 .sp) esi,
  movl (ind 32 .sp) edx, ja (.LL 34), xorl eax eax, cmpl esi edx, jb (.LL 35)]

def ll34 : List (Line Label) := [
  .label (.LL 34), movl (.imm 1) eax]

def ll35 : List (Line Label) := [
  .label (.LL 35), movl eax esi, xorl edi edi]

def ll45 : List (Line Label) := [
  .label (.LL 45), addl (.imm 40) esp, movl esi eax, popl .si, movl edi edx, popl .di, popl .bp,
  .ret 0, .align 16]

def ll32 : List (Line Label) := [
  .label (.LL 32), movb (.place (.reg .ax)) (.reg .cx), movl (ind 56 .sp) esi, movl (ind 60 .sp) edi,
  shldl .si edi, sall .cl esi, andl (.imm 32) ecx, jne (.LL 43)]

def ll40 : List (Line Label) := [
  .label (.LL 40), movl (.imm 32) ecx, subl eax ecx, movl edi edx, movl edi (ind 20 .sp),
  movl (ind 24 .sp) ebp, xorl edi edi, shrl .cl ebp, movl esi (ind 16 .sp),
  movb (.place (.reg .ax)) (.reg .cx), movl (ind 32 .sp) esi, movl edi (ind 12 .sp),
  movl (ind 36 .sp) edi, shldl .si edi, sall .cl esi, andl (.imm 32) ecx, movl edx (ind 8 .sp),
  je (.LL 41), movl esi edi, xorl esi esi]

def ll41 : List (Line Label) := [
  .label (.LL 41), xorl ecx ecx, movl edi eax, movl ebp edx, divl (ind 8 .sp), movl edx ebp,
  movl ecx (ind 4 .sp), movl eax ecx, movl (ind 16 .sp) eax, mull ecx, cmpl ebp edx,
  movl edi (ind 0 .sp), movl esi edi, ja (.LL 38), je (.LL 44)]

def ll39 : List (Line Label) := [
  .label (.LL 39), movl ecx esi]

def ll46 : List (Line Label) := [
  .label (.LL 46), xorl edi edi, .jmp (.LL 45)]

def ll44 : List (Line Label) := [
  .label (.LL 44), cmpl edi eax, jbe (.LL 39)]

def ll38 : List (Line Label) := [
  .label (.LL 38), decl ecx, movl ecx esi, .jmp (.LL 46)]

def ll43 : List (Line Label) := [
  .label (.LL 43), movl esi edi, xorl esi esi, .jmp (.LL 40)]

def lines : List (Line Label) :=
  [entry, ll28, ll25, ll26, ll34, ll35, ll45, ll32, ll40, ll41, ll39, ll46, ll44, ll38, ll43].flatten

end UDiv

/-- `__udivdi3`, and `__udiv64`, which pops its arguments. -/
def udiv (name : Label) (pops : Nat) : List (Line Label) := [
  .label name, movl (ind 4 .sp) eax, movl (ind 8 .sp) edx, pushl (ind 16 .sp), pushl (ind 16 .sp),
  .call .uDiv, addl (.imm 8) esp, .ret pops]

/-- `__umoddi3`, and `__urem64`, which pops its arguments. -/
def urem (name : Label) (pops : Nat) : List (Line Label) := [
  .label name, subl (.imm 12) esp, movl esp ecx, movl (ind 16 .sp) eax, movl (ind 20 .sp) edx,
  pushl ecx, pushl (ind 32 .sp), pushl (ind 32 .sp), .call .uDivRem, movl (ind 12 .sp) eax,
  movl (ind 16 .sp) edx, addl (.imm 24) esp, .ret pops]

/-! `__divdi3`, with `k = 53`, and `__div64`, with `k = 82`. -/
namespace SDiv

def entry (name : Label) (k : Nat) : List (Line Label) := [
  .label name, pushl ebp, pushl edi, pushl esi, subl (.imm 8) esp, movl (ind 28 .sp) edx,
  testl edx edx, movl (ind 24 .sp) eax, movl (ind 32 .sp) esi, movl (ind 36 .sp) edi, js (.LL (k + 2)),
  xorl ebp ebp, testl edi edi, movl eax (ind 0 .sp), movl edx (ind 4 .sp), movl esi eax, movl edi edx,
  js (.LL (k + 3))]

def ll53 (k : Nat) : List (Line Label) := [
  .label (.LL k), pushl edx, pushl eax, movl (ind 8 .sp) eax, movl (ind 12 .sp) edx, .call .uDiv,
  popl .cx, testl ebp ebp, popl .si, je (.LL (k + 1)), negl eax, adcl (.imm 0) edx, negl edx]

def ll54 (k pops : Nat) : List (Line Label) := [
  .label (.LL (k + 1)), addl (.imm 8) esp, popl .si, popl .di, popl .bp, .ret pops, .align 16]

def ll55 (k : Nat) : List (Line Label) := [
  .label (.LL (k + 2)), negl eax, adcl (.imm 0) edx, negl edx, testl edi edi, movl eax (ind 0 .sp),
  movl edx (ind 4 .sp), movl (.imm 1) ebp, movl esi eax, movl edi edx, jns (.LL k), .align 16]

def ll56 (k : Nat) : List (Line Label) := [
  .label (.LL (k + 3)), negl eax, adcl (.imm 0) edx, negl edx, xorl (.imm 1) ebp, .jmp (.LL k)]

def lines (name : Label) (k pops : Nat) : List (Line Label) :=
  [entry name k, ll53 k, ll54 k pops, ll55 k, ll56 k].flatten

end SDiv

/-! `__moddi3`, with `k = 61`, and `__rem64`, with `k = 90`. -/
namespace SRem

def entry (name : Label) (k : Nat) : List (Line Label) := [
  .label name, pushl edi, pushl esi, subl (.imm 20) esp, movl (ind 36 .sp) ecx,
  movl (ind 32 .sp) esi, movl (ind 36 .sp) edi, testl ecx ecx, movl (ind 40 .sp) eax,
  movl (ind 44 .sp) edx, movl esi (ind 0 .sp), movl edi (ind 4 .sp), js (.LL (k + 2)), testl edx edx,
  movl eax esi, movl edx edi, js (.LL (k + 3))]

def ll61 (k pops : Nat) : List (Line Label) := [
  .label (.LL k), leal 8 .sp .ax, pushl eax, pushl edi, pushl esi, movl (ind 12 .sp) eax,
  movl (ind 16 .sp) edx, .call .uDivRem, addl (.imm 12) esp, movl (ind 36 .sp) edi, testl edi edi,
  movl (ind 8 .sp) eax, movl (ind 12 .sp) edx, js (.LL (k + 4)), addl (.imm 20) esp, popl .si, popl .di,
  .ret pops, .align 16]

def ll63 (k : Nat) : List (Line Label) := [
  .label (.LL (k + 2)), negl esi, adcl (.imm 0) edi, negl edi, testl edx edx, movl esi (ind 0 .sp),
  movl edi (ind 4 .sp), movl eax esi, movl edx edi, jns (.LL k), .align 16]

def ll64 (k : Nat) : List (Line Label) := [
  .label (.LL (k + 3)), negl esi, adcl (.imm 0) edi, negl edi, .jmp (.LL k), .align 16]

def ll65 (k pops : Nat) : List (Line Label) := [
  .label (.LL (k + 4)), negl eax, adcl (.imm 0) edx, addl (.imm 20) esp, popl .si, negl edx, popl .di,
  .ret pops]

def lines (name : Label) (k pops : Nat) : List (Line Label) :=
  [entry name k, ll61 k pops, ll63 k, ll64 k, ll65 k pops].flatten

end SRem

def udivdi3 : List (Line Label) := udiv .udivdi3 0

def umoddi3 : List (Line Label) := urem .umoddi3 0

def divdi3 : List (Line Label) := SDiv.lines .divdi3 53 0

def moddi3 : List (Line Label) := SRem.lines .moddi3 61 0

def udiv64 : List (Line Label) := udiv .udiv64 16

def urem64 : List (Line Label) := urem .urem64 16

def div64 : List (Line Label) := SDiv.lines .div64 82 16

def rem64 : List (Line Label) := SRem.lines .rem64 90 16

def udivrem64 : List (Line Label) := [
  .label .udivrem64, subl (.imm 12) esp, movl esp ecx, movl (ind 16 .sp) eax, movl (ind 20 .sp) edx,
  pushl ecx, pushl (ind 32 .sp), pushl (ind 32 .sp), .call .uDivRem, movl (ind 16 .sp) ecx,
  movl (ind 12 .sp) esi, addl (.imm 24) esp, .ret 16]

namespace SDivRem

def entry : List (Line Label) := [
  .label .sDivRem, pushl ebp, pushl edi, pushl esi, subl (.imm 24) esp, testl edx edx, movl edx edi,
  js (.LL 73), movl (ind 44 .sp) esi, xorl ebp ebp, testl esi esi, movl edx (ind 12 .sp),
  movl eax (ind 8 .sp), movl (ind 40 .sp) edx, movl (ind 44 .sp) ecx, js (.LL 74)]

def ll70 : List (Line Label) := [
  .label (.LL 70), leal 16 .sp .ax, pushl eax, pushl ecx, pushl edx, movl (ind 20 .sp) eax,
  movl (ind 24 .sp) edx, .call .uDivRem, movl edx (ind 16 .sp), movl eax (ind 12 .sp),
  addl (.imm 12) esp, testl edi edi, movl (ind 16 .sp) edx, movl (ind 20 .sp) ecx, js (.LL 75)]

def ll71 : List (Line Label) := [
  .label (.LL 71), movl (ind 48 .sp) edi, testl ebp ebp, movl edx (ind 0 .di), movl ecx (ind 4 .di),
  movl (ind 0 .sp) eax, movl (ind 4 .sp) edx, je (.LL 72), negl eax, adcl (.imm 0) edx, negl edx]

def ll72 : List (Line Label) := [
  .label (.LL 72), addl (.imm 24) esp, popl .si, popl .di, popl .bp, .ret 0, .align 16]

def ll73 : List (Line Label) := [
  .label (.LL 73), negl eax, adcl (.imm 0) edx, movl (ind 44 .sp) esi, negl edx, testl esi esi,
  movl edx (ind 12 .sp), movl eax (ind 8 .sp), movl (.imm 1) ebp, movl (ind 40 .sp) edx,
  movl (ind 44 .sp) ecx, jns (.LL 70), .align 16]

def ll74 : List (Line Label) := [
  .label (.LL 74), negl edx, adcl (.imm 0) ecx, negl ecx, xorl (.imm 1) ebp, .jmp (.LL 70), .align 16]

def ll75 : List (Line Label) := [
  .label (.LL 75), negl edx, adcl (.imm 0) ecx, negl ecx, .jmp (.LL 71)]

def lines : List (Line Label) :=
  [entry, ll70, ll71, ll72, ll73, ll74, ll75].flatten

end SDivRem

def divrem64 : List (Line Label) := [
  .label .divrem64, subl (.imm 20) esp, movl esp ecx, movl (ind 24 .sp) eax, movl (ind 28 .sp) edx,
  pushl ecx, pushl (ind 40 .sp), pushl (ind 40 .sp), .call .sDivRem, movl (ind 16 .sp) ecx,
  movl (ind 12 .sp) esi, addl (.imm 32) esp, .ret 16]

/-- The division routines, in the order of the source. -/
def text : List (Line Label) :=
  [UDivRem.lines, UDiv.lines, udivdi3, umoddi3, divdi3, moddi3, udiv64, urem64, div64, rem64, udivrem64,
    SDivRem.lines, divrem64].flatten

abbrev addr (l : Label) : Nat := labelAddr text l

end SysvDev.Division.Text
