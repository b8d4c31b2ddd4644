import SysvDev.X86.Cells

namespace SysvDev.Hres.Text

open X86.Memory X86.Machine X86.Machine.Att X86.Run X86.Cells

structure Symbols where
  hrestime : Int
  hrestimeAdj : Int
  hresLastTick : Int
  timedelta : Int
  hresLock : Int
  hrtimeBase : Int
  oneSec : Int
  maxHresAdj : Int
  gethrtimef : Int

inductive Label
  | hresTick | cl1 | cl2 | cl3 | adjHrestime | cl4 | cl5 | cl6 | cl7 | cl8 | one
  deriving DecidableEq

def NANOSEC : Nat := 1000000000

variable (sym : Symbols)

def enter : List (Line Label) :=
  [ .label .hresTick,
    pushl ebp,
    movl esp ebp,
    pushl esi,
    pushl ebx,
    .callInd (.abs sym.gethrtimef) ]

def lock : List (Line Label) :=
  [ movl eax ebx,
    movl edx esi,
    movl (.imm sym.hresLock) eax,
    movl (.imm (-1)) edx,
    .label .cl1,
    .op (.xchgMem 8 .dx (.base 0 .ax)),
    testb dl dl,
    jz .cl3 ]

def spin : List (Line Label) :=
  [ .label .cl2,
    cmpb (.imm 0) (ind 0 .ax),
    .op .pause,
    jne .cl2,
    .jmp .cl1 ]

/-- The interval goes to `hrtime_base`, its low word to `hrestime.tv_nsec`. -/
def interval : List (Line Label) :=
  [ .label .cl3,
    .op (.lea (.abs sym.hresLastTick) .ax),
    movl ebx edx,
    movl esi ecx,
    subl (ind 0 .ax) edx,
    sbbl (ind 4 .ax) ecx,
    addl edx (var sym.hrtimeBase),
    adcl ecx (var (sym.hrtimeBase + 4)),
    addl edx (var (sym.hrestime + 4)),
    movl ebx (ind 0 .ax),
    movl esi (ind 4 .ax) ]

def adjHrestime : List (Line Label) :=
  [ .label .adjHrestime,
    movl (var sym.hrestimeAdj) esi,
    movl (var (sym.hrestimeAdj + 4)) edx,
    andl esi esi,
    jne .cl4,
    andl edx edx,
    jne .cl4,
    subl ecx ecx,
    subl edx edx,
    .jmp .cl5 ]

def clampAbove : List (Line Label) :=
  [ .label .cl4,
    subl ecx ecx,
    subl eax eax,
    subl esi ecx,
    sbbl edx eax,
    andl eax eax,
    jge .cl6,
    movl (var sym.maxHresAdj) ecx,
    subl esi ecx,
    movl edx eax,
    adcl (.imm (-1)) eax,
    jnc .cl7,
    movl (var sym.maxHresAdj) ecx,
    subl edx edx,
    .jmp .cl5 ]

def clampBelow : List (Line Label) :=
  [ .label .cl6,
    movl esi ecx,
    addl (var sym.maxHresAdj) ecx,
    movl edx eax,
    adcl (.imm 0) eax,
    jc .cl7,
    xorl ecx ecx,
    subl (var sym.maxHresAdj) ecx,
    movl (.imm (-1)) edx,
    .jmp .cl5,
    .label .cl7,
    movl esi ecx ]

def applyAdj : List (Line Label) :=
  [ .label .cl5,
    movl (var sym.timedelta) esi,
    subl ecx esi,
    movl (var (sym.timedelta + 4)) eax,
    sbbl edx eax,
    movl esi (var sym.timedelta),
    movl eax (var (sym.timedelta + 4)),
    movl esi (var sym.hrestimeAdj),
    movl eax (var (sym.hrestimeAdj + 4)),
    addl (var (sym.hrestime + 4)) ecx,
    movl ecx eax ]

def carry : List (Line Label) :=
  [ .label .one,
    cmpl (.imm NANOSEC) eax,
    jb .cl8,
    incl (var sym.oneSec),
    incl (var sym.hrestime),
    addl (.imm (-NANOSEC)) eax,
    .jmp .one ]

def finish : List (Line Label) :=
  [ .label .cl8,
    movl eax (var (sym.hrestime + 4)),
    incl (var sym.hresLock),
    popl .bx,
    popl .si,
    .op .leave,
    .ret 0 ]

def hresTick : List (Line Label) :=
  enter sym ++ lock sym ++ spin ++ interval sym ++ adjHrestime sym ++ clampAbove sym ++ clampBelow sym ++ applyAdj sym ++
    carry sym ++ finish sym

/-- The words that the routine works on: the variables, and those of its
frame from its return address downwards. -/
inductive Cell
  | sec | nsec | adjLo | adjHi | lastLo | lastHi | deltaLo | deltaHi | lock | baseLo | baseHi | oneSec | maxAdj
  | timef | ret | bp | si | bx | call
  deriving DecidableEq

/-- `sp` is the stack pointer at entry. -/
def place (sp : BitVec 32) : Cell → BitVec 32
  | .sec => BitVec.ofInt 32 sym.hrestime
  | .nsec => BitVec.ofInt 32 (sym.hrestime + 4)
  | .adjLo => BitVec.ofInt 32 sym.hrestimeAdj
  | .adjHi => BitVec.ofInt 32 (sym.hrestimeAdj + 4)
  | .lastLo => BitVec.ofInt 32 sym.hresLastTick
  | .lastHi => BitVec.ofInt 32 (sym.hresLastTick + 4)
  | .deltaLo => BitVec.ofInt 32 sym.timedelta
  | .deltaHi => BitVec.ofInt 32 (sym.timedelta + 4)
  | .lock => BitVec.ofInt 32 sym.hresLock
  | .baseLo => BitVec.ofInt 32 sym.hrtimeBase
  | .baseHi => BitVec.ofInt 32 (sym.hrtimeBase + 4)
  | .oneSec => BitVec.ofInt 32 sym.oneSec
  | .maxAdj => BitVec.ofInt 32 sym.maxHresAdj
  | .timef => BitVec.ofInt 32 sym.gethrtimef
  | .ret => sp
  | .bp => sp - 4#32
  | .si => sp - 8#32
  | .bx => sp - 12#32
  | .call => sp - 16#32

end SysvDev.Hres.Text
