import SysvDev.X86.Memory

namespace SysvDev.X86.Machine

open Memory

inductive Reg
  | ax | cx | dx | bx | sp | bp | si | di
  | r8 | r9 | r10 | r11 | r12 | r13 | r14 | r15
  deriving DecidableEq

/-- A flag that an instruction leaves undefined is `none`. -/
structure Flags where
  cf : Option Bool
  zf : Option Bool
  sf : Option Bool
  of : Option Bool
  deriving DecidableEq

/-- The floating point unit: its status word, what an initialisation and a
comparison leave there, and the bytes that it saves. -/
structure Fpu where
  status : BitVec 16
  initial : BitVec 16
  compared : BitVec 16
  image : Nat → BitVec 8

def Fpu.zero : Fpu := ⟨0, 0, 0, fun _ => 0⟩

/-- The registers that amd64 adds, the control registers, those of SSE and the
time stamp counter. -/
structure HighRegs (w : Nat) where
  r8 : BitVec w
  r9 : BitVec w
  r10 : BitVec w
  r11 : BitVec w
  r12 : BitVec w
  r13 : BitVec w
  r14 : BitVec w
  r15 : BitVec w
  cr0 : BitVec w
  xmm : Fin 16 → BitVec 128
  cr4 : BitVec w
  cr8 : BitVec w
  tsc : BitVec 64
  fpu : Fpu

def HighRegs.zero {w : Nat} : HighRegs w := ⟨0, 0, 0, 0, 0, 0, 0, 0, 0, fun _ => 0, 0, 0, 0, .zero⟩

structure Regs (w : Nat) where
  ax : BitVec w
  cx : BitVec w
  dx : BitVec w
  bx : BitVec w
  sp : BitVec w
  bp : BitVec w
  si : BitVec w
  di : BitVec w
  hi : HighRegs w

/-- `df` is the direction flag. -/
structure State (w : Nat) where
  regs : Regs w
  flags : Flags
  df : Bool
  mem : Mem w

/-- `disp(%base)`, an address that the linker has put in, and
`disp(%base, %index, scale)`. -/
inductive Addr
  | base (disp : Int) (base : Reg)
  | abs (a : Int)
  | index (disp : Int) (base index : Reg) (scale : Nat)
  deriving DecidableEq

inductive Place
  | reg (r : Reg)
  | mem (a : Addr)
  deriving DecidableEq

inductive Operand
  | imm (v : Int)
  | place (p : Place)
  deriving DecidableEq

instance : Coe Place Operand := ⟨.place⟩

inductive Alu
  | add | adc | sub | sbb | and | or | xor | cmp | test
  deriving DecidableEq

inductive Shift
  | shl | shr
  deriving DecidableEq

inductive Count
  | imm (k : Nat)
  | cl
  deriving DecidableEq

inductive Cond
  | e | ne | b | ae | be | a | s | ns | l | ge | g | le
  deriving DecidableEq

/-- The instructions that go on with the next line, `n` being the width of
the operands. The source stands before the destination. -/
inductive Op
  | mov (n : Nat) (src : Operand) (dst : Place)
  | movz (k n : Nat) (src dst : Place)
  | movsx (k n : Nat) (src dst : Place)
  | xchg (n : Nat) (a b : Reg)
  | xchgMem (n : Nat) (r : Reg) (a : Addr)
  | cmpxchg (n : Nat) (r : Reg) (a : Addr)
  | cmpxchg8b (a : Addr)
  | bts (n k : Nat) (a : Addr)
  | setcc (c : Cond) (dst : Place)
  | lea (src : Addr) (dst : Reg)
  | push (src : Operand)
  | pop (dst : Reg)
  | leave
  | alu (op : Alu) (n : Nat) (src : Operand) (dst : Place)
  | neg (n : Nat) (dst : Place)
  | inc (n : Nat) (dst : Place)
  | dec (n : Nat) (dst : Place)
  | shift (op : Shift) (n : Nat) (count : Count) (dst : Place)
  | shiftDouble (op : Shift) (n : Nat) (src : Reg) (dst : Place)
  | bsr (n : Nat) (src : Operand) (dst : Reg)
  | mul (n : Nat) (src : Place)
  | div (n : Nat) (src : Place)
  | bswap (dst : Reg)
  | movs (n : Nat)
  | stos (n : Nat)
  | clc
  | cld
  | std
  | mfence
  | pause
  | prefetchnta (src : Addr)
  | nop
  | cli
  | sti
  | clts
  | readCr0 (dst : Reg)
  | writeCr0 (src : Reg)
  | readCr4 (dst : Reg)
  | writeCr4 (src : Reg)
  | writeCr8 (src : Reg)
  | lldt (src : Reg)
  | rdtsc
  | sahf
  | fninit
  | fwait
  | fsetpm
  | fnstsw
  | fld (src : Addr)
  | fdivr
  | fxch
  | fdiv (src : Addr)
  | fcompp
  | fxsave (dst : Addr)
  | loadXmm (src : Addr) (dst : Fin 16)
  | storeXmm (src : Fin 16) (dst : Addr)
  | pxor (src dst : Fin 16)
  deriving DecidableEq

inductive Line (L : Type)
  | label (l : L)
  | align (n : Nat)
  | op (o : Op)
  | rep (o : Op)
  | leaLabel (l : L) (dst : Reg)
  | jmp (l : L)
  | jmpInd (target : Addr)
  | jcc (c : Cond) (l : L)
  | call (l : L)
  | callInd (target : Addr)
  | callReg (target : Reg)
  | ret (pops : Nat)
  deriving DecidableEq

namespace Att

variable {L : Type}

abbrev eax : Place := .reg .ax
abbrev ecx : Place := .reg .cx
abbrev edx : Place := .reg .dx
abbrev esp : Place := .reg .sp
abbrev ebp : Place := .reg .bp
abbrev esi : Place := .reg .si
abbrev edi : Place := .reg .di
abbrev ebx : Place := .reg .bx

abbrev rax : Place := .reg .ax
abbrev rcx : Place := .reg .cx
abbrev rdx : Place := .reg .dx
abbrev rsp : Place := .reg .sp
abbrev rbp : Place := .reg .bp
abbrev rsi : Place := .reg .si
abbrev rdi : Place := .reg .di
abbrev rbx : Place := .reg .bx

abbrev al : Place := .reg .ax
abbrev dl : Place := .reg .dx
abbrev r8 : Place := .reg .r8
abbrev r9 : Place := .reg .r9
abbrev r10 : Place := .reg .r10
abbrev r11 : Place := .reg .r11
abbrev r12 : Place := .reg .r12
abbrev r13 : Place := .reg .r13
abbrev r14 : Place := .reg .r14
abbrev r15 : Place := .reg .r15

abbrev var (a : Int) : Place := .mem (.abs a)

abbrev ind (disp : Int) (base : Reg) : Place := .mem (.base disp base)

abbrev movl (src : Operand) (dst : Place) : Line L := .op (.mov 32 src dst)
abbrev movw (src : Operand) (dst : Place) : Line L := .op (.mov 16 src dst)
abbrev movzwl (src dst : Place) : Line L := .op (.movz 16 32 src dst)
abbrev movb (src : Operand) (dst : Place) : Line L := .op (.mov 8 src dst)
abbrev leal (disp : Int) (base dst : Reg) : Line L := .op (.lea (.base disp base) dst)
abbrev pushl (src : Operand) : Line L := .op (.push src)
abbrev popl (dst : Reg) : Line L := .op (.pop dst)
abbrev addl (src : Operand) (dst : Place) : Line L := .op (.alu .add 32 src dst)
abbrev adcl (src : Operand) (dst : Place) : Line L := .op (.alu .adc 32 src dst)
abbrev addw (src : Operand) (dst : Place) : Line L := .op (.alu .add 16 src dst)
abbrev adcw (src : Operand) (dst : Place) : Line L := .op (.alu .adc 16 src dst)
abbrev subl (src : Operand) (dst : Place) : Line L := .op (.alu .sub 32 src dst)
abbrev sbbl (src : Operand) (dst : Place) : Line L := .op (.alu .sbb 32 src dst)
abbrev andl (src : Operand) (dst : Place) : Line L := .op (.alu .and 32 src dst)
abbrev orl (src : Operand) (dst : Place) : Line L := .op (.alu .or 32 src dst)
abbrev xorl (src : Operand) (dst : Place) : Line L := .op (.alu .xor 32 src dst)
abbrev cmpb (src : Operand) (dst : Place) : Line L := .op (.alu .cmp 8 src dst)
abbrev cmpl (src : Operand) (dst : Place) : Line L := .op (.alu .cmp 32 src dst)
abbrev testb (src : Operand) (dst : Place) : Line L := .op (.alu .test 8 src dst)
abbrev testl (src : Operand) (dst : Place) : Line L := .op (.alu .test 32 src dst)
abbrev negl (dst : Place) : Line L := .op (.neg 32 dst)
abbrev incl (dst : Place) : Line L := .op (.inc 32 dst)
abbrev decl (dst : Place) : Line L := .op (.dec 32 dst)
abbrev sall (count : Count) (dst : Place) : Line L := .op (.shift .shl 32 count dst)
abbrev shrl (count : Count) (dst : Place) : Line L := .op (.shift .shr 32 count dst)
abbrev shldl (src : Reg) (dst : Place) : Line L := .op (.shiftDouble .shl 32 src dst)
abbrev shrdl (src : Reg) (dst : Place) : Line L := .op (.shiftDouble .shr 32 src dst)
abbrev bsrl (src : Operand) (dst : Reg) : Line L := .op (.bsr 32 src dst)
abbrev mull (src : Place) : Line L := .op (.mul 32 src)
abbrev divl (src : Place) : Line L := .op (.div 32 src)
abbrev testq (src : Operand) (dst : Place) : Line L := .op (.alu .test 64 src dst)
abbrev pushq (src : Operand) : Line L := .op (.push src)
abbrev leaq (src : Addr) (dst : Reg) : Line L := .op (.lea src dst)
abbrev movq (src : Operand) (dst : Place) : Line L := .op (.mov 64 src dst)
abbrev xchgq (a b : Reg) : Line L := .op (.xchg 64 a b)
abbrev addq (src : Operand) (dst : Place) : Line L := .op (.alu .add 64 src dst)
abbrev subq (src : Operand) (dst : Place) : Line L := .op (.alu .sub 64 src dst)
abbrev andq (src : Operand) (dst : Place) : Line L := .op (.alu .and 64 src dst)
abbrev orq (src : Operand) (dst : Place) : Line L := .op (.alu .or 64 src dst)
abbrev orb (src : Operand) (dst : Place) : Line L := .op (.alu .or 8 src dst)
abbrev popq (dst : Reg) : Line L := .op (.pop dst)
abbrev shlq (count : Count) (dst : Place) : Line L := .op (.shift .shl 64 count dst)
abbrev cmpq (src : Operand) (dst : Place) : Line L := .op (.alu .cmp 64 src dst)
abbrev incq (dst : Place) : Line L := .op (.inc 64 dst)
abbrev decq (dst : Place) : Line L := .op (.dec 64 dst)
abbrev shrq (count : Count) (dst : Place) : Line L := .op (.shift .shr 64 count dst)
abbrev negq (dst : Place) : Line L := .op (.neg 64 dst)
/-- A move that does not go through the cache. -/
abbrev movnti (n : Nat) (src : Reg) (dst : Addr) : Line L := .op (.mov n (.place (.reg src)) (.mem dst))
abbrev movsb : Op := .movs 8
abbrev movsl : Op := .movs 32
abbrev movsq : Op := .movs 64
abbrev jne (l : L) : Line L := .jcc .ne l
abbrev jnz (l : L) : Line L := .jcc .ne l
abbrev jz (l : L) : Line L := .jcc .e l
abbrev jl (l : L) : Line L := .jcc .l l
abbrev je (l : L) : Line L := .jcc .e l
abbrev jae (l : L) : Line L := .jcc .ae l
abbrev jb (l : L) : Line L := .jcc .b l
abbrev ja (l : L) : Line L := .jcc .a l
abbrev jbe (l : L) : Line L := .jcc .be l
abbrev js (l : L) : Line L := .jcc .s l
abbrev jns (l : L) : Line L := .jcc .ns l
abbrev jge (l : L) : Line L := .jcc .ge l
abbrev jg (l : L) : Line L := .jcc .g l
abbrev jle (l : L) : Line L := .jcc .le l
abbrev jc (l : L) : Line L := .jcc .b l
abbrev jnc (l : L) : Line L := .jcc .ae l

end Att

variable {w n : Nat} {L : Type} [DecidableEq L]

@[simp] def Regs.get (g : Regs w) : Reg → BitVec w
  | .ax => g.ax
  | .cx => g.cx
  | .dx => g.dx
  | .bx => g.bx
  | .sp => g.sp
  | .bp => g.bp
  | .si => g.si
  | .di => g.di
  | .r8 => g.hi.r8
  | .r9 => g.hi.r9
  | .r10 => g.hi.r10
  | .r11 => g.hi.r11
  | .r12 => g.hi.r12
  | .r13 => g.hi.r13
  | .r14 => g.hi.r14
  | .r15 => g.hi.r15

@[simp] def Regs.set (g : Regs w) (r : Reg) (v : BitVec w) : Regs w :=
  match r with
  | .ax => { g with ax := v }
  | .cx => { g with cx := v }
  | .dx => { g with dx := v }
  | .bx => { g with bx := v }
  | .sp => { g with sp := v }
  | .bp => { g with bp := v }
  | .si => { g with si := v }
  | .di => { g with di := v }
  | .r8 => { g with hi := { g.hi with r8 := v } }
  | .r9 => { g with hi := { g.hi with r9 := v } }
  | .r10 => { g with hi := { g.hi with r10 := v } }
  | .r11 => { g with hi := { g.hi with r11 := v } }
  | .r12 => { g with hi := { g.hi with r12 := v } }
  | .r13 => { g with hi := { g.hi with r13 := v } }
  | .r14 => { g with hi := { g.hi with r14 := v } }
  | .r15 => { g with hi := { g.hi with r15 := v } }

namespace State

@[simp] def addr (s : State w) : Addr → BitVec w
  | .base disp base => s.regs.get base + BitVec.ofInt w disp
  | .abs a => BitVec.ofInt w a
  | .index disp base index scale =>
      s.regs.get base + BitVec.ofNat w scale * s.regs.get index + BitVec.ofInt w disp

@[simp] def read (n : Nat) (s : State w) : Place → BitVec n
  | .reg r => (s.regs.get r).setWidth n
  | .mem a => load n s.mem (s.addr a)

@[simp] def value (n : Nat) (s : State w) : Operand → BitVec n
  | .imm v => BitVec.ofInt n v
  | .place p => s.read n p

/-- The register with `v` in its low part. From 32 bits on the rest of the
register is cleared. -/
def merge (old : BitVec w) (v : BitVec n) : BitVec w :=
  if 32 ≤ n then v.setWidth w else (old >>> n) <<< n ||| v.setWidth w

@[simp] def setReg (s : State w) (r : Reg) (v : BitVec n) : State w :=
  { s with regs := s.regs.set r (merge (s.regs.get r) v) }

@[simp] def write (s : State w) (v : BitVec n) : Place → State w
  | .reg r => s.setReg r v
  | .mem a => { s with mem := store s.mem (s.addr a) v }

@[simp] def setFlags (s : State w) (flags : Flags) : State w := { s with flags }

end State

def resultFlags (cf of : Option Bool) (v : BitVec n) : Flags := ⟨cf, some (v == 0#n), some v.msb, of⟩

def undefinedFlags : Flags := ⟨none, none, none, none⟩

/-- The result does not fit when it is read as a signed number. -/
def signedOverflow (n : Nat) (z : Int) : Bool := z < -2 ^ (n - 1) ∨ 2 ^ (n - 1) ≤ z

def sum (src dst : BitVec n) (carry : Bool) : BitVec n × Flags :=
  let v := dst + src + BitVec.ofNat n carry.toNat
  (v, resultFlags (some (2 ^ n ≤ dst.toNat + src.toNat + carry.toNat))
    (some (signedOverflow n (dst.toInt + src.toInt + carry.toNat))) v)

def difference (src dst : BitVec n) (borrow : Bool) : BitVec n × Flags :=
  let v := dst - src - BitVec.ofNat n borrow.toNat
  (v, resultFlags (some (dst.toNat < src.toNat + borrow.toNat))
    (some (signedOverflow n (dst.toInt - src.toInt - borrow.toNat))) v)

def logical (v : BitVec n) : BitVec n × Flags := (v, resultFlags (some false) (some false) v)

def Alu.eval (op : Alu) (cf : Option Bool) (src dst : BitVec n) : Option (BitVec n × Flags) :=
  match op with
  | .add => some (sum src dst false)
  | .adc => cf.map (sum src dst)
  | .sub | .cmp => some (difference src dst false)
  | .sbb => cf.map (difference src dst)
  | .and | .test => some (logical (dst &&& src))
  | .or => some (logical (dst ||| src))
  | .xor => some (logical (dst ^^^ src))

def Alu.writes : Alu → Bool
  | .cmp | .test => false
  | _ => true

@[simp] def Count.eval (s : State w) (n : Nat) (count : Count) : Nat :=
  (match count with
    | .imm k => k
    | .cl => (s.read 8 (.reg .cx)).toNat) % (if n = 64 then 64 else 32)

def negative (v : BitVec n) : BitVec n × Flags :=
  (-v, resultFlags (some (v != 0#n)) (some (v == BitVec.intMin n)) (-v))

def increment (cf : Option Bool) (v : BitVec n) : BitVec n × Flags :=
  (v + 1#n, resultFlags cf (some (v == BitVec.intMax n)) (v + 1#n))

def decrement (cf : Option Bool) (v : BitVec n) : BitVec n × Flags :=
  (v - 1#n, resultFlags cf (some (v == BitVec.intMin n)) (v - 1#n))

/-- The result of a shift by `k > 0`. The carry is the last bit shifted out,
and the overflow flag is defined for a shift by one only. -/
def Shift.eval (op : Shift) (k : Nat) (v : BitVec n) : BitVec n × Flags :=
  match op with
  | .shl =>
      let r := v <<< k
      (r, resultFlags (some (v.getLsbD (n - k))) (if k = 1 then some (r.msb != v.msb) else none) r)
  | .shr =>
      let r := v >>> k
      (r, resultFlags (some (v.getLsbD (k - 1))) (if k = 1 then some v.msb else none) r)

/-- A shift of `v` that takes in the bits of `src`. -/
def shiftDouble (op : Shift) (k : Nat) (src v : BitVec n) : BitVec n × Flags :=
  match op with
  | .shl =>
      let r := v <<< k ||| src >>> (n - k)
      (r, resultFlags (some (v.getLsbD (n - k))) (if k = 1 then some (r.msb != v.msb) else none) r)
  | .shr =>
      let r := v >>> k ||| src <<< (n - k)
      (r, resultFlags (some (v.getLsbD (k - 1))) (if k = 1 then some (r.msb != v.msb) else none) r)

@[simp] def State.put (s : State w) (dst : Place) (r : BitVec n × Flags) : State w := (s.write r.1 dst).setFlags r.2

@[simp] def State.push (s : State w) (v : BitVec w) : State w :=
  let sp := s.regs.sp - BitVec.ofNat w (w / 8)
  { s with regs := { s.regs with sp }, mem := store s.mem sp v }

/-- The word on the stack, and the state without it and without `k` bytes
more. -/
@[simp] def State.pop (s : State w) (k : Nat) : BitVec w × State w :=
  (load w s.mem s.regs.sp, { s with regs := { s.regs with sp := s.regs.sp + BitVec.ofNat w (w / 8 + k) } })

def reverseBytes (v : BitVec 32) : BitVec 32 :=
  v.extractLsb' 0 8 ++ v.extractLsb' 8 8 ++ v.extractLsb' 16 8 ++ v.extractLsb' 24 8

def highProduct (a b : BitVec n) : BitVec n := BitVec.ofNat n (a.toNat * b.toNat / 2 ^ n)

/-- The divisor is zero, or the quotient of `hi:lo` has no room in a word. -/
def DivideError (hi lo v : BitVec n) : Prop := v.toNat = 0 ∨ ¬ (hi.toNat * 2 ^ n + lo.toNat) / v.toNat < 2 ^ n

instance (hi lo v : BitVec n) : Decidable (DivideError hi lo v) := inferInstanceAs (Decidable (_ ∨ _))

def quotient (hi lo v : BitVec n) : BitVec n := BitVec.ofNat n ((hi.toNat * 2 ^ n + lo.toNat) / v.toNat)

def remainder (hi lo v : BitVec n) : BitVec n := BitVec.ofNat n ((hi.toNat * 2 ^ n + lo.toNat) % v.toNat)

/-- The string move: `n` bits from `%si` to `%di`, and both registers on or
back. -/
@[simp] def State.movs (n : Nat) (s : State w) : State w :=
  let v := load n s.mem s.regs.si
  let k := BitVec.ofNat w (n / 8)
  { s with
    regs := { s.regs with
      si := if s.df then s.regs.si - k else s.regs.si + k
      di := if s.df then s.regs.di - k else s.regs.di + k }
    mem := store s.mem s.regs.di v }

/-- The string store: `n` bits of `%ax` to `%di`, and the register on or back. -/
@[simp] def State.stos (n : Nat) (s : State w) : State w :=
  let k := BitVec.ofNat w (n / 8)
  { s with
    regs := { s.regs with di := if s.df then s.regs.di - k else s.regs.di + k }
    mem := store s.mem s.regs.di (s.read n (.reg .ax)) }

@[simp] def State.setCr0 (s : State w) (v : BitVec w) : State w :=
  { s with regs := { s.regs with hi := { s.regs.hi with cr0 := v } } }

@[simp] def State.setXmm (s : State w) (x : Fin 16) (v : BitVec 128) : State w :=
  { s with regs := { s.regs with hi := { s.regs.hi with xmm := Function.update s.regs.hi.xmm x v } } }

/-- The bit of `%cr0` with which the instructions of SSE trap. -/
def CR0_TS : Int := 8

def State.Switched (s : State w) : Prop := s.regs.hi.cr0 &&& BitVec.ofInt w CR0_TS ≠ 0#w

/-- An instruction of SSE may go to the address. -/
def State.Quad (s : State w) (a : Addr) : Prop := ¬ s.Switched ∧ (s.addr a).toNat % 16 = 0

instance (s : State w) : Decidable s.Switched := inferInstanceAs (Decidable (_ ≠ _))

instance (s : State w) (a : Addr) : Decidable (s.Quad a) := inferInstanceAs (Decidable (_ ∧ _))

/-- What saves the state of the floating point unit: 512 bytes. -/
def FXSAVE_STATE_SIZE : Nat := 512

def State.fxsave (s : State w) (a : BitVec w) : State w :=
  { s with mem := fun b => if (b - a).toNat < FXSAVE_STATE_SIZE then s.regs.hi.fpu.image (b - a).toNat else s.mem b }

@[simp] def State.setCr4 (s : State w) (v : BitVec w) : State w :=
  { s with regs := { s.regs with hi := { s.regs.hi with cr4 := v } } }

@[simp] def State.setCr8 (s : State w) (v : BitVec w) : State w :=
  { s with regs := { s.regs with hi := { s.regs.hi with cr8 := v } } }

@[simp] def State.setStatus (s : State w) (v : BitVec 16) : State w :=
  { s with regs := { s.regs with hi := { s.regs.hi with fpu := { s.regs.hi.fpu with status := v } } } }

def ahFlags (ax : BitVec 16) (of : Option Bool) : Flags :=
  ⟨some (ax.getLsbD 8), some (ax.getLsbD 14), some (ax.getLsbD 15), of⟩

/-- A comparison with `%ax`: where the word in memory is the same, the
register is stored there, and if not, `%ax` takes its value. -/
def State.cmpxchg (s : State w) (n : Nat) (r : Reg) (a : Addr) : State w :=
  let old : BitVec n := load n s.mem (s.addr a)
  let t := s.setFlags (difference old (s.read n (.reg .ax)) false).2
  if s.read n (.reg .ax) = old then t.write (s.read n (.reg r)) (.mem a) else t.setReg .ax old

/-- The same with `%edx:%eax` and `%ecx:%ebx`. -/
def State.cmpxchg8b (s : State w) (a : Addr) : State w :=
  let old : BitVec (32 + 32) := load 64 s.mem (s.addr a)
  let same := s.read 32 (.reg .dx) ++ s.read 32 (.reg .ax) = old
  let t := s.setFlags { s.flags with zf := some (decide same) }
  if same then t.write (s.read 32 (.reg .cx) ++ s.read 32 (.reg .bx)) (.mem a)
  else (t.setReg .dx (old.extractLsb' 32 32)).setReg .ax (old.setWidth 32)

@[simp] def State.bts (s : State w) (n k : Nat) (a : Addr) : State w :=
  let v : BitVec n := load n s.mem (s.addr a)
  (s.write (v ||| BitVec.twoPow n k) (.mem a)).setFlags
    { undefinedFlags with cf := some (v.getLsbD k), zf := s.flags.zf }

@[simp] def Cond.eval (f : Flags) : Cond → Option Bool
  | .e => f.zf
  | .ne => f.zf.map not
  | .b => f.cf
  | .ae => f.cf.map not
  | .be => f.cf.bind fun c => f.zf.map fun z => c || z
  | .a => f.cf.bind fun c => f.zf.map fun z => !(c || z)
  | .s => f.sf
  | .ns => f.sf.map not
  | .l => f.sf.bind fun s => f.of.map fun o => s != o
  | .ge => f.sf.bind fun s => f.of.map fun o => s == o
  | .g => f.zf.bind fun z => f.sf.bind fun s => f.of.map fun o => !z && s == o
  | .le => f.zf.bind fun z => f.sf.bind fun s => f.of.map fun o => z || s != o

/-- One instruction. A division whose quotient has no room, a flag that is
undefined where it is needed, a result that is undefined and an instruction
of SSE that traps stop the machine. Whether interrupts are enabled is not part
of the state, nor are the LDT and the registers of the floating point unit. -/
def exec (s : State w) : Op → Option (State w)
  | .mov n src dst => some (s.write (s.value n src) dst)
  | .movz k n src dst => some (s.write ((s.read k src).setWidth n) dst)
  | .movsx k n src dst => some (s.write ((s.read k src).signExtend n) dst)
  | .xchg n a b => some ((s.setReg a (s.read n (.reg b))).setReg b (s.read n (.reg a)))
  | .xchgMem n r a => some ((s.write (s.read n (.reg r)) (.mem a)).setReg r (s.read n (.mem a)))
  | .cmpxchg n r a => some (s.cmpxchg n r a)
  | .cmpxchg8b a => some (s.cmpxchg8b a)
  | .bts n k a => some (s.bts n k a)
  | .setcc c dst => (c.eval s.flags).map fun b => s.write (BitVec.ofNat 8 b.toNat) dst
  | .lea src dst => some (s.setReg dst (s.addr src))
  | .push src => some (s.push (s.value w src))
  | .pop dst => some ((s.pop 0).2.setReg dst (s.pop 0).1)
  | .leave =>
      let t := s.setReg .sp s.regs.bp
      some ((t.pop 0).2.setReg .bp (t.pop 0).1)
  | .alu op n src dst =>
      (op.eval s.flags.cf (s.value n src) (s.read n dst)).map fun r =>
        if op.writes then s.put dst r else s.setFlags r.2
  | .neg n dst => some (s.put dst (negative (s.read n dst)))
  | .inc n dst => some (s.put dst (increment s.flags.cf (s.read n dst)))
  | .dec n dst => some (s.put dst (decrement s.flags.cf (s.read n dst)))
  | .shift op n count dst =>
      let k := count.eval s n
      if k = 0 then some s else some (s.put dst (op.eval k (s.read n dst)))
  | .shiftDouble op n src dst =>
      let k := Count.cl.eval s n
      if k = 0 then some s
      else if n < k then none
      else some (s.put dst (Machine.shiftDouble op k (s.read n (.reg src)) (s.read n dst)))
  | .bsr n src dst =>
      let v := s.value n src
      if v = 0#n then some (s.setFlags { undefinedFlags with zf := some true })
      else some ((s.setReg dst (BitVec.ofNat n v.toNat.log2)).setFlags { undefinedFlags with zf := some false })
  | .mul n src =>
      let a := s.read n (.reg .ax)
      let b := s.read n src
      let hi := highProduct a b
      some (((s.setReg .ax (a * b)).setReg .dx hi).setFlags
        { undefinedFlags with cf := some (hi != 0#n), of := some (hi != 0#n) })
  | .div n src =>
      let hi := s.read n (.reg .dx)
      let lo := s.read n (.reg .ax)
      let v := s.read n src
      if DivideError hi lo v then none
      else some (((s.setReg .ax (quotient hi lo v)).setReg .dx (remainder hi lo v)).setFlags undefinedFlags)
  | .bswap dst => some (s.setReg dst (reverseBytes (s.read 32 (.reg dst))))
  | .movs n => some (s.movs n)
  | .stos n => some (s.stos n)
  | .clc => some (s.setFlags { s.flags with cf := some false })
  | .cld => some { s with df := false }
  | .std => some { s with df := true }
  | .mfence => some s
  | .pause => some s
  | .prefetchnta _ => some s
  | .nop | .cli | .sti => some s
  | .clts => some (s.setCr0 (s.regs.hi.cr0 &&& ~~~BitVec.ofInt w CR0_TS))
  | .readCr0 dst => some (s.setReg dst s.regs.hi.cr0)
  | .writeCr0 src => some (s.setCr0 (s.regs.get src))
  | .readCr4 dst => some (s.setReg dst s.regs.hi.cr4)
  | .writeCr4 src => some (s.setCr4 (s.regs.get src))
  | .writeCr8 src => some (s.setCr8 (s.regs.get src))
  | .rdtsc => some ((s.setReg .dx (s.regs.hi.tsc.extractLsb' 32 32)).setReg .ax (s.regs.hi.tsc.setWidth 32))
  | .sahf => some (s.setFlags (ahFlags (s.read 16 (.reg .ax)) s.flags.of))
  | .fninit => some (s.setStatus s.regs.hi.fpu.initial)
  | .fcompp => some (s.setStatus s.regs.hi.fpu.compared)
  | .fnstsw => some (s.setReg .ax s.regs.hi.fpu.status)
  | .lldt _ | .fwait | .fsetpm | .fld _ | .fdivr | .fxch | .fdiv _ => some s
  | .fxsave dst => if (s.addr dst).toNat % 16 = 0 then some (s.fxsave (s.addr dst)) else none
  | .loadXmm src dst => if s.Quad src then some (s.setXmm dst (load 128 s.mem (s.addr src))) else none
  | .storeXmm src dst =>
      if s.Quad dst then some { s with mem := store s.mem (s.addr dst) (s.regs.hi.xmm src) } else none
  | .pxor src dst =>
      if s.Switched then none else some (s.setXmm dst (s.regs.hi.xmm dst ^^^ s.regs.hi.xmm src))

/-- A point of the run. Addresses of code are positions in the text. -/
structure Cfg (w : Nat) where
  ip : Nat
  state : State w

def isLabel (l : L) : Line L → Bool
  | .label l' => l = l'
  | _ => false

def labelAddr (text : List (Line L)) (l : L) : Nat := text.findIdx (isLabel l)

/-- What a line does at `ip`: the state after it, and where to go on if not
with the next line. A repeated instruction is one step each time. -/
def execLine (text : List (Line L)) (ip : Nat) (s : State w) : Line L → Option (State w × Option Nat)
  | .label _ | .align _ => some (s, none)
  | .op o => (exec s o).map fun t => (t, none)
  | .rep o =>
      if s.regs.cx = 0#w then some (s, none)
      else (exec s o).map fun t => ({ t with regs := { t.regs with cx := t.regs.cx - 1#w } }, some ip)
  | .leaLabel l dst => some (s.setReg dst (BitVec.ofNat w (labelAddr text l)), none)
  | .jmp l => some (s, some (labelAddr text l))
  | .jmpInd target => some (s, some (load w s.mem (s.addr target)).toNat)
  | .jcc c l => (c.eval s.flags).map fun taken => (s, if taken then some (labelAddr text l) else none)
  | .call l => some (s.push (BitVec.ofNat w (ip + 1)), some (labelAddr text l))
  | .callInd target =>
      some (s.push (BitVec.ofNat w (ip + 1)), some (load w s.mem (s.addr target)).toNat)
  | .callReg target => some (s.push (BitVec.ofNat w (ip + 1)), some (s.regs.get target).toNat)
  | .ret pops => some ((s.pop pops).2, some (s.pop pops).1.toNat)

def next (text : List (Line L)) (c : Cfg w) : Option (Cfg w) :=
  text[c.ip]?.bind fun line =>
    (execLine text c.ip c.state line).map fun r => ⟨r.2.getD (c.ip + 1), r.1⟩

end SysvDev.X86.Machine
