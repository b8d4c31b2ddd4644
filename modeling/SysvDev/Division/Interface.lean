import SysvDev.Division.Stack

namespace SysvDev.Division.Interface

open Word X86.Memory X86.Machine X86.Run Text

variable {o : State 32} {f : BitVec 32} {x y : BitVec 64} {c : Cfg 32}

/-- A routine called in the state `o`, with the stack pointer at `f + N`, has
returned. It pops `pops` bytes of arguments and has changed nothing outside
the `N` bytes below the stack pointer. -/
structure Returned (o : State 32) (f : BitVec 32) (N pops : Nat) (c : Cfg 32) : Prop where
  ip : c.ip = (load 32 o.mem o.regs.sp).toNat
  sp : c.state.regs.sp = o.regs.sp + BitVec.ofNat 32 (4 + pops)
  bx : c.state.regs.bx = o.regs.bx
  bp : c.state.regs.bp = o.regs.bp
  di : c.state.regs.di = o.regs.di
  outside : ChangedIn f N o.mem c.state.mem

structure Gives (o : State 32) (f : BitVec 32) (N pops : Nat) (v : BitVec 64) (c : Cfg 32) : Prop where
  returned : Returned o f N pops c
  si : c.state.regs.si = o.regs.si
  value : c.state.regs.dx ++ c.state.regs.ax = v

/-- Where a number is returned: in registers, or through the pointer that
is the last argument. -/
inductive Result
  | edxEax | ecxEsi | pmod
  deriving DecidableEq

/-- How a routine is called: the bytes of stack it takes, the bytes of
arguments it pops, whether the dividend is passed in `%edx:%eax`, and where
the results are. -/
structure Entry where
  label : Label
  depth : Nat
  popped : Nat
  inRegs : Bool
  quotient : Option Result
  remainder : Option Result

def pmod (o : State 32) : BitVec 32 := load 32 o.mem (o.regs.sp + 12#32)

def Result.value (o : State 32) (c : Cfg 32) : Result → BitVec 64
  | edxEax => c.state.regs.dx ++ c.state.regs.ax
  | ecxEsi => c.state.regs.cx ++ c.state.regs.si
  | pmod => load 64 c.state.mem (Interface.pmod o)

namespace Entry

def dividend (e : Entry) (o : State 32) : BitVec 64 :=
  if e.inRegs then o.regs.dx ++ o.regs.ax else load 64 o.mem (o.regs.sp + 4#32)

def divisor (e : Entry) (o : State 32) : BitVec 64 :=
  if e.inRegs then load 64 o.mem (o.regs.sp + 4#32) else load 64 o.mem (o.regs.sp + 12#32)

/-- A call may change its part of the stack, and what the pointer points to. -/
def Changes (e : Entry) (o : State 32) (b : BitVec 32) : Prop :=
  (b - (o.regs.sp - BitVec.ofNat 32 e.depth)).toNat < e.depth ∨
    e.remainder = some .pmod ∧ (b - pmod o).toNat < 8

/-- The remainder has a place of its own: it is not stored in the frame, or
over the return address. -/
def Fits (e : Entry) (o : State 32) : Prop :=
  e.remainder = some .pmod → Apart (o.regs.sp - BitVec.ofNat 32 e.depth) (e.depth + 4) (pmod o) 8

/-- What a call has done when it returns, where `div` and `rem` are the
division it is for. -/
structure Divides (e : Entry) (div rem : BitVec 64 → BitVec 64 → BitVec 64) (o : State 32) (c : Cfg 32) : Prop where
  ip : c.ip = (load 32 o.mem o.regs.sp).toNat
  sp : c.state.regs.sp = o.regs.sp + BitVec.ofNat 32 (4 + e.popped)
  bx : c.state.regs.bx = o.regs.bx
  bp : c.state.regs.bp = o.regs.bp
  di : c.state.regs.di = o.regs.di
  si : e.remainder ≠ some .ecxEsi → c.state.regs.si = o.regs.si
  outside : ∀ b, ¬ e.Changes o b → c.state.mem b = o.mem b
  quotient : ∀ p, e.quotient = some p → p.value o c = div (e.dividend o) (e.divisor o)
  remainder : ∀ p, e.remainder = some p → p.value o c = rem (e.dividend o) (e.divisor o)

variable {e : Entry} {div rem : BitVec 64 → BitVec 64 → BitVec 64}

theorem divides_of_returned (hf : o.regs.sp = f + BitVec.ofNat 32 e.depth) (h : Returned o f e.depth e.popped c)
    (hsi : e.remainder ≠ some .ecxEsi → c.state.regs.si = o.regs.si)
    (hq : ∀ p, e.quotient = some p → p.value o c = div (e.dividend o) (e.divisor o))
    (hr : ∀ p, e.remainder = some p → p.value o c = rem (e.dividend o) (e.divisor o)) : e.Divides div rem o c := by
  have hbase : o.regs.sp - BitVec.ofNat 32 e.depth = f := by rw [hf, BitVec.add_sub_cancel]
  refine ⟨h.ip, h.sp, h.bx, h.bp, h.di, hsi, ?_, hq, hr⟩
  intro b hb
  apply h.outside
  rw [Changes, not_or, hbase, Nat.not_lt] at hb
  exact hb.1

theorem divides_quotient (hf : o.regs.sp = f + BitVec.ofNat 32 e.depth) (he : e.quotient = some .edxEax)
    (he' : e.remainder = none) (h : Gives o f e.depth e.popped (div (e.dividend o) (e.divisor o)) c) :
    e.Divides div rem o c := by
  apply divides_of_returned hf h.returned fun _ => h.si
  · intro p hp
    obtain rfl := Option.some.inj (he.symm.trans hp)
    exact h.value
  · intro p hp
    cases he'.symm.trans hp

theorem divides_remainder (hf : o.regs.sp = f + BitVec.ofNat 32 e.depth) (he : e.quotient = none)
    (he' : e.remainder = some .edxEax) (h : Gives o f e.depth e.popped (rem (e.dividend o) (e.divisor o)) c) :
    e.Divides div rem o c := by
  apply divides_of_returned hf h.returned fun _ => h.si
  · intro p hp
    cases he.symm.trans hp
  · intro p hp
    obtain rfl := Option.some.inj (he'.symm.trans hp)
    exact h.value

/-! The arguments on the stack, seen from the frame. -/

theorem dividend_eq (hf : o.regs.sp = f + BitVec.ofNat 32 e.depth) (he : e.inRegs = false) :
    load 64 o.mem (f + BitVec.ofNat 32 (e.depth + 4)) = e.dividend o := by
  rw [dividend, he, if_neg (by rintro ⟨⟩), hf, BitVec.ofNat_add, BitVec.add_assoc]

theorem divisor_eq (hf : o.regs.sp = f + BitVec.ofNat 32 e.depth) (he : e.inRegs = false) :
    load 64 o.mem (f + BitVec.ofNat 32 (e.depth + 12)) = e.divisor o := by
  rw [divisor, he, if_neg (by rintro ⟨⟩), hf, BitVec.ofNat_add, BitVec.add_assoc]

theorem divides_both (hf : o.regs.sp = f + BitVec.ofNat 32 e.depth) (he : e.quotient = some .edxEax)
    (he' : e.remainder = some .ecxEsi) (h : Returned o f e.depth e.popped c)
    (hq : c.state.regs.dx ++ c.state.regs.ax = div (e.dividend o) (e.divisor o))
    (hr : c.state.regs.cx ++ c.state.regs.si = rem (e.dividend o) (e.divisor o)) : e.Divides div rem o c := by
  apply divides_of_returned hf h fun hne => absurd he' hne
  · intro p hp
    obtain rfl := Option.some.inj (he.symm.trans hp)
    exact hq
  · intro p hp
    obtain rfl := Option.some.inj (he'.symm.trans hp)
    exact hr

theorem divides_pmod (hf : o.regs.sp = f + BitVec.ofNat 32 e.depth) (he : e.quotient = some .edxEax)
    (he' : e.remainder = some .pmod) (hip : c.ip = (load 32 o.mem (f + BitVec.ofNat 32 e.depth)).toNat)
    (hsp : c.state.regs.sp = f + BitVec.ofNat 32 (e.depth + (4 + e.popped))) (hbx : c.state.regs.bx = o.regs.bx)
    (hbp : c.state.regs.bp = o.regs.bp) (hsi : c.state.regs.si = o.regs.si) (hdi : c.state.regs.di = o.regs.di)
    (hq : c.state.regs.dx ++ c.state.regs.ax = div (e.dividend o) (e.divisor o))
    (hr : load 64 c.state.mem (pmod o) = rem (e.dividend o) (e.divisor o))
    (hout : ∀ b, e.depth ≤ (b - f).toNat → 8 ≤ (b - pmod o).toNat → c.state.mem b = o.mem b) :
    e.Divides div rem o c := by
  have hbase : o.regs.sp - BitVec.ofNat 32 e.depth = f := by rw [hf, BitVec.add_sub_cancel]
  refine ⟨?_, ?_, hbx, hbp, hdi, fun _ => hsi, ?_, ?_, ?_⟩
  · rw [hip, hf]
  · rw [hsp, hf, BitVec.ofNat_add, BitVec.add_assoc]
  · intro b hb
    rw [Changes, hbase, not_or, Nat.not_lt, not_and, Nat.not_lt] at hb
    exact hout b hb.1 (hb.2 he')
  · intro p hp
    obtain rfl := Option.some.inj (he.symm.trans hp)
    exact hq
  · intro p hp
    obtain rfl := Option.some.inj (he'.symm.trans hp)
    exact hr

end Entry

end SysvDev.Division.Interface
