import SysvDev.Transition
import SysvDev.Regexp.Opcode
import Mathlib.Logic.Function.Basic

namespace SysvDev.Regexp.Compile

open Opcode

/-- The arguments of `compile` and what it is given through macros and
globals. Buffer addresses count from the `ep` it is called with. -/
structure Input where
  pattern : List Byte
  signedChar : Bool
  eof : Int
  endbuf : Nat
  sed : Bool

/-- The value `GETC()` has for a byte of the pattern. -/
def Input.char (inp : Input) (b : Byte) : Int := if inp.signedChar then b.toInt else b.toNat

/-- The points of `compile` where it branches or reads the pattern, with the
locals that are live there, and the ways it can stop. `iflag` is true as
long as the bracket list has the short map. -/
inductive Label
  | entry
  | loop
  | defchar (c : Int)
  | listOpen
  | list (c lc : Int) (neg iflag : Bool)
  | rangeEnd (lc : Int) (neg iflag : Bool)
  | listNext (lc : Int) (neg iflag : Bool)
  | escape
  | bra
  | ket
  | back (c : Int)
  | interval
  | nlim (cflg : Nat)
  | digits (c i : Int) (cflg : Nat)
  | limit (c i : Int) (cflg : Nat)
  | upper (i : Int)
  | closeBrace (i : Int) (cflg : Nat)
  | returned
  | error (val : Nat)
  | overrun (addr : Nat)
  | underrun (addr : Int)
  | overread
  deriving DecidableEq

structure State where
  sp : Nat
  ep : Nat
  mem : Nat → Byte
  lastep : Option Nat
  bracket : List Byte
  closed : Nat
  nbra : Nat
  circf : Nat
  nodelim : Bool

structure Cfg where
  label : Label
  state : State

@[simp] def ch (c : Char) : Int := c.toNat

/-- `int` arithmetic wraps around. -/
def wrap (i : Int) : Int := i.bmod (2 ^ 32)

def toChar (i : Int) : Byte := BitVec.ofInt 8 i

section

variable (inp : Input)

abbrev goto (label : Label) (s : State) : Cfg := ⟨label, s⟩

abbrev fail (val : Nat) (s : State) : Cfg := goto (.error val) s

def getc (s : State) (k : Int → State → Cfg) : Cfg :=
  match inp.pattern[s.sp]? with
  | none => goto .overread s
  | some b => k (inp.char b) { s with sp := s.sp + 1 }

def peekc (s : State) (k : Int → Cfg) : Cfg :=
  match inp.pattern[s.sp]? with
  | none => goto .overread s
  | some b => k (inp.char b)

def ungetc (s : State) : State := { s with sp := s.sp - 1 }

def store (addr : Nat) (b : Byte) (s : State) (k : State → Cfg) : Cfg :=
  if addr < inp.endbuf then k { s with mem := Function.update s.mem addr b }
  else goto (.overrun addr) s

/-- Change `n` bytes from `addr` on. -/
def storeAll (addr n : Nat) (f : Nat → Byte → Byte) (s : State) (k : State → Cfg) : Cfg :=
  if addr + n ≤ inp.endbuf then
    k { s with mem := fun a => if addr ≤ a ∧ a < addr + n then f (a - addr) (s.mem a) else s.mem a }
  else goto (.overrun (max addr inp.endbuf)) s

/-- `*ep++ = b` -/
def emit (b : Byte) (s : State) (k : State → Cfg) : Cfg :=
  store inp s.ep b s fun s => k { s with ep := s.ep + 1 }

/-- `ep[c >> 3] |= bittab[c & 07]` -/
def place (x : Int) (s : State) (k : State → Cfg) : Cfg :=
  let addr := s.ep + x / 8
  if addr < 0 then goto (.underrun addr) s
  else store inp addr.toNat (s.mem addr.toNat ||| bittab (x % 8).toNat) s k

/-- `while (lc < c) { PLACE(lc); lc++; }`, for `n` turns. -/
def placeFrom : Nat → Int → State → (State → Cfg) → Cfg
  | 0, _, s, k => k s
  | n + 1, lc, s, k => place inp lc s fun s => placeFrom n (lc + 1) s k

def entry (s : State) : Cfg :=
  getc inp s fun x s =>
    if x = inp.eof ∨ x = ch '\n' then
      let s := if x = ch '\n' then { ungetc s with nodelim := true } else s
      if s.mem s.ep = 0#8 ∧ inp.sed = false then fail 41 s else goto .returned s
    else
      let s := { s with bracket := [], circf := 0, closed := 0, nbra := 0 }
      goto .loop (if x = ch '^' then { s with circf := 1 } else ungetc s)

def defchar (x : Int) (s : State) : Cfg :=
  emit inp cchr { s with lastep := some s.ep } fun s => emit inp (toChar x) s (goto .loop)

/-- The end of the pattern: `*ep++ = CCEOF`. -/
def finish (s : State) : Cfg :=
  emit inp cceof s fun s => if s.bracket ≠ [] then fail 42 s else goto .returned s

/-- The next character, with `lastep` set unless it is going to change the
last instruction. -/
def nextChar (s : State) (k : Int → State → Cfg) : Cfg :=
  getc inp s fun x s =>
    if x = ch '*' then k x s
    else if x = ch '\\' then
      peekc inp s fun y => k x (if y = ch '{' then s else { s with lastep := some s.ep })
    else k x { s with lastep := some s.ep }

def loop (s : State) : Cfg :=
  if inp.endbuf ≤ s.ep then fail 50 s
  else
    nextChar inp s fun x s =>
      if x = inp.eof then finish inp s
      else if x = ch '.' then emit inp cdot s (goto .loop)
      else if x = ch '\n' then
        if inp.sed then fail 36 s else finish inp { ungetc s with nodelim := true }
      else if x = ch '*' then
        match s.lastep with
        | none => goto (.defchar x) s
        | some last =>
            if s.mem last = cbra ∨ s.mem last = cket then goto (.defchar x) s
            else store inp last (s.mem last ||| star) s (goto .loop)
      else if x = ch '$' then
        peekc inp s fun y =>
          if y ≠ inp.eof ∧ y ≠ ch '\n' then goto (.defchar x) s else emit inp cdol s (goto .loop)
      else if x = ch '[' then
        if inp.endbuf ≤ s.ep + 17 then fail 50 s
        else
          emit inp ccl s fun s =>
            storeAll inp s.ep 16 (fun _ _ => 0#8) s (goto .listOpen)
      else if x = ch '\\' then goto .escape s
      else goto (.defchar x) s

def listOpen (s : State) : Cfg :=
  getc inp s fun x s =>
    if x = ch '^' then getc inp s fun x s => goto (.list x 0 true true) s
    else goto (.list x 0 false true) s

/-- A character above 127 makes the map 32 bytes long. -/
def widen (x : Int) (iflag : Bool) (s : State) (k : Bool → State → Cfg) : Cfg :=
  if 128 ≤ x % 256 ∧ iflag then
    if inp.endbuf ≤ s.ep + 32 then fail 50 s
    else
      store inp (s.ep - 1) cxcl s fun s =>
        storeAll inp (s.ep + 16) 16 (fun _ _ => 0#8) s (k false)
  else k iflag s

def list (x lc : Int) (neg iflag : Bool) (s : State) : Cfg :=
  let x := x % 256
  if x = 0 ∨ x = ch '\n' then fail 49 s
  else
    widen inp x iflag s fun iflag s =>
      if x = ch '-' ∧ lc ≠ 0 then goto (.rangeEnd lc neg iflag) s
      else place inp x s (goto (.listNext x neg iflag))

def close (neg iflag : Bool) (s : State) : Cfg :=
  let size := if iflag then 16 else 32
  let done := fun s : State => goto .loop { s with ep := s.ep + size }
  if neg then
    if iflag then
      store inp (s.ep - 1) nccl s fun s => store inp s.ep (s.mem s.ep ||| 1#8) s done
    else
      storeAll inp s.ep 32 (fun _ b => b ^^^ 255#8) s fun s =>
        store inp s.ep (s.mem s.ep &&& 254#8) s done
  else done s

def rangeEnd (lc : Int) (neg iflag : Bool) (s : State) : Cfg :=
  getc inp s fun x s =>
    if x = ch ']' then place inp (ch '-') s (close inp neg iflag)
    else
      widen inp x iflag s fun iflag s =>
        placeFrom inp (x - lc).toNat lc s fun s =>
          place inp x s (goto (.listNext x neg iflag))

def listNext (lc : Int) (neg iflag : Bool) (s : State) : Cfg :=
  getc inp s fun x s => if x = ch ']' then close inp neg iflag s else goto (.list x lc neg iflag) s

def escape (s : State) : Cfg :=
  getc inp s fun x s =>
    if x = ch '(' then goto .bra s
    else if x = ch ')' then goto .ket s
    else if x = ch '{' then goto .interval s
    else if x = ch '\n' then fail 36 s
    else if x = ch 'n' then goto (.defchar (ch '\n')) s
    else if ch '1' ≤ x ∧ x ≤ ch '9' then goto (.back (x - ch '1')) s
    else goto (.defchar x) s

def bra (s : State) : Cfg :=
  if maxBra ≤ s.nbra then fail 43 s
  else
    emit inp cbra { s with bracket := toChar s.nbra :: s.bracket } fun s =>
      emit inp (toChar s.nbra) s fun s => goto .loop { s with nbra := s.nbra + 1 }

def ket (s : State) : Cfg :=
  match s.bracket with
  | [] => fail 42 s
  | n :: bracket =>
      emit inp cket s fun s =>
        emit inp n { s with bracket } fun s => goto .loop { s with closed := s.closed + 1 }

def back (x : Int) (s : State) : Cfg :=
  if s.closed ≤ x then fail 25 s
  else emit inp cback s fun s => emit inp (toChar x) s (goto .loop)

def interval (s : State) : Cfg :=
  match s.lastep with
  | none => goto (.defchar (ch '{')) s
  | some last => store inp last (s.mem last ||| rnge) s (goto (.nlim 0))

def nlim (cflg : Nat) (s : State) : Cfg := getc inp s fun x s => goto (.digits x 0 cflg) s

def digits (x i : Int) (cflg : Nat) (s : State) : Cfg :=
  if ch '0' ≤ x ∧ x ≤ ch '9' then
    let i := wrap (10 * i + x - ch '0')
    getc inp s fun x s =>
      if x ≠ ch '\\' ∧ x ≠ ch ',' then goto (.digits x i cflg) s else goto (.limit x i cflg) s
  else fail 16 s

def limit (x i : Int) (cflg : Nat) (s : State) : Cfg :=
  if 255 ≤ i then fail 11 s
  else
    emit inp (toChar i) s fun s =>
      if x = ch ',' then if cflg ≠ 0 then fail 44 s else goto (.upper i) s
      else goto (.closeBrace i cflg) s

/-- After the comma: no second number stands for 255. -/
def upper (i : Int) (s : State) : Cfg :=
  getc inp s fun x s =>
    if x = ch '\\' then emit inp 255#8 s (goto (.closeBrace i 1)) else goto (.nlim 1) (ungetc s)

def closeBrace (i : Int) (cflg : Nat) (s : State) : Cfg :=
  getc inp s fun x s =>
    if x ≠ ch '}' then fail 45 s
    else if cflg = 0 then emit inp (toChar i) s (goto .loop)
    else if (s.mem (s.ep - 1)).toNat < (s.mem (s.ep - 2)).toNat then fail 46 s
    else goto .loop s

def next (c : Cfg) : Option Cfg :=
  match c.label with
  | .entry => some (entry inp c.state)
  | .loop => some (loop inp c.state)
  | .defchar x => some (defchar inp x c.state)
  | .listOpen => some (listOpen inp c.state)
  | .list x lc neg iflag => some (list inp x lc neg iflag c.state)
  | .rangeEnd lc neg iflag => some (rangeEnd inp lc neg iflag c.state)
  | .listNext lc neg iflag => some (listNext inp lc neg iflag c.state)
  | .escape => some (escape inp c.state)
  | .bra => some (bra inp c.state)
  | .ket => some (ket inp c.state)
  | .back x => some (back inp x c.state)
  | .interval => some (interval inp c.state)
  | .nlim cflg => some (nlim inp cflg c.state)
  | .digits x i cflg => some (digits inp x i cflg c.state)
  | .limit x i cflg => some (limit inp x i cflg c.state)
  | .upper i => some (upper inp i c.state)
  | .closeBrace i cflg => some (closeBrace inp i cflg c.state)
  | .returned | .error _ | .overrun _ | .underrun _ | .overread => none

end

section

variable {inp : Input} {P : Cfg → Prop} {s : State}

theorem store_rule {addr : Nat} {b : Byte} {k : State → Cfg}
    (hout : inp.endbuf ≤ addr → P (goto (.overrun addr) s))
    (hin : addr < inp.endbuf → P (k { s with mem := Function.update s.mem addr b })) :
    P (store inp addr b s k) := by
  unfold store
  split
  · exact hin ‹_›
  · exact hout (Nat.le_of_not_lt ‹_›)

theorem storeAll_rule {addr n : Nat} {f : Nat → Byte → Byte} {k : State → Cfg}
    (hout : inp.endbuf < addr + n → P (goto (.overrun (max addr inp.endbuf)) s))
    (hin : addr + n ≤ inp.endbuf → P (k { s with
      mem := fun a => if addr ≤ a ∧ a < addr + n then f (a - addr) (s.mem a) else s.mem a })) :
    P (storeAll inp addr n f s k) := by
  unfold storeAll
  split
  · exact hin ‹_›
  · exact hout (Nat.lt_of_not_le ‹_›)

theorem emit_rule {b : Byte} {k : State → Cfg} (hout : inp.endbuf ≤ s.ep → P (goto (.overrun s.ep) s))
    (hin : s.ep < inp.endbuf →
      P (k { s with mem := Function.update s.mem s.ep b, ep := s.ep + 1 })) : P (emit inp b s k) :=
  store_rule hout hin

theorem place_rule {x : Int} {k : State → Cfg}
    (hunder : s.ep + x / 8 < 0 → P (goto (.underrun (s.ep + x / 8)) s))
    (hout : ∀ addr : Nat, (addr : Int) = s.ep + x / 8 → inp.endbuf ≤ addr → P (goto (.overrun addr) s))
    (hin : ∀ addr : Nat, (addr : Int) = s.ep + x / 8 → addr < inp.endbuf →
      P (k { s with mem := Function.update s.mem addr (s.mem addr ||| bittab (x % 8).toNat) })) :
    P (place inp x s k) := by
  unfold place
  by_cases h : s.ep + x / 8 < 0
  · simpa only [h, if_true] using hunder h
  · have haddr : ((s.ep + x / 8).toNat : Int) = s.ep + x / 8 := Int.toNat_of_nonneg (by omega)
    simp only [h, if_false]
    exact store_rule (hout _ haddr) (hin _ haddr)

end

/-- The call of `compile` with `mem` in the buffer. -/
def compile (mem : Nat → Byte) : Cfg := ⟨.entry, 0, 0, mem, none, [], 0, 0, 0, false⟩

def Cfg.program (c : Cfg) : List Byte := (List.range c.state.ep).map c.state.mem

end SysvDev.Regexp.Compile
