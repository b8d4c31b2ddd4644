import SysvDev.Regexp.Compile

namespace SysvDev.Regexp.Moves

open Opcode Compile

variable {inp : Input}

def readOne (s : State) : State := { s with sp := s.sp + 1 }

def put (b : Byte) (s : State) : State := { s with mem := Function.update s.mem s.ep b, ep := s.ep + 1 }

def charAt (inp : Input) (i : Nat) : Option Int := inp.pattern[i]?.map inp.char

/-- No character is left, or none after one that makes `compile` look at the
next one too. -/
def RunsOut (inp : Input) (s : State) : Prop :=
  charAt inp s.sp = none ∨
    ∃ x, charAt inp s.sp = some x ∧ (x = ch '\\' ∨ x = ch '$' ∨ x = ch '^') ∧ charAt inp (s.sp + 1) = none

/-- The state after a character of the main loop is read, where `x` is that
character: `lastep` stays when it is going to be used. -/
def taken (inp : Input) (x : Int) (s : State) : State :=
  if x = ch '*' ∨ (x = ch '\\' ∧ charAt inp (s.sp + 1) = some (ch '{')) then readOne s
  else { readOne s with lastep := some s.ep }

def listOp (iflag : Bool) : Byte := if iflag then ccl else cxcl

def closedOp (neg iflag : Bool) : Byte := if iflag then if neg then nccl else ccl else cxcl

def mapSize (iflag : Bool) : Nat := if iflag then 16 else 32

def wide (x : Int) : Bool := 128 ≤ x % 256

def readsPattern (inp : Input) : Label → State → Prop
  | .loop, s => s.ep < inp.endbuf
  | .digits x _ _, _ => ch '0' ≤ x ∧ x ≤ ch '9'
  | .entry, _ | .listOpen, _ | .rangeEnd .., _ | .listNext .., _ | .escape, _ | .nlim _, _ | .upper _, _
  | .closeBrace .., _ => True
  | _, _ => False

def storesPair : Label → State → Prop
  | .defchar _, _ => True
  | .bra, s => s.nbra < maxBra
  | .ket, s => s.bracket ≠ []
  | .back x, s => x < s.closed
  | _, _ => False

def storesCount (inp : Input) : Label → State → Prop
  | .limit _ i _, _ => i < 255
  | .upper _, s => charAt inp s.sp = some (ch '\\')
  | .closeBrace _ cflg, s => cflg = 0 ∧ charAt inp s.sp = some (ch '}')
  | _, _ => False

/-- The labels inside a bracket list, with its `iflag`. -/
def listFlag : Label → Option Bool
  | .list _ _ _ iflag | .rangeEnd _ _ iflag | .listNext _ _ iflag => some iflag
  | _ => none

/-- A step on a bracket list from `lc` on to `x`: as long as no character is
negative it changes the map and the opcode before it only. -/
structure Lists (inp : Input) (lc x : Int) (iflag iflag' : Bool) (s t : State) : Prop where
  rest : t = { s with mem := t.mem, sp := t.sp }
  widens : iflag' = (iflag && !wide x)
  room : iflag' = false → iflag = true → s.ep + 32 < inp.endbuf
  frame : 0 ≤ lc → 0 ≤ x → ∀ a, a + 1 < s.ep → t.mem a = s.mem a
  opcode : 0 ≤ lc → 0 ≤ x → 0 < s.ep → s.mem (s.ep - 1) = listOp iflag → t.mem (s.ep - 1) = listOp iflag'

theorem Lists.ep_eq {lc x : Int} {iflag iflag' : Bool} {s t : State} (h : Lists inp lc x iflag iflag' s t) :
    t.ep = s.ep := by rw [h.rest]

theorem Lists.lastep_eq {lc x : Int} {iflag iflag' : Bool} {s t : State}
    (h : Lists inp lc x iflag iflag' s t) : t.lastep = s.lastep := by rw [h.rest]

structure Closes (neg iflag : Bool) (s t : State) : Prop where
  rest : t = { s with mem := t.mem, sp := s.sp + 1, ep := s.ep + mapSize iflag }
  frame : ∀ a, a + 1 < s.ep → t.mem a = s.mem a
  opcode : 0 < s.ep → s.mem (s.ep - 1) = listOp iflag → t.mem (s.ep - 1) = closedOp neg iflag

def groups (s : State) : List Byte × Nat × Nat := (s.bracket, s.closed, s.nbra)

/-- Everything one step of `compile` can do. -/
inductive Step (inp : Input) : Cfg → Cfg → Prop
  | error {c : Cfg} {n : Nat} {t : State} : Step inp c ⟨.error n, t⟩
  | overread {l : Label} {s t : State} (hl : readsPattern inp l s) (h : RunsOut inp s) : Step inp ⟨l, s⟩ ⟨.overread, t⟩
  | underrun {lc x : Int} {neg iflag : Bool} {s t : State} {a : Int} (hx : charAt inp s.sp = some x)
      (hw : iflag = false ∨ wide x = false ∨ s.ep + 32 < inp.endbuf)
      (h : s.ep + lc / 8 < 0 ∨ s.ep + x / 8 < 0) : Step inp ⟨.rangeEnd lc neg iflag, s⟩ ⟨.underrun a, t⟩
  | overrunPair {l : Label} {s t : State} {a : Nat} (hl : storesPair l s) (h : inp.endbuf < s.ep + 2) :
      Step inp ⟨l, s⟩ ⟨.overrun a, t⟩
  | overrunCount {l : Label} {s t : State} {a : Nat} (hl : storesCount inp l s) (h : inp.endbuf ≤ s.ep) :
      Step inp ⟨l, s⟩ ⟨.overrun a, t⟩
  | overrunLast {l : Label} {s t : State} {a last : Nat} (hl : l = .loop ∨ l = .interval)
      (hlast : s.lastep = some last) (h : inp.endbuf ≤ last) : Step inp ⟨l, s⟩ ⟨.overrun a, t⟩
  | empty {x : Int} {s t : State} (hx : charAt inp s.sp = some x) (h : x = inp.eof ∨ x = ch '\n')
      (ht : t.ep = s.ep ∧ t.mem = s.mem) (hsed : s.mem s.ep ≠ 0#8 ∨ inp.sed = true) :
      Step inp ⟨.entry, s⟩ ⟨.returned, t⟩
  | start {x : Int} {s t : State} (hx : charAt inp s.sp = some x) (h : x ≠ inp.eof ∧ x ≠ ch '\n')
      (ht : t = { s with sp := t.sp, circf := t.circf, bracket := [], closed := 0, nbra := 0 })
      (hsp : (x = ch '^' ∧ t.sp = s.sp + 1) ∨ t.sp = s.sp) : Step inp ⟨.entry, s⟩ ⟨.loop, t⟩
  | finish {x : Int} {s t : State} (hx : charAt inp s.sp = some x) (h : x = inp.eof ∨ x = ch '\n')
      (hroom : s.ep < inp.endbuf) (hbracket : s.bracket = [])
      (ht : t.ep = s.ep + 1 ∧ t.mem = Function.update s.mem s.ep cceof ∧ groups t = groups s) :
      Step inp ⟨.loop, s⟩ ⟨.returned, t⟩
  | dot {s : State} (hx : charAt inp s.sp = some (ch '.')) (hroom : s.ep < inp.endbuf) :
      Step inp ⟨.loop, s⟩ ⟨.loop, put cdot (taken inp (ch '.') s)⟩
  | dol {y : Int} {s : State} (hx : charAt inp s.sp = some (ch '$')) (hroom : s.ep < inp.endbuf)
      (hy : charAt inp (s.sp + 1) = some y) (h : y = inp.eof ∨ y = ch '\n') :
      Step inp ⟨.loop, s⟩ ⟨.loop, put cdol (taken inp (ch '$') s)⟩
  | star {last : Nat} {s : State} (hx : charAt inp s.sp = some (ch '*')) (hroom : s.ep < inp.endbuf)
      (hne : ch '*' ≠ inp.eof) (hlast : s.lastep = some last) (hin : last < inp.endbuf)
      (hop : s.mem last ≠ cbra ∧ s.mem last ≠ cket) :
      Step inp ⟨.loop, s⟩
        ⟨.loop, { readOne s with mem := Function.update s.mem last (s.mem last ||| Opcode.star) }⟩

  | plain {x : Int} {s : State} (hx : charAt inp s.sp = some x) (hroom : s.ep < inp.endbuf)
      (hne : x ≠ inp.eof ∧ x ≠ ch '\\') : Step inp ⟨.loop, s⟩ ⟨.defchar x, taken inp x s⟩
  | backslash {s : State} (hx : charAt inp s.sp = some (ch '\\')) (hroom : s.ep < inp.endbuf)
      (hne : ch '\\' ≠ inp.eof) (hsome : (charAt inp (s.sp + 1)).isSome) : Step inp ⟨.loop, s⟩ ⟨.escape, taken inp (ch '\\') s⟩
  | opening {s t : State} (hx : charAt inp s.sp = some (ch '[')) (hroom : s.ep + 17 < inp.endbuf)
      (ht : t = { taken inp (ch '[') s with mem := t.mem, ep := s.ep + 1 })
      (hmem : (∀ a, a < s.ep → t.mem a = s.mem a) ∧ t.mem s.ep = ccl) :
      Step inp ⟨.loop, s⟩ ⟨.listOpen, t⟩
  | defchar {x : Int} {s : State} (hroom : s.ep + 2 ≤ inp.endbuf) :
      Step inp ⟨.defchar x, s⟩ ⟨.loop, put (toChar x) (put cchr { s with lastep := some s.ep })⟩
  | first {x : Int} {s : State} (hx : charAt inp s.sp = some x) :
      Step inp ⟨.listOpen, s⟩ ⟨.list x 0 false true, readOne s⟩
  | complement {x : Int} {s : State} (h : charAt inp s.sp = some (ch '^'))
      (hx : charAt inp (s.sp + 1) = some x) :
      Step inp ⟨.listOpen, s⟩ ⟨.list x 0 true true, readOne (readOne s)⟩
  | dash {x lc : Int} {neg iflag : Bool} {s : State} (hx : x % 256 = ch '-') (hlc : lc ≠ 0) :
      Step inp ⟨.list x lc neg iflag, s⟩ ⟨.rangeEnd lc neg iflag, s⟩
  | member {x lc : Int} {neg iflag iflag' : Bool} {s t : State} (hx : x % 256 ≠ 0) (hsp : t.sp = s.sp)
      (h : Lists inp 0 (x % 256) iflag iflag' s t) :
      Step inp ⟨.list x lc neg iflag, s⟩ ⟨.listNext (x % 256) neg iflag', t⟩
  | range {x lc : Int} {neg iflag iflag' : Bool} {s t : State} (hx : charAt inp s.sp = some x)
      (hne : x ≠ ch ']') (hsp : t.sp = s.sp + 1) (hlow : 0 ≤ s.ep + x / 8) (h : Lists inp lc x iflag iflag' s t) :
      Step inp ⟨.rangeEnd lc neg iflag, s⟩ ⟨.listNext x neg iflag', t⟩
  | overrunList {l : Label} {iflag : Bool} {s t : State} {a : Nat} (hl : listFlag l = some iflag)
      (h : inp.endbuf < s.ep + mapSize iflag) : Step inp ⟨l, s⟩ ⟨.overrun a, t⟩
  | rangeClose {lc : Int} {neg iflag : Bool} {s t : State} (hx : charAt inp s.sp = some (ch ']'))
      (h : Closes neg iflag s t) : Step inp ⟨.rangeEnd lc neg iflag, s⟩ ⟨.loop, t⟩
  | listClose {lc : Int} {neg iflag : Bool} {s t : State} (hx : charAt inp s.sp = some (ch ']'))
      (h : Closes neg iflag s t) : Step inp ⟨.listNext lc neg iflag, s⟩ ⟨.loop, t⟩
  | more {x lc : Int} {neg iflag : Bool} {s : State} (hx : charAt inp s.sp = some x) (hne : x ≠ ch ']') :
      Step inp ⟨.listNext lc neg iflag, s⟩ ⟨.list x lc neg iflag, readOne s⟩
  | escape {x : Int} {l : Label} {s : State} (hx : charAt inp s.sp = some x)
      (hl : (x = ch '(' ∧ l = .bra) ∨ (x = ch ')' ∧ l = .ket) ∨ (x = ch '{' ∧ l = .interval) ∨
        (x ≠ ch '{' ∧ ∃ y, l = .defchar y) ∨
        (ch '1' ≤ x ∧ x ≤ ch '9' ∧ l = .back (x - ch '1'))) :
      Step inp ⟨.escape, s⟩ ⟨l, readOne s⟩
  | bra {s : State} (hn : s.nbra < maxBra) (hroom : s.ep + 2 ≤ inp.endbuf) :
      Step inp ⟨.bra, s⟩ ⟨.loop, { put (toChar s.nbra) (put cbra s) with
        bracket := toChar s.nbra :: s.bracket, nbra := s.nbra + 1 }⟩
  | ket {n : Byte} {bracket : List Byte} {s : State} (hb : s.bracket = n :: bracket)
      (hroom : s.ep + 2 ≤ inp.endbuf) :
      Step inp ⟨.ket, s⟩ ⟨.loop, { put n (put cket s) with bracket, closed := s.closed + 1 }⟩
  | back {x : Int} {s : State} (hx : x < s.closed) (hroom : s.ep + 2 ≤ inp.endbuf) :
      Step inp ⟨.back x, s⟩ ⟨.loop, put (toChar x) (put cback s)⟩
  | brace {s : State} (hlast : s.lastep = none) : Step inp ⟨.interval, s⟩ ⟨.defchar (ch '{'), s⟩
  | interval {last : Nat} {s : State} (hlast : s.lastep = some last) (hin : last < inp.endbuf) :
      Step inp ⟨.interval, s⟩
        ⟨.nlim 0, { s with mem := Function.update s.mem last (s.mem last ||| rnge) }⟩
  | nlim {x : Int} {cflg : Nat} {s : State} (hx : charAt inp s.sp = some x) :
      Step inp ⟨.nlim cflg, s⟩ ⟨.digits x 0 cflg, readOne s⟩
  | digit {x y i j : Int} {cflg : Nat} {s : State} (hd : ch '0' ≤ x ∧ x ≤ ch '9')
      (hy : charAt inp s.sp = some y) : Step inp ⟨.digits x i cflg, s⟩ ⟨.digits y j cflg, readOne s⟩
  | number {x y i j : Int} {cflg : Nat} {s : State} (hd : ch '0' ≤ x ∧ x ≤ ch '9')
      (hy : charAt inp s.sp = some y) (h : y = ch '\\' ∨ y = ch ',') :
      Step inp ⟨.digits x i cflg, s⟩ ⟨.limit y j cflg, readOne s⟩
  | comma {i : Int} {s : State} (hi : i < 255) (hroom : s.ep < inp.endbuf) :
      Step inp ⟨.limit (ch ',') i 0, s⟩ ⟨.upper i, put (toChar i) s⟩
  | counted {x i : Int} {cflg : Nat} {s : State} (hx : x ≠ ch ',') (hi : i < 255)
      (hroom : s.ep < inp.endbuf) :
      Step inp ⟨.limit x i cflg, s⟩ ⟨.closeBrace i cflg, put (toChar i) s⟩
  | unbounded {i : Int} {s : State} (hx : charAt inp s.sp = some (ch '\\')) (hroom : s.ep < inp.endbuf) :
      Step inp ⟨.upper i, s⟩ ⟨.closeBrace i 1, put 255#8 (readOne s)⟩
  | second {x i : Int} {s : State} (hx : charAt inp s.sp = some x) (hne : x ≠ ch '\\') :
      Step inp ⟨.upper i, s⟩ ⟨.nlim 1, s⟩
  | once {i : Int} {s : State} (hx : charAt inp s.sp = some (ch '}')) (hroom : s.ep < inp.endbuf) :
      Step inp ⟨.closeBrace i 0, s⟩ ⟨.loop, put (toChar i) (readOne s)⟩
  | ordered {i : Int} {cflg : Nat} {s : State} (hx : charAt inp s.sp = some (ch '}')) (hc : cflg ≠ 0) :
      Step inp ⟨.closeBrace i cflg, s⟩ ⟨.loop, readOne s⟩

end SysvDev.Regexp.Moves
