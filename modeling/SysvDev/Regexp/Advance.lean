import SysvDev.Transition
import SysvDev.Regexp.Opcode

namespace SysvDev.Regexp.Advance

open Opcode

/-- A C string: no NUL before the terminating one. -/
structure Subject where
  chars : List Byte
  nonul : ∀ c ∈ chars, c ≠ 0#8

/-- The bytes that can be read from the pointer `p` on. Pointers count from
the start of the subject; outside the subject and its NUL nothing is read. -/
def Subject.rest (s : Subject) (p : Int) : List Byte :=
  if 0 ≤ p then (s.chars ++ [0#8]).drop p.toNat else []

@[ext] structure Groups where
  braslist : Fin maxBra → Int
  braelist : Fin maxBra → Int

def Groups.setBeg (g : Groups) (n : Fin maxBra) (p : Int) : Groups :=
  { g with braslist := Function.update g.braslist n p }

def Groups.setEnd (g : Groups) (n : Fin maxBra) (p : Int) : Groups :=
  { g with braelist := Function.update g.braelist n p }

structure Globals where
  groups : Groups
  loc1 : Int
  loc2 : Int
  locs : Int
  circf : Nat

/-- No pointer has been set yet. -/
def freshGlobals : Globals := ⟨⟨fun _ => -1, fun _ => -1⟩, -1, -1, -1, 0⟩

/-- A call of `advance` that is waiting for the result of a nested one, or a
search loop of `step` that is waiting for `advance`. -/
inductive Frame
  | star (curlp lp : Int) (ep : Nat)
  | back (ct curlp lp : Int) (ep : Nat)
  | fast (c : Byte) (p1 : Int) (p2 : Nat)
  | slow (p1 : Int) (p2 : Nat)
  deriving DecidableEq

inductive Control
  | dispatch (lp : Int) (ep : Nat)
  | ecmpLoop (bbeg ct curlp lp : Int) (ep : Nat)
  | backLoop (ct curlp lp : Int) (ep : Nat)
  | starLoop (curlp lp : Int) (ep : Nat)
  | fastLoop (c : Byte) (p1 : Int) (p2 : Nat)
  | slowLoop (p1 : Int) (p2 : Nat)
  | ret (matched : Bool)
  | fault
  deriving DecidableEq

structure Cfg where
  control : Control
  frames : List Frame
  globals : Globals

inductive Scan
  | fault
  | reject
  | upTo (k : Nat)
  deriving DecidableEq

/-- `while (low--) if (!ok(*lp++)) return (0);` -/
def scanLow (ok : Byte → Option Bool) : Nat → List Byte → Scan
  | 0, _ => .upTo 0
  | _ + 1, [] => .fault
  | low + 1, c :: cs =>
      match ok c with
      | none => .fault
      | some false => .reject
      | some true =>
          match scanLow ok low cs with
          | .upTo k => .upTo (k + 1)
          | r => r

/-- `while (size--) if (!ok(*lp++)) break; if (size < 0) lp++;` -/
def scanSize (ok : Byte → Option Bool) : Int → List Byte → Option Nat
  | size, cs =>
      if size = 0 then some 1
      else
        match cs with
        | [] => none
        | c :: cs =>
            match ok c with
            | none => none
            | some false => some (if size - 1 < 0 then 2 else 1)
            | some true => (scanSize ok (size - 1) cs).map (· + 1)

/-- `do { c = *lp++; } while (ok(c));` -/
def scanStar (ok : Byte → Option Bool) : List Byte → Option Nat
  | [] => none
  | c :: cs =>
      match ok c with
      | none => none
      | some false => some 1
      | some true => (scanStar ok cs).map (· + 1)

/-- `strncmp(s1, s2, n) == 0`. The count `none` is the `size_t` of a negative
pointer difference, which no object is as long as. -/
def ecmp : Option Nat → List Byte → List Byte → Option Bool
  | some 0, _, _ => some true
  | n, a :: s1, b :: s2 =>
      if a ≠ b then some false
      else if a = 0#8 then some true
      else ecmp (n.map (· - 1)) s1 s2
  | _, _, _ => none

def toSize (ct : Int) : Option Nat := if ct < 0 then none else some ct.toNat

/-- The index of a group array, which has no element past `NBRA`. -/
def groupIndex (b : Byte) : Option (Fin maxBra) :=
  if h : b.toNat < maxBra then some ⟨b.toNat, h⟩ else none

section

variable (prog : List Byte) (s : Subject)

def single (ok : Byte → Option Bool) (lp : Int) (ep : Nat) : Control :=
  match s.rest lp with
  | [] => .fault
  | c :: _ =>
      match ok c with
      | none => .fault
      | some false => .ret false
      | some true => .dispatch (lp + 1) ep

def ranged (ok : Byte → Option Bool) (range : Option (Nat × Int)) (lp : Int) (ep : Nat) : Control :=
  match range with
  | none => .fault
  | some (low, size) =>
      match scanLow ok low (s.rest lp) with
      | .fault => .fault
      | .reject => .ret false
      | .upTo k =>
          match scanSize ok size (s.rest (lp + k)) with
          | none => .fault
          | some m => .starLoop (lp + k) (lp + k + m) ep

def starred (ok : Byte → Option Bool) (lp : Int) (ep : Nat) : Control :=
  match scanStar ok (s.rest lp) with
  | none => .fault
  | some k => .starLoop lp (lp + k) ep

def isChr (c x : Byte) : Option Bool := some (x == c)

def isDot (x : Byte) : Option Bool := some (x != 0#8)

/-- The switch on `*ep++`: the control to go on with and the group arrays it
leaves. An opcode without a case falls out of the switch into the next turn. -/
def switch (op : Byte) (lp : Int) (ep : Nat) (g : Globals) : Control × Globals :=
  if op = cchr then
    match prog[ep]? with
    | none => (.fault, g)
    | some c => (single s (isChr c) lp (ep + 1), g)
  else if op = cdot then (single s isDot lp ep, g)
  else if op = cdol then
    match s.rest lp with
    | [] => (.fault, g)
    | c :: _ => (if c = 0#8 then .dispatch lp ep else .ret false, g)
  else if op = cceof then (.ret true, { g with loc2 := lp })
  else if op = cxcl then (single s (isThere prog ep) lp (ep + 32), g)
  else if op = nccl then (single s (cclAccepts prog ep true) lp (ep + 16), g)
  else if op = ccl then (single s (cclAccepts prog ep false) lp (ep + 16), g)
  else if op = cbra then
    match (prog[ep]?).bind groupIndex with
    | none => (.fault, g)
    | some n => (.dispatch lp (ep + 1), { g with groups := g.groups.setBeg n lp })
  else if op = cket then
    match (prog[ep]?).bind groupIndex with
    | none => (.fault, g)
    | some n => (.dispatch lp (ep + 1), { g with groups := g.groups.setEnd n lp })
  else if op = cchr ||| rnge then
    match prog[ep]? with
    | none => (.fault, g)
    | some c => (ranged s (isChr c) (getrnge prog (ep + 1)) lp (ep + 3), g)
  else if op = cdot ||| rnge then (ranged s isDot (getrnge prog ep) lp (ep + 2), g)
  else if op = cxcl ||| rnge then
    (ranged s (isThere prog ep) (getrnge prog (ep + 32)) lp (ep + 34), g)
  else if op = nccl ||| rnge then
    (ranged s (fun c => (cclRejects prog ep true c).map (!·)) (getrnge prog (ep + 16)) lp (ep + 18), g)
  else if op = ccl ||| rnge then
    (ranged s (fun c => (cclRejects prog ep false c).map (!·)) (getrnge prog (ep + 16)) lp (ep + 18), g)
  else if op = cback then
    match (prog[ep]?).bind groupIndex with
    | none => (.fault, g)
    | some n =>
        let bbeg := g.groups.braslist n
        let ct := g.groups.braelist n - bbeg
        match ecmp (toSize ct) (s.rest bbeg) (s.rest lp) with
        | none => (.fault, g)
        | some true => (.dispatch (lp + ct) (ep + 1), g)
        | some false => (.ret false, g)
  else if op = cback ||| star then
    match (prog[ep]?).bind groupIndex with
    | none => (.fault, g)
    | some n =>
        let bbeg := g.groups.braslist n
        let ct := g.groups.braelist n - bbeg
        (.ecmpLoop bbeg ct lp lp (ep + 1), g)
  else if op = cdot ||| star then (starred s isDot lp ep, g)
  else if op = cchr ||| star then
    match prog[ep]? with
    | none => (.fault, g)
    | some c => (starred s (isChr c) lp (ep + 1), g)
  else if op = cxcl ||| star then (starred s (isThere prog ep) lp (ep + 32), g)
  else if op = nccl ||| star then (starred s (cclAccepts prog ep true) lp (ep + 16), g)
  else if op = ccl ||| star then (starred s (cclAccepts prog ep false) lp (ep + 16), g)
  else (.dispatch lp ep, g)

def resume (matched : Bool) (frame : Frame) (g : Globals) : Control × Globals :=
  match frame with
  | .star curlp lp ep =>
      (if matched then .ret true else if curlp < lp then .starLoop curlp lp ep else .ret false, g)
  | .back ct curlp lp ep => (if matched then .ret true else .backLoop ct curlp (lp - ct) ep, g)
  | .fast c p1 p2 =>
      if matched then (.ret true, { g with loc1 := p1 })
      else
        match s.rest p1 with
        | [] => (.fault, g)
        | x :: _ => (if x = 0#8 then .ret false else .fastLoop c (p1 + 1) p2, g)
  | .slow p1 p2 =>
      if matched then (.ret true, { g with loc1 := p1 })
      else
        match s.rest p1 with
        | [] => (.fault, g)
        | x :: _ => (if x = 0#8 then .ret false else .slowLoop (p1 + 1) p2, g)

def next (c : Cfg) : Option Cfg :=
  match c.control with
  | .dispatch lp ep =>
      match prog[ep]? with
      | none => some { c with control := .fault }
      | some op =>
          let (control, globals) := switch prog s op lp (ep + 1) c.globals
          some { c with control, globals }
  | .ecmpLoop bbeg ct curlp lp ep =>
      match ecmp (toSize ct) (s.rest bbeg) (s.rest lp) with
      | none => some { c with control := .fault }
      | some true => some { c with control := .ecmpLoop bbeg ct curlp (lp + ct) ep }
      | some false => some { c with control := .backLoop ct curlp lp ep }
  | .backLoop ct curlp lp ep =>
      if curlp ≤ lp then
        some { c with control := .dispatch lp ep, frames := .back ct curlp lp ep :: c.frames }
      else some { c with control := .ret false }
  | .starLoop curlp lp ep =>
      if lp - 1 = c.globals.locs then some { c with control := .ret false }
      else
        some { c with
          control := .dispatch (lp - 1) ep
          frames := .star curlp (lp - 1) ep :: c.frames }
  | .fastLoop x p1 p2 =>
      match s.rest p1 with
      | [] => some { c with control := .fault }
      | y :: _ =>
          if y = x then
            some { c with control := .dispatch p1 p2, frames := .fast x p1 p2 :: c.frames }
          else if y = 0#8 then some { c with control := .ret false }
          else some { c with control := .fastLoop x (p1 + 1) p2 }
  | .slowLoop p1 p2 => some { c with control := .dispatch p1 p2, frames := .slow p1 p2 :: c.frames }
  | .ret matched =>
      match c.frames with
      | [] => none
      | frame :: frames =>
          let (control, globals) := resume s matched frame c.globals
          some ⟨control, frames, globals⟩
  | .fault => none

def advance (lp : Int) (ep : Nat) (g : Globals) : Cfg := ⟨.dispatch lp ep, [], g⟩

def step (p1 : Int) (p2 : Nat) (g : Globals) : Cfg :=
  if g.circf ≠ 0 then ⟨.dispatch p1 p2, [], { g with loc1 := p1 }⟩
  else
    match prog[p2]? with
    | none => ⟨.fault, [], g⟩
    | some op =>
        if op = cchr then
          match prog[p2 + 1]? with
          | none => ⟨.fault, [], g⟩
          | some c => ⟨.fastLoop c p1 p2, [], g⟩
        else ⟨.slowLoop p1 p2, [], g⟩

end

end SysvDev.Regexp.Advance
