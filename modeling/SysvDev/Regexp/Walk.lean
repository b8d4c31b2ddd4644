import SysvDev.Nesting
import SysvDev.Regexp.Program

namespace SysvDev.Regexp.Walk

open Opcode Advance Program Nesting

/-- How many bytes `advance` steps over after an opcode, for those it has a
case for, apart from the final CCEOF. -/
def operandLen (op : Byte) : Option Nat :=
  if op = cdot ∨ op = cdot ||| star ∨ op = cdol then some 0
  else if op = cchr ∨ op = cchr ||| star ∨ op = cbra ∨ op = cket ∨ op = cback ∨ op = cback ||| star then some 1
  else if op = cdot ||| rnge then some 2
  else if op = cchr ||| rnge then some 3
  else if op = ccl ∨ op = nccl ∨ op = ccl ||| star ∨ op = nccl ||| star then some 16
  else if op = ccl ||| rnge ∨ op = nccl ||| rnge then some 18
  else if op = cxcl ∨ op = cxcl ||| star then some 32
  else if op = cxcl ||| rnge then some 34
  else none

def resumesAt (ep : Nat) : Control → Prop
  | .dispatch _ ep' | .starLoop _ _ ep' | .ecmpLoop _ _ _ _ ep' => ep' = ep
  | .ret _ | .fault => True
  | _ => False

section

variable {prog : List Byte} {s : Subject}

theorem single_resumes (ok : Byte → Option Bool) (lp : Int) (ep : Nat) : resumesAt ep (single s ok lp ep) := by
  unfold single
  repeat' split
  all_goals trivial

theorem starred_resumes (ok : Byte → Option Bool) (lp : Int) (ep : Nat) : resumesAt ep (starred s ok lp ep) := by
  unfold starred
  split
  · trivial
  · rfl

theorem ranged_resumes (ok : Byte → Option Bool) (range : Option (Nat × Int)) (lp : Int) (ep : Nat) :
    resumesAt ep (ranged s ok range lp ep) := by
  unfold ranged
  repeat' split
  all_goals trivial

theorem resumes_ite {c : Prop} [Decidable c] {a b : Control × Globals} {ep : Nat}
    (ha : c → resumesAt ep a.1) (hb : ¬ c → resumesAt ep b.1) : resumesAt ep (if c then a else b).1 := by
  split
  · exact ha ‹_›
  · exact hb ‹_›

/-- Without a case the opcode is passed over as if it had no operands. -/
theorem switch_unknown {op : Byte} (h : operandLen op = none) (hop : op ≠ cceof) (lp : Int) (ep : Nat)
    (g : Globals) : switch prog s op lp ep g = (.dispatch lp ep, g) := by
  unfold operandLen at h
  split_ifs at h with h0 h1 h2 h3 h4 h5 h6 h7
  simp only [not_or] at h0 h1 h4 h5 h6
  simp only [switch, h0, h1, h2, h3, h4, h5, h6, h7, hop, if_false]

/-- `advance` has a case for the opcode and steps over its operands. -/
theorem switch_resumes {op : Byte} {n : Nat} (h : operandLen op = some n) (lp : Int) (ep : Nat) (g : Globals) :
    resumesAt (ep + n) (switch prog s op lp ep g).1 := by
  unfold switch
  repeat' apply resumes_ite <;> intro hop
  all_goals try (subst hop; simp [operandLen] at h; subst h)
  all_goals try dsimp only
  all_goals repeat' split
  all_goals first
    | trivial
    | exact single_resumes _ _ _
    | exact starred_resumes _ _ _
    | exact ranged_resumes _ _ _ _
    | simp_all [operandLen]

end

/-- Walk over a program: the opcodes are known, and the last byte and no
other one in opcode position is CCEOF. -/
def walk : Nat → List Byte → Bool
  | _, [] => false
  | skip + 1, _ :: bytes => walk skip bytes
  | 0, op :: bytes =>
      if op = cceof then bytes.isEmpty
      else
        match operandLen op with
        | none => false
        | some n => walk n bytes

def mark (op n : Byte) : Option (Mark Byte) :=
  if op = cbra then some (.push n)
  else if op = cket then some (.pop n)
  else if op = cback ∨ op = cback ||| star then some (.mention n)
  else none

def marks : Nat → List Byte → List (Mark Byte)
  | _, [] => []
  | skip + 1, _ :: bytes => marks skip bytes
  | 0, op :: bytes =>
      if op = cceof then []
      else
        match operandLen op with
        | none => []
        | some n => (mark op (bytes.headD 0#8)).toList ++ marks n bytes

def Instr.marked : Instr → Option (Mark Byte)
  | .bra n => some (.push (groupByte n))
  | .ket n => some (.pop (groupByte n))
  | .back n | .backStar n => some (.mention (groupByte n))
  | _ => none

def marksOf (is : List Instr) : List (Mark Byte) := is.filterMap Instr.marked

theorem marksOf_append (is js : List Instr) : marksOf (is ++ js) = marksOf is ++ marksOf js :=
  List.filterMap_append

theorem walk_skip (bytes rest : List Byte) : walk bytes.length (bytes ++ rest) = walk 0 rest := by
  induction bytes with
  | nil => rfl
  | cons b bytes ih => exact ih

theorem marks_skip (bytes rest : List Byte) : marks bytes.length (bytes ++ rest) = marks 0 rest := by
  induction bytes with
  | nil => rfl
  | cons b bytes ih => exact ih

theorem encode_instr (i : Instr) : ∃ op operands, i.encode = op :: operands ∧ op ≠ cceof ∧
    operandLen op = some operands.length ∧ ∀ rest, mark op ((operands ++ rest).headD 0#8) = Instr.marked i := by
  cases i with
  | item a r =>
      refine ⟨_, _, rfl, ?_⟩
      cases a with
      | chr | dot | wide => cases r <;> simp [operandLen, mark, Instr.marked]
      | list neg => cases neg <;> cases r <;> simp [operandLen, mark, Instr.marked]
  | dol | bra | ket | back | backStar => exact ⟨_, _, rfl, by simp [operandLen, mark, Instr.marked]⟩

theorem walk_encode_append (is : List Instr) (rest : List Byte) :
    walk 0 (is.flatMap Instr.encode ++ rest) = walk 0 rest := by
  induction is with
  | nil => rfl
  | cons i is ih =>
      obtain ⟨op, operands, hi, hop, hlen, -⟩ := encode_instr i
      rw [List.flatMap_cons, hi, List.append_assoc, List.cons_append, walk, if_neg hop, hlen]
      simp only []
      rw [walk_skip, ih]

theorem walk_encode (is : List Instr) : walk 0 (encode is) = true := walk_encode_append is [cceof]

theorem marks_encode (is : List Instr) : marks 0 (encode is) = marksOf is := by
  induction is with
  | nil => rfl
  | cons i is ih =>
      obtain ⟨op, operands, hi, hop, hlen, hmark⟩ := encode_instr i
      rw [encode_cons, hi, List.cons_append, marks, if_neg hop, hlen]
      simp only []
      rw [hmark, marks_skip, ih, marksOf, marksOf, List.filterMap_cons]
      cases Instr.marked i <;> rfl

end SysvDev.Regexp.Walk
