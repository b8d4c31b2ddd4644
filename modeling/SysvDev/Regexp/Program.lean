import SysvDev.Regexp.Advance

namespace SysvDev.Regexp.Program

open Opcode Advance

inductive Item
  | chr (c : Byte)
  | dot
  | list (neg : Bool) (map : Vector Byte 16)
  | wide (map : Vector Byte 32)
  deriving DecidableEq

inductive Rep
  | one
  | star
  | range (lo hi : Byte)
  deriving DecidableEq

inductive Instr
  | item (i : Item) (r : Rep)
  | dol
  | bra (n : Fin maxBra)
  | ket (n : Fin maxBra)
  | back (n : Fin maxBra)
  | backStar (n : Fin maxBra)
  deriving DecidableEq

@[simp] def Item.opcode : Item → Byte
  | .chr _ => cchr
  | .dot => cdot
  | .list true _ => nccl
  | .list false _ => ccl
  | .wide _ => cxcl

@[simp] def Item.operands : Item → List Byte
  | .chr c => [c]
  | .dot => []
  | .list _ map => map.toList
  | .wide map => map.toList

@[simp] def Rep.mask : Rep → Byte
  | .one => 0#8
  | .star => Opcode.star
  | .range _ _ => rnge

@[simp] def Rep.operands : Rep → List Byte
  | .range lo hi => [lo, hi]
  | _ => []

def groupByte (n : Fin maxBra) : Byte := BitVec.ofNat 8 n

@[simp] def Instr.encode : Instr → List Byte
  | .item i r => (i.opcode ||| r.mask) :: (i.operands ++ r.operands)
  | .dol => [cdol]
  | .bra n => [cbra, groupByte n]
  | .ket n => [cket, groupByte n]
  | .back n => [cback, groupByte n]
  | .backStar n => [cback ||| Opcode.star, groupByte n]

def encode (is : List Instr) : List Byte := is.flatMap Instr.encode ++ [cceof]

def inMap (map : List Byte) (c : Byte) : Bool :=
  (map.getD (c.toNat / 8) 0#8 &&& bittab (c.toNat % 8)) != 0#8

def Item.accepts : Item → Byte → Bool
  | .chr c, x => x == c
  | .dot, x => x != 0#8
  | .list neg map, x => (!x.msb && inMap map.toList x) ^^ neg
  | .wide map, x => inMap map.toList x

theorem groupIndex_groupByte (n : Fin maxBra) : groupIndex (groupByte n) = some n := by
  revert n
  decide

theorem encode_cons (i : Instr) (is : List Instr) : encode (i :: is) = i.encode ++ encode is := by
  simp [encode]

end SysvDev.Regexp.Program
