import SysvDev.CExpr
import SysvDev.X86.Machine
import Mathlib.Tactic.IntervalCases

namespace SysvDev.ByteOrder.Macros

open Cpp CExpr X86.Machine

/-- The names of the macros, and `BSWAP_` itself, which is none. -/
inductive Name
  | bswap | bswap8 | bswap16 | bswap32 | bswap64 | ntohs | htons | ntohl | htonl
  deriving DecidableEq

/-- `((inner(x) << bits) | inner((x) >> bits))` -/
def swapBody (inner : Name) (bits : Nat) : List (Tok Name) :=
  [.lparen, .lparen, .name inner, .lparen, .param, .rparen, .shl, .num bits, .rparen, .bar,
    .name inner, .lparen, .lparen, .param, .rparen, .shr, .num bits, .rparen, .rparen]

/-- The definitions of sys/byteorder.h. -/
def table : Name → Option (Macro Name)
  | .bswap => none
  | .bswap8 => some (.function [.lparen, .lparen, .param, .rparen, .amp, .num 0xff, .rparen])
  | .bswap16 => some (.function (swapBody .bswap8 8))
  | .bswap32 => some (.function (swapBody .bswap16 16))
  | .bswap64 => some (.function (swapBody .bswap32 32))
  | .ntohs => some (.object [.name .bswap16])
  | .htons => some (.object [.name .bswap16])
  | .ntohl => some (.object [.name .bswap32])
  | .htonl => some (.object [.name .bswap, .hash, .stray '@'])

def denotes (n : Name) : Option Expr := (expand table 1000 [.name n, .lparen, .arg, .rparen]).bind (parse 1000)

def swap8 (e : Expr) : Expr := .bin .and e (.lit 0xff)

def swapHalves (inner : Expr → Expr) (bits : Nat) (e : Expr) : Expr :=
  .bin .or (.bin .shl (inner e) (.lit bits)) (inner (.bin .shr e (.lit bits)))

def swap16 : Expr → Expr := swapHalves swap8 8

def swap32 : Expr → Expr := swapHalves swap16 16

def swap64 : Expr → Expr := swapHalves swap32 32

/-- htonl is replaced by `BSWAP_`, a number sign and an at sign. -/
theorem expansions :
    denotes .bswap32 = some (swap32 .arg) ∧ denotes .bswap64 = some (swap64 .arg) ∧
    denotes .ntohs = some (swap16 .arg) ∧ denotes .htons = some (swap16 .arg) ∧
    denotes .ntohl = some (swap32 .arg) ∧
    expand table 1000 [.name .htonl, .lparen, .arg, .rparen] =
      some [.name .bswap, .hash, .stray '@', .lparen, .arg, .rparen] := by
  refine ⟨?_, ?_, ?_, ?_, ?_, ?_⟩ <;> decide +kernel

theorem denotes_bswap32 : denotes .bswap32 = some (swap32 .arg) := expansions.1

theorem denotes_bswap64 : denotes .bswap64 = some (swap64 .arg) := expansions.2.1

theorem denotes_ntohs : denotes .ntohs = some (swap16 .arg) := expansions.2.2.1

theorem denotes_htons : denotes .htons = some (swap16 .arg) := expansions.2.2.2.1

theorem denotes_ntohl : denotes .ntohl = some (swap32 .arg) := expansions.2.2.2.2.1

theorem expand_htonl : expand table 1000 [.name .htonl, .lparen, .arg, .rparen] =
    some [.name .bswap, .hash, .stray '@', .lparen, .arg, .rparen] := expansions.2.2.2.2.2

theorem denotes_htonl : denotes .htonl = none := by
  rw [denotes, expand_htonl, Option.bind_some, parse, parseAt_name]

def reverse16 (v : BitVec 16) : BitVec 16 := v.extractLsb' 0 8 ++ v.extractLsb' 8 8

def reverse64 (v : BitVec 64) : BitVec 64 :=
  reverseBytes (v.extractLsb' 0 32) ++ reverseBytes (v.extractLsb' 32 32)

theorem getLsbD_reverse16 {i : Nat} (v : BitVec 16) (hi : i < 16) :
    (reverse16 v).getLsbD i = v.getLsbD (8 * (1 - i / 8) + i % 8) := by
  have h : (reverse16 v).getLsbD i = if i < 8 then (v.extractLsb' 8 8).getLsbD i else (v.extractLsb' 0 8).getLsbD (i - 8) :=
    BitVec.getLsbD_append
  rw [h]
  interval_cases i <;> simp

/-- The bytes change places, the bits of a byte do not. -/
theorem getLsbD_reverseBytes {i : Nat} (v : BitVec 32) (hi : i < 32) :
    (reverseBytes v).getLsbD i = v.getLsbD (8 * (3 - i / 8) + i % 8) := by
  have h : (reverseBytes v).getLsbD i = if i < 8 then (v.extractLsb' 24 8).getLsbD i
      else if i - 8 < 8 then (v.extractLsb' 16 8).getLsbD (i - 8)
      else if i - 8 - 8 < 8 then (v.extractLsb' 8 8).getLsbD (i - 8 - 8)
      else (v.extractLsb' 0 8).getLsbD (i - 8 - 8 - 8) := by
    refine BitVec.getLsbD_append.trans ?_
    rw [BitVec.getLsbD_append, BitVec.getLsbD_append]
  rw [h]
  interval_cases i <;> simp

theorem reverse16_eq (v : BitVec 16) :
    ((v.setWidth 32 &&& 255#32) <<< 8 ||| (v.setWidth 32).sshiftRight 8 &&& 255#32).signExtend 16 = reverse16 v := by
  apply BitVec.eq_of_getLsbD_eq
  intro i hi
  rw [getLsbD_reverse16 v hi]
  simp [BitVec.getLsbD_sshiftRight, BitVec.getLsbD_signExtend]
  interval_cases i <;> simp

theorem reverseBytes_eq (v : BitVec 32) :
    ((v &&& 255#32) <<< 8 ||| v >>> 8 &&& 255#32) <<< 16 ||| ((v >>> 16 &&& 255#32) <<< 8 ||| v >>> 24 &&& 255#32) =
      reverseBytes v := by
  apply BitVec.eq_of_getLsbD_eq
  intro i hi
  rw [getLsbD_reverseBytes v hi]
  simp
  interval_cases i <;> simp

theorem getLsbD_reverse64 {i : Nat} (v : BitVec 64) (hi : i < 64) :
    (reverse64 v).getLsbD i = v.getLsbD (8 * (7 - i / 8) + i % 8) := by
  have h : (reverse64 v).getLsbD i = if i < 32 then (reverseBytes (v.extractLsb' 32 32)).getLsbD i
      else (reverseBytes (v.extractLsb' 0 32)).getLsbD (i - 32) := BitVec.getLsbD_append
  rw [h]
  split
  next hlt =>
    rw [getLsbD_reverseBytes _ hlt, BitVec.getLsbD_extractLsb', decide_eq_true (by omega), Bool.true_and]
    congr 1
    omega
  next hge =>
    rw [getLsbD_reverseBytes _ (by omega), BitVec.getLsbD_extractLsb', decide_eq_true (by omega), Bool.true_and]
    congr 1
    omega

theorem reverse64_eq (v : BitVec 64) :
    (((v &&& 255#64) <<< 8 ||| v >>> 8 &&& 255#64) <<< 16 ||| ((v >>> 16 &&& 255#64) <<< 8 ||| v >>> 24 &&& 255#64)) <<< 32
      ||| (((v >>> 32 &&& 255#64) <<< 8 ||| v >>> 40 &&& 255#64) <<< 16 |||
        ((v >>> 48 &&& 255#64) <<< 8 ||| v >>> 56 &&& 255#64)) = reverse64 v := by
  apply BitVec.eq_of_getLsbD_eq
  intro i hi
  rw [getLsbD_reverse64 v hi]
  simp
  interval_cases i <;> simp

section Apply

variable (a b : BitVec 32) (c d : BitVec 64) (v : BitVec 16)

theorem conv_u32 : Val.conv ⟨.u32, a⟩ .u32 = a := BitVec.setWidth_eq a

theorem conv_i32 : Val.conv ⟨.i32, a⟩ .i32 = a := BitVec.signExtend_eq a

theorem conv_u64 : Val.conv ⟨.u64, c⟩ .u64 = c := BitVec.setWidth_eq c

theorem and_u32 (k : Nat) : Op.and.apply ⟨.u32, a⟩ (litVal k) = ⟨.u32, a &&& BitVec.ofNat 32 k⟩ :=
  congrArg (Val.mk .u32) (congrArg₂ (· &&& ·) (conv_u32 a) (conv_i32 _))

theorem or_u32 : Op.or.apply ⟨.u32, a⟩ ⟨.u32, b⟩ = ⟨.u32, a ||| b⟩ :=
  congrArg (Val.mk .u32) (congrArg₂ (· ||| ·) (conv_u32 a) (conv_u32 b))

theorem shl_u32 (k : Nat) : Op.shl.apply ⟨.u32, a⟩ (litVal k) = ⟨.u32, a <<< (BitVec.ofNat 32 k).toNat⟩ :=
  congrArg (fun x : BitVec 32 => Val.mk .u32 (x <<< (BitVec.ofNat 32 k).toNat)) (conv_u32 a)

theorem shr_u32 (k : Nat) : Op.shr.apply ⟨.u32, a⟩ (litVal k) = ⟨.u32, a >>> (BitVec.ofNat 32 k).toNat⟩ :=
  congrArg (fun x : BitVec 32 => Val.mk .u32 (x >>> (BitVec.ofNat 32 k).toNat)) (conv_u32 a)

theorem and_u64 (k : Nat) : Op.and.apply ⟨.u64, c⟩ (litVal k) = ⟨.u64, c &&& (BitVec.ofNat 32 k).signExtend 64⟩ :=
  congrArg (fun x : BitVec 64 => Val.mk .u64 (x &&& (BitVec.ofNat 32 k).signExtend 64)) (conv_u64 c)

theorem or_u64 : Op.or.apply ⟨.u64, c⟩ ⟨.u64, d⟩ = ⟨.u64, c ||| d⟩ :=
  congrArg (Val.mk .u64) (congrArg₂ (· ||| ·) (conv_u64 c) (conv_u64 d))

theorem shl_u64 (k : Nat) : Op.shl.apply ⟨.u64, c⟩ (litVal k) = ⟨.u64, c <<< (BitVec.ofNat 32 k).toNat⟩ :=
  congrArg (fun x : BitVec 64 => Val.mk .u64 (x <<< (BitVec.ofNat 32 k).toNat)) (conv_u64 c)

theorem shr_u64 (k : Nat) : Op.shr.apply ⟨.u64, c⟩ (litVal k) = ⟨.u64, c >>> (BitVec.ofNat 32 k).toNat⟩ :=
  congrArg (fun x : BitVec 64 => Val.mk .u64 (x >>> (BitVec.ofNat 32 k).toNat)) (conv_u64 c)

theorem and_u16 (k : Nat) : Op.and.apply ⟨.u16, v⟩ (litVal k) = ⟨.i32, v.setWidth 32 &&& BitVec.ofNat 32 k⟩ :=
  congrArg (fun x : BitVec 32 => Val.mk .i32 (v.setWidth 32 &&& x)) (conv_i32 _)

theorem shr_u16 (k : Nat) :
    Op.shr.apply ⟨.u16, v⟩ (litVal k) = ⟨.i32, (v.setWidth 32).sshiftRight (BitVec.ofNat 32 k).toNat⟩ := rfl

theorem and_i32 (k : Nat) : Op.and.apply ⟨.i32, a⟩ (litVal k) = ⟨.i32, a &&& BitVec.ofNat 32 k⟩ :=
  congrArg (Val.mk .i32) (congrArg₂ (· &&& ·) (conv_i32 a) (conv_i32 _))

theorem or_i32 : Op.or.apply ⟨.i32, a⟩ ⟨.i32, b⟩ = ⟨.i32, a ||| b⟩ :=
  congrArg (Val.mk .i32) (congrArg₂ (· ||| ·) (conv_i32 a) (conv_i32 b))

theorem shl_i32 (k : Nat) : Op.shl.apply ⟨.i32, a⟩ (litVal k) = ⟨.i32, a <<< (BitVec.ofNat 32 k).toNat⟩ :=
  congrArg (fun x : BitVec 32 => Val.mk .i32 (x <<< (BitVec.ofNat 32 k).toNat)) (conv_i32 a)

end Apply

theorem value_swap16 (v : BitVec 16) : ((swap16 .arg).value ⟨.u16, v⟩).conv .u16 = reverse16 v := by
  have h : (swap16 .arg).value ⟨.u16, v⟩ =
      ⟨.i32, (v.setWidth 32 &&& 255#32) <<< 8 ||| (v.setWidth 32).sshiftRight 8 &&& 255#32⟩ := by
    simp only [swap16, swapHalves, swap8, Expr.value, and_u16, shr_u16, and_i32, shl_i32, or_i32]
    rfl
  rw [h]
  exact reverse16_eq v

theorem value_swap32 (v : BitVec 32) : (swap32 .arg).value ⟨.u32, v⟩ = ⟨.u32, reverseBytes v⟩ := by
  simp only [swap32, swap16, swapHalves, swap8, Expr.value, and_u32, shr_u32, shl_u32, or_u32]
  rw [← reverseBytes_eq]
  simp

theorem value_swap64 (v : BitVec 64) : (swap64 .arg).value ⟨.u64, v⟩ = ⟨.u64, reverse64 v⟩ := by
  simp only [swap64, swap32, swap16, swapHalves, swap8, Expr.value, and_u64, shr_u64, shl_u64, or_u64]
  rw [← reverse64_eq]
  simp

end SysvDev.ByteOrder.Macros
