import SysvDev.Fields
import SysvDev.Word

namespace SysvDev.Avl.Node

open Fields Word

inductive Setter
  | parent (p : BitVec 64) (h : p &&& 7#64 = 0#64)
  | child (c : Int) (h : c = 0 ∨ c = 1)
  | balance (b : Int) (h : b = -1 ∨ b = 0 ∨ b = 1)

inductive Field
  | parent | child | balance
  deriving DecidableEq

namespace Setter

def field : Setter → Field
  | parent _ _ => .parent
  | child _ _ => .child
  | balance _ _ => .balance

def value : Setter → Int
  | parent p _ => p.toNat
  | child c _ => c
  | balance b _ => b

end Setter

namespace Ilp32

/-- Without the children. -/
structure AvlNode where
  avlParent : BitVec 64
  avlChildIndex : BitVec 16
  avlBalance : BitVec 16

namespace AvlNode

def xparent (n : AvlNode) : BitVec 64 := n.avlParent

def setparent (n : AvlNode) (p : BitVec 64) : AvlNode := { n with avlParent := p }

def xchild (n : AvlNode) : BitVec 16 := n.avlChildIndex

def setchild (n : AvlNode) (c : Int) : AvlNode := { n with avlChildIndex := BitVec.ofInt 16 c }

def xbalance (n : AvlNode) : BitVec 16 := n.avlBalance

def setbalance (n : AvlNode) (b : Int) : AvlNode := { n with avlBalance := BitVec.ofInt 16 b }

/-- The index is an `unsigned short` and the balance a `short`. -/
def get (n : AvlNode) : Field → Int
  | .parent => n.xparent.toNat
  | .child => n.xchild.toNat
  | .balance => n.xbalance.toInt

def act (n : AvlNode) : Setter → AvlNode
  | .parent p _ => n.setparent p
  | .child c _ => n.setchild c
  | .balance b _ => n.setbalance b

theorem sets : Sets Setter.field Setter.value get act := by
  intro n o f
  cases o with
  | parent p hp => cases f <;> rfl
  | child c hc =>
      cases f with
      | child => obtain rfl | rfl := hc <;> rfl
      | parent => rfl
      | balance => rfl
  | balance b hb =>
      cases f with
      | balance => obtain rfl | rfl | rfl := hb <;> rfl
      | parent => rfl
      | child => rfl

end AvlNode

end Ilp32

namespace Lp64

/-- Without the children. -/
structure AvlNode where
  avlPcb : BitVec 64

namespace AvlNode

def xparent (n : AvlNode) : BitVec 64 := n.avlPcb &&& BitVec.ofInt 64 (-8)

def setparent (n : AvlNode) (p : BitVec 64) : AvlNode := ⟨n.avlPcb &&& 7#64 ||| p⟩

def xchild (n : AvlNode) : BitVec 64 := n.avlPcb >>> 2 &&& 1#64

def setchild (n : AvlNode) (c : Int) : AvlNode := ⟨n.avlPcb &&& BitVec.ofInt 64 (-5) ||| BitVec.ofInt 64 (c * 2 ^ 2)⟩

def xbalance (n : AvlNode) : BitVec 32 := ((n.avlPcb &&& 3#64) - 1#64).setWidth 32

def setbalance (n : AvlNode) (b : Int) : AvlNode := ⟨n.avlPcb &&& BitVec.ofInt 64 (-4) ||| BitVec.ofInt 64 (b + 1)⟩

def get (n : AvlNode) : Field → Int
  | .parent => n.xparent.toNat
  | .child => n.xchild.toNat
  | .balance => n.xbalance.toInt

def act (n : AvlNode) : Setter → AvlNode
  | .parent p _ => n.setparent p
  | .child c _ => n.setchild c
  | .balance b _ => n.setbalance b

def mask : Field → BitVec 64
  | .parent => BitVec.ofInt 64 (-8)
  | .child => 4#64
  | .balance => 3#64

def decode (v : BitVec 64) : Field → Int
  | .parent => v.toNat
  | .child => (v >>> 2).toNat
  | .balance => ((v - 1#64).setWidth 32).toInt

theorem get_eq_decode (n : AvlNode) (f : Field) : n.get f = decode (n.avlPcb &&& mask f) f := by
  cases f with
  | parent => rfl
  | child =>
      have hshift : (n.avlPcb &&& 4#64) >>> 2 = n.avlPcb >>> 2 &&& 1#64 := by
        rw [BitVec.ushiftRight_and_distrib]
        rfl
      simp only [get, xchild, decode, mask, hshift]
  | balance => rfl

def encode : Setter → BitVec 64
  | .parent p _ => p
  | .child c _ => BitVec.ofInt 64 (c * 2 ^ 2)
  | .balance b _ => BitVec.ofInt 64 (b + 1)

theorem act_eq_insert (n : AvlNode) (o : Setter) :
    (n.act o).avlPcb = n.avlPcb &&& ~~~mask o.field ||| encode o := by
  have hmask (f : Field) : ~~~mask f = match f with
      | .parent => 7#64
      | .child => BitVec.ofInt 64 (-5)
      | .balance => BitVec.ofInt 64 (-4) := by
    cases f <;> decide
  rw [hmask]
  cases o <;> rfl

theorem encode_and_mask (o : Setter) : encode o &&& mask o.field = encode o := by
  cases o with
  | parent p hp => exact and_not_eq_self hp
  | child c hc => obtain rfl | rfl := hc <;> decide
  | balance b hb => obtain rfl | rfl | rfl := hb <;> decide

theorem decode_encode (o : Setter) : decode (encode o) o.field = o.value := by
  cases o with
  | parent p hp => rfl
  | child c hc => obtain rfl | rfl := hc <;> decide
  | balance b hb => obtain rfl | rfl | rfl := hb <;> decide

theorem mask_and_mask {f g : Field} (h : f ≠ g) : mask f &&& mask g = 0#64 := by
  cases f <;> cases g <;> first | exact absurd rfl h | decide

theorem sets : Sets Setter.field Setter.value get act := by
  intro n o f
  rw [get_eq_decode, get_eq_decode, act_eq_insert, Word.or_and_right]
  by_cases ho : o.field = f
  · subst ho
    have hcleared : n.avlPcb &&& ~~~mask o.field &&& mask o.field = 0#64 := by
      rw [BitVec.and_assoc, BitVec.not_and_self]
      exact BitVec.and_zero
    rw [if_pos rfl, hcleared, BitVec.zero_or, encode_and_mask, decode_encode]
  · have hkept : n.avlPcb &&& ~~~mask o.field &&& mask f = n.avlPcb &&& mask f := by
      rw [BitVec.and_assoc, BitVec.and_comm (~~~_), and_not_eq_self (mask_and_mask (Ne.symm ho))]
    have hnone : encode o &&& mask f = 0#64 := by
      rw [← encode_and_mask o, BitVec.and_assoc, mask_and_mask ho, BitVec.and_zero]
    rw [if_neg ho, hkept, hnone, BitVec.or_zero]

end AvlNode

end Lp64

variable {N : Type} [DecidableEq N]

/-- The nodes may hold anything before their fields are set. -/
theorem packed_refines (packed : N → Lp64.AvlNode) (plain : N → Ilp32.AvlNode) (ops : List (N × Setter)) :
    (∀ (n : Lp64.AvlNode) (o : Setter) (f : Field), (n.act o).get f = if o.field = f then o.value else n.get f) ∧
    ∀ n : N, (∀ f : Field, ∃ o ∈ ops, o.1 = n ∧ o.2.field = f) →
      (ops.foldl (actOn Lp64.AvlNode.act) packed n).xparent = (ops.foldl (actOn Ilp32.AvlNode.act) plain n).xparent ∧
      (ops.foldl (actOn Lp64.AvlNode.act) packed n).xchild.toNat =
        (ops.foldl (actOn Ilp32.AvlNode.act) plain n).xchild.toNat ∧
      (ops.foldl (actOn Lp64.AvlNode.act) packed n).xbalance.toInt =
        (ops.foldl (actOn Ilp32.AvlNode.act) plain n).xbalance.toInt := by
  refine ⟨Lp64.AvlNode.sets, fun n hset => ?_⟩
  have hagree (f : Field) : (ops.foldl (actOn Lp64.AvlNode.act) packed n).get f =
      (ops.foldl (actOn Ilp32.AvlNode.act) plain n).get f := by
    obtain ⟨o, ho, hn, hf⟩ := hset f
    have hfield : ∃ o ∈ ops, (o.1, o.2.field) = (n, f) := ⟨o, ho, Prod.ext hn hf⟩
    exact Lp64.AvlNode.sets.pointwise.foldl_agree Ilp32.AvlNode.sets.pointwise (f := (n, f)) ops (.inr hfield)
  refine ⟨BitVec.eq_of_toNat_eq ?_, ?_, hagree .balance⟩
  · exact Int.ofNat_inj.mp (hagree .parent)
  · exact Int.ofNat_inj.mp (hagree .child)

def sampleHistory : List (Unit × Setter) :=
  [ ((), .balance 0 (.inr (.inl rfl))),
    ((), .child 1 (.inr rfl)),
    ((), .parent 0x1000#64 rfl),
    ((), .balance (-1) (.inl rfl)) ]

theorem packed_refines_sample :
    (sampleHistory.foldl (actOn Lp64.AvlNode.act) (fun _ => ⟨0xdeadbeef#64⟩) ()).xbalance.toInt = -1 ∧
    (sampleHistory.foldl (actOn Lp64.AvlNode.act) (fun _ => ⟨0xdeadbeef#64⟩) ()).xbalance.toInt =
      (sampleHistory.foldl (actOn Ilp32.AvlNode.act) (fun _ => ⟨0, 0, 0⟩) ()).xbalance.toInt := by
  have hset : ∀ f : Field, ∃ o ∈ sampleHistory, o.1 = () ∧ o.2.field = f := by
    intro f
    cases f with
    | parent => exact ⟨((), .parent 0x1000#64 rfl), by simp [sampleHistory], rfl, rfl⟩
    | child => exact ⟨((), .child 1 (.inr rfl)), by simp [sampleHistory], rfl, rfl⟩
    | balance => exact ⟨((), .balance 0 (.inr (.inl rfl))), by simp [sampleHistory], rfl, rfl⟩
  exact ⟨by decide, ((packed_refines _ _ sampleHistory).2 () hset).2.2⟩

end SysvDev.Avl.Node
