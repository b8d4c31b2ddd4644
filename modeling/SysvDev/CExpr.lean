import SysvDev.Cpp
import Mathlib.Data.BitVec
import Mathlib.Logic.Function.Iterate

namespace SysvDev.CExpr

open Cpp

inductive CType
  | i16 | u16 | i32 | u32 | i64 | u64
  deriving DecidableEq

namespace CType

def width : CType → Nat
  | i16 | u16 => 16
  | i32 | u32 => 32
  | i64 | u64 => 64

def signed : CType → Bool
  | i16 | i32 | i64 => true
  | u16 | u32 | u64 => false

def promote : CType → CType
  | i16 | u16 => i32
  | t => t

def common (a b : CType) : CType :=
  if a.promote.width < b.promote.width then b.promote
  else if b.promote.width < a.promote.width then a.promote
  else if a.promote.signed then b.promote
  else a.promote

end CType

structure Val where
  ty : CType
  bits : BitVec ty.width
  deriving DecidableEq

def Val.conv (v : Val) (t : CType) : BitVec t.width :=
  if v.ty.signed then v.bits.signExtend t.width else v.bits.setWidth t.width

inductive Op
  | and | or | shl | shr
  deriving DecidableEq

/-- A shift keeps the type of its left operand. The bits that a left shift of a
signed value moves out are dropped. -/
def Op.apply (a b : Val) : Op → Val
  | and => ⟨a.ty.common b.ty, a.conv (a.ty.common b.ty) &&& b.conv (a.ty.common b.ty)⟩
  | or => ⟨a.ty.common b.ty, a.conv (a.ty.common b.ty) ||| b.conv (a.ty.common b.ty)⟩
  | shl => ⟨a.ty.promote, a.conv a.ty.promote <<< b.bits.toNat⟩
  | shr => ⟨a.ty.promote,
      if a.ty.promote.signed then (a.conv a.ty.promote).sshiftRight b.bits.toNat
      else a.conv a.ty.promote >>> b.bits.toNat⟩

/-- An expression in which the argument of a macro occurs. -/
inductive Expr
  | arg
  | lit (v : Nat)
  | bin (op : Op) (a b : Expr)
  deriving DecidableEq

def litVal (v : Nat) : Val := ⟨.i32, BitVec.ofNat 32 v⟩

namespace Expr

def uses : Expr → Nat
  | arg => 1
  | lit _ => 0
  | bin _ a b => a.uses + b.uses

/-- The value for given values of the argument, one for each occurrence, and the
values that are left over. -/
def feed : Expr → List Val → Val × List Val
  | arg, x :: xs => (x, xs)
  | arg, [] => (litVal 0, [])
  | lit v, xs => (litVal v, xs)
  | bin op a b, xs => (op.apply (a.feed xs).1 (b.feed (a.feed xs).2).1, (b.feed (a.feed xs).2).2)

def evalRight {σ : Type} (f : σ → Val × σ) : Expr → σ → Val × σ
  | arg, s => f s
  | lit v, s => (litVal v, s)
  | bin op a b, s =>
      (op.apply (a.evalRight f (b.evalRight f s).2).1 (b.evalRight f s).1, (a.evalRight f (b.evalRight f s).2).2)

def value (x : Val) : Expr → Val
  | arg => x
  | lit v => litVal v
  | bin op a b => op.apply (a.value x) (b.value x)

end Expr

section Evals

variable {σ : Type}

/-- An evaluation from the state `s` to the state `s'`, in which the argument is
evaluated `n` times. The operands are evaluated in either order. -/
inductive Evals (f : σ → Val × σ) : Expr → σ → Nat → Val → σ → Prop
  | arg (s : σ) : Evals f .arg s 1 (f s).1 (f s).2
  | lit (v : Nat) (s : σ) : Evals f (.lit v) s 0 (litVal v) s
  | left {op : Op} {a b : Expr} {s s₁ s₂ : σ} {m n : Nat} {x y : Val} (ha : Evals f a s m x s₁)
      (hb : Evals f b s₁ n y s₂) : Evals f (.bin op a b) s (m + n) (op.apply x y) s₂
  | right {op : Op} {a b : Expr} {s s₁ s₂ : σ} {m n : Nat} {x y : Val} (hb : Evals f b s n y s₁)
      (ha : Evals f a s₁ m x s₂) : Evals f (.bin op a b) s (m + n) (op.apply x y) s₂

variable {f : σ → Val × σ} {e : Expr} {s s' : σ} {n : Nat} {v x : Val}

theorem exists_evals (f : σ → Val × σ) (e : Expr) (s : σ) : ∃ n v s', Evals f e s n v s' := by
  induction e generalizing s with
  | arg => exact ⟨_, _, _, .arg s⟩
  | lit v => exact ⟨_, _, _, .lit v s⟩
  | bin op a b iha ihb =>
      obtain ⟨m, x, s₁, ha⟩ := iha s
      obtain ⟨n, y, s₂, hb⟩ := ihb s₁
      exact ⟨_, _, _, .left ha hb⟩

theorem Evals.count (h : Evals f e s n v s') : n = e.uses := by
  induction h with
  | arg | lit => rfl
  | left _ _ iha ihb => rw [iha, ihb, Expr.uses]
  | right _ _ ihb iha => rw [iha, ihb, Expr.uses]

theorem Evals.state (h : Evals f e s n v s') : s' = (fun s => (f s).2)^[e.uses] s := by
  induction h with
  | arg | lit => rfl
  | left _ _ iha ihb => rw [ihb, iha, ← Function.iterate_add_apply, Nat.add_comm, Expr.uses]
  | right _ _ ihb iha => rw [iha, ihb, ← Function.iterate_add_apply, Expr.uses]

theorem evals_evalRight (f : σ → Val × σ) (e : Expr) (s : σ) :
    Evals f e s e.uses (e.evalRight f s).1 (e.evalRight f s).2 := by
  induction e generalizing s with
  | arg => exact .arg s
  | lit v => exact .lit v s
  | bin op a b iha ihb => exact .right (ihb s) (iha _)

/-- Each occurrence has the value that the argument has in one of the states
that the evaluation goes through. -/
theorem Evals.feed (h : Evals f e s n v s') : ∃ xs : List Val, xs.length = e.uses ∧ (∀ ys, e.feed (xs ++ ys) = (v, ys)) ∧
    ∀ x ∈ xs, ∃ i < e.uses, x = (f ((fun s => (f s).2)^[i] s)).1 := by
  induction h with
  | arg s =>
      refine ⟨[(f s).1], rfl, fun _ => rfl, fun x hx => ⟨0, Nat.zero_lt_one, ?_⟩⟩
      exact List.mem_singleton.mp hx
  | lit v s => exact ⟨[], rfl, fun _ => rfl, fun _ hx => by cases hx⟩
  | left ha hb iha ihb =>
      obtain ⟨xs, hxs, hfeed, hmem⟩ := iha
      obtain ⟨ys, hys, hfeed', hmem'⟩ := ihb
      refine ⟨xs ++ ys, by rw [List.length_append, hxs, hys, Expr.uses], fun zs => ?_, fun x hx => ?_⟩
      · rw [List.append_assoc, Expr.feed, hfeed, hfeed']
      · rw [Expr.uses]
        rcases List.mem_append.mp hx with hx | hx
        · obtain ⟨i, hi, rfl⟩ := hmem x hx
          exact ⟨i, by omega, rfl⟩
        · obtain ⟨i, hi, rfl⟩ := hmem' x hx
          refine ⟨i + _, Nat.add_comm _ i ▸ Nat.add_lt_add_left hi _, ?_⟩
          rw [Function.iterate_add_apply, ← ha.state]
  | right hb ha ihb iha =>
      obtain ⟨xs, hxs, hfeed, hmem⟩ := iha
      obtain ⟨ys, hys, hfeed', hmem'⟩ := ihb
      refine ⟨xs ++ ys, by rw [List.length_append, hxs, hys, Expr.uses], fun zs => ?_, fun x hx => ?_⟩
      · rw [List.append_assoc, Expr.feed, hfeed, hfeed']
      · rw [Expr.uses]
        rcases List.mem_append.mp hx with hx | hx
        · obtain ⟨i, hi, rfl⟩ := hmem x hx
          refine ⟨i + _, Nat.add_lt_add_right hi _, ?_⟩
          rw [Function.iterate_add_apply, ← hb.state]
        · obtain ⟨i, hi, rfl⟩ := hmem' x hx
          exact ⟨i, by omega, rfl⟩

theorem Evals.pure (h : Evals f e s n v s') (hf : ∀ s, f s = (x, s)) : v = e.value x ∧ s' = s := by
  induction h with
  | arg s => exact ⟨congrArg Prod.fst (hf s), congrArg Prod.snd (hf s)⟩
  | lit => exact ⟨rfl, rfl⟩
  | left _ _ iha ihb => exact ⟨by rw [iha.1, ihb.1, Expr.value], ihb.2.trans iha.2⟩
  | right _ _ ihb iha => exact ⟨by rw [iha.1, ihb.1, Expr.value], iha.2.trans ihb.2⟩

end Evals

section Parse

variable {N : Type}

/-- The levels of the grammar, from the operator that binds least. -/
inductive Level
  | or | and | shift | primary

def Level.next : Level → Level
  | or => and
  | and => shift
  | _ => primary

def Level.op : Level → Tok N → Option Op
  | or, .bar => some .or
  | and, .amp => some .and
  | shift, .shl => some .shl
  | shift, .shr => some .shr
  | _, _ => none

mutual

def parseAt : Nat → Level → List (Tok N) → Option (Expr × List (Tok N))
  | 0, _, _ => none
  | fuel + 1, .primary, ts =>
      match ts with
      | .arg :: ts => some (.arg, ts)
      | .num v :: ts => some (.lit v, ts)
      | .lparen :: ts =>
          match parseAt fuel .or ts with
          | some (e, .rparen :: ts) => some (e, ts)
          | _ => none
      | _ => none
  | fuel + 1, l, ts => (parseAt fuel l.next ts).bind fun r => parseRest fuel l r.1 r.2

/-- More operands of the same level, which group to the left. -/
def parseRest : Nat → Level → Expr → List (Tok N) → Option (Expr × List (Tok N))
  | 0, _, _, _ => none
  | _ + 1, _, e, [] => some (e, [])
  | fuel + 1, l, e, t :: ts =>
      match l.op t with
      | some op => (parseAt fuel l.next ts).bind fun r => parseRest fuel l (.bin op e r.1) r.2
      | none => some (e, t :: ts)

end

def parse (fuel : Nat) (ts : List (Tok N)) : Option Expr :=
  match parseAt fuel .or ts with
  | some (e, []) => some e
  | _ => none

theorem parseAt_name (n : N) (fuel : Nat) (l : Level) (ts : List (Tok N)) : parseAt fuel l (.name n :: ts) = none := by
  induction fuel generalizing l with
  | zero => rfl
  | succ fuel ih => cases l <;> simp [parseAt, ih]

end Parse

end SysvDev.CExpr
