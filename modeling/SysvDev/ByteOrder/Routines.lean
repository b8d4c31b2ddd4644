import SysvDev.ByteOrder.Macros
import SysvDev.X86.Run

namespace SysvDev.ByteOrder.Routines

open CExpr Macros X86.Memory X86.Machine X86.Machine.Att X86.Run

inductive Label
  | htonl | ntohl | htons | ntohs
  deriving DecidableEq

namespace Amd64

def text : List (Line Label) := [
  .label .htonl, .label .ntohl, movl edi eax, .op (.bswap .ax), .ret 0,
  .label .htons, .label .ntohs, movl edi eax, .op (.bswap .ax), shrl (.imm 16) eax, .ret 0]

end Amd64

namespace I386

def text : List (Line Label) := [
  .label .htonl, .label .ntohl, movl (ind 4 .sp) eax, .op (.bswap .ax), .ret 0,
  .label .htons, .label .ntohs, movl (ind 4 .sp) eax, .op (.bswap .ax), shrl (.imm 16) eax, .ret 0]

end I386

def argType : Label → CType
  | .htonl | .ntohl => .u32
  | .htons | .ntohs => .u16

def name : Label → Name
  | .htonl => .htonl
  | .ntohl => .ntohl
  | .htons => .htons
  | .ntohs => .ntohs

def swapped : (l : Label) → BitVec (argType l).width → BitVec (argType l).width
  | .htonl | .ntohl => reverseBytes
  | .htons | .ntohs => reverse16

section Routines

/-- A routine called in the state `o` has returned with the result for the
argument `x`, which the low bits of a register or a word of the stack hold. -/
structure Gives {w : Nat} (l : Label) (o : State w) (x : BitVec 32) (c : Cfg w) : Prop where
  ip : c.ip = (load w o.mem o.regs.sp).toNat
  sp : c.state.regs.sp = o.regs.sp + BitVec.ofNat w (w / 8)
  mem : c.state.mem = o.mem
  value : c.state.regs.ax.setWidth (argType l).width = swapped l (x.setWidth (argType l).width)

theorem setWidth_reverseBytes {w : Nat} (x : BitVec 32) (hw : 32 ≤ w) :
    ((reverseBytes x).setWidth w >>> 16).setWidth 16 = reverse16 (x.setWidth 16) := by
  apply BitVec.eq_of_getLsbD_eq
  intro i hi
  rw [getLsbD_reverse16 _ hi, BitVec.getLsbD_setWidth, BitVec.getLsbD_setWidth, BitVec.getLsbD_ushiftRight,
    BitVec.getLsbD_setWidth, getLsbD_reverseBytes _ (by omega), decide_eq_true hi, decide_eq_true (by omega),
    decide_eq_true (by omega)]
  simp only [Bool.true_and]
  congr 1
  omega

theorem leads_long64 {ip : Nat} {o : State 64} (hat : At Amd64.text ip [movl edi eax, .op (.bswap .ax), .ret 0]) :
    Leads (Steps Amd64.text) ⟨ip, o⟩ (Gives .htonl o (o.regs.di.setWidth 32)) := by
  apply leads_run hat
  simp [merge_long]
  refine .here ⟨rfl, rfl, rfl, ?_⟩
  exact BitVec.setWidth_setWidth_of_le _ (by decide)

theorem leads_short64 {ip : Nat} {o : State 64}
    (hat : At Amd64.text ip [movl edi eax, .op (.bswap .ax), shrl (.imm 16) eax, .ret 0]) :
    Leads (Steps Amd64.text) ⟨ip, o⟩ (Gives .htons o (o.regs.di.setWidth 32)) := by
  apply leads_run hat
  simp [merge_long, shr_val]
  refine .here ⟨rfl, rfl, rfl, ?_⟩
  exact setWidth_reverseBytes _ (by decide)

theorem leads_long32 {ip : Nat} {o : State 32} (hat : At I386.text ip [movl (ind 4 .sp) eax, .op (.bswap .ax), .ret 0]) :
    Leads (Steps I386.text) ⟨ip, o⟩ (Gives .htonl o (load 32 o.mem (o.regs.sp + 4#32))) := by
  apply leads_run hat
  simp [merge_word]
  exact .here ⟨rfl, rfl, rfl, rfl⟩

theorem leads_short32 {ip : Nat} {o : State 32}
    (hat : At I386.text ip [movl (ind 4 .sp) eax, .op (.bswap .ax), shrl (.imm 16) eax, .ret 0]) :
    Leads (Steps I386.text) ⟨ip, o⟩ (Gives .htons o (load 32 o.mem (o.regs.sp + 4#32))) := by
  apply leads_run hat
  simp [merge_word, shr_val]
  refine .here ⟨rfl, rfl, rfl, ?_⟩
  have h := setWidth_reverseBytes (w := 32) (load 32 o.mem (o.regs.sp + 4#32)) le_rfl
  rwa [BitVec.setWidth_eq] at h

theorem leads_amd64 (l : Label) (o : State 64) :
    Leads (Steps Amd64.text) ⟨labelAddr Amd64.text l, o⟩ (Gives l o (o.regs.di.setWidth 32)) := by
  cases l with
  | htonl => exact leads_run (show At _ _ (Amd64.text.take 2) from ⟨_, rfl⟩) ⟨_, rfl, leads_long64 ⟨_, rfl⟩⟩
  | ntohl =>
      exact leads_run (show At _ _ [.label .ntohl] from ⟨_, rfl⟩)
        ⟨_, rfl, (leads_long64 ⟨_, rfl⟩).mono fun _ h => ⟨h.ip, h.sp, h.mem, h.value⟩⟩
  | htons => exact leads_run (show At _ _ [.label .htons, .label .ntohs] from ⟨_, rfl⟩) ⟨_, rfl, leads_short64 ⟨_, rfl⟩⟩
  | ntohs =>
      exact leads_run (show At _ _ [.label .ntohs] from ⟨_, rfl⟩)
        ⟨_, rfl, (leads_short64 ⟨_, rfl⟩).mono fun _ h => ⟨h.ip, h.sp, h.mem, h.value⟩⟩

theorem leads_i386 (l : Label) (o : State 32) :
    Leads (Steps I386.text) ⟨labelAddr I386.text l, o⟩ (Gives l o (load 32 o.mem (o.regs.sp + 4#32))) := by
  cases l with
  | htonl => exact leads_run (show At _ _ [.label .htonl, .label .ntohl] from ⟨_, rfl⟩) ⟨_, rfl, leads_long32 ⟨_, rfl⟩⟩
  | ntohl =>
      exact leads_run (show At _ _ [.label .ntohl] from ⟨_, rfl⟩)
        ⟨_, rfl, (leads_long32 ⟨_, rfl⟩).mono fun _ h => ⟨h.ip, h.sp, h.mem, h.value⟩⟩
  | htons => exact leads_run (show At _ _ [.label .htons, .label .ntohs] from ⟨_, rfl⟩) ⟨_, rfl, leads_short32 ⟨_, rfl⟩⟩
  | ntohs =>
      exact leads_run (show At _ _ [.label .ntohs] from ⟨_, rfl⟩)
        ⟨_, rfl, (leads_short32 ⟨_, rfl⟩).mono fun _ h => ⟨h.ip, h.sp, h.mem, h.value⟩⟩

end Routines

theorem swapped_swapped (l : Label) (x : BitVec (argType l).width) : swapped l (swapped l x) = x := by
  cases l with
  | htonl | ntohl =>
      apply BitVec.eq_of_getLsbD_eq
      intro i hi
      have hi' : i < 32 := hi
      refine (getLsbD_reverseBytes _ hi').trans ((getLsbD_reverseBytes x (by omega)).trans ?_)
      congr 1
      omega
  | htons | ntohs =>
      apply BitVec.eq_of_getLsbD_eq
      intro i hi
      have hi' : i < 16 := hi
      refine (getLsbD_reverse16 _ hi').trans ((getLsbD_reverse16 x (by omega)).trans ?_)
      congr 1
      omega

variable {σ : Type}

def typed (l : Label) (arg : σ → BitVec (argType l).width × σ) (s : σ) : Val × σ := (⟨argType l, (arg s).1⟩, (arg s).2)

/-- For this argument the macro is as good as the routine: it is an expression
that evaluates the argument once, whatever the order, and has the same value. -/
def DropIn (l : Label) (arg : σ → BitVec (argType l).width × σ) (s : σ) : Prop :=
  ∃ e, denotes (name l) = some e ∧ ∀ n v s', Evals (typed l arg) e s n v s' →
    n = 1 ∧ s' = (arg s).2 ∧ v.conv (argType l) = swapped l (arg s).1

/-- The macros evaluate their argument twice or four times. -/
theorem uses_denotes {l : Label} {e : Expr} (h : denotes (name l) = some e) : e.uses = (argType l).width / 8 := by
  cases l with
  | htonl => cases denotes_htonl.symm.trans h
  | ntohl =>
      obtain rfl := Option.some.inj (denotes_ntohl.symm.trans h)
      rfl
  | htons =>
      obtain rfl := Option.some.inj (denotes_htons.symm.trans h)
      rfl
  | ntohs =>
      obtain rfl := Option.some.inj (denotes_ntohs.symm.trans h)
      rfl

theorem not_dropIn (l : Label) (arg : σ → BitVec (argType l).width × σ) (s : σ) : ¬ DropIn l arg s := by
  rintro ⟨e, he, h⟩
  obtain ⟨n, v, s', hevals⟩ := exists_evals (typed l arg) e s
  have hone := (h n v s' hevals).1
  rw [hevals.count, uses_denotes he] at hone
  cases l <;> exact absurd hone (by decide)

/-- But they have the right value for an argument that is only a value. -/
theorem value_denotes {l : Label} (hl : l ≠ .htonl) (x : BitVec (argType l).width) :
    ∃ e, denotes (name l) = some e ∧ (e.value ⟨argType l, x⟩).conv (argType l) = swapped l x := by
  cases l with
  | htonl => exact absurd rfl hl
  | ntohl =>
      refine ⟨_, denotes_ntohl, ?_⟩
      have h := congrArg (Val.conv · .u32) (value_swap32 x)
      exact h.trans (conv_u32 _)
  | htons => exact ⟨_, denotes_htons, value_swap16 x⟩
  | ntohs => exact ⟨_, denotes_ntohs, value_swap16 x⟩

/-- The macros are not the routines they stand for. What holds is that their
values are right, htonl apart, and that swapping twice changes nothing. -/
theorem macros_never_dropIn (l : Label) :
    (∀ (σ : Type) (arg : σ → BitVec (argType l).width × σ) (s : σ), ¬ DropIn l arg s) ∧
    ((∀ o : State 64, Leads (Steps Amd64.text) ⟨labelAddr Amd64.text l, o⟩
        (Gives l o (o.regs.di.setWidth 32))) ∧
      (∀ o : State 32, Leads (Steps I386.text) ⟨labelAddr I386.text l, o⟩
        (Gives l o (load 32 o.mem (o.regs.sp + 4#32)))) ∧
      ∀ x, (l ≠ .htonl → ∃ e, denotes (name l) = some e ∧ (e.value ⟨argType l, x⟩).conv (argType l) = swapped l x) ∧
        swapped l (swapped l x) = x) ∧
    ∀ x : BitVec 64, ∃ e, denotes .bswap64 = some e ∧ e.value ⟨.u64, x⟩ = ⟨.u64, reverse64 x⟩ ∧
      ∀ i < 64, (reverse64 x).getLsbD i = x.getLsbD (8 * (7 - i / 8) + i % 8) := by
  refine ⟨fun _ => not_dropIn l, ⟨leads_amd64 l, leads_i386 l, fun x => ⟨fun hl => value_denotes hl x, ?_⟩⟩,
    fun x => ⟨_, denotes_bswap64, value_swap64 x, fun i hi => getLsbD_reverse64 x hi⟩⟩
  exact swapped_swapped l x

/-- `htons(*p++)` moves the pointer twice. -/
theorem htons_increment : ¬ DropIn .htons (fun p : Nat => (0x0102#16, p + 1)) 0 := not_dropIn .htons _ 0

end SysvDev.ByteOrder.Routines
