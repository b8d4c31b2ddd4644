import SysvDev.Inevitable
import SysvDev.X86.Run

namespace SysvDev.X86.Accesses

open Memory Machine Run Inevitable

variable {w : Nat} {L : Type} {text : List (Line L)} {ip : Nat} {s : State w} {line : Line L} {lines : List (Line L)}

def ofPlace (s : State w) (n : Nat) : Place → List (Span w)
  | .reg _ => []
  | .mem a => [(s.addr a, n / 8)]

def ofOperand (s : State w) (n : Nat) : Operand → List (Span w)
  | .imm _ => []
  | .place p => ofPlace s n p

def opLoads (s : State w) : Op → List (Span w)
  | .mov n src _ | .bsr n src _ => ofOperand s n src
  | .movz k _ src _ | .movsx k _ src _ => ofPlace s k src
  | .xchgMem n _ a | .cmpxchg n _ a | .bts n _ a => ofPlace s n (.mem a)
  | .cmpxchg8b a | .fld a | .fdiv a => ofPlace s 64 (.mem a)
  | .push src => ofOperand s w src
  | .pop _ => [(s.regs.sp, w / 8)]
  | .leave => [(s.regs.bp, w / 8)]
  | .alu _ n src dst => ofOperand s n src ++ ofPlace s n dst
  | .neg n p | .inc n p | .dec n p | .shift _ n _ p | .shiftDouble _ n _ p | .mul n p | .div n p => ofPlace s n p
  | .movs n => [(s.regs.si, n / 8)]
  | .loadXmm a _ => [(s.addr a, 16)]
  | .xchg _ _ _ | .lea _ _ | .bswap _ | .stos _ | .clc | .cld | .std | .mfence | .pause | .prefetchnta _ | .nop | .cli
  | .sti | .clts | .readCr0 _ | .writeCr0 _ | .storeXmm _ _ | .pxor _ _ | .setcc _ _ | .readCr4 _ | .writeCr4 _
  | .writeCr8 _ | .lldt _ | .rdtsc | .sahf | .fninit | .fwait | .fsetpm | .fnstsw | .fdivr | .fxch | .fcompp
  | .fxsave _ => []

def loads (s : State w) : Line L → List (Span w)
  | .op o => opLoads s o
  | .rep o => if s.regs.cx = 0#w then [] else opLoads s o
  | .jmpInd a | .callInd a => [(s.addr a, w / 8)]
  | .ret _ => [(s.regs.sp, w / 8)]
  | .label _ | .align _ | .leaLabel _ _ | .jmp _ | .jcc _ _ | .call _ | .callReg _ => []

/-- The line that is next, if there is one, finds a state that it may be run
in. -/
def Guard (text : List (Line L)) (Q : State w → Line L → Prop) (c : Cfg w) : Prop :=
  ∀ line, text[c.ip]? = some line → Q c.state line

variable [DecidableEq L] {Q : State w → Line L → Prop} {P K : Cfg w → Prop}

/-- The lines one after the other, each of them in a state that it may be run
in, and `K` at their end. -/
def Passes (text : List (Line L)) (Q : State w → Line L → Prop) (K : Cfg w → Prop) (ip : Nat) (s : State w) :
    List (Line L) → Prop
  | [] => K ⟨ip, s⟩
  | line :: lines =>
      Q s line ∧
        match execLine text ip s line with
        | none => False
        | some (t, none) => Passes text Q K (ip + 1) t lines
        | some (t, some target) => K ⟨target, t⟩

section Rules

/-! As for `run`, one equation for each line. -/

variable {n : Nat} {l : L} {src : Operand} {dst : Place} {r : Reg} {c : Cond} {a : Addr}

@[simp] theorem passes_nil : Passes text Q K ip s [] ↔ K ⟨ip, s⟩ := ⟨id, id⟩

theorem passes_next {t : State w} (h : execLine text ip s line = some (t, none)) :
    Passes text Q K ip s (line :: lines) ↔ Q s line ∧ Passes text Q K (ip + 1) t lines := by
  rw [Passes, h]

theorem passes_jump {t : State w} {target : Nat} (h : execLine text ip s line = some (t, some target)) :
    Passes text Q K ip s (line :: lines) ↔ Q s line ∧ K ⟨target, t⟩ := by
  rw [Passes, h]

@[simp] theorem passes_label :
    Passes text Q K ip s (.label l :: lines) ↔ Q s (.label l) ∧ Passes text Q K (ip + 1) s lines := passes_next rfl

@[simp] theorem passes_align {k : Nat} :
    Passes text Q K ip s (.align k :: lines) ↔ Q s (.align k) ∧ Passes text Q K (ip + 1) s lines := passes_next rfl

@[simp] theorem passes_jmp :
    Passes text Q K ip s (.jmp l :: lines) ↔ Q s (.jmp l) ∧ K ⟨labelAddr text l, s⟩ := passes_jump rfl

@[simp] theorem passes_jcc_taken (h : c.eval s.flags = some true) :
    Passes text Q K ip s (.jcc c l :: lines) ↔ Q s (.jcc c l) ∧ K ⟨labelAddr text l, s⟩ :=
  passes_jump (by rw [execLine, h]; rfl)

@[simp] theorem passes_jcc_not (h : c.eval s.flags = some false) :
    Passes text Q K ip s (.jcc c l :: lines) ↔ Q s (.jcc c l) ∧ Passes text Q K (ip + 1) s lines :=
  passes_next (by rw [execLine, h]; rfl)

@[simp] theorem passes_ret {k : Nat} :
    Passes text Q K ip s (.ret k :: lines) ↔ Q s (.ret k) ∧ K ⟨(s.pop k).1.toNat, (s.pop k).2⟩ := passes_jump rfl

@[simp] theorem passes_mov :
    Passes text Q K ip s (.op (.mov n src dst) :: lines) ↔
      Q s (.op (.mov n src dst)) ∧ Passes text Q K (ip + 1) (s.write (s.value n src) dst) lines := passes_next rfl

@[simp] theorem passes_lea :
    Passes text Q K ip s (.op (.lea a r) :: lines) ↔
      Q s (.op (.lea a r)) ∧ Passes text Q K (ip + 1) (s.setReg r (s.addr a)) lines := passes_next rfl

@[simp] theorem passes_push :
    Passes text Q K ip s (.op (.push src) :: lines) ↔
      Q s (.op (.push src)) ∧ Passes text Q K (ip + 1) (s.push (s.value w src)) lines := passes_next rfl

@[simp] theorem passes_pop :
    Passes text Q K ip s (.op (.pop r) :: lines) ↔
      Q s (.op (.pop r)) ∧ Passes text Q K (ip + 1) ((s.pop 0).2.setReg r (s.pop 0).1) lines := passes_next rfl

@[simp] theorem passes_leave :
    Passes text Q K ip s (.op .leave :: lines) ↔ Q s (.op .leave) ∧ Passes text Q K (ip + 1)
      (((s.setReg .sp s.regs.bp).pop 0).2.setReg .bp ((s.setReg .sp s.regs.bp).pop 0).1) lines := passes_next rfl

@[simp] theorem passes_add :
    Passes text Q K ip s (.op (.alu .add n src dst) :: lines) ↔ Q s (.op (.alu .add n src dst)) ∧
      Passes text Q K (ip + 1) (s.put dst (sum (s.value n src) (s.read n dst) false)) lines := passes_next rfl

@[simp] theorem passes_sub :
    Passes text Q K ip s (.op (.alu .sub n src dst) :: lines) ↔ Q s (.op (.alu .sub n src dst)) ∧
      Passes text Q K (ip + 1) (s.put dst (difference (s.value n src) (s.read n dst) false)) lines := passes_next rfl

@[simp] theorem passes_cmp :
    Passes text Q K ip s (.op (.alu .cmp n src dst) :: lines) ↔ Q s (.op (.alu .cmp n src dst)) ∧
      Passes text Q K (ip + 1) (s.setFlags (difference (s.value n src) (s.read n dst) false).2) lines := passes_next rfl

@[simp] theorem passes_and :
    Passes text Q K ip s (.op (.alu .and n src dst) :: lines) ↔ Q s (.op (.alu .and n src dst)) ∧
      Passes text Q K (ip + 1) (s.put dst (logical (s.read n dst &&& s.value n src))) lines := passes_next rfl

@[simp] theorem passes_test :
    Passes text Q K ip s (.op (.alu .test n src dst) :: lines) ↔ Q s (.op (.alu .test n src dst)) ∧
      Passes text Q K (ip + 1) (s.setFlags (logical (s.read n dst &&& s.value n src)).2) lines := passes_next rfl

@[simp] theorem passes_or :
    Passes text Q K ip s (.op (.alu .or n src dst) :: lines) ↔ Q s (.op (.alu .or n src dst)) ∧
      Passes text Q K (ip + 1) (s.put dst (logical (s.read n dst ||| s.value n src))) lines := passes_next rfl

@[simp] theorem passes_xor :
    Passes text Q K ip s (.op (.alu .xor n src dst) :: lines) ↔ Q s (.op (.alu .xor n src dst)) ∧
      Passes text Q K (ip + 1) (s.put dst (logical (s.read n dst ^^^ s.value n src))) lines := passes_next rfl

@[simp] theorem passes_inc :
    Passes text Q K ip s (.op (.inc n dst) :: lines) ↔ Q s (.op (.inc n dst)) ∧
      Passes text Q K (ip + 1) (s.put dst (increment s.flags.cf (s.read n dst))) lines := passes_next rfl

@[simp] theorem passes_dec :
    Passes text Q K ip s (.op (.dec n dst) :: lines) ↔ Q s (.op (.dec n dst)) ∧
      Passes text Q K (ip + 1) (s.put dst (decrement s.flags.cf (s.read n dst))) lines := passes_next rfl

end Rules

/-- The machine is deterministic: a block that is passed is on every run. -/
theorem until_passes (hat : At text ip lines)
    (h : Passes text Q (Until (Steps text) (Guard text Q) P) ip s lines) :
    Until (Steps text) (Guard text Q) P ⟨ip, s⟩ := by
  induction lines generalizing ip s with
  | nil => exact h
  | cons line lines ih =>
      have hline : text[ip]? = some line := hat.head
      have hnext : next text ⟨ip, s⟩ = (execLine text ip s line).map fun r => ⟨r.2.getD (ip + 1), r.1⟩ := by
        simp only [next, hline, Option.bind_some]
      obtain ⟨hQ, hrest⟩ := h
      have hguard : Guard text Q ⟨ip, s⟩ := by
        intro line' hline'
        rw [hline] at hline'
        exact Option.some.inj hline' ▸ hQ
      have hgoes {d : Cfg w} (hd : next text ⟨ip, s⟩ = some d) (huntil : Until (Steps text) (Guard text Q) P d) :
          Until (Steps text) (Guard text Q) P ⟨ip, s⟩ := by
        refine .next hguard ⟨d, hd⟩ fun e he => ?_
        rw [Steps, hd] at he
        exact Option.some.inj he ▸ huntil
      split at hrest
      · exact hrest.elim
      · next t hexec =>
          rw [hexec] at hnext
          exact hgoes hnext (ih hat.tail hrest)
      · next t target hexec =>
          rw [hexec] at hnext
          exact hgoes hnext hrest

end SysvDev.X86.Accesses
