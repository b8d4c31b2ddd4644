import SysvDev.X86.Words

namespace SysvDev.Subr.Mul64

open Word X86.Memory X86.Machine X86.Machine.Att X86.Run X86.Cells X86.Words Inevitable

inductive Label
  | mul64
  deriving DecidableEq

def mul64 : List (Line Label) :=
  [ .label .mul64,
    pushl ebp,
    movl esp ebp,
    pushl esi,
    movl (ind 12 .bp) eax,
    mull (ind 16 .bp),
    .op (.xchg 32 .cx .ax),
    movl (ind 8 .bp) eax,
    movl eax esi,
    mull (ind 16 .bp),
    addl edx ecx,
    .op (.xchg 32 .ax .si),
    mull (ind 20 .bp),
    addl ecx eax,
    movl esi edx,
    .op (.xchg 32 .ax .dx),
    popl .si,
    movl ebp esp,
    popl .bp,
    .ret 16 ]

/-- An inline template: its arguments lie at the top of the stack. -/
def mul32 : List (Line Label) :=
  [ movl (ind 4 .sp) eax,
    movl (ind 0 .sp) ecx,
    mull ecx ]

def code : List (Line Label) := List.flatten [mul64]

def template : List (Line Label) := List.flatten [mul32]

inductive Cell : Nat → Type
  | esi : Cell 32
  | ebp : Cell 32
  | ret : Cell 32
  | aLo : Cell 32
  | aHi : Cell 32
  | bLo : Cell 32
  | bHi : Cell 32

/-- `sp` is the stack pointer at the entry. -/
def place (sp : BitVec 32) : ∀ n, Cell n → BitVec 32
  | _, .esi => sp - 8#32
  | _, .ebp => sp - 4#32
  | _, .ret => sp
  | _, .aLo => sp + 4#32
  | _, .aHi => sp + 8#32
  | _, .bLo => sp + 12#32
  | _, .bHi => sp + 16#32

theorem place_eq_add (sp : BitVec 32) (n : Nat) (k : Cell n) : place sp n k = sp + place 0#32 n k := by
  cases k <;>
  · simp only [place]
    bv_omega

theorem spread (sp : BitVec 32) : Spread (place sp) := by
  intro n k i j hij
  rw [place_eq_add sp, place_eq_add sp, apart_add]
  cases i <;> cases j <;> first | exact absurd rfl hij | decide

variable {s : State 32} {m : Mem 32} {sp : BitVec 32}

theorem places (sp : BitVec 32) :
    sp - 4#32 = place sp 32 .ebp ∧
    place sp 32 .ebp - 4#32 = place sp 32 .esi ∧
    place sp 32 .ebp + 8#32 = place sp 32 .aLo ∧
    place sp 32 .ebp + 12#32 = place sp 32 .aHi ∧
    place sp 32 .ebp + 16#32 = place sp 32 .bLo ∧
    place sp 32 .ebp + 20#32 = place sp 32 .bHi ∧
    place sp 32 .esi + 4#32 = place sp 32 .ebp ∧
    place sp 32 .ebp + 4#32 = place sp 32 .ret := by
  refine ⟨rfl, ?_, ?_, ?_, ?_, ?_, ?_, ?_⟩ <;>
  · simp only [place]
    bv_omega

def product (d : Cfg 32) : BitVec 64 := d.state.regs.dx ++ d.state.regs.ax

def argA (s : State 32) : BitVec 64 := load 64 s.mem (s.regs.sp + 4#32)

def argB (s : State 32) : BitVec 64 := load 64 s.mem (s.regs.sp + 12#32)

theorem argA_eq (s : State 32) :
    argA s = word (place s.regs.sp) s.mem .aHi ++ word (place s.regs.sp) s.mem .aLo := by
  rw [argA, load_pair, BitVec.add_assoc]
  rfl

theorem argB_eq (s : State 32) :
    argB s = word (place s.regs.sp) s.mem .bHi ++ word (place s.regs.sp) s.mem .bLo := by
  rw [argB, load_pair, BitVec.add_assoc]
  rfl

/-- `__mul64` has returned, and has taken its arguments from the stack. -/
structure Returned (s : State 32) (d : Cfg 32) : Prop where
  ip : d.ip = (load 32 s.mem s.regs.sp).toNat
  sp : d.state.regs.sp = s.regs.sp + 20#32
  bx : d.state.regs.bx = s.regs.bx
  bp : d.state.regs.bp = s.regs.bp
  si : d.state.regs.si = s.regs.si
  di : d.state.regs.di = s.regs.di
  mem : ChangedIn (s.regs.sp - 8#32) 8 s.mem d.state.mem

theorem comes_mul64 : Comes code (fun _ => none) (fun d => Returned s d ∧ product d = argA s * argB s) ⟨0, s⟩ := by
  have hat : At code 0 mul64 := ⟨_, rfl⟩
  apply comes_block (fun _ _ => rfl) hat
  simp [mul64, merge_word, places s.regs.sp, load_place (place _), word_store_other (spread _), word_store_self]
  refine .here ⟨⟨rfl, rfl, rfl, rfl, rfl, rfl, ?_⟩, ?_⟩
  · have hebp : place s.regs.sp 32 .ebp = s.regs.sp - 8#32 + 4#32 := by
      simp only [place]
      bv_omega
    have hesi : place s.regs.sp 32 .esi = s.regs.sp - 8#32 + 0#32 := by
      simp only [place]
      bv_omega
    rw [hebp, hesi]
    exact ((ChangedIn.refl _ _ _).store (by decide)).store (by decide)
  · rw [argA_eq, argB_eq, ← pair_mul]
    simp [product, sum, highProduct]
    ac_rfl

def arg0 (s : State 32) : BitVec 32 := load 32 s.mem s.regs.sp

def arg1 (s : State 32) : BitVec 32 := load 32 s.mem (s.regs.sp + 4#32)

theorem pair_product (x y : BitVec 32) : highProduct y x ++ (y * x) = x.setWidth 64 * y.setWidth 64 := by
  have hwide (v : BitVec 32) : v.setWidth 64 = 0#32 ++ v := by
    apply BitVec.eq_of_toNat_eq
    rw [toNat_pair, BitVec.toNat_setWidth, Nat.mod_eq_of_lt (v.isLt.trans (by decide))]
    simp
  rw [hwide, hwide, mul_comm (0#32 ++ x), ← pair_mul]
  simp [highProduct]

theorem comes_mul32 : Comes template (fun _ => none)
    (fun d => d.ip = template.length ∧ product d = (arg0 s).setWidth 64 * (arg1 s).setWidth 64) ⟨0, s⟩ := by
  have hat : At template 0 mul32 := ⟨_, rfl⟩
  apply comes_block (fun _ _ => rfl) hat
  simp [mul32, merge_word]
  refine .here ⟨rfl, ?_⟩
  rw [← pair_product]
  rfl

/-- The two agree where the high words are zero. -/
theorem mul64_product :
    (∀ s : State 32, Comes code (fun _ => none) (fun d => Returned s d ∧ product d = argA s * argB s) ⟨0, s⟩) ∧
    (∀ s : State 32, Comes template (fun _ => none)
      (fun d => d.ip = template.length ∧ product d = (arg0 s).setWidth 64 * (arg1 s).setWidth 64) ⟨0, s⟩) ∧
    (∀ s t : State 32, argA s = (arg0 t).setWidth 64 → argB s = (arg1 t).setWidth 64 →
      Comes code (fun _ => none)
        (fun d => Comes template (fun _ => none) (fun e => product d = product e) ⟨0, t⟩) ⟨0, s⟩) := by
  refine ⟨fun _ => comes_mul64, fun _ => comes_mul32, fun s t hA hB => ?_⟩
  refine comes_mul64.mono (fun _ hq => hq) fun d hd => ?_
  refine comes_mul32.mono (fun _ hq => hq) fun e he => ?_
  rw [hd.2, he.2, hA, hB]

def sampleCall : State 32 :=
  ⟨⟨0, 0, 0, 0, 4092#32, 0, 0, 0, .zero⟩, undefinedFlags, false,
    store (store (fun _ => 0) 4096#32 6#64) 4104#32 7#64⟩

def sampleTemplate : State 32 :=
  ⟨⟨0, 0, 0, 0, 4096#32, 0, 0, 0, .zero⟩, undefinedFlags, false,
    store (store (fun _ => 0) 4096#32 6#32) 4100#32 7#32⟩

theorem mul64_product_sample : argA sampleCall = 6#64 ∧
    Comes code (fun _ => none)
      (fun d => Comes template (fun _ => none) (fun e => product d = product e) ⟨0, sampleTemplate⟩) ⟨0, sampleCall⟩ :=
  ⟨by decide, mul64_product.2.2 sampleCall sampleTemplate (by decide) (by decide)⟩

end SysvDev.Subr.Mul64
