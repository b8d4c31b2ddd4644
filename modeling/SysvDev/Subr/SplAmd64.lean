import SysvDev.Subr.Levels
import SysvDev.X86.Words

namespace SysvDev.Subr.SplAmd64

open X86.Memory X86.Machine X86.Machine.Att X86.Run X86.Cells X86.Words Inevitable Relation Levels
open Spl (newIpl STI_INSTR CR0_WP)

/-- Where the variables and the instructions to be patched are, the offsets in
a `struct cpu`, and the level of the dispatcher. -/
structure Symbols where
  cpuSelf : Int
  setspl : Int
  intpriUseCr8 : Int
  setsplsti : Int
  slowSetsplsti : Int
  setsplhisti : Int
  splrSetsti : Int
  setsplhiPatch : Int
  slowSetsplhi : Int
  splPatch : Int
  slowSpl : Int
  cpuPri : Int
  cpuBaseSpl : Int
  cpuSoftinfo : Int
  cpuPriData : Int
  dispLevel : Int

/-- `fakesoftint` is in another file. -/
inductive Label
  | spl8 | spl7 | splzs | splhi | setsplhiPatch | setsplhisti | slowSetsplhi | spl0 | splr | splrSetsti | splx | spl
  | setprilev | splPatch | setsplsti | slowSpl | fakesoftintReturn | slowSetsplsti | setToBaseSpl | installSpl | one
  | two | fakesoftint
  deriving DecidableEq

def JMP_INSTR : Int := 0xeb

section Text

variable (sym : Symbols) (patched installed : Bool)

def LOADCPU : Line Label := movq (var sym.cpuSelf) rcx

def GETIPL_NOGS : Line Label := movl (ind sym.cpuPri .cx) eax

def SETIPL_NOGS : Line Label := movl edi (ind sym.cpuPri .cx)

def RAISE (level : Int) : List (Line Label) :=
  [ .op .cli,
    LOADCPU sym,
    movl (.imm level) edi,
    GETIPL_NOGS sym,
    cmpl eax edi,
    jg .spl,
    .jmp .setsplhisti ]

def SETPRI (level : Int) : List (Line Label) :=
  [ .op .cli,
    LOADCPU sym,
    movl (.imm level) edi,
    .jmp .spl ]

/-- A `nop` that is patched to a `sti`. -/
def patchPoint : Line Label := .op (if installed then .sti else .nop)

/-- The load of the table of masks, that is patched to a jump where `%cr8` is
not used. -/
def loadPriData (slow : Label) : Line Label :=
  if patched then .jmp slow else movq (ind sym.cpuPriData .cx) r11

def setMask : List (Line Label) :=
  [ .op (.movz 8 64 (.mem (.index 0 .r11 .di 1)) rdx),
    .op (.writeCr8 .dx) ]

def splhi : List (Line Label) :=
  [ .align 16,
    .label .splhi,
    .op .cli,
    LOADCPU sym,
    movl (.imm sym.dispLevel) edi,
    movl (ind sym.cpuPri .cx) eax,
    cmpl eax edi,
    jle .setsplhisti,
    SETIPL_NOGS sym,
    .label .setsplhiPatch,
    loadPriData sym patched .slowSetsplhi ]

def setsplhisti : List (Line Label) :=
  [ .label .setsplhisti,
    patchPoint installed,
    .ret 0 ]

def slowSetsplhi : List (Line Label) :=
  [ .label .slowSetsplhi,
    pushq rbp,
    movq rsp rbp,
    subq (.imm 16) rsp,
    movl eax (ind (-4) .bp),
    .callInd (.abs sym.setspl),
    movl (ind (-4) .bp) eax,
    .op .leave,
    .jmp .setsplhisti ]

def splr : List (Line Label) :=
  [ .label .splr,
    .op .cli,
    LOADCPU sym,
    GETIPL_NOGS sym,
    cmpl eax edi,
    jg .spl,
    .label .splrSetsti,
    patchPoint installed,
    .ret 0 ]

def splx : List (Line Label) :=
  [ .label .splx,
    .op .cli,
    LOADCPU sym,
    .align 4 ]

def spl : List (Line Label) :=
  [ .label .spl,
    GETIPL_NOGS sym,
    cmpl edi (ind sym.cpuBaseSpl .cx),
    ja .setToBaseSpl ]

def setprilev : List (Line Label) :=
  [ .label .setprilev,
    SETIPL_NOGS sym,
    .label .splPatch,
    loadPriData sym patched .slowSpl ]

def softints : List (Line Label) :=
  [ xorl edx edx,
    bsrl (ind sym.cpuSoftinfo .cx) .dx,
    cmpl edi edx,
    jle .setsplsti,
    pushq rbp,
    movq rsp rbp,
    pushq rax,
    pushq rdi,
    .jmp .fakesoftint ]

def setsplsti : List (Line Label) :=
  [ .label .setsplsti,
    patchPoint installed,
    .ret 0 ]

def slowSpl : List (Line Label) :=
  [ .label .slowSpl,
    pushq rbp,
    movq rsp rbp,
    pushq rax,
    pushq rdi,
    .callInd (.abs sym.setspl) ]

def slowSoftints : List (Line Label) :=
  [ LOADCPU sym,
    movl (ind sym.cpuSoftinfo .cx) eax,
    orl eax eax,
    jz .slowSetsplsti,
    bsrl eax .dx,
    cmpl (ind 0 .sp) edx,
    jg .fakesoftint,
    .label .fakesoftintReturn ]

def slowSetsplsti : List (Line Label) :=
  [ .label .slowSetsplsti,
    patchPoint installed,
    popq .di,
    popq .ax,
    .op .leave,
    .ret 0 ]

def setToBaseSpl : List (Line Label) :=
  [ .label .setToBaseSpl,
    movl (ind sym.cpuBaseSpl .cx) edi,
    .jmp .setprilev ]

/-- The bytes of a jump to `target` that are put at `patch`. -/
def patchJump (patch target : Int) : List (Line Label) :=
  [ leaq (.abs patch) .di,
    leaq (.abs target) .ax,
    subq rdi rax,
    subq (.imm 2) rax,
    shlq (.imm 8) rax,
    addq (.imm JMP_INSTR) rax,
    movw eax (var patch) ]

def installSpl : List (Line Label) :=
  List.flatten
    [ [ .label .installSpl,
        .op (.readCr0 .ax),
        movq rax rdx,
        movl (.imm (-(CR0_WP + 1))) ecx,
        .op (.movsx 32 64 ecx rcx),
        andq rcx rax,
        .op (.writeCr0 .ax),
        .jmp .one,
        .label .one,
        movb (.imm STI_INSTR.toNat) (var sym.setsplsti),
        movb (.imm STI_INSTR.toNat) (var sym.slowSetsplsti),
        movb (.imm STI_INSTR.toNat) (var sym.setsplhisti),
        movb (.imm STI_INSTR.toNat) (var sym.splrSetsti),
        testl (.imm 1) (var sym.intpriUseCr8),
        jz .two,
        .op (.writeCr0 .dx),
        .ret 0,
        .label .two ],
      patchJump sym.setsplhiPatch sym.slowSetsplhi,
      patchJump sym.splPatch sym.slowSpl,
      [ xorl eax eax,
        .op (.writeCr8 .ax),
        .op (.writeCr0 .dx),
        .ret 0 ] ]

/-- `patched` is whether `install_spl` has put in the jumps, and `installed`
whether it has run at all. -/
def code : List (Line Label) :=
  List.flatten
    [ .label .spl8 :: SETPRI sym 15,
      .label .spl7 :: RAISE sym 13,
      .label .splzs :: SETPRI sym 12,
      splhi sym patched,
      setMask,
      setsplhisti installed,
      slowSetsplhi sym,
      .label .spl0 :: SETPRI sym 0,
      splr sym installed,
      splx sym,
      spl sym,
      setprilev sym patched,
      setMask,
      softints sym,
      setsplsti installed,
      slowSpl sym,
      slowSoftints sym,
      slowSetsplsti installed,
      setToBaseSpl sym,
      installSpl sym,
      [.label .fakesoftint] ]

end Text

def position : Label → Nat
  | .spl8 => 0
  | .spl7 => 5
  | .splzs => 13
  | .splhi => 19
  | .setsplhiPatch => 27
  | .setsplhisti => 31
  | .slowSetsplhi => 34
  | .spl0 => 43
  | .splr => 48
  | .splrSetsti => 54
  | .splx => 57
  | .spl => 61
  | .setprilev => 65
  | .splPatch => 67
  | .setsplsti => 80
  | .slowSpl => 83
  | .fakesoftintReturn => 96
  | .slowSetsplsti => 97
  | .setToBaseSpl => 103
  | .installSpl => 106
  | .one => 114
  | .two => 123
  | .fakesoftint => 142

/-- The words that the routines work on: the variables, those of the `struct
cpu` and of the frame, and words `X` of the caller. -/
inductive Cell (X : Nat → Type) : Nat → Type
  | self : Cell X 64
  | setspl : Cell X 64
  | pri : Cell X 32
  | baseSpl : Cell X 32
  | softinfo : Cell X 32
  | ret : Cell X 64
  | frame : Cell X 64
  | old : Cell X 64
  | new : Cell X 64
  | call : Cell X 64
  | own {n : Nat} (x : X n) : Cell X n

variable {X : Nat → Type}

/-- `sp` is the stack pointer at entry. -/
def place (sym : Symbols) (cpu sp : BitVec 64) (own : ∀ n, X n → BitVec 64) : ∀ n, Cell X n → BitVec 64
  | _, .self => BitVec.ofInt 64 sym.cpuSelf
  | _, .setspl => BitVec.ofInt 64 sym.setspl
  | _, .pri => cpu + BitVec.ofInt 64 sym.cpuPri
  | _, .baseSpl => cpu + BitVec.ofInt 64 sym.cpuBaseSpl
  | _, .softinfo => cpu + BitVec.ofInt 64 sym.cpuSoftinfo
  | _, .ret => sp
  | _, .frame => sp - 8#64
  | _, .old => sp - 16#64
  | _, .new => sp - 24#64
  | _, .call => sp - 32#64
  | n, .own x => own n x

def Cell.below {n : Nat} : Cell X n → Bool
  | .frame | .old | .new | .call => true
  | _ => false

def Cell.isPri {n : Nat} : Cell X n → Bool
  | .pri => true
  | _ => false

def Cell.isCall {n : Nat} : Cell X n → Bool
  | .call => true
  | _ => false

variable {sym : Symbols} {patched installed : Bool} {cpu sp : BitVec 64} {own : ∀ n, X n → BitVec 64}
  {ext : Nat → Option (State 64 → State 64)} {ax bx cx dx bp si di : BitVec 64} {hi : HighRegs 64} {fl : Flags}
  {df : Bool} {m : Mem 64} {s : State 64}

set_option maxRecDepth 2000 in
@[simp] theorem labelAddr_code (l : Label) : labelAddr (code sym patched installed) l = position l := by
  cases patched <;> cases l <;> rfl

set_option maxRecDepth 2000 in
theorem length_code : (code sym patched installed).length = 143 := rfl

@[simp] theorem run_patchPoint {text : List (Line Label)} {ip : Nat} {lines : List (Line Label)} :
    run text ip s (patchPoint installed :: lines) = run text (ip + 1) s lines := by
  cases installed <;> exact run_op rfl

/-- The operands of the text, as the words they stand for. -/
theorem places (sym : Symbols) (cpu sp : BitVec 64) (own : ∀ n, X n → BitVec 64) :
    BitVec.ofInt 64 sym.cpuSelf = place sym cpu sp own 64 .self ∧
    BitVec.ofInt 64 sym.setspl = place sym cpu sp own 64 .setspl ∧
    cpu + BitVec.ofInt 64 sym.cpuPri = place sym cpu sp own 32 .pri ∧
    cpu + BitVec.ofInt 64 sym.cpuBaseSpl = place sym cpu sp own 32 .baseSpl ∧
    cpu + BitVec.ofInt 64 sym.cpuSoftinfo = place sym cpu sp own 32 .softinfo ∧
    sp - 8#64 = place sym cpu sp own 64 .frame ∧
    place sym cpu sp own 64 .frame - 8#64 = place sym cpu sp own 64 .old ∧
    place sym cpu sp own 64 .old - 8#64 = place sym cpu sp own 64 .new ∧
    place sym cpu sp own 64 .new - 8#64 = place sym cpu sp own 64 .call := by
  refine ⟨rfl, rfl, rfl, rfl, rfl, rfl, ?_, ?_, ?_⟩ <;>
  · rw [place, place]
    bv_omega

structure Returned (sym : Symbols) (cpu : BitVec 64) (own : ∀ n, X n → BitVec 64) (s : State 64) (pri : BitVec 32)
    (d : Cfg 64) : Prop where
  ip : d.ip = (word (place sym cpu s.regs.sp own) s.mem .ret).toNat
  keeps : Keeps64 s d.state
  ax : d.state.regs.ax.setWidth 32 = word (place sym cpu s.regs.sp own) s.mem .pri
  pri : word (place sym cpu s.regs.sp own) d.state.mem .pri = pri
  words : ∀ n (k : Cell X n), k.below = false → k.isPri = false →
    word (place sym cpu s.regs.sp own) d.state.mem k = word (place sym cpu s.regs.sp own) s.mem k

/-- `setspl` keeps what it has to keep, and the words that the routines work
on. -/
structure Answers (place : ∀ n, Cell X n → BitVec 64) (s t : State 64) : Prop where
  keeps : Keeps64 s t
  words : ∀ n (k : Cell X n), k.isCall = false → word place t.mem k = word place s.mem k

def Outer (sym : Symbols) (cpu sp : BitVec 64) (own : ∀ n, X n → BitVec 64) (ext : Nat → Option (State 64 → State 64))
    (setspl : BitVec 64) : Prop :=
  ∃ f, ext setspl.toNat = some f ∧
    ∀ u : State 64, u.regs.sp = sp - 32#64 → Answers (place sym cpu sp own) u (f u)

theorem Cell.isCall_of_below {n : Nat} {k : Cell X n} (h : k.below = false) : k.isCall = false := by
  cases k <;> first | rfl | cases h

theorem Returned.of_entry {ax' cx' dx' si' di' : BitVec 64} {fl' : Flags} {df' : Bool} {p : BitVec 32} {d : Cfg 64}
    (h : Returned sym cpu own ⟨⟨ax, cx, dx, bx, sp, bp, si, di, hi⟩, fl, df, m⟩ p d) :
    Returned sym cpu own ⟨⟨ax', cx', dx', bx, sp, bp, si', di', hi⟩, fl', df', m⟩ p d where
  ip := h.ip
  keeps := ⟨h.keeps.sp, h.keeps.bx, h.keeps.bp, h.keeps.r12, h.keeps.r13, h.keeps.r14, h.keeps.r15⟩
  ax := h.ax
  pri := h.pri
  words := h.words

section Blocks

variable (hext : ∀ i < (code sym patched installed).length, ext i = none)

include hext

theorem comes_sti {ip : Nat} {l : Label} {P : Cfg 64 → Prop}
    (hat : At (code sym patched installed) ip [.label l, patchPoint installed, .ret 0])
    (h : P ⟨(load 64 m sp).toNat, ⟨⟨ax, cx, dx, bx, sp + 8#64, bp, si, di, hi⟩, fl, df, m⟩⟩) :
    Comes (code sym patched installed) ext P ⟨ip, ⟨⟨ax, cx, dx, bx, sp, bp, si, di, hi⟩, fl, df, m⟩⟩ := by
  apply comes_block hext hat
  simp
  exact .here h

variable (hspread : Spread (place sym cpu sp own)) (hax : ax.setWidth 32 = word (place sym cpu sp own) m .pri)

include hspread hax

theorem comes_setprilev_fast (hpatched : patched = false) (hsoft : word (place sym cpu sp own) m .softinfo = 0#32)
    (hdi : 0 ≤ (di.setWidth 32).toInt) :
    Comes (code sym patched installed) ext
      (Returned sym cpu own ⟨⟨ax, cpu, dx, bx, sp, bp, si, di, hi⟩, fl, df, m⟩ (di.setWidth 32))
      ⟨position .setprilev, ⟨⟨ax, cpu, dx, bx, sp, bp, si, di, hi⟩, fl, df, m⟩⟩ := by
  subst hpatched
  have hat : At (code sym false installed) (position .setprilev)
      (List.flatten [setprilev sym false, setMask, softints sym]) := ⟨_, rfl⟩
  have hat' : At (code sym false installed) (position .setsplsti) (setsplsti installed) := ⟨_, rfl⟩
  have hle := difference_le (di.setWidth 32) (0#32)
  rw [BitVec.toInt_zero, decide_eq_true hdi] at hle
  apply comes_block hext hat
  simp [setprilev, setMask, softints, loadPriData, SETIPL_NOGS, merge_long, places sym cpu sp own,
    load_place (place _ _ _ _), hsoft,
    word_store_other hspread]
  rw [run_jcc_taken hle, labelAddr_code]
  simp only [Option.some_inj, exists_eq_left']
  apply comes_sti hext hat'
  have hret : word (place sym cpu sp own) (store m (place sym cpu sp own 32 .pri) (di.setWidth 32)) .ret =
      word (place sym cpu sp own) m .ret := word_store_other hspread (ne_of_kind (@Cell.isPri X) true rfl rfl)
  have hpri : word (place sym cpu sp own) (store m (place sym cpu sp own 32 .pri) (di.setWidth 32)) .pri =
      di.setWidth 32 := by
    apply word_store_self <;> norm_num
  constructor
  · exact congrArg BitVec.toNat hret
  · constructor <;> rfl
  · exact hax
  · exact hpri
  · intro n k _ hk
    exact word_store_other hspread (ne_of_kind (@Cell.isPri X) true rfl hk)

omit hspread hax in
theorem comes_slowSetsplsti {P : Cfg 64 → Prop}
    (h : P ⟨(word (place sym cpu sp own) m .ret).toNat, ⟨⟨word (place sym cpu sp own) m .old, cx, dx, bx, sp + 8#64,
      word (place sym cpu sp own) m .frame, si, word (place sym cpu sp own) m .new, hi⟩, fl, df, m⟩⟩) :
    Comes (code sym patched installed) ext P ⟨position .slowSetsplsti,
      ⟨⟨ax, cx, dx, bx, place sym cpu sp own 64 .new, place sym cpu sp own 64 .frame, si, di, hi⟩, fl, df, m⟩⟩ := by
  have hat : At (code sym patched installed) (position .slowSetsplsti) (slowSetsplsti installed) := ⟨_, rfl⟩
  have hnew : place sym cpu sp own 64 .new + 8#64 = place sym cpu sp own 64 .old := by
    rw [place, place]
    bv_omega
  have hframe : place sym cpu sp own 64 .frame + 8#64 = sp := by
    rw [place]
    bv_omega
  apply comes_block hext hat
  simp [slowSetsplsti, merge_quad, load_place (place _ _ _ _), hnew, hframe]
  exact .here h

theorem comes_setprilev_slow (hpatched : patched = true) (hsoft : word (place sym cpu sp own) m .softinfo = 0#32)
    (hself : word (place sym cpu sp own) m .self = cpu)
    (hsetspl : Outer sym cpu sp own ext (word (place sym cpu sp own) m .setspl)) :
    Comes (code sym patched installed) ext
      (Returned sym cpu own ⟨⟨ax, cpu, dx, bx, sp, bp, si, di, hi⟩, fl, df, m⟩ (di.setWidth 32))
      ⟨position .setprilev, ⟨⟨ax, cpu, dx, bx, sp, bp, si, di, hi⟩, fl, df, m⟩⟩ := by
  subst hpatched
  have hat : At (code sym true installed) (position .setprilev) (setprilev sym true) := ⟨_, rfl⟩
  have hat' : At (code sym true installed) (position .slowSpl) (slowSpl sym) := ⟨_, rfl⟩
  obtain ⟨f, hf, hans⟩ := hsetspl
  apply comes_block hext hat
  simp [setprilev, loadPriData, SETIPL_NOGS, places sym cpu sp own]
  apply comes_block hext hat'
  simp [slowSpl, merge_quad, places sym cpu sp own, load_place (place _ _ _ _), word_store_other hspread]
  generalize hM : store _ (place sym cpu sp own 64 .call) _ = M
  have hcall : word (place sym cpu sp own) M .call = 89#64 := by
    rw [← hM]
    apply word_store_self <;> norm_num
  have hframe : word (place sym cpu sp own) M .frame = bp := by
    simp [← hM, word_store_other hspread, word_store_self]
  have hold : word (place sym cpu sp own) M .old = ax := by
    simp [← hM, word_store_other hspread, word_store_self]
  have hpri : word (place sym cpu sp own) M .pri = di.setWidth 32 := by
    simp [← hM, word_store_other hspread, word_store_self]
  have hrest (n : Nat) (k : Cell X n) (hb : k.below = false) (hp : k.isPri = false) :
      word (place sym cpu sp own) M k = word (place sym cpu sp own) m k := by
    rw [← hM, word_store_other hspread (ne_of_kind (@Cell.below X) true rfl hb),
      word_store_other hspread (ne_of_kind (@Cell.below X) true rfl hb),
      word_store_other hspread (ne_of_kind (@Cell.below X) true rfl hb),
      word_store_other hspread (ne_of_kind (@Cell.below X) true rfl hb),
      word_store_other hspread (ne_of_kind (@Cell.isPri X) true rfl hp)]
  clear hM
  apply comes_extern hf
  generalize hu : (⟨_, _, _, M⟩ : State 64) = u
  obtain ⟨hkeeps, hwords⟩ := hans u (by rw [← hu]; rfl)
  have hback : (u.pop 0).1.toNat = 89 := by
    rw [← hu]
    exact congrArg BitVec.toNat hcall
  rw [hback]
  generalize f u = t at hkeeps hwords
  subst hu
  obtain ⟨⟨ax', cx', dx', bx', sp', bp', si', di', hi'⟩, fl', df', m'⟩ := t
  obtain ⟨hsp, hbx, hbp, h12, h13, h14, h15⟩ := hkeeps
  have hslot : place sym cpu sp own 64 .call + 8#64 = place sym cpu sp own 64 .new := by
    rw [place, place]
    bv_omega
  obtain rfl : sp' = place sym cpu sp own 64 .new := hsp.trans hslot
  obtain rfl : bp' = place sym cpu sp own 64 .frame := hbp
  have hat'' : At (code sym true installed) 89 (slowSoftints sym) := ⟨_, rfl⟩
  have hself' : word (place sym cpu sp own) m' .self = cpu :=
    (hwords 64 .self rfl).trans ((hrest 64 .self rfl rfl).trans hself)
  have hsoft' : word (place sym cpu sp own) m' .softinfo = 0#32 :=
    (hwords 32 .softinfo rfl).trans ((hrest 32 .softinfo rfl rfl).trans hsoft)
  apply comes_block hext hat''
  simp [slowSoftints, LOADCPU, merge_long, places sym cpu sp own, load_place (place _ _ _ _), hself', hsoft']
  apply comes_slowSetsplsti hext
  constructor
  · rw [hwords 64 .ret rfl, hrest 64 .ret rfl rfl]
  · constructor
    · rfl
    · exact hbx
    · exact (hwords 64 .frame rfl).trans hframe
    · exact h12
    · exact h13
    · exact h14
    · exact h15
  · rw [hwords 64 .old rfl, hold, hax]
  · exact (hwords 32 .pri rfl).trans hpri
  · intro n k hb hp
    exact (hwords n k (Cell.isCall_of_below hb)).trans (hrest n k hb hp)

end Blocks

/-- The routines can be entered: no soft interrupt is pending, and `setspl` is
a routine outside of the text. -/
structure Ready (sym : Symbols) (patched installed : Bool) (ext : Nat → Option (State 64 → State 64)) (cpu : BitVec 64)
    (own : ∀ n, X n → BitVec 64) (sp : BitVec 64) (m : Mem 64) : Prop where
  inside : ∀ i < (code sym patched installed).length, ext i = none
  spread : Spread (place sym cpu sp own)
  self : word (place sym cpu sp own) m .self = cpu
  soft : word (place sym cpu sp own) m .softinfo = 0#32
  setspl : Outer sym cpu sp own ext (word (place sym cpu sp own) m .setspl)
  base : (word (place sym cpu sp own) m .baseSpl).toNat ≤ 15

section Routines

variable (h : Ready sym patched installed ext cpu own sp m)

include h

theorem comes_setprilev {level : BitVec 32} (hax : ax.setWidth 32 = word (place sym cpu sp own) m .pri)
    (hdi : di.setWidth 32 = level) (hlevel : level.toNat ≤ 15) :
    Comes (code sym patched installed) ext
      (Returned sym cpu own ⟨⟨ax, cpu, dx, bx, sp, bp, si, di, hi⟩, fl, df, m⟩ level)
      ⟨position .setprilev, ⟨⟨ax, cpu, dx, bx, sp, bp, si, di, hi⟩, fl, df, m⟩⟩ := by
  subst hdi
  cases hp : patched with
  | false =>
      rw [hp] at h
      exact comes_setprilev_fast h.inside h.spread hax rfl h.soft (by rw [toInt_eq hlevel]; omega)
  | true =>
      rw [hp] at h
      exact comes_setprilev_slow h.inside h.spread hax rfl h.soft h.self h.setspl

theorem comes_spl {level : BitVec 32} (hdi : di.setWidth 32 = level) (hlevel : level.toNat ≤ 15) :
    Comes (code sym patched installed) ext
      (Returned sym cpu own ⟨⟨ax, cpu, dx, bx, sp, bp, si, di, hi⟩, fl, df, m⟩
        (newIpl (word (place sym cpu sp own) m .baseSpl) level))
      ⟨position .spl, ⟨⟨ax, cpu, dx, bx, sp, bp, si, di, hi⟩, fl, df, m⟩⟩ := by
  have hat : At (code sym patched installed) (position .spl) (spl sym) := ⟨_, rfl⟩
  have habove := difference_a level (word (place sym cpu sp own) m .baseSpl)
  have hold : ((word (place sym cpu sp own) m .pri).setWidth 64).setWidth 32 = word (place sym cpu sp own) m .pri := by
    simp
  apply comes_block h.inside hat
  simp [spl, GETIPL_NOGS, merge_long, places sym cpu sp own, load_place (place _ _ _ _), hdi]
  by_cases hbase : level.toNat < (word (place sym cpu sp own) m .baseSpl).toNat
  · have hat' : At (code sym patched installed) (position .setToBaseSpl) (setToBaseSpl sym) := ⟨_, rfl⟩
    have hnew : ((word (place sym cpu sp own) m .baseSpl).setWidth 64).setWidth 32 =
        word (place sym cpu sp own) m .baseSpl := by
      simp
    rw [decide_eq_true hbase] at habove
    rw [run_jcc_taken habove, labelAddr_code, newIpl, if_pos hbase]
    refine ⟨_, rfl, comes_block h.inside hat' ?_⟩
    simpa [setToBaseSpl, merge_long, places sym cpu sp own, load_place (place _ _ _ _)] using
      (comes_setprilev h hold hnew h.base).mono (fun _ hq => hq) fun _ hd => hd.of_entry
  · rw [decide_eq_false hbase] at habove
    rw [run_jcc_not habove, newIpl, if_neg hbase]
    exact ⟨_, rfl, (comes_setprilev h hold hdi hlevel).mono (fun _ hq => hq) fun _ hd => hd.of_entry⟩

theorem comes_SETPRI {ip : Nat} {l : Label} {level : Int}
    (hat : At (code sym patched installed) ip (.label l :: SETPRI sym level))
    (hlevel : (BitVec.ofInt 32 level).toNat ≤ 15) :
    Comes (code sym patched installed) ext
      (Returned sym cpu own ⟨⟨ax, cx, dx, bx, sp, bp, si, di, hi⟩, fl, df, m⟩
        (newIpl (word (place sym cpu sp own) m .baseSpl) (BitVec.ofInt 32 level)))
      ⟨ip, ⟨⟨ax, cx, dx, bx, sp, bp, si, di, hi⟩, fl, df, m⟩⟩ := by
  have hdi : ((BitVec.ofInt 32 level).setWidth 64).setWidth 32 = BitVec.ofInt 32 level := by simp
  apply comes_block h.inside hat
  simpa [SETPRI, LOADCPU, merge_long, places sym cpu sp own, load_place (place _ _ _ _), h.self] using
    (comes_spl h hdi hlevel).mono (fun _ hq => hq) fun _ hd => hd.of_entry

theorem comes_splx {level : BitVec 32} (hdi : di.setWidth 32 = level) (hlevel : level.toNat ≤ 15) :
    Comes (code sym patched installed) ext
      (Returned sym cpu own ⟨⟨ax, cx, dx, bx, sp, bp, si, di, hi⟩, fl, df, m⟩
        (newIpl (word (place sym cpu sp own) m .baseSpl) level))
      ⟨position .splx, ⟨⟨ax, cx, dx, bx, sp, bp, si, di, hi⟩, fl, df, m⟩⟩ := by
  have hat : At (code sym patched installed) (position .splx) (splx sym) := ⟨_, rfl⟩
  apply comes_block h.inside hat
  simp [splx, LOADCPU, merge_long, places sym cpu sp own, load_place (place _ _ _ _), h.self]
  exact (comes_spl h hdi hlevel).mono (fun _ hq => hq) fun _ hd => hd.of_entry

theorem returned_same {l : Label} {ip : Nat} (hax : ax.setWidth 32 = word (place sym cpu sp own) m .pri)
    (hat : At (code sym patched installed) ip [.label l, patchPoint installed, .ret 0]) :
    Comes (code sym patched installed) ext
      (Returned sym cpu own ⟨⟨ax, cx, dx, bx, sp, bp, si, di, hi⟩, fl, df, m⟩ (word (place sym cpu sp own) m .pri))
      ⟨ip, ⟨⟨ax, cx, dx, bx, sp, bp, si, di, hi⟩, fl, df, m⟩⟩ := by
  apply comes_sti h.inside hat
  exact ⟨rfl, ⟨rfl, rfl, rfl, rfl, rfl, rfl, rfl⟩, hax, rfl, fun _ _ _ _ => rfl⟩

theorem comes_RAISE {ip : Nat} {l : Label} {level : Int}
    (hat : At (code sym patched installed) ip (.label l :: RAISE sym level))
    (hlevel : (BitVec.ofInt 32 level).toNat ≤ 15) :
    Comes (code sym patched installed) ext
      (Returned sym cpu own ⟨⟨ax, cx, dx, bx, sp, bp, si, di, hi⟩, fl, df, m⟩
        (raised (word (place sym cpu sp own) m .baseSpl) (word (place sym cpu sp own) m .pri) (BitVec.ofInt 32 level)))
      ⟨ip, ⟨⟨ax, cx, dx, bx, sp, bp, si, di, hi⟩, fl, df, m⟩⟩ := by
  have hdi : ((BitVec.ofInt 32 level).setWidth 64).setWidth 32 = BitVec.ofInt 32 level := by simp
  have hold : ((word (place sym cpu sp own) m .pri).setWidth 64).setWidth 32 = word (place sym cpu sp own) m .pri := by
    simp
  have hgt := difference_g (word (place sym cpu sp own) m .pri) (BitVec.ofInt 32 level)
  apply comes_block h.inside hat
  simp [RAISE, LOADCPU, GETIPL_NOGS, merge_long, places sym cpu sp own, load_place (place _ _ _ _), h.self]
  by_cases hraise : (word (place sym cpu sp own) m .pri).toInt < (BitVec.ofInt 32 level).toInt
  · rw [decide_eq_true hraise] at hgt
    rw [run_jcc_taken hgt, raised, if_pos hraise]
    refine ⟨_, rfl, ?_⟩
    rw [labelAddr_code]
    exact (comes_spl h hdi hlevel).mono (fun _ hq => hq) fun _ hd => hd.of_entry
  · have hat' : At (code sym patched installed) (position .setsplhisti) (setsplhisti installed) := ⟨_, rfl⟩
    rw [decide_eq_false hraise] at hgt
    rw [run_jcc_not hgt, raised, if_neg hraise]
    simpa using (returned_same h hold hat').mono (fun _ hq => hq) fun _ hd => hd.of_entry

theorem comes_splr {level : BitVec 32} (hdi : di.setWidth 32 = level) (hlevel : level.toNat ≤ 15) :
    Comes (code sym patched installed) ext
      (Returned sym cpu own ⟨⟨ax, cx, dx, bx, sp, bp, si, di, hi⟩, fl, df, m⟩
        (raised (word (place sym cpu sp own) m .baseSpl) (word (place sym cpu sp own) m .pri) level))
      ⟨position .splr, ⟨⟨ax, cx, dx, bx, sp, bp, si, di, hi⟩, fl, df, m⟩⟩ := by
  have hat : At (code sym patched installed) (position .splr) ((splr sym installed).take 6) := ⟨_, rfl⟩
  have hold : ((word (place sym cpu sp own) m .pri).setWidth 64).setWidth 32 = word (place sym cpu sp own) m .pri := by
    simp
  have hgt := difference_g (word (place sym cpu sp own) m .pri) level
  apply comes_block h.inside hat
  simp [splr, LOADCPU, GETIPL_NOGS, merge_long, places sym cpu sp own, load_place (place _ _ _ _), h.self, hdi]
  by_cases hraise : (word (place sym cpu sp own) m .pri).toInt < level.toInt
  · rw [decide_eq_true hraise] at hgt
    rw [run_jcc_taken hgt, raised, if_pos hraise]
    refine ⟨_, rfl, ?_⟩
    rw [labelAddr_code]
    exact (comes_spl h hdi hlevel).mono (fun _ hq => hq) fun _ hd => hd.of_entry
  · have hat' : At (code sym patched installed) (position .splrSetsti) ((splr sym installed).drop 6) := ⟨_, rfl⟩
    rw [decide_eq_false hraise] at hgt
    rw [run_jcc_not hgt, raised, if_neg hraise]
    exact ⟨_, rfl, (returned_same h hold hat').mono (fun _ hq => hq) fun _ hd => hd.of_entry⟩

theorem comes_setsplhi_fast (hpatched : patched = false) (hax : ax.setWidth 32 = word (place sym cpu sp own) m .pri)
    {level : BitVec 32} :
    Comes (code sym patched installed) ext
      (Returned sym cpu own ⟨⟨ax, cpu, dx, bx, sp, bp, si, di, hi⟩, fl, df, m⟩ level)
      ⟨position .setsplhiPatch, ⟨⟨ax, cpu, dx, bx, sp, bp, si, di, hi⟩, fl, df,
        store m (place sym cpu sp own 32 .pri) level⟩⟩ := by
  subst hpatched
  have hat : At (code sym false installed) (position .setsplhiPatch)
      (List.flatten [(splhi sym false).drop 9, setMask]) := ⟨_, rfl⟩
  have hat' : At (code sym false installed) (position .setsplhisti) (setsplhisti installed) := ⟨_, rfl⟩
  have hret : word (place sym cpu sp own) (store m (place sym cpu sp own 32 .pri) level) .ret =
      word (place sym cpu sp own) m .ret := word_store_other h.spread (ne_of_kind (@Cell.isPri X) true rfl rfl)
  have hpri : word (place sym cpu sp own) (store m (place sym cpu sp own 32 .pri) level) .pri = level := by
    apply word_store_self <;> norm_num
  apply comes_block h.inside hat
  simp [splhi, setMask, loadPriData, merge_long]
  apply comes_sti h.inside hat'
  constructor
  · exact congrArg BitVec.toNat hret
  · constructor <;> rfl
  · exact hax
  · exact hpri
  · intro n k _ hk
    exact word_store_other h.spread (ne_of_kind (@Cell.isPri X) true rfl hk)

theorem comes_setsplhi_slow (hpatched : patched = true) (hax : ax.setWidth 32 = word (place sym cpu sp own) m .pri)
    {level : BitVec 32} :
    Comes (code sym patched installed) ext
      (Returned sym cpu own ⟨⟨ax, cpu, dx, bx, sp, bp, si, di, hi⟩, fl, df, m⟩ level)
      ⟨position .setsplhiPatch, ⟨⟨ax, cpu, dx, bx, sp, bp, si, di, hi⟩, fl, df,
        store m (place sym cpu sp own 32 .pri) level⟩⟩ := by
  subst hpatched
  have hat : At (code sym true installed) (position .setsplhiPatch) ((splhi sym true).drop 9) := ⟨_, rfl⟩
  have hat' : At (code sym true installed) (position .slowSetsplhi) ((slowSetsplhi sym).take 6) := ⟨_, rfl⟩
  have hslot : place sym cpu sp own 64 .frame - 16#64 = place sym cpu sp own 64 .new := by
    rw [place, place]
    bv_omega
  have hhalf : place sym cpu sp own 64 .frame + 0xfffffffffffffffc#64 = place sym cpu sp own 64 .old + 4#64 := by
    rw [place, place]
    bv_omega
  obtain ⟨f, hf, hans⟩ := h.setspl
  apply comes_block h.inside hat
  simp [splhi, loadPriData]
  apply comes_block h.inside hat'
  simp [slowSetsplhi, merge_quad, places sym cpu sp own, load_place (place _ _ _ _), hslot, hhalf,
    word_store_other h.spread,
    word_store_part h.spread]
  generalize hM : store _ (place sym cpu sp own 64 .call) _ = M
  have hcall : word (place sym cpu sp own) M .call = 40#64 := by
    rw [← hM]
    apply word_store_self <;> norm_num
  have hframe : word (place sym cpu sp own) M .frame = bp := by
    simp [← hM, word_store_other h.spread, word_store_part h.spread, word_store_self]
  have hold : load 32 M (place sym cpu sp own 64 .old + 4#64) = ax.setWidth 32 := by
    rw [load_high, ← hM, load_place (place _ _ _ _), word_store_other h.spread (by simp), word, ← load_high]
    apply load_store_same <;> norm_num
  have hpri : word (place sym cpu sp own) M .pri = level := by
    simp [← hM, word_store_other h.spread, word_store_part h.spread, word_store_self]
  have hrest (n : Nat) (k : Cell X n) (hb : k.below = false) (hp : k.isPri = false) :
      word (place sym cpu sp own) M k = word (place sym cpu sp own) m k := by
    rw [← hM, word_store_other h.spread (ne_of_kind (@Cell.below X) true rfl hb),
      word_store_part h.spread _ (ne_of_kind (@Cell.below X) true rfl hb) (by norm_num) (by norm_num),
      word_store_other h.spread (ne_of_kind (@Cell.below X) true rfl hb),
      word_store_other h.spread (ne_of_kind (@Cell.isPri X) true rfl hp)]
  clear hM
  apply comes_extern hf
  generalize hu : (⟨_, _, _, M⟩ : State 64) = u
  obtain ⟨hkeeps, hwords⟩ := hans u (by rw [← hu]; rfl)
  have hback : (u.pop 0).1.toNat = 40 := by
    rw [← hu]
    exact congrArg BitVec.toNat hcall
  rw [hback]
  generalize f u = t at hkeeps hwords
  subst hu
  obtain ⟨⟨ax', cx', dx', bx', sp', bp', si', di', hi'⟩, fl', df', m'⟩ := t
  obtain ⟨hsp, hbx, hbp, h12, h13, h14, h15⟩ := hkeeps
  obtain rfl : bp' = place sym cpu sp own 64 .frame := hbp
  have hback' : At (code sym true installed) 40 ((slowSetsplhi sym).drop 6) := ⟨_, rfl⟩
  have hsti : At (code sym true installed) (position .setsplhisti) (setsplhisti installed) := ⟨_, rfl⟩
  have htop : place sym cpu sp own 64 .frame + 8#64 = sp := by
    rw [place]
    bv_omega
  have hold' : load 32 m' (place sym cpu sp own 64 .old + 4#64) = ax.setWidth 32 := by
    rw [← hold, load_high, load_high]
    exact congrArg (high (n := 32)) (hwords 64 .old rfl)
  apply comes_block h.inside hback'
  simp [slowSetsplhi, merge_long, hhalf, htop, hold', load_place (place _ _ _ _)]
  apply comes_sti h.inside hsti
  constructor
  · exact congrArg BitVec.toNat ((hwords 64 .ret rfl).trans (hrest 64 .ret rfl rfl))
  · constructor
    · rfl
    · exact hbx
    · exact (hwords 64 .frame rfl).trans hframe
    · exact h12
    · exact h13
    · exact h14
    · exact h15
  · rw [← hax]
    simp
  · exact (hwords 32 .pri rfl).trans hpri
  · intro n k hb hp
    exact (hwords n k (Cell.isCall_of_below hb)).trans (hrest n k hb hp)

theorem comes_splhi {level : BitVec 32} (hlevel : BitVec.ofInt 32 sym.dispLevel = level) :
    Comes (code sym patched installed) ext
      (Returned sym cpu own ⟨⟨ax, cx, dx, bx, sp, bp, si, di, hi⟩, fl, df, m⟩
        (higher (word (place sym cpu sp own) m .pri) level))
      ⟨position .splhi, ⟨⟨ax, cx, dx, bx, sp, bp, si, di, hi⟩, fl, df, m⟩⟩ := by
  have hat : At (code sym patched installed) (position .splhi) (((splhi sym patched).drop 1).take 8) := ⟨_, rfl⟩
  have hold : ((word (place sym cpu sp own) m .pri).setWidth 64).setWidth 32 = word (place sym cpu sp own) m .pri := by
    simp
  have hle := difference_le (word (place sym cpu sp own) m .pri) level
  apply comes_block h.inside hat
  simp [splhi, LOADCPU, SETIPL_NOGS, merge_long, places sym cpu sp own, load_place (place _ _ _ _), h.self, hlevel]
  by_cases hraise : (word (place sym cpu sp own) m .pri).toInt < level.toInt
  · rw [decide_eq_false (not_le.mpr hraise)] at hle
    rw [run_jcc_not hle, higher, if_pos hraise]
    simp [places sym cpu sp own]
    cases hp : patched with
    | false =>
        rw [hp] at h
        exact (comes_setsplhi_fast h rfl hold).mono (fun _ hq => hq) fun _ hd => hd.of_entry
    | true =>
        rw [hp] at h
        exact (comes_setsplhi_slow h rfl hold).mono (fun _ hq => hq) fun _ hd => hd.of_entry
  · have hsti : At (code sym patched installed) (position .setsplhisti) (setsplhisti installed) := ⟨_, rfl⟩
    rw [decide_eq_true (not_lt.mp hraise)] at hle
    rw [run_jcc_taken hle, higher, if_neg hraise, labelAddr_code]
    exact ⟨_, rfl, (returned_same h hold hsti).mono (fun _ hq => hq) fun _ hd => hd.of_entry⟩

end Routines

def label : Entry → Label
  | .spl0 => .spl0
  | .splzs => .splzs
  | .spl8 => .spl8
  | .splx => .splx
  | .spl7 => .spl7
  | .splhi => .splhi
  | .splr => .splr

theorem comes_routine {q : Request} (h : Ready sym patched installed ext cpu own s.regs.sp s.mem)
    (hdisp : sym.dispLevel = DISP_LEVEL) (harg : q.entry.takesArg = true → s.regs.di.setWidth 32 = q.arg)
    (hlevel : q.level.toNat ≤ 15) :
    Comes (code sym patched installed) ext
      (Returned sym cpu own s (q.sets (word (place sym cpu s.regs.sp own) s.mem .baseSpl)
        (word (place sym cpu s.regs.sp own) s.mem .pri)))
      ⟨position (label q.entry), s⟩ := by
  obtain ⟨⟨ax, cx, dx, bx, sp, bp, si, di, hi⟩, fl, df, m⟩ := s
  obtain ⟨entry, arg⟩ := q
  cases entry with
  | spl0 =>
      have hat : At (code sym patched installed) (position .spl0) (.label .spl0 :: SETPRI sym 0) := ⟨_, rfl⟩
      exact comes_SETPRI h hat hlevel
  | splzs =>
      have hat : At (code sym patched installed) (position .splzs) (.label .splzs :: SETPRI sym 12) := ⟨_, rfl⟩
      exact comes_SETPRI h hat hlevel
  | spl8 =>
      have hat : At (code sym patched installed) (position .spl8) (.label .spl8 :: SETPRI sym 15) := ⟨_, rfl⟩
      exact comes_SETPRI h hat hlevel
  | splx => exact comes_splx h (harg rfl) hlevel
  | spl7 =>
      have hat : At (code sym patched installed) (position .spl7) (.label .spl7 :: RAISE sym 13) := ⟨_, rfl⟩
      exact comes_RAISE h hat hlevel
  | splhi =>
      have hlevel : BitVec.ofInt 32 sym.dispLevel = BitVec.ofInt 32 DISP_LEVEL := by rw [hdisp]
      exact comes_splhi h hlevel
  | splr => exact comes_splr h (harg rfl) hlevel

/-- A call of a routine, with the caller neither here nor there. -/
structure Entered (sym : Symbols) (patched installed : Bool) (ext : Nat → Option (State 64 → State 64)) (cpu : BitVec 64)
    (q : Request) (s : State 64) : Prop where
  inside : ∀ i < (code sym patched installed).length, ext i = none
  spread : Spread (place sym cpu s.regs.sp (fun _ => Empty.elim))
  self : word (place sym cpu s.regs.sp (fun _ => Empty.elim)) s.mem .self = cpu
  setspl : Outer sym cpu s.regs.sp (fun _ => Empty.elim) ext
    (word (place sym cpu s.regs.sp (fun _ => Empty.elim)) s.mem .setspl)
  disp : sym.dispLevel = DISP_LEVEL
  arg : q.entry.takesArg = true → s.regs.di.setWidth 32 = q.arg
  caller : Halted (code sym patched installed) ext
    (word (place sym cpu s.regs.sp (fun _ => Empty.elim)) s.mem .ret).toNat

def service (sym : Symbols) (patched installed : Bool) (ext : Nat → Option (State 64 → State 64)) (cpu : BitVec 64) :
    Service (State 64) where
  pri s := load 32 s.mem (cpu + BitVec.ofInt 64 sym.cpuPri)
  base s := load 32 s.mem (cpu + BitVec.ofInt 64 sym.cpuBaseSpl)
  pending s := load 32 s.mem (cpu + BitVec.ofInt 64 sym.cpuSoftinfo)
  Entered := Entered sym patched installed ext cpu
  Returns q s x t := ∃ d : Cfg 64,
    ReflTransGen (StepsWith (code sym patched installed) ext)
      ⟨labelAddr (code sym patched installed) (label q.entry), s⟩ d ∧
    (∀ c, ¬ StepsWith (code sym patched installed) ext d c) ∧ d.state = t ∧ t.regs.ax.setWidth 32 = x

theorem lawful_service : (service sym patched installed ext cpu).Lawful := by
  have hcomes (q : Request) (s : State 64) (h : Entered sym patched installed ext cpu q s)
      (hs : (service sym patched installed ext cpu).Good s) (hlevel : q.level.toNat ≤ 15) :=
    comes_routine ⟨h.inside, h.spread, h.self, hs.idle, h.setspl, hs.base_le.trans hs.pri_le⟩ h.disp h.arg hlevel
  have hstop {q : Request} {s : State 64} {p : BitVec 32} (h : Entered sym patched installed ext cpu q s) (c d : Cfg 64)
      (hc : Returned sym cpu (fun _ => Empty.elim) s p c) : ¬ StepsWith (code sym patched installed) ext c d := by
    apply Halted.not_steps
    rw [hc.ip]
    exact h.caller
  constructor
  · intro q s h hs hlevel
    obtain ⟨d, hd, hret⟩ := (hcomes q s h hs hlevel).exists_end
    have hlabel : labelAddr (code sym patched installed) (label q.entry) = position (label q.entry) := labelAddr_code _
    rw [← hlabel] at hd
    exact ⟨_, _, d, hd, fun c => hstop h d c hret, rfl, rfl⟩
  · rintro q s x t h hs hlevel ⟨d, hd, hend, rfl, rfl⟩
    rw [labelAddr_code] at hd
    have hret := (hcomes q s h hs hlevel).ends (hstop h) hd hend
    refine ⟨hret.ax, ?_, hret.words 32 .baseSpl rfl rfl, hret.words 32 .softinfo rfl rfl⟩
    rw [← Request.toNat_sets hs.base_le hs.pri_le hlevel]
    exact congrArg BitVec.toNat hret.pri

section Install

inductive Patch : Nat → Type
  | setsplsti : Patch 8
  | slowSetsplsti : Patch 8
  | setsplhisti : Patch 8
  | splrSetsti : Patch 8
  | setsplhiPatch : Patch 16
  | splPatch : Patch 16
  | useCr8 : Patch 32
  | ret : Patch 64

def patchPlace (sym : Symbols) (sp : BitVec 64) : ∀ n, Patch n → BitVec 64
  | _, .setsplsti => BitVec.ofInt 64 sym.setsplsti
  | _, .slowSetsplsti => BitVec.ofInt 64 sym.slowSetsplsti
  | _, .setsplhisti => BitVec.ofInt 64 sym.setsplhisti
  | _, .splrSetsti => BitVec.ofInt 64 sym.splrSetsti
  | _, .setsplhiPatch => BitVec.ofInt 64 sym.setsplhiPatch
  | _, .splPatch => BitVec.ofInt 64 sym.splPatch
  | _, .useCr8 => BitVec.ofInt 64 sym.intpriUseCr8
  | _, .ret => sp

theorem patchPlaces (sym : Symbols) (sp : BitVec 64) :
    BitVec.ofInt 64 sym.setsplsti = patchPlace sym sp 8 .setsplsti ∧
    BitVec.ofInt 64 sym.slowSetsplsti = patchPlace sym sp 8 .slowSetsplsti ∧
    BitVec.ofInt 64 sym.setsplhisti = patchPlace sym sp 8 .setsplhisti ∧
    BitVec.ofInt 64 sym.splrSetsti = patchPlace sym sp 8 .splrSetsti ∧
    BitVec.ofInt 64 sym.setsplhiPatch = patchPlace sym sp 16 .setsplhiPatch ∧
    BitVec.ofInt 64 sym.splPatch = patchPlace sym sp 16 .splPatch ∧
    BitVec.ofInt 64 sym.intpriUseCr8 = patchPlace sym sp 32 .useCr8 := ⟨rfl, rfl, rfl, rfl, rfl, rfl, rfl⟩

/-- The two bytes of a jump: the code, and the distance from behind them. -/
def shortJump (patch target : BitVec 64) : BitVec 16 := ((target - patch - 2#64).setWidth 8) ++ 0xeb#8

def jumpTarget (patch : BitVec 64) (v : BitVec 16) : BitVec 64 := patch + 2#64 + (v.extractLsb' 8 8).signExtend 64

theorem jumpTarget_shortJump {patch target : BitVec 64} (hlo : -128 ≤ (target - patch - 2#64).toInt)
    (hhi : (target - patch - 2#64).toInt < 128) : jumpTarget patch (shortJump patch target) = target := by
  generalize hd : target - patch - 2#64 = d at *
  have hext : (d.setWidth 8).signExtend 64 = d := by
    apply BitVec.eq_of_toInt_eq
    have hcond := BitVec.toInt_eq_toNat_cond d
    rw [BitVec.toInt_signExtend_of_le (by decide), BitVec.toInt_setWidth, Int.bmod_def]
    split at hcond <;> split <;> omega
  have hbyte : (shortJump patch target).extractLsb' 8 8 = d.setWidth 8 := by
    rw [shortJump, hd]
    exact high_pair (n := 8) _ _
  rw [jumpTarget, hbyte, hext, ← hd]
  ring

/-- The two bytes jump to the target, if it is near enough. -/
def Jumps (patch target : BitVec 64) (v : BitVec 16) : Prop :=
  v = shortJump patch target ∧
    (-128 ≤ (target - patch - 2#64).toInt → (target - patch - 2#64).toInt < 128 → jumpTarget patch v = target)

theorem Jumps.of_eq {patch target : BitVec 64} {v : BitVec 16} (h : v = shortJump patch target) : Jumps patch target v :=
  ⟨h, fun hlo hhi => h ▸ jumpTarget_shortJump hlo hhi⟩

theorem patchJump_eq (patch target : BitVec 64) :
    (sum (BitVec.ofInt 64 JMP_INSTR) (Shift.eval .shl 8 ((difference patch target false).1 - 2#64)).1 false).1.setWidth 16 =
      shortJump patch target := by
  rw [sum_val, shl_val, difference_val, shortJump]
  symm
  apply Word.pair_eq
  simp only [BitVec.toNat_setWidth, BitVec.toNat_add, BitVec.toNat_shiftLeft, BitVec.toNat_ofNat]
  have hjmp : (BitVec.ofInt 64 JMP_INSTR).toNat = 235 := rfl
  omega

/-- `install_spl` writes `sti` over four bytes of the code and, on a machine that
does not use `%cr8`, a jump to the slow path over the start of each fast one. -/
theorem install_spl_patches (hext : ∀ i < (code sym false false).length, ext i = none)
    (hspread : Spread (patchPlace sym s.regs.sp)) :
    Comes (code sym false false) ext
      (fun d => d.ip = (word (patchPlace sym s.regs.sp) s.mem .ret).toNat ∧ Keeps64 s d.state ∧
        d.state.regs.hi.cr0 = s.regs.hi.cr0 ∧
        (∀ k : Patch 8, word (patchPlace sym s.regs.sp) d.state.mem k = STI_INSTR) ∧
        if word (patchPlace sym s.regs.sp) s.mem .useCr8 &&& 1#32 = 0#32 then
          Jumps (BitVec.ofInt 64 sym.setsplhiPatch) (BitVec.ofInt 64 sym.slowSetsplhi)
            (word (patchPlace sym s.regs.sp) d.state.mem .setsplhiPatch) ∧
          Jumps (BitVec.ofInt 64 sym.splPatch) (BitVec.ofInt 64 sym.slowSpl)
            (word (patchPlace sym s.regs.sp) d.state.mem .splPatch)
        else ∀ k : Patch 16, word (patchPlace sym s.regs.sp) d.state.mem k = word (patchPlace sym s.regs.sp) s.mem k)
      ⟨position .installSpl, s⟩ := by
  obtain ⟨⟨ax, cx, dx, bx, sp, bp, si, di, hi⟩, fl, df, m⟩ := s
  have hat : At (code sym false false) (position .installSpl) ((installSpl sym).take 8) := ⟨_, rfl⟩
  have hat' : At (code sym false false) (position .one) (((installSpl sym).drop 8).take 7) := ⟨_, rfl⟩
  apply comes_block hext hat
  simp [installSpl, merge_long]
  apply comes_block hext hat'
  simp [installSpl, patchPlaces sym sp, load_place (patchPlace _ _), word_store_other hspread]
  by_cases hcr8 : word (patchPlace sym sp) m .useCr8 &&& 1#32 = 0#32
  · have htwo : At (code sym false false) (position .two) ((installSpl sym).drop 17) := ⟨_, rfl⟩
    rw [run_jcc_taken (by simp [hcr8]), labelAddr_code]
    refine ⟨_, rfl, comes_block hext htwo ?_⟩
    simp [installSpl, patchJump, merge_long, patchPlaces sym sp]
    rw [patchJump_eq, patchJump_eq]
    refine .here ⟨?_, ⟨rfl, rfl, rfl, rfl, rfl, rfl, rfl⟩, rfl, fun k => ?_, ?_⟩
    · change (word (patchPlace sym sp) _ .ret).toNat = _
      simp [word_store_other hspread]
    · cases k <;> simp [word_store_other hspread, word_store_self]
    · rw [if_pos hcr8]
      constructor <;> apply Jumps.of_eq <;> simp [word_store_other hspread, word_store_self]
  · have hret : At (code sym false false) 121 (((installSpl sym).drop 15).take 2) := ⟨_, rfl⟩
    rw [run_jcc_not (by simp [hcr8])]
    refine ⟨_, rfl, comes_block hext hret ?_⟩
    simp [installSpl]
    refine .here ⟨?_, ⟨rfl, rfl, rfl, rfl, rfl, rfl, rfl⟩, rfl, fun k => ?_, ?_⟩
    · change (word (patchPlace sym sp) _ .ret).toNat = _
      simp [word_store_other hspread]
    · cases k <;> simp [word_store_other hspread, word_store_self]
    · rw [if_neg hcr8]
      intro k
      cases k <;> simp [word_store_other hspread]

def patchSymbols : Symbols := ⟨0, 0, 4096, 16, 17, 18, 19, 32, 64, 48, 80, 0, 0, 0, 0, 0⟩

def patchState : State 64 := ⟨⟨0#64, 0#64, 0#64, 0#64, 65536#64, 0#64, 0#64, 0#64, .zero⟩, undefinedFlags, false, fun _ => 0#8⟩

theorem install_spl_patches_jump : Comes (code patchSymbols false false) (fun _ => none)
    (fun d => jumpTarget 48#64 (load 16 d.state.mem 48#64) = 80#64) ⟨position .installSpl, patchState⟩ := by
  have hspread : Spread (patchPlace patchSymbols 65536#64) := by
    intro n k i j hij
    cases i <;> cases j <;> first | exact absurd rfl hij | decide
  refine (install_spl_patches (s := patchState) (fun _ _ => rfl) hspread).mono (fun _ _ => trivial) fun d h => ?_
  obtain ⟨-, -, -, -, hpatch⟩ := h
  have hcr8 : word (patchPlace patchSymbols patchState.regs.sp) patchState.mem .useCr8 &&& 1#32 = 0#32 := by decide
  rw [if_pos hcr8] at hpatch
  exact hpatch.2.2 (by decide) (by decide)

end Install

end SysvDev.Subr.SplAmd64
