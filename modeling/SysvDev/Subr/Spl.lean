import SysvDev.X86.Cells

namespace SysvDev.Subr.Spl

open Function Relation X86.Memory X86.Machine X86.Machine.Att X86.Run X86.Cells Inevitable

structure Symbols where
  cpuSelf : Int
  setspl : Int
  setsplsti : Int
  setsplhisti : Int
  splrSetsti : Int
  cpuPri : Int
  cpuBaseSpl : Int
  cpuSoftinfo : Int
  dispLevel : Int

inductive Label
  | spl8 | spl7 | splzs | splhi | setsplhisti | spl0 | splr | splrSetsti | splx | spl | setprilev | fakesoftintReturn
  | setsplsti | setToBaseSpl | installSpl | one | fakesoftint
  deriving DecidableEq

def NOP_INSTR : BitVec 8 := 0x90

def STI_INSTR : BitVec 8 := 0xfb

def CR0_WP : Int := 0x10000

section Text

variable (sym : Symbols) (installed : Bool)

def LOADCPU : Line Label := movl (var sym.cpuSelf) ecx

def GETIPL_NOGS : Line Label := movl (ind sym.cpuPri .cx) eax

def SETIPL_NOGS : Line Label := movl edx (ind sym.cpuPri .cx)

def RAISE (level : Int) : List (Line Label) :=
  [ .op .cli,
    LOADCPU sym,
    movl (.imm level) edx,
    GETIPL_NOGS sym,
    cmpl eax edx,
    jg .spl,
    .jmp .setsplhisti ]

def SETPRI (level : Int) : List (Line Label) :=
  [ .op .cli,
    LOADCPU sym,
    movl (.imm level) edx,
    .jmp .spl ]

def patchPoint : Line Label := .op (if installed then .sti else .nop)

def splhi : List (Line Label) :=
  [ .align 16,
    .label .splhi,
    .op .cli,
    LOADCPU sym,
    movl (.imm sym.dispLevel) edx,
    movl (ind sym.cpuPri .cx) eax,
    cmpl eax edx,
    jle .setsplhisti,
    SETIPL_NOGS sym,
    pushl eax,
    pushl edx,
    .callInd (.abs sym.setspl),
    popl .cx,
    popl .ax,
    .label .setsplhisti,
    patchPoint installed,
    .ret 0 ]

def splr : List (Line Label) :=
  [ .label .splr,
    .op .cli,
    LOADCPU sym,
    movl (ind 4 .sp) edx,
    GETIPL_NOGS sym,
    cmpl eax edx,
    jg .spl,
    .label .splrSetsti,
    patchPoint installed,
    .ret 0 ]

def splx : List (Line Label) :=
  [ .label .splx,
    .op .cli,
    LOADCPU sym,
    movl (ind 4 .sp) edx,
    .align 4 ]

def spl : List (Line Label) :=
  [ .label .spl,
    GETIPL_NOGS sym,
    cmpl edx (ind sym.cpuBaseSpl .cx),
    ja .setToBaseSpl ]

def setprilev : List (Line Label) :=
  [ .label .setprilev,
    SETIPL_NOGS sym,
    pushl eax,
    pushl edx,
    .callInd (.abs sym.setspl) ]

/-- Before dashing off, check that `setsplsti` has been patched. -/
def softints : List (Line Label) :=
  [ LOADCPU sym,
    movl (ind sym.cpuSoftinfo .cx) eax,
    orl eax eax,
    jz .setsplsti,
    cmpl (.imm NOP_INSTR.toNat) (var sym.setsplsti),
    je .setsplsti,
    bsrl eax .dx,
    cmpl (ind 0 .sp) edx,
    jg .fakesoftint,
    .label .fakesoftintReturn ]

def setsplsti : List (Line Label) :=
  [ .label .setsplsti,
    patchPoint installed,
    popl .ax,
    popl .ax,
    .ret 0 ]

def setToBaseSpl : List (Line Label) :=
  [ .label .setToBaseSpl,
    movl (ind sym.cpuBaseSpl .cx) edx,
    .jmp .setprilev ]

def installSpl : List (Line Label) :=
  [ .label .installSpl,
    .op (.readCr0 .ax),
    movl eax edx,
    andl (.imm (-(CR0_WP + 1))) eax,
    .op (.writeCr0 .ax),
    .jmp .one,
    .label .one,
    movb (.imm STI_INSTR.toNat) (var sym.setsplsti),
    movb (.imm STI_INSTR.toNat) (var sym.setsplhisti),
    movb (.imm STI_INSTR.toNat) (var sym.splrSetsti),
    .op (.writeCr0 .dx),
    .ret 0 ]

def code : List (Line Label) :=
  List.flatten
    [ .label .spl8 :: SETPRI sym 15,
      .label .spl7 :: RAISE sym 13,
      .label .splzs :: SETPRI sym 12,
      splhi sym installed,
      .label .spl0 :: SETPRI sym 0,
      splr sym installed,
      splx sym,
      spl sym,
      setprilev sym,
      softints sym,
      setsplsti installed,
      setToBaseSpl sym,
      installSpl sym,
      [.label .fakesoftint] ]

def opcode : Line Label → Option (BitVec 8)
  | .op .nop => some NOP_INSTR
  | .op .sti => some STI_INSTR
  | .op (.pop .ax) => some 0x58
  | .ret 0 => some 0xc3
  | _ => none

/-- The number that the bytes of the instructions are, the first one lowest. -/
def encode : List (Line Label) → Option Nat
  | [] => some 0
  | line :: lines => (opcode line).bind fun b => (encode lines).map fun n => b.toNat + 256 * n

/-- The memory has the instructions at `setsplsti` that the text has. -/
def Loaded (m : Mem 32) : Prop :=
  encode (((code sym installed).drop (labelAddr (code sym installed) .setsplsti + 1)).take 4) =
    some (load 32 m (BitVec.ofInt 32 sym.setsplsti)).toNat

end Text

/-- The words that the routines work on: the variables, those of the `struct
cpu`, of the instructions and of the frame. -/
inductive Cell
  | self | setspl | pri | baseSpl | softinfo | setsplsti | setsplhisti | splrSetsti | arg | ret | old | new | call
  deriving DecidableEq

def place (sym : Symbols) (cpu sp : BitVec 32) : Cell → BitVec 32
  | .self => BitVec.ofInt 32 sym.cpuSelf
  | .setspl => BitVec.ofInt 32 sym.setspl
  | .pri => cpu + BitVec.ofInt 32 sym.cpuPri
  | .baseSpl => cpu + BitVec.ofInt 32 sym.cpuBaseSpl
  | .softinfo => cpu + BitVec.ofInt 32 sym.cpuSoftinfo
  | .setsplsti => BitVec.ofInt 32 sym.setsplsti
  | .setsplhisti => BitVec.ofInt 32 sym.setsplhisti
  | .splrSetsti => BitVec.ofInt 32 sym.splrSetsti
  | .arg => sp + 4#32
  | .ret => sp
  | .old => sp - 4#32
  | .new => sp - 8#32
  | .call => sp - 12#32

section Loaded

variable {sym : Symbols} {installed : Bool} {m : Mem 32}

theorem loaded_iff :
    Loaded sym installed m ↔
      (load 32 m (BitVec.ofInt 32 sym.setsplsti)).toNat = if installed then 0xc35858fb else 0xc3585890 := by
  have hlines : ((code sym installed).drop (labelAddr (code sym installed) .setsplsti + 1)).take 4 =
      [patchPoint installed, popl .ax, popl .ax, .ret 0] := rfl
  rw [Loaded, hlines, eq_comm]
  cases installed <;> simp [encode, opcode, patchPoint, NOP_INSTR, STI_INSTR]

/-- The comparison is one of 32 bits, and the three instructions that follow
the patched one are not zeros. -/
theorem Loaded.ne_nop (h : Loaded sym installed m) : load 32 m (BitVec.ofInt 32 sym.setsplsti) ≠ 0x90#32 := by
  intro heq
  rw [loaded_iff, heq] at h
  cases installed <;> exact absurd h (by decide)

end Loaded

section Levels

def newIpl (base level : BitVec 32) : BitVec 32 := if level.toNat < base.toNat then base else level

/-- The highest level that is pending is above the ipl. -/
def Exceeds (pending ipl : BitVec 32) : Prop := pending ≠ 0#32 ∧ ipl.toInt < pending.toNat.log2

instance (pending ipl : BitVec 32) : Decidable (Exceeds pending ipl) := inferInstanceAs (Decidable (_ ∧ _))

theorem toInt_log2 {v : BitVec 32} (h : v ≠ 0#32) : (BitVec.ofNat 32 v.toNat.log2).toInt = v.toNat.log2 := by
  have hne : v.toNat ≠ 0 := fun hzero => h (BitVec.eq_of_toNat_eq hzero)
  have hlt : v.toNat.log2 < 32 := (Nat.log2_lt hne).mpr v.isLt
  rw [BitVec.toInt_eq_toNat_of_lt, BitVec.toNat_ofNat, Nat.mod_eq_of_lt (by omega)]
  rw [BitVec.toNat_ofNat, Nat.mod_eq_of_lt (by omega)]
  omega

end Levels

section Blocks

variable {sym : Symbols} {installed : Bool} {cpu sp : BitVec 32} {ext : Nat → Option (State 32 → State 32)}
  {ax bx cx dx bp si di : BitVec 32} {hi : HighRegs 32} {fl : Flags} {df : Bool} {m : Mem 32} {v : Cell → BitVec 32}

@[simp] theorem run_patchPoint {text : List (Line Label)} {ip : Nat} {s : State 32} {lines : List (Line Label)} :
    run text ip s (patchPoint installed :: lines) = run text (ip + 1) s lines := by
  cases installed <;> exact run_op rfl

theorem places (sym : Symbols) (cpu sp : BitVec 32) :
    BitVec.ofInt 32 sym.cpuSelf = place sym cpu sp .self ∧
    BitVec.ofInt 32 sym.setspl = place sym cpu sp .setspl ∧
    cpu + BitVec.ofInt 32 sym.cpuPri = place sym cpu sp .pri ∧
    cpu + BitVec.ofInt 32 sym.cpuBaseSpl = place sym cpu sp .baseSpl ∧
    cpu + BitVec.ofInt 32 sym.cpuSoftinfo = place sym cpu sp .softinfo ∧
    BitVec.ofInt 32 sym.setsplsti = place sym cpu sp .setsplsti ∧
    BitVec.ofInt 32 sym.setsplhisti = place sym cpu sp .setsplhisti ∧
    BitVec.ofInt 32 sym.splrSetsti = place sym cpu sp .splrSetsti ∧
    sp + 4#32 = place sym cpu sp .arg ∧
    sp - 4#32 = place sym cpu sp .old ∧
    place sym cpu sp .old - 4#32 = place sym cpu sp .new ∧
    place sym cpu sp .new - 4#32 = place sym cpu sp .call := by
  refine ⟨rfl, rfl, rfl, rfl, rfl, rfl, rfl, rfl, rfl, rfl, ?_, ?_⟩
  · rw [place, place]
    bv_omega
  · rw [place, place]
    bv_omega

theorem load_cell (k : Cell) : load 32 m (place sym cpu sp k) = cells (place sym cpu sp) m k := rfl

theorem length_code : (code sym installed).length = 95 := rfl

abbrev Away (sym : Symbols) (installed : Bool) (c : Cfg 32) : Prop :=
  c.ip ≠ labelAddr (code sym installed) .fakesoftint

structure Returned (sp : BitVec 32) (v : Cell → BitVec 32) (d : Cfg 32) : Prop where
  ip : d.ip = (v .ret).toNat
  sp : d.state.regs.sp = sp + 4#32
  ax : d.state.regs.ax = v .pri

def Ends (sym : Symbols) (installed : Bool) (sp : BitVec 32) (v : Cell → BitVec 32) (ipl : BitVec 32) (d : Cfg 32) :
    Prop :=
  if Exceeds (v .softinfo) ipl then d.ip = labelAddr (code sym installed) .fakesoftint else Returned sp v d

variable (hext : ∀ i < (code sym installed).length, ext i = none)

include hext

theorem until_text {ip : Nat} {s : State 32} {P : Cfg 32 → Prop} {lines : List (Line Label)}
    (hat : At (code sym installed) ip lines) (hlt : decide (ip + lines.length ≤ 94) = true)
    (hrun : ∃ d, run (code sym installed) ip s lines = some d ∧
      Until (StepsWith (code sym installed) ext) (Away sym installed) P d) :
    Until (StepsWith (code sym installed) ext) (Away sym installed) P ⟨ip, s⟩ := by
  have hfake : labelAddr (code sym installed) .fakesoftint = 94 := rfl
  refine until_block hext hat (fun i t hi hlt' => ?_) hrun
  have hend := of_decide_eq_true hlt
  have hne : i ≠ 94 := by omega
  rwa [Away, hfake]

theorem until_setsplsti {P : Cfg 32 → Prop} (hret : cells (place sym cpu sp) m .ret = v .ret)
    (hold : cells (place sym cpu sp) m .old = v .pri) (h : ∀ d, Returned sp v d → P d) :
    Until (StepsWith (code sym installed) ext) (Away sym installed) P ⟨labelAddr (code sym installed) .setsplsti,
      ⟨⟨ax, cx, dx, bx, sp - 8#32, bp, si, di, hi⟩, fl, df, m⟩⟩ := by
  have hat : At (code sym installed) (labelAddr (code sym installed) .setsplsti) (setsplsti installed) := ⟨_, rfl⟩
  have hslot : sp - 8#32 + 4#32 = sp - 4#32 := by bv_omega
  apply until_text hext hat rfl
  simp [setsplsti, merge_word, hslot]
  exact .here (h _ ⟨congrArg BitVec.toNat hret, rfl, hold⟩)

theorem until_softints {ipl : BitVec 32} (hself : cells (place sym cpu sp) m .self = cpu) (hloaded : Loaded sym installed m)
    (hret : cells (place sym cpu sp) m .ret = v .ret) (hold : cells (place sym cpu sp) m .old = v .pri)
    (hnew : cells (place sym cpu sp) m .new = ipl) (hsoft : cells (place sym cpu sp) m .softinfo = v .softinfo) :
    Until (StepsWith (code sym installed) ext) (Away sym installed) (Ends sym installed sp v ipl)
      ⟨labelAddr (code sym installed) .setprilev + 5, ⟨⟨ax, cx, dx, bx, sp - 8#32, bp, si, di, hi⟩, fl, df, m⟩⟩ := by
  have hat : At (code sym installed) (labelAddr (code sym installed) .setprilev + 5) (softints sym) := ⟨_, rfl⟩
  have hnop := hloaded.ne_nop
  rw [(places sym cpu sp).2.2.2.2.2.1, load_cell] at hnop
  by_cases hzero : v .softinfo = 0#32
  · have hend (d : Cfg 32) (hd : Returned sp v d) : Ends sym installed sp v ipl d := by
      rw [Ends, if_neg fun h => h.1 hzero]
      exact hd
    apply until_text hext hat rfl
    simpa [softints, LOADCPU, merge_word, places sym cpu sp, load_cell, hself, hsoft, hzero] using
      until_setsplsti hext hret hold hend
  · have hgt := difference_g ipl (BitVec.ofNat 32 (v .softinfo).toNat.log2)
    rw [toInt_log2 hzero] at hgt
    have hnew' : load 32 m (sp - 8#32) = ipl := hnew
    apply until_text hext hat rfl
    simp [softints, LOADCPU, merge_word, places sym cpu sp, load_cell, hself, hsoft, hzero, hnop,
      NOP_INSTR, hnew']
    by_cases hexceeds : ipl.toInt < (v .softinfo).toNat.log2
    · rw [decide_eq_true hexceeds] at hgt
      rw [run_jcc_taken hgt]
      refine ⟨_, rfl, .here ?_⟩
      rw [Ends, if_pos ⟨hzero, hexceeds⟩]
    · have hend (d : Cfg 32) (hd : Returned sp v d) : Ends sym installed sp v ipl d := by
        rw [Ends, if_neg fun h => hexceeds h.2]
        exact hd
      rw [decide_eq_false hexceeds] at hgt
      rw [run_jcc_not hgt]
      exact ⟨_, rfl, until_setsplsti hext hret hold hend⟩

structure Answers (sym : Symbols) (cpu sp : BitVec 32) (s s' : State 32) : Prop where
  stack : s'.regs.sp = s.regs.sp + 4#32
  words : ∀ k, k ≠ .call → cells (place sym cpu sp) s'.mem k = cells (place sym cpu sp) s.mem k

def Outer (sym : Symbols) (cpu sp : BitVec 32) (ext : Nat → Option (State 32 → State 32)) (setspl : BitVec 32) : Prop :=
  ∃ f, ext setspl.toNat = some f ∧ ∀ u : State 32, u.regs.sp = sp - 12#32 → Answers sym cpu sp u (f u)

omit hext in
theorem Loaded.congr {m' : Mem 32} (h : Loaded sym installed m)
    (hm : cells (place sym cpu sp) m' .setsplsti = cells (place sym cpu sp) m .setsplsti) : Loaded sym installed m' := by
  rw [loaded_iff] at h ⊢
  rw [← h]
  exact congrArg BitVec.toNat hm

variable (hspread : Spread (place sym cpu sp)) (hsetspl : Outer sym cpu sp ext (v .setspl)) (hself : v .self = cpu)

include hspread hsetspl hself

theorem until_setprilev {ipl : BitVec 32} (hm : cells (place sym cpu sp) m = v) (hloaded : Loaded sym installed m) :
    Until (StepsWith (code sym installed) ext) (Away sym installed) (Ends sym installed sp v ipl)
      ⟨labelAddr (code sym installed) .setprilev, ⟨⟨v .pri, cpu, ipl, bx, sp, bp, si, di, hi⟩, fl, df, m⟩⟩ := by
  have hat : At (code sym installed) (labelAddr (code sym installed) .setprilev) (setprilev sym) := ⟨_, rfl⟩
  obtain ⟨f, hf, hans⟩ := hsetspl
  apply until_text hext hat rfl
  simp [setprilev, SETIPL_NOGS, places sym cpu sp, load_cell, cells_store hspread, hm]
  have hm' : cells (place sym cpu sp) (store (store (store (store m (place sym cpu sp .pri) ipl) (place sym cpu sp .old)
      (v .pri)) (place sym cpu sp .new) ipl) (place sym cpu sp .call) 64#32) =
      update (update (update (update v .pri ipl) .old (v .pri)) .new ipl) .call 64#32 := by
    simp only [cells_store hspread (by decide : 2 ≤ 32), hm]
  have haway : (v .setspl).toNat ≠ 94 := by
    intro hip
    rw [hip, hext 94 (by rw [length_code]; decide)] at hf
    cases hf
  apply until_extern hf haway
  generalize hu : (⟨_, _, _, store _ (place sym cpu sp .call) _⟩ : State 32) = u
  obtain ⟨hstack, hwords⟩ := hans u (by rw [← hu]; rfl)
  have hmem : cells (place sym cpu sp) u.mem =
      update (update (update (update v .pri ipl) .old (v .pri)) .new ipl) .call 64#32 := by
    rw [← hu]
    exact hm'
  have hback : (u.pop 0).1.toNat = labelAddr (code sym installed) .setprilev + 5 := by
    have hcall := congrFun hmem .call
    rw [← hu] at hcall ⊢
    exact congrArg BitVec.toNat hcall
  have hsp : (f u).regs.sp = sp - 8#32 := by
    have hslot : sp - 12#32 + 4#32 = sp - 8#32 := by bv_omega
    rw [hstack, ← hu]
    exact hslot
  rw [hback]
  rw [hmem] at hwords
  generalize f u = t at hwords hsp
  obtain ⟨⟨ax', cx', dx', bx', sp', bp', si', di', hi'⟩, fl', df', m'⟩ := t
  obtain rfl : sp' = sp - 8#32 := hsp
  have hkept (k : Cell) (hk : k ∉ [Cell.pri, .old, .new, .call]) : cells (place sym cpu sp) m' k = v k := by
    simp only [List.mem_cons, List.not_mem_nil, or_false, not_or] at hk
    obtain ⟨hpri, hold, hnew, hcall⟩ := hk
    rw [hwords k hcall, update_of_ne hcall, update_of_ne hnew, update_of_ne hold, update_of_ne hpri]
  have hold : cells (place sym cpu sp) m' .old = v .pri := hwords .old (by rintro ⟨⟩)
  have hnew : cells (place sym cpu sp) m' .new = ipl := hwords .new (by rintro ⟨⟩)
  have hloaded' : Loaded sym installed m' := by
    apply hloaded.congr
    rw [hm]
    exact hkept .setsplsti (by decide)
  exact until_softints hext ((hkept .self (by decide)).trans hself) hloaded' (hkept .ret (by decide)) hold hnew
    (hkept .softinfo (by decide))

theorem until_spl {level : BitVec 32} (hm : cells (place sym cpu sp) m = v) (hloaded : Loaded sym installed m) :
    Until (StepsWith (code sym installed) ext) (Away sym installed)
      (Ends sym installed sp v (newIpl (v .baseSpl) level))
      ⟨labelAddr (code sym installed) .spl, ⟨⟨ax, cpu, level, bx, sp, bp, si, di, hi⟩, fl, df, m⟩⟩ := by
  have hat : At (code sym installed) (labelAddr (code sym installed) .spl) (spl sym) := ⟨_, rfl⟩
  have habove := difference_a level (v .baseSpl)
  apply until_text hext hat rfl
  simp [spl, GETIPL_NOGS, merge_word, places sym cpu sp, load_cell, hm]
  by_cases hbase : level.toNat < (v .baseSpl).toNat
  · have hat' : At (code sym installed) (labelAddr (code sym installed) .setToBaseSpl) (setToBaseSpl sym) := ⟨_, rfl⟩
    rw [decide_eq_true hbase] at habove
    rw [run_jcc_taken habove, newIpl, if_pos hbase]
    refine ⟨_, rfl, until_text hext hat' rfl ?_⟩
    simpa [setToBaseSpl, merge_word, places sym cpu sp, load_cell, hm] using
      until_setprilev hext hspread hsetspl hself hm hloaded
  · rw [decide_eq_false hbase] at habove
    rw [run_jcc_not habove, newIpl, if_neg hbase]
    exact ⟨_, rfl, until_setprilev hext hspread hsetspl hself hm hloaded⟩

theorem until_SETPRI {ip : Nat} {l : Label} {level : Int}
    (hat : At (code sym installed) ip (.label l :: SETPRI sym level)) (hlt : decide (ip + 5 ≤ 94) = true)
    (hm : cells (place sym cpu sp) m = v) (hloaded : Loaded sym installed m) :
    Until (StepsWith (code sym installed) ext) (Away sym installed)
      (Ends sym installed sp v (newIpl (v .baseSpl) (BitVec.ofInt 32 level)))
      ⟨ip, ⟨⟨ax, cx, dx, bx, sp, bp, si, di, hi⟩, fl, df, m⟩⟩ := by
  apply until_text hext hat hlt
  simpa [SETPRI, LOADCPU, merge_word, places sym cpu sp, load_cell, hm, hself] using
    until_spl hext hspread hsetspl hself hm hloaded

def Raised (sym : Symbols) (installed : Bool) (sp : BitVec 32) (v : Cell → BitVec 32) (level : BitVec 32) (d : Cfg 32) :
    Prop :=
  if (v .pri).toInt < level.toInt then Ends sym installed sp v (newIpl (v .baseSpl) level) d else Returned sp v d

theorem until_RAISE {ip : Nat} {l : Label} {level : Int}
    (hat : At (code sym installed) ip (.label l :: RAISE sym level)) (hlt : decide (ip + 8 ≤ 94) = true)
    (hm : cells (place sym cpu sp) m = v) (hloaded : Loaded sym installed m) :
    Until (StepsWith (code sym installed) ext) (Away sym installed)
      (Raised sym installed sp v (BitVec.ofInt 32 level))
      ⟨ip, ⟨⟨ax, cx, dx, bx, sp, bp, si, di, hi⟩, fl, df, m⟩⟩ := by
  have hgt := difference_g (v .pri) (BitVec.ofInt 32 level)
  apply until_text hext hat hlt
  simp [RAISE, LOADCPU, GETIPL_NOGS, merge_word, places sym cpu sp, load_cell, hm, hself]
  unfold Raised
  by_cases hraise : (v .pri).toInt < (BitVec.ofInt 32 level).toInt
  · rw [decide_eq_true hraise] at hgt
    rw [run_jcc_taken hgt]
    simp only [hraise, if_true]
    exact ⟨_, rfl, until_spl hext hspread hsetspl hself hm hloaded⟩
  · have hat' : At (code sym installed) (labelAddr (code sym installed) .setsplhisti) ((splhi sym installed).drop 14) :=
      ⟨_, rfl⟩
    rw [decide_eq_false hraise] at hgt
    rw [run_jcc_not hgt]
    simp only [hraise, if_false]
    refine ⟨_, rfl, until_text hext hat' rfl ?_⟩
    simp [splhi]
    exact .here ⟨congrArg BitVec.toNat (congrFun hm .ret), rfl, rfl⟩

theorem until_splr (hm : cells (place sym cpu sp) m = v) (hloaded : Loaded sym installed m) :
    Until (StepsWith (code sym installed) ext) (Away sym installed) (Raised sym installed sp v (v .arg))
      ⟨labelAddr (code sym installed) .splr, ⟨⟨ax, cx, dx, bx, sp, bp, si, di, hi⟩, fl, df, m⟩⟩ := by
  have hat : At (code sym installed) (labelAddr (code sym installed) .splr) (splr sym installed) := ⟨_, rfl⟩
  have hgt := difference_g (v .pri) (v .arg)
  apply until_text hext hat rfl
  simp [splr, LOADCPU, GETIPL_NOGS, merge_word, places sym cpu sp, load_cell, hm, hself]
  unfold Raised
  by_cases hraise : (v .pri).toInt < (v .arg).toInt
  · rw [decide_eq_true hraise] at hgt
    rw [run_jcc_taken hgt]
    simp only [hraise, if_true]
    exact ⟨_, rfl, until_spl hext hspread hsetspl hself hm hloaded⟩
  · rw [decide_eq_false hraise] at hgt
    rw [run_jcc_not hgt]
    simp only [hraise, if_false]
    simp
    exact .here ⟨congrArg BitVec.toNat (congrFun hm .ret), rfl, rfl⟩

theorem until_splx (hm : cells (place sym cpu sp) m = v) (hloaded : Loaded sym installed m) :
    Until (StepsWith (code sym installed) ext) (Away sym installed)
      (Ends sym installed sp v (newIpl (v .baseSpl) (v .arg)))
      ⟨labelAddr (code sym installed) .splx, ⟨⟨ax, cx, dx, bx, sp, bp, si, di, hi⟩, fl, df, m⟩⟩ := by
  have hat : At (code sym installed) (labelAddr (code sym installed) .splx) (splx sym) := ⟨_, rfl⟩
  apply until_text hext hat rfl
  simp [splx, LOADCPU, merge_word, places sym cpu sp, load_cell, hm, hself]
  exact until_spl hext hspread hsetspl hself hm hloaded

end Blocks

inductive Routine
  | spl8 | spl7 | splzs | spl0 | splr | splx | spl
  deriving DecidableEq

namespace Routine

def label : Routine → Label
  | spl8 => .spl8
  | spl7 => .spl7
  | splzs => .splzs
  | spl0 => .spl0
  | splr => .splr
  | splx => .splx
  | spl => .spl

def level (s : State 32) (v : Cell → BitVec 32) : Routine → BitVec 32
  | spl8 => BitVec.ofInt 32 15
  | spl7 => BitVec.ofInt 32 13
  | splzs => BitVec.ofInt 32 12
  | spl0 => BitVec.ofInt 32 0
  | splr | splx => v .arg
  | spl => s.regs.dx

def raises : Routine → Bool
  | spl7 | splr => true
  | _ => false

def Sets (r : Routine) (s : State 32) (v : Cell → BitVec 32) : Prop :=
  r.raises = false ∨ (v .pri).toInt < (r.level s v).toInt

instance (r : Routine) (s : State 32) (v : Cell → BitVec 32) : Decidable (r.Sets s v) :=
  inferInstanceAs (Decidable (_ ∨ _))

def ipl (r : Routine) (s : State 32) (v : Cell → BitVec 32) : BitVec 32 :=
  if r.Sets s v then newIpl (v .baseSpl) (r.level s v) else v .pri

end Routine

/-- A call of the routine, with `setspl` outside of the text and the caller
neither here nor there. -/
structure Entered (sym : Symbols) (installed : Bool) (ext : Nat → Option (State 32 → State 32)) (cpu sp : BitVec 32)
    (v : Cell → BitVec 32) (s : State 32) : Prop where
  inside : ∀ i < (code sym installed).length, ext i = none
  spread : Spread (place sym cpu sp)
  stack : s.regs.sp = sp
  words : cells (place sym cpu sp) s.mem = v
  self : v .self = cpu
  loaded : Loaded sym installed s.mem
  setspl : Outer sym cpu sp ext (v .setspl)
  caller : (code sym installed).length ≤ (v .ret).toNat ∧ ext (v .ret).toNat = none

section Routines

variable {sym : Symbols} {installed : Bool} {cpu sp : BitVec 32} {ext : Nat → Option (State 32 → State 32)} {r : Routine}
  {v : Cell → BitVec 32} {s : State 32}

theorem until_routine (h : Entered sym installed ext cpu sp v s) (hcpu : r = .spl → s.regs.cx = cpu) :
    Until (StepsWith (code sym installed) ext) (Away sym installed)
      (fun d => if r.Sets s v then Ends sym installed sp v (newIpl (v .baseSpl) (r.level s v)) d else Returned sp v d)
      ⟨labelAddr (code sym installed) r.label, s⟩ := by
  obtain ⟨hext, hspread, hstack, hm, hself, hloaded, hsetspl, -⟩ := h
  obtain ⟨⟨ax, cx, dx, bx, sp', bp, si, di, hi⟩, fl, df, m⟩ := s
  obtain rfl : sp' = sp := hstack
  cases hraises : r.raises with
  | false =>
      simp only [Routine.Sets, hraises, true_or, if_true]
      cases r with
      | spl8 =>
          have hat : At (code sym installed) (labelAddr (code sym installed) .spl8) (.label .spl8 :: SETPRI sym 15) :=
            ⟨_, rfl⟩
          exact until_SETPRI hext hspread hsetspl hself hat rfl hm hloaded
      | splzs =>
          have hat : At (code sym installed) (labelAddr (code sym installed) .splzs) (.label .splzs :: SETPRI sym 12) :=
            ⟨_, rfl⟩
          exact until_SETPRI hext hspread hsetspl hself hat rfl hm hloaded
      | spl0 =>
          have hat : At (code sym installed) (labelAddr (code sym installed) .spl0) (.label .spl0 :: SETPRI sym 0) :=
            ⟨_, rfl⟩
          exact until_SETPRI hext hspread hsetspl hself hat rfl hm hloaded
      | splx => exact until_splx hext hspread hsetspl hself hm hloaded
      | spl =>
          obtain rfl : cx = cpu := hcpu rfl
          exact until_spl hext hspread hsetspl hself hm hloaded
      | spl7 => cases hraises
      | splr => cases hraises
  | true =>
      simp only [Routine.Sets, hraises, Bool.true_eq_false, false_or]
      cases r with
      | spl7 =>
          have hat : At (code sym installed) (labelAddr (code sym installed) .spl7) (.label .spl7 :: RAISE sym 13) :=
            ⟨_, rfl⟩
          exact until_RAISE hext hspread hsetspl hself hat rfl hm hloaded
      | splr => exact until_splr hext hspread hsetspl hself hm hloaded
      | _ => cases hraises

def Transfers (sym : Symbols) (installed : Bool) (ext : Nat → Option (State 32 → State 32)) (r : Routine)
    (s : State 32) : Prop :=
  ∃ d : Cfg 32, ReflTransGen (StepsWith (code sym installed) ext) ⟨labelAddr (code sym installed) r.label, s⟩ d ∧
    d.ip = labelAddr (code sym installed) .fakesoftint

theorem transfers_iff (h : Entered sym installed ext cpu sp v s) (hcpu : r = .spl → s.regs.cx = cpu) :
    Transfers sym installed ext r s ↔ r.Sets s v ∧ Exceeds (v .softinfo) (newIpl (v .baseSpl) (r.level s v)) := by
  have hrun := until_routine h hcpu
  obtain ⟨hlen, hnone⟩ := h.caller
  by_cases hends : r.Sets s v ∧ Exceeds (v .softinfo) (newIpl (v .baseSpl) (r.level s v))
  · rw [iff_true_right hends]
    obtain ⟨d, hd, hend⟩ := hrun.exists_end
    rw [if_pos hends.1, Ends, if_pos hends.2] at hend
    exact ⟨d, hd, hend⟩
  · rw [iff_false_right hends]
    have hreturned (d : Cfg 32) (hd : if r.Sets s v then
        Ends sym installed sp v (newIpl (v .baseSpl) (r.level s v)) d else Returned sp v d) : Returned sp v d := by
      by_cases hsets : r.Sets s v
      · rw [if_pos hsets, Ends, if_neg fun hex => hends ⟨hsets, hex⟩] at hd
        exact hd
      · rwa [if_neg hsets] at hd
    rintro ⟨d, hd, hfake⟩
    refine hrun.safe (fun b c hb hstep => ?_) (fun b hb => ?_) hd hfake
    · rw [StepsWith, nextWith, (hreturned b hb).ip, hnone, next, (hreturned b hb).ip,
        List.getElem?_eq_none hlen] at hstep
      cases hstep
    · have hfake : labelAddr (code sym installed) .fakesoftint = 94 := rfl
      rw [length_code] at hlen
      rw [Away, (hreturned b hb).ip, hfake]
      omega

theorem leads_installSpl (h : Entered sym false ext cpu sp v s) :
    Leads (StepsWith (code sym false) ext) ⟨labelAddr (code sym false) .installSpl, s⟩ fun d =>
      d.ip = (v .ret).toNat ∧ d.state.regs.sp = sp + 4#32 ∧ d.state.regs.hi = s.regs.hi ∧ Loaded sym true d.state.mem ∧
      ∀ k, k ≠ .setsplsti → k ≠ .setsplhisti → k ≠ .splrSetsti → cells (place sym cpu sp) d.state.mem k = v k := by
  obtain ⟨hext, hspread, hstack, hm, -, hloaded, -, -⟩ := h
  obtain ⟨⟨ax, cx, dx, bx, sp', bp, si, di, hi⟩, fl, df, m⟩ := s
  obtain rfl : sp' = sp := hstack
  have hat : At (code sym false) (labelAddr (code sym false) .installSpl) ((installSpl sym).take 6) := ⟨_, rfl⟩
  have hat' : At (code sym false) (labelAddr (code sym false) .one) ((installSpl sym).drop 6) := ⟨_, rfl⟩
  have hbyte (m' : Mem 32) (k : Cell) := cells_store_low hspread (by decide) k STI_INSTR (m := m')
  generalize hm' : store (store (store m (place sym cpu sp' .setsplsti) STI_INSTR) (place sym cpu sp' .setsplhisti)
    STI_INSTR) (place sym cpu sp' .splrSetsti) STI_INSTR = m'
  have hcells (k : Cell) (h1 : k ≠ .setsplhisti) (h2 : k ≠ .splrSetsti) : cells (place sym cpu sp') m' k =
      update v .setsplsti (State.merge (v .setsplsti) STI_INSTR) k := by
    rw [← hm', hbyte, update_of_ne h2, hbyte, update_of_ne h1, hbyte, hm]
  apply leads_lines hext hat
  simp [installSpl, merge_word]
  apply leads_lines hext hat'
  simp [installSpl, places sym cpu sp']
  rw [hm']
  refine .here ⟨congrArg BitVec.toNat (hcells .ret (by rintro ⟨⟩) (by rintro ⟨⟩)), rfl, rfl, ?_, ?_⟩
  · rw [loaded_iff] at hloaded ⊢
    have hword : load 32 m' (BitVec.ofInt 32 sym.setsplsti) = State.merge (v .setsplsti) STI_INSTR :=
      hcells .setsplsti (by rintro ⟨⟩) (by rintro ⟨⟩)
    have hv : (v .setsplsti).toNat = 0xc3585890 := by
      rw [← hm]
      exact hloaded
    rw [hword, toNat_merge_byte, hv]
    decide
  · intro k h1 h2 h3
    rw [hcells k h2 h3, update_of_ne h1]

/-- No soft interrupt before `install_spl`, and after it just where the
highest level that is pending is above the new one. -/
def Meets (sym : Symbols) (installed : Bool) (ext : Nat → Option (State 32 → State 32)) (r : Routine)
    (v : Cell → BitVec 32) (s : State 32) : Prop :=
  (installed = false → ¬ Transfers sym installed ext r s) ∧
  (installed = true → (Transfers sym installed ext r s ↔ Exceeds (v .softinfo) (r.ipl s v)))

/-- The test for a patched `setsplsti` never finds the `nop`: where a level is
pending that is above the new one, control goes to `fakesoftint` before
`install_spl` too, if only the routine comes to `spl`. -/
theorem spl_softints_iff (h : Entered sym installed ext cpu sp v s) (hcpu : r = .spl → s.regs.cx = cpu) :
    (Meets sym installed ext r v s ↔ ¬ Exceeds (v .softinfo) (r.ipl s v) ∨ (installed = true ↔ r.Sets s v)) ∧
    (installed = false → Leads (StepsWith (code sym installed) ext) ⟨labelAddr (code sym installed) .installSpl, s⟩
      fun d => d.ip = (v .ret).toNat ∧ d.state.regs.sp = sp + 4#32 ∧ d.state.regs.hi = s.regs.hi ∧
        Loaded sym true d.state.mem ∧ ∀ k, k ≠ .setsplsti → k ≠ .setsplhisti → k ≠ .splrSetsti →
          cells (place sym cpu sp) d.state.mem k = v k) := by
  constructor
  · rw [Meets, transfers_iff h hcpu, Routine.ipl]
    by_cases hsets : r.Sets s v
    · rw [if_pos hsets]
      cases installed <;> simp [hsets]
    · rw [if_neg hsets]
      cases installed <;> simp [hsets]
  · rintro rfl
    exact leads_installSpl h

end Routines

section Sample

def samplePlaces : Symbols := ⟨4096, 4112, 4128, 4144, 4160, 0, 4, 8, 11⟩

def sampleMemory : Mem 32 :=
  store (store (store (store (store (fun _ => 0#8) 4096#32 8192#32) 4112#32 200#32) 4128#32 0xc3585890#32)
    8200#32 2#32) 65536#32 300#32

def sampleState : State 32 :=
  ⟨⟨0#32, 0#32, 0#32, 0#32, 65536#32, 0#32, 0#32, 0#32, .zero⟩, undefinedFlags, false, sampleMemory⟩

def sampleSetspl (i : Nat) : Option (State 32 → State 32) :=
  if i = 200 then some fun s => { s with regs := { s.regs with sp := s.regs.sp + 4#32 } } else none

def sampleCells : Cell → BitVec 32 := cells (place samplePlaces 8192#32 65536#32) sampleMemory

def Cell.all : List Cell :=
  [.self, .setspl, .pri, .baseSpl, .softinfo, .setsplsti, .setsplhisti, .splrSetsti, .arg, .ret, .old, .new, .call]

theorem Cell.mem_all (k : Cell) : k ∈ Cell.all := by
  cases k <;> decide

theorem memory_sample :
    Spread (place samplePlaces 8192#32 65536#32) ∧ Loaded samplePlaces false sampleMemory := by
  have hall : ∀ j ∈ Cell.all, ∀ k ∈ Cell.all, j ≠ k →
      Apart (place samplePlaces 8192#32 65536#32 j) 4 (place samplePlaces 8192#32 65536#32 k) 4 := by
    decide +kernel
  refine ⟨fun j k hjk => hall j (Cell.mem_all j) k (Cell.mem_all k) hjk, ?_⟩
  rw [loaded_iff]
  decide +kernel

theorem loaded_sample : Loaded samplePlaces false sampleMemory := memory_sample.2

theorem entered_sample : Entered samplePlaces false sampleSetspl 8192#32 65536#32 sampleCells sampleState where
  inside i hi := by
    rw [length_code] at hi
    rw [sampleSetspl, if_neg (by omega)]
  spread := memory_sample.1
  stack := rfl
  words := rfl
  self := by decide +kernel
  loaded := loaded_sample
  setspl := by
    have hsetspl : sampleCells .setspl = 200#32 := by decide +kernel
    rw [hsetspl]
    exact ⟨_, rfl, fun _ _ => ⟨rfl, fun _ _ => rfl⟩⟩
  caller := by
    have hret : sampleCells .ret = 300#32 := by decide +kernel
    rw [hret]
    exact ⟨by decide, rfl⟩

end Sample

theorem splx_goes_to_fakesoftint :
    Loaded samplePlaces false sampleState.mem ∧ Transfers samplePlaces false sampleSetspl .splx sampleState := by
  refine ⟨loaded_sample, (transfers_iff (r := .splx) entered_sample (by rintro ⟨⟩)).mpr ⟨.inl rfl, ?_⟩⟩
  decide +kernel

theorem spl8_meets :
    Meets samplePlaces false sampleSetspl .spl8 sampleCells sampleState := by
  refine (spl_softints_iff (r := .spl8) entered_sample (by rintro ⟨⟩)).1.mpr (.inl ?_)
  decide +kernel

end SysvDev.Subr.Spl
