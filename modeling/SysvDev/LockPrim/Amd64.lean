import SysvDev.Subr.SplAmd64
import SysvDev.X86.Link

namespace SysvDev.LockPrim.Amd64

open X86.Memory X86.Machine X86.Machine.Att X86.Run X86.Cells X86.Words X86.Link Inevitable
open Subr Subr.Levels
open Subr.Spl (newIpl)
open Subr.SplAmd64 (Symbols)

inductive Label
  | lockSetSpl | lssMiss | lockClearSplx | zero | lockSetSplSpin
  deriving DecidableEq

abbrev Line := X86.Machine.Line (SplAmd64.Label ⊕ Label)

def lockSetSpl : List Line :=
  [ .label (.inr .lockSetSpl),
    pushq rbp,
    movq rsp rbp,
    subq (.imm 32) rsp,
    movl esi (ind 8 .sp),
    movq rdx (ind 16 .sp),
    movq rdi (ind 24 .sp),
    movl esi edi,
    .call (.inl .splr) ]

def tryToSet : List Line :=
  [ movq (ind 24 .sp) rdi,
    movb (.imm (-1)) dl,
    .op (.xchgMem 8 .dx (.base 0 .di)),
    testb dl dl,
    jnz (.inr .lssMiss),
    movq (ind 16 .sp) rdx,
    movw eax (ind 0 .dx),
    .op .leave,
    .ret 0 ]

def lssMiss : List Line :=
  [ .label (.inr .lssMiss),
    movl (ind 8 .sp) esi,
    movq (ind 16 .sp) rdx,
    movl eax ecx,
    .op .leave,
    .jmp (.inr .lockSetSplSpin) ]

def lockClearSplx : List Line :=
  [ .label (.inr .lockClearSplx),
    movb (.imm 0) (ind 0 .di),
    .jmp (.inr .zero),
    .label (.inr .zero),
    movl esi edi,
    .jmp (.inl .splx) ]

/-- The routines behind those of `spl`. -/
def code (sym : Symbols) (patched installed : Bool) : List Line :=
  link .inl (SplAmd64.code sym patched installed)
    (List.flatten [lockSetSpl, tryToSet, lssMiss, lockClearSplx, [.label (.inr .lockSetSplSpin)]])

def position : Label → Nat
  | .lockSetSpl => 143
  | .lssMiss => 161
  | .lockClearSplx => 167
  | .zero => 170
  | .lockSetSplSpin => 173

variable {sym : Symbols} {patched installed : Bool}

theorem closed_spl : Closed (SplAmd64.code sym patched installed) := by
  intro l
  rw [SplAmd64.labelAddr_code, SplAmd64.length_code]
  cases l <;> decide

@[simp] theorem labelAddr_inl (l : SplAmd64.Label) :
    labelAddr (code sym patched installed) (.inl l) = SplAmd64.position l := by
  rw [code, labelAddr_link Sum.inl_injective closed_spl, SplAmd64.labelAddr_code]

set_option maxRecDepth 4000 in
@[simp] theorem labelAddr_inr (l : Label) : labelAddr (code sym patched installed) (.inr l) = position l := by
  cases patched <;> cases l <;> rfl

set_option maxRecDepth 4000 in
theorem length_code : (code sym patched installed).length = 174 := rfl

/-- The words of `lock_set_spl`: its frame, the lock and where it stores the
old level. -/
inductive Own : Nat → Type
  | ret : Own 64
  | frame : Own 64
  | lock : Own 64
  | oldPtr : Own 64
  | newPil : Own 32
  | byte : Own 8
  | old : Own 16

/-- `sp` is the stack pointer at entry, `lp` and `op` are the pointers. -/
def ownPlace (sp lp op : BitVec 64) : ∀ n, Own n → BitVec 64
  | _, .ret => sp
  | _, .frame => sp - 8#64
  | _, .lock => sp - 16#64
  | _, .oldPtr => sp - 24#64
  | _, .newPil => sp - 32#64
  | _, .byte => lp
  | _, .old => op

abbrev place (sym : Symbols) (cpu sp lp op : BitVec 64) : ∀ n, SplAmd64.Cell Own n → BitVec 64 :=
  SplAmd64.place sym cpu (sp - 48#64) (ownPlace sp lp op)

variable {ext : Nat → Option (State 64 → State 64)} {cpu sp lp op ax bx cx dx bp si di : BitVec 64} {hi : HighRegs 64}
  {fl : Flags} {df : Bool} {m : Mem 64} {s : State 64}

theorem places (sym : Symbols) (cpu sp lp op : BitVec 64) :
    sp - 8#64 = place sym cpu sp lp op 64 (.own .frame) ∧
    place sym cpu sp lp op 64 (.own .frame) - 32#64 = sp - 40#64 ∧
    sp - 40#64 + 8#64 = place sym cpu sp lp op 32 (.own .newPil) ∧
    sp - 40#64 + 16#64 = place sym cpu sp lp op 64 (.own .oldPtr) ∧
    sp - 40#64 + 24#64 = place sym cpu sp lp op 64 (.own .lock) ∧
    sp - 40#64 - 8#64 = place sym cpu sp lp op 64 .ret := by
  refine ⟨rfl, ?_, ?_, ?_, ?_, ?_⟩ <;>
  · simp only [SplAmd64.place, ownPlace]
    bv_omega

structure Acquired (sym : Symbols) (cpu lp op : BitVec 64) (s : State 64) (level : BitVec 32) (d : Cfg 64) : Prop where
  ip : d.ip = (word (place sym cpu s.regs.sp lp op) s.mem (.own .ret)).toNat
  keeps : Keeps64 s d.state
  byte : word (place sym cpu s.regs.sp lp op) d.state.mem (.own .byte) = 0xff#8
  old : word (place sym cpu s.regs.sp lp op) d.state.mem (.own .old) =
    (word (place sym cpu s.regs.sp lp op) s.mem .pri).setWidth 16
  pri : word (place sym cpu s.regs.sp lp op) d.state.mem .pri =
    raised (word (place sym cpu s.regs.sp lp op) s.mem .baseSpl) (word (place sym cpu s.regs.sp lp op) s.mem .pri) level

theorem comes_tryToSet {P : Cfg 64 → Prop} (hext : ∀ i < (code sym patched installed).length, ext i = none)
    (hspread : Spread (place sym cpu sp lp op)) (hlock : word (place sym cpu sp lp op) m (.own .lock) = lp)
    (hptr : word (place sym cpu sp lp op) m (.own .oldPtr) = op)
    (hfree : word (place sym cpu sp lp op) m (.own .byte) = 0#8)
    (h : ∀ dx' fl', P ⟨(word (place sym cpu sp lp op) m (.own .ret)).toNat,
      ⟨⟨ax, cx, dx', bx, sp + 8#64, word (place sym cpu sp lp op) m (.own .frame), si, lp, hi⟩, fl', df,
        store (store m (place sym cpu sp lp op 8 (.own .byte)) 0xff#8) (place sym cpu sp lp op 16 (.own .old))
          (ax.setWidth 16)⟩⟩) :
    Comes (code sym patched installed) ext P
      ⟨152, ⟨⟨ax, cx, dx, bx, sp - 40#64, place sym cpu sp lp op 64 (.own .frame), si, di, hi⟩, fl, df, m⟩⟩ := by
  have hat : At (code sym patched installed) 152 tryToSet := ⟨_, rfl⟩
  have htop : place sym cpu sp lp op 64 (.own .frame) + 8#64 = sp := by
    simp only [SplAmd64.place, ownPlace]
    bv_omega
  have hlp (v : BitVec 8) : store m lp v = store m (place sym cpu sp lp op 8 (.own .byte)) v := rfl
  have hfree' : load 8 m lp = 0#8 := hfree
  have hop (m' : Mem 64) (v : BitVec 16) : store m' op v = store m' (place sym cpu sp lp op 16 (.own .old)) v := rfl
  have hret (m' : Mem 64) : load 64 m' sp = word (place sym cpu sp lp op) m' (.own .ret) := rfl
  have hwidth : 8 ≤ 64 := by norm_num
  apply comes_block hext hat
  simp [tryToSet, merge_long, places sym cpu sp lp op, load_place (place _ _ _ _ _), hlock, hptr, hfree', hlp, hop,
    htop, hret,
    merge_low hwidth, word_store_other hspread]
  exact .here (h _ _)

theorem comes_lockSetSpl (hext : ∀ i < (code sym patched installed).length, ext i = none)
    (hspread : Spread (place sym cpu sp lp op)) (hself : word (place sym cpu sp lp op) m .self = cpu)
    (hsoft : word (place sym cpu sp lp op) m .softinfo = 0#32)
    (hsetspl : SplAmd64.Outer sym cpu (sp - 48#64) (ownPlace sp lp op) ext (word (place sym cpu sp lp op) m .setspl))
    (hbase : (word (place sym cpu sp lp op) m .baseSpl).toNat ≤ 15) (hlevel : (si.setWidth 32).toNat ≤ 15)
    (hfree : word (place sym cpu sp lp op) m (.own .byte) = 0#8) :
    Comes (code sym patched installed) ext
      (Acquired sym cpu lp op ⟨⟨ax, cx, op, bx, sp, bp, si, lp, hi⟩, fl, df, m⟩ (si.setWidth 32))
      ⟨position .lockSetSpl, ⟨⟨ax, cx, op, bx, sp, bp, si, lp, hi⟩, fl, df, m⟩⟩ := by
  have hat : At (code sym patched installed) (position .lockSetSpl) lockSetSpl := ⟨_, rfl⟩
  apply comes_block hext hat
  simp [lockSetSpl, merge_long, places sym cpu sp lp op]
  generalize hM : store _ (place sym cpu sp lp op 64 .ret) _ = M
  have hret : word (place sym cpu sp lp op) M .ret = 152#64 := by
    rw [← hM]
    apply word_store_self <;> norm_num
  have hframe : word (place sym cpu sp lp op) M (.own .frame) = bp := by
    simp [← hM, word_store_other hspread, word_store_self]
  have hlock : word (place sym cpu sp lp op) M (.own .lock) = lp := by
    simp [← hM, word_store_other hspread, word_store_self]
  have hptr : word (place sym cpu sp lp op) M (.own .oldPtr) = op := by
    simp [← hM, word_store_other hspread, word_store_self]
  have hrest : word (place sym cpu sp lp op) M .self = cpu ∧ word (place sym cpu sp lp op) M .softinfo = 0#32 ∧
      word (place sym cpu sp lp op) M .setspl = word (place sym cpu sp lp op) m .setspl ∧
      word (place sym cpu sp lp op) M .baseSpl = word (place sym cpu sp lp op) m .baseSpl ∧
      word (place sym cpu sp lp op) M .pri = word (place sym cpu sp lp op) m .pri ∧
      word (place sym cpu sp lp op) M (.own .byte) = 0#8 ∧
      word (place sym cpu sp lp op) M (.own .ret) = word (place sym cpu sp lp op) m (.own .ret) := by
    simp [← hM, word_store_other hspread, hself, hsoft, hfree]
  obtain ⟨hself', hsoft', hsetspl', hbase', hpri', hfree', hret'⟩ := hrest
  clear hM
  have hready : SplAmd64.Ready sym patched installed ext cpu (ownPlace sp lp op) (sp - 48#64) M := by
    refine ⟨fun i hi => hext i ?_, hspread, hself', hsoft', ?_, ?_⟩
    · rw [SplAmd64.length_code] at hi
      rw [length_code]
      omega
    · rw [hsetspl']
      exact hsetspl
    · rw [hbase']
      exact hbase
  have hdi : ((si.setWidth 32).setWidth 64).setWidth 32 = si.setWidth 32 := by simp
  refine (comes_link Sum.inl_injective closed_spl (SplAmd64.comes_splr hready hdi hlevel)).trans ?_
  rintro ⟨ip, ⟨⟨ax', cx', dx', bx', sp', bp', si', di', hi'⟩, fl', df', m'⟩⟩ ⟨hip, hkeeps, hax, hpri, hwords⟩
  obtain ⟨hsp, hbx, hbp, h12, h13, h14, h15⟩ := hkeeps
  obtain rfl : ip = 152 := hip.trans (congrArg BitVec.toNat hret)
  have hslot : sp - 48#64 + 8#64 = sp - 40#64 := by bv_omega
  obtain rfl : sp' = sp - 40#64 := hsp.trans hslot
  obtain rfl : bp' = place sym cpu sp lp op 64 (.own .frame) := hbp
  have hwidth : ax'.setWidth 16 = (word (place sym cpu sp lp op) m .pri).setWidth 16 := by
    rw [← hpri']
    exact (BitVec.setWidth_setWidth_of_le ax' (by norm_num)).symm.trans (congrArg _ hax)
  refine comes_tryToSet hext hspread ((hwords 64 (.own .lock) rfl rfl).trans hlock)
    ((hwords 64 (.own .oldPtr) rfl rfl).trans hptr) ((hwords 8 (.own .byte) rfl rfl).trans hfree') fun dx'' fl'' => ?_
  constructor
  · exact congrArg BitVec.toNat ((hwords 64 (.own .ret) rfl rfl).trans hret')
  · constructor
    · rfl
    · exact hbx
    · exact (hwords 64 (.own .frame) rfl rfl).trans hframe
    · exact h12
    · exact h13
    · exact h14
    · exact h15
  · simp [word_store_other hspread, word_store_self]
  · simp [word_store_self, hwidth]
  · simp only [hbase', hpri'] at hpri
    simpa [word_store_other hspread] using hpri

inductive Held : Nat → Type
  | byte : Held 8

def heldPlace (lp : BitVec 64) : ∀ n, Held n → BitVec 64
  | _, .byte => lp

structure Released (sym : Symbols) (cpu lp : BitVec 64) (s : State 64) (level : BitVec 32) (d : Cfg 64) : Prop where
  ip : d.ip = (word (SplAmd64.place sym cpu s.regs.sp (heldPlace lp)) s.mem .ret).toNat
  keeps : Keeps64 s d.state
  byte : word (SplAmd64.place sym cpu s.regs.sp (heldPlace lp)) d.state.mem (.own .byte) = 0#8
  pri : word (SplAmd64.place sym cpu s.regs.sp (heldPlace lp)) d.state.mem .pri =
    newIpl (word (SplAmd64.place sym cpu s.regs.sp (heldPlace lp)) s.mem .baseSpl) level

theorem comes_lockClearSplx (hext : ∀ i < (code sym patched installed).length, ext i = none)
    (hspread : Spread (SplAmd64.place sym cpu sp (heldPlace lp)))
    (hself : word (SplAmd64.place sym cpu sp (heldPlace lp)) m .self = cpu)
    (hsoft : word (SplAmd64.place sym cpu sp (heldPlace lp)) m .softinfo = 0#32)
    (hsetspl : SplAmd64.Outer sym cpu sp (heldPlace lp) ext
      (word (SplAmd64.place sym cpu sp (heldPlace lp)) m .setspl))
    (hbase : (word (SplAmd64.place sym cpu sp (heldPlace lp)) m .baseSpl).toNat ≤ 15)
    (hlevel : (si.setWidth 32).toNat ≤ 15) :
    Comes (code sym patched installed) ext
      (Released sym cpu lp ⟨⟨ax, cx, dx, bx, sp, bp, si, lp, hi⟩, fl, df, m⟩ (si.setWidth 32))
      ⟨position .lockClearSplx, ⟨⟨ax, cx, dx, bx, sp, bp, si, lp, hi⟩, fl, df, m⟩⟩ := by
  have hat : At (code sym patched installed) (position .lockClearSplx) (lockClearSplx.take 3) := ⟨_, rfl⟩
  have hat' : At (code sym patched installed) (position .zero) (lockClearSplx.drop 3) := ⟨_, rfl⟩
  have hlp (v : BitVec 8) : store m lp v = store m (SplAmd64.place sym cpu sp (heldPlace lp) 8 (.own .byte)) v := rfl
  apply comes_block hext hat
  simp [lockClearSplx, hlp]
  apply comes_block hext hat'
  simp [lockClearSplx, merge_long]
  generalize hM : store m (SplAmd64.place sym cpu sp (heldPlace lp) 8 (.own .byte)) 0#8 = M
  have hbyte : word (SplAmd64.place sym cpu sp (heldPlace lp)) M (.own .byte) = 0#8 := by
    rw [← hM]
    apply word_store_self <;> norm_num
  have hrest {n : Nat} {k : SplAmd64.Cell Held n} (hk : (⟨8, .own .byte⟩ : Σ n, SplAmd64.Cell Held n) ≠ ⟨n, k⟩) :
      word (SplAmd64.place sym cpu sp (heldPlace lp)) M k = word (SplAmd64.place sym cpu sp (heldPlace lp)) m k := by
    rw [← hM, word_store_other hspread hk]
  clear hM
  have hready : SplAmd64.Ready sym patched installed ext cpu (heldPlace lp) sp M := by
    refine ⟨fun i hi => hext i ?_, hspread, ?_, ?_, ?_, ?_⟩
    · rw [SplAmd64.length_code] at hi
      rw [length_code]
      omega
    · rw [hrest (by simp), hself]
    · rw [hrest (by simp), hsoft]
    · rw [hrest (by simp)]
      exact hsetspl
    · rw [hrest (by simp)]
      exact hbase
  have hdi : ((si.setWidth 32).setWidth 64).setWidth 32 = si.setWidth 32 := by simp
  refine (comes_link Sum.inl_injective closed_spl (SplAmd64.comes_splx hready hdi hlevel)).mono (fun _ hq => hq) ?_
  rintro d ⟨hip, hkeeps, -, hpri, hwords⟩
  constructor
  · exact hip.trans (congrArg BitVec.toNat (hrest (by simp)))
  · exact ⟨hkeeps.sp, hkeeps.bx, hkeeps.bp, hkeeps.r12, hkeeps.r13, hkeeps.r14, hkeeps.r15⟩
  · exact (hwords 8 (.own .byte) rfl rfl).trans hbyte
  · rw [hrest (by simp)] at hpri
    exact hpri

def cpuPri (sym : Symbols) (cpu : BitVec 64) (m : Mem 64) : BitVec 32 := load 32 m (cpu + BitVec.ofInt 64 sym.cpuPri)

def cpuBaseSpl (sym : Symbols) (cpu : BitVec 64) (m : Mem 64) : BitVec 32 :=
  load 32 m (cpu + BitVec.ofInt 64 sym.cpuBaseSpl)

/-- `lock_set_spl(lp, new, &old)` is called on the CPU, the lock is free and no
soft interrupt is pending. -/
structure Setting (sym : Symbols) (patched installed : Bool) (ext : Nat → Option (State 64 → State 64))
    (cpu lp op : BitVec 64) (s : State 64) : Prop where
  inside : ∀ i < (code sym patched installed).length, ext i = none
  spread : Spread (place sym cpu s.regs.sp lp op)
  self : word (place sym cpu s.regs.sp lp op) s.mem .self = cpu
  soft : word (place sym cpu s.regs.sp lp op) s.mem .softinfo = 0#32
  setspl : SplAmd64.Outer sym cpu (s.regs.sp - 48#64) (ownPlace s.regs.sp lp op) ext
    (word (place sym cpu s.regs.sp lp op) s.mem .setspl)
  lock : s.regs.di = lp
  level : (s.regs.si.setWidth 32).toNat ≤ 15
  ptr : s.regs.dx = op
  free : load 8 s.mem lp = 0#8

/-- `lock_clear_splx(lp, old)` is called on the CPU, and no soft interrupt is
pending. -/
structure Clearing (sym : Symbols) (patched installed : Bool) (ext : Nat → Option (State 64 → State 64))
    (cpu lp : BitVec 64) (old : BitVec 16) (t : State 64) : Prop where
  inside : ∀ i < (code sym patched installed).length, ext i = none
  spread : Spread (SplAmd64.place sym cpu t.regs.sp (heldPlace lp))
  self : word (SplAmd64.place sym cpu t.regs.sp (heldPlace lp)) t.mem .self = cpu
  soft : word (SplAmd64.place sym cpu t.regs.sp (heldPlace lp)) t.mem .softinfo = 0#32
  setspl : SplAmd64.Outer sym cpu t.regs.sp (heldPlace lp) ext
    (word (SplAmd64.place sym cpu t.regs.sp (heldPlace lp)) t.mem .setspl)
  lock : t.regs.di = lp
  level : t.regs.si.setWidth 32 = old.setWidth 32

theorem Setting.comes (h : Setting sym patched installed ext cpu lp op s) (hbase : (cpuBaseSpl sym cpu s.mem).toNat ≤ 15) :
    Comes (code sym patched installed) ext (Acquired sym cpu lp op s (s.regs.si.setWidth 32))
      ⟨position .lockSetSpl, s⟩ := by
  obtain ⟨⟨ax, cx, dx, bx, sp, bp, si, di, hi⟩, fl, df, m⟩ := s
  obtain ⟨hext, hspread, hself, hsoft, hsetspl, rfl, hlevel, rfl, hfree⟩ := h
  exact comes_lockSetSpl hext hspread hself hsoft hsetspl hbase hlevel hfree

theorem Clearing.comes {old : BitVec 16} (h : Clearing sym patched installed ext cpu lp old s)
    (hbase : (cpuBaseSpl sym cpu s.mem).toNat ≤ 15) (hold : old.toNat ≤ 15) :
    Comes (code sym patched installed) ext (Released sym cpu lp s (old.setWidth 32)) ⟨position .lockClearSplx, s⟩ := by
  obtain ⟨⟨ax, cx, dx, bx, sp, bp, si, di, hi⟩, fl, df, m⟩ := s
  obtain ⟨hext, hspread, hself, hsoft, hsetspl, rfl, hlevel⟩ := h
  rw [← hlevel]
  refine comes_lockClearSplx hext hspread hself hsoft hsetspl hbase ?_
  rw [hlevel, BitVec.toNat_setWidth]
  exact (Nat.mod_le _ _).trans hold

end SysvDev.LockPrim.Amd64
