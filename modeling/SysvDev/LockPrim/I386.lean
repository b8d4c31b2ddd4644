import SysvDev.Subr.SplI386
import SysvDev.X86.Link

namespace SysvDev.LockPrim.I386

open X86.Memory X86.Machine X86.Machine.Att X86.Run X86.Cells X86.Words X86.Link Inevitable
open Subr Subr.Levels
open Subr.Spl (Symbols newIpl)

inductive Label
  | lockSetSpl | lssMiss | lockClearSplx | lockSetSplSpin
  deriving DecidableEq

abbrev Line := X86.Machine.Line (Spl.Label ⊕ Label)

def lockSetSpl : List Line :=
  [ .label (.inr .lockSetSpl),
    movl (ind 8 .sp) eax,
    pushl eax,
    .call (.inl .splr) ]

def tryToSet : List Line :=
  [ movl (ind 8 .sp) ecx,
    movl (.imm (-1)) edx,
    addl (.imm 4) esp,
    .op (.xchgMem 8 .dx (.base 0 .cx)),
    testb dl dl,
    movl (ind 12 .sp) edx,
    jnz (.inr .lssMiss),
    movw eax (ind 0 .dx),
    .ret 0 ]

def lssMiss : List Line :=
  [ .label (.inr .lssMiss),
    pushl eax,
    pushl edx,
    pushl (ind 16 .sp),
    pushl ecx,
    .call (.inr .lockSetSplSpin),
    addl (.imm 16) esp,
    .ret 0 ]

def lockClearSplx (sym : Symbols) : List Line :=
  [ .label (.inr .lockClearSplx),
    movl (var sym.cpuSelf) ecx,
    movl (ind 4 .sp) eax,
    movl (ind 8 .sp) edx,
    movb (.imm 0) (ind 0 .ax),
    .op .cli,
    .call (.inl .spl),
    .ret 0 ]

/-- The routines behind those of `spl`. -/
def code (sym : Symbols) (installed : Bool) : List Line :=
  link .inl (Spl.code sym installed)
    (List.flatten [lockSetSpl, tryToSet, lssMiss, lockClearSplx sym, [.label (.inr .lockSetSplSpin)]])

def position : Label → Nat
  | .lockSetSpl => 95
  | .lssMiss => 108
  | .lockClearSplx => 116
  | .lockSetSplSpin => 124

variable {sym : Symbols} {installed : Bool}

theorem closed_spl : Closed (Spl.code sym installed) := by
  intro l
  rw [Spl.length_code]
  cases l <;> exact Nat.le_of_ble_eq_true rfl

@[simp] theorem labelAddr_inl (l : Spl.Label) :
    labelAddr (code sym installed) (.inl l) = labelAddr (Spl.code sym installed) l := by
  rw [code, labelAddr_link Sum.inl_injective closed_spl]

set_option maxRecDepth 4000 in
@[simp] theorem labelAddr_inr (l : Label) : labelAddr (code sym installed) (.inr l) = position l := by
  cases l <;> rfl

theorem length_code : (code sym installed).length = 125 := rfl

/-- The words of `lock_set_spl`: its arguments, the lock and where it stores the
old level. -/
inductive Own : Nat → Type
  | ret : Own 32
  | lock : Own 32
  | newPil : Own 32
  | oldPtr : Own 32
  | byte : Own 8
  | old : Own 16

/-- `sp` is the stack pointer at entry, `lp` and `op` are the pointers. -/
def ownPlace (sp lp op : BitVec 32) : ∀ n, Own n → BitVec 32
  | _, .ret => sp
  | _, .lock => sp + 4#32
  | _, .newPil => sp + 8#32
  | _, .oldPtr => sp + 12#32
  | _, .byte => lp
  | _, .old => op

abbrev place (sym : Symbols) (cpu sp lp op : BitVec 32) : ∀ n, SplI386.Cell Own n → BitVec 32 :=
  SplI386.place sym cpu (sp - 8#32) (ownPlace sp lp op)

variable {ext : Nat → Option (State 32 → State 32)} {cpu sp lp op ax bx cx dx bp si di : BitVec 32} {hi : HighRegs 32}
  {fl : Flags} {df : Bool} {m : Mem 32} {s : State 32}

theorem places (sym : Symbols) (cpu sp lp op : BitVec 32) :
    sp + 8#32 = place sym cpu sp lp op 32 (.own .newPil) ∧
    sp + 12#32 = place sym cpu sp lp op 32 (.own .oldPtr) ∧
    sp - 4#32 + 8#32 = place sym cpu sp lp op 32 (.own .lock) ∧
    sp - 4#32 + 4#32 = sp ∧
    sp - 4#32 = place sym cpu sp lp op 32 .arg ∧
    place sym cpu sp lp op 32 .arg - 4#32 = place sym cpu sp lp op 32 .ret := by
  refine ⟨rfl, rfl, ?_, by bv_omega, ?_, ?_⟩ <;>
  · simp only [SplI386.place, ownPlace]
    bv_omega

structure Acquired (sym : Symbols) (cpu lp op : BitVec 32) (s : State 32) (level : BitVec 32) (d : Cfg 32) : Prop where
  ip : d.ip = (word (place sym cpu s.regs.sp lp op) s.mem (.own .ret)).toNat
  keeps : Keeps32 s d.state
  byte : word (place sym cpu s.regs.sp lp op) d.state.mem (.own .byte) = 0xff#8
  old : word (place sym cpu s.regs.sp lp op) d.state.mem (.own .old) =
    (word (place sym cpu s.regs.sp lp op) s.mem .pri).setWidth 16
  pri : word (place sym cpu s.regs.sp lp op) d.state.mem .pri =
    raised (word (place sym cpu s.regs.sp lp op) s.mem .baseSpl) (word (place sym cpu s.regs.sp lp op) s.mem .pri) level

theorem comes_tryToSet {P : Cfg 32 → Prop} (hext : ∀ i < (code sym installed).length, ext i = none)
    (hspread : Spread (place sym cpu sp lp op)) (hlock : word (place sym cpu sp lp op) m (.own .lock) = lp)
    (hptr : word (place sym cpu sp lp op) m (.own .oldPtr) = op)
    (hfree : word (place sym cpu sp lp op) m (.own .byte) = 0#8)
    (h : ∀ fl', P ⟨(word (place sym cpu sp lp op) m (.own .ret)).toNat,
      ⟨⟨ax, lp, op, bx, sp + 4#32, bp, si, di, hi⟩, fl', df,
        store (store m (place sym cpu sp lp op 8 (.own .byte)) 0xff#8) (place sym cpu sp lp op 16 (.own .old))
          (ax.setWidth 16)⟩⟩) :
    Comes (code sym installed) ext P ⟨99, ⟨⟨ax, cx, dx, bx, sp - 4#32, bp, si, di, hi⟩, fl, df, m⟩⟩ := by
  have hat : At (code sym installed) 99 tryToSet := ⟨_, rfl⟩
  have hlp (v : BitVec 8) : store m lp v = store m (place sym cpu sp lp op 8 (.own .byte)) v := rfl
  have hfree' : load 8 m lp = 0#8 := hfree
  have hop (m' : Mem 32) (v : BitVec 16) : store m' op v = store m' (place sym cpu sp lp op 16 (.own .old)) v := rfl
  have hret (m' : Mem 32) : load 32 m' sp = word (place sym cpu sp lp op) m' (.own .ret) := rfl
  have hslot : sp - 4#32 + 8#32 = place sym cpu sp lp op 32 (.own .lock) := (places sym cpu sp lp op).2.2.1
  have hback : sp - 4#32 + 4#32 = sp := (places sym cpu sp lp op).2.2.2.1
  have hptr' : sp + 12#32 = place sym cpu sp lp op 32 (.own .oldPtr) := rfl
  have hwidth : 8 ≤ 32 := by norm_num
  apply comes_block hext hat
  simp [tryToSet, merge_word, hslot, hback, hptr', load_place (place _ _ _ _ _), hlock, hptr, hfree', hlp, hop, hret,
    merge_low hwidth, word_store_other hspread]
  exact .here (h _)

theorem comes_lockSetSpl {level : BitVec 32} (hext : ∀ i < (code sym installed).length, ext i = none)
    (hspread : Spread (place sym cpu sp lp op)) (hself : word (place sym cpu sp lp op) m .self = cpu)
    (hsoft : word (place sym cpu sp lp op) m .softinfo = 0#32)
    (hsetspl : SplI386.Outer sym cpu (sp - 8#32) (ownPlace sp lp op) ext (word (place sym cpu sp lp op) m .setspl))
    (hlock : word (place sym cpu sp lp op) m (.own .lock) = lp)
    (hlevel : word (place sym cpu sp lp op) m (.own .newPil) = level)
    (hptr : word (place sym cpu sp lp op) m (.own .oldPtr) = op)
    (hfree : word (place sym cpu sp lp op) m (.own .byte) = 0#8) :
    Comes (code sym installed) ext
      (Acquired sym cpu lp op ⟨⟨ax, cx, dx, bx, sp, bp, si, di, hi⟩, fl, df, m⟩ level)
      ⟨position .lockSetSpl, ⟨⟨ax, cx, dx, bx, sp, bp, si, di, hi⟩, fl, df, m⟩⟩ := by
  have hat : At (code sym installed) (position .lockSetSpl) lockSetSpl := ⟨_, rfl⟩
  apply comes_block hext hat
  simp [lockSetSpl, merge_word, places sym cpu sp lp op, load_place (place _ _ _ _ _), hlevel]
  generalize hM : store _ (place sym cpu sp lp op 32 .ret) _ = M
  have hret : word (place sym cpu sp lp op) M .ret = 99#32 := by
    rw [← hM]
    apply word_store_self <;> norm_num
  have harg : word (place sym cpu sp lp op) M .arg = level := by
    simp [← hM, word_store_other hspread, word_store_self]
  have hown {n : Nat} (k : Own n) : word (place sym cpu sp lp op) M (.own k) =
      word (place sym cpu sp lp op) m (.own k) := by
    cases k <;> simp [← hM, word_store_other hspread]
  have hrest : word (place sym cpu sp lp op) M .self = cpu ∧ word (place sym cpu sp lp op) M .softinfo = 0#32 ∧
      word (place sym cpu sp lp op) M .setspl = word (place sym cpu sp lp op) m .setspl ∧
      word (place sym cpu sp lp op) M .baseSpl = word (place sym cpu sp lp op) m .baseSpl ∧
      word (place sym cpu sp lp op) M .pri = word (place sym cpu sp lp op) m .pri := by
    simp [← hM, word_store_other hspread, hself, hsoft]
  obtain ⟨hself', hsoft', hsetspl', hbase', hpri'⟩ := hrest
  clear hM
  have hready : SplI386.Ready sym installed ext cpu (ownPlace sp lp op) (sp - 8#32) M := by
    refine ⟨fun i hi => hext i ?_, hspread, hself', hsoft', ?_⟩
    · rw [Spl.length_code] at hi
      rw [length_code]
      omega
    · rw [hsetspl']
      exact hsetspl
  refine (comes_link Sum.inl_injective closed_spl (SplI386.comes_splr hready)).trans ?_
  rintro ⟨ip, ⟨⟨ax', cx', dx', bx', sp', bp', si', di', hi'⟩, fl', df', m'⟩⟩ ⟨hip, hkeeps, hax, hpri, hwords⟩
  obtain ⟨hsp, hbx, hbp, hsi, hdi⟩ := hkeeps
  obtain rfl : ip = 99 := hip.trans (congrArg BitVec.toNat hret)
  have hslot : sp - 8#32 + 4#32 = sp - 4#32 := by bv_omega
  obtain rfl : sp' = sp - 4#32 := hsp.trans hslot
  have hkept {n : Nat} (k : Own n) : word (place sym cpu sp lp op) m' (.own k) =
      word (place sym cpu sp lp op) m (.own k) := (hwords n (.own k) rfl rfl).trans (hown k)
  refine comes_tryToSet hext hspread ((hkept .lock).trans hlock) ((hkept .oldPtr).trans hptr)
    ((hkept .byte).trans hfree) fun fl'' => ?_
  constructor
  · exact congrArg BitVec.toNat (hkept .ret)
  · exact ⟨rfl, hbx, hbp, hsi, hdi⟩
  · simp [word_store_other hspread, word_store_self]
  · rw [← hpri']
    simpa [word_store_self] using congrArg (BitVec.setWidth 16) hax
  · simp only [hbase', hpri', harg] at hpri
    simpa [word_store_other hspread] using hpri

/-- The words of `lock_clear_splx`. Its return address is where `splx` would
have its argument. -/
inductive Held : Nat → Type
  | lock : Held 32
  | pil : Held 32
  | byte : Held 8

def heldPlace (sp lp : BitVec 32) : ∀ n, Held n → BitVec 32
  | _, .lock => sp + 4#32
  | _, .pil => sp + 8#32
  | _, .byte => lp

abbrev clearPlace (sym : Symbols) (cpu sp lp : BitVec 32) : ∀ n, SplI386.Cell Held n → BitVec 32 :=
  SplI386.place sym cpu (sp - 4#32) (heldPlace sp lp)

theorem clearPlaces (sym : Symbols) (cpu sp lp : BitVec 32) :
    BitVec.ofInt 32 sym.cpuSelf = clearPlace sym cpu sp lp 32 .self ∧
    sp + 4#32 = clearPlace sym cpu sp lp 32 (.own .lock) ∧
    sp + 8#32 = clearPlace sym cpu sp lp 32 (.own .pil) ∧
    sp - 4#32 = clearPlace sym cpu sp lp 32 .ret := ⟨rfl, rfl, rfl, rfl⟩

theorem load_held {n : Nat} (k : SplI386.Cell Held n) :
    load n m (clearPlace sym cpu sp lp n k) = word (clearPlace sym cpu sp lp) m k := rfl

structure Released (sym : Symbols) (cpu lp : BitVec 32) (s : State 32) (level : BitVec 32) (d : Cfg 32) : Prop where
  ip : d.ip = (load 32 s.mem s.regs.sp).toNat
  keeps : Keeps32 s d.state
  byte : word (clearPlace sym cpu s.regs.sp lp) d.state.mem (.own .byte) = 0#8
  pri : word (clearPlace sym cpu s.regs.sp lp) d.state.mem .pri =
    newIpl (word (clearPlace sym cpu s.regs.sp lp) s.mem .baseSpl) level

theorem comes_lockClearSplx {level : BitVec 32} (hext : ∀ i < (code sym installed).length, ext i = none)
    (hspread : Spread (clearPlace sym cpu sp lp)) (hself : word (clearPlace sym cpu sp lp) m .self = cpu)
    (hsoft : word (clearPlace sym cpu sp lp) m .softinfo = 0#32)
    (hsetspl : SplI386.Outer sym cpu (sp - 4#32) (heldPlace sp lp) ext (word (clearPlace sym cpu sp lp) m .setspl))
    (hlock : word (clearPlace sym cpu sp lp) m (.own .lock) = lp)
    (hlevel : word (clearPlace sym cpu sp lp) m (.own .pil) = level) :
    Comes (code sym installed) ext
      (Released sym cpu lp ⟨⟨ax, cx, dx, bx, sp, bp, si, di, hi⟩, fl, df, m⟩ level)
      ⟨position .lockClearSplx, ⟨⟨ax, cx, dx, bx, sp, bp, si, di, hi⟩, fl, df, m⟩⟩ := by
  have hat : At (code sym installed) (position .lockClearSplx) ((lockClearSplx sym).take 7) := ⟨_, rfl⟩
  have hat' : At (code sym installed) 123 ((lockClearSplx sym).drop 7) := ⟨_, rfl⟩
  have hlp (v : BitVec 8) : store m lp v = store m (clearPlace sym cpu sp lp 8 (.own .byte)) v := rfl
  apply comes_block hext hat
  simp [lockClearSplx, merge_word, clearPlaces sym cpu sp lp, load_held, hself, hlock, hlevel, hlp]
  generalize hM : store _ (clearPlace sym cpu sp lp 32 .ret) _ = M
  have hret : word (clearPlace sym cpu sp lp) M .ret = 123#32 := by
    rw [← hM]
    apply word_store_self <;> norm_num
  have hbyte : word (clearPlace sym cpu sp lp) M (.own .byte) = 0#8 := by
    simp [← hM, word_store_other hspread, word_store_self]
  have hrest : word (clearPlace sym cpu sp lp) M .self = cpu ∧ word (clearPlace sym cpu sp lp) M .softinfo = 0#32 ∧
      word (clearPlace sym cpu sp lp) M .setspl = word (clearPlace sym cpu sp lp) m .setspl ∧
      word (clearPlace sym cpu sp lp) M .baseSpl = word (clearPlace sym cpu sp lp) m .baseSpl ∧
      word (clearPlace sym cpu sp lp) M .arg = word (clearPlace sym cpu sp lp) m .arg := by
    simp [← hM, word_store_other hspread, hself, hsoft]
  obtain ⟨hself', hsoft', hsetspl', hbase', harg'⟩ := hrest
  clear hM
  have hready : SplI386.Ready sym installed ext cpu (heldPlace sp lp) (sp - 4#32) M := by
    refine ⟨fun i hi => hext i ?_, hspread, hself', hsoft', ?_⟩
    · rw [Spl.length_code] at hi
      rw [length_code]
      omega
    · rw [hsetspl']
      exact hsetspl
  refine (comes_link Sum.inl_injective closed_spl (SplI386.comes_spl hready)).trans ?_
  rintro ⟨ip, ⟨⟨ax', cx', dx', bx', sp', bp', si', di', hi'⟩, fl', df', m'⟩⟩ ⟨hip, hkeeps, -, hpri, hwords⟩
  obtain ⟨hsp, hbx, hbp, hsi, hdi⟩ := hkeeps
  obtain rfl : ip = 123 := hip.trans (congrArg BitVec.toNat hret)
  have hslot : sp - 4#32 + 4#32 = sp := by bv_omega
  obtain rfl : sp' = sp := hsp.trans hslot
  have hback : load 32 m' sp' = load 32 m sp' := by
    have harg (m₀ : Mem 32) : word (clearPlace sym cpu sp' lp) m₀ .arg = load 32 m₀ sp' := by
      rw [word, clearPlace, SplI386.place, hslot]
    rw [← harg, ← harg]
    exact (hwords 32 .arg rfl rfl).trans harg'
  apply comes_block hext hat'
  simp [lockClearSplx]
  refine .here ⟨congrArg BitVec.toNat hback, ⟨rfl, hbx, hbp, hsi, hdi⟩, ?_, ?_⟩
  · exact (hwords 8 (.own .byte) rfl rfl).trans hbyte
  · rw [hbase'] at hpri
    exact hpri

def cpuPri (sym : Symbols) (cpu : BitVec 32) (m : Mem 32) : BitVec 32 := load 32 m (cpu + BitVec.ofInt 32 sym.cpuPri)

def cpuBaseSpl (sym : Symbols) (cpu : BitVec 32) (m : Mem 32) : BitVec 32 :=
  load 32 m (cpu + BitVec.ofInt 32 sym.cpuBaseSpl)

/-- `lock_set_spl(lp, new, &old)` is called on the CPU, the lock is free and no
soft interrupt is pending. -/
structure Setting (sym : Symbols) (installed : Bool) (ext : Nat → Option (State 32 → State 32))
    (cpu lp op : BitVec 32) (s : State 32) : Prop where
  inside : ∀ i < (code sym installed).length, ext i = none
  spread : Spread (place sym cpu s.regs.sp lp op)
  self : word (place sym cpu s.regs.sp lp op) s.mem .self = cpu
  soft : word (place sym cpu s.regs.sp lp op) s.mem .softinfo = 0#32
  setspl : SplI386.Outer sym cpu (s.regs.sp - 8#32) (ownPlace s.regs.sp lp op) ext
    (word (place sym cpu s.regs.sp lp op) s.mem .setspl)
  lock : word (place sym cpu s.regs.sp lp op) s.mem (.own .lock) = lp
  ptr : word (place sym cpu s.regs.sp lp op) s.mem (.own .oldPtr) = op
  free : load 8 s.mem lp = 0#8

/-- `lock_clear_splx(lp, old)` is called on the CPU, and no soft interrupt is
pending. -/
structure Clearing (sym : Symbols) (installed : Bool) (ext : Nat → Option (State 32 → State 32))
    (cpu lp : BitVec 32) (old : BitVec 16) (t : State 32) : Prop where
  inside : ∀ i < (code sym installed).length, ext i = none
  spread : Spread (clearPlace sym cpu t.regs.sp lp)
  self : word (clearPlace sym cpu t.regs.sp lp) t.mem .self = cpu
  soft : word (clearPlace sym cpu t.regs.sp lp) t.mem .softinfo = 0#32
  setspl : SplI386.Outer sym cpu (t.regs.sp - 4#32) (heldPlace t.regs.sp lp) ext
    (word (clearPlace sym cpu t.regs.sp lp) t.mem .setspl)
  lock : word (clearPlace sym cpu t.regs.sp lp) t.mem (.own .lock) = lp
  level : word (clearPlace sym cpu t.regs.sp lp) t.mem (.own .pil) = old.setWidth 32

theorem Setting.comes (h : Setting sym installed ext cpu lp op s) :
    Comes (code sym installed) ext
      (Acquired sym cpu lp op s (word (place sym cpu s.regs.sp lp op) s.mem (.own .newPil)))
      ⟨position .lockSetSpl, s⟩ := by
  obtain ⟨⟨ax, cx, dx, bx, sp, bp, si, di, hi⟩, fl, df, m⟩ := s
  exact comes_lockSetSpl h.inside h.spread h.self h.soft h.setspl h.lock rfl h.ptr h.free

theorem Clearing.comes {old : BitVec 16} (h : Clearing sym installed ext cpu lp old s) :
    Comes (code sym installed) ext (Released sym cpu lp s (old.setWidth 32)) ⟨position .lockClearSplx, s⟩ := by
  obtain ⟨⟨ax, cx, dx, bx, sp, bp, si, di, hi⟩, fl, df, m⟩ := s
  exact comes_lockClearSplx h.inside h.spread h.self h.soft h.setspl h.lock h.level

end SysvDev.LockPrim.I386
