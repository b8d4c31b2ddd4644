import SysvDev.Modstubs.I386

namespace SysvDev.Modstubs.Amd64

open X86.Memory X86.Machine X86.Machine.Att X86.Run X86.Cells X86.Words X86.Trace Inevitable
open I386 (MAXNARG Label)

abbrev Line := X86.Machine.Line Label

def stubsCommonCode : List Line :=
  [ .label .stubsCommonCode,
    pushq rbp,
    movq rsp rbp,
    subq (.imm 0x10) rsp,
    movq r15 (ind 0 .sp),
    movq rax r15,
    pushq rdi,
    pushq rsi,
    pushq rdx,
    pushq rcx,
    pushq r8,
    pushq r9,
    movq r15 rdi,
    .call .modHoldStub ]

def held : List Line :=
  [ cmpl (.imm (-1)) eax,
    jne .l1,
    movq (ind 0x18 .r15) rax,
    .callReg .ax ]

def failed : List Line :=
  [ addq (.imm 0x30) rsp,
    .jmp .l2 ]

def l1 : List Line :=
  [ .label .l1,
    popq .r9,
    popq .r8,
    popq .cx,
    popq .dx,
    popq .si,
    popq .di,
    movl (.imm (MAXNARG - 6 + 3)) r11,
    pushq (.place (.mem (.index 0 .sp .r11 8))),
    pushq (.place (.mem (.index 0 .sp .r11 8))),
    pushq (.place (.mem (.index 0 .sp .r11 8))),
    pushq (.place (.mem (.index 0 .sp .r11 8))),
    .callInd (.base 0 .r15) ]

def called : List Line :=
  [ addq (.imm 0x20) rsp,
    pushq rax,
    pushq rdx,
    movq r15 rdi,
    .call .modReleaseStub ]

def released : List Line :=
  [ popq .dx,
    popq .ax ]

def l2 : List Line :=
  [ .label .l2,
    popq .r15,
    .op .leave,
    .ret 0 ]

def code : List Line :=
  List.flatten [stubsCommonCode, held, failed, l1, called, released, l2, [.label .modHoldStub, .label .modReleaseStub]]

def position : Label → Nat
  | .stubsCommonCode => 0
  | .l1 => 20
  | .l2 => 40
  | .modHoldStub => 44
  | .modReleaseStub => 45

@[simp] theorem labelAddr_code (l : Label) : labelAddr code l = position l := by
  cases l <;> rfl

/-- The words of the frame, the arguments on the stack and the words of the
`mod_stub_info` that are read. -/
inductive Cell : Nat → Type
  | func : Cell 64
  | retfcn : Cell 64
  | arg (i : Fin 4) : Cell 64
  | ret : Cell 64
  | frame : Cell 64
  | r15 : Cell 64
  | slot (i : Fin 7) : Cell 64

/-- `sp` is the stack pointer at entry. -/
def place (info sp : BitVec 64) : ∀ n, Cell n → BitVec 64
  | _, .func => info
  | _, .retfcn => info + 0x18#64
  | _, .arg i => sp + BitVec.ofNat 64 (8 + 8 * i)
  | _, .ret => sp
  | _, .frame => sp - 8#64
  | _, .r15 => sp - 24#64
  | _, .slot i => sp - BitVec.ofNat 64 (32 + 8 * i)

def Cell.below {n : Nat} : Cell n → Bool
  | .ret | .frame | .r15 => true
  | _ => false

def Cell.saved {n : Nat} : Cell n → Bool
  | .arg _ => true
  | .slot i => i.val < 6
  | k => k.below

def Cell.result {n : Nat} : Cell n → Bool
  | .slot i => i.val < 2
  | k => k.below

/-- A routine returns as the ABI says, and keeps these words. -/
structure Answers (info sp : BitVec 64) (kept : ∀ {n}, Cell n → Bool) (s t : State 64) : Prop where
  keeps : Keeps64 s t
  words : ∀ n (k : Cell n), kept k = true → word (place info sp) t.mem k = word (place info sp) s.mem k

variable {info sp ax cx dx bx bp si di : BitVec 64} {hi : HighRegs 64} {fl : Flags} {df : Bool} {m : Mem 64}
  {ext : Nat → Option (State 64 → State 64)} {hold release : State 64 → State 64} {P : Traced 64 → Prop}
  {es : List (Cfg 64)}

def Failed (t : State 64) : Prop := t.regs.ax.setWidth 32 = BitVec.ofInt 32 (-1)

instance (t : State 64) : Decidable (Failed t) := inferInstanceAs (Decidable (_ = _))

/-- `mod_hold_stub` is called with the info pointer, and memory is as in `s` but
for the frame. -/
structure Entered (s u : State 64) : Prop where
  sp : u.regs.sp = s.regs.sp - 80#64
  di : u.regs.di = s.regs.ax
  rest : ∀ a, 80 ≤ (a - (s.regs.sp - 80#64)).toNat → u.mem a = s.mem a

/-- The routines outside of the text, for a stub that is called in `s`. The
function that is installed when `mod_hold_stub` returns, and the return function
of the stub, respect the ABI. -/
structure Outside (ext : Nat → Option (State 64 → State 64)) (hold release : State 64 → State 64) (s : State 64) :
    Prop where
  inside : ∀ i < position .modHoldStub, ext i = none
  atHold : ext (position .modHoldStub) = some hold
  atRelease : ext (position .modReleaseStub) = some release
  holds : ∀ u, Entered s u → Answers s.regs.ax s.regs.sp Cell.saved u (hold u)
  releases : ∀ u : State 64, u.regs.sp = s.regs.sp - 48#64 → Answers s.regs.ax s.regs.sp Cell.result u (release u)
  installed : ∀ u, Entered s u → ¬ Failed (hold u) → ∃ f, ext (load 64 (hold u).mem s.regs.ax).toNat = some f ∧
    ∀ v : State 64, v.regs.sp = s.regs.sp - 64#64 → Answers s.regs.ax s.regs.sp Cell.below v (f v)
  returns : ∀ u, Entered s u → Failed (hold u) → ∃ f, ext (load 64 (hold u).mem (s.regs.ax + 0x18#64)).toNat = some f ∧
    ∀ v : State 64, v.regs.sp = s.regs.sp - 80#64 → Answers s.regs.ax s.regs.sp Cell.below v (f v)

theorem places (info sp : BitVec 64) :
    sp - 8#64 = place info sp 64 .frame ∧
    place info sp 64 .frame - 16#64 = place info sp 64 .r15 ∧
    place info sp 64 .r15 - 8#64 = place info sp 64 (.slot 0) ∧
    place info sp 64 (.slot 0) - 8#64 = place info sp 64 (.slot 1) ∧
    place info sp 64 (.slot 1) - 8#64 = place info sp 64 (.slot 2) ∧
    place info sp 64 (.slot 2) - 8#64 = place info sp 64 (.slot 3) ∧
    place info sp 64 (.slot 3) - 8#64 = place info sp 64 (.slot 4) ∧
    place info sp 64 (.slot 4) - 8#64 = place info sp 64 (.slot 5) ∧
    place info sp 64 (.slot 5) - 8#64 = place info sp 64 (.slot 6) := by
  refine ⟨rfl, ?_, ?_, ?_, ?_, ?_, ?_, ?_, ?_⟩ <;>
  · simp only [place]
    bv_omega

structure Inside (s u : State 64) : Prop where
  bp : u.regs.bp = place s.regs.ax s.regs.sp 64 .frame
  r15 : u.regs.hi.r15 = s.regs.ax
  bx : u.regs.bx = s.regs.bx
  r12 : u.regs.hi.r12 = s.regs.hi.r12
  r13 : u.regs.hi.r13 = s.regs.hi.r13
  r14 : u.regs.hi.r14 = s.regs.hi.r14
  ret : word (place s.regs.ax s.regs.sp) u.mem .ret = word (place s.regs.ax s.regs.sp) s.mem .ret
  frame : word (place s.regs.ax s.regs.sp) u.mem .frame = s.regs.bp
  saved : word (place s.regs.ax s.regs.sp) u.mem .r15 = s.regs.hi.r15

variable {s u t : State 64}

theorem Inside.answers {kept : ∀ {n}, Cell n → Bool} (h : Inside s u)
    (ha : Answers s.regs.ax s.regs.sp kept u t) (hret : kept Cell.ret = true) (hframe : kept Cell.frame = true)
    (hr15 : kept Cell.r15 = true) : Inside s t where
  bp := ha.keeps.bp.trans h.bp
  r15 := ha.keeps.r15.trans h.r15
  bx := ha.keeps.bx.trans h.bx
  r12 := ha.keeps.r12.trans h.r12
  r13 := ha.keeps.r13.trans h.r13
  r14 := ha.keeps.r14.trans h.r14
  ret := (ha.words 64 .ret hret).trans h.ret
  frame := (ha.words 64 .frame hframe).trans h.frame
  saved := (ha.words 64 .r15 hr15).trans h.saved

theorem slot_add (info sp : BitVec 64) :
    place info sp 64 (.slot 6) + 8#64 = place info sp 64 (.slot 5) ∧
    place info sp 64 (.slot 5) + 8#64 = place info sp 64 (.slot 4) ∧
    place info sp 64 (.slot 4) + 8#64 = place info sp 64 (.slot 3) ∧
    place info sp 64 (.slot 3) + 8#64 = place info sp 64 (.slot 2) ∧
    place info sp 64 (.slot 2) + 8#64 = place info sp 64 (.slot 1) ∧
    place info sp 64 (.slot 1) + 8#64 = place info sp 64 (.slot 0) ∧
    place info sp 64 (.slot 0) + 8#64 = place info sp 64 .r15 ∧
    place info sp 64 (.slot 5) + 48#64 = place info sp 64 .r15 ∧
    place info sp 64 (.slot 3) + 32#64 = place info sp 64 .r15 := by
  refine ⟨?_, ?_, ?_, ?_, ?_, ?_, ?_, ?_, ?_⟩ <;>
  · simp only [place]
    bv_omega

def regArg (s : State 64) : Fin 6 → BitVec 64
  | 0 => s.regs.di
  | 1 => s.regs.si
  | 2 => s.regs.dx
  | 3 => s.regs.cx
  | 4 => s.regs.hi.r8
  | 5 => s.regs.hi.r9

/-- The arguments are where `stubs_common_code` has put them. -/
structure Stashed (s u : State 64) : Prop where
  inside : Inside s u
  args : ∀ i, word (place s.regs.ax s.regs.sp) u.mem (.arg i) = word (place s.regs.ax s.regs.sp) s.mem (.arg i)
  regs : ∀ i : Fin 6, word (place s.regs.ax s.regs.sp) u.mem (.slot i.castSucc) = regArg s i

theorem Stashed.answers (h : Stashed s u) (ha : Answers s.regs.ax s.regs.sp Cell.saved u t) : Stashed s t where
  inside := h.inside.answers ha rfl rfl rfl
  args i := (ha.words 64 (.arg i) rfl).trans (h.args i)
  regs i := (ha.words 64 (.slot i.castSucc) (by simp [Cell.saved])).trans (h.regs i)

def Cell.inFrame {n : Nat} : Cell n → Bool
  | .frame | .r15 | .slot _ => true
  | _ => false

theorem store_frame {n : Nat} {k : Cell n} {a : BitVec 64} {v : BitVec n} (hk : k.inFrame = true)
    (ha : 80 ≤ (a - (sp - 80#64)).toNat) : store m (place info sp n k) v a = m a := by
  rw [store, if_neg]
  simp only [BitVec.toNat_sub, BitVec.toNat_ofNat] at ha
  cases k with
  | frame | r15 =>
      simp only [place, BitVec.toNat_sub, BitVec.toNat_ofNat]
      omega
  | slot i =>
      simp only [place, BitVec.toNat_sub, BitVec.toNat_ofNat]
      omega
  | func | retfcn | arg | ret => cases hk

theorem traces_stubsCommonCode (hext : ∀ i < position .modHoldStub, ext i = none)
    (hspread : Spread (place s.regs.ax s.regs.sp))
    (h : ∀ u : State 64, Entered s u → Stashed s u → word (place s.regs.ax s.regs.sp) u.mem (.slot 6) = 14#64 →
      Traces code ext P ⟨⟨position .modHoldStub, u⟩, es⟩) :
    Traces code ext P ⟨⟨position .stubsCommonCode, s⟩, es⟩ := by
  obtain ⟨⟨ax, cx, dx, bx, sp, bp, si, di, hi⟩, fl, df, m⟩ := s
  have hat : At code (position .stubsCommonCode) stubsCommonCode := ⟨_, rfl⟩
  apply traces_lines (fun i _ hi => hext i (hi.trans_le (by decide))) hat
  simp [stubsCommonCode, merge_quad, places ax sp]
  refine h _ ⟨rfl, rfl, ?_⟩ ⟨?_, ?_, ?_⟩ ?_
  · intro a ha
    have hstore {k : Cell 64} {m' : Mem 64} {v : BitVec 64} (hk : k.inFrame = true) :
        store m' (place ax sp 64 k) v a = m' a := store_frame hk ha
    dsimp only
    iterate 9 rw [hstore (by rfl)]
  · constructor <;> simp [word_store_other hspread, word_store_self]
  · simp [word_store_other hspread]
  · intro i
    fin_cases i <;> simp [word_store_other hspread, word_store_self, regArg]
  · simp [word_store_self, position]

structure Returned (s : State 64) (ax dx : BitVec 64) (d : Cfg 64) : Prop where
  ip : d.ip = (load 64 s.mem s.regs.sp).toNat
  keeps : Keeps64 s d.state
  ax : d.state.regs.ax = ax
  dx : d.state.regs.dx = dx

theorem traces_l2 (hext : ∀ i < position .modHoldStub, ext i = none) (hin : Inside s t)
    (hsp : t.regs.sp = place s.regs.ax s.regs.sp 64 .r15)
    (h : ∀ d, Returned s t.regs.ax t.regs.dx d → Traces code ext P ⟨d, es⟩) : Traces code ext P ⟨⟨position .l2, t⟩, es⟩ := by
  obtain ⟨⟨ax, cx, dx, bx, sp, bp, si, di, hi⟩, fl, df, m⟩ := t
  obtain rfl : sp = _ := hsp
  obtain rfl : bp = _ := hin.bp
  have hat : At code (position .l2) l2 := ⟨_, rfl⟩
  have hback : place s.regs.ax s.regs.sp 64 .frame + 8#64 = place s.regs.ax s.regs.sp 64 .ret := by
    simp only [place]
    bv_omega
  apply traces_lines (fun i _ hi => hext i (hi.trans_le (by decide))) hat
  simp [l2, merge_quad, load_place (place _ _), hback, hin.frame, hin.saved, hin.ret]
  refine h _ ⟨rfl, ?_, rfl, rfl⟩
  exact ⟨rfl, hin.bx, rfl, hin.r12, hin.r13, hin.r14, rfl⟩

theorem traces_held_failed (hext : ∀ i < position .modHoldStub, ext i = none)
    (hspread : Spread (place s.regs.ax s.regs.sp)) (hin : Inside s t) (hfailed : Failed t)
    (hsp : t.regs.sp = place s.regs.ax s.regs.sp 64 (.slot 5))
    (h : ∀ v : State 64, Inside s v → v.regs.sp = place s.regs.ax s.regs.sp 64 (.slot 6) →
      word (place s.regs.ax s.regs.sp) v.mem (.slot 6) = 18#64 →
      Traces code ext P ⟨⟨(word (place s.regs.ax s.regs.sp) t.mem .retfcn).toNat, v⟩, es⟩) :
    Traces code ext P ⟨⟨14, t⟩, es⟩ := by
  obtain ⟨⟨ax, cx, dx, bx, sp, bp, si, di, hi⟩, fl, df, m⟩ := t
  obtain rfl : sp = _ := hsp
  obtain ⟨hbp, h15, hbx, h12, h13, h14, hret, hframe, hsaved⟩ := hin
  have hat : At code 14 held := ⟨_, rfl⟩
  have hretfcn : s.regs.ax + 24#64 = place s.regs.ax s.regs.sp 64 .retfcn := rfl
  have hfail : ax.setWidth 32 = 4294967295#32 := hfailed
  dsimp only at hbp h15 hbx h12 h13 h14 hret hframe hsaved
  apply traces_lines (fun i _ hi => hext i (hi.trans_le (by decide))) hat
  simp [held, merge_quad, places, h15, hretfcn, load_place (place _ _), hfail]
  refine h _ ?_ rfl ?_
  · constructor <;> simp [word_store_other hspread, *]
  · simp [word_store_self]

theorem traces_failed (hext : ∀ i < position .modHoldStub, ext i = none) (hin : Inside s t)
    (hsp : t.regs.sp = place s.regs.ax s.regs.sp 64 (.slot 5))
    (h : ∀ d, Returned s t.regs.ax t.regs.dx d → Traces code ext P ⟨d, es⟩) : Traces code ext P ⟨⟨18, t⟩, es⟩ := by
  obtain ⟨⟨ax, cx, dx, bx, sp, bp, si, di, hi⟩, fl, df, m⟩ := t
  obtain rfl : sp = _ := hsp
  have hat : At code 18 failed := ⟨_, rfl⟩
  apply traces_lines (fun i _ hi => hext i (hi.trans_le (by decide))) hat
  simp [failed, merge_quad, slot_add s.regs.ax s.regs.sp]
  exact traces_l2 hext { hin with } rfl h

theorem slot_index (info sp : BitVec 64) :
    place info sp 64 .r15 + 56#64 = place info sp 64 (.arg 3) ∧
    place info sp 64 (.slot 0) + 56#64 = place info sp 64 (.arg 2) ∧
    place info sp 64 (.slot 1) + 56#64 = place info sp 64 (.arg 1) ∧
    place info sp 64 (.slot 2) + 56#64 = place info sp 64 (.arg 0) := by
  refine ⟨?_, ?_, ?_, ?_⟩ <;>
  · simp only [place]
    bv_omega

theorem slot_args (info sp : BitVec 64) :
    place info sp 64 (.slot 4) + 8#64 = place info sp 64 (.slot 3) ∧
    place info sp 64 (.slot 4) + 16#64 = place info sp 64 (.slot 2) ∧
    place info sp 64 (.slot 4) + 24#64 = place info sp 64 (.slot 1) ∧
    place info sp 64 (.slot 4) + 32#64 = place info sp 64 (.slot 0) := by
  refine ⟨?_, ?_, ?_, ?_⟩ <;>
  · simp only [place]
    bv_omega

def arg (s : State 64) (i : Fin 10) : BitVec 64 :=
  if h : i < 6 then regArg s (i.castLT h) else load 64 s.mem (s.regs.sp + BitVec.ofNat 64 (8 * (i - 5)))

theorem traces_held (hext : ∀ i < position .modHoldStub, ext i = none)
    (hspread : Spread (place s.regs.ax s.regs.sp)) (hin : Stashed s t) (hheld : ¬ Failed t)
    (hsp : t.regs.sp = place s.regs.ax s.regs.sp 64 (.slot 5))
    (h : ∀ v : State 64, Inside s v → v.regs.sp = place s.regs.ax s.regs.sp 64 (.slot 4) →
      word (place s.regs.ax s.regs.sp) v.mem (.slot 4) = 33#64 → (∀ i, arg v i = arg s i) →
      Traces code ext P ⟨⟨(word (place s.regs.ax s.regs.sp) t.mem .func).toNat, v⟩, es⟩) :
    Traces code ext P ⟨⟨14, t⟩, es⟩ := by
  obtain ⟨⟨ax, cx, dx, bx, sp, bp, si, di, hi⟩, fl, df, m⟩ := t
  obtain rfl : sp = _ := hsp
  obtain ⟨⟨hbp, h15, hbx, h12, h13, h14, hret, hframe, hsaved⟩, hargs, hregs⟩ := hin
  have hat : At code 14 held := ⟨_, rfl⟩
  have hat' : At code (position .l1) l1 := ⟨_, rfl⟩
  have hfunc (m' : Mem 64) : load 64 m' s.regs.ax = word (place s.regs.ax s.regs.sp) m' .func := rfl
  have hfail : ax.setWidth 32 ≠ 4294967295#32 := hheld
  dsimp only at hbp h15 hbx h12 h13 h14 hret hframe hsaved hargs hregs
  apply traces_lines (fun i _ hi => hext i (hi.trans_le (by decide))) hat
  simp [held, hfail]
  apply traces_lines (fun i _ hi => hext i (hi.trans_le (by decide))) hat'
  simp [l1, MAXNARG, merge_quad, merge_long, places, slot_add, slot_index, load_place (place _ _), h15, hfunc,
    word_store_other hspread, hargs]
  refine h _ ?_ rfl ?_ ?_
  · constructor <;> simp [word_store_other hspread, *]
  · simp [word_store_self, position]
  · intro i
    by_cases hreg : i < 6
    · rw [arg, arg, dif_pos hreg, dif_pos hreg, ← hregs]
      generalize i.castLT hreg = j
      fin_cases j <;> rfl
    · rw [arg, arg, dif_neg hreg, dif_neg hreg]
      fin_cases i
      all_goals simp [slot_args, load_place (place _ _), word_store_other hspread, word_store_self] at hreg ⊢
      all_goals rfl

theorem traces_called (hext : ∀ i < position .modHoldStub, ext i = none)
    (hspread : Spread (place s.regs.ax s.regs.sp)) (hin : Inside s t)
    (hsp : t.regs.sp = place s.regs.ax s.regs.sp 64 (.slot 3))
    (h : ∀ v : State 64, Inside s v → v.regs.sp = place s.regs.ax s.regs.sp 64 (.slot 2) → v.regs.di = s.regs.ax →
      word (place s.regs.ax s.regs.sp) v.mem (.slot 2) = 38#64 →
      word (place s.regs.ax s.regs.sp) v.mem (.slot 0) = t.regs.ax →
      word (place s.regs.ax s.regs.sp) v.mem (.slot 1) = t.regs.dx →
      Traces code ext P ⟨⟨position .modReleaseStub, v⟩, es⟩) :
    Traces code ext P ⟨⟨33, t⟩, es⟩ := by
  obtain ⟨⟨ax, cx, dx, bx, sp, bp, si, di, hi⟩, fl, df, m⟩ := t
  obtain rfl : sp = _ := hsp
  obtain ⟨hbp, h15, hbx, h12, h13, h14, hret, hframe, hsaved⟩ := hin
  have hat : At code 33 called := ⟨_, rfl⟩
  dsimp only at hbp h15 hbx h12 h13 h14 hret hframe hsaved
  apply traces_lines (fun i _ hi => hext i (hi.trans_le (by decide))) hat
  simp [called, merge_quad, places, slot_add, h15]
  refine h _ ?_ rfl rfl ?_ ?_ ?_
  · constructor <;> simp [word_store_other hspread, *]
  all_goals simp [word_store_other hspread, word_store_self]

theorem traces_released (hext : ∀ i < position .modHoldStub, ext i = none) (hin : Inside s t)
    (hsp : t.regs.sp = place s.regs.ax s.regs.sp 64 (.slot 1))
    (h : ∀ d, Returned s (word (place s.regs.ax s.regs.sp) t.mem (.slot 0))
      (word (place s.regs.ax s.regs.sp) t.mem (.slot 1)) d → Traces code ext P ⟨d, es⟩) :
    Traces code ext P ⟨⟨38, t⟩, es⟩ := by
  obtain ⟨⟨ax, cx, dx, bx, sp, bp, si, di, hi⟩, fl, df, m⟩ := t
  obtain rfl : sp = _ := hsp
  have hat : At code 38 released := ⟨_, rfl⟩
  apply traces_lines (fun i _ hi => hext i (hi.trans_le (by decide))) hat
  simp [released, merge_quad, slot_add s.regs.ax s.regs.sp, load_place (place _ _)]
  apply traces_l2 hext
  · exact ⟨hin.bp, hin.r15, hin.bx, hin.r12, hin.r13, hin.r14, hin.ret, hin.frame, hin.saved⟩
  · rfl
  · exact fun d hd => h d hd

/-- The stack is aligned at the call that has entered a routine. -/
def Aligned (s : State 64) : Prop := (s.regs.sp + 8#64).toNat % 16 = 0

theorem Aligned.sub (h : Aligned s) {k : Nat} (hk : k % 16 = 0) (hu : u.regs.sp = s.regs.sp - BitVec.ofNat 64 k) :
    Aligned u := by
  have hlt := s.regs.sp.isLt
  rw [Aligned] at h ⊢
  rw [hu]
  simp only [BitVec.toNat_add, BitVec.toNat_sub, BitVec.toNat_ofNat] at h ⊢
  omega

/-- The call of `mod_hold_stub` in `u`. When it fails the return function of the
stub is called and gives the results. If not, the function that is installed is
called with the arguments of `s`, then `mod_release_stub`, and the results are
those of the function. Where `s` has the alignment of the ABI, so has each
call. -/
def Transparent (ext : Nat → Option (State 64 → State 64)) (hold : State 64 → State 64) (s : State 64) (d : Traced 64) :
    Prop :=
  ∃ u, u.regs.di = s.regs.ax ∧ (Aligned s → Aligned u) ∧
    if Failed (hold u) then
      ∃ v f, ext (load 64 (hold u).mem (s.regs.ax + 0x18#64)).toNat = some f ∧
        d.calls = [⟨position .modHoldStub, u⟩, ⟨(load 64 (hold u).mem (s.regs.ax + 0x18#64)).toNat, v⟩] ∧
        (Aligned s → Aligned v) ∧ Returned s (f v).regs.ax (f v).regs.dx d.cfg
    else
      ∃ v x f, ext (load 64 (hold u).mem s.regs.ax).toNat = some f ∧
        d.calls = [⟨position .modHoldStub, u⟩, ⟨(load 64 (hold u).mem s.regs.ax).toNat, v⟩,
          ⟨position .modReleaseStub, x⟩] ∧
        (∀ i, arg v i = arg s i) ∧ x.regs.di = s.regs.ax ∧ (Aligned s → Aligned v ∧ Aligned x) ∧
        Returned s (f v).regs.ax (f v).regs.dx d.cfg

theorem traces_transparent (hout : Outside ext hold release s)
    (hspread : Spread (place s.regs.ax s.regs.sp)) :
    Traces code ext (Transparent ext hold s) ⟨⟨position .stubsCommonCode, s⟩, []⟩ := by
  apply traces_stubsCommonCode hout.inside hspread
  intro u hentered hu hucall
  have husp : u.regs.sp = place s.regs.ax s.regs.sp 64 (.slot 6) := hentered.sp
  have hanswers : Answers s.regs.ax s.regs.sp Cell.saved u (hold u) := hout.holds u hentered
  have hsp : (hold u).regs.sp = place s.regs.ax s.regs.sp 64 (.slot 5) := by
    rw [hanswers.keeps.sp, husp, (slot_add _ _).1]
  have hback : (u.pop 0).1.toNat = 14 := by
    rw [State.pop, husp, load_place (place _ _), hucall]
    rfl
  have haligned (h : Aligned s) : Aligned u := h.sub (k := 80) rfl husp
  apply traces_extern hout.atHold
  rw [hback, List.nil_append]
  by_cases hfailed : Failed (hold u)
  · obtain ⟨f, hf, hanswer⟩ := hout.returns u hentered hfailed
    apply traces_held_failed hout.inside hspread (hu.answers hanswers).inside hfailed hsp
    intro v hv hvsp hvcall
    have hanswers' := hanswer v hvsp
    have hsp' : (f v).regs.sp = place s.regs.ax s.regs.sp 64 (.slot 5) := by
      rw [hanswers'.keeps.sp, hvsp, (slot_add _ _).1]
    have hback' : (v.pop 0).1.toNat = 18 := by
      rw [State.pop, hvsp, load_place (place _ _), hvcall]
      rfl
    apply traces_extern hf
    rw [hback']
    refine traces_failed hout.inside (hv.answers hanswers' rfl rfl rfl) hsp' fun d hd => .here ?_
    refine ⟨u, hentered.di, haligned, ?_⟩
    rw [if_pos hfailed]
    exact ⟨v, f, hf, rfl, fun h => h.sub (k := 80) rfl hvsp, hd⟩
  · obtain ⟨f, hf, hanswer⟩ := hout.installed u hentered hfailed
    apply traces_held hout.inside hspread (hu.answers hanswers) hfailed hsp
    intro v hv hvsp hvcall hvargs
    have hanswers' := hanswer v hvsp
    have hsp' : (f v).regs.sp = place s.regs.ax s.regs.sp 64 (.slot 3) := by
      rw [hanswers'.keeps.sp, hvsp, (slot_args _ _).1]
    have hback' : (v.pop 0).1.toNat = 33 := by
      rw [State.pop, hvsp, load_place (place _ _), hvcall]
      rfl
    apply traces_extern hf
    rw [hback']
    apply traces_called hout.inside hspread (hv.answers hanswers' rfl rfl rfl) hsp'
    intro x hx hxsp hxdi hxcall hxax hxdx
    have hreleases := hout.releases x hxsp
    have hback'' : (x.pop 0).1.toNat = 38 := by
      rw [State.pop, hxsp, load_place (place _ _), hxcall]
      rfl
    have hsp'' : (release x).regs.sp = place s.regs.ax s.regs.sp 64 (.slot 1) := by
      rw [hreleases.keeps.sp, hxsp, (slot_add _ _).2.2.2.2.1]
    apply traces_extern hout.atRelease
    rw [hback'']
    refine traces_released hout.inside (hx.answers hreleases rfl rfl rfl) hsp'' fun d hd => .here ?_
    rw [hreleases.words 64 (.slot 0) rfl, hreleases.words 64 (.slot 1) rfl, hxax, hxdx] at hd
    refine ⟨u, hentered.di, haligned, ?_⟩
    rw [if_neg hfailed]
    refine ⟨v, x, f, hf, rfl, hvargs, hxdi, fun h => ⟨?_, ?_⟩, hd⟩
    · exact h.sub (k := 64) rfl hvsp
    · exact h.sub (k := 48) rfl hxsp

end SysvDev.Modstubs.Amd64
