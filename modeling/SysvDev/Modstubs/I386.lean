import SysvDev.X86.Trace
import Mathlib.Tactic.FinCases

namespace SysvDev.Modstubs.I386

open X86.Memory X86.Machine X86.Machine.Att X86.Run X86.Cells X86.Words X86.Trace Inevitable

def MAXNARG : Int := 10

inductive Label
  | stubsCommonCode | l1 | l2 | modHoldStub | modReleaseStub
  deriving DecidableEq

abbrev Line := X86.Machine.Line Label

def stubsCommonCode : List Line :=
  [ .label .stubsCommonCode,
    pushl esi,
    movl eax esi,
    pushl eax,
    .call .modHoldStub ]

/-- `MODS_RETFCN` comes from `assym.h`. -/
def held (modsRetfcn : Int) : List Line :=
  [ popl .cx,
    cmpl (.imm (-1)) eax,
    jne .l1,
    movl (ind modsRetfcn .si) eax,
    .callReg .ax ]

def failed : List Line :=
  [ popl .si,
    .ret 0 ]

def l1 : List Line :=
  [ .label .l1,
    movl (.imm (MAXNARG + 1)) ecx,
    pushl (.place (.mem (.index 0 .sp .cx 4))),
    pushl (.place (.mem (.index 0 .sp .cx 4))),
    pushl (.place (.mem (.index 0 .sp .cx 4))),
    pushl (.place (.mem (.index 0 .sp .cx 4))),
    pushl (.place (.mem (.index 0 .sp .cx 4))),
    pushl (.place (.mem (.index 0 .sp .cx 4))),
    pushl (.place (.mem (.index 0 .sp .cx 4))),
    pushl (.place (.mem (.index 0 .sp .cx 4))),
    pushl (.place (.mem (.index 0 .sp .cx 4))),
    pushl (.place (.mem (.index 0 .sp .cx 4))),
    .callInd (.base 0 .si) ]

def called : List Line :=
  [ addl (.imm (MAXNARG * 4)) esp,
    pushl eax,
    pushl edx,
    pushl esi,
    .call .modReleaseStub ]

def released : List Line :=
  [ addl (.imm 4) esp,
    popl .dx,
    popl .ax ]

def l2 : List Line :=
  [ .label .l2,
    popl .si,
    .ret 0 ]

def code (modsRetfcn : Int) : List Line :=
  List.flatten [stubsCommonCode, held modsRetfcn, failed, l1, called, released, l2,
    [.label .modHoldStub, .label .modReleaseStub]]

def position : Label → Nat
  | .stubsCommonCode => 0
  | .l1 => 12
  | .l2 => 33
  | .modHoldStub => 36
  | .modReleaseStub => 37

variable {off : Int}

@[simp] theorem labelAddr_code (l : Label) : labelAddr (code off) l = position l := by
  cases l <;> rfl

/-- The words of the frame, the arguments and the words of the `mod_stub_info`
that are read. -/
inductive Cell : Nat → Type
  | func : Cell 32
  | retfcn : Cell 32
  | arg (i : Fin 10) : Cell 32
  | ret : Cell 32
  | esi : Cell 32
  | slot (i : Fin 11) : Cell 32

/-- `sp` is the stack pointer at entry, and `off` is `MODS_RETFCN`. -/
def place (off : Int) (info sp : BitVec 32) : ∀ n, Cell n → BitVec 32
  | _, .func => info
  | _, .retfcn => info + BitVec.ofInt 32 off
  | _, .arg i => sp + BitVec.ofNat 32 (4 + 4 * i)
  | _, .ret => sp
  | _, .esi => sp - 4#32
  | _, .slot i => sp - BitVec.ofNat 32 (8 + 4 * i)

/-- What every routine keeps that is called. -/
def Cell.below {n : Nat} : Cell n → Bool
  | .ret | .esi => true
  | _ => false

/-- What `mod_hold_stub` keeps. -/
def Cell.saved {n : Nat} : Cell n → Bool
  | .arg _ => true
  | k => k.below

/-- What `mod_release_stub` keeps. -/
def Cell.result {n : Nat} : Cell n → Bool
  | .slot i => i.val < 2
  | k => k.below

/-- A routine returns as the ABI says, and keeps these words. -/
structure Answers (off : Int) (info sp : BitVec 32) (kept : ∀ {n}, Cell n → Bool) (s t : State 32) : Prop where
  keeps : Keeps32 s t
  words : ∀ n (k : Cell n), kept k = true → word (place off info sp) t.mem k = word (place off info sp) s.mem k

def Failed (t : State 32) : Prop := t.regs.ax = BitVec.ofInt 32 (-1)

instance (t : State 32) : Decidable (Failed t) := inferInstanceAs (Decidable (_ = _))

def arg (s : State 32) (i : Fin 10) : BitVec 32 := load 32 s.mem (s.regs.sp + BitVec.ofNat 32 (4 + 4 * i))

/-- `mod_hold_stub` is called with the info pointer, and memory is as in `s` but
for the frame. -/
structure Entered (s u : State 32) : Prop where
  sp : u.regs.sp = s.regs.sp - 12#32
  info : arg u 0 = s.regs.ax
  rest : ∀ a, 12 ≤ (a - (s.regs.sp - 12#32)).toNat → u.mem a = s.mem a

/-- The routines outside of the text, for a stub that is called in `s`. The
function that is installed when `mod_hold_stub` returns, and the return function
of the stub, respect the ABI. -/
structure Outside (off : Int) (ext : Nat → Option (State 32 → State 32)) (hold release : State 32 → State 32)
    (s : State 32) : Prop where
  inside : ∀ i < position .modHoldStub, ext i = none
  atHold : ext (position .modHoldStub) = some hold
  atRelease : ext (position .modReleaseStub) = some release
  holds : ∀ u, Entered s u → Answers off s.regs.ax s.regs.sp Cell.saved u (hold u)
  releases : ∀ u : State 32, u.regs.sp = s.regs.sp - 20#32 →
    Answers off s.regs.ax s.regs.sp Cell.result u (release u)
  installed : ∀ u, Entered s u → ¬ Failed (hold u) → ∃ f, ext (load 32 (hold u).mem s.regs.ax).toNat = some f ∧
    ∀ v : State 32, v.regs.sp = s.regs.sp - 48#32 → Answers off s.regs.ax s.regs.sp Cell.below v (f v)
  returns : ∀ u, Entered s u → Failed (hold u) →
    ∃ f, ext (load 32 (hold u).mem (s.regs.ax + BitVec.ofInt 32 off)).toNat = some f ∧
      ∀ v : State 32, v.regs.sp = s.regs.sp - 8#32 → Answers off s.regs.ax s.regs.sp Cell.below v (f v)

variable {ext : Nat → Option (State 32 → State 32)} {hold release : State 32 → State 32} {P : Traced 32 → Prop}
  {es : List (Cfg 32)} {s u t : State 32} {m : Mem 32} {info sp : BitVec 32}

theorem places (off : Int) (info sp : BitVec 32) :
    sp - 4#32 = place off info sp 32 .esi ∧
    place off info sp 32 .esi - 4#32 = place off info sp 32 (.slot 0) ∧
    place off info sp 32 (.slot 0) - 4#32 = place off info sp 32 (.slot 1) ∧
    place off info sp 32 (.slot 1) - 4#32 = place off info sp 32 (.slot 2) ∧
    place off info sp 32 (.slot 2) - 4#32 = place off info sp 32 (.slot 3) ∧
    place off info sp 32 (.slot 3) - 4#32 = place off info sp 32 (.slot 4) ∧
    place off info sp 32 (.slot 4) - 4#32 = place off info sp 32 (.slot 5) ∧
    place off info sp 32 (.slot 5) - 4#32 = place off info sp 32 (.slot 6) ∧
    place off info sp 32 (.slot 6) - 4#32 = place off info sp 32 (.slot 7) ∧
    place off info sp 32 (.slot 7) - 4#32 = place off info sp 32 (.slot 8) ∧
    place off info sp 32 (.slot 8) - 4#32 = place off info sp 32 (.slot 9) ∧
    place off info sp 32 (.slot 9) - 4#32 = place off info sp 32 (.slot 10) := by
  refine ⟨rfl, ?_, ?_, ?_, ?_, ?_, ?_, ?_, ?_, ?_, ?_, ?_⟩ <;>
  · simp only [place]
    bv_omega

/-- The frame of a call that was entered in `s`. -/
structure Inside (off : Int) (s u : State 32) : Prop where
  si : u.regs.si = s.regs.ax
  bx : u.regs.bx = s.regs.bx
  bp : u.regs.bp = s.regs.bp
  di : u.regs.di = s.regs.di
  ret : word (place off s.regs.ax s.regs.sp) u.mem .ret = word (place off s.regs.ax s.regs.sp) s.mem .ret
  saved : word (place off s.regs.ax s.regs.sp) u.mem .esi = s.regs.si

theorem Inside.answers {kept : ∀ {n}, Cell n → Bool} (h : Inside off s u)
    (ha : Answers off s.regs.ax s.regs.sp kept u t) (hret : kept Cell.ret = true) (hesi : kept Cell.esi = true) :
    Inside off s t where
  si := ha.keeps.si.trans h.si
  bx := ha.keeps.bx.trans h.bx
  bp := ha.keeps.bp.trans h.bp
  di := ha.keeps.di.trans h.di
  ret := (ha.words 32 .ret hret).trans h.ret
  saved := (ha.words 32 .esi hesi).trans h.saved

/-- The arguments are still where the caller has put them. -/
structure Stashed (off : Int) (s u : State 32) : Prop where
  inside : Inside off s u
  args : ∀ i, word (place off s.regs.ax s.regs.sp) u.mem (.arg i) = word (place off s.regs.ax s.regs.sp) s.mem (.arg i)

theorem Stashed.answers (h : Stashed off s u) (ha : Answers off s.regs.ax s.regs.sp Cell.saved u t) :
    Stashed off s t where
  inside := h.inside.answers ha rfl rfl
  args i := (ha.words 32 (.arg i) rfl).trans (h.args i)

theorem slot_add (off : Int) (info sp : BitVec 32) :
    place off info sp 32 (.slot 10) + 4#32 = place off info sp 32 (.slot 9) ∧
    place off info sp 32 (.slot 3) + 4#32 = place off info sp 32 (.slot 2) ∧
    place off info sp 32 (.slot 2) + 4#32 = place off info sp 32 (.slot 1) ∧
    place off info sp 32 (.slot 1) + 4#32 = place off info sp 32 (.slot 0) ∧
    place off info sp 32 (.slot 0) + 4#32 = place off info sp 32 .esi ∧
    place off info sp 32 .esi + 4#32 = place off info sp 32 .ret ∧
    place off info sp 32 (.slot 9) + 40#32 = place off info sp 32 .esi := by
  refine ⟨?_, ?_, ?_, ?_, ?_, ?_, ?_⟩ <;>
  · simp only [place]
    bv_omega

theorem store_frame {k : Nat} {a v : BitVec 32} (hk : 4 ≤ k) (hle : k ≤ 12) (ha : 12 ≤ (a - (sp - 12#32)).toNat) :
    store m (sp - BitVec.ofNat 32 k) v a = m a := by
  rw [store, if_neg]
  simp only [BitVec.toNat_sub, BitVec.toNat_ofNat] at ha ⊢
  omega

theorem traces_stubsCommonCode (hext : ∀ i < position .modHoldStub, ext i = none)
    (hspread : Spread (place off s.regs.ax s.regs.sp))
    (h : ∀ u, Entered s u → Stashed off s u → word (place off s.regs.ax s.regs.sp) u.mem (.slot 1) = 5#32 →
      Traces (code off) ext P ⟨⟨position .modHoldStub, u⟩, es⟩) :
    Traces (code off) ext P ⟨⟨position .stubsCommonCode, s⟩, es⟩ := by
  obtain ⟨⟨ax, cx, dx, bx, sp, bp, si, di, hi⟩, fl, df, m⟩ := s
  have hat : At (code off) (position .stubsCommonCode) stubsCommonCode := ⟨_, rfl⟩
  apply traces_lines (fun i _ hi => hext i (hi.trans_le (by decide))) hat
  simp [stubsCommonCode, merge_word, places off ax sp]
  refine h _ ⟨rfl, ?_, ?_⟩ ⟨?_, ?_⟩ ?_
  · have hslot : place off ax sp 32 (.slot 1) + 4#32 = place off ax sp 32 (.slot 0) := (slot_add off ax sp).2.2.2.1
    simp [arg, hslot, load_place (place _ _ _), word_store_other hspread, word_store_self]
  · intro a ha
    have hstore {k : Nat} {m' : Mem 32} {v : BitVec 32} (hk : 4 ≤ k) (hle : k ≤ 12) :
        store m' (sp - BitVec.ofNat 32 k) v a = m' a := store_frame hk hle ha
    exact (hstore (k := 12) (by decide) le_rfl).trans ((hstore (k := 8) (by decide) (by decide)).trans
      (hstore (k := 4) le_rfl (by decide)))
  · constructor <;> simp [word_store_other hspread, word_store_self]
  all_goals simp [word_store_other hspread, word_store_self, position]

structure Returned (s : State 32) (ax dx : BitVec 32) (d : Cfg 32) : Prop where
  ip : d.ip = (load 32 s.mem s.regs.sp).toNat
  keeps : Keeps32 s d.state
  ax : d.state.regs.ax = ax
  dx : d.state.regs.dx = dx

theorem traces_held_failed (hext : ∀ i < position .modHoldStub, ext i = none)
    (hspread : Spread (place off s.regs.ax s.regs.sp)) (hin : Inside off s t) (hfailed : Failed t)
    (hsp : t.regs.sp = place off s.regs.ax s.regs.sp 32 (.slot 0))
    (h : ∀ v : State 32, Inside off s v → v.regs.sp = place off s.regs.ax s.regs.sp 32 (.slot 0) →
      word (place off s.regs.ax s.regs.sp) v.mem (.slot 0) = 10#32 →
      Traces (code off) ext P ⟨⟨(word (place off s.regs.ax s.regs.sp) t.mem .retfcn).toNat, v⟩, es⟩) :
    Traces (code off) ext P ⟨⟨5, t⟩, es⟩ := by
  obtain ⟨⟨ax, cx, dx, bx, sp, bp, si, di, hi⟩, fl, df, m⟩ := t
  obtain rfl : sp = _ := hsp
  obtain ⟨hsi, hbx, hbp, hdi, hret, hsaved⟩ := hin
  have hat : At (code off) 5 (held off) := ⟨_, rfl⟩
  have hretfcn : s.regs.ax + BitVec.ofInt 32 off = place off s.regs.ax s.regs.sp 32 .retfcn := rfl
  have hfail : ax = 4294967295#32 := hfailed
  dsimp only at hsi hbx hbp hdi hret hsaved
  apply traces_lines (fun i _ hi => hext i (hi.trans_le (Nat.le_of_ble_eq_true rfl))) hat
  simp [held, merge_word, places, slot_add, hsi, hretfcn, load_place (place _ _ _), hfail]
  refine h _ ?_ rfl ?_
  · constructor <;> simp [word_store_other hspread, *]
  · simp [word_store_self]

theorem traces_failed (hext : ∀ i < position .modHoldStub, ext i = none) (hin : Inside off s t)
    (hsp : t.regs.sp = place off s.regs.ax s.regs.sp 32 .esi)
    (h : ∀ d, Returned s t.regs.ax t.regs.dx d → Traces (code off) ext P ⟨d, es⟩) :
    Traces (code off) ext P ⟨⟨10, t⟩, es⟩ := by
  obtain ⟨⟨ax, cx, dx, bx, sp, bp, si, di, hi⟩, fl, df, m⟩ := t
  obtain rfl : sp = _ := hsp
  have hat : At (code off) 10 failed := ⟨_, rfl⟩
  apply traces_lines (fun i _ hi => hext i (hi.trans_le (by decide))) hat
  simpa [failed, merge_word, slot_add off s.regs.ax s.regs.sp, load_place (place _ _ _), hin.saved, hin.ret] using
    h _ ⟨rfl, ⟨rfl, hin.bx, hin.bp, rfl, hin.di⟩, rfl, rfl⟩

theorem traces_l2 (hext : ∀ i < position .modHoldStub, ext i = none) (hin : Inside off s t)
    (hsp : t.regs.sp = place off s.regs.ax s.regs.sp 32 .esi)
    (h : ∀ d, Returned s t.regs.ax t.regs.dx d → Traces (code off) ext P ⟨d, es⟩) :
    Traces (code off) ext P ⟨⟨position .l2, t⟩, es⟩ := by
  obtain ⟨⟨ax, cx, dx, bx, sp, bp, si, di, hi⟩, fl, df, m⟩ := t
  obtain rfl : sp = _ := hsp
  have hat : At (code off) (position .l2) l2 := ⟨_, rfl⟩
  apply traces_lines (fun i _ hi => hext i (hi.trans_le (by decide))) hat
  simpa [l2, merge_word, slot_add off s.regs.ax s.regs.sp, load_place (place _ _ _), hin.saved, hin.ret] using
    h _ ⟨rfl, ⟨rfl, hin.bx, hin.bp, rfl, hin.di⟩, rfl, rfl⟩

theorem slot_index (off : Int) (info sp : BitVec 32) :
    place off info sp 32 .esi + 44#32 = place off info sp 32 (.arg 9) ∧
    place off info sp 32 (.slot 0) + 44#32 = place off info sp 32 (.arg 8) ∧
    place off info sp 32 (.slot 1) + 44#32 = place off info sp 32 (.arg 7) ∧
    place off info sp 32 (.slot 2) + 44#32 = place off info sp 32 (.arg 6) ∧
    place off info sp 32 (.slot 3) + 44#32 = place off info sp 32 (.arg 5) ∧
    place off info sp 32 (.slot 4) + 44#32 = place off info sp 32 (.arg 4) ∧
    place off info sp 32 (.slot 5) + 44#32 = place off info sp 32 (.arg 3) ∧
    place off info sp 32 (.slot 6) + 44#32 = place off info sp 32 (.arg 2) ∧
    place off info sp 32 (.slot 7) + 44#32 = place off info sp 32 (.arg 1) ∧
    place off info sp 32 (.slot 8) + 44#32 = place off info sp 32 (.arg 0) := by
  refine ⟨?_, ?_, ?_, ?_, ?_, ?_, ?_, ?_, ?_, ?_⟩ <;>
  · simp only [place]
    bv_omega

theorem arg_slot (off : Int) (info sp : BitVec 32) (hsp : u.regs.sp = place off info sp 32 (.slot 10)) (i : Fin 10) :
    arg u i = word (place off info sp) u.mem (.slot (i.rev.castSucc)) := by
  have haddr : u.regs.sp + BitVec.ofNat 32 (4 + 4 * i) = place off info sp 32 (.slot (i.rev.castSucc)) := by
    rw [hsp]
    fin_cases i <;>
    · simp [place, Fin.rev]
      bv_omega
  rw [arg, haddr]
  rfl

theorem traces_held (hext : ∀ i < position .modHoldStub, ext i = none)
    (hspread : Spread (place off s.regs.ax s.regs.sp)) (hin : Stashed off s t) (hheld : ¬ Failed t)
    (hsp : t.regs.sp = place off s.regs.ax s.regs.sp 32 (.slot 0))
    (h : ∀ v : State 32, Inside off s v → v.regs.sp = place off s.regs.ax s.regs.sp 32 (.slot 10) →
      word (place off s.regs.ax s.regs.sp) v.mem (.slot 10) = 25#32 → (∀ i, arg v i = arg s i) →
      Traces (code off) ext P ⟨⟨(word (place off s.regs.ax s.regs.sp) t.mem .func).toNat, v⟩, es⟩) :
    Traces (code off) ext P ⟨⟨5, t⟩, es⟩ := by
  obtain ⟨⟨ax, cx, dx, bx, sp, bp, si, di, hi⟩, fl, df, m⟩ := t
  obtain rfl : sp = _ := hsp
  obtain ⟨⟨hsi, hbx, hbp, hdi, hret, hsaved⟩, hargs⟩ := hin
  have hat : At (code off) 5 (held off) := ⟨_, rfl⟩
  have hat' : At (code off) (position .l1) l1 := ⟨_, rfl⟩
  have hfunc (m' : Mem 32) : load 32 m' s.regs.ax = word (place off s.regs.ax s.regs.sp) m' .func := rfl
  have hfail : ax ≠ 4294967295#32 := hheld
  dsimp only at hsi hbx hbp hdi hret hsaved hargs
  apply traces_lines (fun i _ hi => hext i (hi.trans_le (Nat.le_of_ble_eq_true rfl))) hat
  simp [held, merge_word, slot_add, hfail]
  apply traces_lines (fun i _ hi => hext i (hi.trans_le (by decide))) hat'
  simp [l1, MAXNARG, merge_word, places, slot_index, load_place (place _ _ _), hsi, hfunc, word_store_other hspread, hargs]
  refine h _ ?_ rfl ?_ ?_
  · constructor <;> simp [word_store_other hspread, *]
  · simp [word_store_self, position]
  · intro i
    rw [arg_slot off s.regs.ax s.regs.sp rfl]
    fin_cases i
    all_goals simp [Fin.rev, word_store_other hspread, word_store_self]
    all_goals rfl

theorem traces_called (hext : ∀ i < position .modHoldStub, ext i = none)
    (hspread : Spread (place off s.regs.ax s.regs.sp)) (hin : Inside off s t)
    (hsp : t.regs.sp = place off s.regs.ax s.regs.sp 32 (.slot 9))
    (h : ∀ v : State 32, Inside off s v → v.regs.sp = place off s.regs.ax s.regs.sp 32 (.slot 3) →
      word (place off s.regs.ax s.regs.sp) v.mem (.slot 2) = s.regs.ax →
      word (place off s.regs.ax s.regs.sp) v.mem (.slot 3) = 30#32 →
      word (place off s.regs.ax s.regs.sp) v.mem (.slot 0) = t.regs.ax →
      word (place off s.regs.ax s.regs.sp) v.mem (.slot 1) = t.regs.dx →
      Traces (code off) ext P ⟨⟨position .modReleaseStub, v⟩, es⟩) :
    Traces (code off) ext P ⟨⟨25, t⟩, es⟩ := by
  obtain ⟨⟨ax, cx, dx, bx, sp, bp, si, di, hi⟩, fl, df, m⟩ := t
  obtain rfl : sp = _ := hsp
  obtain ⟨hsi, hbx, hbp, hdi, hret, hsaved⟩ := hin
  have hat : At (code off) 25 called := ⟨_, rfl⟩
  dsimp only at hsi hbx hbp hdi hret hsaved
  apply traces_lines (fun i _ hi => hext i (hi.trans_le (by decide))) hat
  simp [called, MAXNARG, merge_word, places, slot_add, hsi]
  refine h _ ?_ rfl ?_ ?_ ?_ ?_
  · constructor <;> simp [word_store_other hspread, *]
  all_goals simp [word_store_other hspread, word_store_self]

theorem traces_released (hext : ∀ i < position .modHoldStub, ext i = none) (hin : Inside off s t)
    (hsp : t.regs.sp = place off s.regs.ax s.regs.sp 32 (.slot 2))
    (h : ∀ d, Returned s (word (place off s.regs.ax s.regs.sp) t.mem (.slot 0))
      (word (place off s.regs.ax s.regs.sp) t.mem (.slot 1)) d → Traces (code off) ext P ⟨d, es⟩) :
    Traces (code off) ext P ⟨⟨30, t⟩, es⟩ := by
  obtain ⟨⟨ax, cx, dx, bx, sp, bp, si, di, hi⟩, fl, df, m⟩ := t
  obtain rfl : sp = _ := hsp
  have hat : At (code off) 30 released := ⟨_, rfl⟩
  apply traces_lines (fun i _ hi => hext i (hi.trans_le (by decide))) hat
  simp [released, merge_word, slot_add off s.regs.ax s.regs.sp, load_place (place _ _ _)]
  exact traces_l2 hext { hin with } rfl h

local instance neZeroTen : NeZero 10 := ⟨by decide⟩

/-- The call of `mod_hold_stub` in `u`. When it fails the return function of the
stub is called and gives the results. If not, the function that is installed is
called with the arguments of `s`, then `mod_release_stub`, and the results are
those of the function. -/
def Transparent (off : Int) (ext : Nat → Option (State 32 → State 32)) (hold : State 32 → State 32) (s : State 32)
    (d : Traced 32) : Prop :=
  ∃ u, arg u 0 = s.regs.ax ∧
    if Failed (hold u) then
      ∃ v f, ext (load 32 (hold u).mem (s.regs.ax + BitVec.ofInt 32 off)).toNat = some f ∧
        d.calls = [⟨position .modHoldStub, u⟩, ⟨(load 32 (hold u).mem (s.regs.ax + BitVec.ofInt 32 off)).toNat, v⟩] ∧
        Returned s (f v).regs.ax (f v).regs.dx d.cfg
    else
      ∃ v x f, ext (load 32 (hold u).mem s.regs.ax).toNat = some f ∧
        d.calls = [⟨position .modHoldStub, u⟩, ⟨(load 32 (hold u).mem s.regs.ax).toNat, v⟩,
          ⟨position .modReleaseStub, x⟩] ∧
        (∀ i, arg v i = arg s i) ∧ arg x 0 = s.regs.ax ∧ Returned s (f v).regs.ax (f v).regs.dx d.cfg

theorem traces_transparent (hout : Outside off ext hold release s)
    (hspread : Spread (place off s.regs.ax s.regs.sp)) :
    Traces (code off) ext (Transparent off ext hold s) ⟨⟨position .stubsCommonCode, s⟩, []⟩ := by
  apply traces_stubsCommonCode hout.inside hspread
  intro u hentered hu hucall
  have husp : u.regs.sp = place off s.regs.ax s.regs.sp 32 (.slot 1) := hentered.sp
  have hanswers : Answers off s.regs.ax s.regs.sp Cell.saved u (hold u) := hout.holds u hentered
  have hsp : (hold u).regs.sp = place off s.regs.ax s.regs.sp 32 (.slot 0) := by
    rw [hanswers.keeps.sp, husp, (slot_add _ _ _).2.2.2.1]
  have hback : (u.pop 0).1.toNat = 5 := by
    rw [State.pop, husp, load_place (place _ _ _), hucall]
    rfl
  apply traces_extern hout.atHold
  rw [hback, List.nil_append]
  by_cases hfailed : Failed (hold u)
  · obtain ⟨f, hf, hanswer⟩ := hout.returns u hentered hfailed
    apply traces_held_failed hout.inside hspread (hu.answers hanswers).inside hfailed hsp
    intro v hv hvsp hvcall
    have hanswers' := hanswer v hvsp
    have hsp' : (f v).regs.sp = place off s.regs.ax s.regs.sp 32 .esi := by
      rw [hanswers'.keeps.sp, hvsp, (slot_add _ _ _).2.2.2.2.1]
    have hback' : (v.pop 0).1.toNat = 10 := by
      rw [State.pop, hvsp, load_place (place _ _ _), hvcall]
      rfl
    apply traces_extern hf
    rw [hback']
    refine traces_failed hout.inside (hv.answers hanswers' rfl rfl) hsp' fun d hd => .here ?_
    refine ⟨u, hentered.info, ?_⟩
    rw [if_pos hfailed]
    exact ⟨v, f, hf, rfl, hd⟩
  · obtain ⟨f, hf, hanswer⟩ := hout.installed u hentered hfailed
    apply traces_held hout.inside hspread (hu.answers hanswers) hfailed hsp
    intro v hv hvsp hvcall hvargs
    have hanswers' := hanswer v hvsp
    have hsp' : (f v).regs.sp = place off s.regs.ax s.regs.sp 32 (.slot 9) := by
      rw [hanswers'.keeps.sp, hvsp, (slot_add _ _ _).1]
    have hback' : (v.pop 0).1.toNat = 25 := by
      rw [State.pop, hvsp, load_place (place _ _ _), hvcall]
      rfl
    apply traces_extern hf
    rw [hback']
    apply traces_called hout.inside hspread (hv.answers hanswers' rfl rfl) hsp'
    intro x hx hxsp hxarg hxcall hxax hxdx
    have hreleases := hout.releases x hxsp
    have hback'' : (x.pop 0).1.toNat = 30 := by
      rw [State.pop, hxsp, load_place (place _ _ _), hxcall]
      rfl
    have hsp'' : (release x).regs.sp = place off s.regs.ax s.regs.sp 32 (.slot 2) := by
      rw [hreleases.keeps.sp, hxsp, (slot_add _ _ _).2.1]
    have hinfo' : arg x 0 = s.regs.ax := by
      rw [← hxarg, ← load_place (place _ _ _), ← (slot_add _ _ _).2.1, ← hxsp]
      rfl
    apply traces_extern hout.atRelease
    rw [hback'']
    refine traces_released hout.inside (hx.answers hreleases rfl rfl) hsp'' fun d hd => .here ?_
    rw [hreleases.words 32 (.slot 0) rfl, hreleases.words 32 (.slot 1) rfl, hxax, hxdx] at hd
    refine ⟨u, hentered.info, ?_⟩
    rw [if_neg hfailed]
    exact ⟨v, x, f, hf, rfl, hvargs, hinfo', hd⟩

end SysvDev.Modstubs.I386
