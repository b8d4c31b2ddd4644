import SysvDev.Interleaving

namespace SysvDev.LockPrim.Byte

open Function Interleaving

variable {T : Type}

inductive Isa
  | amd64 | i386
  deriving DecidableEq

inductive Routine
  | lockTry | lockSpinTry | lockSet | lockSetSpl | lockClear | lockClearSplx
  deriving DecidableEq

/-- Where a jump goes that is taken when the lock was not free. -/
inductive Target
  | lockSetSpin | lssMiss
  deriving DecidableEq

/-- An instruction, as far as `%dl`, `%eax`, the zero flag, the lock and the
old level go. -/
inductive Instr
  /-- `movb $v, %dl` and `movl $v, %edx` -/
  | movDl (v : BitVec 8)
  /-- `movzbq %dl, %rax` -/
  | movzb
  /-- `xorl %eax, %eax` -/
  | xorEax
  /-- `xchgb %dl, (lp)` -/
  | xchgb
  /-- `xorb %dl, %al` -/
  | xorb
  /-- `testb %dl, %dl` -/
  | testb
  /-- `setz %al` -/
  | setz
  | jnz (l : Target)
  /-- `%edx` or `%eax` is loaded, the flags are as before. -/
  | movEdx
  | movEax
  /-- `call splr`, which returns the old level. -/
  | splr
  /-- `movw %ax, (old)` -/
  | movw
  /-- `movb $0, (lp)` -/
  | movb0
  /-- `splx`, or `spl` on i386 -/
  | splx
  /-- `lock_set_spin` and `lock_set_spl_spin` -/
  | spin
  /-- None of these is touched. -/
  | other
  | ret
  deriving DecidableEq

/-- The instructions in order. The jumps to the next line and the tail calls
are followed by the `ret` of the routine they go to. -/
def text : Isa → Routine → List Instr
  | .amd64, .lockTry | .amd64, .lockSpinTry => [.movDl 0xff#8, .movzb, .xchgb, .xorb, .ret]
  | .amd64, .lockSet => [.movDl 0xff#8, .xchgb, .testb, .jnz .lockSetSpin, .ret]
  | .amd64, .lockSetSpl =>
    [.other, .other, .other, .other, .other, .other, .other, .splr, .other, .movDl 0xff#8, .xchgb, .testb,
      .jnz .lssMiss, .movEdx, .movw, .other, .ret]
  | .amd64, .lockClear => [.movb0, .ret]
  | .amd64, .lockClearSplx => [.movb0, .other, .other, .splx, .ret]
  | .i386, .lockTry => [.movDl 1#8, .other, .xorEax, .xchgb, .testb, .setz, .ret]
  | .i386, .lockSpinTry => [.movDl 0xff#8, .other, .xorEax, .xchgb, .testb, .setz, .ret]
  | .i386, .lockSet => [.other, .movDl 0xff#8, .xchgb, .testb, .jnz .lockSetSpin, .ret]
  | .i386, .lockSetSpl =>
    [.movEax, .other, .splr, .other, .movDl 0xff#8, .other, .xchgb, .testb, .movEdx, .jnz .lssMiss, .movw, .ret]
  | .i386, .lockClear => [.movEax, .movb0, .ret]
  | .i386, .lockClearSplx => [.other, .movEax, .movEdx, .movb0, .other, .splx, .ret]

def missText : Isa → Target → List Instr
  | _, .lockSetSpin => [.spin, .ret]
  | .amd64, .lssMiss => [.other, .movEdx, .other, .other, .spin, .ret]
  | .i386, .lssMiss => [.other, .other, .other, .other, .spin, .other, .ret]

structure Local where
  dl : BitVec 8
  eax : BitVec 32
  zf : Bool
  /-- The routine that was called last. -/
  routine : Routine
  /-- An exchange of this thread found 0, and it has not cleared the lock since. -/
  holds : Bool
  /-- An exchange of this call found 0. -/
  got : Bool
  /-- The old level, when this call has stored it. -/
  old : Option (BitVec 16)

structure Thread where
  rest : List Instr
  locals : Local

def Routine.clears : Routine → Bool
  | lockClear | lockClearSplx => true
  | _ => false

/-- `xchgb` of `v`, which finds `b`. -/
def Local.found (l : Local) (b : BitVec 8) : Local :=
  { l with dl := b, holds := l.holds || b == 0#8, got := l.got || b == 0#8 }

/-- What an instruction other than those on the lock does. -/
inductive Moves : Instr → Local → Local → Prop
  | movDl {l : Local} {v : BitVec 8} : Moves (.movDl v) l { l with dl := v }
  | movzb {l : Local} : Moves .movzb l { l with eax := l.dl.zeroExtend 32 }
  | xorEax {l : Local} : Moves .xorEax l { l with eax := 0#32, zf := true }
  | xorb {l : Local} : Moves .xorb l { l with eax := l.eax ^^^ l.dl.zeroExtend 32, zf := l.eax.setWidth 8 == l.dl }
  | testb {l : Local} : Moves .testb l { l with zf := l.dl == 0#8 }
  | setz {l : Local} : Moves .setz l { l with eax := (l.eax &&& 0xffffff00#32) ||| if l.zf then 1#32 else 0#32 }
  | movEdx {l : Local} (v : BitVec 8) : Moves .movEdx l { l with dl := v }
  | movEax {l : Local} (v : BitVec 32) : Moves .movEax l { l with eax := v }
  | splr {l : Local} (d : BitVec 8) (a : BitVec 32) (z : Bool) : Moves .splr l { l with dl := d, eax := a, zf := z }
  | movw {l : Local} : Moves .movw l { l with old := some (l.eax.setWidth 16) }
  | splx {l : Local} (d : BitVec 8) (a : BitVec 32) (z : Bool) : Moves .splx l { l with dl := d, eax := a, zf := z }
  | other {l : Local} (z : Bool) : Moves .other l { l with zf := z }

/-- The steps of a thread on the byte. Only the holder calls `lock_clear` and
`lock_clear_splx`. -/
inductive Act (isa : Isa) (_ : T) : Thread → BitVec 8 → Thread → BitVec 8 → Prop
  | call {l : Local} {b : BitVec 8} (f : Routine) (h : f.clears = true → l.holds = true) :
      Act isa _ ⟨[], l⟩ b ⟨text isa f, { l with routine := f, got := false, old := none }⟩ b
  | moves {i : Instr} {is : List Instr} {l l' : Local} {b : BitVec 8} (h : Moves i l l') :
      Act isa _ ⟨i :: is, l⟩ b ⟨is, l'⟩ b
  | xchgb {is : List Instr} {l : Local} {b : BitVec 8} : Act isa _ ⟨.xchgb :: is, l⟩ b ⟨is, l.found b⟩ l.dl
  | jnz {j : Target} {is : List Instr} {l : Local} {b : BitVec 8} :
      Act isa _ ⟨.jnz j :: is, l⟩ b ⟨if l.zf then is else missText isa j, l⟩ b
  | movb0 {is : List Instr} {l : Local} {b : BitVec 8} :
      Act isa _ ⟨.movb0 :: is, l⟩ b ⟨is, { l with holds := false }⟩ 0#8
  -- an exchange of the loop that finds the lock taken, and the last one
  | spins {is : List Instr} {l : Local} {b : BitVec 8} (h : b ≠ 0#8) :
      Act isa _ ⟨.spin :: is, l⟩ b ⟨.spin :: is, l⟩ 0xff#8
  | spin {is : List Instr} {l : Local} (d : BitVec 8) (a : BitVec 32) (z : Bool) :
      Act isa _ ⟨.spin :: is, l⟩ 0#8 ⟨is, { l with dl := d, eax := a, zf := z, holds := true, got := true }⟩ 0xff#8
  | ret {is : List Instr} {l : Local} {b : BitVec 8} : Act isa _ ⟨.ret :: is, l⟩ b ⟨[], l⟩ b

def Value : Isa → BitVec 8 → Prop
  | .amd64, b => b = 0#8 ∨ b = 0xff#8
  | .i386, b => b = 0#8 ∨ b = 1#8 ∨ b = 0xff#8

def Returns (l : Local) : Prop :=
  match l.routine with
  | .lockTry | .lockSpinTry => (l.eax ≠ 0#32 ↔ l.got = true) ∧ (l.got = true → l.holds = true)
  | .lockSet | .lockSetSpl => l.got = true ∧ l.holds = true
  | .lockClear | .lockClearSplx => l.holds = false

/-- The old level is stored by a call that has the lock. -/
def Ordered (l : Local) : Prop := l.old.isSome = true → l.got = true ∧ l.holds = true

/-- The instructions that are left go well from `l` on, whatever the exchanges
find. `after` is said of a jump. -/
def Assured (isa : Isa) (after : Target → Local → Prop) : List Instr → Local → Prop
  | [], l => Ordered l
  | .ret :: _, l => Ordered l ∧ Returns l
  | .xchgb :: is, l =>
      Ordered l ∧ (Value isa l.dl ∧ l.dl ≠ 0#8) ∧ ∀ b, Value isa b → Assured isa after is (l.found b)
  | .jnz j :: is, l => Ordered l ∧ if l.zf then Assured isa after is l else after j l
  | .movb0 :: is, l => Ordered l ∧ l.holds = true ∧ Assured isa after is { l with holds := false }
  | .spin :: is, l =>
      Ordered l ∧ ∀ d a z, Assured isa after is { l with dl := d, eax := a, zf := z, holds := true, got := true }
  | i :: is, l => Ordered l ∧ ∀ l', Moves i l l' → Assured isa after is l'

section Moves

variable {l : Local} {P : Local → Prop}

@[simp] theorem forall_movDl {v : BitVec 8} : (∀ l', Moves (.movDl v) l l' → P l') ↔ P { l with dl := v } :=
  ⟨fun h => h _ .movDl, fun h _ hm => by cases hm; exact h⟩

@[simp] theorem forall_movzb : (∀ l', Moves .movzb l l' → P l') ↔ P { l with eax := l.dl.zeroExtend 32 } :=
  ⟨fun h => h _ .movzb, fun h _ hm => by cases hm; exact h⟩

@[simp] theorem forall_xorEax : (∀ l', Moves .xorEax l l' → P l') ↔ P { l with eax := 0#32, zf := true } :=
  ⟨fun h => h _ .xorEax, fun h _ hm => by cases hm; exact h⟩

@[simp] theorem forall_xorb : (∀ l', Moves .xorb l l' → P l') ↔
    P { l with eax := l.eax ^^^ l.dl.zeroExtend 32, zf := l.eax.setWidth 8 == l.dl } :=
  ⟨fun h => h _ .xorb, fun h _ hm => by cases hm; exact h⟩

@[simp] theorem forall_testb : (∀ l', Moves .testb l l' → P l') ↔ P { l with zf := l.dl == 0#8 } :=
  ⟨fun h => h _ .testb, fun h _ hm => by cases hm; exact h⟩

@[simp] theorem forall_setz : (∀ l', Moves .setz l l' → P l') ↔
    P { l with eax := (l.eax &&& 0xffffff00#32) ||| if l.zf then 1#32 else 0#32 } :=
  ⟨fun h => h _ .setz, fun h _ hm => by cases hm; exact h⟩

@[simp] theorem forall_movEdx : (∀ l', Moves .movEdx l l' → P l') ↔ ∀ v, P { l with dl := v } :=
  ⟨fun h v => h _ (.movEdx v), fun h _ hm => by cases hm; exact h _⟩

@[simp] theorem forall_movEax : (∀ l', Moves .movEax l l' → P l') ↔ ∀ v, P { l with eax := v } :=
  ⟨fun h v => h _ (.movEax v), fun h _ hm => by cases hm; exact h _⟩

@[simp] theorem forall_splr :
    (∀ l', Moves .splr l l' → P l') ↔ ∀ d a z, P { l with dl := d, eax := a, zf := z } :=
  ⟨fun h d a z => h _ (.splr d a z), fun h _ hm => by cases hm; exact h _ _ _⟩

@[simp] theorem forall_movw : (∀ l', Moves .movw l l' → P l') ↔ P { l with old := some (l.eax.setWidth 16) } :=
  ⟨fun h => h _ .movw, fun h _ hm => by cases hm; exact h⟩

@[simp] theorem forall_splx :
    (∀ l', Moves .splx l l' → P l') ↔ ∀ d a z, P { l with dl := d, eax := a, zf := z } :=
  ⟨fun h d a z => h _ (.splx d a z), fun h _ hm => by cases hm; exact h _ _ _⟩

@[simp] theorem forall_other : (∀ l', Moves .other l l' → P l') ↔ ∀ z, P { l with zf := z } :=
  ⟨fun h z => h _ (.other z), fun h _ hm => by cases hm; exact h _⟩

end Moves

variable {isa : Isa}

/-- What is said of a jump: the text there goes well. -/
def Missed (isa : Isa) (j : Target) (l : Local) : Prop := Assured isa (fun _ _ => False) (missText isa j) l

theorem Missed.assured {j : Target} {l : Local} (h : Missed isa j l) :
    Assured isa (Missed isa) (missText isa j) l := by
  cases isa <;> cases j <;> simpa [Missed, missText, Assured] using h

theorem assured_text {f : Routine} {l : Local} (h : f.clears = true → l.holds = true) :
    Assured isa (Missed isa) (text isa f) { l with routine := f, got := false, old := none } := by
  -- what the last exchange found is one of the values, and the result is told from it
  cases isa <;> cases f <;>
    simp [text, Missed, missText, Assured, Ordered, Returns, Value, Local.found, Routine.clears] at h ⊢ <;>
    exact h

theorem Assured.ordered {after : Target → Local → Prop} {is : List Instr} {l : Local} (h : Assured isa after is l) :
    Ordered l := by
  obtain - | ⟨i, is⟩ := is
  · exact h
  · cases i <;> exact h.1

theorem Assured.moves {after : Target → Local → Prop} {i : Instr} {is : List Instr} {l l' : Local}
    (h : Assured isa after (i :: is) l) (hm : Moves i l l') : Assured isa after is l' := by
  cases hm <;> exact h.2 _ (by constructor)

theorem Assured.act {t : T} {th th' : Thread} {b b' : BitVec 8} (h : Assured isa (Missed isa) th.rest th.locals)
    (hvalue : Value isa b) (hact : Act isa t th b th' b') : Assured isa (Missed isa) th'.rest th'.locals := by
  cases hact with
  | call f hheld => exact assured_text hheld
  | moves hm => exact Assured.moves h hm
  | xchgb => exact h.2.2 b hvalue
  | @jnz j is l =>
      have hjump := h.2
      dsimp only at hjump ⊢
      split at hjump
      · rwa [if_pos ‹_›]
      · rw [if_neg ‹_›]
        exact hjump.assured
  | movb0 => exact h.2.2
  | spins => exact h
  | spin d a z => exact h.2 d a z
  | ret => exact h.1

theorem Value.act {t : T} {th th' : Thread} {b b' : BitVec 8} (h : Value isa b)
    (hassured : Assured isa (Missed isa) th.rest th.locals) (hact : Act isa t th b th' b') : Value isa b' := by
  have hzero : Value isa 0#8 := by cases isa <;> simp [Value]
  have hones : Value isa 0xff#8 := by cases isa <;> simp [Value]
  cases hact with
  | call | moves | jnz | ret => exact h
  | xchgb => exact hassured.2.1.1
  | movb0 => exact hzero
  | spins | spin => exact hones

theorem Moves.holds {i : Instr} {l l' : Local} (h : Moves i l l') : l'.holds = l.holds := by
  cases h <;> rfl

def Free (b : BitVec 8) : Prop := b = 0#8

def Holds (th : Thread) : Prop := th.locals.holds = true

variable [DecidableEq T] {loc : T → Thread} {b b' : BitVec 8} {t : T} {th : Thread}

theorem claimed_act (h : Claimed Free Holds ⟨loc, b⟩) (hassured : Assured isa (Missed isa) (loc t).rest (loc t).locals)
    (hact : Act isa t (loc t) b th b') : Claimed Free Holds ⟨update loc t th, b'⟩ := by
  generalize hlt : loc t = lt at hassured hact
  cases hact with
  | call f _ =>
      refine h.keep Iff.rfl ?_
      rw [hlt]
      rfl
  | moves hm =>
      refine h.keep Iff.rfl ?_
      rw [hlt, Holds, Holds, hm.holds]
  | @xchgb is l =>
      obtain ⟨-, ⟨-, hset⟩, -⟩ := hassured
      by_cases hb : b = 0#8
      · exact h.acquire hb hset (by simp [Holds, Local.found, hb])
      · refine h.keep (iff_of_false hset hb) ?_
        simp [hlt, Holds, Local.found, hb]
  | jnz | ret =>
      refine h.keep Iff.rfl ?_
      rw [hlt]
      rfl
  | movb0 =>
      refine h.release ?_ rfl (by simp [Holds])
      rw [hlt]
      exact hassured.2.1
  | spins hb =>
      refine h.keep (iff_of_false (by simp [Free]) hb) ?_
      rw [hlt]
  | spin => exact h.acquire rfl (by simp [Free]) rfl

/-- What holds of all threads and the byte after any steps. -/
structure Kept (isa : Isa) (s : State T Thread (BitVec 8)) : Prop where
  claimed : Claimed Free Holds s
  value : Value isa s.shared
  assured : ∀ t, Assured isa (Missed isa) (s.loc t).rest (s.loc t).locals

structure Initial (s : State T Thread (BitVec 8)) : Prop where
  shared : s.shared = 0#8
  away : ∀ t, (s.loc t).rest = []
  holds : ∀ t, (s.loc t).locals.holds = false
  old : ∀ t, (s.loc t).locals.old = none

omit [DecidableEq T] in
theorem Initial.kept {s : State T Thread (BitVec 8)} (h : Initial s) : Kept isa s where
  claimed := by
    have hnone (t : T) : ¬ Holds (s.loc t) := by simp [Holds, h.holds t]
    exact ⟨iff_of_true h.shared hnone, fun t _ ht => absurd ht (hnone t)⟩
  value := by
    rw [h.shared]
    cases isa <;> simp [Value]
  assured t := by
    rw [h.away t, Assured, Ordered, h.old t]
    rintro ⟨⟩

theorem run_kept {s s' : State T Thread (BitVec 8)} (hinit : Initial s) (h : Run (Act isa) (fun _ => True) s s') :
    Kept isa s' := by
  apply h.invariant hinit.kept
  intro t loc b th b' hkept _ _ hact
  refine ⟨claimed_act hkept.claimed (hkept.assured t) hact, hkept.value.act (hkept.assured t) hact, ?_⟩
  exact forall_update (Q := fun _ (th : Thread) => Assured isa (Missed isa) th.rest th.locals)
    ((hkept.assured t).act hkept.value hact) fun u _ => hkept.assured u

end SysvDev.LockPrim.Byte
