import SysvDev.X86.Cells

namespace SysvDev.X86.Words

open Memory Machine Run Cells Inevitable

section Words

variable {w n k : Nat} {K : Nat → Type} {place : ∀ n, K n → BitVec w} {m : Mem w}

/-- Words of several widths that have no byte in common. -/
def Spread (place : ∀ n, K n → BitVec w) : Prop :=
  ∀ n k (i : K n) (j : K k), (⟨n, i⟩ : Σ n, K n) ≠ ⟨k, j⟩ → Apart (place n i) (n / 8) (place k j) (k / 8)

def word (place : ∀ n, K n → BitVec w) (m : Mem w) {n : Nat} (i : K n) : BitVec n := load n m (place n i)

theorem load_place (place : ∀ n, K n → BitVec w) (i : K n) : load n m (place n i) = word place m i := rfl

theorem ne_of_kind (kind : ∀ n, K n → Bool) (b : Bool) {i : K n} {j : K k} (hi : kind n i = b) (hj : kind k j = !b) :
    (⟨n, i⟩ : Σ n, K n) ≠ ⟨k, j⟩ := by
  rintro ⟨⟩
  rw [hi] at hj
  cases b <;> cases hj

theorem word_store_self (i : K n) (v : BitVec n) (hn : 8 * (n / 8) = n) (hw : n / 8 ≤ 2 ^ w) :
    word place (store m (place n i) v) i = v := load_store_same m _ v hn hw

theorem word_store_other (h : Spread place) {i : K n} {j : K k} {v : BitVec n}
    (hij : (⟨n, i⟩ : Σ n, K n) ≠ ⟨k, j⟩) : word place (store m (place n i) v) j = word place m j :=
  load_store_apart (h n k i j hij)

theorem word_store_part (h : Spread place) {i : K n} {j : K k} {l : Nat} {v : BitVec l} (c : BitVec w)
    (hij : (⟨n, i⟩ : Σ n, K n) ≠ ⟨k, j⟩) (hc : c.toNat + l / 8 ≤ n / 8) (hl : 0 < l / 8) :
    word place (store m (place n i + c) v) j = word place m j := by
  rcases Nat.eq_zero_or_pos (k / 8) with hk | hk
  · rw [word, word, load, load, hk, loadNat, loadNat]
  · have hpart := (h n k i j hij).part (d := 0#w) hc (by simp) hl hk
    rw [BitVec.add_zero] at hpart
    exact load_store_apart hpart

theorem load_high (m : Mem w) (a : BitVec w) : load 32 m (a + 4#w) = high (n := 32) (load 64 m a) := by
  rw [load_pair, high_pair]

end Words

section Calls

/-- What a routine on amd64 leaves to its caller: the stack behind the return
address, and the registers that are not its own. -/
structure Keeps64 (s t : State 64) : Prop where
  sp : t.regs.sp = s.regs.sp + 8#64
  bx : t.regs.bx = s.regs.bx
  bp : t.regs.bp = s.regs.bp
  r12 : t.regs.hi.r12 = s.regs.hi.r12
  r13 : t.regs.hi.r13 = s.regs.hi.r13
  r14 : t.regs.hi.r14 = s.regs.hi.r14
  r15 : t.regs.hi.r15 = s.regs.hi.r15

structure Keeps32 (s t : State 32) : Prop where
  sp : t.regs.sp = s.regs.sp + 4#32
  bx : t.regs.bx = s.regs.bx
  bp : t.regs.bp = s.regs.bp
  si : t.regs.si = s.regs.si
  di : t.regs.di = s.regs.di

variable {w : Nat} {L : Type} [DecidableEq L] {text : List (Line L)} {ext : Nat → Option (State w → State w)} {ip : Nat}
  {s : State w} {P : Cfg w → Prop} {lines : List (Line L)}

abbrev Comes (text : List (Line L)) (ext : Nat → Option (State w → State w)) (P : Cfg w → Prop) (c : Cfg w) : Prop :=
  Until (StepsWith text ext) (fun _ => True) P c

theorem comes_block (hext : ∀ i < text.length, ext i = none) (h : At text ip lines)
    (hrun : ∃ d, run text ip s lines = some d ∧ Comes text ext P d) : Comes text ext P ⟨ip, s⟩ :=
  until_block hext h (fun _ _ _ _ => trivial) hrun

theorem comes_extern {f : State w → State w} (hf : ext ip = some f)
    (h : Comes text ext P ⟨(s.pop 0).1.toNat, f s⟩) : Comes text ext P ⟨ip, s⟩ := until_extern hf trivial h

def Halted (text : List (Line L)) (ext : Nat → Option (State w → State w)) (ip : Nat) : Prop :=
  text.length ≤ ip ∧ ext ip = none

theorem Halted.not_steps {c d : Cfg w} (h : Halted text ext c.ip) : ¬ StepsWith text ext c d := by
  rw [StepsWith, nextWith, h.2, next, List.getElem?_eq_none h.1]
  rintro ⟨⟩

end Calls

end SysvDev.X86.Words
