import SysvDev.LinkedRing
import SysvDev.X86.Words

namespace SysvDev.Subr.Queue

open Function LinkedRing
open X86.Memory X86.Machine X86.Machine.Att X86.Run X86.Cells X86.Words Inevitable

inductive Label
  | insque | remque
  deriving DecidableEq

namespace Amd64

def insque : List (Line Label) :=
  [ .label .insque,
    movq (ind 0 .si) rax,
    movq rsi (ind 8 .di),
    movq rax (ind 0 .di),
    movq rdi (ind 0 .si),
    movq rdi (ind 8 .ax),
    .ret 0 ]

def remque : List (Line Label) :=
  [ .label .remque,
    movq (ind 0 .di) rax,
    movq (ind 8 .di) rdx,
    movq rax (ind 0 .dx),
    movq rdx (ind 8 .ax),
    .ret 0 ]

def code : List (Line Label) := List.flatten [insque, remque]

end Amd64

namespace I386

def insque : List (Line Label) :=
  [ .label .insque,
    movl (ind 8 .sp) edx,
    movl (ind 4 .sp) ecx,
    movl (ind 0 .dx) eax,
    movl edx (ind 4 .cx),
    movl eax (ind 0 .cx),
    movl ecx (ind 0 .dx),
    movl ecx (ind 4 .ax),
    .ret 0 ]

def remque : List (Line Label) :=
  [ .label .remque,
    movl (ind 4 .sp) ecx,
    movl (ind 0 .cx) eax,
    movl (ind 4 .cx) edx,
    movl eax (ind 0 .dx),
    movl edx (ind 4 .ax),
    .ret 0 ]

def code : List (Line Label) := List.flatten [insque, remque]

end I386

section Memory

variable {w : Nat} {m : Mem w} {a b e p v : BitVec w}

def back (a : BitVec w) : BitVec w := a + BitVec.ofNat w (w / 8)

def links (m : Mem w) : Links (BitVec w) := ⟨fun a => load w m a, fun a => load w m (back a)⟩

inductive Op (w : Nat)
  | insque (e p : BitVec w)
  | remque (e : BitVec w)

def Op.act (m : Mem w) : Op w → Mem w
  | .insque e p =>
      let forw := load w m p
      let m := store m (back e) p
      let m := store m e forw
      let m := store m p e
      store m (back forw) e
  | .remque e =>
      let forw := load w m e
      let prev := load w m (back e)
      let m := store m prev forw
      store m (back forw) prev

/-- The byte at `b` is none of those that the operation writes. -/
def Op.Leaves (m : Mem w) (b : BitVec w) : Op w → Prop
  | .insque e p => 2 * (w / 8) ≤ (b - e).toNat ∧ w / 8 ≤ (b - p).toNat ∧ w / 8 ≤ (b - back (load w m p)).toNat
  | .remque e => w / 8 ≤ (b - load w m (back e)).toNat ∧ w / 8 ≤ (b - back (load w m e)).toNat

def Spaced (N : Set (BitVec w)) : Prop :=
  ∀ a ∈ N, ∀ b ∈ N, a ≠ b → Apart a (2 * (w / 8)) b (2 * (w / 8))

/-- A width of words, as of the two machines. -/
structure Wide (w : Nat) : Prop where
  bytes : 8 * (w / 8) = w
  pos : 0 < w / 8

variable {N : Set (BitVec w)}

section Slots

theorem two_words_lt : 2 * (w / 8) < 2 ^ w := by
  have hlt : w < 2 ^ w := Nat.lt_two_pow_self
  omega

theorem toNat_word : (BitVec.ofNat w (w / 8)).toNat = w / 8 := by
  have hlt : 2 * (w / 8) < 2 ^ w := two_words_lt
  exact Nat.mod_eq_of_lt (by omega)

theorem Spaced.apart (hw : Wide w) (hN : Spaced N) (ha : a ∈ N) (hb : b ∈ N) (hne : a ≠ b) : Apart a (w / 8) b (w / 8) := by
  have hpos := hw.pos
  have hpart := (hN a ha b hb hne).part (c := 0#w) (d := 0#w) (j := w / 8) (k := w / 8)
  simp only [BitVec.add_zero, BitVec.toNat_zero, Nat.zero_add] at hpart
  exact hpart (by omega) (by omega) hpos hpos

theorem Spaced.apart_back (hw : Wide w) (hN : Spaced N) (ha : a ∈ N) (hb : b ∈ N) (hne : a ≠ b) :
    Apart (back a) (w / 8) (back b) (w / 8) := by
  rw [back, back, BitVec.add_comm a, BitVec.add_comm b, apart_add]
  exact hN.apart hw ha hb hne

theorem apart_self_back (hw : Wide w) (a : BitVec w) : Apart a (w / 8) (back a) (w / 8) := by
  have hlt : 2 * (w / 8) < 2 ^ w := two_words_lt
  have hpos := hw.pos
  have hzero : Apart (a + 0#w) (w / 8) (a + BitVec.ofNat w (w / 8)) (w / 8) := by
    rw [apart_add, Apart, BitVec.sub_zero, toNat_word, BitVec.zero_sub, BitVec.toNat_neg, toNat_word,
      Nat.mod_eq_of_lt (by omega)]
    omega
  rwa [BitVec.add_zero] at hzero

theorem Spaced.apart_next_back (hw : Wide w) (hN : Spaced N) (ha : a ∈ N) (hb : b ∈ N) :
    Apart a (w / 8) (back b) (w / 8) := by
  by_cases hab : a = b
  · rw [hab]
    exact apart_self_back hw b
  · have hpos := hw.pos
    have hpart := (hN a ha b hb hab).part (c := 0#w) (d := BitVec.ofNat w (w / 8)) (j := w / 8) (k := w / 8)
    simp only [BitVec.add_zero, BitVec.toNat_zero, toNat_word] at hpart
    exact hpart (by omega) (by omega) hpos hpos

variable (hw : Wide w) (hN : Spaced N) (ha : a ∈ N) (hb : b ∈ N)
include hw hN ha hb

theorem next_store : (links (store m a v)).next b = update (links m).next a v b := by
  by_cases hab : b = a
  · subst hab
    rw [update_self]
    exact load_store_same m b v hw.bytes (by have := two_words_lt (w := w); omega)
  · rw [update_of_ne hab]
    exact load_store_apart (hN.apart hw ha hb (Ne.symm hab))

theorem prev_store : (links (store m a v)).prev b = (links m).prev b :=
  load_store_apart (hN.apart_next_back hw ha hb)

theorem next_store_back : (links (store m (back a) v)).next b = (links m).next b :=
  load_store_apart (hN.apart_next_back hw hb ha).symm

theorem prev_store_back : (links (store m (back a) v)).prev b = update (links m).prev a v b := by
  by_cases hab : b = a
  · subst hab
    rw [update_self]
    exact load_store_same m (back b) v hw.bytes (by have := two_words_lt (w := w); omega)
  · rw [update_of_ne hab]
    exact load_store_apart (hN.apart_back hw ha hb (Ne.symm hab))

end Slots

def Op.links (k : Links (BitVec w)) : Op w → Links (BitVec w)
  | .insque e p => k.insert e p
  | .remque e => k.delete e

def Op.Nodes (m : Mem w) (N : Set (BitVec w)) : Op w → Prop
  | .insque e p => e ∈ N ∧ p ∈ N ∧ load w m p ∈ N
  | .remque e => e ∈ N ∧ load w m e ∈ N ∧ load w m (back e) ∈ N

theorem links_act (hw : Wide w) (hN : Spaced N) {op : Op w} (hop : op.Nodes m N) (hb : b ∈ N) :
    (links (op.act m)).next b = (op.links (links m)).next b ∧ (links (op.act m)).prev b = (op.links (links m)).prev b := by
  cases op with
  | insque e p =>
      obtain ⟨he, hp, hq⟩ := hop
      simp only [Op.act, Op.links, Links.insert, update_apply, next_store hw hN he hb, next_store hw hN hp hb,
        next_store_back hw hN he hb, next_store_back hw hN hq hb, prev_store hw hN he hb, prev_store hw hN hp hb,
        prev_store_back hw hN he hb, prev_store_back hw hN hq hb]
      exact ⟨rfl, rfl⟩
  | remque e =>
      obtain ⟨he, hq, hr⟩ := hop
      simp only [Op.act, Op.links, Links.delete, update_apply, next_store hw hN hr hb, next_store_back hw hN hq hb,
        prev_store hw hN hr hb, prev_store_back hw hN hq hb]
      exact ⟨rfl, rfl⟩

theorem load_act {n : Nat} {op : Op w} (hop : op.Nodes m N) (hn : 0 < n / 8) (hpos : 0 < w / 8)
    (h : ∀ c ∈ N, Apart c (2 * (w / 8)) a (n / 8)) : load n (op.act m) a = load n m a := by
  have hnext {c : BitVec w} (hc : c ∈ N) : Apart c (w / 8) a (n / 8) := by
    have hpart := (h c hc).part (c := 0#w) (d := 0#w) (j := w / 8) (k := n / 8)
    simp only [BitVec.add_zero, BitVec.toNat_zero, Nat.zero_add] at hpart
    exact hpart (by omega) le_rfl hpos hn
  have hback {c : BitVec w} (hc : c ∈ N) : Apart (back c) (w / 8) a (n / 8) := by
    have hpart := (h c hc).part (c := BitVec.ofNat w (w / 8)) (d := 0#w) (j := w / 8) (k := n / 8)
    simp only [BitVec.add_zero, BitVec.toNat_zero, Nat.zero_add, toNat_word] at hpart
    exact hpart (by omega) le_rfl hpos hn
  cases op with
  | insque e p =>
      obtain ⟨he, hp, hq⟩ := hop
      simp only [Op.act, load_store_apart (hback hq), load_store_apart (hnext hp), load_store_apart (hnext he),
        load_store_apart (hback he)]
  | remque e =>
      obtain ⟨he, hq, hr⟩ := hop
      simp only [Op.act, load_store_apart (hback hq), load_store_apart (hnext hr)]

theorem act_leaves {op : Op w} (h : op.Leaves m b) : op.act m b = m b := by
  have hoff {m : Mem w} {a v : BitVec w} (ha : w / 8 ≤ (b - a).toNat) : store m a v b = m b := if_neg (Nat.not_lt.mpr ha)
  cases op with
  | insque e p =>
      obtain ⟨he, hp, hq⟩ := h
      have hback : w / 8 ≤ (b - back e).toNat := by
        rw [back, toNat_sub_add] <;> rw [toNat_word] <;> omega
      simp only [Op.act, hoff hq, hoff hp, hoff (a := e) (by omega), hoff hback]
  | remque e =>
      obtain ⟨hr, hq⟩ := h
      simp only [Op.act, hoff hq, hoff hr]

end Memory

section Lists

variable {w : Nat} {ι : Type} [DecidableEq ι] {m : Mem w} {rings rings' : ι → Cycle (BitVec w)} {a e p : BitVec w}

/-- Disjoint circular lists in memory. -/
structure Lists (m : Mem w) (rings : ι → Cycle (BitVec w)) : Prop where
  linked : Rings (links m) rings
  spaced : Spaced {a | ∃ i, a ∈ rings i}

/-- What an operation does to the lists. The entry of `insque` is in none, that
of `remque` is not the only one of its list. -/
inductive Changes : Op w → (ι → Cycle (BitVec w)) → (ι → Cycle (BitVec w)) → Prop
  | insque {rings : ι → Cycle (BitVec w)} {e p : BitVec w} {i : ι} {l : List (BitVec w)}
      (hfree : ∀ j, ∀ a ∈ rings j, a ≠ e ∧ Apart a (2 * (w / 8)) e (2 * (w / 8)))
      (hring : rings i = (p :: l : List (BitVec w))) :
      Changes (.insque e p) rings (update rings i (p :: e :: l : List (BitVec w)))
  | remque {rings : ι → Cycle (BitVec w)} {e : BitVec w} {i : ι} {l : List (BitVec w)} (hne : l ≠ [])
      (hring : rings i = (e :: l : List (BitVec w))) : Changes (.remque e) rings (update rings i (l : Cycle (BitVec w)))

def nodes (rings : ι → Cycle (BitVec w)) : Op w → Set (BitVec w)
  | .insque e _ => {a | a = e ∨ ∃ i, a ∈ rings i}
  | .remque _ => {a | ∃ i, a ∈ rings i}

theorem Changes.mem_nodes {op : Op w} (h : Changes op rings rings') {j : ι} (ha : a ∈ rings' j) : a ∈ nodes rings op := by
  cases h with
  | @insque _ e p i l hfree hring =>
      by_cases hj : j = i
      · rw [hj, update_self, Cycle.mem_coe_iff, List.mem_cons, List.mem_cons] at ha
        have hlist (ha : a ∈ p :: l) : ∃ i, a ∈ rings i := ⟨i, by rwa [hring, Cycle.mem_coe_iff]⟩
        rcases ha with rfl | ha | ha
        · exact Or.inr (hlist List.mem_cons_self)
        · exact Or.inl ha
        · exact Or.inr (hlist (List.mem_cons_of_mem p ha))
      · rw [update_of_ne hj] at ha
        exact Or.inr ⟨j, ha⟩
  | @remque _ e i l _ hring =>
      by_cases hj : j = i
      · rw [hj, update_self, Cycle.mem_coe_iff] at ha
        exact ⟨i, by rw [hring, Cycle.mem_coe_iff]; exact List.mem_cons_of_mem e ha⟩
      · rw [update_of_ne hj] at ha
        exact ⟨j, ha⟩

theorem Changes.spaced {op : Op w} (h : Changes op rings rings') (hm : Lists m rings) : Spaced (nodes rings op) := by
  cases h with
  | insque hfree hring =>
      rintro a (rfl | ⟨i, hi⟩) b (rfl | ⟨j, hj⟩) hne
      · exact absurd rfl hne
      · exact (hfree j b hj).2.symm
      · exact (hfree i a hi).2
      · exact hm.spaced a ⟨i, hi⟩ b ⟨j, hj⟩ hne
  | remque => exact hm.spaced

theorem Changes.nodes {op : Op w} (h : Changes op rings rings') (hm : Lists m rings) : op.Nodes m (nodes rings op) := by
  have hring {i : ι} {c : BitVec w} {l : List (BitVec w)} (hi : rings i = (c :: l : List (BitVec w))) :
      (∀ b ∈ c :: l, ∃ i, b ∈ rings i) ∧ (links m).next c ∈ c :: l ∧ (links m).prev c ∈ c :: l := by
    have hjoined := hm.linked.joined i
    rw [hi] at hjoined
    exact ⟨fun b hb => ⟨i, by rwa [hi, Cycle.mem_coe_iff]⟩, next_mem hjoined, prev_mem hjoined⟩
  cases h with
  | insque _ hi =>
      obtain ⟨hmem, hnext, -⟩ := hring hi
      exact ⟨.inl rfl, .inr (hmem _ List.mem_cons_self), .inr (hmem _ hnext)⟩
  | remque _ hi =>
      obtain ⟨hmem, hnext, hprev⟩ := hring hi
      exact ⟨hmem _ List.mem_cons_self, hmem _ hnext, hmem _ hprev⟩

theorem Changes.linked {op : Op w} (h : Changes op rings rings') {k : Links (BitVec w)} (hk : Rings k rings) :
    Rings (op.links k) rings' := by
  cases h with
  | insque hfree hring => exact hk.insert hring fun j hj => (hfree j _ hj).1 rfl
  | remque _ hring => exact hk.delete hring

theorem Lists.act (hw : Wide w) {op : Op w} (hm : Lists m rings) (h : Changes op rings rings') :
    Lists (op.act m) rings' := by
  have hspaced := h.spaced hm
  refine ⟨?_, fun a ⟨i, ha⟩ b ⟨j, hb⟩ => hspaced a (h.mem_nodes ha) b (h.mem_nodes hb)⟩
  exact (h.linked hm.linked).of_agree fun i a ha => links_act hw hspaced (h.nodes hm) (h.mem_nodes ha)

theorem Changes.mem_insque (h : Changes (.insque e p) rings rings') :
    (∃ j, e ∈ rings' j) ∧ ∀ i, ∀ a ∈ rings i, ∃ j, a ∈ rings' j := by
  cases h with
  | @insque _ _ _ i l _ hring =>
      refine ⟨⟨i, by simp⟩, fun j a ha => ⟨j, ?_⟩⟩
      by_cases hj : j = i
      · rw [hj, hring, Cycle.mem_coe_iff, List.mem_cons] at ha
        rw [hj, update_self, Cycle.mem_coe_iff, List.mem_cons, List.mem_cons]
        tauto
      · rwa [update_of_ne hj]

theorem Changes.exists_back (h : Changes (.insque e p) rings rings') : ∃ rings'', Changes (.remque e) rings' rings'' := by
  cases h with
  | @insque _ _ _ i l _ hring =>
      have hrotated : update rings i (p :: e :: l : List (BitVec w)) i = (e :: (l ++ [p]) : List (BitVec w)) := by
        rw [update_self, Cycle.coe_cons_eq_coe_append]
        rfl
      exact ⟨_, .remque (by simp) hrotated⟩

theorem Changes.restored (h : Changes (.insque e p) rings rings') {k : Links (BitVec w)} (hk : Rings k rings) {i : ι}
    (ha : a ∈ rings i) :
    ((k.insert e p).delete e).next a = k.next a ∧ ((k.insert e p).delete e).prev a = k.prev a := by
  cases h with
  | @insque _ _ _ j l hfree hring =>
      have hjoined := hk.joined j
      rw [hring] at hjoined
      have hne {b : BitVec w} (hb : b ∈ p :: l) : b ≠ e := (hfree j b (by rwa [hring, Cycle.mem_coe_iff])).1
      exact delete_insert (hne List.mem_cons_self).symm (hne (next_mem hjoined)).symm (joined_next hjoined).2 (hfree i a ha).1

end Lists

section Calls

/-- A machine: the text, where an operation is called, what a call passes, and
what it keeps for the caller. -/
structure Isa (w : Nat) where
  code : List (Line Label)
  entry : Op w → Nat
  Passes : State w → Op w → Prop
  Keeps : State w → State w → Prop

def amd64 : Isa 64 where
  code := Amd64.code
  entry
    | .insque _ _ => 0
    | .remque _ => Amd64.insque.length
  Passes s
    | .insque e p => s.regs.di = e ∧ s.regs.si = p
    | .remque e => s.regs.di = e
  Keeps := Keeps64

def i386 : Isa 32 where
  code := I386.code
  entry
    | .insque _ _ => 0
    | .remque _ => I386.insque.length
  Passes s
    | .insque e p => load 32 s.mem (s.regs.sp + 4#32) = e ∧ load 32 s.mem (s.regs.sp + 8#32) = p
    | .remque e => load 32 s.mem (s.regs.sp + 4#32) = e
  Keeps := Keeps32

variable {w : Nat}

structure Returned (isa : Isa w) (op : Op w) (s : State w) (d : Cfg w) : Prop where
  ip : d.ip = (load w s.mem s.regs.sp).toNat
  keeps : isa.Keeps s d.state
  mem : d.state.mem = op.act s.mem

/-- Every call comes back whose return address is not written over. -/
def Isa.Returns (isa : Isa w) (ext : Nat → Option (State w → State w)) : Prop :=
  ∀ op s, isa.Passes s op → load w (op.act s.mem) s.regs.sp = load w s.mem s.regs.sp →
    Comes isa.code ext (Returned isa op s) ⟨isa.entry op, s⟩

theorem amd64_returns {ext : Nat → Option (State 64 → State 64)} (hext : ∀ i < Amd64.code.length, ext i = none) :
    amd64.Returns ext := by
  intro op s hpasses hret
  cases op with
  | insque e p =>
      obtain ⟨rfl, rfl⟩ := hpasses
      have hat : At Amd64.code 0 Amd64.insque := ⟨_, rfl⟩
      apply comes_block hext hat
      simp [Amd64.insque]
      exact .here ⟨congrArg BitVec.toNat hret, ⟨rfl, rfl, rfl, rfl, rfl, rfl, rfl⟩, rfl⟩
  | remque e =>
      obtain rfl := hpasses
      have hat : At Amd64.code Amd64.insque.length Amd64.remque := ⟨[], rfl⟩
      apply comes_block hext hat
      simp [Amd64.remque]
      exact .here ⟨congrArg BitVec.toNat hret, ⟨rfl, rfl, rfl, rfl, rfl, rfl, rfl⟩, rfl⟩

theorem i386_returns {ext : Nat → Option (State 32 → State 32)} (hext : ∀ i < I386.code.length, ext i = none) :
    i386.Returns ext := by
  intro op s hpasses hret
  cases op with
  | insque e p =>
      obtain ⟨rfl, rfl⟩ := hpasses
      have hat : At I386.code 0 I386.insque := ⟨_, rfl⟩
      apply comes_block hext hat
      simp [I386.insque]
      exact .here ⟨congrArg BitVec.toNat hret, ⟨rfl, rfl, rfl, rfl, rfl⟩, rfl⟩
  | remque e =>
      obtain rfl := hpasses
      have hat : At I386.code I386.insque.length I386.remque := ⟨[], rfl⟩
      apply comes_block hext hat
      simp [I386.remque]
      exact .here ⟨congrArg BitVec.toNat hret, ⟨rfl, rfl, rfl, rfl, rfl⟩, rfl⟩

variable {ι : Type} [DecidableEq ι] {isa : Isa w} {ext : Nat → Option (State w → State w)} {m : Mem w}
  {rings rings' : ι → Cycle (BitVec w)}

/-- A call of the operation. Since the memory was `m`, the caller has not
written to the lists; its return address is in no node. -/
structure Entered (isa : Isa w) (op : Op w) (rings : ι → Cycle (BitVec w)) (m : Mem w) (s : State w) : Prop where
  passes : isa.Passes s op
  same : ∀ i, ∀ a ∈ rings i, (links s.mem).next a = (links m).next a ∧ (links s.mem).prev a = (links m).prev a
  stack : ∀ a ∈ nodes rings op, Apart a (2 * (w / 8)) s.regs.sp (w / 8)

/-- The lists in memory after any `n` more calls, of which each returns and
changes nothing but what the operation writes. -/
def Serves (isa : Isa w) (ext : Nat → Option (State w → State w)) : Nat → (ι → Cycle (BitVec w)) → Mem w → Prop
  | 0, rings, m => Lists m rings
  | n + 1, rings, m => Lists m rings ∧ ∀ op rings', Changes op rings rings' → ∀ s, Entered isa op rings m s →
      Comes isa.code ext (fun d => d.ip = (load w s.mem s.regs.sp).toNat ∧ isa.Keeps s d.state ∧
        (∀ b, op.Leaves s.mem b → d.state.mem b = s.mem b) ∧ Serves isa ext n rings' d.state.mem) ⟨isa.entry op, s⟩

/-- `_remque(e)` directly after `_insque(e, p)` restores every link. -/
def Restores (isa : Isa w) (ext : Nat → Option (State w → State w)) (rings : ι → Cycle (BitVec w)) (m : Mem w) : Prop :=
  ∀ e p rings', Changes (.insque e p) rings rings' → ∀ s, Entered isa (.insque e p) rings m s →
    Comes isa.code ext (fun d => ∀ t, Entered isa (.remque e) rings' d.state.mem t →
      Comes isa.code ext (fun d' => ∀ i, ∀ a ∈ rings i,
        (links d'.state.mem).next a = (links m).next a ∧ (links d'.state.mem).prev a = (links m).prev a)
        ⟨isa.entry (.remque e), t⟩) ⟨isa.entry (.insque e p), s⟩

omit [DecidableEq ι] in
theorem Entered.lists {op : Op w} {s : State w} (h : Entered isa op rings m s) (hm : Lists m rings) : Lists s.mem rings :=
  ⟨hm.linked.of_agree h.same, hm.spaced⟩

theorem Entered.comes {op : Op w} {s : State w} (hw : Wide w) (hisa : isa.Returns ext) (h : Entered isa op rings m s)
    (hm : Lists m rings) (hop : Changes op rings rings') : Comes isa.code ext (Returned isa op s) ⟨isa.entry op, s⟩ :=
  hisa op s h.passes (load_act (hop.nodes (h.lists hm)) hw.pos hw.pos h.stack)

theorem Lists.serves (hw : Wide w) (hisa : isa.Returns ext) (hm : Lists m rings) (n : Nat) : Serves isa ext n rings m := by
  induction n generalizing rings m with
  | zero => exact hm
  | succ n ih =>
      refine ⟨hm, fun op rings' hop s hs => ?_⟩
      refine (hs.comes hw hisa hm hop).mono (fun _ hq => hq) fun d hd => ⟨hd.ip, hd.keeps, fun b hb => ?_, ?_⟩
      · rw [hd.mem]
        exact act_leaves hb
      · rw [hd.mem]
        exact ih ((hs.lists hm).act hw hop)

theorem Lists.restores (hw : Wide w) (hisa : isa.Returns ext) (hm : Lists m rings) : Restores isa ext rings m := by
  intro e p rings' hop s hs
  have hbefore := hs.lists hm
  have hafter := hbefore.act hw hop
  refine (hs.comes hw hisa hm hop).mono (fun _ hq => hq) fun d hd t ht => ?_
  rw [hd.mem] at ht
  obtain ⟨rings'', hback⟩ := hop.exists_back
  refine (ht.comes hw hisa hafter hback).mono (fun _ hq => hq) fun d' hd' i a ha => ?_
  have hinserted {b : BitVec w} (hb : ∃ j, b ∈ rings' j) :
      (links t.mem).next b = ((links s.mem).insert e p).next b ∧ (links t.mem).prev b = ((links s.mem).insert e p).prev b := by
    obtain ⟨j, hj⟩ := hb
    have hact := links_act hw (hop.spaced hm) (hop.nodes hbefore) (hop.mem_nodes hj)
    exact ⟨(ht.same j b hj).1.trans hact.1, (ht.same j b hj).2.trans hact.2⟩
  have hmem := hop.mem_insque
  have hact := links_act hw (hback.spaced hafter) (hback.nodes (ht.lists hafter)) (hmem.2 i a ha)
  have hdelete := delete_congr (hinserted hmem.1) (hinserted (hmem.2 i a ha))
  have hrestored := hop.restored hbefore.linked ha
  have hsame := hs.same i a ha
  rw [hd'.mem]
  exact ⟨hact.1.trans (hdelete.1.trans (hrestored.1.trans hsame.1)),
    hact.2.trans (hdelete.2.trans (hrestored.2.trans hsame.2))⟩

theorem queue_lists (ι : Type) [DecidableEq ι]
    (ext64 : Nat → Option (State 64 → State 64)) (hext64 : ∀ i < Amd64.code.length, ext64 i = none)
    (ext32 : Nat → Option (State 32 → State 32)) (hext32 : ∀ i < I386.code.length, ext32 i = none) :
    (∀ (rings : ι → Cycle (BitVec 64)) (m : Mem 64), Lists m rings →
      (∀ n, Serves amd64 ext64 n rings m) ∧ Restores amd64 ext64 rings m) ∧
    (∀ (rings : ι → Cycle (BitVec 32)) (m : Mem 32), Lists m rings →
      (∀ n, Serves i386 ext32 n rings m) ∧ Restores i386 ext32 rings m) := by
  have hw64 : Wide 64 := ⟨rfl, Nat.succ_pos 7⟩
  have hw32 : Wide 32 := ⟨rfl, Nat.succ_pos 3⟩
  constructor
  · exact fun rings m hm => ⟨hm.serves hw64 (amd64_returns hext64), hm.restores hw64 (amd64_returns hext64)⟩
  · exact fun rings m hm => ⟨hm.serves hw32 (i386_returns hext32), hm.restores hw32 (i386_returns hext32)⟩

section Sample

def sampleRings : Unit → Cycle (BitVec 32) := fun _ => ([4096#32] : List (BitVec 32))

def sampleMemory : Mem 32 :=
  store (store (store (store (fun _ => 0#8) 4096#32 4096#32) 4100#32 4096#32) 65540#32 8192#32) 65544#32 4096#32

def sampleState : State 32 :=
  ⟨⟨0#32, 0#32, 0#32, 0#32, 65536#32, 0#32, 0#32, 0#32, .zero⟩, undefinedFlags, false, sampleMemory⟩

theorem mem_sampleRings {a : BitVec 32} {i : Unit} (h : a ∈ sampleRings i) : a = 4096#32 := by
  simpa [sampleRings] using h

theorem lists_sample : Lists sampleMemory sampleRings := by
  refine ⟨⟨fun _ => (Cycle.chain_singleton _ _).mpr ⟨by decide, by decide⟩,
    fun _ => Cycle.nodup_coe_iff.mpr (List.nodup_singleton _), fun _ _ _ _ _ => rfl⟩, ?_⟩
  rintro a ⟨i, ha⟩ b ⟨j, hb⟩ hne
  exact absurd ((mem_sampleRings ha).trans (mem_sampleRings hb).symm) hne

theorem changes_sample : Changes (.insque 8192#32 4096#32) sampleRings
    (update sampleRings () ([4096#32, 8192#32] : List (BitVec 32))) := by
  refine .insque (fun j a ha => ?_) rfl
  rw [mem_sampleRings ha]
  decide

theorem entered_sample : Entered i386 (.insque 8192#32 4096#32) sampleRings sampleMemory sampleState := by
  refine ⟨⟨by decide, by decide⟩, fun _ _ _ => ⟨rfl, rfl⟩, ?_⟩
  rintro a (rfl | ⟨i, ha⟩)
  · decide
  · rw [mem_sampleRings ha]
    decide

theorem queue_lists_sample : Comes I386.code (fun _ => none)
    (fun d => Lists d.state.mem (update sampleRings () ([4096#32, 8192#32] : List (BitVec 32)))) ⟨0, sampleState⟩ := by
  have hserves := ((queue_lists Unit (fun _ => none) (fun _ _ => rfl) (fun _ => none) (fun _ _ => rfl)).2
    sampleRings sampleMemory lists_sample).1 1
  exact (hserves.2 _ _ changes_sample _ entered_sample).mono (fun _ hq => hq) fun d hd => hd.2.2.2

end Sample

end Calls

end SysvDev.Subr.Queue
