import SysvDev.Division.Interface
import SysvDev.Division.UDiv
import SysvDev.Division.UDivRem

namespace SysvDev.Division.Unsigned

open Word X86.Memory X86.Machine X86.Run Text Stack Interface

variable {o : State 32} {f : BitVec 32} {x y : BitVec 64} {name : Label} {pops : Nat}

attribute [local simp] merge_word load_store_word load_store_slot load_store_base BitVec.add_assoc
  add_sub_assoc

theorem leads_udiv (pops : Nat) (hat : At text (addr name) (udiv name pops)) (hlt : addr name < 2 ^ 31)
    (hsp : o.regs.sp = f + 64#32) (hx : load 64 o.mem (f + 68#32) = x) (hy : load 64 o.mem (f + 76#32) = y)
    (h0 : y ≠ 0#64) :
    Leads (Steps text) ⟨addr name, o⟩ (Gives o f 64 pops (x / y)) := by
  obtain ⟨⟨ax, cx, dx, bx, sp, bp, si, di, hi⟩, fl, df, m⟩ := o
  obtain rfl : sp = f + 64#32 := hsp
  rw [load_pair] at hx hy
  simp at hx hy
  subst hx hy
  have hret : (addr name + 1 + 1 + 1 + 1 + 1 + 1) % 4294967296 = addr name + 1 + 1 + 1 + 1 + 1 + 1 :=
    Nat.mod_eq_of_lt (by omega)
  have hlocals {v v' v'' : BitVec 32} : ChangedIn f 64 m
      (store (store (store m (f + 60#32) v) (f + 56#32) v') (f + 52#32) v'') :=
    (((ChangedIn.refl f 64 m).store (by decide)).store (by decide)).store (by decide)
  apply leads_run hat
  simp [udiv]
  apply (UDiv.leads_uDiv ⟨rfl, by simp, by simp⟩ h0).trans
  rintro ⟨ip, ⟨⟨ax', cx', dx', bx', sp', bp', si', di', hi'⟩, fl', df', m'⟩⟩ ⟨hip, hsp, hbx, hbp, hsi, hdi, hq, hout⟩
  simp at hip hsp hbx hbp hsi hdi hq
  subst hip hsp hbx hbp hsi hdi
  rw [hret]
  apply leads_run hat.tail.tail.tail.tail.tail.tail
  simp
  have hall : ChangedIn f 64 m m' := hlocals.trans (hout.mono (by decide))
  refine .here ⟨⟨?_, ?_, rfl, rfl, rfl, hall⟩, rfl, hq⟩
  · exact congrArg BitVec.toNat (hall.above 64 (by decide) (by decide) (by decide) (by decide))
  · simp

/-- The beginning that `urem` and `__udivrem64` share: the call of `UDivRem`
with the remainder in a local. -/
def callUDivRem (name : Label) : List (Line Label) := (urem name 0).take 9

structure Remains (o : State 32) (f : BitVec 32) (x y : BitVec 64) (name : Label) (c : Cfg 32) : Prop where
  ip : c.ip = addr name + 1 + 1 + 1 + 1 + 1 + 1 + 1 + 1 + 1
  sp : c.state.regs.sp = f + 64#32
  bx : c.state.regs.bx = o.regs.bx
  bp : c.state.regs.bp = o.regs.bp
  si : c.state.regs.si = o.regs.si
  di : c.state.regs.di = o.regs.di
  quotient : c.state.regs.dx ++ c.state.regs.ax = x / y
  remainder : load 64 c.state.mem (f + 76#32) = x % y
  outside : ChangedIn f 88 o.mem c.state.mem

theorem leads_callUDivRem (hat : At text (addr name) (callUDivRem name)) (hlt : addr name < 2 ^ 31)
    (hsp : o.regs.sp = f + 88#32) (hx : load 64 o.mem (f + 92#32) = x) (hy : load 64 o.mem (f + 100#32) = y)
    (h0 : y ≠ 0#64) : Leads (Steps text) ⟨addr name, o⟩ (Remains o f x y name) := by
  obtain ⟨⟨ax, cx, dx, bx, sp, bp, si, di, hi⟩, fl, df, m⟩ := o
  obtain rfl : sp = f + 88#32 := hsp
  rw [load_pair] at hx hy
  simp at hx hy
  subst hx hy
  have hret : (addr name + 1 + 1 + 1 + 1 + 1 + 1 + 1 + 1 + 1) % 4294967296 =
      addr name + 1 + 1 + 1 + 1 + 1 + 1 + 1 + 1 + 1 := Nat.mod_eq_of_lt (by omega)
  have hlocals {v v' v'' v''' : BitVec 32} : ChangedIn f 88 m
      (store (store (store (store m (f + 72#32) v) (f + 68#32) v') (f + 64#32) v'') (f + 60#32) v''') :=
    ((((ChangedIn.refl f 88 m).store (by decide)).store (by decide)).store (by decide)).store (by decide)
  have hapart : Apart f 64 (f + 76#32) 8 := by
    have hslot : Apart (f + 0#32) 64 (f + 76#32) 8 := apart_add.mpr (by decide)
    rwa [BitVec.add_zero] at hslot
  apply leads_run hat
  simp [callUDivRem, urem]
  apply (UDivRem.leads_uDivRem (f := f) (r := f + 76#32) ⟨rfl, by simp, by simp, by simp⟩ hapart h0).trans
  rintro ⟨ip, ⟨⟨ax', cx', dx', bx', sp', bp', si', di', hi'⟩, fl', df', m'⟩⟩
    hdivided
  have hout := hlocals.trans ((hdivided.changedIn (by decide)).mono (by decide))
  obtain ⟨hip, hsp, hbx, hbp, hsi, hdi, hq, hrem, -⟩ := hdivided
  simp at hip hsp hbx hbp hsi hdi hq hrem
  subst hip hsp hbx hbp hsi hdi
  exact .here ⟨hret, rfl, rfl, rfl, rfl, rfl, hq, hrem, hout⟩

theorem leads_urem (pops : Nat) (hat : At text (addr name) (urem name pops)) (hlt : addr name < 2 ^ 31)
    (hsp : o.regs.sp = f + 88#32) (hx : load 64 o.mem (f + 92#32) = x) (hy : load 64 o.mem (f + 100#32) = y)
    (h0 : y ≠ 0#64) :
    Leads (Steps text) ⟨addr name, o⟩ (Gives o f 88 pops (x % y)) := by
  have hcall : At text (addr name) (callUDivRem name) := (List.take_prefix 9 (urem name pops)).trans hat
  apply (leads_callUDivRem hcall hlt hsp hx hy h0).trans
  rintro ⟨ip, ⟨⟨ax, cx, dx, bx, sp, bp, si, di, hi⟩, fl, df, m⟩⟩ ⟨rfl, rfl, rfl, rfl, rfl, rfl, -, hrem, hout⟩
  have hrest := hout.above (n := 32) 88 (by decide) (by decide) (by decide) (by decide)
  rw [load_pair] at hrem
  simp at hrem
  apply leads_run hat.tail.tail.tail.tail.tail.tail.tail.tail.tail
  simp
  refine .here ⟨⟨?_, ?_, rfl, rfl, rfl, hout⟩, rfl, hrem⟩
  · rw [hsp]
    exact congrArg BitVec.toNat hrest
  · simp [hsp]

theorem leads_udivrem64 (hat : At text (addr name) (.label name :: udivrem64.tail)) (hlt : addr name < 2 ^ 31)
    (hsp : o.regs.sp = f + 88#32) (hx : load 64 o.mem (f + 92#32) = x) (hy : load 64 o.mem (f + 100#32) = y)
    (h0 : y ≠ 0#64) :
    Leads (Steps text) ⟨addr name, o⟩ fun c =>
      Returned o f 88 16 c ∧ c.state.regs.dx ++ c.state.regs.ax = x / y ∧
        c.state.regs.cx ++ c.state.regs.si = x % y := by
  have hcall : At text (addr name) (callUDivRem name) := by
    have htake : callUDivRem name = (Line.label name :: udivrem64.tail).take 9 := rfl
    rw [htake]
    exact (List.take_prefix 9 _).trans hat
  apply (leads_callUDivRem hcall hlt hsp hx hy h0).trans
  rintro ⟨ip, ⟨⟨ax, cx, dx, bx, sp, bp, si, di, hi⟩, fl, df, m⟩⟩ ⟨rfl, rfl, rfl, rfl, rfl, rfl, hq, hrem, hout⟩
  have hrest := hout.above (n := 32) 88 (by decide) (by decide) (by decide) (by decide)
  rw [load_pair] at hrem
  simp at hrem
  apply leads_run hat.tail.tail.tail.tail.tail.tail.tail.tail.tail
  simp
  refine .here ⟨⟨?_, ?_, rfl, rfl, rfl, hout⟩, hq, hrem⟩
  · rw [hsp]
    exact congrArg BitVec.toNat hrest
  · simp [hsp]

inductive Routine
  | uDivRem | uDiv | udivdi3 | umoddi3 | udiv64 | urem64 | udivrem64

def Routine.entry : Routine → Entry
  | uDivRem => ⟨.uDivRem, 60, 0, true, some .edxEax, some .pmod⟩
  | uDiv => ⟨.uDiv, 52, 0, true, some .edxEax, none⟩
  | udivdi3 => ⟨.udivdi3, 64, 0, false, some .edxEax, none⟩
  | umoddi3 => ⟨.umoddi3, 88, 0, false, none, some .edxEax⟩
  | udiv64 => ⟨.udiv64, 64, 16, false, some .edxEax, none⟩
  | urem64 => ⟨.urem64, 88, 16, false, none, some .edxEax⟩
  | udivrem64 => ⟨.udivrem64, 88, 16, false, some .edxEax, some .ecxEsi⟩

def Exact (x y q r : BitVec 64) : Prop := x.toNat = q.toNat * y.toNat + r.toNat ∧ r.toNat < y.toNat

theorem exact_div_mod (hy : y ≠ 0#64) : Exact x y (x / y) (x % y) := by
  have hpos : 0 < y.toNat := Nat.pos_of_ne_zero fun hzero => hy (BitVec.eq_of_toNat_eq hzero)
  rw [Exact, BitVec.toNat_udiv, BitVec.toNat_umod, Nat.mul_comm, Nat.div_add_mod]
  exact ⟨rfl, Nat.mod_lt _ hpos⟩

open Routine

theorem leads_routine_uDivRem (hy : uDivRem.entry.divisor o ≠ 0#64) (hr : uDivRem.entry.Fits o)
    (hf : o.regs.sp = f + 60#32) :
    Leads (Steps text) ⟨addr .uDivRem, o⟩ (uDivRem.entry.Divides (· / ·) (· % ·) o) := by
  have hbase : o.regs.sp - 60#32 = f := by rw [hf, BitVec.add_sub_cancel]
  have hpair : load 32 o.mem (f + 68#32) ++ load 32 o.mem (f + 64#32) = uDivRem.entry.divisor o := by
    simp [Entry.divisor, Routine.entry, hf, load_pair]
  have hpmod : load 32 o.mem (f + 72#32) = pmod o := by simp [pmod, hf]
  have hapart : Apart f 64 (pmod o) 8 := hbase ▸ hr rfl
  rw [← hpair] at hy
  apply (UDivRem.leads_uDivRem ⟨hf, rfl, rfl, hpmod⟩ hapart hy).mono
  rw [hpair]
  intro c h
  exact Entry.divides_pmod hf rfl rfl h.ip h.sp h.bx h.bp h.si h.di h.quotient h.remainder h.outside

theorem leads_routine_uDiv (hy : uDiv.entry.divisor o ≠ 0#64) (hf : o.regs.sp = f + 52#32) :
    Leads (Steps text) ⟨addr .uDiv, o⟩ (uDiv.entry.Divides (· / ·) (· % ·) o) := by
  have hpair : load 32 o.mem (f + 60#32) ++ load 32 o.mem (f + 56#32) = uDiv.entry.divisor o := by
    simp [Entry.divisor, Routine.entry, hf, load_pair]
  rw [← hpair] at hy
  apply (UDiv.leads_uDiv ⟨hf, rfl, rfl⟩ hy).mono
  rw [hpair]
  rintro c ⟨hip, hsp, hbx, hbp, hsi, hdi, hq, hout⟩
  refine Entry.divides_of_returned hf ⟨?_, ?_, hbx, hbp, hdi, hout⟩ (fun _ => hsi) ?_ (by rintro - ⟨⟩)
  · rw [hip, hf]
  · rw [hsp, hf]
    simp [Routine.entry]
  · intro p hp
    obtain rfl := Option.some.inj hp
    exact hq

theorem leads_routine (e : Routine) (o : State 32) (hy : e.entry.divisor o ≠ 0#64) (hr : e.entry.Fits o) :
    Leads (Steps text) ⟨addr e.entry.label, o⟩ (e.entry.Divides (· / ·) (· % ·) o) := by
  obtain ⟨f, hf⟩ : ∃ f, o.regs.sp = f + BitVec.ofNat 32 e.entry.depth :=
    ⟨o.regs.sp - BitVec.ofNat 32 e.entry.depth, (BitVec.sub_add_cancel _ _).symm⟩
  have hx := Entry.dividend_eq hf
  have hdivisor := Entry.divisor_eq hf
  cases e with
  | uDivRem => exact leads_routine_uDivRem hy hr hf
  | uDiv => exact leads_routine_uDiv hy hf
  | udivdi3 =>
      apply (leads_udiv 0 (by decide +kernel) (by decide +kernel) hf (hx rfl) (hdivisor rfl) hy).mono
      exact fun c => Entry.divides_quotient hf rfl rfl
  | umoddi3 =>
      apply (leads_urem 0 (by decide +kernel) (by decide +kernel) hf (hx rfl) (hdivisor rfl) hy).mono
      exact fun c => Entry.divides_remainder hf rfl rfl
  | udiv64 =>
      apply (leads_udiv 16 (by decide +kernel) (by decide +kernel) hf (hx rfl) (hdivisor rfl) hy).mono
      exact fun c => Entry.divides_quotient hf rfl rfl
  | urem64 =>
      apply (leads_urem 16 (by decide +kernel) (by decide +kernel) hf (hx rfl) (hdivisor rfl) hy).mono
      exact fun c => Entry.divides_remainder hf rfl rfl
  | udivrem64 =>
      apply (leads_udivrem64 (by decide +kernel) (by decide +kernel) hf (hx rfl) (hdivisor rfl) hy).mono
      exact fun c h => Entry.divides_both hf rfl rfl h.1 h.2.1 h.2.2

/-- Unsigned division, for every dividend and every divisor but zero: the
quotient and the remainder are where they should be when the routine
returns, and no `divl` on the way overflows. -/
theorem unsigned_division (e : Routine) (o : State 32) (hy : e.entry.divisor o ≠ 0#64) (hr : e.entry.Fits o) :
    Completes text ⟨addr e.entry.label, o⟩ (fun c => e.entry.Divides (· / ·) (· % ·) o c ∧
      ∀ p p', e.entry.quotient = some p → e.entry.remainder = some p' →
        Exact (e.entry.dividend o) (e.entry.divisor o) (p.value o c) (p'.value o c)) := by
  apply (leads_routine e o hy hr).completes
  intro c hc
  refine ⟨hc, fun p p' hp hp' => ?_⟩
  rw [hc.quotient p hp, hc.remainder p' hp']
  exact exact_div_mod hy

def sevenByTwo : State 32 where
  regs := ⟨7#32, 0#32, 0#32, 0#32, 1000#32, 0#32, 0#32, 0#32, .zero⟩
  flags := undefinedFlags
  df := false
  mem := store (store (fun _ => 0#8) 1004#32 2#64) 1012#32 2000#32

theorem unsigned_division_sevenByTwo :
    Completes text ⟨addr .uDivRem, sevenByTwo⟩ (fun c =>
      uDivRem.entry.Divides (· / ·) (· % ·) sevenByTwo c ∧
        ∀ p p', uDivRem.entry.quotient = some p → uDivRem.entry.remainder = some p' →
          Exact (uDivRem.entry.dividend sevenByTwo) (uDivRem.entry.divisor sevenByTwo) (p.value sevenByTwo c)
            (p'.value sevenByTwo c)) :=
  unsigned_division .uDivRem sevenByTwo (by decide +kernel) fun _ => by decide +kernel

end SysvDev.Division.Unsigned
