import SysvDev.Division.Interface
import SysvDev.Division.Sign
import SysvDev.Division.UDivRem

namespace SysvDev.Division.SDivRem

open Word X86.Memory X86.Machine X86.Run Text Text.SDivRem Stack Sign Interface

variable {o : State 32} {f r ax cx dx bx bp si di : BitVec 32} {hi : HighRegs 32} {fl : Flags} {df : Bool}
  {m : Mem 32} {x y q rem : BitVec 64} {neg sgn : Bool}

/-- Inside a call of `SDivRem`, with the stack pointer at `f + 76` and the
pointer `r`. -/
structure Call (o : State 32) (f r bx : BitVec 32) (m : Mem 32) : Prop where
  sp : o.regs.sp = f + 112#32
  bx : bx = o.regs.bx
  si : load 32 m (f + 100#32) = o.regs.si
  di : load 32 m (f + 104#32) = o.regs.di
  bp : load 32 m (f + 108#32) = o.regs.bp
  pmod : load 32 m (f + 124#32) = r
  outside : ChangedIn f 112 o.mem m

theorem Call.changed {m' : Mem 32} (h : Call o f r bx m) (hm : ChangedIn f 100 m m') : Call o f r bx m' := by
  constructor
  · exact h.sp
  · exact h.bx
  · exact (hm.above 100 (by decide) (by decide) (by decide) (by decide)).trans h.si
  · exact (hm.above 104 (by decide) (by decide) (by decide) (by decide)).trans h.di
  · exact (hm.above 108 (by decide) (by decide) (by decide) (by decide)).trans h.bp
  · exact (hm.above 124 (by decide) (by decide) (by decide) (by decide)).trans h.pmod
  · exact h.outside.trans (hm.mono (by decide))

theorem Call.set {c v : BitVec 32} (h : Call o f r bx m) (hc : c.toNat + 4 ≤ 100) :
    Call o f r bx (store m (f + c) v) :=
  h.changed ((ChangedIn.refl f 100 m).store hc)

structure Divided (o : State 32) (f r : BitVec 32) (q rem : BitVec 64) (c : Cfg 32) : Prop where
  ip : c.ip = (load 32 o.mem (f + 112#32)).toNat
  sp : c.state.regs.sp = f + 116#32
  bx : c.state.regs.bx = o.regs.bx
  bp : c.state.regs.bp = o.regs.bp
  si : c.state.regs.si = o.regs.si
  di : c.state.regs.di = o.regs.di
  quotient : c.state.regs.dx ++ c.state.regs.ax = q
  remainder : load 64 c.state.mem r = rem
  outside : ∀ b, 112 ≤ (b - f).toNat → 8 ≤ (b - r).toNat → c.state.mem b = o.mem b

theorem Divided.changedIn {d : BitVec 32} {c : Cfg 32} (h : Divided o f (f + d) q rem c) (hd : 104 ≤ d.toNat) :
    ChangedIn f (d.toNat + 8) o.mem c.state.mem := by
  intro b hb
  apply h.outside b (by omega)
  rw [toNat_sub_add (by omega)]
  omega

attribute [local simp] merge_word load_store_word load_store_slot load_store_base BitVec.add_assoc
  add_sub_assoc

-- Checked once: a look at the whole text is expensive.
structure Stands : Prop where
  next71 : addr (.LL 71) + 1 + 1 + 1 + 1 + 1 + 1 + 1 + 1 + 1 + 1 + 1 = addr (.LL 72)
  next70 : addr (.LL 70) + 1 + 1 + 1 + 1 + 1 + 1 + 1 + 1 + 1 + 1 + 1 + 1 + 1 + 1 + 1 = addr (.LL 71)
  next73 : addr (.LL 73) + 1 + 1 + 1 + 1 + 1 + 1 + 1 + 1 + 1 + 1 + 1 + 1 + 1 = addr (.LL 74)
  nextEntry : addr .sDivRem + 1 + 1 + 1 + 1 + 1 + 1 + 1 + 1 + 1 + 1 + 1 + 1 + 1 + 1 + 1 + 1 = addr (.LL 70)
  ll72 : At text (addr (.LL 72)) ll72
  ll71 : At text (addr (.LL 71)) ll71
  ll75 : At text (addr (.LL 75)) ll75
  ll74 : At text (addr (.LL 74)) ll74
  ll73 : At text (addr (.LL 73)) ll73
  entry : At text (addr .sDivRem) entry
  ll70 : At text (addr (.LL 70)) ll70
  small70 : addr (.LL 70) < 2 ^ 31

theorem stands : Stands := by constructor <;> decide +kernel

theorem leads_ll72 {lo hw : BitVec 32} (h : Call o f r bx m) (hr : Apart f 116 r 8) (hrem : hw ++ lo = rem) :
    Leads (Steps text) ⟨addr (.LL 72), ⟨⟨ax, cx, dx, bx, f + 76#32, bp, si, di, hi⟩, fl, df,
      store (store m r lo) (r + 4#32) hw⟩⟩ (Divided o f r (dx ++ ax) rem) := by
  have hret : load 32 m (f + 112#32) = load 32 o.mem (f + 112#32) :=
    h.outside.above 112 (by decide) (by decide) (by decide) (by decide)
  apply leads_run (Stands.ll72 stands)
  simp [ll72]
  refine .here ⟨?_, rfl, h.bx, ?_, ?_, ?_, rfl, load_pair_store.trans hrem, ?_⟩
  · exact congrArg BitVec.toNat ((load_store_pair hr (by decide)).trans hret)
  · exact (load_store_pair hr (by decide)).trans h.bp
  · exact (load_store_pair hr (by decide)).trans h.si
  · exact (load_store_pair hr (by decide)).trans h.di
  · intro b hb hb'
    exact (store_pair_outside hb').trans (h.outside b hb)

theorem leads_ll71 (h : Call o f r bx m) (hr : Apart f 116 r 8)
    (hq : load 32 m (f + 80#32) ++ load 32 m (f + 76#32) = q) (hrem : cx ++ dx = rem) :
    Leads (Steps text) ⟨addr (.LL 71),
      ⟨⟨ax, cx, dx, bx, f + 76#32, BitVec.ofNat 32 neg.toNat, si, di, hi⟩, fl, df, m⟩⟩
      (Divided o f r (signed neg q) rem) := by
  have hstep := Stands.next71 stands
  have hlo : load 32 (store (store m r dx) (r + 4#32) cx) (f + 76#32) = load 32 m (f + 76#32) :=
    load_store_pair hr (by decide)
  have hhi : load 32 (store (store m r dx) (r + 4#32) cx) (f + 80#32) = load 32 m (f + 80#32) :=
    load_store_pair hr (by decide)
  subst hq
  apply leads_run (Stands.ll71 stands)
  cases neg with
  | false =>
      simpa [ll71, h.pmod, hlo, hhi, signed_false] using leads_ll72 h hr hrem
  | true =>
      simp [ll71, h.pmod, hlo, hhi, signed_true]
      rw [hstep, ← pair_negative]
      exact leads_ll72 h hr hrem

/-- From `.LL70` on the magnitude of the dividend is in the locals, that of
the divisor in `%ecx:%edx`, the dividend's sign in `%edi`, and `%ebp` is 1 if
the quotient is to be negated. -/
theorem leads_ll70 (neg : Bool) (h : Call o f r bx m) (hr : Apart f 116 r 8)
    (hx : load 32 m (f + 88#32) ++ load 32 m (f + 84#32) = x) (hy : cx ++ dx ≠ 0#64) (hdi : di.msb = sgn) :
    Leads (Steps text) ⟨addr (.LL 70),
      ⟨⟨ax, cx, dx, bx, f + 76#32, BitVec.ofNat 32 neg.toNat, si, di, hi⟩, fl, df, m⟩⟩
      (Divided o f r (signed neg (x / (cx ++ dx))) (signed sgn (x % (cx ++ dx)))) := by
  have hat := Stands.ll70 stands
  have hsmall := Stands.small70 stands
  have hstep := Stands.next70 stands
  have hlocals {v v' v'' v''' : BitVec 32} : Call o f r bx (store (store (store (store m (f + 72#32) v)
      (f + 68#32) v') (f + 64#32) v'') (f + 60#32) v''') :=
    (((h.set (by decide)).set (by decide)).set (by decide)).set (by decide)
  have hapart : Apart f 64 (f + 92#32) 8 := by
    have hslot : Apart (f + 0#32) 64 (f + 92#32) 8 := apart_add.mpr (by decide)
    rwa [BitVec.add_zero] at hslot
  subst hx
  -- the position is made a variable, so that nothing computes it
  generalize addr (.LL 70) = a at hat hsmall hstep ⊢
  have hret : (a + 1 + 1 + 1 + 1 + 1 + 1 + 1 + 1) % 4294967296 = a + 1 + 1 + 1 + 1 + 1 + 1 + 1 + 1 :=
    Nat.mod_eq_of_lt (by omega)
  apply leads_run hat
  simp [ll70]
  apply (UDivRem.leads_uDivRem (f := f) (r := f + 92#32) ⟨rfl, by simp, by simp, by simp⟩ hapart hy).trans
  rintro ⟨ip, ⟨⟨ax', cx', dx', bx', sp', bp', si', di', hi'⟩, fl', df', m'⟩⟩ hdivided
  have hback := hlocals.changed ((hdivided.changedIn (by decide)).mono (by decide))
  obtain ⟨hip, hsp, hbx, hbp, hsi, hdi', hq, hrem, -⟩ := hdivided
  simp at hip hsp hbx hbp hsi hdi' hq
  rw [load_pair] at hrem
  simp at hrem
  subst hip hsp hbx hbp hsi hdi'
  have hset {v v' : BitVec 32} : Call o f r bx' (store (store m' (f + 80#32) v) (f + 76#32) v') :=
    (hback.set (by decide)).set (by decide)
  rw [hret, ← hrem, ← hq]
  apply leads_run hat.tail.tail.tail.tail.tail.tail.tail.tail
  cases sgn with
  | false =>
      simpa [hdi, signed_false (_ ++ _), hstep] using leads_ll71 hset hr (by simp) rfl
  | true =>
      simp [hdi]
      apply leads_run (Stands.ll75 stands)
      simp [ll75]
      exact leads_ll71 hset hr (by simp) (pair_negative _ _)

theorem leads_ll74 (neg : Bool) (h : Call o f r bx m) (hr : Apart f 116 r 8)
    (hx : load 32 m (f + 88#32) ++ load 32 m (f + 84#32) = x) (hy : cx ++ dx ≠ 0#64) (hdi : di.msb = sgn) :
    Leads (Steps text) ⟨addr (.LL 74),
      ⟨⟨ax, cx, dx, bx, f + 76#32, BitVec.ofNat 32 neg.toNat, si, di, hi⟩, fl, df, m⟩⟩
      (Divided o f r (signed (!neg) (x / -(cx ++ dx))) (signed sgn (x % -(cx ++ dx)))) := by
  have hflip : BitVec.ofNat 32 neg.toNat ^^^ 1#32 = BitVec.ofNat 32 (!neg).toNat := by cases neg <;> rfl
  have hneg : -(cx ++ dx) ≠ 0#64 := neg_ne_zero.mpr hy
  rw [← pair_negative] at hneg ⊢
  apply leads_run (Stands.ll74 stands)
  simpa [ll74, hflip] using leads_ll70 (!neg) h hr hx hneg hdi

theorem leads_ll73 (h : Call o f r bx m) (hr : Apart f 116 r 8)
    (hy : load 32 m (f + 120#32) ++ load 32 m (f + 116#32) = y) (h0 : y ≠ 0#64) (hdi : di = dx)
    (hx : dx.msb = true) :
    Leads (Steps text) ⟨addr (.LL 73), ⟨⟨ax, cx, dx, bx, f + 76#32, bp, si, di, hi⟩, fl, df, m⟩⟩
      (Divided o f r ((dx ++ ax).sdiv y) ((dx ++ ax).srem y)) := by
  have hstep := Stands.next73 stands
  have hset {v v' : BitVec 32} : Call o f r bx (store (store m (f + 88#32) v) (f + 84#32) v') :=
    (h.set (by decide)).set (by decide)
  subst hy hdi
  apply leads_run (Stands.ll73 stands)
  rw [sdiv_magnitude, srem_magnitude, magnitude, magnitude, msb_pair, msb_pair, hx, signed_true (di ++ ax),
    ← pair_negative]
  cases hsign : (load 32 m (f + 120#32)).msb with
  | false =>
      simp [ll73, hsign]
      exact leads_ll70 true hset hr (by simp) h0 hx
  | true =>
      simp [ll73, hsign]
      rw [hstep]
      exact leads_ll74 true hset hr (by simp) h0 hx

structure Args (o : State 32) (f r : BitVec 32) (y : BitVec 64) : Prop where
  sp : o.regs.sp = f + 112#32
  divisor : load 64 o.mem (f + 116#32) = y
  pmod : load 32 o.mem (f + 124#32) = r

theorem call_enter (h : Args o f r y) :
    Call o f r o.regs.bx (store (store (store o.mem (f + 108#32) o.regs.bp) (f + 104#32) o.regs.di) (f + 100#32)
      o.regs.si) := by
  refine ⟨h.sp, rfl, ?_, ?_, ?_, ?_, ?_⟩
  · simp
  · simp
  · simp
  · simp [h.pmod]
  · exact (((ChangedIn.refl f 112 o.mem).store (by decide)).store (by decide)).store (by decide)

theorem leads_sDivRem (h : Args o f r y) (hr : Apart f 116 r 8) (h0 : y ≠ 0#64) :
    Leads (Steps text) ⟨addr .sDivRem, o⟩
      (Divided o f r ((o.regs.dx ++ o.regs.ax).sdiv y) ((o.regs.dx ++ o.regs.ax).srem y)) := by
  have hstep := Stands.nextEntry stands
  have hcall := call_enter h
  have hset {v v' : BitVec 32} : Call o f r o.regs.bx (store (store (store (store (store o.mem (f + 108#32)
      o.regs.bp) (f + 104#32) o.regs.di) (f + 100#32) o.regs.si) (f + 88#32) v) (f + 84#32) v') :=
    (hcall.set (by decide)).set (by decide)
  obtain ⟨hsp, hy, -⟩ := h
  rw [load_pair] at hy
  simp at hy
  subst hy
  obtain ⟨⟨ax, cx, dx, bx, sp, bp, si, di, hi⟩, fl, df, m⟩ := o
  obtain rfl : sp = f + 112#32 := hsp
  apply leads_run (Stands.entry stands)
  cases hsign : dx.msb with
  | true =>
      simpa [entry, hsign] using leads_ll73 hcall hr (by simp) h0 rfl hsign
  | false =>
      rw [sdiv_magnitude, srem_magnitude, magnitude, magnitude, msb_pair, msb_pair, hsign, signed_false (dx ++ ax)]
      cases hsign' : (load 32 m (f + 120#32)).msb with
      | false =>
          simp [entry, hsign, hsign']
          rw [hstep]
          exact leads_ll70 false hset hr (by simp) h0 hsign
      | true =>
          simp [entry, hsign, hsign']
          exact leads_ll74 false hset hr (by simp) h0 hsign

end SysvDev.Division.SDivRem
