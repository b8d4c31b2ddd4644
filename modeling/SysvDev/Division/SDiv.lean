import SysvDev.Division.Interface
import SysvDev.Division.Sign
import SysvDev.Division.UDiv

namespace SysvDev.Division.SDiv

open Word X86.Memory X86.Machine X86.Run Text Text.SDiv Stack Sign Interface

variable {o : State 32} {f ax cx dx bx bp si di : BitVec 32} {hi : HighRegs 32} {fl : Flags} {df : Bool}
  {m : Mem 32} {x y : BitVec 64} {name : Label} {k pops : Nat}

/-- Inside a call of `__divdi3` or `__div64`, with the stack pointer at
`f + 64`. -/
structure Call (o : State 32) (f bx : BitVec 32) (m : Mem 32) : Prop where
  sp : o.regs.sp = f + 84#32
  bx : bx = o.regs.bx
  si : load 32 m (f + 72#32) = o.regs.si
  di : load 32 m (f + 76#32) = o.regs.di
  bp : load 32 m (f + 80#32) = o.regs.bp
  outside : ChangedIn f 84 o.mem m

theorem Call.set {c v : BitVec 32} (h : Call o f bx m) (hc : c.toNat + 4 ≤ 72) :
    Call o f bx (store m (f + c) v) := by
  constructor
  · exact h.sp
  · exact h.bx
  · exact (load_store_above 72 hc (by decide) (by decide)).trans h.si
  · exact (load_store_above 76 hc (by decide) (by decide)).trans h.di
  · exact (load_store_above 80 hc (by decide) (by decide)).trans h.bp
  · exact h.outside.store (Nat.le_trans hc (by decide))

theorem Call.changed {m' : Mem 32} (h : Call o f bx m) (hm : ChangedIn f 64 m m') : Call o f bx m' := by
  constructor
  · exact h.sp
  · exact h.bx
  · exact (hm.above 72 (by decide) (by decide) (by decide) (by decide)).trans h.si
  · exact (hm.above 76 (by decide) (by decide) (by decide) (by decide)).trans h.di
  · exact (hm.above 80 (by decide) (by decide) (by decide) (by decide)).trans h.bp
  · exact h.outside.trans (hm.mono (by decide))

/-- Where the lines of one of the two routines stand. -/
structure Placed (name : Label) (k pops : Nat) : Prop where
  entry : At text (addr name) (entry name k)
  ll53 : At text (addr (.LL k)) (ll53 k)
  ll54 : At text (addr (.LL (k + 1))) (ll54 k pops)
  ll55 : At text (addr (.LL (k + 2))) (ll55 k)
  ll56 : At text (addr (.LL (k + 3))) (ll56 k)
  entry_ll53 : addr name + 18 = addr (.LL k)
  ll53_ll54 : addr (.LL k) + 13 = addr (.LL (k + 1))
  ll55_ll56 : addr (.LL (k + 2)) + 12 = addr (.LL (k + 3))
  small : addr (.LL k) < 2 ^ 31

theorem placed_divdi3 : Placed .divdi3 53 0 := by constructor <;> decide +kernel

theorem placed_div64 : Placed .div64 82 16 := by constructor <;> decide +kernel

attribute [local simp] merge_word load_store_word load_store_slot load_store_base BitVec.add_assoc
  add_sub_assoc

theorem leads_ll54 (hp : Placed name k pops) (h : Call o f bx m) :
    Leads (Steps text) ⟨addr (.LL (k + 1)), ⟨⟨ax, cx, dx, bx, f + 64#32, bp, si, di, hi⟩, fl, df, m⟩⟩
      (Gives o f 84 pops (dx ++ ax)) := by
  have hret : load 32 m (f + 84#32) = load 32 o.mem (f + 84#32) :=
    h.outside.above 84 (by decide) (by decide) (by decide) (by decide)
  apply leads_run hp.ll54
  simp [ll54]
  refine .here ⟨⟨?_, ?_, h.bx, h.bp, h.di, h.outside⟩, h.si, rfl⟩
  · rw [h.sp]
    exact congrArg BitVec.toNat hret
  · simp [h.sp]

/-- From the common label on, the magnitude of the dividend is in the locals,
that of the divisor in `%edx:%eax`, and `%ebp` is 1 if the result is to be
negated. -/
theorem leads_ll53 (hp : Placed name k pops) (h : Call o f bx m)
    (hx : load 32 m (f + 68#32) ++ load 32 m (f + 64#32) = x) (hy : dx ++ ax ≠ 0#64) (neg : Bool) :
    Leads (Steps text) ⟨addr (.LL k),
      ⟨⟨ax, cx, dx, bx, f + 64#32, BitVec.ofNat 32 neg.toNat, si, di, hi⟩, fl, df, m⟩⟩
      (Gives o f 84 pops (signed neg (x / (dx ++ ax)))) := by
  have hsmall := hp.small
  have hret : (addr (.LL k) + 1 + 1 + 1 + 1 + 1 + 1) % 4294967296 = addr (.LL k) + 1 + 1 + 1 + 1 + 1 + 1 :=
    Nat.mod_eq_of_lt (by omega)
  have hstep : addr (.LL k) + 1 + 1 + 1 + 1 + 1 + 1 + 1 + 1 + 1 + 1 + 1 + 1 + 1 = addr (.LL (k + 1)) := hp.ll53_ll54
  have hlocals {v : BitVec 32} : Call o f bx (store (store (store m (f + 60#32) dx) (f + 56#32) ax) (f + 52#32) v) :=
    ((h.set (by decide)).set (by decide)).set (by decide)
  subst hx
  apply leads_run hp.ll53
  simp [ll53]
  apply (UDiv.leads_uDiv ⟨rfl, by simp, by simp⟩ hy).trans
  rintro ⟨ip, ⟨⟨ax', cx', dx', bx', sp', bp', si', di', hi'⟩, fl', df', m'⟩⟩ ⟨hip, hsp, hbx, hbp, hsi, hdi, hq, hout⟩
  simp at hip hsp hbx hbp hsi hdi hq
  subst hip hsp hbx hbp hsi hdi
  have hback : Call o f bx' m' := hlocals.changed (hout.mono (by decide))
  rw [hret]
  apply leads_run hp.ll53.tail.tail.tail.tail.tail.tail
  cases neg with
  | false =>
      simp [signed_false]
      rw [← hq]
      exact leads_ll54 hp hback
  | true =>
      simp [signed_true]
      rw [hstep, ← hq, ← pair_negative]
      exact leads_ll54 hp hback

theorem leads_ll56 (hp : Placed name k pops) (h : Call o f bx m)
    (hx : load 32 m (f + 68#32) ++ load 32 m (f + 64#32) = x) (hy : dx ++ ax ≠ 0#64) (neg : Bool) :
    Leads (Steps text) ⟨addr (.LL (k + 3)),
      ⟨⟨ax, cx, dx, bx, f + 64#32, BitVec.ofNat 32 neg.toNat, si, di, hi⟩, fl, df, m⟩⟩
      (Gives o f 84 pops (signed (!neg) (x / -(dx ++ ax)))) := by
  have hflip : BitVec.ofNat 32 neg.toNat ^^^ 1#32 = BitVec.ofNat 32 (!neg).toNat := by cases neg <;> rfl
  have hneg : -(dx ++ ax) ≠ 0#64 := neg_ne_zero.mpr hy
  rw [← pair_negative] at hneg ⊢
  apply leads_run hp.ll56
  simpa [ll56, hflip] using leads_ll53 hp h hx hneg (!neg)

theorem leads_ll55 (hp : Placed name k pops) (h : Call o f bx m) (hy : di ++ si ≠ 0#64) (hx : (dx ++ ax).msb = true) :
    Leads (Steps text) ⟨addr (.LL (k + 2)), ⟨⟨ax, cx, dx, bx, f + 64#32, bp, si, di, hi⟩, fl, df, m⟩⟩
      (Gives o f 84 pops ((dx ++ ax).sdiv (di ++ si))) := by
  have hstep : addr (.LL (k + 2)) + 1 + 1 + 1 + 1 + 1 + 1 + 1 + 1 + 1 + 1 + 1 + 1 = addr (.LL (k + 3)) := hp.ll55_ll56
  have hset {v v' : BitVec 32} : Call o f bx (store (store m (f + 64#32) v) (f + 68#32) v') :=
    (h.set (by decide)).set (by decide)
  apply leads_run hp.ll55
  rw [sdiv_magnitude, magnitude, magnitude, hx, msb_pair di si, signed_true (dx ++ ax), ← pair_negative]
  cases hsign : di.msb with
  | false =>
      simp [ll55, hsign]
      exact leads_ll53 hp hset (by simp) hy true
  | true =>
      simp [ll55, hsign]
      rw [hstep]
      exact leads_ll56 hp hset (by simp) hy true

theorem call_enter (h : o.regs.sp = f + 84#32) :
    Call o f o.regs.bx (store (store (store o.mem (f + 80#32) o.regs.bp) (f + 76#32) o.regs.di) (f + 72#32)
      o.regs.si) := by
  constructor
  · exact h
  · rfl
  · simp
  · simp
  · simp
  · exact (((ChangedIn.refl f 84 o.mem).store (by decide)).store (by decide)).store (by decide)

theorem leads_sdiv (hp : Placed name k pops) (hsp : o.regs.sp = f + 84#32) (hx : load 64 o.mem (f + 88#32) = x)
    (hy : load 64 o.mem (f + 96#32) = y) (h0 : y ≠ 0#64) :
    Leads (Steps text) ⟨addr name, o⟩ (Gives o f 84 pops (x.sdiv y)) := by
  have hcall := call_enter hsp
  have hset {v v' : BitVec 32} : Call o f o.regs.bx (store (store (store (store (store o.mem (f + 80#32) o.regs.bp)
      (f + 76#32) o.regs.di) (f + 72#32) o.regs.si) (f + 64#32) v) (f + 68#32) v') :=
    (hcall.set (by decide)).set (by decide)
  have hstep : addr name + 1 + 1 + 1 + 1 + 1 + 1 + 1 + 1 + 1 + 1 + 1 + 1 + 1 + 1 + 1 + 1 + 1 + 1 = addr (.LL k) :=
    hp.entry_ll53
  rw [load_pair] at hx hy
  simp at hx hy
  subst hx hy
  obtain ⟨⟨ax, cx, dx, bx, sp, bp, si, di, hi⟩, fl, df, m⟩ := o
  obtain rfl : sp = f + 84#32 := hsp
  apply leads_run hp.entry
  cases hsign : (load 32 m (f + 92#32)).msb with
  | true =>
      simpa [entry, hsign] using leads_ll55 hp hcall h0 ((msb_pair _ _).trans hsign)
  | false =>
      rw [sdiv_magnitude, magnitude, magnitude, msb_pair, msb_pair, hsign, signed_false]
      cases hsign' : (load 32 m (f + 100#32)).msb with
      | false =>
          simp [entry, hsign, hsign']
          rw [hstep]
          exact leads_ll53 hp hset (by simp) h0 false
      | true =>
          simp [entry, hsign, hsign']
          exact leads_ll56 hp hset (by simp) h0 false

end SysvDev.Division.SDiv
