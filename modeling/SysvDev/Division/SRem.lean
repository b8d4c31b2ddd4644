import SysvDev.Division.Interface
import SysvDev.Division.Sign
import SysvDev.Division.UDivRem

namespace SysvDev.Division.SRem

open Word X86.Memory X86.Machine X86.Run Text Text.SRem Stack Sign Interface

variable {o : State 32} {f ax cx dx bx bp si di : BitVec 32} {hi : HighRegs 32} {fl : Flags} {df : Bool}
  {m : Mem 32} {x y : BitVec 64} {name : Label} {k pops : Nat} {neg : Bool}

/-- Inside a call of `__moddi3` or `__rem64`, with the stack pointer at
`f + 76`. -/
structure Call (o : State 32) (f bx bp : BitVec 32) (m : Mem 32) : Prop where
  sp : o.regs.sp = f + 104#32
  bx : bx = o.regs.bx
  bp : bp = o.regs.bp
  si : load 32 m (f + 96#32) = o.regs.si
  di : load 32 m (f + 100#32) = o.regs.di
  outside : ChangedIn f 104 o.mem m

theorem Call.changed {m' : Mem 32} (h : Call o f bx bp m) (hm : ChangedIn f 96 m m') : Call o f bx bp m' := by
  constructor
  · exact h.sp
  · exact h.bx
  · exact h.bp
  · exact (hm.above 96 (by decide) (by decide) (by decide) (by decide)).trans h.si
  · exact (hm.above 100 (by decide) (by decide) (by decide) (by decide)).trans h.di
  · exact h.outside.trans (hm.mono (by decide))

theorem Call.set {c v : BitVec 32} (h : Call o f bx bp m) (hc : c.toNat + 4 ≤ 96) :
    Call o f bx bp (store m (f + c) v) :=
  h.changed ((ChangedIn.refl f 96 m).store hc)

theorem Call.above (h : Call o f bx bp m) (d : Nat) (hd : 104 ≤ d) (hlt : d < 1000) :
    load 32 m (f + BitVec.ofNat 32 d) = load 32 o.mem (f + BitVec.ofNat 32 d) :=
  h.outside.above d hd (by omega) (by omega) (by decide)

structure Placed (name : Label) (k pops : Nat) : Prop where
  entry : At text (addr name) (entry name k)
  ll61 : At text (addr (.LL k)) (ll61 k pops)
  ll63 : At text (addr (.LL (k + 2))) (ll63 k)
  ll64 : At text (addr (.LL (k + 3))) (ll64 k)
  ll65 : At text (addr (.LL (k + 4))) (ll65 k pops)
  entry_ll61 : addr name + 17 = addr (.LL k)
  ll63_ll64 : addr (.LL (k + 2)) + 11 = addr (.LL (k + 3))
  small : addr (.LL k) < 2 ^ 31

theorem placed_moddi3 : Placed .moddi3 61 0 := by constructor <;> decide +kernel

theorem placed_rem64 : Placed .rem64 90 16 := by constructor <;> decide +kernel

attribute [local simp] merge_word load_store_word load_store_slot load_store_base BitVec.add_assoc
  add_sub_assoc

theorem Call.gives (h : Call o f bx bp m) :
    Gives o f 104 pops (dx ++ ax) ⟨(load 32 m (f + 104#32)).toNat, ⟨⟨ax, cx, dx, bx,
      f + (104#32 + BitVec.ofNat 32 (4 + pops)), bp, load 32 m (f + 96#32), load 32 m (f + 100#32), hi⟩, fl, df, m⟩⟩ := by
  refine ⟨⟨?_, ?_, h.bx, h.bp, h.di, h.outside⟩, h.si, rfl⟩
  · rw [h.sp]
    exact congrArg BitVec.toNat (h.above 104 (by decide) (by decide))
  · rw [h.sp, BitVec.add_assoc]

theorem leads_ll61 (hp : Placed name k pops) (h : Call o f bx bp m)
    (hx : load 32 m (f + 80#32) ++ load 32 m (f + 76#32) = x) (hy : di ++ si ≠ 0#64)
    (hneg : (load 32 o.mem (f + 112#32)).msb = neg) :
    Leads (Steps text) ⟨addr (.LL k), ⟨⟨ax, cx, dx, bx, f + 76#32, bp, si, di, hi⟩, fl, df, m⟩⟩
      (Gives o f 104 pops (signed neg (x % (di ++ si)))) := by
  have hsmall := hp.small
  have hret : (addr (.LL k) + 1 + 1 + 1 + 1 + 1 + 1 + 1 + 1) % 4294967296 =
      addr (.LL k) + 1 + 1 + 1 + 1 + 1 + 1 + 1 + 1 := Nat.mod_eq_of_lt (by omega)
  have hlocals {v v' v'' v''' : BitVec 32} : Call o f bx bp (store (store (store (store m (f + 72#32) v)
      (f + 68#32) v') (f + 64#32) v'') (f + 60#32) v''') :=
    (((h.set (by decide)).set (by decide)).set (by decide)).set (by decide)
  have hapart : Apart f 64 (f + 84#32) 8 := by
    have hslot : Apart (f + 0#32) 64 (f + 84#32) 8 := apart_add.mpr (by decide)
    rwa [BitVec.add_zero] at hslot
  subst hx
  apply leads_run hp.ll61
  simp [ll61]
  apply (UDivRem.leads_uDivRem (f := f) (r := f + 84#32) ⟨rfl, by simp, by simp, by simp⟩ hapart hy).trans
  rintro ⟨ip, ⟨⟨ax', cx', dx', bx', sp', bp', si', di', hi'⟩, fl', df', m'⟩⟩ hdivided
  have hback := hlocals.changed ((hdivided.changedIn (by decide)).mono (by decide))
  obtain ⟨hip, hsp, hbx, hbp, hsi, hdi, -, hrem, -⟩ := hdivided
  simp at hip hsp hbx hbp hsi hdi
  rw [load_pair] at hrem
  simp at hrem
  subst hip hsp hbx hbp hsi hdi
  have hsign : load 32 m' (f + 112#32) = load 32 o.mem (f + 112#32) := hback.above 112 (by decide) (by decide)
  rw [hret, ← hrem]
  apply leads_run hp.ll61.tail.tail.tail.tail.tail.tail.tail.tail
  cases neg with
  | false =>
      simp [hsign, hneg, signed_false]
      exact .here hback.gives
  | true =>
      simp [hsign, hneg, signed_true]
      apply leads_run hp.ll65
      simp [ll65]
      rw [← pair_negative]
      exact .here hback.gives

theorem leads_ll64 (hp : Placed name k pops) (h : Call o f bx bp m)
    (hx : load 32 m (f + 80#32) ++ load 32 m (f + 76#32) = x) (hy : di ++ si ≠ 0#64)
    (hneg : (load 32 o.mem (f + 112#32)).msb = neg) :
    Leads (Steps text) ⟨addr (.LL (k + 3)), ⟨⟨ax, cx, dx, bx, f + 76#32, bp, si, di, hi⟩, fl, df, m⟩⟩
      (Gives o f 104 pops (signed neg (x % -(di ++ si)))) := by
  have hy' : -(di ++ si) ≠ 0#64 := neg_ne_zero.mpr hy
  rw [← pair_negative] at hy' ⊢
  apply leads_run hp.ll64
  simpa [ll64] using leads_ll61 hp h hx hy' hneg

theorem leads_ll63 (hp : Placed name k pops) (h : Call o f bx bp m) (hy : dx ++ ax ≠ 0#64)
    (hneg : (load 32 o.mem (f + 112#32)).msb = neg) :
    Leads (Steps text) ⟨addr (.LL (k + 2)), ⟨⟨ax, cx, dx, bx, f + 76#32, bp, si, di, hi⟩, fl, df, m⟩⟩
      (Gives o f 104 pops (signed neg (-(di ++ si) % magnitude (dx ++ ax)))) := by
  have hstep : addr (.LL (k + 2)) + 1 + 1 + 1 + 1 + 1 + 1 + 1 + 1 + 1 + 1 + 1 = addr (.LL (k + 3)) := hp.ll63_ll64
  have hset {v v' : BitVec 32} : Call o f bx bp (store (store m (f + 76#32) v) (f + 80#32) v') :=
    (h.set (by decide)).set (by decide)
  apply leads_run hp.ll63
  rw [magnitude, msb_pair, ← pair_negative]
  cases hsign : dx.msb with
  | false =>
      simpa [ll63, hsign, signed_false] using leads_ll61 hp hset (by simp) hy hneg
  | true =>
      simpa [ll63, hsign, signed_true, hstep] using leads_ll64 hp hset (by simp) hy hneg

theorem call_enter (h : o.regs.sp = f + 104#32) :
    Call o f o.regs.bx o.regs.bp (store (store o.mem (f + 100#32) o.regs.di) (f + 96#32) o.regs.si) := by
  refine ⟨h, rfl, rfl, ?_, ?_, ?_⟩
  · simp
  · simp
  · exact ((ChangedIn.refl f 104 o.mem).store (by decide)).store (by decide)

theorem leads_srem (hp : Placed name k pops) (hsp : o.regs.sp = f + 104#32) (hx : load 64 o.mem (f + 108#32) = x)
    (hy : load 64 o.mem (f + 116#32) = y) (h0 : y ≠ 0#64) :
    Leads (Steps text) ⟨addr name, o⟩ (Gives o f 104 pops (x.srem y)) := by
  have hcall := call_enter hsp
  have hset {v v' : BitVec 32} : Call o f o.regs.bx o.regs.bp (store (store (store (store o.mem (f + 100#32)
      o.regs.di) (f + 96#32) o.regs.si) (f + 76#32) v) (f + 80#32) v') :=
    (hcall.set (by decide)).set (by decide)
  have hstep : addr name + 1 + 1 + 1 + 1 + 1 + 1 + 1 + 1 + 1 + 1 + 1 + 1 + 1 + 1 + 1 + 1 + 1 = addr (.LL k) :=
    hp.entry_ll61
  rw [load_pair] at hx hy
  simp at hx hy
  subst hx hy
  obtain ⟨⟨ax, cx, dx, bx, sp, bp, si, di, hi⟩, fl, df, m⟩ := o
  obtain rfl : sp = f + 104#32 := hsp
  apply leads_run hp.entry
  rw [srem_magnitude, magnitude, msb_pair]
  cases hsign : (load 32 m (f + 112#32)).msb with
  | true =>
      simpa [entry, hsign, signed_true (_ ++ _)] using leads_ll63 hp hset h0 hsign
  | false =>
      rw [magnitude, msb_pair, signed_false (load 32 m (f + 112#32) ++ load 32 m (f + 108#32))]
      cases hsign' : (load 32 m (f + 120#32)).msb with
      | false =>
          simp [entry, hsign, hsign']
          rw [hstep]
          exact leads_ll61 hp hset (by simp) h0 hsign
      | true =>
          simp [entry, hsign, hsign']
          exact leads_ll64 hp hset (by simp) h0 hsign

end SysvDev.Division.SRem
