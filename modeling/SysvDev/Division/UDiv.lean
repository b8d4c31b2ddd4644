import SysvDev.Division.Estimate
import SysvDev.Division.Stack

namespace SysvDev.Division.UDiv

open Word X86.Memory X86.Machine X86.Run LongDivision Text Text.UDiv Stack Estimate

variable {o : State 32} {f ax cx dx bx bp si di xl xh yl yh : BitVec 32} {hi : HighRegs 32} {fl : Flags} {df : Bool}
  {m : Mem 32}

/-- Inside a call of `UDiv` with the dividend `xh:xl` and the divisor `yh:yl`. -/
structure Call (o : State 32) (bx f xl xh yl yh : BitVec 32) (m : Mem 32) : Prop where
  frame : Frame o f 40 m
  bx : bx = o.regs.bx
  xlo : load 32 m (f + 32#32) = xl
  xhi : load 32 m (f + 36#32) = xh
  ylo : load 32 m (f + 56#32) = yl
  yhi : load 32 m (f + 60#32) = yh

theorem Call.set {c v : BitVec 32} (h : Call o bx f xl xh yl yh m) (hc : c.toNat + 4 ≤ 32) :
    Call o bx f xl xh yl yh (store m (f + c) v) := by
  constructor
  · exact h.frame.set (by decide) (Nat.le_trans hc (by decide))
  · exact h.bx
  · exact (load_store_above 32 hc (by decide) (by decide)).trans h.xlo
  · exact (load_store_above 36 hc (by decide) (by decide)).trans h.xhi
  · exact (load_store_above 56 hc (by decide) (by decide)).trans h.ylo
  · exact (load_store_above 60 hc (by decide) (by decide)).trans h.yhi

theorem Call.set_base {v : BitVec 32} (h : Call o bx f xl xh yl yh m) : Call o bx f xl xh yl yh (store m f v) := by
  have hset : Call o bx f xl xh yl yh (store m (f + 0#32) v) := h.set (by decide)
  rwa [BitVec.add_zero] at hset

structure Divided (o : State 32) (f : BitVec 32) (x y : BitVec 64) (c : Cfg 32) : Prop where
  ip : c.ip = (load 32 o.mem (f + 52#32)).toNat
  sp : c.state.regs.sp = f + 56#32
  bx : c.state.regs.bx = o.regs.bx
  bp : c.state.regs.bp = o.regs.bp
  si : c.state.regs.si = o.regs.si
  di : c.state.regs.di = o.regs.di
  quotient : c.state.regs.dx ++ c.state.regs.ax = x / y
  outside : ChangedIn f 52 o.mem c.state.mem

attribute [local simp] merge_word load_store_word load_store_slot load_store_base BitVec.add_assoc
  add_sub_assoc

-- Checked once: a look at the whole text is expensive.
structure Stands : Prop where
  next39 : addr (.LL 39) + 1 + 1 = addr (.LL 46)
  next44 : addr (.LL 44) + 1 + 1 + 1 = addr (.LL 38)
  next41 : addr (.LL 41) + 1 + 1 + 1 + 1 + 1 + 1 + 1 + 1 + 1 + 1 + 1 + 1 + 1 + 1 + 1 = addr (.LL 39)
  next35 : addr (.LL 35) + 1 + 1 + 1 = addr (.LL 45)
  next34 : addr (.LL 34) + 1 + 1 = addr (.LL 35)
  next26 : addr (.LL 26) + 1 + 1 + 1 + 1 + 1 + 1 + 1 + 1 + 1 + 1 + 1 + 1 + 1 + 1 + 1 + 1 + 1 + 1 + 1 + 1 + 1 =
      addr (.LL 34)
  next28 : addr (.LL 28) + 1 + 1 + 1 + 1 + 1 + 1 + 1 + 1 = addr (.LL 25)
  nextEntry : addr .uDiv + 1 + 1 + 1 + 1 + 1 + 1 + 1 + 1 + 1 + 1 + 1 + 1 + 1 + 1 + 1 + 1 + 1 + 1 + 1 + 1 =
      addr (.LL 28)
  ll25 : At text (addr (.LL 25)) ll25
  ll45 : At text (addr (.LL 45)) ll45
  ll46 : At text (addr (.LL 46)) ll46
  ll39 : At text (addr (.LL 39)) ll39
  ll38 : At text (addr (.LL 38)) ll38
  ll44 : At text (addr (.LL 44)) ll44
  ll41 : At text (addr (.LL 41)) ll41
  ll32 : At text (addr (.LL 32)) ll32
  ll35 : At text (addr (.LL 35)) ll35
  ll34 : At text (addr (.LL 34)) ll34
  ll26 : At text (addr (.LL 26)) ll26
  ll28 : At text (addr (.LL 28)) ll28
  entry : At text (addr .uDiv) entry

theorem stands : Stands := by constructor <;> decide +kernel

variable {x y : BitVec 64}

theorem Call.divided (h : Call o bx f xl xh yl yh m) (hq : di ++ si = x / y) :
    Divided o f x y ⟨(load 32 m (f + 52#32)).toNat, ⟨⟨si, cx, di, bx, f + 56#32, load 32 m (f + 48#32),
      load 32 m (f + 40#32), load 32 m (f + 44#32), hi⟩, fl, df, m⟩⟩ := by
  constructor
  · exact congrArg BitVec.toNat (h.frame.above 52 (by decide) (by decide))
  · rfl
  · exact h.bx
  · exact h.frame.bp
  · exact h.frame.si
  · exact h.frame.di
  · exact hq
  · exact h.frame.outside

theorem leads_ll25 (h : Call o bx f xl xh yl yh m) (hq : di ++ si = x / y) :
    Leads (Steps text) ⟨addr (.LL 25), ⟨⟨ax, cx, dx, bx, f, bp, si, di, hi⟩, fl, df, m⟩⟩ (Divided o f x y) := by
  apply leads_run (Stands.ll25 stands)
  simp [ll25]
  exact .here (h.divided hq)

theorem leads_ll45 (h : Call o bx f xl xh yl yh m) (hq : di ++ si = x / y) :
    Leads (Steps text) ⟨addr (.LL 45), ⟨⟨ax, cx, dx, bx, f, bp, si, di, hi⟩, fl, df, m⟩⟩ (Divided o f x y) := by
  apply leads_run (Stands.ll45 stands)
  simp [ll45]
  exact .here (h.divided hq)

attribute [local simp] load_byte merge_low

theorem leads_ll46 (h : Call o bx f xl xh yl yh m) (hq : 0#32 ++ si = x / y) :
    Leads (Steps text) ⟨addr (.LL 46), ⟨⟨ax, cx, dx, bx, f, bp, si, di, hi⟩, fl, df, m⟩⟩ (Divided o f x y) := by
  apply leads_run (Stands.ll46 stands)
  simpa [ll46] using leads_ll45 h hq

theorem leads_ll39 (h : Call o bx f xl xh yl yh m) (hq : 0#32 ++ cx = x / y) :
    Leads (Steps text) ⟨addr (.LL 39), ⟨⟨ax, cx, dx, bx, f, bp, si, di, hi⟩, fl, df, m⟩⟩ (Divided o f x y) := by
  have hstep := Stands.next39 stands
  apply leads_run (Stands.ll39 stands)
  simpa [ll39, hstep] using leads_ll46 h hq

theorem leads_ll38 (h : Call o bx f xl xh yl yh m) (hq : 0#32 ++ (cx - 1#32) = x / y) :
    Leads (Steps text) ⟨addr (.LL 38), ⟨⟨ax, cx, dx, bx, f, bp, si, di, hi⟩, fl, df, m⟩⟩ (Divided o f x y) := by
  apply leads_run (Stands.ll38 stands)
  simp [ll38]
  exact leads_ll46 h hq

theorem leads_ll44 (h : Call o bx f xl xh yl yh m) (hle : ax.toNat ≤ di.toNat → 0#32 ++ cx = x / y)
    (hgt : di.toNat < ax.toNat → 0#32 ++ (cx - 1#32) = x / y) :
    Leads (Steps text) ⟨addr (.LL 44), ⟨⟨ax, cx, dx, bx, f, bp, si, di, hi⟩, fl, df, m⟩⟩ (Divided o f x y) := by
  have hstep := Stands.next44 stands
  apply leads_run (Stands.ll44 stands)
  rcases Nat.lt_trichotomy ax.toNat di.toNat with hlt | heq | hlt
  · simpa [ll44, hlt] using leads_ll39 h (hle hlt.le)
  · obtain rfl := BitVec.eq_of_toNat_eq heq
    simpa [ll44] using leads_ll39 h (hle le_rfl)
  · have hne : ax ≠ di := by
      rintro rfl
      exact Nat.lt_irrefl _ hlt
    simpa [ll44, hlt.le, hne, hstep] using leads_ll38 h (hgt hlt)

theorem leads_ll41 {x1 x0 y1 y0 : BitVec 32} {n : Nat} (h : Call o bx f xl xh yl yh m)
    (hy1 : load 32 m (f + 8#32) = y1) (hy0 : load 32 m (f + 16#32) = y0)
    (hN : Normal 32 n x.toNat y.toNat bp.toNat x1.toNat x0.toNat y1.toNat y0.toNat) :
    Leads (Steps text) ⟨addr (.LL 41), ⟨⟨ax, cx, dx, bx, f, bp, x0, x1, hi⟩, fl, df, m⟩⟩ (Divided o f x y) := by
  have hstep := Stands.next41 stands
  have hdiv := hN.high_lt
  have hprod := toNat_pair (highProduct y0 (quotient bp x1 y1)) (y0 * quotient bp x1 y1)
  have hrest := toNat_pair (remainder bp x1 y1) x0
  have hlow := (y0 * quotient bp x1 y1).isLt
  have hlow' := x0.isLt
  have hset : Call o bx f xl xh yl yh (store (store m (f + 4#32) 0#32) f x1) := (h.set (by decide)).set_base
  have hexact := fun hle => (exact_words hN hle).1
  have hhigh := fun hlt => (high_words hN hlt).1
  apply leads_run (Stands.ll41 stands)
  rcases lt_trichotomy (highProduct y0 (quotient bp x1 y1)).toNat (remainder bp x1 y1).toNat with hlt | heq | hgt
  · have hne : highProduct y0 (quotient bp x1 y1) ≠ remainder bp x1 y1 := fun heq => by
      rw [heq] at hlt
      exact Nat.lt_irrefl _ hlt
    simpa [ll41, hy1, hy0, hdiv, hlt, hne, hstep] using leads_ll39 hset (hexact (by omega))
  · have heq' := BitVec.eq_of_toNat_eq heq
    simpa [ll41, hy1, hy0, hdiv, heq'] using
      leads_ll44 hset (fun hle => hexact (by omega)) (fun hgt => hhigh (by omega))
  · have hne : highProduct y0 (quotient bp x1 y1) ≠ remainder bp x1 y1 := fun heq => by
      rw [heq] at hgt
      exact Nat.lt_irrefl _ hgt
    simpa [ll41, hy1, hy0, hdiv, hgt.le, hne] using leads_ll38 hset (hhigh (by omega))

theorem leads_ll32 {n : Nat} (h : Call o bx f xl xh yl yh m) (hx : load 32 m (f + 24#32) = xh)
    (hy : yh ≠ 0#32) (h0 : 0 < n) (hlog : n + yh.toNat.log2 = 31) :
    Leads (Steps text) ⟨addr (.LL 32), ⟨⟨BitVec.ofNat 32 n, cx, dx, bx, f, bp, si, di, hi⟩, fl, df, m⟩⟩
      (Divided o f (xh ++ xl) (yh ++ yl)) := by
  have hlt : n < 32 := by omega
  obtain ⟨hcount, htest⟩ := count_eq hlt
  have hsub := count_sub_eq h0 hlt
  have hcount' : (32 - n) % 256 % 32 = 32 - n := by omega
  have hne : 32 - n ≠ 0 := by omega
  apply leads_run (Stands.ll32 stands)
  simp [ll32, h.ylo, h.yhi, hcount, htest, h0.ne', hlt.le]
  apply leads_run (show At text _ ll40 by decide +kernel)
  simp [ll40, h.xlo, h.xhi, hx, hcount, htest, h0.ne', hlt.le, hsub, hcount', hne]
  have hset {v v' : BitVec 32} : Call o bx f xl xh yl yh
      (store (store (store (store m (f + 20#32) v) (f + 16#32) v') (f + 12#32) 0#32) (f + 8#32) v) :=
    (((h.set (by decide)).set (by decide)).set (by decide)).set (by decide)
  exact leads_ll41 hset (load_store_word _ _ _) (by simp)
    (normal_of_shift hy h0 hlog (pair_shl _ _ h0 hlt) (pair_shl _ _ h0 hlt))

theorem leads_ll35 (h : Call o bx f xl xh yl yh m) (hq : 0#32 ++ ax = x / y) :
    Leads (Steps text) ⟨addr (.LL 35), ⟨⟨ax, cx, dx, bx, f, bp, si, di, hi⟩, fl, df, m⟩⟩ (Divided o f x y) := by
  have hstep := Stands.next35 stands
  apply leads_run (Stands.ll35 stands)
  simpa [ll35, hstep] using leads_ll45 h hq

theorem leads_ll34 (h : Call o bx f xl xh yl yh m) (hq : 0#32 ++ 1#32 = x / y) :
    Leads (Steps text) ⟨addr (.LL 34), ⟨⟨ax, cx, dx, bx, f, bp, si, di, hi⟩, fl, df, m⟩⟩ (Divided o f x y) := by
  have hstep := Stands.next34 stands
  apply leads_run (Stands.ll34 stands)
  simpa [ll34, hstep] using leads_ll35 h hq

theorem leads_ll26 (h : Call o bx f xl xh yl yh m) (hy : yh ≠ 0#32) :
    Leads (Steps text) ⟨addr (.LL 26), ⟨⟨yh, yh, dx, bx, f, bp, si, di, hi⟩, fl, df, m⟩⟩
      (Divided o f (xh ++ xl) (yh ++ yl)) := by
  have hstep := Stands.next26 stands
  have hset : Call o bx f xl xh yl yh (store (store m (f + 24#32) xh) (f + 28#32) 0#32) :=
    (h.set (by decide)).set (by decide)
  have hxpair := toNat_pair xh xl
  have hypair := toNat_pair yh yl
  have hxl := xl.isLt
  apply leads_run (Stands.ll26 stands)
  rcases Nat.lt_or_ge xh.toNat yh.toNat with hlt | hle
  · obtain ⟨hq, -⟩ := div_of_lt (x := xh ++ xl) (y := yh ++ yl) (by omega)
    simpa [ll26, h.xhi, hlt] using leads_ll25 hset hq
  by_cases hn : yh.toNat.log2 = 31
  · have htop := Nat.log2_self_le (fun hzero => hy (BitVec.eq_of_toNat_eq hzero))
    rw [hn] at htop
    rcases Nat.lt_or_eq_of_le hle with hgt | heq
    · obtain ⟨hq, -⟩ := div_of_top (x := xh ++ xl) (y := yh ++ yl) (by omega) (by omega)
      have hne : xh ≠ yh := by
        rintro rfl
        exact Nat.lt_irrefl _ hgt
      simpa [ll26, h.xhi, hle, hy, hn, hne] using leads_ll34 hset hq
    · obtain rfl := BitVec.eq_of_toNat_eq heq
      rcases Nat.lt_or_ge xl.toNat yl.toNat with hlt | hge
      · obtain ⟨hq, -⟩ := div_of_lt (x := yh ++ xl) (y := yh ++ yl) (by omega)
        simpa [ll26, h.xhi, hy, hn, h.xlo, h.ylo, hlt] using leads_ll35 hset hq
      · obtain ⟨hq, -⟩ := div_of_top (x := yh ++ xl) (y := yh ++ yl) (by omega) (by omega)
        simpa [ll26, h.xhi, hy, hn, h.xlo, h.ylo, hge, hstep] using leads_ll34 hset hq
  · obtain ⟨hne, hcount⟩ := count_log2 hy hn
    have hlog := log2_lt hy
    simpa [ll26, h.xhi, hle, hy, hne, hcount] using leads_ll32 hset (by simp) hy (by omega) (by omega)

theorem leads_ll28 (h : Call o bx f xl xh yl 0#32 m) (hx : xh.toNat = cx.toNat * yl.toNat + dx.toNat)
    (hlt : dx.toNat < yl.toNat) :
    Leads (Steps text) ⟨addr (.LL 28), ⟨⟨ax, cx, dx, bx, f, bp, si, di, hi⟩, fl, df, m⟩⟩
      (Divided o f (xh ++ xl) (0#32 ++ yl)) := by
  have hstep := Stands.next28 stands
  obtain ⟨hq, -⟩ := div_word hx hlt
  apply leads_run (Stands.ll28 stands)
  simpa [ll28, h.xlo, h.ylo, hlt, hstep] using leads_ll25 h hq

structure Args (o : State 32) (f yl yh : BitVec 32) : Prop where
  sp : o.regs.sp = f + 52#32
  ylo : load 32 o.mem (f + 56#32) = yl
  yhi : load 32 o.mem (f + 60#32) = yh

theorem call_enter (h : Args o f yl yh) :
    Call o o.regs.bx f o.regs.ax o.regs.dx yl yh
      (store (store (store (store (store o.mem (f + 48#32) o.regs.bp) (f + 44#32) o.regs.di) (f + 40#32)
        o.regs.si) (f + 36#32) o.regs.dx) (f + 32#32) o.regs.ax) := by
  have hframe := ((frame_enter o f 40 (by decide)).set (c := 36#32) (v := o.regs.dx) (by decide) (by decide)).set
    (c := 32#32) (v := o.regs.ax) (by decide) (by decide)
  constructor
  · exact hframe
  · rfl
  · rw [load_store_word]
  · rw [load_store_slot (by decide), load_store_word]
  · exact (hframe.above 56 (by decide) (by decide)).trans h.ylo
  · exact (hframe.above 60 (by decide) (by decide)).trans h.yhi

theorem leads_uDiv (h : Args o f yl yh) (hy : yh ++ yl ≠ 0#64) :
    Leads (Steps text) ⟨addr .uDiv, o⟩ (Divided o f (o.regs.dx ++ o.regs.ax) (yh ++ yl)) := by
  have hcall := call_enter h
  obtain ⟨⟨ax, cx, dx, bx, sp, bp, si, di, hi⟩, fl, df, m⟩ := o
  obtain ⟨rfl, hylo, hyhi⟩ := h
  apply leads_run (Stands.entry stands)
  by_cases hzero : yh = 0#32
  · have hstep := Stands.nextEntry stands
    subst hzero
    have hpos := pos_of_pair_ne hy
    rcases Nat.lt_or_ge dx.toNat yl.toNat with hlt | hle
    · simpa [entry, hyhi, hylo, hlt] using leads_ll28 hcall (by simp) hlt
    · obtain ⟨hx, hlt⟩ := high_word hpos dx
      simpa [entry, hyhi, hylo, hle, hpos, hstep] using leads_ll28 hcall hx hlt
  · simpa [entry, hyhi, hzero] using leads_ll26 hcall hzero

end SysvDev.Division.UDiv
