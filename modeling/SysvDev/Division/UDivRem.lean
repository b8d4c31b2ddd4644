import SysvDev.Division.Estimate
import SysvDev.Division.Stack

namespace SysvDev.Division.UDivRem

open Word X86.Memory X86.Machine X86.Run LongDivision Text Text.UDivRem Stack Estimate

variable {o : State 32} {f r ax cx dx bx bp si di xl xh yl yh : BitVec 32} {hi : HighRegs 32} {fl : Flags} {df : Bool}
  {m : Mem 32}

/-- Inside a call of `UDivRem` with the dividend `xh:xl`, the divisor `yh:yl`
and the pointer `r`. -/
structure Call (o : State 32) (bx f r xl xh yl yh : BitVec 32) (m : Mem 32) : Prop where
  frame : Frame o f 48 m
  bx : bx = o.regs.bx
  xlo : load 32 m (f + 40#32) = xl
  xhi : load 32 m (f + 44#32) = xh
  ylo : load 32 m (f + 64#32) = yl
  yhi : load 32 m (f + 68#32) = yh
  pmod : load 32 m (f + 72#32) = r

theorem Call.set {c v : BitVec 32} (h : Call o bx f r xl xh yl yh m) (hc : c.toNat + 4 ≤ 40) :
    Call o bx f r xl xh yl yh (store m (f + c) v) := by
  constructor
  · exact h.frame.set (by decide) (Nat.le_trans hc (by decide))
  · exact h.bx
  · exact (load_store_above 40 hc (by decide) (by decide)).trans h.xlo
  · exact (load_store_above 44 hc (by decide) (by decide)).trans h.xhi
  · exact (load_store_above 64 hc (by decide) (by decide)).trans h.ylo
  · exact (load_store_above 68 hc (by decide) (by decide)).trans h.yhi
  · exact (load_store_above 72 hc (by decide) (by decide)).trans h.pmod

theorem Call.set_base {v : BitVec 32} (h : Call o bx f r xl xh yl yh m) :
    Call o bx f r xl xh yl yh (store m f v) := by
  have hset : Call o bx f r xl xh yl yh (store m (f + 0#32) v) := h.set (by decide)
  rwa [BitVec.add_zero] at hset

structure Divided (o : State 32) (f r : BitVec 32) (x y : BitVec 64) (c : Cfg 32) : Prop where
  ip : c.ip = (load 32 o.mem (f + 60#32)).toNat
  sp : c.state.regs.sp = f + 64#32
  bx : c.state.regs.bx = o.regs.bx
  bp : c.state.regs.bp = o.regs.bp
  si : c.state.regs.si = o.regs.si
  di : c.state.regs.di = o.regs.di
  quotient : c.state.regs.dx ++ c.state.regs.ax = x / y
  remainder : load 64 c.state.mem r = x % y
  outside : ∀ b, 60 ≤ (b - f).toNat → 8 ≤ (b - r).toNat → c.state.mem b = o.mem b

theorem Divided.changedIn {x y : BitVec 64} {d : BitVec 32} {c : Cfg 32} (h : Divided o f (f + d) x y c)
    (hd : 52 ≤ d.toNat) : ChangedIn f (d.toNat + 8) o.mem c.state.mem := by
  intro b hb
  apply h.outside b (by omega)
  rw [toNat_sub_add (by omega)]
  omega

theorem Call.divided {x y : BitVec 64} {rl rh ql qh : BitVec 32} (h : Call o bx f r xl xh yl yh m)
    (hr : Apart f 64 r 8) (hq : qh ++ ql = x / y) (hrem : rh ++ rl = x % y) :
    Divided o f r x y ⟨(load 32 (store (store m r rl) (r + 4#32) rh) (f + 60#32)).toNat,
      ⟨⟨ql, cx, qh, bx, f + 64#32, load 32 (store (store m r rl) (r + 4#32) rh) (f + 56#32),
        load 32 (store (store m r rl) (r + 4#32) rh) (f + 48#32),
        load 32 (store (store m r rl) (r + 4#32) rh) (f + 52#32), hi⟩, fl, df, store (store m r rl) (r + 4#32) rh⟩⟩ := by
  constructor
  · exact congrArg BitVec.toNat
      ((load_store_pair hr (by decide)).trans (h.frame.above 60 (by decide) (by decide)))
  · rfl
  · exact h.bx
  · exact (load_store_pair hr (by decide)).trans h.frame.bp
  · exact (load_store_pair hr (by decide)).trans h.frame.si
  · exact (load_store_pair hr (by decide)).trans h.frame.di
  · exact hq
  · exact load_pair_store.trans hrem
  · intro b hb hb'
    exact (store_pair_outside hb').trans (h.frame.outside b hb)

attribute [local simp] merge_word load_store_word load_store_slot load_store_base BitVec.add_assoc add_sub_assoc

variable {x y : BitVec 64}

-- Checked once: a look at the whole text is expensive.
structure Stands : Prop where
  next24 : addr (.LL 24) + 1 + 1 + 1 = addr (.LL 14)
  next18 : addr (.LL 18) + 1 + 1 + 1 + 1 + 1 + 1 + 1 + 1 + 1 + 1 + 1 + 1 + 1 + 1 + 1 = addr (.LL 15)
  next10 : addr (.LL 10) + 1 + 1 + 1 + 1 = addr (.LL 11)
  next6 : addr (.LL 6) + 1 + 1 + 1 + 1 + 1 + 1 + 1 + 1 + 1 + 1 + 1 + 1 + 1 + 1 = addr (.LL 10)
  next2 : addr (.LL 2) + 1 + 1 + 1 + 1 + 1 + 1 + 1 + 1 + 1 + 1 + 1 + 1 + 1 + 1 = addr (.LL 22)
  nextEntry : addr .uDivRem + 1 + 1 + 1 + 1 + 1 + 1 + 1 + 1 + 1 + 1 + 1 + 1 + 1 + 1 + 1 = addr (.LL 4)
  ll22 : At text (addr (.LL 22)) ll22
  ll15 : At text (addr (.LL 15)) ll15
  ll16 : At text (addr (.LL 16)) ll16
  ll14 : At text (addr (.LL 14)) ll14
  ll24 : At text (addr (.LL 24)) ll24
  ll18 : At text (addr (.LL 18)) ll18
  ll8 : At text (addr (.LL 8)) ll8
  ll11 : At text (addr (.LL 11)) ll11
  ll10 : At text (addr (.LL 10)) ll10
  ll6 : At text (addr (.LL 6)) ll6
  ll2 : At text (addr (.LL 2)) ll2
  ll4 : At text (addr (.LL 4)) ll4
  ll21 : At text (addr (.LL 21)) ll21
  entry : At text (addr .uDivRem) entry

theorem stands : Stands := by constructor <;> decide +kernel

theorem leads_ll22 {rl rh : BitVec 32} (h : Call o bx f r xl xh yl yh m) (hr : Apart f 64 r 8)
    (hq : di ++ si = x / y) (hrem : rh ++ rl = x % y) :
    Leads (Steps text) ⟨addr (.LL 22),
      ⟨⟨ax, cx, dx, bx, f, bp, si, di, hi⟩, fl, df, store (store m r rl) (r + 4#32) rh⟩⟩ (Divided o f r x y) := by
  apply leads_run (Stands.ll22 stands)
  simp [ll22]
  exact .here (h.divided hr hq hrem)

attribute [local simp] load_byte merge_low

/-- From `.LL15` on the quotient is in its slot and the remainder is what
`%edx:%eax` leaves of `%ecx:%esi`, still shifted. -/
theorem leads_ll15 {q : BitVec 32} {n : Nat} (h : Call o bx f r xl xh yl yh m) (hr : Apart f 64 r 8)
    (hq : load 32 m (f + 20#32) = q) (hn : load 32 m (f + 28#32) = BitVec.ofNat 32 n) (h0 : 0 < n) (hlt : n < 32)
    (hquot : 0#32 ++ q = x / y) (hrem : ((cx ++ si) - (dx ++ ax)) >>> n = x % y) :
    Leads (Steps text) ⟨addr (.LL 15), ⟨⟨ax, cx, dx, bx, f, bp, si, di, hi⟩, fl, df, m⟩⟩ (Divided o f r x y) := by
  obtain ⟨hcount, htest⟩ := count_eq hlt
  apply leads_run (Stands.ll15 stands)
  simp [ll15, hn, hcount, htest, h0.ne', hlt.le]
  apply leads_run (Stands.ll16 stands)
  simp [ll16, hq, h.pmod]
  apply leads_ll22 h hr hquot
  rw [pair_shr _ _ h0 hlt, pair_difference, hrem]

theorem leads_ll14 {q y1 : BitVec 32} {n : Nat} (h : Call o bx f r xl xh yl yh m) (hr : Apart f 64 r 8)
    (hq : load 32 m (f + 20#32) = q) (hy : load 32 m (f + 24#32) = y1)
    (hn : load 32 m (f + 28#32) = BitVec.ofNat 32 n) (h0 : 0 < n) (hlt : n < 32)
    (hquot : 0#32 ++ (q - 1#32) = x / y) (hrem : ((cx ++ si) - ((dx ++ ax) - (y1 ++ bp))) >>> n = x % y) :
    Leads (Steps text) ⟨addr (.LL 14), ⟨⟨ax, cx, dx, bx, f, bp, si, di, hi⟩, fl, df, m⟩⟩ (Divided o f r x y) := by
  apply leads_run (Stands.ll14 stands)
  simp [ll14, hq, hy]
  apply leads_ll15 (h.set (by decide)) hr (load_store_word _ _ _) (by simp [hn]) h0 hlt hquot
  rw [pair_difference, hrem]

theorem leads_ll24 {P : Cfg 32 → Prop} {s : State 32} (hs : s = ⟨⟨ax, cx, dx, bx, f, bp, si, di, hi⟩, fl, df, m⟩)
    (hle : ax.toNat ≤ si.toNat → ∀ fl', Leads (Steps text) ⟨addr (.LL 15), { s with flags := fl' }⟩ P)
    (hgt : si.toNat < ax.toNat → ∀ fl', Leads (Steps text) ⟨addr (.LL 14), { s with flags := fl' }⟩ P) :
    Leads (Steps text) ⟨addr (.LL 24), s⟩ P := by
  subst hs
  have hstep := Stands.next24 stands
  apply leads_run (Stands.ll24 stands)
  rcases Nat.lt_trichotomy ax.toNat si.toNat with hlt | heq | hlt
  · simpa [ll24, hlt] using hle hlt.le _
  · obtain rfl := BitVec.eq_of_toNat_eq heq
    simpa [ll24] using hle le_rfl _
  · have hne : ax ≠ si := by
      rintro rfl
      exact Nat.lt_irrefl _ hlt
    simpa [ll24, hlt.le, hne, hstep] using hgt hlt _

theorem leads_ll18 {x2 x1 x0 y1 y0 : BitVec 32} {n : Nat} (h : Call o bx f r xl xh yl yh m) (hr : Apart f 64 r 8)
    (hx2 : load 32 m (f + 12#32) = x2) (hy1 : load 32 m (f + 24#32) = y1)
    (hn : load 32 m (f + 28#32) = BitVec.ofNat 32 n)
    (hN : Normal 32 n x.toNat y.toNat x2.toNat x1.toNat x0.toNat y1.toNat y0.toNat) :
    Leads (Steps text) ⟨addr (.LL 18), ⟨⟨ax, cx, dx, bx, f, y0, x0, x1, hi⟩, fl, df, m⟩⟩ (Divided o f r x y) := by
  have hstep := Stands.next18 stands
  have hdiv := hN.high_lt
  have hprod := toNat_pair (highProduct y0 (quotient x2 x1 y1)) (y0 * quotient x2 x1 y1)
  have hrest := toNat_pair (remainder x2 x1 y1) x0
  have hlow := (y0 * quotient x2 x1 y1).isLt
  have hlow' := x0.isLt
  have hset {v w : BitVec 32} : Call o bx f r xl xh yl yh (store (store (store m f x1) (f + 20#32) v) (f + 4#32) w) :=
    (h.set_base.set (by decide)).set (by decide)
  have hll15 (hle : (highProduct y0 (quotient x2 x1 y1) ++ y0 * quotient x2 x1 y1).toNat ≤
      (remainder x2 x1 y1 ++ x0).toNat) (fl : Flags) :
      Leads (Steps text) ⟨addr (.LL 15), ⟨⟨y0 * quotient x2 x1 y1, remainder x2 x1 y1, highProduct y0 (quotient x2 x1 y1),
        bx, f, y0, x0, 0#32, hi⟩, fl, df, store (store (store m f x1) (f + 20#32) (quotient x2 x1 y1)) (f + 4#32) 0#32⟩⟩
        (Divided o f r x y) := by
    obtain ⟨hquot, hrem⟩ := exact_words hN hle
    exact leads_ll15 hset hr (by simp) (by simp [hn]) hN.pos hN.lt hquot hrem
  have hll14 (hlt : (remainder x2 x1 y1 ++ x0).toNat <
      (highProduct y0 (quotient x2 x1 y1) ++ y0 * quotient x2 x1 y1).toNat) (fl : Flags) :
      Leads (Steps text) ⟨addr (.LL 14), ⟨⟨y0 * quotient x2 x1 y1, remainder x2 x1 y1, highProduct y0 (quotient x2 x1 y1),
        bx, f, y0, x0, 0#32, hi⟩, fl, df, store (store (store m f x1) (f + 20#32) (quotient x2 x1 y1)) (f + 4#32) 0#32⟩⟩
        (Divided o f r x y) := by
    obtain ⟨hquot, hrem⟩ := high_words hN hlt
    exact leads_ll14 hset hr (by simp) (by simp [hy1]) (by simp [hn]) hN.pos hN.lt hquot hrem
  apply leads_run (Stands.ll18 stands)
  rcases lt_trichotomy (highProduct y0 (quotient x2 x1 y1)).toNat (remainder x2 x1 y1).toNat with hlt | heq | hgt
  · have hne : highProduct y0 (quotient x2 x1 y1) ≠ remainder x2 x1 y1 := fun heq => by
      rw [heq] at hlt
      exact Nat.lt_irrefl _ hlt
    simpa [ll18, hx2, hy1, hdiv, hlt, hne, hstep] using hll15 (by omega) _
  · have heq' := BitVec.eq_of_toNat_eq heq
    rw [heq'] at hll15 hll14 hprod
    simp [ll18, hx2, hy1, hdiv, heq']
    exact leads_ll24 rfl (fun hle fl => hll15 (by omega) fl) (fun hgt fl => hll14 (by omega) fl)
  · have hne : highProduct y0 (quotient x2 x1 y1) ≠ remainder x2 x1 y1 := fun heq => by
      rw [heq] at hgt
      exact Nat.lt_irrefl _ hgt
    simpa [ll18, hx2, hy1, hdiv, hgt.le, hne] using hll14 (by omega) _

theorem leads_ll8 {n : Nat} (h : Call o bx f r xl xh yl yh m) (hr : Apart f 64 r 8)
    (hx : load 32 m (f + 32#32) = xh) (hn : load 32 m (f + 28#32) = BitVec.ofNat 32 n)
    (hy : yh ≠ 0#32) (h0 : 0 < n) (hlog : n + yh.toNat.log2 = 31) :
    Leads (Steps text) ⟨addr (.LL 8), ⟨⟨ax, cx, dx, bx, f, bp, si, di, hi⟩, fl, df, m⟩⟩
      (Divided o f r (xh ++ xl) (yh ++ yl)) := by
  have hlt : n < 32 := by omega
  obtain ⟨hcount, htest⟩ := count_eq hlt
  have hsub := count_sub_eq h0 hlt
  have hcount' : (32 - n) % 256 % 32 = 32 - n := by omega
  have hne : 32 - n ≠ 0 := by omega
  apply leads_run (Stands.ll8 stands)
  simp [ll8, h.ylo, h.yhi, hn, hcount, htest, h0.ne', hlt.le]
  apply leads_run (show At text _ ll17 by decide +kernel)
  simpa [ll17, h.xlo, h.xhi, hx, hn, hcount, htest, h0.ne', hlt.le, hsub, hcount', hne] using
    leads_ll18 ((h.set (by decide)).set (by decide)) hr (by simp [Shift.eval]) (by simp) (by simp [hn])
      (normal_of_shift hy h0 hlog (pair_shl _ _ h0 hlt) (pair_shl _ _ h0 hlt))

theorem leads_ll11 {rl rh q : BitVec 32} (h : Call o bx f r xl xh yl yh m) (hr : Apart f 64 r 8)
    (hq : 0#32 ++ q = x / y) (hrem : rh ++ rl = x % y) :
    Leads (Steps text) ⟨addr (.LL 11), ⟨⟨ax, cx, rh, bx, f, q, rl, di, hi⟩, fl, df, m⟩⟩ (Divided o f r x y) := by
  apply leads_run (Stands.ll11 stands)
  simpa [ll11, h.pmod] using leads_ll22 h hr hq hrem

theorem leads_ll10 (h : Call o bx f r xl xh yl yh m) (hr : Apart f 64 r 8)
    (hq : 0#32 ++ 1#32 = x / y) (hrem : (dx ++ si) - (cx ++ di) = x % y) :
    Leads (Steps text) ⟨addr (.LL 10), ⟨⟨ax, cx, dx, bx, f, bp, si, di, hi⟩, fl, df, m⟩⟩ (Divided o f r x y) := by
  have hstep := Stands.next10 stands
  apply leads_run (Stands.ll10 stands)
  simp [ll10]
  rw [hstep]
  apply leads_ll11 h hr hq
  rw [pair_difference, hrem]

theorem leads_ll6 (h : Call o bx f r xl xh yl yh m) (hr : Apart f 64 r 8)
    (hx : load 32 m (f + 32#32) = xh) (hy : yh ≠ 0#32) (hle : yh.toNat ≤ xh.toNat) :
    Leads (Steps text) ⟨addr (.LL 6), ⟨⟨ax, yh, dx, bx, f, bp, yh, di, hi⟩, fl, df, m⟩⟩
      (Divided o f r (xh ++ xl) (yh ++ yl)) := by
  have hstep := Stands.next6 stands
  have hset {v : BitVec 32} : Call o bx f r xl xh yl yh (store m (f + 28#32) v) := h.set (by decide)
  apply leads_run (Stands.ll6 stands)
  by_cases hn : yh.toNat.log2 = 31
  · have htop := Nat.log2_self_le (fun hzero => hy (BitVec.eq_of_toNat_eq hzero))
    rw [hn] at htop
    have hxpair := toNat_pair xh xl
    have hypair := toNat_pair yh yl
    rcases Nat.lt_or_eq_of_le hle with hgt | heq
    · obtain ⟨hq, hrem⟩ := div_of_top (x := xh ++ xl) (y := yh ++ yl) (by omega) (by omega)
      have hne : xh ≠ yh := by
        rintro rfl
        exact Nat.lt_irrefl _ hgt
      simpa [ll6, hy, hx, hn, hgt.le, hne, h.xlo, h.ylo] using leads_ll10 hset hr hq hrem
    · obtain rfl := BitVec.eq_of_toNat_eq heq
      rcases Nat.lt_or_ge xl.toNat yl.toNat with hlt | hge
      · obtain ⟨hq, hrem⟩ := div_of_lt (x := yh ++ xl) (y := yh ++ yl) (by omega)
        simpa [ll6, hy, hx, hn, h.xlo, h.ylo, hlt] using leads_ll11 hset hr hq hrem
      · obtain ⟨hq, hrem⟩ := div_of_top (x := yh ++ xl) (y := yh ++ yl) (by omega) (by omega)
        simpa [ll6, hy, hx, hn, h.xlo, h.ylo, hge, hstep] using leads_ll10 hset hr hq hrem
  · obtain ⟨hne, hcount⟩ := count_log2 hy hn
    have hlog := log2_lt hy
    simpa [ll6, hy, hne, hcount] using leads_ll8 hset hr (by simp [hx]) (load_store_word _ _ _) hy (by omega) (by omega)

theorem leads_ll2 (h : Call o bx f r xl xh yl yh m) (hr : Apart f 64 r 8) (hy : yh ≠ 0#32) :
    Leads (Steps text) ⟨addr (.LL 2), ⟨⟨ax, yh, dx, bx, f, bp, yh, di, hi⟩, fl, df, m⟩⟩
      (Divided o f r (xh ++ xl) (yh ++ yl)) := by
  have hstep := Stands.next2 stands
  have hset {v v' : BitVec 32} : Call o bx f r xl xh yl yh (store (store m (f + 32#32) v) (f + 36#32) v') :=
    (h.set (by decide)).set (by decide)
  apply leads_run (Stands.ll2 stands)
  rcases Nat.lt_or_ge xh.toNat yh.toNat with hlt | hle
  · have hxpair := toNat_pair xh xl
    have hypair := toNat_pair yh yl
    have hxl := xl.isLt
    obtain ⟨hq, hrem⟩ := div_of_lt (x := xh ++ xl) (y := yh ++ yl) (by omega)
    simpa [ll2, h.xhi, h.xlo, h.pmod, hlt, hstep] using leads_ll22 hset hr hq hrem
  · simpa [ll2, h.xhi, hle] using leads_ll6 hset hr (by simp) hy hle

theorem leads_ll4 (h : Call o bx f r xl xh yl 0#32 m) (hr : Apart f 64 r 8)
    (hx : xh.toNat = cx.toNat * yl.toNat + dx.toNat) (hlt : dx.toNat < yl.toNat) :
    Leads (Steps text) ⟨addr (.LL 4), ⟨⟨ax, cx, dx, bx, f, bp, si, di, hi⟩, fl, df, m⟩⟩
      (Divided o f r (xh ++ xl) (0#32 ++ yl)) := by
  obtain ⟨hq, hrem⟩ := div_word hx hlt
  apply leads_run (Stands.ll4 stands)
  simp [ll4, h.xlo, h.ylo, h.pmod, hlt]
  exact .here (h.divided hr hq hrem)

theorem leads_ll21 (h : Call o bx f r xl xh yl 0#32 m) (hr : Apart f 64 r 8) (hy : 0 < yl.toNat) :
    Leads (Steps text) ⟨addr (.LL 21), ⟨⟨xh, cx, dx, bx, f, bp, si, 0#32, hi⟩, fl, df, m⟩⟩
      (Divided o f r (xh ++ xl) (0#32 ++ yl)) := by
  obtain ⟨hx, hlt⟩ := high_word hy xh
  apply leads_run (Stands.ll21 stands)
  simpa [ll21, h.ylo, hy] using leads_ll4 h hr hx hlt

structure Args (o : State 32) (f r yl yh : BitVec 32) : Prop where
  sp : o.regs.sp = f + 60#32
  ylo : load 32 o.mem (f + 64#32) = yl
  yhi : load 32 o.mem (f + 68#32) = yh
  pmod : load 32 o.mem (f + 72#32) = r

theorem call_enter (h : Args o f r yl yh) :
    Call o o.regs.bx f r o.regs.ax o.regs.dx yl yh
      (store (store (store (store (store o.mem (f + 56#32) o.regs.bp) (f + 52#32) o.regs.di) (f + 48#32)
        o.regs.si) (f + 40#32) o.regs.ax) (f + 44#32) o.regs.dx) := by
  have hframe := ((frame_enter o f 48 (by decide)).set (c := 40#32) (v := o.regs.ax) (by decide) (by decide)).set
    (c := 44#32) (v := o.regs.dx) (by decide) (by decide)
  constructor
  · exact hframe
  · rfl
  · rw [load_store_slot (by decide), load_store_word]
  · rw [load_store_word]
  · exact (hframe.above 64 (by decide) (by decide)).trans h.ylo
  · exact (hframe.above 68 (by decide) (by decide)).trans h.yhi
  · exact (hframe.above 72 (by decide) (by decide)).trans h.pmod

theorem leads_uDivRem (h : Args o f r yl yh) (hr : Apart f 64 r 8) (hy : yh ++ yl ≠ 0#64) :
    Leads (Steps text) ⟨addr .uDivRem, o⟩ (Divided o f r (o.regs.dx ++ o.regs.ax) (yh ++ yl)) := by
  have hcall := call_enter h
  obtain ⟨⟨ax, cx, dx, bx, sp, bp, si, di, hi⟩, fl, df, m⟩ := o
  obtain ⟨rfl, hylo, hyhi, -⟩ := h
  apply leads_run (Stands.entry stands)
  by_cases hzero : yh = 0#32
  · have hstep := Stands.nextEntry stands
    subst hzero
    have hpos := pos_of_pair_ne hy
    rcases Nat.lt_or_ge dx.toNat yl.toNat with hlt | hle
    · simpa [entry, hyhi, hylo, hlt, hstep] using leads_ll4 hcall hr (by simp) hlt
    · simpa [entry, hyhi, hylo, hle] using leads_ll21 hcall hr hpos
  · simpa [entry, hyhi, hzero] using leads_ll2 hcall hr hzero

end SysvDev.Division.UDivRem
