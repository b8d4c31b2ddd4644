import SysvDev.Hres.Text

namespace SysvDev.Hres.Tick

open Function Word X86.Memory X86.Machine X86.Run X86.Cells Text

abbrev lsw (v : BitVec 64) : BitVec 32 := low (n := 32) v

abbrev msw (v : BitVec 64) : BitVec 32 := high (n := 32) v

structure Clock where
  sec : BitVec 32
  nsec : BitVec 32
  hrestimeAdj : BitVec 64
  lastTick : BitVec 64
  timedelta : BitVec 64
  base : BitVec 64
  oneSec : BitVec 32
  maxHresAdj : BitVec 32

structure Frame where
  lock : BitVec 32
  timef : BitVec 32
  ret : BitVec 32
  bp : BitVec 32
  si : BitVec 32
  bx : BitVec 32
  call : BitVec 32

def view (c : Clock) (f : Frame) : Cell → BitVec 32
  | .sec => c.sec
  | .nsec => c.nsec
  | .adjLo => lsw c.hrestimeAdj
  | .adjHi => msw c.hrestimeAdj
  | .lastLo => lsw c.lastTick
  | .lastHi => msw c.lastTick
  | .deltaLo => lsw c.timedelta
  | .deltaHi => msw c.timedelta
  | .lock => f.lock
  | .baseLo => lsw c.base
  | .baseHi => msw c.base
  | .oneSec => c.oneSec
  | .maxAdj => c.maxHresAdj
  | .timef => f.timef
  | .ret => f.ret
  | .bp => f.bp
  | .si => f.si
  | .bx => f.bx
  | .call => f.call

/-- What is added to the time: the test for a positive number is that its
negative has a sign. -/
def adjust (a : BitVec 64) (mx : BitVec 32) : BitVec 64 :=
  if a = 0#64 then 0#64
  else if (-a).msb then if mx.toNat < a.toNat then 0#32 ++ mx else a
  else if 2 ^ 64 ≤ a.toNat + mx.toNat then a
  else (-1#32) ++ (-mx)

def Clock.carry (c : Clock) (y : BitVec 32) : Clock :=
  { c with
    sec := c.sec + BitVec.ofNat 32 (y.toNat / NANOSEC)
    oneSec := c.oneSec + BitVec.ofNat 32 (y.toNat / NANOSEC) }

def Clock.adjusted (c : Clock) (adj : BitVec 64) : Clock :=
  { c with timedelta := c.timedelta - adj, hrestimeAdj := c.timedelta - adj }

def Clock.elapsed (c : Clock) (t : BitVec 64) : Clock :=
  { c with base := c.base + (t - c.lastTick), nsec := c.nsec + lsw (t - c.lastTick), lastTick := t }

theorem toNat_less {y : BitVec 32} (h : 1000000000 ≤ y.toNat) :
    (y + 3294967296#32).toNat = y.toNat - 1000000000 := by
  have hy := y.isLt
  rw [BitVec.toNat_add, BitVec.toNat_ofNat]
  omega

namespace Clock

variable (c : Clock) {y : BitVec 32}

theorem carry_of_lt (h : y.toNat < 1000000000) : c.carry y = c := by
  rw [carry, NANOSEC, Nat.div_eq_of_lt h, BitVec.add_zero, BitVec.add_zero]

theorem carry_less (h : 1000000000 ≤ y.toNat) :
    ({ c with sec := c.sec + 1#32, oneSec := c.oneSec + 1#32 } : Clock).carry (y + 3294967296#32) = c.carry y := by
  have hdiv : y.toNat / NANOSEC = 1 + (y + 3294967296#32).toNat / NANOSEC := by
    rw [toNat_less h, NANOSEC]
    omega
  rw [carry, carry, hdiv, BitVec.ofNat_add, BitVec.add_assoc, BitVec.add_assoc]

end Clock

def Clock.tick (c : Clock) (t : BitVec 64) : Clock :=
  let adj := adjust c.hrestimeAdj c.maxHresAdj
  let y := (c.elapsed t).nsec + lsw adj
  { ((c.elapsed t).adjusted adj).carry y with nsec := BitVec.ofNat 32 (y.toNat % NANOSEC) }

section Places

variable (sym : Symbols) (sp : BitVec 32)

theorem places :
    BitVec.ofInt 32 sym.hrestime = place sym sp .sec ∧
    BitVec.ofInt 32 (sym.hrestime + 4) = place sym sp .nsec ∧
    BitVec.ofInt 32 sym.hrestimeAdj = place sym sp .adjLo ∧
    BitVec.ofInt 32 (sym.hrestimeAdj + 4) = place sym sp .adjHi ∧
    BitVec.ofInt 32 sym.hresLastTick = place sym sp .lastLo ∧
    place sym sp .lastLo + 4#32 = place sym sp .lastHi ∧
    BitVec.ofInt 32 sym.timedelta = place sym sp .deltaLo ∧
    BitVec.ofInt 32 (sym.timedelta + 4) = place sym sp .deltaHi ∧
    BitVec.ofInt 32 sym.hresLock = place sym sp .lock ∧
    BitVec.ofInt 32 sym.hrtimeBase = place sym sp .baseLo ∧
    BitVec.ofInt 32 (sym.hrtimeBase + 4) = place sym sp .baseHi ∧
    BitVec.ofInt 32 sym.oneSec = place sym sp .oneSec ∧
    BitVec.ofInt 32 sym.maxHresAdj = place sym sp .maxAdj ∧
    BitVec.ofInt 32 sym.gethrtimef = place sym sp .timef := by
  refine ⟨rfl, rfl, rfl, rfl, rfl, ?_, rfl, rfl, rfl, rfl, rfl, rfl, rfl, rfl⟩
  exact (BitVec.ofInt_add sym.hresLastTick 4).symm

theorem load_cell (m : Mem 32) (k : Cell) : load 32 m (place sym sp k) = cells (place sym sp) m k := rfl

theorem slots :
    sp - 4#32 - 4#32 = sp - 8#32 ∧ sp - 8#32 - 4#32 = sp - 12#32 ∧ sp - 12#32 - 4#32 = sp - 16#32 ∧
    sp - 16#32 + 4#32 = sp - 12#32 ∧ sp - 12#32 + 4#32 = sp - 8#32 := by
  refine ⟨?_, ?_, ?_, ?_, ?_⟩ <;> bv_omega

abbrev Holds (c : Clock) (f : Frame) (m : Mem 32) : Prop := cells (place sym sp) m = view c f

end Places

section Words

variable (a : BitVec 64) (mx : BitVec 32)

@[simp] theorem lsw_zero : lsw 0#64 = 0#32 := rfl

@[simp] theorem msw_zero : msw 0#64 = 0#32 := rfl

theorem words_eq : msw a ++ lsw a = a := pair_words (n := 32) a

theorem sign_words :
    (difference (msw a) 0#32 (decide (0 < (lsw a).toNat))).1.msb = (-a).msb := by
  have hwords := (words_sub (n := 32) 0#64 a).1
  have hmsb (v : BitVec 64) : (msw v).msb = v.msb := by
    have hv := toNat_high (n := 32) v
    rw [BitVec.msb_eq_decide, BitVec.msb_eq_decide, hv]
    apply decide_eq_decide.mpr
    omega
  rw [BitVec.zero_sub] at hwords
  rw [← hmsb (-a)]
  exact congrArg BitVec.msb hwords

/-- `adcl $0`: a carry from the high word is one from the number. -/
theorem carry_below {b : Bool} (hb : decide (2 ^ 32 ≤ (lsw a).toNat + mx.toNat + false.toNat) = b) :
    (sum 0#32 (msw a) b).2.cf = some (decide (2 ^ 64 ≤ a.toNat + mx.toNat)) := by
  have ha := a.isLt
  have hmx := mx.isLt
  have hhi := toNat_high (n := 32) a
  have hlo := toNat_low (n := 32) a
  rw [sum_cf]
  congr 1
  apply decide_eq_decide.mpr
  rw [← hb, hlo, hhi, BitVec.toNat_ofNat, Bool.toNat_false]
  by_cases hcarry : 2 ^ 32 ≤ a.toNat % 2 ^ 32 + mx.toNat + 0
  · rw [decide_eq_true hcarry, Bool.toNat_true]
    omega
  · rw [decide_eq_false hcarry, Bool.toNat_false]
    omega

/-- `adcl $-1`: it carries where the number is above the bound. -/
theorem carry_above :
    (sum 4294967295#32 (msw a) (decide (mx.toNat < (lsw a).toNat))).2.cf = some (decide (mx.toNat < a.toNat)) := by
  have ha := a.isLt
  have hmx := mx.isLt
  have hhi := toNat_high (n := 32) a
  have hlo := toNat_low (n := 32) a
  rw [sum_cf]
  congr 1
  apply decide_eq_decide.mpr
  rw [hlo, hhi, BitVec.toNat_ofNat]
  by_cases hborrow : mx.toNat < a.toNat % 2 ^ 32
  · simp only [hborrow, decide_true, Bool.toNat_true]
    omega
  · simp only [hborrow, decide_false, Bool.toNat_false]
    omega

end Words

section Blocks

variable {sym : Symbols} {sp : BitVec 32} {ext : Nat → Option (State 32 → State 32)}
  {ax bx cx dx sp' bp si di : BitVec 32} {hi : HighRegs 32} {fl : Flags} {df : Bool} {m : Mem 32} {c : Clock} {f : Frame}
  {P : Cfg 32 → Prop} (hext : ∀ i < (hresTick sym).length, ext i = none) (hspread : Spread (place sym sp))

include hext

theorem leads_clampBelow (hm : Holds sym sp c f m) (hne : c.hrestimeAdj ≠ 0#64) (hsign : (-c.hrestimeAdj).msb = false)
    (h : ∀ ax' si' fl', Leads (StepsWith (hresTick sym) ext) ⟨labelAddr (hresTick sym) .cl5,
        ⟨⟨ax', lsw (adjust c.hrestimeAdj c.maxHresAdj), msw (adjust c.hrestimeAdj c.maxHresAdj), bx, sp', bp, si', di,
          hi⟩, fl', df, m⟩⟩ P) :
    Leads (StepsWith (hresTick sym) ext) ⟨labelAddr (hresTick sym) .cl6,
      ⟨⟨ax, cx, msw c.hrestimeAdj, bx, sp', bp, lsw c.hrestimeAdj, di, hi⟩, fl, df, m⟩⟩ P := by
  have hat : At (hresTick sym) (labelAddr (hresTick sym) .cl6) (clampBelow sym) := ⟨_, rfl⟩
  have hcf := sum_cf c.maxHresAdj (lsw c.hrestimeAdj) false
  generalize hb : decide (2 ^ 32 ≤ (lsw c.hrestimeAdj).toNat + c.maxHresAdj.toNat + false.toNat) = b at hcf
  have hcarry := carry_below c.hrestimeAdj c.maxHresAdj hb
  by_cases hmax : 2 ^ 64 ≤ c.hrestimeAdj.toNat + c.maxHresAdj.toNat
  · have hadj : adjust c.hrestimeAdj c.maxHresAdj = c.hrestimeAdj := by
      rw [adjust, if_neg hne, hsign, if_neg Bool.false_ne_true, if_pos hmax]
    have hcl7 : At (hresTick sym) (labelAddr (hresTick sym) .cl7) ((clampBelow sym).drop 10) := ⟨_, rfl⟩
    rw [hadj] at h
    rw [decide_eq_true hmax] at hcarry
    apply leads_lines hext hat
    simp [clampBelow, merge_word, places sym sp, load_cell, hcf, hm, view, hcarry]
    apply leads_lines hext hcl7
    simp [clampBelow, merge_word]
    exact h _ _ _
  · have hadj : adjust c.hrestimeAdj c.maxHresAdj = (-1#32) ++ (-c.maxHresAdj) := by
      rw [adjust, if_neg hne, hsign, if_neg Bool.false_ne_true, if_neg hmax]
    rw [hadj, lsw, msw, low_pair, high_pair] at h
    rw [decide_eq_false hmax] at hcarry
    apply leads_lines hext hat
    simpa [clampBelow, merge_word, places sym sp, load_cell, hcf, hm, view, hcarry, difference_val] using h _ _ _

theorem leads_clampAbove (hm : Holds sym sp c f m) (hne : c.hrestimeAdj ≠ 0#64)
    (h : ∀ ax' si' fl', Leads (StepsWith (hresTick sym) ext) ⟨labelAddr (hresTick sym) .cl5,
        ⟨⟨ax', lsw (adjust c.hrestimeAdj c.maxHresAdj), msw (adjust c.hrestimeAdj c.maxHresAdj), bx, sp', bp, si', di,
          hi⟩, fl', df, m⟩⟩ P) :
    Leads (StepsWith (hresTick sym) ext) ⟨labelAddr (hresTick sym) .cl4,
      ⟨⟨ax, cx, msw c.hrestimeAdj, bx, sp', bp, lsw c.hrestimeAdj, di, hi⟩, fl, df, m⟩⟩ P := by
  have hat : At (hresTick sym) (labelAddr (hresTick sym) .cl4) (clampAbove sym) := ⟨_, rfl⟩
  cases hsign : (-c.hrestimeAdj).msb with
  | false =>
      apply leads_lines hext hat
      simpa [clampAbove, merge_word, difference_val, sign_words, hsign] using leads_clampBelow hext hm hne hsign h
  | true =>
      by_cases hmax : c.maxHresAdj.toNat < c.hrestimeAdj.toNat
      · have hadj : adjust c.hrestimeAdj c.maxHresAdj = 0#32 ++ c.maxHresAdj := by
          rw [adjust, if_neg hne, hsign, if_pos rfl, if_pos hmax]
        rw [hadj, lsw, msw, low_pair, high_pair] at h
        apply leads_lines hext hat
        simpa [clampAbove, merge_word, places sym sp, load_cell, difference_val, sign_words, hm, view, hsign,
          carry_above, hmax] using h _ _ _
      · have hadj : adjust c.hrestimeAdj c.maxHresAdj = c.hrestimeAdj := by
          rw [adjust, if_neg hne, hsign, if_pos rfl, if_neg hmax]
        have hcl7 : At (hresTick sym) (labelAddr (hresTick sym) .cl7) ((clampBelow sym).drop 10) := ⟨_, rfl⟩
        rw [hadj] at h
        apply leads_lines hext hat
        simp [clampAbove, merge_word, places sym sp, load_cell, difference_val, sign_words, hm, view, hsign,
          carry_above, hmax]
        apply leads_lines hext hcl7
        simp [clampBelow, merge_word]
        exact h _ _ _

theorem leads_adjHrestime (hm : Holds sym sp c f m)
    (h : ∀ ax' si' fl', Leads (StepsWith (hresTick sym) ext) ⟨labelAddr (hresTick sym) .cl5,
        ⟨⟨ax', lsw (adjust c.hrestimeAdj c.maxHresAdj), msw (adjust c.hrestimeAdj c.maxHresAdj), bx, sp', bp, si', di,
          hi⟩, fl', df, m⟩⟩ P) :
    Leads (StepsWith (hresTick sym) ext) ⟨labelAddr (hresTick sym) .adjHrestime,
      ⟨⟨ax, cx, dx, bx, sp', bp, si, di, hi⟩, fl, df, m⟩⟩ P := by
  have hat : At (hresTick sym) (labelAddr (hresTick sym) .adjHrestime) (adjHrestime sym) := ⟨_, rfl⟩
  by_cases hzero : c.hrestimeAdj = 0#64
  · have hadj : adjust c.hrestimeAdj c.maxHresAdj = 0#64 := if_pos hzero
    rw [hadj] at h
    apply leads_lines hext hat
    simp [adjHrestime, merge_word, places sym sp, load_cell, difference_val, hm, view, hzero]
    simpa using h _ _ _
  · apply leads_lines hext hat
    by_cases hlo : lsw c.hrestimeAdj = 0#32
    · have hhi : msw c.hrestimeAdj ≠ 0#32 := by
        intro hhi
        apply hzero
        rw [← words_eq c.hrestimeAdj, hlo, hhi]
        rfl
      simp [adjHrestime, merge_word, places sym sp, load_cell, hm, view, hlo, hhi]
      rw [← hlo]
      exact leads_clampAbove hext hm hzero h
    · simpa [adjHrestime, merge_word, places sym sp, load_cell, hm, view, hlo] using leads_clampAbove hext hm hzero h

include hspread

theorem leads_interval {t : BitVec 64} (hm : Holds sym sp c f m)
    (h : ∀ ax' cx' dx' fl' m', Holds sym sp (c.elapsed t) f m' →
      Leads (StepsWith (hresTick sym) ext) ⟨labelAddr (hresTick sym) .adjHrestime,
        ⟨⟨ax', cx', dx', lsw t, sp', bp, msw t, di, hi⟩, fl', df, m'⟩⟩ P) :
    Leads (StepsWith (hresTick sym) ext) ⟨labelAddr (hresTick sym) .cl3,
      ⟨⟨ax, cx, dx, lsw t, sp', bp, msw t, di, hi⟩, fl, df, m⟩⟩ P := by
  have hat : At (hresTick sym) (labelAddr (hresTick sym) .cl3) (interval sym) := ⟨_, rfl⟩
  apply leads_lines hext hat
  obtain ⟨hhi, hlo⟩ := words_sub (n := 32) t c.lastTick
  obtain ⟨hhi', hlo'⟩ := words_add (n := 32) c.base (t - c.lastTick)
  simp [interval, merge_word, places sym sp, load_cell, difference_val, sum_val, sum_cf, cells_store hspread,
    hm, view, hlo, hhi, hlo']
  refine h _ _ _ _ _ ?_
  rw [Holds]
  simp only [cells_store hspread (by decide : 2 ≤ 32), hm]
  funext k
  cases k <;> simp [view, Clock.elapsed, ← hhi']

theorem leads_applyAdj {adj : BitVec 64} (hm : Holds sym sp c f m)
    (h : ∀ cx' dx' si' fl' m', Holds sym sp (c.adjusted adj) f m' →
      Leads (StepsWith (hresTick sym) ext) ⟨labelAddr (hresTick sym) .one,
        ⟨⟨c.nsec + lsw adj, cx', dx', bx, sp', bp, si', di, hi⟩, fl', df, m'⟩⟩ P) :
    Leads (StepsWith (hresTick sym) ext) ⟨labelAddr (hresTick sym) .cl5,
      ⟨⟨ax, lsw adj, msw adj, bx, sp', bp, si, di, hi⟩, fl, df, m⟩⟩ P := by
  have hat : At (hresTick sym) (labelAddr (hresTick sym) .cl5) (applyAdj sym) := ⟨_, rfl⟩
  apply leads_lines hext hat
  obtain ⟨hhi, hlo⟩ := words_sub (n := 32) c.timedelta adj
  simp [applyAdj, merge_word, places sym sp, load_cell, difference_val, sum_val, cells_store hspread,
    hm, view, hlo, hhi]
  rw [BitVec.add_comm]
  refine h _ _ _ _ _ ?_
  rw [Holds]
  simp only [cells_store hspread (by decide : 2 ≤ 32), hm]
  funext k
  cases k <;> simp [view, Clock.adjusted]

theorem leads_carry (hm : Holds sym sp c f m)
    (h : ∀ fl' m', Holds sym sp (c.carry ax) f m' →
      Leads (StepsWith (hresTick sym) ext) ⟨labelAddr (hresTick sym) .cl8,
        ⟨⟨BitVec.ofNat 32 (ax.toNat % NANOSEC), cx, dx, bx, sp', bp, si, di, hi⟩, fl', df, m'⟩⟩ P) :
    Leads (StepsWith (hresTick sym) ext) ⟨labelAddr (hresTick sym) .one,
      ⟨⟨ax, cx, dx, bx, sp', bp, si, di, hi⟩, fl, df, m⟩⟩ P := by
  have hat : At (hresTick sym) (labelAddr (hresTick sym) .one) (carry sym) := ⟨_, rfl⟩
  have hnano : BitVec.ofInt 32 (NANOSEC : Int) = 1000000000#32 := rfl
  have hneg : BitVec.ofInt 32 (-(NANOSEC : Int)) = -1000000000#32 := rfl
  induction hn : ax.toNat / NANOSEC generalizing ax c m fl with
  | zero =>
      have hlt : ax.toNat < 1000000000 := by
        rw [NANOSEC] at hn
        omega
      have hnext := h (difference 1000000000#32 ax false).2 m (by rwa [c.carry_of_lt hlt])
      rw [NANOSEC, Nat.mod_eq_of_lt hlt, BitVec.ofNat_toNat, BitVec.setWidth_eq] at hnext
      apply leads_lines hext hat
      simpa [carry, hnano, hlt] using hnext
  | succ n ih =>
      have hle : 1000000000 ≤ ax.toNat := by
        rw [NANOSEC] at hn
        omega
      have hsub := toNat_less hle
      have hm' : Holds sym sp { c with sec := c.sec + 1#32, oneSec := c.oneSec + 1#32 } f
          (store (store m (place sym sp .oneSec) (c.oneSec + 1#32)) (place sym sp .sec) (c.sec + 1#32)) := by
        rw [Holds, cells_store hspread (by decide), cells_store hspread (by decide), hm]
        funext k
        cases k <;> simp [view]
      apply leads_lines hext hat
      simp [carry, merge_word, places sym sp, load_cell, hnano, hneg, sum_val, increment_val, cells_store hspread,
        hm, view, hle]
      apply ih hm'
      · rw [c.carry_less hle]
        rw [hsub, NANOSEC, ← Nat.mod_eq_sub_mod hle]
        exact h
      · rw [hsub]
        rw [NANOSEC] at hn ⊢
        omega

theorem leads_finish (hm : Holds sym sp c f m)
    (h : ∀ fl' m', Holds sym sp { c with nsec := ax } { f with lock := f.lock + 1#32 } m' →
      Leads (StepsWith (hresTick sym) ext) ⟨f.ret.toNat,
        ⟨⟨ax, cx, dx, f.bx, sp + 4#32, f.bp, f.si, di, hi⟩, fl', df, m'⟩⟩ P) :
    Leads (StepsWith (hresTick sym) ext) ⟨labelAddr (hresTick sym) .cl8,
      ⟨⟨ax, cx, dx, bx, sp - 12#32, sp - 4#32, si, di, hi⟩, fl, df, m⟩⟩ P := by
  have hat : At (hresTick sym) (labelAddr (hresTick sym) .cl8) (finish sym) := ⟨_, rfl⟩
  have hm' : Holds sym sp { c with nsec := ax } { f with lock := f.lock + 1#32 }
      (store (store m (place sym sp .nsec) ax) (place sym sp .lock) (f.lock + 1#32)) := by
    rw [Holds, cells_store hspread (by decide), cells_store hspread (by decide), hm]
    funext k
    cases k <;> simp [view]
  apply leads_lines hext hat
  simp [finish, merge_word, places sym sp, load_cell, increment_val, cells_store hspread, hm, view, slots]
  generalize store (store m (place sym sp .nsec) ax) (place sym sp .lock) (f.lock + 1#32) = m' at hm' ⊢
  have hret : load 32 m' sp = f.ret := congrFun hm' .ret
  have hbp : load 32 m' (sp - 4#32) = f.bp := congrFun hm' .bp
  have hsi : load 32 m' (sp - 8#32) = f.si := congrFun hm' .si
  have hbx : load 32 m' (sp - 12#32) = f.bx := congrFun hm' .bx
  rw [hret, hbp, hsi, hbx]
  exact h _ _ hm'

theorem leads_lock {t : BitVec 64} (hm : Holds sym sp c f m) (hfree : f.lock.toNat % 256 = 0)
    (h : ∀ ax' dx' fl' m', Holds sym sp c { f with lock := f.lock + 255#32 } m' →
      Leads (StepsWith (hresTick sym) ext) ⟨labelAddr (hresTick sym) .cl3,
        ⟨⟨ax', cx, dx', lsw t, sp', bp, msw t, di, hi⟩, fl', df, m'⟩⟩ P) :
    Leads (StepsWith (hresTick sym) ext) ⟨labelAddr (hresTick sym) .hresTick + 6,
      ⟨⟨lsw t, cx, msw t, bx, sp', bp, si, di, hi⟩, fl, df, m⟩⟩ P := by
  have hat : At (hresTick sym) (labelAddr (hresTick sym) .hresTick + 6) (lock sym) := ⟨_, rfl⟩
  have hbyte : f.lock.setWidth 8 = 0#8 := by
    apply BitVec.eq_of_toNat_eq
    rw [BitVec.toNat_setWidth]
    exact hfree
  have hmerge : State.merge f.lock 255#8 = f.lock + 255#32 := by
    have hlt := f.lock.isLt
    apply BitVec.eq_of_toNat_eq
    rw [toNat_merge_byte, BitVec.toNat_add, BitVec.toNat_ofNat, BitVec.toNat_ofNat]
    omega
  apply leads_lines hext hat
  simp [lock, merge_word, places sym sp, load_byte, load_cell, hm, view, hbyte, merge_low]
  refine h _ _ _ _ ?_
  rw [Holds, cells_store_low hspread (by decide), hm]
  funext k
  cases k <;> simp [view, hmerge]

theorem leads_enter (hm : Holds sym sp c f m)
    (h : ∀ m', Holds sym sp c { f with bp := bp, si := si, bx := bx, call := 6#32 } m' →
      Leads (StepsWith (hresTick sym) ext) ⟨f.timef.toNat,
        ⟨⟨ax, cx, dx, bx, sp - 16#32, sp - 4#32, si, di, hi⟩, fl, df, m'⟩⟩ P) :
    Leads (StepsWith (hresTick sym) ext) ⟨labelAddr (hresTick sym) .hresTick,
      ⟨⟨ax, cx, dx, bx, sp, bp, si, di, hi⟩, fl, df, m⟩⟩ P := by
  have hat : At (hresTick sym) (labelAddr (hresTick sym) .hresTick) (enter sym) := ⟨_, rfl⟩
  have hm' : Holds sym sp c { f with bp := bp, si := si, bx := bx, call := 6#32 }
      (store (store (store (store m (place sym sp .bp) bp) (place sym sp .si) si) (place sym sp .bx) bx)
        (place sym sp .call) 6#32) := by
    simp only [Holds, cells_store hspread (by decide : 2 ≤ 32), hm]
    funext k
    cases k <;> simp [view]
  have htimef : cells (place sym sp) (store (store (store m (place sym sp .bp) bp) (place sym sp .si) si)
      (place sym sp .bx) bx) .timef = f.timef := by
    simp only [cells_store hspread (by decide : 2 ≤ 32), hm]
    simp [view]
  apply leads_lines hext hat
  simp [enter, merge_word, places sym sp, load_cell, slots]
  rw [place, place, place] at htimef
  rw [htimef]
  exact h _ hm'

theorem leads_return {adj : BitVec 64} (hm : Holds sym sp c f m)
    (h : ∀ ax' cx' dx' fl' m', Holds sym sp
        { (c.adjusted adj).carry (c.nsec + lsw adj) with
          nsec := BitVec.ofNat 32 ((c.nsec + lsw adj).toNat % NANOSEC) } { f with lock := f.lock + 1#32 } m' →
      Leads (StepsWith (hresTick sym) ext) ⟨f.ret.toNat,
        ⟨⟨ax', cx', dx', f.bx, sp + 4#32, f.bp, f.si, di, hi⟩, fl', df, m'⟩⟩ P) :
    Leads (StepsWith (hresTick sym) ext) ⟨labelAddr (hresTick sym) .cl5,
      ⟨⟨ax, lsw adj, msw adj, bx, sp - 12#32, sp - 4#32, si, di, hi⟩, fl, df, m⟩⟩ P := by
  apply leads_applyAdj hext hspread hm
  intro cx' dx' si' fl' m₁ hm₁
  apply leads_carry hext hspread hm₁
  intro fl'' m₂ hm₂
  apply leads_finish hext hspread hm₂
  intro fl₃ m₃ hm₃
  exact h _ _ _ _ _ hm₃

end Blocks

/-- `gethrtimef` answers a call: the time is `t`, and neither the registers that
belong to the caller nor the words that the routine works on have changed. -/
structure Answers (sym : Symbols) (sp : BitVec 32) (t : BitVec 64) (s s' : State 32) : Prop where
  time : s'.regs.dx ++ s'.regs.ax = t
  stack : s'.regs.sp = s.regs.sp + 4#32
  bp : s'.regs.bp = s.regs.bp
  bx : s'.regs.bx = s.regs.bx
  si : s'.regs.si = s.regs.si
  di : s'.regs.di = s.regs.di
  words : ∀ k, k ≠ .call → cells (place sym sp) s'.mem k = cells (place sym sp) s.mem k

/-- A call of the routine where the lock is free, with `gethrtimef` outside of
the text and the caller neither here nor there. -/
structure Entered (sym : Symbols) (sp : BitVec 32) (ext : Nat → Option (State 32 → State 32)) (t : BitVec 64)
    (c : Clock) (f : Frame) (s : State 32) : Prop where
  inside : ∀ i < (hresTick sym).length, ext i = none
  spread : Spread (place sym sp)
  stack : s.regs.sp = sp
  holds : Holds sym sp c f s.mem
  free : f.lock.toNat % 256 = 0
  gethrtimef : ∃ g, ext f.timef.toNat = some g ∧ ∀ u : State 32, u.regs.sp = sp - 16#32 → Answers sym sp t u (g u)
  caller : (hresTick sym).length ≤ f.ret.toNat ∧ ext f.ret.toNat = none

/-- The routine has returned, with the registers that belong to the caller and the lock as it found them. -/
structure Returned (sp : BitVec 32) (f : Frame) (s : State 32) (f' : Frame) (d : Cfg 32) : Prop where
  ip : d.ip = f.ret.toNat
  stack : d.state.regs.sp = sp + 4#32
  bp : d.state.regs.bp = s.regs.bp
  bx : d.state.regs.bx = s.regs.bx
  si : d.state.regs.si = s.regs.si
  di : d.state.regs.di = s.regs.di
  free : f'.lock.toNat % 256 = 0

section Routine

variable {sym : Symbols} {sp : BitVec 32} {ext : Nat → Option (State 32 → State 32)} {t : BitVec 64} {c : Clock}
  {f : Frame} {s : State 32}

/-- At `.CL5` the adjustment is in `%edx` and `%ecx`, and from there the routine
returns. -/
theorem comes_cl5 (h : Entered sym sp ext t c f s) :
    Leads (StepsWith (hresTick sym) ext) ⟨labelAddr (hresTick sym) .hresTick, s⟩ fun d =>
      d.ip = labelAddr (hresTick sym) .cl5 ∧
      d.state.regs.dx ++ d.state.regs.cx = adjust c.hrestimeAdj c.maxHresAdj ∧
      Leads (StepsWith (hresTick sym) ext) d fun e =>
        ∃ f', Returned sp f s f' e ∧ Holds sym sp (c.tick t) f' e.state.mem := by
  obtain ⟨hext, hspread, hstack, hm, hfree, ⟨g, hg, hans⟩, -⟩ := h
  obtain ⟨⟨ax, cx, dx, bx, sp', bp, si, di, hi⟩, fl, df, m⟩ := s
  obtain rfl : sp' = sp := hstack
  apply leads_enter hext hspread hm
  intro m₁ hm₁
  apply leads_extern hg
  generalize hu : (⟨⟨ax, cx, dx, bx, sp' - 16#32, sp' - 4#32, si, di, hi⟩, fl, df, m₁⟩ : State 32) = u
  have hu' := hans u (by rw [← hu])
  have hback : (u.pop 0).1.toNat = labelAddr (hresTick sym) .hresTick + 6 := by
    rw [← hu]
    exact congrArg BitVec.toNat (congrFun hm₁ .call)
  rw [hback]
  obtain ⟨htime, hstack, hbp, hbx, hsi, hdi, hwords⟩ := hu'
  generalize g u = v at *
  obtain ⟨⟨ax', cx', dx', bx', sp'', bp', si', di', hi'⟩, fl', df', m₂⟩ := v
  subst hu
  simp only [slots] at htime hstack hbp hbx hsi hdi hwords
  subst hstack hbp hbx hsi hdi
  have hm₂ : Holds sym sp' c { f with bp := bp, si := si', bx := bx', call := cells (place sym sp') m₂ .call } m₂ := by
    rw [Holds]
    funext k
    by_cases hk : k = .call
    · rw [hk, view]
    · rw [hwords k hk, hm₁]
      cases k <;> first | rfl | exact absurd rfl hk
  obtain ⟨rfl, rfl⟩ := words_of_pair (n := 32) htime
  apply leads_lock hext hspread hm₂ hfree
  intro ax₃ dx₃ fl₃ m₃ hm₃
  apply leads_interval hext hspread hm₃
  intro ax₄ cx₄ dx₄ fl₄ m₄ hm₄
  apply leads_adjHrestime hext hm₄
  intro ax₅ si₅ fl₅
  refine .here ⟨rfl, words_eq _, ?_⟩
  apply leads_return hext hspread hm₄
  intro ax₆ cx₆ dx₆ fl₆ m₆ hm₆
  refine .here ⟨_, ⟨rfl, rfl, rfl, rfl, rfl, rfl, ?_⟩, hm₆⟩
  simp only [BitVec.toNat_add, BitVec.toNat_ofNat]
  omega

end Routine

end SysvDev.Hres.Tick
