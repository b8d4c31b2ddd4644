import SysvDev.Hres.Tick

namespace SysvDev.Hres.Conservation

open Word X86.Memory X86.Machine X86.Run X86.Cells Text Tick

section Adjustment

variable {a : BitVec 64} {mx : BitVec 32}

/-- The C code of the comment, with `HRES_ADJ` for the bound. -/
def adjOf (hrestimeAdj HRES_ADJ : Int) : Int :=
  if hrestimeAdj = 0 then 0
  else if hrestimeAdj > 0 then
    if hrestimeAdj < HRES_ADJ then hrestimeAdj else HRES_ADJ
  else
    if hrestimeAdj < -HRES_ADJ then -HRES_ADJ else hrestimeAdj

theorem adjOf_eq_clamp {h H : Int} (hH : 0 < H) : adjOf h H = max (-H) (min h H) := by
  rw [adjOf]
  split_ifs <;> omega

theorem toInt_positive (hmx : mx.toNat < 2 ^ 31) : ((0#32 ++ mx : BitVec 64)).toInt = mx.toInt := by
  have hnat : (0#32 ++ mx : BitVec 64).toNat = mx.toNat := by
    rw [toNat_pair (n := 32), BitVec.toNat_ofNat]
    omega
  rw [BitVec.toInt_eq_toNat_cond, BitVec.toInt_eq_toNat_cond, hnat]
  omega

theorem toInt_negative (hpos : 0 < mx.toNat) (hmx : mx.toNat < 2 ^ 31) :
    (((-1#32) ++ (-mx) : BitVec 64)).toInt = -mx.toInt := by
  have hnat : ((-1#32) ++ (-mx) : BitVec 64).toNat = 2 ^ 64 - mx.toNat := by
    rw [toNat_pair (n := 32), BitVec.toNat_neg, BitVec.toNat_neg, BitVec.toNat_ofNat]
    omega
  rw [BitVec.toInt_eq_toNat_cond, BitVec.toInt_eq_toNat_cond, hnat]
  omega

theorem toInt_cases (a : BitVec 64) :
    a.toNat < 2 ^ 63 ∧ a.toInt = a.toNat ∨ 2 ^ 63 ≤ a.toNat ∧ a.toInt = a.toNat - 2 ^ 64 := by
  rw [BitVec.toInt_eq_toNat_cond]
  split <;> omega

theorem msb_neg (a : BitVec 64) : (-a).msb = decide (0 < a.toNat ∧ a.toNat ≤ 2 ^ 63) := by
  have ha := a.isLt
  rw [BitVec.msb_eq_decide, BitVec.toNat_neg]
  apply decide_eq_decide.mpr
  omega

theorem adjust_of_neg (hsign : 2 ^ 63 < a.toNat) :
    adjust a mx = if 2 ^ 64 ≤ a.toNat + mx.toNat then a else (-1#32) ++ (-mx) := by
  have hzero : a ≠ 0#64 := by
    rintro rfl
    exact absurd hsign (by decide)
  rw [adjust, if_neg hzero, msb_neg, if_neg]
  rw [decide_eq_true_iff]
  omega

theorem adjust_of_pos (hpos : 0 < a.toNat) (hsign : a.toNat ≤ 2 ^ 63) :
    adjust a mx = if mx.toNat < a.toNat then 0#32 ++ mx else a := by
  have hzero : a ≠ 0#64 := by
    rintro rfl
    exact absurd hpos (by decide)
  rw [adjust, if_neg hzero, msb_neg, if_pos (decide_eq_true ⟨hpos, hsign⟩)]

theorem toInt_adjust (hne : a ≠ BitVec.intMin 64) (hpos : 0 < mx.toNat) (hmx : mx.toNat < 2 ^ 31) :
    (adjust a mx).toInt = max (-mx.toInt) (min a.toInt mx.toInt) := by
  have hmin : a.toNat ≠ 2 ^ 63 := fun h => hne (BitVec.eq_of_toNat_eq h)
  have hmint : mx.toInt = mx.toNat := BitVec.toInt_eq_toNat_of_lt (by omega)
  rcases toInt_cases a with ⟨hsign, hint⟩ | ⟨hsign, hint⟩
  · rcases Nat.eq_zero_or_pos a.toNat with hzero | hzero
    · rw [adjust, if_pos (BitVec.eq_of_toNat_eq hzero), hint, hzero, hmint, BitVec.toInt_zero]
      omega
    · rw [adjust_of_pos hzero hsign.le]
      split
      · rw [toInt_positive hmx, hmint]
        omega
      · omega
  · rw [adjust_of_neg (by omega)]
    split
    · omega
    · rw [toInt_negative hpos hmx, hmint]
      omega

theorem bound_of_pos (h : 1 ≤ mx.toInt) : 0 < mx.toNat ∧ mx.toNat < 2 ^ 31 := by
  have hcond := BitVec.toInt_eq_toNat_cond mx
  have hlt := mx.isLt
  split at hcond <;> omega

/-- The adjustment is within the bound in any case. -/
theorem abs_adjust_le (a : BitVec 64) (hpos : 0 < mx.toNat) (hmx : mx.toNat < 2 ^ 31) :
    -mx.toInt ≤ (adjust a mx).toInt ∧ (adjust a mx).toInt ≤ mx.toInt := by
  have hmint : mx.toInt = mx.toNat := BitVec.toInt_eq_toNat_of_lt (by omega)
  by_cases hmin : a = BitVec.intMin 64
  · have hnat : a.toNat = 2 ^ 63 := congrArg BitVec.toNat hmin
    rw [adjust_of_pos (by omega) (by omega), if_pos (by omega), toInt_positive hmx]
    omega
  · rw [toInt_adjust hmin hpos hmx]
    omega

end Adjustment

section Time

variable (c : Clock) (t : BitVec 64)

def wall : Int := c.sec.toInt * NANOSEC + c.nsec.toInt

def since : Int := t.toInt - c.lastTick.toInt

def adj : Int := (adjust c.hrestimeAdj c.maxHresAdj).toInt

/-- What `hrestime.tv_nsec` would come to if it had the room. -/
def due : Int := c.nsec.toInt + since c t + adj c

end Time

def Normal (c : Clock) : Prop := 0 ≤ c.nsec.toInt ∧ c.nsec.toInt < NANOSEC

structure Sound (c : Clock) (t : BitVec 64) : Prop where
  bound : 0 < c.maxHresAdj.toInt ∧ c.maxHresAdj.toInt < NANOSEC
  later : c.lastTick.toInt ≤ t.toInt
  sec : c.sec.toInt + due c t / NANOSEC < 2 ^ 31

section Arithmetic

variable {c : Clock} {t : BitVec 64}

theorem toNat_since (h : c.lastTick.toInt ≤ t.toInt) : ((t - c.lastTick).toNat : Int) = since c t := by
  have ht := t.isLt
  have hlast := c.lastTick.isLt
  rw [since]
  rcases toInt_cases t with ⟨h1, h2⟩ | ⟨h1, h2⟩ <;> rcases toInt_cases c.lastTick with ⟨h3, h4⟩ | ⟨h3, h4⟩ <;>
    rcases toNat_sub_cases t c.lastTick with ⟨h5, h6⟩ | ⟨h5, h6⟩ <;> omega

theorem toNat_due (hn : Normal c) (h : Sound c t) :
    (((c.elapsed t).nsec + lsw (adjust c.hrestimeAdj c.maxHresAdj)).toNat : Int) = due c t % 2 ^ 32 := by
  have hnsec : (c.nsec.toNat : Int) = c.nsec.toInt := by
    have hcond := BitVec.toInt_eq_toNat_cond c.nsec
    have hlt := c.nsec.isLt
    have hnn := hn.1
    split at hcond <;> omega
  have hsince := toNat_since h.later
  have hlo := toNat_low (n := 32) (t - c.lastTick)
  have hlo' := toNat_low (n := 32) (adjust c.hrestimeAdj c.maxHresAdj)
  rw [Clock.elapsed, due, adj, BitVec.toNat_add, BitVec.toNat_add, hlo, hlo', ← hnsec, ← hsince]
  rcases toInt_cases (adjust c.hrestimeAdj c.maxHresAdj) with ⟨h1, h2⟩ | ⟨h1, h2⟩ <;> omega

theorem neg_lt_due (hn : Normal c) (h : Sound c t) : -NANOSEC < due c t := by
  obtain ⟨hnn, -⟩ := hn
  obtain ⟨⟨hpos, hmx⟩, hlater, -⟩ := h
  obtain ⟨hpos', hlt⟩ := bound_of_pos hpos
  obtain ⟨habs, -⟩ := abs_adjust_le c.hrestimeAdj hpos' hlt
  rw [NANOSEC] at hmx
  rw [due, adj, since, NANOSEC]
  omega

theorem nsec_tick (hn : Normal c) (h : Sound c t) : (c.tick t).nsec.toInt = due c t % 2 ^ 32 % NANOSEC := by
  have hdue := toNat_due hn h
  rw [NANOSEC]
  simp only [Clock.tick, NANOSEC]
  rw [BitVec.toInt_eq_toNat_of_lt] <;> rw [BitVec.toNat_ofNat] <;> omega

theorem normal_tick (hn : Normal c) (h : Sound c t) : Normal (c.tick t) := by
  have hnano : (0 : Int) < NANOSEC := by decide
  rw [Normal, nsec_tick hn h]
  exact ⟨Int.emod_nonneg _ hnano.ne.symm, Int.emod_lt_of_pos _ hnano⟩

theorem sec_tick (hn : Normal c) (h : Sound c t) :
    (c.tick t).sec.toInt = (c.sec.toInt + due c t % 2 ^ 32 / NANOSEC).bmod (2 ^ 32) := by
  have hdue := toNat_due hn h
  rw [NANOSEC]
  simp only [Clock.tick, Clock.carry, Clock.adjusted, Clock.elapsed, NANOSEC] at hdue ⊢
  generalize (c.nsec + lsw (t - c.lastTick) + lsw (adjust c.hrestimeAdj c.maxHresAdj)).toNat = y at hdue ⊢
  have hcarries : (BitVec.ofNat 32 (y / 1000000000)).toInt = y / 1000000000 := by
    rw [BitVec.toInt_eq_toNat_of_lt] <;> rw [BitVec.toNat_ofNat] <;> omega
  rw [BitVec.toInt_add, hcarries, ← hdue]
  rfl

theorem wall_tick_iff (hn : Normal c) (h : Sound c t) :
    wall (c.tick t) = wall c + since c t + adj c ↔ 0 ≤ due c t ∧ due c t < 2 ^ 32 := by
  have hlo := neg_lt_due hn h
  have hsec := h.sec
  have hbound := BitVec.toInt_lt (x := c.sec)
  have hbound' := BitVec.le_toInt (x := c.sec)
  have hdue : due c t = c.nsec.toInt + since c t + adj c := rfl
  rw [wall, wall, nsec_tick hn h, sec_tick hn h, Int.bmod_def]
  rw [NANOSEC] at *
  constructor
  · intro heq
    split at heq <;> omega
  · rintro ⟨h0, hlt⟩
    split <;> omega

end Arithmetic

section Runs

variable {sym : Symbols} {sp : BitVec 32} {ext : Nat → Option (State 32 → State 32)} {t : BitVec 64} {c c' : Clock}
  {f f' : Frame} {s : State 32} {m : Mem 32}

theorem holds_inj (h : Holds sym sp c f m) (h' : Holds sym sp c' f' m) : c' = c := by
  have hview : view c' f' = view c f := h'.symm.trans h
  have hwords {v v' : BitVec 64} (hlo : lsw v' = lsw v) (hhi : msw v' = msw v) : v' = v := by
    rw [← words_eq v', hlo, hhi, words_eq]
  have hadj := hwords (congrFun hview .adjLo) (congrFun hview .adjHi)
  have hlast := hwords (congrFun hview .lastLo) (congrFun hview .lastHi)
  have hdelta := hwords (congrFun hview .deltaLo) (congrFun hview .deltaHi)
  have hbase := hwords (congrFun hview .baseLo) (congrFun hview .baseHi)
  obtain ⟨sec, nsec, a, last, delta, base, one, mx⟩ := c
  obtain ⟨sec', nsec', a', last', delta', base', one', mx'⟩ := c'
  simp only at hadj hlast hdelta hbase
  have hsec : sec' = sec := congrFun hview .sec
  have hnsec : nsec' = nsec := congrFun hview .nsec
  have hone : one' = one := congrFun hview .oneSec
  have hmx : mx' = mx := congrFun hview .maxAdj
  subst hadj hlast hdelta hbase hsec hnsec hone hmx
  rfl

def Ticked (sym : Symbols) (t : BitVec 64) (c c' : Clock) : Prop :=
  ∃ sp ext f s f' d, Entered sym sp ext t c f s ∧
    Relation.ReflTransGen (StepsWith (hresTick sym) ext) ⟨labelAddr (hresTick sym) .hresTick, s⟩ d ∧
    d.ip = f.ret.toNat ∧ Holds sym sp c' f' d.state.mem

/-- The caller is not in the text, so that a return ends the run. -/
theorem nextWith_ret (h : Entered sym sp ext t c f s) {d : Cfg 32} (hd : d.ip = f.ret.toNat) :
    nextWith (hresTick sym) ext d = none := by
  rw [nextWith, hd, h.caller.2, next, hd, List.getElem?_eq_none h.caller.1]
  rfl

theorem Ticked.eq (h : Ticked sym t c c') : c' = c.tick t := by
  obtain ⟨sp, ext, f, s, f', d, hent, hrun, hip, hm⟩ := h
  obtain ⟨e, hrun', -, -, d', hrest, f'', hret, hm'⟩ := comes_cl5 hent
  have hd : d = d' := Part.mem_unique
    (StateTransition.mem_eval.mpr ⟨hrun, nextWith_ret hent hip⟩)
    (StateTransition.mem_eval.mpr ⟨hrun'.trans hrest, nextWith_ret hent hret.ip⟩)
  subst hd
  exact holds_inj hm' hm

/-- One tick after the other, with the sum of what they have applied. Between
them others may set `hrestime_adj`, `timedelta` and the bound. -/
inductive Ticks (sym : Symbols) : Clock → Clock → Int → Prop
  | none (c : Clock) : Ticks sym c c 0
  | tick {c₀ c₁ c c' : Clock} {t : BitVec 64} {sum : Int} (before : Ticks sym c₀ c₁ sum)
      (sec : c.sec = c₁.sec) (nsec : c.nsec = c₁.nsec) (last : c.lastTick = c₁.lastTick)
      (sound : Sound c t) (fits : 0 ≤ due c t ∧ due c t < 2 ^ 32) (ticked : Ticked sym t c c') :
      Ticks sym c₀ c' (sum + adj c)

theorem wall_ticks {c₀ : Clock} {sum : Int} (hn : Normal c₀) (h : Ticks sym c₀ c' sum) :
    Normal c' ∧ wall c' = wall c₀ + since c₀ c'.lastTick + sum := by
  induction h with
  | none =>
      rw [since]
      exact ⟨hn, by omega⟩
  | tick before sec nsec last sound fits ticked ih =>
      rename_i c₁ c c' t sum
      obtain ⟨hn₁, hwall⟩ := ih
      have hnc : Normal c := by
        rw [Normal, nsec]
        exact hn₁
      have hsame : wall c = wall c₁ := by
        rw [wall, wall, sec, nsec]
      have htick := (wall_tick_iff hnc sound).mpr fits
      rw [ticked.eq]
      refine ⟨normal_tick hnc sound, ?_⟩
      rw [htick, hsame, hwall, since, since, since, last]
      change _ = _ + (t.toInt - _) + _
      omega

section Sample

/-! A call with seven nanoseconds left to adjust and a bound of three. -/

def samplePlaces : Symbols := ⟨4096, 4112, 4128, 4144, 4160, 4176, 4192, 4208, 4224⟩

def sampleClock : Clock := ⟨0#32, 0#32, 7#64, 0#64, 7#64, 0#64, 0#32, 3#32⟩

def sampleFrame : Frame := ⟨0#32, 200#32, 300#32, 0#32, 0#32, 0#32, 0#32⟩

def sampleMemory : Mem 32 :=
  store (store (store (store (store (fun _ => 0#8) 4112#32 7#32) 4144#32 7#32) 4208#32 3#32) 4224#32 200#32)
    65536#32 300#32

def sampleState : State 32 :=
  ⟨⟨0#32, 0#32, 0#32, 0#32, 65536#32, 0#32, 0#32, 0#32, .zero⟩,
    undefinedFlags, false, sampleMemory⟩

def sampleTime (t : BitVec 64) (i : Nat) : Option (State 32 → State 32) :=
  if i = 200 then
    some fun s => { s with regs := { s.regs with ax := lsw t, dx := msw t, sp := s.regs.sp + 4#32 } }
  else none

def Cell.all : List Cell :=
  [.sec, .nsec, .adjLo, .adjHi, .lastLo, .lastHi, .deltaLo, .deltaHi, .lock, .baseLo, .baseHi, .oneSec, .maxAdj, .timef,
    .ret, .bp, .si, .bx, .call]

theorem Cell.mem_all (k : Cell) : k ∈ Cell.all := by
  cases k <;> decide

theorem spread_sample : Spread (place samplePlaces 65536#32) := by
  have hall : ∀ j ∈ Cell.all, ∀ k ∈ Cell.all, j ≠ k →
      Apart (place samplePlaces 65536#32 j) 4 (place samplePlaces 65536#32 k) 4 := by
    decide +kernel
  exact fun j k hjk => hall j (Cell.mem_all j) k (Cell.mem_all k) hjk

theorem holds_sample : Holds samplePlaces 65536#32 sampleClock sampleFrame sampleMemory := by
  have hall : ∀ k ∈ Cell.all, cells (place samplePlaces 65536#32) sampleMemory k = view sampleClock sampleFrame k := by
    decide +kernel
  exact funext fun k => hall k (Cell.mem_all k)

theorem entered_sample (t : BitVec 64) :
    Entered samplePlaces 65536#32 (sampleTime t) t sampleClock sampleFrame sampleState where
  inside i hi := by
    have hlen : (hresTick samplePlaces).length = 92 := rfl
    rw [sampleTime, if_neg (by omega)]
  spread := spread_sample
  stack := rfl
  holds := holds_sample
  free := rfl
  gethrtimef := ⟨_, rfl, fun _ _ => ⟨words_eq t, rfl, rfl, rfl, rfl, rfl, fun _ _ => rfl⟩⟩
  caller := ⟨by decide, rfl⟩

theorem normal_sample : Normal sampleClock := by
  rw [Normal]
  decide

end Sample

/-- A tick always sets the nanoseconds right, takes down the time and adds the
interval to `hrtime_base`, but the time of day moves on by what has passed and
what is applied just where the sum of the nanoseconds has room in 32 bits. So
it does over a run of such ticks. -/
theorem hres_tick_conserves_iff (h : Entered sym sp ext t c f s) (hn : Normal c) (hs : Sound c t) :
    (Leads (StepsWith (hresTick sym) ext) ⟨labelAddr (hresTick sym) .hresTick, s⟩ fun d =>
      ∃ c' f', Returned sp f s f' d ∧ Holds sym sp c' f' d.state.mem ∧ Normal c' ∧ c'.lastTick = t ∧
        c'.base = c.base + (t - c.lastTick) ∧
        (wall c' = wall c + since c t + adj c ↔ 0 ≤ due c t ∧ due c t < 2 ^ 32)) ∧
    ∀ c' sum, Ticks sym c c' sum → wall c' = wall c + since c c'.lastTick + sum := by
  constructor
  · apply (comes_cl5 h).trans
    rintro d ⟨-, -, hd⟩
    apply hd.mono
    rintro e ⟨f', hret, hm⟩
    exact ⟨_, _, hret, hm, normal_tick hn hs, rfl, rfl, wall_tick_iff hn hs⟩
  · intro c' sum hticks
    exact (wall_ticks hn hticks).2

theorem hres_tick_conserves_five :
    Leads (StepsWith (hresTick samplePlaces) (sampleTime 5#64))
      ⟨labelAddr (hresTick samplePlaces) .hresTick, sampleState⟩ fun d =>
        ∃ c' f', Returned 65536#32 sampleFrame sampleState f' d ∧
          Holds samplePlaces 65536#32 c' f' d.state.mem ∧ wall c' = 8 := by
  have hs : Sound sampleClock 5#64 := ⟨by decide, by decide, by decide⟩
  apply (hres_tick_conserves_iff (entered_sample 5#64) normal_sample hs).1.mono
  rintro d ⟨c', f', hret, hm, -, -, -, hwall⟩
  exact ⟨c', f', hret, hm, hwall.mpr (by decide)⟩

/-- An interval of 2^32 nanoseconds does not move the time of day. -/
theorem hres_tick_loses_interval :
    Normal sampleClock ∧ Sound sampleClock 4294967296#64 ∧
    wall sampleClock + since sampleClock 4294967296#64 + adj sampleClock = 4294967299 ∧
    Leads (StepsWith (hresTick samplePlaces) (sampleTime 4294967296#64))
      ⟨labelAddr (hresTick samplePlaces) .hresTick, sampleState⟩ fun d =>
        ∃ c' f', Returned 65536#32 sampleFrame sampleState f' d ∧
          Holds samplePlaces 65536#32 c' f' d.state.mem ∧ wall c' = 3 := by
  refine ⟨normal_sample, ⟨by decide, by decide, by decide⟩, by decide, ?_⟩
  apply (comes_cl5 (entered_sample 4294967296#64)).trans
  rintro d ⟨-, -, hd⟩
  apply hd.mono
  rintro e ⟨f', hret, hm⟩
  exact ⟨_, _, hret, hm, by decide⟩

theorem hres_tick_clamps (h : Entered sym sp ext t c f s) (hne : c.hrestimeAdj.toInt ≠ -2 ^ 63)
    (hmax : 1 ≤ c.maxHresAdj.toInt) :
    (Leads (StepsWith (hresTick sym) ext) ⟨labelAddr (hresTick sym) .hresTick, s⟩ fun d =>
      d.ip = labelAddr (hresTick sym) .cl5 ∧
      (d.state.regs.dx ++ d.state.regs.cx).toInt = adjOf c.hrestimeAdj.toInt c.maxHresAdj.toInt ∧
      Leads (StepsWith (hresTick sym) ext) d fun e =>
        ∃ c' f', Returned sp f s f' e ∧ Holds sym sp c' f' e.state.mem ∧
          c'.timedelta = c.timedelta - BitVec.ofInt 64 (adjOf c.hrestimeAdj.toInt c.maxHresAdj.toInt) ∧
          c'.hrestimeAdj = c'.timedelta) ∧
    adjOf c.hrestimeAdj.toInt c.maxHresAdj.toInt =
      if c.hrestimeAdj.toInt = 0 then 0
      else max (-c.maxHresAdj.toInt) (min c.hrestimeAdj.toInt c.maxHresAdj.toInt) := by
  have hmin : c.hrestimeAdj ≠ BitVec.intMin 64 := by
    intro hmin
    apply hne
    rw [hmin]
    rfl
  obtain ⟨hpos, hlt⟩ := bound_of_pos hmax
  have hadj : (adjust c.hrestimeAdj c.maxHresAdj).toInt = adjOf c.hrestimeAdj.toInt c.maxHresAdj.toInt := by
    rw [toInt_adjust hmin hpos hlt, adjOf_eq_clamp (by omega)]
  constructor
  · apply (comes_cl5 h).mono
    rintro d ⟨hip, hwords, hd⟩
    refine ⟨hip, by rw [hwords, hadj], hd.mono ?_⟩
    rintro e ⟨f', hret, hm⟩
    refine ⟨_, _, hret, hm, ?_, rfl⟩
    rw [← hadj, BitVec.ofInt_toInt]
    rfl
  · rw [adjOf_eq_clamp (by omega)]
    split <;> omega

theorem hres_tick_clamps_seven :
    Leads (StepsWith (hresTick samplePlaces) (sampleTime 5#64))
      ⟨labelAddr (hresTick samplePlaces) .hresTick, sampleState⟩ fun d =>
        d.ip = labelAddr (hresTick samplePlaces) .cl5 ∧ (d.state.regs.dx ++ d.state.regs.cx).toInt = 3 := by
  apply (hres_tick_clamps (entered_sample 5#64) (by decide) (by decide)).1.mono
  rintro d ⟨hip, hadj, -⟩
  exact ⟨hip, hadj⟩

end Runs

end SysvDev.Hres.Conservation
