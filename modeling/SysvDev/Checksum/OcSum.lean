import SysvDev.Checksum.Unrolled

namespace SysvDev.Checksum.OcSum

open EndAround Reference Unrolled X86.Memory X86.Machine X86.Machine.Att X86.Run

variable {w : Nat} {tbl : BitVec w} {test : Line Label} {table text : List (Line Label)}

/-- What the two texts have in common: where the parts stand, and what the
lines do in which they differ. `tbl` is the address of the jump table. -/
structure Layout (w : Nat) (tbl : BitVec w) (test : Line Label) (table text : List (Line Label)) : Prop where
  wide : 32 ≤ w
  begin32 : At text (labelAddr text .ipCsumAligned) (begin32 ++ [addl (ind 0 .si) edx])
  nextIter : labelAddr text .nextIter = labelAddr text .ipCsumAligned + 1
  first : labelAddr text (.only 60) = labelAddr text .ipCsumAligned + 5
  only : ∀ k ≤ 15, At text (labelAddr text (.only (4 * k))) (only k ++ end32 w test)
  small : ∀ k ≤ 15, labelAddr text (.only (4 * k)) < 2 ^ 32
  done : ∀ k ≤ 15, labelAddr text .ipOcsumDone = labelAddr text (.only (4 * k)) + (2 * k + 6)
  notaligned : At text (labelAddr text .ipCsumNotaligned) (ipCsumNotaligned w)
  lessThan32 : At text (labelAddr text .lessThan32) lessThan32
  size : labelAddr text .sizeAligned = labelAddr text .lessThan32 + 8
  sizeAligned : At text (labelAddr text .sizeAligned) (sizeAligned w table)
  test {ip : Nat} {s : State w} {rest : List (Line Label)} (v : BitVec 32) (h : s.regs.cx = v.setWidth w) :
    run text ip s (test :: rest) = run text (ip + 1) { s with flags := (logical v).2 } rest
  table {ip : Nat} {s : State w} {rest : List (Line Label)} :
    run text ip s (table ++ rest) =
      run text (ip + 2) { s with regs := { s.regs with di := tbl + BitVec.ofNat w (w / 8) * s.regs.cx } } rest

/-- The jump table as the linker has filled it in. -/
def Table (text : List (Line Label)) (tbl : BitVec w) (m : Mem w) : Prop :=
  ∀ k < 16, load w m (tbl + BitVec.ofNat w (w / 8 * k)) = BitVec.ofNat w (labelAddr text (.only (4 * k)))

def acc (ax dx : BitVec w) : Nat := (ax.setWidth 32).toNat + (dx.setWidth 32).toNat

/-- The run has come to where the halves are added, with a sum that stands for
`t`. -/
def Done (text : List (Line Label)) (bx sp bp : BitVec w) (hi : HighRegs w) (df : Bool) (m : Mem w) (t : Nat)
    (c : Cfg w) : Prop :=
  ∃ ax cx dx si di fl, c = ⟨labelAddr text .ipOcsumDone, ⟨⟨ax, cx, dx, bx, sp, bp, si, di, hi⟩, fl, df, m⟩⟩ ∧
    Stands 0xffff (acc ax dx) t

theorem merge_full (hw : 32 ≤ w) (old v : BitVec w) : State.merge old v = v := by
  rw [merge_long old v hw, BitVec.setWidth_eq]

theorem merge_half (v : BitVec 16) : State.merge (0#w) v = v.setWidth w := by
  simp [State.merge]

theorem setWidth_ofNat {j : Nat} (h : j < 2 ^ 32) : (BitVec.ofNat 32 j).setWidth w = BitVec.ofNat w j := by
  apply BitVec.eq_of_toNat_eq
  rw [BitVec.toNat_setWidth, BitVec.toNat_ofNat, BitVec.toNat_ofNat, Nat.mod_eq_of_lt h]

theorem setWidth_shr {k : Nat} (hk : k ≤ 15) : (BitVec.ofNat 32 (2 * k) >>> 1).setWidth w = BitVec.ofNat w k := by
  apply BitVec.eq_of_toNat_eq
  rw [BitVec.toNat_setWidth, BitVec.toNat_ushiftRight, BitVec.toNat_ofNat, BitVec.toNat_ofNat,
    Nat.mod_eq_of_lt (b := 2 ^ 32) (by omega), Nat.shiftRight_eq_div_pow, Nat.pow_one,
    Nat.mul_div_cancel_left k (by decide)]

theorem setWidth_shl {k : Nat} (hk : k ≤ 15) :
    (BitVec.ofNat 32 (2 * k) <<< 1).setWidth w = BitVec.ofNat w (4 * k) := by
  apply BitVec.eq_of_toNat_eq
  rw [BitVec.toNat_setWidth, BitVec.toNat_shiftLeft, BitVec.toNat_ofNat, BitVec.toNat_ofNat,
    Nat.mod_eq_of_lt (b := 2 ^ 32) (by omega), Nat.shiftLeft_eq, Nat.mod_eq_of_lt (b := 2 ^ 32) (by omega)]
  congr 1
  omega

section Loop

variable (hl : Layout w tbl test table text) {k : Nat} {ax cx dx bx sp bp si di : BitVec w} {hi : HighRegs w}
  {fl : Flags} {df : Bool} {m : Mem w} {c : Bool} {v : BitVec 32} {P : Cfg w → Prop}

include hl

theorem leads_only (hk : k ≤ 15) (hc : fl.cf = some c)
    (h : ∀ ax' dx' fl', Stands (2 ^ 32 - 1) (acc ax' dx')
        (acc ax dx + c.toNat + doublewords m k (si + BitVec.ofNat w (64 - 4 * k))) →
      Leads (Steps text) ⟨if v = 0#32 then labelAddr text .ipOcsumDone else labelAddr text .nextIter,
        ⟨⟨ax', v.setWidth w, dx', bx, sp, bp, si + 64#w, di, hi⟩, fl', df, m⟩⟩ P) :
    Leads (Steps text) ⟨labelAddr text (.only (4 * k)),
      ⟨⟨ax, v.setWidth w, dx, bx, sp, bp, si, di, hi⟩, fl, df, m⟩⟩ P := by
  obtain ⟨ax', dx', fl', hrun, hstands⟩ := run_only (m := m) hl.wide (hk.trans (by decide)) hc
  apply leads_run (hl.only k hk)
  rw [hrun]
  by_cases hv : v = 0#32
  · subst hv
    have hnext := h ax' dx' (logical 0#32).2 hstands
    rw [if_pos rfl, hl.done k hk] at hnext
    simp [end32, merge_full hl.wide, hl.test 0#32] at hnext ⊢
    exact hnext
  · simp [end32, merge_full hl.wide, hl.test v, hv]
    have hnext := h ax' dx' (logical v).2 hstands
    rwa [if_neg hv] at hnext

theorem leads_sizeAligned (ht : Table text tbl m) (hk : k ≤ 15) :
    Leads (Steps text) ⟨labelAddr text .sizeAligned,
      ⟨⟨ax, (BitVec.ofNat 32 (2 * k)).setWidth w, dx, bx, sp, bp, si, di, hi⟩, fl, df, m⟩⟩
      (Done text bx sp bp hi df m (acc ax dx + total m (2 * k) si)) := by
  have hentry : (load w m (tbl + BitVec.ofNat w (w / 8) * BitVec.ofNat w k)).toNat = labelAddr text (.only (4 * k)) := by
    have hlt : labelAddr text (.only (4 * k)) < 2 ^ w :=
      Nat.lt_of_lt_of_le (hl.small k hk) (Nat.pow_le_pow_right (by decide) hl.wide)
    rw [← BitVec.ofNat_mul, ht k (by omega), BitVec.toNat_ofNat, Nat.mod_eq_of_lt hlt]
  -- the pointer is biased, so that the offsets of the loop fall on the words that are left
  have hbias : si + (BitVec.ofNat w (4 * k) - 64#w) + BitVec.ofNat w (64 - 4 * k) = si := by
    have hsum : 64#w = BitVec.ofNat w (4 * k) + BitVec.ofNat w (64 - 4 * k) := by
      rw [← BitVec.ofNat_add, Nat.add_sub_cancel' (by omega)]
    rw [hsum]
    ring
  apply leads_run hl.sizeAligned
  simp [sizeAligned, merge_full hl.wide, merge_long, low_setWidth hl.wide, hl.table, shr_val, shl_val, sum_val,
    setWidth_shr hk, setWidth_shl hk, hentry]
  have hzero : (0#w) = (0#32).setWidth w := by simp
  rw [hzero]
  apply leads_only hl hk rfl
  intro ax' dx' fl' hstands
  rw [hbias] at hstands
  refine .here ⟨ax', _, dx', _, _, fl', rfl, ?_⟩
  exact (hstands.of_dvd (by decide)).trans ((Stands.refl _ _).add (total_stands m k si).symm)

omit hl in
theorem Done.mono {t t' : Nat} {d : Cfg w} (h : Done text bx sp bp hi df m t d) (ht : Stands 0xffff t t') :
    Done text bx sp bp hi df m t' d := by
  obtain ⟨ax, cx, dx, si, di, fl, rfl, hstands⟩ := h
  exact ⟨ax, cx, dx, si, di, fl, rfl, hstands.trans ht⟩

theorem acc_halfword {x : BitVec 32} {h : BitVec 16} (hx : (h.setWidth w).setWidth 32 = x) :
    Stands 0xffff (acc ax ((sum 0#32 (sum x (dx.setWidth 32) false).1
        (decide (4294967296 ≤ (dx.setWidth 32).toNat + x.toNat))).1.setWidth w)) (acc ax dx + h.toNat) := by
  have hlt := h.isLt
  have hlt' := (dx.setWidth 32).isLt
  have hnat : x.toNat = h.toNat := by
    rw [← hx, BitVec.setWidth_setWidth_of_le _ hl.wide, BitVec.toNat_setWidth, Nat.mod_eq_of_lt (by omega)]
  have hsum := sum_carry_stands x (dx.setWidth 32) false (by rw [Bool.toNat_false]; omega)
  rw [Bool.toNat_false, Nat.add_zero] at hsum
  rw [acc, low_setWidth hl.wide, acc, Nat.add_assoc, ← hnat]
  exact (Stands.refl _ _).add (hsum.of_dvd (by decide))

theorem leads_lessThan32 (ht : Table text tbl m) (hv : v.toNat < 32) :
    Leads (Steps text) ⟨labelAddr text .lessThan32,
      ⟨⟨ax, (v - 32#32).setWidth w, dx, bx, sp, bp, si, di, hi⟩, fl, df, m⟩⟩
      (Done text bx sp bp hi df m (acc ax dx + total m v.toNat si)) := by
  apply leads_run hl.lessThan32
  obtain ⟨k, hk⟩ := Nat.even_or_odd' v.toNat
  have hle : k ≤ 15 := by omega
  have hcount : BitVec.ofNat 32 v.toNat = v := by rw [BitVec.ofNat_toNat, BitVec.setWidth_eq]
  obtain heven | hodd := hk
  · rw [heven] at hcount ⊢
    have hbit : BitVec.ofNat 32 (2 * k) &&& 1#32 = 0#32 := by interval_cases k <;> rfl
    simpa [lessThan32, merge_long, low_setWidth hl.wide, ← hcount, hbit] using leads_sizeAligned hl ht hle
  · rw [hodd] at hcount ⊢
    have hbit : BitVec.ofNat 32 (2 * k + 1) &&& 1#32 = 1#32 := by interval_cases k <;> rfl
    have hpairs : BitVec.ofNat 32 (2 * k + 1) &&& 254#32 = BitVec.ofNat 32 (2 * k) := by interval_cases k <;> rfl
    have haddr : si + 2#w * (BitVec.ofNat 32 (2 * k)).setWidth w = si + BitVec.ofNat w (2 * (2 * k)) := by
      rw [setWidth_ofNat (j := 2 * k) (by omega), ← BitVec.ofNat_mul]
    simp [lessThan32, merge_long, low_setWidth hl.wide, ← hcount, hbit, hpairs, haddr, sum_cf, -BitVec.toNat_setWidth]
    generalize hx : ((load 16 m (si + BitVec.ofNat w (2 * (2 * k)))).setWidth w).setWidth 32 = x
    have hsize : labelAddr text .lessThan32 + 1 + 1 + 1 + 1 + 1 + 1 + 1 + 1 = labelAddr text .sizeAligned :=
      hl.size.symm
    rw [hsize]
    refine (leads_sizeAligned hl ht hle).mono fun d hd => hd.mono ?_
    rw [total_add m (2 * k) 1, total, total]
    convert (acc_halfword hl hx).add (Stands.refl _ (total m (2 * k) si)) using 1
    omega

theorem acc_round {ax' dx' : BitVec w}
    (h : Stands (2 ^ 32 - 1) (acc ax' dx') (acc ax ((sum (load 32 m si) (dx.setWidth 32) false).1.setWidth w) +
      (decide (2 ^ 32 ≤ (dx.setWidth 32).toNat + (load 32 m si).toNat + false.toNat)).toNat +
        doublewords m 15 (si + BitVec.ofNat w (64 - 4 * 15)))) :
    Stands 0xffff (acc ax' dx') (acc ax dx + total m 32 si) := by
  simp only [Nat.reduceMul, Nat.reduceSub] at h
  have hfirst := (sum_stands (load 32 m si) (dx.setWidth 32) false).add
    (Stands.refl _ ((ax.setWidth 32).toNat + doublewords m 15 (si + 4#w)))
  have hwords : Stands (2 ^ 32 - 1) (acc ax' dx') (acc ax dx + doublewords m 16 si) := by
    refine h.trans ?_
    convert hfirst using 1
    · rw [acc, low_setWidth hl.wide]
      omega
    · rw [acc, doublewords, Bool.toNat_false]
      omega
  exact (hwords.of_dvd (by decide)).trans ((Stands.refl _ _).add (total_stands m 16 si).symm)

theorem leads_nextIter (ht : Table text tbl m) (hv : v.toNat < 2 ^ 31) :
    Leads (Steps text) ⟨labelAddr text .nextIter,
      ⟨⟨ax, v.setWidth w, dx, bx, sp, bp, si, di, hi⟩, fl, df, m⟩⟩
      (Done text bx sp bp hi df m (acc ax dx + total m v.toNat si)) := by
  induction hn : v.toNat using Nat.strong_induction_on generalizing v ax dx si di fl with
  | h n ih =>
      subst hn
      have hat : At text (labelAddr text .nextIter) [.label .nextIter, subl (.imm 32) ecx, jl .lessThan32,
          addl (ind 0 .si) edx] := by
        rw [hl.nextIter]
        exact hl.begin32.tail
      have hsigned : v.toInt = v.toNat := BitVec.toInt_eq_toNat_of_lt (by omega)
      apply leads_run hat
      by_cases hlast : v.toNat < 32
      · have hcond : Cond.l.eval (difference 32#32 v false).2 = some true := by
          rw [difference_l, hsigned]
          simpa using hlast
        simpa [merge_long, low_setWidth hl.wide, hcond, -Cond.eval] using leads_lessThan32 hl ht hlast
      · have hcond : Cond.l.eval (difference 32#32 v false).2 = some false := by
          rw [difference_l, hsigned]
          simpa using hlast
        simp [merge_long, low_setWidth hl.wide, hcond, -Cond.eval]
        have hfirst : labelAddr text .nextIter + 1 + 1 + 1 + 1 = labelAddr text (.only (4 * 15)) := by
          rw [hl.nextIter, hl.first]
        rw [hfirst]
        apply leads_only hl le_rfl (sum_cf _ _ _)
        intro ax' dx' fl' hstands
        have hround := acc_round hl hstands
        have hless : (v - 32#32).toNat = v.toNat - 32 :=
          BitVec.toNat_sub_of_le (BitVec.le_def.mpr (Nat.le_of_not_lt hlast))
        have htotal : total m v.toNat si = total m 32 si + total m (v - 32#32).toNat (si + 64#w) := by
          rw [hless, ← total_add m 32, Nat.add_sub_cancel' (Nat.le_of_not_lt hlast)]
        rw [htotal, ← Nat.add_assoc]
        split
        next hzero =>
          rw [hzero, BitVec.toNat_ofNat, Nat.zero_mod, total, Nat.add_zero]
          exact .here ⟨ax', _, dx', _, _, fl', rfl, hround⟩
        next =>
          refine (ih _ (by omega) (by omega) rfl).mono fun d hd => hd.mono ?_
          exact hround.add (Stands.refl _ _)

theorem leads_aligned (ht : Table text tbl m) (hv : v.toNat < 2 ^ 31) :
    Leads (Steps text) ⟨labelAddr text .ipCsumAligned,
      ⟨⟨ax, v.setWidth w, dx, bx, sp, bp, si, di, hi⟩, fl, df, m⟩⟩
      (Done text bx sp bp hi df m (acc ax dx + total m v.toNat si)) := by
  have hat : At text (labelAddr text .ipCsumAligned) [.label .ipCsumAligned] :=
    (List.prefix_append [Line.label Label.ipCsumAligned] _).trans hl.begin32
  apply leads_run hat
  rw [run_label, run_nil, ← hl.nextIter]
  exact ⟨_, rfl, leads_nextIter hl ht hv⟩

theorem leads_notaligned (ht : Table text tbl m) (hv : v.toNat < 2 ^ 31) (hpos : 0 < v.toNat) :
    Leads (Steps text) ⟨labelAddr text .ipCsumNotaligned,
      ⟨⟨ax, v.setWidth w, dx, bx, sp, bp, si, di, hi⟩, fl, df, m⟩⟩
      (Done text bx sp bp hi df m (acc ax dx + total m v.toNat si)) := by
  apply leads_run hl.notaligned
  simp [ipCsumNotaligned, merge_long, merge_full hl.wide, merge_half, low_setWidth hl.wide, sum_cf, decrement_val,
    -BitVec.toNat_setWidth]
  generalize hx : ((load 16 m si).setWidth w).setWidth 32 = x
  have hless : (v - 1#32).toNat = v.toNat - 1 := BitVec.toNat_sub_of_le (BitVec.le_def.mpr hpos)
  have htotal : total m v.toNat si = (load 16 m si).toNat + total m (v - 1#32).toNat (si + 2#w) := by
    rw [hless, ← total, Nat.succ_eq_add_one, Nat.sub_add_cancel hpos]
  rw [htotal, ← Nat.add_assoc]
  refine (leads_aligned hl ht (by omega)).mono fun d hd => hd.mono ?_
  exact (acc_halfword hl hx).add (Stands.refl _ _)

theorem leads_start {ip : Nat} (ht : Table text tbl m) (hv : v.toNat < 2 ^ 31)
    (hat : At text ip [jz .ipOcsumDone, .op (.alu .test w (.imm 3) (.reg .si)), jnz .ipCsumNotaligned])
    (hnext : labelAddr text .ipCsumAligned = ip + 1 + 1 + 1) :
    Leads (Steps text) ⟨ip, ⟨⟨0#w, v.setWidth w, dx, bx, sp, bp, si, di, hi⟩, (logical v).2, df, m⟩⟩
      (Done text bx sp bp hi df m ((dx.setWidth 32).toNat + total m v.toNat si)) := by
  have hacc : acc 0#w dx = (dx.setWidth 32).toNat := by
    rw [acc, BitVec.setWidth_zero, BitVec.toNat_ofNat, Nat.zero_mod, Nat.zero_add]
  rw [← hacc]
  apply leads_run hat
  by_cases hzero : v = 0#32
  · subst hzero
    simp [total]
    exact .here ⟨_, _, _, _, _, _, rfl, Stands.refl _ _⟩
  · by_cases hthree : si &&& 3#w = 0#w
    · simpa [hzero, hthree, ← hnext] using leads_aligned hl ht hv
    · simp [hzero, hthree]
      apply leads_notaligned hl ht hv
      rw [Nat.pos_iff_ne_zero]
      exact fun hnat => hzero (BitVec.eq_of_toNat_eq hnat)

end Loop

section Halves

variable {ip : Nat} {ax cx dx bx sp bp si di : BitVec w} {hi : HighRegs w} {fl : Flags} {df : Bool} {m : Mem w}
  {rest : List (Line Label)}

theorem merge_small {x : BitVec w} (hx : x.toNat < 2 ^ 16) (v : BitVec 16) : State.merge x v = v.setWidth w := by
  have hzero : x >>> 16 = 0#w := by
    apply BitVec.eq_of_toNat_eq
    rw [BitVec.toNat_ushiftRight, Nat.shiftRight_eq_div_pow, Nat.div_eq_of_lt hx, BitVec.toNat_ofNat, Nat.zero_mod]
  rw [State.merge, if_neg (by decide), hzero, BitVec.zero_shiftLeft, BitVec.zero_or]

def halves (d : BitVec 32) : BitVec 16 :=
  (sum 0#16 (sum (d.setWidth 16) ((d >>> 16).setWidth 16) false).1
    (decide (2 ^ 16 ≤ ((d >>> 16).setWidth 16).toNat + (d.setWidth 16).toNat))).1

theorem halves_stands (d : BitVec 32) : Stands 0xffff (halves d).toNat d.toNat := by
  have hlow : (d.setWidth 16).toNat = d.toNat % 2 ^ 16 := BitVec.toNat_setWidth _ _
  have hhigh : ((d >>> 16).setWidth 16).toNat = d.toNat / 2 ^ 16 := by
    have hlt := d.isLt
    rw [BitVec.toNat_setWidth, BitVec.toNat_ushiftRight, Nat.shiftRight_eq_div_pow, Nat.mod_eq_of_lt (by omega)]
  have hsum := sum_carry_stands (d.setWidth 16) ((d >>> 16).setWidth 16) false (by
    have hlt := (d.setWidth 16).isLt
    have hlt' := ((d >>> 16).setWidth 16).isLt
    rw [Bool.toNat_false]
    omega)
  rw [Bool.toNat_false, Nat.add_zero] at hsum
  refine hsum.trans ?_
  rw [hlow, hhigh, Nat.add_comm]
  exact Stands.carry (n := 16) (Nat.mod_add_div _ _)

theorem run_halves (hw : 32 ≤ w) (d : BitVec 32) :
    ∃ fl', run text ip ⟨⟨ax, cx, d.setWidth w, bx, sp, bp, si, di, hi⟩, fl, df, m⟩ (ipOcsumDone.drop 3 ++ rest) =
        run text (ip + 5) ⟨⟨(halves d).setWidth w, cx, d.setWidth w, bx, sp, bp, si, di, hi⟩, fl', df, m⟩ rest := by
  have hhigh : ((d >>> 16).setWidth w).toNat < 2 ^ 16 := by
    have hlt := d.isLt
    rw [BitVec.toNat_setWidth, BitVec.toNat_ushiftRight, Nat.shiftRight_eq_div_pow]
    exact Nat.lt_of_le_of_lt (Nat.mod_le _ _) (by omega)
  have hlow (v : BitVec 16) : (v.setWidth w).toNat < 2 ^ 16 := by
    rw [BitVec.toNat_setWidth]
    exact Nat.lt_of_le_of_lt (Nat.mod_le _ _) v.isLt
  have hpart {n : Nat} (v : BitVec n) : (v.setWidth w).setWidth 16 = v.setWidth 16 :=
    BitVec.setWidth_setWidth_of_le _ (by omega)
  have hmask (v : BitVec 16) : (v.setWidth w).setWidth 32 &&& 65535#32 = v.setWidth 32 := by
    apply BitVec.eq_of_toNat_eq
    have hlt := v.isLt
    rw [BitVec.setWidth_setWidth_of_le _ hw, BitVec.toNat_and, BitVec.toNat_setWidth, BitVec.toNat_ofNat,
      Nat.mod_eq_of_lt (by omega)]
    exact (Nat.and_two_pow_sub_one_eq_mod v.toNat 16).trans (Nat.mod_eq_of_lt hlt)
  have hwiden (v : BitVec 16) : (v.setWidth 32).setWidth w = v.setWidth w := by
    apply BitVec.eq_of_toNat_eq
    have hlt := v.isLt
    rw [BitVec.toNat_setWidth, BitVec.toNat_setWidth, BitVec.toNat_setWidth, Nat.mod_eq_of_lt (b := 2 ^ 32) (by omega)]
  simp only [ipOcsumDone, List.drop, List.cons_append, List.nil_append]
  simp [merge_long, low_setWidth hw, sum_cf, shr_val, merge_small hhigh, merge_small (hlow _), hpart, hmask, hwiden,
    -BitVec.toNat_setWidth]
  exact ⟨_, rfl⟩

theorem run_ipOcsumDone (hw : 32 ≤ w) :
    ∃ (r : BitVec 16) (dx' : BitVec w) (fl' : Flags),
      run text ip ⟨⟨ax, cx, dx, bx, sp, bp, si, di, hi⟩, fl, df, m⟩ (ipOcsumDone ++ rest) =
        run text (ip + 8) ⟨⟨r.setWidth w, cx, dx', bx, sp, bp, si, di, hi⟩, fl', df, m⟩ rest ∧
      Stands 0xffff r.toNat (acc ax dx) := by
  have hsum := sum_carry_stands (ax.setWidth 32) (dx.setWidth 32) false (by
    have hlt := (ax.setWidth 32).isLt
    have hlt' := (dx.setWidth 32).isLt
    rw [Bool.toNat_false]
    omega)
  have hsplit : ipOcsumDone ++ rest = .label .ipOcsumDone :: addl eax edx :: adcl (.imm 0) edx ::
      (ipOcsumDone.drop 3 ++ rest) := rfl
  rw [hsplit, run_label, run_addl_edx (v := ax.setWidth 32) rfl, run_adcl_edx (v := 0#32) (sum_cf _ _ _) rfl,
    low_setWidth hw]
  obtain ⟨fl', hrun⟩ := run_halves (m := m) hw _
  refine ⟨_, _, fl', hrun, ?_⟩
  rw [acc, Nat.add_comm (ax.setWidth 32).toNat]
  exact (halves_stands _).trans (hsum.of_dvd (N := 0xffff) (by decide))

end Halves

/-- A call may be made: the count is not negative, and the words that the
routine pushes, `below` bytes, are apart from the buffer and the jump table. -/
structure Admits (text : List (Line Label)) (o : State w) (below : Nat) (tbl address : BitVec w) (count : BitVec 32) :
    Prop where
  count_nonneg : 0 ≤ count.toInt
  table : Table text tbl o.mem
  table_outside : Outside (o.regs.sp - BitVec.ofNat w below) below tbl (w / 8 * 16)
  buffer_outside : Outside (o.regs.sp - BitVec.ofNat w below) below address (2 * count.toNat)

structure Sums (o : State w) (below : Nat) (saved : List Reg) (address : BitVec w) (count sum : BitVec 32) (c : Cfg w) :
    Prop where
  ip : c.ip = (load w o.mem o.regs.sp).toNat
  sp : c.state.regs.sp = o.regs.sp + BitVec.ofNat w (w / 8)
  saved : ∀ r ∈ saved, c.state.regs.get r = o.regs.get r
  df : c.state.df = o.df
  mem : ChangedIn (o.regs.sp - BitVec.ofNat w below) below o.mem c.state.mem
  le : (c.state.regs.ax.setWidth 32).toNat ≤ 0xffff
  modEq : (c.state.regs.ax.setWidth 32).toNat ≡ sum.toNat + total o.mem count.toNat address [MOD 0xffff]
  zero : (c.state.regs.ax.setWidth 32).toNat = 0 ↔ sum.toNat + total o.mem count.toNat address = 0
  reference : sum.toNat + total o.mem count.toNat address < 2 ^ 32 →
    c.state.regs.ax.setWidth 32 = ipOcsum o.mem address count.toNat sum

section Calls

variable {o : State w} {m : Mem w} {below : Nat} {address : BitVec w} {count sum : BitVec 32}

theorem Admits.table_pushed (h : Admits text o below tbl address count)
    (hm : ChangedIn (o.regs.sp - BitVec.ofNat w below) below o.mem m) : Table text tbl m := by
  intro k hk
  rw [← h.table k hk, load, load]
  congr 1
  apply loadNat_congr
  intro i hi
  rw [BitVec.add_assoc, ← BitVec.ofNat_add]
  apply hm
  apply h.table_outside
  calc w / 8 * k + i < w / 8 * k + w / 8 := by omega
    _ = w / 8 * (k + 1) := (Nat.mul_succ ..).symm
    _ ≤ w / 8 * 16 := Nat.mul_le_mul_left _ hk

theorem Admits.total_pushed (h : Admits text o below tbl address count)
    (hm : ChangedIn (o.regs.sp - BitVec.ofNat w below) below o.mem m) :
    total m count.toNat address = total o.mem count.toNat address :=
  total_congr fun i hi => hm _ (h.buffer_outside i hi)

theorem Admits.count_lt (h : Admits text o below tbl address count) : count.toNat < 2 ^ 31 := by
  have hnonneg := h.count_nonneg
  have hlt := count.isLt
  rw [BitVec.toInt_eq_toNat_cond] at hnonneg
  split at hnonneg <;> omega

theorem sums_of_stands {saved : List Reg} {c : Cfg w} {r : BitVec 16} (hw : 32 ≤ w)
    (hip : c.ip = (load w o.mem o.regs.sp).toNat) (hsp : c.state.regs.sp = o.regs.sp + BitVec.ofNat w (w / 8))
    (hsaved : ∀ r ∈ saved, c.state.regs.get r = o.regs.get r) (hdf : c.state.df = o.df)
    (hmem : ChangedIn (o.regs.sp - BitVec.ofNat w below) below o.mem c.state.mem)
    (hax : c.state.regs.ax = r.setWidth w)
    (h : Stands 0xffff r.toNat (sum.toNat + total o.mem count.toNat address)) :
    Sums o below saved address count sum c := by
  have hlt := r.isLt
  have hnat : (c.state.regs.ax.setWidth 32).toNat = r.toNat := by
    rw [hax, BitVec.setWidth_setWidth_of_le _ hw, BitVec.toNat_setWidth, Nat.mod_eq_of_lt (by omega)]
  refine ⟨hip, hsp, hsaved, hdf, hmem, by omega, hnat ▸ h.modEq, hnat ▸ h.zero, fun hfits => ?_⟩
  apply BitVec.eq_of_toNat_eq
  rw [hnat]
  exact h.unique (ipOcsum_stands hfits) (by omega) ipOcsum_le

end Calls

section Amd64

theorem layout_amd64 (jmptbl : Int) :
    Layout 64 (BitVec.ofInt 64 jmptbl) (testl ecx ecx) (Amd64.table jmptbl) (Amd64.text jmptbl) where
  wide := by decide
  begin32 := ⟨_, rfl⟩
  nextIter := rfl
  first := rfl
  only k hk := by interval_cases k <;> exact ⟨_, rfl⟩
  small k hk := Nat.lt_of_le_of_lt List.findIdx_le_length (by decide : 88 < 2 ^ 32)
  done k hk := by interval_cases k <;> rfl
  notaligned := ⟨_, rfl⟩
  lessThan32 := ⟨_, rfl⟩
  size := rfl
  sizeAligned := ⟨_, rfl⟩
  test v h := by simp [h]
  table := by simp [Amd64.table, merge_quad]

variable {jmptbl : Int} {o : State 64}

theorem leads_amd64 {count sum : BitVec 32} (hcount : count = o.regs.si.setWidth 32)
    (hsum : sum = o.regs.dx.setWidth 32)
    (h : Admits (Amd64.text jmptbl) o 8 (BitVec.ofInt 64 jmptbl) o.regs.di count) :
    Leads (Steps (Amd64.text jmptbl)) ⟨labelAddr (Amd64.text jmptbl) .ipOcsum, o⟩
      (Sums o 8 [.bx, .bp, .r12, .r13, .r14, .r15] o.regs.di count sum) := by
  obtain ⟨⟨ax, cx, dx, bx, sp, bp, si, di, hi⟩, fl, df, m⟩ := o
  obtain ⟨f, rfl⟩ : ∃ f, sp = f + 8#64 := ⟨sp - 8#64, (sub_add_cancel sp 8#64).symm⟩
  have hl := layout_amd64 jmptbl
  have hat : At (Amd64.text jmptbl) (labelAddr (Amd64.text jmptbl) .ipOcsum) (Amd64.entry.take 7) := ⟨_, rfl⟩
  have hexit : At (Amd64.text jmptbl) (labelAddr (Amd64.text jmptbl) .ipOcsumDone) (ipOcsumDone ++ Amd64.exit) :=
    ⟨_, rfl⟩
  have hframe : f + 8#64 - 8#64 = f := add_sub_cancel_right f 8#64
  have hpushed : ChangedIn (f + 8#64 - 8#64) 8 m (store m f bp) := by
    have hstore := (ChangedIn.refl f 8 m).store (v := bp) (c := 0#64) (by decide)
    rw [BitVec.add_zero] at hstore
    rwa [hframe]
  have hbp : load 64 (store m f bp) f = bp := load_store_same m f bp rfl (by decide)
  have hret : load 64 (store m f bp) (f + 8#64) = load 64 m (f + 8#64) := by
    rw [hframe] at hpushed
    exact hpushed.above 8 (by decide) (by decide) (by decide) (by decide)
  have htest : At (Amd64.text jmptbl) (labelAddr (Amd64.text jmptbl) .ipOcsum + 7) (Amd64.entry.drop 7) := ⟨_, rfl⟩
  have hstart : Leads (Steps (Amd64.text jmptbl)) ⟨labelAddr (Amd64.text jmptbl) .ipOcsum + 7,
      ⟨⟨0#64, count.setWidth 64, dx, bx, f, f, di, di, hi⟩, (logical count).2, df, store m f bp⟩⟩ _ :=
    leads_start hl (h.table_pushed hpushed) h.count_lt htest rfl
  rw [h.total_pushed hpushed] at hstart
  subst hcount hsum
  apply leads_run hat
  simp [Amd64.entry, merge_quad, merge_long, -BitVec.toNat_setWidth]
  refine hstart.trans fun d hd => ?_
  obtain ⟨ax', cx', dx', si', di', fl', rfl, hstands⟩ := hd
  obtain ⟨r, dx'', fl'', hrun, hr⟩ := run_ipOcsumDone (m := store m f bp) hl.wide
  apply leads_run hexit
  rw [hrun]
  simp [Amd64.exit, merge_quad, hbp, hret, -BitVec.toNat_setWidth]
  refine .here (sums_of_stands hl.wide rfl rfl ?_ rfl hpushed rfl (hr.trans hstands))
  intro r hr
  cases r <;> simp_all

end Amd64

section I386

theorem layout_i386 (jmptbl : Int) :
    Layout 32 (BitVec.ofInt 32 jmptbl) (andl ecx ecx) (I386.table jmptbl) (I386.text jmptbl) where
  wide := by decide
  begin32 := ⟨_, rfl⟩
  nextIter := rfl
  first := rfl
  only k hk := by interval_cases k <;> exact ⟨_, rfl⟩
  small k hk := Nat.lt_of_le_of_lt List.findIdx_le_length (by decide : 95 < 2 ^ 32)
  done k hk := by interval_cases k <;> rfl
  notaligned := ⟨_, rfl⟩
  lessThan32 := ⟨_, rfl⟩
  size := rfl
  sizeAligned := ⟨_, rfl⟩
  test v h := by
    simp [h, merge_word]
    rw [← BitVec.setWidth_eq v, ← h]
  table := by simp [I386.table, merge_word]

variable {jmptbl : Int} {o : State 32}

attribute [local simp] merge_word load_store_word load_store_slot load_store_base BitVec.add_assoc
  add_sub_assoc

theorem leads_i386 {address count sum : BitVec 32} (haddress : address = load 32 o.mem (o.regs.sp + 4#32))
    (hcount : count = load 32 o.mem (o.regs.sp + 8#32)) (hsum : sum = load 32 o.mem (o.regs.sp + 12#32))
    (h : Admits (I386.text jmptbl) o 16 (BitVec.ofInt 32 jmptbl) address count) :
    Leads (Steps (I386.text jmptbl)) ⟨labelAddr (I386.text jmptbl) .ipOcsum, o⟩
      (Sums o 16 [.bx, .bp, .si, .di] address count sum) := by
  obtain ⟨⟨ax, cx, dx, bx, sp, bp, si, di, hi⟩, fl, df, m⟩ := o
  obtain ⟨f, rfl⟩ : ∃ f, sp = f + 16#32 := ⟨sp - 16#32, (sub_add_cancel sp 16#32).symm⟩
  have hl := layout_i386 jmptbl
  have hat : At (I386.text jmptbl) (labelAddr (I386.text jmptbl) .ipOcsum) (I386.entry.take 11) := ⟨_, rfl⟩
  have hexit : At (I386.text jmptbl) (labelAddr (I386.text jmptbl) .ipOcsumDone) (ipOcsumDone ++ I386.exit) := ⟨_, rfl⟩
  have hframe : f + 16#32 - 16#32 = f := add_sub_cancel_right f 16#32
  generalize hm : store (store (store (store m (f + 12#32) bp) (f + 8#32) bx) (f + 4#32) si) f di = m'
  have hpushed : ChangedIn (f + 16#32 - 16#32) 16 m m' := by
    have hstore := ((((ChangedIn.refl f 16 m).store (v := bp) (c := 12#32) (by decide)).store (v := bx) (c := 8#32)
      (by decide)).store (v := si) (c := 4#32) (by decide)).store (v := di) (c := 0#32) (by decide)
    rw [BitVec.add_zero, hm] at hstore
    rwa [hframe]
  have htest : At (I386.text jmptbl) (labelAddr (I386.text jmptbl) .ipOcsum + 11) (I386.entry.drop 11) := ⟨_, rfl⟩
  have hstart : Leads (Steps (I386.text jmptbl)) ⟨labelAddr (I386.text jmptbl) .ipOcsum + 11,
      ⟨⟨0#32, count.setWidth 32, sum, bx, f, f + 12#32, address, di, hi⟩, (logical count).2, df, m'⟩⟩ _ :=
    leads_start hl (h.table_pushed hpushed) h.count_lt htest rfl
  rw [h.total_pushed hpushed, BitVec.setWidth_eq, BitVec.setWidth_eq] at hstart
  simp only [BitVec.add_assoc, BitVec.reduceAdd] at haddress hcount hsum
  have haddress' : load 32 m' (f + 20#32) = address := by simp [← hm, haddress]
  have hcount' : load 32 m' (f + 24#32) = count := by simp [← hm, hcount]
  have hsum' : load 32 m' (f + 28#32) = sum := by simp [← hm, hsum]
  have hdi : load 32 m' f = di := by simp [← hm]
  have hsi : load 32 m' (f + 4#32) = si := by simp [← hm]
  have hbx : load 32 m' (f + 8#32) = bx := by simp [← hm]
  have hbp : load 32 m' (f + 12#32) = bp := by simp [← hm]
  have hret : load 32 m' (f + 16#32) = load 32 m (f + 16#32) := by simp [← hm]
  apply leads_run hat
  simp [I386.entry, hm, haddress', hcount', hsum', -BitVec.toNat_setWidth]
  refine hstart.trans fun d hd => ?_
  obtain ⟨ax', cx', dx', si', di', fl', rfl, hstands⟩ := hd
  obtain ⟨r, dx'', fl'', hrun, hr⟩ := run_ipOcsumDone (m := m') hl.wide
  apply leads_run hexit
  rw [hrun]
  simp [I386.exit, hdi, hsi, hbx, hbp, hret, -BitVec.toNat_setWidth]
  refine .here (sums_of_stands hl.wide rfl (by simp) ?_ rfl hpushed rfl (hr.trans hstands))
  intro r hr
  cases r <;> simp_all

end I386

/-- `ip_ocsum` is the one's complement sum of the halfwords and the partial
sum. -/
theorem ip_ocsum_sums (jmptbl : Int) :
    (∀ (o : State 64) (count sum : BitVec 32), count = o.regs.si.setWidth 32 → sum = o.regs.dx.setWidth 32 →
      Admits (Amd64.text jmptbl) o 8 (BitVec.ofInt 64 jmptbl) o.regs.di count →
      Leads (Steps (Amd64.text jmptbl)) ⟨labelAddr (Amd64.text jmptbl) .ipOcsum, o⟩
        (Sums o 8 [.bx, .bp, .r12, .r13, .r14, .r15] o.regs.di count sum)) ∧
    ∀ (o : State 32) (address count sum : BitVec 32), address = load 32 o.mem (o.regs.sp + 4#32) →
      count = load 32 o.mem (o.regs.sp + 8#32) → sum = load 32 o.mem (o.regs.sp + 12#32) →
      Admits (I386.text jmptbl) o 16 (BitVec.ofInt 32 jmptbl) address count →
      Leads (Steps (I386.text jmptbl)) ⟨labelAddr (I386.text jmptbl) .ipOcsum, o⟩
        (Sums o 16 [.bx, .bp, .si, .di] address count sum) :=
  ⟨fun _ _ _ hcount hsum h => leads_amd64 hcount hsum h,
    fun _ _ _ _ haddress hcount hsum h => leads_i386 haddress hcount hsum h⟩

def tableOfOnes (w first : Nat) : Mem w := fun b =>
  if 0x1000 ≤ b.toNat ∧ b.toNat < 0x1000 + w / 8 * 16 then
    if b.toNat % (w / 8) = 0 then BitVec.ofNat 8 (first - 2 * ((b.toNat - 0x1000) / (w / 8))) else 0
  else 1

def threeHalfwords64 : State 64 :=
  ⟨⟨0, 0, 1, 0, 0x2000, 0, 3, 0x102, .zero⟩, undefinedFlags, false, tableOfOnes 64 45⟩

def threeHalfwords32 : State 32 :=
  ⟨⟨0, 0, 0, 0, 0x2000, 0, 0, 0, .zero⟩, undefinedFlags, false,
    store (store (store (tableOfOnes 32 49) 0x2004#32 0x102#32) 0x2008#32 3#32) 0x200c#32 1#32⟩

theorem ip_ocsum_sums_three :
    Leads (Steps (Amd64.text 0x1000)) ⟨labelAddr (Amd64.text 0x1000) .ipOcsum, threeHalfwords64⟩
      (fun c => (c.state.regs.ax.setWidth 32).toNat = 0x304) ∧
    Leads (Steps (I386.text 0x1000)) ⟨labelAddr (I386.text 0x1000) .ipOcsum, threeHalfwords32⟩
      (fun c => (c.state.regs.ax.setWidth 32).toNat = 0x304) := by
  have h64 : Admits (Amd64.text 0x1000) threeHalfwords64 8 0x1000#64 0x102#64 3#32 :=
    ⟨by decide, by unfold Table; decide +kernel, by unfold Outside; decide +kernel, by unfold Outside; decide +kernel⟩
  have h32 : Admits (I386.text 0x1000) threeHalfwords32 16 0x1000#32 0x102#32 3#32 :=
    ⟨by decide, by unfold Table; decide +kernel, by unfold Outside; decide +kernel, by unfold Outside; decide +kernel⟩
  have htotal64 : (1#32).toNat + total threeHalfwords64.mem 3 0x102#64 = 0x304 := by decide +kernel
  have htotal32 : (1#32).toNat + total threeHalfwords32.mem 3 0x102#32 = 0x304 := by decide +kernel
  constructor
  · refine ((ip_ocsum_sums 0x1000).1 threeHalfwords64 3#32 1#32 rfl rfl h64).mono fun c hc => ?_
    have hstands : Stands 0xffff _ ((1#32).toNat + total threeHalfwords64.mem 3 0x102#64) := ⟨hc.modEq, hc.zero⟩
    rw [htotal64] at hstands
    exact hstands.unique (Stands.refl _ _) hc.le (by decide)
  · refine ((ip_ocsum_sums 0x1000).2 threeHalfwords32 0x102#32 3#32 1#32 (by decide +kernel) (by decide +kernel)
      (by decide +kernel) h32).mono fun c hc => ?_
    have hstands : Stands 0xffff _ ((1#32).toNat + total threeHalfwords32.mem 3 0x102#32) := ⟨hc.modEq, hc.zero⟩
    rw [htotal32] at hstands
    exact hstands.unique (Stands.refl _ _) hc.le (by decide)

end SysvDev.Checksum.OcSum
