import Mathlib.Data.BitVec
import Mathlib.Data.Nat.Prime.Basic
import Mathlib.Dynamics.PeriodicPts.Defs
import Mathlib.Tactic.Ring

namespace SysvDev.ShiftRegister

open Function

variable {w : Nat} {p a b c d : BitVec w}

/-- A shift to the right that brings in `p` for a bit it shifts out. -/
def shift (p c : BitVec w) : BitVec w := if c.getLsbD 0 then (c >>> 1) ^^^ p else c >>> 1

theorem shift_of_even (h : c.getLsbD 0 = false) : shift p c = c >>> 1 := by
  rw [shift, h, if_neg Bool.false_ne_true]

theorem shift_zero : shift p 0#w = 0#w := by
  rw [shift_of_even (by simp), BitVec.zero_ushiftRight]

theorem xor_xor_cancel (a b p : BitVec w) : a ^^^ p ^^^ (b ^^^ p) = a ^^^ b := by
  rw [BitVec.xor_assoc, BitVec.xor_comm b p, ← BitVec.xor_assoc p, BitVec.xor_self, BitVec.zero_xor]

theorem shift_xor (a b : BitVec w) : shift p (a ^^^ b) = shift p a ^^^ shift p b := by
  simp only [shift, BitVec.getLsbD_xor, BitVec.ushiftRight_xor_distrib]
  cases a.getLsbD 0 <;> cases b.getLsbD 0
  · rfl
  · exact BitVec.xor_assoc _ _ _
  · simp only [Bool.xor_false, if_true, Bool.false_eq_true, if_false]
    rw [BitVec.xor_assoc, BitVec.xor_comm (b >>> 1), ← BitVec.xor_assoc]
  · exact (xor_xor_cancel _ _ _).symm

theorem iterate_xor (n : Nat) (a b : BitVec w) : (shift p)^[n] (a ^^^ b) = (shift p)^[n] a ^^^ (shift p)^[n] b := by
  induction n generalizing a b with
  | zero => rfl
  | succ n ih => rw [iterate_succ_apply, iterate_succ_apply, iterate_succ_apply, shift_xor, ih]

theorem iterate_zero_word (n : Nat) : (shift p)^[n] 0#w = 0#w := iterate_fixed shift_zero n

theorem xor_eq_zero : a ^^^ b = 0#w ↔ a = b := by
  constructor
  · intro h
    rw [← BitVec.xor_zero (x := a), ← BitVec.xor_self (x := b), ← BitVec.xor_assoc, h, BitVec.zero_xor]
  · rintro rfl
    exact BitVec.xor_self

/-- With the top bit in `p` no shift loses anything: the bit that comes in at
the top tells what went out. -/
theorem eq_zero_of_shift (hp : p.msb = true) (h : shift p c = 0#w) : c = 0#w := by
  cases hlow : c.getLsbD 0 with
  | true =>
      rw [shift, hlow, if_pos rfl, xor_eq_zero] at h
      rw [← h, BitVec.msb_ushiftRight] at hp
      exact absurd hp (by simp)
  | false =>
      rw [shift_of_even hlow] at h
      apply BitVec.eq_of_getLsbD_eq
      intro i hi
      cases i with
      | zero => rw [hlow, BitVec.getLsbD_zero]
      | succ i =>
          have hbit := congrArg (BitVec.getLsbD · i) h
          rw [BitVec.getLsbD_ushiftRight, BitVec.getLsbD_zero, Nat.add_comm] at hbit
          rw [hbit, BitVec.getLsbD_zero]

theorem shift_injective (hp : p.msb = true) : Injective (shift p) := by
  intro a b h
  rw [← xor_eq_zero, ← shift_xor] at h
  exact xor_eq_zero.mp (eq_zero_of_shift hp h)

theorem iterate_ne_zero (hp : p.msb = true) (n : Nat) (h : c ≠ 0#w) : (shift p)^[n] c ≠ 0#w := by
  intro hzero
  rw [← iterate_zero_word (p := p) n] at hzero
  exact h ((shift_injective hp).iterate n hzero)

theorem iterate_of_low_clear {k : Nat} (h : ∀ i < k, c.getLsbD i = false) : (shift p)^[k] c = c >>> k := by
  induction k with
  | zero => rw [iterate_zero, id, BitVec.ushiftRight_zero]
  | succ k ih =>
      have hlow : (c >>> k).getLsbD 0 = false := by
        rw [BitVec.getLsbD_ushiftRight]
        exact h k (Nat.lt_succ_self k)
      rw [iterate_succ_apply', ih fun i hi => h i (Nat.lt_succ_of_lt hi), shift_of_even hlow,
        BitVec.shiftRight_add]

section Feed

def unit (w : Nat) (b : Bool) : BitVec w := if b then 1#w else 0#w

def feed (p c : BitVec w) (b : Bool) : BitVec w := shift p (c ^^^ unit w b)

def feeds (p c : BitVec w) (bits : List Bool) : BitVec w := bits.foldl (feed p) c

variable {bits bits' : List Bool}

theorem feeds_cons (bit : Bool) : feeds p c (bit :: bits) = feeds p (feed p c bit) bits := rfl

theorem feeds_append : feeds p c (bits ++ bits') = feeds p (feeds p c bits) bits' := List.foldl_append

theorem unit_xor (b b' : Bool) : unit w (b ^^ b') = unit w b ^^^ unit w b' := by
  cases b <;> cases b' <;> simp [unit]

theorem feed_xor (b b' : Bool) : feed p (c ^^^ d) (b ^^ b') = feed p c b ^^^ feed p d b' := by
  rw [feed, feed, feed, ← shift_xor, unit_xor]
  congr 1
  ac_rfl

theorem feeds_xor (h : bits.length = bits'.length) :
    feeds p (c ^^^ d) (List.zipWith xor bits bits') = feeds p c bits ^^^ feeds p d bits' := by
  induction bits generalizing bits' c d with
  | nil =>
      obtain rfl := List.eq_nil_of_length_eq_zero h.symm
      rfl
  | cons bit bits ih =>
      obtain ⟨bit', bits', rfl⟩ := List.exists_cons_of_length_eq_add_one h.symm
      rw [List.zipWith_cons_cons, feeds_cons, feeds_cons, feeds_cons, feed_xor]
      exact ih (Nat.succ.inj h)

theorem feeds_replicate_false (n : Nat) (c : BitVec w) : feeds p c (List.replicate n false) = (shift p)^[n] c := by
  induction n generalizing c with
  | zero => rfl
  | succ n ih =>
      have hfeed : feed p c false = shift p c := by rw [feed, unit, if_neg Bool.false_ne_true, BitVec.xor_zero]
      rw [List.replicate_succ, feeds_cons, ih, iterate_succ_apply, hfeed]

/-- The bits as one word, the first one in the lowest place. -/
def pack (w : Nat) : List Bool → BitVec w
  | [] => 0#w
  | bit :: bits => unit w bit ^^^ (pack w bits <<< 1)

theorem getLsbD_pack (bits : List Bool) (i : Nat) :
    (pack w bits).getLsbD i = (decide (i < w) && bits[i]?.getD false) := by
  induction bits generalizing i with
  | nil => simp [pack]
  | cons bit bits ih =>
      cases i with
      | zero => cases bit <;> simp [pack, unit]
      | succ i =>
          have hunit : (unit w bit).getLsbD (i + 1) = false := by cases bit <;> simp [unit]
          rw [pack, BitVec.getLsbD_xor, hunit, BitVec.getLsbD_shiftLeft]
          simp only [Bool.false_xor, Nat.add_sub_cancel, ih, List.getElem?_cons_succ]
          by_cases hi : i + 1 < w
          · simp [hi, Nat.lt_of_succ_lt hi]
          · simp [hi]

theorem shift_pack (h : bits.length < w) : shift p (pack w bits <<< 1) = pack w bits := by
  rw [shift_of_even (by simp)]
  apply BitVec.eq_of_getLsbD_eq
  intro i hi
  rw [BitVec.getLsbD_ushiftRight, BitVec.getLsbD_shiftLeft, getLsbD_pack, getLsbD_pack]
  by_cases hi' : 1 + i < w
  · simp [hi, hi']
  · have hlast : bits[i]? = none := List.getElem?_eq_none (by omega)
    simp [hi', hlast]

/-- As many bits as there is room for may come in all at once, before the
shifts. -/
theorem feeds_eq_iterate (h : bits.length ≤ w) : feeds p c bits = (shift p)^[bits.length] (c ^^^ pack w bits) := by
  induction bits generalizing c with
  | nil => rw [pack, BitVec.xor_zero]; rfl
  | cons bit bits ih =>
      have hlt : bits.length < w := h
      rw [feeds_cons, ih hlt.le, List.length_cons, iterate_succ_apply, pack, ← BitVec.xor_assoc, shift_xor,
        shift_pack hlt, feed]

theorem pack_ne_zero (h : bits.length ≤ w) (htrue : true ∈ bits) : pack w bits ≠ 0#w := by
  intro hzero
  obtain ⟨i, hi, hbit⟩ := List.getElem_of_mem htrue
  have hget := getLsbD_pack (w := w) bits i
  rw [hzero, List.getElem?_eq_getElem hi, hbit, decide_eq_true (Nat.lt_of_lt_of_le hi h), BitVec.getLsbD_zero] at hget
  cases hget

theorem feeds_zero_replicate (n : Nat) : feeds p 0#w (List.replicate n false) = 0#w := by
  rw [feeds_replicate_false, iterate_zero_word]

theorem feeds_burst (hp : p.msb = true) (m n : Nat) (h : bits.length ≤ w) (htrue : true ∈ bits) :
    feeds p 0#w (List.replicate m false ++ bits ++ List.replicate n false) ≠ 0#w := by
  rw [feeds_append, feeds_append, feeds_zero_replicate, feeds_eq_iterate h, BitVec.zero_xor, feeds_replicate_false]
  exact iterate_ne_zero hp n (iterate_ne_zero hp _ (pack_ne_zero h htrue))

/-- Nor do two bits, unless their distance is a period of the shift. -/
theorem feeds_two (hp : p.msb = true) (k m n : Nat) (h : (shift p)^[m + 1] 1#w ≠ 1#w) :
    feeds p 0#w (List.replicate k false ++ true :: List.replicate m false ++ true :: List.replicate n false) ≠ 0#w := by
  have hunit : unit w true = 1#w := rfl
  rw [List.append_assoc, feeds_append, feeds_zero_replicate, List.cons_append, feeds_cons, feeds_append,
    feeds_replicate_false, feeds_cons, feeds_replicate_false, feed, feed, hunit, BitVec.zero_xor]
  apply iterate_ne_zero hp
  intro hzero
  exact h (xor_eq_zero.mp (eq_zero_of_shift hp hzero))

end Feed

section Order

/-! The words are polynomials over the field of two elements, with the
coefficient of 1 in the top place; the shift multiplies by the variable,
modulo the polynomial that `p` stands for. -/

def one (w : Nat) : BitVec w := BitVec.twoPow w (w - 1)

/-- The product, by the coefficients of `a` from the highest to the lowest. -/
def mul (p a b : BitVec w) : BitVec w :=
  (List.range w).foldl (fun acc i => shift p acc ^^^ if a.getLsbD i then b else 0#w) 0#w

theorem mul_shift : mul p a (shift p b) = shift p (mul p a b) := by
  have hstep (l : List Nat) (acc : BitVec w) :
      l.foldl (fun acc i => shift p acc ^^^ if a.getLsbD i then shift p b else 0#w) (shift p acc) =
        shift p (l.foldl (fun acc i => shift p acc ^^^ if a.getLsbD i then b else 0#w) acc) := by
    induction l generalizing acc with
    | nil => rfl
    | cons i l ih =>
        have hif : (if a.getLsbD i then shift p b else 0#w) = shift p (if a.getLsbD i then b else 0#w) := by
          split
          · rfl
          · exact shift_zero.symm
        rw [List.foldl_cons, List.foldl_cons, hif, ← shift_xor]
        exact ih _
  have hzero := hstep (List.range w) 0#w
  rwa [shift_zero] at hzero

theorem mul_iterate (n : Nat) : mul p a ((shift p)^[n] b) = (shift p)^[n] (mul p a b) := by
  induction n with
  | zero => rfl
  | succ n ih => rw [iterate_succ_apply', iterate_succ_apply', mul_shift, ih]

theorem mul_one : mul p a (one w) = a := by
  have hpart (k : Nat) (hk : k ≤ w) :
      (List.range k).foldl (fun acc i => shift p acc ^^^ if a.getLsbD i then one w else 0#w) 0#w = a <<< (w - k) := by
    induction k with
    | zero =>
        apply BitVec.eq_of_getLsbD_eq
        intro i hi
        simp [hi]
    | succ k ih =>
        have heven : (a <<< (w - k)).getLsbD 0 = false := by
          rw [BitVec.getLsbD_shiftLeft]
          simp [show 0 < w - k by omega]
        rw [List.range_succ, List.foldl_append, ih (Nat.le_of_succ_le hk), List.foldl_cons, List.foldl_nil,
          shift_of_even heven]
        apply BitVec.eq_of_getLsbD_eq
        intro i hi
        have hone : (if a.getLsbD k then one w else 0#w).getLsbD i = (decide (i = w - 1) && a.getLsbD k) := by
          cases a.getLsbD k <;> simp [one, hi]
        rw [BitVec.getLsbD_xor, hone, BitVec.getLsbD_ushiftRight, BitVec.getLsbD_shiftLeft, BitVec.getLsbD_shiftLeft]
        by_cases htop : i = w - 1
        · have hidx : i - (w - (k + 1)) = k := by omega
          have hge : ¬ 1 + i < w := by omega
          have hle : ¬ i < w - (k + 1) := by omega
          rw [decide_eq_true htop, decide_eq_false hge, decide_eq_true hi, decide_eq_false hle, hidx]
          simp
        · have hidx : 1 + i - (w - k) = i - (w - (k + 1)) := by omega
          have hlt : 1 + i < w := by omega
          by_cases hlow : i < w - (k + 1)
          · simp [htop, hlow, show 1 + i < w - k by omega]
          · simp [htop, hlow, hi, hlt, hidx, show ¬ 1 + i < w - k by omega]
  have hall := hpart w le_rfl
  rwa [Nat.sub_self, BitVec.shiftLeft_zero] at hall

theorem mul_powers (m n : Nat) :
    mul p ((shift p)^[m] (one w)) ((shift p)^[n] (one w)) = (shift p)^[n + m] (one w) := by
  rw [mul_iterate, mul_one, ← iterate_add_apply]

/-- If the shift comes back to 1 after `N` steps but not after `N / q`, for
any prime `q`, it does not come back before. -/
theorem iterate_one_ne {N : Nat} (hN : (shift p)^[N] (one w) = one w)
    (hq : ∀ q, q.Prime → q ∣ N → (shift p)^[N / q] (one w) ≠ one w) {k : Nat} (h0 : 0 < k) (hk : k < N) :
    (shift p)^[k] (one w) ≠ one w := by
  intro hperiod
  obtain ⟨r, hr⟩ : minimalPeriod (shift p) (one w) ∣ N := IsPeriodicPt.minimalPeriod_dvd hN
  have hle : minimalPeriod (shift p) (one w) ≤ k := IsPeriodicPt.minimalPeriod_le h0 hperiod
  have hne : r ≠ 1 := by
    rintro rfl
    omega
  obtain ⟨q, hprime, r', rfl⟩ := Nat.exists_prime_and_dvd hne
  have hfactor : N = q * (minimalPeriod (shift p) (one w) * r') := by
    rw [hr]
    ring
  apply hq q hprime (Dvd.intro _ hfactor.symm)
  rw [Nat.div_eq_of_eq_mul_right hprime.pos hfactor]
  exact (isPeriodicPt_minimalPeriod (shift p) (one w)).mul_const r'

end Order

section Numbers

/-! The same on numbers, with which the kernel computes faster. -/

def shiftNat (p c : Nat) : Nat := (c / 2) ^^^ (c % 2 * p)

theorem toNat_shift : (shift p c).toNat = shiftNat p.toNat c.toNat := by
  have hlow : c.toNat % 2 = (c.getLsbD 0).toNat := by
    rw [BitVec.getLsbD, Nat.toNat_testBit, Nat.pow_zero, Nat.div_one]
  rw [shift, shiftNat, hlow]
  cases c.getLsbD 0 <;> simp [Nat.shiftRight_eq_div_pow]

theorem toNat_iterate (n : Nat) : ((shift p)^[n] c).toNat = (shiftNat p.toNat)^[n] c.toNat := by
  induction n generalizing c with
  | zero => rfl
  | succ n ih => rw [iterate_succ_apply, iterate_succ_apply, ih, toNat_shift]

def mulNat (w p a b : Nat) : Nat :=
  (List.range w).foldl (fun acc i => shiftNat p acc ^^^ (a / 2 ^ i % 2 * b)) 0

theorem toNat_mul : (mul p a b).toNat = mulNat w p.toNat a.toNat b.toNat := by
  have hstep (l : List Nat) (acc : BitVec w) :
      (l.foldl (fun acc i => shift p acc ^^^ if a.getLsbD i then b else 0#w) acc).toNat =
        l.foldl (fun acc i => shiftNat p.toNat acc ^^^ (a.toNat / 2 ^ i % 2 * b.toNat)) acc.toNat := by
    induction l generalizing acc with
    | nil => rfl
    | cons i l ih =>
        have hif : (if a.getLsbD i then b else 0#w).toNat = a.toNat / 2 ^ i % 2 * b.toNat := by
          rw [← Nat.toNat_testBit, ← BitVec.getLsbD]
          cases a.getLsbD i <;> simp
        rw [List.foldl_cons, List.foldl_cons, ih, BitVec.toNat_xor, toNat_shift, hif]
  exact hstep _ _

/-- Evaluates `n` before it goes to `f`, which may use it more than once. -/
def strict (n : Nat) (f : Nat → Nat) : Nat :=
  match n with
  | 0 => f 0
  | k + 1 => f (k + 1)

theorem strict_eq (n : Nat) (f : Nat → Nat) : strict n f = f n := by cases n <;> rfl

/-- The power of the variable, by squaring, for the last `k` bits of the
exponent `n`. -/
def powerNat (w p n : Nat) : Nat → Nat → Nat
  | 0, acc => acc
  | k + 1, acc =>
      strict (mulNat w p acc acc) fun square => powerNat w p n k (if n.testBit k then shiftNat p square else square)

theorem powerNat_eq_iterate (n k : Nat) :
    powerNat w p.toNat n k ((shift p)^[n / 2 ^ k] (one w)).toNat = ((shift p)^[n] (one w)).toNat := by
  induction k with
  | zero => rw [powerNat, Nat.pow_zero, Nat.div_one]
  | succ k ih =>
      have hdouble : n / 2 ^ k = n / 2 ^ (k + 1) + n / 2 ^ (k + 1) + (n.testBit k).toNat := by
        rw [Nat.toNat_testBit, Nat.pow_succ, ← Nat.div_div_eq_div_mul]
        omega
      rw [powerNat, strict_eq, ← toNat_mul, mul_powers, ← ih, hdouble]
      cases n.testBit k with
      | true =>
          rw [if_pos rfl, ← toNat_shift, ← iterate_succ_apply' (shift p)]
          rfl
      | false => rfl

theorem iterate_one_eq (n k : Nat) (h : n < 2 ^ k) :
    (shift p)^[n] (one w) = one w ↔ powerNat w p.toNat n k (one w).toNat = (one w).toNat := by
  have hpower := powerNat_eq_iterate (p := p) n k
  rw [Nat.div_eq_of_lt h, iterate_zero, id] at hpower
  rw [hpower, BitVec.toNat_inj]

end Numbers

end SysvDev.ShiftRegister
