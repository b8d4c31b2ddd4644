import Mathlib.Tactic.NormNum.Prime
import SysvDev.Crc32.Table

namespace SysvDev.Crc32.Errors

open Function ShiftRegister Table

variable {start : BitVec 32} {buf buf' : List (BitVec 8)} {i j : Nat}

def Differ (buf buf' : List (BitVec 8)) (j : Nat) : Prop := (bits buf)[j]? ≠ (bits buf')[j]?

def difference (buf buf' : List (BitVec 8)) : List Bool := List.zipWith xor (bits buf) (bits buf')

theorem bits_cons (c : BitVec 8) : bits (c :: buf) = byteBits c ++ bits buf := List.flatMap_cons

theorem length_bits : (bits buf).length = 8 * buf.length := by
  induction buf with
  | nil => rfl
  | cons c buf ih =>
      rw [bits_cons, List.length_append, length_byteBits, ih, List.length_cons]
      omega

theorem byteBits_injective : Injective byteBits := by
  intro c c' h
  have hpack : c.setWidth 32 = c'.setWidth 32 := by rw [← pack_byteBits, h, pack_byteBits]
  have hback := congrArg (BitVec.setWidth 8) hpack
  rwa [BitVec.setWidth_setWidth_of_le c (by decide), BitVec.setWidth_setWidth_of_le c' (by decide),
    BitVec.setWidth_eq, BitVec.setWidth_eq] at hback

theorem bits_injective : Injective bits := by
  intro buf buf' h
  have hlen : buf.length = buf'.length := by
    have hbits := congrArg List.length h
    rw [length_bits, length_bits] at hbits
    omega
  induction buf generalizing buf' with
  | nil => exact (List.eq_nil_of_length_eq_zero hlen.symm).symm
  | cons c buf ih =>
      obtain ⟨c', buf', rfl⟩ := List.exists_cons_of_length_eq_add_one hlen.symm
      rw [bits_cons, bits_cons] at h
      obtain ⟨hbyte, hrest⟩ := List.append_inj h (by rw [length_byteBits, length_byteBits])
      rw [byteBits_injective hbyte, ih hrest (Nat.succ.inj hlen)]

theorem length_difference (hlen : buf.length = buf'.length) : (difference buf buf').length = 8 * buf.length := by
  rw [difference, List.length_zipWith, length_bits, length_bits, hlen, Nat.min_self]

theorem getElem?_difference (hlen : buf.length = buf'.length) :
    (difference buf buf')[j]? = some true ↔ Differ buf buf' j := by
  have hsame : (bits buf).length = (bits buf').length := by rw [length_bits, length_bits, hlen]
  rw [difference, Differ, List.getElem?_zipWith]
  by_cases hj : j < (bits buf).length
  · rw [List.getElem?_eq_getElem hj, List.getElem?_eq_getElem (hsame ▸ hj)]
    simp
  · rw [List.getElem?_eq_none (Nat.le_of_not_lt hj), List.getElem?_eq_none (hsame ▸ Nat.le_of_not_lt hj)]
    simp

theorem exists_differ (hne : buf ≠ buf') : ∃ j, Differ buf buf' j := by
  by_contra hall
  apply hne
  apply bits_injective
  apply List.ext_getElem?
  intro j
  by_contra hj
  exact hall ⟨j, hj⟩

/-- The two CRCs differ by what the register makes of the bits that differ. -/
theorem crc32_xor (hlen : buf.length = buf'.length) :
    crc32 buf start (crc32Init crc32Poly) ^^^ crc32 buf' start (crc32Init crc32Poly) =
      feeds crc32Poly 0#32 (difference buf buf') := by
  rw [crc32_eq_bitwise, crc32_eq_bitwise, bitwise_eq_feeds, bitwise_eq_feeds, ← feeds_xor, BitVec.xor_self]
  · rfl
  · rw [length_bits, length_bits, hlen]

theorem crc32_ne_of_feeds (hlen : buf.length = buf'.length)
    (h : feeds crc32Poly 0#32 (difference buf buf') ≠ 0#32) :
    crc32 buf start (crc32Init crc32Poly) ≠ crc32 buf' start (crc32Init crc32Poly) := by
  intro heq
  rw [← crc32_xor hlen, heq, BitVec.xor_self] at h
  exact h rfl

theorem eq_replicate_false {l : List Bool} (h : true ∉ l) : l = List.replicate l.length false := by
  rw [List.eq_replicate_iff]
  refine ⟨rfl, ?_⟩
  intro b hb
  cases b with
  | true => exact absurd hb h
  | false => rfl

/-- A burst is detected: buffers that differ only within 32 bits on end do not
have the same CRC. -/
theorem crc32_burst (hlen : buf.length = buf'.length) (hne : buf ≠ buf')
    (hwindow : ∀ j, Differ buf buf' j → i ≤ j ∧ j < i + 32) :
    crc32 buf start (crc32Init crc32Poly) ≠ crc32 buf' start (crc32Init crc32Poly) := by
  apply crc32_ne_of_feeds hlen
  have hinside (j : Nat) (hj : (difference buf buf')[j]? = some true) : i ≤ j ∧ j < i + 32 :=
    hwindow j ((getElem?_difference hlen).mp hj)
  generalize hd : difference buf buf' = d at hinside ⊢
  have hbefore : true ∉ d.take i := by
    intro hmem
    obtain ⟨j, hj⟩ := List.getElem?_of_mem hmem
    rw [List.getElem?_take] at hj
    split at hj
    · have hout := (hinside j hj).1
      omega
    · cases hj
  have hafter : true ∉ d.drop (i + 32) := by
    intro hmem
    obtain ⟨j, hj⟩ := List.getElem?_of_mem hmem
    rw [List.getElem?_drop] at hj
    have hout := (hinside _ hj).2
    omega
  have htrue : true ∈ (d.drop i).take 32 := by
    obtain ⟨j, hj⟩ := exists_differ hne
    rw [← getElem?_difference hlen, hd] at hj
    obtain ⟨hle, hlt⟩ := hinside j hj
    apply List.mem_of_getElem? (i := j - i)
    rw [List.getElem?_take_of_lt (by omega), List.getElem?_drop, Nat.add_sub_cancel' hle, hj]
  have hsplit : d = d.take i ++ (d.drop i).take 32 ++ d.drop (i + 32) := by
    rw [List.append_assoc, ← List.drop_drop, List.take_append_drop, List.take_append_drop]
  rw [hsplit, eq_replicate_false hbefore, eq_replicate_false hafter]
  exact feeds_burst (by decide) _ _ (List.length_take_le _ _) htrue

/-- Two buffers of one byte that differ in all bits. -/
theorem crc32_burst_byte :
    crc32 [0x00] 0#32 (crc32Init crc32Poly) ≠ crc32 [0xFF] 0#32 (crc32Init crc32Poly) := by
  refine crc32_burst (i := 0) rfl (by decide) ?_
  have hlen : [0x00#8].length = [0xFF#8].length := rfl
  intro j hj
  obtain ⟨hlt, -⟩ := List.getElem?_eq_some_iff.mp ((getElem?_difference hlen).mpr hj)
  rw [length_difference hlen] at hlt
  exact ⟨Nat.zero_le j, Nat.lt_trans hlt (by decide)⟩

section Order

theorem eq_of_prime_dvd {q : Nat} (hq : q.Prime) (h : q ∣ 4294967295) :
    q = 3 ∨ q = 5 ∨ q = 17 ∨ q = 257 ∨ q = 65537 := by
  rw [show 4294967295 = 3 * 5 * 17 * 257 * 65537 from rfl, hq.dvd_mul, hq.dvd_mul, hq.dvd_mul, hq.dvd_mul] at h
  have hthree : Nat.Prime 3 := by norm_num
  have hfive : Nat.Prime 5 := by norm_num
  have hseventeen : Nat.Prime 17 := by norm_num
  have hmiddle : Nat.Prime 257 := by norm_num
  have hlarge : Nat.Prime 65537 := by norm_num
  rw [Nat.prime_dvd_prime_iff_eq hq hthree, Nat.prime_dvd_prime_iff_eq hq hfive,
    Nat.prime_dvd_prime_iff_eq hq hseventeen, Nat.prime_dvd_prime_iff_eq hq hmiddle,
    Nat.prime_dvd_prime_iff_eq hq hlarge] at h
  simpa only [or_assoc] using h

/-- The polynomial is primitive. -/
theorem iterate_crc32Poly_ne {k : Nat} (h0 : 0 < k) (hk : k < 4294967295) :
    (shift crc32Poly)^[k] (one 32) ≠ one 32 := by
  refine iterate_one_ne (N := 4294967295) ?_ ?_ h0 hk
  · rw [iterate_one_eq _ 32 (by decide)]
    decide +kernel
  · intro q hq hdvd
    rw [Ne, iterate_one_eq _ 32 (Nat.lt_of_le_of_lt (Nat.div_le_self _ _) (by decide))]
    obtain rfl | rfl | rfl | rfl | rfl := eq_of_prime_dvd hq hdvd
    all_goals decide +kernel

theorem iterate_crc32Poly_bit_ne {k : Nat} (h0 : 0 < k) (hk : k < 4294967295) :
    (shift crc32Poly)^[k] 1#32 ≠ 1#32 := by
  have hbit : (shift crc32Poly)^[31] (one 32) = 1#32 := by decide +kernel
  intro h
  rw [← hbit, ← iterate_add_apply, Nat.add_comm, iterate_add_apply] at h
  exact iterate_crc32Poly_ne h0 hk ((shift_injective (by decide)).iterate 31 h)

end Order

theorem eq_append_of_two {d : List Bool} (hij : i < j) (h : ∀ k, d[k]? = some true ↔ k = i ∨ k = j) :
    d = List.replicate i false ++ true :: List.replicate (j - i - 1) false ++
      true :: List.replicate (d.length - j - 1) false := by
  have hj : j < d.length := by
    by_contra hge
    have hnone := (h j).mpr (Or.inr rfl)
    rw [List.getElem?_eq_none (Nat.le_of_not_lt hge)] at hnone
    cases hnone
  apply List.ext_getElem
  · simp
    omega
  · intro k hk hk'
    have hget : d[k] = decide (k = i ∨ k = j) := by
      have hiff := h k
      rw [List.getElem?_eq_getElem hk, Option.some.injEq] at hiff
      rw [Bool.eq_iff_iff, hiff, decide_eq_true_eq]
    rw [hget]
    simp only [List.getElem_append, List.length_append, List.length_replicate, List.length_cons, List.getElem_cons,
      List.getElem_replicate]
    split_ifs
    all_goals simp
    all_goals omega

/-- Two bits are detected, in a buffer of less than 2²⁹ bytes. -/
theorem crc32_double (hlen : buf.length = buf'.length) (hlt : buf.length < 2 ^ 29) (hij : i ≠ j)
    (hdiffer : ∀ k, Differ buf buf' k ↔ k = i ∨ k = j) :
    crc32 buf start (crc32Init crc32Poly) ≠ crc32 buf' start (crc32Init crc32Poly) := by
  wlog hlow : i < j generalizing i j
  · apply this hij.symm
    · intro k
      rw [hdiffer, or_comm]
    · omega
  apply crc32_ne_of_feeds hlen
  have hplaces (k : Nat) : (difference buf buf')[k]? = some true ↔ k = i ∨ k = j := by
    rw [getElem?_difference hlen, hdiffer]
  have hbound : j < 8 * buf.length := by
    have hlast := List.getElem?_eq_some_iff.mp ((hplaces j).mpr (Or.inr rfl))
    rw [← length_difference hlen]
    exact hlast.1
  rw [eq_append_of_two hlow hplaces]
  apply feeds_two (by decide)
  apply iterate_crc32Poly_bit_ne <;> omega

/-- Two buffers of one byte that differ in the two lowest bits. -/
theorem crc32_double_byte :
    crc32 [0x00] 0#32 (crc32Init crc32Poly) ≠ crc32 [0x03] 0#32 (crc32Init crc32Poly) := by
  have hlen : [0x00#8].length = [0x03#8].length := rfl
  have hbits : difference [0x00#8] [0x03#8] = true :: true :: List.replicate 6 false := by decide
  have hdiffer (k : Nat) : Differ [0x00#8] [0x03#8] k ↔ k = 0 ∨ k = 1 := by
    rw [← getElem?_difference hlen, hbits]
    match k with
    | 0 => simp
    | 1 => simp
    | k + 2 =>
        rw [List.getElem?_cons_succ, List.getElem?_cons_succ, List.getElem?_replicate]
        split <;> simp
  exact crc32_double hlen (by decide) (by decide) hdiffer

end SysvDev.Crc32.Errors
