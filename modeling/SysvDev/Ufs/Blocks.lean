import Mathlib.Algebra.BigOperators.Intervals
import Mathlib.Algebra.BigOperators.Ring.Finset
import Mathlib.Tactic.Positivity
import SysvDev.Rounding
import SysvDev.Word

namespace SysvDev.Ufs.Blocks

open Rounding Word

structure Fs where
  bsize : BitVec 32
  fsize : BitVec 32
  frag : BitVec 32
  bmask : BitVec 32
  fmask : BitVec 32
  bshift : BitVec 32
  fshift : BitVec 32
  fragshift : BitVec 32

abbrev NDADDR : Nat := 12

section Macros

variable {w : Nat} (fs : Fs)

/-- `(int)(loc & ~mask)` -/
def offset (mask : BitVec 32) (loc : BitVec 64) : BitVec 32 := (loc &&& (~~~mask).signExtend 64).setWidth 32

def blkoff (loc : BitVec 64) : BitVec 32 := offset fs.bmask loc

def fragoff (loc : BitVec 64) : BitVec 32 := offset fs.fmask loc

/-- `(int32_t)(loc >> shift)`, where `loc` is an `offset_t` or a `u_offset_t` -/
def number (signed : Bool) (shift : BitVec 32) (loc : BitVec 64) : BitVec 32 :=
  (if signed then loc.sshiftRight shift.toNat else loc >>> shift.toNat).setWidth 32

def lblkno (signed : Bool) (loc : BitVec 64) : BitVec 32 := number signed fs.bshift loc

def numfrags (signed : Bool) (loc : BitVec 64) : BitVec 32 := number signed fs.fshift loc

/-- `(x + size - 1) & (offset_t)mask`, where `x` has 32 or 64 bits -/
def up (size mask : BitVec 32) (x : BitVec w) : BitVec 64 :=
  (x + size.signExtend w - 1#w).signExtend 64 &&& mask.signExtend 64

def blkroundup (size : BitVec w) : BitVec 64 := up fs.bsize fs.bmask size

def fragroundup (size : BitVec w) : BitVec 64 := up fs.fsize fs.fmask size

def fragnum (fsb : BitVec w) : BitVec w := fsb &&& (fs.frag - 1#32).signExtend w

def blknum (fsb : BitVec w) : BitVec w := fsb &&& (~~~(fs.frag - 1#32)).signExtend w

/-- The file size is unsigned, and `blkoff` is an `int`. -/
def blksize (iSize : BitVec 64) (lbn : BitVec 32) : BitVec 64 :=
  if (NDADDR : Int) ≤ lbn.toInt ∨ (lbn + 1#32).signExtend 64 <<< fs.bshift.toNat ≤ iSize then fs.bsize.signExtend 64
  else fragroundup fs (blkoff fs iSize)

/-- The same for the size in a `struct dinode`. -/
def dblksize (diSize : BitVec 64) (lbn : BitVec 32) : BitVec 64 := blksize fs diSize lbn

end Macros

structure Consistent (fs : Fs) : Prop where
  bsize : fs.bsize.toInt = 2 ^ fs.bshift.toNat
  fsize : fs.fsize.toInt = 2 ^ fs.fshift.toNat
  frag : fs.frag.toInt = fs.bsize.toInt / fs.fsize.toInt
  fragshift : fs.frag.toInt = 2 ^ fs.fragshift.toNat
  bmask : fs.bmask = -fs.bsize
  fmask : fs.fmask = -fs.fsize

section Powers

variable {w k : Nat} {n x : BitVec 32}

theorem toInt_of_lt {x : BitVec w} {m : Nat} (h : x.toNat = m) (hm : 2 * m < 2 ^ w) : x.toInt = m := by
  rw [BitVec.toInt_eq_toNat_of_lt (by omega), h]

theorem toNat_of_toInt (h : n.toInt = 2 ^ k) : n.toNat = 2 ^ k ∧ k ≤ 30 := by
  have hlt := BitVec.toInt_lt (x := n)
  have hcast : n.toInt = ((2 ^ k : Nat) : Int) := by
    rw [h]
    norm_cast
  have hpow : 2 ^ k < 2 ^ 31 := by omega
  have hk : k < 31 := (Nat.pow_lt_pow_iff_right (by decide)).mp hpow
  refine ⟨?_, Nat.le_of_lt_succ hk⟩
  rw [BitVec.toInt_eq_toNat_cond] at hcast
  split at hcast
  · exact Int.ofNat.inj hcast
  · have hlt := n.isLt
    generalize 2 ^ k = p at hcast
    omega

theorem toNat_low (h : n.toNat = 2 ^ k) (hk : k ≤ 30) (hw : 32 ≤ w) :
    ((n - 1#32).signExtend w).toNat = 2 ^ k - 1 := by
  have hpos : 0 < 2 ^ k := Nat.two_pow_pos k
  have hle : 2 ^ k ≤ 2 ^ 30 := Nat.pow_le_pow_right (by decide) hk
  have hsub : (n - 1#32).toNat = 2 ^ k - 1 := by
    rw [BitVec.toNat_sub_of_le (by rw [BitVec.le_def, h]; exact hpos), h]
    rfl
  rw [toNat_signExtend (by omega) hw, hsub]

theorem signExtend_neg : (-n).signExtend w = ~~~((n - 1#32).signExtend w) := by
  rw [neg_eq_not, BitVec.signExtend_not (by decide)]

end Powers

section Values

variable {w k : Nat} {n m shift : BitVec 32} {loc : BitVec 64}

theorem toNat_offset (hn : n.toNat = 2 ^ k) (hk : k ≤ 30) (hm : m = -n) :
    (offset m loc).toNat = loc.toNat % 2 ^ k := by
  have hlt : loc.toNat % 2 ^ k < 2 ^ 32 :=
    lt_of_lt_of_le (Nat.mod_lt _ (Nat.two_pow_pos k)) (Nat.pow_le_pow_right (by decide) (by omega))
  rw [offset, hm, BitVec.not_neg, BitVec.toNat_setWidth, toNat_and_low (toNat_low hn hk (by decide)), Nat.mod_eq_of_lt hlt]

theorem toNat_number (signed : Bool) (hloc : 2 * loc.toNat < 2 ^ 64) (hlt : loc.toNat / 2 ^ shift.toNat < 2 ^ 32) :
    (number signed shift loc).toNat = loc.toNat / 2 ^ shift.toNat := by
  have hsame : loc.sshiftRight shift.toNat = loc >>> shift.toNat :=
    BitVec.sshiftRight_eq_of_msb_false (BitVec.msb_eq_false_iff_two_mul_lt.mpr hloc)
  rw [number, hsame, ite_self, BitVec.toNat_setWidth, BitVec.toNat_ushiftRight, Nat.shiftRight_eq_div_pow,
    Nat.mod_eq_of_lt hlt]

theorem toNat_up (hn : n.toNat = 2 ^ k) (hk : k ≤ 30) (hm : m = -n) (hw : 32 ≤ w) (hw' : w ≤ 64) {x : BitVec w}
    (hx : 2 * (x.toNat + 2 ^ k) ≤ 2 ^ w) : (up n m x).toNat = roundup x.toNat (2 ^ k) := by
  have hpos : 0 < 2 ^ k := Nat.two_pow_pos k
  have hext : (n.signExtend w).toNat = 2 ^ k := by
    have hle : 2 ^ k ≤ 2 ^ 30 := Nat.pow_le_pow_right (by decide) hk
    rw [toNat_signExtend (by omega) hw, hn]
  have hadd : (x + n.signExtend w).toNat = x.toNat + 2 ^ k := by
    rw [BitVec.toNat_add_of_lt (by omega), hext]
  have hone : (1#w).toNat = 1 := by
    rw [BitVec.toNat_ofNat, Nat.one_mod_two_pow (by omega)]
  have hsum : (x + n.signExtend w - 1#w).toNat = x.toNat + (2 ^ k - 1) := by
    rw [BitVec.toNat_sub_of_le (by rw [BitVec.le_def, hone, hadd]; omega), hadd, hone]
    omega
  rw [up, hm, signExtend_neg, toNat_and_high (toNat_low hn hk (by decide)), toNat_signExtend (by omega) hw', hsum,
    ← roundup_eq_rounddown]

theorem toNat_fragnum {fs : Fs} (h : fs.frag.toNat = 2 ^ k) (hk : k ≤ 30) (hw : 32 ≤ w) (fsb : BitVec w) :
    (fragnum fs fsb).toNat = fsb.toNat % 2 ^ k := by
  rw [fragnum, toNat_and_low (toNat_low h hk hw)]

theorem toNat_blknum {fs : Fs} (h : fs.frag.toNat = 2 ^ k) (hk : k ≤ 30) (hw : 32 ≤ w) (fsb : BitVec w) :
    (blknum fs fsb).toNat = rounddown fsb.toNat (2 ^ k) := by
  rw [blknum, BitVec.signExtend_not (by decide), toNat_and_high (toNat_low h hk hw)]

end Values

section Sizes

variable {size B F q r : Nat}

def blocks (size B : Nat) : Finset Nat := (Finset.range size).filter fun lbn => lbn * B < size

theorem mem_blocks (hB : 0 < B) {lbn : Nat} : lbn ∈ blocks size B ↔ lbn * B < size := by
  rw [blocks, Finset.mem_filter, Finset.mem_range, and_iff_right_iff_imp]
  exact fun h => lt_of_le_of_lt (Nat.le_mul_of_pos_right lbn hB) h

theorem blocks_full (hB : 0 < B) : blocks (q * B) B = Finset.range q := by
  ext lbn
  rw [mem_blocks hB, Finset.mem_range, Nat.mul_lt_mul_right hB]

theorem blocks_rest (hr : 0 < r) (hrB : r ≤ B) : blocks (q * B + r) B = Finset.range (q + 1) := by
  have hB : 0 < B := hr.trans_le hrB
  ext lbn
  rw [mem_blocks hB, Finset.mem_range]
  constructor
  · intro hlt
    have hle : lbn * B < (q + 1) * B := by
      rw [Nat.add_mul, Nat.one_mul]
      omega
    exact (Nat.mul_lt_mul_right hB).mp hle
  · intro hlt
    have hle : lbn * B ≤ q * B := Nat.mul_le_mul_right B (Nat.le_of_lt_succ hlt)
    omega

def blockSize (size B F lbn : Nat) : Nat :=
  if NDADDR ≤ lbn ∨ (lbn + 1) * B ≤ size then B else roundup (size % B) F

theorem sum_full (h : q * B ≤ size) : ∑ lbn ∈ Finset.range q, blockSize size B F lbn = q * B := by
  have hfull : ∀ lbn ∈ Finset.range q, blockSize size B F lbn = B := by
    intro lbn hlbn
    have hle : (lbn + 1) * B ≤ q * B := Nat.mul_le_mul_right B (Finset.mem_range.mp hlbn)
    exact if_pos (.inr (hle.trans h))
  rw [Finset.sum_const_nat hfull, Finset.card_range]

theorem blockSize_last (hrB : r < B) : blockSize (q * B + r) B F q = if NDADDR ≤ q then B else roundup r F := by
  have hmod : (q * B + r) % B = r := by
    rw [Nat.mul_comm, Nat.mul_add_mod, Nat.mod_eq_of_lt hrB]
  have hover : ¬ (q + 1) * B ≤ q * B + r := by
    rw [Nat.add_mul, Nat.one_mul]
    omega
  rw [blockSize, hmod]
  simp only [hover, or_false]

theorem roundup_dvd (hF : 0 < F) (hdvd : F ∣ B) (r : Nat) : roundup (q * B + r) F = q * B + roundup r F := by
  obtain ⟨c, rfl⟩ := hdvd
  rw [show q * (F * c) = q * c * F by ring, roundup_mul_add hF]

theorem sum_blockSize (hF : 0 < F) (hB : 0 < B) (hdvd : F ∣ B) (size : Nat) :
    ∑ lbn ∈ blocks size B, blockSize size B F lbn = if size ≤ NDADDR * B then roundup size F else roundup size B := by
  obtain ⟨q, r, hrB, rfl⟩ : ∃ q r, r < B ∧ size = q * B + r :=
    ⟨size / B, size % B, Nat.mod_lt size hB, (Nat.div_add_mod' size B).symm⟩
  rw [roundup_dvd hF hdvd, roundup_mul_add hB]
  rcases Nat.eq_zero_or_pos r with rfl | hr
  · have hzero (n : Nat) (hn : 0 < n) : roundup 0 n = 0 := by
      simpa using roundup_mul hn 0
    rw [hzero F hF, hzero B hB, ite_self, Nat.add_zero, blocks_full hB, sum_full le_rfl]
  · have hiff : q * B + r ≤ NDADDR * B ↔ ¬ NDADDR ≤ q := by
      rw [Nat.not_le]
      constructor
      · intro hle
        exact (Nat.mul_lt_mul_right hB).mp (by omega)
      · intro hlt
        have hle : (q + 1) * B ≤ NDADDR * B := Nat.mul_le_mul_right B hlt
        rw [Nat.add_mul, Nat.one_mul] at hle
        omega
    rw [blocks_rest hr hrB.le, Finset.sum_range_succ, sum_full (Nat.le_add_right _ _), blockSize_last hrB,
      roundup_of_pos_of_le hr hrB.le]
    by_cases hq : NDADDR ≤ q
    · rw [if_pos hq, if_neg (by rw [hiff]; exact not_not.mpr hq)]
    · rw [if_neg hq, if_pos (hiff.mpr hq)]

end Sizes

section Superblock

variable {fs : Fs} {size : BitVec 64}

theorem Consistent.toNat_bsize (h : Consistent fs) : fs.bsize.toNat = 2 ^ fs.bshift.toNat ∧ fs.bshift.toNat ≤ 30 :=
  toNat_of_toInt h.bsize

theorem Consistent.toNat_fsize (h : Consistent fs) : fs.fsize.toNat = 2 ^ fs.fshift.toNat ∧ fs.fshift.toNat ≤ 30 :=
  toNat_of_toInt h.fsize

theorem Consistent.toNat_frag (h : Consistent fs) :
    fs.frag.toNat = 2 ^ fs.fragshift.toNat ∧ fs.fragshift.toNat ≤ 30 :=
  toNat_of_toInt h.fragshift

/-- A fragment is not larger than a block, since there is one in a block. -/
theorem Consistent.fshift_le (h : Consistent fs) : fs.fshift.toNat ≤ fs.bshift.toNat := by
  by_contra hlt
  have hsmall : (2 : Int) ^ fs.bshift.toNat < 2 ^ fs.fshift.toNat := by
    exact_mod_cast Nat.pow_lt_pow_right (by decide : 1 < 2) (Nat.not_le.mp hlt)
  have hzero : fs.frag.toInt = 0 := by
    rw [h.frag, h.bsize, h.fsize, Int.ediv_eq_zero_of_lt (by positivity) hsmall]
  have hpos : (0 : Int) < 2 ^ fs.fragshift.toNat := by positivity
  rw [← h.fragshift, hzero] at hpos
  exact lt_irrefl _ hpos

structure Fits (fs : Fs) (size : BitVec 64) : Prop where
  nonneg : 0 ≤ size.toInt
  frags : size.toInt / fs.fsize.toInt < 2 ^ 31 - fs.frag.toInt

theorem Fits.toInt_size (hs : Fits fs size) : size.toInt = size.toNat :=
  BitVec.toInt_eq_toNat_of_lt (BitVec.toInt_pos_iff.mp hs.nonneg)

theorem Fits.frags_lt (hs : Fits fs size) (h : Consistent fs) : size.toNat / 2 ^ fs.fshift.toNat + 1 < 2 ^ 31 := by
  have hfrags := hs.frags
  have hone : (0 : Int) < 2 ^ fs.fragshift.toNat := by positivity
  rw [h.fsize, h.fragshift, hs.toInt_size] at hfrags
  have hcast : ((size.toNat / 2 ^ fs.fshift.toNat : Nat) : Int) < 2 ^ 31 - 2 ^ fs.fragshift.toNat := by
    push_cast
    exact hfrags
  omega

theorem Fits.blocks_lt (hs : Fits fs size) (h : Consistent fs) : size.toNat / 2 ^ fs.bshift.toNat + 1 < 2 ^ 31 := by
  have hle : size.toNat / 2 ^ fs.bshift.toNat ≤ size.toNat / 2 ^ fs.fshift.toNat :=
    Nat.div_le_div_left (Nat.pow_le_pow_right (by decide) h.fshift_le) (Nat.two_pow_pos _)
  have hlt := hs.frags_lt h
  omega

theorem Fits.size_lt (hs : Fits fs size) (h : Consistent fs) : size.toNat < 2 ^ 61 := by
  have hpow : 2 ^ fs.fshift.toNat ≤ 2 ^ 30 := Nat.pow_le_pow_right (by decide) h.toNat_fsize.2
  calc size.toNat < (size.toNat / 2 ^ fs.fshift.toNat + 1) * 2 ^ fs.fshift.toNat :=
        Nat.lt_mul_of_div_lt (Nat.lt_succ_self _) (Nat.two_pow_pos _)
    _ ≤ 2 ^ 31 * 2 ^ 30 := Nat.mul_le_mul (hs.frags_lt h).le hpow
    _ = 2 ^ 61 := by norm_num

theorem toNat_blksize (h : Consistent fs) {lbn : Nat} (hlbn : lbn + 1 < 2 ^ 31) :
    (blksize fs size (BitVec.ofNat 32 lbn)).toNat =
      blockSize size.toNat (2 ^ fs.bshift.toNat) (2 ^ fs.fshift.toNat) lbn := by
  obtain ⟨hb, hb30⟩ := h.toNat_bsize
  obtain ⟨hf, hf30⟩ := h.toNat_fsize
  have hbpow : 2 ^ fs.bshift.toNat ≤ 2 ^ 30 := Nat.pow_le_pow_right (by decide) hb30
  have hfpow : 2 ^ fs.fshift.toNat ≤ 2 ^ 30 := Nat.pow_le_pow_right (by decide) hf30
  have hindex : (BitVec.ofNat 32 lbn).toInt = lbn := toInt_of_lt (Nat.mod_eq_of_lt (by omega)) (by omega)
  have hend : ((BitVec.ofNat 32 lbn + 1#32).signExtend 64 <<< fs.bshift.toNat).toNat =
      (lbn + 1) * 2 ^ fs.bshift.toNat := by
    have hnat : (BitVec.ofNat 32 (lbn + 1)).toNat = lbn + 1 := Nat.mod_eq_of_lt (by omega)
    have hlt : (lbn + 1) * 2 ^ fs.bshift.toNat < 2 ^ 64 :=
      lt_of_le_of_lt (Nat.mul_le_mul hlbn.le hbpow) (by decide)
    rw [← BitVec.ofNat_add, BitVec.toNat_shiftLeft, toNat_signExtend (by omega) (by decide), hnat, Nat.shiftLeft_eq,
      Nat.mod_eq_of_lt hlt]
  have hfull : (fs.bsize.signExtend 64).toNat = 2 ^ fs.bshift.toNat := by
    rw [toNat_signExtend (by omega) (by decide), hb]
  have hrest : (fragroundup fs (blkoff fs size)).toNat =
      roundup (size.toNat % 2 ^ fs.bshift.toNat) (2 ^ fs.fshift.toNat) := by
    have hoff : (blkoff fs size).toNat = size.toNat % 2 ^ fs.bshift.toNat := toNat_offset hb hb30 h.bmask
    have hlt := Nat.mod_lt size.toNat (Nat.two_pow_pos fs.bshift.toNat)
    rw [fragroundup, toNat_up hf hf30 h.fmask (by decide) (by decide) (by omega), hoff]
  simp only [blksize, blockSize, BitVec.le_def, hend, hindex, Int.ofNat_le]
  split
  · exact hfull
  · exact hrest

theorem toInt_offset {n m : BitVec 32} {k : Nat} (hn : n.toNat = 2 ^ k ∧ k ≤ 30) (hm : m = -n) :
    (offset m size).toInt = (size.toNat % n.toNat : Nat) := by
  have hlt := Nat.mod_lt size.toNat (Nat.two_pow_pos k)
  have hle : 2 ^ k ≤ 2 ^ 30 := Nat.pow_le_pow_right (by decide) hn.2
  rw [hn.1]
  exact toInt_of_lt (toNat_offset hn.1 hn.2 hm) (by omega)

theorem toInt_number (hs : Fits fs size) (signed : Bool) {shift : BitVec 32}
    (hlt : size.toNat / 2 ^ shift.toNat + 1 < 2 ^ 31) :
    (number signed shift size).toInt = (size.toNat / 2 ^ shift.toNat : Nat) :=
  toInt_of_lt (toNat_number signed (BitVec.toInt_pos_iff.mp hs.nonneg) (by omega)) (by omega)

theorem toInt_up {n m : BitVec 32} {k : Nat} (hn : n.toNat = 2 ^ k ∧ k ≤ 30) (hm : m = -n) (hlt : size.toNat < 2 ^ 61) :
    (up n m size).toInt = roundup size.toNat n.toNat := by
  have hle : 2 ^ k ≤ 2 ^ 30 := Nat.pow_le_pow_right (by decide) hn.2
  have hround := roundup_lt (x := size.toNat) (Nat.two_pow_pos k)
  rw [hn.1]
  exact toInt_of_lt (toNat_up hn.1 hn.2 hm (by decide) (by decide) (by omega)) (by omega)

theorem toInt_fragnum (h : Consistent fs) {w : Nat} (hw : 32 ≤ w) {fsb : BitVec w} (hfsb : 0 ≤ fsb.toInt) :
    (fragnum fs fsb).toInt = (fsb.toNat % fs.frag.toNat : Nat) ∧
      (blknum fs fsb).toInt = rounddown fsb.toNat fs.frag.toNat := by
  obtain ⟨hg, hg30⟩ := h.toNat_frag
  have hlt := BitVec.toInt_pos_iff.mp hfsb
  have hmod := Nat.mod_le fsb.toNat (2 ^ fs.fragshift.toNat)
  have hdown := rounddown_le (x := fsb.toNat) (n := 2 ^ fs.fragshift.toNat)
  rw [hg]
  exact ⟨toInt_of_lt (toNat_fragnum hg hg30 hw fsb) (by omega), toInt_of_lt (toNat_blknum hg hg30 hw fsb) (by omega)⟩

theorem toInt_blksize (h : Consistent fs) (hs : Fits fs size) {lbn : Nat}
    (hlbn : lbn ∈ blocks size.toNat (2 ^ fs.bshift.toNat)) :
    (blksize fs size (BitVec.ofNat 32 lbn)).toInt =
      blockSize size.toNat (2 ^ fs.bshift.toNat) (2 ^ fs.fshift.toNat) lbn := by
  have hpos := Nat.two_pow_pos fs.bshift.toNat
  have hle : lbn ≤ size.toNat / 2 ^ fs.bshift.toNat :=
    (Nat.le_div_iff_mul_le hpos).mpr ((mem_blocks hpos).mp hlbn).le
  have hblocks := hs.blocks_lt h
  have hbpow : 2 ^ fs.bshift.toNat ≤ 2 ^ 30 := Nat.pow_le_pow_right (by decide) h.toNat_bsize.2
  have hfpow : 2 ^ fs.fshift.toNat ≤ 2 ^ 30 := Nat.pow_le_pow_right (by decide) h.toNat_fsize.2
  have hsmall : blockSize size.toNat (2 ^ fs.bshift.toNat) (2 ^ fs.fshift.toNat) lbn < 2 ^ 31 := by
    have hmod := Nat.mod_lt size.toNat hpos
    have hround := roundup_lt (x := size.toNat % 2 ^ fs.bshift.toNat) (Nat.two_pow_pos fs.fshift.toNat)
    rw [blockSize]
    split <;> omega
  exact toInt_of_lt (toNat_blksize h (by omega)) (by omega)

/-- The macros are what their comments say, and the blocks of a file add up to
its size, rounded. -/
theorem ufs_block_arithmetic (h : Consistent fs) (hs : Fits fs size) (signed : Bool) :
    (blkoff fs size).toInt = (size.toNat % fs.bsize.toNat : Nat) ∧
    (fragoff fs size).toInt = (size.toNat % fs.fsize.toNat : Nat) ∧
    (lblkno fs signed size).toInt = (size.toNat / fs.bsize.toNat : Nat) ∧
    (numfrags fs signed size).toInt = (size.toNat / fs.fsize.toNat : Nat) ∧
    (blkroundup fs size).toInt = roundup size.toNat fs.bsize.toNat ∧
    (fragroundup fs size).toInt = roundup size.toNat fs.fsize.toNat ∧
    (∀ fsb : BitVec 32, 0 ≤ fsb.toInt → (fragnum fs fsb).toInt = (fsb.toNat % fs.frag.toNat : Nat) ∧
      (blknum fs fsb).toInt = rounddown fsb.toNat fs.frag.toNat) ∧
    (∀ fsb : BitVec 64, 0 ≤ fsb.toInt → (fragnum fs fsb).toInt = (fsb.toNat % fs.frag.toNat : Nat) ∧
      (blknum fs fsb).toInt = rounddown fsb.toNat fs.frag.toNat) ∧
    ∑ lbn ∈ blocks size.toNat fs.bsize.toNat, (blksize fs size (BitVec.ofNat 32 lbn)).toInt =
      if size.toNat ≤ NDADDR * fs.bsize.toNat then (fragroundup fs size).toInt else (blkroundup fs size).toInt := by
  have hb := h.toNat_bsize
  have hf := h.toNat_fsize
  have hblk : (blkroundup fs size).toInt = roundup size.toNat fs.bsize.toNat := toInt_up hb h.bmask (hs.size_lt h)
  have hfrag : (fragroundup fs size).toInt = roundup size.toNat fs.fsize.toNat := toInt_up hf h.fmask (hs.size_lt h)
  refine ⟨toInt_offset hb h.bmask, toInt_offset hf h.fmask, ?_, ?_, hblk, hfrag, fun fsb => toInt_fragnum h (by decide),
    fun fsb => toInt_fragnum h (by decide), ?_⟩
  · rw [hb.1]
    exact toInt_number hs signed (hs.blocks_lt h)
  · rw [hf.1]
    exact toInt_number hs signed (hs.frags_lt h)
  · have hdvd : 2 ^ fs.fshift.toNat ∣ 2 ^ fs.bshift.toNat := Nat.pow_dvd_pow 2 h.fshift_le
    have hsum := sum_blockSize (Nat.two_pow_pos _) (Nat.two_pow_pos _) hdvd size.toNat
    rw [hblk, hfrag, hb.1, hf.1, Finset.sum_congr rfl fun lbn hlbn => toInt_blksize h hs hlbn, ← Nat.cast_sum, hsum]
    split <;> rfl

end Superblock

section Sample

def sample : Fs := ⟨8192#32, 1024#32, 8#32, -8192#32, -1024#32, 13#32, 10#32, 3#32⟩

theorem consistent_sample : Consistent sample where
  bsize := by decide
  fsize := by decide
  frag := by decide
  fragshift := by decide
  bmask := rfl
  fmask := rfl

/-- A file of 10000 bytes has a full block and a block of two fragments. -/
theorem ufs_block_arithmetic_file :
    (blkoff sample 10000#64).toInt = 1808 ∧
    ∑ lbn ∈ blocks 10000 8192, (blksize sample 10000#64 (BitVec.ofNat 32 lbn)).toInt = 10240 := by
  have hfits : Fits sample 10000#64 := ⟨by decide, by decide⟩
  obtain ⟨hoff, -, -, -, -, hfrag, -, -, hsum⟩ := ufs_block_arithmetic consistent_sample hfits true
  refine ⟨hoff, hsum.trans ?_⟩
  rw [if_pos (by decide), hfrag]
  decide

end Sample

end SysvDev.Ufs.Blocks
