import SysvDev.Rounding
import SysvDev.Word

namespace SysvDev.Sysmacros.Devices

open Rounding Word

def O_BITSMINOR : Nat := 8

def O_MAXMAJ : Nat := 0x7f

def O_MAXMIN : Nat := 0xff

def L_BITSMINOR32 : Nat := 18

def L_MAXMAJ32 : Nat := 0x3fff

def L_MAXMIN32 : Nat := 0x3ffff

def L_BITSMINOR : Nat := 32

def L_MAXMAJ : Nat := 0xffffffff

def L_MAXMIN : Nat := 0xffffffff

/-- A `dev_t` is an `unsigned long`, a `dev32_t` a `uint32_t` and an `o_dev_t`
a `short`. -/
abbrev Dev := BitVec 64

abbrev Dev32 := BitVec 32

abbrev ODev := BitVec 16

def NODEV : Dev := BitVec.ofInt 64 (-1)

def NODEV32 : Dev32 := BitVec.ofInt 32 (-1)

def getmajor (x : Dev) : BitVec 32 := (x >>> L_BITSMINOR &&& BitVec.ofNat 64 L_MAXMAJ).setWidth 32

def getminor (x : Dev) : BitVec 32 := (x &&& BitVec.ofNat 64 L_MAXMIN).setWidth 32

def makedevice (x y : BitVec 64) : Dev := x <<< L_BITSMINOR ||| (y &&& BitVec.ofNat 64 L_MAXMIN)

def devcmpl (x : Dev) : Dev32 :=
  (if x >>> L_BITSMINOR > BitVec.ofNat 64 L_MAXMAJ32 ∨ x &&& BitVec.ofNat 64 L_MAXMIN > BitVec.ofNat 64 L_MAXMIN32 then
    NODEV32.setWidth 64
  else (x >>> L_BITSMINOR) <<< L_BITSMINOR32 ||| (x &&& BitVec.ofNat 64 L_MAXMIN32)).setWidth 32

def devexpl (x : Dev32) : Dev :=
  if x = NODEV32 then NODEV
  else makedevice ((x >>> L_BITSMINOR32 &&& BitVec.ofNat 32 L_MAXMAJ32).setWidth 64)
    ((x &&& BitVec.ofNat 32 L_MAXMIN32).setWidth 64)

def cmpdev (x : Dev) : ODev :=
  (if x >>> L_BITSMINOR > BitVec.ofNat 64 O_MAXMAJ ∨ x &&& BitVec.ofNat 64 L_MAXMIN > BitVec.ofNat 64 O_MAXMIN then NODEV
  else (x >>> L_BITSMINOR) <<< O_BITSMINOR ||| (x &&& BitVec.ofNat 64 O_MAXMIN)).setWidth 16

/-- The argument is promoted to `int`. -/
def expdev (x : ODev) : Dev :=
  (((x.signExtend 32).sshiftRight O_BITSMINOR &&& BitVec.ofNat 32 O_MAXMAJ).signExtend 64) <<< L_BITSMINOR |||
    (x.signExtend 32 &&& BitVec.ofNat 32 O_MAXMIN).signExtend 64

variable {d : Dev}

/-! A device number is its major number above its minor number. -/

theorem toNat_high (d : Dev) : (d >>> L_BITSMINOR).toNat = d.toNat / 2 ^ 32 := by
  rw [BitVec.toNat_ushiftRight, Nat.shiftRight_eq_div_pow]
  rfl

theorem toNat_low (d : Dev) : (d &&& BitVec.ofNat 64 L_MAXMIN).toNat = d.toNat % 2 ^ 32 := toNat_and_low rfl

theorem toNat_getmajor (d : Dev) : (getmajor d).toNat = d.toNat / 2 ^ 32 := by
  have hd := d.isLt
  have hmask : (d >>> L_BITSMINOR &&& BitVec.ofNat 64 L_MAXMAJ).toNat = d.toNat / 2 ^ 32 % 2 ^ 32 := by
    rw [← toNat_high]
    exact toNat_and_low rfl
  rw [getmajor, BitVec.toNat_setWidth, hmask]
  omega

theorem toNat_getminor (d : Dev) : (getminor d).toNat = d.toNat % 2 ^ 32 := by
  rw [getminor, BitVec.toNat_setWidth, toNat_low]
  omega

theorem toNat_makedevice {x y : BitVec 64} (hx : x.toNat < 2 ^ 32) :
    (makedevice x y).toNat = x.toNat * 2 ^ 32 + y.toNat % 2 ^ 32 := by
  have hlow : (y &&& BitVec.ofNat 64 L_MAXMIN).toNat < 2 ^ 32 := by
    rw [toNat_low]
    omega
  rw [makedevice, L_BITSMINOR, toNat_shiftLeft_or hlow (by omega), toNat_low]

/-- What is at most the largest major and minor number of a format. -/
def Within (maj min : Nat) (d : Dev) : Prop := (getmajor d).toNat ≤ maj ∧ (getminor d).toNat ≤ min

instance (maj min : Nat) (d : Dev) : Decidable (Within maj min d) := inferInstanceAs (Decidable (_ ∧ _))

theorem check_iff {maj min : Nat} (hmaj : maj < 2 ^ 64) (hmin : min < 2 ^ 64) :
    (d >>> L_BITSMINOR > BitVec.ofNat 64 maj ∨ d &&& BitVec.ofNat 64 L_MAXMIN > BitVec.ofNat 64 min) ↔
      ¬ Within maj min d := by
  rw [Within, toNat_getmajor, toNat_getminor, gt_iff_lt, gt_iff_lt, BitVec.lt_def, BitVec.lt_def, toNat_high, toNat_low,
    BitVec.toNat_ofNat, BitVec.toNat_ofNat, Nat.mod_eq_of_lt hmaj, Nat.mod_eq_of_lt hmin]
  omega

theorem toNat_packed {b maj : Nat} {mask : BitVec 64} (hmask : mask.toNat = 2 ^ b - 1) (hb : b ≤ 32)
    (h : Within maj (2 ^ b - 1) d) :
    ((d >>> L_BITSMINOR) <<< b ||| (d &&& mask)).toNat = d.toNat / 2 ^ 32 * 2 ^ b + d.toNat % 2 ^ 32 := by
  obtain ⟨hmaj, hmin⟩ := h
  rw [toNat_getminor] at hmin
  have hpos := Nat.two_pow_pos b
  have hlow : (d &&& mask).toNat = d.toNat % 2 ^ 32 := by
    rw [toNat_and_low hmask, ← Nat.mod_mod_of_dvd d.toNat (Nat.pow_dvd_pow 2 hb), Nat.mod_eq_of_lt (by omega)]
  have hhigh : (d >>> L_BITSMINOR).toNat * 2 ^ b < 2 ^ 64 := by
    have hle : 2 ^ b ≤ 2 ^ 32 := Nat.pow_le_pow_right (by decide) hb
    have hd := d.isLt
    rw [toNat_high]
    calc d.toNat / 2 ^ 32 * 2 ^ b ≤ d.toNat / 2 ^ 32 * 2 ^ 32 := Nat.mul_le_mul_left _ hle
      _ < 2 ^ 64 := by omega
  rw [toNat_shiftLeft_or (by omega) hhigh, hlow, toNat_high]

theorem toNat_devcmpl (h : Within L_MAXMAJ32 L_MAXMIN32 d) :
    (devcmpl d).toNat = d.toNat / 2 ^ 32 * 2 ^ 18 + d.toNat % 2 ^ 32 := by
  have hpacked : ((d >>> L_BITSMINOR) <<< L_BITSMINOR32 ||| (d &&& BitVec.ofNat 64 L_MAXMIN32)).toNat =
      d.toNat / 2 ^ 32 * 2 ^ L_BITSMINOR32 + d.toNat % 2 ^ 32 := toNat_packed rfl (by decide) h
  have hmaj := h.1
  have hmin := h.2
  rw [toNat_getmajor, L_MAXMAJ32] at hmaj
  rw [toNat_getminor, L_MAXMIN32] at hmin
  rw [devcmpl, if_neg (fun hout => (check_iff (by decide) (by decide)).mp hout h), BitVec.toNat_setWidth, hpacked,
    L_BITSMINOR32]
  omega

theorem devcmpl_of_not (h : ¬ Within L_MAXMAJ32 L_MAXMIN32 d) : devcmpl d = NODEV32 := by
  rw [devcmpl, if_pos ((check_iff (by decide) (by decide)).mpr h)]
  rfl

theorem toNat_devexpl {c : Dev32} (h : c ≠ NODEV32) :
    (devexpl c).toNat = c.toNat / 2 ^ 18 * 2 ^ 32 + c.toNat % 2 ^ 18 := by
  have hc := c.isLt
  have hmaj : ((c >>> L_BITSMINOR32 &&& BitVec.ofNat 32 L_MAXMAJ32).setWidth 64).toNat = c.toNat / 2 ^ 18 := by
    have hmask : (c >>> L_BITSMINOR32 &&& BitVec.ofNat 32 L_MAXMAJ32).toNat = (c >>> 18).toNat % 2 ^ 14 :=
      toNat_and_low rfl
    rw [BitVec.toNat_setWidth, hmask, BitVec.toNat_ushiftRight, Nat.shiftRight_eq_div_pow]
    omega
  have hmin : ((c &&& BitVec.ofNat 32 L_MAXMIN32).setWidth 64).toNat = c.toNat % 2 ^ 18 := by
    have hmask : (c &&& BitVec.ofNat 32 L_MAXMIN32).toNat = c.toNat % 2 ^ 18 := toNat_and_low rfl
    rw [BitVec.toNat_setWidth, hmask]
    omega
  rw [devexpl, if_neg h, toNat_makedevice (by omega), hmaj, hmin]
  omega

def largest : Dev := makedevice (BitVec.ofNat 64 L_MAXMAJ32) (BitVec.ofNat 64 L_MAXMIN32)

theorem devexpl_devcmpl (h : Within L_MAXMAJ32 L_MAXMIN32 d) (hd : d ≠ largest) : devexpl (devcmpl d) = d := by
  have hpacked := toNat_devcmpl h
  obtain ⟨hmaj, hmin⟩ := h
  rw [toNat_getmajor, L_MAXMAJ32] at hmaj
  rw [toNat_getminor, L_MAXMIN32] at hmin
  have hne : devcmpl d ≠ NODEV32 := by
    intro heq
    apply hd
    apply BitVec.eq_of_toNat_eq
    have hones : (devcmpl d).toNat = 2 ^ 32 - 1 := congrArg BitVec.toNat heq
    have hlargest : largest.toNat = 0x3fff * 2 ^ 32 + 0x3ffff := rfl
    omega
  apply BitVec.eq_of_toNat_eq
  rw [toNat_devexpl hne, hpacked]
  omega

theorem devcmpl_devexpl (c : Dev32) : devcmpl (devexpl c) = c := by
  by_cases hc : c = NODEV32
  · subst hc
    rfl
  · have hexp := toNat_devexpl hc
    have hlt := c.isLt
    have hwithin : Within L_MAXMAJ32 L_MAXMIN32 (devexpl c) := by
      rw [Within, toNat_getmajor, toNat_getminor, hexp, L_MAXMAJ32, L_MAXMIN32]
      omega
    apply BitVec.eq_of_toNat_eq
    rw [toNat_devcmpl hwithin, hexp]
    omega

theorem toNat_cmpdev (h : Within O_MAXMAJ O_MAXMIN d) :
    (cmpdev d).toNat = d.toNat / 2 ^ 32 * 2 ^ 8 + d.toNat % 2 ^ 32 := by
  have hpacked : ((d >>> L_BITSMINOR) <<< O_BITSMINOR ||| (d &&& BitVec.ofNat 64 O_MAXMIN)).toNat =
      d.toNat / 2 ^ 32 * 2 ^ O_BITSMINOR + d.toNat % 2 ^ 32 := toNat_packed rfl (by decide) h
  have hmaj := h.1
  have hmin := h.2
  rw [toNat_getmajor, O_MAXMAJ] at hmaj
  rw [toNat_getminor, O_MAXMIN] at hmin
  rw [cmpdev, if_neg (fun hout => (check_iff (by decide) (by decide)).mp hout h), BitVec.toNat_setWidth, hpacked,
    O_BITSMINOR]
  omega

theorem cmpdev_of_not (h : ¬ Within O_MAXMAJ O_MAXMIN d) : cmpdev d = BitVec.ofInt 16 (-1) := by
  rw [cmpdev, if_pos ((check_iff (by decide) (by decide)).mpr h)]
  rfl

theorem toNat_expdev {x : ODev} (h : x.toNat < 2 ^ 15) :
    (expdev x).toNat = x.toNat / 2 ^ 8 * 2 ^ 32 + x.toNat % 2 ^ 8 := by
  have hint : (x.signExtend 32).toNat = x.toNat := toNat_signExtend (by omega) (by decide)
  have hmsb : (x.signExtend 32).msb = false := BitVec.msb_eq_false_iff_two_mul_lt.mpr (by omega)
  have hmaj : ((x.signExtend 32).sshiftRight O_BITSMINOR &&& BitVec.ofNat 32 O_MAXMAJ).toNat = x.toNat / 2 ^ 8 := by
    have hmask : ((x.signExtend 32).sshiftRight O_BITSMINOR &&& BitVec.ofNat 32 O_MAXMAJ).toNat =
        ((x.signExtend 32).sshiftRight 8).toNat % 2 ^ 7 := toNat_and_low rfl
    rw [hmask, BitVec.toNat_sshiftRight_of_msb_false hmsb, hint, Nat.shiftRight_eq_div_pow]
    omega
  have hmin : (x.signExtend 32 &&& BitVec.ofNat 32 O_MAXMIN).toNat = x.toNat % 2 ^ 8 := by
    rw [← hint]
    exact toNat_and_low rfl
  have hhigh : (((x.signExtend 32).sshiftRight O_BITSMINOR &&& BitVec.ofNat 32 O_MAXMAJ).signExtend 64).toNat =
      x.toNat / 2 ^ 8 := (toNat_signExtend (by omega) (by decide)).trans hmaj
  have hlow : ((x.signExtend 32 &&& BitVec.ofNat 32 O_MAXMIN).signExtend 64).toNat = x.toNat % 2 ^ 8 :=
    (toNat_signExtend (by omega) (by decide)).trans hmin
  rw [expdev, L_BITSMINOR, toNat_shiftLeft_or (by omega) (by omega), hhigh, hlow]

theorem expdev_cmpdev (h : Within O_MAXMAJ O_MAXMIN d) : expdev (cmpdev d) = d := by
  have hpacked := toNat_cmpdev h
  obtain ⟨hmaj, hmin⟩ := h
  rw [toNat_getmajor, O_MAXMAJ] at hmaj
  rw [toNat_getminor, O_MAXMIN] at hmin
  apply BitVec.eq_of_toNat_eq
  rw [toNat_expdev (by omega), hpacked]
  omega

/-- What is within the limits of a `dev32_t` comes back, and of the rest comes
NODEV. -/
def Keeps32 (d : Dev) : Prop :=
  (Within L_MAXMAJ32 L_MAXMIN32 d → devexpl (devcmpl d) = d) ∧
    (¬ Within L_MAXMAJ32 L_MAXMIN32 d → devcmpl d = NODEV32 ∧ devexpl (devcmpl d) = NODEV)

/-- What is within the limits of an `o_dev_t` comes back, and the rest does not
come back as something within them. -/
def KeepsOld (d : Dev) : Prop :=
  (Within O_MAXMAJ O_MAXMIN d → expdev (cmpdev d) = d) ∧
    (¬ Within O_MAXMAJ O_MAXMIN d → ¬ Within O_MAXMAJ O_MAXMIN (expdev (cmpdev d)))

theorem keeps32_iff : Keeps32 d ↔ d ≠ largest := by
  constructor
  · rintro h rfl
    exact absurd (h.1 (by decide)) (by decide)
  · refine fun hd => ⟨(devexpl_devcmpl · hd), fun hout => ?_⟩
    rw [devcmpl_of_not hout]
    exact ⟨rfl, rfl⟩

theorem expdev_cmpdev_of_not (h : ¬ Within O_MAXMAJ O_MAXMIN d) :
    expdev (cmpdev d) = makedevice (BitVec.ofNat 64 O_MAXMAJ) (BitVec.ofNat 64 O_MAXMIN) := by
  rw [cmpdev_of_not h]
  rfl

theorem keepsOld_iff : KeepsOld d ↔ Within O_MAXMAJ O_MAXMIN d := by
  constructor
  · intro h
    by_contra hout
    apply h.2 hout
    rw [expdev_cmpdev_of_not hout]
    decide
  · exact fun h => ⟨expdev_cmpdev, absurd h⟩

/-- The largest number of the format is lost, and what has no old number comes
back as the largest one. -/
theorem compression_fails :
    (Within L_MAXMAJ32 L_MAXMIN32 largest ∧ devexpl (devcmpl largest) ≠ largest) ∧
    (¬ Within O_MAXMAJ O_MAXMIN NODEV ∧ Within O_MAXMAJ O_MAXMIN (expdev (cmpdev NODEV))) := by
  decide

/-- The packed form of the largest number is NODEV32 itself. DEVEXPL knows
NODEV32, but `expdev` takes the `-1` of `cmpdev` for a device number. -/
theorem compression_laws (d : Dev) (c : Dev32) :
    (Keeps32 d ↔ d ≠ largest) ∧
    (d = largest → devcmpl d = NODEV32 ∧ devexpl (devcmpl d) = NODEV) ∧
    devcmpl (devexpl c) = c ∧
    (KeepsOld d ↔ Within O_MAXMAJ O_MAXMIN d) ∧
    (¬ Within O_MAXMAJ O_MAXMIN d → cmpdev d = BitVec.ofInt 16 (-1) ∧
      expdev (cmpdev d) = makedevice (BitVec.ofNat 64 O_MAXMAJ) (BitVec.ofNat 64 O_MAXMIN)) := by
  refine ⟨keeps32_iff, ?_, devcmpl_devexpl c, keepsOld_iff, fun h => ⟨cmpdev_of_not h, expdev_cmpdev_of_not h⟩⟩
  rintro rfl
  decide

theorem compression_laws_sample :
    (Keeps32 0x2000000003#64 ∧ KeepsOld 0x2000000003#64) ∧ Keeps32 NODEV ∧
    cmpdev NODEV = BitVec.ofInt 16 (-1) ∧
    expdev (cmpdev NODEV) = makedevice (BitVec.ofNat 64 O_MAXMAJ) (BitVec.ofNat 64 O_MAXMIN) := by
  obtain ⟨hkeeps, -, -, hold, -⟩ := compression_laws 0x2000000003#64 0#32
  obtain ⟨hnodev, -, -, -, hout⟩ := compression_laws NODEV 0#32
  exact ⟨⟨hkeeps.mpr (by decide), hold.mpr (by decide)⟩, hnodev.mpr (by decide), hout (by decide)⟩

end SysvDev.Sysmacros.Devices
