import Mathlib.Data.BitVec

namespace SysvDev.Pcfs.NodeId

def PCA_DIR : BitVec 8 := 0x10#8

/-- `sizeof (struct pcdir)` -/
def sizeofPcdir : Nat := 32

def PCF_FIRSTCLUSTER : Nat := 2

def PCF_RESCLUSTER32 : Nat := 0xFFFFFF0

/-- In 32 bits. -/
def pcMakenodeid (bn : BitVec 32) (off : Nat) (attr : BitVec 8) (scluster entps : BitVec 32) : BitVec 32 :=
  if attr &&& PCA_DIR ≠ 0#8 then -scluster - 1#32 else bn * entps + BitVec.ofNat 32 (off / sizeofPcdir)

/-- A directory entry: where it stands, its attributes and where its file
starts. -/
structure Entry where
  bn : BitVec 32
  off : Nat
  attr : BitVec 8
  scluster : BitVec 32

namespace Entry

def IsDir (e : Entry) : Prop := e.attr &&& PCA_DIR ≠ 0#8

instance (e : Entry) : Decidable e.IsDir := inferInstanceAs (Decidable (_ ≠ _))

def nodeid (entps : BitVec 32) (e : Entry) : BitVec 32 := pcMakenodeid e.bn e.off e.attr e.scluster entps

/-- An entry of a file system where what is not a directory has its entry in
one of the first `sectors` sectors. -/
def Valid (entps : BitVec 32) (sectors : Nat) (e : Entry) : Prop :=
  (e.IsDir → PCF_FIRSTCLUSTER ≤ e.scluster.toNat ∧ e.scluster.toNat < PCF_RESCLUSTER32) ∧
    (¬ e.IsDir → e.bn.toNat < sectors ∧ sizeofPcdir ∣ e.off ∧ e.off < entps.toNat * sizeofPcdir)

def Different (e f : Entry) : Prop :=
  (e.IsDir → f.IsDir → e.scluster ≠ f.scluster) ∧ (¬ e.IsDir → ¬ f.IsDir → (e.bn, e.off) ≠ (f.bn, f.off))

instance (entps : BitVec 32) (sectors : Nat) (e : Entry) : Decidable (e.Valid entps sectors) :=
  inferInstanceAs (Decidable (_ ∧ _))

instance (e f : Entry) : Decidable (e.Different f) := inferInstanceAs (Decidable (_ ∧ _))

variable {entps : BitVec 32} {sectors : Nat} {e f : Entry}

theorem toNat_nodeid_dir (hdir : e.IsDir) : (e.nodeid entps).toNat = 2 ^ 32 - 1 - e.scluster.toNat := by
  have hneg : e.nodeid entps = ~~~e.scluster := by
    have hid : e.nodeid entps = -e.scluster - 1#32 := if_pos hdir
    rw [hid, BitVec.not_eq_neg_add]
  rw [hneg, BitVec.toNat_not]

theorem toNat_nodeid (hdir : ¬ e.IsDir) :
    (e.nodeid entps).toNat = (e.bn.toNat * entps.toNat + e.off / sizeofPcdir) % 2 ^ 32 := by
  have hid : e.nodeid entps = e.bn * entps + BitVec.ofNat 32 (e.off / sizeofPcdir) := if_neg hdir
  rw [hid, BitVec.toNat_add, BitVec.toNat_mul, BitVec.toNat_ofNat, ← Nat.add_mod]

theorem toNat_nodeid_file (h : e.Valid entps sectors) (hdir : ¬ e.IsDir) (hroom : sectors * entps.toNat ≤ 2 ^ 32) :
    (e.nodeid entps).toNat = e.bn.toNat * entps.toNat + e.off / sizeofPcdir ∧
      e.off / sizeofPcdir < entps.toNat ∧ (e.nodeid entps).toNat < sectors * entps.toNat := by
  obtain ⟨hbn, -, hoff⟩ := h.2 hdir
  have hslot : e.off / sizeofPcdir < entps.toNat := Nat.div_lt_of_lt_mul (Nat.mul_comm _ sizeofPcdir ▸ hoff)
  have hlt : e.bn.toNat * entps.toNat + e.off / sizeofPcdir < sectors * entps.toNat := by
    calc e.bn.toNat * entps.toNat + e.off / sizeofPcdir < (e.bn.toNat + 1) * entps.toNat := by
          rw [Nat.add_mul, Nat.one_mul]
          omega
      _ ≤ sectors * entps.toNat := Nat.mul_le_mul_right _ hbn
  have hid : (e.nodeid entps).toNat = e.bn.toNat * entps.toNat + e.off / sizeofPcdir := by
    rw [toNat_nodeid hdir, Nat.mod_eq_of_lt (by omega)]
  exact ⟨hid, hslot, hid ▸ hlt⟩

/-- Quotient and remainder tell the sector and the place in it. -/
theorem position_eq {a b i j n : Nat} (hi : i < n) (hj : j < n) (h : a * n + i = b * n + j) : a = b ∧ i = j := by
  have hn : 0 < n := Nat.zero_lt_of_lt hi
  have hdiv : (a * n + i) / n = (b * n + j) / n := congrArg (· / n) h
  rw [Nat.mul_comm a, Nat.mul_comm b, Nat.mul_add_div hn, Nat.mul_add_div hn, Nat.div_eq_of_lt hi,
    Nat.div_eq_of_lt hj] at hdiv
  have hab : a = b := hdiv
  subst hab
  exact ⟨rfl, Nat.add_left_cancel h⟩

theorem nodeid_ne_of_file (hroom : sectors * entps.toNat ≤ 2 ^ 32) (he : e.Valid entps sectors)
    (hf : f.Valid entps sectors) (hde : ¬ e.IsDir) (hdf : ¬ f.IsDir) (h : (e.bn, e.off) ≠ (f.bn, f.off)) :
    e.nodeid entps ≠ f.nodeid entps := by
  intro heq
  obtain ⟨hide, hslote, -⟩ := toNat_nodeid_file he hde hroom
  obtain ⟨hidf, hslotf, -⟩ := toNat_nodeid_file hf hdf hroom
  obtain ⟨hbn, hslot⟩ := position_eq hslote hslotf (by rw [← hide, ← hidf, heq])
  apply h
  rw [BitVec.eq_of_toNat_eq hbn, ← Nat.mul_div_cancel' (he.2 hde).2.1, hslot,
    Nat.mul_div_cancel' (hf.2 hdf).2.1]

/-- The two ranges do not meet. -/
theorem nodeid_ne_of_dir (hroom : sectors * entps.toNat ≤ 2 ^ 32 - PCF_RESCLUSTER32) (he : e.Valid entps sectors)
    (hf : f.Valid entps sectors) (hde : ¬ e.IsDir) (hdf : f.IsDir) : e.nodeid entps ≠ f.nodeid entps := by
  intro heq
  obtain ⟨-, -, hlt⟩ := toNat_nodeid_file he hde (hroom.trans (Nat.sub_le _ _))
  have hid : (f.nodeid entps).toNat = _ := toNat_nodeid_dir hdf
  have hcluster := hf.1 hdf
  rw [heq, hid] at hlt
  simp only [PCF_FIRSTCLUSTER, PCF_RESCLUSTER32] at hroom hcluster
  omega

def meeting (k : Nat) : Entry :=
  ⟨BitVec.ofNat 32 ((2 ^ 32 - PCF_RESCLUSTER32) / 2 ^ k), (2 ^ 32 - PCF_RESCLUSTER32) % 2 ^ k * sizeofPcdir, 0#8, 0#32⟩

def topDirectory : Entry := ⟨0#32, 0, PCA_DIR, BitVec.ofNat 32 (PCF_RESCLUSTER32 - 1)⟩

theorem not_isDir_meeting (k : Nat) : ¬ (meeting k).IsDir := by
  simp [IsDir, meeting]

theorem isDir_topDirectory : topDirectory.IsDir := by
  decide

theorem valid_meeting {k : Nat} (hentps : entps.toNat = 2 ^ k)
    (h : 2 ^ 32 - PCF_RESCLUSTER32 < sectors * 2 ^ k) : (meeting k).Valid entps sectors := by
  have hpos := Nat.two_pow_pos k
  refine ⟨fun hdir => absurd hdir (not_isDir_meeting k), fun _ => ?_⟩
  rw [hentps]
  refine ⟨?_, Nat.dvd_mul_left _ _, Nat.mul_lt_mul_of_pos_right (Nat.mod_lt _ hpos) (by decide)⟩
  rw [meeting, BitVec.toNat_ofNat]
  exact (Nat.mod_le _ _).trans_lt (Nat.div_lt_of_lt_mul (Nat.mul_comm sectors _ ▸ h))

theorem nodeid_meeting {k : Nat} (hentps : entps.toNat = 2 ^ k) :
    (meeting k).nodeid entps = topDirectory.nodeid entps := by
  have hdiv : (2 ^ 32 - PCF_RESCLUSTER32) / 2 ^ k < 2 ^ 32 := (Nat.div_le_self _ _).trans_lt (by decide)
  apply BitVec.eq_of_toNat_eq
  rw [toNat_nodeid_dir isDir_topDirectory, toNat_nodeid (not_isDir_meeting k), hentps]
  simp only [meeting, BitVec.toNat_ofNat, Nat.mod_eq_of_lt hdiv]
  rw [Nat.mul_div_cancel _ (by decide), Nat.mul_comm, Nat.div_add_mod]
  rfl

end Entry

open Entry

/-- Two files at the same place of sectors so far apart that the product has
wrapped. -/
theorem nodeids_collide :
    (Entry.mk 0#32 0 0#8 2#32).Valid 16#32 (2 ^ 32) ∧ (Entry.mk 0x10000000#32 0 0#8 3#32).Valid 16#32 (2 ^ 32) ∧
    Different ⟨0#32, 0, 0#8, 2#32⟩ ⟨0x10000000#32, 0, 0#8, 3#32⟩ ∧
    nodeid 16#32 ⟨0#32, 0, 0#8, 2#32⟩ = nodeid 16#32 ⟨0x10000000#32, 0, 0#8, 3#32⟩ := by
  refine ⟨?_, ?_, ?_, ?_⟩ <;> decide

/-- The numbers are unique if and only if the directories are left room for
theirs above the others. -/
theorem nodeids_unique_iff (k : Fin 32) (sectors : Nat) :
    (∀ e f : Entry, e.Valid (.twoPow 32 k) sectors → f.Valid (.twoPow 32 k) sectors → Different e f →
      e.nodeid (.twoPow 32 k) ≠ f.nodeid (.twoPow 32 k)) ↔
    sectors * 2 ^ k.val ≤ 2 ^ 32 - PCF_RESCLUSTER32 := by
  have hentps : (BitVec.twoPow 32 k).toNat = 2 ^ k.val := by
    rw [BitVec.toNat_twoPow, Nat.mod_eq_of_lt (Nat.pow_lt_pow_right (by decide) k.isLt)]
  constructor
  · intro h
    by_contra hroom
    have hvalid : topDirectory.Valid (.twoPow 32 k) sectors :=
      ⟨fun _ => by decide, fun hfile => absurd isDir_topDirectory hfile⟩
    have hdiff : (meeting k).Different topDirectory :=
      ⟨fun hdir => absurd hdir (not_isDir_meeting k), fun _ hfile => absurd isDir_topDirectory hfile⟩
    exact h _ _ (valid_meeting hentps (Nat.lt_of_not_le hroom)) hvalid hdiff (nodeid_meeting hentps)
  · intro hroom e f he hf hdiff
    rw [← hentps] at hroom
    have hwide := hroom.trans (Nat.sub_le (2 ^ 32) PCF_RESCLUSTER32)
    by_cases hde : e.IsDir <;> by_cases hdf : f.IsDir
    · intro heq
      have hid := congrArg BitVec.toNat heq
      rw [toNat_nodeid_dir hde, toNat_nodeid_dir hdf] at hid
      apply hdiff.1 hde hdf
      apply BitVec.eq_of_toNat_eq
      omega
    · exact (nodeid_ne_of_dir hroom hf he hdf hde).symm
    · exact nodeid_ne_of_dir hroom he hf hde hdf
    · exact nodeid_ne_of_file hwide he hf hde hdf (hdiff.2 hde hdf)

/-- Sectors of 512 bytes, as many as there is room for. -/
theorem nodeids_unique_sample : ∀ e f : Entry, e.Valid (.twoPow 32 4) 0xF000001 → f.Valid (.twoPow 32 4) 0xF000001 →
    Different e f → e.nodeid (.twoPow 32 4) ≠ f.nodeid (.twoPow 32 4) :=
  (nodeids_unique_iff 4 0xF000001).mpr (by decide)

end SysvDev.Pcfs.NodeId
