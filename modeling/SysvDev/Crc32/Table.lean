import SysvDev.ShiftRegister

namespace SysvDev.Crc32.Table

open Function ShiftRegister

variable {poly crc start x : BitVec 32} {table : Vector (BitVec 32) 256} {buf : List (BitVec 8)}

/-- The definition of a CRC that the header gives, a bit of data at a time. -/
def bitStep (poly crc : BitVec 32) (bit : Bool) : BitVec 32 :=
  if bit = crc.getLsbD 0 then crc >>> 1 else (crc >>> 1) ^^^ poly

def bitwise (poly start : BitVec 32) (data : List Bool) : BitVec 32 := data.foldl (bitStep poly) start

def byteBits (c : BitVec 8) : List Bool := (List.range 8).map c.getLsbD

/-- The bits of a buffer, each byte from its least significant bit on. -/
def bits (buf : List (BitVec 8)) : List Bool := buf.flatMap byteBits

/-- The assignment in the inner loop of `CRC32_INIT`. -/
def initStep (poly x : BitVec 32) : BitVec 32 := (x >>> 1) ^^^ (-(x &&& 1#32) &&& poly)

def crc32Init (poly : BitVec 32) : Vector (BitVec 32) 256 :=
  Vector.ofFn fun i => (initStep poly)^[8] (BitVec.ofNat 32 i)

theorem and_lt (x : BitVec 32) : (x &&& 0xFF#32).toNat < 256 := by
  rw [BitVec.toNat_and]
  exact Nat.lt_of_le_of_lt Nat.and_le_right (by decide)

/-- The loop body of `CRC32` and of `CRC32_STRING`. -/
def byteStep (table : Vector (BitVec 32) 256) (crc : BitVec 32) (c : BitVec 8) : BitVec 32 :=
  (crc >>> 8) ^^^ table.get ⟨((crc ^^^ c.setWidth 32) &&& 0xFF#32).toNat, and_lt _⟩

/-- `CRC32`, where `buf` is the bytes from `Xcp` to `Xcpend`. -/
def crc32 : List (BitVec 8) → BitVec 32 → Vector (BitVec 32) 256 → BitVec 32
  | [], crc, _ => crc
  | c :: buf, crc, table => crc32 buf (byteStep table crc c) table

/-- The loop of `CRC32_STRING`, where the list is the memory from `Xcp` on.
It gives the CRC and the length, and nothing if there is no NUL. -/
def crc32StringLoop (table : Vector (BitVec 32) 256) : List (BitVec 8) → Nat → BitVec 32 → Option (BitVec 32 × Nat)
  | [], _, _ => none
  | c :: rest, len, crc =>
      if c ≠ 0#8 then crc32StringLoop table rest (len + 1) (byteStep table crc c) else some (crc, len)

def crc32String (str : List (BitVec 8)) (start : BitVec 32) (table : Vector (BitVec 32) 256) :
    Option (BitVec 32 × Nat) :=
  crc32StringLoop table str 0 start

def crc32Poly : BitVec 32 := 0xEDB88320#32

set_option maxRecDepth 2000 in
def crc32Table : Vector (BitVec 32) 256 := #v[
  0x00000000, 0x77073096, 0xEE0E612C, 0x990951BA, 0x076DC419, 0x706AF48F, 0xE963A535, 0x9E6495A3,
  0x0EDB8832, 0x79DCB8A4, 0xE0D5E91E, 0x97D2D988, 0x09B64C2B, 0x7EB17CBD, 0xE7B82D07, 0x90BF1D91,
  0x1DB71064, 0x6AB020F2, 0xF3B97148, 0x84BE41DE, 0x1ADAD47D, 0x6DDDE4EB, 0xF4D4B551, 0x83D385C7,
  0x136C9856, 0x646BA8C0, 0xFD62F97A, 0x8A65C9EC, 0x14015C4F, 0x63066CD9, 0xFA0F3D63, 0x8D080DF5,
  0x3B6E20C8, 0x4C69105E, 0xD56041E4, 0xA2677172, 0x3C03E4D1, 0x4B04D447, 0xD20D85FD, 0xA50AB56B,
  0x35B5A8FA, 0x42B2986C, 0xDBBBC9D6, 0xACBCF940, 0x32D86CE3, 0x45DF5C75, 0xDCD60DCF, 0xABD13D59,
  0x26D930AC, 0x51DE003A, 0xC8D75180, 0xBFD06116, 0x21B4F4B5, 0x56B3C423, 0xCFBA9599, 0xB8BDA50F,
  0x2802B89E, 0x5F058808, 0xC60CD9B2, 0xB10BE924, 0x2F6F7C87, 0x58684C11, 0xC1611DAB, 0xB6662D3D,
  0x76DC4190, 0x01DB7106, 0x98D220BC, 0xEFD5102A, 0x71B18589, 0x06B6B51F, 0x9FBFE4A5, 0xE8B8D433,
  0x7807C9A2, 0x0F00F934, 0x9609A88E, 0xE10E9818, 0x7F6A0DBB, 0x086D3D2D, 0x91646C97, 0xE6635C01,
  0x6B6B51F4, 0x1C6C6162, 0x856530D8, 0xF262004E, 0x6C0695ED, 0x1B01A57B, 0x8208F4C1, 0xF50FC457,
  0x65B0D9C6, 0x12B7E950, 0x8BBEB8EA, 0xFCB9887C, 0x62DD1DDF, 0x15DA2D49, 0x8CD37CF3, 0xFBD44C65,
  0x4DB26158, 0x3AB551CE, 0xA3BC0074, 0xD4BB30E2, 0x4ADFA541, 0x3DD895D7, 0xA4D1C46D, 0xD3D6F4FB,
  0x4369E96A, 0x346ED9FC, 0xAD678846, 0xDA60B8D0, 0x44042D73, 0x33031DE5, 0xAA0A4C5F, 0xDD0D7CC9,
  0x5005713C, 0x270241AA, 0xBE0B1010, 0xC90C2086, 0x5768B525, 0x206F85B3, 0xB966D409, 0xCE61E49F,
  0x5EDEF90E, 0x29D9C998, 0xB0D09822, 0xC7D7A8B4, 0x59B33D17, 0x2EB40D81, 0xB7BD5C3B, 0xC0BA6CAD,
  0xEDB88320, 0x9ABFB3B6, 0x03B6E20C, 0x74B1D29A, 0xEAD54739, 0x9DD277AF, 0x04DB2615, 0x73DC1683,
  0xE3630B12, 0x94643B84, 0x0D6D6A3E, 0x7A6A5AA8, 0xE40ECF0B, 0x9309FF9D, 0x0A00AE27, 0x7D079EB1,
  0xF00F9344, 0x8708A3D2, 0x1E01F268, 0x6906C2FE, 0xF762575D, 0x806567CB, 0x196C3671, 0x6E6B06E7,
  0xFED41B76, 0x89D32BE0, 0x10DA7A5A, 0x67DD4ACC, 0xF9B9DF6F, 0x8EBEEFF9, 0x17B7BE43, 0x60B08ED5,
  0xD6D6A3E8, 0xA1D1937E, 0x38D8C2C4, 0x4FDFF252, 0xD1BB67F1, 0xA6BC5767, 0x3FB506DD, 0x48B2364B,
  0xD80D2BDA, 0xAF0A1B4C, 0x36034AF6, 0x41047A60, 0xDF60EFC3, 0xA867DF55, 0x316E8EEF, 0x4669BE79,
  0xCB61B38C, 0xBC66831A, 0x256FD2A0, 0x5268E236, 0xCC0C7795, 0xBB0B4703, 0x220216B9, 0x5505262F,
  0xC5BA3BBE, 0xB2BD0B28, 0x2BB45A92, 0x5CB36A04, 0xC2D7FFA7, 0xB5D0CF31, 0x2CD99E8B, 0x5BDEAE1D,
  0x9B64C2B0, 0xEC63F226, 0x756AA39C, 0x026D930A, 0x9C0906A9, 0xEB0E363F, 0x72076785, 0x05005713,
  0x95BF4A82, 0xE2B87A14, 0x7BB12BAE, 0x0CB61B38, 0x92D28E9B, 0xE5D5BE0D, 0x7CDCEFB7, 0x0BDBDF21,
  0x86D3D2D4, 0xF1D4E242, 0x68DDB3F8, 0x1FDA836E, 0x81BE16CD, 0xF6B9265B, 0x6FB077E1, 0x18B74777,
  0x88085AE6, 0xFF0F6A70, 0x66063BCA, 0x11010B5C, 0x8F659EFF, 0xF862AE69, 0x616BFFD3, 0x166CCF45,
  0xA00AE278, 0xD70DD2EE, 0x4E048354, 0x3903B3C2, 0xA7672661, 0xD06016F7, 0x4969474D, 0x3E6E77DB,
  0xAED16A4A, 0xD9D65ADC, 0x40DF0B66, 0x37D83BF0, 0xA9BCAE53, 0xDEBB9EC5, 0x47B2CF7F, 0x30B5FFE9,
  0xBDBDF21C, 0xCABAC28A, 0x53B39330, 0x24B4A3A6, 0xBAD03605, 0xCDD70693, 0x54DE5729, 0x23D967BF,
  0xB3667A2E, 0xC4614AB8, 0x5D681B02, 0x2A6F2B94, 0xB40BBE37, 0xC30C8EA1, 0x5A05DF1B, 0x2D02EF8D]

theorem bitStep_eq_feed (bit : Bool) : bitStep poly crc bit = feed poly crc bit := by
  have hlow : (crc ^^^ unit 32 bit).getLsbD 0 = (crc.getLsbD 0 ^^ bit) := by
    rw [BitVec.getLsbD_xor]
    cases bit <;> rfl
  have hrest : (crc ^^^ unit 32 bit) >>> 1 = crc >>> 1 := by
    rw [BitVec.ushiftRight_xor_distrib]
    cases bit <;> simp [unit]
  rw [bitStep, feed, shift, hlow, hrest]
  cases crc.getLsbD 0 <;> cases bit <;> rfl

theorem bitwise_eq_feeds (data : List Bool) : bitwise poly crc data = feeds poly crc data := by
  have hstep : bitStep poly = feed poly := by
    funext crc bit
    exact bitStep_eq_feed bit
  rw [bitwise, feeds, hstep]

theorem initStep_eq_shift : initStep poly = shift poly := by
  funext x
  rw [initStep, shift, BitVec.and_one_eq_setWidth_ofBool_getLsbD]
  cases x.getLsbD 0 with
  | true =>
      have hones : -(BitVec.setWidth 32 (BitVec.ofBool true)) = BitVec.allOnes 32 := by decide
      rw [hones, BitVec.allOnes_and, if_pos rfl]
  | false => simp

theorem length_byteBits (c : BitVec 8) : (byteBits c).length = 8 := by
  rw [byteBits, List.length_map, List.length_range]

theorem pack_byteBits (c : BitVec 8) : pack 32 (byteBits c) = c.setWidth 32 := by
  apply BitVec.eq_of_getLsbD_eq
  intro i hi
  rw [getLsbD_pack, BitVec.getLsbD_setWidth, byteBits, List.getElem?_map]
  by_cases h8 : i < 8
  · simp [hi, h8]
  · rw [BitVec.getLsbD_of_ge c i (by omega)]
    simp [h8]

theorem split_low (x : BitVec 32) : x = (x &&& 0xFF#32) ^^^ ((x >>> 8) <<< 8) := by
  apply BitVec.eq_of_getLsbD_eq
  intro i hi
  have hmask : (0xFF#32).getLsbD i = decide (i < 8) := by
    rw [show 0xFF#32 = BitVec.ofNat 32 (2 ^ 8 - 1) from rfl, BitVec.getLsbD_ofNat, Nat.testBit_two_pow_sub_one,
      decide_eq_true hi, Bool.true_and]
  rw [BitVec.getLsbD_xor, BitVec.getLsbD_and, hmask, BitVec.getLsbD_shiftLeft, BitVec.getLsbD_ushiftRight]
  by_cases h8 : i < 8
  · simp [h8]
  · simp [h8, hi, Nat.add_sub_cancel' (Nat.le_of_not_lt h8)]

theorem iterate_eight (x : BitVec 32) : (shift poly)^[8] x = (x >>> 8) ^^^ (shift poly)^[8] (x &&& 0xFF#32) := by
  have hhigh : (shift poly)^[8] ((x >>> 8) <<< 8) = x >>> 8 := by
    rw [iterate_of_low_clear]
    · apply BitVec.eq_of_getLsbD_eq
      intro i hi
      simp only [BitVec.getLsbD_ushiftRight, BitVec.getLsbD_shiftLeft]
      by_cases h : 8 + i < 32
      · simp [h]
      · simp [h, BitVec.getLsbD_of_ge x (8 + i) (by omega)]
    · intro i hi
      simp [hi]
  conv => lhs; rw [split_low x]
  rw [iterate_xor, hhigh, BitVec.xor_comm]

/-- A byte by the table is its eight bits one after the other. -/
theorem byteStep_eq_feeds (c : BitVec 8) : byteStep (crc32Init poly) crc c = feeds poly crc (byteBits c) := by
  have hbyte : (c.setWidth 32) >>> 8 = 0#32 := by
    apply BitVec.eq_of_getLsbD_eq
    intro i hi
    rw [BitVec.getLsbD_ushiftRight, BitVec.getLsbD_setWidth, BitVec.getLsbD_of_ge c (8 + i) (by omega)]
    simp
  have hentry : (crc32Init poly).get ⟨((crc ^^^ c.setWidth 32) &&& 0xFF#32).toNat, and_lt _⟩ =
      (shift poly)^[8] ((crc ^^^ c.setWidth 32) &&& 0xFF#32) := by
    rw [crc32Init, initStep_eq_shift]
    exact (Vector.getElem_ofFn (and_lt _)).trans (by rw [BitVec.ofNat_toNat, BitVec.setWidth_eq])
  rw [byteStep, hentry, feeds_eq_iterate (by rw [length_byteBits]; decide), length_byteBits, pack_byteBits,
    iterate_eight (crc ^^^ c.setWidth 32), BitVec.ushiftRight_xor_distrib, hbyte, BitVec.xor_zero]

theorem crc32_eq_bitwise : crc32 buf start (crc32Init poly) = bitwise poly start (bits buf) := by
  rw [bitwise_eq_feeds]
  induction buf generalizing start with
  | nil => rfl
  | cons c buf ih =>
      have hbits : bits (c :: buf) = byteBits c ++ bits buf := List.flatMap_cons
      rw [crc32, ih, hbits, feeds_append, byteStep_eq_feeds]

theorem crc32_append {buf' : List (BitVec 8)} :
    crc32 (buf ++ buf') start table = crc32 buf' (crc32 buf start table) table := by
  induction buf generalizing start with
  | nil => rfl
  | cons c buf ih => exact ih

theorem crc32StringLoop_eq {rest : List (BitVec 8)} (len : Nat) (h : 0#8 ∉ buf) :
    crc32StringLoop table (buf ++ 0#8 :: rest) len start = some (crc32 buf start table, len + buf.length) := by
  induction buf generalizing len start with
  | nil => rfl
  | cons c buf ih =>
      rw [List.mem_cons, not_or] at h
      rw [List.cons_append, crc32StringLoop, if_pos (Ne.symm h.1), ih (len + 1) h.2, List.length_cons,
        Nat.add_right_comm]
      rfl

theorem crc32Table_eq : crc32Table = crc32Init crc32Poly := by
  have hentries : crc32Table.toList.map BitVec.toNat = (List.range 256).map (shiftNat crc32Poly.toNat)^[8] := by
    decide +kernel
  apply Vector.ext
  intro i hi
  have hentry := congrArg (·[i]?) hentries
  simp only [List.getElem?_map, Vector.getElem?_toList, List.getElem?_range hi, Option.map_some,
    Vector.getElem?_eq_getElem hi, Option.some.injEq] at hentry
  rw [crc32Init, initStep_eq_shift, Vector.getElem_ofFn, ← BitVec.toNat_inj, hentry, toNat_iterate,
    BitVec.toNat_ofNat, Nat.mod_eq_of_lt (Nat.lt_trans hi (by decide))]

/-- The table-driven CRC is the one that is defined bit by bit, for every
polynomial; the precomputed table is that of `CRC32_POLY`; a string has the
CRC of its bytes, and its length; and a CRC may be taken part by part. -/
theorem crc32_correct :
    (∀ poly start buf, crc32 buf start (crc32Init poly) = bitwise poly start (bits buf)) ∧
      crc32Table = crc32Init crc32Poly ∧
      (∀ table start str rest, 0#8 ∉ str →
        crc32String (str ++ 0#8 :: rest) start table = some (crc32 str start table, str.length)) ∧
      ∀ table start buf buf', crc32 (buf ++ buf') start table = crc32 buf' (crc32 buf start table) table := by
  refine ⟨fun poly start buf => crc32_eq_bitwise, crc32Table_eq, ?_, fun table start buf buf' => crc32_append⟩
  intro table start str rest h
  rw [crc32String, crc32StringLoop_eq 0 h, Nat.zero_add]

theorem crc32_correct_abc :
    crc32String (([0x61, 0x62, 0x63] : List (BitVec 8)) ++ 0#8 :: []) 0#32 crc32Table =
      some (crc32 [0x61, 0x62, 0x63] 0#32 crc32Table, 3) :=
  crc32_correct.2.2.1 crc32Table 0#32 [0x61, 0x62, 0x63] [] (by decide)

end SysvDev.Crc32.Table
