import SysvDev.Cis.Readers

namespace SysvDev.Cis.Inside

open Readers

variable {w : Nat} {mem : BitVec w → BitVec 8} {tp : Cistpl w} {p : Nat × BitVec 32}

section Position

/-- What a read of `n` bytes does to the number of bytes read so far and to the
flags. One byte too many passes the check. -/
def access (len : Nat) (p : Nat × BitVec 32) (n : Nat) : Nat × BitVec 32 :=
  if p.1 + n ≤ len + 1 then (p.1 + n, p.2) else (p.1, p.2 ||| memErr)

/-- No read starts where exactly one byte too few is left for it. -/
def fits (len : Nat) : Nat → List Nat → Bool
  | _, [] => true
  | d, n :: ns => d + n != len + 1 && fits len (if d + n ≤ len then d + n else d) ns

variable {len : Nat} {ns : List Nat}

theorem le_access (len n : Nat) (p : Nat × BitVec 32) : p.1 ≤ (access len p n).1 := by
  rw [access]
  split
  · exact Nat.le_add_right _ _
  · exact le_rfl

theorem le_foldl_access (len : Nat) (ns : List Nat) (p : Nat × BitVec 32) : p.1 ≤ (ns.foldl (access len) p).1 := by
  induction ns generalizing p with
  | nil => exact le_rfl
  | cons n ns ih => exact (le_access len n p).trans (ih _)

theorem fits_iff {d : Nat} {f : BitVec 32} (hd : d ≤ len) :
    fits len d ns = true ↔ (ns.foldl (access len) (d, f)).1 ≤ len := by
  induction ns generalizing d f with
  | nil => exact ⟨fun _ => hd, fun _ => rfl⟩
  | cons n ns ih =>
      rw [fits, List.foldl_cons, Bool.and_eq_true, bne_iff_ne]
      rcases lt_trichotomy (d + n) (len + 1) with hlt | heq | hgt
      · rw [if_pos (Nat.lt_succ_iff.mp hlt), access, if_pos hlt.le, ih (Nat.lt_succ_iff.mp hlt)]
        exact and_iff_right hlt.ne
      · have hover := le_foldl_access len ns (access len (d, f) n)
        rw [access, if_pos heq.le, heq] at hover
        rw [access, if_pos heq.le, heq]
        exact ⟨fun h => absurd rfl h.1, fun h => absurd (hover.trans h) (Nat.not_succ_le_self len)⟩
      · rw [if_neg (by omega), access, if_neg hgt.not_ge, ih hd]
        exact and_iff_right hgt.ne'

def IsErr (flags : BitVec 32) : Prop := flags ||| memErr = flags

theorem isErr_or (flags : BitVec 32) : IsErr (flags ||| memErr) := by
  rw [IsErr, BitVec.or_assoc, BitVec.or_self]

theorem isErr_foldl (h : IsErr p.2) : IsErr (ns.foldl (access len) p).2 := by
  induction ns generalizing p with
  | nil => exact h
  | cons n ns ih =>
      rw [List.foldl_cons]
      apply ih
      rw [access]
      split
      · exact h
      · exact isErr_or _

/-- All bytes are read, or the flag is set. -/
theorem sum_or_isErr (p : Nat × BitVec 32) :
    (ns.foldl (access len) p).1 = p.1 + ns.sum ∨ IsErr (ns.foldl (access len) p).2 := by
  induction ns generalizing p with
  | nil => exact .inl rfl
  | cons n ns ih =>
      rw [List.foldl_cons, List.sum_cons]
      by_cases h : p.1 + n ≤ len + 1
      · rw [access, if_pos h, ← Nat.add_assoc]
        exact ih _
      · rw [access, if_neg h]
        exact .inr (isErr_foldl (isErr_or _))

end Position

section Cursor

def stride (tp : Cistpl w) : Nat := if isAm tp.flags then 2 else 1

def byteAt (tp : Cistpl w) (i : Nat) : BitVec w := tp.data + BitVec.ofNat w (stride tp * i)

def cursor (tp : Cistpl w) (p : Nat × BitVec 32) : Cursor w :=
  ⟨{ tp with read := byteAt tp p.1, flags := p.2 }, (List.range p.1).map (byteAt tp)⟩

structure Reached (tp : Cistpl w) (p : Nat × BitVec 32) : Prop where
  le : p.1 ≤ tp.len.toNat + 1
  am : isAm p.2 = isAm tp.flags

theorem isAm_or_memErr (flags : BitVec 32) : isAm (flags ||| memErr) = isAm flags := by
  rw [isAm, isAm, BitVec.and_or_distrib_right]
  exact congrArg (· != 0#32) BitVec.or_zero

theorem Reached.access (h : Reached tp p) (n : Nat) : Reached tp (access tp.len.toNat p n) := by
  rw [Inside.access]
  split
  next hle => exact ⟨hle, h.am⟩
  next => exact ⟨h.le, (isAm_or_memErr p.2).trans h.am⟩

theorem Reached.foldl (h : Reached tp p) (ns : List Nat) : Reached tp (ns.foldl (Inside.access tp.len.toNat) p) := by
  induction ns generalizing p with
  | nil => exact h
  | cons n ns ih => exact ih (h.access n)

theorem next_cursor {n : Nat} (hn : stride tp = n) (d : Nat) (f : BitVec 32) :
    (next mem n (cursor tp (d, f))).2 = cursor tp (d + 1, f) := by
  subst hn
  have hread : byteAt tp d + BitVec.ofNat w (stride tp) = byteAt tp (d + 1) := by
    rw [byteAt, byteAt, BitVec.add_assoc, ← BitVec.ofNat_add, Nat.mul_succ]
  simp only [next, cursor, hread, List.range_succ, List.map_append, List.map_singleton]

theorem fail_cursor (p : Nat × BitVec 32) : (fail (cursor tp p)).2 = cursor tp (p.1, p.2 ||| memErr) := rfl

theorem toNat_len (hw : 32 ≤ w) : (tp.len.setWidth w).toNat = tp.len.toNat := by
  have hlt := tp.len.isLt
  have hpow : 2 ^ 32 ≤ 2 ^ w := Nat.pow_le_pow_right (by decide) hw
  rw [BitVec.toNat_setWidth, Nat.mod_eq_of_lt (by omega)]

theorem stride_le : stride tp ≤ 2 := by
  rw [stride]
  split <;> decide

theorem toNat_read_sub (hw : 32 ≤ w) {n : Nat} (hn : n ≤ 300) :
    (byteAt tp n - tp.data).toNat = stride tp * n := by
  have hpow : 2 ^ 32 ≤ 2 ^ w := Nat.pow_le_pow_right (by decide) hw
  have hle : stride tp * n ≤ 2 * 300 := Nat.mul_le_mul stride_le hn
  rw [byteAt, BitVec.add_comm, BitVec.add_sub_cancel, BitVec.toNat_ofNat, Nat.mod_eq_of_lt (by omega)]

theorem stride_cm (ham : isAm tp.flags = false) : stride tp = 1 := by
  rw [stride, ham, if_neg Bool.false_ne_true]

theorem stride_am (ham : isAm tp.flags = true) : stride tp = 2 := by
  rw [stride, ham, if_pos rfl]

theorem getCmByte_eq (hw : 32 ≤ w) (ham : isAm tp.flags = false) (hp : Reached tp p) :
    getCmByte mem (cursor tp p) =
      if p.1 + 1 ≤ tp.len.toNat + 1 then next mem 1 (cursor tp p) else fail (cursor tp p) := by
  have hlen := tp.len.isLt
  have hle := hp.le
  have hcheck : byteAt tp p.1 - tp.data ≤ tp.len.setWidth w ↔ p.1 + 1 ≤ tp.len.toNat + 1 := by
    rw [BitVec.le_def, toNat_read_sub hw (by omega), toNat_len hw, stride_cm ham]
    omega
  change (if byteAt tp p.1 - tp.data ≤ tp.len.setWidth w then next mem 1 (cursor tp p) else _) = _
  simp only [hcheck]

theorem getCmByte_cursor (hw : 32 ≤ w) (ham : isAm tp.flags = false) (hp : Reached tp p) :
    (getCmByte mem (cursor tp p)).2 = cursor tp (access tp.len.toNat p 1) := by
  rw [getCmByte_eq hw ham hp, access]
  split
  · exact next_cursor (stride_cm ham) p.1 p.2
  · exact fail_cursor p

theorem getCmPair_eq (hw : 32 ≤ w) (ham : isAm tp.flags = false) (hp : Reached tp p)
    (join : BitVec 32 → BitVec 32 → BitVec 32) :
    getCmPair mem join (cursor tp p) =
      if p.1 + 2 ≤ tp.len.toNat + 1 then both (next mem 1) (next mem 1) join (cursor tp p) else fail (cursor tp p) := by
  have hlen := tp.len.isLt
  have hle := hp.le
  have hpow : 2 ^ 32 ≤ 2 ^ w := Nat.pow_le_pow_right (by decide) hw
  have hcheck : byteAt tp p.1 - tp.data + 1#w ≤ tp.len.setWidth w ↔ p.1 + 2 ≤ tp.len.toNat + 1 := by
    rw [BitVec.le_def, BitVec.toNat_add, toNat_read_sub hw (by omega), toNat_len hw, stride_cm ham, BitVec.toNat_ofNat,
      Nat.mod_eq_of_lt (a := 1) (by omega), Nat.mod_eq_of_lt (by omega)]
    omega
  change (if byteAt tp p.1 - tp.data + 1#w ≤ tp.len.setWidth w then both _ _ _ (cursor tp p) else _) = _
  simp only [hcheck]

theorem getCmPair_cursor (hw : 32 ≤ w) (ham : isAm tp.flags = false) (hp : Reached tp p)
    (join : BitVec 32 → BitVec 32 → BitVec 32) :
    (getCmPair mem join (cursor tp p)).2 = cursor tp (access tp.len.toNat p 2) := by
  rw [getCmPair_eq hw ham hp, access]
  split
  · have hfirst : (next mem 1 (cursor tp p)).2 = cursor tp (p.1 + 1, p.2) := next_cursor (stride_cm ham) p.1 p.2
    rw [both, hfirst]
    exact (next_cursor (stride_cm ham) (p.1 + 1) p.2 : (next mem 1 _).2 = _)
  · exact fail_cursor p

theorem getAmByte_eq (hw : 32 ≤ w) (ham : isAm tp.flags = true) (hp : Reached tp p) :
    getAmByte mem (cursor tp p) =
      if p.1 + 1 ≤ tp.len.toNat + 1 then next mem 2 (cursor tp p) else fail (cursor tp p) := by
  have hlen := tp.len.isLt
  have hle := hp.le
  have hcheck : (byteAt tp p.1 - tp.data) >>> 1 ≤ tp.len.setWidth w ↔ p.1 + 1 ≤ tp.len.toNat + 1 := by
    rw [BitVec.le_def, BitVec.toNat_ushiftRight, toNat_read_sub hw (by omega), toNat_len hw, stride_am ham,
      Nat.shiftRight_eq_div_pow]
    omega
  change (if (byteAt tp p.1 - tp.data) >>> 1 ≤ tp.len.setWidth w then next mem 2 (cursor tp p) else _) = _
  simp only [hcheck]

theorem getAmByte_cursor (hw : 32 ≤ w) (ham : isAm tp.flags = true) (hp : Reached tp p) :
    (getAmByte mem (cursor tp p)).2 = cursor tp (access tp.len.toNat p 1) := by
  rw [getAmByte_eq hw ham hp, access]
  split
  · exact next_cursor (stride_am ham) p.1 p.2
  · exact fail_cursor p

def accesses (am : Bool) : Get → List Nat
  | .byte => [1]
  | .short | .beShort => if am then [1, 1] else [2]
  | .int24 => if am then [1, 1, 1] else [2, 1]
  | .long => if am then [1, 1, 1, 1] else [2, 2]

theorem sum_accesses (am : Bool) (get : Get) : (accesses am get).sum = get.bytes := by
  cases am <;> cases get <;> rfl

/-- A reader makes these reads wherever it starts. -/
def Makes (tp : Cistpl w) (f : Cursor w → BitVec 32 × Cursor w) (ns : List Nat) : Prop :=
  ∀ p, Reached tp p → (f (cursor tp p)).2 = cursor tp (ns.foldl (access tp.len.toNat) p)

theorem Makes.both {f g : Cursor w → BitVec 32 × Cursor w} {ms ns : List Nat} (hf : Makes tp f ms) (hg : Makes tp g ns)
    (join : BitVec 32 → BitVec 32 → BitVec 32) : Makes tp (both f g join) (ms ++ ns) := by
  intro p hp
  change (g (f (cursor tp p)).2).2 = _
  rw [hf p hp, hg _ (hp.foldl ms), List.foldl_append]

theorem Makes.inSpace {am cm : Cursor w → BitVec 32 × Cursor w} {get : Get}
    (ham : isAm tp.flags = true → Makes tp am (accesses true get))
    (hcm : isAm tp.flags = false → Makes tp cm (accesses false get)) :
    Makes tp (inSpace am cm) (accesses (isAm tp.flags) get) := by
  intro p hp
  change (if isAm p.2 then am (cursor tp p) else cm (cursor tp p)).2 = _
  rw [hp.am]
  cases h : isAm tp.flags with
  | false => exact hcm h p hp
  | true => exact ham h p hp

theorem makes_run (hw : 32 ≤ w) (get : Get) : Makes tp (get.run mem) (accesses (isAm tp.flags) get) := by
  have ham (h : isAm tp.flags = true) : Makes tp (getAmByte mem) [1] := fun p hp => getAmByte_cursor hw h hp
  have hamShort (h : isAm tp.flags = true) : Makes tp (getAmShort mem) [1, 1] := (ham h).both (ham h) _
  have hcm (h : isAm tp.flags = false) : Makes tp (getCmByte mem) [1] := fun p hp => getCmByte_cursor hw h hp
  have hcmShort (h : isAm tp.flags = false) : Makes tp (getCmShort mem) [2] :=
    fun p hp => getCmPair_cursor hw h hp _
  cases get with
  | byte => exact .inSpace ham hcm
  | short => exact .inSpace hamShort hcmShort
  | beShort => exact .inSpace (fun h => (ham h).both (ham h) _) (fun h p hp => getCmPair_cursor hw h hp _)
  | int24 => exact .inSpace (fun h => (hamShort h).both (ham h) _) (fun h => (hcmShort h).both (hcm h) _)
  | long => exact .inSpace (fun h => (hamShort h).both (hamShort h) _) (fun h => (hcmShort h).both (hcmShort h) _)

def position (tp : Cistpl w) (gets : List Get) : Nat × BitVec 32 :=
  (gets.flatMap (accesses (isAm tp.flags))).foldl (access tp.len.toNat) (0, tp.flags)

theorem reached_position (tp : Cistpl w) (gets : List Get) : Reached tp (position tp gets) :=
  Reached.foldl ⟨Nat.zero_le _, rfl⟩ _

theorem after_eq (hw : 32 ≤ w) (hread : tp.read = tp.data) (gets : List Get) :
    after mem tp gets = cursor tp (position tp gets) := by
  induction gets using List.reverseRecOn with
  | nil =>
      have hstart : byteAt tp 0 = tp.read := by
        rw [byteAt, Nat.mul_zero, hread]
        exact BitVec.add_zero _
      rw [position, List.flatMap_nil, List.foldl_nil, cursor, hstart]
      rfl
  | append_singleton gets get ih =>
      rw [after, List.foldl_append, position, List.flatMap_append, List.foldl_append, List.flatMap_singleton]
      exact (congrArg (fun c => (get.run mem c).2) ih).trans (makes_run hw get _ (reached_position tp gets))

theorem toNat_getLen (hw : 32 ≤ w) (hp : Reached tp p) :
    (getLen (cursor tp p).tp).toNat + p.1 = tp.len.toNat ↔ p.1 ≤ tp.len.toNat := by
  have hlen := tp.len.isLt
  have hle := hp.le
  have hpow : 2 ^ 32 ≤ 2 ^ w := Nat.pow_le_pow_right (by decide) hw
  have hsub : (getLen (cursor tp p).tp).toNat = (2 ^ w - p.1 + tp.len.toNat) % 2 ^ w := by
    have hdist : (byteAt tp p.1 - tp.data).toNat = _ := toNat_read_sub hw (by omega)
    have hflags : isAm (cursor tp p).tp.flags = isAm tp.flags := hp.am
    rw [stride] at hdist
    cases ham : isAm tp.flags with
    | false =>
        rw [ham, if_neg Bool.false_ne_true, Nat.one_mul] at hdist
        rw [getLen, hflags, ham, if_neg Bool.false_ne_true, getCmLen, BitVec.toNat_sub]
        change (2 ^ w - (byteAt tp p.1 - tp.data).toNat + (tp.len.setWidth w).toNat) % 2 ^ w = _
        rw [hdist, toNat_len hw]
    | true =>
        rw [ham, if_pos rfl] at hdist
        rw [getLen, hflags, ham, if_pos rfl, getAmLen, BitVec.toNat_sub, BitVec.toNat_ushiftRight]
        change (2 ^ w - (byteAt tp p.1 - tp.data).toNat >>> 1 + (tp.len.setWidth w).toNat) % 2 ^ w = _
        rw [hdist, toNat_len hw, Nat.shiftRight_eq_div_pow, Nat.mul_div_cancel_left _ (by decide)]
  rw [hsub]
  constructor
  · omega
  · intro h
    rw [show 2 ^ w - p.1 + tp.len.toNat = (tp.len.toNat - p.1) + 2 ^ w by omega, Nat.add_mod_right,
      Nat.mod_eq_of_lt (by omega)]
    omega

end Cursor

/-- Only bytes of the tuple are read, and `GET_LEN` is the number of those that
are left. -/
def OnlyInside (tp : Cistpl w) (c : Cursor w) : Prop :=
  (∀ a ∈ c.touched, ∃ i < tp.len.toNat, a = byteAt tp i) ∧ (getLen c.tp).toNat + c.touched.length = tp.len.toNat

/-- After each of the macros only bytes of the tuple are read, and one that asked
for more than were left has set `CISTPLF_MEM_ERR`. -/
def StaysInside (mem : BitVec w → BitVec 8) (tp : Cistpl w) (gets : List Get) : Prop :=
  ∀ done get, done ++ [get] <+: gets → OnlyInside tp (after mem tp (done ++ [get])) ∧
    (tp.len.toNat < (after mem tp done).touched.length + get.bytes →
      IsErr (after mem tp (done ++ [get])).tp.flags)

theorem inside_iff (hw : 32 ≤ w) (hp : Reached tp p) : OnlyInside tp (cursor tp p) ↔ p.1 ≤ tp.len.toNat := by
  have hlength : (cursor tp p).touched.length = p.1 := by rw [cursor, List.length_map, List.length_range]
  rw [OnlyInside, hlength, toNat_getLen hw hp]
  refine and_iff_right_of_imp fun hle a ha => ?_
  obtain ⟨i, hi, rfl⟩ := List.mem_map.mp ha
  exact ⟨i, (List.mem_range.mp hi).trans_le hle, rfl⟩

theorem stays_inside_iff (hw : 32 ≤ w) (hread : tp.read = tp.data) (gets : List Get) :
    StaysInside mem tp gets ↔
      fits tp.len.toNat 0 (gets.flatMap (accesses (isAm tp.flags))) = true := by
  rw [fits_iff (f := tp.flags) (Nat.zero_le _)]
  change _ ↔ (position tp gets).1 ≤ tp.len.toNat
  constructor
  · intro h
    rcases List.eq_nil_or_concat gets with rfl | ⟨done, get, rfl⟩
    · exact Nat.zero_le _
    · rw [List.concat_eq_append] at h ⊢
      have hinside := (h done get (List.prefix_refl _)).1
      rw [after_eq hw hread] at hinside
      exact (inside_iff hw (reached_position tp _)).mp hinside
  · rintro hle done get ⟨rest, rfl⟩
    have hmono : (position tp (done ++ [get])).1 ≤ tp.len.toNat := by
      refine le_trans ?_ hle
      nth_rewrite 2 [position]
      rw [List.flatMap_append, List.foldl_append]
      exact le_foldl_access _ _ _
    rw [after_eq hw hread, after_eq hw hread]
    refine ⟨(inside_iff hw (reached_position tp _)).mpr hmono, fun hmore => ?_⟩
    rw [cursor, List.length_map, List.length_range] at hmore
    rw [position, List.flatMap_append, List.foldl_append, List.flatMap_singleton] at hmono ⊢
    refine (sum_or_isErr (position tp done)).resolve_left fun hsum => ?_
    rw [sum_accesses] at hsum
    exact absurd (hsum.symm.le.trans hmono) hmore.not_ge

def tupleOf (n : BitVec 8) : Cistpl 32 := ⟨n, 0#32, 0#32, 0#32⟩

theorem stays_inside_short_byte : StaysInside (fun _ => 0#8) (tupleOf 3) [.short, .byte] :=
  (stays_inside_iff (by decide) rfl _).mpr (by decide)

/-- `GET_BYTE` reads the byte after the last one, does not set the flag, and
`GET_LEN` wraps. -/
theorem byte_past_end : ¬ StaysInside (fun _ => 0#8) (tupleOf 1) [.byte, .byte] ∧
    (after (fun _ => 0#8) (tupleOf 1) [.byte, .byte]).touched = [byteAt (tupleOf 1) 0, byteAt (tupleOf 1) 1] ∧
    (after (fun _ => 0#8) (tupleOf 1) [.byte, .byte]).tp.flags = 0#32 ∧
    getLen (after (fun _ => 0#8) (tupleOf 1) [.byte, .byte]).tp = 0xffffffff#32 := by
  refine ⟨fun h => ?_, by decide, by decide, by decide⟩
  obtain ⟨i, hi, heq⟩ := (h [.byte] .byte (List.prefix_refl _)).1.1 1#32 (by decide)
  obtain rfl : i = 0 := Nat.lt_one_iff.mp hi
  exact absurd heq (by decide)

end SysvDev.Cis.Inside
