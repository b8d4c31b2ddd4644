import Mathlib.Data.Nat.Digits.Defs
import SysvDev.Cis.Inside

namespace SysvDev.Cis.Spaces

open Readers Inside

variable {w : Nat} {mem : BitVec w → BitVec 8} {tp : Cistpl w} {contents : List (BitVec 8)}

/-- A macro that reads, or `GET_LEN`. -/
inductive Request
  | get (g : Get)
  | len
  deriving DecidableEq

def Request.bytes : Request → Nat
  | get g => g.bytes
  | len => 0

/-- The results are of type `int` and of type `size_t`. -/
inductive Value (w : Nat)
  | int (v : BitVec 32)
  | size (n : BitVec w)
  deriving DecidableEq

def Request.run (mem : BitVec w → BitVec 8) (c : Cursor w) : Request → Value w × Cursor w
  | get g => (.int (g.run mem c).1, (g.run mem c).2)
  | len => (.size (getLen c.tp), c)

def results (mem : BitVec w → BitVec 8) : List Request → Cursor w → List (Value w) × Cursor w
  | [], c => ([], c)
  | r :: rs, c =>
      let a := r.run mem c
      let b := results mem rs a.2
      (a.1 :: b.1, b.2)

def total (rs : List Request) : Nat := (rs.map Request.bytes).sum

section Expected

def little (bytes : List (BitVec 8)) : Nat := Nat.ofDigits 256 (bytes.map BitVec.toNat)

def valueOf (bytes : List (BitVec 8)) : Get → BitVec 32
  | .beShort => BitVec.ofNat 32 (little bytes.reverse)
  | _ => BitVec.ofNat 32 (little bytes)

/-- The results for the contents of a tuple of which `d` bytes are read. -/
def expected (w : Nat) (contents : List (BitVec 8)) : Nat → List Request → List (Value w)
  | _, [] => []
  | d, .get g :: rs => .int (valueOf ((contents.drop d).take g.bytes) g) :: expected w contents (d + g.bytes) rs
  | d, .len :: rs => .size (BitVec.ofNat w (contents.length - d)) :: expected w contents d rs

end Expected

/-- The tuple has these contents, and nothing of it is read. -/
structure Has (mem : BitVec w → BitVec 8) (tp : Cistpl w) (contents : List (BitVec 8)) : Prop where
  len : tp.len.toNat = contents.length
  read : tp.read = tp.data
  bytes : ∀ i (h : i < contents.length), mem (byteAt tp i) = contents[i]

section Readers

variable {f g : Cursor w → BitVec 32 × Cursor w} {m n : Nat} {u v : Nat → BitVec 32}

/-- A reader that has `n` bytes left gives the value and moves on. -/
def Gives (tp : Cistpl w) (f : Cursor w → BitVec 32 × Cursor w) (n : Nat) (v : Nat → BitVec 32) : Prop :=
  ∀ d, d + n ≤ tp.len.toNat → f (cursor tp (d, tp.flags)) = (v d, cursor tp (d + n, tp.flags))

theorem Gives.both (hf : Gives tp f m u) (hg : Gives tp g n v) (join : BitVec 32 → BitVec 32 → BitVec 32) :
    Gives tp (both f g join) (m + n) fun d => join (u d) (v (d + m)) := by
  intro d hd
  have hfirst := hf d (by omega)
  have hsecond := hg (d + m) (by omega)
  simp only [Readers.both, hfirst, hsecond, Nat.add_assoc]

theorem Gives.inSpace {am cm : Cursor w → BitVec 32 × Cursor w} (ham : isAm tp.flags = true → Gives tp am n v)
    (hcm : isAm tp.flags = false → Gives tp cm n v) : Gives tp (inSpace am cm) n v := by
  intro d hd
  change (if isAm tp.flags then am (cursor tp (d, tp.flags)) else cm (cursor tp (d, tp.flags))) = _
  cases h : isAm tp.flags with
  | false => exact hcm h d hd
  | true => exact ham h d hd

def byteVal (mem : BitVec w → BitVec 8) (tp : Cistpl w) (i : Nat) : BitVec 32 := (mem (byteAt tp i)).setWidth 32

theorem reached_of_le {d : Nat} (h : d ≤ tp.len.toNat + 1) : Reached tp (d, tp.flags) := ⟨h, rfl⟩

theorem gives_next (hn : stride tp = n) : Gives tp (next mem n) 1 (byteVal mem tp) :=
  fun d _ => Prod.ext rfl (next_cursor hn d tp.flags)

theorem gives_getCmByte (hw : 32 ≤ w) (hcm : isAm tp.flags = false) : Gives tp (getCmByte mem) 1 (byteVal mem tp) := by
  intro d hd
  rw [getCmByte_eq hw hcm (reached_of_le (by omega)), if_pos (Nat.le_succ_of_le hd)]
  exact gives_next (stride_cm hcm) d hd

theorem gives_getCmPair (hw : 32 ≤ w) (hcm : isAm tp.flags = false) (join : BitVec 32 → BitVec 32 → BitVec 32) :
    Gives tp (getCmPair mem join) 2 fun d => join (byteVal mem tp d) (byteVal mem tp (d + 1)) := by
  intro d hd
  rw [getCmPair_eq hw hcm (reached_of_le (by omega)), if_pos (Nat.le_succ_of_le hd)]
  exact (gives_next (stride_cm hcm)).both (gives_next (stride_cm hcm)) join d hd

theorem gives_getAmByte (hw : 32 ≤ w) (ham : isAm tp.flags = true) : Gives tp (getAmByte mem) 1 (byteVal mem tp) := by
  intro d hd
  rw [getAmByte_eq hw ham (reached_of_le (by omega)), if_pos (Nat.le_succ_of_le hd)]
  exact gives_next (stride_am ham) d hd

/-- What a macro makes of the bytes from a position on. -/
def assembled (b : Nat → BitVec 32) : Get → Nat → BitVec 32
  | .byte, d => b d
  | .short, d => b d ||| b (d + 1) <<< 8
  | .beShort, d => b d <<< 8 ||| b (d + 1)
  | .int24, d => (b d ||| b (d + 1) <<< 8) ||| b (d + 2) <<< 16
  | .long, d => (b d ||| b (d + 1) <<< 8) ||| (b (d + 2) ||| b (d + 2 + 1) <<< 8) <<< 16

theorem gives_run (hw : 32 ≤ w) (g : Get) : Gives tp (g.run mem) g.bytes (assembled (byteVal mem tp) g) := by
  have ham (h : isAm tp.flags = true) : Gives tp (getAmByte mem) 1 (byteVal mem tp) := gives_getAmByte hw h
  have hcm (h : isAm tp.flags = false) : Gives tp (getCmByte mem) 1 (byteVal mem tp) := gives_getCmByte hw h
  have hamShort (h : isAm tp.flags = true) : Gives tp (getAmShort mem) 2 (assembled (byteVal mem tp) .short) :=
    (ham h).both (ham h) _
  have hcmShort (h : isAm tp.flags = false) : Gives tp (getCmShort mem) 2 (assembled (byteVal mem tp) .short) :=
    gives_getCmPair hw h _
  cases g with
  | byte => exact .inSpace ham hcm
  | short => exact .inSpace hamShort hcmShort
  | beShort => exact .inSpace (fun h => (ham h).both (ham h) _) (fun h => gives_getCmPair hw h _)
  | int24 => exact .inSpace (fun h => (hamShort h).both (ham h) _) (fun h => (hcmShort h).both (hcm h) _)
  | long => exact .inSpace (fun h => (hamShort h).both (hamShort h) _) (fun h => (hcmShort h).both (hcmShort h) _)

end Readers

section Digits

theorem toNat_or_shiftLeft {a b : BitVec 32} {k : Nat} (ha : a.toNat < 2 ^ k) (hb : b.toNat * 2 ^ k < 2 ^ 32) :
    (a ||| b <<< k).toNat = a.toNat + 2 ^ k * b.toNat := by
  rw [BitVec.or_comm, BitVec.toNat_or, BitVec.toNat_shiftLeft, Nat.shiftLeft_eq, Nat.mod_eq_of_lt hb, ← Nat.shiftLeft_eq,
    ← Nat.shiftLeft_add_eq_or_of_lt ha, Nat.shiftLeft_eq, Nat.add_comm, Nat.mul_comm]

variable (x y z t : BitVec 8)

theorem short_eq : (x.setWidth 32 ||| y.setWidth 32 <<< 8).toNat = little [x, y] := by
  have hx := x.isLt
  have hy := y.isLt
  rw [toNat_or_shiftLeft] <;> simp only [BitVec.toNat_setWidth_of_le (by decide : 8 ≤ 32)]
  · simp [little, Nat.ofDigits_cons]
  · exact hx
  · omega

theorem int24_eq : ((x.setWidth 32 ||| y.setWidth 32 <<< 8) ||| z.setWidth 32 <<< 16).toNat = little [x, y, z] := by
  have hx := x.isLt
  have hy := y.isLt
  have hz := z.isLt
  have hshort := short_eq x y
  simp only [little, List.map_cons, List.map_nil, Nat.ofDigits_cons, Nat.ofDigits_nil] at hshort ⊢
  rw [toNat_or_shiftLeft] <;> simp only [BitVec.toNat_setWidth_of_le (by decide : 8 ≤ 32), hshort]
  all_goals omega

theorem long_eq : ((x.setWidth 32 ||| y.setWidth 32 <<< 8) ||| (z.setWidth 32 ||| t.setWidth 32 <<< 8) <<< 16).toNat =
    little [x, y, z, t] := by
  have hx := x.isLt
  have hy := y.isLt
  have hz := z.isLt
  have ht := t.isLt
  have hlow := short_eq x y
  have hhigh := short_eq z t
  simp only [little, List.map_cons, List.map_nil, Nat.ofDigits_cons, Nat.ofDigits_nil] at hlow hhigh ⊢
  rw [toNat_or_shiftLeft] <;> simp only [hlow, hhigh]
  all_goals omega

end Digits

section Agreement

variable {d : Nat}

theorem take_drop_succ {n : Nat} (h : d < contents.length) :
    (contents.drop d).take (n + 1) = contents[d] :: (contents.drop (d + 1)).take n := by
  rw [List.drop_eq_getElem_cons h, List.take_succ_cons]

theorem eq_ofNat {v : BitVec 32} {n : Nat} (h : v.toNat = n) : v = BitVec.ofNat 32 n := by
  rw [← h, BitVec.ofNat_toNat, BitVec.setWidth_eq]

theorem assembled_eq (h : Has mem tp contents) {g : Get} (hd : d + g.bytes ≤ contents.length) :
    assembled (byteVal mem tp) g d = valueOf ((contents.drop d).take g.bytes) g := by
  have hbyte (i : Nat) (hi : i < contents.length) : byteVal mem tp i = contents[i].setWidth 32 := by
    rw [byteVal, h.bytes i hi]
  cases g with
  | byte =>
      rw [Get.bytes] at hd ⊢
      rw [take_drop_succ hd, List.take_zero, assembled, hbyte d hd]
      exact eq_ofNat ((BitVec.toNat_setWidth_of_le (by decide)).trans Nat.ofDigits_singleton.symm)
  | short =>
      rw [Get.bytes] at hd ⊢
      rw [take_drop_succ (by omega), take_drop_succ hd, List.take_zero, assembled, hbyte d (by omega), hbyte (d + 1) hd]
      exact eq_ofNat (short_eq _ _)
  | beShort =>
      rw [Get.bytes] at hd ⊢
      rw [take_drop_succ (by omega), take_drop_succ hd, List.take_zero, assembled, hbyte d (by omega), hbyte (d + 1) hd,
        BitVec.or_comm]
      exact eq_ofNat (short_eq _ _)
  | int24 =>
      rw [Get.bytes] at hd ⊢
      rw [take_drop_succ (by omega), take_drop_succ (by omega), take_drop_succ hd, List.take_zero, assembled,
        hbyte d (by omega), hbyte (d + 1) (by omega), hbyte (d + 2) hd]
      exact eq_ofNat (int24_eq _ _ _)
  | long =>
      rw [Get.bytes] at hd ⊢
      rw [take_drop_succ (by omega), take_drop_succ (by omega), take_drop_succ (by omega), take_drop_succ hd,
        List.take_zero, assembled, hbyte d (by omega), hbyte (d + 1) (by omega), hbyte (d + 2) (by omega),
        hbyte (d + 2 + 1) hd]
      exact eq_ofNat (long_eq _ _ _ _)

theorem getLen_cursor (hw : 32 ≤ w) (h : Has mem tp contents) (hd : d ≤ contents.length) :
    getLen (cursor tp (d, tp.flags)).tp = BitVec.ofNat w (contents.length - d) := by
  have hle : d ≤ tp.len.toNat := by rwa [h.len]
  have hsum := (toNat_getLen hw (p := (d, tp.flags)) (reached_of_le (Nat.le_succ_of_le hle))).mpr hle
  have hnat : (getLen (cursor tp (d, tp.flags)).tp).toNat = contents.length - d := by
    rw [← h.len]
    exact Nat.eq_sub_of_add_eq hsum
  rw [← hnat, BitVec.ofNat_toNat, BitVec.setWidth_eq]

theorem results_cursor (hw : 32 ≤ w) (h : Has mem tp contents) {rs : List Request} (hd : d + total rs ≤ contents.length) :
    results mem rs (cursor tp (d, tp.flags)) = (expected w contents d rs, cursor tp (d + total rs, tp.flags)) := by
  induction rs generalizing d with
  | nil => rfl
  | cons r rs ih =>
      have htotal : total (r :: rs) = r.bytes + total rs := by
        rw [total, List.map_cons, List.sum_cons, total]
      rw [htotal, ← Nat.add_assoc] at hd ⊢
      cases r with
      | get g =>
          rw [Request.bytes] at hd ⊢
          have hg : d + g.bytes ≤ contents.length := Nat.le_of_add_right_le hd
          have hrun : g.run mem (cursor tp (d, tp.flags)) = _ := gives_run hw g d (by rwa [h.len])
          rw [assembled_eq h hg] at hrun
          simp only [results, Request.run, hrun, ih hd, expected]
      | len =>
          rw [Request.bytes, Nat.add_zero] at hd ⊢
          simp only [results, Request.run, getLen_cursor hw h (Nat.le_of_add_right_le hd), ih hd, expected]

theorem cursor_zero (h : Has mem tp contents) : cursor tp (0, tp.flags) = ⟨tp, []⟩ := by
  have hstart : byteAt tp 0 = tp.read := by
    rw [byteAt, Nat.mul_zero, h.read]
    exact BitVec.add_zero _
  rw [cursor, hstart]
  rfl

/-- The readers do not depend on the space that a tuple is held in. -/
theorem cis_spaces_agree (hw : 32 ≤ w) {memA memC : BitVec w → BitVec 8} {am cm : Cistpl w} (ha : Has memA am contents)
    (hc : Has memC cm contents) {rs : List Request} (hrs : total rs ≤ contents.length) :
    (results memA rs ⟨am, []⟩).1 = (results memC rs ⟨cm, []⟩).1 ∧
    (results memA rs ⟨am, []⟩).1 = expected w contents 0 rs ∧
    (results memA rs ⟨am, []⟩).2.tp.flags = am.flags ∧ (results memC rs ⟨cm, []⟩).2.tp.flags = cm.flags := by
  have hA := results_cursor (d := 0) hw ha (by rwa [Nat.zero_add])
  have hC := results_cursor (d := 0) hw hc (by rwa [Nat.zero_add])
  rw [cursor_zero ha] at hA
  rw [cursor_zero hc] at hC
  rw [hA, hC]
  exact ⟨rfl, rfl, rfl, rfl⟩

def sampleCm : Cistpl 32 := ⟨7, 16#32, 16#32, 0#32⟩

def sampleAm : Cistpl 32 := ⟨7, 16#32, 16#32, amSpace⟩

theorem cis_spaces_agree_seven :
    (results (fun a => ((a - 16#32) >>> 1 + 1#32).setWidth 8) [.get .beShort, .len, .get .long] ⟨sampleAm, []⟩).1 =
      [.int 0x102#32, .size 5#32, .int 0x6050403#32] ∧
    (results (fun a => (a - 15#32).setWidth 8) [.get .beShort, .len, .get .long] ⟨sampleCm, []⟩).1 =
      [.int 0x102#32, .size 5#32, .int 0x6050403#32] := by
  have ha : Has (fun a => ((a - 16#32) >>> 1 + 1#32).setWidth 8) sampleAm [1, 2, 3, 4, 5, 6, 7] :=
    ⟨rfl, rfl, by decide⟩
  have hc : Has (fun a => (a - 15#32).setWidth 8) sampleCm [1, 2, 3, 4, 5, 6, 7] := ⟨rfl, rfl, by decide⟩
  have hsame := @cis_spaces_agree 32 _ (by decide) _ _ _ _ ha hc [.get .beShort, .len, .get .long] (by decide)
  have hexpected : expected 32 [1, 2, 3, 4, 5, 6, 7] 0 [.get .beShort, .len, .get .long] =
      [.int 0x102#32, .size 5#32, .int 0x6050403#32] := by decide
  exact ⟨hsame.2.1.trans hexpected, hsame.1.symm.trans (hsame.2.1.trans hexpected)⟩

end Agreement

end SysvDev.Cis.Spaces
