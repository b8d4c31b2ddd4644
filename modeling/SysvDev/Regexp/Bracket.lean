import SysvDev.Regexp.Contents

namespace SysvDev.Regexp.Bracket

open StateTransition Transition Function Opcode Compile Moves Program Image Contents

/-- The characters between the brackets, after the `^` if there is one. -/
structure BracketList where
  neg : Bool
  first : Byte
  rest : List Byte
  plain : ∀ c ∈ first :: rest, c ≠ 0#8 ∧ c ≠ 10#8
  inside : ∀ c ∈ rest, c ≠ 93#8
  caret : neg = false → first ≠ 94#8

def BracketList.text (b : BracketList) : List Byte :=
  91#8 :: ((if b.neg then [94#8] else []) ++ (b.first :: b.rest) ++ [93#8])

/-- The pairs of ends that are listed after `lo`. A dash stands for a range
unless it is the last character. -/
def ranges (lo : Byte) : List Byte → List (Byte × Byte)
  | [] => []
  | [c] => [(c, c)]
  | c :: hi :: rest => if c = 45#8 then (lo, hi) :: ranges hi rest else (c, c) :: ranges c (hi :: rest)

def within (x : Byte) (r : Byte × Byte) : Bool := x == r.1 || x == r.2 || (r.1 ≤ x && x ≤ r.2)

def BracketList.lists (b : BracketList) (x : Byte) : Bool :=
  ((b.first, b.first) :: ranges b.first b.rest).any (within x)

def BracketList.denotes (b : BracketList) (x : Byte) : Bool :=
  if b.neg then x != 0#8 && !b.lists x else b.lists x

def BracketList.isWide (b : BracketList) : Bool := (b.first :: b.rest).any (·.msb)

theorem ranges_nonul {lo : Byte} {rest : List Byte} (hlo : lo ≠ 0#8) (hrest : ∀ c ∈ rest, c ≠ 0#8) :
    ∀ r ∈ ranges lo rest, r.1 ≠ 0#8 ∧ r.2 ≠ 0#8 := by
  fun_induction ranges lo rest with
  | case1 lo => exact fun _ h => by cases h
  | case2 lo c =>
      intro r hr
      rw [List.mem_singleton.mp hr]
      exact ⟨hrest c (by simp), hrest c (by simp)⟩
  | case3 lo hi rest ih =>
      have hhi := hrest hi (by simp)
      intro r hr
      obtain rfl | hr := List.mem_cons.mp hr
      · exact ⟨hlo, hhi⟩
      · exact ih hhi (fun c hc => hrest c (by simp [hc])) r hr
  | case4 lo c hi rest _ ih =>
      have hc := hrest c (by simp)
      intro r hr
      obtain rfl | hr := List.mem_cons.mp hr
      · exact ⟨hc, hc⟩
      · exact ih hc (fun d hd => hrest d (List.mem_cons_of_mem _ hd)) r hr

/-- NUL is in no set. -/
theorem BracketList.denotes_zero (b : BracketList) : b.denotes 0#8 = false := by
  have hfirst := (b.plain b.first (by simp)).1
  have hlists : b.lists 0#8 = false := by
    rw [BracketList.lists, List.any_eq_false]
    intro r hr
    have hne : r.1 ≠ 0#8 ∧ r.2 ≠ 0#8 := by
      obtain rfl | hr := List.mem_cons.mp hr
      · exact ⟨hfirst, hfirst⟩
      · exact ranges_nonul hfirst (fun c hc => (b.plain c (by simp [hc])).1) r hr
    have hle : ¬ r.1 ≤ 0#8 := fun h => hne.1 (BitVec.le_zero_iff.mp h)
    simp [within, hne.1.symm, hne.2.symm, hle]
  simp [BracketList.denotes, hlists]

section Bits

variable {mem : Nat → Byte} {ep : Nat}

def bit (mem : Nat → Byte) (ep x : Nat) : Bool := (mem (ep + x / 8)).getLsbD (x % 8)

def setBit (mem : Nat → Byte) (ep x : Nat) : Nat → Byte :=
  update mem (ep + x / 8) (mem (ep + x / 8) ||| bittab (x % 8))

def setBits (mem : Nat → Byte) (ep lc : Nat) : Nat → Nat → Byte
  | 0 => mem
  | n + 1 => setBits (setBit mem ep lc) ep (lc + 1) n

theorem getLsbD_bittab {i j : Nat} (hj : j < 8) : (bittab i).getLsbD j = decide (j = i) := by
  rw [bittab, ← BitVec.twoPow_eq, BitVec.getLsbD_twoPow, Bool.eq_iff_iff]
  simp
  omega

theorem and_bittab (b : Byte) {i : Nat} (hi : i < 8) : ((b &&& bittab i) != 0#8) = b.getLsbD i := by
  have hne : BitVec.twoPow 8 i ≠ 0#8 := by
    intro h
    have hbit := congrArg (·.getLsbD i) h
    simp [hi] at hbit
  rw [bittab, ← BitVec.twoPow_eq, BitVec.and_twoPow]
  cases b.getLsbD i <;> simp [hne]

theorem bit_setBit (x y : Nat) : bit (setBit mem ep x) ep y = (bit mem ep y || decide (y = x)) := by
  by_cases hbyte : y / 8 = x / 8
  · rw [bit, bit, setBit, hbyte, update_self, BitVec.getLsbD_or, getLsbD_bittab (Nat.mod_lt y (by decide))]
    congr 2
    exact propext ⟨fun h => by omega, fun h => by rw [h]⟩
  · have hne : y ≠ x := by
      rintro rfl
      exact hbyte rfl
    rw [bit, bit, setBit, update_of_ne (by omega), decide_eq_false hne, Bool.or_false]

theorem setBit_below {x a : Nat} (ha : a < ep) : setBit mem ep x a = mem a :=
  update_of_ne (by omega) _ _

theorem bit_setBits (lc n y : Nat) :
    bit (setBits mem ep lc n) ep y = (bit mem ep y || (decide (lc ≤ y) && decide (y < lc + n))) := by
  induction n generalizing mem lc with
  | zero =>
      have h : (decide (lc ≤ y) && decide (y < lc + 0)) = false := by
        simp
      rw [setBits, h, Bool.or_false]
  | succ n ih =>
      rw [setBits, ih, bit_setBit, Bool.or_assoc]
      congr 1
      rw [Bool.eq_iff_iff]
      simp
      omega

theorem setBits_below {lc n a : Nat} (ha : a < ep) : setBits mem ep lc n a = mem a := by
  induction n generalizing mem lc with
  | zero => rfl
  | succ n ih => rw [setBits, ih, setBit_below ha]

variable {inp : Input} {s : State} {k : State → Cfg}

theorem place_eq {x : Nat} (hroom : s.ep + x / 8 < inp.endbuf) :
    place inp x s k = k { s with mem := setBit s.mem s.ep x } := by
  have haddr : (s.ep : Int) + (x : Int) / 8 = (s.ep + x / 8 : Nat) := by push_cast; rfl
  have hbit : ((x : Int) % 8).toNat = x % 8 := by omega
  simp only [place, haddr, hbit, Int.toNat_natCast, store, hroom, if_true]
  rw [if_neg (by omega)]
  rfl

theorem placeFrom_eq {n lc : Nat} (hroom : ∀ x, lc ≤ x → x < lc + n → s.ep + x / 8 < inp.endbuf) :
    placeFrom inp n lc s k = k { s with mem := setBits s.mem s.ep lc n } := by
  induction n generalizing lc s with
  | zero => rfl
  | succ n ih =>
      rw [placeFrom, place_eq (hroom lc (by omega) (by omega))]
      have ih := @ih { s with mem := setBit s.mem s.ep lc } (lc + 1) fun x hle hlt => hroom x (by omega) (by omega)
      exact ih

end Bits

section Reading

variable {inp : Input} {s : State} {c : Byte} {text : List Byte}

def Ahead (inp : Input) (s : State) (text : List Byte) : Prop := text <+: inp.pattern.drop s.sp

theorem Ahead.head (h : Ahead inp s (c :: text)) : inp.pattern[s.sp]? = some c := by
  obtain ⟨more, hmore⟩ := h
  have hget : (inp.pattern.drop s.sp)[0]? = inp.pattern[s.sp + 0]? := List.getElem?_drop
  rw [← hmore] at hget
  exact hget.symm

theorem Ahead.tail (h : Ahead inp s (c :: text)) : Ahead inp (readOne s) text := by
  obtain ⟨more, hmore⟩ := h
  refine ⟨more, ?_⟩
  rw [readOne, ← List.drop_drop, ← hmore]
  rfl

def skip (n : Nat) (s : State) : State := { s with sp := s.sp + n }

theorem skip_skip (m n : Nat) (s : State) : skip m (skip n s) = skip (n + m) s := by
  simp only [skip, Nat.add_assoc]

theorem Ahead.left {more : List Byte} (h : Ahead inp s (text ++ more)) : Ahead inp s text :=
  (List.prefix_append text more).trans h

theorem Ahead.skip {more : List Byte} (h : Ahead inp s (text ++ more)) :
    Ahead inp (Bracket.skip text.length s) more := by
  obtain ⟨rest, hrest⟩ := h
  refine ⟨rest, ?_⟩
  rw [Bracket.skip, ← List.drop_drop, ← hrest, List.append_assoc, List.drop_left]

theorem Ahead.of_sp {t : State} (h : Ahead inp s text) (hsp : t.sp = s.sp) : Ahead inp t text := by
  rw [Ahead, hsp]
  exact h

theorem getc_eq (h : inp.pattern[s.sp]? = some c) (k : Int → State → Cfg) :
    getc inp s k = k (inp.char c) (readOne s) := by
  rw [getc, h]
  rfl

theorem char_mod (inp : Input) (c : Byte) : inp.char c % 256 = c.toNat := by
  have := c.isLt
  unfold Input.char
  split
  · rw [BitVec.toInt_eq_toNat_bmod, Int.bmod_def]
    split <;> omega
  · omega

theorem char_of_lt (inp : Input) (hc : c.toNat < 128) : inp.char c = c.toNat := by
  unfold Input.char
  split
  · exact BitVec.toInt_eq_toNat_of_lt (by omega)
  · rfl

theorem decide_toNat_zero (c : Byte) : decide (c.toNat = 0) = (c == 0#8) := by
  rw [Bool.eq_iff_iff, decide_eq_true_iff, beq_iff_eq, ← BitVec.toNat_inj]
  rfl

theorem toNat_ne {b : Byte} (h : c ≠ b) : (c.toNat : Int) ≠ (b.toNat : Int) := by
  rw [Ne, Int.natCast_inj, BitVec.toNat_inj]
  exact h

end Reading

/-- A bracket list has been read up to some point: its map holds `set`. -/
structure Holds (inp : Input) (base : State) (iflag : Bool) (set : Byte → Bool) (s : State) : Prop where
  rest : s = { base with mem := s.mem, sp := s.sp }
  room : base.ep + mapSize iflag < inp.endbuf
  opcode : s.mem (base.ep - 1) = listOp iflag
  frame : ∀ a, a + 1 < base.ep → s.mem a = base.mem a
  bits : ∀ x : Byte, x.toNat < 8 * mapSize iflag → bit s.mem base.ep x.toNat = set x
  small : ∀ x : Byte, set x = true → x.toNat < 8 * mapSize iflag

section Steps

variable {inp : Input} {base s : State} {iflag neg : Bool} {set set' : Byte → Bool} {c hi : Byte}

theorem Holds.ep_eq (h : Holds inp base iflag set s) : s.ep = base.ep := by rw [h.rest]

theorem Holds.read (h : Holds inp base iflag set s) : Holds inp base iflag set (readOne s) := by
  refine ⟨?_, h.room, h.opcode, h.frame, h.bits, h.small⟩
  rw [h.rest]
  rfl

theorem Holds.inRoom (h : Holds inp base iflag set s) {x : Nat} (hx : x < 8 * mapSize iflag) :
    s.ep + x / 8 < inp.endbuf := by
  have := h.room
  rw [h.ep_eq]
  omega

theorem Holds.put (h : Holds inp base iflag set s) (hpos : 0 < base.ep) (hc : c.toNat < 8 * mapSize iflag) :
    Holds inp base iflag (fun x => set x || x == c) { s with mem := setBit s.mem s.ep c.toNat } := by
  have hep := h.ep_eq
  refine ⟨?_, h.room, ?_, fun a ha => ?_, fun x hx => ?_, fun x hx => ?_⟩
  · rw [h.rest]
  · rw [← h.opcode]
    exact setBit_below (by omega)
  · rw [← h.frame a ha]
    exact setBit_below (by omega)
  · rw [← h.bits x hx, ← hep]
    refine (bit_setBit c.toNat x.toNat).trans ?_
    congr 1
    rw [Bool.eq_iff_iff, decide_eq_true_iff, beq_iff_eq, BitVec.toNat_inj]
  · rw [Bool.or_eq_true, beq_iff_eq] at hx
    obtain hx | rfl := hx
    · exact h.small x hx
    · exact hc

theorem Holds.puts (h : Holds inp base iflag set s) (hpos : 0 < base.ep) (lo : Byte)
    (hhi : hi.toNat < 8 * mapSize iflag) :
    Holds inp base iflag (fun x => set x || (decide (lo ≤ x) && decide (x < hi)))
      { s with mem := setBits s.mem s.ep lo.toNat (hi.toNat - lo.toNat) } := by
  have hep := h.ep_eq
  refine ⟨?_, h.room, ?_, fun a ha => ?_, fun x hx => ?_, fun x hx => ?_⟩
  · rw [h.rest]
  · rw [← h.opcode]
    exact setBits_below (by omega)
  · rw [← h.frame a ha]
    exact setBits_below (by omega)
  · rw [← h.bits x hx, ← hep]
    refine (bit_setBits lo.toNat _ x.toNat).trans ?_
    congr 1
    rw [Bool.eq_iff_iff]
    simp only [Bool.and_eq_true, decide_eq_true_iff, BitVec.le_def, BitVec.lt_def]
    omega
  · simp only [Bool.or_eq_true, Bool.and_eq_true, decide_eq_true_iff, BitVec.lt_def] at hx
    obtain hx | hx := hx
    · exact h.small x hx
    · omega

theorem Holds.widen (h : Holds inp base iflag set s) (hpos : 0 < base.ep)
    (hwide : c.msb = true → base.ep + 32 < inp.endbuf) (k : Bool → State → Cfg) {x : Int} (hx : x % 256 = c.toNat) :
    ∃ s', widen inp x iflag s k = k (iflag && !c.msb) s' ∧ Holds inp base (iflag && !c.msb) set s' ∧ s'.sp = s.sp ∧
      c.toNat < 8 * mapSize (iflag && !c.msb) := by
  have hep := h.ep_eq
  have hlt := c.isLt
  have hmsb : c.msb = decide (128 ≤ x % 256) := by
    rw [BitVec.msb_eq_decide, hx, decide_eq_decide]
    omega
  unfold Compile.widen
  by_cases hhigh : 128 ≤ x % 256 ∧ iflag = true
  · obtain ⟨hhigh, rfl⟩ := hhigh
    have hc : c.msb = true := by rw [hmsb, decide_eq_true hhigh]
    have hroom := hwide hc
    have hbound := h.room
    simp only [mapSize, if_true] at hbound
    simp only [hhigh, and_self, if_true, hc, Bool.not_true, Bool.and_false]
    rw [if_neg (by omega), store, if_pos (by omega), storeAll]
    rw [if_pos (by simp only; omega)]
    refine ⟨_, rfl, ⟨?_, by simpa [mapSize] using hroom, ?_, fun a ha => ?_, fun y hy => ?_, fun y hy => ?_⟩, rfl, ?_⟩
    · rw [h.rest]
    · have hout : ¬ (s.ep + 16 ≤ base.ep - 1 ∧ base.ep - 1 < s.ep + 16 + 16) := by omega
      simp only [hout, if_false]
      rw [hep, update_self]
      rfl
    · have hout : ¬ (s.ep + 16 ≤ a ∧ a < s.ep + 16 + 16) := by omega
      simp only [hout, if_false]
      rw [update_of_ne (by omega), h.frame a ha]
    · simp only [bit]
      by_cases hy : y.toNat < 128
      · have hout : ¬ (s.ep + 16 ≤ base.ep + y.toNat / 8 ∧ base.ep + y.toNat / 8 < s.ep + 16 + 16) := by omega
        simp only [hout, if_false]
        rw [update_of_ne (by omega)]
        exact h.bits y (by simpa [mapSize] using hy)
      · have hin : s.ep + 16 ≤ base.ep + y.toNat / 8 ∧ base.ep + y.toNat / 8 < s.ep + 16 + 16 := by
          have := y.isLt
          omega
        simp only [hin, and_self, if_true]
        cases hset : set y with
        | false => exact BitVec.getLsbD_zero
        | true =>
            have := h.small y hset
            simp only [mapSize, if_true] at this
            omega
    · have := h.small y hy
      simp only [mapSize, if_true, Bool.false_eq_true, if_false] at this ⊢
      omega
    · simpa [mapSize] using hlt
  · rw [if_neg hhigh]
    have hflag : (iflag && !c.msb) = iflag := by
      rw [hmsb]
      cases iflag with
      | false => rfl
      | true => simpa using hhigh
    rw [hflag]
    refine ⟨s, rfl, h, rfl, ?_⟩
    cases iflag with
    | false => simpa [mapSize] using hlt
    | true =>
        simp only [mapSize, if_true]
        have : ¬ 128 ≤ x % 256 := fun h => hhigh ⟨h, rfl⟩
        omega

theorem next_member (h : Holds inp base iflag set s) (hpos : 0 < base.ep) (hc : c ≠ 0#8 ∧ c ≠ 10#8) {lc : Int}
    (hdash : c ≠ 45#8 ∨ lc = 0) (hwide : c.msb = true → base.ep + 32 < inp.endbuf) :
    ∃ s', next inp ⟨.list (inp.char c) lc neg iflag, s⟩ = some ⟨.listNext c.toNat neg (iflag && !c.msb), s'⟩ ∧
      Holds inp base (iflag && !c.msb) (fun x => set x || x == c) s' ∧ s'.sp = s.sp := by
  have hmod := char_mod inp c
  have hplain : ¬ ((c.toNat : Int) = 0 ∨ (c.toNat : Int) = ch '\n') :=
    not_or.mpr ⟨toNat_ne (b := 0#8) hc.1, toNat_ne (b := 10#8) hc.2⟩
  have hdash' : ¬ ((c.toNat : Int) = ch '-' ∧ lc ≠ 0) := by
    rintro ⟨heq, hlc⟩
    obtain hd | hd := hdash
    · exact toNat_ne (b := 45#8) hd heq
    · exact hlc hd
  obtain ⟨s', heq, h', hsp, hlt⟩ := h.widen hpos hwide
    (fun iflag s => place inp c.toNat s (goto (.listNext c.toNat neg iflag))) (x := c.toNat) (by omega)
  refine ⟨_, ?_, h'.put hpos hlt, hsp⟩
  simp only [next, list, hmod]
  simp only [hplain, hdash', if_false]
  rw [heq, place_eq (h'.inRoom hlt)]

theorem next_dash (hc : c = 45#8) {lc : Int} (hlc : lc ≠ 0) :
    next inp ⟨.list (inp.char c) lc neg iflag, s⟩ = some ⟨.rangeEnd lc neg iflag, s⟩ := by
  have hmod := char_mod inp c
  subst hc
  simp only [next, list, hmod]
  simp [Compile.widen, hlc]

theorem next_rangeEnd (h : Holds inp base iflag set s) (hpos : 0 < base.ep) {lo : Byte}
    (hread : inp.pattern[s.sp]? = some hi) (hhi : hi ≠ 93#8) (hchar : inp.char hi = hi.toNat)
    (hwide : hi.msb = true → base.ep + 32 < inp.endbuf) :
    ∃ s', next inp ⟨.rangeEnd lo.toNat neg iflag, s⟩ = some ⟨.listNext hi.toNat neg (iflag && !hi.msb), s'⟩ ∧
      Holds inp base (iflag && !hi.msb) (fun x => set x || (decide (lo ≤ x) && decide (x < hi)) || x == hi) s' ∧
      s'.sp = s.sp + 1 := by
  have hclose : (hi.toNat : Int) ≠ ch ']' := toNat_ne (b := 93#8) hhi
  obtain ⟨s₁, heq, h₁, hsp, hlt⟩ := h.read.widen hpos hwide
    (fun iflag s => placeFrom inp ((hi.toNat : Int) - lo.toNat).toNat lo.toNat s fun s =>
      place inp hi.toNat s (goto (.listNext hi.toNat neg iflag))) (x := hi.toNat) (by omega)
  have h₂ := h₁.puts hpos lo hlt
  refine ⟨_, ?_, h₂.put hpos hlt, hsp⟩
  simp only [next, rangeEnd]
  rw [getc_eq hread]
  simp only [hchar, hclose, if_false]
  have hn : ((hi.toNat : Int) - lo.toNat).toNat = hi.toNat - lo.toNat := by omega
  rw [heq, hn, placeFrom_eq (fun x _ hx => h₁.inRoom (by omega)), place_eq (h₂.inRoom hlt)]

/-- The class is finished: the item in memory stands for the set. -/
structure Finished (base : State) (neg iflag : Bool) (set : Byte → Bool) (sp : Nat) (t : State) : Prop where
  rest : t = { base with mem := t.mem, sp, ep := base.ep + mapSize iflag }
  frame : ∀ a, a + 1 < base.ep → t.mem a = base.mem a
  opcode : t.mem (base.ep - 1) = closedOp neg iflag
  accepts : ∀ x, (listItem neg iflag t.mem base.ep).accepts x = if neg then x != 0#8 && !set x else set x

theorem Finished.congr {iflag' : Bool} {sp sp' : Nat} {t : State} (h : Finished base neg iflag set sp t)
    (hflag : iflag = iflag') (hset : ∀ x, set x = set' x) (hsp : sp = sp') : Finished base neg iflag' set' sp' t := by
  obtain rfl : set = set' := funext hset
  exact hflag ▸ hsp ▸ h

theorem inMap_slice {mem : Nat → Byte} {ep n : Nat} {x : Byte} (hx : x.toNat < 8 * n) :
    inMap (slice mem ep n) x = bit mem ep x.toNat := by
  have hget : (slice mem ep n)[x.toNat / 8]? = some (mem (ep + x.toNat / 8)) := by
    rw [slice, List.getElem?_map, List.getElem?_range' (by omega)]
    simp
  rw [inMap, List.getD_eq_getElem?_getD, hget, Option.getD_some, and_bittab _ (Nat.mod_lt _ (by decide)), bit]

theorem accepts_listItem (mem : Nat → Byte) (ep : Nat) (x : Byte) :
    (listItem neg iflag mem ep).accepts x =
      if iflag then (!x.msb && bit mem ep x.toNat) ^^ neg else bit mem ep x.toNat := by
  cases iflag with
  | true =>
      simp only [listItem, if_true, Item.accepts, toList_ofFn]
      cases hmsb : x.msb with
      | true => rfl
      | false =>
          have hlt := BitVec.toNat_lt_of_msb_false hmsb
          rw [inMap_slice (by omega)]
  | false =>
      simp only [listItem, Bool.false_eq_true, if_false, Item.accepts, toList_ofFn]
      exact inMap_slice x.isLt

theorem Holds.short (h : Holds inp base true set s) (x : Byte) : (!x.msb && bit s.mem base.ep x.toNat) = set x := by
  cases hmsb : x.msb with
  | true =>
      have hle := BitVec.le_toNat_of_msb_true hmsb
      cases hset : set x with
      | false => rfl
      | true =>
          have := h.small x hset
          simp only [mapSize, if_true] at this
          omega
  | false =>
      have hlt := BitVec.toNat_lt_of_msb_false hmsb
      rw [h.bits x (by simp only [mapSize, if_true]; omega)]
      rfl

theorem Holds.long (h : Holds inp base false set s) (x : Byte) : bit s.mem base.ep x.toNat = set x :=
  h.bits x x.isLt

/-- A list that is not complemented is stepped over. -/
theorem Holds.close_plain (h : Holds inp base iflag set s) :
    Finished base false iflag set s.sp { s with ep := s.ep + mapSize iflag } := by
  refine ⟨?_, h.frame, ?_, fun x => ?_⟩
  · rw [h.rest]
  · have hop := h.opcode
    cases iflag <;> exact hop
  · rw [accepts_listItem]
    cases iflag with
    | true => exact (Bool.xor_false _).trans (h.short x)
    | false => exact h.long x

/-- NUL is put into a short map that is complemented. -/
theorem Holds.close_short (h : Holds inp base true set s) (hpos : 0 < base.ep) :
    Finished base true true set s.sp { s with
      mem := setBit (update s.mem (base.ep - 1) nccl) base.ep 0
      ep := s.ep + 16 } := by
  have hbelow (a : Nat) (ha : a < base.ep) : setBit (update s.mem (base.ep - 1) nccl) base.ep 0 a =
      update s.mem (base.ep - 1) nccl a := setBit_below ha
  refine ⟨?_, fun a ha => ?_, ?_, fun x => ?_⟩
  · rw [h.rest]
    rfl
  · exact (hbelow a (by omega)).trans ((update_of_ne (by omega) _ _).trans (h.frame a ha))
  · exact (hbelow _ (by omega)).trans (update_self ..)
  · have hupd : bit (update s.mem (base.ep - 1) nccl) base.ep x.toNat = bit s.mem base.ep x.toNat := by
      rw [bit, bit, update_of_ne (by omega)]
    rw [accepts_listItem]
    simp only [if_true]
    rw [bit_setBit, hupd, decide_toNat_zero, Bool.and_or_distrib_left, h.short x]
    by_cases hx : x = 0#8
    · subst hx
      cases set 0#8 <;> rfl
    · rw [beq_false_of_ne hx, Bool.and_false, Bool.or_false, bne, beq_false_of_ne hx, Bool.not_false, Bool.true_and]
      exact Bool.xor_true _

/-- A long map is complemented in place, without NUL. -/
theorem Holds.close_long (h : Holds inp base false set s) (hpos : 0 < base.ep) (mem : Nat → Byte)
    (hmap : ∀ a, base.ep ≤ a → a < base.ep + 32 → mem a = s.mem a ^^^ 255#8)
    (hbelow : ∀ a, a < base.ep → mem a = s.mem a) :
    Finished base true false set s.sp { s with
      mem := update mem base.ep (mem base.ep &&& 254#8)
      ep := s.ep + 32 } := by
  have hlow (a : Nat) (ha : a < base.ep) : update mem base.ep (mem base.ep &&& 254#8) a = s.mem a :=
    (update_of_ne (by omega) _ _).trans (hbelow a ha)
  refine ⟨?_, fun a ha => (hlow a (by omega)).trans (h.frame a ha), (hlow _ (by omega)).trans h.opcode, fun x => ?_⟩
  · rw [h.rest]
    rfl
  · have hx := x.isLt
    have hmod : x.toNat % 8 < 8 := Nat.mod_lt _ (by decide)
    have hbit : bit mem base.ep x.toNat = !set x := by
      rw [← h.long x, bit, bit, hmap _ (by omega) (by omega), BitVec.getLsbD_xor]
      have hones : (255#8).getLsbD (x.toNat % 8) = true := by
        rw [show (255#8 : Byte) = BitVec.allOnes 8 from rfl, BitVec.getLsbD_allOnes, decide_eq_true hmod]
      rw [hones, Bool.xor_true]
    rw [accepts_listItem]
    simp only [Bool.false_eq_true, if_false, if_true]
    by_cases hbyte : x.toNat / 8 = 0
    · rw [bit, hbyte] at hbit ⊢
      rw [Nat.add_zero] at hbit ⊢
      have hzero : (254#8).getLsbD (x.toNat % 8) = (x != 0#8) := by
        have hall : ∀ j : Fin 8, (254#8).getLsbD j = !decide (j.val = 0) := by decide
        have hsmall : x.toNat % 8 = x.toNat := Nat.mod_eq_of_lt (by omega)
        rw [bne, ← decide_toNat_zero, hsmall]
        exact hall ⟨x.toNat, by omega⟩
      rw [update_self, BitVec.getLsbD_and, hbit, Bool.and_comm, hzero]
    · have hne : x ≠ 0#8 := by
        rintro rfl
        exact hbyte rfl
      have hupd : bit (update mem base.ep (mem base.ep &&& 254#8)) base.ep x.toNat = bit mem base.ep x.toNat := by
        rw [bit, bit, update_of_ne (by omega)]
      simp [hupd, hbit, hne]

theorem Holds.close (h : Holds inp base iflag set s) (hpos : 0 < base.ep) (neg : Bool) :
    ∃ t, close inp neg iflag s = ⟨.loop, t⟩ ∧ Finished base neg iflag set s.sp t := by
  have hep := h.ep_eq
  have hroom := h.room
  cases neg with
  | false => exact ⟨_, rfl, h.close_plain⟩
  | true =>
      cases iflag with
      | true =>
          simp only [mapSize, if_true] at hroom
          refine ⟨_, ?_, h.close_short hpos⟩
          simp only [Compile.close, if_true, store, hep]
          rw [if_pos (by omega), if_pos (by omega)]
          rfl
      | false =>
          simp only [mapSize, Bool.false_eq_true, if_false] at hroom
          refine ⟨_, ?_, h.close_long hpos (fun a => if s.ep ≤ a ∧ a < s.ep + 32 then s.mem a ^^^ 255#8
            else s.mem a) (fun a hle hlt => ?_) fun a ha => ?_⟩
          · simp only [Compile.close, if_true, store, storeAll, hep, Bool.false_eq_true, if_false]
            rw [if_pos (by omega), if_pos (by omega)]
          · exact if_pos ⟨by omega, by omega⟩
          · exact if_neg (by omega)

theorem within_self (x c : Byte) : within x (c, c) = (x == c) := by
  rw [Bool.eq_iff_iff]
  simp only [within, Bool.or_eq_true, Bool.and_eq_true, decide_eq_true_iff, beq_iff_eq, BitVec.le_def,
    ← BitVec.toNat_inj]
  omega

theorem within_pair {lo : Byte} (hlo : set lo = true) (x : Byte) :
    (set x || (decide (lo ≤ x) && decide (x < hi)) || x == hi) = (set x || within x (lo, hi)) := by
  have hset : x = lo → set x = true := by
    rintro rfl
    exact hlo
  rw [Bool.eq_iff_iff]
  simp only [within, Bool.or_eq_true, Bool.and_eq_true, decide_eq_true_iff, beq_iff_eq, BitVec.le_def, BitVec.lt_def]
  constructor
  · rintro ((h | h) | h)
    · exact .inl h
    · exact .inr (.inr ⟨h.1, by omega⟩)
    · exact .inr (.inl (.inr h))
  · rintro (h | (h | h) | h)
    · exact .inl (.inl h)
    · exact .inl (.inl (hset h))
    · exact .inr h
    · by_cases hx : x = hi
      · exact .inr hx
      · rw [← BitVec.toNat_inj] at hx
        exact .inl (.inr ⟨h.1, by omega⟩)

structure Listable (inp : Input) (base : State) (c : Byte) : Prop where
  plain : c ≠ 0#8 ∧ c ≠ 10#8
  char : inp.char c = c.toNat
  room : c.msb = true → base.ep + 32 < inp.endbuf

theorem next_more (neg iflag : Bool) (lc : Int) (hread : inp.pattern[s.sp]? = some c) (hc : Listable inp base c)
    (hne : c ≠ 93#8) :
    next inp ⟨.listNext lc neg iflag, s⟩ = some ⟨.list (inp.char c) lc neg iflag, readOne s⟩ := by
  have hclose : (c.toNat : Int) ≠ ch ']' := toNat_ne (b := 93#8) hne
  simp only [next, listNext]
  rw [getc_eq hread, hc.char, if_neg hclose]

theorem next_end {lc : Int} (hread : inp.pattern[s.sp]? = some 93#8) :
    next inp ⟨.listNext lc neg iflag, s⟩ = some (close inp neg iflag (readOne s)) := by
  have hclose : inp.char 93#8 = ch ']' := char_of_lt inp (by decide)
  simp only [next, listNext]
  rw [getc_eq hread, if_pos hclose]

theorem next_rangeEnd_close {lc : Int} (h : Holds inp base iflag set s) (hread : inp.pattern[s.sp]? = some 93#8) :
    next inp ⟨.rangeEnd lc neg iflag, s⟩ =
      some (close inp neg iflag { readOne s with mem := setBit s.mem s.ep 45 }) := by
  have hclose : inp.char 93#8 = ch ']' := char_of_lt inp (by decide)
  have hroom : (readOne s).ep + 45 / 8 < inp.endbuf := h.inRoom (x := 45) (by cases iflag <;> decide)
  simp only [next, rangeEnd]
  rw [getc_eq hread, if_pos hclose]
  exact congrArg some (place_eq hroom)

theorem reaches_finished {lo : Byte} {rest : List Byte} (h : Holds inp base iflag set s) (hpos : 0 < base.ep)
    (hlo : set lo = true) (hlo0 : lo ≠ 0#8) (hahead : Ahead inp s (rest ++ [93#8]))
    (hrest : ∀ c ∈ rest, Listable inp base c ∧ c ≠ 93#8) :
    ∃ t, Reaches (next inp) ⟨.listNext lo.toNat neg iflag, s⟩ ⟨.loop, t⟩ ∧
      Finished base neg (iflag && !rest.any (·.msb)) (fun x => set x || (ranges lo rest).any (within x))
        (s.sp + rest.length + 1) t := by
  fun_induction ranges lo rest generalizing iflag set s with
  | case1 lo =>
      obtain ⟨t, heq, hfin⟩ := h.read.close hpos neg
      refine ⟨t, reaches_one (heq ▸ next_end hahead.head), hfin.congr ?_ (fun x => ?_) rfl⟩
      · exact (Bool.and_true _).symm
      · exact (Bool.or_false _).symm
  | case2 lo c =>
      obtain ⟨hc, hne⟩ := hrest c (by simp)
      have hlo' : ((lo.toNat : Nat) : Int) ≠ 0 := toNat_ne (b := 0#8) hlo0
      have hmore := next_more neg iflag lo.toNat hahead.head hc hne
      by_cases hdash : c = 45#8
      · subst hdash
        have h' := h.read.put hpos (c := 45#8) (by cases iflag <;> decide)
        obtain ⟨t, heq, hfin⟩ := h'.read.close hpos neg
        refine ⟨t, reaches_head hmore (reaches_head (next_dash rfl hlo') (reaches_one ?_)),
          hfin.congr ?_ (fun x => ?_) rfl⟩
        · rw [next_rangeEnd_close h.read hahead.tail.head]
          exact congrArg some heq
        · exact (Bool.and_true _).symm
        · simp [within_self]
      · obtain ⟨s', hstep, h', hsp⟩ := next_member h.read hpos hc.plain (.inl hdash) hc.room
        obtain ⟨t, heq, hfin⟩ := h'.read.close hpos neg
        have hread : inp.pattern[s'.sp]? = some 93#8 := by
          rw [hsp]
          exact hahead.tail.head
        refine ⟨t, reaches_head hmore (reaches_head hstep (reaches_one (heq ▸ next_end hread))),
          hfin.congr ?_ (fun x => ?_) ?_⟩
        · simp
        · simp [within_self]
        · simp [readOne, hsp]
  | case3 lo hi rest ih =>
      obtain ⟨hc, hne⟩ := hrest 45#8 (by simp)
      obtain ⟨hchi, hnehi⟩ := hrest hi (by simp)
      have hlo' : ((lo.toNat : Nat) : Int) ≠ 0 := toNat_ne (b := 0#8) hlo0
      have hmore := next_more neg iflag lo.toNat hahead.head hc hne
      obtain ⟨s', hstep, h', hsp⟩ := next_rangeEnd h.read hpos hahead.tail.head hnehi
        hchi.char hchi.room
      have hahead' : Ahead inp s' (rest ++ [93#8]) := hahead.tail.tail.of_sp hsp
      obtain ⟨t, hr, hfin⟩ := ih h' (by simp) hchi.plain.1 hahead' fun c hc => hrest c (by simp [hc])
      refine ⟨t, reaches_head hmore (reaches_head (next_dash rfl hlo') (reaches_head hstep hr)),
        hfin.congr ?_ (fun x => ?_) ?_⟩
      · have hmsb : (45#8).msb = false := rfl
        simp [hmsb, Bool.and_assoc]
      · rw [within_pair hlo, List.any_cons, Bool.or_assoc]
      · simp only [hsp, readOne, List.length_cons]
        omega
  | case4 lo c hi rest hdash ih =>
      obtain ⟨hc, hne⟩ := hrest c (by simp)
      have hmore := next_more neg iflag lo.toNat hahead.head hc hne
      obtain ⟨s', hstep, h', hsp⟩ := next_member h.read hpos hc.plain (.inl hdash) hc.room
      have hahead' : Ahead inp s' (hi :: rest ++ [93#8]) := hahead.tail.of_sp hsp
      obtain ⟨t, hr, hfin⟩ := ih h' (by simp) hc.plain.1 hahead' fun c hc => hrest c (by simp [List.mem_cons.mp hc])
      refine ⟨t, reaches_head hmore (reaches_head hstep hr), hfin.congr ?_ (fun x => ?_) ?_⟩
      · simp [Bool.and_assoc]
      · rw [List.any_cons, within_self, Bool.or_assoc]
      · simp only [hsp, readOne, List.length_cons]
        omega

end Steps

section Opening

variable {inp : Input} {s t base : State} {b : BracketList} {n : Nat} {i : Item}

/-- An instruction is written for `n` characters of the pattern. -/
structure Appends (s t : State) (n : Nat) (i : Instr) : Prop where
  rest : t = { s with mem := t.mem, sp := s.sp + n, ep := s.ep + i.encode.length, lastep := some s.ep }
  frame : ∀ a < s.ep, t.mem a = s.mem a
  bytes : slice t.mem s.ep i.encode.length = i.encode

theorem Appends.lastep_eq {j : Instr} (h : Appends s t n j) : t.lastep = some s.ep := by rw [h.rest]

theorem Appends.ep_eq {j : Instr} (h : Appends s t n j) : t.ep = s.ep + j.encode.length := by rw [h.rest]

theorem encode_one (i : Item) : (Instr.item i .one).encode = i.opcode :: i.operands := by
  simp only [Instr.encode, Rep.mask, Rep.operands, List.append_nil]
  rw [BitVec.or_zero]

theorem Appends.mem_head (h : Appends s t n (.item i .one)) : t.mem s.ep = i.opcode := by
  have hbytes := h.bytes
  rw [encode_one, List.length_cons, Nat.add_comm, slice_add] at hbytes
  exact (List.cons.inj hbytes).1

def opened (s : State) : State :=
  { s with
    sp := s.sp + 1
    ep := s.ep + 1
    lastep := some s.ep
    mem := fun a => if s.ep + 1 ≤ a ∧ a < s.ep + 1 + 16 then 0#8 else update s.mem s.ep ccl a }

theorem next_open (hread : inp.pattern[s.sp]? = some 91#8) (heof : inp.eof ≠ ch '[') (hroom : s.ep + 17 < inp.endbuf) :
    next inp ⟨.loop, s⟩ = some ⟨.listOpen, opened s⟩ := by
  have hchar : inp.char 91#8 = 91 := char_of_lt inp (by decide)
  have heof' : ¬ (91 : Int) = inp.eof := fun h => heof h.symm
  simp only [next, loop, nextChar]
  rw [if_neg (by omega), getc_eq hread, hchar]
  have hep : (readOne s).ep = s.ep := rfl
  simp [heof', emit, store, storeAll, hep]
  rw [if_neg (by omega), if_pos (by omega), if_pos (by omega)]
  rfl

theorem holds_opened (s : State) (hroom : s.ep + 17 < inp.endbuf) :
    Holds inp (opened s) true (fun _ => false) (opened s) := by
  refine ⟨rfl, hroom, ?_, fun _ _ => rfl, fun x hx => ?_, fun x hx => by cases hx⟩
  · simp [opened, listOp]
  · simp only [mapSize, if_true] at hx
    have hin : s.ep + 1 ≤ s.ep + 1 + x.toNat / 8 ∧ s.ep + 1 + x.toNat / 8 < s.ep + 1 + 16 := by omega
    simp only [bit, opened, hin, and_self, if_true]
    exact BitVec.getLsbD_zero

theorem reaches_first (b : BracketList) (hahead : Ahead inp (opened s) (b.text.tail))
    (hfirst : inp.char b.first = b.first.toNat) :
    ∃ s', Reaches (next inp) ⟨.listOpen, opened s⟩ ⟨.list (inp.char b.first) 0 b.neg true, s'⟩ ∧
      s' = { opened s with sp := s'.sp } ∧ Ahead inp s' (b.rest ++ [93#8]) ∧
      s'.sp + (b.rest ++ [93#8]).length = s.sp + b.text.length := by
  have hcaret : inp.char 94#8 = ch '^' := char_of_lt inp (by decide)
  cases hneg : b.neg with
  | true =>
      simp only [BracketList.text, hneg, if_true, List.tail_cons, List.cons_append, List.nil_append] at hahead
      refine ⟨readOne (readOne (opened s)), reaches_one ?_, rfl, hahead.tail.tail, ?_⟩
      · simp only [next, listOpen]
        rw [getc_eq hahead.head, if_pos hcaret, getc_eq hahead.tail.head]
      · simp [BracketList.text, hneg, readOne, opened]
        omega
  | false =>
      simp only [BracketList.text, hneg, Bool.false_eq_true, if_false, List.tail_cons, List.nil_append,
        List.cons_append] at hahead
      have hne : ¬ inp.char b.first = ch '^' := by
        rw [hfirst]
        exact toNat_ne (b := 94#8) (b.caret hneg)
      refine ⟨readOne (opened s), reaches_one ?_, rfl, hahead.tail, ?_⟩
      · simp only [next, listOpen]
        rw [getc_eq hahead.head, if_neg hne]
      · simp [BracketList.text, hneg, readOne, opened]
        omega

theorem Finished.appends {neg iflag : Bool} {set : Byte → Bool} {n : Nat}
    (h : Finished (opened s) neg iflag set (s.sp + n) t) :
    Appends s t n (.item (listItem neg iflag t.mem (s.ep + 1)) .one) := by
  have hlen : (Instr.item (listItem neg iflag t.mem (s.ep + 1)) .one).encode.length = 1 + mapSize iflag := by
    rw [encode_listItem, List.length_cons, slice_length, Nat.add_comm]
  refine ⟨?_, fun a ha => ?_, ?_⟩
  · rw [hlen, ← Nat.add_assoc]
    exact h.rest
  · have hin : ¬ (s.ep + 1 ≤ a ∧ a < s.ep + 1 + 16) := by omega
    rw [h.frame a (Nat.succ_lt_succ ha)]
    simp only [opened, hin, if_false]
    exact update_of_ne (by omega) _ _
  · rw [hlen, slice_add, encode_listItem, ← h.opcode]
    rfl

/-- A bracket expression becomes one item, which stands for its set. -/
theorem reaches_bracket (b : BracketList) (hahead : Ahead inp s b.text) (heof : inp.eof ≠ ch '[')
    (hchars : ∀ c ∈ b.first :: b.rest, inp.char c = c.toNat)
    (hroom : s.ep + (if b.isWide then 33 else 17) < inp.endbuf) :
    ∃ i t, Reaches (next inp) ⟨.loop, s⟩ ⟨.loop, t⟩ ∧ Appends s t b.text.length (.item i .one) ∧
      t.ep = s.ep + (if b.isWide then 33 else 17) ∧ ∀ x, i.accepts x = b.denotes x := by
  have hroom' : s.ep + 17 < inp.endbuf := by split at hroom <;> omega
  have hpos : 0 < (opened s).ep := Nat.succ_pos _
  have hlist (c : Byte) (hc : c ∈ b.first :: b.rest) : Listable inp (opened s) c := by
    refine ⟨b.plain c hc, hchars c hc, fun hmsb => ?_⟩
    have hw : b.isWide = true := List.any_eq_true.mpr ⟨c, hc, hmsb⟩
    rw [hw, if_pos rfl] at hroom
    simp only [opened]
    omega
  have hfirst := hlist b.first (by simp)
  obtain ⟨s₁, hr₁, hs₁, hahead₁, hsp₁⟩ := reaches_first b hahead.tail hfirst.char
  have h₁ : Holds inp (opened s) true (fun _ => false) s₁ := by
    rw [hs₁]
    have h := holds_opened s hroom'
    exact ⟨rfl, h.room, h.opcode, h.frame, h.bits, h.small⟩
  obtain ⟨s₂, hstep, h₂, hsp₂⟩ := next_member h₁ hpos hfirst.plain (.inr rfl) hfirst.room
  have hahead₂ : Ahead inp s₂ (b.rest ++ [93#8]) := hahead₁.of_sp hsp₂
  obtain ⟨t, hr₂, hfin⟩ := reaches_finished h₂ hpos (by simp) hfirst.plain.1 hahead₂
    fun c hc => ⟨hlist c (by simp [hc]), b.inside c hc⟩
  rw [List.length_append, List.length_singleton] at hsp₁
  have hfin' : Finished (opened s) b.neg (!b.isWide) b.lists (s.sp + b.text.length) t := by
    refine hfin.congr ?_ (fun x => ?_) (by omega)
    · rw [BracketList.isWide, List.any_cons, Bool.not_or, Bool.true_and]
    · rw [BracketList.lists, List.any_cons, within_self, Bool.false_or]
  refine ⟨_, t, reaches_head (next_open hahead.head heof hroom') (hr₁.trans (reaches_head hstep hr₂)),
    hfin'.appends, ?_, hfin'.accepts⟩
  rw [hfin'.rest]
  cases b.isWide <;> rfl

end Opening

end SysvDev.Regexp.Bracket
