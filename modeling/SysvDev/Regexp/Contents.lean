import SysvDev.Regexp.Image

namespace SysvDev.Regexp.Contents

open Opcode Program Compile Moves Inversion Walk Image

variable {inp : Input} {s t : State} {is : List Instr}

/-- The opcodes of the instructions that match one character, or a star of
them, and have no interval yet. -/
def takesCount (op : Byte) : Bool :=
  op = cchr ∨ op = cdot ∨ op = ccl ∨ op = cxcl ∨ op = nccl ∨ op = cchr ||| star ∨ op = cdot ||| star ∨
    op = ccl ||| star ∨ op = cxcl ||| star ∨ op = nccl ||| star

/-- An interval is about to be put on an instruction that can take it. -/
def countable (c : Cfg) : Bool :=
  match c.label, c.state.lastep with
  | .interval, some last => takesCount (c.state.mem last)
  | _, _ => true

/-- An interval goes to an instruction that can take it, and the end of a
range is no negative character. -/
structure Plain (inp : Input) (c : Cfg) : Prop where
  interval : countable c = true
  range : ∀ lc neg iflag x, c.label = .rangeEnd lc neg iflag → charAt inp c.state.sp = some x → 0 ≤ x

structure Listing (s : State) (is : List Instr) (op : Byte) : Prop where
  pos : 0 < s.ep
  code : slice s.mem 0 (s.ep - 1) = bytes is
  opcode : s.mem (s.ep - 1) = op
  last : s.lastep = some (s.ep - 1)

def Counting (s : State) (is : List Instr) (n : Nat) : Prop :=
  ∃ init a counts, is = init ++ [.item a .one] ∧ counts.length = n ∧
    slice s.mem 0 s.ep = bytes init ++ (a.opcode ||| rnge) :: (a.operands ++ counts) ∧
    s.lastep = some (bytes init).length

def NoDol (is : List Instr) : Prop := ∀ init, is ≠ init ++ [.dol]

/-- What is in the buffer at each point of `compile`. -/
def Compiled (inp : Input) (c : Cfg) (is : List Instr) : Prop :=
  match c.label with
  | .entry => c.state.ep = 0 ∧ c.state.lastep = none ∧ is = []
  | .loop => Code c.state is ∧ Last c.state is ∧
      (NoDol is ∨ ∃ y, charAt inp c.state.sp = some y ∧ (y = inp.eof ∨ y = ch '\n'))
  | .defchar _ => Code c.state is
  | .escape => Code c.state is ∧ (charAt inp c.state.sp = some (ch '{') → Last c.state is ∧ NoDol is) ∧
      (charAt inp c.state.sp ≠ some (ch '{') → c.state.lastep = some c.state.ep)
  | .bra | .ket => Code c.state is ∧ c.state.lastep = some c.state.ep
  | .back x => Code c.state is ∧ c.state.lastep = some c.state.ep ∧ 0 ≤ x ∧ x < 9
  | .interval => Code c.state is ∧ Last c.state is ∧ NoDol is
  | .listOpen => Listing c.state is ccl
  | .list _ lc _ iflag | .rangeEnd lc _ iflag | .listNext lc _ iflag =>
      Listing c.state is (listOp iflag) ∧ 0 ≤ lc
  | .nlim cflg | .digits _ _ cflg | .limit _ _ cflg => Counting c.state is cflg ∧ cflg ≤ 1
  | .upper _ => Counting c.state is 1
  | .closeBrace _ cflg => Counting c.state is (cflg + 1) ∧ cflg ≤ 1
  | .returned => c.state.ep = 0 ∨ slice c.state.mem 0 c.state.ep = encode is
  | _ => True

def listItem (neg iflag : Bool) (mem : Nat → Byte) (ep : Nat) : Item :=
  if iflag then .list neg (Vector.ofFn fun i : Fin 16 => mem (ep + i))
  else .wide (Vector.ofFn fun i : Fin 32 => mem (ep + i))

theorem toList_ofFn (mem : Nat → Byte) (a n : Nat) :
    (Vector.ofFn fun i : Fin n => mem (a + i)).toList = slice mem a n := by
  apply List.ext_getElem
  · simp
  · intro i h1 h2
    simp [slice]

theorem encode_listItem (neg iflag : Bool) (mem : Nat → Byte) (ep : Nat) :
    (Instr.item (listItem neg iflag mem ep) .one).encode =
      closedOp neg iflag :: slice mem ep (mapSize iflag) := by
  cases iflag with
  | true =>
      simp only [listItem, closedOp, mapSize, if_true, Instr.encode, Item.operands, Rep.operands, toList_ofFn,
        List.append_nil, Rep.mask]
      cases neg <;> simp
  | false =>
      simp only [listItem, closedOp, mapSize, Bool.false_eq_true, if_false, Instr.encode, Item.operands,
        Rep.operands, toList_ofFn, List.append_nil, Rep.mask]
      simp

def starred : Instr → Instr
  | .item a .one => .item a .star
  | .back n => .backStar n
  | i => i

theorem encode_starred {i : Instr} (hi : i ≠ .dol) {op : Byte} {tail : List Byte} (h : i.encode = op :: tail)
    (hop : op ≠ cbra ∧ op ≠ cket) : (starred i).encode = (op ||| Opcode.star) :: tail := by
  cases i with
  | item a r =>
      obtain ⟨rfl, rfl⟩ := List.cons.inj h
      cases r with
      | one => simp [starred]
      | star => simp [starred, BitVec.or_assoc]
      | range lo hi => simp [starred, BitVec.or_assoc]
  | dol => exact absurd rfl hi
  | bra n => exact absurd (List.cons.inj h).1.symm hop.1
  | ket n => exact absurd (List.cons.inj h).1.symm hop.2
  | back n | backStar n =>
      obtain ⟨rfl, rfl⟩ := List.cons.inj h
      simp [starred]

theorem marked_starred (i : Instr) : Instr.marked (starred i) = Instr.marked i := by
  cases i with
  | item a r => cases r <;> rfl
  | _ => rfl

theorem Listing.read {op : Byte} (h : Listing s is op) : Listing (readOne s) is op :=
  ⟨h.pos, h.code, h.opcode, h.last⟩

theorem Listing.lists {lc x : Int} {iflag iflag' : Bool} (h : Listing s is (listOp iflag))
    (hl : Lists inp lc x iflag iflag' s t) (hlc : 0 ≤ lc) (hx : 0 ≤ x) : Listing t is (listOp iflag') := by
  have hep := hl.ep_eq
  constructor
  · rw [hep]
    exact h.pos
  · rw [hep, ← h.code]
    apply slice_congr
    intro i _ hi
    exact hl.frame hlc hx i (by omega)
  · rw [hep]
    exact hl.opcode hlc hx h.pos h.opcode
  · rw [hep, hl.lastep_eq]
    exact h.last

theorem Listing.closes {neg iflag : Bool} (h : Listing s is (listOp iflag)) (hc : Closes neg iflag s t) :
    Code t (is ++ [.item (listItem neg iflag t.mem s.ep) .one]) ∧ t.lastep = some (bytes is).length := by
  have hep : t.ep = s.ep + mapSize iflag := by rw [hc.rest]
  have hpos := h.pos
  have hlen : (bytes is).length = s.ep - 1 := by rw [← h.code, slice_length]
  have hcode : slice t.mem 0 (s.ep - 1) = bytes is := by
    rw [← h.code]
    apply slice_congr
    intro i _ hi
    exact hc.frame i (by omega)
  constructor
  · have hsplit : s.ep + mapSize iflag = s.ep - 1 + 1 + mapSize iflag := by omega
    rw [Code, bytes_append, bytes_single, encode_listItem, hep, hsplit, slice_add, slice_succ, hcode]
    simp only [Nat.zero_add, Nat.sub_add_cancel hpos, hc.opcode hpos h.opcode, List.append_assoc,
      List.singleton_append]
  · have hlast : t.lastep = s.lastep := by rw [hc.rest]
    rw [hlast, h.last, hlen]

theorem Counting.put {n : Nat} (h : Counting s is n) (b : Byte) : Counting (Moves.put b s) is (n + 1) := by
  obtain ⟨init, a, counts, rfl, rfl, hcode, hlast⟩ := h
  refine ⟨init, a, counts ++ [b], rfl, by simp, ?_, hlast⟩
  have hput : slice (Moves.put b s).mem 0 (Moves.put b s).ep = _ := slice_put b s
  rw [hput, hcode]
  simp

theorem Counting.done (h : Counting s is 2) : ∃ is', Code s is' ∧ Last s is' ∧ NoDol is' ∧
    marksOf is' = marksOf is := by
  obtain ⟨init, a, counts, rfl, hlen, hcode, hlast⟩ := h
  obtain ⟨lo, hi, rfl⟩ := List.length_eq_two.mp hlen
  refine ⟨init ++ [.item a (.range lo hi)], ?_, Last.snoc hlast, ?_, ?_⟩
  · rw [Code, bytes_append, bytes_single, hcode]
    rfl
  · intro init' h
    cases (List.append_inj' h rfl).2
  · rw [marksOf_append, marksOf_append]
    rfl

theorem takesCount_cases {i : Instr} {op : Byte} {tail : List Byte} (h : i.encode = op :: tail)
    (hop : takesCount op = true) :
    ∃ a : Item, op ||| rnge = a.opcode ||| rnge ∧ tail = a.operands ∧ Instr.marked i = none := by
  cases i with
  | item a r =>
      obtain ⟨rfl, rfl⟩ := List.cons.inj h
      cases r with
      | one => exact ⟨a, by simp, by simp, rfl⟩
      | star => exact ⟨a, by simp [BitVec.or_assoc], by simp, rfl⟩
      | range lo hi =>
          cases a with
          | chr | dot | wide => simp [takesCount] at hop
          | list neg => cases neg <;> simp [takesCount] at hop
  | dol | bra | ket | back | backStar =>
      obtain ⟨rfl, -⟩ := List.cons.inj h
      simp [takesCount] at hop

theorem marksOf_snoc {i : Instr} (h : Instr.marked i = none) (is : List Instr) :
    marksOf (is ++ [i]) = marksOf is := by
  rw [marksOf_append]
  simp [marksOf, h]

theorem Last.cases {last : Nat} (hcode : Code s is) (h : Last s is) (hlast : s.lastep = some last) :
    ∃ init i op tail, is = init ++ [i] ∧ i.encode = op :: tail ∧ last = (bytes init).length ∧
      s.mem last = op ∧ slice s.mem 0 s.ep = bytes init ++ op :: tail := by
  rw [Last, hlast] at h
  obtain ⟨init, i, rfl, rfl⟩ := h
  obtain ⟨op, tail, hi, -⟩ := encode_instr i
  have hslice : slice s.mem 0 s.ep = bytes init ++ op :: tail := by
    rw [hcode, bytes_append, bytes_single, hi]
  exact ⟨init, i, op, tail, rfl, hi, rfl, mem_last hslice, hslice⟩

theorem counting_interval {last : Nat} (hcode : Code s is) (h : Last s is) (hlast : s.lastep = some last)
    (hop : takesCount (s.mem last) = true) : ∃ is', marksOf is' = marksOf is ∧
      Counting { s with mem := Function.update s.mem last (s.mem last ||| rnge) } is' 0 := by
  obtain ⟨init, i, op, tail, rfl, hi, rfl, hmem, hslice⟩ := Last.cases hcode h hlast
  rw [hmem] at hop ⊢
  obtain ⟨a, ha, rfl, hmark⟩ := takesCount_cases hi hop
  refine ⟨init ++ [.item a .one], ?_, init, a, [], rfl, rfl, ?_, hlast⟩
  · rw [marksOf_snoc hmark, marksOf_snoc rfl]
  · rw [List.append_nil, ← ha]
    exact slice_last hslice

theorem code_star {last : Nat} (hcode : Code s is) (h : Last s is) (hdol : NoDol is)
    (hlast : s.lastep = some last) (hop : s.mem last ≠ cbra ∧ s.mem last ≠ cket) :
    ∃ is', marksOf is' = marksOf is ∧ NoDol is' ∧
      slice (Function.update s.mem last (s.mem last ||| Opcode.star)) 0 s.ep = bytes is' ∧
      ∃ init i, is' = init ++ [i] ∧ last = (bytes init).length := by
  obtain ⟨init, i, op, tail, rfl, hi, rfl, hmem, hslice⟩ := Last.cases hcode h hlast
  rw [hmem] at hop ⊢
  have hne : i ≠ .dol := by
    rintro rfl
    exact hdol init rfl
  refine ⟨init ++ [starred i], ?_, ?_, ?_, init, starred i, rfl, rfl⟩
  · rw [marksOf_append, marksOf_append]
    simp [marksOf, List.filterMap_cons, marked_starred]
  · intro init' he
    have hs : starred i = .dol := List.singleton_inj.mp (List.append_inj' he rfl).2
    cases i with
    | item a r => cases r <;> cases hs
    | dol => exact hne rfl
    | _ => cases hs
  · rw [bytes_append, bytes_single, encode_starred hne hi hop]
    exact slice_last hslice

end SysvDev.Regexp.Contents
