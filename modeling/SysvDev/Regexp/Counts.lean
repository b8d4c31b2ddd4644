import SysvDev.Regexp.Atoms

namespace SysvDev.Regexp.Counts

open StateTransition Transition Function Opcode Compile Moves Program Image Regexp.Bracket Atoms

structure Digits where
  first : Byte
  rest : List Byte
  digit : ∀ d ∈ first :: rest, 48 ≤ d.toNat ∧ d.toNat ≤ 57

def horner (i : Nat) (d : Byte) : Nat := 10 * i + (d.toNat - 48)

def Digits.text (m : Digits) : List Byte := m.first :: m.rest

def Digits.value (m : Digits) : Nat := m.text.foldl horner 0

def Digits.stored (m : Digits) : Int := wrap m.value

def Digits.byte (m : Digits) : Byte := toChar m.stored

inductive Bounds
  | exact (m : Digits)
  | atLeast (m : Digits)
  | between (m n : Digits)

def Bounds.text : Bounds → List Byte
  | .exact m => [92#8, 123#8] ++ ((m.text ++ [92#8]) ++ [125#8])
  | .atLeast m => [92#8, 123#8] ++ ((m.text ++ [44#8]) ++ ([92#8] ++ [125#8]))
  | .between m n => [92#8, 123#8] ++ ((m.text ++ [44#8]) ++ ((n.text ++ [92#8]) ++ [125#8]))

def Bounds.lo : Bounds → Byte
  | .exact m | .atLeast m | .between m _ => m.byte

def Bounds.hi : Bounds → Byte
  | .exact m => m.byte
  | .atLeast _ => 255#8
  | .between _ n => n.byte

/-- What is tested before `compile` goes on. -/
def Bounds.accepted : Bounds → Prop
  | .exact m | .atLeast m => m.stored < 255
  | .between m n => m.stored < 255 ∧ n.stored < 255 ∧ m.byte.toNat ≤ n.byte.toNat

instance (b : Bounds) : Decidable b.accepted :=
  match b with
  | .exact m | .atLeast m => inferInstanceAs (Decidable (m.stored < 255))
  | .between m n => inferInstanceAs (Decidable (m.stored < 255 ∧ n.stored < 255 ∧ m.byte.toNat ≤ n.byte.toNat))

/-- The numbers are at most 254 and in their order. -/
def Bounds.valid : Bounds → Prop
  | .exact m | .atLeast m => m.value ≤ 254
  | .between m n => m.value ≤ 254 ∧ n.value ≤ 254 ∧ m.value ≤ n.value

instance (b : Bounds) : Decidable b.valid :=
  match b with
  | .exact m | .atLeast m => inferInstanceAs (Decidable (m.value ≤ 254))
  | .between m n => inferInstanceAs (Decidable (m.value ≤ 254 ∧ n.value ≤ 254 ∧ m.value ≤ n.value))

def Bounds.low : Bounds → Nat
  | .exact m | .atLeast m | .between m _ => m.value

def Bounds.high : Bounds → Nat
  | .exact m => m.value
  | .atLeast _ => 255
  | .between _ n => n.value

section Numbers

variable {inp : Input} {s : State} {cflg : Nat} {d e : Byte} {ds : List Byte}

theorem bmod_horner (n i : Nat) (hd : 48 ≤ d.toNat) :
    (10 * (i : Int).bmod n + d.toNat - 48).bmod n = (horner i d : Int).bmod n := by
  calc (10 * (i : Int).bmod n + d.toNat - 48).bmod n
      = (10 * (i : Int).bmod n + (d.toNat - 48)).bmod n := by rw [Int.add_sub_assoc]
    _ = ((10 * (i : Int)).bmod n + (d.toNat - 48)).bmod n := by rw [← Int.bmod_add_bmod, Int.mul_bmod_bmod]
    _ = (10 * (i : Int) + (d.toNat - 48)).bmod n := Int.bmod_add_bmod
    _ = (horner i d : Int).bmod n := by
      congr 1
      rw [horner]
      omega

def turn (i : Int) (d : Byte) : Int := wrap (10 * i + d.toNat - 48)

theorem foldl_turn (i : Nat) (hds : ∀ d ∈ ds, 48 ≤ d.toNat) : ds.foldl turn (wrap i) = wrap (ds.foldl horner i : Nat) := by
  induction ds generalizing i with
  | nil => rw [List.foldl_nil, List.foldl_nil]
  | cons d ds ih =>
      have hturn : turn (wrap i) d = wrap (horner i d : Nat) := by
        rw [turn, wrap, wrap, wrap]
        exact bmod_horner _ i (hds d (by simp))
      rw [List.foldl_cons, List.foldl_cons, hturn]
      exact ih _ fun d hd => hds d (by simp [hd])

theorem char_digit (hd : 48 ≤ d.toNat ∧ d.toNat ≤ 57) : inp.char d = d.toNat := char_of_lt inp (by omega)

theorem next_digit (cflg : Nat) {x : Byte} {i : Int} (hd : 48 ≤ d.toNat ∧ d.toNat ≤ 57) (hread : inp.pattern[s.sp]? = some x) :
    next inp ⟨.digits (inp.char d) i cflg, s⟩ =
      some (if inp.char x ≠ ch '\\' ∧ inp.char x ≠ ch ',' then ⟨.digits (inp.char x) (turn i d) cflg, readOne s⟩
        else ⟨.limit (inp.char x) (turn i d) cflg, readOne s⟩) := by
  have hdigit : ch '0' ≤ (d.toNat : Int) ∧ (d.toNat : Int) ≤ ch '9' :=
    ⟨Int.ofNat_le.mpr hd.1, Int.ofNat_le.mpr hd.2⟩
  rw [char_digit hd]
  simp only [next, digits]
  rw [if_pos hdigit, getc_eq hread]
  rfl

theorem reaches_limit (cflg : Nat) {i : Int} (hds : ∀ x ∈ d :: ds, 48 ≤ x.toNat ∧ x.toNat ≤ 57) (he : e = 92#8 ∨ e = 44#8)
    (hahead : Ahead inp s (ds ++ [e])) :
    Reaches (next inp) ⟨.digits (inp.char d) i cflg, s⟩
      ⟨.limit (inp.char e) ((d :: ds).foldl turn i) cflg, skip (ds.length + 1) s⟩ := by
  have hd := hds d (by simp)
  induction ds generalizing d i s with
  | nil =>
      have hend : ¬ (inp.char e ≠ ch '\\' ∧ inp.char e ≠ ch ',') := by
        rintro ⟨hback, hcomma⟩
        obtain rfl | rfl := he
        · exact hback (char_of_lt inp (by decide))
        · exact hcomma (char_of_lt inp (by decide))
      have hstep := next_digit cflg (i := i) hd hahead.head
      rw [if_neg hend] at hstep
      exact reaches_one hstep
  | cons x ds ih =>
      have hx := hds x (by simp)
      have hmore : inp.char x ≠ ch '\\' ∧ inp.char x ≠ ch ',' := by
        constructor
        · exact char_ne (d := 92#8) (by rintro rfl; exact absurd hx.2 (by decide)) (by decide)
        · exact char_ne (d := 44#8) (by rintro rfl; exact absurd hx.1 (by decide)) (by decide)
      have hstep := next_digit cflg (i := i) hd hahead.head
      rw [if_pos hmore] at hstep
      refine reaches_head hstep ?_
      have hrest := ih (i := turn i d) (fun y hy => hds y (List.mem_cons_of_mem _ hy)) hahead.tail hx
      have hskip : skip (ds.length + 1) (readOne s) = skip ((x :: ds).length + 1) s := by
        simp only [skip, readOne, List.length_cons]
        congr 1
        omega
      rwa [hskip] at hrest

theorem reaches_number (cflg : Nat) (m : Digits) (he : e = 92#8 ∨ e = 44#8) (hahead : Ahead inp s (m.text ++ [e])) :
    Reaches (next inp) ⟨.nlim cflg, s⟩ ⟨.limit (inp.char e) m.stored cflg, skip (m.text ++ [e]).length s⟩ := by
  have hnlim : next inp ⟨.nlim cflg, s⟩ = some ⟨.digits (inp.char m.first) 0 cflg, readOne s⟩ := by
    simp only [next, nlim]
    rw [getc_eq (Ahead.head hahead)]
  have hlimit := reaches_limit cflg (i := wrap 0) m.digit he (Ahead.tail hahead)
  have hvalue : (m.first :: m.rest).foldl turn (wrap 0) = m.stored := foldl_turn 0 fun d hd => (m.digit d hd).1
  have hskip : skip (m.rest.length + 1) (readOne s) = skip (m.text ++ [e]).length s := by
    simp only [skip, readOne, Digits.text, List.length_append, List.length_cons, List.length_nil]
    congr 1
    omega
  rw [hvalue, hskip] at hlimit
  exact reaches_head hnlim hlimit

end Numbers

section Braces

variable {inp : Input} {s : State} {cflg : Nat} {i : Int}

def marked (last : Nat) (s : State) : State := { s with mem := update s.mem last (s.mem last ||| rnge) }

theorem reaches_nlim {last : Nat} (hahead : Ahead inp s [92#8, 123#8]) (heof : inp.eof ≠ ch '\\')
    (hlast : s.lastep = some last) (hlt : last < s.ep) (hroom : s.ep < inp.endbuf) :
    Reaches (next inp) ⟨.loop, s⟩ ⟨.nlim 0, skip 2 (marked last s)⟩ := by
  have hchar : inp.char 92#8 = 92 := char_of_lt inp (by decide)
  have hbrace : inp.char 123#8 = 123 := char_of_lt inp (by decide)
  have heof' : ¬ (92 : Int) = inp.eof := fun h => heof h.symm
  have hpeek : inp.pattern[s.sp + 1]? = some 123#8 := hahead.tail.head
  have hin : last < inp.endbuf := by omega
  have hloop : next inp ⟨.loop, s⟩ = some ⟨.escape, readOne s⟩ := by
    simp only [next, loop, nextChar]
    rw [if_neg (by omega), getc_eq hahead.head, hchar]
    simp [heof', peekc, readOne, hpeek, hbrace]
  have hescape : next inp ⟨.escape, readOne s⟩ = some ⟨.interval, readOne (readOne s)⟩ := by
    simp only [next, escape]
    rw [getc_eq hahead.tail.head, hbrace]
    simp
  have hinterval : next inp ⟨.interval, readOne (readOne s)⟩ = some ⟨.nlim 0, skip 2 (marked last s)⟩ := by
    simp [next, interval, readOne, hlast, store, hin, skip, marked]
  exact reaches_head hloop (reaches_head hescape (reaches_one hinterval))

theorem next_tooBig {x : Int} (hi : 255 ≤ i) : next inp ⟨.limit x i cflg, s⟩ = some ⟨.error 11, s⟩ := by
  simp only [next, limit]
  rw [if_pos hi]

theorem next_stored (cflg : Nat) (hi : i < 255) (hroom : s.ep < inp.endbuf) :
    next inp ⟨.limit (inp.char 92#8) i cflg, s⟩ = some ⟨.closeBrace i cflg, put (toChar i) s⟩ := by
  have hchar : inp.char 92#8 = 92 := char_of_lt inp (by decide)
  simp only [next, limit, hchar, emit, store]
  rw [if_neg (by omega), if_pos hroom, if_neg (by decide)]
  rfl

theorem next_comma (hi : i < 255) (hroom : s.ep < inp.endbuf) :
    next inp ⟨.limit (inp.char 44#8) i 0, s⟩ = some ⟨.upper i, put (toChar i) s⟩ := by
  have hchar : inp.char 44#8 = 44 := char_of_lt inp (by decide)
  simp only [next, limit, hchar, emit, store]
  rw [if_neg (by omega), if_pos hroom, if_pos (by decide), if_neg (by decide)]
  rfl

theorem next_unbounded (hahead : Ahead inp s [92#8]) (hroom : s.ep < inp.endbuf) :
    next inp ⟨.upper i, s⟩ = some ⟨.closeBrace i 1, put 255#8 (readOne s)⟩ := by
  have hchar : inp.char 92#8 = ch '\\' := char_of_lt inp (by decide)
  have hroom' : (readOne s).ep < inp.endbuf := hroom
  simp only [next, upper]
  rw [getc_eq hahead.head, if_pos hchar, emit, store, if_pos hroom']
  rfl

theorem next_second {d : Byte} (hread : inp.pattern[s.sp]? = some d) (hd : 48 ≤ d.toNat ∧ d.toNat ≤ 57) :
    next inp ⟨.upper i, s⟩ = some ⟨.nlim 1, s⟩ := by
  have hne : ¬ inp.char d = ch '\\' :=
    char_ne (d := 92#8) (by rintro rfl; exact absurd hd.2 (by decide)) (by decide)
  simp only [next, upper]
  rw [getc_eq hread, if_neg hne]
  rfl

theorem next_once (hahead : Ahead inp s [125#8]) (hroom : s.ep < inp.endbuf) :
    next inp ⟨.closeBrace i 0, s⟩ = some ⟨.loop, put (toChar i) (readOne s)⟩ := by
  have hchar : ¬ inp.char 125#8 ≠ ch '}' := not_not.mpr (char_of_lt inp (by decide))
  have hroom' : (readOne s).ep < inp.endbuf := hroom
  simp only [next, closeBrace]
  rw [getc_eq hahead.head, if_neg hchar, if_pos trivial, emit, store, if_pos hroom']
  rfl

theorem next_pair (lo hi : Byte) (hahead : Ahead inp (put hi (put lo s)) [125#8]) :
    next inp ⟨.closeBrace i 1, put hi (put lo s)⟩ =
      some (if hi.toNat < lo.toNat then ⟨.error 46, readOne (put hi (put lo s))⟩
        else ⟨.loop, readOne (put hi (put lo s))⟩) := by
  have hchar : ¬ inp.char 125#8 ≠ ch '}' := not_not.mpr (char_of_lt inp (by decide))
  have hhi : (readOne (put hi (put lo s))).mem ((readOne (put hi (put lo s))).ep - 1) = hi := update_self ..
  have hlo : (readOne (put hi (put lo s))).mem ((readOne (put hi (put lo s))).ep - 2) = lo :=
    (update_of_ne (Nat.ne_of_lt (Nat.lt_succ_self s.ep)) _ _).trans (update_self ..)
  simp only [next, closeBrace]
  rw [getc_eq hahead.head, if_neg hchar, if_neg (by decide), hhi, hlo]

def counted (last : Nat) (b : Bounds) (s : State) : State := skip b.text.length (put b.hi (put b.lo (marked last s)))

theorem reaches_low {last : Nat} {e : Byte} {more : List Byte} (m : Digits) (he : e = 92#8 ∨ e = 44#8)
    (hahead : Ahead inp s ([92#8, 123#8] ++ ((m.text ++ [e]) ++ more))) (heof : inp.eof ≠ ch '\\')
    (hlast : s.lastep = some last) (hlt : last < s.ep) (hroom : s.ep < inp.endbuf) :
    ∃ n, n = m.text.length + 3 ∧ Ahead inp (skip n s) more ∧
      Reaches (next inp) ⟨.loop, s⟩ ⟨.limit (inp.char e) m.stored 0, skip n (marked last s)⟩ := by
  have hnlim := reaches_nlim hahead.left heof hlast hlt hroom
  have hahead' : Ahead inp (skip 2 (marked last s)) ((m.text ++ [e]) ++ more) := hahead.skip
  have hnumber := reaches_number 0 m he hahead'.left
  rw [skip_skip] at hnumber
  rw [← List.append_assoc] at hahead
  refine ⟨_, ?_, hahead.skip.of_sp ?_, hnlim.trans hnumber⟩
  · rw [List.length_append, List.length_singleton]
    omega
  · simp only [skip, List.length_append, List.length_cons, List.length_nil]

theorem reaches_high {last : Nat} (m n : Digits) (hahead : Ahead inp s (Bounds.between m n).text)
    (heof : inp.eof ≠ ch '\\') (hlast : s.lastep = some last) (hlt : last < s.ep) (hroom : s.ep < inp.endbuf)
    (hm : m.stored < 255) :
    ∃ k, (Bounds.between m n).text.length = k + 1 ∧ Ahead inp (skip k s) [125#8] ∧
      Reaches (next inp) ⟨.loop, s⟩ ⟨.limit (inp.char 92#8) n.stored 1, skip k (put m.byte (marked last s))⟩ := by
  obtain ⟨k, hk, hmore, hlow⟩ := reaches_low m (.inr rfl) hahead heof hlast hlt hroom
  have hcomma := next_comma (s := skip k (marked last s)) hm hroom
  have hmore' : Ahead inp (put m.byte (skip k (marked last s))) ((n.text ++ [92#8]) ++ [125#8]) := hmore.of_sp rfl
  have hsecond := next_second (i := m.stored) hmore'.left.left.head (n.digit _ (by simp))
  have hnumber := reaches_number 1 n (.inl rfl) hmore'.left
  have hclose := hmore.skip
  have hskip := skip_skip (n.text ++ [92#8]).length k (put m.byte (marked last s))
  refine ⟨k + (n.text ++ [92#8]).length, ?_, hclose.of_sp (by rw [skip_skip]), ?_⟩
  · simp [Bounds.text, hk]
    omega
  · rw [← hskip]
    exact hlow.trans (reaches_head hcomma (reaches_head hsecond hnumber))

theorem reaches_counted {last : Nat} (b : Bounds) (hahead : Ahead inp s b.text) (heof : inp.eof ≠ ch '\\')
    (hlast : s.lastep = some last) (hlt : last < s.ep) (hroom : s.ep + 1 < inp.endbuf) (hb : b.accepted) :
    Reaches (next inp) ⟨.loop, s⟩ ⟨.loop, counted last b s⟩ := by
  have hroom' : s.ep < inp.endbuf := by omega
  cases b with
  | exact m =>
      obtain ⟨k, hk, hmore, hlow⟩ := reaches_low m (.inl rfl) hahead heof hlast hlt hroom'
      have hstored := next_stored 0 (s := skip k (marked last s)) hb hroom'
      have honce := next_once (i := m.stored) (s := put m.byte (skip k (marked last s))) (hmore.of_sp rfl) hroom
      have hlen : (Bounds.exact m).text.length = k + 1 := by simp [Bounds.text, hk]
      rw [counted, hlen]
      exact hlow.trans (reaches_head hstored (reaches_one honce))
  | atLeast m =>
      obtain ⟨k, hk, hmore, hlow⟩ := reaches_low m (.inr rfl) hahead heof hlast hlt hroom'
      have hcomma := next_comma (s := skip k (marked last s)) hb hroom'
      have hupper := next_unbounded (i := m.stored) (s := put m.byte (skip k (marked last s))) (hmore.left.of_sp rfl)
        hroom
      have hpair := next_pair m.byte 255#8 (i := m.stored) (s := skip (k + 1) (marked last s))
        (hmore.skip.of_sp rfl)
      have hle : ¬ (255#8).toNat < m.byte.toNat := Nat.not_lt.mpr (Nat.le_of_lt_succ m.byte.isLt)
      rw [if_neg hle] at hpair
      have hlen : (Bounds.atLeast m).text.length = k + 1 + 1 := by simp [Bounds.text, hk]
      rw [counted, hlen]
      exact hlow.trans (reaches_head hcomma (reaches_head hupper (reaches_one hpair)))
  | between m n =>
      obtain ⟨hm, hn, hle⟩ := hb
      obtain ⟨k, hlen, hmore, hhigh⟩ := reaches_high m n hahead heof hlast hlt hroom' hm
      have hstored := next_stored 1 (s := skip k (put m.byte (marked last s))) hn hroom
      have hpair := next_pair m.byte n.byte (i := n.stored) (s := skip k (marked last s))
        (hmore.of_sp rfl)
      rw [if_neg (Nat.not_lt.mpr hle)] at hpair
      rw [counted, hlen]
      exact hhigh.trans (reaches_head hstored (reaches_one hpair))

theorem reaches_rejected {last : Nat} (b : Bounds) (hahead : Ahead inp s b.text) (heof : inp.eof ≠ ch '\\')
    (hlast : s.lastep = some last) (hlt : last < s.ep) (hroom : s.ep + 1 < inp.endbuf) (hb : ¬ b.accepted) :
    ∃ val t, Reaches (next inp) ⟨.loop, s⟩ ⟨.error val, t⟩ := by
  have hroom' : s.ep < inp.endbuf := by omega
  cases b with
  | exact m =>
      obtain ⟨k, _, _, hlow⟩ := reaches_low m (.inl rfl) hahead heof hlast hlt hroom'
      exact ⟨11, _, hlow.trans (reaches_one (next_tooBig (Int.not_lt.mp hb)))⟩
  | atLeast m =>
      obtain ⟨k, _, _, hlow⟩ := reaches_low m (.inr rfl) hahead heof hlast hlt hroom'
      exact ⟨11, _, hlow.trans (reaches_one (next_tooBig (Int.not_lt.mp hb)))⟩
  | between m n =>
      by_cases hm : m.stored < 255
      · obtain ⟨k, _, hmore, hhigh⟩ := reaches_high m n hahead heof hlast hlt hroom' hm
        by_cases hn : n.stored < 255
        · have hgt : n.byte.toNat < m.byte.toNat := Nat.lt_of_not_le fun hle => hb ⟨hm, hn, hle⟩
          have hstored := next_stored 1 (s := skip k (put m.byte (marked last s))) hn hroom
          have hpair := next_pair m.byte n.byte (i := n.stored) (s := skip k (marked last s))
            (hmore.of_sp rfl)
          rw [if_pos hgt] at hpair
          exact ⟨46, _, hhigh.trans (reaches_head hstored (reaches_one hpair))⟩
        · exact ⟨11, _, hhigh.trans (reaches_one (next_tooBig (Int.not_lt.mp hn)))⟩
      · obtain ⟨k, _, _, hlow⟩ := reaches_low m (.inr rfl) hahead heof hlast hlt hroom'
        exact ⟨11, _, hlow.trans (reaches_one (next_tooBig (Int.not_lt.mp hm)))⟩

end Braces

inductive Form
  | one
  | star
  | counts (b : Bounds)

def Form.text : Form → List Byte
  | .one => []
  | .star => [42#8]
  | .counts b => b.text

def Form.rep : Form → Rep
  | .one => .one
  | .star => .star
  | .counts b => .range b.lo b.hi

def Form.accepted : Form → Prop
  | .counts b => b.accepted
  | _ => True

def Form.room : Form → Nat
  | .counts _ => 1
  | _ => 0

section Forms

variable {inp : Input} {s t : State} {n : Nat} {i : Item}

theorem slice_change {mem : Nat → Byte} {a n : Nat} {op v : Byte} {tail : List Byte}
    (h : slice mem a n = op :: tail) : slice (update mem a v) a n = v :: tail := by
  cases n with
  | zero => cases h
  | succ n =>
      have hcons (mem : Nat → Byte) : slice mem a (n + 1) = mem a :: slice mem (a + 1) n := by
        rw [Nat.add_comm, slice_add]
        rfl
      rw [hcons] at h ⊢
      rw [update_self, ← (List.cons.inj h).2]
      congr 1
      apply slice_congr
      intro k hk _
      exact update_of_ne (by omega) _ _

theorem encode_star (i : Item) : (Instr.item i .star).encode = (i.opcode ||| Opcode.star) :: i.operands := by
  simp only [Instr.encode, Rep.mask, Rep.operands, List.append_nil]

theorem appends_star (h : Appends s t n (.item i .one)) :
    Appends s { readOne t with mem := update t.mem s.ep (t.mem s.ep ||| Opcode.star) } (n + 1) (.item i .star) := by
  have hlen : (Instr.item i .star).encode.length = (Instr.item i .one).encode.length := by
    rw [encode_star, encode_one, List.length_cons, List.length_cons]
  refine ⟨?_, fun a ha => ?_, ?_⟩
  · rw [hlen]
    exact congrArg (fun u : State => { readOne u with mem := update t.mem s.ep (t.mem s.ep ||| Opcode.star) }) h.rest
  · exact (update_of_ne (by omega) _ _).trans (h.frame a ha)
  · rw [hlen, encode_star, h.mem_head]
    exact slice_change (h.bytes.trans (encode_one i))

theorem appends_counted (h : Appends s t n (.item i .one)) (b : Bounds) :
    Appends s (counted s.ep b t) (n + b.text.length) (.item i (.range b.lo b.hi)) := by
  have hlen : (Instr.item i (.range b.lo b.hi)).encode.length = (Instr.item i .one).encode.length + 2 := by
    simp
  have hep := h.ep_eq
  have hpos : 0 < (Instr.item i .one).encode.length := by simp
  have hmem (a : Nat) (ha : a < t.ep) :
      (Counts.counted s.ep b t).mem a = update t.mem s.ep (t.mem s.ep ||| rnge) a := by
    have hne : a ≠ t.ep + 1 := by omega
    exact (update_of_ne hne _ _).trans (update_of_ne (Nat.ne_of_lt ha) _ _)
  refine ⟨?_, fun a ha => ?_, ?_⟩
  · rw [hlen, ← Nat.add_assoc, ← Nat.add_assoc]
    exact congrArg (fun u : State => { u with
      sp := u.sp + b.text.length
      ep := u.ep + 1 + 1
      mem := (Counts.counted s.ep b t).mem }) h.rest
  · rw [hmem a (by omega), update_of_ne (by omega)]
    exact h.frame a ha
  · have hitem : slice (Counts.counted s.ep b t).mem s.ep (Instr.item i .one).encode.length =
        (i.opcode ||| rnge) :: i.operands := by
      rw [slice_congr (fun k _ hk => hmem k (by omega)), h.mem_head]
      exact slice_change (h.bytes.trans (encode_one i))
    have hpair : slice (Counts.counted s.ep b t).mem t.ep 2 = [b.lo, b.hi] := by
      have hlo : (Counts.counted s.ep b t).mem t.ep = b.lo :=
        (update_of_ne (Nat.ne_of_lt (Nat.lt_succ_self t.ep)) _ _).trans (update_self ..)
      have hhi : (Counts.counted s.ep b t).mem (t.ep + 1) = b.hi := update_self ..
      simp only [slice, List.range'_succ, List.range'_zero, List.map_cons, List.map_nil, hlo, hhi]
    rw [hlen, slice_add, hitem, ← hep, hpair]
    rfl

theorem appends_form (h : Appends s t n (.item i .one)) (f : Form) (hf : f.accepted) (hahead : Ahead inp t f.text)
    (heof : ∀ c ∈ f.text.head?, inp.char c ≠ inp.eof) (hroom : t.ep + f.room < inp.endbuf) :
    ∃ t', Reaches (next inp) ⟨.loop, t⟩ ⟨.loop, t'⟩ ∧ Appends s t' (n + f.text.length) (.item i f.rep) := by
  have hlast := h.lastep_eq
  have hlt : s.ep < t.ep := by
    rw [h.ep_eq]
    simp
  cases f with
  | one => exact ⟨t, .refl, h⟩
  | star =>
      have hchar : inp.char 42#8 = 42 := char_of_lt inp (by decide)
      have hop : ¬ (t.mem s.ep = cbra ∨ t.mem s.ep = cket) := by
        rw [h.mem_head]
        cases i with
        | list neg map => cases neg <;> simp
        | _ => simp
      have heof' := heof 42#8 rfl
      rw [hchar] at heof'
      have hin : s.ep < inp.endbuf := by omega
      refine ⟨_, reaches_one ?_, appends_star h⟩
      simp only [next, loop, nextChar]
      rw [if_neg (by simp only [Form.room] at hroom; omega), getc_eq hahead.head, hchar]
      have hlast' : (readOne t).lastep = some s.ep := hlast
      simp [heof', hlast', store, hin]
      exact if_neg hop
  | counts b =>
      have heof' : inp.eof ≠ ch '\\' := by
        have hchar : inp.char 92#8 = ch '\\' := char_of_lt inp (by decide)
        have hne : inp.char 92#8 ≠ inp.eof := heof _ (by cases b <;> rfl)
        rw [hchar] at hne
        exact hne.symm
      exact ⟨_, reaches_counted b hahead heof' hlast hlt hroom hf, appends_counted h b⟩

end Forms

end SysvDev.Regexp.Counts
