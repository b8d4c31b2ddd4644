import SysvDev.Regexp.Bracket

namespace SysvDev.Regexp.Atoms

open StateTransition Transition Function Opcode Compile Moves Program Image Regexp.Bracket

/-- NUL, newline and the characters that the main loop takes apart. -/
def special : List Byte := [0#8, 10#8, 36#8, 42#8, 46#8, 91#8, 92#8, 94#8]

/-- NUL, newline and the characters that are special behind a backslash. -/
def escapes : List Byte :=
  [0#8, 10#8, 40#8, 41#8, 123#8, 49#8, 50#8, 51#8, 52#8, 53#8, 54#8, 55#8, 56#8, 57#8]

inductive Atom
  | chr (c : Byte) (h : c ∉ special)
  | esc (c : Byte) (h : c ∉ escapes)
  | dot
  | list (b : BracketList)

def Atom.text : Atom → List Byte
  | .chr c _ => [c]
  | .esc c _ => [92#8, c]
  | .dot => [46#8]
  | .list b => b.text

/-- `\n` stands for the newline. -/
def Atom.accepts : Atom → Byte → Bool
  | .chr c _, x => x == c
  | .esc c _, x => x == if c = 110#8 then 10#8 else c
  | .dot, x => x != 0#8
  | .list b, x => b.denotes x

theorem Atom.accepts_zero (a : Atom) : a.accepts 0#8 = false := by
  cases a with
  | chr c hc =>
      have hne : 0#8 ≠ c := by
        rintro rfl
        exact hc (by decide)
      simp [Atom.accepts, hne]
  | esc c hc =>
      have hne : 0#8 ≠ c := by
        rintro rfl
        exact hc (by decide)
      rw [Atom.accepts]
      split
      · rfl
      · simp [hne]
  | dot => rfl
  | list b => exact b.denotes_zero

/-- `GETC` gives the characters of a list as they are. -/
def Atom.Unsigned (inp : Input) : Atom → Prop
  | .list b => ∀ c ∈ b.first :: b.rest, inp.char c = c.toNat
  | _ => True

section

variable {inp : Input} {s t : State} {c d : Byte}

theorem char_ne (hne : c ≠ d) (hd : d.toNat < 128) : inp.char c ≠ d.toNat := by
  intro h
  have hmod := char_mod inp c
  rw [h] at hmod
  exact toNat_ne hne (by omega)

theorem toChar_char (inp : Input) (c : Byte) : toChar (inp.char c) = c := by
  apply BitVec.eq_of_toNat_eq
  rw [toChar, BitVec.toNat_ofInt]
  exact (congrArg Int.toNat (char_mod inp c)).trans (Int.toNat_natCast _)

theorem digit_mem_escapes : ∀ c : Byte, 49 ≤ c.toNat → c.toNat ≤ 57 → c ∈ escapes := by
  decide +kernel

def begun (s : State) : State := { readOne s with lastep := some s.ep }

theorem next_plain (hread : inp.pattern[s.sp]? = some c) (hc : c ∉ special) (heof : inp.char c ≠ inp.eof)
    (hroom : s.ep < inp.endbuf) : next inp ⟨.loop, s⟩ = some ⟨.defchar (inp.char c), begun s⟩ := by
  simp only [special, List.mem_cons, List.not_mem_nil, or_false, not_or] at hc
  obtain ⟨_, hnl, hdol, hstar, hdot, hopen, hback, _⟩ := hc
  have hnl' : ¬ inp.char c = ch '\n' := char_ne (d := 10#8) hnl (by decide)
  have hdol' : ¬ inp.char c = ch '$' := char_ne (d := 36#8) hdol (by decide)
  have hstar' : ¬ inp.char c = ch '*' := char_ne (d := 42#8) hstar (by decide)
  have hdot' : ¬ inp.char c = ch '.' := char_ne (d := 46#8) hdot (by decide)
  have hopen' : ¬ inp.char c = ch '[' := char_ne (d := 91#8) hopen (by decide)
  have hback' : ¬ inp.char c = ch '\\' := char_ne (d := 92#8) hback (by decide)
  simp only [next, loop, nextChar]
  rw [if_neg (by omega), getc_eq hread, if_neg hstar', if_neg hback', if_neg heof, if_neg hdot', if_neg hnl',
    if_neg hstar', if_neg hdol', if_neg hopen', if_neg hback']
  rfl

theorem next_dot (hread : inp.pattern[s.sp]? = some 46#8) (heof : inp.char 46#8 ≠ inp.eof)
    (hroom : s.ep < inp.endbuf) : next inp ⟨.loop, s⟩ = some ⟨.loop, put cdot (begun s)⟩ := by
  have hchar : inp.char 46#8 = 46 := char_of_lt inp (by decide)
  rw [hchar] at heof
  have hroom' : (readOne s).ep < inp.endbuf := hroom
  simp only [next, loop, nextChar]
  rw [if_neg (by omega), getc_eq hread, hchar]
  simp [heof, emit, store, hroom', put, begun]
  rfl

theorem next_backslash (hread : inp.pattern[s.sp]? = some 92#8) (hnext : inp.pattern[s.sp + 1]? = some c)
    (hc : c ≠ 123#8) (heof : inp.char 92#8 ≠ inp.eof) (hroom : s.ep < inp.endbuf) :
    next inp ⟨.loop, s⟩ = some ⟨.escape, begun s⟩ := by
  have hchar : inp.char 92#8 = 92 := char_of_lt inp (by decide)
  rw [hchar] at heof
  have hbrace : ¬ inp.char c = 123 := char_ne (d := 123#8) hc (by decide)
  simp only [next, loop, nextChar]
  rw [if_neg (by omega), getc_eq hread, hchar]
  simp [heof, peekc, readOne, hnext, hbrace, begun]

theorem next_escape (hread : inp.pattern[s.sp]? = some c) (hc : c ∉ escapes) : ∃ x,
    next inp ⟨.escape, s⟩ = some ⟨.defchar x, readOne s⟩ ∧ toChar x = if c = 110#8 then 10#8 else c := by
  have hdigit : ¬ (ch '1' ≤ inp.char c ∧ inp.char c ≤ ch '9') := by
    rintro ⟨hle, hge⟩
    have hmod := char_mod inp c
    have hle' : (49 : Int) ≤ inp.char c := hle
    have hge' : inp.char c ≤ (57 : Int) := hge
    exact hc (digit_mem_escapes c (by omega) (by omega))
  simp only [escapes, List.mem_cons, List.not_mem_nil, or_false, not_or] at hc
  obtain ⟨_, hnl, hopen, hclose, hbrace, _⟩ := hc
  have hnl' : ¬ inp.char c = ch '\n' := char_ne (d := 10#8) hnl (by decide)
  have hopen' : ¬ inp.char c = ch '(' := char_ne (d := 40#8) hopen (by decide)
  have hclose' : ¬ inp.char c = ch ')' := char_ne (d := 41#8) hclose (by decide)
  have hbrace' : ¬ inp.char c = ch '{' := char_ne (d := 123#8) hbrace (by decide)
  simp only [next, escape]
  rw [getc_eq hread, if_neg hopen', if_neg hclose', if_neg hbrace', if_neg hnl']
  by_cases hn : c = 110#8
  · have hn' : inp.char c = ch 'n' := by
      rw [hn]
      exact char_of_lt inp (by decide)
    rw [if_pos hn', if_pos hn]
    exact ⟨_, rfl, rfl⟩
  · have hn' : ¬ inp.char c = ch 'n' := char_ne (d := 110#8) hn (by decide)
    rw [if_neg hn', if_neg hn, if_neg hdigit]
    exact ⟨_, rfl, toChar_char inp c⟩

theorem next_defchar {x : Int} (hroom : s.ep + 1 < inp.endbuf) :
    next inp ⟨.defchar x, s⟩ = some ⟨.loop, put (toChar x) (put cchr { s with lastep := some s.ep })⟩ := by
  have hroom' : s.ep < inp.endbuf := by omega
  simp [next, defchar, emit, store, hroom, hroom', put]

theorem appends_dot (s : State) : Appends s (put cdot (begun s)) 1 (.item .dot .one) := by
  refine ⟨rfl, fun a ha => update_of_ne (Nat.ne_of_lt ha) _ _, ?_⟩
  simp [slice, put, begun, readOne]

theorem appends_chr (s : State) (n : Nat) (c : Byte) :
    Appends s (put c (put cchr { s with sp := s.sp + n, lastep := some s.ep })) n (.item (.chr c) .one) := by
  refine ⟨rfl, fun a ha => ?_, ?_⟩
  · have hne : a ≠ s.ep + 1 := by omega
    exact (update_of_ne hne _ _).trans (update_of_ne (Nat.ne_of_lt ha) _ _)
  · simp [slice, put, List.range'_succ]

end

theorem reaches_atom {inp : Input} {s : State} (a : Atom) (hahead : Ahead inp s a.text)
    (heof : ∀ c ∈ a.text.head?, inp.char c ≠ inp.eof) (hchars : a.Unsigned inp) (hroom : s.ep + 33 < inp.endbuf) :
    ∃ i t, Reaches (next inp) ⟨.loop, s⟩ ⟨.loop, t⟩ ∧ Appends s t a.text.length (.item i .one) ∧
      ∀ x, i.accepts x = a.accepts x := by
  cases a with
  | chr c hc =>
      have hnext := next_plain hahead.head hc (heof c rfl) (by omega)
      have hroom' : (begun s).ep + 1 < inp.endbuf := Nat.lt_of_le_of_lt (Nat.add_le_add_left (by decide) s.ep) hroom
      have hdef := next_defchar (x := inp.char c) hroom'
      rw [toChar_char] at hdef
      exact ⟨.chr c, _, reaches_head hnext (reaches_one hdef), appends_chr s 1 c, fun x => rfl⟩
  | esc c hc =>
      have hbrace : c ≠ 123#8 := by
        rintro rfl
        exact hc (by decide)
      have hnext := next_backslash hahead.head hahead.tail.head hbrace (heof _ rfl) (by omega)
      obtain ⟨x, hescape, hx⟩ := next_escape (s := begun s) hahead.tail.head hc
      have hroom' : (readOne (begun s)).ep + 1 < inp.endbuf :=
        Nat.lt_of_le_of_lt (Nat.add_le_add_left (by decide) s.ep) hroom
      have hdef := next_defchar (x := x) hroom'
      rw [hx] at hdef
      exact ⟨.chr _, _, reaches_head hnext (reaches_head hescape (reaches_one hdef)), appends_chr s 2 _, fun x => rfl⟩
  | dot => exact ⟨.dot, _, reaches_one (next_dot hahead.head (heof _ rfl) (by omega)), appends_dot s, fun x => rfl⟩
  | list b =>
      have heof' : inp.eof ≠ ch '[' := by
        intro h
        apply heof 91#8 rfl
        rw [h]
        exact char_of_lt inp (by decide)
      obtain ⟨i, t, hr, happ, _, hacc⟩ := reaches_bracket b hahead heof' hchars (by split <;> omega)
      exact ⟨i, t, hr, happ, hacc⟩

end SysvDev.Regexp.Atoms
