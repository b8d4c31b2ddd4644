import SysvDev.Regexp.Intervals
import SysvDev.Regexp.Leftmost

namespace SysvDev.Regexp.Grammar

open StateTransition Transition Opcode Compile Moves Program Image Regexp.Bracket Atoms Counts
open Advance (Subject Globals Groups freshGlobals)
open Split Match Intervals

/-- The parts of an expression. A group carries its number. -/
inductive Token
  | item (a : Atom) (f : Form)
  | bra (n : Fin maxBra)
  | ket (n : Fin maxBra)
  | back (n : Fin maxBra)
  | dol

def Token.text : Token → List Byte
  | .item a f => a.text ++ f.text
  | .bra _ => [92#8, 40#8]
  | .ket _ => [92#8, 41#8]
  | .back n => [92#8, 49#8 + groupByte n]
  | .dol => [36#8]

def Sane : Form → Prop
  | .counts b => b.valid
  | _ => True

/-- An interval without an upper bound ends 20000 behind its lower one, as
`getrnge` has it: that is what `\{m,\}` is taken to stand for. -/
def most : Bounds → Nat
  | .atLeast m => m.value + 20000
  | b => b.high

def allowed (accepts : Byte → Bool) (text : List Byte) : Form → Prop
  | .one => ∃ c, text = [c] ∧ accepts c = true
  | .star => ∀ c ∈ text, accepts c = true
  | .counts b => (∀ c ∈ text, accepts c = true) ∧ b.low ≤ text.length ∧ text.length ≤ most b

/-- What a part of the expression stands for: the text from `p` to `q`. -/
def Token.Takes (s : Subject) (t : Token) (g : Groups) (p q : Nat) (g' : Groups) : Prop :=
  match t with
  | .item a f => g' = g ∧ allowed a.accepts (between s p q) f
  | .bra n => g' = g.setBeg n p ∧ q = p
  | .ket n => g' = g.setEnd n p ∧ q = p
  | .back n => g' = g ∧ between s p q = between s (g.braslist n) (g.braelist n)
  | .dol => g' = g ∧ q = p ∧ p = s.chars.length

/-- The text from `p` to `q` is one that the expression stands for. -/
inductive Reads (s : Subject) : List Token → Groups → Nat → Groups → Nat → Prop
  | nil (g p) : Reads s [] g p g p
  | cons {t ts g p g' q g'' r} (hpq : p ≤ q) (hq : q ≤ s.chars.length)
      (ht : t.Takes s g p q g') (hts : Reads s ts g' q g'' r) : Reads s (t :: ts) g p g'' r

/-- Groups are nested and numbered as they are opened, `$` is the last part,
and a back-reference has at least as many closed groups before it as its number
says, its own among them: `compile` counts them. -/
def Orderly (opened closed : List (Fin maxBra)) (n : Nat) : List Token → Prop
  | [] => opened = []
  | .item _ f :: ts => Sane f ∧ Orderly opened closed n ts
  | .bra m :: ts => (m : Nat) = n ∧ Orderly (m :: opened) closed (n + 1) ts
  | .ket m :: ts => ∃ os, opened = m :: os ∧ Orderly os (m :: closed) n ts
  | .back m :: ts => m ∈ closed ∧ (m : Nat) < closed.length ∧ Orderly opened closed n ts
  | .dol :: ts => ts = [] ∧ Orderly opened closed n ts

/-- The instruction that a part becomes. -/
inductive Stands : Token → Instr → Prop
  | item {a f i} (hacc : ∀ x, i.accepts x = a.accepts x) (hf : Sane f) : Stands (.item a f) (.item i f.rep)
  | bra (n) : Stands (.bra n) (.bra n)
  | ket (n) : Stands (.ket n) (.ket n)
  | back (n) : Stands (.back n) (.back n)
  | dol : Stands .dol .dol

section Meaning

variable {s : Subject} {t : Token} {i : Instr} {ts : List Token} {js : List Instr}

theorem low_le_high {b : Bounds} (h : b.valid) : b.low ≤ b.high := by
  cases b with
  | exact m => exact Nat.le_refl _
  | atLeast m => exact Nat.le_succ_of_le h
  | between m n => exact h.2.2

theorem lo_add_extra {b : Bounds} (h : b.valid) : b.lo.toNat + extra b.lo b.hi = most b := by
  obtain ⟨hlo, hhi⟩ := bytes_of_valid h
  have hle := low_le_high h
  cases b with
  | atLeast m =>
      rw [hlo]
      rfl
  | exact m | between m n =>
      have hne : Bounds.hi _ ≠ 255#8 := fun hc => by
        rw [hc] at hhi
        simp only [Bounds.valid, Bounds.high] at h hhi
        simp at hhi
        omega
      rw [extra, rngeSize, if_neg hne, hlo, hhi]
      simp only [most]
      omega

theorem Stands.sound (h : Stands t i) : Sound i := by
  cases h with
  | @item a f i hacc hf =>
      refine ⟨(hacc 0#8).trans a.accepts_zero, fun lo hi hr => ?_⟩
      cases f with
      | counts b =>
          cases hr
          obtain ⟨hlo, hhi⟩ := bytes_of_valid hf
          rw [hlo, hhi]
          exact low_le_high hf
      | _ => cases hr
  | _ => trivial

theorem Stands.piece_iff (h : Stands t i) {g g' : Groups} {p q : Nat} :
    Piece s i g p q g' ↔ t.Takes s g p q g' := by
  cases h with
  | @item a f i hacc hf =>
      simp only [Piece, Token.Takes, funext hacc]
      cases f with
      | counts b =>
          simp only [Form.rep, allows, allowed, (bytes_of_valid hf).1]
          rw [← lo_add_extra hf, (bytes_of_valid hf).1]
      | _ => exact Iff.rfl
  | _ => exact Iff.rfl

theorem splits_iff (h : List.Forall₂ Stands ts js) {g g' : Groups} {p q : Nat} :
    Splits s js g p g' q ↔ Reads s ts g p g' q := by
  induction h generalizing g p with
  | nil =>
      constructor
      · intro hs
        cases hs
        exact .nil _ _
      · intro hr
        cases hr
        exact .nil _ _
  | cons ht _ ih =>
      constructor
      · intro hs
        cases hs with
        | cons hpq hq hi his => exact .cons hpq hq (ht.piece_iff.mp hi) (ih.mp his)
      · intro hr
        cases hr with
        | cons hpq hq hi his => exact .cons hpq hq (ht.piece_iff.mpr hi) (ih.mpr his)

theorem grouped_of_orderly (h : List.Forall₂ Stands ts js) {opened closed : List (Fin maxBra)} {n : Nat}
    (hord : Orderly opened closed n ts) (hlt : ∀ m ∈ opened ++ closed, (m : Nat) < n) : Grouped opened closed js := by
  induction h generalizing opened closed n with
  | nil => exact hord
  | cons ht _ ih =>
      cases ht with
      | item hacc hf => exact ih hord.2 hlt
      | dol => exact ih hord.2 hlt
      | back m => exact ⟨hord.1, ih hord.2.2 hlt⟩
      | bra m =>
          obtain ⟨hm, hord⟩ := hord
          refine ⟨fun hin => ?_, fun hin => ?_, ih hord fun k hk => ?_⟩
          · have := hlt m (by simp [hin])
            omega
          · have := hlt m (by simp [hin])
            omega
          · obtain rfl | hk := List.mem_cons.mp hk
            · omega
            · exact Nat.lt_succ_of_lt (hlt k hk)
      | ket m =>
          obtain ⟨os, rfl, hord⟩ := hord
          exact ⟨os, rfl, ih hord fun k hk => hlt k (by simpa [or_left_comm] using hk)⟩

theorem wellFormed_of_orderly (h : List.Forall₂ Stands ts js) (hord : Orderly [] [] 0 ts) : WellFormed js := by
  refine ⟨?_, grouped_of_orderly h hord (by simp)⟩
  clear hord
  induction h with
  | nil => simp
  | cons ht _ ih => exact List.forall_mem_cons.mpr ⟨ht.sound, ih⟩

end Meaning

section Compiling

variable {inp : Input} {s : State} {e : Byte} {is : List Instr} {opened closed : List (Fin maxBra)} {n : Nat}

/-- What `compile` has written, and its record of the groups. -/
structure Emitted (s : State) (opened closed : List (Fin maxBra)) (n : Nat) (is : List Instr) : Prop where
  code : Code s is
  bracket : s.bracket = opened.map groupByte
  closed : s.closed = closed.length
  nbra : s.nbra = n

/-- The delimiter is not in the text, and `GETC` gives the characters of a list
as they are. -/
def Token.Plain (inp : Input) (t : Token) : Prop :=
  (∀ c ∈ t.text, inp.char c ≠ inp.eof) ∧ ∀ a f, t = .item a f → a.Unsigned inp

theorem code_appends {t : State} {k : Nat} {i : Instr} (h : Appends s t k i) (hs : Code s is) : Code t (is ++ [i]) := by
  have hframe : slice t.mem 0 s.ep = slice s.mem 0 s.ep := slice_congr fun a _ ha => h.frame a (by omega)
  rw [Code, h.ep_eq, slice_add, bytes_append, bytes_single, Nat.zero_add, h.bytes, hframe, hs]

theorem Emitted.appends {t : State} {k : Nat} {i : Instr} (hs : Emitted s opened closed n is) (h : Appends s t k i) :
    Emitted t opened closed n (is ++ [i]) := by
  have hrest := h.rest
  refine ⟨code_appends h hs.code, ?_, ?_, ?_⟩
  · rw [hrest]
    exact hs.bracket
  · rw [hrest]
    exact hs.closed
  · rw [hrest]
    exact hs.nbra

theorem length_encode_item (i : Item) (r : Rep) : (Instr.item i r).encode.length ≤ 33 + r.operands.length := by
  have hoperands : i.operands.length ≤ 32 := by
    cases i <;> simp
  rw [Instr.encode, List.length_cons, List.length_append]
  omega

theorem reaches_item (a : Atom) (f : Form) (hplain : (Token.item a f).Plain inp) (hf : Sane f)
    (hahead : Ahead inp s (a.text ++ f.text)) (hroom : s.ep + 35 < inp.endbuf) :
    ∃ i t, Reaches (next inp) ⟨.loop, s⟩ ⟨.loop, t⟩ ∧ Appends s t (a.text ++ f.text).length (.item i f.rep) ∧
      ∀ x, i.accepts x = a.accepts x := by
  obtain ⟨heof, hlist⟩ := hplain
  have hhead (text : List Byte) (hsub : ∀ c ∈ text, c ∈ a.text ++ f.text) :
      ∀ c ∈ text.head?, inp.char c ≠ inp.eof := fun c hc => heof c (hsub c (List.mem_of_mem_head? hc))
  obtain ⟨i, t, hr, happ, hacc⟩ := reaches_atom a hahead.left (hhead _ fun c hc => by simp [hc]) (hlist a f rfl) (by omega)
  have hlen := length_encode_item i .one
  have hep := happ.ep_eq
  have hsp : t.sp = (skip a.text.length s).sp := by
    rw [happ.rest]
    rfl
  have hacc' : f.accepted := by
    cases f with
    | counts b => exact accepted_of_valid hf
    | _ => trivial
  have hroom' : f.room ≤ 1 := by cases f <;> simp [Form.room]
  simp only [Rep.operands, List.length_nil] at hlen
  obtain ⟨t', hr', happ'⟩ := appends_form happ f hacc' (hahead.skip.of_sp hsp) (hhead _ fun c hc => by simp [hc]) (by omega)
  rw [List.length_append]
  exact ⟨i, t', hr.trans hr', happ', hacc⟩

theorem toNat_digit : ∀ m : Fin maxBra, (49#8 + groupByte m).toNat = 49 + m := by decide

def Marks (c : Byte) (l : Label) : Prop :=
  (c = 40#8 ∧ l = .bra) ∨ (c = 41#8 ∧ l = .ket) ∨ ∃ m : Fin maxBra, c = 49#8 + groupByte m ∧ l = .back (m : Nat)

theorem next_mark {c : Byte} {l : Label} (hread : inp.pattern[s.sp]? = some c) (hl : Marks c l) :
    next inp ⟨.escape, s⟩ = some ⟨l, readOne s⟩ := by
  simp only [next, escape]
  rw [getc_eq hread]
  obtain ⟨rfl, rfl⟩ | ⟨rfl, rfl⟩ | ⟨m, rfl, rfl⟩ := hl
  · rw [char_of_lt inp (by decide)]
    rfl
  · rw [char_of_lt inp (by decide)]
    rfl
  · have hdigit := toNat_digit m
    have hm : (m : Nat) < 9 := m.isLt
    have hrange : ch '1' ≤ (49 + m : Nat) ∧ ((49 + m : Nat) : Int) ≤ ch '9' := by simp; omega
    have hne (c : Char) (hc : c.toNat < 49 ∨ 57 < c.toNat) : ¬ ((49 + m : Nat) : Int) = ch c := by
      rw [ch]
      omega
    rw [char_of_lt inp (by omega), hdigit]
    rw [if_neg (hne _ (by decide)), if_neg (hne _ (by decide)), if_neg (hne _ (by decide)), if_neg (hne _ (by decide)),
      if_neg (hne _ (by decide)), if_pos hrange]
    simp

theorem reaches_mark {c : Byte} {l : Label} (hahead : Ahead inp s [92#8, c]) (heof : inp.char 92#8 ≠ inp.eof)
    (hroom : s.ep < inp.endbuf) (hl : Marks c l) :
    Reaches (next inp) ⟨.loop, s⟩ ⟨l, readOne (begun s)⟩ := by
  have hc : c ≠ 123#8 := by
    obtain ⟨rfl, -⟩ | ⟨rfl, -⟩ | ⟨m, rfl, -⟩ := hl
    · decide
    · decide
    · intro h
      have hm := (toNat_digit m).symm.trans (congrArg BitVec.toNat h)
      have hlt : (m : Nat) < 9 := m.isLt
      simp at hm
      omega
  have hnext : inp.pattern[s.sp + 1]? = some c := hahead.tail.head
  exact reaches_head (next_backslash hahead.head hnext hc heof hroom) (reaches_one (next_mark (s := begun s) hnext hl))

theorem toChar_fin (m : Fin maxBra) : toChar (m : Nat) = groupByte m := by simp [toChar, groupByte]

theorem next_bra {m : Fin maxBra} (hm : s.nbra = m) (hroom : s.ep + 1 < inp.endbuf) :
    next inp ⟨.bra, s⟩ = some ⟨.loop, { put (groupByte m) (put cbra s) with
      bracket := groupByte m :: s.bracket, nbra := m + 1 }⟩ := by
  have hroom' : s.ep < inp.endbuf := by omega
  have hlt : ¬ maxBra ≤ (m : Nat) := Nat.not_le.mpr m.isLt
  simp only [next, bra, hm, if_neg hlt]
  simp [emit, store, hroom, hroom', put, toChar_fin]

theorem next_ket {b : Byte} {bs : List Byte} (hb : s.bracket = b :: bs) (hroom : s.ep + 1 < inp.endbuf) :
    next inp ⟨.ket, s⟩ = some ⟨.loop, { put b (put cket s) with bracket := bs, closed := s.closed + 1 }⟩ := by
  have hroom' : s.ep < inp.endbuf := by omega
  simp [next, ket, hb, emit, store, hroom, hroom', put]

theorem next_back {m : Fin maxBra} (hm : (m : Nat) < s.closed) (hroom : s.ep + 1 < inp.endbuf) :
    next inp ⟨.back (m : Nat), s⟩ = some ⟨.loop, put (groupByte m) (put cback s)⟩ := by
  have hroom' : s.ep < inp.endbuf := by omega
  simp [next, back, hm, emit, store, hroom, hroom', put, toChar_fin]

theorem next_dol (hahead : Ahead inp s [36#8, e]) (hdel : inp.char e = inp.eof) (heof : inp.char 36#8 ≠ inp.eof)
    (hroom : s.ep < inp.endbuf) : next inp ⟨.loop, s⟩ = some ⟨.loop, put cdol (begun s)⟩ := by
  have hchar : inp.char 36#8 = 36 := char_of_lt inp (by decide)
  have hnext : inp.pattern[s.sp + 1]? = some e := hahead.tail.head
  rw [hchar] at heof
  simp only [next, loop, nextChar]
  rw [if_neg (by omega), getc_eq hahead.head, hchar]
  simp [heof, peekc, readOne, hnext, hdel, emit, store, hroom, begun, put]

/-- The main loop writes the parts behind `is` and comes to the delimiter. -/
def Leads (inp : Input) (s : State) (e : Byte) (ts : List Token) (is : List Instr) : Prop :=
  ∃ js t, Reaches (next inp) ⟨.loop, s⟩ ⟨.loop, t⟩ ∧ List.Forall₂ Stands ts js ∧ Code t (is ++ js) ∧
    t.bracket = [] ∧ t.circf = s.circf ∧ Ahead inp t [e] ∧ t.ep < inp.endbuf

/-- By induction on what is left of the parts, for any program that is already
written. -/
theorem reaches_tokens (hdel : inp.char e = inp.eof) {ts : List Token} (hord : Orderly opened closed n ts)
    (hs : Emitted s opened closed n is) (hplain : ∀ t ∈ ts, t.Plain inp)
    (hahead : Ahead inp s (ts.flatMap Token.text ++ [e])) (hroom : s.ep + 35 * (ts.length + 1) < inp.endbuf) :
    Leads inp s e ts is := by
  induction ts generalizing s opened closed n is with
  | nil =>
      obtain rfl : opened = [] := hord
      rw [← List.append_nil is] at hs
      exact ⟨[], s, .refl, .nil, hs.code, hs.bracket, rfl, hahead, by omega⟩
  | cons tok ts ih =>
      obtain ⟨hplain₁, hplain₂⟩ := List.forall_mem_cons.mp hplain
      rw [List.flatMap_cons, List.append_assoc] at hahead
      rw [List.length_cons] at hroom
      have hgo {i : Instr} {t : State} {os cs : List (Fin maxBra)} {k : Nat}
          (hr : Reaches (next inp) ⟨.loop, s⟩ ⟨.loop, t⟩) (hi : Stands tok i) (ht : Emitted t os cs k (is ++ [i]))
          (hsp : t.sp = s.sp + tok.text.length) (hep : t.ep ≤ s.ep + 35) (hcirc : t.circf = s.circf)
          (hts : Orderly os cs k ts) : Leads inp s e (tok :: ts) is := by
        obtain ⟨js, u, hr', hjs, hcode, hbracket, hcirc', hend⟩ :=
          ih hts ht hplain₂ (hahead.skip.of_sp hsp) (by omega)
        rw [List.append_assoc] at hcode
        exact ⟨i :: js, u, hr.trans hr', .cons hi hjs, hcode, hbracket, hcirc'.trans hcirc, hend⟩
      have hpair {b d : Byte} {i : Instr} {t : State} (hi : i.encode = [b, d]) (hmem : t.mem = (put d (put b s)).mem)
          (hep : t.ep = s.ep + 1 + 1) : Code t (is ++ [i]) := by
        have h : slice (put d (put b s)).mem 0 (s.ep + 1 + 1) = bytes (is ++ [i]) := hs.code.put_pair hi
        rwa [← hmem, ← hep] at h
      have hback (c : Byte) (ht : tok.text = [92#8, c]) : inp.char 92#8 ≠ inp.eof := hplain₁.1 _ (by simp [ht])
      have hlt : s.ep < inp.endbuf := by omega
      have hlt' : s.ep + 1 < inp.endbuf := by omega
      have hlt'' : s.ep + 1 + 1 ≤ s.ep + 35 := by omega
      cases tok with
      | item a f =>
          obtain ⟨i, t, hr, happ, hacc⟩ := reaches_item a f hplain₁ hord.1 hahead.left (by omega)
          have hlen := length_encode_item i f.rep
          have hrep : f.rep.operands.length ≤ 2 := by cases f <;> simp [Form.rep]
          have hep := happ.ep_eq
          have hsp : t.sp = s.sp + (Token.item a f).text.length := by
            rw [happ.rest]
            rfl
          have hcirc : t.circf = s.circf := by rw [happ.rest]
          exact hgo hr (.item hacc hord.1) (hs.appends happ) hsp (by omega) hcirc hord.2
      | bra m =>
          obtain ⟨rfl, hord⟩ := hord
          have hr := reaches_mark hahead.left (hback _ rfl) hlt (.inl ⟨rfl, rfl⟩)
          exact hgo (reaches_tail hr (next_bra hs.nbra hlt')) (.bra m)
            ⟨hpair rfl rfl rfl, congrArg _ hs.bracket, hs.closed, rfl⟩ rfl hlt'' rfl hord
      | ket m =>
          obtain ⟨os, rfl, hord⟩ := hord
          have hr := reaches_mark hahead.left (hback _ rfl) hlt (.inr (.inl ⟨rfl, rfl⟩))
          exact hgo (reaches_tail hr (next_ket hs.bracket hlt')) (.ket m)
            ⟨hpair rfl rfl rfl, rfl, congrArg (· + 1) hs.closed, hs.nbra⟩ rfl hlt'' rfl hord
      | back m =>
          have hm : (m : Nat) < s.closed := by
            rw [hs.closed]
            exact hord.2.1
          have hr := reaches_mark hahead.left (hback _ rfl) hlt (.inr (.inr ⟨m, rfl, rfl⟩))
          exact hgo (reaches_tail hr (next_back hm hlt')) (.back m)
            ⟨hpair rfl rfl rfl, hs.bracket, hs.closed, hs.nbra⟩ rfl hlt'' rfl hord.2.2
      | dol =>
          obtain ⟨rfl, hord⟩ := hord
          have hnext := next_dol hahead hdel (hplain₁.1 _ (by simp [Token.text])) hlt
          exact hgo (reaches_one hnext) .dol ⟨hs.code.put rfl, hs.bracket, hs.closed, hs.nbra⟩ rfl
            (Nat.add_le_add_left (by decide) s.ep) rfl hord

/-- The pattern is an expression, perhaps behind a `^`, and the delimiter. -/
structure Written (inp : Input) (caret : Bool) (ts : List Token) (e : Byte) : Prop where
  pattern : inp.pattern = (if caret then [94#8] else []) ++ (ts.flatMap Token.text ++ [e])
  nonempty : caret = true ∨ ts ≠ []
  delimiter : inp.char e = inp.eof
  backslash : inp.eof ≠ ch '\\'
  caret : inp.eof ≠ ch '^'
  orderly : Orderly [] [] 0 ts
  plain : ∀ t ∈ ts, t.Plain inp
  room : 35 * (ts.length + 1) < inp.endbuf

theorem head_token (t : Token) : ∃ c text, t.text = c :: text ∧ c ≠ 10#8 ∧ c ≠ 94#8 := by
  cases t with
  | item a f =>
      obtain ⟨c, text, htext, hc⟩ := head_text a
      exact ⟨c, text ++ f.text, by rw [Token.text, htext, List.cons_append], hc⟩
  | dol => exact ⟨36#8, [], rfl, by decide, by decide⟩
  | _ => exact ⟨92#8, _, rfl, by decide, by decide⟩

theorem next_caret {mem : Nat → Byte} (hread : inp.pattern[0]? = some 94#8) (heof : inp.eof ≠ ch '^') :
    next inp (compile mem) = some ⟨.loop, { (compile mem).state with sp := 1, circf := 1 }⟩ := by
  have hchar : inp.char 94#8 = ch '^' := char_of_lt inp (by decide)
  have hne : ¬ (ch '^' = inp.eof ∨ ch '^' = ch '\n') := not_or.mpr ⟨heof.symm, by decide⟩
  simp only [compile, next, entry]
  rw [getc_eq hread, hchar, if_neg hne, if_pos rfl]
  rfl

theorem Written.enters {caret : Bool} {ts : List Token} (h : Written inp caret ts e) (mem : Nat → Byte) :
    ∃ s, next inp (compile mem) = some ⟨.loop, s⟩ ∧ Emitted s [] [] 0 [] ∧ s.ep = 0 ∧
      s.circf = caret.toNat ∧ Ahead inp s (ts.flatMap Token.text ++ [e]) := by
  have hpattern := h.pattern
  cases caret with
  | true =>
      refine ⟨_, next_caret (by rw [hpattern]; rfl) h.caret, ⟨rfl, rfl, rfl, rfl⟩, rfl, rfl, ⟨[], ?_⟩⟩
      rw [hpattern, List.append_nil]
      rfl
  | false =>
      have hahead : Ahead inp (compile mem).state (ts.flatMap Token.text ++ [e]) :=
        ⟨[], by rw [hpattern, List.append_nil]; rfl⟩
      cases ts with
      | nil => cases h.nonempty with
        | inl hc => cases hc
        | inr hc => exact absurd rfl hc
      | cons t ts =>
          obtain ⟨c, text, htext, hnl, hcaret⟩ := head_token t
          have heof : inp.char c ≠ inp.eof := (h.plain t (by simp)).1 c (by simp [htext])
          have hhead : Ahead inp (compile mem).state (c :: text) := by
            rw [List.flatMap_cons, List.append_assoc, htext] at hahead
            exact hahead.left
          exact ⟨_, next_entry hhead heof hnl hcaret, ⟨rfl, rfl, rfl, rfl⟩, rfl, rfl, hahead⟩

theorem Written.compiles {caret : Bool} {ts : List Token} (h : Written inp caret ts e) (mem : Nat → Byte) :
    ∃ js u, ⟨.returned, u⟩ ∈ eval (next inp) (compile mem) ∧ Cfg.program ⟨.returned, u⟩ = encode js ∧
      u.circf = caret.toNat ∧ List.Forall₂ Stands ts js := by
  obtain ⟨s, hentry, hs, hep, hcirc, hahead⟩ := h.enters mem
  have hroom := h.room
  obtain ⟨js, t, hr, hjs, hcode, hbracket, hcirc', hend, hlt⟩ :=
    reaches_tokens h.delimiter h.orderly hs h.plain hahead (by omega)
  obtain ⟨u, hfinish, huep, humem, hucirc⟩ := next_finish hend.head h.delimiter h.backslash hbracket hlt
  refine ⟨js, u, mem_eval.mpr ⟨reaches_head hentry (reaches_tail hr hfinish), rfl⟩, ?_,
    hucirc.trans (hcirc'.trans hcirc), hjs⟩
  rw [program_eq, huep, humem]
  refine (slice_put cceof t).trans ?_
  rw [show slice t.mem 0 t.ep = bytes js from hcode]
  rfl

end Compiling

section Searching

open Leftmost

variable {s : Subject} {ts : List Token} {js : List Instr} {g : Globals}

/-- Where a match may start. -/
def Starts (s : Subject) (caret : Bool) (p k : Nat) : Prop := p ≤ k ∧ k ≤ s.chars.length ∧ (caret = true → k = p)

/-- The result of a search from `p` on for what the expression stands for. -/
structure FoundFirst (s : Subject) (caret : Bool) (ts : List Token) (p : Nat) (g : Globals) (b : Bool) (g' : Globals) :
    Prop where
  iff : b = true ↔ ∃ k e q, Starts s caret p k ∧ Reads s ts g.groups k e q
  first : b = true → ∃ k q : Nat, g'.loc1 = k ∧ g'.loc2 = q ∧ Starts s caret p k ∧
    (∃ e, Reads s ts g.groups k e q) ∧ ∀ j, Starts s caret p j → j < k → ∀ e r, ¬ Reads s ts g.groups j e r

theorem advance_reads (hjs : List.Forall₂ Stands ts js) (hwf : WellFormed js) {k : Nat} (hk : k ≤ s.chars.length)
    (hlocs : g.locs < 0 ∨ s.chars.length < g.locs) :
    ∃ (b : Bool) (g' : Globals), ⟨.ret b, [], g'⟩ ∈ eval (Advance.next (encode js) s) (Advance.advance k 0 g) ∧
      g'.loc1 = g.loc1 ∧ (b = true → ∃ (q : Nat) (e : Groups), g'.loc2 = q ∧ Reads s ts g.groups k e q) ∧
      (b = false → ∀ e q, ¬ Reads s ts g.groups k e q) := by
  have hready : StarLoop.Ready s [] [] k g := ⟨hk, hlocs, by simp, by simp⟩
  have hcode : encode js <+: (encode js).drop 0 := List.prefix_refl _
  obtain ⟨b, g', hr, ho⟩ := dispatch_decides hwf.grouped (by simp) hwf.sound hcode hready []
  refine ⟨b, g', mem_eval.mpr ⟨hr, rfl⟩, ho.kept.2.1, fun hb => ?_, fun hb e q hreads => ?_⟩
  · obtain ⟨_, q, rfl, hs, hq⟩ := ho.found hb
    exact ⟨q, _, hq, (splits_iff hjs).mp hs⟩
  · exact ho.none hb k rfl e q ((splits_iff hjs).mpr hreads)

theorem finds_reads (hjs : List.Forall₂ Stands ts js) (hwf : WellFormed js) {k : Nat} (hk : k ≤ s.chars.length)
    (hlocs : g.locs < 0 ∨ s.chars.length < g.locs) :
    (∀ q, Finds (encode js) s 0 g k q → ∃ (r : Nat) (e : Groups), q = r ∧ Reads s ts g.groups k e r) ∧
    ((∀ q, ¬ Finds (encode js) s 0 g k q) → ∀ e q, ¬ Reads s ts g.groups k e q) := by
  obtain ⟨b, g', heval, -, hfound, hnone⟩ := advance_reads hjs hwf hk hlocs
  constructor
  · rintro q ⟨h', hh', rfl⟩
    have heq := Part.mem_unique heval hh'
    simp only [Advance.Cfg.mk.injEq, Advance.Control.ret.injEq, true_and] at heq
    obtain ⟨rfl, rfl⟩ := heq
    exact hfound rfl
  · intro hnot
    cases b with
    | true => exact absurd ⟨g', heval, rfl⟩ (hnot _)
    | false => exact hnone rfl

theorem step_anchored (hjs : List.Forall₂ Stands ts js) (hwf : WellFormed js) {p : Nat} (hp : p ≤ s.chars.length)
    (hcircf : g.circf = 1) (hlocs : g.locs < 0 ∨ s.chars.length < g.locs) :
    ∃ b g', ⟨.ret b, [], g'⟩ ∈ eval (Advance.next (encode js) s) (Advance.step (encode js) p 0 g) ∧
      FoundFirst s true ts p g b g' := by
  have hstep : Advance.step (encode js) p 0 g = Advance.advance p 0 { g with loc1 := p } := by
    rw [Advance.step, if_pos (by omega)]
    rfl
  obtain ⟨b, g', heval, hloc1, hfound, hnone⟩ := advance_reads (g := { g with loc1 := p }) hjs hwf hp hlocs
  have hstart : Starts s true p p := ⟨Nat.le_refl p, hp, fun _ => rfl⟩
  refine ⟨b, g', hstep ▸ heval, ⟨fun hb => ?_, ?_⟩, fun hb => ?_⟩
  · obtain ⟨q, e, -, hreads⟩ := hfound hb
    exact ⟨p, e, q, hstart, hreads⟩
  · rintro ⟨k, e, q, ⟨-, -, hk⟩, hreads⟩
    obtain rfl := hk rfl
    cases b with
    | true => rfl
    | false => exact absurd hreads (hnone rfl e q)
  · obtain ⟨q, e, hq, hreads⟩ := hfound hb
    refine ⟨p, q, hloc1, hq, hstart, ⟨e, hreads⟩, fun j hj hlt => ?_⟩
    have := hj.1
    omega

theorem step_searching (hjs : List.Forall₂ Stands ts js) (hwf : WellFormed js) {p : Nat} (hp : p ≤ s.chars.length)
    (hcircf : g.circf = 0) (hlocs : g.locs < 0 ∨ s.chars.length < g.locs) :
    ∃ b g', ⟨.ret b, [], g'⟩ ∈ eval (Advance.next (encode js) s) (Advance.step (encode js) p 0 g) ∧
      FoundFirst s false ts p g b g' := by
  have he : encode js <+: (encode js).drop 0 := List.prefix_refl _
  obtain ⟨b, g', hstep, -, hsearched⟩ := step_searches hwf he hp hcircf
  refine ⟨b, g', hstep, ?_⟩
  cases hsearched with
  | found k q hfirst hloc1 hloc2 =>
      obtain ⟨r, e, rfl, hreads⟩ := (finds_reads hjs hwf hfirst.bound.2 hlocs).1 q hfirst.found
      have hstart : Starts s false p k := ⟨hfirst.bound.1, hfirst.bound.2, by rintro ⟨⟩⟩
      refine ⟨iff_of_true rfl ⟨k, e, r, hstart, hreads⟩, fun _ => ⟨k, r, hloc1, hloc2, hstart, ⟨e, hreads⟩, ?_⟩⟩
      intro j hj hlt
      exact (finds_reads hjs hwf hj.2.1 hlocs).2 (hfirst.least j hj.1 hlt)
  | none hnone =>
      refine ⟨iff_of_false Bool.false_ne_true ?_, by rintro ⟨⟩⟩
      rintro ⟨k, e, q, hk, hreads⟩
      exact (finds_reads hjs hwf hk.2.1 hlocs).2 (hnone k hk.1 hk.2.1) e q hreads

/-- `compile` and then `step`, for every expression of characters, `.` and lists
with `*` or an interval, groups, back-references, `^` and `$` that `compile` has
the room and the counts for (`Written`): `compile` returns, and `step` on what it
has written finds the first place in the subject where a text starts that the
expression stands for, if there is one. `\{m,\}` stands for at most `m + 20000`
repetitions, and `locs` does not point into the subject. -/
theorem compile_then_step (inp : Input) (caret : Bool) (ts : List Token) (e : Byte) (h : Written inp caret ts e)
    (mem : Nat → Byte) : ∃ u, ⟨.returned, u⟩ ∈ eval (next inp) (compile mem) ∧
      ∀ (s : Subject) (p : Nat) (g : Globals), p ≤ s.chars.length → g.circf = u.circf →
        (g.locs < 0 ∨ s.chars.length < g.locs) →
        ∃ b g', ⟨.ret b, [], g'⟩ ∈ eval (Advance.next (Cfg.program ⟨.returned, u⟩) s)
            (Advance.step (Cfg.program ⟨.returned, u⟩) p 0 g) ∧ FoundFirst s caret ts p g b g' := by
  obtain ⟨js, u, heval, hprog, hcirc, hjs⟩ := h.compiles mem
  have hwf := wellFormed_of_orderly hjs h.orderly
  refine ⟨u, heval, fun s p g hp hg hlocs => ?_⟩
  rw [hcirc] at hg
  rw [hprog]
  cases caret with
  | true => exact step_anchored hjs hwf hp hg hlocs
  | false => exact step_searching hjs hwf hp hg hlocs

/-- `\(a*\)\1$` -/
def doubled (n : Fin maxBra) : List Token := [.bra n, .item letter .star, .ket n, .back n, .dol]

def doubledInput (n : Fin maxBra) : Input := ⟨(doubled n).flatMap Token.text ++ [0#8], true, 0, 300, false⟩

theorem written_doubled : Written (doubledInput 0) false (doubled 0) 0#8 := by
  have heof : ∀ t ∈ doubled 0, ∀ c ∈ t.text, (doubledInput 0).char c ≠ (doubledInput 0).eof := by decide
  refine ⟨rfl, .inr (by simp [doubled]), rfl, by decide, by decide, ?_, fun t ht => ⟨heof t ht, ?_⟩, by decide⟩
  · exact ⟨rfl, trivial, [], rfl, by simp, by simp, rfl, rfl⟩
  · rintro a f rfl
    simp only [doubled, List.mem_cons, Token.item.injEq, reduceCtorEq, List.not_mem_nil, false_or, or_false] at ht
    obtain ⟨rfl, rfl⟩ := ht
    trivial

theorem compile_then_step_doubled : ∃ u, ⟨.returned, u⟩ ∈ eval (next (doubledInput 0)) (compile fun _ => 0#8) ∧
    ∃ b g', ⟨.ret b, [], g'⟩ ∈ eval (Advance.next (Cfg.program ⟨.returned, u⟩) groupSubject)
        (Advance.step (Cfg.program ⟨.returned, u⟩) 0 0 { freshGlobals with circf := u.circf }) ∧
      FoundFirst groupSubject false (doubled 0) 0 { freshGlobals with circf := u.circf } b g' := by
  obtain ⟨u, hu, hstep⟩ := compile_then_step (doubledInput 0) false (doubled 0) 0#8 written_doubled fun _ => 0#8
  exact ⟨u, hu, hstep groupSubject 0 _ (by simp) rfl (.inl (Int.negSucc_lt_zero 0))⟩

end Searching

end SysvDev.Regexp.Grammar
