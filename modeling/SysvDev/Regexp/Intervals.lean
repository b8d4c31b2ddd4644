import SysvDev.Regexp.Counts
import SysvDev.Regexp.Match

namespace SysvDev.Regexp.Intervals

open StateTransition Transition Opcode Compile Moves Program Image Regexp.Bracket Atoms Counts
open Advance (Subject Globals)
open Split Scan Match

section Compiling

variable {inp : Input} {a : Atom} {b : Bounds} {e : Byte} {mem : Nat → Byte}

/-- `GETC` walks over one expression with an interval, and the delimiter. -/
structure Whole (inp : Input) (a : Atom) (b : Bounds) (e : Byte) : Prop where
  pattern : inp.pattern = a.text ++ (b.text ++ [e])
  delimiter : inp.char e = inp.eof
  first : ∀ c ∈ a.text.head?, inp.char c ≠ inp.eof
  backslash : inp.eof ≠ ch '\\'
  unsigned : a.Unsigned inp
  room : 40 ≤ inp.endbuf

def Succeeds (inp : Input) (mem : Nat → Byte) (prog : List Byte) : Prop :=
  ∃ t, ⟨.returned, t⟩ ∈ eval (next inp) (compile mem) ∧ Cfg.program ⟨.returned, t⟩ = prog

def CompilesRight (inp : Input) (a : Atom) (b : Bounds) (mem : Nat → Byte) : Prop :=
  ((∃ prog, Succeeds inp mem prog) ↔ b.valid) ∧
  ∀ prog, Succeeds inp mem prog → ∃ i lo hi, prog = encode [.item i (.range lo hi)] ∧
    (∀ x, i.accepts x = a.accepts x) ∧ lo.toNat = b.low ∧ hi.toNat = b.high

theorem bmod_small {k n : Nat} (h : 2 * k < n) : (k : Int).bmod n = k := Int.bmod_eq_of_le (by omega) (by omega)

theorem stored_of_le {m : Digits} (h : m.value ≤ 254) : m.stored = m.value := by
  rw [Digits.stored, wrap, bmod_small (by omega)]

theorem byte_of_le {m : Digits} (h : m.value ≤ 254) : m.byte.toNat = m.value := by
  rw [Digits.byte, stored_of_le h, toChar, BitVec.toNat_ofInt]
  omega

theorem accepted_of_valid (h : b.valid) : b.accepted := by
  cases b with
  | exact m | atLeast m =>
      rw [Bounds.accepted, stored_of_le h]
      exact Int.ofNat_lt.mpr (Nat.lt_succ_of_le h)
  | between m n =>
      obtain ⟨hm, hn, hle⟩ := h
      rw [Bounds.accepted, stored_of_le hm, stored_of_le hn, byte_of_le hm, byte_of_le hn]
      exact ⟨Int.ofNat_lt.mpr (Nat.lt_succ_of_le hm), Int.ofNat_lt.mpr (Nat.lt_succ_of_le hn), hle⟩

theorem bytes_of_valid (h : b.valid) : b.lo.toNat = b.low ∧ b.hi.toNat = b.high := by
  cases b with
  | exact m => exact ⟨byte_of_le h, byte_of_le h⟩
  | atLeast m => exact ⟨byte_of_le h, rfl⟩
  | between m n => exact ⟨byte_of_le h.1, byte_of_le h.2.1⟩

theorem head_text (a : Atom) : ∃ c text, a.text = c :: text ∧ c ≠ 10#8 ∧ c ≠ 94#8 := by
  cases a with
  | chr c hc =>
      refine ⟨c, [], rfl, ?_, ?_⟩
      · rintro rfl
        exact hc (by decide)
      · rintro rfl
        exact hc (by decide)
  | esc c hc => exact ⟨92#8, [c], rfl, by decide, by decide⟩
  | dot => exact ⟨46#8, [], rfl, by decide, by decide⟩
  | list b => exact ⟨91#8, _, rfl, by decide, by decide⟩

theorem next_entry {c : Byte} {text : List Byte} (hahead : Ahead inp (compile mem).state (c :: text))
    (heof : inp.char c ≠ inp.eof) (hnl : c ≠ 10#8) (hcaret : c ≠ 94#8) :
    next inp (compile mem) = some ⟨.loop, (compile mem).state⟩ := by
  have hnl' : ¬ (inp.char c = inp.eof ∨ inp.char c = ch '\n') :=
    not_or.mpr ⟨heof, char_ne (d := 10#8) hnl (by decide)⟩
  have hcaret' : ¬ inp.char c = ch '^' := char_ne (d := 94#8) hcaret (by decide)
  simp only [compile, next, entry] at hahead ⊢
  rw [getc_eq hahead.head, if_neg hnl', if_neg hcaret']
  rfl

theorem Whole.reaches (h : Whole inp a b e) (mem : Nat → Byte) :
    ∃ i t, Reaches (next inp) (compile mem) ⟨.loop, t⟩ ∧ Appends (compile mem).state t a.text.length (.item i .one) ∧
      (∀ x, i.accepts x = a.accepts x) ∧ Ahead inp t (b.text ++ [e]) ∧ t.ep + 3 < inp.endbuf := by
  have hroom := h.room
  have hahead : Ahead inp (compile mem).state (a.text ++ (b.text ++ [e])) := ⟨[], by simp [h.pattern, compile]⟩
  obtain ⟨c, text, htext, hnl, hcaret⟩ := head_text a
  have hentry := next_entry (htext ▸ hahead.left) (h.first c (by rw [htext]; rfl)) hnl hcaret
  obtain ⟨i, t, hr, happ, hacc⟩ := reaches_atom a hahead.left h.first h.unsigned (by simp only [compile]; omega)
  have hsp : t.sp = (skip a.text.length (compile mem).state).sp := by
    rw [happ.rest]
    rfl
  refine ⟨i, t, reaches_head hentry hr, happ, hacc, hahead.skip.of_sp hsp, ?_⟩
  rw [happ.ep_eq, encode_one, List.length_cons]
  cases i with
  | _ =>
      simp [compile]
      omega

theorem next_finish {s : State} (hread : inp.pattern[s.sp]? = some e) (he : inp.char e = inp.eof)
    (hback : inp.eof ≠ ch '\\') (hbracket : s.bracket = []) (hroom : s.ep < inp.endbuf) :
    ∃ t, next inp ⟨.loop, s⟩ = some ⟨.returned, t⟩ ∧ t.ep = s.ep + 1 ∧ t.mem = Function.update s.mem s.ep cceof ∧
      t.circf = s.circf := by
  have hroom' : (readOne s).ep < inp.endbuf := hroom
  have hbracket' : ¬ (readOne s).bracket ≠ [] := not_not.mpr hbracket
  have hfinish (last : Option Nat) : ∃ t, finish inp { readOne s with lastep := last } = ⟨.returned, t⟩ ∧
      t.ep = s.ep + 1 ∧ t.mem = Function.update s.mem s.ep cceof ∧ t.circf = s.circf := by
    refine ⟨put cceof { readOne s with lastep := last }, ?_, rfl, rfl, rfl⟩
    simp only [finish, emit, store]
    rw [if_pos hroom', if_neg hbracket']
    rfl
  simp only [next, loop, nextChar]
  rw [if_neg (by omega), getc_eq hread, he]
  by_cases hstar : inp.eof = ch '*'
  · obtain ⟨t, ht, hrest⟩ := hfinish s.lastep
    refine ⟨t, ?_, hrest⟩
    rw [if_pos hstar, if_pos rfl]
    exact congrArg some ht
  · obtain ⟨t, ht, hrest⟩ := hfinish (some s.ep)
    refine ⟨t, ?_, hrest⟩
    rw [if_neg hstar, if_neg hback, if_pos rfl]
    exact congrArg some ht

theorem Whole.succeeds (h : Whole inp a b e) (hb : b.accepted) (mem : Nat → Byte) :
    ∃ i, Succeeds inp mem (encode [.item i (.range b.lo b.hi)]) ∧ ∀ x, i.accepts x = a.accepts x := by
  obtain ⟨i, t, hr, happ, hacc, hahead, hroom⟩ := h.reaches mem
  have hlt : (compile mem).state.ep < t.ep := by
    rw [happ.ep_eq]
    simp
  have hcounted := reaches_counted b hahead.left h.backslash happ.lastep_eq hlt (by omega) hb
  have happ' := appends_counted happ b
  have hep : (counted (compile mem).state.ep b t).ep = t.ep + 2 := rfl
  have hbracket : (counted (compile mem).state.ep b t).bracket = [] := by
    rw [happ'.rest]
    rfl
  have hread := (hahead.skip.of_sp (t := counted (compile mem).state.ep b t) rfl).head
  obtain ⟨u, hfinish, huep, humem, -⟩ := next_finish hread h.delimiter h.backslash hbracket (by omega)
  refine ⟨i, ⟨u, mem_eval.mpr ⟨reaches_tail (hr.trans hcounted) hfinish, rfl⟩, ?_⟩, hacc⟩
  have hep' : (counted (compile mem).state.ep b t).ep = (Instr.item i (.range b.lo b.hi)).encode.length := by
    rw [happ'.ep_eq]
    exact Nat.zero_add _
  have hcode : slice (counted (compile mem).state.ep b t).mem 0 (Instr.item i (.range b.lo b.hi)).encode.length =
      (Instr.item i (.range b.lo b.hi)).encode := happ'.bytes
  rw [program_eq, huep, humem]
  refine (slice_put cceof (counted (compile mem).state.ep b t)).trans ?_
  rw [hep', hcode]
  simp only [encode, List.flatMap_cons, List.flatMap_nil, List.append_nil]

theorem Whole.fails (h : Whole inp a b e) (hb : ¬ b.accepted) (mem : Nat → Byte) (prog : List Byte) :
    ¬ Succeeds inp mem prog := by
  obtain ⟨i, t, hr, happ, _, hahead, hroom⟩ := h.reaches mem
  have hlt : (compile mem).state.ep < t.ep := by
    rw [happ.ep_eq]
    simp
  obtain ⟨val, u, hrej⟩ := reaches_rejected b hahead.left h.backslash happ.lastep_eq hlt (by omega) hb
  rintro ⟨v, hv, _⟩
  have heval : ⟨.error val, u⟩ ∈ eval (next inp) (compile mem) := mem_eval.mpr ⟨hr.trans hrej, rfl⟩
  cases congrArg Cfg.label (Part.mem_unique hv heval)

/-- The claim about `compile` holds unless a number that is too big becomes a
small one. -/
theorem Whole.compilesRight_iff (h : Whole inp a b e) (mem : Nat → Byte) :
    CompilesRight inp a b mem ↔ (b.accepted → b.valid) := by
  constructor
  · rintro ⟨hiff, _⟩ hb
    obtain ⟨i, hs, _⟩ := h.succeeds hb mem
    exact hiff.mp ⟨_, hs⟩
  · intro hvalid
    have hacc (prog : List Byte) (hs : Succeeds inp mem prog) : b.accepted := by
      by_contra hb
      exact h.fails hb mem prog hs
    refine ⟨⟨fun ⟨prog, hs⟩ => hvalid (hacc prog hs), fun hb => ?_⟩, fun prog hs => ?_⟩
    · obtain ⟨i, hs, _⟩ := h.succeeds (accepted_of_valid hb) mem
      exact ⟨_, hs⟩
    · have hb := hacc prog hs
      obtain ⟨i, ⟨u, hu, hprog⟩, hi⟩ := h.succeeds hb mem
      obtain ⟨v, hv, rfl⟩ := hs
      obtain ⟨hlo, hhi⟩ := bytes_of_valid (hvalid hb)
      exact ⟨i, b.lo, b.hi, by rw [Part.mem_unique hv hu, hprog], hi, hlo, hhi⟩

end Compiling

section Matching

variable {s : Subject} {p : Nat} {i : Item} {is : List Instr} {r : Rep}

/-- The item takes any number of characters from `m` on, whatever comes behind
it: the match succeeds exactly if the rest matches behind one such number. -/
def TakesFrom (s : Subject) (p : Nat) (i : Item) (r : Rep) (m : Nat) : Prop :=
  ∀ (is : List Instr) (g : Globals), WellFormed (.item i r :: is) → (g.locs < 0 ∨ (s.chars.length : Int) < g.locs) →
    ∃ b g', ⟨.ret b, [], g'⟩ ∈ eval (Advance.next (encode (.item i r :: is)) s) (Advance.advance p 0 g) ∧
      (b = true ↔ ∃ k, m ≤ k ∧ k ≤ run i.accepts (s.chars.drop p) ∧ ∃ e q, Splits s is g.groups (p + k) e q)

theorem add_run_le (acc : Byte → Bool) (hp : p ≤ s.chars.length) : p + run acc (s.chars.drop p) ≤ s.chars.length := by
  have h := run_le acc (s.chars.drop p)
  rw [List.length_drop] at h
  omega

theorem splits_item_iff (hp : p ≤ s.chars.length) {g : Advance.Groups} :
    (∃ e q, Splits s (.item i r :: is) g p e q) ↔
      ∃ k, Fits r k ∧ k ≤ run i.accepts (s.chars.drop p) ∧ ∃ e q, Splits s is g (p + k) e q := by
  constructor
  · rintro ⟨e, q, hs⟩
    cases hs with
    | @cons _ _ _ _ _ m _ _ hpm hm hi hs =>
        obtain ⟨rfl, hi⟩ := hi
        obtain ⟨k, rfl⟩ := Nat.exists_eq_add_of_le hpm
        obtain ⟨hfit, hk⟩ := (allows_iff hm r).mp hi
        exact ⟨k, hfit, hk, e, q, hs⟩
  · rintro ⟨k, hfit, hk, e, q, hs⟩
    have hle : p + k ≤ s.chars.length := (Nat.add_le_add_left hk p).trans (add_run_le _ hp)
    exact ⟨e, q, .cons (Nat.le_add_right p k) hle ⟨rfl, (allows_iff hle r).mpr ⟨hfit, hk⟩⟩ hs⟩

theorem advance_item (hp : p ≤ s.chars.length) {g : Globals} (hwf : WellFormed (.item i r :: is))
    (hlocs : g.locs < 0 ∨ (s.chars.length : Int) < g.locs) :
    ∃ b g', ⟨.ret b, [], g'⟩ ∈ eval (Advance.next (encode (.item i r :: is)) s) (Advance.advance p 0 g) ∧
      (b = true ↔ ∃ k, Fits r k ∧ k ≤ run i.accepts (s.chars.drop p) ∧ ∃ e q, Splits s is g.groups (p + k) e q) := by
  have hready : StarLoop.Ready s [] [] p g := ⟨hp, hlocs, by simp, by simp⟩
  have hcode : encode (.item i r :: is) <+: (encode (.item i r :: is)).drop 0 := List.prefix_refl _
  obtain ⟨b, g', hr, ho⟩ := dispatch_decides hwf.grouped (by simp) hwf.sound hcode hready []
  refine ⟨b, g', mem_eval.mpr ⟨hr, rfl⟩, ?_⟩
  rw [← splits_item_iff hp]
  constructor
  · intro hb
    obtain ⟨_, q, rfl, hs, _⟩ := ho.found hb
    exact ⟨_, q, hs⟩
  · rintro ⟨e, q, hs⟩
    cases b with
    | true => rfl
    | false => exact absurd hs (ho.none rfl p rfl e q)

/-- The program that takes just `n` characters, at the end of the subject. -/
def tail (n : Nat) : List Instr := List.replicate n (.item .dot .one) ++ [.dol]

theorem splits_tail_iff (n : Nat) (hp : p ≤ s.chars.length) {g : Advance.Groups} :
    (∃ e q, Splits s (tail n) g p e q) ↔ p + n = s.chars.length := by
  induction n generalizing p with
  | zero =>
      constructor
      · rintro ⟨e, q, hs⟩
        cases hs with
        | cons _ _ hi _ => exact hi.2.2
      · intro h
        exact ⟨g, p, .cons (Nat.le_refl p) hp ⟨rfl, rfl, h⟩ (.nil g p)⟩
  | succ n ih =>
      have htail : tail (n + 1) = .item .dot .one :: tail n := rfl
      rw [htail, splits_item_iff hp]
      constructor
      · rintro ⟨k, rfl, hk, hs⟩
        have hle := add_run_le Item.dot.accepts hp
        have := (ih (by omega)).mp hs
        omega
      · intro h
        have hlt : p < s.chars.length := by omega
        have hrun : 1 ≤ run Item.dot.accepts (s.chars.drop p) := by
          rw [List.drop_eq_getElem_cons hlt, run_cons]
          have hne := s.nonul _ (List.getElem_mem hlt)
          simp [Item.accepts, hne]
        exact ⟨1, rfl, hrun, (ih (by omega)).mpr (by omega)⟩

theorem wellFormed_tail (hs : Sound (.item i r)) (n : Nat) : WellFormed (.item i r :: tail n) := by
  constructor
  · intro j hj
    obtain rfl | hj := List.mem_cons.mp hj
    · exact hs
    · obtain hj | hj := List.mem_append.mp hj
      · rw [(List.mem_replicate.mp hj).2]
        exact ⟨rfl, fun _ _ h => by cases h⟩
      · rw [List.mem_singleton.mp hj]
        trivial
  · induction n with
    | zero => rfl
    | succ n ih => exact ih

theorem takesFrom_star (hp : p ≤ s.chars.length) : TakesFrom s p i .star 0 := by
  intro is g hwf hlocs
  simpa [Fits] using advance_item hp hwf hlocs

/-- An interval without an upper bound has one: 20000 more than the lower. -/
theorem takesFrom_range_iff (hp : p ≤ s.chars.length) (hi : i.accepts 0#8 = false) (m : Byte) :
    TakesFrom s p i (.range m 255#8) m.toNat ↔ run i.accepts (s.chars.drop p) ≤ m.toNat + 20000 := by
  have hextra : extra m 255#8 = 20000 := rfl
  have hsound : Sound (.item i (.range m 255#8)) := by
    refine ⟨hi, fun lo hi h => ?_⟩
    cases h
    exact Nat.le_of_lt_succ m.isLt
  constructor
  · intro h
    by_contra hlong
    have hle := add_run_le i.accepts hp
    obtain ⟨n, hn⟩ := Nat.exists_eq_add_of_le (show p + (m.toNat + 20001) ≤ s.chars.length by omega)
    let g : Globals := ⟨⟨fun _ => 0, fun _ => 0⟩, 0, 0, -1, 0⟩
    have hlocs : g.locs < 0 ∨ (s.chars.length : Int) < g.locs := .inl (by decide)
    obtain ⟨b, g₁, hb, hspec⟩ := h (tail n) g (wellFormed_tail hsound n) hlocs
    obtain ⟨b', g₂, hb', hcode⟩ := advance_item hp (wellFormed_tail hsound n) hlocs
    have heq := congrArg Advance.Cfg.control (Part.mem_unique hb hb')
    cases heq
    have htrue : b = true :=
      hspec.mpr ⟨m.toNat + 20001, by omega, by omega, (splits_tail_iff n (by omega)).mpr (by omega)⟩
    obtain ⟨k, hfit, hk, hs⟩ := hcode.mp htrue
    have hend := (splits_tail_iff n (by omega)).mp hs
    simp only [Fits, hextra] at hfit
    omega
  · intro hshort is g hwf hlocs
    obtain ⟨b, g', hb, hiff⟩ := advance_item hp hwf hlocs
    refine ⟨b, g', hb, hiff.trans ?_⟩
    simp only [Fits, hextra]
    constructor
    · rintro ⟨k, hfit, hk, hs⟩
      exact ⟨k, hfit.1, hk, hs⟩
    · rintro ⟨k, hm, hk, hs⟩
      exact ⟨k, ⟨hm, by omega⟩, hk, hs⟩

end Matching

/-- An interval is compiled as it should be exactly if no number above 254
passes the tests, which it can once the `int` has overflowed; and the form
without an upper bound is without one exactly on the subjects that do not have
more than 20000 characters more than the lower bound. -/
theorem intervals_right_iff (inp : Input) (a : Atom) (b : Bounds) (e : Byte) (mem : Nat → Byte) (h : Whole inp a b e)
    (i : Item) (hi : ∀ x, i.accepts x = a.accepts x) (s : Subject) (p : Nat) (hp : p ≤ s.chars.length) (m : Byte) :
    (CompilesRight inp a b mem ↔ (b.accepted → b.valid)) ∧
    (TakesFrom s p i (.range m 255#8) m.toNat ↔ run a.accepts (s.chars.drop p) ≤ m.toNat + 20000) ∧
    TakesFrom s p i .star 0 := by
  have hzero : i.accepts 0#8 = false := (hi 0#8).trans a.accepts_zero
  refine ⟨h.compilesRight_iff mem, ?_, takesFrom_star hp⟩
  rw [takesFrom_range_iff hp hzero, funext hi]

section Example

def tooBig : Digits := ⟨52#8, [50#8, 57#8, 52#8, 57#8, 54#8, 55#8, 50#8, 57#8, 55#8], by decide⟩

def letter : Atom := .chr 97#8 (by decide)

def overflowing : Input := ⟨letter.text ++ ((Bounds.exact tooBig).text ++ [0#8]), true, 0, 100, false⟩

theorem whole_overflowing : Whole overflowing letter (.exact tooBig) 0#8 := by
  refine ⟨rfl, rfl, by decide, by decide, trivial, by decide⟩

theorem intervals_right_overflowing : ¬ CompilesRight overflowing letter (.exact tooBig) (fun _ => 0#8) := by
  intro h
  have hiff := (intervals_right_iff overflowing letter (.exact tooBig) 0#8 (fun _ => 0#8) whole_overflowing (.chr 97#8)
    (fun _ => rfl) ⟨[], by simp⟩ 0 (Nat.le_refl 0) 0#8).1
  exact absurd (hiff.mp h (by decide)) (by decide)

/-- The number 4294967297 is taken for 1. -/
theorem succeeds_overflowing : tooBig.value = 4294967297 ∧
    ∃ i, Succeeds overflowing (fun _ => 0#8) (encode [.item i (.range 1#8 1#8)]) := by
  refine ⟨by decide, ?_⟩
  have hone : tooBig.byte = 1#8 := by decide
  obtain ⟨i, hs, _⟩ := whole_overflowing.succeeds (by decide) (fun _ => 0#8)
  refine ⟨i, ?_⟩
  simpa only [Bounds.lo, Bounds.hi, hone] using hs

end Example

end SysvDev.Regexp.Intervals
