import SysvDev.Regexp.Contents
import SysvDev.Regexp.Halt

namespace SysvDev.Regexp.Growth

open StateTransition Transition Nesting Opcode Program Compile Moves Inversion Walk Image Contents

variable {inp : Input} {s t : State} {is : List Instr}

def stops : Label → Bool
  | .error _ | .overrun _ | .underrun _ | .overread => true
  | _ => false

def added (c : Cfg) : List (Mark Byte) :=
  match c.label, c.state.bracket with
  | .bra, _ => [.push (toChar c.state.nbra)]
  | .ket, n :: _ => [.pop n]
  | .back x, _ => [.mention (toChar x)]
  | _, _ => []

def Small (s : State) : Prop := ∀ n ∈ s.bracket, ∃ k : Fin maxBra, n = groupByte k

def Grows (inp : Input) (c d : Cfg) (is : List Instr) : Prop :=
  stops d.label = true ∨ ∃ is', Compiled inp d is' ∧ marksOf is' = marksOf is ++ added c

theorem grows_same {c d : Cfg} (h : Compiled inp d is) (ha : added c = []) : Grows inp c d is :=
  .inr ⟨is, h, by rw [ha, List.append_nil]⟩

theorem grows_snoc {c d : Cfg} {i : Instr} (h : Compiled inp d (is ++ [i]))
    (ha : added c = (Instr.marked i).toList) : Grows inp c d is := by
  refine .inr ⟨_, h, ?_⟩
  rw [marksOf_append, ha]
  cases hm : Instr.marked i <;> simp [marksOf, hm]

theorem noDol_snoc {i : Instr} (hi : i ≠ .dol) : NoDol (is ++ [i]) := by
  intro init h
  exact hi (List.singleton_inj.mp (List.append_inj' h rfl).2)

theorem toChar_group {n : Nat} (h : n < maxBra) : toChar n = groupByte ⟨n, h⟩ := by
  simp [toChar, groupByte]

/-- In the main loop a star or a backslash does not come after a `$`. -/
theorem noDol_of_char {x : Int} (h : Compiled inp ⟨.loop, s⟩ is) (hx : charAt inp s.sp = some x)
    (heof : x ≠ inp.eof) (hnl : x ≠ ch '\n') : NoDol is := by
  obtain ⟨-, -, hdol | ⟨y, hy, hor⟩⟩ := h
  · exact hdol
  · have hy' : charAt inp s.sp = some y := hy
    obtain rfl : x = y := Option.some.inj (hx.symm.trans hy')
    exact absurd hor (not_or.mpr ⟨heof, hnl⟩)

theorem code_taken {x : Int} (h : Code s is) : Code (taken inp x s) is := by
  rw [Code, taken_mem, taken_ep]
  exact h

theorem taken_last {x : Int} (h : x ≠ ch '*') (h' : x ≠ ch '\\') : (taken inp x s).lastep = some s.ep := by
  rw [taken, if_neg]
  rintro (h1 | ⟨h1, -⟩)
  · exact h h1
  · exact h' h1

theorem compiled_put {x : Int} {b : Byte} {i : Instr} (h : Compiled inp ⟨.loop, s⟩ is) (hi : i.encode = [b])
    (hstar : x ≠ ch '*') (hback : x ≠ ch '\\')
    (hdol : NoDol (is ++ [i]) ∨ ∃ y, charAt inp (s.sp + 1) = some y ∧ (y = inp.eof ∨ y = ch '\n')) :
    Compiled inp ⟨.loop, put b (taken inp x s)⟩ (is ++ [i]) := by
  have hcode : Code s is := h.1
  refine ⟨(code_taken hcode).put hi, ?_, ?_⟩
  · apply Last.snoc
    rw [hcode.length]
    exact taken_last hstar hback
  · have hsp : (put b (taken inp x s)).sp = s.sp + 1 := taken_sp x s
    simpa only [hsp] using hdol

theorem compiled_pair {b d : Byte} {i : Instr} (hcode : Code s is) (hlast : t.lastep = some s.ep)
    (ht : t.mem = (put d (put b s)).mem ∧ t.ep = s.ep + 2) (hi : i.encode = [b, d]) (hdol : i ≠ .dol) :
    Compiled inp ⟨.loop, t⟩ (is ++ [i]) := by
  have hput : Code (put d (put b s)) (is ++ [i]) := hcode.put_pair hi
  refine ⟨?_, ?_, .inl (noDol_snoc hdol)⟩
  · show slice t.mem 0 t.ep = _
    rw [ht.1, ht.2]
    exact hput
  · apply Last.snoc
    rw [hcode.length]
    exact hlast

theorem compiled_escape (h : Compiled inp ⟨.loop, s⟩ is) (hx : charAt inp s.sp = some (ch '\\'))
    (heof : ch '\\' ≠ inp.eof) : Compiled inp ⟨.escape, taken inp (ch '\\') s⟩ is := by
  have hdol := noDol_of_char h hx heof (by decide)
  obtain ⟨hcode, hlast, -⟩ := h
  have hsp : (taken inp (ch '\\') s).sp = s.sp + 1 := taken_sp _ _
  refine ⟨code_taken hcode, fun hbrace => ⟨?_, hdol⟩, fun hbrace => ?_⟩
  · have hkeep : taken inp (ch '\\') s = readOne s := if_pos (.inr ⟨rfl, hsp ▸ hbrace⟩)
    rw [hkeep]
    exact hlast
  · have hset : taken inp (ch '\\') s = { readOne s with lastep := some s.ep } := by
      apply if_neg
      rintro (h | ⟨-, h⟩)
      · exact absurd h (by decide)
      · exact hbrace (hsp ▸ h)
    rw [hset]
    rfl

theorem compiled_opening (h : Compiled inp ⟨.loop, s⟩ is)
    (ht : t = { taken inp (ch '[') s with mem := t.mem, ep := s.ep + 1 })
    (hmem : (∀ a, a < s.ep → t.mem a = s.mem a) ∧ t.mem s.ep = ccl) : Compiled inp ⟨.listOpen, t⟩ is := by
  have hep : t.ep = s.ep + 1 := by rw [ht]
  have hlast : t.lastep = some s.ep := by
    rw [ht]
    exact taken_last (by decide) (by decide)
  have hcode : Code s is := h.1
  constructor
  · exact hep ▸ Nat.succ_pos _
  · rw [hep, Nat.add_sub_cancel, ← hcode]
    exact slice_congr fun i _ hi => hmem.1 i (by omega)
  · rw [hep, Nat.add_sub_cancel]
    exact hmem.2
  · rw [hep, Nat.add_sub_cancel]
    exact hlast

theorem compiled_escaped {x : Int} {l : Label} (h : Compiled inp ⟨.escape, s⟩ is)
    (hx : charAt inp s.sp = some x)
    (hl : (x = ch '(' ∧ l = .bra) ∨ (x = ch ')' ∧ l = .ket) ∨ (x = ch '{' ∧ l = .interval) ∨
      (x ≠ ch '{' ∧ ∃ y, l = .defchar y) ∨ (ch '1' ≤ x ∧ x ≤ ch '9' ∧ l = .back (x - ch '1'))) :
    Compiled inp ⟨l, readOne s⟩ is := by
  obtain ⟨hcode, hbrace, hother⟩ := h
  have hset (hne : x ≠ ch '{') : s.lastep = some s.ep := by
    apply hother
    rw [show charAt inp (⟨.escape, s⟩ : Cfg).state.sp = some x from hx]
    exact fun h => hne (Option.some.inj h)
  rcases hl with ⟨rfl, rfl⟩ | ⟨rfl, rfl⟩ | ⟨rfl, rfl⟩ | ⟨-, y, rfl⟩ | ⟨h1, h9, rfl⟩
  · exact ⟨hcode, hset (by decide)⟩
  · exact ⟨hcode, hset (by decide)⟩
  · exact ⟨hcode, hbrace hx⟩
  · exact hcode
  · simp only [ch] at h1 h9 ⊢
    refine ⟨hcode, hset ?_, ?_, ?_⟩
    · intro h
      simp only [h, ch] at h9
      exact absurd h9 (by decide)
    · exact Int.sub_nonneg.mpr h1
    · have : (('9'.toNat : Nat) : Int) = ('1'.toNat : Nat) + 8 := by decide
      omega

theorem compiled_finish {t : State} (h : Compiled inp ⟨.loop, s⟩ is)
    (ht : t.ep = s.ep + 1 ∧ t.mem = Function.update s.mem s.ep cceof) : Compiled inp ⟨.returned, t⟩ is := by
  have hcode : Code s is := h.1
  have hput := slice_put cceof s
  right
  show slice t.mem 0 t.ep = _
  rw [ht.1, ht.2]
  exact hput.trans (by rw [hcode]; rfl)

theorem toChar_back {x : Int} (h0 : 0 ≤ x) (h9 : x < 9) : ∃ k : Fin maxBra, toChar x = groupByte k := by
  obtain ⟨n, rfl⟩ := Int.eq_ofNat_of_zero_le h0
  have hn : n < 9 := by omega
  exact ⟨⟨n, hn⟩, toChar_group hn⟩

/-- One step of `compile` writes at most one instruction or changes the last
one, and the group instructions are those it is asked for. -/
theorem step_compiled {c d : Cfg} (h : Compiled inp c is) (hsmall : Small c.state) (hplain : Plain inp c)
    (hnext : next inp c = some d) : Grows inp c d is := by
  cases next_step hnext with
  | error | overread | underrun | overrunPair | overrunCount | overrunLast | overrunList => exact .inl rfl
  | empty _ _ ht =>
      refine grows_same (.inl ?_) rfl
      exact ht.1.trans h.1
  | @start _ s t _ _ ht =>
      obtain ⟨hep, hlast, rfl⟩ := h
      have hep' : t.ep = 0 := by rw [ht]; exact hep
      have hlast' : t.lastep = none := by rw [ht]; exact hlast
      refine grows_same ⟨?_, ?_, .inl ?_⟩ rfl
      · show slice t.mem 0 t.ep = _
        rw [hep']
        rfl
      · show Last t []
        rw [Last, hlast']
      · intro init hn
        simp at hn
  | finish _ _ _ _ ht => exact grows_same (compiled_finish h ⟨ht.1, ht.2.1⟩) rfl
  | dot =>
      apply grows_snoc (i := .item .dot .one) _ rfl
      exact compiled_put h (by simp) (by decide) (by decide) (.inl (noDol_snoc (by rintro ⟨⟩)))
  | dol _ _ hy hor =>
      apply grows_snoc (i := .dol) _ rfl
      exact compiled_put h rfl (by decide) (by decide) (.inr ⟨_, hy, hor⟩)
  | star hx _ hne hlast _ hop =>
      have hdol := noDol_of_char h hx hne (by decide)
      obtain ⟨is', hmarks, hdol', hslice, hinit⟩ := code_star h.1 h.2.1 hdol hlast hop
      refine .inr ⟨is', ⟨hslice, ?_, .inl hdol'⟩, by rw [hmarks]; exact (List.append_nil _).symm⟩
      show Last _ is'
      rw [Last]
      simp only [readOne, hlast]
      exact hinit
  | plain => exact grows_same (code_taken h.1) rfl
  | backslash hx _ hne => exact grows_same (compiled_escape h hx hne) rfl
  | opening _ _ ht hmem => exact grows_same (compiled_opening h ht hmem) rfl
  | @defchar x s =>
      apply grows_snoc (i := .item (.chr (toChar x)) .one) _ rfl
      exact compiled_pair (s := { s with lastep := some s.ep }) h rfl ⟨rfl, rfl⟩ (by simp) (by rintro ⟨⟩)
  | first => exact grows_same ⟨Listing.read h, Int.le_refl 0⟩ rfl
  | complement => exact grows_same ⟨(Listing.read h).read, Int.le_refl 0⟩ rfl
  | dash => exact grows_same h rfl
  | member _ _ hl =>
      exact grows_same ⟨h.1.lists hl (Int.le_refl 0) (Int.emod_nonneg _ (by decide)), Int.emod_nonneg _ (by decide)⟩ rfl
  | range hx _ _ _ hl =>
      have hx0 := hplain.range _ _ _ _ rfl hx
      exact grows_same ⟨h.1.lists hl h.2 hx0, hx0⟩ rfl
  | rangeClose _ hc | listClose _ hc =>
      obtain ⟨hcode, hlast⟩ := h.1.closes hc
      exact grows_snoc ⟨hcode, Last.snoc hlast, .inl (noDol_snoc (by rintro ⟨⟩))⟩ rfl
  | more => exact grows_same ⟨h.1.read, h.2⟩ rfl
  | escape hx hl => exact grows_same (compiled_escaped h hx hl) rfl
  | bra hn =>
      apply grows_snoc (i := .bra ⟨_, hn⟩)
      · exact compiled_pair h.1 h.2 ⟨rfl, rfl⟩ (by rw [toChar_group hn]; rfl) (by rintro ⟨⟩)
      · show [Mark.push _] = _
        rw [toChar_group hn]
        rfl
  | @ket n bracket s hb =>
      obtain ⟨k, rfl⟩ := hsmall n (by simp [hb])
      apply grows_snoc (i := .ket k)
      · exact compiled_pair h.1 h.2 ⟨rfl, rfl⟩ rfl (by rintro ⟨⟩)
      · simp only [added, hb]
        rfl
  | @back x s =>
      obtain ⟨k, hk⟩ := toChar_back h.2.2.1 h.2.2.2
      apply grows_snoc (i := .back k)
      · exact compiled_pair h.1 h.2.1 ⟨rfl, rfl⟩ (by rw [hk]; rfl) (by rintro ⟨⟩)
      · show [Mark.mention _] = _
        rw [hk]
        rfl
  | brace => exact grows_same h.1 rfl
  | interval hlast =>
      have hop := hplain.interval
      simp only [countable, hlast] at hop
      obtain ⟨is', hmarks, hc⟩ := counting_interval h.1 h.2.1 hlast hop
      exact .inr ⟨is', ⟨hc, Nat.zero_le 1⟩, by rw [hmarks]; exact (List.append_nil _).symm⟩
  | nlim | digit | number => exact grows_same h rfl
  | comma => exact grows_same (h.1.put _) rfl
  | counted => exact grows_same ⟨h.1.put _, h.2⟩ rfl
  | unbounded => exact grows_same ⟨Counting.put (s := readOne _) h _, Nat.le_refl 1⟩ rfl
  | second => exact grows_same ⟨h, Nat.le_refl 1⟩ rfl
  | once =>
      obtain ⟨is', hcode, hlast, hdol, hmarks⟩ := Counting.done (Counting.put (s := readOne _) h.1 _)
      exact .inr ⟨is', ⟨hcode, hlast, .inl hdol⟩, by rw [hmarks]; exact (List.append_nil _).symm⟩
  | @ordered i cflg s _ hc =>
      obtain rfl : cflg = 1 := Nat.le_antisymm h.2 (Nat.pos_of_ne_zero hc)
      obtain ⟨is', hcode, hlast, hdol, hmarks⟩ := Counting.done h.1
      exact .inr ⟨is', ⟨hcode, hlast, .inl hdol⟩, by rw [hmarks]; exact (List.append_nil _).symm⟩

end SysvDev.Regexp.Growth
