import SysvDev.Regexp.Moves

namespace SysvDev.Regexp.Inversion

open Opcode Compile Moves

variable {inp : Input} {P : Cfg → Prop} {s : State}

theorem getc_cases {k : Int → State → Cfg} (hend : charAt inp s.sp = none → P ⟨.overread, s⟩)
    (hread : ∀ x, charAt inp s.sp = some x → P (k x (readOne s))) : P (getc inp s k) := by
  unfold getc
  cases h : inp.pattern[s.sp]? with
  | none => exact hend (by rw [charAt, h, Option.map_none])
  | some b => exact hread _ (by rw [charAt, h, Option.map_some])

theorem peekc_cases {k : Int → Cfg} (hend : charAt inp s.sp = none → P ⟨.overread, s⟩)
    (hread : ∀ x, charAt inp s.sp = some x → P (k x)) : P (peekc inp s k) := by
  unfold peekc
  cases h : inp.pattern[s.sp]? with
  | none => exact hend (by rw [charAt, h, Option.map_none])
  | some b => exact hread _ (by rw [charAt, h, Option.map_some])

theorem nextChar_cases {k : Int → State → Cfg} (hend : ∀ t, RunsOut inp s → P ⟨.overread, t⟩)
    (hread : ∀ x, charAt inp s.sp = some x → (x = ch '\\' → (charAt inp (s.sp + 1)).isSome) →
      P (k x (taken inp x s))) : P (nextChar inp s k) := by
  refine getc_cases (fun h => hend _ (.inl h)) fun x hx => ?_
  by_cases hstar : x = ch '*'
  · have hne : x = ch '\\' → (charAt inp (s.sp + 1)).isSome := by
      rw [hstar]
      intro h
      exact absurd h (by decide)
    simpa only [taken, hstar, true_or, if_true] using hread x hx hne
  by_cases hback : x = ch '\\'
  · simp only [hback, if_true]
    rw [if_neg (by decide)]
    refine peekc_cases (fun h => hend _ (.inr ⟨x, hx, .inl hback, h⟩)) fun y hy => ?_
    have hy' : charAt inp (s.sp + 1) = some y := hy
    have h := hread x hx fun _ => by simp [hy']
    by_cases hbrace : y = ch '{'
    · rw [taken, if_pos (.inr ⟨hback, by rw [hy', hbrace]⟩), hback] at h
      simpa only [hbrace, if_true] using h
    · rw [taken, if_neg (by rw [hy']; rintro (h | ⟨-, h⟩); exacts [hstar h, hbrace (Option.some.inj h)]),
        hback] at h
      simp only [hbrace, if_false]
      exact h
  · have h := hread x hx fun h => absurd h hback
    rw [taken, if_neg (by rintro (h | ⟨h, -⟩); exacts [hstar h, hback h])] at h
    simp only [hstar, hback, if_false]
    exact h

theorem taken_ep (x : Int) (s : State) : (taken inp x s).ep = s.ep := by
  unfold taken
  split <;> rfl

theorem taken_mem (x : Int) (s : State) : (taken inp x s).mem = s.mem := by
  unfold taken
  split <;> rfl

theorem taken_sp (x : Int) (s : State) : (taken inp x s).sp = s.sp + 1 := by
  unfold taken
  split <;> rfl

theorem taken_groups (x : Int) (s : State) : groups (taken inp x s) = groups s := by
  unfold taken
  split <;> rfl

theorem taken_star (s : State) : taken inp (ch '*') s = readOne s := if_pos (.inl rfl)

theorem emit_put {b : Byte} {k : State → Cfg} (h : s.ep < inp.endbuf) : emit inp b s k = k (put b s) := by
  simp only [emit, store, h, if_true, put]

theorem emit_over {b : Byte} {k : State → Cfg} (h : inp.endbuf ≤ s.ep) :
    emit inp b s k = ⟨.overrun s.ep, s⟩ := by
  simp only [emit, store, Nat.not_lt.mpr h, if_false]

theorem emit_pair {b d : Byte} {k : State → Cfg} (hin : s.ep + 2 ≤ inp.endbuf → P (k (put d (put b s))))
    (hout : inp.endbuf < s.ep + 2 → ∀ a t, P ⟨.overrun a, t⟩) :
    P (emit inp b s fun s => emit inp d s k) := by
  by_cases h : s.ep < inp.endbuf
  · rw [emit_put h]
    by_cases h' : (put b s).ep < inp.endbuf
    · rw [emit_put h']
      exact hin h'
    · rw [emit_over (Nat.le_of_not_lt h')]
      exact hout (Nat.lt_of_not_le fun hle => h' hle) _ _
  · rw [emit_over (Nat.le_of_not_lt h)]
    exact hout (by omega) _ _

theorem finish_step {x : Int} {t : State} (hx : charAt inp s.sp = some x) (h : x = inp.eof ∨ x = ch '\n')
    (hroom : s.ep < inp.endbuf)
    (ht : t.ep = s.ep ∧ t.mem = s.mem ∧ groups t = groups s) : Step inp ⟨.loop, s⟩ (finish inp t) := by
  obtain ⟨hep, hmem, hgroups⟩ := ht
  have hbracket : t.bracket = s.bracket := congrArg Prod.fst hgroups
  rw [finish, emit_put (hep ▸ hroom)]
  split
  · exact .error
  · rename_i hb
    refine .finish hx h hroom ?_ ⟨?_, ?_, hgroups⟩
    · rw [← hbracket]
      exact not_not.mp hb
    · exact congrArg (· + 1) hep
    · simp only [put, hep, hmem]

theorem entry_step (s : State) : Step inp ⟨.entry, s⟩ (entry inp s) := by
  refine getc_cases (fun h => .overread trivial (.inl h)) fun x hx => ?_
  by_cases hend : x = inp.eof ∨ x = ch '\n'
  · simp only [hend, if_true]
    obtain ⟨t, ht, hep, hmem⟩ : ∃ t, (if x = ch '\n' then { ungetc (readOne s) with nodelim := true }
        else readOne s) = t ∧ t.ep = s.ep ∧ t.mem = s.mem := by
      refine ⟨_, rfl, ?_, ?_⟩ <;> split <;> rfl
    rw [ht]
    split
    · exact .error
    · rename_i hsed
      refine .empty hx hend ⟨hep, hmem⟩ ?_
      rw [hep, hmem] at hsed
      by_cases hz : s.mem s.ep = 0#8
      · exact .inr (by simpa [hz] using hsed)
      · exact .inl hz
  · simp only [hend, if_false]
    split
    · rename_i hcirc
      exact .start hx (not_or.mp hend) rfl (.inl ⟨hcirc, rfl⟩)
    · exact .start hx (not_or.mp hend) rfl (.inr rfl)

theorem opening_step (hx : charAt inp s.sp = some (ch '[')) (hroom : s.ep + 17 < inp.endbuf) :
    Step inp ⟨.loop, s⟩ (emit inp ccl (taken inp (ch '[') s) fun s =>
      storeAll inp s.ep 16 (fun _ _ => 0#8) s (goto .listOpen)) := by
  have hep : (taken inp (ch '[') s).ep = s.ep := taken_ep _ _
  have hmem : (taken inp (ch '[') s).mem = s.mem := taken_mem _ _
  rw [emit_put (by omega)]
  have hall : (put ccl (taken inp (ch '[') s)).ep + 16 ≤ inp.endbuf := by
    simp only [put, hep]
    omega
  simp only [storeAll, hall, if_true]
  refine .opening hx hroom ?_ ⟨?_, ?_⟩
  · simp only [put, hep]
  · intro a ha
    have hlt : ¬ (s.ep + 1 ≤ a ∧ a < s.ep + 1 + 16) := by omega
    simp only [put, hep, hmem, hlt, if_false]
    exact Function.update_of_ne (by omega) _ _
  · have hlt : ¬ (s.ep + 1 ≤ s.ep ∧ s.ep < s.ep + 1 + 16) := by omega
    simp only [put, hep, hlt, if_false, Function.update_self]

theorem loop_step (s : State) : Step inp ⟨.loop, s⟩ (loop inp s) := by
  unfold loop
  split
  · exact .error
  have hroom : s.ep < inp.endbuf := by omega
  refine nextChar_cases (fun t h => .overread hroom h) fun x hx hback => ?_
  have hep : (taken inp x s).ep = s.ep := taken_ep x s
  split
  · exact finish_step hx (.inl ‹_›) hroom ⟨hep, taken_mem x s, taken_groups x s⟩
  have heof : x ≠ inp.eof := ‹_›
  split
  · subst x
    rw [emit_put (hep ▸ hroom)]
    exact .dot hx hroom
  split
  · split
    · exact .error
    · exact finish_step hx (.inr ‹_›) hroom ⟨hep, taken_mem x s, taken_groups x s⟩
  split
  · subst x
    rw [taken_star]
    split
    · simpa only [taken_star] using Step.plain hx hroom ⟨heof, by decide⟩
    · rename_i last hlast
      split
      · simpa only [taken_star] using Step.plain hx hroom ⟨heof, by decide⟩
      · rename_i hop
        unfold store
        split
        · exact .star hx hroom heof hlast ‹_› (not_or.mp hop)
        · exact .overrunLast (.inl rfl) hlast (by omega)
  split
  · subst x
    refine peekc_cases (fun h => ?_) fun y hy => ?_
    · rw [taken_sp] at h
      exact .overread hroom (.inr ⟨_, hx, .inr (.inl rfl), h⟩)
    · rw [taken_sp] at hy
      split
      · exact .plain hx hroom ⟨heof, by decide⟩
      · rename_i hy'
        rw [emit_put (hep ▸ hroom)]
        exact .dol hx hroom hy (by tauto)
  split
  · subst x
    split
    · exact .error
    · exact opening_step hx (by omega)
  split
  · subst x
    exact .backslash hx hroom heof (hback rfl)
  · exact .plain hx hroom ⟨heof, ‹_›⟩

theorem charAt_range {i : Nat} {x : Int} (h : charAt inp i = some x) : -128 ≤ x ∧ x < 256 := by
  obtain ⟨b, -, rfl⟩ := Option.map_eq_some_iff.mp h
  unfold Input.char
  have := b.isLt
  split
  · have h1 := BitVec.le_toInt b
    have h2 := BitVec.toInt_lt (x := b)
    omega
  · omega

theorem place_cases {n : Nat} {x : Int} {k : State → Cfg} (hx : x < 8 * n)
    (hunder : s.ep + x / 8 < 0 → ∀ a, P ⟨.underrun a, s⟩)
    (hout : inp.endbuf < s.ep + n → ∀ a, P ⟨.overrun a, s⟩)
    (hin : ∀ mem, 0 ≤ s.ep + x / 8 → (0 ≤ x → ∀ a < s.ep, mem a = s.mem a) → P (k { s with mem })) :
    P (place inp x s k) := by
  refine place_rule (fun h => hunder h _) (fun addr haddr h => hout (by omega) _) ?_
  intro addr haddr _
  refine hin _ (by omega) fun h0 a ha => ?_
  exact Function.update_of_ne (by omega) _ _

theorem placeFrom_cases {n m : Nat} {lc : Int} {k : State → Cfg} (hx : m = 0 ∨ lc + m ≤ 8 * n)
    (hunder : s.ep + lc / 8 < 0 → ∀ a t, P ⟨.underrun a, t⟩)
    (hout : inp.endbuf < s.ep + n → ∀ a t, P ⟨.overrun a, t⟩)
    (hin : ∀ mem, (0 ≤ lc → ∀ a < s.ep, mem a = s.mem a) → P (k { s with mem })) :
    P (placeFrom inp m lc s k) := by
  induction m generalizing lc s with
  | zero => exact hin s.mem fun _ _ _ => rfl
  | succ m ih =>
      refine place_cases (n := n) (by omega) (fun h a => hunder h a _) (fun h a => hout h a _) ?_
      intro mem hlow hmem
      refine ih (by omega) (fun h => absurd h (by simp only; omega)) hout fun mem' hmem' => ?_
      refine hin mem' fun h0 a ha => ?_
      exact (hmem' (by omega) a ha).trans (hmem h0 a ha)

theorem widen_cases {x : Int} {iflag : Bool} {k : Bool → State → Cfg}
    (herr : iflag = true → inp.endbuf ≤ s.ep + 32 → ∀ n t, P ⟨.error n, t⟩)
    (hk : ∀ iflag' mem, iflag' = (iflag && !wide x) →
      (iflag' = false → iflag = true → s.ep + 32 < inp.endbuf) →
      (∀ a, a + 1 < s.ep → mem a = s.mem a) →
      (0 < s.ep → s.mem (s.ep - 1) = listOp iflag → mem (s.ep - 1) = listOp iflag') →
      P (k iflag' { s with mem })) : P (widen inp x iflag s k) := by
  unfold widen
  split
  · rename_i hw
    obtain ⟨hx, rfl⟩ := hw
    have hwide : wide x = true := by simpa [wide] using hx
    split
    · exact herr rfl ‹_› _ _
    · have h1 : s.ep - 1 < inp.endbuf := by omega
      have h2 : s.ep + 16 + 16 ≤ inp.endbuf := by omega
      simp only [store, h1, if_true, storeAll, h2]
      refine hk false _ (by rw [hwide]; rfl) (fun _ _ => by omega) ?_ ?_
      · intro a ha
        have hne : ¬ (s.ep + 16 ≤ a ∧ a < s.ep + 16 + 16) := by omega
        simp only [hne, if_false]
        exact Function.update_of_ne (by omega) _ _
      · intro _ _
        have hne : ¬ (s.ep + 16 ≤ s.ep - 1 ∧ s.ep - 1 < s.ep + 16 + 16) := by omega
        simp only [hne, if_false, Function.update_self]
        rfl
  · rename_i hw
    refine hk iflag s.mem ?_ (fun h h' => by simp [h] at h') (fun _ _ => rfl) fun _ h => h
    cases iflag with
    | false => rfl
    | true =>
        have hnot : wide x = false := by simpa [wide] using hw
        rw [hnot]
        rfl

theorem lt_mapSize {x : Int} {iflag : Bool} (h : x < 256) :
    x < 8 * (mapSize (iflag && !wide x) : Nat) := by
  unfold mapSize wide
  cases iflag with
  | false => simpa using h
  | true =>
      by_cases hx : 128 ≤ x % 256
      · simpa [hx] using h
      · simp only [hx, decide_false, Bool.not_false, Bool.and_true, if_true]
        omega

theorem room_of_widens {x : Int} {iflag iflag' : Bool} {n : Nat} (hw : iflag' = (iflag && !wide x))
    (hroom : iflag' = false → iflag = true → s.ep + 32 < n) (h : n < s.ep + mapSize iflag') :
    n < s.ep + mapSize iflag := by
  cases iflag with
  | false => simpa [hw] using h
  | true =>
      cases iflag' with
      | true => exact h
      | false =>
          have := hroom rfl rfl
          simp only [mapSize, Bool.false_eq_true, if_false] at h
          omega

theorem list_step (x lc : Int) (neg iflag : Bool) (s : State) :
    Step inp ⟨.list x lc neg iflag, s⟩ (list inp x lc neg iflag s) := by
  simp only [list]
  split
  · exact .error
  rename_i hx
  have hx0 : x % 256 ≠ 0 := (not_or.mp hx).1
  by_cases hdash : x % 256 = ch '-' ∧ lc ≠ 0
  · have hnot : ¬ (128 ≤ x % 256 % 256 ∧ iflag = true) := by
      rw [hdash.1]
      rintro ⟨h, -⟩
      exact absurd h (by decide)
    rw [widen, if_neg hnot, if_pos hdash]
    exact .dash hdash.1 hdash.2
  · refine widen_cases (fun _ _ _ _ => .error) fun iflag' mem hw hroom hframe hop => ?_
    rw [if_neg hdash]
    refine place_cases (n := mapSize iflag') ?_ (fun h => absurd h (by simp only; omega)) ?_ ?_
    · rw [hw]
      exact lt_mapSize (by omega)
    · intro h a
      exact .overrunList rfl (room_of_widens hw hroom h)
    · intro mem' _ hmem'
      refine .member hx0 rfl ⟨rfl, hw, hroom, fun _ h0 a ha => ?_, fun _ h0 hpos hs => ?_⟩
      · exact (hmem' h0 a (by simp only; omega)).trans (hframe a ha)
      · exact (hmem' h0 _ (by simp only; omega)).trans (hop hpos hs)

theorem close_cases {neg iflag : Bool} (hout : inp.endbuf < s.ep + mapSize iflag → ∀ a t, P ⟨.overrun a, t⟩)
    (hin : ∀ mem, (∀ a, a + 1 < s.ep → mem a = s.mem a) →
      (0 < s.ep → s.mem (s.ep - 1) = listOp iflag → mem (s.ep - 1) = closedOp neg iflag) →
      P ⟨.loop, { s with mem, ep := s.ep + mapSize iflag }⟩) : P (close inp neg iflag s) := by
  cases neg with
  | false =>
      refine hin s.mem (fun _ _ => rfl) fun _ h => ?_
      rw [h]
      cases iflag <;> rfl
  | true =>
      cases iflag with
      | true =>
          simp only [close, if_true]
          refine store_rule (fun h => hout (by simp only [mapSize, if_true]; omega) _ _) fun _ => ?_
          refine store_rule (fun h => hout (by simp only [mapSize, if_true] at h ⊢; omega) _ _) fun _ => ?_
          refine hin _ (fun a ha => ?_) fun hpos _ => ?_
          · have h1 : a ≠ s.ep := by omega
            have h2 : a ≠ s.ep - 1 := by omega
            exact (Function.update_of_ne h1 _ _).trans (Function.update_of_ne h2 _ _)
          · have h1 : s.ep - 1 ≠ s.ep := by omega
            exact (Function.update_of_ne h1 _ _).trans (Function.update_self _ _ _)
      | false =>
          simp only [close, if_true, Bool.false_eq_true, if_false]
          refine storeAll_rule (fun h => hout h _ _) fun _ => ?_
          refine store_rule (fun h => hout (by simp only [mapSize] at h ⊢; simp; omega) _ _) fun _ => ?_
          refine hin _ (fun a ha => ?_) fun hpos hs => ?_
          · have h1 : a ≠ s.ep := by omega
            exact (Function.update_of_ne h1 _ _).trans (if_neg (by omega))
          · have h1 : s.ep - 1 ≠ s.ep := by omega
            exact (Function.update_of_ne h1 _ _).trans ((if_neg (by omega)).trans hs)

theorem rangeEnd_step (lc : Int) (neg iflag : Bool) (s : State) :
    Step inp ⟨.rangeEnd lc neg iflag, s⟩ (rangeEnd inp lc neg iflag s) := by
  refine getc_cases (fun h => .overread trivial (.inl h)) fun x hx => ?_
  split
  · rename_i hclose
    subst x
    have hpos : ¬ (s.ep + ch '-' / 8 < 0) := Int.not_lt.mpr (Int.add_nonneg (Int.natCast_nonneg _) (by decide))
    refine place_cases (n := mapSize iflag) ?_ (fun h => absurd h hpos) ?_ fun mem _ hmem => ?_
    · cases iflag <;> decide
    · exact fun h a => .overrunList rfl h
    · have hframe := hmem (by decide)
      refine close_cases (fun h a t => .overrunList rfl h) fun mem' hmem' hop => .rangeClose hx ⟨rfl, ?_, ?_⟩
      · intro a ha
        exact (hmem' a ha).trans (hframe a (by simp only [readOne]; omega))
      · intro hpos hs
        exact hop hpos ((hframe _ (by simp only [readOne]; omega)).trans hs)
  · rename_i hne
    have hlt := (charAt_range hx).2
    refine widen_cases (fun _ _ _ _ => .error) fun iflag' mem hw hroom hframe hop => ?_
    have hmap : x < 8 * (mapSize iflag' : Nat) := hw ▸ lt_mapSize hlt
    have hover {a : Nat} {t : State} (h : inp.endbuf < s.ep + mapSize iflag') :
        Step inp ⟨.rangeEnd lc neg iflag, s⟩ ⟨.overrun a, t⟩ := .overrunList rfl (room_of_widens hw hroom h)
    have hpast : iflag = false ∨ wide x = false ∨ s.ep + 32 < inp.endbuf := by
      cases hi : iflag with
      | false => exact .inl rfl
      | true =>
          cases hwx : wide x with
          | false => exact .inr (.inl rfl)
          | true => exact .inr (.inr (hroom (by simp [hw, hwx]) hi))
    refine placeFrom_cases (n := mapSize iflag') (by omega) (fun h a t => .underrun hx hpast (.inl h))
      (fun h a t => hover h) fun mem' hmem' => ?_
    refine place_cases (n := mapSize iflag') hmap (fun h a => .underrun hx hpast (.inr h))
      (fun h a => hover h) ?_
    intro mem'' hlow hmem''
    have hkeep (h0 : 0 ≤ lc) (h1 : 0 ≤ x) (a : Nat) (ha : a < s.ep) : mem'' a = mem a :=
      (hmem'' h1 a ha).trans (hmem' h0 a ha)
    refine .range hx hne rfl hlow ⟨rfl, hw, hroom, fun h0 h1 a ha => ?_, fun h0 h1 hpos hs => ?_⟩
    · exact (hkeep h0 h1 a (by omega)).trans (hframe a ha)
    · exact (hkeep h0 h1 _ (by omega)).trans (hop hpos hs)

theorem listOpen_step (s : State) : Step inp ⟨.listOpen, s⟩ (listOpen inp s) := by
  refine getc_cases (fun h => .overread trivial (.inl h)) fun x hx => ?_
  split
  · subst x
    exact getc_cases (fun h => .overread trivial (.inr ⟨_, hx, .inr (.inr rfl), h⟩))
      fun y hy => .complement hx hy
  · exact .first hx

theorem listNext_step (lc : Int) (neg iflag : Bool) (s : State) :
    Step inp ⟨.listNext lc neg iflag, s⟩ (listNext inp lc neg iflag s) := by
  refine getc_cases (fun h => .overread trivial (.inl h)) fun x hx => ?_
  split
  · subst x
    exact close_cases (fun h a t => .overrunList rfl h) fun mem hmem hop => .listClose hx ⟨rfl, hmem, hop⟩
  · exact .more hx ‹_›

theorem escape_step (s : State) : Step inp ⟨.escape, s⟩ (escape inp s) := by
  refine getc_cases (fun h => .overread trivial (.inl h)) fun x hx => ?_
  split
  · exact .escape hx (.inl ⟨‹_›, rfl⟩)
  split
  · exact .escape hx (.inr (.inl ⟨‹_›, rfl⟩))
  split
  · exact .escape hx (.inr (.inr (.inl ⟨‹_›, rfl⟩)))
  have hbrace : x ≠ ch '{' := ‹_›
  split
  · exact .error
  split
  · exact .escape hx (.inr (.inr (.inr (.inl ⟨hbrace, _, rfl⟩))))
  split
  · rename_i hd
    exact .escape hx (.inr (.inr (.inr (.inr ⟨hd.1, hd.2, rfl⟩))))
  · exact .escape hx (.inr (.inr (.inr (.inl ⟨hbrace, _, rfl⟩))))

theorem defchar_step (x : Int) (s : State) : Step inp ⟨.defchar x, s⟩ (defchar inp x s) :=
  emit_pair (fun h => .defchar h) fun h _ _ => .overrunPair trivial h

theorem bra_step (s : State) : Step inp ⟨.bra, s⟩ (bra inp s) := by
  unfold bra
  split
  · exact .error
  · have hn : s.nbra < maxBra := by omega
    exact emit_pair (fun h => .bra hn h) fun h _ _ => .overrunPair hn h

theorem ket_step (s : State) : Step inp ⟨.ket, s⟩ (ket inp s) := by
  unfold ket
  split
  · exact .error
  · rename_i n bracket hb
    have hne : s.bracket ≠ [] := by simp [hb]
    by_cases h : s.ep + 2 ≤ inp.endbuf
    · rw [emit_put (by omega), emit_put (by simp only [put]; omega)]
      exact .ket hb h
    · have hover {a : Nat} {t : State} : Step inp ⟨.ket, s⟩ ⟨.overrun a, t⟩ := .overrunPair hne (by omega)
      by_cases h' : s.ep < inp.endbuf
      · rw [emit_put h', emit_over (by simp only [put]; omega)]
        exact hover
      · rw [emit_over (by omega)]
        exact hover

theorem back_step (x : Int) (s : State) : Step inp ⟨.back x, s⟩ (back inp x s) := by
  unfold back
  split
  · exact .error
  · have hx : x < s.closed := by omega
    exact emit_pair (fun h => .back hx h) fun h _ _ => .overrunPair hx h

theorem interval_step (s : State) : Step inp ⟨.interval, s⟩ (interval inp s) := by
  unfold interval
  split
  · exact .brace ‹_›
  · rename_i last hlast
    exact store_rule (fun h => .overrunLast (.inr rfl) hlast h) fun h => .interval hlast h

theorem digits_step (x i : Int) (cflg : Nat) (s : State) :
    Step inp ⟨.digits x i cflg, s⟩ (digits inp x i cflg s) := by
  unfold digits
  split
  · rename_i hd
    refine getc_cases (fun h => .overread hd (.inl h)) fun y hy => ?_
    split
    · exact .digit hd hy
    · exact .number hd hy (by tauto)
  · exact .error

theorem limit_step (x i : Int) (cflg : Nat) (s : State) :
    Step inp ⟨.limit x i cflg, s⟩ (limit inp x i cflg s) := by
  unfold limit
  split
  · exact .error
  have hi : i < 255 := by omega
  refine emit_rule (fun h => .overrunCount hi h) fun h => ?_
  split
  · subst x
    split
    · exact .error
    · rename_i hc
      obtain rfl : cflg = 0 := not_not.mp hc
      exact .comma hi h
  · exact .counted ‹_› hi h

theorem upper_step (i : Int) (s : State) : Step inp ⟨.upper i, s⟩ (upper inp i s) := by
  refine getc_cases (fun h => .overread trivial (.inl h)) fun x hx => ?_
  split
  · subst x
    exact emit_rule (fun h => .overrunCount hx h) fun h => .unbounded hx h
  · exact .second hx ‹_›

theorem closeBrace_step (i : Int) (cflg : Nat) (s : State) :
    Step inp ⟨.closeBrace i cflg, s⟩ (closeBrace inp i cflg s) := by
  refine getc_cases (fun h => .overread trivial (.inl h)) fun x hx => ?_
  split
  · exact .error
  obtain rfl : x = ch '}' := not_not.mp ‹_›
  split
  · subst cflg
    exact emit_rule (fun h => .overrunCount ⟨rfl, hx⟩ h) fun h => .once hx h
  split
  · exact .error
  · exact .ordered hx ‹_›

/-- `next` does nothing but what the relation lists. -/
theorem next_step {c d : Cfg} (h : next inp c = some d) : Step inp c d := by
  obtain ⟨label, s⟩ := c
  cases label with
  | returned | error | overrun | underrun | overread => simp [next] at h
  | entry => exact Option.some.inj h ▸ entry_step s
  | loop => exact Option.some.inj h ▸ loop_step s
  | defchar x => exact Option.some.inj h ▸ defchar_step x s
  | listOpen => exact Option.some.inj h ▸ listOpen_step s
  | list x lc neg iflag => exact Option.some.inj h ▸ list_step x lc neg iflag s
  | rangeEnd lc neg iflag => exact Option.some.inj h ▸ rangeEnd_step lc neg iflag s
  | listNext lc neg iflag => exact Option.some.inj h ▸ listNext_step lc neg iflag s
  | escape => exact Option.some.inj h ▸ escape_step s
  | bra => exact Option.some.inj h ▸ bra_step s
  | ket => exact Option.some.inj h ▸ ket_step s
  | back x => exact Option.some.inj h ▸ back_step x s
  | interval => exact Option.some.inj h ▸ interval_step s
  | nlim cflg =>
      exact Option.some.inj h ▸ getc_cases (fun h => .overread trivial (.inl h)) fun x hx => .nlim hx
  | digits x i cflg => exact Option.some.inj h ▸ digits_step x i cflg s
  | limit x i cflg => exact Option.some.inj h ▸ limit_step x i cflg s
  | upper i => exact Option.some.inj h ▸ upper_step i s
  | closeBrace i cflg => exact Option.some.inj h ▸ closeBrace_step i cflg s

end SysvDev.Regexp.Inversion
