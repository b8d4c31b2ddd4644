import SysvDev.Regexp.Halt

namespace SysvDev.Regexp.Room

open StateTransition Transition Opcode Compile Moves Inversion Halt

variable {inp : Input}

/-- The ways `compile` may end without having left the buffer. -/
def Stays (inp : Input) (c : Cfg) : Prop :=
  match c.label with
  | .returned => c.state.ep ≤ inp.endbuf
  | .overrun _ | .underrun _ => False
  | _ => True

/-- An instruction with an operand, or the counts of an interval, fit when
they are stored, and the end of a range is no negative character whose bit
would lie before the buffer. -/
structure HasRoom (inp : Input) (c : Cfg) : Prop where
  pair : storesPair c.label c.state → c.state.ep + 2 ≤ inp.endbuf
  count : storesCount inp c.label c.state → c.state.ep < inp.endbuf
  low : ∀ lc neg iflag x, c.label = .rangeEnd lc neg iflag → charAt inp c.state.sp = some x → x < 0 →
    (iflag = false ∨ c.state.ep + 32 < inp.endbuf) → 0 ≤ c.state.ep + x / 8

def lastChar : Label → Int
  | .list _ lc _ _ | .rangeEnd lc _ _ | .listNext lc _ _ => lc
  | _ => 0

def reserved : Label → Nat
  | .listOpen => 16
  | .list _ _ _ iflag | .rangeEnd _ _ iflag | .listNext _ _ iflag => mapSize iflag
  | _ => 0

structure Bounded (inp : Input) (c : Cfg) : Prop where
  stays : Stays inp c
  init : c.label = .entry → c.state.ep = 0
  last : 0 < rank c.label → ∀ last, c.state.lastep = some last → last < inp.endbuf
  map : reserved c.label = 0 ∨ c.state.ep + reserved c.label ≤ inp.endbuf
  low : 0 ≤ c.state.ep + lastChar c.label / 8

def Outside (l : Label) : Prop := l ≠ .entry ∧ reserved l = 0 ∧ lastChar l = 0

theorem bounded_outside {l : Label} {t : State} (hl : Outside l) (hs : Stays inp ⟨l, t⟩)
    (hlast : 0 < rank l → ∀ last, t.lastep = some last → last < inp.endbuf) : Bounded inp ⟨l, t⟩ := by
  obtain ⟨hentry, hreserved, hchar⟩ := hl
  refine ⟨hs, fun h => absurd h hentry, hlast, .inl hreserved, ?_⟩
  simp only [hchar]
  omega

theorem taken_lastep (x : Int) (s : State) :
    (taken inp x s).lastep = s.lastep ∨ (taken inp x s).lastep = some s.ep := by
  unfold taken
  split
  · exact .inl rfl
  · exact .inr rfl

theorem last_taken {s : State} {x : Int} (h : Bounded inp ⟨.loop, s⟩) (hroom : s.ep < inp.endbuf) (last : Nat)
    (hlast : (taken inp x s).lastep = some last) : last < inp.endbuf := by
  have hcases : (taken inp x s).lastep = _ ∨ _ := taken_lastep x s
  rcases hcases with hkeep | hset
  · exact h.last Nat.one_pos last (hkeep ▸ hlast)
  · rw [hset] at hlast
    exact Option.some.inj hlast ▸ hroom

theorem lists_room {lc x : Int} {iflag iflag' : Bool} {s t : State} (h : Lists inp lc x iflag iflag' s t)
    (hs : s.ep + mapSize iflag ≤ inp.endbuf) : t.ep + mapSize iflag' ≤ inp.endbuf := by
  rw [h.ep_eq]
  refine Nat.le_of_not_lt fun hlt => ?_
  have := room_of_widens (s := s) h.widens h.room hlt
  omega

theorem mapSize_pos (iflag : Bool) : 0 < mapSize iflag := by
  cases iflag <;> decide

theorem map_room {l : Label} {iflag : Bool} {s : State} (h : Bounded inp ⟨l, s⟩) (hl : reserved l = mapSize iflag) :
    s.ep + mapSize iflag ≤ inp.endbuf := by
  have hpos := mapSize_pos iflag
  rcases h.map with h0 | hle
  · simp only [hl] at h0
    omega
  · simpa only [hl] using hle

theorem bounded_inside {l : Label} {s t : State} {l' : Label} (h : Bounded inp ⟨l, s⟩) (hl : 0 < rank l)
    (hl' : l' ≠ .entry) (hs : Stays inp ⟨l', t⟩) (ht : t.lastep = s.lastep)
    (hmap : t.ep + reserved l' ≤ inp.endbuf) (hlow : 0 ≤ t.ep + lastChar l' / 8) : Bounded inp ⟨l', t⟩ :=
  ⟨hs, fun h => absurd h hl', fun _ last hlast => h.last hl last (ht ▸ hlast), .inr hmap, hlow⟩

def Leaves (c : Cfg) : Prop := (∃ a, c.label = .overrun a) ∨ ∃ a, c.label = .underrun a

theorem Leaves.not_stays {c : Cfg} (h : Leaves c) : ¬ Stays inp c := by
  rcases h with ⟨a, h⟩ | ⟨a, h⟩ <;> simp [Stays, h]

theorem Leaves.next_eq {c : Cfg} (h : Leaves c) : next inp c = none := by
  rcases h with ⟨a, h⟩ | ⟨a, h⟩ <;> simp [next, h]

theorem underrun_absurd {lc x : Int} {neg iflag : Bool} {s : State} (h : Bounded inp ⟨.rangeEnd lc neg iflag, s⟩)
    (hroom : HasRoom inp ⟨.rangeEnd lc neg iflag, s⟩) (hx : charAt inp s.sp = some x)
    (hw : iflag = false ∨ wide x = false ∨ s.ep + 32 < inp.endbuf)
    (hneg : s.ep + lc / 8 < 0 ∨ s.ep + x / 8 < 0) : False := by
  have hlow : 0 ≤ s.ep + lc / 8 := h.low
  have hrange := charAt_range hx
  by_cases hx0 : x < 0
  · have hwide : wide x = true := by
      simp only [wide, decide_eq_true_eq]
      omega
    have hlow' : 0 ≤ s.ep + x / 8 := hroom.low lc neg iflag x rfl hx hx0 (by simpa [hwide] using hw)
    omega
  · omega

/-- With room a step does not leave the buffer. -/
theorem step_not_leaves {c d : Cfg} (h : Bounded inp c) (hroom : HasRoom inp c) (hnext : next inp c = some d) :
    ¬ Leaves d := by
  have hpos := rank_pos hnext
  cases next_step hnext with
  | underrun hx hw hneg => exact (underrun_absurd h hroom hx hw hneg).elim
  | overrunPair hl hlt => exact absurd (hroom.pair hl) (by simp only; omega)
  | overrunCount hl hle => exact absurd (hroom.count hl) (by simp only; omega)
  | overrunLast _ hlast hle => exact absurd (h.last hpos _ hlast) (by omega)
  | @overrunList l _ _ _ _ hl hlt =>
      refine absurd (map_room h ?_) (Nat.not_le.mpr hlt)
      cases l <;> simp_all [listFlag, reserved]
  | escape _ hl => rcases hl with ⟨-, rfl⟩ | ⟨-, rfl⟩ | ⟨-, rfl⟩ | ⟨-, y, rfl⟩ | ⟨-, -, rfl⟩ <;> simp [Leaves]
  | _ => simp [Leaves]

theorem step_bounded {c d : Cfg} (h : Bounded inp c) (hnext : next inp c = some d) (hd : ¬ Leaves d) :
    Bounded inp d := by
  have hpos := rank_pos hnext
  cases next_step hnext with
  | error => exact bounded_outside ⟨by rintro ⟨⟩, rfl, rfl⟩ trivial (fun h => absurd h (by simp [rank]))
  | overread => exact bounded_outside ⟨by rintro ⟨⟩, rfl, rfl⟩ trivial (fun h => absurd h (by simp [rank]))
  | underrun => exact absurd (.inr ⟨_, rfl⟩) hd
  | overrunPair | overrunCount | overrunLast | overrunList => exact absurd (.inl ⟨_, rfl⟩) hd
  | empty _ _ ht =>
      refine bounded_outside ⟨by rintro ⟨⟩, rfl, rfl⟩ ?_ (fun h => absurd h (by simp [rank]))
      have hinit := h.init rfl
      simp only [Stays, ht.1] at hinit ⊢
      omega
  | finish _ _ hlt _ ht =>
      refine bounded_outside ⟨by rintro ⟨⟩, rfl, rfl⟩ ?_ (fun h => absurd h (by simp [rank]))
      simp only [Stays, ht.1]
      omega
  | start _ _ ht =>
      refine bounded_outside ⟨by rintro ⟨⟩, rfl, rfl⟩ trivial fun _ last hlast => h.last hpos last ?_
      rw [ht] at hlast
      exact hlast
  | dot _ hlt | dol _ hlt | plain _ hlt | backslash _ hlt =>
      exact bounded_outside ⟨by rintro ⟨⟩, rfl, rfl⟩ trivial fun _ => last_taken h hlt
  | opening _ hlt ht =>
      refine ⟨trivial, by rintro ⟨⟩, fun _ last hlast => ?_, .inr ?_, ?_⟩
      · rw [ht] at hlast
        exact last_taken h (by omega) last hlast
      · rw [ht]
        simp only [reserved]
        omega
      · simp only [lastChar]
        omega
  | defchar hle =>
      refine bounded_outside ⟨by rintro ⟨⟩, rfl, rfl⟩ trivial fun _ last hlast => ?_
      have : _ = last := Option.some.inj hlast
      omega
  | star | bra | ket | back | brace | interval | nlim | digit | number | comma | counted | unbounded
  | second | once | ordered => exact bounded_outside ⟨by rintro ⟨⟩, rfl, rfl⟩ trivial fun _ => h.last hpos
  | escape _ hl =>
      rcases hl with ⟨-, rfl⟩ | ⟨-, rfl⟩ | ⟨-, rfl⟩ | ⟨-, y, rfl⟩ | ⟨-, -, rfl⟩ <;>
        exact bounded_outside ⟨by rintro ⟨⟩, rfl, rfl⟩ trivial fun _ => h.last hpos
  | first =>
      have hmap := map_room h (show reserved .listOpen = mapSize true from rfl)
      refine bounded_inside h hpos (by rintro ⟨⟩) trivial rfl hmap ?_
      simp only [lastChar, readOne]
      omega
  | complement =>
      have hmap := map_room h (show reserved .listOpen = mapSize true from rfl)
      refine bounded_inside h hpos (by rintro ⟨⟩) trivial rfl hmap ?_
      simp only [lastChar, readOne]
      omega
  | dash => exact bounded_inside h hpos (by rintro ⟨⟩) trivial rfl (map_room h rfl) h.low
  | member _ _ hl =>
      refine bounded_inside h hpos (by rintro ⟨⟩) trivial hl.lastep_eq (lists_room hl (map_room h rfl)) ?_
      simp only [lastChar]
      omega
  | range _ _ _ hlow hl =>
      refine bounded_inside h hpos (by rintro ⟨⟩) trivial hl.lastep_eq (lists_room hl (map_room h rfl)) ?_
      simpa only [lastChar, hl.ep_eq] using hlow
  | more =>
      have hmap := map_room h rfl
      exact bounded_inside h hpos (by rintro ⟨⟩) trivial rfl hmap h.low
  | rangeClose _ hc | listClose _ hc =>
      refine bounded_outside ⟨by rintro ⟨⟩, rfl, rfl⟩ trivial fun _ last hlast => h.last hpos last ?_
      rw [hc.rest] at hlast
      exact hlast

theorem compile_bounded (inp : Input) (mem : Nat → Byte) : Bounded inp (compile mem) :=
  ⟨trivial, fun _ => rfl, by rintro _ _ ⟨⟩, .inl rfl, Int.le_refl 0⟩

theorem pair_leaves {s : State} {b d : Byte} {k : State → Cfg} (h : inp.endbuf < s.ep + 2) :
    Leaves (emit inp b s fun s => emit inp d s k) :=
  emit_pair (fun hle => absurd hle (by omega)) fun _ a _ => .inl ⟨a, rfl⟩

theorem emit_leaves {s : State} {b : Byte} {k : State → Cfg} (h : inp.endbuf ≤ s.ep) : Leaves (emit inp b s k) := by
  rw [emit_over h]
  exact .inl ⟨_, rfl⟩

theorem getc_eq {s : State} {x : Int} {k : Int → State → Cfg} (h : charAt inp s.sp = some x) :
    getc inp s k = k x (readOne s) := by
  refine getc_cases (P := fun c => c = k x (readOne s)) (fun hnone => ?_) fun y hy => ?_
  · rw [h] at hnone
    cases hnone
  · rw [Option.some.inj (hy.symm.trans h)]

theorem storesPair_leaves {l : Label} {s : State} (hl : storesPair l s) (h : inp.endbuf < s.ep + 2) :
    ∃ d, next inp ⟨l, s⟩ = some d ∧ Leaves d := by
  cases l with
  | defchar x => exact ⟨_, rfl, pair_leaves h⟩
  | bra =>
      refine ⟨_, rfl, ?_⟩
      rw [bra, if_neg (Nat.not_le.mpr hl)]
      exact pair_leaves h
  | ket =>
      refine ⟨_, rfl, ?_⟩
      unfold ket
      split
      · exact absurd ‹_› hl
      · by_cases h' : s.ep < inp.endbuf
        · rw [emit_put h']
          exact emit_leaves (by simp only [put]; omega)
        · exact emit_leaves (Nat.le_of_not_lt h')
  | back x =>
      refine ⟨_, rfl, ?_⟩
      rw [back, if_neg (Int.not_le.mpr hl)]
      exact pair_leaves h
  | _ => exact hl.elim

theorem storesCount_leaves {l : Label} {s : State} (hl : storesCount inp l s) (h : inp.endbuf ≤ s.ep) :
    ∃ d, next inp ⟨l, s⟩ = some d ∧ Leaves d := by
  cases l with
  | limit x i cflg =>
      refine ⟨_, rfl, ?_⟩
      rw [limit, if_neg (Int.not_le.mpr hl)]
      exact emit_leaves h
  | upper i =>
      refine ⟨_, rfl, ?_⟩
      rw [upper, getc_eq hl, if_pos rfl]
      exact emit_leaves h
  | closeBrace i cflg =>
      obtain ⟨rfl, hx⟩ := hl
      refine ⟨_, rfl, ?_⟩
      rw [closeBrace, getc_eq hx, if_neg (not_not.mpr rfl), if_pos rfl]
      exact emit_leaves h
  | _ => exact hl.elim

theorem placeFrom_leaves {m : Nat} {lc x : Int} {s : State} {k : State → Cfg} (hm : lc + m ≤ x)
    (hx : s.ep + x / 8 < 0) (hk : ∀ t, t.ep = s.ep → Leaves (k t)) : Leaves (placeFrom inp m lc s k) := by
  cases m with
  | zero => exact hk s rfl
  | succ m =>
      have hneg : s.ep + lc / 8 < 0 := by omega
      rw [placeFrom, place]
      simp only [hneg, if_true]
      exact .inr ⟨_, rfl⟩

theorem rangeEnd_leaves {lc x : Int} {neg iflag : Bool} {s : State} (hx : charAt inp s.sp = some x) (hneg : x < 0)
    (hw : iflag = false ∨ s.ep + 32 < inp.endbuf) (hlow : s.ep + x / 8 < 0) :
    Leaves (rangeEnd inp lc neg iflag s) := by
  have hne : x ≠ ch ']' := by
    rintro rfl
    exact absurd hneg (by decide)
  have hplace (t : State) (k : State → Cfg) (ht : t.ep = s.ep) : Leaves (place inp x t k) := by
    have : t.ep + x / 8 < 0 := ht ▸ hlow
    simp only [place, this, if_true]
    exact .inr ⟨_, rfl⟩
  rw [rangeEnd, getc_eq hx, if_neg hne]
  refine widen_cases (P := Leaves) ?_ ?_
  · rintro rfl hle
    rcases hw with hfalse | hlt
    · cases hfalse
    · exact absurd hle (Nat.not_le.mpr hlt)
  · intro iflag' mem _ _ _ _
    by_cases hle : lc ≤ x
    · exact placeFrom_leaves (x := x) (by omega) hlow fun t ht => hplace t _ ht
    · rw [show (x - lc).toNat = 0 by omega]
      exact hplace _ _ rfl

theorem not_room_leaves {c : Cfg} (h : ¬ HasRoom inp c) : ∃ d, next inp c = some d ∧ Leaves d := by
  by_contra hno
  refine h ⟨fun hl => ?_, fun hl => ?_, fun lc neg iflag x hl hx hneg hw => ?_⟩
  · exact Nat.le_of_not_lt fun hlt => hno (storesPair_leaves hl hlt)
  · exact Nat.lt_of_not_le fun hle => hno (storesCount_leaves hl hle)
  · have hnext : next inp c = some (rangeEnd inp lc neg iflag c.state) := by
      simp only [next, hl]
    exact Int.not_lt.mp fun hlow => hno ⟨_, hnext, rangeEnd_leaves hx hneg hw hlow⟩

/-- A run that leaves the buffer ends there. -/
theorem not_stays_of_leaves {c d : Cfg} (h : Reaches (next inp) c d) (hd : Leaves d) :
    ¬ ∃ e ∈ eval (next inp) c, Stays inp e := by
  rintro ⟨e, he, hs⟩
  have hmem : d ∈ eval (next inp) c := mem_eval.mpr ⟨h, hd.next_eq⟩
  exact hd.not_stays (Part.mem_unique hmem he ▸ hs)

theorem reaches_bounded {mem : Nat → Byte} {c : Cfg} (h : Reaches (next inp) (compile mem) c)
    (hc : ¬ Leaves c) : Bounded inp c := by
  have hinv : Leaves c ∨ Bounded inp c := by
    refine reaches_invariant (P := fun c => Leaves c ∨ Bounded inp c) (fun a b ha hab => ?_) h
      (.inr (compile_bounded inp mem))
    rcases ha with hl | hb
    · rw [hl.next_eq] at hab
      cases hab
    · exact (em (Leaves b)).imp_right (step_bounded hb hab)
  exact hinv.resolve_left hc

/-- `compile` ends without having stored outside the buffer, by an error or
with a pointer into it, exactly when every instruction with an operand and
every count it stores finds room. -/
theorem compile_stays_iff (inp : Input) (mem : Nat → Byte) :
    (∃ c ∈ eval (next inp) (compile mem), Stays inp c) ↔
      ∀ c, Reaches (next inp) (compile mem) c → HasRoom inp c := by
  constructor
  · intro h c hc
    by_contra hno
    obtain ⟨d, hd, hleaves⟩ := not_room_leaves hno
    exact not_stays_of_leaves (reaches_tail hc hd) hleaves h
  · intro h
    obtain ⟨c, hc, hnone⟩ := dom_iff.mp (compile_halts inp mem)
    refine ⟨c, mem_eval.mpr ⟨hc, hnone⟩, ?_⟩
    have hbounded : Bounded inp c :=
      reaches_invariant_of_reaches
        (fun a b ha hab hnext => step_bounded hab hnext (step_not_leaves hab (h a ha) hnext)) hc
        (compile_bounded inp mem)
    exact hbounded.stays

def oneByte : Input := ⟨[97#8, 0#8], false, 0, 1, false⟩

theorem oneByte_leaves : ¬ ∃ c ∈ eval (next oneByte) (compile fun _ => 0#8), Stays oneByte c :=
  not_stays_of_leaves (reaches_steps (next oneByte) 3 _) (.inl ⟨1, by decide⟩)

end SysvDev.Regexp.Room
