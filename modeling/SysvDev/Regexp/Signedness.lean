import SysvDev.Regexp.Room
import SysvDev.Regexp.Bracket

namespace SysvDev.Regexp.Signedness

open StateTransition Transition Opcode Compile Moves Inversion Halt Room

variable {inp : Input} {s t : State}

/-- The same call with a `GETC` that sign-extends. -/
def signed (inp : Input) : Input := { inp with signedChar := true }

/-- The same call with a `GETC` in 0..255. -/
def unsigned (inp : Input) : Input := { inp with signedChar := false }

section Places

/-- `PLACE` of each index in turn. -/
def placeAll (inp : Input) : List Int → State → (State → Cfg) → Cfg
  | [], s, k => k s
  | x :: xs, s, k => place inp x s fun s => placeAll inp xs s k

/-- The indexes a step gives to `PLACE`. -/
def placed (inp : Input) (c : Cfg) : List Int :=
  match c.label with
  | .list x lc _ _ => if x % 256 = 0 ∨ x % 256 = ch '\n' ∨ (x % 256 = ch '-' ∧ lc ≠ 0) then [] else [x % 256]
  | .rangeEnd lc _ _ =>
      match charAt inp c.state.sp with
      | none => []
      | some x =>
          if x = ch ']' then [ch '-'] else (List.range (x - lc).toNat).map (fun i : Nat => lc + i) ++ [x]
  | _ => []

/-- The size of the map once `x` is read, if there is room for it. -/
def mapFor (inp : Input) (x : Int) (iflag : Bool) (s : State) : Option Nat :=
  if wide x && iflag then if s.ep + 32 < inp.endbuf then some 32 else none else some (mapSize iflag)

def mapOf (inp : Input) (c : Cfg) : Option Nat :=
  match c.label with
  | .list x _ _ iflag => mapFor inp x iflag c.state
  | .rangeEnd _ _ iflag =>
      match charAt inp c.state.sp with
      | none => none
      | some x => if x = ch ']' then some (mapSize iflag) else mapFor inp x iflag c.state
  | _ => none

/-- Every `PLACE` of a step writes inside the map. -/
def Inside (inp : Input) (c : Cfg) : Prop :=
  ∀ n, mapOf inp c = some n → ∀ x ∈ placed inp c, 0 ≤ x / 8 ∧ x / 8 < n

theorem placeFrom_eq_placeAll (n : Nat) (lc : Int) (k : State → Cfg) :
    placeFrom inp n lc s k = placeAll inp ((List.range n).map fun i : Nat => lc + i) s k := by
  induction n generalizing lc s with
  | zero => rfl
  | succ n ih =>
      have hcomp : (fun i : Nat => lc + (i : Int)) ∘ Nat.succ = fun i : Nat => lc + 1 + (i : Int) := by
        funext i
        simp only [Function.comp_apply, Nat.succ_eq_add_one, Int.natCast_add, Int.natCast_one]
        omega
      rw [List.range_succ_eq_map, List.map_cons, List.map_map, hcomp, placeFrom, placeAll, Int.natCast_zero,
        Int.add_zero]
      congr 1
      funext s
      exact ih (lc + 1)

theorem placeAll_append (xs ys : List Int) (k : State → Cfg) :
    placeAll inp (xs ++ ys) s k = placeAll inp xs s fun s => placeAll inp ys s k := by
  induction xs generalizing s with
  | nil => rfl
  | cons x xs ih =>
      rw [List.cons_append, placeAll, placeAll]
      congr 1
      funext s
      exact ih

theorem list_places {x lc : Int} {neg iflag : Bool} (h : placed inp ⟨.list x lc neg iflag, s⟩ ≠ []) :
    list inp x lc neg iflag s = widen inp (x % 256) iflag s fun iflag' t =>
      placeAll inp (placed inp ⟨.list x lc neg iflag, s⟩) t (goto (.listNext (x % 256) neg iflag')) := by
  simp only [placed] at h ⊢
  split at h
  next => exact absurd rfl h
  next hne =>
    obtain ⟨hzero, hnl, hdash⟩ := not_or.mp hne |>.imp_right not_or.mp
    simp only [list, hzero, hnl, hdash, or_self, if_false, placeAll]

theorem rangeEnd_places {x lc : Int} {neg iflag : Bool} (hx : charAt inp s.sp = some x) (hne : x ≠ ch ']') :
    rangeEnd inp lc neg iflag s = widen inp x iflag (readOne s) fun iflag' t =>
      placeAll inp (placed inp ⟨.rangeEnd lc neg iflag, s⟩) t (goto (.listNext x neg iflag')) := by
  simp only [placed, hx, hne, if_false, rangeEnd, getc_eq hx, placeFrom_eq_placeAll, placeAll_append, placeAll]

end Places

/-- The next range ends in a negative character, and there is room for the
map it needs. -/
def LowEnd (inp : Input) (c : Cfg) : Prop :=
  ∃ lc neg iflag x, c.label = .rangeEnd lc neg iflag ∧ charAt inp c.state.sp = some x ∧ x < 0 ∧
    (iflag = false ∨ c.state.ep + 32 < inp.endbuf)

theorem not_inside_of_lowEnd {c : Cfg} (h : LowEnd inp c) : ¬ Inside inp c := by
  obtain ⟨lc, neg, iflag, x, hl, hx, hneg, hroom⟩ := h
  have hne : x ≠ ch ']' := by
    rintro rfl
    exact absurd hneg (by decide)
  have hmem : x ∈ placed inp c := by
    simp only [placed, hl, hx, hne, if_false]
    exact List.mem_append_right _ (List.mem_singleton.mpr rfl)
  have hmap : ∃ n, mapOf inp c = some n := by
    simp only [mapOf, hl, hx, hne, if_false, mapFor]
    rcases hroom with rfl | hroom
    · exact ⟨32, by rw [Bool.and_false]; rfl⟩
    · split
      next => exact ⟨32, rfl⟩
      next => exact ⟨_, rfl⟩
  obtain ⟨n, hn⟩ := hmap
  intro hinside
  obtain ⟨hlow, -⟩ := hinside n hn x hmem
  omega

theorem wide_mod (x : Int) : wide (x % 256) = wide x := by
  rw [wide, wide, Int.emod_emod]

theorem mapFor_lt {x : Int} {iflag : Bool} {n : Nat} (hx : x < 256) (hpos : 0 ≤ x) (h : mapFor inp x iflag s = some n) :
    x / 8 < n := by
  unfold mapFor wide mapSize at h
  split at h
  next =>
    split at h
    next =>
      cases h
      omega
    next => cases h
  next hw =>
    cases iflag with
    | true =>
        simp only [Bool.and_true, decide_eq_true_eq] at hw
        cases h
        simp only [if_true]
        omega
    | false =>
        cases h
        simp only [Bool.false_eq_true, if_false]
        omega

theorem inside_of_not_lowEnd {c : Cfg} (hlc : 0 ≤ lastChar c.label) (h : ¬ LowEnd inp c) : Inside inp c := by
  obtain ⟨l, s⟩ := c
  intro n hn x hx
  cases l with
  | list y lc neg iflag =>
      simp only [placed] at hx
      split at hx
      next => cases hx
      next =>
        obtain rfl := List.mem_singleton.mp hx
        have hmap : mapFor inp (y % 256) iflag s = some n := by
          rw [mapFor, wide_mod]
          exact hn
        exact ⟨by omega, mapFor_lt (by omega) (by omega) hmap⟩
  | rangeEnd lc neg iflag =>
      simp only [placed, mapOf] at hx hn
      cases hy : charAt inp s.sp with
      | none =>
          rw [hy] at hn
          cases hn
      | some y =>
          rw [hy] at hx hn
          simp only at hx hn
          have hrange := charAt_range hy
          split at hx
          next hclose =>
            rw [if_pos hclose] at hn
            obtain rfl := List.mem_singleton.mp hx
            cases hn
            cases iflag <;> decide
          next hclose =>
            rw [if_neg hclose] at hn
            have hpos : 0 ≤ y := by
              by_contra hneg
              refine h ⟨lc, neg, iflag, y, rfl, hy, by omega, ?_⟩
              cases iflag with
              | false => exact .inl rfl
              | true =>
                  have hwide : wide y = true := by
                    simp only [wide, decide_eq_true_eq]
                    omega
                  simp only [mapFor, hwide, Bool.and_true, if_true] at hn
                  split at hn
                  next hroom => exact .inr hroom
                  next => cases hn
            have hlast := mapFor_lt hrange.2 hpos hn
            simp only [lastChar] at hlc
            rw [List.mem_append, List.mem_map, List.mem_singleton] at hx
            rcases hx with ⟨i, hi, rfl⟩ | rfl
            · rw [List.mem_range] at hi
              omega
            · omega
  | _ => cases hn

/-- The last character of a bracket list is only negative after a `LowEnd`. -/
theorem next_lastChar {c d : Cfg} (hnext : next inp c = some d) (hlc : 0 ≤ lastChar c.label) (h : ¬ LowEnd inp c) :
    0 ≤ lastChar d.label := by
  cases next_step hnext with
  | dash | more => exact hlc
  | member => exact Int.emod_nonneg _ (by decide)
  | @range x lc neg iflag iflag' s t hx _ _ _ hlists =>
      by_contra hneg
      simp only [lastChar] at hneg
      have hrange := charAt_range hx
      refine h ⟨lc, neg, iflag, x, rfl, hx, by omega, ?_⟩
      cases iflag with
      | false => exact .inl rfl
      | true =>
          have hwide : wide x = true := by
            simp only [wide, decide_eq_true_eq]
            omega
          exact .inr (hlists.room (by rw [hlists.widens, hwide]; rfl) rfl)
  | escape _ hl =>
      rcases hl with ⟨-, rfl⟩ | ⟨-, rfl⟩ | ⟨-, rfl⟩ | ⟨-, y, rfl⟩ | ⟨-, -, rfl⟩ <;> exact le_rfl
  | _ => exact le_rfl

theorem reaches_inside {mem : Nat → Byte} (h : ∀ c, Reaches (next inp) (compile mem) c → ¬ LowEnd inp c) {c : Cfg}
    (hc : Reaches (next inp) (compile mem) c) : Inside inp c := by
  have hlc : 0 ≤ lastChar c.label :=
    reaches_invariant_of_reaches (P := fun c => 0 ≤ lastChar c.label)
      (fun a b ha hlc hab => next_lastChar hab hlc (h a ha)) hc le_rfl
  exact inside_of_not_lowEnd hlc (h c hc)

theorem not_lowEnd_unsigned (c : Cfg) : ¬ LowEnd (unsigned inp) c := by
  rintro ⟨lc, neg, iflag, x, -, hx, hneg, -⟩
  obtain ⟨b, -, rfl⟩ := Option.map_eq_some_iff.mp hx
  simp only [Input.char, unsigned, Bool.false_eq_true, if_false] at hneg
  omega

section Agreement

inductive Same : Label → Label → Prop
  | refl (l : Label) : Same l l
  | defchar (b : Byte) : Same (.defchar b.toInt) (.defchar b.toNat)
  | list (b : Byte) (lc : Int) (neg iflag : Bool) : Same (.list b.toInt lc neg iflag) (.list b.toNat lc neg iflag)
  | digits (b : Byte) (i : Int) (cflg : Nat) : Same (.digits b.toInt i cflg) (.digits b.toNat i cflg)

structure Agree (c d : Cfg) : Prop where
  label : Same c.label d.label
  state : c.state = d.state

theorem Agree.refl (c : Cfg) : Agree c c := ⟨.refl c.label, rfl⟩

theorem agree_ite {p q : Prop} [Decidable p] [Decidable q] {c c' d d' : Cfg} (h : p ↔ q) (hc : p → Agree c c')
    (hd : ¬ p → Agree d d') : Agree (if p then c else d) (if q then c' else d') := by
  by_cases hp : p
  · rw [if_pos hp, if_pos (h.mp hp)]
    exact hc hp
  · rw [if_neg hp, if_neg (h.not.mp hp)]
    exact hd hp

theorem toInt_cases (b : Byte) : b.toInt = b.toNat ∧ b.toNat < 128 ∨ b.toInt = b.toNat - 256 ∧ 128 ≤ b.toNat := by
  have := b.isLt
  rw [BitVec.toInt_eq_toNat_cond]
  split <;> omega

theorem toInt_mod (b : Byte) : b.toInt % 256 = (b.toNat : Int) % 256 := by
  have := toInt_cases b
  omega

theorem toInt_eq_iff (b : Byte) {x : Int} (hx : 0 ≤ x ∧ x < 128) : b.toInt = x ↔ (b.toNat : Int) = x := by
  have := toInt_cases b
  have := b.isLt
  omega

variable {k k' : State → Cfg} {f f' : Int → State → Cfg} {g g' : Int → Cfg}

theorem getc_agree (h : ∀ b, inp.pattern[s.sp]? = some b → Agree (f b.toInt (readOne s)) (f' b.toNat (readOne s))) :
    Agree (getc (signed inp) s f) (getc (unsigned inp) s f') := by
  cases hb : inp.pattern[s.sp]? with
  | none =>
      simp only [getc, signed, unsigned, hb]
      exact .refl _
  | some b =>
      simp only [getc, signed, unsigned, hb]
      exact h b hb

theorem peekc_agree (h : ∀ b : Byte, Agree (g b.toInt) (g' b.toNat)) :
    Agree (peekc (signed inp) s g) (peekc (unsigned inp) s g') := by
  cases hb : inp.pattern[s.sp]? with
  | none =>
      simp only [peekc, signed, unsigned, hb]
      exact .refl _
  | some b =>
      simp only [peekc, signed, unsigned, hb]
      exact h b

theorem store_agree {addr : Nat} {b : Byte} (h : ∀ t, Agree (k t) (k' t)) :
    Agree (store (signed inp) addr b s k) (store (unsigned inp) addr b s k') :=
  agree_ite Iff.rfl (fun _ => h _) fun _ => .refl _

theorem storeAll_agree {addr n : Nat} {f : Nat → Byte → Byte} (h : ∀ t, Agree (k t) (k' t)) :
    Agree (storeAll (signed inp) addr n f s k) (storeAll (unsigned inp) addr n f s k') :=
  agree_ite Iff.rfl (fun _ => h _) fun _ => .refl _

theorem emit_agree {b : Byte} (h : ∀ t, Agree (k t) (k' t)) :
    Agree (emit (signed inp) b s k) (emit (unsigned inp) b s k') := store_agree fun _ => h _

theorem place_agree {x : Int} (h : ∀ t, Agree (k t) (k' t)) :
    Agree (place (signed inp) x s k) (place (unsigned inp) x s k') :=
  agree_ite Iff.rfl (fun _ => .refl _) fun _ => store_agree h

theorem placeFrom_agree {n : Nat} {lc : Int} (h : ∀ t, Agree (k t) (k' t)) :
    Agree (placeFrom (signed inp) n lc s k) (placeFrom (unsigned inp) n lc s k') := by
  induction n generalizing lc s with
  | zero => exact h s
  | succ n ih => exact place_agree fun _ => ih

theorem widen_agree {x x' : Int} {iflag : Bool} {k k' : Bool → State → Cfg} (hx : x % 256 = x' % 256)
    (h : ∀ iflag t, Agree (k iflag t) (k' iflag t)) :
    Agree (widen (signed inp) x iflag s k) (widen (unsigned inp) x' iflag s k') := by
  refine agree_ite (by rw [hx]) (fun _ => ?_) fun _ => h _ _
  refine agree_ite Iff.rfl (fun _ => .refl _) fun _ => ?_
  exact store_agree fun _ => storeAll_agree (h false)

theorem close_agree {neg iflag : Bool} : Agree (close (signed inp) neg iflag s) (close (unsigned inp) neg iflag s) := by
  refine agree_ite Iff.rfl (fun _ => ?_) fun _ => .refl _
  refine agree_ite Iff.rfl (fun _ => ?_) fun _ => ?_
  · exact store_agree fun _ => store_agree fun _ => .refl _
  · exact storeAll_agree fun _ => store_agree fun _ => .refl _

theorem finish_agree : Agree (finish (signed inp) s) (finish (unsigned inp) s) := emit_agree fun _ => .refl _

theorem defchar_agree {x x' : Int} (h : toChar x = toChar x') :
    Agree (defchar (signed inp) x s) (defchar (unsigned inp) x' s) := by
  unfold defchar
  rw [h]
  exact emit_agree fun _ => emit_agree fun _ => .refl _

theorem toChar_toInt (b : Byte) : toChar b.toInt = toChar b.toNat := by
  rw [toChar, toChar, BitVec.ofInt_toInt, BitVec.ofInt_natCast, BitVec.ofNat_toNat, BitVec.setWidth_eq]

theorem entry_agree (heof : 0 ≤ inp.eof ∧ inp.eof < 128) : Agree (entry (signed inp) s) (entry (unsigned inp) s) := by
  apply getc_agree
  intro b _
  have hnl := toInt_eq_iff b (show 0 ≤ ch '\n' ∧ ch '\n' < 128 by decide)
  have hcirc := toInt_eq_iff b (show 0 ≤ ch '^' ∧ ch '^' < 128 by decide)
  refine agree_ite (or_congr (toInt_eq_iff b heof) hnl) (fun _ => ?_) fun _ => ?_
  · simp only [hnl]
    exact .refl _
  · simp only [hcirc]
    exact .refl _

theorem nextChar_agree (h : ∀ (b : Byte) t, Agree (f b.toInt t) (f' b.toNat t)) :
    Agree (nextChar (signed inp) s f) (nextChar (unsigned inp) s f') := by
  apply getc_agree
  intro b _
  refine agree_ite (toInt_eq_iff b (by decide)) (fun _ => h b _) fun _ => ?_
  refine agree_ite (toInt_eq_iff b (by decide)) (fun _ => ?_) fun _ => h b _
  apply peekc_agree
  intro b'
  simp only [toInt_eq_iff b' (show 0 ≤ ch '{' ∧ ch '{' < 128 by decide)]
  exact h b _

theorem loop_agree (heof : 0 ≤ inp.eof ∧ inp.eof < 128) : Agree (loop (signed inp) s) (loop (unsigned inp) s) := by
  refine agree_ite Iff.rfl (fun _ => .refl _) fun _ => ?_
  apply nextChar_agree
  intro b t
  have hdef : Agree (goto (.defchar b.toInt) t) (goto (.defchar b.toNat) t) := ⟨.defchar b, rfl⟩
  refine agree_ite (toInt_eq_iff b heof) (fun _ => finish_agree) fun _ => ?_
  refine agree_ite (toInt_eq_iff b (by decide)) (fun _ => emit_agree fun _ => .refl _) fun _ => ?_
  refine agree_ite (toInt_eq_iff b (by decide)) (fun _ => ?newline) fun _ => ?_
  case newline => exact agree_ite Iff.rfl (fun _ => .refl _) fun _ => finish_agree
  refine agree_ite (toInt_eq_iff b (by decide)) (fun _ => ?star) fun _ => ?_
  case star =>
    cases t.lastep with
    | none => exact hdef
    | some last => exact agree_ite Iff.rfl (fun _ => hdef) fun _ => store_agree fun _ => .refl _
  refine agree_ite (toInt_eq_iff b (by decide)) (fun _ => ?dollar) fun _ => ?_
  case dollar =>
    apply peekc_agree
    intro b'
    have hmore := and_congr (toInt_eq_iff b' heof).not (toInt_eq_iff b' (show 0 ≤ ch '\n' ∧ ch '\n' < 128 by decide)).not
    exact agree_ite hmore (fun _ => hdef) fun _ => emit_agree fun _ => .refl _
  refine agree_ite (toInt_eq_iff b (by decide)) (fun _ => ?bracket) fun _ => ?_
  case bracket =>
    refine agree_ite Iff.rfl (fun _ => .refl _) fun _ => ?_
    exact emit_agree fun _ => storeAll_agree fun _ => .refl _
  exact agree_ite (toInt_eq_iff b (by decide)) (fun _ => .refl _) fun _ => hdef

theorem listOpen_agree : Agree (listOpen (signed inp) s) (listOpen (unsigned inp) s) := by
  apply getc_agree
  intro b _
  refine agree_ite (toInt_eq_iff b (by decide)) (fun _ => ?_) fun _ => ⟨.list b _ _ _, rfl⟩
  exact getc_agree fun b' _ => ⟨.list b' _ _ _, rfl⟩

theorem list_agree {x x' lc : Int} {neg iflag : Bool} (hx : x % 256 = x' % 256) :
    Agree (list (signed inp) x lc neg iflag s) (list (unsigned inp) x' lc neg iflag s) := by
  unfold list
  simp only [hx]
  refine agree_ite Iff.rfl (fun _ => .refl _) fun _ => widen_agree rfl fun iflag t => ?_
  exact agree_ite Iff.rfl (fun _ => .refl _) fun _ => place_agree fun _ => .refl _

theorem rangeEnd_agree {lc : Int} {neg iflag : Bool} (h : ¬ LowEnd (signed inp) ⟨.rangeEnd lc neg iflag, s⟩) :
    Agree (rangeEnd (signed inp) lc neg iflag s) (rangeEnd (unsigned inp) lc neg iflag s) := by
  apply getc_agree
  intro b hb
  refine agree_ite (toInt_eq_iff b (by decide)) (fun _ => place_agree fun _ => close_agree) fun _ => ?_
  rcases toInt_cases b with ⟨hpos, -⟩ | ⟨hneg, hle⟩
  · rw [hpos]
    exact widen_agree rfl fun _ _ => placeFrom_agree fun _ => place_agree fun _ => .refl _
  -- a negative end is only read when the long map does not fit
  · have hlt := b.isLt
    have hfull : iflag = true ∧ inp.endbuf ≤ s.ep + 32 := by
      by_contra hroom
      refine h ⟨lc, neg, iflag, b.toInt, rfl, congrArg (Option.map _) hb, by omega, ?_⟩
      cases iflag with
      | false => exact .inl rfl
      | true => exact .inr (Nat.lt_of_not_le fun hle => hroom ⟨rfl, hle⟩)
    have hwide : 128 ≤ b.toInt % 256 ∧ iflag = true := ⟨by omega, hfull.1⟩
    have hwide' : 128 ≤ (b.toNat : Int) % 256 ∧ iflag = true := ⟨by omega, hfull.1⟩
    unfold widen
    rw [if_pos hwide, if_pos hwide']
    exact agree_ite Iff.rfl (fun _ => .refl _) fun hroom => absurd hfull.2 hroom

theorem listNext_agree {lc : Int} {neg iflag : Bool} :
    Agree (listNext (signed inp) lc neg iflag s) (listNext (unsigned inp) lc neg iflag s) := by
  apply getc_agree
  intro b _
  exact agree_ite (toInt_eq_iff b (by decide)) (fun _ => close_agree) fun _ => ⟨.list b _ _ _, rfl⟩

theorem escape_agree : Agree (escape (signed inp) s) (escape (unsigned inp) s) := by
  apply getc_agree
  intro b _
  have hcases := toInt_cases b
  refine agree_ite (toInt_eq_iff b (by decide)) (fun _ => .refl _) fun _ => ?_
  refine agree_ite (toInt_eq_iff b (by decide)) (fun _ => .refl _) fun _ => ?_
  refine agree_ite (toInt_eq_iff b (by decide)) (fun _ => .refl _) fun _ => ?_
  refine agree_ite (toInt_eq_iff b (by decide)) (fun _ => .refl _) fun _ => ?_
  refine agree_ite (toInt_eq_iff b (by decide)) (fun _ => .refl _) fun _ => ?_
  refine agree_ite ?digit (fun hdigit => ?_) fun _ => ⟨.defchar b, rfl⟩
  case digit =>
    simp only [ch, Char.reduceToNat]
    omega
  have hpos : b.toInt = b.toNat := by
    simp only [ch, Char.reduceToNat] at hdigit
    omega
  rw [hpos]
  exact .refl _

theorem digits_agree {x x' i : Int} {cflg : Nat} (hx : ch '0' ≤ x ∧ x ≤ ch '9' ↔ ch '0' ≤ x' ∧ x' ≤ ch '9')
    (heq : ch '0' ≤ x ∧ x ≤ ch '9' → x = x') :
    Agree (digits (signed inp) x i cflg s) (digits (unsigned inp) x' i cflg s) := by
  refine agree_ite hx (fun hdigit => ?_) fun _ => .refl _
  rw [heq hdigit]
  apply getc_agree
  intro b _
  have hback := toInt_eq_iff b (show 0 ≤ ch '\\' ∧ ch '\\' < 128 by decide)
  have hcomma := toInt_eq_iff b (show 0 ≤ ch ',' ∧ ch ',' < 128 by decide)
  refine agree_ite (and_congr hback.not hcomma.not) (fun _ => ⟨.digits b _ _, rfl⟩) fun hend => ?_
  have hpos : b.toInt = b.toNat := by
    rcases toInt_cases b with ⟨h, -⟩ | ⟨h, hle⟩
    · exact h
    · have hlt := b.isLt
      simp only [ch, Char.reduceToNat] at hend
      omega
  rw [hpos]
  exact .refl _

theorem limit_agree {x i : Int} {cflg : Nat} : Agree (limit (signed inp) x i cflg s) (limit (unsigned inp) x i cflg s) :=
  agree_ite Iff.rfl (fun _ => .refl _) fun _ => emit_agree fun _ => .refl _

theorem upper_agree {i : Int} : Agree (upper (signed inp) i s) (upper (unsigned inp) i s) := by
  apply getc_agree
  intro b _
  exact agree_ite (toInt_eq_iff b (by decide)) (fun _ => emit_agree fun _ => .refl _) fun _ => .refl _

theorem closeBrace_agree {i : Int} {cflg : Nat} :
    Agree (closeBrace (signed inp) i cflg s) (closeBrace (unsigned inp) i cflg s) := by
  apply getc_agree
  intro b _
  refine agree_ite (toInt_eq_iff b (by decide)).not (fun _ => .refl _) fun _ => ?_
  exact agree_ite Iff.rfl (fun _ => emit_agree fun _ => .refl _) fun _ => .refl _

theorem ket_agree : Agree (ket (signed inp) s) (ket (unsigned inp) s) := by
  unfold ket
  cases s.bracket with
  | nil => exact .refl _
  | cons n bracket => exact emit_agree fun _ => emit_agree fun _ => .refl _

theorem interval_agree : Agree (interval (signed inp) s) (interval (unsigned inp) s) := by
  unfold interval
  cases s.lastep with
  | none => exact .refl _
  | some last => exact store_agree fun _ => .refl _

/-- The two kinds of `GETC` take the same step unless a range ends low. -/
theorem next_agree (heof : 0 ≤ inp.eof ∧ inp.eof < 128) {c d : Cfg} (h : Agree c d) (hlow : ¬ LowEnd (signed inp) c) :
    Option.Rel Agree (next (signed inp) c) (next (unsigned inp) d) := by
  obtain ⟨l, s⟩ := c
  obtain ⟨l', s'⟩ := d
  obtain ⟨hl, rfl⟩ : Same l l' ∧ s = s' := ⟨h.label, h.state⟩
  cases hl with
  | defchar b => exact .some (defchar_agree (toChar_toInt b))
  | list b => exact .some (list_agree (toInt_mod b))
  | digits b =>
      have := toInt_cases b
      have := b.isLt
      refine .some (digits_agree ?_ ?_)
      · simp only [ch, Char.reduceToNat]
        omega
      · simp only [ch, Char.reduceToNat]
        omega
  | refl =>
      cases l with
      | entry => exact .some (entry_agree heof)
      | loop => exact .some (loop_agree heof)
      | defchar => exact .some (defchar_agree rfl)
      | listOpen => exact .some listOpen_agree
      | list => exact .some (list_agree rfl)
      | rangeEnd => exact .some (rangeEnd_agree hlow)
      | listNext => exact .some listNext_agree
      | escape => exact .some escape_agree
      | bra => exact .some (agree_ite Iff.rfl (fun _ => .refl _) fun _ => emit_agree fun _ => emit_agree fun _ => .refl _)
      | ket => exact .some ket_agree
      | back => exact .some (agree_ite Iff.rfl (fun _ => .refl _) fun _ => emit_agree fun _ => emit_agree fun _ => .refl _)
      | interval => exact .some interval_agree
      | nlim => exact .some (getc_agree fun b _ => ⟨.digits b _ _, rfl⟩)
      | digits => exact .some (digits_agree Iff.rfl fun _ => rfl)
      | limit => exact .some limit_agree
      | upper => exact .some upper_agree
      | closeBrace => exact .some closeBrace_agree
      | returned | error | overrun | underrun | overread => exact .none

end Agreement

/-- How `compile` ended, with the program if it returned one. -/
def outcome (c : Cfg) : Label × List Byte := (c.label, if c.label = .returned then c.program else [])

/-- `compile` does not depend on how `GETC` reads a byte, and every `PLACE` is
inside the map either way. -/
structure Independent (inp : Input) (mem : Nat → Byte) : Prop where
  same : ∃ c ∈ eval (next (signed inp)) (compile mem), ∃ d ∈ eval (next (unsigned inp)) (compile mem),
    outcome c = outcome d
  signed : ∀ c, Reaches (next (signed inp)) (compile mem) c → Inside (signed inp) c
  unsigned : ∀ c, Reaches (next (unsigned inp)) (compile mem) c → Inside (unsigned inp) c

theorem Same.eq_of_halted {l l' : Label} (h : Same l l') (hl : rank l = 0) : l = l' := by
  cases h with
  | refl => rfl
  | defchar | list | digits => cases hl

theorem rank_of_halted {c : Cfg} (h : next inp c = none) : rank c.label = 0 := by
  obtain ⟨l, s⟩ := c
  cases l <;> simp [next, rank] at h ⊢

theorem halted_of_rank {c : Cfg} (h : rank c.label = 0) : next inp c = none := by
  cases hc : next inp c with
  | none => rfl
  | some d => exact absurd (rank_pos hc) (by omega)

theorem independent_iff (inp : Input) (mem : Nat → Byte) (heof : 0 ≤ inp.eof ∧ inp.eof < 128) :
    Independent inp mem ↔ ∀ c, Reaches (next (signed inp)) (compile mem) c → ¬ LowEnd (signed inp) c := by
  constructor
  · intro h c hc hlow
    exact not_inside_of_lowEnd hlow (h.signed c hc)
  · intro h
    obtain ⟨c, hc, hhalt⟩ := dom_iff.mp (compile_halts (signed inp) mem)
    obtain ⟨d, hd, hagree⟩ := reaches_lockstep (g := next (unsigned inp))
      (fun b b' hb hagree => next_agree heof hagree (h b hb)) (Agree.refl (compile mem)) hc
    have hrank := rank_of_halted hhalt
    have hlabel : c.label = d.label := hagree.label.eq_of_halted hrank
    have hhalt' : next (unsigned inp) d = none := halted_of_rank (hlabel ▸ hrank)
    refine ⟨⟨c, mem_eval.mpr ⟨hc, hhalt⟩, d, mem_eval.mpr ⟨hd, hhalt'⟩, ?_⟩, ?_, ?_⟩
    · rw [outcome, outcome, Cfg.program, Cfg.program, hlabel, hagree.state]
    · exact fun c => reaches_inside h
    · exact fun c => reaches_inside fun d _ => not_lowEnd_unsigned d

def lowRange : Input := ⟨[91#8, 97#8, 45#8, 122#8, 93#8, 0#8], false, 0, 64, false⟩

theorem independent_lowRange : Independent lowRange fun _ => 0#8 := by
  refine (independent_iff lowRange _ (by decide)).mpr fun c _ hlow => ?_
  obtain ⟨lc, neg, iflag, x, -, hx, hneg, -⟩ := hlow
  obtain ⟨b, hb, rfl⟩ := Option.map_eq_some_iff.mp hx
  have hall : ∀ b ∈ lowRange.pattern, ¬ (signed lowRange).char b < 0 := by decide
  exact hall b (List.mem_of_getElem? hb) hneg

def highRange : Input := ⟨[91#8, 97#8, 45#8, 255#8, 93#8, 0#8], false, 0, 64, false⟩

/-- The sign-extending run sets a bit of the opcode in front of the map. -/
theorem highRange_differs :
    (∃ c ∈ eval (next (signed highRange)) (compile fun _ => 0#8),
      ∃ d ∈ eval (next (unsigned highRange)) (compile fun _ => 0#8),
        c.label = .returned ∧ d.label = .returned ∧ c.program ≠ d.program) ∧
      ∃ c, Reaches (next (signed highRange)) (compile fun _ => 0#8) c ∧ placed (signed highRange) c = [-1] := by
  refine ⟨⟨steps (next (signed highRange)) 9 (compile fun _ => 0#8), ?_,
    steps (next (unsigned highRange)) 9 (compile fun _ => 0#8), ?_, ?_⟩,
    steps (next (signed highRange)) 6 (compile fun _ => 0#8), reaches_steps _ _ _, ?_⟩
  · exact mem_eval.mpr ⟨reaches_steps _ _ _, halted_of_rank (by decide +kernel)⟩
  · exact mem_eval.mpr ⟨reaches_steps _ _ _, halted_of_rank (by decide +kernel)⟩
  · decide +kernel
  · decide +kernel

end SysvDev.Regexp.Signedness
