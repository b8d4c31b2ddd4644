import SysvDev.Regexp.Room
import SysvDev.Regexp.Advance

namespace SysvDev.Regexp.Reads

open StateTransition Transition Opcode Compile Moves Inversion Halt Room
open Advance (Subject)

variable {str : Subject} {signedChar sed : Bool} {endbuf : Nat}

/-- A string compiled up to its NUL, as `GETC` walks over it. -/
def terminated (str : Subject) (signedChar : Bool) (endbuf : Nat) (sed : Bool) : Input :=
  ⟨str.chars ++ [0#8], signedChar, 0, endbuf, sed⟩

/-- The end of a range in a bracket list is not the NUL, and the character
after a backslash is only where the buffer is full behind it. -/
structure Sees (inp : Input) (c : Cfg) : Prop where
  range : ∀ lc neg iflag, c.label = .rangeEnd lc neg iflag → charAt inp c.state.sp ≠ some 0
  escape : c.label = .escape → charAt inp c.state.sp = some 0 → inp.endbuf ≤ c.state.ep + 2

def ends (inp : Input) : Label → State → Prop
  | .list x _ _ _, _ | .digits x _ _, _ => x = 0
  | .defchar _, s => inp.endbuf ≤ s.ep + 2
  | .loop, s => inp.endbuf ≤ s.ep
  | .returned, _ | .error _, _ | .overrun _, _ | .underrun _, _ => True
  | _, _ => False

def Within (str : Subject) (inp : Input) (c : Cfg) : Prop :=
  c.label ≠ .overread ∧ (c.state.sp ≤ str.chars.length ∨ ends inp c.label c.state)

theorem charAt_ne_none {i : Nat} (h : i ≤ str.chars.length) :
    charAt (terminated str signedChar endbuf sed) i ≠ none := by
  have hlt : i < (str.chars ++ [0#8]).length := by simpa using Nat.lt_succ_of_le h
  simp [charAt, terminated, List.getElem?_eq_getElem hlt]

theorem le_of_charAt {i : Nat} {x : Int} (h : charAt (terminated str signedChar endbuf sed) i = some x) :
    i ≤ str.chars.length := by
  have hlt := sp_lt h
  simp only [terminated, List.length_append, List.length_singleton] at hlt
  omega

theorem char_eq_zero {inp : Input} {b : Byte} (h : inp.char b = 0) : b = 0#8 := by
  unfold Input.char at h
  split at h
  · exact BitVec.eq_of_toInt_eq h
  · exact BitVec.eq_of_toNat_eq (by simpa using h)

/-- Only the NUL is 0. -/
theorem lt_of_charAt {i : Nat} {x : Int} (h : charAt (terminated str signedChar endbuf sed) i = some x)
    (hx : x ≠ 0) : i + 1 ≤ str.chars.length := by
  refine Nat.lt_of_le_of_ne (le_of_charAt h) fun hi => hx ?_
  subst hi
  obtain ⟨b, hb, rfl⟩ := Option.map_eq_some_iff.mp h
  have hb0 : b = 0#8 := by
    simpa [terminated] using hb.symm
  rw [hb0]
  cases signedChar <;> rfl

theorem eq_of_charAt_zero {i : Nat} (h : charAt (terminated str signedChar endbuf sed) i = some 0) :
    i = str.chars.length := by
  refine Nat.le_antisymm (le_of_charAt h) (Nat.le_of_not_lt fun hlt => ?_)
  obtain ⟨b, hb, hzero⟩ := Option.map_eq_some_iff.mp h
  have hmem : b ∈ str.chars := by
    have hb' : str.chars[i]? = some b := by
      rw [← hb]
      exact (List.getElem?_append_left hlt).symm
    exact List.mem_of_getElem? hb'
  exact str.nonul b hmem (char_eq_zero hzero)

theorem not_runsOut {s : State} (h : s.sp ≤ str.chars.length) :
    ¬ RunsOut (terminated str signedChar endbuf sed) s := by
  rintro (hnone | ⟨x, hx, hch, hnone⟩)
  · exact charAt_ne_none h hnone
  · have hne : x ≠ 0 := by
      rintro rfl
      revert hch
      decide
    exact charAt_ne_none (lt_of_charAt hx hne) hnone

theorem within_read {l : Label} {s t : State} {x : Int}
    (hx : charAt (terminated str signedChar endbuf sed) s.sp = some x) (hne : x ≠ 0) (ht : t.sp = s.sp + 1)
    (hl : l ≠ .overread) : Within str (terminated str signedChar endbuf sed) ⟨l, t⟩ := by
  refine ⟨hl, .inl ?_⟩
  rw [ht]
  exact lt_of_charAt hx hne

theorem within_ends {l : Label} {inp : Input} {t : State} (h : ends inp l t) : Within str inp ⟨l, t⟩ := by
  refine ⟨?_, .inr h⟩
  rintro rfl
  exact h

theorem within_char {l : Label} {s t : State} {x : Int}
    (hx : charAt (terminated str signedChar endbuf sed) s.sp = some x) (ht : t.sp = s.sp + 1)
    (hl : l ≠ .overread) (hend : x = 0 → ends (terminated str signedChar endbuf sed) l t) :
    Within str (terminated str signedChar endbuf sed) ⟨l, t⟩ := by
  by_cases h0 : x = 0
  · exact within_ends (hend h0)
  · exact within_read hx h0 ht hl

theorem within_same {l l' : Label} {inp : Input} {s t : State} (h : Within str inp ⟨l, s⟩)
    (hno : ¬ ends inp l s) (ht : t.sp = s.sp) (hl : l' ≠ .overread) : Within str inp ⟨l', t⟩ :=
  ⟨hl, .inl (ht ▸ h.2.resolve_right hno)⟩

theorem not_ends_of_reads {l : Label} {inp : Input} {s : State} (h : readsPattern inp l s) : ¬ ends inp l s := by
  intro hend
  cases l with
  | loop => exact absurd h (Nat.not_lt.mpr hend)
  | digits x i cflg =>
      obtain rfl : x = 0 := hend
      exact absurd h.1 (by decide)
  | list | defchar | returned | error | overrun | underrun => exact h
  | _ => exact hend

theorem step_within {c d : Cfg} (h : Within str (terminated str signedChar endbuf sed) c)
    (hsees : Sees (terminated str signedChar endbuf sed) c)
    (hnext : next (terminated str signedChar endbuf sed) c = some d) :
    Within str (terminated str signedChar endbuf sed) d := by
  cases next_step hnext with
  | error | overrunPair | overrunCount | overrunLast | overrunList | underrun | empty | finish =>
      exact within_ends trivial
  | overread hl hrun => exact absurd hrun (not_runsOut (h.2.resolve_right (not_ends_of_reads hl)))
  | start hx hne _ hsp =>
      rcases hsp with ⟨-, hsp⟩ | hsp
      · exact within_read hx hne.1 hsp (by rintro ⟨⟩)
      · exact within_same h id hsp (by rintro ⟨⟩)
  | dot hx => exact within_read hx (by decide) (taken_sp _ _) (by rintro ⟨⟩)
  | dol hx => exact within_read hx (by decide) (taken_sp _ _) (by rintro ⟨⟩)
  | star hx => exact within_read hx (by decide) rfl (by rintro ⟨⟩)
  | plain hx _ hne => exact within_read hx hne.1 (taken_sp _ _) (by rintro ⟨⟩)
  | backslash hx => exact within_read hx (by decide) (taken_sp _ _) (by rintro ⟨⟩)
  | opening hx _ ht =>
      refine within_read hx (by decide) ?_ (by rintro ⟨⟩)
      rw [ht]
      exact taken_sp _ _
  | defchar =>
      rcases h.2 with hle | hend
      · exact ⟨by rintro ⟨⟩, .inl hle⟩
      · exact within_ends hend
  | first hx => exact within_char hx rfl (by rintro ⟨⟩) id
  | complement h hx => exact within_char (s := readOne _) hx rfl (by rintro ⟨⟩) id
  | dash hx =>
      refine within_same h ?_ rfl (by rintro ⟨⟩)
      rintro rfl
      exact absurd hx (by decide)
  | member hx hsp =>
      refine within_same h ?_ hsp (by rintro ⟨⟩)
      rintro rfl
      exact hx rfl
  | range hx _ hsp =>
      refine within_read hx ?_ hsp (by rintro ⟨⟩)
      rintro rfl
      exact hsees.range _ _ _ rfl hx
  | rangeClose hx hc | listClose hx hc => exact within_read hx (by decide) (by rw [hc.rest]) (by rintro ⟨⟩)
  | more hx => exact within_char hx rfl (by rintro ⟨⟩) id
  | escape hx hl =>
      rcases hl with ⟨rfl, rfl⟩ | ⟨rfl, rfl⟩ | ⟨rfl, rfl⟩ | ⟨-, y, rfl⟩ | ⟨hle, -, rfl⟩
      · exact within_read hx (by decide) rfl (by rintro ⟨⟩)
      · exact within_read hx (by decide) rfl (by rintro ⟨⟩)
      · exact within_read hx (by decide) rfl (by rintro ⟨⟩)
      · refine within_char hx rfl (by rintro ⟨⟩) ?_
        rintro rfl
        exact hsees.escape rfl hx
      · refine within_read hx ?_ rfl (by rintro ⟨⟩)
        rintro rfl
        exact absurd hle (by decide)
  | bra | ket | back | brace | interval | comma | counted | second => exact within_same h id rfl (by rintro ⟨⟩)
  | nlim hx => exact within_char hx rfl (by rintro ⟨⟩) id
  | digit _ hy => exact within_char hy rfl (by rintro ⟨⟩) id
  | number _ hy hor =>
      refine within_read hy ?_ rfl (by rintro ⟨⟩)
      rintro rfl
      revert hor
      decide
  | unbounded hx => exact within_read hx (by decide) rfl (by rintro ⟨⟩)
  | once hx => exact within_read hx (by decide) rfl (by rintro ⟨⟩)
  | ordered hx => exact within_read hx (by decide) rfl (by rintro ⟨⟩)

theorem charAt_past {i : Nat} (h : charAt (terminated str signedChar endbuf sed) i = some 0) :
    charAt (terminated str signedChar endbuf sed) (i + 1) = none := by
  have hi := eq_of_charAt_zero h
  simp [charAt, terminated, hi]

theorem getc_none {inp : Input} {s : State} {k : Int → State → Cfg} (h : charAt inp s.sp = none) :
    getc inp s k = ⟨.overread, s⟩ := by
  refine getc_cases (P := fun c => c = ⟨.overread, s⟩) (fun _ => rfl) fun x hx => ?_
  rw [h] at hx
  cases hx

/-- A backslash before the NUL: the NUL is taken for a character to match. -/
theorem escape_overreads {inp : Input} {s : State} (hx : charAt inp s.sp = some 0)
    (hpast : charAt inp (s.sp + 1) = none) (hroom : s.ep + 2 < inp.endbuf) :
    ∃ t, Reaches (next inp) ⟨.escape, s⟩ ⟨.overread, t⟩ := by
  have hescape : next inp ⟨.escape, s⟩ = some ⟨.defchar 0, readOne s⟩ := by
    simp only [next, escape, getc_eq hx]
    rfl
  have hput (u : State) (hu : u.ep = s.ep) (hsp : u.sp = s.sp + 1) :
      ∃ t, Reaches (next inp) ⟨.defchar 0, u⟩ ⟨.overread, t⟩ := by
    have hdefchar : next inp ⟨.defchar 0, u⟩ =
        some ⟨.loop, put (toChar 0) (put cchr { u with lastep := some u.ep })⟩ := by
      simp only [next, defchar]
      rw [emit_put (by simp only; omega), emit_put (by simp only [put]; omega)]
    have hloop (v : State) (hv : v.ep = s.ep + 2) (hvsp : v.sp = s.sp + 1) :
        next inp ⟨.loop, v⟩ = some ⟨.overread, v⟩ := by
      simp only [next, loop]
      rw [if_neg (by omega), nextChar, getc_none (by rw [hvsp, hpast])]
    exact ⟨_, reaches_head hdefchar (reaches_one (hloop _ (by simp only [put, hu]) hsp))⟩
  obtain ⟨t, ht⟩ := hput (readOne s) rfl rfl
  exact ⟨t, reaches_head hescape ht⟩

/-- A range that ends with the NUL: the list goes on behind it. -/
theorem rangeEnd_overreads {inp : Input} {lc : Int} {neg iflag : Bool} {s : State}
    (h : Bounded inp ⟨.rangeEnd lc neg iflag, s⟩) (hx : charAt inp s.sp = some 0)
    (hpast : charAt inp (s.sp + 1) = none) :
    ∃ t, Reaches (next inp) ⟨.rangeEnd lc neg iflag, s⟩ ⟨.overread, t⟩ := by
  have hmap := map_room h rfl
  have hlow : 0 ≤ s.ep + lc / 8 := h.low
  have hpos := mapSize_pos iflag
  let Goes : Cfg → Prop := fun c => ∃ t, c = ⟨.listNext 0 neg iflag, t⟩ ∧ t.sp = s.sp + 1
  have hplaced : Goes (rangeEnd inp lc neg iflag s) := by
    rw [rangeEnd, getc_eq hx, if_neg (by decide), widen, if_neg (by simp)]
    refine placeFrom_cases (P := Goes) (n := mapSize iflag) (by omega) (fun hneg => absurd hneg (Int.not_lt.mpr hlow))
      (fun hlt => absurd hmap (Nat.not_le.mpr hlt)) fun mem _ => ?_
    refine place_cases (P := Goes) (n := mapSize iflag) (by omega) (fun hneg => absurd hneg (by simp only; omega))
      (fun hlt => absurd hmap (Nat.not_le.mpr hlt)) fun mem' _ _ => ⟨_, rfl, rfl⟩
  obtain ⟨t, ht, hsp⟩ := hplaced
  have hrange : next inp ⟨.rangeEnd lc neg iflag, s⟩ = some ⟨.listNext 0 neg iflag, t⟩ := by
    simp only [next, ht]
  have hlist : next inp ⟨.listNext 0 neg iflag, t⟩ = some ⟨.overread, t⟩ := by
    simp only [next, listNext]
    rw [getc_none (by rw [hsp, hpast])]
  exact ⟨t, reaches_head hrange (reaches_one hlist)⟩

/-- `compile` reads no character behind the NUL exactly when it meets the NUL
neither as the end of a range nor after a backslash, unless the buffer is
full right behind that backslash. -/
theorem compile_reads_iff (str : Subject) (signedChar : Bool) (endbuf : Nat) (sed : Bool) (mem : Nat → Byte) :
    (∀ c, Reaches (next (terminated str signedChar endbuf sed)) (compile mem) c → c.label ≠ .overread) ↔
      ∀ c, Reaches (next (terminated str signedChar endbuf sed)) (compile mem) c →
        Sees (terminated str signedChar endbuf sed) c := by
  constructor
  · rintro h ⟨l, s⟩ hc
    refine ⟨?_, ?_⟩
    · rintro lc neg iflag rfl hx
      have hbounded := reaches_bounded hc (by simp [Leaves])
      obtain ⟨t, ht⟩ := rangeEnd_overreads hbounded hx (charAt_past hx)
      exact h _ (hc.trans ht) rfl
    · rintro rfl hx
      refine Nat.le_of_not_lt fun hroom => ?_
      obtain ⟨t, ht⟩ := escape_overreads hx (charAt_past hx) hroom
      exact h _ (hc.trans ht) rfl
  · intro h c hc
    have hwithin : Within str (terminated str signedChar endbuf sed) c :=
      reaches_invariant_of_reaches (fun a b ha hab hnext => step_within hab (h a ha) hnext) hc
        ⟨by rintro ⟨⟩, .inl (Nat.zero_le _)⟩
    exact hwithin.1

def openRange : Subject := ⟨[91#8, 97#8, 45#8], by decide⟩

theorem openRange_overreads :
    ¬ ∀ c, Reaches (next (terminated openRange false 64 false)) (compile fun _ => 0#8) c →
      c.label ≠ .overread := by
  intro h
  exact h _ (reaches_steps _ 9 _) (by decide)

end SysvDev.Regexp.Reads
