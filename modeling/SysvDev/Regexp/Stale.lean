import SysvDev.Regexp.Match

namespace SysvDev.Regexp.Stale

open StateTransition Transition Opcode Advance Program Dispatch Scan Split StarLoop Match

variable {prog : List Byte} {s : Subject} {is : List Instr} {g h : Globals} {p ep : Nat}
  {opened closed : List (Fin maxBra)}

/-- The groups met so far are recorded at or before the current position. -/
def Recorded (s : Subject) (opened closed : List (Fin maxBra)) (p : Nat) (groups : Groups) : Prop :=
  Ready s opened closed p ⟨groups, -1, -1, -1, 0⟩

/-- What a call leaves: only the groups of its instructions are written. -/
structure Left (is : List Instr) (g g' : Globals) : Prop where
  agree : Agree is g.groups g'.groups
  locs : g'.locs = g.locs

/-- Two calls that differ in what is recorded return the same, with the same end
of the match. -/
def Twin (prog : List Byte) (s : Subject) (control : Control) (is : List Instr) (g h : Globals) : Prop :=
  ∃ b g' h', (∀ frames, Reaches (next prog s) ⟨control, frames, g⟩ ⟨.ret b, frames, g'⟩) ∧
    (∀ frames, Reaches (next prog s) ⟨control, frames, h⟩ ⟨.ret b, frames, h'⟩) ∧
    (b = true → g'.loc2 = h'.loc2) ∧ Left is g g' ∧ Left is h h'

theorem Twin.fail : Twin prog s (.ret false) is g h := by
  refine ⟨false, g, h, fun _ => Relation.ReflTransGen.refl, fun _ => Relation.ReflTransGen.refl, ?_, ?_, ?_⟩
  · exact fun hb => by cases hb
  · exact ⟨.refl _ _, rfl⟩
  · exact ⟨.refl _ _, rfl⟩

theorem Twin.step {control control' : Control} {is' : List Instr} {g₁ h₁ : Globals}
    (hg : ∀ frames, next prog s ⟨control, frames, g⟩ = some ⟨control', frames, g₁⟩)
    (hh : ∀ frames, next prog s ⟨control, frames, h⟩ = some ⟨control', frames, h₁⟩)
    (ht : Twin prog s control' is' g₁ h₁) (hgl : ∀ g', Left is' g₁ g' → Left is g g')
    (hhl : ∀ h', Left is' h₁ h' → Left is h h') : Twin prog s control is g h := by
  obtain ⟨b, g', h', hrg, hrh, hloc, hlg, hlh⟩ := ht
  exact ⟨b, g', h', fun frames => reaches_head (hg frames) (hrg frames),
    fun frames => reaches_head (hh frames) (hrh frames), hloc, hgl g' hlg, hhl h' hlh⟩

theorem Agree.plain {i : Instr} {e f : Groups} (ha : Agree (i :: is) e f) (hbra : ∀ n, i ≠ .bra n)
    (hket : ∀ n, i ≠ .ket n) : Agree is e f :=
  ⟨fun n hn => ha.1 n (List.not_mem_cons_of_ne_of_not_mem (hbra n).symm hn),
    fun n hn => ha.2 n (List.not_mem_cons_of_ne_of_not_mem (hket n).symm hn)⟩

theorem Left.cons {i : Instr} {g' : Globals} (hl : Left is g g') : Left (i :: is) g g' := ⟨hl.agree.cons, hl.locs⟩

theorem Left.trans {g' g'' : Globals} (hl : Left is g g') (hl' : Left is g' g'') : Left is g g'' :=
  ⟨hl.agree.trans hl'.agree, hl'.locs.trans hl.locs⟩

theorem Recorded.agree {groups groups' : Groups} (hg : Recorded s opened closed p groups)
    (hw : Grouped opened closed is) (hd : (opened ++ closed).Nodup) (ha : Agree is groups groups') :
    Recorded s opened closed p groups' :=
  (Ready.agree hg hw hd ha rfl : Ready s opened closed p ⟨groups', -1, -1, -1, 0⟩)

theorem starLoop_turn_twin {lo m : Nat} (hlocs : g.locs = h.locs) (ht : Twin prog s (.dispatch (lo + m : Nat) ep) is g h)
    (hrest : ∀ g' h', Left is g g' → Left is h h' →
      Twin prog s (if 0 < m then .starLoop lo (lo + m : Nat) ep else .ret false) is g' h') :
    Twin prog s (.starLoop lo (lo + m + 1 : Nat) ep) is g h := by
  by_cases hl : (lo + m : Int) = g.locs
  · have hbreak (g : Globals) (hl : (lo + m : Int) = g.locs) (frames : List Frame) :
        next prog s ⟨.starLoop lo (lo + m + 1 : Nat) ep, frames, g⟩ = some ⟨.ret false, frames, g⟩ := by
      simp [next, hl]
    exact Twin.step (hbreak g hl) (hbreak h (hl.trans hlocs)) .fail (fun _ => id) (fun _ => id)
  · obtain ⟨b, g', h', hrg, hrh, hloc, hlg, hlh⟩ := ht
    have hturn {g g' : Globals} (hl : (lo + m : Int) ≠ g.locs)
        (hr : ∀ frames, Reaches (next prog s) ⟨.dispatch (lo + m : Nat) ep, frames, g⟩ ⟨.ret b, frames, g'⟩)
        (frames : List Frame) : Reaches (next prog s) ⟨.starLoop lo (lo + m + 1 : Nat) ep, frames, g⟩
          ⟨if b then .ret true else if 0 < m then .starLoop lo (lo + m : Nat) ep else .ret false, frames, g'⟩ := by
      have henter : next prog s ⟨.starLoop lo (lo + m + 1 : Nat) ep, frames, g⟩ =
          some ⟨.dispatch (lo + m : Nat) ep, .star lo (lo + m : Nat) ep :: frames, g⟩ := by
        simp [next, hl]
      refine reaches_head henter (reaches_tail (hr _) ?_)
      simp [next, resume]
    have hg := hturn hl hrg
    have hh := hturn (hlocs ▸ hl) hrh
    cases b with
    | true => exact ⟨true, g', h', hg, hh, hloc, hlg, hlh⟩
    | false =>
        obtain ⟨b, g'', h'', hrg', hrh', hloc', hlg', hlh'⟩ := hrest g' h' hlg hlh
        exact ⟨b, g'', h'', fun frames => (hg frames).trans (hrg' frames), fun frames => (hh frames).trans (hrh' frames),
          hloc', hlg.trans hlg', hlh.trans hlh'⟩

theorem starLoop_twin {lo m : Nat} (hw : Grouped opened closed is) (hd : (opened ++ closed).Nodup)
    (hsuffix : ∀ q g h, Recorded s opened closed q g.groups → Agree is g.groups h.groups →
      g.locs = h.locs → Twin prog s (.dispatch q ep) is g h)
    (hg : Recorded s opened closed lo g.groups) (hm : lo + m ≤ s.chars.length)
    (ha : Agree is g.groups h.groups) (hlocs : g.locs = h.locs) :
    Twin prog s (.starLoop lo (lo + m + 1 : Nat) ep) is g h := by
  induction m generalizing g h with
  | zero => exact starLoop_turn_twin (m := 0) hlocs (hsuffix lo g h hg ha hlocs) fun g' h' _ _ => .fail
  | succ m ih =>
      have hlast : Recorded s opened closed (lo + (m + 1)) g.groups := Ready.mono hg (by omega) hm
      refine starLoop_turn_twin hlocs (hsuffix _ g h hlast ha hlocs) fun g' h' hlg hlh => ?_
      exact ih (hg.agree hw hd hlg.agree) (by omega) ((hlg.agree.symm.trans ha).trans hlh.agree)
        ((hlg.locs.trans hlocs).trans hlh.locs.symm)

theorem attempt_twin {a : Item} {r : Rep} (hw : Grouped opened closed is) (hd : (opened ++ closed).Nodup)
    (hs : Sound (.item a r)) (hg : Recorded s opened closed p g.groups) (ha : Agree is g.groups h.groups)
    (hlocs : g.locs = h.locs)
    (hsuffix : ∀ q g h, Recorded s opened closed q g.groups → Agree is g.groups h.groups →
      g.locs = h.locs → Twin prog s (.dispatch q ep) is g h) :
    Twin prog s (attempt s a.accepts r p ep) is g h := by
  obtain ⟨h0, hrange⟩ := hs
  have hp := hg.bound
  have hrun := run_le a.accepts (s.chars.drop p)
  rw [List.length_drop] at hrun
  cases r with
  | one =>
      rw [attempt_one h0 hp]
      split
      · exact hsuffix (p + 1) g h (Ready.mono hg (by omega) (by omega)) ha hlocs
      · exact .fail
  | star =>
      rw [attempt_star h0 hp]
      exact starLoop_twin hw hd hsuffix hg (by omega) ha hlocs
  | range lo hi =>
      rw [attempt_range h0 hp (hrange lo hi rfl)]
      split
      · exact starLoop_twin hw hd hsuffix (Ready.mono hg (by omega) (by omega)) (by omega) ha hlocs
      · exact .fail

/-- What is recorded of the groups that are still to come does not matter. -/
theorem dispatch_twin (hw : Grouped opened closed is) (hd : (opened ++ closed).Nodup) (hs : ∀ i ∈ is, Sound i)
    (he : encode is <+: prog.drop ep) (hg : Recorded s opened closed p g.groups) (ha : Agree is g.groups h.groups)
    (hlocs : g.locs = h.locs) : Twin prog s (.dispatch p ep) is g h := by
  induction is generalizing opened closed ep p g h with
  | nil =>
      refine ⟨true, { g with loc2 := p }, { h with loc2 := p }, fun frames => reaches_one (next_eof he p frames g),
        fun frames => reaches_one (next_eof he p frames h), fun _ => rfl, ?_, ?_⟩
      · exact ⟨.refl _ _, rfl⟩
      · exact ⟨.refl _ _, rfl⟩
  | cons i is ih =>
      rw [encode_cons] at he
      have hi : i.encode <+: prog.drop ep := (List.prefix_append _ _).trans he
      have his : encode is <+: prog.drop (ep + i.encode.length) := prefix_drop he
      have hsound : ∀ i ∈ is, Sound i := fun j hj => hs j (List.mem_cons_of_mem i hj)
      have hp := hg.bound
      cases i with
      | item a r =>
          have ha' := Agree.plain ha (fun _ => by rintro ⟨⟩) (fun _ => by rintro ⟨⟩)
          refine Twin.step (next_item hi p · g) (next_item hi p · h) ?_ (fun _ => Left.cons) (fun _ => Left.cons)
          exact attempt_twin hw hd (hs _ List.mem_cons_self) hg ha' hlocs fun q g h => ih hw hd hsound his
      | dol =>
          have ha' := Agree.plain ha (fun _ => by rintro ⟨⟩) (fun _ => by rintro ⟨⟩)
          refine Twin.step (next_dol hi p · g) (next_dol hi p · h) ?_ (fun _ => Left.cons) (fun _ => Left.cons)
          rw [rest_natCast hp]
          by_cases hlen : p = s.chars.length
          · subst p
            simp only [List.drop_length, List.nil_append, if_true]
            exact ih hw hd hsound his hg ha' hlocs
          · have hlt : p < s.chars.length := lt_of_le_of_ne hp hlen
            rw [List.drop_eq_getElem_cons hlt]
            simp only [List.cons_append, s.nonul _ (List.getElem_mem hlt), if_false]
            exact .fail
      | bra n =>
          obtain ⟨ho, hc, hw⟩ := hw
          refine Twin.step (next_bra p · g hi) (next_bra p · h hi)
            (ih hw (by simpa [ho, hc] using hd) hsound his (Ready.setBeg hg hc) (ha.setBeg p) hlocs) ?_ ?_
          · exact fun g' hl => ⟨hl.agree.bra, hl.locs⟩
          · exact fun h' hl => ⟨hl.agree.bra, hl.locs⟩
      | ket n =>
          obtain ⟨os, rfl, hw⟩ := hw
          refine Twin.step (next_ket p · g hi) (next_ket p · h hi)
            (ih hw (by simpa using List.nodup_middle.mpr hd) hsound his (Ready.setEnd hg) (ha.setEnd p) hlocs) ?_ ?_
          · exact fun g' hl => ⟨hl.agree.ket, hl.locs⟩
          · exact fun h' hl => ⟨hl.agree.ket, hl.locs⟩
      | back n =>
          obtain ⟨hn, hw⟩ := hw
          have ha' := Agree.plain ha (fun _ => by rintro ⟨⟩) (fun _ => by rintro ⟨⟩)
          have hbeg' := ha'.1 n (hw.not_bra (.inr hn))
          have hend' := ha'.2 n (hw.not_ket hd hn)
          have hh (frames : List Frame) := next_back (s := s) p frames h hi
          rw [← hbeg', ← hend'] at hh
          refine Twin.step (next_back p · g hi) hh ?_ (fun _ => Left.cons) (fun _ => Left.cons)
          obtain ⟨hi0, hij, hjp⟩ : 0 ≤ g.groups.braslist n ∧ g.groups.braslist n ≤ g.groups.braelist n ∧
            g.groups.braelist n ≤ p := hg.ended n hn
          obtain ⟨i, hbeg⟩ := Int.eq_ofNat_of_zero_le hi0
          obtain ⟨j, hend⟩ := Int.eq_ofNat_of_zero_le (hi0.trans hij)
          have hj : j ≤ s.chars.length := by omega
          rw [hbeg, hend, ecmp_group (by omega) hj hp]
          by_cases hpre : (s.chars.drop i).take (j - i) <+: s.chars.drop p
          · have hle := hpre.length_le
            rw [List.length_take_of_le (by simp; omega), List.length_drop] at hle
            have hcast : (p : Int) + ((j : Int) - i) = (p + (j - i) : Nat) := by omega
            simp only [hpre, decide_true, hcast]
            exact ih hw hd hsound his (Ready.mono hg (by omega) (by omega)) ha' hlocs
          · simp only [hpre, decide_false]
            exact .fail
      | backStar n => exact absurd (hs (.backStar n) List.mem_cons_self) id

end SysvDev.Regexp.Stale
