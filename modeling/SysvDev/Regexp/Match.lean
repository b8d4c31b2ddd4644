import SysvDev.Regexp.Dispatch
import SysvDev.Regexp.Scan
import SysvDev.Regexp.StarLoop

namespace SysvDev.Regexp.Match

open StateTransition Transition Opcode Advance Program Dispatch Scan Split StarLoop

variable {prog : List Byte} {s : Subject}

/-- The numbers of characters a repetition allows, however many there are. -/
def Fits : Rep → Nat → Prop
  | .one, k => k = 1
  | .star, _ => True
  | .range lo hi, k => lo.toNat ≤ k ∧ k ≤ lo.toNat + extra lo hi

theorem between_natCast (p k : Nat) : between s p (p + k : Nat) = (s.chars.drop p).take k := by
  rw [between, Int.toNat_natCast, Int.toNat_natCast, Nat.add_sub_cancel_left]

theorem allows_iff {acc : Byte → Bool} {p k : Nat} (h : p + k ≤ s.chars.length) (r : Rep) :
    allows acc (between s p (p + k : Nat)) r ↔ Fits r k ∧ k ≤ run acc (s.chars.drop p) := by
  have hk : k ≤ (s.chars.drop p).length := by simp; omega
  have hlen : ((s.chars.drop p).take k).length = k := List.length_take_of_le hk
  rw [between_natCast, ← forall_take_iff acc _ hk]
  generalize (s.chars.drop p).take k = text at hlen
  cases r with
  | one =>
      constructor
      · rintro ⟨c, rfl, hacc⟩
        exact ⟨hlen.symm, by simpa using hacc⟩
      · rintro ⟨rfl, hacc⟩
        obtain ⟨c, rfl⟩ := List.length_eq_one_iff.mp hlen
        exact ⟨c, rfl, hacc c (by simp)⟩
  | star => simp [allows, Fits]
  | range lo hi =>
      simp only [allows, Fits, hlen]
      tauto

theorem rngeSize_eq {lo hi : Byte} (h : lo.toNat ≤ hi.toNat) : rngeSize lo hi = extra lo hi := by
  have hpos : 0 ≤ rngeSize lo hi := by
    unfold rngeSize
    split <;> omega
  exact (Int.toNat_of_nonneg hpos).symm

theorem run_drop {acc : Byte → Bool} {text : List Byte} {n : Nat} (h : n ≤ run acc text) :
    run acc (text.drop n) = run acc text - n := by
  induction text generalizing n with
  | nil => simp [run]
  | cons c text ih =>
      cases n with
      | zero => simp
      | succ n =>
          rw [run_cons] at h ⊢
          by_cases hc : acc c = true
          · simp only [hc, if_true, Nat.add_le_add_iff_right] at h
            simp [hc, ih h]
          · simp [hc] at h

section

variable {acc : Byte → Bool} {p ep : Nat} (h0 : acc 0#8 = false) (hp : p ≤ s.chars.length)
include h0 hp

theorem attempt_one : attempt s acc .one p ep =
    if 1 ≤ run acc (s.chars.drop p) then .dispatch (p + 1 : Nat) ep else .ret false := by
  simp only [attempt, single, rest_natCast hp]
  cases s.chars.drop p with
  | nil => simp [h0, run]
  | cons c text =>
      simp only [List.cons_append, run_cons]
      cases acc c <;> simp

theorem attempt_star : attempt s acc .star p ep =
    .starLoop p (p + run acc (s.chars.drop p) + 1 : Nat) ep := by
  simp only [attempt, starred, rest_natCast hp, scanStar_eq h0]
  push_cast
  rw [add_assoc]

theorem attempt_range {lo hi : Byte} (h : lo.toNat ≤ hi.toNat) : attempt s acc (.range lo hi) p ep =
    if lo.toNat ≤ run acc (s.chars.drop p) then
      .starLoop (p + lo.toNat : Nat)
        (p + lo.toNat + min (extra lo hi) (run acc (s.chars.drop p) - lo.toNat) + 1 : Nat) ep
    else .ret false := by
  simp only [attempt, ranged, rest_natCast hp, scanLow_eq h0, rngeSize_eq h]
  by_cases hl : lo.toNat ≤ run acc (s.chars.drop p)
  · have hle : p + lo.toNat ≤ s.chars.length := by
      have := run_le acc (s.chars.drop p)
      simp at this
      omega
    have hcast : (p : Int) + (lo.toNat : Int) = (p + lo.toNat : Nat) := by push_cast; rfl
    simp only [hl, if_true]
    rw [hcast, rest_natCast hle, scanSize_eq h0, ← List.drop_drop, run_drop hl]
    push_cast
    simp only [add_assoc]
  · simp [hl]

end

/-- An item is decided once the rest is, at every position it can end at. -/
theorem decides_item {control : Control} {a : Item} {r : Rep} {is : List Instr} {p : Nat} {g : Globals}
    (hp : p ≤ s.chars.length)
    (h : Decides prog s control is
      (fun q => ∃ k, q = p + k ∧ Fits r k ∧ k ≤ run a.accepts (s.chars.drop p)) g) :
    Decides prog s control (.item a r :: is) (· = p) g := by
  intro frames
  obtain ⟨b, g', hr, ho⟩ := h frames
  refine ⟨b, g', hr, fun hb => ?_, fun hb p' hp' e q hs => ?_, ho.agree.cons, ho.kept⟩
  · obtain ⟨_, q, ⟨k, rfl, hfit, hk⟩, hs, hq⟩ := ho.found hb
    have hle : p + k ≤ s.chars.length := by
      have := run_le a.accepts (s.chars.drop p)
      simp at this
      omega
    exact ⟨p, q, rfl, .cons (by omega) hle ⟨rfl, (allows_iff hle r).mpr ⟨hfit, hk⟩⟩ hs, hq⟩
  · subst p'
    cases hs with
    | @cons _ _ _ _ _ m _ _ hpm hm hi hs =>
        obtain ⟨rfl, hi⟩ := hi
        obtain ⟨k, rfl⟩ := Nat.exists_eq_add_of_le hpm
        exact ho.none hb (p + k) ⟨k, rfl, (allows_iff hm r).mp hi⟩ e q hs

theorem attempt_decides {opened closed : List (Fin maxBra)} {is : List Instr} {a : Item} {r : Rep}
    {p ep : Nat} {g : Globals} (hw : Grouped opened closed is) (hd : (opened ++ closed).Nodup)
    (hs : Sound (.item a r)) (hg : Ready s opened closed p g)
    (hsuffix : ∀ q g, Ready s opened closed q g → Decides prog s (.dispatch q ep) is (· = q) g) :
    Decides prog s (attempt s a.accepts r p ep) is
      (fun q => ∃ k, q = p + k ∧ Fits r k ∧ k ≤ run a.accepts (s.chars.drop p)) g := by
  obtain ⟨h0, hrange⟩ := hs
  have hp := hg.bound
  have hrun := run_le a.accepts (s.chars.drop p)
  rw [List.length_drop] at hrun
  cases r with
  | one =>
      rw [attempt_one h0 hp]
      by_cases h : 1 ≤ run a.accepts (s.chars.drop p)
      · rw [if_pos h]
        refine (hsuffix (p + 1) g (hg.mono (by omega) (by omega))).starts_congr fun q => ?_
        simp only [Fits]
        constructor
        · rintro rfl
          exact ⟨1, rfl, rfl, h⟩
        · rintro ⟨k, rfl, rfl, -⟩
          rfl
      · rw [if_neg h]
        refine Decides.fail fun q => ?_
        rintro ⟨k, rfl, rfl, hk⟩
        exact absurd hk h
  | star =>
      rw [attempt_star h0 hp]
      refine (starLoop_decides hw hd (fun q g _ _ => hsuffix q g) hg (by omega)).starts_congr fun q => ?_
      simp only [Fits, true_and]
      constructor
      · rintro ⟨h1, h2⟩
        exact ⟨q - p, by omega, by omega⟩
      · rintro ⟨k, rfl, hk⟩
        omega
  | range lo hi =>
      rw [attempt_range h0 hp (hrange lo hi rfl)]
      by_cases h : lo.toNat ≤ run a.accepts (s.chars.drop p)
      · rw [if_pos h]
        refine (starLoop_decides hw hd (fun q g _ _ => hsuffix q g) (hg.mono (by omega) (by omega))
          (by omega)).starts_congr fun q => ?_
        simp only [Fits]
        constructor
        · rintro ⟨h1, h2⟩
          exact ⟨q - p, by omega, by omega, by omega⟩
        · rintro ⟨k, rfl, hk⟩
          omega
      · rw [if_neg h]
        refine Decides.fail fun q => ?_
        rintro ⟨k, rfl, hfit, hk⟩
        exact absurd (hfit.1.trans hk) h

theorem piece_back_iff {n : Fin maxBra} {g : Groups} {i j p k : Nat} (hi : g.braslist n = i)
    (hj : g.braelist n = j) (hj' : j ≤ s.chars.length) (hk : p + k ≤ s.chars.length) :
    Piece s (.back n) g p (p + k) g ↔
      k = j - i ∧ (s.chars.drop i).take (j - i) <+: s.chars.drop p := by
  have hk' : k ≤ (s.chars.drop p).length := by simp; omega
  have htext : between s i j = (s.chars.drop i).take (j - i) := by simp [between]
  simp only [Piece, true_and, hi, hj, between_natCast, htext]
  constructor
  · intro h
    have hlen := congrArg List.length h
    rw [List.length_take_of_le hk', List.length_take_of_le (by simp; omega)] at hlen
    exact ⟨hlen, h ▸ List.take_prefix _ _⟩
  · rintro ⟨rfl, h⟩
    have := List.prefix_iff_eq_take.mp h
    rw [List.length_take_of_le (by simp; omega)] at this
    exact this.symm

theorem ecmp_group {i j p : Nat} (hij : i ≤ j) (hj : j ≤ s.chars.length) (hp : p ≤ s.chars.length) :
    ecmp (toSize ((j : Int) - i)) (s.rest i) (s.rest p) =
      some (decide ((s.chars.drop i).take (j - i) <+: s.chars.drop p)) := by
  have hsize : toSize ((j : Int) - i) = some (j - i) := by
    rw [toSize, if_neg (by omega)]
    congr 1
    omega
  rw [hsize, rest_natCast (hij.trans hj), rest_natCast hp]
  exact ecmp_eq _ _ _ (by simp; omega) (drop_nonul s i)

theorem decides_back {control : Control} {is : List Instr} {n : Fin maxBra} {i j p : Nat} {g : Globals}
    (hi : g.groups.braslist n = i) (hj : g.groups.braelist n = j) (hj' : j ≤ s.chars.length)
    (hp : p ≤ s.chars.length) (h : Decides prog s control is
      (fun q => q = p + (j - i) ∧ (s.chars.drop i).take (j - i) <+: s.chars.drop p) g) :
    Decides prog s control (.back n :: is) (· = p) g := by
  intro frames
  obtain ⟨b, g', hr, ho⟩ := h frames
  refine ⟨b, g', hr, fun hb => ?_, fun hb p' hp' e q hs => ?_, ho.agree.cons, ho.kept⟩
  · obtain ⟨_, q, ⟨rfl, hpre⟩, hs, hq⟩ := ho.found hb
    have hle : p + (j - i) ≤ s.chars.length := by
      have := hpre.length_le
      rw [List.length_take_of_le (by simp; omega), List.length_drop] at this
      omega
    exact ⟨p, q, rfl, .cons (by omega) hle ((piece_back_iff hi hj hj' hle).mpr ⟨rfl, hpre⟩) hs, hq⟩
  · subst p'
    cases hs with
    | @cons _ _ _ _ _ m _ _ hpm hm hback hs =>
        obtain rfl := hback.1
        obtain ⟨k, rfl⟩ := Nat.exists_eq_add_of_le hpm
        obtain ⟨rfl, hpre⟩ := (piece_back_iff hi hj hj' hm).mp hback
        exact ho.none hb _ ⟨rfl, hpre⟩ e q hs

/-- An instruction that takes no text leaves the decision to the rest. -/
theorem decides_still {i : Instr} {is : List Instr} {p ep ep' : Nat} {g g₁ : Globals}
    (hstep : ∀ frames, next prog s ⟨.dispatch p ep, frames, g⟩ = some ⟨.dispatch p ep', frames, g₁⟩)
    (h : Decides prog s (.dispatch p ep') is (· = p) g₁) (hp : p ≤ s.chars.length)
    (hpiece : ∀ q e, Piece s i g.groups p q e ↔ e = g₁.groups ∧ q = p)
    (hagree : ∀ e, Agree is g₁.groups e → Agree (i :: is) g.groups e)
    (hkept : g₁.locs = g.locs ∧ g₁.loc1 = g.loc1 ∧ g₁.circf = g.circf) :
    Decides prog s (.dispatch p ep) (i :: is) (· = p) g := by
  intro frames
  obtain ⟨b, g', hr, ho⟩ := h frames
  refine ⟨b, g', reaches_head (hstep frames) hr, fun hb => ?_, fun hb q hq e r hs => ?_,
    hagree _ ho.agree, ?_⟩
  · obtain ⟨_, q, rfl, hs, hq⟩ := ho.found hb
    exact ⟨_, q, rfl, .cons le_rfl hp ((hpiece _ _).mpr ⟨rfl, rfl⟩) hs, hq⟩
  · subst q
    cases hs with
    | cons _ _ hi hs =>
        obtain ⟨rfl, rfl⟩ := (hpiece _ _).mp hi
        exact ho.none hb _ rfl e r hs
  · obtain ⟨h1, h2, h3⟩ := ho.kept
    obtain ⟨k1, k2, k3⟩ := hkept
    exact ⟨h1.trans k1, h2.trans k2, h3.trans k3⟩

/-- The matcher decides every well-formed program: by induction on the
instructions, with the groups met before them opened or closed. -/
theorem dispatch_decides {opened closed : List (Fin maxBra)} {is : List Instr} {p ep : Nat} {g : Globals}
    (hw : Grouped opened closed is) (hd : (opened ++ closed).Nodup) (hs : ∀ i ∈ is, Sound i)
    (he : encode is <+: prog.drop ep) (hg : Ready s opened closed p g) :
    Decides prog s (.dispatch p ep) is (· = p) g := by
  induction is generalizing opened closed ep p g with
  | nil =>
      intro frames
      refine ⟨true, { g with loc2 := p }, reaches_one (next_eof he p frames g), fun _ => ?_,
        fun h => by simp at h, .refl _ _, rfl, rfl, rfl⟩
      exact ⟨p, p, rfl, .nil _ _, rfl⟩
  | cons i is ih =>
      rw [encode_cons] at he
      have hi : i.encode <+: prog.drop ep := (List.prefix_append _ _).trans he
      have his : encode is <+: prog.drop (ep + i.encode.length) := prefix_drop he
      have hsound : ∀ i ∈ is, Sound i := fun j hj => hs j (by simp [hj])
      have hp := hg.bound
      cases i with
      | item a r =>
          refine Decides.step (next_item hi p · g) (decides_item hp ?_)
          exact attempt_decides hw hd (hs _ (by simp)) hg fun q g hq => ih hw hd hsound his hq
      | dol =>
          have hstep := next_dol (s := s) hi p
          rw [rest_natCast hp] at hstep
          by_cases hlen : p = s.chars.length
          · subst p
            simp only [List.drop_length, List.nil_append, if_true] at hstep
            exact decides_still (hstep · g) (ih hw hd hsound his hg) hp (by simp [Piece])
              (fun e h => h.cons) ⟨rfl, rfl, rfl⟩
          · have hlt : p < s.chars.length := by omega
            rw [List.drop_eq_getElem_cons hlt] at hstep
            simp only [List.cons_append, s.nonul _ (List.getElem_mem hlt), if_false] at hstep
            refine Decides.step (hstep · g) (Decides.fail ?_)
            rintro _ rfl e q (_ | ⟨_, _, hdol, _⟩)
            exact hlen hdol.2.2
      | bra n =>
          obtain ⟨ho, hc, hw⟩ := hw
          have hrest := ih hw (by simpa [ho, hc] using hd) hsound his (hg.setBeg hc)
          exact decides_still (next_bra p · g hi) hrest hp (fun q e => Iff.rfl) (fun e h => h.bra)
            ⟨rfl, rfl, rfl⟩
      | ket n =>
          obtain ⟨os, rfl, hw⟩ := hw
          have hrest := ih hw (by simpa using List.nodup_middle.mpr hd) hsound his hg.setEnd
          exact decides_still (next_ket p · g hi) hrest hp (fun q e => Iff.rfl) (fun e h => h.ket)
            ⟨rfl, rfl, rfl⟩
      | back n =>
          obtain ⟨hn, hw⟩ := hw
          obtain ⟨hi0, hij, hjp⟩ := hg.ended n hn
          obtain ⟨i, hbeg⟩ := Int.eq_ofNat_of_zero_le hi0
          obtain ⟨j, hend⟩ := Int.eq_ofNat_of_zero_le (hi0.trans hij)
          have hj : j ≤ s.chars.length := by omega
          refine Decides.step (next_back p · g hi) (decides_back hbeg hend hj hp ?_)
          rw [hbeg, hend, ecmp_group (by omega) hj hp]
          by_cases hpre : (s.chars.drop i).take (j - i) <+: s.chars.drop p
          · have hle := hpre.length_le
            rw [List.length_take_of_le (by simp; omega), List.length_drop] at hle
            have hcast : (p : Int) + ((j : Int) - i) = (p + (j - i) : Nat) := by omega
            simp only [hpre, decide_true, hcast, and_true]
            exact ih hw hd hsound his (hg.mono (by omega) (by omega))
          · simp only [hpre, decide_false]
            exact Decides.fail fun q hq => hq.2.elim
      | backStar n => exact absurd (hs (.backStar n) (by simp)) id

/-- `advance(lp, ep)` on a well-formed program, wherever it lies in memory
and whatever the group arrays hold from before. It returns without having
read outside the subject, it returns 1 exactly when the text from `lp` on
can be split among the instructions, and then `loc2` and the group arrays
are those of one such split. -/
theorem advance_correct (is : List Instr) (hwf : WellFormed is) (before after : List Byte) (s : Subject)
    (p : Nat) (hp : p ≤ s.chars.length) (g : Globals)
    (hlocs : g.locs < 0 ∨ s.chars.length < g.locs) :
    ∃ b g', ⟨.ret b, [], g'⟩ ∈ eval (next (before ++ encode is ++ after) s) (advance p before.length g) ∧
      (∀ c, Reaches (next (before ++ encode is ++ after) s) (advance p before.length g) c →
        c.control ≠ .fault) ∧
      (b = true ↔ ∃ e q, Splits s is g.groups p e q) ∧
      (b = true → ∃ q : Nat, g'.loc2 = q ∧ Splits s is g.groups p g'.groups q) := by
  have he : encode is <+: (before ++ encode is ++ after).drop before.length := by simp
  have hg : Ready s [] [] p g := ⟨hp, hlocs, by simp, by simp⟩
  obtain ⟨b, g', hr, ho⟩ := dispatch_decides hwf.grouped (by simp) hwf.sound he hg []
  have heval : ⟨.ret b, [], g'⟩ ∈ eval (next (before ++ encode is ++ after) s) (advance p before.length g) :=
    mem_eval.mpr ⟨hr, rfl⟩
  refine ⟨b, g', heval, fun c hc hfault => ?_, ⟨fun hb => ?_, fun hs => ?_⟩, fun hb => ?_⟩
  · have hhalt : next (before ++ encode is ++ after) s c = none := by simp [next, hfault]
    have := Part.mem_unique heval (mem_eval.mpr ⟨hc, hhalt⟩)
    simp [← this] at hfault
  · obtain ⟨_, q, rfl, hs, -⟩ := ho.found hb
    exact ⟨_, q, hs⟩
  · cases b with
    | true => rfl
    | false =>
        obtain ⟨e, q, hs⟩ := hs
        exact absurd hs (ho.none rfl p rfl e q)
  · obtain ⟨_, q, rfl, hs, hq⟩ := ho.found hb
    exact ⟨q, hq, hs⟩

def groupProgram : List Instr :=
  [.bra 0, .item (.chr 97#8) .star, .ket 0, .item .dot .one, .back 0, .dol]

theorem groupProgram_wellFormed : WellFormed groupProgram := by
  constructor <;> simp [groupProgram, Sound, Grouped, Item.accepts]

def groupSubject : Subject := ⟨[97#8, 97#8, 120#8, 97#8, 97#8], by decide⟩

theorem advance_correct_groupProgram : WellFormed groupProgram ∧
    ∃ g', ⟨.ret true, [], g'⟩ ∈ eval (next (encode groupProgram) groupSubject) (advance 0 0 freshGlobals) ∧
      g'.loc2 = 5 ∧ g'.groups.braslist 0 = 0 ∧ g'.groups.braelist 0 = 2 := by
  refine ⟨groupProgram_wellFormed, ?_⟩
  obtain ⟨b, g', heval, -⟩ := advance_correct groupProgram groupProgram_wellFormed [] [] groupSubject
    0 (by simp) freshGlobals (.inl (by decide))
  rw [List.nil_append, List.append_nil] at heval
  have hrun := Part.mem_unique heval (mem_eval.mpr ⟨reaches_steps _ 40 _, by decide⟩)
  have hret : Control.ret b = .ret true := (congrArg Cfg.control hrun).trans (by decide)
  have hglobals := congrArg Cfg.globals hrun
  cases hret
  refine ⟨g', heval, ?_, ?_, ?_⟩ <;> rw [show g' = _ from hglobals] <;> decide

end SysvDev.Regexp.Match
