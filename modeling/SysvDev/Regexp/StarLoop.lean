import SysvDev.Regexp.Split

namespace SysvDev.Regexp.StarLoop

open StateTransition Transition Opcode Advance Program Split

variable {prog : List Byte} {s : Subject}

/-- What a call needs of the globals: `locs` outside the subject, and the
groups met so far recorded at or before the current position. -/
structure Ready (s : Subject) (opened closed : List (Fin maxBra)) (p : Nat) (g : Globals) : Prop where
  bound : p ≤ s.chars.length
  locs : g.locs < 0 ∨ s.chars.length < g.locs
  begun : ∀ n ∈ opened, 0 ≤ g.groups.braslist n ∧ g.groups.braslist n ≤ p
  ended : ∀ n ∈ closed, 0 ≤ g.groups.braslist n ∧
    g.groups.braslist n ≤ g.groups.braelist n ∧ g.groups.braelist n ≤ p

/-- The result of matching `is` at the positions in `starts`: on success one
of them has a split and the globals hold its end and its groups, and on
failure none has. -/
structure Outcome (s : Subject) (is : List Instr) (starts : Nat → Prop) (g : Globals) (b : Bool)
    (g' : Globals) : Prop where
  found : b = true → ∃ p q, starts p ∧ Splits s is g.groups p g'.groups q ∧ g'.loc2 = q
  none : b = false → ∀ p, starts p → ∀ e q, ¬ Splits s is g.groups p e q
  agree : Agree is g.groups g'.groups
  kept : g'.locs = g.locs ∧ g'.loc1 = g.loc1 ∧ g'.circf = g.circf

/-- `advance`, entered at `ep` in one of the positions, decides the match. -/
def Decides (prog : List Byte) (s : Subject) (control : Control) (is : List Instr)
    (starts : Nat → Prop) (g : Globals) : Prop :=
  ∀ frames, ∃ b g', Reaches (next prog s) ⟨control, frames, g⟩ ⟨.ret b, frames, g'⟩ ∧
    Outcome s is starts g b g'

theorem Decides.step {control control' : Control} {is : List Instr} {starts : Nat → Prop} {g : Globals}
    (h : ∀ frames, next prog s ⟨control, frames, g⟩ = some ⟨control', frames, g⟩)
    (hd : Decides prog s control' is starts g) : Decides prog s control is starts g := by
  intro frames
  obtain ⟨b, g', hr, ho⟩ := hd frames
  exact ⟨b, g', reaches_head (h frames) hr, ho⟩

theorem Outcome.starts_congr {is : List Instr} {starts starts' : Nat → Prop} {g g' : Globals} {b : Bool}
    (h : Outcome s is starts g b g') (hs : ∀ p, starts p ↔ starts' p) : Outcome s is starts' g b g' := by
  refine ⟨fun hb => ?_, fun hb p hp => h.none hb p ((hs p).mpr hp), h.agree, h.kept⟩
  obtain ⟨p, q, hp, hq⟩ := h.found hb
  exact ⟨p, q, (hs p).mp hp, hq⟩

theorem Ready.agree {opened closed : List (Fin maxBra)} {is : List Instr} {p : Nat} {g g' : Globals}
    (h : Ready s opened closed p g) (hw : Grouped opened closed is) (hd : (opened ++ closed).Nodup)
    (a : Agree is g.groups g'.groups) (hl : g'.locs = g.locs) : Ready s opened closed p g' := by
  refine ⟨h.bound, hl ▸ h.locs, fun n hn => ?_, fun n hn => ?_⟩
  · rw [← a.1 n (hw.not_bra (.inl hn))]
    exact h.begun n hn
  · rw [← a.1 n (hw.not_bra (.inr hn)), ← a.2 n (hw.not_ket hd hn)]
    exact h.ended n hn

theorem Ready.mono {opened closed : List (Fin maxBra)} {p q : Nat} {g : Globals}
    (h : Ready s opened closed p g) (hpq : p ≤ q) (hq : q ≤ s.chars.length) :
    Ready s opened closed q g := by
  refine ⟨hq, h.locs, fun n hn => ?_, fun n hn => ?_⟩
  · have := h.begun n hn
    omega
  · have := h.ended n hn
    omega

theorem Ready.setBeg {opened closed : List (Fin maxBra)} {p : Nat} {g : Globals} {n : Fin maxBra}
    (h : Ready s opened closed p g) (hn : n ∉ closed) :
    Ready s (n :: opened) closed p { g with groups := g.groups.setBeg n p } := by
  refine ⟨h.bound, h.locs, fun m hm => ?_, fun m hm => ?_⟩
  · by_cases he : m = n
    · subst m; simp [Groups.setBeg]
    · simpa [Groups.setBeg, he] using h.begun m (by simpa [he] using hm)
  · have he : m ≠ n := fun he => hn (he ▸ hm)
    simpa [Groups.setBeg, he] using h.ended m hm

theorem Ready.setEnd {opened closed : List (Fin maxBra)} {p : Nat} {g : Globals} {n : Fin maxBra}
    (h : Ready s (n :: opened) closed p g) :
    Ready s opened (n :: closed) p { g with groups := g.groups.setEnd n p } := by
  refine ⟨h.bound, h.locs, fun m hm => h.begun m (by simp [hm]), fun m hm => ?_⟩
  by_cases he : m = n
  · subst m
    simpa [Groups.setEnd] using h.begun n (by simp)
  · simpa [Groups.setEnd, he] using h.ended m (by simpa [he] using hm)

theorem Decides.fail {is : List Instr} {starts : Nat → Prop} {g : Globals}
    (h : ∀ p, starts p → ∀ e q, ¬ Splits s is g.groups p e q) :
    Decides prog s (.ret false) is starts g := by
  intro frames
  exact ⟨false, g, Relation.ReflTransGen.refl,
    ⟨fun hb => by simp at hb, fun _ => h, .refl _ _, rfl, rfl, rfl⟩⟩

theorem Decides.starts_congr {control : Control} {is : List Instr} {starts starts' : Nat → Prop}
    {g : Globals} (h : Decides prog s control is starts g) (hs : ∀ p, starts p ↔ starts' p) :
    Decides prog s control is starts' g := by
  intro frames
  obtain ⟨b, g', hr, ho⟩ := h frames
  exact ⟨b, g', hr, ho.starts_congr hs⟩

theorem starLoop_turn {is : List Instr} {ep lo m : Nat} {g : Globals} (hl : (lo + m : Int) ≠ g.locs)
    (h : Decides prog s (.dispatch (lo + m : Nat) ep) is (· = lo + m) g) (frames : List Frame) :
    ∃ b g', Reaches (next prog s) ⟨.starLoop lo (lo + m + 1 : Nat) ep, frames, g⟩
        ⟨if b then .ret true else if 0 < m then .starLoop lo (lo + m : Nat) ep else .ret false, frames, g'⟩ ∧
      Outcome s is (· = lo + m) g b g' := by
  obtain ⟨b, g', hr, ho⟩ := h (.star lo (lo + m : Nat) ep :: frames)
  have henter : next prog s ⟨.starLoop lo (lo + m + 1 : Nat) ep, frames, g⟩ =
      some ⟨.dispatch (lo + m : Nat) ep, .star lo (lo + m : Nat) ep :: frames, g⟩ := by
    simp [next, hl]
  have hleave : next prog s ⟨.ret b, .star lo (lo + m : Nat) ep :: frames, g'⟩ =
      some ⟨if b then .ret true else if 0 < m then .starLoop lo (lo + m : Nat) ep else .ret false,
        frames, g'⟩ := by
    simp [next, resume]
  exact ⟨b, g', reaches_head henter (reaches_tail hr hleave), ho⟩

theorem Outcome.more {opened closed : List (Fin maxBra)} {is : List Instr} {starts starts' : Nat → Prop}
    {g g' g'' : Globals} {b : Bool} (hw : Grouped opened closed is) (hd : (opened ++ closed).Nodup)
    (h : Outcome s is starts g false g') (h' : Outcome s is starts' g' b g'') :
    Outcome s is (fun p => starts' p ∨ starts p) g b g'' := by
  refine ⟨fun hb => ?_, fun hb p hp e q hs => ?_, h.agree.trans h'.agree, ?_⟩
  · obtain ⟨p, q, hp, hs, hq⟩ := h'.found hb
    exact ⟨p, q, .inl hp, hs.congr hw hd h.agree.symm, hq⟩
  · rcases hp with hp | hp
    · exact h'.none hb p hp e q (hs.congr hw hd h.agree)
    · exact h.none rfl p hp e q hs
  · obtain ⟨h1, h2, h3⟩ := h.kept
    obtain ⟨k1, k2, k3⟩ := h'.kept
    exact ⟨k1.trans h1, k2.trans h2, k3.trans h3⟩

/-- The loop at `star:` tries the positions from the last one down. -/
theorem starLoop_decides {opened closed : List (Fin maxBra)} {is : List Instr} {ep lo m : Nat}
    (hw : Grouped opened closed is) (hd : (opened ++ closed).Nodup)
    (hsuffix : ∀ q g, lo ≤ q → q ≤ lo + m → Ready s opened closed q g →
      Decides prog s (.dispatch q ep) is (· = q) g)
    {g : Globals} (hg : Ready s opened closed lo g) (hm : lo + m ≤ s.chars.length) :
    Decides prog s (.starLoop lo (lo + m + 1 : Nat) ep) is (fun q => lo ≤ q ∧ q ≤ lo + m) g := by
  induction m generalizing g with
  | zero =>
      intro frames
      have hl : (lo + (0 : Nat) : Int) ≠ g.locs := by
        have := hg.locs; omega
      obtain ⟨b, g', hr, ho⟩ := starLoop_turn hl (hsuffix lo g le_rfl le_rfl hg) frames
      refine ⟨b, g', by cases b <;> simpa using hr, ho.starts_congr fun p => ?_⟩
      omega
  | succ m ih =>
      intro frames
      have hl : (lo + (m + 1 : Nat) : Int) ≠ g.locs := by
        have := hg.locs; omega
      obtain ⟨b, g', hr, ho⟩ := starLoop_turn hl
        (hsuffix (lo + (m + 1)) g (by omega) le_rfl (hg.mono (by omega) hm)) frames
      cases b with
      | true =>
          refine ⟨true, g', by simpa using hr, ⟨fun _ => ?_, fun h => by simp at h, ho.agree, ho.kept⟩⟩
          obtain ⟨p, q, rfl, hs⟩ := ho.found rfl
          exact ⟨_, q, ⟨by omega, le_rfl⟩, hs⟩
      | false =>
          obtain ⟨b, g'', hr', ho'⟩ := ih (fun q g h1 h2 => hsuffix q g h1 (by omega))
            (hg.agree hw hd ho.agree ho.kept.1) (by omega) frames
          refine ⟨b, g'', ?_, (ho.more hw hd ho').starts_congr fun p => by omega⟩
          simp only [Bool.false_eq_true, if_false, Nat.succ_pos, if_true] at hr
          exact hr.trans hr'

end SysvDev.Regexp.StarLoop
