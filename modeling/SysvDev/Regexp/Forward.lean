import SysvDev.Regexp.Advance

namespace SysvDev.Regexp.Forward

open Opcode Advance

variable {prog : List Byte} {s : Subject}

def Beyond (s : Subject) (lp : Int) : Prop := s.rest lp = []

theorem beyond_of_lt {lp : Int} (h : s.chars.length < lp) : Beyond s lp := by
  unfold Beyond Subject.rest
  rw [if_pos (by omega), List.drop_eq_nil_iff]
  simp
  omega

/-- Where the switch can go: always forward in the program, and from a
position that cannot be read never on to another one, and never to a
failure. A group is repeated only for a starred back-reference to it. -/
def Follows (prog : List Byte) (s : Subject) (op : Byte) (lp : Int) (ep : Nat) (g : Groups) : Control → Prop
  | .dispatch lp' ep' => ep ≤ ep' ∧ (Beyond s lp → lp' = lp)
  | .starLoop curlp lp' ep' => ep ≤ ep' ∧ (Beyond s lp → curlp = lp ∧ lp' = lp + 1)
  | .ecmpLoop _ ct curlp lp' ep' => ep ≤ ep' ∧ curlp = lp ∧ lp' = lp ∧ op = cback ||| star ∧
      ∃ n, (prog[ep]?).bind groupIndex = some n ∧ ct = g.braelist n - g.braslist n
  | .ret matched => Beyond s lp → matched = true
  | .fault => True
  | _ => False

section

variable {op : Byte} {lp : Int} {ep ep' : Nat} {g : Groups}

theorem single_follows (ok : Byte → Option Bool) (h : ep ≤ ep') :
    Follows prog s op lp ep g (single s ok lp ep') := by
  unfold single
  split
  · trivial
  · next hr =>
      have hb : ¬ Beyond s lp := by simp [Beyond, hr]
      split <;> simp [Follows, h, hb]

theorem starred_follows (ok : Byte → Option Bool) (h : ep ≤ ep') :
    Follows prog s op lp ep g (starred s ok lp ep') := by
  unfold starred
  split
  · trivial
  · next hr =>
      refine ⟨h, fun hb => ?_⟩
      rw [hb, scanStar] at hr
      simp at hr

theorem ranged_follows (ok : Byte → Option Bool) (range : Option (Nat × Int)) (h : ep ≤ ep') :
    Follows prog s op lp ep g (ranged s ok range lp ep') := by
  unfold ranged
  split
  · trivial
  · next low size =>
      split
      · trivial
      · next hr =>
          intro hb
          rw [hb] at hr
          cases low <;> simp [scanLow] at hr
      · next k hr =>
          split
          · trivial
          · next m hm =>
              refine ⟨h, fun hb => ?_⟩
              rw [hb] at hr
              cases low with
              | zero =>
                  obtain rfl : 0 = k := by simpa [scanLow] using hr
                  have hb' : s.rest (lp + (0 : Nat)) = [] := by simpa [Beyond] using hb
                  rw [hb', scanSize] at hm
                  by_cases hsize : size = 0
                  · simp [hsize] at hm
                    simp [← hm]
                  · simp [hsize] at hm
              | succ low => simp [scanLow] at hr

theorem ecmp_nil {n : Option Nat} {xs : List Byte} {b : Bool} (h : ecmp n xs [] = some b) :
    n = some 0 ∧ b = true := by
  cases n with
  | none => cases xs <;> simp [ecmp] at h
  | some n =>
      cases n with
      | zero => simpa [ecmp, eq_comm] using h
      | succ n => cases xs <;> simp [ecmp] at h

theorem toSize_eq_zero {ct : Int} (h : toSize ct = some 0) : ct = 0 := by
  unfold toSize at h
  split at h
  · simp at h
  · simp at h
    omega

theorem follows_ite {c : Prop} [Decidable c] {a b : Control × Globals}
    (ha : c → Follows prog s op lp ep g a.1) (hb : ¬ c → Follows prog s op lp ep g b.1) :
    Follows prog s op lp ep g (if c then a else b).1 := by
  split
  · exact ha ‹_›
  · exact hb ‹_›

end

theorem switch_follows (op : Byte) (lp : Int) (ep : Nat) (g : Globals) :
    Follows prog s op lp ep g.groups (switch prog s op lp ep g).1 := by
  unfold switch
  repeat' refine follows_ite (fun hop => ?_) (fun _ => ?_)
  all_goals repeat' split
  all_goals first
    | trivial
    | exact single_follows _ (by omega)
    | exact starred_follows _ (by omega)
    | exact ranged_follows _ _ (by omega)
    | exact ⟨by omega, fun _ => rfl⟩
    | skip
  · next hr _ => exact fun hb => absurd (hb.symm.trans hr) (by simp)
  · exact fun _ => rfl
  · dsimp only
    split
    · trivial
    · next he =>
        refine ⟨by omega, fun hb => ?_⟩
        rw [hb] at he
        have := toSize_eq_zero (ecmp_nil he).1
        omega
    · next he =>
        intro hb
        rw [hb] at he
        exact (ecmp_nil he).2
  · next hn => exact ⟨by omega, rfl, rfl, hop, _, hn, rfl⟩

theorem switch_locs (op : Byte) (lp : Int) (ep : Nat) (g : Globals) :
    (switch prog s op lp ep g).2.locs = g.locs := by
  have hite {c : Prop} [Decidable c] {a b : Control × Globals} (ha : a.2.locs = g.locs)
      (hb : b.2.locs = g.locs) : (if c then a else b).2.locs = g.locs := by
    split
    · exact ha
    · exact hb
  unfold switch
  repeat' refine hite ?_ ?_
  all_goals repeat' split
  all_goals first | rfl | (dsimp only; split <;> rfl)

end SysvDev.Regexp.Forward
