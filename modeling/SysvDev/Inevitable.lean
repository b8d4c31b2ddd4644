import Mathlib.Logic.Relation

namespace SysvDev.Inevitable

open Relation

variable {α : Type} {R : α → α → Prop} {Q Q' P P' : α → Prop} {a b : α}

/-- Every run from `a` comes to a point with `P`, and `Q` holds up to there. -/
inductive Until (R : α → α → Prop) (Q P : α → Prop) : α → Prop
  | here {a : α} (h : P a) : Until R Q P a
  | next {a : α} (hQ : Q a) (hex : ∃ b, R a b) (h : ∀ b, R a b → Until R Q P b) : Until R Q P a

namespace Until

theorem trans (h : Until R Q P a) (hP : ∀ b, P b → Until R Q P' b) : Until R Q P' a := by
  induction h with
  | here h => exact hP _ h
  | next hQ hex _ ih => exact .next hQ hex ih

theorem mono (h : Until R Q P a) (hQ : ∀ b, Q b → Q' b) (hP : ∀ b, P b → P' b) : Until R Q' P' a := by
  induction h with
  | here h => exact .here (hP _ h)
  | next hQa hex _ ih => exact .next (hQ _ hQa) hex ih

theorem reached (h : Until R Q P a) (hstop : ∀ b c, P b → ¬ R b c) (hab : ReflTransGen R a b) : Until R Q P b := by
  induction hab with
  | refl => exact h
  | tail _ hbc ih =>
      cases ih with
      | here hP => exact absurd hbc (hstop _ _ hP)
      | next _ _ hnext => exact hnext _ hbc

theorem safe (h : Until R Q P a) (hstop : ∀ b c, P b → ¬ R b c) (hPQ : ∀ b, P b → Q b) (hab : ReflTransGen R a b) :
    Q b := by
  cases h.reached hstop hab with
  | here hP => exact hPQ _ hP
  | next hQ _ _ => exact hQ

theorem ends (h : Until R Q P a) (hstop : ∀ b c, P b → ¬ R b c) (hab : ReflTransGen R a b) (hb : ∀ c, ¬ R b c) :
    P b := by
  cases h.reached hstop hab with
  | here hP => exact hP
  | next _ hex _ =>
      obtain ⟨c, hc⟩ := hex
      exact absurd hc (hb c)

theorem exists_end (h : Until R Q P a) : ∃ b, ReflTransGen R a b ∧ P b := by
  induction h with
  | here h => exact ⟨_, .refl, h⟩
  | next _ hex _ ih =>
      obtain ⟨c, hc⟩ := hex
      obtain ⟨b, hb, hP⟩ := ih c hc
      exact ⟨b, .head hc hb, hP⟩

end Until

end SysvDev.Inevitable
