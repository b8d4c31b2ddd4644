import Mathlib.Computability.StateTransition

namespace SysvDev.Transition

open StateTransition Relation

variable {σ : Type} {f : σ → Option σ} {a b c : σ}

def steps (f : σ → Option σ) : Nat → σ → σ
  | 0, a => a
  | n + 1, a =>
      match f a with
      | none => a
      | some b => steps f n b

theorem reaches_head (h : f a = some b) (hb : Reaches f b c) : Reaches f a c :=
  ReflTransGen.head (Option.mem_def.mpr h) hb

theorem reaches_tail (h : Reaches f a b) (hc : f b = some c) : Reaches f a c :=
  ReflTransGen.tail h (Option.mem_def.mpr hc)

theorem reaches_one (h : f a = some b) : Reaches f a b := reaches_head h ReflTransGen.refl

theorem reaches_steps (f : σ → Option σ) (n : Nat) (a : σ) : Reaches f a (steps f n a) := by
  induction n generalizing a with
  | zero => exact ReflTransGen.refl
  | succ n ih =>
      cases h : f a with
      | none =>
          rw [steps, h]
          exact ReflTransGen.refl
      | some b =>
          simp only [steps, h]
          exact reaches_head h (ih b)

theorem steps_succ (f : σ → Option σ) (n : Nat) (a : σ) : steps f (n + 1) a = (f (steps f n a)).getD (steps f n a) := by
  induction n generalizing a with
  | zero => cases h : f a <;> simp [steps, h]
  | succ n ih =>
      cases h : f a with
      | none => simp [steps, h]
      | some b => simpa only [steps, h] using ih b

theorem exists_steps (h : Reaches f a b) : ∃ n, steps f n a = b := by
  induction h with
  | refl => exact ⟨0, rfl⟩
  | tail _ hbc ih =>
      obtain ⟨n, rfl⟩ := ih
      exact ⟨n + 1, by rw [steps_succ, Option.mem_def.mp hbc, Option.getD_some]⟩

theorem steps_halted (h : f a = none) (n : Nat) : steps f n a = a := by
  cases n with
  | zero => rfl
  | succ n => rw [steps, h]

theorem steps_add (f : σ → Option σ) (m n : Nat) (a : σ) : steps f (m + n) a = steps f n (steps f m a) := by
  induction m generalizing a with
  | zero => rw [Nat.zero_add, steps]
  | succ m ih =>
      rw [Nat.succ_add]
      cases h : f a with
      | none => rw [steps_halted h, steps_halted h, steps_halted h]
      | some b => simpa only [steps, h] using ih b

theorem forall_reaches {P : σ → Prop} {N : Nat} (hhalt : f (steps f N a) = none)
    (h : ∀ n ≤ N, P (steps f n a)) (hb : Reaches f a b) : P b := by
  obtain ⟨n, rfl⟩ := exists_steps hb
  rcases Nat.le_total n N with hn | hn
  · exact h n hn
  · obtain ⟨k, rfl⟩ := Nat.exists_eq_add_of_le hn
    rw [steps_add, steps_halted hhalt]
    exact h N (Nat.le_refl N)

theorem reaches_invariant {P : σ → Prop} (hstep : ∀ b c, P b → f b = some c → P c)
    (hab : Reaches f a b) (ha : P a) : P b := by
  induction hab with
  | refl => exact ha
  | tail _ hbc ih => exact hstep _ _ ih (Option.mem_def.mp hbc)

theorem reaches_invariant_of_reaches {P : σ → Prop} (hstep : ∀ b c, Reaches f a b → P b → f b = some c → P c)
    (hab : Reaches f a b) (ha : P a) : P b := by
  induction hab with
  | refl => exact ha
  | tail hab hbc ih => exact hstep _ _ hab ih (Option.mem_def.mp hbc)

theorem reaches_of_halted (hb : Reaches f a b) (hc : Reaches f a c) (hhalt : f c = none) : Reaches f b c := by
  rcases reaches_total hb hc with h | h
  · exact h
  · rcases ReflTransGen.cases_head h with rfl | ⟨d, hd, -⟩
    · exact ReflTransGen.refl
    · rw [Option.mem_def, hhalt] at hd
      cases hd

theorem dom_iff : (eval f a).Dom ↔ ∃ b, Reaches f a b ∧ f b = none := by
  constructor
  · intro h
    exact ⟨(eval f a).get h, mem_eval.mp (Part.get_mem h)⟩
  · rintro ⟨b, hb⟩
    exact Part.dom_iff_mem.mpr ⟨b, mem_eval.mpr hb⟩

theorem dom_of_measure (m : σ → Nat) (hstep : ∀ b c, f b = some c → m c < m b) (a : σ) :
    (eval f a).Dom := by
  rw [dom_iff]
  induction hn : m a using Nat.strong_induction_on generalizing a with
  | _ n ih =>
      cases h : f a with
      | none => exact ⟨a, ReflTransGen.refl, h⟩
      | some b =>
          obtain ⟨c, hbc, hc⟩ := ih (m b) (hn ▸ hstep a b h) b rfl
          exact ⟨c, reaches_head h hbc, hc⟩

theorem not_dom_of_closed {P : σ → Prop} (hstep : ∀ b, P b → ∃ c, f b = some c ∧ P c)
    (hab : Reaches f a b) (hb : P b) : ¬ (eval f a).Dom := by
  rw [reaches_eval hab, dom_iff]
  rintro ⟨c, hbc, hc⟩
  have hP : P c := by
    refine reaches_invariant ?_ hbc hb
    intro d e hd he
    obtain ⟨e', he', hP⟩ := hstep d hd
    rw [he] at he'
    exact Option.some.inj he' ▸ hP
  obtain ⟨d, hd, _⟩ := hstep c hP
  simp [hc] at hd

section Lockstep

variable {τ : Type} {g : τ → Option τ} {R : σ → τ → Prop} {a' : τ}

theorem reaches_lockstep (hstep : ∀ b b', Reaches f a b → R b b' → Option.Rel R (f b) (g b')) (ha : R a a')
    (hb : Reaches f a b) : ∃ b', Reaches g a' b' ∧ R b b' := by
  induction hb with
  | refl => exact ⟨a', ReflTransGen.refl, ha⟩
  | tail hab hbc ih =>
      obtain ⟨b', hb', hR⟩ := ih
      have hrel := hstep _ _ hab hR
      rw [Option.mem_def.mp hbc] at hrel
      generalize hg : g b' = o at hrel
      cases hrel with
      | some hc => exact ⟨_, reaches_tail hb' hg, hc⟩

end Lockstep

end SysvDev.Transition
