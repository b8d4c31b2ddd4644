import Mathlib.Data.List.Perm.Basic
import Mathlib.Data.List.Nodup

namespace SysvDev.Nesting

variable {α : Type} [DecidableEq α]

/-- A bracket with a name is opened or closed, or its name is used. -/
inductive Mark (α : Type)
  | push (a : α)
  | pop (a : α)
  | mention (a : α)
  deriving DecidableEq

/-- The brackets still open after the marks, or nothing when one is closed
that is not the innermost one. -/
def nest (stack : List α) : List (Mark α) → Option (List α)
  | [] => some stack
  | .push a :: ms => nest (a :: stack) ms
  | .pop a :: ms =>
      match stack with
      | [] => none
      | b :: rest => if b = a then nest rest ms else none
  | .mention _ :: ms => nest stack ms

def pushes : List (Mark α) → List α
  | [] => []
  | .push a :: ms => a :: pushes ms
  | _ :: ms => pushes ms

def pops : List (Mark α) → List α
  | [] => []
  | .pop a :: ms => a :: pops ms
  | _ :: ms => pops ms

/-- A name is used only after its bracket is closed. -/
def Settled (ms : List (Mark α)) : Prop := ∀ pre a post, ms = pre ++ .mention a :: post → a ∈ pops pre

theorem nest_append (stack : List α) (ms ns : List (Mark α)) :
    nest stack (ms ++ ns) = (nest stack ms).bind fun out => nest out ns := by
  induction ms generalizing stack with
  | nil => rfl
  | cons m ms ih =>
      cases m with
      | push a => exact ih (a :: stack)
      | mention a => exact ih stack
      | pop a =>
          cases stack with
          | nil => rfl
          | cons b rest =>
              by_cases h : b = a
              · simpa [nest, h] using ih rest
              · simp [nest, h]

omit [DecidableEq α] in
theorem pushes_append (ms ns : List (Mark α)) : pushes (ms ++ ns) = pushes ms ++ pushes ns := by
  induction ms with
  | nil => rfl
  | cons m ms ih => cases m <;> simp [pushes, ih]

omit [DecidableEq α] in
theorem pops_append (ms ns : List (Mark α)) : pops (ms ++ ns) = pops ms ++ pops ns := by
  induction ms with
  | nil => rfl
  | cons m ms ih => cases m <;> simp [pops, ih]

theorem nest_perm {stack out : List α} {ms : List (Mark α)} (h : nest stack ms = some out) :
    (pushes ms ++ stack).Perm (pops ms ++ out) := by
  induction ms generalizing stack with
  | nil =>
      obtain rfl := Option.some.inj h
      exact List.Perm.refl _
  | cons m ms ih =>
      cases m with
      | push a =>
          have h' : (pushes ms ++ a :: stack).Perm (pops ms ++ out) := ih h
          exact List.perm_middle.symm.trans h'
      | mention a => exact ih h
      | pop a =>
          cases stack with
          | nil => cases h
          | cons b rest =>
              by_cases hb : b = a
              · subst hb
                have h' : nest rest ms = some out := by simpa [nest] using h
                exact List.perm_middle.trans ((ih h').cons b)
              · simp [nest, hb] at h

theorem mem_pops_or_mem {out : List α} {ms : List (Mark α)} (h : nest [] ms = some out) {a : α}
    (ha : a ∈ pushes ms) : a ∈ pops ms ∨ a ∈ out := by
  have hperm := nest_perm h
  rw [List.append_nil] at hperm
  exact List.mem_append.mp (hperm.mem_iff.mp ha)

theorem mem_pushes {out : List α} {ms : List (Mark α)} (h : nest [] ms = some out) {a : α} (ha : a ∈ out) :
    a ∈ pushes ms := by
  have hperm := nest_perm h
  rw [List.append_nil] at hperm
  exact hperm.mem_iff.mpr (List.mem_append_right _ ha)

theorem length_pops {out : List α} {ms : List (Mark α)} (h : nest [] ms = some out) :
    (pops ms).length + out.length = (pushes ms).length := by
  have hlen := (nest_perm h).length_eq
  simpa using hlen.symm

theorem not_mem_pops {out : List α} {ms : List (Mark α)} (h : nest [] ms = some out) (hn : (pushes ms).Nodup)
    {a : α} (ha : a ∈ out) : a ∉ pops ms := by
  have hperm := nest_perm h
  rw [List.append_nil] at hperm
  intro hp
  exact (List.nodup_append.mp (hperm.nodup_iff.mp hn)).2.2 a hp a ha rfl

omit [DecidableEq α] in
theorem Settled.snoc {ms : List (Mark α)} {m : Mark α} (h : Settled ms)
    (hm : ∀ a, m = .mention a → a ∈ pops ms) : Settled (ms ++ [m]) := by
  intro pre a post heq
  rcases List.eq_nil_or_concat post with rfl | ⟨post', last, rfl⟩
  · obtain ⟨hpre, hlast⟩ := List.append_inj' heq rfl
    rw [← hpre]
    exact hm a (List.singleton_inj.mp hlast)
  · rw [List.concat_eq_append, ← List.cons_append, ← List.append_assoc] at heq
    exact h pre a post' (List.append_inj' heq rfl).1

end SysvDev.Nesting
