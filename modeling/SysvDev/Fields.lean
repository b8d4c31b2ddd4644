import Mathlib.Logic.Function.Basic

namespace SysvDev.Fields

section Records

variable {S T O F V : Type} [DecidableEq F] {field : O → F} {value : O → V} {get : S → F → V} {act : S → O → S}
  {get' : T → F → V} {act' : T → O → T}

/-- Each operation sets its field to its value, and no other field. -/
def Sets (field : O → F) (value : O → V) (get : S → F → V) (act : S → O → S) : Prop :=
  ∀ s o f, get (act s o) f = if field o = f then value o else get s f

theorem Sets.foldl_agree (hs : Sets field value get act) (ht : Sets field value get' act') {s : S} {t : T} {f : F}
    (ops : List O) (h : get s f = get' t f ∨ ∃ o ∈ ops, field o = f) :
    get (ops.foldl act s) f = get' (ops.foldl act' t) f := by
  induction ops generalizing s t with
  | nil =>
      obtain h | ⟨o, ho, -⟩ := h
      · exact h
      · cases ho
  | cons o ops ih =>
      apply ih
      rw [hs, ht]
      by_cases ho : field o = f
      · simp [ho]
      · rw [if_neg ho, if_neg ho]
        obtain h | ⟨o', hmem, hfield⟩ := h
        · exact .inl h
        · obtain rfl | hmem := List.mem_cons.mp hmem
          · exact absurd hfield ho
          · exact .inr ⟨o', hmem, hfield⟩

variable {N : Type} [DecidableEq N]

def actOn (act : S → O → S) (σ : N → S) (o : N × O) : N → S := Function.update σ o.1 (act (σ o.1) o.2)

theorem Sets.pointwise (hs : Sets field value get act) :
    Sets (fun o : N × O => (o.1, field o.2)) (fun o => value o.2) (fun (σ : N → S) f => get (σ f.1) f.2)
      (actOn act) := by
  rintro σ ⟨n, o⟩ ⟨n', f⟩
  by_cases hn : n' = n
  · subst hn
    simp [actOn, hs _ o f]
  · simp [actOn, Function.update_of_ne hn, Ne.symm hn]

end Records

end SysvDev.Fields
