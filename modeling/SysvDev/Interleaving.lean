import Mathlib.Algebra.BigOperators.Group.Finset.Basic
import Mathlib.Algebra.Order.BigOperators.Group.Finset
import Mathlib.Data.Fintype.Card
import Mathlib.Logic.Function.Basic
import Mathlib.Logic.Relation

namespace SysvDev.Interleaving

open Function Relation

variable {T L S : Type} [DecidableEq T]

structure State (T L S : Type) where
  loc : T → L
  shared : S

inductive Step (act : T → L → S → L → S → Prop) : State T L S → State T L S → Prop
  | mk {loc : T → L} {sh sh' : S} {l : L} (t : T) (h : act t (loc t) sh l sh') :
      Step act ⟨loc, sh⟩ ⟨update loc t l, sh'⟩

/-- The interleavings whose states all have the property `P`. -/
def Run (act : T → L → S → L → S → Prop) (P : State T L S → Prop) : State T L S → State T L S → Prop :=
  ReflTransGen fun s s' => P s ∧ Step act s s' ∧ P s'

variable {act : T → L → S → L → S → Prop} {P I : State T L S → Prop} {s s' : State T L S}

theorem Run.invariant (h : Run act P s s') (hinit : I s)
    (hact : ∀ t loc sh l sh', I ⟨loc, sh⟩ → P ⟨loc, sh⟩ → P ⟨update loc t l, sh'⟩ → act t (loc t) sh l sh' →
      I ⟨update loc t l, sh'⟩) : I s' := by
  induction h with
  | refl => exact hinit
  | tail _ hstep ih =>
      obtain ⟨hP, ⟨t, h⟩, hP'⟩ := hstep
      exact hact t _ _ _ _ ih hP hP' h

theorem Run.strengthen {Q : State T L S → Prop} (h : Run act P s s') (hinit : I s)
    (hact : ∀ t loc sh l sh', I ⟨loc, sh⟩ → P ⟨loc, sh⟩ → P ⟨update loc t l, sh'⟩ → act t (loc t) sh l sh' →
      I ⟨update loc t l, sh'⟩) (hQ : ∀ s, I s → P s → Q s) : Run act Q s s' := by
  induction h with
  | refl => exact ReflTransGen.refl
  | tail hrun hstep ih =>
      have hI := Run.invariant hrun hinit hact
      have hI' := Run.invariant (ReflTransGen.tail hrun hstep) hinit hact
      exact ReflTransGen.tail ih ⟨hQ _ hI hstep.1, hstep.2.1, hQ _ hI' hstep.2.2⟩

theorem Run.last (h : Run act P s s') (hP : P s) : P s' := h.invariant hP fun _ _ _ _ _ _ _ hP' _ => hP'

theorem Run.next {loc : T → L} {sh sh' : S} {l : L} (h : Run act P s ⟨loc, sh⟩) (hP : ∀ s, P s) (t : T)
    (hact : act t (loc t) sh l sh') : Run act P s ⟨update loc t l, sh'⟩ :=
  ReflTransGen.tail h ⟨hP _, ⟨t, hact⟩, hP _⟩

section Local

variable {loc : T → L} {t : T} {l : L}

theorem forall_update {Q : T → L → Prop} (ht : Q t l) (hother : ∀ u, u ≠ t → Q u (loc u)) (u : T) :
    Q u (update loc t l u) := by
  by_cases hu : u = t
  · rw [hu, update_self]
    exact ht
  · rw [update_of_ne hu]
    exact hother u hu

theorem exists_update {q : L → Prop} (h : q l ∨ ∃ u, u ≠ t ∧ q (loc u)) : ∃ u, q (update loc t l u) := by
  obtain h | ⟨u, hu, h⟩ := h
  · exact ⟨t, by rwa [update_self]⟩
  · exact ⟨u, by rwa [update_of_ne hu]⟩

theorem exists_update_of_exists {q : L → Prop} (h : ∃ u, q (loc u)) (hkeep : q (loc t) → q l) :
    ∃ u, q (update loc t l u) := by
  obtain ⟨u, hu⟩ := h
  apply exists_update
  by_cases hut : u = t
  · rw [hut] at hu
    exact Or.inl (hkeep hu)
  · exact Or.inr ⟨u, hut, hu⟩

end Local

section Count

variable [Fintype T] {loc : T → L} {t : T} {l : L} {q : L → Prop} [DecidablePred q]

def count (q : L → Prop) [DecidablePred q] (loc : T → L) : Nat := (Finset.univ.filter fun u => q (loc u)).card

omit [DecidableEq T] in
theorem count_pos : 0 < count q loc ↔ ∃ u, q (loc u) := by
  rw [count, Finset.card_pos]
  simp [Finset.Nonempty]

omit [DecidableEq T] in
theorem count_le_card : count q loc ≤ Fintype.card T := Finset.card_filter_le _ _

omit [DecidableEq T] in
theorem count_mono {q' : L → Prop} [DecidablePred q'] (h : ∀ l, q l → q' l) : count q loc ≤ count q' loc :=
  Finset.card_le_card (Finset.monotone_filter_right _ fun u _ hu => h (loc u) hu)

theorem filter_update : (Finset.univ.filter fun u => q (update loc t l u)) =
    if q l then insert t (Finset.univ.filter fun u => q (loc u)) else (Finset.univ.filter fun u => q (loc u)).erase t := by
  ext u
  by_cases hu : u = t
  · subst hu
    split <;> simp_all
  · split <;> simp [hu]

theorem count_update_same (h : q l ↔ q (loc t)) : count q (update loc t l) = count q loc := by
  rw [count, filter_update]
  split
  · rw [Finset.insert_eq_of_mem (by simp_all)]
    rfl
  · rw [Finset.erase_eq_of_notMem (by simp_all)]
    rfl

theorem count_update_in (h : q l) (hnot : ¬ q (loc t)) : count q (update loc t l) = count q loc + 1 := by
  rw [count, filter_update, if_pos h, Finset.card_insert_of_notMem (by simp [hnot])]
  rfl

theorem count_update_out (h : ¬ q l) (hin : q (loc t)) : count q (update loc t l) + 1 = count q loc := by
  rw [count, filter_update, if_neg h]
  exact Finset.card_erase_add_one (by simp [hin])

end Count

section Total

variable [Fintype T] {loc : T → L} {t : T} {l : L} {f : L → Nat}

theorem sum_update (g : T → L → Nat) (loc : T → L) (t : T) (l : L) :
    (∑ u, g u (update loc t l u)) + g t (loc t) = (∑ u, g u (loc u)) + g t l := by
  have hsame : ∑ u ∈ Finset.univ.erase t, g u (update loc t l u) = ∑ u ∈ Finset.univ.erase t, g u (loc u) :=
    Finset.sum_congr rfl fun u hu => by rw [update_of_ne (Finset.ne_of_mem_erase hu)]
  rw [← Finset.add_sum_erase _ _ (Finset.mem_univ t), ← Finset.add_sum_erase _ (fun u => g u (loc u)) (Finset.mem_univ t),
    hsame, update_self]
  omega

def total (f : L → Nat) (loc : T → L) : Nat := ∑ u, f (loc u)

theorem total_update : total f (update loc t l) + f (loc t) = total f loc + f l := sum_update (fun _ => f) loc t l

omit [DecidableEq T] in
theorem le_total (t : T) : f (loc t) ≤ total f loc :=
  Finset.single_le_sum (f := fun u => f (loc u)) (fun _ _ => Nat.zero_le _) (Finset.mem_univ t)

end Total

section Mutex

variable {holds : L → Prop} {owner : S → Option T}

/-- A mutex: only its owner is where a thread holds it. -/
def Owned (holds : L → Prop) (owner : S → Option T) (s : State T L S) : Prop :=
  ∀ t, holds (s.loc t) → owner s.shared = some t

/-- A thread enters a mutex that is free, leaves one that it holds, or does not
touch it. -/
def Guarded (holds : L → Prop) (owner : S → Option T) (t : T) (l : L) (sh : S) (l' : L) (sh' : S) : Prop :=
  (owner sh' = owner sh ∧ (holds l' → holds l)) ∨ (owner sh = none ∧ owner sh' = some t) ∨ (holds l ∧ ¬ holds l')

omit [DecidableEq T] in
theorem Owned.unique (h : Owned holds owner s) {t u : T} (ht : holds (s.loc t)) (hu : holds (s.loc u)) : t = u :=
  Option.some.inj ((h t ht).symm.trans (h u hu))

theorem Owned.step {loc : T → L} {sh sh' : S} {t : T} {l : L} (h : Owned holds owner ⟨loc, sh⟩)
    (hact : Guarded holds owner t (loc t) sh l sh') : Owned holds owner ⟨update loc t l, sh'⟩ := by
  obtain ⟨howner, hkeep⟩ | ⟨hfree, htaken⟩ | ⟨hheld, hleft⟩ := hact
  · apply forall_update (Q := fun u l => holds l → owner sh' = some u)
    · intro hl
      rw [howner]
      exact h t (hkeep hl)
    · intro u _ hu
      rw [howner]
      exact h u hu
  · apply forall_update (Q := fun u l => holds l → owner sh' = some u)
    · exact fun _ => htaken
    · intro u _ hu
      rw [h u hu] at hfree
      cases hfree
  · apply forall_update (Q := fun u l => holds l → owner sh' = some u)
    · exact fun hl => absurd hl hleft
    · intro u hne hu
      exact absurd (h.unique hu hheld) hne

end Mutex

section Claim

variable {free : S → Prop} {holds : L → Prop} {loc : T → L} {sh sh' : S} {t : T} {l : L}

/-- The shared state tells whether some thread holds, and at most one does. -/
structure Claimed (free : S → Prop) (holds : L → Prop) (s : State T L S) : Prop where
  free_iff : free s.shared ↔ ∀ t, ¬ holds (s.loc t)
  unique : ∀ t u, holds (s.loc t) → holds (s.loc u) → t = u

theorem Claimed.keep (h : Claimed free holds ⟨loc, sh⟩) (hfree : free sh' ↔ free sh) (hholds : holds l ↔ holds (loc t)) :
    Claimed free holds ⟨update loc t l, sh'⟩ := by
  have hiff (u : T) : holds (update loc t l u) ↔ holds (loc u) :=
    forall_update (Q := fun u l => holds l ↔ holds (loc u)) hholds (fun _ _ => Iff.rfl) u
  constructor
  · simp only [hfree, hiff, h.free_iff]
  · simp only [hiff]
    exact h.unique

theorem Claimed.acquire (h : Claimed free holds ⟨loc, sh⟩) (hfree : free sh) (htaken : ¬ free sh') (hholds : holds l) :
    Claimed free holds ⟨update loc t l, sh'⟩ := by
  have hnone := h.free_iff.mp hfree
  have honly (u : T) (hu : holds (update loc t l u)) : u = t := by
    by_contra hne
    rw [update_of_ne hne] at hu
    exact hnone u hu
  constructor
  · refine iff_of_false htaken fun hall => hall t ?_
    simpa using hholds
  · exact fun u v hu hv => (honly u hu).trans (honly v hv).symm

theorem Claimed.release (h : Claimed free holds ⟨loc, sh⟩) (hheld : holds (loc t)) (hfree : free sh') (hleft : ¬ holds l) :
    Claimed free holds ⟨update loc t l, sh'⟩ := by
  have hnone : ∀ u, ¬ holds (update loc t l u) :=
    forall_update (Q := fun _ l => ¬ holds l) hleft fun u hne hu => hne (h.unique u t hu hheld)
  exact ⟨iff_of_true hfree hnone, fun u _ hu => absurd hu (hnone u)⟩

end Claim

section Locks

variable {K : Type} [DecidableEq K] {held : L → List K} {locked : S → K → Bool} {p : K → Prop}

/-- A family of locks. Those with the property `p` are set as long as some
thread holds them, and no two threads hold one. -/
structure Exclusive (held : L → List K) (locked : S → K → Bool) (p : K → Prop) (s : State T L S) : Prop where
  locked : ∀ t, ∀ k ∈ held (s.loc t), p k → locked s.shared k = true
  once : ∀ t k, p k → (held (s.loc t)).count k ≤ 1
  unique : ∀ t u k, p k → k ∈ held (s.loc t) → k ∈ held (s.loc u) → t = u

/-- A step keeps or forgets a lock it has, takes one that is free, or gives up
one that it holds. -/
def Handles (held : L → List K) (locked : S → K → Bool) (p : K → Prop) (l : L) (sh : S) (l' : L) (sh' : S) : Prop :=
  ∀ k, p k → (locked sh' k = locked sh k ∧ (held l').count k ≤ (held l).count k) ∨
    (locked sh k = false ∧ locked sh' k = true ∧ (held l').count k ≤ 1) ∨ (k ∈ held l ∧ k ∉ held l')

section Handling

variable {l l' : L} {sh sh' : S} {k : K}

omit [DecidableEq T] in
theorem Exclusive.not_mem {t : T} (h : Exclusive held locked p s) (hp : p k) (hfree : locked s.shared k = false) :
    k ∉ held (s.loc t) :=
  fun hk => Bool.false_ne_true (hfree.symm.trans (h.locked t k hk hp))

theorem Handles.keep (hlocked : locked sh' = locked sh) (hheld : (held l').Perm (held l)) :
    Handles held locked p l sh l' sh' :=
  fun k _ => .inl ⟨by rw [hlocked], (hheld.count_eq k).le⟩

theorem Handles.take (hfree : locked sh k = false) (hlocked : locked sh' = update (locked sh) k true)
    (hfresh : k ∉ held l) (hheld : (held l').Perm (k :: held l)) : Handles held locked p l sh l' sh' := by
  intro j _
  rw [hlocked, hheld.count_eq]
  by_cases hj : j = k
  · subst hj
    rw [List.count_cons_self, List.count_eq_zero.mpr hfresh, update_self]
    exact .inr (.inl ⟨hfree, rfl, le_rfl⟩)
  · exact .inl ⟨update_of_ne hj _ _, (List.count_cons_of_ne (Ne.symm hj)).le⟩

theorem Handles.give (hlocked : locked sh' = update (locked sh) k false) (honce : (held l).count k ≤ 1)
    (hheld : (held l).Perm (k :: held l')) : Handles held locked p l sh l' sh' := by
  intro j _
  by_cases hj : j = k
  · subst hj
    rw [hheld.count_eq, List.count_cons_self] at honce
    exact .inr (.inr ⟨hheld.mem_iff.mpr List.mem_cons_self, List.count_eq_zero.mp (by omega)⟩)
  · rw [hlocked, hheld.count_eq, update_of_ne hj]
    exact .inl ⟨rfl, List.count_le_count_cons⟩

end Handling

theorem Exclusive.step {loc : T → L} {sh sh' : S} {t : T} {l : L} (h : Exclusive held locked p ⟨loc, sh⟩)
    (hact : Handles held locked p (loc t) sh l sh') : Exclusive held locked p ⟨update loc t l, sh'⟩ := by
  have hmem {k : K} (hp : p k) (hk : k ∈ held l) : locked sh' k = true ∧
      ∀ u, u ≠ t → k ∉ held (loc u) := by
    rcases hact k hp with ⟨hsame, hle⟩ | ⟨hfree, htaken, -⟩ | ⟨-, hleft⟩
    · have hold : k ∈ held (loc t) := List.count_pos_iff.mp ((List.count_pos_iff.mpr hk).trans_le hle)
      exact ⟨hsame.trans (h.locked t k hold hp), fun u hne hu => hne (h.unique u t k hp hu hold)⟩
    · refine ⟨htaken, fun u _ hu => ?_⟩
      exact absurd (h.locked u k hu hp) (by rw [hfree]; exact Bool.false_ne_true)
    · exact absurd hk hleft
  have hother {u : T} (hne : u ≠ t) {k : K} (hp : p k) (hk : k ∈ held (loc u)) : locked sh' k = true := by
    rcases hact k hp with ⟨hsame, -⟩ | ⟨-, htaken, -⟩ | ⟨hheld, -⟩
    · exact hsame.trans (h.locked u k hk hp)
    · exact htaken
    · exact absurd (h.unique u t k hp hk hheld) hne
  refine ⟨?_, ?_, ?_⟩
  · apply forall_update (Q := fun u l => ∀ k ∈ held l, p k → locked sh' k = true)
    · exact fun k hk hp => (hmem hp hk).1
    · exact fun u hne k hk hp => hother hne hp hk
  · apply forall_update (Q := fun u l => ∀ k, p k → (held l).count k ≤ 1)
    · intro k hp
      rcases hact k hp with ⟨-, hle⟩ | ⟨-, -, hle⟩ | ⟨-, hleft⟩
      · exact hle.trans (h.once t k hp)
      · exact hle
      · rw [List.count_eq_zero.mpr hleft]
        exact Nat.zero_le 1
    · exact fun u _ => h.once u
  · intro u v k hp hu hv
    simp only [update_apply] at hu hv
    split at hu <;> split at hv
    next hut hvt => exact hut.trans hvt.symm
    next hut hvt => exact absurd hv ((hmem hp hu).2 v hvt)
    next hut hvt => exact absurd hu ((hmem hp hv).2 u hut)
    next => exact h.unique u v k hp hu hv

end Locks

/-- The addresses of two threads, a page apart. -/
def twoThreads (t : Bool) : BitVec 64 := if t then 0x2000#64 else 0x1000#64

end SysvDev.Interleaving
