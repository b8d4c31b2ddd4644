import Mathlib.Data.List.Cycle
import Mathlib.Logic.Function.Basic

namespace SysvDev.LinkedRing

open Function

variable {A ι : Type}

structure Links (A : Type) where
  next : A → A
  prev : A → A

def Links.Joined (k : Links A) (a b : A) : Prop := k.next a = b ∧ k.prev b = a

def Links.flip (k : Links A) : Links A := ⟨k.prev, k.next⟩

variable {k k' : Links A} {a b e p : A} {l : List A}

section Chain

/-- A chain goes by the `next` of all nodes but the last and the `prev` of all
but the first. -/
theorem isChain_of_agree (h : (a :: (l ++ [b])).IsChain k.Joined) (hnext : ∀ x ∈ a :: l, k'.next x = k.next x)
    (hprev : ∀ y ∈ l ++ [b], k'.prev y = k.prev y) : (a :: (l ++ [b])).IsChain k'.Joined := by
  have hjoin {x y : A} (hx : k'.next x = k.next x) (hy : k'.prev y = k.prev y) (hxy : k.Joined x y) : k'.Joined x y :=
    ⟨hx.trans hxy.1, hy.trans hxy.2⟩
  induction l generalizing a with
  | nil =>
      simp only [List.nil_append, List.isChain_pair] at h ⊢
      exact hjoin (hnext a (by simp)) (hprev b (by simp)) h
  | cons x l ih =>
      simp only [List.cons_append, List.isChain_cons_cons] at h ⊢
      refine ⟨hjoin (hnext a (by simp)) (hprev x (by simp)) h.1, ih h.2 ?_ ?_⟩
      · exact fun y hy => hnext y (List.mem_cons_of_mem a hy)
      · exact fun y hy => hprev y (List.mem_cons_of_mem x hy)

theorem isChain_flip (h : (a :: (l ++ [b])).IsChain k.Joined) :
    (b :: (l.reverse ++ [a])).IsChain k.flip.Joined := by
  have hreverse : b :: (l.reverse ++ [a]) = (a :: (l ++ [b])).reverse := by simp
  rw [hreverse, List.isChain_reverse]
  exact h.imp fun _ _ hjoined => ⟨hjoined.2, hjoined.1⟩

theorem chain_of_agree {c : Cycle A} (h : c.Chain k.Joined) (hagree : ∀ x ∈ c, k'.next x = k.next x ∧ k'.prev x = k.prev x) :
    c.Chain k'.Joined := by
  induction c with
  | nil => trivial
  | cons a l =>
      rw [Cycle.chain_coe_cons] at h ⊢
      have hagree' (x : A) (hx : x ∈ a :: l) := hagree x (Cycle.mem_coe_iff.mpr hx)
      refine isChain_of_agree h (fun x hx => (hagree' x hx).1) fun y hy => (hagree' y ?_).2
      simpa [or_comm] using hy

end Chain

/-- Disjoint rings, each in the order of `next`. -/
structure Rings (k : Links A) (rings : ι → Cycle A) : Prop where
  joined : ∀ i, (rings i).Chain k.Joined
  nodup : ∀ i, (rings i).Nodup
  disjoint : ∀ i j a, a ∈ rings i → a ∈ rings j → i = j

variable {rings : ι → Cycle A} {i : ι}

theorem Rings.of_agree (h : Rings k rings)
    (hagree : ∀ i, ∀ a ∈ rings i, k'.next a = k.next a ∧ k'.prev a = k.prev a) : Rings k' rings :=
  ⟨fun i => chain_of_agree (h.joined i) (hagree i), h.nodup, h.disjoint⟩

theorem joined_next (h : (a :: l : Cycle A).Chain k.Joined) : k.Joined a (k.next a) := by
  rw [Cycle.chain_coe_cons] at h
  cases l with
  | nil =>
      have hjoined := List.isChain_pair.mp h
      rwa [hjoined.1]
  | cons q l =>
      have hjoined := (List.isChain_cons_cons.mp h).1
      rwa [hjoined.1]

theorem next_mem (h : (a :: l : Cycle A).Chain k.Joined) : k.next a ∈ a :: l := by
  rw [Cycle.chain_coe_cons] at h
  cases l with
  | nil =>
      simp only [List.nil_append, List.isChain_pair] at h
      simp [h.1]
  | cons q l =>
      simp only [List.cons_append, List.isChain_cons_cons] at h
      simp [h.1.1]

theorem prev_mem (h : (a :: l : Cycle A).Chain k.Joined) : k.prev a ∈ a :: l := by
  have hflip : (a :: l.reverse : Cycle A).Chain k.flip.Joined := isChain_flip h
  simpa [Links.flip] using next_mem hflip

section Update

variable [DecidableEq ι]

theorem Rings.update (h : Rings k rings) {c : Cycle A} (hjoined : c.Chain k'.Joined) (hnodup : c.Nodup)
    (hfresh : ∀ j, j ≠ i → ∀ a ∈ c, a ∉ rings j)
    (hagree : ∀ j, j ≠ i → ∀ a ∈ rings j, k'.next a = k.next a ∧ k'.prev a = k.prev a) :
    Rings k' (update rings i c) where
  joined j := by
    by_cases hj : j = i
    · rwa [hj, update_self]
    · rw [update_of_ne hj]
      exact chain_of_agree (h.joined j) (hagree j hj)
  nodup j := by
    by_cases hj : j = i
    · rwa [hj, update_self]
    · rw [update_of_ne hj]
      exact h.nodup j
  disjoint j j' a hj hj' := by
    by_cases hi : j = i <;> by_cases hi' : j' = i
    · rw [hi, hi']
    · rw [hi, update_self] at hj
      rw [update_of_ne hi'] at hj'
      exact absurd hj' (hfresh j' hi' a hj)
    · rw [hi', update_self] at hj'
      rw [update_of_ne hi] at hj
      exact absurd hj (hfresh j hi a hj')
    · rw [update_of_ne hi] at hj
      rw [update_of_ne hi'] at hj'
      exact h.disjoint j j' a hj hj'

end Update

variable [DecidableEq A]

def Links.insert (k : Links A) (e p : A) : Links A :=
  ⟨update (update k.next e (k.next p)) p e, update (update k.prev e p) (k.next p) e⟩

def Links.delete (k : Links A) (e : A) : Links A :=
  ⟨update k.next (k.prev e) (k.next e), update k.prev (k.next e) (k.prev e)⟩

theorem insert_agree (ha : a ≠ p) (hae : a ≠ e) : (k.insert e p).next a = k.next a := by
  simp only [Links.insert, update_of_ne ha, update_of_ne hae]

theorem insert_agree_prev (ha : a ≠ k.next p) (hae : a ≠ e) : (k.insert e p).prev a = k.prev a := by
  simp only [Links.insert, update_of_ne ha, update_of_ne hae]

theorem joined_insert (hep : e ≠ p) (heq : e ≠ k.next p) :
    (k.insert e p).Joined p e ∧ (k.insert e p).Joined e (k.next p) := by
  simp [Links.Joined, Links.insert, update_of_ne hep, update_of_ne heq]

theorem chain_insert (h : (p :: l : Cycle A).Chain k.Joined) (hnodup : (p :: l).Nodup) (he : e ∉ p :: l) :
    (p :: e :: l : Cycle A).Chain (k.insert e p).Joined := by
  have hmem := next_mem h
  have hjoined : (k.insert e p).Joined p e ∧ (k.insert e p).Joined e (k.next p) :=
    joined_insert (List.ne_of_not_mem_cons he) fun heq => he (heq ▸ hmem)
  rw [Cycle.chain_coe_cons] at h ⊢
  cases l with
  | nil =>
      have hnext : k.next p = p := by simpa using hmem
      rw [hnext] at hjoined
      simpa using hjoined
  | cons q l =>
      simp only [List.cons_append, List.isChain_cons_cons] at h ⊢
      have hnext : k.next p = q := h.1.1
      rw [hnext] at hjoined
      refine ⟨hjoined.1, hjoined.2, isChain_of_agree h.2 ?_ ?_⟩
      · intro x hx
        apply insert_agree
        · rintro rfl
          exact (List.nodup_cons.mp hnodup).1 hx
        · rintro rfl
          exact he (List.mem_cons_of_mem p hx)
      · intro y hy
        apply insert_agree_prev
        · rintro rfl
          rw [hnext] at hy
          simp only [List.mem_append, List.mem_singleton] at hy
          simp only [List.nodup_cons, List.mem_cons, not_or] at hnodup
          exact hy.elim hnodup.2.1 (Ne.symm hnodup.1.1)
        · rintro rfl
          apply he
          simp only [List.mem_append, List.mem_cons] at hy ⊢
          tauto

theorem chain_delete (h : (e :: l : Cycle A).Chain k.Joined) (hnodup : (e :: l).Nodup) :
    (l : Cycle A).Chain (k.delete e).Joined := by
  rw [Cycle.chain_coe_cons] at h
  cases l with
  | nil => trivial
  | cons q l =>
      simp only [List.cons_append, List.isChain_cons_cons] at h
      have hnext : k.next e = q := h.1.1
      rw [Cycle.chain_coe_cons]
      -- the last node, to which the first one is joined
      induction l using List.reverseRecOn with
      | nil =>
          simp only [List.nil_append, List.isChain_pair] at h ⊢
          have hprev : k.prev e = q := h.2.2
          simp [Links.Joined, Links.delete, hnext, hprev]
      | append_singleton l p =>
          have hlast : (q :: (l ++ [p])).IsChain k.Joined ∧ k.Joined p e := by
            have hsplit := h.2
            rw [List.append_assoc, List.singleton_append, ← List.cons_append, List.isChain_append_cons_cons] at hsplit
            exact ⟨hsplit.1, hsplit.2.1⟩
          have hprev : k.prev e = p := hlast.2.2
          rw [List.append_assoc, List.singleton_append, ← List.cons_append, List.isChain_append_cons_cons]
          refine ⟨isChain_of_agree hlast.1 ?_ ?_, ?_, List.isChain_singleton q⟩
          · intro x hx
            have hne : x ≠ p := by
              have hlist : ((q :: l) ++ [p]).Nodup := (List.nodup_cons.mp hnodup).2
              exact (List.nodup_append.mp hlist).2.2 x hx p (List.mem_singleton_self p)
            simp only [Links.delete, hprev, update_of_ne hne]
          · intro y hy
            have hne : y ≠ q := by
              rintro rfl
              exact (List.nodup_cons.mp (List.nodup_cons.mp hnodup).2).1 hy
            simp only [Links.delete, hnext, update_of_ne hne]
          · simp [Links.Joined, Links.delete, hnext, hprev]

theorem Rings.insert [DecidableEq ι] (h : Rings k rings) (hring : rings i = (p :: l : Cycle A))
    (he : ∀ j, e ∉ rings j) : Rings (k.insert e p) (Function.update rings i (p :: e :: l : Cycle A)) := by
  have hjoined := h.joined i
  have hnodup := h.nodup i
  have hfresh := he i
  rw [hring] at hjoined hnodup hfresh
  rw [Cycle.nodup_coe_iff] at hnodup
  rw [Cycle.mem_coe_iff] at hfresh
  have hother {j : ι} (hj : j ≠ i) {a : A} (ha : a ∈ p :: l) : a ∉ rings j := by
    intro hmem
    exact hj (h.disjoint j i a hmem (by rwa [hring, Cycle.mem_coe_iff]))
  apply h.update (chain_insert hjoined hnodup hfresh)
  · rw [Cycle.nodup_coe_iff]
    simp only [List.nodup_cons, List.mem_cons, not_or] at hnodup hfresh ⊢
    exact ⟨⟨Ne.symm hfresh.1, hnodup.1⟩, hfresh.2, hnodup.2⟩
  · intro j hj a ha
    rw [Cycle.mem_coe_iff] at ha
    simp only [List.mem_cons] at ha
    rcases ha with rfl | rfl | ha
    · exact hother hj (by simp)
    · exact he j
    · exact hother hj (List.mem_cons_of_mem p ha)
  · intro j hj a ha
    have hne {b : A} (hb : b ∈ p :: l) : a ≠ b := by
      rintro rfl
      exact hother hj hb ha
    have hae : a ≠ e := by
      rintro rfl
      exact he j ha
    exact ⟨insert_agree (hne (by simp)) hae, insert_agree_prev (hne (next_mem hjoined)) hae⟩

theorem Rings.delete [DecidableEq ι] (h : Rings k rings) (hring : rings i = (e :: l : Cycle A)) :
    Rings (k.delete e) (Function.update rings i (l : Cycle A)) := by
  have hjoined := h.joined i
  have hnodup := h.nodup i
  rw [hring] at hjoined hnodup
  rw [Cycle.nodup_coe_iff] at hnodup
  have hother {j : ι} (hj : j ≠ i) {a : A} (ha : a ∈ e :: l) : a ∉ rings j := by
    intro hmem
    exact hj (h.disjoint j i a hmem (by rwa [hring, Cycle.mem_coe_iff]))
  apply h.update (chain_delete hjoined hnodup)
  · exact Cycle.nodup_coe_iff.mpr (List.nodup_cons.mp hnodup).2
  · intro j hj a ha
    exact hother hj (List.mem_cons_of_mem e (Cycle.mem_coe_iff.mp ha))
  · intro j hj a ha
    have hne {b : A} (hb : b ∈ e :: l) : a ≠ b := by
      rintro rfl
      exact hother hj hb ha
    exact ⟨update_of_ne (hne (prev_mem hjoined)) _ _, update_of_ne (hne (next_mem hjoined)) _ _⟩

theorem delete_congr (he : k'.next e = k.next e ∧ k'.prev e = k.prev e) (ha : k'.next a = k.next a ∧ k'.prev a = k.prev a) :
    (k'.delete e).next a = (k.delete e).next a ∧ (k'.delete e).prev a = (k.delete e).prev a := by
  simp only [Links.delete, update_apply, he.1, he.2, ha.1, ha.2, and_self]

theorem delete_insert (hep : e ≠ p) (heq : e ≠ k.next p) (hjoined : k.prev (k.next p) = p) (ha : a ≠ e) :
    ((k.insert e p).delete e).next a = k.next a ∧ ((k.insert e p).delete e).prev a = k.prev a := by
  obtain ⟨⟨-, hprev⟩, hnext, -⟩ := joined_insert (k := k) hep heq
  constructor
  · by_cases hp : a = p
    · simp [Links.delete, hprev, hnext, hp]
    · rw [Links.delete, hprev]
      exact (update_of_ne hp _ _).trans (insert_agree hp ha)
  · by_cases hq : a = k.next p
    · simp [Links.delete, hprev, hnext, hq, hjoined]
    · rw [Links.delete, hnext]
      exact (update_of_ne hq _ _).trans (insert_agree_prev hq ha)

end SysvDev.LinkedRing
