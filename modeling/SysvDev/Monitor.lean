import Mathlib.Data.Finset.Basic
import SysvDev.Interleaving

namespace SysvDev.Monitor

open Function Interleaving

/-- What a routine does with the mutex: it waits while `blocked`, and its body
leaves new data and says whether all who wait are woken. -/
structure Routine (S : Type) where
  blocked : S → Bool
  body : S → S × Bool

/-- The routines that the threads call, those a thread may call with what it
holds, and what it holds afterwards. -/
structure Protocol (T C H S : Type) where
  routine : T → C → Routine S
  may : H → C → Prop
  after : H → C → H

inductive Point (C : Type)
  | out
  | mutexEnter (c : C)
  /-- The test of the loop. -/
  | loop (c : C)
  | cvWait (c : C)
  | cvBroadcast
  | mutexExit

structure Thread (C H : Type) where
  point : Point C
  held : H

structure Shared (T S : Type) where
  mutex : Option T
  /-- The threads that have blocked since the last broadcast. -/
  waiters : Finset T
  data : S

variable {T C H S : Type} [DecidableEq T]

inductive Act (p : Protocol T C H S) (t : T) : Thread C H → Shared T S → Thread C H → Shared T S → Prop
  | call {h : H} {c : C} {sh : Shared T S} (hmay : p.may h c) : Act p t ⟨.out, h⟩ sh ⟨.mutexEnter c, h⟩ sh
  | mutexEnter {h : H} {c : C} {sh : Shared T S} (hfree : sh.mutex = none) :
      Act p t ⟨.mutexEnter c, h⟩ sh ⟨.loop c, h⟩ { sh with mutex := some t }
  -- cv_wait gives up the mutex as it blocks, and takes it again after a broadcast
  | cvWait {h : H} {c : C} {sh : Shared T S} (hblocked : (p.routine t c).blocked sh.data = true) :
      Act p t ⟨.loop c, h⟩ sh ⟨.cvWait c, h⟩ { sh with mutex := none, waiters := insert t sh.waiters }
  | woken {h : H} {c : C} {sh : Shared T S} (hwoken : t ∉ sh.waiters) (hfree : sh.mutex = none) :
      Act p t ⟨.cvWait c, h⟩ sh ⟨.loop c, h⟩ { sh with mutex := some t }
  | body {h : H} {c : C} {sh : Shared T S} (hpass : (p.routine t c).blocked sh.data = false)
      (hquiet : ((p.routine t c).body sh.data).2 = false) :
      Act p t ⟨.loop c, h⟩ sh ⟨.mutexExit, p.after h c⟩ { sh with data := ((p.routine t c).body sh.data).1 }
  | bodyBroadcast {h : H} {c : C} {sh : Shared T S} (hpass : (p.routine t c).blocked sh.data = false)
      (hwakes : ((p.routine t c).body sh.data).2 = true) :
      Act p t ⟨.loop c, h⟩ sh ⟨.cvBroadcast, p.after h c⟩ { sh with data := ((p.routine t c).body sh.data).1 }
  | cvBroadcast {h : H} {sh : Shared T S} : Act p t ⟨.cvBroadcast, h⟩ sh ⟨.mutexExit, h⟩ { sh with waiters := ∅ }
  | mutexExit {h : H} {sh : Shared T S} : Act p t ⟨.mutexExit, h⟩ sh ⟨.out, h⟩ { sh with mutex := none }

def initial (T C : Type) {H S : Type} (h : H) (x : S) : State T (Thread C H) (Shared T S) :=
  ⟨fun _ => ⟨.out, h⟩, ⟨none, ∅, x⟩⟩

def holds (s : State T (Thread C H) (Shared T S)) : T → H := fun t => (s.loc t).held

/-- The states that threads come to by calls that they may make, as long as what
they hold has the property `P`. -/
def Reached (p : Protocol T C H S) (P : (T → H) → Prop) (h : H) (x : S) :
    State T (Thread C H) (Shared T S) → Prop :=
  Run (Act p) (fun s => P (holds s)) (initial T C h x)

namespace Thread

def HasMutex (l : Thread C H) : Prop :=
  match l.point with
  | .loop _ | .cvBroadcast | .mutexExit => True
  | _ => False

theorem hasMutex_of_cvBroadcast {l : Thread C H} (h : l.point = .cvBroadcast) : l.HasMutex := by
  rw [HasMutex, h]
  trivial

def Calls (l : Thread C H) (c : C) : Prop := l.point = .mutexEnter c ∨ l.point = .loop c ∨ l.point = .cvWait c

end Thread

variable {p : Protocol T C H S} {P : (T → H) → Prop} {I : (T → H) → S → Prop} {h₀ : H} {x₀ : S} {t : T}
  {l l' : Thread C H} {sh sh' : Shared T S} {s : State T (Thread C H) (Shared T S)}

theorem act_guarded (h : Act p t l sh l' sh') : Guarded Thread.HasMutex Shared.mutex t l sh l' sh' := by
  cases h with
  | call => exact .inl ⟨rfl, fun hl => hl.elim⟩
  | mutexEnter hfree | woken _ hfree => exact .inr (.inl ⟨hfree, rfl⟩)
  | cvWait | mutexExit => exact .inr (.inr ⟨trivial, fun hl => hl.elim⟩)
  | body | bodyBroadcast | cvBroadcast => exact .inl ⟨rfl, fun _ => trivial⟩

theorem act_data (h : Act p t l sh l' sh') :
    (l'.held = l.held ∧ sh'.data = sh.data) ∨
      ∃ c, l.Calls c ∧ (p.routine t c).blocked sh.data = false ∧ l'.held = p.after l.held c ∧
        sh'.data = ((p.routine t c).body sh.data).1 ∧
        ((((p.routine t c).body sh.data).2 = false ∧ sh'.waiters = sh.waiters) ∨ l'.point = .cvBroadcast) := by
  cases h with
  | body hpass hquiet => exact .inr ⟨_, .inr (.inl rfl), hpass, rfl, rfl, .inl ⟨hquiet, rfl⟩⟩
  | bodyBroadcast hpass _ => exact .inr ⟨_, .inr (.inl rfl), hpass, rfl, rfl, .inr rfl⟩
  | _ => exact .inl ⟨rfl, rfl⟩

theorem act_calls {c : C} (h : Act p t l sh l' sh') (hc : l'.Calls c) :
    l'.held = l.held ∧ (l.Calls c ∨ p.may l.held c) := by
  cases h <;> simp_all [Thread.Calls]

/-- What is true of the data in all states: the mutex, the calls and `I`. -/
structure Holds (p : Protocol T C H S) (I : (T → H) → S → Prop) (s : State T (Thread C H) (Shared T S)) : Prop where
  owned : Owned Thread.HasMutex Shared.mutex s
  may : ∀ t c, (s.loc t).Calls c → p.may (s.loc t).held c
  data : I (holds s) s.shared.data

/-- A property of the data and of what the threads hold that the bodies keep. -/
def Kept (p : Protocol T C H S) (P : (T → H) → Prop) (I : (T → H) → S → Prop) : Prop :=
  ∀ held t c x, I held x → P held → P (update held t (p.after (held t) c)) → p.may (held t) c →
    (p.routine t c).blocked x = false → I (update held t (p.after (held t) c)) ((p.routine t c).body x).1

theorem holds_update (loc : T → Thread C H) :
    (fun u => (update loc t l u).held) = update (fun u => (loc u).held) t l.held := by
  funext u
  by_cases hu : u = t
  · rw [hu, update_self, update_self]
  · rw [update_of_ne hu, update_of_ne hu]

theorem holds_act {loc : T → Thread C H} (hkept : Kept p P I) (hI : Holds p I ⟨loc, sh⟩) (hP : P (holds ⟨loc, sh⟩))
    (hP' : P (holds ⟨update loc t l', sh'⟩)) (h : Act p t (loc t) sh l' sh') : Holds p I ⟨update loc t l', sh'⟩ where
  owned := hI.owned.step (act_guarded h)
  may := by
    apply forall_update (Q := fun _ (l : Thread C H) => ∀ c, l.Calls c → p.may l.held c)
    · intro c hc
      obtain ⟨hheld, hold | hnew⟩ := act_calls h hc
      · rw [hheld]
        exact hI.may t c hold
      · rwa [hheld]
    · exact fun u _ => hI.may u
  data := by
    unfold holds at hP hP' ⊢
    rw [holds_update] at hP' ⊢
    obtain ⟨hheld, hdata⟩ | ⟨c, hc, hpass, hheld, hdata, -⟩ := act_data h
    · have hsame : update (fun u => (loc u).held) t l'.held = fun u => (loc u).held := by
        rw [hheld]
        exact update_eq_self t _
      rw [hdata, hsame]
      exact hI.data
    · rw [hdata, hheld]
      rw [hheld] at hP'
      exact hkept _ t c _ hI.data hP hP' (hI.may t c hc) hpass

omit [DecidableEq T] in
theorem holds_initial (hI : I (fun _ => h₀) x₀) : Holds p I (initial T C h₀ x₀) where
  owned := fun _ h => h.elim
  may := by
    rintro t c (h | h | h) <;> cases h
  data := hI

theorem Reached.holds (h : Reached p P h₀ x₀ s) (hkept : Kept p P I) (hI : I (fun _ => h₀) x₀) : Holds p I s :=
  Run.invariant h (holds_initial hI) fun _ _ _ _ _ hI hP hP' hact => holds_act hkept hI hP hP' hact

section Wakeup

/-- A body that does not wake the others leaves them blocked. -/
def Wakes (p : Protocol T C H S) (P : (T → H) → Prop) (I : (T → H) → S → Prop) : Prop :=
  ∀ held t c x, I held x → P held → P (update held t (p.after (held t) c)) → p.may (held t) c →
    (p.routine t c).blocked x = false → ((p.routine t c).body x).2 = false →
    ∀ u d, u ≠ t → (p.routine u d).blocked x = true → (p.routine u d).blocked ((p.routine t c).body x).1 = true

/-- A thread that has not been woken is in `cv_wait` and still blocked, unless
some thread is about to wake it. -/
structure Asleep (p : Protocol T C H S) (s : State T (Thread C H) (Shared T S)) : Prop where
  waits : ∀ u ∈ s.shared.waiters, ∃ c, (s.loc u).point = .cvWait c
  blocked : ∀ u ∈ s.shared.waiters, ∀ c, (s.loc u).point = .cvWait c →
    (p.routine u c).blocked s.shared.data = true ∨ ∃ t, (s.loc t).point = .cvBroadcast

theorem act_waiters {u : T} (h : Act p t l sh l' sh') (hu : u ∈ sh'.waiters) :
    u ∈ sh.waiters ∨ (u = t ∧ ∃ c, l'.point = .cvWait c ∧ (p.routine t c).blocked sh'.data = true) := by
  cases h with
  | cvWait hblocked =>
      obtain rfl | hu := Finset.mem_insert.mp hu
      · exact .inr ⟨rfl, _, rfl, hblocked⟩
      · exact .inl hu
  | cvBroadcast => exact absurd hu (Finset.notMem_empty u)
  | _ => exact .inl hu

theorem act_of_waits {c : C} (h : Act p t l sh l' sh') (hl : l.point = .cvWait c) : t ∉ sh.waiters := by
  cases h with
  | woken hwoken _ => exact hwoken
  | _ => cases hl

theorem act_broadcast (h : Act p t l sh l' sh') (hl : l.point = .cvBroadcast) : sh'.waiters = ∅ := by
  cases h with
  | cvBroadcast => rfl
  | _ => cases hl

theorem asleep_act {loc : T → Thread C H} (hwakes : Wakes p P I) (hI : Holds p I ⟨loc, sh⟩) (hs : Asleep p ⟨loc, sh⟩)
    (hP : P (holds ⟨loc, sh⟩)) (hP' : P (holds ⟨update loc t l', sh'⟩)) (h : Act p t (loc t) sh l' sh') :
    Asleep p ⟨update loc t l', sh'⟩ := by
  -- a thread that waited before is not the one that acts
  have hne {u : T} (hu : u ∈ sh.waiters) : u ≠ t := by
    rintro rfl
    obtain ⟨c, hc⟩ := hs.waits u hu
    exact act_of_waits h hc hu
  constructor
  · intro u hu
    obtain hold | ⟨rfl, c, hc, -⟩ := act_waiters h hu
    · obtain ⟨c, hc⟩ := hs.waits u hold
      exact ⟨c, by simpa only [update_of_ne (hne hold)] using hc⟩
    · exact ⟨c, by simpa only [update_self] using hc⟩
  · intro u hu d hd
    obtain hold | ⟨rfl, c, hc, hblocked⟩ := act_waiters h hu
    · simp only [update_of_ne (hne hold)] at hd
      obtain hblocked | ⟨v, hv⟩ := hs.blocked u hold d hd
      · obtain ⟨-, hdata⟩ | ⟨c, hc, hpass, hheld, hdata, ⟨hquiet, -⟩ | hb⟩ := act_data h
        · exact .inl (by simpa only [hdata] using hblocked)
        · unfold holds at hP'
          rw [holds_update, hheld] at hP'
          have hstill := hwakes _ t c _ hI.data hP hP' (hI.may t c hc) hpass hquiet u d (hne hold) hblocked
          exact .inl (by simpa only [hdata] using hstill)
        · exact .inr ⟨t, by simpa only [update_self] using hb⟩
      · by_cases hvt : v = t
        · subst hvt
          rw [act_broadcast h hv] at hu
          exact absurd hu (Finset.notMem_empty u)
        · exact .inr ⟨v, by simpa only [update_of_ne hvt] using hv⟩
    · simp only [update_self] at hd
      obtain rfl : c = d := Point.cvWait.inj (hc.symm.trans hd)
      exact .inl hblocked

theorem Reached.asleep (h : Reached p P h₀ x₀ s) (hkept : Kept p P I) (hI : I (fun _ => h₀) x₀) (hwakes : Wakes p P I) :
    Asleep p s := by
  have hboth : Holds p I s ∧ Asleep p s := by
    refine Run.invariant (I := fun s => Holds p I s ∧ Asleep p s) h ⟨holds_initial hI, ?_⟩ ?_
    · constructor <;> exact fun u hu => absurd hu (Finset.notMem_empty u)
    · intro t loc sh l sh' ⟨hH, hA⟩ hP hP' hact
      exact ⟨holds_act hkept hH hP hP' hact, asleep_act hwakes hH hA hP hP' hact⟩
  exact hboth.2

omit [DecidableEq T] in
/-- Nobody sleeps on when the mutex is free and his routine would go on. -/
theorem Asleep.blocked_of_free (hs : Asleep p s) (howned : Owned Thread.HasMutex Shared.mutex s)
    (hfree : s.shared.mutex = none) {u : T} {c : C} (hu : u ∈ s.shared.waiters) (hc : (s.loc u).point = .cvWait c) :
    (p.routine u c).blocked s.shared.data = true := by
  obtain hblocked | ⟨t, ht⟩ := hs.blocked u hu c hc
  · exact hblocked
  · rw [howned t (Thread.hasMutex_of_cvBroadcast ht)] at hfree
    cases hfree

end Wakeup

section Calls

variable {loc : T → Thread C H} {h : H} {c : C} {W : Finset T} {x : S}

theorem Reached.next (hr : Reached p P h₀ x₀ ⟨loc, sh⟩) (hl : loc t = l) (hact : Act p t l sh l' sh')
    (hP : P fun u => (loc u).held) (hP' : P (update (fun u => (loc u).held) t l'.held)) :
    Reached p P h₀ x₀ ⟨update loc t l', sh'⟩ := by
  subst hl
  rw [← holds_update] at hP'
  exact Relation.ReflTransGen.tail hr ⟨hP, ⟨t, hact⟩, hP'⟩

theorem Reached.next_same (hr : Reached p P h₀ x₀ ⟨loc, sh⟩) (hl : loc t = l) (hact : Act p t l sh l' sh')
    (hP : P fun u => (loc u).held) (hsame : l'.held = l.held) :
    Reached p P h₀ x₀ ⟨update loc t l', sh'⟩ ∧ P fun u => (update loc t l' u).held := by
  have hheld : update (fun u => (loc u).held) t l'.held = fun u => (loc u).held := by
    rw [hsame, ← hl]
    exact update_eq_self t _
  rw [holds_update, hheld]
  exact ⟨hr.next hl hact hP (by rwa [hheld]), hP⟩

theorem Reached.call (hr : Reached p P h₀ x₀ ⟨loc, ⟨none, W, x⟩⟩) (hl : loc t = ⟨.out, h⟩)
    (hP : P fun u => (loc u).held) (hP' : P (update (fun u => (loc u).held) t (p.after h c)))
    (hmay : p.may h c) (hpass : (p.routine t c).blocked x = false) (hquiet : ((p.routine t c).body x).2 = false) :
    Reached p P h₀ x₀ ⟨update loc t ⟨.out, p.after h c⟩, ⟨none, W, ((p.routine t c).body x).1⟩⟩ := by
  obtain ⟨hcalled, hP₁⟩ := hr.next_same hl (.call hmay) hP rfl
  obtain ⟨hentered, hP₂⟩ := hcalled.next_same (update_self t _ _) (.mutexEnter rfl) hP₁ rfl
  rw [update_idem] at hentered hP₂
  have hafter : update (fun u => (update loc t ⟨.loop c, h⟩ u).held) t (p.after h c) =
      update (fun u => (loc u).held) t (p.after h c) := by
    rw [holds_update, update_idem]
  have hdone := hentered.next (update_self t _ _) (.body hpass hquiet) hP₂ (by rwa [hafter])
  rw [update_idem] at hdone
  have hleft := (hdone.next_same (update_self t _ _) .mutexExit (by rwa [holds_update]) rfl).1
  rwa [update_idem] at hleft

theorem Reached.wait (hr : Reached p P h₀ x₀ ⟨loc, ⟨none, W, x⟩⟩) (hl : loc t = ⟨.out, h⟩)
    (hP : P fun u => (loc u).held) (hmay : p.may h c) (hblocked : (p.routine t c).blocked x = true) :
    Reached p P h₀ x₀ ⟨update loc t ⟨.cvWait c, h⟩, ⟨none, insert t W, x⟩⟩ := by
  obtain ⟨hcalled, hP₁⟩ := hr.next_same hl (.call hmay) hP rfl
  obtain ⟨hentered, hP₂⟩ := hcalled.next_same (update_self t _ _) (.mutexEnter rfl) hP₁ rfl
  have hwaits := (hentered.next_same (update_self t _ _) (.cvWait hblocked) hP₂ rfl).1
  rwa [update_idem, update_idem] at hwaits

end Calls

end SysvDev.Monitor
