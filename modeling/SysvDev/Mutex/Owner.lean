import Mathlib.Data.BitVec
import SysvDev.Mutex.Paths

namespace SysvDev.Mutex.Owner

open Function Interleaving Relation Paths

variable {w : Nat} {T : Type} {ptr : T → BitVec w} {t : T} {l l' : Thread w} {loc : T → Thread w} {x y : BitVec w}

structure Addresses (ptr : T → BitVec w) : Prop where
  injective : Injective ptr
  ne_zero : ∀ t, ptr t ≠ 0#w
  aligned : ∀ t, (ptr t).toNat % 8 = 0

section Word

theorem Addresses.width_pos (h : Addresses ptr) (t : T) : 0 < w := by
  rcases Nat.eq_zero_or_pos w with rfl | hpos
  · exact absurd (BitVec.eq_nil (ptr t)) (h.ne_zero t)
  · exact hpos

theorem Addresses.low_clear (h : Addresses ptr) (t : T) : (ptr t).getLsbD 0 = false := by
  have halign := h.aligned t
  rw [BitVec.getLsbD, Nat.testBit_zero, decide_eq_false_iff_not]
  omega

theorem low_or_waiters (hw : 0 < w) (x : BitVec w) : (x ||| mutexWaiters).getLsbD 0 = true := by
  have hone : (1#w).getLsbD 0 = true := by
    rw [BitVec.getLsbD_one]
    simp [hw]
  rw [mutexWaiters, BitVec.getLsbD_or, hone, Bool.or_true]

theorem Addresses.or_ne_zero (h : Addresses ptr) (t : T) (x : BitVec w) : x ||| mutexWaiters ≠ 0#w := by
  intro hzero
  have hlow := low_or_waiters (h.width_pos t) x
  rw [hzero, BitVec.getLsbD_zero] at hlow
  cases hlow

theorem Addresses.or_ne (h : Addresses ptr) (t : T) (x : BitVec w) : x ||| mutexWaiters ≠ ptr t := by
  intro heq
  have hlow := low_or_waiters (h.width_pos t) x
  rw [heq, h.low_clear t] at hlow
  cases hlow

theorem Addresses.and_waiters (h : Addresses ptr) (t : T) : ptr t &&& mutexWaiters = 0#w := by
  apply BitVec.eq_of_getLsbD_eq
  intro i _
  rw [mutexWaiters, BitVec.getLsbD_and, BitVec.getLsbD_one, BitVec.getLsbD_zero]
  by_cases hi : i = 0
  · rw [hi, h.low_clear t, Bool.false_and]
  · simp [hi]

end Word

/-- The word is zero, or the address of the only owner with or without
`MUTEX_WAITERS`. -/
inductive Owned (ptr : T → BitVec w) (loc : T → Thread w) (x : BitVec w) : Prop
  | free (hnone : ∀ u, (loc u).owns = false) (hx : x = 0#w)
  | owned (t : T) (hall : ∀ u, (loc u).owns = true ↔ u = t) (hx : x = ptr t ∨ x = ptr t ||| mutexWaiters)

def Good (p : BitVec w) (l : Thread w) : Prop :=
  match l.point with
  | .enterCas _ thread | .exitLock thread | .exitCmp thread => thread = p
  | .exitJne zf => zf = true → l.owns = true
  | .exitStore => l.owns = true
  | .setCas old => old ≠ 0#w
  | _ => True

theorem Owned.none_of_zero (h : Owned ptr loc 0#w) (hptr : Addresses ptr) (u : T) : (loc u).owns = false := by
  cases h with
  | free hnone => exact hnone u
  | owned t _ hx =>
      rcases hx with hx | hx
      · exact absurd hx.symm (hptr.ne_zero t)
      · exact absurd hx.symm (hptr.or_ne_zero t _)

/-- The compare of `mutex_exit` finds the address of the thread only if that
is the owner. -/
theorem Owned.owns_of_eq (h : Owned ptr loc (ptr t)) (hptr : Addresses ptr) : (loc t).owns = true := by
  cases h with
  | free _ hx => exact absurd hx (hptr.ne_zero t)
  | owned u hall hx =>
      rcases hx with hx | hx
      · exact (hall t).mpr (hptr.injective hx)
      · exact absurd hx.symm (hptr.or_ne t _)

theorem act_good (h : Act ptr t l x l' y) (hgood : Good (ptr t) l)
    (howns : x = ptr t → l.owns = true) : Good (ptr t) l' := by
  cases h with
  | enterThread | exitThread | exitThread32 => exact rfl
  | exitLock => exact hgood
  | @exitCmp o _ thread =>
      have hthread : thread = ptr t := hgood
      intro hzf
      exact howns ((beq_iff_eq.mp hzf).trans hthread)
  | exitJne => exact hgood rfl
  | setLoad h => exact h
  | _ => exact trivial

theorem restart_good (hgood : Good (ptr t) l) : Good (ptr t) (restart l) := by
  unfold restart
  split
  · exact trivial
  · exact hgood

theorem restart_owns (l : Thread w) : (restart l).owns = l.owns := by
  unfold restart
  split <;> rfl

theorem act_on (h : Act ptr t l x l' y) (hgood : Good (ptr t) l)
    (hon : l.point = .exitJne true ∨ l.point = .exitStore → x = ptr t)
    (hl' : l'.point = .exitJne true ∨ l'.point = .exitStore) : y = ptr t := by
  cases h with
  | @exitCmp o _ thread =>
      have hthread : thread = ptr t := hgood
      have hzf : (x == thread) = true := by simpa using hl'
      exact (beq_iff_eq.mp hzf).trans hthread
  | exitJne => exact hon (.inl rfl)
  | _ => simp at hl'

theorem restart_critical (h : critical (restart l).point = true) : (restart l).point = .exitThread := by
  unfold restart at h ⊢
  split at h
  next hc => rw [if_pos hc]
  next hc => exact absurd h hc

structure Inv (ptr : T → BitVec w) (s : State T (Thread w) (BitVec w)) : Prop where
  good : ∀ t, Good (ptr t) (s.loc t)
  owned : Owned ptr s.loc s.shared

structure Initial (s : State T (Thread w) (BitVec w)) : Prop where
  word : s.shared = 0#w
  away : ∀ t, s.loc t = ⟨.away, false⟩

variable {s₀ s : State T (Thread w) (BitVec w)} {c₀ c : T}

theorem Initial.inv (h : Initial s) : Inv ptr s where
  good t := by
    rw [h.away t]
    exact trivial
  owned := .free (fun u => by rw [h.away u]) h.word

/-- Only the store of `mutex_exit` makes the word zero. -/
theorem Inv.clears (h : Inv ptr s) (hptr : Addresses ptr) (hact : ActOrRestart ptr t (s.loc t) s.shared l' y)
    (hx : s.shared ≠ 0#w) (hy : y = 0#w) : (s.loc t).point = .exitStore ∧ (s.loc t).owns = true := by
  have hgood := h.good t
  rcases hact with hact | ⟨-, rfl⟩
  · generalize hl : s.loc t = l at hact hgood
    generalize s.shared = x at hact hx
    cases hact with
    | exitStore => exact ⟨rfl, hgood⟩
    | setCas => exact absurd hy (hptr.or_ne_zero t _)
    | enterCas | setLoadFree => exact absurd rfl hx
    | _ => exact absurd hy hx
  · exact absurd hy hx

variable [DecidableEq T]

theorem Owned.step (h : Owned ptr loc x) (hptr : Addresses ptr) (hact : Act ptr t (loc t) x l' y)
    (hgood : Good (ptr t) (loc t)) : Owned ptr (update loc t l') y := by
  have hkeep (hsame : l'.owns = (loc t).owns) (hy : y = x ∨ y = x ||| mutexWaiters) (hzero : x = 0#w → y = 0#w) :
      Owned ptr (update loc t l') y := by
    cases h with
    | free hnone hx =>
        refine .free (forall_update (Q := fun _ (l : Thread w) => l.owns = false) ?_ fun u _ => hnone u) (hzero hx)
        exact hsame.trans (hnone t)
    | owned v hall hx =>
        refine .owned v (forall_update (Q := fun u (l : Thread w) => l.owns = true ↔ u = v) ?_ fun u _ => hall u) ?_
        · rw [hsame]
          exact hall t
        · rcases hy with rfl | rfl
          · exact hx
          · rcases hx with rfl | rfl
            · exact .inr rfl
            · exact .inr (by rw [BitVec.or_assoc, BitVec.or_self])
  generalize hl : loc t = l at hact hgood hkeep
  cases hact with
  | enterCas =>
      obtain rfl : y = ptr t := hgood
      refine .owned t (forall_update (Q := fun u (l : Thread w) => l.owns = true ↔ u = t) (by simp) fun u hne => ?_)
        (.inl rfl)
      simp [h.none_of_zero hptr u, hne]
  | exitStore =>
      have howns : (loc t).owns = true := by rw [hl]; exact hgood
      refine .free (forall_update (Q := fun _ (l : Thread w) => l.owns = false) rfl fun u hne => ?_) rfl
      cases h with
      | free hnone => exact hnone u
      | owned v hall =>
          obtain rfl := (hall t).mp howns
          exact Bool.eq_false_of_not_eq_true fun hu => hne ((hall u).mp hu)
  | setCas => exact hkeep rfl (.inr rfl) fun hzero => absurd hzero hgood
  | _ => exact hkeep rfl (.inl rfl) id

theorem Inv.step (h : Inv ptr ⟨loc, x⟩) (hptr : Addresses ptr) (hact : ActOrRestart ptr t (loc t) x l' y) :
    Inv ptr ⟨update loc t l', y⟩ := by
  rcases hact with hact | ⟨rfl, rfl⟩
  · have howns (hx : x = ptr t) : (loc t).owns = true := by
      subst hx
      exact h.owned.owns_of_eq hptr
    exact ⟨forall_update (Q := fun u l => Good (ptr u) l) (act_good hact (h.good t) howns) fun u _ => h.good u,
      h.owned.step hptr hact (h.good t)⟩
  · refine ⟨forall_update (Q := fun u l => Good (ptr u) l) (restart_good (h.good t)) fun u _ => h.good u, ?_⟩
    have hsame (u : T) : (update loc t (restart (loc t)) u).owns = (loc u).owns :=
      forall_update (Q := fun u (l : Thread w) => l.owns = (loc u).owns) (restart_owns _) (fun _ _ => rfl) u
    cases h.owned with
    | free hnone hx => exact .free (fun u => (hsame u).trans (hnone u)) hx
    | owned v hall hx => exact .owned v (fun u => by rw [hsame]; exact hall u) hx

theorem Inv.next {s' : State T (Thread w) (BitVec w)} (h : Inv ptr s) (hptr : Addresses ptr)
    (hstep : Step (ActOrRestart ptr) s s') : Inv ptr s' := by
  obtain ⟨t, hact⟩ := hstep
  exact h.step hptr hact

theorem run_inv (hptr : Addresses ptr) (hinit : Initial s₀) (hrun : Run (ActOrRestart ptr) (fun _ => True) s₀ s) :
    Inv ptr s :=
  hrun.invariant hinit.inv fun _ _ _ _ _ hinv _ _ hact => hinv.step hptr hact

section Uniprocessor

/-- The threads that are off the CPU have no compare behind them, and the one
that is on it has seen the word it is going to overwrite. -/
structure Uninterrupted (ptr : T → BitVec w) (c : T) (s : State T (Thread w) (BitVec w)) : Prop where
  waiting : ∀ u, u ≠ c → critical (s.loc u).point = true → (s.loc u).point = .exitThread
  running : (s.loc c).point = .exitJne true ∨ (s.loc c).point = .exitStore → s.shared = ptr c

theorem Uninterrupted.step {s s' : T × State T (Thread w) (BitVec w)} (h : Uninterrupted ptr s.1 s.2)
    (hinv : Inv ptr s.2) (hstep : UniStep ptr s s') : Uninterrupted ptr s'.1 s'.2 := by
  cases hstep with
  | @act t loc x y l hact =>
      refine ⟨fun u hne hu => ?_, fun hl => ?_⟩
      · simp only [update_of_ne hne] at hu ⊢
        exact h.waiting u hne hu
      · simp only [update_self] at hl
        exact act_on hact (hinv.good t) h.running hl
  | @interrupt t loc x v =>
      have hwaiting (u : T) (hu : critical (update loc t (restart (loc t)) u).point = true) :
          (update loc t (restart (loc t)) u).point = .exitThread := by
        by_cases hut : u = t
        · subst hut
          rw [update_self] at hu ⊢
          exact restart_critical hu
        · rw [update_of_ne hut] at hu ⊢
          exact h.waiting u hut hu
      refine ⟨fun u _ => hwaiting u, fun hv => ?_⟩
      have hcritical : critical (update loc t (restart (loc t)) v).point = true := by
        rcases hv with hv | hv <;> exact congrArg critical hv
      have hthread := hwaiting v hcritical
      rcases hv with hv | hv <;> exact absurd (hthread.symm.trans hv) (by simp)

theorem uniStep_run {s s' : T × State T (Thread w) (BitVec w)} (h : UniStep ptr s s') :
    Step (ActOrRestart ptr) s.2 s'.2 := by
  cases h with
  | act hact => exact ⟨_, .inl hact⟩
  | interrupt => exact ⟨_, .inr ⟨rfl, rfl⟩⟩

theorem uniRun_inv (hptr : Addresses ptr) (hinit : Initial s₀) (hrun : ReflTransGen (UniStep ptr) (c₀, s₀) (c, s)) :
    Inv ptr s ∧ Uninterrupted ptr c s := by
  have hall : ∀ p, ReflTransGen (UniStep ptr) (c₀, s₀) p → Inv ptr p.2 ∧ Uninterrupted ptr p.1 p.2 := by
    intro p hp
    induction hp with
    | refl =>
        refine ⟨hinit.inv, fun u _ hu => ?_, fun hon => ?_⟩
        · simp only [hinit.away u] at hu
          cases hu
        · rw [hinit.away c₀] at hon
          simp at hon
    | tail _ hstep ih =>
        obtain ⟨hinv, hun⟩ := ih
        exact ⟨hinv.next hptr (uniStep_run hstep), hun.step hinv hstep⟩
  exact hall (c, s) hrun

/-- At most one thread owns the mutex, and only the store of the owner in
`mutex_exit` makes the word zero. With one CPU that store never finds
`MUTEX_WAITERS` set. -/
theorem mutex_fast_path (hptr : Addresses ptr) (hinit : Initial s₀) (c₀ c : T) :
    (Run (ActOrRestart ptr) (fun _ => True) s₀ s →
      (∀ t u, (s.loc t).owns = true → (s.loc u).owns = true → t = u) ∧
        ∀ t l' y, ActOrRestart ptr t (s.loc t) s.shared l' y → s.shared ≠ 0#w → y = 0#w →
          (s.loc t).point = .exitStore ∧ (s.loc t).owns = true) ∧
      (ReflTransGen (UniStep ptr) (c₀, s₀) (c, s) → (s.loc c).point = .exitStore →
        s.shared &&& mutexWaiters = 0#w) := by
  constructor
  · intro hrun
    have hinv := run_inv hptr hinit hrun
    refine ⟨fun t u ht hu => ?_, fun t l' y => hinv.clears hptr⟩
    cases hinv.owned with
    | free hnone =>
        rw [hnone t] at ht
        cases ht
    | owned v hall => exact ((hall t).mp ht).trans ((hall u).mp hu).symm
  · intro hrun hstore
    obtain ⟨-, hun⟩ := uniRun_inv hptr hinit hrun
    rw [hun.running (.inr hstore)]
    exact hptr.and_waiters c

theorem addresses_twoThreads : Addresses twoThreads := ⟨by decide, by decide, by decide⟩

def unheld : State Bool (Thread 64) (BitVec 64) := ⟨fun _ => ⟨.away, false⟩, 0#64⟩

/-- A thread has entered the mutex and is about to leave it. -/
theorem mutex_fast_path_leaving : ∃ s, ReflTransGen (UniStep twoThreads) (false, unheld) (false, s) ∧
    (s.loc false).point = .exitStore ∧ s.shared = 0x1000#64 ∧ s.shared &&& mutexWaiters = 0#64 ∧
      ∀ t, (s.loc t).owns = true → t = false := by
  have hinit : Initial unheld := ⟨rfl, fun _ => rfl⟩
  have hstart : ReflTransGen (UniStep twoThreads) (false, unheld) (false, unheld) := ReflTransGen.refl
  have huni := ((((((hstart.tail (.act (.mutexEnter .mutexEnter))).tail (.act .enterThread)).tail (.act .enterCas)).tail
    (.act .mutexExit)).tail (.act .exitThread)).tail (.act .exitCmp)).tail (.act .exitJne)
  have hall (s : State Bool (Thread 64) (BitVec 64)) : True := trivial
  have hbegin : Run (ActOrRestart twoThreads) (fun _ => True) unheld unheld := ReflTransGen.refl
  have hrun := ((((((hbegin.next hall false (.inl (.mutexEnter .mutexEnter))).next hall false (.inl .enterThread)).next
    hall false (.inl .enterCas)).next hall false (.inl .mutexExit)).next hall false (.inl .exitThread)).next hall false
    (.inl .exitCmp)).next hall false (.inl .exitJne)
  obtain ⟨hmp, hup⟩ := mutex_fast_path (s := _) addresses_twoThreads hinit false false
  exact ⟨_, huni, rfl, rfl, hup huni rfl, fun t ht => (hmp hrun).1 t false ht rfl⟩

end Uniprocessor

end SysvDev.Mutex.Owner
