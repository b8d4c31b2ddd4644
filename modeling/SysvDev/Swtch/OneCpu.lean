import Mathlib.Algebra.BigOperators.Fin
import SysvDev.Swtch.Resume

namespace SysvDev.Swtch.OneCpu

open Function Interleaving Relation Resume

variable {C T : Type} {idle : C → T} {c : C} {k k' : Cpu T} {sh sh' : Shared C T}

def held (k : Cpu T) : List T :=
  match k.point with
  | .running | .saveRegs .. | .loadThread .. => k.thread :: k.pinned
  | .idleStack _ _ old | .idleThread _ _ old | .unlock _ old | .reapqAdd _ old => old :: k.pinned
  | .lockThread _ | .spin _ => k.pinned
  | .setCpu new | .setThread new | .setStack new => new :: k.pinned
  | .intrSaveRegs new | .intrLoadThread new => new :: k.thread :: k.pinned
  | .intrSetThread new old | .intrSetStack new old | .intrUnlock new old => new :: old :: k.pinned

/-- The stack a CPU is on and its `CPU_THREAD`, at each point. -/
def Placed (idle : C → T) (c : C) (k : Cpu T) : Prop :=
  match k.point with
  | .running | .saveRegs .. | .loadThread .. | .intrSaveRegs _ | .intrLoadThread _ => k.sp = k.thread
  | .idleStack _ _ old | .intrSetThread _ old => k.sp = old ∧ k.thread = old
  | .idleThread _ _ old => k.sp = idle c ∧ k.thread = old
  | .unlock .. | .reapqAdd .. | .lockThread _ | .spin _ | .setCpu _ | .setThread _ => k.sp = idle c ∧ k.thread = idle c
  | .setStack new => k.sp = idle c ∧ k.thread = new
  | .intrSetStack new old => k.sp = old ∧ k.thread = new
  | .intrUnlock new _ => k.sp = new ∧ k.thread = new

/-- The CPU is on the stack of a thread or has it as its current thread. -/
def Uses (k : Cpu T) (t : T) : Prop := k.sp = t ∨ k.thread = t

def IsIdle (idle : C → T) (t : T) : Prop := ∃ c, idle c = t

/-- All CPUs run a thread. `T_LOCK` is set for those threads and the pinned ones. -/
structure Initial (s : State C (Cpu T) (Shared C T)) : Prop where
  running : ∀ c, (s.loc c).point = .running ∧ (s.loc c).sp = (s.loc c).thread
  nodup : ∀ c, ((s.loc c).thread :: (s.loc c).pinned).Nodup
  disjoint : ∀ c d t, t ∈ (s.loc c).thread :: (s.loc c).pinned → t ∈ (s.loc d).thread :: (s.loc d).pinned → c = d
  lock : ∀ t, s.shared.tLock t = true ↔ ∃ c, t ∈ (s.loc c).thread :: (s.loc c).pinned
  saved : ∀ t, s.shared.tSp t = t
  deathrow : s.shared.deathrow = []

theorem Placed.uses (h : Placed idle c k) {t : T} (ht : ¬ IsIdle idle t) (huses : Uses k t) : t ∈ held k := by
  obtain ⟨point, thread, sp, pinned⟩ := k
  have hne : t ≠ idle c := fun h => ht ⟨c, h.symm⟩
  cases point <;> simp only [Placed, Uses, held, List.mem_cons] at h huses ⊢ <;> grind

section Steps

variable [DecidableEq T]

theorem act_placed (h : Act idle c k sh k' sh') (hsp : ∀ t, sh.tSp t = t) (hk : Placed idle c k) :
    Placed idle c k' ∧ ∀ t, sh'.tSp t = t := by
  cases h with
  | saveRegs | intrSaveRegs =>
      refine ⟨hk, fun t => ?_⟩
      simp only [Placed] at hk
      simp only [update_apply, hk, hsp]
      split
      next h => exact h.symm
      next => rfl
  | idleStack | setStack | intrSetStack =>
      refine ⟨?_, hsp⟩
      simp only [Placed, hsp] at hk ⊢
      simp [hk]
  | _ => exact ⟨by simp_all [Placed], hsp⟩

theorem not_mem_of_count {t : T} {l : List T} (h : (t :: l).count t ≤ 1) : t ∉ l := by
  rw [List.count_cons_self] at h
  exact List.count_eq_zero.mp (by omega)

theorem count_of_not_mem {t : T} {l : List T} (h : t ∉ l) : (t :: l).count t ≤ 1 := by
  rw [List.count_cons_self, List.count_eq_zero.mpr h]

theorem act_handles (h : Act idle c k sh k' sh') (hk : Placed idle c k)
    (hlocked : ∀ t ∈ held k, ¬ IsIdle idle t → sh.tLock t = true)
    (honce : ∀ t, ¬ IsIdle idle t → (held k).count t ≤ 1) :
    Handles held Shared.tLock (fun t => ¬ IsIdle idle t) k sh k' sh' := by
  intro t ht
  have honce := honce t ht
  have hfresh (hfree : sh.tLock t = false) : t ∉ held k := by
    intro hmem
    rw [hlocked t hmem ht] at hfree
    cases hfree
  cases h with
  | @resumeFromIntr thread sp new pinned _ hp =>
      have hperm : (thread :: pinned).Perm (new :: thread :: pinned.erase new) :=
        ((List.perm_cons_erase hp).cons thread).trans (.swap new thread _)
      exact .inl ⟨rfl, (hperm.count_eq t).symm.le⟩
  | @interrupt thread sp intr pinned _ hfree =>
      by_cases heq : t = intr
      · subst heq
        exact .inr (.inl ⟨hfree, update_self _ _ _, count_of_not_mem (hfresh hfree)⟩)
      · exact .inl ⟨update_of_ne heq _ _, (List.count_cons_of_ne (Ne.symm heq)).le⟩
  | @lockThread thread sp new pinned _ hfree =>
      by_cases heq : t = new
      · subst heq
        exact .inr (.inl ⟨hfree, update_self _ _ _, count_of_not_mem (hfresh hfree)⟩)
      · exact .inl ⟨update_of_ne heq _ _, (List.count_cons_of_ne (Ne.symm heq)).le⟩
  | @unlock thread sp new old pinned =>
      by_cases heq : t = old
      · subst heq
        exact .inr (.inr ⟨List.mem_cons_self, not_mem_of_count honce⟩)
      · exact .inl ⟨update_of_ne heq _ _, List.count_le_count_cons⟩
  | @intrUnlock thread sp new old pinned =>
      obtain ⟨-, rfl⟩ : sp = new ∧ thread = new := hk
      have hswap : (thread :: old :: pinned).Perm (old :: thread :: pinned) := .swap old thread pinned
      by_cases heq : t = old
      · subst heq
        exact .inr (.inr ⟨List.mem_cons_of_mem _ List.mem_cons_self, not_mem_of_count (hswap.count_eq t ▸ honce)⟩)
      · exact .inl ⟨update_of_ne heq _ _, (hswap.count_eq t).symm ▸ List.count_le_count_cons⟩
  | @setStack thread sp new pinned =>
      obtain ⟨-, rfl⟩ : sp = idle c ∧ thread = new := hk
      exact .inl ⟨rfl, le_rfl⟩
  | resumeFromIdle | reapqAdd => exact .inl ⟨rfl, List.count_le_count_cons⟩
  | resume | resumeFromZombie | saveRegs | loadThread | idleStack | idleThread | idleThreadZombie | lockThreadBusy
  | spin | spinClear | setCpu | setThread | intrSaveRegs | intrLoadThread | intrSetThread | intrSetStack =>
      exact .inl ⟨rfl, le_rfl⟩

/-- A step that clears `T_LOCK` is made by the CPU that holds it, after it has
left the stack. -/
theorem act_clears (h : Act idle c k sh k' sh') (hk : Placed idle c k)
    (honce : ∀ t, ¬ IsIdle idle t → (held k).count t ≤ 1) {t : T} (ht : ¬ IsIdle idle t)
    (hset : sh.tLock t = true) (hclear : sh'.tLock t = false) : t ∈ held k ∧ ¬ Uses k t := by
  have honce := honce t ht
  have hidle : idle c ≠ t := fun h => ht ⟨c, h⟩
  have hset' {tl : T → Bool} (hsame : tl = sh.tLock) : tl t ≠ false := by
    rw [hsame, hset]
    exact Bool.noConfusion
  cases h with
  | @unlock thread sp new old pinned =>
      obtain ⟨rfl, rfl⟩ : sp = idle c ∧ thread = idle c := hk
      have heq : t = old := by
        by_contra hne
        exact hset' rfl ((update_of_ne hne _ _).symm.trans hclear)
      rw [heq]
      exact ⟨List.mem_cons_self, by simp [Uses, ← heq, hidle]⟩
  | @intrUnlock thread sp new old pinned =>
      obtain ⟨rfl, rfl⟩ : sp = new ∧ thread = new := hk
      have heq : t = old := by
        by_contra hne
        exact hset' rfl ((update_of_ne hne _ _).symm.trans hclear)
      have hne : thread ≠ t := by
        rintro rfl
        exact not_mem_of_count honce (heq ▸ List.mem_cons_self)
      rw [heq] at hne ⊢
      exact ⟨List.mem_cons_of_mem _ List.mem_cons_self, by simp [Uses, hne]⟩
  | @interrupt thread sp intr _ _ hfree | @lockThread thread sp intr _ _ hfree =>
      simp only [update_apply] at hclear
      split at hclear
      next => cases hclear
      next => exact absurd hclear (hset' rfl)
  | _ => exact absurd hclear (hset' rfl)

/-- Only `reapq_add` puts a thread on death row, and its lock stays set. -/
theorem act_deathrow (h : Act idle c k sh k' sh') (honce : ∀ t, ¬ IsIdle idle t → (held k).count t ≤ 1) :
    sh'.deathrow = sh.deathrow ∨ ∃ old ∈ held k, sh'.deathrow = old :: sh.deathrow ∧ sh'.tLock = sh.tLock ∧
      (¬ IsIdle idle old → old ∉ held k') := by
  cases h with
  | @reapqAdd thread sp new old pinned =>
      exact .inr ⟨old, List.mem_cons_self, rfl, rfl, fun hold => not_mem_of_count (honce old hold)⟩
  | _ => exact .inl rfl

end Steps

structure Inv [DecidableEq T] (idle : C → T) (s : State C (Cpu T) (Shared C T)) : Prop where
  saved : ∀ t, s.shared.tSp t = t
  placed : ∀ c, Placed idle c (s.loc c)
  locks : Exclusive held Shared.tLock (fun t => ¬ IsIdle idle t) s
  deathrow : ∀ t ∈ s.shared.deathrow, ¬ IsIdle idle t → s.shared.tLock t = true ∧ ∀ c, t ∉ held (s.loc c)

variable [DecidableEq T] [DecidableEq C] {s₀ s s' : State C (Cpu T) (Shared C T)}

omit [DecidableEq C] in
theorem Initial.inv (h : Initial s) (idle : C → T) : Inv idle s := by
  have hheld (c : C) : held (s.loc c) = (s.loc c).thread :: (s.loc c).pinned := by
    simp only [held, (h.running c).1]
  refine ⟨h.saved, fun c => ?_, ⟨fun c t ht _ => ?_, fun c t _ => ?_, fun c d t _ hc hd => ?_⟩, ?_⟩
  · simp only [Placed, (h.running c).1]
    exact (h.running c).2
  · exact (h.lock t).mpr ⟨c, hheld c ▸ ht⟩
  · rw [hheld]
    exact List.nodup_iff_count_le_one.mp (h.nodup c) t
  · rw [hheld] at hc hd
    exact h.disjoint c d t hc hd
  · intro t ht
    rw [h.deathrow] at ht
    cases ht

theorem deathrow_step {loc : C → Cpu T} (hinv : Inv idle ⟨loc, sh⟩) (h : Act idle c (loc c) sh k' sh') {t : T}
    (ht : t ∈ sh'.deathrow) (hidle : ¬ IsIdle idle t) : sh'.tLock t = true ∧ ∀ d, t ∉ held (update loc c k' d) := by
  have honce := hinv.locks.once c
  have hown (hset : sh.tLock t = true) (hnone : t ∉ held (loc c)) : t ∉ held k' := by
    rcases act_handles h (hinv.placed c) (hinv.locks.locked c) honce t hidle with ⟨-, hle⟩ | ⟨hfree, -⟩ | ⟨-, hnot⟩
    · rw [List.count_eq_zero.mpr hnone] at hle
      exact List.count_eq_zero.mp (Nat.le_zero.mp hle)
    · exact absurd (hset.symm.trans hfree) Bool.noConfusion
    · exact hnot
  have hstays (hlock : sh'.tLock t = true) (ht : t ∈ sh.deathrow) :
      sh'.tLock t = true ∧ ∀ d, t ∉ held (update loc c k' d) := by
    obtain ⟨hset, hnone⟩ := hinv.deathrow t ht hidle
    exact ⟨hlock, forall_update (Q := fun _ k => t ∉ held k) (hown hset (hnone c)) fun d _ => hnone d⟩
  rcases act_deathrow h honce with hsame | ⟨old, hold, hadd, hlock, hleft⟩
  · rw [hsame] at ht
    obtain ⟨hset, hnone⟩ := hinv.deathrow t ht hidle
    refine hstays ?_ ht
    by_contra hclear
    exact hnone c (act_clears h (hinv.placed c) honce hidle hset (Bool.eq_false_of_not_eq_true hclear)).1
  · rw [hadd, List.mem_cons] at ht
    rcases ht with rfl | ht
    · rw [hlock]
      refine ⟨hinv.locks.locked c t hold hidle, forall_update (Q := fun _ k => t ∉ held k) (hleft hidle) ?_⟩
      exact fun d hne hd => hne (hinv.locks.unique d c t hidle hd hold)
    · exact hstays (hlock ▸ (hinv.deathrow t ht hidle).1) ht

theorem Inv.step {loc : C → Cpu T} (hinv : Inv idle ⟨loc, sh⟩) (h : Act idle c (loc c) sh k' sh') :
    Inv idle ⟨update loc c k', sh'⟩ := by
  obtain ⟨hplaced, hsaved⟩ := act_placed h hinv.saved (hinv.placed c)
  have hhandles := act_handles h (hinv.placed c) (hinv.locks.locked c) (hinv.locks.once c)
  exact ⟨hsaved, forall_update hplaced fun d _ => hinv.placed d, hinv.locks.step hhandles,
    fun t ht hidle => deathrow_step hinv h ht hidle⟩

theorem run_inv (hinit : Initial s₀) (hrun : Run (Act idle) (fun _ => True) s₀ s) : Inv idle s :=
  hrun.invariant (hinit.inv idle) fun _ _ _ _ _ hinv _ _ h => hinv.step h

/-- No two CPUs use a thread that is not an idle thread, and its lock is only
cleared when no CPU uses it. -/
theorem one_cpu (hinit : Initial s₀) (hrun : Run (Act idle) (fun _ => True) s₀ s) (t : T) (ht : ¬ IsIdle idle t) :
    (∀ c d, Uses (s.loc c) t → Uses (s.loc d) t → c = d) ∧
      ∀ s', Step (Act idle) s s' → s.shared.tLock t = true → s'.shared.tLock t = false →
        ∀ c, ¬ Uses (s.loc c) t := by
  have hinv := run_inv hinit hrun
  constructor
  · intro c d hc hd
    exact hinv.locks.unique c d t ht ((hinv.placed c).uses ht hc) ((hinv.placed d).uses ht hd)
  · rintro _ ⟨d, h⟩ hset hclear c huses
    obtain ⟨hheld, hnot⟩ := act_clears h (hinv.placed d) (hinv.locks.once d) ht hset hclear
    have hcd := hinv.locks.unique c d t ht ((hinv.placed c).uses ht huses) hheld
    subst hcd
    exact hnot huses

local instance neZeroTwo : NeZero 2 := ⟨by decide⟩

def busy : State (Fin 2) (Cpu Nat) (Shared (Fin 2) Nat) where
  loc c := if c = 0 then ⟨.running, 2, 2, []⟩ else ⟨.running, 1, 1, []⟩
  shared := ⟨fun t => t = 1 || t = 2, id, fun _ => 0, []⟩

theorem initial_busy : Initial busy where
  running := by decide
  nodup := by decide
  disjoint c d t hc hd := by
    revert c d
    simp [busy, Fin.forall_fin_two]
    omega
  lock t := by
    simp [busy, Fin.exists_fin_two]
    tauto
  saved _ := rfl
  deathrow := rfl

/-- CPU 1 is given thread 2 while CPU 0 is on its way to thread 3, and has to
wait for its lock. -/
theorem one_cpu_spinning : ∃ s, Run (Act fun c : Fin 2 => c.val) (fun _ => True) busy s ∧ (s.loc 1).point = .spin 2 ∧
    Uses (s.loc 0) 2 ∧ ¬ Uses (s.loc 1) 2 := by
  have hbegin : Run (Act fun c : Fin 2 => c.val) (fun _ => True) busy busy := ReflTransGen.refl
  have hall (s : State (Fin 2) (Cpu Nat) (Shared (Fin 2) Nat)) : True := trivial
  have hrun := ((((hbegin.next hall 0 (.resume 3)).next hall 0 .saveRegs).next hall 1 (.resumeFromIdle 2)).next hall 1
    (.lockThreadBusy rfl))
  have hidle : ¬ IsIdle (fun c : Fin 2 => c.val) 2 := by
    rintro ⟨c, hc : c.val = 2⟩
    omega
  refine ⟨_, hrun, rfl, .inl rfl, fun huses => ?_⟩
  exact absurd ((one_cpu initial_busy hrun 2 hidle).1 1 0 huses (.inl rfl)) (by decide)

/-- A thread on death row is off all CPUs for good. -/
theorem deathrow_unused (hinit : Initial s₀) (hrun : Run (Act idle) (fun _ => True) s₀ s) {t : T}
    (ht : ¬ IsIdle idle t) (hdead : t ∈ s.shared.deathrow) : s.shared.tLock t = true ∧ ∀ c, ¬ Uses (s.loc c) t := by
  have hinv := run_inv hinit hrun
  obtain ⟨hset, hnone⟩ := hinv.deathrow t hdead ht
  exact ⟨hset, fun c huses => hnone c ((hinv.placed c).uses ht huses)⟩

theorem deathrow_unused_zombie : ∃ s, Run (Act fun c : Fin 2 => c.val) (fun _ => True) busy s ∧
    2 ∈ s.shared.deathrow ∧ s.shared.tLock 2 = true ∧ ∀ c, ¬ Uses (s.loc c) 2 := by
  have hbegin : Run (Act fun c : Fin 2 => c.val) (fun _ => True) busy busy := ReflTransGen.refl
  have hall (s : State (Fin 2) (Cpu Nat) (Shared (Fin 2) Nat)) : True := trivial
  have hrun := ((((((hbegin.next hall 0 (.resumeFromZombie 3)).next hall 0 .saveRegs).next hall 0 .loadThread).next hall 0
    .idleStack).next hall 0 .idleThreadZombie).next hall 0 .reapqAdd)
  have hidle : ¬ IsIdle (fun c : Fin 2 => c.val) 2 := by
    rintro ⟨c, hc : c.val = 2⟩
    omega
  exact ⟨_, hrun, List.mem_cons_self, deathrow_unused initial_busy hrun hidle List.mem_cons_self⟩

end SysvDev.Swtch.OneCpu
