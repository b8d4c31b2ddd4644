import Mathlib.Data.BitVec
import SysvDev.Nca.Lock

namespace SysvDev.Nca.Invariant

open Function Interleaving Lock

section Counter

variable {x : BitVec 32}

def low (x : BitVec 32) : BitVec 31 := x.setWidth 31

theorem toNat_low (x : BitVec 32) : (low x).toNat = x.toNat % 2147483648 := BitVec.toNat_setWidth 31 x

theorem msb_eq_decide (x : BitVec 32) : x.msb = decide (2147483648 ≤ x.toNat) := BitVec.msb_eq_decide x

theorem and_useLock : x &&& useLock = 0#32 ↔ x.msb = false := by
  rw [useLock, show 0x80000000#32 = BitVec.twoPow 32 31 from rfl, BitVec.and_twoPow, BitVec.msb_eq_getLsbD_last]
  cases x.getLsbD (32 - 1) with
  | true => decide
  | false => decide

theorem low_add_one (h : (low x).toNat < 2147483647) :
    (low (x + 1)).toNat = (low x).toNat + 1 ∧ (x + 1).msb = x.msb := by
  rw [toNat_low] at h ⊢
  rw [toNat_low, msb_eq_decide, msb_eq_decide, decide_eq_decide, BitVec.toNat_add]
  have hone : (1 : BitVec 32).toNat = 1 := rfl
  omega

theorem low_sub_one (h : 0 < (low x).toNat) :
    (low (x - 1)).toNat + 1 = (low x).toNat ∧ (x - 1).msb = x.msb := by
  rw [toNat_low] at h ⊢
  rw [toNat_low, msb_eq_decide, msb_eq_decide, decide_eq_decide, BitVec.toNat_sub]
  have hone : (1 : BitVec 32).toNat = 1 := rfl
  omega

theorem low_or : low (x ||| useLock) = low x := by
  rw [low, BitVec.setWidth_or]
  exact BitVec.or_zero

theorem msb_or : (x ||| useLock).msb = true := by
  rw [BitVec.msb_or]
  exact Bool.or_true _

theorem low_and : low (x &&& ~~~useLock) = low x := by
  rw [low, BitVec.setWidth_and]
  exact BitVec.and_allOnes

theorem msb_and : (x &&& ~~~useLock).msb = false := by
  rw [BitVec.msb_and]
  exact Bool.and_false _

theorem toNat_and_countMask (h : (low x).toNat < 1073741824) : (x &&& countMask).toNat = (low x).toNat := by
  rw [toNat_low] at h ⊢
  rw [BitVec.toNat_and, show countMask.toNat = 2 ^ 30 - 1 from rfl, Nat.and_two_pow_sub_one_eq_mod]
  omega

theorem low_ne_zero (h : x &&& countMask ≠ 0#32) : 0 < (low x).toNat := by
  apply Nat.pos_of_ne_zero
  intro hzero
  apply h
  apply BitVec.eq_of_toNat_eq
  rw [toNat_and_countMask (by omega), hzero]
  rfl

theorem eq_useLock (hmsb : x.msb = true) (hlow : (low x).toNat = 0) : x = useLock := by
  rw [msb_eq_decide, decide_eq_true_eq] at hmsb
  rw [toNat_low] at hlow
  apply BitVec.eq_of_toNat_eq
  rw [show useLock.toNat = 2147483648 from rfl]
  omega

theorem eq_zero (hmsb : x.msb = false) (hlow : (low x).toNat = 0) : x = 0#32 := by
  rw [msb_eq_decide, decide_eq_false_iff_not] at hmsb
  rw [toNat_low] at hlow
  apply BitVec.eq_of_toNat_eq
  rw [show (0#32).toNat = 0 from rfl]
  omega

end Counter

section Point

/-- The counter of `cpu` counts the thread. -/
def counted (cpu : Nat) : Point → Bool
  | .rdLock c | .rdSub c | .rdInside c => c == cpu
  | _ => false

def reading : Point → Bool
  | .rdAdd _ | .rdLock _ | .rdSub _ | .rdHasWaiters _ | .rdSignal _ | .rdUnlock _ | .rdReadersEnter _
  | .rdReadersExit _ | .rdInside _ => true
  | _ => false

def holdsLock : Point → Bool
  | .rdSub _ | .rdHasWaiters _ | .rdSignal _ | .rdUnlock _ | .rxHasWaiters | .rxSignal | .rxUnlock
  | .wrFor _ _ | .wrCas _ _ _ | .wrReread _ _ | .wrUnlock | .wxFor _ | .wxCas _ _ | .wxReread _ | .wxUnlock => true
  | _ => false

def holdsReaders : Point → Bool
  | .rdReadersExit _ | .wrLock | .wrFor _ _ | .wrCas _ _ _ | .wrReread _ _ | .wrWait | .wrUnlock | .wrInside
  | .wxLock | .wxFor _ | .wxCas _ _ | .wxReread _ | .wxUnlock | .wxReadersExit => true
  | _ => false

/-- A writer here has set the flag of `cpu` and not yet cleared it. -/
def Raised (cpu : Nat) : Point → Prop
  | .wrFor c _ | .wrCas c _ _ | .wrReread c _ => cpu < c
  | .wrWait | .wrUnlock | .wrInside | .wxLock => True
  | .wxFor c | .wxCas c _ | .wxReread c => c ≤ cpu
  | _ => False

def MayRaise (cpu : Nat) : Point → Prop
  | .wrFor _ _ | .wrCas _ _ _ | .wrReread _ _ | .wrWait | .wrUnlock | .wrInside | .wxLock => True
  | .wxFor c | .wxCas c _ | .wxReread c => c ≤ cpu
  | _ => False

/-- The CPU whose counter the point is about is one of them. -/
def OnCpu (maxNcpus : Nat) : Point → Prop
  | .rdAdd c | .rdLock c | .rdSub c | .rdHasWaiters c | .rdSignal c | .rdUnlock c | .rdReadersEnter c
  | .rdReadersExit c | .rdInside c | .wrCas c _ _ | .wrReread c _ => c < maxNcpus
  | _ => True

variable {maxNcpus cpu : Nat} {l : Point}

theorem reading_of_counted (h : counted cpu l = true) : reading l = true := by
  cases l <;> simp_all [counted, reading]

theorem holdsReaders_of_raised (h : Raised cpu l) : holdsReaders l = true := by
  cases l <;> simp_all [Raised, holdsReaders]

end Point

section Act

variable {T : Type} [DecidableEq T] {maxNcpus cpu : Nat} {t : T} {l l' : Point} {sh sh' : Shared T}

theorem act_lock (h : Act maxNcpus t l sh l' sh') :
    Guarded (fun l => holdsLock l = true) Shared.ncaDcbLock t l sh l' sh' := by
  cases h <;> simp [Guarded, holdsLock, Shared.put, *]

theorem act_readers (h : Act maxNcpus t l sh l' sh') :
    Guarded (fun l => holdsReaders l = true) Shared.ncaDcbReaders t l sh l' sh' := by
  cases h <;> simp [Guarded, holdsReaders, Shared.put, *]

theorem act_onCpu (h : Act maxNcpus t l sh l' sh') (hl : OnCpu maxNcpus l) : OnCpu maxNcpus l' := by
  cases h <;> simp_all [OnCpu]

theorem act_wait (h : Act maxNcpus t l sh l' sh') (hl : t ∈ sh.ncaDcbWait → l = .wrWait) {u : T}
    (hu : u ∈ sh'.ncaDcbWait) : (u = t ∧ l' = .wrWait) ∨ (u ≠ t ∧ u ∈ sh.ncaDcbWait) := by
  by_cases hut : u = t
  · subst hut
    cases h <;> simp_all [Shared.put]
  · cases h <;> simp_all [Shared.put]

theorem act_counter (h : Act maxNcpus t l sh l' sh') :
    (sh'.dcbReaders = sh.dcbReaders ∧ ∀ c, counted c l' = counted c l) ∨
      (∃ c, l = .rdAdd c ∧ sh' = sh.put c (sh.dcbReaders c + 1) ∧
        (l' = .rdInside c ∧ (sh.dcbReaders c + 1) &&& useLock = 0#32 ∨ l' = .rdLock c)) ∨
      (∃ c, (l = .rdSub c ∨ l = .rdInside c) ∧ sh' = sh.put c (sh.dcbReaders c - 1) ∧ (∀ c, counted c l' = false)) ∨
      (∃ c old readers, l = .wrCas c old readers ∧ sh.dcbReaders c = old ∧ sh' = sh.put c (old ||| useLock) ∧
        l' = .wrFor (c + 1) (readers + ((old ||| useLock) &&& countMask))) ∨
      ∃ c old, l = .wxCas c old ∧ sh.dcbReaders c = old ∧ sh' = sh.put c (old &&& ~~~useLock) ∧ l' = .wxFor (c + 1) := by
  cases h <;> simp_all [counted, Shared.put]

theorem act_raised (h : Act maxNcpus t l sh l' sh') (hcpu : cpu < maxNcpus) (hl' : Raised cpu l') :
    Raised cpu l ∨ (sh'.dcbReaders cpu).msb = true := by
  cases h with
  | wrForSet hlt hset =>
      obtain hbefore | rfl := Nat.lt_succ_iff_lt_or_eq.mp hl'
      · exact Or.inl hbefore
      · exact Or.inr (by simpa [and_useLock] using hset)
  | wrCas hold =>
      obtain hbefore | rfl := Nat.lt_succ_iff_lt_or_eq.mp hl'
      · exact Or.inl hbefore
      · exact Or.inr (by rw [Shared.put_self, msb_or])
  | wrWait hend | wrBreak hend => exact Or.inl (Nat.lt_of_lt_of_le hcpu (Nat.le_of_not_lt hend))
  | wxCas hold => exact Or.inl (Nat.le_of_succ_le hl')
  | _ => simp_all [Raised]

theorem act_mayRaise (h : Act maxNcpus t l sh l' sh') (hcpu : cpu < maxNcpus) (hl : MayRaise cpu l) :
    MayRaise cpu l' ∨ (sh'.dcbReaders cpu).msb = false := by
  cases h with
  | wxCas hold =>
      obtain rfl | hafter := Nat.eq_or_lt_of_le hl
      · exact Or.inr (by rw [Shared.put_self, msb_and])
      · exact Or.inl hafter
  | wxBreak hend => exact absurd (Nat.lt_of_le_of_lt hl hcpu) hend
  | _ => simp_all [MayRaise]

end Act

variable {T : Type} [Fintype T] [DecidableEq T] {maxNcpus : Nat}

/-- Fewer than 2³⁰ threads enter or are inside as readers. -/
def Few (s : State T Point (Shared T)) : Prop := count (fun l => reading l = true) s.loc < 1073741824

omit [DecidableEq T] in
theorem few_of_card (h : Fintype.card T < 1073741824) (s : State T Point (Shared T)) : Few s :=
  Nat.lt_of_le_of_lt count_le_card h

omit [DecidableEq T] in
theorem few_initial : Few (initial T) := by simp [Few, count, initial, reading]

structure Inv (maxNcpus : Nat) (s : State T Point (Shared T)) : Prop where
  lock : Owned (fun l => holdsLock l = true) Shared.ncaDcbLock s
  readers : Owned (fun l => holdsReaders l = true) Shared.ncaDcbReaders s
  cpus : ∀ t, OnCpu maxNcpus (s.loc t)
  waits : ∀ t, t ∈ s.shared.ncaDcbWait → s.loc t = .wrWait
  counts : ∀ c, (low (s.shared.dcbReaders c)).toNat = count (fun l => counted c l = true) s.loc
  raised : ∀ c < maxNcpus, ∀ t, Raised c (s.loc t) → (s.shared.dcbReaders c).msb = true
  lowered : ∀ c < maxNcpus, (s.shared.dcbReaders c).msb = true → ∃ t, MayRaise c (s.loc t)

omit [DecidableEq T] in
theorem inv_initial : Inv maxNcpus (initial T) where
  lock t h := by cases h
  readers t h := by cases h
  cpus t := trivial
  waits t h := by cases h
  counts c := by simp [count, initial, counted, low]
  raised c _ t h := by cases h
  lowered c _ h := absurd h (by simp [initial])

variable {loc : T → Point} {sh sh' : Shared T} {t : T} {l : Point}

omit [DecidableEq T] in
theorem Inv.low_lt {s : State T Point (Shared T)} (hI : Inv maxNcpus s) (hfew : Few s) (c : Nat) :
    (low (s.shared.dcbReaders c)).toNat < 1073741824 := by
  rw [hI.counts c]
  exact Nat.lt_of_le_of_lt (count_mono fun l => reading_of_counted) hfew

/-- The count is that of the threads, and only a writer's cas moves the flag. -/
theorem counter_step (hI : Inv maxNcpus ⟨loc, sh⟩) (hfew : Few ⟨loc, sh⟩) (h : Act maxNcpus t (loc t) sh l sh')
    (c : Nat) :
    (low (sh'.dcbReaders c)).toNat = count (fun l => counted c l = true) (update loc t l) ∧
      ((sh'.dcbReaders c).msb = (sh.dcbReaders c).msb ∨
        (∃ old readers, loc t = .wrCas c old readers ∧ l = .wrFor (c + 1) (readers + ((old ||| useLock) &&& countMask)) ∧
          (sh'.dcbReaders c).msb = true) ∨
        ∃ old, loc t = .wxCas c old ∧ l = .wxFor (c + 1) ∧ (sh'.dcbReaders c).msb = false) := by
  have hcount : (low (sh.dcbReaders c)).toNat = count (fun l => counted c l = true) loc := hI.counts c
  have hlt : (low (sh.dcbReaders c)).toNat < 1073741824 := hI.low_lt hfew c
  obtain ⟨heq, hsame⟩ | ⟨cpu, hl, rfl, hl'⟩ | ⟨cpu, hl, rfl, hl'⟩ | ⟨cpu, old, readers, hl, hold, rfl, hl'⟩ |
    ⟨cpu, old, hl, hold, rfl, hl'⟩ := act_counter h
  · rw [heq, count_update_same (by rw [hsame])]
    exact ⟨hcount, Or.inl rfl⟩
  · by_cases hc : c = cpu
    · subst hc
      obtain ⟨hlow, hmsb⟩ := low_add_one (x := sh.dcbReaders c) (by omega)
      rw [Shared.put_self, count_update_in, hlow, hcount, hmsb]
      · exact ⟨rfl, Or.inl rfl⟩
      · obtain ⟨rfl, -⟩ | rfl := hl' <;> simp [counted]
      · simp [hl, counted]
    · rw [Shared.put_of_ne _ _ hc, count_update_same]
      · exact ⟨hcount, Or.inl rfl⟩
      · obtain ⟨rfl, -⟩ | rfl := hl' <;> simp [hl, counted, Ne.symm hc]
  · by_cases hc : c = cpu
    · subst hc
      have hin : counted c (loc t) = true := by obtain hl | hl := hl <;> simp [hl, counted]
      have hpos : 0 < (low (sh.dcbReaders c)).toNat := by
        rw [hcount, count_pos]
        exact ⟨t, hin⟩
      obtain ⟨hlow, hmsb⟩ := low_sub_one hpos
      have hout := count_update_out (q := fun l => counted c l = true) (l := l) (by simp [hl']) hin
      rw [Shared.put_self, hmsb]
      refine ⟨?_, Or.inl rfl⟩
      omega
    · rw [Shared.put_of_ne _ _ hc, count_update_same]
      · exact ⟨hcount, Or.inl rfl⟩
      · rw [hl' c]
        obtain hl | hl := hl <;> simp [hl, counted, Ne.symm hc]
  · rw [count_update_same (by simp [hl, hl', counted])]
    by_cases hc : c = cpu
    · subst hc
      rw [Shared.put_self, low_or, ← hold]
      exact ⟨hcount, Or.inr (Or.inl ⟨old, readers, hl, hl', msb_or⟩)⟩
    · rw [Shared.put_of_ne _ _ hc]
      exact ⟨hcount, Or.inl rfl⟩
  · rw [count_update_same (by simp [hl, hl', counted])]
    by_cases hc : c = cpu
    · subst hc
      rw [Shared.put_self, low_and, ← hold]
      exact ⟨hcount, Or.inr (Or.inr ⟨old, hl, hl', msb_and⟩)⟩
    · rw [Shared.put_of_ne _ _ hc]
      exact ⟨hcount, Or.inl rfl⟩

theorem Inv.step (hI : Inv maxNcpus ⟨loc, sh⟩) (hfew : Few ⟨loc, sh⟩) (h : Act maxNcpus t (loc t) sh l sh') :
    Inv maxNcpus ⟨update loc t l, sh'⟩ where
  lock := hI.lock.step (act_lock h)
  readers := hI.readers.step (act_readers h)
  cpus := forall_update (Q := fun _ => OnCpu maxNcpus) (act_onCpu h (hI.cpus t)) fun u _ => hI.cpus u
  waits u hu := by
    obtain ⟨rfl, hl⟩ | ⟨hne, hu⟩ := act_wait h (hI.waits t) hu
    · exact (update_self _ _ _).trans hl
    · exact (update_of_ne hne _ _).trans (hI.waits u hu)
  counts c := (counter_step hI hfew h c).1
  raised c hc := by
    have hkeep (hmsb : (sh.dcbReaders c).msb = true) (hnot : ∀ old, loc t = .wxCas c old → l ≠ .wxFor (c + 1)) :
        (sh'.dcbReaders c).msb = true := by
      obtain hsame | ⟨old, readers, -, -, hset⟩ | ⟨old, hl, hl', -⟩ := (counter_step hI hfew h c).2
      · exact hsame.trans hmsb
      · exact hset
      · exact absurd hl' (hnot old hl)
    apply forall_update (Q := fun _ l => Raised c l → (sh'.dcbReaders c).msb = true)
    · intro hl
      obtain hbefore | hmsb := act_raised h hc hl
      · apply hkeep (hI.raised c hc t hbefore)
        rintro old - rfl
        exact Nat.not_succ_le_self c hl
      · exact hmsb
    · intro u hne hu
      apply hkeep (hI.raised c hc u hu)
      -- the writer that clears the flag is alone with the mutex
      intro old hcas
      exact absurd (hI.readers.unique (holdsReaders_of_raised hu) (by simp [hcas, holdsReaders])) hne
  lowered c hc hmsb := by
    obtain hsame | ⟨old, readers, hl, hl', -⟩ | ⟨old, hl, -, hclear⟩ := (counter_step hI hfew h c).2
    · apply exists_update_of_exists (hI.lowered c hc (hsame.symm.trans hmsb))
      intro hmay
      obtain hmay | hclear := act_mayRaise h hc hmay
      · exact hmay
      · exact absurd (hclear.symm.trans hmsb) (by decide)
    · exact exists_update (Or.inl (by rw [hl']; trivial))
    · exact absurd (hclear.symm.trans hmsb) (by decide)

end SysvDev.Nca.Invariant
