import SysvDev.Nca.Invariant

namespace SysvDev.Nca.Wakeup

open Function Interleaving Lock Invariant

section Act

variable {T : Type} [DecidableEq T] {maxNcpus : Nat} {t : T} {l l' : Point} {sh sh' : Shared T}

/-- The thread has brought a counter to `DCB_COUNT_USELOCK` and has yet to
signal. -/
def pending : Point → Bool
  | .rdHasWaiters _ | .rdSignal _ | .rxLock | .rxHasWaiters | .rxSignal => true
  | _ => false

/-- A thread is pending until it signals, unless nobody waits. -/
theorem act_pending (h : Act maxNcpus t l sh l' sh') (hl : pending l = true) :
    pending l' = true ∨
      (holdsLock l = true ∧ (sh'.ncaDcbWait = ∅ ∨ ∃ u ∈ sh.ncaDcbWait, sh'.ncaDcbWait = sh.ncaDcbWait.erase u)) := by
  cases h with
  | rdSignal u hu | rxSignal u hu => exact Or.inr ⟨rfl, Or.inr ⟨u, hu, rfl⟩⟩
  | _ => simp_all [pending, holdsLock]

theorem act_leaves {c : Nat} (h : Act maxNcpus t l sh l' sh') (hin : counted c l = true) (hout : counted c l' = false)
    (hlast : sh'.dcbReaders c = useLock) : pending l' = true := by
  cases h <;> simp_all [counted, pending, Shared.put]

/-- The writer has counted readers on the first `k` CPUs, or waits for those
of all CPUs. -/
def Found (maxNcpus : Nat) (sh : Shared T) (w : T) (k : Nat) : Point → Prop
  | .wrFor c readers | .wrCas c _ readers | .wrReread c readers => readers ≠ 0#32 ∧ k = c
  | .wrWait => w ∈ sh.ncaDcbWait ∧ k = maxNcpus
  | _ => False

section Found

variable {w : T} {k c : Nat}

omit [DecidableEq T] in
theorem raised_of_found (h : Found maxNcpus sh w k l) (hk : c < k) : Raised c l := by
  cases l <;> simp_all [Found, Raised]

omit [DecidableEq T] in
theorem not_pending_of_found (h : Found maxNcpus sh w k l) : pending l = false := by
  cases l <;> simp_all [Found, pending]

omit [DecidableEq T] in
theorem found_lock_or_wait (h : Found maxNcpus sh w k l) : holdsLock l = true ∨ w ∈ sh.ncaDcbWait := by
  cases l <;> simp_all [Found, holdsLock]

omit [DecidableEq T] in
theorem found_of_wait (h : Found maxNcpus sh' w k l) (hwait : w ∈ sh'.ncaDcbWait → w ∈ sh.ncaDcbWait) :
    Found maxNcpus sh w k l := by
  cases l <;> simp_all [Found]

theorem add_ne_zero {a b : BitVec 32} (h : a + b ≠ 0#32) : a ≠ 0#32 ∨ b ≠ 0#32 := by
  by_contra hzero
  rw [not_or, not_not, not_not] at hzero
  rw [hzero.1, hzero.2] at h
  exact h rfl

theorem act_found (h : Act maxNcpus t l sh l' sh') (hcpu : OnCpu maxNcpus l) (hfound : Found maxNcpus sh' t k l') :
    (∃ k', Found maxNcpus sh t k' l ∧ ∀ c < k', c < maxNcpus → c < k) ∨
      ∃ c < k, c < maxNcpus ∧ 0 < (low (sh'.dcbReaders c)).toNat := by
  cases h with
  | wrForSet hlt hset =>
      obtain ⟨hne, rfl⟩ := hfound
      obtain hbefore | hnow := add_ne_zero hne
      · exact Or.inl ⟨_, ⟨hbefore, rfl⟩, fun c hc _ => Nat.lt_succ_of_lt hc⟩
      · exact Or.inr ⟨_, Nat.lt_succ_self _, hlt, low_ne_zero hnow⟩
  | wrCas hold =>
      obtain ⟨hne, rfl⟩ := hfound
      obtain hbefore | hnow := add_ne_zero hne
      · exact Or.inl ⟨_, ⟨hbefore, rfl⟩, fun c hc _ => Nat.lt_succ_of_lt hc⟩
      · exact Or.inr ⟨_, Nat.lt_succ_self _, hcpu, by rw [Shared.put_self]; exact low_ne_zero hnow⟩
  | wrForClear | wrCasFailed | wrReread => exact Or.inl ⟨k, hfound, fun c hc _ => hc⟩
  | wrWait hend hne => exact Or.inl ⟨_, ⟨hne, rfl⟩, fun c _ hc => hfound.2 ▸ hc⟩
  | wrLock | wrWoken => exact absurd rfl hfound.1
  | _ => exact hfound.elim

end Found

end Act

variable {T : Type} [Fintype T] [DecidableEq T] {maxNcpus : Nat} {loc : T → Point} {sh sh' : Shared T} {t : T}
  {l : Point}

/-- Of the first `k` CPUs one still counts a reader, or a thread is pending. -/
def Owed (maxNcpus : Nat) (loc : T → Point) (k : Nat) : Prop :=
  (∃ c, c < k ∧ c < maxNcpus ∧ 0 < count (fun l => counted c l = true) loc) ∨ ∃ t, pending (loc t) = true

theorem owed_step (hI : Inv maxNcpus ⟨loc, sh⟩) (hfew : Few ⟨loc, sh⟩) (h : Act maxNcpus t (loc t) sh l sh') {k : Nat}
    (hraised : ∀ c < k, c < maxNcpus → (sh.dcbReaders c).msb = true)
    (hpending : pending (loc t) = true → pending l = true) (howed : Owed maxNcpus loc k) :
    Owed maxNcpus (update loc t l) k := by
  obtain ⟨c, hk, hc, hcount⟩ | howed := howed
  · by_cases hafter : 0 < count (fun l => counted c l = true) (update loc t l)
    · exact Or.inl ⟨c, hk, hc, hafter⟩
    · -- the one reader of the CPU leaves it, and finds the flag and nothing else
      rw [count_pos, not_exists] at hafter
      obtain ⟨u, hu⟩ := count_pos.mp hcount
      obtain rfl : u = t := by
        by_contra hne
        apply hafter u
        rwa [update_of_ne hne]
      have hout : counted c l = false := by
        have hself := hafter u
        rwa [update_self, Bool.not_eq_true] at hself
      have hzero : (low (sh'.dcbReaders c)).toNat = 0 := by
        rw [(counter_step hI hfew h c).1, ← Nat.le_zero, ← Nat.not_lt, count_pos, not_exists]
        exact hafter
      have hflag : (sh'.dcbReaders c).msb = true := by
        obtain hsame | ⟨old, readers, hcas, -⟩ | ⟨old, hcas, -⟩ := (counter_step hI hfew h c).2
        · exact hsame.trans (hraised c hk hc)
        · exact absurd hu (by simp [hcas, counted])
        · exact absurd hu (by simp [hcas, counted])
      exact Or.inr ⟨u, by rw [update_self, act_leaves h hu hout (eq_useLock hflag hzero)]⟩
  · exact Or.inr (exists_update_of_exists (q := fun l => pending l = true) howed hpending)

theorem found_step (hI : Inv maxNcpus ⟨loc, sh⟩) (hfew : Few ⟨loc, sh⟩) (h : Act maxNcpus t (loc t) sh l sh')
    (howed : ∀ w k, Found maxNcpus sh w k (loc w) → Owed maxNcpus loc k) (w : T) :
    ∀ k, Found maxNcpus sh' w k (update loc t l w) → Owed maxNcpus (update loc t l) k := by
  apply forall_update (Q := fun w l' => ∀ k, Found maxNcpus sh' w k l' → Owed maxNcpus (update loc t l) k)
  · intro k hfound
    obtain ⟨k', hbefore, hmono⟩ | ⟨c, hk, hc, hlow⟩ := act_found h (hI.cpus t) hfound
    · have hpending : pending (loc t) = true → pending l = true := by
        rw [not_pending_of_found hbefore]
        rintro ⟨⟩
      have hraised (c : Nat) (hk : c < k') (hc : c < maxNcpus) : (sh.dcbReaders c).msb = true :=
        hI.raised c hc t (raised_of_found hbefore hk)
      obtain ⟨c, hk, hc, hcount⟩ | hafter := owed_step hI hfew h hraised hpending (howed t k' hbefore)
      · exact Or.inl ⟨c, hmono c hk hc, hc, hcount⟩
      · exact Or.inr hafter
    · rw [(counter_step hI hfew h c).1] at hlow
      exact Or.inl ⟨c, hk, hc, hlow⟩
  · intro u hne k hfound
    have hwait : u ∈ sh'.ncaDcbWait → u ∈ sh.ncaDcbWait := by
      intro hu
      obtain ⟨heq, -⟩ | ⟨-, hu⟩ := act_wait h (hI.waits t) hu
      · exact absurd heq hne
      · exact hu
    have hbefore : Found maxNcpus sh u k (loc u) := found_of_wait hfound hwait
    apply owed_step hI hfew h _ _ (howed u k hbefore)
    · intro c hk hc
      exact hI.raised c hc u (raised_of_found hbefore hk)
    · intro hpending
      obtain hafter | ⟨hlock, hsignal⟩ := act_pending h hpending
      · exact hafter
      · -- `t` signals under the lock, so `u` does not hold it but waits, and no other thread does
        obtain hheld | hu := found_lock_or_wait hfound
        · exact absurd (hI.lock.unique hheld hlock) hne
        · obtain hnone | ⟨v, hv, hrest⟩ := hsignal
          · rw [hnone] at hu
            exact absurd hu (Finset.notMem_empty u)
          · have hreaders : ∀ w ∈ sh.ncaDcbWait, holdsReaders (loc w) = true := by
              intro w hw
              have hpoint : loc w = .wrWait := hI.waits w hw
              rw [hpoint]
              rfl
            rw [hI.readers.unique (hreaders v hv) (hreaders u (hwait hu))] at hrest
            rw [hrest] at hu
            exact absurd hu (Finset.notMem_erase u _)

theorem run_found {s : State T Point (Shared T)} (h : Run (Act maxNcpus) Few (initial T) s) :
    Inv maxNcpus s ∧ ∀ w k, Found maxNcpus s.shared w k (s.loc w) → Owed maxNcpus s.loc k := by
  apply h.invariant (I := fun s => Inv maxNcpus s ∧ ∀ w k, Found maxNcpus s.shared w k (s.loc w) → Owed maxNcpus s.loc k)
  · exact ⟨inv_initial, fun w k hfound => hfound.elim⟩
  · intro t loc sh l sh' ⟨hI, howed⟩ hfew _ hact
    exact ⟨hI.step hfew hact, found_step hI hfew hact howed⟩

/-- No wakeup is lost: while a writer waits for a signal and no counter counts
a reader, there is a thread that has yet to signal. -/
theorem no_lost_wakeup {s : State T Point (Shared T)} (h : Run (Act maxNcpus) Few (initial T) s) {w : T}
    (hblocked : s.loc w = .wrWait) (hwait : w ∈ s.shared.ncaDcbWait)
    (hzero : ∀ cpu < maxNcpus, s.shared.dcbReaders cpu &&& countMask = 0#32) : ∃ t, pending (s.loc t) = true := by
  obtain ⟨hI, howed⟩ := run_found h
  have hfound : Found maxNcpus s.shared w maxNcpus (s.loc w) := by
    rw [hblocked]
    exact ⟨hwait, rfl⟩
  obtain ⟨c, -, hc, hcount⟩ | hpending := howed w maxNcpus hfound
  · have hlow := toNat_and_countMask (hI.low_lt (h.last few_initial) c)
    rw [hzero c hc, hI.counts c] at hlow
    exact absurd hlow.symm hcount.ne'
  · exact hpending

/-- The reader leaves after the writer has counted it, and before the writer
waits. -/
theorem no_lost_wakeup_two :
    ∃ s, Run (Act 1) Few (initial (Fin 2)) s ∧ s.loc 1 = .wrWait ∧ 1 ∈ s.shared.ncaDcbWait ∧
      ∃ t, pending (s.loc t) = true := by
  have hfew := few_of_card (T := Fin 2) (by decide)
  have hstart : Run (Act 1) Few (initial (Fin 2)) ⟨fun _ => .idle, ⟨fun _ => 0#32, none, none, ∅⟩⟩ :=
    Relation.ReflTransGen.refl
  have hinside := (hstart.next hfew 0 (.rdEnter (show 0 < _ by decide))).next hfew 0 (.rdAdmitted (by decide))
  have hlocked := ((hinside.next hfew 1 .wrEnter).next hfew 1 (.wrReadersEnter rfl)).next hfew 1 (.wrLock rfl)
  have hcounted := (hlocked.next hfew 1 (.wrForClear (by decide) (by decide))).next hfew 1 (.wrCas rfl)
  have hwaits := (hcounted.next hfew 0 (.rxSubLast (by decide))).next hfew 1 (.wrWait (by decide) (by decide))
  exact ⟨_, hwaits, rfl, by decide, no_lost_wakeup hwaits (w := 1) rfl (by decide) (by decide)⟩

end SysvDev.Nca.Wakeup
