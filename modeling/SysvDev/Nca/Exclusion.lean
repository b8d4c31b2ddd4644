import SysvDev.Nca.Crowd

namespace SysvDev.Nca.Exclusion

open Function Interleaving Lock Invariant

section Act

variable {T : Type} [DecidableEq T] {maxNcpus c : Nat} {t : T} {l l' : Point} {sh sh' : Shared T}

def summands (maxNcpus : Nat) (sh : Shared T) : Point → Option (BitVec 32 × BitVec 32)
  | .wrFor cpu readers =>
      if cpu < maxNcpus ∧ sh.dcbReaders cpu &&& useLock ≠ 0#32 then
        some (readers, sh.dcbReaders cpu &&& countMask)
      else none
  | .wrCas cpu old readers =>
      if sh.dcbReaders cpu = old then some (readers, (old ||| useLock) &&& countMask) else none
  | _ => none

/-- The sum of the counts is an `int`, which does not overflow to 0. -/
def SumFits (maxNcpus : Nat) (sh : Shared T) (l : Point) : Prop :=
  ∀ readers x, summands maxNcpus sh l = some (readers, x) → readers.toNat + x.toNat < 4294967296

def Vacant (c : Nat) : Point → Prop
  | .wrFor cpu readers | .wrCas cpu _ readers | .wrReread cpu readers => readers = 0#32 ∧ c < cpu
  | .wrUnlock | .wrInside | .wxLock => True
  | _ => False

theorem raised_of_vacant (h : Vacant c l) : Raised c l := by
  cases l <;> simp_all [Vacant, Raised]

theorem add_eq_zero {a b : BitVec 32} (hfits : a.toNat + b.toNat < 4294967296) (h : a + b = 0#32) :
    a = 0#32 ∧ b = 0#32 := by
  have hsum := congrArg BitVec.toNat h
  rw [BitVec.toNat_add, Nat.mod_eq_of_lt hfits, show (0#32).toNat = 0 from rfl] at hsum
  exact ⟨BitVec.eq_of_toNat_eq (Nat.eq_zero_of_add_eq_zero_right hsum),
    BitVec.eq_of_toNat_eq (Nat.eq_zero_of_add_eq_zero_left hsum)⟩

theorem act_vacant (h : Act maxNcpus t l sh l' sh') (hfits : SumFits maxNcpus sh l) (hc : c < maxNcpus)
    (hl' : Vacant c l') : Vacant c l ∨ sh'.dcbReaders c &&& countMask = 0#32 := by
  cases h with
  | wrForSet hlt hset =>
      obtain ⟨hzero, hcpu⟩ := hl'
      obtain ⟨hreaders, hmask⟩ := add_eq_zero (hfits _ _ (if_pos ⟨hlt, hset⟩)) hzero
      obtain hbefore | rfl := Nat.lt_succ_iff_lt_or_eq.mp hcpu
      · exact Or.inl ⟨hreaders, hbefore⟩
      · exact Or.inr hmask
  | wrCas hold =>
      obtain ⟨hzero, hcpu⟩ := hl'
      obtain ⟨hreaders, hmask⟩ := add_eq_zero (hfits _ _ (if_pos hold)) hzero
      obtain hbefore | rfl := Nat.lt_succ_iff_lt_or_eq.mp hcpu
      · exact Or.inl ⟨hreaders, hbefore⟩
      · exact Or.inr (by rw [Shared.put_self, hmask])
  | wrBreak hend hzero => exact Or.inl ⟨hzero, Nat.lt_of_lt_of_le hc (Nat.le_of_not_lt hend)⟩
  | wrLock | wrWoken => exact absurd hl'.2 (Nat.not_lt_zero c)
  | _ => simp_all [Vacant]

theorem act_inside (h : Act maxNcpus t l sh l' sh') (hl' : l' = .rdInside c) :
    (sh'.dcbReaders c).msb = false := by
  cases h with
  | rdAdmitted hclear =>
      obtain rfl := Point.rdInside.inj hl'
      rw [Shared.put_self]
      exact and_useLock.mp hclear
  | _ => cases hl'

end Act

variable {T : Type} [Fintype T] [DecidableEq T] {maxNcpus : Nat} {loc : T → Point} {sh sh' : Shared T} {t : T}
  {l : Point} {s : State T Point (Shared T)}

def Fits (maxNcpus : Nat) (s : State T Point (Shared T)) : Prop := ∀ t, SumFits maxNcpus s.shared (s.loc t)

theorem vacant_step (hI : Inv maxNcpus ⟨loc, sh⟩) (hfew : Few ⟨loc, sh⟩) (hfew' : Few ⟨update loc t l, sh'⟩)
    (hfits : Fits maxNcpus ⟨loc, sh⟩) (h : Act maxNcpus t (loc t) sh l sh')
    (hvacant : ∀ c < maxNcpus, ∀ w, Vacant c (loc w) → ∀ u, loc u ≠ .rdInside c) :
    ∀ c < maxNcpus, ∀ w, Vacant c (update loc t l w) → ∀ u, update loc t l u ≠ .rdInside c := by
  have hafter := hI.step hfew h
  intro c hc w hw u
  by_cases hut : u = t
  · -- no reader is admitted where the flag is set
    rw [hut, update_self]
    intro hl
    have hmsb : (sh'.dcbReaders c).msb = true := hafter.raised c hc w (raised_of_vacant hw)
    rw [act_inside h hl] at hmsb
    cases hmsb
  · rw [update_of_ne hut]
    by_cases hwt : w = t
    · rw [hwt, update_self] at hw
      obtain hbefore | hmask := act_vacant h (hfits t) hc hw
      · exact hvacant c hc t hbefore u
      · intro hin
        have hcount : 0 < count (fun l => counted c l = true) (update loc t l) :=
          count_pos.mpr ⟨u, by rw [update_of_ne hut, hin, counted, beq_self_eq_true]⟩
        have hlow := toNat_and_countMask (hafter.low_lt hfew' c)
        rw [hafter.counts c, hmask] at hlow
        exact absurd hlow.symm hcount.ne'
    · rw [update_of_ne hwt] at hw
      exact hvacant c hc w hw u

theorem run_vacant (h : Run (Act maxNcpus) (fun s => Few s ∧ Fits maxNcpus s) (initial T) s) :
    Inv maxNcpus s ∧ ∀ c < maxNcpus, ∀ w, Vacant c (s.loc w) → ∀ u, s.loc u ≠ .rdInside c := by
  apply h.invariant (I := fun s =>
    Inv maxNcpus s ∧ ∀ c < maxNcpus, ∀ w, Vacant c (s.loc w) → ∀ u, s.loc u ≠ .rdInside c)
  · exact ⟨inv_initial, fun c _ w hvacant => hvacant.elim⟩
  · intro t loc sh l sh' ⟨hI, hvacant⟩ ⟨hfew, hfits⟩ ⟨hfew', _⟩ hact
    exact ⟨hI.step hfew hact, vacant_step hI hfew hfew' hfits hact hvacant⟩

section Bound

/-! Where there are not that many readers the sum does not overflow. -/

variable {M : Nat}

/-- The sum over the CPUs so far, with at most `M` readers on each. -/
def Sum (M : Nat) : Point → Prop
  | .wrFor c readers | .wrCas c _ readers | .wrReread c readers => readers.toNat ≤ c * M
  | _ => True

theorem or_and_countMask (x : BitVec 32) : (x ||| useLock) &&& countMask = x &&& countMask := by
  have hnone : countMask &&& useLock = 0#32 := by decide
  rw [BitVec.and_comm, BitVec.and_or_distrib_left, hnone, BitVec.or_zero, BitVec.and_comm]

theorem toNat_add_le {a b : BitVec 32} {c : Nat} (ha : a.toNat ≤ c * M) (hb : b.toNat ≤ M) :
    (a + b).toNat ≤ (c + 1) * M := by
  rw [BitVec.toNat_add, Nat.succ_mul]
  exact (Nat.mod_le _ _).trans (Nat.add_le_add ha hb)

omit [Fintype T] in
theorem act_sum {l l' : Point} (h : Act maxNcpus t l sh l' sh')
    (hmask : ∀ c, (sh.dcbReaders c &&& countMask).toNat ≤ M) (hl : Sum M l) : Sum M l' := by
  cases h with
  | wrForSet => exact toNat_add_le hl (hmask _)
  | wrCas hold =>
      apply toNat_add_le hl
      rw [or_and_countMask, ← hold]
      exact hmask _
  | wrLock | wrWoken => exact Nat.zero_le _
  | wrForClear | wrCasFailed | wrReread => exact hl
  | _ => trivial

theorem add_lt_of_sum {a b c : Nat} (hM : maxNcpus * M < 4294967296) (hc : c < maxNcpus) (ha : a ≤ c * M) (hb : b ≤ M) :
    a + b < 4294967296 :=
  calc
    a + b ≤ c * M + M := Nat.add_le_add ha hb
    _ = (c + 1) * M := (Nat.succ_mul c M).symm
    _ ≤ maxNcpus * M := Nat.mul_le_mul_right M hc
    _ < 4294967296 := hM

omit [Fintype T] [DecidableEq T] in
theorem sumFits_of_sum (hM : maxNcpus * M < 4294967296) (hcpu : OnCpu maxNcpus l) (hsum : Sum M l)
    (hmask : ∀ c, (sh.dcbReaders c &&& countMask).toNat ≤ M) : SumFits maxNcpus sh l := by
  intro readers x hsummands
  cases l with
  | wrFor c r =>
      rw [summands] at hsummands
      split at hsummands
      next hset =>
        obtain ⟨rfl, rfl⟩ := Prod.mk.inj (Option.some.inj hsummands)
        exact add_lt_of_sum hM hset.1 hsum (hmask c)
      next => cases hsummands
  | wrCas c old r =>
      rw [summands] at hsummands
      split at hsummands
      next hold =>
        obtain ⟨rfl, rfl⟩ := Prod.mk.inj (Option.some.inj hsummands)
        rw [or_and_countMask, ← hold]
        exact add_lt_of_sum hM hcpu hsum (hmask c)
      next => cases hsummands
  | _ => cases hsummands

theorem run_fits (hM : maxNcpus * M < 4294967296) (hlt : M < 1073741824)
    (h : Run (Act maxNcpus) (fun s => count (fun l => reading l = true) s.loc ≤ M) (initial T) s) :
    Run (Act maxNcpus) (fun s => Few s ∧ Fits maxNcpus s) (initial T) s := by
  have hmask {s : State T Point (Shared T)} (hI : Inv maxNcpus s)
      (hfew : count (fun l => reading l = true) s.loc ≤ M) (c : Nat) :
      (s.shared.dcbReaders c &&& countMask).toNat ≤ M := by
    rw [toNat_and_countMask (hI.low_lt (Nat.lt_of_le_of_lt hfew hlt) c), hI.counts c]
    exact (count_mono fun l => reading_of_counted).trans hfew
  apply h.strengthen (I := fun s => Inv maxNcpus s ∧ ∀ w, Sum M (s.loc w))
  · exact ⟨inv_initial, fun w => trivial⟩
  · intro t loc sh l sh' ⟨hI, hsum⟩ hfew _ hact
    refine ⟨hI.step (Nat.lt_of_le_of_lt hfew hlt) hact, ?_⟩
    exact forall_update (Q := fun _ => Sum M) (act_sum hact (hmask hI hfew) (hsum t)) fun u _ => hsum u
  · intro s ⟨hI, hsum⟩ hfew
    exact ⟨Nat.lt_of_le_of_lt hfew hlt, fun w => sumFits_of_sum hM (hI.cpus w) (hsum w) (hmask hI hfew)⟩

end Bound

def away : Point → Bool
  | .idle | .rxLock | .rxHasWaiters | .rxSignal | .rxUnlock | .wxUnlock | .wxReadersExit => true
  | _ => false

theorem not_counted_of_away {c : Nat} (h : away l = true) : counted c l = false := by
  cases l <;> simp_all [away, counted]

theorem not_mayRaise_of_away {c : Nat} (h : away l = true) : ¬ MayRaise c l := by
  cases l <;> simp_all [away, MayRaise]

omit [DecidableEq T] in
theorem counters_zero (hI : Inv maxNcpus s) (haway : ∀ t, away (s.loc t) = true) (c : Nat) (hc : c < maxNcpus) :
    s.shared.dcbReaders c = 0#32 := by
  apply eq_zero
  · by_contra hmsb
    obtain ⟨t, ht⟩ := hI.lowered c hc (Bool.not_eq_false _ ▸ hmsb)
    exact not_mayRaise_of_away (haway t) ht
  · rw [hI.counts c]
    by_contra hne
    obtain ⟨t, ht⟩ := count_pos.mp (Nat.pos_of_ne_zero hne)
    rw [not_counted_of_away (haway t)] at ht
    cases ht

/-- In an interleaving in which the sum of the counts does not overflow, no
reader is inside with a writer, at most one writer is inside, and the counters
are 0 whenever all threads are away. -/
theorem exclusion (h : Run (Act maxNcpus) (fun s => Few s ∧ Fits maxNcpus s) (initial T) s) :
    (∀ t u cpu, s.loc t = .rdInside cpu → s.loc u ≠ .wrInside) ∧
      (∀ t u, s.loc t = .wrInside → s.loc u = .wrInside → t = u) ∧
      ((∀ t, away (s.loc t) = true) → ∀ cpu < maxNcpus, s.shared.dcbReaders cpu = 0#32) := by
  obtain ⟨hI, hvacant⟩ := run_vacant h
  refine ⟨?_, ?_, counters_zero hI⟩
  · intro t u cpu ht hu
    have hcpu := hI.cpus t
    rw [ht] at hcpu
    exact hvacant cpu hcpu u (by rw [hu]; trivial) t ht
  · intro t u ht hu
    apply hI.readers.unique
    · rw [ht]
      rfl
    · rw [hu]
      rfl

/-- A reader is inside, and another thread attempts to write. -/
theorem exclusion_two :
    ∃ s, Run (Act 1) (fun s => Few s ∧ Fits 1 s) (initial (Fin 2)) s ∧ s.loc 0 = .rdInside 0 ∧ s.loc 1 ≠ .wrInside := by
  have hfew (s : State (Fin 2) Point (Shared (Fin 2))) : count (fun l => reading l = true) s.loc ≤ 2 := count_le_card
  have hstart : Run (Act 1) (fun s => count (fun l => reading l = true) s.loc ≤ 2) (initial (Fin 2))
      ⟨fun _ => .idle, ⟨fun _ => 0#32, none, none, ∅⟩⟩ := Relation.ReflTransGen.refl
  have hinside := (hstart.next hfew 0 (.rdEnter (show 0 < _ by decide))).next hfew 0 (.rdAdmitted (by decide))
  have hattempt := run_fits (by decide) (by decide) (hinside.next hfew 1 .wrEnter)
  exact ⟨_, hattempt, rfl, (exclusion hattempt).1 0 1 0 rfl⟩

/-- Five CPUs and 2³⁰ - 1 threads: readers that the writer has counted on one
CPU move on to the next, until the sum is 2³². -/
theorem exclusion_overflows :
    ∃ s : State (Fin 1073741823) Point (Shared (Fin 1073741823)), Run (Act 5) Few (initial (Fin 1073741823)) s ∧
      s.loc ⟨0, by decide⟩ = .rdInside 0 ∧ s.loc ⟨1073741822, by decide⟩ = .wrInside := by
  have hfew := few_of_card (T := Fin 1073741823) (by rw [Fintype.card_fin]; decide)
  obtain ⟨s₀, hrun₀, hscan₀⟩ := Crowd.run_begin hfew ⟨1073741822, by decide⟩
  obtain ⟨s₁, hrun₁, hscan₁⟩ := Crowd.run_scan 5 (m := 1073741821) hfew (by decide) (by decide)
    (by decide) hscan₀
  obtain ⟨s₂, hrun₂, hscan₂⟩ := Crowd.run_scan 5 (m := 1073741820) hfew (by decide) (by decide)
    (by decide) hscan₁
  obtain ⟨s₃, hrun₃, hscan₃⟩ := Crowd.run_scan 5 (m := 1073741819) hfew (by decide) (by decide)
    (by decide) hscan₂
  obtain ⟨s₄, hrun₄, hscan₄⟩ := Crowd.run_scan 5 (m := 1073741818) hfew (by decide) (by decide)
    (by decide) hscan₃
  obtain ⟨s₅, hrun₅, hscan₅⟩ := Crowd.run_scan 5 (m := 13) hfew (by decide) (by decide)
    (by decide) hscan₄
  obtain ⟨s, hrun, hwriter, hother⟩ := Crowd.run_break 5 hfew (by decide) hscan₅
  have hall := ((((hrun₀.trans hrun₁).trans hrun₂).trans hrun₃).trans hrun₄).trans (hrun₅.trans hrun)
  refine ⟨s, hall, ?_, hwriter⟩
  rw [hother _ (Fin.ne_of_val_ne (by decide)), hscan₅.stay _ (by decide)]

end SysvDev.Nca.Exclusion
