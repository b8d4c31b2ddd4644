import SysvDev.Nca.Invariant

namespace SysvDev.Nca.Crowd

open Function Interleaving Lock Invariant Relation

variable {N maxNcpus c i m : Nat} {P : State (Fin N) Point (Shared (Fin N)) → Prop}
  {s : State (Fin N) Point (Shared (Fin N))} {t w : Fin N}

/-! The threads numbered from `i` on act one after the other. -/

theorem or_useLock (h : m < 2147483648) : BitVec.ofNat 32 m ||| useLock = useLock + BitVec.ofNat 32 m := by
  have hdisjoint : BitVec.ofNat 32 m &&& useLock = 0#32 := by
    rw [and_useLock, msb_eq_decide, BitVec.toNat_ofNat, decide_eq_false_iff_not]
    omega
  rw [BitVec.add_comm, BitVec.add_eq_or_of_and_eq_zero _ _ hdisjoint]

theorem and_countMask (h : m < 1073741824) : (BitVec.ofNat 32 m ||| useLock) &&& countMask = BitVec.ofNat 32 m := by
  have hlow : (low (BitVec.ofNat 32 m ||| useLock)).toNat = m := by
    rw [low_or, toNat_low, BitVec.toNat_ofNat]
    omega
  apply BitVec.eq_of_toNat_eq
  rw [toNat_and_countMask (by omega), hlow, BitVec.toNat_ofNat]
  omega

theorem run_step {l : Point} {sh' : Shared (Fin N)} (hP : ∀ s, P s) (h : Act maxNcpus t (s.loc t) s.shared l sh') :
    Run (Act maxNcpus) P s ⟨update s.loc t l, sh'⟩ :=
  ReflTransGen.single ⟨hP _, ⟨t, h⟩, hP _⟩

theorem run_enter (hP : ∀ s, P s) (hc : c < maxNcpus) (hidle : s.loc t = .idle)
    (hclear : (s.shared.dcbReaders c + 1) &&& useLock = 0#32) :
    Run (Act maxNcpus) P s ⟨update s.loc t (.rdInside c), s.shared.put c (s.shared.dcbReaders c + 1)⟩ := by
  have hbegin : Run (Act maxNcpus) P s ⟨update s.loc t (.rdAdd c), s.shared⟩ :=
    run_step hP (by rw [hidle]; exact .rdEnter hc)
  have hadd := hbegin.next hP t (l := .rdInside c)
    (by rw [update_self]; exact .rdAdmitted hclear)
  rwa [update_idem] at hadd

theorem run_enter_many (hP : ∀ s, P s) (hc : c < maxNcpus) (hm : m < 1073741824) (hN : i + m ≤ N)
    (hidle : ∀ t : Fin N, i ≤ t.val → t.val < i + m → s.loc t = .idle) (hzero : s.shared.dcbReaders c = 0#32) :
    ∃ s', Run (Act maxNcpus) P s s' ∧ s'.shared = s.shared.put c (BitVec.ofNat 32 m) ∧
      (∀ t : Fin N, i ≤ t.val → t.val < i + m → s'.loc t = .rdInside c) ∧
      ∀ t : Fin N, t.val < i ∨ i + m ≤ t.val → s'.loc t = s.loc t := by
  induction m with
  | zero =>
      refine ⟨s, ReflTransGen.refl, ?_, fun t hge hlt => absurd hge (by omega), fun t _ => rfl⟩
      rw [Shared.put, ← hzero, update_eq_self]
  | succ m ih =>
      obtain ⟨s', hrun, hshared, hin, hout⟩ :=
        ih (by omega) (by omega) fun t hge hlt => hidle t hge (by omega)
      have hnext : (s'.shared.dcbReaders c + 1) = BitVec.ofNat 32 (m + 1) := by
        rw [hshared, Shared.put_self, BitVec.ofNat_add]
        rfl
      have hclear : (s'.shared.dcbReaders c + 1) &&& useLock = 0#32 := by
        rw [hnext, and_useLock, msb_eq_decide, BitVec.toNat_ofNat, decide_eq_false_iff_not]
        omega
      have hlast : s'.loc ⟨i + m, by omega⟩ = .idle := by
        rw [hout _ (Or.inr le_rfl)]
        exact hidle _ (by simp) (by simp)
      refine ⟨_, hrun.trans (run_enter hP hc hlast hclear), ?_, ?_, ?_⟩
      · rw [hnext, hshared, Shared.put_put]
      · intro u hge hlt
        by_cases hu : u.val = i + m
        · have heq : u = ⟨i + m, by omega⟩ := Fin.ext hu
          rw [heq]
          exact update_self _ _ _
        · exact (update_of_ne (Fin.ne_of_val_ne hu) _ _).trans (hin u hge (by omega))
      · intro u hu
        have hne : u.val ≠ i + m := by omega
        exact (update_of_ne (Fin.ne_of_val_ne hne) _ _).trans (hout u (by omega))

theorem run_exit_many (hP : ∀ s, P s) (hm : m < 1073741824) (hN : i + m ≤ N)
    (hin : ∀ t : Fin N, i ≤ t.val → t.val < i + m → s.loc t = .rdInside c)
    (hcount : s.shared.dcbReaders c = useLock + BitVec.ofNat 32 (m + 1)) :
    ∃ s', Run (Act maxNcpus) P s s' ∧ s'.shared = s.shared.put c (useLock + 1) ∧
      (∀ t : Fin N, i ≤ t.val → t.val < i + m → s'.loc t = .idle) ∧
      ∀ t : Fin N, t.val < i ∨ i + m ≤ t.val → s'.loc t = s.loc t := by
  induction m generalizing s with
  | zero =>
      refine ⟨s, ReflTransGen.refl, ?_, fun t hge hlt => absurd hge (by omega), fun t _ => rfl⟩
      have hone : useLock + 1 = s.shared.dcbReaders c := hcount.symm
      rw [Shared.put, hone, update_eq_self]
  | succ m ih =>
      have hnext : s.shared.dcbReaders c - 1 = useLock + BitVec.ofNat 32 (m + 1) := by
        rw [hcount, BitVec.ofNat_add (m + 1) 1, ← BitVec.add_assoc]
        exact BitVec.add_sub_cancel _ _
      have hne : s.shared.dcbReaders c - 1 ≠ useLock := by
        intro heq
        rw [hnext, add_eq_left] at heq
        have hval := congrArg BitVec.toNat heq
        simp at hval
        omega
      let s₁ : State (Fin N) Point (Shared (Fin N)) :=
        ⟨update s.loc ⟨i + m, by omega⟩ .idle, s.shared.put c (s.shared.dcbReaders c - 1)⟩
      have hstep : Run (Act maxNcpus) P s s₁ := run_step hP (by rw [hin _ (by simp) (by simp)]; exact .rxSub hne)
      have hother (t : Fin N) (ht : t.val ≠ i + m) : s₁.loc t = s.loc t := update_of_ne (Fin.ne_of_val_ne ht) _ _
      obtain ⟨s', hrun, hshared, hidle, hout⟩ := ih (s := s₁) (by omega) (by omega)
        (fun t hge hlt => (hother t (by omega)).trans (hin t hge (by omega)))
        ((Shared.put_self _ _ _).trans hnext)
      refine ⟨s', hstep.trans hrun, ?_, ?_, ?_⟩
      · rw [hshared, Shared.put_put]
      · intro t hge hlt
        by_cases ht : t.val = i + m
        · rw [hout t (by omega)]
          have heq : t = ⟨i + m, by omega⟩ := Fin.ext ht
          rw [heq]
          exact update_self _ _ _
        · exact hidle t hge (by omega)
      · intro t ht
        rw [hout t (by omega), hother t (by omega)]

/-- A writer `w` that has got to CPU `i`: one reader stays on each CPU before,
and no other thread does anything. -/
structure Scanning (w : Fin N) (i : Nat) (readers : BitVec 32) (s : State (Fin N) Point (Shared (Fin N))) : Prop where
  writer : s.loc w = .wrFor i readers
  stay : ∀ t : Fin N, t.val < i → s.loc t = .rdInside t.val
  rest : ∀ t : Fin N, i ≤ t.val → t.val < w.val → s.loc t = .idle
  counters : ∀ c, i ≤ c → s.shared.dcbReaders c = 0#32

/-- While the writer gets to the next CPU, `m + 1` readers let it count them
and leave, but for one. -/
theorem run_scan (maxNcpus : Nat) {readers : BitVec 32} (hP : ∀ s, P s) (hi : i < maxNcpus) (hm : m + 1 < 1073741824)
    (hw : i + m < w.val) (h : Scanning w i readers s) :
    ∃ s', Run (Act maxNcpus) P s s' ∧ Scanning w (i + 1) (readers + BitVec.ofNat 32 (m + 1)) s' := by
  obtain ⟨s₁, hrun₁, hshared₁, hin₁, hout₁⟩ := run_enter_many (m := m + 1) (i := i) (s := s) hP hi hm (by omega)
    (fun t hge hlt => h.rest t hge (by omega)) (h.counters i le_rfl)
  have hcount₁ : s₁.shared.dcbReaders i = BitVec.ofNat 32 (m + 1) := by rw [hshared₁, Shared.put_self]
  have hclear₁ : s₁.shared.dcbReaders i &&& useLock = 0#32 := by
    rw [hcount₁, and_useLock, msb_eq_decide, BitVec.toNat_ofNat, decide_eq_false_iff_not]
    omega
  have hread : Run (Act maxNcpus) P s₁ ⟨update s₁.loc w (.wrCas i (BitVec.ofNat 32 (m + 1)) readers), s₁.shared⟩ := by
    apply run_step hP
    rw [hout₁ w (by omega), h.writer, ← hcount₁]
    exact .wrForClear hi hclear₁
  have hact : Act maxNcpus w (.wrCas i (BitVec.ofNat 32 (m + 1)) readers) s₁.shared _ _ := .wrCas hcount₁
  rw [and_countMask hm, or_useLock (by omega)] at hact
  have hcas := hread.next hP w (by rw [update_self]; exact hact)
  rw [update_idem] at hcas
  have hother (t : Fin N) (ht : t.val < w.val) :
      update s₁.loc w (.wrFor (i + 1) (readers + BitVec.ofNat 32 (m + 1))) t = s₁.loc t :=
    update_of_ne (Fin.ne_of_val_ne (by omega)) _ _
  obtain ⟨s₃, hrun₃, hshared₃, hidle₃, hout₃⟩ := run_exit_many (i := i + 1) (m := m) (c := i) hP
    (s := ⟨_, s₁.shared.put i (useLock + BitVec.ofNat 32 (m + 1))⟩) (by omega) (by omega)
    (fun t hge hlt => (hother t (by omega)).trans (hin₁ t (by omega) (by omega))) (Shared.put_self _ _ _)
  refine ⟨s₃, (hrun₁.trans hcas).trans hrun₃, ?_, ?_, ?_, ?_⟩
  · exact (hout₃ w (by omega)).trans (update_self _ _ _)
  · intro t ht
    rw [hout₃ t (by omega)]
    apply (hother t (by omega)).trans
    by_cases hti : t.val = i
    · rw [hin₁ t (by omega) (by omega), hti]
    · rw [hout₁ t (by omega), h.stay t (by omega)]
  · intro t hge hlt
    by_cases htm : t.val < i + 1 + m
    · exact hidle₃ t hge htm
    · rw [hout₃ t (by omega)]
      apply (hother t hlt).trans
      rw [hout₁ t (by omega), h.rest t (by omega) hlt]
  · intro c hc
    have hne : c ≠ i := by omega
    rw [hshared₃, Shared.put_of_ne _ _ hne, Shared.put_of_ne _ _ hne, hshared₁, Shared.put_of_ne _ _ hne,
      h.counters c (by omega)]

theorem run_begin (hP : ∀ s, P s) (w : Fin N) :
    ∃ s, Run (Act maxNcpus) P (initial (Fin N)) s ∧ Scanning w 0 0#32 s := by
  have henter : Run (Act maxNcpus) P (initial (Fin N))
      ⟨update (fun _ => .idle) w .wrReadersEnter, ⟨fun _ => 0#32, none, none, ∅⟩⟩ := run_step hP .wrEnter
  have hreaders := henter.next hP w (by rw [update_self]; exact .wrReadersEnter rfl)
  have hlock := hreaders.next hP w (by rw [update_self]; exact .wrLock rfl)
  refine ⟨_, hlock, update_self _ _ _, fun t ht => absurd ht (Nat.not_lt_zero _), ?_, fun c _ => rfl⟩
  intro t _ ht
  have hne : t ≠ w := Fin.ne_of_val_ne ht.ne
  simp [update_of_ne hne]

theorem run_break (maxNcpus : Nat) (hP : ∀ s, P s) (hi : ¬ i < maxNcpus) (h : Scanning w i 0#32 s) :
    ∃ s', Run (Act maxNcpus) P s s' ∧ s'.loc w = .wrInside ∧ ∀ t : Fin N, t ≠ w → s'.loc t = s.loc t := by
  have hbreak : Run (Act maxNcpus) P s ⟨update s.loc w .wrUnlock, s.shared⟩ :=
    run_step hP (by rw [h.writer]; exact .wrBreak hi rfl)
  have hunlock := hbreak.next hP w (by rw [update_self]; exact .wrUnlock)
  refine ⟨_, hunlock, update_self _ _ _, ?_⟩
  intro t ht
  simp [update_of_ne ht]

end SysvDev.Nca.Crowd
