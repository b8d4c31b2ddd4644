import SysvDev.Copy.Amd64.Routines
import SysvDev.Copy.I386.Routines

namespace SysvDev.Copy.Errno

open X86.Memory X86.Machine X86.Traps Inevitable Relation Text Call

set_option maxRecDepth 2000

section Reported

variable {w : Nat} (port : Port w) (k : Symbols) (o : State w) (f : Routine)

/-- The call has returned the errno: EFAULT for a user address that is too
high, 0 for a copy without a fault, and what the handler says for a fault. -/
structure Reported (p : Point w) : Prop extends port.Exit k o p where
  high : port.IsHigh k o f → p.cfg.state.regs.ax.setWidth 32 = 14#32 ∧ port.Own k o p.cfg.state.mem
  complete : ¬ port.IsHigh k o f → p.errno = none → p.cfg.state.regs.ax.setWidth 32 = 0#32 ∧
    port.Moved k o (port.args o).src (port.args o).dst (port.args o).count.toNat (port.args o).count.toNat
      p.cfg.state.mem
  fault : ¬ port.IsHigh k o f → ∀ e, p.errno = some e → p.cfg.state.regs.ax.setWidth 32 = e

/-- Whatever faults, the call returns the errno, and it copies none but the
bytes that it is asked for. -/
def Reports : Prop :=
  Until (port.Runs k) (Confined (port.text k) (port.args o).src (port.args o).dst (port.args o).count.toNat)
    (Reported port k o f) (port.start k o (.entry f))

end Reported

theorem exists_reported {w : Nat} {port : Port w} {k : Symbols} {o : State w} {f : Routine} {Q P : Point w → Prop}
    (h : Reports port k o f) (hcall : port.Admits k o) (hP : ∀ p, P p → port.Exit k o p)
    (huntil : Until (port.Runs k) Q P (port.start k o (.entry f))) : ∃ p, P p ∧ Reported port k o f p := by
  obtain ⟨p, hp, hreported⟩ := h.exists_end
  refine ⟨p, ?_, hreported⟩
  exact huntil.ends (fun b _ hb => (hP b hb).stops hcall.enters) hp fun c => hreported.toExit.stops hcall.enters

namespace Amd64

open Text.Amd64 Amd64.Core Amd64.Routines

variable {k : Symbols} {o : State 64} {f : Routine}

theorem reported_of_ended {p : Point 64} (hsrc : amd64.Clear k o o.regs.di o.regs.dx.toNat)
    (hdst : amd64.Clear k o o.regs.si o.regs.dx.toNat) (hlow : ¬ amd64.IsHigh k o f)
    (h : Ended k o o.regs.di o.regs.si o.regs.dx.toNat o.regs.dx.toNat p) : Reported amd64 k o f p := by
  refine ⟨h.exit, (absurd · hlow), fun _ herrno => ?_, fun _ e herrno => ?_⟩
  · cases h with
    | done _ hown hp hret _ =>
        rw [hret.ax, hret.mem]
        exact ⟨rfl, moved_of_progress hsrc hdst hown hp le_rfl (Nat.le_of_lt o.regs.dx.isLt)⟩
    | failed _ _ _ hsome => cases hsome.symm.trans herrno
  · cases h with
    | done _ _ _ _ hnone => cases hnone.symm.trans herrno
    | failed _ _ hret hsome =>
        obtain rfl := Option.some.inj (hsome.symm.trans herrno)
        rw [hret.ax]
        exact BitVec.setWidth_setWidth_of_le _ (by decide)

/-- A user address that is too high makes the call return kernelbase. -/
theorem reports_iff (hf : f = .xcopyinNta ∨ f = .xcopyoutNta) (hcall : amd64.Admits k o)
    (hsrc : amd64.Clear k o o.regs.di o.regs.dx.toNat) (hdst : amd64.Clear k o o.regs.si o.regs.dx.toNat) :
    Reports amd64 k o f ↔ (amd64.IsHigh k o f → (kernelbase k o.mem).setWidth 32 = 14#32) := by
  constructor
  · intro h hhigh
    have huntil : Comes k (fun _ => True) (fun p => ∃ m, Returned k o (kernelbase k o.mem) m p)
        (amd64.start k o (.entry f)) := by
      apply comes_xcopy hf hcall.enters (permits_confined fun _ _ _ => trivial) (fun _ => rfl) (fun _ => hdst)
        fun p hp => absurd hp hcall.not_hands
      · exact fun _ m p _ hp => ⟨m, hp⟩
      · exact fun _ _ _ _ _ _ _ _ _ _ => trivial
      · exact fun hlow => absurd hlow (Nat.not_lt.mpr hhigh)
    obtain ⟨p, ⟨m, hp⟩, hreported⟩ := exists_reported h hcall (fun p hp => hp.elim fun m hp => hp.toExit) huntil
    rw [← hp.ax]
    exact (hreported.high hhigh).1
  · intro h
    apply comes_xcopy hf hcall.enters (permits_confined fun p _ hp => hp) (fun _ => rfl) (fun _ => hdst)
      fun p hp => absurd hp hcall.not_hands
    · intro hhigh m p hown hp
      refine ⟨hp.toExit, fun _ => ?_, (absurd hhigh ·), (absurd hhigh ·)⟩
      rw [hp.ax, hp.mem]
      exact ⟨h hhigh, hown⟩
    · exact fun _ _ _ _ _ _ _ _ _ _ => confined_label
    · exact fun hlow p hp => reported_of_ended hsrc hdst (Nat.not_le.mpr hlow) hp

end Amd64

namespace I386

open Text.I386 I386.Core I386.Routines

variable {k : Symbols} {o : State 32} {f : Routine}

theorem reported_of_ended {p : Point 32} (hsrc : i386.Clear k o (i386.args o).src (i386.args o).count.toNat)
    (hdst : i386.Clear k o (i386.args o).dst (i386.args o).count.toNat) (hlow : ¬ i386.IsHigh k o f)
    (h : Ended k o (i386.args o).src (i386.args o).dst (i386.args o).count.toNat (i386.args o).count.toNat p) :
    Reported i386 k o f p := by
  refine ⟨h.exit, (absurd · hlow), fun _ herrno => ?_, fun _ e herrno => ?_⟩
  · cases h with
    | done _ hown hp hret _ =>
        rw [hret.ax, hret.mem]
        exact ⟨rfl, moved_of_progress hsrc hdst hown hp le_rfl (Nat.le_of_lt (i386.args o).count.isLt)⟩
    | failed _ _ _ hsome => cases hsome.symm.trans herrno
  · cases h with
    | done _ _ _ _ hnone => cases hnone.symm.trans herrno
    | failed _ _ hret hsome =>
        obtain rfl := Option.some.inj (hsome.symm.trans herrno)
        rw [hret.ax]
        exact BitVec.setWidth_eq _

/-- The call returns the address of its error label instead of EFAULT. -/
theorem not_isHigh_of_reports (hf : f = .xcopyinNta ∨ f = .xcopyoutNta) (hcall : i386.Admits k o)
    (hdst : i386.Clear k o (i386.args o).dst (i386.args o).count.toNat) (h : Reports i386 k o f) :
    ¬ i386.IsHigh k o f := by
  intro hhigh
  have huntil : Comes k (fun _ => True) (Returned k o (BitVec.ofNat 32 (labelAddr (text k) (.err f))) o.mem)
      (i386.start k o (.entry f)) := by
    apply comes_xcopy hf hcall.enters (permits_confined fun _ _ _ => trivial) (fun _ _ => rfl) (fun _ => hdst)
      fun p hp => absurd hp hcall.not_hands
    · exact fun _ p hp => hp
    · exact fun htakes => absurd htakes.low (Nat.not_lt.mpr hhigh)
    · exact fun hlow => absurd hlow (Nat.not_lt.mpr hhigh)
  obtain ⟨p, hp, hreported⟩ := exists_reported h hcall (fun p hp => hp.toExit) huntil
  -- the error labels are behind the loop, and EFAULT is not
  obtain ⟨_, _, _, _, _, hip', hlt⟩ := xcopy_sites (k := k) hf
  have hax := congrArg BitVec.toNat (hreported.high hhigh).1
  rw [hp.ax, BitVec.setWidth_eq, toNat_err hlt, BitVec.toNat_ofNat] at hax
  omega

/-- A count of 0 that gets to the loop makes it access data. -/
theorem reads_of_takesLoop (hf : f = .xcopyinNta ∨ f = .xcopyoutNta) (hcall : i386.Admits k o)
    (htakes : TakesLoop k o f) (hzero : (i386.args o).count = 0#32) :
    ∃ p, ReflTransGen (i386.Runs k) (i386.start k o (.entry f)) p ∧ ∃ a u, p.reads (text k) = [(a, u)] ∧ 0 < u := by
  have hclear : i386.Clear k o (i386.args o).dst 0 := fun _ _ _ hi => by cases hi
  have hallows : Allows k (i386.args o).src (i386.args o).dst (2 ^ 32) 0 0 (fun _ => True)
      fun p => p.errno = none → ∃ a u, p.reads (text k) = [(a, u)] ∧ 0 < u :=
    permits_reads fun p j u hj hlt hreads _ => ⟨_, u, hreads, by omega⟩
  have hcomes : Comes k (fun _ => True) (fun p => p.errno = none → ∃ a u, p.reads (text k) = [(a, u)] ∧ 0 < u)
      (i386.start k o (.entry f)) := by
    have hend (p : Point 32) (hp : Ended k o (i386.args o).src (i386.args o).dst (2 ^ 32) 0 p) : p.errno ≠ none := by
      cases hp with
      | done hle _ _ _ _ => exact absurd hle (by decide)
      | failed _ _ _ hsome => simp [hsome]
    apply comes_xcopy hf hcall.enters hallows (fun _ => absurd htakes) (fun _ => hclear)
      fun p hp => absurd hp hcall.not_hands
    · exact fun hge => absurd htakes.low (Nat.not_lt.mpr hge)
    · intro _ cx dx fl
      apply comes_ntaLabel trivial
      apply comes_xcopyLoop hf hcall.enters hallows hclear (.inr ⟨hzero, rfl, by decide⟩) (by decide) (by decide)
        fun p hp => absurd hp hcall.not_hands
      exact fun p hp _ hnone => absurd hnone (hend p hp)
    · exact fun _ p hp hnone => absurd hnone (hend p hp)
  obtain ⟨p, hp, hreads, hnone⟩ := exists_end_without_fault hcomes rfl
  exact ⟨p, hp, hreads hnone⟩

theorem reports_iff (hf : f = .xcopyinNta ∨ f = .xcopyoutNta) (hcall : i386.Admits k o)
    (hsrc : i386.Clear k o (i386.args o).src (i386.args o).count.toNat)
    (hdst : i386.Clear k o (i386.args o).dst (i386.args o).count.toNat) :
    Reports i386 k o f ↔ ¬ i386.IsHigh k o f ∧ (TakesLoop k o f → (i386.args o).count ≠ 0#32) := by
  constructor
  · refine fun h => ⟨not_isHigh_of_reports hf hcall hdst h, fun htakes hzero => ?_⟩
    obtain ⟨p, hp, a, u, hreads, hpos⟩ := reads_of_takesLoop hf hcall htakes hzero
    have hmem : (a, u) ∈ p.reads (text k) := by
      rw [hreads]
      exact .head _
    cases Until.reached h (fun b _ hb => hb.toExit.stops hcall.enters) hp with
    | here hend =>
        have hnone : (text k)[p.cfg.ip]? = none := List.getElem?_eq_none (hend.toExit.length_le hcall.enters)
        rw [Point.reads, hnone] at hmem
        cases hmem
    | next hconfined _ _ =>
        obtain ⟨j, _, hle⟩ := hconfined.1 _ hmem
        have hcount : (i386.args o).count.toNat = 0 := by
          rw [hzero]
          rfl
        simp only at hle
        omega
  · rintro ⟨hlow, hcount⟩
    have hend {p : Point 32} (hp : Ended k o (i386.args o).src (i386.args o).dst (i386.args o).count.toNat
        (i386.args o).count.toNat p) : Reported i386 k o f p := reported_of_ended hsrc hdst hlow hp
    have hallows : Allows k (i386.args o).src (i386.args o).dst (i386.args o).count.toNat (i386.args o).count.toNat
        (i386.args o).count.toNat (Confined (text k) (i386.args o).src (i386.args o).dst (i386.args o).count.toNat)
        (Reported i386 k o f) := permits_confined fun p _ hp => hp
    apply comes_xcopy hf hcall.enters hallows (fun _ _ => rfl) (fun _ => hdst) fun p hp => absurd hp hcall.not_hands
    · exact fun hhigh => absurd hhigh hlow
    · intro htakes cx dx fl
      have hpos : 0 < (i386.args o).count.toNat :=
        Nat.pos_of_ne_zero fun hzero => hcount htakes (BitVec.eq_of_toNat_eq hzero)
      apply comes_ntaLabel confined_label
      exact comes_xcopyLoop hf hcall.enters hallows hdst (.inl rfl) hpos htakes.aligned.2.2
        (fun p hp => absurd hp hcall.not_hands) fun p hp _ => hend hp
    · exact fun _ p hp => hend hp

end I386

/-- The errno is reported for user addresses below kernelbase only, and on i386
not for the copies of no bytes that xcopyout_nta makes in the loop. -/
theorem reports_iff_low (k : Symbols) :
    (∀ o : State 64, amd64.Admits k o → amd64.Clear k o (amd64.args o).src (amd64.args o).count.toNat →
      amd64.Clear k o (amd64.args o).dst (amd64.args o).count.toNat → ∀ f ∈ [.xcopyinNta, .xcopyoutNta],
      (Reports amd64 k o f ↔ (amd64.IsHigh k o f → (kernelbase k o.mem).setWidth 32 = 14#32))) ∧
    ∀ o : State 32, i386.Admits k o → i386.Clear k o (i386.args o).src (i386.args o).count.toNat →
      i386.Clear k o (i386.args o).dst (i386.args o).count.toNat → ∀ f ∈ [.xcopyinNta, .xcopyoutNta],
      (Reports i386 k o f ↔ ¬ i386.IsHigh k o f ∧
        ¬ (f = .xcopyoutNta ∧ I386.Routines.TakesLoop k o f ∧ (i386.args o).count = 0#32)) := by
  constructor
  · intro o hcall hsrc hdst f hf
    simp only [List.mem_cons, List.not_mem_nil, or_false] at hf
    exact Amd64.reports_iff hf hcall hsrc hdst
  · intro o hcall hsrc hdst f hf
    simp only [List.mem_cons, List.not_mem_nil, or_false] at hf
    rw [I386.reports_iff hf hcall hsrc hdst]
    apply and_congr_right'
    rcases hf with rfl | rfl
    · refine ⟨(fun _ h => by cases h.1), fun _ htakes hzero => ?_⟩
      -- xcopyin_nta compares the count
      have hsize : 128 ≤ (i386.args o).count.toNat := htakes.size
      rw [hzero] at hsize
      exact absurd hsize (by decide)
    · exact ⟨fun h hnot => h hnot.2.1 hnot.2.2, fun h htakes hzero => h ⟨rfl, htakes, hzero⟩⟩

theorem reports_low :
    Reports amd64 symbols (call64 ⟨0x100, 0x4000, 20, 0⟩) .xcopyinNta ∧
    Reports i386 symbols (call32 ⟨0x4000, 0x100, 20, 0⟩) .xcopyoutNta := by
  have h64 : amd64.Admits symbols (call64 ⟨0x100, 0x4000, 20, 0⟩) :=
    ⟨rfl, by decide +kernel, by decide +kernel, by decide +kernel⟩
  have h32 : i386.Admits symbols (call32 ⟨0x4000, 0x100, 20, 0⟩) :=
    ⟨rfl, by decide +kernel, by decide +kernel, by decide +kernel⟩
  constructor
  · apply ((reports_iff_low symbols).1 _ h64 _ _ _ (by decide)).mpr
    · intro hhigh
      exact absurd hhigh (by unfold Port.IsHigh; decide +kernel)
    all_goals
      unfold Port.Clear Outside
      decide +kernel
  · apply ((reports_iff_low symbols).2 _ h32 _ _ _ (by decide)).mpr
    · refine ⟨by unfold Port.IsHigh; decide +kernel, ?_⟩
      rintro ⟨_, _, hzero⟩
      exact absurd hzero (by decide +kernel)
    all_goals
      unfold Port.Clear Outside
      decide +kernel

/-- A user address in the kernel: kernelbase or the address of the error label
comes back. -/
theorem reports_high :
    ¬ Reports amd64 symbols (call64 ⟨0x900, 0x4000, 16, 0⟩) .xcopyinNta ∧
    ¬ Reports i386 symbols (call32 ⟨0x900, 0x4000, 16, 0⟩) .xcopyinNta := by
  have h64 : amd64.Admits symbols (call64 ⟨0x900, 0x4000, 16, 0⟩) :=
    ⟨rfl, by decide +kernel, by decide +kernel, by decide +kernel⟩
  have h32 : i386.Admits symbols (call32 ⟨0x900, 0x4000, 16, 0⟩) :=
    ⟨rfl, by decide +kernel, by decide +kernel, by decide +kernel⟩
  constructor
  · rw [Amd64.reports_iff (.inl rfl) h64 (by unfold Port.Clear Outside; decide +kernel)
      (by unfold Port.Clear Outside; decide +kernel)]
    unfold Port.IsHigh
    decide +kernel
  · intro h
    apply I386.not_isHigh_of_reports (.inl rfl) h32 (by unfold Port.Clear Outside; decide +kernel) h
    unfold Port.IsHigh
    decide +kernel

end SysvDev.Copy.Errno
