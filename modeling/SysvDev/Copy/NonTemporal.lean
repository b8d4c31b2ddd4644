import SysvDev.Copy.Amd64.Routines
import SysvDev.Copy.I386.Routines

namespace SysvDev.Copy.NonTemporal

open X86.Memory X86.Machine X86.Traps Inevitable Relation Text Call

set_option maxRecDepth 2000

section Loop

variable {w : Nat} (port : Port w) (k : Symbols) (o : State w) (l : Label)

/-- The loop returns after so many rounds. A fault ends it before, and then a
copyop may go on with the work. -/
structure LoopEnds (rounds : Nat) (p : Point w) : Prop where
  complete : p.errno = none → port.Exit k o p ∧ p.rounds = rounds
  fault : p.errno ≠ none → port.Leaves k o l p

/-- The arguments are such that the loop is right, and the loop does what it
should. -/
def LoopRight (p : Point w) : Prop :=
  128 ≤ (port.args o).count.toNat ∧ Aligned (port.args o).src (port.args o).dst (port.args o).count ∧
    Until (port.Runs k) (Confined (port.text k) (port.args o).src (port.args o).dst (port.args o).count.toNat)
      (LoopEnds port k o l (p.rounds + (port.args o).count.toNat / 16)) p

/-- All is well whenever a call comes to do_copy_fault_nta. -/
def EntersLoop : Prop :=
  ∀ p, ReflTransGen (port.Runs k) (port.start k o l) p → p.cfg.ip = labelAddr (port.text k) .doCopyFaultNta →
    LoopRight port k o l p

end Loop

theorem LoopEnds.exit {w : Nat} {port : Port w} {k : Symbols} {o : State w} {l : Label} {n : Nat} {p : Point w}
    (h : port.Exit k o p) (hrounds : p.errno = none → p.rounds = n) : LoopEnds port k o l n p :=
  ⟨fun hnone => ⟨h, hrounds hnone⟩, fun _ => .inl h⟩

theorem LoopEnds.hands {w : Nat} {port : Port w} {k : Symbols} {o : State w} {f : Routine} {n : Nat} {p : Point w}
    (h : port.Hands k o f p) (herrno : p.errno ≠ none) : LoopEnds port k o (.entry f) n p :=
  ⟨(absurd · herrno), fun _ => .inr ⟨f, rfl, h⟩⟩

theorem entersLoop_of_until {w : Nat} {port : Port w} {k : Symbols} {o : State w} {l : Label} (hcall : port.Enters k o)
    (hlabel : (port.text k)[labelAddr (port.text k) .doCopyFaultNta]? = some (.label .doCopyFaultNta))
    (h : Until (port.Runs k)
      (fun p => p.cfg.ip = labelAddr (port.text k) .doCopyFaultNta → LoopRight port k o l p)
      (port.Leaves k o l) (port.start k o l)) : EntersLoop port k o l := by
  intro p hp
  apply h.safe (fun q _ hq => hq.stops hcall) _ hp
  intro q hq hip
  have hle := hq.length_le hcall
  obtain ⟨hlt, -⟩ := List.getElem?_eq_some_iff.mp hlabel
  omega

namespace Amd64

open Text.Amd64 Amd64.Core Amd64.Routines

variable {k : Symbols} {o : State 64} {f : Routine}

theorem entersLoop_xcopy (hf : f = .xcopyinNta ∨ f = .xcopyoutNta) (hcall : amd64.Enters k o)
    (hclear : amd64.Clear k o o.regs.si o.regs.dx.toNat) : EntersLoop amd64 k o (.entry f) := by
  apply entersLoop_of_until hcall rfl
  apply comes_xcopy hf hcall (permits_confined fun p hip _ h => absurd h hip) (fun _ => rfl) (fun _ => hclear)
    fun p hp => .inr ⟨f, rfl, hp⟩
  · intro _ m p _ hp
    exact .inl hp.toExit
  · intro _ _ hmin hal ax r8 r10 fl m hm _
    refine ⟨hmin, hal, comes_ntaLabel confined_label ?_⟩
    apply comes_xcopyLoop hf hcall (permits_confined fun p _ h => h) hclear rfl (by omega) hal.2.2 hm
    · exact fun p hp herrno => .hands hp herrno
    · exact fun p hp hrounds => .exit hp.exit hrounds
  · intro _ p hp
    exact .inl hp.exit

theorem entersLoop_kcopyNta (hcall : amd64.Enters k o) (hclear : amd64.Clear k o o.regs.si o.regs.dx.toNat) :
    EntersLoop amd64 k o .kcopyNta := by
  apply entersLoop_of_until hcall rfl
  apply comes_kcopyNta hcall (permits_confined fun p hip _ h => absurd h hip) hclear
  · intro _ hmin hal ax r10 fl m hm _
    refine ⟨hmin, hal, comes_ntaLabel confined_label ?_⟩
    apply comes_kcopyNtaLoop hcall (permits_confined fun p _ h => h) hclear (by omega) hal.2.2 hm
    exact fun p hp hrounds => .exit hp hrounds
  · exact fun p hp => .inl hp

end Amd64

namespace I386

open Text.I386 I386.Core I386.Routines

variable {k : Symbols} {o : State 32} {f : Routine}

theorem entersLoop_xcopy (hf : f = .xcopyinNta ∨ f = .xcopyoutNta) (hcall : i386.Enters k o)
    (hclear : i386.Clear k o (i386.args o).dst (i386.args o).count.toNat)
    (hmin : TakesLoop k o f → 128 ≤ (i386.args o).count.toNat) : EntersLoop i386 k o (.entry f) := by
  apply entersLoop_of_until hcall rfl
  apply comes_xcopy hf hcall (permits_confined fun p hip _ h => absurd h hip) (fun _ _ => rfl) (fun _ => hclear)
    fun p hp => .inr ⟨f, rfl, hp⟩
  · intro _ p hp
    exact .inl hp.toExit
  · intro htakes cx dx fl
    have hcnt := hmin htakes
    apply comes_ntaLabel
    · intro _
      refine ⟨hcnt, htakes.aligned, comes_ntaLabel confined_label ?_⟩
      apply comes_xcopyLoop hf hcall (permits_confined fun p _ h => h) hclear (.inl rfl) (by omega) htakes.aligned.2.2
      · exact fun p hp herrno => .hands hp herrno
      · exact fun p hp hrounds => .exit hp.exit hrounds
    · apply comes_xcopyLoop hf hcall (permits_confined fun p hip _ h => absurd h hip) hclear (.inl rfl) (by omega)
        htakes.aligned.2.2
      · exact fun p hp _ => .inr ⟨f, rfl, hp⟩
      · exact fun p hp _ => .inl hp.exit
  · exact fun _ p hp => .inl hp.exit

/-- The tests are not about the count, but the loop is entered when they say so. -/
theorem reaches_loop (hf : f = .xcopyinNta ∨ f = .xcopyoutNta) (hcall : i386.Enters k o) (htakes : TakesLoop k o f) :
    ∃ p, ReflTransGen (i386.Runs k) (i386.start k o (.entry f)) p ∧
      p.cfg.ip = labelAddr (i386.text k) .doCopyFaultNta := by
  have hsites := xcopy_sites (k := k) hf
  have hallows : Allows k (i386.args o).src (i386.args o).dst 0 0 0 (fun _ => True)
      (fun p => p.cfg.ip = labelAddr (i386.text k) .doCopyFaultNta) :=
    permits_confined fun _ _ _ => trivial
  have hcomes : Comes k (fun _ => True) (fun p => p.cfg.ip = labelAddr (i386.text k) .doCopyFaultNta)
      (i386.start k o (.entry f)) := by
    apply comes_xcopyEntry hsites.entry_after hallows hcall (hsites.entry.take 6) (hsites.entry.drop 6)
    · intro hge
      exact absurd htakes.low (Nat.not_lt.mpr hge)
    · intro _ hnot
      exact absurd htakes hnot
    · exact fun _ cx fl => .here rfl
  exact hcomes.exists_end

theorem entersLoop_iff (hf : f = .xcopyinNta ∨ f = .xcopyoutNta) (hcall : i386.Enters k o)
    (hclear : i386.Clear k o (i386.args o).dst (i386.args o).count.toNat) :
    EntersLoop i386 k o (.entry f) ↔ (TakesLoop k o f → 128 ≤ (i386.args o).count.toNat) := by
  constructor
  · intro h htakes
    obtain ⟨p, hp, hip⟩ := reaches_loop hf hcall htakes
    exact (h p hp hip).1
  · exact entersLoop_xcopy hf hcall hclear

end I386

/-- Only xcopyout_nta of i386 lets a call with less than XCOPY_MIN_SIZE bytes
into the loop: it compares the thread pointer, not the count. -/
theorem entersLoop_unless_small (k : Symbols) :
    (∀ o : State 64, amd64.Enters k o → amd64.Clear k o (amd64.args o).dst (amd64.args o).count.toNat →
      ∀ l ∈ [.kcopyNta, .entry .xcopyinNta, .entry .xcopyoutNta], EntersLoop amd64 k o l) ∧
    ∀ o : State 32, i386.Enters k o → i386.Clear k o (i386.args o).dst (i386.args o).count.toNat →
      ∀ f ∈ [.xcopyinNta, .xcopyoutNta], EntersLoop i386 k o (.entry f) ↔
        ¬ (f = .xcopyoutNta ∧ I386.Routines.TakesLoop k o f ∧ (i386.args o).count.toNat < 128) := by
  constructor
  · intro o hcall hclear l hl
    simp only [List.mem_cons, List.not_mem_nil, or_false] at hl
    rcases hl with rfl | rfl | rfl
    · exact Amd64.entersLoop_kcopyNta hcall hclear
    · exact Amd64.entersLoop_xcopy (.inl rfl) hcall hclear
    · exact Amd64.entersLoop_xcopy (.inr rfl) hcall hclear
  · intro o hcall hclear f hf
    simp only [List.mem_cons, List.not_mem_nil, or_false] at hf
    rw [I386.entersLoop_iff hf hcall hclear]
    rcases hf with rfl | rfl
    · exact ⟨(fun _ h => by cases h.1), fun _ htakes => htakes.size⟩
    · exact ⟨fun h hnot => Nat.not_lt.mpr (h hnot.2.1) hnot.2.2, fun h htakes =>
        Nat.le_of_not_lt fun hlt => h ⟨rfl, htakes, hlt⟩⟩

/-- The same call, with copyops at 0x5000. -/
def hooked {w : Nat} (s : State w) : State w :=
  { s with mem := fun a => if (a - 0x5000#w).toNat < 0x30 then 0x77#8 else store s.mem 0x3018#w 0x5000#w a }

theorem entersLoop_eightRounds :
    EntersLoop amd64 symbols (hooked (call64 ⟨0x4000, 0x100, 128, 0⟩)) (.entry .xcopyoutNta) ∧
    EntersLoop i386 symbols (hooked (call32 ⟨0x4000, 0x100, 128, 0⟩)) (.entry .xcopyoutNta) := by
  have h64 : amd64.Enters symbols (hooked (call64 ⟨0x4000, 0x100, 128, 0⟩)) :=
    ⟨rfl, by decide +kernel, by decide +kernel, fun _ f => by cases f <;> decide +kernel⟩
  have h32 : i386.Enters symbols (hooked (call32 ⟨0x4000, 0x100, 128, 0⟩)) :=
    ⟨rfl, by decide +kernel, by decide +kernel, fun _ f => by cases f <;> decide +kernel⟩
  constructor
  · apply (entersLoop_unless_small symbols).1 _ h64 _ _ (by decide)
    unfold Port.Clear Outside
    decide +kernel
  · apply ((entersLoop_unless_small symbols).2 _ h32 _ _ (by decide)).mpr
    · rintro ⟨_, _, hlt⟩
      exact absurd hlt (by decide +kernel)
    · unfold Port.Clear Outside
      decide +kernel

/-- xcopyout_nta of no bytes goes to the loop. -/
theorem entersLoop_nothing :
    i386.Admits symbols (call32 ⟨0x4000, 0x100, 0, 0⟩) ∧ i386.Clear symbols (call32 ⟨0x4000, 0x100, 0, 0⟩) 0x100#32 0 ∧
      ¬ EntersLoop i386 symbols (call32 ⟨0x4000, 0x100, 0, 0⟩) (.entry .xcopyoutNta) := by
  have hcall : i386.Admits symbols (call32 ⟨0x4000, 0x100, 0, 0⟩) :=
    ⟨rfl, by decide +kernel, by decide +kernel, by decide +kernel⟩
  have hclear (a : BitVec 32) : i386.Clear symbols (call32 ⟨0x4000, 0x100, 0, 0⟩) a 0 := fun _ _ _ hi => by cases hi
  have hcount : (i386.args (call32 ⟨0x4000, 0x100, 0, 0⟩)).count.toNat = 0 := by decide +kernel
  refine ⟨hcall, hclear _, fun h => ?_⟩
  rw [I386.entersLoop_iff (.inr rfl) hcall.enters (by rw [hcount]; exact hclear _), hcount] at h
  exact absurd (h ⟨by decide +kernel, by decide +kernel, by decide +kernel, by decide +kernel, by decide +kernel⟩)
    (by decide)

end SysvDev.Copy.NonTemporal
