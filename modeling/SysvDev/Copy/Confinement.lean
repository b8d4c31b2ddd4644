import SysvDev.Copy.Amd64.Routines
import SysvDev.Copy.I386.Routines

namespace SysvDev.Copy.Confinement

open X86.Memory X86.Machine X86.Traps Inevitable Relation Text Call

set_option maxRecDepth 2000

section Port

variable {w : Nat} (port : Port w) (k : Symbols) (o : State w) (f : Routine)

/-- What the routine accesses through the user pointer. -/
def userSpans (p : Point w) : List (Span w) := if isIn f then p.reads (port.text k) else p.writes (port.text k)

/-- No run of the call accesses kernel memory through the user pointer. -/
def StaysLow : Prop :=
  ∀ p, ReflTransGen (port.Runs k) (port.start k o (.entry f)) p →
    ∀ x ∈ userSpans port k f p, ∀ i < x.2, (x.1 + BitVec.ofNat w i).toNat < (kernelbase k o.mem).toNat

def extent : Nat :=
  match f with
  | .copyinstr | .copyoutstr => (scan o.mem (port.args o).src (port.args o).dst 0 (port.args o).count.toNat).1
  | _ => (port.args o).count.toNat

/-- A call from the kernel, whose memory is above kernelbase, with a buffer that
is none of the memory of the call. -/
structure FromKernel : Prop where
  admits : port.Admits k o
  above : ∀ x ∈ port.regions k o, (kernelbase k o.mem).toNat ≤ x.1.toNat ∧ x.1.toNat + x.2 ≤ 2 ^ w
  buffer : port.Clear k o (userAddr f (port.args o).dst (port.args o).src) (port.args o).count.toNat
  last : f = .copyinstr ∨ f = .copyoutstr → (port.args o).last ≠ 0#w → port.Clear k o (port.args o).last (w / 8)

/-- A call that goes through `ext` bytes returns. Up to `cnt` bytes are
accessed on the way. -/
def Contract (cnt ext rlim wlim : Nat) : Prop :=
  ∀ Q P, Permits (port.text k) (port.args o).src (port.args o).dst cnt rlim wlim
      (labelAddr (port.text k) .doCopyFaultNta) Q P →
    (∀ s, Q ⟨⟨labelAddr (port.text k) .doCopyFaultNta, s⟩, none, 0⟩) →
    (∀ p, port.Exit k o p → (p.errno = none → ¬ port.IsHigh k o f → ext ≤ wlim) → P p) →
    Until (port.Runs k) Q P (port.start k o (.entry f))

variable {port k o f} {cnt ext lim : Nat}

theorem FromKernel.clear_user (h : FromKernel port k o f)
    (hlim : (userAddr f (port.args o).src (port.args o).dst).toNat + lim ≤ (kernelbase k o.mem).toNat) :
    port.Clear k o (userAddr f (port.args o).src (port.args o).dst) lim := by
  intro x hx i hi
  obtain ⟨hge, hle⟩ := h.above x hx
  have hx := x.1.isLt
  have hsum : (userAddr f (port.args o).src (port.args o).dst + BitVec.ofNat w i).toNat =
      (userAddr f (port.args o).src (port.args o).dst).toNat + i := by
    rw [BitVec.toNat_add, BitVec.toNat_ofNat, Nat.add_mod_mod, Nat.mod_eq_of_lt (by omega)]
  rw [BitVec.toNat_sub, hsum, Nat.mod_eq_of_lt (by omega)]
  omega

theorem FromKernel.clear_dst (h : FromKernel port k o f) (hle : isIn f = true → lim ≤ (port.args o).count.toNat)
    (hlim : (userAddr f (port.args o).src (port.args o).dst).toNat + lim ≤ (kernelbase k o.mem).toNat) :
    port.Clear k o (port.args o).dst lim := by
  cases hin : isIn f with
  | true =>
      have hbuffer := h.buffer
      rw [userAddr, if_pos hin] at hbuffer
      exact hbuffer.mono (hle hin)
  | false =>
      have huser := h.clear_user hlim
      rwa [userAddr, hin, if_neg Bool.false_ne_true] at huser

theorem FromKernel.clear_src (h : FromKernel port k o f) (hle : lim ≤ (port.args o).count.toNat)
    (hlim : (userAddr f (port.args o).src (port.args o).dst).toNat + lim ≤ (kernelbase k o.mem).toNat) :
    port.Clear k o (port.args o).src lim := by
  cases hin : isIn f with
  | true =>
      have huser := h.clear_user hlim
      rwa [userAddr, if_pos hin] at huser
  | false =>
      have hbuffer := h.buffer
      rw [userAddr, hin, if_neg Bool.false_ne_true] at hbuffer
      exact hbuffer.mono hle

theorem toNat_offset {a : BitVec w} {kb i j : Nat} (hkb : kb < 2 ^ w) (h : a.toNat + (i + j) ≤ kb) :
    (a + BitVec.ofNat w i + BitVec.ofNat w j).toNat = a.toNat + (i + j) := by
  rw [BitVec.add_assoc, ← BitVec.ofNat_add, BitVec.toNat_add, BitVec.toNat_ofNat, Nat.add_mod_mod,
    Nat.mod_eq_of_lt (by omega)]

theorem userSpans_within {p : Point w} (h : Confined (port.text k) (port.args o).src (port.args o).dst cnt p) :
    Within (userAddr f (port.args o).src (port.args o).dst) cnt (userSpans port k f p) := by
  rw [userSpans, userAddr]
  split
  · exact h.1
  · exact h.2

/-- A copy of bytes below kernelbase. -/
theorem staysLow_of_contract (hcall : port.Admits k o) (h : Contract port k o f cnt ext cnt cnt)
    (hlabel : ∀ s, Confined (port.text k) (port.args o).src (port.args o).dst cnt
      ⟨⟨labelAddr (port.text k) .doCopyFaultNta, s⟩, none, 0⟩)
    (hcnt : cnt = 0 ∨ (userAddr f (port.args o).src (port.args o).dst).toNat + cnt ≤ (kernelbase k o.mem).toNat) :
    StaysLow port k o f := by
  intro p hp x hx i hi
  have huntil := h (Confined (port.text k) (port.args o).src (port.args o).dst cnt) (port.Exit k o)
    (permits_confined fun _ _ h => h) hlabel fun p hp _ => hp
  have hconfined : Confined (port.text k) (port.args o).src (port.args o).dst cnt p := by
    apply huntil.safe (fun b _ hb => hb.stops hcall.enters) _ hp
    intro b hb
    have hnone : (port.text k)[b.cfg.ip]? = none := List.getElem?_eq_none (hb.length_le hcall.enters)
    constructor
    · rw [Point.reads, hnone]
      exact fun x hx => by cases hx
    · rw [Point.writes, hnone]
      exact fun x hx => by cases hx
  obtain ⟨j, hj, hle⟩ := userSpans_within hconfined x hx
  have hkb := (kernelbase k o.mem).isLt
  rcases hcnt with rfl | hcnt
  · omega
  · rw [hj, toNat_offset hkb (by omega)]
    omega

/-- A copy of bytes on both sides of kernelbase. -/
theorem not_staysLow_of_contract (hlow : ¬ port.IsHigh k o f)
    (hlim : lim = (kernelbase k o.mem).toNat - (userAddr f (port.args o).src (port.args o).dst).toNat)
    (h : Contract port k o f cnt ext (if isIn f then lim else cnt) lim) (hext : lim < ext) : ¬ StaysLow port k o f := by
  intro hstays
  have hkb := (kernelbase k o.mem).isLt
  rw [Port.IsHigh] at hlow
  have hbad (p : Point w) (j u : Nat) (hj : j ≤ lim) (hu : lim < j + u)
      (hspan : userSpans port k f p = [(userAddr f (port.args o).src (port.args o).dst + BitVec.ofNat w j, u)]) :
      ∃ x ∈ userSpans port k f p, ∃ i < x.2, ¬ (x.1 + BitVec.ofNat w i).toNat < (kernelbase k o.mem).toNat := by
    rw [hspan]
    refine ⟨_, .head _, lim - j, Nat.sub_lt_left_of_lt_add hj hu, ?_⟩
    rw [toNat_offset hkb (by omega)]
    omega
  have hpermits : Permits (port.text k) (port.args o).src (port.args o).dst cnt (if isIn f then lim else cnt) lim
      (labelAddr (port.text k) .doCopyFaultNta) (fun _ => True) (fun p => p.errno = none →
        ∃ x ∈ userSpans port k f p, ∃ i < x.2, ¬ (x.1 + BitVec.ofNat w i).toNat < (kernelbase k o.mem).toNat) := by
    cases hin : isIn f with
    | true =>
        refine permits_reads fun p j u hj hu hread _ => hbad p j u hj hu ?_
        rw [userSpans, userAddr, if_pos hin, if_pos hin, hread]
    | false =>
        refine permits_writes fun p j u hj hu hwrite _ => hbad p j u hj hu ?_
        rw [userSpans, userAddr, hin, if_neg Bool.false_ne_true, if_neg Bool.false_ne_true, hwrite]
  have huntil := h _ _ hpermits (fun _ => trivial) fun p _ hle hnone => absurd (hle hnone hlow) (Nat.not_le.mpr hext)
  obtain ⟨p, hp, haccess, hnone⟩ := exists_end_without_fault huntil rfl
  obtain ⟨x, hx, i, hi, hge⟩ := haccess hnone
  exact hge (hstays p hp x hx i hi)

/-- What is known of a call that goes through `ext` bytes. -/
structure Behaves (port : Port w) (k : Symbols) (o : State w) (f : Routine) (ext : Nat) : Prop where
  high : port.IsHigh k o f → Contract port k o f 0 0 0 0
  low : ¬ port.IsHigh k o f →
    (userAddr f (port.args o).src (port.args o).dst).toNat + ext ≤ (kernelbase k o.mem).toNat →
    Contract port k o f ext ext ext ext
  both : ¬ port.IsHigh k o f → ∀ lim,
    (userAddr f (port.args o).src (port.args o).dst).toNat + lim = (kernelbase k o.mem).toNat → lim < ext →
    ∃ cnt, Contract port k o f cnt ext (if isIn f then lim else cnt) lim

theorem staysLow_iff (hcall : port.Admits k o) (h : Behaves port k o f ext)
    (hlabel : ∀ cnt s, Confined (port.text k) (port.args o).src (port.args o).dst cnt
      ⟨⟨labelAddr (port.text k) .doCopyFaultNta, s⟩, none, 0⟩) :
    StaysLow port k o f ↔ port.IsHigh k o f ∨
      (userAddr f (port.args o).src (port.args o).dst).toNat + ext ≤ (kernelbase k o.mem).toNat := by
  by_cases hhigh : port.IsHigh k o f
  · exact ⟨fun _ => .inl hhigh, fun _ => staysLow_of_contract hcall (h.high hhigh) (hlabel 0) (.inl rfl)⟩
  · constructor
    · intro hstays
      by_contra hnot
      rw [Port.IsHigh] at hhigh hnot
      obtain ⟨cnt, hcontract⟩ := h.both hhigh _ (Nat.add_sub_of_le (by omega)) (by omega)
      exact not_staysLow_of_contract hhigh rfl hcontract (by omega) hstays
    · rintro (hhigh' | hle)
      · exact absurd hhigh' hhigh
      · exact staysLow_of_contract hcall (h.low hhigh hle) (hlabel ext) (.inr hle)

theorem behaves_of_count (h : FromKernel port k o f) (hcnt : (port.args o).count.toNat = cnt)
    (hcontract : ∀ cnt rlim wlim, (¬ port.IsHigh k o f → (port.args o).count.toNat = cnt) →
      (¬ port.IsHigh k o f → port.Clear k o (port.args o).dst wlim) → Contract port k o f cnt cnt rlim wlim) :
    Behaves port k o f cnt := by
  refine ⟨fun hhigh => ?_, fun _ hle => ?_, fun _ lim hlim hlt => ⟨cnt, ?_⟩⟩
  · exact hcontract 0 0 0 (absurd hhigh) (absurd hhigh)
  · exact hcontract cnt cnt cnt (fun _ => hcnt) fun _ => h.clear_dst (fun _ => hcnt.ge) hle
  · exact hcontract cnt _ lim (fun _ => hcnt) fun _ => h.clear_dst (fun _ => hcnt ▸ Nat.le_of_lt hlt) hlim.le

theorem scan_of_own {m : Mem w} (h : FromKernel port k o f) (hm : port.Own k o m)
    (hlim : (userAddr f (port.args o).src (port.args o).dst).toNat + lim ≤ (kernelbase k o.mem).toNat)
    (hle : lim ≤ (port.args o).count.toNat) (i : Nat) (hi : i < lim) :
    m ((port.args o).src + BitVec.ofNat w i) = o.mem ((port.args o).src + BitVec.ofNat w i) :=
  hm _ fun x hx => h.clear_src hle hlim x hx i hi

theorem behaves_of_scan (h : FromKernel port k o f)
    (hext : (scan o.mem (port.args o).src (port.args o).dst 0 (port.args o).count.toNat).1 = ext)
    (hcontract : ∀ cnt ext rlim wlim, (¬ port.IsHigh k o f → port.Clear k o (port.args o).dst wlim) →
      (¬ port.IsHigh k o f → ∀ m, port.Own k o m →
        (scan m (port.args o).src (port.args o).dst 0 (port.args o).count.toNat).1 ≤ cnt) →
      (¬ port.IsHigh k o f → ∀ m, port.Own k o m →
        (scan m (port.args o).src (port.args o).dst 0 (port.args o).count.toNat).1 ≤ wlim → ext ≤ wlim) →
      Contract port k o f cnt ext rlim wlim) : Behaves port k o f ext := by
  have hle := scan_le o.mem (port.args o).src (port.args o).dst 0 (port.args o).count.toNat
  rw [hext, Nat.zero_add] at hle
  refine ⟨fun hhigh => ?_, fun _ hlow => ?_, fun _ lim hlim hlt => ⟨(port.args o).count.toNat, ?_⟩⟩
  · exact hcontract 0 0 0 0 (absurd hhigh) (absurd hhigh) (absurd hhigh)
  · apply hcontract ext ext ext ext (fun _ => h.clear_dst (fun _ => hle) hlow)
    · intro _ m hm
      rw [scan_congr fun i _ hi => scan_of_own h hm hlow hle i (hext ▸ hi), hext]
    · exact fun _ _ _ _ => le_rfl
  · have hcount : lim ≤ (port.args o).count.toNat := (Nat.le_of_lt hlt).trans hle
    apply hcontract _ ext _ lim (fun _ => h.clear_dst (fun _ => hcount) hlim.le)
    · exact fun _ m _ => (scan_le _ _ _ _ _).trans (Nat.zero_add _).le
    · intro _ m hm hscan
      rw [← hext, scan_congr fun i _ hi => (scan_of_own h hm hlim.le hcount i (hi.trans_le hscan)).symm]
      exact hscan

end Port

namespace Amd64

open Text.Amd64 Amd64.Core Amd64.Routines

variable {k : Symbols} {o : State 64} {f : Routine}

theorem contract_copy {cnt rlim wlim : Nat} (hf : f = .copyin ∨ f = .copyout) (hcall : amd64.Admits k o)
    (hcnt : ¬ amd64.IsHigh k o f → o.regs.dx.toNat = cnt) (hclear : ¬ amd64.IsHigh k o f → amd64.Clear k o o.regs.si wlim) :
    Contract amd64 k o f cnt cnt rlim wlim := by
  intro Q P hpermits _ hend
  apply comes_copy hf hcall hpermits (fun hlow => hcnt (Nat.not_le.mpr hlow)) fun hlow => hclear (Nat.not_le.mpr hlow)
  exact fun p hp hle => hend p hp fun hnone hlow => hle hnone (Nat.not_le.mp hlow)

theorem contract_xcopy {cnt rlim wlim : Nat} (hf : f = .xcopyinNta ∨ f = .xcopyoutNta) (hcall : amd64.Admits k o)
    (hcnt : ¬ amd64.IsHigh k o f → o.regs.dx.toNat = cnt) (hclear : ¬ amd64.IsHigh k o f → amd64.Clear k o o.regs.si wlim) :
    Contract amd64 k o f cnt cnt rlim wlim := by
  intro Q P hpermits hQ hend
  apply comes_xcopy hf hcall.enters hpermits (fun hlow => hcnt (Nat.not_le.mpr hlow))
    (fun hlow => hclear (Nat.not_le.mpr hlow)) fun p hp => absurd hp hcall.not_hands
  · exact fun hhigh m p _ hp => hend p hp.toExit fun _ => absurd hhigh
  · exact fun _ _ _ _ _ _ _ _ _ _ => hQ _
  · intro _ p hp
    refine hend p hp.exit fun hnone _ => ?_
    cases hp with
    | done hle _ _ _ _ => exact hle
    | failed _ _ _ hsome => cases hsome.symm.trans hnone

theorem contract_copyStr {cnt ext rlim wlim : Nat} (hf : f = .copyinstr ∨ f = .copyoutstr) (h : FromKernel amd64 k o f)
    (hclear : ¬ amd64.IsHigh k o f → amd64.Clear k o o.regs.si wlim)
    (hcnt : ¬ amd64.IsHigh k o f → ∀ m, amd64.Own k o m → (scan m o.regs.di o.regs.si 0 o.regs.dx.toNat).1 ≤ cnt)
    (hext : ¬ amd64.IsHigh k o f → ∀ m, amd64.Own k o m → (scan m o.regs.di o.regs.si 0 o.regs.dx.toNat).1 ≤ wlim →
      ext ≤ wlim) : Contract amd64 k o f cnt ext rlim wlim := by
  intro Q P hpermits _ hend
  apply comes_copyStr hf h.admits hpermits (fun hlow => hcnt (Nat.not_le.mpr hlow))
    (fun hlow => hclear (Nat.not_le.mpr hlow)) (h.last hf)
  · exact fun p hp hor => hend p hp fun hnone hlow => hor.elim (absurd hnone) (absurd · hlow)
  · exact fun m p hm hle hp => hend p hp fun _ hlow => hext hlow m hm hle

theorem behaves (h : FromKernel amd64 k o f) : Behaves amd64 k o f (extent amd64 o f) := by
  cases f with
  | copyin => exact behaves_of_count h rfl fun _ _ _ => contract_copy (.inl rfl) h.admits
  | copyout => exact behaves_of_count h rfl fun _ _ _ => contract_copy (.inr rfl) h.admits
  | xcopyinNta => exact behaves_of_count h rfl fun _ _ _ => contract_xcopy (.inl rfl) h.admits
  | xcopyoutNta => exact behaves_of_count h rfl fun _ _ _ => contract_xcopy (.inr rfl) h.admits
  | copyinstr => exact behaves_of_scan h rfl fun _ _ _ _ => contract_copyStr (.inl rfl) h
  | copyoutstr => exact behaves_of_scan h rfl fun _ _ _ _ => contract_copyStr (.inr rfl) h

end Amd64

namespace I386

open Text.I386 I386.Core I386.Routines

variable {k : Symbols} {o : State 32} {f : Routine}

theorem contract_copy {cnt rlim wlim : Nat} (hf : f = .copyin ∨ f = .copyout) (hcall : i386.Admits k o)
    (hcnt : ¬ i386.IsHigh k o f → (i386.args o).count.toNat = cnt)
    (hclear : ¬ i386.IsHigh k o f → i386.Clear k o (i386.args o).dst wlim) : Contract i386 k o f cnt cnt rlim wlim := by
  intro Q P hpermits _ hend
  apply comes_copy hf hcall hpermits (fun hlow => hcnt (Nat.not_le.mpr hlow)) fun hlow => hclear (Nat.not_le.mpr hlow)
  exact fun p hp hle => hend p hp fun hnone hlow => hle hnone (Nat.not_le.mp hlow)

theorem contract_xcopy {cnt rlim wlim : Nat} (hf : f = .xcopyinNta ∨ f = .xcopyoutNta) (hcall : i386.Admits k o)
    (hcnt : ¬ i386.IsHigh k o f → ¬ TakesLoop k o f → (i386.args o).count.toNat = cnt)
    (hloop : TakesLoop k o f → 0 < cnt ∧ Counts (i386.args o).count cnt wlim ∧ cnt % 16 = 0)
    (hclear : ¬ i386.IsHigh k o f → i386.Clear k o (i386.args o).dst wlim) : Contract i386 k o f cnt cnt rlim wlim := by
  intro Q P hpermits hQ hend
  have hended (p : Point 32) (hp : Ended k o (i386.args o).src (i386.args o).dst cnt wlim p) : P p := by
    refine hend p hp.exit fun hnone _ => ?_
    cases hp with
    | done hle _ _ _ _ => exact hle
    | failed _ _ _ hsome => cases hsome.symm.trans hnone
  apply comes_xcopy hf hcall.enters hpermits (fun hlow => hcnt (Nat.not_le.mpr hlow))
    (fun hlow => hclear (Nat.not_le.mpr hlow)) fun p hp => absurd hp hcall.not_hands
  · exact fun hhigh p hp => hend p hp.toExit fun _ => absurd hhigh
  · intro htakes cx dx fl
    obtain ⟨hpos, hcounts, hmod⟩ := hloop htakes
    apply comes_ntaLabel (hQ _)
    exact comes_xcopyLoop hf hcall.enters hpermits (hclear (Nat.not_le.mpr htakes.low)) hcounts hpos hmod
      (fun p hp => absurd hp hcall.not_hands) fun p hp _ => hended p hp
  · exact fun _ p hp => hended p hp

theorem contract_copyStr {cnt ext rlim wlim : Nat} (hf : f = .copyinstr ∨ f = .copyoutstr) (h : FromKernel i386 k o f)
    (hclear : ¬ i386.IsHigh k o f → i386.Clear k o (i386.args o).dst wlim)
    (hcnt : ¬ i386.IsHigh k o f → ∀ m, i386.Own k o m →
      (scan m (i386.args o).src (i386.args o).dst 0 (i386.args o).count.toNat).1 ≤ cnt)
    (hext : ¬ i386.IsHigh k o f → ∀ m, i386.Own k o m →
      (scan m (i386.args o).src (i386.args o).dst 0 (i386.args o).count.toNat).1 ≤ wlim → ext ≤ wlim) :
    Contract i386 k o f cnt ext rlim wlim := by
  intro Q P hpermits _ hend
  apply comes_copyStr hf h.admits hpermits (fun hlow => hcnt (Nat.not_le.mpr hlow))
    (fun hlow => hclear (Nat.not_le.mpr hlow)) (h.last hf)
  · exact fun p hp hor => hend p hp fun hnone hlow => hor.elim (absurd hnone) (absurd · hlow)
  · exact fun m p hm hle hp => hend p hp fun _ hlow => hext hlow m hm hle

theorem behaves_xcopy (hf : f = .xcopyinNta ∨ f = .xcopyoutNta) (h : FromKernel i386 k o f)
    (hzero : TakesLoop k o f → (i386.args o).count ≠ 0#32) : Behaves i386 k o f (i386.args o).count.toNat := by
  apply behaves_of_count h rfl
  intro cnt rlim wlim hcnt hclear
  apply contract_xcopy hf h.admits (fun hlow _ => hcnt hlow) _ hclear
  intro htakes
  have hcount := hcnt (Nat.not_le.mpr htakes.low)
  refine ⟨?_, .inl hcount, hcount ▸ htakes.aligned.2.2⟩
  exact Nat.pos_of_ne_zero fun h0 => hzero htakes (BitVec.eq_of_toNat_eq (hcount.trans h0))

/-- With a count of 0 the loop goes through all of memory. -/
theorem behaves_xcopyAll (hf : f = .xcopyinNta ∨ f = .xcopyoutNta) (h : FromKernel i386 k o f) (hin : isIn f = false)
    (htakes : TakesLoop k o f) (hzero : (i386.args o).count = 0#32) : Behaves i386 k o f (2 ^ 32) := by
  have hlow : ¬ i386.IsHigh k o f := Nat.not_le.mpr htakes.low
  have hkb := (kernelbase k o.mem).isLt
  refine ⟨(absurd · hlow), fun _ hle => by omega, fun _ lim hlim hlt => ⟨2 ^ 32, ?_⟩⟩
  apply contract_xcopy hf h.admits (fun _ => absurd htakes)
  · exact fun _ => ⟨by decide, .inr ⟨hzero, rfl, hlt⟩, by decide⟩
  · exact fun _ => h.clear_dst (fun hin' => by cases hin.symm.trans hin') hlim.le

theorem behaves (h : FromKernel i386 k o f)
    (hzero : f = .xcopyoutNta → TakesLoop k o f → (i386.args o).count ≠ 0#32) : Behaves i386 k o f (extent i386 o f) := by
  cases f with
  | copyin => exact behaves_of_count h rfl fun _ _ _ => contract_copy (.inl rfl) h.admits
  | copyout => exact behaves_of_count h rfl fun _ _ _ => contract_copy (.inr rfl) h.admits
  | xcopyinNta =>
      apply behaves_xcopy (.inl rfl) h
      intro htakes hcount
      -- xcopyin_nta compares the count
      have hsize : 128 ≤ (i386.args o).count.toNat := htakes.size
      rw [hcount] at hsize
      exact absurd hsize (by decide)
  | xcopyoutNta => exact behaves_xcopy (.inr rfl) h (hzero rfl)
  | copyinstr => exact behaves_of_scan h rfl fun _ _ _ _ => contract_copyStr (.inl rfl) h
  | copyoutstr => exact behaves_of_scan h rfl fun _ _ _ _ => contract_copyStr (.inr rfl) h

end I386

/-- The routines check the first address only: what they go through has to end
at kernelbase. -/
theorem staysLow_iff_extent (k : Symbols) (f : Routine) :
    (∀ o : State 64, FromKernel amd64 k o f → (StaysLow amd64 k o f ↔ amd64.IsHigh k o f ∨
      (userAddr f (amd64.args o).src (amd64.args o).dst).toNat + extent amd64 o f ≤ (kernelbase k o.mem).toNat)) ∧
    ∀ o : State 32, FromKernel i386 k o f → (StaysLow i386 k o f ↔ i386.IsHigh k o f ∨
      (userAddr f (i386.args o).src (i386.args o).dst).toNat + extent i386 o f ≤ (kernelbase k o.mem).toNat ∧
        ¬ (f = .xcopyoutNta ∧ I386.Routines.TakesLoop k o f ∧ (i386.args o).count = 0#32)) := by
  constructor
  · intro o h
    exact staysLow_iff h.admits (Amd64.behaves h) fun _ _ => Amd64.Routines.confined_label
  · intro o h
    by_cases hall : f = .xcopyoutNta ∧ I386.Routines.TakesLoop k o f ∧ (i386.args o).count = 0#32
    · obtain ⟨rfl, htakes, hzero⟩ := hall
      have hkb := (kernelbase k o.mem).isLt
      rw [staysLow_iff h.admits (I386.behaves_xcopyAll (.inr rfl) h rfl htakes hzero) fun _ _ =>
        I386.Routines.confined_label]
      apply or_congr_right
      exact ⟨fun hle => by omega, fun hnot => absurd ⟨rfl, htakes, hzero⟩ hnot.2⟩
    · rw [staysLow_iff h.admits (I386.behaves h fun hf htakes hzero => hall ⟨hf, htakes, hzero⟩) fun _ _ =>
        I386.Routines.confined_label]
      simp only [hall, not_false_iff, and_true]

theorem staysLow_string :
    StaysLow amd64 symbols (call64 ⟨0x7f0, 0x4000, 16, 0⟩) .copyin ∧
    StaysLow i386 symbols (call32 ⟨0x7f0, 0x4000, 32, 0⟩) .copyinstr := by
  have h64 : FromKernel amd64 symbols (call64 ⟨0x7f0, 0x4000, 16, 0⟩) .copyin := by
    refine ⟨⟨rfl, by decide +kernel, by decide +kernel, by decide +kernel⟩, by decide +kernel, ?_, (absurd · (by decide))⟩
    unfold Port.Clear Outside
    decide +kernel
  have h32 : FromKernel i386 symbols (call32 ⟨0x7f0, 0x4000, 32, 0⟩) .copyinstr := by
    refine ⟨⟨rfl, by decide +kernel, by decide +kernel, by decide +kernel⟩, by decide +kernel, ?_,
      fun _ hlast => absurd (by decide +kernel) hlast⟩
    unfold Port.Clear Outside
    decide +kernel
  constructor
  · exact ((staysLow_iff_extent symbols _).1 _ h64).mpr (.inr (by decide +kernel))
  · exact ((staysLow_iff_extent symbols _).2 _ h32).mpr (.inr ⟨by decide +kernel, fun hnot => by cases hnot.1⟩)

/-- copyin of 16 bytes, of which 8 are below kernelbase. -/
theorem staysLow_straddles :
    FromKernel amd64 symbols (call64 ⟨0x7f8, 0x4000, 16, 0⟩) .copyin ∧
      ¬ StaysLow amd64 symbols (call64 ⟨0x7f8, 0x4000, 16, 0⟩) .copyin := by
  have h : FromKernel amd64 symbols (call64 ⟨0x7f8, 0x4000, 16, 0⟩) .copyin := by
    refine ⟨⟨rfl, by decide +kernel, by decide +kernel, by decide +kernel⟩, by decide +kernel, ?_, (absurd · (by decide))⟩
    unfold Port.Clear Outside
    decide +kernel
  refine ⟨h, ?_⟩
  rw [staysLow_iff h.admits (Amd64.behaves h) fun _ _ => Amd64.Routines.confined_label]
  unfold Port.IsHigh
  decide +kernel

end SysvDev.Copy.Confinement
