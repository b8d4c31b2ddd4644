import SysvDev.Copy.I386.Core

namespace SysvDev.Copy.I386.Routines

open X86.Memory X86.Machine X86.Machine.Att X86.Run X86.Strings X86.Traps Inevitable Text Text.I386 Call I386.Core

set_option maxRecDepth 2000

variable {k : Symbols} {o : State 32} {ax cx dx bx si di src dst err v : BitVec 32} {fl : Flags}
  {m m' : Mem 32} {cnt lim rlim wlim : Nat} {e : Option (BitVec 32)} {r : Nat} {Q P : Point 32 → Prop} {f : Routine}
  {p : Point 32}

attribute [local simp] merge_word add_tLofault add_tCopyops load_cpuThread load_kernelbase pop_first pop_second pop_third

theorem eq_outer (hcall : i386.Enters k o) : o = outer o o.regs.ax o.regs.cx o.regs.dx o.flags o.mem := by
  have hdf := hcall.df
  obtain ⟨⟨ax, cx, dx, bx, sp, bp, si, di, hi⟩, fl, df, m⟩ := o
  subst hdf
  rfl

theorem load_uaddr : load 32 o.mem (o.regs.sp + BitVec.ofInt 32 (uaddr f)) =
    userAddr f (i386.args o).src (i386.args o).dst := by
  cases f <;> rfl

theorem load_kaddr : load 32 o.mem (o.regs.sp + BitVec.ofInt 32 (kaddr f)) =
    userAddr f (i386.args o).dst (i386.args o).src := by
  cases f <;> rfl

theorem load_count : load 32 o.mem (o.regs.sp + 12#32) = (i386.args o).count := rfl

theorem load_last : load 32 o.mem (o.regs.sp + 16#32) = (i386.args o).last := rfl

attribute [local simp] load_uaddr load_kaddr load_count load_last

def sizeTested (k : Symbols) (o : State 32) : Routine → BitVec 32
  | .xcopyoutNta => thread k o.mem
  | _ => (i386.args o).count

structure TakesLoop (k : Symbols) (o : State 32) (f : Routine) : Prop where
  low : (userAddr f (i386.args o).src (i386.args o).dst).toNat < (kernelbase k o.mem).toNat
  sse : load 32 o.mem (BitVec.ofInt 32 k.useSseCopy) ≠ 0#32
  hint : (i386.args o).last = 0#32
  size : 128 ≤ (sizeTested k o f).toNat
  aligned : Aligned (i386.args o).src (i386.args o).dst (i386.args o).count

def sizePlace : Routine → Place
  | .xcopyoutNta => Att.edx
  | _ => ind 12 .sp

theorem aligned_userAddr (f : Routine) (src dst count : BitVec 32) :
    ((userAddr f src dst ||| userAddr f dst src) &&& 3#32 ||| count) &&& 15#32 = 0#32 ↔ Aligned src dst count := by
  have hor : userAddr f src dst ||| userAddr f dst src = src ||| dst := by
    cases h : isIn f
    · simp only [userAddr, h, Bool.false_eq_true, if_false]
      exact BitVec.or_comm dst src
    · simp only [userAddr, h, if_true]
  rw [hor]
  exact aligned_iff (by decide)

theorem run_cmp_size {ip : Nat} {lines : List (Line Label)} :
    run (text k) ip (outer o ax cx (thread k o.mem) fl o.mem) (cmpl (.imm minSize) (sizePlace f) :: lines) =
      run (text k) (ip + 1) (outer o ax cx (thread k o.mem) (difference 128#32 (sizeTested k o f) false).2 o.mem) lines := by
  cases f <;> rfl

section Entry

variable {ip : Nat} (hip : 46 < ip) (hallows : Allows k src dst cnt rlim wlim Q P) (hcall : i386.Enters k o)

include hip hallows hcall

theorem comes_copyEntry (hat : At (text k) ip (copyTest k f))
    (hhigh : (kernelbase k o.mem).toNat ≤ (userAddr f (i386.args o).src (i386.args o).dst).toNat → ∀ fl,
      Comes k Q P ⟨⟨labelAddr (text k) (.three f), outer o (BitVec.ofNat 32 (labelAddr (text k) (.err f)))
        (kernelbase k o.mem) (thread k o.mem) fl o.mem⟩, e, r⟩)
    (hlow : (userAddr f (i386.args o).src (i386.args o).dst).toNat < (kernelbase k o.mem).toNat → ∀ cx fl,
      Comes k Q P ⟨⟨3, outer o (BitVec.ofNat 32 (labelAddr (text k) (.err f))) cx (thread k o.mem) fl o.mem⟩, e, r⟩) :
    Comes k Q P ⟨⟨ip, o⟩, e, r⟩ := by
  have hfault : labelAddr (text k) .doCopyFault = 3 := rfl
  suffices h : Comes k Q P ⟨⟨ip, outer o o.regs.ax o.regs.cx o.regs.dx o.flags o.mem⟩, e, r⟩ by
    rwa [← eq_outer hcall] at h
  apply comes_late hat hallows hip rfl
  by_cases hlt : (userAddr f (i386.args o).src (i386.args o).dst).toNat < (kernelbase k o.mem).toNat
  · simpa [copyTest, outer, hlt, hfault] using hlow hlt _ _
  · simpa [copyTest, outer, hlt] using hhigh (Nat.le_of_not_lt hlt) _

theorem comes_xcopyEntry (hfirst : At (text k) ip (xcopyTest k f))
    (htests : At (text k) (ip + 6) (ntaTests k f (sizePlace f)))
    (hhigh : (kernelbase k o.mem).toNat ≤ (userAddr f (i386.args o).src (i386.args o).dst).toNat → ∀ fl,
      Comes k Q P ⟨⟨labelAddr (text k) (.three f), outer o (BitVec.ofNat 32 (labelAddr (text k) (.err f)))
        (kernelbase k o.mem) (thread k o.mem) fl o.mem⟩, e, r⟩)
    (hcopy : (userAddr f (i386.args o).src (i386.args o).dst).toNat < (kernelbase k o.mem).toNat →
      ¬ TakesLoop k o f → ∀ cx fl, Comes k Q P ⟨⟨3, outer o (BitVec.ofNat 32 (labelAddr (text k) (.err f))) cx
        (thread k o.mem) fl o.mem⟩, e, r⟩)
    (hnta : TakesLoop k o f → ∀ cx fl, Comes k Q P ⟨⟨30, outer o (BitVec.ofNat 32 (labelAddr (text k) (.err f))) cx
        (thread k o.mem) fl o.mem⟩, e, r⟩) :
    Comes k Q P ⟨⟨ip, o⟩, e, r⟩ := by
  have hfault : labelAddr (text k) .doCopyFault = 3 := rfl
  have haligned := aligned_userAddr f (i386.args o).src (i386.args o).dst (i386.args o).count
  suffices h : Comes k Q P ⟨⟨ip, outer o o.regs.ax o.regs.cx o.regs.dx o.flags o.mem⟩, e, r⟩ by
    rwa [← eq_outer hcall] at h
  apply comes_late hfirst hallows hip rfl
  by_cases hlt : (userAddr f (i386.args o).src (i386.args o).dst).toNat < (kernelbase k o.mem).toNat
  · simp [xcopyTest, outer, hlt]
    have hbegin : At (text k) (ip + 6) ((ntaTests k f (sizePlace f)).take 4) := htests.take 4
    have hsize : At (text k) (ip + 10) (((ntaTests k f (sizePlace f)).drop 4).take 2) := (htests.drop 4).take 2
    have hrest : At (text k) (ip + 12) ((ntaTests k f (sizePlace f)).drop 6) := htests.drop 6
    apply comes_late hbegin hallows (by omega) rfl
    by_cases hsse : load 32 o.mem (BitVec.ofInt 32 k.useSseCopy) = 0#32
    · simp [ntaTests, hsse, hfault]
      exact hcopy hlt (fun h => h.sse hsse) _ _
    by_cases hhint : (i386.args o).last = 0#32
    · simp [ntaTests, hsse, hhint]
      apply comes_late (s := outer o (BitVec.ofNat 32 (labelAddr (text k) (.err f))) (kernelbase k o.mem) (thread k o.mem)
        (difference 0#32 0#32 false).2 o.mem) hsize hallows (by omega) rfl
      rw [show ((ntaTests k f (sizePlace f)).drop 4).take 2 = [cmpl (.imm minSize) (sizePlace f), jb .doCopyFault] from rfl,
        run_cmp_size]
      by_cases hmin : (sizeTested k o f).toNat < 128
      · simpa [outer, hmin, hfault] using hcopy hlt (fun h => by have := h.size; omega) _ _
      · simp [outer, hmin]
        apply comes_late hrest hallows (by omega) rfl
        by_cases hal : Aligned (i386.args o).src (i386.args o).dst (i386.args o).count
        · simp [ntaTests, haligned.mpr hal, labelAddr_nta]
          exact hnta ⟨hlt, hsse, hhint, by omega, hal⟩ _ _
        · simp [ntaTests, haligned.not.mpr hal, hfault]
          exact hcopy hlt (fun h => hal h.aligned) _ _
    · simp [ntaTests, hsse, hhint, hfault]
      exact hcopy hlt (fun h => hhint h.hint) _ _
  · simpa [xcopyTest, outer, hlt] using hhigh (Nat.le_of_not_lt hlt) _

theorem comes_copyStrEntry (hat : At (text k) ip (copyStrTest k f))
    (hhigh : (kernelbase k o.mem).toNat ≤ (userAddr f (i386.args o).src (i386.args o).dst).toNat → ∀ ax cx fl,
      Comes k Q P ⟨⟨labelAddr (text k) (.three f), outer o ax cx (thread k o.mem) fl o.mem⟩, e, r⟩)
    (hlow : (userAddr f (i386.args o).src (i386.args o).dst).toNat < (kernelbase k o.mem).toNat → ∀ cx dx fl,
      Comes k Q P ⟨⟨176, outer o (BitVec.ofNat 32 (labelAddr (text k) (.err f))) cx dx fl o.mem⟩, e, r⟩) :
    Comes k Q P ⟨⟨ip, o⟩, e, r⟩ := by
  have hcopystr : labelAddr (text k) .doCopystr = 176 := rfl
  suffices h : Comes k Q P ⟨⟨ip, outer o o.regs.ax o.regs.cx o.regs.dx o.flags o.mem⟩, e, r⟩ by
    rwa [← eq_outer hcall] at h
  apply comes_late hat hallows hip rfl
  by_cases hlt : (userAddr f (i386.args o).src (i386.args o).dst).toNat < (kernelbase k o.mem).toNat
  · simpa [copyStrTest, outer, hlt, hcopystr] using hlow hlt _ _ _
  · simpa [copyStrTest, outer, hlt] using hhigh (Nat.le_of_not_lt hlt) _ _ _

end Entry

section Tail

variable {ip : Nat} (hip : 46 < ip) (hallows : Allows k src dst cnt rlim wlim Q P)

include hip hallows

/-- With no copyops to hand over to, a routine that fails returns a code. -/
theorem comes_unhooked {n : Nat} {c : Int} (hcall : i386.Admits k o)
    (hat : At (text k) ip [.label (.three f), movl (ind k.tCopyops .dx) eax, cmpl (.imm 0) eax, jz (.two f)])
    (hlast : At (text k) (ip + n) [.label (.two f), movl (.imm c) eax, .ret 0])
    (htwo : labelAddr (text k) (.two f) = ip + n) (hm : Base k o (oldLofault k o) m)
    (hend : ∀ p, i386.Exit k o p → p.errno = e → P p) :
    Comes k Q P ⟨⟨ip, outer o ax cx (thread k o.mem) fl m⟩, e, r⟩ := by
  apply comes_late hat hallows hip rfl
  simp [outer, hm.copyops, hcall.copyops, htwo]
  apply comes_late (hlast.take 2) hallows (by omega) rfl
  simp
  exact comes_ret (hlast.drop 2) hallows (.inr (by omega)) hm fun p hp herrno _ => hend p hp.toExit herrno

theorem comes_xcopyThree (hat : At (text k) ip ((xcopyErr k f).drop 6)) (htwo : labelAddr (text k) (.two f) = ip + 5)
    (hm : Base k o (oldLofault k o) m)
    (hhand : ∀ p, i386.Hands k o f p → p.errno = e → P p)
    (hend : ∀ p, Returned k o ax m p → p.errno = e → p.rounds = r → P p) :
    Comes k Q P ⟨⟨ip, outer o ax cx (thread k o.mem) fl m⟩, e, r⟩ := by
  have hbegin : At (text k) ip (((xcopyErr k f).drop 6).take 5) := hat.take 5
  have hlast : At (text k) (ip + 5) (((xcopyErr k f).drop 11).take 1) := (hat.drop 5).take 1
  have hret : At (text k) (ip + 6) [.ret 0] := hat.drop 6
  apply comes_late hbegin hallows hip rfl
  by_cases hops : load 32 o.mem (copyops k (thread k o.mem)) = 0#32
  · simp [xcopyErr, outer, hm.copyops, hops, htwo]
    apply comes_late hlast hallows (by omega) rfl
    simp [xcopyErr]
    exact comes_ret hret hallows (.inr (by omega)) hm hend
  · simp [xcopyErr, outer, hm.copyops, hops]
    exact .here (hhand _ (hands_of_base hm hops) rfl)

theorem comes_copyStrErr (hat : At (text k) ip ((copyStrErr k f).take 7)) (hcall : i386.Enters k o)
    (hm : Holds k o o.regs.bx v m)
    (h : ∀ cx m', Base k o (oldLofault k o) m' →
      Comes k Q P ⟨⟨ip + 7, outer o ax cx (thread k o.mem) fl m'⟩, e, r⟩) :
    Comes k Q P ⟨⟨ip, inside o ax cx dx bx o.regs.si di fl m⟩, e, r⟩ := by
  have hm' := hm.setLofault hcall (oldLofault k o)
  have hthread := hm.thread
  apply comes_late hat hallows hip rfl
  simp [copyStrErr, inside, hm.old, hthread, hm'.di, hm'.slot, hm'.bp]
  exact h cx _ hm'.toBase

end Tail

theorem toNat_err (h : labelAddr (text k) (.err f) < 2 ^ 32) :
    (BitVec.ofNat 32 (labelAddr (text k) (.err f))).toNat = labelAddr (text k) (.err f) := by
  rw [BitVec.toNat_ofNat, Nat.mod_eq_of_lt h]

theorem copy_sites (hf : f = .copyin ∨ f = .copyout) :
    Sites (text k) f (copyTest k f) (copyErr k f) 6 5 46 := by
  rcases hf with rfl | rfl <;>
    exact ⟨⟨_, rfl⟩, ⟨_, rfl⟩, rfl, rfl, Nat.le_of_ble_eq_true rfl, Nat.le_of_ble_eq_true rfl, Nat.le_of_ble_eq_true rfl⟩

theorem xcopy_sites (hf : f = .xcopyinNta ∨ f = .xcopyoutNta) :
    Sites (text k) f (xcopyTest k f ++ ntaTests k f (sizePlace f)) (xcopyErr k f) 6 5 46 := by
  rcases hf with rfl | rfl <;>
    exact ⟨⟨_, rfl⟩, ⟨_, rfl⟩, rfl, rfl, Nat.le_of_ble_eq_true rfl, Nat.le_of_ble_eq_true rfl, Nat.le_of_ble_eq_true rfl⟩

theorem copyStr_sites (hf : f = .copyinstr ∨ f = .copyoutstr) :
    Sites (text k) f (copyStrTest k f) (copyStrErr k f) 7 5 46 := by
  rcases hf with rfl | rfl <;>
    exact ⟨⟨_, rfl⟩, ⟨_, rfl⟩, rfl, rfl, Nat.le_of_ble_eq_true rfl, Nat.le_of_ble_eq_true rfl, Nat.le_of_ble_eq_true rfl⟩

theorem own_pushed (v : BitVec 32) (x : BitVec 32) :
    i386.Own k o (store (pushed k o x) (lofault k (thread k o.mem)) v) := by
  refine Port.Own.store ?_ lofault_mem (by simp)
  intro b hb
  have hframe : 36 ≤ (b - (o.regs.sp - 16#32)).toNat := hb _ frame_mem
  exact pushed_changedIn b (by omega)

theorem comes_copy (hf : f = .copyin ∨ f = .copyout) (hcall : i386.Admits k o)
    (hallows : Allows k (i386.args o).src (i386.args o).dst cnt rlim wlim Q P)
    (hcnt : (userAddr f (i386.args o).src (i386.args o).dst).toNat < (kernelbase k o.mem).toNat →
      (i386.args o).count.toNat = cnt)
    (hclear : (userAddr f (i386.args o).src (i386.args o).dst).toNat < (kernelbase k o.mem).toNat →
      i386.Clear k o (i386.args o).dst wlim)
    (hend : ∀ p, i386.Exit k o p → (p.errno = none →
      (userAddr f (i386.args o).src (i386.args o).dst).toNat < (kernelbase k o.mem).toNat → cnt ≤ wlim) → P p) :
    Comes k Q P (i386.start k o (.entry f)) := by
  obtain ⟨hentry, herr, hthree, htwo, hip, hip', hlt⟩ := copy_sites (k := k) hf
  apply comes_copyEntry hip hallows hcall.enters hentry
  · intro hge fl
    rw [hthree]
    exact comes_unhooked (by omega) hallows hcall ((herr.drop 6).take 4) ((herr.drop 6).drop _) htwo base_self
      fun p hp _ => hend p hp fun _ hlow => absurd hlow (Nat.not_lt.mpr hge)
  · intro hlow cx fl
    apply comes_doCopyFault rfl rfl (hcnt hlow) hallows hcall.enters (hclear hlow)
    · intro cx si di fl m' e' j r hp hj he
      have hlabel : At (text k) (labelAddr (text k) (.err f)) [.label (.err f)] := herr.take 1
      have hm := ((holds_pushed hcall.enters).setLofault hcall.enters _).progress (hclear hlow) hp hj
      rw [toNat_err hlt]
      apply comes_late hlabel hallows hip' rfl
      simp
      apply comes_restore ((herr.drop 1).take 5) (.inl rfl) hallows (.inr (by omega)) hcall.enters hm
      intro m'' _ hbase
      exact comes_unhooked (by omega) hallows hcall ((herr.drop 6).take 4) ((herr.drop 6).drop _) htwo hbase
        fun p hp herrno => hend p hp fun hnone => by cases herrno.symm.trans hnone
    · intro m' p _ hle hp _ _
      exact hend p hp.toExit fun _ _ => hle

/-- The copy of `cnt` bytes from the memory `m₀` on is over: it is complete, as
up to `lim` bytes are, or a fault has ended it. -/
inductive Ended (k : Symbols) (o : State 32) (src dst : BitVec 32) (cnt lim : Nat) (p : Point 32) : Prop
  | done {m₀ m' : Mem 32} (le : cnt ≤ lim) (own : i386.Own k o m₀) (progress : Progress m₀ src dst cnt cnt m')
      (returned : Returned k o 0#32 (store m' (lofault k (thread k o.mem)) (oldLofault k o)) p) (errno : p.errno = none)
  | failed {m₀ m' : Mem 32} {j : Nat} {e : BitVec 32} (own : i386.Own k o m₀) (progress : Progress m₀ src dst cnt j m')
      (returned : Returned k o e (store m' (lofault k (thread k o.mem)) (oldLofault k o)) p) (errno : p.errno = some e)

theorem Ended.exit (h : Ended k o src dst cnt lim p) : i386.Exit k o p := by
  cases h with
  | done _ _ _ h _ => exact h.toExit
  | failed _ _ h _ => exact h.toExit

theorem confined_label {s : State 32} : Confined (text k) src dst cnt ⟨⟨30, s⟩, e, r⟩ :=
  ⟨(fun _ hx => by cases hx), fun _ hx => by cases hx⟩

section Xcopy

variable (hf : f = .xcopyinNta ∨ f = .xcopyoutNta) (hcall : i386.Enters k o)
  (hallows : Allows k (i386.args o).src (i386.args o).dst cnt rlim wlim Q P)

include hf hcall hallows

theorem xcopy_recovers (hclear : i386.Clear k o (i386.args o).dst wlim)
    (hhand : ∀ p, i386.Hands k o f p → p.errno ≠ none → P p)
    (hfailed : ∀ p, Ended k o (i386.args o).src (i386.args o).dst cnt wlim p → p.errno ≠ none → P p) :
    Recovers k o (BitVec.ofNat 32 (labelAddr (text k) (.err f))) (i386.args o).src (i386.args o).dst cnt wlim
      (store (pushed k o o.regs.si) (lofault k (thread k o.mem)) (BitVec.ofNat 32 (labelAddr (text k) (.err f)))) Q P := by
  obtain ⟨_, herr, _, htwo, _, hip', hlt⟩ := xcopy_sites (k := k) hf
  intro cx si di fl m' e' j r hp hj he
  have hlabel : At (text k) (labelAddr (text k) (.err f)) [.label (.err f)] := herr.take 1
  have hm := ((holds_pushed hcall).setLofault hcall _).progress hclear hp hj
  rw [toNat_err hlt]
  apply comes_late hlabel hallows hip' rfl
  simp
  apply comes_restore ((herr.drop 1).take 5) (.inl rfl) hallows (.inr (by omega)) hcall hm
  intro m'' hm'' hbase
  subst hm''
  apply comes_xcopyThree (by omega) hallows (herr.drop 6) htwo hbase
  · intro p hp' herrno
    exact hhand p hp' (by rw [herrno]; simp)
  · intro p hp' herrno _
    exact hfailed p (.failed (own_pushed _ _) hp hp' herrno) (by rw [herrno]; simp)

theorem comes_xcopyLoop (hclear : i386.Clear k o (i386.args o).dst wlim)
    (hcounts : Counts (i386.args o).count cnt wlim) (hpos : 0 < cnt) (hmod : cnt % 16 = 0)
    (hhand : ∀ p, i386.Hands k o f p → p.errno ≠ none → P p)
    (hend : ∀ p, Ended k o (i386.args o).src (i386.args o).dst cnt wlim p →
      (p.errno = none → p.rounds = r + cnt / 16) → P p) :
    Comes k Q P ⟨⟨31, outer o (BitVec.ofNat 32 (labelAddr (text k) (.err f))) cx dx fl o.mem⟩, none, r⟩ := by
  apply comes_doCopyFaultNta rfl rfl hcounts hpos hmod hallows hcall hclear
  · exact xcopy_recovers hf hcall hallows hclear hhand fun p hp herrno => hend p hp (absurd · herrno)
  · intro m' p hp hle hret herrno hrounds
    exact hend p (.done hle (own_pushed _ _) hp hret herrno) fun _ => hrounds

end Xcopy

theorem comes_xcopy (hf : f = .xcopyinNta ∨ f = .xcopyoutNta) (hcall : i386.Enters k o)
    (hallows : Allows k (i386.args o).src (i386.args o).dst cnt rlim wlim Q P)
    (hcount : (userAddr f (i386.args o).src (i386.args o).dst).toNat < (kernelbase k o.mem).toNat → ¬ TakesLoop k o f →
      (i386.args o).count.toNat = cnt)
    (hclear : (userAddr f (i386.args o).src (i386.args o).dst).toNat < (kernelbase k o.mem).toNat →
      i386.Clear k o (i386.args o).dst wlim)
    (hhand : ∀ p, i386.Hands k o f p → P p)
    (hhigh : (kernelbase k o.mem).toNat ≤ (userAddr f (i386.args o).src (i386.args o).dst).toNat → ∀ p,
      Returned k o (BitVec.ofNat 32 (labelAddr (text k) (.err f))) o.mem p → P p)
    (hnta : TakesLoop k o f → ∀ cx dx fl,
      Comes k Q P ⟨⟨30, outer o (BitVec.ofNat 32 (labelAddr (text k) (.err f))) cx dx fl o.mem⟩, none, 0⟩)
    (hend : (userAddr f (i386.args o).src (i386.args o).dst).toNat < (kernelbase k o.mem).toNat →
      ∀ p, Ended k o (i386.args o).src (i386.args o).dst cnt wlim p → P p) :
    Comes k Q P (i386.start k o (.entry f)) := by
  obtain ⟨hentry, herr, hthree, htwo, hip, hip', hlt⟩ := xcopy_sites (k := k) hf
  apply comes_xcopyEntry hip hallows hcall (hentry.take 6) (hentry.drop 6)
  · intro hge fl
    rw [hthree]
    exact comes_xcopyThree (by omega) hallows (herr.drop 6) htwo base_self (fun p hp _ => hhand p hp)
      fun p hp _ _ => hhigh hge p hp
  · intro hlow hnot cx fl
    apply comes_doCopyFault rfl rfl (hcount hlow hnot) hallows hcall (hclear hlow)
    · exact xcopy_recovers hf hcall hallows (hclear hlow) (fun p hp _ => hhand p hp) fun p hp _ => hend hlow p hp
    · intro m' p hp hle hret herrno _
      exact hend hlow p (.done hle (own_pushed _ _) hp hret herrno)
  · intro htakes cx fl
    exact hnta htakes cx _ fl

theorem comes_copyStr (hf : f = .copyinstr ∨ f = .copyoutstr) (hcall : i386.Admits k o)
    (hallows : Allows k (i386.args o).src (i386.args o).dst cnt rlim wlim Q P)
    (hext : (userAddr f (i386.args o).src (i386.args o).dst).toNat < (kernelbase k o.mem).toNat → ∀ m₀, i386.Own k o m₀ →
      (scan m₀ (i386.args o).src (i386.args o).dst 0 (i386.args o).count.toNat).1 ≤ cnt)
    (hclear : (userAddr f (i386.args o).src (i386.args o).dst).toNat < (kernelbase k o.mem).toNat →
      i386.Clear k o (i386.args o).dst wlim)
    (hlast : (i386.args o).last ≠ 0#32 → i386.Clear k o (i386.args o).last 4)
    (hexit : ∀ p, i386.Exit k o p → p.errno ≠ none ∨
      (kernelbase k o.mem).toNat ≤ (userAddr f (i386.args o).src (i386.args o).dst).toNat → P p)
    (hend : ∀ m₀ p, i386.Own k o m₀ →
      (scan m₀ (i386.args o).src (i386.args o).dst 0 (i386.args o).count.toNat).1 ≤ wlim → i386.Exit k o p → P p) :
    Comes k Q P (i386.start k o (.entry f)) := by
  obtain ⟨hentry, herr, hthree, htwo, hip, hip', hlt⟩ := copyStr_sites (k := k) hf
  apply comes_copyStrEntry hip hallows hcall.enters hentry
  · intro hge ax cx fl
    rw [hthree]
    exact comes_unhooked (by omega) hallows hcall ((herr.drop 7).take 4) ((herr.drop 7).drop _) htwo base_self
      fun p hp _ => hexit p hp (.inr hge)
  · intro hlow cx dx fl
    apply comes_doCopystr rfl rfl rfl hallows (hext hlow _ (own_pushed _ _)) hcall.enters (hclear hlow) hlast
    · intro cx dx bx fl m' e' j r hp hj he
      rw [toNat_err hlt]
      apply comes_copyStrErr hip' hallows (herr.take 7) hcall.enters
        (((holds_pushed hcall.enters).setLofault hcall.enters _).progress (hclear hlow) hp hj)
      intro cx m'' hbase
      exact comes_unhooked (by omega) hallows hcall ((herr.drop 7).take 4) ((herr.drop 7).drop _) htwo hbase
        fun p hp herrno => hexit p hp (.inl (by rw [herrno]; simp))
    · intro l found m' p hscan _ hle hp _ _
      exact hend _ p (own_pushed _ _) (by rw [hscan]; exact hle) hp.toExit

end SysvDev.Copy.I386.Routines
