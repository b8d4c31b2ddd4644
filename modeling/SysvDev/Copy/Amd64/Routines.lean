import SysvDev.Copy.Amd64.Core

namespace SysvDev.Copy.Amd64.Routines

open X86.Memory X86.Machine X86.Machine.Att X86.Run X86.Strings X86.Traps Inevitable Text Text.Amd64 Call Amd64.Core

set_option maxRecDepth 2000

variable {k : Symbols} {o : State 64} {ax cx dx sp si di r8 r9 r10 r11 src dst err v : BitVec 64} {fl : Flags}
  {m m' : Mem 64} {cnt lim rlim wlim : Nat} {e : Option (BitVec 32)} {r : Nat} {Q P : Point 64 → Prop} {f : Routine}

attribute [local simp] merge_quad add_tLofault add_tCopyops load_cpuThread load_kernelbase

structure Framed (k : Symbols) (o : State 64) (m : Mem 64) : Prop where
  holds : Holds k o (oldLofault k o) m
  own : amd64.Own k o m
  kernelbase : kernelbase k m = kernelbase k o.mem

theorem framed_of_changedIn (hcall : amd64.Enters k o) (hm : ChangedIn (o.regs.sp - 40#64) 40 o.mem m)
    (hbp : load 64 m (o.regs.sp - 8#64) = o.regs.bp) : Framed k o m := by
  have hword {a : BitVec 64} (ha : (a, 8) ∈ (amd64.regions k o).tail) : load 64 m a = load 64 o.mem a :=
    hm.load (hcall.frame_apart ha (by decide))
  have hret : o.regs.sp = o.regs.sp - 40#64 + BitVec.ofNat 64 40 := (sub_add_cancel _ _).symm
  refine ⟨⟨hword (.tail _ (.tail _ (.head _))), hword (.head _), hword (.tail _ (.head _)),
    fun hne f => hword (.tail _ (Port.hook_mem f hne)), hbp, ?_⟩, ?_, hword (.tail _ (.tail _ (.tail _ (.head _))))⟩
  · rw [hret]
    exact hm.above 40 le_rfl (by decide) (by decide) (by decide)
  · intro b hb
    have hframe : 48 ≤ (b - (o.regs.sp - 40#64)).toNat := hb _ frame_mem
    exact hm b (by omega)

def savedArgs (o : State 64) : Mem 64 :=
  store (store (store (store o.mem (o.regs.sp - 8#64) o.regs.bp) (o.regs.sp - 8#64 - 32#64) o.regs.di)
    (o.regs.sp - 8#64 - 32#64 + 8#64) o.regs.si) (o.regs.sp - 8#64 - 32#64 + 16#64) o.regs.dx

theorem sp_sub : o.regs.sp - 8#64 - 32#64 = o.regs.sp - 40#64 + 0#64 := by bv_omega

theorem sp_sub_add (c : BitVec 64) : o.regs.sp - 8#64 - 32#64 + c = o.regs.sp - 40#64 + c := by bv_omega

theorem bp_addr : o.regs.sp - 8#64 = o.regs.sp - 40#64 + BitVec.ofNat 64 32 := by bv_omega

theorem framed_of_saved (hcall : amd64.Enters k o)
    (hm : ChangedIn (o.regs.sp - 40#64) 32 (store o.mem (o.regs.sp - 8#64) o.regs.bp) m) : Framed k o m := by
  have hpush : ChangedIn (o.regs.sp - 40#64) 40 o.mem (store o.mem (o.regs.sp - 8#64) o.regs.bp) := by
    rw [bp_addr]
    exact (ChangedIn.refl _ _ _).store (by decide)
  apply framed_of_changedIn hcall (hpush.trans (hm.mono (by decide)))
  rw [bp_addr, hm.above 32 le_rfl (by decide) (by decide) (by decide), ← bp_addr]
  exact load_store_same _ _ _ rfl (by decide)

theorem savedArgs_changedIn :
    ChangedIn (o.regs.sp - 40#64) 32 (store o.mem (o.regs.sp - 8#64) o.regs.bp) (savedArgs o) := by
  rw [savedArgs, sp_sub_add, sp_sub_add, sp_sub]
  exact (((ChangedIn.refl _ _ _).store (by decide)).store (by decide)).store (by decide)

theorem run_cmp_uaddr {ip : Nat} {s : State 64} {lines : List (Line Label)} :
    run (text k) ip s (cmpq rax (uaddr f) :: lines) =
      run (text k) (ip + 1) (s.setFlags (difference s.regs.ax (userAddr f s.regs.di s.regs.si) false).2) lines := by
  cases f <;> simp [uaddr, userAddr, isIn]

abbrev entered (k : Symbols) (o : State 64) (ax cx r8 r10 : BitVec 64) (fl : Flags) (m : Mem 64) : State 64 :=
  inside o (o.regs.sp - 8#64 - 32#64) ax cx o.regs.dx o.regs.si o.regs.di r8 (thread k o.mem) r10 o.regs.hi.r11 fl m

attribute [local simp high] run_cmp_uaddr

theorem comes_ntaTests {ip : Nat} {l : Label} (hat : At (text k) ip (ntaTests l)) (hip : ip + 11 ≤ 35 ∨ 43 < ip)
    (hallows : Allows k src dst cnt rlim wlim Q P)
    (hcopy : ¬ (cx = 0#64 ∧ 128 ≤ dx.toNat ∧ Aligned di si dx) → ∀ r10 fl, Comes k Q P ⟨⟨5, inside o sp ax
      (BitVec.ofNat 64 (labelAddr (text k) l)) dx si di r8 r9 r10 r11 fl m⟩, e, r⟩)
    (hnta : cx = 0#64 → 128 ≤ dx.toNat → Aligned di si dx → ∀ r10 fl, Comes k Q P ⟨⟨ip + 11, inside o sp ax
      (BitVec.ofNat 64 (labelAddr (text k) l)) dx si di r8 r9 r10 r11 fl m⟩, e, r⟩) :
    Comes k Q P ⟨⟨ip, inside o sp ax cx dx si di r8 r9 r10 r11 fl m⟩, e, r⟩ := by
  have hfault : labelAddr (text k) .doCopyFault = 5 := rfl
  have haligned : ((di ||| si) &&& 3#64 ||| dx) &&& 15#64 = 0#64 ↔ Aligned di si dx := aligned_iff (by decide)
  apply until_run hat hallows rfl
  · simp only [ntaTests, List.length_cons, List.length_nil]
    omega
  · simp only [ntaTests, List.length_cons, List.length_nil]
    omega
  by_cases hcx : cx = 0#64
  · by_cases hmin : dx.toNat < 128
    · simpa [ntaTests, inside, hcx, hmin, hfault] using hcopy (by omega) _ _
    · by_cases hal : Aligned di si dx
      · simpa [ntaTests, inside, hcx, hmin, haligned.mpr hal] using hnta hcx (by omega) hal _ _
      · simpa [ntaTests, inside, hcx, hmin, haligned.not.mpr hal, hfault] using hcopy (fun h => hal h.2.2) _ _
  · simpa [ntaTests, inside, hcx, hfault] using hcopy (fun h => hcx h.1) _ _

section Entry

variable {ip : Nat} (hip : 43 < ip) (hallows : Allows k src dst cnt rlim wlim Q P) (hcall : amd64.Enters k o)

include hip hallows hcall

theorem comes_copyEntry (hat : At (text k) ip ((copy k f).take 13))
    (hhigh : (kernelbase k o.mem).toNat ≤ (userAddr f o.regs.di o.regs.si).toNat → ∀ cx fl m, Framed k o m →
      Comes k Q P ⟨⟨labelAddr (text k) (.three f),
        entered k o (kernelbase k o.mem) cx o.regs.hi.r8 o.regs.hi.r10 fl m⟩, e, r⟩)
    (hlow : (userAddr f o.regs.di o.regs.si).toNat < (kernelbase k o.mem).toNat → ∀ fl m, Framed k o m →
      Comes k Q P ⟨⟨5, entered k o (kernelbase k o.mem) (BitVec.ofNat 64 (labelAddr (text k) (.err f))) o.regs.hi.r8
        o.regs.hi.r10 fl m⟩, e, r⟩) :
    Comes k Q P ⟨⟨ip, o⟩, e, r⟩ := by
  have hfault : labelAddr (text k) .doCopyFault = 5 := rfl
  have hframed : Framed k o (savedArgs o) := framed_of_saved hcall savedArgs_changedIn
  have hthread := hframed.holds.thread
  have hbase := hframed.kernelbase
  have hdf := hcall.df
  obtain ⟨⟨ax, cx, dx, bx, sp, bp, si, di, hi⟩, fl, df, m⟩ := o
  subst hdf
  apply comes_late hat hallows hip (by cases f <;> rfl)
  simp only [savedArgs] at hthread hbase
  by_cases hlt : (userAddr f di si).toNat < (kernelbase k m).toNat
  · simp [copy, saveArgs, copyTest, difference_val, hthread, hbase, hlt, hfault]
    exact hlow hlt _ _ hframed
  · simp [copy, saveArgs, copyTest, difference_val, hthread, hbase, hlt]
    exact hhigh (Nat.le_of_not_lt hlt) _ _ _ hframed

theorem comes_xcopyEntry (hat : At (text k) ip ((xcopyNta k f).take 23))
    (hhigh : (kernelbase k o.mem).toNat ≤ (userAddr f o.regs.di o.regs.si).toNat → ∀ cx fl m, Framed k o m →
      Comes k Q P ⟨⟨labelAddr (text k) (.three f),
        entered k o (kernelbase k o.mem) cx o.regs.hi.r8 o.regs.hi.r10 fl m⟩, e, r⟩)
    (hcopy : (userAddr f o.regs.di o.regs.si).toNat < (kernelbase k o.mem).toNat → ∀ r10 fl m, Framed k o m →
      Comes k Q P ⟨⟨5, entered k o (kernelbase k o.mem) (BitVec.ofNat 64 (labelAddr (text k) (.err f))) o.regs.hi.r8
        r10 fl m⟩, e, r⟩)
    (hnta : (userAddr f o.regs.di o.regs.si).toNat < (kernelbase k o.mem).toNat → o.regs.cx = 0#64 →
      128 ≤ o.regs.dx.toNat → Aligned o.regs.di o.regs.si o.regs.dx → ∀ r10 fl m, Framed k o m →
      Comes k Q P ⟨⟨35, entered k o (kernelbase k o.mem) (BitVec.ofNat 64 (labelAddr (text k) (.err f))) o.regs.hi.r8
        r10 fl m⟩, e, r⟩) :
    Comes k Q P ⟨⟨ip, o⟩, e, r⟩ := by
  have hfirst : At (text k) ip ((xcopyNta k f).take 11) := hat.take 11
  have htests : At (text k) (ip + 11) (ntaTests (.err f)) := (hat.drop 11).take 11
  have hjump : At (text k) (ip + 22) [.jmp .doCopyFaultNta] := hat.drop 22
  have hframed : Framed k o (savedArgs o) := framed_of_saved hcall savedArgs_changedIn
  have hthread := hframed.holds.thread
  have hbase := hframed.kernelbase
  have hdf := hcall.df
  obtain ⟨⟨ax, cx, dx, bx, sp, bp, si, di, hi⟩, fl, df, m⟩ := o
  subst hdf
  apply comes_late hfirst hallows hip (by cases f <;> rfl)
  simp only [savedArgs] at hthread hbase
  by_cases hlt : (userAddr f di si).toNat < (kernelbase k m).toNat
  · simp [xcopyNta, saveArgs, xcopyTest, difference_val, hthread, hbase, hlt]
    apply comes_ntaTests (o := ⟨⟨ax, cx, dx, bx, sp, bp, si, di, hi⟩, fl, false, m⟩) htests (.inr (by omega)) hallows
    · intro _ r10 fl
      exact hcopy hlt _ _ _ hframed
    · intro hcx hmin hal r10 fl
      apply comes_late hjump hallows (by omega) rfl
      simp [labelAddr_nta]
      exact hnta hlt hcx hmin hal _ _ _ hframed
  · simp [xcopyNta, saveArgs, xcopyTest, difference_val, hthread, hbase, hlt]
    exact hhigh (Nat.le_of_not_lt hlt) _ _ _ hframed

theorem comes_copyStrEntry (hat : At (text k) ip ((copyStr k f).take 14))
    (hhigh : (kernelbase k o.mem).toNat ≤ (userAddr f o.regs.di o.regs.si).toNat → ∀ ax r8 fl m, Framed k o m →
      Comes k Q P ⟨⟨labelAddr (text k) (.three f), entered k o ax o.regs.cx r8 o.regs.hi.r10 fl m⟩, e, r⟩)
    (hlow : (userAddr f o.regs.di o.regs.si).toNat < (kernelbase k o.mem).toNat → ∀ ax r9 r10 fl m, Framed k o m →
      Comes k Q P ⟨⟨192, inside o (o.regs.sp - 8#64 - 32#64) ax o.regs.cx o.regs.dx o.regs.si o.regs.di
        (BitVec.ofNat 64 (labelAddr (text k) (.err f))) r9 r10 o.regs.hi.r11 fl m⟩, e, r⟩) :
    Comes k Q P ⟨⟨ip, o⟩, e, r⟩ := by
  have hcopystr : labelAddr (text k) .doCopystr = 192 := rfl
  have hframed : Framed k o (store (savedArgs o) (o.regs.sp - 8#64 - 32#64 + 24#64) o.regs.cx) := by
    apply framed_of_saved hcall
    rw [sp_sub_add]
    exact savedArgs_changedIn.store (by decide)
  have hthread := hframed.holds.thread
  have hbase := hframed.kernelbase
  have hdf := hcall.df
  obtain ⟨⟨ax, cx, dx, bx, sp, bp, si, di, hi⟩, fl, df, m⟩ := o
  subst hdf
  apply comes_late hat hallows hip (by cases f <;> rfl)
  simp only [savedArgs] at hthread hbase
  by_cases hlt : (userAddr f di si).toNat < (kernelbase k m).toNat
  · simp [copyStr, saveArgs, copyStrTest, difference_val, hbase, hlt, hcopystr]
    exact hlow hlt _ _ _ _ _ hframed
  · simp [copyStr, saveArgs, copyStrTest, difference_val, hthread, hbase, hlt]
    exact hhigh (Nat.le_of_not_lt hlt) _ _ _ _ hframed

end Entry

theorem comes_kcopyNtaEntry (hallows : Allows k src dst cnt rlim wlim Q P) (hcall : amd64.Enters k o)
    (hcopy : ∀ ax r10 fl m, Framed k o m → Comes k Q P ⟨⟨5, inside o (o.regs.sp - 8#64) ax 53#64 o.regs.dx o.regs.si
      o.regs.di o.regs.hi.r8 (thread k o.mem) r10 o.regs.hi.r11 fl m⟩, e, r⟩)
    (hnta : o.regs.cx = 0#64 → 128 ≤ o.regs.dx.toNat → Aligned o.regs.di o.regs.si o.regs.dx → ∀ ax r10 fl m,
      Framed k o m → Comes k Q P ⟨⟨35, inside o (o.regs.sp - 8#64) ax 53#64 o.regs.dx o.regs.si o.regs.di
        o.regs.hi.r8 (thread k o.mem) r10 o.regs.hi.r11 fl m⟩, e, r⟩) :
    Comes k Q P ⟨⟨20, o⟩, e, r⟩ := by
  have hfirst : At (text k) 20 ((kcopyNta k).take 4) := ⟨_, rfl⟩
  have htests : At (text k) 24 (ntaTests .kcopyNtaCopyerr) := ⟨_, rfl⟩
  have herr : labelAddr (text k) .kcopyNtaCopyerr = 53 := rfl
  have hframed : Framed k o (store o.mem (o.regs.sp - 8#64) o.regs.bp) :=
    framed_of_saved hcall (ChangedIn.refl _ _ _)
  have hthread := hframed.holds.thread
  have hdf := hcall.df
  obtain ⟨⟨ax, cx, dx, bx, sp, bp, si, di, hi⟩, fl, df, m⟩ := o
  subst hdf
  apply comes_run hfirst hallows rfl
  simp only at hthread
  simp [kcopyNta, hthread]
  apply comes_ntaTests (o := ⟨⟨ax, cx, dx, bx, sp, bp, si, di, hi⟩, fl, false, m⟩) htests (.inl (by decide)) hallows
  · intro _ r10 fl
    rw [herr]
    exact hcopy _ _ _ _ hframed
  · intro hcx hmin hal r10 fl
    rw [herr]
    exact hnta hcx hmin hal _ _ _ _ hframed

section Tail

variable {ip : Nat} (hip : 43 < ip) (hallows : Allows k src dst cnt rlim wlim Q P)

include hip hallows

theorem comes_err (hcall : amd64.Enters k o)
    (hat : At (text k) ip [.label (.err f), movq Att.r11 (ind k.tLofault .r9)]) (hm : Holds k o v m)
    (h : ∀ m', m' = store m (lofault k (thread k o.mem)) (oldLofault k o) → Holds k o (oldLofault k o) m' → Comes k Q P
      ⟨⟨ip + 2, inside o sp ax cx dx si di r8 (thread k o.mem) r10 (oldLofault k o) fl m'⟩, e, r⟩) :
    Comes k Q P ⟨⟨ip, inside o sp ax cx dx si di r8 (thread k o.mem) r10 (oldLofault k o) fl m⟩, e, r⟩ := by
  apply comes_late hat hallows hip rfl
  simpa [inside] using h _ rfl (hm.setLofault hcall _)

/-- With no copyops to hand over to, a routine that fails returns a code. -/
theorem comes_unhooked {n : Nat} {c : Int} (hcall : amd64.Admits k o)
    (hat : At (text k) ip [.label (.three f), movq (ind k.tCopyops .r9) rax, cmpq (.imm 0) rax, jz (.two f)])
    (hlast : At (text k) (ip + n) [.label (.two f), movl (.imm c) eax, .op .leave, .ret 0])
    (htwo : labelAddr (text k) (.two f) = ip + n) (hm : Holds k o (oldLofault k o) m)
    (hend : ∀ p, amd64.Exit k o p → p.errno = e → P p) :
    Comes k Q P ⟨⟨ip, inside o sp ax cx dx si di r8 (thread k o.mem) r10 r11 fl m⟩, e, r⟩ := by
  apply comes_late hat hallows hip rfl
  simp [inside, hm.copyops, hcall.copyops, htwo]
  apply comes_late hlast hallows (by omega) rfl
  simp [merge_long]
  exact .here (hend _ (returned_of_holds hm).toExit rfl)

theorem comes_xcopyThree (hat : At (text k) ip ((xcopyErr k f).drop 2)) (htwo : labelAddr (text k) (.two f) = ip + 9)
    (hm : Holds k o (oldLofault k o) m)
    (hhand : ∀ p, amd64.Hands k o f p → p.errno = e → P p)
    (hend : ∀ p, Returned k o ax m p → p.errno = e → p.rounds = r → P p) :
    Comes k Q P ⟨⟨ip, inside o sp ax cx dx si di r8 (thread k o.mem) r10 r11 fl m⟩, e, r⟩ := by
  have hbegin : At (text k) ip (((xcopyErr k f).drop 2).take 9) := hat.take 9
  have hlast : At (text k) (ip + 9) ((xcopyErr k f).drop 11) := hat.drop 9
  apply comes_late hbegin hallows hip rfl
  by_cases hops : load 64 o.mem (copyops k (thread k o.mem)) = 0#64
  · simp [xcopyErr, inside, hm.copyops, hops, htwo]
    apply comes_late hlast hallows (by omega) rfl
    simp [xcopyErr]
    exact .here (hend _ (returned_of_holds hm) rfl rfl)
  · simp [xcopyErr, inside, hm.copyops, hops]
    exact .here (hhand _ (hands_of_holds hm hops) rfl)

end Tail

theorem toNat_err (h : labelAddr (text k) (.err f) < 2 ^ 32) :
    (BitVec.ofNat 64 (labelAddr (text k) (.err f))).toNat = labelAddr (text k) (.err f) := by
  rw [BitVec.toNat_ofNat, Nat.mod_eq_of_lt (by omega)]

theorem copy_sites (hf : f = .copyin ∨ f = .copyout) :
    Sites (text k) f ((copy k f).take 13) (copyErr k f) 2 9 43 := by
  rcases hf with rfl | rfl <;>
    exact ⟨⟨_, rfl⟩, ⟨_, rfl⟩, rfl, rfl, Nat.le_of_ble_eq_true rfl, Nat.le_of_ble_eq_true rfl, Nat.le_of_ble_eq_true rfl⟩

theorem comes_copy (hf : f = .copyin ∨ f = .copyout) (hcall : amd64.Admits k o)
    (hallows : Allows k o.regs.di o.regs.si cnt rlim wlim Q P)
    (hcnt : (userAddr f o.regs.di o.regs.si).toNat < (kernelbase k o.mem).toNat → o.regs.dx.toNat = cnt)
    (hclear : (userAddr f o.regs.di o.regs.si).toNat < (kernelbase k o.mem).toNat → amd64.Clear k o o.regs.si wlim)
    (hend : ∀ p, amd64.Exit k o p →
      (p.errno = none → (userAddr f o.regs.di o.regs.si).toNat < (kernelbase k o.mem).toNat → cnt ≤ wlim) → P p) :
    Comes k Q P (amd64.start k o (.entry f)) := by
  obtain ⟨hentry, herr, hthree, htwo, hip, hip', hlt⟩ := copy_sites (k := k) hf
  apply comes_copyEntry hip hallows hcall.enters hentry
  · intro hge cx fl m hm
    rw [hthree]
    exact comes_unhooked (by omega) hallows hcall ((herr.drop 2).take 4) ((herr.drop 2).drop _) htwo hm.holds
      fun p hp _ => hend p hp fun _ hlow => absurd hlow (Nat.not_lt.mpr hge)
  · intro hlow fl m hm
    apply comes_doCopyFault hallows hcall.enters (hclear hlow) (hcnt hlow) hm.holds
    · intro cx dx si di r8 r10 fl m' e' j r hp hj he
      rw [toNat_err hlt]
      apply comes_err hip' hallows hcall.enters (herr.take 2) (v := BitVec.ofNat 64 (labelAddr (text k) (.err f)))
        ((hm.holds.setLofault hcall.enters _).progress (hclear hlow) hp hj)
      intro m'' _ hm''
      exact comes_unhooked (by omega) hallows hcall ((herr.drop 2).take 4) ((herr.drop 2).drop _) htwo hm''
        fun p hp herrno => hend p hp fun hnone => by cases herrno.symm.trans hnone
    · intro m' p _ hle hp _ _
      exact hend p hp.toExit fun _ _ => hle

theorem xcopy_sites (hf : f = .xcopyinNta ∨ f = .xcopyoutNta) :
    Sites (text k) f ((xcopyNta k f).take 23) (xcopyErr k f) 2 9 43 := by
  rcases hf with rfl | rfl <;>
    exact ⟨⟨_, rfl⟩, ⟨_, rfl⟩, rfl, rfl, Nat.le_of_ble_eq_true rfl, Nat.le_of_ble_eq_true rfl, Nat.le_of_ble_eq_true rfl⟩

/-- The copy of `cnt` bytes from the memory `m₀` on is over: it is complete, as
up to `lim` bytes are, or a fault has ended it. -/
inductive Ended (k : Symbols) (o : State 64) (src dst : BitVec 64) (cnt lim : Nat) (p : Point 64) : Prop
  | done {m₀ m' : Mem 64} (le : cnt ≤ lim) (own : amd64.Own k o m₀) (progress : Progress m₀ src dst cnt cnt m')
      (returned : Returned k o 0#64 (store m' (lofault k (thread k o.mem)) (oldLofault k o)) p) (errno : p.errno = none)
  | failed {m₀ m' : Mem 64} {j : Nat} {e : BitVec 32} (own : amd64.Own k o m₀) (progress : Progress m₀ src dst cnt j m')
      (returned : Returned k o (e.setWidth 64) (store m' (lofault k (thread k o.mem)) (oldLofault k o)) p)
      (errno : p.errno = some e)

theorem Ended.exit (h : Ended k o src dst cnt lim p) : amd64.Exit k o p := by
  cases h with
  | done _ _ _ h _ => exact h.toExit
  | failed _ _ h _ => exact h.toExit

theorem own_setLofault (hm : Framed k o m) (v : BitVec 64) :
    amd64.Own k o (store m (lofault k (thread k o.mem)) v) :=
  hm.own.store lofault_mem (by simp)

theorem confined_label {s : State 64} : Confined (text k) src dst cnt ⟨⟨35, s⟩, e, r⟩ :=
  ⟨(fun _ hx => by cases hx), fun _ hx => by cases hx⟩

section Xcopy

variable (hf : f = .xcopyinNta ∨ f = .xcopyoutNta) (hcall : amd64.Enters k o)
  (hallows : Allows k o.regs.di o.regs.si cnt rlim wlim Q P)

include hf hcall hallows

theorem xcopy_recovers (hclear : amd64.Clear k o o.regs.si wlim) (hm : Framed k o m)
    (hhand : ∀ p, amd64.Hands k o f p → p.errno ≠ none → P p)
    (hfailed : ∀ p, Ended k o o.regs.di o.regs.si cnt wlim p → p.errno ≠ none → P p) :
    Recovers k o sp (BitVec.ofNat 64 (labelAddr (text k) (.err f))) o.regs.di o.regs.si cnt wlim
      (store m (lofault k (thread k o.mem)) (BitVec.ofNat 64 (labelAddr (text k) (.err f)))) Q P := by
  obtain ⟨_, herr, _, htwo, _, hip', hlt⟩ := xcopy_sites (k := k) hf
  intro cx dx si di r8 r10 fl m' e' j r hp hj he
  rw [toNat_err hlt]
  apply comes_err hip' hallows hcall (herr.take 2) (v := BitVec.ofNat 64 (labelAddr (text k) (.err f)))
    ((hm.holds.setLofault hcall _).progress hclear hp hj)
  intro m'' hm'' hholds
  subst hm''
  apply comes_xcopyThree (by omega) hallows (herr.drop 2) htwo hholds
  · intro p hp' herrno
    exact hhand p hp' (by rw [herrno]; simp)
  · intro p hp' herrno _
    exact hfailed p (.failed (own_setLofault hm _) hp hp' herrno) (by rw [herrno]; simp)

theorem comes_xcopyLoop (hclear : amd64.Clear k o o.regs.si wlim) (hcnt : o.regs.dx.toNat = cnt)
    (hpos : 0 < cnt) (hmod : cnt % 16 = 0) (hm : Framed k o m)
    (hhand : ∀ p, amd64.Hands k o f p → p.errno ≠ none → P p)
    (hend : ∀ p, Ended k o o.regs.di o.regs.si cnt wlim p →
      (p.errno = none → p.rounds = r + cnt / 16) → P p) :
    Comes k Q P ⟨⟨36, entered k o ax (BitVec.ofNat 64 (labelAddr (text k) (.err f))) r8 r10 fl m⟩, none, r⟩ := by
  apply comes_doCopyFaultNta hallows hcall hclear hcnt hpos hmod hm.holds
  · exact xcopy_recovers hf hcall hallows hclear hm hhand fun p hp herrno => hend p hp (absurd · herrno)
  · intro m' p hp hle hret herrno hrounds
    exact hend p (.done hle (own_setLofault hm _) hp hret herrno) fun _ => hrounds

theorem comes_xcopy (hcnt : (userAddr f o.regs.di o.regs.si).toNat < (kernelbase k o.mem).toNat → o.regs.dx.toNat = cnt)
    (hclear : (userAddr f o.regs.di o.regs.si).toNat < (kernelbase k o.mem).toNat → amd64.Clear k o o.regs.si wlim)
    (hhand : ∀ p, amd64.Hands k o f p → P p)
    (hhigh : (kernelbase k o.mem).toNat ≤ (userAddr f o.regs.di o.regs.si).toNat → ∀ m p, amd64.Own k o m →
      Returned k o (kernelbase k o.mem) m p → P p)
    (hnta : (userAddr f o.regs.di o.regs.si).toNat < (kernelbase k o.mem).toNat → o.regs.cx = 0#64 →
      128 ≤ o.regs.dx.toNat → Aligned o.regs.di o.regs.si o.regs.dx → ∀ ax r8 r10 fl m, Framed k o m →
      Q ⟨⟨35, entered k o ax (BitVec.ofNat 64 (labelAddr (text k) (.err f))) r8 r10 fl m⟩, none, 0⟩)
    (hend : (userAddr f o.regs.di o.regs.si).toNat < (kernelbase k o.mem).toNat →
      ∀ p, Ended k o o.regs.di o.regs.si cnt wlim p → P p) :
    Comes k Q P (amd64.start k o (.entry f)) := by
  obtain ⟨hentry, herr, hthree, htwo, hip, hip', hlt⟩ := xcopy_sites (k := k) hf
  apply comes_xcopyEntry hip hallows hcall hentry
  · intro hge cx fl m hm
    rw [hthree]
    exact comes_xcopyThree (by omega) hallows (herr.drop 2) htwo hm.holds (fun p hp _ => hhand p hp)
      fun p hp _ _ => hhigh hge m p hm.own hp
  · intro hlow r10 fl m hm
    apply comes_doCopyFault hallows hcall (hclear hlow) (hcnt hlow) hm.holds
    · exact xcopy_recovers hf hcall hallows (hclear hlow) hm (fun p hp _ => hhand p hp) fun p hp _ => hend hlow p hp
    · intro m' p hp hle hret herrno _
      exact hend hlow p (.done hle (own_setLofault hm _) hp hret herrno)
  · intro hlow hcx hmin hal r10 fl m hm
    apply comes_ntaLabel (hnta hlow hcx hmin hal _ _ _ _ m hm)
    have hcount := hcnt hlow
    exact comes_xcopyLoop hf hcall hallows (hclear hlow) hcount (by omega) (hcount ▸ hal.2.2) hm
      (fun p hp _ => hhand p hp) fun p hp _ => hend hlow p hp

end Xcopy

section Kcopy

variable (hcall : amd64.Enters k o) (hallows : Allows k o.regs.di o.regs.si o.regs.dx.toNat rlim wlim Q P)
  (hclear : amd64.Clear k o o.regs.si wlim)

include hcall hallows hclear

theorem kcopyNta_recovers (hm : Framed k o m)
    (hfailed : ∀ p, amd64.Exit k o p → p.errno ≠ none → P p) :
    Recovers k o sp 53#64 o.regs.di o.regs.si o.regs.dx.toNat wlim (store m (lofault k (thread k o.mem)) 53#64) Q P := by
  have hlabel : At (text k) 53 [.label .kcopyNtaCopyerr] := ⟨_, rfl⟩
  intro cx dx si di r8 r10 fl m' e' j r hp hj he
  apply comes_late hlabel hallows (by decide) rfl
  simp
  apply comes_leave ⟨_, rfl⟩ hallows (.inr (by decide)) hcall ((hm.holds.setLofault hcall _).progress hclear hp hj)
  intro p hp' herrno _
  exact hfailed p hp'.toExit (by rw [herrno]; simp)

theorem comes_kcopyNtaLoop (hpos : 0 < o.regs.dx.toNat) (hmod : o.regs.dx.toNat % 16 = 0) (hm : Framed k o m)
    (hend : ∀ p, amd64.Exit k o p → (p.errno = none → p.rounds = r + o.regs.dx.toNat / 16) → P p) :
    Comes k Q P ⟨⟨36, inside o sp ax 53#64 o.regs.dx o.regs.si o.regs.di r8 r9 r10 r11 fl m⟩, none, r⟩ := by
  apply comes_doCopyFaultNta hallows hcall hclear rfl hpos hmod hm.holds
  · exact kcopyNta_recovers hcall hallows hclear hm fun p hp herrno => hend p hp (absurd · herrno)
  · intro m' p _ _ hret _ hrounds
    exact hend p hret.toExit fun _ => hrounds

theorem comes_kcopyNta
    (hnta : o.regs.cx = 0#64 → 128 ≤ o.regs.dx.toNat → Aligned o.regs.di o.regs.si o.regs.dx →
      ∀ ax r10 fl m, Framed k o m → Q ⟨⟨35, inside o (o.regs.sp - 8#64) ax 53#64 o.regs.dx o.regs.si o.regs.di
        o.regs.hi.r8 (thread k o.mem) r10 o.regs.hi.r11 fl m⟩, none, 0⟩)
    (hend : ∀ p, amd64.Exit k o p → P p) : Comes k Q P (amd64.start k o .kcopyNta) := by
  apply comes_kcopyNtaEntry hallows hcall
  · intro ax r10 fl m hm
    apply comes_doCopyFault hallows hcall hclear rfl hm.holds
    · exact kcopyNta_recovers hcall hallows hclear hm fun p hp _ => hend p hp
    · intro m' p _ _ hret _ _
      exact hend p hret.toExit
  · intro hcx hmin hal ax r10 fl m hm
    apply comes_ntaLabel (hnta hcx hmin hal ax r10 fl m hm)
    exact comes_kcopyNtaLoop hcall hallows hclear (by omega) hal.2.2 hm fun p hp _ => hend p hp

end Kcopy

theorem copyStr_sites (hf : f = .copyinstr ∨ f = .copyoutstr) :
    Sites (text k) f ((copyStr k f).take 14) (copyStrErr k f) 2 10 43 := by
  rcases hf with rfl | rfl <;>
    exact ⟨⟨_, rfl⟩, ⟨_, rfl⟩, rfl, rfl, Nat.le_of_ble_eq_true rfl, Nat.le_of_ble_eq_true rfl, Nat.le_of_ble_eq_true rfl⟩

theorem comes_copyStr (hf : f = .copyinstr ∨ f = .copyoutstr) (hcall : amd64.Admits k o)
    (hallows : Allows k o.regs.di o.regs.si cnt rlim wlim Q P)
    (hext : (userAddr f o.regs.di o.regs.si).toNat < (kernelbase k o.mem).toNat → ∀ m₀, amd64.Own k o m₀ →
      (scan m₀ o.regs.di o.regs.si 0 o.regs.dx.toNat).1 ≤ cnt)
    (hclear : (userAddr f o.regs.di o.regs.si).toNat < (kernelbase k o.mem).toNat → amd64.Clear k o o.regs.si wlim)
    (hlast : o.regs.cx ≠ 0#64 → amd64.Clear k o o.regs.cx 8)
    (hexit : ∀ p, amd64.Exit k o p → p.errno ≠ none ∨
      (kernelbase k o.mem).toNat ≤ (userAddr f o.regs.di o.regs.si).toNat → P p)
    (hend : ∀ m₀ p, amd64.Own k o m₀ → (scan m₀ o.regs.di o.regs.si 0 o.regs.dx.toNat).1 ≤ wlim → amd64.Exit k o p →
      P p) :
    Comes k Q P (amd64.start k o (.entry f)) := by
  obtain ⟨hentry, herr, hthree, htwo, hip, hip', hlt⟩ := copyStr_sites (k := k) hf
  apply comes_copyStrEntry hip hallows hcall.enters hentry
  · intro hge ax r8 fl m hm
    rw [hthree]
    exact comes_unhooked (by omega) hallows hcall ((herr.drop 2).take 4) ((herr.drop 2).drop _) htwo hm.holds
      fun p hp _ => hexit p hp (.inr hge)
  · intro hlow ax r9 r10 fl m hm
    apply comes_doCopystr hallows (hext hlow _ (own_setLofault hm _)) hcall.enters (hclear hlow) hlast rfl hm.holds
    · intro cx dx si di r8 r10 fl m' e' j r hp hj he
      rw [toNat_err hlt]
      apply comes_err hip' hallows hcall.enters (herr.take 2) (v := BitVec.ofNat 64 (labelAddr (text k) (.err f)))
        ((hm.holds.setLofault hcall.enters _).progress (hclear hlow) hp hj)
      intro m'' _ hm''
      exact comes_unhooked (by omega) hallows hcall ((herr.drop 2).take 4) ((herr.drop 2).drop _) htwo hm''
        fun p hp herrno => hexit p hp (.inl (by rw [herrno]; simp))
    · intro l found m' p hscan _ hle hp _ _
      exact hend _ p (own_setLofault hm _) (by rw [hscan]; exact hle) hp.toExit

end SysvDev.Copy.Amd64.Routines
