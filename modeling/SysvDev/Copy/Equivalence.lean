import SysvDev.Copy.I386.Core

namespace SysvDev.Copy.Equivalence

open X86.Memory X86.Machine X86.Machine.Att X86.Run X86.Strings Text Call

set_option maxRecDepth 2000

section Memory

variable {w n cnt : Nat} {m : Mem w} {a src dst : BitVec w}

/-- A word that is neither read nor written by the copy is changed for the time
of it. -/
theorem store_copied_back (hn : 8 * (n / 8) = n) (hsrc : Outside a (n / 8) src cnt) (hdst : Outside a (n / 8) dst cnt)
    (v : BitVec n) :
    store (copied (store m a v) src dst 0 cnt) a (load n m a) = copied m src dst 0 cnt := by
  have hkeep (b : BitVec w) (hb : ¬ (b - a).toNat < n / 8) : store m a v b = m b := by rw [store, if_neg hb]
  funext b
  rw [store_load hn]
  by_cases hb : (b - a).toNat < n / 8
  · have hout : cnt ≤ (b - dst).toNat := hdst.le hb
    rw [if_pos hb, add_sub_cancel, copied_changedIn b hout]
  · rw [if_neg hb, copied, copied]
    split
    next hin =>
      have hsrc' := hsrc _ hin.2
      rw [BitVec.ofNat_toNat, BitVec.setWidth_eq] at hsrc'
      exact hkeep _ (Nat.not_lt.mpr hsrc')
    next => exact hkeep b hb

end Memory

section Amd64

open Text.Amd64

variable {k : Symbols} {ax cx dx bx sp bp si di r8 r9 r10 r11 src dst cnt : BitVec 64} {hi hi' : HighRegs 64} {fl : Flags}
  {m : Mem 64} {s : State 64}

/-- The copy routines are entered with the frame set up, the label for faults in
`%rcx`, and with ranges that do not overlap and leave the lofault and the
frame alone. -/
structure Entered64 (k : Symbols) (s : State 64) : Prop where
  df : s.df = false
  thread : s.regs.hi.r9 = thread k s.mem
  frame : Apart (lofault k (Call.thread k s.mem)) 8 s.regs.bp 16
  source : Outside (lofault k (Call.thread k s.mem)) 8 s.regs.di s.regs.dx.toNat
  target : Outside (lofault k (Call.thread k s.mem)) 8 s.regs.si s.regs.dx.toNat
  target_frame : Outside s.regs.bp 16 s.regs.si s.regs.dx.toNat
  disjoint : Apart s.regs.di s.regs.dx.toNat s.regs.si s.regs.dx.toNat

/-- The routine has returned 0 to the caller of the frame, with the copy made. -/
structure Returned64 (s : State 64) (d : Cfg 64) : Prop where
  ip : d.ip = (load 64 s.mem (s.regs.bp + 8#64)).toNat
  sp : d.state.regs.sp = s.regs.bp + 16#64
  bp : d.state.regs.bp = load 64 s.mem s.regs.bp
  ax : d.state.regs.ax = 0#64
  mem : d.state.mem = copied s.mem s.regs.di s.regs.si 0 s.regs.dx.toNat

attribute [local simp] merge_quad merge_long shr_val sum_val shiftRight_three and_seven add_tLofault

theorem leads_leave {ip : Nat} (hat : At (text k) ip [movq Att.r11 (ind k.tLofault .r9), .op .leave, .ret 0])
    (hs : Entered64 k s) (hr9 : hi.r9 = thread k s.mem) (hr11 : hi.r11 = load 64 s.mem (lofault k (thread k s.mem)))
    (v : BitVec 64) :
    Leads (Steps (text k)) ⟨ip, ⟨⟨0#64, cx, dx, bx, sp, s.regs.bp, si, di, hi⟩, fl, false,
      copied (store s.mem (lofault k (thread k s.mem)) v) s.regs.di s.regs.si 0 s.regs.dx.toNat⟩⟩ (Returned64 s) := by
  have hmem := store_copied_back (m := s.mem) (n := 64) rfl hs.source hs.target v
  have hbp : load 64 (copied s.mem s.regs.di s.regs.si 0 s.regs.dx.toNat) s.regs.bp = load 64 s.mem s.regs.bp :=
    hs.target_frame.load copied_changedIn (by simp)
  have hret : load 64 (copied s.mem s.regs.di s.regs.si 0 s.regs.dx.toNat) (s.regs.bp + 8#64) =
      load 64 s.mem (s.regs.bp + 8#64) :=
    hs.target_frame.load copied_changedIn (by simp)
  apply leads_run hat
  simp [hr9, hr11]
  rw [hmem]
  refine .here ⟨congrArg BitVec.toNat hret, ?_, hbp, rfl, rfl⟩
  simp [BitVec.add_assoc]

theorem leads_doCopyFault64 (hs : Entered64 k s) :
    Leads (Steps (text k)) ⟨labelAddr (text k) .doCopyFault, s⟩ (Returned64 s) := by
  have hat : At (text k) (labelAddr (text k) .doCopyFault) (doCopyFault k ++ kcopyCopyerr k) := ⟨_, rfl⟩
  have hdf := hs.df
  have hr9 := hs.thread
  have hmem (v : BitVec 64) := moves_words (n := 64) (m := store s.mem (lofault k (thread k s.mem)) v) (by decide)
    hs.disjoint.1
  simp only [Nat.reduceDiv] at hmem
  obtain ⟨⟨ax, cx, dx, bx, sp, bp, si, di, hi⟩, fl, df, m⟩ := s
  subst hdf
  apply leads_run (hat.take 6)
  simp only at hr9 hmem
  simp [doCopyFault, hr9]
  apply leads_rep (hat.drop 6)
  apply leads_run ((hat.drop 7).take 2)
  simp [doCopyFault]
  apply leads_rep (hat.drop 9)
  apply leads_run ((hat.drop 10).take 2)
  simp [doCopyFault, kcopyCopyerr, hmem]
  refine leads_leave (s := ⟨⟨ax, cx, dx, bx, sp, bp, si, di, hi⟩, fl, false, m⟩) (hat.drop 12) hs ?_ ?_ cx <;> rfl

theorem leads_ntaRound64 {ip i : Nat} {m₀ : Mem 64} (hat : At (text k) ip ntaLoop)
    (hip : labelAddr (text k) .ntaLoop = ip) (hcnt : BitVec.ofNat 64 8 * (cnt >>> 3) = cnt)
    (hlim : 16 * (i + 1) ≤ cnt.toNat) (hp : Progress m₀ src dst cnt.toNat (16 * i) m) {P : Cfg 64 → Prop}
    (hnext : ∀ ax high fl m', high.r9 = hi'.r9 → high.r11 = hi'.r11 → Progress m₀ src dst cnt.toNat (16 * (i + 1)) m' →
      Leads (Steps (text k)) ⟨if BitVec.ofNat 64 (2 * (i + 1)) = cnt >>> 3 then ip + 8 else ip,
        ⟨⟨ax, cx, BitVec.ofNat 64 (2 * (i + 1)) - cnt >>> 3, bx, sp, bp, dst + cnt, src + cnt, high⟩, fl, false, m'⟩⟩ P) :
    Leads (Steps (text k)) ⟨ip, ⟨⟨ax, cx, BitVec.ofNat 64 (2 * i) - cnt >>> 3, bx, sp, bp, dst + cnt, src + cnt, hi'⟩,
      fl, false, m⟩⟩ P := by
  have hlt := cnt.isLt
  have haddr₀ (a : BitVec 64) := round_addr hcnt a i
  have haddr₈ (a : BitVec 64) := add_ofNat a (16 * i) 8
  have hcond := loop_cond (cnt >>> 3) i
  have hindex := loop_index (cnt >>> 3) i
  have hp' := (hp.store (n := 64) rfl hp le_rfl (by omega) (by omega)).store (n := 64) rfl hp (by omega) (by omega)
    (by omega)
  apply leads_run hat
  by_cases hout : BitVec.ofNat 64 (2 * (i + 1)) = cnt >>> 3
  · rw [decide_eq_true hout, Bool.not_true] at hcond
    simp only [if_pos hout] at hnext
    simp [ntaLoop, haddr₀, haddr₈, hcond, hindex, -Cond.eval]
    exact hnext _ _ _ _ rfl rfl hp'
  · rw [decide_eq_false hout, Bool.not_false] at hcond
    simp only [if_neg hout] at hnext
    simp [ntaLoop, haddr₀, haddr₈, hcond, hindex, hip, -Cond.eval]
    exact hnext _ _ _ _ rfl rfl hp'

theorem leads_ntaLoop64 {ip : Nat} (hat : At (text k) ip ntaLoop) (hip : labelAddr (text k) .ntaLoop = ip)
    (hpos : 0 < cnt.toNat) (hmod : cnt.toNat % 16 = 0) {P : Cfg 64 → Prop}
    (hend : ∀ ax dx si di high fl m', high.r9 = hi'.r9 → high.r11 = hi'.r11 → Progress m src dst cnt.toNat cnt.toNat m' →
      Leads (Steps (text k)) ⟨ip + 8, ⟨⟨ax, cx, dx, bx, sp, bp, si, di, high⟩, fl, false, m'⟩⟩ P) :
    Leads (Steps (text k)) ⟨ip, ⟨⟨ax, cx, BitVec.ofNat 64 (2 * 0) - cnt >>> 3, bx, sp, bp, dst + cnt, src + cnt, hi'⟩,
      fl, false, m⟩⟩ P := by
  have hcnt : BitVec.ofNat 64 8 * (cnt >>> 3) = cnt := eight_mul_shiftRight (by omega)
  refine loop_rounds (G := fun c => Leads (Steps (text k)) c P) ip (ip + 8)
    (fun ip i c => ∃ ax high fl m', c = ⟨ip, ⟨⟨ax, cx, BitVec.ofNat 64 (2 * i) - cnt >>> 3, bx, sp, bp, dst + cnt,
      src + cnt, high⟩, fl, false, m'⟩⟩ ∧ high.r9 = hi'.r9 ∧ high.r11 = hi'.r11 ∧
      Progress m src dst cnt.toNat (16 * i) m') ?_ (fun j _ hj => (loop_index_iff hmod hj.le).not.mpr hj.ne) ?_ hmod hpos
    ⟨ax, hi', fl, m, rfl, rfl, rfl, Progress.zero _ _ _ _⟩
  · rintro i _ hi ⟨ax, high, fl, m', rfl, h9, h11, hp⟩ hnext
    apply leads_ntaRound64 hat hip hcnt hi hp
    intro ax high' fl m'' h9' h11' hp'
    exact hnext _ ⟨ax, high', fl, m'', rfl, h9'.trans h9, h11'.trans h11, hp'⟩
  · rintro _ ⟨ax, high, fl, m', rfl, h9, h11, hp⟩
    have hall : 16 * (cnt.toNat / 16) = cnt.toNat := by omega
    rw [if_pos ((loop_index_iff hmod hall.le).mpr hall)]
    rw [hall] at hp
    exact hend _ _ _ _ _ _ _ h9 h11 hp

theorem leads_doCopyFaultNta64 (hs : Entered64 k s) (hpos : 0 < s.regs.dx.toNat) (hmod : s.regs.dx.toNat % 16 = 0) :
    Leads (Steps (text k)) ⟨labelAddr (text k) .doCopyFaultNta, s⟩ (Returned64 s) := by
  have hbegin : At (text k) (labelAddr (text k) .doCopyFaultNta) (doCopyFaultNta k) := ⟨_, rfl⟩
  have hat : At (text k) (labelAddr (text k) .ntaLoop) (ntaLoop ++ kcopyNtaCopyerr k) := ⟨_, rfl⟩
  have hdf := hs.df
  have hdisjoint := hs.disjoint.1
  obtain ⟨⟨ax, cx, dx, bx, sp, bp, si, di, hi⟩, fl, df, m⟩ := s
  subst hdf
  have hneg : BitVec.ofNat 64 (2 * 0) - dx >>> 3 = -(dx >>> 3) := BitVec.zero_sub _
  apply leads_run hbegin
  simp [doCopyFaultNta, load_cpuThread, negative]
  rw [← hneg]
  apply leads_ntaLoop64 (hat.take 8) rfl hpos hmod
  intro ax' dx' si' di' high fl' m' h9 h11 hp
  rw [hp.copied hdisjoint]
  apply leads_run ((hat.drop 8).take 3)
  simpa [ntaLoop, kcopyNtaCopyerr] using
    leads_leave (s := ⟨⟨ax, cx, dx, bx, sp, bp, si, di, hi⟩, fl, false, m⟩) ((hat.drop 11).take 3) hs h9 h11 cx

end Amd64

section I386

open Text.I386 I386.Core

variable {k : Symbols} {ax cx dx bx sp bp si di src dst cnt : BitVec 32} {fl : Flags} {m : Mem 32} {s : State 32}

/-- The same with the arguments on the stack and the label for faults in
`%eax`. Four words are pushed below the return address. -/
structure Entered32 (k : Symbols) (s : State 32) : Prop where
  df : s.df = false
  thread : s.regs.dx = thread k s.mem
  frame : Apart (s.regs.sp - 16#32) 32 (lofault k (Call.thread k s.mem)) 4
  cpuThread : Apart (s.regs.sp - 16#32) 16 (BitVec.ofInt 32 k.cpuThread) 4
  source : Outside (lofault k (Call.thread k s.mem)) 4 (i386.args s).src (i386.args s).count.toNat
  source_frame : Outside (s.regs.sp - 16#32) 16 (i386.args s).src (i386.args s).count.toNat
  target : Outside (lofault k (Call.thread k s.mem)) 4 (i386.args s).dst (i386.args s).count.toNat
  target_frame : Outside (s.regs.sp - 16#32) 32 (i386.args s).dst (i386.args s).count.toNat
  disjoint : Apart (i386.args s).src (i386.args s).count.toNat (i386.args s).dst (i386.args s).count.toNat

def moved (k : Symbols) (s : State 32) : Mem 32 :=
  copied (pushed k s s.regs.si) (i386.args s).src (i386.args s).dst 0 (i386.args s).count.toNat

structure Returned32 (k : Symbols) (s : State 32) (d : Cfg 32) : Prop where
  ip : d.ip = (load 32 s.mem s.regs.sp).toNat
  sp : d.state.regs.sp = s.regs.sp + 4#32
  saved : ∀ r ∈ i386.saved, d.state.regs.get r = s.regs.get r
  ax : d.state.regs.ax = 0#32
  mem : d.state.mem = moved k s

attribute [local simp] merge_word shr_val sum_val add_tLofault load_cpuThread push_second
  push_third push_fourth pop_first pop_second pop_third arg_src arg_dst arg_count

theorem slot_inside (c : BitVec 32) (h : (16#32 - c).toNat + 4 ≤ 32) :
    (s.regs.sp - c - (s.regs.sp - 16#32)).toNat + 4 ≤ 32 := by
  rwa [sub_sub_sub_cancel_left]

theorem arg_inside (c : BitVec 32) (h : (c + 16#32).toNat + 4 ≤ 32) :
    (s.regs.sp + c - (s.regs.sp - 16#32)).toNat + 4 ≤ 32 := by
  rwa [show s.regs.sp + c - (s.regs.sp - 16#32) = c + 16#32 by ring]

theorem leads_ntaRound32 {hi : HighRegs 32} {ip i : Nat} {m₀ : Mem 32} (hat : At (text k) ip ntaLoop)
    (hip : labelAddr (text k) .ntaLoop = ip) (hcnt : BitVec.ofNat 32 8 * (cnt >>> 3) = cnt)
    (hlim : 16 * (i + 1) ≤ cnt.toNat) (hp : Progress m₀ src dst cnt.toNat (16 * i) m) {P : Cfg 32 → Prop}
    (hnext : ∀ si fl m', Progress m₀ src dst cnt.toNat (16 * (i + 1)) m' →
      Leads (Steps (text k)) ⟨if BitVec.ofNat 32 (2 * (i + 1)) = cnt >>> 3 then ip + 12 else ip,
        ⟨⟨dst + cnt, BitVec.ofNat 32 (2 * (i + 1)) - cnt >>> 3, dx, bx, sp, bp, si, src + cnt, hi⟩, fl, false, m'⟩⟩ P) :
    Leads (Steps (text k)) ⟨ip, ⟨⟨dst + cnt, BitVec.ofNat 32 (2 * i) - cnt >>> 3, dx, bx, sp, bp, si, src + cnt, hi⟩,
      fl, false, m⟩⟩ P := by
  have hlt := cnt.isLt
  have haddr (a : BitVec 32) := round_addr hcnt a i
  have hword (a : BitVec 32) (c : Nat) := add_ofNat a (16 * i) c
  have hcond := loop_cond (cnt >>> 3) i
  have hindex := loop_index (cnt >>> 3) i
  have hp₁ := hp.store (n := 32) rfl hp le_rfl (by omega) (by omega)
  have hp₂ := hp₁.store (n := 32) rfl hp₁ le_rfl (by omega) (by omega)
  have hp₃ := hp₂.store (n := 32) rfl hp₂ le_rfl (by omega) (by omega)
  have hp₄ := hp₃.store (n := 32) rfl hp₃ le_rfl (by omega) (by omega)
  apply leads_run hat
  by_cases hout : BitVec.ofNat 32 (2 * (i + 1)) = cnt >>> 3
  · rw [decide_eq_true hout, Bool.not_true] at hcond
    simp only [if_pos hout] at hnext
    simpa [ntaLoop, haddr, hword, hcond, hindex, -Cond.eval] using hnext _ _ _ hp₄
  · rw [decide_eq_false hout, Bool.not_false] at hcond
    simp only [if_neg hout] at hnext
    simpa [ntaLoop, haddr, hword, hcond, hindex, hip, -Cond.eval] using hnext _ _ _ hp₄

theorem leads_ntaLoop32 {hi : HighRegs 32} {ip : Nat} (hat : At (text k) ip ntaLoop)
    (hip : labelAddr (text k) .ntaLoop = ip) (hpos : 0 < cnt.toNat) (hmod : cnt.toNat % 16 = 0) {P : Cfg 32 → Prop}
    (hend : ∀ cx si fl m', Progress m src dst cnt.toNat cnt.toNat m' →
      Leads (Steps (text k)) ⟨ip + 12, ⟨⟨dst + cnt, cx, dx, bx, sp, bp, si, src + cnt, hi⟩, fl, false, m'⟩⟩ P) :
    Leads (Steps (text k)) ⟨ip, ⟨⟨dst + cnt, BitVec.ofNat 32 (2 * 0) - cnt >>> 3, dx, bx, sp, bp, si, src + cnt, hi⟩,
      fl, false, m⟩⟩ P := by
  have hcnt : BitVec.ofNat 32 8 * (cnt >>> 3) = cnt := eight_mul_shiftRight (by omega)
  refine loop_rounds (G := fun c => Leads (Steps (text k)) c P) ip (ip + 12)
    (fun ip i c => ∃ si fl m', c = ⟨ip, ⟨⟨dst + cnt, BitVec.ofNat 32 (2 * i) - cnt >>> 3, dx, bx, sp, bp, si, src + cnt,
      hi⟩, fl, false, m'⟩⟩ ∧ Progress m src dst cnt.toNat (16 * i) m') ?_
    (fun j _ hj => (loop_index_iff hmod hj.le).not.mpr hj.ne) ?_ hmod hpos ⟨si, fl, m, rfl, Progress.zero _ _ _ _⟩
  · rintro i _ hi ⟨si, fl, m', rfl, hp⟩ hnext
    apply leads_ntaRound32 hat hip hcnt hi hp
    intro si fl m'' hp'
    exact hnext _ ⟨si, fl, m'', rfl, hp'⟩
  · rintro _ ⟨si, fl, m', rfl, hp⟩
    have hall : 16 * (cnt.toNat / 16) = cnt.toNat := by omega
    rw [if_pos ((loop_index_iff hmod hall.le).mpr hall)]
    rw [hall] at hp
    exact hend _ _ _ _ hp

section Entered

variable (hs : Entered32 k s)

include hs

theorem load_frame (v c : BitVec 32) (hc : (c - (s.regs.sp - 16#32)).toNat + 4 ≤ 32) :
    load 32 (store (pushed k s s.regs.si) (lofault k (thread k s.mem)) v) c = load 32 (pushed k s s.regs.si) c := by
  have hpart := hs.frame.part (d := 0#32) (k := 4) hc (by decide) (by decide) (by decide)
  rw [add_sub_cancel, BitVec.add_zero] at hpart
  exact load_store_apart (n := 32) (k := 32) hpart.symm

theorem load_lofault_pushed {m : Mem 32} (hm : ChangedIn (s.regs.sp - 16#32) 16 s.mem m) :
    load 32 m (lofault k (thread k s.mem)) = oldLofault k s :=
  hm.load ⟨(by decide : 16 ≤ 32).trans hs.frame.1, hs.frame.2⟩

theorem leads_restore {ip : Nat} {last : Line Label} (hlast : last = popl .bp ∨ last = .op .leave)
    (hat : At (text k) ip [popl .cx, popl .di, movl Att.ecx (ind k.tLofault .dx), popl .si, last, .ret 0])
    (v : BitVec 32) :
    Leads (Steps (text k)) ⟨ip, ⟨⟨0#32, cx, thread k s.mem, s.regs.bx, s.regs.sp - 16#32, s.regs.sp - 4#32, si, di,
      s.regs.hi⟩, fl, false, copied (store (pushed k s s.regs.si) (lofault k (thread k s.mem)) v) (i386.args s).src
        (i386.args s).dst 0 (i386.args s).count.toNat⟩⟩ (Returned32 k s) := by
  have hback := store_copied_back (m := pushed k s s.regs.si) (n := 32) rfl hs.source hs.target v
  rw [load_lofault_pushed hs pushed_changedIn] at hback
  have hword (m : Mem 32) (c : BitVec 32) (hc : (c - (s.regs.sp - 16#32)).toNat + 4 ≤ 32) :
      load 32 (copied m (i386.args s).src (i386.args s).dst 0 (i386.args s).count.toNat) c = load 32 m c :=
    hs.target_frame.load copied_changedIn hc
  have hold : load 32 (copied (store (pushed k s s.regs.si) (lofault k (thread k s.mem)) v) (i386.args s).src
      (i386.args s).dst 0 (i386.args s).count.toNat) (s.regs.sp - 16#32) = oldLofault k s := by
    rw [hword _ _ (by simp), load_frame hs _ _ (by simp), pushed_old]
  have hdi : load 32 (copied (store (pushed k s s.regs.si) (lofault k (thread k s.mem)) v) (i386.args s).src
      (i386.args s).dst 0 (i386.args s).count.toNat) (s.regs.sp - 12#32) = s.regs.di := by
    rw [hword _ _ (slot_inside _ (by decide)), load_frame hs _ _ (slot_inside _ (by decide)), pushed_di]
  have hsi : load 32 (moved k s) (s.regs.sp - 8#32) = s.regs.si := by
    rw [moved, hword _ _ (slot_inside _ (by decide)), pushed_slot]
  have hbp : load 32 (moved k s) (s.regs.sp - 4#32) = s.regs.bp := by
    rw [moved, hword _ _ (slot_inside _ (by decide)), pushed_bp]
  have hret : load 32 (moved k s) s.regs.sp = load 32 s.mem s.regs.sp := by
    have hc : (s.regs.sp - (s.regs.sp - 16#32)).toNat + 4 ≤ 32 := by
      rw [sub_sub_cancel]
      decide
    rw [moved, hword _ _ hc, load_ret pushed_changedIn]
  have hend (fl : Flags) : Returned32 k s ⟨(load 32 (moved k s) s.regs.sp).toNat, ⟨⟨0#32, oldLofault k s,
      thread k s.mem, s.regs.bx, s.regs.sp + 4#32, s.regs.bp, s.regs.si, s.regs.di, s.regs.hi⟩, fl, false, moved k s⟩⟩ := by
    refine ⟨congrArg BitVec.toNat hret, rfl, ?_, rfl, rfl⟩
    simp [i386]
  apply leads_run hat
  rcases hlast with rfl | rfl
  all_goals
    simp [hold, hdi]
    rw [hback, ← moved, hsi, hbp]
    exact .here (hend _)

theorem load_arg (v : BitVec 32) (c : Nat) (hc : c ≤ 12) :
    load 32 (store (pushed k s s.regs.si) (lofault k (thread k s.mem)) v) (s.regs.sp + BitVec.ofNat 32 c) =
      load 32 s.mem (s.regs.sp + BitVec.ofNat 32 c) := by
  have haddr : s.regs.sp + BitVec.ofNat 32 c - (s.regs.sp - 16#32) = BitVec.ofNat 32 (16 + c) := by
    rw [BitVec.ofNat_add]
    ring
  rw [load_frame hs, load_above pushed_changedIn c (by omega)]
  rw [haddr, BitVec.toNat_ofNat, Nat.mod_eq_of_lt (by omega)]
  omega

theorem leads_doCopyFault32 :
    Leads (Steps (text k)) ⟨labelAddr (text k) .doCopyFault, s⟩ (Returned32 k s) := by
  have hat : At (text k) (labelAddr (text k) .doCopyFault) (doCopyFault k ++ kcopyCopyerr k) := ⟨_, rfl⟩
  have hold := load_lofault_pushed hs (pushes_changedIn (o := s) (x := s.regs.si))
  have hsrc : _ = (i386.args s).src := load_arg hs s.regs.ax 4 (by decide)
  have hdst : _ = (i386.args s).dst := load_arg hs s.regs.ax 8 (by decide)
  have hcount : _ = (i386.args s).count := load_arg hs s.regs.ax 12 (by decide)
  have hcount' (j : Nat) (hj : j * 4 ≤ (i386.args s).count.toNat) :
      load 32 (moves 32 (store (pushed k s s.regs.si) (lofault k (thread k s.mem)) s.regs.ax) (i386.args s).src
        (i386.args s).dst j) (s.regs.sp + 12#32) = (i386.args s).count := by
    rw [hs.target_frame.load (moves_changedIn hj) (arg_inside _ (by decide)), hcount]
  have hmem := moves_words (n := 32) (m := store (pushed k s s.regs.si) (lofault k (thread k s.mem)) s.regs.ax)
    (by decide) hs.disjoint.1
  simp only [Nat.reduceDiv] at hmem
  apply leads_run (hat.take 12)
  simp [doCopyFault, hs.thread, hs.df, hold, store_pushed, hsrc, hdst, hcount]
  apply leads_rep (hat.drop 12)
  apply leads_run ((hat.drop 13).take 2)
  simp [doCopyFault, shiftRight_two, hcount' _ (Nat.div_mul_le_self _ _)]
  apply leads_rep (hat.drop 15)
  apply leads_run ((hat.drop 16).take 2)
  simpa [doCopyFault, kcopyCopyerr, and_three, hmem] using leads_restore hs (.inl rfl) (hat.drop 18) _

theorem leads_doCopyFaultNta32 (hpos : 0 < (i386.args s).count.toNat) (hmod : (i386.args s).count.toNat % 16 = 0) :
    Leads (Steps (text k)) ⟨labelAddr (text k) .doCopyFaultNta, s⟩ (Returned32 k s) := by
  have hbegin : At (text k) (labelAddr (text k) .doCopyFaultNta) (doCopyFaultNta k) := ⟨_, rfl⟩
  have hat : At (text k) (labelAddr (text k) .ntaLoop) (ntaLoop ++ kcopyNtaCopyerr k) := ⟨_, rfl⟩
  have hold := load_lofault_pushed hs (pushes_changedIn (o := s) (x := s.regs.si))
  have hthread : thread k (store (store (store s.mem (s.regs.sp - 4#32) s.regs.bp) (s.regs.sp - 8#32) s.regs.si)
      (s.regs.sp - 12#32) s.regs.di) = thread k s.mem := pushes_changedIn.load hs.cpuThread
  have hsrc : _ = (i386.args s).src := load_arg hs s.regs.ax 4 (by decide)
  have hdst : _ = (i386.args s).dst := load_arg hs s.regs.ax 8 (by decide)
  have hcount : _ = (i386.args s).count := load_arg hs s.regs.ax 12 (by decide)
  have hneg : BitVec.ofNat 32 (2 * 0) - (i386.args s).count >>> 3 = -((i386.args s).count >>> 3) := BitVec.zero_sub _
  apply leads_run hbegin
  simp [doCopyFaultNta, hthread, hs.df, hold, store_pushed, hsrc, hdst, hcount, negative]
  rw [← hneg]
  apply leads_ntaLoop32 (hat.take 12) rfl hpos hmod
  intro cx' si' fl' m' hp
  rw [hp.copied hs.disjoint.1]
  apply leads_run ((hat.drop 12).take 3)
  simpa [ntaLoop, kcopyNtaCopyerr] using leads_restore hs (.inr rfl) ((hat.drop 15).take 6) _

end Entered

end I386

section Data

variable {w : Nat} {m₀ m : Mem w} {src dst f : BitVec w} {cnt n : Nat}

/-- The `cnt` bytes at `src` are at `dst` too, and nothing else has changed but
the `n` bytes at `f`. -/
structure Copies (m₀ : Mem w) (src dst : BitVec w) (cnt : Nat) (f : BitVec w) (n : Nat) (m : Mem w) : Prop where
  data : ∀ i < cnt, m (dst + BitVec.ofNat w i) = m₀ (src + BitVec.ofNat w i)
  rest : ∀ b, cnt ≤ (b - dst).toNat → n ≤ (b - f).toNat → m b = m₀ b

theorem copies_copied (hcnt : cnt ≤ 2 ^ w) (hm : ChangedIn f n m₀ m) (hsrc : Outside f n src cnt) :
    Copies m₀ src dst cnt f n (copied m src dst 0 cnt) where
  data i hi := by
    rw [copied_inside hcnt (Nat.zero_le i) hi]
    exact hm _ (hsrc i hi)
  rest b hb hf := by
    rw [copied_changedIn b hb, hm b hf]

end Data

/-- Without faults, do_copy_fault_nta does what do_copy_fault does. -/
theorem do_copy_fault_nta_agrees :
    (∀ (k : Symbols) (s : State 64), Entered64 k s → 0 < s.regs.dx.toNat → s.regs.dx.toNat % 16 = 0 →
      ∃ d e : Cfg 64, Relation.ReflTransGen (Steps (Amd64.text k)) ⟨labelAddr (Amd64.text k) .doCopyFault, s⟩ d ∧
        Relation.ReflTransGen (Steps (Amd64.text k)) ⟨labelAddr (Amd64.text k) .doCopyFaultNta, s⟩ e ∧
        Returned64 s d ∧ Returned64 s e ∧ e.state.mem = d.state.mem ∧
        Copies s.mem s.regs.di s.regs.si s.regs.dx.toNat s.regs.sp 0 d.state.mem) ∧
    (∀ (k : Symbols) (s : State 32), Entered32 k s → 0 < (i386.args s).count.toNat →
      (i386.args s).count.toNat % 16 = 0 →
      ∃ d e : Cfg 32, Relation.ReflTransGen (Steps (I386.text k)) ⟨labelAddr (I386.text k) .doCopyFault, s⟩ d ∧
        Relation.ReflTransGen (Steps (I386.text k)) ⟨labelAddr (I386.text k) .doCopyFaultNta, s⟩ e ∧
        Returned32 k s d ∧ Returned32 k s e ∧ e.state.mem = d.state.mem ∧
        Copies s.mem (i386.args s).src (i386.args s).dst (i386.args s).count.toNat (s.regs.sp - 16#32) 16
          d.state.mem) := by
  constructor
  · intro k s hs hpos hmod
    obtain ⟨d, hd, hret⟩ := leads_doCopyFault64 hs
    obtain ⟨e, he, hret'⟩ := leads_doCopyFaultNta64 hs hpos hmod
    refine ⟨d, e, hd, he, hret, hret', hret'.mem.trans hret.mem.symm, ?_⟩
    rw [hret.mem]
    exact copies_copied s.regs.dx.isLt.le (ChangedIn.refl _ _ _) fun _ _ => Nat.zero_le _
  · intro k s hs hpos hmod
    obtain ⟨d, hd, hret⟩ := leads_doCopyFault32 hs
    obtain ⟨e, he, hret'⟩ := leads_doCopyFaultNta32 hs hpos hmod
    refine ⟨d, e, hd, he, hret, hret', hret'.mem.trans hret.mem.symm, ?_⟩
    rw [hret.mem]
    exact copies_copied (i386.args s).count.isLt.le I386.Core.pushed_changedIn hs.source_frame

section Sample

def sample64 : State 64 :=
  ⟨⟨0, 0, 16, 0, 0x1ff0, 0x2000, 0x5000, 0x4000, { HighRegs.zero with r9 := 0x3000 }⟩, undefinedFlags, false,
    store (kernelMem 64) 0x4008#64 7#64⟩

def sample32 : State 32 :=
  { call32 ⟨0x4000, 0x5000, 16, 0⟩ with regs := { (call32 ⟨0x4000, 0x5000, 16, 0⟩).regs with dx := 0x3000 } }

theorem entered_sample64 : Entered64 symbols sample64 where
  df := rfl
  thread := by decide +kernel
  frame := by decide +kernel
  source := by decide +kernel
  target := by decide +kernel
  target_frame := by decide +kernel
  disjoint := by decide +kernel

theorem entered_sample32 : Entered32 symbols sample32 where
  df := rfl
  thread := by decide +kernel
  frame := by decide +kernel
  cpuThread := by decide +kernel
  source := by decide +kernel
  source_frame := by decide +kernel
  target := by decide +kernel
  target_frame := by decide +kernel
  disjoint := by decide +kernel

end Sample

theorem do_copy_fault_nta_agrees_sixteen :
    (∃ d e : Cfg 64, Returned64 sample64 d ∧ Returned64 sample64 e ∧ e.state.mem = d.state.mem) ∧
    ∃ d e : Cfg 32, Returned32 symbols sample32 d ∧ Returned32 symbols sample32 e ∧ e.state.mem = d.state.mem := by
  constructor
  · obtain ⟨d, e, -, -, hd, he, hmem, -⟩ :=
      do_copy_fault_nta_agrees.1 symbols sample64 entered_sample64 (by decide) (by decide)
    exact ⟨d, e, hd, he, hmem⟩
  · obtain ⟨d, e, -, -, hd, he, hmem, -⟩ :=
      do_copy_fault_nta_agrees.2 symbols sample32 entered_sample32 (by decide +kernel) (by decide +kernel)
    exact ⟨d, e, hd, he, hmem⟩

end SysvDev.Copy.Equivalence
