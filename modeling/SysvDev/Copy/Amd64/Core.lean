import SysvDev.Copy.Call

namespace SysvDev.Copy.Amd64.Core

open X86.Memory X86.Machine X86.Machine.Att X86.Run X86.Strings X86.Traps Inevitable Text Text.Amd64 Call

set_option maxRecDepth 2000

variable {k : Symbols} {o : State 64} {ax cx dx sp si di r8 r9 r10 r11 src dst err v : BitVec 64} {fl : Flags}
  {m m' : Mem 64} {cnt rlim wlim : Nat} {e : Option (BitVec 32)} {r : Nat} {Q P : Point 64 → Prop}

def inside (o : State 64) (sp ax cx dx si di r8 r9 r10 r11 : BitVec 64) (fl : Flags) (m : Mem 64) : State 64 :=
  ⟨⟨ax, cx, dx, o.regs.bx, sp, o.regs.sp - 8#64, si, di,
    { o.regs.hi with r8, r9, r10, r11 }⟩, fl, false, m⟩

/-- The words that the call comes back to, with `v` as the lofault. -/
structure Holds (k : Symbols) (o : State 64) (v : BitVec 64) (m : Mem 64) : Prop where
  thread : thread k m = thread k o.mem
  lofault : load 64 m (lofault k (Call.thread k o.mem)) = v
  copyops : load 64 m (copyops k (Call.thread k o.mem)) = load 64 o.mem (Call.copyops k (Call.thread k o.mem))
  hook : load 64 o.mem (Call.copyops k (Call.thread k o.mem)) ≠ 0#64 → ∀ f,
    load 64 m (hook k o f) = load 64 o.mem (Call.hook k o f)
  bp : load 64 m (o.regs.sp - 8#64) = o.regs.bp
  ret : load 64 m o.regs.sp = load 64 o.mem o.regs.sp

theorem frame_mem : (o.regs.sp - 40#64, 48) ∈ amd64.regions k o := .head _

theorem lofault_mem : (lofault k (thread k o.mem), 8) ∈ amd64.regions k o := .tail _ (.head _)

theorem copyops_mem : (copyops k (thread k o.mem), 8) ∈ amd64.regions k o := .tail _ (.tail _ (.head _))

theorem cpuThread_mem : (BitVec.ofInt 64 k.cpuThread, 8) ∈ amd64.regions k o := .tail _ (.tail _ (.tail _ (.head _)))

theorem bp_inside : (o.regs.sp - 8#64 - (o.regs.sp - 40#64)).toNat + 8 ≤ 48 := by
  rw [sub_sub_sub_cancel_left]
  decide

theorem sp_inside : (o.regs.sp - (o.regs.sp - 40#64)).toNat + 8 ≤ 48 := by
  rw [sub_sub_cancel]
  decide

theorem Holds.changedIn {a : BitVec 64} {n : Nat} (h : Holds k o v m) (hclear : amd64.Clear k o a n)
    (hm : ChangedIn a n m m') : Holds k o v m' where
  thread := (hclear.load hm cpuThread_mem (by simp)).trans h.thread
  lofault := (hclear.load hm lofault_mem (by simp)).trans h.lofault
  copyops := (hclear.load hm copyops_mem (by simp)).trans h.copyops
  hook hne f := (hclear.load hm (.tail _ (.tail _ (Port.hook_mem f hne))) (by simp)).trans (h.hook hne f)
  bp := (hclear.load hm frame_mem bp_inside).trans h.bp
  ret := (hclear.load hm frame_mem sp_inside).trans h.ret

theorem Holds.progress {m₀ : Mem 64} {j lim : Nat} (h : Holds k o v m₀) (hclear : amd64.Clear k o dst lim)
    (hp : Progress m₀ src dst cnt j m) (hj : j ≤ lim) : Holds k o v m :=
  h.changedIn hclear (hp.outside.mono hj)

theorem lofault_apart_frame {c : BitVec 64} (hcall : amd64.Enters k o)
    (hc : (c - (o.regs.sp - 40#64)).toNat + 8 ≤ 48) : Apart (lofault k (thread k o.mem)) 8 c 8 := by
  have hframe : Apart (o.regs.sp - 40#64) 48 (lofault k (thread k o.mem)) 8 :=
    hcall.frame_apart (.head _) le_rfl
  have hpart := hframe.part (d := 0#64) (k := 8) hc (by decide) (by decide) (by decide)
  rw [add_sub_cancel, BitVec.add_zero] at hpart
  exact hpart.symm

theorem Holds.setLofault (hcall : amd64.Enters k o) (h : Holds k o v m) (v' : BitVec 64) :
    Holds k o v' (store m (Call.lofault k (Call.thread k o.mem)) v') where
  thread := (load_store_apart (n := 64) (k := 64) (hcall.lofault_apart (.tail _ (.head _)))).trans h.thread
  lofault := load_store_same m _ v' rfl (by decide)
  copyops := (load_store_apart (n := 64) (k := 64) (hcall.lofault_apart (.head _))).trans h.copyops
  hook hne f := (load_store_apart (n := 64) (k := 64) (hcall.lofault_apart (Port.hook_mem f hne))).trans (h.hook hne f)
  bp := (load_store_apart (n := 64) (k := 64) (lofault_apart_frame hcall bp_inside)).trans h.bp
  ret := (load_store_apart (n := 64) (k := 64) (lofault_apart_frame hcall sp_inside)).trans h.ret

/-- The call has returned with `ax` and the memory `m`. -/
structure Returned (k : Symbols) (o : State 64) (ax : BitVec 64) (m : Mem 64) (p : Point 64) : Prop
    extends amd64.Exit k o p where
  ax : p.cfg.state.regs.ax = ax
  mem : p.cfg.state.mem = m

theorem labelAddr_nta : labelAddr (text k) .doCopyFaultNta = 35 := rfl

theorem labelAddr_ntaLoop : labelAddr (text k) .ntaLoop = 43 := rfl

abbrev Comes (k : Symbols) (Q P : Point 64 → Prop) (p : Point 64) : Prop := Until (TrapStep (text k) (resume k) 43) Q P p

abbrev Allows (k : Symbols) (src dst : BitVec 64) (cnt rlim wlim : Nat) (Q P : Point 64 → Prop) : Prop :=
  Permits (text k) src dst cnt rlim wlim 35 Q P

abbrev oldLofault (k : Symbols) (o : State 64) : BitVec 64 := load 64 o.mem (lofault k (thread k o.mem))

/-- A fault in the copy that has begun with the memory `m` is dealt with at
`err`. -/
def Recovers (k : Symbols) (o : State 64) (sp err src dst : BitVec 64) (cnt lim : Nat) (m : Mem 64)
    (Q P : Point 64 → Prop) : Prop :=
  ∀ cx dx si di r8 r10 fl m' e' j r, Progress m src dst cnt j m' → j ≤ lim → 0 < e'.toInt →
    Comes k Q P ⟨⟨err.toNat, inside o sp (e'.setWidth 64) cx dx si di r8 (thread k o.mem) r10 (oldLofault k o) fl m'⟩,
      some e', r⟩

attribute [local simp] merge_quad shr_val sum_val add_tLofault add_tCopyops load_cpuThread load_kernelbase

theorem returned_of_holds (hm : Holds k o (oldLofault k o) m) :
    Returned k o ax m ⟨⟨(load 64 m o.regs.sp).toNat, ⟨⟨ax, cx, dx, o.regs.bx, o.regs.sp + 8#64,
      load 64 m (o.regs.sp - 8#64), si, di, { o.regs.hi with r8, r9, r10, r11 }⟩, fl, false, m⟩⟩, e, r⟩ where
  ip := congrArg BitVec.toNat hm.ret
  sp := rfl
  saved := by simp [amd64, hm.bp]
  lofault := hm.lofault
  ax := rfl
  mem := rfl

theorem hands_of_holds {f : Routine} (hm : Holds k o (oldLofault k o) m)
    (hne : load 64 o.mem (copyops k (thread k o.mem)) ≠ 0#64) :
    amd64.Hands k o f ⟨⟨(load 64 m (hook k o f)).toNat, ⟨⟨ax, cx, dx, o.regs.bx, o.regs.sp,
      load 64 m (o.regs.sp - 8#64), si, di, { o.regs.hi with r8, r9, r10, r11 }⟩, fl, false, m⟩⟩, e, r⟩ where
  installed := hne
  ip := congrArg BitVec.toNat (hm.hook hne f)
  sp := rfl
  ret := hm.ret
  saved := by simp [amd64, hm.bp]
  lofault := hm.lofault

/-- A block without accesses to data, off the entry of the loop and its
head. -/
def isQuiet (ip : Nat) (lines : List (Line Label)) : Bool :=
  lines.all plain && (ip + lines.length ≤ 35 || (35 < ip && ip + lines.length ≤ 43) || 43 < ip)

theorem comes_run {ip : Nat} {lines : List (Line Label)} {s : State 64} (hat : At (text k) ip lines)
    (hallows : Allows k src dst cnt rlim wlim Q P) (hquiet : isQuiet ip lines = true)
    (hrun : ∃ d, run (text k) ip s lines = some d ∧ Comes k Q P ⟨d, e, r⟩) : Comes k Q P ⟨⟨ip, s⟩, e, r⟩ := by
  simp only [isQuiet, Bool.and_eq_true, Bool.or_eq_true, decide_eq_true_eq] at hquiet
  exact until_run hat hallows hquiet.1 (by omega) (by omega) hrun

theorem comes_leave {ip : Nat} (hat : At (text k) ip [movq Att.r11 (ind k.tLofault .r9), .op .leave, .ret 0])
    (hallows : Allows k src dst cnt rlim wlim Q P) (hip : ip + 3 ≤ 35 ∨ 43 < ip)
    (hcall : amd64.Enters k o) (hm : Holds k o v m)
    (hend : ∀ p, Returned k o ax (store m (lofault k (thread k o.mem)) (oldLofault k o)) p → p.errno = e →
      p.rounds = r → P p) :
    Comes k Q P ⟨⟨ip, inside o sp ax cx dx si di r8 (thread k o.mem) r10 (oldLofault k o) fl m⟩, e, r⟩ := by
  have hm' := hm.setLofault hcall (oldLofault k o)
  apply until_run hat hallows rfl
  · simp only [List.length_cons, List.length_nil]
    omega
  · simp only [List.length_cons, List.length_nil]
    omega
  simp [inside]
  exact .here (hend _ (returned_of_holds hm') rfl rfl)

/-- A fault in the copy goes on at `err`. -/
theorem Recovers.trapped {m₀ : Mem 64} {s : State 64} {ip j : Nat} {e' : BitVec 32}
    (h : Recovers k o sp err src dst cnt wlim m₀ Q P) (hm₀ : Holds k o err m₀) (hclear : amd64.Clear k o dst wlim)
    (hp : Progress m₀ src dst cnt j m) (hj : j ≤ wlim) (he : 0 < e'.toInt)
    (hs : s = inside o sp ax cx dx si di r8 (thread k o.mem) r10 (oldLofault k o) fl m) :
    Comes k Q P (Point.trapped (resume k) ⟨⟨ip, s⟩, e, r⟩ e') := by
  have hm := hm₀.progress hclear hp hj
  have hmem : s.mem = m := congrArg State.mem hs
  rw [trapped_eq (s := s) (hmem ▸ hm.thread) (hmem ▸ hm.lofault), hs]
  exact h cx dx si di r8 r10 fl m e' j r hp hj he

theorem comes_doCopyFault (hallows : Allows k src dst cnt rlim wlim Q P) (hcall : amd64.Enters k o)
    (hclear : amd64.Clear k o dst wlim) (hcnt : dx.toNat = cnt) (hm : Holds k o (oldLofault k o) m)
    (hfault : Recovers k o sp err src dst cnt wlim (store m (lofault k (thread k o.mem)) err) Q P)
    (hend : ∀ m' p, Progress (store m (lofault k (thread k o.mem)) err) src dst cnt cnt m' → cnt ≤ wlim →
      Returned k o 0#64 (store m' (lofault k (thread k o.mem)) (oldLofault k o)) p → p.errno = e → p.rounds = r →
      P p) :
    Comes k Q P ⟨⟨5, inside o sp ax err dx dst src r8 (thread k o.mem) r10 r11 fl m⟩, e, r⟩ := by
  have hat : At (text k) 5 (doCopyFault k) := ⟨_, rfl⟩
  have hbegin : At (text k) 5 ((doCopyFault k).take 6) := ⟨_, rfl⟩
  have hmiddle : At (text k) 12 (((doCopyFault k).drop 7).take 2) := ⟨_, rfl⟩
  have hlast : At (text k) 15 [xorl Att.eax Att.eax, .label .kcopyCopyerr] := ⟨_, rfl⟩
  have hm₁ := hm.setLofault hcall err
  have hlt := dx.isLt
  have hwords : (dx >>> 3).toNat = cnt / 8 := by
    rw [BitVec.toNat_ushiftRight, shiftRight_three, hcnt]
  have hbytes : (dx &&& 7#64).toNat = cnt % 8 := by
    rw [BitVec.toNat_and, ← hcnt]
    exact and_seven _
  apply comes_run hbegin hallows rfl
  simp [inside, doCopyFault, hm.lofault]
  apply until_rep_zero (n := 64) hat.tail.tail.tail.tail.tail.tail rfl (by decide) (by decide) (by omega) hallows
  · intro cx si di j m' e' hp hj he
    exact hfault.trapped hm₁ hclear hp hj he rfl
  · intro j m' hj hp hrlim hwlim
    apply comes_run hmiddle hallows rfl
    simp [doCopyFault]
    apply until_rep (n := 8) hat.tail.tail.tail.tail.tail.tail.tail.tail.tail rfl (by decide) (by decide) (by omega)
      hallows _ _ hp _ hrlim hwlim
    · intro cx si di j m' e' hp hj he
      exact hfault.trapped hm₁ hclear hp hj he rfl
    · intro j' m' hj' hp hrlim hwlim
      obtain rfl : j' = cnt := by omega
      apply comes_run hlast hallows rfl
      simp
      exact comes_leave ⟨_, rfl⟩ hallows (.inl (by decide)) hcall (hm₁.progress hclear hp hwlim)
        fun p hp' => hend m' p hp hwlim hp'
    · omega
  · omega

theorem comes_ntaRound {d : BitVec 64} {i : Nat} {m₀ : Mem 64} (hallows : Allows k src dst cnt rlim wlim Q P)
    (hm₀ : Holds k o err m₀) (hclear : amd64.Clear k o dst wlim) (hd : BitVec.ofNat 64 8 * (d >>> 3) = d)
    (hcnt : cnt ≤ 2 ^ 64) (hi : 16 * (i + 1) ≤ cnt) (hfault : Recovers k o sp err src dst cnt wlim m₀ Q P)
    (hnext : ∀ ax r8 fl m', Progress m₀ src dst cnt (16 * (i + 1)) m' → 16 * (i + 1) ≤ rlim → 16 * (i + 1) ≤ wlim →
      Comes k Q P ⟨⟨if BitVec.ofNat 64 (2 * (i + 1)) = d >>> 3 then 51 else 43, inside o sp ax cx
        (BitVec.ofNat 64 (2 * (i + 1)) - d >>> 3) (dst + d) (src + d) r8 (thread k o.mem) r10 (oldLofault k o) fl m'⟩,
        e, r + 1⟩)
    (hp : Progress m₀ src dst cnt (16 * i) m) (hrlim : 16 * i ≤ rlim) (hwlim : 16 * i ≤ wlim) :
    Comes k Q P ⟨⟨43, inside o sp ax cx (BitVec.ofNat 64 (2 * i) - d >>> 3) (dst + d) (src + d) r8 (thread k o.mem) r10
      (oldLofault k o) fl m⟩, e, r⟩ := by
  have hat : At (text k) 43 ntaLoop := ⟨_, rfl⟩
  have hlast : At (text k) 49 (ntaLoop.drop 6) := ⟨_, rfl⟩
  have hdata {ip : Nat} {s : State 64} {e' : BitVec 32} {j r : Nat} {ax cx r8 : BitVec 64} {fl : Flags} {m : Mem 64}
      (hp : Progress m₀ src dst cnt j m) (hj : j ≤ wlim) (he : 0 < e'.toInt)
      (hs : s = inside o sp ax cx (BitVec.ofNat 64 (2 * i) - d >>> 3) (dst + d) (src + d) r8 (thread k o.mem) r10
        (oldLofault k o) fl m) :
      Comes k Q P (Point.trapped (resume k) ⟨⟨ip, s⟩, e, r⟩ e') := hfault.trapped hm₀ hclear hp hj he hs
  have haddr₀ (a : BitVec 64) : a + d + 8#64 * (BitVec.ofNat 64 (2 * i) - d >>> 3) + BitVec.ofInt 64 0 =
      a + BitVec.ofNat 64 (16 * i) := loop_addr hd i 0 (by decide)
  have haddr₈ (a : BitVec 64) : a + d + 8#64 * (BitVec.ofNat 64 (2 * i) - d >>> 3) + BitVec.ofInt 64 8 =
      a + BitVec.ofNat 64 (16 * i + 8) := loop_addr hd i 8 (by decide)
  apply until_mark hat.head hallows (by decide) rfl
  apply comes_run (show At (text k) 44 [.op (.prefetchnta (.index 0x100 .di .dx 8))] from ⟨_, rfl⟩) hallows rfl
  simp [inside]
  apply until_load (k := 16 * i) hat.tail.tail.head rfl hallows (by decide) (by decide)
  · exact haddr₀ src
  · omega
  · exact hrlim
  · intro e' he'
    exact hdata hp hwlim he' rfl
  intro hrlim₁
  simp
  apply until_load (k := 16 * i + 8) hat.tail.tail.tail.head rfl hallows (by decide) (by decide)
  · exact haddr₈ src
  · omega
  · exact hrlim₁
  · intro e' he'
    exact hdata hp hwlim he' rfl
  intro hrlim₂
  simp
  apply until_store (k := 16 * i) hat.tail.tail.tail.tail.head rfl hallows (by decide) (by decide)
  · exact haddr₀ dst
  · omega
  · exact hrlim₁
  · exact hwlim
  · intro e' he'
    exact hdata hp hwlim he' rfl
  intro hwlim₁
  have hp₁ := hp.store (n := 64) rfl hp le_rfl (by omega) (by omega)
  simp
  apply until_store (k := 16 * i + 8) hat.tail.tail.tail.tail.tail.head rfl hallows (by decide) (by decide)
  · exact haddr₈ dst
  · omega
  · exact hrlim₂
  · exact hwlim₁
  · intro e' he'
    exact hdata hp₁ hwlim₁ he' rfl
  intro hwlim₂
  have hp₂ := hp₁.store (n := 64) rfl hp (by omega) (by omega) (by omega)
  simp
  have hround := hnext (load 64 m (src + BitVec.ofNat 64 (16 * i))) (load 64 m (src + BitVec.ofNat 64 (16 * i + 8)))
    (sum 2#64 (BitVec.ofNat 64 (2 * i) - d >>> 3) false).2 _ hp₂ hrlim₂ hwlim₂
  have hindex := loop_index (d >>> 3) i
  have hcond := loop_cond (d >>> 3) i
  apply comes_run hlast hallows rfl
  by_cases hout : BitVec.ofNat 64 (2 * (i + 1)) = d >>> 3
  · rw [if_pos hout] at hround
    rw [decide_eq_true hout, Bool.not_true] at hcond
    simpa [inside, ntaLoop, hcond, hindex, -Cond.eval] using hround
  · rw [if_neg hout] at hround
    rw [decide_eq_false hout, Bool.not_false] at hcond
    simpa [inside, ntaLoop, hcond, hindex, -Cond.eval, labelAddr_ntaLoop] using hround

theorem comes_ntaLoop {d : BitVec 64} (hallows : Allows k src dst cnt rlim wlim Q P) (hm : Holds k o err m)
    (hclear : amd64.Clear k o dst wlim) (hcnt : d.toNat = cnt) (hpos : 0 < cnt) (hmod : cnt % 16 = 0)
    (hfault : Recovers k o sp err src dst cnt wlim m Q P)
    (hend : ∀ ax r8 dx si di fl m', Progress m src dst cnt cnt m' → cnt ≤ wlim → Comes k Q P
      ⟨⟨51, inside o sp ax cx dx si di r8 (thread k o.mem) r10 (oldLofault k o) fl m'⟩, e, r + cnt / 16⟩) :
    Comes k Q P ⟨⟨43, inside o sp ax cx (BitVec.ofNat 64 (2 * 0) - d >>> 3) (dst + d) (src + d) r8 (thread k o.mem) r10
      (oldLofault k o) fl m⟩, e, r⟩ := by
  subst hcnt
  have hlt := d.isLt
  have hd : BitVec.ofNat 64 8 * (d >>> 3) = d := eight_mul_shiftRight (by omega)
  refine loop_rounds 43 51 (fun ip i p => ∃ ax r8 fl m', p = ⟨⟨ip, inside o sp ax cx
      (BitVec.ofNat 64 (2 * i) - d >>> 3) (dst + d) (src + d) r8 (thread k o.mem) r10 (oldLofault k o) fl m'⟩, e, r + i⟩ ∧
      Progress m src dst d.toNat (16 * i) m' ∧ 16 * i ≤ rlim ∧ 16 * i ≤ wlim) ?_
    (fun j _ hj => (loop_index_iff hmod hj.le).not.mpr hj.ne) ?_ hmod hpos
    ⟨ax, r8, fl, m, rfl, Progress.zero _ _ _ _, Nat.zero_le _, Nat.zero_le _⟩
  · rintro i _ hi ⟨ax, r8, fl, m', rfl, hp, hrlim, hwlim⟩ hnext
    apply comes_ntaRound hallows hm hclear hd hlt.le hi hfault _ hp hrlim hwlim
    intro ax r8 fl m'' hp' hrlim' hwlim'
    exact hnext _ ⟨ax, r8, fl, m'', rfl, hp', hrlim', hwlim'⟩
  · rintro _ ⟨ax, r8, fl, m', rfl, hp, -, hwlim⟩
    have hall : 16 * (d.toNat / 16) = d.toNat := by omega
    rw [if_pos ((loop_index_iff hmod hall.le).mpr hall)]
    rw [hall] at hp hwlim
    exact hend ax r8 _ _ _ fl m' hp hwlim

theorem comes_doCopyFaultNta (hallows : Allows k src dst cnt rlim wlim Q P) (hcall : amd64.Enters k o)
    (hclear : amd64.Clear k o dst wlim) (hcnt : dx.toNat = cnt) (hpos : 0 < cnt) (hmod : cnt % 16 = 0)
    (hm : Holds k o (oldLofault k o) m)
    (hfault : Recovers k o sp err src dst cnt wlim (store m (lofault k (thread k o.mem)) err) Q P)
    (hend : ∀ m' p, Progress (store m (lofault k (thread k o.mem)) err) src dst cnt cnt m' → cnt ≤ wlim →
      Returned k o 0#64 (store m' (lofault k (thread k o.mem)) (oldLofault k o)) p → p.errno = e →
      p.rounds = r + cnt / 16 → P p) :
    Comes k Q P ⟨⟨36, inside o sp ax err dx dst src r8 r9 r10 r11 fl m⟩, e, r⟩ := by
  have hbegin : At (text k) 36 ((doCopyFaultNta k).drop 1) := ⟨_, rfl⟩
  have hlast : At (text k) 51 ((kcopyNtaCopyerr k).take 3) := ⟨_, rfl⟩
  have hm₁ := hm.setLofault hcall err
  have hthread : load 64 m (BitVec.ofInt 64 k.cpuThread) = thread k o.mem := hm.thread
  have hstart : Comes k Q P ⟨⟨43, inside o sp ax err (BitVec.ofNat 64 (2 * 0) - dx >>> 3) (dst + dx) (src + dx) r8
      (thread k o.mem) r10 (oldLofault k o) (negative (dx >>> 3)).2 (store m (lofault k (thread k o.mem)) err)⟩, e, r⟩ := by
    apply comes_ntaLoop hallows hm₁ hclear hcnt hpos hmod hfault
    intro ax r8 dx' si di fl m' hp hwlim
    apply comes_run hlast hallows rfl
    simp [inside, kcopyNtaCopyerr]
    exact comes_leave ⟨_, rfl⟩ hallows (.inr (by decide)) hcall (hm₁.progress hclear hp hwlim)
      fun p hp' => hend m' p hp hwlim hp'
  apply comes_run hbegin hallows rfl
  simp [inside, doCopyFaultNta, hthread, hm.lofault]
  simpa [inside, negative] using hstart

theorem comes_ntaLabel {s : State 64} (hQ : Q ⟨⟨35, s⟩, e, r⟩) (h : Comes k Q P ⟨⟨36, s⟩, e, r⟩) :
    Comes k Q P ⟨⟨35, s⟩, e, r⟩ := by
  have hlabel : (text k)[35]? = some (.label .doCopyFaultNta) := rfl
  have hnext : next (text k) ⟨35, s⟩ = some ⟨36, s⟩ := by
    rw [next, hlabel]
    rfl
  exact until_plain hlabel rfl hnext (.inl hQ) (by decide) h

theorem comes_late {ip : Nat} {lines : List (Line Label)} {s : State 64} (hat : At (text k) ip lines)
    (hallows : Allows k src dst cnt rlim wlim Q P) (hip : 43 < ip) (hplain : lines.all plain = true)
    (hrun : ∃ d, run (text k) ip s lines = some d ∧ Comes k Q P ⟨d, e, r⟩) : Comes k Q P ⟨⟨ip, s⟩, e, r⟩ :=
  until_run hat hallows hplain (.inl (by omega)) (.inl hip) hrun

def withLength (last len : BitVec 64) (m : Mem 64) : Mem 64 := if last = 0#64 then m else store m last len

theorem Holds.withLength {last len : BitVec 64} (h : Holds k o v m) (hlast : last ≠ 0#64 → amd64.Clear k o last 8) :
    Holds k o v (withLength last len m) := by
  rw [Core.withLength]
  split
  next => exact h
  next hne =>
    apply h.changedIn (hlast hne)
    intro b hb
    rw [store, if_neg (Nat.not_lt.mpr hb)]

theorem comes_copystrOut (hallows : Allows k src dst cnt rlim wlim Q P) (hcall : amd64.Enters k o)
    (hlast : cx ≠ 0#64 → amd64.Clear k o cx 8) (hm : Holds k o v m)
    (hend : ∀ p, Returned k o ax (store (withLength cx (dx - r8) m) (lofault k (thread k o.mem)) (oldLofault k o)) p →
      p.errno = e → p.rounds = r → P p) :
    Comes k Q P ⟨⟨214, inside o sp ax cx dx si di r8 (thread k o.mem) r10 (oldLofault k o) fl m⟩, e, r⟩ := by
  have hat : At (text k) 214 (((copystrOut k).drop 5).take 6) := ⟨_, rfl⟩
  have hdone : At (text k) 219 [.label .copystrDone] := ⟨_, rfl⟩
  have hlabel : labelAddr (text k) .copystrDone = 219 := rfl
  have hm' : Holds k o v (withLength cx (dx - r8) m) := hm.withLength hlast
  apply comes_late hat hallows (by decide) rfl
  by_cases hzero : cx = 0#64
  · rw [withLength, if_pos hzero] at hend
    subst hzero
    simp [copystrOut, inside, hlabel]
    apply comes_late hdone hallows (by decide) rfl
    simp
    exact comes_leave ⟨_, rfl⟩ hallows (.inr (by decide)) hcall hm hend
  · rw [withLength, if_neg hzero] at hend hm'
    simpa [copystrOut, inside, hzero, difference_val] using
      comes_leave ⟨_, rfl⟩ hallows (.inr (by decide)) hcall hm' hend

def copystrResult (found : Bool) : BitVec 64 := if found then 0#64 else 78#64

/-- The loop of copystr comes to its end from its head, after `j` bytes and with
`n` to go. -/
def AtByte (k : Symbols) (o : State 64) (sp cx dx r10 src dst : BitVec 64) (e : Option (BitVec 32)) (r : Nat)
    (Q P : Point 64 → Prop) (j n : Nat) (m : Mem 64) : Prop :=
  ∀ ax fl, Comes k Q P ⟨⟨199, inside o sp ax cx dx (dst + BitVec.ofNat 64 j) (src + BitVec.ofNat 64 j) (BitVec.ofNat 64 n)
    (thread k o.mem) r10 (oldLofault k o) fl m⟩, e, r⟩

/-- So it does from the label for a NUL and from the one for too long a name. -/
def AtExit (k : Symbols) (o : State 64) (sp cx dx r10 : BitVec 64) (e : Option (BitVec 32)) (r : Nat)
    (Q P : Point 64 → Prop) (found : Bool) (n : Nat) (m : Mem 64) : Prop :=
  ∀ ax si di fl, Comes k Q P ⟨⟨if found then 212 else 209, inside o sp ax cx dx si di (BitVec.ofNat 64 n) (thread k o.mem)
    r10 (oldLofault k o) fl m⟩, e, r⟩

theorem comes_copystrByte {j n ext : Nat} {m₀ : Mem 64} (hallows : Allows k src dst ext rlim wlim Q P)
    (hm₀ : Holds k o err m₀) (hclear : amd64.Clear k o dst wlim) (hcnt : cnt < 2 ^ 64)
    (hfault : Recovers k o sp err src dst cnt wlim m₀ Q P) (hext : j < ext) (hn : cnt = j + n + 1)
    (hp : Progress m₀ src dst cnt j m) (hrlim : j ≤ rlim) (hwlim : j ≤ wlim)
    (hnext : ∀ m', Progress m₀ src dst cnt (j + 1) m' →
      m' = store m (dst + BitVec.ofNat 64 j) (load 8 m (src + BitVec.ofNat 64 j)) → j + 1 ≤ rlim → j + 1 ≤ wlim →
      AfterByte (load 8 m (src + BitVec.ofNat 64 j)) n (AtExit k o sp cx dx r10 e r Q P · n m')
        (AtByte k o sp cx dx r10 src dst e r Q P (j + 1) n m')) :
    AtByte k o sp cx dx r10 src dst e r Q P j (n + 1) m := by
  have hat : At (text k) 199 copystrLoop := ⟨_, rfl⟩
  have hnull : labelAddr (text k) .copystrNull = 212 := rfl
  have hloop : labelAddr (text k) .copystrLoop = 199 := rfl
  have hzero : BitVec.ofNat 64 n = 0#64 ↔ n = 0 := ofNat_eq_zero_iff (by omega)
  intro ax fl
  apply comes_late (hat.take 2) hallows (by decide) rfl
  simp [copystrLoop, inside, decrement_val, ofNat_succ_sub_one]
  apply until_load (k := j) hat.tail.tail.head rfl hallows (by decide) (by decide)
  · simp
  · omega
  · exact hrlim
  · intro e' he'
    exact hfault.trapped hm₀ hclear hp hwlim he' rfl
  intro hrlim₁
  apply comes_late ((hat.drop 3).take 1) hallows (by decide) rfl
  simp [copystrLoop, increment_val, add_ofNat_add_one]
  apply until_store (k := j) hat.tail.tail.tail.tail.head rfl hallows (by decide) (by decide)
  · simp
  · omega
  · exact hrlim₁
  · exact hwlim
  · intro e' he'
    exact hfault.trapped hm₀ hclear hp hwlim he' rfl
  intro hwlim₁
  obtain ⟨hyes, hno⟩ := hnext _ (hp.store (n := 8) rfl hp le_rfl (by omega) (by omega)) rfl hrlim₁ hwlim₁
  apply comes_late (hat.drop 5) hallows (by decide) rfl
  by_cases hbyte : load 8 m (src + BitVec.ofNat 64 j) = 0#8
  · simp [copystrLoop, increment_val, add_ofNat_add_one, merge_low, hnull, hbyte]
    rw [hbyte] at hyes
    exact hyes rfl _ _ _ _
  · by_cases hn0 : n = 0
    · subst hn0
      simp [copystrLoop, increment_val, add_ofNat_add_one, merge_low, hbyte]
      exact (hno hbyte).1 rfl _ _ _ _
    · simp [copystrLoop, increment_val, add_ofNat_add_one, merge_low, hloop, hbyte, hzero, hn0]
      exact (hno hbyte).2 hn0 _ _

theorem comes_copystrEnd {j l : Nat} (found : Bool) (hallows : Allows k src dst cnt rlim wlim Q P)
    (hcall : amd64.Enters k o) (hlast : cx ≠ 0#64 → amd64.Clear k o cx 8) (hdx : dx.toNat = j + l) (hm : Holds k o v m)
    (hend : ∀ p, Returned k o (copystrResult found) (store (withLength cx (BitVec.ofNat 64 j) m)
      (lofault k (thread k o.mem)) (oldLofault k o)) p → p.errno = e → p.rounds = r → P p) :
    AtExit k o sp cx dx r10 e r Q P found l m := by
  intro ax si di fl
  rw [← sub_ofNat_eq hdx] at hend
  cases found with
  | true =>
      have hat : At (text k) 212 (((copystrOut k).drop 3).take 2) := ⟨_, rfl⟩
      apply comes_late hat hallows (by decide) rfl
      simp [copystrOut, inside]
      exact comes_copystrOut hallows hcall hlast hm hend
  | false =>
      have hat : At (text k) 209 ((copystrOut k).take 3) := ⟨_, rfl⟩
      have hout : labelAddr (text k) .copystrOut = 214 := rfl
      apply comes_late hat hallows (by decide) rfl
      simp [copystrOut, inside, hout]
      exact comes_copystrOut hallows hcall hlast hm hend

theorem comes_copystrLoop {n l ext : Nat} {found : Bool} (hallows : Allows k src dst ext rlim wlim Q P)
    (hscan : scan m src dst 0 (n + 1) = (l, found)) (hext : l ≤ ext) (hcall : amd64.Enters k o) (hm : Holds k o err m)
    (hclear : amd64.Clear k o dst wlim) (hlast : cx ≠ 0#64 → amd64.Clear k o cx 8) (hdx : dx.toNat = n + 1)
    (hfault : Recovers k o sp err src dst (n + 1) wlim m Q P)
    (hend : ∀ m' p, Progress m src dst (n + 1) l m' → l ≤ wlim →
      Returned k o (copystrResult found) (store (withLength cx (BitVec.ofNat 64 l) m') (lofault k (thread k o.mem))
        (oldLofault k o)) p → p.errno = e → p.rounds = r → P p) :
    AtByte k o sp cx dx r10 src dst e r Q P 0 (n + 1) m := by
  have hlt := dx.isLt
  refine scan_rule (AtByte k o sp cx dx r10 src dst e r Q P) (AtExit k o sp cx dx r10 e r Q P) hext ?_ ?_ hscan
    (show n + 1 = 0 + n + 1 by omega) (Progress.zero _ _ _ _) (Nat.zero_le rlim) (Nat.zero_le wlim)
  · intro j n m
    exact comes_copystrByte hallows hm hclear (by omega) hfault
  · intro n' m' hl hp hwlim
    exact comes_copystrEnd found hallows hcall hlast (hdx.trans hl) (hm.progress hclear hp hwlim)
      fun p hp' => hend m' p hp hwlim hp'

theorem comes_doCopystr {ext : Nat} (hallows : Allows k src dst ext rlim wlim Q P)
    (hext : (scan (store m (lofault k (thread k o.mem)) err) src dst 0 cnt).1 ≤ ext) (hcall : amd64.Enters k o)
    (hclear : amd64.Clear k o dst wlim) (hlast : cx ≠ 0#64 → amd64.Clear k o cx 8) (hcnt : dx.toNat = cnt)
    (hm : Holds k o (oldLofault k o) m)
    (hfault : Recovers k o sp err src dst cnt wlim (store m (lofault k (thread k o.mem)) err) Q P)
    (hend : ∀ l found m' p, scan (store m (lofault k (thread k o.mem)) err) src dst 0 cnt = (l, found) →
      Progress (store m (lofault k (thread k o.mem)) err) src dst cnt l m' → l ≤ wlim →
      Returned k o (copystrResult found)
        (store (withLength cx (BitVec.ofNat 64 l) m') (lofault k (thread k o.mem)) (oldLofault k o)) p →
      p.errno = e → p.rounds = r → P p) :
    Comes k Q P ⟨⟨192, inside o sp ax cx dx dst src err r9 r10 r11 fl m⟩, e, r⟩ := by
  have hat : At (text k) 192 (doCopystr k) := ⟨_, rfl⟩
  have htoolong : labelAddr (text k) .copystrEnametoolong = 209 := rfl
  have hm₁ := hm.setLofault hcall err
  have hthread : load 64 m (BitVec.ofInt 64 k.cpuThread) = thread k o.mem := hm.thread
  apply comes_late hat hallows (by decide) rfl
  by_cases hzero : dx = 0#64
  · obtain rfl : cnt = 0 := by rw [← hcnt, hzero]; rfl
    subst hzero
    simpa [inside, doCopystr, hthread, hm.lofault, htoolong] using
      comes_copystrEnd (j := 0) (l := 0) false hallows hcall hlast rfl hm₁
        (fun p hp => hend 0 false _ p rfl (Progress.zero _ _ _ _) (Nat.zero_le _) hp) _ _ _ _
  · have hne : cnt ≠ 0 := fun h => hzero (BitVec.eq_of_toNat_eq (hcnt.trans h))
    obtain ⟨n, rfl⟩ : ∃ n, cnt = n + 1 := ⟨cnt - 1, by omega⟩
    have hofNat : BitVec.ofNat 64 (n + 1) = dx := by rw [← hcnt, BitVec.ofNat_toNat, BitVec.setWidth_eq]
    have hstart : Comes k Q P ⟨⟨199, inside o sp ax cx dx (dst + 0#64) (src + 0#64) (BitVec.ofNat 64 (n + 1))
        (thread k o.mem) r10 (oldLofault k o) (difference 0#64 dx false).2 _⟩, e, r⟩ :=
      comes_copystrLoop hallows rfl hext hcall hm₁ hclear hlast hcnt hfault (fun m' p => hend _ _ m' p rfl) _ _
    rw [hofNat, BitVec.add_zero, BitVec.add_zero] at hstart
    simpa [inside, doCopystr, hthread, hm.lofault, hzero] using hstart

end SysvDev.Copy.Amd64.Core
