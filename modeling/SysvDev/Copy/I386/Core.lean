import SysvDev.Copy.Call

namespace SysvDev.Copy.I386.Core

open X86.Memory X86.Machine X86.Machine.Att X86.Run X86.Strings X86.Traps Inevitable Text Text.I386 Call

set_option maxRecDepth 2000

variable {k : Symbols} {o : State 32} {ax cx dx bx sp bp si di src dst err v x : BitVec 32} {fl : Flags}
  {m m' : Mem 32} {cnt rlim wlim : Nat} {e : Option (BitVec 32)} {r : Nat} {Q P : Point 32 → Prop}

abbrev oldLofault (k : Symbols) (o : State 32) : BitVec 32 := load 32 o.mem (lofault k (thread k o.mem))

/-- The words that the call comes back to, with `v` as the lofault. -/
structure Base (k : Symbols) (o : State 32) (v : BitVec 32) (m : Mem 32) : Prop where
  thread : thread k m = thread k o.mem
  lofault : load 32 m (lofault k (Call.thread k o.mem)) = v
  copyops : load 32 m (copyops k (Call.thread k o.mem)) = load 32 o.mem (Call.copyops k (Call.thread k o.mem))
  hook : load 32 o.mem (Call.copyops k (Call.thread k o.mem)) ≠ 0#32 → ∀ f,
    load 32 m (hook k o f) = load 32 o.mem (Call.hook k o f)
  ret : load 32 m o.regs.sp = load 32 o.mem o.regs.sp
  src : load 32 m (o.regs.sp + 4#32) = (i386.args o).src
  dst : load 32 m (o.regs.sp + 8#32) = (i386.args o).dst
  count : load 32 m (o.regs.sp + 12#32) = (i386.args o).count
  last : load 32 m (o.regs.sp + 16#32) = (i386.args o).last

/-- The same with what has been pushed: `%ebp`, a register `x`, `%edi` and the
lofault as it was. -/
structure Holds (k : Symbols) (o : State 32) (x v : BitVec 32) (m : Mem 32) : Prop extends Base k o v m where
  bp : load 32 m (o.regs.sp - 4#32) = o.regs.bp
  slot : load 32 m (o.regs.sp - 8#32) = x
  di : load 32 m (o.regs.sp - 12#32) = o.regs.di
  old : load 32 m (o.regs.sp - 16#32) = oldLofault k o

theorem frame_mem : (o.regs.sp - 16#32, 36) ∈ i386.regions k o := .head _

theorem lofault_mem : (lofault k (thread k o.mem), 4) ∈ i386.regions k o := .tail _ (.head _)

theorem copyops_mem : (copyops k (thread k o.mem), 4) ∈ i386.regions k o := .tail _ (.tail _ (.head _))

theorem cpuThread_mem : (BitVec.ofInt 32 k.cpuThread, 4) ∈ i386.regions k o := .tail _ (.tail _ (.tail _ (.head _)))

theorem add_inside (c : BitVec 32) (h : (c + 16#32).toNat + 4 ≤ 36) :
    (o.regs.sp + c - (o.regs.sp - 16#32)).toNat + 4 ≤ 36 := by
  rwa [show o.regs.sp + c - (o.regs.sp - 16#32) = c + 16#32 by ring]

theorem sp_inside : (o.regs.sp - (o.regs.sp - 16#32)).toNat + 4 ≤ 36 := by
  rw [sub_sub_cancel]
  decide

theorem sub_inside (c : BitVec 32) (h : (16#32 - c).toNat + 4 ≤ 36) :
    (o.regs.sp - c - (o.regs.sp - 16#32)).toNat + 4 ≤ 36 := by
  rwa [sub_sub_sub_cancel_left]

section Changes

variable {a : BitVec 32} {n : Nat} (hclear : i386.Clear k o a n) (hm : ChangedIn a n m m')

include hclear hm

theorem Base.changedIn (h : Base k o v m) : Base k o v m' where
  thread := (hclear.load hm cpuThread_mem (by simp)).trans h.thread
  lofault := (hclear.load hm lofault_mem (by simp)).trans h.lofault
  copyops := (hclear.load hm copyops_mem (by simp)).trans h.copyops
  hook hne f := (hclear.load hm (.tail _ (.tail _ (Port.hook_mem f hne))) (by simp)).trans (h.hook hne f)
  ret := (hclear.load hm frame_mem sp_inside).trans h.ret
  src := (hclear.load hm frame_mem (add_inside _ (by decide))).trans h.src
  dst := (hclear.load hm frame_mem (add_inside _ (by decide))).trans h.dst
  count := (hclear.load hm frame_mem (add_inside _ (by decide))).trans h.count
  last := (hclear.load hm frame_mem (add_inside _ (by decide))).trans h.last

theorem Holds.changedIn (h : Holds k o x v m) : Holds k o x v m' where
  toBase := h.toBase.changedIn hclear hm
  bp := (hclear.load hm frame_mem (sub_inside _ (by decide))).trans h.bp
  slot := (hclear.load hm frame_mem (sub_inside _ (by decide))).trans h.slot
  di := (hclear.load hm frame_mem (sub_inside _ (by decide))).trans h.di
  old := (hclear.load hm frame_mem (sub_inside _ (by decide))).trans h.old

end Changes

theorem Holds.progress {m₀ : Mem 32} {j lim : Nat} (h : Holds k o x v m₀) (hclear : i386.Clear k o dst lim)
    (hp : Progress m₀ src dst cnt j m) (hj : j ≤ lim) : Holds k o x v m :=
  h.changedIn hclear (hp.outside.mono hj)

theorem lofault_apart_frame {c : BitVec 32} (hcall : i386.Enters k o)
    (hc : (c - (o.regs.sp - 16#32)).toNat + 4 ≤ 36) : Apart (lofault k (thread k o.mem)) 4 c 4 := by
  have hframe : Apart (o.regs.sp - 16#32) 36 (lofault k (thread k o.mem)) 4 :=
    hcall.frame_apart (.head _) le_rfl
  have hpart := hframe.part (d := 0#32) (k := 4) hc (by decide) (by decide) (by decide)
  rw [add_sub_cancel, BitVec.add_zero] at hpart
  exact hpart.symm

section Lofault

variable (hcall : i386.Enters k o)

include hcall

theorem load_setLofault {c : BitVec 32} (hc : (c - (o.regs.sp - 16#32)).toNat + 4 ≤ 36) (v' : BitVec 32) :
    load 32 (store m (lofault k (thread k o.mem)) v') c = load 32 m c :=
  load_store_apart (n := 32) (k := 32) (lofault_apart_frame hcall hc)

theorem Base.setLofault (h : Base k o v m) (v' : BitVec 32) :
    Base k o v' (store m (Call.lofault k (Call.thread k o.mem)) v') where
  thread := (load_store_apart (n := 32) (k := 32) (hcall.lofault_apart (.tail _ (.head _)))).trans h.thread
  lofault := load_store_same m _ v' rfl (by decide)
  copyops := (load_store_apart (n := 32) (k := 32) (hcall.lofault_apart (.head _))).trans h.copyops
  hook hne f := (load_store_apart (n := 32) (k := 32) (hcall.lofault_apart (Port.hook_mem f hne))).trans (h.hook hne f)
  ret := (load_setLofault hcall sp_inside v').trans h.ret
  src := (load_setLofault hcall (add_inside _ (by decide)) v').trans h.src
  dst := (load_setLofault hcall (add_inside _ (by decide)) v').trans h.dst
  count := (load_setLofault hcall (add_inside _ (by decide)) v').trans h.count
  last := (load_setLofault hcall (add_inside _ (by decide)) v').trans h.last

theorem Holds.setLofault (h : Holds k o x v m) (v' : BitVec 32) :
    Holds k o x v' (store m (Call.lofault k (Call.thread k o.mem)) v') where
  toBase := h.toBase.setLofault hcall v'
  bp := (load_setLofault hcall (sub_inside _ (by decide)) v').trans h.bp
  slot := (load_setLofault hcall (sub_inside _ (by decide)) v').trans h.slot
  di := (load_setLofault hcall (sub_inside _ (by decide)) v').trans h.di
  old := (load_setLofault hcall (sub_inside _ (by decide)) v').trans h.old

end Lofault

theorem base_self : Base k o (oldLofault k o) o.mem := ⟨rfl, rfl, rfl, fun _ _ => rfl, rfl, rfl, rfl, rfl, rfl⟩

def pushed (k : Symbols) (o : State 32) (x : BitVec 32) : Mem 32 :=
  store (store (store (store o.mem (o.regs.sp - 4#32) o.regs.bp) (o.regs.sp - 8#32) x) (o.regs.sp - 12#32) o.regs.di)
    (o.regs.sp - 16#32) (oldLofault k o)

theorem store_pushed :
    store (store (store (store o.mem (o.regs.sp - 4#32) o.regs.bp) (o.regs.sp - 8#32) x) (o.regs.sp - 12#32) o.regs.di)
      (o.regs.sp - 16#32) (oldLofault k o) = pushed k o x := rfl

theorem slot_addr (c d : BitVec 32) (h : 16#32 - c = d) : o.regs.sp - c = o.regs.sp - 16#32 + d := by
  rw [← h]
  ring

theorem pushes_changedIn :
    ChangedIn (o.regs.sp - 16#32) 16 o.mem (store (store (store o.mem (o.regs.sp - 4#32) o.regs.bp) (o.regs.sp - 8#32) x)
      (o.regs.sp - 12#32) o.regs.di) := by
  rw [slot_addr 4#32 12#32 rfl, slot_addr 8#32 8#32 rfl, slot_addr 12#32 4#32 rfl]
  exact (((ChangedIn.refl _ _ _).store (by decide)).store (by decide)).store (by decide)

theorem pushed_changedIn : ChangedIn (o.regs.sp - 16#32) 16 o.mem (pushed k o x) := by
  rw [pushed]
  have h := (pushes_changedIn (o := o) (x := x)).store (c := 0#32) (v := oldLofault k o) (by decide)
  rwa [BitVec.add_zero] at h

theorem load_above (hm : ChangedIn (o.regs.sp - 16#32) 16 o.mem m) (c : Nat) (hc : c ≤ 16) :
    load 32 m (o.regs.sp + BitVec.ofNat 32 c) = load 32 o.mem (o.regs.sp + BitVec.ofNat 32 c) := by
  have haddr : o.regs.sp + BitVec.ofNat 32 c = o.regs.sp - 16#32 + BitVec.ofNat 32 (16 + c) := by
    rw [BitVec.ofNat_add]
    ring
  rw [haddr]
  exact hm.above (16 + c) (by omega) (by omega) (by omega) (by decide)

theorem load_ret (hm : ChangedIn (o.regs.sp - 16#32) 16 o.mem m) :
    load 32 m o.regs.sp = load 32 o.mem o.regs.sp := by
  have hret := load_above hm 0 (by decide)
  rwa [BitVec.add_zero] at hret

theorem base_of_changedIn (hcall : i386.Enters k o) (hm : ChangedIn (o.regs.sp - 16#32) 16 o.mem m) :
    Base k o (oldLofault k o) m := by
  have hword {a : BitVec 32} (ha : (a, 4) ∈ (i386.regions k o).tail) : load 32 m a = load 32 o.mem a :=
    hm.load (hcall.frame_apart ha (by decide))
  exact ⟨hword (.tail _ (.tail _ (.head _))), hword (.head _), hword (.tail _ (.head _)),
    fun hne f => hword (.tail _ (Port.hook_mem f hne)), load_ret hm, load_above hm 4 (by decide),
    load_above hm 8 (by decide), load_above hm 12 (by decide), load_above hm 16 (by decide)⟩

theorem slot_apart (c d : BitVec 32) (h : Apart (-c) 4 (-d) 4) : Apart (o.regs.sp - c) 4 (o.regs.sp - d) 4 := by
  rw [sub_eq_add_neg, sub_eq_add_neg]
  exact apart_add.mpr h

theorem load_slot (c d : BitVec 32) (h : Apart (-c) 4 (-d) 4) (v : BitVec 32) :
    load 32 (store m (o.regs.sp - c) v) (o.regs.sp - d) = load 32 m (o.regs.sp - d) :=
  load_store_apart (n := 32) (k := 32) (slot_apart c d h)

theorem pushed_bp : load 32 (pushed k o x) (o.regs.sp - 4#32) = o.regs.bp := by
  rw [pushed, load_slot 16#32 4#32 (by decide), load_slot 12#32 4#32 (by decide), load_slot 8#32 4#32 (by decide),
    load_store_word]

theorem pushed_slot : load 32 (pushed k o x) (o.regs.sp - 8#32) = x := by
  rw [pushed, load_slot 16#32 8#32 (by decide), load_slot 12#32 8#32 (by decide), load_store_word]

theorem pushed_di : load 32 (pushed k o x) (o.regs.sp - 12#32) = o.regs.di := by
  rw [pushed, load_slot 16#32 12#32 (by decide), load_store_word]

theorem pushed_old : load 32 (pushed k o x) (o.regs.sp - 16#32) = oldLofault k o := by
  rw [pushed, load_store_word]

theorem holds_pushed (hcall : i386.Enters k o) : Holds k o x (oldLofault k o) (pushed k o x) :=
  ⟨base_of_changedIn hcall pushed_changedIn, pushed_bp, pushed_slot, pushed_di, pushed_old⟩

theorem labelAddr_nta : labelAddr (text k) .doCopyFaultNta = 30 := rfl

theorem labelAddr_ntaLoop : labelAddr (text k) .ntaLoop = 46 := rfl

abbrev Comes (k : Symbols) (Q P : Point 32 → Prop) (p : Point 32) : Prop := Until (TrapStep (text k) (resume k) 46) Q P p

abbrev Allows (k : Symbols) (src dst : BitVec 32) (cnt rlim wlim : Nat) (Q P : Point 32 → Prop) : Prop :=
  Permits (text k) src dst cnt rlim wlim 30 Q P

def outer (o : State 32) (ax cx dx : BitVec 32) (fl : Flags) (m : Mem 32) : State 32 :=
  ⟨⟨ax, cx, dx, o.regs.bx, o.regs.sp, o.regs.bp, o.regs.si, o.regs.di, o.regs.hi⟩, fl, false, m⟩

def inside (o : State 32) (ax cx dx bx si di : BitVec 32) (fl : Flags) (m : Mem 32) : State 32 :=
  ⟨⟨ax, cx, dx, bx, o.regs.sp - 16#32, o.regs.sp - 4#32, si, di, o.regs.hi⟩, fl, false, m⟩

/-- The call has returned with `ax` and the memory `m`. -/
structure Returned (k : Symbols) (o : State 32) (ax : BitVec 32) (m : Mem 32) (p : Point 32) : Prop
    extends i386.Exit k o p where
  ax : p.cfg.state.regs.ax = ax
  mem : p.cfg.state.mem = m

/-- A fault in the copy that has begun with the memory `m` is dealt with at
`err`. -/
def Recovers (k : Symbols) (o : State 32) (err src dst : BitVec 32) (cnt lim : Nat) (m : Mem 32)
    (Q P : Point 32 → Prop) : Prop :=
  ∀ cx si di fl m' e' j r, Progress m src dst cnt j m' → j ≤ lim → 0 < e'.toInt →
    Comes k Q P ⟨⟨err.toNat, inside o e' cx (thread k o.mem) o.regs.bx si di fl m'⟩, some e', r⟩

section Slots

variable (a : BitVec 32)

theorem push_second : a - 4#32 - 4#32 = a - 8#32 := by bv_omega

theorem push_third : a - 8#32 - 4#32 = a - 12#32 := by bv_omega

theorem push_fourth : a - 12#32 - 4#32 = a - 16#32 := by bv_omega

theorem pop_first : a - 16#32 + 4#32 = a - 12#32 := by bv_omega

theorem pop_second : a - 12#32 + 4#32 = a - 8#32 := by bv_omega

theorem pop_third : a - 8#32 + 4#32 = a - 4#32 := by bv_omega

theorem arg_src : a - 4#32 + 8#32 = a + 4#32 := by bv_omega

theorem arg_dst : a - 4#32 + 12#32 = a + 8#32 := by bv_omega

theorem arg_count : a - 4#32 + 16#32 = a + 12#32 := by bv_omega

theorem arg_last : a - 4#32 + 20#32 = a + 16#32 := by bv_omega

end Slots

attribute [local simp] merge_word shr_val sum_val add_tLofault add_tCopyops load_cpuThread load_kernelbase push_second
  push_third push_fourth pop_first pop_second pop_third arg_src arg_dst arg_count arg_last

def isQuiet (ip : Nat) (lines : List (Line Label)) : Bool :=
  lines.all plain && (ip + lines.length ≤ 30 || (30 < ip && ip + lines.length ≤ 46) || 46 < ip)

theorem comes_run {ip : Nat} {lines : List (Line Label)} {s : State 32} (hat : At (text k) ip lines)
    (hallows : Allows k src dst cnt rlim wlim Q P) (hquiet : isQuiet ip lines = true)
    (hrun : ∃ d, run (text k) ip s lines = some d ∧ Comes k Q P ⟨d, e, r⟩) : Comes k Q P ⟨⟨ip, s⟩, e, r⟩ := by
  simp only [isQuiet, Bool.and_eq_true, Bool.or_eq_true, decide_eq_true_eq] at hquiet
  exact until_run hat hallows hquiet.1 (by omega) (by omega) hrun

theorem comes_late {ip : Nat} {lines : List (Line Label)} {s : State 32} (hat : At (text k) ip lines)
    (hallows : Allows k src dst cnt rlim wlim Q P) (hip : 46 < ip) (hplain : lines.all plain = true)
    (hrun : ∃ d, run (text k) ip s lines = some d ∧ Comes k Q P ⟨d, e, r⟩) : Comes k Q P ⟨⟨ip, s⟩, e, r⟩ :=
  until_run hat hallows hplain (.inl (by omega)) (.inl hip) hrun

theorem comes_restore {ip : Nat} {last : Line Label}
    (hat : At (text k) ip [popl .cx, popl .di, movl Att.ecx (ind k.tLofault .dx), popl .si, last])
    (hlast : last = popl .bp ∨ last = .op .leave) (hallows : Allows k src dst cnt rlim wlim Q P)
    (hip : ip + 5 ≤ 30 ∨ 46 < ip) (hcall : i386.Enters k o) (hm : Holds k o o.regs.si v m)
    (h : ∀ m', m' = store m (lofault k (thread k o.mem)) (oldLofault k o) → Base k o (oldLofault k o) m' →
      Comes k Q P ⟨⟨ip + 5, outer o ax (oldLofault k o) (thread k o.mem) fl m'⟩, e, r⟩) :
    Comes k Q P ⟨⟨ip, inside o ax cx (thread k o.mem) o.regs.bx si di fl m⟩, e, r⟩ := by
  have hm' := hm.setLofault hcall (oldLofault k o)
  have hnext := h _ rfl hm'.toBase
  apply until_run hat hallows
  · rcases hlast with rfl | rfl <;> rfl
  · simp only [List.length_cons, List.length_nil]
    omega
  · simp only [List.length_cons, List.length_nil]
    omega
  rcases hlast with rfl | rfl
  all_goals
    simp [inside, hm.old, hm.di, hm'.slot, hm'.bp]
    exact hnext

theorem hands_of_base {f : Routine} (hm : Base k o (oldLofault k o) m)
    (hne : load 32 o.mem (copyops k (thread k o.mem)) ≠ 0#32) :
    i386.Hands k o f ⟨⟨(load 32 m (hook k o f)).toNat, outer o ax cx dx fl m⟩, e, r⟩ where
  installed := hne
  ip := congrArg BitVec.toNat (hm.hook hne f)
  sp := rfl
  ret := hm.ret
  saved := by simp [i386, outer]
  lofault := hm.lofault

theorem comes_ret {ip : Nat} (hat : At (text k) ip [.ret 0]) (hallows : Allows k src dst cnt rlim wlim Q P)
    (hip : ip + 1 ≤ 30 ∨ 46 < ip) (hm : Base k o (oldLofault k o) m)
    (hend : ∀ p, Returned k o ax m p → p.errno = e → p.rounds = r → P p) :
    Comes k Q P ⟨⟨ip, outer o ax cx dx fl m⟩, e, r⟩ := by
  apply until_run hat hallows rfl
  · simp only [List.length_cons, List.length_nil]
    omega
  · simp only [List.length_cons, List.length_nil]
    omega
  simp [outer]
  refine .here (hend _ ⟨⟨congrArg BitVec.toNat hm.ret, rfl, ?_, hm.lofault⟩, rfl, rfl⟩ rfl rfl)
  simp [i386]

theorem Recovers.trapped {m₀ : Mem 32} {s : State 32} {ip j : Nat} {e' : BitVec 32}
    (h : Recovers k o err src dst cnt wlim m₀ Q P) (hm₀ : Holds k o x err m₀) (hclear : i386.Clear k o dst wlim)
    (hp : Progress m₀ src dst cnt j m) (hj : j ≤ wlim) (he : 0 < e'.toInt)
    (hs : s = inside o ax cx (thread k o.mem) o.regs.bx si di fl m) :
    Comes k Q P (Point.trapped (resume k) ⟨⟨ip, s⟩, e, r⟩ e') := by
  have hm := hm₀.progress hclear hp hj
  have hmem : s.mem = m := congrArg State.mem hs
  rw [trapped_eq (s := s) (hmem ▸ hm.thread) (hmem ▸ hm.lofault), hs, BitVec.setWidth_eq]
  exact h cx si di fl m e' j r hp hj he

theorem comes_doCopyFault (hsrc : (i386.args o).src = src) (hdst : (i386.args o).dst = dst)
    (hcnt : (i386.args o).count.toNat = cnt) (hallows : Allows k src dst cnt rlim wlim Q P) (hcall : i386.Enters k o)
    (hclear : i386.Clear k o dst wlim)
    (hfault : Recovers k o err src dst cnt wlim (store (pushed k o o.regs.si) (lofault k (thread k o.mem)) err) Q P)
    (hend : ∀ m' p, Progress (store (pushed k o o.regs.si) (lofault k (thread k o.mem)) err) src dst cnt cnt m' →
      cnt ≤ wlim → Returned k o 0#32 (store m' (lofault k (thread k o.mem)) (oldLofault k o)) p → p.errno = e →
      p.rounds = r → P p) :
    Comes k Q P ⟨⟨3, outer o err cx (thread k o.mem) fl o.mem⟩, e, r⟩ := by
  have hat : At (text k) 3 (doCopyFault k) := ⟨_, rfl⟩
  have hbegin : At (text k) 3 ((doCopyFault k).take 12) := ⟨_, rfl⟩
  have hmiddle : At (text k) 16 (((doCopyFault k).drop 13).take 2) := ⟨_, rfl⟩
  have hlast : At (text k) 19 [xorl Att.eax Att.eax, .label .kcopyCopyerr] := ⟨_, rfl⟩
  have hm₁ := (holds_pushed (x := o.regs.si) hcall).setLofault hcall err
  have hold := (base_of_changedIn hcall (pushes_changedIn (o := o) (x := o.regs.si))).lofault
  have hargs := And.intro hm₁.src (And.intro hm₁.dst hm₁.count)
  rw [hsrc, hdst] at hargs
  have hcount {m' : Mem 32} {j : Nat} (hp : Progress _ src dst cnt j m') (hj : j ≤ wlim) :=
    (hm₁.progress hclear hp hj).count
  generalize (i386.args o).count = d at hcnt hargs hcount
  have hlt := d.isLt
  have hwords : (d >>> 2).toNat = cnt / 4 := by
    rw [BitVec.toNat_ushiftRight, shiftRight_two, hcnt]
  have hbytes : (d &&& 3#32).toNat = cnt % 4 := by
    rw [BitVec.toNat_and, ← hcnt]
    exact and_three _
  apply comes_run hbegin hallows rfl
  simp [outer, doCopyFault, hold, store_pushed, hargs]
  apply until_rep_zero (n := 32) (hat.drop 12) rfl (by decide) (by decide) (by omega) hallows
  · intro cx si di j m' e' hp hj he
    exact hfault.trapped hm₁ hclear hp hj he rfl
  · intro j m' hj hp hrlim hwlim
    apply comes_run hmiddle hallows rfl
    simp [doCopyFault, hcount hp hwlim]
    apply until_rep (n := 8) (hat.drop 15) rfl (by decide) (by decide) (by omega) hallows _ _ hp _ hrlim hwlim
    · intro cx si di j m' e' hp hj he
      exact hfault.trapped hm₁ hclear hp hj he rfl
    · intro j' m' hj' hp hrlim hwlim
      obtain rfl : j' = cnt := by omega
      apply comes_run hlast hallows rfl
      simp
      apply comes_restore ⟨_, rfl⟩ (.inl rfl) hallows (.inl (by decide)) hcall
        (hm₁.progress hclear hp hwlim)
      intro m'' hm'' hbase
      subst hm''
      exact comes_ret ⟨_, rfl⟩ hallows (.inl (by decide)) hbase fun p hp' => hend m' p hp hwlim hp'
    · omega
  · omega

section Loop

variable {d : BitVec 32} {i : Nat} {m₀ : Mem 32} (hallows : Allows k src dst cnt rlim wlim Q P) (hm₀ : Holds k o x err m₀)
  (hclear : i386.Clear k o dst wlim) (hd : BitVec.ofNat 32 8 * (d >>> 3) = d) (hcnt : cnt ≤ 2 ^ 32)
  (hfault : Recovers k o err src dst cnt wlim m₀ Q P)

include hallows hm₀ hclear hd hcnt hfault

theorem comes_ntaWord {ip c : Nat} {disp : Int}
    (hat : At (text k) ip [movl (.mem (.index disp .di .cx 8) : Place) Att.esi, movnti 32 .si (.index disp .ax .cx 8)])
    (hdisp : BitVec.ofInt 32 disp = BitVec.ofNat 32 c) (hip : 46 < ip) (hc : 16 * i + c + 4 ≤ cnt)
    (hnext : ∀ si m', Progress m₀ src dst cnt (16 * i + c + 4) m' → 16 * i + c + 4 ≤ rlim → 16 * i + c + 4 ≤ wlim →
      Comes k Q P ⟨⟨ip + 2, inside o (dst + d) (BitVec.ofNat 32 (2 * i) - d >>> 3) (thread k o.mem) o.regs.bx si (src + d)
        fl m'⟩, e, r⟩)
    (hp : Progress m₀ src dst cnt (16 * i + c) m) (hrlim : 16 * i + c ≤ rlim) (hwlim : 16 * i + c ≤ wlim) :
    Comes k Q P ⟨⟨ip, inside o (dst + d) (BitVec.ofNat 32 (2 * i) - d >>> 3) (thread k o.mem) o.regs.bx si (src + d) fl m⟩,
      e, r⟩ := by
  have haddr (a : BitVec 32) : a + d + 8#32 * (BitVec.ofNat 32 (2 * i) - d >>> 3) + BitVec.ofInt 32 disp =
      a + BitVec.ofNat 32 (16 * i + c) := loop_addr hd i c hdisp
  have hexcept : ip ≠ 30 ∧ ip ≠ 46 ∧ ip + 1 ≠ 30 ∧ ip + 1 ≠ 46 := by omega
  apply until_load (k := 16 * i + c) hat.head rfl hallows hexcept.1 hexcept.2.1
  · exact haddr src
  · exact hc
  · exact hrlim
  · intro e' he'
    exact hfault.trapped hm₀ hclear hp hwlim he' rfl
  intro hrlim₁
  simp [inside]
  apply until_store (k := 16 * i + c) hat.tail.head rfl hallows hexcept.2.2.1 hexcept.2.2.2
  · exact haddr dst
  · exact hc
  · exact hrlim₁
  · exact hwlim
  · intro e' he'
    exact hfault.trapped hm₀ hclear hp hwlim he' rfl
  intro hwlim₁
  have hnext' := hnext (load 32 m (src + BitVec.ofNat 32 (16 * i + c))) _ (hp.store (n := 32) rfl hp le_rfl hc hcnt)
    hrlim₁ hwlim₁
  simpa [inside] using hnext'

theorem comes_ntaRound (hi : 16 * (i + 1) ≤ cnt)
    (hnext : ∀ si fl m', Progress m₀ src dst cnt (16 * (i + 1)) m' → 16 * (i + 1) ≤ rlim → 16 * (i + 1) ≤ wlim →
      Comes k Q P ⟨⟨if BitVec.ofNat 32 (2 * (i + 1)) = d >>> 3 then 58 else 46, inside o (dst + d)
        (BitVec.ofNat 32 (2 * (i + 1)) - d >>> 3) (thread k o.mem) o.regs.bx si (src + d) fl m'⟩, e, r + 1⟩)
    (hp : Progress m₀ src dst cnt (16 * i) m) (hrlim : 16 * i ≤ rlim) (hwlim : 16 * i ≤ wlim) :
    Comes k Q P ⟨⟨46, inside o (dst + d) (BitVec.ofNat 32 (2 * i) - d >>> 3) (thread k o.mem) o.regs.bx si (src + d) fl m⟩,
      e, r⟩ := by
  have hat : At (text k) 46 ntaLoop := ⟨_, rfl⟩
  have hlast : At (text k) 56 (ntaLoop.drop 10) := ⟨_, rfl⟩
  apply until_mark hat.head hallows (by decide) rfl
  apply comes_run (show At (text k) 47 [.op (.prefetchnta (.index 0x100 .di .cx 8))] from ⟨_, rfl⟩) hallows rfl
  simp [inside]
  apply comes_ntaWord hallows hm₀ hclear hd hcnt hfault (c := 0) ⟨_, rfl⟩ rfl (by decide) (by omega) _ hp hrlim hwlim
  intro si m₁ hp₁ hrlim₁ hwlim₁
  apply comes_ntaWord hallows hm₀ hclear hd hcnt hfault (c := 4) ⟨_, rfl⟩ rfl (by decide) (by omega) _ hp₁ hrlim₁ hwlim₁
  intro si m₂ hp₂ hrlim₂ hwlim₂
  apply comes_ntaWord hallows hm₀ hclear hd hcnt hfault (c := 8) ⟨_, rfl⟩ rfl (by decide) (by omega) _ hp₂ hrlim₂ hwlim₂
  intro si m₃ hp₃ hrlim₃ hwlim₃
  apply comes_ntaWord hallows hm₀ hclear hd hcnt hfault (c := 12) ⟨_, rfl⟩ rfl (by decide) (by omega) _ hp₃ hrlim₃ hwlim₃
  intro si m₄ hp₄ hrlim₄ hwlim₄
  have hround := hnext si (sum 2#32 (BitVec.ofNat 32 (2 * i) - d >>> 3) false).2 _ hp₄ hrlim₄ hwlim₄
  have hindex := loop_index (d >>> 3) i
  have hcond := loop_cond (d >>> 3) i
  apply comes_run hlast hallows rfl
  by_cases hout : BitVec.ofNat 32 (2 * (i + 1)) = d >>> 3
  · rw [if_pos hout] at hround
    rw [decide_eq_true hout, Bool.not_true] at hcond
    simpa [inside, ntaLoop, hcond, hindex, -Cond.eval] using hround
  · rw [if_neg hout] at hround
    rw [decide_eq_false hout, Bool.not_false] at hcond
    simpa [inside, ntaLoop, hcond, hindex, -Cond.eval, labelAddr_ntaLoop] using hround

theorem comes_ntaLoop (hpos : 0 < cnt) (hmod : cnt % 16 = 0)
    (hne : ∀ j, 0 < j → 16 * j < cnt → BitVec.ofNat 32 (2 * j) ≠ d >>> 3)
    (hexit : cnt ≤ wlim → BitVec.ofNat 32 (2 * (cnt / 16)) = d >>> 3)
    (hend : ∀ ax cx si di fl m', Progress m₀ src dst cnt cnt m' → cnt ≤ wlim → Comes k Q P
      ⟨⟨58, inside o ax cx (thread k o.mem) o.regs.bx si di fl m'⟩, e, r + cnt / 16⟩) :
    Comes k Q P ⟨⟨46, inside o (dst + d) (BitVec.ofNat 32 (2 * 0) - d >>> 3) (thread k o.mem) o.regs.bx si (src + d) fl m₀⟩,
      e, r⟩ := by
  refine loop_rounds 46 58 (fun ip i p => ∃ si fl m, p = ⟨⟨ip, inside o (dst + d) (BitVec.ofNat 32 (2 * i) - d >>> 3)
      (thread k o.mem) o.regs.bx si (src + d) fl m⟩, e, r + i⟩ ∧ Progress m₀ src dst cnt (16 * i) m ∧ 16 * i ≤ rlim ∧
      16 * i ≤ wlim) ?_ hne ?_ hmod hpos ⟨si, fl, m₀, rfl, Progress.zero _ _ _ _, Nat.zero_le _, Nat.zero_le _⟩
  · rintro i _ hi ⟨si, fl, m, rfl, hp, hrlim, hwlim⟩ hnext
    apply comes_ntaRound hallows hm₀ hclear hd hcnt hfault hi _ hp hrlim hwlim
    intro si fl m' hp' hrlim' hwlim'
    exact hnext _ ⟨si, fl, m', rfl, hp', hrlim', hwlim'⟩
  · rintro _ ⟨si, fl, m, rfl, hp, -, hwlim⟩
    have hall : 16 * (cnt / 16) = cnt := by omega
    rw [hall] at hp hwlim
    rw [if_pos (hexit hwlim)]
    exact hend _ _ si _ fl m hp hwlim

end Loop

/-- A count of 0 makes the loop go on as for `2 ^ 32` bytes. -/
def Counts (d : BitVec 32) (cnt lim : Nat) : Prop := d.toNat = cnt ∨ d = 0#32 ∧ cnt = 2 ^ 32 ∧ lim < cnt

theorem Counts.le {d : BitVec 32} {lim : Nat} (h : Counts d cnt lim) : cnt ≤ 2 ^ 32 := by
  have hlt := d.isLt
  rcases h with h | ⟨_, h, _⟩ <;> omega

theorem comes_ntaLabel {s : State 32} (hQ : Q ⟨⟨30, s⟩, e, r⟩) (h : Comes k Q P ⟨⟨31, s⟩, e, r⟩) :
    Comes k Q P ⟨⟨30, s⟩, e, r⟩ := by
  have hlabel : (text k)[30]? = some (.label .doCopyFaultNta) := rfl
  have hnext : next (text k) ⟨30, s⟩ = some ⟨31, s⟩ := by
    rw [next, hlabel]
    rfl
  exact until_plain hlabel rfl hnext (.inl hQ) (by decide) h

theorem comes_doCopyFaultNta (hsrc : (i386.args o).src = src) (hdst : (i386.args o).dst = dst)
    (hcounts : Counts (i386.args o).count cnt wlim) (hpos : 0 < cnt) (hmod : cnt % 16 = 0)
    (hallows : Allows k src dst cnt rlim wlim Q P) (hcall : i386.Enters k o) (hclear : i386.Clear k o dst wlim)
    (hfault : Recovers k o err src dst cnt wlim (store (pushed k o o.regs.si) (lofault k (thread k o.mem)) err) Q P)
    (hend : ∀ m' p, Progress (store (pushed k o o.regs.si) (lofault k (thread k o.mem)) err) src dst cnt cnt m' →
      cnt ≤ wlim → Returned k o 0#32 (store m' (lofault k (thread k o.mem)) (oldLofault k o)) p → p.errno = e →
      p.rounds = r + cnt / 16 → P p) :
    Comes k Q P ⟨⟨31, outer o err cx dx fl o.mem⟩, e, r⟩ := by
  have hbegin : At (text k) 31 ((doCopyFaultNta k).drop 1) := ⟨_, rfl⟩
  have hlast : At (text k) 58 ((kcopyNtaCopyerr k).take 3) := ⟨_, rfl⟩
  have hm₁ := (holds_pushed (x := o.regs.si) hcall).setLofault hcall err
  have hpushes := base_of_changedIn hcall (pushes_changedIn (o := o) (x := o.regs.si))
  have hold := hpushes.lofault
  have hthread := hpushes.thread
  have hargs := And.intro hm₁.src (And.intro hm₁.dst hm₁.count)
  rw [hsrc, hdst] at hargs
  generalize (i386.args o).count = d at hcounts hargs
  have hlt := d.isLt
  have hd : BitVec.ofNat 32 8 * (d >>> 3) = d := by
    apply eight_mul_shiftRight
    rcases hcounts with h | ⟨rfl, _⟩
    · omega
    · rfl
  have hshift : (d >>> 3).toNat = d.toNat / 8 := by
    rw [BitVec.toNat_ushiftRight, Nat.shiftRight_eq_div_pow]
  have hne (j : Nat) (hj : 0 < j) (hj' : 16 * j < cnt) : BitVec.ofNat 32 (2 * j) ≠ d >>> 3 := by
    have hle := hcounts.le
    rw [← BitVec.toNat_inj.ne, hshift, BitVec.toNat_ofNat, Nat.mod_eq_of_lt (by omega)]
    rcases hcounts with h | ⟨rfl, _⟩
    · omega
    · rw [BitVec.toNat_ofNat]
      omega
  have hexit (hwlim : cnt ≤ wlim) : BitVec.ofNat 32 (2 * (cnt / 16)) = d >>> 3 := by
    have hcount : d.toNat = cnt := hcounts.resolve_right fun h => by omega
    rw [← BitVec.toNat_inj, hshift, BitVec.toNat_ofNat, Nat.mod_eq_of_lt (by omega)]
    omega
  have hstart : Comes k Q P ⟨⟨46, inside o (dst + d) (BitVec.ofNat 32 (2 * 0) - d >>> 3) (thread k o.mem) o.regs.bx
      o.regs.si (src + d) (negative (d >>> 3)).2 (store (pushed k o o.regs.si) (lofault k (thread k o.mem)) err)⟩,
      e, r⟩ := by
    apply comes_ntaLoop hallows hm₁ hclear hd hcounts.le hfault hpos hmod hne hexit
    intro ax cx si di fl m' hp hwlim
    apply comes_run hlast hallows rfl
    simp [inside, kcopyNtaCopyerr]
    apply comes_restore ⟨_, rfl⟩ (.inr rfl) hallows (.inr (by decide)) hcall
      (hm₁.progress hclear hp hwlim)
    intro m'' hm'' hbase
    subst hm''
    exact comes_ret ⟨_, rfl⟩ hallows (.inr (by decide)) hbase fun p hp' => hend m' p hp hwlim hp'
  apply comes_run hbegin hallows rfl
  simp [outer, doCopyFaultNta, hthread, hold, store_pushed, hargs]
  simpa [inside, negative] using hstart

section Strings

def RecoversStr (k : Symbols) (o : State 32) (err src dst : BitVec 32) (cnt lim : Nat) (m : Mem 32)
    (Q P : Point 32 → Prop) : Prop :=
  ∀ cx dx bx fl m' e' j r, Progress m src dst cnt j m' → j ≤ lim → 0 < e'.toInt →
    Comes k Q P ⟨⟨err.toNat, inside o e' cx dx bx o.regs.si (oldLofault k o) fl m'⟩, some e', r⟩

theorem RecoversStr.trapped {m₀ : Mem 32} {s : State 32} {ip j : Nat} {e' : BitVec 32}
    (h : RecoversStr k o err src dst cnt wlim m₀ Q P) (hm₀ : Holds k o x err m₀) (hclear : i386.Clear k o dst wlim)
    (hp : Progress m₀ src dst cnt j m) (hj : j ≤ wlim) (he : 0 < e'.toInt)
    (hs : s = inside o ax cx dx bx o.regs.si (oldLofault k o) fl m) :
    Comes k Q P (Point.trapped (resume k) ⟨⟨ip, s⟩, e, r⟩ e') := by
  have hm := hm₀.progress hclear hp hj
  have hmem : s.mem = m := congrArg State.mem hs
  rw [trapped_eq (s := s) (hmem ▸ hm.thread) (hmem ▸ hm.lofault), hs, BitVec.setWidth_eq]
  exact h cx dx bx fl m e' j r hp hj he

def withLength (last len : BitVec 32) (m : Mem 32) : Mem 32 := if last = 0#32 then m else store m last len

theorem Holds.withLength {last len : BitVec 32} (h : Holds k o x v m) (hlast : last ≠ 0#32 → i386.Clear k o last 4) :
    Holds k o x v (withLength last len m) := by
  rw [Core.withLength]
  split
  next => exact h
  next hne =>
    apply h.changedIn (hlast hne)
    intro b hb
    rw [store, if_neg (Nat.not_lt.mpr hb)]

theorem comes_copystrDone (hallows : Allows k src dst cnt rlim wlim Q P) (hcall : i386.Enters k o)
    (hm : Holds k o o.regs.bx v m)
    (hend : ∀ p, Returned k o ax (store m (lofault k (thread k o.mem)) (oldLofault k o)) p → p.errno = e →
      p.rounds = r → P p) :
    Comes k Q P ⟨⟨212, inside o ax cx dx bx o.regs.si di fl m⟩, e, r⟩ := by
  have hat : At (text k) 212 (((copystrOut k).drop 12).take 7) := ⟨_, rfl⟩
  have hm' := hm.setLofault hcall (oldLofault k o)
  have hthread := hm.thread
  apply comes_late hat hallows (by decide) rfl
  simp [copystrOut, inside, hm.old, hthread, hm'.di, hm'.slot, hm'.bp]
  exact comes_ret ⟨_, rfl⟩ hallows (.inr (by decide)) hm'.toBase hend

theorem comes_copystrOut (hallows : Allows k src dst cnt rlim wlim Q P) (hcall : i386.Enters k o)
    (hlast : (i386.args o).last ≠ 0#32 → i386.Clear k o (i386.args o).last 4) (hm : Holds k o o.regs.bx v m)
    (hend : ∀ p, Returned k o ax (store (withLength (i386.args o).last ((i386.args o).count - cx) m)
      (lofault k (thread k o.mem)) (oldLofault k o)) p → p.errno = e → p.rounds = r → P p) :
    Comes k Q P ⟨⟨205, inside o ax cx dx bx o.regs.si di fl m⟩, e, r⟩ := by
  have hat : At (text k) 205 (((copystrOut k).drop 5).take 7) := ⟨_, rfl⟩
  have hlabel : labelAddr (text k) .copystrDone = 212 := rfl
  have hm' : Holds k o o.regs.bx v (withLength _ ((i386.args o).count - cx) m) := hm.withLength hlast
  have hargs := And.intro hm.count hm.last
  apply comes_late hat hallows (by decide) rfl
  by_cases hzero : (i386.args o).last = 0#32
  · rw [withLength, if_pos hzero] at hend
    rw [hzero] at hargs
    simpa [copystrOut, inside, hargs, hlabel] using comes_copystrDone hallows hcall hm hend
  · rw [withLength, if_neg hzero] at hend hm'
    simpa [copystrOut, inside, hargs, hzero, difference_val] using comes_copystrDone hallows hcall hm' hend

def copystrResult (found : Bool) : BitVec 32 := if found then 0#32 else 78#32

/-- The loop of copystr comes to its end from its head, after `j` bytes and with
`n` to go. -/
def AtByte (k : Symbols) (o : State 32) (src dst : BitVec 32) (e : Option (BitVec 32)) (r : Nat) (Q P : Point 32 → Prop)
    (j n : Nat) (m : Mem 32) : Prop :=
  ∀ ax fl, Comes k Q P ⟨⟨190, inside o ax (BitVec.ofNat 32 n) (dst + BitVec.ofNat 32 j) (src + BitVec.ofNat 32 j)
    o.regs.si (oldLofault k o) fl m⟩, e, r⟩

/-- So it does from the label for a NUL and from the one for too long a name. -/
def AtExit (k : Symbols) (o : State 32) (e : Option (BitVec 32)) (r : Nat) (Q P : Point 32 → Prop) (found : Bool) (n : Nat)
    (m : Mem 32) : Prop :=
  ∀ ax dx bx di fl, Comes k Q P ⟨⟨if found then 203 else 200, inside o ax (BitVec.ofNat 32 n) dx bx o.regs.si di fl m⟩,
    e, r⟩

theorem comes_copystrEnd {j l : Nat} (found : Bool) (hallows : Allows k src dst cnt rlim wlim Q P)
    (hcall : i386.Enters k o) (hlast : (i386.args o).last ≠ 0#32 → i386.Clear k o (i386.args o).last 4)
    (hcount : (i386.args o).count.toNat = j + l) (hm : Holds k o o.regs.bx v m)
    (hend : ∀ p, Returned k o (copystrResult found) (store (withLength (i386.args o).last (BitVec.ofNat 32 j) m)
      (lofault k (thread k o.mem)) (oldLofault k o)) p → p.errno = e → p.rounds = r → P p) :
    AtExit k o e r Q P found l m := by
  intro ax dx bx di fl
  rw [← sub_ofNat_eq hcount] at hend
  cases found with
  | true =>
      have hat : At (text k) 203 (((copystrOut k).drop 3).take 2) := ⟨_, rfl⟩
      apply comes_late hat hallows (by decide) rfl
      simp [copystrOut, inside]
      exact comes_copystrOut hallows hcall hlast hm hend
  | false =>
      have hat : At (text k) 200 ((copystrOut k).take 3) := ⟨_, rfl⟩
      have hout : labelAddr (text k) .copystrOut = 205 := rfl
      apply comes_late hat hallows (by decide) rfl
      simp [copystrOut, inside, hout]
      exact comes_copystrOut hallows hcall hlast hm hend

theorem comes_copystrByte {j n ext : Nat} {m₀ : Mem 32} (hallows : Allows k src dst ext rlim wlim Q P)
    (hm₀ : Holds k o x err m₀) (hclear : i386.Clear k o dst wlim) (hcnt : cnt < 2 ^ 32)
    (hfault : RecoversStr k o err src dst cnt wlim m₀ Q P) (hext : j < ext) (hn : cnt = j + n + 1)
    (hp : Progress m₀ src dst cnt j m) (hrlim : j ≤ rlim) (hwlim : j ≤ wlim)
    (hnext : ∀ m', Progress m₀ src dst cnt (j + 1) m' →
      m' = store m (dst + BitVec.ofNat 32 j) (load 8 m (src + BitVec.ofNat 32 j)) → j + 1 ≤ rlim → j + 1 ≤ wlim →
      AfterByte (load 8 m (src + BitVec.ofNat 32 j)) n (AtExit k o e r Q P · n m')
        (AtByte k o src dst e r Q P (j + 1) n m')) :
    AtByte k o src dst e r Q P j (n + 1) m := by
  have hat : At (text k) 190 copystrLoop := ⟨_, rfl⟩
  have hnull : labelAddr (text k) .copystrNull = 203 := rfl
  have hloop : labelAddr (text k) .copystrLoop = 190 := rfl
  have hzero : BitVec.ofNat 32 n = 0#32 ↔ n = 0 := ofNat_eq_zero_iff (by omega)
  intro ax fl
  apply comes_late (hat.take 2) hallows (by decide) rfl
  simp [copystrLoop, inside, decrement_val, ofNat_succ_sub_one]
  apply until_load (k := j) hat.tail.tail.head rfl hallows (by decide) (by decide)
  · simp
  · omega
  · exact hrlim
  · intro e' he'
    exact hfault.trapped hm₀ hclear hp hwlim he' rfl
  intro hrlim₁
  apply comes_late ((hat.drop 3).take 1) hallows (by decide) rfl
  simp [copystrLoop, increment_val, add_ofNat_add_one]
  apply until_store (k := j) hat.tail.tail.tail.tail.head rfl hallows (by decide) (by decide)
  · simp
  · omega
  · exact hrlim₁
  · exact hwlim
  · intro e' he'
    exact hfault.trapped hm₀ hclear hp hwlim he' rfl
  intro hwlim₁
  obtain ⟨hyes, hno⟩ := hnext _ (hp.store (n := 8) rfl hp le_rfl (by omega) (by omega)) rfl hrlim₁ hwlim₁
  apply comes_late (hat.drop 5) hallows (by decide) rfl
  by_cases hbyte : load 8 m (src + BitVec.ofNat 32 j) = 0#8
  · simp [copystrLoop, increment_val, add_ofNat_add_one, merge_low, hnull, hbyte]
    rw [hbyte] at hyes
    exact hyes rfl _ _ _ _ _
  · by_cases hn0 : n = 0
    · subst hn0
      simp [copystrLoop, increment_val, add_ofNat_add_one, merge_low, hbyte]
      exact (hno hbyte).1 rfl _ _ _ _ _
    · simp [copystrLoop, increment_val, add_ofNat_add_one, merge_low, hloop, hbyte, hzero, hn0]
      exact (hno hbyte).2 hn0 _ _

theorem comes_copystrLoop {n l ext : Nat} {found : Bool} (hallows : Allows k src dst ext rlim wlim Q P)
    (hscan : scan m src dst 0 (n + 1) = (l, found)) (hext : l ≤ ext) (hcall : i386.Enters k o)
    (hm : Holds k o o.regs.bx err m) (hclear : i386.Clear k o dst wlim)
    (hlast : (i386.args o).last ≠ 0#32 → i386.Clear k o (i386.args o).last 4)
    (hcount : (i386.args o).count.toNat = n + 1) (hfault : RecoversStr k o err src dst (n + 1) wlim m Q P)
    (hend : ∀ m' p, Progress m src dst (n + 1) l m' → l ≤ wlim →
      Returned k o (copystrResult found) (store (withLength (i386.args o).last (BitVec.ofNat 32 l) m')
        (lofault k (thread k o.mem)) (oldLofault k o)) p → p.errno = e → p.rounds = r → P p) :
    AtByte k o src dst e r Q P 0 (n + 1) m := by
  have hlt := (i386.args o).count.isLt
  refine scan_rule (AtByte k o src dst e r Q P) (AtExit k o e r Q P) hext ?_ ?_ hscan
    (show n + 1 = 0 + n + 1 by omega) (Progress.zero _ _ _ _) (Nat.zero_le rlim) (Nat.zero_le wlim)
  · intro j n m
    exact comes_copystrByte hallows hm hclear (by omega) hfault
  · intro n' m' hl hp hwlim
    exact comes_copystrEnd found hallows hcall hlast (hcount.trans hl) (hm.progress hclear hp hwlim)
      fun p hp' => hend m' p hp hwlim hp'

theorem comes_doCopystr {ext : Nat} (hsrc : (i386.args o).src = src) (hdst : (i386.args o).dst = dst)
    (hcnt : (i386.args o).count.toNat = cnt) (hallows : Allows k src dst ext rlim wlim Q P)
    (hext : (scan (store (pushed k o o.regs.bx) (lofault k (thread k o.mem)) err) src dst 0 cnt).1 ≤ ext)
    (hcall : i386.Enters k o)
    (hclear : i386.Clear k o dst wlim) (hlast : (i386.args o).last ≠ 0#32 → i386.Clear k o (i386.args o).last 4)
    (hfault : RecoversStr k o err src dst cnt wlim (store (pushed k o o.regs.bx) (lofault k (thread k o.mem)) err) Q P)
    (hend : ∀ l found m' p,
      scan (store (pushed k o o.regs.bx) (lofault k (thread k o.mem)) err) src dst 0 cnt = (l, found) →
      Progress (store (pushed k o o.regs.bx) (lofault k (thread k o.mem)) err) src dst cnt l m' → l ≤ wlim →
      Returned k o (copystrResult found) (store (withLength (i386.args o).last (BitVec.ofNat 32 l) m')
        (lofault k (thread k o.mem)) (oldLofault k o)) p → p.errno = e → p.rounds = r → P p) :
    Comes k Q P ⟨⟨176, outer o err cx dx fl o.mem⟩, e, r⟩ := by
  have hat : At (text k) 176 (doCopystr k) := ⟨_, rfl⟩
  have htoolong : labelAddr (text k) .copystrEnametoolong = 200 := rfl
  have hm₁ := (holds_pushed (x := o.regs.bx) hcall).setLofault hcall err
  have hpushes := base_of_changedIn hcall (pushes_changedIn (o := o) (x := o.regs.bx))
  have hold := hpushes.lofault
  have hthread := hpushes.thread
  have hargs := And.intro hm₁.src (And.intro hm₁.dst hm₁.count)
  rw [hsrc, hdst] at hargs
  apply comes_late hat hallows (by decide) rfl
  by_cases hzero : (i386.args o).count = 0#32
  · obtain rfl : cnt = 0 := by rw [← hcnt, hzero]; rfl
    have hexit : Comes k Q P ⟨⟨200, inside o err 0#32 dx (thread k o.mem) o.regs.si (oldLofault k o)
        (difference 0#32 0#32 false).2 _⟩, e, r⟩ :=
      comes_copystrEnd (j := 0) (l := 0) false hallows hcall hlast hcnt hm₁
        (fun p hp => hend 0 false _ p rfl (Progress.zero _ _ _ _) (Nat.zero_le _) hp) _ _ _ _ _
    rw [hzero] at hargs
    simp [outer, doCopystr, hthread, hold, store_pushed, hargs, htoolong]
    exact hexit
  · have hne : cnt ≠ 0 := fun h => hzero (BitVec.eq_of_toNat_eq (hcnt.trans h))
    obtain ⟨n, rfl⟩ : ∃ n, cnt = n + 1 := ⟨cnt - 1, by omega⟩
    have hofNat : BitVec.ofNat 32 (n + 1) = (i386.args o).count := by
      rw [← hcnt, BitVec.ofNat_toNat, BitVec.setWidth_eq]
    have hstart : Comes k Q P ⟨⟨190, inside o err (BitVec.ofNat 32 (n + 1)) (dst + 0#32) (src + 0#32) o.regs.si
        (oldLofault k o) (difference 0#32 (i386.args o).count false).2 _⟩, e, r⟩ :=
      comes_copystrLoop hallows rfl hext hcall hm₁ hclear hlast hcnt hfault (fun m' p => hend _ _ m' p rfl) _ _
    rw [hofNat, BitVec.add_zero, BitVec.add_zero] at hstart
    simp [outer, doCopystr, hthread, hold, store_pushed, hargs, hzero]
    exact hstart

end Strings

end SysvDev.Copy.I386.Core
