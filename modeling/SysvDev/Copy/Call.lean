import SysvDev.Copy.Text
import SysvDev.X86.Traps

namespace SysvDev.Copy.Call

open X86.Memory X86.Machine X86.Run X86.Strings X86.Traps Inevitable Text

variable {w : Nat} {k : Symbols}

def thread (k : Symbols) (m : Mem w) : BitVec w := load w m (BitVec.ofInt w k.cpuThread)

def lofault (k : Symbols) (t : BitVec w) : BitVec w := t + BitVec.ofInt w k.tLofault

def copyops (k : Symbols) (t : BitVec w) : BitVec w := t + BitVec.ofInt w k.tCopyops

def kernelbase (k : Symbols) (m : Mem w) : BitVec w := load w m (BitVec.ofInt w k.kernelbase)

theorem add_tLofault (t : BitVec w) : t + BitVec.ofInt w k.tLofault = lofault k t := rfl

theorem add_tCopyops (t : BitVec w) : t + BitVec.ofInt w k.tCopyops = copyops k t := rfl

theorem load_cpuThread (m : Mem w) : load w m (BitVec.ofInt w k.cpuThread) = thread k m := rfl

theorem load_kernelbase (m : Mem w) : load w m (BitVec.ofInt w k.kernelbase) = kernelbase k m := rfl

/-- Where the parts of a routine are: its beginning and what stands at its error
label, both behind `loop`, and how far from there its two other labels are. -/
structure Sites (text : List (Line Label)) (f : Routine) (entry err : List (Line Label)) (n m loop : Nat) :
    Prop where
  entry : At text (labelAddr text (.entry f)) entry
  err : At text (labelAddr text (.err f)) err
  three : labelAddr text (.three f) = labelAddr text (.err f) + n
  two : labelAddr text (.two f) = labelAddr text (.err f) + n + m
  entry_after : loop < labelAddr text (.entry f)
  err_after : loop < labelAddr text (.err f)
  err_lt : labelAddr text (.err f) < 2 ^ 32

/-- The trap handler goes on at the lofault of the thread. -/
def resume (k : Symbols) (s : State w) : Nat := (load w s.mem (lofault k (thread k s.mem))).toNat

theorem trapped_eq {s : State w} {t err : BitVec w} {ip r : Nat} {e : Option (BitVec 32)} {e' : BitVec 32}
    (ht : thread k s.mem = t) (herr : load w s.mem (lofault k t) = err) :
    Point.trapped (resume k) ⟨⟨ip, s⟩, e, r⟩ e' =
      ⟨⟨err.toNat, { s with regs := { s.regs with ax := e'.setWidth w } }⟩, some e', r⟩ := by
  rw [Point.trapped, resume, ht, herr]

/-- The arguments of a call. The last one is the hint of a copy and the place
for the length of a string. -/
structure Args (w : Nat) where
  src : BitVec w
  dst : BitVec w
  count : BitVec w
  last : BitVec w

def isIn : Routine → Bool
  | .copyin | .xcopyinNta | .copyinstr => true
  | .copyout | .xcopyoutNta | .copyoutstr => false

def userAddr (f : Routine) (src dst : BitVec w) : BitVec w := if isIn f then src else dst

/-- The word of the copyops with the routine that `f` hands its work over to. -/
def hook (k : Symbols) (o : State w) (f : Routine) : BitVec w :=
  load w o.mem (copyops k (thread k o.mem)) + BitVec.ofInt w (k.cp f)

def hooks (k : Symbols) (o : State w) : List (Span w) :=
  if load w o.mem (copyops k (thread k o.mem)) = 0#w then []
  else [.copyin, .xcopyinNta, .copyout, .xcopyoutNta, .copyinstr, .copyoutstr].map fun f => (hook k o f, w / 8)

theorem hook_mem {o : State w} (f : Routine) (h : load w o.mem (copyops k (thread k o.mem)) ≠ 0#w) :
    (hook k o f, w / 8) ∈ hooks k o := by
  rw [hooks, if_neg h]
  cases f <;> simp

/-- What distinguishes the two instruction sets: the text, where the arguments
are, how many bytes a call uses below and above its stack pointer, the words
that it reads, and the registers that it leaves as they were. -/
structure Port (w : Nat) where
  text : Symbols → List (Line Label)
  args : State w → Args w
  below : Nat
  above : Nat
  globals : Symbols → List Int
  saved : List Reg

def amd64 : Port 64 where
  text := Amd64.text
  args s := ⟨s.regs.di, s.regs.si, s.regs.dx, s.regs.cx⟩
  below := 40
  above := 8
  globals k := [k.cpuThread, k.kernelbase]
  saved := [.bx, .bp, .r12, .r13, .r14, .r15]

def i386 : Port 32 where
  text := I386.text
  args s := ⟨load 32 s.mem (s.regs.sp + 4#32), load 32 s.mem (s.regs.sp + 8#32), load 32 s.mem (s.regs.sp + 12#32),
    load 32 s.mem (s.regs.sp + 16#32)⟩
  below := 16
  above := 20
  globals k := [k.cpuThread, k.kernelbase, k.useSseCopy]
  saved := [.bx, .bp, .si, .di]

namespace Port

variable (port : Port w) (k : Symbols) (o : State w)

/-- The steps of a call. The rounds that are counted are those of the loop. -/
abbrev Runs : Point w → Point w → Prop :=
  TrapStep (port.text k) (resume k) (labelAddr (port.text k) .ntaLoop)

def start (l : Label) : Point w := ⟨⟨labelAddr (port.text k) l, o⟩, none, 0⟩

def IsHigh (f : Routine) : Prop := (kernelbase k o.mem).toNat ≤ (userAddr f (port.args o).src (port.args o).dst).toNat

def regions : List (Span w) :=
  (o.regs.sp - BitVec.ofNat w port.below, port.below + port.above) ::
    (lofault k (thread k o.mem), w / 8) :: (copyops k (thread k o.mem), w / 8) ::
    ((port.globals k).map (fun a => (BitVec.ofInt w a, w / 8)) ++ hooks k o)

/-- A call that may be made. The copyops, if there are any, are not in the
text. -/
structure Enters : Prop where
  df : o.df = false
  ret : (port.text k).length ≤ (load w o.mem o.regs.sp).toNat
  apart : (port.regions k o).Pairwise fun x y => Apart x.1 x.2 y.1 y.2
  hooks : load w o.mem (copyops k (thread k o.mem)) ≠ 0#w → ∀ f,
    (port.text k).length ≤ (load w o.mem (hook k o f)).toNat

/-- A call that may be made, with no copyops installed. -/
structure Admits : Prop where
  df : o.df = false
  copyops : load w o.mem (copyops k (thread k o.mem)) = 0#w
  ret : (port.text k).length ≤ (load w o.mem o.regs.sp).toNat
  apart : (port.regions k o).Pairwise fun x y => Apart x.1 x.2 y.1 y.2

/-- The first `cnt` bytes at `a` are none of the memory of the call. -/
def Clear (a : BitVec w) (cnt : Nat) : Prop := ∀ x ∈ port.regions k o, Outside x.1 x.2 a cnt

def Own (m : Mem w) : Prop := ∀ b, (∀ x ∈ port.regions k o, x.2 ≤ (b - x.1).toNat) → m b = o.mem b

structure Exit (p : Point w) : Prop where
  ip : p.cfg.ip = (load w o.mem o.regs.sp).toNat
  sp : p.cfg.state.regs.sp = o.regs.sp + BitVec.ofNat w (w / 8)
  saved : ∀ r ∈ port.saved, p.cfg.state.regs.get r = o.regs.get r
  lofault : load w p.cfg.state.mem (lofault k (thread k o.mem)) = load w o.mem (Call.lofault k (thread k o.mem))

/-- The call goes on in the copyop for `f`, as if that had been called. -/
structure Hands (f : Routine) (p : Point w) : Prop where
  installed : load w o.mem (copyops k (thread k o.mem)) ≠ 0#w
  ip : p.cfg.ip = (load w o.mem (hook k o f)).toNat
  sp : p.cfg.state.regs.sp = o.regs.sp
  ret : load w p.cfg.state.mem o.regs.sp = load w o.mem o.regs.sp
  saved : ∀ r ∈ port.saved, p.cfg.state.regs.get r = o.regs.get r
  lofault : load w p.cfg.state.mem (lofault k (thread k o.mem)) = load w o.mem (Call.lofault k (thread k o.mem))

/-- A call that was entered at `l` is over: it has returned, or a copyop goes on
with its work. -/
def Leaves (l : Label) (p : Point w) : Prop := port.Exit k o p ∨ ∃ f, l = .entry f ∧ port.Hands k o f p

/-- The first `j` of `cnt` bytes have been copied, and nothing else but the
memory of the call has changed. -/
structure Moved (src dst : BitVec w) (cnt j : Nat) (m : Mem w) : Prop where
  data : cnt ≤ (dst - src).toNat → ∀ i < j, m (dst + BitVec.ofNat w i) = o.mem (src + BitVec.ofNat w i)
  rest : ∀ b, j ≤ (b - dst).toNat → (∀ x ∈ port.regions k o, x.2 ≤ (b - x.1).toNat) → m b = o.mem b

end Port

open Port

variable {port : Port w} {o : State w} {m m₀ : Mem w} {src dst a b : BitVec w} {x : Span w} {cnt lim j : Nat}

theorem Port.Admits.enters (h : port.Admits k o) : port.Enters k o :=
  ⟨h.df, h.ret, h.apart, absurd h.copyops⟩

theorem Port.Admits.not_hands {f : Routine} {p : Point w} (h : port.Admits k o) : ¬ port.Hands k o f p :=
  fun hp => hp.installed h.copyops

theorem Port.Exit.length_le {p : Point w} (h : port.Exit k o p) (hcall : port.Enters k o) :
    (port.text k).length ≤ p.cfg.ip := by
  rw [h.ip]
  exact hcall.ret

theorem Port.Exit.stops {p q : Point w} (h : port.Exit k o p) (hcall : port.Enters k o) : ¬ port.Runs k p q :=
  fun hstep => Nat.not_lt.mpr (h.length_le hcall) hstep.ip_lt

theorem Port.Leaves.length_le {l : Label} {p : Point w} (h : port.Leaves k o l p) (hcall : port.Enters k o) :
    (port.text k).length ≤ p.cfg.ip := by
  rcases h with h | ⟨f, -, h⟩
  · exact h.length_le hcall
  · rw [h.ip]
    exact hcall.hooks h.installed f

theorem Port.Leaves.stops {l : Label} {p q : Point w} (h : port.Leaves k o l p) (hcall : port.Enters k o) :
    ¬ port.Runs k p q :=
  fun hstep => Nat.not_lt.mpr (h.length_le hcall) hstep.ip_lt

theorem Port.hook_mem (f : Routine) (h : load w o.mem (copyops k (thread k o.mem)) ≠ 0#w) :
    (hook k o f, w / 8) ∈ (port.regions k o).tail.tail := .tail _ (List.mem_append_right _ (Call.hook_mem f h))

theorem Port.Enters.frame_apart (h : port.Enters k o) (hx : x ∈ (port.regions k o).tail) (hj : j ≤ port.below + port.above) :
    Apart (o.regs.sp - BitVec.ofNat w port.below) j x.1 x.2 :=
  have hapart := List.rel_of_pairwise_cons h.apart hx
  ⟨hj.trans hapart.1, hapart.2⟩

theorem Port.Enters.lofault_apart (h : port.Enters k o) (hx : x ∈ (port.regions k o).tail.tail) :
    Apart (lofault k (thread k o.mem)) (w / 8) x.1 x.2 :=
  (List.pairwise_cons.mp (List.pairwise_cons.mp h.apart).2).1 x hx

theorem Port.Own.store {n : Nat} {v : BitVec n} (h : port.Own k o m) (hx : x ∈ port.regions k o)
    (hb : (b - x.1).toNat + n / 8 ≤ x.2) : port.Own k o (store m b v) := by
  intro c hc
  have heq : x.1 + (b - x.1) = b := by ring
  rw [← h c hc, ← heq]
  exact store_outside (hc x hx) hb

theorem Port.Clear.mono (h : port.Clear k o a cnt) (hlim : lim ≤ cnt) : port.Clear k o a lim :=
  fun x hx i hi => h x hx i (Nat.lt_of_lt_of_le hi hlim)

theorem Port.Clear.load (h : port.Clear k o a lim) (hm : ChangedIn a lim m₀ m) (hx : x ∈ port.regions k o)
    (hb : (b - x.1).toNat + w / 8 ≤ x.2) : load w m b = load w m₀ b :=
  (h x hx).load hm hb

theorem moved_of_progress {v : BitVec w} (hsrc : port.Clear k o src cnt) (hdst : port.Clear k o dst cnt)
    (hm : port.Own k o m₀) (hp : Progress m₀ src dst cnt j m) (hj : j ≤ cnt) (hcnt : cnt ≤ 2 ^ w) :
    port.Moved k o src dst cnt j (store m (lofault k (thread k o.mem)) v) := by
  have hmem : (lofault k (thread k o.mem), w / 8) ∈ port.regions k o := .tail _ (.head _)
  have hstore (b : BitVec w) (hb : w / 8 ≤ (b - lofault k (thread k o.mem)).toNat) :
      store m (lofault k (thread k o.mem)) v b = m b := by
    rw [store, if_neg (Nat.not_lt.mpr hb)]
  constructor
  · intro hclear i hi
    rw [hstore _ (hdst _ hmem i (by omega)), hp.copied hclear, copied_inside (by omega) (Nat.zero_le i) hi]
    exact hm _ fun x hx => hsrc x hx i (by omega)
  · intro b hb hown
    rw [hstore b (hown _ hmem), hp.outside b hb, hm b hown]

/-- What copystr goes through from byte `j` on, with `n` bytes to go: where it
ends, and whether it has come to a NUL. The copy is made on the way. -/
def scan (m : Mem w) (src dst : BitVec w) (j : Nat) : Nat → Nat × Bool
  | 0 => (j, false)
  | n + 1 =>
      if load 8 m (src + BitVec.ofNat w j) = 0#8 then (j + 1, true)
      else scan (store m (dst + BitVec.ofNat w j) (load 8 m (src + BitVec.ofNat w j))) src dst (j + 1) n

theorem le_scan (m : Mem w) (src dst : BitVec w) (j n : Nat) : j ≤ (scan m src dst j n).1 := by
  induction n generalizing m j with
  | zero => exact le_rfl
  | succ n ih =>
      rw [scan]
      split
      · exact Nat.le_succ j
      · exact (Nat.le_succ j).trans (ih _ _)

theorem lt_scan (m : Mem w) (src dst : BitVec w) (j n : Nat) : j < (scan m src dst j (n + 1)).1 := by
  rw [scan]
  split
  · exact Nat.lt_succ_self j
  · exact Nat.lt_of_succ_le (le_scan _ _ _ _ _)

theorem scan_le (m : Mem w) (src dst : BitVec w) (j n : Nat) : (scan m src dst j n).1 ≤ j + n := by
  induction n generalizing m j with
  | zero => exact le_rfl
  | succ n ih =>
      rw [scan]
      split
      · exact Nat.add_le_add_left (Nat.le_add_left 1 n) j
      · have h := ih (store m (dst + BitVec.ofNat w j) (load 8 m (src + BitVec.ofNat w j))) (j + 1)
        rwa [Nat.add_right_comm] at h

theorem scan_congr {n : Nat} (h : ∀ i, j ≤ i → i < (scan m src dst j n).1 →
    m₀ (src + BitVec.ofNat w i) = m (src + BitVec.ofNat w i)) : scan m₀ src dst j n = scan m src dst j n := by
  induction n generalizing m m₀ j with
  | zero => rfl
  | succ n ih =>
      have hload : load 8 m₀ (src + BitVec.ofNat w j) = load 8 m (src + BitVec.ofNat w j) := by
        simp only [load, loadNat, h j le_rfl (lt_scan m src dst j n)]
      rw [scan] at h
      rw [scan, scan, hload]
      split
      · rfl
      next hnul =>
        rw [if_neg hnul] at h
        apply ih
        intro i hi hlt
        rw [store, store]
        split
        · rfl
        · exact h i (Nat.le_of_succ_le hi) hlt

theorem ofNat_succ_sub_one (n : Nat) : BitVec.ofNat w (n + 1) - 1#w = BitVec.ofNat w n := by
  rw [BitVec.ofNat_add, BitVec.add_sub_cancel]

theorem add_ofNat (a : BitVec w) (i j : Nat) : a + BitVec.ofNat w i + BitVec.ofNat w j = a + BitVec.ofNat w (i + j) := by
  rw [BitVec.ofNat_add, BitVec.add_assoc]

theorem add_ofNat_add_one (a : BitVec w) (j : Nat) : a + BitVec.ofNat w j + 1#w = a + BitVec.ofNat w (j + 1) :=
  add_ofNat a j 1

theorem ofNat_eq_zero_iff {n : Nat} (h : n < 2 ^ w) : BitVec.ofNat w n = 0#w ↔ n = 0 := by
  rw [← BitVec.toNat_inj, BitVec.toNat_ofNat, Nat.mod_eq_of_lt h, BitVec.toNat_zero]

theorem sub_ofNat_eq {c : BitVec w} {i n : Nat} (h : c.toNat = i + n) : c - BitVec.ofNat w n = BitVec.ofNat w i := by
  have hc : c = BitVec.ofNat w i + BitVec.ofNat w n := by
    rw [← BitVec.ofNat_add, ← h, BitVec.ofNat_toNat, BitVec.setWidth_eq]
  rw [hc, BitVec.add_sub_cancel]

/-- What copystr goes on to after a byte, with `n` to go. -/
def AfterByte (byte : BitVec 8) (n : Nat) (Out : Bool → Prop) (Loop : Prop) : Prop :=
  (byte = 0#8 → Out true) ∧ (byte ≠ 0#8 → (n = 0 → Out false) ∧ (n ≠ 0 → Loop))

/-- The loop of copystr, from what it does for a byte: `Loop j n` is its head
after `j` bytes with `n` to go, `Out found n` an exit. -/
theorem scan_rule {ext rlim wlim l n : Nat} {found : Bool} (Loop : Nat → Nat → Mem w → Prop)
    (Out : Bool → Nat → Mem w → Prop) (hext : l ≤ ext)
    (hbyte : ∀ j n m, j < ext → cnt = j + n + 1 → Progress m₀ src dst cnt j m → j ≤ rlim → j ≤ wlim →
      (∀ m', Progress m₀ src dst cnt (j + 1) m' →
        m' = store m (dst + BitVec.ofNat w j) (load 8 m (src + BitVec.ofNat w j)) → j + 1 ≤ rlim → j + 1 ≤ wlim →
        AfterByte (load 8 m (src + BitVec.ofNat w j)) n (Out · n m') (Loop (j + 1) n m')) → Loop j (n + 1) m)
    (hout : ∀ n m, cnt = l + n → Progress m₀ src dst cnt l m → l ≤ wlim → Out found n m)
    (hscan : scan m src dst j (n + 1) = (l, found)) (hn : cnt = j + n + 1) (hp : Progress m₀ src dst cnt j m)
    (hrlim : j ≤ rlim) (hwlim : j ≤ wlim) : Loop j (n + 1) m := by
  induction n generalizing j m with
  | zero =>
      have hj := lt_scan m src dst j 0
      rw [hscan] at hj
      rw [scan, scan] at hscan
      apply hbyte j 0 m (hj.trans_le hext) hn hp hrlim hwlim
      intro m' hp' _ _ hwlim'
      refine ⟨fun hnul => ?_, fun hnul => ⟨fun _ => ?_, fun hne => absurd rfl hne⟩⟩
      · rw [if_pos hnul] at hscan
        cases hscan
        exact hout 0 m' hn hp' hwlim'
      · rw [if_neg hnul] at hscan
        cases hscan
        exact hout 0 m' hn hp' hwlim'
  | succ n ih =>
      have hj := lt_scan m src dst j (n + 1)
      rw [hscan] at hj
      rw [scan] at hscan
      apply hbyte j (n + 1) m (hj.trans_le hext) hn hp hrlim hwlim
      intro m' hp' hm' hrlim' hwlim'
      refine ⟨fun hnul => ?_, fun hnul => ⟨fun hzero => absurd hzero (Nat.succ_ne_zero n), fun _ => ?_⟩⟩
      · rw [if_pos hnul] at hscan
        cases hscan
        exact hout (n + 1) m' (by omega) hp' hwlim'
      · rw [if_neg hnul, ← hm'] at hscan
        exact ih hscan (by omega) hp' hrlim' hwlim'

theorem round_addr {d : BitVec w} (hd : BitVec.ofNat w 8 * (d >>> 3) = d) (a : BitVec w) (i : Nat) :
    a + d + BitVec.ofNat w 8 * (BitVec.ofNat w (2 * i) - d >>> 3) = a + BitVec.ofNat w (16 * i) := by
  have hi : BitVec.ofNat w (16 * i) = BitVec.ofNat w 8 * BitVec.ofNat w (2 * i) := by
    rw [← BitVec.ofNat_mul, ← Nat.mul_assoc]
  rw [hi, mul_sub, hd]
  ring

theorem loop_addr {d c : BitVec w} (hd : BitVec.ofNat w 8 * (d >>> 3) = d) (i j : Nat) (hc : c = BitVec.ofNat w j) :
    a + d + BitVec.ofNat w 8 * (BitVec.ofNat w (2 * i) - d >>> 3) + c = a + BitVec.ofNat w (16 * i + j) := by
  rw [round_addr hd, hc, add_ofNat]

theorem loop_index (d : BitVec w) (i : Nat) :
    BitVec.ofNat w (2 * i) - d + BitVec.ofNat w 2 = BitVec.ofNat w (2 * (i + 1)) - d := by
  rw [Nat.mul_succ, BitVec.ofNat_add]
  ring

theorem loop_cond (d : BitVec w) (i : Nat) :
    Cond.ne.eval (sum (BitVec.ofNat w 2) (BitVec.ofNat w (2 * i) - d) false).2 =
      some !decide (BitVec.ofNat w (2 * (i + 1)) = d) := by
  have hzero : (BitVec.ofNat w (2 * (i + 1)) - d == 0#w) = decide (BitVec.ofNat w (2 * (i + 1)) = d) := by
    rw [Bool.eq_iff_iff, beq_iff_eq, decide_eq_true_iff]
    exact sub_eq_zero
  rw [Cond.eval, sum_zf, loop_index, hzero]
  rfl

theorem eight_mul_shiftRight {d : BitVec w} (h : d.toNat % 8 = 0) : BitVec.ofNat w 8 * (d >>> 3) = d := by
  apply BitVec.eq_of_toNat_eq
  have hlt := d.isLt
  have hdiv : d.toNat >>> 3 = d.toNat / 8 := Nat.shiftRight_eq_div_pow _ 3
  rw [BitVec.toNat_mul, BitVec.toNat_ofNat, BitVec.toNat_ushiftRight, Nat.mod_mul_mod, hdiv, Nat.mod_eq_of_lt] <;> omega

theorem loop_index_iff {d : BitVec w} {j : Nat} (hmod : d.toNat % 16 = 0) (hj : 16 * j ≤ d.toNat) :
    BitVec.ofNat w (2 * j) = d >>> 3 ↔ 16 * j = d.toNat := by
  have hlt := d.isLt
  have hdiv : d.toNat >>> 3 = d.toNat / 8 := Nat.shiftRight_eq_div_pow _ 3
  rw [← BitVec.toNat_inj, BitVec.toNat_ushiftRight, hdiv, BitVec.toNat_ofNat, Nat.mod_eq_of_lt] <;> omega

/-- A loop that copies 16 bytes a round goes back to `head` until the index is
`d`. `R ip i` is what holds at `ip` after `i` rounds. -/
theorem loop_rounds {C : Type} {G : C → Prop} {d : BitVec w} {cnt : Nat} (head out : Nat) (R : Nat → Nat → C → Prop)
    (hround : ∀ i c, 16 * (i + 1) ≤ cnt → R head i c →
      (∀ c', R (if BitVec.ofNat w (2 * (i + 1)) = d then out else head) (i + 1) c' → G c') → G c)
    (hne : ∀ j, 0 < j → 16 * j < cnt → BitVec.ofNat w (2 * j) ≠ d)
    (hend : ∀ c, R (if BitVec.ofNat w (2 * (cnt / 16)) = d then out else head) (cnt / 16) c → G c)
    (hmod : cnt % 16 = 0) {i : Nat} {c : C} (hi : 16 * i < cnt) (hc : R head i c) : G c := by
  obtain ⟨n, hn⟩ : ∃ n, cnt / 16 = i + n + 1 := ⟨cnt / 16 - i - 1, by omega⟩
  induction n generalizing i c with
  | zero =>
      apply hround i c (by omega) hc
      rwa [hn] at hend
  | succ n ih =>
      apply hround i c (by omega) hc
      intro c' hc'
      rw [if_neg (hne _ (Nat.succ_pos i) (by omega))] at hc'
      exact ih (by omega) hc' (by omega)

/-- NTA_ALIGN_SIZE and COUNT_ALIGN_SIZE are kept to. -/
def Aligned (src dst count : BitVec w) : Prop := src.toNat % 4 = 0 ∧ dst.toNat % 4 = 0 ∧ count.toNat % 16 = 0

instance (src dst count : BitVec w) : Decidable (Aligned src dst count) := inferInstanceAs (Decidable (_ ∧ _))

theorem aligned_iff {count : BitVec w} (hw : 4 < w) :
    ((src ||| dst) &&& BitVec.ofNat w 3 ||| count) &&& BitVec.ofNat w 15 = 0#w ↔ Aligned src dst count := by
  have hpow : 2 ^ 5 ≤ 2 ^ w := Nat.pow_le_pow_right (by decide) hw
  have hthree : (BitVec.ofNat w 3).toNat = 2 ^ 2 - 1 := by
    rw [BitVec.toNat_ofNat, Nat.mod_eq_of_lt (by omega)]
    rfl
  have hfifteen : (BitVec.ofNat w 15).toNat = 2 ^ 4 - 1 := by
    rw [BitVec.toNat_ofNat, Nat.mod_eq_of_lt (by omega)]
    rfl
  have hmod : (src.toNat ||| dst.toNat) % 2 ^ 2 % 2 ^ 4 = (src.toNat ||| dst.toNat) % 2 ^ 2 := by omega
  rw [← BitVec.toNat_inj, BitVec.toNat_and, BitVec.toNat_or, BitVec.toNat_and, BitVec.toNat_or, hthree, hfifteen,
    Nat.and_two_pow_sub_one_eq_mod, Nat.and_two_pow_sub_one_eq_mod, Nat.or_mod_two_pow, hmod, Nat.or_mod_two_pow,
    BitVec.toNat_ofNat, Nat.zero_mod, Nat.or_eq_zero_iff, Nat.or_eq_zero_iff, and_assoc]
  rfl

def slot : Routine → Int
  | .copyin => 0
  | .xcopyinNta => 8
  | .copyout => 16
  | .xcopyoutNta => 24
  | .copyinstr => 32
  | .copyoutstr => 40

def symbols : Symbols := ⟨0x1000, 0x1008, 0x1010, 16, 24, slot⟩

def kernelMem (w : Nat) : Mem w :=
  store (store (store (store (fun _ => 0#8) 0x1000#w 0x3000#w) 0x1008#w 0x800#w) 0x1010#w 1#w) 0x2000#w 0x9000#w

def call64 (a : Args 64) : State 64 :=
  ⟨⟨0, a.last, a.count, 0, 0x2000, 0, a.dst, a.src, .zero⟩, undefinedFlags, false, kernelMem 64⟩

def call32 (a : Args 32) : State 32 :=
  ⟨⟨0, 0, 0, 0, 0x2000, 0, 0, 0, .zero⟩, undefinedFlags, false,
    store (store (store (store (kernelMem 32) 0x2004#32 a.src) 0x2008#32 a.dst) 0x200c#32 a.count) 0x2010#32 a.last⟩

end SysvDev.Copy.Call
