import SysvDev.Copy.I386.Core
import SysvDev.X86.Accesses
import SysvDev.X86.Words

namespace SysvDev.Copy.Copystr

open X86.Memory X86.Machine X86.Machine.Att X86.Run X86.Strings X86.Accesses X86.Words Inevitable Text Call

set_option maxRecDepth 2000

section Strings

variable {bytes bytes' : Nat → BitVec 8} {max i j : Nat}

/-- The first NUL among `max` bytes, or `max`. -/
def nulIndex (bytes : Nat → BitVec 8) (max : Nat) : Nat := (List.range max).findIdx fun i => bytes i == 0#8

/-- The bytes up to and with the first NUL, or `max`. -/
def copyLength (bytes : Nat → BitVec 8) (max : Nat) : Nat := min (nulIndex bytes max + 1) max

/-- The result of copystr: ENAMETOOLONG where there is no NUL. -/
def errno (bytes : Nat → BitVec 8) (max : Nat) : BitVec 32 :=
  if nulIndex bytes max < max then 0#32 else BitVec.ofInt 32 enametoolong

theorem nulIndex_le : nulIndex bytes max ≤ max := by
  have hle : nulIndex bytes max ≤ (List.range max).length := List.findIdx_le_length
  rwa [List.length_range] at hle

theorem byte_ne (h : i < nulIndex bytes max) : bytes i ≠ 0#8 := by
  simpa using List.not_of_lt_findIdx h

theorem byte_nulIndex (h : nulIndex bytes max < max) : bytes (nulIndex bytes max) = 0#8 := by
  have hlength : nulIndex bytes max < (List.range max).length := by simpa using h
  have hfound : (bytes (List.range max)[nulIndex bytes max] == 0#8) = true := List.findIdx_getElem (w := hlength)
  rwa [List.getElem_range, beq_iff_eq] at hfound

theorem nulIndex_eq (hj : j ≤ nulIndex bytes max) (h : bytes j = 0#8) : nulIndex bytes max = j := by
  by_contra hne
  exact byte_ne (Nat.lt_of_le_of_ne hj (Ne.symm hne)) h

theorem lt_nulIndex (hj : j ≤ nulIndex bytes max) (hmax : j < max) (h : bytes j ≠ 0#8) : j < nulIndex bytes max := by
  by_contra hge
  have heq : nulIndex bytes max = j := Nat.le_antisymm (Nat.le_of_not_lt hge) hj
  exact h (heq ▸ byte_nulIndex (heq.symm ▸ hmax))

theorem nulIndex_congr (h : ∀ i < max, bytes i = bytes' i) : nulIndex bytes max = nulIndex bytes' max := by
  rcases Nat.lt_trichotomy (nulIndex bytes max) (nulIndex bytes' max) with hlt | heq | hgt
  · have hmax := hlt.trans_le nulIndex_le
    exact absurd ((h _ hmax).symm.trans (byte_nulIndex hmax)) (byte_ne hlt)
  · exact heq
  · have hmax := hgt.trans_le nulIndex_le
    exact absurd ((h _ hmax).trans (byte_nulIndex hmax)) (byte_ne hgt)

end Strings

section Memory

variable {w : Nat} {k : Symbols} {s : State w} {a : Args w} {below above j : Nat} {m m₁ : Mem w}

def source (m : Mem w) (src : BitVec w) (i : Nat) : BitVec 8 := m (src + BitVec.ofNat w i)

def length (s : State w) (a : Args w) : Nat := copyLength (source s.mem a.src) a.count.toNat

def result (s : State w) (a : Args w) : BitVec 32 := errno (source s.mem a.src) a.count.toNat

abbrev frame (s : State w) (below : Nat) : BitVec w := s.regs.sp - BitVec.ofNat w below

abbrev lofaultOf (k : Symbols) (s : State w) : BitVec w := lofault k (thread k s.mem)

abbrev cpuThread (k : Symbols) : BitVec w := BitVec.ofInt w k.cpuThread

/-- A call with `below` bytes of frame, and `above` bytes with its return address
and arguments. The ranges of the copy and the place for the length are apart
from each other and from the memory of the call itself. -/
structure Entered (k : Symbols) (s : State w) (a : Args w) (below above : Nat) : Prop where
  disjoint : Apart a.src (length s a) a.dst (length s a)
  source_frame : Outside (frame s below) below a.src (length s a)
  target_stack : Outside (frame s below) (below + above) a.dst (length s a)
  target_lofault : Outside (lofaultOf k s) (w / 8) a.dst (length s a)
  target_thread : Outside (cpuThread k) (w / 8) a.dst (length s a)
  last_stack : a.last ≠ 0#w → Outside (frame s below) (below + above) a.last (w / 8)
  last_lofault : a.last ≠ 0#w → Outside (lofaultOf k s) (w / 8) a.last (w / 8)
  last_thread : a.last ≠ 0#w → Outside (cpuThread k) (w / 8) a.last (w / 8)
  last_target : a.last ≠ 0#w → Outside a.last (w / 8) a.dst (length s a)
  stack_lofault : Apart (frame s below) (below + above) (lofaultOf k s) (w / 8)
  stack_thread : Apart (frame s below) (below + above) (cpuThread k) (w / 8)

structure Copied (k : Symbols) (s : State w) (a : Args w) (below : Nat) (m : Mem w) : Prop where
  data : ∀ i < length s a, m (a.dst + BitVec.ofNat w i) = source s.mem a.src i
  last : a.last ≠ 0#w → load w m a.last = BitVec.ofNat w (length s a)
  rest : ∀ b, length s a ≤ (b - a.dst).toNat → (a.last ≠ 0#w → w / 8 ≤ (b - a.last).toNat) →
    below ≤ (b - frame s below).toNat → m b = s.mem b
  lofault : load w m (lofaultOf k s) = load w s.mem (lofaultOf k s)

def withLength (last len : BitVec w) (m : Mem w) : Mem w := if last = 0#w then m else store m last len

/-- The memory at the end, from that with the frame. -/
def final (k : Symbols) (s : State w) (a : Args w) (m₁ : Mem w) : Mem w :=
  store (withLength a.last (BitVec.ofNat w (length s a)) (copied m₁ a.src a.dst 0 (length s a))) (lofaultOf k s)
    (load w s.mem (lofaultOf k s))

theorem length_le_count : length s a ≤ a.count.toNat := Nat.min_le_right _ _

theorem length_lt_pow : length s a < 2 ^ w := length_le_count.trans_lt a.count.isLt

theorem Entered.source_eq (h : Entered k s a below above) (hm₁ : ChangedIn (frame s below) below s.mem m₁)
    (hj : j < length s a) : m₁ (a.src + BitVec.ofNat w j) = source s.mem a.src j :=
  hm₁ _ (h.source_frame j hj)

theorem Entered.byte_eq (h : Entered k s a below above) (hm₁ : ChangedIn (frame s below) below s.mem m₁)
    (hp : Progress m₁ a.src a.dst (length s a) j m) (hj : j < length s a) :
    load 8 m (a.src + BitVec.ofNat w j) = source s.mem a.src j := by
  have habove := clear_above h.disjoint.1 hj
  rw [load_byte_eq, hp.copied h.disjoint.1, copied, if_neg (by omega), h.source_eq hm₁ hj]

theorem Entered.store_byte (h : Entered k s a below above) (hm₁ : ChangedIn (frame s below) below s.mem m₁)
    (hp : Progress m₁ a.src a.dst (length s a) j m) (hj : j < length s a) :
    Progress m₁ a.src a.dst (length s a) (j + 1) (store m (a.dst + BitVec.ofNat w j) (source s.mem a.src j)) := by
  rw [← h.byte_eq hm₁ hp hj]
  exact hp.store (n := 8) rfl hp le_rfl hj length_lt_pow.le

theorem Entered.thread_eq (h : Entered k s a below above) (hm₁ : ChangedIn (frame s below) below s.mem m₁) :
    thread k m₁ = thread k s.mem :=
  (hm₁.mono (Nat.le_add_right below above)).load h.stack_thread

theorem Entered.lofault_eq (h : Entered k s a below above) (hm₁ : ChangedIn (frame s below) below s.mem m₁) :
    load w m₁ (lofaultOf k s) = load w s.mem (lofaultOf k s) :=
  (hm₁.mono (Nat.le_add_right below above)).load h.stack_lofault

theorem store_load_self (hw : 8 * (w / 8) = w) (m : Mem w) (b : BitVec w) : store m b (load w m b) = m := by
  funext c
  rw [store_load hw, add_sub_cancel, ite_self]

theorem load_withLength {f b len : BitVec w} {N : Nat} (h : a.last ≠ 0#w → Outside f N a.last (w / 8))
    (hb : (b - f).toNat + w / 8 ≤ N) : load w (withLength a.last len m) b = load w m b := by
  rw [withLength]
  split
  · rfl
  · next hlast =>
      refine (h hlast).load (fun c hc => ?_) hb
      rw [store, if_neg (Nat.not_lt.mpr hc)]

theorem Entered.load_last {b len : BitVec w} (h : Entered k s a below above)
    (hb : (b - frame s below).toNat + w / 8 ≤ below + above) :
    load w (withLength a.last len (copied m₁ a.src a.dst 0 (length s a))) b = load w m₁ b := by
  rw [load_withLength h.last_stack hb]
  exact h.target_stack.load copied_changedIn hb

theorem Entered.thread_last {len : BitVec w} (h : Entered k s a below above)
    (hm₁ : ChangedIn (frame s below) below s.mem m₁) :
    thread k (withLength a.last len (copied m₁ a.src a.dst 0 (length s a))) = thread k s.mem := by
  have hself : (cpuThread k - cpuThread k : BitVec w).toNat + w / 8 ≤ w / 8 := by simp
  rw [← h.thread_eq hm₁]
  exact (load_withLength h.last_thread hself).trans (h.target_thread.load copied_changedIn hself)

theorem Entered.load_final {b : BitVec w} (hpos : 0 < w / 8) (h : Entered k s a below above)
    (hb : (b - frame s below).toNat + w / 8 ≤ below + above) : load w (final k s a m₁) b = load w m₁ b := by
  have hapart : Apart (lofaultOf k s) (w / 8) b (w / 8) := by
    have hpart := h.stack_lofault.part (c := b - frame s below) (d := 0#w) (j := w / 8) (k := w / 8) hb (by simp) hpos hpos
    rw [add_sub_cancel, BitVec.add_zero] at hpart
    exact hpart.symm
  rw [final, load_store_apart hapart, h.load_last hb]

theorem withLength_outside {b len : BitVec w} (hb : a.last ≠ 0#w → w / 8 ≤ (b - a.last).toNat) :
    withLength a.last len m b = m b := by
  rw [withLength]
  split
  · rfl
  · next hlast => rw [store, if_neg (Nat.not_lt.mpr (hb hlast))]

theorem Entered.copied_final (hw : 8 * (w / 8) = w) (h : Entered k s a below above)
    (hm₁ : ChangedIn (frame s below) below s.mem m₁) : Copied k s a below (final k s a m₁) := by
  have hlt : length s a < 2 ^ w := length_lt_pow
  have hword : w / 8 ≤ 2 ^ w := by
    have hself : w < 2 ^ w := Nat.lt_two_pow_self
    omega
  -- the lofault is put back as it was
  have hfinal (b : BitVec w) : final k s a m₁ b = if (b - lofaultOf k s).toNat < w / 8 then s.mem b
      else withLength a.last (BitVec.ofNat w (length s a)) (copied m₁ a.src a.dst 0 (length s a)) b := by
    rw [final, store_load hw, add_sub_cancel]
  refine ⟨fun i hi => ?_, fun hlast => ?_, fun b hdst hlast hframe => ?_, load_store_same _ _ _ hw hword⟩
  · rw [hfinal, if_neg (Nat.not_lt.mpr (h.target_lofault i hi)),
      withLength_outside fun hlast => h.last_target hlast i hi, copied_inside hlt.le (Nat.zero_le i) hi, h.source_eq hm₁ hi]
  · have hsame : load w (final k s a m₁) a.last =
        load w (store (copied m₁ a.src a.dst 0 (length s a)) a.last (BitVec.ofNat w (length s a))) a.last := by
      apply load_congr
      intro i hi
      rw [hfinal, if_neg (Nat.not_lt.mpr (h.last_lofault hlast i hi)), withLength, if_neg hlast]
    rw [hsame, load_store_same _ _ _ hw hword]
  · rw [hfinal]
    split
    · rfl
    · rw [withLength_outside hlast, copied_changedIn b hdst, hm₁ b hframe]

/-- The loop, from what one byte and the two exits do: `Loop j n` is its head
after `j` bytes with `n` of the count left, `Out found n` an exit. -/
theorem loop_rule (Loop : Nat → Nat → Mem w → Prop) (Out : Bool → Nat → Mem w → Prop)
    (hs : Entered k s a below above)
    (hbyte : ∀ j n m, a.count.toNat = j + (n + 1) → j < length s a → Progress m₁ a.src a.dst (length s a) j m →
      (∀ m', Progress m₁ a.src a.dst (length s a) (j + 1) m' →
        AfterByte (source s.mem a.src j) n (Out · n m') (Loop (j + 1) n m')) → Loop j (n + 1) m)
    (hout : ∀ found n m, (found = true ↔ nulIndex (source s.mem a.src) a.count.toNat < a.count.toNat) →
      a.count - BitVec.ofNat w n = BitVec.ofNat w (length s a) → m = copied m₁ a.src a.dst 0 (length s a) → Out found n m)
    {n : Nat} (hn : a.count.toNat = j + (n + 1)) (hj : j ≤ nulIndex (source s.mem a.src) a.count.toNat)
    (hp : Progress m₁ a.src a.dst (length s a) j m) : Loop j (n + 1) m := by
  have hlength : length s a = min (nulIndex (source s.mem a.src) a.count.toNat + 1) a.count.toNat := rfl
  -- the byte that is the last one
  have hend {j n : Nat} {m : Mem w} (found : Bool) (hn : a.count.toNat = j + (n + 1)) (hlast : length s a = j + 1)
      (hfound : found = true ↔ nulIndex (source s.mem a.src) a.count.toNat < a.count.toNat)
      (hp : Progress m₁ a.src a.dst (length s a) (j + 1) m) : Out found n m := by
    apply hout found n m hfound
    · rw [hlast]
      exact sub_ofNat_eq (by omega)
    · rw [← hlast] at hp
      exact hp.copied hs.disjoint.1
  induction n generalizing j m with
  | zero =>
      apply hbyte j 0 m hn (by omega) hp
      refine fun m' hp' => ⟨fun hnul => ?_, fun hnul => ⟨fun _ => ?_, fun hne => absurd rfl hne⟩⟩
      · have hnulIndex := nulIndex_eq hj hnul
        exact hend true hn (by omega) (iff_of_true rfl (by omega)) hp'
      · have hbehind := lt_nulIndex hj (by omega) hnul
        exact hend false hn (by omega) (iff_of_false Bool.false_ne_true (by omega)) hp'
  | succ n ih =>
      apply hbyte j (n + 1) m hn (by omega) hp
      refine fun m' hp' => ⟨fun hnul => ?_, fun hnul => ⟨fun hzero => absurd hzero (Nat.succ_ne_zero n), fun _ => ?_⟩⟩
      · have hnulIndex := nulIndex_eq hj hnul
        exact hend true hn (by omega) (iff_of_true rfl (by omega)) hp'
      · exact ih (by omega) (lt_nulIndex hj (by omega) hnul) hp'

end Memory

section Amd64

open Text.Amd64

variable {k : Symbols} {s : State 64} {ax si di : BitVec 64} {fl : Flags} {m : Mem 64} {P : Cfg 64 → Prop} {j : Nat}

def words64 (k : Symbols) (s : State 64) : List (Span 64) :=
  [(cpuThread k, 8), (lofaultOf k s, 8), (s.regs.sp - 8#64, 8), (s.regs.sp, 8)]

/-- No byte of the source is read but those that are copied. -/
def Allowed64 (k : Symbols) (s : State 64) (x : Span 64) : Prop :=
  x ∈ words64 k s ∨ ∃ i < length s (amd64.args s), x = ((amd64.args s).src + BitVec.ofNat 64 i, 1)

def Reads64 (k : Symbols) (s : State 64) (t : State 64) (line : Line Label) : Prop :=
  ∀ x ∈ loads t line, Allowed64 k s x

abbrev Comes64 (k : Symbols) (s : State 64) (P : Cfg 64 → Prop) (c : Cfg 64) : Prop :=
  Until (Steps (text k)) (Guard (text k) (Reads64 k s)) P c

structure Returned64 (k : Symbols) (s : State 64) (d : Cfg 64) : Prop where
  ip : d.ip = (load 64 s.mem s.regs.sp).toNat
  keeps : Keeps64 s d.state
  eax : d.state.regs.ax.setWidth 32 = result s (amd64.args s)
  mem : Copied k s (amd64.args s) 8 d.state.mem

def framed64 (s : State 64) : Mem 64 := store s.mem (s.regs.sp - 8#64) s.regs.bp

def inside64 (k : Symbols) (s : State 64) (ax dx si di r8 : BitVec 64) (fl : Flags) (m : Mem 64) : State 64 :=
  ⟨⟨ax, s.regs.cx, dx, s.regs.bx, s.regs.sp - 8#64, s.regs.sp - 8#64, si, di,
    { s.regs.hi with r8 := r8, r9 := thread k s.mem, r11 := load 64 s.mem (lofaultOf k s) }⟩, fl, s.df, m⟩

theorem framed64_changedIn : ChangedIn (frame s 8) 8 s.mem (framed64 s) := by
  intro b hb
  rw [framed64, store, if_neg (Nat.not_lt.mpr hb)]

attribute [local simp] merge_quad merge_long loads opLoads ofOperand ofPlace add_tLofault load_cpuThread

theorem Entered.stack64 (hs : Entered k s (amd64.args s) 8 8) :
    load 64 (final k s (amd64.args s) (framed64 s)) (s.regs.sp - 8#64) = s.regs.bp ∧
      load 64 (final k s (amd64.args s) (framed64 s)) s.regs.sp = load 64 s.mem s.regs.sp := by
  have hbp : (s.regs.sp - 8#64 - frame s 8).toNat + 8 ≤ 16 := by simp [frame]
  have hsp : (s.regs.sp - frame s 8).toNat + 8 ≤ 16 := by simp [frame]
  rw [hs.load_final (by decide) hbp, hs.load_final (by decide) hsp, framed64]
  refine ⟨load_store_same _ _ _ rfl (by decide), load_store_apart ?_⟩
  have hapart : Apart (s.regs.sp + -8#64) 8 (s.regs.sp + 0#64) 8 := by
    rw [apart_add]
    decide
  rwa [BitVec.add_zero, ← sub_eq_add_neg] at hapart

theorem until_done64 {v : BitVec 32} {dx r8 : BitVec 64} (hs : Entered k s (amd64.args s) 8 8)
    (hv : v = result s (amd64.args s))
    (hm : m = withLength s.regs.cx (BitVec.ofNat 64 (length s (amd64.args s)))
      (copied (framed64 s) s.regs.di s.regs.si 0 (length s (amd64.args s)))) :
    Comes64 k s (Returned64 k s) ⟨labelAddr (text k) .copystrDone, inside64 k s (v.setWidth 64) dx si di r8 fl m⟩ := by
  have hat : At (text k) (labelAddr (text k) .copystrDone) ((copystrOut k).drop 10) := ⟨_, rfl⟩
  have hmem := hs.copied_final rfl framed64_changedIn
  have hfinal : store m (lofaultOf k s) (load 64 s.mem (lofaultOf k s)) = final k s (amd64.args s) (framed64 s) := by
    rw [hm]
    rfl
  obtain ⟨hbp, hsp⟩ := hs.stack64
  apply until_passes hat
  simp [copystrOut, inside64, Reads64, hfinal, hbp, hsp]
  refine ⟨.inl (by simp [words64]), .inl (by simp [words64]), .here ⟨rfl, ⟨rfl, rfl, rfl, rfl, rfl, rfl, rfl⟩, ?_, hmem⟩⟩
  rw [← hv]
  simp

theorem until_out64 {v : BitVec 32} {r8 : BitVec 64} (hs : Entered k s (amd64.args s) 8 8)
    (hv : v = result s (amd64.args s)) (hr8 : s.regs.dx - r8 = BitVec.ofNat 64 (length s (amd64.args s))) :
    Comes64 k s (Returned64 k s) ⟨labelAddr (text k) .copystrOut, inside64 k s (v.setWidth 64) s.regs.dx si di r8 fl
      (copied (framed64 s) s.regs.di s.regs.si 0 (length s (amd64.args s)))⟩ := by
  have hat : At (text k) (labelAddr (text k) .copystrOut) (((copystrOut k).drop 5).take 5) := ⟨_, rfl⟩
  have hdone : labelAddr (text k) .copystrOut + 5 = labelAddr (text k) .copystrDone := rfl
  apply until_passes hat
  by_cases hlast : s.regs.cx = 0#64
  · simp [copystrOut, inside64, Reads64, hlast]
    have h : Comes64 k s (Returned64 k s) ⟨labelAddr (text k) .copystrDone, inside64 k s (v.setWidth 64) s.regs.dx si di r8
        (difference 0#64 s.regs.cx false).2 _⟩ := until_done64 hs hv rfl
    simpa [inside64, withLength, hlast] using h
  · simp [copystrOut, inside64, Reads64, hlast, hr8, difference_val, hdone]
    have h : Comes64 k s (Returned64 k s) ⟨labelAddr (text k) .copystrDone, inside64 k s (v.setWidth 64)
        (BitVec.ofNat 64 (length s (amd64.args s))) si di r8 (difference r8 s.regs.dx false).2 _⟩ := until_done64 hs hv rfl
    simpa [inside64, withLength, hlast] using h

theorem until_exit64 {r8 : BitVec 64} (found : Bool) (hs : Entered k s (amd64.args s) 8 8)
    (hfound : found = true ↔ nulIndex (source s.mem s.regs.di) s.regs.dx.toNat < s.regs.dx.toNat)
    (hr8 : s.regs.dx - r8 = BitVec.ofNat 64 (length s (amd64.args s)))
    (hm : m = copied (framed64 s) s.regs.di s.regs.si 0 (length s (amd64.args s))) :
    Comes64 k s (Returned64 k s) ⟨if found then labelAddr (text k) .copystrNull else labelAddr (text k) .copystrEnametoolong,
      inside64 k s ax s.regs.dx si di r8 fl m⟩ := by
  subst hm
  cases found with
  | true =>
      have hat : At (text k) (labelAddr (text k) .copystrNull) (((copystrOut k).drop 3).take 2) := ⟨_, rfl⟩
      have hv : 0#32 = result s (amd64.args s) := (if_pos (hfound.mp rfl)).symm
      apply until_passes hat
      simp [copystrOut, inside64, Reads64]
      exact until_out64 hs hv hr8
  | false =>
      have hat : At (text k) (labelAddr (text k) .copystrEnametoolong) ((copystrOut k).take 3) := ⟨_, rfl⟩
      have hv : BitVec.ofInt 32 enametoolong = result s (amd64.args s) :=
        (if_neg fun h => Bool.false_ne_true (hfound.mpr h)).symm
      apply until_passes hat
      simpa [copystrOut, inside64, Reads64] using until_out64 hs hv hr8

def AtByte64 (k : Symbols) (s : State 64) (P : Cfg 64 → Prop) (j n : Nat) (m : Mem 64) : Prop :=
  ∀ ax fl, Comes64 k s P ⟨labelAddr (text k) .copystrLoop, inside64 k s ax s.regs.dx (s.regs.si + BitVec.ofNat 64 j)
    (s.regs.di + BitVec.ofNat 64 j) (BitVec.ofNat 64 n) fl m⟩

def AtExit64 (k : Symbols) (s : State 64) (P : Cfg 64 → Prop) (found : Bool) (n : Nat) (m : Mem 64) : Prop :=
  ∀ ax si di fl, Comes64 k s P ⟨if found then labelAddr (text k) .copystrNull else labelAddr (text k) .copystrEnametoolong,
    inside64 k s ax s.regs.dx si di (BitVec.ofNat 64 n) fl m⟩

theorem until_byte64 {n : Nat} (hs : Entered k s (amd64.args s) 8 8) (hn : s.regs.dx.toNat = j + (n + 1))
    (hj : j < length s (amd64.args s))
    (hp : Progress (framed64 s) s.regs.di s.regs.si (length s (amd64.args s)) j m)
    (hnext : ∀ m', Progress (framed64 s) s.regs.di s.regs.si (length s (amd64.args s)) (j + 1) m' →
      AfterByte (source s.mem s.regs.di j) n (AtExit64 k s P · n m') (AtByte64 k s P (j + 1) n m')) :
    AtByte64 k s P j (n + 1) m := by
  have hat : At (text k) (labelAddr (text k) .copystrLoop) copystrLoop := ⟨_, rfl⟩
  have hlt := s.regs.dx.isLt
  have hzero : BitVec.ofNat 64 n = 0#64 ↔ n = 0 := ofNat_eq_zero_iff (by omega)
  have hbyte : load 8 m (s.regs.di + BitVec.ofNat 64 j) = source s.mem s.regs.di j :=
    hs.byte_eq framed64_changedIn hp hj
  have hallowed : Allowed64 k s (s.regs.di + BitVec.ofNat 64 j, 1) := .inr ⟨j, hj, rfl⟩
  obtain ⟨hyes, hno⟩ := hnext (store m (s.regs.si + BitVec.ofNat 64 j) (source s.mem s.regs.di j))
    (hs.store_byte framed64_changedIn hp hj)
  intro ax fl
  apply until_passes hat
  by_cases hnul : source s.mem s.regs.di j = 0#8
  · simp [copystrLoop, inside64, Reads64, decrement_val, increment_val, ofNat_succ_sub_one, add_ofNat_add_one, merge_low,
      hbyte, hnul, hallowed]
    rw [hnul] at hyes
    exact hyes rfl _ _ _ _
  · by_cases hlast : n = 0
    · subst hlast
      simp [copystrLoop, inside64, Reads64, decrement_val, increment_val, add_ofNat_add_one, merge_low, hbyte, hnul,
        hallowed]
      exact (hno hnul).1 rfl _ _ _ _
    · simpa [copystrLoop, inside64, Reads64, decrement_val, increment_val, ofNat_succ_sub_one, add_ofNat_add_one,
        merge_low, hbyte, hnul, hallowed, hzero, hlast] using (hno hnul).2 hlast _ _

theorem until_copystr64 (hs : Entered k s (amd64.args s) 8 8) :
    Comes64 k s (Returned64 k s) ⟨labelAddr (text k) .copystr, s⟩ := by
  have hat : At (text k) (labelAddr (text k) .copystr) (copystr k ++ doCopystr k) := ⟨_, rfl⟩
  have hloop : labelAddr (text k) .copystr + 12 = labelAddr (text k) .copystrLoop := rfl
  have hframed : store s.mem (s.regs.sp - 8#64) s.regs.bp = framed64 s := rfl
  have hthread : thread k (framed64 s) = thread k s.mem := hs.thread_eq framed64_changedIn
  have hlofault : load 64 (framed64 s) (lofaultOf k s) = load 64 s.mem (lofaultOf k s) := hs.lofault_eq framed64_changedIn
  have hself : store (framed64 s) (lofaultOf k s) (load 64 s.mem (lofaultOf k s)) = framed64 s := by
    rw [← hlofault, store_load_self rfl]
  have hallowed : Allowed64 k s (cpuThread k, 8) ∧ Allowed64 k s (lofaultOf k s, 8) :=
    ⟨.inl (by simp [words64]), .inl (by simp [words64])⟩
  apply until_passes hat
  by_cases hzero : s.regs.dx = 0#64
  · have hlength : length s (amd64.args s) = 0 := Nat.le_zero.mp (length_le_count.trans (by simp [amd64, hzero]))
    simp [copystr, doCopystr, Reads64, hzero, hframed, hthread, hlofault, hself, hallowed]
    have h : Comes64 k s (Returned64 k s) ⟨labelAddr (text k) .copystrEnametoolong, inside64 k s s.regs.ax s.regs.dx
        s.regs.si s.regs.di 0#64 (difference 0#64 0#64 false).2 (framed64 s)⟩ := by
      refine until_exit64 false hs ?_ ?_ ?_
      · simp [hzero]
      · rw [hlength, hzero]
        rfl
      · rw [hlength, copied_none le_rfl]
    simpa [inside64, hzero] using h
  · obtain ⟨n, hn⟩ : ∃ n, s.regs.dx.toNat = 0 + (n + 1) := by
      refine ⟨s.regs.dx.toNat - 1, ?_⟩
      have hne : s.regs.dx.toNat ≠ 0 := fun h => hzero (BitVec.eq_of_toNat_eq h)
      omega
    have hdx : BitVec.ofNat 64 (n + 1) = s.regs.dx := by
      rw [← Nat.zero_add (n + 1), ← hn, BitVec.ofNat_toNat, BitVec.setWidth_eq]
    simp [copystr, doCopystr, Reads64, hzero, hframed, hthread, hlofault, hself, hallowed, hloop]
    have h : AtByte64 k s (Returned64 k s) 0 (n + 1) (framed64 s) :=
      loop_rule (AtByte64 k s _) (AtExit64 k s _) hs (fun j n m => until_byte64 hs)
        (fun found n m hfound hleft hm ax si di fl => until_exit64 found hs hfound hleft hm) hn (Nat.zero_le _)
        (Progress.zero _ _ _ _)
    simpa [inside64, hdx] using h s.regs.ax (difference 0#64 s.regs.dx false).2

end Amd64

section I386

open Text.I386 I386.Core

variable {k : Symbols} {s : State 32} {ax cx dx bx : BitVec 32} {fl : Flags} {m : Mem 32} {P : Cfg 32 → Prop} {j : Nat}

def words32 (k : Symbols) (s : State 32) : List (Span 32) :=
  [(cpuThread k, 4), (lofaultOf k s, 4), (s.regs.sp - 16#32, 4), (s.regs.sp - 12#32, 4), (s.regs.sp - 8#32, 4),
    (s.regs.sp - 4#32, 4), (s.regs.sp, 4), (s.regs.sp + 4#32, 4), (s.regs.sp + 8#32, 4), (s.regs.sp + 12#32, 4),
    (s.regs.sp + 16#32, 4)]

def Allowed32 (k : Symbols) (s : State 32) (x : Span 32) : Prop :=
  x ∈ words32 k s ∨ ∃ i < length s (i386.args s), x = ((i386.args s).src + BitVec.ofNat 32 i, 1)

def Reads32 (k : Symbols) (s : State 32) (t : State 32) (line : Line Label) : Prop :=
  ∀ x ∈ loads t line, Allowed32 k s x

abbrev Comes32 (k : Symbols) (s : State 32) (P : Cfg 32 → Prop) (c : Cfg 32) : Prop :=
  Until (Steps (text k)) (Guard (text k) (Reads32 k s)) P c

structure Returned32 (k : Symbols) (s : State 32) (d : Cfg 32) : Prop where
  ip : d.ip = (load 32 s.mem s.regs.sp).toNat
  keeps : Keeps32 s d.state
  eax : d.state.regs.ax = result s (i386.args s)
  mem : Copied k s (i386.args s) 16 d.state.mem

abbrev framed32 (k : Symbols) (s : State 32) : Mem 32 := pushed k s s.regs.bx

def inside32 (k : Symbols) (s : State 32) (ax cx dx bx : BitVec 32) (fl : Flags) (m : Mem 32) : State 32 :=
  ⟨⟨ax, cx, dx, bx, s.regs.sp - 16#32, s.regs.sp - 4#32, s.regs.si, load 32 s.mem (lofaultOf k s), s.regs.hi⟩, fl, s.df, m⟩

theorem framed32_changedIn : ChangedIn (frame s 16) 16 s.mem (framed32 k s) := pushed_changedIn

attribute [local simp] merge_word loads opLoads ofOperand ofPlace add_tLofault load_cpuThread push_second
  push_third push_fourth pop_first pop_second pop_third arg_src arg_dst arg_count arg_last

theorem slot_in_stack {c : BitVec 32} (h : (16#32 - c).toNat + 4 ≤ 36) : (s.regs.sp - c - frame s 16).toNat + 4 ≤ 36 := by
  rwa [frame, sub_sub_sub_cancel_left]

theorem arg_in_stack {c : BitVec 32} (h : (c + 16#32).toNat + 4 ≤ 36) : (s.regs.sp + c - frame s 16).toNat + 4 ≤ 36 := by
  rwa [frame, show s.regs.sp + c - (s.regs.sp - BitVec.ofNat 32 16) = c + 16#32 by ring]

theorem load_framed_arg {c : BitVec 32} (h : c.toNat ≤ 16) :
    load 32 (framed32 k s) (s.regs.sp + c) = load 32 s.mem (s.regs.sp + c) := by
  apply framed32_changedIn.load
  have hapart : Apart (s.regs.sp + -16#32) 16 (s.regs.sp + c) 4 := by
    rw [apart_add, Apart]
    constructor <;> bv_omega
  rwa [← sub_eq_add_neg] at hapart

theorem Entered.stack32 (hs : Entered k s (i386.args s) 16 20) :
    load 32 (final k s (i386.args s) (framed32 k s)) (s.regs.sp - 12#32) = s.regs.di ∧
    load 32 (final k s (i386.args s) (framed32 k s)) (s.regs.sp - 8#32) = s.regs.bx ∧
    load 32 (final k s (i386.args s) (framed32 k s)) (s.regs.sp - 4#32) = s.regs.bp ∧
    load 32 (final k s (i386.args s) (framed32 k s)) s.regs.sp = load 32 s.mem s.regs.sp := by
  have hret := arg_in_stack (s := s) (c := 0#32) (by decide)
  have hretframed := load_framed_arg (k := k) (s := s) (c := 0#32) (by decide)
  rw [BitVec.add_zero] at hret hretframed
  rw [hs.load_final (by decide) (slot_in_stack (by decide)), hs.load_final (by decide) (slot_in_stack (by decide)),
    hs.load_final (by decide) (slot_in_stack (by decide)), hs.load_final (by decide) hret]
  exact ⟨pushed_di, pushed_slot, pushed_bp, hretframed⟩

theorem until_done32 (hs : Entered k s (i386.args s) 16 20) (hax : ax = result s (i386.args s))
    (hm : m = withLength (i386.args s).last (BitVec.ofNat 32 (length s (i386.args s)))
      (copied (framed32 k s) (i386.args s).src (i386.args s).dst 0 (length s (i386.args s)))) :
    Comes32 k s (Returned32 k s) ⟨labelAddr (text k) .copystrDone, inside32 k s ax cx dx bx fl m⟩ := by
  have hat : At (text k) (labelAddr (text k) .copystrDone) ((copystrOut k).drop 12) := ⟨_, rfl⟩
  have hmem : Copied k s (i386.args s) 16 (final k s (i386.args s) (framed32 k s)) :=
    hs.copied_final rfl framed32_changedIn
  have hfinal : store m (lofaultOf k s) (load 32 s.mem (lofaultOf k s)) = final k s (i386.args s) (framed32 k s) := by
    rw [hm]
    rfl
  have hthread : thread k m = thread k s.mem := by
    rw [hm]
    exact hs.thread_last framed32_changedIn
  have hold : load 32 m (s.regs.sp - 16#32) = load 32 s.mem (lofaultOf k s) := by
    rw [hm, hs.load_last (slot_in_stack (by decide))]
    exact pushed_old
  have hwords (x : Span 32) (hx : x ∈ words32 k s) : Allowed32 k s x := .inl hx
  simp only [words32, List.forall_mem_cons] at hwords
  obtain ⟨hdi, hbx, hbp, hret⟩ := hs.stack32
  apply until_passes hat
  simp [copystrOut, inside32, Reads32, hthread, hold, hfinal, hdi, hbx, hbp, hret, hwords]
  exact .here ⟨rfl, ⟨rfl, rfl, rfl, rfl, rfl⟩, hax, hmem⟩

theorem until_out32 (hs : Entered k s (i386.args s) 16 20) (hax : ax = result s (i386.args s))
    (hcx : (i386.args s).count - cx = BitVec.ofNat 32 (length s (i386.args s))) :
    Comes32 k s (Returned32 k s) ⟨labelAddr (text k) .copystrOut, inside32 k s ax cx dx bx fl
      (copied (framed32 k s) (i386.args s).src (i386.args s).dst 0 (length s (i386.args s)))⟩ := by
  have hat : At (text k) (labelAddr (text k) .copystrOut) (((copystrOut k).drop 5).take 7) := ⟨_, rfl⟩
  have harg {c : BitVec 32} (hc : c.toNat ≤ 16) :
      load 32 (copied (framed32 k s) (i386.args s).src (i386.args s).dst 0 (length s (i386.args s))) (s.regs.sp + c) =
        load 32 s.mem (s.regs.sp + c) := by
    rw [← load_framed_arg (k := k) hc]
    exact hs.target_stack.load copied_changedIn (arg_in_stack (by bv_omega))
  have hcount := harg (c := 12#32) (by decide)
  have hlast := harg (c := 16#32) (by decide)
  have hwords (x : Span 32) (hx : x ∈ words32 k s) : Allowed32 k s x := .inl hx
  simp only [words32, List.forall_mem_cons] at hwords
  apply until_passes hat
  by_cases hzero : (i386.args s).last = 0#32
  · have hzero' : load 32 s.mem (s.regs.sp + 16#32) = 0#32 := hzero
    simp [copystrOut, inside32, Reads32, hlast, hzero', hwords]
    refine until_done32 hs hax ?_
    rw [withLength, if_pos hzero]
  · have hzero' : load 32 s.mem (s.regs.sp + 16#32) ≠ 0#32 := hzero
    have hcx' : load 32 s.mem (s.regs.sp + 12#32) - cx = BitVec.ofNat 32 (length s (i386.args s)) := hcx
    simp [copystrOut, inside32, Reads32, hlast, hcount, hzero', hcx', difference_val, hwords]
    refine until_done32 hs hax ?_
    rw [withLength, if_neg hzero]
    rfl

theorem until_exit32 (found : Bool) (hs : Entered k s (i386.args s) 16 20)
    (hfound : found = true ↔ nulIndex (source s.mem (i386.args s).src) (i386.args s).count.toNat < (i386.args s).count.toNat)
    (hcx : (i386.args s).count - cx = BitVec.ofNat 32 (length s (i386.args s)))
    (hm : m = copied (framed32 k s) (i386.args s).src (i386.args s).dst 0 (length s (i386.args s))) :
    Comes32 k s (Returned32 k s) ⟨if found then labelAddr (text k) .copystrNull else labelAddr (text k) .copystrEnametoolong,
      inside32 k s ax cx dx bx fl m⟩ := by
  subst hm
  cases found with
  | true =>
      have hat : At (text k) (labelAddr (text k) .copystrNull) (((copystrOut k).drop 3).take 2) := ⟨_, rfl⟩
      have hv : 0#32 = result s (i386.args s) := (if_pos (hfound.mp rfl)).symm
      apply until_passes hat
      simp [copystrOut, inside32, Reads32]
      exact until_out32 hs hv hcx
  | false =>
      have hat : At (text k) (labelAddr (text k) .copystrEnametoolong) ((copystrOut k).take 3) := ⟨_, rfl⟩
      have hv : BitVec.ofInt 32 enametoolong = result s (i386.args s) :=
        (if_neg fun h => Bool.false_ne_true (hfound.mpr h)).symm
      apply until_passes hat
      simpa [copystrOut, inside32, Reads32] using until_out32 hs hv hcx

def AtByte32 (k : Symbols) (s : State 32) (P : Cfg 32 → Prop) (j n : Nat) (m : Mem 32) : Prop :=
  ∀ ax fl, Comes32 k s P ⟨labelAddr (text k) .copystrLoop, inside32 k s ax (BitVec.ofNat 32 n)
    ((i386.args s).dst + BitVec.ofNat 32 j) ((i386.args s).src + BitVec.ofNat 32 j) fl m⟩

def AtExit32 (k : Symbols) (s : State 32) (P : Cfg 32 → Prop) (found : Bool) (n : Nat) (m : Mem 32) : Prop :=
  ∀ ax dx bx fl, Comes32 k s P ⟨if found then labelAddr (text k) .copystrNull else labelAddr (text k) .copystrEnametoolong,
    inside32 k s ax (BitVec.ofNat 32 n) dx bx fl m⟩

theorem until_byte32 {n : Nat} (hs : Entered k s (i386.args s) 16 20) (hn : (i386.args s).count.toNat = j + (n + 1))
    (hj : j < length s (i386.args s))
    (hp : Progress (framed32 k s) (i386.args s).src (i386.args s).dst (length s (i386.args s)) j m)
    (hnext : ∀ m', Progress (framed32 k s) (i386.args s).src (i386.args s).dst (length s (i386.args s)) (j + 1) m' →
      AfterByte (source s.mem (i386.args s).src j) n (AtExit32 k s P · n m') (AtByte32 k s P (j + 1) n m')) :
    AtByte32 k s P j (n + 1) m := by
  have hat : At (text k) (labelAddr (text k) .copystrLoop) copystrLoop := ⟨_, rfl⟩
  have hlt := (i386.args s).count.isLt
  have hzero : BitVec.ofNat 32 n = 0#32 ↔ n = 0 := ofNat_eq_zero_iff (by omega)
  have hbyte : load 8 m ((i386.args s).src + BitVec.ofNat 32 j) = source s.mem (i386.args s).src j :=
    hs.byte_eq framed32_changedIn hp hj
  have hallowed : Allowed32 k s ((i386.args s).src + BitVec.ofNat 32 j, 1) := .inr ⟨j, hj, rfl⟩
  obtain ⟨hyes, hno⟩ := hnext _ (hs.store_byte framed32_changedIn hp hj)
  intro ax fl
  apply until_passes hat
  by_cases hnul : source s.mem (i386.args s).src j = 0#8
  · simp [copystrLoop, inside32, Reads32, decrement_val, increment_val, ofNat_succ_sub_one, add_ofNat_add_one, merge_low,
      hbyte, hnul, hallowed]
    rw [hnul] at hyes
    exact hyes rfl _ _ _ _
  · by_cases hlast : n = 0
    · subst hlast
      simp [copystrLoop, inside32, Reads32, decrement_val, increment_val, add_ofNat_add_one, merge_low, hbyte, hnul,
        hallowed]
      exact (hno hnul).1 rfl _ _ _ _
    · simpa [copystrLoop, inside32, Reads32, decrement_val, increment_val, ofNat_succ_sub_one, add_ofNat_add_one,
        merge_low, hbyte, hnul, hallowed, hzero, hlast] using (hno hnul).2 hlast _ _

theorem until_copystr32 (hs : Entered k s (i386.args s) 16 20) :
    Comes32 k s (Returned32 k s) ⟨labelAddr (text k) .copystr, s⟩ := by
  have hat : At (text k) (labelAddr (text k) .copystr) (copystr k ++ doCopystr k) := ⟨_, rfl⟩
  have hloop : labelAddr (text k) .copystr + 17 = labelAddr (text k) .copystrLoop := rfl
  have hchanged := pushes_changedIn (o := s) (x := s.regs.bx)
  have hthread := hs.thread_eq hchanged
  have hlofault := hs.lofault_eq hchanged
  have hframed : load 32 (framed32 k s) (lofaultOf k s) = load 32 s.mem (lofaultOf k s) := hs.lofault_eq framed32_changedIn
  have hself : store (framed32 k s) (lofaultOf k s) (load 32 s.mem (lofaultOf k s)) = framed32 k s := by
    rw [← hframed, store_load_self rfl]
  have hsrc : load 32 (framed32 k s) (s.regs.sp + 4#32) = (i386.args s).src := load_framed_arg (by decide)
  have hdst : load 32 (framed32 k s) (s.regs.sp + 8#32) = (i386.args s).dst := load_framed_arg (by decide)
  have hcount : load 32 (framed32 k s) (s.regs.sp + 12#32) = (i386.args s).count := load_framed_arg (by decide)
  have hwords (x : Span 32) (hx : x ∈ words32 k s) : Allowed32 k s x := .inl hx
  simp only [words32, List.forall_mem_cons] at hwords
  apply until_passes hat
  by_cases hzero : (i386.args s).count = 0#32
  · have hlength : length s (i386.args s) = 0 := Nat.le_zero.mp (length_le_count.trans (by simp [hzero]))
    simp [copystr, doCopystr, Reads32, hthread, hlofault, store_pushed, hself, hcount, hzero, hwords]
    refine until_exit32 false hs ?_ ?_ ?_
    · simp [hzero]
    · rw [hlength, hzero]
      rfl
    · rw [hlength, copied_none le_rfl]
  · obtain ⟨n, hn⟩ : ∃ n, (i386.args s).count.toNat = 0 + (n + 1) := by
      refine ⟨(i386.args s).count.toNat - 1, ?_⟩
      have hne : (i386.args s).count.toNat ≠ 0 := fun h => hzero (BitVec.eq_of_toNat_eq h)
      omega
    have hcx : BitVec.ofNat 32 (n + 1) = (i386.args s).count := by
      rw [← Nat.zero_add (n + 1), ← hn, BitVec.ofNat_toNat, BitVec.setWidth_eq]
    simp [copystr, doCopystr, Reads32, hthread, hlofault, store_pushed, hself, hsrc, hdst, hcount, hzero, hwords, hloop]
    have h : AtByte32 k s (Returned32 k s) 0 (n + 1) (framed32 k s) :=
      loop_rule (AtByte32 k s _) (AtExit32 k s _) hs (fun j n m => until_byte32 hs)
        (fun found n m hfound hleft hm ax dx bx fl => until_exit32 found hs hfound hleft hm) hn (Nat.zero_le _)
        (Progress.zero _ _ _ _)
    simpa [inside32, hcx] using h (load 32 s.mem (lofaultOf k s)) (difference 0#32 (i386.args s).count false).2

end I386

/-- The two versions, and that they agree on what they find in the source. -/
theorem copystr_copies (k : Symbols) :
    (∀ s : State 64, Entered k s (amd64.args s) 8 8 →
      Comes64 k s (Returned64 k s) ⟨labelAddr (Text.Amd64.text k) .copystr, s⟩) ∧
    (∀ s : State 32, Entered k s (i386.args s) 16 20 →
      Comes32 k s (Returned32 k s) ⟨labelAddr (Text.I386.text k) .copystr, s⟩) ∧
    ∀ (s : State 64) (t : State 32), (amd64.args s).count.toNat = (i386.args t).count.toNat →
      (∀ i < (amd64.args s).count.toNat, source s.mem (amd64.args s).src i = source t.mem (i386.args t).src i) →
      length s (amd64.args s) = length t (i386.args t) ∧ result s (amd64.args s) = result t (i386.args t) := by
  refine ⟨fun s hs => until_copystr64 hs, fun s hs => until_copystr32 hs, fun s t hcount hbytes => ?_⟩
  have hnul := nulIndex_congr hbytes
  rw [length, length, result, result, copyLength, copyLength, errno, errno, hnul, hcount]
  exact ⟨rfl, rfl⟩

section Sample

def sampleCall : State 64 :=
  { call64 ⟨0x4000#64, 0x5000#64, 8#64, 0x6000#64⟩ with mem := store (kernelMem 64) 0x4000#64 0x6261#16 }

theorem length_sample : length sampleCall (amd64.args sampleCall) = 3 := by
  decide +kernel

theorem entered_sample : Entered symbols sampleCall (amd64.args sampleCall) 8 8 := by
  constructor <;> decide +kernel

theorem copystr_copies_sample : Comes64 symbols sampleCall
    (fun d => d.state.regs.ax.setWidth 32 = 0#32 ∧ load 64 d.state.mem 0x6000#64 = 3#64)
    ⟨labelAddr (Text.Amd64.text symbols) .copystr, sampleCall⟩ := by
  refine ((copystr_copies symbols).1 sampleCall entered_sample).mono (fun _ hq => hq) fun d hd => ⟨?_, ?_⟩
  · rw [hd.eax]
    decide +kernel
  · have hlast := hd.mem.last (by decide +kernel)
    rw [length_sample] at hlast
    exact hlast

end Sample

end SysvDev.Copy.Copystr
