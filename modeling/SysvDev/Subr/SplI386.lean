import SysvDev.Subr.Levels
import SysvDev.X86.Words

namespace SysvDev.Subr.SplI386

open X86.Memory X86.Machine X86.Machine.Att X86.Run X86.Cells X86.Words Inevitable Relation Levels
open Spl (Symbols Label code newIpl)

/-- The words that the routines work on where no soft interrupt is pending, and
words `X` of the caller. -/
inductive Cell (X : Nat → Type) : Nat → Type
  | self : Cell X 32
  | setspl : Cell X 32
  | pri : Cell X 32
  | baseSpl : Cell X 32
  | softinfo : Cell X 32
  | arg : Cell X 32
  | ret : Cell X 32
  | old : Cell X 32
  | new : Cell X 32
  | call : Cell X 32
  | own {n : Nat} (x : X n) : Cell X n

variable {X : Nat → Type}

def place (sym : Symbols) (cpu sp : BitVec 32) (own : ∀ n, X n → BitVec 32) : ∀ n, Cell X n → BitVec 32
  | _, .self => BitVec.ofInt 32 sym.cpuSelf
  | _, .setspl => BitVec.ofInt 32 sym.setspl
  | _, .pri => cpu + BitVec.ofInt 32 sym.cpuPri
  | _, .baseSpl => cpu + BitVec.ofInt 32 sym.cpuBaseSpl
  | _, .softinfo => cpu + BitVec.ofInt 32 sym.cpuSoftinfo
  | _, .arg => sp + 4#32
  | _, .ret => sp
  | _, .old => sp - 4#32
  | _, .new => sp - 8#32
  | _, .call => sp - 12#32
  | n, .own x => own n x

def Cell.below {n : Nat} : Cell X n → Bool
  | .old | .new | .call => true
  | _ => false

def Cell.isPri {n : Nat} : Cell X n → Bool
  | .pri => true
  | _ => false

/-- The argument of `setspl` is its own, and so is the word below. -/
def Cell.isCall {n : Nat} : Cell X n → Bool
  | .new | .call => true
  | _ => false

theorem Cell.isCall_of_below {n : Nat} {k : Cell X n} (h : k.below = false) : k.isCall = false := by
  cases k <;> first | rfl | cases h

variable {sym : Symbols} {installed : Bool} {cpu sp : BitVec 32} {own : ∀ n, X n → BitVec 32}
  {ext : Nat → Option (State 32 → State 32)} {ax bx cx dx bp si di : BitVec 32} {hi : HighRegs 32} {fl : Flags}
  {df : Bool} {m : Mem 32} {s : State 32}

theorem places (sym : Symbols) (cpu sp : BitVec 32) (own : ∀ n, X n → BitVec 32) :
    BitVec.ofInt 32 sym.cpuSelf = place sym cpu sp own 32 .self ∧
    BitVec.ofInt 32 sym.setspl = place sym cpu sp own 32 .setspl ∧
    cpu + BitVec.ofInt 32 sym.cpuPri = place sym cpu sp own 32 .pri ∧
    cpu + BitVec.ofInt 32 sym.cpuBaseSpl = place sym cpu sp own 32 .baseSpl ∧
    cpu + BitVec.ofInt 32 sym.cpuSoftinfo = place sym cpu sp own 32 .softinfo ∧
    sp + 4#32 = place sym cpu sp own 32 .arg ∧
    sp - 4#32 = place sym cpu sp own 32 .old ∧
    place sym cpu sp own 32 .old - 4#32 = place sym cpu sp own 32 .new ∧
    place sym cpu sp own 32 .new - 4#32 = place sym cpu sp own 32 .call := by
  refine ⟨rfl, rfl, rfl, rfl, rfl, rfl, rfl, ?_, ?_⟩ <;>
  · rw [place, place]
    bv_omega

structure Returned (sym : Symbols) (cpu : BitVec 32) (own : ∀ n, X n → BitVec 32) (s : State 32) (pri : BitVec 32)
    (d : Cfg 32) : Prop where
  ip : d.ip = (word (place sym cpu s.regs.sp own) s.mem .ret).toNat
  keeps : Keeps32 s d.state
  ax : d.state.regs.ax = word (place sym cpu s.regs.sp own) s.mem .pri
  pri : word (place sym cpu s.regs.sp own) d.state.mem .pri = pri
  words : ∀ n (k : Cell X n), k.below = false → k.isPri = false →
    word (place sym cpu s.regs.sp own) d.state.mem k = word (place sym cpu s.regs.sp own) s.mem k

structure Answers (place : ∀ n, Cell X n → BitVec 32) (s t : State 32) : Prop where
  keeps : Keeps32 s t
  words : ∀ n (k : Cell X n), k.isCall = false → word place t.mem k = word place s.mem k

def Outer (sym : Symbols) (cpu sp : BitVec 32) (own : ∀ n, X n → BitVec 32) (ext : Nat → Option (State 32 → State 32))
    (setspl : BitVec 32) : Prop :=
  ∃ f, ext setspl.toNat = some f ∧
    ∀ u : State 32, u.regs.sp = sp - 12#32 → Answers (place sym cpu sp own) u (f u)

theorem Returned.of_entry {ax' cx' dx' : BitVec 32} {hi' : HighRegs 32} {fl' : Flags} {df' : Bool} {p : BitVec 32}
    {d : Cfg 32} (h : Returned sym cpu own ⟨⟨ax, cx, dx, bx, sp, bp, si, di, hi⟩, fl, df, m⟩ p d) :
    Returned sym cpu own ⟨⟨ax', cx', dx', bx, sp, bp, si, di, hi'⟩, fl', df', m⟩ p d where
  ip := h.ip
  keeps := ⟨h.keeps.sp, h.keeps.bx, h.keeps.bp, h.keeps.si, h.keeps.di⟩
  ax := h.ax
  pri := h.pri
  words := h.words

/-- The routines can be entered: no soft interrupt is pending, and `setspl` is
a routine outside of the text. -/
structure Ready (sym : Symbols) (installed : Bool) (ext : Nat → Option (State 32 → State 32)) (cpu : BitVec 32)
    (own : ∀ n, X n → BitVec 32) (sp : BitVec 32) (m : Mem 32) : Prop where
  inside : ∀ i < (code sym installed).length, ext i = none
  spread : Spread (place sym cpu sp own)
  self : word (place sym cpu sp own) m .self = cpu
  soft : word (place sym cpu sp own) m .softinfo = 0#32
  setspl : Outer sym cpu sp own ext (word (place sym cpu sp own) m .setspl)

section Routines

variable (h : Ready sym installed ext cpu own sp m)

include h

theorem comes_call {P : Cfg 32 → Prop} {level : BitVec 32} {b : Nat} (hb : b < 2 ^ 32)
    (hP : ∀ ax' cx' dx' hi' fl' df' m', word (place sym cpu sp own) m' .self = cpu →
      word (place sym cpu sp own) m' .softinfo = 0#32 → word (place sym cpu sp own) m' .old = ax →
      word (place sym cpu sp own) m' .pri = level →
      (∀ n (k : Cell X n), k.below = false → k.isPri = false →
        word (place sym cpu sp own) m' k = word (place sym cpu sp own) m k) →
      Comes (code sym installed) ext P
        ⟨b, ⟨⟨ax', cx', dx', bx, place sym cpu sp own 32 .new, bp, si, di, hi'⟩, fl', df', m'⟩⟩) :
    Comes (code sym installed) ext P ⟨(word (place sym cpu sp own) m .setspl).toNat,
      ⟨⟨ax, cx, dx, bx, place sym cpu sp own 32 .call, bp, si, di, hi⟩, fl, df,
        store (store (store (store m (place sym cpu sp own 32 .pri) level) (place sym cpu sp own 32 .old) ax)
          (place sym cpu sp own 32 .new) level) (place sym cpu sp own 32 .call) (BitVec.ofNat 32 b)⟩⟩ := by
  obtain ⟨f, hf, hans⟩ := h.setspl
  generalize hM : store _ (place sym cpu sp own 32 .call) _ = M
  have hcall : word (place sym cpu sp own) M .call = BitVec.ofNat 32 b := by
    rw [← hM]
    apply word_store_self <;> norm_num
  have hold : word (place sym cpu sp own) M .old = ax := by
    simp [← hM, word_store_other h.spread, word_store_self]
  have hpri : word (place sym cpu sp own) M .pri = level := by
    simp [← hM, word_store_other h.spread, word_store_self]
  have hrest (n : Nat) (k : Cell X n) (hb : k.below = false) (hp : k.isPri = false) :
      word (place sym cpu sp own) M k = word (place sym cpu sp own) m k := by
    rw [← hM, word_store_other h.spread (ne_of_kind (@Cell.below X) true rfl hb),
      word_store_other h.spread (ne_of_kind (@Cell.below X) true rfl hb),
      word_store_other h.spread (ne_of_kind (@Cell.below X) true rfl hb),
      word_store_other h.spread (ne_of_kind (@Cell.isPri X) true rfl hp)]
  clear hM
  apply comes_extern hf
  generalize hu : (⟨_, _, _, M⟩ : State 32) = u
  obtain ⟨hkeeps, hwords⟩ := hans u (by rw [← hu]; rfl)
  have hback : (u.pop 0).1.toNat = b := by
    rw [← Nat.mod_eq_of_lt hb, ← BitVec.toNat_ofNat, ← hcall, ← hu]
    rfl
  rw [hback]
  generalize f u = t at hkeeps hwords
  subst hu
  obtain ⟨⟨ax', cx', dx', bx', sp', bp', si', di', hi'⟩, fl', df', m'⟩ := t
  obtain ⟨hsp, hbx, hbp, hsi, hdi⟩ := hkeeps
  have hslot : place sym cpu sp own 32 .call + 4#32 = place sym cpu sp own 32 .new := by
    rw [place, place]
    bv_omega
  obtain rfl : sp' = place sym cpu sp own 32 .new := hsp.trans hslot
  obtain rfl : bx' = bx := hbx
  obtain rfl : bp' = bp := hbp
  obtain rfl : si' = si := hsi
  obtain rfl : di' = di := hdi
  apply hP
  · exact (hwords 32 .self rfl).trans ((hrest 32 .self rfl rfl).trans h.self)
  · exact (hwords 32 .softinfo rfl).trans ((hrest 32 .softinfo rfl rfl).trans h.soft)
  · exact (hwords 32 .old rfl).trans hold
  · exact (hwords 32 .pri rfl).trans hpri
  · intro n k hb hp
    exact (hwords n k (Cell.isCall_of_below hb)).trans (hrest n k hb hp)

theorem comes_setsplsti {level : BitVec 32} {m' : Mem 32} {ax' cx' dx' : BitVec 32} {hi' : HighRegs 32} {fl' : Flags}
    {df' : Bool} (hold : word (place sym cpu sp own) m' .old = word (place sym cpu sp own) m .pri)
    (hpri : word (place sym cpu sp own) m' .pri = level)
    (hrest : ∀ n (k : Cell X n), k.below = false → k.isPri = false →
      word (place sym cpu sp own) m' k = word (place sym cpu sp own) m k) :
    Comes (code sym installed) ext
      (Returned sym cpu own ⟨⟨ax, cx, dx, bx, sp, bp, si, di, hi⟩, fl, df, m⟩ level)
      ⟨labelAddr (code sym installed) .setsplsti,
        ⟨⟨ax', cx', dx', bx, place sym cpu sp own 32 .new, bp, si, di, hi'⟩, fl', df', m'⟩⟩ := by
  have hat : At (code sym installed) (labelAddr (code sym installed) .setsplsti) (Spl.setsplsti installed) := ⟨_, rfl⟩
  have hnew : place sym cpu sp own 32 .new + 4#32 = place sym cpu sp own 32 .old := by
    rw [place, place]
    bv_omega
  have hslot : place sym cpu sp own 32 .old + 4#32 = sp := by
    rw [place]
    bv_omega
  apply comes_block h.inside hat
  simp [Spl.setsplsti, merge_word, load_place (place _ _ _ _), hnew, hslot]
  refine .here ⟨?_, ⟨rfl, rfl, rfl, rfl, rfl⟩, hold, hpri, hrest⟩
  exact congrArg BitVec.toNat (hrest 32 .ret rfl rfl)

theorem comes_setprilev {level : BitVec 32} (hax : ax = word (place sym cpu sp own) m .pri) :
    Comes (code sym installed) ext
      (Returned sym cpu own ⟨⟨ax, cpu, level, bx, sp, bp, si, di, hi⟩, fl, df, m⟩ level)
      ⟨labelAddr (code sym installed) .setprilev, ⟨⟨ax, cpu, level, bx, sp, bp, si, di, hi⟩, fl, df, m⟩⟩ := by
  have hat : At (code sym installed) (labelAddr (code sym installed) .setprilev) (Spl.setprilev sym) := ⟨_, rfl⟩
  have hat' : At (code sym installed) 64 (Spl.softints sym) := ⟨_, rfl⟩
  apply comes_block h.inside hat
  simp [Spl.setprilev, Spl.SETIPL_NOGS, places sym cpu sp own, load_place (place _ _ _ _), word_store_other h.spread]
  refine comes_call h (b := 64) (by norm_num) fun ax' cx' dx' hi' fl' df' m' hself hsoft hold hpri hrest => ?_
  apply comes_block h.inside hat'
  simpa [Spl.softints, Spl.LOADCPU, merge_word, places sym cpu sp own, load_place (place _ _ _ _), hself, hsoft] using
    comes_setsplsti h (hold.trans hax) hpri hrest

theorem comes_spl {level : BitVec 32} :
    Comes (code sym installed) ext
      (Returned sym cpu own ⟨⟨ax, cpu, level, bx, sp, bp, si, di, hi⟩, fl, df, m⟩
        (newIpl (word (place sym cpu sp own) m .baseSpl) level))
      ⟨labelAddr (code sym installed) .spl, ⟨⟨ax, cpu, level, bx, sp, bp, si, di, hi⟩, fl, df, m⟩⟩ := by
  have hat : At (code sym installed) (labelAddr (code sym installed) .spl) (Spl.spl sym) := ⟨_, rfl⟩
  have habove := difference_a level (word (place sym cpu sp own) m .baseSpl)
  apply comes_block h.inside hat
  simp [Spl.spl, Spl.GETIPL_NOGS, merge_word, places sym cpu sp own, load_place (place _ _ _ _)]
  by_cases hbase : level.toNat < (word (place sym cpu sp own) m .baseSpl).toNat
  · have hat' : At (code sym installed) (labelAddr (code sym installed) .setToBaseSpl) (Spl.setToBaseSpl sym) :=
      ⟨_, rfl⟩
    rw [decide_eq_true hbase] at habove
    rw [run_jcc_taken habove, newIpl, if_pos hbase]
    refine ⟨_, rfl, comes_block h.inside hat' ?_⟩
    simpa [Spl.setToBaseSpl, merge_word, places sym cpu sp own, load_place (place _ _ _ _)] using
      (comes_setprilev h rfl).mono (fun _ hq => hq) fun _ hd => hd.of_entry
  · rw [decide_eq_false hbase] at habove
    rw [run_jcc_not habove, newIpl, if_neg hbase]
    exact ⟨_, rfl, (comes_setprilev h rfl).mono (fun _ hq => hq) fun _ hd => hd.of_entry⟩

theorem comes_SETPRI {ip : Nat} {l : Label} {level : Int}
    (hat : At (code sym installed) ip (.label l :: Spl.SETPRI sym level)) :
    Comes (code sym installed) ext
      (Returned sym cpu own ⟨⟨ax, cx, dx, bx, sp, bp, si, di, hi⟩, fl, df, m⟩
        (newIpl (word (place sym cpu sp own) m .baseSpl) (BitVec.ofInt 32 level)))
      ⟨ip, ⟨⟨ax, cx, dx, bx, sp, bp, si, di, hi⟩, fl, df, m⟩⟩ := by
  apply comes_block h.inside hat
  simpa [Spl.SETPRI, Spl.LOADCPU, merge_word, places sym cpu sp own, load_place (place _ _ _ _), h.self] using
    (comes_spl h).mono (fun _ hq => hq) fun _ hd => hd.of_entry

theorem comes_splx :
    Comes (code sym installed) ext
      (Returned sym cpu own ⟨⟨ax, cx, dx, bx, sp, bp, si, di, hi⟩, fl, df, m⟩
        (newIpl (word (place sym cpu sp own) m .baseSpl) (word (place sym cpu sp own) m .arg)))
      ⟨labelAddr (code sym installed) .splx, ⟨⟨ax, cx, dx, bx, sp, bp, si, di, hi⟩, fl, df, m⟩⟩ := by
  have hat : At (code sym installed) (labelAddr (code sym installed) .splx) (Spl.splx sym) := ⟨_, rfl⟩
  apply comes_block h.inside hat
  simp [Spl.splx, Spl.LOADCPU, merge_word, places sym cpu sp own, load_place (place _ _ _ _), h.self]
  exact (comes_spl h).mono (fun _ hq => hq) fun _ hd => hd.of_entry

theorem returned_same {l : Label} {ip : Nat} (hax : ax = word (place sym cpu sp own) m .pri)
    (hat : At (code sym installed) ip [.label l, Spl.patchPoint installed, .ret 0]) :
    Comes (code sym installed) ext
      (Returned sym cpu own ⟨⟨ax, cx, dx, bx, sp, bp, si, di, hi⟩, fl, df, m⟩ (word (place sym cpu sp own) m .pri))
      ⟨ip, ⟨⟨ax, cx, dx, bx, sp, bp, si, di, hi⟩, fl, df, m⟩⟩ := by
  apply comes_block h.inside hat
  simp
  exact .here ⟨rfl, ⟨rfl, rfl, rfl, rfl, rfl⟩, hax, rfl, fun _ _ _ _ => rfl⟩

theorem comes_RAISE {ip : Nat} {l : Label} {level : Int}
    (hat : At (code sym installed) ip (.label l :: Spl.RAISE sym level)) :
    Comes (code sym installed) ext
      (Returned sym cpu own ⟨⟨ax, cx, dx, bx, sp, bp, si, di, hi⟩, fl, df, m⟩
        (raised (word (place sym cpu sp own) m .baseSpl) (word (place sym cpu sp own) m .pri) (BitVec.ofInt 32 level)))
      ⟨ip, ⟨⟨ax, cx, dx, bx, sp, bp, si, di, hi⟩, fl, df, m⟩⟩ := by
  have hgt := difference_g (word (place sym cpu sp own) m .pri) (BitVec.ofInt 32 level)
  apply comes_block h.inside hat
  simp [Spl.RAISE, Spl.LOADCPU, Spl.GETIPL_NOGS, merge_word, places sym cpu sp own, load_place (place _ _ _ _), h.self]
  by_cases hraise : (word (place sym cpu sp own) m .pri).toInt < (BitVec.ofInt 32 level).toInt
  · rw [decide_eq_true hraise] at hgt
    rw [run_jcc_taken hgt, raised, if_pos hraise]
    exact ⟨_, rfl, (comes_spl h).mono (fun _ hq => hq) fun _ hd => hd.of_entry⟩
  · have hat' : At (code sym installed) (labelAddr (code sym installed) .setsplhisti)
        ((Spl.splhi sym installed).drop 14) := ⟨_, rfl⟩
    rw [decide_eq_false hraise] at hgt
    rw [run_jcc_not hgt, raised, if_neg hraise]
    exact ⟨_, rfl, (returned_same h rfl hat').mono (fun _ hq => hq) fun _ hd => hd.of_entry⟩

theorem comes_splr :
    Comes (code sym installed) ext
      (Returned sym cpu own ⟨⟨ax, cx, dx, bx, sp, bp, si, di, hi⟩, fl, df, m⟩
        (raised (word (place sym cpu sp own) m .baseSpl) (word (place sym cpu sp own) m .pri)
          (word (place sym cpu sp own) m .arg)))
      ⟨labelAddr (code sym installed) .splr, ⟨⟨ax, cx, dx, bx, sp, bp, si, di, hi⟩, fl, df, m⟩⟩ := by
  have hat : At (code sym installed) (labelAddr (code sym installed) .splr) ((Spl.splr sym installed).take 7) :=
    ⟨_, rfl⟩
  have hgt := difference_g (word (place sym cpu sp own) m .pri) (word (place sym cpu sp own) m .arg)
  apply comes_block h.inside hat
  simp [Spl.splr, Spl.LOADCPU, Spl.GETIPL_NOGS, merge_word, places sym cpu sp own, load_place (place _ _ _ _), h.self]
  by_cases hraise : (word (place sym cpu sp own) m .pri).toInt < (word (place sym cpu sp own) m .arg).toInt
  · rw [decide_eq_true hraise] at hgt
    rw [run_jcc_taken hgt, raised, if_pos hraise]
    exact ⟨_, rfl, (comes_spl h).mono (fun _ hq => hq) fun _ hd => hd.of_entry⟩
  · have hat' : At (code sym installed) (labelAddr (code sym installed) .splrSetsti) ((Spl.splr sym installed).drop 7) :=
      ⟨_, rfl⟩
    rw [decide_eq_false hraise] at hgt
    rw [run_jcc_not hgt, raised, if_neg hraise]
    exact ⟨_, rfl, (returned_same h rfl hat').mono (fun _ hq => hq) fun _ hd => hd.of_entry⟩

theorem comes_splhi {level : BitVec 32} (hlevel : BitVec.ofInt 32 sym.dispLevel = level) :
    Comes (code sym installed) ext
      (Returned sym cpu own ⟨⟨ax, cx, dx, bx, sp, bp, si, di, hi⟩, fl, df, m⟩
        (higher (word (place sym cpu sp own) m .pri) level))
      ⟨labelAddr (code sym installed) .splhi, ⟨⟨ax, cx, dx, bx, sp, bp, si, di, hi⟩, fl, df, m⟩⟩ := by
  have hat : At (code sym installed) (labelAddr (code sym installed) .splhi)
      (((Spl.splhi sym installed).drop 1).take 11) := ⟨_, rfl⟩
  have hle := difference_le (word (place sym cpu sp own) m .pri) level
  apply comes_block h.inside hat
  simp [Spl.splhi, Spl.LOADCPU, Spl.SETIPL_NOGS, merge_word, places sym cpu sp own, load_place (place _ _ _ _), h.self,
    hlevel]
  by_cases hraise : (word (place sym cpu sp own) m .pri).toInt < level.toInt
  · have hat' : At (code sym installed) 30 ((Spl.splhi sym installed).drop 12) := ⟨_, rfl⟩
    have hnew : place sym cpu sp own 32 .new + 4#32 = place sym cpu sp own 32 .old := by
      rw [place, place]
      bv_omega
    have hslot : place sym cpu sp own 32 .old + 4#32 = sp := by
      rw [place]
      bv_omega
    rw [decide_eq_false (not_le.mpr hraise)] at hle
    rw [run_jcc_not hle, higher, if_pos hraise]
    simp [places sym cpu sp own, load_place (place _ _ _ _), word_store_other h.spread]
    refine comes_call h (b := 30) (by norm_num) fun ax' cx' dx' hi' fl' df' m' hself hsoft hold hpri hrest => ?_
    apply comes_block h.inside hat'
    simp [Spl.splhi, merge_word, load_place (place _ _ _ _), hnew, hslot]
    refine .here ⟨?_, ⟨rfl, rfl, rfl, rfl, rfl⟩, hold, hpri, hrest⟩
    exact congrArg BitVec.toNat (hrest 32 .ret rfl rfl)
  · have hsti : At (code sym installed) (labelAddr (code sym installed) .setsplhisti)
        ((Spl.splhi sym installed).drop 14) := ⟨_, rfl⟩
    rw [decide_eq_true (not_lt.mp hraise)] at hle
    rw [run_jcc_taken hle, higher, if_neg hraise]
    exact ⟨_, rfl, (returned_same h rfl hsti).mono (fun _ hq => hq) fun _ hd => hd.of_entry⟩

end Routines

def label : Entry → Label
  | .spl0 => .spl0
  | .splzs => .splzs
  | .spl8 => .spl8
  | .splx => .splx
  | .spl7 => .spl7
  | .splhi => .splhi
  | .splr => .splr

theorem comes_routine {q : Request} (h : Ready sym installed ext cpu own s.regs.sp s.mem)
    (hdisp : sym.dispLevel = DISP_LEVEL)
    (harg : q.entry.takesArg = true → word (place sym cpu s.regs.sp own) s.mem .arg = q.arg) :
    Comes (code sym installed) ext
      (Returned sym cpu own s (q.sets (word (place sym cpu s.regs.sp own) s.mem .baseSpl)
        (word (place sym cpu s.regs.sp own) s.mem .pri)))
      ⟨labelAddr (code sym installed) (label q.entry), s⟩ := by
  obtain ⟨⟨ax, cx, dx, bx, sp, bp, si, di, hi⟩, fl, df, m⟩ := s
  obtain ⟨entry, arg⟩ := q
  cases entry with
  | spl0 =>
      have hat : At (code sym installed) (labelAddr (code sym installed) .spl0) (.label .spl0 :: Spl.SETPRI sym 0) :=
        ⟨_, rfl⟩
      exact comes_SETPRI h hat
  | splzs =>
      have hat : At (code sym installed) (labelAddr (code sym installed) .splzs) (.label .splzs :: Spl.SETPRI sym 12) :=
        ⟨_, rfl⟩
      exact comes_SETPRI h hat
  | spl8 =>
      have hat : At (code sym installed) (labelAddr (code sym installed) .spl8) (.label .spl8 :: Spl.SETPRI sym 15) :=
        ⟨_, rfl⟩
      exact comes_SETPRI h hat
  | splx =>
      obtain rfl := harg rfl
      exact comes_splx h
  | spl7 =>
      have hat : At (code sym installed) (labelAddr (code sym installed) .spl7) (.label .spl7 :: Spl.RAISE sym 13) :=
        ⟨_, rfl⟩
      exact comes_RAISE h hat
  | splhi =>
      have hlevel : BitVec.ofInt 32 sym.dispLevel = BitVec.ofInt 32 DISP_LEVEL := by rw [hdisp]
      exact comes_splhi h hlevel
  | splr =>
      obtain rfl := harg rfl
      exact comes_splr h

/-- A call of a routine, with the caller neither here nor there. -/
structure Entered (sym : Symbols) (installed : Bool) (ext : Nat → Option (State 32 → State 32)) (cpu : BitVec 32)
    (q : Request) (s : State 32) : Prop where
  inside : ∀ i < (code sym installed).length, ext i = none
  spread : Spread (place sym cpu s.regs.sp (fun _ => Empty.elim))
  self : word (place sym cpu s.regs.sp (fun _ => Empty.elim)) s.mem .self = cpu
  setspl : Outer sym cpu s.regs.sp (fun _ => Empty.elim) ext
    (word (place sym cpu s.regs.sp (fun _ => Empty.elim)) s.mem .setspl)
  disp : sym.dispLevel = DISP_LEVEL
  arg : q.entry.takesArg = true → word (place sym cpu s.regs.sp (fun _ => Empty.elim)) s.mem .arg = q.arg
  caller : Halted (code sym installed) ext (word (place sym cpu s.regs.sp (fun _ => Empty.elim)) s.mem .ret).toNat

def service (sym : Symbols) (installed : Bool) (ext : Nat → Option (State 32 → State 32)) (cpu : BitVec 32) :
    Service (State 32) where
  pri s := load 32 s.mem (cpu + BitVec.ofInt 32 sym.cpuPri)
  base s := load 32 s.mem (cpu + BitVec.ofInt 32 sym.cpuBaseSpl)
  pending s := load 32 s.mem (cpu + BitVec.ofInt 32 sym.cpuSoftinfo)
  Entered := Entered sym installed ext cpu
  Returns q s x t := ∃ d : Cfg 32,
    ReflTransGen (StepsWith (code sym installed) ext) ⟨labelAddr (code sym installed) (label q.entry), s⟩ d ∧
    (∀ c, ¬ StepsWith (code sym installed) ext d c) ∧ d.state = t ∧ t.regs.ax = x

theorem lawful_service : (service sym installed ext cpu).Lawful := by
  have hcomes (q : Request) (s : State 32) (h : Entered sym installed ext cpu q s)
      (hs : (service sym installed ext cpu).Good s) :=
    comes_routine ⟨h.inside, h.spread, h.self, hs.idle, h.setspl⟩ h.disp h.arg
  have hstop {q : Request} {s : State 32} {p : BitVec 32} (h : Entered sym installed ext cpu q s) (c d : Cfg 32)
      (hc : Returned sym cpu (fun _ => Empty.elim) s p c) : ¬ StepsWith (code sym installed) ext c d := by
    apply Halted.not_steps
    rw [hc.ip]
    exact h.caller
  constructor
  · intro q s h hs hlevel
    obtain ⟨d, hd, hret⟩ := (hcomes q s h hs).exists_end
    exact ⟨_, _, d, hd, fun c => hstop h d c hret, rfl, rfl⟩
  · rintro q s x t h hs hlevel ⟨d, hd, hend, rfl, rfl⟩
    have hret := (hcomes q s h hs).ends (hstop h) hd hend
    refine ⟨hret.ax, ?_, hret.words 32 .baseSpl rfl rfl, hret.words 32 .softinfo rfl rfl⟩
    rw [← Request.toNat_sets hs.base_le hs.pri_le hlevel]
    exact congrArg BitVec.toNat hret.pri

end SysvDev.Subr.SplI386
