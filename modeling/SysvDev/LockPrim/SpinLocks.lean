import SysvDev.LockPrim.Amd64
import SysvDev.LockPrim.Byte
import SysvDev.LockPrim.I386

namespace SysvDev.LockPrim.SpinLocks

open X86.Memory X86.Machine X86.Cells X86.Words X86.Run Interleaving Byte Inevitable
open Subr Subr.Levels
open Subr.Spl (newIpl)

section Level

variable {base pri : BitVec 32}

/-- The level goes through the 16 bits of the old one. -/
theorem setWidth_old (h : pri.toNat ≤ 15) : (pri.setWidth 16).setWidth 32 = pri := by
  apply BitVec.eq_of_toNat_eq
  simp only [BitVec.toNat_setWidth]
  omega

theorem newIpl_old (hbase : base.toNat ≤ pri.toNat) (hpri : pri.toNat ≤ 15) :
    newIpl base ((pri.setWidth 16).setWidth 32) = pri := by
  apply BitVec.eq_of_toNat_eq
  rw [setWidth_old hpri, toNat_newIpl]
  omega

end Level

section Pair

variable {w : Nat} {L : Type} [DecidableEq L]

/-- What the two calls with a level are on a port: their text and what it calls,
where `lock_clear_splx` is and that it is called, the registers a call keeps, and
the levels of the CPU. -/
structure Calls (w : Nat) (L : Type) where
  text : List (Line L)
  ext : Nat → Option (State w → State w)
  clearSplx : Nat
  Clearing : BitVec 16 → State w → Prop
  Keeps : State w → State w → Prop
  pri : Mem w → BitVec 32
  baseSpl : Mem w → BitVec 32

/-- `lock_set_spl` has returned with the lock and has stored the old level;
`lock_clear_splx` with that one, whenever it is called on the CPU, clears the
lock and sets the level of before. -/
structure Paired (c : Calls w L) (lp op : BitVec w) (s : State w) (d : Cfg w) : Prop where
  ip : d.ip = (load w s.mem s.regs.sp).toNat
  keeps : c.Keeps s d.state
  byte : load 8 d.state.mem lp = 0xff#8
  old : load 16 d.state.mem op = (c.pri s.mem).setWidth 16
  clear : ∀ t, c.Clearing (load 16 d.state.mem op) t → c.baseSpl t.mem = c.baseSpl s.mem →
    Comes c.text c.ext
      (fun e => e.ip = (load w t.mem t.regs.sp).toNat ∧ c.Keeps t e.state ∧ load 8 e.state.mem lp = 0#8 ∧
        c.pri e.state.mem = c.pri s.mem)
      ⟨c.clearSplx, t⟩

def calls64 (sym : SplAmd64.Symbols) (patched installed : Bool) (ext : Nat → Option (State 64 → State 64))
    (cpu lp : BitVec 64) : Calls 64 (SplAmd64.Label ⊕ Amd64.Label) where
  text := Amd64.code sym patched installed
  ext := ext
  clearSplx := Amd64.position .lockClearSplx
  Clearing := Amd64.Clearing sym patched installed ext cpu lp
  Keeps := Keeps64
  pri := Amd64.cpuPri sym cpu
  baseSpl := Amd64.cpuBaseSpl sym cpu

def calls32 (sym : Spl.Symbols) (installed : Bool) (ext : Nat → Option (State 32 → State 32)) (cpu lp : BitVec 32) :
    Calls 32 (Spl.Label ⊕ I386.Label) where
  text := I386.code sym installed
  ext := ext
  clearSplx := I386.position .lockClearSplx
  Clearing := I386.Clearing sym installed ext cpu lp
  Keeps := Keeps32
  pri := I386.cpuPri sym cpu
  baseSpl := I386.cpuBaseSpl sym cpu

abbrev Paired64 (sym : SplAmd64.Symbols) (patched installed : Bool) (ext : Nat → Option (State 64 → State 64))
    (cpu lp op : BitVec 64) : State 64 → Cfg 64 → Prop := Paired (calls64 sym patched installed ext cpu lp) lp op

abbrev Paired32 (sym : Spl.Symbols) (installed : Bool) (ext : Nat → Option (State 32 → State 32))
    (cpu lp op : BitVec 32) : State 32 → Cfg 32 → Prop := Paired (calls32 sym installed ext cpu lp) lp op

theorem comes_paired {c : Calls w L} {lp op : BitVec w} {s : State w} {ip : Nat}
    (hbase : (c.baseSpl s.mem).toNat ≤ (c.pri s.mem).toNat) (hpri : (c.pri s.mem).toNat ≤ 15)
    (hset : Comes c.text c.ext (fun d => d.ip = (load w s.mem s.regs.sp).toNat ∧ c.Keeps s d.state ∧
      load 8 d.state.mem lp = 0xff#8 ∧ load 16 d.state.mem op = (c.pri s.mem).setWidth 16) ⟨ip, s⟩)
    (hclear : ∀ old t, c.Clearing old t → (c.baseSpl t.mem).toNat ≤ 15 → old.toNat ≤ 15 →
      Comes c.text c.ext (fun e => e.ip = (load w t.mem t.regs.sp).toNat ∧ c.Keeps t e.state ∧
        load 8 e.state.mem lp = 0#8 ∧ c.pri e.state.mem = newIpl (c.baseSpl t.mem) (old.setWidth 32)) ⟨c.clearSplx, t⟩) :
    Comes c.text c.ext (Paired c lp op s) ⟨ip, s⟩ := by
  refine hset.mono (fun _ hq => hq) ?_
  rintro d ⟨hip, hkeeps, hbyte, hold⟩
  refine ⟨hip, hkeeps, hbyte, hold, fun t ht hsame => ?_⟩
  rw [hold] at ht
  have hlevel : ((c.pri s.mem).setWidth 16).toNat ≤ 15 := by
    rw [BitVec.toNat_setWidth]
    exact (Nat.mod_le _ _).trans hpri
  have hcomes := hclear _ t ht (hsame ▸ hbase.trans hpri) hlevel
  rwa [hsame, newIpl_old hbase hpri] at hcomes

theorem comes_paired64 {sym : SplAmd64.Symbols} {patched installed : Bool} {ext : Nat → Option (State 64 → State 64)}
    {cpu lp op : BitVec 64} {s : State 64} (h : Amd64.Setting sym patched installed ext cpu lp op s)
    (hbase : (Amd64.cpuBaseSpl sym cpu s.mem).toNat ≤ (Amd64.cpuPri sym cpu s.mem).toNat)
    (hpri : (Amd64.cpuPri sym cpu s.mem).toNat ≤ 15) :
    Comes (Amd64.code sym patched installed) ext (Paired64 sym patched installed ext cpu lp op s)
      ⟨Amd64.position .lockSetSpl, s⟩ := by
  apply comes_paired (c := calls64 sym patched installed ext cpu lp) hbase hpri
  · exact (h.comes (hbase.trans hpri)).mono (fun _ hq => hq) fun d hd => ⟨hd.ip, hd.keeps, hd.byte, hd.old⟩
  · intro old t ht hbase' hold
    exact (ht.comes hbase' hold).mono (fun _ hq => hq) fun e he => ⟨he.ip, he.keeps, he.byte, he.pri⟩

theorem comes_paired32 {sym : Spl.Symbols} {installed : Bool} {ext : Nat → Option (State 32 → State 32)}
    {cpu lp op : BitVec 32} {s : State 32} (h : I386.Setting sym installed ext cpu lp op s)
    (hbase : (I386.cpuBaseSpl sym cpu s.mem).toNat ≤ (I386.cpuPri sym cpu s.mem).toNat)
    (hpri : (I386.cpuPri sym cpu s.mem).toNat ≤ 15) :
    Comes (I386.code sym installed) ext (Paired32 sym installed ext cpu lp op s) ⟨I386.position .lockSetSpl, s⟩ := by
  apply comes_paired (c := calls32 sym installed ext cpu lp) hbase hpri
  · exact h.comes.mono (fun _ hq => hq) fun d hd => ⟨hd.ip, hd.keeps, hd.byte, hd.old⟩
  · intro old t ht _ _
    exact ht.comes.mono (fun _ hq => hq) fun e he => ⟨he.ip, he.keeps, he.byte, he.pri⟩

end Pair

/-- The threads on one byte, and a holder's pair of calls on its CPU. -/
theorem spin_locks :
    (∀ (T : Type) [DecidableEq T] (isa : Isa) (s s' : Interleaving.State T Thread (BitVec 8)), Initial s →
      Interleaving.Run (Act isa) (fun _ => True) s s' →
      (s'.shared = 0#8 ↔ ∀ t, ¬ Holds (s'.loc t)) ∧ (∀ t u, Holds (s'.loc t) → Holds (s'.loc u) → t = u) ∧
      (∀ t is, (s'.loc t).rest = .ret :: is → Returns (s'.loc t).locals) ∧ ∀ t, Ordered (s'.loc t).locals) ∧
    (∀ (sym : SplAmd64.Symbols) (patched installed : Bool) (ext : Nat → Option (State 64 → State 64))
      (cpu lp op : BitVec 64) (s : State 64), Amd64.Setting sym patched installed ext cpu lp op s →
      (Amd64.cpuBaseSpl sym cpu s.mem).toNat ≤ (Amd64.cpuPri sym cpu s.mem).toNat →
      (Amd64.cpuPri sym cpu s.mem).toNat ≤ 15 →
      Comes (Amd64.code sym patched installed) ext (Paired64 sym patched installed ext cpu lp op s)
        ⟨Amd64.position .lockSetSpl, s⟩) ∧
    (∀ (sym : Spl.Symbols) (installed : Bool) (ext : Nat → Option (State 32 → State 32)) (cpu lp op : BitVec 32)
      (s : State 32), I386.Setting sym installed ext cpu lp op s →
      (I386.cpuBaseSpl sym cpu s.mem).toNat ≤ (I386.cpuPri sym cpu s.mem).toNat →
      (I386.cpuPri sym cpu s.mem).toNat ≤ 15 →
      Comes (I386.code sym installed) ext (Paired32 sym installed ext cpu lp op s) ⟨I386.position .lockSetSpl, s⟩) := by
  refine ⟨fun T _ isa s s' hinit hrun => ?_, fun _ _ _ _ _ _ _ _ h => comes_paired64 h,
    fun _ _ _ _ _ _ _ h => comes_paired32 h⟩
  have hkept : Kept isa s' := run_kept hinit hrun
  refine ⟨hkept.claimed.free_iff, hkept.claimed.unique, fun t is ht => ?_, fun t => (hkept.assured t).ordered⟩
  have hassured := hkept.assured t
  rw [ht] at hassured
  exact hassured.2

section Sample

def sampleThreads : Interleaving.State Bool Thread (BitVec 8) :=
  ⟨fun _ => ⟨[], ⟨0#8, 0#32, false, .lockClear, false, false, none⟩⟩, 0#8⟩

theorem initial_sample : Initial sampleThreads := ⟨rfl, fun _ => rfl, fun _ => rfl, fun _ => rfl⟩

theorem run_sample : ∃ s, Interleaving.Run (Act .amd64) (fun _ => True) sampleThreads s ∧
    (s.loc true).rest = [.ret] ∧ (s.loc true).locals.routine = .lockTry ∧ (s.loc true).locals.eax = 0xff#32 := by
  have hall : ∀ s : Interleaving.State Bool Thread (BitVec 8), True := fun _ => trivial
  have h0 : Interleaving.Run (Act .amd64) (fun _ => True) sampleThreads sampleThreads := .refl
  have h1 := h0.next hall true (.call .lockTry (by rintro ⟨⟩))
  have h2 := h1.next hall true (.moves .movDl)
  have h3 := h2.next hall true (.moves .movzb)
  have h4 := h3.next hall true .xchgb
  have h5 := h4.next hall true (.moves .xorb)
  exact ⟨_, h5, rfl, rfl, rfl⟩

def sampleSymbols : SplAmd64.Symbols := ⟨4096, 4104, 0, 0, 0, 0, 0, 0, 0, 0, 0, 0, 4, 8, 16, DISP_LEVEL⟩

def sampleMemory : Mem 64 := store (store (fun _ => 0#8) 4096#64 8192#64) 4104#64 200#64

def sampleState : State 64 :=
  ⟨⟨0#64, 0#64, 12304#64, 0#64, 65536#64, 0#64, 0#64, 12288#64, .zero⟩, undefinedFlags, false, sampleMemory⟩

def sampleSetspl (i : Nat) : Option (State 64 → State 64) :=
  if i = 200 then some fun s => { s with regs := { s.regs with sp := s.regs.sp + 8#64 } } else none

theorem load_sampleMemory : load 64 sampleMemory 4096#64 = 8192#64 ∧ load 64 sampleMemory 4104#64 = 200#64 := by
  constructor
  · rw [sampleMemory, load_store_apart (by decide)]
    apply load_store_same <;> norm_num
  · apply load_store_same <;> norm_num

theorem load_sampleMemory_other {n : Nat} {a : BitVec 64} (h : Apart 4096#64 8 a (n / 8)) (h' : Apart 4104#64 8 a (n / 8)) :
    load n sampleMemory a = 0#n := by
  rw [sampleMemory, load_store_apart h', load_store_apart h, load_zero]

theorem inside_sample {i : Nat} (hi : i < (Amd64.code sampleSymbols true true).length) : sampleSetspl i = none := by
  rw [Amd64.length_code] at hi
  rw [sampleSetspl, if_neg (by omega)]

theorem setting_sample : Amd64.Setting sampleSymbols true true sampleSetspl 8192#64 12288#64 12304#64 sampleState where
  inside _ := inside_sample
  spread := by
    intro n k i j hij
    rcases i with _ | _ | _ | _ | _ | _ | _ | _ | _ | _ | i <;> rcases j with _ | _ | _ | _ | _ | _ | _ | _ | _ | _ | j
    all_goals try cases i
    all_goals try cases j
    all_goals first | exact absurd rfl hij | decide
  self := load_sampleMemory.1
  soft := load_sampleMemory_other (by decide) (by decide)
  setspl := by
    have hsetspl : word (Amd64.place sampleSymbols 8192#64 65536#64 12288#64 12304#64) sampleMemory .setspl = 200#64 :=
      load_sampleMemory.2
    rw [sampleState, hsetspl]
    exact ⟨_, rfl, fun _ _ => ⟨⟨rfl, rfl, rfl, rfl, rfl, rfl, rfl⟩, fun _ _ _ => rfl⟩⟩
  lock := rfl
  level := by decide
  ptr := rfl
  free := load_sampleMemory_other (by decide) (by decide)

def sampleSymbols32 : Spl.Symbols := ⟨4096, 4104, 0, 0, 0, 0, 4, 8, DISP_LEVEL⟩

def sampleMemory32 : Mem 32 :=
  store (store (store (store (fun _ => 0#8) 4096#32 8192#32) 4104#32 200#32) 65540#32 12288#32) 65548#32 12304#32

def sampleState32 : State 32 :=
  ⟨⟨0#32, 0#32, 0#32, 0#32, 65536#32, 0#32, 0#32, 0#32, .zero⟩, undefinedFlags, false, sampleMemory32⟩

def sampleSetspl32 (i : Nat) : Option (State 32 → State 32) :=
  if i = 200 then some fun s => { s with regs := { s.regs with sp := s.regs.sp + 4#32 } } else none

theorem load_sampleMemory32 : load 32 sampleMemory32 4096#32 = 8192#32 ∧ load 32 sampleMemory32 4104#32 = 200#32 ∧
    load 32 sampleMemory32 65540#32 = 12288#32 ∧ load 32 sampleMemory32 65548#32 = 12304#32 := by
  refine ⟨?_, ?_, ?_, ?_⟩
  · rw [sampleMemory32, load_store_apart (by decide), load_store_apart (by decide), load_store_apart (by decide)]
    apply load_store_same <;> norm_num
  · rw [sampleMemory32, load_store_apart (by decide), load_store_apart (by decide)]
    apply load_store_same <;> norm_num
  · rw [sampleMemory32, load_store_apart (by decide)]
    apply load_store_same <;> norm_num
  · apply load_store_same <;> norm_num

theorem load_sampleMemory32_other {n : Nat} {a : BitVec 32}
    (h : Apart 4096#32 4 a (n / 8) ∧ Apart 4104#32 4 a (n / 8) ∧ Apart 65540#32 4 a (n / 8) ∧
      Apart 65548#32 4 a (n / 8)) : load n sampleMemory32 a = 0#n := by
  rw [sampleMemory32, load_store_apart h.2.2.2, load_store_apart h.2.2.1, load_store_apart h.2.1,
    load_store_apart h.1, load_zero]

theorem setting_sample32 :
    I386.Setting sampleSymbols32 true sampleSetspl32 8192#32 12288#32 12304#32 sampleState32 where
  inside i hi := by
    rw [I386.length_code] at hi
    rw [sampleSetspl32, if_neg (by omega)]
  spread := by
    intro n k i j hij
    rcases i with _ | _ | _ | _ | _ | _ | _ | _ | _ | _ | i <;> rcases j with _ | _ | _ | _ | _ | _ | _ | _ | _ | _ | j
    all_goals try cases i
    all_goals try cases j
    all_goals first | exact absurd rfl hij | decide
  self := load_sampleMemory32.1
  soft := load_sampleMemory32_other (by decide)
  setspl := by
    have hsetspl : word (I386.place sampleSymbols32 8192#32 65536#32 12288#32 12304#32) sampleMemory32 .setspl = 200#32 :=
      load_sampleMemory32.2.1
    rw [sampleState32, hsetspl]
    exact ⟨_, rfl, fun _ _ => ⟨⟨rfl, rfl, rfl, rfl, rfl⟩, fun _ _ _ => rfl⟩⟩
  lock := load_sampleMemory32.2.2.1
  ptr := load_sampleMemory32.2.2.2
  free := load_sampleMemory32_other (by decide)

theorem levels_sample : Amd64.cpuPri sampleSymbols 8192#64 sampleMemory = 0#32 ∧
    Amd64.cpuBaseSpl sampleSymbols 8192#64 sampleMemory = 0#32 ∧
    I386.cpuPri sampleSymbols32 8192#32 sampleMemory32 = 0#32 ∧
    I386.cpuBaseSpl sampleSymbols32 8192#32 sampleMemory32 = 0#32 :=
  ⟨load_sampleMemory_other (by decide) (by decide), load_sampleMemory_other (by decide) (by decide),
    load_sampleMemory32_other (by decide), load_sampleMemory32_other (by decide)⟩

end Sample

theorem spin_locks_taken :
    (∃ s, Interleaving.Run (Act .amd64) (fun _ => True) sampleThreads s ∧ (s.loc true).locals.eax = 0xff#32 ∧
      Holds (s.loc true) ∧ ¬ Holds (s.loc false)) ∧
    Comes (Amd64.code sampleSymbols true true) sampleSetspl
      (Paired64 sampleSymbols true true sampleSetspl 8192#64 12288#64 12304#64 sampleState)
      ⟨Amd64.position .lockSetSpl, sampleState⟩ ∧
    Comes (I386.code sampleSymbols32 true) sampleSetspl32
      (Paired32 sampleSymbols32 true sampleSetspl32 8192#32 12288#32 12304#32 sampleState32)
      ⟨I386.position .lockSetSpl, sampleState32⟩ := by
  obtain ⟨hthreads, hamd64, hi386⟩ := spin_locks
  obtain ⟨hpri, hbase, hpri', hbase'⟩ := levels_sample
  refine ⟨?_, ?_, ?_⟩
  · obtain ⟨s, hrun, hret, hroutine, heax⟩ := run_sample
    obtain ⟨-, hunique, hreturns, -⟩ := hthreads Bool .amd64 _ s initial_sample hrun
    have hback := hreturns true [] hret
    rw [Returns, hroutine] at hback
    have hholds : Holds (s.loc true) := hback.2 (hback.1.mp (by rw [heax]; decide))
    exact ⟨s, hrun, heax, hholds, fun hfalse => by cases hunique true false hholds hfalse⟩
  · apply hamd64 _ _ _ _ _ _ _ _ setting_sample <;> simp [sampleState, hpri, hbase]
  · apply hi386 _ _ _ _ _ _ _ setting_sample32 <;> simp [sampleState32, hpri', hbase']

end SysvDev.LockPrim.SpinLocks
