import Mathlib.Data.Finset.Basic
import SysvDev.Interleaving

namespace SysvDev.Nca.Lock

open Function Interleaving

variable {T : Type} [DecidableEq T]

def useLock : BitVec 32 := 0x80000000#32

def countMask : BitVec 32 := 0x3FFFFFFF#32

structure Shared (T : Type) where
  /-- `nca_gv[cpu].dcb_readers` -/
  dcbReaders : Nat → BitVec 32
  /-- The owner of `nca_dcb_lock`. -/
  ncaDcbLock : Option T
  /-- The owner of the mutex `nca_dcb_readers`. -/
  ncaDcbReaders : Option T
  /-- The threads that `nca_dcb_wait` blocks. -/
  ncaDcbWait : Finset T

/-- Where a thread is: each point is named for what it does next there. -/
inductive Point
  | idle
  -- DCB_RD_ENTER
  | rdAdd (cpu : Nat)
  | rdLock (cpu : Nat)
  | rdSub (cpu : Nat)
  | rdHasWaiters (cpu : Nat)
  | rdSignal (cpu : Nat)
  | rdUnlock (cpu : Nat)
  | rdReadersEnter (cpu : Nat)
  | rdReadersExit (cpu : Nat)
  /-- Between `DCB_RD_ENTER` and `DCB_RD_EXIT`. -/
  | rdInside (cpu : Nat)
  -- DCB_RD_EXIT
  | rxLock
  | rxHasWaiters
  | rxSignal
  | rxUnlock
  -- DCB_WR_ENTER
  | wrReadersEnter
  | wrLock
  /-- The head of the loop over the CPUs. -/
  | wrFor (cpu : Nat) (readers : BitVec 32)
  | wrCas (cpu : Nat) (old readers : BitVec 32)
  | wrReread (cpu : Nat) (readers : BitVec 32)
  | wrWait
  | wrUnlock
  /-- Between `DCB_WR_ENTER` and `DCB_WR_EXIT`. -/
  | wrInside
  -- DCB_WR_EXIT
  | wxLock
  | wxFor (cpu : Nat)
  | wxCas (cpu : Nat) (old : BitVec 32)
  | wxReread (cpu : Nat)
  | wxUnlock
  | wxReadersExit
  deriving DecidableEq

namespace Shared

/-- A write of `nca_gv[cpu].dcb_readers`. -/
def put (sh : Shared T) (cpu : Nat) (x : BitVec 32) : Shared T :=
  { sh with dcbReaders := update sh.dcbReaders cpu x }

omit [DecidableEq T] in
theorem put_self (sh : Shared T) (cpu : Nat) (x : BitVec 32) : (sh.put cpu x).dcbReaders cpu = x := update_self _ _ _

omit [DecidableEq T] in
theorem put_of_ne (sh : Shared T) {cpu c : Nat} (x : BitVec 32) (h : c ≠ cpu) :
    (sh.put cpu x).dcbReaders c = sh.dcbReaders c :=
  update_of_ne h _ _

omit [DecidableEq T] in
theorem put_put (sh : Shared T) (cpu : Nat) (x y : BitVec 32) : (sh.put cpu x).put cpu y = sh.put cpu y := by
  rw [put, put, put, update_idem]

end Shared

/-- The atomic steps of thread `t`. -/
inductive Act (maxNcpus : Nat) (t : T) : Point → Shared T → Point → Shared T → Prop
  -- DCB_RD_ENTER: cpu = CPU->cpu_seqid
  | rdEnter {sh : Shared T} {cpu : Nat} (h : cpu < maxNcpus) : Act maxNcpus t .idle sh (.rdAdd cpu) sh
  | rdAdmitted {sh : Shared T} {cpu : Nat} (h : (sh.dcbReaders cpu + 1) &&& useLock = 0#32) :
      Act maxNcpus t (.rdAdd cpu) sh (.rdInside cpu) (sh.put cpu (sh.dcbReaders cpu + 1))
  | rdRefused {sh : Shared T} {cpu : Nat} (h : (sh.dcbReaders cpu + 1) &&& useLock ≠ 0#32) :
      Act maxNcpus t (.rdAdd cpu) sh (.rdLock cpu) (sh.put cpu (sh.dcbReaders cpu + 1))
  | rdLock {sh : Shared T} {cpu : Nat} (h : sh.ncaDcbLock = none) :
      Act maxNcpus t (.rdLock cpu) sh (.rdSub cpu) { sh with ncaDcbLock := some t }
  | rdSub {sh : Shared T} {cpu : Nat} (h : sh.dcbReaders cpu - 1 ≠ useLock) :
      Act maxNcpus t (.rdSub cpu) sh (.rdUnlock cpu) (sh.put cpu (sh.dcbReaders cpu - 1))
  | rdSubLast {sh : Shared T} {cpu : Nat} (h : sh.dcbReaders cpu - 1 = useLock) :
      Act maxNcpus t (.rdSub cpu) sh (.rdHasWaiters cpu) (sh.put cpu (sh.dcbReaders cpu - 1))
  | rdNoWaiters {sh : Shared T} {cpu : Nat} (h : sh.ncaDcbWait = ∅) :
      Act maxNcpus t (.rdHasWaiters cpu) sh (.rdUnlock cpu) sh
  | rdHasWaiters {sh : Shared T} {cpu : Nat} (h : sh.ncaDcbWait ≠ ∅) :
      Act maxNcpus t (.rdHasWaiters cpu) sh (.rdSignal cpu) sh
  | rdSignal {sh : Shared T} {cpu : Nat} (u : T) (h : u ∈ sh.ncaDcbWait) :
      Act maxNcpus t (.rdSignal cpu) sh (.rdUnlock cpu) { sh with ncaDcbWait := sh.ncaDcbWait.erase u }
  | rdSignalNone {sh : Shared T} {cpu : Nat} (h : sh.ncaDcbWait = ∅) :
      Act maxNcpus t (.rdSignal cpu) sh (.rdUnlock cpu) sh
  | rdUnlock {sh : Shared T} {cpu : Nat} :
      Act maxNcpus t (.rdUnlock cpu) sh (.rdReadersEnter cpu) { sh with ncaDcbLock := none }
  | rdReadersEnter {sh : Shared T} {cpu : Nat} (h : sh.ncaDcbReaders = none) :
      Act maxNcpus t (.rdReadersEnter cpu) sh (.rdReadersExit cpu) { sh with ncaDcbReaders := some t }
  | rdReadersExit {sh : Shared T} {cpu : Nat} :
      Act maxNcpus t (.rdReadersExit cpu) sh (.rdAdd cpu) { sh with ncaDcbReaders := none }
  -- DCB_RD_EXIT
  | rxSub {sh : Shared T} {cpu : Nat} (h : sh.dcbReaders cpu - 1 ≠ useLock) :
      Act maxNcpus t (.rdInside cpu) sh .idle (sh.put cpu (sh.dcbReaders cpu - 1))
  | rxSubLast {sh : Shared T} {cpu : Nat} (h : sh.dcbReaders cpu - 1 = useLock) :
      Act maxNcpus t (.rdInside cpu) sh .rxLock (sh.put cpu (sh.dcbReaders cpu - 1))
  | rxLock {sh : Shared T} (h : sh.ncaDcbLock = none) :
      Act maxNcpus t .rxLock sh .rxHasWaiters { sh with ncaDcbLock := some t }
  | rxNoWaiters {sh : Shared T} (h : sh.ncaDcbWait = ∅) : Act maxNcpus t .rxHasWaiters sh .rxUnlock sh
  | rxHasWaiters {sh : Shared T} (h : sh.ncaDcbWait ≠ ∅) : Act maxNcpus t .rxHasWaiters sh .rxSignal sh
  | rxSignal {sh : Shared T} (u : T) (h : u ∈ sh.ncaDcbWait) :
      Act maxNcpus t .rxSignal sh .rxUnlock { sh with ncaDcbWait := sh.ncaDcbWait.erase u }
  | rxSignalNone {sh : Shared T} (h : sh.ncaDcbWait = ∅) : Act maxNcpus t .rxSignal sh .rxUnlock sh
  | rxUnlock {sh : Shared T} : Act maxNcpus t .rxUnlock sh .idle { sh with ncaDcbLock := none }
  -- DCB_WR_ENTER
  | wrEnter {sh : Shared T} : Act maxNcpus t .idle sh .wrReadersEnter sh
  | wrReadersEnter {sh : Shared T} (h : sh.ncaDcbReaders = none) :
      Act maxNcpus t .wrReadersEnter sh .wrLock { sh with ncaDcbReaders := some t }
  | wrLock {sh : Shared T} (h : sh.ncaDcbLock = none) :
      Act maxNcpus t .wrLock sh (.wrFor 0 0#32) { sh with ncaDcbLock := some t }
  | wrForSet {sh : Shared T} {cpu : Nat} {readers : BitVec 32} (h : cpu < maxNcpus)
      (hset : sh.dcbReaders cpu &&& useLock ≠ 0#32) :
      Act maxNcpus t (.wrFor cpu readers) sh (.wrFor (cpu + 1) (readers + (sh.dcbReaders cpu &&& countMask))) sh
  | wrForClear {sh : Shared T} {cpu : Nat} {readers : BitVec 32} (h : cpu < maxNcpus)
      (hclear : sh.dcbReaders cpu &&& useLock = 0#32) :
      Act maxNcpus t (.wrFor cpu readers) sh (.wrCas cpu (sh.dcbReaders cpu) readers) sh
  | wrCas {sh : Shared T} {cpu : Nat} {old readers : BitVec 32} (h : sh.dcbReaders cpu = old) :
      Act maxNcpus t (.wrCas cpu old readers) sh
        (.wrFor (cpu + 1) (readers + ((old ||| useLock) &&& countMask))) (sh.put cpu (old ||| useLock))
  | wrCasFailed {sh : Shared T} {cpu : Nat} {old readers : BitVec 32} (h : sh.dcbReaders cpu ≠ old) :
      Act maxNcpus t (.wrCas cpu old readers) sh (.wrReread cpu readers) sh
  | wrReread {sh : Shared T} {cpu : Nat} {readers : BitVec 32} :
      Act maxNcpus t (.wrReread cpu readers) sh (.wrCas cpu (sh.dcbReaders cpu) readers) sh
  | wrBreak {sh : Shared T} {cpu : Nat} {readers : BitVec 32} (h : ¬ cpu < maxNcpus) (hzero : readers = 0#32) :
      Act maxNcpus t (.wrFor cpu readers) sh .wrUnlock sh
  -- cv_wait gives up the mutex as it blocks, and takes it again after a signal
  | wrWait {sh : Shared T} {cpu : Nat} {readers : BitVec 32} (h : ¬ cpu < maxNcpus) (hne : readers ≠ 0#32) :
      Act maxNcpus t (.wrFor cpu readers) sh .wrWait
        { sh with ncaDcbLock := none, ncaDcbWait := insert t sh.ncaDcbWait }
  | wrWoken {sh : Shared T} (h : t ∉ sh.ncaDcbWait) (hfree : sh.ncaDcbLock = none) :
      Act maxNcpus t .wrWait sh (.wrFor 0 0#32) { sh with ncaDcbLock := some t }
  | wrUnlock {sh : Shared T} : Act maxNcpus t .wrUnlock sh .wrInside { sh with ncaDcbLock := none }
  -- DCB_WR_EXIT
  | wrExit {sh : Shared T} : Act maxNcpus t .wrInside sh .wxLock sh
  | wxLock {sh : Shared T} (h : sh.ncaDcbLock = none) :
      Act maxNcpus t .wxLock sh (.wxFor 0) { sh with ncaDcbLock := some t }
  | wxFor {sh : Shared T} {cpu : Nat} (h : cpu < maxNcpus) :
      Act maxNcpus t (.wxFor cpu) sh (.wxCas cpu (sh.dcbReaders cpu)) sh
  | wxCas {sh : Shared T} {cpu : Nat} {old : BitVec 32} (h : sh.dcbReaders cpu = old) :
      Act maxNcpus t (.wxCas cpu old) sh (.wxFor (cpu + 1)) (sh.put cpu (old &&& ~~~useLock))
  | wxCasFailed {sh : Shared T} {cpu : Nat} {old : BitVec 32} (h : sh.dcbReaders cpu ≠ old) :
      Act maxNcpus t (.wxCas cpu old) sh (.wxReread cpu) sh
  | wxReread {sh : Shared T} {cpu : Nat} :
      Act maxNcpus t (.wxReread cpu) sh (.wxCas cpu (sh.dcbReaders cpu)) sh
  | wxBreak {sh : Shared T} {cpu : Nat} (h : ¬ cpu < maxNcpus) : Act maxNcpus t (.wxFor cpu) sh .wxUnlock sh
  | wxUnlock {sh : Shared T} : Act maxNcpus t .wxUnlock sh .wxReadersExit { sh with ncaDcbLock := none }
  | wxReadersExit {sh : Shared T} :
      Act maxNcpus t .wxReadersExit sh .idle { sh with ncaDcbReaders := none }

def initial (T : Type) : State T Point (Shared T) :=
  ⟨fun _ => .idle, ⟨fun _ => 0#32, none, none, ∅⟩⟩

end SysvDev.Nca.Lock
