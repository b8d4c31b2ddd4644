import SysvDev.Interleaving

namespace SysvDev.Mutex.Paths

open Function Interleaving

variable {w : Nat} {T : Type}

def mutexWaiters : BitVec w := 1#w

/-- The routines with the fast path of `mutex_enter`. -/
inductive Routine
  | mutexEnter
  | mutexTryenter
  | mutexAdaptiveTryenter
  deriving DecidableEq

/-- Where a thread is: each point is named for what it does next there.
`thread` is the register that `CPU_THREAD` was loaded to. -/
inductive Point (w : Nat)
  | away
  | enterThread (f : Routine)
  | enterCas (f : Routine) (thread : BitVec w)
  -- mutex_exit
  | exitThread
  | exitLock (thread : BitVec w)
  | exitCmp (thread : BitVec w)
  | exitJne (zf : Bool)
  | exitStore
  | exitRet
  -- MUTEX_SET_WAITERS
  | setLoad
  | setCas (old : BitVec w)
  deriving DecidableEq

structure Thread (w : Nat) where
  point : Point w
  /-- Whether it has entered the mutex and not left it. -/
  owns : Bool

/-- The steps of a thread on `m_owner`. Where the fast path fails the routine
goes on elsewhere, and the word is as before. -/
inductive Act (ptr : T → BitVec w) (t : T) : Thread w → BitVec w → Thread w → BitVec w → Prop
  | mutexEnter {o : Bool} {x : BitVec w} (f : Routine) : Act ptr t ⟨.away, o⟩ x ⟨.enterThread f, o⟩ x
  | enterThread {o : Bool} {x : BitVec w} {f : Routine} :
      Act ptr t ⟨.enterThread f, o⟩ x ⟨.enterCas f (ptr t), o⟩ x
  | enterCas {o : Bool} {f : Routine} {thread : BitVec w} :
      Act ptr t ⟨.enterCas f thread, o⟩ 0#w ⟨.away, true⟩ thread
  | enterCasFails {o : Bool} {f : Routine} {x thread : BitVec w} (h : x ≠ 0#w) :
      Act ptr t ⟨.enterCas f thread, o⟩ x ⟨.away, o⟩ x
  | mutexExit {o : Bool} {x : BitVec w} : Act ptr t ⟨.away, o⟩ x ⟨.exitThread, o⟩ x
  | exitThread {o : Bool} {x : BitVec w} : Act ptr t ⟨.exitThread, o⟩ x ⟨.exitCmp (ptr t), o⟩ x
  -- on i386 the address of the lock is loaded in between
  | exitThread32 {o : Bool} {x : BitVec w} : Act ptr t ⟨.exitThread, o⟩ x ⟨.exitLock (ptr t), o⟩ x
  | exitLock {o : Bool} {x thread : BitVec w} : Act ptr t ⟨.exitLock thread, o⟩ x ⟨.exitCmp thread, o⟩ x
  | exitCmp {o : Bool} {x thread : BitVec w} : Act ptr t ⟨.exitCmp thread, o⟩ x ⟨.exitJne (x == thread), o⟩ x
  | exitJne {o : Bool} {x : BitVec w} : Act ptr t ⟨.exitJne true, o⟩ x ⟨.exitStore, o⟩ x
  | exitJneTaken {o : Bool} {x : BitVec w} : Act ptr t ⟨.exitJne false, o⟩ x ⟨.away, o⟩ x
  | exitStore {o : Bool} {x : BitVec w} : Act ptr t ⟨.exitStore, o⟩ x ⟨.exitRet, false⟩ 0#w
  | exitRet {o : Bool} {x : BitVec w} : Act ptr t ⟨.exitRet, o⟩ x ⟨.away, o⟩ x
  | setWaiters {o : Bool} {x : BitVec w} : Act ptr t ⟨.away, o⟩ x ⟨.setLoad, o⟩ x
  | setLoad {o : Bool} {x : BitVec w} (h : x ≠ 0#w) : Act ptr t ⟨.setLoad, o⟩ x ⟨.setCas x, o⟩ x
  | setLoadFree {o : Bool} : Act ptr t ⟨.setLoad, o⟩ 0#w ⟨.away, o⟩ 0#w
  | setCas {o : Bool} {x : BitVec w} : Act ptr t ⟨.setCas x, o⟩ x ⟨.away, o⟩ (x ||| mutexWaiters)
  | setCasFails {o : Bool} {x old : BitVec w} (h : x ≠ old) : Act ptr t ⟨.setCas old, o⟩ x ⟨.setLoad, o⟩ x

/-- The PC is between `mutex_exit_critical_start` and
`.mutex_exit_critical_end`. -/
def critical : Point w → Bool
  | .exitThread | .exitLock _ | .exitCmp _ | .exitJne _ | .exitStore => true
  | _ => false

def restart (l : Thread w) : Thread w := if critical l.point then { l with point := .exitThread } else l

def ActOrRestart (ptr : T → BitVec w) (t : T) (l : Thread w) (x : BitVec w) (l' : Thread w) (y : BitVec w) : Prop :=
  Act ptr t l x l' y ∨ (l' = restart l ∧ y = x)

/-- One CPU and the thread it runs: that one steps, or it is interrupted and
the CPU goes on with some thread. -/
inductive UniStep [DecidableEq T] (ptr : T → BitVec w) :
    T × State T (Thread w) (BitVec w) → T × State T (Thread w) (BitVec w) → Prop
  | act {t : T} {loc : T → Thread w} {x y : BitVec w} {l : Thread w} (h : Act ptr t (loc t) x l y) :
      UniStep ptr (t, ⟨loc, x⟩) (t, ⟨update loc t l, y⟩)
  | interrupt {t : T} {loc : T → Thread w} {x : BitVec w} (u : T) :
      UniStep ptr (t, ⟨loc, x⟩) (u, ⟨update loc t (restart (loc t)), x⟩)

end SysvDev.Mutex.Paths
