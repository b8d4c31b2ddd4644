import SysvDev.Interleaving

namespace SysvDev.RwLock.Paths

variable {w : Nat} {T : Type}

def readLock : BitVec w := 8#w

def writeLock (ptr : BitVec w) : BitVec w := ptr ||| 4#w

def waiters : BitVec w := 3#w

def testl (mask : BitVec 32) (x : BitVec w) : Bool := x.setWidth 32 &&& mask != 0#32

/-- Where a thread is: each point is named for what it does next there. -/
inductive Point (w : Nat)
  | away
  -- rw_enter
  | kpriRequest
  | enterLoad
  | readEnter (old : BitVec w)
  | writeEnter
  | enterSleep (writer : Bool)
  -- rw_exit
  | exitLoad
  | readExit (old new : BitVec w)
  | writeExit
  | kpriRelease
  | exitWakeup
  deriving DecidableEq

structure Thread (w : Nat) where
  point : Point w
  /-- `T_KPRI_REQ` -/
  kpriReq : BitVec 32
  /-- The number of read holds it has. -/
  reads : Nat
  /-- Whether it has the write hold. -/
  writes : Bool

/-- The steps of a thread on `rw_wwwh`. Those of `rw_enter_sleep` and
`rw_exit_wakeup` are what is assumed of them. -/
inductive Act (ptr : T → BitVec w) (t : T) : Thread w → BitVec w → Thread w → BitVec w → Prop
  -- rw_enter
  | rwEnterReader {q : BitVec 32} {n : Nat} {b : Bool} {x : BitVec w} :
      Act ptr t ⟨.away, q, n, b⟩ x ⟨.kpriRequest, q, n, b⟩ x
  | rwEnterWriter {q : BitVec 32} {n : Nat} {b : Bool} {x : BitVec w} :
      Act ptr t ⟨.away, q, n, b⟩ x ⟨.writeEnter, q, n, b⟩ x
  | kpriRequest {q : BitVec 32} {n : Nat} {b : Bool} {x : BitVec w} :
      Act ptr t ⟨.kpriRequest, q, n, b⟩ x ⟨.enterLoad, q + 1, n, b⟩ x
  | enterLoad {q : BitVec 32} {n : Nat} {b : Bool} {x : BitVec w} (h : testl 6#32 x = false) :
      Act ptr t ⟨.enterLoad, q, n, b⟩ x ⟨.readEnter x, q, n, b⟩ x
  | enterLoadClaimed {q : BitVec 32} {n : Nat} {b : Bool} {x : BitVec w} (h : testl 6#32 x = true) :
      Act ptr t ⟨.enterLoad, q, n, b⟩ x ⟨.enterSleep false, q, n, b⟩ x
  | readEnter {q : BitVec 32} {n : Nat} {b : Bool} {x : BitVec w} :
      Act ptr t ⟨.readEnter x, q, n, b⟩ x ⟨.away, q, n + 1, b⟩ (x + readLock)
  | readEnterFails {q : BitVec 32} {n : Nat} {b : Bool} {x old : BitVec w} (h : x ≠ old) :
      Act ptr t ⟨.readEnter old, q, n, b⟩ x ⟨.enterSleep false, q, n, b⟩ x
  | writeEnter {q : BitVec 32} {n : Nat} {b : Bool} :
      Act ptr t ⟨.writeEnter, q, n, b⟩ 0#w ⟨.away, q, n, true⟩ (writeLock (ptr t))
  | writeEnterFails {q : BitVec 32} {n : Nat} {b : Bool} {x : BitVec w} (h : x ≠ 0#w) :
      Act ptr t ⟨.writeEnter, q, n, b⟩ x ⟨.enterSleep true, q, n, b⟩ x
  -- rw_exit, called by a holder
  | rwExit {q : BitVec 32} {n : Nat} {b : Bool} {x : BitVec w} (h : 0 < n ∨ b = true) :
      Act ptr t ⟨.away, q, n, b⟩ x ⟨.exitLoad, q, n, b⟩ x
  | exitLoadSingle {q : BitVec 32} {n : Nat} {b : Bool} {x : BitVec w} (h : x.setWidth 32 = readLock) :
      Act ptr t ⟨.exitLoad, q, n, b⟩ x ⟨.readExit x 0#w, q, n, b⟩ x
  | exitLoadWriter {q : BitVec 32} {n : Nat} {b : Bool} {x : BitVec w} (h : x.setWidth 32 ≠ readLock)
      (hw : testl 4#32 x = true) : Act ptr t ⟨.exitLoad, q, n, b⟩ x ⟨.writeExit, q, n, b⟩ x
  | exitLoadMore {q : BitVec 32} {n : Nat} {b : Bool} {x : BitVec w} (h : x.setWidth 32 ≠ readLock)
      (hw : testl 4#32 x = false) (hge : (readLock : BitVec 32).toInt ≤ ((x - readLock).setWidth 32).toInt) :
      Act ptr t ⟨.exitLoad, q, n, b⟩ x ⟨.readExit x (x - readLock), q, n, b⟩ x
  | exitLoadLast {q : BitVec 32} {n : Nat} {b : Bool} {x : BitVec w} (h : x.setWidth 32 ≠ readLock)
      (hw : testl 4#32 x = false) (hlt : ((x - readLock).setWidth 32).toInt < (readLock : BitVec 32).toInt) :
      Act ptr t ⟨.exitLoad, q, n, b⟩ x ⟨.exitWakeup, q, n, b⟩ x
  | readExit {q : BitVec 32} {n : Nat} {b : Bool} {x new : BitVec w} :
      Act ptr t ⟨.readExit x new, q, n, b⟩ x ⟨.kpriRelease, q, n - 1, b⟩ new
  | readExitFails {q : BitVec 32} {n : Nat} {b : Bool} {x old new : BitVec w} (h : x ≠ old) :
      Act ptr t ⟨.readExit old new, q, n, b⟩ x ⟨.exitWakeup, q, n, b⟩ x
  | kpriRelease {q : BitVec 32} {n : Nat} {b : Bool} {x : BitVec w} :
      Act ptr t ⟨.kpriRelease, q, n, b⟩ x ⟨.away, q - 1, n, b⟩ x
  | writeExit {q : BitVec 32} {n : Nat} {b : Bool} :
      Act ptr t ⟨.writeExit, q, n, b⟩ (writeLock (ptr t)) ⟨.away, q, n, false⟩ 0#w
  | writeExitFails {q : BitVec 32} {n : Nat} {b : Bool} {x : BitVec w} (h : x ≠ writeLock (ptr t)) :
      Act ptr t ⟨.writeExit, q, n, b⟩ x ⟨.exitWakeup, q, n, b⟩ x
  -- rw_enter_sleep and rw_exit_wakeup
  | enterSleepBits {q : BitVec 32} {n : Nat} {b writer : Bool} {x y : BitVec w} (h : y &&& ~~~waiters = x &&& ~~~waiters) :
      Act ptr t ⟨.enterSleep writer, q, n, b⟩ x ⟨.enterSleep writer, q, n, b⟩ y
  | enterSleepReader {q : BitVec 32} {n : Nat} {b : Bool} {x y : BitVec w} (hfree : testl 4#32 x = false)
      (h : y &&& ~~~waiters = (x &&& ~~~waiters) + readLock) :
      Act ptr t ⟨.enterSleep false, q, n, b⟩ x ⟨.away, q, n + 1, b⟩ y
  | enterSleepWriter {q : BitVec 32} {n : Nat} {b : Bool} {x y : BitVec w} (hfree : x &&& ~~~waiters = 0#w)
      (h : y &&& ~~~waiters = writeLock (ptr t)) :
      Act ptr t ⟨.enterSleep true, q, n, b⟩ x ⟨.away, q, n, true⟩ y
  | exitWakeupBits {q : BitVec 32} {n : Nat} {b : Bool} {x y : BitVec w} (h : y &&& ~~~waiters = x &&& ~~~waiters) :
      Act ptr t ⟨.exitWakeup, q, n, b⟩ x ⟨.exitWakeup, q, n, b⟩ y
  | exitWakeupReader {q : BitVec 32} {n : Nat} {b : Bool} {x y : BitVec w} (hn : 0 < n)
      (h : y &&& ~~~waiters = (x &&& ~~~waiters) - readLock) :
      Act ptr t ⟨.exitWakeup, q, n, b⟩ x ⟨.away, q - 1, n - 1, b⟩ y
  | exitWakeupWriter {q : BitVec 32} {n : Nat} {x y : BitVec w} (h : y &&& ~~~waiters = 0#w) :
      Act ptr t ⟨.exitWakeup, q, n, true⟩ x ⟨.away, q, n, false⟩ y

end SysvDev.RwLock.Paths
