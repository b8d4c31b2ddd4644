import SysvDev.Interleaving

namespace SysvDev.Swtch.Resume

open Function Interleaving

variable {C T : Type}

/-- Where a CPU is: each point is named for what it does next there. `new`
is the thread in `%r12` (`%edi`), `old` the one in `%r13` (`%esi`). -/
inductive Point (T : Type)
  | running
  -- resume, resume_from_zombie
  | saveRegs (zombie : Bool) (new : T)
  | loadThread (zombie : Bool) (new : T)
  | idleStack (zombie : Bool) (new old : T)
  | idleThread (zombie : Bool) (new old : T)
  | unlock (new old : T)
  | reapqAdd (new old : T)
  -- _resume_from_idle
  | lockThread (new : T)
  | spin (new : T)
  | setCpu (new : T)
  | setThread (new : T)
  | setStack (new : T)
  -- resume_from_intr
  | intrSaveRegs (new : T)
  | intrLoadThread (new : T)
  | intrSetThread (new old : T)
  | intrSetStack (new old : T)
  | intrUnlock (new old : T)
  deriving DecidableEq

structure Cpu (T : Type) where
  point : Point T
  /-- `CPU_THREAD` -/
  thread : T
  /-- The thread whose stack `%rsp` is in. -/
  sp : T
  /-- The threads that interrupts on this CPU have pinned. -/
  pinned : List T

structure Shared (C T : Type) where
  /-- `T_LOCK` -/
  tLock : T → Bool
  /-- The thread whose stack `T_SP` is in. -/
  tSp : T → T
  /-- `T_CPU` -/
  tCpu : T → C
  /-- The threads that `reapq_add` was called with. -/
  deathrow : List T

/-- The steps of a CPU. The dispatcher may call `resume` with any thread at
all, and `resume_from_intr` with one that is pinned on the CPU. -/
inductive Act [DecidableEq T] (idle : C → T) (c : C) : Cpu T → Shared C T → Cpu T → Shared C T → Prop
  | resume {thread sp : T} {pinned : List T} {sh : Shared C T} (new : T) :
      Act idle c ⟨.running, thread, sp, pinned⟩ sh ⟨.saveRegs false new, thread, sp, pinned⟩ sh
  | resumeFromZombie {thread sp : T} {pinned : List T} {sh : Shared C T} (new : T) :
      Act idle c ⟨.running, thread, sp, pinned⟩ sh ⟨.saveRegs true new, thread, sp, pinned⟩ sh
  | resumeFromIdle {sp : T} {pinned : List T} {sh : Shared C T} (new : T) :
      Act idle c ⟨.running, idle c, sp, pinned⟩ sh ⟨.lockThread new, idle c, sp, pinned⟩ sh
  | resumeFromIntr {thread sp new : T} {pinned : List T} {sh : Shared C T} (h : new ∈ pinned) :
      Act idle c ⟨.running, thread, sp, pinned⟩ sh ⟨.intrSaveRegs new, thread, sp, pinned.erase new⟩ sh
  -- an interrupt thread takes the CPU, the resume lock of the other one stays set
  | interrupt {thread sp intr : T} {pinned : List T} {sh : Shared C T} (h : sh.tLock intr = false) :
      Act idle c ⟨.running, thread, sp, pinned⟩ sh ⟨.running, intr, intr, thread :: pinned⟩
        { sh with tLock := update sh.tLock intr true }
  | saveRegs {zombie : Bool} {thread sp new : T} {pinned : List T} {sh : Shared C T} :
      Act idle c ⟨.saveRegs zombie new, thread, sp, pinned⟩ sh ⟨.loadThread zombie new, thread, sp, pinned⟩
        { sh with tSp := update sh.tSp thread sp }
  | loadThread {zombie : Bool} {thread sp new : T} {pinned : List T} {sh : Shared C T} :
      Act idle c ⟨.loadThread zombie new, thread, sp, pinned⟩ sh ⟨.idleStack zombie new thread, thread, sp, pinned⟩ sh
  | idleStack {zombie : Bool} {thread sp new old : T} {pinned : List T} {sh : Shared C T} :
      Act idle c ⟨.idleStack zombie new old, thread, sp, pinned⟩ sh
        ⟨.idleThread zombie new old, thread, sh.tSp (idle c), pinned⟩ sh
  | idleThread {thread sp new old : T} {pinned : List T} {sh : Shared C T} :
      Act idle c ⟨.idleThread false new old, thread, sp, pinned⟩ sh ⟨.unlock new old, idle c, sp, pinned⟩ sh
  | idleThreadZombie {thread sp new old : T} {pinned : List T} {sh : Shared C T} :
      Act idle c ⟨.idleThread true new old, thread, sp, pinned⟩ sh ⟨.reapqAdd new old, idle c, sp, pinned⟩ sh
  | unlock {thread sp new old : T} {pinned : List T} {sh : Shared C T} :
      Act idle c ⟨.unlock new old, thread, sp, pinned⟩ sh ⟨.lockThread new, thread, sp, pinned⟩
        { sh with tLock := update sh.tLock old false }
  | reapqAdd {thread sp new old : T} {pinned : List T} {sh : Shared C T} :
      Act idle c ⟨.reapqAdd new old, thread, sp, pinned⟩ sh ⟨.lockThread new, thread, sp, pinned⟩
        { sh with deathrow := old :: sh.deathrow }
  -- lock btsl $0, T_LOCK(%r12)
  | lockThread {thread sp new : T} {pinned : List T} {sh : Shared C T} (h : sh.tLock new = false) :
      Act idle c ⟨.lockThread new, thread, sp, pinned⟩ sh ⟨.setCpu new, thread, sp, pinned⟩
        { sh with tLock := update sh.tLock new true }
  | lockThreadBusy {thread sp new : T} {pinned : List T} {sh : Shared C T} (h : sh.tLock new = true) :
      Act idle c ⟨.lockThread new, thread, sp, pinned⟩ sh ⟨.spin new, thread, sp, pinned⟩ sh
  | spin {thread sp new : T} {pinned : List T} {sh : Shared C T} (h : sh.tLock new = true) :
      Act idle c ⟨.spin new, thread, sp, pinned⟩ sh ⟨.spin new, thread, sp, pinned⟩ sh
  | spinClear {thread sp new : T} {pinned : List T} {sh : Shared C T} (h : sh.tLock new = false) :
      Act idle c ⟨.spin new, thread, sp, pinned⟩ sh ⟨.lockThread new, thread, sp, pinned⟩ sh
  | setCpu {thread sp new : T} {pinned : List T} {sh : Shared C T} :
      Act idle c ⟨.setCpu new, thread, sp, pinned⟩ sh ⟨.setThread new, thread, sp, pinned⟩
        { sh with tCpu := update sh.tCpu new c }
  | setThread {thread sp new : T} {pinned : List T} {sh : Shared C T} :
      Act idle c ⟨.setThread new, thread, sp, pinned⟩ sh ⟨.setStack new, new, sp, pinned⟩ sh
  | setStack {thread sp new : T} {pinned : List T} {sh : Shared C T} :
      Act idle c ⟨.setStack new, thread, sp, pinned⟩ sh ⟨.running, thread, sh.tSp new, pinned⟩ sh
  | intrSaveRegs {thread sp new : T} {pinned : List T} {sh : Shared C T} :
      Act idle c ⟨.intrSaveRegs new, thread, sp, pinned⟩ sh ⟨.intrLoadThread new, thread, sp, pinned⟩
        { sh with tSp := update sh.tSp thread sp }
  | intrLoadThread {thread sp new : T} {pinned : List T} {sh : Shared C T} :
      Act idle c ⟨.intrLoadThread new, thread, sp, pinned⟩ sh ⟨.intrSetThread new thread, thread, sp, pinned⟩ sh
  | intrSetThread {thread sp new old : T} {pinned : List T} {sh : Shared C T} :
      Act idle c ⟨.intrSetThread new old, thread, sp, pinned⟩ sh ⟨.intrSetStack new old, new, sp, pinned⟩ sh
  | intrSetStack {thread sp new old : T} {pinned : List T} {sh : Shared C T} :
      Act idle c ⟨.intrSetStack new old, thread, sp, pinned⟩ sh ⟨.intrUnlock new old, thread, sh.tSp new, pinned⟩ sh
  | intrUnlock {thread sp new old : T} {pinned : List T} {sh : Shared C T} :
      Act idle c ⟨.intrUnlock new old, thread, sp, pinned⟩ sh ⟨.running, thread, sp, pinned⟩
        { sh with tLock := update sh.tLock old false }

end SysvDev.Swtch.Resume
