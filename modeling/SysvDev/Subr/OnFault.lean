import SysvDev.X86.Words

namespace SysvDev.Subr.OnFault

open X86.Memory X86.Machine X86.Machine.Att X86.Run X86.Words Inevitable

inductive Label
  | onFault | catchFault | noFault | setjmp | longjmp
  deriving DecidableEq

/-- The registers in a `label_t`. -/
inductive Slot
  | sp | rbp | rbx | r12 | r13 | r14 | r15

/-- The constants of `assym.h`: `label` has `LABEL_SP` and so on, `LABEL_PC` is 0. -/
structure Symbols where
  cpuThread : Int
  tOnfault : Int
  tLofault : Int
  label : Slot → Int

section Text

variable (k : Symbols)

def onFault : List (Line Label) := [
  .label .onFault, movq (var k.cpuThread) rsi, .leaLabel .catchFault .dx, movq rdi (ind k.tOnfault .si),
  movq rdx (ind k.tLofault .si), .jmp .setjmp]

def catchFault : List (Line Label) := [
  .label .catchFault, movq (var k.cpuThread) rsi, movq (ind k.tOnfault .si) rdi, xorl eax eax,
  movq rax (ind k.tOnfault .si), movq rax (ind k.tLofault .si), .jmp .longjmp]

def noFault : List (Line Label) := [
  .label .noFault, movq (var k.cpuThread) rsi, xorl eax eax, movq rax (ind k.tOnfault .si),
  movq rax (ind k.tLofault .si), .ret 0]

def setjmp : List (Line Label) := [
  .label .setjmp, movq rsp (ind (k.label .sp) .di), movq rbp (ind (k.label .rbp) .di),
  movq rbx (ind (k.label .rbx) .di), movq r12 (ind (k.label .r12) .di), movq r13 (ind (k.label .r13) .di),
  movq r14 (ind (k.label .r14) .di), movq r15 (ind (k.label .r15) .di), movq (ind 0 .sp) rdx, movq rdx (ind 0 .di),
  xorl eax eax, .ret 0]

def longjmp : List (Line Label) := [
  .label .longjmp, movq (ind (k.label .sp) .di) rsp, movq (ind (k.label .rbp) .di) rbp,
  movq (ind (k.label .rbx) .di) rbx, movq (ind (k.label .r12) .di) r12, movq (ind (k.label .r13) .di) r13,
  movq (ind (k.label .r14) .di) r14, movq (ind (k.label .r15) .di) r15, movq (ind 0 .di) rdx, movq rdx (ind 0 .sp),
  xorl eax eax, incl eax, .ret 0]

def code : List (Line Label) := List.flatten [onFault k, catchFault k, noFault k, setjmp k, longjmp k]

end Text

/-- The words of the thread and of the label, and the return address of the call. -/
inductive Cell : Nat → Type
  | thread : Cell 64
  | onfault : Cell 64
  | lofault : Cell 64
  | ret : Cell 64
  | pc : Cell 64
  | slot (x : Slot) : Cell 64

def place (k : Symbols) (th lp sp : BitVec 64) : ∀ n, Cell n → BitVec 64
  | _, .thread => BitVec.ofInt 64 k.cpuThread
  | _, .onfault => th + BitVec.ofInt 64 k.tOnfault
  | _, .lofault => th + BitVec.ofInt 64 k.tLofault
  | _, .ret => sp
  | _, .pc => lp
  | _, .slot x => lp + BitVec.ofInt 64 (k.label x)

/-- For a call in the state `s`. -/
abbrev cells (k : Symbols) (th : BitVec 64) (s : State 64) : ∀ n, Cell n → BitVec 64 := place k th s.regs.di s.regs.sp

def saved (s : State 64) : Slot → BitVec 64
  | .sp => s.regs.sp
  | .rbp => s.regs.bp
  | .rbx => s.regs.bx
  | .r12 => s.regs.hi.r12
  | .r13 => s.regs.hi.r13
  | .r14 => s.regs.hi.r14
  | .r15 => s.regs.hi.r15

/-- What `on_fault`, called in the state `s`, leaves in them. -/
def armed (k : Symbols) (th : BitVec 64) (s : State 64) : Cell 64 → BitVec 64
  | .thread => th
  | .onfault => s.regs.di
  | .lofault => BitVec.ofNat 64 (labelAddr (code k) .catchFault)
  | .ret | .pc => load 64 s.mem s.regs.sp
  | .slot x => saved s x

variable {k : Symbols} {ext : Nat → Option (State 64 → State 64)} {s t : State 64} {th lp sp : BitVec 64} {m : Mem 64}

theorem places (k : Symbols) (th lp sp : BitVec 64) :
    BitVec.ofInt 64 k.cpuThread = place k th lp sp 64 .thread ∧
    th + BitVec.ofInt 64 k.tOnfault = place k th lp sp 64 .onfault ∧
    th + BitVec.ofInt 64 k.tLofault = place k th lp sp 64 .lofault ∧
    ∀ x, lp + BitVec.ofInt 64 (k.label x) = place k th lp sp 64 (.slot x) := ⟨rfl, rfl, rfl, fun _ => rfl⟩

theorem words (k : Symbols) (th lp sp : BitVec 64) : (∀ m, load 64 m sp = word (place k th lp sp) m .ret) ∧
    (∀ m, load 64 m lp = word (place k th lp sp) m .pc) ∧
    (∀ m c, load 64 m (place k th lp sp 64 c) = word (place k th lp sp) m c) ∧
    (∀ m (v : BitVec 64), store m sp v = store m (place k th lp sp 64 .ret) v) ∧
    ∀ m (v : BitVec 64), store m lp v = store m (place k th lp sp 64 .pc) v :=
  ⟨fun _ => rfl, fun _ => rfl, fun _ _ => rfl, fun _ _ => rfl, fun _ _ => rfl⟩

/-- The call in the state `s` returns `v`. -/
structure Returns (s : State 64) (v : BitVec 64) (d : Cfg 64) : Prop where
  ip : d.ip = (load 64 s.mem s.regs.sp).toNat
  ax : d.state.regs.ax = v
  keeps : Keeps64 s d.state

def Off (place : ∀ n, Cell n → BitVec 64) (m : Mem 64) : Prop := word place m .onfault = 0#64 ∧ word place m .lofault = 0#64

theorem comes_onFault (hext : ∀ i < (code k).length, ext i = none) (hspread : Spread (cells k th s))
    (hth : word (cells k th s) s.mem .thread = th) :
    Comes (code k) ext (fun d => Returns s 0#64 d ∧ ∀ c, word (cells k th s) d.state.mem c = armed k th s c) ⟨0, s⟩ := by
  obtain ⟨⟨ax, cx, dx, bx, sp, bp, si, di, hi⟩, fl, df, m⟩ := s
  have hat : At (code k) 0 (onFault k) := ⟨_, rfl⟩
  have hat' : At (code k) 19 (setjmp k) := ⟨_, rfl⟩
  apply comes_block hext hat
  simp [onFault, merge_long, places k th di sp, words k th di sp, hth]
  apply comes_block hext hat'
  simp [setjmp, merge_long, places k th di sp, words k th di sp, word_store_other hspread]
  refine .here ⟨⟨rfl, rfl, ⟨rfl, rfl, rfl, rfl, rfl, rfl, rfl⟩⟩, fun c => ?_⟩
  cases c with
  | slot x => cases x <;> simp [armed, saved, word_store_other hspread, word_store_self]
  | _ => simp [armed, words k th di sp, word_store_other hspread, word_store_self, hth]

theorem comes_catchFault (hext : ∀ i < (code k).length, ext i = none) (hspread : Spread (cells k th s))
    (ht : ∀ c, c ≠ .ret → word (cells k th s) t.mem c = armed k th s c) :
    Comes (code k) ext (fun d => Returns s 1#64 d ∧ Off (cells k th s) d.state.mem) ⟨6, t⟩ := by
  obtain ⟨⟨ax, cx, dx, bx, sp, bp, si, di, hi⟩, fl, df, m⟩ := s
  obtain ⟨⟨ax', cx', dx', bx', sp', bp', si', di', hi'⟩, fl', df', m'⟩ := t
  have hat : At (code k) 6 (catchFault k) := ⟨_, rfl⟩
  have hat' : At (code k) 31 (longjmp k) := ⟨_, rfl⟩
  apply comes_block hext hat
  simp [catchFault, merge_long, places k th di sp, words k th di sp, ht, armed]
  apply comes_block hext hat'
  simp [longjmp, merge_long, places k th di sp, words k th di sp, word_store_other hspread, ht, armed, saved]
  refine .here ⟨⟨?_, rfl, ⟨rfl, rfl, rfl, rfl, rfl, rfl, rfl⟩⟩, ?_, ?_⟩ <;>
    simp [words k th di sp, word_store_other hspread, word_store_self]

theorem comes_noFault (hext : ∀ i < (code k).length, ext i = none) (hspread : Spread (place k th lp t.regs.sp))
    (hth : word (place k th lp t.regs.sp) t.mem .thread = th) :
    Comes (code k) ext (fun d => Returns t 0#64 d ∧ Off (place k th lp t.regs.sp) d.state.mem) ⟨13, t⟩ := by
  obtain ⟨⟨ax, cx, dx, bx, sp, bp, si, di, hi⟩, fl, df, m⟩ := t
  have hat : At (code k) 13 (noFault k) := ⟨_, rfl⟩
  apply comes_block hext hat
  simp [noFault, merge_long, places k th lp sp, words k th lp sp, word_store_other hspread, hth]
  refine .here ⟨⟨?_, rfl, ⟨rfl, rfl, rfl, rfl, rfl, rfl, rfl⟩⟩, ?_, ?_⟩ <;>
    simp [words k th lp sp, word_store_other hspread, word_store_self]

/-- `on_fault` returns 0, and again, with 1 and the registers of the caller, from
a fault in whatever state it happens, until `no_fault` is called: all that is
needed of that state is the label and the fields of the thread. -/
theorem on_fault_protects (k : Symbols) (ext : Nat → Option (State 64 → State 64)) (s : State 64) (th : BitVec 64)
    (hext : ∀ i < (code k).length, ext i = none) (hspread : Spread (cells k th s))
    (hth : word (cells k th s) s.mem .thread = th) :
    Comes (code k) ext (fun d => Returns s 0#64 d ∧
      (∀ t : State 64, (∀ c, c ≠ .ret → word (cells k th s) t.mem c = word (cells k th s) d.state.mem c) →
        Comes (code k) ext (fun e => Returns s 1#64 e ∧ Off (cells k th s) e.state.mem)
          ⟨(word (cells k th s) d.state.mem .lofault).toNat, t⟩) ∧
      ∀ (t : State 64) (lp : BitVec 64), Spread (place k th lp t.regs.sp) →
        word (place k th lp t.regs.sp) t.mem .thread = th →
        Comes (code k) ext (fun e => Returns t 0#64 e ∧ Off (place k th lp t.regs.sp) e.state.mem)
          ⟨labelAddr (code k) .noFault, t⟩) ⟨labelAddr (code k) .onFault, s⟩ := by
  refine (comes_onFault hext hspread hth).mono (fun _ _ => trivial) ?_
  rintro d ⟨hd, harmed⟩
  refine ⟨hd, fun t ht => ?_, ?_⟩
  · rw [harmed .lofault]
    exact comes_catchFault hext hspread fun c hc => (ht c hc).trans (harmed c)
  · exact fun t lp hspread hth => comes_noFault hext hspread hth

def sampleSymbols : Symbols := ⟨24, 0, 8, fun x => 8 * (x.ctorIdx + 1 : Nat)⟩

def sampleState : State 64 :=
  ⟨⟨0#64, 0#64, 0#64, 7#64, 65536#64, 0#64, 0#64, 4096#64, .zero⟩, undefinedFlags, false, store (fun _ => 0#8) 65536#64 300#64⟩

theorem on_fault_protects_sample : Comes (code sampleSymbols) (fun _ => none) (fun d => d.ip = 300 ∧
    ∀ r, Comes (code sampleSymbols) (fun _ => none) (fun e => e.ip = 300 ∧ e.state.regs.ax = 1#64 ∧ e.state.regs.bx = 7#64)
      ⟨(word (cells sampleSymbols 0#64 sampleState) d.state.mem .lofault).toNat, { d.state with regs := r }⟩)
    ⟨labelAddr (code sampleSymbols) .onFault, sampleState⟩ := by
  have hspread : Spread (cells sampleSymbols 0#64 sampleState) := by
    intro n k i j hij
    cases i with
    | slot x =>
        cases j with
        | slot y => cases x <;> cases y <;> first | exact absurd rfl hij | decide
        | _ => cases x <;> decide
    | _ =>
        cases j with
        | slot y => cases y <;> decide
        | _ => first | exact absurd rfl hij | decide
  have hret : (load 64 sampleState.mem sampleState.regs.sp).toNat = 300 := by decide
  refine (on_fault_protects sampleSymbols _ sampleState 0#64 (fun _ _ => rfl) hspread (by decide)).mono (fun _ _ => trivial) ?_
  rintro d ⟨hd, hfault, -⟩
  refine ⟨hd.ip.trans hret, fun r => (hfault { d.state with regs := r } fun _ _ => rfl).mono (fun _ _ => trivial) ?_⟩
  rintro e ⟨he, -⟩
  exact ⟨he.ip.trans hret, he.ax, he.keeps.bx⟩

end SysvDev.Subr.OnFault
