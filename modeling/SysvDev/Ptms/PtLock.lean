import SysvDev.Monitor

namespace SysvDev.Ptms.PtLock

open Function Interleaving Monitor

inductive Call
  | enterRead
  | exitRead
  | enterWrite
  | exitWrite
  deriving DecidableEq

inductive Hold
  | out
  | reader
  | writer
  deriving DecidableEq

/-- `PT_ENTER_READ`, on `pt_refcnt` -/
def ptEnterRead : Routine (BitVec 32) where
  blocked refcnt := decide (refcnt.toInt < 0)
  body refcnt := (refcnt + 1#32, false)

/-- `PT_ENTER_WRITE` -/
def ptEnterWrite : Routine (BitVec 32) where
  blocked refcnt := decide (refcnt ≠ 0#32)
  body _ := (-1#32, false)

/-- `PT_EXIT_READ` -/
def ptExitRead : Routine (BitVec 32) where
  blocked _ := false
  body refcnt := (refcnt - 1#32, decide (refcnt - 1#32 = 0#32))

/-- `PT_EXIT_WRITE` -/
def ptExitWrite : Routine (BitVec 32) where
  blocked _ := false
  body _ := (0#32, true)

/-- The condition of the `ASSERT` of an exit. -/
def asserts : Call → BitVec 32 → Bool
  | .exitRead, refcnt => decide (0 < refcnt.toInt)
  | .exitWrite, refcnt => decide (refcnt = -1#32)
  | _, _ => true

def routine : Call → Routine (BitVec 32)
  | .enterRead => ptEnterRead
  | .exitRead => ptExitRead
  | .enterWrite => ptEnterWrite
  | .exitWrite => ptExitWrite

/-- What the caller is, calls being paired. -/
def before : Call → Hold
  | .enterRead | .enterWrite => .out
  | .exitRead => .reader
  | .exitWrite => .writer

def after : Call → Hold
  | .enterRead => .reader
  | .enterWrite => .writer
  | .exitRead | .exitWrite => .out

def protocol (T : Type) : Protocol T Call Hold (BitVec 32) where
  routine _ := routine
  may h c := h = before c
  after _ := after

variable {T : Type} [Fintype T] [DecidableEq T] {held : T → Hold} {refcnt : BitVec 32}

def readers (held : T → Hold) : Nat := count (· = .reader) held

def writers (held : T → Hold) : Nat := count (· = .writer) held

/-- What `pt_refcnt` says about who is inside. -/
def Counts (held : T → Hold) (refcnt : BitVec 32) : Prop :=
  (writers held = 0 ∧ refcnt.toInt = readers held) ∨ (writers held = 1 ∧ readers held = 0 ∧ refcnt = -1#32)

theorem toInt_neg_one : (-1#32).toInt = -1 := by decide

omit [DecidableEq T] in
theorem readers_lt (hcard : Fintype.card T < 2 ^ 31) : readers held < 2 ^ 31 := lt_of_le_of_lt count_le_card hcard

theorem toInt_add_one {n : Nat} (h : refcnt.toInt = n) (hn : n + 1 < 2 ^ 31) : (refcnt + 1#32).toInt = (n + 1 : Nat) := by
  have hone : (1#32).toInt = 1 := by decide
  rw [BitVec.toInt_add, h, hone, Int.bmod_eq_of_le] <;> omega

theorem toInt_sub_one {n : Nat} (h : refcnt.toInt = (n + 1 : Nat)) : (refcnt - 1#32).toInt = n := by
  have hone : (1#32).toInt = 1 := by decide
  have hlt := BitVec.toInt_lt (x := refcnt)
  rw [BitVec.toInt_sub, h, hone, Int.bmod_eq_of_le] <;> omega

section Bodies

variable {t : T}

theorem counts_enterRead (hcard : Fintype.card T < 2 ^ 31) (h : Counts held refcnt) (ht : held t = .out)
    (hpass : ¬ refcnt.toInt < 0) : Counts (update held t .reader) (refcnt + 1#32) := by
  have hr : readers (update held t .reader) = readers held + 1 := count_update_in rfl (by rw [ht]; rintro ⟨⟩)
  have hw : writers (update held t .reader) = writers held := count_update_same (by rw [ht]; decide)
  have hlt : readers (update held t .reader) < 2 ^ 31 := readers_lt hcard
  obtain ⟨hno, hcount⟩ | ⟨-, -, rfl⟩ := h
  · left
    rw [hr] at hlt
    rw [hw, hr]
    exact ⟨hno, toInt_add_one hcount hlt⟩
  · exact absurd (by decide) hpass

theorem counts_enterWrite (h : Counts held refcnt) (ht : held t = .out) (hpass : refcnt = 0#32) :
    Counts (update held t .writer) (-1#32) := by
  have hr : readers (update held t .writer) = readers held := count_update_same (by rw [ht]; decide)
  have hw : writers (update held t .writer) = writers held + 1 := count_update_in rfl (by rw [ht]; rintro ⟨⟩)
  subst hpass
  obtain ⟨hno, hcount⟩ | ⟨-, -, hrefcnt⟩ := h
  · right
    rw [hw, hr, hno]
    exact ⟨rfl, by simpa using hcount.symm, rfl⟩
  · exact absurd hrefcnt (by decide)

theorem counts_exitRead (h : Counts held refcnt) (ht : held t = .reader) :
    Counts (update held t .out) (refcnt - 1#32) := by
  have hr : readers (update held t .out) + 1 = readers held := count_update_out (by rintro ⟨⟩) ht
  have hw : writers (update held t .out) = writers held := count_update_same (by rw [ht]; decide)
  obtain ⟨hno, hcount⟩ | ⟨-, hnone, -⟩ := h
  · left
    rw [← hr] at hcount
    rw [hw]
    exact ⟨hno, toInt_sub_one hcount⟩
  · omega

theorem counts_exitWrite (h : Counts held refcnt) (ht : held t = .writer) : Counts (update held t .out) 0#32 := by
  have hr : readers (update held t .out) = readers held := count_update_same (by rw [ht]; decide)
  have hw : writers (update held t .out) + 1 = writers held := count_update_out (by rintro ⟨⟩) ht
  obtain ⟨hno, -⟩ | ⟨hone, hnone, -⟩ := h
  · omega
  · left
    rw [hr, hnone]
    exact ⟨by omega, rfl⟩

end Bodies

theorem kept (hcard : Fintype.card T < 2 ^ 31) : Kept (protocol T) (fun _ => True) Counts := by
  intro held t c refcnt h _ _ hmay hpass
  cases c with
  | enterRead => exact counts_enterRead hcard h hmay (of_decide_eq_false hpass)
  | enterWrite => exact counts_enterWrite h hmay (not_not.mp (of_decide_eq_false hpass))
  | exitRead => exact counts_exitRead h hmay
  | exitWrite => exact counts_exitWrite h hmay

omit [DecidableEq T] in
theorem refcnt_pos {t : T} (h : Counts held refcnt) (ht : held t = .reader) : 0 < refcnt.toInt := by
  have hpos : 0 < readers held := count_pos.mpr ⟨t, ht⟩
  obtain ⟨-, hcount⟩ | ⟨-, hnone, -⟩ := h <;> omega

theorem wakes : Wakes (protocol T) (fun _ => True) Counts := by
  intro held t c refcnt h _ _ hmay hpass hquiet u d _ hblocked
  cases c with
  | enterRead =>
      have hnonneg : ¬ refcnt.toInt < 0 := of_decide_eq_false hpass
      cases d with
      | enterRead => exact absurd (of_decide_eq_true hblocked) hnonneg
      | enterWrite =>
          refine decide_eq_true fun hzero => hnonneg ?_
          have hneg : refcnt = -1#32 := BitVec.eq_sub_iff_add_eq.mpr hzero
          rw [hneg]
          decide
      | exitRead | exitWrite => cases hblocked
  | enterWrite =>
      have hzero : refcnt = 0#32 := not_not.mp (of_decide_eq_false hpass)
      subst hzero
      cases d <;> cases hblocked
  | exitRead =>
      have hpos : 0 < refcnt.toInt := refcnt_pos h hmay
      cases d with
      | enterRead => exact absurd (of_decide_eq_true hblocked) (not_lt.mpr hpos.le)
      | enterWrite => exact decide_eq_true (of_decide_eq_false hquiet)
      | exitRead | exitWrite => cases hblocked
  | exitWrite => cases hquiet

/-- The states of a `pt_ttys` whose `pt_refcnt` was 0. -/
abbrev Reached (s : State T (Thread Call Hold) (Shared T (BitVec 32))) : Prop :=
  Monitor.Reached (protocol T) (fun _ => True) .out 0#32 s

variable {s : State T (Thread Call Hold) (Shared T (BitVec 32))}

omit [DecidableEq T] in
theorem counts_initial : Counts (fun _ : T => Hold.out) 0#32 := by
  left
  simp [writers, readers, count]

theorem Reached.counts (h : Reached s) (hcard : Fintype.card T < 2 ^ 31) : Counts (holds s) s.shared.data :=
  (Monitor.Reached.holds h (kept hcard) counts_initial).data

omit [DecidableEq T] in
theorem counts_neg_one_iff (h : Counts held refcnt) : refcnt.toInt = -1 ↔ writers held = 1 ∧ readers held = 0 := by
  obtain ⟨hno, hcount⟩ | ⟨hone, hnone, rfl⟩ := h
  · omega
  · simp [hone, hnone]

omit [DecidableEq T] in
theorem counts_nat_iff (h : Counts held refcnt) (n : Nat) :
    refcnt.toInt = n ↔ readers held = n ∧ writers held = 0 := by
  obtain ⟨hno, hcount⟩ | ⟨hone, hnone, rfl⟩ := h
  · omega
  · rw [toInt_neg_one]
    omega

theorem pt_lock_protocol (hcard : Fintype.card T < 2 ^ 31) (h : Reached s) :
    (s.shared.data.toInt = -1 ↔ writers (holds s) = 1 ∧ readers (holds s) = 0) ∧
    (∀ n : Nat, s.shared.data.toInt = n ↔ readers (holds s) = n ∧ writers (holds s) = 0) ∧
    (s.shared.mutex = none → ∀ u ∈ s.shared.waiters, ∀ c, (s.loc u).point = .cvWait c →
      (routine c).blocked s.shared.data = true) := by
  have hcounts := h.counts hcard
  have howned := (Monitor.Reached.holds h (kept hcard) counts_initial).owned
  have hasleep := Monitor.Reached.asleep h (kept hcard) counts_initial wakes
  refine ⟨counts_neg_one_iff hcounts, counts_nat_iff hcounts, ?_⟩
  intro hfree u hu c hc
  exact hasleep.blocked_of_free howned hfree hu hc

/-- The condition of every `ASSERT` is true where it is evaluated. -/
theorem pt_asserts_hold (hcard : Fintype.card T < 2 ^ 31) (h : Reached s) {t : T} {c : Call}
    (hc : (s.loc t).point = .loop c) : asserts c s.shared.data = true := by
  have hcounts := h.counts hcard
  have hmay : holds s t = before c := (Monitor.Reached.holds h (kept hcard) counts_initial).may t c (.inr (.inl hc))
  cases c with
  | enterRead | enterWrite => rfl
  | exitRead => exact decide_eq_true (refcnt_pos hcounts hmay)
  | exitWrite =>
      have hpos : 0 < writers (holds s) := count_pos.mpr ⟨t, hmay⟩
      obtain ⟨hno, -⟩ | ⟨-, -, hrefcnt⟩ := hcounts
      · omega
      · exact decide_eq_true hrefcnt

def busy : State Bool (Thread Call Hold) (Shared Bool (BitVec 32)) :=
  ⟨update (update (fun _ => ⟨.out, .out⟩) true ⟨.out, .writer⟩) false ⟨.cvWait .enterRead, .out⟩, ⟨none, {false}, -1#32⟩⟩

theorem reached_busy : Reached busy := by
  have hinit : Reached (initial Bool Call Hold.out 0#32) := Relation.ReflTransGen.refl
  have hwriter := Monitor.Reached.call (t := true) (c := Call.enterWrite) hinit rfl trivial trivial rfl rfl rfl
  exact Monitor.Reached.wait (t := false) (c := Call.enterRead) hwriter rfl trivial rfl rfl

theorem pt_lock_protocol_busy : busy.shared.data.toInt = -1 ∧ writers (holds busy) = 1 ∧ readers (holds busy) = 0 ∧
    (routine .enterRead).blocked busy.shared.data = true := by
  obtain ⟨hwriter, -, hblocked⟩ := pt_lock_protocol (by simp) reached_busy
  exact ⟨rfl, (hwriter.mp rfl).1, (hwriter.mp rfl).2, hblocked rfl false (Finset.mem_singleton_self _) _ rfl⟩

theorem pt_asserts_hold_leaving : ∃ s : State Bool (Thread Call Hold) (Shared Bool (BitVec 32)), Reached s ∧
    (s.loc true).point = .loop .exitWrite ∧ asserts .exitWrite s.shared.data = true := by
  have hcalled := Monitor.Reached.next reached_busy (t := true) rfl (.call (c := Call.exitWrite) rfl) trivial trivial
  have hentered := Monitor.Reached.next hcalled (t := true) rfl (.mutexEnter rfl) trivial trivial
  exact ⟨_, hentered, rfl, pt_asserts_hold (t := true) (by simp) hentered rfl⟩

end SysvDev.Ptms.PtLock
