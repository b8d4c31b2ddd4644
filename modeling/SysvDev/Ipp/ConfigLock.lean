import SysvDev.Monitor

namespace SysvDev.Ipp.ConfigLock

open Function Interleaving Monitor

inductive Mode
  | read
  | write
  deriving DecidableEq

inductive Call
  | enter (rw : Mode)
  | exit
  deriving DecidableEq

/-- The fields of a `cfglock_t` that its mutex protects. -/
structure Cfglock (T : Type) where
  writers : BitVec 32
  reader : Bool
  owner : Option T
  deriving DecidableEq

variable {T : Type} [DecidableEq T]

/-- `CONFIG_LOCK_ENTER(clp, CL_WRITE)` of `curthread` -/
def configLockEnterWrite (curthread : T) : Routine (Cfglock T) where
  blocked cl := cl.reader || decide (cl.owner ≠ none ∧ cl.owner ≠ some curthread)
  body cl := ({ cl with owner := some curthread, writers := cl.writers + 1#32 }, false)

/-- `CONFIG_LOCK_ENTER(clp, CL_READ)` -/
def configLockEnterRead (curthread : T) : Routine (Cfglock T) where
  blocked cl := cl.reader || decide (0#32 < cl.writers)
  body cl := ({ cl with owner := some curthread, reader := true }, false)

/-- `CONFIG_LOCK_EXIT` -/
def configLockExit : Routine (Cfglock T) where
  blocked _ := false
  body cl :=
    if cl.reader then ({ cl with reader := false, owner := none }, true)
    else
      let cl := { cl with writers := cl.writers - 1#32 }
      if cl.writers = 0#32 then ({ cl with owner := none }, true) else (cl, false)

def routine (curthread : T) : Call → Routine (Cfglock T)
  | .enter .write => configLockEnterWrite curthread
  | .enter .read => configLockEnterRead curthread
  | .exit => configLockExit

/-- A thread enters `CL_READ` only when it holds nothing, and exits only what it
holds. -/
def may (held : List Mode) : Call → Prop
  | .enter .write => True
  | .enter .read => held = []
  | .exit => held ≠ []

def after (held : List Mode) : Call → List Mode
  | .enter rw => rw :: held
  | .exit => held.tail

def protocol (T : Type) [DecidableEq T] : Protocol T Call (List Mode) (Cfglock T) where
  routine := routine
  may := may
  after := after

def released (cl : Cfglock T) : Mode := if cl.reader then .read else .write

variable {held : T → List Mode} {cl : Cfglock T} {t o : T} {n : Nat}

structure Free (held : T → List Mode) (cl : Cfglock T) : Prop where
  owner : cl.owner = none
  writers : cl.writers = 0#32
  reader : cl.reader = false
  holds : ∀ t, held t = []

structure Reads (held : T → List Mode) (cl : Cfglock T) (o : T) : Prop where
  owner : cl.owner = some o
  writers : cl.writers = 0#32
  reader : cl.reader = true
  holds : held o = [.read]
  others : ∀ t, t ≠ o → held t = []

structure Writes (held : T → List Mode) (cl : Cfglock T) (o : T) (n : Nat) : Prop where
  owner : cl.owner = some o
  writers : cl.writers = BitVec.ofNat 32 (n + 1)
  reader : cl.reader = false
  holds : held o = List.replicate (n + 1) .write
  others : ∀ t, t ≠ o → held t = []

/-- What the fields say about who holds the lock. -/
def Describes (held : T → List Mode) (cl : Cfglock T) : Prop :=
  Free held cl ∨ ∃ o, Reads held cl o ∨ ∃ n, Writes held cl o n

def Bounded (held : T → List Mode) : Prop := ∀ t, (held t).length < 2 ^ 32

theorem ofNat_ne_zero (h : n + 1 < 2 ^ 32) : BitVec.ofNat 32 (n + 1) ≠ 0#32 := by
  intro hzero
  have hnat := congrArg BitVec.toNat hzero
  rw [BitVec.toNat_ofNat, Nat.mod_eq_of_lt h] at hnat
  cases hnat

omit [DecidableEq T] in
theorem writes_lt (h : Writes held cl o n) (hb : Bounded held) : n + 1 < 2 ^ 32 := by
  have hlen := hb o
  rwa [h.holds, List.length_replicate] at hlen

theorem others_update {m : List Mode} (h : ∀ u, u ≠ t → held u = []) (u : T) (hu : u ≠ t) :
    update held t m u = [] := by
  rw [update_of_ne hu]
  exact h u hu

section Bodies

theorem describes_enterWrite (h : Describes held cl) (hpass : (configLockEnterWrite t).blocked cl = false) :
    Describes (update held t (.write :: held t)) ((configLockEnterWrite t).body cl).1 := by
  simp only [configLockEnterWrite, Bool.or_eq_false_iff, decide_eq_false_iff_not, not_and, not_not] at hpass
  obtain ⟨hreader, howner⟩ := hpass
  obtain h | ⟨o, h | ⟨n, h⟩⟩ := h
  · refine .inr ⟨t, .inr ⟨0, rfl, ?_, hreader, ?_, others_update fun u _ => h.holds u⟩⟩
    · simp only [configLockEnterWrite, h.writers]
      rfl
    · rw [update_self, h.holds]
      rfl
  · exact absurd (hreader.symm.trans h.reader) Bool.false_ne_true
  · obtain rfl : o = t := Option.some.inj (h.owner.symm.trans (howner (by rw [h.owner]; rintro ⟨⟩)))
    refine .inr ⟨o, .inr ⟨n + 1, rfl, ?_, hreader, ?_, others_update h.others⟩⟩
    · simp only [configLockEnterWrite, h.writers, BitVec.ofNat_add]
    · rw [update_self, h.holds]
      rfl

theorem describes_enterRead (h : Describes held cl) (hb : Bounded held) (ht : held t = [])
    (hpass : (configLockEnterRead t).blocked cl = false) :
    Describes (update held t (.read :: held t)) ((configLockEnterRead t).body cl).1 := by
  simp only [configLockEnterRead, Bool.or_eq_false_iff, decide_eq_false_iff_not, BitVec.not_lt, BitVec.le_zero_iff]
    at hpass
  obtain ⟨hreader, hwriters⟩ := hpass
  obtain h | ⟨o, h | ⟨n, h⟩⟩ := h
  · refine .inr ⟨t, .inl ⟨rfl, hwriters, rfl, ?_, others_update fun u _ => h.holds u⟩⟩
    rw [update_self, ht]
  · exact absurd (hreader.symm.trans h.reader) Bool.false_ne_true
  · exact absurd (h.writers.symm.trans hwriters) (ofNat_ne_zero (writes_lt h hb))

omit [DecidableEq T] in
theorem exit_reads (h : Reads held cl o) : configLockExit.body cl = ({ cl with reader := false, owner := none }, true) := by
  simp [configLockExit, h.reader]

omit [DecidableEq T] in
theorem exit_writes_last (h : Writes held cl o 0) :
    configLockExit.body cl = ({ cl with writers := 0#32, owner := none }, true) := by
  simp [configLockExit, h.reader, h.writers]

omit [DecidableEq T] in
theorem exit_writes (h : Writes held cl o (n + 1)) (hlt : n + 1 < 2 ^ 32) :
    configLockExit.body cl = ({ cl with writers := BitVec.ofNat 32 (n + 1) }, false) := by
  have hsub : BitVec.ofNat 32 (n + 1 + 1) - 1#32 = BitVec.ofNat 32 (n + 1) := by
    rw [BitVec.ofNat_add, BitVec.add_sub_cancel]
  simp [configLockExit, h.reader, h.writers, hsub, ofNat_ne_zero hlt]

omit [DecidableEq T] in
theorem eq_owner (h : ∀ u, u ≠ o → held u = []) (ht : held t ≠ []) : t = o :=
  by_contra fun hne => ht (h t hne)

theorem free_update {m : List Mode} (howner : cl.owner = none) (hwriters : cl.writers = 0#32) (hreader : cl.reader = false)
    (hm : m = []) (h : ∀ u, u ≠ t → held u = []) : Free (update held t m) cl :=
  ⟨howner, hwriters, hreader, forall_update (Q := fun _ m => m = []) hm h⟩

theorem describes_exit (h : Describes held cl) (hb : Bounded held) (ht : held t ≠ []) :
    Describes (update held t (held t).tail) (configLockExit.body cl).1 := by
  obtain h | ⟨o, h | ⟨n, h⟩⟩ := h
  · exact absurd (h.holds t) ht
  · obtain rfl := eq_owner h.others ht
    rw [exit_reads h]
    exact .inl (free_update rfl h.writers rfl (by rw [h.holds]; rfl) h.others)
  · obtain rfl := eq_owner h.others ht
    cases n with
    | zero =>
        rw [exit_writes_last h]
        exact .inl (free_update rfl rfl h.reader (by rw [h.holds]; rfl) h.others)
    | succ n =>
        rw [exit_writes h (Nat.lt_of_succ_lt (writes_lt h hb))]
        refine .inr ⟨t, .inr ⟨n, h.owner, rfl, h.reader, ?_, others_update h.others⟩⟩
        rw [update_self, h.holds]
        rfl

end Bodies

def Inv (held : T → List Mode) (cl : Cfglock T) : Prop := Describes held cl ∧ Bounded held

theorem kept : Kept (protocol T) Bounded Inv := by
  intro held t c cl hI _ hb hmay hpass
  refine ⟨?_, hb⟩
  cases c with
  | enter rw =>
      cases rw with
      | write => exact describes_enterWrite hI.1 hpass
      | read => exact describes_enterRead hI.1 hI.2 hmay hpass
  | exit => exact describes_exit hI.1 hI.2 hmay

omit [DecidableEq T] in
theorem inv_initial : Inv (fun _ : T => []) ⟨0#32, false, none⟩ :=
  ⟨.inl ⟨rfl, rfl, rfl, fun _ => rfl⟩, fun _ => by simp⟩

theorem blocked_of_reader {u : T} {rw : Mode} (hreader : cl.reader = true) : (routine u (.enter rw)).blocked cl = true := by
  cases rw <;> simp [routine, configLockEnterWrite, configLockEnterRead, hreader]

theorem blocked_of_writer {u : T} {rw : Mode} (howner : cl.owner = some o) (hu : u ≠ o) (hwriters : cl.writers ≠ 0#32) :
    (routine u (.enter rw)).blocked cl = true := by
  cases rw with
  | write => simp [routine, configLockEnterWrite, howner, Ne.symm hu]
  | read => simp [routine, configLockEnterRead, BitVec.pos_iff_ne_zero, hwriters]

omit [DecidableEq T] in
theorem writers_ne_zero (h : Describes held cl) (hb : Bounded held) (ht : .write ∈ held t) : cl.writers ≠ 0#32 := by
  obtain h | ⟨o, h | ⟨n, h⟩⟩ := h
  · rw [h.holds] at ht
    cases ht
  · obtain rfl := eq_owner h.others (List.ne_nil_of_mem ht)
    rw [h.holds] at ht
    exact absurd (List.mem_singleton.mp ht) (by decide)
  · rw [h.writers]
    exact ofNat_ne_zero (writes_lt h hb)

theorem wakes : Wakes (protocol T) Bounded Inv := by
  intro held t c cl hI _ hb hmay hpass hquiet u d hu hblocked
  have hafter := (kept held t c cl hI hI.2 hb hmay hpass).1
  cases d with
  | exit => cases hblocked
  | enter rw =>
      cases c with
      | enter rw' =>
          cases rw' with
          | read => exact blocked_of_reader rfl
          | write =>
              have hmem : .write ∈ update held t (after (held t) (.enter .write)) t := by
                rw [update_self]
                exact List.mem_cons_self
              exact blocked_of_writer rfl hu (writers_ne_zero hafter hb hmem)
      | exit =>
          obtain h | ⟨o, h | ⟨n, h⟩⟩ := hI.1
          · exact absurd (h.holds t) hmay
          · exact absurd (hquiet.symm.trans (congrArg Prod.snd (exit_reads h))) Bool.false_ne_true
          · cases n with
            | zero => exact absurd (hquiet.symm.trans (congrArg Prod.snd (exit_writes_last h))) Bool.false_ne_true
            | succ n =>
                have hlt := Nat.lt_of_succ_lt (writes_lt h hI.2)
                have hbody : ((protocol T).routine t Call.exit).body cl = _ := exit_writes h hlt
                rw [hbody]
                obtain rfl := eq_owner h.others hmay
                exact blocked_of_writer h.owner hu (ofNat_ne_zero hlt)

/-- The states of a zero-initialised `cfglock_t`, as long as no thread has 2^32
holds. -/
abbrev Reached (s : State T (Thread Call (List Mode)) (Shared T (Cfglock T))) : Prop :=
  Monitor.Reached (protocol T) Bounded [] ⟨0#32, false, none⟩ s

section Meaning

variable {u : T} {s : State T (Thread Call (List Mode)) (Shared T (Cfglock T))}

omit [DecidableEq T] in
theorem free_or_owned (h : Describes held cl) :
    (cl.owner = none ∧ ∀ t, held t = []) ∨ ∃ o, cl.owner = some o ∧ held o ≠ [] ∧ ∀ t, t ≠ o → held t = [] := by
  obtain h | ⟨o, h | ⟨n, h⟩⟩ := h
  · exact .inl ⟨h.owner, h.holds⟩
  · exact .inr ⟨o, h.owner, by rw [h.holds]; rintro ⟨⟩, h.others⟩
  · exact .inr ⟨o, h.owner, by rw [h.holds]; rintro ⟨⟩, h.others⟩

omit [DecidableEq T] in
theorem holder_unique (h : Describes held cl) (ht : held t ≠ []) (hu : held u ≠ []) : t = u := by
  obtain ⟨-, hnone⟩ | ⟨o, -, -, hothers⟩ := free_or_owned h
  · exact absurd (hnone t) ht
  · exact (eq_owner hothers ht).trans (eq_owner hothers hu).symm

omit [DecidableEq T] in
theorem owner_iff (h : Describes held cl) (t : T) : cl.owner = some t ↔ held t ≠ [] := by
  obtain ⟨howner, hnone⟩ | ⟨o, howner, hsome, hothers⟩ := free_or_owned h
  · simp [howner, hnone]
  · constructor
    · intro ht
      obtain rfl := Option.some.inj (howner.symm.trans ht)
      exact hsome
    · intro ht
      rw [eq_owner hothers ht, howner]

omit [DecidableEq T] in
theorem owner_none_iff (h : Describes held cl) : cl.owner = none ↔ ∀ t, held t = [] := by
  obtain ⟨howner, hnone⟩ | ⟨o, howner, hsome, -⟩ := free_or_owned h
  · simp [howner, hnone]
  · simp only [howner, reduceCtorEq, false_iff, not_forall]
    exact ⟨o, hsome⟩

omit [DecidableEq T] in
theorem one_mode (h : Describes held cl) (t : T) : ∃ m n, held t = List.replicate n m := by
  by_cases ht : held t = []
  · exact ⟨.read, 0, ht⟩
  · obtain h | ⟨o, h | ⟨n, h⟩⟩ := h
    · exact absurd (h.holds t) ht
    · obtain rfl := eq_owner h.others ht
      exact ⟨.read, 1, h.holds⟩
    · obtain rfl := eq_owner h.others ht
      exact ⟨.write, n + 1, h.holds⟩

omit [DecidableEq T] in
theorem writers_count (h : Describes held cl) (hb : Bounded held) (ht : cl.owner = some t) :
    cl.writers.toNat = (held t).count .write := by
  obtain h | ⟨o, h | ⟨n, h⟩⟩ := h
  · cases h.owner.symm.trans ht
  · obtain rfl := Option.some.inj (h.owner.symm.trans ht)
    rw [h.writers, h.holds]
    rfl
  · obtain rfl := Option.some.inj (h.owner.symm.trans ht)
    rw [h.writers, h.holds, List.count_replicate_self, BitVec.toNat_ofNat, Nat.mod_eq_of_lt (writes_lt h hb)]

omit [DecidableEq T] in
theorem reader_iff (h : Describes held cl) : cl.reader = true ↔ ∃ t, .read ∈ held t := by
  obtain h | ⟨o, h | ⟨n, h⟩⟩ := h
  · simp [h.reader, h.holds]
  · simp only [h.reader, true_iff]
    exact ⟨o, by rw [h.holds]; exact List.mem_singleton_self _⟩
  · simp only [h.reader, Bool.false_eq_true, false_iff, not_exists]
    intro t ht
    obtain rfl := eq_owner h.others (List.ne_nil_of_mem ht)
    rw [h.holds] at ht
    cases List.eq_of_mem_replicate ht

omit [DecidableEq T] in
/-- The exit takes the branch of the mode that was entered. -/
theorem head_released (h : Describes held cl) (ht : held t ≠ []) : (held t).head? = some (released cl) := by
  obtain h | ⟨o, h | ⟨n, h⟩⟩ := h
  · exact absurd (h.holds t) ht
  · obtain rfl := eq_owner h.others ht
    simp [h.holds, released, h.reader]
  · obtain rfl := eq_owner h.others ht
    simp [h.holds, released, h.reader, List.replicate_succ]

theorem not_blocked_of_free (h : Free held cl) (c : Call) : (routine t c).blocked cl = false := by
  cases c with
  | enter rw => cases rw <;> simp [routine, configLockEnterWrite, configLockEnterRead, h.reader, h.owner, h.writers]
  | exit => rfl

/-- Nobody sleeps on a free lock, unless he is about to be woken. -/
theorem waiters_of_free (h : Describes (holds s) s.shared.data) (hs : Asleep (protocol T) s)
    (howner : s.shared.data.owner = none) : s.shared.waiters = ∅ ∨ ∃ t, (s.loc t).point = .cvBroadcast := by
  obtain h | ⟨o, h | ⟨n, h⟩⟩ := h
  · rcases s.shared.waiters.eq_empty_or_nonempty with hnone | ⟨u, hu⟩
    · exact .inl hnone
    · obtain ⟨c, hc⟩ := hs.waits u hu
      obtain hblocked | hwake := hs.blocked u hu c hc
      · exact absurd (hblocked.symm.trans (not_blocked_of_free h c)) (Bool.false_ne_true ∘ Eq.symm)
      · exact .inr hwake
  · cases h.owner.symm.trans howner
  · cases h.owner.symm.trans howner

/-- The fields of the lock say who holds it and how often, and nobody sleeps on
a free lock. -/
theorem config_lock_invariant (h : Reached s) :
    (∀ t u, holds s t ≠ [] → holds s u ≠ [] → t = u) ∧ (∀ t, ∃ m n, holds s t = List.replicate n m) ∧
    (∀ t, s.shared.data.owner = some t ↔ holds s t ≠ []) ∧ (s.shared.data.owner = none ↔ ∀ t, holds s t = []) ∧
    (∀ t, s.shared.data.owner = some t → s.shared.data.writers.toNat = (holds s t).count .write) ∧
    (s.shared.data.owner = none → s.shared.data.writers = 0#32) ∧
    (s.shared.data.reader = true ↔ ∃ t, .read ∈ holds s t) ∧
    (∀ t, (s.loc t).point = .loop .exit → (holds s t).head? = some (released s.shared.data)) ∧
    (s.shared.data.owner = none → s.shared.waiters = ∅ ∨
      ∃ t, s.shared.mutex = some t ∧ (s.loc t).point = .cvBroadcast) := by
  have hholds := Monitor.Reached.holds h kept inv_initial
  have hasleep := Monitor.Reached.asleep h kept inv_initial wakes
  obtain ⟨hdesc, hb⟩ := hholds.data
  refine ⟨fun t u => holder_unique hdesc, one_mode hdesc, owner_iff hdesc, owner_none_iff hdesc,
    fun t => writers_count hdesc hb, ?_, reader_iff hdesc, ?_, ?_⟩
  · intro howner
    obtain h | ⟨o, h | ⟨n, h⟩⟩ := hdesc
    · exact h.writers
    · exact h.writers
    · cases h.owner.symm.trans howner
  · intro t ht
    exact head_released hdesc (hholds.may t .exit (.inr (.inl ht)))
  · intro howner
    obtain hnone | ⟨t, ht⟩ := waiters_of_free hdesc hasleep howner
    · exact .inl hnone
    · exact .inr ⟨t, hholds.owned t (Thread.hasMutex_of_cvBroadcast ht), ht⟩

/-- The conditions of the `ASSERT`s are true where they are evaluated. -/
theorem config_lock_asserts_hold (h : Reached s) (t : T) :
    ((s.loc t).point = .loop (.enter .read) → s.shared.data.owner ≠ some t) ∧
    ((s.loc t).point = .loop .exit → s.shared.data.reader = false → s.shared.data.writers ≠ 0#32) := by
  have hholds := Monitor.Reached.holds h kept inv_initial
  obtain ⟨hdesc, hb⟩ := hholds.data
  constructor
  · intro hc howner
    exact (owner_iff hdesc t).mp howner (hholds.may t (.enter .read) (.inr (.inl hc)))
  · intro hc hreader
    have hhead := head_released hdesc (hholds.may t .exit (.inr (.inl hc)))
    rw [released, hreader] at hhead
    exact writers_ne_zero hdesc hb (List.mem_of_mem_head? hhead)

end Meaning

section Runs

def nested (n : Nat) : State Bool (Thread Call (List Mode)) (Shared Bool (Cfglock Bool)) :=
  ⟨update (fun _ => ⟨.out, []⟩) true ⟨.out, List.replicate n .write⟩,
    ⟨none, ∅, ⟨BitVec.ofNat 32 n, false, if n = 0 then none else some true⟩⟩⟩

theorem nested_zero : nested 0 = initial Bool Call [] ⟨0#32, false, none⟩ := by
  simp [nested, initial]

theorem nested_succ (n : Nat) : nested (n + 1) =
    ⟨update (nested n).loc true ⟨.out, after (List.replicate n .write) (.enter .write)⟩,
      ⟨none, ∅, ((configLockEnterWrite true).body (nested n).shared.data).1⟩⟩ := by
  simp [nested, configLockEnterWrite, after, List.replicate_succ, BitVec.ofNat_add]

theorem bounded_nested {n : Nat} (hn : n < 2 ^ 32) : Bounded (holds (nested n)) := by
  intro t
  cases t with
  | false => simp [holds, nested]
  | true => simpa [holds, nested] using hn

theorem reached_nested {P : (Bool → List Mode) → Prop} {N : Nat} (hP : ∀ n ≤ N, P (holds (nested n))) (n : Nat)
    (hn : n ≤ N) : Monitor.Reached (protocol Bool) P [] ⟨0#32, false, none⟩ (nested n) := by
  induction n with
  | zero =>
      rw [nested_zero]
      exact Relation.ReflTransGen.refl
  | succ n ih =>
      have hle := Nat.le_of_succ_le hn
      have hpass : (configLockEnterWrite true).blocked (nested n).shared.data = false := by
        simp only [nested, configLockEnterWrite, Bool.false_or, decide_eq_false_iff_not]
        split <;> simp
      have hafter := hP (n + 1) hn
      rw [nested_succ] at hafter ⊢
      unfold holds at hafter
      rw [holds_update] at hafter
      exact Monitor.Reached.call (t := true) (c := Call.enter .write) (ih hle) (by simp [nested]) (hP n hle)
        hafter trivial hpass rfl

/-- With 2^32 write holds of one thread `cl_writers` is 0 again, and another
thread gets the lock as a reader. -/
theorem reader_beside_writer : ∃ s : State Bool (Thread Call (List Mode)) (Shared Bool (Cfglock Bool)),
    Monitor.Reached (protocol Bool) (fun _ => True) [] ⟨0#32, false, none⟩ s ∧
    .write ∈ holds s true ∧ .read ∈ holds s false := by
  obtain ⟨n, hn, hpos⟩ : ∃ n, BitVec.ofNat 32 n = 0#32 ∧ n ≠ 0 := ⟨2 ^ 32, by decide, by decide⟩
  have hwrites := reached_nested (P := fun _ => True) (fun _ _ => trivial) n le_rfl
  have hpass : (configLockEnterRead false).blocked (nested n).shared.data = false := by
    simp [nested, configLockEnterRead, hn]
  refine ⟨_, Monitor.Reached.call (t := false) (c := Call.enter .read) hwrites rfl trivial trivial rfl hpass rfl, ?_, ?_⟩
  · exact List.mem_replicate.mpr ⟨hpos, rfl⟩
  · exact List.mem_cons_self

theorem config_lock_invariant_three : (nested 3).shared.data.owner = some true ∧
    (nested 3).shared.data.writers.toNat = (holds (nested 3) true).count .write := by
  have hreached : Reached (nested 3) := by
    refine reached_nested (N := 3) ?_ 3 le_rfl
    intro n hn
    exact bounded_nested (lt_of_le_of_lt hn (by decide))
  have hinv := config_lock_invariant hreached
  exact ⟨rfl, hinv.2.2.2.2.1 true rfl⟩

theorem config_lock_asserts_hold_one : ∃ s : State Bool (Thread Call (List Mode)) (Shared Bool (Cfglock Bool)),
    Reached s ∧ (s.loc true).point = .loop .exit ∧ s.shared.data.writers ≠ 0#32 := by
  have hall (n : Nat) (hn : n ≤ 1) : Bounded (holds (nested n)) := bounded_nested (lt_of_le_of_lt hn (by decide))
  obtain ⟨hcalled, hP⟩ := Monitor.Reached.next_same (reached_nested hall 1 le_rfl) (t := true) rfl
    (.call (c := Call.exit) (List.cons_ne_nil _ _)) (hall 1 le_rfl) rfl
  have hentered := (Monitor.Reached.next_same hcalled (t := true) rfl (.mutexEnter rfl) hP rfl).1
  exact ⟨_, hentered, rfl, (config_lock_asserts_hold hentered true).2 rfl rfl⟩

end Runs

end SysvDev.Ipp.ConfigLock
