import SysvDev.Regexp.Inversion
import SysvDev.Regexp.Walk

namespace SysvDev.Regexp.Image

open Opcode Program Compile Moves Walk

variable {mem : Nat → Byte} {s : State} {is : List Instr}

def slice (mem : Nat → Byte) (a n : Nat) : List Byte := (List.range' a n).map mem

theorem program_eq (c : Cfg) : c.program = slice c.state.mem 0 c.state.ep := by
  rw [Cfg.program, slice, List.range_eq_range']

@[simp] theorem slice_length (mem : Nat → Byte) (a n : Nat) : (slice mem a n).length = n := by
  simp [slice]

theorem slice_add (mem : Nat → Byte) (a m n : Nat) :
    slice mem a (m + n) = slice mem a m ++ slice mem (a + m) n := by
  simp only [slice, ← List.map_append]
  rw [List.range'_append_1]

theorem slice_succ (mem : Nat → Byte) (a n : Nat) : slice mem a (n + 1) = slice mem a n ++ [mem (a + n)] :=
  slice_add mem a n 1

theorem slice_congr {mem' : Nat → Byte} {a n : Nat} (h : ∀ i, a ≤ i → i < a + n → mem' i = mem i) :
    slice mem' a n = slice mem a n := by
  apply List.map_congr_left
  intro i hi
  obtain ⟨h1, h2⟩ := List.mem_range'_1.mp hi
  exact h i h1 h2

theorem slice_update (mem : Nat → Byte) (n k : Nat) (b : Byte) :
    slice (Function.update mem k b) 0 n = (slice mem 0 n).set k b := by
  apply List.ext_getElem?
  intro i
  simp only [slice, List.getElem?_set, List.getElem?_map, List.length_map, List.length_range']
  by_cases hi : k = i
  · subst hi
    by_cases hk : k < n
    · simp [hk]
    · simp [hk]
  · simp only [hi, if_false]
    cases h : (List.range' 0 n)[i]? with
    | none => rfl
    | some j =>
        obtain ⟨hlt, hj⟩ := List.getElem?_eq_some_iff.mp h
        have hj' : j = i := by simpa using hj.symm
        subst hj'
        simp [Function.update_of_ne (Ne.symm hi)]

def bytes (is : List Instr) : List Byte := is.flatMap Instr.encode

@[simp] theorem bytes_append (is js : List Instr) : bytes (is ++ js) = bytes is ++ bytes js := by
  simp [bytes]

@[simp] theorem bytes_single (i : Instr) : bytes [i] = i.encode := by
  simp [bytes]

def Code (s : State) (is : List Instr) : Prop := slice s.mem 0 s.ep = bytes is

theorem Code.length (h : Code s is) : (bytes is).length = s.ep := by
  rw [← h, slice_length]

theorem slice_put (b : Byte) (s : State) : slice (put b s).mem 0 (s.ep + 1) = slice s.mem 0 s.ep ++ [b] := by
  rw [slice_succ]
  simp only [put, Nat.zero_add, Function.update_self]
  rw [slice_congr]
  intro i _ hi
  exact Function.update_of_ne (by omega) _ _

theorem Code.put (h : Code s is) {b : Byte} {i : Instr} (hi : i.encode = [b]) :
    Code (Moves.put b s) (is ++ [i]) := by
  rw [Code, bytes_append, bytes_single, hi, ← h]
  exact slice_put b s

theorem Code.put_pair (h : Code s is) {b d : Byte} {i : Instr} (hi : i.encode = [b, d]) :
    Code (Moves.put d (Moves.put b s)) (is ++ [i]) := by
  have h2 : slice (Moves.put d (Moves.put b s)).mem 0 (s.ep + 1 + 1) = slice s.mem 0 s.ep ++ [b] ++ [d] := by
    rw [← slice_put b s]
    exact slice_put d (Moves.put b s)
  rw [Code, bytes_append, bytes_single, hi, ← h]
  rw [List.append_assoc] at h2
  exact h2

theorem slice_last {init : List Byte} {op v : Byte} {tail : List Byte} {n : Nat}
    (h : slice mem 0 n = init ++ op :: tail) :
    slice (Function.update mem init.length v) 0 n = init ++ v :: tail := by
  rw [slice_update, h, List.set_append_right _ _ (Nat.le_refl _), Nat.sub_self, List.set_cons_zero]

theorem mem_last {init tail : List Byte} {op : Byte} {n : Nat} (h : slice mem 0 n = init ++ op :: tail) :
    mem init.length = op := by
  have hlen : n = init.length + (tail.length + 1) := by
    have := congrArg List.length h
    simpa using this
  have hget := congrArg (fun l => l[init.length]?) h
  simp only [slice, List.getElem?_append_right (Nat.le_refl _), Nat.sub_self, List.getElem?_cons_zero] at hget
  rw [List.getElem?_map, List.getElem?_range' (by omega)] at hget
  simpa using hget

/-- Where `lastep` points once an instruction is written. -/
def Last (s : State) (is : List Instr) : Prop :=
  match s.lastep with
  | none => is = []
  | some last => ∃ init i, is = init ++ [i] ∧ last = (bytes init).length

theorem Last.snoc {i : Instr} (h : s.lastep = some (bytes is).length) : Last s (is ++ [i]) := by
  rw [Last, h]
  exact ⟨is, i, rfl, rfl⟩

end SysvDev.Regexp.Image
