import SysvDev.Regexp.Inversion

namespace SysvDev.Regexp.Halt

open StateTransition Transition Opcode Compile Moves Inversion

variable {inp : Input}

/-- How many steps `compile` can take from a label before it reads the
pattern again. -/
def rank : Label → Nat
  | .returned | .error _ | .overrun _ | .underrun _ | .overread => 0
  | .limit .. | .interval => 3
  | .entry | .defchar _ | .list .. | .bra | .ket | .back _ | .upper _ => 2
  | .loop | .listOpen | .rangeEnd .. | .listNext .. | .escape | .nlim _ | .digits .. | .closeBrace .. => 1

/-- A character still to be read pays for every label before the next one. -/
def weight (inp : Input) (c : Cfg) : Nat :=
  if rank c.label = 0 then 0 else 4 * (inp.pattern.length - c.state.sp) + rank c.label

theorem rank_le (l : Label) : rank l ≤ 3 := by
  cases l <;> simp [rank]

theorem sp_lt {i : Nat} {x : Int} (h : charAt inp i = some x) : i < inp.pattern.length := by
  obtain ⟨b, hb, -⟩ := Option.map_eq_some_iff.mp h
  exact (List.getElem?_eq_some_iff.mp hb).1

theorem weight_le (l : Label) (s : State) :
    weight inp ⟨l, s⟩ ≤ 4 * (inp.pattern.length - s.sp) + rank l := by
  unfold weight
  split
  · exact Nat.zero_le _
  · exact Nat.le_refl _

theorem weight_pos {l : Label} (hl : 0 < rank l) (s : State) :
    weight inp ⟨l, s⟩ = 4 * (inp.pattern.length - s.sp) + rank l := if_neg (Nat.pos_iff_ne_zero.mp hl)

/-- A step that has read a character may go anywhere. -/
theorem weight_read {l l' : Label} {s t : State} {x : Int} (hl : 0 < rank l)
    (hx : charAt inp s.sp = some x) (ht : s.sp < t.sp) : weight inp ⟨l', t⟩ < weight inp ⟨l, s⟩ := by
  have h : weight inp ⟨l', t⟩ ≤ _ := weight_le l' t
  have hlt := sp_lt hx
  have := rank_le l'
  rw [weight_pos hl]
  omega

/-- A step that has read none has to go down. -/
theorem weight_rank {l l' : Label} {s t : State} (hl : rank l' < rank l) (ht : t.sp = s.sp) :
    weight inp ⟨l', t⟩ < weight inp ⟨l, s⟩ := by
  have h : weight inp ⟨l', t⟩ ≤ _ := weight_le l' t
  rw [weight_pos (l := l) (by omega)]
  omega

theorem weight_stop {l l' : Label} {s t : State} (hl : 0 < rank l) (hl' : rank l' = 0) :
    weight inp ⟨l', t⟩ < weight inp ⟨l, s⟩ := by
  rw [weight_pos hl, weight, if_pos hl']
  omega

theorem rank_pos {c d : Cfg} (h : next inp c = some d) : 0 < rank c.label := by
  obtain ⟨l, s⟩ := c
  cases l <;> simp [next, rank] at h ⊢

theorem next_lt {c d : Cfg} (h : next inp c = some d) : weight inp d < weight inp c := by
  have hpos := rank_pos h
  cases next_step h with
  | error | overread | underrun | overrunPair | overrunCount | overrunLast | overrunList | empty =>
      exact weight_stop hpos rfl
  | finish => exact weight_stop hpos rfl
  | start hx _ _ hsp =>
      rcases hsp with ⟨-, hsp⟩ | hsp
      · exact weight_read hpos hx (by omega)
      · exact weight_rank (by decide) hsp
  | dot hx | dol hx | plain hx | backslash hx =>
      exact weight_read hpos hx (by simp only [put, taken_sp]; omega)
  | opening hx _ ht =>
      exact weight_read hpos hx (by rw [ht]; simp only [taken_sp]; omega)
  | star hx | first hx | more hx | escape hx | nlim hx | digit _ hx | number _ hx | unbounded hx | once hx
  | ordered hx => exact weight_read hpos hx (Nat.lt_succ_self _)
  | complement hx => exact weight_read hpos hx (by simp only [readOne]; omega)
  | range hx _ hsp => exact weight_read hpos hx (by omega)
  | rangeClose hx hc | listClose hx hc => exact weight_read hpos hx (by rw [hc.rest]; simp only; omega)
  | member _ hsp => exact weight_rank (by simp [rank]) hsp
  | defchar | dash | bra | ket | back | brace | interval | comma | counted | second =>
      exact weight_rank (by simp [rank]) rfl

theorem compile_halts (inp : Input) (mem : Nat → Byte) : (eval (next inp) (compile mem)).Dom :=
  dom_of_measure (weight inp) (fun _ _ => next_lt) _

end SysvDev.Regexp.Halt
