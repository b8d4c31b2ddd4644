import SysvDev.Regexp.Growth

namespace SysvDev.Regexp.Decodes

open StateTransition Transition Nesting Opcode Program Compile Moves Inversion Walk Image Contents Growth

variable {inp : Input} {s t : State} {is : List Instr}

/-- What a step does to the bracket stack, `closed` and `nbra`. -/
def groupsAfter (c : Cfg) : List Byte × Nat × Nat :=
  match c.label, c.state.bracket with
  | .entry, _ => ([], 0, 0)
  | .bra, bracket => (toChar c.state.nbra :: bracket, c.state.closed, c.state.nbra + 1)
  | .ket, _ :: bracket => (bracket, c.state.closed + 1, c.state.nbra)
  | _, bracket => (bracket, c.state.closed, c.state.nbra)

theorem step_groups {c d : Cfg} (hnext : next inp c = some d) :
    stops d.label = true ∨ d.label = .returned ∧ c.label = .entry ∨ groups d.state = groupsAfter c := by
  cases next_step hnext with
  | error | overread | underrun | overrunPair | overrunCount | overrunLast | overrunList => exact .inl rfl
  | empty => exact .inr (.inl ⟨rfl, rfl⟩)
  | finish _ _ _ _ ht => exact .inr (.inr ht.2.2)
  | start _ _ ht =>
      rw [ht]
      exact .inr (.inr rfl)
  | dot | dol | plain | backslash => exact .inr (.inr (taken_groups _ _))
  | opening _ _ ht =>
      rw [ht]
      exact .inr (.inr (taken_groups _ _))
  | member _ _ hl | range _ _ _ _ hl =>
      rw [hl.rest]
      exact .inr (.inr rfl)
  | rangeClose _ hc | listClose _ hc =>
      rw [hc.rest]
      exact .inr (.inr rfl)
  | escape _ hl => exact .inr (.inr rfl)
  | ket hb =>
      refine .inr (.inr ?_)
      simp only [groupsAfter, hb]
      rfl
  | _ => exact .inr (.inr rfl)

/-- The marks of the program, against what `compile` remembers of them. -/
structure Tracks (s : State) (ms : List (Mark Byte)) : Prop where
  nested : nest [] ms = some s.bracket
  opens : pushes ms = (List.range s.nbra).map fun n : Nat => toChar n
  closed : (pops ms).length = s.closed
  le : s.nbra ≤ maxBra

theorem Tracks.small {ms : List (Mark Byte)} (h : Tracks s ms) : Small s := by
  intro n hn
  have hmem := mem_pushes h.nested hn
  rw [h.opens] at hmem
  obtain ⟨k, hk, rfl⟩ := List.mem_map.mp hmem
  have hlt : k < maxBra := Nat.lt_of_lt_of_le (List.mem_range.mp hk) h.le
  exact ⟨⟨k, hlt⟩, toChar_group hlt⟩

theorem Tracks.congr {ms : List (Mark Byte)} (h : Tracks s ms) (ht : groups t = groups s) : Tracks t ms := by
  obtain ⟨hbracket, hrest⟩ := Prod.ext_iff.mp ht
  obtain ⟨hclosed, hnbra⟩ := Prod.ext_iff.mp hrest
  simp only [groups] at hbracket hclosed hnbra
  constructor
  · rw [hbracket]
    exact h.nested
  · rw [hnbra]
    exact h.opens
  · rw [hclosed]
    exact h.closed
  · rw [hnbra]
    exact h.le

theorem bra_lt {d : Cfg} (h : next inp ⟨.bra, s⟩ = some d) : stops d.label = true ∨ s.nbra < maxBra := by
  cases next_step h with
  | error | overrunPair | overrunCount | overrunLast | overrunList => exact .inl rfl
  | overread => exact .inl rfl
  | bra hn => exact .inr hn

theorem Tracks.push {ms : List (Mark Byte)} (h : Tracks s ms) (hn : s.nbra < maxBra)
    (ht : groups t = (toChar s.nbra :: s.bracket, s.closed, s.nbra + 1)) :
    Tracks t (ms ++ [.push (toChar s.nbra)]) := by
  apply Tracks.congr (s := { s with bracket := toChar s.nbra :: s.bracket, nbra := s.nbra + 1 }) _ ht
  constructor
  · rw [nest_append, h.nested]
    rfl
  · rw [pushes_append, h.opens, List.range_succ, List.map_append]
    rfl
  · rw [pops_append]
    simpa [pops] using h.closed
  · exact hn

theorem Tracks.pop {ms : List (Mark Byte)} {n : Byte} {bracket : List Byte} (h : Tracks s ms)
    (hb : s.bracket = n :: bracket) (ht : groups t = (bracket, s.closed + 1, s.nbra)) :
    Tracks t (ms ++ [.pop n]) := by
  apply Tracks.congr (s := { s with bracket, closed := s.closed + 1 }) _ ht
  constructor
  · rw [nest_append, h.nested, hb]
    simp [nest]
  · rw [pushes_append]
    simpa [pushes] using h.opens
  · rw [pops_append]
    simpa [pops] using h.closed
  · exact h.le

theorem Tracks.mention {ms : List (Mark Byte)} (h : Tracks s ms) (n : Byte) (ht : groups t = groups s) :
    Tracks t (ms ++ [.mention n]) := by
  apply Tracks.congr (s := s) _ ht
  constructor
  · rw [nest_append, h.nested]
    rfl
  · rw [pushes_append]
    simpa [pushes] using h.opens
  · rw [pops_append]
    simpa [pops] using h.closed
  · exact h.le

theorem step_tracks {c d : Cfg} {ms : List (Mark Byte)} (h : Tracks c.state ms)
    (hentry : c.label = .entry → ms = []) (hnext : next inp c = some d) (hd : stops d.label = false)
    (hempty : ¬ (d.label = .returned ∧ c.label = .entry)) : Tracks d.state (ms ++ added c) := by
  obtain ⟨label, s⟩ := c
  have hgroups : groups d.state = groupsAfter ⟨label, s⟩ := by
    rcases step_groups hnext with hs | he | hg
    · rw [hd] at hs
      cases hs
    · exact absurd he hempty
    · exact hg
  cases label with
  | entry =>
      rw [hentry rfl]
      apply Tracks.congr (s := { s with bracket := [], closed := 0, nbra := 0 }) _ hgroups
      exact ⟨rfl, rfl, rfl, Nat.zero_le _⟩
  | bra =>
      rcases bra_lt hnext with hs | hlt
      · rw [hd] at hs
        cases hs
      · exact h.push hlt hgroups
  | ket =>
      cases hb : s.bracket with
      | nil =>
          simp only [added, hb, List.append_nil]
          apply h.congr
          rw [hgroups]
          simp only [groupsAfter, hb, groups]
      | cons n bracket =>
          simp only [added, hb]
          apply h.pop hb
          rw [hgroups]
          simp only [groupsAfter, hb]
  | back x => exact h.mention _ hgroups
  | _ =>
      simp only [added, List.append_nil]
      exact h.congr hgroups

theorem empty_ep {c d : Cfg} (h : Compiled inp c is) (hnext : next inp c = some d)
    (hd : d.label = .returned ∧ c.label = .entry) : d.state.ep = 0 := by
  obtain ⟨label, s⟩ := c
  obtain ⟨hret, rfl⟩ := hd
  cases next_step hnext with
  | empty _ _ ht => exact ht.1.trans h.1
  | _ => cases hret

theorem entry_marks {c : Cfg} (h : Compiled inp c is) (hc : c.label = .entry) : marksOf is = [] := by
  obtain ⟨label, s⟩ := c
  subst hc
  rw [h.2.2]
  rfl

structure Follows (inp : Input) (c : Cfg) (is : List Instr) : Prop where
  compiled : Compiled inp c is
  tracks : Tracks c.state (marksOf is) ∨ c.label = .returned ∧ c.state.ep = 0

theorem next_of_stops {c : Cfg} (h : stops c.label = true ∨ c.label = .returned) : next inp c = none := by
  obtain ⟨label, s⟩ := c
  cases label with
  | error | overrun | underrun | overread | returned => rfl
  | _ => exact absurd h (by simp [stops])

theorem follows_compile (inp : Input) (mem : Nat → Byte) : Follows inp (compile mem) [] := by
  constructor
  · exact ⟨rfl, rfl, rfl⟩
  · exact .inl ⟨rfl, rfl, rfl, Nat.zero_le _⟩

theorem step_follows {c d : Cfg} (h : Follows inp c is) (hplain : Plain inp c) (hnext : next inp c = some d) :
    stops d.label = true ∨ ∃ is', Follows inp d is' ∧ marksOf is' = marksOf is ++ added c := by
  rcases h.tracks with htracks | ⟨hret, -⟩
  · rcases step_compiled h.compiled htracks.small hplain hnext with hs | ⟨is', hc, hmarks⟩
    · exact .inl hs
    · by_cases hd : stops d.label = true
      · exact .inl hd
      · refine .inr ⟨is', ⟨hc, ?_⟩, hmarks⟩
        by_cases hempty : d.label = .returned ∧ c.label = .entry
        · exact .inr ⟨hempty.1, empty_ep h.compiled hnext hempty⟩
        · rw [hmarks]
          exact .inl (step_tracks htracks (entry_marks h.compiled) hnext (Bool.not_eq_true _ ▸ hd) hempty)
  · rw [next_of_stops (.inr hret)] at hnext
    cases hnext

/-- While every step of the run is plain, the buffer holds instructions, and
group instructions are only added to it. -/
theorem reaches_follows {c d : Cfg} (h : Follows inp c is) (hplain : ∀ e, Reaches (next inp) c e → Plain inp e)
    (hd : Reaches (next inp) c d) :
    stops d.label = true ∨ ∃ is', Follows inp d is' ∧ marksOf is <+: marksOf is' := by
  refine reaches_invariant_of_reaches
    (P := fun d => stops d.label = true ∨ ∃ is', Follows inp d is' ∧ marksOf is <+: marksOf is')
    (fun a b ha hab hnext => ?_) hd (.inr ⟨is, h, List.prefix_refl _⟩)
  rcases hab with hs | ⟨is', hf, hpre⟩
  · rw [next_of_stops (.inl hs)] at hnext
    cases hnext
  · apply (step_follows hf (hplain a ha) hnext).imp_right
    rintro ⟨is'', hf', hmarks⟩
    exact ⟨is'', hf', hmarks ▸ hpre.trans (List.prefix_append _ _)⟩

theorem charAt_nonneg {pattern : List Byte} {eof : Int} {endbuf i : Nat} {sed : Bool} {x : Int}
    (h : charAt ⟨pattern, false, eof, endbuf, sed⟩ i = some x) : 0 ≤ x := by
  obtain ⟨b, -, rfl⟩ := Option.map_eq_some_iff.mp h
  exact Int.natCast_nonneg _

/-- Where every interval goes to an instruction that can take it, a program
that `compile` returns is walked by `advance` to its end. Nothing is written
for the empty pattern. -/
theorem compile_decodes (pattern : List Byte) (eof : Int) (endbuf : Nat) (sed : Bool) (mem : Nat → Byte)
    (h : ∀ c, Reaches (next ⟨pattern, false, eof, endbuf, sed⟩) (compile mem) c → countable c = true)
    (c : Cfg) (hc : Reaches (next ⟨pattern, false, eof, endbuf, sed⟩) (compile mem) c)
    (hret : c.label = .returned) : c.program = [] ∨ walk 0 c.program = true := by
  have hplain (e : Cfg) (he : Reaches (next ⟨pattern, false, eof, endbuf, sed⟩) (compile mem) e) :
      Plain ⟨pattern, false, eof, endbuf, sed⟩ e := ⟨h e he, fun _ _ _ _ _ hx => charAt_nonneg hx⟩
  rcases reaches_follows (follows_compile _ mem) hplain hc with hs | ⟨is, hf, -⟩
  · rw [hret] at hs
    cases hs
  · have hcode := hf.compiled
    rw [program_eq]
    simp only [Compiled, hret] at hcode
    rcases hcode with hep | hcode
    · exact .inl (by rw [hep]; rfl)
    · exact .inr (hcode ▸ walk_encode is)

def countedChar : List Byte := [97#8, 92#8, 123#8, 50#8, 92#8, 125#8, 0#8]

theorem compile_decodes_countedChar :
    walk 0 (steps (next ⟨countedChar, false, 0, 64, false⟩) 16 (compile fun _ => 0#8)).program = true := by
  have hhalt : next ⟨countedChar, false, 0, 64, false⟩
      (steps (next ⟨countedChar, false, 0, 64, false⟩) 16 (compile fun _ => 0#8)) = none := by rfl
  refine (compile_decodes countedChar 0 64 false (fun _ => 0#8) ?_ _ (reaches_steps _ 16 _) rfl).resolve_left ?_
  · intro c hc
    exact forall_reaches (P := fun c => countable c = true) hhalt (by decide) hc
  · decide

def countedGroup : List Byte := [92#8, 40#8, 97#8, 92#8, 41#8, 92#8, 123#8, 50#8, 92#8, 125#8, 0#8]

/-- The count goes to the closing bracket, which becomes an opcode that
`advance` has no case for. -/
theorem countedGroup_not_decoded :
    ∃ c, Reaches (next ⟨countedGroup, false, 0, 64, false⟩) (compile fun _ => 0#8) c ∧ c.label = .returned ∧
      c.program = [cbra, 0#8, cchr, 97#8, cket ||| rnge, 0#8, 2#8, 2#8, cceof] ∧ walk 0 c.program = false :=
  ⟨_, reaches_steps _ 20 _, by decide, by decide, by decide⟩

end SysvDev.Regexp.Decodes
