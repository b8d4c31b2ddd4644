import SysvDev.Regexp.Decodes

namespace SysvDev.Regexp.Groups

open StateTransition Transition Nesting Opcode Program Compile Moves Inversion Walk Image Contents Growth Decodes

variable {inp : Input} {s t : State} {is : List Instr} {mem : Nat → Byte} {c d : Cfg}

/-- The groups of a program: numbered from zero in the order in which they
open, at most `maxBra` of them, nested, each closed once, and named by a back
reference only after that. -/
structure Structured (nbra : Nat) (ms : List (Mark Byte)) : Prop where
  le : nbra ≤ maxBra
  opens : pushes ms = (List.range nbra).map fun n : Nat => toChar n
  nested : nest [] ms = some []
  settled : Settled ms

def refersToOpen (c : Cfg) : Bool :=
  match c.label with
  | .back x => toChar x ∈ c.state.bracket
  | _ => false

theorem toChar_injOn {n : Nat} (hn : n ≤ maxBra) {a b : Nat} (ha : a < n) (hb : b < n)
    (h : toChar a = toChar b) : a = b := by
  have hsmall : n ≤ 9 := hn
  have hnat := congrArg BitVec.toNat h
  simp only [toChar, BitVec.toNat_ofInt] at hnat
  omega

theorem tracks_nodup {ms : List (Mark Byte)} (h : Tracks s ms) : (pushes ms).Nodup := by
  rw [h.opens]
  apply List.Nodup.map_on _ List.nodup_range
  intro a ha b hb heq
  exact toChar_injOn h.le (List.mem_range.mp ha) (List.mem_range.mp hb) heq

theorem mem_pushes_of_closed {ms : List (Mark Byte)} (h : Tracks s ms) {x : Int} (h0 : 0 ≤ x) (hx : x < s.closed) :
    toChar x ∈ pushes ms := by
  have hle := length_pops h.nested
  rw [h.closed, h.opens, List.length_map, List.length_range] at hle
  rw [h.opens]
  apply List.mem_map.mpr
  refine ⟨x.toNat, List.mem_range.mpr (by omega), ?_⟩
  rw [Int.toNat_of_nonneg h0]

theorem back_closed {x : Int} (h : next inp ⟨.back x, s⟩ = some d) : stops d.label = true ∨ x < s.closed := by
  cases next_step h with
  | error | overread | overrunPair | overrunCount | overrunLast | overrunList => exact .inl rfl
  | back hx => exact .inr hx

theorem added_mention {n : Byte} (h : added c = [.mention n]) : ∃ x, c.label = .back x ∧ n = toChar x := by
  obtain ⟨label, s⟩ := c
  cases label with
  | back x =>
      simp only [added, List.cons.injEq, Mark.mention.injEq] at h
      exact ⟨x, rfl, h.1.symm⟩
  | ket =>
      cases hb : s.bracket <;> simp [added, hb] at h
  | _ => simp [added] at h

theorem added_cases (c : Cfg) : added c = [] ∨ ∃ m, added c = [m] := by
  rw [added]
  split
  · exact .inr ⟨_, rfl⟩
  · exact .inr ⟨_, rfl⟩
  · exact .inr ⟨_, rfl⟩
  · exact .inl rfl

/-- A reference that `compile` lets through names a closed group, unless the
group is still open. -/
theorem mem_pops_of_back {x : Int} (h : Follows inp ⟨.back x, s⟩ is) (hnext : next inp ⟨.back x, s⟩ = some d)
    (hd : stops d.label = false) (hopen : refersToOpen ⟨.back x, s⟩ = false) :
    toChar x ∈ pops (marksOf is) := by
  have htracks : Tracks s (marksOf is) := by
    rcases h.tracks with ht | ⟨hret, -⟩
    · exact ht
    · cases hret
  have hx : x < s.closed := by
    rcases back_closed hnext with hs | hx
    · rw [hd] at hs
      cases hs
    · exact hx
  have h0 : 0 ≤ x := h.compiled.2.2.1
  rcases mem_pops_or_mem htracks.nested (mem_pushes_of_closed htracks h0 hx) with hp | hb
  · exact hp
  · simp only [refersToOpen, decide_eq_false_iff_not] at hopen
    exact absurd hb hopen

theorem step_settled (h : Follows inp c is) (hs : Settled (marksOf is)) (hnext : next inp c = some d)
    (hd : stops d.label = false) (hopen : refersToOpen c = false) : Settled (marksOf is ++ added c) := by
  rcases added_cases c with ha | ⟨m, ha⟩
  · rwa [ha, List.append_nil]
  · rw [ha]
    apply hs.snoc
    rintro n rfl
    obtain ⟨x, hx, rfl⟩ := added_mention ha
    obtain ⟨label, s⟩ := c
    subst hx
    exact mem_pops_of_back h hnext hd hopen

theorem reaches_settled (hplain : ∀ e, Reaches (next inp) (compile mem) e → Plain inp e)
    (hopen : ∀ e, Reaches (next inp) (compile mem) e → refersToOpen e = false)
    (hc : Reaches (next inp) (compile mem) c) :
    stops c.label = true ∨ ∃ is, Follows inp c is ∧ Settled (marksOf is) := by
  refine reaches_invariant_of_reaches
    (P := fun c => stops c.label = true ∨ ∃ is, Follows inp c is ∧ Settled (marksOf is))
    (fun a b ha hab hnext => ?_) hc (.inr ⟨[], follows_compile inp mem, ?_⟩)
  · rcases hab with hs | ⟨is, hf, hs⟩
    · rw [next_of_stops (.inl hs)] at hnext
      cases hnext
    · by_cases hb : stops b.label = true
      · exact .inl hb
      · have hb' : stops b.label = false := Bool.not_eq_true _ ▸ hb
        apply (step_follows hf (hplain a ha) hnext).imp_right
        rintro ⟨is', hf', hmarks⟩
        exact ⟨is', hf', hmarks ▸ step_settled hf hs hnext hb' (hopen a ha)⟩
  · intro pre n post h
    exact absurd h.symm (by simp [marksOf])

theorem bracket_of_returned (hc : Reaches (next inp) (compile mem) c) (hret : c.label = .returned) :
    c.state.bracket = [] ∨ c.state.ep = 0 := by
  refine reaches_invariant
    (P := fun c => (c.label = .returned → c.state.bracket = [] ∨ c.state.ep = 0) ∧
      (c.label = .entry → c.state.ep = 0))
    (fun a b ha hnext => ?_) hc ⟨by rintro ⟨⟩, fun _ => rfl⟩ |>.1 hret
  cases next_step hnext with
  | empty _ _ ht => exact ⟨fun _ => .inr (ht.1.trans (ha.2 rfl)), by rintro ⟨⟩⟩
  | finish _ _ _ hb ht =>
      refine ⟨fun _ => .inl ?_, by rintro ⟨⟩⟩
      exact (Prod.ext_iff.mp ht.2.2).1.trans hb
  | escape _ hl =>
      rcases hl with ⟨-, rfl⟩ | ⟨-, rfl⟩ | ⟨-, rfl⟩ | ⟨-, y, rfl⟩ | ⟨-, -, rfl⟩ <;> exact ⟨by rintro ⟨⟩, by rintro ⟨⟩⟩
  | _ => exact ⟨by rintro ⟨⟩, by rintro ⟨⟩⟩

theorem marks_program (h : Follows inp c is) (hret : c.label = .returned) (hne : c.program ≠ []) :
    marks 0 c.program = marksOf is ∧ Tracks c.state (marksOf is) := by
  have hep : c.state.ep ≠ 0 := by
    intro hep
    rw [Cfg.program, hep] at hne
    exact hne rfl
  have hcode := h.compiled
  simp only [Compiled, hret] at hcode
  constructor
  · rw [program_eq, hcode.resolve_left hep, marks_encode]
  · exact h.tracks.resolve_right fun hempty => hep hempty.2

theorem not_settled_of_open (hplain : ∀ e, Reaches (next inp) (compile mem) e → Plain inp e) {e : Cfg}
    (hc : Reaches (next inp) (compile mem) c) (hret : c.label = .returned) (hne : c.program ≠ [])
    (he : Reaches (next inp) (compile mem) e) (hopen : refersToOpen e = true) :
    ¬ Settled (marks 0 c.program) := by
  obtain ⟨label, s⟩ := e
  obtain ⟨x, rfl⟩ : ∃ x, label = .back x := by
    cases label with
    | back x => exact ⟨x, rfl⟩
    | _ => cases hopen
  have hrest := reaches_of_halted he hc (next_of_stops (.inr hret))
  obtain ⟨is, hf, -⟩ := (reaches_follows (follows_compile inp mem) hplain he).resolve_left (by rintro ⟨⟩)
  obtain ⟨e', hnext, he'⟩ : ∃ e', next inp ⟨.back x, s⟩ = some e' ∧ Reaches (next inp) e' c := by
    rcases Relation.ReflTransGen.cases_head hrest with heq | h
    · rw [← heq] at hret
      cases hret
    · exact h
  have hafter (d : Cfg) (hd : Reaches (next inp) e' d) : Plain inp d :=
    hplain d ((reaches_tail he hnext).trans hd)
  have htracks : Tracks s (marksOf is) := hf.tracks.resolve_right fun hr => by cases hr.1
  have hstops : ¬ stops c.label = true := by rw [hret]; rintro ⟨⟩
  rcases step_follows hf (hplain _ he) hnext with hs | ⟨is', hf', hmarks⟩
  · rcases Relation.ReflTransGen.cases_head he' with rfl | ⟨d, hd, -⟩
    · exact absurd hs hstops
    · rw [next_of_stops (.inl hs)] at hd
      cases hd
  · obtain ⟨is'', hf'', post, hpost⟩ := (reaches_follows hf' hafter he').resolve_left hstops
    rw [(marks_program hf'' hret hne).1, ← hpost, hmarks, List.append_assoc]
    intro hsettled
    have hb : toChar x ∈ s.bracket := by simpa [refersToOpen] using hopen
    exact not_mem_pops htracks.nested (tracks_nodup htracks) hb (hsettled _ _ _ rfl)

/-- Where every step is plain, the groups of a returned program are as they
should be exactly when no back reference names a group that is still open. -/
theorem compile_structured_iff (inp : Input) (mem : Nat → Byte)
    (hplain : ∀ e, Reaches (next inp) (compile mem) e → Plain inp e) (c : Cfg)
    (hc : Reaches (next inp) (compile mem) c) (hret : c.label = .returned) (hne : c.program ≠ []) :
    Structured c.state.nbra (marks 0 c.program) ↔
      ∀ e, Reaches (next inp) (compile mem) e → refersToOpen e = false := by
  constructor
  · intro h e he
    by_contra hopen
    exact not_settled_of_open hplain hc hret hne he (Bool.not_eq_false _ ▸ hopen) h.settled
  · intro hopen
    have hstops : ¬ stops c.label = true := by rw [hret]; rintro ⟨⟩
    obtain ⟨is, hf, hs⟩ := (reaches_settled hplain hopen hc).resolve_left hstops
    obtain ⟨hmarks, htracks⟩ := marks_program hf hret hne
    have hep : c.state.ep ≠ 0 := by
      intro hep
      rw [Cfg.program, hep] at hne
      exact hne rfl
    rw [hmarks]
    refine ⟨htracks.le, htracks.opens, ?_, hs⟩
    rw [htracks.nested, (bracket_of_returned hc hret).resolve_right hep]

def backPattern : Input := ⟨[92#8, 40#8, 97#8, 92#8, 41#8, 92#8, 49#8, 0#8], false, 0, 64, false⟩

theorem compile_structured_backPattern :
    Structured 1 (marks 0 (steps (next backPattern) 20 (compile fun _ => 0#8)).program) := by
  have hhalt : next backPattern (steps (next backPattern) 20 (compile fun _ => 0#8)) = none := by rfl
  refine (compile_structured_iff backPattern (fun _ => 0#8) ?_ _ (reaches_steps _ 20 _) rfl ?_).mpr ?_
  · intro e he
    exact ⟨forall_reaches (P := fun e => countable e = true) hhalt (by decide) he,
      fun _ _ _ _ _ hx => charAt_nonneg hx⟩
  · decide
  · intro e he
    exact forall_reaches (P := fun e => refersToOpen e = false) hhalt (by decide) he

def innerBack : Input :=
  ⟨[92#8, 40#8, 92#8, 40#8, 97#8, 92#8, 41#8, 92#8, 49#8, 92#8, 41#8, 0#8], false, 0, 64, false⟩

/-- One group is closed, so `\1` is let through, but it is not that one. -/
theorem innerBack_not_structured :
    ∃ c, Reaches (next innerBack) (compile fun _ => 0#8) c ∧ c.label = .returned ∧
      c.program = [cbra, 0#8, cbra, 1#8, cchr, 97#8, cket, 1#8, cback, 0#8, cket, 0#8, cceof] ∧
      ¬ Structured c.state.nbra (marks 0 c.program) := by
  refine ⟨_, reaches_steps _ 24 _, by decide, by decide, ?_⟩
  intro h
  have hmarks : marks 0 (steps (next innerBack) 24 (compile fun _ => 0#8)).program =
      [.push 0#8, .push 1#8, .pop 1#8] ++ .mention 0#8 :: [.pop 0#8] := by decide
  exact absurd (h.settled _ _ _ hmarks) (by decide)

end SysvDev.Regexp.Groups
