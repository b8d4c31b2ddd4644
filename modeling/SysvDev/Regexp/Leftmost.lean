import SysvDev.Regexp.Stale

namespace SysvDev.Regexp.Leftmost

open StateTransition Transition Opcode Advance Program Dispatch Scan Split StarLoop Stale

variable {prog : List Byte} {s : Subject} {is : List Instr} {g g₀ : Globals} {p p2 : Nat}

/-- `advance(p, p2)` returns 1 and leaves `q` in `loc2`. -/
def Finds (prog : List Byte) (s : Subject) (p2 : Nat) (g : Globals) (p : Nat) (q : Int) : Prop :=
  ∃ g', ⟨.ret true, [], g'⟩ ∈ eval (next prog s) (advance p p2 g) ∧ g'.loc2 = q

/-- The first position from `p` on where `advance` returns 1 is `k`, and the match
ends at `q`. -/
structure First (prog : List Byte) (s : Subject) (p2 : Nat) (g : Globals) (p k : Nat) (q : Int) : Prop where
  bound : p ≤ k ∧ k ≤ s.chars.length
  found : Finds prog s p2 g k q
  least : ∀ j, p ≤ j → j < k → ∀ q, ¬ Finds prog s p2 g j q

/-- What a search from `p` on returns. -/
inductive Searched (prog : List Byte) (s : Subject) (p2 : Nat) (g : Globals) (p : Nat) : Bool → Globals → Prop
  | found {g' : Globals} (k : Nat) (q : Int) (hfirst : First prog s p2 g p k q) (hloc1 : g'.loc1 = k) (hloc2 : g'.loc2 = q) :
      Searched prog s p2 g p true g'
  | none {g' : Globals} (hnone : ∀ k, p ≤ k → k ≤ s.chars.length → ∀ q, ¬ Finds prog s p2 g k q) :
      Searched prog s p2 g p false g'

/-- A loop of `step` comes to its end in the same way wherever it is called. -/
def Ends (prog : List Byte) (s : Subject) (control : Control) (g : Globals) (b : Bool) (g' : Globals) : Prop :=
  ∀ frames, Reaches (next prog s) ⟨control, frames, g⟩ ⟨.ret b, frames, g'⟩

theorem Ends.mem_eval {control : Control} {b : Bool} {g' : Globals} (h : Ends prog s control g b g') :
    ⟨.ret b, [], g'⟩ ∈ eval (next prog s) ⟨control, [], g⟩ := StateTransition.mem_eval.mpr ⟨h [], rfl⟩

theorem Ends.unique {control : Control} {b b' : Bool} {g' g'' : Globals} (h : Ends prog s control g b g')
    (h' : Ends prog s control g b' g'') : b = b' ∧ g' = g'' := by
  have heq := Part.mem_unique h.mem_eval h'.mem_eval
  simpa using heq

theorem rest_eq (hp : p ≤ s.chars.length) :
    ∃ y ys, s.rest p = y :: ys ∧ (y = 0#8 ↔ p = s.chars.length) := by
  rw [rest_natCast hp]
  rcases hp.eq_or_lt with rfl | hlt
  · exact ⟨0#8, [], by rw [List.drop_length, List.nil_append], iff_of_true rfl rfl⟩
  · refine ⟨s.chars[p], s.chars.drop (p + 1) ++ [0#8], by rw [List.drop_eq_getElem_cons hlt, List.cons_append], ?_⟩
    exact iff_of_false (s.nonul _ (List.getElem_mem hlt)) hlt.ne

theorem Finds.of_ends {g' : Globals} {q : Int} (h : Ends prog s (.dispatch p p2) g true g') (hq : g'.loc2 = q) :
    Finds prog s p2 g p q := ⟨g', h.mem_eval, hq⟩

theorem not_finds_of_ends {g' : Globals} (h : Ends prog s (.dispatch p p2) g false g') (q : Int) :
    ¬ Finds prog s p2 g p q := by
  rintro ⟨g'', hmem, -⟩
  have heq := Part.mem_unique h.mem_eval hmem
  simp at heq

/-- Where one turn of a search loop leads, after `advance` has returned. -/
def turned (b : Bool) (g' : Globals) (p : Nat) (y : Byte) (again : Control) (frames : List Frame) : Cfg :=
  if b then ⟨.ret true, frames, { g' with loc1 := p }⟩
  else ⟨if y = 0#8 then .ret false else again, frames, g'⟩

section Turns

variable {b : Bool} {g' : Globals} {y c : Byte} {ys : List Byte} (hd : Ends prog s (.dispatch p p2) g b g')
  (hrest : s.rest p = y :: ys)
include hd hrest

theorem slowLoop_turn (frames : List Frame) : Reaches (next prog s) ⟨.slowLoop p p2, frames, g⟩
    (turned b g' p y (.slowLoop (p + 1 : Nat) p2) frames) := by
  have hleave : next prog s ⟨.ret b, .slow p p2 :: frames, g'⟩ =
      some (turned b g' p y (.slowLoop (p + 1 : Nat) p2) frames) := by
    cases b <;> simp [next, resume, hrest, turned]
  exact reaches_head rfl (reaches_tail (hd _) hleave)

/-- The test of the first character is the one that `advance` begins with. -/
theorem fastLoop_turn (hop : prog[p2]? = some cchr) (hc : prog[p2 + 1]? = some c) (frames : List Frame) :
    Reaches (next prog s) ⟨.fastLoop c p p2, frames, g⟩ (turned b g' p y (.fastLoop c (p + 1 : Nat) p2) frames) := by
  by_cases hy : y = c
  · have henter : next prog s ⟨.fastLoop c p p2, frames, g⟩ =
        some ⟨.dispatch p p2, .fast c p p2 :: frames, g⟩ := by
      simp [next, hrest, hy]
    have hleave : next prog s ⟨.ret b, .fast c p p2 :: frames, g'⟩ =
        some (turned b g' p y (.fastLoop c (p + 1 : Nat) p2) frames) := by
      cases b <;> simp [next, resume, hrest, turned]
    exact reaches_head henter (reaches_tail (hd _) hleave)
  · have hfail : Ends prog s (.dispatch p p2) g false g := fun frames => by
      refine reaches_one ?_
      simp [next, hop, switch, hc, single, hrest, isChr, beq_false_of_ne hy]
    obtain ⟨rfl, rfl⟩ := hd.unique hfail
    refine reaches_one ?_
    by_cases h0 : y = 0#8
    · simp [next, hrest, turned, h0, h0 ▸ hy]
    · simp [next, hrest, turned, h0, hy]

end Turns

theorem Searched.here {g' : Globals} (hp : p ≤ s.chars.length) (hfound : Finds prog s p2 g p g'.loc2) :
    Searched prog s p2 g p true { g' with loc1 := p } :=
  .found p g'.loc2 ⟨⟨le_rfl, hp⟩, hfound, fun _ hj hlt => absurd hlt hj.not_gt⟩ rfl rfl

theorem Searched.skip {b : Bool} {g' : Globals} (hnot : ∀ q, ¬ Finds prog s p2 g p q)
    (h : Searched prog s p2 g (p + 1) b g') : Searched prog s p2 g p b g' := by
  have hsplit {j : Nat} (hj : p ≤ j) : j = p ∨ p + 1 ≤ j := by omega
  cases h with
  | found k q hfirst hloc1 hloc2 =>
      refine .found k q ⟨⟨by have := hfirst.bound; omega, hfirst.bound.2⟩, hfirst.found, fun j hj hjk => ?_⟩ hloc1 hloc2
      rcases hsplit hj with rfl | hj
      · exact hnot
      · exact hfirst.least j hj hjk
  | none hnone =>
      refine .none fun j hj hle => ?_
      rcases hsplit hj with rfl | hj
      · exact hnot
      · exact hnone j hj hle

theorem advance_ends (hwf : WellFormed is) (he : encode is <+: prog.drop p2) (hp : p ≤ s.chars.length)
    (ha : Agree is g.groups g₀.groups) (hlocs : g.locs = g₀.locs) :
    ∃ b g', Ends prog s (.dispatch p p2) g b g' ∧ Left is g g' ∧
      (b = true → Finds prog s p2 g₀ p g'.loc2) ∧ (b = false → ∀ q, ¬ Finds prog s p2 g₀ p q) := by
  have hrec : Recorded s [] [] p g.groups := ⟨hp, .inl (Int.negSucc_lt_zero 0), by simp, by simp⟩
  obtain ⟨b, g', h', hg, hh, hloc, hleft, -⟩ := dispatch_twin hwf.grouped List.nodup_nil hwf.sound he hrec ha hlocs
  refine ⟨b, g', hg, hleft, fun hb => ?_, fun hb => ?_⟩
  · subst hb
    exact .of_ends hh (hloc rfl).symm
  · subst hb
    exact not_finds_of_ends hh

/-- Both loops search the positions from left to right, and what a failed call
of `advance` leaves does not change the next one. -/
theorem loops_search (hwf : WellFormed is) (he : encode is <+: prog.drop p2) {n : Nat} (hn : p + n = s.chars.length)
    (ha : Agree is g.groups g₀.groups) (hlocs : g.locs = g₀.locs) :
    ∃ b g', Ends prog s (.slowLoop p p2) g b g' ∧
      (∀ c, prog[p2]? = some cchr → prog[p2 + 1]? = some c → Ends prog s (.fastLoop c p p2) g b g') ∧
      Searched prog s p2 g₀ p b g' := by
  induction n generalizing p g with
  | zero =>
      have hp : p ≤ s.chars.length := Nat.le.intro hn
      obtain ⟨b, g', hd, hleft, hfound, hnot⟩ := advance_ends hwf he hp ha hlocs
      obtain ⟨y, ys, hrest, h0⟩ := rest_eq hp
      have hslow := slowLoop_turn hd hrest
      have hfast (c : Byte) := fastLoop_turn (c := c) hd hrest
      cases b with
      | true => exact ⟨true, _, hslow, hfast, .here hp (hfound rfl)⟩
      | false =>
          simp only [turned, h0.mpr (by omega), if_true, Bool.false_eq_true, if_false] at hslow hfast
          refine ⟨false, g', hslow, hfast, .none fun k hk hle => ?_⟩
          obtain rfl : k = p := by omega
          exact hnot rfl
  | succ n ih =>
      have hp : p ≤ s.chars.length := Nat.le.intro hn
      obtain ⟨b, g', hd, hleft, hfound, hnot⟩ := advance_ends hwf he hp ha hlocs
      obtain ⟨y, ys, hrest, h0⟩ := rest_eq hp
      have hslow := slowLoop_turn hd hrest
      have hfast (c : Byte) := fastLoop_turn (c := c) hd hrest
      cases b with
      | true => exact ⟨true, _, hslow, hfast, .here hp (hfound rfl)⟩
      | false =>
          have hy : y ≠ 0#8 := fun h => by
            have := h0.mp h
            omega
          simp only [turned, hy, Bool.false_eq_true, if_false] at hslow hfast
          obtain ⟨b, g'', hslow', hfast', hsearched⟩ :=
            ih (p := p + 1) (g := g') (by omega) (hleft.agree.symm.trans ha) (hleft.locs.trans hlocs)
          exact ⟨b, g'', fun frames => (hslow frames).trans (hslow' frames),
            fun c hop hc frames => (hfast c hop hc frames).trans (hfast' c hop hc frames), hsearched.skip (hnot rfl)⟩

theorem getElem?_encode (he : encode is <+: prog.drop p2) {k : Nat} (hk : k < (encode is).length) :
    prog[p2 + k]? = some (encode is)[k] := by
  rw [prefix_getElem? he hk, List.getElem?_eq_getElem hk]

theorem length_encode_pos (is : List Instr) : 0 < (encode is).length := by
  rw [encode, List.length_append]
  exact Nat.succ_pos _

theorem operand_of_cchr (he : encode is <+: prog.drop p2) (hop : prog[p2]? = some cchr) : ∃ c, prog[p2 + 1]? = some c := by
  cases is with
  | nil =>
      have hfirst := hop.symm.trans (getElem?_encode he (length_encode_pos []))
      exact absurd hfirst (by decide)
  | cons i is =>
      have hi : 0 < i.encode.length := by cases i <;> simp
      have his := length_encode_pos is
      have hlen : 1 < (encode (i :: is)).length := by
        rw [encode_cons, List.length_append]
        omega
      exact ⟨_, getElem?_encode he hlen⟩

/-- `step` takes the loop with the test of the first character where the program
begins with one, and that loop ends as the other one would. -/
theorem step_searches (hwf : WellFormed is) (he : encode is <+: prog.drop p2) (hp : p ≤ s.chars.length)
    (hcircf : g.circf = 0) :
    ∃ b g', ⟨.ret b, [], g'⟩ ∈ eval (next prog s) (step prog p p2 g) ∧
      ⟨.ret b, [], g'⟩ ∈ eval (next prog s) ⟨.slowLoop p p2, [], g⟩ ∧ Searched prog s p2 g p b g' := by
  obtain ⟨n, hn⟩ := Nat.exists_eq_add_of_le hp
  obtain ⟨b, g', hslow, hfast, hsearched⟩ := loops_search hwf he hn.symm (.refl is g.groups) rfl
  refine ⟨b, g', ?_, hslow.mem_eval, hsearched⟩
  obtain ⟨op, hop⟩ : ∃ op, prog[p2]? = some op := ⟨_, getElem?_encode he (length_encode_pos is)⟩
  rw [step, if_neg (not_not.mpr hcircf)]
  by_cases hchr : op = cchr
  · subst hchr
    obtain ⟨c, hc⟩ := operand_of_cchr he hop
    simp only [hop, if_true, hc]
    exact (hfast c hop hc).mem_eval
  · simp only [hop, hchr, if_false]
    exact hslow.mem_eval

/-- `step` with `circf` zero on a well-formed program, wherever it lies in
memory: it returns 1 exactly when `advance` does at some position up to the NUL,
`loc1` is the first such position and `loc2` the end that `advance` reports there.
The loop with the test of the first character ends as the other one would. -/
theorem step_leftmost (is : List Instr) (hwf : WellFormed is) (before after : List Byte) (s : Subject) (p : Nat)
    (hp : p ≤ s.chars.length) (g : Globals) (hcircf : g.circf = 0) :
    ∃ b g', ⟨.ret b, [], g'⟩ ∈ eval (next (before ++ encode is ++ after) s)
        (step (before ++ encode is ++ after) p before.length g) ∧
      (b = true ↔ ∃ k q, p ≤ k ∧ k ≤ s.chars.length ∧
        Finds (before ++ encode is ++ after) s before.length g k q) ∧
      (b = true → ∃ k q, First (before ++ encode is ++ after) s before.length g p k q ∧ g'.loc1 = k ∧ g'.loc2 = q) ∧
      ⟨.ret b, [], g'⟩ ∈ eval (next (before ++ encode is ++ after) s) ⟨.slowLoop p before.length, [], g⟩ := by
  have he : encode is <+: (before ++ encode is ++ after).drop before.length := by simp
  obtain ⟨b, g', hstep, hslow, hsearched⟩ := step_searches hwf he hp hcircf
  refine ⟨b, g', hstep, ?_, ?_, hslow⟩
  · cases hsearched with
    | found k q hfirst hloc1 hloc2 => exact iff_of_true rfl ⟨k, q, hfirst.bound.1, hfirst.bound.2, hfirst.found⟩
    | none hnone => exact iff_of_false Bool.false_ne_true fun ⟨k, q, hpk, hk, hf⟩ => hnone k hpk hk q hf
  · intro hb
    subst hb
    cases hsearched with
    | found k q hfirst hloc1 hloc2 => exact ⟨k, q, hfirst, hloc1, hloc2⟩

def letterProgram : List Instr := [.item (.chr 98#8) .one]

theorem letterProgram_wellFormed : WellFormed letterProgram := by
  constructor <;> simp [letterProgram, Sound, Grouped, Item.accepts]

def letterSubject : Subject := ⟨[97#8, 98#8], by decide⟩

theorem step_leftmost_letter : ∃ g', ⟨.ret true, [], g'⟩ ∈
    eval (next (encode letterProgram) letterSubject) (step (encode letterProgram) 0 0 freshGlobals) ∧
      g'.loc1 = 1 ∧ g'.loc2 = 2 := by
  obtain ⟨b, g', heval, -⟩ :=
    step_leftmost letterProgram letterProgram_wellFormed [] [] letterSubject 0 (Nat.zero_le 2) freshGlobals rfl
  rw [List.nil_append, List.append_nil] at heval
  have hrun := Part.mem_unique heval (mem_eval.mpr ⟨reaches_steps _ 40 _, by decide⟩)
  have hret : Control.ret b = .ret true := (congrArg Cfg.control hrun).trans (by decide)
  have hglobals := congrArg Cfg.globals hrun
  cases hret
  refine ⟨g', heval, ?_, ?_⟩ <;> rw [show g' = _ from hglobals] <;> decide

end SysvDev.Regexp.Leftmost
