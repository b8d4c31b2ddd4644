import SysvDev.Regexp.Forward
import SysvDev.Regexp.Compile

namespace SysvDev.Regexp.Termination

open StateTransition Transition Opcode Advance Forward

variable {prog : List Byte} {s : Subject}

/-- A starred back-reference is about to be tried with a group whose two
recorded ends are the same. -/
def EmptyBackStar (prog : List Byte) (c : Cfg) : Prop :=
  ∃ lp ep n, c.control = .dispatch lp ep ∧ prog[ep]? = some (cback ||| star) ∧
    (prog[ep + 1]?).bind groupIndex = some n ∧
    c.globals.groups.braelist n = c.globals.groups.braslist n

def NeverEmpty (prog : List Byte) (s : Subject) (c : Cfg) : Prop :=
  ∀ d, Reaches (next prog s) c d → ¬ EmptyBackStar prog d

/-- The run from `c` comes back to the frames it started with, or stops at a
read it may not make. Where `far` holds it does not come back with 0. -/
def Returns (prog : List Byte) (s : Subject) (c : Cfg) (far : Prop) : Prop :=
  ∃ d, Reaches (next prog s) c d ∧ (d.control = .fault ∨
    ∃ b g, d = ⟨.ret b, c.frames, g⟩ ∧ g.locs = c.globals.locs ∧ (far → b = true))

def Far (s : Subject) (lp locs : Int) : Prop := Beyond s lp ∧ locs < lp

theorem NeverEmpty.reaches {c d : Cfg} (h : NeverEmpty prog s c) (hd : Reaches (next prog s) c d) :
    NeverEmpty prog s d :=
  fun e he => h e (hd.trans he)

theorem Returns.head {c d : Cfg} {far far' : Prop} (hd : next prog s c = some d)
    (hf : d.frames = c.frames) (hl : d.globals.locs = c.globals.locs) (hfar : far → far')
    (h : Returns prog s d far') : Returns prog s c far := by
  obtain ⟨e, he, h⟩ := h
  refine ⟨e, reaches_head hd he, h.imp_right ?_⟩
  rintro ⟨b, g, rfl, hg, hb⟩
  exact ⟨b, g, by rw [hf], hg.trans hl, fun h => hb (hfar h)⟩

theorem Returns.fault {c d : Cfg} {far : Prop} (hd : next prog s c = some d) (h : d.control = .fault) :
    Returns prog s c far :=
  ⟨d, reaches_one hd, .inl h⟩

theorem Returns.mono {c : Cfg} {far far' : Prop} (h : Returns prog s c far') (hfar : far → far') :
    Returns prog s c far := by
  obtain ⟨d, hd, h⟩ := h
  refine ⟨d, hd, h.imp_right ?_⟩
  rintro ⟨b, g, rfl, hg, hb⟩
  exact ⟨b, g, rfl, hg, fun h => hb (hfar h)⟩

theorem returns_ret (b : Bool) (frames : List Frame) (g : Globals) {far : Prop} (h : far → b = true) :
    Returns prog s ⟨.ret b, frames, g⟩ far :=
  ⟨_, Relation.ReflTransGen.refl, .inr ⟨b, g, rfl, rfl, h⟩⟩

/-- All calls of `advance` from `ep` on come back. -/
def AllReturn (prog : List Byte) (s : Subject) (ep : Nat) : Prop :=
  ∀ lp frames g, NeverEmpty prog s ⟨.dispatch lp ep, frames, g⟩ →
    Returns prog s ⟨.dispatch lp ep, frames, g⟩ (Far s lp g.locs)

theorem next_ret (b : Bool) (frame : Frame) (frames : List Frame) (g : Globals) :
    next prog s ⟨.ret b, frame :: frames, g⟩ =
      some ⟨(resume s b frame g).1, frames, (resume s b frame g).2⟩ := rfl

theorem resume_locs (b : Bool) (frame : Frame) (g : Globals) : (resume s b frame g).2.locs = g.locs := by
  cases frame <;> cases b <;> simp only [resume, Bool.false_eq_true, if_false, if_true] <;>
    split <;> rfl

theorem resume_true (frame : Frame) (g : Globals) : (resume s true frame g).1 = .ret true := by
  cases frame <;> rfl

theorem returns_call {c : Cfg} {ep : Nat} {lp : Int} {frame : Frame} {far : Prop} (hret : AllReturn prog s ep)
    (hc : NeverEmpty prog s c)
    (hcall : next prog s c = some ⟨.dispatch lp ep, frame :: c.frames, c.globals⟩)
    (hfalse : ∀ g, g.locs = c.globals.locs → ¬ Far s lp c.globals.locs →
      NeverEmpty prog s ⟨(resume s false frame g).1, c.frames, (resume s false frame g).2⟩ →
      Returns prog s ⟨(resume s false frame g).1, c.frames, (resume s false frame g).2⟩ far) :
    Returns prog s c far := by
  obtain ⟨d, hd, h⟩ := hret lp (frame :: c.frames) c.globals (hc.reaches (reaches_one hcall))
  rcases h with h | ⟨b, g, rfl, hl, hb⟩
  · exact ⟨d, reaches_head hcall hd, .inl h⟩
  · have hd' := reaches_tail (reaches_head hcall hd) (next_ret b frame c.frames g)
    cases b with
    | true =>
        rw [resume_true] at hd'
        exact ⟨_, hd', .inr ⟨true, _, rfl, (resume_locs true frame g).trans hl, fun _ => rfl⟩⟩
    | false =>
        have hnf : ¬ Far s lp c.globals.locs := fun h => by simpa using hb h
        obtain ⟨e, he, h⟩ := hfalse g hl hnf (hc.reaches hd')
        refine ⟨e, hd'.trans he, h.imp_right ?_⟩
        rintro ⟨b, g', rfl, hg, hb⟩
        exact ⟨b, g', rfl, (hg.trans (resume_locs false frame g)).trans hl, hb⟩

theorem starLoop_returns {ep : Nat} (hret : AllReturn prog s ep) (curlp lp : Int) (frames : List Frame)
    (g : Globals) (h : NeverEmpty prog s ⟨.starLoop curlp lp ep, frames, g⟩) :
    Returns prog s ⟨.starLoop curlp lp ep, frames, g⟩ (Far s (lp - 1) g.locs) := by
  induction hn : (lp - curlp).toNat using Nat.strong_induction_on generalizing lp g with
  | _ n ih =>
      by_cases hl : lp - 1 = g.locs
      · have hstep : next prog s ⟨.starLoop curlp lp ep, frames, g⟩ = some ⟨.ret false, frames, g⟩ := by
          simp [next, hl]
        refine Returns.head hstep rfl rfl id (returns_ret false frames g fun hfar => ?_)
        have := hfar.2
        omega
      · have hcall : next prog s ⟨.starLoop curlp lp ep, frames, g⟩ =
            some ⟨.dispatch (lp - 1) ep, .star curlp (lp - 1) ep :: frames, g⟩ := by
          simp [next, hl]
        refine returns_call hret h hcall fun g' hg' hnf hne => ?_
        simp only [resume, Bool.false_eq_true, if_false] at hne ⊢
        by_cases hlt : curlp < lp - 1
        · rw [if_pos hlt] at hne ⊢
          exact (ih _ (by omega) (lp - 1) g' hne rfl).mono fun h => absurd h hnf
        · rw [if_neg hlt]
          exact returns_ret false frames g' fun h => absurd h hnf

/-- The retries of a starred back-reference go down when the group has a
positive length, and otherwise up until there is nothing left to read. -/
theorem backLoop_returns {ep : Nat} (hret : AllReturn prog s ep) {ct : Int} (hct : ct ≠ 0)
    (curlp lp : Int) (frames : List Frame) (g : Globals)
    (h : NeverEmpty prog s ⟨.backLoop ct curlp lp ep, frames, g⟩) :
    Returns prog s ⟨.backLoop ct curlp lp ep, frames, g⟩ False := by
  induction hn : (if 0 < ct then lp + 1 - curlp else max (s.chars.length : Int) g.locs + 1 - lp).toNat
    using Nat.strong_induction_on generalizing lp g with
  | _ n ih =>
      by_cases hle : curlp ≤ lp
      · have hcall : next prog s ⟨.backLoop ct curlp lp ep, frames, g⟩ =
            some ⟨.dispatch lp ep, .back ct curlp lp ep :: frames, g⟩ := by
          simp [next, hle]
        refine returns_call hret h hcall fun g' hg' hnf hne => ?_
        simp only [resume, Bool.false_eq_true, if_false] at hne ⊢
        have hle' : lp ≤ s.chars.length ∨ lp ≤ g.locs := by
          by_contra hno
          have hlocs : g.locs < lp := by omega
          exact hnf ⟨beyond_of_lt (by omega), hlocs⟩
        refine ih _ ?_ (lp - ct) g' hne rfl
        rw [hg', ← hn]
        by_cases hpos : 0 < ct
        · simp only [hpos, if_true]
          omega
        · simp only [hpos, if_false]
          omega
      · have hstep : next prog s ⟨.backLoop ct curlp lp ep, frames, g⟩ = some ⟨.ret false, frames, g⟩ := by
          simp [next, hle]
        exact Returns.head hstep rfl rfl id (returns_ret false frames g False.elim)

theorem beyond_of_neg {lp : Int} (h : lp < 0) : Beyond s lp := by
  rw [Beyond, Subject.rest, if_neg (by omega)]

theorem ecmpLoop_returns {ep : Nat} (hret : AllReturn prog s ep) {ct : Int} (hct : ct ≠ 0)
    (bbeg curlp lp : Int) (frames : List Frame) (g : Globals)
    (h : NeverEmpty prog s ⟨.ecmpLoop bbeg ct curlp lp ep, frames, g⟩) :
    Returns prog s ⟨.ecmpLoop bbeg ct curlp lp ep, frames, g⟩ (Beyond s lp) := by
  induction hn : (if 0 < ct then s.chars.length + 1 - lp else lp + 1).toNat
    using Nat.strong_induction_on generalizing lp with
  | _ n ih =>
      cases he : ecmp (toSize ct) (s.rest bbeg) (s.rest lp) with
      | none =>
          have hstep : next prog s ⟨.ecmpLoop bbeg ct curlp lp ep, frames, g⟩ = some ⟨.fault, frames, g⟩ := by
            simp only [next, he]
          exact Returns.fault hstep rfl
      | some b =>
          have hnb : ¬ Beyond s lp := by
            intro hb
            rw [hb] at he
            exact hct (toSize_eq_zero (ecmp_nil he).1)
          cases b with
          | true =>
              have hstep : next prog s ⟨.ecmpLoop bbeg ct curlp lp ep, frames, g⟩ =
                  some ⟨.ecmpLoop bbeg ct curlp (lp + ct) ep, frames, g⟩ := by
                simp only [next, he]
              have h0 : 0 ≤ lp := by
                by_contra hneg
                exact hnb (beyond_of_neg (by omega))
              have hlen : lp ≤ s.chars.length := by
                by_contra hlt
                exact hnb (beyond_of_lt (by omega))
              refine Returns.head hstep rfl rfl (fun hb => absurd hb hnb)
                (ih _ ?_ (lp + ct) (h.reaches (reaches_one hstep)) rfl)
              rw [← hn]
              by_cases hpos : 0 < ct
              · simp only [hpos, if_true]
                omega
              · simp only [hpos, if_false]
                omega
          | false =>
              have hstep : next prog s ⟨.ecmpLoop bbeg ct curlp lp ep, frames, g⟩ =
                  some ⟨.backLoop ct curlp lp ep, frames, g⟩ := by
                simp only [next, he]
              exact Returns.head hstep rfl rfl (fun hb => absurd hb hnb)
                (backLoop_returns hret hct curlp lp frames g (h.reaches (reaches_one hstep)))

theorem next_dispatch {lp : Int} {ep : Nat} {op : Byte} (h : prog[ep]? = some op) (frames : List Frame)
    (g : Globals) : next prog s ⟨.dispatch lp ep, frames, g⟩ =
      some ⟨(switch prog s op lp (ep + 1) g).1, frames, (switch prog s op lp (ep + 1) g).2⟩ := by
  simp only [next, h]

/-- By induction on what is left of the program, since every nested call
starts after the instruction that makes it. -/
theorem allReturn (prog : List Byte) (s : Subject) (ep : Nat) : AllReturn prog s ep := by
  induction hn : prog.length - ep using Nat.strong_induction_on generalizing ep with
  | _ n ih =>
      intro lp frames g h
      cases hop : prog[ep]? with
      | none =>
          have hstep : next prog s ⟨.dispatch lp ep, frames, g⟩ = some ⟨.fault, frames, g⟩ := by
            simp only [next, hop]
          exact Returns.fault hstep rfl
      | some op =>
          have hlt : ep < prog.length := (List.getElem?_eq_some_iff.mp hop).1
          have hlater : ∀ ep', ep + 1 ≤ ep' → AllReturn prog s ep' :=
            fun ep' h => ih _ (by omega) ep' rfl
          have hstep : next prog s ⟨.dispatch lp ep, frames, g⟩ = _ := next_dispatch hop frames g
          have hfollows : Follows prog s op lp (ep + 1) g.groups _ := switch_follows op lp (ep + 1) g
          have hlocs : (switch prog s op lp (ep + 1) g).2.locs = g.locs := switch_locs op lp (ep + 1) g
          have hnext := h.reaches (reaches_one hstep)
          generalize hg : (switch prog s op lp (ep + 1) g).2 = g' at hstep hlocs hnext
          generalize (switch prog s op lp (ep + 1) g).1 = control at hstep hfollows hnext
          cases control with
          | fault => exact Returns.fault hstep rfl
          | ret b => exact Returns.head hstep rfl hlocs id (returns_ret b frames g' fun hfar => hfollows hfar.1)
          | dispatch lp' ep' =>
              refine Returns.head hstep rfl hlocs (fun hfar => ?_) (hlater ep' hfollows.1 lp' frames g' hnext)
              rw [hfollows.2 hfar.1, hlocs]
              exact hfar
          | starLoop curlp lp' ep' =>
              refine Returns.head hstep rfl hlocs (fun hfar => ?_)
                (starLoop_returns (hlater ep' hfollows.1) curlp lp' frames g' hnext)
              rw [(hfollows.2 hfar.1).2, hlocs, Int.add_sub_cancel]
              exact hfar
          | ecmpLoop bbeg ct curlp lp' ep' =>
              obtain ⟨hep, rfl, rfl, rfl, n, hn, rfl⟩ := hfollows
              have hct : g.groups.braelist n - g.groups.braslist n ≠ 0 := by
                intro he
                exact h _ Relation.ReflTransGen.refl ⟨lp', ep, n, rfl, hop, hn, sub_eq_zero.mp he⟩
              exact Returns.head hstep rfl hlocs (fun hfar => hfar.1)
                (ecmpLoop_returns (hlater ep' hep) hct bbeg lp' lp' frames g' hnext)
          | backLoop | fastLoop | slowLoop => exact hfollows.elim

theorem slowLoop_returns (p1 : Int) (p2 : Nat) (frames : List Frame) (g : Globals)
    (h : NeverEmpty prog s ⟨.slowLoop p1 p2, frames, g⟩) :
    Returns prog s ⟨.slowLoop p1 p2, frames, g⟩ False := by
  induction hn : (s.chars.length + 1 - p1).toNat using Nat.strong_induction_on generalizing p1 g with
  | _ n ih =>
      refine returns_call (allReturn prog s p2) h rfl fun g' hg' hnf hne => ?_
      simp only [resume, Bool.false_eq_true, if_false] at hne ⊢
      cases hr : s.rest p1 with
      | nil => exact ⟨_, Relation.ReflTransGen.refl, .inl rfl⟩
      | cons x xs =>
          simp only [hr] at hne ⊢
          by_cases hx : x = 0#8
          · simp only [hx, if_true]
            exact returns_ret false frames g' False.elim
          · simp only [hx, if_false] at hne ⊢
            refine ih _ ?_ (p1 + 1) g' hne rfl
            have : ¬ s.chars.length < p1 := by
              intro hlt
              rw [beyond_of_lt hlt] at hr
              simp at hr
            omega

theorem fastLoop_returns (x : Byte) (p1 : Int) (p2 : Nat) (frames : List Frame) (g : Globals)
    (h : NeverEmpty prog s ⟨.fastLoop x p1 p2, frames, g⟩) :
    Returns prog s ⟨.fastLoop x p1 p2, frames, g⟩ False := by
  induction hn : (s.chars.length + 1 - p1).toNat using Nat.strong_induction_on generalizing p1 g with
  | _ n ih =>
      cases hr : s.rest p1 with
      | nil =>
          have hstep : next prog s ⟨.fastLoop x p1 p2, frames, g⟩ = some ⟨.fault, frames, g⟩ := by
            simp only [next, hr]
          exact Returns.fault hstep rfl
      | cons y ys =>
          have hin : ¬ s.chars.length < p1 := by
            intro hlt
            rw [beyond_of_lt hlt] at hr
            simp at hr
          by_cases hy : y = x
          · have hcall : next prog s ⟨.fastLoop x p1 p2, frames, g⟩ =
                some ⟨.dispatch p1 p2, .fast x p1 p2 :: frames, g⟩ := by
              simp only [next, hr, hy, if_true]
            refine returns_call (allReturn prog s p2) h hcall fun g' hg' hnf hne => ?_
            simp only [resume, Bool.false_eq_true, if_false, hr] at hne ⊢
            by_cases h0 : y = 0#8
            · simp only [h0, if_true]
              exact returns_ret false frames g' False.elim
            · simp only [h0, if_false] at hne ⊢
              exact ih _ (by omega) (p1 + 1) g' hne rfl
          · by_cases h0 : y = 0#8
            · have hstep : next prog s ⟨.fastLoop x p1 p2, frames, g⟩ = some ⟨.ret false, frames, g⟩ := by
                simp only [next, hr]
                rw [if_neg hy, if_pos h0]
              exact Returns.head hstep rfl rfl id (returns_ret false frames g False.elim)
            · have hstep : next prog s ⟨.fastLoop x p1 p2, frames, g⟩ =
                  some ⟨.fastLoop x (p1 + 1) p2, frames, g⟩ := by
                simp only [next, hr, hy, h0, if_false]
              exact Returns.head hstep rfl rfl id
                (ih _ (by omega) (p1 + 1) g (h.reaches (reaches_one hstep)) rfl)

theorem step_returns (p1 : Int) (p2 : Nat) (g : Globals) (h : NeverEmpty prog s (step prog p1 p2 g)) :
    Returns prog s (step prog p1 p2 g) False := by
  revert h
  unfold step
  split
  · exact fun h => (allReturn prog s p2 _ _ _ h).mono False.elim
  · split
    · exact fun _ => ⟨_, Relation.ReflTransGen.refl, .inl rfl⟩
    · split
      · split
        · exact fun _ => ⟨_, Relation.ReflTransGen.refl, .inl rfl⟩
        · exact fastLoop_returns _ p1 p2 [] g
      · exact slowLoop_returns p1 p2 [] g

/-- With an empty group the comparison succeeds for ever. -/
theorem not_dom_of_emptyBackStar {c d : Cfg} (hcd : Reaches (next prog s) c d) (hd : EmptyBackStar prog d) :
    ¬ (eval (next prog s) c).Dom := by
  obtain ⟨control, frames, g⟩ := d
  obtain ⟨lp, ep, n, rfl, hop, hn, he⟩ := hd
  have hct : g.groups.braelist n - g.groups.braslist n = 0 := sub_eq_zero.mpr he
  have henter : next prog s ⟨.dispatch lp ep, frames, g⟩ =
      some ⟨.ecmpLoop (g.groups.braslist n) 0 lp lp (ep + 2), frames, g⟩ := by
    rw [next_dispatch hop]
    simp [switch, hn, hct]
  let P : Cfg → Prop := fun c => ∃ bbeg curlp lp ep, c.control = .ecmpLoop bbeg 0 curlp lp ep
  have hstep : ∀ c, P c → ∃ c', next prog s c = some c' ∧ P c' := by
    rintro ⟨control, frames, g⟩ ⟨bbeg, curlp, lp, ep, rfl⟩
    exact ⟨⟨.ecmpLoop bbeg 0 curlp (lp + 0) ep, frames, g⟩, by simp [next, toSize, ecmp], _, _, _, _, rfl⟩
  exact not_dom_of_closed hstep (reaches_tail hcd henter) ⟨_, _, _, _, rfl⟩

/-- `step(p1, p2)` is finite exactly when it never comes to a starred
back-reference whose group is empty. This is so for every string of bytes
in place of the program, in particular for all that `compile` returns, and
whatever the globals hold from before. -/
theorem step_terminates_iff (prog : List Byte) (s : Subject) (p1 : Int) (p2 : Nat) (g : Globals) :
    (eval (next prog s) (step prog p1 p2 g)).Dom ↔
      ∀ c, Reaches (next prog s) (step prog p1 p2 g) c → ¬ EmptyBackStar prog c := by
  constructor
  · intro h c hc hempty
    exact not_dom_of_emptyBackStar hc hempty h
  · intro h
    obtain ⟨d, hd, hfault | ⟨b, g', hret, -⟩⟩ := step_returns p1 p2 g h
    · exact dom_iff.mpr ⟨d, hd, by simp [next, hfault]⟩
    · have hframes : (step prog p1 p2 g).frames = [] := by
        unfold step
        repeat' split
        all_goals rfl
      exact dom_iff.mpr ⟨d, hd, by simp [hret, hframes, next]⟩

def emptyGroup : Compile.Input :=
  ⟨[92#8, 40#8, 92#8, 41#8, 92#8, 49#8, 42#8, 0#8], false, 0, 16, false⟩

def emptyGroupProgram : List Byte := [cbra, 0#8, cket, 0#8, cback ||| star, 0#8, cceof]

def emptySubject : Subject := ⟨[], by decide⟩

theorem emptyGroup_loops :
    (∃ c ∈ eval (Compile.next emptyGroup) (Compile.compile fun _ => 0#8),
      c.label = .returned ∧ c.program = emptyGroupProgram) ∧
    ¬ (eval (next emptyGroupProgram emptySubject) (step emptyGroupProgram 0 0 freshGlobals)).Dom := by
  constructor
  · refine ⟨steps (Compile.next emptyGroup) 14 _, mem_eval.mpr ⟨reaches_steps _ 14 _, ?_⟩, ?_, ?_⟩
    · rfl
    · rfl
    · decide
  · refine not_dom_of_emptyBackStar (reaches_steps _ 3 _) ⟨0, 4, 0, ?_, ?_, ?_, ?_⟩
    · decide
    · decide
    · decide
    · decide

end SysvDev.Regexp.Termination
