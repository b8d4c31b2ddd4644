import SysvDev.X86.Words

namespace SysvDev.X86.Trace

open Memory Machine Run Cells Words Inevitable

variable {w : Nat} {L : Type} [DecidableEq L] {text : List (Line L)} {ext : Nat → Option (State w → State w)}

/-- A point of the run, and the calls of routines that are not in the text, each
as the point where the routine is entered. -/
structure Traced (w : Nat) where
  cfg : Cfg w
  calls : List (Cfg w)

def TraceSteps (text : List (Line L)) (ext : Nat → Option (State w → State w)) (c d : Traced w) : Prop :=
  StepsWith text ext c.cfg d.cfg ∧ d.calls = if (ext c.cfg.ip).isSome then c.calls ++ [c.cfg] else c.calls

/-- Every run from the point comes to its end, with the calls it has made. -/
abbrev Traces (text : List (Line L)) (ext : Nat → Option (State w → State w)) (P : Traced w → Prop) (c : Traced w) :
    Prop := Until (TraceSteps text ext) (fun _ => True) P c

variable {ip : Nat} {s : State w} {P : Traced w → Prop} {lines : List (Line L)} {es : List (Cfg w)}

theorem traces_quiet {R : Cfg w → Prop} {c : Cfg w} (h : Until (StepsWith text ext) (fun c => ext c.ip = none) R c)
    (hR : ∀ d, R d → Traces text ext P ⟨d, es⟩) : Traces text ext P ⟨c, es⟩ := by
  induction h with
  | here hc => exact hR _ hc
  | next hnone hex _ ih =>
      obtain ⟨d, hd⟩ := hex
      refine .next trivial ⟨⟨d, es⟩, hd, by simp [hnone]⟩ ?_
      rintro ⟨e, calls⟩ ⟨he, hcalls⟩
      obtain rfl : calls = es := by simpa [hnone] using hcalls
      exact ih e he

theorem traces_lines (hext : ∀ i, ip ≤ i → i < ip + lines.length → ext i = none) (h : At text ip lines)
    (hrun : ∃ d, run text ip s lines = some d ∧ Traces text ext P ⟨d, es⟩) : Traces text ext P ⟨⟨ip, s⟩, es⟩ := by
  obtain ⟨d, hd, hend⟩ := hrun
  have hblock : Until (StepsWith text ext) (fun c => ext c.ip = none) (· = d) ⟨ip, s⟩ :=
    until_lines hext h (fun i _ hi hlt => hext i hi hlt) ⟨d, hd, .here rfl⟩
  exact traces_quiet hblock fun _ he => he ▸ hend

theorem traces_extern {f : State w → State w} (hf : ext ip = some f)
    (h : Traces text ext P ⟨⟨(s.pop 0).1.toNat, f s⟩, es ++ [⟨ip, s⟩]⟩) : Traces text ext P ⟨⟨ip, s⟩, es⟩ := by
  have hnext : nextWith text ext ⟨ip, s⟩ = some ⟨(s.pop 0).1.toNat, f s⟩ := by
    rw [nextWith, hf]
  refine .next trivial ⟨⟨_, es ++ [⟨ip, s⟩]⟩, hnext, by simp [hf]⟩ ?_
  rintro ⟨e, calls⟩ ⟨he, hcalls⟩
  rw [StepsWith, hnext] at he
  obtain rfl := Option.some.inj he
  obtain rfl : calls = es ++ [⟨ip, s⟩] := by simpa [hf] using hcalls
  exact h

end SysvDev.X86.Trace
