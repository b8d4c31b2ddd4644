import SysvDev.Regexp.Counts
import SysvDev.Regexp.Dispatch

namespace SysvDev.Regexp.Classes

open StateTransition Opcode Compile Program Regexp.Bracket Counts Dispatch
open Advance (Subject Frame Globals)

/-- What a compiled class does in any program and at any place of a subject:
each of its forms is the loop of the source with membership in the set as its
test. -/
def Tests (i : Item) (r : Rep) (accepts : Byte → Bool) : Prop :=
  ∀ (prog : List Byte) (subject : Subject) (lp : Int) (ep : Nat) (frames : List Frame) (g : Globals),
    (Instr.item i r).encode <+: prog.drop ep →
      Advance.next prog subject ⟨.dispatch lp ep, frames, g⟩ =
        some ⟨attempt subject accepts r lp (ep + (Instr.item i r).encode.length), frames, g⟩

/-- A bracket expression, alone or repeated, stands for the characters that it
lists or, with `^`, for the others except NUL. Where it stands in a pattern and
which of the two maps it needs makes no difference. -/
theorem class_denotes (b : BracketList) (f : Form) (inp : Input) (s : State) (hunsigned : inp.signedChar = false)
    (hahead : Ahead inp s (b.text ++ f.text)) (hopen : inp.eof ≠ ch '[')
    (heof : ∀ c ∈ f.text.head?, inp.char c ≠ inp.eof)
    (hroom : s.ep + (if b.isWide then 33 else 17) + f.room < inp.endbuf) (hf : f.accepted) :
    ∃ i t, Reaches (next inp) ⟨.loop, s⟩ ⟨.loop, t⟩ ∧ Appends s t (b.text ++ f.text).length (.item i f.rep) ∧
      (∀ x, i.accepts x = b.denotes x) ∧ Tests i f.rep b.denotes := by
  have hchars (c : Byte) (_ : c ∈ b.first :: b.rest) : inp.char c = c.toNat := by
    simp [Input.char, hunsigned]
  obtain ⟨i, t, hr, happ, hep, hacc⟩ := reaches_bracket b hahead.left hopen hchars (by omega)
  have hsp : t.sp = (skip b.text.length s).sp := by
    rw [happ.rest]
    rfl
  rw [← hep] at hroom
  obtain ⟨t', hr', happ'⟩ := appends_form happ f hf (hahead.skip.of_sp hsp) heof hroom
  refine ⟨i, t', hr.trans hr', List.length_append ▸ happ', hacc, ?_⟩
  intro prog subject lp ep frames g hcode
  rw [← funext hacc]
  exact next_item hcode lp frames g

def notLower : BracketList := ⟨true, 97#8, [45#8, 122#8], by decide, by decide, by decide⟩

def starredClass : Input := ⟨notLower.text ++ [42#8, 0#8], false, 0, 100, false⟩

theorem class_denotes_notLower : (notLower.denotes 65#8 = true ∧ notLower.denotes 109#8 = false) ∧
    ∃ i t, Reaches (next starredClass) ⟨.loop, (compile fun _ => 0#8).state⟩ ⟨.loop, t⟩ ∧
      Appends (compile fun _ => 0#8).state t 7 (.item i .star) ∧ Tests i .star notLower.denotes := by
  refine ⟨by decide, ?_⟩
  have hahead : Ahead starredClass (compile fun _ => 0#8).state (notLower.text ++ Form.star.text) := ⟨[0#8], rfl⟩
  have heof : ∀ c ∈ Form.star.text.head?, starredClass.char c ≠ starredClass.eof := by decide
  obtain ⟨i, t, hr, happ, _, htests⟩ := class_denotes notLower .star starredClass (compile fun _ => 0#8).state rfl
    hahead (by decide) heof (by decide) trivial
  exact ⟨i, t, hr, happ, htests⟩

end SysvDev.Regexp.Classes
