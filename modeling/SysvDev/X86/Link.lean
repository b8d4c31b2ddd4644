import SysvDev.X86.Words

namespace SysvDev.X86.Link

open Memory Machine Run Cells Words Inevitable

variable {w : Nat} {L M : Type} [DecidableEq L] [DecidableEq M] {f : L → M} {text : List (Line L)} {rest : List (Line M)}

def mapLabel (f : L → M) : Line L → Line M
  | .label l => .label (f l)
  | .align n => .align n
  | .op o => .op o
  | .rep o => .rep o
  | .leaLabel l dst => .leaLabel (f l) dst
  | .jmp l => .jmp (f l)
  | .jmpInd a => .jmpInd a
  | .jcc c l => .jcc c (f l)
  | .call l => .call (f l)
  | .callInd a => .callInd a
  | .callReg r => .callReg r
  | .ret k => .ret k

def link (f : L → M) (text : List (Line L)) (rest : List (Line M)) : List (Line M) := text.map (mapLabel f) ++ rest

def Closed (text : List (Line L)) : Prop := ∀ l, labelAddr text l < text.length

theorem isLabel_mapLabel (hf : Function.Injective f) (l : L) (line : Line L) :
    isLabel (f l) (mapLabel f line) = isLabel l line := by
  cases line with
  | label l' => simp [mapLabel, isLabel, hf.eq_iff]
  | _ => rfl

theorem labelAddr_link (hf : Function.Injective f) (hclosed : Closed text) (l : L) :
    labelAddr (link f text rest) (f l) = labelAddr text l := by
  have hsame : (isLabel (f l) ∘ mapLabel f) = isLabel (L := L) l := funext fun line => isLabel_mapLabel hf l line
  have hlt := hclosed l
  rw [labelAddr] at hlt
  rw [labelAddr, labelAddr, link, List.findIdx_append, List.findIdx_map, hsame, List.length_map, if_pos hlt]

theorem execLine_link (hf : Function.Injective f) (hclosed : Closed text) (ip : Nat) (s : State w) (line : Line L) :
    execLine (link f text rest) ip s (mapLabel f line) = execLine text ip s line := by
  cases line <;> simp only [mapLabel, execLine, labelAddr_link hf hclosed]

theorem next_link (hf : Function.Injective f) (hclosed : Closed text) {c : Cfg w} (hip : c.ip < text.length) :
    next (link f text rest) c = next text c := by
  have hline : (link f text rest)[c.ip]? = (text[c.ip]?).map (mapLabel f) := by
    rw [link, List.getElem?_append_left (by rwa [List.length_map]), List.getElem?_map]
  rw [next, next, hline]
  cases text[c.ip]? with
  | none => rfl
  | some line => simp only [Option.map_some, Option.bind_some, execLine_link hf hclosed]

theorem comes_link {ext : Nat → Option (State w → State w)} {P : Cfg w → Prop} {c : Cfg w}
    (hf : Function.Injective f) (hclosed : Closed text) (h : Comes text ext P c) :
    Comes (link f text rest) ext P c := by
  induction h with
  | here h => exact .here h
  | @next c _ hex _ ih =>
      obtain ⟨d, hd⟩ := hex
      have hsame : nextWith (link f text rest) ext c = nextWith text ext c := by
        rw [StepsWith, nextWith] at hd
        rw [nextWith, nextWith]
        cases hc : ext c.ip with
        | some g => rfl
        | none =>
            rw [hc] at hd
            have hip : c.ip < text.length := by
              by_contra hge
              rw [next, List.getElem?_eq_none (not_lt.mp hge)] at hd
              cases hd
            exact next_link hf hclosed hip
      refine .next trivial ⟨d, by rw [StepsWith, hsame]; exact hd⟩ fun e he => ih e ?_
      rw [StepsWith, hsame] at he
      exact he

end SysvDev.X86.Link
