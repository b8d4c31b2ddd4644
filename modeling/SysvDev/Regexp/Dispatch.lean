import SysvDev.Regexp.Program

namespace SysvDev.Regexp.Dispatch

open Opcode Advance Program

variable {prog : List Byte} {s : Subject} {ep : Nat}

theorem prefix_getElem? {bs : List Byte} (h : bs <+: prog.drop ep) {k : Nat} (hk : k < bs.length) :
    prog[ep + k]? = bs[k]? := by
  obtain ⟨more, hm⟩ := h
  rw [← List.getElem?_drop, ← hm, List.getElem?_append_left hk]

theorem isThere_eq {map : List Byte} (h : map <+: prog.drop ep) {c : Byte}
    (hc : c.toNat / 8 < map.length) : isThere prog ep c = some (inMap map c) := by
  rw [isThere, prefix_getElem? h hc, inMap, List.getElem?_eq_getElem hc]
  simp [List.getD_eq_getElem?_getD, List.getElem?_eq_getElem hc]

theorem cclAccepts_eq {map : List Byte} (h : map <+: prog.drop ep) (hl : map.length = 16)
    (neg : Bool) (c : Byte) :
    cclAccepts prog ep neg c = some ((!c.msb && inMap map c) ^^ neg) := by
  unfold cclAccepts
  by_cases hc : c.msb = true
  · simp [hc]
  · have hlt : c.toNat < 128 := by
      rw [BitVec.msb_eq_decide] at hc
      simpa using hc
    rw [isThere_eq h (by omega)]
    simp [hc]

theorem getrnge_eq {lo hi : Byte} (h : [lo, hi] <+: prog.drop ep) :
    getrnge prog ep = some (lo.toNat, rngeSize lo hi) := by
  have h0 := prefix_getElem? h (k := 0) (by simp)
  have h1 := prefix_getElem? h (k := 1) (by simp)
  simp only [Nat.add_zero] at h0
  simp [getrnge, h0, h1]

/-- What the matcher does with an item, by the way it is repeated. -/
def attempt (s : Subject) (acc : Byte → Bool) (r : Rep) (lp : Int) (ep : Nat) : Control :=
  match r with
  | .one => single s (fun c => some (acc c)) lp ep
  | .star => starred s (fun c => some (acc c)) lp ep
  | .range lo hi => ranged s (fun c => some (acc c)) (some (lo.toNat, rngeSize lo hi)) lp ep

theorem prefix_drop {xs ys : List Byte} (h : xs ++ ys <+: prog.drop ep) :
    ys <+: prog.drop (ep + xs.length) := by
  obtain ⟨more, hm⟩ := h
  refine ⟨more, ?_⟩
  rw [← List.drop_drop, ← hm, List.append_assoc, List.drop_left]

theorem cclRejects_not {map : List Byte} (h : map <+: prog.drop ep) (hl : map.length = 16)
    (neg : Bool) : (fun c => (cclRejects prog ep neg c).map (!·)) =
      fun c => some ((!c.msb && inMap map c) ^^ neg) := by
  funext c
  rw [cclRejects_eq, cclAccepts_eq h hl]
  simp

/-- All the cases of the switch that take characters do the same thing with
the test of their own item. -/
theorem switch_item (a : Item) (r : Rep) (h : a.operands ++ r.operands <+: prog.drop ep)
    (lp : Int) (g : Globals) :
    switch prog s (a.opcode ||| r.mask) lp ep g =
      (attempt s a.accepts r lp (ep + (a.operands ++ r.operands).length), g) := by
  have ha : a.operands <+: prog.drop ep := (List.prefix_append _ _).trans h
  have hr := prefix_drop h
  cases a with
  | chr c =>
      have hc : prog[ep]? = some c := prefix_getElem? ha (k := 0) Nat.zero_lt_one
      have hacc : isChr c = fun x => some ((Item.chr c).accepts x) := rfl
      cases r with
      | one | star => simp [switch, hc, hacc, attempt]
      | range lo hi =>
          have hrnge : getrnge prog (ep + 1) = _ := getrnge_eq hr
          simp [switch, hc, hacc, hrnge, attempt]
  | dot =>
      have hacc : isDot = fun x => some (Item.dot.accepts x) := rfl
      cases r with
      | one | star => simp [switch, hacc, attempt]
      | range lo hi =>
          have hrnge : getrnge prog ep = _ := getrnge_eq hr
          simp [switch, hacc, hrnge, attempt]
  | list neg map =>
      have hacc : cclAccepts prog ep neg = fun c => some ((Item.list neg map).accepts c) :=
        funext (cclAccepts_eq ha (by simp) neg)
      have hrej := cclRejects_not ha (by simp) neg
      cases r with
      | one | star => cases neg <;> simp [switch, hacc, attempt]
      | range lo hi =>
          have hrnge : getrnge prog (ep + 16) = _ := getrnge_eq (by simpa using hr)
          cases neg <;> simp [switch, hrej, hrnge, attempt, Item.accepts]
  | wide map =>
      have hacc : isThere prog ep = fun c => some ((Item.wide map).accepts c) := by
        funext c
        exact isThere_eq ha (by simp; omega)
      cases r with
      | one | star => simp [switch, hacc, attempt]
      | range lo hi =>
          have hrnge : getrnge prog (ep + 32) = _ := getrnge_eq (by simpa using hr)
          simp [switch, hacc, hrnge, attempt]

theorem next_item {a : Item} {r : Rep} (h : (Instr.item a r).encode <+: prog.drop ep)
    (lp : Int) (frames : List Frame) (g : Globals) :
    next prog s ⟨.dispatch lp ep, frames, g⟩ =
      some ⟨attempt s a.accepts r lp (ep + (Instr.item a r).encode.length), frames, g⟩ := by
  have hop : prog[ep]? = some (a.opcode ||| r.mask) := prefix_getElem? h (k := 0) (by simp)
  have hcons : [a.opcode ||| r.mask] ++ (a.operands ++ r.operands) <+: prog.drop ep := h
  have hops := prefix_drop hcons
  rw [List.length_singleton] at hops
  simp only [next, hop, switch_item a r hops, Instr.encode, List.length_cons, Nat.add_assoc,
    Nat.add_comm 1]

theorem next_dol (h : Instr.dol.encode <+: prog.drop ep) (lp : Int) (frames : List Frame) (g : Globals) :
    next prog s ⟨.dispatch lp ep, frames, g⟩ =
      some ⟨match s.rest lp with
        | [] => .fault
        | c :: _ => if c = 0#8 then .dispatch lp (ep + 1) else .ret false, frames, g⟩ := by
  have hop : prog[ep]? = some cdol := prefix_getElem? h (k := 0) (by simp)
  cases hr : s.rest lp <;> simp [next, hop, switch, hr]

theorem next_eof (h : [cceof] <+: prog.drop ep) (lp : Int) (frames : List Frame) (g : Globals) :
    next prog s ⟨.dispatch lp ep, frames, g⟩ = some ⟨.ret true, frames, { g with loc2 := lp }⟩ := by
  have hop : prog[ep]? = some cceof := prefix_getElem? h (k := 0) (by simp)
  simp [next, hop, switch]

section

variable {n : Fin maxBra} (lp : Int) (frames : List Frame) (g : Globals)

theorem next_bra (h : (Instr.bra n).encode <+: prog.drop ep) :
    next prog s ⟨.dispatch lp ep, frames, g⟩ =
      some ⟨.dispatch lp (ep + 2), frames, { g with groups := g.groups.setBeg n lp }⟩ := by
  have hop : prog[ep]? = some cbra := prefix_getElem? h (k := 0) (by simp)
  have harg : prog[ep + 1]? = some (groupByte n) := prefix_getElem? h (k := 1) (by simp)
  simp [next, hop, switch, harg, groupIndex_groupByte]

theorem next_ket (h : (Instr.ket n).encode <+: prog.drop ep) :
    next prog s ⟨.dispatch lp ep, frames, g⟩ =
      some ⟨.dispatch lp (ep + 2), frames, { g with groups := g.groups.setEnd n lp }⟩ := by
  have hop : prog[ep]? = some cket := prefix_getElem? h (k := 0) (by simp)
  have harg : prog[ep + 1]? = some (groupByte n) := prefix_getElem? h (k := 1) (by simp)
  simp [next, hop, switch, harg, groupIndex_groupByte]

theorem next_back (h : (Instr.back n).encode <+: prog.drop ep) :
    next prog s ⟨.dispatch lp ep, frames, g⟩ =
      some ⟨match ecmp (toSize (g.groups.braelist n - g.groups.braslist n))
            (s.rest (g.groups.braslist n)) (s.rest lp) with
        | none => .fault
        | some true => .dispatch (lp + (g.groups.braelist n - g.groups.braslist n)) (ep + 2)
        | some false => .ret false, frames, g⟩ := by
  have hop : prog[ep]? = some cback := prefix_getElem? h (k := 0) (by simp)
  have harg : prog[ep + 1]? = some (groupByte n) := prefix_getElem? h (k := 1) (by simp)
  rcases he : ecmp (toSize (g.groups.braelist n - g.groups.braslist n))
      (s.rest (g.groups.braslist n)) (s.rest lp) with _ | _ | _ <;>
    simp [next, hop, switch, harg, groupIndex_groupByte, he]

end

end SysvDev.Regexp.Dispatch
