import SysvDev.Regexp.Program

namespace SysvDev.Regexp.Split

open Opcode Advance Program

def extra (lo hi : Byte) : Nat := (rngeSize lo hi).toNat

def between (s : Subject) (i j : Int) : List Byte :=
  (s.chars.drop i.toNat).take (j.toNat - i.toNat)

def allows (accepts : Byte → Bool) (text : List Byte) : Rep → Prop
  | .one => ∃ c, text = [c] ∧ accepts c = true
  | .star => ∀ c ∈ text, accepts c = true
  | .range lo hi =>
      (∀ c ∈ text, accepts c = true) ∧ lo.toNat ≤ text.length ∧ text.length ≤ lo.toNat + extra lo hi

/-- `Piece s i g p q g'`: the instruction `i` takes the text from `p` to `q`
when the groups recorded so far are `g`, and then they are `g'`. -/
def Piece (s : Subject) (i : Instr) (g : Groups) (p q : Nat) (g' : Groups) : Prop :=
  match i with
  | .item a r => g' = g ∧ allows a.accepts (between s p q) r
  | .dol => g' = g ∧ q = p ∧ p = s.chars.length
  | .bra n => g' = g.setBeg n p ∧ q = p
  | .ket n => g' = g.setEnd n p ∧ q = p
  | .back n => g' = g ∧ between s p q = between s (g.braslist n) (g.braelist n)
  | .backStar n => g' = g ∧ ∃ k, between s p q =
      (List.replicate k (between s (g.braslist n) (g.braelist n))).flatten

/-- The text from `p` to `q` splits into consecutive pieces, one for each
instruction, and the groups recorded on the way lead from `g` to `g'`. -/
inductive Splits (s : Subject) : List Instr → Groups → Nat → Groups → Nat → Prop
  | nil (g p) : Splits s [] g p g p
  | cons {i is g p g' q g'' r} (hpq : p ≤ q) (hq : q ≤ s.chars.length)
      (hi : Piece s i g p q g') (his : Splits s is g' q g'' r) : Splits s (i :: is) g p g'' r

/-- The group instructions are properly nested, no number is opened twice,
and a back-reference comes after the end of its group. -/
def Grouped : List (Fin maxBra) → List (Fin maxBra) → List Instr → Prop
  | opened, _, [] => opened = []
  | opened, closed, .bra n :: is => n ∉ opened ∧ n ∉ closed ∧ Grouped (n :: opened) closed is
  | opened, closed, .ket n :: is => ∃ os, opened = n :: os ∧ Grouped os (n :: closed) is
  | opened, closed, .back n :: is => n ∈ closed ∧ Grouped opened closed is
  | opened, closed, .backStar n :: is => n ∈ closed ∧ Grouped opened closed is
  | opened, closed, _ :: is => Grouped opened closed is

/-- One instruction of a well-formed program: no item that takes the NUL, no
interval with its bounds the wrong way round, no starred back-reference. -/
def Sound : Instr → Prop
  | .item a r => a.accepts 0#8 = false ∧ (∀ lo hi, r = .range lo hi → lo.toNat ≤ hi.toNat)
  | .backStar _ => False
  | _ => True

structure WellFormed (is : List Instr) : Prop where
  sound : ∀ i ∈ is, Sound i
  grouped : Grouped [] [] is

/-- The two group records agree wherever the instructions do not write. -/
def Agree (is : List Instr) (g h : Groups) : Prop :=
  (∀ n, .bra n ∉ is → g.braslist n = h.braslist n) ∧ (∀ n, .ket n ∉ is → g.braelist n = h.braelist n)

theorem Agree.refl (is : List Instr) (g : Groups) : Agree is g g :=
  ⟨fun _ _ => rfl, fun _ _ => rfl⟩

theorem Agree.symm {is : List Instr} {g h : Groups} (a : Agree is g h) : Agree is h g :=
  ⟨fun n hn => (a.1 n hn).symm, fun n hn => (a.2 n hn).symm⟩

theorem Agree.trans {is : List Instr} {g h k : Groups} (a : Agree is g h) (b : Agree is h k) :
    Agree is g k :=
  ⟨fun n hn => (a.1 n hn).trans (b.1 n hn), fun n hn => (a.2 n hn).trans (b.2 n hn)⟩

theorem Agree.cons {i : Instr} {is : List Instr} {g h : Groups} (a : Agree is g h) :
    Agree (i :: is) g h :=
  ⟨fun n hn => a.1 n (fun hm => hn (List.mem_cons_of_mem i hm)),
    fun n hn => a.2 n (fun hm => hn (List.mem_cons_of_mem i hm))⟩

/-- A group is opened only once. -/
theorem Grouped.not_bra {opened closed : List (Fin maxBra)} {is : List Instr}
    (h : Grouped opened closed is) {n : Fin maxBra} (hn : n ∈ opened ∨ n ∈ closed) : .bra n ∉ is := by
  induction is generalizing opened closed with
  | nil => simp
  | cons i is ih =>
      cases i with
      | bra m =>
          obtain ⟨ho, hc, hg⟩ := h
          have hne : n ≠ m := by
            rintro rfl
            exact hn.elim ho hc
          have := ih hg (hn.imp_left (List.mem_cons_of_mem m))
          simp [this, hne]
      | ket m =>
          obtain ⟨os, rfl, hg⟩ := h
          have hm : n ∈ os ∨ n ∈ m :: closed := by
            rw [List.mem_cons] at hn ⊢
            tauto
          simpa using ih hg hm
      | back m | backStar m => simpa using ih h.2 hn
      | item a r | dol => simpa using ih h hn

theorem Grouped.not_ket {opened closed : List (Fin maxBra)} {is : List Instr}
    (h : Grouped opened closed is) (hd : (opened ++ closed).Nodup) {n : Fin maxBra} (hn : n ∈ closed) :
    .ket n ∉ is := by
  induction is generalizing opened closed with
  | nil => simp
  | cons i is ih =>
      cases i with
      | bra m =>
          obtain ⟨ho, hc, hg⟩ := h
          simpa using ih hg (by simpa [ho, hc] using hd) hn
      | ket m =>
          obtain ⟨os, rfl, hg⟩ := h
          have hd' : (os ++ m :: closed).Nodup := by
            simpa using List.nodup_middle.mpr hd
          have hne : m ≠ n := by
            rintro rfl
            simp [hn] at hd
          have := ih hg hd' (List.mem_cons_of_mem m hn)
          simp [this, Ne.symm hne]
      | back m | backStar m => simpa using ih h.2 hd hn
      | item a r | dol => simpa using ih h hd hn

theorem Agree.setBeg {is : List Instr} {g h : Groups} {n : Fin maxBra}
    (a : Agree (.bra n :: is) g h) (p : Int) : Agree is (g.setBeg n p) (h.setBeg n p) := by
  refine ⟨fun m hm => ?_, fun m hm => a.2 m (by simpa using hm)⟩
  by_cases he : m = n
  · subst m; simp [Groups.setBeg]
  · simpa [Groups.setBeg, he] using a.1 m (by simp [he, hm])

theorem Agree.setEnd {is : List Instr} {g h : Groups} {n : Fin maxBra}
    (a : Agree (.ket n :: is) g h) (p : Int) : Agree is (g.setEnd n p) (h.setEnd n p) := by
  refine ⟨fun m hm => a.1 m (by simpa using hm), fun m hm => ?_⟩
  by_cases he : m = n
  · subst m; simp [Groups.setEnd]
  · simpa [Groups.setEnd, he] using a.2 m (by simp [he, hm])

theorem Agree.bra {is : List Instr} {n : Fin maxBra} {g h : Groups} {p : Int}
    (a : Agree is (g.setBeg n p) h) : Agree (.bra n :: is) g h := by
  refine ⟨fun m hm => ?_, fun m hm => a.2 m (by simpa using hm)⟩
  obtain ⟨he, hm⟩ : m ≠ n ∧ Instr.bra m ∉ is := by simpa using hm
  simpa [Groups.setBeg, he] using a.1 m hm

theorem Agree.ket {is : List Instr} {n : Fin maxBra} {g h : Groups} {p : Int}
    (a : Agree is (g.setEnd n p) h) : Agree (.ket n :: is) g h := by
  refine ⟨fun m hm => a.1 m (by simpa using hm), fun m hm => ?_⟩
  obtain ⟨he, hm⟩ : m ≠ n ∧ Instr.ket m ∉ is := by simpa using hm
  simpa [Groups.setEnd, he] using a.2 m hm

/-- What an abandoned attempt left in the group arrays does not matter: the
instructions still to come write it again before they read it. -/
theorem Splits.congr {s : Subject} {is : List Instr} {g h e : Groups} {p q : Nat}
    {opened closed : List (Fin maxBra)} (hw : Grouped opened closed is)
    (hd : (opened ++ closed).Nodup) (a : Agree is g h) (hs : Splits s is g p e q) :
    Splits s is h p e q := by
  induction hs generalizing h opened closed with
  | nil g p =>
      have he : g = h := Groups.ext (funext fun n => a.1 n (by simp)) (funext fun n => a.2 n (by simp))
      exact he ▸ .nil g p
  | @cons i is g p g' q e r hpq hq hi his ih =>
      cases i with
      | item b rep | dol =>
          obtain ⟨rfl, hi⟩ := hi
          exact .cons hpq hq ⟨rfl, hi⟩
            (ih hw hd ⟨fun n hn => a.1 n (by simpa using hn), fun n hn => a.2 n (by simpa using hn)⟩)
      | bra n =>
          obtain ⟨rfl, hi⟩ := hi
          obtain ⟨ho, hc, hw⟩ := hw
          exact .cons hpq hq ⟨rfl, hi⟩ (ih hw (by simpa [ho, hc] using hd) (a.setBeg p))
      | ket n =>
          obtain ⟨rfl, hi⟩ := hi
          obtain ⟨os, rfl, hw⟩ := hw
          exact .cons hpq hq ⟨rfl, hi⟩ (ih hw (by simpa using List.nodup_middle.mpr hd) (a.setEnd p))
      | back n | backStar n =>
          obtain ⟨rfl, hi⟩ := hi
          have hb := hw.2.not_bra (.inr hw.1)
          have hk := hw.2.not_ket hd hw.1
          rw [a.1 n (by simpa using hb), a.2 n (by simpa using hk)] at hi
          exact .cons hpq hq ⟨rfl, hi⟩
            (ih hw.2 hd ⟨fun n hn => a.1 n (by simpa using hn), fun n hn => a.2 n (by simpa using hn)⟩)

end SysvDev.Regexp.Split
