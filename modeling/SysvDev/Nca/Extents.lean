import SysvDev.Nca.MetaData

namespace SysvDev.Nca.Extents

open Function MetaData

variable {io io' : Io} {f g : Field} {val : List (BitVec 8)}

/-- What was written so far: the bytes of the fields that a `NCA_IO_WDATA` was
done for, and the one that may be appended to. -/
structure History where
  bytes : Field → Option (List (BitVec 8))
  last : Option Field

def History.start : History := ⟨fun _ => none, none⟩

def History.next (h : History) : Op → History
  | .wdata f val => ⟨update h.bytes f (some val), some f⟩
  | .wdataNull f append => ⟨update h.bytes f (some []), if append then some f else none⟩
  | .adata f val => { h with bytes := update h.bytes f ((h.bytes f).map (· ++ val)) }

def History.after (h : History) (ops : List Op) : History := ops.foldl History.next h

/-- The calls that the macros are made for; `vsize` is an `int`. -/
def History.Permits (h : History) : Op → Prop
  | .wdata f val => h.bytes f = none ∧ val.length < 2 ^ 31
  | .wdataNull f _ => h.bytes f = none
  | .adata f val => h.last = some f ∧ val.length < 2 ^ 31

/-- The length of a field; it has none as long as -1 stands there. -/
def extent (io : Io) (f : Field) : Nat := if io.len f = -1#32 then 0 else (io.len f).toNat

def contents (io : Io) (f : Field) : List (BitVec 8) :=
  (List.range (extent io f)).map fun i => io.bytes (ncaIoPdata f io + i)

def Small (h : History) (io : Io) : Prop :=
  io.nUsed.toNat ≤ 2 ^ 31 ∧ ∀ f, h.bytes f ≠ none → ncaIoPdata f io + extent io f ≤ 2 ^ 31

def Proper (h : History) (io : Io) : List Op → Prop
  | [] => Small h io
  | op :: ops => Small h io ∧ h.Permits op ∧ Proper (h.next op) (op.step io) ops

instance (h : History) (op : Op) : Decidable (h.Permits op) :=
  match op with
  | .wdata _ _ => inferInstanceAs (Decidable (_ ∧ _))
  | .wdataNull f _ => inferInstanceAs (Decidable (h.bytes f = none))
  | .adata _ _ => inferInstanceAs (Decidable (_ ∧ _))

instance (h : History) (io : Io) : Decidable (Small h io) := inferInstanceAs (Decidable (_ ∧ _))

instance Proper.decidable (h : History) (io : Io) : (ops : List Op) → Decidable (Proper h io ops)
  | [] => inferInstanceAs (Decidable (Small h io))
  | op :: ops =>
      have := Proper.decidable (h.next op) (op.step io) ops
      inferInstanceAs (Decidable (_ ∧ _ ∧ _))

def Filled (h : History) (io : Io) (f : Field) : Prop := h.bytes f ≠ none ∧ 0 < extent io f

structure Laid (h : History) (io : Io) (stop : Nat) : Prop where
  kept : ∀ f l, h.bytes f = some l → contents io f = l
  aligned : ∀ f, Filled h io f → ncaIoPdata f io % 4 = 0
  behind : ∀ f, Filled h io f → structSize ≤ ncaIoPdata f io
  within : ∀ f, Filled h io f → ncaIoPdata f io + extent io f ≤ stop
  disjoint : ∀ f g, f ≠ g → Filled h io f → Filled h io g →
    ncaIoPdata f io + extent io f ≤ ncaIoPdata g io ∨ ncaIoPdata g io + extent io g ≤ ncaIoPdata f io

/-- The meta data are as written, behind the structure and within `n_used`. -/
def Intact (h : History) (io : Io) : Prop := Laid h io io.nUsed.toNat

section Steps

def up (n : Nat) : Nat := 4 * ((n + 3) / 4)

theorem toNat_wordAligned {n : BitVec 32} (h : n.toNat ≤ 2 ^ 31) : (wordAligned n).toNat = up n.toNat := by
  have hadd : n + 4#32 - 1#32 = n + 3#32 := by
    rw [BitVec.sub_eq_add_neg, BitVec.add_assoc]
    rfl
  rw [wordAligned, hadd, show 4#32 - 1#32 = 3#32 from rfl, Word.toNat_and_not_three, BitVec.toNat_add, BitVec.toNat_ofNat,
    Nat.mod_eq_of_lt (a := 3) (by decide), Nat.mod_eq_of_lt (by omega), up]

theorem toNat_vsize (h : val.length < 2 ^ 31) : (vsize val).toNat = val.length := by
  rw [vsize, BitVec.toNat_ofNat, Nat.mod_eq_of_lt (by omega)]

theorem extent_of_len {x : BitVec 32} (hlen : io.len f = x) (hx : x.toNat < 2 ^ 32 - 1) : extent io f = x.toNat := by
  have hne : x ≠ -1#32 := by
    rintro rfl
    exact absurd hx (by decide)
  rw [extent, hlen, if_neg hne]

theorem toNat_le_up (n : Nat) : n ≤ up n := by
  rw [up]
  omega

theorem up_mono {m n : Nat} (h : m ≤ n) : up m ≤ up n := by
  rw [up, up]
  omega

/-- A step appends to one field, which then begins at `s` and had `l` bytes
before, and leaves the others. -/
structure Extends (io io' : Io) (f : Field) (s l : Nat) (val : List (BitVec 8)) : Prop where
  start : ncaIoPdata f io' = s
  grown : extent io' f = l + val.length
  bytes : io'.bytes = bcopy val (s + l) io.bytes
  len : ∀ g, g ≠ f → io'.len g = io.len g
  off : ∀ g, g ≠ f → io'.off g = io.off g

theorem extends_wdata (hu : io.nUsed.toNat ≤ 2 ^ 31) (hval : val.length < 2 ^ 31) :
    Extends io (ncaIoWdata val f io) f (up io.nUsed.toNat) 0 val ∧
      (ncaIoWdata val f io).nUsed.toNat = up io.nUsed.toNat + val.length := by
  have hoff := toNat_wordAligned hu
  have hlen := toNat_vsize hval
  have hup : up io.nUsed.toNat ≤ 2 ^ 31 := up_mono hu
  refine ⟨⟨?_, ?_, ?_, ?_, ?_⟩, ?_⟩
  · rw [← hoff]
    exact congrArg BitVec.toNat (update_self f _ _)
  · rw [extent_of_len (x := vsize val) (update_self f _ _) (by omega), hlen, Nat.zero_add]
  · rw [ncaIoWdata, hoff, Nat.add_zero]
  · exact fun g hg => update_of_ne hg _ _
  · exact fun g hg => update_of_ne hg _ _
  · rw [ncaIoWdata, BitVec.toNat_add, hoff, hlen, Nat.mod_eq_of_lt (by omega)]

theorem bcopy_nil (dst : Nat) (bytes : Nat → BitVec 8) : bcopy [] dst bytes = bytes := by
  funext k
  rw [bcopy]
  split <;> rfl

theorem extends_wdataNull (io : Io) (f : Field) (append : Bool) : Extends io (ncaIoWdataNull append f io) f 0 0 [] := by
  refine ⟨?_, ?_, ?_, ?_, ?_⟩
  · exact congrArg BitVec.toNat (update_self f 0#32 io.off)
  · have hlen : (ncaIoWdataNull append f io).len f = if append then -1#32 else 0#32 := update_self f _ _
    rw [extent, hlen]
    cases append <;> rfl
  · rw [bcopy_nil]
    rfl
  · exact fun g hg => update_of_ne hg _ _
  · exact fun g hg => update_of_ne hg _ _

def startOf (io : Io) (f : Field) : Nat := if io.len f = -1#32 then up io.nUsed.toNat else ncaIoPdata f io

theorem opened_eq (hu : io.nUsed.toNat ≤ 2 ^ 31) : ncaIoPdata f (opened f io) = startOf io f ∧
    ((opened f io).len f).toNat = extent io f ∧ (opened f io).bytes = io.bytes ∧ (opened f io).nUsed = io.nUsed ∧
    ∀ g, g ≠ f → (opened f io).len g = io.len g ∧ (opened f io).off g = io.off g := by
  rw [opened, startOf, extent]
  split
  · refine ⟨?_, ?_, rfl, rfl, fun g hg => ⟨update_of_ne hg _ _, update_of_ne hg _ _⟩⟩
    · rw [← toNat_wordAligned hu]
      exact congrArg BitVec.toNat (update_self f _ _)
    · exact congrArg BitVec.toNat (update_self f 0#32 io.len)
  · exact ⟨rfl, rfl, rfl, rfl, fun g _ => ⟨rfl, rfl⟩⟩

theorem extends_adata (hu : io.nUsed.toNat ≤ 2 ^ 31) (hval : val.length < 2 ^ 31)
    (hle : startOf io f + extent io f ≤ 2 ^ 31) (hpos : structSize ≤ startOf io f) :
    Extends io (ncaIoAdata val f io) f (startOf io f) (extent io f) val ∧
      (ncaIoAdata val f io).nUsed.toNat = io.nUsed.toNat + val.length := by
  obtain ⟨hoff, hlen, hbytes, hused, hothers⟩ := opened_eq (f := f) hu
  have hv := toNat_vsize hval
  rw [structSize] at hpos
  have hsum : ((opened f io).len f + vsize val).toNat = extent io f + val.length := by
    rw [BitVec.toNat_add, hlen, hv, Nat.mod_eq_of_lt (by omega)]
  refine ⟨⟨hoff, ?_, ?_, ?_, ?_⟩, ?_⟩
  · rw [extent_of_len (x := (opened f io).len f + vsize val) (update_self f _ _) (by omega), hsum]
  · rw [← hoff, ← hlen, ← hbytes]
    rfl
  · exact fun g hg => (update_of_ne hg _ _).trans (hothers g hg).1
  · exact fun g hg => (hothers g hg).2
  · change ((opened f io).nUsed + vsize val).toNat = _
    rw [BitVec.toNat_add, hused, hv, Nat.mod_eq_of_lt (by omega)]

end Steps

section Layout

variable {h h' : History} {old : List (BitVec 8)} {s l stop stop' : Nat}

theorem bcopy_of_lt {dst k : Nat} {bytes : Nat → BitVec 8} (hk : k < dst) : bcopy val dst bytes k = bytes k :=
  if_neg hk.not_ge

theorem map_range_bcopy (dst : Nat) (bytes : Nat → BitVec 8) :
    (List.range val.length).map (fun i => bcopy val dst bytes (dst + i)) = val := by
  apply List.ext_getElem
  · rw [List.length_map, List.length_range]
  · intro i hi hval
    rw [List.getElem_map, List.getElem_range, bcopy, if_pos (Nat.le_add_right dst i), Nat.add_sub_cancel_left,
      List.getElem?_eq_getElem hval, Option.getD_some]

theorem Extends.other (he : Extends io io' f s l val) (hg : g ≠ f) :
    ncaIoPdata g io' = ncaIoPdata g io ∧ extent io' g = extent io g := by
  rw [ncaIoPdata, ncaIoPdata, he.off g hg, extent, extent, he.len g hg]
  exact ⟨rfl, rfl⟩

theorem Extends.contents_self (he : Extends io io' f s l val)
    (hold : (List.range l).map (fun i => io.bytes (s + i)) = old) : contents io' f = old ++ val := by
  rw [contents, he.start, he.grown, he.bytes, List.range_add, List.map_append, List.map_map]
  congr 1
  · rw [← hold]
    apply List.map_congr_left
    intro i hi
    exact bcopy_of_lt (Nat.add_lt_add_left (List.mem_range.mp hi) s)
  · refine Eq.trans (List.map_congr_left fun i _ => ?_) (map_range_bcopy (s + l) io.bytes)
    rw [Nat.add_assoc]
    rfl

theorem Extends.contents_other (he : Extends io io' f s l val) (hg : g ≠ f)
    (hstop : 0 < extent io g → 0 < val.length → ncaIoPdata g io + extent io g ≤ s) : contents io' g = contents io g := by
  obtain ⟨hstart, hextent⟩ := he.other hg
  rw [contents, contents, hstart, hextent, he.bytes]
  apply List.map_congr_left
  intro i hi
  have hi := List.mem_range.mp hi
  rcases Nat.eq_zero_or_pos val.length with hnil | hpos
  · rw [List.length_eq_zero_iff.mp hnil, bcopy_nil]
  · have := hstop (by omega) hpos
    exact bcopy_of_lt (by omega)

theorem Laid.extend (hlaid : Laid h io stop) (he : Extends io io' f s l val)
    (hold : (List.range l).map (fun i => io.bytes (s + i)) = old)
    (hnext : h'.bytes = update h.bytes f (some (old ++ val)))
    (hs : 0 < l + val.length → s % 4 = 0 ∧ structSize ≤ s ∧ s + (l + val.length) ≤ stop' ∧
      ∀ g, g ≠ f → Filled h io g → ncaIoPdata g io + extent io g ≤ s) (hstop : stop ≤ stop') :
    Laid h' io' stop' := by
  have hself (hf : Filled h' io' f) : 0 < l + val.length := he.grown ▸ hf.2
  have hother {g : Field} (hg : g ≠ f) (hfilled : Filled h' io' g) : Filled h io g := by
    obtain ⟨hdone, hpos⟩ := hfilled
    rw [hnext, update_of_ne hg] at hdone
    rw [(he.other hg).2] at hpos
    exact ⟨hdone, hpos⟩
  refine ⟨?_, ?_, ?_, ?_, ?_⟩
  · intro g bytes hbytes
    rw [hnext] at hbytes
    by_cases hg : g = f
    · subst hg
      rw [update_self, Option.some.injEq] at hbytes
      rw [← hbytes, he.contents_self hold]
    · rw [update_of_ne hg] at hbytes
      rw [← hlaid.kept g bytes hbytes]
      apply he.contents_other hg
      intro hpos hval
      exact (hs (by omega)).2.2.2 g hg ⟨by rw [hbytes]; exact Option.some_ne_none _, hpos⟩
  · intro g hfilled
    by_cases hg : g = f
    · subst hg
      rw [he.start]
      exact (hs (hself hfilled)).1
    · rw [(he.other hg).1]
      exact hlaid.aligned g (hother hg hfilled)
  · intro g hfilled
    by_cases hg : g = f
    · subst hg
      rw [he.start]
      exact (hs (hself hfilled)).2.1
    · rw [(he.other hg).1]
      exact hlaid.behind g (hother hg hfilled)
  · intro g hfilled
    by_cases hg : g = f
    · subst hg
      rw [he.start, he.grown]
      exact (hs (hself hfilled)).2.2.1
    · rw [(he.other hg).1, (he.other hg).2]
      exact (hlaid.within g (hother hg hfilled)).trans hstop
  · have hbefore {g : Field} (hg : g ≠ f) (hf : Filled h' io' f) (hfilled : Filled h' io' g) :
        ncaIoPdata g io' + extent io' g ≤ ncaIoPdata f io' := by
      rw [(he.other hg).1, (he.other hg).2, he.start]
      exact (hs (hself hf)).2.2.2 g hg (hother hg hfilled)
    intro g g' hne hg hg'
    by_cases hgf : g = f
    · subst hgf
      exact .inr (hbefore (Ne.symm hne) hg hg')
    · by_cases hgf' : g' = f
      · subst hgf'
        exact .inl (hbefore hgf hg' hg)
      · rw [(he.other hgf).1, (he.other hgf).2, (he.other hgf').1, (he.other hgf').2]
        exact hlaid.disjoint g g' hne (hother hgf hg) (hother hgf' hg')

end Layout

end SysvDev.Nca.Extents
