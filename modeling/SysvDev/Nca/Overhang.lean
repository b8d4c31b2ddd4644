import SysvDev.Nca.Extents

namespace SysvDev.Nca.Overhang

open Function MetaData Extents

/-- How far the fields reach, by their sizes alone: `beyond` is what the last one
has behind `n_used`, and `gap` what a field that is begun by `NCA_IO_ADATA` would
have there, since its alignment is not added to `n_used`. -/
structure Room where
  used : Nat
  beyond : Nat
  gap : Nat

def pad (n : Nat) : Nat := up n - n

def Room.next (r : Room) : Op → Room
  | .wdata _ val => ⟨up r.used + val.length, r.beyond - pad r.used, 0⟩
  | .wdataNull _ _ => { r with gap := pad r.used }
  | .adata _ val => ⟨r.used + val.length, if val.isEmpty then r.beyond else r.gap, r.gap⟩

/-- The bytes of a call are written behind the last field. -/
def Room.fits (r : Room) : Op → Bool
  | .wdata _ val => val.isEmpty || r.beyond ≤ pad r.used
  | .wdataNull _ _ => true
  | .adata _ val => val.isEmpty || r.beyond ≤ r.gap

/-- All calls fit, and no field reaches beyond `n_used` in the end. -/
def tight (r : Room) : List Op → Bool
  | [] => r.beyond == 0
  | op :: ops => r.fits op && tight (r.next op) ops

variable {io io' : Io} {f g : Field} {val : List (BitVec 8)} {h : History} {r : Room} {op : Op}

theorem add_pad (n : Nat) : n + pad n = up n := Nat.add_sub_cancel' (toNat_le_up n)

theorem up_mod (n : Nat) : up n % 4 = 0 := by rw [up, Nat.mul_mod_right]

theorem up_up (n : Nat) : up (up n) = up n := by
  rw [up, up]
  omega

structure Behind (h : History) (io : Io) : Prop where
  used : structSize ≤ io.nUsed.toNat
  done : ∀ f, h.last = some f → h.bytes f ≠ none
  start : ∀ f, h.last = some f → structSize ≤ startOf io f

theorem Behind.startOf_le (hb : Behind h io) (hsmall : Small h io) (hlast : h.last = some f) :
    startOf io f + extent io f ≤ 2 ^ 31 := by
  have hf := hsmall.2 f (hb.done f hlast)
  have hup : up io.nUsed.toNat ≤ 2 ^ 31 := up_mono hsmall.1
  rw [startOf]
  split
  next hlen => rw [extent, if_pos hlen]; exact hup
  next => exact hf

theorem Behind.adata (hb : Behind h io) (hsmall : Small h io) (hlast : h.last = some f) (hval : val.length < 2 ^ 31) :
    Extends io (ncaIoAdata val f io) f (startOf io f) (extent io f) val ∧
      (ncaIoAdata val f io).nUsed.toNat = io.nUsed.toNat + val.length :=
  extends_adata hsmall.1 hval (hb.startOf_le hsmall hlast) (hb.start f hlast)

theorem le_startOf (hused : structSize ≤ io.nUsed.toNat) (hstart : io.len f ≠ -1#32 → structSize ≤ ncaIoPdata f io) :
    structSize ≤ startOf io f := by
  rw [startOf]
  split
  next => exact hused.trans (toNat_le_up _)
  next hlen => exact hstart hlen

theorem Behind.step (hb : Behind h io) (hsmall : Small h io) (hp : h.Permits op) : Behind (h.next op) (op.step io) := by
  cases op with
  | wdata f val =>
      obtain ⟨he, hu⟩ := extends_wdata (f := f) hsmall.1 hp.2
      have hup := toNat_le_up io.nUsed.toNat
      have hused : structSize ≤ (ncaIoWdata val f io).nUsed.toNat := by
        rw [hu]
        exact (hb.used.trans hup).trans (Nat.le_add_right _ _)
      refine ⟨hused, ?_, ?_⟩
      · rintro _ ⟨⟩
        simp [History.next]
      · rintro _ ⟨⟩
        refine le_startOf hused fun _ => ?_
        change structSize ≤ ncaIoPdata f (ncaIoWdata val f io)
        rw [he.start]
        exact hb.used.trans hup
  | wdataNull f append =>
      cases append with
      | false => exact ⟨hb.used, (fun _ h => by cases h), (fun _ h => by cases h)⟩
      | true =>
          refine ⟨hb.used, ?_, ?_⟩
          · rintro _ ⟨⟩
            simp [History.next]
          · rintro _ ⟨⟩
            refine le_startOf hb.used fun hne => absurd ?_ hne
            exact update_self f (-1#32) io.len
  | adata f val =>
      obtain ⟨hlast, hval⟩ := hp
      obtain ⟨he, hu⟩ := hb.adata hsmall hlast hval
      have hused : structSize ≤ (ncaIoAdata val f io).nUsed.toNat := by
        rw [hu]
        exact hb.used.trans (Nat.le_add_right _ _)
      refine ⟨hused, ?_, ?_⟩
      · intro g hg
        obtain rfl : f = g := Option.some.inj (hlast.symm.trans hg)
        change update h.bytes f _ f ≠ none
        rw [update_self]
        exact fun hnone => hb.done f hlast (Option.map_eq_none_iff.mp hnone)
      · intro g hg
        obtain rfl : f = g := Option.some.inj (hlast.symm.trans hg)
        refine le_startOf hused fun _ => ?_
        change structSize ≤ ncaIoPdata f (ncaIoAdata val f io)
        rw [he.start]
        exact hb.start f hlast

section Clash

def Overlap (h : History) (io : Io) : Prop :=
  ∃ f g k, f ≠ g ∧ (h.bytes f ≠ none ∧ ncaIoPdata f io ≤ k ∧ k < ncaIoPdata f io + extent io f) ∧
    (h.bytes g ≠ none ∧ ncaIoPdata g io ≤ k ∧ k < ncaIoPdata g io + extent io g)

theorem startOf_of_pos (hpos : 0 < extent io f) : startOf io f = ncaIoPdata f io := by
  refine if_neg fun hlen => ?_
  rw [extent, if_pos hlen] at hpos
  exact hpos.false

theorem step_keeps (hb : Behind h io) (hsmall : Small h io) (hp : h.Permits op) {k : Nat}
    (hf : h.bytes f ≠ none ∧ ncaIoPdata f io ≤ k ∧ k < ncaIoPdata f io + extent io f) :
    (h.next op).bytes f ≠ none ∧ ncaIoPdata f (op.step io) ≤ k ∧
      k < ncaIoPdata f (op.step io) + extent (op.step io) f := by
  obtain ⟨hdone, hle, hlt⟩ := hf
  cases op with
  | wdata g val =>
      have hne : f ≠ g := fun heq => hdone (heq ▸ hp.1)
      obtain ⟨hstart, hextent⟩ := (extends_wdata (f := g) hsmall.1 hp.2).1.other hne
      simp only [Op.step, History.next]
      rw [update_of_ne hne, hstart, hextent]
      exact ⟨hdone, hle, hlt⟩
  | wdataNull g append =>
      have hne : f ≠ g := fun heq => hdone (heq ▸ hp)
      obtain ⟨hstart, hextent⟩ := (extends_wdataNull io g append).other hne
      simp only [Op.step, History.next]
      rw [update_of_ne hne, hstart, hextent]
      exact ⟨hdone, hle, hlt⟩
  | adata g val =>
      obtain ⟨hlast, hval⟩ := hp
      have he := (hb.adata hsmall hlast hval).1
      simp only [Op.step, History.next]
      by_cases hne : f = g
      · subst hne
        rw [update_self, he.start, he.grown, startOf_of_pos (by omega)]
        exact ⟨fun hnone => hdone (Option.map_eq_none_iff.mp hnone), hle, by omega⟩
      · obtain ⟨hstart, hextent⟩ := he.other hne
        rw [update_of_ne hne, hstart, hextent]
        exact ⟨hdone, hle, hlt⟩

theorem Overlap.step (ho : Overlap h io) (hb : Behind h io) (hsmall : Small h io) (hp : h.Permits op) :
    Overlap (h.next op) (op.step io) := by
  obtain ⟨f, g, k, hne, hf, hg⟩ := ho
  exact ⟨f, g, k, hne, step_keeps hb hsmall hp hf, step_keeps hb hsmall hp hg⟩

theorem Overlap.not_intact (ho : Overlap h io) : ¬ Intact h io := by
  obtain ⟨f, g, k, hne, ⟨hf, hfle, hflt⟩, hg, hgle, hglt⟩ := ho
  intro hintact
  rcases hintact.disjoint f g hne ⟨hf, by omega⟩ ⟨hg, by omega⟩ with h | h <;> omega

end Clash

inductive Current (h : History) (io : Io) (f : Field) (r : Room) : Prop
  | empty (hnone : extent io f = 0) (hgap : r.gap = pad r.used) (hstart : startOf io f = up r.used)
  | filled (hpos : 0 < extent io f) (hover : r.beyond = r.gap)
      (hstop : ncaIoPdata f io + extent io f = r.used + r.gap)
      (hothers : ∀ g, g ≠ f → Filled h io g → ncaIoPdata g io + extent io g ≤ ncaIoPdata f io)

structure Good (h : History) (io : Io) (r : Room) : Prop where
  behind : Behind h io
  used : io.nUsed.toNat = r.used
  laid : Laid h io (r.used + r.beyond)
  reach : 0 < r.beyond → ∃ f, Filled h io f ∧ ncaIoPdata f io + extent io f = r.used + r.beyond
  low : ∀ f, Filled h io f → ncaIoPdata f io ≤ up r.used
  last : ∀ f, h.last = some f → Current h io f r

theorem Good.overlap (hg : Good h io r) {h' : History} {bytes : List (BitVec 8)} (hover : pad r.used < r.beyond)
    (he : Extends io io' f (up r.used) 0 val) (hval : 0 < val.length) (hempty : h.bytes f = none ∨ extent io f = 0)
    (hnext : h'.bytes = update h.bytes f (some bytes)) : Overlap h' io' := by
  obtain ⟨g, hfilled, hstop⟩ := hg.reach (Nat.zero_lt_of_lt hover)
  have hne : g ≠ f := by
    rintro rfl
    rcases hempty with hnone | hzero
    · exact hfilled.1 hnone
    · exact absurd hfilled.2 (by omega)
  have hlow := hg.low g hfilled
  have hup := add_pad r.used
  obtain ⟨hstart, hextent⟩ := he.other hne
  refine ⟨g, f, up r.used, hne, ⟨?_, ?_, ?_⟩, ?_, ?_, ?_⟩
  · rw [hnext, update_of_ne hne]
    exact hfilled.1
  · rwa [hstart]
  · rw [hstart, hextent]
    omega
  · rw [hnext, update_self]
    exact Option.some_ne_none _
  · exact he.start.le
  · rw [he.start, he.grown]
    omega

section Steps

variable {h' : History} {s l : Nat} {bytes : Option (List (BitVec 8))}

theorem filled_other (he : Extends io io' f s l val) (hnext : h'.bytes = update h.bytes f bytes) (hne : g ≠ f) :
    Filled h' io' g ↔ Filled h io g := by
  rw [Filled, Filled, hnext, update_of_ne hne, (he.other hne).2]

theorem startOf_of_start {n : Nat} (hused : up io.nUsed.toNat = n) (hstart : ncaIoPdata f io = n) : startOf io f = n := by
  rw [startOf]
  split <;> assumption

theorem good_wdata (hg : Good h io r) (hsmall : Small h io) (hp : h.Permits (.wdata f val))
    (hfits : 0 < val.length → r.beyond ≤ pad r.used) :
    Good (h.next (.wdata f val)) (ncaIoWdata val f io) (r.next (.wdata f val)) := by
  obtain ⟨he, hu⟩ := extends_wdata (f := f) hsmall.1 hp.2
  rw [hg.used] at he hu
  have hpad := add_pad r.used
  have hbase : structSize ≤ up r.used := hg.used ▸ hg.behind.used.trans (toNat_le_up _)
  have hmono : up r.used ≤ up (up r.used + val.length) := (Nat.le_add_right _ _).trans (toNat_le_up _)
  have hbefore (hval : 0 < val.length) (g : Field) (hfilled : Filled h io g) :
      ncaIoPdata g io + extent io g ≤ up r.used := by
    have := hg.laid.within g hfilled
    have := hfits hval
    omega
  have hne {g : Field} (hfilled : Filled h io g) : g ≠ f := fun heq => hfilled.1 (heq ▸ hp.1)
  have hother {g : Field} (hne : g ≠ f) :
      Filled (h.next (.wdata f val)) (ncaIoWdata val f io) g ↔ Filled h io g := filled_other he rfl hne
  refine ⟨hg.behind.step hsmall hp, hu, ?_, ?_, ?_, ?_⟩
  · refine hg.laid.extend he List.map_nil rfl (fun hpos => ?_) ?_
    · rw [Nat.zero_add] at hpos ⊢
      exact ⟨up_mod _, hbase, Nat.le_add_right _ _, fun g _ => hbefore hpos g⟩
    · simp only [Room.next]
      omega
  · intro hover
    simp only [Room.next] at hover ⊢
    obtain ⟨g, hfilled, hstop⟩ := hg.reach (by omega)
    have hval : val.length = 0 := by
      by_contra hval
      have := hfits (Nat.pos_of_ne_zero hval)
      omega
    refine ⟨g, (hother (hne hfilled)).mpr hfilled, ?_⟩
    rw [(he.other (hne hfilled)).1, (he.other (hne hfilled)).2, hstop]
    omega
  · intro g hfilled
    by_cases hgf : g = f
    · rw [hgf, he.start]
      exact hmono
    · rw [(he.other hgf).1]
      exact (hg.low g ((hother hgf).mp hfilled)).trans hmono
  · rintro _ ⟨⟩
    rcases Nat.eq_zero_or_pos val.length with hval | hval
    · refine .empty (by rw [he.grown, hval]) ?_ ?_
      · simp only [Room.next, hval, pad, Nat.add_zero, up_up, Nat.sub_self]
      · simp only [Room.next, hval, Nat.add_zero, up_up]
        exact startOf_of_start (by rw [hu, hval, Nat.add_zero, up_up]) he.start
    · have hfits := hfits hval
      refine .filled (by rw [he.grown]; omega) ?_ ?_ ?_
      · simp only [Room.next]
        omega
      · rw [he.start, he.grown, Nat.zero_add]
        rfl
      · intro g hgf hfilled
        rw [(he.other hgf).1, (he.other hgf).2, he.start]
        exact hbefore hval g ((hother hgf).mp hfilled)

theorem good_wdataNull (hg : Good h io r) (hsmall : Small h io) {append : Bool} (hp : h.Permits (.wdataNull f append)) :
    Good (h.next (.wdataNull f append)) (ncaIoWdataNull append f io) (r.next (.wdataNull f append)) := by
  have he := extends_wdataNull io f append
  have hne {g : Field} (hfilled : Filled h io g) : g ≠ f := fun heq => hfilled.1 (heq ▸ hp)
  have hother {g : Field} (hne : g ≠ f) :
      Filled (h.next (.wdataNull f append)) (ncaIoWdataNull append f io) g ↔ Filled h io g := filled_other he rfl hne
  refine ⟨hg.behind.step hsmall hp, hg.used, ?_, ?_, ?_, ?_⟩
  · exact hg.laid.extend he List.map_nil rfl (fun hpos => absurd hpos (by decide)) le_rfl
  · intro hover
    obtain ⟨g, hfilled, hstop⟩ := hg.reach hover
    refine ⟨g, (hother (hne hfilled)).mpr hfilled, ?_⟩
    rw [(he.other (hne hfilled)).1, (he.other (hne hfilled)).2]
    exact hstop
  · intro g hfilled
    have hgf : g ≠ f := by
      rintro rfl
      exact absurd hfilled.2 (by rw [he.grown]; decide)
    rw [(he.other hgf).1]
    exact hg.low g ((hother hgf).mp hfilled)
  · intro g hlast
    cases append with
    | false => cases hlast
    | true =>
        obtain rfl : f = g := Option.some.inj hlast
        refine .empty he.grown rfl ?_
        exact (if_pos (update_self f (-1#32) io.len)).trans (congrArg up hg.used)

/-- The field that `NCA_IO_ADATA` appends to ends `gap` behind `n_used`, and
what is there is behind the other fields. -/
theorem Good.current (hg : Good h io r) (hlast : h.last = some f) :
    startOf io f + extent io f = r.used + r.gap ∧ startOf io f ≤ up r.used ∧ startOf io f % 4 = 0 ∧
      (0 < extent io f → r.beyond = r.gap) ∧
      ∀ g, g ≠ f → (0 < extent io f ∨ r.beyond ≤ r.gap) → Filled h io g →
        ncaIoPdata g io + extent io g ≤ startOf io f := by
  have hpad := add_pad r.used
  cases hg.last f hlast with
  | empty hnone hgap hstart =>
      rw [hstart, hnone, hgap]
      refine ⟨hpad.symm, le_rfl, up_mod _, fun h => absurd h (Nat.lt_irrefl 0), fun g _ hroom hfilled => ?_⟩
      have := hg.laid.within g hfilled
      omega
  | filled hpos hover hstop hothers =>
      have hfilled : Filled h io f := ⟨hg.behind.done f hlast, hpos⟩
      rw [startOf_of_pos hpos]
      exact ⟨hstop, hg.low f hfilled, hg.laid.aligned f hfilled, fun _ => hover, fun g hne _ => hothers g hne⟩

theorem good_adata (hg : Good h io r) (hsmall : Small h io) (hp : h.Permits (.adata f val))
    (hfits : 0 < val.length → r.beyond ≤ r.gap) :
    Good (h.next (.adata f val)) (ncaIoAdata val f io) (r.next (.adata f val)) := by
  obtain ⟨hlast, hval⟩ := hp
  obtain ⟨he, hu⟩ := hg.behind.adata hsmall hlast hval
  rw [hg.used] at hu
  obtain ⟨hstop, hlow, hmod, hover, hothers⟩ := hg.current hlast
  obtain ⟨old, hbytes⟩ := Option.ne_none_iff_exists'.mp (hg.behind.done f hlast)
  have hold : (List.range (extent io f)).map (fun i => io.bytes (startOf io f + i)) = old := by
    rw [← hg.laid.kept f old hbytes, contents]
    apply List.map_congr_left
    intro i hi
    rw [startOf_of_pos (Nat.zero_lt_of_lt (List.mem_range.mp hi))]
  have hnext : (h.next (.adata f val)).bytes = update h.bytes f (some (old ++ val)) := by
    simp only [History.next, hbytes, Option.map_some]
  have hother {g : Field} (hne : g ≠ f) := filled_other (h := h) he hnext hne
  have hmono : up r.used ≤ up (r.used + val.length) := up_mono (Nat.le_add_right _ _)
  have hroom (hpos : 0 < extent io f + val.length) : 0 < extent io f ∨ r.beyond ≤ r.gap := by
    rcases Nat.eq_zero_or_pos val.length with hnil | hval
    · exact .inl (by omega)
    · exact .inr (hfits hval)
  -- the overhang is as before without new bytes, and the gap with them
  have hnew : (0 < val.length ∧ (r.next (.adata f val)).beyond = r.gap) ∨
      (val.length = 0 ∧ (r.next (.adata f val)).beyond = r.beyond) := by
    cases val with
    | nil => exact .inr ⟨rfl, rfl⟩
    | cons byte val => exact .inl ⟨Nat.succ_pos _, rfl⟩
  have hused : (r.next (.adata f val)).used = r.used + val.length := rfl
  refine ⟨hg.behind.step hsmall ⟨hlast, hval⟩, hu, ?_, ?_, ?_, ?_⟩
  · refine hg.laid.extend he hold hnext (fun hpos => ⟨hmod, hg.behind.start f hlast, ?_, ?_⟩) ?_
    · rcases hnew with ⟨-, hnew⟩ | ⟨hnil, hnew⟩
      · omega
      · have := hover (by omega)
        omega
    · exact fun g hne => hothers g hne (hroom hpos)
    · rcases hnew with ⟨hpos, hnew⟩ | ⟨hnil, hnew⟩
      · have := hfits hpos
        omega
      · omega
  · intro hpos
    rcases hnew with ⟨hval, hnew⟩ | ⟨hnil, hnew⟩
    · refine ⟨f, ⟨?_, ?_⟩, ?_⟩
      · rw [hnext, update_self]
        exact Option.some_ne_none _
      · rw [he.grown]
        omega
      · rw [he.start, he.grown]
        omega
    · obtain ⟨g, hfilled, hend⟩ := hg.reach (hnew ▸ hpos)
      by_cases hgf : g = f
      · subst hgf
        refine ⟨g, ⟨?_, ?_⟩, ?_⟩
        · rw [hnext, update_self]
          exact Option.some_ne_none _
        · rw [he.grown]
          exact Nat.add_pos_left hfilled.2 _
        · have := hover hfilled.2
          rw [he.start, he.grown]
          omega
      · refine ⟨g, (hother hgf).mpr hfilled, ?_⟩
        rw [(he.other hgf).1, (he.other hgf).2]
        omega
  · intro g hfilled
    by_cases hgf : g = f
    · rw [hgf, he.start]
      exact hlow.trans hmono
    · rw [(he.other hgf).1]
      exact (hg.low g ((hother hgf).mp hfilled)).trans hmono
  · intro g hg'
    obtain rfl : f = g := Option.some.inj (hlast.symm.trans hg')
    rcases Nat.eq_zero_or_pos (extent io f + val.length) with hzero | hpos
    · have hnil : val.length = 0 := by omega
      cases hg.last f hlast with
      | empty hnone hgap hstart =>
          refine .empty (he.grown.trans hzero) ?_ ?_
          · rw [hused, hnil]
            exact hgap
          · rw [hused, hnil]
            exact startOf_of_start (by rw [hu, hnil, Nat.add_zero]) (he.start.trans hstart)
      | filled hpos => omega
    · refine .filled (he.grown ▸ hpos) ?_ ?_ ?_
      · rcases hnew with ⟨-, hnew⟩ | ⟨hnil, hnew⟩
        · exact hnew
        · exact hnew.trans (hover (by omega))
      · have hgap : (r.next (.adata f val)).gap = r.gap := rfl
        rw [he.start, he.grown]
        omega
      · intro g hgf hfilled
        rw [(he.other hgf).1, (he.other hgf).2, he.start]
        exact hothers g hgf (hroom hpos) ((hother hgf).mp hfilled)

theorem good_step (hg : Good h io r) (hsmall : Small h io) (hp : h.Permits op) (hfits : r.fits op = true) :
    Good (h.next op) (op.step io) (r.next op) := by
  have hempty {val : List (BitVec 8)} {n : Nat} (hfits : (val.isEmpty || decide (r.beyond ≤ n)) = true)
      (hval : 0 < val.length) : r.beyond ≤ n := by
    rcases (Bool.or_eq_true _ _).mp hfits with hnil | hle
    · rw [List.isEmpty_iff.mp hnil] at hval
      exact absurd hval (Nat.lt_irrefl 0)
    · exact of_decide_eq_true hle
  cases op with
  | wdata f val => exact good_wdata hg hsmall hp (hempty hfits)
  | wdataNull f append => exact good_wdataNull hg hsmall hp
  | adata f val => exact good_adata hg hsmall hp (hempty hfits)

/-- One that does not fit is written over another field. -/
theorem overlap_step (hg : Good h io r) (hsmall : Small h io) (hp : h.Permits op) (hfits : r.fits op = false) :
    Overlap (h.next op) (op.step io) := by
  have hmore {val : List (BitVec 8)} {n : Nat} (hfits : (val.isEmpty || decide (r.beyond ≤ n)) = false) :
      0 < val.length ∧ n < r.beyond := by
    obtain ⟨hnil, hle⟩ := (Bool.or_eq_false_iff).mp hfits
    refine ⟨List.length_pos_iff.mpr fun h => ?_, Nat.lt_of_not_ge (of_decide_eq_false hle)⟩
    rw [h] at hnil
    cases hnil
  cases op with
  | wdata f val =>
      obtain ⟨hval, hover⟩ := hmore hfits
      have he := (extends_wdata (f := f) hsmall.1 hp.2).1
      rw [hg.used] at he
      exact hg.overlap hover he hval (.inl hp.1) rfl
  | wdataNull f append => cases hfits
  | adata f val =>
      obtain ⟨hval, hover⟩ := hmore hfits
      have he := (hg.behind.adata hsmall hp.1 hp.2).1
      obtain ⟨old, hbytes⟩ := Option.ne_none_iff_exists'.mp (hg.behind.done f hp.1)
      cases hg.last f hp.1 with
      | empty hnone hgap hstart =>
          rw [hstart, hnone] at he
          refine hg.overlap (hgap ▸ hover) he hval (.inr hnone) (?_ : _ = update h.bytes f (some (old ++ val)))
          simp only [History.next, hbytes, Option.map_some]
      | filled hpos hsame => omega

end Steps

variable {ops : List Op}

theorem Overlap.run (ho : Overlap h io) (hb : Behind h io) (hops : Proper h io ops) :
    ¬ Intact (h.after ops) (run ops io) := by
  induction ops generalizing h io with
  | nil => exact ho.not_intact
  | cons op ops ih =>
      obtain ⟨hsmall, hp, hops⟩ := hops
      exact ih (ho.step hb hsmall hp) (hb.step hsmall hp) hops

theorem Good.intact_iff (hg : Good h io r) : Intact h io ↔ (r.beyond == 0) = true := by
  rw [beq_iff_eq, Intact, hg.used]
  constructor
  · intro hlaid
    by_contra hover
    obtain ⟨f, hfilled, hstop⟩ := hg.reach (Nat.pos_of_ne_zero hover)
    have := hlaid.within f hfilled
    omega
  · intro hover
    have hlaid := hg.laid
    rwa [hover, Nat.add_zero] at hlaid

theorem Good.run (hg : Good h io r) (hops : Proper h io ops) : Intact (h.after ops) (run ops io) ↔ tight r ops = true := by
  induction ops generalizing h io r with
  | nil => exact hg.intact_iff
  | cons op ops ih =>
      obtain ⟨hsmall, hp, hops⟩ := hops
      cases hfits : r.fits op with
      | true =>
          rw [tight, hfits, Bool.true_and]
          exact ih (good_step hg hsmall hp hfits) hops
      | false =>
          rw [tight, hfits, Bool.false_and]
          refine iff_of_false ?_ Bool.false_ne_true
          exact (overlap_step hg hsmall hp hfits).run (hg.behind.step hsmall hp) hops

theorem good_start (hused : structSize ≤ io.nUsed.toNat) : Good .start io ⟨io.nUsed.toNat, 0, 0⟩ := by
  have hnone (f : Field) : ¬ Filled .start io f := fun hf => hf.1 rfl
  refine ⟨⟨hused, ?_, ?_⟩, rfl, ⟨?_, ?_, ?_, ?_, ?_⟩, ?_, ?_, ?_⟩
  · exact fun f h => by cases h
  · exact fun f h => by cases h
  · exact fun f l h => by cases h
  · exact fun f hf => absurd hf (hnone f)
  · exact fun f hf => absurd hf (hnone f)
  · exact fun f hf => absurd hf (hnone f)
  · exact fun f g _ hf => absurd hf (hnone f)
  · exact fun h => absurd h (Nat.lt_irrefl 0)
  · exact fun f hf => absurd hf (hnone f)
  · exact fun f h => by cases h

/-- The meta data are as written if no field that `NCA_IO_ADATA` began behind
`n_used` is still beyond it when something is written, or in the end. -/
theorem meta_data_intact_iff (hused : structSize ≤ io.nUsed.toNat) (hops : Proper .start io ops) :
    Intact (History.start.after ops) (run ops io) ↔ tight ⟨io.nUsed.toNat, 0, 0⟩ ops = true :=
  (good_start hused).run hops

def fresh : Io := ⟨fun _ => 0#32, fun _ => 0#32, BitVec.ofNat 32 structSize, fun _ => 0#8⟩

theorem meta_data_intact_words : Intact
    (History.start.after [.wdata .peer [1, 2, 3, 4], .wdataNull .data true, .adata .data [5, 6], .wdata .trailer [7]])
    (run [.wdata .peer [1, 2, 3, 4], .wdataNull .data true, .adata .data [5, 6], .wdata .trailer [7]] fresh) :=
  (meta_data_intact_iff (by decide) (by decide)).mpr (by decide)

/-- The trailer is written over the data. -/
theorem meta_data_clobbered :
    Proper .start fresh [.wdata .peer [1], .wdataNull .data true, .adata .data [2, 3, 4], .wdata .trailer [5]] ∧
    contents (run [.wdata .peer [1], .wdataNull .data true, .adata .data [2, 3, 4], .wdata .trailer [5]] fresh) .data =
      [5, 3, 4] ∧
    ¬ Intact
      (History.start.after [.wdata .peer [1], .wdataNull .data true, .adata .data [2, 3, 4], .wdata .trailer [5]])
      (run [.wdata .peer [1], .wdataNull .data true, .adata .data [2, 3, 4], .wdata .trailer [5]] fresh) := by
  refine ⟨by decide, by decide, fun h => ?_⟩
  exact absurd (h.kept .data [2, 3, 4] (by decide)) (by decide)

end SysvDev.Nca.Overhang
