import SysvDev.Interleaving
import SysvDev.X86.Memory

namespace SysvDev.Hres.Lock

open Function Interleaving X86.Memory Word

variable {T : Type} {w : Nat} {a : BitVec w}

/-- Where a CPU is, with what it has in `%dl`, the zero flag, or the word that
the `incl` of `hres_tick` has loaded. -/
inductive Cpu
  | outside
  /-- `xchgb %dl, (%rax)` -/
  | cl1 (dl : BitVec 8)
  | testb (dl : BitVec 8)
  | jz (dl : BitVec 8) (zf : Bool)
  /-- `cmpb $0, (%rax)` -/
  | cl2 (dl : BitVec 8)
  | jne (dl : BitVec 8) (zf : Bool)
  | cl3
  | incl (v : BitVec 32)
  deriving DecidableEq

structure Shared (w : Nat) where
  mem : Mem w
  /-- The critical sections that are completed. -/
  sections : Nat

/-- The steps of a CPU, `hres_lock` being at `a`. What a CPU does outside of the
acquire loop and the release leaves `hres_lock` alone. -/
inductive Act (a : BitVec w) (_ : T) : Cpu → Shared w → Cpu → Shared w → Prop
  | outside {m m' : Mem w} {k : Nat} (h : load 32 m' a = load 32 m a) : Act a _ .outside ⟨m, k⟩ .outside ⟨m', k⟩
  | movb {sh : Shared w} : Act a _ .outside sh (.cl1 (-1)) sh
  | xchgb {dl : BitVec 8} {m : Mem w} {k : Nat} :
      Act a _ (.cl1 dl) ⟨m, k⟩ (.testb (load 8 m a)) ⟨store m a dl, k⟩
  | testb {dl : BitVec 8} {sh : Shared w} : Act a _ (.testb dl) sh (.jz dl (dl == 0#8)) sh
  | jz {dl : BitVec 8} {zf : Bool} {sh : Shared w} : Act a _ (.jz dl zf) sh (if zf then .cl3 else .cl2 dl) sh
  | cmpb {dl : BitVec 8} {m : Mem w} {k : Nat} : Act a _ (.cl2 dl) ⟨m, k⟩ (.jne dl (load 8 m a == 0#8)) ⟨m, k⟩
  | jne {dl : BitVec 8} {zf : Bool} {sh : Shared w} : Act a _ (.jne dl zf) sh (if zf then .cl1 dl else .cl2 dl) sh
  | inside {m m' : Mem w} {k : Nat} (h : load 32 m' a = load 32 m a) : Act a _ .cl3 ⟨m, k⟩ .cl3 ⟨m', k⟩
  -- the `incl` of `hres_tick` is not locked
  | loads {m : Mem w} {k : Nat} : Act a _ .cl3 ⟨m, k⟩ (.incl (load 32 m a)) ⟨m, k⟩
  | stores {v : BitVec 32} {m : Mem w} {k : Nat} : Act a _ (.incl v) ⟨m, k⟩ .outside ⟨store m a (v + 1#32), k + 1⟩
  | unlockHresLock {m : Mem w} {k : Nat} :
      Act a _ .cl3 ⟨m, k⟩ .outside ⟨store m a (load 32 m a + 1#32), k + 1⟩

/-- An exchange of this CPU has found 0, and it has not released the lock since. -/
def Inside : Cpu → Prop
  | .testb dl => dl = 0#8
  | .jz _ zf => zf = true
  | .cl3 | .incl _ => True
  | _ => False

instance : DecidablePred Inside
  | .testb dl => inferInstanceAs (Decidable (dl = 0#8))
  | .jz _ zf => inferInstanceAs (Decidable (zf = true))
  | .cl3 | .incl _ => .isTrue trivial
  | .outside | .cl1 _ | .cl2 _ | .jne _ _ => .isFalse id

section Memory

variable {m : Mem w} {c : BitVec 24} {b b' : BitVec 8}

theorem load_parts (h : load 32 m a = c ++ b) : load 24 m (a + 1#w) = c ∧ load 8 m a = b :=
  pair_inj.mp ((load_succ m a rfl).symm.trans h)

theorem load_low (h : load 32 m a = c ++ b) : load 8 m a = b := (load_parts h).2

theorem apart_low (hw : 2 ≤ w) : Apart a 1 (a + 1#w) 3 := by
  have hpow : 2 ^ 2 ≤ 2 ^ w := Nat.pow_le_pow_right (by norm_num) hw
  have hone : (1#w).toNat = 1 := Nat.mod_eq_of_lt (by omega)
  constructor
  · rw [BitVec.add_comm, BitVec.add_sub_cancel, hone]
  · rw [sub_add_cancel_left, BitVec.toNat_neg, hone, Nat.mod_eq_of_lt] <;> omega

theorem load_store_low (hw : 2 ≤ w) (h : load 32 m a = c ++ b) : load 32 (store m a b') a = c ++ b' := by
  have hbyte : load 8 (store m a b') a = b' := load_store_same m a b' rfl Nat.one_le_two_pow
  rw [← (load_parts h).1, load_succ (store m a b') a rfl, hbyte, load_store_apart (apart_low hw)]

/-- The carry out of the byte. -/
theorem append_ones_add_one : (c ++ 0xff#8) + 1#32 = (c + 1#24) ++ 0#8 := by
  apply BitVec.eq_of_toNat_eq
  have hlt := c.isLt
  rw [BitVec.toNat_add, toNat_pair, toNat_pair, BitVec.toNat_add]
  simp only [BitVec.toNat_ofNat]
  omega

theorem load_store_word (hw : 2 ≤ w) (v : BitVec 32) : load 32 (store m a v) a = v := by
  have hpow : 2 ^ 2 ≤ 2 ^ w := Nat.pow_le_pow_right (by norm_num) hw
  exact load_store_same m a v rfl hpow

end Memory

/-- The lock byte of the word is `b`, the rest counts the sections. -/
def Shows (a : BitVec w) (sh : Shared w) (b : BitVec 8) : Prop :=
  load 32 sh.mem a = BitVec.ofNat 24 sh.sections ++ b

def Free (a : BitVec w) (sh : Shared w) : Prop := Shows a sh 0#8

def Local (a : BitVec w) (sh : Shared w) : Cpu → Prop
  | .cl1 dl | .cl2 dl | .jne dl _ => dl = 0xff#8
  | .testb dl => dl = 0#8 ∨ dl = 0xff#8
  | .jz dl zf => zf = false → dl = 0xff#8
  | .incl v => v = load 32 sh.mem a
  | .outside | .cl3 => True

structure Kept (a : BitVec w) (s : State T Cpu (Shared w)) : Prop where
  claimed : Claimed (Free a) Inside s
  shows : Free a s.shared ∨ Shows a s.shared 0xff#8
  loc : ∀ t, Local a s.shared (s.loc t)

variable {sh sh' : Shared w} {l l' : Cpu} {t : T} {b : BitVec 8}

theorem Shows.low (h : Shows a sh b) : load 8 sh.mem a = b := load_low h

theorem Shows.congr (hword : load 32 sh'.mem a = load 32 sh.mem a) (hsections : sh'.sections = sh.sections) :
    Shows a sh' b ↔ Shows a sh b := by
  rw [Shows, Shows, hword, hsections]

theorem Shows.unique {b' : BitVec 8} (h : Shows a sh b) (h' : Shows a sh b') : b = b' := h.low.symm.trans h'.low

theorem Shows.release (hw : 2 ≤ w) {k : Nat} {m : Mem w} (h : Shows a ⟨m, k⟩ 0xff#8) :
    Free a ⟨store m a (load 32 m a + 1#32), k + 1⟩ := by
  have hword : load 32 m a = BitVec.ofNat 24 k ++ 0xff#8 := h
  rw [Free, Shows, load_store_word hw, hword, append_ones_add_one, ← BitVec.ofNat_add]

/-- What one CPU does to the lock, that is inside or not, whatever the word
shows. -/
inductive Effect (a : BitVec w) (l : Cpu) (sh : Shared w) (l' : Cpu) (sh' : Shared w) : Prop
  | keep (hword : load 32 sh'.mem a = load 32 sh.mem a) (hsections : sh'.sections = sh.sections)
      (hinside : Inside l' ↔ Inside l)
  | acquire (hfree : Free a sh) (htaken : Shows a sh' 0xff#8) (hinside : Inside l')
  | release (hinside : Inside l) (hfree : Free a sh') (hleft : ¬ Inside l')

theorem Act.effect (hw : 2 ≤ w) (hact : Act a t l sh l' sh') (hloc : Local a sh l)
    (hshows : Free a sh ∨ Shows a sh 0xff#8) (hheld : Inside l → Shows a sh 0xff#8) : Effect a l sh l' sh' := by
  cases hact with
  | outside h | inside h => exact .keep h rfl Iff.rfl
  | movb | loads => exact .keep rfl rfl (by simp [Inside])
  | @xchgb dl m k =>
      have hdl : dl = 0xff#8 := hloc
      subst hdl
      rcases hshows with hfree | htaken
      · exact .acquire hfree (load_store_low hw hfree) hfree.low
      · refine .keep ((load_store_low hw htaken).trans htaken.symm) rfl ?_
        have hlow : load 8 m a = 0xff#8 := htaken.low
        simp [Inside, hlow]
  | testb => exact .keep rfl rfl (by simp [Inside])
  | @jz _ zf =>
      refine .keep rfl rfl ?_
      cases zf <;> simp [Inside]
  | cmpb => exact .keep rfl rfl Iff.rfl
  | @jne _ zf =>
      refine .keep rfl rfl ?_
      cases zf <;> simp [Inside]
  | stores =>
      rw [Local] at hloc
      subst hloc
      exact .release trivial ((hheld trivial).release hw) id
  | unlockHresLock => exact .release trivial ((hheld trivial).release hw) id

theorem Act.loc (hact : Act a t l sh l' sh') (hloc : Local a sh l) (hshows : Free a sh ∨ Shows a sh 0xff#8) :
    Local a sh' l' := by
  cases hact with
  | outside | inside | stores | unlockHresLock => trivial
  | movb | loads => rfl
  | xchgb => exact hshows.imp Shows.low Shows.low
  | @testb dl =>
      intro hzf
      exact hloc.resolve_left (by simpa using hzf)
  | @jz _ zf =>
      cases zf with
      | false => exact hloc rfl
      | true => trivial
  | cmpb => exact hloc
  | @jne _ zf => cases zf <;> exact hloc

/-- Only the CPU inside depends on the word. -/
theorem Local.of_word (h : Local a sh l) (hword : Inside l → load 32 sh'.mem a = load 32 sh.mem a) :
    Local a sh' l := by
  cases l with
  | incl v => exact Eq.trans h (hword trivial).symm
  | _ => exact h

variable [DecidableEq T] {loc : T → Cpu}

theorem Kept.act (hw : 2 ≤ w) (h : Kept a ⟨loc, sh⟩) (hact : Act a t (loc t) sh l sh') :
    Kept a ⟨update loc t l, sh'⟩ := by
  have hheld (u : T) (hu : Inside (loc u)) : Shows a sh 0xff#8 :=
    h.shows.resolve_left fun hfree => h.claimed.free_iff.mp hfree u hu
  -- a CPU that is inside sees the word change by its own steps only
  have hothers (hother : ∀ u, u ≠ t → Inside (loc u) → load 32 sh'.mem a = load 32 sh.mem a) :
      ∀ u, Local a sh' (update loc t l u) :=
    forall_update (Q := fun _ l => Local a sh' l) (hact.loc (h.loc t) h.shows)
      fun u hu => (h.loc u).of_word (hother u hu)
  cases hact.effect hw (h.loc t) h.shows (hheld t) with
  | keep hword hsections hinside =>
      have hsame (b : BitVec 8) : Shows a sh' b ↔ Shows a sh b := Shows.congr hword hsections
      exact ⟨h.claimed.keep (hsame 0#8) hinside, h.shows.imp (hsame _).mpr (hsame _).mpr, hothers fun _ _ _ => hword⟩
  | acquire hfree htaken hinside =>
      have hnotFree : ¬ Free a sh' := fun hfree' => absurd (htaken.unique hfree') (by decide)
      refine ⟨h.claimed.acquire hfree hnotFree hinside, .inr htaken, hothers fun u _ hu => ?_⟩
      exact absurd hu (h.claimed.free_iff.mp hfree u)
  | release hinside hfree hleft =>
      refine ⟨h.claimed.release hinside hfree hleft, .inl hfree, hothers fun u hne hu => ?_⟩
      exact absurd (h.claimed.unique u t hu hinside) hne

structure Initial (a : BitVec w) (s : State T Cpu (Shared w)) : Prop where
  word : load 32 s.shared.mem a = 0#32
  sections : s.shared.sections = 0
  outside : ∀ t, s.loc t = .outside

omit [DecidableEq T] in
theorem Initial.kept {s : State T Cpu (Shared w)} (h : Initial a s) : Kept a s := by
  have hfree : Free a s.shared := by
    rw [Free, Shows, h.word, h.sections]
    rfl
  have hnone (t : T) : ¬ Inside (s.loc t) := by simp [h.outside t, Inside]
  refine ⟨⟨iff_of_true hfree hnone, fun t _ ht => absurd ht (hnone t)⟩, .inl hfree, fun t => ?_⟩
  rw [h.outside t]
  trivial

theorem run_kept (hw : 2 ≤ w) {s s' : State T Cpu (Shared w)} (hinit : Initial a s)
    (h : Run (Act a) (fun _ => True) s s') : Kept a s' := by
  apply h.invariant hinit.kept
  intro t loc sh l sh' hkept _ _ hact
  exact hkept.act hw hact

theorem hres_lock_counts (hw : 2 ≤ w) (s s' : State T Cpu (Shared w)) (hinit : Initial a s)
    (hrun : Run (Act a) (fun _ => True) s s') :
    (∀ t u, Inside (s'.loc t) → Inside (s'.loc u) → t = u) ∧
    ((load 32 s'.shared.mem a).setWidth 8 = 0#8 ↔ ∀ t, ¬ Inside (s'.loc t)) ∧
    (load 32 s'.shared.mem a).toNat / 2 ^ 8 = s'.shared.sections % 2 ^ 24 := by
  have hkept := run_kept hw hinit hrun
  obtain ⟨b, hshows⟩ : ∃ b, Shows a s'.shared b := hkept.shows.elim (⟨_, ·⟩) (⟨_, ·⟩)
  have hword : load 32 s'.shared.mem a = BitVec.ofNat 24 s'.shared.sections ++ b := hshows
  refine ⟨hkept.claimed.unique, ?_, ?_⟩
  · rw [← hkept.claimed.free_iff, hword, BitVec.setWidth_append_eq_right]
    constructor
    · rintro rfl
      exact hshows
    · exact hshows.unique
  · have hlt : b.toNat < 2 ^ 8 := b.isLt
    rw [hword, toNat_pair, BitVec.toNat_ofNat, Nat.add_comm, Nat.add_mul_div_right _ _ (Nat.two_pow_pos 8),
      Nat.div_eq_of_lt hlt, Nat.zero_add]

def sampleStart : State Bool Cpu (Shared 32) := ⟨fun _ => .outside, ⟨fun _ => 0#8, 0⟩⟩

theorem run_sample : ∃ s, Run (Act 0x1000#32) (fun _ => True) sampleStart s ∧ s.loc false = .testb 0xff#8 ∧
    s.loc true = .outside ∧ s.shared.sections = 1 := by
  have hall (s : State Bool Cpu (Shared 32)) : True := trivial
  have h0 : Run (Act 0x1000#32) (fun _ => True) sampleStart sampleStart := .refl
  have h1 := ((h0.next hall true .movb).next hall true .xchgb).next hall true .testb
  have h2 := ((h1.next hall true .jz).next hall false .movb).next hall true .loads
  have h3 := (h2.next hall false .xchgb).next hall true .stores
  exact ⟨_, h3, rfl, rfl, rfl⟩

theorem initial_sample : Initial 0x1000#32 sampleStart := ⟨rfl, rfl, fun _ => rfl⟩

theorem hres_lock_counts_sample : ∃ s : State Bool Cpu (Shared 32), s.shared.sections = 1 ∧
    (load 32 s.shared.mem 0x1000#32).toNat / 2 ^ 8 = 1 := by
  obtain ⟨s, hrun, -, -, hone⟩ := run_sample
  have hcount := (hres_lock_counts (by decide) sampleStart s initial_sample hrun).2.2
  rw [hone] at hcount
  exact ⟨s, hone, hcount⟩

end SysvDev.Hres.Lock
