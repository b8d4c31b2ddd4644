import Mathlib.Algebra.BigOperators.Fin
import Mathlib.Data.BitVec
import SysvDev.RwLock.Paths
import SysvDev.Word

namespace SysvDev.RwLock.Holders

open Function Interleaving Relation Paths

variable {w : Nat} {T : Type} {ptr : T → BitVec w} {t : T} {l l' : Thread w} {x y p : BitVec w}

section Word

/-- The word without the waiter bits: an even number for readers, an odd one
for a writer. -/
def hold (x : BitVec w) : Nat := x.toNat / 4

theorem toNat_and_not_waiters (x : BitVec w) : (x &&& ~~~waiters).toNat = 4 * hold x := Word.toNat_and_not_three x

theorem four_mul_hold (h : x &&& ~~~waiters = y) : 4 * hold x = y.toNat := by
  rw [← toNat_and_not_waiters, h]

theorem hold_congr (h : y &&& ~~~waiters = x &&& ~~~waiters) : hold y = hold x := by
  have hnat := four_mul_hold h
  rw [toNat_and_not_waiters] at hnat
  omega

theorem testl_four (x : BitVec w) : testl 4#32 x = decide (hold x % 2 = 1) := by
  have hbit : (x.setWidth 32).getLsbD 2 = decide (hold x % 2 = 1) := by
    rw [BitVec.getLsbD_setWidth, BitVec.getLsbD, Nat.testBit_eq_decide_div_mod_eq]
    rfl
  have htwo : 4#32 = BitVec.twoPow 32 2 := rfl
  rw [testl, htwo, BitVec.and_twoPow, hbit]
  by_cases h : hold x % 2 = 1
  · rw [decide_eq_true h]
    rfl
  · rw [decide_eq_false h]
    rfl

theorem even_of_testl_four (h : testl 4#32 x = false) : hold x % 2 = 0 := by
  rw [testl_four, decide_eq_false_iff_not] at h
  omega

theorem even_of_testl_six (h : testl 6#32 x = false) : hold x % 2 = 0 := by
  have hzero : x.setWidth 32 &&& 6#32 = 0#32 := bne_eq_false_iff_eq.mp h
  have hand : x.setWidth 32 &&& 4#32 = (x.setWidth 32 &&& 6#32) &&& 4#32 := (BitVec.and_assoc _ 6#32 4#32).symm
  apply even_of_testl_four
  rw [testl, hand, hzero]
  rfl

theorem toNat_writeLock (hw : 32 ≤ w) (hp : p.toNat % 8 = 0) : (writeLock p).toNat = p.toNat + 4 := by
  have hpow : 2 ^ 3 ≤ 2 ^ w := Nat.pow_le_pow_right (by decide) (by omega)
  have hor : p.toNat ||| 4 = p.toNat + 4 := by
    have h := Nat.two_pow_add_eq_or_of_lt (show 4 < 2 ^ 3 by decide) (p.toNat / 8)
    have hdiv : 2 ^ 3 * (p.toNat / 8) = p.toNat := by omega
    rw [hdiv] at h
    exact h.symm
  rw [writeLock, BitVec.toNat_or, BitVec.toNat_ofNat, Nat.mod_eq_of_lt (by omega), hor]

theorem toNat_readLock (hw : 32 ≤ w) : (readLock : BitVec w).toNat = 8 := by
  have hpow : 2 ^ 32 ≤ 2 ^ w := Nat.pow_le_pow_right (by decide) hw
  rw [readLock, BitVec.toNat_ofNat, Nat.mod_eq_of_lt (by omega)]

theorem toNat_add_readLock (hw : 32 ≤ w) (h : x.toNat < 2 ^ 31) : (x + readLock).toNat = x.toNat + 8 := by
  have hpow : 2 ^ 32 ≤ 2 ^ w := Nat.pow_le_pow_right (by decide) hw
  rw [BitVec.toNat_add, toNat_readLock hw, Nat.mod_eq_of_lt (by omega)]

theorem toNat_sub_readLock (hw : 32 ≤ w) (h : 8 ≤ x.toNat) : (x - readLock).toNat = x.toNat - 8 := by
  rw [BitVec.toNat_sub_of_le, toNat_readLock hw]
  rw [BitVec.le_def, toNat_readLock hw]
  exact h

theorem toNat_of_single (h : x.setWidth 32 = readLock) : x.toNat % 2 ^ 32 = 8 := by
  rw [← BitVec.toNat_setWidth, h]
  rfl

theorem toInt_low (h : x.toNat < 2 ^ 31) : (x.setWidth 32).toInt = x.toNat := by
  have hnat : (x.setWidth 32).toNat = x.toNat := by
    rw [BitVec.toNat_setWidth, Nat.mod_eq_of_lt (by omega)]
  rw [BitVec.toInt_eq_toNat_of_lt (by omega), hnat]

end Word

/-- What is known of a thread inside `rw_enter` or `rw_exit`, by itself. -/
def Good (l : Thread w) : Prop :=
  match l.point with
  | .readEnter old => hold old % 2 = 0
  | .exitLoad | .exitWakeup => 0 < l.reads ∨ l.writes = true
  | .readExit old new => 0 < l.reads ∧ (old.setWidth 32 = readLock ∧ new = 0#w ∨
      new = old - readLock ∧ 8 ≤ (new.setWidth 32).toInt)
  | .writeExit => l.writes = true
  | _ => True

inductive Effect (p : BitVec w) (l : Thread w) (x : BitVec w) (l' : Thread w) (y : BitVec w) : Prop
  | keep (hreads : l'.reads = l.reads) (hwrites : l'.writes = l.writes) (hhold : hold y = hold x)
  | takeRead (heven : hold x % 2 = 0) (hreads : l'.reads = l.reads + 1) (hwrites : l'.writes = l.writes)
      (hhold : hold y = hold x + 2)
  | takeWrite (hfree : hold x = 0) (hreads : l'.reads = l.reads) (hwrites : l'.writes = true)
      (hhold : hold y = p.toNat / 4 + 1)
  | dropRead (hpos : 0 < l.reads) (hreads : l'.reads = l.reads - 1) (hwrites : l'.writes = l.writes)
      (hhold : hold y + 2 = hold x)
  | dropWrite (hheld : l.writes = true) (hreads : l'.reads = l.reads) (hwrites : l'.writes = false) (hhold : hold y = 0)

structure Seen (l : Thread w) (x : BitVec w) : Prop where
  few : hold x % 2 = 0 → hold x < 2 ^ 29
  reads : 0 < l.reads → hold x % 2 = 0 ∧ 2 ≤ hold x
  writes : l.writes = true → hold x % 2 = 1

theorem act_good (h : Act ptr t l x l' y) (hgood : Good l) (hseen : Seen l x) : Good l' := by
  cases h with
  | enterLoad h => exact even_of_testl_six h
  | rwExit h => exact h
  | exitLoadSingle h =>
      refine ⟨?_, .inl ⟨h, rfl⟩⟩
      rcases hgood with hn | hb
      · exact hn
      · have hodd := hseen.writes hb
        have hlow := toNat_of_single h
        unfold hold at hodd
        omega
  | exitLoadWriter _ hw =>
      rcases hgood with hn | hb
      · rw [testl_four, decide_eq_true_iff] at hw
        exact absurd (hseen.reads hn).1 (by omega)
      · exact hb
  | exitLoadMore _ hw hge =>
      refine ⟨?_, .inr ⟨rfl, hge⟩⟩
      rcases hgood with hn | hb
      · exact hn
      · exact absurd (hseen.writes hb) (by have := even_of_testl_four hw; omega)
  | exitLoadLast | exitWakeupBits => exact hgood
  | readExitFails => exact .inl hgood.1
  | writeExitFails => exact .inr hgood
  | _ => exact trivial

theorem act_effect (hw : 32 ≤ w) (hp : (ptr t).toNat % 8 = 0) (h : Act ptr t l x l' y) (hgood : Good l)
    (hseen : Seen l x) : Effect (ptr t) l x l' y := by
  have hwrite : (writeLock (ptr t)).toNat = (ptr t).toNat + 4 := toNat_writeLock hw hp
  cases h with
  | readEnter =>
      have heven : hold x % 2 = 0 := hgood
      have hfew := hseen.few heven
      refine .takeRead heven rfl rfl ?_
      unfold hold at hfew ⊢
      rw [toNat_add_readLock hw (by omega)]
      omega
  | writeEnter =>
      refine .takeWrite ?_ rfl rfl ?_
      · rw [hold, BitVec.toNat_ofNat, Nat.zero_mod]
      · rw [hold, hwrite]
        omega
  | readExit =>
      obtain ⟨hn, hnew⟩ := hgood
      obtain ⟨heven, htwo⟩ := hseen.reads hn
      have hfew := hseen.few heven
      refine .dropRead hn rfl rfl ?_
      rcases hnew with ⟨hlow, rfl⟩ | ⟨rfl, -⟩
      · have hnat := toNat_of_single hlow
        have hzero : hold 0#w = 0 := by rw [hold, BitVec.toNat_ofNat, Nat.zero_mod]
        unfold hold at hfew htwo hzero ⊢
        omega
      · unfold hold at htwo ⊢
        rw [toNat_sub_readLock hw (by omega)]
        omega
  | writeExit =>
      refine .dropWrite hgood rfl rfl ?_
      rw [hold, BitVec.toNat_ofNat, Nat.zero_mod]
  | enterSleepBits h | exitWakeupBits h => exact .keep rfl rfl (hold_congr h)
  | enterSleepReader hfree h =>
      have heven := even_of_testl_four hfree
      have hfew := hseen.few heven
      have hnat := four_mul_hold h
      rw [toNat_add_readLock hw (by rw [toNat_and_not_waiters]; omega), toNat_and_not_waiters] at hnat
      exact .takeRead heven rfl rfl (by omega)
  | enterSleepWriter hfree h =>
      have hzero := four_mul_hold hfree
      have hnat := four_mul_hold h
      rw [BitVec.toNat_ofNat, Nat.zero_mod] at hzero
      exact .takeWrite (by omega) rfl rfl (by omega)
  | exitWakeupReader hn h =>
      obtain ⟨-, htwo⟩ := hseen.reads hn
      have hnat := four_mul_hold h
      rw [toNat_sub_readLock hw (by rw [toNat_and_not_waiters]; omega), toNat_and_not_waiters] at hnat
      exact .dropRead hn rfl rfl (by omega)
  | exitWakeupWriter h =>
      have hzero := four_mul_hold h
      rw [BitVec.toNat_ofNat, Nat.zero_mod] at hzero
      exact .dropWrite rfl rfl rfl (by omega)
  | _ => exact .keep rfl rfl rfl

/-- How often `t_kpri_req` counts a thread: once for each read hold, and
inside `rw_enter` and `rw_exit` for a hold it is to get or has just given up. -/
def requests (l : Thread w) : Nat :=
  match l.point with
  | .enterLoad | .readEnter _ | .enterSleep false | .kpriRelease => l.reads + 1
  | _ => l.reads

theorem act_requests (h : Act ptr t l x l' y) (hgood : Good l) :
    l'.kpriReq + BitVec.ofNat 32 (requests l) = l.kpriReq + BitVec.ofNat 32 (requests l') := by
  have hsucc (q : BitVec 32) (n : Nat) : q + 1 + BitVec.ofNat 32 n = q + BitVec.ofNat 32 (n + 1) := by
    rw [BitVec.ofNat_add, BitVec.add_assoc, BitVec.add_comm 1]
    rfl
  have hpred (q : BitVec 32) {n : Nat} (hn : 0 < n) : q - 1 + BitVec.ofNat 32 n = q + BitVec.ofNat 32 (n - 1) := by
    obtain ⟨m, rfl⟩ := Nat.exists_eq_add_of_le' hn
    have hone : q - 1 + 1 = q := BitVec.sub_add_cancel q 1
    rw [← hsucc, hone, Nat.add_sub_cancel]
  cases h with
  | kpriRequest => exact hsucc _ _
  | readExit =>
      have hn : 0 < _ := hgood.1
      simp only [requests, Nat.sub_add_cancel hn]
  | kpriRelease => exact hpred _ (Nat.succ_pos _)
  | exitWakeupReader hn => exact hpred _ hn
  | @enterSleepBits q n b writer => cases writer <;> rfl
  | _ => rfl

section Runs

variable [Fintype T]

def readers (loc : T → Thread w) : Nat := total Thread.reads loc

def Few (s : State T (Thread w) (BitVec w)) : Prop := readers s.loc < 2 ^ 28

structure Initial (s : State T (Thread w) (BitVec w)) : Prop where
  word : s.shared = 0#w
  away : ∀ t, (s.loc t).point = .away
  reads : ∀ t, (s.loc t).reads = 0
  writes : ∀ t, (s.loc t).writes = false

inductive Held (ptr : T → BitVec w) (loc : T → Thread w) (x : BitVec w) : Prop
  | unwritten (hnone : ∀ u, (loc u).writes = false) (hhold : hold x = 2 * readers loc)
  | written (t : T) (hwrites : ∀ u, (loc u).writes = true ↔ u = t) (hzero : readers loc = 0)
      (hhold : hold x = (ptr t).toNat / 4 + 1)

structure Inv (ptr : T → BitVec w) (start : T → BitVec 32) (s : State T (Thread w) (BitVec w)) : Prop where
  good : ∀ t, Good (s.loc t)
  held : Held ptr s.loc s.shared
  kpri : ∀ t, (s.loc t).kpriReq = start t + BitVec.ofNat 32 (requests (s.loc t))

variable {start : T → BitVec 32} {s₀ s : State T (Thread w) (BitVec w)} {loc : T → Thread w}

theorem Initial.inv (h : Initial s) : Inv ptr (fun t => (s.loc t).kpriReq) s where
  good t := by simp only [Good, h.away t]
  held := by
    have hzero : readers s.loc = 0 := Finset.sum_eq_zero fun t _ => h.reads t
    refine .unwritten h.writes ?_
    rw [h.word, hzero, hold, BitVec.toNat_ofNat, Nat.zero_mod]
  kpri t := by
    simp only [requests, h.away t, h.reads t]
    exact (BitVec.add_zero _).symm

theorem Held.seen (h : Held ptr loc x) (hptr : ∀ t, (ptr t).toNat % 8 = 0) (hfew : readers loc < 2 ^ 28) (t : T) :
    Seen (loc t) x := by
  have hle : (loc t).reads ≤ readers loc := le_total t
  cases h with
  | unwritten hnone hhold =>
      refine ⟨by omega, by omega, fun ht => ?_⟩
      rw [hnone t] at ht
      cases ht
  | written u _ hzero hhold =>
      have halign := hptr u
      exact ⟨by omega, by omega, by omega⟩

/-- The word encodes exactly the current holders, apart from the waiter bits. -/
def Encodes (ptr : T → BitVec w) (s : State T (Thread w) (BitVec w)) : Prop :=
  (∀ t, (s.loc t).writes = true → s.shared &&& ~~~waiters = writeLock (ptr t)) ∧
    ((∀ t, (s.loc t).writes = false) → s.shared &&& ~~~waiters = BitVec.ofNat w (8 * readers s.loc))

def Alone (s : State T (Thread w) (BitVec w)) : Prop :=
  ∀ t, (s.loc t).writes = true → ∀ u, (s.loc u).reads = 0 ∧ ((s.loc u).writes = true → u = t)

/-- The points at which `rw_exit` is about to give up a hold by itself. -/
def FastExit : Point w → Prop
  | .readExit .. | .writeExit => True
  | _ => False

theorem Inv.encodes (h : Inv ptr start s) (hw : 32 ≤ w) (hptr : ∀ t, (ptr t).toNat % 8 = 0) (hfew : Few s) :
    Encodes ptr s := by
  have hpow : 2 ^ 32 ≤ 2 ^ w := Nat.pow_le_pow_right (by decide) hw
  unfold Few at hfew
  constructor
  · intro t ht
    apply BitVec.eq_of_toNat_eq
    rw [toNat_and_not_waiters, toNat_writeLock hw (hptr t)]
    cases h.held with
    | unwritten hnone =>
        rw [hnone t] at ht
        cases ht
    | written u hu _ hhold =>
        have halign := hptr u
        obtain rfl := (hu t).mp ht
        omega
  · intro hnone
    apply BitVec.eq_of_toNat_eq
    rw [toNat_and_not_waiters, BitVec.toNat_ofNat, Nat.mod_eq_of_lt (by omega)]
    cases h.held with
    | unwritten _ hhold => omega
    | written u hu =>
        have hself := (hu u).mpr rfl
        rw [hnone u] at hself
        cases hself

theorem Inv.alone (h : Inv ptr start s) : Alone s := by
  intro t ht u
  have hle : (s.loc u).reads ≤ readers s.loc := le_total u
  cases h.held with
  | unwritten hnone =>
      rw [hnone t] at ht
      cases ht
  | written v hv hzero =>
      obtain rfl := (hv t).mp ht
      exact ⟨by omega, (hv u).mp⟩

theorem toNat_and_waiters (hw : 32 ≤ w) (x : BitVec w) : (x &&& waiters).toNat = x.toNat % 4 := by
  have hpow : 2 ^ 32 ≤ 2 ^ w := Nat.pow_le_pow_right (by decide) hw
  rw [BitVec.toNat_and, waiters, BitVec.toNat_ofNat, Nat.mod_eq_of_lt (by omega)]
  exact Nat.and_two_pow_sub_one_eq_mod x.toNat 2

theorem and_waiters_congr (hw : 32 ≤ w) (h : y.toNat % 4 = x.toNat % 4) : y &&& waiters = x &&& waiters := by
  apply BitVec.eq_of_toNat_eq
  rw [toNat_and_waiters hw, toNat_and_waiters hw, h]

variable [DecidableEq T]

theorem Held.step (h : Held ptr loc x) (hptr : ∀ t, (ptr t).toNat % 8 = 0) (heffect : Effect (ptr t) (loc t) x l' y) :
    Held ptr (update loc t l') y := by
  have htotal : readers (update loc t l') + (loc t).reads = readers loc + l'.reads := total_update
  have hle : (loc t).reads ≤ readers loc := le_total t
  cases h with
  | unwritten hnone hhold =>
      have hstill (hwrites : l'.writes = (loc t).writes) (u : T) : (update loc t l' u).writes = false :=
        forall_update (Q := fun _ (l : Thread w) => l.writes = false) (hwrites.trans (hnone t)) (fun u _ => hnone u) u
      cases heffect with
      | keep hreads hwrites hsame => exact .unwritten (hstill hwrites) (by omega)
      | takeRead _ hreads hwrites hmore => exact .unwritten (hstill hwrites) (by omega)
      | dropRead hpos hreads hwrites hless => exact .unwritten (hstill hwrites) (by omega)
      | takeWrite hfree hreads hwrites hword =>
          refine .written t (forall_update (Q := fun u (l : Thread w) => l.writes = true ↔ u = t) (by simp [hwrites]) ?_) ?_
            hword
          · intro u hne
            simp [hnone u, hne]
          · omega
      | dropWrite hheld =>
          rw [hnone t] at hheld
          cases hheld
  | written v hv hzero hhold =>
      have halign := hptr v
      cases heffect with
      | keep hreads hwrites hsame =>
          refine .written v (forall_update (Q := fun u (l : Thread w) => l.writes = true ↔ u = v) ?_ fun u _ => hv u) (by omega)
            (by omega)
          rw [hwrites]
          exact hv t
      | takeRead heven => omega
      | takeWrite hfree => omega
      | dropRead hpos => omega
      | dropWrite hheld hreads hwrites hword =>
          obtain rfl := (hv t).mp hheld
          refine .unwritten (forall_update (Q := fun _ (l : Thread w) => l.writes = false) hwrites ?_) (by omega)
          exact fun u hne => Bool.eq_false_of_not_eq_true fun hu => hne ((hv u).mp hu)

theorem Inv.step (h : Inv ptr start ⟨loc, x⟩) (hw : 32 ≤ w) (hptr : ∀ t, (ptr t).toNat % 8 = 0)
    (hfew : Few ⟨loc, x⟩) (hact : Act ptr t (loc t) x l' y) : Inv ptr start ⟨update loc t l', y⟩ := by
  have hseen : Seen (loc t) x := h.held.seen hptr hfew t
  refine ⟨forall_update (Q := fun _ l => Good l) (act_good hact (h.good t) hseen) fun u _ => h.good u,
    h.held.step hptr (act_effect hw (hptr t) hact (h.good t) hseen), ?_⟩
  apply forall_update (Q := fun u l => l.kpriReq = start u + BitVec.ofNat 32 (requests l))
  · have hkpri := act_requests hact (h.good t)
    have hcur : (loc t).kpriReq = start t + BitVec.ofNat 32 (requests (loc t)) := h.kpri t
    have hcomm : start t + BitVec.ofNat 32 (requests (loc t)) + BitVec.ofNat 32 (requests l') =
        start t + BitVec.ofNat 32 (requests l') + BitVec.ofNat 32 (requests (loc t)) := add_right_comm _ _ _
    rw [hcur, hcomm] at hkpri
    exact add_right_cancel hkpri
  · exact fun u _ => h.kpri u

theorem run_inv (hw : 32 ≤ w) (hptr : ∀ t, (ptr t).toNat % 8 = 0) (hinit : Initial s₀)
    (hrun : Run (Act ptr) Few s₀ s) : Inv ptr (fun t => (s₀.loc t).kpriReq) s :=
  hrun.invariant hinit.inv fun _ _ _ _ _ hinv hfew _ hact => hinv.step hw hptr hfew hact

/-- The fast path of `rw_exit` leaves the waiter bits as they are, and does not
drop the last read hold if there are any. -/
theorem Inv.fastExit (h : Inv ptr start s) (hw : 32 ≤ w) (hptr : ∀ t, (ptr t).toNat % 8 = 0) (hfew : Few s)
    (hact : Act ptr t (s.loc t) s.shared l' y) (hfast : FastExit (s.loc t).point) :
    y &&& waiters = s.shared &&& waiters ∧
      (l'.reads < (s.loc t).reads → s.shared &&& waiters ≠ 0#w → 0 < readers (update s.loc t l')) := by
  have hseen : Seen (s.loc t) s.shared := h.held.seen hptr hfew t
  have hgood := h.good t
  have htotal : readers (update s.loc t l') + (s.loc t).reads = readers s.loc + l'.reads := total_update
  have hzero : (0#w).toNat = 0 := by rw [BitVec.toNat_ofNat, Nat.zero_mod]
  have halign := hptr t
  generalize hx : s.shared = x at *
  generalize hl : s.loc t = l at *
  cases hact with
  | @readExit q n b _ new =>
      obtain ⟨hn, hnew⟩ := hgood
      obtain ⟨heven, htwo⟩ := hseen.reads hn
      have hlt := hseen.few heven
      rcases hnew with ⟨hlow, rfl⟩ | ⟨rfl, hge⟩
      · have hnat := toNat_of_single hlow
        have hsame : 0#w &&& waiters = x &&& waiters := and_waiters_congr hw (by omega)
        refine ⟨hsame, fun _ hne => absurd ?_ hne⟩
        rw [← hsame, BitVec.zero_and]
      · unfold hold at hlt htwo
        have hsub := toNat_sub_readLock hw (x := x) (by omega)
        refine ⟨and_waiters_congr hw (by omega), fun _ _ => ?_⟩
        rw [toInt_low (by omega), hsub] at hge
        cases h.held with
        | unwritten _ hhold =>
            rw [hx, hold] at hhold
            simp only at htotal
            omega
        | written u _ _ hhold =>
            have halign' := hptr u
            rw [hx] at hhold
            omega
  | readExitFails => exact ⟨rfl, fun hlt => absurd hlt (Nat.lt_irrefl _)⟩
  | writeExit =>
      refine ⟨and_waiters_congr hw ?_, fun hlt => absurd hlt (Nat.lt_irrefl _)⟩
      rw [toNat_writeLock hw halign, hzero]
      omega
  | writeExitFails => exact ⟨rfl, fun hlt => absurd hlt (Nat.lt_irrefl _)⟩
  | _ => exact False.elim hfast

theorem rwlock_holders (hw : 32 ≤ w) (hptr : ∀ t, (ptr t).toNat % 8 = 0) (hinit : Initial s₀)
    (hrun : Run (Act ptr) Few s₀ s) :
    Encodes ptr s ∧ Alone s ∧
      (∀ t l' y, Act ptr t (s.loc t) s.shared l' y → FastExit (s.loc t).point →
        y &&& waiters = s.shared &&& waiters ∧
          (l'.reads < (s.loc t).reads → s.shared &&& waiters ≠ 0#w → 0 < readers (update s.loc t l'))) ∧
      ∀ t, (s.loc t).point = .away → (s.loc t).kpriReq = (s₀.loc t).kpriReq + BitVec.ofNat 32 (s.loc t).reads := by
  have hinv := run_inv hw hptr hinit hrun
  have hfew : Few s := by
    apply hrun.last
    rw [Few, readers, total, Finset.sum_eq_zero fun t _ => hinit.reads t]
    decide
  refine ⟨hinv.encodes hw hptr hfew, hinv.alone, fun t l' y => hinv.fastExit hw hptr hfew, fun t haway => ?_⟩
  have hkpri := hinv.kpri t
  simp only [requests, haway] at hkpri
  exact hkpri

def unheld : State Bool (Thread 64) (BitVec 64) := ⟨fun _ => ⟨.away, 0#32, 0, false⟩, 0#64⟩

theorem initial_unheld : Initial unheld := ⟨rfl, fun _ => rfl, fun _ => rfl, fun _ => rfl⟩

/-- One thread enters as a reader while the other is about to try as a writer. -/
theorem rwlock_holders_reader : ∃ s, Run (Act twoThreads) Few unheld s ∧ (s.loc false).reads = 1 ∧
    (s.loc true).point = .writeEnter ∧ s.shared &&& ~~~waiters = 8#64 ∧ (s.loc false).kpriReq = 1#32 := by
  have hfew (s : State Bool (Thread 64) (BitVec 64)) (h : (s.loc false).reads ≤ 1 ∧ (s.loc true).reads = 0) : Few s := by
    rw [Few, readers, total, Fintype.sum_bool]
    omega
  have hstep {s : State Bool (Thread 64) (BitVec 64)} {l : Thread 64} {y : BitVec 64} (t : Bool)
      (hrun : Run (Act twoThreads) Few unheld s) (hact : Act twoThreads t (s.loc t) s.shared l y)
      (h : (s.loc false).reads ≤ 1 ∧ (s.loc true).reads = 0)
      (h' : (update s.loc t l false).reads ≤ 1 ∧ (update s.loc t l true).reads = 0) :
      Run (Act twoThreads) Few unheld ⟨update s.loc t l, y⟩ := hrun.tail ⟨hfew _ h, ⟨t, hact⟩, hfew _ h'⟩
  have hbegin : Run (Act twoThreads) Few unheld unheld := ReflTransGen.refl
  have hrun := hstep false (hstep false (hstep true (hstep false (hstep false hbegin .rwEnterReader (by decide)
    (by decide)) .kpriRequest (by decide) (by decide)) .rwEnterWriter (by decide) (by decide)) (.enterLoad rfl)
    (by decide) (by decide)) .readEnter (by decide) (by decide)
  obtain ⟨hencodes, -, -, hkpri⟩ := rwlock_holders (by decide) (by decide) initial_unheld hrun
  exact ⟨_, hrun, rfl, rfl, hencodes.2 (by decide), hkpri false rfl⟩

end Runs

end SysvDev.RwLock.Holders
