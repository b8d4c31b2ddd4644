import Mathlib.Algebra.BigOperators.Group.Finset.Basic
import Mathlib.Algebra.Order.BigOperators.Group.Finset
import Mathlib.Data.Fintype.Basic
import Mathlib.Logic.Relation
import SysvDev.Interleaving
import SysvDev.Sctp.ChunkSent

namespace SysvDev.Sctp.Accounting

open ChunkSent Function
open Interleaving (sum_update)

variable {M C F : Type} [DecidableEq M] [DecidableEq C] [DecidableEq F]

/-- Sent, and not marked as acked. -/
def outstanding (c : Chunk F) : Bool := isSent c && !isAcked c

/-- An acknowledgement of the chunk `c`: SCTP_CHUNK_ACKED, and what is
subtracted from `sctp_unacked` and from `suna` of its destination. -/
def ack (size : C → BitVec 32) (c : C) (s : State M C F) : State M C F :=
  { s.mark c .acked (s.chunk c).sackcnt with
    unacked := s.unacked - size c
    faddr :=
      match (s.chunk c).dest with
      | some d => update s.faddr d ((s.faddr d).take (size c))
      | none => s.faddr }

/-- Chunks are sent, acknowledged and marked for retransmission. -/
inductive Step (L : Layout M C) (size : C → BitVec 32) : State M C F → State M C F → Prop
  | send {s s' : State M C F} (mp : C) (fp : F) (h : Sends L ⟨mp, fp, size mp⟩ s s') : Step L size s s'
  | ack {s : State M C F} (c : C) (h : outstanding (s.chunk c) = true) : Step L size s (ack size c s)
  | rexmit {s : State M C F} (c : C) (sackcnt : Int) (h : isSent (s.chunk c) = true) :
      Step L size s (s.mark c .rexmit sackcnt)
  | clearRexmit {s : State M C F} (c : C) (sackcnt : Int) (h : isSent (s.chunk c) = true) :
      Step L size s (s.mark c .clearRexmit sackcnt)

section Totals

variable [Fintype C]

def unackedData (size : C → BitVec 32) (chunk : C → Chunk F) : Nat :=
  ∑ c, if outstanding (chunk c) then (size c).toNat else 0

def unsentData (size : C → BitVec 32) (chunk : C → Chunk F) : Nat :=
  ∑ c, if isSent (chunk c) then 0 else (size c).toNat

/-- Data and headers of the chunks sent and not marked acked whose destination
is `f`. -/
def sunaData (size : C → BitVec 32) (chunk : C → Chunk F) (f : F) : Nat :=
  ∑ c, if outstanding (chunk c) ∧ (chunk c).dest = some f then (size c).toNat + 16 else 0

/-- The counters are the totals, modulo 2^32, and what has been sent has a
destination. -/
structure Balanced (size : C → BitVec 32) (s : State M C F) : Prop where
  dest : ∀ c, isSent (s.chunk c) = true → ∃ d, (s.chunk c).dest = some d
  unacked : s.unacked = BitVec.ofNat 32 (unackedData size s.chunk)
  unsent : s.unsent = BitVec.ofNat 32 (unsentData size s.chunk)
  suna : ∀ f, (s.faddr f).suna = BitVec.ofNat 32 (sunaData size s.chunk f)

end Totals

section Sent

variable {L : Layout M C} {mp : C} {fp : F} {n : BitVec 32} {s s' : State M C F}

/-- What `SCTP_CHUNK_SENT` does to the counters. -/
structure Counted (mp : C) (fp : F) (n : BitVec 32) (s s' : State M C F) : Prop where
  chunk : ∃ x, s'.chunk = update s.chunk mp x ∧ isSent x = true ∧ isAcked x = false ∧ x.dest = some fp
  unacked : s'.unacked = s.unacked + if outstanding (s.chunk mp) then 0#32 else n
  unsent : s'.unsent = s.unsent - if isSent (s.chunk mp) then 0#32 else n
  suna : ∀ f, (s'.faddr f).suna =
    (s.faddr f).suna - (if outstanding (s.chunk mp) ∧ (s.chunk mp).dest = some f then n + sdcSize else 0#32) +
      if f = fp then n + sdcSize else 0#32

theorem suna_update (a : F → Faddr) (x : BitVec 32) (f : F) :
    (update a fp ⟨(a fp).suna, x⟩ f).suna = (a f).suna := by
  by_cases hf : f = fp
  · rw [hf, update_self]
  · rw [update_of_ne hf]

theorem suna_take (a : F → Faddr) (d f : F) : (update a d ((a d).take n) f).suna =
    (a f).suna - if d = f then n + sdcSize else 0#32 := by
  by_cases hf : d = f
  · simp [hf, Faddr.take]
  · simp [hf, update_of_ne (Ne.symm hf)]

theorem suna_give (a : F → Faddr) (f : F) : (update a fp ((a fp).give n) f).suna =
    (a f).suna + if f = fp then n + sdcSize else 0#32 := by
  by_cases hf : f = fp
  · simp [hf, Faddr.give]
  · simp [hf]

omit [DecidableEq M] in
theorem suna_sendAgain (f : F) : ((sendAgain mp fp n s).faddr f).suna =
    (s.faddr f).suna - if isAcked (s.chunk mp) = false ∧ (s.chunk mp).dest = some f then n + sdcSize else 0#32 := by
  simp only [sendAgain, suna_update]
  cases hacked : isAcked (s.chunk mp) with
  | true => simp
  | false =>
      cases hdest : (s.chunk mp).dest with
      | none => simp
      | some d => simp [suna_take]

theorem counted_again (hsent : isSent (s.chunk mp) = true) (tsn ltsn : BitVec 32) (ssn cntr : BitVec 16) :
    Counted mp fp n s (sent L mp fp n tsn ltsn ssn cntr s) := by
  refine ⟨?_, ?_, ?_, fun f => ?_⟩
  · refine ⟨⟨(s.chunk mp).flag &&& ~~~(flagRexmit ||| flagAcked), some fp, 0, (s.chunk mp).sdhFlags, (s.chunk mp).tsn,
      (s.chunk mp).ssn⟩, ?_, ?_, ?_, rfl⟩
    · simp only [sent, hsent, if_true, chunk_sendAgain, update_self, update_idem]
    · rw [isSent, and_flagSent]
      exact hsent
    · rw [isAcked, BitVec.and_assoc]
      exact congrArg (· != 0#16) BitVec.and_zero
  · simp only [sent, hsent, if_true, sendAgain, outstanding, Bool.true_and]
    cases isAcked (s.chunk mp) with
    | true => rfl
    | false => cases (s.chunk mp).dest <;> simp
  · simp only [sent, hsent, if_true, sendAgain]
    cases isAcked (s.chunk mp) with
    | true => simp
    | false => cases (s.chunk mp).dest <;> simp
  · simp only [sent, hsent, if_true, suna_give, suna_sendAgain, outstanding, Bool.true_and, Bool.not_eq_true']

omit [DecidableEq F] in
theorem sendNew_counts (L : Layout M C) (mp : C) (n : BitVec 32) (s : State M C F) (tsn ltsn : BitVec 32)
    (ssn cntr : BitVec 16) :
    (sendNew L mp n tsn ltsn ssn cntr s).faddr = s.faddr ∧
      ∃ x, (sendNew L mp n tsn ltsn ssn cntr s).chunk = update s.chunk mp x ∧ x.flag = flagSent := by
  simp only [sendNew]
  split
  · exact ⟨rfl, _, rfl, rfl⟩
  · split
    · exact ⟨rfl, _, rfl, rfl⟩
    · exact ⟨rfl, _, rfl, rfl⟩

theorem counted_new (hsent : isSent (s.chunk mp) = false) (tsn ltsn : BitVec 32) (ssn cntr : BitVec 16) :
    Counted mp fp n s (sent L mp fp n tsn ltsn ssn cntr s) := by
  obtain ⟨hfaddr, x, hchunk, hflag⟩ := sendNew_counts L mp n s tsn ltsn ssn cntr
  have hout : outstanding (s.chunk mp) = false := by
    rw [outstanding, hsent, Bool.false_and]
  refine ⟨⟨{ x with dest := some fp }, ?_, ?_, ?_, rfl⟩, ?_, ?_, fun f => ?_⟩
  · simp only [sent, hsent, Bool.false_eq_true, if_false, hchunk, update_self, update_idem]
  · simp [isSent, hflag]
  · simp only [isAcked, hflag]
    decide
  · simp [sent, hsent, hout, sendNew]
  · simp [sent, hsent, sendNew]
  · simp [sent, hsent, hout, hfaddr, suna_give]

theorem Sends.counted (h : Sends L ⟨mp, fp, n⟩ s s') : Counted mp fp n s s' := by
  obtain ⟨tsn, ltsn, ssn, cntr, -, -, rfl⟩ := h
  cases hsent : isSent (s.chunk mp) with
  | true => exact counted_again hsent tsn ltsn ssn cntr
  | false => exact counted_new hsent tsn ltsn ssn cntr

end Sent

section Balance

variable [Fintype C] {L : Layout M C} {size : C → BitVec 32} {c : C} {x : Chunk F} {s s' : State M C F}

theorem ofNat_sum {S S' a b : Nat} {v v' : BitVec 32} (hsum : S' + a = S + b) (hv : v = BitVec.ofNat 32 S)
    (hv' : v' + BitVec.ofNat 32 a = v + BitVec.ofNat 32 b) : v' = BitVec.ofNat 32 S' := by
  rw [hv, ← BitVec.ofNat_add, ← hsum, BitVec.ofNat_add] at hv'
  exact (BitVec.add_left_inj _).mp hv'

omit [DecidableEq M] in
/-- A step that changes one chunk changes the counters by what the chunk counts. -/
theorem balanced_update (h : Balanced size s) (hchunk : s'.chunk = update s.chunk c x)
    (hdest : isSent x = true → ∃ d, x.dest = some d)
    (hunacked : s'.unacked + (if outstanding (s.chunk c) then size c else 0#32) =
      s.unacked + if outstanding x then size c else 0#32)
    (hunsent : s'.unsent + (if isSent (s.chunk c) then 0#32 else size c) =
      s.unsent + if isSent x then 0#32 else size c)
    (hsuna : ∀ f, (s'.faddr f).suna +
        (if outstanding (s.chunk c) ∧ (s.chunk c).dest = some f then size c + sdcSize else 0#32) =
      (s.faddr f).suna + if outstanding x ∧ x.dest = some f then size c + sdcSize else 0#32) :
    Balanced size s' where
  dest i hi := by
    rw [hchunk] at hi ⊢
    by_cases hic : i = c
    · rw [hic, update_self] at hi ⊢
      exact hdest hi
    · rw [update_of_ne hic] at hi ⊢
      exact h.dest i hi
  unacked := by
    rw [unackedData, hchunk]
    refine ofNat_sum (sum_update (fun c x => if outstanding x then (size c).toNat else 0) s.chunk c x) h.unacked ?_
    simpa [apply_ite (BitVec.ofNat 32)] using hunacked
  unsent := by
    rw [unsentData, hchunk]
    refine ofNat_sum (sum_update (fun c x => if isSent x then 0 else (size c).toNat) s.chunk c x) h.unsent ?_
    simpa [apply_ite (BitVec.ofNat 32)] using hunsent
  suna f := by
    rw [sunaData, hchunk]
    refine ofNat_sum (sum_update (fun c x => if outstanding x ∧ x.dest = some f then (size c).toNat + 16 else 0)
      s.chunk c x) (h.suna f) ?_
    simpa [apply_ite (BitVec.ofNat 32), BitVec.ofNat_add] using hsuna f

theorem balanced_send {fp : F} (h : Balanced size s) (hs : Sends L ⟨c, fp, size c⟩ s s') : Balanced size s' := by
  obtain ⟨⟨x, hchunk, hsent, hacked, hdest⟩, hunacked, hunsent, hsuna⟩ := Sends.counted hs
  have hout : outstanding x = true := by
    rw [outstanding, hsent, hacked]
    rfl
  refine balanced_update h hchunk (fun _ => ⟨fp, hdest⟩) ?_ ?_ fun f => ?_
  · rw [hunacked, hout]
    cases outstanding (s.chunk c) <;> simp
  · rw [hunsent, hsent]
    simp
  · have hq : (if f = fp then size c + sdcSize else 0#32) =
        if outstanding x ∧ x.dest = some f then size c + sdcSize else 0#32 := by
      simp [hout, hdest, eq_comm]
    rw [hsuna, hq, BitVec.add_assoc, BitVec.add_comm (if outstanding x ∧ _ then _ else _), ← BitVec.add_assoc,
      BitVec.sub_add_cancel]

omit [DecidableEq F] in
theorem acked_flags {y : Chunk F} (h : y.flag = flagSent ||| flagAcked) : outstanding y = false ∧ isSent y = true := by
  rw [outstanding, isSent, isAcked, h]
  decide

omit [DecidableEq M] in
theorem balanced_ack (h : Balanced size s) (hc : outstanding (s.chunk c) = true) : Balanced size (ack size c s) := by
  have hsent : isSent (s.chunk c) = true := (Bool.and_eq_true_iff.mp hc).1
  obtain ⟨d, hd⟩ := h.dest c hsent
  obtain ⟨hnot, hstill⟩ :=
    acked_flags (rfl : ({ s.chunk c with flag := Mark.acked.apply (s.chunk c).flag } : Chunk F).flag = _)
  refine balanced_update h (c := c) rfl (fun _ => ⟨d, hd⟩) ?_ ?_ fun f => ?_
  · rw [hc, hnot]
    simp [Accounting.ack]
  · rw [hsent, hstill]
    rfl
  · rw [hc, hnot, hd]
    simp [Accounting.ack, hd, suna_take]

omit [DecidableEq M] in
theorem balanced_mark {m : Mark} {sackcnt : Int} (h : Balanced size s) (hc : isSent (s.chunk c) = true)
    (hsent : m.apply (s.chunk c).flag &&& flagSent = (s.chunk c).flag &&& flagSent)
    (hacked : m.apply (s.chunk c).flag &&& flagAcked = (s.chunk c).flag &&& flagAcked) :
    Balanced size (s.mark c m sackcnt) := by
  have hs : isSent { s.chunk c with flag := m.apply (s.chunk c).flag, sackcnt } = isSent (s.chunk c) := by
    rw [isSent, hsent, isSent]
  have ha : isAcked { s.chunk c with flag := m.apply (s.chunk c).flag, sackcnt } = isAcked (s.chunk c) := by
    rw [isAcked, hacked, isAcked]
  have ho : outstanding { s.chunk c with flag := m.apply (s.chunk c).flag, sackcnt } = outstanding (s.chunk c) := by
    rw [outstanding, hs, ha, outstanding]
  refine balanced_update h (c := c) rfl (fun _ => h.dest c hc) ?_ ?_ fun f => ?_
  · rw [ho]
    rfl
  · rw [hs]
    rfl
  · rw [ho]
    rfl

theorem rexmit_and {flag k : BitVec 16} (hk : k &&& flagRexmit = 0#16) :
    Mark.rexmit.apply flag &&& k = flag &&& k := by
  rw [Mark.apply, BitVec.and_comm, BitVec.and_or_distrib_left, hk, BitVec.or_zero, BitVec.and_comm]

theorem clearRexmit_and {flag k : BitVec 16} (hk : ~~~flagRexmit &&& k = k) :
    Mark.clearRexmit.apply flag &&& k = flag &&& k := by
  rw [Mark.apply, BitVec.and_assoc, hk]

theorem Step.balanced (hstep : Step L size s s') (h : Balanced size s) : Balanced size s' := by
  cases hstep with
  | send mp fp hs => exact balanced_send h hs
  | ack c hc => exact balanced_ack h hc
  | rexmit c sackcnt hc => exact balanced_mark h hc (rexmit_and (by decide)) (rexmit_and (by decide))
  | clearRexmit c sackcnt hc => exact balanced_mark h hc (clearRexmit_and (by decide)) (clearRexmit_and (by decide))

structure Initial (size : C → BitVec 32) (s : State M C F) : Prop where
  unsentChunks : ∀ c, isSent (s.chunk c) = false
  unacked : s.unacked = 0#32
  unsent : s.unsent = BitVec.ofNat 32 (∑ c, (size c).toNat)
  suna : ∀ f, (s.faddr f).suna = 0#32

omit [DecidableEq M] [DecidableEq C] in
theorem Initial.balanced (h : Initial size s) : Balanced size s where
  dest c hc := absurd (hc.symm.trans (h.unsentChunks c)) (Bool.false_ne_true ∘ Eq.symm)
  unacked := by simp [unackedData, outstanding, h.unsentChunks, h.unacked]
  unsent := by simp [unsentData, h.unsentChunks, h.unsent]
  suna f := by simp [sunaData, outstanding, h.unsentChunks, h.suna]

omit [DecidableEq M] [DecidableEq C] in
theorem le_sunaData {f : F} (hc : outstanding (s.chunk c) = true) (hd : (s.chunk c).dest = some f) :
    (size c).toNat + 16 ≤ sunaData size s.chunk f := by
  have hle := Finset.single_le_sum (s := Finset.univ)
    (f := fun c => if outstanding (s.chunk c) ∧ (s.chunk c).dest = some f then (size c).toNat + 16 else 0)
    (fun _ _ => Nat.zero_le _) (Finset.mem_univ c)
  rwa [if_pos ⟨hc, hd⟩] at hle

/-- `sctp_unacked`, `sctp_unsent` and every `suna` are the totals that they stand
for, and the assertion in SCTP_CHUNK_SENT holds. -/
theorem sctp_accounting {s₀ : State M C F} (h₀ : Initial size s₀) (h : Relation.ReflTransGen (Step L size) s₀ s) :
    (unackedData size s.chunk < 2 ^ 31 → s.unacked.toInt = unackedData size s.chunk) ∧
    (unsentData size s.chunk < 2 ^ 31 → s.unsent.toInt = unsentData size s.chunk) ∧
    (∀ f, sunaData size s.chunk f < 2 ^ 31 → (s.faddr f).suna.toNat = sunaData size s.chunk f) ∧
    ∀ c, outstanding (s.chunk c) = true → ∃ d, (s.chunk c).dest = some d ∧
      (sunaData size s.chunk d < 2 ^ 31 → (size c).toNat + 16 ≤ (s.faddr d).suna.toNat) := by
  have hb : Balanced size s := by
    induction h with
    | refl => exact h₀.balanced
    | tail _ hstep ih => exact hstep.balanced ih
  have hnat {n : Nat} (hn : n < 2 ^ 31) : (BitVec.ofNat 32 n).toNat = n := by
    rw [BitVec.toNat_ofNat, Nat.mod_eq_of_lt (by omega)]
  have hint {n : Nat} (hn : n < 2 ^ 31) : (BitVec.ofNat 32 n).toInt = n := by
    rw [BitVec.toInt_eq_toNat_of_lt (by rw [hnat hn]; omega), hnat hn]
  have hsuna (f : F) (hf : sunaData size s.chunk f < 2 ^ 31) : (s.faddr f).suna.toNat = sunaData size s.chunk f := by
    rw [hb.suna, hnat hf]
  refine ⟨fun hn => ?_, fun hn => ?_, hsuna, fun c hc => ?_⟩
  · rw [hb.unacked, hint hn]
  · rw [hb.unsent, hint hn]
  · obtain ⟨d, hd⟩ := hb.dest c (Bool.and_eq_true_iff.mp hc).1
    refine ⟨d, hd, fun hn => ?_⟩
    rw [hsuna d hn]
    exact le_sunaData hc hd

end Balance

section Sample

def layout : Layout Unit Bool := ⟨fun _ => (), fun _ => true, fun _ => 0#16, fun _ => 0#16, fun _ => rfl⟩

def sizes (c : Bool) : BitVec 32 := if c then 100#32 else 200#32

def fresh : State Unit Bool Bool :=
  ⟨1#32, fun _ => 0#16, 0#64, 0#64, 0#64, 0#32, 0#32, 300#32, 1000#32, fun _ => ⟨0#16, none, 0, 0#8, 0#32, 0#16⟩,
    fun _ => 0#16, fun _ => ⟨0#32, 0#32⟩⟩

theorem initial_fresh : Initial sizes fresh := ⟨by decide, rfl, by decide, fun _ => rfl⟩

/-- Two chunks are sent, the first is acknowledged and the second is sent again
to the other destination. -/
theorem sctp_accounting_resent : ∃ s, Relation.ReflTransGen (Step layout sizes) fresh s ∧ s.unacked.toInt = 200 ∧
    s.unsent.toInt = 0 ∧ (s.faddr true).suna.toNat = 0 ∧ (s.faddr false).suna.toNat = 216 := by
  obtain ⟨s₁, h₁, -⟩ := exists_sends layout ⟨true, true, 100#32⟩ fresh
  obtain ⟨s₂, h₂, -⟩ := exists_sends layout ⟨false, true, 200#32⟩ s₁
  obtain ⟨s, h₃, -⟩ := exists_sends layout ⟨false, false, 200#32⟩ (ack sizes true s₂)
  obtain ⟨⟨x, hx, hsent, hacked, -⟩, -, -, -⟩ := Sends.counted h₁
  obtain ⟨⟨y, hy, -⟩, -, -, -⟩ := Sends.counted h₂
  obtain ⟨⟨z, hz, hsent', hacked', hdest'⟩, -, -, -⟩ := Sends.counted h₃
  have hfirst : s₂.chunk true = x := by rw [hy, hx]; rfl
  have hout : outstanding (s₂.chunk true) = true := by
    rw [hfirst, outstanding, hsent, hacked]
    rfl
  have hrun : Relation.ReflTransGen (Step layout sizes) fresh s :=
    .head (.send true true h₁) (.head (.send false true h₂) (.head (.ack true hout) (.single (.send false false h₃))))
  have htrue : outstanding (s.chunk true) = false ∧ isSent (s.chunk true) = true := by
    rw [hz, update_of_ne (by decide)]
    apply acked_flags
    simp [Accounting.ack, State.mark, Mark.apply]
  have hfalse : s.chunk false = z := by rw [hz, update_self]
  have hout' : outstanding z = true := by
    rw [outstanding, hsent', hacked']
    rfl
  have hunacked : unackedData sizes s.chunk = 200 := by simp [unackedData, htrue, hfalse, hout', sizes]
  have hunsent : unsentData sizes s.chunk = 0 := by simp [unsentData, htrue, hfalse, hsent']
  have hsuna (f : Bool) : sunaData sizes s.chunk f = if f then 0 else 216 := by
    cases f <;> simp [sunaData, htrue, hfalse, hout', hdest', sizes]
  obtain ⟨h₁, h₂, h₃, -⟩ := sctp_accounting initial_fresh hrun
  refine ⟨s, hrun, ?_, ?_, ?_, ?_⟩
  · rw [h₁ (by rw [hunacked]; decide), hunacked]
    rfl
  · rw [h₂ (by rw [hunsent]; decide), hunsent]
    rfl
  · rw [h₃ true (by rw [hsuna]; decide), hsuna]
    rfl
  · rw [h₃ false (by rw [hsuna]; decide), hsuna]
    rfl

end Sample

end SysvDev.Sctp.Accounting
