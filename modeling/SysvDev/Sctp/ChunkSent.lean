import SysvDev.ByteOrder.Macros

namespace SysvDev.Sctp.ChunkSent

open CExpr ByteOrder.Macros X86.Machine Function

variable {M C F : Type} [DecidableEq M] [DecidableEq C] [DecidableEq F]

/-- The messages and their chunks. `first` is `(meta)->b_cont`, and `flags` and
`sid` are `smh_flags` and `smh_sid` of the message header. -/
structure Layout (M C : Type) where
  msg : C → M
  first : M → C
  flags : M → BitVec 16
  sid : M → BitVec 16
  msg_first : ∀ m, msg (first m) = m

/-- What is used of the mblk of a chunk and of its data header: `b_flag`, the
destination in `b_queue`, the count of SACKs in `b_prev`, and the header. -/
structure Chunk (F : Type) where
  flag : BitVec 16
  dest : Option F
  sackcnt : Int
  sdhFlags : BitVec 8
  tsn : BitVec 32
  ssn : BitVec 16

structure Faddr where
  suna : BitVec 32
  t3expire : BitVec 32

structure State (M C F : Type) where
  ltsn : BitVec 32
  ostrcntrs : BitVec 16 → BitVec 16
  odchunks : BitVec 64
  oudchunks : BitVec 64
  rxtchunks : BitVec 64
  t3expire : BitVec 32
  unacked : BitVec 32
  unsent : BitVec 32
  frwnd : BitVec 32
  chunk : C → Chunk F
  smhSsn : M → BitVec 16
  faddr : F → Faddr

abbrev flagSent : BitVec 16 := 0x01#16

abbrev flagRexmit : BitVec 16 := 0x02#16

abbrev flagAcked : BitVec 16 := 0x04#16

abbrev msgUnordered : BitVec 16 := 0x01#16

abbrev ubit : BitVec 8 := 0x04#8

abbrev sdcSize : BitVec 32 := 16#32

def isSent (c : Chunk F) : Bool := c.flag &&& flagSent != 0#16

def isAcked (c : Chunk F) : Bool := c.flag &&& flagAcked != 0#16

def isUnordered (L : Layout M C) (m : M) : Bool := L.flags m &&& msgUnordered != 0#16

/-- A chunk that is sent for the first time. What the two calls of the byte
order macros give and leave behind comes from outside. -/
def sendNew (L : Layout M C) (mp : C) (chunkdata tsn ltsn : BitVec 32) (ssn cntr : BitVec 16) (s : State M C F) :
    State M C F :=
  let m := L.msg mp
  let c := s.chunk mp
  let s₁ : State M C F :=
    if isUnordered L m then
      { s with
        oudchunks := s.oudchunks + 1
        chunk := update s.chunk mp { c with flag := flagSent, tsn, ssn := 0#16, sdhFlags := c.sdhFlags ||| ubit } }
    else if mp = L.first m then
      { s with
        odchunks := s.odchunks + 1
        ostrcntrs := update s.ostrcntrs (L.sid m) cntr
        smhSsn := update s.smhSsn m ssn
        chunk := update s.chunk mp { c with flag := flagSent, tsn, ssn } }
    else
      { s with
        odchunks := s.odchunks + 1
        chunk := update s.chunk mp { c with flag := flagSent, tsn, ssn := s.smhSsn m } }
  { s₁ with
    ltsn
    unacked := s.unacked + chunkdata
    unsent := s.unsent - chunkdata
    frwnd := s.frwnd - chunkdata }

def Faddr.take (chunkdata : BitVec 32) (a : Faddr) : Faddr := { a with suna := a.suna - (chunkdata + sdcSize) }

def Faddr.give (chunkdata : BitVec 32) (a : Faddr) : Faddr := { a with suna := a.suna + (chunkdata + sdcSize) }

def sendAgain (mp : C) (fp : F) (chunkdata : BitVec 32) (s : State M C F) : State M C F :=
  let c := s.chunk mp
  let s₁ : State M C F :=
    if isAcked c then { s with unacked := s.unacked + chunkdata }
    else
      match c.dest with
      | some d => { s with faddr := update s.faddr d ((s.faddr d).take chunkdata) }
      | none => s
  { s₁ with
    rxtchunks := s.rxtchunks + 1
    t3expire := s.t3expire + 1
    chunk := update s.chunk mp { c with flag := c.flag &&& ~~~(flagRexmit ||| flagAcked), sackcnt := 0 }
    faddr := update s₁.faddr fp { s₁.faddr fp with t3expire := (s₁.faddr fp).t3expire + 1 } }

/-- SCTP_CHUNK_SENT, for given results of the byte order macros. -/
def sent (L : Layout M C) (mp : C) (fp : F) (chunkdata tsn ltsn : BitVec 32) (ssn cntr : BitVec 16) (s : State M C F) :
    State M C F :=
  let s₁ := if isSent (s.chunk mp) then sendAgain mp fp chunkdata s else sendNew L mp chunkdata tsn ltsn ssn cntr s
  { s₁ with
    chunk := update s₁.chunk mp { s₁.chunk mp with dest := some fp }
    faddr := update s₁.faddr fp ((s₁.faddr fp).give chunkdata) }

/-- `sctp_ltsn++` -/
def nextTsn (t : BitVec 32) : Val × BitVec 32 := (⟨.u32, t⟩, t + 1#32)

/-- `sctp_ostrcntrs[smh_sid]++` -/
def nextSsn (c : BitVec 16) : Val × BitVec 16 := (⟨.u16, c⟩, c + 1#16)

/-- htonl of the next TSN, with htonl read as `BSWAP_32` -/
def Htonl (t v t' : BitVec 32) : Prop :=
  ∃ e k x, denotes .bswap32 = some e ∧ Evals nextTsn e t k x t' ∧ v = x.conv .u32

def Htons (c v c' : BitVec 16) : Prop :=
  ∃ e k x, denotes .htons = some e ∧ Evals nextSsn e c k x c' ∧ v = x.conv .u16

structure Call (C F : Type) where
  mp : C
  fp : F
  chunkdata : BitVec 32

def Sends (L : Layout M C) (call : Call C F) (s s' : State M C F) : Prop :=
  ∃ tsn ltsn ssn cntr, Htonl s.ltsn tsn ltsn ∧ Htons (s.ostrcntrs (L.sid (L.msg call.mp))) ssn cntr ∧
    s' = sent L call.mp call.fp call.chunkdata tsn ltsn ssn cntr s

/-- SCTP_CHUNK_REXMIT, SCTP_CHUNK_CLEAR_REXMIT, SCTP_CHUNK_ACKED and
SCTP_CHUNK_CLEAR_ACKED -/
inductive Mark
  | rexmit
  | clearRexmit
  | acked
  | clearAcked

def Mark.apply (flag : BitVec 16) : Mark → BitVec 16
  | rexmit => flag ||| flagRexmit
  | clearRexmit => flag &&& ~~~flagRexmit
  | acked => flagSent ||| flagAcked
  | clearAcked => flag &&& ~~~flagAcked

/-- A chunk that has been sent is marked, and its SACKs are counted. -/
def State.mark (s : State M C F) (c : C) (m : Mark) (sackcnt : Int) : State M C F :=
  { s with chunk := update s.chunk c { s.chunk c with flag := m.apply (s.chunk c).flag, sackcnt } }

/-- A history of calls. Between the calls, chunks that have been sent are marked. -/
inductive Run (L : Layout M C) : State M C F → List (Call C F) → State M C F → Prop
  | nil (s : State M C F) : Run L s [] s
  | mark {calls : List (Call C F)} {s s' : State M C F} (c : C) (m : Mark) (sackcnt : Int)
      (hc : isSent (s.chunk c) = true) (hrest : Run L (s.mark c m sackcnt) calls s') : Run L s calls s'
  | cons {call : Call C F} {calls : List (Call C F)} {s s₁ s₂ : State M C F} (h : Sends L call s s₁)
      (hrest : Run L s₁ calls s₂) : Run L s (call :: calls) s₂

def firsts (seen : List C) : List C → List C
  | [] => []
  | c :: cs => if c ∈ seen then firsts seen cs else c :: firsts (c :: seen) cs

/-- The first chunk of a message is sent before its other chunks. -/
def Valid (L : Layout M C) (calls : List (Call C F)) : Prop :=
  ∀ before call after, calls = before ++ call :: after →
    call.mp = L.first (L.msg call.mp) ∨ L.first (L.msg call.mp) ∈ before.map Call.mp

/-- The `n`-th new chunk carries the `n`-th TSN. -/
def Tsns (s : State M C F) (calls : List (Call C F)) (s' : State M C F) : Prop :=
  ∀ n c, (firsts [] (calls.map Call.mp))[n]? = some c → (s'.chunk c).tsn = reverseBytes (s.ltsn + BitVec.ofNat 32 n)

/-- A chunk that has been sent keeps its numbers, through every retransmission. -/
def Kept (L : Layout M C) (s : State M C F) (calls : List (Call C F)) (s' : State M C F) : Prop :=
  ∀ before after s₁, calls = before ++ after → Run L s before s₁ → Run L s₁ after s' → ∀ call ∈ before,
    (s'.chunk call.mp).tsn = (s₁.chunk call.mp).tsn ∧ (s'.chunk call.mp).ssn = (s₁.chunk call.mp).ssn

/-- The `n`-th ordered message of a stream carries its `n`-th SSN. -/
def Ssns (L : Layout M C) (s : State M C F) (calls : List (Call C F)) (s' : State M C F) : Prop :=
  ∀ sid n c, ((firsts [] (calls.map Call.mp)).filter fun c => decide (c = L.first (L.msg c)) &&
      !isUnordered L (L.msg c) && decide (L.sid (L.msg c) = sid))[n]? = some c →
    (s'.chunk c).ssn = reverse16 (s.ostrcntrs sid + BitVec.ofNat 16 n)

def OneSsn (L : Layout M C) (calls : List (Call C F)) (s' : State M C F) : Prop :=
  ∀ call ∈ calls, isUnordered L (L.msg call.mp) = false →
    (s'.chunk call.mp).ssn = (s'.chunk (L.first (L.msg call.mp))).ssn

structure Right (L : Layout M C) (s : State M C F) (calls : List (Call C F)) (s' : State M C F) : Prop where
  tsns : Tsns s calls s'
  kept : Kept L s calls s'
  ssns : Ssns L s calls s'
  oneSsn : OneSsn L calls s'

section Values

variable {t v t' : BitVec 32}

theorem iterate_nextTsn (n : Nat) (t : BitVec 32) : (fun t => (nextTsn t).2)^[n] t = t + BitVec.ofNat 32 n := by
  induction n with
  | zero => exact (BitVec.add_zero t).symm
  | succ n ih => rw [iterate_succ_apply', ih, BitVec.ofNat_add, ← BitVec.add_assoc]; rfl

/-- The bytes of the TSN come from four values of the counter. -/
theorem feed_swap32 (a b c d : BitVec 32) :
    (swap32 .arg).feed [⟨.u32, a⟩, ⟨.u32, b⟩, ⟨.u32, c⟩, ⟨.u32, d⟩] =
      (⟨.u32, ((a &&& 255#32) <<< 8 ||| b >>> 8 &&& 255#32) <<< 16 |||
        ((c >>> 16 &&& 255#32) <<< 8 ||| d >>> 16 >>> 8 &&& 255#32)⟩, []) := by
  simp only [swap32, swap16, swapHalves, swap8, Expr.feed, and_u32, shr_u32, shl_u32, or_u32]
  rfl

/-- The first byte of the TSN is the low byte of the first of them. -/
theorem first_byte {a b c d y : BitVec 32}
    (h : ((a &&& 255#32) <<< 8 ||| b >>> 8 &&& 255#32) <<< 16 |||
      ((c >>> 16 &&& 255#32) <<< 8 ||| d >>> 16 >>> 8 &&& 255#32) = reverseBytes y) :
    a.toNat % 256 = y.toNat % 256 := by
  have hbyte : a.setWidth 8 = y.setWidth 8 := by
    apply BitVec.eq_of_getLsbD_eq
    intro i hi
    have hbit := congrArg (·.getLsbD (24 + i)) h
    simp only [getLsbD_reverseBytes y (show 24 + i < 32 by omega)] at hbit
    rw [BitVec.getLsbD_setWidth, BitVec.getLsbD_setWidth, decide_eq_true hi, Bool.true_and, Bool.true_and]
    interval_cases i <;> simpa using hbit
  simpa using congrArg BitVec.toNat hbyte

theorem Htonl.counter (h : Htonl t v t') : t' = t + 4#32 := by
  obtain ⟨e, k, x, he, hevals, _⟩ := h
  obtain rfl := Option.some.inj (denotes_bswap32.symm.trans he)
  rw [hevals.state, iterate_nextTsn]
  rfl

theorem Htonl.low_byte (h : Htonl t v t') {y : BitVec 32} (hy : v = reverseBytes y) :
    ∃ i < 4, (t + BitVec.ofNat 32 i).toNat % 256 = y.toNat % 256 := by
  obtain ⟨e, k, x, he, hevals, rfl⟩ := h
  obtain rfl := Option.some.inj (denotes_bswap32.symm.trans he)
  obtain ⟨xs, hlen, hfeed, hmem⟩ := hevals.feed
  have hval (x : Val) (hx : x ∈ xs) : ∃ i < 4, x = ⟨.u32, t + BitVec.ofNat 32 i⟩ := by
    obtain ⟨i, hi, rfl⟩ := hmem x hx
    exact ⟨i, hi, congrArg (fun t => (nextTsn t).1) (iterate_nextTsn i t)⟩
  match xs, hlen with
  | [x₁, x₂, x₃, x₄], _ =>
      obtain ⟨i, hi, rfl⟩ := hval x₁ (by simp)
      obtain ⟨j, _, rfl⟩ := hval x₂ (by simp)
      obtain ⟨k, _, rfl⟩ := hval x₃ (by simp)
      obtain ⟨l, _, rfl⟩ := hval x₄ (by simp)
      have hx := hfeed []
      rw [List.append_nil, feed_swap32] at hx
      obtain rfl := (Prod.mk.inj hx).1
      exact ⟨i, hi, first_byte ((conv_u32 _).symm.trans hy)⟩

/-- If the right operands are evaluated first, the first byte is that of the
last value. -/
theorem exists_htonl (t : BitVec 32) : ∃ v t', Htonl t v t' ∧
    ∀ y, v = reverseBytes y → (t + 3#32).toNat % 256 = y.toNat % 256 := by
  refine ⟨_, _, ⟨_, _, _, denotes_bswap32, evals_evalRight nextTsn _ t, rfl⟩, fun y hy => ?_⟩
  have hval : (swap32 .arg).evalRight nextTsn t = (⟨.u32, (((t + 3#32) &&& 255#32) <<< 8 ||| (t + 2#32) >>> 8 &&& 255#32) <<< 16
      ||| (((t + 1#32) >>> 16 &&& 255#32) <<< 8 ||| t >>> 16 >>> 8 &&& 255#32)⟩, t + 4#32) := by
    have hadd (i j : Nat) : t + BitVec.ofNat 32 i + BitVec.ofNat 32 j = t + BitVec.ofNat 32 (i + j) := by
      rw [BitVec.ofNat_add, BitVec.add_assoc]
    simp only [swap32, swap16, swapHalves, swap8, Expr.evalRight, nextTsn, and_u32, shr_u32, shl_u32, or_u32, hadd]
    rfl
  rw [hval] at hy
  exact first_byte ((conv_u32 _).symm.trans hy)

theorem exists_htons (c : BitVec 16) : ∃ v c', Htons c v c' := by
  obtain ⟨k, x, c', h⟩ := exists_evals nextSsn (swap16 .arg) c
  exact ⟨_, c', _, k, x, denotes_htons, h, rfl⟩

end Values

section Steps

variable {L : Layout M C} {call : Call C F} {s s' : State M C F} {c : C} {seen : List C}

structure Again (s s' : State M C F) : Prop where
  ltsn : s'.ltsn = s.ltsn
  smhSsn : s'.smhSsn = s.smhSsn
  tsn : ∀ c, (s'.chunk c).tsn = (s.chunk c).tsn
  ssn : ∀ c, (s'.chunk c).ssn = (s.chunk c).ssn
  isSent : ∀ c, isSent (s'.chunk c) = isSent (s.chunk c)

structure New (L : Layout M C) (mp : C) (s s' : State M C F) : Prop where
  tsn : Htonl s.ltsn (s'.chunk mp).tsn s'.ltsn
  isSent : isSent (s'.chunk mp) = true
  others : ∀ c, c ≠ mp → s'.chunk c = s.chunk c
  ssn : isUnordered L (L.msg mp) = false → (s'.chunk mp).ssn = s'.smhSsn (L.msg mp)
  smhSsn : ∀ m, mp ≠ L.first m → s'.smhSsn m = s.smhSsn m

omit [DecidableEq M] in
theorem chunk_sendAgain (mp : C) (fp : F) (chunkdata : BitVec 32) (s : State M C F) :
    (sendAgain mp fp chunkdata s).chunk =
      update s.chunk mp { s.chunk mp with flag := (s.chunk mp).flag &&& ~~~(flagRexmit ||| flagAcked), sackcnt := 0 } := rfl

omit [DecidableEq M] in
theorem sendAgain_ltsn (mp : C) (fp : F) (chunkdata : BitVec 32) (s : State M C F) :
    (sendAgain mp fp chunkdata s).ltsn = s.ltsn ∧ (sendAgain mp fp chunkdata s).smhSsn = s.smhSsn := by
  simp only [sendAgain]
  split
  · exact ⟨rfl, rfl⟩
  · split <;> exact ⟨rfl, rfl⟩

theorem and_flagSent (x : BitVec 16) : x &&& ~~~(flagRexmit ||| flagAcked) &&& flagSent = x &&& flagSent := by
  rw [BitVec.and_assoc]
  rfl

theorem Sends.again (h : Sends L call s s') (hsent : isSent (s.chunk call.mp) = true) : Again s s' := by
  obtain ⟨tsn, ltsn, ssn, cntr, _, _, rfl⟩ := h
  have hfields := sendAgain_ltsn call.mp call.fp call.chunkdata s
  have hchunk (c : C) : (sent L call.mp call.fp call.chunkdata tsn ltsn ssn cntr s).chunk c =
      if c = call.mp then ⟨(s.chunk call.mp).flag &&& ~~~(flagRexmit ||| flagAcked), some call.fp, 0,
        (s.chunk call.mp).sdhFlags, (s.chunk call.mp).tsn, (s.chunk call.mp).ssn⟩ else s.chunk c := by
    simp only [sent, hsent, if_true, chunk_sendAgain, update_self, update_idem, update_apply]
  refine ⟨?_, ?_, fun c => ?_, fun c => ?_, fun c => ?_⟩
  · simp only [sent, hsent, if_true, hfields.1]
  · simp only [sent, hsent, if_true, hfields.2]
  all_goals
    rw [hchunk]
    split
    next heq => simp only [heq, isSent, and_flagSent]
    next => rfl

theorem Sends.new (h : Sends L call s s') (hsent : isSent (s.chunk call.mp) = false) : New L call.mp s s' := by
  obtain ⟨tsn, ltsn, ssn, cntr, htsn, _, rfl⟩ := h
  have hs : sent L call.mp call.fp call.chunkdata tsn ltsn ssn cntr s =
      let s₁ := sendNew L call.mp call.chunkdata tsn ltsn ssn cntr s
      { s₁ with
        chunk := update s₁.chunk call.mp { s₁.chunk call.mp with dest := some call.fp }
        faddr := update s₁.faddr call.fp ((s₁.faddr call.fp).give call.chunkdata) } := by
    simp only [sent, hsent, Bool.false_eq_true, if_false]
  rw [hs]
  simp only [sendNew]
  split
  next hun =>
    refine ⟨?_, ?_, fun c hc => ?_, fun hord => ?_, fun m _ => rfl⟩
    · simpa [update_self] using htsn
    · simp [isSent, update_self]
    · simp [update_of_ne hc]
    · rw [hun] at hord
      cases hord
  next =>
    split
    next hfirst =>
      refine ⟨?_, ?_, fun c hc => ?_, fun _ => ?_, fun m hm => ?_⟩
      · simpa [update_self] using htsn
      · simp [isSent, update_self]
      · simp [update_of_ne hc]
      · simp [update_self]
      · apply update_of_ne
        rintro rfl
        exact hm hfirst
    next =>
      refine ⟨?_, ?_, fun c hc => ?_, fun _ => ?_, fun m _ => rfl⟩
      · simpa [update_self] using htsn
      · simp [isSent, update_self]
      · simp [update_of_ne hc]
      · simp [update_self]

omit [DecidableEq M] [DecidableEq F] in
theorem State.mark_again (s : State M C F) (m : Mark) (sackcnt : Int) (hc : ChunkSent.isSent (s.chunk c) = true) :
    Again s (s.mark c m sackcnt) := by
  have hchunk (c' : C) : (s.mark c m sackcnt).chunk c' =
      if c' = c then { s.chunk c with flag := m.apply (s.chunk c).flag, sackcnt } else s.chunk c' := update_apply ..
  have hflag : (m.apply (s.chunk c).flag &&& flagSent != 0#16) = ((s.chunk c).flag &&& flagSent != 0#16) := by
    cases m with
    | rexmit =>
        rw [Mark.apply, BitVec.and_comm, BitVec.and_or_distrib_left, BitVec.and_comm]
        exact congrArg (· != 0#16) BitVec.or_zero
    | acked =>
        have hset : ((flagSent ||| flagAcked) &&& flagSent != 0#16) = true := by decide
        exact hset.trans hc.symm
    | clearRexmit | clearAcked =>
        rw [Mark.apply, BitVec.and_assoc]
        rfl
  refine ⟨rfl, rfl, fun c' => ?_, fun c' => ?_, fun c' => ?_⟩
  all_goals
    rw [hchunk]
    split
    next heq => simp only [heq, isSent, hflag]
    next => rfl

omit [DecidableEq M] [DecidableEq C] [DecidableEq F] in
theorem Again.keeps (h : Again s s') (hc : ChunkSent.isSent (s.chunk c) = true) :
    ChunkSent.isSent (s'.chunk c) = true ∧ (s'.chunk c).tsn = (s.chunk c).tsn ∧ (s'.chunk c).ssn = (s.chunk c).ssn :=
  ⟨(h.isSent c).trans hc, h.tsn c, h.ssn c⟩

theorem Sends.cases (h : Sends L call s s') :
    (isSent (s.chunk call.mp) = true ∧ Again s s') ∨ (isSent (s.chunk call.mp) = false ∧ New L call.mp s s') := by
  cases hsent : isSent (s.chunk call.mp) with
  | true => exact .inl ⟨rfl, h.again hsent⟩
  | false => exact .inr ⟨rfl, h.new hsent⟩

omit [DecidableEq M] [DecidableEq C] [DecidableEq F] in
theorem ne_of_isSent {mp : C} (hmp : isSent (s.chunk mp) = false) (hc : isSent (s.chunk c) = true) : c ≠ mp := by
  rintro rfl
  rw [hmp] at hc
  cases hc

/-- A chunk that has been sent keeps its numbers, whatever is sent next. -/
theorem Sends.keeps (h : Sends L call s s') (hc : isSent (s.chunk c) = true) : isSent (s'.chunk c) = true ∧
    (s'.chunk c).tsn = (s.chunk c).tsn ∧ (s'.chunk c).ssn = (s.chunk c).ssn := by
  obtain ⟨_, h⟩ | ⟨hmp, h⟩ := h.cases
  · exact h.keeps hc
  · rw [h.others c (ne_of_isSent hmp hc)]
    exact ⟨hc, rfl, rfl⟩

theorem Sends.isSent (h : Sends L call s s') : isSent (s'.chunk call.mp) = true := by
  obtain ⟨hmp, h⟩ | ⟨_, h⟩ := h.cases
  · exact (h.isSent call.mp).trans hmp
  · exact h.isSent

def Seen (seen : List C) (s : State M C F) : Prop := ∀ c, isSent (s.chunk c) = true ↔ c ∈ seen

theorem Seen.cons (hseen : Seen seen s) (h : Sends L call s s') (hmp : call.mp ∉ seen) :
    New L call.mp s s' ∧ Seen (call.mp :: seen) s' := by
  obtain ⟨hsent, _⟩ | ⟨_, h⟩ := h.cases
  · exact absurd ((hseen _).mp hsent) hmp
  · refine ⟨h, fun c => ?_⟩
    rw [List.mem_cons]
    by_cases hc : c = call.mp
    · simp only [hc, h.isSent, true_or]
    · rw [h.others c hc, hseen c]
      simp only [hc, false_or]

omit [DecidableEq M] [DecidableEq C] [DecidableEq F] in
theorem Seen.again (hseen : Seen seen s) (h : Again s s') : Seen seen s' := by
  intro c
  rw [h.isSent, hseen c]

/-- The ordered chunks that have been sent carry the SSN of their message. -/
def Numbered (L : Layout M C) (s : State M C F) : Prop :=
  ∀ c, isSent (s.chunk c) = true → isUnordered L (L.msg c) = false →
    isSent (s.chunk (L.first (L.msg c))) = true ∧ (s.chunk c).ssn = s.smhSsn (L.msg c)

omit [DecidableEq M] [DecidableEq C] [DecidableEq F] in
theorem Numbered.again (hnum : Numbered L s) (h : Again s s') : Numbered L s' := by
  intro c hc hord
  rw [h.isSent] at hc
  rw [h.isSent, h.ssn, h.smhSsn]
  exact hnum c hc hord

theorem Numbered.sends (hnum : Numbered L s) (h : Sends L call s s')
    (hfirst : call.mp = L.first (L.msg call.mp) ∨ isSent (s.chunk (L.first (L.msg call.mp))) = true) :
    Numbered L s' := by
  obtain ⟨_, hagain⟩ | ⟨hmp, hnew⟩ := h.cases
  · exact hnum.again hagain
  · intro c hc hord
    by_cases hcmp : c = call.mp
    · subst hcmp
      refine ⟨?_, hnew.ssn hord⟩
      obtain heq | hsent := hfirst
      · exact heq ▸ hc
      · exact (h.keeps hsent).1
    · rw [hnew.others c hcmp] at hc ⊢
      obtain ⟨hf, hssn⟩ := hnum c hc hord
      exact ⟨(h.keeps hf).1, hssn.trans (hnew.smhSsn _ (ne_of_isSent hmp hf).symm).symm⟩

theorem exists_sends (L : Layout M C) (call : Call C F) (s : State M C F) : ∃ s', Sends L call s s' ∧
    (isSent (s.chunk call.mp) = false → ∀ y, (s'.chunk call.mp).tsn = reverseBytes y →
      (s.ltsn + 3#32).toNat % 256 = y.toNat % 256) := by
  obtain ⟨tsn, ltsn, htsn, hlow⟩ := exists_htonl s.ltsn
  obtain ⟨ssn, cntr, hssn⟩ := exists_htons (s.ostrcntrs (L.sid (L.msg call.mp)))
  refine ⟨_, ⟨tsn, ltsn, ssn, cntr, htsn, hssn, rfl⟩, fun hmp y hy => hlow y ?_⟩
  rw [← hy]
  simp only [sent, hmp, Bool.false_eq_true, if_false, sendNew, update_self]
  split
  · simp only [update_self]
  · split <;> simp only [update_self]

end Steps

section Runs

variable {L : Layout M C} {calls : List (Call C F)} {s s' : State M C F} {c : C} {seen : List C}

theorem exists_run (L : Layout M C) (calls : List (Call C F)) (s : State M C F) : ∃ s', Run L s calls s' := by
  induction calls generalizing s with
  | nil => exact ⟨s, .nil s⟩
  | cons call calls ih =>
      obtain ⟨s₁, h, _⟩ := exists_sends L call s
      obtain ⟨s', hrest⟩ := ih s₁
      exact ⟨s', .cons h hrest⟩

theorem Run.keeps (h : Run L s calls s') (hc : isSent (s.chunk c) = true) : isSent (s'.chunk c) = true ∧
    (s'.chunk c).tsn = (s.chunk c).tsn ∧ (s'.chunk c).ssn = (s.chunk c).ssn := by
  induction h with
  | nil s => exact ⟨hc, rfl, rfl⟩
  | @mark calls s s' c' m sackcnt hc' _ ih =>
      have h := s.mark_again m sackcnt hc'
      obtain ⟨hsent, htsn, hssn⟩ := ih (h.keeps hc).1
      exact ⟨hsent, htsn.trans (h.tsn c), hssn.trans (h.ssn c)⟩
  | cons h _ ih =>
      obtain ⟨hsent, htsn, hssn⟩ := h.keeps hc
      obtain ⟨hsent', htsn', hssn'⟩ := ih hsent
      exact ⟨hsent', htsn'.trans htsn, hssn'.trans hssn⟩

theorem Run.isSent (h : Run L s calls s') : ∀ call ∈ calls, isSent (s'.chunk call.mp) = true := by
  induction h with
  | nil s => exact fun _ h => by cases h
  | mark _ _ _ _ _ ih => exact ih
  | cons h hrest ih =>
      intro call hcall
      obtain rfl | hcall := List.mem_cons.mp hcall
      · exact (hrest.keeps h.isSent).1
      · exact ih call hcall

theorem Run.kept (s : State M C F) (calls : List (Call C F)) (s' : State M C F) : Kept L s calls s' := by
  intro before after s₁ _ hbefore hafter call hcall
  exact (hafter.keeps (hbefore.isSent call hcall)).2

theorem Run.numbered (h : Run L s calls s') (hnum : Numbered L s)
    (hvalid : ∀ before call after, calls = before ++ call :: after → call.mp = L.first (L.msg call.mp) ∨
      ChunkSent.isSent (s.chunk (L.first (L.msg call.mp))) = true ∨
      L.first (L.msg call.mp) ∈ before.map Call.mp) : Numbered L s' := by
  induction h with
  | nil s => exact hnum
  | @mark calls s s' c m sackcnt hc _ ih =>
      have h := s.mark_again m sackcnt hc
      apply ih (hnum.again h)
      simpa only [h.isSent] using hvalid
  | @cons call calls s s₁ s₂ h hrest ih =>
      apply ih
      · apply hnum.sends h
        obtain hfirst | hsent | hmem := hvalid [] call calls rfl
        · exact .inl hfirst
        · exact .inr hsent
        · cases hmem
      · intro before call' after heq
        obtain hfirst | hsent | hmem := hvalid (call :: before) call' after (by rw [heq, List.cons_append])
        · exact .inl hfirst
        · exact .inr (.inl (h.keeps hsent).1)
        · rw [List.map_cons, List.mem_cons] at hmem
          obtain heq' | hmem := hmem
          · exact .inr (.inl (heq' ▸ h.isSent))
          · exact .inr (.inr hmem)

/-- The counter goes four steps for each new chunk. -/
theorem Run.low_byte (h : Run L s calls s') (hseen : Seen seen s) {n : Nat}
    (hn : (firsts seen (calls.map Call.mp))[n]? = some c) {y : BitVec 32} (hy : (s'.chunk c).tsn = reverseBytes y) :
    ∃ i < 4, (s.ltsn + BitVec.ofNat 32 (4 * n + i)).toNat % 256 = y.toNat % 256 := by
  induction h generalizing seen n with
  | nil s => cases hn
  | @mark calls s s' c' m sackcnt hc' _ ih =>
      have h := s.mark_again m sackcnt hc'
      rw [← h.ltsn]
      exact ih (hseen.again h) hn hy
  | @cons call calls s s₁ s₂ h hrest ih =>
      simp only [List.map_cons, firsts] at hn
      split at hn
      next hmp =>
        have hagain := h.again ((hseen _).mpr hmp)
        rw [← hagain.ltsn]
        exact ih (hseen.again hagain) hn hy
      next hmp =>
        obtain ⟨hnew, hseen⟩ := hseen.cons h hmp
        cases n with
        | zero =>
            obtain rfl := Option.some.inj hn
            rw [(hrest.keeps hnew.isSent).2.1] at hy
            simpa using hnew.tsn.low_byte hy
        | succ n =>
            obtain ⟨i, hi, heq⟩ := ih hseen hn hy
            refine ⟨i, hi, ?_⟩
            rw [hnew.tsn.counter, BitVec.add_assoc] at heq
            rw [← heq, show 4 * (n + 1) + i = 4 + (4 * n + i) by omega, BitVec.ofNat_add]

theorem mem_firsts {seen cs : List C} (hc : c ∈ cs) (hseen : c ∉ seen) : c ∈ firsts seen cs := by
  induction cs generalizing seen with
  | nil => cases hc
  | cons x cs ih =>
      rw [firsts]
      split
      next hx =>
        apply ih _ hseen
        obtain rfl | hc := List.mem_cons.mp hc
        · exact absurd hx hseen
        · exact hc
      next =>
        rw [List.mem_cons]
        by_cases hcx : c = x
        · exact .inl hcx
        · exact .inr (ih (List.mem_of_ne_of_mem hcx hc) (List.not_mem_cons_of_ne_of_not_mem hcx hseen))

theorem exists_second {a b : C} {cs : List C} (ha : a ∈ cs) (hb : b ∈ cs) (hne : a ≠ b) :
    ∃ c, (firsts [] cs)[1]? = some c := by
  cases cs with
  | nil => cases ha
  | cons x cs =>
      have hother : ∃ y ∈ x :: cs, y ≠ x := by
        by_cases hax : a = x
        · exact ⟨b, hb, fun hbx => hne (hax.trans hbx.symm)⟩
        · exact ⟨a, ha, hax⟩
      obtain ⟨y, hy, hyx⟩ := hother
      have hmem : y ∈ firsts [x] cs := mem_firsts (List.mem_of_ne_of_mem hyx hy) (by simpa using hyx)
      have hlen := List.length_pos_of_mem hmem
      exact ⟨_, List.getElem?_eq_getElem hlen⟩

theorem OneSsn.of_numbered (h : Run L s calls s') (hnum : Numbered L s') : OneSsn L calls s' := by
  intro call hcall hord
  obtain ⟨hfirst, hssn⟩ := hnum _ (h.isSent call hcall) hord
  have hmsg := L.msg_first (L.msg call.mp)
  rw [hssn, (hnum _ hfirst (by rw [hmsg]; exact hord)).2, hmsg]

theorem Tsns.nil_of_all (hinit : ∀ c, isSent (s.chunk c) = false)
    (h : ∀ s', Run L s calls s' → Tsns s calls s') : calls = [] := by
  cases calls with
  | nil => rfl
  | cons call calls =>
      obtain ⟨s₁, hsends, hlow⟩ := exists_sends L call s
      obtain ⟨s', hrest⟩ := exists_run L calls s₁
      have htsn := h s' (.cons hsends hrest) 0 call.mp rfl
      rw [(hrest.keeps hsends.isSent).2.1] at htsn
      have hbyte := hlow (hinit _) _ htsn
      simp only [BitVec.toNat_add, BitVec.toNat_ofNat] at hbyte
      omega

theorem Tsns.not_of_two (hinit : ∀ c, isSent (s.chunk c) = false) (h : Run L s calls s') {a b : Call C F}
    (ha : a ∈ calls) (hb : b ∈ calls) (hne : a.mp ≠ b.mp) : ¬ Tsns s calls s' := by
  intro htsns
  obtain ⟨c, hc⟩ := exists_second (List.mem_map_of_mem ha) (List.mem_map_of_mem hb) hne
  have hseen : Seen [] s := fun c => by simp [hinit c]
  obtain ⟨i, hi, hbyte⟩ := h.low_byte hseen hc (htsns 1 c hc)
  simp only [BitVec.toNat_add, BitVec.toNat_ofNat] at hbyte
  omega

theorem Right.nil (L : Layout M C) (s s' : State M C F) : Right L s [] s' where
  tsns := fun _ _ h => by cases h
  kept := Run.kept s [] s'
  ssns := fun _ _ _ h => by cases h
  oneSsn := fun _ h => by cases h

end Runs

/-- The macros read the counters once for each byte. A history has the right
numbers for certain if it is empty; two chunks are never right. What a message
shares and what a retransmission keeps is right in every history. -/
theorem right_iff_nil (L : Layout M C) (s : State M C F) (calls : List (Call C F))
    (hinit : ∀ c, isSent (s.chunk c) = false) (hvalid : Valid L calls) :
    ((∀ s', Run L s calls s' → Right L s calls s') ↔ calls = []) ∧
    (∀ a ∈ calls, ∀ b ∈ calls, a.mp ≠ b.mp → ∀ s', Run L s calls s' → ¬ Right L s calls s') ∧
    (∃ s', Run L s calls s') ∧ ∀ s', Run L s calls s' → Kept L s calls s' ∧ OneSsn L calls s' := by
  refine ⟨⟨fun h => ?_, ?_⟩, fun a ha b hb hne s' h hright => ?_, exists_run L calls s, fun s' h => ⟨?_, ?_⟩⟩
  · exact Tsns.nil_of_all hinit fun s' hrun => (h s' hrun).tsns
  · rintro rfl s' _
    exact Right.nil L s s'
  · exact Tsns.not_of_two hinit h ha hb hne hright.tsns
  · exact Run.kept s calls s'
  · apply OneSsn.of_numbered h
    apply h.numbered
    · intro c hc
      rw [hinit c] at hc
      cases hc
    · intro before call after heq
      exact (hvalid before call after heq).imp_right .inr

section Example

def single : Layout Bool Bool := ⟨id, id, fun _ => 0#16, fun _ => 0#16, fun _ => rfl⟩

def unsent : State Bool Bool Unit :=
  ⟨0#32, fun _ => 0#16, 0, 0, 0, 0, 0, 0, 0, fun _ => ⟨0, none, 0, 0, 0, 0⟩, fun _ => 0, fun _ => ⟨0, 0⟩⟩

def pair : List (Call Bool Unit) := [⟨false, (), 100#32⟩, ⟨true, (), 100#32⟩]

theorem isSent_unsent (c : Bool) : isSent (unsent.chunk c) = false := by
  simp [isSent, unsent]

theorem right_pair : ¬ (∀ s', Run single unsent pair s' → Right single unsent pair s') :=
  fun h => by cases (right_iff_nil single unsent pair isSent_unsent (fun _ _ _ _ => .inl rfl)).1.mp h

/-- The second of two chunks never carries the second TSN. -/
theorem tsn_second : (∃ s', Run single unsent pair s') ∧
    ∀ s', Run single unsent pair s' → (s'.chunk true).tsn ≠ reverseBytes (unsent.ltsn + 1#32) := by
  refine ⟨exists_run single pair unsent, fun s' h heq => ?_⟩
  have hseen : Seen [] unsent := fun c => by simp [isSent_unsent c]
  obtain ⟨i, hi, hbyte⟩ := h.low_byte hseen (n := 1) rfl heq
  interval_cases i <;> exact absurd hbyte (by decide)

end Example

end SysvDev.Sctp.ChunkSent
