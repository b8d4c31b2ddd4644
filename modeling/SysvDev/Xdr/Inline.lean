import SysvDev.ByteOrder.Macros

namespace SysvDev.Xdr.Inline

open CExpr ByteOrder.Macros X86.Memory X86.Machine

variable {w : Nat}

structure State (w : Nat) where
  mem : Mem w
  buf : BitVec w

def Calls (n : Name) (f : State w → Val × State w) (s : State w) (v : Val) (s' : State w) : Prop :=
  ∃ e k, denotes n = some e ∧ Evals f e s k v s'

/-- `(uint32_t)*(buf)++` -/
def deref (s : State w) : Val × State w := (⟨.u32, load 32 s.mem s.buf⟩, { s with buf := s.buf + 4#w })

/-- `(int32_t)ntohl((uint32_t)*(buf)++)` -/
def GetWord (s : State w) (v : BitVec 32) (s' : State w) : Prop := ∃ x, Calls .ntohl deref s x s' ∧ v = x.conv .i32

/-- `*(buf)++ = (int32_t)htonl((uint32_t)v)`, with htonl read as `BSWAP_32` -/
def PutWord (v : BitVec 32) (s s' : State w) : Prop :=
  ∃ x s₁, Calls .bswap32 (fun s => (⟨.u32, v⟩, s)) s x s₁ ∧ s' = ⟨store s₁.mem s₁.buf (x.conv .i32), s₁.buf + 4#w⟩

inductive Kind
  | int32 | uInt32 | long | bool | short | uShort | hyper
  deriving DecidableEq

/-- A value of one of the types. A `long` and a `bool_t` have 32 bits. -/
inductive Item
  | int32 (v : BitVec 32)
  | uInt32 (v : BitVec 32)
  | long (v : BitVec 32)
  | bool (v : BitVec 32)
  | short (v : BitVec 16)
  | uShort (v : BitVec 16)
  | hyper (v : BitVec 64)
  deriving DecidableEq

def Item.kind : Item → Kind
  | int32 _ => .int32
  | uInt32 _ => .uInt32
  | long _ => .long
  | bool _ => .bool
  | short _ => .short
  | uShort _ => .uShort
  | hyper _ => .hyper

/-- IXDR_PUT_INT32 and the others. The short ones convert their value, and
IXDR_PUT_HYPER begins with the high word. -/
def Put : Item → State w → State w → Prop
  | .int32 v | .uInt32 v | .long v | .bool v => PutWord v
  | .short v => PutWord (v.signExtend 32)
  | .uShort v => PutWord (v.setWidth 32)
  | .hyper v => fun s s' => ∃ s₁, PutWord (v.extractLsb' 32 32) s s₁ ∧ PutWord (v.extractLsb' 0 32) s₁ s'

def Get : Kind → State w → Item → State w → Prop
  | .int32 => fun s i s' => ∃ v, GetWord s v s' ∧ i = .int32 v
  | .uInt32 => fun s i s' => ∃ v, GetWord s v s' ∧ i = .uInt32 v
  | .long => fun s i s' => ∃ v, GetWord s v s' ∧ i = .long v
  | .bool => fun s i s' => ∃ v, GetWord s v s' ∧ i = .bool v
  | .short => fun s i s' => ∃ v, GetWord s v s' ∧ i = .short (v.setWidth 16)
  | .uShort => fun s i s' => ∃ v, GetWord s v s' ∧ i = .uShort (v.setWidth 16)
  | .hyper => fun s i s' => ∃ hi lo s₁, GetWord s hi s₁ ∧ GetWord s₁ lo s' ∧ i = .hyper (hi ++ lo)

/-- Values are put one after the other. `ps` is where `buf` is after each. -/
inductive PutAll : List Item → State w → List (BitVec w) → State w → Prop
  | nil (s : State w) : PutAll [] s [] s
  | cons {i : Item} {l : List Item} {s s₁ s₂ : State w} {ps : List (BitVec w)} (h : Put i s s₁) (hl : PutAll l s₁ ps s₂) :
      PutAll (i :: l) s (s₁.buf :: ps) s₂

inductive GetAll : List Kind → State w → List Item → List (BitVec w) → State w → Prop
  | nil (s : State w) : GetAll [] s [] [] s
  | cons {k : Kind} {i : Item} {ks : List Kind} {l : List Item} {s s₁ s₂ : State w} {ps : List (BitVec w)}
      (h : Get k s i s₁) (hl : GetAll ks s₁ l ps s₂) : GetAll (k :: ks) s (i :: l) (s₁.buf :: ps) s₂

def Kind.size : Kind → Nat
  | hyper => 8
  | _ => 4

def positions (a : BitVec w) : List Kind → List (BitVec w)
  | [] => []
  | k :: ks => (a + BitVec.ofNat w k.size) :: positions (a + BitVec.ofNat w k.size) ks

def wordBytes (v : BitVec 32) : List (BitVec 8) := (List.range 4).map fun i => (v >>> (8 * (3 - i))).setWidth 8

def Item.bytes : Item → List (BitVec 8)
  | int32 v | uInt32 v | long v | bool v => wordBytes v
  | short v => wordBytes (v.signExtend 32)
  | uShort v => wordBytes (v.setWidth 32)
  | hyper v => wordBytes (v.extractLsb' 32 32) ++ wordBytes (v.extractLsb' 0 32)

def Stands (m : Mem w) (a : BitVec w) (l : List (BitVec 8)) : Prop := ∀ i b, l[i]? = some b → m (a + BitVec.ofNat w i) = b

/-- What is put can be got, both move `buf` as they should, and what is stored
is the external representation. -/
def RoundTrip (w : Nat) (l : List Item) : Prop :=
  ∀ (s s₁ : State w) (ps : List (BitVec w)), PutAll l s ps s₁ →
    ps = positions s.buf (l.map Item.kind) ∧ Stands s₁.mem s.buf (l.flatMap Item.bytes) ∧
      ∀ l' qs s₂, GetAll (l.map Item.kind) ⟨s₁.mem, s.buf⟩ l' qs s₂ → l' = l ∧ qs = positions s.buf (l.map Item.kind)

section Words

variable {s s' : State w} {v : BitVec 32}

theorem GetWord.state (h : GetWord s v s') : s' = ⟨s.mem, s.buf + 16#w⟩ := by
  obtain ⟨x, ⟨e, k, he, hevals⟩, _⟩ := h
  obtain rfl := Option.some.inj (denotes_ntohl.symm.trans he)
  rw [hevals.state]
  have hfour (a : BitVec w) : a + 4#w + 4#w + 4#w + 4#w = a + 16#w := by
    simp only [BitVec.add_assoc, ← BitVec.ofNat_add]
  exact congrArg (State.mk s.mem) (hfour s.buf)

theorem exists_getWord (s : State w) : ∃ v s', GetWord s v s' := by
  obtain ⟨k, x, s', h⟩ := exists_evals deref (swap32 .arg) s
  exact ⟨_, s', x, ⟨_, k, denotes_ntohl, h⟩, rfl⟩

theorem putWord_iff : PutWord v s s' ↔ s' = ⟨store s.mem s.buf (reverseBytes v), s.buf + 4#w⟩ := by
  have hconv : Val.conv ⟨.u32, reverseBytes v⟩ .i32 = reverseBytes v := BitVec.setWidth_eq _
  constructor
  · rintro ⟨x, s₁, ⟨e, k, he, hevals⟩, rfl⟩
    obtain rfl := Option.some.inj (denotes_bswap32.symm.trans he)
    obtain ⟨rfl, rfl⟩ := hevals.pure fun _ => rfl
    rw [value_swap32, hconv]
    rfl
  · rintro rfl
    obtain ⟨k, x, s₁, h⟩ := exists_evals (fun s : State w => (⟨.u32, v⟩, s)) (swap32 .arg) s
    obtain ⟨rfl, rfl⟩ := h.pure fun _ => rfl
    refine ⟨_, _, ⟨_, k, denotes_bswap32, h⟩, ?_⟩
    rw [value_swap32, hconv]
    rfl

end Words

section Wrote

/-- The bytes `l` have been written at `buf`, and `buf` is behind them. -/
structure Wrote (l : List (BitVec 8)) (s s' : State w) : Prop where
  buf : s'.buf = s.buf + BitVec.ofNat w l.length
  rest : ChangedIn s.buf l.length s.mem s'.mem
  stands : Stands s'.mem s.buf l

variable {l l' : List (BitVec 8)} {s s₁ s₂ : State w}

theorem Wrote.append (h : Wrote l s s₁) (h' : Wrote l' s₁ s₂) (hlen : l.length + l'.length ≤ 2 ^ w) :
    Wrote (l ++ l') s s₂ := by
  have hbuf (b : BitVec w) : b - s₁.buf = b - s.buf - BitVec.ofNat w l.length := by
    rw [h.buf]
    ring
  refine ⟨?_, fun b hb => ?_, fun i x hx => ?_⟩
  · rw [h'.buf, h.buf, List.length_append, BitVec.ofNat_add, BitVec.add_assoc]
  · rw [List.length_append] at hb
    have hlt := (b - s.buf).isLt
    have hofNat : (BitVec.ofNat w l.length).toNat = l.length := Nat.mod_eq_of_lt (by omega)
    have hdist : (b - s₁.buf).toNat = (b - s.buf).toNat - l.length := by
      rw [hbuf, BitVec.toNat_sub_of_le (BitVec.le_def.mpr (by omega)), hofNat]
    rw [h'.rest b (by omega), h.rest b (by omega)]
  · rcases Nat.lt_or_ge i l.length with hi | hi
    · rw [List.getElem?_append_left hi] at hx
      rw [← h.stands i x hx]
      apply h'.rest
      have hdist : s.buf + BitVec.ofNat w i - s₁.buf = BitVec.ofNat w i - BitVec.ofNat w l.length := by
        rw [hbuf]
        ring
      rcases Nat.eq_zero_or_pos l'.length with hzero | hpos
      · omega
      · rw [hdist, BitVec.toNat_sub, BitVec.toNat_ofNat, BitVec.toNat_ofNat, Nat.mod_eq_of_lt (a := i) (by omega),
          Nat.mod_eq_of_lt (a := l.length) (by omega), Nat.mod_eq_of_lt (by omega)]
        omega
    · rw [List.getElem?_append_right hi] at hx
      have haddr : s.buf + BitVec.ofNat w i = s₁.buf + BitVec.ofNat w (i - l.length) := by
        rw [h.buf, BitVec.add_assoc, ← BitVec.ofNat_add, Nat.add_sub_cancel' hi]
      rw [haddr]
      exact h'.stands _ x hx

theorem length_wordBytes (v : BitVec 32) : (wordBytes v).length = 4 := rfl

theorem byte_reverseBytes (v : BitVec 32) {i : Nat} (hi : i < 4) :
    (reverseBytes v >>> (8 * i)).setWidth 8 = (v >>> (8 * (3 - i))).setWidth 8 := by
  apply BitVec.eq_of_getLsbD_eq
  intro j hj
  rw [BitVec.getLsbD_setWidth, BitVec.getLsbD_setWidth, BitVec.getLsbD_ushiftRight, BitVec.getLsbD_ushiftRight,
    getLsbD_reverseBytes _ (by omega)]
  congr 2
  omega

theorem PutWord.wrote {v : BitVec 32} (h : PutWord v s s₁) (hw : 4 ≤ w) : Wrote (wordBytes v) s s₁ := by
  have hpow : 2 ^ 4 ≤ 2 ^ w := Nat.pow_le_pow_right (by decide) hw
  obtain rfl := putWord_iff.mp h
  refine ⟨rfl, fun b hb => ?_, fun i x hx => ?_⟩
  · exact if_neg (Nat.not_lt.mpr hb)
  · obtain ⟨hi, rfl⟩ := List.getElem?_eq_some_iff.mp hx
    rw [length_wordBytes] at hi
    have hdist : (s.buf + BitVec.ofNat w i - s.buf).toNat = i := by
      rw [add_sub_cancel_left, BitVec.toNat_ofNat, Nat.mod_eq_of_lt (by omega)]
    simp only [store, hdist]
    rw [if_pos (by omega), byte_reverseBytes v hi]
    simp [wordBytes]

theorem length_bytes (i : Item) : i.bytes.length = i.kind.size := by
  cases i <;> rfl

theorem Put.wrote {i : Item} (h : Put i s s₁) (hw : 4 ≤ w) : Wrote i.bytes s s₁ := by
  have hpow : 2 ^ 4 ≤ 2 ^ w := Nat.pow_le_pow_right (by decide) hw
  cases i with
  | int32 v | uInt32 v | long v | bool v | short v | uShort v => exact PutWord.wrote h hw
  | hyper v =>
      obtain ⟨s', hhigh, hlow⟩ := h
      apply (hhigh.wrote hw).append (hlow.wrote hw)
      rw [length_wordBytes, length_wordBytes]
      omega

/-- The puts are right, as long as they do not go round the address space. -/
theorem PutAll.wrote {l : List Item} {ps : List (BitVec w)} (h : PutAll l s ps s₁) (hw : 4 ≤ w)
    (hlen : (l.flatMap Item.bytes).length ≤ 2 ^ w) :
    ps = positions s.buf (l.map Item.kind) ∧ Wrote (l.flatMap Item.bytes) s s₁ := by
  induction h with
  | nil s => exact ⟨rfl, ⟨(BitVec.add_zero _).symm, fun _ _ => rfl, fun _ _ hx => by cases hx⟩⟩
  | cons hput _ ih =>
      rw [List.flatMap_cons, List.length_append] at hlen
      have hfirst := Put.wrote hput hw
      have hbuf := hfirst.buf
      rw [length_bytes] at hbuf
      obtain ⟨hps, hrest⟩ := ih (by omega)
      refine ⟨?_, hfirst.append hrest hlen⟩
      rw [hps, hbuf]
      rfl

end Wrote

section Runs

theorem exists_put (i : Item) (s : State w) : ∃ s', Put i s s' := by
  cases i with
  | int32 v | uInt32 v | long v | bool v | short v | uShort v => exact ⟨_, putWord_iff.mpr rfl⟩
  | hyper v => exact ⟨_, _, putWord_iff.mpr rfl, putWord_iff.mpr rfl⟩

theorem exists_putAll (l : List Item) (s : State w) : ∃ ps s', PutAll l s ps s' := by
  induction l generalizing s with
  | nil => exact ⟨_, _, .nil s⟩
  | cons i l ih =>
      obtain ⟨s₁, h⟩ := exists_put i s
      obtain ⟨ps, s₂, hl⟩ := ih s₁
      exact ⟨_, _, .cons h hl⟩

theorem exists_get (k : Kind) (s : State w) : ∃ i s', Get k s i s' := by
  obtain ⟨v, s₁, h⟩ := exists_getWord s
  obtain ⟨u, s₂, h'⟩ := exists_getWord s₁
  cases k with
  | int32 | uInt32 | long | bool | short | uShort => exact ⟨_, _, v, h, rfl⟩
  | hyper => exact ⟨_, _, v, u, s₁, h, h', rfl⟩

theorem exists_getAll (ks : List Kind) (s : State w) : ∃ l ps s', GetAll ks s l ps s' := by
  induction ks generalizing s with
  | nil => exact ⟨_, _, _, .nil s⟩
  | cons k ks ih =>
      obtain ⟨i, s₁, h⟩ := exists_get k s
      obtain ⟨l, ps, s₂, hl⟩ := ih s₁
      exact ⟨_, _, _, .cons h hl⟩

theorem Get.buf {k : Kind} {i : Item} {s s' : State w} (h : Get k s i s') :
    s'.buf = s.buf + BitVec.ofNat w (4 * k.size) := by
  cases k with
  | int32 | uInt32 | long | bool | short | uShort =>
      obtain ⟨v, hget, _⟩ := h
      obtain rfl := hget.state
      rfl
  | hyper =>
      obtain ⟨hi, lo, s₁, hhigh, hlow, _⟩ := h
      obtain rfl := hhigh.state
      obtain rfl := hlow.state
      exact (BitVec.add_assoc _ _ _).trans (congrArg (s.buf + ·) (BitVec.ofNat_add 16 16).symm)

end Runs

def addrWidth (lp64 : Bool) : Nat := if lp64 then 64 else 32

theorem size_ne {k : Kind} (hw : 6 ≤ w) (a : BitVec w) :
    a + BitVec.ofNat w (4 * k.size) ≠ a + BitVec.ofNat w k.size := by
  have hpow : 2 ^ 6 ≤ 2 ^ w := Nat.pow_le_pow_right (by decide) hw
  intro h
  have hnat := congrArg BitVec.toNat (add_left_cancel h)
  have hsize : k.size = 4 ∨ k.size = 8 := by cases k <;> simp [Kind.size]
  rw [BitVec.toNat_ofNat, BitVec.toNat_ofNat, Nat.mod_eq_of_lt (by omega), Nat.mod_eq_of_lt (by omega)] at hnat
  omega

theorem roundTrip_iff (hw : 6 ≤ w) (l : List Item) : RoundTrip w l ↔ l = [] := by
  constructor
  · intro h
    cases l with
    | nil => rfl
    | cons i l =>
        obtain ⟨ps, s₁, hput⟩ := exists_putAll (i :: l) (⟨fun _ => 0#8, 0#w⟩ : State w)
        obtain ⟨l', qs, s₂, hget⟩ := exists_getAll ((i :: l).map Item.kind) (⟨s₁.mem, 0#w⟩ : State w)
        have hqs := ((h _ _ _ hput).2.2 _ _ _ hget).2
        cases hget with
        | cons hfirst _ =>
            have hbuf := hfirst.buf
            rw [(List.cons.inj hqs).1] at hbuf
            exact absurd hbuf.symm (size_ne hw _)
  · rintro rfl s s₁ ps hput
    cases hput
    refine ⟨rfl, (fun _ _ hx => by cases hx), fun l' qs s₂ hget => ?_⟩
    cases hget
    exact ⟨rfl, rfl⟩

/-- Nothing that is put can be got again, since the first get moves `buf` four
times as far as it should. The puts are right. -/
theorem roundTrip_iff_nil (lp64 : Bool) :
    (∀ l, RoundTrip (addrWidth lp64) l ↔ l = []) ∧
    ∀ l (s s₁ : State (addrWidth lp64)) ps, PutAll l s ps s₁ → (l.flatMap Item.bytes).length ≤ 2 ^ addrWidth lp64 →
      ps = positions s.buf (l.map Item.kind) ∧ Stands s₁.mem s.buf (l.flatMap Item.bytes) := by
  have hw : 6 ≤ addrWidth lp64 := by cases lp64 <;> decide
  refine ⟨roundTrip_iff hw, fun l s s₁ ps hput hlen => ?_⟩
  obtain ⟨hps, hwrote⟩ := hput.wrote (by omega) hlen
  exact ⟨hps, hwrote.stands⟩

/-- One int32_t is not got again. -/
theorem roundTrip_int32 : ¬ RoundTrip (addrWidth false) [.int32 1#32] := by
  rw [addrWidth, roundTrip_iff (by decide)]
  exact fun h => by cases h

end SysvDev.Xdr.Inline
