import SysvDev.X86.Run

namespace SysvDev.X86.Strings

open Memory Machine Run

variable {w n k : Nat} {m m' : Mem w} {src dst a b c : BitVec w} {i j lo hi cnt : Nat}

theorem shiftRight_two (x : Nat) : x >>> 2 = x / 4 := Nat.shiftRight_eq_div_pow x 2

theorem shiftRight_three (x : Nat) : x >>> 3 = x / 8 := Nat.shiftRight_eq_div_pow x 3

theorem and_three (x : Nat) : x &&& 3 = x % 4 := Nat.and_two_pow_sub_one_eq_mod x 2

theorem and_seven (x : Nat) : x &&& 7 = x % 8 := Nat.and_two_pow_sub_one_eq_mod x 3

theorem loadNat_digit {t : Nat} (h : t < k) :
    loadNat m k a / 256 ^ t % 256 = (m (a + BitVec.ofNat w t)).toNat := by
  induction t generalizing k a with
  | zero =>
      obtain ⟨k, rfl⟩ := Nat.exists_eq_add_of_lt h
      have hbyte := (m a).isLt
      rw [Nat.zero_add, loadNat, Nat.pow_zero, Nat.div_one, BitVec.add_zero]
      omega
  | succ t ih =>
      obtain ⟨k, rfl⟩ := Nat.exists_eq_add_of_lt (Nat.zero_lt_of_lt h)
      have hbyte := (m a).isLt
      have hrest : loadNat m (0 + k + 1) a / 256 = loadNat m k (a + 1#w) := by
        rw [Nat.zero_add, loadNat]
        omega
      rw [Nat.pow_succ', ← Nat.div_div_eq_div_mul, hrest, ih (by omega), BitVec.add_assoc, ← BitVec.ofNat_add,
        Nat.add_comm 1 t]

theorem toNat_load_digit {t : Nat} (hn : 8 * (n / 8) = n) (h : t < n / 8) :
    (load n m a).toNat / 256 ^ t % 256 = (m (a + BitVec.ofNat w t)).toNat := by
  have hlt : loadNat m (n / 8) a < 2 ^ n := by
    have hpow : 256 ^ (n / 8) = 2 ^ n := by rw [show 256 = 2 ^ 8 from rfl, ← Nat.pow_mul, hn]
    rw [← hpow]
    exact loadNat_lt m _ a
  rw [load, BitVec.toNat_ofNat, Nat.mod_eq_of_lt hlt]
  exact loadNat_digit h

theorem load_byte_eq (m : Mem w) (a : BitVec w) : load 8 m a = m a := by
  have hlt := (m a).isLt
  apply BitVec.eq_of_toNat_eq
  simp only [load, loadNat, Nat.reduceDiv, BitVec.toNat_ofNat]
  omega

theorem load_eq_iff (hn : 8 * (n / 8) = n) :
    load n m a = load n m' b ↔ ∀ t < n / 8, m (a + BitVec.ofNat w t) = m' (b + BitVec.ofNat w t) := by
  constructor
  · intro h t ht
    apply BitVec.eq_of_toNat_eq
    rw [← toNat_load_digit hn ht, h, toNat_load_digit hn ht]
  · intro h
    rw [load, load, loadNat_congr h]

theorem store_load (hn : 8 * (n / 8) = n) :
    store m' a (load n m c) b = if (b - a).toNat < n / 8 then m (c + (b - a)) else m' b := by
  rw [store]
  split
  next h =>
    apply BitVec.eq_of_toNat_eq
    have hpow : 2 ^ n = 256 ^ (n / 8) := by rw [show 256 = 2 ^ 8 from rfl, ← Nat.pow_mul, hn]
    have hdigit : loadNat m (n / 8) c % 256 ^ (n / 8) / 256 ^ (b - a).toNat % 256 =
        loadNat m (n / 8) c / 256 ^ (b - a).toNat % 256 := by
      obtain ⟨r, hr⟩ := Nat.exists_eq_add_of_lt h
      rw [hr, Nat.add_assoc, Nat.pow_add, Nat.mod_mul_right_div_self, Nat.pow_succ', Nat.mod_mul_right_mod]
    rw [BitVec.toNat_setWidth, BitVec.toNat_ushiftRight, Nat.shiftRight_eq_div_pow, load, BitVec.toNat_ofNat, hpow,
      Nat.pow_mul, hdigit, loadNat_digit h, BitVec.ofNat_toNat, BitVec.setWidth_eq]
  next => rfl

/-- Bytes `lo` to `hi` of the region at `src` have been copied to `dst`. -/
def copied (m : Mem w) (src dst : BitVec w) (lo hi : Nat) : Mem w :=
  fun b => if lo ≤ (b - dst).toNat ∧ (b - dst).toNat < hi then m (src + (b - dst)) else m b

theorem copied_none (h : hi ≤ lo) : copied m src dst lo hi = m := by
  funext b
  rw [copied, if_neg (by omega)]

theorem copied_inside (hcnt : hi ≤ 2 ^ w) (hlo : lo ≤ i) (hhi : i < hi) :
    copied m src dst lo hi (dst + BitVec.ofNat w i) = m (src + BitVec.ofNat w i) := by
  have hdiff : dst + BitVec.ofNat w i - dst = BitVec.ofNat w i := by rw [BitVec.add_comm, BitVec.add_sub_cancel]
  have hnat : (BitVec.ofNat w i).toNat = i := by rw [BitVec.toNat_ofNat, Nat.mod_eq_of_lt (by omega)]
  rw [copied, hdiff, hnat, if_pos ⟨hlo, hhi⟩]

theorem copied_changedIn : ChangedIn dst hi m (copied m src dst lo hi) := by
  intro b hb
  rw [copied, if_neg (by omega)]

theorem toNat_sub_lt (h : j + k ≤ 2 ^ w) :
    (b - (dst + BitVec.ofNat w j)).toNat < k ↔ j ≤ (b - dst).toNat ∧ (b - dst).toNat < j + k := by
  by_cases hk : k = 0
  · subst hk
    omega
  have hnat : (BitVec.ofNat w j).toNat = j := by rw [BitVec.toNat_ofNat, Nat.mod_eq_of_lt (by omega)]
  by_cases hj : j ≤ (b - dst).toNat
  · rw [toNat_sub_add (by rwa [hnat]), hnat]
    omega
  · have heq : b - (dst + BitVec.ofNat w j) = b - dst - BitVec.ofNat w j := by ring
    have hsub := Word.toNat_sub_cases (b - dst) (BitVec.ofNat w j)
    rw [heq]
    omega

/-- One more unit at `j`, where none of the bytes that it reads has been
written. -/
theorem store_copied (hn : 8 * (n / 8) = n) (hj : j + n / 8 ≤ 2 ^ w)
    (hclear : ∀ i, j ≤ i → i < j + n / 8 → ¬ (lo ≤ (src + BitVec.ofNat w i - dst).toNat ∧
      (src + BitVec.ofNat w i - dst).toNat < hi)) :
    store (copied m src dst lo hi) (dst + BitVec.ofNat w j) (load n (copied m src dst lo hi) (src + BitVec.ofNat w j)) b =
      if j ≤ (b - dst).toNat ∧ (b - dst).toNat < j + n / 8 then m (src + (b - dst)) else copied m src dst lo hi b := by
  have haddr : src + BitVec.ofNat w j + (b - (dst + BitVec.ofNat w j)) = src + (b - dst) := by ring
  rw [store_load hn, haddr]
  simp only [toNat_sub_lt hj]
  split
  next hin =>
    have hnone := hclear (b - dst).toNat hin.1 hin.2
    rw [BitVec.ofNat_toNat, BitVec.setWidth_eq] at hnone
    rw [copied, if_neg hnone]
  next => rfl

section Forward

/-- `j` units after one another, upwards. -/
def moves (n : Nat) (m : Mem w) (src dst : BitVec w) : Nat → Mem w
  | 0 => m
  | j + 1 =>
      store (moves n m src dst j) (dst + BitVec.ofNat w (j * (n / 8)))
        (load n (moves n m src dst j) (src + BitVec.ofNat w (j * (n / 8))))

theorem moves_outside (h : j * (n / 8) ≤ (b - dst).toNat) : moves n m src dst j b = m b := by
  induction j with
  | zero => rfl
  | succ j ih =>
      have hlt := (b - dst).isLt
      rw [Nat.succ_mul] at h
      rw [moves, store, if_neg, ih (by omega)]
      rw [toNat_sub_lt (by omega)]
      omega

theorem moves_changedIn (h : j * (n / 8) ≤ cnt) : ChangedIn dst cnt m (moves n m src dst j) :=
  fun _ hb => moves_outside (h.trans hb)

/-- The destination does not begin within the source: no byte is overwritten
before it is read. -/
theorem clear_above (h : cnt ≤ (dst - src).toNat) (hcnt : i < cnt) :
    i ≤ (src + BitVec.ofNat w i - dst).toNat := by
  have heq : src + BitVec.ofNat w i - dst = BitVec.ofNat w i - (dst - src) := by ring
  have hlt := (dst - src).isLt
  have hnat : (BitVec.ofNat w i).toNat = i := by rw [BitVec.toNat_ofNat, Nat.mod_eq_of_lt (by omega)]
  have hsub := Word.toNat_sub_cases (BitVec.ofNat w i) (dst - src)
  rw [heq]
  omega

theorem moves_eq (hn : 8 * (n / 8) = n) (h : cnt ≤ (dst - src).toNat) (hj : i + j * (n / 8) ≤ cnt) :
    moves n (copied m src dst 0 i) (src + BitVec.ofNat w i) (dst + BitVec.ofNat w i) j =
      copied m src dst 0 (i + j * (n / 8)) := by
  induction j with
  | zero => rw [moves, Nat.zero_mul, Nat.add_zero]
  | succ j ih =>
      have hlt := (dst - src).isLt
      rw [Nat.succ_mul, ← Nat.add_assoc] at hj
      funext b
      rw [moves, ih (by omega), BitVec.add_assoc, ← BitVec.ofNat_add, BitVec.add_assoc, ← BitVec.ofNat_add,
        store_copied hn (by omega)]
      · simp only [copied, Nat.succ_mul, ← Nat.add_assoc]
        split_ifs <;> first | rfl | omega
      · intro t hge ht
        have habove := clear_above h (i := t) (by omega)
        omega

theorem moves_words (hn : 8 * (n / 8) = n) (h : cnt ≤ (dst - src).toNat) :
    moves 8 (moves n m src dst (cnt / (n / 8))) (src + BitVec.ofNat w (cnt / (n / 8) * (n / 8)))
      (dst + BitVec.ofNat w (cnt / (n / 8) * (n / 8))) (cnt % (n / 8)) = copied m src dst 0 cnt := by
  have hcnt := Nat.div_add_mod' cnt (n / 8)
  have hwords := moves_eq (m := m) (i := 0) (j := cnt / (n / 8)) hn h (by omega)
  have hbytes := moves_eq (n := 8) (m := m) (i := cnt / (n / 8) * (n / 8)) (j := cnt % (n / 8)) (by decide) h
    (by omega)
  simp only [BitVec.add_zero, copied_none le_rfl, Nat.zero_add] at hwords
  rw [hwords, hbytes, Nat.div_self (by decide), Nat.mul_one, hcnt]

def forward (n : Nat) (s : State w) (j : Nat) : State w :=
  { s with
    regs := { s.regs with
      cx := s.regs.cx - BitVec.ofNat w j
      si := s.regs.si + BitVec.ofNat w (j * (n / 8))
      di := s.regs.di + BitVec.ofNat w (j * (n / 8)) }
    mem := moves n s.mem s.regs.si s.regs.di j }

end Forward

section Progress

variable {m₀ : Mem w}

/-- The first `k` of `cnt` bytes have been moved upwards. What they are is
known only where the destination does not begin within the source. -/
structure Progress (m₀ : Mem w) (src dst : BitVec w) (cnt k : Nat) (m : Mem w) : Prop where
  outside : ChangedIn dst k m₀ m
  copied : cnt ≤ (dst - src).toNat → m = Strings.copied m₀ src dst 0 k

theorem Progress.zero (m₀ : Mem w) (src dst : BitVec w) (cnt : Nat) : Progress m₀ src dst cnt 0 m₀ :=
  ⟨ChangedIn.refl _ _ _, fun _ => (copied_none le_rfl).symm⟩

/-- One more unit, of which the bytes may have been read earlier. -/
theorem Progress.store (hn : 8 * (n / 8) = n) (h : Progress m₀ src dst cnt k m) (h' : Progress m₀ src dst cnt j m')
    (hj : j ≤ k) (hk : k + n / 8 ≤ cnt) (hcnt : cnt ≤ 2 ^ w) :
    Progress m₀ src dst cnt (k + n / 8)
      (Memory.store m (dst + BitVec.ofNat w k) (load n m' (src + BitVec.ofNat w k))) := by
  constructor
  · intro b hb
    rw [Memory.store, if_neg, h.outside b (by omega)]
    rw [toNat_sub_lt (by omega)]
    omega
  · intro hclear
    have haddr (b : BitVec w) : src + BitVec.ofNat w k + (b - (dst + BitVec.ofNat w k)) = src + (b - dst) := by ring
    rw [h.copied hclear, h'.copied hclear]
    funext b
    rw [store_load hn, haddr]
    simp only [toNat_sub_lt (show k + n / 8 ≤ 2 ^ w by omega)]
    split
    next hin =>
      have habove := clear_above hclear (i := (b - dst).toNat) (by omega)
      rw [BitVec.ofNat_toNat, BitVec.setWidth_eq] at habove
      rw [Strings.copied, if_neg (by omega), Strings.copied, if_pos (by omega)]
    next hout =>
      rw [Strings.copied, Strings.copied]
      split_ifs <;> first | rfl | omega

end Progress

section Backward

/-- `j` units downwards, from the one that ends at `hi`. -/
def movesDown (n : Nat) (m : Mem w) (src dst : BitVec w) (hi : Nat) : Nat → Mem w
  | 0 => m
  | j + 1 =>
      store (movesDown n m src dst hi j) (dst + BitVec.ofNat w (hi - (j + 1) * (n / 8)))
        (load n (movesDown n m src dst hi j) (src + BitVec.ofNat w (hi - (j + 1) * (n / 8))))

/-- The source begins within the destination, or before, and neither wraps. -/
theorem clear_below (h : (dst - src).toNat + cnt ≤ 2 ^ w) (hlo : i < lo) (hcnt : lo ≤ cnt) :
    ¬ (lo ≤ (src + BitVec.ofNat w i - dst).toNat ∧ (src + BitVec.ofNat w i - dst).toNat < cnt) := by
  have heq : src + BitVec.ofNat w i - dst = BitVec.ofNat w i - (dst - src) := by ring
  have hnat : (BitVec.ofNat w i).toNat = i := by rw [BitVec.toNat_ofNat, Nat.mod_eq_of_lt (by omega)]
  have hsub := Word.toNat_sub_cases (BitVec.ofNat w i) (dst - src)
  rw [heq]
  omega

theorem movesDown_changedIn (hcnt : hi ≤ cnt) (hj : j * (n / 8) ≤ hi) (hw : cnt ≤ 2 ^ w) :
    ChangedIn dst cnt m (movesDown n m src dst hi j) := by
  induction j with
  | zero => exact ChangedIn.refl dst cnt m
  | succ j ih =>
      rw [Nat.succ_mul] at hj
      intro b hb
      rw [movesDown, store, if_neg, ih (by omega) b hb]
      rw [toNat_sub_lt (by rw [Nat.succ_mul]; omega), Nat.succ_mul]
      omega

theorem movesDown_eq (hn : 8 * (n / 8) = n) (h : (dst - src).toNat + cnt ≤ 2 ^ w) (hcnt : hi ≤ cnt)
    (hj : j * (n / 8) ≤ hi) :
    movesDown n (copied m src dst hi cnt) src dst hi j = copied m src dst (hi - j * (n / 8)) cnt := by
  induction j with
  | zero => rw [movesDown, Nat.zero_mul, Nat.sub_zero]
  | succ j ih =>
      rw [Nat.succ_mul] at hj
      have hstep : hi - (j + 1) * (n / 8) + n / 8 = hi - j * (n / 8) := by
        rw [Nat.succ_mul]
        omega
      funext b
      rw [movesDown, ih (by omega), store_copied hn (by omega)]
      · simp only [copied, hstep]
        split_ifs <;> first | rfl | omega
      · intro i hge hlt
        exact clear_below h (by omega) (by omega)

theorem movesDown_words (hn : 8 * (n / 8) = n) (h : (dst - src).toNat + cnt ≤ 2 ^ w) :
    movesDown n (movesDown 8 m src dst cnt (cnt % (n / 8))) src dst (cnt / (n / 8) * (n / 8)) (cnt / (n / 8)) =
      copied m src dst 0 cnt := by
  have hcnt := Nat.div_add_mod' cnt (n / 8)
  have hbytes := movesDown_eq (n := 8) (m := m) (j := cnt % (n / 8)) (by decide) h le_rfl (by omega)
  have hwords := movesDown_eq (m := m) (j := cnt / (n / 8)) hn h (by omega) le_rfl
  rw [copied_none le_rfl, Nat.div_self (by decide), Nat.mul_one, Nat.sub_eq_of_eq_add hcnt.symm] at hbytes
  rw [hbytes, hwords, Nat.sub_self]

theorem sub_words (a cnt : BitVec w) (hk : 0 < k) :
    a + cnt - 1#w - BitVec.ofNat w (cnt.toNat % k) - BitVec.ofNat w (k - 1) =
      a + BitVec.ofNat w (cnt.toNat / k * k) - BitVec.ofNat w k := by
  have hcnt : cnt = BitVec.ofNat w (cnt.toNat / k * k) + BitVec.ofNat w (cnt.toNat % k) := by
    rw [← BitVec.ofNat_add, Nat.div_add_mod', BitVec.ofNat_toNat, BitVec.setWidth_eq]
  have hunit : BitVec.ofNat w k = BitVec.ofNat w (k - 1) + 1#w := by
    rw [← BitVec.ofNat_add, Nat.sub_add_cancel hk]
  rw [hunit]
  refine (congrArg (a + · - 1#w - BitVec.ofNat w (cnt.toNat % k) - BitVec.ofNat w (k - 1)) hcnt).trans ?_
  ring

def backward (n : Nat) (s : State w) (src dst : BitVec w) (hi j : Nat) : State w :=
  { s with
    regs := { s.regs with
      cx := s.regs.cx - BitVec.ofNat w j
      si := s.regs.si - BitVec.ofNat w (j * (n / 8))
      di := s.regs.di - BitVec.ofNat w (j * (n / 8)) }
    mem := movesDown n s.mem src dst hi j }

end Backward

section Rep

variable {L : Type} [DecidableEq L] {text : List (Line L)} {ip : Nat} {s : State w}

theorem next_rep (hline : text[ip]? = some (.rep (.movs n))) (hcx : s.regs.cx ≠ 0#w) :
    next text ⟨ip, s⟩ =
      some ⟨ip, { s.movs n with regs := { (s.movs n).regs with cx := (s.movs n).regs.cx - 1#w } }⟩ := by
  rw [next, hline, Option.bind_some, execLine, if_neg hcx]
  rfl

theorem sub_ofNat_ne_zero {x : BitVec w} (h : j < x.toNat) : x - BitVec.ofNat w j ≠ 0#w := by
  intro hzero
  have hlt := x.isLt
  have hnat := congrArg BitVec.toNat (sub_eq_zero.mp hzero)
  rw [BitVec.toNat_ofNat, Nat.mod_eq_of_lt (by omega)] at hnat
  omega

theorem step_forward (hline : text[ip]? = some (.rep (.movs n))) (hdf : s.df = false) (hj : j < s.regs.cx.toNat) :
    Steps text ⟨ip, forward n s j⟩ ⟨ip, forward n s (j + 1)⟩ := by
  rw [Steps, next_rep hline (sub_ofNat_ne_zero hj)]
  simp only [forward, State.movs, hdf, moves, BitVec.ofNat_add, Nat.succ_mul, BitVec.add_assoc, BitVec.sub_sub]
  rfl

theorem add_sub_unit (h : (j + 1) * k ≤ hi) :
    a + BitVec.ofNat w hi - BitVec.ofNat w k - BitVec.ofNat w (j * k) = a + BitVec.ofNat w (hi - (j + 1) * k) := by
  obtain ⟨r, rfl⟩ := Nat.exists_eq_add_of_le h
  rw [Nat.add_sub_cancel_left, Nat.succ_mul, BitVec.ofNat_add, BitVec.ofNat_add]
  ring

theorem step_backward (hline : text[ip]? = some (.rep (.movs n))) (hdf : s.df = true) (hj : j < s.regs.cx.toNat)
    (hsi : s.regs.si = src + BitVec.ofNat w hi - BitVec.ofNat w (n / 8))
    (hdi : s.regs.di = dst + BitVec.ofNat w hi - BitVec.ofNat w (n / 8)) (hhi : (j + 1) * (n / 8) ≤ hi) :
    Steps text ⟨ip, backward n s src dst hi j⟩ ⟨ip, backward n s src dst hi (j + 1)⟩ := by
  have hsource := add_sub_unit (a := src) hhi
  have hdest := add_sub_unit (a := dst) hhi
  rw [Steps, next_rep hline (sub_ofNat_ne_zero hj)]
  simp only [backward, State.movs, hdf, movesDown, hsi, hdi, hsource, hdest, if_true]
  rw [← hsource, ← hdest, Nat.succ_mul, BitVec.ofNat_add, BitVec.ofNat_add]
  simp only [BitVec.sub_sub, BitVec.add_assoc]
  rfl

theorem reaches_forward {R : Cfg w → Cfg w → Prop}
    (hR : ∀ j < s.regs.cx.toNat, R ⟨ip, forward n s j⟩ ⟨ip, forward n s (j + 1)⟩) {k : Nat} (hk : k ≤ s.regs.cx.toNat) :
    Relation.ReflTransGen R ⟨ip, s⟩ ⟨ip, forward n s k⟩ := by
  induction k with
  | zero =>
      have hstart : forward n s 0 = s := by
        simp [forward, moves]
      rw [hstart]
  | succ k ih => exact (ih (Nat.le_of_succ_le hk)).tail (hR k hk)

theorem reaches_backward {R : Cfg w → Cfg w → Prop}
    (hR : ∀ j < s.regs.cx.toNat, R ⟨ip, backward n s src dst hi j⟩ ⟨ip, backward n s src dst hi (j + 1)⟩) {k : Nat}
    (hk : k ≤ s.regs.cx.toNat) :
    Relation.ReflTransGen R ⟨ip, s⟩ ⟨ip, backward n s src dst hi k⟩ := by
  induction k with
  | zero =>
      have hstart : backward n s src dst hi 0 = s := by
        simp [backward, movesDown]
      rw [hstart]
  | succ k ih => exact (ih (Nat.le_of_succ_le hk)).tail (hR k hk)

variable {ax cx dx bx sp bp si di : BitVec w} {high : HighRegs w} {fl : Flags} {P : Cfg w → Prop}
  {lines : List (Line L)}

theorem sub_ofNat_toNat (x : BitVec w) : x - BitVec.ofNat w x.toNat = 0#w := by
  rw [BitVec.ofNat_toNat, BitVec.setWidth_eq, BitVec.sub_self]

theorem leads_rep_done (hat : At text ip (.rep (.movs n) :: lines)) (hcx : s.regs.cx = 0#w)
    (h : Leads (Steps text) ⟨ip + 1, s⟩ P) : Leads (Steps text) ⟨ip, s⟩ P := by
  have hone : At text ip [.rep (.movs n)] := ⟨_, (List.append_assoc [_] lines _).symm.trans hat.choose_spec⟩
  exact leads_run hone ⟨_, run_rep_done hcx, h⟩

theorem leads_rep (hat : At text ip (.rep (.movs n) :: lines))
    (h : Leads (Steps text) ⟨ip + 1, ⟨⟨ax, 0#w, dx, bx, sp, bp, si + BitVec.ofNat w (cx.toNat * (n / 8)),
      di + BitVec.ofNat w (cx.toNat * (n / 8)), high⟩, fl, false, moves n m si di cx.toNat⟩⟩ P) :
    Leads (Steps text) ⟨ip, ⟨⟨ax, cx, dx, bx, sp, bp, si, di, high⟩, fl, false, m⟩⟩ P := by
  have hreach := reaches_forward (n := n) (s := ⟨⟨ax, cx, dx, bx, sp, bp, si, di, high⟩, fl, false, m⟩)
    (fun j hj => step_forward hat.head rfl hj) le_rfl
  apply Leads.of_reaches hreach
  apply leads_rep_done hat (sub_ofNat_toNat cx)
  simpa only [forward, sub_ofNat_toNat] using h

theorem leads_rep_down (src dst : BitVec w) (hi : Nat) (hat : At text ip (.rep (.movs n) :: lines))
    (hsi : si = src + BitVec.ofNat w hi - BitVec.ofNat w (n / 8))
    (hdi : di = dst + BitVec.ofNat w hi - BitVec.ofNat w (n / 8)) (hhi : cx.toNat * (n / 8) ≤ hi)
    (h : Leads (Steps text) ⟨ip + 1, ⟨⟨ax, 0#w, dx, bx, sp, bp, si - BitVec.ofNat w (cx.toNat * (n / 8)),
      di - BitVec.ofNat w (cx.toNat * (n / 8)), high⟩, fl, true, movesDown n m src dst hi cx.toNat⟩⟩ P) :
    Leads (Steps text) ⟨ip, ⟨⟨ax, cx, dx, bx, sp, bp, si, di, high⟩, fl, true, m⟩⟩ P := by
  have hunits {j : Nat} (hj : j < cx.toNat) : (j + 1) * (n / 8) ≤ hi := (Nat.mul_le_mul_right _ hj).trans hhi
  have hreach := reaches_backward (n := n)
    (s := ⟨⟨ax, cx, dx, bx, sp, bp, si, di, high⟩, fl, true, m⟩)
    (fun j hj => step_backward hat.head rfl hj hsi hdi (hunits hj)) le_rfl
  apply Leads.of_reaches hreach
  apply leads_rep_done hat (sub_ofNat_toNat cx)
  simpa only [backward, sub_ofNat_toNat] using h

end Rep

end SysvDev.X86.Strings
