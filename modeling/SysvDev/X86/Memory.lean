import SysvDev.Word

namespace SysvDev.X86.Memory

open Word

variable {w n : Nat} {a b c d f : BitVec w} {j k N K : Nat}

abbrev Mem (w : Nat) := BitVec w → BitVec 8

/-- An address, and how many bytes there. -/
abbrev Span (w : Nat) := BitVec w × Nat

/-- The number that `k` bytes hold, the low one first. -/
def loadNat (m : Mem w) : Nat → BitVec w → Nat
  | 0, _ => 0
  | k + 1, a => (m a).toNat + 256 * loadNat m k (a + 1#w)

def load (n : Nat) (m : Mem w) (a : BitVec w) : BitVec n := BitVec.ofNat n (loadNat m (n / 8) a)

def store (m : Mem w) (a : BitVec w) (v : BitVec n) : Mem w :=
  fun b => if (b - a).toNat < n / 8 then (v >>> (8 * (b - a).toNat)).setWidth 8 else m b

/-- The `j` bytes at `a` and the `k` bytes at `b` have none in common. -/
def Apart (a : BitVec w) (j : Nat) (b : BitVec w) (k : Nat) : Prop :=
  j ≤ (b - a).toNat ∧ k ≤ (a - b).toNat

instance : Decidable (Apart a j b k) := inferInstanceAs (Decidable (_ ∧ _))

theorem Apart.symm (h : Apart a j b k) : Apart b k a j := ⟨h.2, h.1⟩

theorem apart_add : Apart (f + a) j (f + b) k ↔ Apart a j b k := by
  simp only [Apart, add_sub_add_left_eq_sub]

/-- Two addresses that differ are as far apart one way as they are not the
other way round. -/
theorem toNat_sub_add_toNat_sub (h : a ≠ b) : (a - b).toNat + (b - a).toNat = 2 ^ w := by
  have hne : a.toNat ≠ b.toNat := fun heq => h (BitVec.eq_of_toNat_eq heq)
  have ha := a.isLt
  have hb := b.isLt
  rcases toNat_sub_cases a b with ⟨h1, h2⟩ | ⟨h1, h2⟩ <;>
    rcases toNat_sub_cases b a with ⟨h3, h4⟩ | ⟨h3, h4⟩ <;> omega

theorem Apart.part (h : Apart a N b K) (hc : c.toNat + j ≤ N) (hd : d.toNat + k ≤ K) (hj : 0 < j) (hk : 0 < k) :
    Apart (a + c) j (b + d) k := by
  obtain ⟨hN, hK⟩ := h
  have hne : b ≠ a := by
    rintro rfl
    rw [BitVec.sub_self] at hN
    simp only [BitVec.toNat_ofNat, Nat.zero_mod] at hN
    omega
  have hsum := toNat_sub_add_toNat_sub hne
  have hfwd : b + d - (a + c) = b - a + d - c := by ring
  have hbwd : a + c - (b + d) = a - b + c - d := by ring
  have hadd : (b - a + d).toNat = (b - a).toNat + d.toNat := BitVec.toNat_add_of_lt (by omega)
  have hadd' : (a - b + c).toNat = (a - b).toNat + c.toNat := BitVec.toNat_add_of_lt (by omega)
  constructor
  · rw [hfwd, BitVec.toNat_sub_of_le (BitVec.le_def.mpr (by omega))]
    omega
  · rw [hbwd, BitVec.toNat_sub_of_le (BitVec.le_def.mpr (by omega))]
    omega

theorem load_zero (n : Nat) (a : BitVec w) : load n (fun _ => 0#8) a = 0#n := by
  have hzero (k : Nat) (b : BitVec w) : loadNat (fun _ => 0#8) k b = 0 := by
    induction k generalizing b with
    | zero => rfl
    | succ k ih => rw [loadNat, ih]; rfl
  rw [load, hzero]

theorem loadNat_congr {m m' : Mem w} (h : ∀ i < k, m (a + BitVec.ofNat w i) = m' (b + BitVec.ofNat w i)) :
    loadNat m k a = loadNat m' k b := by
  induction k generalizing a b with
  | zero => rfl
  | succ k ih =>
      have h0 := h 0 (Nat.succ_pos k)
      rw [BitVec.add_zero, BitVec.add_zero] at h0
      have hrest : loadNat m k (a + 1#w) = loadNat m' k (b + 1#w) := by
        apply ih
        intro i hi
        have hi' := h (i + 1) (Nat.succ_lt_succ hi)
        rwa [Nat.add_comm i 1, BitVec.ofNat_add, ← BitVec.add_assoc, ← BitVec.add_assoc] at hi'
      rw [loadNat, loadNat, h0, hrest]

theorem load_congr {n : Nat} {m m' : Mem w}
    (h : ∀ i < n / 8, m (a + BitVec.ofNat w i) = m' (b + BitVec.ofNat w i)) : load n m a = load n m' b :=
  congrArg (BitVec.ofNat n) (loadNat_congr h)

theorem loadNat_eq {m : Mem w} {V : Nat}
    (h : ∀ i < k, (m (a + BitVec.ofNat w i)).toNat = V / 256 ^ i % 256) : loadNat m k a = V % 256 ^ k := by
  induction k generalizing a V with
  | zero => rw [loadNat, Nat.pow_zero, Nat.mod_one]
  | succ k ih =>
      have h0 := h 0 (Nat.succ_pos k)
      rw [BitVec.add_zero, Nat.pow_zero, Nat.div_one] at h0
      have hrest : loadNat m k (a + 1#w) = V / 256 % 256 ^ k := by
        apply ih
        intro i hi
        have hi' := h (i + 1) (Nat.succ_lt_succ hi)
        rwa [Nat.add_comm i 1, BitVec.ofNat_add, ← BitVec.add_assoc, Nat.add_comm 1 i, Nat.pow_succ',
          ← Nat.div_div_eq_div_mul] at hi'
      rw [loadNat, h0, hrest, Nat.pow_succ', Nat.mod_mul]

theorem add_ofNat_sub {i : Nat} (h : i < 2 ^ w) : (a + BitVec.ofNat w i - a).toNat = i := by
  rw [BitVec.add_comm, BitVec.add_sub_cancel, BitVec.toNat_ofNat, Nat.mod_eq_of_lt h]

theorem load_store_same (m : Mem w) (a : BitVec w) (v : BitVec n) (hn : 8 * (n / 8) = n) (hw : n / 8 ≤ 2 ^ w) :
    load n (store m a v) a = v := by
  have hdigits : loadNat (store m a v) (n / 8) a = v.toNat % 256 ^ (n / 8) := by
    apply loadNat_eq
    intro i hi
    rw [store, add_ofNat_sub (Nat.lt_of_lt_of_le hi hw), if_pos hi, BitVec.toNat_setWidth,
      BitVec.toNat_ushiftRight, Nat.shiftRight_eq_div_pow, Nat.pow_mul]
  have hpow : 256 ^ (n / 8) = 2 ^ n := by
    rw [show 256 = 2 ^ 8 from rfl, ← Nat.pow_mul, hn]
  apply BitVec.eq_of_toNat_eq
  rw [load, hdigits, hpow, BitVec.toNat_ofNat, Nat.mod_mod, Nat.mod_eq_of_lt v.isLt]

/-- Only bytes of the `N` from `f` on have changed. -/
def ChangedIn (f : BitVec w) (N : Nat) (m m' : Mem w) : Prop := ∀ b, N ≤ (b - f).toNat → m' b = m b

theorem ChangedIn.load {m m' : Mem w} (h : ChangedIn f N m m') (ha : Apart f N a (n / 8)) :
    load n m' a = load n m a := by
  rw [Memory.load, Memory.load]
  congr 1
  apply loadNat_congr
  intro i hi
  apply h
  obtain ⟨hfwd, hbwd⟩ := ha
  by_cases hab : a = f
  · subst hab
    rw [BitVec.sub_self] at hbwd
    simp only [BitVec.toNat_ofNat, Nat.zero_mod] at hbwd
    omega
  · have hsum := toNat_sub_add_toNat_sub hab
    have heq : a + BitVec.ofNat w i - f = a - f + BitVec.ofNat w i := by ring
    rw [heq, BitVec.toNat_add_of_lt (by rw [BitVec.toNat_ofNat, Nat.mod_eq_of_lt (by omega)]; omega)]
    omega

theorem load_store_apart {m : Mem w} {v : BitVec n} {k : Nat} (h : Apart a (n / 8) b (k / 8)) :
    load k (store m a v) b = load k m b := by
  apply ChangedIn.load (f := a) (N := n / 8) _ h
  intro c hc
  rw [store, if_neg (Nat.not_lt.mpr hc)]

theorem loadNat_lt (m : Mem w) (k : Nat) (a : BitVec w) : loadNat m k a < 256 ^ k := by
  induction k generalizing a with
  | zero => exact Nat.one_pos
  | succ k ih =>
      have hbyte : (m a).toNat < 256 := (m a).isLt
      have hrest := ih (a + 1#w)
      rw [loadNat, Nat.pow_succ]
      omega

theorem load_succ (m : Mem w) (a : BitVec w) (hn : 8 * (n / 8) = n) :
    load (n + 8) m a = load n m (a + 1#w) ++ load 8 m a := by
  have hlt := loadNat_lt m (n / 8) (a + 1#w)
  rw [show 256 = 2 ^ 8 from rfl, ← Nat.pow_mul, hn] at hlt
  have hbyte : (m a).toNat < 256 := (m a).isLt
  apply BitVec.eq_of_toNat_eq
  rw [toNat_pair, load, load, load, Nat.add_div_right n (by norm_num), loadNat, BitVec.toNat_ofNat, BitVec.toNat_ofNat,
    Nat.mod_eq_of_lt hlt, Nat.mod_eq_of_lt (by rw [Nat.pow_add]; omega)]
  simp only [loadNat, Nat.mul_zero, Nat.add_zero, BitVec.ofNat_toNat, BitVec.setWidth_eq, Nat.reduceDiv]
  ring

theorem load_pair (m : Mem w) (a : BitVec w) :
    load 64 m a = load 32 m (a + 4#w) ++ load 32 m a := by
  have hsplit : loadNat m 8 a = loadNat m 4 (a + 4#w) * 2 ^ 32 + loadNat m 4 a := by
    have hone (i : Nat) : a + BitVec.ofNat w i + 1#w = a + BitVec.ofNat w (i + 1) := by
      rw [BitVec.ofNat_add, BitVec.add_assoc]
    simp only [loadNat, show a + 1#w + 1#w = a + 2#w from hone 1, show a + 2#w + 1#w = a + 3#w from hone 2,
      show a + 3#w + 1#w = a + 4#w from hone 3]
    ring
  have hlt (b : BitVec w) : loadNat m 4 b < 2 ^ 32 := by
    have h (c : BitVec w) : (m c).toNat < 256 := (m c).isLt
    have h0 := h b
    have h1 := h (b + 1#w)
    have h2 := h (b + 1#w + 1#w)
    have h3 := h (b + 1#w + 1#w + 1#w)
    simp only [loadNat]
    omega
  symm
  apply pair_eq
  simp only [load, BitVec.toNat_ofNat, Nat.reduceDiv, hsplit, Nat.mod_eq_of_lt (hlt a),
    Nat.mod_eq_of_lt (hlt (a + 4#w))]
  rw [Nat.mod_eq_of_lt]
  have h1 := hlt a
  have h2 := hlt (a + 4#w)
  omega

theorem toNat_sub_add (h : c.toNat ≤ (b - f).toNat) : (b - (f + c)).toNat = (b - f).toNat - c.toNat := by
  have heq : b - (f + c) = b - f - c := by ring
  rw [heq, BitVec.toNat_sub_of_le (BitVec.le_def.mpr h)]

theorem store_outside {m : Mem w} {v : BitVec n} (h : N ≤ (b - f).toNat) (hc : c.toNat + n / 8 ≤ N) :
    store m (f + c) v b = m b := by
  rw [store, if_neg]
  rw [toNat_sub_add (by omega)]
  omega

theorem ChangedIn.refl (f : BitVec w) (N : Nat) (m : Mem w) : ChangedIn f N m m := fun _ _ => rfl

theorem ChangedIn.trans {m m' m'' : Mem w} (h : ChangedIn f N m m') (h' : ChangedIn f N m' m'') :
    ChangedIn f N m m'' := fun b hb => (h' b hb).trans (h b hb)

theorem ChangedIn.mono {m m' : Mem w} (h : ChangedIn f N m m') (hN : N ≤ K) : ChangedIn f K m m' :=
  fun b hb => h b (hN.trans hb)

theorem ChangedIn.store {m m' : Mem w} {v : BitVec n} (h : ChangedIn f N m m') (hc : c.toNat + n / 8 ≤ N) :
    ChangedIn f N m (Memory.store m' (f + c) v) :=
  fun b hb => (store_outside hb hc).trans (h b hb)

theorem ChangedIn.above {m m' : Mem w} (h : ChangedIn f N m m') (d : Nat) (hd : N ≤ d) (hlt : d + n / 8 ≤ 2 ^ w)
    (hpos : 0 < d) (hn : 0 < n / 8) :
    Memory.load n m' (f + BitVec.ofNat w d) = Memory.load n m (f + BitVec.ofNat w d) := by
  have hnat : (BitVec.ofNat w d).toNat = d := by
    rw [BitVec.toNat_ofNat, Nat.mod_eq_of_lt (by omega)]
  have hbwd : f - (f + BitVec.ofNat w d) = -BitVec.ofNat w d := by ring
  apply h.load
  constructor
  · rw [BitVec.add_comm, BitVec.add_sub_cancel, hnat]
    exact hd
  · rw [hbwd, BitVec.toNat_neg, hnat, Nat.mod_eq_of_lt] <;> omega

/-- The `k` bytes at `a` are none of the `N` bytes at `f`. -/
def Outside (f : BitVec w) (N : Nat) (a : BitVec w) (k : Nat) : Prop :=
  ∀ i < k, N ≤ (a + BitVec.ofNat w i - f).toNat

instance : Decidable (Outside f N a k) := inferInstanceAs (Decidable (∀ i < k, _))

theorem Outside.le (h : Outside f N a K) (hb : (b - f).toNat < N) : K ≤ (b - a).toNat := by
  by_contra hlt
  have hout := h (b - a).toNat (Nat.lt_of_not_le hlt)
  have heq : a + (b - a) = b := by ring
  rw [BitVec.ofNat_toNat, BitVec.setWidth_eq, heq] at hout
  omega

theorem Outside.load {m m' : Mem w} (h : Outside f N a K) (hm : ChangedIn a K m m')
    (hb : (b - f).toNat + n / 8 ≤ N) : Memory.load n m' b = Memory.load n m b := by
  rw [Memory.load, Memory.load]
  congr 1
  apply loadNat_congr
  intro i hi
  apply hm
  by_contra hlt
  have hout := h _ (Nat.lt_of_not_le hlt)
  have heq : a + (b + BitVec.ofNat w i - a) - f = b - f + BitVec.ofNat w i := by ring
  rw [BitVec.ofNat_toNat, BitVec.setWidth_eq, heq] at hout
  have hbound := (b - f + BitVec.ofNat w i).isLt
  have hnat : (BitVec.ofNat w i).toNat = i := by rw [BitVec.toNat_ofNat, Nat.mod_eq_of_lt (by omega)]
  rw [BitVec.toNat_add_of_lt (by rw [hnat]; omega), hnat] at hout
  omega

end SysvDev.X86.Memory
