import SysvDev.Inevitable
import SysvDev.X86.Run

namespace SysvDev.X86.Cells

open Function Memory Machine Run Inevitable

section Cells

variable {w : Nat} {K : Type} [DecidableEq K] {place : K → BitVec w} {m : Mem w}

/-- Words of 32 bits that have no byte in common. -/
def Spread (place : K → BitVec w) : Prop := ∀ j k, j ≠ k → Apart (place j) 4 (place k) 4

def cells (place : K → BitVec w) (m : Mem w) (k : K) : BitVec 32 := load 32 m (place k)

theorem cells_store (h : Spread place) (hw : 2 ≤ w) (k : K) (v : BitVec 32) :
    cells place (store m (place k) v) = update (cells place m) k v := by
  have hpow : 2 ^ 2 ≤ 2 ^ w := Nat.pow_le_pow_right (by decide) hw
  funext j
  by_cases hj : j = k
  · subst hj
    rw [update_self]
    exact load_store_same m _ v rfl hpow
  · rw [update_of_ne hj]
    exact load_store_apart (h k j (Ne.symm hj))

theorem toNat_merge_byte (old : BitVec 32) (v : BitVec 8) :
    (State.merge old v).toNat = old.toNat / 256 * 256 + v.toNat := by
  have hold := old.isLt
  have hv := v.isLt
  have hor := Nat.shiftLeft_add_eq_or_of_lt hv (old.toNat / 256)
  rw [State.merge, if_neg (by decide), BitVec.toNat_or, BitVec.toNat_shiftLeft, BitVec.toNat_ushiftRight,
    BitVec.toNat_setWidth, Nat.mod_eq_of_lt (a := v.toNat) (by omega), Nat.shiftRight_eq_div_pow]
  rw [Nat.shiftLeft_eq] at hor ⊢
  rw [Nat.mod_eq_of_lt (by omega)]
  exact hor.symm

theorem load_store_low (hw : 2 ≤ w) (a : BitVec w) (v : BitVec 8) :
    load 32 (store m a v) a = State.merge (load 32 m a) v := by
  have hpow : 2 ^ 2 ≤ 2 ^ w := Nat.pow_le_pow_right (by decide) hw
  have hself : store m a v a = v := by
    rw [store, BitVec.sub_self, BitVec.toNat_zero]
    simp
  have hrest : loadNat (store m a v) 3 (a + 1#w) = loadNat m 3 (a + 1#w) := by
    apply loadNat_congr
    intro i hi
    have hone : a + 1#w + BitVec.ofNat w i = a + BitVec.ofNat w (i + 1) := by
      rw [BitVec.add_assoc, ← BitVec.ofNat_add, Nat.add_comm 1 i]
    rw [store, if_neg]
    rw [hone, add_ofNat_sub (by omega)]
    omega
  have hload : loadNat m 4 a = (m a).toNat + 256 * loadNat m 3 (a + 1#w) := rfl
  have hload' : loadNat (store m a v) 4 a = v.toNat + 256 * loadNat m 3 (a + 1#w) := by
    rw [loadNat, hself, hrest]
  have hm := (m a).isLt
  have hv := v.isLt
  have hlt : loadNat m 3 (a + 1#w) < 2 ^ 24 := by
    have h1 := (m (a + 1#w)).isLt
    have h2 := (m (a + 1#w + 1#w)).isLt
    have h3 := (m (a + 1#w + 1#w + 1#w)).isLt
    simp only [loadNat]
    omega
  apply BitVec.eq_of_toNat_eq
  rw [toNat_merge_byte, load, load, BitVec.toNat_ofNat, BitVec.toNat_ofNat, hload', hload,
    Nat.mod_eq_of_lt (by omega), Nat.mod_eq_of_lt (by omega)]
  omega

theorem cells_store_low (h : Spread place) (hw : 2 ≤ w) (k : K) (v : BitVec 8) :
    cells place (store m (place k) v) = update (cells place m) k (State.merge (cells place m k) v) := by
  funext j
  by_cases hj : j = k
  · subst hj
    rw [update_self]
    exact load_store_low hw _ v
  · rw [update_of_ne hj]
    obtain ⟨hfwd, hbwd⟩ := h k j (Ne.symm hj)
    exact load_store_apart ⟨le_trans (by decide) hfwd, hbwd⟩

end Cells

section Pairs

variable {n : Nat}

def high (v : BitVec (n + n)) : BitVec n := v.extractLsb' n n

def low (v : BitVec (n + n)) : BitVec n := v.setWidth n

theorem toNat_high (v : BitVec (n + n)) : (high v).toNat = v.toNat / 2 ^ n := by
  have hlt : v.toNat / 2 ^ n < 2 ^ n := by
    rw [Nat.div_lt_iff_lt_mul (Nat.two_pow_pos n), ← Nat.pow_add]
    exact v.isLt
  rw [high, BitVec.extractLsb'_toNat, Nat.shiftRight_eq_div_pow, Nat.mod_eq_of_lt hlt]

theorem toNat_low (v : BitVec (n + n)) : (low v).toNat = v.toNat % 2 ^ n := BitVec.toNat_setWidth n v

theorem pair_words (v : BitVec (n + n)) : high v ++ low v = v := by
  apply Word.pair_eq
  rw [toNat_high, toNat_low, Nat.mul_comm, Nat.div_add_mod]

theorem words_of_pair {a b : BitVec n} {v : BitVec (n + n)} (h : a ++ b = v) : a = high v ∧ b = low v := by
  rw [← pair_words v] at h
  exact Word.pair_inj.mp h

@[simp] theorem high_pair (a b : BitVec n) : high (a ++ b) = a := (words_of_pair rfl).1.symm

@[simp] theorem low_pair (a b : BitVec n) : low (a ++ b) = b := (words_of_pair rfl).2.symm

theorem words_sub (x y : BitVec (n + n)) :
    (difference (high y) (high x) (decide ((low x).toNat < (low y).toNat))).1 = high (x - y) ∧
      low x - low y = low (x - y) := by
  have hpair := pair_difference (high x) (low x) (high y) (low y)
  rw [pair_words, pair_words, difference_val] at hpair
  exact words_of_pair hpair

theorem words_add (x y : BitVec (n + n)) :
    (sum (high y) (high x) (decide (2 ^ n ≤ (low x).toNat + (low y).toNat))).1 = high (x + y) ∧
      low x + low y = low (x + y) := by
  have hpair := Word.pair_add (high x) (low x) (high y) (low y)
  rw [pair_words, pair_words] at hpair
  exact words_of_pair hpair

end Pairs

section Calls

variable {w : Nat} {L : Type} [DecidableEq L] {text : List (Line L)} {ext : Nat → Option (State w → State w)} {ip : Nat}
  {s : State w} {P Q : Cfg w → Prop} {lines : List (Line L)}

/-- The machine with routines that are not in the text: each takes one step from
its entry to behind its return. -/
def nextWith (text : List (Line L)) (ext : Nat → Option (State w → State w)) (c : Cfg w) : Option (Cfg w) :=
  match ext c.ip with
  | some f => some ⟨(c.state.pop 0).1.toNat, f c.state⟩
  | none => next text c

abbrev StepsWith (text : List (Line L)) (ext : Nat → Option (State w → State w)) (c d : Cfg w) : Prop :=
  d ∈ nextWith text ext c

theorem leads_lines (hext : ∀ i < text.length, ext i = none) (h : At text ip lines)
    (hrun : ∃ d, run text ip s lines = some d ∧ Leads (StepsWith text ext) d P) :
    Leads (StepsWith text ext) ⟨ip, s⟩ P := by
  refine leads_run_of h (fun i t d hi hlt hstep => ?_) hrun
  have hlen := h.length_le
  rw [List.length_drop] at hlen
  rw [StepsWith, nextWith, hext i (by omega)]
  exact hstep

theorem leads_extern {f : State w → State w} (hf : ext ip = some f)
    (h : Leads (StepsWith text ext) ⟨(s.pop 0).1.toNat, f s⟩ P) : Leads (StepsWith text ext) ⟨ip, s⟩ P := by
  refine Leads.of_reaches (Relation.ReflTransGen.single ?_) h
  rw [StepsWith, nextWith, hf]
  rfl

/-- The machine is deterministic: the lines that stand at `ip` are on every run. -/
theorem until_lines (hext : ∀ i, ip ≤ i → i < ip + lines.length → ext i = none) (h : At text ip lines)
    (hQ : ∀ i t, ip ≤ i → i < ip + lines.length → Q ⟨i, t⟩)
    (hrun : ∃ d, run text ip s lines = some d ∧ Until (StepsWith text ext) Q P d) :
    Until (StepsWith text ext) Q P ⟨ip, s⟩ := by
  obtain ⟨d, hd, hend⟩ := hrun
  induction lines generalizing ip s with
  | nil =>
      obtain rfl := Option.some.inj hd
      exact hend
  | cons line lines ih =>
      have hline : text[ip]? = some line := h.head
      rw [List.length_cons] at hQ hext
      have hnone : ext ip = none := hext ip le_rfl (by omega)
      have hnext : nextWith text ext ⟨ip, s⟩ = (execLine text ip s line).map fun r => ⟨r.2.getD (ip + 1), r.1⟩ := by
        simp only [nextWith, hnone, next, hline, Option.bind_some]
      have hgoes {e : Cfg w} (he : nextWith text ext ⟨ip, s⟩ = some e) (huntil : Until (StepsWith text ext) Q P e) :
          Until (StepsWith text ext) Q P ⟨ip, s⟩ := by
        refine .next (hQ ip s le_rfl (by omega)) ⟨e, he⟩ fun e' he' => ?_
        rw [StepsWith, he] at he'
        exact Option.some.inj he' ▸ huntil
      rw [run] at hd
      split at hd
      · cases hd
      · next t hexec =>
          rw [hexec] at hnext
          have hrest : Until (StepsWith text ext) Q P ⟨ip + 1, t⟩ :=
            ih (fun i hi hlt => hext i (by omega) (by omega)) h.tail (fun i t hi hlt => hQ i t (by omega) (by omega)) hd
          exact hgoes hnext hrest
      · next t target hexec =>
          rw [hexec] at hnext
          obtain rfl := Option.some.inj hd
          exact hgoes hnext hend

theorem until_block (hext : ∀ i < text.length, ext i = none) (h : At text ip lines)
    (hQ : ∀ i t, ip ≤ i → i < ip + lines.length → Q ⟨i, t⟩)
    (hrun : ∃ d, run text ip s lines = some d ∧ Until (StepsWith text ext) Q P d) :
    Until (StepsWith text ext) Q P ⟨ip, s⟩ := by
  have hlen := h.length_le
  rw [List.length_drop] at hlen
  exact until_lines (fun i _ hlt => hext i (by omega)) h hQ hrun

theorem until_extern {f : State w → State w} (hf : ext ip = some f) (hQ : Q ⟨ip, s⟩)
    (h : Until (StepsWith text ext) Q P ⟨(s.pop 0).1.toNat, f s⟩) : Until (StepsWith text ext) Q P ⟨ip, s⟩ := by
  have hnext : nextWith text ext ⟨ip, s⟩ = some ⟨(s.pop 0).1.toNat, f s⟩ := by
    rw [nextWith, hf]
  refine .next hQ ⟨_, hnext⟩ fun e he => ?_
  rw [StepsWith, hnext] at he
  exact Option.some.inj he ▸ h

end Calls

end SysvDev.X86.Cells
