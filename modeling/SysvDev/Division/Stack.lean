import SysvDev.Division.Text
import SysvDev.X86.Run

namespace SysvDev.Division.Stack

open Word X86.Memory X86.Machine X86.Run Text

variable {o : State 32} {f r c v : BitVec 32} {m : Mem 32} {k : Nat}

/-- A frame at `f`, with `k` bytes of locals, of a call made in the state `o`:
the registers saved above the locals, and nothing changed outside. -/
structure Frame (o : State 32) (f : BitVec 32) (k : Nat) (m : Mem 32) : Prop where
  si : load 32 m (f + BitVec.ofNat 32 k) = o.regs.si
  di : load 32 m (f + BitVec.ofNat 32 (k + 4)) = o.regs.di
  bp : load 32 m (f + BitVec.ofNat 32 (k + 8)) = o.regs.bp
  outside : ChangedIn f (k + 12) o.mem m

theorem load_store_above {N : Nat} (d : Nat) (hc : c.toNat + 4 ≤ N) (hd : N ≤ d) (hlt : d + 4 ≤ 2 ^ 32) :
    load 32 (store m (f + c) v) (f + BitVec.ofNat 32 d) = load 32 m (f + BitVec.ofNat 32 d) := by
  apply load_store_slot
  rw [BitVec.toNat_ofNat, Nat.mod_eq_of_lt (by omega)]
  exact .inl ⟨hc.trans hd, hlt⟩

theorem Frame.set (h : Frame o f k m) (hk : k < 1000) (hc : c.toNat + 4 ≤ k) : Frame o f k (store m (f + c) v) := by
  constructor
  · exact (load_store_above _ hc (by omega) (by omega)).trans h.si
  · exact (load_store_above _ hc (by omega) (by omega)).trans h.di
  · exact (load_store_above _ hc (by omega) (by omega)).trans h.bp
  · exact h.outside.store (by simpa using Nat.le_trans hc (Nat.le_add_right k 12))

theorem frame_enter (o : State 32) (f : BitVec 32) (k : Nat) (hk : k < 1000) :
    Frame o f k (store (store (store o.mem (f + BitVec.ofNat 32 (k + 8)) o.regs.bp) (f + BitVec.ofNat 32 (k + 4))
      o.regs.di) (f + BitVec.ofNat 32 k) o.regs.si) := by
  have hnat (d : Nat) (hd : d < 2000) : (BitVec.ofNat 32 d).toNat = d := by
    rw [BitVec.toNat_ofNat, Nat.mod_eq_of_lt (by omega)]
  have hbelow {m : Mem 32} {v : BitVec 32} (c d : Nat) (hc : c + 4 ≤ d) (hd : d < 2000) :
      load 32 (store m (f + BitVec.ofNat 32 c) v) (f + BitVec.ofNat 32 d) = load 32 m (f + BitVec.ofNat 32 d) :=
    load_store_above (N := c + 4) d (by rw [hnat c (by omega)]) hc (by omega)
  constructor
  · exact load_store_word _ _ _
  · rw [hbelow _ _ le_rfl (by omega), load_store_word]
  · rw [hbelow _ _ (by omega) (by omega), hbelow _ _ le_rfl (by omega), load_store_word]
  · have h8 : (BitVec.ofNat 32 (k + 8)).toNat + 32 / 8 ≤ k + 12 := by rw [hnat _ (by omega)]
    have h4 : (BitVec.ofNat 32 (k + 4)).toNat + 32 / 8 ≤ k + 12 := by rw [hnat _ (by omega)]; omega
    have h0 : (BitVec.ofNat 32 k).toNat + 32 / 8 ≤ k + 12 := by rw [hnat _ (by omega)]; omega
    exact (((ChangedIn.refl f (k + 12) o.mem).store h8).store h4).store h0

theorem Frame.above (h : Frame o f k m) (d : Nat) (hd : k + 12 ≤ d) (hlt : d < 1000) :
    load 32 m (f + BitVec.ofNat 32 d) = load 32 o.mem (f + BitVec.ofNat 32 d) :=
  h.outside.above d hd (by omega) (by omega) (by decide)

section Pair

/-! A number of two words that is stored at `r`, outside the frame. -/

variable {lo hi b d : BitVec 32} {N : Nat}

theorem load_store_pair (hr : Apart f N r 8) (hd : d.toNat + 4 ≤ N) :
    load 32 (store (store m r lo) (r + 4#32) hi) (f + d) = load 32 m (f + d) := by
  have h4 : Apart (r + 4#32) 4 (f + d) 4 := hr.symm.part (by decide) hd (by decide) (by decide)
  have h0 : Apart (r + 0#32) 4 (f + d) 4 := hr.symm.part (by decide) hd (by decide) (by decide)
  rw [BitVec.add_zero] at h0
  rw [load_store_apart h4, load_store_apart h0]

theorem store_pair_outside (hb : 8 ≤ (b - r).toNat) : store (store m r lo) (r + 4#32) hi b = m b := by
  have h4 : store (store m r lo) (r + 4#32) hi b = store m r lo b := store_outside (n := 32) hb (by decide)
  have h0 : store m (r + 0#32) lo b = m b := store_outside (n := 32) hb (by decide)
  rw [BitVec.add_zero] at h0
  exact h4.trans h0

theorem load_pair_store : load 64 (store (store m r lo) (r + 4#32) hi) r = hi ++ lo := by
  have hne : Apart (r + 4#32) 4 (r + 0#32) 4 := apart_add.mpr (by decide)
  rw [BitVec.add_zero] at hne
  rw [load_pair, load_store_word, load_store_apart hne, load_store_word]

end Pair

end SysvDev.Division.Stack
