import SysvDev.Regexp.Advance
import Mathlib.Data.List.TakeWhile

namespace SysvDev.Regexp.Scan

open Opcode Advance

variable {s : Subject} {acc : Byte → Bool}

theorem rest_natCast {p : Nat} (hp : p ≤ s.chars.length) :
    s.rest p = s.chars.drop p ++ [0#8] := by
  simp [Subject.rest, List.drop_append_of_le_length hp]

theorem drop_nonul (s : Subject) (p : Nat) : ∀ c ∈ s.chars.drop p, c ≠ 0#8 :=
  fun c hc => s.nonul c (List.mem_of_mem_drop hc)

def run (acc : Byte → Bool) (text : List Byte) : Nat := (text.takeWhile acc).length

theorem run_le (acc : Byte → Bool) (text : List Byte) : run acc text ≤ text.length :=
  (List.takeWhile_sublist acc).length_le

theorem run_cons (acc : Byte → Bool) (c : Byte) (text : List Byte) :
    run acc (c :: text) = if acc c then run acc text + 1 else 0 := by
  by_cases h : acc c = true <;> simp [run, h]

theorem forall_take_iff (acc : Byte → Bool) (text : List Byte) {n : Nat} (hn : n ≤ text.length) :
    (∀ c ∈ text.take n, acc c = true) ↔ n ≤ run acc text := by
  induction text generalizing n with
  | nil => simp_all [run]
  | cons c text ih =>
      cases n with
      | zero => simp
      | succ n =>
          rw [run_cons, List.take_succ_cons, List.forall_mem_cons]
          by_cases h : acc c = true
          · simp only [h, true_and, if_true, Nat.add_le_add_iff_right]
            exact ih (by simpa using hn)
          · simp [h]

theorem scanStar_eq (h0 : acc 0#8 = false) (text : List Byte) :
    scanStar (fun c => some (acc c)) (text ++ [0#8]) = some (run acc text + 1) := by
  induction text with
  | nil => simp [scanStar, h0, run]
  | cons c text ih =>
      rw [List.cons_append, scanStar, run_cons]
      cases h : acc c with
      | false => rfl
      | true => simp [ih]

theorem scanLow_eq (h0 : acc 0#8 = false) (low : Nat) (text : List Byte) :
    scanLow (fun c => some (acc c)) low (text ++ [0#8]) =
      if low ≤ run acc text then .upTo low else .reject := by
  induction low generalizing text with
  | zero => simp [scanLow]
  | succ low ih =>
      cases text with
      | nil => simp [scanLow, h0, run]
      | cons c text =>
          rw [List.cons_append, scanLow, run_cons]
          cases h : acc c with
          | false => simp
          | true =>
              simp only [ih, if_true, Nat.add_le_add_iff_right]
              by_cases hl : low ≤ run acc text <;> simp [hl]

theorem scanSize_eq (h0 : acc 0#8 = false) (size : Nat) (text : List Byte) :
    scanSize (fun c => some (acc c)) size (text ++ [0#8]) = some (min size (run acc text) + 1) := by
  induction size generalizing text with
  | zero =>
      unfold scanSize
      simp
  | succ size ih =>
      have hne : (size : Int) + 1 ≠ 0 := by omega
      cases text with
      | nil =>
          unfold scanSize
          simp [h0, run]
      | cons c text =>
          unfold scanSize
          rw [run_cons]
          cases h : acc c with
          | false => simp [h]
          | true => simp [h, hne, ih]

/-- `strncmp` over a stretch of the subject finds it at another place when
the bytes there begin with it. -/
theorem ecmp_eq (n : Nat) (xs ys : List Byte) (hn : n ≤ xs.length) (hx : ∀ c ∈ xs, c ≠ 0#8) :
    ecmp (some n) (xs ++ [0#8]) (ys ++ [0#8]) = some (decide (xs.take n <+: ys)) := by
  induction n generalizing xs ys with
  | zero => simp [ecmp]
  | succ n ih =>
      cases xs with
      | nil => simp at hn
      | cons x xs =>
          have hx0 : x ≠ 0#8 := hx x (by simp)
          cases ys with
          | nil => simp [ecmp, hx0]
          | cons y ys =>
              have hxs : ∀ c ∈ xs, c ≠ 0#8 := fun c hc => hx c (by simp [hc])
              have h := ih xs ys (by simpa using hn) hxs
              by_cases hxy : x = y
              · subst y
                simp [ecmp, hx0, h, List.prefix_cons_iff]
              · have hno : ¬ x :: xs.take n <+: y :: ys := by
                  rintro ⟨t, ht⟩
                  exact hxy (List.cons.inj ht).1
                simp [ecmp, hxy, hno]

end SysvDev.Regexp.Scan
