import SysvDev.Subr.Spl

namespace SysvDev.Subr.Levels

open Spl (newIpl)

def LOCK_LEVEL : Int := 10

def DISP_LEVEL : Int := LOCK_LEVEL + 1

section Words

variable {base pri level : BitVec 32}

/-- The level that `RAISE` and `splr` leave. -/
def raised (base pri level : BitVec 32) : BitVec 32 := if pri.toInt < level.toInt then newIpl base level else pri

/-- The level that `splhi` leaves: it does not look at the base level. -/
def higher (pri level : BitVec 32) : BitVec 32 := if pri.toInt < level.toInt then level else pri

theorem toInt_eq (h : level.toNat ≤ 15) : level.toInt = level.toNat := by
  rw [BitVec.toInt_eq_toNat_of_lt]
  omega

theorem toNat_newIpl (base level : BitVec 32) : (newIpl base level).toNat = max level.toNat base.toNat := by
  rw [newIpl]
  split <;> omega

theorem toNat_higher (hpri : pri.toNat ≤ 15) (hlevel : level.toNat ≤ 15) :
    (higher pri level).toNat = max level.toNat pri.toNat := by
  rw [higher, toInt_eq hpri, toInt_eq hlevel]
  split <;> omega

theorem toNat_raised (hbase : base.toNat ≤ pri.toNat) (hpri : pri.toNat ≤ 15) (hlevel : level.toNat ≤ 15) :
    (raised base pri level).toNat = max level.toNat pri.toNat := by
  rw [raised, toInt_eq hpri, toInt_eq hlevel]
  split
  · rw [toNat_newIpl]
    omega
  · omega

end Words

inductive Entry
  | spl0 | splzs | spl8 | splx | spl7 | splhi | splr
  deriving DecidableEq

def Entry.raises : Entry → Bool
  | spl7 | splhi | splr => true
  | spl0 | splzs | spl8 | splx => false

/-- A call, with the argument of `splx` and `splr`. -/
structure Request where
  entry : Entry
  arg : BitVec 32

def Entry.takesArg : Entry → Bool
  | splx | splr => true
  | _ => false

def Request.level (q : Request) : BitVec 32 :=
  match q.entry with
  | .spl0 => BitVec.ofInt 32 0
  | .splzs => BitVec.ofInt 32 12
  | .spl8 => BitVec.ofInt 32 15
  | .spl7 => BitVec.ofInt 32 13
  | .splhi => BitVec.ofInt 32 DISP_LEVEL
  | .splx | .splr => q.arg

/-- The priority after a call: the level that is asked for, and not below the
base level, or for a raise not below the old priority. -/
def Request.leaves (base pri : Nat) (q : Request) : Nat :=
  if q.entry.raises then max q.level.toNat pri else max q.level.toNat base

structure Event where
  request : Request
  result : BitVec 32

def Follows (base : Nat) : Nat → List Event → Nat → Prop
  | pri, [], pri' => pri' = pri
  | pri, e :: es, pri' => e.result.toNat = pri ∧ Follows base (e.request.leaves base pri) es pri'

/-- Raises, each with a later `splx` of what it has returned. -/
inductive Nested : List Event → Prop
  | nil : Nested []
  | pair {e f : Event} {inner rest : List Event} (he : e.request.entry.raises = true)
      (hf : f.request = ⟨.splx, e.result⟩) (hinner : Nested inner) (hrest : Nested rest) :
      Nested (e :: inner ++ f :: rest)

variable {base pri pri' : Nat} {es fs : List Event}

theorem follows_append : Follows base pri (es ++ fs) pri' ↔ ∃ p, Follows base pri es p ∧ Follows base p fs pri' := by
  induction es generalizing pri with
  | nil => simp [Follows]
  | cons e es ih =>
      simp only [List.cons_append, Follows, ih]
      constructor
      · rintro ⟨he, p, hp, hrest⟩
        exact ⟨p, ⟨he, hp⟩, hrest⟩
      · rintro ⟨p, ⟨he, hp⟩, hrest⟩
        exact ⟨he, p, hp, hrest⟩

/-- The word that the code puts into `cpu_pri`. -/
def Request.sets (base pri : BitVec 32) (q : Request) : BitVec 32 :=
  match q.entry with
  | .spl0 | .splzs | .spl8 | .splx => newIpl base q.level
  | .spl7 | .splr => raised base pri q.level
  | .splhi => higher pri q.level

theorem Request.toNat_sets {q : Request} {base pri : BitVec 32} (hbase : base.toNat ≤ pri.toNat) (hpri : pri.toNat ≤ 15)
    (hlevel : q.level.toNat ≤ 15) : (q.sets base pri).toNat = q.leaves base.toNat pri.toNat := by
  rw [Request.sets, Request.leaves]
  cases hentry : q.entry with
  | spl0 | splzs | spl8 | splx => exact toNat_newIpl base q.level
  | spl7 | splr => exact toNat_raised hbase hpri hlevel
  | splhi => exact toNat_higher hpri hlevel

theorem Nested.restores (h : Nested es) (hbase : base ≤ pri) (hf : Follows base pri es pri') : pri' = pri := by
  induction h generalizing pri pri' with
  | nil => exact hf
  | @pair e f inner rest he hsplx _ _ ihinner ihrest =>
      rw [List.cons_append, Follows, follows_append] at hf
      obtain ⟨hold, p, hp, -, hrest⟩ := hf
      have hback : f.request.leaves base p = pri := by
        have hlevel : f.request.level = e.result := by
          rw [hsplx]
          rfl
        rw [Request.leaves, hlevel, hold, hsplx]
        exact max_eq_left hbase
      rw [hback] at hrest
      exact ihrest hbase hrest

section Service

/-- Code of the routines: the words of the `struct cpu` that the callers see,
when a routine can be called, and what a call returns and leaves. -/
structure Service (σ : Type) where
  pri : σ → BitVec 32
  base : σ → BitVec 32
  pending : σ → BitVec 32
  Entered : Request → σ → Prop
  Returns : Request → σ → BitVec 32 → σ → Prop

variable {σ : Type} {V : Service σ} {s t u : σ}

structure Service.Good (V : Service σ) (s : σ) : Prop where
  base_le : (V.base s).toNat ≤ (V.pri s).toNat
  pri_le : (V.pri s).toNat ≤ 15
  idle : V.pending s = 0#32

structure Service.Same (V : Service σ) (s t : σ) : Prop where
  pri : V.pri t = V.pri s
  base : V.base t = V.base s
  pending : V.pending t = V.pending s

inductive Service.Session (V : Service σ) : σ → List Event → σ → Prop
  | nil {s t : σ} (h : V.Same s t) : Session V s [] t
  | call {s u v t : σ} {e : Event} {es : List Event} (hu : V.Same s u) (henter : V.Entered e.request u)
      (hret : V.Returns e.request u e.result v) (hrest : Session V v es t) : Session V s (e :: es) t

structure Service.Lawful (V : Service σ) : Prop where
  returns : ∀ q s, V.Entered q s → V.Good s → q.level.toNat ≤ 15 → ∃ x t, V.Returns q s x t
  result : ∀ q s x t, V.Entered q s → V.Good s → q.level.toNat ≤ 15 → V.Returns q s x t →
    x = V.pri s ∧ (V.pri t).toNat = q.leaves (V.base s).toNat (V.pri s).toNat ∧ V.base t = V.base s ∧
      V.pending t = V.pending s

theorem Service.Same.good (h : V.Same s t) (hs : V.Good s) : V.Good t where
  base_le := by rw [h.base, h.pri]; exact hs.base_le
  pri_le := by rw [h.pri]; exact hs.pri_le
  idle := by rw [h.pending]; exact hs.idle

theorem Request.leaves_le {q : Request} (hbase : base ≤ pri) (hpri : pri ≤ 15) (hlevel : q.level.toNat ≤ 15) :
    base ≤ q.leaves base pri ∧ q.leaves base pri ≤ 15 := by
  rw [Request.leaves]
  split <;> omega

theorem Service.Session.follows (hV : V.Lawful) (h : V.Session s es t) (hs : V.Good s)
    (hes : ∀ e ∈ es, e.request.level.toNat ≤ 15) :
    Follows (V.base s).toNat (V.pri s).toNat es (V.pri t).toNat := by
  induction h with
  | nil hsame => rw [Follows, hsame.pri]
  | @call s u v t e es hsame henter hret _ ih =>
      have hlevel := hes e (List.mem_cons_self ..)
      have hu := hsame.good hs
      obtain ⟨hx, hpri, hbase, hpending⟩ := hV.result _ _ _ _ henter hu hlevel hret
      obtain ⟨hle, hle'⟩ := Request.leaves_le hu.base_le hu.pri_le hlevel
      have hv : V.Good v := by
        constructor
        · rw [hbase, hpri]
          exact hle
        · rw [hpri]
          exact hle'
        · rw [hpending]
          exact hu.idle
      have hrest := ih hv fun e' he' => hes e' (List.mem_cons_of_mem _ he')
      rw [hpri, hbase, hsame.base, hsame.pri] at hrest
      rw [Follows, hx, hsame.pri]
      exact ⟨rfl, hrest⟩

end Service

end SysvDev.Subr.Levels
