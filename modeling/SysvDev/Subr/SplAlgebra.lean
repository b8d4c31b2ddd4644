import SysvDev.Subr.SplAmd64
import SysvDev.Subr.SplI386

namespace SysvDev.Subr.SplAlgebra

open X86.Memory X86.Machine X86.Cells X86.Words Levels

/-- The routines of amd64, patched by `install_spl` or not, and those of i386. -/
inductive Implementation : {σ : Type} → Service σ → Prop
  | amd64 (sym : SplAmd64.Symbols) (patched installed : Bool) (ext : Nat → Option (State 64 → State 64))
      (cpu : BitVec 64) : Implementation (SplAmd64.service sym patched installed ext cpu)
  | i386 (sym : Spl.Symbols) (installed : Bool) (ext : Nat → Option (State 32 → State 32)) (cpu : BitVec 32) :
      Implementation (SplI386.service sym installed ext cpu)

variable {σ : Type} {V : Service σ} {s t : σ} {es : List Event}

theorem Implementation.lawful (h : Implementation V) : V.Lawful := by
  cases h with
  | amd64 => exact SplAmd64.lawful_service
  | i386 => exact SplI386.lawful_service

theorem spl_algebra (hV : Implementation V) (hs : V.Good s) (hes : ∀ e ∈ es, e.request.level.toNat ≤ 15)
    (h : V.Session s es t) :
    Follows (V.base s).toNat (V.pri s).toNat es (V.pri t).toNat ∧ (Nested es → V.pri t = V.pri s) ∧
    ∀ q u, V.Entered q u → V.Good u → q.level.toNat ≤ 15 → ∃ x v, V.Returns q u x v := by
  have hf := h.follows hV.lawful hs hes
  refine ⟨hf, fun hn => ?_, hV.lawful.returns⟩
  exact BitVec.eq_of_toNat_eq (hn.restores hs.base_le hf)

section Sample

def sampleSymbols : SplAmd64.Symbols := ⟨4096, 4104, 0, 0, 0, 0, 0, 0, 0, 0, 0, 0, 4, 8, 16, DISP_LEVEL⟩

def sampleMemory (pri : BitVec 32) : Mem 64 :=
  store (store (store (store (fun _ => 0#8) 4096#64 8192#64) 4104#64 200#64) 8192#64 pri) 65536#64 300#64

def sampleState (pri arg : BitVec 32) : State 64 :=
  ⟨⟨0#64, 0#64, 0#64, 0#64, 65536#64, 0#64, 0#64, arg.setWidth 64, .zero⟩, undefinedFlags, false, sampleMemory pri⟩

def sampleSetspl (i : Nat) : Option (State 64 → State 64) :=
  if i = 200 then some fun s => { s with regs := { s.regs with sp := s.regs.sp + 8#64 } } else none

def sampleService : Service (State 64) := SplAmd64.service sampleSymbols true true sampleSetspl 8192#64

theorem spread_sample : Spread (SplAmd64.place sampleSymbols 8192#64 65536#64 (fun _ => Empty.elim)) := by
  intro n k i j hij
  cases i with
  | own x => exact x.elim
  | _ =>
      cases j with
      | own x => exact x.elim
      | _ => first | exact absurd rfl hij | decide

theorem load_sampleMemory (pri : BitVec 32) :
    load 64 (sampleMemory pri) 4096#64 = 8192#64 ∧ load 64 (sampleMemory pri) 4104#64 = 200#64 ∧
    load 32 (sampleMemory pri) 8192#64 = pri ∧ load 64 (sampleMemory pri) 65536#64 = 300#64 := by
  refine ⟨?_, ?_, ?_, ?_⟩
  · rw [sampleMemory, load_store_apart (by decide), load_store_apart (by decide), load_store_apart (by decide)]
    apply load_store_same <;> norm_num
  · rw [sampleMemory, load_store_apart (by decide), load_store_apart (by decide)]
    apply load_store_same <;> norm_num
  · rw [sampleMemory, load_store_apart (by decide)]
    apply load_store_same <;> norm_num
  · apply load_store_same <;> norm_num

theorem entered_sample {q : Request} {pri arg : BitVec 32} (harg : q.entry.takesArg = true → arg = q.arg) :
    sampleService.Entered q (sampleState pri arg) where
  inside i hi := by
    rw [SplAmd64.length_code] at hi
    rw [sampleSetspl, if_neg (by omega)]
  spread := spread_sample
  self := (load_sampleMemory pri).1
  setspl := by
    have hsetspl : word (SplAmd64.place sampleSymbols 8192#64 65536#64 (fun _ => Empty.elim)) (sampleMemory pri)
        .setspl = 200#64 := (load_sampleMemory pri).2.1
    rw [sampleState, hsetspl]
    exact ⟨_, rfl, fun _ _ => ⟨⟨rfl, rfl, rfl, rfl, rfl, rfl, rfl⟩, fun _ _ _ => rfl⟩⟩
  disp := rfl
  arg h := by
    rw [← harg h]
    simp [sampleState]
  caller := by
    have hret : word (SplAmd64.place sampleSymbols 8192#64 65536#64 (fun _ => Empty.elim)) (sampleMemory pri)
        .ret = 300#64 := (load_sampleMemory pri).2.2.2
    rw [sampleState, hret]
    exact ⟨by rw [SplAmd64.length_code]; decide, rfl⟩

theorem levels_sample (pri arg : BitVec 32) :
    sampleService.pri (sampleState pri arg) = pri ∧ sampleService.base (sampleState pri arg) = 0#32 ∧
    sampleService.pending (sampleState pri arg) = 0#32 := by
  refine ⟨(load_sampleMemory pri).2.2.1, ?_, ?_⟩
  · have hbase : load 32 (sampleMemory pri) 8196#64 = 0#32 := by
      rw [sampleMemory, load_store_apart (by decide), load_store_apart (by decide), load_store_apart (by decide),
        load_store_apart (by decide)]
      rfl
    exact hbase
  · have hsoft : load 32 (sampleMemory pri) 8200#64 = 0#32 := by
      rw [sampleMemory, load_store_apart (by decide), load_store_apart (by decide), load_store_apart (by decide),
        load_store_apart (by decide)]
      rfl
    exact hsoft

theorem good_sample {pri arg : BitVec 32} (h : pri.toNat ≤ 15) : sampleService.Good (sampleState pri arg) := by
  obtain ⟨hpri, hbase, hsoft⟩ := levels_sample pri arg
  constructor
  · rw [hpri, hbase]
    exact Nat.zero_le _
  · rw [hpri]
    exact h
  · exact hsoft

theorem session_sample : ∃ y t,
    sampleService.Session (sampleState 0#32 0#32) [⟨⟨.splhi, 0#32⟩, 0#32⟩, ⟨⟨.splx, 0#32⟩, y⟩] t := by
  have hlaw : sampleService.Lawful := SplAmd64.lawful_service
  have henter : sampleService.Entered ⟨.splhi, 0#32⟩ (sampleState 0#32 0#32) := entered_sample (by rintro ⟨⟩)
  have hgood : sampleService.Good (sampleState 0#32 0#32) := good_sample (by decide)
  obtain ⟨x, u, hx⟩ := hlaw.returns _ _ henter hgood (by decide)
  obtain ⟨rfl, hpri, hbase, hsoft⟩ := hlaw.result _ _ _ _ henter hgood (by decide) hx
  rw [(levels_sample 0#32 0#32).1] at hx hpri
  rw [(levels_sample 0#32 0#32).2.1] at hbase hpri
  rw [(levels_sample 0#32 0#32).2.2] at hsoft
  have hpri' : sampleService.pri u = 11#32 := BitVec.eq_of_toNat_eq hpri
  have hsame : sampleService.Same u (sampleState 11#32 0#32) := by
    obtain ⟨h1, h2, h3⟩ := levels_sample 11#32 0#32
    exact ⟨h1.trans hpri'.symm, h2.trans hbase.symm, h3.trans hsoft.symm⟩
  have henter' : sampleService.Entered ⟨.splx, 0#32⟩ (sampleState 11#32 0#32) := entered_sample fun _ => rfl
  obtain ⟨y, t, hy⟩ := hlaw.returns _ _ henter' (good_sample (by decide)) (by decide)
  exact ⟨y, t, .call ⟨rfl, rfl, rfl⟩ henter hx (.call hsame henter' hy (.nil ⟨rfl, rfl, rfl⟩))⟩

end Sample

theorem spl_algebra_pair : ∃ y t,
    sampleService.Session (sampleState 0#32 0#32) [⟨⟨.splhi, 0#32⟩, 0#32⟩, ⟨⟨.splx, 0#32⟩, y⟩] t ∧ y = 11#32 ∧
    sampleService.pri t = 0#32 := by
  obtain ⟨y, t, h⟩ := session_sample
  obtain ⟨hpri, hbase, -⟩ := levels_sample 0#32 0#32
  have hsplhi : (⟨.splhi, 0#32⟩ : Request).level.toNat ≤ 15 := by decide
  have hsplx : (⟨.splx, 0#32⟩ : Request).level.toNat ≤ 15 := by decide
  have hlevels : ∀ e ∈ [(⟨⟨.splhi, 0#32⟩, 0#32⟩ : Event), ⟨⟨.splx, 0#32⟩, y⟩], e.request.level.toNat ≤ 15 := by
    rintro e (_ | ⟨_, _ | ⟨_, he⟩⟩)
    · exact hsplhi
    · exact hsplx
    · cases he
  have hnested : Nested [(⟨⟨.splhi, 0#32⟩, 0#32⟩ : Event), ⟨⟨.splx, 0#32⟩, y⟩] := .pair rfl rfl .nil .nil
  have hcode : Implementation sampleService := .amd64 ..
  obtain ⟨hfollows, hback, -⟩ := spl_algebra hcode (good_sample (by decide)) hlevels h
  have hy := hfollows.2.1
  rw [hpri, hbase] at hy
  exact ⟨y, t, h, BitVec.eq_of_toNat_eq hy, (hback hnested).trans hpri⟩

end SysvDev.Subr.SplAlgebra
