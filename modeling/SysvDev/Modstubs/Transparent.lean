import SysvDev.Modstubs.Amd64

namespace SysvDev.Modstubs.Transparent

open X86.Memory X86.Machine X86.Run X86.Words X86.Trace Inevitable

theorem stubs_transparent :
    (∀ (ext : Nat → Option (State 64 → State 64)) (hold release : State 64 → State 64) (s : State 64),
      Amd64.Outside ext hold release s → Spread (Amd64.place s.regs.ax s.regs.sp) →
      Traces Amd64.code ext (Amd64.Transparent ext hold s) ⟨⟨Amd64.position .stubsCommonCode, s⟩, []⟩) ∧
    (∀ (modsRetfcn : Int) (ext : Nat → Option (State 32 → State 32)) (hold release : State 32 → State 32) (s : State 32),
      I386.Outside modsRetfcn ext hold release s → Spread (I386.place modsRetfcn s.regs.ax s.regs.sp) →
      Traces (I386.code modsRetfcn) ext (I386.Transparent modsRetfcn ext hold s)
        ⟨⟨I386.position .stubsCommonCode, s⟩, []⟩) :=
  ⟨fun _ _ _ _ => Amd64.traces_transparent, fun _ _ _ _ _ => I386.traces_transparent⟩

section Sample

def sampleFunction {w : Nat} (s : State w) : State w :=
  { s with regs := { s.regs with sp := s.regs.sp + BitVec.ofNat w (w / 8), ax := 7, dx := 9 } }

def sampleRelease {w : Nat} (s : State w) : State w :=
  { s with regs := { s.regs with sp := s.regs.sp + BitVec.ofNat w (w / 8), ax := 0, dx := 0 } }

def sampleOutside {w : Nat} (hold i : Nat) : Option (State w → State w) :=
  if i = 200 then some sampleFunction else if i = hold ∨ i = hold + 1 then some sampleRelease else none

def sampleState : State 64 :=
  ⟨⟨4096#64, 0#64, 0#64, 0#64, 65528#64, 0#64, 0#64, 0#64, .zero⟩, undefinedFlags, false,
    store (fun _ => 0#8) 4096#64 200#64⟩

def sampleState32 : State 32 :=
  ⟨⟨4096#32, 0#32, 0#32, 0#32, 65528#32, 0#32, 0#32, 0#32, .zero⟩, undefinedFlags, false,
    store (fun _ => 0#8) 4096#32 200#32⟩

theorem spread_sample : Spread (Amd64.place 4096#64 65528#64) := by
  intro n k i j hij
  rcases i with _ | _ | i | _ | _ | _ | i <;> rcases j with _ | _ | j | _ | _ | _ | j
  all_goals try fin_cases i
  all_goals try fin_cases j
  all_goals first | exact absurd rfl hij | decide

theorem spread_sample32 : Spread (I386.place 12 4096#32 65528#32) := by
  intro n k i j hij
  rcases i with _ | _ | i | _ | _ | i <;> rcases j with _ | _ | j | _ | _ | j
  all_goals try fin_cases i
  all_goals try fin_cases j
  all_goals first | exact absurd rfl hij | decide

theorem load_func {u : State 64} (h : Amd64.Entered sampleState u) : load 64 u.mem 4096#64 = 200#64 := by
  have hsame : load 64 u.mem 4096#64 = load 64 sampleState.mem 4096#64 := by
    refine load_congr fun i hi => h.rest _ ?_
    have hsub : (4096#64 + BitVec.ofNat 64 i - (sampleState.regs.sp - 80#64)).toNat = 2 ^ 64 - 61352 + i := by
      simp only [sampleState, BitVec.toNat_sub, BitVec.toNat_add, BitVec.toNat_ofNat]
      omega
    omega
  rw [hsame]
  apply load_store_same <;> norm_num

theorem outside_sample : Amd64.Outside (sampleOutside 44) sampleRelease sampleRelease sampleState where
  inside i hi := by
    have hlt : i < 44 := hi
    rw [sampleOutside, if_neg (by omega), if_neg (by omega)]
  atHold := rfl
  atRelease := rfl
  holds _ _ := ⟨⟨rfl, rfl, rfl, rfl, rfl, rfl, rfl⟩, fun _ _ _ => rfl⟩
  releases _ _ := ⟨⟨rfl, rfl, rfl, rfl, rfl, rfl, rfl⟩, fun _ _ _ => rfl⟩
  installed u hu _ := by
    refine ⟨sampleFunction, ?_, fun _ _ => ⟨⟨rfl, rfl, rfl, rfl, rfl, rfl, rfl⟩, fun _ _ _ => rfl⟩⟩
    have hfunc : load 64 (sampleRelease u).mem sampleState.regs.ax = 200#64 := load_func (u := u) hu
    rw [hfunc]
    rfl
  returns u _ hfailed := absurd hfailed (by simp [Amd64.Failed, sampleRelease])

theorem load_func32 {u : State 32} (h : I386.Entered sampleState32 u) : load 32 u.mem 4096#32 = 200#32 := by
  have hsame : load 32 u.mem 4096#32 = load 32 sampleState32.mem 4096#32 := by
    refine load_congr fun i hi => h.rest _ ?_
    have hsub : (4096#32 + BitVec.ofNat 32 i - (sampleState32.regs.sp - 12#32)).toNat = 2 ^ 32 - 61420 + i := by
      simp only [sampleState32, BitVec.toNat_sub, BitVec.toNat_add, BitVec.toNat_ofNat]
      omega
    omega
  rw [hsame]
  apply load_store_same <;> norm_num

theorem outside_sample32 : I386.Outside 12 (sampleOutside 36) sampleRelease sampleRelease sampleState32 where
  inside i hi := by
    have hlt : i < 36 := hi
    rw [sampleOutside, if_neg (by omega), if_neg (by omega)]
  atHold := rfl
  atRelease := rfl
  holds _ _ := ⟨⟨rfl, rfl, rfl, rfl, rfl⟩, fun _ _ _ => rfl⟩
  releases _ _ := ⟨⟨rfl, rfl, rfl, rfl, rfl⟩, fun _ _ _ => rfl⟩
  installed u hu _ := by
    refine ⟨sampleFunction, ?_, fun _ _ => ⟨⟨rfl, rfl, rfl, rfl, rfl⟩, fun _ _ _ => rfl⟩⟩
    have hfunc : load 32 (sampleRelease u).mem sampleState32.regs.ax = 200#32 := load_func32 (u := u) hu
    rw [hfunc]
    rfl
  returns u _ hfailed := absurd hfailed (by simp [I386.Failed, sampleRelease])

end Sample

theorem stubs_transparent_installed :
    Traces Amd64.code (sampleOutside 44) (Amd64.Transparent (sampleOutside 44) sampleRelease sampleState)
      ⟨⟨Amd64.position .stubsCommonCode, sampleState⟩, []⟩ ∧
    Traces (I386.code 12) (sampleOutside 36) (I386.Transparent 12 (sampleOutside 36) sampleRelease sampleState32)
      ⟨⟨I386.position .stubsCommonCode, sampleState32⟩, []⟩ :=
  ⟨stubs_transparent.1 _ _ _ _ outside_sample spread_sample,
    stubs_transparent.2 _ _ _ _ _ outside_sample32 spread_sample32⟩

end SysvDev.Modstubs.Transparent
