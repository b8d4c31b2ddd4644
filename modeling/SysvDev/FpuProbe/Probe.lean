import SysvDev.FpuProbe.Amd64
import SysvDev.FpuProbe.I386

namespace SysvDev.FpuProbe.Probe

open Word X86.Memory X86.Machine X86.Words Owns

section Sample

def sampleSymbols : Symbols := ⟨4096, 4100, 4104, 4108, 4112, 4116, 4120, 4128, 4136⟩

def sampleSymbols32 : I386.Symbols := ⟨sampleSymbols, 4140, 4144, 4152, 4160, 4168, 256⟩

theorem spread_sample : Spread (Amd64.place sampleSymbols 65528#64) := by
  intro n k i j hij
  cases i <;> cases j
  all_goals first | exact absurd rfl hij | decide

theorem spread_sample32 : Spread (I386.place sampleSymbols32 65528#32) := by
  intro n k i j hij
  cases i <;> cases j
  all_goals first | exact absurd rfl hij | decide

end Sample

end SysvDev.FpuProbe.Probe
