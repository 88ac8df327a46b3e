import CaLabs.Lab1.Pipe
import CaLabs.Lab2.FirstFetch

/-! The pipelines of both labs retire one instruction stream. -/
namespace CaLabs.Lab2
open Mips Pipeline

/-- The two pipelines retire one instruction stream, whatever the caches and the memory
system of either do: of two runs one shows a prefix of what the other shows. Neither run
aborts as long as lab 1 has caches with sets and lab 2 is answered with hits and waits. -/
theorem runs_retire_same_stream {σ : Type*} (M : MemSystem σ) (sys : σ) (policy : Lab1.Policy)
    (rand : ℕ → ℕ) {icapacity dcapacity : Word} {iways isize dways dsize : BitVec 8}
    {icache dcache : Cache} (hi : Lab1.allocCache policy icapacity iways isize = some icache)
    (hd : Lab1.allocCache policy dcapacity dways dsize = some dcache)
    (mem : Memory) (regs : Reg → Word) (hireg loreg : Word)
    (hjump : (initialArch mem regs hireg loreg).JumpTargetsAligned)
    (hcode : (initialArch mem regs hireg loreg).NoSelfModification) (m n : ℕ) :
    (∀ t₁ s₁ t₂ s₂,
      (Lab1.machine policy).run m
        (Lab1.initialState icache dcache rand mem regs hireg loreg) = .ok (t₁,s₁) →
      M.machine.run n (initialState sys mem regs hireg loreg) = .ok (t₂,s₂) →
      t₁ <+: t₂ ∨ t₂ <+: t₁) ∧
    (0 < icache.numSets → 0 < dcache.numSets → ∃ t s, (Lab1.machine policy).run m
      (Lab1.initialState icache dcache rand mem regs hireg loreg) = .ok (t,s)) ∧
    (M.AlwaysAnswers → ∃ t s,
      M.machine.run n (initialState sys mem regs hireg loreg) = .ok (t,s)) := by
  have h0 : Running (initialPipe mem regs hireg loreg) (initialArch mem regs hireg loreg) :=
    initialPipe_running ⟨(by decide : WordAligned 0x00400000),hjump,hcode⟩
  refine ⟨?_,?_,?_⟩
  · intro t₁ s₁ t₂ s₂ h₁ h₂
    exact Lib.specTrace_comparable _ _ _ _ m n (Lab1.simulation policy |>.prefix_of_run h0 h₁)
      (M.simulation.prefix_of_run h0 h₂)
  · exact Lab1.run_total policy rand hi hd h0 m
  · intro hM
    exact M.simulation.run_total (fun s a h => MemSystem.cycle_total hM h) h0 n

/-- Lab 1 halts with the fifth instruction of the program, and so does lab 2, which waits for the
first fetch and then for the load. -/
theorem jumpProgram_runs_retire_same_stream : ∃ t₁ s₁ t₂ s₂,
    (Lab1.machine .rand).run 130 (Lab1.initialState
        (Lab1.initialCache .rand Lab1.icacheSize Lab1.icacheWays)
        (Lab1.initialCache .rand Lab1.dcacheSize Lab1.dcacheWays) id jumpProgram jumpRegs 0 0) =
      .ok (t₁,s₁) ∧
    memSystem.machine.run 637 (initialState initialMemories jumpProgram jumpRegs 0 0) =
      .ok (t₂,s₂) ∧
    s₁.pipe.runBit = false ∧ s₂.pipe.runBit = false ∧ t₁.length = 5 ∧ t₁ = t₂ := by
  have hw := jumpProgram_wellBehaved
  have hi : Lab1.allocCache .rand Lab1.icacheSize Lab1.icacheWays Lab1.blockSize =
      some (Lab1.initialCache .rand Lab1.icacheSize Lab1.icacheWays) := rfl
  have hd : Lab1.allocCache .rand Lab1.dcacheSize Lab1.dcacheWays Lab1.blockSize =
      some (Lab1.initialCache .rand Lab1.dcacheSize Lab1.dcacheWays) := rfl
  have hfirst : Lib.succeeds (fun p => p.1.length == 5 && !p.2.pipe.runBit)
      ((Lab1.machine .rand).run 130 (Lab1.initialState
        (Lab1.initialCache .rand Lab1.icacheSize Lab1.icacheWays)
        (Lab1.initialCache .rand Lab1.dcacheSize Lab1.dcacheWays) id jumpProgram jumpRegs 0 0)) =
      true := by decide +kernel
  obtain ⟨⟨t₁,s₁⟩,h₁,hend₁⟩ := Lib.succeeds_iff.mp hfirst
  -- nothing retires in lab 2 until the fill of the load has come
  have hquiet : passesVia (fun s => s.pipe.retiring.isNone)
      (fun s => Lib.succeeds (fun p => p.1.length == 5 && !p.2.pipe.runBit)
        (memSystem.machine.run 12 s)) 5 [(358,0)]
      (waitingState jumpProgram jumpRegs 0 0 true 261) = true := by decide +kernel
  obtain ⟨s,hs,hlast⟩ := along_of_first jumpProgram jumpRegs 0 0
    (P := fun s => memSystem.machine.observe s = none) (by decide) (fun _ => rfl)
    (fun s h => Option.isNone_iff_eq_none.mp h) (fun _ _ h _ => h) hquiet
  obtain ⟨⟨t₂,s₂⟩,hlater,hend₂⟩ := Lib.succeeds_iff.mp hlast
  have h₂ := memSystem.machine.run_add hs.run_silent hlater
  rw [List.nil_append] at h₂
  simp only [Bool.and_eq_true, beq_iff_eq, Bool.not_eq_true'] at hend₁ hend₂
  have hsame := (runs_retire_same_stream memSystem initialMemories .rand id hi hd jumpProgram
    jumpRegs 0 0 hw.jumps hw.code 130 637).1 t₁ s₁ t₂ s₂ h₁ h₂
  have hlength : t₁.length = t₂.length := hend₁.1.trans hend₂.1.symm
  exact ⟨t₁,s₁,t₂,s₂,h₁,h₂,hend₁.2,hend₂.2,hend₁.1,hsame.elim (·.eq_of_length hlength)
    fun h => (h.eq_of_length hlength.symm).symm⟩

end CaLabs.Lab2
