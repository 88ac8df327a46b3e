import CaLabs.Lab1.Cache
import CaLabs.Pipeline.Refinement

/-! The pipeline of lab 1 and its refinement of the interpreter. -/
namespace CaLabs.Lab1
open Mips Pipeline

/-- Pipe_State of lab 1, with the results of rand() still to come. -/
structure State where
  pipe : PipeState
  icache : Cache
  dcache : Cache
  fetchStall : ℕ := 0
  memStall : ℕ := 0
  rand : ℕ → ℕ

/-- pipe_init after the program and the registers have been set up. -/
def initialState (icache dcache : Cache) (rand : ℕ → ℕ) (mem : Memory) (regs : Reg → Word)
    (hi lo : Word) : State where
  pipe := initialPipe mem regs hi lo
  icache := icache
  dcache := dcache
  rand := rand

def pipeStageMem (policy : Policy) (s : State) : Except Abort State :=
  match s.pipe.memOp with
  | none => .ok s
  | some op =>
    if 0 < s.memStall then .ok { s with memStall := s.memStall - 1 }
    else if op.isMem then do
      let (stallCycles,dcache,rand) ← cacheAccess policy s.dcache s.rand (wordOf op.memAddr)
      let s := { s with dcache := dcache, rand := rand }
      if 0 < stallCycles then .ok { s with memStall := stallCycles - 1 }
      else .ok { s with pipe := finishMem op s.pipe }
    else .ok { s with pipe := finishMem op s.pipe }

def pipeStageFetch (policy : Policy) (s : State) : Except Abort State :=
  if s.pipe.decodeOp.isSome then .ok s
  else if 0 < s.fetchStall then .ok { s with fetchStall := s.fetchStall - 1 }
  else do
    let (stallCycles,icache,rand) ← cacheAccess policy s.icache s.rand s.pipe.pc
    let s := { s with icache := icache, rand := rand }
    if 0 < stallCycles then .ok { s with fetchStall := stallCycles - 1 }
    else .ok { s with pipe := finishFetch s.pipe }

def pipeCycle (policy : Policy) (s : State) : Except Abort State := do
  let s ← pipeStageMem policy { s with pipe := pipeStageWb (0 < s.fetchStall) s.pipe }
  let s ← pipeStageFetch policy
    { s with pipe := pipeStageDecode (pipeStageExecute s.pipe) }
  .ok { s with pipe := recoverBranch s.pipe }

/-- The shell's loop: it calls cycle while RUN_BIT is set. -/
def machine (policy : Policy) : Lib.Machine State Abort Retired where
  step := pipeCycle policy
  running := fun s => s.pipe.runBit
  observe := fun s => s.pipe.retiring

/-! Every cycle is an elastic one. -/

lemma pipeStageMem_elastic {policy : Policy} {s s' : State} (h : pipeStageMem policy s = .ok s') :
    ∃ go, s'.pipe = elasticMem go s.pipe := by
  unfold pipeStageMem at h
  cases hop : s.pipe.memOp with
  | none =>
    simp only [hop, Except.ok.injEq] at h
    exact ⟨false,by rw [elasticMem_none _ hop, h]⟩
  | some op =>
    have hwait : s.pipe = elasticMem false s.pipe := by rw [elasticMem_some _ hop]; rfl
    have hdone : finishMem op s.pipe = elasticMem true s.pipe := by
      rw [elasticMem_some _ hop]; rfl
    simp only [hop] at h
    split_ifs at h with hstall hmem
    · obtain rfl := Except.ok.inj h
      exact ⟨false,hwait⟩
    · cases hc : cacheAccess policy s.dcache s.rand (wordOf op.memAddr) with
      | error e => simp [hc, bind, Except.bind] at h
      | ok r =>
        obtain ⟨stallCycles,dcache,rand⟩ := r
        simp only [hc, bind, Except.bind] at h
        split_ifs at h with hmiss
        · obtain rfl := Except.ok.inj h
          exact ⟨false,hwait⟩
        · obtain rfl := Except.ok.inj h
          exact ⟨true,hdone⟩
    · obtain rfl := Except.ok.inj h
      exact ⟨true,hdone⟩

lemma pipeStageFetch_elastic {policy : Policy} {s s' : State}
    (h : pipeStageFetch policy s = .ok s') : ∃ go, s'.pipe = elasticFetch go s.pipe := by
  unfold pipeStageFetch at h
  split_ifs at h with hop hstall
  · obtain rfl := Except.ok.inj h
    exact ⟨false,rfl⟩
  · obtain rfl := Except.ok.inj h
    exact ⟨false,rfl⟩
  · have hnone : s.pipe.decodeOp = none := by simpa using hop
    cases hc : cacheAccess policy s.icache s.rand s.pipe.pc with
    | error e => simp [hc, bind, Except.bind] at h
    | ok r =>
      obtain ⟨stallCycles,icache,rand⟩ := r
      simp only [hc, bind, Except.bind] at h
      split_ifs at h with hmiss
      · obtain rfl := Except.ok.inj h
        exact ⟨false,rfl⟩
      · obtain rfl := Except.ok.inj h
        exact ⟨true,by simp only [elasticFetch, hnone, and_self, if_true]⟩

theorem pipeCycle_elastic {policy : Policy} {s s' : State} (h : pipeCycle policy s = .ok s') :
    ∃ waiting memGo fetchGo, s'.pipe = elasticCycle waiting memGo fetchGo s.pipe := by
  unfold pipeCycle at h
  cases hm : pipeStageMem policy { s with pipe := pipeStageWb (0 < s.fetchStall) s.pipe } with
  | error e => simp [hm, bind, Except.bind] at h
  | ok s₁ =>
    simp only [hm, bind, Except.bind] at h
    cases hf : pipeStageFetch policy
        { s₁ with pipe := pipeStageDecode (pipeStageExecute s₁.pipe) } with
    | error e => simp [hf] at h
    | ok s₂ =>
      simp only [hf, Except.ok.injEq] at h
      obtain ⟨memGo,hmem⟩ := pipeStageMem_elastic hm
      obtain ⟨fetchGo,hfetch⟩ := pipeStageFetch_elastic hf
      refine ⟨0 < s.fetchStall,memGo,fetchGo,?_⟩
      rw [← h, elasticCycle, elasticBack, ← hmem, ← hfetch]

/-- The lab 1 pipeline simulates the interpreter whatever its caches hold. -/
theorem simulation (policy : Policy) :
    Lib.Simulation (machine policy) Arch.next Arch.retires Arch.halts
      (fun s a => Running s.pipe a) (fun s a => Halted s.pipe a) :=
  simulation_of_elastic (machine policy) State.pipe (fun _ => rfl) (fun _ => rfl)
    fun _ _ h => pipeCycle_elastic h

/-! With caches from alloc_cache no assertion fails and no search goes on for ever. -/

lemma pipeStageMem_total (policy : Policy) {s : State} (h : WellFormed s.dcache) :
    ∃ s', pipeStageMem policy s = .ok s' ∧ s'.icache = s.icache ∧ WellFormed s'.dcache := by
  unfold pipeStageMem
  cases s.pipe.memOp with
  | none => exact ⟨s,rfl,rfl,h⟩
  | some op =>
    dsimp only
    split_ifs with hstall hmem
    · exact ⟨_,rfl,rfl,h⟩
    · obtain ⟨stallCycles,dcache,rand,hc,hw⟩ :=
        cacheAccess_total policy h s.rand (wordOf_aligned op.memAddr)
      simp only [hc, bind, Except.bind]
      split_ifs
      · exact ⟨_,rfl,rfl,hw⟩
      · exact ⟨_,rfl,rfl,hw⟩
    · exact ⟨_,rfl,rfl,h⟩

lemma pipeStageFetch_total (policy : Policy) {s : State} (h : WellFormed s.icache)
    (hpc : WordAligned s.pipe.pc) :
    ∃ s', pipeStageFetch policy s = .ok s' ∧ WellFormed s'.icache ∧ s'.dcache = s.dcache := by
  unfold pipeStageFetch
  split_ifs with hop hstall
  · exact ⟨s,rfl,h,rfl⟩
  · exact ⟨_,rfl,h,rfl⟩
  · obtain ⟨stallCycles,icache,rand,hc,hw⟩ := cacheAccess_total policy h s.rand hpc
    simp only [hc, bind, Except.bind]
    split_ifs
    · exact ⟨_,rfl,hw,rfl⟩
    · exact ⟨_,rfl,hw,rfl⟩

theorem pipeCycle_total (policy : Policy) {s : State} {a : Arch} (h : Running s.pipe a)
    (hi : WellFormed s.icache) (hd : WellFormed s.dcache) :
    ∃ s', pipeCycle policy s = .ok s' ∧ WellFormed s'.icache ∧ WellFormed s'.dcache := by
  obtain ⟨s₁,hm,hi₁,hd₁⟩ := pipeStageMem_total policy
    (s := { s with pipe := pipeStageWb (0 < s.fetchStall) s.pipe }) hd
  obtain ⟨memGo,hgo⟩ := pipeStageMem_elastic hm
  have hpc : WordAligned (pipeStageDecode (pipeStageExecute s₁.pipe)).pc := by
    rw [hgo]
    exact h.pc_aligned _ _
  obtain ⟨s₂,hf,hi₂,hd₂⟩ := pipeStageFetch_total policy
    (s := { s₁ with pipe := pipeStageDecode (pipeStageExecute s₁.pipe) }) (hi₁ ▸ hi) hpc
  refine ⟨{ s₂ with pipe := recoverBranch s₂.pipe },
    by simp only [pipeCycle, hm, hf, bind, Except.bind],hi₂,?_⟩
  rw [show s₂.dcache = s₁.dcache from hd₂]
  exact hd₁

/-- With caches that have a set a run of lab 1 never aborts. -/
theorem run_total (policy : Policy) (rand : ℕ → ℕ)
    {icapacity dcapacity : Word} {iways isize dways dsize : BitVec 8} {icache dcache : Cache}
    (hi : allocCache policy icapacity iways isize = some icache)
    (hd : allocCache policy dcapacity dways dsize = some dcache)
    {mem : Memory} {regs : Reg → Word} {hireg loreg : Word} {a : Arch}
    (h0 : Running (initialPipe mem regs hireg loreg) a) (n : ℕ)
    (hin : 0 < icache.numSets) (hdn : 0 < dcache.numSets) : ∃ t s, (machine policy).run n
      (initialState icache dcache rand mem regs hireg loreg) = .ok (t,s) := by
  have hsim := (simulation policy).restrict
    (P := fun s => WellFormed s.icache ∧ WellFormed s.dcache) (by
      intro s s' a hR hP hs
      obtain ⟨s'',hs'',hP'⟩ := pipeCycle_total policy hR hP.1 hP.2
      rw [show pipeCycle policy s = .ok s' from hs] at hs''
      exact Except.ok.inj hs'' ▸ hP')
  refine hsim.run_total ?_ ⟨h0,allocCache_wellFormed hi hin,allocCache_wellFormed hd hdn⟩ n
  intro s a h
  obtain ⟨s',hs',-⟩ := pipeCycle_total policy h.1 h.2.1 h.2.2
  exact ⟨s',hs'⟩

/-- A run of lab 1 retires a prefix of what the interpreter executes, and its registers, HI,
LO and memory are the interpreter's, for every policy, cache geometry and outcome of rand().
A cache with no set at all could only be indexed out of bounds. -/
theorem run_refines_interpreter (policy : Policy) (rand : ℕ → ℕ)
    {icapacity dcapacity : Word} {iways isize dways dsize : BitVec 8} {icache dcache : Cache}
    (hi : allocCache policy icapacity iways isize = some icache)
    (hd : allocCache policy dcapacity dways dsize = some dcache)
    (mem : Memory) (regs : Reg → Word) (hireg loreg : Word)
    (hjump : (initialArch mem regs hireg loreg).JumpTargetsAligned)
    (hcode : (initialArch mem regs hireg loreg).NoSelfModification) (n : ℕ) :
    (0 < icache.numSets → 0 < dcache.numSets → ∃ t s, (machine policy).run n
      (initialState icache dcache rand mem regs hireg loreg) = .ok (t,s)) ∧
    ∀ t s, (machine policy).run n
        (initialState icache dcache rand mem regs hireg loreg) = .ok (t,s) →
      t <+: (initialArch mem regs hireg loreg).trace n ∧
        InStep s.pipe (initialArch mem regs hireg loreg) t.length := by
  have h0 : Running (initialPipe mem regs hireg loreg) (initialArch mem regs hireg loreg) :=
    initialPipe_running ⟨(by decide : WordAligned 0x00400000),hjump,hcode⟩
  exact ⟨run_total policy rand hi hd h0 n,fun t s h => elastic_run (simulation policy) h0 h⟩

/-- The default build retires the five instructions of a program that loads, stores, branches
and jumps. -/
theorem jumpProgram_run_refines :
    ∃ t s, (machine .rand).run 130 (initialState (initialCache .rand icacheSize icacheWays)
        (initialCache .rand dcacheSize dcacheWays) id jumpProgram jumpRegs 0 0) = .ok (t,s) ∧
      t.length = 5 ∧ s.pipe.runBit = false ∧
      t <+: (initialArch jumpProgram jumpRegs 0 0).trace 130 ∧
      InStep s.pipe (initialArch jumpProgram jumpRegs 0 0) 5 := by
  have hw := jumpProgram_wellBehaved
  have hi : allocCache .rand icacheSize icacheWays blockSize =
      some (initialCache .rand icacheSize icacheWays) := rfl
  have hd : allocCache .rand dcacheSize dcacheWays blockSize =
      some (initialCache .rand dcacheSize dcacheWays) := rfl
  have htest : Lib.succeeds (fun p => p.1.length == 5 && !p.2.pipe.runBit)
      ((machine .rand).run 130 (initialState (initialCache .rand icacheSize icacheWays)
        (initialCache .rand dcacheSize dcacheWays) id jumpProgram jumpRegs 0 0)) = true := by
    decide +kernel
  obtain ⟨⟨t,s⟩,hrun,hend⟩ := Lib.succeeds_iff.mp htest
  simp only [Bool.and_eq_true, beq_iff_eq, Bool.not_eq_true'] at hend
  obtain ⟨htrace,hstep⟩ := (run_refines_interpreter .rand id hi hd jumpProgram jumpRegs 0 0
    hw.jumps hw.code 130).2 t s hrun
  exact ⟨t,s,hrun,hend.1,hend.2,htrace,hend.1 ▸ hstep⟩

end CaLabs.Lab1
