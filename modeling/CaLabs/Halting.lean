import CaLabs.Lab1.Pipe
import CaLabs.Lab2.FirstFetch

/-! The program counter at the end of a run: what the younger instructions in the pipeline do
to it in the cycle in which the halting syscall retires. -/
namespace CaLabs
open Mips Pipeline

section Elastic
variable {s : PipeState} {op : PipeOp} (waiting memGo fetchGo : Bool)

/-- Write-back of the halting syscall leaves its address to the fetch stage, or the next one
if that stage waits for its cache. -/
lemma pipeStageWb_halt_pc (hw : s.wbOp = some op) (hh : isHalt op = true) :
    (pipeStageWb waiting s).pc = if waiting then op.pc + 4 else op.pc := by
  simp only [pipeStageWb, hw, hh, if_true]

/-- The program counter after the cycle, by what happens between write-back and its end. -/
lemma elasticCycle_halt_pc (hw : s.wbOp = some op) (hh : isHalt op = true) :
    (elasticCycle waiting memGo fetchGo s).pc =
      if (elasticBack waiting memGo s).branchRecover then
        (elasticBack waiting memGo s).branchDest
      else if fetchGo ∧ (elasticBack waiting memGo s).decodeOp = none then
        (if waiting then op.pc + 4 else op.pc) + 4
      else if waiting then op.pc + 4 else op.pc := by
  have hpc : (elasticBack waiting memGo s).pc = if waiting then op.pc + 4 else op.pc := by
    rw [elasticBack_pc, pipeStageWb_halt_pc waiting hw hh]
  unfold elasticCycle elasticFetch
  by_cases hf : fetchGo ∧ (elasticBack waiting memGo s).decodeOp = none
  · rw [if_pos hf, if_pos hf]
    by_cases hb : (elasticBack waiting memGo s).branchRecover = true
    · have hb' : (finishFetch (elasticBack waiting memGo s)).branchRecover = true := hb
      rw [if_pos hb, recoverBranch, if_pos hb']
      rfl
    · have hb' : ¬ (finishFetch (elasticBack waiting memGo s)).branchRecover = true := hb
      rw [if_neg hb, recoverBranch, if_neg hb', ← hpc]
      rfl
  · rw [if_neg hf, if_neg hf]
    by_cases hb : (elasticBack waiting memGo s).branchRecover = true
    · rw [if_pos hb, recoverBranch, if_pos hb]
    · rw [if_neg hb, recoverBranch, if_neg hb, hpc]

lemma add_four_ne (pc : Word) : pc ≠ pc + 4 := by
  intro h
  have h4 : (4 : Word) = 0 := by
    have hsub := congrArg (fun x => x - pc) h
    simpa using hsub.symm
  exact absurd h4 (by decide)

/-- When a stage that waits does not fetch, the final program counter is exact if and only if
a branch goes there, or the fetch stage waited before, or it fetches. -/
lemma elasticCycle_halt_exact (hw : s.wbOp = some op) (hh : isHalt op = true)
    (hwait : waiting = true → fetchGo = false) :
    (elasticCycle waiting memGo fetchGo s).pc = op.pc + 4 ↔
      if (elasticBack waiting memGo s).branchRecover then
        (elasticBack waiting memGo s).branchDest = op.pc + 4
      else waiting = true ∨ (fetchGo = true ∧ (elasticBack waiting memGo s).decodeOp = none) := by
  rw [elasticCycle_halt_pc waiting memGo fetchGo hw hh]
  split_ifs with hb hf hw' hw'
  · rfl
  · rw [hwait hw'] at hf
    exact absurd hf.1 Bool.false_ne_true
  · exact iff_of_true rfl (.inr hf)
  · exact iff_of_true rfl (.inl hw')
  · exact iff_of_false (add_four_ne op.pc) (not_or.mpr ⟨hw',hf⟩)

end Elastic

namespace Lab1

/-- The stages before the fetch stage. -/
def backStages (policy : Policy) (s : State) : Except Abort State := do
  let s ← pipeStageMem policy { s with pipe := pipeStageWb (0 < s.fetchStall) s.pipe }
  .ok { s with pipe := pipeStageDecode (pipeStageExecute s.pipe) }

/-- In the cycle that starts here a taken branch goes to the address after the syscall, or
there is none and the fetch stage is stalled already or hits in its cache. -/
def HaltsExactly (policy : Policy) (s : State) (op : PipeOp) : Prop :=
  ∀ s₁, backStages policy s = .ok s₁ →
    if s₁.pipe.branchRecover then s₁.pipe.branchDest = op.pc + 4
    else 0 < s.fetchStall ∨ (s₁.pipe.decodeOp = none ∧
      ∃ icache rand, cacheAccess policy s₁.icache s₁.rand s₁.pipe.pc = .ok (0,icache,rand))

/-- No branch is taken and the fetch stage hits. -/
lemma haltsExactly_of_hit {policy : Policy} {s m : State} {op : PipeOp} {r : Cache × (ℕ → ℕ)}
    (hm : backStages policy s = .ok m) (hb : m.pipe.branchRecover = false)
    (hd : m.pipe.decodeOp = none)
    (hc : cacheAccess policy m.icache m.rand m.pipe.pc = .ok (0,r)) : HaltsExactly policy s op := by
  intro m' hm'
  obtain rfl := Except.ok.inj (hm.symm.trans hm')
  rw [if_neg (by rw [hb]; exact Bool.false_ne_true)]
  exact .inr ⟨hd,r.1,r.2,hc⟩

lemma pipeStageMem_fetchStall {policy : Policy} {s s' : State}
    (h : pipeStageMem policy s = .ok s') : s'.fetchStall = s.fetchStall := by
  unfold pipeStageMem at h
  cases hop : s.pipe.memOp with
  | none =>
    simp only [hop, Except.ok.injEq] at h
    rw [h]
  | some op =>
    simp only [hop] at h
    split_ifs at h
    · obtain rfl := Except.ok.inj h
      rfl
    · cases hc : cacheAccess policy s.dcache s.rand (wordOf op.memAddr) with
      | error e => simp [hc, bind, Except.bind] at h
      | ok r =>
        simp only [hc, bind, Except.bind] at h
        split_ifs at h
        · obtain rfl := Except.ok.inj h
          rfl
        · obtain rfl := Except.ok.inj h
          rfl
    · obtain rfl := Except.ok.inj h
      rfl

/-- When the fetch stage fetches. -/
lemma pipeStageFetch_goes {policy : Policy} {s s' : State} (h : pipeStageFetch policy s = .ok s') :
    ∃ go : Bool, s'.pipe = elasticFetch go s.pipe ∧ (0 < s.fetchStall → go = false) ∧
      (s.fetchStall = 0 → (go = true ∧ s.pipe.decodeOp = none ↔ s.pipe.decodeOp = none ∧
        ∃ icache rand, cacheAccess policy s.icache s.rand s.pipe.pc = .ok (0,icache,rand))) := by
  unfold pipeStageFetch at h
  split_ifs at h with hop hstall
  · obtain rfl := Except.ok.inj h
    obtain ⟨q,hq⟩ := Option.isSome_iff_exists.mp hop
    exact ⟨false,rfl,fun _ => rfl,fun _ => by simp [hq]⟩
  · obtain rfl := Except.ok.inj h
    exact ⟨false,rfl,fun _ => rfl,fun h0 => absurd hstall (by omega)⟩
  · have hnone : s.pipe.decodeOp = none := by simpa using hop
    cases hc : cacheAccess policy s.icache s.rand s.pipe.pc with
    | error e => simp [hc, bind, Except.bind] at h
    | ok r =>
      obtain ⟨stallCycles,icache,rand⟩ := r
      simp only [hc, bind, Except.bind] at h
      split_ifs at h with hmiss
      · obtain rfl := Except.ok.inj h
        refine ⟨false,rfl,fun _ => rfl,fun _ => iff_of_false (fun hgo => (by cases hgo.1)) ?_⟩
        rintro ⟨-,c,r,he⟩
        have h0 := congrArg Prod.fst (Except.ok.inj he)
        dsimp only at h0
        omega
      · obtain rfl := Except.ok.inj h
        refine ⟨true,by simp only [elasticFetch, hnone, and_self, if_true],
          fun hpos => absurd hpos hstall,fun _ => iff_of_true ⟨rfl,hnone⟩ ⟨hnone,icache,rand,?_⟩⟩
        rw [Nat.eq_zero_of_not_pos hmiss]

/-- The halting cycle of lab 1. -/
theorem cycle_halt_exact {policy : Policy} {s s' : State} {op : PipeOp}
    (h : pipeCycle policy s = .ok s') (hw : s.pipe.wbOp = some op) (hh : isHalt op = true) :
    s'.pipe.pc = op.pc + 4 ↔ HaltsExactly policy s op := by
  unfold pipeCycle at h
  cases hm : pipeStageMem policy { s with pipe := pipeStageWb (0 < s.fetchStall) s.pipe } with
  | error e => simp [hm, bind, Except.bind] at h
  | ok s₁ =>
    simp only [hm, bind, Except.bind] at h
    have hback : backStages policy s =
        .ok { s₁ with pipe := pipeStageDecode (pipeStageExecute s₁.pipe) } := by
      simp only [backStages, hm, bind, Except.bind]
    cases hf : pipeStageFetch policy
        { s₁ with pipe := pipeStageDecode (pipeStageExecute s₁.pipe) } with
    | error e => simp [hf] at h
    | ok s₂ =>
      simp only [hf, Except.ok.injEq] at h
      obtain ⟨memGo,hmem⟩ := pipeStageMem_elastic hm
      obtain ⟨fetchGo,hfetch,hstall,hgo⟩ := pipeStageFetch_goes hf
      have hst : s₁.fetchStall = s.fetchStall := pipeStageMem_fetchStall
        (s := { s with pipe := pipeStageWb (0 < s.fetchStall) s.pipe }) hm
      have hb : pipeStageDecode (pipeStageExecute s₁.pipe) =
          elasticBack (0 < s.fetchStall) memGo s.pipe := by rw [elasticBack, ← hmem]
      have hpipe : s'.pipe = elasticCycle (0 < s.fetchStall) memGo fetchGo s.pipe := by
        rw [← h, elasticCycle, ← hb, ← hfetch]
      have hexact : HaltsExactly policy s op ↔
          if (elasticBack (0 < s.fetchStall) memGo s.pipe).branchRecover then
            (elasticBack (0 < s.fetchStall) memGo s.pipe).branchDest = op.pc + 4
          else 0 < s.fetchStall ∨
            ((elasticBack (0 < s.fetchStall) memGo s.pipe).decodeOp = none ∧
              ∃ icache rand, cacheAccess policy s₁.icache s₁.rand
                (elasticBack (0 < s.fetchStall) memGo s.pipe).pc = .ok (0,icache,rand)) := by
        rw [← hb, HaltsExactly, hback]
        constructor
        · intro hex
          exact hex _ rfl
        · rintro hex _ ⟨⟩
          exact hex
      dsimp only at hgo hstall
      rw [hst] at hgo hstall
      rw [hb] at hgo
      rw [hpipe, hexact, elasticCycle_halt_exact _ memGo fetchGo hw hh
        fun hwait => hstall (by simpa using hwait)]
      by_cases hzero : s.fetchStall = 0
      · rw [hgo hzero, decide_eq_true_iff]
      · have hpos : 0 < s.fetchStall := Nat.pos_of_ne_zero hzero
        simp only [hpos, decide_true, true_or]

end Lab1

namespace Lab2
section
variable {σ : Type*}

/-- In the cycle that starts here a taken branch goes to the address after the syscall, or
there is none and the fetch stage waits for a fill already or hits in its cache. -/
def HaltsExactly (M : MemSystem σ) (s : State σ) (op : PipeOp) : Prop :=
  ∀ s₁, M.backStages s = .ok s₁ →
    if s₁.pipe.branchRecover then s₁.pipe.branchDest = op.pc + 4
    else s.l1FetchWaiting = true ∨ (s₁.pipe.decodeOp = none ∧
      (M.l1CacheAccess (M.cleanupFetch s₁).sys true s₁.statCycles s₁.pipe.pc).1 = .cacheHit)

variable {M : MemSystem σ}

/-- No branch is taken and the fetch stage hits. -/
lemma haltsExactly_of_hit {s m : State σ} {op : PipeOp} (hm : M.backStages s = .ok m)
    (hb : m.pipe.branchRecover = false) (hd : m.pipe.decodeOp = none)
    (hc : (M.l1CacheAccess (M.cleanupFetch m).sys true m.statCycles m.pipe.pc).1 = .cacheHit) :
    HaltsExactly M s op := by
  intro m' hm'
  obtain rfl := Except.ok.inj (hm.symm.trans hm')
  rw [if_neg (by rw [hb]; exact Bool.false_ne_true)]
  exact .inr ⟨hd,hc⟩

lemma backStages_fetchWaiting {s s' : State σ} (h : M.backStages s = .ok s') :
    s'.l1FetchWaiting = s.l1FetchWaiting := by
  obtain ⟨s₁,hm,rfl⟩ := MemSystem.backStages_ok h
  have hclean : ∀ t : State σ, (M.cleanupMem t).l1FetchWaiting = t.l1FetchWaiting := by
    intro t
    unfold MemSystem.cleanupMem
    split_ifs <;> rfl
  cases hm with
  | empty => rfl
  | filled => rfl
  | waits => rfl
  | missed => exact hclean _
  | hit => exact hclean _
  | passed => exact hclean _

/-- When the fetch stage fetches. -/
lemma pipeStageFetch_goes {s s' : State σ} (h : M.pipeStageFetch s = .ok s') :
    ∃ go : Bool, s'.pipe = elasticFetch go s.pipe ∧ (s.l1FetchWaiting = true → go = false) ∧
      (s.l1FetchWaiting = false → (go = true ∧ s.pipe.decodeOp = none ↔ s.pipe.decodeOp = none ∧
        (M.l1CacheAccess (M.cleanupFetch s).sys true s.statCycles s.pipe.pc).1 = .cacheHit)) := by
  have hanswer : ∀ r sys, M.access (M.cleanupFetch s).sys true (M.cleanupFetch s).statCycles
      (M.cleanupFetch s).pipe.pc = .ok (r,sys) →
      (M.l1CacheAccess (M.cleanupFetch s).sys true s.statCycles s.pipe.pc).1 = r := by
    intro r sys ha
    have hcycles : (M.cleanupFetch s).statCycles = s.statCycles := by
      unfold MemSystem.cleanupFetch
      split_ifs <;> rfl
    unfold MemSystem.access at ha
    rw [MemSystem.cleanupFetch_pipe, hcycles] at ha
    split_ifs at ha
    rw [Except.ok.inj ha]
  cases MemSystem.pipeStageFetch_ok h with
  | blocked hop => exact ⟨false,rfl,fun _ => rfl,fun _ => by simp [hop]⟩
  | filled hop hw => exact ⟨false,rfl,fun _ => rfl,fun h0 => absurd hw (by simp [h0])⟩
  | waits hop hw => exact ⟨false,rfl,fun _ => rfl,fun h0 => absurd hw (by simp [h0])⟩
  | missed hop hw ha =>
    refine ⟨false,MemSystem.cleanupFetch_pipe s,fun _ => rfl,fun _ => ?_⟩
    rw [hanswer _ _ ha]
    exact iff_of_false (fun hgo => (by cases hgo.1)) (fun hhit => (by cases hhit.2))
  | hit hop hw ha =>
    refine ⟨true,?_,fun h0 => absurd h0 (by simp [hw]),fun _ => ?_⟩
    · rw [MemSystem.cleanupFetch_pipe]
      simp only [elasticFetch, hop, and_self, if_true]
    · rw [hanswer _ _ ha]
      exact iff_of_true ⟨rfl,hop⟩ ⟨hop,rfl⟩

/-- The halting cycle of lab 2. -/
theorem cycle_halt_exact {s s' : State σ} {op : PipeOp} (h : M.cycle s = .ok s')
    (hw : s.pipe.wbOp = some op) (hh : isHalt op = true) :
    s'.pipe.pc = op.pc + 4 ↔ HaltsExactly M s op := by
  obtain ⟨s₃,sys,hs,-,rfl⟩ := MemSystem.cycle_ok h
  obtain ⟨s₁,s₂,hb,hf,rfl⟩ := MemSystem.stages_ok hs
  obtain ⟨memGo,hback⟩ := MemSystem.backStages_elastic hb
  obtain ⟨fetchGo,hfetch,hwait,hgo⟩ := pipeStageFetch_goes hf
  rw [backStages_fetchWaiting hb] at hwait hgo
  have hpipe : (MemSystem.recover s₂).pipe =
      elasticCycle s.l1FetchWaiting memGo fetchGo s.pipe := by
    rw [elasticCycle, ← hback, ← hfetch]
    rfl
  have hexact : HaltsExactly M s op ↔
      if s₁.pipe.branchRecover then s₁.pipe.branchDest = op.pc + 4
      else s.l1FetchWaiting = true ∨ (s₁.pipe.decodeOp = none ∧ (M.l1CacheAccess
        (M.cleanupFetch s₁).sys true s₁.statCycles s₁.pipe.pc).1 = .cacheHit) := by
    rw [HaltsExactly, hb]
    constructor
    · intro hex
      exact hex _ rfl
    · rintro hex _ ⟨⟩
      exact hex
  dsimp only
  rw [hpipe, hexact, elasticCycle_halt_exact _ memGo fetchGo hw hh hwait, ← hback]
  cases hwaiting : s.l1FetchWaiting with
  | true => simp only [true_or]
  | false => rw [hgo hwaiting]

end
end Lab2

/-- In the cycle in which either simulator retires the halting syscall, its program counter
ends after the syscall exactly if no taken branch leads elsewhere and the fetch stage fetches
or has been waiting for its cache. -/
theorem halting_pc_exact_iff (policy : Lab1.Policy) (op : PipeOp) (s₁ s₁' : Lab1.State)
    (s₂ s₂' : Lab2.State Lab2.Memories) :
    (Lab1.pipeCycle policy s₁ = .ok s₁' → s₁.pipe.wbOp = some op → isHalt op = true →
      (s₁'.pipe.pc = op.pc + 4 ↔ Lab1.HaltsExactly policy s₁ op)) ∧
    (Lab2.memSystem.cycle s₂ = .ok s₂' → s₂.pipe.wbOp = some op → isHalt op = true →
      (s₂'.pipe.pc = op.pc + 4 ↔ Lab2.HaltsExactly Lab2.memSystem s₂ op)) :=
  ⟨fun h hw hh => Lab1.cycle_halt_exact h hw hh,fun h hw hh => Lab2.cycle_halt_exact h hw hh⟩

/-- Lab 1 before the first cycle of the program that only exits. -/
def Lab1.exitState : Lab1.State :=
  Lab1.initialState (Lab1.initialCache .rand Lab1.icacheSize Lab1.icacheWays)
    (Lab1.initialCache .rand Lab1.dcacheSize Lab1.dcacheWays) id exitProgram exitRegs 0 0

/-- In lab 1 the syscall retires in cycle 54, in which the fetch stage hits. -/
lemma Lab1.exitState_halts : ∃ s s' op, (Lab1.machine .rand).Reaches Lab1.exitState 54 s ∧
    Lab1.pipeCycle .rand s = .ok s' ∧ s.pipe.wbOp = some op ∧ isHalt op = true ∧
    op.pc = 0x400000 ∧ Lab1.HaltsExactly .rand s op := by
  have hlead : (Lab1.machine .rand).leadsTo (fun s =>
      s.pipe.wbOp.any (fun op => isHalt op && op.pc == 0x400000) &&
      Lib.succeeds (fun _ => true) (Lab1.pipeCycle .rand s) &&
      Lib.succeeds (fun m => !m.pipe.branchRecover && m.pipe.decodeOp.isNone &&
        Lib.succeeds (fun r => r.1 == 0) (Lab1.cacheAccess .rand m.icache m.rand m.pipe.pc))
        (Lab1.backStages .rand s)) 54 Lab1.exitState = true := by decide +kernel
  obtain ⟨s,hs,htest⟩ := (Lab1.machine .rand).leadsTo_reaches hlead
  simp only [Bool.and_eq_true, Option.any_eq_true, Lib.succeeds_iff, beq_iff_eq,
    Bool.not_eq_true', Option.isNone_iff_eq_none] at htest
  obtain ⟨⟨⟨op,hop,hhalt,hpc⟩,s',hcycle,-⟩,m,hm,⟨hb,hd⟩,⟨-,r⟩,hc,rfl⟩ := htest
  exact ⟨s,s',op,hs,hcycle,hop,hhalt,hpc,Lab1.haltsExactly_of_hit hm hb hd hc⟩

/-- In lab 2 it retires in cycle 266. -/
lemma Lab2.exitProgram_halts : ∃ s s' op, Lab2.memSystem.machine.Reaches
      (Lab2.initialState Lab2.initialMemories exitProgram exitRegs 0 0) 266 s ∧
    Lab2.memSystem.cycle s = .ok s' ∧ s.pipe.wbOp = some op ∧ isHalt op = true ∧
    op.pc = 0x400000 ∧ Lab2.HaltsExactly Lab2.memSystem s op := by
  have hlead : Lab2.memSystem.machine.leadsTo (fun s =>
      s.pipe.wbOp.any (fun op => isHalt op && op.pc == 0x400000) &&
      Lib.succeeds (fun _ => true) (Lab2.memSystem.cycle s) &&
      Lib.succeeds (fun m => !m.pipe.branchRecover && m.pipe.decodeOp.isNone &&
        decide ((Lab2.memSystem.l1CacheAccess (Lab2.memSystem.cleanupFetch m).sys true
          m.statCycles m.pipe.pc).1 = .cacheHit)) (Lab2.memSystem.backStages s)) 5
      (Lab2.waitingState exitProgram exitRegs 0 0 true 261) = true := by decide +kernel
  obtain ⟨s,hs,htest⟩ := Lab2.reaches_of_leadsTo _ _ _ _ hlead
  simp only [Bool.and_eq_true, Option.any_eq_true, Lib.succeeds_iff, beq_iff_eq,
    Bool.not_eq_true', Option.isNone_iff_eq_none, decide_eq_true_eq] at htest
  obtain ⟨⟨⟨op,hop,hhalt,hpc⟩,s',hcycle,-⟩,m,hm,⟨hb,hd⟩,hc⟩ := htest
  exact ⟨s,s',op,hs,hcycle,hop,hhalt,hpc,Lab2.haltsExactly_of_hit hm hb hd hc⟩

/-- The runs of both simulators that only exit, up to the cycle in which the syscall retires: the
fetch stage fetches another instruction from its block, and the program counter is exact. -/
theorem exitProgram_halting_pc :
    (∃ s s' op, (Lab1.machine .rand).Reaches Lab1.exitState 54 s ∧
      Lab1.pipeCycle .rand s = .ok s' ∧ s.pipe.wbOp = some op ∧ isHalt op = true ∧
      op.pc = 0x400000 ∧ s'.pipe.pc = 0x400004) ∧
    ∃ s s' op, Lab2.memSystem.machine.Reaches
        (Lab2.initialState Lab2.initialMemories exitProgram exitRegs 0 0) 266 s ∧
      Lab2.memSystem.cycle s = .ok s' ∧ s.pipe.wbOp = some op ∧ isHalt op = true ∧
      op.pc = 0x400000 ∧ s'.pipe.pc = 0x400004 := by
  obtain ⟨s₁,s₁',op₁,hs₁,hc₁,hop₁,hh₁,hpc₁,he₁⟩ := Lab1.exitState_halts
  obtain ⟨s₂,s₂',op₂,hs₂,hc₂,hop₂,hh₂,hpc₂,he₂⟩ := Lab2.exitProgram_halts
  refine ⟨⟨s₁,s₁',op₁,hs₁,hc₁,hop₁,hh₁,hpc₁,?_⟩,s₂,s₂',op₂,hs₂,hc₂,hop₂,hh₂,hpc₂,?_⟩
  · rw [((halting_pc_exact_iff .rand op₁ s₁ s₁' s₂ s₂').1 hc₁ hop₁ hh₁).mpr he₁, hpc₁]
    rfl
  · rw [((halting_pc_exact_iff .rand op₂ s₁ s₁' s₂ s₂').2 hc₂ hop₂ hh₂).mpr he₂, hpc₂]
    rfl

/-- A syscall, a nop and a branch from 0x400008 to 0x400048. -/
def exitBranchProgram : Memory := fun r offset =>
  if r ≠ .text then 0
  else if offset = 0 then 0x0C
  else if offset = 8 then 0x0F
  else if offset = 11 then 0x10
  else 0

/-- The state of lab 1 before its first cycle. -/
def Lab1.exitBranchState : Lab1.State :=
  Lab1.initialState (Lab1.initialCache .rand Lab1.icacheSize Lab1.icacheWays)
    (Lab1.initialCache .rand Lab1.dcacheSize Lab1.dcacheWays) id exitBranchProgram exitRegs 0 0

/-- The branch in the execute stage decides where the run of lab 1 ends. -/
theorem exitBranchProgram_pc : ∃ s s' op, (Lab1.machine .rand).Reaches Lab1.exitBranchState 54 s ∧
    Lab1.pipeCycle .rand s = .ok s' ∧ s.pipe.wbOp = some op ∧ isHalt op = true ∧
    op.pc = 0x400000 ∧ s'.pipe.pc = 0x400048 := by
  have hlead : (Lab1.machine .rand).leadsTo (fun s =>
      match s.pipe.wbOp, Lab1.pipeCycle .rand s with
      | some op, .ok s' => isHalt op && (op.pc == 0x400000) && (s'.pipe.pc == 0x400048)
      | some _, .error _ => false
      | none, _ => false) 54 Lab1.exitBranchState = true := by decide +kernel
  obtain ⟨s,hs,hp⟩ := (Lab1.machine .rand).leadsTo_reaches hlead
  cases hop : s.pipe.wbOp with
  | none => simp [hop] at hp
  | some op =>
    cases hc : Lab1.pipeCycle .rand s with
    | error e => simp [hop, hc] at hp
    | ok s' =>
      simp only [hop, hc, Bool.and_eq_true, beq_iff_eq] at hp
      exact ⟨s,s',op,hs,hc,hop,hp.1.1,hp.1.2,hp.2⟩

end CaLabs
