import CaLabs.Lab2.Pipe
import CaLabs.Pipeline.Refinement

/-! The pipeline of lab 2 refines the interpreter over every memory system. -/
namespace CaLabs.Lab2
open Mips Pipeline

namespace MemSystem
variable {σ : Type*} {M : MemSystem σ}

/-- A memory system that answers every access with a hit or a wait and whose controller
does not abort. -/
structure AlwaysAnswers (M : MemSystem σ) : Prop where
  access : ∀ sys isIcache statCycles address,
    (M.l1CacheAccess sys isIcache statCycles address).1 ≠ .cacheNoMshr
  controller : ∀ sys statCycles, ∃ sys', M.memoryControllerCycle sys statCycles = .ok sys'

lemma AlwaysAnswers.access_ok (hM : M.AlwaysAnswers) (sys : σ) (isIcache : Bool) (t : Word)
    {address : Word} (ha : WordAligned address) :
    ∃ r sys', M.access sys isIcache t address = .ok (r,sys') ∧ r ≠ .cacheNoMshr := by
  refine ⟨_,_,if_pos ha,?_⟩
  exact hM.access sys isIcache t address

/-! What each of the two stages with an access can do. -/

inductive MemStage (M : MemSystem σ) (s : State σ) : State σ → Prop
  | empty (hop : s.pipe.memOp = none) : MemStage M s s
  | filled {op} (hop : s.pipe.memOp = some op) (hw : s.l1MemWaiting = true)
      (hr : M.checkL1FillReady s.sys false s.l1MemMissAddr = true) :
      MemStage M s
        { s with sys := M.freeMshr (M.completeL1Fill s.sys false s.l1MemMissAddr) s.l1MemMissAddr,
                 l1MemWaiting := false, l1MemMissAddr := 0 }
  | waits {op} (hop : s.pipe.memOp = some op) (hw : s.l1MemWaiting = true)
      (hr : ¬M.checkL1FillReady s.sys false s.l1MemMissAddr = true) : MemStage M s s
  | missed {op sys} (hop : s.pipe.memOp = some op) (hw : s.l1MemWaiting = false)
      (hmem : op.isMem = true)
      (ha : M.access (M.cleanupMem s).sys false (M.cleanupMem s).statCycles
        (wordOf op.memAddr) = .ok (.cacheMissWait,sys)) :
      MemStage M s { M.cleanupMem s with sys := sys, l1MemWaiting := true,
                                         l1MemMissAddr := wordOf op.memAddr }
  | hit {op sys} (hop : s.pipe.memOp = some op) (hw : s.l1MemWaiting = false)
      (ha : M.access (M.cleanupMem s).sys false (M.cleanupMem s).statCycles
        (wordOf op.memAddr) = .ok (.cacheHit,sys)) :
      MemStage M s { M.cleanupMem s with sys := sys, pipe := finishMem op (M.cleanupMem s).pipe }
  | passed {op} (hop : s.pipe.memOp = some op) (hw : s.l1MemWaiting = false)
      (hmem : ¬op.isMem = true) :
      MemStage M s { M.cleanupMem s with pipe := finishMem op (M.cleanupMem s).pipe }

inductive FetchStage (M : MemSystem σ) (s : State σ) : State σ → Prop
  | blocked {op} (hop : s.pipe.decodeOp = some op) : FetchStage M s s
  | filled (hop : s.pipe.decodeOp = none) (hw : s.l1FetchWaiting = true)
      (hr : M.checkL1FillReady s.sys true s.l1FetchMissAddr = true) :
      FetchStage M s
        { s with sys := M.freeMshr (M.completeL1Fill s.sys true s.l1FetchMissAddr)
                   s.l1FetchMissAddr,
                 l1FetchWaiting := false, l1FetchMissAddr := 0 }
  | waits (hop : s.pipe.decodeOp = none) (hw : s.l1FetchWaiting = true)
      (hr : ¬M.checkL1FillReady s.sys true s.l1FetchMissAddr = true) : FetchStage M s s
  | missed {sys} (hop : s.pipe.decodeOp = none) (hw : s.l1FetchWaiting = false)
      (ha : M.access (M.cleanupFetch s).sys true (M.cleanupFetch s).statCycles
        (M.cleanupFetch s).pipe.pc = .ok (.cacheMissWait,sys)) :
      FetchStage M s { M.cleanupFetch s with sys := sys, l1FetchWaiting := true,
                                             l1FetchMissAddr := (M.cleanupFetch s).pipe.pc }
  | hit {sys} (hop : s.pipe.decodeOp = none) (hw : s.l1FetchWaiting = false)
      (ha : M.access (M.cleanupFetch s).sys true (M.cleanupFetch s).statCycles
        (M.cleanupFetch s).pipe.pc = .ok (.cacheHit,sys)) :
      FetchStage M s { M.cleanupFetch s with sys := sys,
                                             pipe := finishFetch (M.cleanupFetch s).pipe }

lemma pipeStageMem_ok {s s' : State σ} (h : M.pipeStageMem s = .ok s') : M.MemStage s s' := by
  unfold pipeStageMem at h
  cases hop : s.pipe.memOp with
  | none =>
    simp only [hop, Except.ok.injEq] at h
    exact h ▸ .empty hop
  | some op =>
    simp only [hop] at h
    split_ifs at h with hw hr
    · obtain rfl := Except.ok.inj h
      exact .filled hop hw hr
    · obtain rfl := Except.ok.inj h
      exact .waits hop hw hr
    · have hw' : s.l1MemWaiting = false := by simpa using hw
      unfold accessMem at h
      split_ifs at h with hmem
      · cases ha : M.access (M.cleanupMem s).sys false (M.cleanupMem s).statCycles
            (wordOf op.memAddr) with
        | error e => simp [ha, bind, Except.bind] at h
        | ok p =>
          obtain ⟨r,sys⟩ := p
          simp only [ha, bind, Except.bind] at h
          cases r with
          | cacheNoMshr => cases h
          | cacheMissWait =>
            obtain rfl := Except.ok.inj h
            exact .missed hop hw' hmem ha
          | cacheHit =>
            obtain rfl := Except.ok.inj h
            exact .hit hop hw' ha
      · obtain rfl := Except.ok.inj h
        exact .passed hop hw' hmem

lemma pipeStageFetch_ok {s s' : State σ} (h : M.pipeStageFetch s = .ok s') :
    M.FetchStage s s' := by
  unfold pipeStageFetch at h
  split_ifs at h with hd hw hr
  · obtain ⟨op,hop⟩ := Option.isSome_iff_exists.mp hd
    exact Except.ok.inj h ▸ .blocked hop
  · obtain rfl := Except.ok.inj h
    exact .filled (by simpa using hd) hw hr
  · obtain rfl := Except.ok.inj h
    exact .waits (by simpa using hd) hw hr
  · have hop : s.pipe.decodeOp = none := by simpa using hd
    have hw' : s.l1FetchWaiting = false := by simpa using hw
    unfold accessFetch at h
    cases ha : M.access (M.cleanupFetch s).sys true (M.cleanupFetch s).statCycles
        (M.cleanupFetch s).pipe.pc with
    | error e => simp [ha, bind, Except.bind] at h
    | ok p =>
      obtain ⟨r,sys⟩ := p
      simp only [ha, bind, Except.bind] at h
      cases r with
      | cacheNoMshr => cases h
      | cacheMissWait =>
        obtain rfl := Except.ok.inj h
        exact .missed hop hw' ha
      | cacheHit =>
        obtain rfl := Except.ok.inj h
        exact .hit hop hw' ha

/-- The stages before the fetch stage are the memory stage as far as the misses go. -/
lemma backStages_ok {s s' : State σ} (h : M.backStages s = .ok s') :
    ∃ s₁, M.MemStage { s with pipe := pipeStageWb s.l1FetchWaiting s.pipe } s₁ ∧
      s' = { s₁ with pipe := pipeStageDecode (pipeStageExecute s₁.pipe) } := by
  unfold backStages at h
  cases hm : M.pipeStageMem { s with pipe := pipeStageWb s.l1FetchWaiting s.pipe } with
  | error e => simp [hm, bind, Except.bind] at h
  | ok s₁ =>
    simp only [hm, bind, Except.bind, Except.ok.injEq] at h
    exact ⟨s₁,pipeStageMem_ok hm,h.symm⟩

/-- The stages of a cycle one by one. -/
lemma stages_ok {s s' : State σ} (h : M.stages s = .ok s') :
    ∃ s₁ s₂, M.backStages s = .ok s₁ ∧ M.pipeStageFetch s₁ = .ok s₂ ∧ s' = recover s₂ := by
  unfold stages at h
  cases hb : M.backStages s with
  | error e => simp [hb, bind, Except.bind] at h
  | ok s₁ =>
    simp only [hb, bind, Except.bind] at h
    cases hf : M.pipeStageFetch s₁ with
    | error e => simp [hf] at h
    | ok s₂ =>
      simp only [hf, Except.ok.injEq] at h
      exact ⟨s₁,s₂,rfl,hf,h.symm⟩

/-! Every cycle is an elastic one. -/

lemma cleanupMem_pipe (s : State σ) : (M.cleanupMem s).pipe = s.pipe := by
  unfold cleanupMem
  split_ifs <;> rfl

lemma MemStage.elastic {s s' : State σ} (h : M.MemStage s s') :
    ∃ go, s'.pipe = elasticMem go s.pipe := by
  cases h with
  | empty hop => exact ⟨false,by rw [elasticMem_none _ hop]⟩
  | filled hop => exact ⟨false,by rw [elasticMem_some _ hop]; rfl⟩
  | waits hop => exact ⟨false,by rw [elasticMem_some _ hop]; rfl⟩
  | missed hop => exact ⟨false,by rw [elasticMem_some _ hop, cleanupMem_pipe]; rfl⟩
  | hit hop => exact ⟨true,by rw [elasticMem_some _ hop, cleanupMem_pipe]; rfl⟩
  | passed hop => exact ⟨true,by rw [elasticMem_some _ hop, cleanupMem_pipe]; rfl⟩

lemma pipeStageMem_elastic {s s' : State σ} (h : M.pipeStageMem s = .ok s') :
    ∃ go, s'.pipe = elasticMem go s.pipe := (pipeStageMem_ok h).elastic

lemma cleanupFetch_pipe (s : State σ) : (M.cleanupFetch s).pipe = s.pipe := by
  unfold cleanupFetch
  split_ifs <;> rfl

lemma pipeStageFetch_elastic {s s' : State σ} (h : M.pipeStageFetch s = .ok s') :
    ∃ go, s'.pipe = elasticFetch go s.pipe := by
  cases pipeStageFetch_ok h with
  | blocked => exact ⟨false,rfl⟩
  | filled => exact ⟨false,rfl⟩
  | waits => exact ⟨false,rfl⟩
  | missed => exact ⟨false,cleanupFetch_pipe s⟩
  | hit hop =>
    refine ⟨true,?_⟩
    rw [cleanupFetch_pipe]
    simp only [elasticFetch, hop, and_self, if_true]

lemma backStages_elastic {s s' : State σ} (h : M.backStages s = .ok s') :
    ∃ memGo, s'.pipe = elasticBack s.l1FetchWaiting memGo s.pipe := by
  obtain ⟨s₁,hm,rfl⟩ := backStages_ok h
  obtain ⟨memGo,hgo⟩ := hm.elastic
  exact ⟨memGo,by rw [elasticBack, ← hgo]⟩

lemma stages_elastic {s s' : State σ} (h : M.stages s = .ok s') :
    ∃ memGo fetchGo, s'.pipe = elasticCycle s.l1FetchWaiting memGo fetchGo s.pipe := by
  obtain ⟨s₁,s₂,hb,hf,rfl⟩ := stages_ok h
  obtain ⟨memGo,hm⟩ := backStages_elastic hb
  obtain ⟨fetchGo,hfe⟩ := pipeStageFetch_elastic hf
  refine ⟨memGo,fetchGo,?_⟩
  rw [elasticCycle, ← hm, ← hfe]
  rfl

/-- A cycle consists of its stages, the controller and the cycle counter. -/
lemma cycle_ok {s s' : State σ} (h : M.cycle s = .ok s') :
    ∃ s₁ sys, M.stages s = .ok s₁ ∧ M.memoryControllerCycle s₁.sys s₁.statCycles = .ok sys ∧
      s' = { s₁ with sys := sys, statCycles := s₁.statCycles + 1 } := by
  unfold cycle pipeCycle at h
  cases hs : M.stages s with
  | error e => simp [hs, bind, Except.bind] at h
  | ok s₁ =>
    simp only [hs, bind, Except.bind] at h
    cases hc : M.memoryControllerCycle s₁.sys s₁.statCycles with
    | error e => simp [hc] at h
    | ok sys =>
      simp only [hc, Except.ok.injEq] at h
      exact ⟨s₁,sys,rfl,hc,h.symm⟩

theorem cycle_elastic {s s' : State σ} (h : M.cycle s = .ok s') :
    ∃ waiting memGo fetchGo, s'.pipe = elasticCycle waiting memGo fetchGo s.pipe := by
  obtain ⟨s₁,sys,hs,-,rfl⟩ := cycle_ok h
  obtain ⟨memGo,fetchGo,he⟩ := stages_elastic hs
  exact ⟨s.l1FetchWaiting,memGo,fetchGo,he⟩

/-- The lab 2 pipeline simulates the interpreter over every memory system. -/
theorem simulation (M : MemSystem σ) :
    Lib.Simulation M.machine Arch.next Arch.retires Arch.halts (fun s a => Running s.pipe a)
      (fun s a => Halted s.pipe a) :=
  simulation_of_elastic M.machine State.pipe (fun _ => rfl) (fun _ => rfl)
    fun _ _ h => cycle_elastic h

/-! A memory system that always answers never ends the simulation. -/

lemma pipeStageMem_total (hM : M.AlwaysAnswers) (s : State σ) :
    ∃ s', M.pipeStageMem s = .ok s' := by
  unfold pipeStageMem
  cases s.pipe.memOp with
  | none => exact ⟨s,rfl⟩
  | some op =>
    dsimp only
    split_ifs
    · exact ⟨_,rfl⟩
    · exact ⟨_,rfl⟩
    · unfold accessMem
      split_ifs
      · obtain ⟨r,sys,hr,hne⟩ := hM.access_ok (M.cleanupMem s).sys false
          (M.cleanupMem s).statCycles (wordOf_aligned op.memAddr)
        simp only [hr, bind, Except.bind]
        cases r with
        | cacheNoMshr => exact absurd rfl hne
        | cacheMissWait => exact ⟨_,rfl⟩
        | cacheHit => exact ⟨_,rfl⟩
      · exact ⟨_,rfl⟩

lemma pipeStageFetch_total (hM : M.AlwaysAnswers) {s : State σ} (hpc : WordAligned s.pipe.pc) :
    ∃ s', M.pipeStageFetch s = .ok s' := by
  unfold pipeStageFetch
  split_ifs
  · exact ⟨s,rfl⟩
  · exact ⟨_,rfl⟩
  · exact ⟨_,rfl⟩
  · have hpc' : WordAligned (M.cleanupFetch s).pipe.pc := by rwa [cleanupFetch_pipe]
    obtain ⟨r,sys,hr,hne⟩ := hM.access_ok (M.cleanupFetch s).sys true
      (M.cleanupFetch s).statCycles hpc'
    simp only [accessFetch, hr, bind, Except.bind]
    cases r with
    | cacheNoMshr => exact absurd rfl hne
    | cacheMissWait => exact ⟨_,rfl⟩
    | cacheHit => exact ⟨_,rfl⟩

theorem cycle_total (hM : M.AlwaysAnswers) {s : State σ} {a : Arch} (h : Running s.pipe a) :
    ∃ s', M.cycle s = .ok s' := by
  obtain ⟨s₁,hm⟩ := pipeStageMem_total hM { s with pipe := pipeStageWb s.l1FetchWaiting s.pipe }
  have hb : M.backStages s =
      .ok { s₁ with pipe := pipeStageDecode (pipeStageExecute s₁.pipe) } := by
    simp only [backStages, hm, bind, Except.bind]
  obtain ⟨memGo,hgo⟩ := backStages_elastic hb
  have hpc : WordAligned (pipeStageDecode (pipeStageExecute s₁.pipe)).pc := by
    rw [show pipeStageDecode (pipeStageExecute s₁.pipe) = _ from hgo]
    exact h.pc_aligned _ _
  obtain ⟨s₂,hf⟩ := pipeStageFetch_total hM
    (s := { s₁ with pipe := pipeStageDecode (pipeStageExecute s₁.pipe) }) hpc
  obtain ⟨sys,hsys⟩ := hM.controller (recover s₂).sys (recover s₂).statCycles
  refine ⟨{ recover s₂ with sys := sys, statCycles := (recover s₂).statCycles + 1 },?_⟩
  simp only [cycle, pipeCycle, stages, hb, hf, hsys, bind, Except.bind]

end MemSystem

end CaLabs.Lab2
