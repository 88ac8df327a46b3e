import CaLabs.Lab2.MissState

/-! The operation of a stage that waits: it stays where it is until its fill has come. -/
namespace CaLabs.Lab2
open Mips Pipeline

section Pipe
variable {p : PipeState} {op : PipeOp}

lemma pipeStageExecute_memOp (h : p.memOp = some op) : (pipeStageExecute p).memOp = some op := by
  have hsome : (tickMultiplier p).memOp = some op := h
  simp only [pipeStageExecute, hsome, Option.isSome_some, if_true]

lemma elasticFetch_memOp (go : Bool) : (elasticFetch go p).memOp = p.memOp := by
  unfold elasticFetch
  split_ifs <;> rfl

lemma recoverBranch_memOp (h : p.branchRecover = true → p.branchFlush = 3) :
    (recoverBranch p).memOp = p.memOp := by
  unfold recoverBranch
  cases hb : p.branchRecover with
  | true =>
    simp only [if_true, h hb]
    rfl
  | false => simp only [Bool.false_eq_true, if_false]

lemma recoverBranch_decodeOp (h : p.decodeOp = none) : (recoverBranch p).decodeOp = none := by
  unfold recoverBranch
  cases p.branchRecover with
  | true => simp only [if_true, h, ite_self]
  | false => simpa only [Bool.false_eq_true, if_false] using h

lemma pipeStageExecute_decodeOp : (pipeStageExecute p).decodeOp = p.decodeOp := by
  rcases pipeStageExecute_cases p with ⟨-,h⟩ | ⟨op,-,-,-,h⟩ | ⟨op,-,-,h⟩ <;> rw [h]
  · rfl
  · rfl
  · simp only [finishExecute, pipeRecover, apply_ite PipeState.decodeOp, ite_self]
    rfl

/-- The stages before the fetch stage only take what is decoded. -/
lemma elasticBack_decodeOp (waiting memGo : Bool) (h : p.decodeOp = none) :
    (elasticBack waiting memGo p).decodeOp = none := by
  have hwb : (pipeStageWb waiting p).decodeOp = none := by
    unfold pipeStageWb
    cases p.wbOp with
    | none => exact h
    | some op =>
      dsimp only
      split_ifs <;> exact h
  have hmem : (elasticMem memGo (pipeStageWb waiting p)).decodeOp = none := by
    unfold elasticMem
    cases (pipeStageWb waiting p).memOp with
    | none => exact hwb
    | some op =>
      dsimp only
      split_ifs <;> exact hwb
  have hexec := (pipeStageExecute_decodeOp
    (p := elasticMem memGo (pipeStageWb waiting p))).trans hmem
  unfold elasticBack pipeStageDecode
  rw [hexec]
  split_ifs <;> exact hexec

end Pipe

/-- The memory stage waits for the address of its operation. -/
def State.MemWaits (s : State Memories) : Prop :=
  s.l1MemWaiting = true →
    ∃ op, s.pipe.memOp = some op ∧ op.isMem = true ∧ wordOf op.memAddr = s.l1MemMissAddr

/-- While the fetch stage waits it has passed nothing on. -/
def State.FetchWaits (s : State Memories) : Prop :=
  s.l1FetchWaiting = true → s.pipe.decodeOp = none

section Stages
variable {s s' : State Memories}

lemma State.MemWaits.of_running (h : s.l1MemWaiting = false) : s.MemWaits := fun hw => by
  rw [h] at hw
  cases hw

lemma pipeStageMem_memWaits (hcan : s.l1MemCancelled = false) (hw : s.MemWaits)
    (h : memSystem.MemStage s s') : s'.MemWaits := by
  have hclean := cleanupMem_eq hcan
  cases h with
  | empty => exact hw
  | filled => exact .of_running rfl
  | waits => exact hw
  | missed hop hrun hmem ha =>
    rw [hclean] at ha ⊢
    exact fun _ => ⟨_,hop,hmem,rfl⟩
  | hit hop hrun ha =>
    rw [hclean]
    exact .of_running hrun
  | passed hop hrun =>
    rw [hclean]
    exact .of_running hrun

lemma pipeStageMem_fetchWaiting (hcan : s.l1MemCancelled = false) (h : memSystem.MemStage s s') :
    s'.l1FetchWaiting = s.l1FetchWaiting := by
  have hclean := cleanupMem_eq hcan
  cases h with
  | empty => rfl
  | filled => rfl
  | waits => rfl
  | missed => rw [hclean]
  | hit => rw [hclean]
  | passed => rw [hclean]

lemma cleanupFetch_mem (s : State Memories) :
    (memSystem.cleanupFetch s).l1MemWaiting = s.l1MemWaiting ∧
      (memSystem.cleanupFetch s).l1MemMissAddr = s.l1MemMissAddr := by
  unfold MemSystem.cleanupFetch
  split_ifs <;> exact ⟨rfl,rfl⟩

/-- The fetch stage leaves the miss of the memory stage alone. -/
lemma pipeStageFetch_mem (h : memSystem.FetchStage s s') :
    s'.l1MemWaiting = s.l1MemWaiting ∧ s'.l1MemMissAddr = s.l1MemMissAddr := by
  cases h with
  | blocked => exact ⟨rfl,rfl⟩
  | filled => exact ⟨rfl,rfl⟩
  | waits => exact ⟨rfl,rfl⟩
  | missed => exact cleanupFetch_mem s
  | hit => exact cleanupFetch_mem s

lemma pipeStageFetch_fetchWaits (h : memSystem.FetchStage s s') (hw : s.FetchWaits) :
    s'.FetchWaits := by
  cases h with
  | blocked => exact hw
  | filled => exact fun hw' => (by cases hw')
  | waits => exact hw
  | missed hop =>
    intro _
    exact (congrArg PipeState.decodeOp (MemSystem.cleanupFetch_pipe (M := memSystem) s)).trans hop
  | hit hop hrun =>
    intro hw'
    have hsame : (memSystem.cleanupFetch s).l1FetchWaiting = s.l1FetchWaiting := by
      unfold MemSystem.cleanupFetch
      split_ifs <;> rfl
    exact absurd (hw'.symm.trans (hsame.trans hrun)) (by decide)

/-- The later stages and the recovery leave an operation in the memory stage. -/
lemma memOp_kept {s₀ s₂ : State Memories} {op : PipeOp} (hop : s₀.pipe.memOp = some op)
    (hf : memSystem.pipeStageFetch
      { s₀ with pipe := pipeStageDecode (pipeStageExecute s₀.pipe) } = .ok s₂)
    (hflush : s₂.pipe.branchRecover = true → s₂.pipe.branchFlush = 3) :
    (MemSystem.recover s₂).pipe.memOp = some op := by
  obtain ⟨go,hgo⟩ := MemSystem.pipeStageFetch_elastic hf
  have hmem : s₂.pipe.memOp = some op := by
    rw [hgo, elasticFetch_memOp]
    exact pipeStageDecode_later.1.trans (pipeStageExecute_memOp hop)
  exact (recoverBranch_memOp hflush).trans hmem

end Stages

/-- What holds between two cycles. -/
structure State.Placed (s : State Memories) : Prop where
  settled : s.Settled
  mem : s.MemWaits
  fetch : s.FetchWaits

/-- The stage before the fetch stage keeps it. -/
lemma State.Placed.backStages {s s₁ : State Memories} (h : s.Placed)
    (hb : memSystem.backStages s = .ok s₁) : s₁.FetchWaits := by
  obtain ⟨memGo,hgo⟩ := MemSystem.backStages_elastic hb
  obtain ⟨s₀,hm,rfl⟩ := MemSystem.backStages_ok hb
  have hsame := pipeStageMem_fetchWaiting
    (s := { s with pipe := pipeStageWb s.l1FetchWaiting s.pipe }) h.settled.memCancelled hm
  intro hw
  rw [hgo]
  exact elasticBack_decodeOp _ _ (h.fetch (hsame.symm.trans hw))

lemma cycle_placed {s s' : State Memories} (h : s.Placed) (hc : memSystem.cycle s = .ok s') :
    s'.Placed := by
  obtain ⟨s₃,sys,hst,-,rfl⟩ := MemSystem.cycle_ok hc
  obtain ⟨s₁,s₂,hb,hf,rfl⟩ := MemSystem.stages_ok hst
  have hfetch := pipeStageFetch_fetchWaits (MemSystem.pipeStageFetch_ok hf) (h.backStages hb)
  have hflush := flush_of_settled h.settled hb hf
  obtain ⟨s₀,hm,rfl⟩ := MemSystem.backStages_ok hb
  refine ⟨cycle_settled h.settled hc,fun hw => ?_,fun hw => ?_⟩
  · have hw₀ : s₀.MemWaits := by
      refine pipeStageMem_memWaits (s := { s with pipe := pipeStageWb s.l1FetchWaiting s.pipe })
        h.settled.memCancelled (fun hw => ?_) hm
      obtain ⟨op,hop,hrest⟩ := h.mem hw
      exact ⟨op,(pipeStageWb_later _ _).1.trans hop,hrest⟩
    obtain ⟨hwait,haddr⟩ := pipeStageFetch_mem (MemSystem.pipeStageFetch_ok hf)
    have hw₂ : s₂.l1MemWaiting = true := by
      simp only [MemSystem.recover, Bool.and_eq_true] at hw
      exact hw.1
    obtain ⟨op,hop,hmem,hop'⟩ := hw₀ (hwait.symm.trans hw₂)
    exact ⟨op,memOp_kept hop hf hflush,hmem,hop'.trans haddr.symm⟩
  · simp only [MemSystem.recover, Bool.and_eq_true] at hw
    exact recoverBranch_decodeOp (hfetch hw.1)

theorem reaches_placed (mem : Memory) (regs : Reg → Word) (hi lo : Word) {n : ℕ}
    {s : State Memories}
    (h : memSystem.machine.Reaches (initialState initialMemories mem regs hi lo) n s) :
    s.Placed :=
  Lib.Machine.Reaches.invariant memSystem.machine
    ⟨initialState_settled _ _ _ _ _,.of_running rfl,fun hw => (by cases hw)⟩
    (fun _ _ hs _ hc => cycle_placed hs hc) h

end CaLabs.Lab2
