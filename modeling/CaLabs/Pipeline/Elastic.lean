import CaLabs.Pipeline.Stages
import CaLabs.Mips.Interpreter

/-! The pipeline with every answer of a cache left open: in each cycle the memory stage and
the fetch stage may or may not be let through. Each lab's pipe_cycle is one of these cycles. -/
namespace CaLabs.Pipeline
open Mips

/-- pipe_stage_mem with the cache's answer as an argument. -/
def elasticMem (go : Bool) (s : PipeState) : PipeState :=
  match s.memOp with
  | none => s
  | some op => if go then finishMem op s else s

/-- pipe_stage_fetch with the cache's answer as an argument. -/
def elasticFetch (go : Bool) (s : PipeState) : PipeState :=
  if go ∧ s.decodeOp = none then finishFetch s else s

/-- The stages up to decode. -/
def elasticBack (waiting memGo : Bool) (s : PipeState) : PipeState :=
  pipeStageDecode (pipeStageExecute (elasticMem memGo (pipeStageWb waiting s)))

def elasticCycle (waiting memGo fetchGo : Bool) (s : PipeState) : PipeState :=
  recoverBranch (elasticFetch fetchGo (elasticBack waiting memGo s))

/-- The registers as the execute stage sees them through the bypass from write-back. -/
def PipeState.bypassed (s : PipeState) : Reg → Word :=
  match s.wbOp with
  | none => s.regs
  | some op => writeBack s.regs op

lemma writeBack_of_ne (regs : Reg → Word) (op : PipeOp) {r : Reg} (h : op.regDst ≠ some r) :
    writeBack regs op r = regs r := by
  unfold writeBack
  cases hd : op.regDst with
  | none => rfl
  | some r' =>
    have hne : r ≠ r' := fun he => h (by rw [hd, he])
    dsimp only
    split_ifs
    · exact Function.update_of_ne hne _ _
    · rfl

lemma writeBack_self (regs : Reg → Word) (op : PipeOp) {r : Reg} (h : op.regDst = some r)
    (hr : r ≠ 0) : writeBack regs op r = op.regDstValue := by
  simp only [writeBack, h, if_pos hr, Function.update_self]

/-- With the memory stage empty no operand is missing, and bypassing sees the registers as
they will be after write-back. -/
theorem readSource_eq {s : PipeState} (hm : s.memOp = none) (src : Option Reg) (old : Word) :
    readSource s src old = some (operand s.bypassed src old) := by
  cases src with
  | none => rfl
  | some r =>
    by_cases hr : r = 0
    · simp only [readSource, operand, if_pos hr]
    · simp only [readSource, operand, if_neg hr, hm, Option.filter_none, PipeState.bypassed]
      cases hw : s.wbOp with
      | none => rfl
      | some w =>
        by_cases hd : w.regDst = some r
        · simp only [Option.filter_some, hd, decide_true, if_true, writeBack_self _ _ hd hr]
        · simp only [Option.filter_some, hd, decide_false, writeBack_of_ne _ _ hd,
            Bool.false_eq_true, if_false]

lemma bypassed_tickMultiplier (s : PipeState) : (tickMultiplier s).bypassed = s.bypassed := rfl

/-- With the memory stage empty an op in the execute stage has both operands. -/
lemma pipeStageExecute_ready {s : PipeState} {op : PipeOp} (hm : s.memOp = none)
    (he : s.executeOp = some op) :
    pipeStageExecute s = executeReady (withOperands s.bypassed op) (tickMultiplier s) := by
  have hm' : (tickMultiplier s).memOp = none := hm
  have he' : (tickMultiplier s).executeOp = some op := he
  simp only [pipeStageExecute, hm', he', readSource_eq hm', bypassed_tickMultiplier,
    Option.isSome_none, Option.isNone_some, Option.getD_some, Bool.false_eq_true, or_self,
    if_false]
  rfl

/-- What the execute stage can do: wait for the memory stage or for an op, wait for the
multiplier, or execute the op with its operands. -/
theorem pipeStageExecute_cases (s : PipeState) :
    ((s.memOp ≠ none ∨ s.executeOp = none) ∧ pipeStageExecute s = tickMultiplier s) ∨
    (∃ op, s.memOp = none ∧ s.executeOp = some op ∧ op.opcode = opSpecial ∧
      pipeStageExecute s = awaitMultiplier (withOperands s.bypassed op) (tickMultiplier s)) ∨
    (∃ op, s.memOp = none ∧ s.executeOp = some op ∧
      pipeStageExecute s =
        finishExecute (execute (withOperands s.bypassed op) s.hi s.lo) (tickMultiplier s)) := by
  by_cases hm : s.memOp = none
  · by_cases he : s.executeOp = none
    · refine .inl ⟨.inr he,?_⟩
      have hm' : (tickMultiplier s).memOp = none := hm
      have he' : (tickMultiplier s).executeOp = none := he
      simp only [pipeStageExecute, hm', he', Option.isSome_none, Bool.false_eq_true, if_false]
    · obtain ⟨op,hop⟩ := Option.ne_none_iff_exists'.mp he
      refine .inr ?_
      rw [pipeStageExecute_ready hm hop, executeReady]
      split_ifs with hw
      · have hspecial := hw.1
        simp only [waitsForMultiplier, decide_eq_true_eq] at hspecial
        exact .inl ⟨op,hm,hop,hspecial.1,rfl⟩
      · exact .inr ⟨op,hm,hop,rfl⟩
  · refine .inl ⟨.inl hm,?_⟩
    have hm' : (tickMultiplier s).memOp.isSome = true := Option.isSome_iff_ne_none.mpr hm
    simp only [pipeStageExecute, hm', if_true]

/-! Frame facts: what each stage leaves alone. -/

section Frame
variable (waiting go : Bool) (s : PipeState)

lemma elasticMem_none {s : PipeState} (h : s.memOp = none) : elasticMem go s = s := by
  simp [elasticMem, h]

lemma elasticMem_some {s : PipeState} {op : PipeOp} (h : s.memOp = some op) :
    elasticMem go s = if go then finishMem op s else s := by
  simp [elasticMem, h]

lemma elasticMem_pc : (elasticMem go s).pc = s.pc := by
  cases h : s.memOp with
  | none => rw [elasticMem_none go h]
  | some op => rw [elasticMem_some go h]; split_ifs <;> rfl

lemma finishExecute_taken {r : ExecuteResult} {s : PipeState} (hs : s.branchRecover = false)
    (ht : r.op.branchTaken = true) :
    finishExecute r s =
      { s with hi := r.hi, lo := r.lo, executeOp := none, memOp := some r.op,
               multiplierStall := r.multiplierStall.getD s.multiplierStall,
               branchRecover := true, branchFlush := 3, branchDest := r.op.branchDest } := by
  simp only [finishExecute, pipeRecover, ht, hs, Bool.false_eq_true, if_true, if_false]

lemma finishExecute_not_taken {r : ExecuteResult} {s : PipeState}
    (ht : ¬ r.op.branchTaken = true) :
    finishExecute r s =
      { s with hi := r.hi, lo := r.lo, executeOp := none, memOp := some r.op,
               multiplierStall := r.multiplierStall.getD s.multiplierStall } := by
  simp only [finishExecute, if_neg ht]

lemma finishExecute_pc (r : ExecuteResult) : (finishExecute r s).pc = s.pc := by
  simp only [finishExecute, pipeRecover, apply_ite PipeState.pc, ite_self]

/-- What the stages after the memory stage leave alone: the registers, the write-back slot,
memory and RUN_BIT, and HI and LO as long as the memory slot stays empty. -/
structure Framed (s s' : PipeState) : Prop where
  regs : s'.regs = s.regs
  wbOp : s'.wbOp = s.wbOp
  mem : s'.mem = s.mem
  runBit : s'.runBit = s.runBit
  hilo : s'.memOp = none → s.memOp = none ∧ s'.hi = s.hi ∧ s'.lo = s.lo

lemma Framed.refl : Framed s s := ⟨rfl,rfl,rfl,rfl,fun h => ⟨h,rfl,rfl⟩⟩

lemma finishExecute_framed (r : ExecuteResult) : Framed s (finishExecute r s) := by
  simp only [finishExecute, pipeRecover]
  split_ifs <;> exact ⟨rfl,rfl,rfl,rfl,fun h => (by cases h)⟩

lemma pipeStageExecute_framed : Framed s (pipeStageExecute s) := by
  rcases pipeStageExecute_cases s with ⟨-,h⟩ | ⟨op,-,-,-,h⟩ | ⟨op,-,-,h⟩ <;> rw [h]
  · exact ⟨rfl,rfl,rfl,rfl,fun h => ⟨h,rfl,rfl⟩⟩
  · exact ⟨rfl,rfl,rfl,rfl,fun h => ⟨h,rfl,rfl⟩⟩
  · obtain ⟨hr,hw,hm,hb,-⟩ := finishExecute_framed (tickMultiplier s)
      (execute (withOperands s.bypassed op) s.hi s.lo)
    exact ⟨hr,hw,hm,hb,fun h => (by cases h)⟩

lemma pipeStageDecode_framed : Framed s (pipeStageDecode s) := by
  unfold pipeStageDecode
  split_ifs
  · exact .refl s
  · cases s.decodeOp <;> exact ⟨rfl,rfl,rfl,rfl,fun h => ⟨h,rfl,rfl⟩⟩

lemma elasticFetch_framed : Framed s (elasticFetch go s) := by
  unfold elasticFetch
  split_ifs
  · exact ⟨rfl,rfl,rfl,rfl,fun h => ⟨h,rfl,rfl⟩⟩
  · exact .refl s

lemma recoverBranch_framed {s : PipeState} (h : s.branchRecover = true → s.branchFlush = 3) :
    Framed s (recoverBranch s) := by
  by_cases hb : s.branchRecover = true
  · simp only [recoverBranch, hb, if_true, h hb]
    exact ⟨rfl,rfl,rfl,rfl,fun h => ⟨h,rfl,rfl⟩⟩
  · rw [recoverBranch, if_neg hb]
    exact .refl s

lemma recoverBranch_branchRecover : (recoverBranch s).branchRecover = false := by
  by_cases hb : s.branchRecover = true
  · simp only [recoverBranch, hb, if_true]
  · rw [recoverBranch, if_neg hb]
    simpa using hb

lemma elasticMem_branchRecover : (elasticMem go s).branchRecover = s.branchRecover := by
  cases h : s.memOp with
  | none => rw [elasticMem_none go h]
  | some op => rw [elasticMem_some go h]; split_ifs <;> rfl

lemma elasticMem_runBit : (elasticMem go s).runBit = s.runBit := by
  cases h : s.memOp with
  | none => rw [elasticMem_none go h]
  | some op => rw [elasticMem_some go h]; split_ifs <;> rfl

lemma pipeStageExecute_pc : (pipeStageExecute s).pc = s.pc := by
  rcases pipeStageExecute_cases s with ⟨-,h⟩ | ⟨op,-,-,-,h⟩ | ⟨op,-,-,h⟩
  · exact (congrArg PipeState.pc h).trans rfl
  · exact (congrArg PipeState.pc h).trans rfl
  · exact (congrArg PipeState.pc h).trans (finishExecute_pc _ _)

lemma pipeStageDecode_pc : (pipeStageDecode s).pc = s.pc := by
  unfold pipeStageDecode
  split_ifs
  · rfl
  · cases s.decodeOp <;> rfl

lemma elasticBack_pc (memGo : Bool) :
    (elasticBack waiting memGo s).pc = (pipeStageWb waiting s).pc := by
  rw [elasticBack, pipeStageDecode_pc, pipeStageExecute_pc, elasticMem_pc]

end Frame
end CaLabs.Pipeline
