import CaLabs.Mips.Execute

/-! The pipeline state and the stage code that pipe.c of lab 1 and of lab 2 have in common.
What the two labs do differently, waiting for a cache, is left to each of them. -/
namespace CaLabs.Pipeline
open Mips

/-- The fields of Pipe_State common to both labs, with the main memory and RUN_BIT of
shell.c, which the stages write as well. -/
structure PipeState where
  decodeOp : Option PipeOp := none
  executeOp : Option PipeOp := none
  memOp : Option PipeOp := none
  wbOp : Option PipeOp := none
  regs : Reg → Word
  hi : Word
  lo : Word
  pc : Word
  branchRecover : Bool := false
  branchDest : Word := 0
  branchFlush : ℕ := 0
  multiplierStall : ℕ := 0
  mem : Memory
  runBit : Bool := true

/-- The state after pipe_init, with the program loaded and the registers as set by the
input commands of the shell. -/
def initialPipe (mem : Memory) (regs : Reg → Word) (hi lo : Word) : PipeState where
  regs := regs
  hi := hi
  lo := lo
  pc := 0x00400000
  mem := mem

/-- The instruction that pipe_stage_wb is about to retire. -/
def PipeState.retiring (s : PipeState) : Option Retired := s.wbOp.map retired

/-- The flag is fetch_stall in lab 1 and l1_fetch_waiting in lab 2: the fetch stage will not
add 4 to the program counter in this cycle. -/
def pipeStageWb (fetchWaiting : Bool) (s : PipeState) : PipeState :=
  match s.wbOp with
  | none => s
  | some op =>
    let s := { s with wbOp := none, regs := writeBack s.regs op }
    if isHalt op then
      { s with pc := if fetchWaiting then op.pc + 4 else op.pc, runBit := false }
    else s

/-- The end of pipe_stage_mem, when the access has hit or was not needed. -/
def finishMem (op : PipeOp) (s : PipeState) : PipeState :=
  { s with memOp := none, wbOp := some (memoryStep op s.mem).1, mem := (memoryStep op s.mem).2 }

def pipeRecover (flush : ℕ) (dest : Word) (s : PipeState) : PipeState :=
  if s.branchRecover then s
  else { s with branchRecover := true, branchFlush := flush, branchDest := dest }

/-- A source operand with its bypasses; `none` asks the stage to stall. -/
def readSource (s : PipeState) (src : Option Reg) (old : Word) : Option Word :=
  match src with
  | none => some old
  | some r =>
    if r = 0 then some 0
    else match s.memOp.filter (·.regDst = some r) with
      | some m => if m.regDstValueReady then some m.regDstValue else none
      | none => match s.wbOp.filter (·.regDst = some r) with
        | some w => some w.regDstValue
        | none => some (s.regs r)

/-- The end of pipe_stage_execute, after the switch. -/
def finishExecute (r : ExecuteResult) (s : PipeState) : PipeState :=
  let s := { s with hi := r.hi, lo := r.lo,
                    multiplierStall := r.multiplierStall.getD s.multiplierStall }
  let s := if r.op.branchTaken then pipeRecover 3 r.op.branchDest s else s
  { s with executeOp := none, memOp := some r.op }

/-- The early return of the execute switch while the multiplier is busy. -/
def awaitMultiplier (op : PipeOp) (s : PipeState) : PipeState :=
  { s with executeOp := some { op with regDstValueReady := true } }

/-- The part of pipe_stage_execute that runs once the op has both operands. -/
def executeReady (op : PipeOp) (s : PipeState) : PipeState :=
  if waitsForMultiplier op ∧ 0 < s.multiplierStall then awaitMultiplier op s
  else finishExecute (execute op s.hi s.lo) s

/-- The countdown at the start of pipe_stage_execute. -/
def tickMultiplier (s : PipeState) : PipeState :=
  { s with multiplierStall := s.multiplierStall - 1 }

def pipeStageExecute (s : PipeState) : PipeState :=
  let s := tickMultiplier s
  if s.memOp.isSome then s
  else match s.executeOp with
    | none => s
    | some op =>
      let value1 := readSource s op.regSrc1 op.regSrc1Value
      let value2 := readSource s op.regSrc2 op.regSrc2Value
      let op := { op with regSrc1Value := value1.getD op.regSrc1Value,
                          regSrc2Value := value2.getD op.regSrc2Value }
      if value1.isNone ∨ value2.isNone then { s with executeOp := some op }
      else executeReady op s

def pipeStageDecode (s : PipeState) : PipeState :=
  if s.executeOp.isSome then s
  else match s.decodeOp with
    | none => s
    | some op => { s with decodeOp := none, executeOp := some (decode op) }

/-- The end of pipe_stage_fetch, when the instruction cache has hit. -/
def finishFetch (s : PipeState) : PipeState :=
  { s with decodeOp := some { pc := s.pc, instruction := memRead32 s.mem s.pc },
           pc := s.pc + 4 }

/-- The branch recovery at the end of pipe_cycle. -/
def recoverBranch (s : PipeState) : PipeState :=
  if s.branchRecover then
    { s with
      pc := s.branchDest
      decodeOp := if 2 ≤ s.branchFlush then none else s.decodeOp
      executeOp := if 3 ≤ s.branchFlush then none else s.executeOp
      memOp := if 4 ≤ s.branchFlush then none else s.memOp
      wbOp := if 5 ≤ s.branchFlush then none else s.wbOp
      branchRecover := false
      branchDest := 0
      branchFlush := 0 }
  else s

end CaLabs.Pipeline
