import CaLabs.Mips.Op

/-! The switches of the execute and memory stages, and register write-back. -/
namespace CaLabs.Mips

/-- The op leaving the switch of pipe_stage_execute, with the new HI and LO. The last field
is the latency assigned to multiplier_stall, when the instruction assigns one. -/
structure ExecuteResult where
  op : PipeOp
  hi : Word
  lo : Word
  multiplierStall : Option ℕ

/-- The case OP_SPECIAL. C leaves a variable shift by 32 or more and the quotient of the
most negative number by -1 undefined; here the amount is taken modulo 32 and the quotient
wraps around. -/
def executeSpecial (op : PipeOp) (hi lo : Word) : ExecuteResult :=
  let op := { op with regDstValueReady := true }
  let a := op.regSrc1Value
  let b := op.regSrc2Value
  let result (value : Word) : ExecuteResult := ⟨{ op with regDstValue := value },hi,lo,none⟩
  let hilo (hi' lo' : Word) (latency : Option ℕ) : ExecuteResult := ⟨op,hi',lo',latency⟩
  if op.subop = subopSll then result (b <<< op.shamt)
  else if op.subop = subopSllv then result (b <<< (a.toNat % 32))
  else if op.subop = subopSrl then result (b >>> op.shamt)
  else if op.subop = subopSrlv then result (b >>> (a.toNat % 32))
  else if op.subop = subopSra then result (b.sshiftRight op.shamt)
  else if op.subop = subopSrav then result (b.sshiftRight (a.toNat % 32))
  else if op.subop = subopJr ∨ op.subop = subopJalr then
    ⟨{ op with regDstValue := op.pc + 4, branchDest := a, branchTaken := true },hi,lo,none⟩
  else if op.subop = subopMult then
    let val := a.signExtend 64 * b.signExtend 64
    hilo (val.extractLsb' 32 32) (val.extractLsb' 0 32) (some 4)
  else if op.subop = subopMultu then
    let val := a.setWidth 64 * b.setWidth 64
    hilo (val.extractLsb' 32 32) (val.extractLsb' 0 32) (some 4)
  else if op.subop = subopDiv then
    if b ≠ 0 then hilo (a.srem b) (a.sdiv b) (some 32) else hilo 0 0 (some 32)
  else if op.subop = subopDivu then
    if b ≠ 0 then hilo (a.umod b) (a.udiv b) (some 32) else hilo 0 0 (some 32)
  else if op.subop = subopMfhi then result hi
  else if op.subop = subopMthi then hilo a lo none
  else if op.subop = subopMflo then result lo
  else if op.subop = subopMtlo then hilo hi a none
  else if op.subop = subopAdd ∨ op.subop = subopAddu then result (a + b)
  else if op.subop = subopSub ∨ op.subop = subopSubu then result (a - b)
  else if op.subop = subopAnd then result (a &&& b)
  else if op.subop = subopOr then result (a ||| b)
  else if op.subop = subopNor then result (~~~(a ||| b))
  else if op.subop = subopXor then result (a ^^^ b)
  else if op.subop = subopSlt then result (if a.slt b then 1 else 0)
  else if op.subop = subopSltu then result (if a.ult b then 1 else 0)
  else ⟨op,hi,lo,none⟩

/-- Whether the op resolves to a taken conditional branch. -/
def branchCondition (op : PipeOp) : Bool :=
  let a := op.regSrc1Value
  let b := op.regSrc2Value
  if op.opcode = opBrspec then
    if op.subop = bropBltz ∨ op.subop = bropBltzal then a.slt 0
    else if op.subop = bropBgez ∨ op.subop = bropBgezal then !a.slt 0
    else false
  else if op.opcode = opBeq then a == b
  else if op.opcode = opBne then a != b
  else if op.opcode = opBlez then a.sle 0
  else if op.opcode = opBgtz then (0 : Word).slt a
  else false

/-- The switch of pipe_stage_execute. The stalls of MFHI, MTHI, MFLO and MTLO are in the
stage itself. -/
def execute (op : PipeOp) (hi lo : Word) : ExecuteResult :=
  let a := op.regSrc1Value
  let result (value : Word) : ExecuteResult :=
    ⟨{ op with regDstValueReady := true, regDstValue := value },hi,lo,none⟩
  if op.opcode = opSpecial then executeSpecial op hi lo
  else if op.opcode = opBrspec ∨ op.opcode = opBeq ∨ op.opcode = opBne ∨
      op.opcode = opBlez ∨ op.opcode = opBgtz then
    ⟨if branchCondition op then { op with branchTaken := true } else op,hi,lo,none⟩
  else if op.opcode = opAddi ∨ op.opcode = opAddiu then result (a + op.seImm16)
  else if op.opcode = opSlti then result (if a.slt op.seImm16 then 1 else 0)
  else if op.opcode = opSltiu then result (if a.ult op.seImm16 then 1 else 0)
  else if op.opcode = opAndi then result (a &&& op.imm16)
  else if op.opcode = opOri then result (a ||| op.imm16)
  else if op.opcode = opXori then result (a ^^^ op.imm16)
  else if op.opcode = opLui then result (op.imm16 <<< 16)
  else if isLoad op.opcode then ⟨{ op with memAddr := a + op.seImm16 },hi,lo,none⟩
  else if isStore op.opcode then
    ⟨{ op with memAddr := a + op.seImm16, memValue := op.regSrc2Value },hi,lo,none⟩
  else ⟨op,hi,lo,none⟩

/-- The ops whose case of the execute switch returns early while the multiplier is busy. -/
def waitsForMultiplier (op : PipeOp) : Bool :=
  op.opcode = opSpecial ∧ (op.subop = subopMfhi ∨ op.subop = subopMthi ∨
    op.subop = subopMflo ∨ op.subop = subopMtlo)

/-- The value a load extracts from the memory word. -/
def loadValue (opcode : ℕ) (memAddr val : Word) : Word :=
  if opcode = opLw then val
  else if opcode = opLh ∨ opcode = opLhu then
    let val := if memAddr &&& 2#32 ≠ 0 then (val >>> 16) &&& 0xFFFF#32 else val &&& 0xFFFF#32
    if opcode = opLh then val ||| (if val &&& 0x8000#32 ≠ 0 then 0xFFFF8000#32 else 0) else val
  else
    let val := match (memAddr &&& 3#32).toNat with
      | 0 => val &&& 0xFF#32
      | 1 => (val >>> 8) &&& 0xFF#32
      | 2 => (val >>> 16) &&& 0xFF#32
      | _ => (val >>> 24) &&& 0xFF#32
    if opcode = opLb then val ||| (if val &&& 0x80#32 ≠ 0 then 0xFFFFFF80#32 else 0) else val

/-- The word a store leaves in place of the old word `val`. -/
def storeValue (opcode : ℕ) (memAddr memValue val : Word) : Word :=
  if opcode = opSb then
    match (memAddr &&& 3#32).toNat with
    | 0 => (val &&& 0xFFFFFF00#32) ||| (memValue &&& 0xFF#32)
    | 1 => (val &&& 0xFFFF00FF#32) ||| ((memValue &&& 0xFF#32) <<< 8)
    | 2 => (val &&& 0xFF00FFFF#32) ||| ((memValue &&& 0xFF#32) <<< 16)
    | _ => (val &&& 0x00FFFFFF#32) ||| ((memValue &&& 0xFF#32) <<< 24)
  else if opcode = opSh then
    if memAddr &&& 2#32 ≠ 0 then (val &&& 0x0000FFFF#32) ||| (memValue <<< 16)
    else (val &&& 0xFFFF0000#32) ||| (memValue &&& 0xFFFF#32)
  else memValue

/-- The word at the address of a load or store. -/
def memWord (op : PipeOp) (m : Memory) : Word :=
  if op.isMem then memRead32 m (wordOf op.memAddr) else 0

/-- The switch of pipe_stage_mem, after the cache has answered with a hit. -/
def memoryStep (op : PipeOp) (m : Memory) : PipeOp × Memory :=
  if isLoad op.opcode then
    ({ op with regDstValueReady := true,
               regDstValue := loadValue op.opcode op.memAddr (memWord op m) },m)
  else if isStore op.opcode then
    (op,memWrite32 m (wordOf op.memAddr)
      (storeValue op.opcode op.memAddr op.memValue (memWord op m)))
  else (op,m)

/-- The register write of pipe_stage_wb. -/
def writeBack (regs : Reg → Word) (op : PipeOp) : Reg → Word :=
  match op.regDst with
  | some r => if r ≠ 0 then Function.update regs r op.regDstValue else regs
  | none => regs

/-- The syscall on which pipe_stage_wb clears RUN_BIT. -/
def isHalt (op : PipeOp) : Bool :=
  op.opcode = opSpecial ∧ op.subop = subopSyscall ∧ op.regSrc1Value = 0xA

/-- What can be seen of a retiring instruction: its address, its word, and the
register it writes with the value. -/
structure Retired where
  pc : Word
  instruction : Word
  dst : Option (Reg × Word)
  deriving DecidableEq, Repr

def retired (op : PipeOp) : Retired where
  pc := op.pc
  instruction := op.instruction
  dst := match op.regDst with
    | some r => if r ≠ 0 then some (r,op.regDstValue) else none
    | none => none

end CaLabs.Mips
