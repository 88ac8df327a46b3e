import CaLabs.Mips.Memory

/-! Pipeline operations and the decode step shared by both labs. -/
namespace CaLabs.Mips

/-! Opcodes and sub-opcodes of mips.h. -/

abbrev opSpecial : ℕ := 0x00
abbrev subopSll : ℕ := 0x0
abbrev subopSrl : ℕ := 0x2
abbrev subopSra : ℕ := 0x3
abbrev subopSllv : ℕ := 0x4
abbrev subopSrlv : ℕ := 0x6
abbrev subopSrav : ℕ := 0x7
abbrev subopJr : ℕ := 0x8
abbrev subopJalr : ℕ := 0x9
abbrev subopSyscall : ℕ := 0xc
abbrev subopMult : ℕ := 0x18
abbrev subopMultu : ℕ := 0x19
abbrev subopDiv : ℕ := 0x1a
abbrev subopDivu : ℕ := 0x1b
abbrev subopAdd : ℕ := 0x20
abbrev subopAddu : ℕ := 0x21
abbrev subopSub : ℕ := 0x22
abbrev subopSubu : ℕ := 0x23
abbrev subopAnd : ℕ := 0x24
abbrev subopOr : ℕ := 0x25
abbrev subopXor : ℕ := 0x26
abbrev subopNor : ℕ := 0x27
abbrev subopSlt : ℕ := 0x2A
abbrev subopSltu : ℕ := 0x2B
abbrev subopMfhi : ℕ := 0x10
abbrev subopMthi : ℕ := 0x11
abbrev subopMflo : ℕ := 0x12
abbrev subopMtlo : ℕ := 0x13

abbrev opBrspec : ℕ := 0x01
abbrev bropBltz : ℕ := 0x00
abbrev bropBgez : ℕ := 0x1
abbrev bropBltzal : ℕ := 0x10
abbrev bropBgezal : ℕ := 0x11

abbrev opJ : ℕ := 0x02
abbrev opJal : ℕ := 0x03
abbrev opBeq : ℕ := 0x04
abbrev opBne : ℕ := 0x05
abbrev opBlez : ℕ := 0x06
abbrev opBgtz : ℕ := 0x07
abbrev opAddi : ℕ := 0x08
abbrev opAddiu : ℕ := 0x09
abbrev opSlti : ℕ := 0x0a
abbrev opSltiu : ℕ := 0x0b
abbrev opAndi : ℕ := 0x0c
abbrev opOri : ℕ := 0x0d
abbrev opXori : ℕ := 0x0e
abbrev opLui : ℕ := 0x0f
abbrev opLb : ℕ := 0x20
abbrev opLh : ℕ := 0x21
abbrev opLw : ℕ := 0x23
abbrev opLbu : ℕ := 0x24
abbrev opLhu : ℕ := 0x25
abbrev opSb : ℕ := 0x28
abbrev opSh : ℕ := 0x29
abbrev opSw : ℕ := 0x2b

/-- Index into the register file. -/
abbrev Reg := BitVec 5

/-- The fields of Pipe_Op that some stage reads or writes. The defaults are the state
after malloc, memset and the assignment of -1 to the three register numbers. -/
structure PipeOp where
  pc : Word
  instruction : Word
  opcode : ℕ := 0
  subop : ℕ := 0
  imm16 : Word := 0
  seImm16 : Word := 0
  shamt : ℕ := 0
  regSrc1 : Option Reg := none
  regSrc2 : Option Reg := none
  regSrc1Value : Word := 0
  regSrc2Value : Word := 0
  isMem : Bool := false
  memAddr : Word := 0
  memWrite : Bool := false
  memValue : Word := 0
  regDst : Option Reg := none
  regDstValue : Word := 0
  regDstValueReady : Bool := false
  isBranch : Bool := false
  branchDest : Word := 0
  branchCond : Bool := false
  branchTaken : Bool := false
  deriving DecidableEq, Repr

/-- The opcodes of the load and of the store cases of the three switches. -/
def isLoad (opcode : ℕ) : Prop :=
  opcode = opLw ∨ opcode = opLh ∨ opcode = opLhu ∨ opcode = opLb ∨ opcode = opLbu
def isStore (opcode : ℕ) : Prop := opcode = opSw ∨ opcode = opSh ∨ opcode = opSb

instance (opcode : ℕ) : Decidable (isLoad opcode) := inferInstanceAs (Decidable (_ ∨ _))
instance (opcode : ℕ) : Decidable (isStore opcode) := inferInstanceAs (Decidable (_ ∨ _))

/-- The body of pipe_stage_decode between taking the op and placing it downstream. -/
def decode (op : PipeOp) : PipeOp :=
  let opcode := ((op.instruction >>> 26) &&& 0x3F#32).toNat
  let rs : Reg := op.instruction.extractLsb' 21 5
  let rt : Reg := op.instruction.extractLsb' 16 5
  let rd : Reg := op.instruction.extractLsb' 11 5
  let shamt := ((op.instruction >>> 6) &&& 0x1F#32).toNat
  let funct2 := (op.instruction &&& 0x3F#32).toNat
  let imm16 := op.instruction &&& 0xFFFF#32
  let seImm16 := imm16 ||| (if imm16 &&& 0x8000#32 ≠ 0 then 0xFFFF8000#32 else 0)
  let targ := (op.instruction &&& 0x03FFFFFF#32) <<< 2
  let op := { op with opcode := opcode, imm16 := imm16, seImm16 := seImm16, shamt := shamt }
  if opcode = opSpecial then
    let op := { op with regSrc1 := some rs, regSrc2 := some rt, regDst := some rd,
                        subop := funct2 }
    let op := if funct2 = subopSyscall then
        { op with regSrc1 := some 2, regSrc2 := some 3 } else op
    if funct2 = subopJr ∨ funct2 = subopJalr then
      { op with isBranch := true, branchCond := false } else op
  else if opcode = opBrspec then
    let op := { op with isBranch := true, regSrc1 := some rs, regSrc2 := some rt,
                        branchCond := true, branchDest := op.pc + 4 + (seImm16 <<< 2),
                        subop := rt.toNat }
    if rt.toNat = bropBltzal ∨ rt.toNat = bropBgezal then
      { op with regDst := some 31, regDstValue := op.pc + 4, regDstValueReady := true } else op
  else if opcode = opJal ∨ opcode = opJ then
    let op := if opcode = opJal then
        { op with regDst := some 31, regDstValue := op.pc + 4, regDstValueReady := true,
                  branchTaken := true } else op
    { op with isBranch := true, branchCond := false, branchTaken := true,
              branchDest := (op.pc &&& 0xF0000000#32) ||| targ }
  else if opcode = opBeq ∨ opcode = opBne ∨ opcode = opBlez ∨ opcode = opBgtz then
    { op with isBranch := true, branchCond := true,
              branchDest := op.pc + 4 + (seImm16 <<< 2), regSrc1 := some rs, regSrc2 := some rt }
  else if opcode = opAddi ∨ opcode = opAddiu ∨ opcode = opSlti ∨ opcode = opSltiu then
    { op with regSrc1 := some rs, regDst := some rt }
  else if opcode = opAndi ∨ opcode = opOri ∨ opcode = opXori ∨ opcode = opLui then
    { op with regSrc1 := some rs, regDst := some rt }
  else if isLoad opcode ∨ isStore opcode then
    let op := { op with isMem := true, regSrc1 := some rs }
    if isLoad opcode then { op with memWrite := false, regDst := some rt }
    else { op with memWrite := true, regSrc2 := some rt }
  else op

end CaLabs.Mips
