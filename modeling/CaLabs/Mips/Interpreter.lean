import CaLabs.Mips.Execute
import CaLabs.Lib.Runs

/-! The one-instruction-at-a-time interpreter: decode, execute, memory step and register
write of the simulators, applied in program order and without delay slots. -/
namespace CaLabs.Mips
open Lib

/-! Frame lemmas of the decode, execute and memory switches. -/

lemma decode_pc (op : PipeOp) : (decode op).pc = op.pc := by
  simp only [decode, apply_ite PipeOp.pc, ite_self]

lemma execute_pc (op : PipeOp) (hi lo : Word) : (execute op hi lo).op.pc = op.pc := by
  simp only [execute, executeSpecial, apply_ite ExecuteResult.op, apply_ite PipeOp.pc, ite_self]

lemma memoryStep_pc (op : PipeOp) (m : Memory) : (memoryStep op m).1.pc = op.pc := by
  simp only [memoryStep, apply_ite Prod.fst, apply_ite PipeOp.pc, ite_self]

/-- JR and JALR, whose target comes from a register. -/
def isJumpRegister (op : PipeOp) : Prop :=
  op.opcode = opSpecial ∧ (op.subop = subopJr ∨ op.subop = subopJalr)

/-- Only a jump register replaces the target computed by decode. -/
lemma execute_branchDest (op : PipeOp) (hi lo : Word) :
    (execute op hi lo).op.branchDest = op.branchDest ∨
      (isJumpRegister op ∧ (execute op hi lo).op.branchDest = op.regSrc1Value) := by
  simp only [execute, executeSpecial, apply_ite ExecuteResult.op, apply_ite PipeOp.branchDest,
    ite_self, isJumpRegister]
  split_ifs with ho _ _ _ _ _ _ hs
  all_goals first | exact .inl rfl | exact .inr ⟨⟨ho,hs⟩,rfl⟩

/-- The targets that decode computes are word aligned. -/
lemma decode_branchDest_aligned (op : PipeOp) (hpc : WordAligned op.pc)
    (hdest : WordAligned op.branchDest) : WordAligned (decode op).branchDest := by
  have hrel : ∀ w : Word, WordAligned (op.pc + 4 + w <<< 2) :=
    fun w => hpc.next.add (.shiftLeft_two w)
  have habs : ∀ w : Word, WordAligned (op.pc &&& 0xF0000000#32 ||| w <<< 2) :=
    fun w => .or (.and_right op.pc (by decide)) (.shiftLeft_two w)
  simp only [decode, apply_ite PipeOp.branchDest, apply_ite PipeOp.pc, ite_self]
  split_ifs
  all_goals first | exact hdest | exact hrel _ | exact habs _

/-- A memory step changes at most the word its op stores to. -/
lemma memRead32_memoryStep (op : PipeOp) (m : Memory) {b : Word} (hb : WordAligned b)
    (hne : isStore op.opcode → wordOf op.memAddr ≠ b) :
    memRead32 (memoryStep op m).2 b = memRead32 m b := by
  by_cases hl : isLoad op.opcode
  · rw [memoryStep, if_pos hl]
  · by_cases hs : isStore op.opcode
    · rw [memoryStep, if_neg hl, if_pos hs]
      exact memRead32_memWrite32_of_ne m _ (wordOf_aligned _) hb (hne hs)
    · rw [memoryStep, if_neg hl, if_neg hs]

/-- The architectural state: registers, HI, LO, the program counter and memory. -/
@[ext] structure Arch where
  regs : Reg → Word
  hi : Word
  lo : Word
  pc : Word
  mem : Memory

/-- A source operand read from the register file, register 0 being zero. -/
def operand (regs : Reg → Word) (src : Option Reg) (old : Word) : Word :=
  match src with
  | none => old
  | some r => if r = 0 then 0 else regs r

/-- The op with both operands read from the register file. -/
def withOperands (regs : Reg → Word) (op : PipeOp) : PipeOp :=
  { op with regSrc1Value := operand regs op.regSrc1 op.regSrc1Value,
            regSrc2Value := operand regs op.regSrc2 op.regSrc2Value }

namespace Arch

/-! The op of the instruction at the program counter, stage by stage. -/

def fetched (a : Arch) : PipeOp := { pc := a.pc, instruction := memRead32 a.mem a.pc }
def decoded (a : Arch) : PipeOp := decode a.fetched
def issued (a : Arch) : PipeOp := withOperands a.regs a.decoded
def executed (a : Arch) : ExecuteResult := execute a.issued a.hi a.lo
def completed (a : Arch) : PipeOp := (memoryStep a.executed.op a.mem).1

def taken (a : Arch) : Prop := a.executed.op.branchTaken = true
def halts (a : Arch) : Prop := isHalt a.completed = true

instance : DecidablePred halts := fun a => inferInstanceAs (Decidable (isHalt a.completed = true))

/-- The record that retires with the instruction. -/
def retires (a : Arch) : Retired := retired a.completed

/-- One instruction. -/
def next (a : Arch) : Arch where
  regs := writeBack a.regs a.completed
  hi := a.executed.hi
  lo := a.executed.lo
  pc := if a.executed.op.branchTaken then a.executed.op.branchDest else a.pc + 4
  mem := (memoryStep a.executed.op a.mem).2

/-- The state after k instructions, whether or not one of them halts. -/
def after (a : Arch) (k : ℕ) : Arch := next^[k] a

/-- The interpreter gets to the k-th instruction: none before it is the halting syscall. -/
def Executes (a : Arch) (k : ℕ) : Prop := Lib.Executes next halts a k

/-- The first n instructions the interpreter executes, up to the halting syscall. -/
def trace (n : ℕ) (a : Arch) : List Retired := specTrace next halts retires n a

/-- The word that the instruction stores to. -/
def storedWord (a : Arch) : Option Word :=
  if isStore a.executed.op.opcode then some (wordOf a.executed.op.memAddr) else none

/-- Every jump register that is executed has a word-aligned target. -/
def JumpTargetsAligned (a : Arch) : Prop :=
  ∀ k, a.Executes k → isJumpRegister (a.after k).issued →
    WordAligned (a.after k).issued.regSrc1Value

/-- No executed store writes a word that is fetched later as an instruction. -/
def NoSelfModification (a : Arch) : Prop :=
  ∀ i j, i < j → a.Executes j → (a.after i).storedWord ≠ some (a.after j).pc

/-- What the refinement assumes of the program from a state on. -/
structure WellBehaved (a : Arch) : Prop where
  pc_aligned : WordAligned a.pc
  jumps : a.JumpTargetsAligned
  code : a.NoSelfModification

lemma after_succ (a : Arch) (k : ℕ) : a.after (k+1) = a.next.after k := rfl

lemma completed_pc (a : Arch) : a.completed.pc = a.pc := by
  rw [completed, memoryStep_pc, executed, execute_pc]
  exact decode_pc a.fetched

lemma next_pc_of_not_taken {a : Arch} (h : ¬ a.taken) : a.next.pc = a.pc + 4 := if_neg h
lemma next_pc_of_taken {a : Arch} (h : a.taken) : a.next.pc = a.executed.op.branchDest := if_pos h

/-- The target of the instruction is aligned, taken or not. -/
lemma WellBehaved.branchDest_aligned {a : Arch} (h : a.WellBehaved) :
    WordAligned a.executed.op.branchDest := by
  have hd : WordAligned a.decoded.branchDest :=
    decode_branchDest_aligned a.fetched h.pc_aligned (show WordAligned 0 by decide)
  rcases execute_branchDest a.issued a.hi a.lo with he | ⟨hj,he⟩
  · rw [executed, he]
    exact hd
  · rw [executed, he]
    exact h.jumps 0 (.zero a) hj

lemma WellBehaved.next_pc_aligned {a : Arch} (h : a.WellBehaved) : WordAligned a.next.pc := by
  by_cases ht : a.taken
  · rw [next_pc_of_taken ht]
    exact h.branchDest_aligned
  · rw [next_pc_of_not_taken ht]
    exact h.pc_aligned.next

lemma WellBehaved.next {a : Arch} (h : a.WellBehaved) (hh : ¬ a.halts) :
    a.next.WellBehaved where
  pc_aligned := h.next_pc_aligned
  jumps := fun k hk => h.jumps (k+1) (Lib.Executes.tail hh hk)
  code := fun i j hij hj => h.code (i+1) (j+1) (by omega) (Lib.Executes.tail hh hj)

lemma WellBehaved.after {a : Arch} (h : a.WellBehaved) {k : ℕ} (hk : a.Executes k) :
    (a.after k).WellBehaved := by
  induction k generalizing a with
  | zero => exact h
  | succ k ih =>
    rw [after_succ]
    exact ih (h.next (hk 0 (by omega))) fun j hj => hk (j+1) (by omega)

lemma read_next {a : Arch} {b : Word} (hb : WordAligned b) (hne : a.storedWord ≠ some b) :
    memRead32 a.next.mem b = memRead32 a.mem b := by
  apply memRead32_memoryStep _ _ hb
  intro hs he
  exact hne (by rw [storedWord, if_pos hs, he])

/-- An instruction reads the same from memory when earlier instructions are still to store. -/
lemma WellBehaved.read_after {a : Arch} (h : a.WellBehaved) {k : ℕ} (hk : a.Executes k) :
    memRead32 a.mem (a.after k).pc = memRead32 (a.after k).mem (a.after k).pc := by
  induction k generalizing a with
  | zero => rfl
  | succ k ih =>
    have hh : ¬ a.halts := hk 0 (by omega)
    have ht : a.next.Executes k := fun j hj => hk (j+1) (by omega)
    have hpc : WordAligned (a.after (k+1)).pc := (h.after hk).pc_aligned
    calc memRead32 a.mem (a.after (k+1)).pc
        = memRead32 a.next.mem (a.after (k+1)).pc :=
          (read_next hpc (h.code 0 (k+1) (by omega) hk)).symm
      _ = memRead32 (a.after (k+1)).mem (a.after (k+1)).pc := ih (h.next hh) ht

/-- A program that halts with its n-th instruction satisfies the assumptions if it does up to
there. -/
lemma wellBehaved_of_halts {a : Arch} (n : ℕ) (hpc : WordAligned a.pc) (h : (a.after n).halts)
    (hjump : ∀ k ≤ n, isJumpRegister (a.after k).issued →
      WordAligned (a.after k).issued.regSrc1Value)
    (hcode : ∀ j ≤ n, ∀ i < j, (a.after i).storedWord ≠ some (a.after j).pc) : a.WellBehaved := by
  have hle : ∀ k, a.Executes k → k ≤ n := fun k hk => not_lt.mp fun hlt => hk n hlt h
  exact ⟨hpc,fun k hk => hjump k (hle k hk),fun i j hij hj => hcode j (hle j hj) i hij⟩

end Arch
end CaLabs.Mips
