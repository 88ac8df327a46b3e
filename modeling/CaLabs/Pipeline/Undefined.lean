import CaLabs.Pipeline.Elastic

/-! pipe_stage_execute with the operators of C, which leave some operands undefined. -/
namespace CaLabs.Pipeline
open Mips

/-! The operators on 32-bit operands; `none` is undefined behaviour. The right shift of a
negative int32_t is the arithmetic one. -/

def cShl (x : Word) (amount : ℕ) : Option Word :=
  if amount < 32 then some (x <<< amount) else none
def cShr (x : Word) (amount : ℕ) : Option Word :=
  if amount < 32 then some (x >>> amount) else none
def cSar (x : Word) (amount : ℕ) : Option Word :=
  if amount < 32 then some (x.sshiftRight amount) else none

/-- The quotient of two int32_t values exists and is an int32_t. -/
def QuotientFits (a b : Word) : Prop :=
  b ≠ 0 ∧ -2 ^ 31 ≤ a.toInt.tdiv b.toInt ∧ a.toInt.tdiv b.toInt < 2 ^ 31

instance (a b : Word) : Decidable (QuotientFits a b) := inferInstanceAs (Decidable (_ ∧ _))

def cDiv (a b : Word) : Option Word := if QuotientFits a b then some (a.sdiv b) else none

/-- The remainder is undefined whenever the quotient is. -/
def cMod (a b : Word) : Option Word := if QuotientFits a b then some (a.srem b) else none
def cDivu (a b : Word) : Option Word := if b ≠ 0 then some (a.udiv b) else none
def cModu (a b : Word) : Option Word := if b ≠ 0 then some (a.umod b) else none

/-- The case OP_SPECIAL. The subops left to `executeSpecial` neither shift nor divide. -/
def executeSpecialC (op : PipeOp) (hi lo : Word) : Option ExecuteResult :=
  let a := op.regSrc1Value
  let b := op.regSrc2Value
  let ready := { op with regDstValueReady := true }
  let result (value : Word) : ExecuteResult := ⟨{ ready with regDstValue := value },hi,lo,none⟩
  if op.subop = subopSll then (cShl b op.shamt).map result
  else if op.subop = subopSllv then (cShl b a.toNat).map result
  else if op.subop = subopSrl then (cShr b op.shamt).map result
  else if op.subop = subopSrlv then (cShr b a.toNat).map result
  else if op.subop = subopSra then (cSar b op.shamt).map result
  else if op.subop = subopSrav then (cSar b a.toNat).map result
  else if op.subop = subopDiv then
    if b ≠ 0 then do
      let div ← cDiv a b
      let mod ← cMod a b
      some ⟨ready,mod,div,some 32⟩
    else some ⟨ready,0,0,some 32⟩
  else if op.subop = subopDivu then
    if b ≠ 0 then do
      let mod ← cModu a b
      let div ← cDivu a b
      some ⟨ready,mod,div,some 32⟩
    else some ⟨ready,0,0,some 32⟩
  else some (executeSpecial op hi lo)

/-- The switch. Besides OP_SPECIAL only LUI shifts, by a constant. -/
def executeC (op : PipeOp) (hi lo : Word) : Option ExecuteResult :=
  if op.opcode = opSpecial then executeSpecialC op hi lo
  else if op.opcode = opLui then
    (cShl op.imm16 16).map fun value =>
      ⟨{ op with regDstValueReady := true, regDstValue := value },hi,lo,none⟩
  else some (execute op hi lo)

def executeReadyC (op : PipeOp) (s : PipeState) : Option PipeState :=
  if waitsForMultiplier op ∧ 0 < s.multiplierStall then some (awaitMultiplier op s)
  else (executeC op s.hi s.lo).map fun r => finishExecute r s

def pipeStageExecuteC (s : PipeState) : Option PipeState :=
  let s := tickMultiplier s
  if s.memOp.isSome then some s
  else match s.executeOp with
    | none => some s
    | some op =>
      let value1 := readSource s op.regSrc1 op.regSrc1Value
      let value2 := readSource s op.regSrc2 op.regSrc2Value
      let op := { op with regSrc1Value := value1.getD op.regSrc1Value,
                          regSrc2Value := value2.getD op.regSrc2Value }
      if value1.isNone ∨ value2.isNone then some { s with executeOp := some op }
      else executeReadyC op s

/-- SLLV, SRLV or SRAV with 32 or more in the shift register. -/
def LongShift (op : PipeOp) : Prop :=
  op.opcode = opSpecial ∧
    (op.subop = subopSllv ∨ op.subop = subopSrlv ∨ op.subop = subopSrav) ∧
    32 ≤ op.regSrc1Value.toNat

/-- DIV of the most negative number by minus one. -/
def OverflowingDiv (op : PipeOp) : Prop :=
  op.opcode = opSpecial ∧ op.subop = subopDiv ∧
    op.regSrc1Value = BitVec.intMin 32 ∧ op.regSrc2Value = -1#32

/-- The results of MIPS32: a variable shift takes its amount from the low five bits of its
register, and a division truncates. -/
structure Mips32Result (op : PipeOp) (s : PipeState) : Prop where
  sllv : op.opcode = opSpecial → op.subop = subopSllv →
    s.memOp.map (·.regDstValue.toNat) =
      some (op.regSrc2Value.toNat * 2 ^ (op.regSrc1Value.toNat % 32) % 2 ^ 32)
  srlv : op.opcode = opSpecial → op.subop = subopSrlv →
    s.memOp.map (·.regDstValue.toNat) =
      some (op.regSrc2Value.toNat / 2 ^ (op.regSrc1Value.toNat % 32))
  srav : op.opcode = opSpecial → op.subop = subopSrav →
    s.memOp.map (·.regDstValue.toInt) =
      some (op.regSrc2Value.toInt / 2 ^ (op.regSrc1Value.toNat % 32))
  div : op.opcode = opSpecial → op.subop = subopDiv → op.regSrc2Value ≠ 0 →
    s.lo = BitVec.ofInt 32 (op.regSrc1Value.toInt.tdiv op.regSrc2Value.toInt) ∧
      s.hi = BitVec.ofInt 32 (op.regSrc1Value.toInt.tmod op.regSrc2Value.toInt)

/-- The one quotient that does not fit. -/
lemma quotientFits_iff {a b : Word} (hb : b ≠ 0) :
    QuotientFits a b ↔ ¬(a = BitVec.intMin 32 ∧ b = -1#32) := by
  constructor
  · rintro ⟨-,-,hlt⟩ ⟨rfl,rfl⟩
    exact absurd hlt (by decide)
  · intro h
    have hne : a ≠ BitVec.intMin 32 ∨ b ≠ -1#32 := by
      by_cases ha : a = BitVec.intMin 32
      · exact .inr fun hb1 => h ⟨ha,hb1⟩
      · exact .inl ha
    rw [QuotientFits, ← BitVec.toInt_sdiv_of_ne_or_ne a b hne]
    have hle := BitVec.le_toInt (a.sdiv b)
    have hlt := BitVec.toInt_lt (x := a.sdiv b)
    exact ⟨hb,by simpa using hle,by simpa using hlt⟩

section Execute
variable {op : PipeOp} {hi lo : Word}

/-- Every case of the switch that shifts or divides agrees with the total one. -/
lemma executeSpecialC_eq (hshamt : op.shamt < 32)
    (hamount : op.subop = subopSllv ∨ op.subop = subopSrlv ∨ op.subop = subopSrav →
      op.regSrc1Value.toNat < 32)
    (hfits : op.subop = subopDiv → op.regSrc2Value ≠ 0 →
      QuotientFits op.regSrc1Value op.regSrc2Value) :
    executeSpecialC op hi lo = some (executeSpecial op hi lo) := by
  by_cases hsll : op.subop = subopSll
  · simp [executeSpecialC, executeSpecial, hsll, cShl, hshamt]
  by_cases hsllv : op.subop = subopSllv
  · have hlt := hamount (.inl hsllv)
    simp [executeSpecialC, executeSpecial, hsllv, cShl, hlt, Nat.mod_eq_of_lt hlt]
  by_cases hsrl : op.subop = subopSrl
  · simp [executeSpecialC, executeSpecial, hsrl, cShr, hshamt]
  by_cases hsrlv : op.subop = subopSrlv
  · have hlt := hamount (.inr (.inl hsrlv))
    simp [executeSpecialC, executeSpecial, hsrlv, cShr, hlt, Nat.mod_eq_of_lt hlt]
  by_cases hsra : op.subop = subopSra
  · simp [executeSpecialC, executeSpecial, hsra, cSar, hshamt]
  by_cases hsrav : op.subop = subopSrav
  · have hlt := hamount (.inr (.inr hsrav))
    simp [executeSpecialC, executeSpecial, hsrav, cSar, hlt, Nat.mod_eq_of_lt hlt]
  by_cases hdiv : op.subop = subopDiv
  · by_cases hb : op.regSrc2Value = 0#32
    · simp [executeSpecialC, executeSpecial, hdiv, hb]
    · simp [executeSpecialC, executeSpecial, hdiv, hb, cDiv, cMod, hfits hdiv hb]
  by_cases hdivu : op.subop = subopDivu
  · by_cases hb : op.regSrc2Value = 0#32
    · simp [executeSpecialC, executeSpecial, hdivu, hb]
    · simp [executeSpecialC, executeSpecial, hdivu, hb, cDivu, cModu]
  · simp only [executeSpecialC, if_neg hsll, if_neg hsllv, if_neg hsrl, if_neg hsrlv,
      if_neg hsra, if_neg hsrav, if_neg hdiv, if_neg hdivu]

/-- Where C defines the result it is the one of the total switch. -/
lemma executeC_eq (hshamt : op.shamt < 32) (hshift : ¬LongShift op)
    (hdiv : ¬OverflowingDiv op) : executeC op hi lo = some (execute op hi lo) := by
  by_cases ho : op.opcode = opSpecial
  · rw [executeC, if_pos ho, execute, if_pos ho]
    apply executeSpecialC_eq hshamt
    · intro hs
      by_contra hge
      exact hshift ⟨ho,hs,not_lt.mp hge⟩
    · intro hs hb
      exact (quotientFits_iff hb).mpr fun h => hdiv ⟨ho,hs,h⟩
  · rw [executeC, if_neg ho]
    by_cases hl : op.opcode = opLui
    · simp [execute, hl, cShl]
    · rw [if_neg hl]

lemma executeC_longShift (h : LongShift op) : executeC op hi lo = none := by
  obtain ⟨ho,hs,hge⟩ := h
  have hlt : ¬op.regSrc1Value.toNat < 32 := not_lt.mpr hge
  rw [executeC, if_pos ho]
  rcases hs with hs | hs | hs
  · simp [executeSpecialC, hs, cShl, hlt]
  · simp [executeSpecialC, hs, cShr, hlt]
  · simp [executeSpecialC, hs, cSar, hlt]

lemma executeC_overflowingDiv (h : OverflowingDiv op) : executeC op hi lo = none := by
  obtain ⟨ho,hs,ha,hb⟩ := h
  have hnonzero : op.regSrc2Value ≠ 0#32 := by
    rw [hb]
    decide
  have hfits : ¬QuotientFits op.regSrc1Value op.regSrc2Value := fun hq =>
    (quotientFits_iff hnonzero).mp hq ⟨ha,hb⟩
  rw [executeC, if_pos ho]
  simp [executeSpecialC, hs, hnonzero, cDiv, hfits]

/-- The ops that use the switch for a shift or a division do not wait for the multiplier. -/
lemma not_waitsForMultiplier
    (hs : op.subop = subopSllv ∨ op.subop = subopSrlv ∨ op.subop = subopSrav ∨
      op.subop = subopDiv) : ¬waitsForMultiplier op = true := by
  rcases hs with hs | hs | hs | hs <;> simp [waitsForMultiplier, hs]

/-- The total switch computes what MIPS32 does, whatever the operands. -/
lemma mips32Result_executeReady (op : PipeOp) (s : PipeState) :
    Mips32Result op (executeReady op s) := by
  have hgo : (op.subop = subopSllv ∨ op.subop = subopSrlv ∨ op.subop = subopSrav ∨
      op.subop = subopDiv) → executeReady op s = finishExecute (execute op s.hi s.lo) s :=
    fun hs => if_neg fun h => not_waitsForMultiplier hs h.1
  have hmem : ∀ r, (finishExecute r s).memOp = some r.op := fun r => rfl
  refine ⟨fun ho hs => ?_,fun ho hs => ?_,fun ho hs => ?_,fun ho hs hb => ?_⟩
  · rw [hgo (.inl hs), hmem, execute, if_pos ho]
    simp [executeSpecial, hs, Nat.shiftLeft_eq]
  · rw [hgo (.inr (.inl hs)), hmem, execute, if_pos ho]
    simp [executeSpecial, hs, Nat.shiftRight_eq_div_pow]
  · rw [hgo (.inr (.inr (.inl hs))), hmem, execute, if_pos ho]
    simp [executeSpecial, hs, BitVec.toInt_sshiftRight, Int.shiftRight_eq_div_pow]
  · have hr : execute op s.hi s.lo = ⟨{ op with regDstValueReady := true },
        op.regSrc1Value.srem op.regSrc2Value,op.regSrc1Value.sdiv op.regSrc2Value,some 32⟩ := by
      have hnonzero : op.regSrc2Value ≠ 0#32 := hb
      rw [execute, if_pos ho]
      simp [executeSpecial, hs, hnonzero]
    have hhilo : ∀ r, (finishExecute r s).lo = r.lo ∧ (finishExecute r s).hi = r.hi := fun r => by
      simp only [finishExecute, pipeRecover]
      split_ifs <;> exact ⟨rfl,rfl⟩
    rw [hgo (.inr (.inr (.inr hs))), hr, (hhilo _).1, (hhilo _).2]
    constructor
    · rw [← BitVec.toInt_inj, BitVec.toInt_sdiv, BitVec.toInt_ofInt]
    · rw [← BitVec.toInt_inj, BitVec.toInt_ofInt, ← BitVec.toInt_srem, BitVec.toInt_bmod_cancel]

end Execute

/-- The stage with an empty memory slot: the op has both its operands. -/
lemma pipeStageExecuteC_ready {s : PipeState} {op : PipeOp} (hm : s.memOp = none)
    (he : s.executeOp = some op) :
    pipeStageExecuteC s = executeReadyC (withOperands s.bypassed op) (tickMultiplier s) := by
  have hm' : (tickMultiplier s).memOp = none := hm
  have he' : (tickMultiplier s).executeOp = some op := he
  simp only [pipeStageExecuteC, hm', he', readSource_eq hm', bypassed_tickMultiplier,
    Option.isSome_none, Option.isNone_some, Option.getD_some, Bool.false_eq_true, or_self,
    if_false]
  rfl

lemma decode_shamt_lt (op : PipeOp) : (decode op).shamt < 32 := by
  have hand : ((op.instruction >>> 6) &&& 0x1F#32).toNat < 32 := by
    rw [BitVec.toNat_and]
    exact Nat.lt_of_le_of_lt Nat.and_le_right (by decide)
  simp only [decode, apply_ite PipeOp.shamt, ite_self]
  exact hand

/-- The stage stays within defined C, with the results of MIPS32, unless the decoded op is a
variable shift by 32 or more or the one division that overflows. -/
theorem pipeStageExecuteC_defined_iff (s : PipeState) (fetched : PipeOp) :
    (∃ s', pipeStageExecuteC { s with executeOp := some (decode fetched) } = some s' ∧
      s' = pipeStageExecute { s with executeOp := some (decode fetched) } ∧
      (s.memOp = none → Mips32Result (withOperands s.bypassed (decode fetched)) s')) ↔
    (s.memOp = none → ¬LongShift (withOperands s.bypassed (decode fetched)) ∧
      ¬OverflowingDiv (withOperands s.bypassed (decode fetched))) := by
  set s₀ : PipeState := { s with executeOp := some (decode fetched) }
  by_cases hm : s.memOp = none
  · have hready := pipeStageExecute_ready (s := s₀) hm rfl
    have hreadyC := pipeStageExecuteC_ready (s := s₀) hm rfl
    rw [show s₀.bypassed = s.bypassed from rfl] at hready hreadyC
    set op := withOperands s.bypassed (decode fetched)
    have hshamt : op.shamt < 32 := decode_shamt_lt fetched
    rw [hready, hreadyC]
    constructor
    · rintro ⟨s',hs',-,-⟩ -
      have hnone : ∀ hs : op.subop = subopSllv ∨ op.subop = subopSrlv ∨ op.subop = subopSrav ∨
          op.subop = subopDiv, executeC op (tickMultiplier s₀).hi (tickMultiplier s₀).lo ≠ none :=
        fun hs he => by
          rw [executeReadyC, if_neg fun h => not_waitsForMultiplier hs h.1, he] at hs'
          cases hs'
      constructor
      · intro h
        obtain ⟨-,hs,-⟩ := id h
        exact hnone (by tauto) (executeC_longShift h)
      · intro h
        exact hnone (.inr (.inr (.inr h.2.1))) (executeC_overflowingDiv h)
    · intro h
      obtain ⟨hshift,hdiv⟩ := h hm
      refine ⟨_,?_,rfl,fun _ => mips32Result_executeReady op _⟩
      rw [executeReadyC, executeReady, executeC_eq hshamt hshift hdiv]
      split_ifs <;> rfl
  · have hsome : (tickMultiplier s₀).memOp.isSome = true := Option.isSome_iff_ne_none.mpr hm
    refine iff_of_true ⟨tickMultiplier s₀,?_,?_,fun h => absurd h hm⟩ fun h => absurd h hm
    · simp only [pipeStageExecuteC, hsome, if_true]
    · simp only [pipeStageExecute, hsome, if_true]

/-- SLLV by a register that holds 32, and DIV of the most negative number by minus one. -/
theorem pipeStageExecuteC_undefined :
    (∃ (s : PipeState) (fetched : PipeOp), fetched.instruction = 0x00221804 ∧ s.memOp = none ∧
      s.regs 1 = 32 ∧
      pipeStageExecuteC { s with executeOp := some (decode fetched) } = none) ∧
    ∃ (s : PipeState) (fetched : PipeOp), fetched.instruction = 0x0022001A ∧ s.memOp = none ∧
      s.regs 1 = BitVec.intMin 32 ∧ s.regs 2 = -1#32 ∧
      pipeStageExecuteC { s with executeOp := some (decode fetched) } = none :=
  ⟨⟨initialPipe (fun _ _ => 0) (fun _ => 32) 0 0,
      { pc := 0x00400000, instruction := 0x00221804 },rfl,rfl,rfl,rfl⟩,
    initialPipe (fun _ _ => 0) (fun r => if r = 1 then BitVec.intMin 32 else -1#32) 0 0,
    { pc := 0x00400000, instruction := 0x0022001A },rfl,rfl,rfl,rfl,rfl⟩

end CaLabs.Pipeline
