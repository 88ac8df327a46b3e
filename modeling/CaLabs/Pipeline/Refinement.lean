import CaLabs.Pipeline.Elastic

/-! The pipeline invariant: what the slots hold when the instructions up to some point of
the interpreter have retired, and that every elastic cycle keeps it. -/
namespace CaLabs.Pipeline
open Mips

/-- An op whose source values and ready flag may have been filled in already. -/
def SameIssue (op d : PipeOp) : Prop :=
  ∃ value1 value2 ready,
    op = { d with regSrc1Value := value1, regSrc2Value := value2, regDstValueReady := ready } ∧
    (d.regSrc1 = none → value1 = d.regSrc1Value) ∧
    (d.regSrc2 = none → value2 = d.regSrc2Value) ∧
    (d.opcode ≠ opSpecial → ready = d.regDstValueReady)

namespace SameIssue

lemma refl (d : PipeOp) : SameIssue d d :=
  ⟨d.regSrc1Value,d.regSrc2Value,d.regDstValueReady,rfl,fun _ => rfl,fun _ => rfl,fun _ => rfl⟩

/-- Operands read later are those of the decoded op. -/
lemma operands {op d : PipeOp} (h : SameIssue op d) (regs : Reg → Word) :
    ∃ ready, withOperands regs op = { withOperands regs d with regDstValueReady := ready } ∧
      (d.opcode ≠ opSpecial → ready = d.regDstValueReady) := by
  obtain ⟨v1,v2,ready,rfl,h1,h2,hr⟩ := h
  refine ⟨ready,?_,hr⟩
  have e1 : operand regs d.regSrc1 v1 = operand regs d.regSrc1 d.regSrc1Value := by
    cases hs : d.regSrc1 with
    | none => rw [h1 hs]
    | some r => rfl
  have e2 : operand regs d.regSrc2 v2 = operand regs d.regSrc2 d.regSrc2Value := by
    cases hs : d.regSrc2 with
    | none => rw [h2 hs]
    | some r => rfl
  simp only [withOperands, e1, e2]

/-- The execute switch does not see the difference. -/
theorem execute_eq {op d : PipeOp} (h : SameIssue op d) (regs : Reg → Word) (hi lo : Word) :
    execute (withOperands regs op) hi lo = execute (withOperands regs d) hi lo := by
  obtain ⟨ready,he,hr⟩ := h.operands regs
  rw [he]
  by_cases hs : d.opcode = opSpecial
  · have hd : (withOperands regs d).opcode = opSpecial := hs
    have hd' : ({ withOperands regs d with regDstValueReady := ready } : PipeOp).opcode =
        opSpecial := hs
    rw [execute, if_pos hd', execute, if_pos hd]
    rfl
  · rw [hr hs]
    rfl

/-- Waiting for the multiplier keeps the op issuable. -/
lemma await {op d : PipeOp} (h : SameIssue op d) (hs : op.opcode = opSpecial)
    (regs : Reg → Word) :
    SameIssue { withOperands regs op with regDstValueReady := true } d := by
  obtain ⟨v1,v2,ready,rfl,h1,h2,-⟩ := h
  refine ⟨operand regs d.regSrc1 v1,operand regs d.regSrc2 v2,true,rfl,?_,?_,?_⟩
  · intro hn
    rw [hn]
    exact h1 hn
  · intro hn
    rw [hn]
    exact h2 hn
  · intro hne
    exact absurd hs hne

end SameIssue

/-- The decode slot and the program counter, when a is the next instruction to be decoded. -/
def DecodeInv (s : PipeState) (a : Arch) : Prop :=
  match s.decodeOp with
  | none => s.pc = a.pc
  | some op => op = a.fetched ∧ s.pc = a.pc + 4

/-- The slots before the memory stage, when a is the next instruction to be executed. -/
def FrontInv (s : PipeState) (a : Arch) : Prop :=
  if s.branchRecover then s.branchDest = a.pc
  else match s.executeOp with
    | none => DecodeInv s a
    | some op => SameIssue op a.decoded ∧ (¬ a.halts → ¬ a.taken → DecodeInv s a.next)

def HiLo (s : PipeState) (a : Arch) : Prop := s.hi = a.hi ∧ s.lo = a.lo

/-- The slots before write-back, when a is the next instruction to leave the memory stage. -/
structure MemInv (s : PipeState) (a : Arch) : Prop where
  mem : s.mem = a.mem
  pc_aligned : WordAligned s.pc
  dest_aligned : s.branchRecover = true → WordAligned s.branchDest
  empty : s.memOp = none → HiLo s a ∧ FrontInv s a
  full : ∀ op, s.memOp = some op →
    op = a.executed.op ∧ HiLo s a.next ∧ (¬ a.halts → FrontInv s a.next)

/-- The whole pipeline, when a is the next instruction to retire. -/
structure Inv (s : PipeState) (a : Arch) : Prop where
  regs : s.regs = a.regs
  flush : s.branchRecover = true → s.branchFlush = 3
  empty : s.wbOp = none → MemInv s a
  full : ∀ op, s.wbOp = some op →
    op = a.completed ∧ s.mem = a.next.mem ∧ (s.memOp = none → HiLo s a.next) ∧
      (¬ a.halts → MemInv s a.next)

section Front
variable {s : PipeState} {a : Arch}

lemma FrontInv.decode (h : FrontInv s a) : FrontInv (pipeStageDecode s) a := by
  by_cases he : s.executeOp = none
  · by_cases hd : s.decodeOp = none
    · simpa only [pipeStageDecode, he, hd, Option.isSome_none, Bool.false_eq_true, if_false]
        using h
    · obtain ⟨op,hop⟩ := Option.ne_none_iff_exists'.mp hd
      simp only [pipeStageDecode, he, hop, Option.isSome_none, Bool.false_eq_true, if_false]
      by_cases hb : s.branchRecover = true
      · simpa only [FrontInv, hb, if_true] using h
      · simp only [FrontInv, hb, he, DecodeInv, hop] at h ⊢
        obtain ⟨rfl,hpc⟩ := h
        refine ⟨.refl _,fun _ ht => ?_⟩
        rw [hpc, Arch.next_pc_of_not_taken ht]
  · simpa only [pipeStageDecode, Option.isSome_iff_ne_none.mpr he, if_true] using h

/-- Fetching reads the next instruction from a memory that older stores may still change. -/
lemma DecodeInv.fetch (h : DecodeInv s a) (hd : s.decodeOp = none)
    (hread : memRead32 s.mem a.pc = memRead32 a.mem a.pc) : DecodeInv (finishFetch s) a := by
  have hpc : s.pc = a.pc := by simpa only [DecodeInv, hd] using h
  simp only [DecodeInv, finishFetch, Arch.fetched, hpc, hread, and_self]

lemma FrontInv.fetch (go : Bool) (h : FrontInv s a)
    (hread : memRead32 s.mem a.pc = memRead32 a.mem a.pc)
    (hread' : ¬ a.halts → memRead32 s.mem a.next.pc = memRead32 a.next.mem a.next.pc) :
    FrontInv (elasticFetch go s) a := by
  unfold elasticFetch
  split_ifs with hgo
  · obtain ⟨-,hd⟩ := hgo
    unfold FrontInv at h ⊢
    by_cases hb : s.branchRecover = true
    · have hb' : (finishFetch s).branchRecover = true := hb
      rw [if_pos hb] at h
      rwa [if_pos hb']
    · have hb' : ¬ (finishFetch s).branchRecover = true := hb
      rw [if_neg hb] at h
      rw [if_neg hb', show (finishFetch s).executeOp = s.executeOp from rfl]
      cases he : s.executeOp with
      | none =>
        simp only [he] at h
        exact h.fetch hd hread
      | some op =>
        simp only [he] at h
        exact ⟨h.1,fun hh ht => (h.2 hh ht).fetch hd (hread' hh)⟩
  · exact h

/-- After the flush of the two youngest slots the fetch stage is at the branch target. -/
lemma FrontInv.recover (h : FrontInv s a) (hflush : s.branchRecover = true → s.branchFlush = 3) :
    FrontInv (recoverBranch s) a := by
  by_cases hb : s.branchRecover = true
  · simp only [FrontInv, hb, if_true] at h
    simp only [recoverBranch, hb, if_true, hflush hb, FrontInv, DecodeInv, h]
    simp
  · rw [recoverBranch, if_neg hb]
    exact h

end Front

/-- A stage before write-back that keeps the memory invariant keeps the whole one. -/
lemma Inv.map {s s' : PipeState} {a : Arch} (h : Inv s a) (ha : a.WellBehaved)
    (hs : Framed s s') (hflush : s'.branchRecover = true → s'.branchFlush = 3)
    (hmap : ∀ c : Arch, c.WellBehaved → s.bypassed = c.regs → MemInv s c → MemInv s' c) :
    Inv s' a where
  regs := hs.regs.trans h.regs
  flush := hflush
  empty hn := by
    have hn' : s.wbOp = none := hs.wbOp ▸ hn
    refine hmap a ha ?_ (h.empty hn')
    simp only [PipeState.bypassed, hn', h.regs]
  full op hop := by
    have hop' : s.wbOp = some op := hs.wbOp ▸ hop
    obtain ⟨rfl,hm,hl,hi⟩ := h.full op hop'
    refine ⟨rfl,hs.mem.trans hm,?_,fun hh => hmap a.next (ha.next hh) ?_ (hi hh)⟩
    · intro hn
      obtain ⟨hn',hhi,hlo⟩ := hs.hilo hn
      exact ⟨hhi.trans (hl hn').1,hlo.trans (hl hn').2⟩
    · simp only [PipeState.bypassed, hop', h.regs]
      rfl

/-- A change of the slots before the memory stage that keeps their invariant. -/
lemma MemInv.map {s s' : PipeState} {a : Arch} (h : MemInv s a) (hmem : s'.mem = s.mem)
    (hop : s'.memOp = s.memOp) (hhi : s'.hi = s.hi) (hlo : s'.lo = s.lo)
    (hpc : WordAligned s'.pc) (hdest : s'.branchRecover = true → WordAligned s'.branchDest)
    (hmap : ∀ k, a.Executes k → FrontInv s (a.after k) → FrontInv s' (a.after k)) :
    MemInv s' a where
  mem := hmem.trans h.mem
  pc_aligned := hpc
  dest_aligned := hdest
  empty hn := by
    obtain ⟨hl,hf⟩ := h.empty (hop ▸ hn)
    exact ⟨⟨hhi.trans hl.1,hlo.trans hl.2⟩,hmap 0 (.zero a) hf⟩
  full op ho := by
    obtain ⟨he,hl,hf⟩ := h.full op (hop ▸ ho)
    exact ⟨he,⟨hhi.trans hl.1,hlo.trans hl.2⟩,
      fun hh => hmap 1 (Lib.Executes.tail hh (.zero _)) (hf hh)⟩

/-! One lemma a stage, in the order in which pipe_cycle runs them. -/

section Stages
variable {s : PipeState} {a : Arch}

lemma pipeStageWb_none (waiting : Bool) (h : s.wbOp = none) : pipeStageWb waiting s = s := by
  simp only [pipeStageWb, h]

/-- Retiring an instruction other than the halting syscall. -/
lemma Inv.wb (waiting : Bool) (h : Inv s a) {op : PipeOp} (hop : s.wbOp = some op)
    (hh : ¬ a.halts) : Inv (pipeStageWb waiting s) a.next ∧
      (pipeStageWb waiting s).wbOp = none ∧
      (pipeStageWb waiting s).branchRecover = s.branchRecover ∧
      (pipeStageWb waiting s).runBit = s.runBit := by
  obtain ⟨rfl,-,-,hi⟩ := h.full op hop
  have hnot : ¬ isHalt a.completed = true := hh
  have hs : pipeStageWb waiting s =
      { s with wbOp := none, regs := writeBack s.regs a.completed } := by
    simp only [pipeStageWb, hop, if_neg hnot]
  have hm := hi hh
  rw [hs]
  refine ⟨⟨?_,h.flush,fun _ => ⟨hm.mem,hm.pc_aligned,hm.dest_aligned,hm.empty,hm.full⟩,?_⟩,
    rfl,rfl,rfl⟩
  · rw [h.regs]
    rfl
  · intro op' hop'
    cases hop'

/-- The memory stage moves its op to the empty write-back slot. -/
lemma Inv.mem (go : Bool) (h : Inv s a) (hw : s.wbOp = none) : Inv (elasticMem go s) a := by
  have hi := h.empty hw
  cases hop : s.memOp with
  | none => rwa [elasticMem_none go hop]
  | some op =>
    rw [elasticMem_some go hop]
    split_ifs
    · obtain ⟨rfl,hl,hf⟩ := hi.full op hop
      have hmem : (memoryStep a.executed.op s.mem).2 = a.next.mem := by rw [hi.mem]; rfl
      refine ⟨h.regs,h.flush,fun hn => (by cases hn),?_⟩
      intro op' hop'
      have he : op' = a.completed := by
        rw [← Option.some.inj hop', hi.mem]
        rfl
      refine ⟨he,hmem,fun _ => hl,fun hh => ⟨hmem,hi.pc_aligned,hi.dest_aligned,?_,?_⟩⟩
      · exact fun _ => ⟨hl,hf hh⟩
      · exact fun op'' hop'' => by cases hop''
    · exact h

lemma SameIssue.executed {op : PipeOp} (h : SameIssue op a.decoded) (hb : s.bypassed = a.regs)
    (hl : HiLo s a) : execute (withOperands s.bypassed op) s.hi s.lo = a.executed := by
  rw [h.execute_eq, hb, hl.1, hl.2]
  rfl

/-- The op leaves the execute stage; a taken branch schedules the recovery. -/
lemma MemInv.finishExecute (h : MemInv s a) (ha : a.WellBehaved) (hs : s.branchRecover = false)
    (hd : ¬ a.halts → ¬ a.taken → DecodeInv s a.next) :
    MemInv (finishExecute a.executed s) a := by
  by_cases ht : a.taken
  · rw [finishExecute_taken hs ht]
    refine ⟨h.mem,h.pc_aligned,fun _ => ha.branchDest_aligned,fun hn => (by cases hn),?_⟩
    intro op hop
    refine ⟨(Option.some.inj hop).symm,⟨rfl,rfl⟩,fun _ => ?_⟩
    exact (Arch.next_pc_of_taken ht).symm
  · rw [finishExecute_not_taken ht]
    refine ⟨h.mem,h.pc_aligned,h.dest_aligned,fun hn => (by cases hn),?_⟩
    intro op hop
    refine ⟨(Option.some.inj hop).symm,⟨rfl,rfl⟩,fun hh => ?_⟩
    simp only [FrontInv, hs, Bool.false_eq_true, if_false]
    exact hd hh ht

lemma MemInv.tick (h : MemInv s a) : MemInv (tickMultiplier s) a :=
  ⟨h.mem,h.pc_aligned,h.dest_aligned,h.empty,h.full⟩

lemma MemInv.execute (h : MemInv s a) (ha : a.WellBehaved) (hb : s.bypassed = a.regs)
    (hs : s.branchRecover = false) : MemInv (pipeStageExecute s) a := by
  rcases pipeStageExecute_cases s with ⟨-,he⟩ | ⟨op,hm,hop,hspecial,he⟩ | ⟨op,hm,hop,he⟩
  · rw [he]
    exact h.tick
  · obtain ⟨hl,hf⟩ := h.empty hm
    simp only [FrontInv, hs, Bool.false_eq_true, if_false, hop] at hf
    rw [he]
    refine ⟨h.mem,h.pc_aligned,h.dest_aligned,fun _ => ⟨hl,?_⟩,fun op' hop' => ?_⟩
    · simp only [FrontInv, awaitMultiplier, tickMultiplier, hs, Bool.false_eq_true, if_false]
      exact ⟨hf.1.await hspecial _,hf.2⟩
    · rw [show (awaitMultiplier _ (tickMultiplier s)).memOp = s.memOp from rfl, hm] at hop'
      cases hop'
  · obtain ⟨hl,hf⟩ := h.empty hm
    simp only [FrontInv, hs, Bool.false_eq_true, if_false, hop] at hf
    rw [he, hf.1.executed hb hl]
    exact h.tick.finishExecute ha hs hf.2

lemma pipeStageExecute_flush (hs : s.branchRecover = false)
    (h : (pipeStageExecute s).branchRecover = true) : (pipeStageExecute s).branchFlush = 3 := by
  rcases pipeStageExecute_cases s with ⟨-,he⟩ | ⟨op,-,-,-,he⟩ | ⟨op,-,-,he⟩
  · rw [he] at h
    exact absurd (h.symm.trans hs) (by decide)
  · rw [he] at h
    exact absurd (h.symm.trans hs) (by decide)
  · have hs' : (tickMultiplier s).branchRecover = false := hs
    by_cases ht : (execute (withOperands s.bypassed op) s.hi s.lo).op.branchTaken = true
    · rw [he, finishExecute_taken hs' ht]
    · rw [he, finishExecute_not_taken ht] at h
      exact absurd (h.symm.trans hs) (by decide)

lemma Inv.execute (h : Inv s a) (ha : a.WellBehaved) (hs : s.branchRecover = false) :
    Inv (pipeStageExecute s) a :=
  h.map ha (pipeStageExecute_framed s) (pipeStageExecute_flush hs)
    fun _ hc hb hi => hi.execute hc hb hs

lemma pipeStageDecode_later : (pipeStageDecode s).memOp = s.memOp ∧
    (pipeStageDecode s).hi = s.hi ∧ (pipeStageDecode s).lo = s.lo ∧
    (pipeStageDecode s).branchRecover = s.branchRecover ∧
    (pipeStageDecode s).branchFlush = s.branchFlush ∧
    (pipeStageDecode s).branchDest = s.branchDest := by
  unfold pipeStageDecode
  split_ifs
  · exact ⟨rfl,rfl,rfl,rfl,rfl,rfl⟩
  · cases s.decodeOp <;> exact ⟨rfl,rfl,rfl,rfl,rfl,rfl⟩

lemma Inv.decode (h : Inv s a) (ha : a.WellBehaved) : Inv (pipeStageDecode s) a := by
  obtain ⟨hm,hhi,hlo,hr,hfl,hdest⟩ := pipeStageDecode_later (s := s)
  refine h.map ha (pipeStageDecode_framed s) (by rw [hr, hfl]; exact h.flush) ?_
  intro c _ _ hi
  refine hi.map (pipeStageDecode_framed s).mem hm hhi hlo ?_ ?_ fun _ _ hf => hf.decode
  · rw [pipeStageDecode_pc]
    exact hi.pc_aligned
  · rw [hr, hdest]
    exact hi.dest_aligned

lemma MemInv.fetch (go : Bool) (h : MemInv s a) (ha : a.WellBehaved) :
    MemInv (elasticFetch go s) a := by
  have hread : ∀ k, a.Executes k →
      memRead32 s.mem (a.after k).pc = memRead32 (a.after k).mem (a.after k).pc := by
    intro k hk
    rw [h.mem]
    exact ha.read_after hk
  have hmap : ∀ k, a.Executes k → FrontInv s (a.after k) →
      FrontInv (elasticFetch go s) (a.after k) := by
    intro k hk hf
    refine hf.fetch go (hread k hk) fun hh => ?_
    have hnext : (a.after k).next = a.after (k+1) := (Function.iterate_succ_apply' _ _ _).symm
    rw [hnext]
    exact hread (k+1) (Lib.Executes.succ hk hh)
  by_cases hgo : go ∧ s.decodeOp = none
  · have he : elasticFetch go s = finishFetch s := if_pos hgo
    rw [he] at hmap ⊢
    exact h.map rfl rfl rfl rfl h.pc_aligned.next h.dest_aligned hmap
  · rwa [elasticFetch, if_neg hgo]

lemma Inv.fetch (go : Bool) (h : Inv s a) (ha : a.WellBehaved) : Inv (elasticFetch go s) a := by
  refine h.map ha (elasticFetch_framed go s) ?_ fun c hc _ hi => hi.fetch go hc
  unfold elasticFetch
  split_ifs <;> exact h.flush

lemma Inv.recover (h : Inv s a) (ha : a.WellBehaved) : Inv (recoverBranch s) a := by
  by_cases hb : s.branchRecover = true
  · have hr := recoverBranch_branchRecover s
    refine h.map ha (recoverBranch_framed h.flush)
      (fun hn => absurd (hn.symm.trans hr) (by decide)) ?_
    intro c _ _ hi
    refine hi.map (recoverBranch_framed h.flush).mem ?_ ?_ ?_ ?_
      (fun hn => absurd (hn.symm.trans hr) (by decide)) fun _ _ hf => hf.recover h.flush
    all_goals simp only [recoverBranch, hb, if_true, h.flush hb]
    · rfl
    · exact hi.dest_aligned hb
  · rwa [recoverBranch, if_neg hb]

end Stages

/-- The pipeline when it has just halted: a is the interpreter's state after the halting
syscall. A younger instruction may already have left the memory or the execute stage. -/
structure Halted (s : PipeState) (a : Arch) : Prop where
  runBit : s.runBit = false
  regs : s.regs = a.regs
  mem : s.wbOp = none → s.mem = a.mem
  hilo : s.wbOp = none → s.memOp = none → HiLo s a

/-- The pipeline between two cycles while it is running. -/
structure Running (s : PipeState) (a : Arch) : Prop where
  inv : Inv s a
  good : a.WellBehaved
  settled : s.branchRecover = false
  runBit : s.runBit = true

section Cycle
variable {s : PipeState} {a : Arch}

lemma Halted.map {s' : PipeState} (h : Halted s a) (hs : Framed s s') : Halted s' a where
  runBit := hs.runBit.trans h.runBit
  regs := hs.regs.trans h.regs
  mem hn := hs.mem.trans (h.mem (hs.wbOp ▸ hn))
  hilo hn hm := by
    obtain ⟨hm',hhi,hlo⟩ := hs.hilo hm
    have hl := h.hilo (hs.wbOp ▸ hn) hm'
    exact ⟨hhi.trans hl.1,hlo.trans hl.2⟩

lemma Halted.mem_stage (go : Bool) (h : Halted s a) : Halted (elasticMem go s) a := by
  cases hop : s.memOp with
  | none => rwa [elasticMem_none go hop]
  | some op =>
    rw [elasticMem_some go hop]
    split_ifs
    · exact ⟨h.runBit,h.regs,fun hn => (by cases hn),fun hn => (by cases hn)⟩
    · exact h

/-- The flush of a scheduled recovery leaves the memory and write-back slots alone. -/
lemma flush_before_recover (fetchGo : Bool) (hs : s.branchRecover = false)
    (h : (elasticFetch fetchGo (pipeStageDecode (pipeStageExecute s))).branchRecover = true) :
    (elasticFetch fetchGo (pipeStageDecode (pipeStageExecute s))).branchFlush = 3 := by
  have hf : ∀ t : PipeState, (elasticFetch fetchGo t).branchRecover = t.branchRecover ∧
      (elasticFetch fetchGo t).branchFlush = t.branchFlush := by
    intro t
    unfold elasticFetch
    split_ifs <;> exact ⟨rfl,rfl⟩
  obtain ⟨-,-,-,hr,hfl,-⟩ := pipeStageDecode_later (s := pipeStageExecute s)
  rw [(hf _).1, hr] at h
  rw [(hf _).2, hfl]
  exact pipeStageExecute_flush hs h

/-- The stages after write-back, on a pipeline that goes on running. -/
lemma Running.afterWb (memGo fetchGo : Bool) (h : Running s a) (hw : s.wbOp = none) :
    Running (recoverBranch (elasticFetch fetchGo (pipeStageDecode (pipeStageExecute
      (elasticMem memGo s))))) a := by
  have hs : (elasticMem memGo s).branchRecover = false := by
    rw [elasticMem_branchRecover, h.settled]
  have hinv := (((h.inv.mem memGo hw).execute h.good hs).decode h.good).fetch fetchGo h.good
  refine ⟨hinv.recover h.good,h.good,recoverBranch_branchRecover _,?_⟩
  rw [(recoverBranch_framed hinv.flush).runBit, (elasticFetch_framed _ _).runBit,
    (pipeStageDecode_framed _).runBit, (pipeStageExecute_framed _).runBit, elasticMem_runBit,
    h.runBit]

/-- The stages after write-back, once the halting syscall has retired. -/
lemma Halted.afterWb (memGo fetchGo : Bool) (h : Halted s a) (hs : s.branchRecover = false) :
    Halted (recoverBranch (elasticFetch fetchGo (pipeStageDecode (pipeStageExecute
      (elasticMem memGo s))))) a := by
  have hs' : (elasticMem memGo s).branchRecover = false := by
    rw [elasticMem_branchRecover, hs]
  exact ((((h.mem_stage memGo).map (pipeStageExecute_framed _)).map
    (pipeStageDecode_framed _)).map (elasticFetch_framed _ _)).map
    (recoverBranch_framed (flush_before_recover fetchGo hs'))

variable (waiting memGo fetchGo : Bool)

/-- A cycle with nothing to retire. -/
theorem Running.quiet (h : Running s a) (hw : s.wbOp = none) :
    Running (elasticCycle waiting memGo fetchGo s) a := by
  rw [elasticCycle, elasticBack, pipeStageWb_none waiting hw]
  exact h.afterWb memGo fetchGo hw

/-- A cycle that retires an instruction and goes on. -/
theorem Running.retire (h : Running s a) {op : PipeOp} (hw : s.wbOp = some op)
    (hh : ¬ a.halts) : Running (elasticCycle waiting memGo fetchGo s) a.next := by
  obtain ⟨hinv,hnone,hr,hrun⟩ := h.inv.wb waiting hw hh
  exact Running.afterWb memGo fetchGo
    ⟨hinv,h.good.next hh,hr.trans h.settled,hrun.trans h.runBit⟩ hnone

/-- The cycle that retires the halting syscall. -/
theorem Running.halt (h : Running s a) {op : PipeOp} (hw : s.wbOp = some op) (hh : a.halts) :
    Halted (elasticCycle waiting memGo fetchGo s) a.next := by
  obtain ⟨rfl,hmem,hl,-⟩ := h.inv.full op hw
  have hhalt : isHalt a.completed = true := hh
  refine Halted.afterWb memGo fetchGo ?_ ?_
  · simp only [pipeStageWb, hw, if_pos hhalt]
    refine ⟨rfl,?_,fun _ => hmem,fun _ hm => hl hm⟩
    rw [h.inv.regs]
    rfl
  · simp only [pipeStageWb, hw, if_pos hhalt]
    exact h.settled

/-- The address of every access of the fetch stage is aligned. -/
theorem Running.pc_aligned (h : Running s a) :
    WordAligned (elasticBack waiting memGo s).pc := by
  rw [elasticBack_pc]
  cases hw : s.wbOp with
  | none =>
    rw [pipeStageWb_none waiting hw]
    exact (h.inv.empty hw).pc_aligned
  | some op =>
    obtain ⟨rfl,-,-,hi⟩ := h.inv.full op hw
    by_cases hh : a.halts
    · have hhalt : isHalt a.completed = true := hh
      simp only [pipeStageWb, hw, if_pos hhalt, Arch.completed_pc]
      split_ifs
      · exact h.good.pc_aligned.next
      · exact h.good.pc_aligned
    · have hhalt : ¬ isHalt a.completed = true := hh
      simp only [pipeStageWb, hw, if_neg hhalt]
      exact (hi hh).pc_aligned

end Cycle

/-- The numbers of instructions waiting for write-back and in the memory stage. -/
def PipeState.inWb (s : PipeState) : ℕ := s.wbOp.isSome.toNat
def PipeState.inMem (s : PipeState) : ℕ := s.memOp.isSome.toNat

/-- The architectural state of the pipeline is the interpreter's: the registers after the k
retired instructions, memory after those that have left the memory stage, HI and LO after
those that have left the execute stage; the last two as long as the counted instructions do
not go beyond the halting syscall. -/
structure InStep (s : PipeState) (a : Arch) (k : ℕ) : Prop where
  regs : s.regs = (a.after k).regs
  mem : a.Executes (k + s.inWb - 1) → s.mem = (a.after (k + s.inWb)).mem
  hilo : a.Executes (k + s.inWb + s.inMem - 1) → HiLo s (a.after (k + s.inWb + s.inMem))

section InStep
variable {s : PipeState} {a : Arch} {k : ℕ}

lemma after_add_one : (a.after k).next = a.after (k+1) :=
  (Function.iterate_succ_apply' Arch.next k a).symm

theorem Running.inStep (h : Running s (a.after k)) : InStep s a k where
  regs := h.inv.regs
  mem _ := by
    cases hw : s.wbOp with
    | none => simpa [PipeState.inWb, hw] using (h.inv.empty hw).mem
    | some op => simpa [PipeState.inWb, hw, after_add_one] using (h.inv.full op hw).2.1
  hilo hex := by
    cases hw : s.wbOp with
    | none =>
      have hi := h.inv.empty hw
      cases hm : s.memOp with
      | none => simpa [PipeState.inWb, PipeState.inMem, hw, hm] using (hi.empty hm).1
      | some op =>
        simpa [PipeState.inWb, PipeState.inMem, hw, hm, after_add_one]
          using (hi.full op hm).2.1
    | some op =>
      obtain ⟨-,-,hl,hi⟩ := h.inv.full op hw
      cases hm : s.memOp with
      | none =>
        simpa [PipeState.inWb, PipeState.inMem, hw, hm, after_add_one] using hl hm
      | some op' =>
        simp only [PipeState.inWb, PipeState.inMem, hw, hm, Option.isSome_some, Bool.toNat_true,
          Nat.add_sub_cancel] at hex ⊢
        have hl' := ((hi (hex k (by omega))).full op' hm).2.1
        rwa [after_add_one, after_add_one] at hl'

theorem Halted.inStep (h : Halted s (a.after (k+1))) (hh : (a.after k).halts) :
    InStep s a (k+1) where
  regs := h.regs
  mem hex := by
    cases hw : s.wbOp with
    | none => simpa [PipeState.inWb, hw] using h.mem hw
    | some op => exact absurd hh (hex k (by simp [PipeState.inWb, hw]))
  hilo hex := by
    cases hw : s.wbOp with
    | none =>
      cases hm : s.memOp with
      | none => simpa [PipeState.inWb, PipeState.inMem, hw, hm] using h.hilo hw hm
      | some op => exact absurd hh (hex k (by simp [PipeState.inWb, PipeState.inMem, hw, hm]))
    | some op => exact absurd hh (hex k (by simp [PipeState.inWb, hw]; omega))

end InStep

/-- The interpreter's state at the start of the program. -/
def initialArch (mem : Memory) (regs : Reg → Word) (hi lo : Word) : Arch :=
  ⟨regs,hi,lo,0x00400000,mem⟩

/-- The program that only consists of the halting syscall, with 0xA in v0. -/
def exitProgram : Memory := fun r offset => if r = .text ∧ offset = 0 then 0x0C else 0
def exitRegs : Reg → Word := fun r => if r = 2 then 0xA else 0

/-- A load, a store, a taken branch over the next word, a jump register and the halting
syscall. -/
def jumpProgram : Memory := textWords fun offset =>
  if offset = 0 then 0x8D090004
  else if offset = 0x04 then 0xAD090000
  else if offset = 0x08 then 0x10000001
  else if offset = 0x0C then 0x24020000
  else if offset = 0x10 then 0x03E00008
  else if offset = 0x18 then 0x0C
  else 0

/-- The data segment and the address of the syscall. -/
def jumpRegs : Reg → Word := fun r =>
  if r = 2 then 0xA else if r = 8 then 0x10000000 else if r = 31 then 0x00400018 else 0

lemma jumpProgram_wellBehaved : (initialArch jumpProgram jumpRegs 0 0).WellBehaved := by
  refine Arch.wellBehaved_of_halts 4 (by decide : WordAligned 0x00400000) ?_ ?_ ?_
  · unfold Arch.halts
    decide +kernel
  · unfold isJumpRegister
    decide +kernel
  · decide +kernel

/-- The empty pipeline at the start of the program. -/
theorem initialPipe_running {mem : Memory} {regs : Reg → Word} {hi lo : Word}
    (h : (initialArch mem regs hi lo).WellBehaved) :
    Running (initialPipe mem regs hi lo) (initialArch mem regs hi lo) where
  inv := ⟨rfl,fun hn => (by cases hn),
    fun _ => ⟨rfl,(by decide : WordAligned 0x00400000),fun hn => (by cases hn),
      fun _ => ⟨⟨rfl,rfl⟩,rfl⟩,
      fun _ hn => (by cases hn)⟩,fun _ hn => (by cases hn)⟩
  good := h
  settled := rfl
  runBit := rfl

/-- Any machine whose steps are elastic cycles of its pipeline simulates the interpreter. -/
theorem simulation_of_elastic {σ ε : Type*} (M : Lib.Machine σ ε Retired) (pipe : σ → PipeState)
    (hrun : ∀ s, M.running s = (pipe s).runBit) (hobs : ∀ s, M.observe s = (pipe s).retiring)
    (hstep : ∀ s s', M.step s = .ok s' →
      ∃ waiting memGo fetchGo, pipe s' = elasticCycle waiting memGo fetchGo (pipe s)) :
    Lib.Simulation M Arch.next Arch.retires Arch.halts (fun s a => Running (pipe s) a)
      (fun s a => Halted (pipe s) a) where
  running h := (hrun _).trans h.runBit
  halted h := (hrun _).trans h.runBit
  quiet {s s' a} h ho hs := by
    obtain ⟨w,m,f,he⟩ := hstep s s' hs
    rw [hobs, PipeState.retiring, Option.map_eq_none_iff] at ho
    rw [he]
    exact h.quiet w m f ho
  emits {s a b} h ho := by
    rw [hobs, PipeState.retiring, Option.map_eq_some_iff] at ho
    obtain ⟨op,hop,rfl⟩ := ho
    rw [(h.inv.full op hop).1]
    rfl
  goes {s s' a b} h ho hs hh := by
    obtain ⟨w,m,f,he⟩ := hstep s s' hs
    rw [hobs, PipeState.retiring, Option.map_eq_some_iff] at ho
    obtain ⟨op,hop,rfl⟩ := ho
    rw [he]
    exact h.retire w m f hop hh
  stops {s s' a b} h ho hs hh := by
    obtain ⟨w,m,f,he⟩ := hstep s s' hs
    rw [hobs, PipeState.retiring, Option.map_eq_some_iff] at ho
    obtain ⟨op,hop,rfl⟩ := ho
    rw [he]
    exact h.halt w m f hop hh

/-- What a run of such a machine shows is a prefix of the interpreter's trace, and it leaves
the interpreter's state behind. -/
theorem elastic_run {σ ε : Type*} {M : Lib.Machine σ ε Retired} {pipe : σ → PipeState}
    (hsim : Lib.Simulation M Arch.next Arch.retires Arch.halts (fun s a => Running (pipe s) a)
      (fun s a => Halted (pipe s) a)) {s₀ : σ} {a : Arch} (h0 : Running (pipe s₀) a) {n : ℕ}
    {t : List Retired} {s : σ} (h : M.run n s₀ = .ok (t,s)) :
    t <+: a.trace n ∧ InStep (pipe s) a t.length := by
  refine ⟨hsim.prefix_of_run h0 h,?_⟩
  obtain ⟨k,-,-,rfl,⟨-,hR⟩ | ⟨j,hj,-,hstop,hF⟩⟩ := hsim.run_trace h0 h
  · exact Running.inStep hR
  · rw [hj] at hF ⊢
    exact Halted.inStep hF hstop

end CaLabs.Pipeline
