import CaLabs.Lab2.L1Fill
import CaLabs.Lab2.StageOps

/-! The access of a stage to the block that it was just given. -/
namespace CaLabs.Lab2
open Mips Pipeline

section Pipe
variable {p : PipeState} {op : PipeOp}

/-- The write-back stage changes the program counter only when it halts. -/
lemma pipeStageWb_pc {waiting : Bool} (h : (pipeStageWb waiting p).runBit = true) :
    (pipeStageWb waiting p).pc = p.pc := by
  unfold pipeStageWb at h ⊢
  cases hop : p.wbOp with
  | none => rfl
  | some op =>
    simp only [hop] at h ⊢
    cases hhalt : isHalt op with
    | true => simp [hhalt] at h
    | false => simp only [Bool.false_eq_true, if_false]

lemma recoverBranch_runBit : (recoverBranch p).runBit = p.runBit := by
  unfold recoverBranch
  split_ifs <;> rfl

lemma elasticCycle_runBit (waiting memGo fetchGo : Bool) :
    (elasticCycle waiting memGo fetchGo p).runBit = (pipeStageWb waiting p).runBit := by
  rw [elasticCycle, recoverBranch_runBit, (elasticFetch_framed _ _).runBit, elasticBack,
    (pipeStageDecode_framed _).runBit, (pipeStageExecute_framed _).runBit, elasticMem_runBit]

end Pipe

section Next
variable {s t : State Memories} {a : Word}

lemma accessEvent_aligned (sys : Memories) (isIcache : Bool) (t : Word) {a : Word}
    (ha : WordAligned a) : ∃ r, accessEvent sys isIcache t a = some (.access a r) := by
  have hacc : memSystem.access sys isIcache t a = .ok (memSystem.l1CacheAccess sys isIcache t a) :=
    if_pos ha
  exact ⟨_,accessEvent_ok hacc⟩

/-- A filled memory stage repeats its access in the next cycle. -/
lemma dcache_next (hs : s.Settled) (hw : s.MemWaits) (he : s.dcacheEvent = some (.fill a))
    (h : memSystem.cycle s = .ok t) (hv : t.dcacheView.missing = none) :
    ∃ r, t.dcacheEvent = some (.access a r) := by
  obtain ⟨op,hop,hwait,rfl⟩ := memEvent_fill he
  dsimp only at hop hwait
  rw [(pipeStageWb_later _ _).1] at hop
  obtain ⟨op',hop'',hmem,haddr⟩ := hw hwait
  obtain rfl : op = op' := Option.some.inj (hop.symm.trans hop'')
  -- the operation is still in the stage after the cycle
  have hkept : t.pipe.memOp = some op := by
    obtain ⟨s₃,sys,hst,-,rfl⟩ := MemSystem.cycle_ok h
    obtain ⟨s₁,s₂,hb,hf,rfl⟩ := MemSystem.stages_ok hst
    have hflush := flush_of_settled hs hb hf
    obtain ⟨s₀,hm,rfl⟩ := backStages_eq hb
    refine @memOp_kept s₀ _ _ ?_ hf hflush
    have hsame : s₀.pipe = pipeStageWb s.l1FetchWaiting s.pipe := by
      have hwb := (pipeStageWb_later s.l1FetchWaiting s.pipe).1.trans hop
      simp only [MemSystem.pipeStageMem, hwb, hwait, if_true] at hm
      split_ifs at hm <;> exact (Except.ok.inj hm) ▸ rfl
    rw [hsame]
    exact (pipeStageWb_later _ _).1.trans hop
  have hrun : t.l1MemWaiting = false := dcacheView_missing.mp hv
  have hwb := (pipeStageWb_later t.l1FetchWaiting t.pipe).1.trans hkept
  simp only [State.dcacheEvent, State.memEvent, hwb, hrun, hmem, Bool.false_eq_true, if_false,
    if_true]
  rw [haddr]
  exact accessEvent_aligned _ _ _ (haddr ▸ wordOf_aligned op.memAddr)

/-- A fetch stage that is free gets to its access. -/
lemma fetchEvent_running (hd : s.pipe.decodeOp = none) (hw : s.l1FetchWaiting = false)
    (h : memSystem.pipeStageFetch s = .ok t) :
    ∃ r, s.fetchEvent = some (.access s.pipe.pc r) := by
  unfold MemSystem.pipeStageFetch MemSystem.accessFetch at h
  simp only [hd, hw, Option.isSome_none, Bool.false_eq_true, if_false,
    MemSystem.cleanupFetch_pipe, cleanupFetch_statCycles] at h
  rw [fetchEvent_free hd hw]
  cases ha : memSystem.access (memSystem.cleanupFetch s).sys true s.statCycles s.pipe.pc with
  | error e => simp [ha, bind, Except.bind] at h
  | ok q => exact ⟨q.1,accessEvent_ok ha⟩

/-- A filled fetch stage accesses the block at the program counter in the next cycle, unless
the simulation ends in it. -/
lemma icache_next (he : s.icacheEvent = some (.fill a))
    (h : memSystem.cycle s = .ok t) (ht : t.Settled) (hv : t.icacheView.missing = none)
    {u : State Memories} (hc : memSystem.cycle t = .ok u) (hrun : u.pipe.runBit = true) :
    ∃ r, t.icacheEvent = some (.access t.pipe.pc r) := by
  have hdecode : t.pipe.decodeOp = none := by
    obtain ⟨s₃,sys,hst,-,rfl⟩ := MemSystem.cycle_ok h
    obtain ⟨s₁,s₂,hb,hf,rfl⟩ := MemSystem.stages_ok hst
    have hfree := fetchEvent_fill ((icacheEvent_ok hb).symm.trans he)
    refine recoverBranch_decodeOp ?_
    unfold MemSystem.pipeStageFetch at hf
    simp only [hfree.1, hfree.2, Option.isSome_none, Bool.false_eq_true, if_false, if_true] at hf
    split_ifs at hf <;> exact (Except.ok.inj hf) ▸ hfree.1
  obtain ⟨t₃,sys,hst,-,rfl⟩ := MemSystem.cycle_ok hc
  obtain ⟨memGo',fetchGo,hpipe⟩ := MemSystem.stages_elastic hst
  obtain ⟨t₁,t₂,hb,hf,rfl⟩ := MemSystem.stages_ok hst
  obtain ⟨memGo,hback⟩ := MemSystem.backStages_elastic hb
  have hpc : t₁.pipe.pc = t.pipe.pc := by
    have hrun' : (pipeStageWb t.l1FetchWaiting t.pipe).runBit = true := by
      rw [← elasticCycle_runBit t.l1FetchWaiting memGo' fetchGo, ← hpipe]
      exact hrun
    rw [hback, elasticBack_pc, pipeStageWb_pc hrun']
  have hdecode' : t₁.pipe.decodeOp = none := by
    rw [hback]
    exact elasticBack_decodeOp _ _ hdecode
  have hwait' : t₁.l1FetchWaiting = false := by
    obtain ⟨t₀,hm,rfl⟩ := backStages_eq hb
    obtain ⟨-,hiview⟩ := pipeStageMem_l1Stage
      (s := { t with pipe := pipeStageWb t.l1FetchWaiting t.pipe }) ht.memCancelled hm
    exact icacheView_missing.mp ((congrArg L1View.missing hiview).trans hv)
  obtain ⟨r,hr⟩ := fetchEvent_running hdecode' hwait' hf
  exact ⟨r,by rw [icacheEvent_ok hb, hr, hpc]⟩

end Next

/-- In the running state s', k+1 cycles after s, the cache is accessed for the first time since
then in the block of the address. -/
structure NextAccess (event : State Memories → Option L1Event) (s : State Memories) (a : Word)
    (k : ℕ) (s' : State Memories) (r : CacheAccessResult) : Prop where
  reaches : memSystem.machine.Reaches s (k+1) s'
  running : s'.pipe.runBit = true
  access : ∃ b, blockAddr b = blockAddr a ∧ event s' = some (.access b r)
  first : ∀ j t b r', 0 < j → j ≤ k → memSystem.machine.Reaches s j t →
    event t = some (.access b r') → blockAddr b ≠ blockAddr a

/-- The cycle that starts in s sends the fetch stage to another block. -/
def Redirected (s : State Memories) (a : Word) : Prop :=
  ∃ t, memSystem.machine.Reaches s 1 t ∧ blockAddr t.pipe.pc ≠ blockAddr a

/-- In the k cycles after the one that starts in s another block is filled into the set. -/
def FilledOver (base : Cache) (event : State Memories → Option L1Event) (s : State Memories)
    (a : Word) (k : ℕ) : Prop :=
  ∃ j t f, 0 < j ∧ j ≤ k ∧ memSystem.machine.Reaches s j t ∧ event t = some (.fill f) ∧
    base.setOf f = base.setOf a ∧ blockAddr f ≠ blockAddr a

section Blocks
variable {base : Cache} {a b : Word}

lemma InL1.same {c : Cache} (hc : c.setOf = base.setOf ∧ c.tagOf = base.tagOf)
    (h : SameBlock base b a) (ha : InL1 c a) : InL1 c b := by
  have hs : c.setOf b = c.setOf a := by rw [hc.1, h.1]
  have ht : c.tagOf b = c.tagOf a := by rw [hc.2, h.2]
  rw [InL1, hs, ht]
  exact ha

end Blocks

namespace FollowsL1
variable {base : Cache} {event : State Memories → Option L1Event}
  {view : State Memories → L1View} {s s' : State Memories} {a : Word} {k : ℕ}
  {r : CacheAccessResult}

/-- The next access hits if the block has not been filled over. -/
lemma hits_of_not_filledOver (F : FollowsL1 base event view) (hb : base.blockBits = 5)
    (hs : s.Settled) (hv : L1Sound base (view s)) (he : event s = some (.fill a))
    (h : NextAccess event s a k s' r) (hover : ¬FilledOver base event s a k) : r = .cacheHit := by
  obtain ⟨hin,hv',hs'⟩ := F.stays hs hv he h.reaches fun j t f h0 hj hr hf => by
    by_cases hset : base.setOf f = base.setOf a
    · refine .inr (sameBlock_of_blockAddr hb ?_)
      by_contra hne
      exact hover ⟨j,t,f,h0,hj,hr,hf,hset,hne⟩
    · exact .inl hset
  obtain ⟨b,hba,hacc⟩ := h.access
  exact (F.answer hs' hacc).mpr (hin.same hv'.split (sameBlock_of_blockAddr hb hba))

lemma not_filledOver_zero : ¬FilledOver base event s a 0 := by
  rintro ⟨j,t,f,h0,hj,-⟩
  omega

/-- The state after the cycle of the fill, when the next access comes later. -/
lemma after_fill (F : FollowsL1 base event view) (hs : s.Settled) (hv : L1Sound base (view s))
    (he : event s = some (.fill a)) (h : NextAccess event s a (k+1) s' r) :
    ∃ t u, memSystem.machine.Reaches s 1 t ∧ memSystem.cycle s = .ok t ∧ t.Settled ∧
      (view t).missing = none ∧ memSystem.cycle t = .ok u ∧ u.pipe.runBit = true := by
  obtain ⟨u,hu⟩ := Lib.Machine.Reaches.earlier _ h.reaches (show 2 ≤ k+1+1 by omega)
  have hrest : memSystem.machine.Reaches u k s' := by
    refine Lib.Machine.Reaches.rest _ (m := 2) ?_ hu
    rw [Nat.add_comm 2 k]
    exact h.reaches
  have hrun : u.pipe.runBit = true := by
    cases k with
    | zero =>
      obtain rfl : s' = u := hrest
      exact h.running
    | succ k =>
      obtain ⟨m,hm,-⟩ := Lib.Machine.Reaches.head _ hrest
      exact hm
  obtain ⟨t,ht,-,hc⟩ := hu
  have ht' := ht
  obtain ⟨s₀,hs₀,-,hc₀⟩ := ht'
  obtain rfl : s₀ = s := hs₀
  have hcycle := F.cycle hs hc₀
  rw [he] at hcycle
  exact ⟨t,u,ht,hc₀,cycle_settled hs hc₀,(hcycle.filled hv).2,hc,hrun⟩

end FollowsL1

/-- Every access of the cache that is the first to the block of a fill after it hits. -/
def FillsServed (event : State Memories → Option L1Event) (mem : Memory) (regs : Reg → Word)
    (hi lo : Word) : Prop :=
  ∀ n s a k s' r, memSystem.machine.Reaches (initialState initialMemories mem regs hi lo) n s →
    event s = some (.fill a) → NextAccess event s a k s' r → r = .cacheHit

/-- No set of a first-level cache has a block twice, and a stage finds the block that it was
given. -/
structure L1FillConsistent (mem : Memory) (regs : Reg → Word) (hi lo : Word) : Prop where
  distinct : ∀ n s, memSystem.machine.Reaches (initialState initialMemories mem regs hi lo) n s →
    NoDuplicates s.sys.icache ∧ NoDuplicates s.sys.dcache
  icache : FillsServed State.icacheEvent mem regs hi lo
  dcache : FillsServed State.dcacheEvent mem regs hi lo

/-- In every reachable state no set of the first-level caches has two valid ways with one tag.
After a fill of the data cache the next access to the block hits. So it does after one of the
instruction cache, unless the cycle of the fill has sent the fetch stage to another block and
another block has been filled into the set since. -/
theorem l1_fill_consistent (mem : Memory) (regs : Reg → Word) (hi lo : Word) :
    (∀ n s, memSystem.machine.Reaches (initialState initialMemories mem regs hi lo) n s →
      NoDuplicates s.sys.icache ∧ NoDuplicates s.sys.dcache) ∧
    FillsServed State.dcacheEvent mem regs hi lo ∧
    ∀ n s a k s' r, memSystem.machine.Reaches (initialState initialMemories mem regs hi lo) n s →
      s.icacheEvent = some (.fill a) → NextAccess State.icacheEvent s a k s' r →
      r = .cacheHit ∨
        (Redirected s a ∧ FilledOver initialMemories.icache State.icacheEvent s a k) := by
  refine ⟨fun n s h => ?_,fun n s a k s' r h he hnext => ?_,fun n s a k s' r h he hnext => ?_⟩
  · exact ⟨(icache_followsL1.reaches mem regs hi lo h).1.distinct,
      (dcache_followsL1.reaches mem regs hi lo h).1.distinct⟩
  · obtain ⟨hv,hs⟩ := dcache_followsL1.reaches mem regs hi lo h
    cases k with
    | zero =>
      exact dcache_followsL1.hits_of_not_filledOver (by decide) hs hv he hnext
        FollowsL1.not_filledOver_zero
    | succ k =>
      -- the stage repeats its access at once, so there is no later first one
      obtain ⟨t,u,ht,hc,-,hmissing,-,-⟩ := dcache_followsL1.after_fill hs hv he hnext
      have hw := (reaches_placed mem regs hi lo h).mem
      obtain ⟨r',hr'⟩ := dcache_next hs hw he hc hmissing
      exact absurd rfl (hnext.first 1 t a r' Nat.one_pos (by omega) ht hr')
  · obtain ⟨hv,hs⟩ := icache_followsL1.reaches mem regs hi lo h
    by_cases hover : FilledOver initialMemories.icache State.icacheEvent s a k
    · refine .inr ⟨?_,hover⟩
      cases k with
      | zero => exact absurd hover FollowsL1.not_filledOver_zero
      | succ k =>
        obtain ⟨t,u,ht,hc,ht',hmissing,hc',hrun⟩ := icache_followsL1.after_fill hs hv he hnext
        obtain ⟨r',hr'⟩ := icache_next he hc ht' hmissing hc' hrun
        exact ⟨t,ht,hnext.first 1 t _ r' Nat.one_pos (by omega) ht hr'⟩
    · exact .inl (icache_followsL1.hits_of_not_filledOver (by decide) hs hv he hnext hover)

/-- The instruction `j` to an offset in the text segment. -/
def jumpTo (offset : ℕ) : ℕ := 0x08100000 + offset / 4

/-- Jumps through blocks of one set of the instruction cache. Those at 0x118 and 0x11c leave
when the fetch stage has just gone on to the block at 0x120. -/
def redirectWord (offset : ℕ) : ℕ :=
  if offset = 0x1c then jumpTo 0x118
  else if offset = 0x118 then jumpTo 0x93c
  else if offset = 0x93c then jumpTo 0x113c
  else if offset = 0x113c then jumpTo 0x193c
  else if offset = 0x193c then jumpTo 0x213c
  else if offset = 0x213c then jumpTo 0x11c
  else if offset = 0x11c then jumpTo 0x293c
  else if offset = 0x293c then jumpTo 0x120
  else 0

def redirectProgram : Memory := textWords redirectWord

/-- The cycle does not access the block of the address. -/
def accessesOther (a : Word) (s : State Memories) : Bool :=
  match s.icacheEvent with
  | some (.access b _) => blockAddr b != blockAddr a
  | _ => true

/-- The fetch stage comes to the address, and its block is not in the instruction cache. -/
def missesAt (a : Word) (s : State Memories) : Bool :=
  (hitWay (s.sys.icache.sets (s.sys.icache.setOf a)) (s.sys.icache.tagOf a)).isNone &&
    match memSystem.backStages s with
    | .error _ => false
    | .ok s => s.pipe.decodeOp.isNone && !s.l1FetchWaiting && s.pipe.pc == a

lemma missesAt_access {a : Word} {s : State Memories} (ha : WordAligned a) (hs : s.Settled)
    (h : missesAt a s = true) :
    ∃ r, s.icacheEvent = some (.access a r) ∧ r ≠ .cacheHit := by
  rw [missesAt, Bool.and_eq_true, Option.isNone_iff_eq_none] at h
  obtain ⟨hnone,h⟩ := h
  have hevent : ∃ r, s.icacheEvent = some (.access a r) := by
    cases hb : memSystem.backStages s with
    | error e => simp [hb] at h
    | ok s₁ =>
      simp only [hb, Bool.and_eq_true, Option.isNone_iff_eq_none, Bool.not_eq_true',
        beq_iff_eq] at h
      obtain ⟨⟨hd,hw⟩,rfl⟩ := h
      rw [icacheEvent_ok hb, fetchEvent_free hd hw]
      exact accessEvent_aligned _ _ _ ha
  obtain ⟨r,hr⟩ := hevent
  refine ⟨r,hr,fun hhit => ?_⟩
  have hin : InL1 s.sys.icache a := (icache_followsL1.answer hs hr).mp hhit
  rw [InL1, hnone] at hin
  cases hin

/-- The instruction cache is given the block of 0x00400120 in the cycle in which a jump leaves
it, loses it to another block of the set, and misses when the program comes back to it. -/
theorem redirectProgram_not_l1FillConsistent :
    ¬L1FillConsistent redirectProgram (fun _ => 0) 0 0 := by
  have hlead : memSystem.machine.leadsTo (fun s =>
      s.icacheEvent == some (.fill 0x00400120) &&
      memSystem.machine.checkRun (accessesOther 0x00400120) 6 s &&
      memSystem.machine.leadsTo (fun s => s.pipe.runBit && missesAt 0x00400120 s) 7 s) 43
      (waitingState redirectProgram (fun _ => 0) 0 0 true 261) = true := by
    decide +kernel
  obtain ⟨s,hs,hp⟩ := reaches_of_leadsTo _ _ _ _ hlead
  rw [Bool.and_eq_true, Bool.and_eq_true, beq_iff_eq] at hp
  obtain ⟨⟨hfill,hcheck⟩,hlater⟩ := hp
  obtain ⟨s',hs',hmiss⟩ := memSystem.machine.leadsTo_reaches hlater
  rw [Bool.and_eq_true] at hmiss
  obtain ⟨-,hsettled⟩ := icache_followsL1.reaches _ _ _ _ (hs.trans _ hs')
  obtain ⟨r,hr,hne⟩ := missesAt_access (by decide) hsettled hmiss.2
  intro h
  have hnext : NextAccess State.icacheEvent s 0x00400120 6 s' r := by
    refine ⟨hs',hmiss.1,⟨_,rfl,hr⟩,fun j t b r' _ hj ht hb => ?_⟩
    have hother := ht.checked _ hcheck hj
    simpa only [accessesOther, hb, bne_iff_ne, ne_eq] using hother
  exact hne (h.icache _ s _ _ s' r hs hfill hnext)

end CaLabs.Lab2
