import CaLabs.Lab2.FirstFetch

/-! Who answers for an MSHR in use: as long as no fetch miss takes the place of a cancelled one
that is still outstanding, each belongs to a stage, so that there is always a free one. -/
namespace CaLabs.Lab2
open Mips Pipeline

lemma Mshr.SameUse.holds {m m' : Mshr} {address : Word} (h : m.SameUse m') :
    m'.Holds address ↔ m.Holds address :=
  ⟨fun hm => ⟨h.valid ▸ hm.valid,h.address ▸ hm.block⟩,
    fun hm => ⟨h.valid.symm ▸ hm.valid,h.address.symm ▸ hm.block⟩⟩

namespace MissState

/-- The memory stage waits for the fill of the MSHR. -/
def MemOwns (b : MissState) (i : Fin numMshr) : Prop :=
  b.memWaiting = true ∧ (b.mshrs i).Holds b.memAddr

/-- The fetch stage waits for the fill of the MSHR, or has to free it after a cancelled miss. -/
def FetchOwns (b : MissState) (i : Fin numMshr) : Prop :=
  (b.fetchWaiting = true ∨ b.fetchCancelled = true) ∧ (b.mshrs i).Holds b.fetchAddr

/-- Every MSHR in use will be freed by a stage, and no block has two. -/
structure Tracked (b : MissState) : Prop where
  distinct : b.mshrs.Distinct
  owned : ∀ i, (b.mshrs i).valid = true → b.MemOwns i ∨ b.FetchOwns i

/-- Two stages account for two MSHRs, so one of the sixteen is free. -/
theorem Tracked.exists_free {b : MissState} (h : b.Tracked) : ∃ i, (b.mshrs i).valid = false := by
  by_contra hall
  simp only [not_exists, Bool.not_eq_false] at hall
  have hblock : ∀ i, (b.mshrs i).Holds b.memAddr ∨ (b.mshrs i).Holds b.fetchAddr := fun i =>
    (h.owned i (hall i)).imp And.right And.right
  have hm := fun i j => h.distinct i j b.memAddr
  have hf := fun i j => h.distinct i j b.fetchAddr
  rcases hblock 0 with h0 | h0 <;> rcases hblock 1 with h1 | h1 <;>
    rcases hblock 2 with h2 | h2
  · exact absurd (hm 0 1 h0 h1) (by decide)
  · exact absurd (hm 0 1 h0 h1) (by decide)
  · exact absurd (hm 0 2 h0 h2) (by decide)
  · exact absurd (hf 1 2 h1 h2) (by decide)
  · exact absurd (hm 1 2 h1 h2) (by decide)
  · exact absurd (hf 0 2 h0 h2) (by decide)
  · exact absurd (hf 0 1 h0 h1) (by decide)
  · exact absurd (hf 0 1 h0 h1) (by decide)

section Steps
variable {b : MissState}

lemma Tracked.fillMem (h : b.Tracked) : b.fillMem.Tracked := by
  refine ⟨h.distinct.free,fun i hi => .inr ?_⟩
  obtain ⟨hold,he⟩ := freeMshr_holds
    (show (freeMshr b.mshrs b.memAddr i).Holds (freeMshr b.mshrs b.memAddr i).address from ⟨hi,rfl⟩)
  rcases h.owned i hold.valid with ⟨-,hm⟩ | ⟨hw,hf⟩
  · exact (h.distinct.freed (i := i) (by rwa [he])).elim
  · exact ⟨hw,show (freeMshr b.mshrs b.memAddr i).Holds b.fetchAddr by rwa [he]⟩

lemma Tracked.missMem {address : Word} {mshrs : MshrFile} (h : b.Tracked)
    (hw : b.memWaiting = false) (hr : Requested b.mshrs address mshrs) :
    (b.missMem address mshrs).Tracked := by
  refine ⟨hr.distinct h.distinct,fun i hi => ?_⟩
  rcases hr.holds_cases (show (mshrs i).Holds (mshrs i).address from ⟨hi,rfl⟩) with hold | ⟨hnew,-⟩
  · rcases h.owned i hold.valid with ⟨hm,-⟩ | ⟨hf,hb⟩
    · rw [hw] at hm
      cases hm
    · exact .inr ⟨hf,show (mshrs i).Holds b.fetchAddr by rwa [hr.of_valid hold.valid]⟩
  · exact .inl ⟨rfl,hnew⟩

/-- After the MSHR of the fetch stage has been freed the rest belongs to the memory stage. -/
lemma Tracked.freeFetch (h : b.Tracked) {i : Fin numMshr}
    (hi : (freeMshr b.mshrs b.fetchAddr i).valid = true) :
    b.memWaiting = true ∧ (freeMshr b.mshrs b.fetchAddr i).Holds b.memAddr := by
  obtain ⟨hold,he⟩ := freeMshr_holds
    (show (freeMshr b.mshrs b.fetchAddr i).Holds (freeMshr b.mshrs b.fetchAddr i).address
      from ⟨hi,rfl⟩)
  rcases h.owned i hold.valid with ⟨hw,hm⟩ | ⟨-,hf⟩
  · exact ⟨hw,by rwa [he]⟩
  · exact (h.distinct.freed (i := i) (by rwa [he])).elim

lemma Tracked.fillFetch (h : b.Tracked) : b.fillFetch.Tracked :=
  ⟨h.distinct.free,fun _ hi => .inl (h.freeFetch hi)⟩

lemma Tracked.dropFetch (h : b.Tracked) : b.dropFetch.Tracked :=
  ⟨h.distinct.free,fun _ hi => .inl (h.freeFetch hi)⟩

/-- A new fetch miss keeps the MSHRs accounted for unless a cancelled one is lost. -/
lemma Tracked.missFetch {address : Word} {mshrs : MshrFile} (h : b.Tracked)
    (hw : b.fetchWaiting = false) (hr : Requested b.mshrs address mshrs)
    (hkeep : b.fetchCancelled = true → ∀ i, (b.mshrs i).Holds b.fetchAddr →
      blockAddr address = blockAddr b.fetchAddr ∨ b.MemOwns i) :
    (b.missFetch address mshrs).Tracked := by
  refine ⟨hr.distinct h.distinct,fun i hi => ?_⟩
  rcases hr.holds_cases (show (mshrs i).Holds (mshrs i).address from ⟨hi,rfl⟩) with hold | ⟨hnew,-⟩
  · have hsame := hr.of_valid hold.valid
    have hmem : b.MemOwns i → (b.missFetch address mshrs).MemOwns i := fun hm =>
      ⟨hm.1,show (mshrs i).Holds b.memAddr by rw [hsame]; exact hm.2⟩
    rcases h.owned i hold.valid with hm | ⟨hf,hb⟩
    · exact .inl (hmem hm)
    · rw [hw] at hf
      rcases hkeep (hf.resolve_left Bool.false_ne_true) i hb with he | hm
      · refine .inr ⟨.inl rfl,show (mshrs i).Holds address from ?_⟩
        rw [hsame]
        exact ⟨hb.valid,by rw [hb.block, he]⟩
      · exact .inl (hmem hm)
  · exact .inr ⟨.inl rfl,hnew⟩

lemma Tracked.cancelFetch (h : b.Tracked) : b.cancelFetch.Tracked := by
  refine ⟨h.distinct,fun i hi => (h.owned i hi).imp id fun ⟨hf,hb⟩ => ⟨.inr ?_,hb⟩⟩
  simp only [MissState.cancelFetch, Bool.or_eq_true]
  exact hf.symm

lemma Tracked.controller {mshrs : MshrFile} {controller : MemController} {t : Word}
    (h : b.Tracked) (hs : ∀ i, (b.mshrs i).SameUse (mshrs i)) :
    ({ b with mshrs := mshrs, controller := controller, cycle := t } : MissState).Tracked := by
  refine ⟨fun i j address hi hj => h.distinct i j address ((hs i).holds.mp hi)
    ((hs j).holds.mp hj),fun i hi => ?_⟩
  exact (h.owned i ((hs i).valid ▸ hi)).imp (fun hm => ⟨hm.1,(hs i).holds.mpr hm.2⟩)
    fun hf => ⟨hf.1,(hs i).holds.mpr hf.2⟩

end Steps
end MissState

/-- Before the fetch stage: unless its access hits, a cancelled fetch miss that is still
outstanding is for the block that is fetched now, or the memory stage waits for it too. -/
def State.KeepsCancelled (s : State Memories) : Prop :=
  s.Fetches → ∀ c, c = memSystem.cleanupFetch s → c.l1FetchCancelled = true →
    (c.sys.l1CacheAccess true c.statCycles c.pipe.pc).1 ≠ .cacheHit →
    ∀ i, (c.sys.mshrs i).Holds c.l1FetchMissAddr →
      blockAddr c.pipe.pc = blockAddr c.l1FetchMissAddr ∨ c.misses.MemOwns i

lemma cleanupFetch_fetchWaiting (s : State Memories) :
    (memSystem.cleanupFetch s).l1FetchWaiting = s.l1FetchWaiting := by
  unfold MemSystem.cleanupFetch
  split_ifs <;> rfl

/-- The accounting survives a cycle. -/
lemma tracked_keptBy {s : State Memories} (h : s.misses.Tracked)
    (hk : ∀ s₁, memSystem.backStages s = .ok s₁ → s₁.KeepsCancelled) :
    KeptBy MissState.Tracked s where
  fillMem _ _ := h.fillMem
  missMem _ _ hm hr := h.missMem hm.running hr
  fillFetch _ _ h _ _ := h.fillFetch
  dropFetch _ _ h _ _ := h.dropFetch
  missFetch s₁ s₂ hb hmiss hs₂ h mshrs hr := by
    have hw : s₂.l1FetchWaiting = false := by
      rw [hs₂, cleanupFetch_fetchWaiting, hmiss.running]
    exact h.missFetch hw hr fun hc => hk s₁ hb hmiss.toFetches s₂ hs₂ hc (hs₂ ▸ hmiss.misses)
  cancelFetch _ h := h.cancelFetch
  controller _ _ _ _ _ h hc := h.controller (memoryControllerCycle_sameUse hc)

/-! A stage that finds no free MSHR. -/

lemma access_error {sys : Memories} {isIcache : Bool} {t address : Word} {e : Abort}
    (h : memSystem.access sys isIcache t address = .error e) : e = .unalignedAddress := by
  unfold MemSystem.access at h
  split_ifs at h
  exact (Except.error.inj h).symm

lemma accessMem_error {op : PipeOp} {s : State Memories}
    (h : memSystem.accessMem op s = .error .noFreeMshr) (i : Fin numMshr) :
    (s.sys.mshrs i).valid = true := by
  unfold MemSystem.accessMem at h
  split_ifs at h with hmem
  · cases hc : memSystem.access s.sys false s.statCycles (wordOf op.memAddr) with
    | error e =>
      obtain rfl := access_error hc
      simp [hc, bind, Except.bind] at h
    | ok p =>
      obtain ⟨r,sys⟩ := p
      simp only [hc, bind, Except.bind] at h
      obtain ⟨-,⟨rfl,-⟩ | ⟨rfl,-⟩ | ⟨rfl,hall⟩⟩ := l1CacheAccess_cases (access_ok hc)
      · cases h
      · cases h
      · exact hall i

lemma accessFetch_error {s : State Memories}
    (h : memSystem.accessFetch s = .error .noFreeMshr) (i : Fin numMshr) :
    (s.sys.mshrs i).valid = true := by
  unfold MemSystem.accessFetch at h
  cases hc : memSystem.access s.sys true s.statCycles s.pipe.pc with
  | error e =>
    obtain rfl := access_error hc
    simp [hc, bind, Except.bind] at h
  | ok p =>
    obtain ⟨r,sys⟩ := p
    simp only [hc, bind, Except.bind] at h
    obtain ⟨-,⟨rfl,-⟩ | ⟨rfl,-⟩ | ⟨rfl,hall⟩⟩ := l1CacheAccess_cases (access_ok hc)
    · cases h
    · cases h
    · exact hall i

lemma backStages_error {s : State Memories} (hs : s.Settled)
    (h : memSystem.backStages s = .error .noFreeMshr) (i : Fin numMshr) :
    (s.sys.mshrs i).valid = true := by
  unfold MemSystem.backStages at h
  cases hm : memSystem.pipeStageMem { s with pipe := pipeStageWb s.l1FetchWaiting s.pipe } with
  | ok s₁ => simp [hm, bind, Except.bind] at h
  | error e =>
    simp only [hm, bind, Except.bind, Except.error.injEq] at h
    subst h
    unfold MemSystem.pipeStageMem at hm
    cases hop : (pipeStageWb s.l1FetchWaiting s.pipe).memOp with
    | none => simp [hop] at hm
    | some op =>
      simp only [hop] at hm
      split_ifs at hm
      rw [cleanupMem_eq (s := { s with pipe := pipeStageWb s.l1FetchWaiting s.pipe })
        hs.memCancelled] at hm
      exact accessMem_error hm i

lemma pipeStageFetch_error {s : State Memories}
    (h : memSystem.pipeStageFetch s = .error .noFreeMshr) :
    s.Fetches ∧ ∀ i, ((memSystem.cleanupFetch s).sys.mshrs i).valid = true := by
  unfold MemSystem.pipeStageFetch at h
  split_ifs at h with hd hw
  exact ⟨⟨by simpa using hd,by simpa using hw⟩,accessFetch_error h⟩

lemma queueMiss_error {t : Word} {s : MshrFile × MemController} {i : Fin numMshr} {e : Abort}
    (h : queueMiss t s i = .error e) : e = .memQueueFull := by
  obtain ⟨mshrs,mc⟩ := s
  simp only [queueMiss] at h
  split_ifs at h
  cases hf : mc.queue.findIdx? fun r => !r.valid with
  | some j => simp [hf] at h
  | none =>
    simp only [hf, Except.error.injEq] at h
    exact h.symm

/-- The controller only aborts on a full queue. -/
lemma memoryControllerCycle_error {mshrs : MshrFile} {mc : MemController} {l2cache : Cache}
    {t : Word} {e : Abort} (h : memoryControllerCycle mshrs mc l2cache t = .error e) :
    e = .memQueueFull := by
  unfold memoryControllerCycle at h
  cases hq : queueMisses (markFills mshrs t) mc t with
  | ok p => simp [hq, bind, Except.bind] at h
  | error e' =>
    simp only [hq, bind, Except.bind, Except.error.injEq] at h
    subst h
    exact Lib.foldlM_error (P := fun e => e = .memQueueFull) (f := queueMiss t)
      (fun _ _ _ => queueMiss_error) hq

/-- With the accounting no stage finds all MSHRs in use. -/
theorem tracked_never_out {s : State Memories} (hs : s.Settled) (h : s.misses.Tracked)
    (hk : ∀ s₁, memSystem.backStages s = .ok s₁ → s₁.KeepsCancelled) :
    memSystem.cycle s ≠ .error .noFreeMshr := by
  intro herr
  unfold MemSystem.cycle MemSystem.pipeCycle MemSystem.stages at herr
  have k := tracked_keptBy h hk
  cases hb : memSystem.backStages s with
  | error e =>
    simp only [hb, bind, Except.bind, Except.error.injEq] at herr
    subst herr
    obtain ⟨i,hi⟩ := h.exists_free
    rw [show (s.misses.mshrs i).valid = true from backStages_error hs hb i] at hi
    cases hi
  | ok s₁ =>
    simp only [hb, bind, Except.bind] at herr
    have h1 := k.backStages hs h hb
    cases hf : memSystem.pipeStageFetch s₁ with
    | error e =>
      simp only [hf, Except.error.injEq] at herr
      subst herr
      obtain ⟨hfetch,hall⟩ := pipeStageFetch_error hf
      obtain ⟨i,hi⟩ := (k.cleanupFetch hb h1 hfetch).exists_free
      rw [show ((memSystem.cleanupFetch s₁).misses.mshrs i).valid = true from hall i] at hi
      cases hi
    | ok s₂ =>
      simp only [hf] at herr
      cases hc : memSystem.memoryControllerCycle (MemSystem.recover s₂).sys
          (MemSystem.recover s₂).statCycles with
      | ok sys => simp [hc] at herr
      | error e =>
        simp only [hc, Except.error.injEq] at herr
        subst herr
        simp only [memSystem] at hc
        cases hcc : memoryControllerCycle (MemSystem.recover s₂).sys.mshrs
            (MemSystem.recover s₂).sys.controller (MemSystem.recover s₂).sys.l2cache
            (MemSystem.recover s₂).statCycles with
        | ok p => simp [hcc, bind, Except.bind] at hc
        | error e =>
          simp only [hcc, bind, Except.bind, Except.error.injEq] at hc
          subst hc
          cases memoryControllerCycle_error hcc

lemma initialMisses_tracked (mem : Memory) (regs : Reg → Word) (hi lo : Word) :
    (initialState initialMemories mem regs hi lo).misses.Tracked where
  distinct _ _ _ h := absurd h.valid Bool.false_ne_true
  owned _ h := absurd h Bool.false_ne_true

/-- As long as no fetch miss takes the place of a cancelled one that is still outstanding,
every MSHR in use is accounted for in every reached state, and no stage ever finds all of
them in use. -/
theorem mshrs_never_exhausted (mem : Memory) (regs : Reg → Word) (hi lo : Word) {n : ℕ}
    {s : State Memories}
    (h : memSystem.machine.Reaches (initialState initialMemories mem regs hi lo) n s)
    (hkeep : ∀ m ≤ n, ∀ s', memSystem.machine.Reaches
      (initialState initialMemories mem regs hi lo) m s' →
      ∀ s₁, memSystem.backStages s' = .ok s₁ → s₁.KeepsCancelled) :
    s.misses.Tracked ∧ memSystem.cycle s ≠ .error .noFreeMshr := by
  have hstep : s.misses.Tracked ∧ s.Settled := by
    induction n generalizing s with
    | zero =>
      obtain rfl := h
      exact ⟨initialMisses_tracked mem regs hi lo,initialState_settled _ _ _ _ _⟩
    | succ n ih =>
      obtain ⟨m,hm,-,hc⟩ := h
      obtain ⟨ht,hs⟩ := ih hm fun j hj => hkeep j (by omega)
      exact (tracked_keptBy ht (hkeep n (Nat.le_succ n) m hm)).cycle hs ht hc
  exact ⟨hstep.1,tracked_never_out hstep.2 hstep.1 (hkeep n le_rfl s h)⟩

/-- The test of the condition in the cycle that starts in s. -/
def State.isKeepsCancelled (s : State Memories) : Bool :=
  match memSystem.backStages s with
  | .ok s₁ =>
    let c := memSystem.cleanupFetch s₁
    s₁.pipe.decodeOp.isSome || s₁.l1FetchWaiting || !c.l1FetchCancelled ||
    (c.sys.l1CacheAccess true c.statCycles c.pipe.pc).1 == .cacheHit ||
    blockAddr c.pipe.pc == blockAddr c.l1FetchMissAddr ||
    (List.finRange numMshr).all fun i => !(c.sys.mshrs i).valid ||
      blockAddr (c.sys.mshrs i).address != blockAddr c.l1FetchMissAddr ||
      (c.l1MemWaiting && blockAddr (c.sys.mshrs i).address == blockAddr c.l1MemMissAddr)
  | .error _ => true

lemma State.keepsCancelled_of_test {s : State Memories} (h : s.isKeepsCancelled = true) :
    ∀ s₁, memSystem.backStages s = .ok s₁ → s₁.KeepsCancelled := by
  rintro s₁ hb hf _ rfl hcan hmiss i hi
  simp only [State.isKeepsCancelled, hb, hf.free, hf.running, hcan, Option.isSome_none,
    Bool.false_or, Bool.not_true, Bool.or_eq_true, Bool.and_eq_true, beq_iff_eq,
    List.all_eq_true, List.mem_finRange, true_implies, Bool.not_eq_true', bne_iff_ne] at h
  obtain (hhit | hsame) | hall := h
  · exact absurd hhit hmiss
  · exact .inl hsame
  · rcases hall i with (hv | hne) | ⟨hw,hb'⟩
    · rw [hi.valid] at hv
      cases hv
    · exact absurd hi.block hne
    · exact .inr ⟨hw,hi.valid,hb'⟩

/-- A fetch stage that waits has no access. -/
lemma State.keepsCancelled_of_wait {s : State Memories} (h : s.stagesWait = true) :
    ∀ s₁, memSystem.backStages s = .ok s₁ → s₁.KeepsCancelled := by
  intro s₁ hb hf
  obtain rfl := Except.ok.inj ((stagesWait_backStages h).symm.trans hb)
  simp [State.stagesWait, hf.free, hf.running] at h

/-- The miss of the block 0x00400020 is cancelled in cycle 268, is kept through a miss of the
memory stage, and is freed in cycle 634. -/
theorem cancelProgram_mshrs_never_exhausted : ∃ s s',
    memSystem.machine.Reaches (initialState initialMemories cancelProgram dataRegs 0 0) 269 s ∧
    s.l1FetchCancelled = true ∧ (s.sys.mshrs 0).Holds 0x00400020 ∧
    memSystem.machine.Reaches (initialState initialMemories cancelProgram dataRegs 0 0) 635 s' ∧
    s'.l1FetchCancelled = false ∧ (∀ i, (s'.sys.mshrs i).valid = false) ∧
    s'.misses.Tracked ∧ memSystem.cycle s' ≠ .error .noFreeMshr := by
  have hrun : passesVia State.isKeepsCancelled (fun s => s.l1FetchCancelled &&
      (s.sys.mshrs 0).valid && (s.sys.mshrs 0).address == 0x00400020 &&
      passesVia State.isKeepsCancelled (fun s' => !s'.l1FetchCancelled &&
        ((List.finRange numMshr).all fun i => !(s'.sys.mshrs i).valid) && s'.isKeepsCancelled)
        4 [(254,1),(102,3)] s) 8 []
      (waitingState cancelProgram dataRegs 0 0 true 261) = true := by
    decide +kernel
  have hlater : ∀ (s : State Memories) (j : ℕ),
      (∀ s₁, memSystem.backStages s = .ok s₁ → s₁.KeepsCancelled) →
      (s.later j).stalledFor 0 = true →
      ∀ s₁, memSystem.backStages (s.later j) = .ok s₁ → s₁.KeepsCancelled :=
    fun s j _ h => State.keepsCancelled_of_wait (stalled_stagesWait h)
  obtain ⟨s,hs,hq⟩ := along_of_first cancelProgram dataRegs 0 0 (by decide +kernel)
    (fun t => State.keepsCancelled_of_wait (waitingState_stagesWait _ _ _ _ t))
    (fun _ => State.keepsCancelled_of_test) hlater hrun
  simp only [Bool.and_eq_true, beq_iff_eq] at hq
  obtain ⟨⟨⟨hcan,hv⟩,ha⟩,hrest⟩ := hq
  obtain ⟨s',hs',hq'⟩ := along_of_passesVia (fun _ => State.keepsCancelled_of_test) hlater hrest
  simp only [Bool.and_eq_true, Bool.not_eq_true', List.all_eq_true, List.mem_finRange,
    true_implies] at hq'
  obtain ⟨⟨hfree,hnone⟩,hlast⟩ := hq'
  have hall := hs.trans _ hs'
  obtain ⟨htracked,hnot⟩ := mshrs_never_exhausted cancelProgram dataRegs 0 0 hall.reaches
    fun m hm x hx => by
      rcases Nat.lt_or_eq_of_le hm with hlt | rfl
      · exact hall.holds m hlt x hx
      · rw [hx.unique _ hall.reaches]
        exact State.keepsCancelled_of_test hlast
  exact ⟨s,s',hs.reaches,hcan,⟨hv,by rw [ha]⟩,hall.reaches,hfree,hnone,htracked,hnot⟩

/-- Sixteen branches that each cancel a fetch miss leave no MSHR for the next miss. -/
theorem branchProgram_exhausts_mshrs : ∃ s, memSystem.machine.Reaches
    (initialState initialMemories branchProgram (fun _ => 0) 0 0) 361 s ∧
    memSystem.cycle s = .error .noFreeMshr := by
  have hlead : memSystem.machine.leadsTo (fun s => match memSystem.cycle s with
      | .error .noFreeMshr => true
      | _ => false) 100 (waitingState branchProgram (fun _ => 0) 0 0 true 261) = true := by
    decide +kernel
  obtain ⟨s,hs,hp⟩ := reaches_of_leadsTo _ _ _ _ hlead
  refine ⟨s,hs,?_⟩
  cases hc : memSystem.cycle s with
  | ok s' => simp [hc] at hp
  | error e =>
    rw [hc] at hp
    cases e with
    | noFreeMshr => rfl
    | unalignedAddress => cases hp
    | memQueueFull => cases hp

end CaLabs.Lab2
