import CaLabs.Lab2.MissTracking
import CaLabs.Lab2.StageOps

/-! No stage waits for a fill that cannot come, as long as the two stages do not miss on one
block at the same time. -/
namespace CaLabs.Lab2
open Mips Pipeline

/-- A stage that waits has an MSHR for its block. -/
structure MissState.Served (b : MissState) : Prop where
  fetch : b.fetchWaiting = true → ∃ i, (b.mshrs i).Holds b.fetchAddr
  mem : b.memWaiting = true → ∃ i, (b.mshrs i).Holds b.memAddr

/-- In the state at the start of a cycle: the stages do not both wait for one block, and the
memory stage does not miss on the block of a fetch miss, awaited or cancelled, whose fill has
come. -/
structure State.MissesApart (s : State Memories) : Prop where
  waiting : s.l1MemWaiting = true → s.l1FetchWaiting = true →
    blockAddr s.l1MemMissAddr ≠ blockAddr s.l1FetchMissAddr
  missing : ∀ address, s.MemMisses address →
    s.l1FetchWaiting = true ∨ s.l1FetchCancelled = true →
    checkL1FillReady s.sys.mshrs s.l1FetchMissAddr = true →
    blockAddr address ≠ blockAddr s.l1FetchMissAddr

section Steps
variable {mshrs mshrs' : MshrFile} {address other : Word}

/-- Freeing one block leaves the MSHRs of the others. -/
lemma holds_freeMshr (h : ∃ i, (mshrs i).Holds other)
    (hne : blockAddr other ≠ blockAddr address) :
    ∃ i, (freeMshr mshrs address i).Holds other := by
  obtain ⟨i,hi⟩ := h
  exact ⟨i,by rwa [freeMshr_of_ne hi hne]⟩

lemma Requested.holds_other (h : Requested mshrs address mshrs')
    (ho : ∃ i, (mshrs i).Holds other) : ∃ i, (mshrs' i).Holds other := by
  obtain ⟨i,hi⟩ := ho
  exact ⟨i,by rwa [h.of_valid hi.valid]⟩

end Steps

/-- The fetch stage frees no block that the memory stage waits for: the memory stage takes its
fill first, so that only a miss of the same cycle could meet one that has come. -/
lemma freesFetch_apart {s s₁ : State Memories} (hp : s.Placed) (ha : s.MissesApart)
    (hb : memSystem.backStages s = .ok s₁) (hf : s₁.freesFetch = true)
    (hw : s₁.l1MemWaiting = true) :
    blockAddr s₁.l1MemMissAddr ≠ blockAddr s₁.l1FetchMissAddr := by
  simp only [State.freesFetch, Bool.and_eq_true, Bool.or_eq_true] at hf
  obtain ⟨⟨-,hfetch⟩,hr⟩ := hf
  change s₁.misses.fetchWaiting = true ∨ s₁.misses.fetchCancelled = true at hfetch
  change checkL1FillReady s₁.misses.mshrs s₁.misses.fetchAddr = true at hr
  change s₁.misses.memWaiting = true at hw
  change blockAddr s₁.misses.memAddr ≠ blockAddr s₁.misses.fetchAddr
  rcases backStages_cases hp.settled hb with ⟨hno,he⟩ | ⟨-,-,he⟩ | ⟨address,mshrs,hm,hreq,he⟩
  · rw [he] at hfetch hr hw ⊢
    intro hsame
    obtain ⟨op,hop,-⟩ := hp.mem hw
    have hready : checkL1FillReady s.sys.mshrs s.l1MemMissAddr = true :=
      (checkL1FillReady_congr hsame).trans hr
    have hwait : s.l1MemWaiting = true := hw
    simp only [State.freesMem, hop, hwait, hready, Option.isSome_some, Bool.true_or,
      Bool.and_self] at hno
    cases hno
  · rw [he] at hw
    cases hw
  · rw [he] at hfetch hr ⊢
    intro hsame
    have hready := hreq.ready ((checkL1FillReady_congr hsame).trans hr)
    exact ha.missing address hm hfetch ((checkL1FillReady_congr hsame).symm.trans hready) hsame

lemma served_keptBy {s : State Memories} (h : s.misses.Served) (hp : s.Placed)
    (ha : s.MissesApart) : KeptBy MissState.Served s where
  fillMem hw _ := ⟨fun hf => holds_freeMshr (h.fetch hf) (ha.waiting hw hf).symm,
    fun hw' => (by cases hw')⟩
  missMem _ _ _ hr := ⟨fun hw => hr.holds_other (h.fetch hw),fun _ => hr.holds⟩
  fillFetch s₁ hb h _ hf := ⟨fun hw => (by cases hw),
    fun hw => holds_freeMshr (h.mem hw) (freesFetch_apart hp ha hb hf hw)⟩
  dropFetch s₁ hb h hfetch hf := ⟨fun hw => absurd (hw.symm.trans hfetch.running) (by decide),
    fun hw => holds_freeMshr (h.mem hw) (freesFetch_apart hp ha hb hf hw)⟩
  missFetch _ _ _ _ _ h _ hr := ⟨fun _ => hr.holds,fun hw => hr.holds_other (h.mem hw)⟩
  cancelFetch _ h := ⟨fun hw => (by cases hw),h.mem⟩
  controller b mshrs _ _ _ h hc := by
    have hs := memoryControllerCycle_sameUse hc
    refine ⟨fun hw => ?_,fun hw => ?_⟩
    · obtain ⟨i,hi⟩ := h.fetch hw
      exact ⟨i,(hs i).holds.mpr hi⟩
    · obtain ⟨i,hi⟩ := h.mem hw
      exact ⟨i,(hs i).holds.mpr hi⟩

/-- As long as the two stages do not miss on one block at the same time, a stage that waits at
the end of a cycle has an MSHR for its block. -/
theorem waiting_stages_served (mem : Memory) (regs : Reg → Word) (hi lo : Word) {n : ℕ}
    {s : State Memories}
    (h : memSystem.machine.Reaches (initialState initialMemories mem regs hi lo) n s)
    (hapart : ∀ m < n, ∀ s', memSystem.machine.Reaches
      (initialState initialMemories mem regs hi lo) m s' → s'.MissesApart) :
    s.misses.Served := by
  induction n generalizing s with
  | zero =>
    obtain rfl := h
    exact ⟨fun hw => (by cases hw),fun hw => (by cases hw)⟩
  | succ n ih =>
    obtain ⟨m,hm,-,hc⟩ := h
    have hserved := ih hm fun j hj => hapart j (by omega)
    have hp := reaches_placed mem regs hi lo hm
    exact ((served_keptBy hserved hp (hapart n (Nat.lt_succ_self n) m hm)).cycle hp.settled
      hserved hc).1

/-- The test of the condition. -/
def State.isMissesApart (s : State Memories) : Bool :=
  !(s.l1MemWaiting && s.l1FetchWaiting && blockAddr s.l1MemMissAddr == blockAddr s.l1FetchMissAddr)
  && match s.pipe.memOp with
  | none => true
  | some op => s.l1MemWaiting || !op.isMem ||
    !((s.l1FetchWaiting || s.l1FetchCancelled) &&
      checkL1FillReady s.sys.mshrs s.l1FetchMissAddr &&
      blockAddr (wordOf op.memAddr) == blockAddr s.l1FetchMissAddr) ||
    (s.sys.l1CacheAccess false s.statCycles (wordOf op.memAddr)).1 == .cacheHit

lemma State.missesApart_of_test {s : State Memories} (h : s.isMissesApart = true) :
    s.MissesApart := by
  rw [State.isMissesApart, Bool.and_eq_true] at h
  refine ⟨fun hm hf hsame => ?_,?_⟩
  · simp [hm, hf, hsame] at h
  · rintro _ ⟨hrun,⟨op,hop,hmem,rfl⟩,hmiss⟩ hf hr hsame
    rw [← Bool.or_eq_true] at hf
    simp [hop, hrun, hmem, hf, hr, hsame, hmiss] at h

/-- While nothing moves there is no new miss. -/
lemma State.MissesApart.later {s : State Memories} {j : ℕ} (h : s.MissesApart)
    (hst : (s.later j).stagesWait = true) : (s.later j).MissesApart := by
  refine ⟨h.waiting,?_⟩
  rintro a ⟨hrun,⟨op,hop,-⟩,-⟩
  simp [State.stagesWait, hop, hrun] at hst

/-- A load from the data segment, one instruction before the end of the first block. -/
def loadProgram : Memory := textWords fun offset => if offset = 0x18 then 0x8D090000 else 0

/-- In cycle 273 both stages wait, the fetch stage for the block 0x00400020; in the next one the
memory stage has its fill and the fetch stage still waits. -/
theorem loadProgram_waiting_stages_served : ∃ s s',
    memSystem.machine.Reaches (initialState initialMemories loadProgram dataRegs 0 0) 273 s ∧
    s.l1MemWaiting = true ∧ s.l1FetchWaiting = true ∧ s.misses.Served ∧
    memSystem.machine.Reaches (initialState initialMemories loadProgram dataRegs 0 0) 274 s' ∧
    s'.l1MemWaiting = false ∧ s'.l1FetchWaiting = true ∧ s'.misses.Served := by
  have hrun : passesVia State.isMissesApart (fun s => s.l1MemWaiting && s.l1FetchWaiting &&
      memSystem.machine.passes State.isMissesApart
        (fun s' => !s'.l1MemWaiting && s'.l1FetchWaiting) 1 s) 12 []
      (waitingState loadProgram dataRegs 0 0 true 261) = true := by
    decide +kernel
  obtain ⟨s,hs,hq⟩ := along_of_first (P := State.MissesApart) loadProgram dataRegs 0 0
    (by decide +kernel)
    (fun t => ⟨fun hw => (by cases hw),fun a ⟨_,⟨op,hop,_⟩,_⟩ => (by cases hop)⟩)
    (fun _ => State.missesApart_of_test) (fun _ _ h hst => h.later (stalled_stagesWait hst)) hrun
  simp only [Bool.and_eq_true] at hq
  obtain ⟨s',hs',hq'⟩ := memSystem.machine.along_of_passes hq.2
  rw [Bool.and_eq_true, Bool.not_eq_true'] at hq'
  have hall : memSystem.machine.Along State.MissesApart
      (initialState initialMemories loadProgram dataRegs 0 0) 274 s' :=
    hs.trans _ ⟨hs'.reaches,fun m hm x hx => State.missesApart_of_test (hs'.holds m hm x hx)⟩
  exact ⟨s,s',hs.reaches,hq.1.1,hq.1.2,
    waiting_stages_served loadProgram dataRegs 0 0 hs.reaches hs.holds,hall.reaches,hq'.1,hq'.2,
    waiting_stages_served loadProgram dataRegs 0 0 hall.reaches hall.holds⟩

/-- A load from the block that the fetch stage waits for takes the only fill of that block. -/
theorem loadTextProgram_starves_fetch : ∃ s, memSystem.machine.Reaches
    (initialState initialMemories loadTextProgram loadTextRegs 0 0) 279 s ∧
    ¬ s.misses.Served := by
  have hlead : memSystem.machine.leadsTo (fun s => s.l1FetchWaiting &&
      (findMshrForAddress s.sys.mshrs s.l1FetchMissAddr).isNone) 18
      (waitingState loadTextProgram loadTextRegs 0 0 true 261) = true := by decide +kernel
  obtain ⟨s,hs,hp⟩ := reaches_of_leadsTo _ _ _ _ hlead
  rw [Bool.and_eq_true] at hp
  refine ⟨s,hs,fun hserved => ?_⟩
  obtain ⟨i,hi⟩ := hserved.fetch hp.1
  exact findMshrForAddress_none (Option.isNone_iff_eq_none.mp hp.2) i hi

end CaLabs.Lab2
