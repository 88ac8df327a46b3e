import CaLabs.Lab2.MissTracking

/-! No block ever has two MSHRs, at any point of a cycle where they are searched or freed. -/
namespace CaLabs.Lab2
open Mips Pipeline

/-- The points of the cycle that starts in s at which a stage searches the MSHRs or frees one,
and the state that the controller gets. -/
inductive CallPoint (s : State Memories) : State Memories → Prop
  | memory : CallPoint s s
  | fetch {s₁} (hb : memSystem.backStages s = .ok s₁) : CallPoint s s₁
  | fetchAccess {s₁} (hb : memSystem.backStages s = .ok s₁) (hf : s₁.Fetches) :
      CallPoint s (memSystem.cleanupFetch s₁)
  | controller {s₁} (hst : memSystem.stages s = .ok s₁) : CallPoint s s₁

lemma MshrFile.Distinct.sameUse {mshrs mshrs' : MshrFile} (h : mshrs.Distinct)
    (hs : ∀ i, (mshrs i).SameUse (mshrs' i)) : mshrs'.Distinct :=
  fun i j address hi hj => h i j address ((hs i).holds.mp hi) ((hs j).holds.mp hj)

/-- A request is only made for a block that no MSHR holds, freeing ends uses, and the
controller does not touch them. -/
lemma distinct_keptBy {s : State Memories} (h : s.misses.mshrs.Distinct) :
    KeptBy (fun b => b.mshrs.Distinct) s where
  fillMem _ _ := h.free
  missMem _ _ _ hr := hr.distinct h
  fillFetch _ _ h _ _ := h.free
  dropFetch _ _ h _ _ := h.free
  missFetch _ _ _ _ _ h _ hr := hr.distinct h
  cancelFetch _ h := h
  controller _ _ _ _ _ h hc := h.sameUse (memoryControllerCycle_sameUse hc)

lemma CallPoint.distinct {s s' : State Memories} (hp : CallPoint s s') (hs : s.Settled)
    (h : s.misses.mshrs.Distinct) : s'.sys.mshrs.Distinct := by
  have k := distinct_keptBy h
  cases hp with
  | memory => exact h
  | fetch hb => exact k.backStages hs h hb
  | fetchAccess hb hf => exact k.cleanupFetch hb (k.backStages hs h hb) hf
  | controller hst => exact k.stages hs h hst

theorem reaches_distinct (mem : Memory) (regs : Reg → Word) (hi lo : Word) {n : ℕ}
    {s : State Memories}
    (h : memSystem.machine.Reaches (initialState initialMemories mem regs hi lo) n s) :
    s.misses.mshrs.Distinct ∧ s.Settled := by
  refine Lib.Machine.Reaches.invariant memSystem.machine
    (P := fun s => s.misses.mshrs.Distinct ∧ s.Settled) ?_ ?_ h
  · exact ⟨fun _ _ _ hi => absurd hi.valid Bool.false_ne_true,initialState_settled _ _ _ _ _⟩
  · rintro a b ⟨hd,hs⟩ - hc
    exact (distinct_keptBy hd).cycle hs hd hc

section Distinct
variable {mshrs : MshrFile} {address : Word} {i : Fin numMshr}

/-- The search finds the MSHR that holds the block. -/
lemma MshrFile.Distinct.find_iff (h : mshrs.Distinct) :
    findMshrForAddress mshrs address = some i ↔ (mshrs i).Holds address := by
  constructor
  · exact findMshrForAddress_some
  · intro hi
    cases hf : findMshrForAddress mshrs address with
    | none => exact absurd hi (findMshrForAddress_none hf i)
    | some j => rw [h j i address (findMshrForAddress_some hf) hi]

end Distinct

/-- At every point of a run no two MSHRs in use hold one block, so the search finds the one
that holds it and free_mshr ends the use of that one only, after which none holds the block. -/
theorem mshrs_hold_distinct_blocks (mem : Memory) (regs : Reg → Word) (hi lo : Word) {n : ℕ}
    {s s' : State Memories}
    (h : memSystem.machine.Reaches (initialState initialMemories mem regs hi lo) n s)
    (hp : CallPoint s s') :
    (∀ i j, (s'.sys.mshrs i).valid = true → (s'.sys.mshrs j).valid = true →
      blockAddr (s'.sys.mshrs i).address = blockAddr (s'.sys.mshrs j).address → i = j) ∧
    ∀ address, (∀ i, findMshrForAddress s'.sys.mshrs address = some i ↔
        (s'.sys.mshrs i).Holds address) ∧
      ∀ i, (s'.sys.mshrs i).Holds address →
        freeMshr s'.sys.mshrs address = Function.update s'.sys.mshrs i
          { s'.sys.mshrs i with valid := false, done := false } ∧
        ∀ j, ¬ (freeMshr s'.sys.mshrs address j).Holds address := by
  obtain ⟨hd,hs⟩ := reaches_distinct mem regs hi lo h
  have hd' := hp.distinct hs hd
  refine ⟨fun i j hvi hvj hb => ?_,fun address => ⟨fun i => hd'.find_iff,fun i hi => ?_⟩⟩
  · exact hd' i j _ ⟨hvi,rfl⟩ ⟨hvj,hb.symm⟩
  · exact ⟨freeMshr_eq (hd'.find_iff.mpr hi),fun j => hd'.freed⟩

/-- Two blocks are outstanding at once, the cancelled one and the branch target. Freeing one of
them leaves the other. -/
theorem branchProgram_mshrs_hold_distinct_blocks : ∃ s, memSystem.machine.Reaches
    (initialState initialMemories branchProgram (fun _ => 0) 0 0) 272 s ∧
    (s.sys.mshrs 0).Holds 0x00400020 ∧ (s.sys.mshrs 1).Holds 0x00400040 ∧
    findMshrForAddress s.sys.mshrs 0x00400044 = some 1 ∧
    (freeMshr s.sys.mshrs 0x00400044 0).Holds 0x00400020 ∧
    ∀ i, ¬(freeMshr s.sys.mshrs 0x00400044 i).Holds 0x00400044 := by
  have hlead : memSystem.machine.leadsTo (fun s =>
      ((s.sys.mshrs 0).valid && blockAddr (s.sys.mshrs 0).address == 0x00400020) &&
      ((s.sys.mshrs 1).valid && blockAddr (s.sys.mshrs 1).address == 0x00400040)) 11
      (waitingState branchProgram (fun _ => 0) 0 0 true 261) = true := by decide +kernel
  obtain ⟨s,hs,hp⟩ := reaches_of_leadsTo _ _ _ _ hlead
  simp only [Bool.and_eq_true, beq_iff_eq] at hp
  have hfirst : (s.sys.mshrs 0).Holds 0x00400020 := ⟨hp.1.1,hp.1.2⟩
  have hsecond : (s.sys.mshrs 1).Holds 0x00400044 := ⟨hp.2.1,hp.2.2⟩
  obtain ⟨-,hfind⟩ := mshrs_hold_distinct_blocks branchProgram (fun _ => 0) 0 0 hs .memory
  obtain ⟨hfree,hnone⟩ := (hfind 0x00400044).2 1 hsecond
  refine ⟨s,hs,hfirst,⟨hp.2.1,hp.2.2⟩,((hfind 0x00400044).1 1).mpr hsecond,?_,hnone⟩
  rw [hfree, Function.update_of_ne (by decide)]
  exact hfirst

end CaLabs.Lab2
