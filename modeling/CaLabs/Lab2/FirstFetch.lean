import CaLabs.Lab2.Stalled

/-! The first fetch of every run: its request is issued to the DRAM in cycle 0 and the fill is
marked as done in cycle 260. -/
namespace CaLabs.Lab2
open Mips Pipeline

/-- The MSHR of the first fetch once its request has been issued. -/
def firstMshr : Mshr :=
  { address := 0x00400000, valid := true, fillReadyCycle := 260, isIcache := true }

/-- The controller once the first request has been issued. -/
def firstController : MemController where
  queue := (List.replicate 256 {}).set 0 { address := 0x00400000 }
  banks := Function.update (fun _ => {}) 0
    { reqStart := 0, openRow := 0x40, hasOpenRow := true, numCommands := 2 }

def firstMemories (done : Bool) : Memories :=
  { initialMemories with
    mshrs := Function.update (fun _ => {}) 0 { firstMshr with done := done }
    controller := firstController }

/-- The state at the start of cycle t while the first fetch waits. -/
def waitingState (mem : Memory) (regs : Reg → Word) (hi lo : Word) (done : Bool) (t : ℕ) :
    State Memories :=
  { initialState (firstMemories done) mem regs hi lo with
    l1FetchMissAddr := 0x00400000
    l1FetchWaiting := true
    statCycles := BitVec.ofNat 32 t }

section
variable (mem : Memory) (regs : Reg → Word) (hi lo : Word)

lemma waitingState_stagesWait (t : ℕ) :
    (waitingState mem regs hi lo false t).stagesWait = true := by
  have hready : checkL1FillReady (firstMemories false).mshrs 0x00400000 = false := by decide
  simp only [State.stagesWait, waitingState, initialState, initialPipe, hready]
  rfl

/-- A stage that waits with an empty pipeline changes nothing. -/
lemma waitingState_stages (t : ℕ) : memSystem.stages (waitingState mem regs hi lo false t) =
    .ok (waitingState mem regs hi lo false t) :=
  stagesWait_stages (waitingState_stagesWait mem regs hi lo t)

lemma firstController_idle : ∀ q ∈ firstController.queue, q.valid = false := by
  intro q hq
  rcases List.mem_or_eq_of_mem_set hq with h | rfl
  · rw [(List.mem_replicate.mp h).2]
  · rfl

lemma firstMemories_unqueued (done : Bool) (i : Fin numMshr) :
    isUnqueuedMiss ((firstMemories done).mshrs i) = false := by
  by_cases h : i = 0
  · subst h
    cases done <;> rfl
  · simp only [firstMemories, Function.update_of_ne h]
    rfl

/-- The fill is marked in cycle 260 and not before. -/
lemma markFills_firstMemories {t : ℕ} (ht : t ≤ 260) :
    markFills (firstMemories false).mshrs (BitVec.ofNat 32 t) =
      (firstMemories (decide (t = 260))).mshrs := by
  have hfill : fillIsReady { firstMshr with done := false } (BitVec.ofNat 32 t) =
      decide (t = 260) := by
    simp [fillIsReady, firstMshr]
    omega
  funext i
  by_cases h : i = 0
  · subst h
    simp only [markFills, firstMemories, Function.update_self, hfill]
    by_cases he : t = 260
    · simp only [he, decide_true, if_true]
    · simp only [he, decide_false, Bool.false_eq_true, if_false]
  · simp only [markFills, firstMemories, Function.update_of_ne h, fillIsReady, Bool.false_and,
      Bool.false_eq_true, if_false]

lemma firstMemories_cycle {t : ℕ} (ht : t ≤ 260) :
    memSystem.memoryControllerCycle (firstMemories false) (BitVec.ofNat 32 t) =
      .ok (firstMemories (decide (t = 260))) := by
  have hun := firstMemories_unqueued (decide (t = 260))
  have hc : (firstMemories false).controller = firstController := rfl
  simp only [memSystem, memoryControllerCycle, markFills_firstMemories ht, hc,
    queueMisses_idle hun, scheduleRequest, selectRequestToSchedule_idle firstController_idle,
    processCompletedFills_idle _ firstController_idle, bind, Except.bind]
  rfl

/-- One cycle of waiting. -/
theorem waitingState_cycle {t : ℕ} (ht : t ≤ 260) :
    memSystem.cycle (waitingState mem regs hi lo false t) =
      .ok (waitingState mem regs hi lo (decide (t = 260)) (t + 1)) := by
  have hs : memSystem.memoryControllerCycle (waitingState mem regs hi lo false t).sys
      (waitingState mem regs hi lo false t).statCycles =
      .ok (firstMemories (decide (t = 260))) := firstMemories_cycle ht
  have hstat : (BitVec.ofNat 32 t : Word) + 1 = BitVec.ofNat 32 (t + 1) := by
    rw [BitVec.ofNat_add]
    rfl
  simp only [MemSystem.cycle, MemSystem.pipeCycle, waitingState_stages, hs, bind, Except.bind]
  simp only [waitingState, initialState, hstat]

/-! The first cycle: the fetch stage misses in both caches and the controller issues the
request. -/

lemma initialCache_misses (capacity : Word) (numWays : BitVec 8) (set : ℕ) (tag : Word) :
    hitWay ((initialCache capacity numWays).sets set) tag = none := by
  have hblocks : ∀ b ∈ (initialCache capacity numWays).sets set, b.valid = false := by
    intro b hb
    unfold initialCache allocCache Cache.alloc at hb
    by_cases h0 : blockSize.toNat * numWays.toNat = 0
    · rw [if_pos h0] at hb
      cases hb
    · simp only [if_neg h0, Option.getD_some] at hb
      split_ifs at hb
      · obtain ⟨w,-,rfl⟩ := List.mem_map.mp hb
        rfl
      · cases hb
  refine List.findIdx?_eq_none_iff.mpr fun b hb => ?_
  rw [hblocks b hb, Bool.and_false]

/-- The state after the stages of the first cycle. -/
def missedState : State Memories :=
  { initialState initialMemories mem regs hi lo with
    sys := { initialMemories with
      mshrs := Function.update (fun _ => {}) 0
        { address := 0x00400000, valid := true, isIcache := true } }
    l1FetchMissAddr := 0x00400000
    l1FetchWaiting := true }

lemma initialState_stages : memSystem.stages (initialState initialMemories mem regs hi lo) =
    .ok (missedState mem regs hi lo) := by
  have hl1 := initialCache_misses icacheSize icacheWays
    ((initialCache icacheSize icacheWays).setOf 0x00400000)
    ((initialCache icacheSize icacheWays).tagOf 0x00400000)
  have hl2 := initialCache_misses l2cacheSize l2cacheWays
    ((initialCache l2cacheSize l2cacheWays).setOf 0x00400000)
    ((initialCache l2cacheSize l2cacheWays).tagOf 0x00400000)
  have hfind : findMshrForAddress (fun _ => {}) 0x00400000 = none := by decide
  have hfree : ((List.finRange numMshr).find? fun i : Fin numMshr =>
      !((fun _ => {} : MshrFile) i).valid) = some 0 := by decide
  have haccess : memSystem.access initialMemories true 0 0x00400000 =
      .ok (.cacheMissWait,(missedState mem regs hi lo).sys) := by
    have halign : WordAligned 0x00400000 := by decide
    simp only [MemSystem.access, halign, if_true, memSystem, Memories.l1CacheAccess,
      Memories.l1, initialMemories, hl1, hfind, l2CacheAccess, allocateMshr, hfree, hl2]
    rfl
  have hb : memSystem.backStages (initialState initialMemories mem regs hi lo) =
      .ok (initialState initialMemories mem regs hi lo) := rfl
  have hf : memSystem.pipeStageFetch (initialState initialMemories mem regs hi lo) =
      .ok (missedState mem regs hi lo) := by
    have hw : (initialState initialMemories mem regs hi lo).l1FetchWaiting = false := rfl
    have hd : (initialState initialMemories mem regs hi lo).pipe.decodeOp.isSome = false := rfl
    have hclean : memSystem.cleanupFetch (initialState initialMemories mem regs hi lo) =
        initialState initialMemories mem regs hi lo := rfl
    simp only [MemSystem.pipeStageFetch, hw, hd, hclean, MemSystem.accessFetch,
      Bool.false_eq_true, if_false, bind, Except.bind]
    rw [show memSystem.access (initialState initialMemories mem regs hi lo).sys true
      (initialState initialMemories mem regs hi lo).statCycles
      (initialState initialMemories mem regs hi lo).pipe.pc = _ from haccess]
    rfl
  simp only [MemSystem.stages, hb, hf, bind, Except.bind]
  rfl

/-- The request as it stands in the queue. -/
def firstRequest : MemRequest := { address := 0x00400000, valid := true }

/-- The controller with the first request queued. -/
def queuedController : MemController :=
  { initialMemories.controller with
    queue := initialMemories.controller.queue.set 0 firstRequest
    queueSize := 1 }

lemma missedState_queued : queueMisses (markFills (missedState mem regs hi lo).sys.mshrs 0)
    initialMemories.controller 0 =
    .ok (Function.update (fun _ => {}) 0
      { address := 0x00400000, valid := true, fillReadyCycle := 1, isIcache := true },
      queuedController) := by
  have hmark : markFills (missedState mem regs hi lo).sys.mshrs 0 =
      (missedState mem regs hi lo).sys.mshrs := by
    funext i
    by_cases h : i = 0
    · subst h
      rfl
    · simp only [markFills, missedState, Function.update_of_ne h, fillIsReady, Bool.false_and,
        Bool.false_eq_true, if_false]
  have honly : ∀ k, isUnqueuedMiss ((missedState mem regs hi lo).sys.mshrs k) = true →
      k = 0 := by
    intro k hk
    by_contra hne
    simp only [missedState, Function.update_of_ne hne] at hk
    cases hk
  rw [hmark, queueMisses_single (i := 0) (j := 0) rfl honly rfl]
  simp only [missedState, Function.update_idem, Function.update_self]
  rfl

lemma queuedController_selects : selectRequestToSchedule queuedController 0 =
    some (firstRequest,0) := by
  refine selectRequestToSchedule_single rfl (fun k r hk hv => ?_) ⟨rfl,by decide,by decide⟩
  by_contra hne
  have hmem : (List.replicate 256 ({} : MemRequest))[k]? = some r := by
    rw [← hk]
    exact (List.getElem?_set_ne (Ne.symm hne)).symm
  rw [(List.mem_replicate.mp (List.mem_of_getElem? hmem)).2] at hv
  cases hv

/-- The first cycle of every run. -/
theorem initialState_cycle : memSystem.cycle (initialState initialMemories mem regs hi lo) =
    .ok (waitingState mem regs hi lo false 1) := by
  have hmark : ∀ i, (Function.update (fun _ => {} : MshrFile) 0
      { address := 0x00400000, valid := true, fillReadyCycle := 1, isIcache := true } i).done =
      false := by
    intro i
    by_cases h : i = 0
    · subst h
      rfl
    · simp only [Function.update_of_ne h]
  have hcycle : memSystem.memoryControllerCycle (missedState mem regs hi lo).sys
      (missedState mem regs hi lo).statCycles = .ok (firstMemories false) := by
    have ht : (missedState mem regs hi lo).statCycles = 0 := rfl
    have hc : (missedState mem regs hi lo).sys.controller = initialMemories.controller := rfl
    have hsched : scheduleRequest (Function.update (fun _ => {}) 0
        { address := 0x00400000, valid := true, fillReadyCycle := 1, isIcache := true })
        queuedController 0 = ((firstMemories false).mshrs,firstController) := by
      simp only [scheduleRequest, queuedController_selects, issueDramRequest]
      rw [show firstRequest.mshr = 0 from rfl, Function.update_idem]
      rfl
    simp only [memSystem, memoryControllerCycle, ht, hc, missedState_queued, hsched, bind,
      Except.bind, processCompletedFills_idle _ firstController_idle]
    rfl
  simp only [MemSystem.cycle, MemSystem.pipeCycle, initialState_stages, hcycle, bind,
    Except.bind]
  rfl

/-- Every run waits for its first instruction until cycle 260. -/
theorem first_fetch_waits {n : ℕ} (hn : n ≤ 260) :
    memSystem.machine.Reaches (initialState initialMemories mem regs hi lo) (n + 1)
      (waitingState mem regs hi lo (decide (n = 260)) (n + 1)) := by
  induction n with
  | zero => exact ⟨_,rfl,rfl,initialState_cycle mem regs hi lo⟩
  | succ n ih =>
    have hlt : decide (n = 260) = false := decide_eq_false (by omega)
    have hr := ih (by omega)
    rw [hlt] at hr
    exact ⟨_,hr,rfl,waitingState_cycle mem regs hi lo hn⟩

/-- A test of a run that starts when the first fill has come. -/
lemma reaches_of_leadsTo {p : State Memories → Bool} {n : ℕ}
    (h : memSystem.machine.leadsTo p n (waitingState mem regs hi lo true 261) = true) :
    ∃ s, memSystem.machine.Reaches (initialState initialMemories mem regs hi lo) (261 + n) s ∧
      p s = true := by
  obtain ⟨s,hs,hp⟩ := memSystem.machine.leadsTo_reaches h
  exact ⟨s,Lib.Machine.Reaches.trans _ (first_fetch_waits mem regs hi lo le_rfl) hs,hp⟩

/-- A property of the start and of the waiting states, along the first 261 cycles. -/
theorem first_fetch_along {P : State Memories → Prop}
    (h0 : P (initialState initialMemories mem regs hi lo))
    (hw : ∀ t ≤ 260, P (waitingState mem regs hi lo false t)) :
    memSystem.machine.Along P (initialState initialMemories mem regs hi lo) 261
      (waitingState mem regs hi lo true 261) := by
  refine ⟨first_fetch_waits mem regs hi lo le_rfl,fun m hm x hx => ?_⟩
  cases m with
  | zero => exact (show x = _ from hx) ▸ h0
  | succ t =>
    have ht := first_fetch_waits mem regs hi lo (n := t) (by omega)
    rw [decide_eq_false (by omega : ¬ t = 260)] at ht
    exact hx.unique _ ht ▸ hw (t + 1) (by omega)

/-- The test of a run from its start, when the condition holds while the first fetch waits. -/
theorem along_of_first {p q : State Memories → Bool} {P : State Memories → Prop}
    (h0 : p (initialState initialMemories mem regs hi lo) = true)
    (hw : ∀ t, P (waitingState mem regs hi lo false t)) (hp : ∀ s, p s = true → P s)
    (hlater : ∀ s j, P s → (s.later j).stalledFor 0 = true → P (s.later j)) {n : ℕ}
    {pieces : List (ℕ × ℕ)}
    (h : passesVia p q n pieces (waitingState mem regs hi lo true 261) = true) :
    ∃ s, memSystem.machine.Along P (initialState initialMemories mem regs hi lo)
      (261 + cyclesVia n pieces) s ∧ q s = true := by
  obtain ⟨s,hs,hq⟩ := along_of_passesVia hp hlater h
  exact ⟨s,(first_fetch_along mem regs hi lo (hp _ h0) fun t _ => hw t).trans _ hs,hq⟩

/-- A chain of branches: the one at address 0x18 goes to 0x58, each at 0x58 modulo 0x100 goes
on to the next one, and all other instructions do nothing. -/
def branchProgram : Memory := fun r offset =>
  if r ≠ .text then 0
  else if offset = 24 then 0x0F
  else if offset % 256 = 0x58 then 0x3F
  else if offset = 27 ∨ offset % 256 = 0x5B then 0x10
  else 0

/-- The branch at address 0x18 goes to a load from the text segment at 0x58. -/
def loadTextProgram : Memory := fun r offset =>
  if r ≠ .text then 0
  else if offset = 24 then 0x0F
  else if offset = 27 then 0x10
  else if offset = 0x58 then 0x60
  else if offset = 0x5A then 0x09
  else if offset = 0x5B then 0x8D
  else 0

/-- Register 8 points to the start of the program. -/
def loadTextRegs : Reg → Word := fun r => if r = 8 then 0x00400000 else 0

/-- A branch to 0x14; the one at 0x18 leaves for a load from the data segment at 0x04 when the
fetch stage has just gone on to the next block. -/
def cancelProgram : Memory := textWords fun offset =>
  if offset = 0 then 0x10000004
  else if offset = 0x04 then 0x8D090000
  else if offset = 0x18 then 0x1000FFFA
  else 0

/-- A branch to 0x18; the one there leaves for a countdown loop at 0x08 when the fetch stage has
just gone on to the next block. A load from the data segment follows the loop. -/
def countdownProgram : Memory := textWords fun offset =>
  if offset = 0 then 0x10000005
  else if offset = 0x04 then 0x2421FFFF
  else if offset = 0x08 then 0x1420FFFE
  else if offset = 0x0C then 0x8D090000
  else if offset = 0x18 then 0x1000FFFB
  else 0

/-- The count, and a block of another bank than the first fetch. -/
def countdownRegs : Reg → Word := fun r =>
  if r = 1 then 11 else if r = 8 then 0x10000040 else 0

/-- Register 8 points to the data segment. -/
def dataRegs : Reg → Word := fun r => if r = 8 then 0x10000000 else 0

end
end CaLabs.Lab2
