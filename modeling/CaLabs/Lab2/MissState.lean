import CaLabs.Lab2.Mshr

/-! A cycle of lab 2 as the misses see it: the caches' contents are left open, so every access
may hit or miss, and the pipeline only decides which stage gets to its access. -/
namespace CaLabs.Lab2
open Mips Pipeline

/-- The MSHRs, the controller and what the two stages remember of their misses. -/
structure MissState where
  mshrs : MshrFile
  controller : MemController
  cycle : Word
  fetchAddr : Word
  fetchWaiting : Bool
  fetchCancelled : Bool
  memAddr : Word
  memWaiting : Bool
  memCancelled : Bool

/-- What a state of the simulator is for its misses. -/
def State.misses (s : State Memories) : MissState where
  mshrs := s.sys.mshrs
  controller := s.sys.controller
  cycle := s.statCycles
  fetchAddr := s.l1FetchMissAddr
  fetchWaiting := s.l1FetchWaiting
  fetchCancelled := s.l1FetchCancelled
  memAddr := s.l1MemMissAddr
  memWaiting := s.l1MemWaiting
  memCancelled := s.l1MemCancelled

namespace MissState

/-- The fill that the memory stage waits for has come. -/
def fillMem (b : MissState) : MissState :=
  { b with mshrs := freeMshr b.mshrs b.memAddr, memWaiting := false, memAddr := 0 }

def missMem (b : MissState) (address : Word) (mshrs : MshrFile) : MissState :=
  { b with mshrs := mshrs, memWaiting := true, memAddr := address }

/-- The fill that the fetch stage waits for has come. -/
def fillFetch (b : MissState) : MissState :=
  { b with mshrs := freeMshr b.mshrs b.fetchAddr, fetchWaiting := false, fetchAddr := 0 }

/-- The fill of a cancelled fetch miss has come. -/
def dropFetch (b : MissState) : MissState :=
  { b with mshrs := freeMshr b.mshrs b.fetchAddr, fetchCancelled := false, fetchAddr := 0 }

def missFetch (b : MissState) (address : Word) (mshrs : MshrFile) : MissState :=
  { b with mshrs := mshrs, fetchWaiting := true, fetchAddr := address }

/-- A branch recovery cancels the miss of the fetch stage. -/
def cancelFetch (b : MissState) : MissState :=
  { b with fetchCancelled := b.fetchCancelled || b.fetchWaiting, fetchWaiting := false }

end MissState

/-- The memory stage is about to call free_mshr. -/
def State.freesMem (s : State Memories) : Bool :=
  s.pipe.memOp.isSome && (s.l1MemWaiting || s.l1MemCancelled) &&
    checkL1FillReady s.sys.mshrs s.l1MemMissAddr

/-- The fetch stage is about to call free_mshr. -/
def State.freesFetch (s : State Memories) : Bool :=
  s.pipe.decodeOp.isNone && (s.l1FetchWaiting || s.l1FetchCancelled) &&
    checkL1FillReady s.sys.mshrs s.l1FetchMissAddr

section Stages
variable {s s' : State Memories}

lemma cleanupMem_eq (h : s.l1MemCancelled = false) : memSystem.cleanupMem s = s := by
  simp only [MemSystem.cleanupMem, h, Bool.false_and, Bool.false_eq_true, if_false]

lemma access_ok {sys sys' : Memories} {isIcache : Bool} {t address : Word} {r : CacheAccessResult}
    (h : memSystem.access sys isIcache t address = .ok (r,sys')) :
    sys.l1CacheAccess isIcache t address = (r,sys') := by
  unfold MemSystem.access at h
  split_ifs at h
  exact Except.ok.inj h

/-- The memory stage misses on the address in the cycle that starts in s. -/
structure State.MemMisses (s : State Memories) (address : Word) : Prop where
  running : s.l1MemWaiting = false
  op : ∃ op, s.pipe.memOp = some op ∧ op.isMem = true ∧ address = wordOf op.memAddr
  misses : (s.sys.l1CacheAccess false s.statCycles address).1 ≠ .cacheHit

lemma State.freesMem_of_running (hcan : s.l1MemCancelled = false) (hw : s.l1MemWaiting = false) :
    s.freesMem = false := by
  simp only [State.freesMem, hcan, hw, Bool.or_self, Bool.and_false, Bool.false_and]

/-- The memory stage waits or passes, takes its fill, or misses. -/
theorem pipeStageMem_cases (hcan : s.l1MemCancelled = false) (h : memSystem.MemStage s s') :
    (s.freesMem = false ∧ s'.misses = s.misses) ∨
    (s.l1MemWaiting = true ∧ s.freesMem = true ∧ s'.misses = s.misses.fillMem) ∨
    (∃ address mshrs, s.MemMisses address ∧ Requested s.sys.mshrs address mshrs ∧
      s'.misses = s.misses.missMem address mshrs) := by
  have hclean := cleanupMem_eq hcan
  cases h with
  | empty hop => exact .inl ⟨by simp only [State.freesMem, hop, Option.isSome_none,
      Bool.false_and],rfl⟩
  | filled hop hw hr =>
    refine .inr (.inl ⟨hw,?_,rfl⟩)
    have hready : checkL1FillReady s.sys.mshrs s.l1MemMissAddr = true := hr
    simp only [State.freesMem, hop, hw, hready, Option.isSome_some, Bool.true_or, Bool.and_self]
  | waits hop hw hr =>
    have hready : checkL1FillReady s.sys.mshrs s.l1MemMissAddr = false :=
      Bool.eq_false_of_not_eq_true hr
    exact .inl ⟨by simp only [State.freesMem, hready, Bool.and_false],rfl⟩
  | missed hop hw hmem ha =>
    rw [hclean] at ha ⊢
    have hacc := access_ok ha
    obtain ⟨hctl,⟨hr,-⟩ | ⟨-,hm⟩ | ⟨hr,-⟩⟩ := l1CacheAccess_cases hacc
    · cases hr
    · exact .inr (.inr ⟨_,_,⟨hw,⟨_,hop,hmem,rfl⟩,by rw [hacc]; simp⟩,hm,
        by simp only [State.misses, MissState.missMem, hctl]⟩)
    · cases hr
  | hit hop hw ha =>
    rw [hclean] at ha ⊢
    obtain ⟨hctl,⟨-,hm⟩ | ⟨hr,-⟩ | ⟨hr,-⟩⟩ := l1CacheAccess_cases (access_ok ha)
    · exact .inl ⟨State.freesMem_of_running hcan hw,by simp only [State.misses, hm, hctl]⟩
    · cases hr
    · cases hr
  | passed hop hw =>
    rw [hclean]
    exact .inl ⟨State.freesMem_of_running hcan hw,rfl⟩

/-- The cleanup does nothing, or it drops the cancelled miss. -/
lemma cleanupFetch_cases (hd : s.pipe.decodeOp = none) :
    memSystem.cleanupFetch s = s ∨ (s.freesFetch = true ∧
      (memSystem.cleanupFetch s).misses = s.misses.dropFetch) := by
  unfold MemSystem.cleanupFetch
  split_ifs with h
  · rw [Bool.and_eq_true] at h
    have hr : checkL1FillReady s.sys.mshrs s.l1FetchMissAddr = true := h.2
    refine .inr ⟨?_,?_⟩
    · simp only [State.freesFetch, hd, h.1, hr, Option.isNone_none, Bool.or_true, Bool.and_self]
    · simp only [State.misses, MissState.dropFetch, memSystem]
  · exact .inl rfl

/-- The fetch stage gets to its access. -/
structure State.Fetches (s : State Memories) : Prop where
  free : s.pipe.decodeOp = none
  running : s.l1FetchWaiting = false

/-- The access of the fetch stage does not hit. -/
structure State.FetchMisses (s : State Memories) : Prop extends s.Fetches where
  misses : ((memSystem.cleanupFetch s).sys.l1CacheAccess true
    (memSystem.cleanupFetch s).statCycles (memSystem.cleanupFetch s).pipe.pc).1 ≠ .cacheHit

/-- The fetch stage waits, takes its fill, or gets to its access after the cleanup, which hits
or misses. -/
theorem pipeStageFetch_cases (h : memSystem.FetchStage s s') :
    (s.freesFetch = false ∧ s'.misses = s.misses) ∨
    (s.l1FetchWaiting = true ∧ s.freesFetch = true ∧ s'.misses = s.misses.fillFetch) ∨
    (s.Fetches ∧ ∃ s₁, s₁ = memSystem.cleanupFetch s ∧ (s'.misses = s₁.misses ∨
      (s.FetchMisses ∧ ∃ mshrs, Requested s₁.sys.mshrs s₁.pipe.pc mshrs ∧
        s'.misses = s₁.misses.missFetch s₁.pipe.pc mshrs))) := by
  cases h with
  | blocked hop => exact .inl ⟨by simp only [State.freesFetch, hop, Option.isNone_some,
      Bool.false_and],rfl⟩
  | filled hop hw hr =>
    refine .inr (.inl ⟨hw,?_,rfl⟩)
    have hready : checkL1FillReady s.sys.mshrs s.l1FetchMissAddr = true := hr
    simp only [State.freesFetch, hop, hw, hready, Option.isNone_none, Bool.true_or, Bool.and_self]
  | waits hop hw hr =>
    have hready : checkL1FillReady s.sys.mshrs s.l1FetchMissAddr = false :=
      Bool.eq_false_of_not_eq_true hr
    exact .inl ⟨by simp only [State.freesFetch, hready, Bool.and_false],rfl⟩
  | missed hop hw ha =>
    have hacc := access_ok ha
    obtain ⟨hctl,⟨hr,-⟩ | ⟨-,hm⟩ | ⟨hr,-⟩⟩ := l1CacheAccess_cases hacc
    · cases hr
    · refine .inr (.inr ⟨⟨hop,hw⟩,_,rfl,.inr ⟨⟨⟨hop,hw⟩,by rw [hacc]; simp⟩,_,hm,?_⟩⟩)
      simp only [State.misses, MissState.missFetch, hctl]
    · cases hr
  | hit hop hw ha =>
    obtain ⟨hctl,⟨-,hm⟩ | ⟨hr,-⟩ | ⟨hr,-⟩⟩ := l1CacheAccess_cases (access_ok ha)
    · exact .inr (.inr ⟨⟨hop,hw⟩,_,rfl,.inl (by simp only [State.misses, hm, hctl])⟩)
    · cases hr
    · cases hr

/-- Between two cycles no branch recovery is left over, and as a taken branch flushes three
stages only, no miss of the memory stage is ever cancelled. -/
structure State.Settled (s : State Memories) : Prop where
  recovered : s.pipe.branchRecover = false
  memCancelled : s.l1MemCancelled = false

lemma pipeStageWb_later (waiting : Bool) (p : PipeState) :
    (pipeStageWb waiting p).memOp = p.memOp ∧
      (pipeStageWb waiting p).branchRecover = p.branchRecover := by
  unfold pipeStageWb
  cases p.wbOp with
  | none => exact ⟨rfl,rfl⟩
  | some op =>
    dsimp only
    split_ifs <;> exact ⟨rfl,rfl⟩

/-- The stages before the fetch stage do to the misses what the memory stage does. -/
lemma backStages_cases (hs : s.Settled) (h : memSystem.backStages s = .ok s') :
    (s.freesMem = false ∧ s'.misses = s.misses) ∨
    (s.l1MemWaiting = true ∧ s.freesMem = true ∧ s'.misses = s.misses.fillMem) ∨
    (∃ address mshrs, s.MemMisses address ∧ Requested s.sys.mshrs address mshrs ∧
      s'.misses = s.misses.missMem address mshrs) := by
  obtain ⟨s₁,hm,rfl⟩ := MemSystem.backStages_ok h
  have hfrees : State.freesMem { s with pipe := pipeStageWb s.l1FetchWaiting s.pipe } =
      s.freesMem := by
    simp only [State.freesMem, (pipeStageWb_later _ _).1]
  have hcases := pipeStageMem_cases
    (s := { s with pipe := pipeStageWb s.l1FetchWaiting s.pipe }) hs.memCancelled hm
  rw [hfrees] at hcases
  refine hcases.imp_right (Or.imp_right fun ⟨address,mshrs,⟨hw,hop,hmiss⟩,hr⟩ => ?_)
  rw [(pipeStageWb_later _ _).1] at hop
  exact ⟨address,mshrs,⟨hw,hop,hmiss⟩,hr⟩

/-- The recovery leaves the misses alone or cancels the one of the fetch stage. -/
lemma recover_cases (hflush : s.pipe.branchRecover = true → s.pipe.branchFlush = 3) :
    (MemSystem.recover s).misses = s.misses ∨
      (MemSystem.recover s).misses = s.misses.cancelFetch := by
  cases hb : s.pipe.branchRecover with
  | false =>
    left
    simp only [MemSystem.recover, State.misses, hb, Bool.false_and, Bool.or_false, Bool.not_false,
      Bool.and_true]
  | true =>
    right
    simp only [MemSystem.recover, State.misses, MissState.cancelFetch, hb, hflush hb,
      Bool.true_and, Bool.and_not_self]
    simp

end Stages

/-- What keeps a property of the misses through the stages of the cycle that starts in s. -/
structure KeptByStages (P : MissState → Prop) (s : State Memories) : Prop where
  fillMem : s.l1MemWaiting = true → s.freesMem = true → P s.misses.fillMem
  missMem : ∀ address mshrs, s.MemMisses address → Requested s.sys.mshrs address mshrs →
    P (s.misses.missMem address mshrs)
  fillFetch : ∀ s₁, memSystem.backStages s = .ok s₁ → P s₁.misses → s₁.l1FetchWaiting = true →
    s₁.freesFetch = true → P s₁.misses.fillFetch
  dropFetch : ∀ s₁, memSystem.backStages s = .ok s₁ → P s₁.misses → s₁.Fetches →
    s₁.freesFetch = true → P s₁.misses.dropFetch
  missFetch : ∀ s₁ s₂, memSystem.backStages s = .ok s₁ → s₁.FetchMisses →
    s₂ = memSystem.cleanupFetch s₁ → P s₂.misses →
    ∀ mshrs, Requested s₂.sys.mshrs s₂.pipe.pc mshrs → P (s₂.misses.missFetch s₂.pipe.pc mshrs)
  cancelFetch : ∀ b, P b → P b.cancelFetch

/-- What keeps a property of the misses through one cycle that starts in s. -/
structure KeptBy (P : MissState → Prop) (s : State Memories) : Prop extends KeptByStages P s where
  controller : ∀ b mshrs controller l2cache l2cache', P b →
    memoryControllerCycle b.mshrs b.controller l2cache b.cycle =
      .ok (mshrs,controller,l2cache') →
    P { b with mshrs := mshrs, controller := controller, cycle := b.cycle + 1 }

namespace KeptByStages
variable {P : MissState → Prop} {s s' : State Memories}

lemma backStages (k : KeptByStages P s) (hs : s.Settled) (h0 : P s.misses)
    (h : memSystem.backStages s = .ok s') : P s'.misses := by
  rcases backStages_cases hs h with ⟨-,he⟩ | ⟨hw,hf,he⟩ | ⟨address,mshrs,hm,hr,he⟩
  · rw [he]; exact h0
  · rw [he]; exact k.fillMem hw hf
  · rw [he]; exact k.missMem address mshrs hm hr

lemma cleanupFetch (k : KeptByStages P s) {s₁ : State Memories}
    (hb : memSystem.backStages s = .ok s₁) (h0 : P s₁.misses) (hfetch : s₁.Fetches) :
    P (memSystem.cleanupFetch s₁).misses := by
  rcases cleanupFetch_cases hfetch.free with he | ⟨hf,he⟩
  · rw [he]; exact h0
  · rw [he]; exact k.dropFetch s₁ hb h0 hfetch hf

lemma pipeStageFetch (k : KeptByStages P s) {s₁ : State Memories}
    (hb : memSystem.backStages s = .ok s₁) (h0 : P s₁.misses)
    (h : memSystem.pipeStageFetch s₁ = .ok s') : P s'.misses := by
  rcases pipeStageFetch_cases (MemSystem.pipeStageFetch_ok h) with
    ⟨-,he⟩ | ⟨hw,hf,he⟩ | ⟨hfetch,_,rfl,ha⟩
  · rw [he]; exact h0
  · rw [he]; exact k.fillFetch s₁ hb h0 hw hf
  · have hclean := k.cleanupFetch hb h0 hfetch
    rcases ha with he | ⟨hmiss,mshrs,hr,he⟩
    · rw [he]; exact hclean
    · rw [he]; exact k.missFetch s₁ _ hb hmiss rfl hclean mshrs hr

end KeptByStages

/-- The controller works on the misses alone. -/
lemma controllerCycle_ok {s : State Memories} {sys : Memories}
    (h : memSystem.memoryControllerCycle s.sys s.statCycles = .ok sys) :
    ∃ l2cache, memoryControllerCycle s.misses.mshrs s.misses.controller s.sys.l2cache
        s.misses.cycle = .ok (sys.mshrs,sys.controller,l2cache) ∧ sys.l2cache = l2cache := by
  simp only [memSystem] at h
  cases hc : memoryControllerCycle s.sys.mshrs s.sys.controller s.sys.l2cache s.statCycles with
  | error e => simp [hc, bind, Except.bind] at h
  | ok p =>
    obtain ⟨mshrs,controller,l2cache⟩ := p
    simp only [hc, bind, Except.bind, Except.ok.injEq] at h
    exact ⟨l2cache,by rw [← h]; exact hc,by rw [← h]⟩

/-- The stages free no MSHR whose fill has not come. -/
lemma pending_kept {s : State Memories} {i : Fin numMshr} (h : (s.sys.mshrs i).Pending) :
    KeptByStages (fun b => b.mshrs i = s.sys.mshrs i) s where
  fillMem _ hf := by
    simp only [State.freesMem, Bool.and_eq_true] at hf
    exact freeMshr_pending hf.2 h
  missMem _ _ _ hr := hr.of_valid h.valid
  fillFetch s₁ _ h₁ _ hf := by
    simp only [State.freesFetch, Bool.and_eq_true] at hf
    have hp : (s₁.misses.mshrs i).Pending := h₁.symm ▸ h
    exact (freeMshr_pending hf.2 hp).trans h₁
  dropFetch s₁ _ h₁ _ hf := by
    simp only [State.freesFetch, Bool.and_eq_true] at hf
    have hp : (s₁.misses.mshrs i).Pending := h₁.symm ▸ h
    exact (freeMshr_pending hf.2 hp).trans h₁
  missFetch _ s₂ _ _ _ h₂ _ hr := by
    have hp : (s₂.misses.mshrs i).Pending := h₂.symm ▸ h
    exact (hr.of_valid hp.valid).trans h₂
  cancelFetch _ h := h

/-- The state before the branch recovery of a settled cycle flushes three stages or none. -/
lemma flush_of_settled {s s₁ s₂ : State Memories} (hs : s.Settled)
    (hb : memSystem.backStages s = .ok s₁) (hf : memSystem.pipeStageFetch s₁ = .ok s₂)
    (h : s₂.pipe.branchRecover = true) : s₂.pipe.branchFlush = 3 := by
  obtain ⟨memGo,hm⟩ := MemSystem.backStages_elastic hb
  obtain ⟨fetchGo,hfe⟩ := MemSystem.pipeStageFetch_elastic hf
  rw [hm, elasticBack] at hfe
  rw [hfe] at h ⊢
  refine flush_before_recover fetchGo ?_ h
  rw [elasticMem_branchRecover, (pipeStageWb_later _ _).2, hs.recovered]

/-- The cancelled-flag of the memory stage through the stages. -/
lemma memCancelled_of_settled {s s₁ s₂ : State Memories} (hs : s.Settled)
    (hb : memSystem.backStages s = .ok s₁) (hf : memSystem.pipeStageFetch s₁ = .ok s₂) :
    s₂.l1MemCancelled = false := by
  have k : KeptByStages (fun b => b.memCancelled = false) s :=
    { fillMem := fun _ _ => hs.memCancelled
      missMem := fun _ _ _ _ => hs.memCancelled
      fillFetch := fun _ _ h _ _ => h
      dropFetch := fun _ _ h _ _ => h
      missFetch := fun _ _ _ _ _ h _ _ => h
      cancelFetch := fun _ h => h }
  exact k.pipeStageFetch hb (k.backStages hs hs.memCancelled hb) hf

/-- What every part of a cycle keeps holds when the controller is called. -/
theorem KeptByStages.stages {P : MissState → Prop} {s s' : State Memories}
    (k : KeptByStages P s)
    (hs : s.Settled) (h0 : P s.misses) (h : memSystem.stages s = .ok s') : P s'.misses := by
  obtain ⟨s₁,s₂,hb,hf,rfl⟩ := MemSystem.stages_ok h
  have h2 := k.pipeStageFetch hb (k.backStages hs h0 hb) hf
  obtain he | he := recover_cases (flush_of_settled hs hb hf)
  · rw [he]; exact h2
  · rw [he]; exact k.cancelFetch _ h2

/-- The invariant rule: what every part of a cycle keeps, the cycle keeps. -/
theorem KeptBy.cycle {P : MissState → Prop} {s s' : State Memories} (k : KeptBy P s)
    (hs : s.Settled) (h0 : P s.misses) (h : memSystem.cycle s = .ok s') :
    P s'.misses ∧ s'.Settled := by
  obtain ⟨s₃,sys,hstages,hc,rfl⟩ := MemSystem.cycle_ok h
  have h3 := k.stages hs h0 hstages
  obtain ⟨s₁,s₂,hb,hf,rfl⟩ := MemSystem.stages_ok hstages
  obtain ⟨l2cache,hcc,-⟩ := controllerCycle_ok hc
  refine ⟨k.controller _ _ _ _ _ h3 hcc,recoverBranch_branchRecover _,?_⟩
  have hcan : (s₂.pipe.branchRecover && (4 ≤ s₂.pipe.branchFlush)) = false := by
    cases hr : s₂.pipe.branchRecover with
    | false => rfl
    | true => rw [flush_of_settled hs hb hf hr]; decide
  have hold := memCancelled_of_settled hs hb hf
  simp only [MemSystem.recover, hold, hcan, Bool.false_and, Bool.or_false]

lemma cycle_settled {s s' : State Memories} (hs : s.Settled) (h : memSystem.cycle s = .ok s') :
    s'.Settled := by
  have k : KeptBy (fun _ => True) s :=
    { fillMem := fun _ _ => trivial
      missMem := fun _ _ _ _ => trivial
      fillFetch := fun _ _ _ _ _ => trivial
      dropFetch := fun _ _ _ _ _ => trivial
      missFetch := fun _ _ _ _ _ _ _ _ => trivial
      cancelFetch := fun _ _ => trivial
      controller := fun _ _ _ _ _ _ _ => trivial }
  exact (k.cycle hs trivial h).2

lemma initialState_settled (sys : Memories) (mem : Memory) (regs : Reg → Word) (hi lo : Word) :
    (initialState sys mem regs hi lo).Settled := ⟨rfl,rfl⟩

/-- The invariant rule over a run. -/
theorem KeptBy.reaches {P : MissState → Prop} {s₀ s : State Memories} {n : ℕ}
    (hs : s₀.Settled) (h0 : P s₀.misses) (h : memSystem.machine.Reaches s₀ n s)
    (k : ∀ m s, m < n → memSystem.machine.Reaches s₀ m s → KeptBy P s) :
    P s.misses ∧ s.Settled := by
  induction n generalizing s with
  | zero =>
    obtain rfl : s = s₀ := h
    exact ⟨h0,hs⟩
  | succ n ih =>
    obtain ⟨m,hm,-,hstep⟩ := h
    obtain ⟨hP,hset⟩ := ih hm fun j s hj => k j s (by omega)
    exact (k n m (Nat.lt_succ_self n) hm).cycle hset hP hstep

end CaLabs.Lab2
