import CaLabs.Lab2.DramFill
import CaLabs.Lab2.DramTiming

/-! When a miss of the second-level cache is marked as done: as long as every new miss is issued
in the cycle in which it is queued, not before its own DRAM request has completed. -/
namespace CaLabs.Lab2
open Mips Pipeline

/-- The MSHR is a new miss of the second-level cache when the controller runs in cycle a. -/
def MissedAt (s₀ : State Memories) (a : ℕ) (i : Fin numMshr) (req : MemRequest) : Prop :=
  ∃ s s₁, memSystem.machine.Reaches s₀ a s ∧ memSystem.stages s = .ok s₁ ∧
    isUnqueuedMiss (s₁.sys.mshrs i) = true ∧ req = requestFor s₁.sys.mshrs i s₁.statCycles

/-- In the first n cycles no new miss is marked as done before its own request, with its k
commands, its transfer and the way back, has completed. -/
def NoEarlyFill (s₀ : State Memories) (n : ℕ) : Prop :=
  ∀ a d i req, d < n → MissedAt s₀ a i req → a ≤ d → MarkedAt s₀ a d i →
    ∃ c k, a ≤ c ∧ IssuedAt s₀ c req k ∧ 1 ≤ k ∧ k ≤ 3 ∧ c + 100 * k + 50 + 10 ≤ d

/-- The controller gets at most one new miss, which can be issued at once and completes before
the cycle counter wraps around. -/
structure Prompt (mshrs : MshrFile) (mc : MemController) (t : Word) : Prop where
  single : ∀ i j, isUnqueuedMiss (mshrs i) = true → isUnqueuedMiss (mshrs j) = true → i = j
  schedulable : ∀ i, isUnqueuedMiss (mshrs i) = true →
    isRequestSchedulable mc (mshrs i).address t = true
  bounded : ∀ i, isUnqueuedMiss (mshrs i) = true →
    t.toNat + 100 * numCommands mc (mshrs i).address + 60 < 2 ^ 32

/-- The controller of the cycle that starts in s gets no more than it can issue. -/
def State.Prompt (s : State Memories) : Prop :=
  ∀ s₁, memSystem.stages s = .ok s₁ →
    Lab2.Prompt s₁.sys.mshrs s₁.sys.controller s₁.statCycles

/-- No request waits, and there is place for one. -/
structure EmptyQueue (mc : MemController) : Prop where
  invalid : ∀ r ∈ mc.queue, r.valid = false
  place : 0 < mc.queue.length

section Controller
variable {mshrs mshrs' : MshrFile} {mc mc' : MemController} {l2cache l2cache' : Cache} {t : Word}
  {i : Fin numMshr}

lemma markFills_of_unqueued (h : isUnqueuedMiss (mshrs i) = true) :
    markFills mshrs t i = mshrs i := by
  have hzero : (mshrs i).fillReadyCycle = 0 := by
    simp only [isUnqueuedMiss, Bool.and_eq_true, beq_iff_eq] at h
    exact h.2
  simp [markFills, fillIsReady, hzero]

/-- The queue with the request of the only new miss. -/
lemma issue_prompt (he : EmptyQueue mc) (hp : Prompt mshrs mc t)
    (hi : isUnqueuedMiss (mshrs i) = true) :
    queueMisses (markFills mshrs t) mc t =
      .ok (Function.update (markFills mshrs t) i { mshrs i with fillReadyCycle := 1 },
        { mc with
          queue := mc.queue.set 0 (requestFor mshrs i t)
          queueSize := mc.queueSize + 1 }) ∧
    selectRequestToSchedule { mc with
        queue := mc.queue.set 0 (requestFor mshrs i t)
        queueSize := mc.queueSize + 1 } t = some (requestFor mshrs i t,0) := by
  have hmark := markFills_of_unqueued (t := t) hi
  have hfirst : (mc.queue.findIdx? fun r => !r.valid) = some 0 := by
    rw [List.findIdx?_eq_some_iff_getElem]
    refine ⟨he.place,?_,fun j hj => absurd hj (Nat.not_lt_zero j)⟩
    rw [he.invalid _ (List.getElem_mem he.place)]
    rfl
  constructor
  · have hq := queueMisses_single (t := t) (by rw [hmark]; exact hi)
      (fun k hk => hp.single k i (isUnqueuedMiss_markFills hk).2 hi) hfirst
    rw [hq, hmark]
    simp only [requestFor, hmark]
  · refine selectRequestToSchedule_single ?_ ?_ ⟨rfl,BitVec.lt_irrefl t,hp.schedulable i hi⟩
    · exact List.getElem?_set_self he.place
    · intro k r hk hv
      by_contra hne
      rw [List.getElem?_set_ne (Ne.symm hne)] at hk
      rw [he.invalid r (List.mem_of_getElem? hk)] at hv
      cases hv

/-- One cycle of a controller that issues its only new miss at once. -/
theorem controller_prompt (he : EmptyQueue mc) (hp : Prompt mshrs mc t)
    (h : memoryControllerCycle mshrs mc l2cache t = .ok (mshrs',mc',l2cache')) :
    EmptyQueue mc' ∧ ∀ i, (isUnqueuedMiss (mshrs i) = false → mshrs' i = markFills mshrs t i) ∧
      (isUnqueuedMiss (mshrs i) = true → mshrs' i = { mshrs i with
        fillReadyCycle := cmdStart t (numCommands mc (mshrs i).address) + dataTfCycles +
          memToL2Latency + l2ToMemLatency }) := by
  obtain ⟨m₁,c₁,hq,hs,-⟩ := memoryControllerCycle_ok h
  by_cases hnew : ∃ i, isUnqueuedMiss (mshrs i) = true
  · obtain ⟨i,hi⟩ := hnew
    obtain ⟨hqueue,hselect⟩ := issue_prompt he hp hi
    rw [hqueue] at hq
    obtain ⟨rfl,rfl⟩ := Prod.mk.inj (Except.ok.inj hq)
    have hslot : (requestFor mshrs i t).mshr = i := rfl
    simp only [scheduleRequest, hselect, issueDramRequest, hslot, Function.update_idem,
      Function.update_self, Prod.mk.injEq] at hs
    obtain ⟨rfl,rfl⟩ := hs
    refine ⟨⟨fun r hr => ?_,by simpa using he.place⟩,fun k => ⟨fun hk => ?_,fun hk => ?_⟩⟩
    · obtain ⟨j,hj,rfl⟩ := List.getElem_of_mem hr
      rw [List.getElem_modify]
      split_ifs with h0
      · rfl
      · rw [List.getElem_set_ne h0]
        exact he.invalid _ (List.getElem_mem _)
    · have hne : k ≠ i := fun hki => by
        rw [hki, hi] at hk
        cases hk
      rw [Function.update_of_ne hne]
    · obtain rfl := hp.single k i hk hi
      rw [Function.update_self]
      rfl
  · have hnone : ∀ k, isUnqueuedMiss (markFills mshrs t k) = false := fun k => by
      by_contra hk
      exact hnew ⟨k,(isUnqueuedMiss_markFills (by simpa using hk)).2⟩
    rw [queueMisses_idle hnone] at hq
    obtain ⟨rfl,rfl⟩ := Prod.mk.inj (Except.ok.inj hq)
    simp only [scheduleRequest, selectRequestToSchedule_idle he.invalid, Prod.mk.injEq] at hs
    obtain ⟨rfl,rfl⟩ := hs
    exact ⟨he,fun k => ⟨fun _ => rfl,fun hk => absurd ⟨k,hk⟩ hnew⟩⟩

/-- When the fill of the issued miss completes. -/
lemma toNat_fillComplete {k : ℕ} (h : t.toNat + 100 * k + 60 < 2 ^ 32) :
    (cmdStart t k + dataTfCycles + memToL2Latency + l2ToMemLatency).toNat =
      t.toNat + 100 * k + 60 := by
  have hstart := toNat_cmdStart (t := t) (k := k) (by omega)
  have h50 : dataTfCycles.toNat = 50 := rfl
  have h5 : memToL2Latency.toNat = 5 := rfl
  simp only [BitVec.toNat_add, hstart, h50, h5]
  omega

end Controller

/-- The MSHR waits for a fill that comes in cycle F of the counter. -/
structure Mshr.Expects (m : Mshr) (F : ℕ) : Prop where
  pending : m.Pending
  ready : m.fillReadyCycle.toNat = F

lemma emptyQueue_kept (s : State Memories) (h : EmptyQueue s.sys.controller) :
    KeptByStages (fun b => EmptyQueue b.controller) s where
  fillMem _ _ := h
  missMem _ _ _ _ := h
  fillFetch _ _ h _ _ := h
  dropFetch _ _ h _ _ := h
  missFetch _ _ _ _ _ h _ _ := h
  cancelFetch _ h := h

lemma cycle_kept (s : State Memories) : KeptByStages (fun b => b.cycle = s.statCycles) s where
  fillMem _ _ := rfl
  missMem _ _ _ _ := rfl
  fillFetch _ _ h _ _ := h
  dropFetch _ _ h _ _ := h
  missFetch _ _ _ _ _ h _ _ := h
  cancelFetch _ h := h

/-- One cycle that issues its new miss at once. -/
structure PromptCycle (s s₁ s' : State Memories) : Prop where
  stages : memSystem.stages s = .ok s₁
  prompt : Lab2.Prompt s₁.sys.mshrs s₁.sys.controller s₁.statCycles
  before : EmptyQueue s₁.sys.controller
  after : EmptyQueue s'.sys.controller
  cycles : s₁.statCycles = s.statCycles ∧ s'.statCycles = s.statCycles + 1
  quiet : ∀ i, isUnqueuedMiss (s₁.sys.mshrs i) = false →
    s'.sys.mshrs i = markFills s₁.sys.mshrs s₁.statCycles i
  issued : ∀ i, isUnqueuedMiss (s₁.sys.mshrs i) = true → s'.sys.mshrs i =
    { s₁.sys.mshrs i with
      fillReadyCycle := cmdStart s₁.statCycles (numCommands s₁.sys.controller
        (s₁.sys.mshrs i).address) + dataTfCycles + memToL2Latency + l2ToMemLatency }

lemma promptCycle {s s' : State Memories} (hs : s.Settled) (he : EmptyQueue s.sys.controller)
    (hp : s.Prompt) (hc : memSystem.cycle s = .ok s') : ∃ s₁, PromptCycle s s₁ s' := by
  obtain ⟨s₁,sys,hst,hctl,rfl⟩ := MemSystem.cycle_ok hc
  obtain ⟨l2cache,hmc,-⟩ := controllerCycle_ok hctl
  have he₁ : EmptyQueue s₁.sys.controller := (emptyQueue_kept s he).stages hs he hst
  have ht : s₁.statCycles = s.statCycles := (cycle_kept s).stages hs rfl hst
  obtain ⟨he',hslots⟩ := controller_prompt he₁ (hp s₁ hst) hmc
  exact ⟨s₁,hst,hp s₁ hst,he₁,he',⟨ht,by rw [ht]⟩,fun i => (hslots i).1,fun i => (hslots i).2⟩

/-- An MSHR whose fill is to come is marked when its cycle has come. -/
lemma PromptCycle.expects {s s₁ s' : State Memories} (h : PromptCycle s s₁ s') (hs : s.Settled)
    {i : Fin numMshr} {F : ℕ} (hF : 0 < F) (hi : (s.sys.mshrs i).Expects F) :
    ((s'.sys.mshrs i).done = false → (s'.sys.mshrs i).Expects F) ∧
      ((s'.sys.mshrs i).done = true → F ≤ s.statCycles.toNat) := by
  have hsame : s₁.sys.mshrs i = s.sys.mshrs i := (pending_kept hi.pending).stages hs rfl h.stages
  have hi₁ : (s₁.sys.mshrs i).Expects F := hsame.symm ▸ hi
  have hready := hi₁.ready
  have hne : (s₁.sys.mshrs i).fillReadyCycle ≠ 0 := fun h0 => by
    rw [h0] at hready
    exact absurd hready (by simpa using hF.ne)
  have hnot : isUnqueuedMiss (s₁.sys.mshrs i) = false := by
    rw [isUnqueuedMiss, beq_eq_false_iff_ne.mpr hne, Bool.and_false]
  have hquiet := h.quiet i hnot
  by_cases hf : fillIsReady (s₁.sys.mshrs i) s₁.statCycles = true
  · have hmark : s'.sys.mshrs i = { s₁.sys.mshrs i with done := true } := by
      rw [hquiet]
      simp only [markFills, hf, if_true]
    simp only [fillIsReady, Bool.and_eq_true, decide_eq_true_eq] at hf
    have hle := BitVec.le_def.mp hf.2.2
    rw [hready, h.cycles.1] at hle
    rw [hmark]
    exact ⟨fun hd => (by cases hd),fun _ => hle⟩
  · have hsame : s'.sys.mshrs i = s₁.sys.mshrs i := by
      rw [hquiet]
      simp only [markFills, hf]
      rfl
    rw [hsame]
    refine ⟨fun _ => hi₁,fun hd => ?_⟩
    rw [hi₁.pending.notDone] at hd
    cases hd

section Run
variable (mem : Memory) (regs : Reg → Word) (hi lo : Word)

/-- In a run whose cycles issue their new misses at once the queue is always empty. -/
lemma prompt_run {n : ℕ} {s : State Memories}
    (h : memSystem.machine.Reaches (initialState initialMemories mem regs hi lo) n s)
    (hp : ∀ m < n, ∀ s', memSystem.machine.Reaches
      (initialState initialMemories mem regs hi lo) m s' → s'.Prompt) :
    EmptyQueue s.sys.controller ∧ s.Settled ∧ s.statCycles = BitVec.ofNat 32 n := by
  induction n generalizing s with
  | zero =>
    obtain rfl := h
    have hlen : (initMemoryController 256).queue.length = 256 := List.length_replicate
    refine ⟨⟨fun r hr => ?_,hlen ▸ (by decide : 0 < 256)⟩,initialState_settled _ _ _ _ _,rfl⟩
    rw [(List.mem_replicate.mp hr).2]
  | succ n ih =>
    obtain ⟨m,hm,-,hc⟩ := h
    obtain ⟨he,hs,ht⟩ := ih hm fun j hj => hp j (by omega)
    obtain ⟨s₁,hcycle⟩ := promptCycle hs he (hp n (Nat.lt_succ_self n) m hm) hc
    refine ⟨hcycle.after,cycle_settled hs hc,?_⟩
    rw [hcycle.cycles.2, ht, BitVec.ofNat_add]
    rfl

/-- An MSHR that is not marked as done expects its fill in the same cycle as before. -/
lemma prompt_run_expects {a n : ℕ} {i : Fin numMshr} {F : ℕ} (hF : 0 < F)
    (hp : ∀ m < n, ∀ s', memSystem.machine.Reaches
      (initialState initialMemories mem regs hi lo) m s' → s'.Prompt)
    {s : State Memories}
    (hs : memSystem.machine.Reaches (initialState initialMemories mem regs hi lo) a s)
    (hfirst : (s.sys.mshrs i).Expects F) {j : ℕ} (hj : a + j ≤ n)
    (hunmarked : ∀ l s', a < l → l ≤ a + j → memSystem.machine.Reaches
      (initialState initialMemories mem regs hi lo) l s' → (s'.sys.mshrs i).done = false)
    {s' : State Memories}
    (hs' : memSystem.machine.Reaches (initialState initialMemories mem regs hi lo) (a + j) s') :
    (s'.sys.mshrs i).Expects F := by
  induction j generalizing s' with
  | zero =>
    rw [Lib.Machine.Reaches.unique _ hs' hs]
    exact hfirst
  | succ j ih =>
    obtain ⟨m,hm,-,hcycle⟩ := id hs'
    have hm : memSystem.machine.Reaches (initialState initialMemories mem regs hi lo) (a + j) m :=
      hm
    obtain ⟨he,hsettled,-⟩ := prompt_run mem regs hi lo hm fun l hl => hp l (by omega)
    obtain ⟨m₁,hc⟩ := promptCycle hsettled he (hp _ (by omega) m hm) hcycle
    have hprev := ih (by omega) (fun l s hl hle => hunmarked l s hl (by omega)) hm
    exact (hc.expects hsettled hF hprev).1 (hunmarked _ _ (by omega) le_rfl hs')

/-- As long as every cycle issues its new miss at once, no miss is marked as done before its own
request has completed. -/
theorem no_early_fill {n : ℕ} (hp : ∀ m < n, ∀ s, memSystem.machine.Reaches
      (initialState initialMemories mem regs hi lo) m s → s.Prompt) :
    NoEarlyFill (initialState initialMemories mem regs hi lo) n := by
  rintro a d i req hd ⟨sa,s₁,hsa,hst,hu,rfl⟩ had hmarked
  obtain ⟨sd,⟨sd₀,hsd₀,hrun,hcd⟩,hdone⟩ := hmarked.after
  have hsd : memSystem.machine.Reaches (initialState initialMemories mem regs hi lo) (d + 1) sd :=
    ⟨sd₀,hsd₀,hrun,hcd⟩
  obtain ⟨sb,hsb⟩ := Lib.Machine.Reaches.earlier _ hsd (show a + 1 ≤ d + 1 by omega)
  obtain ⟨sa',hsa',-,hca⟩ := id hsb
  obtain rfl := Lib.Machine.Reaches.unique _ hsa hsa'
  obtain ⟨he,hs,ht⟩ := prompt_run mem regs hi lo hsa fun m hm => hp m (by omega)
  obtain ⟨s₁',hcycle⟩ := promptCycle hs he (hp a (by omega) sa hsa) hca
  obtain rfl : s₁' = s₁ := Except.ok.inj (hcycle.stages.symm.trans hst)
  set k := numCommands s₁'.sys.controller (s₁'.sys.mshrs i).address with hk
  have hbound := hcycle.prompt.bounded i hu
  rw [hcycle.cycles.1, ht, BitVec.toNat_ofNat, ← hk] at hbound
  have hslot := hcycle.issued i hu
  have hunq : (s₁'.sys.mshrs i).Pending := by
    simp only [isUnqueuedMiss, Bool.and_eq_true, Bool.not_eq_true'] at hu
    exact ⟨hu.1.1,hu.1.2⟩
  have hfirst : (sb.sys.mshrs i).Expects (a % 2 ^ 32 + 100 * k + 60) := by
    rw [hslot]
    refine ⟨⟨hunq.valid,hunq.notDone⟩,?_⟩
    have hfill := toNat_fillComplete (t := s₁'.statCycles) (k := k) (by
      rw [hcycle.cycles.1, ht, BitVec.toNat_ofNat]
      exact hbound)
    rw [hcycle.cycles.1, ht, BitVec.toNat_ofNat] at hfill
    rw [← hfill, hcycle.cycles.1, ht]
  have hpos := numCommands_pos s₁'.sys.controller (s₁'.sys.mshrs i).address
  obtain ⟨hqueue,hselect⟩ := issue_prompt hcycle.before hcycle.prompt hu
  have hissue : IssuesIn sa (requestFor s₁'.sys.mshrs i s₁'.statCycles) k :=
    ⟨s₁',_,_,0,hst,hqueue,hselect,rfl⟩
  refine ⟨a,k,le_rfl,⟨sa,hsa,hissue⟩,hpos,numCommands_le _ _,?_⟩
  by_contra hearly
  obtain rfl | hlt := Nat.eq_or_lt_of_le had
  · rw [Lib.Machine.Reaches.unique _ hsd hsb, hfirst.pending.notDone] at hdone
    cases hdone
  · obtain ⟨j,rfl⟩ := Nat.exists_eq_add_of_le (show a + 1 ≤ d from hlt)
    obtain ⟨hed,hsetd,htd⟩ := prompt_run mem regs hi lo hsd₀
      fun l (hl : l < a + 1 + j) => hp l (by omega)
    obtain ⟨d₁,hcyc⟩ := promptCycle hsetd hed (hp _ hd sd₀ hsd₀) hcd
    have hwait := prompt_run_expects mem regs hi lo (by omega) (n := n) hp hsb hfirst (by omega)
      (fun l s hl hle => hmarked.before l s (by omega) hle) hsd₀
    have hle := (hcyc.expects hsetd (by omega) hwait).2 hdone
    rw [htd, BitVec.toNat_ofNat] at hle
    omega

end Run

/-- The test of the condition. -/
def State.isPrompt (s : State Memories) : Bool :=
  match memSystem.stages s with
  | .ok s₁ => (List.finRange numMshr).all fun i => !isUnqueuedMiss (s₁.sys.mshrs i) ||
      (((List.finRange numMshr).all fun j => !isUnqueuedMiss (s₁.sys.mshrs j) || i == j) &&
        isRequestSchedulable s₁.sys.controller (s₁.sys.mshrs i).address s₁.statCycles &&
        decide (s₁.statCycles.toNat + 100 * numCommands s₁.sys.controller
          (s₁.sys.mshrs i).address + 60 < 2 ^ 32))
  | .error _ => true

lemma State.prompt_of_test {s : State Memories} (h : s.isPrompt = true) : s.Prompt := by
  intro s₁ hst
  simp only [State.isPrompt, hst, List.all_eq_true, List.mem_finRange, true_implies,
    Bool.or_eq_true, Bool.not_eq_true', Bool.and_eq_true, beq_iff_eq, decide_eq_true_eq] at h
  have hnew := fun i (hi : isUnqueuedMiss (s₁.sys.mshrs i) = true) =>
    (h i).resolve_left (by rw [hi]; decide)
  exact ⟨fun i j hi hj => ((hnew i hi).1.1 j).resolve_left (by rw [hj]; decide),
    fun i hi => (hnew i hi).1.2,fun i hi => (hnew i hi).2⟩

/-- Without a new miss there is nothing to issue. -/
lemma State.prompt_of_idle {s : State Memories} (hst : memSystem.stages s = .ok s)
    (h : ∀ i, isUnqueuedMiss (s.sys.mshrs i) = false) : s.Prompt := by
  intro s₁ hs₁
  obtain rfl := Except.ok.inj (hst.symm.trans hs₁)
  have hno : ∀ {i} {P : Prop}, isUnqueuedMiss (s.sys.mshrs i) = true → P := fun {i P} hi => by
    rw [h i] at hi
    cases hi
  exact ⟨fun _ _ hi => hno hi,fun _ hi => hno hi,fun _ hi => hno hi⟩

/-- Three misses one after the other, of which the second is cancelled; the first is marked in
cycle 260, the others in the cycles 528 and 632. -/
theorem cancelProgram_no_early_fill :
    NoEarlyFill (initialState initialMemories cancelProgram dataRegs 0 0) 635 ∧
      MarkedAt (initialState initialMemories cancelProgram dataRegs 0 0) 0 260 0 ∧
      ∃ s, memSystem.machine.Reaches (initialState initialMemories cancelProgram dataRegs 0 0) 633
        s ∧ (s.sys.mshrs 0).done = true ∧ (s.sys.mshrs 1).done = true := by
  have hrun : passesVia State.isPrompt (fun s => (s.sys.mshrs 0).done && (s.sys.mshrs 1).done &&
      memSystem.machine.passes State.isPrompt (fun _ => true) 2 s) 12 [(254,1),(102,1)]
      (waitingState cancelProgram dataRegs 0 0 true 261) = true := by
    decide +kernel
  obtain ⟨s,hs,hq⟩ := along_of_first (P := State.Prompt) cancelProgram dataRegs 0 0
    (by decide +kernel) (fun t => State.prompt_of_idle (waitingState_stages _ _ _ _ t)
      (firstMemories_unqueued false)) (fun _ => State.prompt_of_test)
    (fun s j _ h => State.prompt_of_idle (stagesWait_stages (stalled_stagesWait h))
      (stalled_unqueued h)) hrun
  rw [Bool.and_eq_true, Bool.and_eq_true] at hq
  obtain ⟨s',hs',-⟩ := memSystem.machine.along_of_passes hq.2
  have hall : memSystem.machine.Along State.Prompt
      (initialState initialMemories cancelProgram dataRegs 0 0) 635 s' :=
    hs.trans _ ⟨hs'.reaches,fun m hm x hx => State.prompt_of_test (hs'.holds m hm x hx)⟩
  exact ⟨no_early_fill cancelProgram dataRegs 0 0 hall.holds,
    first_fetch_marked cancelProgram dataRegs 0 0,s,hs.reaches,hq.1⟩

/-- The second miss of the program has to wait for a bus, and the next cycle marks it. -/
theorem branchProgram_early_fill :
    ¬ NoEarlyFill (initialState initialMemories branchProgram (fun _ => 0) 0 0) 273 := by
  intro h
  have hlead : memSystem.machine.leadsTo (fun s => s.pipe.runBit &&
      (match memSystem.stages s with
        | .ok s₁ => isUnqueuedMiss (s₁.sys.mshrs 1)
        | .error _ => false) &&
      match memSystem.cycle s with
      | .ok s' => s'.pipe.runBit && !(s'.sys.mshrs 1).done &&
        match memSystem.cycle s' with
        | .ok s'' => (s''.sys.mshrs 1).done
        | .error _ => false
      | .error _ => false) 10 (waitingState branchProgram (fun _ => 0) 0 0 true 261) = true := by
    decide +kernel
  obtain ⟨s,hs,hp⟩ := reaches_of_leadsTo _ _ _ _ hlead
  rw [Bool.and_eq_true, Bool.and_eq_true] at hp
  obtain ⟨⟨hrun,hmiss⟩,hnext⟩ := hp
  cases hst : memSystem.stages s with
  | error e => simp [hst] at hmiss
  | ok s₁ =>
    rw [hst] at hmiss
    cases hc : memSystem.cycle s with
    | error e => simp [hc] at hnext
    | ok s' =>
      simp only [hc, Bool.and_eq_true, Bool.not_eq_true'] at hnext
      obtain ⟨⟨hrun',hwait⟩,hlast⟩ := hnext
      cases hc' : memSystem.cycle s' with
      | error e => simp [hc'] at hlast
      | ok s'' =>
        rw [hc'] at hlast
        have hs' : memSystem.machine.Reaches
            (initialState initialMemories branchProgram (fun _ => 0) 0 0) 272 s' :=
          ⟨s,hs,hrun,hc⟩
        have hmarked : MarkedAt (initialState initialMemories branchProgram (fun _ => 0) 0 0)
            271 272 1 := by
          refine ⟨fun e x hlt hle hx => ?_,s'',⟨s',hs',hrun',hc'⟩,hlast⟩
          obtain rfl : e = 272 := by omega
          rw [Lib.Machine.Reaches.unique _ hx hs']
          exact hwait
        obtain ⟨c,k,hc,-,hk,-,hle⟩ := h 271 272 1 _ (by decide) ⟨s,s₁,hs,hst,hmiss,rfl⟩
          (by decide) hmarked
        omega

end CaLabs.Lab2
