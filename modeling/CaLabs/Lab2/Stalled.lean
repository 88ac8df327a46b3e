import CaLabs.Lab2.MissState
import CaLabs.Lab2.Scheduling

/-! Cycles in which nothing moves: every stage waits for the one after it or for a fill, and the
controller has nothing to do until the next fill comes. -/
namespace CaLabs.Lab2
open Mips Pipeline

/-- No stage has anything that it can do. -/
def State.stagesWait (s : State Memories) : Bool :=
  s.pipe.wbOp.isNone && s.pipe.multiplierStall == 0 && !s.pipe.branchRecover &&
  (s.pipe.memOp.isNone || s.l1MemWaiting && !checkL1FillReady s.sys.mshrs s.l1MemMissAddr) &&
  (s.pipe.executeOp.isNone || s.pipe.memOp.isSome) &&
  (s.pipe.decodeOp.isNone || s.pipe.executeOp.isSome) &&
  (s.pipe.decodeOp.isSome ||
    s.l1FetchWaiting && !checkL1FillReady s.sys.mshrs s.l1FetchMissAddr)

/-- No fill comes and no new miss is there in the k cycles from t on. -/
def noFillFor (mshrs : MshrFile) (t : Word) (k : ℕ) : Bool :=
  (List.finRange numMshr).all fun i =>
    !(mshrs i).valid || (mshrs i).done || decide (t.toNat + k < (mshrs i).fillReadyCycle.toNat)

/-- Nothing moves in this cycle and the k cycles after it. -/
def State.stalledFor (s : State Memories) (k : ℕ) : Bool :=
  s.pipe.runBit && s.stagesWait && s.sys.controller.queue.all (!·.valid) &&
    noFillFor s.sys.mshrs s.statCycles k

/-- The state k cycles later, if nothing has moved. -/
def State.later (s : State Memories) (k : ℕ) : State Memories :=
  { s with statCycles := s.statCycles + BitVec.ofNat 32 k }

/-! What that means for the stages and for the controller. -/

lemma stalled_stagesWait {s : State Memories} {k : ℕ} (h : s.stalledFor k = true) :
    s.stagesWait = true := by
  simp only [State.stalledFor, Bool.and_eq_true] at h
  exact h.1.1.2

lemma stagesWait_backStages {s : State Memories} (h : s.stagesWait = true) :
    memSystem.backStages s = .ok s := by
  simp only [State.stagesWait, Bool.and_eq_true, Bool.or_eq_true, Bool.not_eq_true',
    Option.isNone_iff_eq_none, beq_iff_eq] at h
  obtain ⟨⟨⟨⟨⟨⟨hwb,hmul⟩,-⟩,hmem⟩,hex⟩,hdec⟩,-⟩ := h
  have hw : pipeStageWb s.l1FetchWaiting s.pipe = s.pipe := by
    simp only [pipeStageWb, hwb]
  have hm : memSystem.pipeStageMem s = .ok s := by
    unfold MemSystem.pipeStageMem
    rcases hmem with hnone | ⟨hwait,hready⟩
    · simp only [hnone]
    · have hr : memSystem.checkL1FillReady s.sys false s.l1MemMissAddr = false := hready
      cases hop : s.pipe.memOp with
      | none => rfl
      | some op => simp only [hwait, hr, if_true, Bool.false_eq_true, if_false]
  have htick : tickMultiplier s.pipe = s.pipe := by
    simp only [tickMultiplier, hmul, Nat.zero_sub]
    rw [← hmul]
  have he : pipeStageExecute s.pipe = s.pipe := by
    simp only [pipeStageExecute, htick]
    rcases hex with hnone | hsome
    · simp only [hnone, ite_self]
    · rw [if_pos hsome]
  have hd : pipeStageDecode s.pipe = s.pipe := by
    unfold pipeStageDecode
    rcases hdec with hnone | hsome
    · simp only [hnone, ite_self]
    · rw [if_pos hsome]
  unfold MemSystem.backStages
  simp only [hw, hm, bind, Except.bind, he, hd]

/-- The cycle ends as it began. -/
lemma stagesWait_stages {s : State Memories} (h : s.stagesWait = true) :
    memSystem.stages s = .ok s := by
  have hb := stagesWait_backStages h
  simp only [State.stagesWait, Bool.and_eq_true, Bool.or_eq_true, Bool.not_eq_true'] at h
  obtain ⟨⟨⟨⟨⟨-,hrec⟩,-⟩,-⟩,-⟩,hfetch⟩ := h
  have hf : memSystem.pipeStageFetch s = .ok s := by
    unfold MemSystem.pipeStageFetch
    split_ifs with hd hwait hr
    · rfl
    · rcases hfetch with hsome | ⟨-,hready⟩
      · exact absurd hsome hd
      · exact absurd (hready.symm.trans hr) (by decide)
    · rfl
    · rcases hfetch with hsome | ⟨hw,-⟩
      · exact absurd hsome hd
      · exact absurd hw hwait
  have hr : MemSystem.recover s = s := by
    simp only [MemSystem.recover, recoverBranch, hrec, Bool.false_and, Bool.or_false,
      Bool.not_false, Bool.and_true, Bool.false_eq_true, if_false]
  simp only [MemSystem.stages, hb, hf, hr, bind, Except.bind]

lemma stalledFor_zero {s : State Memories} {k : ℕ} (h : s.stalledFor k = true) :
    s.stalledFor 0 = true := by
  simp only [State.stalledFor, noFillFor, Bool.and_eq_true, List.all_eq_true, Bool.or_eq_true,
    decide_eq_true_eq] at h ⊢
  exact ⟨h.1,fun i hi => (h.2 i hi).imp_right fun hlt => by omega⟩

lemma stalled_later {s : State Memories} {k j : ℕ} (h : s.stalledFor k = true) (hj : j ≤ k) :
    (s.later j).stalledFor (k - j) = true := by
  simp only [State.stalledFor, noFillFor, Bool.and_eq_true, List.all_eq_true, Bool.or_eq_true,
    decide_eq_true_eq] at h ⊢
  refine ⟨⟨⟨h.1.1.1,h.1.1.2⟩,h.1.2⟩,fun i hi => (h.2 i hi).imp_right fun hlt => ?_⟩
  have hbound := ((s.sys.mshrs i).fillReadyCycle).isLt
  have ht : (s.later j).statCycles.toNat = s.statCycles.toNat + j := by
    simp only [State.later, BitVec.toNat_add, BitVec.toNat_ofNat]
    omega
  have hsame : (s.later j).sys = s.sys := rfl
  rw [ht, hsame]
  omega

lemma stalled_unqueued {s : State Memories} {k : ℕ} (h : s.stalledFor k = true) (i : Fin numMshr) :
    isUnqueuedMiss (s.sys.mshrs i) = false := by
  simp only [State.stalledFor, noFillFor, Bool.and_eq_true, List.all_eq_true, Bool.or_eq_true,
    Bool.not_eq_true', decide_eq_true_eq] at h
  rcases h.2 i (List.mem_finRange i) with (hv | hd) | hlt
  · rw [isUnqueuedMiss, hv, Bool.false_and, Bool.false_and]
  · rw [isUnqueuedMiss, hd, Bool.not_true, Bool.and_false, Bool.false_and]
  · have hne : (s.sys.mshrs i).fillReadyCycle ≠ 0 := fun h0 => by
      rw [h0] at hlt
      exact absurd hlt (Nat.not_lt_zero _)
    rw [isUnqueuedMiss, beq_eq_false_iff_ne.mpr hne, Bool.and_false]

lemma stalled_idle {s : State Memories} {k : ℕ} (h : s.stalledFor k = true) :
    ∀ r ∈ s.sys.controller.queue, r.valid = false := by
  simp only [State.stalledFor, Bool.and_eq_true, List.all_eq_true, Bool.not_eq_true'] at h
  exact h.1.2

/-- One cycle in which nothing moves. -/
theorem stalled_cycle {s : State Memories} {k : ℕ} (h : s.stalledFor k = true) :
    memSystem.cycle s = .ok (s.later 1) := by
  have hnew := stalled_unqueued h
  simp only [State.stalledFor, noFillFor, Bool.and_eq_true, List.all_eq_true, Bool.or_eq_true,
    Bool.not_eq_true', decide_eq_true_eq] at h
  obtain ⟨⟨⟨-,hst⟩,hq⟩,hfill⟩ := h
  have hready : ∀ i, fillIsReady (s.sys.mshrs i) s.statCycles = false := by
    intro i
    rcases hfill i (List.mem_finRange i) with (hv | hd) | hlt
    · rw [fillIsReady, hv, Bool.false_and, Bool.false_and]
    · rw [fillIsReady, hd, Bool.not_true, Bool.and_false, Bool.false_and]
    · have hle : ¬ (s.sys.mshrs i).fillReadyCycle ≤ s.statCycles := fun hle => by
        have hnat := BitVec.le_def.mp hle
        omega
      rw [fillIsReady, decide_eq_false hle, Bool.and_false, Bool.and_false]
  have hcon : memSystem.memoryControllerCycle s.sys s.statCycles = .ok s.sys := by
    simp only [memSystem, memoryControllerCycle_idle hq hready hnew, bind, Except.bind]
  simp only [MemSystem.cycle, MemSystem.pipeCycle, stagesWait_stages hst, hcon, bind, Except.bind]
  rfl

/-- A run of such cycles. -/
theorem stalled_along {P : State Memories → Prop} {s : State Memories} {k : ℕ}
    (h : s.stalledFor k = true) (hP : ∀ j ≤ k, P (s.later j)) :
    memSystem.machine.Along P s (k + 1) (s.later (k + 1)) := by
  have hlater : ∀ j, j ≤ k + 1 → memSystem.machine.Reaches s j (s.later j) := by
    intro j hj
    induction j with
    | zero =>
      have h0 : s.later 0 = s := by simp [State.later]
      exact h0
    | succ j ih =>
      have hnow := stalled_later h (show j ≤ k by omega)
      refine ⟨s.later j,ih (by omega),?_,?_⟩
      · simp only [State.stalledFor, Bool.and_eq_true] at hnow
        exact hnow.1.1.1
      · have hc : memSystem.cycle (s.later j) = .ok ((s.later j).later 1) := stalled_cycle hnow
        have hadd : (s.later j).later 1 = s.later (j + 1) := by
          simp only [State.later, BitVec.add_assoc, BitVec.ofNat_add]
        rw [← hadd]
        exact hc
  refine ⟨hlater _ le_rfl,fun m hm x hx => ?_⟩
  rw [hx.unique _ (hlater m (by omega))]
  exact hP m (by omega)

/-- Test a run in pieces: n cycles, then for each piece the cycles in which nothing moves, one
more than its first number, and as many others as its second. -/
def passesVia (p q : State Memories → Bool) (n : ℕ) : List (ℕ × ℕ) → State Memories → Bool
  | [],s => memSystem.machine.passes p q n s
  | (k,m) :: pieces,s => memSystem.machine.passes p (fun s' => p s' && s'.stalledFor k &&
      passesVia p q m pieces (s'.later (k + 1))) n s

/-- The cycles of such a run. -/
def cyclesVia (n : ℕ) : List (ℕ × ℕ) → ℕ
  | [] => n
  | (k,m) :: pieces => n + (k + 1) + cyclesVia m pieces

theorem along_of_passesVia {p q : State Memories → Bool} {P : State Memories → Prop}
    (hp : ∀ s, p s = true → P s)
    (hlater : ∀ s j, P s → (s.later j).stalledFor 0 = true → P (s.later j)) {n : ℕ}
    {pieces : List (ℕ × ℕ)} {s : State Memories} (h : passesVia p q n pieces s = true) :
    ∃ s', memSystem.machine.Along P s (cyclesVia n pieces) s' ∧ q s' = true := by
  induction pieces generalizing n s with
  | nil =>
    obtain ⟨s',hs',hq⟩ := memSystem.machine.along_of_passes h
    exact ⟨s',⟨hs'.reaches,fun m hm x hx => hp x (hs'.holds m hm x hx)⟩,hq⟩
  | cons piece pieces ih =>
    obtain ⟨k,m⟩ := piece
    obtain ⟨s₁,h₁,hq⟩ := memSystem.machine.along_of_passes h
    rw [Bool.and_eq_true, Bool.and_eq_true] at hq
    obtain ⟨⟨hnow,hstall⟩,hrest⟩ := hq
    obtain ⟨s',hs',hlast⟩ := ih hrest
    have hpiece : memSystem.machine.Along P s₁ (k + 1) (s₁.later (k + 1)) := by
      exact stalled_along hstall fun j hj =>
        hlater s₁ j (hp s₁ hnow) (stalledFor_zero (stalled_later hstall hj))
    have hsteps : memSystem.machine.Along P s n s₁ :=
      ⟨h₁.reaches,fun m hm x hx => hp x (h₁.holds m hm x hx)⟩
    exact ⟨s',(hsteps.trans _ hpiece).trans _ hs',hlast⟩

end CaLabs.Lab2
