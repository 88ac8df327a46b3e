import CaLabs.Lab4.Adaptive

/-! The windows of the adaptive degree. An evaluation without issued prefetches takes over the
counters and returns before the cycle count is reset, so the useful prefetches of that epoch are
never divided by anything. -/
namespace CaLabs.Lab4

/-- What has happened since the last adjustment of the degree, and how much of it an evaluation
that adjusted nothing has passed over. -/
structure Window where
  cycles : ℕ := 0
  issued : ℕ := 0
  useful : ℕ := 0
  passedIssued : ℕ := 0
  passedUseful : ℕ := 0
  deriving DecidableEq, Repr

/-- The system with the window that the next adjustment should look at. -/
structure WindowSystem where
  system : System := {}
  window : Window := {}
  deriving DecidableEq, Repr

namespace WindowSystem
variable (operate : SimStats → ℕ → AdaptiveState → AdaptiveState) (s : WindowSystem)

/-- The next call of the prefetcher adjusts the degree. -/
def adjusts : Bool :=
  s.system.due && s.system.stats.pfIssued - s.system.prefetcher.lastPfIssued ≠ 0

/-- The window after an event. -/
def nextWindow : Event → Window
  | .issue => { s.window with issued := s.window.issued + 1 }
  | .useful => { s.window with useful := s.window.useful + 1 }
  | .beginPhase => s.window
  | .cycle _ =>
    if s.adjusts then {}
    else if s.system.due then
      { s.window with cycles := s.window.cycles + 1, passedIssued := s.window.issued,
                      passedUseful := s.window.useful }
    else { s.window with cycles := s.window.cycles + 1 }

def step (e : Event) : WindowSystem := ⟨s.system.step operate e,s.nextWindow e⟩

def run (events : List Event) : WindowSystem := events.foldl (step operate) s

/-- The event is a call that adjusts the degree. -/
def adjustsAt : Event → Bool
  | .issue | .useful | .beginPhase => false
  | .cycle _ => s.adjusts

/-- The states in which a run adjusts the degree, each just before it does. -/
def adjustments : WindowSystem → List Event → List WindowSystem
  | _,[] => []
  | s,e :: rest =>
    if s.adjustsAt e then s :: adjustments (s.step operate e) rest
    else adjustments (s.step operate e) rest

/-- The counts that the adjustment divides are those of its window, which is a whole epoch long
with the cycle of the adjustment. -/
structure CountsWindow : Prop where
  issued : (s.system.stats.pfIssued - s.system.prefetcher.lastPfIssued).toNat = s.window.issued
  useful : (s.system.stats.pfUseful - s.system.prefetcher.lastPfUseful).toNat = s.window.useful
  length : epochLength.toNat ≤ s.window.cycles + 1

/-- No event of the window came before an evaluation that adjusted nothing, and both numbers of
events fit in the counters. -/
structure NothingPassed : Prop where
  issued : s.window.passedIssued = 0
  useful : s.window.passedUseful = 0
  issued_lt : s.window.issued < 2 ^ 64
  useful_lt : s.window.useful < 2 ^ 64

def DegreeInRange : Prop :=
  minDegree ≤ s.system.prefetcher.currentPrefetchDegree ∧
    s.system.prefetcher.currentPrefetchDegree ≤ maxDegree

end WindowSystem

/-! What one event does. -/

lemma clampDegree_range (degree : ℤ) :
    minDegree ≤ clampDegree degree ∧ clampDegree degree ≤ maxDegree := by
  simp only [clampDegree, minDegree, maxDegree]
  split_ifs <;> omega

open WindowSystem

/-- The counters, the cycle count and the degree in terms of the window. -/
structure WindowInv (s : WindowSystem) : Prop where
  counters : SystemInv s.system
  phase : s.system.tally.phase = false
  issued : s.window.issued = s.window.passedIssued + s.system.tally.issued
  useful : s.window.useful = s.window.passedUseful + s.system.tally.useful
  cycles : s.system.prefetcher.epochCycleCount = BitVec.ofNat 64 s.window.cycles
  degree : s.DegreeInRange

lemma windowInv_initial : WindowInv {} :=
  ⟨⟨.evaluated,.evaluated⟩,rfl,rfl,rfl,rfl,⟨by decide,by decide⟩⟩

/-- What a call of the prefetcher does to the system and its window. -/
lemma step_cycle_cases (quotient : BitVec 64 → BitVec 64 → ℚ) (s : WindowSystem)
    (bwQuantized : ℕ) :
    s.step (evaluateEpoch quotient) (.cycle bwQuantized) =
      ⟨⟨s.system.stats,{ s.system.prefetcher with
          epochCycleCount := s.system.prefetcher.epochCycleCount + 1 },s.system.tally⟩,
        { s.window with cycles := s.window.cycles + 1 }⟩ ∨
    s.step (evaluateEpoch quotient) (.cycle bwQuantized) =
      ⟨⟨s.system.stats,⟨s.system.prefetcher.epochCycleCount + 1,s.system.stats.pfIssued,
          s.system.stats.pfUseful,s.system.prefetcher.currentPrefetchDegree⟩,{}⟩,
        { s.window with cycles := s.window.cycles + 1, passedIssued := s.window.issued,
                        passedUseful := s.window.useful }⟩ ∨
    ∃ degree, s.step (evaluateEpoch quotient) (.cycle bwQuantized) =
      ⟨⟨s.system.stats,⟨0,s.system.stats.pfIssued,s.system.stats.pfUseful,clampDegree degree⟩,
        {}⟩,{}⟩ := by
  simp only [WindowSystem.step, System.step, nextWindow, adjusts, System.due]
  rcases evaluateEpoch_cases quotient s.system.stats bwQuantized s.system.prefetcher with
    ⟨hdue,heval⟩ | ⟨hdue,hzero,heval⟩ | ⟨hdue,hissued,degree,heval⟩
  · left
    simp only [hdue, heval, decide_false, Bool.false_and, Bool.false_eq_true, if_false]
  · right
    left
    simp only [hdue, hzero, heval, ne_eq, not_true_eq_false, decide_true, decide_false,
      Bool.and_false, Bool.false_eq_true, if_false, if_true]
  · right
    right
    refine ⟨degree,?_⟩
    simp only [hdue, hissued, heval, ne_eq, not_false_eq_true, decide_true, Bool.and_true,
      if_true]

lemma WindowInv.step {s : WindowSystem} (h : WindowInv s)
    (quotient : BitVec 64 → BitVec 64 → ℚ) {e : Event} (he : e ≠ .beginPhase) :
    WindowInv (s.step (evaluateEpoch quotient) e) := by
  have hcounters : SystemInv (s.step (evaluateEpoch quotient) e).system :=
    h.counters.step quotient e
  cases e with
  | issue => exact ⟨hcounters,h.phase,congrArg (· + 1) h.issued,h.useful,h.cycles,h.degree⟩
  | useful => exact ⟨hcounters,h.phase,h.issued,congrArg (· + 1) h.useful,h.cycles,h.degree⟩
  | beginPhase => exact absurd rfl he
  | cycle bwQuantized =>
    have hcycles : s.system.prefetcher.epochCycleCount + 1 =
        BitVec.ofNat 64 (s.window.cycles + 1) := by
      rw [h.cycles, BitVec.ofNat_add]
      rfl
    rcases step_cycle_cases quotient s bwQuantized with hstep | hstep | ⟨degree,hstep⟩
    · rw [hstep] at hcounters ⊢
      exact ⟨hcounters,h.phase,h.issued,h.useful,hcycles,h.degree⟩
    · rw [hstep] at hcounters ⊢
      exact ⟨hcounters,rfl,rfl,rfl,hcycles,h.degree⟩
    · rw [hstep] at hcounters ⊢
      exact ⟨hcounters,rfl,rfl,rfl,rfl,clampDegree_range degree⟩

/-- The invariant along a run without a change of phase. -/
lemma WindowInv.run {s : WindowSystem} (h : WindowInv s)
    (quotient : BitVec 64 → BitVec 64 → ℚ) {events : List Event} (he : .beginPhase ∉ events) :
    WindowInv (s.run (evaluateEpoch quotient) events) ∧
      ∀ v ∈ s.adjustments (evaluateEpoch quotient) events, WindowInv v ∧ v.adjusts = true := by
  induction events generalizing s with
  | nil => exact ⟨h,fun v hv => (by cases hv)⟩
  | cons e rest ih =>
    rw [List.mem_cons, not_or] at he
    obtain ⟨hrun,hall⟩ := ih (h.step quotient (Ne.symm he.1)) he.2
    refine ⟨hrun,fun v hv => ?_⟩
    rw [adjustments] at hv
    split_ifs at hv with hadjust
    · rcases List.mem_cons.mp hv with rfl | hv
      · cases e with
        | issue | useful | beginPhase => cases hadjust
        | cycle bwQuantized => exact ⟨h,hadjust⟩
      · exact hall v hv
    · exact hall v hv

/-- Every useful prefetch is in the window of one adjustment, or in the one still open. -/
lemma windows_useful (operate : SimStats → ℕ → AdaptiveState → AdaptiveState)
    (s : WindowSystem) (events : List Event) :
    ((s.adjustments operate events).map fun v => v.window.useful).sum +
        (s.run operate events).window.useful = s.window.useful + events.count .useful := by
  induction events generalizing s with
  | nil => exact Nat.zero_add _
  | cons e rest ih =>
    have hrest := ih (s.step operate e)
    have hrun : s.run operate (e :: rest) = (s.step operate e).run operate rest := rfl
    rw [hrun, adjustments, List.count_cons]
    cases e with
    | issue => exact hrest
    | useful =>
      have hwindow : (s.step operate .useful).window.useful = s.window.useful + 1 := rfl
      rw [hwindow] at hrest
      simp only [adjustsAt, Bool.false_eq_true, if_false, beq_self_eq_true, if_true]
      omega
    | beginPhase => exact hrest
    | cycle bwQuantized =>
      have hwindow : (s.step operate (.cycle bwQuantized)).window.useful =
          if s.adjusts then 0 else s.window.useful := by
        simp only [WindowSystem.step, nextWindow]
        split_ifs <;> rfl
      have hne : (Event.cycle bwQuantized == .useful) = false := rfl
      have hat : s.adjustsAt (.cycle bwQuantized) = s.adjusts := rfl
      rw [hwindow] at hrest
      rw [hne, hat]
      by_cases ha : s.adjusts = true
      · rw [if_pos ha] at hrest ⊢
        rw [List.map_cons, List.sum_cons, if_neg Bool.false_ne_true]
        omega
      · rw [if_neg ha] at hrest ⊢
        exact hrest

/-- In a state of the run an adjustment would count its window exactly if nothing was passed. -/
lemma WindowInv.countsWindow_iff {s : WindowSystem} (h : WindowInv s) (ha : s.adjusts = true) :
    s.CountsWindow ↔ s.NothingPassed := by
  have hissued : (s.system.stats.pfIssued - s.system.prefetcher.lastPfIssued).toNat =
      s.system.tally.issued % 2 ^ 64 := by
    rw [h.counters.issued.1 h.phase, BitVec.add_comm, BitVec.add_sub_cancel, BitVec.toNat_ofNat]
  have huseful : (s.system.stats.pfUseful - s.system.prefetcher.lastPfUseful).toNat =
      s.system.tally.useful % 2 ^ 64 := by
    rw [h.counters.useful.1 h.phase, BitVec.add_comm, BitVec.add_sub_cancel, BitVec.toNat_ofNat]
  have hwi := h.issued
  have hwu := h.useful
  constructor
  · rintro ⟨hi,hu,-⟩
    rw [hissued] at hi
    rw [huseful] at hu
    constructor <;> omega
  · rintro ⟨hi,hu,hi',hu'⟩
    refine ⟨by rw [hissued]; omega,by rw [huseful]; omega,?_⟩
    rw [adjusts, Bool.and_eq_true, System.due, decide_eq_true_eq, h.cycles, ge_iff_le,
      BitVec.le_def, BitVec.toNat_add, BitVec.toNat_ofNat] at ha
    have hone : (1 : BitVec 64).toNat = 1 := rfl
    have hlen := ha.1
    omega

/-- In every run of either prefetcher without a change of phase, the windows share out the useful
prefetches and the degree stays in its range; an adjustment divides the counts of its window
exactly if no event of the window was passed over. -/
theorem adjustments_countWindow_iff (quotient : BitVec 64 → BitVec 64 → ℚ)
    {operate : SimStats → ℕ → AdaptiveState → AdaptiveState}
    (hop : operate = ghbPccsCycleOperate quotient ∨ operate = ghbCycleOperate quotient)
    {events : List Event} (he : .beginPhase ∉ events) :
    (∀ v ∈ ({} : WindowSystem).adjustments operate events, v.CountsWindow ↔ v.NothingPassed) ∧
      ((({} : WindowSystem).adjustments operate events).map fun v => v.window.useful).sum +
        (({} : WindowSystem).run operate events).window.useful = events.count .useful ∧
      (({} : WindowSystem).run operate events).DegreeInRange := by
  have hop' : operate = evaluateEpoch quotient := by
    rcases hop with rfl | rfl <;> rfl
  subst hop'
  obtain ⟨hrun,hall⟩ := windowInv_initial.run quotient he
  refine ⟨fun v hv => (hall v hv).1.countsWindow_iff (hall v hv).2,?_,hrun.degree⟩
  exact (windows_useful _ {} events).trans (Nat.zero_add _)

/-- A prefetch that turns out useful after the epoch it was issued in, an epoch without
prefetches, and another prefetch. -/
def usefulWhileIdle : List Event :=
  .issue :: (List.replicate 1000 (.cycle 0) ++
    .useful :: (List.replicate 1000 (.cycle 0) ++ [.issue,.cycle 0]))

/-- The second adjustment finds no useful prefetch in its window, where there was one. -/
theorem usefulWhileIdle_dropped :
    ¬∀ v ∈ ({} : WindowSystem).adjustments (ghbPccsCycleOperate fun useful issued =>
        (useful.toNat / issued.toNat : ℚ)) usefulWhileIdle, v.CountsWindow := by
  have hdrop : ∃ v ∈ ({} : WindowSystem).adjustments (ghbPccsCycleOperate fun useful issued =>
      (useful.toNat / issued.toNat : ℚ)) usefulWhileIdle,
      (v.system.stats.pfUseful - v.system.prefetcher.lastPfUseful).toNat ≠ v.window.useful := by
    decide +kernel
  obtain ⟨v,hv,hne⟩ := hdrop
  exact fun h => hne (h v hv).useful

/-- One prefetch and one whole epoch. -/
def oneEpoch : List Event := .issue :: List.replicate 1000 (.cycle 0)

theorem oneEpoch_countWindow_iff :
    (∀ v ∈ ({} : WindowSystem).adjustments (ghbPccsCycleOperate fun _ _ => 0) oneEpoch,
      v.CountsWindow ↔ v.NothingPassed) ∧
      (({} : WindowSystem).run (ghbPccsCycleOperate fun _ _ => 0) oneEpoch).DegreeInRange := by
  obtain ⟨hcounts,-,hdegree⟩ := adjustments_countWindow_iff (fun _ _ => 0) (.inl rfl)
    (show .beginPhase ∉ oneEpoch by decide +kernel)
  exact ⟨hcounts,hdegree⟩

end CaLabs.Lab4
