import Mathlib.Data.BitVec
import Mathlib.Data.Rat.Defs
import Mathlib.Tactic.NormNum

/-! The adaptive prefetch degree of lab 4: the counters of the prefetcher against those of the
cache, which begin again with every phase. -/
namespace CaLabs.Lab4

/-- The counters of CACHE::sim_stats that the prefetcher reads. -/
structure SimStats where
  pfIssued : BitVec 64 := 0
  pfUseful : BitVec 64 := 0
  deriving DecidableEq, Repr

abbrev maxDegree : ℤ := 6
abbrev minDegree : ℤ := 1
abbrev epochLength : BitVec 64 := 1000

/-- The adaptive state, as prefetcher_initialize sets it. -/
structure AdaptiveState where
  epochCycleCount : BitVec 64 := 0
  lastPfIssued : BitVec 64 := 0
  lastPfUseful : BitVec 64 := 0
  currentPrefetchDegree : ℤ := maxDegree
  deriving DecidableEq, Repr

/-- The adjustment for a quantized bandwidth and an accuracy. -/
def adjustment (bwQuantized : ℕ) (accuracy : ℚ) : ℤ :=
  if bwQuantized ≥ 12 then
    if accuracy ≥ 9/10 then 0 else if accuracy ≥ 1/2 then -1 else -2
  else if bwQuantized ≥ 4 then
    if accuracy ≥ 9/10 then 1 else if accuracy ≥ 1/2 then 0 else -1
  else
    if accuracy ≥ 9/10 then 2 else if accuracy ≥ 1/2 then 1 else 0

/-- Clamping to the range of degrees. -/
def clampDegree (degree : ℤ) : ℤ :=
  let degree := if degree > maxDegree then maxDegree else degree
  if degree < minDegree then minDegree else degree

section Quotient
variable (quotient : BitVec 64 → BitVec 64 → ℚ)

/-- The function that both prefetchers have; `quotient` divides two counters as doubles. -/
def evaluateEpoch (stats : SimStats) (bwQuantized : ℕ) (p : AdaptiveState) : AdaptiveState :=
  let p := { p with epochCycleCount := p.epochCycleCount + 1 }
  if p.epochCycleCount ≥ epochLength then
    let epochIssued := stats.pfIssued - p.lastPfIssued
    let epochUseful := stats.pfUseful - p.lastPfUseful
    let p := { p with lastPfIssued := stats.pfIssued, lastPfUseful := stats.pfUseful }
    if epochIssued = 0 then p
    else
      { p with
        currentPrefetchDegree := clampDegree
          (p.currentPrefetchDegree + adjustment bwQuantized (quotient epochUseful epochIssued))
        epochCycleCount := 0 }
  else p

/-- ghb_pccs::prefetcher_cycle_operate. -/
def ghbPccsCycleOperate := evaluateEpoch quotient

/-- ghb::prefetcher_cycle_operate of the hybrid prefetcher. -/
def ghbCycleOperate := evaluateEpoch quotient

end Quotient

/-- What happens in a run: the cache issues a prefetch, finds one useful, begins a phase, or
calls the prefetcher at the end of a cycle with the bandwidth of the DRAM. -/
inductive Event where
  | issue | useful | beginPhase
  | cycle (bwQuantized : ℕ)
  deriving DecidableEq, Repr

/-- What has happened since the prefetcher's last evaluation. -/
structure Tally where
  issued : ℕ := 0
  useful : ℕ := 0
  phase : Bool := false
  deriving DecidableEq, Repr

/-- The statistics, the prefetcher's state, and the events that they should count. -/
structure System where
  stats : SimStats := {}
  prefetcher : AdaptiveState := {}
  tally : Tally := {}
  deriving DecidableEq, Repr

namespace System

/-- The next call of the prefetcher evaluates the epoch. -/
def due (s : System) : Bool := s.prefetcher.epochCycleCount + 1 ≥ epochLength

/-- One event, with `operate` the prefetcher's function of the cycle. -/
def step (operate : SimStats → ℕ → AdaptiveState → AdaptiveState) (s : System) :
    Event → System
  | .issue => { s with stats := { s.stats with pfIssued := s.stats.pfIssued + 1 },
                       tally := { s.tally with issued := s.tally.issued + 1 } }
  | .useful => { s with stats := { s.stats with pfUseful := s.stats.pfUseful + 1 },
                        tally := { s.tally with useful := s.tally.useful + 1 } }
  | .beginPhase => { s with stats := {}, tally := { s.tally with phase := true } }
  | .cycle bwQuantized =>
    { s with prefetcher := operate s.stats bwQuantized s.prefetcher,
             tally := if s.due then {} else s.tally }

/-- The states in which a run evaluates an epoch, each just before it does. -/
def evaluations (operate : SimStats → ℕ → AdaptiveState → AdaptiveState) :
    System → List Event → List System
  | _,[] => []
  | s,e :: rest =>
    let later := evaluations operate (s.step operate e) rest
    match e with
    | .cycle _ => if s.due then s :: later else later
    | _ => later

end System

/-- The unsigned difference of two counters is at most the number of events, and equal to it
unless a phase began. -/
def CountsEvents (current last : BitVec 64) (events : ℕ) (phase : Bool) : Prop :=
  (current - last).toNat ≤ events ∧ (phase = false → (current - last).toNat = events)

/-- With no phase in between, the number of events fits in the counter; otherwise the counter
has caught up with its last value, or the events since are as many as the wrapped difference. -/
def CaughtUp (current last : BitVec 64) (events : ℕ) (phase : Bool) : Prop :=
  (phase = false → events < 2 ^ 64) ∧
    (phase = true → last ≤ current ∨ 2 ^ 64 + current.toNat ≤ last.toNat + events)

namespace System

/-- What epoch_issued and epoch_useful are meant to be. -/
def Counts (s : System) : Prop :=
  CountsEvents s.stats.pfIssued s.prefetcher.lastPfIssued s.tally.issued s.tally.phase ∧
    CountsEvents s.stats.pfUseful s.prefetcher.lastPfUseful s.tally.useful s.tally.phase

/-- Both counters of the cache have caught up with the prefetcher's. -/
def CaughtUp (s : System) : Prop :=
  Lab4.CaughtUp s.stats.pfIssued s.prefetcher.lastPfIssued s.tally.issued s.tally.phase ∧
    Lab4.CaughtUp s.stats.pfUseful s.prefetcher.lastPfUseful s.tally.useful s.tally.phase

end System

/-- The counter goes on from its last value, or it began again. -/
def CounterInv (current last : BitVec 64) (events : ℕ) (phase : Bool) : Prop :=
  (phase = false → current = last + BitVec.ofNat 64 events) ∧
    (phase = true → current.toNat ≤ events)

section Counter
variable {current last : BitVec 64} {events : ℕ} {phase : Bool}

lemma countsEvents_iff (h : CounterInv current last events phase) :
    CountsEvents current last events phase ↔ CaughtUp current last events phase := by
  cases phase with
  | false =>
    have hdiff : (current - last).toNat = events % 2 ^ 64 := by
      rw [h.1 rfl, BitVec.add_comm, BitVec.add_sub_cancel, BitVec.toNat_ofNat]
    simp only [CountsEvents, CaughtUp, hdiff, forall_const, Bool.false_eq_true, false_implies,
      and_true]
    constructor
    · rintro ⟨-,heq⟩
      exact heq ▸ Nat.mod_lt _ (by decide)
    · intro hlt
      rw [Nat.mod_eq_of_lt hlt]
      exact ⟨le_rfl,rfl⟩
  | true =>
    have hle := h.2 rfl
    have hcur := current.isLt
    have hlast := last.isLt
    simp only [CountsEvents, CaughtUp, Bool.true_eq_false, false_implies, and_true, true_and,
      forall_const, BitVec.le_def, BitVec.toNat_sub]
    omega

lemma CounterInv.count (h : CounterInv current last events phase) :
    CounterInv (current + 1) last (events + 1) phase := by
  refine ⟨fun hp => ?_,fun hp => ?_⟩
  · rw [h.1 hp, BitVec.ofNat_add, BitVec.add_assoc]
    rfl
  · have hle := h.2 hp
    have hcur := current.isLt
    have hone : (1 : BitVec 64).toNat = 1 := rfl
    rw [BitVec.toNat_add, hone]
    omega

lemma CounterInv.begin_phase : CounterInv 0 last events true :=
  ⟨fun h => (by cases h),fun _ => Nat.zero_le _⟩

lemma CounterInv.evaluated : CounterInv current current 0 false :=
  ⟨fun _ => (BitVec.add_zero current).symm,fun h => (by cases h)⟩

end Counter

/-- Both counters are known in terms of the events. -/
structure SystemInv (s : System) : Prop where
  issued : CounterInv s.stats.pfIssued s.prefetcher.lastPfIssued s.tally.issued s.tally.phase
  useful : CounterInv s.stats.pfUseful s.prefetcher.lastPfUseful s.tally.useful s.tally.phase

/-- The function of the cycle: no evaluation, one without issued prefetches, or an adjustment. -/
lemma evaluateEpoch_cases (quotient : BitVec 64 → BitVec 64 → ℚ) (stats : SimStats)
    (bwQuantized : ℕ) (p : AdaptiveState) :
    (¬p.epochCycleCount + 1 ≥ epochLength ∧ evaluateEpoch quotient stats bwQuantized p =
        { p with epochCycleCount := p.epochCycleCount + 1 }) ∨
    (p.epochCycleCount + 1 ≥ epochLength ∧ stats.pfIssued - p.lastPfIssued = 0 ∧
      evaluateEpoch quotient stats bwQuantized p =
        ⟨p.epochCycleCount + 1,stats.pfIssued,stats.pfUseful,p.currentPrefetchDegree⟩) ∨
    (p.epochCycleCount + 1 ≥ epochLength ∧ stats.pfIssued - p.lastPfIssued ≠ 0 ∧
      ∃ degree, evaluateEpoch quotient stats bwQuantized p =
        ⟨0,stats.pfIssued,stats.pfUseful,clampDegree degree⟩) := by
  unfold evaluateEpoch
  by_cases hdue : p.epochCycleCount + 1 ≥ epochLength
  · by_cases hissued : stats.pfIssued - p.lastPfIssued = 0
    · exact .inr (.inl ⟨hdue,hissued,by simp only [if_pos hdue, if_pos hissued]⟩)
    · exact .inr (.inr ⟨hdue,hissued,_,by simp only [if_pos hdue, if_neg hissued]; rfl⟩)
  · exact .inl ⟨hdue,by simp only [if_neg hdue]⟩

lemma SystemInv.step {s : System} (h : SystemInv s) (quotient : BitVec 64 → BitVec 64 → ℚ)
    (e : Event) : SystemInv (s.step (evaluateEpoch quotient) e) := by
  cases e with
  | issue => exact ⟨h.issued.count,h.useful⟩
  | useful => exact ⟨h.issued,h.useful.count⟩
  | beginPhase => exact ⟨.begin_phase,.begin_phase⟩
  | cycle bwQuantized =>
    obtain ⟨stats,prefetcher,tally⟩ := s
    simp only [System.step, System.due]
    rcases evaluateEpoch_cases quotient stats bwQuantized prefetcher with
      ⟨hdue,heval⟩ | ⟨hdue,-,heval⟩ | ⟨hdue,-,degree,heval⟩
    · simp only [hdue, heval, decide_false, Bool.false_eq_true, if_false]
      exact ⟨h.issued,h.useful⟩
    · simp only [hdue, heval, decide_true, if_true]
      exact ⟨.evaluated,.evaluated⟩
    · simp only [hdue, heval, decide_true, if_true]
      exact ⟨.evaluated,.evaluated⟩

lemma SystemInv.evaluations {s : System} (h : SystemInv s)
    (quotient : BitVec 64 → BitVec 64 → ℚ) (events : List Event) :
    ∀ v ∈ s.evaluations (evaluateEpoch quotient) events, SystemInv v := by
  induction events generalizing s with
  | nil =>
    intro v hv
    cases hv
  | cons e rest ih =>
    have hlater := ih (h.step quotient e)
    intro v hv
    cases e with
    | issue => exact hlater v hv
    | useful => exact hlater v hv
    | beginPhase => exact hlater v hv
    | cycle bwQuantized =>
      simp only [System.evaluations] at hv
      split_ifs at hv
      · obtain rfl | hv := List.mem_cons.mp hv
        · exact h
        · exact hlater v hv
      · exact hlater v hv

/-- In every run of either prefetcher, an evaluation counts the events since the one before
exactly if both counters have caught up. -/
theorem evaluations_count_iff (quotient : BitVec 64 → BitVec 64 → ℚ) (events : List Event) :
    (∀ v ∈ ({} : System).evaluations (ghbPccsCycleOperate quotient) events,
      v.Counts ↔ v.CaughtUp) ∧
    ∀ v ∈ ({} : System).evaluations (ghbCycleOperate quotient) events, v.Counts ↔ v.CaughtUp := by
  have hinit : SystemInv {} := ⟨.evaluated,.evaluated⟩
  have hall : ∀ v ∈ ({} : System).evaluations (evaluateEpoch quotient) events,
      v.Counts ↔ v.CaughtUp := by
    intro v hv
    have hinv := hinit.evaluations quotient events v hv
    exact and_congr (countsEvents_iff hinv.issued) (countsEvents_iff hinv.useful)
  exact ⟨hall,hall⟩

/-- A prefetch in the first epoch, and a phase that begins after its evaluation. -/
def phaseAfterEpoch : List Event :=
  .issue :: (List.replicate 1000 (.cycle 0) ++ .beginPhase :: List.replicate 1000 (.cycle 0))

/-- The second evaluation finds 2^64-1 prefetches where none was issued. -/
theorem phaseAfterEpoch_wraps :
    ∃ v ∈ ({} : System).evaluations
        (ghbPccsCycleOperate fun useful issued => (useful.toNat / issued.toNat : ℚ)) phaseAfterEpoch,
      (v.stats.pfIssued - v.prefetcher.lastPfIssued).toNat = 2 ^ 64 - 1 ∧
        v.tally.issued = 0 ∧ ¬v.Counts := by
  have hwrap : ∃ v ∈ ({} : System).evaluations
      (ghbPccsCycleOperate fun useful issued => (useful.toNat / issued.toNat : ℚ)) phaseAfterEpoch,
      (v.stats.pfIssued - v.prefetcher.lastPfIssued).toNat = 2 ^ 64 - 1 ∧
        v.tally.issued = 0 := by decide +kernel
  obtain ⟨v,hv,hdiff,hissued⟩ := hwrap
  refine ⟨v,hv,hdiff,hissued,?_⟩
  rintro ⟨⟨hle,-⟩,-⟩
  rw [hdiff, hissued] at hle
  omega

end CaLabs.Lab4
