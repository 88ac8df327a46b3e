import CaLabs.Lab4.AdaptiveWindow
import CaLabs.Lab4.BestOffset
import CaLabs.Lab4.Ghb
import CaLabs.Lab4.Tournament

/-! The hybrid prefetcher of lab 4 as a whole: GHB and BOP under one tournament, and one callback
for the fills of both. -/
namespace CaLabs.Lab4.Hybrid
open BestOffset (Bop Line lineOf page triggerLine)

/-- The state after prefetcher_initialize, with both prefetchers in hybrid mode. -/
structure Prefetcher where
  bop : Bop := { hybridMode := true }
  ghb : Ghb.HybridGhb := { hybridMode := true }
  adaptive : AdaptiveState := {}
  tournament : Tournament := {}

/-- The arguments of prefetcher_cache_operate that are used. -/
structure Access where
  addr : BitVec 64
  ip : BitVec 64
  cacheHit : Bool := false
  usefulPrefetch : Bool := false
  deriving DecidableEq, Repr

/-- What happens in a run: an access, a fill with its prefetch bit, or the end of a cycle with the
statistics of the cache and the bandwidth of the memory. -/
inductive Event where
  | access (a : Access)
  | fill (addr : BitVec 64) (prefetch : Bool)
  | cycle (stats : SimStats) (bwQuantized : ℕ)

namespace Prefetcher
variable (s : Prefetcher) (a : Access)

/-- bop after the access. -/
def bopOperate : Bop :=
  (s.bop.cacheOperate
    { addr := a.addr, cacheHit := a.cacheHit, usefulPrefetch := a.usefulPrefetch }).1

/-- ghb after the access. -/
def ghbOperate : Ghb.HybridGhb :=
  (Ghb.ghbCacheOperate s.adaptive.currentPrefetchDegree.toNat s.ghb ⟨a.addr,a.ip⟩).2

/-- The predictions of the access, as lines with their predictor. -/
def predicted : List (ℕ × Predictor) :=
  (s.ghbOperate a).pendingPrefetches.map (fun addr => ((lineOf addr).toNat,.ghb)) ++
    if (s.bopOperate a).bestLineValid then [((s.bopOperate a).bestLine.toNat,.bop)] else []

/-- Parts 1 to 3 of hybrid::prefetcher_cache_operate. -/
def cacheOperate : Prefetcher :=
  { s with
    bop := s.bopOperate a
    ghb := s.ghbOperate a
    tournament := s.tournament.access (lineOf a.addr).toNat (!a.cacheHit || a.usefulPrefetch)
      (s.predicted a) }

/-- The arbitration of part 4: whether GHB and whether BOP issues. -/
def arbitration (tournamentCounter : ℕ) : Bool × Bool :=
  if tournamentCounter ≥ 6 then (true,false)
  else if tournamentCounter ≤ 4 then (false,true)
  else (true,true)

/-- Part 4: the addresses that the access issues for a predictor. -/
def issuedFor : Predictor → List (BitVec 64)
  | .ghb =>
    let s' := s.cacheOperate a
    if (arbitration s'.tournament.tournamentCounter).1 then s'.ghb.pendingPrefetches else []
  | .bop =>
    let s' := s.cacheOperate a
    if (arbitration s'.tournament.tournamentCounter).2 && s'.bop.bestLineValid then
      [s'.bop.bestLine <<< 6]
    else []

def issued : List (BitVec 64) := s.issuedFor a .ghb ++ s.issuedFor a .bop

section Run
variable (quotient : BitVec 64 → BitVec 64 → ℚ)

def step (s : Prefetcher) : Event → Prefetcher
  | .access a => s.cacheOperate a
  | .fill addr prefetch => { s with bop := s.bop.cacheFill addr prefetch }
  | .cycle stats bwQuantized =>
    { s with adaptive := ghbCycleOperate quotient stats bwQuantized s.adaptive }

def run (s : Prefetcher) (events : List Event) : Prefetcher := events.foldl (step quotient) s

end Run
end Prefetcher

/-! What the RR table learns from. -/

/-- A best_line that BOP computed, at the access to which line. -/
structure Computed where
  line : Line
  bestLine : Line
  deriving DecidableEq, Repr

namespace Prefetcher
variable (quotient : BitVec 64 → BitVec 64 → ℚ)

/-- What BOP computes in an event. -/
def computedBy (s : Prefetcher) : Event → List Computed
  | .access a =>
    if (s.bopOperate a).bestLineValid then [⟨lineOf a.addr,(s.bopOperate a).bestLine⟩] else []
  | .fill _ _ | .cycle _ _ => []

/-- What BOP computes in a run. -/
def computed : Prefetcher → List Event → List Computed
  | _,[] => []
  | s,e :: rest => s.computedBy e ++ computed (s.step quotient e) rest

/-- The fill of a prefetch records a trigger line. -/
def Records (s : Prefetcher) (addr : BitVec 64) : Prop :=
  page (triggerLine s.bop.bestOffset (lineOf addr) true) = page (lineOf addr)

/-- If the fill records its trigger line, then that line was accessed, and BOP computed the filled
line as its best_line. -/
def LearnsFromBop (s : Prefetcher) (history : List Computed) (addr : BitVec 64) : Prop :=
  s.Records addr → ∃ c ∈ history,
    c.line = triggerLine s.bop.bestOffset (lineOf addr) true ∧ c.bestLine = lineOf addr

/-- The fill after these events is that of a prefetch of BOP: an access issued it for BOP, and
best_offset is what it was then. -/
def OwnFill (s : Prefetcher) (events : List Event) (addr : BitVec 64) : Prop :=
  ∃ before a since, events = before ++ .access a :: since ∧
    addr ∈ (s.run quotient before).issuedFor a .bop ∧
    (s.run quotient events).bop.bestOffset =
      ((s.run quotient before).cacheOperate a).bop.bestOffset

/-- What holds of every fill of a prefetch in the run. -/
def AtPrefetchFills (events : List Event) (P : List Event → BitVec 64 → Prop) : Prop :=
  ∀ before addr after, events = before ++ .fill addr true :: after → P before addr

end Prefetcher
open Prefetcher

lemma bestLineValid_learn (b : Bop) (line : Line) :
    (b.learn line).bestLineValid = b.bestLineValid := by
  simp only [Bop.learn]
  split_ifs <;> rfl

/-- A valid best_line is the accessed line plus best_offset. -/
lemma bestLine_of_valid {b : Bop} {a : BestOffset.Access}
    (h : (b.cacheOperate a).1.bestLineValid = true) : (b.cacheOperate a).1.bestLine =
      a.line + BitVec.ofNat 64 (b.cacheOperate a).1.bestOffset := by
  have hissue : ∀ (b : Bop) (line : Line), b.bestLineValid = false →
      (b.issue line).1.bestLineValid = true →
      (b.issue line).1.bestLine = line + BitVec.ofNat 64 (b.issue line).1.bestOffset := by
    intro b line hinvalid hvalid
    simp only [Bop.issue] at hvalid ⊢
    split_ifs at hvalid ⊢
    · rfl
    · exact absurd hvalid (by rw [hinvalid]; decide)
    · exact absurd hvalid (by rw [hinvalid]; decide)
  rw [Bop.cacheOperate] at h ⊢
  cases ha : a.operates with
  | false =>
    rw [ha] at h
    cases h
  | true =>
    rw [if_pos ha] at h
    rw [if_pos rfl]
    exact hissue _ _ (bestLineValid_learn _ _) h

/-- It lies in the page of the accessed line. -/
lemma page_bestLine {b : Bop} {a : BestOffset.Access}
    (h : (b.cacheOperate a).1.bestLineValid = true) :
    page (b.cacheOperate a).1.bestLine = page a.line := by
  have hissue : ∀ (b : Bop) (line : Line), b.bestLineValid = false →
      (b.issue line).1.bestLineValid = true → page (b.issue line).1.bestLine = page line := by
    intro b line hinvalid hvalid
    simp only [Bop.issue] at hvalid ⊢
    split_ifs at hvalid ⊢ with hpage
    · rw [Bool.and_eq_true, decide_eq_true_eq] at hpage
      exact hpage.2
    · exact absurd hvalid (by rw [hinvalid]; decide)
    · exact absurd hvalid (by rw [hinvalid]; decide)
  rw [Bop.cacheOperate] at h ⊢
  cases ha : a.operates with
  | false =>
    rw [ha] at h
    cases h
  | true =>
    rw [if_pos ha] at h
    rw [if_pos rfl]
    exact hissue _ _ (bestLineValid_learn _ _) h

/-- The line of the address that is issued for a line. -/
lemma lineOf_shiftLeft {line : Line} {addr : BitVec 64} (h : page line = page (lineOf addr)) :
    lineOf (line <<< 6) = line := by
  have hnat := congrArg BitVec.toNat h
  simp only [page, lineOf, BitVec.toNat_ushiftRight, Nat.shiftRight_eq_div_pow] at hnat
  have hlt := addr.isLt
  apply BitVec.eq_of_toNat_eq
  simp only [lineOf, BitVec.toNat_ushiftRight, BitVec.toNat_shiftLeft, Nat.shiftRight_eq_div_pow,
    Nat.shiftLeft_eq]
  omega

/-- What an access issues for BOP is its best_line, the accessed line plus best_offset. -/
lemma issuedFor_bop {s : Prefetcher} {a : Access} {addr : BitVec 64}
    (h : addr ∈ s.issuedFor a .bop) :
    (s.bopOperate a).bestLineValid = true ∧ lineOf addr = (s.bopOperate a).bestLine ∧
      lineOf addr = lineOf a.addr + BitVec.ofNat 64 (s.bopOperate a).bestOffset := by
  have hissue : (s.cacheOperate a).bop = s.bopOperate a := rfl
  simp only [issuedFor, hissue] at h
  split_ifs at h with hvalid
  · rw [Bool.and_eq_true] at hvalid
    obtain rfl := List.mem_singleton.mp h
    have hline : lineOf ((s.bopOperate a).bestLine <<< 6) = (s.bopOperate a).bestLine :=
      lineOf_shiftLeft (page_bestLine hvalid.2)
    exact ⟨hvalid.2,hline,hline.trans (bestLine_of_valid hvalid.2)⟩
  · cases h

lemma computed_append (quotient : BitVec 64 → BitVec 64 → ℚ) (s : Prefetcher)
    (before after : List Event) : s.computed quotient (before ++ after) =
      s.computed quotient before ++ (s.run quotient before).computed quotient after := by
  induction before generalizing s with
  | nil => rfl
  | cons e rest ih =>
    change s.computedBy e ++ (s.step quotient e).computed quotient (rest ++ after) = _
    rw [ih, ← List.append_assoc]
    rfl

/-- A fill of BOP's own prefetch records the line whose access issued it. -/
lemma learnsFromBop_of_ownFill {quotient : BitVec 64 → BitVec 64 → ℚ} {s : Prefetcher}
    {events : List Event} {addr : BitVec 64} (h : s.OwnFill quotient events addr) :
    (s.run quotient events).LearnsFromBop (s.computed quotient events) addr := by
  obtain ⟨before,a,since,rfl,hissued,hoffset⟩ := h
  obtain ⟨hvalid,hbest,hsum⟩ := issuedFor_bop hissued
  intro _
  refine ⟨⟨lineOf a.addr,((s.run quotient before).bopOperate a).bestLine⟩,?_,?_,hbest.symm⟩
  · rw [computed_append]
    refine List.mem_append_right _ (List.mem_append_left _ ?_)
    simp only [computedBy, hvalid, if_true, List.mem_singleton]
  · rw [triggerLine, if_pos rfl, hoffset, hsum]
    exact (BitVec.add_sub_cancel _ _).symm

/-- Three misses of one instruction at every second line. -/
def stridedMiss (i : ℕ) : Access := { addr := BitVec.ofNat 64 (0x40000 + 128 * i), ip := 5 }

def stridedMisses : List Event :=
  [.access (stridedMiss 0), .access (stridedMiss 1), .access (stridedMiss 2)]

/-- In every run that fills only prefetches that were issued for BOP, with the best_offset that it
still has, the RR table learns from BOP's own prefetches only. -/
theorem learns_only_from_bop (quotient : BitVec 64 → BitVec 64 → ℚ) (events : List Event)
    (hown : AtPrefetchFills events (({} : Prefetcher).OwnFill quotient)) :
    AtPrefetchFills events fun before addr =>
      (({} : Prefetcher).run quotient before).LearnsFromBop
        (({} : Prefetcher).computed quotient before) addr :=
  fun before addr after h => learnsFromBop_of_ownFill (hown before addr after h)

/-- The prefetch that the first of two misses has issued for BOP is filled after the second. -/
theorem stridedMiss_learns_only_from_bop :
    (({} : Prefetcher).run (fun _ _ => 0)
        [.access (stridedMiss 0), .access (stridedMiss 1)]).Records 0x40040 ∧
      (({} : Prefetcher).run (fun _ _ => 0)
        [.access (stridedMiss 0), .access (stridedMiss 1)]).LearnsFromBop
        (({} : Prefetcher).computed (fun _ _ => 0)
          [.access (stridedMiss 0), .access (stridedMiss 1)]) 0x40040 := by
  refine ⟨by unfold Records; decide +kernel,learns_only_from_bop (fun _ _ => 0)
    [.access (stridedMiss 0), .access (stridedMiss 1), .fill 0x40040 true]
    (fun before addr after h => ?_) _ _ [] rfl⟩
  match before, h with
  | [_,_], h =>
    simp only [List.cons_append, List.nil_append, List.cons.injEq, Event.fill.injEq] at h
    obtain ⟨rfl,rfl,⟨rfl,-⟩,-⟩ := h
    exact ⟨[],stridedMiss 0,[.access (stridedMiss 1)],rfl,by decide +kernel,by decide +kernel⟩
  | _ :: _ :: _ :: _, h => simp at h

/-- The third miss issues the line 12 after the first one for GHB; when it is filled, the RR table
learns that the line before it, which was never accessed, was its trigger. -/
theorem ghbFill_pollutes :
    0x40300 ∈ (({} : Prefetcher).run (fun _ _ => 0)
        [.access (stridedMiss 0), .access (stridedMiss 1)]).issued (stridedMiss 2) ∧
      ¬(({} : Prefetcher).run (fun _ _ => 0) stridedMisses).LearnsFromBop
        (({} : Prefetcher).computed (fun _ _ => 0) stridedMisses) 0x40300 := by
  refine ⟨by decide +kernel,fun h => ?_⟩
  have hnone : ∀ c ∈ ({} : Prefetcher).computed (fun _ _ => 0) stridedMisses,
      c.bestLine ≠ lineOf 0x40300 := by decide +kernel
  obtain ⟨c,hc,-,hbest⟩ := h (by unfold Records; decide +kernel)
  exact hnone c hc hbest

/-! The tournament of a run. -/

/-- The degree bounds the number of prefetches. -/
lemma length_prefetches_le (degree : ℕ) (block : BitVec 64) (history : List (BitVec 64)) :
    (Ghb.prefetches degree block history).length ≤ degree := by
  unfold Ghb.prefetches
  split
  · dsimp only
    split_ifs
    · rw [List.length_map]
      refine ((List.takeWhile_sublist _).length_le).trans ?_
      rw [List.length_map, List.length_range]
    · exact Nat.zero_le _
  · exact Nat.zero_le _

lemma adaptive_le {quotient : BitVec 64 → BitVec 64 → ℚ} {p : AdaptiveState}
    (h : p.currentPrefetchDegree ≤ maxDegree) (stats : SimStats) (bwQuantized : ℕ) :
    (ghbCycleOperate quotient stats bwQuantized p).currentPrefetchDegree ≤ maxDegree := by
  rcases evaluateEpoch_cases quotient stats bwQuantized p with
    ⟨-,heq⟩ | ⟨-,-,heq⟩ | ⟨-,-,degree,heq⟩
  · rw [ghbCycleOperate, heq]
    exact h
  · rw [ghbCycleOperate, heq]
    exact h
  · rw [ghbCycleOperate, heq]
    exact (clampDegree_range degree).2

/-- An access predicts at most six lines for GHB. -/
lemma tournament_cacheOperate {s : Prefetcher} (h : s.adaptive.currentPrefetchDegree ≤ maxDegree)
    (a : Access) : ∃ p : Predictions,
      (s.cacheOperate a).tournament = s.tournament.operate p := by
  have hle : (s.ghbOperate a).pendingPrefetches.length ≤ 6 := by
    have hpf := length_prefetches_le s.adaptive.currentPrefetchDegree.toNat
      (Ghb.Access.block ⟨a.addr,a.ip⟩) (s.ghb.tables.history ⟨a.addr,a.ip⟩)
    have hnat : s.adaptive.currentPrefetchDegree.toNat ≤ 6 := by
      simp only [maxDegree] at h
      omega
    simp only [ghbOperate, Ghb.ghbCacheOperate]
    split_ifs
    · exact hpf.trans hnat
    · exact Nat.zero_le _
  refine ⟨⟨(lineOf a.addr).toNat,!a.cacheHit || a.usefulPrefetch,
    (s.ghbOperate a).pendingPrefetches.map fun addr => (lineOf addr).toNat,
    if (s.bopOperate a).bestLineValid then some (s.bopOperate a).bestLine.toNat else none,
    by rw [List.length_map]; exact hle⟩,?_⟩
  rw [cacheOperate, Tournament.operate, predicted, Predictions.predicted, List.map_map]
  split_ifs <;> rfl

/-- The tournament of every run is one of accesses with predictions. -/
lemma tournament_of_run (quotient : BitVec 64 → BitVec 64 → ℚ) (events : List Event) :
    (({} : Prefetcher).run quotient events).adaptive.currentPrefetchDegree ≤ maxDegree ∧
      ∃ ps : List Predictions, (({} : Prefetcher).run quotient events).tournament =
        ps.foldl Tournament.operate {} := by
  induction events using List.reverseRecOn with
  | nil => exact ⟨le_rfl,[],rfl⟩
  | append_singleton events e ih =>
    have hrun : ({} : Prefetcher).run quotient (events ++ [e]) =
        (({} : Prefetcher).run quotient events).step quotient e := by
      rw [Prefetcher.run, List.foldl_append]
      rfl
    rw [hrun]
    generalize ({} : Prefetcher).run quotient events = s at ih ⊢
    obtain ⟨hdegree,ps,hps⟩ := ih
    cases e with
    | access a =>
      obtain ⟨p,hp⟩ := tournament_cacheOperate hdegree a
      refine ⟨hdegree,ps ++ [p],?_⟩
      rw [List.foldl_append, ← hps]
      exact hp
    | fill addr prefetch => exact ⟨hdegree,ps,hps⟩
    | cycle stats bwQuantized => exact ⟨adaptive_le hdegree stats bwQuantized,ps,hps⟩

/-- In every run of the hybrid prefetcher the shadow table is exact for some history. -/
theorem hybrid_shadowTable_exact (quotient : BitVec 64 → BitVec 64 → ℚ) (events : List Event) :
    ∃ x : Tracked, x.tournament = (({} : Prefetcher).run quotient events).tournament ∧
      Exact x := by
  obtain ⟨-,ps,hps⟩ := tournament_of_run quotient events
  exact ⟨Tracked.run false ps,(Tracked.tournament_run false ps).trans hps.symm,exact_run ps⟩

end CaLabs.Lab4.Hybrid
