import Mathlib.Data.BitVec
import Mathlib.Data.Fin.VecNotation
import Mathlib.Data.List.Sort
import Mathlib.Tactic.SplitIfs

/-! The best-offset prefetchers of lab 4: bop, alone or under the hybrid prefetcher, and abop.
They learn in the same way and differ in what they issue. -/
namespace CaLabs.Lab4.BestOffset

abbrev Line := BitVec 64
abbrev scoreTableSize : ℕ := 52
abbrev maxScore : ℕ := 31
abbrev badScore : ℕ := 1
abbrev roundMax : ℕ := 100

def candidates : Fin scoreTableSize → ℕ :=
  ![1, 2, 3, 4, 5, 6, 8, 9, 10, 12, 15, 16, 18, 20, 24, 25, 27, 30, 32, 36, 40, 45, 48, 50, 54, 60,
    64, 72, 75, 80, 81, 90, 96, 100, 108, 120, 125, 128, 135, 144, 150, 160, 162, 180, 192, 200,
    216, 225, 240, 243, 250, 256]

/-- The line of an address; LOG2_BLOCK_SIZE is 6. -/
def lineOf (addr : BitVec 64) : Line := addr >>> 6

/-- The page frame of a line; LOG2_PAGE_SIZE is 12. -/
def page (line : Line) : Line := line >>> 6

/-- The lowest 8 bits of the line, xor the next 8. -/
def hash (line : Line) : BitVec 8 := line.extractLsb' 0 8 ^^^ line.extractLsb' 8 8

/-- Bits 19 to 8. -/
def tagVal (line : Line) : BitVec 12 := line.extractLsb' 8 12

/-- The RR table and the scoreboard, as prefetcher_initialize sets them. The counters are
unbounded. -/
structure Learner where
  rrTable : BitVec 8 → BitVec 12 := fun _ => 0
  scores : Fin scoreTableSize → ℕ := fun _ => 0
  roundCounter : ℕ := 0
  accessCounter : ℕ := 0

/-- The trigger that a fill is attributed to. -/
def triggerLine (bestOffset : ℕ) (fillLine : Line) (prefetch : Bool) : Line :=
  if prefetch then fillLine - BitVec.ofNat 64 bestOffset else fillLine

/-- The order of std::sort over the reversed pairs of score and index. -/
def SortsBefore (x y : ℕ × Fin scoreTableSize) : Prop := y.1 < x.1 ∨ (y.1 = x.1 ∧ y.2 ≤ x.2)

instance : DecidableRel SortsBefore := fun x y =>
  inferInstanceAs (Decidable (y.1 < x.1 ∨ (y.1 = x.1 ∧ y.2 ≤ x.2)))

namespace Learner

def record (l : Learner) (triggerLine : Line) : Learner :=
  { l with rrTable := Function.update l.rrTable (hash triggerLine) (tagVal triggerLine) }

/-- prefetcher_cache_fill with the offset that the prefetcher has at the moment. -/
def cacheFill (l : Learner) (bestOffset : ℕ) (fillLine : Line) (prefetch : Bool) : Learner :=
  let triggerLine := triggerLine bestOffset fillLine prefetch
  if page triggerLine ≠ page fillLine then l else l.record triggerLine

def candidateIdx (l : Learner) : Fin scoreTableSize := Fin.ofNat scoreTableSize l.accessCounter

def testLine (l : Learner) (currentLine : Line) : Line :=
  currentLine - BitVec.ofNat 64 (candidates l.candidateIdx)

def hits (l : Learner) (currentLine : Line) : Bool :=
  l.rrTable (hash (l.testLine currentLine)) = tagVal (l.testLine currentLine)

/-- Part 1 of prefetcher_cache_operate: one candidate is tested. -/
def test (l : Learner) (currentLine : Line) : Learner :=
  let i := l.candidateIdx
  let scores := if l.hits currentLine then Function.update l.scores i (l.scores i + 1) else l.scores
  let roundCounter :=
    if l.hits currentLine && scores i = maxScore then roundMax else l.roundCounter
  { l with scores := scores, roundCounter := roundCounter + 1,
           accessCounter := l.accessCounter + 1 }

def roundOver (l : Learner) : Bool := roundMax ≤ l.roundCounter

/-- The scores with their indices, sorted from the greatest pair to the least. -/
def scoreIndices (l : Learner) : List (ℕ × Fin scoreTableSize) :=
  ((List.finRange scoreTableSize).map fun i => (l.scores i,i)).insertionSort SortsBefore

/-- score_indices[0]. -/
def best (l : Learner) : ℕ × Fin scoreTableSize := l.scoreIndices.headD (0,0)

/-- The reset at the end of part 2. -/
def nextRound (l : Learner) : Learner := { l with scores := fun _ => 0, roundCounter := 0 }

/-- Parts 1 and 2 without the offsets. -/
def learn (l : Learner) (currentLine : Line) : Learner :=
  let l := l.test currentLine
  if l.roundOver then l.nextRound else l

end Learner

/-- The arguments of prefetcher_cache_operate that are used, with what get_dram_bw returns. -/
structure Access where
  addr : BitVec 64
  cacheHit : Bool := false
  usefulPrefetch : Bool := false
  bw : BitVec 8 := 0
  deriving DecidableEq, Repr

namespace Access

def line (a : Access) : Line := lineOf a.addr

/-- The prefetchers only operate on cache misses or useful prefetch fills. -/
def operates (a : Access) : Bool := !(a.cacheHit && !a.usefulPrefetch)

end Access

structure Bop where
  learner : Learner := {}
  bestOffset : ℕ := 1
  hybridMode : Bool := false
  bestLine : Line := 0
  bestLineValid : Bool := false
  prefetchEnabled : Bool := true

namespace Bop

def cacheFill (b : Bop) (addr : BitVec 64) (prefetch : Bool) : Bop :=
  { b with learner := b.learner.cacheFill b.bestOffset (lineOf addr) prefetch }

/-- Parts 1 and 2. -/
def learn (b : Bop) (currentLine : Line) : Bop :=
  let learner := b.learner.test currentLine
  if learner.roundOver then
    { b with
      learner := learner.nextRound
      bestOffset := candidates learner.best.2
      prefetchEnabled := badScore < learner.best.1 }
  else { b with learner := learner }

/-- Part 3: the addresses that are issued, none in hybrid mode. -/
def issue (b : Bop) (currentLine : Line) : Bop × List (BitVec 64) :=
  let pfLine := currentLine + BitVec.ofNat 64 b.bestOffset
  if b.prefetchEnabled && page pfLine = page currentLine then
    if b.hybridMode then ({ b with bestLineValid := true, bestLine := pfLine },[])
    else (b,[pfLine <<< 6])
  else (b,[])

/-- bop::prefetcher_cache_operate. -/
def cacheOperate (b : Bop) (a : Access) : Bop × List (BitVec 64) :=
  let b := { b with bestLineValid := false }
  if a.operates then (b.learn a.line).issue a.line else (b,[])

end Bop

structure Abop where
  learner : Learner := {}
  bestOffsets : List ℕ := [1, 0, 0]
  currentDegree : ℕ := 1

namespace Abop

def bestOffset (s : Abop) : ℕ := s.bestOffsets.headD 0

def cacheFill (s : Abop) (addr : BitVec 64) (prefetch : Bool) : Abop :=
  { s with learner := s.learner.cacheFill s.bestOffset (lineOf addr) prefetch }

/-- Parts 1 and 2. -/
def learn (s : Abop) (currentLine : Line) : Abop :=
  let learner := s.learner.test currentLine
  if learner.roundOver then
    { learner := learner.nextRound
      bestOffsets := (learner.scoreIndices.take 3).map fun x => candidates x.2
      currentDegree := if learner.best.1 ≤ badScore then 0 else 1 }
  else { s with learner := learner }

/-- The degree for a bandwidth. -/
def degree (s : Abop) (bw : BitVec 8) : ℕ :=
  if s.currentDegree ≠ 0 then if bw > 11 then 1 else if bw < 4 then 3 else 2 else 0

/-- The issue loop of part 3. -/
def issue (s : Abop) (currentLine : Line) (bw : BitVec 8) : List (BitVec 64) :=
  (s.bestOffsets.take (s.degree bw)).filterMap fun offset =>
    let pfLine := currentLine + BitVec.ofNat 64 offset
    if page pfLine = page currentLine then some (pfLine <<< 6) else none

/-- abop::prefetcher_cache_operate. -/
def cacheOperate (s : Abop) (a : Access) : Abop × List (BitVec 64) :=
  if a.operates then (s.learn a.line,(s.learn a.line).issue a.line a.bw) else (s,[])

end Abop

/-- What the two prefetchers have in common. -/
structure OffsetPrefetcher (σ : Type) where
  initial : σ
  learner : σ → Learner
  bestOffset : σ → ℕ
  enabled : σ → Bool
  cacheFill : σ → BitVec 64 → Bool → σ
  cacheOperate : σ → Access → σ
  initial_learner : learner initial = {}
  learner_fill : ∀ s addr prefetch, learner (cacheFill s addr prefetch) =
    (learner s).cacheFill (bestOffset s) (lineOf addr) prefetch
  learner_idle : ∀ s a, a.operates = false → learner (cacheOperate s a) = learner s
  learner_operate : ∀ s a, a.operates = true →
    learner (cacheOperate s a) = (learner s).learn a.line
  selects : ∀ s a, a.operates = true → ((learner s).test a.line).roundOver = true →
    bestOffset (cacheOperate s a) = candidates ((learner s).test a.line).best.2 ∧
      enabled (cacheOperate s a) = decide (badScore < ((learner s).test a.line).best.1)

namespace Bop

lemma issue_keeps (b : Bop) (line : Line) : (b.issue line).1.learner = b.learner ∧
    (b.issue line).1.bestOffset = b.bestOffset ∧
    (b.issue line).1.prefetchEnabled = b.prefetchEnabled := by
  simp only [issue]
  split_ifs <;> exact ⟨rfl,rfl,rfl⟩

lemma learn_learner (b : Bop) (line : Line) :
    (b.learn line).learner = b.learner.learn line := by
  simp only [learn, Learner.learn]
  split_ifs <;> rfl

lemma learn_selects {b : Bop} {line : Line} (h : (b.learner.test line).roundOver = true) :
    (b.learn line).bestOffset = candidates (b.learner.test line).best.2 ∧
      (b.learn line).prefetchEnabled = decide (badScore < (b.learner.test line).best.1) := by
  simp only [learn, if_pos h, and_self]

/-- bop in either mode. -/
def prefetcher (hybridMode : Bool) : OffsetPrefetcher Bop where
  initial := { hybridMode := hybridMode }
  learner := learner
  bestOffset := bestOffset
  enabled := prefetchEnabled
  cacheFill := cacheFill
  cacheOperate b a := (b.cacheOperate a).1
  initial_learner := rfl
  learner_fill _ _ _ := rfl
  learner_idle b a h := by
    rw [cacheOperate, h]
    rfl
  learner_operate b a h := by
    rw [cacheOperate, if_pos h, (issue_keeps _ _).1, learn_learner]
  selects b a h hover := by
    rw [cacheOperate, if_pos h, (issue_keeps _ _).2.1, (issue_keeps _ _).2.2]
    exact learn_selects hover

end Bop

namespace Abop

lemma learn_learner (s : Abop) (line : Line) :
    (s.learn line).learner = s.learner.learn line := by
  simp only [learn, Learner.learn]
  split_ifs <;> rfl

end Abop

lemma Learner.scoreIndices_perm (l : Learner) : l.scoreIndices.Perm
    ((List.finRange scoreTableSize).map fun i => (l.scores i,i)) := List.perm_insertionSort _ _

lemma Learner.length_scoreIndices (l : Learner) : l.scoreIndices.length = scoreTableSize := by
  rw [l.scoreIndices_perm.length_eq, List.length_map, List.length_finRange]

/-- The first of the three offsets is the best one. -/
lemma Abop.headD_bestOffsets (l : Learner) :
    ((l.scoreIndices.take 3).map fun x => candidates x.2).headD 0 = candidates l.best.2 := by
  have hlen := l.length_scoreIndices
  rw [Learner.best]
  generalize l.scoreIndices = sorted at hlen
  cases sorted with
  | nil => cases hlen
  | cons x rest => rfl

lemma Abop.learn_selects {s : Abop} {line : Line} (h : (s.learner.test line).roundOver = true) :
    (s.learn line).bestOffset = candidates (s.learner.test line).best.2 ∧
      decide ((s.learn line).currentDegree ≠ 0) =
        decide (badScore < (s.learner.test line).best.1) := by
  simp only [learn, if_pos h, bestOffset, headD_bestOffsets, true_and]
  generalize (s.learner.test line).best.1 = score
  by_cases hbad : score ≤ badScore
  · simp [hbad, Nat.not_lt.mpr hbad]
  · simp [hbad, Nat.lt_of_not_le hbad]

/-- abop, of which the first offset is the best one. -/
def Abop.prefetcher : OffsetPrefetcher Abop where
  initial := {}
  learner := learner
  bestOffset := bestOffset
  enabled s := s.currentDegree ≠ 0
  cacheFill := cacheFill
  cacheOperate s a := (s.cacheOperate a).1
  initial_learner := rfl
  learner_fill _ _ _ := rfl
  learner_idle s a h := by
    rw [cacheOperate, h]
    rfl
  learner_operate s a h := by
    rw [cacheOperate, if_pos h, learn_learner]
  selects s a h hover := by
    rw [cacheOperate, if_pos h]
    exact learn_selects hover

/-! Runs of either prefetcher. -/

/-- A fill, of a prefetch or not, or an access. -/
inductive Event where
  | fill (addr : BitVec 64) (prefetch : Bool)
  | access (a : Access)
  deriving DecidableEq, Repr

namespace OffsetPrefetcher
variable {σ : Type} (P : OffsetPrefetcher σ)

def step (s : σ) : Event → σ
  | .fill addr prefetch => P.cacheFill s addr prefetch
  | .access a => P.cacheOperate s a

def run (s : σ) (events : List Event) : σ := events.foldl P.step s

lemma run_concat (s : σ) (events : List Event) (e : Event) :
    P.run s (events ++ [e]) = P.step (P.run s events) e := by
  rw [run, List.foldl_append]
  rfl

end OffsetPrefetcher
end CaLabs.Lab4.BestOffset
