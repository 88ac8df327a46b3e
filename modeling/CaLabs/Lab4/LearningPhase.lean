import CaLabs.Lab4.BestOffset
import Mathlib.Algebra.Order.Field.Rat
import Mathlib.Algebra.Order.Field.Basic

/-! The learning phases of the best-offset prefetchers. A phase has 100 accesses for 52
candidates, so most candidates are tested twice and some only once. -/
namespace CaLabs.Lab4.BestOffset

instance : Std.Total SortsBefore where
  total x y := by
    unfold SortsBefore
    omega

instance : IsTrans (ℕ × Fin scoreTableSize) SortsBefore where
  trans x y z := by
    unfold SortsBefore
    omega

/-- The best pair holds the greatest score. -/
lemma Learner.best_spec (l : Learner) :
    l.best.1 = l.scores l.best.2 ∧ ∀ i, l.scores i ≤ l.best.1 := by
  have hsorted : l.scoreIndices.Pairwise SortsBefore := List.pairwise_insertionSort _ _
  have hmem : ∀ x, x ∈ l.scoreIndices ↔ l.scores x.2 = x.1 := by
    intro x
    rw [l.scoreIndices_perm.mem_iff, List.mem_map]
    constructor
    · rintro ⟨i,-,rfl⟩
      rfl
    · exact fun hx => ⟨x.2,List.mem_finRange _,Prod.ext hx rfl⟩
  have hlen := l.length_scoreIndices
  rw [Learner.best]
  cases hl : l.scoreIndices with
  | nil =>
    rw [hl] at hlen
    cases hlen
  | cons x rest =>
    rw [hl] at hsorted hmem
    refine ⟨((hmem x).mp List.mem_cons_self).symm,fun i => ?_⟩
    rcases List.mem_cons.mp ((hmem (l.scores i,i)).mpr rfl) with rfl | hrest
    · exact le_rfl
    · have hbefore := (List.pairwise_cons.mp hsorted).1 _ hrest
      rcases hbefore with hlt | ⟨heq,-⟩
      · exact hlt.le
      · exact heq.le

/-! How often the candidates are tested. -/

/-- The candidates of some consecutive accesses. -/
def testedFrom (start n : ℕ) : List (Fin scoreTableSize) :=
  (List.range n).map fun k => ⟨(start + k) % scoreTableSize,Nat.mod_lt _ (by decide)⟩

lemma testedFrom_add (start m n : ℕ) :
    testedFrom start (m + n) = testedFrom start m ++ testedFrom (start + m) n := by
  simp only [testedFrom, List.range_add, List.map_append, List.map_map, List.append_cancel_left_eq]
  apply List.map_congr_left
  intro k _
  simp only [Function.comp_apply, Nat.add_assoc]

/-- Up to 52 accesses in a row test different candidates. -/
lemma nodup_testedFrom {start n : ℕ} (hn : n ≤ scoreTableSize) : (testedFrom start n).Nodup := by
  refine List.Nodup.map_on (fun k hk k' hk' he => ?_) List.nodup_range
  rw [List.mem_range] at hk hk'
  have hmod := congrArg Fin.val he
  simp only [scoreTableSize] at hmod hn
  omega

lemma mem_testedFrom (start : ℕ) (i : Fin scoreTableSize) :
    i ∈ testedFrom start scoreTableSize := by
  have hi := i.isLt
  refine List.mem_map.mpr
    ⟨(i.val + scoreTableSize - start % scoreTableSize) % scoreTableSize,?_,?_⟩
  · exact List.mem_range.mpr (Nat.mod_lt _ (by decide))
  · apply Fin.ext
    simp only [scoreTableSize] at hi ⊢
    omega

/-- In a phase every candidate is tested once or twice. -/
lemma count_testedFrom (start : ℕ) (i : Fin scoreTableSize) :
    (testedFrom start roundMax).count i = 1 ∨ (testedFrom start roundMax).count i = 2 := by
  have hsplit : testedFrom start roundMax =
      testedFrom start scoreTableSize ++ testedFrom (start + scoreTableSize) 48 :=
    testedFrom_add start scoreTableSize 48
  have hfirst : (testedFrom start scoreTableSize).count i = 1 :=
    List.count_eq_one_of_mem (nodup_testedFrom le_rfl) (mem_testedFrom start i)
  have hsecond : (testedFrom (start + scoreTableSize) 48).count i ≤ 1 :=
    List.nodup_iff_count_le_one.mp (nodup_testedFrom (by decide)) i
  rw [hsplit, List.count_append]
  omega

lemma count_testedFrom_le (start : ℕ) {n : ℕ} (hn : n ≤ roundMax) (i : Fin scoreTableSize) :
    (testedFrom start n).count i ≤ 2 := by
  have hsplit := testedFrom_add start n (roundMax - n)
  rw [Nat.add_sub_cancel' hn] at hsplit
  have hall := count_testedFrom start i
  rw [hsplit, List.count_append] at hall
  omega

/-! The tests of a phase. -/

/-- A candidate that was tested, and whether the RR table was hit. -/
abbrev Test := Fin scoreTableSize × Bool

def testsOf (tests : List Test) (i : Fin scoreTableSize) : ℕ := (tests.map Prod.fst).count i

def hitsOf (tests : List Test) (i : Fin scoreTableSize) : ℕ := tests.count (i,true)

lemma hitsOf_le_testsOf (tests : List Test) (i : Fin scoreTableSize) :
    hitsOf tests i ≤ testsOf tests i :=
  List.count_le_count_map (f := Prod.fst) (x := (i,true))

/-- No candidate hits more than twice in a phase. -/
lemma hitsOf_le_two {tests : List Test} {start n : ℕ} (hn : n ≤ roundMax)
    (h : tests.map Prod.fst = testedFrom start n) (i : Fin scoreTableSize) :
    hitsOf tests i ≤ 2 := by
  have hhits := hitsOf_le_testsOf tests i
  rw [testsOf, h] at hhits
  exact hhits.trans (count_testedFrom_le start hn i)

/-- A learner somewhere in a phase that began with the given access. -/
structure InPhase (l : Learner) (start : ℕ) (tests : List Test) : Prop where
  counter : l.accessCounter = start + l.roundCounter
  rounds : l.roundCounter ≤ roundMax
  indices : tests.map Prod.fst = testedFrom start l.roundCounter
  scores : ∀ i, l.scores i = hitsOf tests i

lemma inPhase_initial : InPhase {} 0 [] := ⟨rfl,by decide,rfl,fun _ => rfl⟩

/-- The test that an access adds to the phase. -/
def Learner.testOf (l : Learner) (line : Line) : Test := (l.candidateIdx,l.hits line)

lemma InPhase.scores_test {l : Learner} {start : ℕ} {tests : List Test}
    (h : InPhase l start tests) (line : Line) (i : Fin scoreTableSize) :
    (l.test line).scores i = hitsOf (tests ++ [l.testOf line]) i := by
  simp only [Learner.test, hitsOf, List.count_append, Learner.testOf]
  cases l.hits line with
  | false =>
    rw [List.count_eq_zero_of_not_mem (a := (i,true)) (l := [(l.candidateIdx,false)]) (by simp)]
    exact h.scores i
  | true =>
    by_cases hi : i = l.candidateIdx
    · subst hi
      rw [List.count_singleton_self, if_pos rfl, Function.update_self, h.scores]
      rfl
    · rw [List.count_eq_zero_of_not_mem (a := (i,true)) (l := [(l.candidateIdx,true)])
        (by simp [hi]), if_pos rfl, Function.update_of_ne hi]
      exact h.scores i

/-- One more access of a phase: the score stays far below the limit that would end it early. -/
lemma InPhase.test {l : Learner} {start : ℕ} {tests : List Test} (h : InPhase l start tests)
    (hlt : l.roundCounter < roundMax) (line : Line) :
    InPhase (l.test line) start (tests ++ [l.testOf line]) ∧
      (l.test line).roundCounter = l.roundCounter + 1 := by
  have hindices : (tests ++ [l.testOf line]).map Prod.fst =
      testedFrom start (l.roundCounter + 1) := by
    rw [List.map_append, h.indices, testedFrom_add, ← h.counter]
    rfl
  have hscore : (l.test line).scores l.candidateIdx ≤ 2 := by
    rw [h.scores_test]
    exact hitsOf_le_two (Nat.succ_le_of_lt hlt) hindices _
  have hround : (l.test line).roundCounter = l.roundCounter + 1 := by
    have hne : (l.test line).scores l.candidateIdx ≠ maxScore := by
      simp only [maxScore]
      omega
    simp only [Learner.test] at hne ⊢
    rw [decide_eq_false hne, Bool.and_false]
    rfl
  have hcounter : (l.test line).accessCounter = l.accessCounter + 1 := rfl
  refine ⟨⟨?_,?_,?_,h.scores_test line⟩,hround⟩
  · rw [hcounter, hround, h.counter, Nat.add_assoc]
  · rw [hround]
    exact hlt
  · rw [hround]
    exact hindices

/-- The phase is over after 100 accesses. -/
lemma InPhase.roundOver_iff {l : Learner} {start : ℕ} {tests : List Test}
    (h : InPhase l start tests) : l.roundOver = true ↔ l.roundCounter = roundMax := by
  have hle := h.rounds
  rw [Learner.roundOver, decide_eq_true_eq]
  omega

/-- Between two events a phase is not over yet. -/
structure Learning (l : Learner) (start : ℕ) (tests : List Test) : Prop
    extends InPhase l start tests where
  unfinished : l.roundCounter < roundMax

/-- An access goes on with the phase or begins the next one. -/
lemma Learning.learn {l : Learner} {start : ℕ} {tests : List Test} (h : Learning l start tests)
    (line : Line) :
    ((l.test line).roundOver = false ∧ Learning (l.learn line) start (tests ++ [l.testOf line])) ∨
      ((l.test line).roundOver = true ∧ l.roundCounter + 1 = roundMax ∧
        Learning (l.learn line) (start + roundMax) []) := by
  obtain ⟨htest,hround⟩ := h.toInPhase.test h.unfinished line
  rw [Learner.learn]
  cases hover : (l.test line).roundOver with
  | false =>
    refine .inl ⟨rfl,htest,lt_of_le_of_ne htest.rounds fun heq => ?_⟩
    rw [htest.roundOver_iff.mpr heq] at hover
    cases hover
  | true =>
    have hmax := htest.roundOver_iff.mp hover
    refine .inr ⟨rfl,hround ▸ hmax,⟨?_,Nat.zero_le _,rfl,fun _ => rfl⟩,Nat.zero_lt_succ 99⟩
    have hcounter := htest.counter
    rw [hmax] at hcounter
    exact hcounter

/-! The ends of the phases of a run. -/

/-- A finished phase: its tests, and what the prefetcher makes of it. -/
structure PhaseEnd where
  tests : List Test
  bestOffset : ℕ
  enabled : Bool
  deriving DecidableEq, Repr

namespace OffsetPrefetcher
variable {σ : Type} (P : OffsetPrefetcher σ)

/-- The access ends a phase. -/
def endsPhase (s : σ) (a : Access) : Bool :=
  a.operates && ((P.learner s).test a.line).roundOver

/-- The tests of the phase after an event. -/
def nextTests (s : σ) (tests : List Test) : Event → List Test
  | .fill _ _ => tests
  | .access a =>
    if P.endsPhase s a then []
    else if a.operates then tests ++ [(P.learner s).testOf a.line] else tests

/-- The phase that an event ends. -/
def phaseEnd (s : σ) (tests : List Test) : Event → List PhaseEnd
  | .fill _ _ => []
  | .access a =>
    if P.endsPhase s a then
      [⟨tests ++ [(P.learner s).testOf a.line],P.bestOffset (P.cacheOperate s a),
        P.enabled (P.cacheOperate s a)⟩]
    else []

/-- The phases that end in a run, from a state with the tests of its phase so far. -/
def phaseEnds : σ → List Test → List Event → List PhaseEnd
  | _,_,[] => []
  | s,tests,e :: rest =>
    P.phaseEnd s tests e ++ phaseEnds (P.step s e) (P.nextTests s tests e) rest

end OffsetPrefetcher

namespace PhaseEnd
variable (ph : PhaseEnd)

/-- The fraction of RR-table hits among the tests of a candidate. -/
def fraction (i : Fin scoreTableSize) : ℚ := hitsOf ph.tests i / testsOf ph.tests i

/-- The best offset is a candidate with a maximal fraction of hits, and prefetching is enabled
if some candidate hit on every one of its tests. -/
structure Fair : Prop where
  best : ∃ i, ph.bestOffset = candidates i ∧ ∀ j, ph.fraction j ≤ ph.fraction i
  enabled : (∃ i, hitsOf ph.tests i = testsOf ph.tests i) → ph.enabled = true

/-- Some candidate hit twice, or none hit of those that are tested only once. -/
def SinglesSettled : Prop :=
  (∃ i, hitsOf ph.tests i = 2) ∨ ∀ i, testsOf ph.tests i = 1 → hitsOf ph.tests i = 0

/-- What is known of a finished phase: the tests of its candidates, and the greatest score. -/
structure Finished : Prop where
  tests : ∀ i, testsOf ph.tests i = 1 ∨ testsOf ph.tests i = 2
  best : ∃ i, ph.bestOffset = candidates i ∧ (∀ j, hitsOf ph.tests j ≤ hitsOf ph.tests i) ∧
    ph.enabled = decide (badScore < hitsOf ph.tests i)

variable {ph}

lemma fraction_le_iff (h : ph.Finished) (i j : Fin scoreTableSize) :
    ph.fraction i ≤ ph.fraction j ↔
      hitsOf ph.tests i * testsOf ph.tests j ≤ hitsOf ph.tests j * testsOf ph.tests i := by
  have hi : 0 < testsOf ph.tests i := by
    have ht := h.tests i
    omega
  have hj : 0 < testsOf ph.tests j := by
    have ht := h.tests j
    omega
  rw [fraction, fraction, div_le_div_iff₀ (by exact_mod_cast hi) (by exact_mod_cast hj)]
  exact_mod_cast Iff.rfl

/-- Then the greatest score is 2 if a candidate hit on all its tests. -/
lemma Finished.best_two (h : ph.Finished) (hs : ph.SinglesSettled) {b : Fin scoreTableSize}
    (hmax : ∀ j, hitsOf ph.tests j ≤ hitsOf ph.tests b)
    (hall : ∃ i, hitsOf ph.tests i = testsOf ph.tests i) : hitsOf ph.tests b = 2 := by
  obtain ⟨i,hi⟩ := hall
  have hti := h.tests i
  have htb := h.tests b
  have hlb := hitsOf_le_testsOf ph.tests b
  have hib := hmax i
  rcases hs with ⟨k,hk⟩ | hsingle
  · have hkb := hmax k
    omega
  · have hone := hsingle i
    omega

/-- And no fraction is greater than that of the greatest score. -/
lemma Finished.fraction_le_best (h : ph.Finished) (hs : ph.SinglesSettled)
    {b : Fin scoreTableSize} (hmax : ∀ j, hitsOf ph.tests j ≤ hitsOf ph.tests b)
    (j : Fin scoreTableSize) : ph.fraction j ≤ ph.fraction b := by
  rw [fraction_le_iff h]
  have htj := h.tests j
  have htb := h.tests b
  have hlj := hitsOf_le_testsOf ph.tests j
  have hlb := hitsOf_le_testsOf ph.tests b
  have hjb := hmax j
  rcases hs with ⟨k,hk⟩ | hsingle
  · have hkb := hmax k
    have hb2 : hitsOf ph.tests b = 2 := by omega
    have htb2 : testsOf ph.tests b = 2 := by omega
    rw [hb2, htb2]
    omega
  · have honej := hsingle j
    have honeb := hsingle b
    rcases htj with htj | htj <;> rcases htb with htb | htb <;> rw [htj, htb] <;> omega

/-- The selection by raw scores is fair exactly if the candidates tested once do not matter. -/
lemma Finished.fair_iff (h : ph.Finished) : ph.Fair ↔ ph.SinglesSettled := by
  obtain ⟨b,hb,hmax,henabled⟩ := h.best
  constructor
  · rintro ⟨-,hfair⟩
    by_contra hnot
    rw [SinglesSettled, not_or, not_exists, not_forall] at hnot
    obtain ⟨htwo,i,hi⟩ := hnot
    rw [Classical.not_imp] at hi
    have hli := hitsOf_le_testsOf ph.tests i
    have hbad := hfair ⟨i,by omega⟩
    rw [henabled, decide_eq_true_eq, badScore] at hbad
    have htb := h.tests b
    have hlb := hitsOf_le_testsOf ph.tests b
    exact htwo b (by omega)
  · intro hs
    refine ⟨⟨b,hb,h.fraction_le_best hs hmax⟩,fun hall => ?_⟩
    rw [henabled, h.best_two hs hmax hall]
    rfl

end PhaseEnd

namespace OffsetPrefetcher
variable {σ : Type} (P : OffsetPrefetcher σ)

/-- The learner after an event, with the phase that the event ends. -/
lemma step_learning {s : σ} {start : ℕ} {tests : List Test}
    (h : Learning (P.learner s) start tests) (e : Event) :
    (∃ start', Learning (P.learner (P.step s e)) start' (P.nextTests s tests e)) ∧
      ∀ ph ∈ P.phaseEnd s tests e, ph.Finished := by
  cases e with
  | fill addr prefetch =>
    refine ⟨⟨start,?_⟩,fun ph hph => (by cases hph)⟩
    rw [step, P.learner_fill]
    simp only [Learner.cacheFill]
    split_ifs
    · exact h
    · exact ⟨⟨h.counter,h.rounds,h.indices,h.scores⟩,h.unfinished⟩
  | access a =>
    rw [step, nextTests, phaseEnd, endsPhase]
    cases ha : a.operates with
    | false =>
      rw [P.learner_idle s a ha]
      exact ⟨⟨start,h⟩,fun ph hph => (by cases hph)⟩
    | true =>
      rw [P.learner_operate s a ha]
      rcases h.learn a.line with ⟨hover,hlearn⟩ | ⟨hover,hmax,hlearn⟩
      · rw [hover]
        exact ⟨⟨start,hlearn⟩,fun ph hph => (by cases hph)⟩
      · rw [hover]
        refine ⟨⟨_,hlearn⟩,fun ph hph => ?_⟩
        obtain rfl := List.mem_singleton.mp hph
        obtain ⟨htest,hround⟩ := h.toInPhase.test h.unfinished a.line
        obtain ⟨hoffset,henabled⟩ := P.selects s a ha hover
        obtain ⟨hbest,hgreatest⟩ := ((P.learner s).test a.line).best_spec
        refine ⟨fun i => ?_,_,hoffset,fun j => ?_,?_⟩
        · rw [testsOf, htest.indices, hround, hmax]
          exact count_testedFrom start i
        · rw [← htest.scores, ← htest.scores, ← hbest]
          exact hgreatest j
        · rw [henabled, ← htest.scores, hbest]

lemma phaseEnds_finished {s : σ} {start : ℕ} {tests : List Test}
    (h : Learning (P.learner s) start tests) (events : List Event) :
    ∀ ph ∈ P.phaseEnds s tests events, ph.Finished := by
  induction events generalizing s start tests with
  | nil => exact fun ph hph => (by cases hph)
  | cons e rest ih =>
    obtain ⟨⟨start',hlearn⟩,hend⟩ := P.step_learning h e
    intro ph hph
    rcases List.mem_append.mp hph with hnow | hlater
    · exact hend ph hnow
    · exact ih hlearn ph hlater

lemma initial_learning : Learning (P.learner P.initial) 0 [] := by
  rw [P.initial_learner]
  exact ⟨inPhase_initial,by decide⟩

end OffsetPrefetcher

/-- At the end of every phase of bop, in either mode, and of abop, for every sequence of fills
and accesses: the selection is fair if and only if the candidates tested once do not matter. -/
theorem selection_fair_iff (events : List Event) :
    (∀ hybridMode, ∀ ph ∈ (Bop.prefetcher hybridMode).phaseEnds
      (Bop.prefetcher hybridMode).initial [] events, ph.Fair ↔ ph.SinglesSettled) ∧
    ∀ ph ∈ Abop.prefetcher.phaseEnds Abop.prefetcher.initial [] events,
      ph.Fair ↔ ph.SinglesSettled := by
  refine ⟨fun hybridMode ph hph => ?_,fun ph hph => ?_⟩
  · have hinit := (Bop.prefetcher hybridMode).initial_learning
    exact ((Bop.prefetcher hybridMode).phaseEnds_finished hinit events ph hph).fair_iff
  · have hinit := Abop.prefetcher.initial_learning
    exact (Abop.prefetcher.phaseEnds_finished hinit events ph hph).fair_iff

/-- Line 3856 is filled, then line 4096 is accessed 100 times: only offset 240 hits, and it is
one of the four that are tested once. -/
def singleHit : List Event :=
  .fill (3856 <<< 6) false :: List.replicate 100 (.access { addr := 4096 <<< 6 })

/-- Its phase disables prefetching although offset 240 hit on its only test. -/
theorem singleHit_unfair :
    (¬∀ ph ∈ (Bop.prefetcher false).phaseEnds (Bop.prefetcher false).initial [] singleHit,
      ph.Fair) ∧
    ¬∀ ph ∈ Abop.prefetcher.phaseEnds Abop.prefetcher.initial [] singleHit, ph.Fair := by
  constructor
  · have hdisabled : ∃ ph ∈ (Bop.prefetcher false).phaseEnds (Bop.prefetcher false).initial []
        singleHit, hitsOf ph.tests 48 = testsOf ph.tests 48 ∧ ph.enabled = false := by
      decide +kernel
    obtain ⟨ph,hph,hall,hoff⟩ := hdisabled
    intro h
    rw [(h ph hph).enabled ⟨48,hall⟩] at hoff
    cases hoff
  · have hdisabled : ∃ ph ∈ Abop.prefetcher.phaseEnds Abop.prefetcher.initial [] singleHit,
        hitsOf ph.tests 48 = testsOf ph.tests 48 ∧ ph.enabled = false := by
      decide +kernel
    obtain ⟨ph,hph,hall,hoff⟩ := hdisabled
    intro h
    rw [(h ph hph).enabled ⟨48,hall⟩] at hoff
    cases hoff

end CaLabs.Lab4.BestOffset
