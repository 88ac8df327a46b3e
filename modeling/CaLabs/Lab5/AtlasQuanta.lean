import CaLabs.Lab5.AtlasService
import Mathlib.Algebra.BigOperators.Fin

/-! The quanta of any number of ATLAS controllers: the state after a quantum depends on what the
controllers report, not on the order in which they do. -/
namespace CaLabs.Lab5

/-- What the controllers report in a quantum, and the order in which they check in. -/
structure Quantum (n : ℕ) where
  reports : Fin n → ServiceMap
  order : List (Fin n)
  once : order.Perm (List.finRange n)

namespace Quantum
variable {n : ℕ}

def checkIns (q : Quantum n) : List ServiceMap := q.order.map q.reports

lemma length_checkIns (q : Quantum n) : q.checkIns.length = n := by
  rw [checkIns, List.length_map, q.once.length_eq, List.length_finRange]

/-- Two orders of the same reports. -/
lemma checkIns_perm {q q' : Quantum n} (h : q.reports = q'.reports) :
    q.checkIns.Perm q'.checkIns := by
  rw [checkIns, checkIns, h]
  exact (q.once.trans q'.once.symm).map _

lemma serves_checkIns (q : Quantum n) (t : ℤ) :
    Serves q.checkIns t ↔ ∃ c, t ∈ (q.reports c).keys := by
  constructor
  · rintro ⟨l,hl,ht⟩
    obtain ⟨c,-,rfl⟩ := List.mem_map.mp hl
    exact ⟨c,ht⟩
  · rintro ⟨c,ht⟩
    exact ⟨_,List.mem_map_of_mem (q.once.mem_iff.mpr (List.mem_finRange c)),ht⟩

lemma servedSum_checkIns (q : Quantum n) (t : ℤ) :
    servedSum q.checkIns t = ∑ c, (q.reports c).val t := by
  rw [Fin.sum_univ_def, servedSum, checkIns, List.map_map]
  exact (q.once.map _).sum_eq

end Quantum

lemma ServiceMap.eq_of_lookup {m m' : ServiceMap} (hkeys : ∀ t, t ∈ m.keys ↔ t ∈ m'.keys)
    (hval : ∀ t, m.val t = m'.val t) : m = m' := by
  cases m
  cases m'
  obtain rfl := Finset.ext hkeys
  obtain rfl := funext hval
  rfl

lemma Serves.perm {locals locals' : List ServiceMap} (h : locals.Perm locals') (t : ℤ) :
    Serves locals t ↔ Serves locals' t := by
  constructor
  · rintro ⟨l,hl,ht⟩
    exact ⟨l,h.mem_iff.mp hl,ht⟩
  · rintro ⟨l,hl,ht⟩
    exact ⟨l,h.mem_iff.mpr hl,ht⟩

lemma servedSum_perm {locals locals' : List ServiceMap} (h : locals.Perm locals') (t : ℤ) :
    servedSum locals t = servedSum locals' t := (h.map _).sum_eq

namespace AtlasSharedState
variable {n : ℕ}

/-- The next check-in calls update_rankings. -/
def Updates (s : AtlasSharedState) : Prop := s.controllersCheckedIn + 1 = s.numControllers

/-- The state after some whole quanta. -/
def afterQuanta (alpha : ℚ) (qs : List (Quantum n)) : AtlasSharedState :=
  (initial alpha n).quanta (qs.map Quantum.checkIns)

/-- The state after some whole quanta and the first j check-ins of the next one. -/
def afterCheckIns (alpha : ℚ) (qs : List (Quantum n)) (q : Quantum n) (j : ℕ) :
    AtlasSharedState :=
  (q.checkIns.take j).foldl checkInQuantum (afterQuanta alpha qs)

/-- The ranks number the known threads from 0 by their total, then by their id. -/
structure Ranked (s : AtlasSharedState) : Prop where
  bijection : Set.BijOn s.getRank s.totalAs.keys (Set.Iio s.totalAs.keys.card)
  ordered : ∀ a ∈ s.totalAs.keys, ∀ b ∈ s.totalAs.keys, (s.getRank a < s.getRank b ↔
    s.totalAs.val a < s.totalAs.val b ∨ (s.totalAs.val a = s.totalAs.val b ∧ a < b))

lemma nodup_rankingOf (m : ServiceMap) : (rankingOf m).Nodup :=
  (List.mergeSort_perm _ _).nodup_iff.mpr (Finset.sort_nodup _ _)

lemma length_rankingOf (m : ServiceMap) : (rankingOf m).length = m.keys.card := by
  rw [rankingOf, List.length_mergeSort, Finset.length_sort]

lemma ranked_of_rankingOf {s : AtlasSharedState} (h : s.ranking = rankingOf s.totalAs) :
    s.Ranked := by
  have hrank : ∀ t ∈ s.totalAs.keys, s.getRank t = (rankingOf s.totalAs).idxOf t := by
    intro t ht
    rw [getRank, h, if_pos (mem_rankingOf.mpr ht)]
  refine ⟨⟨fun t ht => ?_,fun a ha b hb hab => ?_,fun i hi => ?_⟩,fun a ha b hb => ?_⟩
  · rw [Set.mem_Iio, hrank t ht, ← length_rankingOf]
    exact List.idxOf_lt_length_of_mem (mem_rankingOf.mpr ht)
  · rw [hrank a ha, hrank b hb] at hab
    exact (List.idxOf_inj (mem_rankingOf.mpr ha)).mp hab
  · rw [Set.mem_Iio, ← length_rankingOf] at hi
    have hmem : (rankingOf s.totalAs)[i] ∈ s.totalAs.keys :=
      mem_rankingOf.mp (List.getElem_mem hi)
    refine ⟨_,hmem,?_⟩
    rw [hrank _ hmem]
    exact (nodup_rankingOf _).idxOf_getElem i hi
  · rw [hrank a ha, hrank b hb]
    exact idxOf_rankingOf_lt_iff ha hb

/-- What holds between two quanta of n controllers. -/
structure Settled (alpha : ℚ) (n : ℕ) (s : AtlasSharedState) : Prop where
  between : s.Between
  controllers : s.numControllers = n
  alpha_eq : s.alpha = alpha
  ranking : s.ranking = rankingOf s.totalAs

lemma Settled.quantum {alpha : ℚ} {s : AtlasSharedState} (h : s.Settled alpha n) (hn : 0 < n)
    (q : Quantum n) : (s.quantum q.checkIns).Settled alpha n := by
  obtain ⟨hb,hc,ha,-,-,m,htot,hrank⟩ := quantum_spec h.between (h.controllers ▸ hn)
    (q.length_checkIns.trans h.controllers.symm)
  exact ⟨hb,hc.trans h.controllers,ha.trans h.alpha_eq,by rw [hrank, htot]; rfl⟩

lemma afterQuanta_concat (alpha : ℚ) (qs : List (Quantum n)) (q : Quantum n) :
    afterQuanta alpha (qs ++ [q]) = (afterQuanta alpha qs).quantum q.checkIns := by
  rw [afterQuanta, List.map_append, quanta, List.foldl_append]
  rfl

lemma afterQuanta_settled (alpha : ℚ) (hn : 0 < n) (qs : List (Quantum n)) :
    (afterQuanta alpha qs).Settled alpha n := by
  induction qs using List.reverseRecOn with
  | nil =>
    refine ⟨⟨rfl,fun t => Finset.notMem_empty t,fun _ => rfl⟩,rfl,rfl,?_⟩
    exact (List.eq_nil_of_length_eq_zero (length_rankingOf _)).symm
  | append_singleton qs q ih =>
    rw [afterQuanta_concat]
    exact ih.quantum hn q

/-- Before the last check-in nothing but the pending service changes. -/
lemma afterCheckIns_pending (alpha : ℚ) (hn : 0 < n) (qs : List (Quantum n)) (q : Quantum n)
    {j : ℕ} (hj : j < n) :
    (afterCheckIns alpha qs q j).totalAs = (afterQuanta alpha qs).totalAs ∧
      (afterCheckIns alpha qs q j).ranking = (afterQuanta alpha qs).ranking ∧
      ((afterCheckIns alpha qs q j).Updates ↔ j + 1 = n) := by
  have hs := afterQuanta_settled alpha hn qs
  have hlen : (q.checkIns.take j).length = j := by
    rw [List.length_take, q.length_checkIns]
    omega
  obtain ⟨-,ht,hc,hcount,-,-,hr⟩ := foldl_checkIn (afterQuanta alpha qs) (q.checkIns.take j)
    (by rw [hs.between.checkedIn, hs.controllers, hlen]; omega)
  refine ⟨ht,hr,?_⟩
  rw [Updates, afterCheckIns, hc, hcount, hs.between.checkedIn, hs.controllers, hlen, zero_add]

/-- The last check-in ends the quantum. -/
lemma afterCheckIns_last (alpha : ℚ) (qs : List (Quantum n)) (q : Quantum n) :
    afterCheckIns alpha qs q n = afterQuanta alpha (qs ++ [q]) := by
  rw [afterQuanta_concat, afterCheckIns, quantum,
    List.take_of_length_le (by rw [q.length_checkIns])]

/-- One quantum from states with the same totals, in two orders. -/
lemma quantum_totals_eq {alpha : ℚ} {s s' : AtlasSharedState} (hs : s.Settled alpha n)
    (hs' : s'.Settled alpha n) (hn : 0 < n) (ht : s.totalAs = s'.totalAs) {q q' : Quantum n}
    (hq : q.reports = q'.reports) :
    (s.quantum q.checkIns).totalAs = (s'.quantum q'.checkIns).totalAs := by
  have hperm := Quantum.checkIns_perm hq
  obtain ⟨-,-,-,hk,hv,-⟩ := quantum_spec hs.between (hs.controllers ▸ hn)
    (q.length_checkIns.trans hs.controllers.symm)
  obtain ⟨-,-,-,hk',hv',-⟩ := quantum_spec hs'.between (hs'.controllers ▸ hn)
    (q'.length_checkIns.trans hs'.controllers.symm)
  refine ServiceMap.eq_of_lookup (fun t => ?_) fun t => ?_
  · rw [hk, hk', ht, Serves.perm hperm]
  · rw [hv, hv', ht, hs.alpha_eq, hs'.alpha_eq, servedSum_perm hperm]
    simp only [Serves.perm hperm]

lemma afterQuanta_totals_eq (alpha : ℚ) (hn : 0 < n) {qs qs' : List (Quantum n)}
    (h : qs.map Quantum.reports = qs'.map Quantum.reports) :
    (afterQuanta alpha qs).totalAs = (afterQuanta alpha qs').totalAs := by
  induction qs using List.reverseRecOn generalizing qs' with
  | nil =>
    obtain rfl := List.map_eq_nil_iff.mp h.symm
    rfl
  | append_singleton qs q ih =>
    rw [List.map_append] at h
    obtain ⟨qs₀,q₀,rfl,hqs,hq⟩ := List.map_eq_append_iff.mp h.symm
    obtain ⟨q',rest,rfl,hq',hrest⟩ := List.map_eq_cons_iff.mp hq
    obtain rfl := List.map_eq_nil_iff.mp hrest
    rw [afterQuanta_concat, afterQuanta_concat]
    exact quantum_totals_eq (afterQuanta_settled alpha hn qs) (afterQuanta_settled alpha hn qs₀)
      hn (ih hqs.symm) hq'.symm

/-- For every number of controllers and every run of quanta: the totals and the ranking change
with the last check-in of a quantum only, as Equation 1 says; they do not depend on the order of
the check-ins; and at every moment the ranking numbers the known threads. -/
theorem checkIn_orderIndependent (alpha : ℚ) {n : ℕ} (hn : 0 < n) (qs : List (Quantum n)) :
    (∀ q : Quantum n,
      (∀ j < n, (afterCheckIns alpha qs q j).totalAs = (afterQuanta alpha qs).totalAs ∧
        (afterCheckIns alpha qs q j).ranking = (afterQuanta alpha qs).ranking ∧
        ((afterCheckIns alpha qs q j).Updates ↔ j + 1 = n)) ∧
      afterCheckIns alpha qs q n = afterQuanta alpha (qs ++ [q]) ∧
      ∀ t, (afterQuanta alpha (qs ++ [q])).totalAs.val t = if ∃ c, t ∈ (q.reports c).keys then
        alpha * (afterQuanta alpha qs).totalAs.val t + (1 - alpha) * ∑ c, (q.reports c).val t
        else (afterQuanta alpha qs).totalAs.val t) ∧
    (∀ qs' : List (Quantum n), qs.map Quantum.reports = qs'.map Quantum.reports →
      (afterQuanta alpha qs).totalAs = (afterQuanta alpha qs').totalAs ∧
        (afterQuanta alpha qs).ranking = (afterQuanta alpha qs').ranking) ∧
    ∀ q : Quantum n, ∀ j ≤ n, (afterCheckIns alpha qs q j).Ranked := by
  have hs := afterQuanta_settled alpha hn qs
  refine ⟨fun q => ⟨fun j hj => afterCheckIns_pending alpha hn qs q hj,
    afterCheckIns_last alpha qs q,fun t => ?_⟩,fun qs' h => ?_,fun q j hj => ?_⟩
  · obtain ⟨-,-,-,-,hv,-⟩ := quantum_spec hs.between
      (by rw [hs.controllers]; exact hn) (q.length_checkIns.trans hs.controllers.symm)
    rw [afterQuanta_concat, hv t, hs.alpha_eq, q.servedSum_checkIns]
    simp only [q.serves_checkIns]
  · have ht := afterQuanta_totals_eq alpha hn h
    exact ⟨ht,by rw [hs.ranking, (afterQuanta_settled alpha hn qs').ranking, ht]⟩
  · rcases hj.lt_or_eq with hlt | rfl
    · obtain ⟨ht,hr,-⟩ := afterCheckIns_pending alpha hn qs q hlt
      exact ranked_of_rankingOf (by rw [ht, hr, hs.ranking])
    · rw [afterCheckIns_last]
      exact ranked_of_rankingOf (afterQuanta_settled alpha hn _).ranking

/-- Two controllers, each of which has served its own thread. -/
def twoReports (order : List (Fin 2)) (h : order.Perm (List.finRange 2)) : Quantum 2 :=
  ⟨fun c => served c.val (8 * c.val),order,h⟩

/-- The two check in in either order. -/
theorem twoReports_orderIndependent :
    (afterQuanta (7 / 8) [twoReports [0,1] (by decide)]).totalAs =
        (afterQuanta (7 / 8) [twoReports [1,0] (by decide)]).totalAs ∧
      (afterQuanta (7 / 8) [twoReports [0,1] (by decide)]).ranking =
        (afterQuanta (7 / 8) [twoReports [1,0] (by decide)]).ranking :=
  (checkIn_orderIndependent (7 / 8) (show 0 < 2 by decide) _).2.1 _ rfl

end AtlasSharedState
end CaLabs.Lab5
