import Mathlib.Algebra.BigOperators.Group.List.Basic
import Mathlib.Algebra.Order.Ring.Rat
import Mathlib.Data.Finset.Sort
import Mathlib.Data.List.Induction
import Mathlib.Tactic.Ring
import Mathlib.Tactic.Linarith

/-! The shared state of the ATLAS controllers: the attained service of every thread over the
quanta and the ranks that follow from it. Services are rationals. -/
namespace CaLabs.Lab5

lemma no_service : ∀ t ∉ (∅ : Finset ℤ), (fun _ => 0 : ℤ → ℚ) t = 0 := fun _ _ => rfl

/-- A std::map from threads to service; what is not a key counts as 0. -/
structure ServiceMap where
  keys : Finset ℤ := ∅
  val : ℤ → ℚ := fun _ => 0
  val_of_not_key : ∀ t ∉ keys, val t = 0 := by exact no_service

/-- Add every entry of the second map to the first one. -/
def ServiceMap.accumulate (m l : ServiceMap) : ServiceMap where
  keys := m.keys ∪ l.keys
  val t := m.val t + l.val t
  val_of_not_key t h := by
    rw [Finset.notMem_union] at h
    rw [m.val_of_not_key t h.1, l.val_of_not_key t h.2, add_zero]

structure AtlasSharedState where
  alpha : ℚ := 7 / 8
  totalAs : ServiceMap := {}
  ranking : List ℤ := []
  pendingGlobalAs : ServiceMap := {}
  numControllers : ℕ
  controllersCheckedIn : ℕ := 0

namespace AtlasSharedState

/-- The rank is the position among the sorted threads. -/
def getRank (s : AtlasSharedState) (sourceId : ℤ) : ℕ :=
  if sourceId ∈ s.ranking then s.ranking.idxOf sourceId else 999999

/-- The first loop of update_rankings. -/
def updatedTotals (s : AtlasSharedState) : ServiceMap where
  keys := s.totalAs.keys ∪ s.pendingGlobalAs.keys
  val t := if t ∈ s.pendingGlobalAs.keys then
      s.alpha * s.totalAs.val t + (1 - s.alpha) * s.pendingGlobalAs.val t
    else s.totalAs.val t
  val_of_not_key t h := by
    rw [Finset.notMem_union] at h
    rw [if_neg h.2, s.totalAs.val_of_not_key t h.1]

/-- The order of std::sort: least service first, then the smaller thread id. -/
def servedLess (m : ServiceMap) (a b : ℤ) : Bool :=
  if m.val a ≠ m.val b then m.val a < m.val b else a ≤ b

def updateRankings (s : AtlasSharedState) : AtlasSharedState :=
  { s with
    totalAs := s.updatedTotals
    ranking := (s.updatedTotals.keys.sort (· ≤ ·)).mergeSort (servedLess s.updatedTotals) }

/-- One controller reports at the end of its quantum. -/
def checkInQuantum (s : AtlasSharedState) (localAs : ServiceMap) : AtlasSharedState :=
  let s := { s with pendingGlobalAs := s.pendingGlobalAs.accumulate localAs,
                    controllersCheckedIn := s.controllersCheckedIn + 1 }
  if s.controllersCheckedIn = s.numControllers then
    { s.updateRankings with pendingGlobalAs := {}, controllersCheckedIn := 0 }
  else s

/-- The reports of all controllers at the end of one quantum. -/
def quantum (s : AtlasSharedState) (locals : List ServiceMap) : AtlasSharedState :=
  locals.foldl checkInQuantum s

def quanta (s : AtlasSharedState) (qs : List (List ServiceMap)) : AtlasSharedState :=
  qs.foldl quantum s

end AtlasSharedState

/-- Some controller has an entry for the thread. -/
def Serves (locals : List ServiceMap) (t : ℤ) : Prop := ∃ l ∈ locals, t ∈ l.keys

instance (locals : List ServiceMap) (t : ℤ) : Decidable (Serves locals t) :=
  inferInstanceAs (Decidable (∃ l ∈ locals, t ∈ l.keys))

/-- The attained service of the thread over all controllers. -/
def servedSum (locals : List ServiceMap) (t : ℤ) : ℚ := (locals.map fun l => l.val t).sum

namespace AtlasSharedState

/-! Ranks follow the service. -/

lemma servedLess_iff (m : ServiceMap) (a b : ℤ) :
    servedLess m a b = true ↔ m.val a < m.val b ∨ (m.val a = m.val b ∧ a ≤ b) := by
  unfold servedLess
  split_ifs with h
  · simp [h]
  · simp only [ne_eq, not_not] at h
    simp [h]

lemma servedLess_trans (m : ServiceMap) (a b c : ℤ) (hab : servedLess m a b = true)
    (hbc : servedLess m b c = true) : servedLess m a c = true := by
  rw [servedLess_iff] at hab hbc ⊢
  rcases hab with h | ⟨h,hle⟩ <;> rcases hbc with h' | ⟨h',hle'⟩
  · exact .inl (h.trans h')
  · exact .inl (h' ▸ h)
  · exact .inl (h ▸ h')
  · exact .inr ⟨h.trans h',hle.trans hle'⟩

lemma servedLess_total (m : ServiceMap) (a b : ℤ) :
    (servedLess m a b || servedLess m b a) = true := by
  rw [Bool.or_eq_true, servedLess_iff, servedLess_iff]
  rcases lt_trichotomy (m.val a) (m.val b) with h | h | h
  · exact .inl (.inl h)
  · exact (Int.le_total a b).imp (fun hle => .inr ⟨h,hle⟩) fun hle => .inr ⟨h.symm,hle⟩
  · exact .inr (.inl h)

/-- The ranking that update_rankings makes of the totals. -/
def rankingOf (m : ServiceMap) : List ℤ := (m.keys.sort (· ≤ ·)).mergeSort (servedLess m)

lemma mem_rankingOf {m : ServiceMap} {t : ℤ} : t ∈ rankingOf m ↔ t ∈ m.keys := by
  rw [rankingOf, (List.mergeSort_perm _ _).mem_iff, Finset.mem_sort]

/-- Positions in the ranking compare as the service, and for equal service as the thread id. -/
lemma idxOf_rankingOf_lt_iff {m : ServiceMap} {a b : ℤ} (ha : a ∈ m.keys) (hb : b ∈ m.keys) :
    (rankingOf m).idxOf a < (rankingOf m).idxOf b ↔
      m.val a < m.val b ∨ (m.val a = m.val b ∧ a < b) := by
  have hsorted : (rankingOf m).Pairwise fun x y => servedLess m x y = true :=
    List.pairwise_mergeSort (servedLess_trans m) (servedLess_total m) _
  have hia := List.idxOf_lt_length_of_mem (mem_rankingOf.mpr ha)
  have hib := List.idxOf_lt_length_of_mem (mem_rankingOf.mpr hb)
  constructor
  · intro hlt
    have hab := List.pairwise_iff_getElem.mp hsorted _ _ hia hib hlt
    rw [List.getElem_idxOf, List.getElem_idxOf, servedLess_iff] at hab
    have hne : a ≠ b := fun he => absurd (he ▸ hlt) (lt_irrefl _)
    exact hab.imp id fun ⟨h,hle⟩ => ⟨h,lt_of_le_of_ne hle hne⟩
  · intro h
    by_contra hge
    rcases (Nat.le_of_not_lt hge).lt_or_eq with hlt | heq
    · have hba := List.pairwise_iff_getElem.mp hsorted _ _ hib hia hlt
      rw [List.getElem_idxOf, List.getElem_idxOf, servedLess_iff] at hba
      rcases h with h | ⟨h,hab⟩ <;> rcases hba with h' | ⟨h',hle⟩
      · exact lt_asymm h h'
      · exact h.ne' h'
      · exact h'.ne' h
      · exact absurd hab (not_lt_of_ge hle)
    · have hab : a = b := (List.idxOf_inj (mem_rankingOf.mpr ha)).mp heq.symm
      rcases h with h | ⟨-,h⟩
      · exact h.ne (congrArg m.val hab)
      · exact h.ne hab

/-- Of two known threads the one with less service has the smaller rank. -/
theorem rank_lt_of_served_lt (s : AtlasSharedState) {a b : ℤ}
    (ha : a ∈ s.updateRankings.totalAs.keys) (hb : b ∈ s.updateRankings.totalAs.keys)
    (h : s.updateRankings.totalAs.val a < s.updateRankings.totalAs.val b) :
    s.updateRankings.getRank a < s.updateRankings.getRank b := by
  have hma : a ∈ s.updateRankings.ranking := mem_rankingOf.mpr ha
  have hmb : b ∈ s.updateRankings.ranking := mem_rankingOf.mpr hb
  rw [getRank, getRank, if_pos hma, if_pos hmb]
  exact (idxOf_rankingOf_lt_iff ha hb).mpr (.inl h)

/-! One quantum. -/

/-- The state while the controllers report. -/
lemma foldl_checkIn (s : AtlasSharedState) (locals : List ServiceMap)
    (h : s.controllersCheckedIn + locals.length < s.numControllers) :
    let s' := locals.foldl checkInQuantum s
    s'.alpha = s.alpha ∧ s'.totalAs = s.totalAs ∧ s'.numControllers = s.numControllers ∧
      s'.controllersCheckedIn = s.controllersCheckedIn + locals.length ∧
      (∀ t, t ∈ s'.pendingGlobalAs.keys ↔ t ∈ s.pendingGlobalAs.keys ∨ Serves locals t) ∧
      (∀ t, s'.pendingGlobalAs.val t = s.pendingGlobalAs.val t + servedSum locals t) ∧
      s'.ranking = s.ranking := by
  induction locals generalizing s with
  | nil => simp [Serves, servedSum]
  | cons l locals ih =>
    rw [List.length_cons] at h
    have hc : checkInQuantum s l =
        { s with pendingGlobalAs := s.pendingGlobalAs.accumulate l,
                 controllersCheckedIn := s.controllersCheckedIn + 1 } := by
      simp only [checkInQuantum]
      rw [if_neg (by omega)]
    obtain ⟨ha,ht,hn,hcount,hk,hv,hr⟩ := ih (checkInQuantum s l) (by rw [hc]; dsimp only; omega)
    rw [hc] at ha ht hn hcount hk hv hr
    rw [List.foldl_cons, hc]
    refine ⟨ha,ht,hn,by rw [hcount, List.length_cons]; dsimp only; omega,fun t => ?_,fun t => ?_,hr⟩
    · rw [hk t]
      simp only [ServiceMap.accumulate, Finset.mem_union, Serves, List.mem_cons, exists_eq_or_imp]
      tauto
    · rw [hv t]
      simp only [ServiceMap.accumulate, servedSum, List.map_cons, List.sum_cons]
      ring

/-- No report of the next quantum has come yet. -/
structure Between (s : AtlasSharedState) : Prop where
  checkedIn : s.controllersCheckedIn = 0
  keys : ∀ t, t ∉ s.pendingGlobalAs.keys
  val : ∀ t, s.pendingGlobalAs.val t = 0

/-- What a quantum does to the totals: served threads are averaged, all others stay. -/
lemma quantum_spec {s : AtlasSharedState} {locals : List ServiceMap} (hb : s.Between)
    (hpos : 0 < s.numControllers) (hlen : locals.length = s.numControllers) :
    (s.quantum locals).Between ∧ (s.quantum locals).numControllers = s.numControllers ∧
      (s.quantum locals).alpha = s.alpha ∧
      (∀ t, t ∈ (s.quantum locals).totalAs.keys ↔ t ∈ s.totalAs.keys ∨ Serves locals t) ∧
      (∀ t, (s.quantum locals).totalAs.val t = if Serves locals t then
        s.alpha * s.totalAs.val t + (1 - s.alpha) * servedSum locals t else s.totalAs.val t) ∧
      ∃ m : AtlasSharedState, (s.quantum locals).totalAs = m.updateRankings.totalAs ∧
        (s.quantum locals).ranking = m.updateRankings.ranking := by
  obtain ⟨before,l,rfl⟩ : ∃ before l, locals = before ++ [l] := by
    refine ⟨locals.dropLast,locals.getLast ?_,(List.dropLast_append_getLast _).symm⟩
    rintro rfl
    rw [List.length_nil] at hlen
    omega
  rw [List.length_append, List.length_singleton] at hlen
  obtain ⟨ha,ht,hn,hcount,hk,hv,-⟩ := foldl_checkIn s before (by rw [hb.checkedIn]; omega)
  rw [hb.checkedIn] at hcount
  generalize hm : before.foldl checkInQuantum s = m at ha ht hn hcount hk hv
  have hq : s.quantum (before ++ [l]) = m.checkInQuantum l := by
    rw [quantum, List.foldl_append, hm]
    rfl
  have hcheck : m.checkInQuantum l =
      { ({ m with pendingGlobalAs := m.pendingGlobalAs.accumulate l,
                  controllersCheckedIn := m.controllersCheckedIn + 1 } :
          AtlasSharedState).updateRankings with
        pendingGlobalAs := {}, controllersCheckedIn := 0 } := by
    simp only [checkInQuantum]
    rw [if_pos (by omega)]
  have hserves : ∀ t, t ∈ (m.pendingGlobalAs.accumulate l).keys ↔ Serves (before ++ [l]) t := by
    intro t
    simp only [ServiceMap.accumulate, Finset.mem_union, hk t, hb.keys t, false_or, Serves,
      List.mem_append, List.mem_singleton, or_and_right, exists_or, exists_eq_left]
  have hsum : ∀ t, (m.pendingGlobalAs.accumulate l).val t = servedSum (before ++ [l]) t := by
    intro t
    simp only [ServiceMap.accumulate, hv t, hb.val t, servedSum, List.map_append, List.map_cons,
      List.map_nil, List.sum_append, List.sum_singleton, zero_add]
  rw [hq, hcheck]
  refine ⟨⟨rfl,fun t => Finset.notMem_empty t,fun _ => rfl⟩,hn,ha,fun t => ?_,fun t => ?_,_,rfl,rfl⟩
  · simp only [updateRankings, updatedTotals, Finset.mem_union, hserves t, ht]
  · simp only [updateRankings, updatedTotals, hserves t, hsum t, ht, ha]

/-- The state before the first quantum. -/
def initial (alpha : ℚ) (numControllers : ℕ) : AtlasSharedState :=
  { alpha := alpha, numControllers := numControllers }

/-- Along whole quanta the known threads are those that some controller has served. -/
lemma quanta_spec (alpha : ℚ) {n : ℕ} (hpos : 0 < n) {qs : List (List ServiceMap)}
    (hlen : ∀ q ∈ qs, q.length = n) :
    ((initial alpha n).quanta qs).Between ∧ ((initial alpha n).quanta qs).numControllers = n ∧
      ((initial alpha n).quanta qs).alpha = alpha ∧
      ∀ t, t ∈ ((initial alpha n).quanta qs).totalAs.keys ↔ ∃ q ∈ qs, Serves q t := by
  induction qs using List.reverseRecOn with
  | nil =>
    refine ⟨⟨rfl,fun t => Finset.notMem_empty t,fun _ => rfl⟩,rfl,rfl,fun t => ?_⟩
    simp [quanta, initial]
  | append_singleton pre q ih =>
    obtain ⟨hb,hn,ha,hk⟩ := ih fun q' hq' => hlen q' (List.mem_append_left _ hq')
    have hq : q.length = ((initial alpha n).quanta pre).numControllers := by
      rw [hn, hlen q (by simp)]
    obtain ⟨hb',hn',ha',hk',-⟩ := quantum_spec hb (by rw [hn]; exact hpos) hq
    rw [quanta, List.foldl_append]
    refine ⟨hb',hn'.trans hn,ha'.trans ha,fun t => ?_⟩
    rw [List.foldl_cons, List.foldl_nil, ← quanta, hk' t, hk t]
    simp only [List.mem_append, List.mem_singleton, or_and_right, exists_or, exists_eq_left]

/-- After every quantum each thread that was ever served has the average of Equation 1, and
of two such threads the one with less service has the smaller rank. -/
def ServiceLaw (s : AtlasSharedState) (qs : List (List ServiceMap)) : Prop :=
  ∀ pre q post, qs = pre ++ q :: post →
    (∀ t, (∃ q' ∈ pre ++ [q], Serves q' t) → (s.quanta (pre ++ [q])).totalAs.val t =
      s.alpha * (s.quanta pre).totalAs.val t + (1 - s.alpha) * servedSum q t) ∧
    ∀ a b, (∃ q' ∈ pre ++ [q], Serves q' a) → (∃ q' ∈ pre ++ [q], Serves q' b) →
      (s.quanta (pre ++ [q])).totalAs.val a < (s.quanta (pre ++ [q])).totalAs.val b →
      (s.quanta (pre ++ [q])).getRank a < (s.quanta (pre ++ [q])).getRank b

/-- A thread that was served in an earlier quantum is served in every later one as well, as
long as it has any service and the average forgets at all. -/
def NoIdleThread (s : AtlasSharedState) (qs : List (List ServiceMap)) : Prop :=
  ∀ pre q post, qs = pre ++ q :: post → ∀ t, (∃ q' ∈ pre, Serves q' t) →
    Serves q t ∨ (s.quanta pre).totalAs.val t = 0 ∨ s.alpha = 1

/-- A thread without service in a quantum has no sum. -/
lemma servedSum_of_not_serves {locals : List ServiceMap} {t : ℤ} (h : ¬ Serves locals t) :
    servedSum locals t = 0 := by
  induction locals with
  | nil => rfl
  | cons l locals ih =>
    have hl : t ∉ l.keys := fun hm => h ⟨l,List.mem_cons_self,hm⟩
    have hrest : ¬ Serves locals t := fun ⟨l',hm,ht⟩ => h ⟨l',List.mem_cons_of_mem l hm,ht⟩
    rw [servedSum, List.map_cons, List.sum_cons, l.val_of_not_key t hl, zero_add]
    exact ih hrest

lemma mem_of_mem_append_singleton {β : Type*} {pre post : List β} {q q' : β}
    (h : q' ∈ pre ++ [q]) : q' ∈ pre ++ q :: post :=
  List.mem_append.mpr ((List.mem_append.mp h).imp id fun hq =>
    List.mem_cons.mpr (.inl (List.mem_singleton.mp hq)))

lemma not_serves_of_no_controllers {q : List ServiceMap} (h : q.length = 0) (t : ℤ) :
    ¬ Serves q t := by
  rintro ⟨l,hl,-⟩
  rw [List.eq_nil_of_length_eq_zero h] at hl
  cases hl

/-- One more quantum: the totals of the served threads are averaged, and the ranks of the known
threads follow the totals. -/
lemma quanta_concat (alpha : ℚ) {n : ℕ} (hpos : 0 < n) {pre : List (List ServiceMap)}
    {q : List ServiceMap} (hlen : ∀ q' ∈ pre ++ [q], q'.length = n) :
    (∀ t, ((initial alpha n).quanta (pre ++ [q])).totalAs.val t = if Serves q t then
      alpha * ((initial alpha n).quanta pre).totalAs.val t + (1 - alpha) * servedSum q t
      else ((initial alpha n).quanta pre).totalAs.val t) ∧
    ∀ a b, (∃ q' ∈ pre ++ [q], Serves q' a) → (∃ q' ∈ pre ++ [q], Serves q' b) →
      ((initial alpha n).quanta (pre ++ [q])).totalAs.val a <
        ((initial alpha n).quanta (pre ++ [q])).totalAs.val b →
      ((initial alpha n).quanta (pre ++ [q])).getRank a <
        ((initial alpha n).quanta (pre ++ [q])).getRank b := by
  have hkeys := (quanta_spec alpha hpos hlen).2.2.2
  obtain ⟨hb,hn,ha,-⟩ := quanta_spec alpha hpos fun q' hq' => hlen q' (List.mem_append_left _ hq')
  obtain ⟨-,-,-,-,hv,m,htot,hrank⟩ := quantum_spec hb (by rw [hn]; exact hpos)
    ((hlen q (by simp)).trans hn.symm)
  have hq : (initial alpha n).quanta (pre ++ [q]) = ((initial alpha n).quanta pre).quantum q := by
    rw [quanta, List.foldl_append, List.foldl_cons, List.foldl_nil, ← quanta]
  rw [← hq] at hv htot hrank
  refine ⟨fun t => ?_,fun a b hsa hsb hlt => ?_⟩
  · rw [hv t, ha]
  · have hr : ∀ t, ((initial alpha n).quanta (pre ++ [q])).getRank t =
        m.updateRankings.getRank t := fun t => by rw [getRank, getRank, hrank]
    rw [hr, hr]
    rw [htot] at hkeys hlt
    exact m.rank_lt_of_served_lt ((hkeys a).mpr hsa) ((hkeys b).mpr hsb) hlt

/-- A total that is kept is the average with no service only if there is nothing to forget. -/
lemma kept_eq_average_iff {alpha x : ℚ} : x = alpha * x + (1 - alpha) * 0 ↔ x = 0 ∨ alpha = 1 := by
  constructor
  · intro h
    have hzero : (1 - alpha) * x = 0 := by linarith
    rcases mul_eq_zero.mp hzero with h1 | h0
    · exact .inr (by linarith)
    · exact .inl h0
  · rintro (rfl | rfl) <;> ring

/-- The law holds over a run of quanta if and only if no thread with service pauses. -/
theorem serviceLaw_iff (alpha : ℚ) (n : ℕ) (qs : List (List ServiceMap))
    (hlen : ∀ q ∈ qs, q.length = n) :
    (initial alpha n).ServiceLaw qs ↔ (initial alpha n).NoIdleThread qs := by
  rcases Nat.eq_zero_or_pos n with rfl | hpos
  · -- without controllers there is no service
    have hno : ∀ q ∈ qs, ∀ t, ¬ Serves q t := fun q hq => not_serves_of_no_controllers (hlen q hq)
    constructor
    · rintro - pre q post rfl t ⟨q',hq',hs⟩
      exact absurd hs (hno q' (List.mem_append_left _ hq') t)
    · rintro - pre q post rfl
      have hnone : ∀ t, ¬ ∃ q' ∈ pre ++ [q], Serves q' t := fun t ⟨q',hq',hs⟩ =>
        hno q' (mem_of_mem_append_singleton hq') t hs
      exact ⟨fun t ht => absurd ht (hnone t),fun a _ ha => absurd ha (hnone a)⟩
  have hupto : ∀ {pre q post}, qs = pre ++ q :: post → ∀ q' ∈ pre ++ [q], q'.length = n := by
    rintro pre q post rfl q' hq'
    exact hlen q' (mem_of_mem_append_singleton hq')
  constructor
  · intro hlaw pre q post he t ⟨q',hq',hs⟩
    by_cases hserves : Serves q t
    · exact .inl hserves
    have heq := (hlaw pre q post he).1 t ⟨q',List.mem_append_left _ hq',hs⟩
    rw [(quanta_concat alpha hpos (hupto he)).1 t, if_neg hserves,
      servedSum_of_not_serves hserves] at heq
    exact .inr (kept_eq_average_iff.mp heq)
  · intro hidle pre q post he
    obtain ⟨haverage,hranks⟩ := quanta_concat alpha hpos (hupto he)
    refine ⟨fun t ⟨q',hq',hs⟩ => ?_,hranks⟩
    rw [haverage t]
    by_cases hserves : Serves q t
    · rw [if_pos hserves]
      rfl
    have hpre : q' ∈ pre := (List.mem_append.mp hq').resolve_right fun hq => by
      rw [List.mem_singleton.mp hq] at hs
      exact hserves hs
    rw [if_neg hserves, servedSum_of_not_serves hserves]
    exact kept_eq_average_iff.mpr
      ((hidle pre q post he t ⟨q',hpre,hs⟩).resolve_left hserves)

end AtlasSharedState

/-- The report of a controller that has served one thread. -/
def served (t : ℤ) (service : ℚ) : ServiceMap where
  keys := {t}
  val := fun u => if u = t then service else 0
  val_of_not_key _ h := if_neg (Finset.notMem_singleton.mp h)

/-- Two controllers that serve thread 3 in both quanta. -/
theorem busyThread_serviceLaw : (AtlasSharedState.initial (7 / 8) 2).ServiceLaw
    [[served 3 100, served 3 60], [served 3 8, served 3 8]] := by
  refine (AtlasSharedState.serviceLaw_iff (7 / 8) 2 _ (by decide)).mpr ?_
  intro pre q post he t ht
  have hall : ∀ q ∈ [[served 3 100, served 3 60], [served 3 8, served 3 8]],
      Serves q 3 ∧ ∀ t, Serves q t → t = 3 := by
    simp [Serves, served]
  obtain ⟨q',hq',hs⟩ := ht
  obtain rfl := (hall q' (by rw [he]; exact List.mem_append_left _ hq')).2 t hs
  exact .inl (hall q (by rw [he]; simp)).1

/-- A thread that pauses for one quantum keeps its total instead of seven eighths of it. -/
theorem pausing_thread_keeps_service :
    ¬ (AtlasSharedState.initial (7 / 8) 1).ServiceLaw [[served 3 80], [served 4 80]] := by
  intro h
  have heq := (h [[served 3 80]] [served 4 80] [] rfl).1 3
    ⟨[served 3 80],by simp,served 3 80,by simp,Finset.mem_singleton_self 3⟩
  revert heq
  decide +kernel

end CaLabs.Lab5
