import CaLabs.Lab4.LearningPhase

/-! The lines that abop prefetches. Until its first phase is over the second and third offset are
still 0, and the accessed line itself is prefetched. -/
namespace CaLabs.Lab4.BestOffset

lemma candidates_injective : Function.Injective candidates := by
  unfold Function.Injective
  decide +kernel

lemma candidates_range (i : Fin scoreTableSize) : 0 < candidates i ∧ candidates i ≤ 256 := by
  revert i
  decide

/-- The indices in the sorted scores are those of all candidates. -/
lemma Learner.nodup_indices (l : Learner) : (l.scoreIndices.map Prod.snd).Nodup := by
  have hperm := l.scoreIndices_perm.map Prod.snd
  rw [List.map_map] at hperm
  have hid : (Prod.snd ∘ fun i : Fin scoreTableSize => (l.scores i,i)) = id := rfl
  rw [hid, List.map_id] at hperm
  exact hperm.nodup_iff.mpr (List.nodup_finRange _)

/-- Offsets that point to different lines, none of them to the accessed one. -/
structure Useful (offsets : List ℕ) : Prop where
  nodup : offsets.Nodup
  range : ∀ o ∈ offsets, 0 < o ∧ o ≤ 256

lemma useful_best (l : Learner) : Useful ((l.scoreIndices.take 3).map fun x => candidates x.2) := by
  have hmap : ((l.scoreIndices.take 3).map fun x => candidates x.2) =
      ((l.scoreIndices.map Prod.snd).take 3).map candidates := by
    rw [← List.map_take, List.map_map]
    rfl
  rw [hmap]
  refine ⟨(l.nodup_indices.sublist (List.take_sublist _ _)).map candidates_injective,?_⟩
  intro o ho
  obtain ⟨i,-,rfl⟩ := List.mem_map.mp ho
  exact candidates_range i

namespace Abop

/-- The state before or after the end of the first phase. -/
inductive Offsets (s : Abop) : Prop where
  | first (h : s.learner.accessCounter < roundMax)
      (hr : s.learner.roundCounter = s.learner.accessCounter)
      (ho : s.bestOffsets = [1, 0, 0]) (hd : s.currentDegree = 1)
  | later (h : roundMax ≤ s.learner.accessCounter) (ho : Useful s.bestOffsets)

lemma learn_offsets {s : Abop} {start : ℕ} {tests : List Test}
    (hl : Learning s.learner start tests) (h : s.Offsets) (line : Line) :
    (s.learn line).Offsets ∧
      (s.learn line).learner.accessCounter = s.learner.accessCounter + 1 := by
  have hcounter : (s.learner.test line).accessCounter = s.learner.accessCounter + 1 := rfl
  obtain ⟨htest,hround⟩ := hl.toInPhase.test hl.unfinished line
  have huseful := useful_best (s.learner.test line)
  simp only [learn]
  generalize s.learner.test line = l at hcounter htest hround huseful ⊢
  by_cases hend : l.roundOver = true
  · rw [if_pos hend]
    have hmax := htest.roundOver_iff.mp hend
    have hc := hl.counter
    refine ⟨.later ?_ ?_,hcounter⟩
    · change roundMax ≤ l.accessCounter
      omega
    · dsimp only
      exact huseful
  · rw [if_neg hend]
    refine ⟨?_,hcounter⟩
    cases h with
    | first h hr ho hd =>
      have hne : l.roundCounter ≠ roundMax := fun he => hend (htest.roundOver_iff.mpr he)
      have hle := htest.rounds
      refine .first ?_ ?_ ho hd
      · change l.accessCounter < roundMax
        omega
      · change l.roundCounter = l.accessCounter
        omega
    | later h ho =>
      refine .later ?_ ho
      change roundMax ≤ l.accessCounter
      omega

lemma cacheOperate_fst {s : Abop} {a : Access} (h : a.operates = true) :
    (s.cacheOperate a).1 = s.learn a.line := by
  rw [cacheOperate, if_pos h]

/-- The state of every run. -/
lemma run_offsets (events : List Event) :
    (∃ start tests, Learning (prefetcher.run prefetcher.initial events).learner start tests) ∧
      (prefetcher.run prefetcher.initial events).Offsets := by
  induction events using List.reverseRecOn with
  | nil => exact ⟨⟨0,[],prefetcher.initial_learning⟩,.first (by decide) rfl rfl rfl⟩
  | append_singleton events e ih =>
    obtain ⟨⟨start,tests,hl⟩,ho⟩ := ih
    obtain ⟨⟨start',hl'⟩,-⟩ := prefetcher.step_learning hl e
    rw [prefetcher.run_concat]
    refine ⟨⟨start',_,hl'⟩,?_⟩
    generalize prefetcher.run prefetcher.initial events = s at hl ho
    cases e with
    | fill addr prefetch =>
      have hrounds : (s.cacheFill addr prefetch).learner.roundCounter = s.learner.roundCounter ∧
          (s.cacheFill addr prefetch).learner.accessCounter = s.learner.accessCounter := by
        simp only [cacheFill, Learner.cacheFill]
        split_ifs <;> exact ⟨rfl,rfl⟩
      change (s.cacheFill addr prefetch).Offsets
      cases ho with
      | first h hr ho hd =>
        exact .first (hrounds.2 ▸ h) (by rw [hrounds.1, hrounds.2, hr]) ho hd
      | later h ho => exact .later (hrounds.2 ▸ h) ho
    | access a =>
      change (s.cacheOperate a).1.Offsets
      cases ha : a.operates with
      | false =>
        rw [cacheOperate, ha]
        exact ho
      | true =>
        rw [cacheOperate_fst ha]
        exact (learn_offsets hl ho a.line).1

end Abop

/-- The line of an issued address in the page of the access. -/
lemma lineOf_shift {pfLine : Line} {a : Access} (h : page pfLine = page a.line) :
    lineOf (pfLine <<< 6) = pfLine := by
  have hpf := pfLine.isLt
  have haddr := a.addr.isLt
  have htoNat := congrArg BitVec.toNat h
  simp only [page, Access.line, lineOf, BitVec.toNat_ushiftRight, Nat.shiftRight_eq_div_pow]
    at htoNat
  apply BitVec.eq_of_toNat_eq
  simp only [lineOf, BitVec.toNat_ushiftRight, BitVec.toNat_shiftLeft,
    Nat.shiftRight_eq_div_pow, Nat.shiftLeft_eq]
  omega

/-- The lines that an access passes to prefetch_line. -/
def Abop.targets (s : Abop) (a : Access) : List Line := (s.cacheOperate a).2.map lineOf

/-- The lines are distinct, in the page of the accessed line, and not that line. -/
structure UsefulTargets (a : Access) (lines : List Line) : Prop where
  nodup : lines.Nodup
  samePage : ∀ line ∈ lines, page line = page a.line
  other : a.line ∉ lines

/-- The lines of the offsets in the same page. -/
def inPage (line : Line) (offsets : List ℕ) : List Line :=
  (offsets.map fun o => line + BitVec.ofNat 64 o).filter fun pfLine => page pfLine = page line

lemma issue_lines (s : Abop) (a : Access) (bw : BitVec 8) :
    (s.issue a.line bw).map lineOf = inPage a.line (s.bestOffsets.take (s.degree bw)) := by
  rw [Abop.issue, inPage]
  induction s.bestOffsets.take (s.degree bw) with
  | nil => rfl
  | cons o rest ih =>
    rw [List.filterMap_cons, List.map_cons, List.filter_cons]
    by_cases hpage : page (a.line + BitVec.ofNat 64 o) = page a.line
    · simp only [if_pos hpage, List.map_cons, lineOf_shift hpage, decide_eq_true hpage, if_true, ih]
    · simp only [if_neg hpage, decide_eq_false hpage, Bool.false_eq_true, if_false, ih]

lemma offset_injective {line : Line} {o o' : ℕ} (ho : o ≤ 256) (ho' : o' ≤ 256)
    (h : line + BitVec.ofNat 64 o = line + BitVec.ofNat 64 o') : o = o' := by
  have heq := congrArg BitVec.toNat (BitVec.add_right_inj _ |>.mp h)
  rw [BitVec.toNat_ofNat, BitVec.toNat_ofNat] at heq
  omega

/-- Useful offsets give useful targets. -/
lemma Useful.targets {offsets : List ℕ} (h : Useful offsets) (a : Access) :
    UsefulTargets a (inPage a.line offsets) := by
  refine ⟨?_,fun line hline => ?_,fun hmem => ?_⟩
  · refine List.Nodup.filter _ (List.Nodup.map_on (fun o ho o' ho' he => ?_) h.nodup)
    exact offset_injective (h.range o ho).2 (h.range o' ho').2 he
  · exact of_decide_eq_true (List.mem_filter.mp hline).2
  · obtain ⟨o,ho,he⟩ := List.mem_map.mp (List.mem_filter.mp hmem).1
    have hrange := h.range o ho
    have hzero : a.line + BitVec.ofNat 64 o = a.line + BitVec.ofNat 64 0 := by
      rw [he, BitVec.add_zero]
    have ho0 := offset_injective hrange.2 (Nat.zero_le _) hzero
    omega

lemma Useful.take {offsets : List ℕ} (h : Useful offsets) (n : ℕ) : Useful (offsets.take n) :=
  ⟨h.nodup.sublist (List.take_sublist _ _),fun o ho => h.range o (List.mem_of_mem_take ho)⟩

/-- The access comes before the end of the first phase, with bandwidth to spare. -/
def EarlyAccess (s : Abop) (a : Access) : Prop :=
  a.operates = true ∧ s.learner.accessCounter + 1 < roundMax ∧ a.bw ≤ 11

/-- After every sequence of fills and accesses and for every access and bandwidth: the targets
are useful unless the access comes early. -/
theorem targets_useful_iff (events : List Event) (a : Access) :
    UsefulTargets a ((Abop.prefetcher.run Abop.prefetcher.initial events).targets a) ↔
      ¬EarlyAccess (Abop.prefetcher.run Abop.prefetcher.initial events) a := by
  obtain ⟨⟨start,tests,hl⟩,ho⟩ := Abop.run_offsets events
  generalize Abop.prefetcher.run Abop.prefetcher.initial events = s at hl ho
  rw [Abop.targets, Abop.cacheOperate, EarlyAccess]
  cases ha : a.operates with
  | false =>
    simp only [Bool.false_eq_true, if_false, false_and, not_false_eq_true, iff_true]
    exact ⟨List.nodup_nil,fun line hline => (by cases hline),List.not_mem_nil⟩
  | true =>
    obtain ⟨hoffsets,hcounter⟩ := Abop.learn_offsets hl ho a.line
    rw [if_pos rfl, issue_lines, ← hcounter]
    cases hoffsets with
    | first h hr ho hd =>
      have hone : Useful [1] :=
        ⟨List.nodup_singleton 1,fun o ho => (by rw [List.mem_singleton.mp ho]; decide)⟩
      simp only [ho, Abop.degree, hd, one_ne_zero, ne_eq, not_false_eq_true, if_true]
      by_cases hbw : a.bw ≤ 11
      · -- the second offset is 0 and always taken
        have hmem : 0 ∈ [1, 0, 0].take (if a.bw > 11 then 1 else if a.bw < 4 then 3 else 2) := by
          rw [if_neg (BitVec.not_lt.mpr hbw)]
          split_ifs <;> decide
        refine iff_of_false (fun htargets => htargets.other ?_) fun h' => h' ⟨trivial,h,hbw⟩
        exact List.mem_filter.mpr
          ⟨List.mem_map.mpr ⟨0,hmem,BitVec.add_zero _⟩,decide_eq_true rfl⟩
      · have hgt : a.bw > 11 := BitVec.not_le.mp hbw
        rw [if_pos hgt]
        exact iff_of_true (hone.targets a) fun hearly => hbw hearly.2.2
    | later h ho =>
      refine iff_of_true ((ho.take _).targets a) ?_
      rintro ⟨-,hearly,-⟩
      omega

/-- The first access of all, with an idle memory: the accessed line is prefetched, twice. -/
theorem firstAccess_prefetches_itself :
    ¬UsefulTargets { addr := 0x40000 }
      ((Abop.prefetcher.run Abop.prefetcher.initial []).targets { addr := 0x40000 }) := by
  intro h
  refine h.other ?_
  decide

end CaLabs.Lab4.BestOffset
