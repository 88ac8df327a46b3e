import Mathlib.Algebra.BigOperators.Group.Finset.Basic
import Mathlib.Algebra.Order.BigOperators.Group.Finset
import Mathlib.Tactic.SplitIfs

/-! A summary of a stream by a fixed number of counters, which reports an item when its counter
reaches a threshold, and what no item can escape. -/
namespace CaLabs.Lib

/-- The counters of the tracked items and the one that the other items share. -/
structure Summary (α : Type*) where
  tracked : Finset α
  count : α → ℕ
  spill : ℕ

namespace Summary
variable {α : Type*} [DecidableEq α]

/-- Give the counter of an item another value. -/
def setCount (s : Summary α) (x : α) (v : ℕ) : Summary α :=
  { s with count := Function.update s.count x v }

/-- Track x in the place of y. -/
def exchange (s : Summary α) (x y : α) : Summary α :=
  { s with tracked := insert x (s.tracked.erase y) }

@[simp] lemma setCount_tracked (s : Summary α) (x : α) (v : ℕ) :
    (s.setCount x v).tracked = s.tracked := rfl

@[simp] lemma setCount_spill (s : Summary α) (x : α) (v : ℕ) :
    (s.setCount x v).spill = s.spill := rfl

@[simp] lemma setCount_self (s : Summary α) (x : α) (v : ℕ) : (s.setCount x v).count x = v :=
  Function.update_self _ _ _

@[simp] lemma setCount_of_ne {s : Summary α} {x y : α} (h : y ≠ x) (v : ℕ) :
    (s.setCount x v).count y = s.count y := Function.update_of_ne h _ _

lemma setCount_setCount (s : Summary α) (x : α) (v w : ℕ) :
    (s.setCount x v).setCount x w = s.setCount x w := by
  rw [setCount, setCount, Function.update_idem]
  rfl

/-- An item arrives; the second component of the result tells if it is reported. An item that is
not tracked takes the place of the one that is given. -/
def arrive (threshold : ℕ) (place : Option α) (s : Summary α) (x : α) : Summary α × Bool :=
  if x ∈ s.tracked then
    if threshold ≤ s.count x + 1 then (s.setCount x s.spill,true)
    else (s.setCount x (s.count x + 1),false)
  else
    match place with
    | some y => ((s.exchange x y).setCount x (s.spill + 1),false)
    | none => ({ s with spill := s.spill + 1 },false)

/-- The place is that of a counter that is equal to the shared one, if there is one. -/
structure Place (s : Summary α) (place : Option α) : Prop where
  equal : ∀ y, place = some y → y ∈ s.tracked ∧ s.count y = s.spill
  none : place = none → ∀ y ∈ s.tracked, s.count y ≠ s.spill

/-- The arrivals of each item since its last report. -/
def sinceReport (since : α → ℕ) (x : α) (reported : Bool) : α → ℕ :=
  Function.update since x (if reported then 0 else since x + 1)

/-- The invariant after so many arrivals: no item has arrived more often since its last report
than its counter says, and a counter at the threshold is hardly above the shared one. -/
structure Covers (threshold size arrivals : ℕ) (since : α → ℕ) (s : Summary α) : Prop where
  size : s.tracked.card = size
  low : ∀ x ∈ s.tracked, s.spill ≤ s.count x
  tracked : ∀ x ∈ s.tracked, since x ≤ s.count x
  other : ∀ x ∉ s.tracked, since x ≤ s.spill
  capped : ∀ x ∈ s.tracked, s.count x < threshold ∨ s.count x ≤ s.spill + 1
  total : ∑ x ∈ s.tracked, s.count x + s.spill ≤ arrivals

section Steps
variable {threshold size arrivals : ℕ} {since : α → ℕ} {s : Summary α} {x : α}

lemma sinceReport_self (since : α → ℕ) (x : α) (reported : Bool) :
    sinceReport since x reported x = if reported then 0 else since x + 1 :=
  Function.update_self _ _ _

lemma sinceReport_of_ne {y : α} (h : y ≠ x) (reported : Bool) :
    sinceReport since x reported y = since y := Function.update_of_ne h _ _

lemma sum_setCount (hx : x ∈ s.tracked) (v : ℕ) :
    ∑ y ∈ s.tracked, (s.setCount x v).count y + s.count x = ∑ y ∈ s.tracked, s.count y + v := by
  have hold := Finset.add_sum_erase s.tracked s.count hx
  have hnew := Finset.add_sum_erase s.tracked (s.setCount x v).count hx
  have hrest : ∑ y ∈ s.tracked.erase x, (s.setCount x v).count y =
      ∑ y ∈ s.tracked.erase x, s.count y :=
    Finset.sum_congr rfl fun y hy => setCount_of_ne (Finset.ne_of_mem_erase hy) v
  rw [setCount_self] at hnew
  omega

/-- The counter of an arrived item gets a value that covers it. -/
lemma Covers.setCount (h : s.Covers threshold size arrivals since) (hx : x ∈ s.tracked) {v : ℕ}
    {reported : Bool} (hlow : s.spill ≤ v) (hsince : sinceReport since x reported x ≤ v)
    (hcap : v < threshold ∨ v ≤ s.spill + 1) (hle : v ≤ s.count x + 1) :
    (s.setCount x v).Covers threshold size (arrivals+1) (sinceReport since x reported) := by
  have hsum := sum_setCount hx v
  have htotal := h.total
  refine ⟨h.size,fun y hy => ?_,fun y hy => ?_,fun y hy => ?_,fun y hy => ?_,?_⟩
  · by_cases hyx : y = x
    · rwa [hyx, setCount_self]
    · rw [setCount_of_ne hyx]
      exact h.low y hy
  · by_cases hyx : y = x
    · rwa [hyx, setCount_self]
    · rw [setCount_of_ne hyx, sinceReport_of_ne hyx]
      exact h.tracked y hy
  · have hyx : y ≠ x := fun he => hy (he ▸ hx)
    rw [sinceReport_of_ne hyx]
    exact h.other y hy
  · by_cases hyx : y = x
    · rwa [hyx, setCount_self]
    · rw [setCount_of_ne hyx]
      exact h.capped y hy
  · rw [setCount_tracked, setCount_spill]
    omega

/-- An item that is not tracked takes the place of one whose counter is the shared one. -/
lemma Covers.exchange (h : s.Covers threshold size arrivals since) (hx : x ∉ s.tracked) {y : α}
    (hy : y ∈ s.tracked) (hcount : s.count y = s.spill) :
    ((s.exchange x y).setCount x s.spill).Covers threshold size arrivals since := by
  have hxe : x ∉ s.tracked.erase y := fun hmem => hx (Finset.mem_of_mem_erase hmem)
  have hne : ∀ z ∈ s.tracked.erase y, z ≠ x := fun z hz he => hxe (he ▸ hz)
  have hrest : ∑ z ∈ s.tracked.erase y, ((s.exchange x y).setCount x s.spill).count z =
      ∑ z ∈ s.tracked.erase y, s.count z :=
    Finset.sum_congr rfl fun z hz => setCount_of_ne (hne z hz) _
  have hold := Finset.add_sum_erase s.tracked s.count hy
  have htotal := h.total
  refine ⟨?_,fun z hz => ?_,fun z hz => ?_,fun z hz => ?_,fun z hz => ?_,?_⟩
  · exact (Finset.card_insert_of_notMem hxe).trans ((Finset.card_erase_add_one hy).trans h.size)
  · obtain rfl | hz := Finset.mem_insert.mp hz
    · exact (setCount_self _ _ _).ge
    · rw [setCount_of_ne (hne z hz)]
      exact h.low z (Finset.mem_of_mem_erase hz)
  · obtain rfl | hz := Finset.mem_insert.mp hz
    · exact (h.other z hx).trans (setCount_self _ _ _).ge
    · rw [setCount_of_ne (hne z hz)]
      exact h.tracked z (Finset.mem_of_mem_erase hz)
  · by_cases hzy : z = y
    · subst hzy
      exact (h.tracked z hy).trans hcount.le
    · refine h.other z fun hmem => hz (Finset.mem_insert_of_mem ?_)
      exact Finset.mem_erase.mpr ⟨hzy,hmem⟩
  · obtain rfl | hz := Finset.mem_insert.mp hz
    · exact .inr ((setCount_self _ _ _).le.trans (Nat.le_succ _))
    · rw [setCount_of_ne (hne z hz)]
      exact h.capped z (Finset.mem_of_mem_erase hz)
  · show ∑ z ∈ insert x (s.tracked.erase y), ((s.exchange x y).setCount x s.spill).count z +
      s.spill ≤ arrivals
    rw [Finset.sum_insert hxe, setCount_self, hrest]
    omega

/-- The shared counter counts an item for which there is no place. -/
lemma Covers.spill (h : s.Covers threshold size arrivals since) (hx : x ∉ s.tracked)
    (hnone : ∀ y ∈ s.tracked, s.count y ≠ s.spill) :
    { s with spill := s.spill + 1 }.Covers threshold size (arrivals+1)
      (sinceReport since x false) := by
  have htotal := h.total
  refine ⟨h.size,fun y hy => ?_,fun y hy => ?_,fun y hy => ?_,fun y hy => ?_,by dsimp only; omega⟩
  · exact lt_of_le_of_ne (h.low y hy) (hnone y hy).symm
  · have hyx : y ≠ x := fun he => hx (he ▸ hy)
    rw [sinceReport_of_ne hyx]
    exact h.tracked y hy
  · by_cases hyx : y = x
    · subst hyx
      rw [sinceReport_self]
      exact Nat.succ_le_succ (h.other y hy)
    · rw [sinceReport_of_ne hyx]
      exact (h.other y hy).trans (Nat.le_succ _)
  · exact (h.capped y hy).imp_right fun hle => hle.trans (Nat.le_succ _)

theorem Covers.arrive (h : s.Covers threshold size arrivals since) {place : Option α}
    (hp : s.Place place) : (s.arrive threshold place x).1.Covers threshold size (arrivals+1)
      (sinceReport since x (s.arrive threshold place x).2) := by
  unfold Summary.arrive
  split_ifs with hx hT
  · have hlow := h.low x hx
    exact h.setCount hx le_rfl (by rw [sinceReport_self]; exact Nat.zero_le _)
      (.inr (Nat.le_succ _)) (by omega)
  · have hlow := h.low x hx
    have hsince := h.tracked x hx
    exact h.setCount hx (by omega) (by rw [sinceReport_self]; exact Nat.succ_le_succ hsince)
      (.inl (by omega)) le_rfl
  · cases place with
    | none => exact h.spill hx (hp.none rfl)
    | some y =>
      obtain ⟨hy,hcount⟩ := hp.equal y rfl
      have hchanged := h.exchange hx hy hcount
      have hmem : x ∈ ((s.exchange x y).setCount x s.spill).tracked := Finset.mem_insert_self _ _
      dsimp only
      rw [← setCount_setCount (s.exchange x y) x s.spill]
      have hsince : sinceReport since x false x ≤ s.spill + 1 := by
        rw [sinceReport_self]
        exact Nat.succ_le_succ (h.other x hx)
      exact hchanged.setCount hmem (Nat.le_succ _) hsince (.inr le_rfl) (by rw [setCount_self])

omit [DecidableEq α] in
lemma Covers.start (items : Finset α) (threshold : ℕ) :
    (⟨items,fun _ => 0,0⟩ : Summary α).Covers threshold items.card 0 fun _ => 0 :=
  ⟨rfl,fun _ _ => le_rfl,fun _ _ => le_rfl,fun _ _ => le_rfl,
    fun _ _ => .inr (Nat.zero_le _),by simp⟩

omit [DecidableEq α] in
/-- The shared counter is at most the average of all counters. -/
theorem Covers.spill_le (h : s.Covers threshold size arrivals since) :
    (size + 1) * s.spill ≤ arrivals := by
  have hsum : size * s.spill ≤ ∑ x ∈ s.tracked, s.count x := by
    rw [← h.size]
    exact Finset.card_nsmul_le_sum _ _ _ h.low
  have htotal := h.total
  rw [Nat.succ_mul]
  omega

/-- No item arrives more often without a report. -/
theorem Covers.since_le (h : s.Covers threshold size arrivals since) (x : α) :
    since x < threshold ∨ since x ≤ s.spill + 1 := by
  by_cases hx : x ∈ s.tracked
  · have hle := h.tracked x hx
    exact (h.capped x hx).imp (fun hlt => hle.trans_lt hlt) fun hspill => hle.trans hspill
  · exact .inr ((h.other x hx).trans (Nat.le_succ _))

/-- With too few arrivals to raise the shared counter, no item reaches the threshold without a
report. -/
theorem Covers.since_lt (h : s.Covers threshold size arrivals since)
    (hfew : arrivals < (size + 1) * (threshold - 1)) (x : α) : since x < threshold := by
  have hspill : s.spill < threshold - 1 :=
    Nat.lt_of_mul_lt_mul_left (h.spill_le.trans_lt hfew)
  rcases h.since_le x with hlt | hle
  · exact hlt
  · omega

end Steps
end Summary
end CaLabs.Lib
