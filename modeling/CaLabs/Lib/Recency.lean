import Mathlib.Data.List.Basic
import Mathlib.Data.List.Nodup
import Mathlib.Tactic

/-! Least recently used replacement: the list in order of most recent use, its meaning in
terms of the history of uses, and its encoding by one counter an element. -/
namespace CaLabs.Lib
variable {α : Type*} [DecidableEq α]

/-- A use of x moves it to the front. -/
def toFront (x : α) (l : List α) : List α := x :: l.erase x

section ToFront
variable {x y : α} {l : List α}

@[simp] lemma mem_toFront : y ∈ toFront x l ↔ y = x ∨ y ∈ l := by
  by_cases hxy : y = x
  · simp [toFront, hxy]
  · simp [toFront, hxy, List.mem_erase_of_ne hxy]

lemma nodup_toFront (h : l.Nodup) : (toFront x l).Nodup :=
  List.nodup_cons.mpr ⟨h.not_mem_erase,h.erase x⟩

lemma toFront_of_notMem (h : x ∉ l) : toFront x l = x :: l := by
  rw [toFront, List.erase_of_not_mem h]

lemma length_toFront_of_mem (h : x ∈ l) : (toFront x l).length = l.length := by
  rw [toFront, List.length_cons, List.length_erase_of_mem h]
  have hpos := List.length_pos_of_mem h
  omega

/-- A use of an element of an order of the first numbers. -/
lemma filled_toFront {order : List ℕ} {w : ℕ} (h : ∀ v, v ∈ order ↔ v < order.length)
    (hw : w ∈ order) (v : ℕ) : v ∈ toFront w order ↔ v < (toFront w order).length := by
  rw [length_toFront_of_mem hw, mem_toFront, ← h]
  exact ⟨fun hor => hor.elim (fun he => he ▸ hw) id,.inr⟩

/-- The first elements after a use depend on the first elements before it only. -/
lemma take_toFront (x : α) (l : List α) (n : ℕ) :
    (toFront x (l.take n)).take n = (toFront x l).take n := by
  cases n with
  | zero => rfl
  | succ n =>
    simp only [toFront, List.take_succ_cons, List.cons.injEq, true_and]
    induction l generalizing n with
    | nil => rfl
    | cons a t ih =>
      by_cases hax : a = x
      · subst hax
        simp [List.take_take]
      · rw [List.take_succ_cons, List.erase_cons_tail (by simpa using hax),
          List.erase_cons_tail (by simpa using hax)]
        cases n with
        | zero => rfl
        | succ n => rw [List.take_succ_cons, List.take_succ_cons, ih n]

/-- Moving to the front commutes with a map that keeps the elements apart. -/
lemma toFront_map {β : Type*} [DecidableEq β] (f : α → β) (h : (l.map f).Nodup) (hx : x ∈ l) :
    (toFront x l).map f = toFront (f x) (l.map f) := by
  simp only [toFront, List.map_cons, List.cons.injEq, true_and]
  induction l with
  | nil => cases hx
  | cons a t ih =>
    by_cases hax : a = x
    · subst hax
      simp
    · have hxt : x ∈ t := (List.mem_cons.mp hx).resolve_left (Ne.symm hax)
      have hne : f a ≠ f x := by
        intro he
        exact (List.nodup_cons.mp h).1 (he ▸ List.mem_map_of_mem hxt)
      rw [List.erase_cons_tail (by simpa using hax), List.map_cons, List.map_cons,
        List.erase_cons_tail (by simpa using hne), ih (List.nodup_cons.mp h).2 hxt]

/-- The positions that a use changes are those of the more recent elements. -/
theorem idxOf_toFront (h : l.Nodup) (hx : x ∈ l) :
    (toFront x l).idxOf y =
      if y = x then 0 else if l.idxOf y < l.idxOf x then l.idxOf y + 1 else l.idxOf y := by
  induction l with
  | nil => cases hx
  | cons a t ih =>
    by_cases hyx : y = x
    · simp [toFront, hyx]
    · rw [if_neg hyx, toFront, List.idxOf_cons_ne _ (Ne.symm hyx)]
      by_cases hax : a = x
      · subst hax
        rw [List.erase_cons_head, List.idxOf_cons_self, if_neg (Nat.not_lt_zero _),
          List.idxOf_cons_ne _ (Ne.symm hyx)]
      · have hxt : x ∈ t := (List.mem_cons.mp hx).resolve_left (Ne.symm hax)
        rw [List.erase_cons_tail (by simpa using hax), List.idxOf_cons_ne t hax]
        by_cases hay : a = y
        · subst hay
          simp
        · have hih := ih (List.nodup_cons.mp h).2 hxt
          rw [if_neg hyx, toFront, List.idxOf_cons_ne _ (Ne.symm hyx)] at hih
          rw [List.idxOf_cons_ne _ hay, List.idxOf_cons_ne _ hay, hih]
          split_ifs with h₁ h₂ h₂ <;> omega

end ToFront

/-- The last use of x in the history is later than that of y: `idxOf` in the reversed history
counts the uses since then. -/
def UsedAfter (history : List α) (x y : α) : Prop :=
  history.reverse.idxOf x < history.reverse.idxOf y

/-- At most n different elements in order of most recent use. -/
structure MruList (α : Type*) (n : ℕ) where
  items : List α
  nodup : items.Nodup
  length_le : items.length ≤ n

namespace MruList
variable {n : ℕ}

def empty : MruList α n := ⟨[],List.nodup_nil,Nat.zero_le n⟩

/-- The element used goes to the front; the last one leaves a list that would grow over n. -/
def touch (l : MruList α n) (x : α) : MruList α n where
  items := (toFront x l.items).take n
  nodup := (nodup_toFront l.nodup).sublist (List.take_sublist _ _)
  length_le := List.length_take_le _ _

section Touch
variable {l : MruList α n} {x : α}

lemma touch_of_mem (h : x ∈ l.items) : (l.touch x).items = toFront x l.items :=
  List.take_of_length_le ((length_toFront_of_mem h).le.trans l.length_le)

lemma touch_of_room (h : x ∉ l.items) (hn : l.items.length < n) :
    (l.touch x).items = x :: l.items := by
  have he : (l.touch x).items = (toFront x l.items).take n := rfl
  rw [he, toFront_of_notMem h]
  exact List.take_of_length_le hn

/-- The least recently used element makes room. -/
lemma touch_of_full (h : x ∉ l.items) (hn : l.items.length = n) (hpos : 0 < n) :
    (l.touch x).items = x :: l.items.dropLast := by
  obtain ⟨m,rfl⟩ := Nat.exists_eq_succ_of_ne_zero hpos.ne'
  have he : (l.touch x).items = (toFront x l.items).take (m+1) := rfl
  rw [he, toFront_of_notMem h, List.take_succ_cons, List.dropLast_eq_take, hn]
  rfl

end Touch

/-- Inclusion: a shorter list goes on being the front of a longer one. -/
theorem touch_eq_take {m : ℕ} {l : MruList α n} {l' : MruList α m} (hnm : n ≤ m)
    (h : l.items = l'.items.take n) (x : α) : (l.touch x).items = (l'.touch x).items.take n := by
  have he : (l.touch x).items = (toFront x l.items).take n := rfl
  have he' : (l'.touch x).items = (toFront x l'.items).take m := rfl
  rw [he, he', h, take_toFront, List.take_take, min_eq_left hnm]

/-- The list after a history of uses, the oldest first. -/
def ofHistory (n : ℕ) (history : List α) : MruList α n := history.foldl touch empty

lemma ofHistory_append (history : List α) (x : α) :
    ofHistory n (history ++ [x]) = (ofHistory n history).touch x := by
  simp [ofHistory]

/-- What is in the list has been used. -/
theorem mem_of_mem_ofHistory {history : List α} {x : α}
    (h : x ∈ (ofHistory n history).items) : x ∈ history := by
  induction history using List.reverseRecOn with
  | nil => cases h
  | append_singleton history y ih =>
    rw [ofHistory_append] at h
    have hmem := List.mem_of_mem_take h
    rw [mem_toFront] at hmem
    rw [List.mem_append, List.mem_singleton]
    exact hmem.symm.imp_left ih

/-- An element that stands before another has been used after it. -/
theorem ofHistory_sorted (history : List α) :
    (ofHistory n history).items.Pairwise (UsedAfter history) := by
  unfold UsedAfter
  induction history using List.reverseRecOn with
  | nil => exact List.Pairwise.nil
  | append_singleton history y ih =>
    rw [ofHistory_append, List.reverse_append, List.reverse_singleton, List.singleton_append]
    refine List.Pairwise.sublist (List.take_sublist _ _) ?_
    have hne : ∀ x ∈ (ofHistory n history).items.erase y, y ≠ x := by
      intro x hx he
      exact (ofHistory n history).nodup.not_mem_erase (he ▸ hx)
    refine List.pairwise_cons.mpr ⟨?_,?_⟩
    · intro x hx
      rw [List.idxOf_cons_self, List.idxOf_cons_ne _ (hne x hx)]
      exact Nat.succ_pos _
    · have hsub := ih.sublist (List.erase_sublist (a := y))
      refine hsub.imp_of_mem fun {a b} ha hb hab => ?_
      rw [List.idxOf_cons_ne _ (hne a ha), List.idxOf_cons_ne _ (hne b hb)]
      exact Nat.succ_lt_succ hab

end MruList

/-- The counter of each element of the order is its position. -/
structure Ranked (recency : α → ℕ) (order : List α) : Prop where
  nodup : order.Nodup
  rank : ∀ x ∈ order, recency x = order.idxOf x

/-- The counters after a use of x: those of the valid elements below the one of x go up by
one, and x goes to zero. -/
def bump (recency : α → ℕ) (valid : α → Bool) (x : α) : α → ℕ := fun y =>
  if y = x then 0
  else if valid y && decide (recency y < recency x) then recency y + 1
  else recency y

namespace Ranked
variable {recency : α → ℕ} {order : List α} {x : α}

/-- A use of an element of the order. -/
theorem bump_mem (h : Ranked recency order) (hx : x ∈ order) {valid : α → Bool}
    (hv : ∀ y ∈ order, valid y = true) : Ranked (bump recency valid x) (toFront x order) where
  nodup := nodup_toFront h.nodup
  rank y hy := by
    rw [idxOf_toFront h.nodup hx]
    by_cases hyx : y = x
    · simp [bump, hyx]
    · have hyo : y ∈ order := (mem_toFront.mp hy).resolve_left hyx
      simp [bump, hyx, hv y hyo, h.rank y hyo, h.rank x hx]

/-- A use of a new element whose counter is above all the others. -/
theorem bump_new (h : Ranked recency order) (hx : x ∉ order) (hr : order.length ≤ recency x)
    {valid : α → Bool} (hv : ∀ y ∈ order, valid y = true) :
    Ranked (bump recency valid x) (x :: order) where
  nodup := List.nodup_cons.mpr ⟨hx,h.nodup⟩
  rank y hy := by
    by_cases hyx : y = x
    · simp [bump, hyx]
    · have hyo : y ∈ order := (List.mem_cons.mp hy).resolve_left hyx
      have hlt : recency y < recency x := by
        rw [h.rank y hyo]
        exact lt_of_lt_of_le (List.idxOf_lt_length_of_mem hyo) hr
      have hidx : (x :: order).idxOf y = order.idxOf y + 1 :=
        List.idxOf_cons_ne _ (Ne.symm hyx)
      rw [hidx, ← h.rank y hyo]
      simp [bump, hyx, hv y hyo, hlt]

/-- A new element at zero when the counters of all the others go up. -/
theorem push (h : Ranked recency order) (hx : x ∉ order) {recency' : α → ℕ}
    (hzero : recency' x = 0) (hup : ∀ y ∈ order, recency' y = recency y + 1) :
    Ranked recency' (x :: order) where
  nodup := List.nodup_cons.mpr ⟨hx,h.nodup⟩
  rank y hy := by
    rcases List.mem_cons.mp hy with rfl | hyo
    · rw [hzero, List.idxOf_cons_self]
    · have hne : x ≠ y := fun he => hx (he ▸ hyo)
      rw [hup y hyo, h.rank y hyo, List.idxOf_cons_ne _ hne]

/-- The elements but the last keep their counters. -/
theorem init {rest : List α} (h : Ranked recency (rest ++ [x])) :
    x ∉ rest ∧ Ranked recency rest := by
  have hdis := List.nodup_append.mp h.nodup
  refine ⟨fun hm => hdis.2.2 x hm x (List.mem_singleton_self x) rfl,hdis.1,fun y hy => ?_⟩
  rw [h.rank y (List.mem_append_left _ hy), List.idxOf_append_of_mem hy]

/-- The counters are the numbers below the length, each once. -/
theorem map_eq_range (h : Ranked recency order) :
    order.map recency = List.range order.length := by
  apply List.ext_getElem
  · simp
  · intro i h₁ h₂
    have hi : i < order.length := by simpa using h₁
    rw [List.getElem_map, List.getElem_range, h.rank _ (List.getElem_mem hi),
      h.nodup.idxOf_getElem]

/-- The greatest counter belongs to the last element. -/
theorem last_iff (h : Ranked recency order) (hx : x ∈ order) :
    recency x = order.length - 1 ↔ order.getLast? = some x := by
  have hlt := List.idxOf_lt_length_of_mem hx
  rw [h.rank x hx, List.getLast?_eq_getElem?]
  constructor
  · intro he
    rw [← he, List.getElem?_eq_getElem hlt, List.getElem_idxOf hlt]
  · intro he
    obtain ⟨hlt',hg⟩ := List.getElem?_eq_some_iff.mp he
    rw [← hg]
    exact h.nodup.idxOf_getElem _ hlt'

end Ranked
end CaLabs.Lib
