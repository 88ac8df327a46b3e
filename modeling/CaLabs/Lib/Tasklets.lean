import Mathlib.Algebra.BigOperators.Group.Finset.Basic
import Mathlib.Algebra.Order.BigOperators.Group.Finset
import Mathlib.Data.Nat.Notation
import Mathlib.Logic.Function.Basic

/-! Tasklets that share a memory, a barrier, a mutex and handshakes, in any order of steps. -/
namespace CaLabs.Lib

/-- What a tasklet does next, over its own places P and the shared memory M. -/
inductive Action (P M : Type*) where
  | step (f : M → P × M)
  | barrier (next : P)
  | notify (next : P)
  | waitFor (partner : ℕ) (next : P)
  | lock (next : P)
  | unlock (next : P)
  | done

/-- The place of every tasklet, the shared memory and the holder of the mutex. -/
structure Tasklets (P M : Type*) where
  pc : ℕ → P
  mem : M
  holder : Option ℕ := none

namespace Tasklets
variable {P M : Type*} (code : ℕ → P → Action P M) (n : ℕ)

/-- One step of n tasklets. The barrier releases all of them at once, a handshake takes the
notifying tasklet and the one that waits for it. -/
inductive Step : Tasklets P M → Tasklets P M → Prop
  | own {s : Tasklets P M} {i : ℕ} {f : M → P × M} (hi : i < n)
      (h : code i (s.pc i) = .step f) :
      Step s ⟨Function.update s.pc i (f s.mem).1,(f s.mem).2,s.holder⟩
  | barrier {s : Tasklets P M} {next : ℕ → P}
      (h : ∀ i < n, code i (s.pc i) = .barrier (next i)) :
      Step s ⟨fun i => if i < n then next i else s.pc i,s.mem,s.holder⟩
  | handshake {s : Tasklets P M} {i j : ℕ} {p q : P} (hi : i < n) (hj : j < n)
      (h : code i (s.pc i) = .notify p) (h' : code j (s.pc j) = .waitFor i q) :
      Step s ⟨Function.update (Function.update s.pc i p) j q,s.mem,s.holder⟩
  | lock {s : Tasklets P M} {i : ℕ} {p : P} (hi : i < n) (h : code i (s.pc i) = .lock p)
      (free : s.holder = none) : Step s ⟨Function.update s.pc i p,s.mem,some i⟩
  | unlock {s : Tasklets P M} {i : ℕ} {p : P} (hi : i < n)
      (h : code i (s.pc i) = .unlock p) (held : s.holder = some i) :
      Step s ⟨Function.update s.pc i p,s.mem,none⟩

/-- k steps lead from one state to the other. -/
def Run (s : Tasklets P M) : ℕ → Tasklets P M → Prop
  | 0,s' => s' = s
  | k+1,s' => ∃ m, Run s k m ∧ Step code n m s'

/-- All tasklets have returned. -/
def Finished (s : Tasklets P M) : Prop := ∀ i < n, code i (s.pc i) = .done

variable {code n}

/-- After a step of tasklet i, what held of the places of the others holds still. -/
lemma forall_update (own : ℕ → P → Prop) {pc : ℕ → P} {i : ℕ} {p : P}
    (h : ∀ j < n, j ≠ i → own j (pc j)) (hp : own i p) :
    ∀ j < n, own j (Function.update pc i p j) := by
  intro j hj
  by_cases hji : j = i
  · rw [hji, Function.update_self]
    exact hp
  · rw [Function.update_of_ne hji]
    exact h j hj hji

/-- What every step keeps holds in every state of a run. -/
theorem Run.invariant {I : Tasklets P M → Prop} {s : Tasklets P M} (h0 : I s)
    (hstep : ∀ a b, I a → Step code n a b → I b) {k : ℕ} {s' : Tasklets P M}
    (h : Run code n s k s') : I s' := by
  induction k generalizing s' with
  | zero => exact (show s' = s from h) ▸ h0
  | succ k ih =>
    obtain ⟨m,hm,hs⟩ := h
    exact hstep m s' (ih hm) hs

/-- The places that the tasklets can go to have a smaller rank than their own. -/
def Falls (code : ℕ → P → Action P M) (n : ℕ) (rank : P → ℕ) (s : Tasklets P M) : Prop :=
  ∀ i < n, match code i (s.pc i) with
    | .step f => rank (f s.mem).1 < rank (s.pc i)
    | .barrier p | .notify p | .waitFor _ p | .lock p | .unlock p => rank p < rank (s.pc i)
    | .done => True

def total (n : ℕ) (rank : P → ℕ) (s : Tasklets P M) : ℕ := ∑ i ∈ Finset.range n, rank (s.pc i)

lemma total_update_lt {rank : P → ℕ} {s s' : Tasklets P M} {i : ℕ} (hi : i < n)
    (h : ∀ j < n, rank (s'.pc j) ≤ rank (s.pc j)) (hlt : rank (s'.pc i) < rank (s.pc i)) :
    s'.total n rank < s.total n rank :=
  Finset.sum_lt_sum (fun j hj => h j (Finset.mem_range.mp hj)) ⟨i,Finset.mem_range.mpr hi,hlt⟩

lemma rank_update_le {rank : P → ℕ} {pc : ℕ → P} {i : ℕ} {p : P}
    (h : rank p < rank (pc i)) (j : ℕ) : rank (Function.update pc i p j) ≤ rank (pc j) := by
  by_cases hj : j = i
  · rw [hj, Function.update_self]
    exact h.le
  · rw [Function.update_of_ne hj]

lemma rank_update_lt {rank : P → ℕ} {pc : ℕ → P} {i : ℕ} {p : P} (h : rank p < rank (pc i)) :
    rank (Function.update pc i p i) < rank (pc i) := by
  rwa [Function.update_self]

/-- Every step lowers the sum of the ranks. -/
theorem Step.total_lt {rank : P → ℕ} {s s' : Tasklets P M} (h : Step code n s s') (hn : 0 < n)
    (hf : s.Falls code n rank) : s'.total n rank < s.total n rank := by
  cases h with
  | @own i f hi hc =>
    have hlt := hf i hi
    rw [hc] at hlt
    exact total_update_lt hi (fun j _ => rank_update_le hlt j) (rank_update_lt hlt)
  | @barrier next hc =>
    have hlt : ∀ j < n, rank (next j) < rank (s.pc j) := fun j hj => by
      have h := hf j hj
      rwa [hc j hj] at h
    refine total_update_lt hn (fun j hj => ?_) ?_
    · change rank (if j < n then next j else s.pc j) ≤ _
      rw [if_pos hj]
      exact (hlt j hj).le
    · change rank (if 0 < n then next 0 else s.pc 0) < _
      rw [if_pos hn]
      exact hlt 0 hn
  | @handshake i j p q hi hj hc hc' =>
    have hp := hf i hi
    have hq := hf j hj
    rw [hc] at hp
    rw [hc'] at hq
    have hne : j ≠ i := fun he => by
      rw [he, hc] at hc'
      cases hc'
    have hq' : rank q < rank (Function.update s.pc i p j) := by rwa [Function.update_of_ne hne]
    refine total_update_lt hj
      (fun l _ => (rank_update_le hq' l).trans (rank_update_le hp l)) ?_
    exact lt_of_lt_of_le (rank_update_lt hq') (rank_update_le hp j)
  | @lock i p hi hc _ =>
    have hlt := hf i hi
    rw [hc] at hlt
    exact total_update_lt hi (fun j _ => rank_update_le hlt j) (rank_update_lt hlt)
  | @unlock i p hi hc _ =>
    have hlt := hf i hi
    rw [hc] at hlt
    exact total_update_lt hi (fun j _ => rank_update_le hlt j) (rank_update_lt hlt)

/-- A run along which the ranks fall is no longer than the sum of the ranks at its start. -/
theorem Run.length_le {I : Tasklets P M → Prop} {rank : P → ℕ} {s : Tasklets P M} (hn : 0 < n)
    (h0 : I s) (hstep : ∀ a b, I a → Step code n a b → I b)
    (hfall : ∀ a, I a → a.Falls code n rank) {k : ℕ} {s' : Tasklets P M}
    (h : Run code n s k s') : k + s'.total n rank ≤ s.total n rank := by
  induction k generalizing s' with
  | zero =>
    obtain rfl : s' = s := h
    rw [Nat.zero_add]
  | succ k ih =>
    obtain ⟨m,hm,hs⟩ := h
    have hlt := hs.total_lt hn (hfall m (hm.invariant h0 hstep))
    have hle := ih hm
    omega

lemma Run.cons {s s' s'' : Tasklets P M} (hs : Step code n s s') {k : ℕ} (h : Run code n s' k s'') :
    Run code n s (k + 1) s'' := by
  induction k generalizing s'' with
  | zero =>
    obtain rfl : s'' = s' := h
    exact ⟨s,rfl,hs⟩
  | succ k ih =>
    obtain ⟨m,hm,hlast⟩ := h
    exact ⟨m,ih hm,hlast⟩

/-- When the ranks fall and no state is stuck, a run ends with all tasklets returned. -/
theorem exists_finished {I : Tasklets P M → Prop} {rank : P → ℕ} (hn : 0 < n)
    (hstep : ∀ a b, I a → Step code n a b → I b) (hfall : ∀ a, I a → a.Falls code n rank)
    (hgoes : ∀ a, I a → a.Finished code n ∨ ∃ b, Step code n a b) (t : ℕ) {s : Tasklets P M}
    (hs : I s) (ht : s.total n rank = t) : ∃ k s', Run code n s k s' ∧ s'.Finished code n := by
  induction t using Nat.strong_induction_on generalizing s with
  | _ t ih =>
    obtain hfin | ⟨b,hb⟩ := hgoes s hs
    · exact ⟨0,s,rfl,hfin⟩
    · have hlt := hb.total_lt hn (hfall s hs)
      obtain ⟨k,s',hrun,hfin⟩ := ih _ (ht ▸ hlt) (hstep s b hs hb) rfl
      exact ⟨k+1,s',hrun.cons hb,hfin⟩

/-- All tasklets have passed the barrier equally often, by a count of its passes at each place. -/
def SameEpoch (n : ℕ) (epoch : P → ℕ) (s : Tasklets P M) : Prop :=
  ∀ i < n, ∀ j < n, epoch (s.pc i) = epoch (s.pc j)

/-- A step of one tasklet that stays in its epoch. -/
lemma SameEpoch.update {epoch : P → ℕ} {s : Tasklets P M} (h : s.SameEpoch n epoch) {i : ℕ} {p : P}
    {mem : M} {holder : Option ℕ} (he : epoch p = epoch (s.pc i)) :
    SameEpoch n epoch ⟨Function.update s.pc i p,mem,holder⟩ := by
  have hsame : ∀ j, epoch (Function.update s.pc i p j) = epoch (s.pc j) := by
    intro j
    by_cases hj : j = i
    · rw [hj, Function.update_self, he]
    · rw [Function.update_of_ne hj]
  intro j hj l hl
  rw [hsame, hsame]
  exact h j hj l hl

/-- The barrier begins the next epoch. -/
lemma SameEpoch.barrier {epoch : P → ℕ} {s : Tasklets P M} (h : s.SameEpoch n epoch)
    {next : ℕ → P} (he : ∀ i < n, epoch (next i) = epoch (s.pc i) + 1) {mem : M}
    {holder : Option ℕ} :
    SameEpoch n epoch ⟨fun i => if i < n then next i else s.pc i,mem,holder⟩ := by
  intro i hi j hj
  simp only [if_pos hi, if_pos hj, he i hi, he j hj, h i hi j hj]

end Tasklets
end CaLabs.Lib
