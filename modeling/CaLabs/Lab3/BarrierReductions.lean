import CaLabs.Lab3.Reduction

/-! The reductions that only the barrier orders: FINAL_SINGLE and FINAL_TREE_BARRIER. -/
namespace CaLabs.Lab3
open Lib
section
variable {T : Type*} [AddCommMonoid T] {n : ℕ} {x : ℕ → T} {s s' : Kernel T}

namespace Single

/-- The barriers that a tasklet has passed. -/
def epoch : Pc T → ℕ
  | .reset | .start => 0
  | .compute | .sync => 1
  | .gather => 2
  | _ => 3

/-- Once a tasklet has written its partial sum, it stays. -/
def Own (n : ℕ) (x : ℕ → T) (i : ℕ) (partialSum : T) : Pc T → Prop
  | .reset | .start | .compute => True
  | .sync | .gather => partialSum = x i
  | .sum j acc => partialSum = x i ∧ i = 0 ∧ j ≤ n ∧ acc = ∑ l ∈ Finset.range j, x l
  | .done r => partialSum = x i ∧ (i = 0 → r = ∑ l ∈ Finset.range n, x l)
  | _ => False

structure Invariant (n : ℕ) (x : ℕ → T) (s : Kernel T) : Prop where
  same : s.SameEpoch n epoch
  own : Each (Own n x) n s

/-- After the second barrier a partial sum is written. -/
lemma Own.written {i : ℕ} {v : T} {p : Pc T} (h : Own n x i v p) (he : 2 ≤ epoch p) : v = x i := by
  cases p with
  | gather => exact h
  | sum j acc => exact h.1
  | done r => exact h.1
  | reset | start | compute | sync => simp [epoch] at he
  | _ => exact h.elim

lemma Own.keeps {i : ℕ} {p : Pc T} {m : Wram T} (h : Own n x i (m.partials i) p)
    (written : 2 ≤ epoch p → ∀ j < n, m.partials j = x j) :
    Keeps epoch (Own n x) i m p (code .single n x i p) := by
  cases p with
  | reset => simp [Keeps, code, epoch, Own]
  | start => exact ⟨rfl,trivial⟩
  | compute => exact ⟨rfl,fun j hj => Function.update_of_ne hj _ _,Function.update_self ..⟩
  | sync => exact ⟨rfl,h⟩
  | gather =>
    by_cases hi : i = 0
    · simp only [Keeps, code, if_true, if_pos hi]
      exact ⟨rfl,h,hi,Nat.zero_le n,(Finset.sum_range_zero x).symm⟩
    · simp only [Keeps, code, if_true, if_neg hi]
      exact ⟨rfl,h,fun h0 => absurd h0 hi⟩
  | sum j acc =>
    obtain ⟨hv,hi,hj,hacc⟩ := h
    by_cases hjn : j < n
    · simp only [Keeps, code, if_pos hjn]
      refine ⟨rfl,fun _ _ => trivial,hv,hi,hjn,?_⟩
      rw [hacc, written le_add_self j hjn, Finset.sum_range_succ]
    · simp only [Keeps, code, if_neg hjn]
      refine ⟨rfl,fun _ _ => trivial,hv,fun _ => ?_⟩
      rw [hacc, show j = n by omega]
  | done r => trivial
  | _ => exact h.elim

lemma Invariant.written (h : Invariant n x s) {i : ℕ} (hi : i < n) (he : 2 ≤ epoch (s.pc i)) :
    ∀ j < n, s.mem.partials j = x j := fun j hj =>
  (h.own j hj).written (h.same i hi j hj ▸ he)

theorem Invariant.step (h : Invariant n x s) (hs : Tasklets.Step (code .single n x) n s s') :
    Invariant n x s' := by
  obtain ⟨same,own⟩ := keeps_step h.same h.own
    (fun i hi => (h.own i hi).keeps (h.written hi)) hs
  exact ⟨same,own⟩

lemma invariant_launch (m : Wram T) : Invariant n x (launch m) :=
  ⟨fun _ _ _ _ => rfl,fun _ _ => trivial⟩

/-- Where a tasklet does not go on by itself, it waits at a barrier or has returned. -/
lemma Own.waits {i : ℕ} {p : Pc T} {v : T} (h : Own n x i v p) :
    (∃ f, code .single n x i p = .step f) ∨
      (∃ q, code .single n x i p = .barrier q) ∧ epoch p < 3 ∨
      code .single n x i p = .done ∧ epoch p = 3 := by
  cases p with
  | reset | compute | sum j acc => exact .inl ⟨_,rfl⟩
  | start | sync | gather => exact .inr (.inl ⟨⟨_,rfl⟩,by simp [epoch]⟩)
  | done r => exact .inr (.inr ⟨rfl,rfl⟩)
  | _ => exact h.elim

lemma Own.level {i : ℕ} {p : Pc T} {v : T} (h : Own n x i v p) : p.Level n := by
  cases p with
  | wait k | load k | store k w | syncLevel k => exact h.elim
  | _ => trivial

theorem Invariant.reduces (hn : 0 < n) (h : Invariant n x s) : Reduces .single n x s where
  result r hr := by
    have h0 := h.own 0 hn
    rw [hr] at h0
    exact h0.2 rfl
  reads i hi := by
    have hown := h.own i hi
    cases hpc : s.pc i with
    | sum j acc => exact h.written hi (by rw [hpc]; exact le_add_self) j
    | load k | add | ret =>
      rw [hpc] at hown
      exact hown.elim
    | _ => trivial
  goes := goes_of_waits h.same fun i hi => (h.own i hi).waits

end Single

namespace TreeBarrier

/-- The barriers that a tasklet has passed: after the first two, one for each level. -/
def epoch (n : ℕ) : Pc T → ℕ
  | .reset | .start => 0
  | .compute | .gather => 1
  | .level k | .load k | .store k _ | .syncLevel k => k + 2
  | _ => Nat.clog 2 n + 2

/-- At level k the multiples of 2^k stand for their blocks. -/
def Own (n : ℕ) (x : ℕ → T) (i : ℕ) (partialSum : T) : Pc T → Prop
  | .reset | .start | .compute => True
  | .gather => partialSum = x i
  | .level k => k ≤ Nat.clog 2 n ∧ (i % 2 ^ k = 0 → partialSum = block n x k i)
  | .load k => 2 ^ k < n ∧ i % 2 ^ (k + 1) = 0 ∧ i + 2 ^ k < n ∧ partialSum = block n x k i
  | .store k value => 2 ^ k < n ∧ i % 2 ^ (k + 1) = 0 ∧ value = block n x (k + 1) i
  | .syncLevel k => 2 ^ k < n ∧ (i % 2 ^ (k + 1) = 0 → partialSum = block n x (k + 1) i) ∧
      (i % 2 ^ k = 0 → i % 2 ^ (k + 1) ≠ 0 → partialSum = block n x k i)
  | .ret => i = 0 → partialSum = ∑ l ∈ Finset.range n, x l
  | .done r => i = 0 → r = ∑ l ∈ Finset.range n, x l
  | _ => False

structure Invariant (n : ℕ) (x : ℕ → T) (s : Kernel T) : Prop where
  same : s.SameEpoch n (epoch n)
  own : Each (Own n x) n s

lemma lt_clog {k : ℕ} : k < Nat.clog 2 n ↔ 2 ^ k < n := Nat.lt_clog_iff_pow_lt (by decide)

/-- The partner of a merge is at the same level, where it does not merge itself. -/
lemma Own.partner {i k : ℕ} {v : T} {p : Pc T} (h : Own n x i v p) (he : epoch n p = k + 2)
    (hk : 2 ^ k < n) (hi : i % 2 ^ k = 0) (hi' : i % 2 ^ (k + 1) ≠ 0) : v = block n x k i := by
  have hlt := lt_clog.mpr hk
  cases p with
  | level l =>
    obtain rfl : l = k := by simpa [epoch] using he
    exact h.2 hi
  | load l | store l w =>
    obtain rfl : l = k := by simpa [epoch] using he
    exact absurd h.2.1 hi'
  | syncLevel l =>
    obtain rfl : l = k := by simpa [epoch] using he
    exact h.2.2 hi hi'
  | reset | start | compute | gather =>
    simp only [epoch] at he
    omega
  | ret | done r =>
    simp only [epoch] at he
    omega
  | _ => exact h.elim

lemma Own.keeps {i : ℕ} {p : Pc T} {m : Wram T} (hi : i < n) (h : Own n x i (m.partials i) p)
    (partner : ∀ k, p = .load k → m.partials (i + 2 ^ k) = block n x k (i + 2 ^ k)) :
    Keeps (epoch n) (Own n x) i m p (code .treeBarrier n x i p) := by
  cases p with
  | reset => simp [Keeps, code, epoch, Own]
  | start => exact ⟨rfl,trivial⟩
  | compute => exact ⟨rfl,fun j hj => Function.update_of_ne hj _ _,Function.update_self ..⟩
  | gather => exact ⟨rfl,Nat.zero_le _,fun _ => h.trans (block_zero x hi).symm⟩
  | level k =>
    obtain ⟨hk,hv⟩ := h
    refine ⟨?_,fun _ _ => rfl,?_⟩
    all_goals simp only [levelStep, reduceCtorEq, if_false]
    all_goals split_ifs with hkn hmod hpartner
    · rfl
    · rfl
    · rfl
    · have hclog := lt_clog.not.mpr hkn
      simp only [epoch]
      omega
    · exact ⟨hkn,hmod,hpartner,hv (mod_of_mod_succ hmod)⟩
    · refine ⟨hkn,fun _ => ?_,fun _ hne => absurd hmod hne⟩
      rw [hv (mod_of_mod_succ hmod), block_succ_of_le x hpartner]
    · exact ⟨hkn,fun h0 => absurd h0 hmod,fun h0 _ => hv h0⟩
    · intro h0
      rw [hv (by rw [h0, Nat.zero_mod]), h0, block_root x hkn]
  | load k =>
    obtain ⟨hk,hmod,hpartner,hv⟩ := h
    refine ⟨rfl,fun _ _ => rfl,hk,hmod,?_⟩
    rw [hv, partner k rfl, block_add x hpartner]
  | store k value =>
    obtain ⟨hk,hmod,hv⟩ := h
    refine ⟨rfl,fun j hj => Function.update_of_ne hj _ _,hk,fun _ => ?_,
      fun _ hne => absurd hmod hne⟩
    exact (Function.update_self ..).trans hv
  | syncLevel k =>
    obtain ⟨hk,hv,-⟩ := h
    exact ⟨Nat.add_right_comm k 1 2,lt_clog.mpr hk,hv⟩
  | ret => exact ⟨rfl,fun _ _ => rfl,h⟩
  | done r => trivial
  | _ => exact h.elim

lemma Invariant.partner (h : Invariant n x s) {i k : ℕ} (hi : i < n) (hpc : s.pc i = .load k) :
    s.mem.partials (i + 2 ^ k) = block n x k (i + 2 ^ k) := by
  have hown := h.own i hi
  rw [hpc] at hown
  obtain ⟨hk,hmod,hpartner,-⟩ := hown
  obtain ⟨hmod',hne⟩ := partner_mod hmod
  refine (h.own _ hpartner).partner ?_ hk hmod' hne
  rw [h.same _ hpartner i hi, hpc]
  rfl

theorem Invariant.step (h : Invariant n x s) (hs : Tasklets.Step (code .treeBarrier n x) n s s') :
    Invariant n x s' := by
  obtain ⟨same,own⟩ := keeps_step h.same h.own
    (fun i hi => (h.own i hi).keeps hi fun k => h.partner hi) hs
  exact ⟨same,own⟩

lemma invariant_launch (m : Wram T) : Invariant n x (launch m) :=
  ⟨fun _ _ _ _ => rfl,fun _ _ => trivial⟩

lemma Own.waits {i : ℕ} {p : Pc T} {v : T} (h : Own n x i v p) :
    (∃ f, code .treeBarrier n x i p = .step f) ∨
      (∃ q, code .treeBarrier n x i p = .barrier q) ∧ epoch n p < Nat.clog 2 n + 2 ∨
      code .treeBarrier n x i p = .done ∧ epoch n p = Nat.clog 2 n + 2 := by
  cases p with
  | reset | compute | level k | load k | store k w | ret => exact .inl ⟨_,rfl⟩
  | start | gather => exact .inr (.inl ⟨⟨_,rfl⟩,by simp [epoch]⟩)
  | syncLevel k =>
    have hk := lt_clog.mpr h.1
    exact .inr (.inl ⟨⟨_,rfl⟩,by simp only [epoch]; omega⟩)
  | done r => exact .inr (.inr ⟨rfl,rfl⟩)
  | _ => exact h.elim

lemma Own.level {i : ℕ} {p : Pc T} {v : T} (h : Own n x i v p) : p.Level n := by
  cases p with
  | load k | store k w | syncLevel k => exact h.1
  | wait k => exact h.elim
  | _ => trivial

theorem Invariant.reduces (hn : 0 < n) (h : Invariant n x s) : Reduces .treeBarrier n x s where
  result r hr := by
    have h0 := h.own 0 hn
    rw [hr] at h0
    exact h0 rfl
  reads i hi := by
    have hown := h.own i hi
    cases hpc : s.pc i with
    | load k =>
      rw [hpc] at hown
      exact ⟨hown.2.2.2,h.partner hi hpc⟩
    | ret =>
      rw [hpc] at hown
      intro h0
      rw [h0] at hown
      exact hown rfl
    | sum j acc | add =>
      rw [hpc] at hown
      exact hown.elim
    | _ => trivial
  goes := goes_of_waits h.same fun i hi => (h.own i hi).waits

end TreeBarrier
end
end CaLabs.Lab3
