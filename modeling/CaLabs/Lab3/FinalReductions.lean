import CaLabs.Lab3.BarrierReductions
import CaLabs.Lab3.HandshakeReduction
import CaLabs.Lab3.MutexReduction
import Mathlib.Data.BitVec

/-! All four final reductions return the sum in tasklet 0, under every schedule. -/
namespace CaLabs.Lab3
open Lib
section
variable {T : Type*} [AddCommMonoid T] {n : ℕ} {x : ℕ → T} {s s' : Kernel T}

/-- The invariant of each strategy. -/
def Strategy.Invariant (n : ℕ) (x : ℕ → T) : Strategy → Kernel T → Prop
  | .single => Single.Invariant n x
  | .treeBarrier => TreeBarrier.Invariant n x
  | .treeHandshake => TreeHandshake.Invariant n x
  | .mutex => Mutex.Invariant n x

lemma Strategy.invariant_launch (strategy : Strategy) (m : Wram T) :
    strategy.Invariant n x (launch m) := by
  cases strategy with
  | single => exact Single.invariant_launch m
  | treeBarrier => exact TreeBarrier.invariant_launch m
  | treeHandshake => exact TreeHandshake.invariant_launch m
  | mutex => exact Mutex.invariant_launch m

lemma Strategy.invariant_step (strategy : Strategy) (hn : 0 < n) (a b : Kernel T)
    (h : strategy.Invariant n x a) (hs : Tasklets.Step (code strategy n x) n a b) :
    strategy.Invariant n x b := by
  cases strategy with
  | single => exact Single.Invariant.step h hs
  | treeBarrier => exact TreeBarrier.Invariant.step h hs
  | treeHandshake => exact TreeHandshake.Invariant.step h hs
  | mutex => exact Mutex.Invariant.step h hn hs

lemma Strategy.Invariant.reduces {strategy : Strategy} (h : strategy.Invariant n x s) (hn : 0 < n) :
    Reduces strategy n x s := by
  cases strategy with
  | single => exact Single.Invariant.reduces hn h
  | treeBarrier => exact TreeBarrier.Invariant.reduces hn h
  | treeHandshake => exact TreeHandshake.Invariant.reduces hn h
  | mutex => exact Mutex.Invariant.reduces hn h

lemma Strategy.Invariant.falls {strategy : Strategy} (h : strategy.Invariant n x s) :
    s.Falls (code strategy n x) n (rank n) := by
  refine falls_of_level fun i hi => ?_
  cases strategy with
  | single => exact (Single.Invariant.own h i hi).level
  | treeBarrier => exact (TreeBarrier.Invariant.own h i hi).level
  | treeHandshake => exact (TreeHandshake.Invariant.own h i hi).level
  | mutex => exact (Mutex.Invariant.own h i hi).level

/-- In every state of a run the reduction is correct and goes on until all tasklets return. -/
theorem reduces_of_run (strategy : Strategy) (hn : 0 < n) {m : Wram T} {k : ℕ}
    (h : Tasklets.Run (code strategy n x) n (launch m) k s) : Reduces strategy n x s :=
  (h.invariant (strategy.invariant_launch m) (strategy.invariant_step hn)).reduces hn

/-- Every run ends. -/
theorem run_length_le (strategy : Strategy) (hn : 0 < n) {m : Wram T} {k : ℕ}
    (h : Tasklets.Run (code strategy n x) n (launch m) k s) : k ≤ n * (6 * n + 12) := by
  have hle := h.length_le hn (strategy.invariant_launch m) (strategy.invariant_step hn)
    fun a ha => Strategy.Invariant.falls ha
  have hstart : (launch m : Kernel T).total n (rank n) = n * (6 * n + 12) := by
    exact (Finset.sum_const_nat fun _ _ => rfl).trans (by rw [Finset.card_range])
  omega

/-- A run in which tasklet 0 returns r. -/
def Returns (strategy : Strategy) (n : ℕ) (x : ℕ → T) (r : T) : Prop :=
  ∃ m k s, Tasklets.Run (code strategy n x) n (launch m) k s ∧ s.pc 0 = .done r

lemma Returns.eq_sum {strategy : Strategy} {r : T} (h : Returns strategy n x r) (hn : 0 < n) :
    r = ∑ j ∈ Finset.range n, x j := by
  obtain ⟨m,k,s,hrun,hr⟩ := h
  exact (reduces_of_run strategy hn hrun).result r hr

/-- Tasklet 0 of a run that has ended has returned the sum. -/
lemma done_of_finished (strategy : Strategy) (hn : 0 < n) {m : Wram T} {k : ℕ}
    (h : Tasklets.Run (code strategy n x) n (launch m) k s)
    (hfin : s.Finished (code strategy n x) n) :
    s.pc 0 = .done (∑ j ∈ Finset.range n, x j) := by
  have hdone := hfin 0 hn
  have hresult := (reduces_of_run strategy hn h).result
  cases hpc : s.pc 0 with
  | done r => rw [hresult r hpc]
  | gather =>
    rw [hpc] at hdone
    simp only [code] at hdone
    split_ifs at hdone
  | _ =>
    rw [hpc] at hdone
    cases hdone

/-- Some schedule ends the run. -/
lemma exists_run_finished (strategy : Strategy) (hn : 0 < n) (x : ℕ → T) (m : Wram T) :
    ∃ k s, Tasklets.Run (code strategy n x) n (launch m) k s ∧
      s.Finished (code strategy n x) n :=
  Tasklets.exists_finished (I := strategy.Invariant n x) hn
    (strategy.invariant_step hn) (fun _ ha => Strategy.Invariant.falls ha)
    (fun _ ha => (Strategy.Invariant.reduces ha hn).goes) _ (strategy.invariant_launch m) rfl

lemma returns_sum (strategy : Strategy) (hn : 0 < n) (x : ℕ → T) :
    Returns strategy n x (∑ j ∈ Finset.range n, x j) := by
  obtain ⟨k,s,hrun,hfin⟩ := exists_run_finished strategy hn x ⟨x,0⟩
  exact ⟨_,k,s,hrun,done_of_finished strategy hn hrun hfin⟩

end

/-- For every number of tasklets, width, contents of the partial sums and of the memory at the
launch, and every schedule: the reduction is correct and not stuck, it ends, and when it has
ended tasklet 0 has returned the sum. -/
theorem final_reductions_agree (strategy : Strategy) {w n : ℕ} (hn : 1 ≤ n) (x : ℕ → BitVec w)
    (m : Wram (BitVec w)) {k : ℕ} {s : Kernel (BitVec w)}
    (h : Tasklets.Run (code strategy n x) n (launch m) k s) :
    Reduces strategy n x s ∧ k ≤ n * (6 * n + 12) ∧
      (s.Finished (code strategy n x) n → s.pc 0 = .done (∑ j ∈ Finset.range n, x j)) :=
  ⟨reduces_of_run strategy hn h,run_length_le strategy hn h,done_of_finished strategy hn h⟩

/-- Three tasklets with the partial sums 1, 2 and 3, from the launch to the end. -/
theorem final_reductions_agree_three : ∃ k, ∃ s : Kernel (BitVec 32),
    Tasklets.Run (code .treeHandshake 3 fun i => BitVec.ofNat 32 (i + 1)) 3
      (launch ⟨fun _ => 7,7⟩) k s ∧
    s.Finished (code .treeHandshake 3 fun i => BitVec.ofNat 32 (i + 1)) 3 ∧
    s.pc 0 = .done 6 ∧ k ≤ 90 := by
  obtain ⟨k,s,hrun,hfin⟩ := exists_run_finished .treeHandshake (show 0 < 3 by decide)
    (fun i => BitVec.ofNat 32 (i + 1)) ⟨fun _ => 7,7⟩
  obtain ⟨-,hk,hdone⟩ := final_reductions_agree .treeHandshake (show 1 ≤ 3 by decide)
    (fun i => BitVec.ofNat 32 (i + 1)) ⟨fun _ => 7,7⟩ hrun
  refine ⟨k,s,hrun,hfin,(hdone hfin).trans ?_,hk⟩
  rw [show ∑ j ∈ Finset.range 3, BitVec.ofNat 32 (j + 1) = 6 by decide]

end CaLabs.Lab3
