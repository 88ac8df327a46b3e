import CaLabs.Lib.Tasklets
import Mathlib.Algebra.BigOperators.Intervals
import Mathlib.Data.BitVec
import Mathlib.Data.Nat.Log

/-! The final reductions of task 4 of lab 3: what each tasklet of a DPU does from the start of
the kernel to its return. -/
namespace CaLabs.Lab3
open Lib

/-- The macros FINAL_SINGLE, FINAL_TREE_BARRIER, FINAL_TREE_HANDSHAKE and FINAL_MUTEX. -/
inductive Strategy where
  | single | treeBarrier | treeHandshake | mutex
  deriving DecidableEq, Repr

/-- The places of a tasklet: main_kernel1 up to its first barrier and its loop over the blocks,
then the steps of the final reductions. A level k of the trees has the stride 2^k; the merge of a
level and the addition to mutex_accum are a read and a write. -/
inductive Pc (T : Type*) where
  | reset | start | compute
  | sync | gather | sum (i : ℕ) (acc : T)
  | level (k : ℕ) | wait (k : ℕ) | load (k : ℕ) | store (k : ℕ) (value : T) | syncLevel (k : ℕ)
  | notify
  | lock | add | put (value : T) | unlock | syncAccum
  | ret | done (result : T)
  deriving DecidableEq, Repr

/-- tasklet_partials and mutex_accum. -/
structure Wram (T : Type*) where
  partials : ℕ → T
  mutexAccum : T

section
variable {T : Type*}

abbrev Kernel (T : Type*) := Tasklets (Pc T) (Wram T)

/-- The launch of the kernel, on any contents of the memory. -/
def launch (m : Wram T) : Kernel T where
  pc := fun _ => .reset
  mem := m

/-- A fact about the place of each tasklet and about its own partial sum. -/
def Each (own : ℕ → T → Pc T → Prop) (n : ℕ) (s : Kernel T) : Prop :=
  ∀ i < n, own i (s.mem.partials i) (s.pc i)

lemma Each.update {own : ℕ → T → Pc T → Prop} {n : ℕ} {s : Kernel T} (h : Each own n s) {i : ℕ}
    {p : Pc T} {m : Wram T} {holder : Option ℕ}
    (frame : ∀ j, j ≠ i → m.partials j = s.mem.partials j) (hp : own i (m.partials i) p) :
    Each own n ⟨Function.update s.pc i p,m,holder⟩ := by
  refine Tasklets.forall_update (fun j q => own j (m.partials j) q) (fun j hj hji => ?_) hp
  rw [frame j hji]
  exact h j hj

lemma Each.barrier {own : ℕ → T → Pc T → Prop} {n : ℕ} {s : Kernel T} {next : ℕ → Pc T}
    {holder : Option ℕ} (h : ∀ i < n, own i (s.mem.partials i) (next i)) :
    Each own n ⟨fun i => if i < n then next i else s.pc i,s.mem,holder⟩ := by
  intro i hi
  change own i (s.mem.partials i) (if i < n then next i else s.pc i)
  rw [if_pos hi]
  exact h i hi

variable [AddCommMonoid T]

/-- Where the kernel goes from its loop. -/
def Strategy.enter : Strategy → Pc T
  | .single => .sync
  | .treeBarrier => .gather
  | .treeHandshake => .level 0
  | .mutex => .lock

/-- The head of a loop over the levels. NR_TASKLETS is far below the range of the unsigned
stride. -/
def levelStep (strategy : Strategy) (n i k : ℕ) : Pc T :=
  if 2 ^ k < n then
    if i % 2 ^ (k + 1) = 0 then
      if i + 2 ^ k < n then (if strategy = .treeHandshake then .wait k else .load k)
      else if strategy = .treeHandshake then .level (k + 1) else .syncLevel k
    else if strategy = .treeHandshake then .notify else .syncLevel k
  else .ret

/-- Tasklet i of n, with the sum x i of its own blocks. -/
def code (strategy : Strategy) (n : ℕ) (x : ℕ → T) (i : ℕ) : Pc T → Action (Pc T) (Wram T)
  | .reset => .step fun m =>
      (.start,if i = 0 ∧ strategy = .mutex then { m with mutexAccum := 0 } else m)
  | .start => .barrier .compute
  | .compute => .step fun m =>
      (strategy.enter,{ m with partials := Function.update m.partials i (x i) })
  | .sync => .barrier .gather
  | .gather => .barrier (if strategy = .single then if i = 0 then .sum 0 0 else .done 0
      else .level 0)
  | .sum j acc => .step fun m =>
      (if j < n then .sum (j + 1) (acc + m.partials j) else .done acc,m)
  | .level k => .step fun m => (levelStep strategy n i k,m)
  | .wait k => .waitFor (i + 2 ^ k) (.load k)
  | .load k => .step fun m => (.store k (m.partials i + m.partials (i + 2 ^ k)),m)
  | .store k value => .step fun m =>
      (if strategy = .treeHandshake then .level (k + 1) else .syncLevel k,
        { m with partials := Function.update m.partials i value })
  | .syncLevel k => .barrier (.level (k + 1))
  | .notify => .notify .ret
  | .lock => .lock .add
  | .add => .step fun m => (.put (m.mutexAccum + m.partials i),m)
  | .put value => .step fun m => (.unlock,{ m with mutexAccum := value })
  | .unlock => .unlock .syncAccum
  | .syncAccum => .barrier .ret
  | .ret => .step fun m =>
      (.done (if strategy = .mutex then m.mutexAccum else m.partials i),m)
  | .done _ => .done

/-- The sum of the tasklets that tasklet i stands for at level k. -/
def block (n : ℕ) (x : ℕ → T) (k i : ℕ) : T := ∑ j ∈ Finset.Ico i (min (i + 2 ^ k) n), x j

lemma block_zero {n : ℕ} (x : ℕ → T) {i : ℕ} (hi : i < n) : block n x 0 i = x i := by
  have hmin : min (i + 2 ^ 0) n = i + 1 := by
    rw [pow_zero]
    omega
  rw [block, hmin, Nat.Ico_succ_singleton, Finset.sum_singleton]

/-- A merge. -/
lemma block_add {n : ℕ} (x : ℕ → T) {k i : ℕ} (h : i + 2 ^ k < n) :
    block n x k i + block n x k (i + 2 ^ k) = block n x (k + 1) i := by
  have hmin : min (i + 2 ^ k) n = i + 2 ^ k := by omega
  have hpow : i + 2 ^ (k + 1) = i + 2 ^ k + 2 ^ k := by
    rw [pow_succ]
    omega
  rw [block, block, block, hmin, hpow,
    Finset.sum_Ico_consecutive x (Nat.le_add_right _ _) (le_min (Nat.le_add_right _ _) h.le)]

/-- Without a partner a block is complete. -/
lemma block_succ_of_le {n : ℕ} (x : ℕ → T) {k i : ℕ} (h : ¬ i + 2 ^ k < n) :
    block n x (k + 1) i = block n x k i := by
  have hpow : 2 ^ k ≤ 2 ^ (k + 1) := Nat.pow_le_pow_right (by decide) (Nat.le_succ k)
  rw [block, block, min_eq_right (by omega), min_eq_right (by omega)]

lemma block_root {n : ℕ} (x : ℕ → T) {k : ℕ} (h : ¬ 2 ^ k < n) :
    block n x k 0 = ∑ j ∈ Finset.range n, x j := by
  rw [block, min_eq_right (by omega), Finset.range_eq_Ico]

lemma mod_of_mod_succ {i k : ℕ} (h : i % 2 ^ (k + 1) = 0) : i % 2 ^ k = 0 :=
  Nat.mod_eq_zero_of_dvd ((pow_dvd_pow 2 k.le_succ).trans (Nat.dvd_of_mod_eq_zero h))

/-- The partner of a merge is a multiple of 2^k, but not of the next power. -/
lemma partner_mod {i k : ℕ} (h : i % 2 ^ (k + 1) = 0) :
    (i + 2 ^ k) % 2 ^ k = 0 ∧ (i + 2 ^ k) % 2 ^ (k + 1) ≠ 0 := by
  have hlt : 2 ^ k < 2 ^ (k + 1) := Nat.pow_lt_pow_right (by decide) k.lt_succ_self
  refine ⟨?_,?_⟩
  · rw [Nat.add_mod_right, mod_of_mod_succ h]
  · rw [Nat.add_mod, h, Nat.zero_add, Nat.mod_mod, Nat.mod_eq_of_lt hlt]
    exact (Nat.two_pow_pos k).ne'

/-- Every step lowers the rank of the tasklets that take it, as long as the levels end. -/
def rank (n : ℕ) : Pc T → ℕ
  | .reset => 6 * n + 12
  | .start => 6 * n + 11
  | .compute => 6 * n + 10
  | .sync => 6 * n + 9
  | .gather => 6 * n + 8
  | .sum j _ => n - j + 1
  | .level k => 6 * (n - k) + 7
  | .wait k => 6 * (n - k) + 6
  | .load k => 6 * (n - k) + 5
  | .store k _ => 6 * (n - k) + 4
  | .syncLevel k => 6 * (n - k) + 3
  | .notify => 2
  | .lock => 6
  | .add => 5
  | .put _ => 4
  | .unlock => 3
  | .syncAccum => 2
  | .ret => 1
  | .done _ => 0

/-- A level that the loop enters. -/
def Pc.Level (n : ℕ) : Pc T → Prop
  | .wait k | .load k | .store k _ | .syncLevel k => 2 ^ k < n
  | _ => True

lemma lt_of_pow_lt {k n : ℕ} (h : 2 ^ k < n) : k < n := k.lt_two_pow_self.trans h

/-- The levels end. -/
lemma falls_of_level {strategy : Strategy} {n : ℕ} {x : ℕ → T} {s : Kernel T}
    (h : ∀ i < n, (s.pc i).Level n) : s.Falls (code strategy n x) n (rank n) := by
  intro i hi
  have hl := h i hi
  cases hpc : s.pc i with
  | reset => simp only [code, rank]; omega
  | start => simp only [code, rank]; omega
  | compute => cases strategy <;> simp only [code, rank, Strategy.enter] <;> omega
  | sync => simp only [code, rank]; omega
  | gather =>
    simp only [code]
    split_ifs <;> simp only [rank] <;> omega
  | sum j acc =>
    simp only [code]
    split_ifs <;> simp only [rank] <;> omega
  | level k =>
    simp only [code, levelStep]
    split_ifs with hk
    all_goals simp only [rank]
    all_goals try have hkn := lt_of_pow_lt hk
    all_goals omega
  | wait k => simp only [code, rank]; omega
  | load k => simp only [code, rank]; omega
  | store k v =>
    rw [hpc] at hl
    have hkn := lt_of_pow_lt hl
    simp only [code]
    split_ifs <;> simp only [rank] <;> omega
  | syncLevel k =>
    rw [hpc] at hl
    have hkn := lt_of_pow_lt hl
    simp only [code, rank]
    omega
  | notify => simp only [code, rank]; omega
  | lock => simp only [code, rank]; omega
  | add => simp only [code, rank]; omega
  | put v => simp only [code, rank]; omega
  | unlock => simp only [code, rank]; omega
  | syncAccum => simp only [code, rank]; omega
  | ret => simp only [code, rank]; omega
  | done r => simp only [code]

/-- The partial sums that a tasklet reads next are those of the blocks that they stand for. -/
def ReadsWritten (strategy : Strategy) (n : ℕ) (x : ℕ → T) (s : Kernel T) : Prop :=
  ∀ i < n, match s.pc i with
    | .sum j _ => j < n → s.mem.partials j = x j
    | .load k => s.mem.partials i = block n x k i ∧
        s.mem.partials (i + 2 ^ k) = block n x k (i + 2 ^ k)
    | .add => s.mem.partials i = x i
    | .ret => i = 0 → (if strategy = .mutex then s.mem.mutexAccum else s.mem.partials 0) =
        ∑ j ∈ Finset.range n, x j
    | _ => True

/-- What the final reduction has to guarantee in a state of a run. -/
structure Reduces (strategy : Strategy) (n : ℕ) (x : ℕ → T) (s : Kernel T) : Prop where
  result : ∀ r, s.pc 0 = .done r → r = ∑ j ∈ Finset.range n, x j
  reads : ReadsWritten strategy n x s
  goes : s.Finished (code strategy n x) n ∨ ∃ s', Tasklets.Step (code strategy n x) n s s'

/-- What tasklet i does next keeps its epoch, a barrier apart, the partial sums of the others and
the fact about its own. -/
def Keeps (epoch : Pc T → ℕ) (own : ℕ → T → Pc T → Prop) (i : ℕ) (m : Wram T) (p : Pc T) :
    Action (Pc T) (Wram T) → Prop
  | .step f => epoch (f m).1 = epoch p ∧ (∀ j, j ≠ i → (f m).2.partials j = m.partials j) ∧
      own i ((f m).2.partials i) (f m).1
  | .barrier q => epoch q = epoch p + 1 ∧ own i (m.partials i) q
  | .notify q | .waitFor _ q | .lock q | .unlock q => epoch q = epoch p ∧ own i (m.partials i) q
  | .done => True

variable {strategy : Strategy} {n : ℕ} {x : ℕ → T} {s s' : Kernel T} {epoch : Pc T → ℕ}
  {own : ℕ → T → Pc T → Prop}

/-- What each tasklet keeps, the kernel keeps under every schedule. -/
theorem keeps_step (same : s.SameEpoch n epoch) (each : Each own n s)
    (h : ∀ i < n, Keeps epoch own i s.mem (s.pc i) (code strategy n x i (s.pc i)))
    (hs : Tasklets.Step (code strategy n x) n s s') : s'.SameEpoch n epoch ∧ Each own n s' := by
  cases hs with
  | @own i f hi hc =>
    have hk := h i hi
    rw [hc] at hk
    exact ⟨same.update hk.1,each.update hk.2.1 hk.2.2⟩
  | @barrier next hc =>
    have hk : ∀ i < n, epoch (next i) = epoch (s.pc i) + 1 ∧ own i (s.mem.partials i) (next i) := by
      intro i hi
      have hi' := h i hi
      rwa [hc i hi] at hi'
    exact ⟨same.barrier fun i hi => (hk i hi).1,Each.barrier fun i hi => (hk i hi).2⟩
  | @handshake i j p q hi hj hc hc' =>
    have hp := h i hi
    have hq := h j hj
    rw [hc] at hp
    rw [hc'] at hq
    have hne : j ≠ i := fun he => by
      rw [he, hc] at hc'
      cases hc'
    have same' : Tasklets.SameEpoch n epoch ⟨Function.update s.pc i p,s.mem,s.holder⟩ :=
      same.update hp.1
    have each' : Each own n ⟨Function.update s.pc i p,s.mem,s.holder⟩ :=
      each.update (fun _ _ => rfl) hp.2
    refine ⟨same'.update ?_,each'.update (fun _ _ => rfl) hq.2⟩
    change epoch q = epoch (Function.update s.pc i p j)
    rw [Function.update_of_ne hne]
    exact hq.1
  | @lock i p hi hc _ | @unlock i p hi hc _ =>
    have hk := h i hi
    rw [hc] at hk
    exact ⟨same.update hk.1,each.update (fun _ _ => rfl) hk.2⟩

/-- When all tasklets are at a barrier, it opens. -/
lemma exists_step_of_barrier (h : ∀ i < n, ∃ p, code strategy n x i (s.pc i) = .barrier p) :
    ∃ s', Tasklets.Step (code strategy n x) n s s' := by
  have : Nonempty (Pc T) := ⟨.reset⟩
  choose! next hnext using h
  exact ⟨_,.barrier hnext⟩

/-- Tasklets that only wait at barriers are never stuck, as none of them returns before the last
barrier. -/
lemma goes_of_waits (same : s.SameEpoch n epoch) {last : ℕ}
    (waits : ∀ i < n, (∃ f, code strategy n x i (s.pc i) = .step f) ∨
      (∃ q, code strategy n x i (s.pc i) = .barrier q) ∧ epoch (s.pc i) < last ∨
      code strategy n x i (s.pc i) = .done ∧ epoch (s.pc i) = last) :
    s.Finished (code strategy n x) n ∨ ∃ s', Tasklets.Step (code strategy n x) n s s' := by
  by_cases hstep : ∃ i < n, ∃ f, code strategy n x i (s.pc i) = .step f
  · obtain ⟨i,hi,f,hf⟩ := hstep
    exact .inr ⟨_,.own hi hf⟩
  push Not at hstep
  by_cases hb : ∃ i < n, epoch (s.pc i) < last
  · obtain ⟨i,hi,hlt⟩ := hb
    refine .inr (exists_step_of_barrier fun j hj => ?_)
    obtain ⟨f,hf⟩ | ⟨hq,-⟩ | ⟨-,he⟩ := waits j hj
    · exact absurd hf (hstep j hj f)
    · exact hq
    · exact absurd (same i hi j hj) (by omega)
  · push Not at hb
    refine .inl fun i hi => ?_
    obtain ⟨f,hf⟩ | ⟨-,hlt⟩ | ⟨hd,-⟩ := waits i hi
    · exact absurd hf (hstep i hi f)
    · exact absurd hlt (Nat.not_lt.mpr (hb i hi))
    · exact hd

end
end CaLabs.Lab3
