import CaLabs.Lab3.Reduction
import Mathlib.Tactic.Ring

/-! The reduction along a tree of handshakes: FINAL_TREE_HANDSHAKE. -/
namespace CaLabs.Lab3.TreeHandshake
open Lib

lemma mod_of_mod_le {i k l : ℕ} (hkl : k ≤ l) (h : i % 2 ^ l = 0) : i % 2 ^ k = 0 :=
  Nat.mod_eq_zero_of_dvd ((pow_dvd_pow 2 hkl).trans (Nat.dvd_of_mod_eq_zero h))

/-- A tasklet notifies at one level only. -/
lemma level_unique {i k l : ℕ} (hk : i % 2 ^ k = 0) (hk' : i % 2 ^ (k + 1) ≠ 0) (hl : i % 2 ^ l = 0)
    (hl' : i % 2 ^ (l + 1) ≠ 0) : k = l := by
  obtain hlt | he | hlt := Nat.lt_trichotomy k l
  · exact absurd (mod_of_mod_le hlt hl) hk'
  · exact he
  · exact absurd (mod_of_mod_le hlt hk) hl'

/-- The tasklet that waits for the notification of tasklet i. -/
lemma exists_waiter {i k : ℕ} (h : i % 2 ^ k = 0) (h' : i % 2 ^ (k + 1) ≠ 0) :
    ∃ j, j % 2 ^ (k + 1) = 0 ∧ i = j + 2 ^ k := by
  obtain ⟨q,rfl⟩ := Nat.dvd_of_mod_eq_zero h
  obtain ⟨r,hr⟩ | ⟨r,rfl⟩ := q.even_or_odd
  · refine absurd (Nat.mod_eq_zero_of_dvd ⟨r,?_⟩) h'
    rw [hr]
    ring
  · refine ⟨2 ^ (k + 1) * r,Nat.mul_mod_right _ _,?_⟩
    ring

section
variable {T : Type*} {n : ℕ} {x : ℕ → T} {s s' : Kernel T}

/-- The barriers that a tasklet has passed. -/
def epoch : Pc T → ℕ
  | .reset | .start => 0
  | _ => 1

/-- Tasklet i merges with a partner at level k. -/
def Merges (n i k : ℕ) : Prop := 2 ^ k < n ∧ i % 2 ^ (k + 1) = 0 ∧ i + 2 ^ k < n

def Returned : Pc T → Prop
  | .ret | .done _ => True
  | _ => False

/-- The handshake of level k is over. -/
def Got (k : ℕ) : Pc T → Prop
  | .level l | .wait l => k < l
  | .load l | .store l _ => k ≤ l
  | .notify | .ret | .done _ => True
  | _ => False

/-- A tasklet has returned exactly when its waiter is past their handshake. -/
def Paired (n : ℕ) (s : Kernel T) : Prop :=
  ∀ i k, i % 2 ^ (k + 1) = 0 → i + 2 ^ k < n → (Returned (s.pc (i + 2 ^ k)) ↔ Got k (s.pc i))

lemma Paired.update (h : Paired n s) {i : ℕ} {p : Pc T} {m : Wram T} {holder : Option ℕ}
    (returned : i ≠ 0 → (Returned p ↔ Returned (s.pc i)))
    (got : ∀ k, i % 2 ^ (k + 1) = 0 → i + 2 ^ k < n → (Got k p ↔ Got k (s.pc i))) :
    Paired n ⟨Function.update s.pc i p,m,holder⟩ := by
  intro a k hmod hlt
  have hpow := Nat.two_pow_pos k
  have hne : a ≠ a + 2 ^ k := by omega
  change Returned (Function.update s.pc i p (a + 2 ^ k)) ↔ Got k (Function.update s.pc i p a)
  by_cases hai : a = i
  · subst hai
    rw [Function.update_self, Function.update_of_ne hne.symm, got k hmod hlt]
    exact h a k hmod hlt
  · rw [Function.update_of_ne hai]
    by_cases hpi : a + 2 ^ k = i
    · rw [hpi, Function.update_self, returned (by omega), ← hpi]
      exact h a k hmod hlt
    · rw [Function.update_of_ne hpi]
      exact h a k hmod hlt

/-- A handshake. -/
lemma Paired.handshake (h : Paired n s) {j k : ℕ} (hm : Merges n j k)
    (hn : s.pc (j + 2 ^ k) = .notify) (hw : s.pc j = .wait k) {m : Wram T} {holder : Option ℕ} :
    Paired n ⟨Function.update (Function.update s.pc (j + 2 ^ k) .ret) j (.load k),m,holder⟩ := by
  intro a l hmod hlt
  have hold := h a l hmod hlt
  have hpow := Nat.two_pow_pos k
  obtain ⟨hlev,hlev'⟩ := partner_mod hm.2.1
  obtain ⟨halev,halev'⟩ := partner_mod hmod
  change Returned (Function.update (Function.update s.pc (j + 2 ^ k) .ret) j (.load k) (a + 2 ^ l))
    ↔ Got l (Function.update (Function.update s.pc (j + 2 ^ k) .ret) j (.load k) a)
  by_cases he : a + 2 ^ l = j + 2 ^ k
  · -- these are the two that meet
    rw [he] at halev halev'
    obtain rfl := level_unique halev halev' hlev hlev'
    obtain rfl : a = j := by omega
    rw [Function.update_self, Function.update_of_ne (by omega), Function.update_self]
    exact ⟨fun _ => le_rfl,fun _ => trivial⟩
  · have hreturned : Returned (Function.update (Function.update s.pc (j + 2 ^ k) .ret) j (.load k)
        (a + 2 ^ l)) ↔ Returned (s.pc (a + 2 ^ l)) := by
      by_cases hj : a + 2 ^ l = j
      · rw [hj, Function.update_self, hw]
        exact Iff.rfl
      · rw [Function.update_of_ne hj, Function.update_of_ne he]
    rw [hreturned, hold]
    by_cases haj : a = j
    · subst haj
      rw [Function.update_self, hw]
      have hkl : l ≠ k := fun hlk => he (by rw [hlk])
      change l < k ↔ l ≤ k
      omega
    · rw [Function.update_of_ne haj]
      by_cases hai : a = j + 2 ^ k
      · rw [hai, Function.update_self, hn]
        exact Iff.rfl
      · rw [Function.update_of_ne hai]

variable [AddCommMonoid T]

/-- What a tasklet that notifies hands over: the block of its own level. -/
def Sends (n : ℕ) (x : ℕ → T) (i : ℕ) (partialSum : T) : Prop :=
  ∃ k, i % 2 ^ k = 0 ∧ i % 2 ^ (k + 1) ≠ 0 ∧ partialSum = block n x k i

def Own (n : ℕ) (x : ℕ → T) (i : ℕ) (partialSum : T) : Pc T → Prop
  | .reset | .start | .compute => True
  | .level k => i % 2 ^ k = 0 ∧ partialSum = block n x k i
  | .wait k | .load k => Merges n i k ∧ partialSum = block n x k i
  | .store k value => Merges n i k ∧ value = block n x (k + 1) i
  | .notify => Sends n x i partialSum
  | .ret => (i = 0 → partialSum = ∑ l ∈ Finset.range n, x l) ∧ (i ≠ 0 → Sends n x i partialSum)
  | .done r => (i = 0 → r = ∑ l ∈ Finset.range n, x l) ∧ (i ≠ 0 → Sends n x i partialSum)
  | _ => False

structure Invariant (n : ℕ) (x : ℕ → T) (s : Kernel T) : Prop where
  same : s.SameEpoch n epoch
  own : Each (Own n x) n s
  paired : Paired n s

/-- Only tasklet 0 gets to the end of its loop. -/
lemma eq_zero_of_last {i k : ℕ} (hi : i < n) (hmod : i % 2 ^ k = 0) (hk : ¬ 2 ^ k < n) : i = 0 := by
  rwa [Nat.mod_eq_of_lt (by omega)] at hmod

lemma Own.keeps {i : ℕ} {p : Pc T} {m : Wram T} (hi : i < n) (h : Own n x i (m.partials i) p)
    (partner : ∀ k, p = .load k → m.partials (i + 2 ^ k) = block n x k (i + 2 ^ k)) :
    Keeps epoch (Own n x) i m p (code .treeHandshake n x i p) := by
  cases p with
  | reset => simp [Keeps, code, epoch, Own]
  | start => exact ⟨rfl,trivial⟩
  | compute =>
    refine ⟨rfl,fun j hj => Function.update_of_ne hj _ _,?_,?_⟩
    · rw [pow_zero, Nat.mod_one]
    · rw [block_zero x hi]
      exact Function.update_self ..
  | level k =>
    obtain ⟨hmod,hv⟩ := h
    refine ⟨?_,fun _ _ => rfl,?_⟩
    all_goals simp only [levelStep, if_true]
    all_goals split_ifs with hkn hmod' hpartner
    · rfl
    · rfl
    · rfl
    · rfl
    · exact ⟨⟨hkn,hmod',hpartner⟩,hv⟩
    · exact ⟨hmod',hv.trans (block_succ_of_le x hpartner).symm⟩
    · exact ⟨k,hmod,hmod',hv⟩
    · obtain rfl := eq_zero_of_last hi hmod hkn
      exact ⟨fun _ => hv.trans (block_root x hkn),fun h0 => absurd rfl h0⟩
  | wait k => exact ⟨rfl,h⟩
  | load k =>
    refine ⟨rfl,fun _ _ => rfl,h.1,?_⟩
    rw [h.2, partner k rfl, block_add x h.1.2.2]
  | store k value =>
    refine ⟨rfl,fun j hj => Function.update_of_ne hj _ _,h.1.2.1,?_⟩
    exact (Function.update_self ..).trans h.2
  | notify =>
    refine ⟨rfl,fun h0 => ?_,fun _ => h⟩
    obtain ⟨k,-,hne,-⟩ := h
    rw [h0, Nat.zero_mod] at hne
    exact absurd rfl hne
  | ret => exact ⟨rfl,fun _ _ => rfl,h⟩
  | done r => trivial
  | _ => exact h.elim

/-- A tasklet that has returned has handed over the block that its waiter reads. -/
lemma Invariant.partner (h : Invariant n x s) {i k : ℕ} (hi : i < n) (hpc : s.pc i = .load k) :
    s.mem.partials (i + 2 ^ k) = block n x k (i + 2 ^ k) := by
  have hown := h.own i hi
  rw [hpc] at hown
  obtain ⟨⟨-,hmod,hlt⟩,-⟩ := hown
  obtain ⟨hlev,hlev'⟩ := partner_mod hmod
  have hpow := Nat.two_pow_pos k
  have hreturned : Returned (s.pc (i + 2 ^ k)) := by
    rw [h.paired i k hmod hlt, hpc]
    exact le_rfl
  have hsends : Sends n x (i + 2 ^ k) (s.mem.partials (i + 2 ^ k)) := by
    have hp := h.own _ hlt
    cases hq : s.pc (i + 2 ^ k) with
    | ret | done r =>
      rw [hq] at hp
      exact hp.2 (by omega)
    | _ =>
      rw [hq] at hreturned
      exact hreturned.elim
  obtain ⟨l,hl,hl',hv⟩ := hsends
  rwa [level_unique hl hl' hlev hlev'] at hv

/-- The own steps of a tasklet leave the handshakes as they are. -/
lemma Invariant.paired_own (h : Invariant n x s) {i : ℕ} (hi : i < n)
    {f : Wram T → Pc T × Wram T} (hc : code .treeHandshake n x i (s.pc i) = .step f) :
    Paired n ⟨Function.update s.pc i (f s.mem).1,(f s.mem).2,s.holder⟩ := by
  have hown := h.own i hi
  cases hpc : s.pc i with
  | reset | compute | store k w | ret =>
    rw [hpc] at hc
    cases hc
    refine h.paired.update (fun _ => by rw [hpc]; exact Iff.rfl) fun l _ _ => ?_
    rw [hpc]
    simp [Got, Strategy.enter]
  | load k =>
    rw [hpc] at hc
    cases hc
    exact h.paired.update (fun _ => by rw [hpc]; exact Iff.rfl)
      fun l _ _ => by rw [hpc]; exact Iff.rfl
  | level k =>
    rw [hpc] at hc hown
    cases hc
    simp only [levelStep, if_true]
    split_ifs with hkn hmod hpartner
    · exact h.paired.update (fun _ => by rw [hpc]; exact Iff.rfl)
        fun l _ _ => by rw [hpc]; exact Iff.rfl
    · refine h.paired.update (fun _ => by rw [hpc]; exact Iff.rfl) fun l _ hlt => ?_
      rw [hpc]
      have hlk : l ≠ k := fun hlk => hpartner (hlk ▸ hlt)
      change l < k + 1 ↔ l < k
      omega
    · refine h.paired.update (fun _ => by rw [hpc]; exact Iff.rfl) fun l hl _ => ?_
      rw [hpc]
      refine ⟨fun _ => ?_,fun _ => trivial⟩
      by_contra hlk
      exact hmod (mod_of_mod_le (by change ¬ l < k at hlk; omega) hl)
    · obtain rfl := eq_zero_of_last hi hown.1 hkn
      refine h.paired.update (fun h0 => absurd rfl h0) fun l _ hlt => ?_
      rw [hpc]
      refine ⟨fun _ => ?_,fun _ => trivial⟩
      by_contra hlk
      have hpow : 2 ^ k ≤ 2 ^ l :=
        Nat.pow_le_pow_right (by decide) (by change ¬ l < k at hlk; omega)
      omega
  | start | wait k | notify | done r =>
    rw [hpc] at hc
    cases hc
  | _ =>
    rw [hpc] at hown
    exact hown.elim

/-- The places from which a tasklet starts a barrier, a handshake or a wait. -/
lemma Own.start {i : ℕ} {v : T} {p q : Pc T} (h : Own n x i v p)
    (hc : code .treeHandshake n x i p = .barrier q) : p = .start ∧ q = .compute := by
  cases p with
  | start =>
    cases hc
    exact ⟨rfl,rfl⟩
  | reset | compute | level k | wait k | load k | store k w | notify | ret | done r => cases hc
  | _ => exact h.elim

lemma Own.notify {i : ℕ} {v : T} {p q : Pc T} (h : Own n x i v p)
    (hc : code .treeHandshake n x i p = .notify q) : p = .notify ∧ q = .ret := by
  cases p with
  | notify =>
    cases hc
    exact ⟨rfl,rfl⟩
  | reset | start | compute | level k | wait k | load k | store k w | ret | done r => cases hc
  | _ => exact h.elim

lemma Own.wait {i j : ℕ} {v : T} {p q : Pc T} (h : Own n x i v p)
    (hc : code .treeHandshake n x i p = .waitFor j q) :
    ∃ k, p = .wait k ∧ j = i + 2 ^ k ∧ q = .load k ∧ Merges n i k := by
  cases p with
  | wait k =>
    cases hc
    exact ⟨k,rfl,rfl,rfl,h.1⟩
  | reset | start | compute | level k | load k | store k w | notify | ret | done r => cases hc
  | _ => exact h.elim

lemma Own.ne_lock {i : ℕ} {v : T} {p q : Pc T} (h : Own n x i v p) :
    code .treeHandshake n x i p ≠ .lock q ∧ code .treeHandshake n x i p ≠ .unlock q := by
  cases p with
  | reset | start | compute | level k | wait k | load k | store k w | notify | ret | done r =>
    exact ⟨nofun,nofun⟩
  | _ => exact h.elim

theorem Invariant.step (h : Invariant n x s) (hs : Tasklets.Step (code .treeHandshake n x) n s s') :
    Invariant n x s' := by
  obtain ⟨same,own⟩ := keeps_step h.same h.own
    (fun i hi => (h.own i hi).keeps hi fun k => h.partner hi) hs
  suffices hpaired : Paired n s' from ⟨same,own,hpaired⟩
  cases hs with
  | @own i f hi hc => exact h.paired_own hi hc
  | @barrier next hc =>
    intro a k hmod hlt
    have hpow := Nat.two_pow_pos k
    have ha : a < n := by omega
    simp only [if_pos hlt, if_pos ha, ((h.own _ hlt).start (hc _ hlt)).2,
      ((h.own a ha).start (hc a ha)).2]
    exact Iff.rfl
  | @handshake i j p q hi hj hc hc' =>
    obtain ⟨k,hw,rfl,rfl,hm⟩ := (h.own j hj).wait hc'
    obtain ⟨hn,rfl⟩ := (h.own _ hi).notify hc
    exact h.paired.handshake hm hn hw
  | @lock i p hi hc _ => exact absurd hc (h.own i hi).ne_lock.1
  | @unlock i p hi hc _ => exact absurd hc (h.own i hi).ne_lock.2

lemma invariant_launch (m : Wram T) : Invariant n x (launch m) where
  same _ _ _ _ := rfl
  own _ _ := trivial
  paired _ _ _ _ := Iff.rfl

/-- By induction on its level, a tasklet that waits is not stuck: its partner waits at a lower
level, notifies or goes on by itself. -/
lemma Invariant.goes_of_wait (h : Invariant n x s) (k : ℕ) {i : ℕ} (hi : i < n)
    (hpc : s.pc i = .wait k) : ∃ s', Tasklets.Step (code .treeHandshake n x) n s s' := by
  induction k using Nat.strong_induction_on generalizing i with
  | _ k ih =>
    have hown := h.own i hi
    rw [hpc] at hown
    obtain ⟨⟨-,hmod,hlt⟩,-⟩ := hown
    have hp := h.own _ hlt
    have hreturned : ¬ Returned (s.pc (i + 2 ^ k)) := by
      rw [h.paired i k hmod hlt, hpc]
      exact lt_irrefl k
    cases hq : s.pc (i + 2 ^ k) with
    | reset | compute | level l | load l | store l w => exact ⟨_,.own hlt (by rw [hq]; rfl)⟩
    | start =>
      have he := h.same _ hlt i hi
      rw [hq, hpc] at he
      exact absurd he (by simp [epoch])
    | wait l =>
      rw [hq] at hp
      refine ih l ?_ hlt hq
      by_contra hkl
      exact (partner_mod hmod).2 (mod_of_mod_le (by omega) hp.1.2.1)
    | notify => exact ⟨_,.handshake hlt hi (by rw [hq]; rfl) (by rw [hpc]; rfl)⟩
    | ret | done r =>
      rw [hq] at hreturned
      exact absurd trivial hreturned
    | _ =>
      rw [hq] at hp
      exact hp.elim

theorem Invariant.goes (h : Invariant n x s) : s.Finished (code .treeHandshake n x) n ∨
    ∃ s', Tasklets.Step (code .treeHandshake n x) n s s' := by
  by_cases hstep : ∃ i < n, ∃ f, code .treeHandshake n x i (s.pc i) = .step f
  · obtain ⟨i,hi,f,hf⟩ := hstep
    exact .inr ⟨_,.own hi hf⟩
  by_cases hwait : ∃ i < n, ∃ k, s.pc i = .wait k
  · obtain ⟨i,hi,k,hpc⟩ := hwait
    exact .inr (h.goes_of_wait k hi hpc)
  push Not at hstep hwait
  by_cases hstart : ∃ i < n, s.pc i = .start
  · obtain ⟨i,hi,hpc⟩ := hstart
    refine .inr (exists_step_of_barrier fun j hj => ?_)
    have he := h.same j hj i hi
    rw [hpc] at he
    cases hq : s.pc j with
    | start => exact ⟨_,rfl⟩
    | reset => exact absurd (by rw [hq]; rfl) (hstep j hj _)
    | _ =>
      rw [hq] at he
      exact absurd he (by simp [epoch])
  push Not at hstart
  refine .inl fun i hi => ?_
  have hown := h.own i hi
  cases hpc : s.pc i with
  | reset | compute | level k | load k | store k w | ret =>
    exact absurd (by rw [hpc]; rfl) (hstep i hi _)
  | start => exact absurd hpc (hstart i hi)
  | wait k => exact absurd hpc (hwait i hi k)
  | done r => rfl
  | notify =>
    -- its waiter is past their handshake, so that it has returned itself
    rw [hpc] at hown
    obtain ⟨k,hk,hk',-⟩ := hown
    obtain ⟨j,hmod,rfl⟩ := exists_waiter hk hk'
    have hj : j < n := by omega
    have hp := h.paired j k hmod hi
    have hq := h.own j hj
    rw [hpc] at hp
    cases hpcj : s.pc j with
    | notify | ret | done r =>
      rw [hpcj] at hp
      exact (hp.mpr trivial).elim
    | reset | compute | level k | load k | store k w =>
      exact absurd (by rw [hpcj]; rfl) (hstep j hj _)
    | start => exact absurd hpcj (hstart j hj)
    | wait l => exact absurd hpcj (hwait j hj l)
    | _ =>
      rw [hpcj] at hq
      exact hq.elim
  | _ =>
    rw [hpc] at hown
    exact hown.elim

lemma Own.level {i : ℕ} {p : Pc T} {v : T} (h : Own n x i v p) : p.Level n := by
  cases p with
  | wait k | load k | store k w => exact h.1.1
  | syncLevel k => exact h.elim
  | _ => trivial

theorem Invariant.reduces (hn : 0 < n) (h : Invariant n x s) : Reduces .treeHandshake n x s where
  result r hr := by
    have h0 := h.own 0 hn
    rw [hr] at h0
    exact h0.1 rfl
  reads i hi := by
    have hown := h.own i hi
    cases hpc : s.pc i with
    | load k =>
      rw [hpc] at hown
      exact ⟨hown.2,h.partner hi hpc⟩
    | ret =>
      rw [hpc] at hown
      intro h0
      rw [h0] at hown
      exact hown.1 rfl
    | sum j acc | add =>
      rw [hpc] at hown
      exact hown.elim
    | _ => trivial
  goes := h.goes

end
end CaLabs.Lab3.TreeHandshake
