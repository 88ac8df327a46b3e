import CaLabs.Lab3.Reduction

/-! The reduction into one accumulator under a mutex: FINAL_MUTEX. -/
namespace CaLabs.Lab3.Mutex
open Lib
section
variable {T : Type*} {n : ℕ} {x : ℕ → T} {s s' : Kernel T}

/-- The barriers that a tasklet has passed. -/
def epoch : Pc T → ℕ
  | .reset | .start => 0
  | .ret | .done _ => 2
  | _ => 1

/-- Once a tasklet has written its partial sum, it stays. -/
def Own (x : ℕ → T) (i : ℕ) (partialSum : T) : Pc T → Prop
  | .reset | .start | .compute => True
  | .lock | .add | .put _ | .unlock | .syncAccum | .ret | .done _ => partialSum = x i
  | _ => False

/-- The places between mutex_lock and mutex_unlock. -/
def InSection : Pc T → Prop
  | .add | .put _ | .unlock => True
  | _ => False

/-- The mutex is held by the tasklet in its section, if there is one. -/
def Holds (n : ℕ) (s : Kernel T) : Prop := ∀ i, s.holder = some i ↔ i < n ∧ InSection (s.pc i)

lemma Holds.update (h : Holds n s) {i : ℕ} {p : Pc T} {m : Wram T}
    (hp : InSection p ↔ InSection (s.pc i)) : Holds n ⟨Function.update s.pc i p,m,s.holder⟩ := by
  intro j
  change s.holder = some j ↔ j < n ∧ InSection (Function.update s.pc i p j)
  rw [h j]
  by_cases hj : j = i
  · rw [hj, Function.update_self, hp]
  · rw [Function.update_of_ne hj]

lemma Holds.lock (h : Holds n s) (free : s.holder = none) {i : ℕ} (hi : i < n) {m : Wram T} :
    Holds n ⟨Function.update s.pc i .add,m,some i⟩ := by
  intro j
  change some i = some j ↔ j < n ∧ InSection (Function.update s.pc i .add j)
  by_cases hj : j = i
  · rw [hj, Function.update_self]
    exact ⟨fun _ => ⟨hi,trivial⟩,fun _ => rfl⟩
  · rw [Function.update_of_ne hj, ← h j, free]
    simp [Ne.symm hj]

lemma Holds.unlock (h : Holds n s) {i : ℕ} (held : s.holder = some i) {m : Wram T} :
    Holds n ⟨Function.update s.pc i .syncAccum,m,none⟩ := by
  intro j
  change none = some j ↔ j < n ∧ InSection (Function.update s.pc i .syncAccum j)
  by_cases hj : j = i
  · rw [hj, Function.update_self]
    simp [InSection]
  · rw [Function.update_of_ne hj, ← h j, held]
    simp [Ne.symm hj]

lemma Holds.barrier {next : ℕ → Pc T} (h : Holds n s)
    (hp : ∀ i < n, InSection (next i) ↔ InSection (s.pc i)) {m : Wram T} :
    Holds n ⟨fun i => if i < n then next i else s.pc i,m,s.holder⟩ := by
  intro j
  change s.holder = some j ↔ j < n ∧ InSection (if j < n then next j else s.pc j)
  rw [h j]
  refine and_congr_right fun hj => ?_
  rw [if_pos hj, hp j hj]

lemma Own.level {i : ℕ} {p : Pc T} {v : T} (h : Own x i v p) : p.Level n := by
  cases p with
  | wait k | load k | store k w | syncLevel k => exact h.elim
  | _ => trivial

variable [AddCommMonoid T]

/-- What a tasklet has added to mutex_accum. -/
def added (x : ℕ → T) (i : ℕ) : Pc T → T
  | .unlock | .syncAccum | .ret | .done _ => x i
  | _ => 0

def sumAdded (n : ℕ) (x : ℕ → T) (s : Kernel T) : T := ∑ i ∈ Finset.range n, added x i (s.pc i)

/-- Once tasklet 0 has cleared it, mutex_accum is what has been added. -/
structure Sums (n : ℕ) (x : ℕ → T) (s : Kernel T) : Prop where
  accum : s.pc 0 ≠ .reset → s.mem.mutexAccum = sumAdded n x s
  put : ∀ i < n, ∀ v, s.pc i = .put v → v = s.mem.mutexAccum + x i
  result : ∀ i < n, ∀ r, s.pc i = .done r → r = ∑ j ∈ Finset.range n, x j

structure Invariant (n : ℕ) (x : ℕ → T) (s : Kernel T) : Prop where
  same : s.SameEpoch n epoch
  own : Each (Own x) n s
  holds : Holds n s
  sums : Sums n x s

lemma Own.keeps {i : ℕ} {p : Pc T} {m : Wram T} (h : Own x i (m.partials i) p) :
    Keeps epoch (Own x) i m p (code .mutex n x i p) := by
  cases p with
  | reset =>
    refine ⟨rfl,fun j _ => ?_,trivial⟩
    simp only [and_true]
    split_ifs <;> rfl
  | start => exact ⟨rfl,trivial⟩
  | compute => exact ⟨rfl,fun j hj => Function.update_of_ne hj _ _,Function.update_self ..⟩
  | lock | unlock | syncAccum => exact ⟨rfl,h⟩
  | add | put v | ret => exact ⟨rfl,fun _ _ => rfl,h⟩
  | done r => trivial
  | _ => exact h.elim

lemma sumAdded_update {i : ℕ} {p : Pc T} {m : Wram T} {holder : Option ℕ}
    (h : added x i p = added x i (s.pc i)) :
    sumAdded n x ⟨Function.update s.pc i p,m,holder⟩ = sumAdded n x s := by
  refine Finset.sum_congr rfl fun j _ => ?_
  by_cases hj : j = i
  · rw [hj]
    change added x i (Function.update s.pc i p i) = _
    rw [Function.update_self, h]
  · change added x j (Function.update s.pc i p j) = _
    rw [Function.update_of_ne hj]

/-- An addition. -/
lemma sumAdded_add {i : ℕ} (hi : i < n) {p : Pc T} {m : Wram T} {holder : Option ℕ}
    (h : added x i (s.pc i) = 0) (h' : added x i p = x i) :
    sumAdded n x ⟨Function.update s.pc i p,m,holder⟩ = sumAdded n x s + x i := by
  have hmem := Finset.mem_range.mpr hi
  rw [sumAdded, sumAdded, ← Finset.add_sum_erase _ _ hmem, ← Finset.add_sum_erase _ _ hmem, h,
    zero_add]
  dsimp only
  rw [Function.update_self, h', add_comm]
  congr 1
  refine Finset.sum_congr rfl fun j hj => ?_
  rw [Function.update_of_ne (Finset.ne_of_mem_erase hj)]

/-- In the first epoch nothing has been added, in the last everything. -/
lemma sumAdded_zero (h : ∀ i < n, epoch (s.pc i) = 0) : sumAdded n x s = 0 := by
  refine Finset.sum_eq_zero fun i hi => ?_
  have hp := h i (Finset.mem_range.mp hi)
  cases hpc : s.pc i <;> first | rfl | simp [hpc, epoch] at hp

lemma sumAdded_all (h : ∀ i < n, epoch (s.pc i) = 2) :
    sumAdded n x s = ∑ i ∈ Finset.range n, x i := by
  refine Finset.sum_congr rfl fun i hi => ?_
  have hp := h i (Finset.mem_range.mp hi)
  cases hpc : s.pc i <;> first | rfl | simp [hpc, epoch] at hp

/-- A step of tasklet i that adds nothing. -/
lemma Sums.move (h : Sums n x s) {i : ℕ} {p : Pc T} {m : Wram T} {holder : Option ℕ}
    (h0 : i = 0 → s.pc 0 ≠ .reset) (hadd : added x i p = added x i (s.pc i))
    (hm : m.mutexAccum = s.mem.mutexAccum) (hput : ∀ v, p = .put v → v = m.mutexAccum + x i)
    (hresult : ∀ r, p = .done r → r = ∑ j ∈ Finset.range n, x j) :
    Sums n x ⟨Function.update s.pc i p,m,holder⟩ where
  accum hne := by
    rw [sumAdded_update hadd, ← h.accum]
    · exact hm
    · by_cases hi : i = 0
      · exact h0 hi
      · simpa [Function.update_of_ne (Ne.symm hi)] using hne
  put := Tasklets.forall_update (fun j q => ∀ v, q = Pc.put v → v = m.mutexAccum + x j)
    (fun j hj _ v hv => (h.put j hj v hv).trans (congrArg (· + x j) hm.symm)) hput
  result := Tasklets.forall_update (fun _ q => ∀ r, q = Pc.done r → r = ∑ l ∈ Finset.range n, x l)
    (fun j hj _ => h.result j hj) hresult

/-- After the last barrier mutex_accum is complete. -/
lemma Invariant.accum_ret (h : Invariant n x s) {i : ℕ} (hi : i < n) (hpc : s.pc i = .ret) :
    s.mem.mutexAccum = ∑ j ∈ Finset.range n, x j := by
  have hlast : ∀ j < n, epoch (s.pc j) = 2 := fun j hj => by
    rw [h.same j hj i hi, hpc]
    rfl
  rw [h.sums.accum, sumAdded_all hlast]
  intro h0
  have he := hlast 0 (Nat.zero_lt_of_lt hi)
  rw [h0] at he
  exact absurd he (by simp [epoch])

lemma Invariant.section_unique (h : Invariant n x s) {i j : ℕ} (hi : i < n) (hj : j < n)
    (hsi : InSection (s.pc i)) (hsj : InSection (s.pc j)) : j = i := by
  have hheld := (h.holds i).mpr ⟨hi,hsi⟩
  rw [(h.holds j).mpr ⟨hj,hsj⟩] at hheld
  exact Option.some.inj hheld

/-- mutex_accum is written with the sum that was read, as the mutex keeps all others out. -/
lemma Invariant.sums_put (h : Invariant n x s) (hn : 0 < n) {i : ℕ} (hi : i < n) {v : T}
    (hpc : s.pc i = .put v) : Sums n x ⟨Function.update s.pc i .unlock,
      { s.mem with mutexAccum := v },s.holder⟩ := by
  have hne : s.pc 0 ≠ .reset := fun h0 => by
    have he := h.same 0 hn i hi
    rw [h0, hpc] at he
    exact absurd he (by simp [epoch])
  have hsec : InSection (s.pc i) := by rw [hpc]; trivial
  refine ⟨fun _ => ?_,
    Tasklets.forall_update (fun j q => ∀ w, q = Pc.put w → w = v + x j)
      (fun j hj hji w hw => ?_) (fun _ hw => by cases hw),
    Tasklets.forall_update (fun _ q => ∀ r, q = Pc.done r → r = ∑ l ∈ Finset.range n, x l)
      (fun j hj _ => h.sums.result j hj) (fun _ hr => by cases hr)⟩
  · rw [sumAdded_add hi (by rw [hpc]; rfl) rfl, ← h.sums.accum hne]
    exact h.sums.put i hi v hpc
  · exact absurd (h.section_unique hi hj hsec (by rw [hw]; trivial)) hji

/-- Tasklet 0 clears mutex_accum before any tasklet has passed the first barrier. -/
lemma Invariant.sums_reset (h : Invariant n x s) (hn : 0 < n) (hpc : s.pc 0 = .reset) :
    Sums n x ⟨Function.update s.pc 0 .start,{ s.mem with mutexAccum := 0 },s.holder⟩ := by
  have hzero : ∀ j < n, epoch (Function.update s.pc 0 .start j) = 0 := by
    intro j hj
    by_cases hj0 : j = 0
    · rw [hj0, Function.update_self]
      rfl
    · rw [Function.update_of_ne hj0, h.same j hj 0 hn, hpc]
      rfl
  refine ⟨fun _ => (sumAdded_zero hzero).symm,fun j hj w hw => ?_,fun j hj r hr => ?_⟩
  · have he := hzero j hj
    change Function.update s.pc 0 .start j = .put w at hw
    rw [hw] at he
    exact absurd he (by simp [epoch])
  · have he := hzero j hj
    change Function.update s.pc 0 .start j = .done r at hr
    rw [hr] at he
    exact absurd he (by simp [epoch])

/-- What a tasklet does by itself. -/
lemma Invariant.own_step (h : Invariant n x s) (hn : 0 < n) {i : ℕ} (hi : i < n)
    {f : Wram T → Pc T × Wram T} (hc : code .mutex n x i (s.pc i) = .step f) :
    (InSection (f s.mem).1 ↔ InSection (s.pc i)) ∧
      Sums n x ⟨Function.update s.pc i (f s.mem).1,(f s.mem).2,s.holder⟩ := by
  have hown := h.own i hi
  cases hpc : s.pc i with
  | reset =>
    rw [hpc] at hc
    cases hc
    refine ⟨Iff.rfl,?_⟩
    by_cases hi0 : i = 0
    · subst hi0
      simp only [and_true, if_true]
      exact h.sums_reset hn hpc
    · simp only [hi0, false_and, if_false]
      exact h.sums.move (fun h0 => absurd h0 hi0) (by rw [hpc]; rfl) rfl (fun _ hp => by cases hp)
        (fun _ hp => by cases hp)
  | compute =>
    rw [hpc] at hc
    cases hc
    exact ⟨Iff.rfl,h.sums.move (fun h0 => by rw [← h0, hpc]; simp) (by rw [hpc]; rfl) rfl
      (fun _ hp => by cases hp) (fun _ hp => by cases hp)⟩
  | add =>
    rw [hpc] at hc hown
    cases hc
    refine ⟨Iff.rfl,h.sums.move (fun h0 => by rw [← h0, hpc]; simp) (by rw [hpc]; rfl) rfl
      (fun v hp => ?_) (fun _ hp => by cases hp)⟩
    cases hp
    rw [show s.mem.partials i = x i from hown]
  | put v =>
    rw [hpc] at hc
    cases hc
    exact ⟨Iff.rfl,h.sums_put hn hi hpc⟩
  | ret =>
    rw [hpc] at hc
    cases hc
    refine ⟨Iff.rfl,h.sums.move (fun h0 => by rw [← h0, hpc]; simp) (by rw [hpc]; rfl) rfl
      (fun _ hp => by cases hp) (fun r hp => ?_)⟩
    cases hp
    exact h.accum_ret hi hpc
  | start | lock | unlock | syncAccum | done r =>
    rw [hpc] at hc
    cases hc
  | _ =>
    rw [hpc] at hown
    exact hown.elim

/-- The barriers of tasklet i. -/
lemma Own.barrier {i : ℕ} {v : T} {p q : Pc T} (h : Own x i v p)
    (hc : code .mutex n x i p = .barrier q) :
    p = .start ∧ q = .compute ∨ p = .syncAccum ∧ q = .ret := by
  cases p with
  | start =>
    cases hc
    exact .inl ⟨rfl,rfl⟩
  | syncAccum =>
    cases hc
    exact .inr ⟨rfl,rfl⟩
  | reset | compute | lock | add | put w | unlock | ret | done r => cases hc
  | _ => exact h.elim

lemma Own.ne_notify {i : ℕ} {v : T} {p q : Pc T} (h : Own x i v p) :
    code .mutex n x i p ≠ .notify q := by
  intro hc
  cases p with
  | start | syncAccum | reset | compute | lock | add | put w | unlock | ret | done r => cases hc
  | _ => exact h.elim

lemma Own.lock {i : ℕ} {v : T} {p q : Pc T} (h : Own x i v p)
    (hc : code .mutex n x i p = .lock q) : p = .lock ∧ q = .add := by
  cases p with
  | lock =>
    cases hc
    exact ⟨rfl,rfl⟩
  | start | syncAccum | reset | compute | add | put w | unlock | ret | done r => cases hc
  | _ => exact h.elim

lemma Own.unlock {i : ℕ} {v : T} {p q : Pc T} (h : Own x i v p)
    (hc : code .mutex n x i p = .unlock q) : p = .unlock ∧ q = .syncAccum := by
  cases p with
  | unlock =>
    cases hc
    exact ⟨rfl,rfl⟩
  | start | syncAccum | reset | compute | lock | add | put w | ret | done r => cases hc
  | _ => exact h.elim

/-- A barrier leaves the sums as they are. -/
lemma Invariant.sums_barrier (h : Invariant n x s) (hn : 0 < n) {next : ℕ → Pc T}
    (hc : ∀ i < n, code .mutex n x i (s.pc i) = .barrier (next i)) :
    Sums n x ⟨fun i => if i < n then next i else s.pc i,s.mem,s.holder⟩ := by
  have hq := fun i hi => (h.own i hi).barrier (hc i hi)
  refine ⟨fun _ => ?_,fun j hj w hw => ?_,fun j hj r hr => ?_⟩
  · change s.mem.mutexAccum = _
    rw [h.sums.accum]
    · refine Finset.sum_congr rfl fun j hj => ?_
      have hj' := Finset.mem_range.mp hj
      simp only [if_pos hj']
      obtain ⟨hp,hp'⟩ | ⟨hp,hp'⟩ := hq j hj'
      all_goals rw [hp, hp']
      all_goals rfl
    · obtain ⟨hp,-⟩ | ⟨hp,-⟩ := hq 0 hn
      all_goals simp [hp]
  · simp only [if_pos hj] at hw
    obtain ⟨-,hp⟩ | ⟨-,hp⟩ := hq j hj
    all_goals exact absurd (hp.symm.trans hw) (by simp)
  · simp only [if_pos hj] at hr
    obtain ⟨-,hp⟩ | ⟨-,hp⟩ := hq j hj
    all_goals exact absurd (hp.symm.trans hr) (by simp)

theorem Invariant.step (h : Invariant n x s) (hn : 0 < n)
    (hs : Tasklets.Step (code .mutex n x) n s s') : Invariant n x s' := by
  obtain ⟨same,own⟩ := keeps_step h.same h.own (fun i hi => (h.own i hi).keeps) hs
  suffices hsum : Holds n s' ∧ Sums n x s' from ⟨same,own,hsum.1,hsum.2⟩
  cases hs with
  | @own i f hi hc =>
    obtain ⟨hsec,hsums⟩ := h.own_step hn hi hc
    exact ⟨h.holds.update hsec,hsums⟩
  | @barrier next hc =>
    refine ⟨h.holds.barrier fun i hi => ?_,h.sums_barrier hn hc⟩
    obtain ⟨hp,hp'⟩ | ⟨hp,hp'⟩ := (h.own i hi).barrier (hc i hi)
    all_goals rw [hp, hp']
    all_goals rfl
  | @handshake i j p q hi hj hc hc' => exact absurd hc (h.own i hi).ne_notify
  | @lock i p hi hc free =>
    obtain ⟨hp,rfl⟩ := (h.own i hi).lock hc
    exact ⟨h.holds.lock free hi,h.sums.move (fun h0 => by rw [← h0, hp]; simp) (by rw [hp]; rfl) rfl
      (fun _ hp => by cases hp) (fun _ hp => by cases hp)⟩
  | @unlock i p hi hc held =>
    obtain ⟨hp,rfl⟩ := (h.own i hi).unlock hc
    exact ⟨h.holds.unlock held,h.sums.move (fun h0 => by rw [← h0, hp]; simp) (by rw [hp]; rfl) rfl
      (fun _ hp => by cases hp) (fun _ hp => by cases hp)⟩

lemma invariant_launch (m : Wram T) : Invariant n x (launch m) where
  same _ _ _ _ := rfl
  own _ _ := trivial
  holds i := by simp [launch, InSection]
  sums := by
    refine ⟨fun h => absurd rfl h,fun i _ v hv => ?_,fun i _ r hr => ?_⟩
    · cases hv
    · cases hr

/-- Where a tasklet does not go on by itself and is not at the mutex, it waits at a barrier or has
returned. -/
lemma Own.waits {i : ℕ} {p : Pc T} {v : T} (h : Own x i v p) (hl : p ≠ .lock) (hu : p ≠ .unlock) :
    (∃ f, code .mutex n x i p = .step f) ∨
      (∃ q, code .mutex n x i p = .barrier q) ∧ epoch p < 2 ∨
      code .mutex n x i p = .done ∧ epoch p = 2 := by
  cases p with
  | reset | compute | add | put v | ret => exact .inl ⟨_,rfl⟩
  | start | syncAccum => exact .inr (.inl ⟨⟨_,rfl⟩,by simp [epoch]⟩)
  | done r => exact .inr (.inr ⟨rfl,rfl⟩)
  | lock => exact absurd rfl hl
  | unlock => exact absurd rfl hu
  | _ => exact h.elim

/-- The tasklet that holds the mutex goes on; when none holds it, it is free for all. -/
theorem Invariant.goes (h : Invariant n x s) :
    s.Finished (code .mutex n x) n ∨ ∃ s', Tasklets.Step (code .mutex n x) n s s' := by
  cases hh : s.holder with
  | some i =>
    obtain ⟨hi,hsec⟩ := (h.holds i).mp hh
    cases hpc : s.pc i with
    | add => exact .inr ⟨_,.own hi (by rw [hpc]; rfl)⟩
    | put v => exact .inr ⟨_,.own hi (by rw [hpc]; rfl)⟩
    | unlock => exact .inr ⟨_,.unlock hi (by rw [hpc]; rfl) hh⟩
    | _ =>
      rw [hpc] at hsec
      exact hsec.elim
  | none =>
    by_cases hl : ∃ i < n, s.pc i = .lock
    · obtain ⟨i,hi,hpc⟩ := hl
      exact .inr ⟨_,.lock hi (by rw [hpc]; rfl) hh⟩
    · push Not at hl
      refine goes_of_waits h.same fun i hi => (h.own i hi).waits (hl i hi) fun hu => ?_
      have hsec := (h.holds i).mpr ⟨hi,by rw [hu]; trivial⟩
      rw [hh] at hsec
      cases hsec

theorem Invariant.reduces (hn : 0 < n) (h : Invariant n x s) : Reduces .mutex n x s where
  result := h.sums.result 0 hn
  reads i hi := by
    have hown := h.own i hi
    cases hpc : s.pc i with
    | add =>
      rw [hpc] at hown
      exact hown
    | ret => exact fun _ => h.accum_ret hi hpc
    | sum j acc | load k =>
      rw [hpc] at hown
      exact hown.elim
    | _ => trivial
  goes := h.goes

end
end CaLabs.Lab3.Mutex
