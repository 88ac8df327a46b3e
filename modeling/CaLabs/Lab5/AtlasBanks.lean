import CaLabs.Lab5.AtlasService
import Mathlib.Algebra.BigOperators.Intervals
import Mathlib.Data.Set.Card

/-! The ATLAS plugin and its bank counts for any commands: it reads no more of an issued request
than the address of its bank, its source and the two flags of its command. -/
namespace CaLabs.Lab5

/-- What update reads of an issued request. -/
structure Issue (β : Type*) where
  bank : β
  isOpening : Bool
  isClosing : Bool
  sourceId : ℤ

/-- The private state of the plugin over any bank addresses. A missing key of
active_banks_count counts as 0. -/
structure ATLASPlugin (β : Type*) where
  clk : ℕ := 0
  localAs : ServiceMap := {}
  threads : Finset ℤ := ∅
  activeBanksCount : ℤ → ℤ := fun _ => 0
  bankOwnership : β → Option ℤ := fun _ => none

namespace ATLASPlugin
variable {β : Type*} [DecidableEq β] (p : ATLASPlugin β)

/-- What a cycle adds to the service of the thread. -/
def serviceGain (t : ℤ) : ℤ :=
  if t ∈ p.threads ∧ 0 < p.activeBanksCount t then p.activeBanksCount t else 0

/-- The first part of update. -/
def attainService : ATLASPlugin β :=
  { p with
    localAs :=
      { keys := p.localAs.keys ∪ p.threads.filter fun t => 0 < p.activeBanksCount t
        val := fun t => p.localAs.val t + p.serviceGain t
        val_of_not_key := fun t h => by
          rw [Finset.notMem_union, Finset.mem_filter] at h
          rw [p.localAs.val_of_not_key t h.1, serviceGain, if_neg h.2, Int.cast_zero, add_zero] } }

/-- The old owner of a bank that is opened again loses it; it has an entry since it claimed. -/
def claim (bank : β) (tid : ℤ) : ATLASPlugin β :=
  let count := match p.bankOwnership bank with
    | some old => Function.update p.activeBanksCount old (p.activeBanksCount old - 1)
    | none => p.activeBanksCount
  { p with
    threads := insert tid p.threads
    activeBanksCount := Function.update count tid (count tid + 1)
    bankOwnership := Function.update p.bankOwnership bank (some tid) }

/-- A row is closed: its owner releases the bank. -/
def release (bank : β) : ATLASPlugin β :=
  match p.bankOwnership bank with
  | none => p
  | some owner =>
    { p with
      activeBanksCount := Function.update p.activeBanksCount owner
        (max (p.activeBanksCount owner - 1) 0)
      bankOwnership := Function.update p.bankOwnership bank none }

/-- The branch of update for an opening command. -/
def opened (i : Issue β) : ATLASPlugin β :=
  if i.isOpening then p.claim i.bank i.sourceId else p

def track (i : Issue β) : ATLASPlugin β :=
  if i.isClosing then (p.opened i).release i.bank else p.opened i

/-- update, with the report to the shared state at the end of a quantum. -/
def update (quantumLength : ℕ) (issue : Option (Issue β)) : ATLASPlugin β × Option ServiceMap :=
  let p := { p with clk := p.clk + 1 }
  let p := p.attainService
  let p := match issue with
    | some i => p.track i
    | none => p
  if p.clk % quantumLength = 0 then ({ p with localAs := {} },some p.localAs) else (p,none)

/-- The state before the cycle n of a controller that issues these commands. -/
def stateAt (quantumLength : ℕ) (issues : ℕ → Option (Issue β)) : ℕ → ATLASPlugin β
  | 0 => {}
  | n+1 => ((stateAt quantumLength issues n).update quantumLength (issues n)).1

/-- What cycle n reports to the shared state. -/
def reportAt (quantumLength : ℕ) (issues : ℕ → Option (Issue β)) (n : ℕ) : Option ServiceMap :=
  ((stateAt quantumLength issues n).update quantumLength (issues n)).2

/-- The banks that the thread owns. -/
def owned (t : ℤ) : Set β := {b | p.bankOwnership b = some t}

/-- The counts are those of the owned banks. -/
structure Counts (p : ATLASPlugin β) : Prop where
  finite : ∀ t, (p.owned t).Finite
  count : ∀ t, p.activeBanksCount t = (p.owned t).ncard
  thread : ∀ t, (p.owned t).Nonempty → t ∈ p.threads

/-- The release without its clamp. -/
def drop (bank : β) : ATLASPlugin β :=
  match p.bankOwnership bank with
  | none => p
  | some owner =>
    { p with
      activeBanksCount := Function.update p.activeBanksCount owner (p.activeBanksCount owner - 1)
      bankOwnership := Function.update p.bankOwnership bank none }

variable {p}

omit [DecidableEq β] in
lemma Counts.nonneg (h : p.Counts) (t : ℤ) : 0 ≤ p.activeBanksCount t := by
  rw [h.count]
  exact Int.natCast_nonneg _

omit [DecidableEq β] in
/-- An owner has a bank to lose. -/
lemma Counts.owner_pos (h : p.Counts) {bank : β} {owner : ℤ}
    (ho : p.bankOwnership bank = some owner) : 0 ≤ p.activeBanksCount owner - 1 := by
  have hpos : 0 < (p.owned owner).ncard := (Set.ncard_pos (h.finite owner)).mpr ⟨bank,ho⟩
  rw [h.count]
  omega

omit [DecidableEq β] in
lemma Counts.gain (h : p.Counts) (t : ℤ) : p.serviceGain t = (p.owned t).ncard := by
  rw [serviceGain, ← h.count t]
  split_ifs with hg
  · rfl
  · refine le_antisymm (h.nonneg t) (not_lt.mp fun hpos => hg ⟨h.thread t ?_,hpos⟩)
    rw [h.count t] at hpos
    exact (Set.ncard_pos (h.finite t)).mp (by exact_mod_cast hpos)

omit [DecidableEq β] in
lemma Counts.empty : (({} : ATLASPlugin β)).Counts := by
  have hnone : ∀ t, (({} : ATLASPlugin β)).owned t = ∅ := fun t =>
    Set.eq_empty_of_forall_notMem fun b hb => (by cases hb)
  refine ⟨fun t => ?_,fun t => ?_,fun t hne => ?_⟩
  · rw [hnone]
    exact Set.finite_empty
  · rw [hnone, Set.ncard_empty]
    rfl
  · rw [hnone] at hne
    exact absurd hne Set.not_nonempty_empty

/-- Losing a bank. -/
lemma Counts.drop (h : p.Counts) (bank : β) : (p.drop bank).Counts := by
  unfold ATLASPlugin.drop
  cases ho : p.bankOwnership bank with
  | none => exact h
  | some owner =>
    set q : ATLASPlugin β := { p with
      activeBanksCount := Function.update p.activeBanksCount owner (p.activeBanksCount owner - 1)
      bankOwnership := Function.update p.bankOwnership bank none }
    have howned : ∀ t, q.owned t = p.owned t \ {bank} := by
      intro t
      ext b
      by_cases hb : b = bank
      · subst hb
        simp [owned, q]
      · simp [owned, q, hb]
    refine ⟨fun t => ?_,fun t => ?_,fun t hne => ?_⟩
    · rw [howned]
      exact (h.finite t).subset Set.sdiff_subset
    · rw [howned]
      by_cases ht : t = owner
      · subst ht
        have hcard := Set.ncard_sdiff_singleton_add_one (show bank ∈ p.owned t from ho) (h.finite t)
        have hcount : q.activeBanksCount t = p.activeBanksCount t - 1 := Function.update_self _ _ _
        rw [hcount, h.count]
        omega
      · have hnot : bank ∉ p.owned t := fun hb => ht (Option.some.inj (hb.symm.trans ho))
        rw [Set.sdiff_singleton_eq_self hnot, ← h.count]
        exact Function.update_of_ne ht _ _
    · rw [howned] at hne
      exact h.thread t (hne.mono Set.sdiff_subset)

/-- Taking a bank that nobody owns. -/
lemma Counts.take (h : p.Counts) {bank : β} (hfree : p.bankOwnership bank = none) (tid : ℤ) :
    ({ p with
      threads := insert tid p.threads
      activeBanksCount := Function.update p.activeBanksCount tid (p.activeBanksCount tid + 1)
      bankOwnership := Function.update p.bankOwnership bank (some tid) } :
      ATLASPlugin β).Counts := by
  set q : ATLASPlugin β := { p with
    threads := insert tid p.threads
    activeBanksCount := Function.update p.activeBanksCount tid (p.activeBanksCount tid + 1)
    bankOwnership := Function.update p.bankOwnership bank (some tid) }
  have hself : q.owned tid = insert bank (p.owned tid) := by
    ext b
    by_cases hb : b = bank
    · simp [owned, q, hb]
    · simp [owned, q, hb]
  have hother : ∀ t, t ≠ tid → q.owned t = p.owned t := by
    intro t ht
    ext b
    by_cases hb : b = bank
    · simp [owned, q, hb, hfree, Ne.symm ht]
    · simp [owned, q, hb]
  have hnot : bank ∉ p.owned tid := fun hb => (by cases hfree.symm.trans hb)
  refine ⟨fun t => ?_,fun t => ?_,fun t hne => ?_⟩
  all_goals by_cases ht : t = tid
  · rw [ht, hself]
    exact (h.finite tid).insert bank
  · rw [hother t ht]
    exact h.finite t
  · have hcount : q.activeBanksCount tid = p.activeBanksCount tid + 1 := Function.update_self _ _ _
    rw [ht, hself, Set.ncard_insert_of_notMem hnot (h.finite tid), hcount, h.count]
    rfl
  · rw [hother t ht, ← h.count]
    exact Function.update_of_ne ht _ _
  · exact ht ▸ Finset.mem_insert_self tid p.threads
  · rw [hother t ht] at hne
    exact Finset.mem_insert_of_mem (h.thread t hne)

lemma drop_free (p : ATLASPlugin β) (bank : β) : (p.drop bank).bankOwnership bank = none := by
  unfold ATLASPlugin.drop
  cases ho : p.bankOwnership bank with
  | none => exact ho
  | some owner => exact Function.update_self _ _ _

/-- A claim takes the bank from its owner first. -/
lemma claim_eq (p : ATLASPlugin β) (bank : β) (tid : ℤ) : p.claim bank tid =
    { p.drop bank with
      threads := insert tid (p.drop bank).threads
      activeBanksCount := Function.update (p.drop bank).activeBanksCount tid
        ((p.drop bank).activeBanksCount tid + 1)
      bankOwnership := Function.update (p.drop bank).bankOwnership bank (some tid) } := by
  unfold claim ATLASPlugin.drop
  cases p.bankOwnership bank with
  | none => rfl
  | some owner => simp only [Function.update_idem]

lemma Counts.claim (h : p.Counts) (bank : β) (tid : ℤ) : (p.claim bank tid).Counts := by
  rw [claim_eq]
  exact (h.drop bank).take (drop_free p bank) tid

/-- The clamp changes nothing. -/
lemma Counts.release_eq (h : p.Counts) (bank : β) : p.release bank = p.drop bank := by
  unfold ATLASPlugin.release ATLASPlugin.drop
  cases ho : p.bankOwnership bank with
  | none => rfl
  | some owner =>
    dsimp only
    rw [max_eq_left (h.owner_pos ho)]

lemma Counts.opened (h : p.Counts) (i : Issue β) : (p.opened i).Counts := by
  unfold ATLASPlugin.opened
  split_ifs
  · exact h.claim i.bank i.sourceId
  · exact h

lemma Counts.track (h : p.Counts) (i : Issue β) : (p.track i).Counts := by
  unfold ATLASPlugin.track
  split_ifs
  · rw [(h.opened i).release_eq]
    exact (h.opened i).drop i.bank
  · exact h.opened i

omit [DecidableEq β] in
/-- The counts do not depend on the clock and the service. -/
lemma Counts.of_eq {q : ATLASPlugin β} (h : p.Counts) (hthreads : q.threads = p.threads)
    (hcount : q.activeBanksCount = p.activeBanksCount)
    (howner : q.bankOwnership = p.bankOwnership) : q.Counts := by
  have howned : ∀ t, q.owned t = p.owned t := fun t => by rw [owned, howner, owned]
  refine ⟨fun t => ?_,fun t => ?_,fun t => ?_⟩
  · rw [howned]
    exact h.finite t
  · rw [howned, hcount]
    exact h.count t
  · rw [howned, hthreads]
    exact h.thread t

/-- Every command keeps the counts. -/
theorem Counts.update (h : p.Counts) (quantumLength : ℕ) (issue : Option (Issue β)) :
    (p.update quantumLength issue).1.Counts := by
  have hattained : (({ p with clk := p.clk + 1 } : ATLASPlugin β).attainService).Counts :=
    h.of_eq rfl rfl rfl
  unfold ATLASPlugin.update
  cases issue with
  | none =>
    dsimp only
    split_ifs
    · exact hattained.of_eq rfl rfl rfl
    · exact hattained
  | some i =>
    dsimp only
    split_ifs
    · exact (hattained.track i).of_eq rfl rfl rfl
    · exact hattained.track i

/-- The owners after a command. -/
def owners (own : β → Option ℤ) (i : Issue β) : β → Option ℤ :=
  let own := if i.isOpening then Function.update own i.bank (some i.sourceId) else own
  if i.isClosing then Function.update own i.bank none else own

lemma release_owner (p : ATLASPlugin β) (bank : β) :
    (p.release bank).bankOwnership = Function.update p.bankOwnership bank none := by
  unfold ATLASPlugin.release
  cases ho : p.bankOwnership bank with
  | none => exact (Function.update_eq_self_iff.mpr ho.symm).symm
  | some owner => rfl

lemma track_owner (p : ATLASPlugin β) (i : Issue β) :
    (p.track i).bankOwnership = owners p.bankOwnership i := by
  have hopened : (p.opened i).bankOwnership =
      if i.isOpening then Function.update p.bankOwnership i.bank (some i.sourceId)
      else p.bankOwnership := by
    unfold ATLASPlugin.opened
    split_ifs <;> rfl
  unfold ATLASPlugin.track owners
  dsimp only
  rw [← hopened]
  split_ifs
  · exact release_owner _ i.bank
  · rfl

/-- Nothing but the command changes the owners. -/
lemma update_owner (p : ATLASPlugin β) (quantumLength : ℕ) (issue : Option (Issue β)) :
    (p.update quantumLength issue).1.bankOwnership =
      issue.elim p.bankOwnership (owners p.bankOwnership) := by
  unfold ATLASPlugin.update
  cases issue with
  | none =>
    dsimp only
    split_ifs <;> rfl
  | some i =>
    have htrack := track_owner (({ p with clk := p.clk + 1 } : ATLASPlugin β).attainService) i
    dsimp only
    split_ifs <;> exact htrack

lemma track_service (p : ATLASPlugin β) (i : Issue β) :
    (p.track i).clk = p.clk ∧ (p.track i).localAs = p.localAs := by
  have hopened : (p.opened i).clk = p.clk ∧ (p.opened i).localAs = p.localAs := by
    unfold ATLASPlugin.opened
    split_ifs <;> exact ⟨rfl,rfl⟩
  unfold ATLASPlugin.track
  split_ifs
  · unfold ATLASPlugin.release
    cases (p.opened i).bankOwnership i.bank <;> exact hopened
  · exact hopened

/-- The report of a cycle and the service that it leaves. -/
lemma update_service (p : ATLASPlugin β) (quantumLength : ℕ) (issue : Option (Issue β)) :
    ∃ m : ServiceMap, (∀ t, m.val t = p.localAs.val t + p.serviceGain t) ∧
      (p.update quantumLength issue).1.clk = p.clk + 1 ∧
      (p.update quantumLength issue).1.localAs =
        (if (p.clk + 1) % quantumLength = 0 then {} else m) ∧
      (p.update quantumLength issue).2 =
        if (p.clk + 1) % quantumLength = 0 then some m else none := by
  refine ⟨(({ p with clk := p.clk + 1 } : ATLASPlugin β).attainService).localAs,
    fun t => rfl,?_⟩
  unfold ATLASPlugin.update
  cases issue with
  | none =>
    dsimp only [attainService]
    split_ifs <;> exact ⟨rfl,rfl,rfl⟩
  | some i =>
    obtain ⟨hclk,has⟩ :=
      track_service (({ p with clk := p.clk + 1 } : ATLASPlugin β).attainService) i
    dsimp only
    rw [hclk, has]
    have hnext : (({ p with clk := p.clk + 1 } : ATLASPlugin β).attainService).clk = p.clk + 1 :=
      rfl
    rw [hnext]
    split_ifs
    · exact ⟨rfl,rfl,rfl⟩
    · exact ⟨hclk,has,rfl⟩

section Runs
variable (quantumLength : ℕ) (issues : ℕ → Option (Issue β))

theorem stateAt_counts (n : ℕ) : (stateAt quantumLength issues n).Counts := by
  induction n with
  | zero => exact Counts.empty
  | succ n ih => exact ih.update quantumLength (issues n)

/-- The banks that the thread owns before cycle n. -/
noncomputable def ownedAt (t : ℤ) (n : ℕ) : ℕ := ((stateAt quantumLength issues n).owned t).ncard

lemma quantum_start {q n : ℕ} (h : (n + 1) % q = 0) : n / q * q = n + 1 - q := by
  obtain ⟨m,hm⟩ := Nat.dvd_of_mod_eq_zero h
  cases m with
  | zero => omega
  | succ m =>
    have hq : 0 < q := Nat.pos_of_ne_zero fun h0 => by simp [h0] at hm
    have hn : n = q * m + (q - 1) := by
      rw [Nat.mul_succ] at hm
      omega
    rw [hn, Nat.mul_add_div hq, Nat.div_eq_of_lt (by omega), Nat.add_zero, Nat.mul_comm m q]
    omega

/-- The service since the start of the quantum. -/
lemma stateAt_service (n : ℕ) : (stateAt quantumLength issues n).clk = n ∧
    ∀ t, (stateAt quantumLength issues n).localAs.val t =
      ∑ i ∈ Finset.Ico (n / quantumLength * quantumLength) n,
        (ownedAt quantumLength issues t i : ℚ) := by
  induction n with
  | zero => exact ⟨rfl,fun t => by simp [stateAt]⟩
  | succ n ih =>
    obtain ⟨hclk,hsum⟩ := ih
    obtain ⟨m,hm,hclk',has,-⟩ :=
      update_service (stateAt quantumLength issues n) quantumLength (issues n)
    rw [hclk] at hclk' has
    refine ⟨hclk',fun t => ?_⟩
    rw [show stateAt quantumLength issues (n + 1) =
      ((stateAt quantumLength issues n).update quantumLength (issues n)).1 from rfl, has]
    split_ifs with hq
    · rw [Nat.div_mul_cancel (Nat.dvd_of_mod_eq_zero hq), Finset.Ico_self]
      rfl
    · rw [hm, hsum, (stateAt_counts quantumLength issues n).gain, Nat.succ_div_of_not_dvd
        fun hd => hq (Nat.mod_eq_zero_of_dvd hd),
        Finset.sum_Ico_succ_top (Nat.div_mul_le_self n quantumLength)]
      rfl

/-- The report of cycle n, if it ends a quantum. -/
theorem reportAt_service (n : ℕ) :
    ((reportAt quantumLength issues n).isSome = true ↔ (n + 1) % quantumLength = 0) ∧
    ∀ m, reportAt quantumLength issues n = some m → ∀ t, m.val t =
      ∑ i ∈ Finset.Ico (n + 1 - quantumLength) (n + 1),
        (ownedAt quantumLength issues t i : ℚ) := by
  obtain ⟨hclk,hsum⟩ := stateAt_service quantumLength issues n
  obtain ⟨m,hm,-,-,hreport⟩ :=
    update_service (stateAt quantumLength issues n) quantumLength (issues n)
  rw [hclk] at hreport
  rw [reportAt, hreport]
  split_ifs with hq
  · refine ⟨iff_of_true rfl hq,fun m' he t => ?_⟩
    obtain rfl := Option.some.inj he
    have hstart := quantum_start hq
    have hle := Nat.div_mul_le_self n quantumLength
    rw [hm, hsum, (stateAt_counts quantumLength issues n).gain, ← hstart,
      Finset.sum_Ico_succ_top hle]
    rfl
  · exact ⟨iff_of_false Bool.false_ne_true hq,fun m' he => (by cases he)⟩

end Runs
end ATLASPlugin

/-! The plugin of the repository: its banks are what stands above the row in an address vector
of any length, and a shorter vector is the bank with no coordinates. -/

/-- An issued request and the metadata of its command. -/
structure IssuedCommand where
  addrVec : List ℤ
  isOpening : Bool
  isClosing : Bool
  sourceId : ℤ

def bankAddrVec (rowLevel : ℕ) (addrVec : List ℤ) : List ℤ :=
  if rowLevel ≤ addrVec.length then addrVec.take rowLevel else []

def IssuedCommand.issue (rowLevel : ℕ) (r : IssuedCommand) : Issue (List ℤ) where
  bank := bankAddrVec rowLevel r.addrVec
  isOpening := r.isOpening
  isClosing := r.isClosing
  sourceId := r.sourceId

def issuesOf (rowLevel : ℕ) (commands : ℕ → Option IssuedCommand) (n : ℕ) :
    Option (Issue (List ℤ)) := (commands n).map (IssuedCommand.issue rowLevel)

open ATLASPlugin in
/-- In every cycle of every sequence of commands, each thread's count is the number of banks
that it owns, before the cycle and after its opening command, the closing command takes the
count of the owner not below zero, and the reports are the sums of the owned banks over the
cycles of their quantum. -/
theorem atlas_bank_counts (rowLevel quantumLength : ℕ) (commands : ℕ → Option IssuedCommand)
    (n : ℕ) :
    (∀ t, ((stateAt quantumLength (issuesOf rowLevel commands) n).owned t).Finite ∧
      (stateAt quantumLength (issuesOf rowLevel commands) n).activeBanksCount t =
        ((stateAt quantumLength (issuesOf rowLevel commands) n).owned t).ncard ∧
      0 ≤ (stateAt quantumLength (issuesOf rowLevel commands) n).activeBanksCount t) ∧
    (∀ r, commands n = some r → ∀ p,
      p = (stateAt quantumLength (issuesOf rowLevel commands) n).opened (r.issue rowLevel) →
      (∀ t, 0 ≤ p.activeBanksCount t) ∧ ∀ owner,
        p.bankOwnership (bankAddrVec rowLevel r.addrVec) = some owner →
          0 ≤ p.activeBanksCount owner - 1) ∧
    ((reportAt quantumLength (issuesOf rowLevel commands) n).isSome = true ↔
      (n + 1) % quantumLength = 0) ∧
    ∀ m, reportAt quantumLength (issuesOf rowLevel commands) n = some m → ∀ t, m.val t =
      ∑ i ∈ Finset.Ico (n + 1 - quantumLength) (n + 1),
        (((stateAt quantumLength (issuesOf rowLevel commands) i).owned t).ncard : ℚ) := by
  have h := stateAt_counts quantumLength (issuesOf rowLevel commands) n
  refine ⟨fun t => ⟨h.finite t,h.count t,h.nonneg t⟩,?_,
    reportAt_service quantumLength (issuesOf rowLevel commands) n⟩
  rintro r - p rfl
  have hopened := h.opened (r.issue rowLevel)
  exact ⟨hopened.nonneg,fun owner ho => hopened.owner_pos ho⟩

end CaLabs.Lab5
