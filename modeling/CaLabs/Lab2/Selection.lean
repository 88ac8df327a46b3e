import CaLabs.Lab2.Scheduling
import CaLabs.Lib.Selection
import Mathlib.Data.Prod.Lex

/-! The request that the memory controller selects is the first-ready, first-come one. -/
namespace CaLabs.Lab2
open Mips Lib

/-- FR-FCFS: row buffer hits, then earlier arrivals, then requests of the memory stage. -/
def frFcfs (mc : MemController) (r : MemRequest) : ℕ ×ₗ ℕ ×ₗ ℕ :=
  let status := getRowBufferStatus (mc.banks (getBankIndex r.address)) (getRowIndex r.address)
  toLex (if status = .rowBufferHit then 0 else 1,
    toLex (r.arrivalCycle.toNat,if r.fromMemStage then 0 else 1))

lemma rowBufferHit_iff (mc : MemController) (address : Word) :
    getRowBufferStatus (mc.banks (getBankIndex address)) (getRowIndex address) = .rowBufferHit ↔
      isRowHit mc address = true := by
  unfold getRowBufferStatus isRowHit
  generalize mc.banks (getBankIndex address) = bank
  by_cases hopen : bank.hasOpenRow = true <;>
    by_cases hrow : bank.openRow = getRowIndex address <;> simp [hopen, hrow]

/-- The comparison of the loop is the one of the order. -/
lemma beats_iff (mc : MemController) (curr best : MemRequest) :
    beats mc curr best = true ↔ frFcfs mc curr < frFcfs mc best := by
  simp only [frFcfs, rowBufferHit_iff, beats, Prod.Lex.toLex_lt_toLex, BitVec.lt_def,
    BitVec.toNat_eq]
  cases isRowHit mc curr.address <;> cases isRowHit mc best.address <;>
    cases curr.fromMemStage <;> cases best.fromMemStage <;> simp

/-- Whether the loop looks at the bank of the request at all, and finds the request fit. -/
def isEligible (mc : MemController) (t : Word) (r : MemRequest) : Bool :=
  r.valid && !decide (t < r.arrivalCycle) && isRequestSchedulable mc r.address t

lemma isEligible_iff (mc : MemController) (t : Word) (r : MemRequest) :
    isEligible mc t r = true ↔ Eligible mc t r := by
  unfold isEligible
  simp only [Bool.and_eq_true, Bool.not_eq_true', decide_eq_false_iff_not]
  exact ⟨fun ⟨⟨hv,ha⟩,hs⟩ => ⟨hv,ha,hs⟩,fun ⟨hv,ha,hs⟩ => ⟨⟨hv,ha⟩,hs⟩⟩

lemma considerRequest_eq (mc : MemController) (t : Word) :
    considerRequest mc t = selectStep (frFcfs mc) (isEligible mc t) := by
  funext best entry
  unfold considerRequest selectStep
  cases hv : entry.1.valid <;> by_cases ha : t < entry.1.arrivalCycle <;>
    cases hs : isRequestSchedulable mc entry.1.address t <;>
    simp only [isEligible, hv, ha, hs, Bool.not_true, Bool.not_false, Bool.or_true, Bool.or_false,
      Bool.and_true, Bool.and_false, decide_true, decide_false, if_true, if_false,
      Bool.false_eq_true]
  cases best with
  | none => rfl
  | some b =>
    by_cases hb : frFcfs mc entry.1 < frFcfs mc b.1
    · simp only [(beats_iff mc entry.1 b.1).mpr hb, hb, if_true]
    · have hbeats : beats mc entry.1 b.1 = false := by
        rw [← Bool.not_eq_true, beats_iff]
        exact hb
      simp only [hbeats, hb, if_false, Bool.false_eq_true]

lemma selectRequestToSchedule_eq (mc : MemController) (t : Word) :
    selectRequestToSchedule mc t = select (frFcfs mc) (isEligible mc t) mc.queue := by
  rw [selectRequestToSchedule, considerRequest_eq, select]

/-- The request that is eligible and comes before all other eligible ones is selected. -/
lemma selectRequestToSchedule_first {mc : MemController} {t : Word} {req : MemRequest} {j : ℕ}
    (hj : mc.queue[j]? = some req) (he : Eligible mc t req)
    (hfirst : ∀ (k : ℕ) r, mc.queue[k]? = some r → Eligible mc t r → k ≠ j →
      frFcfs mc req < frFcfs mc r) : selectRequestToSchedule mc t = some (req,j) := by
  rw [selectRequestToSchedule_eq, select_eq_some_iff]
  refine ⟨hj,(isEligible_iff mc t req).mpr he,fun k r hk hr => ?_⟩
  by_cases hkj : k = j
  · subst hkj
    rw [hj] at hk
    exact .inr ⟨by rw [Option.some.inj hk],le_rfl⟩
  · exact .inl (hfirst k r hk ((isEligible_iff mc t r).mp hr) hkj)

/-- Nothing is selected exactly if no request is eligible, and a request exactly if it is
eligible, no eligible one comes before it in the order and no equal one before it in the queue. -/
theorem selectRequestToSchedule_frFcfs (mc : MemController) (t : Word) :
    (selectRequestToSchedule mc t = none ↔ ∀ r ∈ mc.queue, ¬ Eligible mc t r) ∧
    ∀ req j, selectRequestToSchedule mc t = some (req,j) ↔
      mc.queue[j]? = some req ∧ Eligible mc t req ∧
        ∀ (k : ℕ) r, mc.queue[k]? = some r → Eligible mc t r →
          frFcfs mc req < frFcfs mc r ∨ (frFcfs mc req = frFcfs mc r ∧ j ≤ k) := by
  rw [selectRequestToSchedule_eq]
  constructor
  · rw [select_eq_none_iff]
    refine forall₂_congr fun r _ => ?_
    rw [← isEligible_iff, Bool.not_eq_true]
  · intro req j
    rw [select_eq_some_iff]
    constructor
    · rintro ⟨hj,hp,hbest⟩
      refine ⟨hj,(isEligible_iff mc t req).mp hp,fun k r hk hr => ?_⟩
      exact hbest k r hk ((isEligible_iff mc t r).mpr hr)
    · rintro ⟨hj,he,hbest⟩
      refine ⟨hj,(isEligible_iff mc t req).mpr he,fun k r hk hr => ?_⟩
      exact hbest k r hk ((isEligible_iff mc t r).mp hr)

end CaLabs.Lab2
