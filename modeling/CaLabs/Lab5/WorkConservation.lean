import CaLabs.Lab5.Controller
import CaLabs.Lib.Selection
import Mathlib.Algebra.Order.Ring.Int
import Mathlib.Data.Prod.Lex

/-! When the schedulers of lab 5 find a ready request: only the requests that they prefer by
thread are compared by readiness. -/
namespace CaLabs.Lab5
open Lib Controller

namespace Scheduler
variable (e : Cycle)

/-- The criteria that compare looks at before it looks at the commands. -/
def threadKey : Scheduler → Request → ℕ ×ₗ ℕ
  | ATLAS,r =>
    toLex (if e.threshold < e.currentClk - r.arrive then 0 else 1,e.rank r.sourceId)
  | BLISS,r => toLex (if r.sourceId ∈ e.blacklist then 1 else 0,0)
  | FCFS,_ => toLex (0,0)

/-- All criteria of compare: thread, readiness, age. -/
def requestKey (s : Scheduler) (r : Request) : (ℕ ×ₗ ℕ) ×ₗ ℕ ×ₗ ℤ :=
  toLex (s.threadKey e r,toLex (if s = FCFS ∨ isReady e r = true then 0 else 1,r.arrive))

variable {e}

/-- The last two criteria: ready requests first, then the older one. -/
lemma ready_then_age_iff (ready1 ready2 : Bool) (arrive1 arrive2 : ℤ) :
    (if ready1 ≠ ready2 then ready1
      else if arrive1 ≠ arrive2 then decide (arrive1 < arrive2) else true) = true ↔
    (toLex (if ready1 = true then 0 else 1,arrive1) : ℕ ×ₗ ℤ) ≤
      toLex (if ready2 = true then 0 else 1,arrive2) := by
  have hage : arrive1 = arrive2 ∨ arrive1 < arrive2 ↔ arrive1 ≤ arrive2 := by omega
  rw [Prod.Lex.toLex_le_toLex]
  cases ready1 <;> cases ready2 <;> simp [hage]

/-- The pairwise comparison is the one of a linear order. -/
lemma compare_iff (s : Scheduler) (req1 req2 : Request) :
    s.compare e req1 req2 = true ↔ s.requestKey e req1 ≤ s.requestKey e req2 := by
  rw [requestKey, requestKey, Prod.Lex.toLex_le_toLex]
  cases s with
  | ATLAS =>
    have hlast := ready_then_age_iff (isReady e req1) (isReady e req2) req1.arrive req2.arrive
    simp only [reduceCtorEq, false_or, ← hlast, threadKey, Prod.Lex.toLex_lt_toLex,
      EmbeddingLike.apply_eq_iff_eq, Prod.mk.injEq, compare]
    by_cases h1 : e.threshold < e.currentClk - req1.arrive <;>
      by_cases h2 : e.threshold < e.currentClk - req2.arrive
    · by_cases hr : e.rank req1.sourceId = e.rank req2.sourceId <;> simp [h1, h2, hr, isReady]
    · simp [h1, h2]
    · simp [h1, h2]
    · by_cases hr : e.rank req1.sourceId = e.rank req2.sourceId <;> simp [h1, h2, hr, isReady]
  | BLISS =>
    have hlast := ready_then_age_iff (isReady e req1) (isReady e req2) req1.arrive req2.arrive
    simp only [reduceCtorEq, false_or, ← hlast, threadKey, Prod.Lex.toLex_lt_toLex,
      EmbeddingLike.apply_eq_iff_eq, Prod.mk.injEq, compare]
    by_cases h1 : req1.sourceId ∈ e.blacklist <;> by_cases h2 : req2.sourceId ∈ e.blacklist <;>
      simp [h1, h2, isReady]
  | FCFS =>
    simp [compare, threadKey, Prod.Lex.toLex_le_toLex]

/-- The loop of get_best_request is a selection by the key. -/
lemma bestLoop_eq (s : Scheduler) (candidate : ℕ × Request) (next : ℕ) (rest : List Request) :
    some (s.bestLoop e candidate next rest).swap =
      (rest.zipIdx next).foldl (selectStep (s.requestKey e) fun _ => true)
        (some candidate.swap) := by
  induction rest generalizing candidate next with
  | nil => rfl
  | cons r rest ih =>
    rw [bestLoop, ih, List.zipIdx_cons, List.foldl_cons]
    congr 1
    simp only [selectStep, if_true, Prod.fst_swap]
    by_cases hlt : s.requestKey e r < s.requestKey e candidate.2
    · have hc : ¬s.compare e candidate.2 r = true := by
        rw [compare_iff]
        exact not_le_of_gt hlt
      rw [if_neg hc, if_pos hlt]
      rfl
    · have hc : s.compare e candidate.2 r = true := by
        rw [compare_iff]
        exact not_lt.mp hlt
      rw [if_pos hc, if_neg hlt]

/-- The best request is the first one with the least key. -/
theorem getBestRequest_selected (s : Scheduler) {l : List Request} (hl : l ≠ []) :
    ∃ i r, s.getBestRequest e l = some (i,r) ∧
      Selected (s.requestKey e) (fun _ => true) l r i := by
  cases l with
  | nil => exact absurd rfl hl
  | cons r rest =>
    refine ⟨_,_,rfl,select_eq_some_iff.mp ?_⟩
    rw [select, List.zipIdx_cons, List.foldl_cons]
    exact (bestLoop_eq s (0,r) 1 rest).symm

/-- No request of the buffer comes before this one by the thread-level criteria. -/
def Preferred (e : Cycle) (s : Scheduler) (l : List Request) (r : Request) : Prop :=
  r ∈ l ∧ ∀ r' ∈ l, s.threadKey e r ≤ s.threadKey e r'

/-- The best request is preferred, and ready if any preferred one is. -/
theorem getBestRequest_ready_iff {s : Scheduler} (hs : s ≠ FCFS) {l : List Request}
    (hl : l ≠ []) : ∃ i r, s.getBestRequest e l = some (i,r) ∧ Preferred e s l r ∧
      (isReady e r = true ↔ ∃ r', Preferred e s l r' ∧ isReady e r' = true) := by
  obtain ⟨i,r,hbest,hsel⟩ := getBestRequest_selected (e := e) s hl
  have hmem : r ∈ l := List.mem_of_getElem? hsel.stands
  have hle : ∀ r' ∈ l, s.requestKey e r ≤ s.requestKey e r' := fun r' hr' => hsel.le hr' rfl
  have hthread : Preferred e s l r := by
    refine ⟨hmem,fun r' hr' => ?_⟩
    have h := hle r' hr'
    rw [requestKey, requestKey, Prod.Lex.toLex_le_toLex] at h
    exact h.elim le_of_lt fun h => le_of_eq h.1
  refine ⟨i,r,hbest,hthread,fun h => ⟨r,hthread,h⟩,?_⟩
  rintro ⟨r',hr',hready⟩
  have heq : s.threadKey e r' = s.threadKey e r :=
    le_antisymm (hr'.2 r hmem) (hthread.2 r' hr'.1)
  have h := hle r' hr'.1
  rw [requestKey, requestKey, Prod.Lex.toLex_le_toLex, heq] at h
  have hsecond := (h.resolve_left (lt_irrefl _)).2
  rw [Prod.Lex.toLex_le_toLex] at hsecond
  by_contra hnot
  simp [hs, hready, hnot] at hsecond

end Scheduler

namespace Controller
open Scheduler
variable {c : Controller} {e : Cycle}

/-- Some preferred request of the buffer could issue its command. -/
def PreferredReady (c : Controller) (e : Cycle) (b : BufferName) : Prop :=
  ∃ r, Preferred e c.scheduler ((c.buffer b).map c.withCommand) r ∧ isReady e r = true

lemma best_ready (hs : c.scheduler ≠ .FCFS) {b : BufferName} (h : c.PreferredReady e b) :
    ∃ i r, c.best e b = some (i,r) ∧ isReady e r = true := by
  obtain ⟨r₀,hr₀⟩ := h
  have hne : (c.buffer b).map c.withCommand ≠ [] := List.ne_nil_of_mem hr₀.1.1
  obtain ⟨i,r,hbest,-,hiff⟩ := getBestRequest_ready_iff (e := e) hs hne
  exact ⟨i,r,hbest,hiff.mpr ⟨r₀,hr₀⟩⟩

lemma best_not_ready (hs : c.scheduler ≠ .FCFS) {b : BufferName}
    (h : ¬c.PreferredReady e b) : ((c.best e b).filter fun p => isReady e p.2) = none := by
  by_cases hne : (c.buffer b).map c.withCommand = []
  · rw [best, hne]
    rfl
  · obtain ⟨i,r,hbest,-,hiff⟩ := getBestRequest_ready_iff (e := e) hs hne
    have hnot : isReady e r = false := by
      by_contra hr
      exact h (hiff.mp (by simpa using hr))
    rw [best, hbest, Option.filter_some, hnot]
    rfl

/-- The buffer whose preferred requests decide whether a request is found: the active one, or
else, with no maintenance request waiting, the one that the write policy serves. -/
def Serves (c : Controller) (e : Cycle) (b : BufferName) : Prop :=
  b = .active ∨ (b = c.served ∧ ¬c.PreferredReady e .active ∧ c.priorityBuffer = [])

lemma findRequest_of_serves (hs : c.scheduler ≠ .FCFS) {b : BufferName} (hb : c.Serves e b)
    (h : c.PreferredReady e b) : ∃ i r, (c.findRequest e).1 = some (b,i,r) ∧
      c.best e b = some (i,r) ∧ isReady e r = true := by
  obtain ⟨i,r,hbest,hready⟩ := best_ready hs h
  refine ⟨i,r,?_,hbest,hready⟩
  rcases hb with rfl | ⟨rfl,hactive,hprio⟩
  · simp only [findRequest, hbest, Option.filter_some, hready, if_true]
  · simp only [findRequest, best_not_ready hs hactive, hprio, hbest, Option.filter_some, hready,
      if_true, Option.map_some]

end Controller
open Scheduler

/-- ATLAS and BLISS return a ready request exactly if one that they prefer by thread is ready;
the controller then finds it, and issues its command unless that closes an active row. -/
theorem getBestRequest_workConserving {s : Scheduler} (hs : s = .ATLAS ∨ s = .BLISS) :
    (∀ e l, l ≠ [] → ∃ i r, s.getBestRequest e l = some (i,r) ∧ l[i]? = some r ∧
      (isReady e r = true ↔ ∃ r', Preferred e s l r' ∧ isReady e r' = true)) ∧
    ∀ (c : Controller) (e : Cycle) (b : BufferName), c.scheduler = s → c.Serves e b →
      c.PreferredReady e b → ∃ i r, c.best e b = some (i,r) ∧ isReady e r = true ∧
        (c.closesActive r = false → c.scheduleRequest e = some (b,i,r)) := by
  have hne : s ≠ .FCFS := by
    rcases hs with rfl | rfl <;> decide
  constructor
  · intro e l hl
    obtain ⟨i,r,hbest,-,hiff⟩ := getBestRequest_ready_iff (e := e) hne hl
    exact ⟨i,r,hbest,getBestRequest_mem hbest,hiff⟩
  · rintro c e b rfl hb h
    obtain ⟨i,r,hfind,hbest,hready⟩ := findRequest_of_serves hne hb h
    refine ⟨i,r,hbest,hready,fun hclose => ?_⟩
    rw [scheduleRequest, hfind, Option.filter_some, hclose]
    rfl

/-- A read of source 0 that is not ready and one of source 1 that is. -/
def maskedReads : List Request :=
  [{ addrVec := ⟨0,0,0,0,0,0⟩, type := .read, sourceId := 0, command := .RD, finalCommand := .RD },
    { addrVec := ⟨0,0,0,1,1,0⟩, type := .read, sourceId := 1, command := .RD,
      finalCommand := .RD }]

def maskedController (s : Scheduler) : Controller :=
  { org := ⟨1,2⟩, scheduler := s, readBuffer := maskedReads }

/-- Only the second bank is ready; source 0 has the better rank and is not blacklisted. -/
def maskedCycle : Cycle where
  checkReady := fun _ a => a.bank = 1
  rank := Int.toNat
  blacklist := [1]

/-- ATLAS and BLISS answer with the read of source 0, and no command is issued. -/
theorem getBestRequest_masks_ready :
    ((∃ r ∈ (maskedController .ATLAS).buffer (maskedController .ATLAS).served,
        isReady maskedCycle ((maskedController .ATLAS).withCommand r) = true) ∧
      ((maskedController .ATLAS).best maskedCycle .read).map (fun p => isReady maskedCycle p.2) =
        some false ∧
      (maskedController .ATLAS).scheduleRequest maskedCycle = none) ∧
    (∃ r ∈ (maskedController .BLISS).buffer (maskedController .BLISS).served,
        isReady maskedCycle ((maskedController .BLISS).withCommand r) = true) ∧
      ((maskedController .BLISS).best maskedCycle .read).map (fun p => isReady maskedCycle p.2) =
        some false ∧
      (maskedController .BLISS).scheduleRequest maskedCycle = none := by
  decide

/-- The same buffer when every bank is ready. -/
theorem getBestRequest_workConserving_masked :
    ∃ i r, Scheduler.BLISS.getBestRequest { maskedCycle with checkReady := fun _ _ => true }
        maskedReads = some (i,r) ∧ maskedReads[i]? = some r ∧
      (isReady { maskedCycle with checkReady := fun _ _ => true } r = true ↔
        ∃ r', Preferred { maskedCycle with checkReady := fun _ _ => true } .BLISS maskedReads r' ∧
          isReady { maskedCycle with checkReady := fun _ _ => true } r' = true) :=
  (getBestRequest_workConserving (.inr rfl)).1 _ maskedReads (by decide)

end CaLabs.Lab5
