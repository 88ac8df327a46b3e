import CaLabs.Lab2.FirstFetch
import CaLabs.Lab2.Selection

/-! The queue of the controller points into the MSHRs: as long as no request has to wait for
longer than a cycle, the two stay in step. A request that waits for longer is marked as done, and
the stage that waits for it frees its MSHR. -/
namespace CaLabs.Lab2
open Mips Pipeline

/-- A request of the queue that has not been issued. -/
def Waits (mc : MemController) (j : ℕ) (r : MemRequest) : Prop :=
  mc.queue[j]? = some r ∧ r.valid = true

/-- Every waiting request belongs to the miss of its MSHR, and no two have the same one. -/
structure InStep (mshrs : MshrFile) (mc : MemController) : Prop where
  valid : ∀ j r, Waits mc j r → (mshrs r.mshr).valid = true
  address : ∀ j r, Waits mc j r → (mshrs r.mshr).address = r.address
  marked : ∀ j r, Waits mc j r → (mshrs r.mshr).fillReadyCycle ≠ 0
  distinct : ∀ j k r r', Waits mc j r → Waits mc k r' → r.mshr = r'.mshr → j = k
  capacity : mc.queue.length = 256

section Steps
variable {mshrs mshrs' : MshrFile} {mc mc' : MemController} {t : Word}

/-- Only the MSHRs that waiting requests point to matter. -/
lemma InStep.map (h : InStep mshrs mc)
    (hsame : ∀ j r, Waits mc j r → (mshrs' r.mshr).SameUse (mshrs r.mshr) ∧
      (mshrs' r.mshr).fillReadyCycle = (mshrs r.mshr).fillReadyCycle) : InStep mshrs' mc where
  valid j r hr := (hsame j r hr).1.valid ▸ h.valid j r hr
  address j r hr := (hsame j r hr).1.address ▸ h.address j r hr
  marked j r hr := by
    rw [(hsame j r hr).2]
    exact h.marked j r hr
  distinct := h.distinct
  capacity := h.capacity

lemma InStep.markFills (h : InStep mshrs mc) : InStep (markFills mshrs t) mc := by
  refine h.map fun j r _ => ?_
  unfold Lab2.markFills
  split_ifs <;> exact ⟨⟨rfl,rfl⟩,rfl⟩

lemma InStep.requested {address : Word} (h : InStep mshrs mc)
    (hr : Requested mshrs address mshrs') : InStep mshrs' mc := by
  refine h.map fun j r hw => ?_
  rw [hr.of_valid (h.valid j r hw)]
  exact ⟨⟨rfl,rfl⟩,rfl⟩

/-- A request in a free place, besides the ones that wait already. -/
lemma waits_set {j k : ℕ} {req r : MemRequest} {size : ℕ} (hj : j < mc.queue.length)
    (h : Waits { mc with queue := mc.queue.set j req, queueSize := size } k r) :
    (k = j ∧ r = req) ∨ (k ≠ j ∧ Waits mc k r) := by
  obtain ⟨hk,hv⟩ := h
  by_cases he : k = j
  · subst he
    rw [List.getElem?_set_self hj] at hk
    exact .inl ⟨rfl,(Option.some.inj hk).symm⟩
  · rw [List.getElem?_set_ne (Ne.symm he)] at hk
    exact .inr ⟨he,hk,hv⟩

/-- A new miss is queued: its MSHR is not marked yet, so that no waiting request has it. -/
lemma InStep.queueMiss {i : Fin numMshr} {p : MshrFile × MemController} (h : InStep mshrs mc)
    (hq : queueMiss t (mshrs,mc) i = .ok p) : InStep p.1 p.2 := by
  obtain ⟨-,rfl⟩ | ⟨hu,j,hj,hfree,rfl⟩ := queueMiss_cases hq
  · exact h
  have hmiss : (mshrs i).valid = true ∧ (mshrs i).fillReadyCycle = 0 := by
    simp only [isUnqueuedMiss, Bool.and_eq_true, beq_iff_eq] at hu
    exact ⟨hu.1.1,hu.2⟩
  have hcases : ∀ k r, Waits { mc with
      queue := mc.queue.set j (requestFor mshrs i t)
      queueSize := mc.queueSize + 1 } k r →
      (k = j ∧ r = requestFor mshrs i t) ∨ (k ≠ j ∧ Waits mc k r ∧ r.mshr ≠ i) := by
    intro k r hw
    refine (waits_set hj hw).imp_right fun hr => ⟨hr.1,hr.2,fun hi => h.marked k r hr.2 ?_⟩
    rw [hi]
    exact hmiss.2
  have hself : (Function.update mshrs i { mshrs i with fillReadyCycle := 1 })
      (requestFor mshrs i t).mshr = { mshrs i with fillReadyCycle := 1 } :=
    Function.update_self i _ mshrs
  dsimp only
  refine ⟨fun k r hr => ?_,fun k r hr => ?_,fun k r hr => ?_,fun k l r r' hr hr' he => ?_,?_⟩
  · obtain ⟨-,rfl⟩ | ⟨-,hr,hne⟩ := hcases k r hr
    · rw [hself]
      exact hmiss.1
    · rw [Function.update_of_ne hne]
      exact h.valid k r hr
  · obtain ⟨-,rfl⟩ | ⟨-,hr,hne⟩ := hcases k r hr
    · rw [hself]
      rfl
    · rw [Function.update_of_ne hne]
      exact h.address k r hr
  · obtain ⟨-,rfl⟩ | ⟨-,hr,hne⟩ := hcases k r hr
    · rw [hself]
      exact (by decide : (1 : Word) ≠ 0)
    · rw [Function.update_of_ne hne]
      exact h.marked k r hr
  · obtain ⟨rfl,rfl⟩ | ⟨hk,hr,hne⟩ := hcases k r hr
    · obtain ⟨rfl,-⟩ | ⟨-,-,hne⟩ := hcases l r' hr'
      · rfl
      · exact absurd he.symm hne
    · obtain ⟨rfl,rfl⟩ | ⟨-,hr',-⟩ := hcases l r' hr'
      · exact absurd he hne
      · exact h.distinct k l r r' hr hr' he
  · rw [List.length_set, h.capacity]

lemma InStep.queueMisses (h : InStep mshrs mc) (hq : queueMisses mshrs mc t = .ok (mshrs',mc')) :
    InStep mshrs' mc' := by
  refine Lib.foldlM_invariant (P := fun p : MshrFile × MemController => InStep p.1 p.2) h ?_ hq
  rintro ⟨ms,m⟩ p i - hp hstep
  exact hp.queueMiss hstep

/-- What still waits after the schedule has waited before, and is not what was issued. -/
lemma scheduleRequest_waits (hs : scheduleRequest mshrs mc t = (mshrs',mc')) {k : ℕ}
    {r : MemRequest} (hr : Waits mc' k r) :
    Waits mc k r ∧ ∀ req j, selectRequestToSchedule mc t = some (req,j) → k ≠ j := by
  unfold Lab2.scheduleRequest at hs
  cases hsel : selectRequestToSchedule mc t with
  | none =>
    simp only [hsel, Prod.mk.injEq] at hs
    obtain ⟨rfl,rfl⟩ := hs
    exact ⟨hr,fun _ _ h => (by cases h)⟩
  | some entry =>
    obtain ⟨req,j⟩ := entry
    simp only [hsel, issueDramRequest, Prod.mk.injEq] at hs
    obtain ⟨rfl,rfl⟩ := hs
    obtain ⟨hk,hv⟩ := hr
    rw [List.getElem?_modify] at hk
    by_cases he : j = k
    · subst he
      rw [(selectRequestToSchedule_spec hsel).1] at hk
      simp only [if_true, Option.map_eq_map, Option.map_some, Option.some.injEq] at hk
      rw [← hk] at hv
      cases hv
    · simp only [if_neg he, Option.map_eq_map, Option.map_id'] at hk
      refine ⟨⟨hk,hv⟩,fun req' j' h => ?_⟩
      obtain ⟨-,rfl⟩ := Prod.mk.inj (Option.some.inj h)
      exact Ne.symm he

/-- The MSHRs of other requests than the issued one are left alone. -/
lemma scheduleRequest_mshrs (hs : scheduleRequest mshrs mc t = (mshrs',mc')) {i : Fin numMshr}
    (hi : ∀ req j, selectRequestToSchedule mc t = some (req,j) → i ≠ req.mshr) :
    mshrs' i = mshrs i := by
  unfold Lab2.scheduleRequest at hs
  cases hsel : selectRequestToSchedule mc t with
  | none =>
    simp only [hsel, Prod.mk.injEq] at hs
    rw [← hs.1]
  | some entry =>
    obtain ⟨req,j⟩ := entry
    simp only [hsel, issueDramRequest, Prod.mk.injEq] at hs
    rw [← hs.1]
    exact Function.update_of_ne (hi req j hsel) _ _

lemma scheduleRequest_length (hs : scheduleRequest mshrs mc t = (mshrs',mc')) :
    mc'.queue.length = mc.queue.length := by
  unfold Lab2.scheduleRequest at hs
  cases hsel : selectRequestToSchedule mc t with
  | none =>
    simp only [hsel, Prod.mk.injEq] at hs
    rw [← hs.2]
  | some entry =>
    obtain ⟨req,j⟩ := entry
    simp only [hsel, issueDramRequest, Prod.mk.injEq] at hs
    rw [← hs.2]
    exact List.length_modify _ _ _

/-- No other request has the MSHR of the issued one. -/
lemma schedule_waits
    (hd : ∀ j k r r', Waits mc j r → Waits mc k r' → r.mshr = r'.mshr → j = k)
    (hs : scheduleRequest mshrs mc t = (mshrs',mc')) {k : ℕ} {r : MemRequest}
    (hr : Waits mc' k r) : Waits mc k r ∧ mshrs' r.mshr = mshrs r.mshr := by
  obtain ⟨hk,hne⟩ := scheduleRequest_waits hs hr
  refine ⟨hk,scheduleRequest_mshrs hs fun req j hsel hm => hne req j hsel ?_⟩
  obtain ⟨hj,helig⟩ := selectRequestToSchedule_spec hsel
  exact hd k j r req hk ⟨hj,helig.valid⟩ hm

/-- The issued request leaves the queue. -/
lemma InStep.scheduleRequest (h : InStep mshrs mc)
    (hs : Lab2.scheduleRequest mshrs mc t = (mshrs',mc')) : InStep mshrs' mc' := by
  refine ⟨fun k r hr => ?_,fun k r hr => ?_,fun k r hr => ?_,fun k l r r' hr hr' he => ?_,?_⟩
  · obtain ⟨hk,hsame⟩ := schedule_waits h.distinct hs hr
    rw [hsame]
    exact h.valid k r hk
  · obtain ⟨hk,hsame⟩ := schedule_waits h.distinct hs hr
    rw [hsame]
    exact h.address k r hk
  · obtain ⟨hk,hsame⟩ := schedule_waits h.distinct hs hr
    rw [hsame]
    exact h.marked k r hk
  · exact h.distinct k l r r' (schedule_waits h.distinct hs hr).1
      (schedule_waits h.distinct hs hr').1 he
  · rw [scheduleRequest_length hs, h.capacity]

/-- Sixteen MSHRs, so at most sixteen waiting requests. -/
theorem InStep.waiting_le (h : InStep mshrs mc) :
    (mc.queue.filter (·.valid)).length ≤ numMshr := by
  have hpair : mc.queue.Pairwise fun r r' => r.valid = true → r'.valid = true →
      r.mshr ≠ r'.mshr := by
    rw [List.pairwise_iff_getElem]
    intro j k hj hk hjk hv hv' he
    have heq := h.distinct j k _ _ ⟨List.getElem?_eq_getElem hj,hv⟩
      ⟨List.getElem?_eq_getElem hk,hv'⟩ he
    omega
  have hnodup : ((mc.queue.filter (·.valid)).map (·.mshr)).Nodup := by
    rw [List.Nodup, List.pairwise_map, List.pairwise_filter]
    exact hpair
  have hcard := hnodup.length_le_card
  rwa [List.length_map, Fintype.card_fin] at hcard

/-- There is always a place in the queue. -/
lemma InStep.queueMiss_ok {i : Fin numMshr} (h : InStep mshrs mc) :
    ∃ p, Lab2.queueMiss t (mshrs,mc) i = .ok p := by
  cases hq : Lab2.queueMiss t (mshrs,mc) i with
  | ok p => exact ⟨p,rfl⟩
  | error e =>
    simp only [Lab2.queueMiss] at hq
    split_ifs at hq
    cases hf : mc.queue.findIdx? fun r => !r.valid with
    | some j => simp [hf] at hq
    | none =>
      have hall : mc.queue.filter (·.valid) = mc.queue := by
        rw [List.filter_eq_self]
        intro r hr
        simpa using List.findIdx?_eq_none_iff.mp hf r hr
      have hle := h.waiting_le
      rw [hall, h.capacity] at hle
      exact absurd hle (by decide)

lemma InStep.foldlM_ok (h : InStep mshrs mc) (l : List (Fin numMshr)) :
    ∃ p, l.foldlM (Lab2.queueMiss t) (mshrs,mc) = .ok p := by
  induction l generalizing mshrs mc with
  | nil => exact ⟨_,rfl⟩
  | cons i l ih =>
    obtain ⟨⟨ms,m⟩,hp⟩ := h.queueMiss_ok (t := t) (i := i)
    obtain ⟨q,hq⟩ := ih (h.queueMiss hp)
    exact ⟨q,by rw [List.foldlM_cons, hp]; exact hq⟩

lemma InStep.controller {l2cache l2cache' : Cache} (h : InStep mshrs mc)
    (hc : memoryControllerCycle mshrs mc l2cache t = .ok (mshrs',mc',l2cache')) :
    InStep mshrs' mc' := by
  obtain ⟨m₁,c₁,hq,hs,-⟩ := memoryControllerCycle_ok hc
  exact (h.markFills.queueMisses hq).scheduleRequest hs

/-- The controller does not abort. -/
lemma InStep.controller_ok (l2cache : Cache) (h : InStep mshrs mc) :
    ∃ p, memoryControllerCycle mshrs mc l2cache t = .ok p := by
  obtain ⟨⟨m₁,c₁⟩,hq⟩ := (h.markFills (t := t)).foldlM_ok (t := t) (List.finRange numMshr)
  have hq' : Lab2.queueMisses (Lab2.markFills mshrs t) mc t = .ok (m₁,c₁) := hq
  exact ⟨_,by simp only [memoryControllerCycle, hq', bind, Except.bind]; rfl⟩

/-- What the second loop leaves: the old requests and one for each new miss, whose MSHR is marked
with the cycle 1. -/
structure Queued (mshrs : MshrFile) (mc : MemController) (t : Word) (mshrs' : MshrFile)
    (mc' : MemController) : Prop where
  kept : ∀ j r, Waits mc j r → Waits mc' j r
  new : ∀ j r, Waits mc' j r → Waits mc j r ∨
    ∃ i, isUnqueuedMiss (mshrs i) = true ∧ r = requestFor mshrs i t
  slots : ∀ i, mshrs' i = mshrs i ∨ mshrs' i = { mshrs i with fillReadyCycle := 1 }

lemma Queued.queueMiss {ms : MshrFile} {m : MemController} {p : MshrFile × MemController}
    {i : Fin numMshr} (h : Queued mshrs mc t ms m) (hq : Lab2.queueMiss t (ms,m) i = .ok p) :
    Queued mshrs mc t p.1 p.2 := by
  obtain ⟨-,rfl⟩ | ⟨hu,j,hj,hfree,rfl⟩ := queueMiss_cases hq
  · exact h
  have hi : ms i = mshrs i := (h.slots i).resolve_right fun he => by
    rw [he, isUnqueuedMiss, Bool.and_eq_true] at hu
    exact absurd (show ((1 : Word) == 0) = true from hu.2) (by decide)
  dsimp only
  refine ⟨fun k r hr => ?_,fun k r hr => ?_,fun k => ?_⟩
  · obtain ⟨hk,hv⟩ := h.kept k r hr
    have hne : j ≠ k := fun he => by
      subst he
      rw [List.getElem?_eq_getElem hj, Option.some.injEq] at hk
      rw [← hk, hfree] at hv
      cases hv
    exact ⟨(List.getElem?_set_ne hne).trans hk,hv⟩
  · rcases waits_set hj hr with ⟨-,rfl⟩ | ⟨-,hold⟩
    · refine .inr ⟨i,hi ▸ hu,?_⟩
      simp only [requestFor, hi]
    · exact h.new k r hold
  · by_cases he : k = i
    · subst he
      refine .inr ?_
      rw [Function.update_self, hi]
    · rw [Function.update_of_ne he]
      exact h.slots k

lemma queueMisses_queued (hq : Lab2.queueMisses mshrs mc t = .ok (mshrs',mc')) :
    Queued mshrs mc t mshrs' mc' := by
  refine Lib.foldlM_invariant
    (P := fun p : MshrFile × MemController => Queued mshrs mc t p.1 p.2)
    ⟨fun _ _ h => h,fun _ _ h => .inl h,fun _ => .inl rfl⟩ ?_ hq
  rintro ⟨ms,m⟩ p i - hp hstep
  exact Queued.queueMiss hp hstep

/-- When the controller is called at most one request waits from an earlier cycle, and it can be
issued now: no bus and no bank is in its way, and no new miss that can be issued goes before it
as a row hit. -/
structure NoBacklog (mshrs : MshrFile) (mc : MemController) (t : Word) : Prop where
  single : ∀ j k r r', Waits mc j r → Waits mc k r' → j = k
  arrived : ∀ j r, Waits mc j r → r.arrivalCycle < t
  schedulable : ∀ j r, Waits mc j r → isRequestSchedulable mc r.address t = true
  first : ∀ j r, Waits mc j r → ∀ i, isUnqueuedMiss (mshrs i) = true →
    isRequestSchedulable mc (mshrs i).address t = true → isRowHit mc (mshrs i).address = true →
    isRowHit mc r.address = true

/-- The waiting request comes before the new misses in the order of the controller. -/
lemma NoBacklog.selects (hb : NoBacklog mshrs mc t)
    (hq : Queued (Lab2.markFills mshrs t) mc t mshrs' mc') (hbanks : mc'.banks = mc.banks)
    {j : ℕ} {r : MemRequest} (hw : Waits mc j r) :
    selectRequestToSchedule mc' t = some (r,j) := by
  have hhit : ∀ address, isRowHit mc' address = isRowHit mc address := fun address => by
    simp only [isRowHit, hbanks]
  have hfit : ∀ address, isRequestSchedulable mc' address t =
      isRequestSchedulable mc address t := fun address => by
    simp only [isRequestSchedulable, numCommands, cmdBusFree, dataBusFree, hbanks]
  refine selectRequestToSchedule_first (hq.kept j r hw).1
    ⟨hw.2,BitVec.lt_asymm (hb.arrived j r hw),(hfit _).trans (hb.schedulable j r hw)⟩ ?_
  intro k r' hk he hne
  rcases hq.new k r' ⟨hk,he.valid⟩ with hold | ⟨i,hu,rfl⟩
  · exact absurd (hb.single k j r' r hold hw) hne
  · obtain ⟨hsame,hnew⟩ := isUnqueuedMiss_markFills hu
    have haddr : (requestFor (Lab2.markFills mshrs t) i t).address = (mshrs i).address :=
      congrArg Mshr.address hsame
    have hfirst := hb.first j r hw i hnew (by rw [← hfit, ← haddr]; exact he.schedulable)
    have harrived : r.arrivalCycle < (requestFor (Lab2.markFills mshrs t) i t).arrivalCycle :=
      hb.arrived j r hw
    rw [← beats_iff, beats, hhit, hhit, haddr]
    cases hcurr : isRowHit mc r.address with
    | true => simp [harrived]
    | false =>
      have hbest : isRowHit mc (mshrs i).address = false := by
        by_contra hne
        rw [hfirst (by simpa using hne)] at hcurr
        cases hcurr
      simp [hbest, harrived]

/-- In step, and the fills of all waiting requests are still to come. -/
structure Unfilled (mshrs : MshrFile) (mc : MemController) : Prop extends InStep mshrs mc where
  pending : ∀ j r, Waits mc j r → (mshrs r.mshr).Pending

/-- Only fills that have come are freed. -/
lemma Unfilled.free {address : Word} (h : Unfilled mshrs mc)
    (hr : checkL1FillReady mshrs address = true) : Unfilled (freeMshr mshrs address) mc := by
  have hsame : ∀ j r, Waits mc j r → freeMshr mshrs address r.mshr = mshrs r.mshr :=
    fun j r hw => freeMshr_pending hr (h.pending j r hw)
  refine ⟨h.map fun j r hw => ?_,fun j r hw => ?_⟩
  · rw [hsame j r hw]
    exact ⟨⟨rfl,rfl⟩,rfl⟩
  · rw [hsame j r hw]
    exact h.pending j r hw

lemma Unfilled.requested {address : Word} (h : Unfilled mshrs mc)
    (hr : Requested mshrs address mshrs') : Unfilled mshrs' mc :=
  ⟨h.toInStep.requested hr,fun j r hw => by
    rw [hr.of_valid (h.valid j r hw)]
    exact h.pending j r hw⟩

/-- The one request that waited is issued, so that all that wait now are new. -/
theorem Unfilled.controller {l2cache l2cache' : Cache} (h : Unfilled mshrs mc)
    (hb : NoBacklog mshrs mc t)
    (hc : memoryControllerCycle mshrs mc l2cache t = .ok (mshrs',mc',l2cache')) :
    Unfilled mshrs' mc' := by
  have hafter := h.toInStep.controller hc
  obtain ⟨m₁,c₁,hq,hs,-⟩ := memoryControllerCycle_ok hc
  have hqueued := queueMisses_queued hq
  refine ⟨hafter,fun k r hr => ?_⟩
  obtain ⟨hk,hsame⟩ := schedule_waits (h.toInStep.markFills.queueMisses hq).distinct hs hr
  rcases hqueued.new k r hk with hold | ⟨i,hu,rfl⟩
  · have hsel := hb.selects hqueued (queueMisses_banks hq) hold
    exact absurd rfl ((scheduleRequest_waits hs hr).2 r k hsel)
  · refine ⟨hafter.valid k _ hr,?_⟩
    rw [hsame]
    simp only [isUnqueuedMiss, Bool.and_eq_true, Bool.not_eq_true'] at hu
    rcases hqueued.slots i with he | he
    · exact (congrArg Mshr.done he).trans hu.1.2
    · exact (congrArg Mshr.done he).trans hu.1.2

end Steps

/-- In the cycle that starts here no request has to wait for longer than a cycle. -/
def State.NoBacklog (s : State Memories) : Prop :=
  ∀ s₁, memSystem.stages s = .ok s₁ →
    Lab2.NoBacklog s₁.sys.mshrs s₁.sys.controller s₁.statCycles

/-- The queue and the MSHRs of a state. -/
def MissState.InStep (b : MissState) : Prop := Lab2.InStep b.mshrs b.controller

lemma unfilled_kept {s : State Memories} (h : Unfilled s.sys.mshrs s.sys.controller) :
    KeptByStages (fun b => Unfilled b.mshrs b.controller) s where
  fillMem _ hf := by
    simp only [State.freesMem, Bool.and_eq_true] at hf
    exact h.free hf.2
  missMem _ _ _ hr := h.requested hr
  fillFetch s₁ _ h₁ _ hf := by
    simp only [State.freesFetch, Bool.and_eq_true] at hf
    exact Unfilled.free h₁ hf.2
  dropFetch s₁ _ h₁ _ hf := by
    simp only [State.freesFetch, Bool.and_eq_true] at hf
    exact Unfilled.free h₁ hf.2
  missFetch _ _ _ _ _ h₂ _ hr := h₂.requested hr
  cancelFetch _ h := h

lemma cycle_unfilled {s s' : State Memories} (hs : s.Settled)
    (h : Unfilled s.sys.mshrs s.sys.controller) (hb : s.NoBacklog)
    (hc : memSystem.cycle s = .ok s') : Unfilled s'.sys.mshrs s'.sys.controller := by
  obtain ⟨s₁,sys,hst,hctl,rfl⟩ := MemSystem.cycle_ok hc
  obtain ⟨l2cache,hmc,-⟩ := controllerCycle_ok hctl
  have h₁ : Unfilled s₁.sys.mshrs s₁.sys.controller := (unfilled_kept h).stages hs h hst
  exact h₁.controller (hb s₁ hst) hmc

/-- The controller of the cycle issues only requests whose MSHR is still the one of their miss. -/
def State.IssuesOwn (s : State Memories) : Prop :=
  ∀ s' m c req j, memSystem.stages s = .ok s' →
    queueMisses (markFills s'.sys.mshrs s'.statCycles) s'.sys.controller s'.statCycles =
      .ok (m,c) →
    selectRequestToSchedule c s'.statCycles = some (req,j) →
      (m req.mshr).valid = true ∧ (m req.mshr).address = req.address

lemma issuesOwn_of_unfilled {s : State Memories} (hs : s.Settled)
    (h : Unfilled s.sys.mshrs s.sys.controller) : s.IssuesOwn := by
  intro s' m c req j hst hq hsel
  have h3 : Unfilled s'.sys.mshrs s'.sys.controller := (unfilled_kept h).stages hs h hst
  have h4 := h3.markFills.queueMisses hq
  obtain ⟨hj,helig⟩ := selectRequestToSchedule_spec hsel
  exact ⟨h4.valid j req ⟨hj,helig.valid⟩,h4.address j req ⟨hj,helig.valid⟩⟩

lemma never_full_of_unfilled {s : State Memories} (hs : s.Settled)
    (h : Unfilled s.sys.mshrs s.sys.controller) : ∀ s', memSystem.stages s = .ok s' →
      memSystem.memoryControllerCycle s'.sys s'.statCycles ≠ .error .memQueueFull := by
  intro s' hst herr
  have h3 : Unfilled s'.sys.mshrs s'.sys.controller := (unfilled_kept h).stages hs h hst
  obtain ⟨p,hp⟩ := h3.controller_ok (t := s'.statCycles) s'.sys.l2cache
  simp only [memSystem, hp, bind, Except.bind] at herr
  cases herr

lemma initialMemories_unfilled : Unfilled initialMemories.mshrs initialMemories.controller := by
  have hnone : ∀ j r, ¬ Waits (initMemoryController 256) j r := by
    rintro j r ⟨hj,hv⟩
    rw [(List.mem_replicate.mp (List.mem_of_getElem? hj)).2] at hv
    cases hv
  exact ⟨⟨fun j r h => (hnone j r h).elim,fun j r h => (hnone j r h).elim,
    fun j r h => (hnone j r h).elim,fun j _ r _ h => (hnone j r h).elim,List.length_replicate⟩,
    fun j r h => (hnone j r h).elim⟩

/-- As long as no request has to wait for longer than a cycle, in every reached state the
waiting requests have valid MSHRs of their own for their blocks, there are at most sixteen of
them, the controller of the next cycle finds a place for every new miss, and the request that it
issues belongs to the miss of its MSHR. -/
theorem queue_in_step (mem : Memory) (regs : Reg → Word) (hi lo : Word) {n : ℕ}
    {s : State Memories}
    (h : memSystem.machine.Reaches (initialState initialMemories mem regs hi lo) n s)
    (hno : ∀ m < n, ∀ s', memSystem.machine.Reaches
      (initialState initialMemories mem regs hi lo) m s' → s'.NoBacklog) :
    s.misses.InStep ∧ (s.sys.controller.queue.filter (·.valid)).length ≤ numMshr ∧
      (∀ s', memSystem.stages s = .ok s' →
        memSystem.memoryControllerCycle s'.sys s'.statCycles ≠ .error .memQueueFull) ∧
      s.IssuesOwn := by
  have hstep : Unfilled s.sys.mshrs s.sys.controller ∧ s.Settled := by
    induction n generalizing s with
    | zero =>
      obtain rfl := h
      exact ⟨initialMemories_unfilled,initialState_settled _ _ _ _ _⟩
    | succ n ih =>
      obtain ⟨m,hm,-,hc⟩ := h
      obtain ⟨hstep,hs⟩ := ih hm fun j hj => hno j (by omega)
      exact ⟨cycle_unfilled hs hstep (hno n (Nat.lt_succ_self n) m hm) hc,cycle_settled hs hc⟩
  exact ⟨hstep.1.toInStep,hstep.1.waiting_le,never_full_of_unfilled hstep.2 hstep.1,
    issuesOwn_of_unfilled hstep.2 hstep.1⟩

/-- The test of the condition. -/
def State.isNoBacklog (s : State Memories) : Bool :=
  match memSystem.stages s with
  | .ok s₁ =>
    let waiting := s₁.sys.controller.queue.zipIdx.filter (·.1.valid)
    waiting.all fun e => waiting.all (fun e' => e.2 == e'.2) &&
      decide (e.1.arrivalCycle < s₁.statCycles) &&
      isRequestSchedulable s₁.sys.controller e.1.address s₁.statCycles &&
      (List.finRange numMshr).all fun i => !isUnqueuedMiss (s₁.sys.mshrs i) ||
        !isRequestSchedulable s₁.sys.controller (s₁.sys.mshrs i).address s₁.statCycles ||
        !isRowHit s₁.sys.controller (s₁.sys.mshrs i).address ||
        isRowHit s₁.sys.controller e.1.address
  | .error _ => true

lemma State.noBacklog_of_test {s : State Memories} (h : s.isNoBacklog = true) :
    s.NoBacklog := by
  intro s₁ hst
  have hmem : ∀ {j r}, Waits s₁.sys.controller j r →
      (r,j) ∈ s₁.sys.controller.queue.zipIdx.filter (·.1.valid) := fun hw =>
    List.mem_filter.mpr ⟨List.mem_zipIdx_iff_getElem?.mpr hw.1,hw.2⟩
  simp only [State.isNoBacklog, hst, List.all_eq_true, Bool.and_eq_true, beq_iff_eq,
    decide_eq_true_eq, List.mem_finRange, true_implies, Bool.or_eq_true, Bool.not_eq_true'] at h
  refine ⟨fun j k r r' hr hr' => (h _ (hmem hr)).1.1.1 _ (hmem hr'),
    fun j r hr => (h _ (hmem hr)).1.1.2,fun j r hr => (h _ (hmem hr)).1.2,
    fun j r hr i hu hfit hhit => ?_⟩
  have hi := (h _ (hmem hr)).2 i
  rw [hu, hfit, hhit] at hi
  simpa using hi

/-- Nothing waits. -/
lemma State.noBacklog_of_idle {s : State Memories} (hst : memSystem.stages s = .ok s)
    (h : ∀ r ∈ s.sys.controller.queue, r.valid = false) : s.NoBacklog := by
  intro s₁ hs₁
  obtain rfl := Except.ok.inj (hst.symm.trans hs₁)
  have hno : ∀ {j r} {P : Prop}, Waits s.sys.controller j r → P := fun {j r P} hw => by
    have hv := hw.2
    rw [h r (List.mem_of_getElem? hw.1)] at hv
    cases hv
  exact ⟨fun _ _ _ _ hr => hno hr,fun _ _ hr => hno hr,fun _ _ hr => hno hr,
    fun _ _ hr => hno hr⟩

/-- The load misses in cycle 316, waits for the data bus for a cycle and is issued in cycle 317;
its MSHR is freed in cycle 318. -/
theorem countdownProgram_queue_in_step : ∃ s s',
    memSystem.machine.Reaches (initialState initialMemories countdownProgram countdownRegs 0 0)
      317 s ∧
    memSystem.machine.Reaches (initialState initialMemories countdownProgram countdownRegs 0 0)
      320 s' ∧
    (∃ j r, Waits s.sys.controller j r) ∧ s.misses.InStep ∧ s.IssuesOwn ∧
    (s'.sys.mshrs 1).valid = false ∧ s'.misses.InStep := by
  have hrun : passesVia State.isNoBacklog (fun s => s.sys.controller.queue.any (·.valid) &&
      memSystem.machine.passes State.isNoBacklog (fun s' => !(s'.sys.mshrs 1).valid) 3 s) 56 []
      (waitingState countdownProgram countdownRegs 0 0 true 261) = true := by
    decide +kernel
  obtain ⟨s,hs,hq⟩ := along_of_first (P := State.NoBacklog) countdownProgram countdownRegs 0 0
    (by decide +kernel) (fun t => State.noBacklog_of_idle (waitingState_stages _ _ _ _ t)
      firstController_idle) (fun _ => State.noBacklog_of_test)
    (fun s j _ h => State.noBacklog_of_idle (stagesWait_stages (stalled_stagesWait h))
      (stalled_idle h)) hrun
  rw [Bool.and_eq_true] at hq
  obtain ⟨s',hs',hfree⟩ := memSystem.machine.along_of_passes hq.2
  have hall : memSystem.machine.Along State.NoBacklog
      (initialState initialMemories countdownProgram countdownRegs 0 0) 320 s' :=
    hs.trans _ ⟨hs'.reaches,fun m hm x hx => State.noBacklog_of_test (hs'.holds m hm x hx)⟩
  obtain ⟨r,hr,hv⟩ := List.any_eq_true.mp hq.1
  obtain ⟨j,hj,rfl⟩ := List.getElem_of_mem hr
  obtain ⟨hstep,-,-,hown⟩ :=
    queue_in_step countdownProgram countdownRegs 0 0 hs.reaches hs.holds
  exact ⟨s,s',hs.reaches,hall.reaches,⟨j,_,List.getElem?_eq_getElem hj,hv⟩,hstep,hown,
    by simpa using hfree,
    (queue_in_step countdownProgram countdownRegs 0 0 hall.reaches hall.holds).1⟩

/-- The MSHR of a waiting request is freed. -/
theorem branchProgram_stale_request : ∃ s, memSystem.machine.Reaches
    (initialState initialMemories branchProgram (fun _ => 0) 0 0) 274 s ∧
    ∃ j r, Waits s.sys.controller j r ∧ (s.sys.mshrs r.mshr).valid = false := by
  have hlead : memSystem.machine.leadsTo (fun s => s.sys.controller.queue.any fun r =>
      r.valid && !(s.sys.mshrs r.mshr).valid) 13
      (waitingState branchProgram (fun _ => 0) 0 0 true 261) = true := by decide +kernel
  obtain ⟨s,hs,hp⟩ := reaches_of_leadsTo _ _ _ _ hlead
  obtain ⟨r,hr,hv⟩ := List.any_eq_true.mp hp
  rw [Bool.and_eq_true, Bool.not_eq_true'] at hv
  obtain ⟨j,hj,rfl⟩ := List.getElem_of_mem hr
  exact ⟨s,hs,j,_,⟨List.getElem?_eq_getElem hj,hv.1⟩,hv.2⟩

end CaLabs.Lab2
