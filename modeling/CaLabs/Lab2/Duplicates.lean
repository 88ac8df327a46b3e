import CaLabs.Lab2.L2Content
import CaLabs.Lab2.MshrUniqueness
import CaLabs.Lab2.QueueInStep
import CaLabs.Lab2.StageOps

/-! When the second-level cache holds a block once. The controller inserts the block of every
queued request whose MSHR is done, in every cycle, and insert_l2_block never looks for it. -/
namespace CaLabs.Lab2
open Mips Pipeline

/-- A stage waits for the fill of the MSHR. -/
def State.Awaits (s : State Memories) (m : Mshr) : Prop :=
  (s.l1MemWaiting = true ∧ m.Holds s.l1MemMissAddr) ∨
    (s.l1FetchWaiting = true ∧ m.Holds s.l1FetchMissAddr)

/-- Neither stage misses in the cycle that starts in s. -/
structure State.NoMiss (s : State Memories) : Prop where
  mem : ∀ address, ¬s.MemMisses address
  fetch : ∀ s₁, memSystem.backStages s = .ok s₁ → ¬s₁.FetchMisses

/-- A request that is still queued when its fill is marked is not the one of a cancelled miss,
and until it has been issued no stage misses. No hit of the second-level cache gets the fill
cycle 0, which stands for a miss. -/
structure State.Calm (s : State Memories) : Prop where
  counter : s.statCycles + l2HitLatency ≠ 0
  quiet : ∀ j r, Waits s.sys.controller j r → ¬(s.sys.mshrs r.mshr).Pending → s.NoMiss
  awaited : ∀ j r, Waits s.sys.controller j r → (s.sys.mshrs r.mshr).done = true →
    s.Awaits (s.sys.mshrs r.mshr)

/-- Freed, or never used. -/
structure Mshr.Stale (m : Mshr) : Prop where
  notValid : m.valid = false
  notDone : m.done = false

lemma Mshr.Stale.not_unqueued {m : Mshr} (h : m.Stale) : isUnqueuedMiss m = false := by
  rw [isUnqueuedMiss, h.notValid, Bool.false_and, Bool.false_and]

/-! What the stages do to the MSHR of a request that is still queued. -/

section Stages
variable {s s' : State Memories} {i : Fin numMshr}

lemma freeMshr_stale {mshrs : MshrFile} {address : Word} (h : (mshrs i).Stale) :
    (freeMshr mshrs address i).Stale := by
  cases hf : findMshrForAddress mshrs address with
  | none =>
    have hsame : freeMshr mshrs address = mshrs := by simp only [freeMshr, hf]
    rwa [hsame]
  | some k =>
    rw [freeMshr_eq hf]
    by_cases he : i = k
    · subst he
      rw [Function.update_self]
      exact ⟨rfl,rfl⟩
    · rwa [Function.update_of_ne he]

/-- The MSHR that holds the block of the address is the one that is freed. -/
lemma MshrFile.Distinct.free_stale {mshrs : MshrFile} {address : Word} (hd : mshrs.Distinct)
    (hi : (mshrs i).Holds address) : (freeMshr mshrs address i).Stale := by
  rw [freeMshr_eq (hd.find_iff.mpr hi), Function.update_self]
  exact ⟨rfl,rfl⟩

/-- Without a miss a freed MSHR is not used again. -/
lemma stale_kept (hq : s.NoMiss) (hfill : s.l1MemWaiting = true → s.freesMem = true →
    (s.misses.fillMem.mshrs i).Stale) : KeptByStages (fun b => (b.mshrs i).Stale) s where
  fillMem := hfill
  missMem address _ hm _ := (hq.mem address hm).elim
  fillFetch _ _ h₁ _ _ := freeMshr_stale h₁
  dropFetch _ _ h₁ _ _ := freeMshr_stale h₁
  missFetch s₁ _ hb hm _ _ _ _ := (hq.fetch s₁ hb hm).elim
  cancelFetch _ h := h

lemma ready_of_holds {mshrs : MshrFile} {address : Word} (hd : mshrs.Distinct)
    (hi : (mshrs i).Holds address) (hdone : (mshrs i).done = true) :
    checkL1FillReady mshrs address = true := by
  simp only [checkL1FillReady, hd.find_iff.mpr hi, hdone]

/-- What the memory stage waits for is freed as soon as it is done. -/
lemma memFill_stale (hs : s.Placed) (hd : s.sys.mshrs.Distinct) (hq : s.NoMiss)
    (hdone : (s.sys.mshrs i).done = true) (hw : s.l1MemWaiting = true)
    (hi : (s.sys.mshrs i).Holds s.l1MemMissAddr) {s₁ : State Memories}
    (hb : memSystem.backStages s = .ok s₁) : (s₁.sys.mshrs i).Stale := by
  obtain ⟨op,hop,-⟩ := hs.mem hw
  have hfrees : s.freesMem = true := by
    simp only [State.freesMem, hop, hw, ready_of_holds hd hi hdone, Option.isSome_some,
      Bool.true_or, Bool.and_self]
  rcases backStages_cases hs.settled hb with ⟨hno,-⟩ | ⟨-,-,he⟩ | ⟨address,-,hm,-⟩
  · rw [hfrees] at hno
    cases hno
  · have hmshrs : s₁.sys.mshrs = freeMshr s.sys.mshrs s.l1MemMissAddr :=
      congrArg MissState.mshrs he
    rw [hmshrs]
    exact hd.free_stale hi
  · exact (hq.mem address hm).elim

/-- The same for the fetch stage, which has passed nothing on. -/
lemma fetchFill_stale {s₁ s₂ : State Memories} (hw₁ : s₁.FetchWaits) (hd : s₁.sys.mshrs.Distinct)
    (hdone : (s₁.sys.mshrs i).done = true) (hw : s₁.l1FetchWaiting = true)
    (hi : (s₁.sys.mshrs i).Holds s₁.l1FetchMissAddr)
    (hf : memSystem.pipeStageFetch s₁ = .ok s₂) : (s₂.sys.mshrs i).Stale := by
  have hfrees : s₁.freesFetch = true := by
    simp only [State.freesFetch, hw₁ hw, hw, ready_of_holds hd hi hdone, Option.isNone_none,
      Bool.true_or, Bool.and_self]
  rcases pipeStageFetch_cases (MemSystem.pipeStageFetch_ok hf) with
    ⟨hno,-⟩ | ⟨-,-,he⟩ | ⟨hfetch,-⟩
  · rw [hfrees] at hno
    cases hno
  · have hmshrs : s₂.sys.mshrs = freeMshr s₁.sys.mshrs s₁.l1FetchMissAddr :=
      congrArg MissState.mshrs he
    rw [hmshrs]
    exact hd.free_stale hi
  · rw [hfetch.running] at hw
    cases hw

/-- A fill that a stage waits for is freed in the next cycle. -/
lemma awaited_stale (hs : s.Placed) (hd : s.sys.mshrs.Distinct) (hq : s.NoMiss)
    (hdone : (s.sys.mshrs i).done = true) (ha : s.Awaits (s.sys.mshrs i))
    (hst : memSystem.stages s = .ok s') : (s'.sys.mshrs i).Stale := by
  obtain ⟨s₁,s₂,hb,hf,rfl⟩ := MemSystem.stages_ok hst
  have hd₁ : s₁.sys.mshrs.Distinct := (distinct_keptBy hd).backStages hs.settled hd hb
  -- a freed MSHR stays as it is, also when the memory stage has just freed it
  have hstay : (s₁.sys.mshrs i).Stale → (s₂.sys.mshrs i).Stale := fun h₁ => by
    have hfill : s.l1MemWaiting = true → s.freesMem = true →
        (s.misses.fillMem.mshrs i).Stale := fun _ hfrees => by
      rcases backStages_cases hs.settled hb with ⟨hno,-⟩ | ⟨-,-,he⟩ | ⟨address,-,hm,-⟩
      · rw [hfrees] at hno
        cases hno
      · have hmshrs : s₁.sys.mshrs = s.misses.fillMem.mshrs := congrArg MissState.mshrs he
        rwa [← hmshrs]
      · exact (hq.mem address hm).elim
    exact (stale_kept hq hfill).pipeStageFetch hb h₁ hf
  rcases ha with ⟨hw,hi⟩ | ⟨hw,hi⟩
  · exact hstay (memFill_stale hs hd hq hdone hw hi hb)
  · have hsame : s₁.l1FetchWaiting = s.l1FetchWaiting ∧
        s₁.l1FetchMissAddr = s.l1FetchMissAddr ∧
        (s₁.sys.mshrs i = s.sys.mshrs i ∨ (s₁.sys.mshrs i).Stale) := by
      rcases backStages_cases hs.settled hb with ⟨-,he⟩ | ⟨-,-,he⟩ | ⟨address,-,hm,-⟩
      · exact ⟨congrArg MissState.fetchWaiting he,congrArg MissState.fetchAddr he,
          .inl (congrFun (congrArg MissState.mshrs he) i)⟩
      · refine ⟨congrArg MissState.fetchWaiting he,congrArg MissState.fetchAddr he,?_⟩
        have hmshrs : s₁.sys.mshrs = freeMshr s.sys.mshrs s.l1MemMissAddr :=
          congrArg MissState.mshrs he
        rw [hmshrs]
        by_cases hblock : blockAddr s.l1FetchMissAddr = blockAddr s.l1MemMissAddr
        · exact .inr (hd.free_stale ⟨hi.valid,hi.block.trans hblock⟩)
        · exact .inl (freeMshr_of_ne hi hblock)
      · exact (hq.mem address hm).elim
    obtain ⟨hwait,haddr,hmshr | hstale⟩ := hsame
    · have hstale : (s₂.sys.mshrs i).Stale := fetchFill_stale (hs.backStages hb) hd₁
        (hmshr ▸ hdone) (hwait.trans hw) (haddr.symm ▸ hmshr.symm ▸ hi) hf
      exact hstale
    · exact hstay hstale

lemma controller_kept (s : State Memories) :
    KeptByStages (fun b => b.controller = s.sys.controller) s where
  fillMem _ _ := rfl
  missMem _ _ _ _ := rfl
  fillFetch _ _ h _ _ := h
  dropFetch _ _ h _ _ := h
  missFetch _ _ _ _ _ h _ _ := h
  cancelFetch _ h := h

end Stages

/-- MSHR i waits for a fill whose request has not been issued yet. -/
structure Outstanding (mshrs : MshrFile) (mc : MemController) (i : Fin numMshr) : Prop where
  pending : (mshrs i).Pending
  request : isUnqueuedMiss (mshrs i) = true ∨ ∃ j r, Waits mc j r ∧ r.mshr = i

/-- The invariant between two cycles: every waiting request has an MSHR of its own, which is in
use for its block or has been freed, and no block is in the second-level cache before its
request has been issued or its fill marked. -/
structure Uninserted (mshrs : MshrFile) (mc : MemController) (l2cache : Cache) : Prop where
  distinct : mshrs.Distinct
  slots : ∀ j k r r', Waits mc j r → Waits mc k r' → r.mshr = r'.mshr → j = k
  queued : ∀ j r, Waits mc j r → isUnqueuedMiss (mshrs r.mshr) = false
  address : ∀ j r, Waits mc j r → (mshrs r.mshr).valid = true →
    (mshrs r.mshr).address = r.address
  absent : ∀ i, Outstanding mshrs mc i → ¬InL2 l2cache (mshrs i).address
  split : l2cache.setOf = initialMemories.l2cache.setOf ∧
    l2cache.tagOf = initialMemories.l2cache.tagOf
  unique : NoDuplicates l2cache

lemma initialL2_shaped : initialMemories.l2cache.Shaped := by
  have hsome : (allocCache l2cacheSize l2cacheWays blockSize).isSome = true := by decide
  exact Cache.alloc_shaped (allocCache_initialCache hsome) (by decide)

section Controller
variable {mshrs mshrs' : MshrFile} {mc mc' : MemController} {l2cache l2cache' : Cache} {t : Word}

/-- Every new miss is queued once. -/
lemma queueMisses_slots
    (hd : ∀ j k r r', Waits mc j r → Waits mc k r' → r.mshr = r'.mshr → j = k)
    (hu : ∀ j r, Waits mc j r → isUnqueuedMiss (mshrs r.mshr) = false)
    (hq : queueMisses mshrs mc t = .ok (mshrs',mc')) :
    (∀ j k r r', Waits mc' j r → Waits mc' k r' → r.mshr = r'.mshr → j = k) ∧
      ∀ j r, Waits mc' j r → isUnqueuedMiss (mshrs' r.mshr) = false := by
  refine Lib.foldlM_invariant (P := fun p : MshrFile × MemController =>
    (∀ j k r r', Waits p.2 j r → Waits p.2 k r' → r.mshr = r'.mshr → j = k) ∧
      ∀ j r, Waits p.2 j r → isUnqueuedMiss (p.1 r.mshr) = false) ⟨hd,hu⟩ ?_ hq
  rintro ⟨ms,m⟩ p i - ⟨hd,hu⟩ hstep
  obtain ⟨-,rfl⟩ | ⟨hi,j,hj,-,rfl⟩ := queueMiss_cases hstep
  · exact ⟨hd,hu⟩
  have hother : ∀ {k r}, Waits m k r → r.mshr ≠ i := fun {k r} hr he => by
    have hno := hu k r hr
    rw [he] at hno
    exact absurd (hi.symm.trans hno) (by decide)
  have hslot : (requestFor ms i t).mshr = i := rfl
  dsimp only
  refine ⟨fun k l r r' hr hr' he => ?_,fun k r hr => ?_⟩
  · rcases waits_set hj hr with ⟨rfl,rfl⟩ | ⟨-,hold⟩ <;>
      rcases waits_set hj hr' with ⟨rfl,rfl⟩ | ⟨-,hold'⟩
    · rfl
    · exact absurd he.symm (hother hold')
    · exact absurd he (hother hold)
    · exact hd k l r r' hold hold' he
  · rcases waits_set hj hr with ⟨-,rfl⟩ | ⟨-,hold⟩
    · rw [hslot, Function.update_self]
      simp [isUnqueuedMiss]
    · rw [Function.update_of_ne (hother hold)]
      exact hu k r hold

lemma markFills_done {i : Fin numMshr} (h : (markFills mshrs t i).done = true) :
    (mshrs i).done = true ∨ (mshrs i).valid = true := by
  unfold markFills at h
  split_ifs at h with hf
  · simp only [fillIsReady, Bool.and_eq_true] at hf
    exact .inr hf.1.1
  · exact .inl h

lemma Queued.done (h : Queued mshrs mc t mshrs' mc') (i : Fin numMshr) :
    (mshrs' i).done = (mshrs i).done := by
  rcases h.slots i with he | he <;> rw [he]

lemma scheduleRequest_done (hs : scheduleRequest mshrs mc t = (mshrs',mc')) (i : Fin numMshr) :
    (mshrs' i).done = (mshrs i).done := by
  unfold scheduleRequest at hs
  cases hsel : selectRequestToSchedule mc t with
  | none =>
    simp only [hsel, Prod.mk.injEq] at hs
    rw [← hs.1]
  | some entry =>
    simp only [hsel, issueDramRequest, Prod.mk.injEq] at hs
    rw [← hs.1]
    by_cases he : i = entry.1.mshr
    · rw [he, Function.update_self]
    · rw [Function.update_of_ne he]

/-- What waits after the cycle of the controller: its MSHR has been outstanding when the
controller was called, and is still the one of its block, or it has been freed before. -/
lemma Uninserted.waits_after (h : Uninserted mshrs mc l2cache)
    (hnd : ∀ j r, Waits mc j r → (mshrs r.mshr).done = false)
    (hq : queueMisses (markFills mshrs t) mc t = .ok (mshrs',mc')) {k : ℕ} {r : MemRequest}
    (hr : Waits mc' k r) :
    (Outstanding mshrs mc r.mshr ∧ (mshrs r.mshr).address = r.address) ∨
      (mshrs r.mshr).Stale := by
  rcases (queueMisses_queued hq).new k r hr with hold | ⟨i,hu,rfl⟩
  · cases hv : (mshrs r.mshr).valid with
    | true => exact .inl ⟨⟨⟨hv,hnd k r hold⟩,.inr ⟨k,r,hold,rfl⟩⟩,h.address k r hold hv⟩
    | false => exact .inr ⟨hv,hnd k r hold⟩
  · obtain ⟨hsame,hnew⟩ := isUnqueuedMiss_markFills hu
    have haddr : (mshrs i).address = (requestFor (markFills mshrs t) i t).address :=
      (congrArg Mshr.address hsame).symm
    have hmiss := hnew
    simp only [isUnqueuedMiss, Bool.and_eq_true, Bool.not_eq_true'] at hnew
    exact .inl ⟨⟨⟨hnew.1.1,hnew.1.2⟩,.inl hmiss⟩,haddr⟩

/-- The cycle of the controller up to its last loop. -/
structure BeforeFills (mshrs : MshrFile) (mc : MemController) (mshrs' : MshrFile)
    (mc' : MemController) : Prop where
  use : ∀ i, (mshrs i).SameUse (mshrs' i)
  slots : ∀ j k r r', Waits mc' j r → Waits mc' k r' → r.mshr = r'.mshr → j = k
  queued : ∀ j r, Waits mc' j r → isUnqueuedMiss (mshrs' r.mshr) = false
  origin : ∀ j r, Waits mc' j r →
    (Outstanding mshrs mc r.mshr ∧ (mshrs r.mshr).address = r.address) ∨ (mshrs' r.mshr).Stale
  unqueued : ∀ i, isUnqueuedMiss (mshrs' i) = true → Outstanding mshrs mc i

lemma Uninserted.beforeFills (h : Uninserted mshrs mc l2cache)
    (hnd : ∀ j r, Waits mc j r → (mshrs r.mshr).done = false)
    (hc : memoryControllerCycle mshrs mc l2cache t = .ok (mshrs',mc',l2cache')) :
    BeforeFills mshrs mc mshrs' mc' := by
  have huse := memoryControllerCycle_sameUse hc
  obtain ⟨m₁,c₁,hq,hs,-⟩ := memoryControllerCycle_ok hc
  have hqueue := queueMisses_queued hq
  obtain ⟨hslots,hqueued⟩ := queueMisses_slots h.slots (fun j r hr => by
    by_contra hne
    have hu := isUnqueuedMiss_markFills (t := t) (by simpa using hne)
    exact absurd (hu.2.symm.trans (h.queued j r hr)) (by decide)) hq
  have hwaits : ∀ {k r}, Waits mc' k r → Waits c₁ k r ∧ mshrs' r.mshr = m₁ r.mshr :=
    fun hr => schedule_waits hslots hs hr
  -- a freed MSHR is not marked
  have hstale : ∀ {i}, (mshrs i).Stale → (mshrs' i).Stale := fun {i} hi => by
    have hdone : (mshrs' i).done = (markFills mshrs t i).done :=
      (scheduleRequest_done hs i).trans (hqueue.done i)
    refine ⟨(huse i).valid.trans hi.notValid,hdone.trans ?_⟩
    by_contra hne
    rcases markFills_done (by simpa using hne) with hd | hv
    · exact absurd (hd.symm.trans hi.notDone) (by decide)
    · exact absurd (hv.symm.trans hi.notValid) (by decide)
  have horigin : ∀ {k r}, Waits c₁ k r →
      (Outstanding mshrs mc r.mshr ∧ (mshrs r.mshr).address = r.address) ∨
        (mshrs' r.mshr).Stale := fun hr => (h.waits_after hnd hq hr).imp_right hstale
  refine ⟨huse,fun j k r r' hr hr' => hslots j k r r' (hwaits hr).1 (hwaits hr').1,
    fun j r hr => ?_,fun j r hr => horigin (hwaits hr).1,fun i hi => ?_⟩
  · rw [(hwaits hr).2]
    exact hqueued j r (hwaits hr).1
  · by_cases hissued : ∃ req j, selectRequestToSchedule c₁ t = some (req,j) ∧ i = req.mshr
    · obtain ⟨req,j,hsel,rfl⟩ := hissued
      obtain ⟨hj,helig⟩ := selectRequestToSchedule_spec hsel
      rcases horigin ⟨hj,helig.valid⟩ with ⟨ho,-⟩ | hno
      · exact ho
      · exact absurd (hi.symm.trans hno.not_unqueued) (by decide)
    · have hsame : mshrs' i = m₁ i :=
        scheduleRequest_mshrs hs fun req j hsel he => hissued ⟨req,j,hsel,he⟩
      have hmark : isUnqueuedMiss (markFills mshrs t i) = true := by
        rw [hsame] at hi
        rcases hqueue.slots i with he | he
        · rwa [← he]
        · simp [he, isUnqueuedMiss] at hi
      have hnew := (isUnqueuedMiss_markFills hmark).2
      have hpending := hnew
      simp only [isUnqueuedMiss, Bool.and_eq_true, Bool.not_eq_true'] at hpending
      exact ⟨⟨hpending.1.1,hpending.1.2⟩,.inl hnew⟩

/-- What is inserted has been outstanding. -/
lemma BeforeFills.completed (hb : BeforeFills mshrs mc mshrs' mc') {k : ℕ} {r : MemRequest}
    (hr : Waits mc' k r) (hcomp : completed mshrs' r = true) :
    Outstanding mshrs mc r.mshr ∧ (mshrs' r.mshr).Holds r.address ∧
      (mshrs r.mshr).address = r.address := by
  rw [Lab2.completed, Bool.and_eq_true] at hcomp
  obtain ⟨ho,haddr⟩ := (hb.origin k r hr).resolve_right fun hi =>
    absurd (hcomp.2.symm.trans hi.notDone) (by decide)
  exact ⟨ho,⟨(hb.use _).valid.trans ho.pending.valid,by rw [(hb.use _).address, haddr]⟩,haddr⟩

lemma Uninserted.blockAddr_eq (h : Uninserted mshrs mc l2cache) {a b : Word}
    (hab : SameBlock l2cache a b) : blockAddr a = blockAddr b := by
  have hbase : SameBlock initialMemories.l2cache a b := by
    rw [SameBlock, ← h.split.1, ← h.split.2]
    exact hab
  exact hbase.blockAddr_eq initialL2_shaped rfl

/-- A completed request stands in the queue. -/
lemma waits_of_completed {r : MemRequest} (hr : r ∈ mc'.queue) (hcomp : completed mshrs' r = true) :
    ∃ k, Waits mc' k r := by
  obtain ⟨k,hk⟩ := List.mem_iff_getElem?.mp hr
  rw [completed, Bool.and_eq_true] at hcomp
  exact ⟨k,hk,hcomp.1⟩

/-- The last loop inserts different blocks, none of which is there. -/
lemma Uninserted.freshFills (h : Uninserted mshrs mc l2cache)
    (hb : BeforeFills mshrs mc mshrs' mc') : FreshFills mshrs' mc' l2cache := by
  constructor
  · intro r hr hcomp
    obtain ⟨k,hk⟩ := waits_of_completed hr hcomp
    obtain ⟨ho,-,haddr⟩ := hb.completed hk hcomp
    exact haddr ▸ h.absent _ ho
  · rw [List.pairwise_iff_getElem]
    intro j k hj hk hjk hcomp hcomp' hsame
    have hv : mc'.queue[j].valid = true := by
      rw [completed, Bool.and_eq_true] at hcomp
      exact hcomp.1
    have hv' : mc'.queue[k].valid = true := by
      rw [completed, Bool.and_eq_true] at hcomp'
      exact hcomp'.1
    have hw : Waits mc' j mc'.queue[j] := ⟨List.getElem?_eq_getElem hj,hv⟩
    have hw' : Waits mc' k mc'.queue[k] := ⟨List.getElem?_eq_getElem hk,hv'⟩
    obtain ⟨-,hi,-⟩ := hb.completed hw hcomp
    obtain ⟨-,hi',-⟩ := hb.completed hw' hcomp'
    have hone := (h.distinct.sameUse hb.use) _ _ _ hi
      ⟨hi'.valid,hi'.block.trans (h.blockAddr_eq hsame).symm⟩
    have heq := hb.slots j k _ _ hw hw' hone
    omega

/-- What is still outstanding is not inserted. -/
lemma Uninserted.absent_after (h : Uninserted mshrs mc l2cache)
    (hb : BeforeFills mshrs mc mshrs' mc') {i : Fin numMshr} (hi : Outstanding mshrs' mc' i) :
    ¬InL2 (processCompletedFills mshrs' mc' l2cache) (mshrs' i).address := by
  have hold : Outstanding mshrs mc i := by
    rcases hi.request with hu | ⟨j,r,hr,rfl⟩
    · exact hb.unqueued i hu
    · refine ((hb.origin j r hr).resolve_right fun hno => ?_).1
      exact absurd (hno.notValid.symm.trans hi.pending.valid) (by decide)
  intro hin
  rcases inL2_foldl hin with hin | ⟨r,hr,hcomp,hsame⟩
  · rw [(hb.use i).address] at hin
    exact h.absent i hold hin
  · obtain ⟨k,hk⟩ := waits_of_completed hr hcomp
    obtain ⟨-,hholds,-⟩ := hb.completed hk hcomp
    have hone := (h.distinct.sameUse hb.use) _ _ _ hholds
      ⟨hi.pending.valid,(h.blockAddr_eq hsame).symm⟩
    rw [completed, Bool.and_eq_true, hone, hi.pending.notDone] at hcomp
    exact absurd hcomp.2 (by decide)

lemma Uninserted.fills (h : Uninserted mshrs mc l2cache)
    (hb : BeforeFills mshrs mc mshrs' mc') :
    Uninserted mshrs' mc' (processCompletedFills mshrs' mc' l2cache) where
  distinct := h.distinct.sameUse hb.use
  slots := hb.slots
  queued := hb.queued
  address j r hr hv := by
    obtain ⟨-,haddr⟩ := (hb.origin j r hr).resolve_right fun hno =>
      absurd (hno.notValid.symm.trans hv) (by decide)
    rw [(hb.use _).address, haddr]
  absent i hi := h.absent_after hb hi
  split := by
    rw [← h.split.1, ← h.split.2]
    exact foldl_split mc'.queue
  unique := foldl_noDuplicates h.unique (h.freshFills hb).absent (h.freshFills hb).once

/-- One cycle of the controller, when no request waits whose fill has been marked before. -/
theorem Uninserted.controller (h : Uninserted mshrs mc l2cache)
    (hnd : ∀ j r, Waits mc j r → (mshrs r.mshr).done = false)
    (hc : memoryControllerCycle mshrs mc l2cache t = .ok (mshrs',mc',l2cache')) :
    Uninserted mshrs' mc' l2cache' := by
  have hb := h.beforeFills hnd hc
  obtain ⟨-,-,-,-,rfl⟩ := memoryControllerCycle_ok hc
  exact h.fills hb

end Controller

/-! Both together: one cycle, and a run. -/

section Cycle
variable {s s' : State Memories}

/-- The second-level cache as the stages leave it. -/
structure StagesKeep (l2cache : Cache) (m : Memories) : Prop where
  same : ∀ address, InL2 m.l2cache address ↔ InL2 l2cache address
  split : m.l2cache.setOf = l2cache.setOf ∧ m.l2cache.tagOf = l2cache.tagOf
  unique : NoDuplicates m.l2cache
  absent : ∀ i, isUnqueuedMiss (m.mshrs i) = true → ¬InL2 l2cache (m.mshrs i).address

/-- A miss of the second-level cache gets an MSHR, and so does a hit, but with a fill cycle. -/
lemma StagesKeep.l2CacheAccess {l2cache : Cache} {m : Memories} (h : StagesKeep l2cache m)
    (hblock : ∀ a, SameBlock l2cache a (blockAddr a)) {t : Word} (ht : t + l2HitLatency ≠ 0)
    (isIcache : Bool) (address : Word) : StagesKeep l2cache
      { m with
        l2cache := (Lab2.l2CacheAccess m.l2cache m.mshrs t isIcache address).2.1
        mshrs := (Lab2.l2CacheAccess m.l2cache m.mshrs t isIcache address).2.2 } := by
  unfold Lab2.l2CacheAccess allocateMshr
  cases hfree : (List.finRange numMshr).find? fun i => !(m.mshrs i).valid with
  | none => exact h
  | some i =>
    dsimp only
    cases hw : hitWay (m.l2cache.sets (m.l2cache.setOf address)) (m.l2cache.tagOf address) with
    | some b =>
      refine ⟨fun a => (inL2_setBlocks_updateLru hw a).trans (h.same a),h.split,
        setBlocks_updateLru_noDuplicates h.unique hw,fun k hk => ?_⟩
      by_cases he : k = i
      · subst he
        simp only [isUnqueuedMiss, Function.update_self, Bool.and_eq_true, beq_iff_eq] at hk
        exact absurd hk.2 ht
      · simp only [Function.update_of_ne he] at hk ⊢
        exact h.absent k hk
    | none =>
      refine ⟨h.same,h.split,h.unique,fun k hk => ?_⟩
      dsimp only at hk ⊢
      by_cases he : k = i
      · subst he
        rw [Function.update_self, ← inL2_congr (hblock address), ← h.same, InL2, hw]
        exact Bool.false_ne_true
      · simp only [Function.update_of_ne he] at hk ⊢
        exact h.absent k hk

lemma stagesKeep_calls {l2cache : Cache} (hblock : ∀ a, SameBlock l2cache a (blockAddr a))
    {t : Word} (ht : t + l2HitLatency ≠ 0) : KeptByCalls (StagesKeep l2cache) t where
  access m isIcache address h := by
    rw [Memories.l1CacheAccess]
    dsimp only
    cases hitWay ((m.l1 isIcache).sets ((m.l1 isIcache).setOf address))
        ((m.l1 isIcache).tagOf address) with
    | some b =>
      obtain ⟨hl2,hmshrs⟩ := setL1_rest m isIcache
        ((m.l1 isIcache).setBlocks ((m.l1 isIcache).setOf address)
          (updateLru ((m.l1 isIcache).sets ((m.l1 isIcache).setOf address)) b))
      exact ⟨hl2.symm ▸ h.same,hl2.symm ▸ h.split,hl2.symm ▸ h.unique,hmshrs.symm ▸ h.absent⟩
    | none =>
      cases findMshrForAddress m.mshrs address with
      | some i => exact h
      | none => exact h.l2CacheAccess hblock ht isIcache address
  fill m isIcache address h := by
    obtain ⟨hl2,hmshrs⟩ := setL1_rest m isIcache (completeL1Fill (m.l1 isIcache) address)
    exact ⟨hl2.symm ▸ h.same,hl2.symm ▸ h.split,hl2.symm ▸ h.unique,hmshrs.symm ▸ h.absent⟩
  free m address h := by
    refine ⟨h.same,h.split,h.unique,fun i hi => ?_⟩
    simp only [memSystem, freeMshr] at hi ⊢
    cases hf : findMshrForAddress m.mshrs address with
    | none =>
      simp only [hf] at hi ⊢
      exact h.absent i hi
    | some k =>
      simp only [hf] at hi ⊢
      by_cases he : i = k
      · subst he
        simp [isUnqueuedMiss] at hi
      · rw [Function.update_of_ne he] at hi ⊢
        exact h.absent i hi

/-- The MSHR of a waiting request after the stages. -/
lemma waits_stages (hs : s.Placed) (hd : s.sys.mshrs.Distinct) (hcalm : s.Calm)
    (hst : memSystem.stages s = .ok s') {j : ℕ} {r : MemRequest}
    (hr : Waits s.sys.controller j r) :
    (s'.sys.mshrs r.mshr = s.sys.mshrs r.mshr ∧ (s.sys.mshrs r.mshr).Pending) ∨
      (s'.sys.mshrs r.mshr).Stale := by
  by_cases hp : (s.sys.mshrs r.mshr).Pending
  · exact .inl ⟨(pending_kept hp).stages hs.settled rfl hst,hp⟩
  have hq := hcalm.quiet j r hr hp
  right
  cases hdone : (s.sys.mshrs r.mshr).done with
  | true => exact awaited_stale hs hd hq hdone (hcalm.awaited j r hr hdone) hst
  | false =>
    have hold : (s.sys.mshrs r.mshr).Stale :=
      ⟨by by_contra hv; exact hp ⟨by simpa using hv,hdone⟩,hdone⟩
    exact (stale_kept hq fun _ _ => freeMshr_stale hold).stages hs.settled hold hst

/-- The invariant when the controller is called: no waiting request is marked any more. -/
lemma stages_uninserted (hs : s.Placed)
    (h : Uninserted s.sys.mshrs s.sys.controller s.sys.l2cache) (hcalm : s.Calm)
    (hst : memSystem.stages s = .ok s') :
    Uninserted s'.sys.mshrs s'.sys.controller s'.sys.l2cache ∧
      ∀ j r, Waits s'.sys.controller j r → (s'.sys.mshrs r.mshr).done = false := by
  have hctl : s'.sys.controller = s.sys.controller :=
    (controller_kept s).stages hs.settled rfl hst
  have hblock : ∀ a, SameBlock s.sys.l2cache a (blockAddr a) := fun a => by
    have hbase : SameBlock initialMemories.l2cache a (blockAddr a) :=
      sameBlock_of_blockAddr rfl (blockAddr_blockAddr a).symm
    rw [SameBlock, h.split.1, h.split.2]
    exact hbase
  have hkept : StagesKeep s.sys.l2cache s'.sys := by
    refine (stagesKeep_calls hblock hcalm.counter).stages
      ⟨fun _ => Iff.rfl,⟨rfl,rfl⟩,h.unique,fun i hi => h.absent i ⟨?_,.inl hi⟩⟩ hst
    simp only [isUnqueuedMiss, Bool.and_eq_true, Bool.not_eq_true'] at hi
    exact ⟨hi.1.1,hi.1.2⟩
  have hwaits := fun {j r} (hr : Waits s.sys.controller j r) =>
    waits_stages hs h.distinct hcalm hst hr
  rw [hctl]
  refine ⟨⟨(distinct_keptBy h.distinct).stages hs.settled h.distinct hst,h.slots,
    fun j r hr => ?_,fun j r hr hv => ?_,fun i hi => ?_,?_,hkept.unique⟩,
    fun j r hr => ?_⟩
  · rcases hwaits hr with ⟨he,-⟩ | hno
    · rw [he]
      exact h.queued j r hr
    · exact hno.not_unqueued
  · rcases hwaits hr with ⟨he,-⟩ | hno
    · rw [he] at hv ⊢
      exact h.address j r hr hv
    · exact absurd (hv.symm.trans hno.notValid) (by decide)
  · rw [hkept.same]
    rcases hi.request with hu | ⟨j,r,hr,rfl⟩
    · exact hkept.absent i hu
    · rcases hwaits hr with ⟨he,hp⟩ | hno
      · rw [he]
        exact h.absent _ ⟨hp,.inr ⟨j,r,hr,rfl⟩⟩
      · exact absurd (hi.pending.valid.symm.trans hno.notValid) (by decide)
  · rw [hkept.split.1, hkept.split.2]
    exact h.split
  · rcases hwaits hr with ⟨he,hp⟩ | hno
    · rw [he]
      exact hp.notDone
    · exact hno.notDone

/-- One cycle of lab 2. -/
lemma cycle_uninserted (hs : s.Placed)
    (h : Uninserted s.sys.mshrs s.sys.controller s.sys.l2cache) (hcalm : s.Calm)
    (hc : memSystem.cycle s = .ok s') :
    Uninserted s'.sys.mshrs s'.sys.controller s'.sys.l2cache := by
  obtain ⟨s₁,sys,hst,hctl,rfl⟩ := MemSystem.cycle_ok hc
  obtain ⟨l2cache,hmc,rfl⟩ := controllerCycle_ok hctl
  obtain ⟨h₁,hnd⟩ := stages_uninserted hs h hcalm hst
  exact h₁.controller hnd hmc

end Cycle

/-- pipe_init leaves no valid block. -/
lemma initialCache_noDuplicates : NoDuplicates initialMemories.l2cache := by
  intro set v w hv
  have hinvalid := initialCache_misses l2cacheSize l2cacheWays set
    (tagAt (initialMemories.l2cache.sets set) v)
  exact absurd rfl (hitWay_none hinvalid hv)



lemma initialMemories_uninserted : Uninserted initialMemories.mshrs initialMemories.controller
    initialMemories.l2cache := by
  have hno : ∀ {j r} {P : Prop}, Waits initialMemories.controller j r → P := fun {j r P} hr => by
    have hv := hr.2
    rw [(List.mem_replicate.mp (List.mem_of_getElem? hr.1)).2] at hv
    cases hv
  exact ⟨fun _ _ _ hi => absurd hi.valid Bool.false_ne_true,fun _ _ _ _ hr => hno hr,
    fun _ _ hr => hno hr,fun _ _ hr => hno hr,
    fun _ hi => absurd hi.pending.valid Bool.false_ne_true,⟨rfl,rfl⟩,
    initialCache_noDuplicates⟩

/-- As long as no request that is still queued when its fill is marked belongs to a cancelled
miss, and no stage misses until it has been issued, no set of the second-level cache ever has two
valid ways with one tag. -/
theorem l2_noDuplicates (mem : Memory) (regs : Reg → Word) (hi lo : Word) {n : ℕ}
    {s : State Memories}
    (h : memSystem.machine.Reaches (initialState initialMemories mem regs hi lo) n s)
    (hcalm : ∀ m < n, ∀ s', memSystem.machine.Reaches
      (initialState initialMemories mem regs hi lo) m s' → s'.Calm) :
    NoDuplicates s.sys.l2cache := by
  have hrun : Uninserted s.sys.mshrs s.sys.controller s.sys.l2cache := by
    induction n generalizing s with
    | zero =>
      obtain rfl := h
      exact initialMemories_uninserted
    | succ n ih =>
      obtain ⟨m,hm,-,hstep⟩ := h
      exact cycle_uninserted (reaches_placed mem regs hi lo hm)
        (ih hm fun j hj => hcalm j (by omega)) (hcalm n (Nat.lt_succ_self n) m hm) hstep
  exact hrun.unique

/-- The test that neither stage misses. -/
def State.isNoMiss (s : State Memories) : Bool :=
  (s.l1MemWaiting || s.pipe.memOp.all fun op => !op.isMem ||
    (s.sys.l1CacheAccess false s.statCycles (wordOf op.memAddr)).1 == .cacheHit) &&
  match memSystem.backStages s with
  | .ok s₁ => s₁.pipe.decodeOp.isSome || s₁.l1FetchWaiting ||
      ((memSystem.cleanupFetch s₁).sys.l1CacheAccess true (memSystem.cleanupFetch s₁).statCycles
        (memSystem.cleanupFetch s₁).pipe.pc).1 == .cacheHit
  | .error _ => true

lemma State.noMiss_of_test {s : State Memories} (h : s.isNoMiss = true) : s.NoMiss := by
  rw [State.isNoMiss, Bool.and_eq_true] at h
  refine ⟨fun address hm => ?_,fun s₁ hb hm => ?_⟩
  · obtain ⟨op,hop,hmem,rfl⟩ := hm.op
    have hhit := h.1
    simp only [hm.running, hop, hmem, Option.all_some, Bool.not_true, Bool.false_or,
      beq_iff_eq] at hhit
    exact hm.misses hhit
  · have hhit := h.2
    simp only [hb, hm.free, hm.running, Option.isSome_none, Bool.false_or, beq_iff_eq] at hhit
    exact hm.misses hhit

/-- The test of the condition. -/
def State.isCalm (s : State Memories) : Bool :=
  s.statCycles + l2HitLatency != 0 &&
  s.sys.controller.queue.all fun r => !r.valid ||
    (((s.sys.mshrs r.mshr).valid && !(s.sys.mshrs r.mshr).done) || s.isNoMiss) &&
    (!(s.sys.mshrs r.mshr).done || ((s.sys.mshrs r.mshr).valid &&
      ((s.l1MemWaiting &&
          blockAddr (s.sys.mshrs r.mshr).address == blockAddr s.l1MemMissAddr) ||
        (s.l1FetchWaiting &&
          blockAddr (s.sys.mshrs r.mshr).address == blockAddr s.l1FetchMissAddr))))

lemma State.calm_of_test {s : State Memories} (h : s.isCalm = true) : s.Calm := by
  rw [State.isCalm, Bool.and_eq_true, bne_iff_ne, List.all_eq_true] at h
  have hall := fun {j r} (hr : Waits s.sys.controller j r) =>
    (Bool.or_eq_true _ _ ▸ h.2 r (List.mem_of_getElem? hr.1)).resolve_left
      (by rw [hr.2]; exact Bool.false_ne_true)
  refine ⟨h.1,fun j r hr hp => ?_,fun j r hr hd => ?_⟩
  · have hquiet := (Bool.and_eq_true _ _ ▸ hall hr).1
    rw [Bool.or_eq_true, Bool.and_eq_true, Bool.not_eq_true'] at hquiet
    exact State.noMiss_of_test (hquiet.resolve_left fun hv => hp ⟨hv.1,hv.2⟩)
  · have hawait := (Bool.and_eq_true _ _ ▸ hall hr).2
    simp only [hd, Bool.not_true, Bool.false_or, Bool.and_eq_true, Bool.or_eq_true,
      beq_iff_eq] at hawait
    obtain ⟨hv,hw | hw⟩ := hawait
    · exact .inl ⟨hw.1,hv,hw.2⟩
    · exact .inr ⟨hw.1,hv,hw.2⟩

/-- Nothing waits in the queue. -/
lemma State.calm_of_idle {s : State Memories} (ht : s.statCycles + l2HitLatency ≠ 0)
    (h : ∀ r ∈ s.sys.controller.queue, r.valid = false) : s.Calm := by
  have hno : ∀ {j r} {P : Prop}, Waits s.sys.controller j r → P := fun {j r P} hr => by
    have hv := hr.2
    rw [h r (List.mem_of_getElem? hr.1)] at hv
    cases hv
  exact ⟨ht,fun _ _ hr => hno hr,fun _ _ hr => hno hr⟩

/-- The request of the branch target waits for the data bus: its fill is marked in cycle 272,
which inserts the block, and freed in cycle 273, and the request is still queued. -/
theorem branchProgram_l2_noDuplicates : ∃ s, memSystem.machine.Reaches
    (initialState initialMemories branchProgram (fun _ => 0) 0 0) 275 s ∧
    InL2 s.sys.l2cache 0x00400040 ∧
    (∃ j r, Waits s.sys.controller j r ∧ (s.sys.mshrs r.mshr).valid = false) ∧
    NoDuplicates s.sys.l2cache := by
  have hrun : memSystem.machine.passes State.isCalm (fun s =>
      s.sys.l2cache.setOf 0x00400040 == 2 &&
      (hitWay (s.sys.l2cache.sets 2) (s.sys.l2cache.tagOf 0x00400040)).isSome &&
      s.sys.controller.queue.any fun r => r.valid && !(s.sys.mshrs r.mshr).valid) 14
      (waitingState branchProgram (fun _ => 0) 0 0 true 261) = true := by
    decide +kernel
  obtain ⟨s,hs,hq⟩ := memSystem.machine.along_of_passes hrun
  have hfirst : memSystem.machine.Along State.Calm
      (initialState initialMemories branchProgram (fun _ => 0) 0 0) 261
      (waitingState branchProgram (fun _ => 0) 0 0 true 261) := by
    refine first_fetch_along _ _ _ _ (State.calm_of_test (by decide +kernel)) fun t ht =>
      State.calm_of_idle ?_ firstController_idle
    show BitVec.ofNat 32 t + l2HitLatency ≠ 0
    intro h0
    have hnat := congrArg BitVec.toNat h0
    have h15 : l2HitLatency.toNat = 15 := rfl
    rw [BitVec.toNat_add, BitVec.toNat_ofNat, h15, show (0 : Word).toNat = 0 from rfl] at hnat
    omega
  have hall : memSystem.machine.Along State.Calm
      (initialState initialMemories branchProgram (fun _ => 0) 0 0) 275 s :=
    hfirst.trans _ ⟨hs.reaches,fun m hm x hx => State.calm_of_test (hs.holds m hm x hx)⟩
  rw [Bool.and_eq_true, Bool.and_eq_true, beq_iff_eq] at hq
  have hin : InL2 s.sys.l2cache 0x00400040 := by
    rw [InL2, hq.1.1]
    exact hq.1.2
  obtain ⟨r,hr,hv⟩ := List.any_eq_true.mp hq.2
  rw [Bool.and_eq_true, Bool.not_eq_true'] at hv
  obtain ⟨j,hj,rfl⟩ := List.getElem_of_mem hr
  exact ⟨s,hall.reaches,hin,⟨j,_,⟨List.getElem?_eq_getElem hj,hv.1⟩,hv.2⟩,
    l2_noDuplicates branchProgram (fun _ => 0) 0 0 hall.reaches hall.holds⟩

/-- What the last loop of the cycle that starts in s works on. -/
def fillsOf (s : State Memories) : Option (MshrFile × MemController × Cache) :=
  match memSystem.stages s with
  | .error _ => none
  | .ok s₁ =>
    match queueMisses (markFills s₁.sys.mshrs s₁.statCycles) s₁.sys.controller s₁.statCycles with
    | .error _ => none
    | .ok (mshrs,mc) => some ((scheduleRequest mshrs mc s₁.statCycles).1,
        (scheduleRequest mshrs mc s₁.statCycles).2,s₁.sys.l2cache)

/-- The cycle inserts the blocks of these addresses; the first one goes to the given set, is
there in another way than the one it replaces, and the others go to other sets. -/
def insertsAgain (set : ℕ) (a : Word) (l : List Word) (s : State Memories) : Bool :=
  (fillsOf s).any fun p =>
    (p.2.1.queue.filter (completed p.1)).map (·.address) == a :: l &&
    p.2.2.setOf a == set && l.all (fun a' => p.2.2.setOf a' != set) &&
    decide (victimWay p.2.2.numWays (p.2.2.sets set) < (p.2.2.sets set).length) &&
    (List.range (p.2.2.sets set).length).any fun w =>
      w != victimWay p.2.2.numWays (p.2.2.sets set) &&
      validAt (p.2.2.sets set) w && tagAt (p.2.2.sets set) w == p.2.2.tagOf a

lemma insertsAgain_sound {s s' : State Memories} {set : ℕ} {a : Word} {l : List Word}
    (h : insertsAgain set a l s = true) (hc : memSystem.cycle s = .ok s') :
    ¬NoDuplicates s'.sys.l2cache := by
  obtain ⟨s₁,mshrs,mc,hst,hq,hl2⟩ := cycle_l2cache hc
  simp only [insertsAgain, fillsOf, hst, hq, Option.any_some, Bool.and_eq_true, beq_iff_eq,
    decide_eq_true_eq, List.all_eq_true, bne_iff_ne, List.any_eq_true] at h
  obtain ⟨⟨⟨⟨hfills,rfl⟩,hother⟩,hv⟩,w,-,⟨hne,hw⟩,ht⟩ := h
  rw [hl2, processCompletedFills_eq, hfills]
  intro hn
  have hrest : (l.foldl insertL2Block (insertL2Block s₁.sys.l2cache a)).sets
      (s₁.sys.l2cache.setOf a) =
      (insertL2Block s₁.sys.l2cache a).sets (s₁.sys.l2cache.setOf a) :=
    foldl_insertL2Block_sets hother
  exact insertL2Block_duplicates hv hw ht hne (hrest ▸ hn _)

/-- Three cycles later the block is in two ways of its set: the fetch stage has missed again, and
the MSHR that the request points to is done for the new miss. -/
theorem branchProgram_duplicates : ∃ s, memSystem.machine.Reaches
    (initialState initialMemories branchProgram (fun _ => 0) 0 0) 278 s ∧
    ¬NoDuplicates s.sys.l2cache := by
  have hlead : memSystem.machine.leadsTo (fun s => s.pipe.runBit &&
      insertsAgain 2 0x00400040 [0x00400060] s &&
      match memSystem.cycle s with
      | .ok _ => true
      | .error _ => false) 16 (waitingState branchProgram (fun _ => 0) 0 0 true 261) = true := by
    decide +kernel
  obtain ⟨s,hs,hp⟩ := reaches_of_leadsTo _ _ _ _ hlead
  rw [Bool.and_eq_true, Bool.and_eq_true] at hp
  obtain ⟨⟨hrun,hagain⟩,hok⟩ := hp
  cases hc : memSystem.cycle s with
  | error e => simp [hc] at hok
  | ok s' => exact ⟨s',⟨s,hs,hrun,hc⟩,insertsAgain_sound hagain hc⟩

end CaLabs.Lab2
