import CaLabs.Lab2.L1Replacement
import CaLabs.Lab2.L2Content
import CaLabs.Lab2.MissTracking

/-! The fills of the two first-level caches of lab 2 and the accesses that follow them. -/
namespace CaLabs.Lab2
open Mips Pipeline

/-- What a stage does to its cache in one cycle: a call of complete_l1_fill, or one of
l1_cache_access with its result. -/
inductive L1Event where
  | fill (address : Word)
  | access (address : Word) (result : CacheAccessResult)
  deriving DecidableEq, Repr

def InL1 (c : Cache) (address : Word) : Prop :=
  (hitWay (c.sets (c.setOf address)) (c.tagOf address)).isSome = true

lemma inL1_iff {c : Cache} {address : Word} : InL1 c address ↔
    ∃ w, validAt (c.sets (c.setOf address)) w = true ∧
      tagAt (c.sets (c.setOf address)) w = c.tagOf address := inL2_iff

lemma victimWay_lt {blocks : List Block} {n : ℕ} (hl : blocks.length = n) (hpos : 0 < n) :
    victimWay n blocks < blocks.length := by
  unfold victimWay
  cases hi : invalidWay blocks with
  | some v => exact (invalidWay_some hi).1
  | none =>
    dsimp only
    cases hf : blocks.findIdx? fun b => b.recency == n - 1 with
    | none => exact hl ▸ hpos
    | some v =>
      obtain ⟨hv,-⟩ := List.findIdx?_eq_some_iff_getElem.mp hf
      exact hv

section Fill
variable {c : Cache} {a b : Word}

lemma inL1_setBlocks_of_ne {set : ℕ} {blocks : List Block} (h : c.setOf b ≠ set) :
    InL1 (c.setBlocks set blocks) b ↔ InL1 c b := by
  have hsets : (c.setBlocks set blocks).sets (c.setOf b) = c.sets (c.setOf b) :=
    Function.update_of_ne h _ _
  show (hitWay ((c.setBlocks set blocks).sets (c.setOf b)) (c.tagOf b)).isSome = true ↔ _
  rw [hsets]
  exact Iff.rfl

lemma inL1_setBlocks {set : ℕ} {blocks : List Block} (h : c.setOf b = set) :
    InL1 (c.setBlocks set blocks) b ↔
      ∃ w, validAt blocks w = true ∧ tagAt blocks w = c.tagOf b := by
  subst h
  have hsets : (c.setBlocks (c.setOf b) blocks).sets (c.setOf b) = blocks :=
    Function.update_self _ _ _
  have hiff : InL1 (c.setBlocks (c.setOf b) blocks) b ↔
      ∃ w, validAt ((c.setBlocks (c.setOf b) blocks).sets (c.setOf b)) w = true ∧
        tagAt ((c.setBlocks (c.setOf b) blocks).sets (c.setOf b)) w = c.tagOf b := inL1_iff
  rw [hiff, hsets]

/-- An access moves blocks in the order of use only. -/
lemma inL1_access (h : InL1 c b) : InL1 ((L1Op.access a).apply c) b := by
  simp only [L1Op.apply]
  cases hw : hitWay (c.sets (c.setOf a)) (c.tagOf a) with
  | none => exact h
  | some w =>
    have hlt := lt_length_of_validAt (hitWay_some hw).1
    dsimp only
    by_cases hs : c.setOf b = c.setOf a
    · rw [inL1_setBlocks hs, validAt_updateLru hlt, tagAt_updateLru hlt, ← hs]
      exact inL1_iff.mp h
    · exact (inL1_setBlocks_of_ne hs).mpr h

lemma access_noDuplicates (h : NoDuplicates c) : NoDuplicates ((L1Op.access a).apply c) := by
  simp only [L1Op.apply]
  cases hw : hitWay (c.sets (c.setOf a)) (c.tagOf a) with
  | none => exact h
  | some w => exact setBlocks_updateLru_noDuplicates h hw

/-- The filled block is in the cache. -/
lemma inL1_fill (h : c.Shaped) (a : Word) : InL1 (completeL1Fill c a) a := by
  have hlt := victimWay_lt (h.length_setOf a) h.ways_pos
  refine (inL1_setBlocks rfl).mpr ⟨victimWay c.numWays (c.sets (c.setOf a)),?_,?_⟩
  · rw [validAt_fillWay hlt, if_pos rfl]
  · rw [tagAt_fillWay hlt, if_pos rfl]

/-- A fill of another set leaves the block alone. -/
lemma inL1_fill_of_ne (h : InL1 c b) (hs : c.setOf a ≠ c.setOf b) :
    InL1 (completeL1Fill c a) b := (inL1_setBlocks_of_ne hs.symm).mpr h

/-- A block that is not there makes no duplicate. -/
lemma fill_noDuplicates (hc : c.Shaped) (h : NoDuplicates c) (ha : ¬InL1 c a) :
    NoDuplicates (completeL1Fill c a) := by
  have hlt := victimWay_lt (hc.length_setOf a) hc.ways_pos
  refine h.replace (p := fun w => w = victimWay c.numWays (c.sets (c.setOf a)))
    (fun v w hv hw => hv.trans hw.symm) (validAt_fillWay hlt (c.tagOf a))
    (tagAt_fillWay hlt (c.tagOf a)) fun w hw ht => ?_
  exact absurd (inL1_iff.mpr ⟨w,hw,ht⟩) ha

end Fill

/-- A cache and the address whose fill its stage waits for. -/
structure L1View where
  cache : Cache
  missing : Option Word

/-- What a stage can do: it asks for nothing else while it waits, and it only fills what it
waits for. -/
inductive L1Stage : Option L1Event → L1View → L1View → Prop
  | idle {v} : L1Stage none v v
  | fill {c a} : L1Stage (some (.fill a)) ⟨c,some a⟩ ⟨completeL1Fill c a,none⟩
  | hit {c a} (h : InL1 c a) :
      L1Stage (some (.access a .cacheHit)) ⟨c,none⟩ ⟨(L1Op.access a).apply c,none⟩
  | miss {c a} (h : ¬InL1 c a) : L1Stage (some (.access a .cacheMissWait)) ⟨c,none⟩ ⟨c,some a⟩

/-- After its stage a cycle may still cancel the miss. -/
def L1Cycle (e : Option L1Event) (v v' : L1View) : Prop :=
  ∃ m, L1Stage e v ⟨v'.cache,m⟩ ∧ (v'.missing = m ∨ v'.missing = none)

/-- The invariant of a cache and its stage: a block that is waited for is not in the cache. -/
structure L1Sound (base : Cache) (v : L1View) : Prop where
  shaped : v.cache.Shaped
  split : v.cache.setOf = base.setOf ∧ v.cache.tagOf = base.tagOf
  distinct : NoDuplicates v.cache
  absent : ∀ a, v.missing = some a → ¬InL1 v.cache a

section Protocol
variable {base c : Cache} {e : Option L1Event} {v v' : L1View}

lemma shaped_access (h : c.Shaped) (a : Word) : ((L1Op.access a).apply c).Shaped := by
  simp only [L1Op.apply]
  cases hitWay (c.sets (c.setOf a)) (c.tagOf a) with
  | none => exact h
  | some w => exact h.setBlocks _ ((length_updateLru _ w).trans (h.length_setOf a))

lemma shaped_fill (h : c.Shaped) (a : Word) : (completeL1Fill c a).Shaped :=
  h.setBlocks _ ((length_fillWay _ _ _).trans (h.length_setOf a))

lemma split_access (c : Cache) (a : Word) :
    ((L1Op.access a).apply c).setOf = c.setOf ∧ ((L1Op.access a).apply c).tagOf = c.tagOf := by
  simp only [L1Op.apply]
  cases hitWay (c.sets (c.setOf a)) (c.tagOf a) <;> exact ⟨rfl,rfl⟩

lemma L1Sound.stage (h : L1Sound base v) (hst : L1Stage e v v') : L1Sound base v' := by
  cases hst with
  | idle => exact h
  | @fill c a =>
    refine ⟨shaped_fill h.shaped a,h.split,?_,fun b hb => (by cases hb)⟩
    exact fill_noDuplicates h.shaped h.distinct (h.absent a rfl)
  | @hit c a hin =>
    obtain ⟨hset,htag⟩ := split_access c a
    exact ⟨shaped_access h.shaped a,⟨hset.trans h.split.1,htag.trans h.split.2⟩,
      access_noDuplicates h.distinct,fun b hb => (by cases hb)⟩
  | @miss c a hout =>
    refine ⟨h.shaped,h.split,h.distinct,fun b hb => ?_⟩
    obtain rfl := Option.some.inj hb
    exact hout

theorem L1Sound.cycle (h : L1Sound base v) (hc : L1Cycle e v v') : L1Sound base v' := by
  obtain ⟨m,hst,hm⟩ := hc
  have hs := h.stage hst
  refine ⟨hs.shaped,hs.split,hs.distinct,fun b hb => ?_⟩
  rcases hm with hm | hm
  · exact hs.absent b (hm.symm.trans hb)
  · cases hm.symm.trans hb

/-- A block stays until another one is filled into its set. -/
lemma L1Stage.keeps {b : Word} (hst : L1Stage e v v') (h : L1Sound base v) (hb : InL1 v.cache b)
    (hother : ∀ f, e = some (.fill f) → base.setOf f ≠ base.setOf b ∨ SameBlock base f b) :
    InL1 v'.cache b := by
  cases hst with
  | idle => exact hb
  | @fill c f =>
    obtain ⟨hset,htag⟩ := h.split
    dsimp only at hset htag hb ⊢
    rcases hother f rfl with hne | ⟨hs,ht⟩
    · exact inL1_fill_of_ne hb (by rwa [hset])
    · have hin := inL1_fill h.shaped f
      have hs' : (completeL1Fill c f).setOf f = (completeL1Fill c f).setOf b := by
        rw [show (completeL1Fill c f).setOf = c.setOf from rfl, hset, hs]
      have ht' : (completeL1Fill c f).tagOf f = (completeL1Fill c f).tagOf b := by
        rw [show (completeL1Fill c f).tagOf = c.tagOf from rfl, htag, ht]
      rw [InL1, hs', ht'] at hin
      exact hin
  | hit => exact inL1_access hb
  | miss => exact hb

lemma L1Cycle.keeps {b : Word} (hc : L1Cycle e v v') (h : L1Sound base v) (hb : InL1 v.cache b)
    (hother : ∀ f, e = some (.fill f) → base.setOf f ≠ base.setOf b ∨ SameBlock base f b) :
    InL1 v'.cache b := by
  obtain ⟨m,hst,-⟩ := hc
  exact hst.keeps h hb hother

lemma L1Stage.filled {a : Word} (hst : L1Stage (some (.fill a)) v v') (h : L1Sound base v) :
    InL1 v'.cache a ∧ v'.missing = none := by
  cases hst
  exact ⟨inL1_fill h.shaped a,rfl⟩

lemma L1Cycle.filled {a : Word} (hc : L1Cycle (some (.fill a)) v v') (h : L1Sound base v) :
    InL1 v'.cache a ∧ v'.missing = none := by
  obtain ⟨m,hst,hm⟩ := hc
  obtain ⟨hin,hnone⟩ := hst.filled h
  exact ⟨hin,hm.elim (fun he => he.trans hnone) id⟩

end Protocol

/-! The two stages. -/

/-- The event of an access; the assertion on the address stands before it. -/
def accessEvent (sys : Memories) (isIcache : Bool) (statCycles address : Word) : Option L1Event :=
  match memSystem.access sys isIcache statCycles address with
  | .ok (result,_) => some (.access address result)
  | .error _ => none

/-- The call of pipe_stage_mem into the data cache. -/
def State.memEvent (s : State Memories) : Option L1Event :=
  match s.pipe.memOp with
  | none => none
  | some op =>
    if s.l1MemWaiting then
      if checkL1FillReady s.sys.mshrs s.l1MemMissAddr then some (.fill s.l1MemMissAddr) else none
    else if op.isMem then
      accessEvent (memSystem.cleanupMem s).sys false s.statCycles (wordOf op.memAddr)
    else none

/-- The call of pipe_stage_fetch into the instruction cache. -/
def State.fetchEvent (s : State Memories) : Option L1Event :=
  if s.pipe.decodeOp.isSome then none
  else if s.l1FetchWaiting then
    if checkL1FillReady s.sys.mshrs s.l1FetchMissAddr then some (.fill s.l1FetchMissAddr) else none
  else accessEvent (memSystem.cleanupFetch s).sys true s.statCycles s.pipe.pc

/-- The call into the data cache in the cycle that starts in s. -/
def State.dcacheEvent (s : State Memories) : Option L1Event :=
  State.memEvent { s with pipe := pipeStageWb s.l1FetchWaiting s.pipe }

/-- The call into the instruction cache in the cycle that starts in s. -/
def State.icacheEvent (s : State Memories) : Option L1Event :=
  match memSystem.backStages s with
  | .error _ => none
  | .ok s => s.fetchEvent

def State.dcacheView (s : State Memories) : L1View where
  cache := s.sys.dcache
  missing := if s.l1MemWaiting then some s.l1MemMissAddr else none

def State.icacheView (s : State Memories) : L1View where
  cache := s.sys.icache
  missing := if s.l1FetchWaiting then some s.l1FetchMissAddr else none

section Stages
variable {s s' : State Memories}

/-- An access hits exactly if the block is in its cache. -/
lemma l1CacheAccess_hit_iff {m : Memories} {isIcache : Bool} {t a : Word} :
    (m.l1CacheAccess isIcache t a).1 = .cacheHit ↔ InL1 (m.l1 isIcache) a := by
  rw [InL1]
  cases hw : hitWay ((m.l1 isIcache).sets ((m.l1 isIcache).setOf a)) ((m.l1 isIcache).tagOf a) with
  | some w => simp [Memories.l1CacheAccess, hw]
  | none =>
    simp only [Memories.l1CacheAccess, hw, Option.isSome_none, Bool.false_eq_true, iff_false]
    cases hf : findMshrForAddress m.mshrs a with
    | some i => simp
    | none =>
      intro hr
      rcases l2CacheAccess_cases (findMshrForAddress_none hf)
        (show l2CacheAccess m.l2cache m.mshrs t isIcache a = _ from rfl) with ⟨hw',-⟩ | ⟨hw',-⟩
      · cases hw'.symm.trans hr
      · cases hw'.symm.trans hr

/-- The answers of an access, as the steps of its stage. -/
lemma access_l1Stage {m m' : Memories} {isIcache : Bool} {t a : Word} {r : CacheAccessResult}
    (h : memSystem.access m isIcache t a = .ok (r,m')) :
    (r = .cacheHit → L1Stage (some (.access a r)) ⟨m.l1 isIcache,none⟩ ⟨m'.l1 isIcache,none⟩) ∧
    (r = .cacheMissWait →
      L1Stage (some (.access a r)) ⟨m.l1 isIcache,none⟩ ⟨m'.l1 isIcache,some a⟩) := by
  have hacc := access_ok h
  have hl1 := l1CacheAccess_l1 m isIcache t a
  have hhit := @l1CacheAccess_hit_iff m isIcache t a
  rw [hacc] at hl1 hhit
  dsimp only at hl1 hhit
  rw [hl1]
  refine ⟨fun hr => ?_,fun hr => ?_⟩
  · subst hr
    exact .hit (hhit.mp rfl)
  · subst hr
    have hout : ¬InL1 (m.l1 isIcache) a := fun hin => by cases hhit.mpr hin
    have hw : hitWay ((m.l1 isIcache).sets ((m.l1 isIcache).setOf a))
        ((m.l1 isIcache).tagOf a) = none := Option.not_isSome_iff_eq_none.mp hout
    have hsame : (L1Op.access a).apply (m.l1 isIcache) = m.l1 isIcache := by
      simp only [L1Op.apply, hw]
    rw [hsame]
    exact .miss hout

/-- An access leaves the other first-level cache alone. -/
lemma access_other {m m' : Memories} {isIcache : Bool} {t a : Word} {r : CacheAccessResult}
    (h : memSystem.access m isIcache t a = .ok (r,m')) : m'.l1 (!isIcache) = m.l1 (!isIcache) := by
  have hm : m' = (m.l1CacheAccess isIcache t a).2 := by rw [access_ok h]
  rw [hm, Memories.l1CacheAccess]
  dsimp only
  cases hitWay ((m.l1 isIcache).sets ((m.l1 isIcache).setOf a)) ((m.l1 isIcache).tagOf a) with
  | some w => cases isIcache <;> rfl
  | none => cases findMshrForAddress m.mshrs a <;> cases isIcache <;> rfl

lemma accessEvent_ok {sys sys' : Memories} {isIcache : Bool} {t a : Word} {r : CacheAccessResult}
    (h : memSystem.access sys isIcache t a = .ok (r,sys')) :
    accessEvent sys isIcache t a = some (.access a r) := by
  simp only [accessEvent, h]

lemma accessEvent_ne_fill {sys : Memories} {isIcache : Bool} {t a b : Word} :
    accessEvent sys isIcache t a ≠ some (.fill b) := by
  intro h
  unfold accessEvent at h
  split at h <;> simp at h

lemma dcacheView_waiting (h : s.l1MemWaiting = true) :
    s.dcacheView = ⟨s.sys.dcache,some s.l1MemMissAddr⟩ := by
  rw [State.dcacheView, h, if_pos rfl]

lemma dcacheView_running (h : s.l1MemWaiting = false) : s.dcacheView = ⟨s.sys.dcache,none⟩ := by
  rw [State.dcacheView, h, if_neg Bool.false_ne_true]

lemma icacheView_waiting (h : s.l1FetchWaiting = true) :
    s.icacheView = ⟨s.sys.icache,some s.l1FetchMissAddr⟩ := by
  rw [State.icacheView, h, if_pos rfl]

lemma icacheView_running (h : s.l1FetchWaiting = false) : s.icacheView = ⟨s.sys.icache,none⟩ := by
  rw [State.icacheView, h, if_neg Bool.false_ne_true]

lemma dcacheView_missing : s.dcacheView.missing = none ↔ s.l1MemWaiting = false := by
  cases h : s.l1MemWaiting <;> simp [State.dcacheView, h]

lemma icacheView_missing : s.icacheView.missing = none ↔ s.l1FetchWaiting = false := by
  cases h : s.l1FetchWaiting <;> simp [State.icacheView, h]

/-- The memory stage is a step of the data cache and leaves the instruction cache alone. -/
theorem pipeStageMem_l1Stage (hcan : s.l1MemCancelled = false)
    (h : memSystem.pipeStageMem s = .ok s') :
    L1Stage s.memEvent s.dcacheView s'.dcacheView ∧ s'.icacheView = s.icacheView := by
  unfold MemSystem.pipeStageMem at h
  unfold State.memEvent
  cases hop : s.pipe.memOp with
  | none =>
    simp only [hop, Except.ok.injEq] at h
    subst h
    exact ⟨.idle,rfl⟩
  | some op =>
    simp only [hop] at h ⊢
    rw [cleanupMem_eq hcan] at h ⊢
    cases hw : s.l1MemWaiting with
    | true =>
      rw [dcacheView_waiting hw]
      simp only [hw, if_true] at h ⊢
      cases hr : checkL1FillReady s.sys.mshrs s.l1MemMissAddr with
      | true =>
        have hr' : memSystem.checkL1FillReady s.sys false s.l1MemMissAddr = true := hr
        rw [hr', if_pos rfl] at h
        obtain rfl := Except.ok.inj h
        exact ⟨.fill,rfl⟩
      | false =>
        have hr' : memSystem.checkL1FillReady s.sys false s.l1MemMissAddr = false := hr
        rw [hr', if_neg Bool.false_ne_true] at h
        obtain rfl := Except.ok.inj h
        rw [dcacheView_waiting hw]
        exact ⟨.idle,rfl⟩
    | false =>
      rw [dcacheView_running hw]
      simp only [hw, Bool.false_eq_true, if_false] at h ⊢
      unfold MemSystem.accessMem at h
      cases hmem : op.isMem with
      | false =>
        simp only [hmem, Bool.false_eq_true, if_false, Except.ok.injEq] at h ⊢
        subst h
        exact ⟨(dcacheView_running hw).symm ▸ .idle,rfl⟩
      | true =>
        simp only [hmem, if_true] at h ⊢
        cases ha : memSystem.access s.sys false s.statCycles (wordOf op.memAddr) with
        | error e => simp [ha, bind, Except.bind] at h
        | ok q =>
          obtain ⟨r,sys⟩ := q
          simp only [ha, bind, Except.bind] at h
          rw [accessEvent_ok ha]
          obtain ⟨hhit,hmiss⟩ := access_l1Stage ha
          have hother := access_other ha
          cases r with
          | cacheNoMshr => cases h
          | cacheMissWait =>
            obtain rfl := Except.ok.inj h
            exact ⟨hmiss rfl,congrArg (L1View.mk · _) hother⟩
          | cacheHit =>
            obtain rfl := Except.ok.inj h
            refine ⟨?_,congrArg (L1View.mk · _) hother⟩
            rw [dcacheView_running (by exact hw)]
            exact hhit rfl

/-- The cleanup frees an MSHR at most. -/
lemma cleanupFetch_views (s : State Memories) :
    (memSystem.cleanupFetch s).sys.icache = s.sys.icache ∧
      (memSystem.cleanupFetch s).dcacheView = s.dcacheView := by
  unfold MemSystem.cleanupFetch
  split_ifs <;> exact ⟨rfl,rfl⟩

lemma cleanupFetch_statCycles (s : State Memories) :
    (memSystem.cleanupFetch s).statCycles = s.statCycles := by
  unfold MemSystem.cleanupFetch
  split_ifs <;> rfl

/-- A fetch stage that is free makes its access. -/
lemma fetchEvent_free (hd : s.pipe.decodeOp = none) (hw : s.l1FetchWaiting = false) :
    s.fetchEvent =
      accessEvent (memSystem.cleanupFetch s).sys true s.statCycles s.pipe.pc := by
  simp only [State.fetchEvent, hd, hw, Option.isSome_none, Bool.false_eq_true, if_false]

/-- The fetch stage is a step of the instruction cache and leaves the data cache alone. -/
theorem pipeStageFetch_l1Stage (h : memSystem.pipeStageFetch s = .ok s') :
    L1Stage s.fetchEvent s.icacheView s'.icacheView ∧ s'.dcacheView = s.dcacheView := by
  unfold MemSystem.pipeStageFetch at h
  unfold State.fetchEvent
  cases hd : s.pipe.decodeOp.isSome with
  | true =>
    simp only [hd, if_true, Except.ok.injEq] at h
    subst h
    exact ⟨.idle,rfl⟩
  | false =>
    simp only [hd, Bool.false_eq_true, if_false] at h ⊢
    cases hw : s.l1FetchWaiting with
    | true =>
      rw [icacheView_waiting hw]
      simp only [hw, if_true] at h ⊢
      cases hr : checkL1FillReady s.sys.mshrs s.l1FetchMissAddr with
      | true =>
        have hr' : memSystem.checkL1FillReady s.sys true s.l1FetchMissAddr = true := hr
        rw [hr', if_pos rfl] at h
        obtain rfl := Except.ok.inj h
        exact ⟨.fill,rfl⟩
      | false =>
        have hr' : memSystem.checkL1FillReady s.sys true s.l1FetchMissAddr = false := hr
        rw [hr', if_neg Bool.false_ne_true] at h
        obtain rfl := Except.ok.inj h
        rw [icacheView_waiting hw]
        exact ⟨.idle,rfl⟩
    | false =>
      rw [icacheView_running hw]
      simp only [hw, Bool.false_eq_true, if_false] at h ⊢
      unfold MemSystem.accessFetch at h
      obtain ⟨hcache,hdview⟩ := cleanupFetch_views s
      have hwait := cleanupFetch_fetchWaiting s
      have hpc : (memSystem.cleanupFetch s).pipe.pc = s.pipe.pc := by
        rw [MemSystem.cleanupFetch_pipe]
      rw [hpc, cleanupFetch_statCycles] at h
      rw [hw] at hwait
      generalize memSystem.cleanupFetch s = c at *
      cases ha : memSystem.access c.sys true s.statCycles s.pipe.pc with
      | error e => simp [ha, bind, Except.bind] at h
      | ok q =>
        obtain ⟨r,sys⟩ := q
        simp only [ha, bind, Except.bind] at h
        rw [accessEvent_ok ha]
        obtain ⟨hhit,hmiss⟩ := access_l1Stage ha
        rw [show c.sys.l1 true = s.sys.icache from hcache] at hhit hmiss
        have hother := (congrArg (L1View.mk · _) (access_other ha)).trans hdview
        cases r with
        | cacheNoMshr => cases h
        | cacheMissWait =>
          obtain rfl := Except.ok.inj h
          exact ⟨hmiss rfl,hother⟩
        | cacheHit =>
          obtain rfl := Except.ok.inj h
          refine ⟨?_,hother⟩
          rw [icacheView_running (by exact hwait)]
          exact hhit rfl

lemma backStages_eq (h : memSystem.backStages s = .ok s') : ∃ s₀,
    memSystem.pipeStageMem { s with pipe := pipeStageWb s.l1FetchWaiting s.pipe } = .ok s₀ ∧
      s' = { s₀ with pipe := pipeStageDecode (pipeStageExecute s₀.pipe) } := by
  unfold MemSystem.backStages at h
  cases hm : memSystem.pipeStageMem { s with pipe := pipeStageWb s.l1FetchWaiting s.pipe } with
  | error e => simp [hm, bind, Except.bind] at h
  | ok s₀ =>
    simp only [hm, bind, Except.bind, Except.ok.injEq] at h
    exact ⟨s₀,rfl,h.symm⟩

lemma controllerCycle_l1 {sys sys' : Memories} {t : Word}
    (h : memSystem.memoryControllerCycle sys t = .ok sys') :
    sys'.icache = sys.icache ∧ sys'.dcache = sys.dcache := by
  simp only [memSystem] at h
  cases hc : memoryControllerCycle sys.mshrs sys.controller sys.l2cache t with
  | error e => simp [hc, bind, Except.bind] at h
  | ok p =>
    simp only [hc, bind, Except.bind, Except.ok.injEq] at h
    subst h
    exact ⟨rfl,rfl⟩

/-- The branch recovery and the controller leave the caches alone, and the misses but for their
cancellation. -/
lemma L1Stage.toCycle {e : Option L1Event} {v : L1View} {c c' : Cache} {waiting cancel : Bool}
    {a : Word} (h : L1Stage e v ⟨c,if waiting then some a else none⟩) (hc : c' = c) :
    L1Cycle e v ⟨c',if waiting && !cancel then some a else none⟩ := by
  subst hc
  refine ⟨_,h,?_⟩
  cases cancel with
  | true => exact .inr (by simp)
  | false => exact .inl (by simp)

/-- A cycle is a step of either cache with its stage. -/
theorem cycle_l1Cycle (hs : s.Settled) (h : memSystem.cycle s = .ok s') :
    L1Cycle s.icacheEvent s.icacheView s'.icacheView ∧
      L1Cycle s.dcacheEvent s.dcacheView s'.dcacheView := by
  obtain ⟨s₃,sys,hst,hcon,rfl⟩ := MemSystem.cycle_ok h
  obtain ⟨s₁,s₂,hb,hf,rfl⟩ := MemSystem.stages_ok hst
  obtain ⟨s₀,hm,rfl⟩ := backStages_eq hb
  obtain ⟨hmem,hiview⟩ := pipeStageMem_l1Stage
    (s := { s with pipe := pipeStageWb s.l1FetchWaiting s.pipe }) hs.memCancelled hm
  obtain ⟨hfetch,hdview⟩ := pipeStageFetch_l1Stage hf
  obtain ⟨hic,hdc⟩ := controllerCycle_l1 hcon
  constructor
  · have hstage : L1Stage s.icacheEvent s.icacheView s₂.icacheView := by
      rw [State.icacheEvent, hb]
      exact (show s₀.icacheView = s.icacheView from hiview) ▸ hfetch
    exact hstage.toCycle hic
  · have hstage : L1Stage s.dcacheEvent s.dcacheView s₂.dcacheView := by
      rw [hdview]
      exact hmem
    exact hstage.toCycle hdc

lemma icacheEvent_ok (h : memSystem.backStages s = .ok s') : s.icacheEvent = s'.fetchEvent := by
  simp only [State.icacheEvent, h]

/-- A stage is given a block that it has waited for. -/
lemma memEvent_fill {a : Word} (h : s.memEvent = some (.fill a)) :
    ∃ op, s.pipe.memOp = some op ∧ s.l1MemWaiting = true ∧ s.l1MemMissAddr = a := by
  unfold State.memEvent at h
  cases hop : s.pipe.memOp with
  | none => simp [hop] at h
  | some op =>
    simp only [hop] at h
    split_ifs at h with hwait hr hmem
    · exact ⟨op,rfl,hwait,by simpa using h⟩
    · exact absurd h accessEvent_ne_fill

lemma fetchEvent_fill {a : Word} (h : s.fetchEvent = some (.fill a)) :
    s.pipe.decodeOp = none ∧ s.l1FetchWaiting = true := by
  unfold State.fetchEvent at h
  split_ifs at h with hd hwait hr
  · exact ⟨by simpa using hd,hwait⟩
  · exact absurd h accessEvent_ne_fill

lemma accessEvent_some {sys : Memories} {isIcache : Bool} {t a b : Word} {r : CacheAccessResult}
    (h : accessEvent sys isIcache t a = some (.access b r)) :
    b = a ∧ r = (sys.l1CacheAccess isIcache t a).1 := by
  unfold accessEvent at h
  cases ha : memSystem.access sys isIcache t a with
  | error e => simp [ha] at h
  | ok q =>
    obtain ⟨r',sys'⟩ := q
    simp only [ha, Option.some.injEq, L1Event.access.injEq] at h
    obtain ⟨rfl,rfl⟩ := h
    rw [access_ok ha]
    exact ⟨rfl,rfl⟩

lemma memEvent_access {b : Word} {r : CacheAccessResult} (hcan : s.l1MemCancelled = false)
    (h : s.memEvent = some (.access b r)) : r = .cacheHit ↔ InL1 s.sys.dcache b := by
  unfold State.memEvent at h
  cases hop : s.pipe.memOp with
  | none => simp [hop] at h
  | some op =>
    simp only [hop] at h
    rw [cleanupMem_eq hcan] at h
    split_ifs at h
    · simp at h
    · obtain ⟨rfl,rfl⟩ := accessEvent_some h
      exact l1CacheAccess_hit_iff

lemma fetchEvent_access {b : Word} {r : CacheAccessResult}
    (h : s.fetchEvent = some (.access b r)) : r = .cacheHit ↔ InL1 s.sys.icache b := by
  unfold State.fetchEvent at h
  split_ifs at h
  · simp at h
  · obtain ⟨rfl,rfl⟩ := accessEvent_some h
    rw [l1CacheAccess_hit_iff,
      show (memSystem.cleanupFetch s).sys.l1 true = s.sys.icache from (cleanupFetch_views s).1]

end Stages

/-- A cache as the calls of its stage show it in a run. -/
structure FollowsL1 (base : Cache) (event : State Memories → Option L1Event)
    (view : State Memories → L1View) : Prop where
  initial : ∀ mem regs hi lo, L1Sound base (view (initialState initialMemories mem regs hi lo))
  cycle : ∀ {s s'}, s.Settled → memSystem.cycle s = .ok s' → L1Cycle (event s) (view s) (view s')
  answer : ∀ {s b r}, s.Settled → event s = some (.access b r) →
    (r = .cacheHit ↔ InL1 (view s).cache b)

lemma initialCache_l1Sound (capacity : Word) (numWays : BitVec 8)
    (hc : (allocCache capacity numWays blockSize).isSome = true)
    (hs : 0 < (initialCache capacity numWays).numSets) :
    L1Sound (initialCache capacity numWays) ⟨initialCache capacity numWays,none⟩ where
  shaped := Cache.alloc_shaped (allocCache_initialCache hc) hs
  split := ⟨rfl,rfl⟩
  distinct set v w hv :=
    absurd rfl (hitWay_none (initialCache_misses capacity numWays set _) hv)
  absent a ha := by cases ha

theorem icache_followsL1 : FollowsL1 initialMemories.icache State.icacheEvent State.icacheView where
  initial _ _ _ _ := initialCache_l1Sound icacheSize icacheWays (by decide) (by decide)
  cycle hs h := (cycle_l1Cycle hs h).1
  answer {s b r} hs h := by
    unfold State.icacheEvent at h
    cases hback : memSystem.backStages s with
    | error e => simp [hback] at h
    | ok s₁ =>
      simp only [hback] at h
      obtain ⟨s₀,hm,rfl⟩ := backStages_eq hback
      obtain ⟨-,hiview⟩ := pipeStageMem_l1Stage
        (s := { s with pipe := pipeStageWb s.l1FetchWaiting s.pipe }) hs.memCancelled hm
      have hcache : s₀.sys.icache = s.sys.icache := congrArg L1View.cache hiview
      rw [fetchEvent_access h, show (State.icacheView s).cache = s.sys.icache from rfl, ← hcache]

theorem dcache_followsL1 : FollowsL1 initialMemories.dcache State.dcacheEvent State.dcacheView where
  initial _ _ _ _ := initialCache_l1Sound dcacheSize dcacheWays (by decide) (by decide)
  cycle hs h := (cycle_l1Cycle hs h).2
  answer {s b r} hs h := memEvent_access
    (s := { s with pipe := pipeStageWb s.l1FetchWaiting s.pipe }) hs.memCancelled h

namespace FollowsL1
variable {base : Cache} {event : State Memories → Option L1Event}
  {view : State Memories → L1View}

theorem reaches (F : FollowsL1 base event view) (mem : Memory) (regs : Reg → Word) (hi lo : Word)
    {n : ℕ} {s : State Memories}
    (h : memSystem.machine.Reaches (initialState initialMemories mem regs hi lo) n s) :
    L1Sound base (view s) ∧ s.Settled := by
  refine Lib.Machine.Reaches.invariant memSystem.machine
    (P := fun s => L1Sound base (view s) ∧ s.Settled) ?_ ?_ h
  · exact ⟨F.initial mem regs hi lo,initialState_settled _ _ _ _ _⟩
  · rintro a b ⟨hv,hs⟩ - hc
    exact ⟨hv.cycle (F.cycle hs hc),cycle_settled hs hc⟩

/-- The filled block is there until another one is filled into its set. -/
theorem stays (F : FollowsL1 base event view) {s s' : State Memories} {a : Word} {k : ℕ}
    (hs : s.Settled) (hv : L1Sound base (view s)) (he : event s = some (.fill a))
    (h : memSystem.machine.Reaches s (k+1) s')
    (hother : ∀ j t f, 0 < j → j ≤ k → memSystem.machine.Reaches s j t →
      event t = some (.fill f) → base.setOf f ≠ base.setOf a ∨ SameBlock base f a) :
    InL1 (view s').cache a ∧ L1Sound base (view s') ∧ s'.Settled := by
  induction k generalizing s' with
  | zero =>
    obtain ⟨t,ht,-,hc⟩ := h
    obtain rfl : t = s := ht
    have hcycle := F.cycle hs hc
    rw [he] at hcycle
    exact ⟨(hcycle.filled hv).1,hv.cycle hcycle,cycle_settled hs hc⟩
  | succ k ih =>
    obtain ⟨t,ht,-,hc⟩ := h
    obtain ⟨hin,hv',hs'⟩ := ih ht fun j t f h0 hj => hother j t f h0 (by omega)
    have hcycle := F.cycle hs' hc
    refine ⟨hcycle.keeps hv' hin fun f hf => ?_,hv'.cycle hcycle,cycle_settled hs' hc⟩
    exact hother (k+1) t f (Nat.succ_pos k) le_rfl ht hf

end FollowsL1

end CaLabs.Lab2
