import CaLabs.Lab2.DramFill

/-! The second-level cache holds a block once if no block is inserted that it holds already, and
what the stages of a cycle do to it. -/
namespace CaLabs.Lab2
open Mips Pipeline

/-- No two valid ways of the set have one tag. -/
def DistinctTags (blocks : List Block) : Prop :=
  ∀ v w, validAt blocks v = true → validAt blocks w = true →
    tagAt blocks v = tagAt blocks w → v = w

def NoDuplicates (c : Cache) : Prop := ∀ set, DistinctTags (c.sets set)

def SameBlock (c : Cache) (address address' : Word) : Prop :=
  c.setOf address = c.setOf address' ∧ c.tagOf address = c.tagOf address'

/-- The request is still queued when its MSHR is done. -/
def completed (mshrs : MshrFile) (r : MemRequest) : Bool := r.valid && (mshrs r.mshr).done

/-- What the last loop of memory_controller_cycle relies on: the blocks of the completed
requests are not in the cache yet, and no two of them are the same. -/
structure FreshFills (mshrs : MshrFile) (mc : MemController) (l2cache : Cache) : Prop where
  absent : ∀ r ∈ mc.queue, completed mshrs r = true → ¬InL2 l2cache r.address
  once : mc.queue.Pairwise fun r r' => completed mshrs r = true → completed mshrs r' = true →
    ¬SameBlock l2cache r.address r'.address

section Blocks
variable {base : Cache} {a b : Word}

lemma blockAddr_shift (a : Word) : blockAddr a >>> 5 = a >>> 5 := by
  have hmask : (~~~31#32) >>> 5 = (BitVec.allOnes 32) >>> 5 := by decide
  rw [blockAddr, BitVec.ushiftRight_and_distrib, hmask, ← BitVec.ushiftRight_and_distrib,
    BitVec.and_allOnes]

/-- Addresses in one block have one set and one tag. -/
lemma sameBlock_of_blockAddr (hb : base.blockBits = 5) (h : blockAddr a = blockAddr b) :
    SameBlock base a b := by
  have hshift : a >>> 5 = b >>> 5 := by rw [← blockAddr_shift a, h, blockAddr_shift]
  constructor
  · rw [Cache.setOf, Cache.setOf, hb, hshift]
  · rw [Cache.tagOf, Cache.tagOf, hb, BitVec.shiftRight_add, hshift, ← BitVec.shiftRight_add]

lemma blockAddr_of_shift (h : a >>> 5 = b >>> 5) : blockAddr a = blockAddr b := by
  have hback : ∀ c : Word, blockAddr c = (c >>> 5) <<< 5 := fun c => by
    have hmask : ~~~31#32 = BitVec.allOnes 32 <<< 5 := by decide
    rw [blockAddr, hmask, BitVec.shiftLeft_ushiftRight]
  rw [hback, hback, h]

/-- One set and one tag are one block. -/
lemma SameBlock.blockAddr_eq (hs : base.Shaped) (hb : base.blockBits = 5)
    (h : SameBlock base a b) : blockAddr a = blockAddr b := by
  refine blockAddr_of_shift (BitVec.eq_of_toNat_eq ?_)
  have htag := congrArg BitVec.toNat h.2
  have hset := h.1
  rw [hs.setOf_eq_mod, hs.setOf_eq_mod, hb] at hset
  simp only [Cache.tagOf, hb, BitVec.toNat_ushiftRight, Nat.shiftRight_eq_div_pow, pow_add,
    ← Nat.div_div_eq_div_mul] at htag ⊢
  rw [← Nat.div_add_mod (a.toNat / 2 ^ 5) (2 ^ base.setBits), htag, hset, Nat.div_add_mod]

end Blocks

section Insert
variable {c : Cache} {address other : Word}

lemma inL2_iff : InL2 c address ↔
    ∃ w, validAt (c.sets (c.setOf address)) w = true ∧
      tagAt (c.sets (c.setOf address)) w = c.tagOf address := by
  rw [InL2, Option.isSome_iff_ne_none]
  constructor
  · intro h
    obtain ⟨w,hw⟩ := Option.ne_none_iff_exists'.mp h
    exact ⟨w,hitWay_some hw⟩
  · rintro ⟨w,hw,ht⟩ hnone
    exact hitWay_none hnone hw ht

/-- The blocks of a set after insert_l2_block. -/
def insertedBlocks (tag : Word) (victim : ℕ) (blocks : List Block) : List Block :=
  blocks.mapIdx fun b block =>
    if b = victim then { block with tag := tag, valid := true, recency := 0 }
    else if block.valid then { block with recency := block.recency + 1 }
    else block

lemma getD_insertedBlocks (tag : Word) (victim : ℕ) (blocks : List Block) (w : ℕ) :
    validAt (insertedBlocks tag victim blocks) w =
      (if w = victim ∧ w < blocks.length then true else validAt blocks w) ∧
    tagAt (insertedBlocks tag victim blocks) w =
      if w = victim ∧ w < blocks.length then tag else tagAt blocks w := by
  unfold insertedBlocks validAt tagAt
  by_cases hw : w < blocks.length
  · rw [List.getD_eq_getElem _ _ (by simpa using hw), List.getElem_mapIdx, getD_of_lt hw]
    by_cases hv : w = victim
    · rw [if_pos hv, if_pos ⟨hv,hw⟩, if_pos ⟨hv,hw⟩]
      exact ⟨rfl,rfl⟩
    · have hno : ¬(w = victim ∧ w < blocks.length) := fun h => hv h.1
      rw [if_neg hv, if_neg hno, if_neg hno]
      split_ifs <;> exact ⟨rfl,rfl⟩
  · have hge : blocks.length ≤ w := not_lt.mp hw
    rw [List.getD_eq_default _ _ (by simpa using hge), List.getD_eq_default _ _ hge,
      if_neg fun h => hw h.2, if_neg fun h => hw h.2]
    exact ⟨rfl,rfl⟩

lemma insertL2Block_sets (c : Cache) (address : Word) : insertL2Block c address =
    c.setBlocks (c.setOf address) (insertedBlocks (c.tagOf address)
      (victimWay c.numWays (c.sets (c.setOf address))) (c.sets (c.setOf address))) := rfl

/-- Nothing but the block itself gets into the cache. -/
lemma inL2_insertL2Block (h : InL2 (insertL2Block c address) other) :
    InL2 c other ∨ SameBlock c address other := by
  obtain ⟨w,hw,ht⟩ := inL2_iff.mp h
  have hset : (insertL2Block c address).setOf other = c.setOf other := rfl
  have htag : (insertL2Block c address).tagOf other = c.tagOf other := rfl
  rw [htag] at ht
  rw [hset, insertL2Block_sets] at hw ht
  by_cases he : c.setOf other = c.setOf address
  · rw [he] at hw ht
    simp only [Cache.setBlocks, Function.update_self] at hw ht
    obtain ⟨hvalid,htag'⟩ := getD_insertedBlocks (c.tagOf address)
      (victimWay c.numWays (c.sets (c.setOf address))) (c.sets (c.setOf address)) w
    rw [hvalid] at hw
    rw [htag'] at ht
    split_ifs at hw ht with hvictim
    · exact .inr ⟨he.symm,ht⟩
    · exact .inl (inL2_iff.mpr ⟨w,by rw [he]; exact hw,by rw [he]; exact ht⟩)
  · simp only [Cache.setBlocks, Function.update_of_ne he] at hw ht
    exact .inl (inL2_iff.mpr ⟨w,hw,ht⟩)

/-- A replacement keeps the tags distinct if no way but the replaced one has held the block. -/
lemma NoDuplicates.replace (h : NoDuplicates c) {set : ℕ} {blocks : List Block} {tag : Word}
    {p : ℕ → Prop} [DecidablePred p] (hone : ∀ v w, p v → p w → v = w)
    (hvalid : ∀ w, validAt blocks w = if p w then true else validAt (c.sets set) w)
    (htag : ∀ w, tagAt blocks w = if p w then tag else tagAt (c.sets set) w)
    (hold : ∀ w, validAt (c.sets set) w = true → tagAt (c.sets set) w = tag → p w) :
    NoDuplicates (c.setBlocks set blocks) := by
  intro s v w hv hw ht
  by_cases hs : s = set
  · subst hs
    simp only [Cache.setBlocks, Function.update_self] at hv hw ht
    rw [hvalid] at hv hw
    rw [htag, htag] at ht
    split_ifs at hv hw ht with hv' hw' hw'
    · exact hone v w hv' hw'
    · exact absurd (hold w hw ht.symm) hw'
    · exact absurd (hold v hv ht) hv'
    · exact h _ v w hv hw ht
  · simp only [Cache.setBlocks, Function.update_of_ne hs] at hv hw ht
    exact h _ v w hv hw ht

lemma insertL2Block_keeps (h : NoDuplicates c)
    (ho : ∀ w, validAt (c.sets (c.setOf address)) w = true →
      tagAt (c.sets (c.setOf address)) w = c.tagOf address →
      w = victimWay c.numWays (c.sets (c.setOf address))) :
    NoDuplicates (insertL2Block c address) := by
  have hget := getD_insertedBlocks (c.tagOf address)
    (victimWay c.numWays (c.sets (c.setOf address))) (c.sets (c.setOf address))
  rw [insertL2Block_sets]
  refine h.replace (fun v w hv hw => hv.1.trans hw.1.symm) (fun w => (hget w).1)
    (fun w => (hget w).2) fun w hw ht => ⟨ho w hw ht,lt_length_of_validAt hw⟩

lemma insertL2Block_noDuplicates (h : NoDuplicates c) (ha : ¬InL2 c address) :
    NoDuplicates (insertL2Block c address) :=
  insertL2Block_keeps h fun w hw ht => absurd (inL2_iff.mpr ⟨w,hw,ht⟩) ha

/-- The insertion of a block that another way holds always makes a duplicate. -/
lemma insertL2Block_duplicates {w : ℕ}
    (hv : victimWay c.numWays (c.sets (c.setOf address)) < (c.sets (c.setOf address)).length)
    (hw : validAt (c.sets (c.setOf address)) w = true)
    (ht : tagAt (c.sets (c.setOf address)) w = c.tagOf address)
    (hne : w ≠ victimWay c.numWays (c.sets (c.setOf address))) :
    ¬DistinctTags ((insertL2Block c address).sets (c.setOf address)) := by
  intro hn
  have hget := getD_insertedBlocks (c.tagOf address)
    (victimWay c.numWays (c.sets (c.setOf address))) (c.sets (c.setOf address))
  have hn' := hn w (victimWay c.numWays (c.sets (c.setOf address)))
  rw [insertL2Block_sets] at hn'
  simp only [Cache.setBlocks, Function.update_self, hget, ht, ite_self, hw, hv, and_self,
    if_true, true_implies] at hn'
  exact hne hn'

/-- A hit only moves the block to the front of the LRU order. -/
lemma setBlocks_updateLru_noDuplicates (h : NoDuplicates c) {set b : ℕ} {tag : Word}
    (hb : hitWay (c.sets set) tag = some b) :
    NoDuplicates (c.setBlocks set (updateLru (c.sets set) b)) := by
  have hlt := lt_length_of_validAt (hitWay_some hb).1
  intro s v w hv hw ht
  by_cases hs : s = set
  · subst hs
    simp only [Cache.setBlocks, Function.update_self, validAt_updateLru hlt,
      tagAt_updateLru hlt] at hv hw ht
    exact h _ v w hv hw ht
  · simp only [Cache.setBlocks, Function.update_of_ne hs] at hv hw ht
    exact h _ v w hv hw ht

/-- A hit leaves all blocks where they are. -/
lemma inL2_setBlocks_updateLru {set b : ℕ} {tag : Word} (hb : hitWay (c.sets set) tag = some b)
    (a : Word) : InL2 (c.setBlocks set (updateLru (c.sets set) b)) a ↔ InL2 c a := by
  have hlt := lt_length_of_validAt (hitWay_some hb).1
  rw [inL2_iff, inL2_iff]
  have hset : (c.setBlocks set (updateLru (c.sets set) b)).setOf a = c.setOf a := rfl
  have htag : (c.setBlocks set (updateLru (c.sets set) b)).tagOf a = c.tagOf a := rfl
  rw [hset, htag]
  by_cases hs : c.setOf a = set
  · subst hs
    simp only [Cache.setBlocks, Function.update_self, validAt_updateLru hlt, tagAt_updateLru hlt]
  · simp only [Cache.setBlocks, Function.update_of_ne hs]

/-- Only the block of the address matters. -/
lemma inL2_congr (h : SameBlock c address other) : InL2 c address ↔ InL2 c other := by
  rw [InL2, InL2, h.1, h.2]

end Insert

section Fills
variable {mshrs : MshrFile} {l2cache : Cache}

lemma processCompletedFills_eq (mshrs : MshrFile) (mc : MemController) (l2cache : Cache) :
    processCompletedFills mshrs mc l2cache =
      ((mc.queue.filter (completed mshrs)).map (·.address)).foldl insertL2Block l2cache := by
  rw [processCompletedFills, List.foldl_map, List.foldl_filter]
  rfl

lemma foldl_insertL2Block_sets {l : List Word} {set : ℕ} (h : ∀ a ∈ l, l2cache.setOf a ≠ set) :
    (l.foldl insertL2Block l2cache).sets set = l2cache.sets set := by
  induction l generalizing l2cache with
  | nil => rfl
  | cons a l ih =>
    have hother : (insertL2Block l2cache a).sets set = l2cache.sets set :=
      Function.update_of_ne (h a List.mem_cons_self).symm _ _
    have hrest : (l.foldl insertL2Block (insertL2Block l2cache a)).sets set =
        (insertL2Block l2cache a).sets set := ih fun a' ha' => h a' (List.mem_cons_of_mem a ha')
    rw [List.foldl_cons, hrest, hother]

/-- The last loop of memory_controller_cycle, on what is left of the queue. -/
lemma foldl_noDuplicates {queue : List MemRequest} (h : NoDuplicates l2cache)
    (habsent : ∀ r ∈ queue, completed mshrs r = true → ¬InL2 l2cache r.address)
    (honce : queue.Pairwise fun r r' => completed mshrs r = true → completed mshrs r' = true →
      ¬SameBlock l2cache r.address r'.address) :
    NoDuplicates (queue.foldl (fun l2cache r =>
      if r.valid && (mshrs r.mshr).done then insertL2Block l2cache r.address else l2cache)
      l2cache) := by
  induction queue generalizing l2cache with
  | nil => exact h
  | cons r queue ih =>
    obtain ⟨hr,hrest⟩ := List.pairwise_cons.mp honce
    rw [List.foldl_cons]
    split_ifs with hc
    · refine ih (insertL2Block_noDuplicates h (habsent r List.mem_cons_self hc))
        (fun r' hr' hc' hin => ?_) hrest
      rcases inL2_insertL2Block hin with hin' | hsame
      · exact habsent r' (List.mem_cons_of_mem r hr') hc' hin'
      · exact hr r' hr' hc hc' hsame
    · exact ih h (fun r' hr' => habsent r' (List.mem_cons_of_mem r hr')) hrest

/-- The last loop adds the blocks of the completed requests only. -/
lemma inL2_foldl {queue : List MemRequest} {a : Word}
    (h : InL2 (queue.foldl (fun l2cache r =>
      if r.valid && (mshrs r.mshr).done then insertL2Block l2cache r.address else l2cache)
      l2cache) a) :
    InL2 l2cache a ∨ ∃ r ∈ queue, completed mshrs r = true ∧ SameBlock l2cache r.address a := by
  induction queue generalizing l2cache with
  | nil => exact .inl h
  | cons r queue ih =>
    rw [List.foldl_cons] at h
    split_ifs at h with hc
    · rcases ih h with hin | ⟨r',hr',hc',hsame⟩
      · rcases inL2_insertL2Block hin with hin | hsame
        · exact .inl hin
        · exact .inr ⟨r,List.mem_cons_self,hc,hsame⟩
      · exact .inr ⟨r',List.mem_cons_of_mem r hr',hc',hsame⟩
    · rcases ih h with hin | ⟨r',hr',hrest⟩
      · exact .inl hin
      · exact .inr ⟨r',List.mem_cons_of_mem r hr',hrest⟩

lemma foldl_split (queue : List MemRequest) :
    (queue.foldl (fun l2cache r =>
      if r.valid && (mshrs r.mshr).done then insertL2Block l2cache r.address else l2cache)
      l2cache).setOf = l2cache.setOf ∧
    (queue.foldl (fun l2cache r =>
      if r.valid && (mshrs r.mshr).done then insertL2Block l2cache r.address else l2cache)
      l2cache).tagOf = l2cache.tagOf := by
  induction queue generalizing l2cache with
  | nil => exact ⟨rfl,rfl⟩
  | cons r queue ih =>
    rw [List.foldl_cons]
    split_ifs
    · exact ih
    · exact ih

end Fills

/-! What the calls of the stages into the memory system keep, the stages keep. -/

structure KeptByCalls (Q : Memories → Prop) (t : Word) : Prop where
  access : ∀ m isIcache address, Q m → Q (m.l1CacheAccess isIcache t address).2
  fill : ∀ m isIcache address, Q m → Q (memSystem.completeL1Fill m isIcache address)
  free : ∀ m address, Q m → Q (memSystem.freeMshr m address)

section Calls
variable {Q : Memories → Prop} {t : Word} {s s' : State Memories}

lemma setL1_rest (m : Memories) (isIcache : Bool) (c : Cache) :
    (m.setL1 isIcache c).l2cache = m.l2cache ∧ (m.setL1 isIcache c).mshrs = m.mshrs := by
  cases isIcache <;> exact ⟨rfl,rfl⟩

/-- A property of the second-level cache alone. -/
lemma keptByCalls_l2cache {P : Cache → Prop}
    (hP : ∀ l2cache mshrs isIcache address, P l2cache →
      P (l2CacheAccess l2cache mshrs t isIcache address).2.1) :
    KeptByCalls (fun m => P m.l2cache) t where
  access m isIcache address h := by
    rw [Memories.l1CacheAccess]
    dsimp only
    cases hitWay ((m.l1 isIcache).sets ((m.l1 isIcache).setOf address))
        ((m.l1 isIcache).tagOf address) with
    | some b =>
      dsimp only
      rwa [(setL1_rest _ _ _).1]
    | none =>
      cases findMshrForAddress m.mshrs address with
      | some i => exact h
      | none => exact hP _ _ _ _ h
  fill m isIcache address h := (setL1_rest m isIcache _).1.symm ▸ h
  free _ _ h := h

namespace KeptByCalls

lemma access_ok (k : KeptByCalls Q t) {m m' : Memories} {isIcache : Bool} {address : Word}
    {r : CacheAccessResult} (h : Q m) (ha : memSystem.access m isIcache t address = .ok (r,m')) :
    Q m' := by
  have hm := k.access m isIcache address h
  rwa [Lab2.access_ok ha] at hm

lemma cleanupMem (k : KeptByCalls Q t) (h : Q s.sys) :
    Q (memSystem.cleanupMem s).sys ∧ (memSystem.cleanupMem s).statCycles = s.statCycles := by
  unfold MemSystem.cleanupMem
  split_ifs
  · exact ⟨k.free _ _ h,rfl⟩
  · exact ⟨h,rfl⟩

lemma pipeStageMem (k : KeptByCalls Q t) (ht : s.statCycles = t) (h : Q s.sys)
    (hm : memSystem.MemStage s s') : Q s'.sys ∧ s'.statCycles = t := by
  obtain ⟨hclean,hsame⟩ := k.cleanupMem h
  rw [ht] at hsame
  cases hm with
  | empty => exact ⟨h,ht⟩
  | filled => exact ⟨k.free _ _ (k.fill _ _ _ h),ht⟩
  | waits => exact ⟨h,ht⟩
  | missed hop hw hmem ha => exact ⟨k.access_ok hclean (hsame ▸ ha),hsame⟩
  | hit hop hw ha => exact ⟨k.access_ok hclean (hsame ▸ ha),hsame⟩
  | passed => exact ⟨hclean,hsame⟩

lemma cleanupFetch (k : KeptByCalls Q t) (h : Q s.sys) :
    Q (memSystem.cleanupFetch s).sys ∧
      (memSystem.cleanupFetch s).statCycles = s.statCycles := by
  unfold MemSystem.cleanupFetch
  split_ifs
  · exact ⟨k.free _ _ h,rfl⟩
  · exact ⟨h,rfl⟩

lemma pipeStageFetch (k : KeptByCalls Q t) (ht : s.statCycles = t) (h : Q s.sys)
    (hf : memSystem.FetchStage s s') : Q s'.sys := by
  obtain ⟨hclean,hsame⟩ := k.cleanupFetch h
  rw [ht] at hsame
  cases hf with
  | blocked => exact h
  | filled => exact k.free _ _ (k.fill _ _ _ h)
  | waits => exact h
  | missed hop hw ha => exact k.access_ok hclean (hsame ▸ ha)
  | hit hop hw ha => exact k.access_ok hclean (hsame ▸ ha)

theorem stages (k : KeptByCalls Q s.statCycles) (h : Q s.sys)
    (hst : memSystem.stages s = .ok s') : Q s'.sys := by
  obtain ⟨s₁,s₂,hb,hf,rfl⟩ := MemSystem.stages_ok hst
  obtain ⟨s₀,hm,rfl⟩ := MemSystem.backStages_ok hb
  obtain ⟨hback,ht⟩ := k.pipeStageMem
    (s := { s with pipe := pipeStageWb s.l1FetchWaiting s.pipe }) rfl h hm
  have hfetch : Q s₂.sys := k.pipeStageFetch
    (s := { s₀ with pipe := pipeStageDecode (pipeStageExecute s₀.pipe) }) ht hback
    (MemSystem.pipeStageFetch_ok hf)
  exact hfetch

end KeptByCalls

/-- A cycle changes the second-level cache by its insertions only. -/
lemma cycle_l2cache (hc : memSystem.cycle s = .ok s') : ∃ s₁ mshrs mc,
    memSystem.stages s = .ok s₁ ∧
    queueMisses (markFills s₁.sys.mshrs s₁.statCycles) s₁.sys.controller s₁.statCycles =
      .ok (mshrs,mc) ∧
    s'.sys.l2cache = processCompletedFills (scheduleRequest mshrs mc s₁.statCycles).1
      (scheduleRequest mshrs mc s₁.statCycles).2 s₁.sys.l2cache := by
  obtain ⟨s₁,sys,hst,hcon,rfl⟩ := MemSystem.cycle_ok hc
  obtain ⟨l2cache,hcyc,rfl⟩ := controllerCycle_ok hcon
  obtain ⟨mshrs,mc,hq,hs,hl2⟩ := memoryControllerCycle_ok hcyc
  refine ⟨s₁,mshrs,mc,hst,hq,?_⟩
  have hsched : scheduleRequest mshrs mc s₁.statCycles = (sys.mshrs,sys.controller) := hs
  rw [hsched]
  exact hl2

end Calls

end CaLabs.Lab2
