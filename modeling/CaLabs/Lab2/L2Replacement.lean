import CaLabs.Lab2.L2Content

/-! Replacement in the second-level cache of lab 2. Its hits and its insertions update the
counters in two ways, and both keep the order of use. -/
namespace CaLabs.Lab2
open Mips Pipeline Lib

/-- What the memory system does to the second-level cache. -/
inductive L2Op where
  | access (mshrs : MshrFile) (statCycles : Word) (isIcache : Bool) (address : Word)
  | insert (address : Word)

namespace L2Op

def apply (c : Cache) : L2Op → Cache
  | access mshrs statCycles isIcache address =>
    (l2CacheAccess c mshrs statCycles isIcache address).2.1
  | insert address => insertL2Block c address

def runAll (c : Cache) (ops : List L2Op) : Cache := ops.foldl apply c

end L2Op

section Insertion
variable {blocks : List Block} {order rest : List ℕ} {v : ℕ}

/-- The replaced way starts at zero and every other valid way ages. -/
lemma recencyAt_insertedBlocks (tag : Word) (victim : ℕ) (blocks : List Block) (w : ℕ) :
    recencyAt (insertedBlocks tag victim blocks) w =
      if w = victim ∧ w < blocks.length then 0
      else if validAt blocks w then recencyAt blocks w + 1 else recencyAt blocks w := by
  unfold insertedBlocks recencyAt validAt
  by_cases hw : w < blocks.length
  · rw [List.getD_eq_getElem _ _ (by simpa using hw), List.getElem_mapIdx, getD_of_lt hw]
    by_cases hv : w = victim
    · rw [if_pos hv, if_pos ⟨hv,hw⟩]
    · have hno : ¬(w = victim ∧ w < blocks.length) := fun h => hv h.1
      rw [if_neg hv, if_neg hno]
      split_ifs <;> rfl
  · have hge : blocks.length ≤ w := not_lt.mp hw
    rw [List.getD_eq_default _ _ (by simpa using hge), List.getD_eq_default _ _ hge,
      if_neg fun h => hw h.2]
    rfl

/-- The replaced way before all the ways that stay. -/
lemma insertedBlocks_ranked (tag : Word) (hlt : v < blocks.length) (hv : v ∉ rest)
    (hrank : Ranked (recencyAt blocks) rest) (hrest : ∀ w ∈ rest, validAt blocks w = true)
    (hfilled : ∀ w, w ∈ v :: rest ↔ w < (v :: rest).length)
    (hvalid : ∀ w, validAt blocks w = true → w ∈ v :: rest) :
    RankedWays (insertedBlocks tag v blocks) (v :: rest) where
  ranked := by
    refine hrank.push hv ?_ fun w hw => ?_
    · rw [recencyAt_insertedBlocks, if_pos ⟨rfl,hlt⟩]
    · have hne : ¬(w = v ∧ w < blocks.length) := fun he => hv (he.1 ▸ hw)
      rw [recencyAt_insertedBlocks, if_neg hne, if_pos (hrest w hw)]
  filled := hfilled
  valid w := by
    rw [(getD_insertedBlocks tag v blocks w).1]
    split_ifs with hw
    · exact ⟨fun _ => hw.1 ▸ List.mem_cons_self,fun _ => rfl⟩
    · refine ⟨hvalid w,fun hmem => hrest w ?_⟩
      refine (List.mem_cons.mp hmem).resolve_left fun he => hw ⟨he,?_⟩
      rwa [he]

/-- insert_l2_block takes the first free way, or the last one of a full set. -/
theorem insertedBlocks_rankedWays (h : RankedWays blocks order) (hpos : 0 < blocks.length)
    (tag : Word) : ∃ order', RankedWays (insertedBlocks tag (victimWay blocks.length blocks) blocks)
      order' := by
  unfold victimWay
  cases hi : invalidWay blocks with
  | some v =>
    obtain ⟨hlt,-,-⟩ := invalidWay_some hi
    obtain ⟨hnext,hv⟩ := h.next hi
    dsimp only
    refine ⟨v :: order,insertedBlocks_ranked tag hlt hv h.ranked
      (fun w hw => (h.valid w).mpr hw) (fun w => ?_) fun w hw => ?_⟩
    · rw [List.mem_cons, List.length_cons, h.filled, hnext]
      omega
    · exact List.mem_cons_of_mem v ((h.valid w).mp hw)
  | none =>
    obtain ⟨v,hf,hlast⟩ := h.findIdx_last hi hpos
    have hlt := h.lt_of_mem (List.mem_of_getLast? hlast)
    obtain ⟨rest,rfl⟩ := List.getLast?_eq_some_iff.mp hlast
    obtain ⟨hv,hrank⟩ := h.ranked.init
    have hmem : ∀ w, w ∈ v :: rest ↔ w ∈ rest ++ [v] := by
      intro w
      rw [List.mem_cons, List.mem_append, List.mem_singleton, or_comm]
    dsimp only
    rw [hf, Option.getD_some]
    refine ⟨v :: rest,insertedBlocks_ranked tag hlt hv hrank (fun w hw => ?_) (fun w => ?_)
      fun w hw => ?_⟩
    · exact (h.valid w).mpr (List.mem_append_left _ hw)
    · rw [hmem, h.filled, List.length_append, List.length_singleton, List.length_cons]
    · exact (hmem w).mpr ((h.valid w).mp hw)

end Insertion

/-- Every set has its valid ways first, with the order of use in their counters. -/
structure RankedSets (c : Cache) : Prop where
  shaped : c.Shaped
  sets : ∀ s < c.numSets, ∃ order, RankedWays (c.sets s) order

lemma allocCache_rankedSets {capacity : Word} {numWays blockSize : BitVec 8} {c : Cache}
    (h : allocCache capacity numWays blockSize = some c) (hs : 0 < c.numSets) : RankedSets c where
  shaped := Cache.alloc_shaped h hs
  sets s hlt := by
    have hinvalid : ∀ w, validAt (c.sets s) w = false := by
      intro w
      rw [validAt, Cache.alloc_sets h hlt, List.getD_eq_getElem?_getD, List.getElem?_map]
      cases (List.range c.numWays)[w]? <;> rfl
    refine ⟨[],⟨List.nodup_nil,fun x hx => (by cases hx)⟩,by simp,fun w => ?_⟩
    simp [hinvalid]

namespace RankedSets
variable {c : Cache}

lemma setBlocks (h : RankedSets c) {set : ℕ} {blocks : List Block} {order : List ℕ}
    (hl : blocks.length = c.numWays) (hb : RankedWays blocks order) :
    RankedSets (c.setBlocks set blocks) where
  shaped := h.shaped.setBlocks set hl
  sets s hs := by
    by_cases he : s = set
    · subst he
      simpa only [Cache.setBlocks, Function.update_self] using ⟨order,hb⟩
    · simpa only [Cache.setBlocks, Function.update_of_ne he] using h.sets s hs

lemma access (h : RankedSets c) (mshrs : MshrFile) (t : Word) (isIcache : Bool) (a : Word) :
    RankedSets (l2CacheAccess c mshrs t isIcache a).2.1 := by
  unfold l2CacheAccess
  cases allocateMshr mshrs a isIcache with
  | none => exact h
  | some p =>
    dsimp only
    cases hw : hitWay (c.sets (c.setOf a)) (c.tagOf a) with
    | none => exact h
    | some w =>
      obtain ⟨order,hb⟩ := h.sets _ (h.shaped.setOf_lt a)
      exact h.setBlocks ((length_updateLru _ w).trans (h.shaped.length_setOf a))
        (hb.hit ((hb.valid w).mp (hitWay_some hw).1))

lemma insert (h : RankedSets c) (a : Word) : RankedSets (insertL2Block c a) := by
  obtain ⟨order,hb⟩ := h.sets _ (h.shaped.setOf_lt a)
  have hlen := h.shaped.length_setOf a
  obtain ⟨order',hb'⟩ := insertedBlocks_rankedWays hb (hlen ▸ h.shaped.ways_pos)
    (c.tagOf a)
  rw [hlen] at hb'
  rw [insertL2Block_sets]
  exact h.setBlocks (by rw [insertedBlocks, List.length_mapIdx, hlen]) hb'

theorem apply (h : RankedSets c) (op : L2Op) : RankedSets (op.apply c) := by
  cases op with
  | access mshrs t isIcache a => exact h.access mshrs t isIcache a
  | insert a => exact h.insert a

theorem runAll (h : RankedSets c) (ops : List L2Op) : RankedSets (L2Op.runAll c ops) := by
  induction ops generalizing c with
  | nil => exact h
  | cons op ops ih => exact ih (h.apply op)

end RankedSets

section Geometry
variable (c : Cache)

lemma l2CacheAccess_geometry (mshrs : MshrFile) (t : Word) (isIcache : Bool) (a : Word) :
    (l2CacheAccess c mshrs t isIcache a).2.1.numSets = c.numSets ∧
      (l2CacheAccess c mshrs t isIcache a).2.1.numWays = c.numWays := by
  unfold l2CacheAccess
  cases allocateMshr mshrs a isIcache with
  | none => exact ⟨rfl,rfl⟩
  | some p =>
    dsimp only
    cases hitWay (c.sets (c.setOf a)) (c.tagOf a) <;> exact ⟨rfl,rfl⟩

lemma L2Op.runAll_geometry (ops : List L2Op) :
    (runAll c ops).numSets = c.numSets ∧ (runAll c ops).numWays = c.numWays := by
  induction ops generalizing c with
  | nil => exact ⟨rfl,rfl⟩
  | cons op ops ih =>
    have happly : (op.apply c).numSets = c.numSets ∧ (op.apply c).numWays = c.numWays := by
      cases op with
      | access mshrs t isIcache a => exact l2CacheAccess_geometry c mshrs t isIcache a
      | insert a => exact ⟨rfl,rfl⟩
    exact ⟨(ih _).1.trans happly.1,(ih _).2.trans happly.2⟩

end Geometry

/-- A full set of n ways has one way with the greatest counter, which the search for the
victim finds. -/
structure OneVictim (n : ℕ) (blocks : List Block) : Prop where
  found : (blocks.findIdx? fun b => b.recency == n - 1) = some (victimWay n blocks)
  only : ∀ w < n, recencyAt blocks w = n - 1 ↔ w = victimWay n blocks

lemma oneVictim_of_full {blocks : List Block} {order : List ℕ} (h : RankedWays blocks order)
    (hpos : 0 < blocks.length) (hfull : invalidWay blocks = none) :
    OneVictim blocks.length blocks := by
  obtain ⟨v,hf,hlast⟩ := h.findIdx_last hfull hpos
  have hlen := h.length_eq_of_full hfull
  have hvictim : victimWay blocks.length blocks = v := by
    simp only [victimWay, hfull, hf, Option.getD_some]
  rw [← hvictim] at hf hlast
  refine ⟨hf,fun w hw => ?_⟩
  rw [← hlen, h.ranked.last_iff ((h.filled w).mpr (hlen ▸ hw)), hlast, hlen, Option.some.injEq]
  exact eq_comm

/-- After any hits and insertions, the k valid ways of every set come first and their counters
are a permutation of 0 to k-1. A full set always has one way with the greatest counter, and it
is the victim of the next insertion. -/
theorem l2_recency_permutation {capacity : Word} {numWays blockSize : BitVec 8} {c : Cache}
    (h : allocCache capacity numWays blockSize = some c) (ops : List L2Op) {s : ℕ}
    (hs : s < c.numSets) :
    ∃ k ≤ c.numWays,
      (∀ w, validAt ((L2Op.runAll c ops).sets s) w = true ↔ w < k) ∧
      ((List.range k).map (recencyAt ((L2Op.runAll c ops).sets s))).Perm (List.range k) ∧
      (invalidWay ((L2Op.runAll c ops).sets s) = none →
        k = c.numWays ∧ OneVictim c.numWays ((L2Op.runAll c ops).sets s)) := by
  obtain ⟨hnum,hways⟩ := L2Op.runAll_geometry c ops
  have hr := (allocCache_rankedSets h (Nat.zero_lt_of_lt hs)).runAll ops
  obtain ⟨order,hb⟩ := hr.sets s (hnum ▸ hs)
  have hlen := hr.shaped.length s (hnum ▸ hs)
  have hpos := hlen ▸ hr.shaped.ways_pos
  rw [hways] at hlen
  refine ⟨order.length,hlen ▸ hb.length_le,fun w => ?_,hb.perm,fun hfull => ?_⟩
  · rw [hb.valid, hb.filled]
  · exact ⟨hlen ▸ hb.length_eq_of_full hfull,hlen ▸ oneVictim_of_full hb hpos hfull⟩

/-- The second-level cache of the repository, with one block inserted twice and then hit. -/
theorem l2cache_recency_permutation :
    ∃ k ≤ (initialCache l2cacheSize l2cacheWays).numWays,
      (∀ w, validAt ((L2Op.runAll (initialCache l2cacheSize l2cacheWays)
        [.insert 0,.insert 0,.insert 0x4000,.access (fun _ => {}) 0 true 0]).sets 0) w = true ↔
          w < k) ∧
      ((List.range k).map (recencyAt ((L2Op.runAll (initialCache l2cacheSize l2cacheWays)
        [.insert 0,.insert 0,.insert 0x4000,.access (fun _ => {}) 0 true 0]).sets 0))).Perm
          (List.range k) := by
  have hc : allocCache l2cacheSize l2cacheWays blockSize =
      some (initialCache l2cacheSize l2cacheWays) := allocCache_initialCache (by decide)
  obtain ⟨k,hk,hvalid,hperm,-⟩ := l2_recency_permutation hc
    [.insert 0,.insert 0,.insert 0x4000,.access (fun _ => {}) 0 true 0] (s := 0) (by decide)
  exact ⟨k,hk,hvalid,hperm⟩

/-! What a run does to the second-level cache is such a sequence. -/

section Runs

/-- The cache comes from the other one by accesses and insertions. -/
def L2Reached (c c' : Cache) : Prop := ∃ ops, c' = L2Op.runAll c ops

lemma L2Reached.step {c c' : Cache} (h : L2Reached c c') (op : L2Op) :
    L2Reached c (op.apply c') := by
  obtain ⟨ops,rfl⟩ := h
  exact ⟨ops ++ [op],by rw [L2Op.runAll, L2Op.runAll, List.foldl_append]; rfl⟩

lemma L2Reached.fills {c c' : Cache} (h : L2Reached c c') (l : List Word) :
    L2Reached c (l.foldl insertL2Block c') := by
  induction l generalizing c' with
  | nil => exact h
  | cons a l ih => exact ih (h.step (.insert a))

theorem reaches_l2Reached (mem : Memory) (regs : Reg → Word) (hi lo : Word) {n : ℕ}
    {s : State Memories}
    (h : memSystem.machine.Reaches (initialState initialMemories mem regs hi lo) n s) :
    L2Reached initialMemories.l2cache s.sys.l2cache := by
  refine Lib.Machine.Reaches.invariant memSystem.machine
    (P := fun s => L2Reached initialMemories.l2cache s.sys.l2cache) ⟨[],rfl⟩ ?_ h
  intro a b ha _ hc
  obtain ⟨s₁,mshrs,mc,hst,-,hl2⟩ := cycle_l2cache hc
  have hkept : KeptByCalls (fun m => L2Reached initialMemories.l2cache m.l2cache) a.statCycles :=
    keptByCalls_l2cache fun _ mshrs isIcache address h =>
      h.step (.access mshrs a.statCycles isIcache address)
  rw [hl2, processCompletedFills_eq]
  exact (hkept.stages ha hst).fills _

/-- The counters of the second-level cache are in order in every reachable state. -/
theorem reaches_rankedSets (mem : Memory) (regs : Reg → Word) (hi lo : Word) {n : ℕ}
    {s : State Memories}
    (h : memSystem.machine.Reaches (initialState initialMemories mem regs hi lo) n s) :
    RankedSets s.sys.l2cache := by
  obtain ⟨ops,he⟩ := reaches_l2Reached mem regs hi lo h
  have hc : allocCache l2cacheSize l2cacheWays blockSize = some initialMemories.l2cache :=
    allocCache_initialCache (by decide)
  rw [he]
  exact (allocCache_rankedSets hc (by decide)).runAll ops

end Runs

end CaLabs.Lab2
