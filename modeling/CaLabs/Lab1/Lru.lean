import CaLabs.Lab1.Cache

/-! The LRU build of the lab 1 cache against the ideal cache, which keeps for every set the
list of its tags in order of most recent use. -/
namespace CaLabs.Lab1
open Mips Lib

/-- A set of the cache encodes a list of tags: the order of its ways is in the counters of the
valid ones, which come first, and the invalid ones still hold their index. -/
structure LruSet (blocks : List Block) (order : List ℕ) (tags : List Word) : Prop where
  ranked : Ranked (recencyAt blocks) order
  filled : ∀ w, w ∈ order ↔ w < order.length
  length_le : order.length ≤ blocks.length
  valid : ∀ w, validAt blocks w = true ↔ w ∈ order
  fresh : ∀ w < blocks.length, w ∉ order → recencyAt blocks w = w
  tags_eq : tags = order.map (tagAt blocks)
  nodup : tags.Nodup

namespace LruSet
variable {blocks : List Block} {order : List ℕ} {tags : List Word} {tag : Word}

/-- The cache hits exactly on the tags of the list. -/
theorem hit_iff (h : LruSet blocks order tags) (tag : Word) :
    (hitWay blocks tag).isSome = true ↔ tag ∈ tags := by
  rw [h.tags_eq, List.mem_map]
  cases hw : hitWay blocks tag with
  | some w =>
    obtain ⟨hv,ht⟩ := hitWay_some hw
    exact ⟨fun _ => ⟨w,(h.valid w).mp hv,ht⟩,fun _ => rfl⟩
  | none =>
    refine ⟨fun hn => (by cases hn),?_⟩
    rintro ⟨w,hwo,ht⟩
    exact absurd ht (hitWay_none hw ((h.valid w).mpr hwo))

lemma ways (h : LruSet blocks order tags) : RankedWays blocks order := ⟨h.ranked,h.filled,h.valid⟩

lemma lt_of_mem (h : LruSet blocks order tags) {w : ℕ} (hw : w ∈ order) : w < blocks.length :=
  h.ways.lt_of_mem hw

/-- A hit moves the tag and its way to the front. -/
theorem hit (h : LruSet blocks order tags) {w : ℕ} (hw : hitWay blocks tag = some w) :
    LruSet (updateLru blocks w) (toFront w order) (toFront tag tags) := by
  obtain ⟨hv,rfl⟩ := hitWay_some hw
  have hwo := (h.valid w).mp hv
  have hlt := h.lt_of_mem hwo
  have hways := h.ways.hit hwo
  refine ⟨hways.ranked,hways.filled,hways.length_le,hways.valid,fun v hvlt hvo => ?_,?_,?_⟩
  · rw [mem_toFront, not_or] at hvo
    have hnv : validAt blocks v = false := by
      simpa using (not_congr (h.valid v)).mpr hvo.2
    rw [recencyAt_updateLru hlt, bump, if_neg hvo.1, hnv]
    exact h.fresh v (by simpa [length_updateLru] using hvlt) hvo.2
  · rw [tagAt_updateLru hlt, h.tags_eq, toFront_map _ (h.tags_eq ▸ h.nodup) hwo]
  · exact nodup_toFront h.nodup

/-- The tags of the ways after a replacement. -/
lemma map_fillWay {v : ℕ} (hv : v < blocks.length) {rest : List ℕ} (hr : v ∉ rest) :
    (v :: rest).map (tagAt (fillWay tag blocks v)) = tag :: rest.map (tagAt blocks) := by
  rw [List.map_cons, tagAt_fillWay hv, if_pos rfl]
  congr 1
  apply List.map_congr_left
  intro w hw
  have hne : w ≠ v := fun he => hr (he ▸ hw)
  rw [tagAt_fillWay hv, if_neg hne]

/-- The filled way and the ways that were valid are valid. -/
lemma validAt_of_mem (h : LruSet blocks order tags) {v : ℕ} (hv : v < blocks.length) {w : ℕ}
    (hw : w ∈ order) : validAt (fillWay tag blocks v) w = true := by
  rw [validAt_fillWay hv, (h.valid w).mpr hw, ite_self]

/-- A miss fills the first invalid way. -/
theorem fill (h : LruSet blocks order tags) (hmiss : tag ∉ tags) {v : ℕ}
    (hv : invalidWay blocks = some v) :
    LruSet (fillWay tag blocks v) (v :: order) (tag :: tags) := by
  obtain ⟨hlt,-,-⟩ := invalidWay_some hv
  obtain ⟨hve,hvo⟩ := h.ways.next hv
  refine ⟨?_,fun w => ?_,?_,fun w => ?_,fun w hwlt hwo => ?_,?_,
    List.nodup_cons.mpr ⟨hmiss,h.nodup⟩⟩
  · rw [recencyAt_fillWay hlt]
    refine h.ranked.bump_new hvo ?_ fun w hw => h.validAt_of_mem hlt hw
    rw [h.fresh v hlt hvo, hve]
  · rw [List.mem_cons, List.length_cons, h.filled]
    omega
  · rw [length_fillWay, List.length_cons]
    omega
  · rw [validAt_fillWay hlt, List.mem_cons, ← h.valid]
    split_ifs with he <;> simp [he]
  · rw [List.mem_cons, not_or] at hwo
    rw [length_fillWay] at hwlt
    have hfresh := h.fresh w hwlt hwo.2
    have hle : order.length ≤ w := not_lt.mp fun hl => hwo.2 ((h.filled w).mpr hl)
    have hge : ¬ recencyAt blocks w < recencyAt blocks v := by
      rw [hfresh, h.fresh v hlt hvo]
      omega
    rw [recencyAt_fillWay hlt, bump, if_neg hwo.1, decide_eq_false hge, Bool.and_false]
    exact hfresh
  · rw [map_fillWay hlt hvo, h.tags_eq]

/-- On a full set the victim is the last way of the order. -/
theorem victim (h : LruSet blocks order tags) (hfull : invalidWay blocks = none)
    (hpos : 0 < blocks.length) :
    order.length = blocks.length ∧
      order.getLast? = some (lruVictim blocks.length blocks) := by
  obtain ⟨v,hf,hlast⟩ := h.ways.findIdx_last hfull hpos
  refine ⟨h.ways.length_eq_of_full hfull,?_⟩
  rw [lruVictim, hf, Option.getD_some]
  exact hlast

/-- A miss on a full set replaces the last tag of the list. -/
theorem evict (h : LruSet blocks order tags) (hmiss : tag ∉ tags)
    (hfull : invalidWay blocks = none) (hpos : 0 < blocks.length) :
    LruSet (fillWay tag blocks (lruVictim blocks.length blocks))
      (toFront (lruVictim blocks.length blocks) order) (tag :: tags.dropLast) := by
  obtain ⟨hlen,hlast⟩ := h.victim hfull hpos
  generalize lruVictim blocks.length blocks = v at hlast ⊢
  have hvo : v ∈ order := List.mem_of_getLast? hlast
  have hlt := h.lt_of_mem hvo
  have hl := length_toFront_of_mem hvo
  obtain ⟨init,rfl⟩ := List.getLast?_eq_some_iff.mp hlast
  have hinit : v ∉ init := h.ranked.init.1
  have hfront : toFront v (init ++ [v]) = v :: init := by
    rw [toFront, List.erase_append_right _ hinit, List.erase_cons_head, List.append_nil]
  have htags : tags.dropLast = init.map (tagAt blocks) := by
    rw [h.tags_eq, List.map_append, List.map_singleton, List.dropLast_concat]
  refine ⟨?_,filled_toFront h.filled hvo,?_,fun w => ?_,fun w hwlt hwo => ?_,?_,?_⟩
  · rw [recencyAt_fillWay hlt]
    exact h.ranked.bump_mem hvo fun w hw => h.validAt_of_mem hlt hw
  · rw [hl, length_fillWay]
    exact h.length_le
  · rw [validAt_fillWay hlt, mem_toFront, ← h.valid]
    split_ifs with he <;> simp [he]
  · rw [length_fillWay, ← hlen] at hwlt
    exact absurd (mem_toFront.mpr (.inr ((h.filled w).mpr hwlt))) hwo
  · rw [hfront, map_fillWay hlt hinit, htags]
  · refine List.nodup_cons.mpr ⟨fun hm => hmiss (List.mem_of_mem_dropLast hm),?_⟩
    exact h.nodup.sublist (List.dropLast_sublist _)

end LruSet

/-- For every set its last n different tags in order of most recent use. -/
abbrev IdealCache (n : ℕ) := ℕ → MruList Word n

namespace IdealCache
variable {n : ℕ} (setOf : Word → ℕ) (tagOf : Word → Word)

def empty : IdealCache n := fun _ => MruList.empty

def access (ideal : IdealCache n) (address : Word) : IdealCache n :=
  Function.update ideal (setOf address) ((ideal (setOf address)).touch (tagOf address))

def hits (ideal : IdealCache n) (address : Word) : Bool :=
  decide (tagOf address ∈ (ideal (setOf address)).items)

/-- The hits of a trace of accesses. -/
def answers : IdealCache n → List Word → List Bool
  | _,[] => []
  | ideal,address :: rest =>
    hits setOf tagOf ideal address :: answers (access setOf tagOf ideal address) rest

def after (ideal : IdealCache n) (addresses : List Word) : IdealCache n :=
  addresses.foldl (access setOf tagOf) ideal

/-- The tags accessed in one set, the oldest first. -/
def uses (s : ℕ) (addresses : List Word) : List Word :=
  (addresses.filter fun a => setOf a = s).map tagOf

lemma after_empty (addresses : List Word) (s : ℕ) :
    after setOf tagOf empty addresses s = MruList.ofHistory n (uses setOf tagOf s addresses) := by
  induction addresses using List.reverseRecOn with
  | nil => rfl
  | append_singleton addresses a ih =>
    rw [after, List.foldl_append, List.foldl_cons, List.foldl_nil, ← after, access]
    by_cases hs : setOf a = s
    · subst hs
      simp [uses, ih, MruList.ofHistory_append]
    · simp [uses, ih, hs, Function.update_of_ne (Ne.symm hs)]

end IdealCache

/-- The hits and the cache after a trace of accesses. -/
def answers (policy : Policy) (c : Cache) (rand : ℕ → ℕ) :
    List Word → Except Abort (List Bool × Cache × (ℕ → ℕ))
  | [] => .ok ([],c,rand)
  | address :: rest => do
    let (stall,c,rand) ← cacheAccess policy c rand address
    let (hits,c,rand) ← answers policy c rand rest
    .ok ((stall == 0) :: hits,c,rand)

/-- Every set of the cache encodes the list of the ideal cache. -/
structure Encodes (n : ℕ) (c : Cache) (ideal : IdealCache n) : Prop where
  shaped : c.Shaped
  ways : c.numWays = n
  sets : ∀ s < c.numSets, ∃ order, LruSet (c.sets s) order (ideal s).items

lemma allocCache_encodes {capacity : Word} {numWays blockSize : BitVec 8} {c : Cache}
    (h : allocCache .lru capacity numWays blockSize = some c) (hs : 0 < c.numSets) :
    Encodes c.numWays c IdealCache.empty where
  shaped := Cache.alloc_shaped h hs
  ways := rfl
  sets s hlt := by
    have hsets := Cache.alloc_sets h hlt
    have hget : ∀ w, (c.sets s).getD w {} = if w < c.numWays then { recency := w } else {} := by
      intro w
      rw [hsets, List.getD_eq_getElem?_getD, List.getElem?_map]
      split_ifs with hw
      · simp [hw, freshBlock]
      · simp [hw]
    have hvalid : ∀ w, validAt (c.sets s) w = false := by
      intro w
      rw [validAt, hget]
      split_ifs <;> rfl
    refine ⟨[],⟨List.nodup_nil,fun x hx => (by cases hx)⟩,by simp,Nat.zero_le _,?_,?_,rfl,
      List.nodup_nil⟩
    · intro w
      simp [hvalid]
    · intro w hw _
      have hw' : w < c.numWays := by simpa [hsets] using hw
      rw [recencyAt, hget, if_pos hw']

/-- What an access does to the geometry and to the other sets. -/
lemma Encodes.setBlocks {n : ℕ} {c : Cache} {ideal : IdealCache n} (h : Encodes n c ideal)
    {address : Word} {blocks : List Block}
    (hl : blocks.length = (c.sets (c.setOf address)).length)
    (hset : ∃ order,
      LruSet blocks order ((ideal (c.setOf address)).touch (c.tagOf address)).items) :
    Encodes n (c.setBlocks (c.setOf address) blocks) (ideal.access c.setOf c.tagOf address) where
  shaped := h.shaped.setBlocks _ (hl.trans (h.shaped.length_setOf address))
  ways := h.ways
  sets s hs := by
    by_cases he : s = c.setOf address
    · subst he
      simpa [Cache.setBlocks, IdealCache.access] using hset
    · simpa [Cache.setBlocks, IdealCache.access, Function.update_of_ne he] using h.sets s hs

/-- One access: the same answer, and the encoding is kept. -/
theorem Encodes.cacheAccess {n : ℕ} {c : Cache} {ideal : IdealCache n} (h : Encodes n c ideal)
    (rand : ℕ → ℕ) {address : Word} (ha : WordAligned address) :
    ∃ stall blocks, cacheAccess .lru c rand address =
        .ok (stall,c.setBlocks (c.setOf address) blocks,rand) ∧
      (stall == 0) = ideal.hits c.setOf c.tagOf address ∧
      Encodes n (c.setBlocks (c.setOf address) blocks) (ideal.access c.setOf c.tagOf address) := by
  obtain ⟨order,hset⟩ := h.sets _ (h.shaped.setOf_lt address)
  have hlen := h.shaped.length_setOf address
  have hhit := hset.hit_iff (c.tagOf address)
  simp only [Lab1.cacheAccess, if_pos ha]
  cases hw : hitWay (c.sets (c.setOf address)) (c.tagOf address) with
  | some w =>
    rw [hw] at hhit
    have hmem := hhit.mp rfl
    refine ⟨0,_,rfl,by simp [IdealCache.hits, hmem],h.setBlocks (length_updateLru _ w)
      ⟨toFront w order,?_⟩⟩
    rw [MruList.touch_of_mem hmem]
    exact hset.hit hw
  | none =>
    rw [hw] at hhit
    have hmiss : c.tagOf address ∉ (ideal (c.setOf address)).items :=
      fun hm => (by cases hhit.mpr hm)
    have hanswer : (dramAccessCycles == 0) = ideal.hits c.setOf c.tagOf address := by
      simp [IdealCache.hits, hmiss]
    have hitems : (ideal (c.setOf address)).items.length = order.length := by
      rw [hset.tags_eq, List.length_map]
    simp only [chooseVictim]
    cases hv : invalidWay (c.sets (c.setOf address)) with
    | some v =>
      have hfill := hset.fill hmiss hv
      refine ⟨_,_,rfl,hanswer,h.setBlocks (length_replaceBlock _ _ _ v)
        ⟨v :: order,?_⟩⟩
      have hl := hfill.length_le
      rw [length_fillWay, hlen, h.ways, List.length_cons] at hl
      rw [MruList.touch_of_room hmiss (by omega)]
      exact hfill
    | none =>
      have hpos : 0 < (c.sets (c.setOf address)).length := hlen ▸ h.shaped.ways_pos
      have hevict := hset.evict hmiss hv hpos
      obtain ⟨hfull,-⟩ := hset.victim hv hpos
      rw [hlen] at hevict hfull hpos
      refine ⟨_,_,rfl,hanswer,h.setBlocks (length_replaceBlock _ _ _ _)
        ⟨toFront (lruVictim c.numWays (c.sets (c.setOf address))) order,?_⟩⟩
      rw [MruList.touch_of_full hmiss (by rw [hitems, hfull, h.ways]) (h.ways ▸ hpos)]
      exact hevict

/-- A trace: the same answers, and the encoding is kept. The accesses change neither the
number of sets and ways nor the way an address is split. -/
theorem Encodes.answers {n : ℕ} {c : Cache} {ideal : IdealCache n} (h : Encodes n c ideal)
    (rand : ℕ → ℕ) {addresses : List Word} (ha : ∀ a ∈ addresses, WordAligned a) :
    ∃ sets, answers .lru c rand addresses =
        .ok (ideal.answers c.setOf c.tagOf addresses,{ c with sets := sets },rand) ∧
      Encodes n { c with sets := sets } (ideal.after c.setOf c.tagOf addresses) := by
  induction addresses generalizing c ideal with
  | nil => exact ⟨c.sets,rfl,h⟩
  | cons a rest ih =>
    obtain ⟨stall,blocks,hacc,hhit,henc⟩ := h.cacheAccess rand (ha a List.mem_cons_self)
    obtain ⟨sets,hans,henc'⟩ := ih henc fun b hb => ha b (List.mem_cons_of_mem a hb)
    refine ⟨sets,?_,henc'⟩
    simp only [Lab1.answers, hacc, bind, Except.bind, hans, hhit]
    rfl

/-- The victim of a full set has been used before all the other blocks of the set. -/
theorem Encodes.victim_oldest {n : ℕ} {c : Cache} {ideal : IdealCache n}
    (h : Encodes n c ideal) (rand : ℕ → ℕ) {s : ℕ} (hs : s < c.numSets) {history : List Word}
    (hist : ideal s = MruList.ofHistory n history) (hfull : invalidWay (c.sets s) = none) :
    ∃ v < c.numWays, chooseVictim .lru c.numWays (c.sets s) rand = .ok (v,c.sets s,rand) ∧
      (∀ w < c.numWays, tagAt (c.sets s) w ∈ history) ∧
      ∀ w < c.numWays, w ≠ v →
        UsedAfter history (tagAt (c.sets s) w) (tagAt (c.sets s) v) := by
  obtain ⟨order,hset⟩ := h.sets s hs
  have hlen := h.shaped.length s hs
  obtain ⟨hfullo,hlast⟩ := hset.victim hfull (hlen ▸ h.shaped.ways_pos)
  rw [hlen] at hfullo hlast
  have hmem : ∀ w < c.numWays, w ∈ order := fun w hw => (hset.filled w).mpr (hfullo ▸ hw)
  have htags : (MruList.ofHistory n history).items = order.map (tagAt (c.sets s)) := by
    rw [← hist]
    exact hset.tags_eq
  have hvo : lruVictim c.numWays (c.sets s) ∈ order := List.mem_of_getLast? hlast
  refine ⟨_,hlen ▸ hset.lt_of_mem hvo,by simp only [chooseVictim, hfull],fun w hw => ?_,?_⟩
  · refine MruList.mem_of_mem_ofHistory (n := n) ?_
    rw [htags]
    exact List.mem_map_of_mem (hmem w hw)
  · intro w hw hne
    have hsorted := MruList.ofHistory_sorted (n := n) history
    rw [htags] at hsorted
    obtain ⟨init,ho⟩ := List.getLast?_eq_some_iff.mp hlast
    have hinit : w ∈ init := by
      have hwo := hmem w hw
      rw [ho, List.mem_append, List.mem_singleton] at hwo
      exact hwo.resolve_right hne
    rw [ho, List.map_append, List.map_singleton, List.pairwise_append] at hsorted
    exact hsorted.2.2 _ (List.mem_map_of_mem hinit) _ (List.mem_singleton_self _)

/-- The LRU build answers as the ideal cache does, on every trace and in every geometry with
a set, and the victim it then chooses on a full set is the least recently used block. -/
theorem lru_answers_eq_ideal {capacity : Word} {numWays blockSize : BitVec 8} {c : Cache}
    (h : allocCache .lru capacity numWays blockSize = some c) (hs : 0 < c.numSets)
    (rand : ℕ → ℕ) (addresses : List Word) (ha : ∀ a ∈ addresses, WordAligned a) :
    ∃ sets, answers .lru c rand addresses =
        .ok ((IdealCache.empty : IdealCache c.numWays).answers c.setOf c.tagOf addresses,
          { c with sets := sets },rand) ∧
      ∀ s < c.numSets, invalidWay (sets s) = none →
        ∃ v < c.numWays, chooseVictim .lru c.numWays (sets s) rand = .ok (v,sets s,rand) ∧
          (∀ w < c.numWays,
            tagAt (sets s) w ∈ IdealCache.uses c.setOf c.tagOf s addresses) ∧
          ∀ w < c.numWays, w ≠ v → UsedAfter (IdealCache.uses c.setOf c.tagOf s addresses)
            (tagAt (sets s) w) (tagAt (sets s) v) := by
  obtain ⟨sets,hans,henc⟩ := (allocCache_encodes h hs).answers rand ha
  refine ⟨sets,hans,fun s hlt hfull => ?_⟩
  exact henc.victim_oldest rand hlt (IdealCache.after_empty c.setOf c.tagOf addresses s) hfull

/-- The instruction cache of the repository built with LRU, on accesses to one set: the block of
0x2000 replaces that of 0x800, which then replaces that of 0x1000. -/
theorem icache_lru_answers_eq_ideal : ∃ sets,
    answers .lru (initialCache .lru icacheSize icacheWays) id
        [0x0,0x800,0x4,0x1000,0x1800,0x2000,0x0,0x800] =
      .ok ([false,false,true,false,false,false,true,false],
        { initialCache .lru icacheSize icacheWays with sets := sets },id) ∧
    ∃ v, chooseVictim .lru 4 (sets 0) id = .ok (v,sets 0,id) ∧ tagAt (sets 0) v = 3 ∧
      ∀ w < 4, w ≠ v → UsedAfter [0,1,0,2,3,4,0,1] (tagAt (sets 0) w) 3 := by
  have hc : allocCache .lru icacheSize icacheWays blockSize =
      some (initialCache .lru icacheSize icacheWays) := rfl
  obtain ⟨sets,hans,hvictim⟩ := lru_answers_eq_ideal hc (by decide) id
    [0x0,0x800,0x4,0x1000,0x1800,0x2000,0x0,0x800] (by simp [WordAligned])
  have hset : (match answers .lru (initialCache .lru icacheSize icacheWays) id
        [0x0,0x800,0x4,0x1000,0x1800,0x2000,0x0,0x800] with
      | .ok (_,c,_) => decide (invalidWay (c.sets 0) = none) &&
        (match chooseVictim .lru 4 (c.sets 0) id with
          | .ok (v,_) => decide (tagAt (c.sets 0) v = 3)
          | .error _ => false)
      | .error _ => false) = true := by decide +kernel
  rw [hans] at hset
  simp only [Bool.and_eq_true, decide_eq_true_eq] at hset
  obtain ⟨v,-,hv,-,hafter⟩ := hvictim 0 (by decide) hset.1
  have hways : (initialCache .lru icacheSize icacheWays).numWays = 4 := rfl
  rw [hways] at hv hafter
  have htag : tagAt (sets 0) v = 3 := by
    have htest := hset.2
    rw [hv] at htest
    exact of_decide_eq_true htest
  rw [htag] at hafter
  exact ⟨sets,hans,v,hv,htag,hafter⟩

end CaLabs.Lab1
