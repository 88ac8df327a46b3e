import CaLabs.Lab1.Lru

/-! Inclusion of the LRU build: of two caches with the same sets the one with more ways holds
all that the other one holds. -/
namespace CaLabs.Lab1
open Mips Lib

/-- What a hit of the first cache says of the second. -/
abbrev HitsIncluded (hits hits' : List Bool) : Prop :=
  List.Forall₂ (fun hit hit' => hit = true → hit' = true) hits hits'

/-- The accesses that missed. -/
def misses (hits : List Bool) : ℕ := hits.count false

lemma HitsIncluded.misses_le {hits hits' : List Bool} (h : HitsIncluded hits hits') :
    misses hits' ≤ misses hits := by
  unfold misses
  induction h with
  | nil => exact le_rfl
  | @cons hit hit' hits hits' hhit _ ih =>
    rw [List.count_cons, List.count_cons]
    refine Nat.add_le_add ih ?_
    cases hit with
    | false => cases hit' <;> decide
    | true => rw [hhit rfl]

namespace IdealCache
variable {n m : ℕ} {setOf : Word → ℕ} {tagOf : Word → Word}

/-- Every list of the first cache is the front of the one of the second. -/
def Included (ideal : IdealCache n) (ideal' : IdealCache m) : Prop :=
  ∀ s, (ideal s).items = (ideal' s).items.take n

lemma Included.empty : Included (empty : IdealCache n) (empty : IdealCache m) :=
  fun _ => List.take_nil.symm

lemma Included.access (hnm : n ≤ m) {ideal : IdealCache n} {ideal' : IdealCache m}
    (h : Included ideal ideal') (address : Word) :
    Included (ideal.access setOf tagOf address) (ideal'.access setOf tagOf address) := by
  intro s
  by_cases hs : s = setOf address
  · subst hs
    simp only [IdealCache.access, Function.update_self]
    exact MruList.touch_eq_take hnm (h _) _
  · simp only [IdealCache.access, Function.update_of_ne hs]
    exact h s

lemma Included.hits {ideal : IdealCache n} {ideal' : IdealCache m} (h : Included ideal ideal')
    {address : Word} (hhit : ideal.hits setOf tagOf address = true) :
    ideal'.hits setOf tagOf address = true := by
  simp only [IdealCache.hits, decide_eq_true_eq, h (setOf address)] at hhit ⊢
  exact List.mem_of_mem_take hhit

theorem Included.answers (hnm : n ≤ m) {ideal : IdealCache n} {ideal' : IdealCache m}
    (h : Included ideal ideal') (addresses : List Word) :
    HitsIncluded (ideal.answers setOf tagOf addresses)
      (ideal'.answers setOf tagOf addresses) := by
  induction addresses generalizing ideal ideal' with
  | nil => exact .nil
  | cons a rest ih => exact .cons h.hits (ih (h.access hnm a))

end IdealCache

section NoSets
variable {c : Cache}

lemma alloc_no_sets {fresh : ℕ → Block} {capacity : Word} {numWays blockSize : BitVec 8}
    (h : Cache.alloc fresh capacity numWays blockSize = some c) (hs : c.numSets = 0) (s : ℕ) :
    c.sets s = [] := by
  simp only [Cache.alloc] at h
  split_ifs at h
  obtain rfl := Option.some.inj h
  dsimp only at hs ⊢
  rw [hs]
  rfl

/-- A cache without a set never hits. -/
lemma answers_no_sets (hs : ∀ s, c.sets s = []) (rand : ℕ → ℕ) {addresses : List Word}
    (ha : ∀ a ∈ addresses, WordAligned a) : ∃ d, answers .lru c rand addresses =
      .ok (List.replicate addresses.length false,d,rand) := by
  induction addresses generalizing c with
  | nil => exact ⟨c,rfl⟩
  | cons a rest ih =>
    have haccess : cacheAccess .lru c rand a =
        .ok (dramAccessCycles,c.setBlocks (c.setOf a) [],rand) := by
      simp only [cacheAccess, if_pos (ha a List.mem_cons_self), hs]
      rfl
    have hsets : ∀ s, (c.setBlocks (c.setOf a) []).sets s = [] := by
      intro s
      simp only [Cache.setBlocks, Function.update_apply, hs, ite_self]
    obtain ⟨d,hd⟩ := ih hsets fun b hb => ha b (List.mem_cons_of_mem a hb)
    refine ⟨d,?_⟩
    simp only [answers, haccess, bind, Except.bind, hd]
    rfl

end NoSets

lemma alloc_bits {fresh : ℕ → Block} {capacity : Word} {numWays blockSize : BitVec 8} {c : Cache}
    (h : Cache.alloc fresh capacity numWays blockSize = some c) :
    c.setBits = Cache.log2Loop 32 c.numSets ∧ c.blockBits = Cache.log2Loop 32 c.blockSize := by
  simp only [Cache.alloc] at h
  split_ifs at h
  obtain rfl := Option.some.inj h
  exact ⟨rfl,rfl⟩

/-- The two caches split an address in the same way. -/
lemma alloc_split {fresh fresh' : ℕ → Block} {capacity capacity' : Word}
    {numWays numWays' blockSize blockSize' : BitVec 8} {c c' : Cache}
    (h : Cache.alloc fresh capacity numWays blockSize = some c)
    (h' : Cache.alloc fresh' capacity' numWays' blockSize' = some c')
    (hsets : c.numSets = c'.numSets) (hsize : c.blockSize = c'.blockSize) :
    c.setOf = c'.setOf ∧ c.tagOf = c'.tagOf := by
  obtain ⟨hset,hblock⟩ := alloc_bits h
  obtain ⟨hset',hblock'⟩ := alloc_bits h'
  rw [hsets, ← hset'] at hset
  rw [hsize, ← hblock'] at hblock
  constructor
  · funext address
    rw [Cache.setOf, Cache.setOf, hset, hblock]
  · funext address
    rw [Cache.tagOf, Cache.tagOf, hset, hblock]

/-- On every trace of aligned addresses, each access that hits in the cache with fewer ways
also hits in the one with more, so that more ways never add a miss. -/
theorem lru_hits_included {capacity capacity' : Word}
    {numWays numWays' blockSize blockSize' : BitVec 8} {c c' : Cache}
    (h : allocCache .lru capacity numWays blockSize = some c)
    (h' : allocCache .lru capacity' numWays' blockSize' = some c')
    (hsets : c.numSets = c'.numSets) (hsize : c.blockSize = c'.blockSize)
    (hways : c.numWays ≤ c'.numWays) (rand rand' : ℕ → ℕ) {addresses : List Word}
    (ha : ∀ a ∈ addresses, WordAligned a) : ∃ hits hits' d d',
      answers .lru c rand addresses = .ok (hits,d,rand) ∧
      answers .lru c' rand' addresses = .ok (hits',d',rand') ∧
      HitsIncluded hits hits' ∧ misses hits' ≤ misses hits := by
  rcases Nat.eq_zero_or_pos c.numSets with hzero | hpos
  · obtain ⟨d,hd⟩ := answers_no_sets (alloc_no_sets h hzero) rand ha
    obtain ⟨d',hd'⟩ := answers_no_sets (alloc_no_sets h' (hsets ▸ hzero)) rand' ha
    have hincl : HitsIncluded (List.replicate addresses.length false)
        (List.replicate addresses.length false) := List.forall₂_same.mpr fun _ _ => id
    exact ⟨_,_,d,d',hd,hd',hincl,hincl.misses_le⟩
  · obtain ⟨sets,hans,-⟩ := (allocCache_encodes h hpos).answers rand ha
    obtain ⟨sets',hans',-⟩ := (allocCache_encodes h' (hsets ▸ hpos)).answers rand' ha
    obtain ⟨hset,htag⟩ := alloc_split h h' hsets hsize
    rw [← hset, ← htag] at hans'
    have hincl : HitsIncluded
        ((IdealCache.empty : IdealCache c.numWays).answers c.setOf c.tagOf addresses)
        ((IdealCache.empty : IdealCache c'.numWays).answers c.setOf c.tagOf addresses) :=
      IdealCache.Included.empty.answers hways addresses
    exact ⟨_,_,_,_,hans,hans',hincl,hincl.misses_le⟩

/-- The instruction cache of the repository and one with twice its ways, on five blocks of
one set and the first again. -/
theorem icache_lru_hits_included : ∃ hits hits' d d',
    answers .lru (initialCache .lru icacheSize icacheWays) id
      [0x0,0x800,0x1000,0x1800,0x2000,0x0] = .ok (hits,d,id) ∧
    answers .lru (initialCache .lru (2 * icacheSize) (2 * icacheWays)) id
      [0x0,0x800,0x1000,0x1800,0x2000,0x0] = .ok (hits',d',id) ∧
    HitsIncluded hits hits' ∧ misses hits' ≤ misses hits :=
  lru_hits_included (show allocCache .lru icacheSize icacheWays blockSize =
      some (initialCache .lru icacheSize icacheWays) from rfl)
    (show allocCache .lru (2 * icacheSize) (2 * icacheWays) blockSize =
      some (initialCache .lru (2 * icacheSize) (2 * icacheWays)) from rfl)
    (by decide) (by decide) (by decide) id id (by simp [WordAligned])

end CaLabs.Lab1
