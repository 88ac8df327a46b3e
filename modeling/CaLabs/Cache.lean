import CaLabs.Mips.Memory
import CaLabs.Lib.Recency
import Mathlib.Data.List.GetD

/-! Set-associative caches: the data types, geometry and LRU update that cache.c of lab 1
and of lab 2 have in common. -/
namespace CaLabs
open Mips

/-- A cache block. Builds of lab 1 without LRU have no recency and leave it unused here;
only its RRIP build has rrpv. -/
structure Block where
  tag : Word := 0
  valid : Bool := false
  recency : ℕ := 0
  rrpv : ℕ := 0
  deriving DecidableEq, Repr

/-- The struct Cache, with the block array of every set. -/
structure Cache where
  numSets : ℕ
  numWays : ℕ
  blockSize : ℕ
  setBits : ℕ
  blockBits : ℕ
  sets : ℕ → List Block

namespace Cache

/-- while (temp > 1) temp >>= 1, bits++ on a 32-bit temp: the first argument bounds the
number of rounds. -/
def log2Loop : ℕ → ℕ → ℕ
  | 0,_ => 0
  | n+1,temp => if temp > 1 then log2Loop n (temp >>> 1) + 1 else 0

/-- alloc_cache with the initial block of each way as a parameter, the one point where the
two labs differ. There is no cache when the capacity is divided by zero. -/
def alloc (fresh : ℕ → Block) (capacity : Word) (numWays blockSize : BitVec 8) :
    Option Cache :=
  let ways := numWays.toNat
  let size := blockSize.toNat
  if size * ways = 0 then none
  else
    let numSets := capacity.toNat / (size * ways)
    some { numSets := numSets
           numWays := ways
           blockSize := size
           setBits := log2Loop 32 numSets
           blockBits := log2Loop 32 size
           sets := fun s => if s < numSets then (List.range ways).map fresh else [] }

def tagOf (c : Cache) (address : Word) : Word := address >>> (c.blockBits + c.setBits)

def setOf (c : Cache) (address : Word) : ℕ :=
  ((address >>> c.blockBits) &&& ((1#32 <<< c.setBits) - 1#32)).toNat

def setBlocks (c : Cache) (set : ℕ) (blocks : List Block) : Cache :=
  { c with sets := Function.update c.sets set blocks }

/-- A cache whose set indices stay inside its array of sets. -/
structure Shaped (c : Cache) : Prop where
  ways_pos : 0 < c.numWays
  setBits_lt : c.setBits < 32
  setBits_le : 2 ^ c.setBits ≤ c.numSets
  length : ∀ s < c.numSets, (c.sets s).length = c.numWays

lemma pow_log2Loop_le (n : ℕ) {temp : ℕ} (h : 0 < temp) : 2 ^ log2Loop n temp ≤ temp := by
  induction n generalizing temp with
  | zero => exact h
  | succ n ih =>
    rw [log2Loop]
    split_ifs with ht
    · have hhalf : temp >>> 1 = temp / 2 := by simp [Nat.shiftRight_eq_div_pow]
      have hih : 2 ^ log2Loop n (temp >>> 1) ≤ temp >>> 1 := ih (by omega)
      rw [pow_succ]
      omega
    · exact h

lemma alloc_sets {fresh : ℕ → Block} {capacity : Word} {numWays blockSize : BitVec 8}
    {c : Cache} (h : alloc fresh capacity numWays blockSize = some c) {s : ℕ}
    (hs : s < c.numSets) : c.sets s = (List.range c.numWays).map fresh := by
  simp only [alloc] at h
  split_ifs at h
  obtain rfl := Option.some.inj h
  exact if_pos hs

/-- alloc_cache keeps its promise whenever the cache has a set at all. -/
theorem alloc_shaped {fresh : ℕ → Block} {capacity : Word} {numWays blockSize : BitVec 8}
    {c : Cache} (h : alloc fresh capacity numWays blockSize = some c) (hs : 0 < c.numSets) :
    c.Shaped := by
  simp only [alloc] at h
  split_ifs at h with h0
  obtain rfl := Option.some.inj h
  dsimp only at hs
  have hw : 0 < numWays.toNat := Nat.pos_of_ne_zero fun hn => h0 (by simp [hn])
  have hpow := pow_log2Loop_le 32 hs
  have hlt : capacity.toNat / (blockSize.toNat * numWays.toNat) < 2 ^ 32 :=
    lt_of_le_of_lt (Nat.div_le_self _ _) capacity.isLt
  refine ⟨hw,?_,hpow,?_⟩
  · exact (Nat.pow_lt_pow_iff_right (by decide)).mp (lt_of_le_of_lt hpow hlt)
  · intro s hlt'
    simp [if_pos hlt']

namespace Shaped
variable {c : Cache}

lemma setOf_eq_mod (h : c.Shaped) (address : Word) :
    c.setOf address = address.toNat / 2 ^ c.blockBits % 2 ^ c.setBits := by
  have hp : 2 ^ c.setBits < 2 ^ 32 := (Nat.pow_lt_pow_iff_right (by decide)).mpr h.setBits_lt
  have hone : 0 < 2 ^ c.setBits := Nat.two_pow_pos _
  have hshift : (1#32 <<< c.setBits).toNat = 2 ^ c.setBits := by
    rw [BitVec.toNat_shiftLeft, Nat.shiftLeft_eq, show (1#32).toNat = 1 from rfl, one_mul]
    exact Nat.mod_eq_of_lt hp
  have hmask : ((1#32 <<< c.setBits) - 1#32).toNat = 2 ^ c.setBits - 1 := by
    rw [BitVec.toNat_sub, hshift]
    have h1 : (1#32).toNat = 1 := rfl
    omega
  rw [setOf, BitVec.toNat_and, hmask, BitVec.toNat_ushiftRight, Nat.shiftRight_eq_div_pow,
    Nat.and_two_pow_sub_one_eq_mod]

lemma setOf_lt (h : c.Shaped) (address : Word) : c.setOf address < c.numSets := by
  rw [h.setOf_eq_mod]
  exact lt_of_lt_of_le (Nat.mod_lt _ (Nat.two_pow_pos _)) h.setBits_le

lemma length_setOf (h : c.Shaped) (address : Word) :
    (c.sets (c.setOf address)).length = c.numWays := h.length _ (h.setOf_lt address)

lemma setBlocks (h : c.Shaped) (set : ℕ) {blocks : List Block}
    (hl : blocks.length = c.numWays) : (c.setBlocks set blocks).Shaped where
  ways_pos := h.ways_pos
  setBits_lt := h.setBits_lt
  setBits_le := h.setBits_le
  length s hs := by
    by_cases he : s = set
    · subst he
      simpa [Cache.setBlocks] using hl
    · simpa [Cache.setBlocks, Function.update_of_ne he] using h.length s hs

end Shaped
end Cache

/-- The first way that is valid and holds the tag. -/
def hitWay (blocks : List Block) (tag : Word) : Option ℕ :=
  blocks.findIdx? fun b => b.tag == tag && b.valid

def invalidWay (blocks : List Block) : Option ℕ := blocks.findIdx? fun b => !b.valid

/-- update_lru on the blocks of one set. -/
def updateLru (blocks : List Block) (block : ℕ) : List Block :=
  let prevRecency := (blocks.getD block {}).recency
  (blocks.map fun b =>
    if b.valid && decide (b.recency < prevRecency) then { b with recency := b.recency + 1 } else b).modify
    block fun b => { b with recency := 0 }

/-- The new tag in one way of a set, with the update of the LRU counters that follows. -/
def fillWay (tag : Word) (blocks : List Block) (v : ℕ) : List Block :=
  updateLru (blocks.modify v fun b => { b with tag := tag, valid := true }) v

section Ways
variable (blocks : List Block)

/-! The fields of the block in one way; a way outside the set is invalid. -/

def recencyAt (w : ℕ) : ℕ := (blocks.getD w {}).recency
def validAt (w : ℕ) : Bool := (blocks.getD w {}).valid
def tagAt (w : ℕ) : Word := (blocks.getD w {}).tag

variable {blocks}

lemma lt_length_of_validAt {w : ℕ} (h : validAt blocks w = true) : w < blocks.length := by
  by_contra hge
  rw [validAt, List.getD_eq_default _ _ (not_lt.mp hge)] at h
  cases h

lemma getD_of_lt {w : ℕ} (h : w < blocks.length) : blocks.getD w {} = blocks[w] :=
  List.getD_eq_getElem _ _ h

lemma getD_modify {v : ℕ} (hv : v < blocks.length) (f : Block → Block) (w : ℕ) :
    (blocks.modify v f).getD w {} =
      if w = v then f (blocks.getD w {}) else blocks.getD w {} := by
  by_cases hw : w < blocks.length
  · have hw' : w < (blocks.modify v f).length := by simpa using hw
    rw [List.getD_eq_getElem _ _ hw', List.getElem_modify, getD_of_lt hw]
    by_cases he : v = w
    · rw [if_pos he, if_pos he.symm]
    · rw [if_neg he, if_neg (Ne.symm he)]
  · have hw' : (blocks.modify v f).length ≤ w := by simpa using hw
    rw [List.getD_eq_default _ _ hw', List.getD_eq_default _ _ (not_lt.mp hw),
      if_neg (by omega)]

/-- update_lru bumps the counters and leaves tags and valid bits alone. -/
theorem getD_updateLru {v : ℕ} (hv : v < blocks.length) (w : ℕ) :
    (updateLru blocks v).getD w {} =
      { blocks.getD w {} with
        recency := Lib.bump (recencyAt blocks) (validAt blocks) v w } := by
  simp only [updateLru]
  rw [getD_modify (by simpa using hv)]
  generalize hf : (fun b : Block => if b.valid && decide (b.recency < (blocks.getD v {}).recency)
    then { b with recency := b.recency + 1 } else b) = f
  have hmap : (blocks.map f).getD w {} = f (blocks.getD w {}) := by
    have hdefault : f {} = {} := by simp [← hf]
    conv_lhs => rw [← hdefault, List.getD_map]
  rw [hmap, ← hf]
  by_cases hwv : w = v
  · simp only [Lib.bump, if_pos hwv]
    split_ifs <;> rfl
  · simp only [Lib.bump, if_neg hwv]
    by_cases hb : (validAt blocks w &&
        decide (recencyAt blocks w < recencyAt blocks v)) = true
    · rw [if_pos hb]
      exact if_pos hb
    · rw [if_neg hb]
      exact if_neg hb

lemma recencyAt_updateLru {v : ℕ} (hv : v < blocks.length) :
    recencyAt (updateLru blocks v) = Lib.bump (recencyAt blocks) (validAt blocks) v := by
  funext w
  rw [recencyAt, getD_updateLru hv]

lemma validAt_updateLru {v : ℕ} (hv : v < blocks.length) :
    validAt (updateLru blocks v) = validAt blocks := by
  funext w
  rw [validAt, getD_updateLru hv]
  rfl

lemma tagAt_updateLru {v : ℕ} (hv : v < blocks.length) :
    tagAt (updateLru blocks v) = tagAt blocks := by
  funext w
  rw [tagAt, getD_updateLru hv]
  rfl

lemma tagAt_fillWay {v : ℕ} (hv : v < blocks.length) (tag : Word) (w : ℕ) :
    tagAt (fillWay tag blocks v) w = if w = v then tag else tagAt blocks w := by
  rw [fillWay, tagAt_updateLru (by simpa using hv), tagAt, getD_modify hv]
  split_ifs <;> rfl

lemma validAt_fillWay {v : ℕ} (hv : v < blocks.length) (tag : Word) (w : ℕ) :
    validAt (fillWay tag blocks v) w = if w = v then true else validAt blocks w := by
  rw [fillWay, validAt_updateLru (by simpa using hv), validAt, getD_modify hv]
  split_ifs <;> rfl

/-- The counters are bumped with the filled way among the valid ones. -/
lemma recencyAt_fillWay {v : ℕ} (hv : v < blocks.length) (tag : Word) :
    recencyAt (fillWay tag blocks v) =
      Lib.bump (recencyAt blocks) (validAt (fillWay tag blocks v)) v := by
  have hv' : v < (blocks.modify v fun b => { b with tag := tag, valid := true }).length := by
    simpa using hv
  rw [fillWay, recencyAt_updateLru hv', validAt_updateLru hv']
  congr 1
  funext w
  rw [recencyAt, getD_modify hv]
  split_ifs <;> rfl

/-- A hit is in a valid way with the tag. -/
lemma hitWay_some {tag : Word} {w : ℕ} (h : hitWay blocks tag = some w) :
    validAt blocks w = true ∧ tagAt blocks w = tag := by
  obtain ⟨hw,hp,-⟩ := List.findIdx?_eq_some_iff_getElem.mp h
  rw [validAt, tagAt, getD_of_lt hw]
  simpa [and_comm] using hp

lemma hitWay_none {tag : Word} (h : hitWay blocks tag = none) {w : ℕ}
    (hv : validAt blocks w = true) : tagAt blocks w ≠ tag := by
  have hw := lt_length_of_validAt hv
  have hp := List.findIdx?_eq_none_iff.mp h blocks[w] (List.getElem_mem hw)
  rw [validAt, getD_of_lt hw] at hv
  rw [tagAt, getD_of_lt hw]
  simpa [hv] using hp

/-- The first invalid way comes after valid ones only. -/
lemma invalidWay_some {w : ℕ} (h : invalidWay blocks = some w) :
    w < blocks.length ∧ validAt blocks w = false ∧ ∀ v < w, validAt blocks v = true := by
  obtain ⟨hw,hp,hlt⟩ := List.findIdx?_eq_some_iff_getElem.mp h
  refine ⟨hw,?_,fun v hv => ?_⟩
  · rw [validAt, getD_of_lt hw]
    simpa using hp
  · rw [validAt, getD_of_lt (hv.trans hw)]
    simpa using hlt v hv

lemma invalidWay_none (h : invalidWay blocks = none) {w : ℕ} (hw : w < blocks.length) :
    validAt blocks w = true := by
  rw [validAt, getD_of_lt hw]
  simpa using List.findIdx?_eq_none_iff.mp h blocks[w] (List.getElem_mem hw)

end Ways

lemma length_updateLru (blocks : List Block) (block : ℕ) :
    (updateLru blocks block).length = blocks.length := by
  simp [updateLru]

lemma length_fillWay (tag : Word) (blocks : List Block) (v : ℕ) :
    (fillWay tag blocks v).length = blocks.length := by
  simp [fillWay, length_updateLru]

/-- The order of use of the valid ways of a set is in their counters, and they come first. -/
structure RankedWays (blocks : List Block) (order : List ℕ) : Prop where
  ranked : Lib.Ranked (recencyAt blocks) order
  filled : ∀ w, w ∈ order ↔ w < order.length
  valid : ∀ w, validAt blocks w = true ↔ w ∈ order

namespace RankedWays
variable {blocks : List Block} {order : List ℕ}

lemma lt_of_mem (h : RankedWays blocks order) {w : ℕ} (hw : w ∈ order) : w < blocks.length :=
  lt_length_of_validAt ((h.valid w).mpr hw)

lemma length_le (h : RankedWays blocks order) : order.length ≤ blocks.length := by
  by_contra hgt
  exact lt_irrefl _ (h.lt_of_mem ((h.filled _).mpr (not_le.mp hgt)))

/-- A use of a valid way moves it to the front. -/
theorem hit (h : RankedWays blocks order) {w : ℕ} (hw : w ∈ order) :
    RankedWays (updateLru blocks w) (Lib.toFront w order) where
  ranked := by
    rw [recencyAt_updateLru (h.lt_of_mem hw)]
    exact h.ranked.bump_mem hw fun v hv => (h.valid v).mpr hv
  filled := Lib.filled_toFront h.filled hw
  valid v := by
    rw [validAt_updateLru (h.lt_of_mem hw), h.valid, Lib.mem_toFront]
    exact ⟨.inr,fun hor => hor.elim (fun he => he ▸ hw) id⟩

/-- The first invalid way comes right after the valid ones. -/
lemma next (h : RankedWays blocks order) {v : ℕ} (hv : invalidWay blocks = some v) :
    v = order.length ∧ v ∉ order := by
  obtain ⟨hlt,hinv,hbefore⟩ := invalidWay_some hv
  have hvo : v ∉ order := fun hm => by simp [(h.valid v).mpr hm] at hinv
  have hge : order.length ≤ v := not_lt.mp fun hl => hvo ((h.filled v).mpr hl)
  have hle : ¬ order.length < v := fun hl =>
    absurd ((h.filled _).mp ((h.valid _).mp (hbefore _ hl))) (lt_irrefl _)
  exact ⟨le_antisymm (not_lt.mp hle) hge,hvo⟩

lemma length_eq_of_full (h : RankedWays blocks order) (hfull : invalidWay blocks = none) :
    order.length = blocks.length := by
  refine le_antisymm h.length_le (not_lt.mp fun hlt => ?_)
  have hmem := (h.valid _).mp (invalidWay_none hfull hlt)
  exact lt_irrefl _ ((h.filled _).mp hmem)

/-- In a full set the search for the greatest counter finds the last way of the order. -/
theorem findIdx_last (h : RankedWays blocks order) (hfull : invalidWay blocks = none)
    (hpos : 0 < blocks.length) : ∃ v,
      (blocks.findIdx? fun b => b.recency == blocks.length - 1) = some v ∧
        order.getLast? = some v := by
  have hlen := h.length_eq_of_full hfull
  have hne : order ≠ [] := fun he => by simp [he] at hlen; omega
  have hlast := List.getLast?_eq_some_getLast hne
  have hmem := List.getLast_mem hne
  have hlt := h.lt_of_mem hmem
  have hrank := (h.ranked.last_iff hmem).mpr hlast
  cases hf : blocks.findIdx? fun b => b.recency == blocks.length - 1 with
  | none =>
    have hp := List.findIdx?_eq_none_iff.mp hf blocks[order.getLast hne] (List.getElem_mem hlt)
    rw [recencyAt, getD_of_lt hlt, hlen] at hrank
    simp [hrank] at hp
  | some v =>
    obtain ⟨hvlt,hp,-⟩ := List.findIdx?_eq_some_iff_getElem.mp hf
    refine ⟨v,rfl,(h.ranked.last_iff ((h.filled v).mpr (hlen ▸ hvlt))).mp ?_⟩
    rw [recencyAt, getD_of_lt hvlt, hlen]
    simpa using hp

/-- The counters are a permutation of the numbers of the valid ways. -/
theorem perm (h : RankedWays blocks order) :
    ((List.range order.length).map (recencyAt blocks)).Perm (List.range order.length) := by
  have hways : (List.range order.length).Perm order := by
    refine (List.perm_ext_iff_of_nodup List.nodup_range h.ranked.nodup).mpr fun w => ?_
    rw [List.mem_range, h.filled]
  have hcounters := hways.map (recencyAt blocks)
  rwa [h.ranked.map_eq_range] at hcounters

end RankedWays

end CaLabs
