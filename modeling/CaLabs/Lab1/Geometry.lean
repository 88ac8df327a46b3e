import CaLabs.Lab1.Cache
import Mathlib.Tactic.Ring

/-! The geometry of the caches that the bench command allocates. -/
namespace CaLabs.Lab1
open Mips

/-- One of the two calls of alloc_cache in bench: the parameters are read as uint32_t and
reach alloc_cache through uint8_t. -/
def benchCache (policy : Policy) (capacity ways size : Word) : Option Cache :=
  allocCache policy capacity (ways.setWidth 8) (size.setWidth 8)

/-- The triples of capacity, ways and block size that the sweep submits. -/
structure Submitted (capacity ways size : Word) : Prop where
  capacity_pow : ∃ k, capacity.toNat = 2 ^ k
  ways_pow : ∃ k, ways.toNat = 2 ^ k
  size_pow : ∃ k, size.toNat = 2 ^ k
  fits : ways.toNat * size.toNat ≤ capacity.toNat

/-- The cache splits every address the way its parameters say. -/
structure Exact (c : Cache) (capacity ways size : Word) : Prop where
  product : c.numSets * ways.toNat * size.toNat = capacity.toNat
  blockBits : 2 ^ c.blockBits = size.toNat
  setBits : 2 ^ c.setBits = c.numSets
  unique : ∀ a b, (c.setOf a = c.setOf b ∧ c.tagOf a = c.tagOf b) ↔
    a.toNat / size.toNat = b.toNat / size.toNat
  inside : ∀ a, c.setOf a < c.numSets

lemma log2Loop_two_pow {n k : ℕ} (h : k ≤ n) : Cache.log2Loop n (2 ^ k) = k := by
  induction n generalizing k with
  | zero =>
    obtain rfl : k = 0 := by omega
    rfl
  | succ n ih =>
    rw [Cache.log2Loop]
    cases k with
    | zero => rfl
    | succ k =>
      have hone : 2 ^ (k+1) > 1 := Nat.one_lt_two_pow (Nat.succ_ne_zero k)
      have hhalf : 2 ^ (k+1) >>> 1 = 2 ^ k := by
        rw [Nat.shiftRight_eq_div_pow, pow_succ, pow_one]
        exact Nat.mul_div_cancel _ (by decide)
      rw [if_pos hone, hhalf, ih (by omega)]

/-- A power of two keeps its value in eight bits when it fits there, else it becomes zero. -/
lemma toNat_setWidth_pow {x : Word} (h : ∃ k, x.toNat = 2 ^ k) :
    (x.setWidth 8).toNat = if x.toNat < 256 then x.toNat else 0 := by
  obtain ⟨k,hk⟩ := h
  rw [BitVec.toNat_setWidth, hk]
  split_ifs with hlt
  · exact Nat.mod_eq_of_lt hlt
  · have h8 : 8 ≤ k := by
      by_contra hk8
      exact hlt ((Nat.pow_lt_pow_iff_right (by decide)).mpr (by omega : k < 8))
    exact Nat.mod_eq_zero_of_dvd (pow_dvd_pow 2 h8)

/-- The index and the tag together are the number of the block. -/
lemma setOf_tagOf_eq_iff {c : Cache} (h : c.Shaped) (a b : Word) :
    (c.setOf a = c.setOf b ∧ c.tagOf a = c.tagOf b) ↔
      a.toNat / 2 ^ c.blockBits = b.toNat / 2 ^ c.blockBits := by
  have htag : ∀ x : Word, (c.tagOf x).toNat = x.toNat / 2 ^ c.blockBits / 2 ^ c.setBits :=
    fun x => by
      rw [Cache.tagOf, BitVec.toNat_ushiftRight, Nat.shiftRight_eq_div_pow, pow_add,
        Nat.div_div_eq_div_mul]
  rw [h.setOf_eq_mod, h.setOf_eq_mod, ← BitVec.toNat_inj, htag, htag]
  constructor
  · rintro ⟨hset,hdiv⟩
    rw [← Nat.div_add_mod (a.toNat / 2 ^ c.blockBits) (2 ^ c.setBits), hset, hdiv,
      Nat.div_add_mod]
  · intro heq
    rw [heq]
    exact ⟨rfl,rfl⟩

section Bench
variable {policy : Policy} {capacity ways size : Word}

/-- The call divides by zero unless both parameters survive. -/
lemma benchCache_eq_none (h : Submitted capacity ways size)
    (hlost : ¬(ways.toNat < 256 ∧ size.toNat < 256)) :
    benchCache policy capacity ways size = none := by
  have hzero : (size.setWidth 8).toNat * (ways.setWidth 8).toNat = 0 := by
    rw [toNat_setWidth_pow h.size_pow, toNat_setWidth_pow h.ways_pow]
    by_cases hw : ways.toNat < 256
    · rw [if_neg fun hs => hlost ⟨hw,hs⟩, Nat.zero_mul]
    · rw [if_neg hw, Nat.mul_zero]
  rw [benchCache, allocCache, Cache.alloc, if_pos hzero]

/-- With parameters that survive, the three powers of two split the capacity. -/
lemma benchCache_exact (h : Submitted capacity ways size) (hw : ways.toNat < 256)
    (hs : size.toNat < 256) :
    ∃ c, benchCache policy capacity ways size = some c ∧ Exact c capacity ways size := by
  obtain ⟨n,hn⟩ := h.capacity_pow
  obtain ⟨w,hwp⟩ := h.ways_pow
  obtain ⟨s,hsp⟩ := h.size_pow
  have hn32 : n < 32 := by
    have hlt : 2 ^ n < 2 ^ 32 := hn ▸ capacity.isLt
    exact (Nat.pow_lt_pow_iff_right (by decide)).mp hlt
  have hfit : s + w ≤ n := by
    have hle := h.fits
    rw [hn, hwp, hsp, ← pow_add] at hle
    have := (Nat.pow_le_pow_iff_right (by decide : 1 < 2)).mp hle
    omega
  have hsets : 2 ^ n / (2 ^ s * 2 ^ w) = 2 ^ (n - (s + w)) := by
    rw [← pow_add, Nat.pow_div hfit (by decide)]
  obtain ⟨c,hc,hnum,hblock,hset⟩ : ∃ c, benchCache policy capacity ways size = some c ∧
      c.numSets = 2 ^ (n - (s + w)) ∧ c.blockBits = s ∧ c.setBits = n - (s + w) := by
    have hnonzero : ¬2 ^ s * 2 ^ w = 0 := Nat.mul_ne_zero (NeZero.ne _) (NeZero.ne _)
    rw [benchCache, allocCache, Cache.alloc, toNat_setWidth_pow h.size_pow,
      toNat_setWidth_pow h.ways_pow, if_pos hw, if_pos hs, hn, hwp, hsp]
    simp only [if_neg hnonzero, hsets, log2Loop_two_pow (show s ≤ 32 by omega),
      log2Loop_two_pow (show n - (s + w) ≤ 32 by omega)]
    exact ⟨_,rfl,rfl,rfl,rfl⟩
  have hshape : c.Shaped := Cache.alloc_shaped hc (hnum ▸ Nat.two_pow_pos _)
  refine ⟨c,hc,?_,?_,?_,fun a b => ?_,hshape.setOf_lt⟩
  · rw [hnum, hwp, hsp, hn, ← pow_add, ← pow_add]
    congr 1
    omega
  · rw [hblock, hsp]
  · rw [hset, hnum]
  · rw [setOf_tagOf_eq_iff hshape, hblock, hsp]

/-- The geometry is right as long as the ways and the block size fit in eight bits. -/
theorem benchCache_exact_iff (policy : Policy) (h : Submitted capacity ways size) :
    (∃ c, benchCache policy capacity ways size = some c ∧ Exact c capacity ways size) ↔
      ways.toNat < 256 ∧ size.toNat < 256 := by
  constructor
  · rintro ⟨c,hc,-⟩
    by_contra hlost
    rw [benchCache_eq_none h hlost] at hc
    cases hc
  · rintro ⟨hw,hs⟩
    exact benchCache_exact h hw hs

end Bench

/-- The instruction cache of the default build is one of the sweep's. -/
theorem benchCache_exact_default : Submitted 8192 4 32 ∧
    ((∃ c, benchCache .rand 8192 4 32 = some c ∧ Exact c 8192 4 32) ↔
      (4 : Word).toNat < 256 ∧ (32 : Word).toNat < 256) :=
  have h : Submitted 8192 4 32 := ⟨⟨13,rfl⟩,⟨2,rfl⟩,⟨5,rfl⟩,by decide⟩
  ⟨h,benchCache_exact_iff .rand h⟩

/-- The sweep's block size of 256 divides by zero. -/
theorem benchCache_block_256 : Submitted 1024 1 256 ∧ ∀ policy,
    ¬∃ c, benchCache policy 1024 1 256 = some c ∧ Exact c 1024 1 256 := by
  refine ⟨⟨⟨10,rfl⟩,⟨0,rfl⟩,⟨8,rfl⟩,by decide⟩,fun policy => ?_⟩
  rintro ⟨c,hc,-⟩
  exact absurd hc (by simp [benchCache, allocCache, Cache.alloc])

end CaLabs.Lab1
