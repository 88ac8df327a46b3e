import CaLabs.Lab2.Pipe

/-! Replacement in the L1 caches of lab 2. alloc_cache leaves every recency at zero, and the
strict comparison of update_lru keeps it there. -/
namespace CaLabs.Lab2
open Mips Lib

/-- What the pipeline does to an L1 cache. -/
inductive L1Op where
  | access (address : Word)
  | fill (address : Word)
  deriving DecidableEq, Repr

namespace L1Op

def address : L1Op → Word
  | access a => a
  | fill a => a

/-- The way that the operation uses: the one that hits, or the one that is filled. -/
def way (c : Cache) : L1Op → Option ℕ
  | access a => hitWay (c.sets (c.setOf a)) (c.tagOf a)
  | fill a => some (victimWay c.numWays (c.sets (c.setOf a)))

/-- The cache after the operation; a miss of l1_cache_access does not change it. -/
def apply (c : Cache) : L1Op → Cache
  | access a =>
    match hitWay (c.sets (c.setOf a)) (c.tagOf a) with
    | some b => c.setBlocks (c.setOf a) (updateLru (c.sets (c.setOf a)) b)
    | none => c
  | fill a => completeL1Fill c a

/-- The ways of every set in order of last use, after the operation. -/
def order (c : Cache) (uses : ℕ → List ℕ) (op : L1Op) : ℕ → List ℕ :=
  match op.way c with
  | some w => Function.update uses (c.setOf op.address) (toFront w (uses (c.setOf op.address)))
  | none => uses

/-- A sequence of operations on the cache and on the orders of use. -/
def runAll (c : Cache) (uses : ℕ → List ℕ) : List L1Op → Cache × (ℕ → List ℕ)
  | [] => (c,uses)
  | op :: ops => runAll (op.apply c) (op.order c uses) ops

/-- The fills that a set receives. -/
def fillsOf (setOf : Word → ℕ) (s : ℕ) (ops : List L1Op) : ℕ :=
  ops.countP fun op => match op with
    | fill a => setOf a == s
    | access _ => false

end L1Op

/-- l1_cache_access leaves the L1 cache as the operation says. -/
lemma l1CacheAccess_l1 (m : Memories) (isIcache : Bool) (statCycles address : Word) :
    (m.l1CacheAccess isIcache statCycles address).2.l1 isIcache =
      (L1Op.access address).apply (m.l1 isIcache) := by
  simp only [Memories.l1CacheAccess, L1Op.apply]
  cases hitWay ((m.l1 isIcache).sets ((m.l1 isIcache).setOf address))
      ((m.l1 isIcache).tagOf address) with
  | some b => cases isIcache <;> rfl
  | none => cases findMshrForAddress m.mshrs address <;> rfl

/-- The counters of every set number its valid ways in order of last use, and on a full set
the next fill replaces the way used least recently. -/
structure LruReplacement (c : Cache) (uses : ℕ → List ℕ) : Prop where
  valid : ∀ s < c.numSets, ∀ w, w ∈ uses s ↔ validAt (c.sets s) w = true
  ranked : ∀ s < c.numSets, Ranked (recencyAt (c.sets s)) (uses s)
  victim : ∀ s < c.numSets, invalidWay (c.sets s) = none →
    (uses s).getLast? = some (victimWay c.numWays (c.sets s))

/-- What holds after any operations: all counters are zero and the valid ways come first. -/
structure ZeroCounters (n : ℕ) (c : Cache) (uses : ℕ → List ℕ) : Prop where
  shaped : c.Shaped
  ways : c.numWays = n
  zero : ∀ s < c.numSets, ∀ w, recencyAt (c.sets s) w = 0
  nodup : ∀ s < c.numSets, (uses s).Nodup
  filled : ∀ s < c.numSets, ∀ w, w ∈ uses s ↔ w < (uses s).length
  valid : ∀ s < c.numSets, ∀ w, w ∈ uses s ↔ validAt (c.sets s) w = true

lemma allocCache_zeroCounters {capacity : Word} {numWays blockSize : BitVec 8} {c : Cache}
    (h : allocCache capacity numWays blockSize = some c) (hs : 0 < c.numSets) :
    ZeroCounters c.numWays c fun _ => [] := by
  have hget : ∀ s < c.numSets, ∀ w, (c.sets s).getD w {} = {} := by
    intro s hlt w
    rw [Cache.alloc_sets h hlt, List.getD_eq_getElem?_getD, List.getElem?_map]
    cases (List.range c.numWays)[w]? <;> rfl
  refine ⟨Cache.alloc_shaped h hs,rfl,fun s hlt w => ?_,fun _ _ => List.nodup_nil,
    fun _ _ w => by simp,fun s hlt w => ?_⟩
  · rw [recencyAt, hget s hlt]
  · simp only [validAt, hget s hlt, List.not_mem_nil, Bool.false_eq_true]

lemma bump_zero {recency : ℕ → ℕ} (h : ∀ w, recency w = 0) (valid : ℕ → Bool) (v w : ℕ) :
    bump recency valid v w = 0 := by
  simp [bump, h]

namespace ZeroCounters
variable {n : ℕ} {c : Cache} {uses : ℕ → List ℕ}

lemma lt_of_mem (h : ZeroCounters n c uses) {s w : ℕ} (hs : s < c.numSets) (hw : w ∈ uses s) :
    w < n := by
  have hlt := lt_length_of_validAt ((h.valid s hs w).mp hw)
  rwa [h.shaped.length s hs, h.ways] at hlt

lemma length_le (h : ZeroCounters n c uses) {s : ℕ} (hs : s < c.numSets) :
    (uses s).length ≤ n := by
  by_contra hgt
  exact lt_irrefl n (h.lt_of_mem hs ((h.filled s hs n).mpr (not_le.mp hgt)))

lemma full_iff (h : ZeroCounters n c uses) {s : ℕ} (hs : s < c.numSets) :
    invalidWay (c.sets s) = none ↔ (uses s).length = n := by
  have hlen := h.shaped.length s hs
  rw [h.ways] at hlen
  constructor
  · intro hfull
    have hpos := h.shaped.ways_pos
    rw [h.ways] at hpos
    have hlast := invalidWay_none hfull (show n - 1 < (c.sets s).length by omega)
    have hlt := (h.filled s hs _).mp ((h.valid s hs _).mpr hlast)
    have hle := h.length_le hs
    omega
  · intro hl
    cases hi : invalidWay (c.sets s) with
    | none => rfl
    | some v =>
      obtain ⟨hv,hinv,-⟩ := invalidWay_some hi
      have hmem := (h.filled s hs v).mpr (by omega)
      rw [(h.valid s hs v).mp hmem] at hinv
      cases hinv

/-- The victim is the first way still free, and some used way otherwise. -/
lemma victim (h : ZeroCounters n c uses) {s : ℕ} (hs : s < c.numSets) :
    victimWay n (c.sets s) < n ∧
      (victimWay n (c.sets s) = (uses s).length ∨
        ((uses s).length = n ∧ victimWay n (c.sets s) ∈ uses s)) := by
  have hlen := h.shaped.length s hs
  rw [h.ways] at hlen
  unfold victimWay
  cases hi : invalidWay (c.sets s) with
  | some v =>
    obtain ⟨hv,hinv,hbefore⟩ := invalidWay_some hi
    refine ⟨hlen ▸ hv,.inl ?_⟩
    have hge : ¬ v < (uses s).length := by
      intro hl
      rw [(h.valid s hs v).mp ((h.filled s hs v).mpr hl)] at hinv
      cases hinv
    have hle : ¬ (uses s).length < v := fun hl =>
      absurd ((h.filled s hs _).mp ((h.valid s hs _).mpr (hbefore _ hl))) (lt_irrefl _)
    exact le_antisymm (not_lt.mp hle) (not_lt.mp hge)
  | none =>
    have hfull := (h.full_iff hs).mp hi
    have hpos := h.shaped.ways_pos
    rw [h.ways] at hpos
    have hlt : ((c.sets s).findIdx? fun b => b.recency == n - 1).getD 0 < n := by
      cases hf : (c.sets s).findIdx? fun b => b.recency == n - 1 with
      | none => exact hpos
      | some v =>
        obtain ⟨hv,-⟩ := List.findIdx?_eq_some_iff_getElem.mp hf
        exact hlen ▸ hv
    exact ⟨hlt,.inr ⟨hfull,(h.filled s hs _).mpr (hfull ▸ hlt)⟩⟩

/-- Using the way w of a set, when its blocks keep zero counters and w is valid afterwards. -/
lemma use (h : ZeroCounters n c uses) {s w : ℕ} {blocks : List Block}
    (hl : blocks.length = (c.sets s).length) (hs : s < c.numSets)
    (hzero : ∀ v, recencyAt blocks v = 0)
    (hvalid : ∀ v, validAt blocks v = if v = w then true else validAt (c.sets s) v)
    (hw : w = (uses s).length ∨ w ∈ uses s) :
    ZeroCounters n (c.setBlocks s blocks) (Function.update uses s (toFront w (uses s))) := by
  have hmem : ∀ v, v ∈ toFront w (uses s) ↔ validAt blocks v = true := by
    intro v
    rw [mem_toFront, h.valid s hs, hvalid]
    split_ifs with he <;> simp [he]
  have hfilled : ∀ v, v ∈ toFront w (uses s) ↔ v < (toFront w (uses s)).length := by
    intro v
    rw [mem_toFront, h.filled s hs]
    rcases hw with rfl | hwm
    · have hnot : (uses s).length ∉ uses s := fun hm => lt_irrefl _ ((h.filled s hs _).mp hm)
      rw [toFront_of_notMem hnot, List.length_cons]
      omega
    · have hlt := (h.filled s hs w).mp hwm
      rw [length_toFront_of_mem hwm]
      omega
  refine ⟨h.shaped.setBlocks s (hl.trans (h.shaped.length s hs)),h.ways,?_,?_,?_,?_⟩
  all_goals
    intro s' hs'
    by_cases he : s' = s
    · subst he
      simp only [Cache.setBlocks, Function.update_self]
      first | exact hzero | exact nodup_toFront (h.nodup s' hs) | exact hfilled | exact hmem
    · simp only [Cache.setBlocks, Function.update_of_ne he]
      first | exact h.zero s' hs' | exact h.nodup s' hs' | exact h.filled s' hs' |
        exact h.valid s' hs'

theorem apply (h : ZeroCounters n c uses) (op : L1Op) :
    ZeroCounters n (op.apply c) (op.order c uses) := by
  cases op with
  | access a =>
    have hs := h.shaped.setOf_lt a
    simp only [L1Op.apply, L1Op.order, L1Op.way, L1Op.address]
    cases hw : hitWay (c.sets (c.setOf a)) (c.tagOf a) with
    | none => exact h
    | some w =>
      have hv := (hitWay_some hw).1
      have hlt := lt_length_of_validAt hv
      refine h.use (length_updateLru _ w) hs (fun v => ?_) (fun v => ?_)
        (.inr ((h.valid _ hs w).mpr hv))
      · rw [recencyAt_updateLru hlt, bump_zero (h.zero _ hs)]
      · rw [validAt_updateLru hlt]
        split_ifs with he
        · rw [he, hv]
        · rfl
  | fill a =>
    have hs := h.shaped.setOf_lt a
    obtain ⟨hlt,hor⟩ := h.victim hs
    rw [← h.ways] at hlt hor
    have hlt' : victimWay c.numWays (c.sets (c.setOf a)) < (c.sets (c.setOf a)).length := by
      rwa [h.shaped.length _ hs]
    refine h.use (length_fillWay _ _ _) hs (fun v => ?_) (fun v => ?_) (hor.imp id And.right)
    · rw [recencyAt_fillWay hlt', bump_zero (h.zero _ hs)]
    · exact validAt_fillWay hlt' _ v

/-- A set has as many used ways as it received fills, up to its number of ways. -/
lemma length_order (h : ZeroCounters n c uses) (op : L1Op) {s : ℕ} (hs : s < c.numSets) :
    (op.order c uses s).length =
      min ((uses s).length + L1Op.fillsOf c.setOf s [op]) n := by
  have hle := h.length_le hs
  cases op with
  | access a =>
    have hsame : (L1Op.order c uses (.access a) s).length = (uses s).length := by
      simp only [L1Op.order, L1Op.way, L1Op.address]
      cases hw : hitWay (c.sets (c.setOf a)) (c.tagOf a) with
      | none => rfl
      | some w =>
        by_cases he : s = c.setOf a
        · subst he
          simp only [Function.update_self]
          exact length_toFront_of_mem ((h.valid _ hs w).mpr (hitWay_some hw).1)
        · simp only [Function.update_of_ne he]
    simp [hsame, L1Op.fillsOf, hle]
  | fill a =>
    simp only [L1Op.order, L1Op.way, L1Op.address, L1Op.fillsOf, List.countP_singleton]
    by_cases he : s = c.setOf a
    · subst he
      obtain ⟨hlt,hor⟩ := h.victim hs
      rw [← h.ways] at hlt hor hle ⊢
      simp only [Function.update_self, beq_self_eq_true, if_true]
      rcases hor with he | ⟨hl,hm⟩
      · have hnot : victimWay c.numWays (c.sets (c.setOf a)) ∉ uses (c.setOf a) := by
          rw [he]
          exact fun hm => lt_irrefl _ ((h.filled _ hs _).mp hm)
        rw [toFront_of_notMem hnot, List.length_cons]
        omega
      · rw [length_toFront_of_mem hm]
        omega
    · have hne : (c.setOf a == s) = false := by simpa using Ne.symm he
      simp only [Function.update_of_ne he, hne, Bool.false_eq_true, if_false, Nat.add_zero]
      omega

/-- With zero counters a set is in order exactly when at most one of its ways is in use. -/
theorem lru_iff (h : ZeroCounters n c uses) :
    LruReplacement c uses ↔ ∀ s < c.numSets, (uses s).length ≤ 1 := by
  constructor
  · intro hlru s hs
    by_contra hgt
    have h0 := (h.filled s hs 0).mpr (by omega)
    have h1 := (h.filled s hs 1).mpr (by omega)
    have hidx : (uses s).idxOf 0 = (uses s).idxOf 1 := by
      rw [← (hlru.ranked s hs).rank 0 h0, ← (hlru.ranked s hs).rank 1 h1, h.zero s hs,
        h.zero s hs]
    exact absurd ((List.idxOf_inj h0).mp hidx) (by decide)
  · intro hle
    have hzero : ∀ s < c.numSets, ∀ w ∈ uses s, w = 0 := by
      intro s hs w hw
      have hlt := (h.filled s hs w).mp hw
      have hl := hle s hs
      omega
    refine ⟨h.valid,fun s hs => ⟨h.nodup s hs,fun w hw => ?_⟩,fun s hs hfull => ?_⟩
    · have hlt := List.idxOf_lt_length_of_mem hw
      have hl := hle s hs
      rw [h.zero s hs]
      omega
    · have hl := (h.full_iff hs).mp hfull
      have hpos := h.shaped.ways_pos
      have hle1 := hle s hs
      rw [h.ways] at hpos
      obtain ⟨w,hw⟩ := List.length_eq_one_iff.mp (by omega : (uses s).length = 1)
      obtain ⟨hlt,-⟩ := h.victim hs
      have hw0 := hzero s hs w (by simp [hw])
      have hv0 : victimWay c.numWays (c.sets s) = 0 := by
        rw [h.ways]
        omega
      rw [hw, hw0, hv0]
      rfl

end ZeroCounters

lemma L1Op.apply_geometry (c : Cache) (op : L1Op) :
    (op.apply c).numSets = c.numSets ∧ (op.apply c).setOf = c.setOf := by
  cases op with
  | access a =>
    simp only [L1Op.apply]
    cases hitWay (c.sets (c.setOf a)) (c.tagOf a) <;> exact ⟨rfl,rfl⟩
  | fill a => exact ⟨rfl,rfl⟩

lemma L1Op.runAll_numSets (c : Cache) (uses : ℕ → List ℕ) (ops : List L1Op) :
    (L1Op.runAll c uses ops).1.numSets = c.numSets := by
  induction ops generalizing c uses with
  | nil => rfl
  | cons op ops ih => exact (ih _ _).trans (L1Op.apply_geometry c op).1

theorem ZeroCounters.runAll {n : ℕ} {c : Cache} {uses : ℕ → List ℕ} (h : ZeroCounters n c uses)
    (ops : List L1Op) :
    ZeroCounters n (L1Op.runAll c uses ops).1 (L1Op.runAll c uses ops).2 ∧
      ∀ s < c.numSets, ((L1Op.runAll c uses ops).2 s).length =
        min ((uses s).length + L1Op.fillsOf c.setOf s ops) n := by
  induction ops generalizing c uses with
  | nil =>
    refine ⟨h,fun s hs => ?_⟩
    have hle := h.length_le hs
    simp [L1Op.runAll, L1Op.fillsOf, hle]
  | cons op ops ih =>
    obtain ⟨hnum,hset⟩ := L1Op.apply_geometry c op
    obtain ⟨hz,hl⟩ := ih (h.apply op)
    refine ⟨hz,fun s hs => ?_⟩
    have hcons : L1Op.fillsOf c.setOf s (op :: ops) =
        L1Op.fillsOf c.setOf s [op] + L1Op.fillsOf c.setOf s ops := by
      rw [L1Op.fillsOf, ← List.singleton_append, List.countP_append]
      rfl
    rw [L1Op.runAll, hl s (hnum ▸ hs), h.length_order op hs, hset, hcons]
    omega

/-- Operations on a new L1 cache leave its counters in order of last use, and its victims
least recently used, exactly when it has one way or no set has been filled twice. -/
theorem l1_replacement_lru_iff {capacity : Word} {numWays blockSize : BitVec 8} {c : Cache}
    (h : allocCache capacity numWays blockSize = some c) (ops : List L1Op) :
    LruReplacement (L1Op.runAll c (fun _ => []) ops).1 (L1Op.runAll c (fun _ => []) ops).2 ↔
      c.numWays = 1 ∨ ∀ s < c.numSets, L1Op.fillsOf c.setOf s ops ≤ 1 := by
  have hnum := L1Op.runAll_numSets c (fun _ => []) ops
  by_cases hs : 0 < c.numSets
  · obtain ⟨hz,hl⟩ := (allocCache_zeroCounters h hs).runAll ops
    rw [hz.lru_iff, hnum]
    have hpos := (Cache.alloc_shaped h hs).ways_pos
    constructor
    · intro hle
      by_cases hone : c.numWays = 1
      · exact .inl hone
      · refine .inr fun s hlt => ?_
        have hle' := hle s hlt
        rw [hl s hlt, List.length_nil] at hle'
        omega
    · rintro (hone | hfills) s hlt
      · rw [hl s hlt]
        omega
      · have hf := hfills s hlt
        rw [hl s hlt, List.length_nil]
        omega
  · have hno : ∀ s, ¬ s < c.numSets := fun s hlt => hs (by omega)
    refine ⟨fun _ => .inr fun s hlt => absurd hlt (hno s),fun _ => ?_⟩
    refine ⟨fun s hlt => ?_,fun s hlt => ?_,fun s hlt => ?_⟩
    all_goals exact absurd (hnum ▸ hlt) (hno s)

/-- The instruction cache after two fills of one set, which are not in order. -/
theorem icache_l1_replacement_lru_iff :
    LruReplacement
        (L1Op.runAll (initialCache icacheSize icacheWays) (fun _ => []) [.fill 0,.fill 0x800]).1
        (L1Op.runAll (initialCache icacheSize icacheWays) (fun _ => []) [.fill 0,.fill 0x800]).2 ↔
      (initialCache icacheSize icacheWays).numWays = 1 ∨
        ∀ s < (initialCache icacheSize icacheWays).numSets,
          L1Op.fillsOf (initialCache icacheSize icacheWays).setOf s [.fill 0,.fill 0x800] ≤ 1 :=
  l1_replacement_lru_iff (allocCache_initialCache (by decide)) _

/-- Four fills of one set and a hit on the first: the next fill evicts the block just used,
not the second one, which is the least recently used. -/
def fillsAndHit : List L1Op :=
  [.fill 0,.fill 0x800,.fill 0x1000,.fill 0x1800,.access 0]

/-- The counters and the victim go wrong on the instruction cache of the repository. -/
theorem icache_not_lru :
    ¬ LruReplacement
        (L1Op.runAll (initialCache icacheSize icacheWays) (fun _ => []) fillsAndHit).1
        (L1Op.runAll (initialCache icacheSize icacheWays) (fun _ => []) fillsAndHit).2 := by
  intro h
  have hvictim := h.victim 0 (by decide +kernel) (by decide +kernel)
  have hlast : ((L1Op.runAll (initialCache icacheSize icacheWays) (fun _ => []) fillsAndHit).2
      0).getLast? = some 1 := by decide +kernel
  have hfirst : victimWay
      (L1Op.runAll (initialCache icacheSize icacheWays) (fun _ => []) fillsAndHit).1.numWays
      ((L1Op.runAll (initialCache icacheSize icacheWays) (fun _ => []) fillsAndHit).1.sets 0) =
        0 := by decide +kernel
  rw [hlast, hfirst] at hvictim
  cases hvictim

end CaLabs.Lab2
