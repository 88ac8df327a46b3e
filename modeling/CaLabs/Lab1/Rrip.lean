import CaLabs.Lab1.Lru

/-! The RRIP build of the lab 1 cache against static RRIP with two bits and hit promotion. -/
namespace CaLabs.Lab1
open Mips

/-- A block of the reference cache. -/
structure SrripLine where
  tag : Word
  rrpv : ℕ
  deriving DecidableEq, Repr

/-- The ways of a set; an empty one has no line. -/
abbrev SrripSet := List (Option SrripLine)

namespace SrripSet

def hit (set : SrripSet) (tag : Word) : Option ℕ := set.findIdx? fun l => l.any (·.tag == tag)

def promote (set : SrripSet) (w : ℕ) : SrripSet :=
  set.modify w (Option.map fun l => { l with rrpv := immediateRrpv })

/-- The most distant prediction of the set. -/
def farthest (set : SrripSet) : ℕ := set.foldr (fun l n => max ((l.map (·.rrpv)).getD 0) n) 0

/-- All ways age equally, until one has the distant prediction. -/
def aged (set : SrripSet) : SrripSet :=
  set.map (Option.map fun l => { l with rrpv := l.rrpv + (distantRrpv - set.farthest) })

/-- The first way with the distant prediction. -/
def victim (set : SrripSet) : ℕ := set.findIdx fun l => l.any (·.rrpv == distantRrpv)

/-- A new block has the long prediction, and only a later hit makes it the immediate one. -/
def access (set : SrripSet) (tag : Word) : Bool × SrripSet :=
  match set.hit tag with
  | some w => (true,set.promote w)
  | none =>
    match set.findIdx? (·.isNone) with
    | some w => (false,set.set w (some ⟨tag,longRrpv⟩))
    | none => (false,set.aged.set set.aged.victim (some ⟨tag,longRrpv⟩))

end SrripSet

/-- The reference cache. -/
abbrev SrripCache := ℕ → SrripSet

namespace SrripCache
variable (setOf : Word → ℕ) (tagOf : Word → Word)

def empty (numWays : ℕ) : SrripCache := fun _ => List.replicate numWays none

/-- The hits of a trace of accesses. -/
def answers : SrripCache → List Word → List Bool
  | _,[] => []
  | cache,address :: rest =>
    let (hit,set) := (cache (setOf address)).access (tagOf address)
    hit :: answers (Function.update cache (setOf address) set) rest

end SrripCache

/-- On every trace of aligned addresses the RRIP build answers as the reference cache does. -/
def AnswersAsSrrip (c : Cache) : Prop :=
  ∀ (rand : ℕ → ℕ) (addresses : List Word), (∀ a ∈ addresses, WordAligned a) →
    (answers .rrip c rand addresses).map Prod.fst =
      .ok (SrripCache.answers c.setOf c.tagOf (SrripCache.empty c.numWays) addresses)

/-- Blocks with equal predictions all become distant ones, and the first is the victim. -/
lemma rripSearch_uniform (n : ℕ) {b : Block} {rest : List Block} {r : ℕ} (hr : r ≤ distantRrpv)
    (hn : distantRrpv < r + n) (h : ∀ x ∈ b :: rest, x.valid = true ∧ x.rrpv = r) :
    rripSearch n (b :: rest) =
      .ok (0,(b :: rest).map fun x => { x with rrpv := distantRrpv }) := by
  induction n generalizing b rest r with
  | zero => omega
  | succ n ih =>
    rw [rripSearch]
    by_cases hd : r = distantRrpv
    · have hf : (b :: rest).findIdx? (fun b => b.rrpv == distantRrpv) = some 0 := by
        have hb := (h b List.mem_cons_self).2
        simp [List.findIdx?_cons, hb, hd]
      have hsame : (b :: rest).map (fun x => { x with rrpv := distantRrpv }) = b :: rest := by
        refine (List.map_congr_left (g := id) fun x hx => ?_).trans (List.map_id _)
        rw [← hd, ← (h x hx).2, id]
      simp only [hf, hsame]
    · have hf : (b :: rest).findIdx? (fun b => b.rrpv == distantRrpv) = none := by
        rw [List.findIdx?_eq_none_iff]
        intro x hx
        simpa [(h x hx).2] using hd
      have hage : ∀ x ∈ b :: rest, agedBlock x = { x with rrpv := r + 1 } := by
        intro x hx
        have hlt : r < distantRrpv := by omega
        simp only [agedBlock, (h x hx).1, (h x hx).2, hlt, decide_true, Bool.and_self, if_true]
      have hmap : (b :: rest).map agedBlock = (b :: rest).map fun x => { x with rrpv := r + 1 } :=
        List.map_congr_left hage
      simp only [hf, hmap, List.map_cons]
      rw [ih (r := r + 1) (by omega) (by omega)]
      · simp only [List.map_cons, List.map_map]
        rfl
      · intro x hx
        have hx : x ∈ (b :: rest).map fun x => { x with rrpv := r + 1 } := hx
        obtain ⟨y,hy,rfl⟩ := List.mem_map.mp hx
        exact ⟨(h y hy).1,rfl⟩

/-! A cache with one way has no choice. -/

/-- The only way of a set holds the same block in both caches. -/
def SameBlock (blocks : List Block) (set : SrripSet) : Prop :=
  ∃ b l, blocks = [b] ∧ set = [l] ∧ b.rrpv ≤ distantRrpv ∧
    (∀ x ∈ l, x.rrpv ≤ distantRrpv) ∧
    (l.map (·.tag) = if b.valid then some b.tag else none)

lemma SrripSet.access_single {l : Option SrripLine} (h : ∀ x ∈ l, x.rrpv ≤ distantRrpv)
    (tag : Word) : ∃ n ≤ distantRrpv,
      SrripSet.access [l] tag = (decide (l.map (·.tag) = some tag),[some ⟨tag,n⟩]) := by
  cases l with
  | none => exact ⟨longRrpv,by decide,rfl⟩
  | some l =>
    by_cases ht : l.tag = tag
    · subst ht
      exact ⟨immediateRrpv,by decide,by simp [access, hit, promote]⟩
    · have hle : l.rrpv ≤ distantRrpv := h l rfl
      have hmiss : SrripSet.hit [some l] tag = none := by simp [hit, ht]
      have hvictim : SrripSet.victim (SrripSet.aged [some l]) = 0 := by
        have hfar : l.rrpv + (distantRrpv - l.rrpv) = distantRrpv := by omega
        simp [victim, aged, farthest, hfar]
      refine ⟨longRrpv,by decide,?_⟩
      simp only [access, hmiss, hvictim]
      simp [aged, ht]

/-- One access to a set with one way. -/
lemma cacheAccess_single {c : Cache} {b : Block} {address : Word} (rand : ℕ → ℕ)
    (ha : WordAligned address) (hset : c.sets (c.setOf address) = [b])
    (hb : b.rrpv ≤ distantRrpv) :
    ∃ b', cacheAccess .rrip c rand address =
        .ok (if b.valid = true ∧ b.tag = c.tagOf address then 0 else dramAccessCycles,
          c.setBlocks (c.setOf address) [b'],rand) ∧
      b'.valid = true ∧ b'.tag = c.tagOf address ∧ b'.rrpv ≤ distantRrpv := by
  by_cases hhit : b.valid = true ∧ b.tag = c.tagOf address
  · refine ⟨{ b with rrpv := immediateRrpv },?_,hhit.1,hhit.2,Nat.zero_le _⟩
    have hw : hitWay [b] (c.tagOf address) = some 0 := by simp [hitWay, hhit]
    simp only [cacheAccess, if_pos ha, hset, hw, if_pos hhit]
    rfl
  · have hw : hitWay [b] (c.tagOf address) = none := by
      simp only [hitWay, List.findIdx?_eq_none_iff, List.mem_singleton, forall_eq]
      rw [Bool.eq_false_iff]
      intro hp
      rw [Bool.and_eq_true, beq_iff_eq] at hp
      exact hhit ⟨hp.2,hp.1⟩
    have hchoose : ∃ b₁, chooseVictim .rrip c.numWays [b] rand = .ok (0,[b₁],rand) := by
      cases hv : b.valid with
      | false => exact ⟨b,by simp [chooseVictim, invalidWay, hv]⟩
      | true =>
        refine ⟨{ b with rrpv := distantRrpv },?_⟩
        have hfour : distantRrpv < b.rrpv + 4 :=
          Nat.lt_of_lt_of_le (by decide) (Nat.le_add_left 4 _)
        have hs := rripSearch_uniform 4 hb hfour
          (show ∀ x ∈ [b], x.valid = true ∧ x.rrpv = b.rrpv by simp [hv])
        simp [chooseVictim, invalidWay, hv, hs, bind, Except.bind]
    obtain ⟨b₁,hb₁⟩ := hchoose
    refine ⟨{ b₁ with rrpv := immediateRrpv, tag := c.tagOf address, valid := true },?_,rfl,rfl,
      Nat.zero_le _⟩
    simp only [cacheAccess, if_pos ha, hset, hw, if_neg hhit, hb₁]
    rfl

/-- With one way the answers are the same. -/
lemma answers_single {c : Cache} {cache : SrripCache} (rand : ℕ → ℕ)
    {addresses : List Word} (ha : ∀ a ∈ addresses, WordAligned a)
    (h : ∀ a, SameBlock (c.sets (c.setOf a)) (cache (c.setOf a))) :
    (answers .rrip c rand addresses).map Prod.fst =
      .ok (SrripCache.answers c.setOf c.tagOf cache addresses) := by
  induction addresses generalizing c cache with
  | nil => rfl
  | cons a rest ih =>
    obtain ⟨b,l,hblocks,hline,hb,hl,htag⟩ := h a
    obtain ⟨b',hacc,hv',ht',hb'⟩ :=
      cacheAccess_single rand (ha a List.mem_cons_self) hblocks hb
    obtain ⟨n,hn,hspec⟩ := SrripSet.access_single hl (c.tagOf a)
    have hsame : ∀ x, SameBlock (Function.update c.sets (c.setOf a) [b'] (c.setOf x))
        (Function.update cache (c.setOf a) [some ⟨c.tagOf a,n⟩] (c.setOf x)) := by
      intro x
      by_cases hx : c.setOf x = c.setOf a
      · rw [hx, Function.update_self, Function.update_self]
        refine ⟨b',some ⟨c.tagOf a,n⟩,rfl,rfl,hb',?_,by simp [hv', ht']⟩
        rintro x ⟨⟩
        exact hn
      · rw [Function.update_of_ne hx, Function.update_of_ne hx]
        exact h x
    have hnext := ih (c := c.setBlocks (c.setOf a) [b'])
      (fun x hx => ha x (List.mem_cons_of_mem a hx)) hsame
    have hhit : ((if b.valid = true ∧ b.tag = c.tagOf a then 0 else dramAccessCycles) == 0) =
        decide (l.map (·.tag) = some (c.tagOf a)) := by
      rw [htag]
      cases hv : b.valid <;> by_cases ht : b.tag = c.tagOf a <;> simp [ht]
    cases hrest : answers .rrip (c.setBlocks (c.setOf a) [b']) rand rest with
    | error e =>
      rw [hrest] at hnext
      cases hnext
    | ok r =>
      rw [hrest] at hnext
      simp only [Except.map, Except.ok.injEq] at hnext
      simp only [answers, SrripCache.answers, hacc, hrest, bind, Except.bind, hline, hspec,
        Except.map, hhit, hnext]
      rfl

/-! With more ways a block that was hit is taken for one that never was. -/

section MoreWays
variable {c : Cache}

/-- One block for every way and one more, all of them in set 0. -/
lemma exists_addresses {capacity : Word} {numWays blockSize : BitVec 8}
    (h : allocCache .rrip capacity numWays blockSize = some c) (hs : 0 < c.numSets) :
    ∃ f : ℕ → Word, ∀ k ≤ c.numWays, WordAligned (f k) ∧ c.setOf (f k) = 0 ∧
      ∀ j ≤ c.numWays, c.tagOf (f k) = c.tagOf (f j) → k = j := by
  have hshape := Cache.alloc_shaped h hs
  have hgeom : 2 ^ (c.blockBits + c.setBits) * c.numWays < 2 ^ 32 ∧ c.numWays < 256 := by
    simp only [allocCache, Cache.alloc] at h
    split_ifs at h with h0
    obtain rfl := Option.some.inj h
    dsimp only at hs ⊢
    refine ⟨?_,numWays.isLt⟩
    have hsize : 0 < blockSize.toNat := Nat.pos_of_ne_zero fun hn => h0 (by simp [hn])
    have hb := Cache.pow_log2Loop_le 32 hsize
    have hp := Cache.pow_log2Loop_le 32 hs
    calc 2 ^ (Cache.log2Loop 32 blockSize.toNat +
          Cache.log2Loop 32 (capacity.toNat / (blockSize.toNat * numWays.toNat))) * numWays.toNat
        ≤ blockSize.toNat * (capacity.toNat / (blockSize.toNat * numWays.toNat)) *
          numWays.toNat := by
          rw [pow_add]
          exact Nat.mul_le_mul_right _ (Nat.mul_le_mul hb hp)
      _ = (blockSize.toNat * numWays.toNat) *
          (capacity.toNat / (blockSize.toNat * numWays.toNat)) := by ring
      _ ≤ capacity.toNat := Nat.mul_div_le _ _
      _ < 2 ^ 32 := capacity.isLt
  -- two more address bits than the split needs keep the addresses aligned
  set S := max (c.blockBits + c.setBits) 2 with hS
  have hbound : c.numWays * 2 ^ S < 2 ^ 32 := by
    rcases max_choice (c.blockBits + c.setBits) 2 with hm | hm
    · rw [hS, hm, mul_comm]
      exact hgeom.1
    · rw [hS, hm]
      omega
  have hsplit : c.blockBits + c.setBits ≤ S := le_max_left _ _
  have hnat : ∀ k ≤ c.numWays, (BitVec.ofNat 32 (k * 2 ^ S)).toNat = k * 2 ^ S := fun k hk => by
    rw [BitVec.toNat_ofNat, Nat.mod_eq_of_lt]
    exact lt_of_le_of_lt (Nat.mul_le_mul_right _ hk) hbound
  refine ⟨fun k => BitVec.ofNat 32 (k * 2 ^ S),fun k hk => ⟨?_,?_,fun j hj heq => ?_⟩⟩
  · rw [WordAligned, hnat k hk]
    have h2 : 2 ^ 2 ∣ 2 ^ S := pow_dvd_pow 2 (le_max_right _ _)
    exact Nat.mod_eq_zero_of_dvd (h2.mul_left k)
  · rw [hshape.setOf_eq_mod, hnat k hk]
    obtain ⟨d,hd⟩ := Nat.exists_eq_add_of_le hsplit
    rw [hd, pow_add, pow_add, show k * (2 ^ c.blockBits * 2 ^ c.setBits * 2 ^ d) =
      2 ^ c.blockBits * (2 ^ c.setBits * (k * 2 ^ d)) by ring,
      Nat.mul_div_cancel_left _ (Nat.two_pow_pos _), Nat.mul_mod_right]
  · have hnum : ∀ i ≤ c.numWays, (c.tagOf (BitVec.ofNat 32 (i * 2 ^ S))).toNat =
        i * 2 ^ (S - (c.blockBits + c.setBits)) := by
      intro i hi
      rw [Cache.tagOf, BitVec.toNat_ushiftRight, hnat i hi, Nat.shiftRight_eq_div_pow]
      conv_lhs => rw [← Nat.sub_add_cancel hsplit, pow_add, ← mul_assoc]
      exact Nat.mul_div_cancel _ (Nat.two_pow_pos _)
    have hmul := congrArg BitVec.toNat heq
    rw [hnum k hk, hnum j hj] at hmul
    exact Nat.eq_of_mul_eq_mul_right (Nat.two_pow_pos _) hmul

/-- The answers of the code, with these blocks in its sets, and of the reference agree. -/
def Agree (c : Cache) (sets : ℕ → List Block) (cache : SrripCache) (rand : ℕ → ℕ)
    (addresses : List Word) : Prop :=
  (answers .rrip { c with sets := sets } rand addresses).map Prod.fst =
    .ok (SrripCache.answers c.setOf c.tagOf cache addresses)

lemma Agree.head {sets : ℕ → List Block} {cache : SrripCache} {rand : ℕ → ℕ} {a : Word}
    {rest : List Word} (h : Agree c sets cache rand (a :: rest)) :
    ∃ stall c' rand', cacheAccess .rrip { c with sets := sets } rand a = .ok (stall,c',rand') ∧
      (stall == 0) = ((cache (c.setOf a)).access (c.tagOf a)).1 ∧
      (answers .rrip c' rand' rest).map Prod.fst = .ok (SrripCache.answers c.setOf c.tagOf
        (Function.update cache (c.setOf a) ((cache (c.setOf a)).access (c.tagOf a)).2) rest) := by
  unfold Agree at h
  simp only [answers, SrripCache.answers] at h
  cases hacc : cacheAccess .rrip { c with sets := sets } rand a with
  | error e => simp [hacc, bind, Except.bind, Except.map] at h
  | ok r =>
    obtain ⟨stall,c',rand'⟩ := r
    simp only [hacc, bind, Except.bind] at h
    cases hrest : answers .rrip c' rand' rest with
    | error e => simp [hrest, Except.map] at h
    | ok q =>
      simp only [hrest, Except.map, Except.ok.injEq, List.cons.injEq] at h
      exact ⟨stall,c',rand',rfl,h.1,by simp only [Except.map, hrest, h.2]⟩

/-- An access that the code misses in set 0. -/
lemma Agree.miss {sets : ℕ → List Block} {cache : SrripCache} {rand rand' : ℕ → ℕ} {a : Word}
    {rest : List Word} (h : Agree c sets cache rand (a :: rest)) (ha : WordAligned a)
    (hset : c.setOf a = 0) (hmiss : hitWay (sets 0) (c.tagOf a) = none) {victim : ℕ}
    {blocks : List Block}
    (hv : chooseVictim .rrip c.numWays (sets 0) rand = .ok (victim,blocks,rand')) :
    ((cache 0).access (c.tagOf a)).1 = false ∧
      Agree c (Function.update sets 0 (replaceBlock .rrip (c.tagOf a) blocks victim))
        (Function.update cache 0 ((cache 0).access (c.tagOf a)).2) rand' rest := by
  obtain ⟨stall,c',r,hacc,hhit,hrest⟩ := h.head
  have hset' : Cache.setOf { c with sets := sets } a = 0 := hset
  have htag : Cache.tagOf { c with sets := sets } a = c.tagOf a := rfl
  simp only [cacheAccess, if_pos ha, hset', htag, hmiss, hv, bind, Except.bind, Except.ok.injEq,
    Prod.mk.injEq] at hacc
  obtain ⟨rfl,rfl,rfl⟩ := hacc
  rw [hset] at hhit hrest
  exact ⟨hhit.symm,hrest⟩

/-- Only a hit costs no cycle. -/
lemma hit_of_cacheAccess {a : Word} {rand rand' : ℕ → ℕ} {c' : Cache}
    (h : cacheAccess .rrip c rand a = .ok (0,c',rand')) :
    hitWay (c.sets (c.setOf a)) (c.tagOf a) ≠ none := by
  obtain ⟨-,hanswer⟩ := cacheAccess_cases h
  cases hanswer with
  | hit hhit =>
    rw [hhit]
    exact Option.some_ne_none _

/-- An access that the code hits in set 0. -/
lemma Agree.hit {sets : ℕ → List Block} {cache : SrripCache} {rand : ℕ → ℕ} {a : Word}
    {rest : List Word} (h : Agree c sets cache rand (a :: rest)) (ha : WordAligned a)
    (hset : c.setOf a = 0) {w : ℕ} (hw : hitWay (sets 0) (c.tagOf a) = some w) :
    Agree c (Function.update sets 0 (updateRrip (sets 0) w))
      (Function.update cache 0 ((cache 0).access (c.tagOf a)).2) rand rest := by
  obtain ⟨stall,c',r,hacc,-,hrest⟩ := h.head
  have hset' : Cache.setOf { c with sets := sets } a = 0 := hset
  have htag : Cache.tagOf { c with sets := sets } a = c.tagOf a := rfl
  simp only [cacheAccess, if_pos ha, hset', htag, hw, Except.ok.injEq, Prod.mk.injEq] at hacc
  obtain ⟨rfl,rfl,rfl⟩ := hacc
  rw [hset] at hrest
  exact hrest

/-- Set 0 after the first k of the blocks have filled its first ways. -/
def filledBlocks (n : ℕ) (tag : ℕ → Word) (k : ℕ) : List Block :=
  (List.range n).map fun i => if i < k then
    { tag := tag i, valid := true, rrpv := immediateRrpv } else freshBlock .rrip i

def filledLines (n : ℕ) (tag : ℕ → Word) (k : ℕ) : SrripSet :=
  (List.range n).map fun i => if i < k then some ⟨tag i,longRrpv⟩ else none

variable {n k : ℕ} {tag : ℕ → Word}

lemma hitWay_filledBlocks (hk : k < n) (hne : ∀ i < k, tag i ≠ tag k) :
    hitWay (filledBlocks n tag k) (tag k) = none ∧
      invalidWay (filledBlocks n tag k) = some k := by
  constructor
  · rw [hitWay, filledBlocks, List.findIdx?_eq_none_iff]
    intro b hb
    obtain ⟨i,-,rfl⟩ := List.mem_map.mp hb
    split_ifs with hi
    · simp [hne i hi]
    · simp [freshBlock]
  · rw [invalidWay, List.findIdx?_eq_some_iff_getElem]
    refine ⟨by simpa [filledBlocks] using hk,by simp [filledBlocks, freshBlock],fun j hj => ?_⟩
    simp [filledBlocks, hj]

lemma replaceBlock_filledBlocks :
    replaceBlock .rrip (tag k) (filledBlocks n tag k) k = filledBlocks n tag (k + 1) := by
  apply List.ext_getElem
  · simp [length_replaceBlock, filledBlocks]
  · intro i h₁ h₂
    simp only [replaceBlock, if_true, touch, updateRrip, List.getElem_modify, filledBlocks,
      List.getElem_map, List.getElem_range]
    by_cases hik : k = i
    · subst hik
      simp [freshBlock]
    · have hiff : i < k + 1 ↔ i < k := by omega
      simp [hik, hiff]

lemma access_filledLines (hk : k < n) (hne : ∀ i < k, tag i ≠ tag k) :
    (filledLines n tag k).access (tag k) = (false,filledLines n tag (k + 1)) := by
  have hmiss : (filledLines n tag k).hit (tag k) = none := by
    rw [SrripSet.hit, filledLines, List.findIdx?_eq_none_iff]
    intro l hl
    obtain ⟨i,-,rfl⟩ := List.mem_map.mp hl
    split_ifs with hi
    · simp [hne i hi]
    · rfl
  have hempty : (filledLines n tag k).findIdx? (·.isNone) = some k := by
    rw [List.findIdx?_eq_some_iff_getElem]
    refine ⟨by simpa [filledLines] using hk,by simp [filledLines],fun j hj => ?_⟩
    simp [filledLines, hj]
  simp only [SrripSet.access, hmiss, hempty, Prod.mk.injEq, true_and]
  apply List.ext_getElem
  · simp [filledLines]
  · intro i h₁ h₂
    simp only [List.getElem_set, filledLines, List.getElem_map, List.getElem_range]
    by_cases hik : k = i
    · subst hik
      simp
    · have hiff : i < k + 1 ↔ i < k := by omega
      simp [hik, hiff]

/-- The full set, with the first ways apart. -/
lemma filledBlocks_full (n : ℕ) (tag : ℕ → Word) : filledBlocks (n + 1) tag (n + 1) =
    { tag := tag 0, valid := true } ::
      (List.range n).map fun i => { tag := tag (i + 1), valid := true } := by
  rw [filledBlocks, List.range_succ_eq_map, List.map_cons, List.map_map]
  simp only [Nat.zero_lt_succ, if_true, List.cons.injEq, true_and]
  refine List.map_congr_left fun i hi => ?_
  have hlt : i + 1 < n + 1 := by simpa using hi
  simp only [Function.comp_apply, Nat.succ_eq_add_one, if_pos hlt]

lemma filledLines_full (n : ℕ) (tag : ℕ → Word) : filledLines (n + 2) tag (n + 2) =
    some ⟨tag 0,longRrpv⟩ :: some ⟨tag 1,longRrpv⟩ ::
      (List.range n).map fun i => some ⟨tag (i + 2),longRrpv⟩ := by
  rw [filledLines, List.range_succ_eq_map, List.range_succ_eq_map]
  simp only [List.map_cons, List.map_map, Nat.zero_lt_succ, if_true, Nat.succ_eq_add_one,
    zero_add, Nat.lt_add_left_iff_pos, List.cons.injEq, true_and]
  refine List.map_congr_left fun i hi => ?_
  have hlt : i + 1 + 1 < n + 2 := by simpa using hi
  simp only [Function.comp_apply, Nat.succ_eq_add_one, if_pos hlt]

/-- A hit on the first block of the full set only promotes that block. -/
lemma access_filledLines_full (n : ℕ) (tag : ℕ → Word) :
    ((filledLines (n + 2) tag (n + 2)).access (tag 0)).2 =
      some ⟨tag 0,immediateRrpv⟩ :: some ⟨tag 1,longRrpv⟩ ::
        (List.range n).map fun i => some ⟨tag (i + 2),longRrpv⟩ := by
  rw [filledLines_full]
  simp [SrripSet.access, SrripSet.hit, SrripSet.promote, List.findIdx?_cons]

/-- The reference keeps the block that was hit when the next one comes. -/
lemma access_keeps_hit (n : ℕ) {tag : ℕ → Word} {new : Word}
    (hne : ∀ i < n + 2, tag i ≠ new) (lines : SrripSet)
    (hlines : lines = some ⟨tag 0,immediateRrpv⟩ :: some ⟨tag 1,longRrpv⟩ ::
      (List.range n).map fun i => some ⟨tag (i + 2),longRrpv⟩) :
    ((lines.access new).2.access (tag 0)).1 = true := by
  subst hlines
  set rest : SrripSet := (List.range n).map fun i => some ⟨tag (i + 2),longRrpv⟩ with hrest
  have hfar : ∀ l : List ℕ, (SrripSet.farthest (l.map fun i => some ⟨tag (i + 2),longRrpv⟩)) ≤
      longRrpv := by
    intro l
    induction l with
    | nil => exact Nat.zero_le _
    | cons i l ih =>
      simp only [SrripSet.farthest, List.map_cons, List.foldr_cons] at ih ⊢
      exact max_le le_rfl ih
  have hfarthest : SrripSet.farthest
      (some ⟨tag 0,immediateRrpv⟩ :: some ⟨tag 1,longRrpv⟩ :: rest) = longRrpv := by
    have h := hfar (List.range n)
    simp only [SrripSet.farthest, List.foldr_cons, Option.map_some, Option.getD_some] at h ⊢
    rw [max_eq_left h]
    rfl
  have hmiss : SrripSet.hit (some ⟨tag 0,immediateRrpv⟩ :: some ⟨tag 1,longRrpv⟩ :: rest) new =
      none := by
    rw [SrripSet.hit, List.findIdx?_eq_none_iff]
    intro l hl
    rcases List.mem_cons.mp hl with rfl | hl
    · simp [hne 0 (by omega)]
    rcases List.mem_cons.mp hl with rfl | hl
    · simp [hne 1 (by omega)]
    obtain ⟨i,hi,rfl⟩ := List.mem_map.mp hl
    have hlt : i < n := by simpa using hi
    simp [hne (i + 2) (by omega)]
  have hfull : (some ⟨tag 0,immediateRrpv⟩ :: some ⟨tag 1,longRrpv⟩ :: rest : SrripSet).findIdx?
      (·.isNone) = none := by
    rw [List.findIdx?_eq_none_iff]
    intro l hl
    rcases List.mem_cons.mp hl with rfl | hl
    · rfl
    rcases List.mem_cons.mp hl with rfl | hl
    · rfl
    obtain ⟨i,-,rfl⟩ := List.mem_map.mp hl
    rfl
  simp only [SrripSet.access, hmiss, hfull, SrripSet.aged, hfarthest, List.map_cons,
    Option.map_some, SrripSet.victim, List.findIdx_cons]
  simp [SrripSet.hit, immediateRrpv, longRrpv, distantRrpv, List.findIdx?_cons]

lemma mem_filledBlocks_full {b : Block} (h : b ∈ filledBlocks n tag n) :
    ∃ i < n, b = { tag := tag i, valid := true } := by
  obtain ⟨i,hi,rfl⟩ := List.mem_map.mp h
  have hlt : i < n := by simpa using hi
  exact ⟨i,hlt,by rw [if_pos hlt]⟩

lemma hitWay_filledBlocks_full {new : Word} (hne : ∀ i < n, tag i ≠ new) :
    hitWay (filledBlocks n tag n) new = none := by
  rw [hitWay, List.findIdx?_eq_none_iff]
  intro b hb
  obtain ⟨i,hi,rfl⟩ := mem_filledBlocks_full hb
  simp [hne i hi]

/-- All blocks look like ones that were hit, so the first way is the victim. -/
lemma chooseVictim_filledBlocks_full (n : ℕ) (tag : ℕ → Word) (rand : ℕ → ℕ) :
    chooseVictim .rrip (n + 1) (filledBlocks (n + 1) tag (n + 1)) rand = .ok (0,
      (filledBlocks (n + 1) tag (n + 1)).map fun x => { x with rrpv := distantRrpv },rand) := by
  have hall : ∀ x ∈ filledBlocks (n + 1) tag (n + 1), x.valid = true ∧ x.rrpv = 0 := by
    intro x hx
    obtain ⟨i,-,rfl⟩ := mem_filledBlocks_full hx
    exact ⟨rfl,rfl⟩
  have hinv : invalidWay (filledBlocks (n + 1) tag (n + 1)) = none := by
    rw [invalidWay, List.findIdx?_eq_none_iff]
    intro x hx
    simp [(hall x hx).1]
  simp only [chooseVictim, hinv]
  rw [filledBlocks_full] at hall ⊢
  rw [rripSearch_uniform 4 (Nat.zero_le _) (by decide) hall]
  rfl

/-- Once the first way holds another block, its old block is gone. -/
lemma hitWay_replaceBlock_first (n : ℕ) {tag : ℕ → Word} {new : Word} (hnew : new ≠ tag 0)
    (hne : ∀ i < n, tag (i + 1) ≠ tag 0) :
    hitWay (replaceBlock .rrip new ((filledBlocks (n + 1) tag (n + 1)).map
      fun x => { x with rrpv := distantRrpv }) 0) (tag 0) = none := by
  rw [filledBlocks_full, hitWay, List.findIdx?_eq_none_iff]
  intro b hb
  rcases List.mem_cons.mp hb with rfl | hb
  · simpa using hnew
  · obtain ⟨y,hy,rfl⟩ := List.mem_map.mp hb
    obtain ⟨i,hi,rfl⟩ := List.mem_map.mp hy
    have hlt : i < n := by simpa using hi
    simpa using hne i hlt

/-- Accesses to as many blocks as the set has ways fill it in their order. -/
lemma Agree.filled {f : ℕ → Word} (hf : ∀ k < c.numWays, WordAligned (f k) ∧ c.setOf (f k) = 0)
    (hne : ∀ k < c.numWays, ∀ i < k, c.tagOf (f i) ≠ c.tagOf (f k)) {sets : ℕ → List Block}
    {cache : SrripCache} {tail : List Word}
    (hsets : sets 0 = filledBlocks c.numWays (fun i => c.tagOf (f i)) 0)
    (hlines : cache 0 = filledLines c.numWays (fun i => c.tagOf (f i)) 0)
    (h : Agree c sets cache id ((List.range' 0 c.numWays).map f ++ tail)) :
    ∃ sets' cache', sets' 0 = filledBlocks c.numWays (fun i => c.tagOf (f i)) c.numWays ∧
      cache' 0 = filledLines c.numWays (fun i => c.tagOf (f i)) c.numWays ∧
      Agree c sets' cache' id tail := by
  have hfill : ∀ k ≤ c.numWays, ∃ sets' cache',
      sets' 0 = filledBlocks c.numWays (fun i => c.tagOf (f i)) k ∧
      cache' 0 = filledLines c.numWays (fun i => c.tagOf (f i)) k ∧
      Agree c sets' cache' id ((List.range' k (c.numWays - k)).map f ++ tail) := by
    intro k hk
    induction k with
    | zero => exact ⟨sets,cache,hsets,hlines,h⟩
    | succ k ih =>
      obtain ⟨sets',cache',hsets',hlines',hagree⟩ := ih (by omega)
      rw [show c.numWays - k = (c.numWays - (k + 1)) + 1 by omega, List.range'_succ,
        List.map_cons, List.cons_append] at hagree
      obtain ⟨hmiss,hinv⟩ := @hitWay_filledBlocks _ _ (fun i => c.tagOf (f i)) hk (hne k hk)
      obtain ⟨-,hnext⟩ := hagree.miss (hf k hk).1 (hf k hk).2 (by rw [hsets']; exact hmiss)
        (show chooseVictim .rrip c.numWays (sets' 0) id = .ok (k,sets' 0,id) by
          simp only [chooseVictim, hsets', hinv])
      refine ⟨_,_,?_,?_,hnext⟩
      · rw [Function.update_self, hsets']
        exact replaceBlock_filledBlocks
      · rw [Function.update_self, hlines']
        exact congrArg Prod.snd (access_filledLines hk (hne k hk))
  obtain ⟨sets',cache',hsets',hlines',hagree⟩ := hfill c.numWays le_rfl
  rw [Nat.sub_self, List.range'_zero, List.map_nil, List.nil_append] at hagree
  exact ⟨sets',cache',hsets',hlines',hagree⟩

/-- With two ways or more some trace tells the two caches apart. -/
theorem not_answersAsSrrip {capacity : Word} {numWays blockSize : BitVec 8}
    (h : allocCache .rrip capacity numWays blockSize = some c) (hs : 0 < c.numSets)
    (hways : 2 ≤ c.numWays) : ¬ AnswersAsSrrip c := by
  intro hall
  obtain ⟨f,hf⟩ := exists_addresses h hs
  obtain ⟨m,hm⟩ := Nat.exists_eq_add_of_le' hways
  set tag : ℕ → Word := fun i => c.tagOf (f i) with htag
  have hne : ∀ k ≤ c.numWays, ∀ i < k, tag i ≠ tag k := fun k hk i hi heq =>
    absurd ((hf i (by omega)).2.2 k hk heq) (by omega)
  have hsets0 : c.sets 0 = filledBlocks c.numWays tag 0 := by
    rw [Cache.alloc_sets h hs, filledBlocks]
    rfl
  have hlines0 : SrripCache.empty c.numWays 0 = filledLines c.numWays tag 0 := by
    simp [SrripCache.empty, filledLines]
  -- the trace: one block for every way, the first again, a new one, the first again
  have htrace : Agree c c.sets (SrripCache.empty c.numWays) id
      ((List.range' 0 c.numWays).map f ++ [f 0,f c.numWays,f 0]) := by
    refine hall id _ fun a ha => ?_
    have hmem : ∃ i ≤ c.numWays, a = f i := by
      rcases List.mem_append.mp ha with ha | ha
      · obtain ⟨i,hi,rfl⟩ := List.mem_map.mp ha
        exact ⟨i,by simp [List.mem_range'] at hi; omega,rfl⟩
      · simp only [List.mem_cons, List.not_mem_nil, or_false] at ha
        rcases ha with rfl | rfl | rfl
        · exact ⟨0,Nat.zero_le _,rfl⟩
        · exact ⟨_,le_rfl,rfl⟩
        · exact ⟨0,Nat.zero_le _,rfl⟩
    obtain ⟨i,hi,rfl⟩ := hmem
    exact (hf i hi).1
  obtain ⟨sets,cache,hsets,hlines,hagree⟩ := htrace.filled
    (fun k hk => ⟨(hf k hk.le).1,(hf k hk.le).2.1⟩) (fun k hk => hne k hk.le) hsets0 hlines0
  have hblocks : sets 0 = { tag := tag 0, valid := true } ::
      (List.range (m + 1)).map fun i => { tag := tag (i + 1), valid := true } := by
    rw [hsets, hm]
    exact filledBlocks_full (m + 1) tag
  have hhit := hagree.hit (hf 0 (by omega)).1 (hf 0 (by omega)).2.1 (w := 0)
    (by rw [hblocks]; simp [hitWay, List.findIdx?_cons, htag])
  have hsame : updateRrip (sets 0) 0 = sets 0 := by
    rw [hblocks]
    rfl
  rw [hsame, Function.update_eq_self] at hhit
  have hnew : hitWay (sets 0) (tag c.numWays) = none := by
    rw [hsets]
    exact hitWay_filledBlocks_full (hne c.numWays le_rfl)
  have hvictim : chooseVictim .rrip c.numWays (sets 0) id =
      .ok (0,(sets 0).map fun x => { x with rrpv := distantRrpv },id) := by
    rw [hsets, hm]
    exact chooseVictim_filledBlocks_full (m + 1) tag id
  obtain ⟨-,hlast⟩ := hhit.miss (hf _ le_rfl).1 (hf _ le_rfl).2.1 hnew hvictim
  obtain ⟨stall,c',r,hacc,hanswer,-⟩ := hlast.head
  have hset0 := (hf 0 (by omega)).2.1
  have hpromoted : ((cache 0).access (tag 0)).2 =
      some ⟨tag 0,immediateRrpv⟩ :: some ⟨tag 1,longRrpv⟩ ::
        (List.range m).map fun i => some ⟨tag (i + 2),longRrpv⟩ := by
    rw [hlines, hm]
    exact access_filledLines_full m tag
  rw [hset0, Function.update_self, Function.update_self,
    access_keeps_hit m (fun i hi => hne c.numWays le_rfl i (by omega)) _ hpromoted,
    beq_iff_eq] at hanswer
  subst hanswer
  refine hit_of_cacheAccess hacc ?_
  have hset' : Cache.setOf { c with sets := Function.update sets 0 (replaceBlock .rrip
      (c.tagOf (f c.numWays)) ((sets 0).map fun x => { x with rrpv := distantRrpv }) 0) }
      (f 0) = 0 := hset0
  rw [hset']
  dsimp only
  have hother : tag (m + 2) ≠ tag 0 := hm ▸ (hne c.numWays le_rfl 0 (by omega)).symm
  rw [Function.update_self, hsets, hm]
  exact hitWay_replaceBlock_first (m + 1) hother
    fun i hi => (hne (i + 1) (by omega) 0 (by omega)).symm

/-- The RRIP build answers every trace as static RRIP does exactly if its sets have one way. -/
theorem rrip_answersAsSrrip_iff {capacity : Word} {numWays blockSize : BitVec 8}
    (h : allocCache .rrip capacity numWays blockSize = some c) (hs : 0 < c.numSets) :
    AnswersAsSrrip c ↔ c.numWays = 1 := by
  have hshape := Cache.alloc_shaped h hs
  refine ⟨fun hall => ?_,fun hone rand addresses ha => answers_single rand ha fun a => ?_⟩
  · by_contra hne
    have hpos := hshape.ways_pos
    exact not_answersAsSrrip h hs (by omega) hall
  · rw [Cache.alloc_sets h (hshape.setOf_lt a), hone]
    exact ⟨freshBlock .rrip 0,none,rfl,rfl,by decide,fun x hx => (by cases hx),rfl⟩

/-- One set with one way of 32 bytes. -/
theorem oneBlock_answersAsSrrip : AnswersAsSrrip (initialCache .rrip 32 1) :=
  (rrip_answersAsSrrip_iff (show allocCache .rrip 32 1 blockSize =
    some (initialCache .rrip 32 1) from rfl) (by decide)).mpr (by decide)

/-- The instruction cache of the repository evicts the block that was hit. -/
theorem icache_not_answersAsSrrip : ¬ AnswersAsSrrip (initialCache .rrip icacheSize icacheWays) :=
  fun hall => absurd (hall id [0x0,0x800,0x1000,0x1800,0x0,0x2000,0x0] (by simp [WordAligned]))
    (by decide +kernel)

end MoreWays

end CaLabs.Lab1
