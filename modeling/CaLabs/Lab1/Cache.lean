import CaLabs.Cache

/-! The cache of lab 1 with its three replacement policies. -/
namespace CaLabs.Lab1
open Mips

/-- The policy macro of cache.h; the build defines one of them. -/
inductive Policy where
  | rand | lru | rrip
  deriving DecidableEq, Repr

abbrev blockSize : BitVec 8 := 32
abbrev icacheSize : Word := 8 * 1024
abbrev icacheWays : BitVec 8 := 4
abbrev dcacheSize : Word := 64 * 1024
abbrev dcacheWays : BitVec 8 := 8
abbrev dramAccessCycles : ℕ := 50
abbrev immediateRrpv : ℕ := 0
abbrev longRrpv : ℕ := 2
abbrev distantRrpv : ℕ := 3

/-- How a simulation can end other than by its halting syscall. -/
inductive Abort where
  | unalignedAddress | endlessVictimSearch
  deriving DecidableEq, Repr

def freshBlock (policy : Policy) (b : ℕ) : Block :=
  match policy with
  | .rand => {}
  | .lru => { recency := b }
  | .rrip => { rrpv := longRrpv }

def allocCache (policy : Policy) (capacity : Word) (numWays blockSize : BitVec 8) :
    Option Cache :=
  Cache.alloc (freshBlock policy) capacity numWays blockSize

/-- The geometry that pipe_init asks for. -/
def initialCache (policy : Policy) (capacity : Word) (numWays : BitVec 8) : Cache :=
  (allocCache policy capacity numWays blockSize).getD ⟨0,0,0,0,0,fun _ => []⟩

def updateRrip (blocks : List Block) (block : ℕ) : List Block :=
  blocks.modify block fun b => { b with rrpv := immediateRrpv }

/-- The update of a set when one of its blocks is used. -/
def touch (policy : Policy) (blocks : List Block) (block : ℕ) : List Block :=
  match policy with
  | .rand => blocks
  | .lru => updateLru blocks block
  | .rrip => updateRrip blocks block

def agedBlock (b : Block) : Block :=
  if b.valid && decide (b.rrpv < distantRrpv) then { b with rrpv := b.rrpv + 1 } else b

/-- The loop while (!found_victim) of the RRIP build, with a bound on its rounds. Four rounds
bring any valid counter up to 3 to the distant value: a search that fails goes on for ever. -/
def rripSearch : ℕ → List Block → Except Abort (ℕ × List Block)
  | 0,_ => .error .endlessVictimSearch
  | n+1,blocks =>
    match blocks.findIdx? fun b => b.rrpv == distantRrpv with
    | some victim => .ok (victim,blocks)
    | none => rripSearch n (blocks.map agedBlock)

/-- The first way whose recency is num_ways - 1, else way 0. -/
def lruVictim (numWays : ℕ) (blocks : List Block) : ℕ :=
  (blocks.findIdx? fun b => b.recency == numWays - 1).getD 0

/-- The victim, the set after the search for it, and the results of rand() still to come. -/
def chooseVictim (policy : Policy) (numWays : ℕ) (blocks : List Block) (rand : ℕ → ℕ) :
    Except Abort (ℕ × List Block × (ℕ → ℕ)) :=
  match invalidWay blocks with
  | some b => .ok (b,blocks,rand)
  | none =>
    match policy with
    | .rand => .ok (rand 0 % numWays,blocks,fun n => rand (n+1))
    | .lru => .ok (lruVictim numWays blocks,blocks,rand)
    | .rrip => do
      let (victim,blocks) ← rripSearch 4 blocks
      .ok (victim,blocks,rand)

def replaceBlock (policy : Policy) (tag : Word) (blocks : List Block) (victim : ℕ) :
    List Block :=
  let blocks := if policy = .rrip then
      blocks.modify victim fun b => { b with rrpv := longRrpv } else blocks
  touch policy (blocks.modify victim fun b => { b with tag := tag, valid := true }) victim

/-- The stall cycles with the new cache and the results of rand() still to come. -/
def cacheAccess (policy : Policy) (c : Cache) (rand : ℕ → ℕ) (address : Word) :
    Except Abort (ℕ × Cache × (ℕ → ℕ)) :=
  if WordAligned address then
    let tag := c.tagOf address
    let set := c.setOf address
    match hitWay (c.sets set) tag with
    | some b => .ok (0,c.setBlocks set (touch policy (c.sets set) b),rand)
    | none => do
      let (victim,blocks,rand) ← chooseVictim policy c.numWays (c.sets set) rand
      .ok (dramAccessCycles,c.setBlocks set (replaceBlock policy tag blocks victim),rand)
  else .error .unalignedAddress

/-- The blocks of a set of the RRIP build between two accesses. -/
def RrpvBounded (blocks : List Block) : Prop := ∀ b ∈ blocks, b.rrpv ≤ distantRrpv

/-- What alloc_cache establishes and cache_access keeps. -/
structure WellFormed (c : Cache) : Prop where
  shaped : c.Shaped
  bounded : ∀ s < c.numSets, RrpvBounded (c.sets s)

theorem allocCache_wellFormed {policy : Policy} {capacity : Word} {numWays blockSize : BitVec 8}
    {c : Cache} (h : allocCache policy capacity numWays blockSize = some c)
    (hs : 0 < c.numSets) : WellFormed c where
  shaped := Cache.alloc_shaped h hs
  bounded s hlt b hb := by
    rw [Cache.alloc_sets h hlt] at hb
    obtain ⟨w,-,rfl⟩ := List.mem_map.mp hb
    cases policy <;> simp only [freshBlock] <;> decide

lemma RrpvBounded.modify {blocks : List Block} (h : RrpvBounded blocks) {f : Block → Block}
    (hf : ∀ b, b.rrpv ≤ distantRrpv → (f b).rrpv ≤ distantRrpv) (i : ℕ) :
    RrpvBounded (blocks.modify i f) := by
  intro b hb
  obtain ⟨j,hj,rfl⟩ := List.getElem_of_mem hb
  have hj' : j < blocks.length := by simpa using hj
  rw [List.getElem_modify]
  have hmem := h blocks[j] (List.getElem_mem hj')
  split_ifs
  · exact hf _ hmem
  · exact hmem

lemma RrpvBounded.map {blocks : List Block} (h : RrpvBounded blocks) {f : Block → Block}
    (hf : ∀ b, b.rrpv ≤ distantRrpv → (f b).rrpv ≤ distantRrpv) :
    RrpvBounded (blocks.map f) := by
  intro b hb
  obtain ⟨b',hb',rfl⟩ := List.mem_map.mp hb
  exact hf b' (h b' hb')

lemma agedBlock_rrpv (b : Block) (h : b.rrpv ≤ distantRrpv) :
    (agedBlock b).rrpv ≤ distantRrpv := by
  unfold agedBlock
  split_ifs with hb
  · simp only [Bool.and_eq_true, decide_eq_true_eq] at hb
    exact hb.2
  · exact h

lemma RrpvBounded.touch {blocks : List Block} (h : RrpvBounded blocks) (policy : Policy)
    (i : ℕ) : RrpvBounded (touch policy blocks i) := by
  cases policy with
  | rand => exact h
  | lru =>
    refine RrpvBounded.modify (RrpvBounded.map h fun b hb => ?_)
      (f := fun b => { b with recency := 0 }) (fun b hb => hb) i
    split_ifs <;> exact hb
  | rrip => exact h.modify (fun b _ => Nat.zero_le _) i

lemma length_touch (policy : Policy) (blocks : List Block) (i : ℕ) :
    (touch policy blocks i).length = blocks.length := by
  cases policy <;> simp [touch, length_updateLru, updateRrip]

lemma length_replaceBlock (policy : Policy) (tag : Word) (blocks : List Block) (victim : ℕ) :
    (replaceBlock policy tag blocks victim).length = blocks.length := by
  simp only [replaceBlock, length_touch, List.length_modify]
  split_ifs <;> simp

lemma RrpvBounded.replaceBlock {blocks : List Block} (h : RrpvBounded blocks) (policy : Policy)
    (tag : Word) (victim : ℕ) : RrpvBounded (replaceBlock policy tag blocks victim) := by
  refine RrpvBounded.touch (RrpvBounded.modify ?_
    (f := fun b => { b with tag := tag, valid := true }) (fun b hb => hb) victim) policy victim
  split_ifs
  · exact h.modify (fun b _ => (by decide : longRrpv ≤ distantRrpv)) victim
  · exact h

/-- Each round of the search brings the first block one step nearer to the distant value. -/
lemma rripSearch_finds (n : ℕ) {b : Block} {rest : List Block}
    (hv : ∀ x ∈ b :: rest, x.valid = true) (hb : RrpvBounded (b :: rest))
    (hn : distantRrpv < b.rrpv + n) :
    ∃ victim blocks', rripSearch n (b :: rest) = .ok (victim,blocks') ∧
      RrpvBounded blocks' ∧ blocks'.length = (b :: rest).length := by
  induction n generalizing b rest with
  | zero =>
    have hle := hb b List.mem_cons_self
    omega
  | succ n ih =>
    rw [rripSearch]
    cases hf : (b :: rest).findIdx? fun b => b.rrpv == distantRrpv with
    | some victim => exact ⟨victim,_,rfl,hb,rfl⟩
    | none =>
      have hne : b.rrpv ≠ distantRrpv := by
        have h := List.findIdx?_eq_none_iff.mp hf b List.mem_cons_self
        simpa using h
      have hle : b.rrpv ≤ distantRrpv := hb b List.mem_cons_self
      have hlt : b.rrpv < distantRrpv := lt_of_le_of_ne hle hne
      have haged : (agedBlock b).rrpv = b.rrpv + 1 := by
        simp only [agedBlock, hv b List.mem_cons_self, hlt, decide_true, Bool.and_self, if_true]
      have hvalid : ∀ x ∈ (b :: rest).map agedBlock, x.valid = true := by
        intro x hx
        obtain ⟨y,hy,rfl⟩ := List.mem_map.mp hx
        have hyv := hv y hy
        unfold agedBlock
        split_ifs <;> exact hyv
      obtain ⟨victim,blocks',hs,hb',hl⟩ :=
        ih (b := agedBlock b) hvalid (hb.map agedBlock_rrpv) (by omega)
      exact ⟨victim,blocks',hs,hb',by simpa using hl⟩

/-- The search for a victim ends. -/
lemma chooseVictim_total (policy : Policy) (rand : ℕ → ℕ) {blocks : List Block}
    (hl : 0 < blocks.length) (hb : RrpvBounded blocks) :
    ∃ victim blocks' rand', chooseVictim policy blocks.length blocks rand =
        .ok (victim,blocks',rand') ∧ RrpvBounded blocks' ∧ blocks'.length = blocks.length := by
  unfold chooseVictim
  cases hi : invalidWay blocks with
  | some b => exact ⟨b,blocks,rand,rfl,hb,rfl⟩
  | none =>
    cases policy with
    | rand => exact ⟨_,_,_,rfl,hb,rfl⟩
    | lru => exact ⟨_,_,_,rfl,hb,rfl⟩
    | rrip =>
      obtain ⟨b,rest,rfl⟩ := List.exists_cons_of_length_pos hl
      have hv : ∀ x ∈ b :: rest, x.valid = true := by
        intro x hx
        simpa using List.findIdx?_eq_none_iff.mp hi x hx
      have hfour : distantRrpv < b.rrpv + 4 := Nat.lt_of_lt_of_le (by decide) (Nat.le_add_left 4 _)
      obtain ⟨victim,blocks',hs,hb',hl'⟩ := rripSearch_finds 4 hv hb hfour
      exact ⟨victim,blocks',rand,by simp only [hs]; rfl,hb',hl'⟩

lemma WellFormed.setBlocks {c : Cache} (h : WellFormed c) (set : ℕ) {blocks : List Block}
    (hl : blocks.length = c.numWays) (hb : RrpvBounded blocks) :
    WellFormed (c.setBlocks set blocks) where
  shaped := h.shaped.setBlocks set hl
  bounded s hs := by
    by_cases he : s = set
    · subst he
      simpa [Cache.setBlocks] using hb
    · simpa [Cache.setBlocks, Function.update_of_ne he] using h.bounded s hs

/-- What an access that is answered can do. -/
inductive Answer (policy : Policy) (c : Cache) (rand : ℕ → ℕ) (address : Word) :
    ℕ → Cache → (ℕ → ℕ) → Prop
  | hit {b} (hhit : hitWay (c.sets (c.setOf address)) (c.tagOf address) = some b) :
      Answer policy c rand address 0
        (c.setBlocks (c.setOf address) (touch policy (c.sets (c.setOf address)) b)) rand
  | miss {victim blocks rand'}
      (hmiss : hitWay (c.sets (c.setOf address)) (c.tagOf address) = none)
      (hv : chooseVictim policy c.numWays (c.sets (c.setOf address)) rand =
        .ok (victim,blocks,rand')) :
      Answer policy c rand address dramAccessCycles (c.setBlocks (c.setOf address)
        (replaceBlock policy (c.tagOf address) blocks victim)) rand'

lemma cacheAccess_cases {policy : Policy} {c c' : Cache} {rand rand' : ℕ → ℕ} {address : Word}
    {stall : ℕ} (h : cacheAccess policy c rand address = .ok (stall,c',rand')) :
    WordAligned address ∧ Answer policy c rand address stall c' rand' := by
  unfold cacheAccess at h
  split_ifs at h with ha
  refine ⟨ha,?_⟩
  cases hhit : hitWay (c.sets (c.setOf address)) (c.tagOf address) with
  | some b =>
    simp only [hhit, Except.ok.injEq, Prod.mk.injEq] at h
    obtain ⟨rfl,rfl,rfl⟩ := h
    exact .hit hhit
  | none =>
    cases hv : chooseVictim policy c.numWays (c.sets (c.setOf address)) rand with
    | error e => simp [hhit, hv, bind, Except.bind] at h
    | ok r =>
      obtain ⟨victim,blocks,rand₁⟩ := r
      simp only [hhit, hv, bind, Except.bind, Except.ok.injEq, Prod.mk.injEq] at h
      obtain ⟨rfl,rfl,rfl⟩ := h
      exact .miss hhit hv

/-- An access to an aligned address is answered. -/
theorem cacheAccess_total (policy : Policy) {c : Cache} (h : WellFormed c) (rand : ℕ → ℕ)
    {address : Word} (ha : WordAligned address) :
    ∃ stall c' rand', cacheAccess policy c rand address = .ok (stall,c',rand') ∧
      WellFormed c' := by
  have hl := h.shaped.length_setOf address
  have hb := h.bounded _ (h.shaped.setOf_lt address)
  simp only [cacheAccess, if_pos ha]
  cases hitWay (c.sets (c.setOf address)) (c.tagOf address) with
  | some b =>
    exact ⟨_,_,_,rfl,h.setBlocks _ ((length_touch _ _ _).trans hl) (hb.touch policy b)⟩
  | none =>
    obtain ⟨victim,blocks,rand',hv,hb',hl'⟩ :=
      chooseVictim_total policy rand (hl ▸ h.shaped.ways_pos) hb
    rw [hl] at hv
    refine ⟨_,_,_,by simp only [hv]; rfl,h.setBlocks _ ?_ (hb'.replaceBlock policy _ victim)⟩
    rw [length_replaceBlock, hl', hl]

end CaLabs.Lab1
