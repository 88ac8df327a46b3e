import CaLabs.Lab1.Lru

/-! The victim search of the RRIP build as the loop of the source, which has no bound on its
rounds: it ends in every state that a run of accesses reaches. -/
namespace CaLabs.Lab1
open Mips

/-- The inner loop over the ways that sets found_victim. -/
def findDistant (blocks : List Block) : Option ℕ :=
  blocks.findIdx? fun b => b.rrpv == distantRrpv

/-- while (!found_victim) ends after so many ageing rounds, with the victim and the set that
it leaves. -/
inductive VictimLoop : List Block → ℕ → ℕ → List Block → Prop
  | found {blocks victim} (h : findDistant blocks = some victim) :
      VictimLoop blocks 0 victim blocks
  | round {blocks rounds victim blocks'} (h : findDistant blocks = none)
      (hrest : VictimLoop (blocks.map agedBlock) rounds victim blocks') :
      VictimLoop blocks (rounds+1) victim blocks'

def AllValid (blocks : List Block) : Prop := ∀ b ∈ blocks, b.valid = true

/-- The victim is a valid way with the distant prediction. -/
structure DistantVictim (blocks : List Block) (victim : ℕ) : Prop where
  valid : validAt blocks victim = true
  distant : (blocks.getD victim {}).rrpv = distantRrpv

section Ageing
variable {blocks : List Block}

lemma AllValid.aged (h : AllValid blocks) : AllValid (blocks.map agedBlock) := by
  intro b hb
  obtain ⟨b',hb',rfl⟩ := List.mem_map.mp hb
  have hv := h b' hb'
  unfold agedBlock
  split_ifs <;> exact hv

/-- Ageing makes progress on a valid block below the distant prediction. -/
lemma agedBlock_lt {b : Block} (hv : b.valid = true) (hb : b.rrpv < distantRrpv) :
    (agedBlock b).rrpv = b.rrpv + 1 := by
  simp only [agedBlock, hv, hb, decide_true, Bool.and_self, if_true]

lemma findDistant_some {victim : ℕ} (h : findDistant blocks = some victim) (hv : AllValid blocks) :
    DistantVictim blocks victim := by
  obtain ⟨hlt,hp,-⟩ := List.findIdx?_eq_some_iff_getElem.mp h
  refine ⟨?_,?_⟩
  · rw [validAt, getD_of_lt hlt]
    exact hv _ (List.getElem_mem hlt)
  · rw [getD_of_lt hlt]
    simpa using hp

lemma findDistant_none (h : findDistant blocks = none) {b : Block} (hb : b ∈ blocks) :
    b.rrpv ≠ distantRrpv := by
  simpa using List.findIdx?_eq_none_iff.mp h b hb

lemma allValid_of_full (h : invalidWay blocks = none) : AllValid blocks := by
  intro b hb
  simpa using List.findIdx?_eq_none_iff.mp h b hb

end Ageing

namespace VictimLoop
variable {blocks blocks' : List Block} {rounds victim : ℕ}

/-- What the loop leaves of a full set. -/
lemma result (h : VictimLoop blocks rounds victim blocks') (hv : AllValid blocks) :
    DistantVictim blocks' victim := by
  induction h with
  | found hf => exact findDistant_some hf hv
  | round _ _ ih => exact ih hv.aged

lemma length_eq (h : VictimLoop blocks rounds victim blocks') :
    blocks'.length = blocks.length := by
  induction h with
  | found _ => rfl
  | round _ _ ih => rwa [List.length_map] at ih

/-- A bound above the rounds does not change the search. -/
lemma rripSearch_eq (h : VictimLoop blocks rounds victim blocks') {n : ℕ} (hn : rounds < n) :
    rripSearch n blocks = .ok (victim,blocks') := by
  induction h generalizing n with
  | found hf =>
    obtain ⟨m,rfl⟩ := Nat.exists_eq_add_of_lt hn
    rw [findDistant] at hf
    rw [rripSearch, hf]
  | round hno _ ih =>
    obtain ⟨m,rfl⟩ := Nat.exists_eq_succ_of_ne_zero (by omega : n ≠ 0)
    rw [findDistant] at hno
    rw [rripSearch, hno]
    exact ih (by omega)

/-- The loop has at most one outcome. -/
theorem unique {rounds' victim' : ℕ} {blocks'' : List Block}
    (h : VictimLoop blocks rounds victim blocks')
    (h' : VictimLoop blocks rounds' victim' blocks'') :
    rounds = rounds' ∧ victim = victim' ∧ blocks' = blocks'' := by
  induction h generalizing rounds' with
  | found hf =>
    cases h' with
    | found hf' => exact ⟨rfl,Option.some.inj (hf.symm.trans hf'),rfl⟩
    | round hno => exact absurd (hf.symm.trans hno) (Option.some_ne_none _)
  | round hno _ ih =>
    cases h' with
    | found hf => exact absurd (hf.symm.trans hno) (Option.some_ne_none _)
    | round _ hrest =>
      obtain ⟨rfl,rfl,rfl⟩ := ih hrest
      exact ⟨rfl,rfl,rfl⟩

/-- The distance of one valid block bounds the rounds: each brings it one nearer. -/
theorem exists_le {b : Block} {n : ℕ} (hv : AllValid blocks) (hr : RrpvBounded blocks)
    (hb : b ∈ blocks) (hn : distantRrpv ≤ b.rrpv + n) :
    ∃ rounds ≤ n, ∃ victim blocks', VictimLoop blocks rounds victim blocks' := by
  induction n generalizing blocks b with
  | zero =>
    have he : b.rrpv = distantRrpv := le_antisymm (hr b hb) hn
    cases hf : findDistant blocks with
    | some victim => exact ⟨0,le_rfl,victim,blocks,.found hf⟩
    | none => exact absurd he (findDistant_none hf hb)
  | succ n ih =>
    cases hf : findDistant blocks with
    | some victim => exact ⟨0,Nat.zero_le _,victim,blocks,.found hf⟩
    | none =>
      have hlt : b.rrpv < distantRrpv := lt_of_le_of_ne (hr b hb) (findDistant_none hf hb)
      have haged := agedBlock_lt (hv b hb) hlt
      obtain ⟨rounds,hle,victim,blocks',hloop⟩ := ih hv.aged (hr.map agedBlock_rrpv)
        (List.mem_map_of_mem hb) (by omega)
      exact ⟨rounds+1,Nat.succ_le_succ hle,victim,blocks',.round hf hloop⟩

end VictimLoop

/-! The bound on the predictions over a run of accesses. -/

section Runs
variable {policy : Policy} {c d : Cache} {rand rand' : ℕ → ℕ}

lemma Answer.geometry {address : Word} {stall : ℕ}
    (h : Answer policy c rand address stall d rand') :
    d.numSets = c.numSets ∧ d.numWays = c.numWays := by
  cases h <;> exact ⟨rfl,rfl⟩

/-- A run of accesses by its first one. -/
lemma answers_cons {address : Word} {rest : List Word} {hits : List Bool}
    (h : answers policy c rand (address :: rest) = .ok (hits,d,rand')) :
    ∃ stall c₁ rand₁ hits₁, cacheAccess policy c rand address = .ok (stall,c₁,rand₁) ∧
      answers policy c₁ rand₁ rest = .ok (hits₁,d,rand') ∧ hits = (stall == 0) :: hits₁ := by
  unfold answers at h
  cases hacc : cacheAccess policy c rand address with
  | error e => simp [hacc, bind, Except.bind] at h
  | ok r =>
    obtain ⟨stall,c₁,rand₁⟩ := r
    simp only [hacc, bind, Except.bind] at h
    cases hans : answers policy c₁ rand₁ rest with
    | error e => simp [hans] at h
    | ok r =>
      obtain ⟨hits₁,d₁,rand₂⟩ := r
      simp only [hans, Except.ok.injEq, Prod.mk.injEq] at h
      obtain ⟨rfl,rfl,rfl⟩ := h
      exact ⟨stall,c₁,rand₁,hits₁,rfl,hans,rfl⟩

lemma answers_geometry {addresses : List Word} {hits : List Bool}
    (h : answers policy c rand addresses = .ok (hits,d,rand')) :
    d.numSets = c.numSets ∧ d.numWays = c.numWays := by
  induction addresses generalizing c rand hits with
  | nil =>
    obtain ⟨-,rfl,-⟩ := Prod.mk.inj (Except.ok.inj h)
    exact ⟨rfl,rfl⟩
  | cons a rest ih =>
    obtain ⟨stall,c₁,rand₁,hits₁,hacc,hans,-⟩ := answers_cons h
    obtain ⟨hsets,hways⟩ := (cacheAccess_cases hacc).2.geometry
    exact ⟨(ih hans).1.trans hsets,(ih hans).2.trans hways⟩

theorem answers_wellFormed (hc : WellFormed c) {addresses : List Word} {hits : List Bool}
    (h : answers policy c rand addresses = .ok (hits,d,rand')) : WellFormed d := by
  induction addresses generalizing c rand hits with
  | nil =>
    obtain ⟨-,rfl,-⟩ := Prod.mk.inj (Except.ok.inj h)
    exact hc
  | cons a rest ih =>
    obtain ⟨stall,c₁,rand₁,hits₁,hacc,hans,-⟩ := answers_cons h
    obtain ⟨stall',c₁',rand₁',hacc',hwf⟩ :=
      cacheAccess_total policy hc rand (cacheAccess_cases hacc).1
    obtain ⟨-,rfl,-⟩ := Prod.mk.inj (Except.ok.inj (hacc.symm.trans hacc'))
    exact ih hwf hans

end Runs

/-- After every run of accesses of the RRIP build no prediction is above 3, and the loop that
looks for the victim of a full set ends after at most three ageing rounds, with the valid way
whose prediction is 3 that a miss in the set then replaces. -/
theorem rrip_search_terminates {capacity : Word} {numWays blockSize : BitVec 8} {c d : Cache}
    (h : allocCache .rrip capacity numWays blockSize = some c) {rand rand' : ℕ → ℕ}
    {addresses : List Word} {hits : List Bool}
    (hrun : answers .rrip c rand addresses = .ok (hits,d,rand')) {s : ℕ} (hs : s < d.numSets) :
    (∀ b ∈ d.sets s, b.rrpv ≤ 3) ∧
    (invalidWay (d.sets s) = none → ∃ rounds ≤ 3, ∃ victim blocks,
      VictimLoop (d.sets s) rounds victim blocks ∧ victim < d.numWays ∧
      DistantVictim blocks victim ∧
      ∀ address, WordAligned address → d.setOf address = s →
        hitWay (d.sets s) (d.tagOf address) = none →
        cacheAccess .rrip d rand' address = .ok (dramAccessCycles,
          d.setBlocks s (replaceBlock .rrip (d.tagOf address) blocks victim),rand')) := by
  have hpos : 0 < c.numSets := (answers_geometry hrun).1 ▸ Nat.zero_lt_of_lt hs
  have hd := answers_wellFormed (allocCache_wellFormed h hpos) hrun
  refine ⟨hd.bounded s hs,fun hfull => ?_⟩
  have hvalid := allValid_of_full hfull
  have hlen := hd.shaped.length s hs
  have hways : 0 < (d.sets s).length := hlen ▸ hd.shaped.ways_pos
  obtain ⟨rounds,hle,victim,blocks,hloop⟩ := VictimLoop.exists_le (n := 3) hvalid
    (hd.bounded s hs) (List.getElem_mem hways) (Nat.le_add_left _ _)
  have hresult := hloop.result hvalid
  refine ⟨rounds,hle,victim,blocks,hloop,?_,hresult,fun address ha hset hmiss => ?_⟩
  · rw [← hlen, ← hloop.length_eq]
    exact lt_length_of_validAt hresult.valid
  · subst hset
    have hsearch := hloop.rripSearch_eq (n := 4) (by omega)
    simp only [cacheAccess, if_pos ha, hmiss, chooseVictim, hfull, hsearch]
    rfl

/-- A set of the instruction cache of the repository that four blocks have filled. -/
theorem icache_rrip_search_terminates : ∃ hits d rand',
    answers .rrip (initialCache .rrip icacheSize icacheWays) id [0x0,0x800,0x1000,0x1800] =
      .ok (hits,d,rand') ∧
    ∃ rounds ≤ 3, ∃ victim blocks, VictimLoop (d.sets 0) rounds victim blocks ∧
      DistantVictim blocks victim := by
  have hfull : (match answers .rrip (initialCache .rrip icacheSize icacheWays) id
      [0x0,0x800,0x1000,0x1800] with
    | .ok (_,d,_) => decide (0 < d.numSets) && decide (invalidWay (d.sets 0) = none)
    | .error _ => false) = true := by decide +kernel
  cases hrun : answers .rrip (initialCache .rrip icacheSize icacheWays) id
      [0x0,0x800,0x1000,0x1800] with
  | error e =>
    rw [hrun] at hfull
    cases hfull
  | ok r =>
    obtain ⟨hits,d,rand'⟩ := r
    rw [hrun] at hfull
    simp only [Bool.and_eq_true, decide_eq_true_eq] at hfull
    have hc : allocCache .rrip icacheSize icacheWays blockSize =
        some (initialCache .rrip icacheSize icacheWays) := rfl
    obtain ⟨-,hsearch⟩ := rrip_search_terminates hc hrun hfull.1
    obtain ⟨rounds,hle,victim,blocks,hloop,-,hvictim,-⟩ := hsearch hfull.2
    exact ⟨hits,d,rand',rfl,rounds,hle,victim,blocks,hloop,hvictim⟩

end CaLabs.Lab1
