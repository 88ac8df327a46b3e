import CaLabs.Lab1.RripSearch

/-! The DRRIP policy of the cache simulator ages a set in one step; the cache of lab 1 ages it round
by round. Both choose the same victim and leave the same predictions. -/
namespace CaLabs.Lab4
open Lab1

def maxRRPV : ℕ := 3

/-- std::max_element: the first of the greatest elements. -/
def maxElement (values : List ℕ) : ℕ := values.findIdx fun x => values.all fun y => decide (y ≤ x)

/-- The victim and the predictions that the search leaves. -/
def oneShotVictim (values : List ℕ) : ℕ × List ℕ :=
  let victim := maxElement values
  let diff := maxRRPV - values.getD victim 0
  (victim,values.map (· + diff))

/-! The sets duel. -/

inductive SetType
  | follower | brripLeader | srripLeader
  deriving DecidableEq, Repr

/-- PSEL is a saturating counter of ten bits for each CPU. -/
structure Drrip where
  rrpv : ℕ → List ℕ
  psel : ℕ → ℕ
  brripCounter : BitVec 32

namespace Drrip

def brripMax : BitVec 32 := 32

def pselMax : ℕ := 2^10 - 1

/-- brrip_counter is not initialized. -/
def init (numWay : ℕ) (brripCounter : BitVec 32) : Drrip where
  rrpv _ := List.replicate numWay 0
  psel _ := 2^9
  brripCounter := brripCounter

def setRrpv (s : Drrip) (set way value : ℕ) : Option Drrip :=
  if way < (s.rrpv set).length then
    some { s with rrpv := Function.update s.rrpv set ((s.rrpv set).set way value) }
  else none

def updateBrrip (s : Drrip) (set way : ℕ) : Option Drrip :=
  let counter := s.brripCounter + 1
  if counter = brripMax then { s with brripCounter := 0 }.setRrpv set way (maxRRPV - 1)
  else { s with brripCounter := counter }.setRrpv set way maxRRPV

def updateSrrip (s : Drrip) (set way : ℕ) : Option Drrip := s.setRrpv set way (maxRRPV - 1)

def updateReplacementState (s : Drrip) (set way : ℕ) (write hit : Bool) : Option Drrip :=
  if hit then s.setRrpv set way (if write then maxRRPV - 1 else 0) else some s

def replacementCacheFill (s : Drrip) (setType : ℕ → SetType) (cpu set way : ℕ) (write : Bool) :
    Option Drrip :=
  if write then s.setRrpv set way (maxRRPV - 1)
  else
    match setType set with
    | .follower =>
      if s.psel cpu > pselMax / 2 then s.updateBrrip set way else s.updateSrrip set way
    | .brripLeader =>
      { s with psel := Function.update s.psel cpu (s.psel cpu - 1) }.updateBrrip set way
    | .srripLeader =>
      { s with psel := Function.update s.psel cpu (min (s.psel cpu + 1) pselMax) }.updateSrrip
        set way

/-- The predictions are only written when they change. -/
def findVictim (s : Drrip) (set : ℕ) : ℕ × Drrip :=
  let victim := maxElement (s.rrpv set)
  let rrpvUpdate := maxRRPV - (s.rrpv set).getD victim 0
  if rrpvUpdate ≠ 0 then
    (victim,{ s with rrpv :=
      Function.update s.rrpv set ((s.rrpv set).map (· + rrpvUpdate)) })
  else (victim,s)

end Drrip

inductive DrripEvent
  | findVictim (set : ℕ)
  | updateReplacementState (set way : ℕ) (write hit : Bool)
  | replacementCacheFill (cpu set way : ℕ) (write : Bool)

def drripStep (setType : ℕ → SetType) (s : Drrip) : DrripEvent → Option Drrip
  | .findVictim set => some (s.findVictim set).2
  | .updateReplacementState set way write hit => s.updateReplacementState set way write hit
  | .replacementCacheFill cpu set way write => s.replacementCacheFill setType cpu set way write

section OneShot
variable {values : List ℕ} {blocks : List Block}

lemma maxElement_spec (h : values ≠ []) : maxElement values < values.length ∧
    (∀ x ∈ values, x ≤ values.getD (maxElement values) 0) ∧
    ∀ j < maxElement values, ∃ x ∈ values, values.getD j 0 < x := by
  have hexists : ∃ x ∈ values, values.all (fun y => decide (y ≤ x)) = true := by
    obtain ⟨m,hm⟩ : ∃ m, values.max? = some m := by
      cases hmax : values.max? with
      | none => exact absurd (List.max?_eq_none_iff.mp hmax) h
      | some m => exact ⟨m,rfl⟩
    obtain ⟨hmem,hle⟩ := List.max?_eq_some_iff.mp hm
    exact ⟨m,hmem,by simpa using hle⟩
  have hlt : maxElement values < values.length := List.findIdx_lt_length.mpr hexists
  refine ⟨hlt,fun x hx => ?_,fun j hj => ?_⟩
  · have hall := @List.findIdx_getElem _ (fun x => values.all fun y => decide (y ≤ x)) values hlt
    rw [List.getD_eq_getElem _ _ hlt]
    exact of_decide_eq_true (List.all_eq_true.mp hall x hx)
  · have hnot := List.not_of_lt_findIdx hj
    rw [List.getD_eq_getElem _ _ (hj.trans hlt)]
    simpa using hnot

/-- The first greatest element stays where it is when all grow. -/
lemma maxElement_map_succ (values : List ℕ) :
    maxElement (values.map (· + 1)) = maxElement values := by
  unfold maxElement
  rw [List.findIdx_map]
  congr 1
  funext x
  rw [Function.comp_apply, List.all_map]
  congr 1
  funext y
  simp

lemma oneShotVictim_map_succ {values : List ℕ} (h : values ≠ [])
    (hlt : values.getD (maxElement values) 0 < maxRRPV) :
    oneShotVictim (values.map (· + 1)) = oneShotVictim values := by
  obtain ⟨hindex,-,-⟩ := maxElement_spec h
  have hget : (values.map (· + 1)).getD (maxElement values) 0 =
      values.getD (maxElement values) 0 + 1 := by
    rw [List.getD_eq_getElem _ _ (by rwa [List.length_map]), List.getD_eq_getElem _ _ hindex,
      List.getElem_map]
  rw [oneShotVictim, oneShotVictim, maxElement_map_succ, hget, List.map_map]
  refine Prod.ext rfl (List.map_congr_left fun x _ => ?_)
  dsimp only [Function.comp_apply]
  omega

/-- Searching round by round ends with what one step computes. -/
lemma victimLoop_oneShot (hne : blocks ≠ []) (hv : AllValid blocks) (hr : RrpvBounded blocks) :
    ∃ rounds blocks', VictimLoop blocks rounds (oneShotVictim (blocks.map (·.rrpv))).1 blocks' ∧
      blocks'.map (·.rrpv) = (oneShotVictim (blocks.map (·.rrpv))).2 := by
  generalize hn : distantRrpv -
    (blocks.map (·.rrpv)).getD (maxElement (blocks.map (·.rrpv))) 0 = n
  induction n generalizing blocks with
  | zero =>
    have hvalues : blocks.map (·.rrpv) ≠ [] := fun h => hne (List.map_eq_nil_iff.mp h)
    obtain ⟨hlt,hmax,hfirst⟩ := maxElement_spec hvalues
    have hlt' : maxElement (blocks.map (·.rrpv)) < blocks.length := by
      rwa [List.length_map] at hlt
    rw [List.getD_eq_getElem _ _ hlt, List.getElem_map] at hn
    have hdistant := hr _ (List.getElem_mem hlt')
    have hthree : blocks[maxElement (blocks.map (·.rrpv))].rrpv = distantRrpv := by omega
    refine ⟨0,blocks,.found (List.findIdx?_eq_some_iff_getElem.mpr ⟨hlt',?_,fun j hj => ?_⟩),?_⟩
    · exact decide_eq_true hthree
    · obtain ⟨x,hx,hjx⟩ := hfirst j hj
      obtain ⟨b,hb,rfl⟩ := List.mem_map.mp hx
      rw [List.getD_eq_getElem _ _ (hj.trans hlt), List.getElem_map] at hjx
      have := hr b hb
      simp only [beq_iff_eq]
      omega
    · have hdiff : maxRRPV -
          (blocks.map (·.rrpv)).getD (maxElement (blocks.map (·.rrpv))) 0 = 0 := by
        rw [List.getD_eq_getElem _ _ hlt, List.getElem_map]
        exact hn
      rw [oneShotVictim, hdiff]
      simp
  | succ n ih =>
    have hvalues : blocks.map (·.rrpv) ≠ [] := fun h => hne (List.map_eq_nil_iff.mp h)
    obtain ⟨hlt,hmax,-⟩ := maxElement_spec hvalues
    have hbelow : ∀ b ∈ blocks, b.rrpv < distantRrpv := by
      intro b hb
      have := hmax b.rrpv (List.mem_map_of_mem hb)
      omega
    have haged : (blocks.map agedBlock).map (·.rrpv) = (blocks.map (·.rrpv)).map (· + 1) := by
      rw [List.map_map, List.map_map]
      exact List.map_congr_left fun b hb => agedBlock_lt (hv b hb) (hbelow b hb)
    have hthree : distantRrpv = maxRRPV := rfl
    have hone := oneShotVictim_map_succ hvalues (by omega)
    have hdistance : distantRrpv - ((blocks.map agedBlock).map (·.rrpv)).getD
        (maxElement ((blocks.map agedBlock).map (·.rrpv))) 0 = n := by
      rw [haged, maxElement_map_succ, List.getD_eq_getElem _ _ (by rwa [List.length_map]),
        List.getElem_map, ← List.getD_eq_getElem _ 0 hlt]
      omega
    obtain ⟨rounds,blocks',hloop,hrrpv⟩ := ih (fun h => hne (List.map_eq_nil_iff.mp h)) hv.aged
      (hr.map agedBlock_rrpv) hdistance
    rw [haged, hone] at hloop hrrpv
    refine ⟨rounds + 1,blocks',.round (List.findIdx?_eq_none_iff.mpr fun b hb => ?_) hloop,hrrpv⟩
    have := hbelow b hb
    simp only [beq_eq_false_iff_ne]
    omega

end OneShot

/-- The predictions of a set of so many ways. -/
def Predictions (ways : ℕ) (values : List ℕ) : Prop :=
  values.length = ways ∧ ∀ x ∈ values, x ≤ maxRRPV

namespace Predictions
variable {ways : ℕ} {values : List ℕ}

lemma set (h : Predictions ways values) (way : ℕ) {x : ℕ} (hx : x ≤ maxRRPV) :
    Predictions ways (values.set way x) := by
  refine ⟨List.length_set.trans h.1,fun y hy => ?_⟩
  rcases List.mem_or_eq_of_mem_set hy with hy | rfl
  · exact h.2 y hy
  · exact hx

lemma oneShot (h : Predictions ways values) : Predictions ways (oneShotVictim values).2 := by
  refine ⟨(List.length_map _).trans h.1,fun y hy => ?_⟩
  obtain ⟨x,hx,rfl⟩ := List.mem_map.mp hy
  have hne : values ≠ [] := List.ne_nil_of_mem hx
  have hle := (maxElement_spec hne).2.1 x hx
  have := h.2 x hx
  dsimp only [maxRRPV] at this ⊢
  omega

/-- The loop of lab 1 on valid blocks with these predictions. -/
lemma agrees (h : Predictions ways values) (hways : 0 < ways) {blocks : List Block}
    (hv : AllValid blocks) (hb : blocks.map (·.rrpv) = values) :
    (oneShotVictim values).1 < ways ∧ ∃ rounds blocks',
      VictimLoop blocks rounds (oneShotVictim values).1 blocks' ∧
        blocks'.map (·.rrpv) = (oneShotVictim values).2 := by
  have hne : values ≠ [] := List.ne_nil_of_length_pos (h.1.symm ▸ hways)
  refine ⟨h.1 ▸ (maxElement_spec hne).1,?_⟩
  subst hb
  refine victimLoop_oneShot (fun he => hne (by rw [he]; rfl)) hv fun b hmem => ?_
  exact h.2 b.rrpv (List.mem_map_of_mem hmem)

end Predictions

section Runs
variable {ways : ℕ} {setType : ℕ → SetType}

namespace Drrip
variable {s s' : Drrip}

def AllPredictions (ways : ℕ) (s : Drrip) : Prop := ∀ set, Predictions ways (s.rrpv set)

lemma AllPredictions.setRrpv (h : s.AllPredictions ways) {set way x : ℕ} (hx : x ≤ maxRRPV)
    (hs : s.setRrpv set way x = some s') : s'.AllPredictions ways := by
  unfold Drrip.setRrpv at hs
  split_ifs at hs
  rw [← Option.some.inj hs]
  intro set'
  change Predictions ways (Function.update s.rrpv set _ set')
  by_cases he : set' = set
  · rw [he, Function.update_self]
    exact (h set).set way hx
  · rw [Function.update_of_ne he]
    exact h set'

lemma AllPredictions.updateBrrip (h : s.AllPredictions ways) {set way : ℕ}
    (hs : s.updateBrrip set way = some s') : s'.AllPredictions ways := by
  unfold Drrip.updateBrrip at hs
  dsimp only at hs
  split_ifs at hs
  · have h' : { s with brripCounter := 0 }.AllPredictions ways := h
    exact h'.setRrpv (by decide) hs
  · have h' : { s with brripCounter := s.brripCounter + 1 }.AllPredictions ways := h
    exact h'.setRrpv (by decide) hs

/-- The vector is written as if the search were one step of the set. -/
lemma findVictim_eq (s : Drrip) (set : ℕ) : (s.findVictim set).1 = (oneShotVictim (s.rrpv set)).1 ∧
    (s.findVictim set).2.rrpv = Function.update s.rrpv set (oneShotVictim (s.rrpv set)).2 := by
  unfold Drrip.findVictim oneShotVictim
  dsimp only
  split_ifs with hzero
  · exact ⟨rfl,rfl⟩
  · refine ⟨rfl,?_⟩
    rw [not_not.mp hzero]
    simp

lemma step_predictions (h : s.AllPredictions ways) {e : DrripEvent}
    (hstep : drripStep setType s e = some s') : s'.AllPredictions ways := by
  cases e with
  | findVictim set =>
    rw [← Option.some.inj hstep]
    intro set'
    rw [(findVictim_eq s set).2]
    by_cases he : set' = set
    · rw [he, Function.update_self]
      exact (h set).oneShot
    · rw [Function.update_of_ne he]
      exact h set'
  | updateReplacementState set way write hit =>
    change s.updateReplacementState set way write hit = some s' at hstep
    unfold Drrip.updateReplacementState at hstep
    split_ifs at hstep
    · exact h.setRrpv (by decide) hstep
    · exact h.setRrpv (by decide) hstep
    · exact Option.some.inj hstep ▸ h
  | replacementCacheFill cpu set way write =>
    change s.replacementCacheFill setType cpu set way write = some s' at hstep
    unfold Drrip.replacementCacheFill at hstep
    by_cases hw : write = true
    · rw [if_pos hw] at hstep
      exact h.setRrpv (by decide) hstep
    · rw [if_neg hw] at hstep
      cases ht : setType set with
      | follower =>
        rw [ht] at hstep
        dsimp only at hstep
        split_ifs at hstep
        · exact h.updateBrrip hstep
        · exact h.setRrpv (by decide) hstep
      | brripLeader =>
        rw [ht] at hstep
        have h' : { s with
          psel := Function.update s.psel cpu (s.psel cpu - 1) }.AllPredictions ways := h
        exact h'.updateBrrip hstep
      | srripLeader =>
        rw [ht] at hstep
        have h' : { s with
          psel := Function.update s.psel cpu (min (s.psel cpu + 1) pselMax)
          }.AllPredictions ways := h
        exact h'.setRrpv (by decide) hstep

/-- After every run of accesses by any CPUs, whatever the sets that lead, the search of DRRIP and
the loop of lab 1 agree in every set, and the search leaves the other sets alone. -/
theorem victim_agrees (hways : 0 < ways) {counter : BitVec 32} {events : List DrripEvent}
    (hrun : events.foldlM (drripStep setType) (Drrip.init ways counter) = some s) (set : ℕ)
    {blocks : List Block} (hv : AllValid blocks) (hb : blocks.map (·.rrpv) = s.rrpv set) :
    (s.findVictim set).1 < ways ∧
      (∃ rounds blocks', VictimLoop blocks rounds (s.findVictim set).1 blocks' ∧
        blocks'.map (·.rrpv) = (s.findVictim set).2.rrpv set) ∧
      ∀ set' ≠ set, (s.findVictim set).2.rrpv set' = s.rrpv set' := by
  have hpredictions : s.AllPredictions ways := by
    clear hb
    induction events using List.reverseRecOn generalizing s with
    | nil =>
      rw [← Option.some.inj hrun]
      refine fun set => ⟨List.length_replicate,fun x hx => ?_⟩
      rw [List.eq_of_mem_replicate hx]
      exact Nat.zero_le _
    | append_singleton events e ih =>
      rw [List.foldlM_append] at hrun
      obtain ⟨s',hs',he⟩ := Option.bind_eq_some_iff.mp hrun
      have he' : drripStep setType s' e = some s := by simpa using he
      exact step_predictions (ih hs') he'
  obtain ⟨hvictim,hrrpv⟩ := findVictim_eq s set
  obtain ⟨hlt,rounds,blocks',hloop,hmap⟩ := (hpredictions set).agrees hways hv hb
  rw [hvictim, hrrpv]
  refine ⟨hlt,⟨rounds,blocks',hloop,?_⟩,fun set' hne => Function.update_of_ne hne _ _⟩
  rw [Function.update_self, hmap]

/-- Two fills of an SRRIP leader, the first of which is hit. -/
theorem duel_victim_agrees : ∃ s, [DrripEvent.replacementCacheFill 0 5 0 false,
      .replacementCacheFill 0 5 1 false,.updateReplacementState 5 0 false true].foldlM
        (drripStep fun _ => .srripLeader) (Drrip.init 2 0) = some s ∧
      (s.findVictim 5).1 < 2 ∧
      (∃ rounds blocks', VictimLoop [{ valid := true },{ valid := true, rrpv := 2 }] rounds
          (s.findVictim 5).1 blocks' ∧ blocks'.map (·.rrpv) = (s.findVictim 5).2.rrpv 5) ∧
      ∀ set' ≠ 5, (s.findVictim 5).2.rrpv set' = s.rrpv set' :=
  ⟨_,rfl,@victim_agrees 2 (fun _ => .srripLeader) _ (by decide) 0
    [.replacementCacheFill 0 5 0 false,.replacementCacheFill 0 5 1 false,
      .updateReplacementState 5 0 false true] rfl 5
    [{ valid := true },{ valid := true, rrpv := 2 }] (by simp [AllValid]) rfl⟩

end Drrip
end Runs
end CaLabs.Lab4
