import CaLabs.Lab5.Graphene
import CaLabs.Lib.SortedMap
import Mathlib.Data.List.Induction
import Mathlib.Logic.Equiv.Basic

/-! The row indirection tables of the randomized row swap, and where the rows of a bank are. -/
namespace CaLabs.Lab5
open Lib (SortedMap)

/-- Entries for a row and its partner are kept together. -/
structure RitEntry where
  dstRow : ℤ
  lock : Bool
  deriving DecidableEq, Repr

/-- The indirection table of a bank. -/
abbrev Rit := SortedMap ℤ RitEntry

namespace Rit

/-- No result stands for -1. -/
def checkRit (t : Rit) (srcRow : ℤ) : Option ℤ := (t.find? srcRow).map RitEntry.dstRow

def isRitFull (t : Rit) (numRitEntries : ℕ) : Bool := decide (numRitEntries ≤ t.size)

def isRitLocked (t : Rit) (srcRow : ℤ) : Bool := (t.find? srcRow).any RitEntry.lock

def ritUnlock (t : Rit) : Rit where
  entries := t.entries.map fun e => (e.1,{ e.2 with lock := false })
  sorted := by
    rw [List.map_map]
    exact t.sorted

/-- The program exits when the table overflows. -/
def ritInsertEntry (t : Rit) (numRitEntries : ℕ) (srcRow dstRow : ℤ) : Option Rit :=
  let t := (t.assign srcRow ⟨dstRow,true⟩).assign dstRow ⟨srcRow,true⟩
  if t.size ≤ numRitEntries then some t else none

def ritRemoveEntry (t : Rit) (srcRow dstRow : ℤ) : Rit := (t.erase srcRow).erase dstRow

/-- The first pair in the order of the iterator that is unlocked and not excluded; the program exits
when there is none. -/
def getUnswapPair (t : Rit) (order : List ℤ) (excluded : ℤ → Bool) : Option (ℤ × ℤ) :=
  order.findSome? fun row => (t.find? row).bind fun e =>
    if !e.lock && !excluded row && !excluded e.dstRow then some (row,e.dstRow) else none

/-- apply_indirection on the row of a request. -/
def applyIndirection (t : Rit) (row : ℤ) : ℤ := (t.checkRit row).getD row

end Rit

/-- An issued request as the plugin reads it, with the orders in which its iterators go through the
two tables of the bank and the numbers that the generator draws. -/
structure SwapActivation where
  isOpening : Bool := true
  hasRowScope : Bool := true
  addrVec : AddrVec
  trackerOrder : List ℤ := []
  ritOrder : List ℤ := []
  draws : List ℤ := []

/-- What issue_swap makes the controller do: the pairs of rows of the bank that are exchanged. -/
structure SwapLog where
  swaps : List (ℤ × ℤ) := []
  reswap : Option (ℤ × ℤ) := none
  deriving DecidableEq, Repr

structure RowSwap where
  org : Organization
  numHrtEntries : ℕ
  numRitEntries : ℕ
  rssThreshold : ℕ
  resetPeriodClk : ℤ
  clk : ℤ := 0
  hotRowTracker : ℤ → SortedMap ℤ ℕ := fun _ => {}
  spilloverCounter : ℤ → ℕ := fun _ => 0
  rowIndirectionTable : ℤ → Rit := fun _ => {}

namespace RowSwap
variable (p : RowSwap)

/-- The loop of get_rand_row over the drawn numbers, with those that are left. -/
def getRandRow (tracker : SortedMap ℤ ℕ) (t : Rit) (rowId : ℤ) : List ℤ → Option (ℤ × List ℤ)
  | [] => none
  | row :: draws =>
    if (tracker.find? row).isNone && (t.checkRit row).isNone && decide (row ≠ rowId) then
      some (row,draws)
    else getRandRow tracker t rowId draws

/-- The branch that makes room in a full table. -/
def unswap (tracker : SortedMap ℤ ℕ) (t : Rit) (order : List ℤ) :
    Option (Rit × List (ℤ × ℤ)) :=
  if t.isRitFull p.numRitEntries then
    (t.getUnswapPair order fun row => (tracker.find? row).isSome).map fun (a,b) =>
      (t.ritRemoveEntry a b,[(a,b)])
  else some (t,[])

/-- The swap of a row whose count has reached a multiple of the threshold. -/
def swapRow (tracker : SortedMap ℤ ℕ) (t : Rit) (rowId : ℤ) (a : SwapActivation) :
    Option (Rit × SwapLog) :=
  match t.checkRit rowId with
  | some prevSwappedRow =>
    if t.isRitLocked rowId then do
      let (t,unswaps) ← p.unswap tracker t a.ritOrder
      let (dstRow0,draws) ← getRandRow tracker t rowId a.draws
      let (dstRow1,_) ← getRandRow tracker t rowId draws
      let t := t.ritRemoveEntry rowId prevSwappedRow
      let t ← t.ritInsertEntry p.numRitEntries rowId dstRow1
      let t ← t.ritInsertEntry p.numRitEntries prevSwappedRow dstRow0
      some (t,⟨unswaps ++ [(rowId,dstRow0),(prevSwappedRow,dstRow1)],some (dstRow0,dstRow1)⟩)
    else do
      let (dstRow,_) ← getRandRow tracker t rowId a.draws
      let t := t.ritRemoveEntry rowId prevSwappedRow
      let t ← t.ritInsertEntry p.numRitEntries rowId dstRow
      some (t,⟨[(rowId,prevSwappedRow),(rowId,dstRow)],none⟩)
  | none => do
    let (t,unswaps) ← p.unswap tracker t a.ritOrder
    let (dstRow,_) ← getRandRow tracker t rowId a.draws
    let t ← t.ritInsertEntry p.numRitEntries rowId dstRow
    some (t,⟨unswaps ++ [(rowId,dstRow)],none⟩)

/-- The hot-row tracker, with whether the row is in it afterwards. -/
def track (tracker : SortedMap ℤ ℕ) (spillover : ℕ) (order : List ℤ) (rowId : ℤ) :
    SortedMap ℤ ℕ × ℕ × Bool :=
  match tracker.find? rowId with
  | some count => (tracker.assign rowId (count + 1),spillover,true)
  | none =>
    if tracker.size < p.numHrtEntries then (tracker.assign rowId 1,spillover,true)
    else
      match order.find? fun row => tracker.find? row = some spillover with
      | some toRemove => ((tracker.erase toRemove).assign rowId (spillover + 1),spillover,true)
      | none => (tracker,spillover + 1,false)

/-- The clock and the reset of update. -/
def tick : RowSwap :=
  let p := { p with clk := p.clk + 1 }
  if p.clk % p.resetPeriodClk = 0 then
    { p with
      hotRowTracker := fun _ => {}
      spilloverCounter := fun _ => 0
      rowIndirectionTable := fun bank => (p.rowIndirectionTable bank).ritUnlock }
  else p

def activate (a : SwapActivation) : Option (RowSwap × SwapLog) :=
  let bank := Graphene.flatBankId p.org a.addrVec
  let rowId := a.addrVec.row
  let (tracker,spillover,tracked) :=
    p.track (p.hotRowTracker bank) (p.spilloverCounter bank) a.trackerOrder rowId
  let p := { p with
    hotRowTracker := Function.update p.hotRowTracker bank tracker
    spilloverCounter := Function.update p.spilloverCounter bank spillover }
  if tracked && decide (((tracker.find? rowId).getD 0) % p.rssThreshold = 0) then
    (p.swapRow tracker (p.rowIndirectionTable bank) rowId a).map fun (t,log) =>
      ({ p with rowIndirectionTable := Function.update p.rowIndirectionTable bank t },log)
  else some (p,{})

def update (request : Option SwapActivation) : Option (RowSwap × SwapLog) :=
  match request with
  | some a => if a.isOpening && a.hasRowScope then p.tick.activate a else some (p.tick,{})
  | none => some (p.tick,{})

end RowSwap

/-! The rows of a bank, as an involution on row numbers and the rows' data. -/

/-- Rows are swapped in pairs. -/
def Paired (dst : ℤ → Option ℤ) : Prop := ∀ a b, dst a = some b → dst b = some a ∧ a ≠ b

/-- The data of every row is where the table sends its requests. -/
def Placed (dst : ℤ → Option ℤ) (contents : ℤ → ℤ) : Prop :=
  ∀ row, contents ((dst row).getD row) = row

section Pairs
variable {dst : ℤ → Option ℤ} {contents : ℤ → ℤ} {a b : ℤ}

/-- The table with a pair of rows more. -/
def pairWith (dst : ℤ → Option ℤ) (a b : ℤ) : ℤ → Option ℤ := fun row =>
  if row = b then some a else if row = a then some b else dst row

/-- The table without the two rows. -/
def unpair (dst : ℤ → Option ℤ) (a b : ℤ) : ℤ → Option ℤ := fun row =>
  if row = b then none else if row = a then none else dst row

lemma Paired.pairWith (h : Paired dst) (ha : dst a = none) (hb : dst b = none) (hne : a ≠ b) :
    Paired (pairWith dst a b) := by
  intro x y hxy
  have hfree : ∀ x y, dst x = some y → x ≠ a ∧ x ≠ b ∧ y ≠ a ∧ y ≠ b := by
    intro x y hxy
    have hyx := (h x y hxy).1
    refine ⟨?_,?_,?_,?_⟩ <;> rintro rfl <;> simp_all
  simp only [CaLabs.Lab5.pairWith] at hxy ⊢
  split_ifs at hxy with h1 h2
  · obtain rfl := Option.some.inj hxy
    subst h1
    simp [hne, Ne.symm hne]
  · obtain rfl := Option.some.inj hxy
    subst h2
    simp [hne]
  · obtain ⟨-,-,hya,hyb⟩ := hfree x y hxy
    rw [if_neg hyb, if_neg hya]
    exact h x y hxy

lemma Paired.unpair (h : Paired dst) (hab : dst a = some b) : Paired (unpair dst a b) := by
  intro x y hxy
  simp only [CaLabs.Lab5.unpair] at hxy ⊢
  split_ifs at hxy with h1 h2
  obtain ⟨hyx,hne⟩ := h x y hxy
  have hyb : y ≠ b := by
    rintro rfl
    rw [(h a y hab).1] at hyx
    exact h2 (Option.some.inj hyx).symm
  have hya : y ≠ a := by
    rintro rfl
    rw [hab] at hyx
    exact h1 (Option.some.inj hyx).symm
  rw [if_neg hyb, if_neg hya]
  exact ⟨hyx,hne⟩

/-- Exchanging two rows that are in place and pairing them. -/
lemma Placed.pairWith (h : Placed dst contents) (hp : Paired dst) (ha : dst a = none)
    (hb : dst b = none) (hne : a ≠ b) :
    Placed (pairWith dst a b) (contents ∘ Equiv.swap a b) := by
  intro row
  have hrow := h row
  simp only [CaLabs.Lab5.pairWith, Function.comp_apply]
  split_ifs with h1 h2
  · subst h1
    rw [Option.getD_some, Equiv.swap_apply_left]
    simpa [hb] using hrow
  · subst h2
    rw [Option.getD_some, Equiv.swap_apply_right]
    simpa [ha] using hrow
  · cases hd : dst row with
    | none =>
      rw [hd] at hrow
      rw [Option.getD_none, Equiv.swap_apply_of_ne_of_ne h2 h1]
      exact hrow
    | some x =>
      have hx := (hp row x hd).1
      have hxa : x ≠ a := by
        rintro rfl
        rw [ha] at hx
        cases hx
      have hxb : x ≠ b := by
        rintro rfl
        rw [hb] at hx
        cases hx
      rw [hd] at hrow
      rw [Option.getD_some, Equiv.swap_apply_of_ne_of_ne hxa hxb]
      exact hrow

/-- Exchanging the rows of a pair brings them back. -/
lemma Placed.unpair (h : Placed dst contents) (hp : Paired dst) (hab : dst a = some b) :
    Placed (unpair dst a b) (contents ∘ Equiv.swap a b) := by
  have hba := (hp a b hab).1
  intro row
  have hrow := h row
  simp only [CaLabs.Lab5.unpair, Function.comp_apply]
  split_ifs with h1 h2
  · subst h1
    rw [Option.getD_none, Equiv.swap_apply_right]
    simpa [hba] using hrow
  · subst h2
    rw [Option.getD_none, Equiv.swap_apply_left]
    simpa [hab] using hrow
  · cases hd : dst row with
    | none =>
      rw [hd] at hrow
      rw [Option.getD_none, Equiv.swap_apply_of_ne_of_ne h2 h1]
      exact hrow
    | some x =>
      have hx := (hp row x hd).1
      have hxa : x ≠ a := by
        rintro rfl
        rw [hab] at hx
        exact h1 (Option.some.inj hx).symm
      have hxb : x ≠ b := by
        rintro rfl
        rw [hba] at hx
        exact h2 (Option.some.inj hx).symm
      rw [hd] at hrow
      rw [Option.getD_some, Equiv.swap_apply_of_ne_of_ne hxa hxb]
      exact hrow

end Pairs

namespace Rit
variable {t t' : Rit} {n : ℕ} {a b : ℤ}

lemma checkRit_insert (h : t.ritInsertEntry n a b = some t') :
    t'.checkRit = pairWith t.checkRit a b := by
  unfold ritInsertEntry at h
  dsimp only at h
  split_ifs at h
  funext row
  rw [← Option.some.inj h, checkRit, SortedMap.find?_assign, SortedMap.find?_assign, pairWith]
  split_ifs <;> rfl

lemma checkRit_remove (t : Rit) (a b : ℤ) :
    (t.ritRemoveEntry a b).checkRit = unpair t.checkRit a b := by
  funext row
  rw [ritRemoveEntry, checkRit, SortedMap.find?_erase, SortedMap.find?_erase, unpair]
  split_ifs <;> rfl

lemma checkRit_unlock (t : Rit) : t.ritUnlock.checkRit = t.checkRit := by
  have hfind : ∀ row e, t.ritUnlock.find? row = some e ↔
      ∃ e', t.find? row = some e' ∧ { e' with lock := false } = e := by
    intro row e
    simp only [SortedMap.find?_eq_some, ritUnlock, List.mem_map, Prod.mk.injEq, Prod.exists]
    constructor
    · rintro ⟨k,e',hmem,rfl,rfl⟩
      exact ⟨e',hmem,rfl⟩
    · rintro ⟨e',hmem,rfl⟩
      exact ⟨row,e',hmem,rfl,rfl⟩
  funext row
  ext dst
  simp only [checkRit, Option.map_eq_some_iff]
  constructor
  · rintro ⟨e,he,rfl⟩
    obtain ⟨e',he',rfl⟩ := (hfind row e).mp he
    exact ⟨e',he',rfl⟩
  · rintro ⟨e,he,rfl⟩
    exact ⟨_,(hfind row _).mpr ⟨e,he,rfl⟩,rfl⟩

lemma getUnswapPair_spec {order : List ℤ} {excluded : ℤ → Bool}
    (h : t.getUnswapPair order excluded = some (a,b)) :
    t.checkRit a = some b ∧ excluded a = false ∧ excluded b = false := by
  obtain ⟨row,-,hrow⟩ := List.exists_of_findSome?_eq_some h
  obtain ⟨e,he,hpair⟩ := Option.bind_eq_some_iff.mp hrow
  split_ifs at hpair with hok
  obtain ⟨rfl,rfl⟩ := Prod.mk.inj (Option.some.inj hpair)
  simp only [Bool.and_eq_true, Bool.not_eq_true'] at hok
  exact ⟨by rw [checkRit, he]; rfl,hok.1.2,hok.2⟩

end Rit

/-- The data of the rows after these exchanges. -/
def exchanged (contents : ℤ → ℤ) (swaps : List (ℤ × ℤ)) : ℤ → ℤ :=
  swaps.foldl (fun contents s => contents ∘ Equiv.swap s.1 s.2) contents

namespace RowSwap
variable {p : RowSwap} {tracker : SortedMap ℤ ℕ} {t t' : Rit} {rowId : ℤ}

lemma getRandRow_spec {draws rest : List ℤ} {row : ℤ}
    (h : getRandRow tracker t rowId draws = some (row,rest)) :
    t.checkRit row = none ∧ row ≠ rowId := by
  induction draws with
  | nil => cases h
  | cons d draws ih =>
    rw [getRandRow] at h
    split_ifs at h with hok
    · obtain ⟨rfl,-⟩ := Prod.mk.inj (Option.some.inj h)
      simp only [Bool.and_eq_true, Option.isNone_iff_eq_none, decide_eq_true_eq] at hok
      exact ⟨hok.1.2,hok.2⟩
    · exact ih h

/-- Making room keeps the pairs and the places, and leaves the tracked rows alone. -/
lemma unswap_spec {order : List ℤ} {unswaps : List (ℤ × ℤ)}
    (h : p.unswap tracker t order = some (t',unswaps)) (hp : Paired t.checkRit) :
    Paired t'.checkRit ∧
      (∀ contents, Placed t.checkRit contents →
        Placed t'.checkRit (exchanged contents unswaps)) ∧
      ∀ row, (tracker.find? row).isSome = true → t'.checkRit row = t.checkRit row := by
  unfold unswap at h
  split_ifs at h
  · obtain ⟨⟨a,b⟩,hpair,he⟩ := Option.map_eq_some_iff.mp h
    obtain ⟨rfl,rfl⟩ := Prod.mk.inj he
    obtain ⟨hab,ha,hb⟩ := Rit.getUnswapPair_spec hpair
    rw [Rit.checkRit_remove]
    refine ⟨hp.unpair hab,fun contents hc => hc.unpair hp hab,fun row hrow => ?_⟩
    have hne : ∀ x, (tracker.find? x).isSome = false → row ≠ x := by
      rintro x hx rfl
      rw [hx] at hrow
      cases hrow
    rw [unpair, if_neg (hne b hb), if_neg (hne a ha)]
  · obtain ⟨rfl,rfl⟩ := Prod.mk.inj (Option.some.inj h)
    exact ⟨hp,fun _ hc => hc,fun _ _ => rfl⟩

/-- A swap keeps the pairs, unless it draws one row twice; and the places, unless it swaps a row
again in the same period. -/
lemma swapRow_spec {a : SwapActivation} {log : SwapLog}
    (h : p.swapRow tracker t rowId a = some (t',log)) (hp : Paired t.checkRit)
    (htracked : (tracker.find? rowId).isSome = true) :
    ((∀ d₀ d₁, log.reswap = some (d₀,d₁) → d₀ ≠ d₁) → Paired t'.checkRit) ∧
      (log.reswap = none → ∀ contents, Placed t.checkRit contents →
        Placed t'.checkRit (exchanged contents log.swaps)) := by
  unfold swapRow at h
  cases hc : t.checkRit rowId with
  | none =>
    simp only [hc, bind, Option.bind_eq_some_iff, Prod.exists] at h
    obtain ⟨t₁,unswaps,hu,dstRow,rest,hd,t₂,hi,he⟩ := h
    obtain ⟨rfl,rfl⟩ := Prod.mk.inj (Option.some.inj he)
    obtain ⟨hp₁,hplaced,hrest⟩ := unswap_spec hu hp
    obtain ⟨hfree,hne⟩ := getRandRow_spec hd
    have hrow : t₁.checkRit rowId = none := (hrest rowId htracked).trans hc
    rw [Rit.checkRit_insert hi]
    refine ⟨fun _ => hp₁.pairWith hrow hfree hne.symm,fun _ contents hcontents => ?_⟩
    rw [exchanged, List.foldl_append]
    exact (hplaced contents hcontents).pairWith hp₁ hrow hfree hne.symm
  | some prev =>
    simp only [hc] at h
    split_ifs at h
    · simp only [bind, Option.bind_eq_some_iff, Prod.exists] at h
      obtain ⟨t₁,unswaps,hu,d₀,draws,hd₀,d₁,rest,hd₁,t₂,hi₁,t₃,hi₀,he⟩ := h
      obtain ⟨rfl,rfl⟩ := Prod.mk.inj (Option.some.inj he)
      refine ⟨fun hdraws => ?_,fun hnone => by cases hnone⟩
      have hd := hdraws d₀ d₁ rfl
      obtain ⟨hp₁,-,hrest⟩ := unswap_spec hu hp
      obtain ⟨hfree₀,hne₀⟩ := getRandRow_spec hd₀
      obtain ⟨hfree₁,hne₁⟩ := getRandRow_spec hd₁
      have hrow : t₁.checkRit rowId = some prev := (hrest rowId htracked).trans hc
      obtain ⟨hprev,hne⟩ := hp₁ rowId prev hrow
      have hprev₀ : d₀ ≠ prev := by
        rintro rfl
        rw [hfree₀] at hprev
        cases hprev
      have hprev₁ : d₁ ≠ prev := by
        rintro rfl
        rw [hfree₁] at hprev
        cases hprev
      rw [Rit.checkRit_insert hi₀, Rit.checkRit_insert hi₁, Rit.checkRit_remove]
      have hout := hp₁.unpair hrow
      have hfirst : Paired (pairWith (unpair t₁.checkRit rowId prev) rowId d₁) := by
        apply hout.pairWith
        · simp [unpair, hne]
        · simp [unpair, hfree₁]
        · exact hne₁.symm
      apply hfirst.pairWith
      · simp [pairWith, unpair, hprev₁.symm, hne.symm]
      · simp [pairWith, unpair, hd, hne₀, hprev₀, hfree₀]
      · exact hprev₀.symm
    · simp only [bind, Option.bind_eq_some_iff, Prod.exists] at h
      obtain ⟨dstRow,rest,hd,t₁,hi,he⟩ := h
      obtain ⟨rfl,rfl⟩ := Prod.mk.inj (Option.some.inj he)
      obtain ⟨hfree,hne⟩ := getRandRow_spec hd
      obtain ⟨hprev,hne'⟩ := hp rowId prev hc
      have hout := hp.unpair hc
      have hrow : unpair t.checkRit rowId prev rowId = none := by simp [unpair, hne']
      have hdst : unpair t.checkRit rowId prev dstRow = none := by simp [unpair, hfree]
      rw [Rit.checkRit_insert hi, Rit.checkRit_remove]
      refine ⟨fun _ => hout.pairWith hrow hdst hne.symm,fun _ contents hcontents => ?_⟩
      exact (hcontents.unpair hp hc).pairWith hout hrow hdst hne.symm

/-- After a swap again in the same period some row is not where the table says it is. -/
lemma swapRow_misplaced {a : SwapActivation} {log : SwapLog}
    (h : p.swapRow tracker t rowId a = some (t',log)) (hp : Paired t.checkRit)
    (htracked : (tracker.find? rowId).isSome = true) (hreswap : log.reswap ≠ none)
    {contents : ℤ → ℤ} (hcontents : Placed t.checkRit contents) :
    ¬Placed t'.checkRit (exchanged contents log.swaps) := by
  unfold swapRow at h
  cases hc : t.checkRit rowId with
  | none =>
    simp only [hc, bind, Option.bind_eq_some_iff, Prod.exists] at h
    obtain ⟨t₁,unswaps,-,dstRow,rest,-,t₂,-,he⟩ := h
    obtain ⟨-,rfl⟩ := Prod.mk.inj (Option.some.inj he)
    exact absurd rfl hreswap
  | some prev =>
    simp only [hc] at h
    split_ifs at h
    · simp only [bind, Option.bind_eq_some_iff, Prod.exists] at h
      obtain ⟨t₁,unswaps,hu,d₀,draws,hd₀,d₁,rest,hd₁,t₂,hi₁,t₃,hi₀,he⟩ := h
      obtain ⟨rfl,rfl⟩ := Prod.mk.inj (Option.some.inj he)
      obtain ⟨hp₁,hplaced,hrest⟩ := unswap_spec hu hp
      obtain ⟨hfree₀,hne₀⟩ := getRandRow_spec hd₀
      obtain ⟨hfree₁,hne₁⟩ := getRandRow_spec hd₁
      have hrow : t₁.checkRit rowId = some prev := (hrest rowId htracked).trans hc
      have hprev := (hp₁ rowId prev hrow).1
      have hprev₀ : d₀ ≠ prev := by
        rintro rfl
        rw [hfree₀] at hprev
        cases hprev
      have hat := hplaced contents hcontents
      intro hbad
      -- The row drawn first is sent to the old partner, which now holds what the row drawn
      -- second had, or the old partner's own data when both draws are one row.
      have hd := hbad d₀
      rw [Rit.checkRit_insert hi₀, exchanged, List.foldl_append] at hd
      simp only [pairWith, if_true, Option.getD_some, List.foldl_cons, List.foldl_nil,
        Function.comp_apply, Equiv.swap_apply_left] at hd
      by_cases hdraws : d₁ = d₀
      · subst hdraws
        rw [Equiv.swap_apply_right] at hd
        have hp' := hat prev
        rw [hprev, Option.getD_some] at hp'
        exact hprev₀ (hd.symm.trans hp')
      · rw [Equiv.swap_apply_of_ne_of_ne hne₁ hdraws] at hd
        have hd' := hat d₁
        rw [hfree₁, Option.getD_none] at hd'
        exact hdraws (hd'.symm.trans hd)
    · simp only [bind, Option.bind_eq_some_iff, Prod.exists] at h
      obtain ⟨dstRow,rest,-,t₁,-,he⟩ := h
      obtain ⟨-,rfl⟩ := Prod.mk.inj (Option.some.inj he)
      exact absurd rfl hreswap

lemma track_mem {spillover : ℕ} {order : List ℤ}
    (h : (p.track tracker spillover order rowId).2.2 = true) :
    ((p.track tracker spillover order rowId).1.find? rowId).isSome = true := by
  unfold track at h ⊢
  cases hfind : tracker.find? rowId with
  | some count => simp [SortedMap.find?_assign]
  | none =>
    simp only [hfind] at h ⊢
    split_ifs at h ⊢ with hsize
    · simp [SortedMap.find?_assign]
    · cases hremove : order.find? fun row => tracker.find? row = some spillover with
      | some toRemove => simp [SortedMap.find?_assign]
      | none => simp [hremove] at h

/-- What an activation does to the tables: nothing, or a swap of its row in its bank. -/
lemma activate_cases {a : SwapActivation} {p' : RowSwap} {log : SwapLog}
    (h : p.activate a = some (p',log)) :
    p'.rowIndirectionTable = p.rowIndirectionTable ∧ log = {} ∨
      ∃ tracker t, (tracker.find? a.addrVec.row).isSome = true ∧
        p'.rowIndirectionTable =
          Function.update p.rowIndirectionTable (Graphene.flatBankId p.org a.addrVec) t ∧
        ∃ q : RowSwap, q.swapRow tracker
          (p.rowIndirectionTable (Graphene.flatBankId p.org a.addrVec)) a.addrVec.row a =
            some (t,log) := by
  unfold activate at h
  dsimp only at h
  split_ifs at h with hswap
  · obtain ⟨⟨t,log'⟩,hs,he⟩ := Option.map_eq_some_iff.mp h
    obtain ⟨rfl,rfl⟩ := Prod.mk.inj he
    rw [Bool.and_eq_true] at hswap
    exact .inr ⟨_,t,track_mem hswap.1,rfl,_,hs⟩
  · obtain ⟨rfl,rfl⟩ := Prod.mk.inj (Option.some.inj h)
    exact .inl ⟨rfl,rfl⟩

lemma tick_checkRit (p : RowSwap) (bank : ℤ) :
    (p.tick.rowIndirectionTable bank).checkRit = (p.rowIndirectionTable bank).checkRit := by
  unfold tick
  dsimp only
  split_ifs
  · exact Rit.checkRit_unlock _
  · rfl

@[simp] lemma tick_org (p : RowSwap) : p.tick.org = p.org := by
  unfold tick
  dsimp only
  split_ifs <;> rfl

end RowSwap

/-- The plugin, the row whose data each row of a bank holds, and what the plugin has issued. -/
structure SwappedBanks where
  plugin : RowSwap
  contents : ℤ → ℤ → ℤ := fun _ row => row
  logs : List SwapLog := []

namespace SwappedBanks

def table (s : SwappedBanks) (bank : ℤ) : Rit := s.plugin.rowIndirectionTable bank

def step (s : SwappedBanks) (request : Option SwapActivation) : Option SwappedBanks :=
  (s.plugin.update request).map fun (p,log) =>
    { plugin := p
      logs := s.logs ++ [log]
      contents := request.elim s.contents fun a =>
        let bank := Graphene.flatBankId s.plugin.org a.addrVec
        Function.update s.contents bank (exchanged (s.contents bank) log.swaps) }

def setup (org : Organization) (numHrtEntries numRitEntries rssThreshold : ℕ)
    (resetPeriodClk : ℤ) : SwappedBanks where
  plugin := { org, numHrtEntries, numRitEntries, rssThreshold, resetPeriodClk }

/-- No result if the program exits. -/
def run (s : SwappedBanks) (requests : List (Option SwapActivation)) : Option SwappedBanks :=
  requests.foldlM step s

/-- The rows of every bank are swapped in pairs. -/
def AllPaired (s : SwappedBanks) : Prop := ∀ bank, Paired (s.table bank).checkRit

/-- The data of every row is where its requests are sent. -/
def AllPlaced (s : SwappedBanks) : Prop :=
  ∀ bank row, s.contents bank ((s.table bank).applyIndirection row) = row

variable {s s' : SwappedBanks} {request : Option SwapActivation}

/-- In a step all banks stay as they are, or one of them swaps a tracked row. -/
lemma step_cases (h : s.step request = some s') :
    ∃ log, s'.logs = s.logs ++ [log] ∧
      ((log.reswap = none ∧ ∀ bank, (s'.table bank).checkRit = (s.table bank).checkRit ∧
          s'.contents bank = s.contents bank) ∨
        ∃ (hot row : ℤ) (a : SwapActivation) (q : RowSwap) (tracker : SortedMap ℤ ℕ) (t : Rit),
          t.checkRit = (s.table hot).checkRit ∧ (tracker.find? row).isSome = true ∧
          q.swapRow tracker t row a = some (s'.table hot,log) ∧
          s'.contents hot = exchanged (s.contents hot) log.swaps ∧
          ∀ bank ≠ hot, (s'.table bank).checkRit = (s.table bank).checkRit ∧
            s'.contents bank = s.contents bank) := by
  obtain ⟨⟨p',log⟩,hu,rfl⟩ := Option.map_eq_some_iff.mp h
  refine ⟨log,rfl,?_⟩
  have htick := s.plugin.tick_checkRit
  unfold RowSwap.update at hu
  cases request with
  | none =>
    obtain ⟨rfl,rfl⟩ := Prod.mk.inj (Option.some.inj hu)
    exact .inl ⟨rfl,fun bank => ⟨htick bank,rfl⟩⟩
  | some a =>
    have hquiet : ∀ bank, Function.update s.contents
        (Graphene.flatBankId s.plugin.org a.addrVec) (exchanged
          (s.contents (Graphene.flatBankId s.plugin.org a.addrVec)) []) bank =
        s.contents bank := by
      intro bank
      rw [exchanged, List.foldl_nil, Function.update_eq_self]
    dsimp only at hu
    split_ifs at hu
    · obtain ⟨ht,rfl⟩ | ⟨tracker,t,htracked,ht,q,hs⟩ := RowSwap.activate_cases hu
      · refine .inl ⟨rfl,fun bank => ⟨?_,hquiet bank⟩⟩
        rw [table, ht]
        exact htick bank
      · rw [RowSwap.tick_org] at ht hs
        refine .inr ⟨Graphene.flatBankId s.plugin.org a.addrVec,a.addrVec.row,a,q,tracker,_,
          htick _,htracked,?_,?_,fun bank hbank => ⟨?_,?_⟩⟩
        · rw [table, ht, Function.update_self]
          exact hs
        · exact Function.update_self ..
        · rw [table, ht, Function.update_of_ne hbank]
          exact htick bank
        · exact Function.update_of_ne hbank ..
    · obtain ⟨rfl,rfl⟩ := Prod.mk.inj (Option.some.inj hu)
      exact .inl ⟨rfl,fun bank => ⟨htick bank,hquiet bank⟩⟩

/-- The two rows drawn for a swap in the same period differ. -/
def DrawsApart (logs : List SwapLog) : Prop :=
  ∀ log ∈ logs, ∀ d₀ d₁, log.reswap = some (d₀,d₁) → d₀ ≠ d₁

def NoReswap (logs : List SwapLog) : Prop := ∀ log ∈ logs, log.reswap = none

lemma NoReswap.drawsApart {logs : List SwapLog} (h : NoReswap logs) : DrawsApart logs := by
  intro log hlog d₀ d₁ hd
  rw [h log hlog] at hd
  cases hd

lemma AllPaired.step (hp : s.AllPaired) (h : s.step request = some s')
    (hdraws : DrawsApart s'.logs) : s'.AllPaired := by
  obtain ⟨log,hlogs,⟨-,hsame⟩ | ⟨hot,row,a,q,tracker,t,ht,htracked,hs,-,hrest⟩⟩ := step_cases h
  · intro bank
    rw [(hsame bank).1]
    exact hp bank
  · intro bank
    by_cases hbank : bank = hot
    · subst hbank
      refine (RowSwap.swapRow_spec hs (ht ▸ hp bank) htracked).1 (hdraws log ?_)
      simp [hlogs]
    · rw [(hrest bank hbank).1]
      exact hp bank

/-- A step keeps the rows in place exactly when it does not swap a row again in its period. -/
lemma AllPlaced.step_iff (hc : s.AllPlaced) (hp : s.AllPaired) (h : s.step request = some s') :
    s'.AllPlaced ↔ ∀ log, s'.logs = s.logs ++ [log] → log.reswap = none := by
  obtain ⟨log,hlogs,hcase⟩ := step_cases h
  have hlast : (∀ log, s'.logs = s.logs ++ [log] → log.reswap = none) ↔ log.reswap = none := by
    rw [hlogs]
    constructor
    · exact fun hall => hall log rfl
    · intro hnone log' hlog'
      obtain rfl := (List.cons.inj (List.append_cancel_left hlog')).1
      exact hnone
  rw [hlast]
  obtain ⟨hnone,hsame⟩ | ⟨hot,row,a,q,tracker,t,ht,htracked,hs,hcontents,hrest⟩ := hcase
  · refine ⟨fun _ => hnone,fun _ bank => ?_⟩
    have hbank := hc bank
    simp only [Rit.applyIndirection] at hbank ⊢
    rw [(hsame bank).1, (hsame bank).2]
    exact hbank
  · have hpt : Paired t.checkRit := ht ▸ hp hot
    have hct : Placed t.checkRit (s.contents hot) := ht ▸ hc hot
    constructor
    · intro hplaced
      by_contra hreswap
      refine RowSwap.swapRow_misplaced hs hpt htracked hreswap hct ?_
      rw [← hcontents]
      exact hplaced hot
    · intro hnone bank
      by_cases hbank : bank = hot
      · subst hbank
        rw [hcontents]
        exact (RowSwap.swapRow_spec hs hpt htracked).2 hnone _ hct
      · have hb := hc bank
        simp only [Rit.applyIndirection] at hb ⊢
        rw [(hrest bank hbank).1, (hrest bank hbank).2]
        exact hb

lemma run_concat (requests : List (Option SwapActivation)) (request : Option SwapActivation) :
    s.run (requests ++ [request]) = (s.run requests).bind fun s => s.step request := by
  rw [run, List.foldlM_append]
  simp only [List.foldlM_cons, List.foldlM_nil, bind_pure]
  rfl

/-- Splits a run before its last request. -/
lemma run_concat_eq_some {requests : List (Option SwapActivation)}
    (h : s.run (requests ++ [request]) = some s') :
    ∃ mid, s.run requests = some mid ∧ mid.step request = some s' := by
  rw [run_concat] at h
  exact Option.bind_eq_some_iff.mp h

lemma logs_step (h : s.step request = some s') : ∃ log, s'.logs = s.logs ++ [log] := by
  obtain ⟨log,hlogs,-⟩ := step_cases h
  exact ⟨log,hlogs⟩

lemma AllPaired.run (hp : s.AllPaired) {requests : List (Option SwapActivation)}
    (h : s.run requests = some s') (hdraws : DrawsApart s'.logs) : s'.AllPaired := by
  induction requests using List.reverseRecOn generalizing s' with
  | nil =>
    obtain rfl := Option.some.inj h
    exact hp
  | append_singleton requests request ih =>
    obtain ⟨mid,hrun,hstep⟩ := run_concat_eq_some h
    refine AllPaired.step (ih hrun ?_) hstep hdraws
    obtain ⟨log,hlogs⟩ := logs_step hstep
    exact fun log' hlog' => hdraws log' (hlogs ▸ List.mem_append_left _ hlog')

lemma AllPlaced.run (hc : s.AllPlaced) (hp : s.AllPaired)
    {requests : List (Option SwapActivation)} (h : s.run requests = some s')
    (hnone : NoReswap s'.logs) : s'.AllPlaced := by
  induction requests using List.reverseRecOn generalizing s' with
  | nil =>
    obtain rfl := Option.some.inj h
    exact hc
  | append_singleton requests request ih =>
    obtain ⟨mid,hrun,hstep⟩ := run_concat_eq_some h
    obtain ⟨log,hlogs⟩ := logs_step hstep
    have hmid : NoReswap mid.logs :=
      fun log' hlog' => hnone log' (hlogs ▸ List.mem_append_left _ hlog')
    apply ((ih hrun hmid).step_iff (hp.run hrun hmid.drawsApart) hstep).mpr
    intro log' hlog'
    exact hnone log' (by simp [hlog'])

section Setup
variable (org : Organization) (numHrtEntries numRitEntries rssThreshold : ℕ) (resetPeriodClk : ℤ)

lemma setup_paired :
    (setup org numHrtEntries numRitEntries rssThreshold resetPeriodClk).AllPaired := by
  intro bank a b hab
  cases hab

lemma setup_placed :
    (setup org numHrtEntries numRitEntries rssThreshold resetPeriodClk).AllPlaced := by
  intro bank row
  rfl

end Setup

/-- In every run in which no row is drawn twice for one swap, the indirection of every bank sends
rows back and forth in pairs, so that no two rows share a physical row. -/
theorem indirection_involutive (org : Organization)
    (numHrtEntries numRitEntries rssThreshold : ℕ) (resetPeriodClk : ℤ)
    (requests : List (Option SwapActivation)) {s : SwappedBanks}
    (h : (setup org numHrtEntries numRitEntries rssThreshold resetPeriodClk).run requests =
      some s) (hdraws : DrawsApart s.logs) (bank : ℤ) :
    Function.Involutive (s.table bank).applyIndirection := by
  have hp := (setup_paired _ _ _ _ _).run h hdraws bank
  intro row
  unfold Rit.applyIndirection
  cases hd : (s.table bank).checkRit row with
  | none => simp [hd]
  | some dst => simp [(hp row dst hd).1]

/-- Three activations of row 5 swap it with row 9, then with row 7, and both with rows 3 and 4. -/
theorem hotRow_indirection_involutive :
    let requests : List (Option SwapActivation) :=
      [[5,9],[9,7],[3,4]].map fun draws => some { addrVec := ⟨0,0,1,2,5,0⟩, draws := draws }
    ∃ s, (setup ⟨4,4⟩ 4 8 1 2).run requests = some s ∧
      [3,4,5,7,9].map (s.table 6).applyIndirection = [7,5,4,3,9] ∧
      Function.Involutive (s.table 6).applyIndirection := by
  intro requests
  have hsome : ((setup ⟨4,4⟩ 4 8 1 2).run requests).isSome = true := by decide
  refine ⟨Option.get _ hsome,Option.some_get hsome |>.symm,by decide +revert,?_⟩
  apply indirection_involutive _ _ _ _ _ requests (Option.some_get hsome).symm
  have hlogs : (Option.get _ hsome).logs =
      [⟨[(5,9)],none⟩,⟨[(5,9),(5,7)],none⟩,⟨[(5,3),(7,4)],some (3,4)⟩] := by decide +revert
  rw [hlogs]
  intro log hlog d₀ d₁ hd
  simp only [List.mem_cons, List.not_mem_nil, or_false] at hlog
  obtain rfl | rfl | rfl := hlog <;> cases hd
  decide

/-- As long as no row has been swapped again in its period, the data of every row is where the
indirection of its bank sends its requests; the next step keeps it so exactly when it does not
swap a row again either. -/
theorem rows_placed_iff (org : Organization) (numHrtEntries numRitEntries rssThreshold : ℕ)
    (resetPeriodClk : ℤ) (requests : List (Option SwapActivation)) {s s' : SwappedBanks}
    (h : (setup org numHrtEntries numRitEntries rssThreshold resetPeriodClk).run requests =
      some s) (hnone : NoReswap s.logs) {request : Option SwapActivation}
    (hstep : s.step request = some s') :
    (∀ bank row, s.contents bank ((s.table bank).applyIndirection row) = row) ∧
      ((∀ bank row, s'.contents bank ((s'.table bank).applyIndirection row) = row) ↔
        NoReswap s'.logs) := by
  have hp := (setup_paired _ _ _ _ _).run h hnone.drawsApart
  have hc := (setup_placed _ _ _ _ _).run (setup_paired _ _ _ _ _) h hnone
  refine ⟨hc,(hc.step_iff hp hstep).trans ?_⟩
  obtain ⟨log,hlogs⟩ := logs_step hstep
  constructor
  · intro hlast log' hlog'
    rw [hlogs, List.mem_append, List.mem_singleton] at hlog'
    obtain hlog' | rfl := hlog'
    · exact hnone log' hlog'
    · exact hlast log' hlogs
  · intro hall log' hlog'
    exact hall log' (by simp [hlog'])

/-- The third swap of the row, in the period of the second, misplaces a row. -/
theorem hotRow_placed_iff :
    let requests : List (Option SwapActivation) :=
      [[5,9],[9,7]].map fun draws => some { addrVec := ⟨0,0,1,2,5,0⟩, draws := draws }
    let again : Option SwapActivation := some { addrVec := ⟨0,0,1,2,5,0⟩, draws := [3,4] }
    ∃ s s', (setup ⟨4,4⟩ 4 8 1 2).run requests = some s ∧ s.step again = some s' ∧
      ¬NoReswap s'.logs ∧
      (∀ bank row, s.contents bank ((s.table bank).applyIndirection row) = row) ∧
      ((∀ bank row, s'.contents bank ((s'.table bank).applyIndirection row) = row) ↔
        NoReswap s'.logs) := by
  intro requests again
  have hsome : ((setup ⟨4,4⟩ 4 8 1 2).run requests).isSome = true := by decide
  have hstep : ((Option.get _ hsome).step again).isSome = true := by decide +revert
  refine ⟨Option.get _ hsome,Option.get _ hstep,(Option.some_get hsome).symm,
    (Option.some_get hstep).symm,?_,?_⟩
  · unfold NoReswap
    decide +revert
  · apply rows_placed_iff _ _ _ _ _ requests (Option.some_get hsome).symm ?_
      (Option.some_get hstep).symm
    unfold NoReswap
    decide +revert

end SwappedBanks
end CaLabs.Lab5
