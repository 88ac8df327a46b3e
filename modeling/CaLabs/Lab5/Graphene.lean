import CaLabs.Lab5.Ddr4
import CaLabs.Lib.FrequentItems
import Mathlib.Data.List.Induction

/-! The Graphene plugin, which asks for victim-row refreshes of rows that are activated often. -/
namespace CaLabs.Lab5
open Lib (Summary)

/-- An issued request as the plugin reads it: the flag and the scope of its command, its address,
and the order in which the iterator of the plugin goes through the table of the bank. -/
structure Activation where
  isOpening : Bool := true
  hasRowScope : Bool := true
  addrVec : AddrVec
  tableOrder : List ℤ

/-- The plugin, with the activation counts and the spillover counter of each bank. -/
structure Graphene where
  org : Organization
  numTableEntries : ℕ
  activationThreshold : ℕ
  resetPeriodClk : ℤ
  numRowsPerBank : ℤ
  clk : ℤ := -1
  tables : ℤ → Summary ℤ

namespace Graphene
variable (p : Graphene)

/-- setup: the keys from -numRowsPerBank on stand for no row. -/
def emptyTable (numRowsPerBank : ℤ) (numTableEntries : ℕ) : Summary ℤ where
  tracked := (Finset.range numTableEntries).image fun j : ℕ => -numRowsPerBank + j
  count _ := 0
  spill := 0

def setup (org : Organization) (numTableEntries activationThreshold : ℕ)
    (resetPeriodClk numRowsPerBank : ℤ) : Graphene where
  org := org
  numTableEntries := numTableEntries
  activationThreshold := activationThreshold
  resetPeriodClk := resetPeriodClk
  numRowsPerBank := numRowsPerBank
  tables _ := emptyTable numRowsPerBank numTableEntries

/-- The loop from the bank level up to the rank level. -/
def flatBankId (org : Organization) (a : AddrVec) : ℤ :=
  a.bank + a.bankgroup * org.banks + a.rank * (org.banks * org.bankgroups)

/-- The reset of every table at the end of a period. -/
def reset : Graphene :=
  { p with tables := fun b => { p.tables b with count := fun _ => 0, spill := 0 } }

def isReset : Bool := p.clk % p.resetPeriodClk = 0

/-- The entry that the search for the value of the spillover counter stops at. -/
def freeEntry (s : Summary ℤ) (tableOrder : List ℤ) : Option ℤ :=
  tableOrder.find? fun row => s.count row = s.spill

/-- The branch of update for an activation, with the address of the refresh that it asks for. -/
def activate (a : Activation) : Graphene × Option AddrVec :=
  let bank := flatBankId p.org a.addrVec
  let r := (p.tables bank).arrive p.activationThreshold
    (freeEntry (p.tables bank) a.tableOrder) a.addrVec.row
  ({ p with tables := Function.update p.tables bank r.1 },if r.2 then some a.addrVec else none)

/-- The clock and the reset of update. -/
def tick : Graphene :=
  let p := { p with clk := p.clk + 1 }
  if p.isReset then p.reset else p

def update (request : Option Activation) : Graphene × Option AddrVec :=
  match request with
  | some a => if a.isOpening && a.hasRowScope then p.tick.activate a else (p.tick,none)
  | none => (p.tick,none)

/-- What an observer of the commands counts: the activations of each row of each bank since its
last refresh request, and those of each bank, both since the last reset. -/
structure Observed where
  since : ℤ → ℤ → ℕ := fun _ _ => 0
  activations : ℤ → ℕ := fun _ => 0

def Observed.activate (o : Observed) (bank row : ℤ) (refreshed : Bool) : Observed where
  since := Function.update o.since bank (Summary.sinceReport (o.since bank) row refreshed)
  activations := Function.update o.activations bank (o.activations bank + 1)

/-- A cycle of the plugin with its observer. -/
def observe (s : Graphene × Observed) (request : Option Activation) : Graphene × Observed :=
  let o := if { s.1 with clk := s.1.clk + 1 }.isReset then {} else s.2
  let r := s.1.update request
  (r.1,match request with
    | some a =>
      if a.isOpening && a.hasRowScope then
        o.activate (flatBankId s.1.org a.addrVec) a.addrVec.row r.2.isSome
      else o
    | none => o)

def run (requests : List (Option Activation)) : Graphene × Observed := requests.foldl observe (p,{})

/-- The iterators go through all the rows of the tables. -/
def VisitsTables (requests : List (Option Activation)) : Prop :=
  ∀ before a after, requests = before ++ some a :: after →
    a.tableOrder.toFinset = ((p.run before).1.tables (flatBankId p.org a.addrVec)).tracked

variable {p}

/-- Each table covers what has been observed of its bank. -/
structure Covered (s : Graphene × Observed) : Prop where
  tables : ∀ b, (s.1.tables b).Covers s.1.activationThreshold s.1.numTableEntries
    (s.2.activations b) (s.2.since b)

lemma freeEntry_place {s : Summary ℤ} {tableOrder : List ℤ}
    (h : tableOrder.toFinset = s.tracked) : s.Place (freeEntry s tableOrder) where
  equal row hrow := by
    have hmem := List.mem_toFinset.mpr (List.mem_of_find?_eq_some hrow)
    exact ⟨h ▸ hmem,by simpa using List.find?_some hrow⟩
  none hnone row hrow := by
    rw [← h, List.mem_toFinset] at hrow
    simpa using List.find?_eq_none.mp hnone row hrow

lemma card_emptyTable (numRowsPerBank : ℤ) (numTableEntries : ℕ) :
    (emptyTable numRowsPerBank numTableEntries).tracked.card = numTableEntries := by
  have hinj : Function.Injective fun j : ℕ => -numRowsPerBank + (j : ℤ) :=
    fun i j h => Int.ofNat.inj (add_left_cancel h)
  exact (Finset.card_image_of_injective _ hinj).trans (Finset.card_range _)

lemma covers_zero {s : Summary ℤ} {threshold size : ℕ} (h : s.tracked.card = size) :
    { s with count := fun _ => 0, spill := 0 }.Covers threshold size 0 fun _ => 0 :=
  h ▸ Summary.Covers.start s.tracked threshold

lemma setup_covered (org : Organization) (numTableEntries activationThreshold : ℕ)
    (resetPeriodClk numRowsPerBank : ℤ) :
    Covered (setup org numTableEntries activationThreshold resetPeriodClk numRowsPerBank,{}) :=
  ⟨fun _ => covers_zero (card_emptyTable _ _)⟩

/-- The parameters do not change. -/
lemma tick_framed (p : Graphene) : p.tick.org = p.org ∧
    p.tick.activationThreshold = p.activationThreshold ∧
    p.tick.numTableEntries = p.numTableEntries := by
  unfold tick
  dsimp only
  split_ifs <;> exact ⟨rfl,rfl,rfl⟩

lemma update_framed (p : Graphene) (request : Option Activation) :
    (p.update request).1.org = p.org ∧
    (p.update request).1.activationThreshold = p.activationThreshold ∧
    (p.update request).1.numTableEntries = p.numTableEntries := by
  unfold update
  cases request with
  | none => exact p.tick_framed
  | some a =>
    dsimp only
    split_ifs <;> exact p.tick_framed

/-- A reset of the tables starts the observation again. -/
lemma Covered.tick {o : Observed} (h : Covered (p,o)) :
    Covered (p.tick,if { p with clk := p.clk + 1 }.isReset then {} else o) := by
  unfold Graphene.tick
  dsimp only
  split_ifs
  · exact ⟨fun b => covers_zero (h.tables b).size⟩
  · exact ⟨h.tables⟩

lemma Covered.activate {o : Observed} (h : Covered (p,o)) {a : Activation}
    (horder : a.tableOrder.toFinset = (p.tables (flatBankId p.org a.addrVec)).tracked) :
    Covered ((p.activate a).1,
      o.activate (flatBankId p.org a.addrVec) a.addrVec.row (p.activate a).2.isSome) := by
  refine ⟨fun b => ?_⟩
  have hstep := (h.tables (flatBankId p.org a.addrVec)).arrive (x := a.addrVec.row)
    (freeEntry_place horder)
  have hreport : (p.activate a).2.isSome = ((p.tables (flatBankId p.org a.addrVec)).arrive
      p.activationThreshold (freeEntry (p.tables (flatBankId p.org a.addrVec)) a.tableOrder)
      a.addrVec.row).2 := by
    unfold Graphene.activate
    dsimp only
    split_ifs with hr
    · exact hr.symm
    · simpa using hr
  rw [hreport]
  by_cases hb : b = flatBankId p.org a.addrVec
  · subst hb
    simp only [Graphene.activate, Observed.activate, Function.update_self]
    exact hstep
  · simp only [Graphene.activate, Observed.activate, Function.update_of_ne hb]
    exact h.tables b

/-- A tick leaves the rows that are tracked. -/
lemma tick_tracked (p : Graphene) (b : ℤ) : (p.tick.tables b).tracked = (p.tables b).tracked := by
  unfold tick
  dsimp only
  split_ifs <;> rfl

/-- A cycle keeps the tables in step with the observation. -/
theorem Covered.observe {s : Graphene × Observed} (h : Covered s) {request : Option Activation}
    (horder : ∀ a, request = some a →
      a.tableOrder.toFinset = (s.1.tables (flatBankId s.1.org a.addrVec)).tracked) :
    Covered (observe s request) := by
  obtain ⟨p,o⟩ := s
  have ht := h.tick
  unfold Graphene.observe update
  dsimp only
  generalize (if ({ p with clk := p.clk + 1 } : Graphene).isReset = true then ({} : Observed)
    else o) = o' at ht ⊢
  cases request with
  | none => exact ht
  | some a =>
    dsimp only
    cases a.isOpening && a.hasRowScope with
    | false => exact ht
    | true =>
      simp only [if_true]
      rw [← p.tick_framed.1]
      refine ht.activate ?_
      rw [tick_tracked, p.tick_framed.1]
      exact horder a rfl

lemma run_concat (requests : List (Option Activation)) (request : Option Activation) :
    p.run (requests ++ [request]) = observe (p.run requests) request := by
  rw [run, List.foldl_concat]
  rfl

lemma run_framed (requests : List (Option Activation)) : (p.run requests).1.org = p.org ∧
    (p.run requests).1.activationThreshold = p.activationThreshold ∧
    (p.run requests).1.numTableEntries = p.numTableEntries := by
  induction requests using List.reverseRecOn with
  | nil => exact ⟨rfl,rfl,rfl⟩
  | append_singleton requests request ih =>
    rw [run_concat]
    obtain ⟨h1,h2,h3⟩ := update_framed (p.run requests).1 request
    exact ⟨h1.trans ih.1,h2.trans ih.2.1,h3.trans ih.2.2⟩

theorem Covered.run (h : Covered (p,{})) {requests : List (Option Activation)}
    (hv : p.VisitsTables requests) : Covered (p.run requests) := by
  induction requests using List.reverseRecOn with
  | nil => exact h
  | append_singleton requests request ih =>
    rw [run_concat]
    refine (ih fun before a after hr => ?_).observe fun a hr => ?_
    · exact hv before a (after ++ [request]) (by rw [hr, List.append_assoc, List.cons_append])
    · rw [(run_framed requests).1]
      exact hv requests a [] (by rw [hr])

/-- In every run a row of a bank is activated fewer times than the threshold between the refresh
requests for it in a reset period, as long as the bank is activated fewer than so many times in
the period; in any case the row's activations are bounded by the threshold or by one more than
the share of an entry in all activations of the bank. -/
theorem rows_refreshed (org : Organization) (numTableEntries activationThreshold : ℕ)
    (resetPeriodClk numRowsPerBank : ℤ) (requests : List (Option Activation))
    (hv : (setup org numTableEntries activationThreshold resetPeriodClk
      numRowsPerBank).VisitsTables requests) (bank row : ℤ) {o : Observed}
    (ho : o = ((setup org numTableEntries activationThreshold resetPeriodClk
      numRowsPerBank).run requests).2) :
    (o.since bank row < activationThreshold ∨
      (numTableEntries + 1) * (o.since bank row - 1) ≤ o.activations bank) ∧
    (o.activations bank < (numTableEntries + 1) * (activationThreshold - 1) →
      o.since bank row < activationThreshold) := by
  subst ho
  have hc := ((setup_covered org numTableEntries activationThreshold resetPeriodClk
    numRowsPerBank).run hv).tables bank
  obtain ⟨-,hthreshold,hsize⟩ := run_framed (p := setup org numTableEntries activationThreshold
    resetPeriodClk numRowsPerBank) requests
  rw [hthreshold, hsize] at hc
  refine ⟨(hc.since_le row).imp_right fun hle => ?_,fun hfew => hc.since_lt hfew row⟩
  exact (Nat.mul_le_mul_left _ (Nat.sub_le_of_le_add hle)).trans hc.spill_le

lemma visitsTables_concat {requests : List (Option Activation)} (h : p.VisitsTables requests)
    {a : Activation} (horder : a.tableOrder.toFinset =
      ((p.run requests).1.tables (flatBankId p.org a.addrVec)).tracked) :
    p.VisitsTables (requests ++ [some a]) := by
  intro before b after hr
  obtain rfl | ⟨after,last,rfl⟩ := List.eq_nil_or_concat after
  · obtain ⟨rfl,hlast⟩ := List.append_inj' hr rfl
    obtain rfl := Option.some.inj (List.cons.inj hlast).1
    exact horder
  · rw [List.concat_eq_append, ← List.cons_append, ← List.append_assoc] at hr
    exact h before b after (List.append_inj' hr rfl).1

/-- Three activations of one row with two entries and threshold 3 ask for a refresh. -/
theorem threeActivations_rows_refreshed :
    let p := setup ⟨4,4⟩ 2 3 1000 8
    let act (order : List ℤ) : Activation := ⟨true,true,⟨0,0,1,2,5,0⟩,order⟩
    let o := (p.run [some (act [-8,-7]),some (act [5,-7]),some (act [-7,5])]).2
    o.since 6 5 = 0 ∧ o.activations 6 = 3 ∧
      (o.since 6 5 < 3 ∨ (2 + 1) * (o.since 6 5 - 1) ≤ o.activations 6) ∧
      (o.activations 6 < (2 + 1) * (3 - 1) → o.since 6 5 < 3) := by
  refine ⟨by decide,by decide,?_⟩
  refine rows_refreshed ⟨4,4⟩ 2 3 1000 8 _ ?_ 6 5 rfl
  refine @visitsTables_concat _ [_,_] (@visitsTables_concat _ [_]
    (@visitsTables_concat _ [] ?_ _ ?_) _ ?_) _ ?_
  · exact fun before a after hr => absurd hr (by simp)
  all_goals decide

end Graphene
end CaLabs.Lab5
