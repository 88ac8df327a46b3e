import CaLabs.Lab5.Graphene
import Mathlib.Data.Finmap
import Mathlib.Data.Nat.Log
import Mathlib.Tactic.Linarith
import Mathlib.Tactic.Ring

/-! The Hydra plugin: it counts activations for groups of rows first, then for each row in a table
in memory with a cache, and asks for victim-row refreshes. -/
namespace CaLabs.Lab5

inductive RccPolicy
  | random
  | minCount
  deriving DecidableEq

/-- The parameters of the plugin and the sizes of the device. -/
structure HydraConfig where
  org : Organization
  numRowsPerBank : ℕ
  numCls : ℕ
  trackingThreshold : ℕ
  groupThreshold : ℕ
  rowGroupSize : ℕ := 128
  resetPeriodClk : ℤ
  rccNumPerRank : ℕ := 4096
  rccPolicy : RccPolicy := .random

structure GctEntry where
  groupCount : ℕ := 0
  initialized : Bool := false
  deriving DecidableEq

/-- An issued request as the plugin reads it, with the order in which the iterator goes through
the set of the cache and the number that is drawn for an eviction. -/
structure HydraCommand where
  isOpening : Bool := true
  hasRowScope : Bool := true
  addrVec : AddrVec
  setOrder : List ℕ
  tagIndex : ℕ := 0

/-- The requests that the plugin sends to the controller. -/
inductive HydraRequest
  | victimRowRefresh (addrVec : AddrVec)
  | write (addrVec : AddrVec)
  | read (addrVec : AddrVec)
  deriving DecidableEq

abbrev RccSet := Finmap fun _ : ℕ => ℕ

/-- The tables by flat bank and group or row, and the cache by rank and set. -/
structure Hydra where
  config : HydraConfig
  clk : ℤ := -1
  groupCountTable : ℤ × ℕ → Option GctEntry := fun _ => none
  rowCountTable : ℤ × ℕ → Option ℕ := fun _ => none
  rowCountCache : ℤ × ℕ → RccSet := fun _ => ∅
  rctCountTable : ℤ × ℕ → Option ℕ := fun _ => none

namespace HydraConfig
variable (c : HydraConfig)

def numBanksPerRank : ℤ := c.org.bankgroups * c.org.banks

def rowAddressBits : ℕ := Nat.log2 c.numRowsPerBank

def counterBits : ℕ := (Nat.clog 2 c.trackingThreshold + 7) / 8 * 8

def gctEntriesPerBank : ℕ := c.numRowsPerBank / c.rowGroupSize

def gctIndexBits : ℕ := Nat.log2 c.gctEntriesPerBank

def rccSetNum : ℕ := c.rccNumPerRank / 16

def rccIndexBits : ℕ := Nat.log2 c.rccSetNum

def rccTagRowBits : ℕ := c.rowAddressBits - c.rccIndexBits

def totalRctClSize : ℕ := c.numRowsPerBank * c.counterBits / 512

/-- The quotient is rounded up. -/
def totalRctRowSize : ℕ := (c.totalRctClSize + c.numCls - 1) / c.numCls

def rctPerRow : ℕ := c.numCls * 512 / c.counterBits

def rctPerCl : ℕ := 512 / c.counterBits

def groupRctClSize : ℕ := c.rowGroupSize * c.counterBits / 512

/-- The most significant bits of the row. -/
def gctIndex (row : ℕ) : ℕ := row >>> (c.rowAddressBits - c.gctIndexBits)

/-- The least significant bits of the row. -/
def rccIndex (row : ℕ) : ℕ := row &&& ((1 <<< c.rccIndexBits) - 1)

def rccTag (bank : ℤ) (row : ℕ) : ℕ :=
  row >>> (c.rowAddressBits - c.rccTagRowBits) |||
    (bank % c.numBanksPerRank).toNat <<< c.rccTagRowBits

def generateRowColId (row : ℕ) : ℕ × ℕ :=
  (row / c.rctPerRow,(row % c.rctPerRow * c.counterBits / 512) <<< 3)

/-- The address of the counter of a row. -/
def counterAddr (a : AddrVec) (row : ℕ) : AddrVec :=
  { a with row := (c.generateRowColId row).1, column := (c.generateRowColId row).2 }

/-- The smallest counter is the first that is below the ones before it. -/
def getTagToEvict (set : RccSet) (cmd : HydraCommand) : Option ℕ :=
  match c.rccPolicy with
  | .random => cmd.setOrder[cmd.tagIndex]?
  | .minCount =>
    (cmd.setOrder.foldl (fun best tag =>
      if (set.lookup tag).getD 0 < best.1 then ((set.lookup tag).getD 0,some tag) else best)
      (2 ^ 31 - 1,none)).2

/-- A full set loses an entry, whose counter is written to the memory. -/
def makeRoom (set : RccSet) (index : ℕ) (cmd : HydraCommand) : RccSet × List HydraRequest :=
  if set.keys.card = 16 then
    match c.getTagToEvict set cmd with
    | none => (set,[])
    | some tag =>
      let row := (tag &&& ((1 <<< c.rccTagRowBits) - 1)) <<< c.rccIndexBits ||| index
      let bank := tag >>> c.rccTagRowBits
      (set.erase tag,[.write { c.counterAddr cmd.addrVec row with
        bankgroup := (bank / c.org.banks : ℕ), bank := (bank % c.org.banks : ℕ) }])
  else (set,[])

end HydraConfig

namespace Hydra
variable (p : Hydra)

/-- The rows that hold the row count table have counters of their own. -/
def countRctRow (bank : ℤ) (row : ℕ) (a : AddrVec) : Hydra × List HydraRequest :=
  let count := (p.rctCountTable (bank,row)).getD 0 + 1
  if p.config.trackingThreshold ≤ count then
    ({ p with rctCountTable := Function.update p.rctCountTable (bank,row) none },
      [.victimRowRefresh a])
  else ({ p with rctCountTable := Function.update p.rctCountTable (bank,row) (some count) },[])

def groupEntry (bank : ℤ) (group : ℕ) : GctEntry := (p.groupCountTable (bank,group)).getD {}

/-- The rows of a group get counters with the count of the group. -/
def initializeGroup (bank : ℤ) (group : ℕ) (a : AddrVec) : Hydra × List HydraRequest :=
  if (p.groupEntry bank group).initialized then (p,[])
  else
    let start := group * p.config.rowGroupSize
    ({ p with
        groupCountTable := Function.update p.groupCountTable (bank,group)
          (some { p.groupEntry bank group with initialized := true }),
        rowCountTable := (List.range p.config.rowGroupSize).foldl
          (fun table i => Function.update table (bank,start + i) (some p.config.groupThreshold))
          p.rowCountTable },
      (List.range p.config.groupRctClSize).map fun i =>
        .write (p.config.counterAddr a (start + i * p.config.rctPerCl)))

/-- The counter of a row in the cache, after a miss from the table, and the set it is in. -/
def fetchCounter (bank : ℤ) (row : ℕ) (cmd : HydraCommand) :
    RccSet × ℕ × List HydraRequest :=
  let index := p.config.rccIndex row
  let set := p.rowCountCache (cmd.addrVec.rank,index)
  match set.lookup (p.config.rccTag bank row) with
  | none =>
    let (set,writes) := p.config.makeRoom set index cmd
    (set,(p.rowCountTable (bank,row)).getD 0 + 1,
      writes ++ [.read (p.config.counterAddr cmd.addrVec row)])
  | some count => (set,count + 1,[])

/-- The cache and the table are written together. -/
def countRow (bank : ℤ) (row : ℕ) (cmd : HydraCommand) : Hydra × List HydraRequest :=
  let (set,count,sent) := p.fetchCounter bank row cmd
  let tag := p.config.rccTag bank row
  let write (cached stored : ℕ) : Hydra :=
    { p with
      rowCountCache := Function.update p.rowCountCache
        (cmd.addrVec.rank,p.config.rccIndex row) (set.insert tag cached)
      rowCountTable := Function.update p.rowCountTable (bank,row) (some stored) }
  if p.config.trackingThreshold ≤ count then
    (write 0 0,sent ++ [.victimRowRefresh cmd.addrVec])
  else (write count ((p.rowCountTable (bank,row)).getD 0 + 1),sent)

/-- The branch of update for an activation. -/
def activate (cmd : HydraCommand) : Hydra × List HydraRequest :=
  let bank := Graphene.flatBankId p.config.org cmd.addrVec
  let row := cmd.addrVec.row.toNat
  let group := p.config.gctIndex row
  let entry := p.groupEntry bank group
  if row < p.config.totalRctRowSize then p.countRctRow bank row cmd.addrVec
  else if p.config.groupThreshold ≤ entry.groupCount then
    let (p,writes) := p.initializeGroup bank group cmd.addrVec
    let (p,sent) := p.countRow bank row cmd
    (p,writes ++ sent)
  else
    ({ p with
        groupCountTable := Function.update p.groupCountTable (bank,group)
          (some { entry with groupCount := entry.groupCount + 1 }) },[])

def isReset : Bool := p.clk % p.config.resetPeriodClk = 0

/-- The clock and the reset of update. -/
def tick : Hydra :=
  let p := { p with clk := p.clk + 1 }
  if p.isReset then { config := p.config, clk := p.clk } else p

def update (request : Option HydraCommand) : Hydra × List HydraRequest :=
  match request with
  | some cmd => if cmd.isOpening && cmd.hasRowScope then p.tick.activate cmd else (p.tick,[])
  | none => (p.tick,[])

/-- A cycle of the plugin with an observer, who counts the activations of each row since its last
refresh request, both since the last reset. -/
def observe (s : Hydra × (ℤ × ℕ → ℕ)) (request : Option HydraCommand) : Hydra × (ℤ × ℕ → ℕ) :=
  let since := if { s.1 with clk := s.1.clk + 1 }.isReset then fun _ => 0 else s.2
  let r := s.1.update request
  (r.1,match request with
    | some cmd =>
      if cmd.isOpening && cmd.hasRowScope then
        let place := (Graphene.flatBankId s.1.config.org cmd.addrVec,cmd.addrVec.row.toNat)
        Function.update since place
          (if .victimRowRefresh cmd.addrVec ∈ r.2 then 0 else since place + 1)
      else since
    | none => since)

def run (requests : List (Option HydraCommand)) : Hydra × (ℤ × ℕ → ℕ) :=
  requests.foldl observe (p,fun _ => 0)

end Hydra

/-- The sizes for which the groups and the cache split the bits of a row. -/
structure HydraConfig.Regular (c : HydraConfig) : Prop where
  rows : ∃ n, c.numRowsPerBank = 2 ^ n
  groups : ∃ n, c.rowGroupSize = 2 ^ n
  group_le : c.rowGroupSize ≤ c.numRowsPerBank
  index_le : c.rccIndexBits ≤ c.rowAddressBits
  bankgroups_pos : 0 < c.org.bankgroups
  banks_pos : 0 < c.org.banks

/-- The address is one of the device. -/
structure HydraConfig.InRange (c : HydraConfig) (a : AddrVec) : Prop where
  bank_nonneg : 0 ≤ a.bank
  bank_lt : a.bank < c.org.banks
  bankgroup_nonneg : 0 ≤ a.bankgroup
  bankgroup_lt : a.bankgroup < c.org.bankgroups
  row_nonneg : 0 ≤ a.row
  row_lt : a.row < c.numRowsPerBank

namespace HydraConfig
variable {c : HydraConfig}

lemma Regular.numRows_eq (h : c.Regular) : c.numRowsPerBank = 2 ^ c.rowAddressBits := by
  obtain ⟨n,hn⟩ := h.rows
  rw [rowAddressBits, hn, Nat.log2_two_pow]

lemma Regular.gctIndex_eq (h : c.Regular) (row : ℕ) :
    c.gctIndex row = row / c.rowGroupSize := by
  obtain ⟨r,hr⟩ := h.rows
  obtain ⟨n,hn⟩ := h.groups
  have hle : n ≤ r := by
    have := h.group_le
    rw [hr, hn] at this
    exact (Nat.pow_le_pow_iff_right (by omega)).mp this
  have hbits : c.rowAddressBits - c.gctIndexBits = n := by
    rw [rowAddressBits, gctIndexBits, gctEntriesPerBank, hr, hn, Nat.pow_div hle (by omega),
      Nat.log2_two_pow, Nat.log2_two_pow]
    omega
  rw [gctIndex, hbits, hn, Nat.shiftRight_eq_div_pow]

lemma Regular.numBanks_pos (h : c.Regular) : 0 < c.numBanksPerRank :=
  mul_pos (Int.natCast_pos.mpr h.bankgroups_pos) (Int.natCast_pos.mpr h.banks_pos)

/-- The rank is what the flat bank is divided into. -/
lemma Regular.rank_eq (h : c.Regular) {a : AddrVec} (ha : c.InRange a) :
    Graphene.flatBankId c.org a / c.numBanksPerRank = a.rank := by
  have hlow : a.bank + a.bankgroup * c.org.banks < c.numBanksPerRank := by
    have h1 : (a.bankgroup + 1) * c.org.banks ≤ c.org.bankgroups * c.org.banks :=
      mul_le_mul_of_nonneg_right ha.bankgroup_lt (Int.natCast_nonneg _)
    have h2 := ha.bank_lt
    rw [numBanksPerRank]
    linarith
  have hnonneg : 0 ≤ a.bank + a.bankgroup * c.org.banks :=
    add_nonneg ha.bank_nonneg (mul_nonneg ha.bankgroup_nonneg (Int.natCast_nonneg _))
  have hmul : Graphene.flatBankId c.org a =
      a.bank + a.bankgroup * c.org.banks + c.numBanksPerRank * a.rank := by
    rw [Graphene.flatBankId, numBanksPerRank]
    ring
  rw [hmul, Int.add_mul_ediv_left _ _ (ne_of_gt h.numBanks_pos),
    Int.ediv_eq_zero_of_lt hnonneg hlow, zero_add]

/-- The cache keeps the counters of different rows of a rank apart. -/
lemma Regular.tag_inj (h : c.Regular) {bank bank' : ℤ} {row row' : ℕ}
    (hrow : row < c.numRowsPerBank) (hrow' : row' < c.numRowsPerBank)
    (hrank : bank / c.numBanksPerRank = bank' / c.numBanksPerRank)
    (hindex : c.rccIndex row = c.rccIndex row') (htag : c.rccTag bank row = c.rccTag bank' row') :
    bank = bank' ∧ row = row' := by
  have hle := h.index_le
  have hshift : c.rowAddressBits - c.rccTagRowBits = c.rccIndexBits := by
    rw [rccTagRowBits]
    omega
  have hpow : 2 ^ c.rowAddressBits = 2 ^ c.rccIndexBits * 2 ^ c.rccTagRowBits := by
    rw [← pow_add, rccTagRowBits]
    congr 1
    omega
  rw [h.numRows_eq, hpow] at hrow hrow'
  have hhigh := Nat.div_lt_of_lt_mul hrow
  have hhigh' := Nat.div_lt_of_lt_mul hrow'
  simp only [rccIndex, Nat.one_shiftLeft, Nat.and_two_pow_sub_one_eq_mod] at hindex
  simp only [rccTag, hshift, Nat.shiftRight_eq_div_pow] at htag
  rw [Nat.or_comm, Nat.or_comm (row' / _), ← Nat.shiftLeft_add_eq_or_of_lt hhigh,
    ← Nat.shiftLeft_add_eq_or_of_lt hhigh', Nat.shiftLeft_eq, Nat.shiftLeft_eq] at htag
  have hhighEq : row / 2 ^ c.rccIndexBits = row' / 2 ^ c.rccIndexBits := by
    have := congrArg (· % 2 ^ c.rccTagRowBits) htag
    simpa only [Nat.mul_add_mod_self_right, Nat.mod_eq_of_lt hhigh, Nat.mod_eq_of_lt hhigh']
      using this
  rw [hhighEq] at htag
  have hbank := Nat.eq_of_mul_eq_mul_right (Nat.two_pow_pos _) (Nat.add_right_cancel htag)
  have hmod : bank % c.numBanksPerRank = bank' % c.numBanksPerRank := by
    have h1 := Int.emod_nonneg bank (ne_of_gt h.numBanks_pos)
    have h2 := Int.emod_nonneg bank' (ne_of_gt h.numBanks_pos)
    omega
  constructor
  · rw [← Int.mul_ediv_add_emod bank c.numBanksPerRank, hrank, hmod, Int.mul_ediv_add_emod]
  · rw [← Nat.div_add_mod row (2 ^ c.rccIndexBits), hhighEq, hindex, Nat.div_add_mod]

end HydraConfig

namespace Hydra
variable {p : Hydra} {since : ℤ × ℕ → ℕ} {bank : ℤ} {row : ℕ} {cmd : HydraCommand}

/-- No row is activated so often between its refresh requests. -/
def bound (c : HydraConfig) : ℕ := max c.trackingThreshold (c.groupThreshold + 1)

/-- The row counters of a group are in use. -/
def CountsRows (p : Hydra) (bank : ℤ) (row : ℕ) : Prop :=
  (p.groupEntry bank (p.config.gctIndex row)).initialized = true

/-- The counter that is in use for a row is at least what has been observed of the row, and the
cache agrees with the table. -/
structure Counted (p : Hydra) (since : ℤ × ℕ → ℕ) : Prop where
  rctRow : ∀ bank row, row < p.config.totalRctRowSize →
    (p.rctCountTable (bank,row)).getD 0 = since (bank,row) ∧ since (bank,row) < bound p.config
  group : ∀ bank row, p.config.totalRctRowSize ≤ row → ¬p.CountsRows bank row →
    since (bank,row) ≤ (p.groupEntry bank (p.config.gctIndex row)).groupCount ∧
      (p.groupEntry bank (p.config.gctIndex row)).groupCount ≤ p.config.groupThreshold
  row : ∀ bank row, p.config.totalRctRowSize ≤ row → p.CountsRows bank row →
    since (bank,row) ≤ (p.rowCountTable (bank,row)).getD 0 ∧
      (p.rowCountTable (bank,row)).getD 0 < bound p.config
  started : ∀ bank group, (p.groupEntry bank group).initialized = true →
    p.config.groupThreshold ≤ (p.groupEntry bank group).groupCount
  cached : ∀ bank row n, row < p.config.numRowsPerBank →
    (p.rowCountCache (bank / p.config.numBanksPerRank,p.config.rccIndex row)).lookup
      (p.config.rccTag bank row) = some n →
    p.CountsRows bank row ∧ p.rowCountTable (bank,row) = some n

lemma bound_pos (c : HydraConfig) : 0 < bound c :=
  lt_of_lt_of_le (Nat.succ_pos _) (Nat.le_max_right _ _)

lemma counted_start (c : HydraConfig) (clk : ℤ) :
    Counted { config := c, clk := clk } fun _ => 0 where
  rctRow _ _ _ := ⟨rfl,bound_pos c⟩
  group _ _ _ _ := ⟨Nat.zero_le _,Nat.zero_le _⟩
  row _ _ _ h := absurd h (by simp [CountsRows, groupEntry])
  started _ _ h := absurd h (by simp [groupEntry])
  cached _ _ _ _ h := absurd h (by simp)

/-- A row that holds the table is counted in its own counter only. -/
lemma Counted.writeRct (h : Counted p since) (hrow : row < p.config.totalRctRowSize)
    (v : Option ℕ) (hv : v.getD 0 < bound p.config) :
    Counted { p with rctCountTable := Function.update p.rctCountTable (bank,row) v }
      (Function.update since (bank,row) (v.getD 0)) := by
  have hother : ∀ b r, p.config.totalRctRowSize ≤ r →
      Function.update since (bank,row) (v.getD 0) (b,r) = since (b,r) := by
    intro b r hr
    refine Function.update_of_ne (fun heq => ?_) _ _
    rw [(Prod.mk.inj heq).2] at hr
    omega
  constructor
  · intro b r hr
    by_cases heq : (b,r) = (bank,row)
    · simpa [heq] using hv
    · simpa [Function.update_of_ne heq] using h.rctRow b r hr
  · intro b r hr hc
    rw [hother b r hr]
    exact h.group b r hr hc
  · intro b r hr hc
    rw [hother b r hr]
    exact h.row b r hr hc
  · exact h.started
  · exact h.cached

lemma Counted.countRctRow (h : Counted p since) (hrow : row < p.config.totalRctRowSize)
    (a : AddrVec) : Counted (p.countRctRow bank row a).1 (Function.update since (bank,row)
      (if .victimRowRefresh a ∈ (p.countRctRow bank row a).2 then 0
        else since (bank,row) + 1)) := by
  have hcount := (h.rctRow bank row hrow).1
  unfold Hydra.countRctRow
  dsimp only
  split_ifs with ht hsent hsent
  · exact h.writeRct hrow none (bound_pos _)
  · exact absurd List.mem_cons_self hsent
  · exact absurd hsent List.not_mem_nil
  · rw [hcount] at ht ⊢
    exact h.writeRct hrow (some (since (bank,row) + 1))
      (lt_of_lt_of_le (Nat.lt_of_not_le ht) (Nat.le_max_left _ _))

/-- The loop over the rows of a group writes the entries of its range. -/
lemma foldl_update_range {β : Type*} (table : ℤ × ℕ → β) (bank : ℤ) (start size : ℕ) (v : β)
    (k : ℤ × ℕ) : (List.range size).foldl
      (fun t i => Function.update t (bank,start + i) v) table k =
        if k.1 = bank ∧ start ≤ k.2 ∧ k.2 < start + size then v else table k := by
  induction size with
  | zero => rw [if_neg (by omega)]; rfl
  | succ size ih =>
    rw [List.range_succ, List.foldl_append, List.foldl_cons, List.foldl_nil]
    by_cases hk : k = (bank,start + size)
    · subst hk
      rw [Function.update_self, if_pos ⟨rfl,Nat.le_add_right _ _,by simp⟩]
    · rw [Function.update_of_ne hk, ih]
      congr 1
      obtain ⟨b,r⟩ := k
      have : ¬(b = bank ∧ r = start + size) := fun ⟨h1,h2⟩ => hk (by rw [h1, h2])
      simp only [eq_iff_iff]
      constructor <;> rintro ⟨h1,h2,h3⟩ <;> exact ⟨h1,h2,by omega⟩

lemma groupEntry_update (bank : ℤ) (group : ℕ) (e : GctEntry) (t : ℤ × ℕ → Option ℕ) (b : ℤ)
    (g : ℕ) : groupEntry { p with
      groupCountTable := Function.update p.groupCountTable (bank,group) (some e),
      rowCountTable := t } b g = if b = bank ∧ g = group then e else p.groupEntry b g := by
  unfold groupEntry
  split_ifs with heq
  · simp [heq]
  · have hne : (b,g) ≠ (bank,group) := fun h => heq (Prod.mk.inj h)
    simp [Function.update_of_ne hne]

/-- No activation of a row of the group has been missed when its counters start at the threshold
of the group. -/
lemma Counted.initializeGroup (h : Counted p since) (hreg : p.config.Regular)
    (hcount : p.config.groupThreshold ≤
      (p.groupEntry bank (p.config.gctIndex row)).groupCount) (a : AddrVec) :
    Counted (p.initializeGroup bank (p.config.gctIndex row) a).1 since ∧
      (p.initializeGroup bank (p.config.gctIndex row) a).1.CountsRows bank row ∧
      (p.initializeGroup bank (p.config.gctIndex row) a).1.config = p.config := by
  unfold Hydra.initializeGroup
  dsimp only
  split_ifs with hinit
  · exact ⟨h,hinit,rfl⟩
  set group := p.config.gctIndex row with hgroup
  have hsize : 0 < p.config.rowGroupSize := by
    obtain ⟨n,hn⟩ := hreg.groups
    rw [hn]
    exact Nat.two_pow_pos n
  have hrange : ∀ r, group * p.config.rowGroupSize ≤ r ∧
      r < group * p.config.rowGroupSize + p.config.rowGroupSize ↔ p.config.gctIndex r = group := by
    intro r
    rw [hreg.gctIndex_eq r, Nat.div_eq_iff hsize]
    omega
  set table := (List.range p.config.rowGroupSize).foldl (fun t i => Function.update t
    (bank,group * p.config.rowGroupSize + i) (some p.config.groupThreshold)) p.rowCountTable
  have htable : ∀ b r, table (b,r) = if b = bank ∧ p.config.gctIndex r = group
      then some p.config.groupThreshold else p.rowCountTable (b,r) := by
    intro b r
    refine (foldl_update_range _ bank _ _ _ (b,r)).trans ?_
    simp only [hrange]
  have hentry := groupEntry_update (p := p) bank group
    { p.groupEntry bank group with initialized := true } table
  refine ⟨?_,?_,rfl⟩
  · constructor
    · exact h.rctRow
    · intro b r hr hc
      rw [CountsRows, hentry] at hc
      rw [hentry]
      split_ifs at hc ⊢ with heq
      · exact absurd rfl hc
      · exact h.group b r hr hc
    · intro b r hr hc
      simp only [htable]
      rw [CountsRows, hentry] at hc
      by_cases hin : b = bank ∧ p.config.gctIndex r = group
      · have hold := h.group b r hr (by rw [CountsRows, hin.1, hin.2]; exact hinit)
        rw [if_pos hin]
        refine ⟨?_,lt_of_lt_of_le (Nat.lt_succ_self _) (Nat.le_max_right _ _)⟩
        exact hold.1.trans hold.2
      · rw [if_neg hin] at hc ⊢
        exact h.row b r hr hc
    · intro b g hg
      rw [hentry] at hg ⊢
      split_ifs at hg ⊢ with heq
      · exact hcount
      · exact h.started b g hg
    · intro b r n hr hn
      have hold := h.cached b r n hr hn
      have hout : ¬(b = bank ∧ p.config.gctIndex r = group) := by
        rintro ⟨rfl,hg⟩
        refine hinit ?_
        rw [← hg]
        exact hold.1
      simp only [htable]
      rw [CountsRows, hentry, if_neg hout, if_neg hout]
      exact hold
  · rw [CountsRows, hentry]
    simp [hgroup]

lemma makeRoom_spec (c : HydraConfig) (set : RccSet) (index : ℕ) (cmd : HydraCommand) :
    (∀ tag n, (c.makeRoom set index cmd).1.lookup tag = some n → set.lookup tag = some n) ∧
      ∀ a, .victimRowRefresh a ∉ (c.makeRoom set index cmd).2 := by
  unfold HydraConfig.makeRoom
  split
  · cases c.getTagToEvict set cmd with
    | none => exact ⟨fun _ _ => id,fun _ => List.not_mem_nil⟩
    | some evicted =>
      refine ⟨fun tag n hn => ?_,fun a => by simp⟩
      by_cases heq : tag = evicted
      · rw [heq, Finmap.lookup_erase] at hn
        exact absurd hn (by simp)
      · rwa [Finmap.lookup_erase_ne heq] at hn
  · exact ⟨fun _ _ => id,fun _ => List.not_mem_nil⟩

/-- After a hit or a miss the counter is the one of the table, and an eviction only forgets. -/
lemma fetchCounter_spec (h : Counted p since)
    (hrow : row < p.config.numRowsPerBank)
    (hrank : cmd.addrVec.rank = bank / p.config.numBanksPerRank) :
    (∀ tag n, (p.fetchCounter bank row cmd).1.lookup tag = some n →
      (p.rowCountCache (cmd.addrVec.rank,p.config.rccIndex row)).lookup tag = some n) ∧
    (p.fetchCounter bank row cmd).2.1 = (p.rowCountTable (bank,row)).getD 0 + 1 ∧
    ∀ a, .victimRowRefresh a ∉ (p.fetchCounter bank row cmd).2.2 := by
  have hcached := h.cached bank row
  rw [← hrank] at hcached
  unfold fetchCounter
  dsimp only
  cases hlook : (p.rowCountCache (cmd.addrVec.rank,p.config.rccIndex row)).lookup
      (p.config.rccTag bank row) with
  | none =>
    obtain ⟨hroom,hsent⟩ := makeRoom_spec p.config
      (p.rowCountCache (cmd.addrVec.rank,p.config.rccIndex row)) (p.config.rccIndex row) cmd
    refine ⟨hroom,rfl,fun a ha => ?_⟩
    rcases List.mem_append.mp ha with ha | ha
    · exact hsent a ha
    · simp at ha
  | some n =>
    refine ⟨fun _ _ => id,?_,fun _ => List.not_mem_nil⟩
    rw [(hcached n hrow hlook).2]
    rfl

/-- The cache and the table are written with the same counter. -/
lemma Counted.write (h : Counted p since) (hreg : p.config.Regular)
    (hlow : p.config.totalRctRowSize ≤ row) (hrow : row < p.config.numRowsPerBank)
    (hc : p.CountsRows bank row) {rank : ℤ} (hrank : rank = bank / p.config.numBanksPerRank)
    {set : RccSet} (hset : ∀ tag n, set.lookup tag = some n →
      (p.rowCountCache (rank,p.config.rccIndex row)).lookup tag = some n)
    {v : ℕ} (hv : v < bound p.config) {n : ℕ} (hn : n ≤ v) :
    Counted { p with
      rowCountCache := Function.update p.rowCountCache (rank,p.config.rccIndex row)
        (set.insert (p.config.rccTag bank row) v),
      rowCountTable := Function.update p.rowCountTable (bank,row) (some v) }
      (Function.update since (bank,row) n) := by
  constructor
  · intro b r hr
    rw [Function.update_of_ne]
    · exact h.rctRow b r hr
    · intro heq
      rw [(Prod.mk.inj heq).2] at hr
      exact absurd hr (Nat.not_lt.mpr hlow)
  · intro b r hr hcr
    rw [Function.update_of_ne]
    · exact h.group b r hr hcr
    · intro heq
      obtain ⟨rfl,rfl⟩ := Prod.mk.inj heq
      exact hcr hc
  · intro b r hr hcr
    by_cases heq : (b,r) = (bank,row)
    · simpa [heq] using ⟨hn,hv⟩
    · simpa [Function.update_of_ne heq] using h.row b r hr hcr
  · exact h.started
  · intro b r m hr hm
    by_cases heq : (b,r) = (bank,row)
    · obtain ⟨rfl,rfl⟩ := Prod.mk.inj heq
      simp only [hrank, Function.update_self, Finmap.lookup_insert] at hm
      exact ⟨hc,by rw [← hm]; exact Function.update_self _ _ _⟩
    · -- the entry of another row was there before
      refine (h.cached b r m hr ?_).imp_right fun hm => ?_
      · by_cases hkey : (b / p.config.numBanksPerRank,p.config.rccIndex r) =
            (rank,p.config.rccIndex row)
        · have htag : p.config.rccTag b r ≠ p.config.rccTag bank row := fun htag =>
            heq (Prod.ext_iff.mpr (hreg.tag_inj hr hrow ((Prod.mk.inj hkey).1.trans hrank)
              (Prod.mk.inj hkey).2 htag))
          simp only [hkey, Function.update_self, Finmap.lookup_insert_of_ne _ htag] at hm
          rw [hkey]
          exact hset _ _ hm
        · simpa only [Function.update_of_ne hkey] using hm
      · exact (Function.update_of_ne heq _ _).trans hm

lemma Counted.countRow (h : Counted p since) (hreg : p.config.Regular)
    (hlow : p.config.totalRctRowSize ≤ row) (hrow : row < p.config.numRowsPerBank)
    (hc : p.CountsRows bank row)
    (hrank : cmd.addrVec.rank = bank / p.config.numBanksPerRank) :
    Counted (p.countRow bank row cmd).1 (Function.update since (bank,row)
      (if .victimRowRefresh cmd.addrVec ∈ (p.countRow bank row cmd).2 then 0
        else since (bank,row) + 1)) ∧ (p.countRow bank row cmd).1.config = p.config := by
  obtain ⟨hset,hcount,hsent⟩ := fetchCounter_spec h hrow hrank
  have hsince := (h.row bank row hlow hc).1
  unfold Hydra.countRow
  generalize p.fetchCounter bank row cmd = fetched at *
  obtain ⟨set,count,sent⟩ := fetched
  dsimp only at *
  subst hcount
  by_cases ht : p.config.trackingThreshold ≤ (p.rowCountTable (bank,row)).getD 0 + 1
  · simp only [if_pos ht, if_pos (List.mem_append_right sent List.mem_cons_self)]
    exact ⟨h.write hreg hlow hrow hc hrank hset (bound_pos _) (Nat.le_refl 0),trivial⟩
  · simp only [if_neg ht, if_neg (hsent cmd.addrVec)]
    have hv : (p.rowCountTable (bank,row)).getD 0 + 1 < bound p.config :=
      lt_of_lt_of_le (Nat.lt_of_not_le ht) (Nat.le_max_left _ _)
    exact ⟨h.write hreg hlow hrow hc hrank hset hv (Nat.succ_le_succ hsince),trivial⟩

/-- Below its threshold a group counts the activations of all its rows. -/
lemma Counted.countGroup (h : Counted p since) (hlow : p.config.totalRctRowSize ≤ row)
    (hcount : (p.groupEntry bank (p.config.gctIndex row)).groupCount < p.config.groupThreshold) :
    Counted { p with
      groupCountTable := Function.update p.groupCountTable (bank,p.config.gctIndex row)
        (some { p.groupEntry bank (p.config.gctIndex row) with
          groupCount := (p.groupEntry bank (p.config.gctIndex row)).groupCount + 1 }) }
      (Function.update since (bank,row) (since (bank,row) + 1)) := by
  set group := p.config.gctIndex row
  set entry := p.groupEntry bank group
  have hentry := groupEntry_update (p := p) bank group
    { entry with groupCount := entry.groupCount + 1 } p.rowCountTable
  have hinit : ∀ b g, (groupEntry { p with
      groupCountTable := Function.update p.groupCountTable (bank,group)
        (some { entry with groupCount := entry.groupCount + 1 }) } b g).initialized =
      (p.groupEntry b g).initialized := by
    intro b g
    rw [hentry]
    split_ifs with heq
    · rw [heq.1, heq.2]
    · rfl
  have hnot : ¬entry.initialized = true := fun hi =>
    absurd (h.started bank group hi) (Nat.not_le.mpr hcount)
  constructor
  · intro b r hr
    rw [Function.update_of_ne]
    · exact h.rctRow b r hr
    · intro heq
      rw [(Prod.mk.inj heq).2] at hr
      exact absurd hr (Nat.not_lt.mpr hlow)
  · intro b r hr hc
    rw [CountsRows, hinit] at hc
    have hold := h.group b r hr hc
    rw [hentry]
    split_ifs with hin
    · rw [hin.1, hin.2] at hold
      refine ⟨?_,hcount⟩
      by_cases heq : (b,r) = (bank,row)
      · rw [heq, Function.update_self]
        rw [(Prod.mk.inj heq).2] at hold
        exact Nat.succ_le_succ hold.1
      · rw [Function.update_of_ne heq, hin.1]
        exact hold.1.trans (Nat.le_succ _)
    · rwa [Function.update_of_ne]
      intro heq
      obtain ⟨rfl,rfl⟩ := Prod.mk.inj heq
      exact hin ⟨rfl,rfl⟩
  · intro b r hr hc
    rw [CountsRows, hinit] at hc
    rw [Function.update_of_ne]
    · exact h.row b r hr hc
    · intro heq
      obtain ⟨rfl,rfl⟩ := Prod.mk.inj heq
      exact hnot hc
  · intro b g hg
    rw [hinit] at hg
    rw [hentry]
    split_ifs with hin
    · rw [hin.1, hin.2] at hg
      exact absurd hg hnot
    · exact h.started b g hg
  · intro b r n hr hn
    rw [CountsRows, hinit]
    exact h.cached b r n hr hn

/-- An activation keeps the counters above what is observed. -/
lemma Counted.activate (h : Counted p since) (hreg : p.config.Regular)
    (ha : p.config.InRange cmd.addrVec) :
    let place := (Graphene.flatBankId p.config.org cmd.addrVec,cmd.addrVec.row.toNat)
    Counted (p.activate cmd).1 (Function.update since place
      (if .victimRowRefresh cmd.addrVec ∈ (p.activate cmd).2 then 0 else since place + 1)) ∧
      (p.activate cmd).1.config = p.config := by
  have hrow : cmd.addrVec.row.toNat < p.config.numRowsPerBank := by
    have := ha.row_lt
    have := ha.row_nonneg
    omega
  have hrank := (hreg.rank_eq ha).symm
  unfold Hydra.activate
  dsimp only
  generalize Graphene.flatBankId p.config.org cmd.addrVec = bank at hrank
  generalize cmd.addrVec.row.toNat = row at hrow
  by_cases hrct : row < p.config.totalRctRowSize
  · rw [if_pos hrct]
    refine ⟨h.countRctRow hrct cmd.addrVec,?_⟩
    unfold Hydra.countRctRow
    dsimp only
    split_ifs <;> rfl
  have hlow := Nat.le_of_not_lt hrct
  rw [if_neg hrct]
  by_cases hgroup : p.config.groupThreshold ≤
      (p.groupEntry bank (p.config.gctIndex row)).groupCount
  · rw [if_pos hgroup]
    obtain ⟨hinit,hcounts,hconfig⟩ := h.initializeGroup hreg hgroup cmd.addrVec
    have hwrites : ∀ b, .victimRowRefresh b ∉
        (p.initializeGroup bank (p.config.gctIndex row) cmd.addrVec).2 := by
      intro b
      unfold Hydra.initializeGroup
      dsimp only
      split_ifs <;> simp
    generalize p.initializeGroup bank (p.config.gctIndex row) cmd.addrVec = started at *
    obtain ⟨p',writes⟩ := started
    dsimp only at *
    rw [← hconfig] at hreg hlow hrow hrank
    obtain ⟨hrun,hconfig'⟩ := hinit.countRow hreg hlow hrow hcounts hrank
    refine ⟨?_,hconfig'.trans hconfig⟩
    simpa only [List.mem_append, hwrites, false_or] using hrun
  · rw [if_neg hgroup, if_neg List.not_mem_nil]
    exact ⟨h.countGroup hlow (Nat.lt_of_not_le hgroup),rfl⟩

/-- A reset starts the counters and the observation again. -/
lemma Counted.tick (h : Counted p since) : Counted p.tick
    (if { p with clk := p.clk + 1 }.isReset then fun _ => 0 else since) := by
  unfold Hydra.tick
  dsimp only
  split_ifs
  · exact counted_start _ _
  · exact ⟨h.rctRow,h.group,h.row,h.started,h.cached⟩

lemma tick_config (p : Hydra) : p.tick.config = p.config := by
  unfold tick
  dsimp only
  split_ifs <;> rfl

theorem Counted.observe {s : Hydra × (ℤ × ℕ → ℕ)} (h : Counted s.1 s.2)
    (hreg : s.1.config.Regular) (request : Option HydraCommand)
    (hr : ∀ cmd, request = some cmd → s.1.config.InRange cmd.addrVec) :
    Counted (observe s request).1 (observe s request).2 ∧
      (observe s request).1.config = s.1.config := by
  obtain ⟨p,since⟩ := s
  have ht := h.tick
  unfold Hydra.observe update
  dsimp only at *
  generalize (if ({ p with clk := p.clk + 1 } : Hydra).isReset = true then (fun _ => 0 : ℤ × ℕ → ℕ)
    else since) = since' at ht ⊢
  cases request with
  | none => exact ⟨ht,p.tick_config⟩
  | some cmd =>
    by_cases hop : (cmd.isOpening && cmd.hasRowScope) = true
    · have ha := hr cmd rfl
      rw [← p.tick_config] at hreg ha ⊢
      simp only [if_pos hop]
      exact ht.activate hreg ha
    · simp only [if_neg hop]
      exact ⟨ht,p.tick_config⟩

lemma run_concat (requests : List (Option HydraCommand)) (request : Option HydraCommand) :
    p.run (requests ++ [request]) = observe (p.run requests) request := by
  rw [run, List.foldl_concat]
  rfl

theorem Counted.run (h : Counted p fun _ => 0) (hreg : p.config.Regular)
    {requests : List (Option HydraCommand)}
    (hr : ∀ cmd, some cmd ∈ requests → p.config.InRange cmd.addrVec) :
    Counted (p.run requests).1 (p.run requests).2 ∧ (p.run requests).1.config = p.config := by
  induction requests using List.reverseRecOn with
  | nil => exact ⟨h,rfl⟩
  | append_singleton requests request ih =>
    obtain ⟨hrun,hconfig⟩ := ih fun cmd hc => hr cmd (List.mem_append_left _ hc)
    rw [run_concat]
    rw [← hconfig] at hreg
    obtain ⟨hnext,hconfig'⟩ := hrun.observe hreg request fun cmd hc => by
      rw [hconfig]
      exact hr cmd (List.mem_append_right _ (List.mem_singleton.mpr hc.symm))
    exact ⟨hnext,hconfig'.trans hconfig⟩

/-- In every run a row is activated fewer times between its refresh requests in a reset period
than the tracking threshold, or at most the group threshold if that is greater, whatever the
cache evicts. -/
theorem rows_counted (c : HydraConfig) (hreg : c.Regular) (requests : List (Option HydraCommand))
    (hr : ∀ cmd, some cmd ∈ requests → c.InRange cmd.addrVec) (bank : ℤ) (row : ℕ) :
    (run { config := c } requests).2 (bank,row) <
      max c.trackingThreshold (c.groupThreshold + 1) := by
  obtain ⟨hc,hconfig⟩ := (counted_start c (-1)).run hreg hr
  have hbound : bound (run { config := c } requests).1.config = bound c := by rw [hconfig]
  rw [← bound, ← hbound]
  by_cases hrct : row < (run { config := c } requests).1.config.totalRctRowSize
  · exact (hc.rctRow bank row hrct).2
  · have hlow := Nat.le_of_not_lt hrct
    by_cases hcounts : (run { config := c } requests).1.CountsRows bank row
    · have hrow := hc.row bank row hlow hcounts
      exact lt_of_le_of_lt hrow.1 hrow.2
    · have hgroup := hc.group bank row hlow hcounts
      exact lt_of_le_of_lt (hgroup.1.trans hgroup.2)
        (lt_of_lt_of_le (Nat.lt_succ_self _) (Nat.le_max_right _ _))

/-- Four banks of 128 rows in groups of 4, with a cache of two sets. -/
def smallConfig : HydraConfig where
  org := ⟨2,2⟩
  numRowsPerBank := 128
  numCls := 1
  trackingThreshold := 4
  groupThreshold := 2
  rowGroupSize := 4
  resetPeriodClk := 1000
  rccNumPerRank := 32

lemma smallConfig_regular : smallConfig.Regular where
  rows := ⟨7,rfl⟩
  groups := ⟨2,rfl⟩
  group_le := by decide
  index_le := by decide
  bankgroups_pos := by decide
  banks_pos := by decide

/-- Activations of row 5 in the last bank of the first rank. -/
def rowFive : Option HydraCommand := some { addrVec := ⟨0,0,1,1,5,0⟩, setOrder := [] }

lemma rowFive_inRange {n : ℕ} (cmd : HydraCommand) (h : some cmd ∈ List.replicate n rowFive) :
    smallConfig.InRange cmd.addrVec := by
  obtain rfl := Option.some.inj (List.eq_of_mem_replicate h)
  constructor <;> decide

/-- The group counts two activations and the row the third. -/
theorem rowFive_rows_counted :
    (run { config := smallConfig } (List.replicate 3 rowFive)).2 (3,5) = 3 ∧
      (run { config := smallConfig } (List.replicate 3 rowFive)).2 (3,5) < max 4 (2 + 1) :=
  ⟨by decide,rows_counted smallConfig smallConfig_regular _ rowFive_inRange 3 5⟩

/-- The fourth activation asks for a refresh. -/
example : (run { config := smallConfig } (List.replicate 4 rowFive)).2 (3,5) = 0 := by decide

/-- In every run a counter in the cache is the one in the table of its row. -/
theorem cached_counters_current (c : HydraConfig) (hreg : c.Regular)
    (requests : List (Option HydraCommand))
    (hr : ∀ cmd, some cmd ∈ requests → c.InRange cmd.addrVec) {p : Hydra}
    (hp : p = (run { config := c } requests).1) (bank : ℤ) {row : ℕ}
    (hrow : row < c.numRowsPerBank) {count : ℕ}
    (hcount : (p.rowCountCache (bank / c.numBanksPerRank,c.rccIndex row)).lookup
      (c.rccTag bank row) = some count) :
    p.rowCountTable (bank,row) = some count := by
  subst hp
  obtain ⟨hc,hconfig⟩ := (counted_start c (-1)).run hreg hr
  have hcached := hc.cached bank row count
  rw [hconfig] at hcached
  exact (hcached hrow hcount).2

theorem rowFive_cached_counters_current :
    (run { config := smallConfig } (List.replicate 3 rowFive)).1.rowCountTable (3,5) = some 3 :=
  cached_counters_current smallConfig smallConfig_regular (List.replicate 3 rowFive)
    rowFive_inRange rfl 3 (by decide) (by decide)

end Hydra
end CaLabs.Lab5
