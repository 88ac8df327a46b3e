import CaLabs.Lab2.DramTiming

/-! The bank test of is_request_schedulable. It recognises a used bank by a nonzero open row, and
so takes a bank with row 0 open for one that was never used. -/
namespace CaLabs.Lab2
open Mips

/-- The bank of the request is busy with some commands in cycle c. -/
def BusyIn (start : Word) (commands c : ℕ) : Prop :=
  start.toNat ≤ c ∧ c < start.toNat + 100 * commands

/-- In some cycle both the new request and the previous one keep the bank busy. -/
def MeetsPrevious (mc : MemController) (address t : Word) : Prop :=
  ∃ c, BusyIn t (numCommands mc address) c ∧
    BusyIn (mc.banks (getBankIndex address)).reqStart
      (mc.banks (getBankIndex address)).numCommands c

/-- A request that is schedulable does not meet the previous one of its bank. -/
def BankExclusion (mc : MemController) (address t : Word) : Prop :=
  isRequestSchedulable mc address t = true →
    (mc.banks (getBankIndex address)).hasOpenRow = true → ¬MeetsPrevious mc address t

/-- Row 0 is open, or one of the two requests is busy beyond the last cycle number. -/
def Unnoticed (mc : MemController) (address t : Word) : Prop :=
  (mc.banks (getBankIndex address)).openRow = 0 ∨
    2 ^ 32 < t.toNat + 100 * numCommands mc address ∨
    2 ^ 32 < (mc.banks (getBankIndex address)).reqStart.toNat +
      100 * (mc.banks (getBankIndex address)).numCommands

/-- The bank is used, the two requests meet, and neither the bank test nor the tests of the buses
notice. -/
structure HiddenReuse (mc : MemController) (address t : Word) : Prop where
  used : (mc.banks (getBankIndex address)).hasOpenRow = true
  meets : MeetsPrevious mc address t
  cmdBus : cmdBusFree mc (numCommands mc address) t = true
  dataBus : dataBusFree mc (numCommands mc address) t = true
  unnoticed : Unnoticed mc address t

section Bank
variable {mc : MemController} {address t : Word}

lemma meetsPrevious_iff : MeetsPrevious mc address t ↔
    0 < (mc.banks (getBankIndex address)).numCommands ∧
    t.toNat < (mc.banks (getBankIndex address)).reqStart.toNat +
      100 * (mc.banks (getBankIndex address)).numCommands ∧
    (mc.banks (getBankIndex address)).reqStart.toNat <
      t.toNat + 100 * numCommands mc address := by
  have hpos := numCommands_pos mc address
  constructor
  · rintro ⟨c,⟨hc,hc'⟩,hs,hs'⟩
    omega
  · rintro ⟨hm,ht,hs⟩
    rcases Nat.le_total t.toNat (mc.banks (getBankIndex address)).reqStart.toNat with hle | hle
    · exact ⟨_,⟨hle,hs⟩,le_rfl,by omega⟩
    · exact ⟨_,⟨le_rfl,by omega⟩,hle,ht⟩

/-- The last cycle of some commands, as the unsigned numbers of the code have it. -/
lemma toNat_lastCycle {k : ℕ} (hpos : 0 < k) (hk : k < 256) :
    (cmdStart t k - 1).toNat = (t.toNat + 100 * k - 1) % 2 ^ 32 := by
  have hk' : k % 2 ^ 32 = k := Nat.mod_eq_of_lt (by omega)
  have h100 : bankBusyCycles.toNat = 100 := rfl
  have h1 : (1 : Word).toNat = 1 := rfl
  have ht := t.isLt
  rw [BitVec.toNat_sub, cmdStart, BitVec.toNat_add, BitVec.toNat_mul, BitVec.toNat_ofNat, h100,
    h1, hk']
  omega

/-- When two requests meet the bank test passes exactly if something keeps it from noticing. -/
lemma bankFree_iff (hcommands : (mc.banks (getBankIndex address)).numCommands < 256)
    (h : MeetsPrevious mc address t) :
    bankFree (mc.banks (getBankIndex address)) (numCommands mc address) t = true ↔
      Unnoticed mc address t := by
  obtain ⟨hm,hbefore,hafter⟩ := meetsPrevious_iff.mp h
  have hpos := numCommands_pos mc address
  have hle := numCommands_le mc address
  unfold bankFree Unnoticed
  generalize mc.banks (getBankIndex address) = bank at *
  by_cases hrow : bank.openRow = 0
  · simp [hrow]
  · have ht := t.isLt
    have hs := bank.reqStart.isLt
    have hov : (!overlaps t (cmdStart t (numCommands mc address) - 1) bank.reqStart
        (cmdStart bank.reqStart bank.numCommands - 1)) = true ↔
        2 ^ 32 < t.toNat + 100 * numCommands mc address ∨
          2 ^ 32 < bank.reqStart.toNat + 100 * bank.numCommands := by
      rw [Bool.not_eq_true', overlaps_eq_false, toNat_lastCycle hpos (by omega),
        toNat_lastCycle hm hcommands]
      omega
    simp only [ne_eq, hrow, not_false_eq_true, decide_true, Bool.true_and, false_or]
    exact hov

end Bank

/-- The exclusion holds for every state of the banks, address and cycle unless a bank with row 0
open, or at the end of the cycle numbers, is reused while neither bus tells. -/
theorem bankExclusion_iff (mc : MemController) (address t : Word)
    (hcommands : (mc.banks (getBankIndex address)).numCommands < 256) :
    BankExclusion mc address t ↔ ¬HiddenReuse mc address t := by
  constructor
  · intro h hidden
    refine h ?_ hidden.used hidden.meets
    rw [isRequestSchedulable, Bool.and_eq_true, Bool.and_eq_true]
    exact ⟨⟨hidden.cmdBus,hidden.dataBus⟩,
      (bankFree_iff hcommands hidden.meets).mpr hidden.unnoticed⟩
  · intro h hs hused hmeets
    rw [isRequestSchedulable, Bool.and_eq_true, Bool.and_eq_true] at hs
    obtain ⟨⟨hcmd,hdata⟩,hbank⟩ := hs
    exact h ⟨hused,hmeets,hcmd,hdata,(bankFree_iff hcommands hmeets).mp hbank⟩

/-- Bank 0 has served one command since cycle 1000 and has row 0 open. -/
def rowZeroOpen : MemController where
  banks := Function.update (fun _ => {}) 0
    { reqStart := 1000, openRow := 0, hasOpenRow := true, numCommands := 1 }
  queue := []

/-- Another request for row 0 in cycle 1060 is let into the busy bank. -/
theorem rowZero_reused : ¬BankExclusion rowZeroOpen 0 1060 := by
  intro h
  refine h (by decide) (by decide) ⟨1060,⟨?_,?_⟩,?_,?_⟩
  all_goals decide

/-- The same with row 1 open. -/
def rowOneOpen : MemController where
  banks := Function.update (fun _ => {}) 0
    { reqStart := 1000, openRow := 1, hasOpenRow := true, numCommands := 1 }
  queue := []

/-- A request for row 1 in cycle 1060 would have both buses, but it is kept out of the bank. -/
theorem rowOne_excluded :
    cmdBusFree rowOneOpen (numCommands rowOneOpen 0x10000) 1060 = true ∧
    dataBusFree rowOneOpen (numCommands rowOneOpen 0x10000) 1060 = true ∧
    MeetsPrevious rowOneOpen 0x10000 1060 ∧
    isRequestSchedulable rowOneOpen 0x10000 1060 = false := by
  have hmeets : MeetsPrevious rowOneOpen 0x10000 1060 := by
    refine ⟨1060,⟨?_,?_⟩,?_,?_⟩
    all_goals decide
  have hexcl : BankExclusion rowOneOpen 0x10000 1060 := by
    refine (bankExclusion_iff rowOneOpen 0x10000 1060 (by decide)).mpr fun hidden => ?_
    exact absurd hidden.unnoticed (by unfold Unnoticed; decide)
  refine ⟨by decide,by decide,hmeets,?_⟩
  exact Bool.eq_false_iff.mpr fun hs => hexcl hs (by decide) hmeets

end CaLabs.Lab2
