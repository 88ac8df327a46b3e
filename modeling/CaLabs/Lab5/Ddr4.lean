import CaLabs.Lab5.Request

/-! The DDR4 device as its commands see it: the row that is open in each bank. -/
namespace CaLabs.Lab5

/-- The number of bankgroups of a rank and of banks of a bankgroup. -/
structure Organization where
  bankgroups : ℕ
  banks : ℕ

/-- m_state and m_row_state of the banks: the open row, or none if the bank is closed. -/
abbrev BankRows := BankAddr → Option ℤ

variable (org : Organization)

/-- A bank of the rank is not closed. -/
def openInRank (rows : BankRows) (channel rank : ℤ) : Bool :=
  (List.range org.bankgroups).any fun g =>
    (List.range org.banks).any fun b => (rows ⟨channel,rank,g,b⟩).isSome

/-- get_preq_command: RequireRowOpen for RD and WR in the bank, RequireAllBanksClosed for
REFab in the rank. -/
def getPreqCommand (rows : BankRows) (command : Command) (a : AddrVec) : Command :=
  match command with
  | .RD | .WR =>
    match rows a.rowgroup with
    | none => .ACT
    | some row => if row = a.row then command else .PRE
  | .REFab => if openInRank org rows a.channel a.rank then .PREA else command
  | _ => command

/-- The actions of issue_command. -/
def issueCommand (rows : BankRows) (command : Command) (a : AddrVec) : BankRows :=
  match command with
  | .ACT => fun b => if b = a.rowgroup then some a.row else rows b
  | .PRE | .RDA | .WRA => fun b => if b = a.rowgroup then none else rows b
  | .PREA => fun b => if b.channel = a.channel ∧ b.rank = a.rank then none else rows b
  | .RD | .WR | .REFab => rows

variable {org}

lemma openInRank_iff {rows : BankRows} {channel rank : ℤ} :
    openInRank org rows channel rank = true ↔ ∃ g < org.bankgroups, ∃ b < org.banks,
      (rows ⟨channel,rank,g,b⟩).isSome = true := by
  simp [openInRank]

/-- What the command of a read or write says about its bank. -/
lemma getPreqCommand_access (org : Organization) (rows : BankRows) {final : Command}
    (a : AddrVec) (hf : final = .RD ∨ final = .WR) :
    (getPreqCommand org rows final a = .ACT ∧ rows a.rowgroup = none) ∨
    (getPreqCommand org rows final a = final ∧ rows a.rowgroup = some a.row) ∨
    (getPreqCommand org rows final a = .PRE ∧ ∃ row ≠ a.row, rows a.rowgroup = some row) := by
  have hdef : getPreqCommand org rows final a = match rows a.rowgroup with
      | none => .ACT
      | some row => if row = a.row then final else .PRE := by
    rcases hf with rfl | rfl <;> rfl
  rw [hdef]
  cases hrow : rows a.rowgroup with
  | none => exact .inl ⟨rfl,rfl⟩
  | some row =>
    by_cases hr : row = a.row
    · exact .inr (.inl ⟨if_pos hr,by rw [hr]⟩)
    · exact .inr (.inr ⟨if_neg hr,row,hr,rfl⟩)

/-- The refresh that the manager sends to a rank. -/
def refreshRequest (channel rank : ℤ) : Request where
  addrVec := ⟨channel,rank,-1,-1,-1,-1⟩
  type := .allBankRefresh
  command := .REFab
  finalCommand := .REFab

/-- A read or write, or a refresh of the manager, with the command that the device asks for. -/
structure IssuedOn (org : Organization) (rows : BankRows) (r : Request) : Prop where
  command : r.command = getPreqCommand org rows r.finalCommand r.addrVec
  final : r.finalCommand = r.type.finalCommand
  refresh : r.type = .allBankRefresh → r.addrVec.bankgroup = -1

/-- The commands of the controller and when they are issued. -/
lemma IssuedOn.cases {rows : BankRows} {r : Request} (h : IssuedOn org rows r) :
    (r.command = .ACT ∧ rows r.addrVec.rowgroup = none) ∨
    (r.command = .PRE ∧ (rows r.addrVec.rowgroup).isSome = true) ∨
    (r.command = .PREA ∧ r.addrVec.bankgroup = -1 ∧
      openInRank org rows r.addrVec.channel r.addrVec.rank = true) ∨
    (r.command = .RD ∨ r.command = .WR ∨ r.command = .REFab) := by
  have hc := h.command
  have hf := h.final
  cases ht : r.type with
  | allBankRefresh =>
    rw [ht] at hf
    rw [hf] at hc
    by_cases hopen : openInRank org rows r.addrVec.channel r.addrVec.rank = true
    · exact .inr (.inr (.inl ⟨hc.trans (if_pos hopen),h.refresh ht,hopen⟩))
    · exact .inr (.inr (.inr (.inr (.inr (hc.trans (if_neg hopen))))))
  | read =>
    rw [ht] at hf
    rcases getPreqCommand_access org rows r.addrVec
      (show r.finalCommand = .RD ∨ r.finalCommand = .WR from .inl hf) with
      ⟨he,hr⟩ | ⟨he,-⟩ | ⟨he,row,-,hr⟩
    · exact .inl ⟨hc.trans he,hr⟩
    · exact .inr (.inr (.inr (.inl (hc.trans (he.trans hf)))))
    · exact .inr (.inl ⟨hc.trans he,by rw [hr]; rfl⟩)
  | write =>
    rw [ht] at hf
    rcases getPreqCommand_access org rows r.addrVec
      (show r.finalCommand = .RD ∨ r.finalCommand = .WR from .inr hf) with
      ⟨he,hr⟩ | ⟨he,-⟩ | ⟨he,row,-,hr⟩
    · exact .inl ⟨hc.trans he,hr⟩
    · exact .inr (.inr (.inr (.inr (.inl (hc.trans (he.trans hf))))))
    · exact .inr (.inl ⟨hc.trans he,by rw [hr]; rfl⟩)

end CaLabs.Lab5
