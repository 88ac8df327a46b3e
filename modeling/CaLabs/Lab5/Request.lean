import Mathlib.Data.Int.Notation
import Mathlib.Data.Nat.Notation

/-! Requests and commands of the memory simulator of lab 5. -/
namespace CaLabs.Lab5

/-- The commands of the DDR4 device. -/
inductive Command where
  | ACT | PRE | PREA | RD | WR | RDA | WRA | REFab
  deriving DecidableEq, Repr

/-- The first two columns of m_command_meta of DDR4. -/
def Command.isOpening : Command → Bool
  | .ACT => true
  | _ => false

def Command.isClosing : Command → Bool
  | .PRE | .PREA | .RDA | .WRA => true
  | _ => false

/-- The address vector over the levels of DDR4; -1 stands for every child. -/
structure AddrVec where
  channel : ℤ
  rank : ℤ
  bankgroup : ℤ
  bank : ℤ
  row : ℤ
  column : ℤ
  deriving DecidableEq, Repr

/-- The components above the row. -/
structure BankAddr where
  channel : ℤ
  rank : ℤ
  bankgroup : ℤ
  bank : ℤ
  deriving DecidableEq, Repr

def AddrVec.rowgroup (a : AddrVec) : BankAddr := ⟨a.channel,a.rank,a.bankgroup,a.bank⟩

inductive RequestType where
  | read | write | allBankRefresh
  deriving DecidableEq, Repr

/-- m_request_translations of DDR4. -/
def RequestType.finalCommand : RequestType → Command
  | .read => .RD
  | .write => .WR
  | .allBankRefresh => .REFab

/-- A request; the source of a refresh is -1. -/
structure Request where
  addrVec : AddrVec
  type : RequestType
  sourceId : ℤ := -1
  command : Command
  finalCommand : Command
  arrive : ℤ := -1
  deriving DecidableEq, Repr

/-- Whether issuing the command completes the request. -/
def Request.completes (r : Request) : Bool := r.command = r.finalCommand

end CaLabs.Lab5
