import CaLabs.Lab2.Cache

/-! The DRAM controller of lab 2. -/
namespace CaLabs.Lab2
open Mips

abbrev numBanks : ℕ := 8
abbrev cmdCycles : Word := 4
abbrev bankBusyCycles : Word := 100
abbrev dataTfCycles : Word := 50
abbrev l2ToMemLatency : Word := 5
abbrev memToL2Latency : Word := 5

instance : NeZero numBanks := ⟨by decide⟩

inductive RowBufferStatus where
  | rowBufferHit | rowBufferMiss | rowBufferConflict
  deriving DecidableEq, Repr

/-- The defaults are the bank after calloc. -/
structure Bank where
  reqStart : Word := 0
  openRow : Word := 0
  hasOpenRow : Bool := false
  numCommands : ℕ := 0
  deriving DecidableEq, Repr

structure MemRequest where
  address : Word := 0
  arrivalCycle : Word := 0
  fromMemStage : Bool := false
  mshr : Fin numMshr := 0
  valid : Bool := false
  deriving DecidableEq, Repr

/-- The length of the queue is queue_capacity. -/
structure MemController where
  queue : List MemRequest
  queueSize : ℕ := 0
  banks : Fin numBanks → Bank := fun _ => {}

def initMemoryController (queueCapacity : ℕ) : MemController where
  queue := List.replicate queueCapacity {}

/-- Bits 7 to 5. -/
def getBankIndex (address : Word) : Fin numBanks := (address.extractLsb' 5 3).toFin

/-- Bits 31 to 16. -/
def getRowIndex (address : Word) : Word := address >>> 16

def getRowBufferStatus (bank : Bank) (row : Word) : RowBufferStatus :=
  if !bank.hasOpenRow then .rowBufferMiss
  else if bank.openRow = row then .rowBufferHit
  else .rowBufferConflict

/-- Read or write; activate first; precharge and activate first. -/
def commandsFor : RowBufferStatus → ℕ
  | .rowBufferHit => 1
  | .rowBufferMiss => 2
  | .rowBufferConflict => 3

/-- The number of DRAM commands a request to the address needs now. -/
def numCommands (mc : MemController) (address : Word) : ℕ :=
  commandsFor (getRowBufferStatus (mc.banks (getBankIndex address)) (getRowIndex address))

/-- The test !(end1 < start2 || start1 > end2) on unsigned cycle numbers. -/
def overlaps (start1 end1 start2 end2 : Word) : Bool := !(end1 < start2 || start1 > end2)

/-- First cycle of command k of a request that starts in cycle t. -/
def cmdStart (t : Word) (k : ℕ) : Word := t + BitVec.ofNat 32 k * bankBusyCycles

/-- Check 1: no command of the request meets a command of any bank's last request. -/
def cmdBusFree (mc : MemController) (commands : ℕ) (currCycle : Word) : Bool :=
  (List.range commands).all fun ourCmd =>
    (List.finRange numBanks).all fun b =>
      !(mc.banks b).hasOpenRow ||
      (List.range (mc.banks b).numCommands).all fun schedCmd =>
        !overlaps (cmdStart currCycle ourCmd) (cmdStart currCycle ourCmd + cmdCycles - 1)
          (cmdStart (mc.banks b).reqStart schedCmd)
          (cmdStart (mc.banks b).reqStart schedCmd + cmdCycles - 1)

/-- Check 2: the data transfer meets no transfer of any bank's last request. -/
def dataBusFree (mc : MemController) (commands : ℕ) (currCycle : Word) : Bool :=
  (List.finRange numBanks).all fun b =>
    !(mc.banks b).hasOpenRow ||
      !overlaps (cmdStart currCycle commands) (cmdStart currCycle commands + dataTfCycles - 1)
        (cmdStart (mc.banks b).reqStart (mc.banks b).numCommands)
        (cmdStart (mc.banks b).reqStart (mc.banks b).numCommands + dataTfCycles - 1)

/-- Check 3: the bank itself. A used bank is recognised by a nonzero open row. -/
def bankFree (bank : Bank) (commands : ℕ) (currCycle : Word) : Bool :=
  !(bank.openRow ≠ 0 &&
    overlaps currCycle (cmdStart currCycle commands - 1)
      bank.reqStart (cmdStart bank.reqStart bank.numCommands - 1))

def isRequestSchedulable (mc : MemController) (address : Word) (currCycle : Word) : Bool :=
  let commands := numCommands mc address
  cmdBusFree mc commands currCycle && dataBusFree mc commands currCycle &&
    bankFree (mc.banks (getBankIndex address)) commands currCycle

def isRowHit (mc : MemController) (address : Word) : Bool :=
  let bank := mc.banks (getBankIndex address)
  bank.hasOpenRow && bank.openRow == getRowIndex address

/-- Whether the request replaces the best one so far in select_request_to_schedule. -/
def beats (mc : MemController) (curr best : MemRequest) : Bool :=
  let bestIsHit := isRowHit mc best.address
  let currIsHit := isRowHit mc curr.address
  if currIsHit && !bestIsHit then true
  else if bestIsHit && !currIsHit then false
  else if curr.arrivalCycle < best.arrivalCycle then true
  else if curr.arrivalCycle = best.arrivalCycle then curr.fromMemStage && !best.fromMemStage
  else false

/-- One round of the loop of select_request_to_schedule. -/
def considerRequest (mc : MemController) (currentCycle : Word)
    (best : Option (MemRequest × ℕ)) (entry : MemRequest × ℕ) : Option (MemRequest × ℕ) :=
  if !entry.1.valid || currentCycle < entry.1.arrivalCycle then best
  else if !isRequestSchedulable mc entry.1.address currentCycle then best
  else match best with
    | none => some entry
    | some b => if beats mc entry.1 b.1 then some entry else some b

/-- The chosen request with its index in the queue. -/
def selectRequestToSchedule (mc : MemController) (currentCycle : Word) :
    Option (MemRequest × ℕ) :=
  mc.queue.zipIdx.foldl (considerRequest mc currentCycle) none

/-- The bank state and the MSHR after a request has been issued. -/
def issueDramRequest (mc : MemController) (mshrs : MshrFile) (req : MemRequest)
    (currentCycle : Word) : MemController × MshrFile :=
  let commands := numCommands mc req.address
  let fillCompleteCycle := cmdStart currentCycle commands + dataTfCycles + memToL2Latency +
    l2ToMemLatency
  let bank : Bank := { reqStart := currentCycle, openRow := getRowIndex req.address,
                       hasOpenRow := true, numCommands := commands }
  ({ mc with banks := Function.update mc.banks (getBankIndex req.address) bank },
   Function.update mshrs req.mshr { mshrs req.mshr with fillReadyCycle := fillCompleteCycle })

/-- The first loop of memory_controller_cycle. -/
def fillIsReady (m : Mshr) (currentCycle : Word) : Bool :=
  m.valid && !m.done && (0 < m.fillReadyCycle && m.fillReadyCycle ≤ currentCycle)

def markFills (mshrs : MshrFile) (currentCycle : Word) : MshrFile := fun i =>
  if fillIsReady (mshrs i) currentCycle then { mshrs i with done := true } else mshrs i

/-- An L2 miss that has not been queued yet. -/
def isUnqueuedMiss (m : Mshr) : Bool := m.valid && !m.done && m.fillReadyCycle == 0

/-- The request that the second loop builds for an MSHR. -/
def requestFor (mshrs : MshrFile) (i : Fin numMshr) (currentCycle : Word) : MemRequest where
  address := (mshrs i).address
  arrivalCycle := currentCycle
  fromMemStage := !(mshrs i).isIcache
  mshr := i
  valid := true

/-- One round of the second loop of memory_controller_cycle. The MSHR is marked with the
impossible nonzero cycle 1 so that it is not queued again. -/
def queueMiss (currentCycle : Word) (s : MshrFile × MemController) (i : Fin numMshr) :
    Except Abort (MshrFile × MemController) :=
  let (mshrs,mc) := s
  if isUnqueuedMiss (mshrs i) then
    match mc.queue.findIdx? fun r => !r.valid with
    | some j => .ok (Function.update mshrs i { mshrs i with fillReadyCycle := 1 },
        { mc with queue := mc.queue.set j (requestFor mshrs i currentCycle),
                  queueSize := mc.queueSize + 1 })
    | none => .error .memQueueFull
  else .ok s

def queueMisses (mshrs : MshrFile) (mc : MemController) (currentCycle : Word) :
    Except Abort (MshrFile × MemController) :=
  (List.finRange numMshr).foldlM (queueMiss currentCycle) (mshrs,mc)

/-- Schedule at most one request and remove it from the queue. -/
def scheduleRequest (mshrs : MshrFile) (mc : MemController) (currentCycle : Word) :
    MshrFile × MemController :=
  match selectRequestToSchedule mc currentCycle with
  | some (req,j) =>
    let (mc,mshrs) := issueDramRequest mc mshrs req currentCycle
    (mshrs,{ mc with queue := mc.queue.modify j fun r => { r with valid := false },
                     queueSize := mc.queueSize - 1 })
  | none => (mshrs,mc)

/-- The last loop of memory_controller_cycle. -/
def processCompletedFills (mshrs : MshrFile) (mc : MemController) (l2cache : Cache) : Cache :=
  mc.queue.foldl (fun l2cache r =>
    if r.valid && (mshrs r.mshr).done then insertL2Block l2cache r.address else l2cache) l2cache

def memoryControllerCycle (mshrs : MshrFile) (mc : MemController) (l2cache : Cache)
    (currentCycle : Word) : Except Abort (MshrFile × MemController × Cache) := do
  let (mshrs,mc) ← queueMisses (markFills mshrs currentCycle) mc currentCycle
  let (mshrs,mc) := scheduleRequest mshrs mc currentCycle
  .ok (mshrs,mc,processCompletedFills mshrs mc l2cache)

end CaLabs.Lab2
