import Mathlib.Logic.Function.Basic
import Mathlib.Tactic.Ring

/-! A level of the cache hierarchy between its upper levels and the lower one: tag checks, the
requests that wait for a line, the responses of the lower level, and fills. -/
namespace CaLabs.Lab4

inductive AccessType
  | load
  | rfo
  | prefetch
  | write
  | translation
  deriving DecidableEq, Repr

structure CacheBlock where
  valid : Bool := false
  isPrefetch : Bool := false
  dirty : Bool := false
  address : ℕ := 0
  vAddress : ℕ := 0
  data : ℕ := 0
  deriving DecidableEq, Repr

/-- A packet in a tag check. The channels to which a response is due are those of the upper levels,
so that a prefetch of this level has none. -/
structure TagLookup where
  address : ℕ
  vAddress : ℕ := 0
  type : AccessType
  prefetchFromThis : Bool := false
  skipFill : Bool := false
  instrDependOnMe : List ℕ := []
  toReturn : List ℕ := []
  local_toReturn : prefetchFromThis = true → toReturn = [] := by simp
  deriving DecidableEq, Repr

structure Response where
  address : ℕ
  vAddress : ℕ
  data : ℕ
  instrDependOnMe : List ℕ
  deriving DecidableEq, Repr

/-- The promise holds the data and the time at which it is ready, once that is known. -/
structure MshrEntry where
  address : ℕ
  vAddress : ℕ
  type : AccessType
  prefetchFromThis : Bool
  timeEnqueued : ℕ
  instrDependOnMe : List ℕ
  toReturn : List ℕ
  dataPromise : Option (ℕ × ℕ) := none
  deriving DecidableEq, Repr

/-- A round of set_union with the first element of the first range. -/
def setUnionCons (x : ℕ) (xs : List ℕ) (rest : List ℕ → List ℕ) : List ℕ → List ℕ
  | [] => x :: xs
  | y :: ys =>
    if x < y then x :: rest (y :: ys)
    else if y < x then y :: setUnionCons x xs rest ys
    else x :: rest ys

/-- The merge of two sorted ranges that keeps one of equal elements. -/
def setUnion : List ℕ → List ℕ → List ℕ
  | [],ys => ys
  | x :: xs,ys => setUnionCons x xs (setUnion xs) ys

namespace MshrEntry

def ofLookup (pkt : TagLookup) (timeEnqueued : ℕ) : MshrEntry where
  address := pkt.address
  vAddress := pkt.vAddress
  type := pkt.type
  prefetchFromThis := pkt.prefetchFromThis
  timeEnqueued := timeEnqueued
  instrDependOnMe := pkt.instrDependOnMe
  toReturn := pkt.toReturn

/-- A demand takes a prefetch over. -/
def merge (predecessor successor : MshrEntry) : MshrEntry :=
  { (if successor.type = .prefetch then predecessor else successor) with
    timeEnqueued :=
      if successor.type ≠ .prefetch ∧ predecessor.type = .prefetch then successor.timeEnqueued
      else predecessor.timeEnqueued
    instrDependOnMe := setUnion predecessor.instrDependOnMe successor.instrDependOnMe
    toReturn := setUnion predecessor.toReturn successor.toReturn
    dataPromise := predecessor.dataPromise }

def hasUnknownReadiness (e : MshrEntry) : Bool := e.dataPromise.isNone

def isReadyAt (e : MshrEntry) (time : ℕ) : Bool := e.dataPromise.any fun d => decide (d.2 ≤ time)

/-- The data that was returned; a write has none of its own. -/
def data (e : MshrEntry) : ℕ := (e.dataPromise.map Prod.fst).getD 0

def response (e : MshrEntry) : Response := ⟨e.address,e.vAddress,e.data,e.instrDependOnMe⟩

end MshrEntry

structure CacheConfig where
  offsetBits : ℕ
  numSet : ℕ
  mshrSize : ℕ
  fillLatency : ℕ
  matchOffsetBits : Bool := false

/-- The requests to the lower level are those that ask for a response and have none; `returned` is
all that was pushed to the channels of the upper levels. -/
structure CacheLevel where
  block : ℕ → List CacheBlock
  mshr : List MshrEntry := []
  inflightWrites : List MshrEntry := []
  returned : List (ℕ × Response) := []
  lowerLevel : List ℕ := []
  writebacks : List ℕ := []
  currentTime : ℕ := 0
  warmup : Bool := false

namespace CacheLevel
variable (c : CacheConfig) (s : CacheLevel)

/-- matches_address compares these. -/
def line (address : ℕ) : ℕ := address / 2^c.offsetBits

def setIndex (address : ℕ) : ℕ := line c address % c.numSet

/-- The time at which data that arrives now is ready. -/
def readyTime : ℕ := s.currentTime + if s.warmup then 0 else c.fillLatency

def tryHit (pkt : TagLookup) : CacheLevel × Bool :=
  let set := setIndex c pkt.address
  let hits (b : CacheBlock) : Bool := b.valid && decide (line c b.address = line c pkt.address)
  match (s.block set).find? hits with
  | none => (s,false)
  | some b =>
    let way := (s.block set).findIdx hits
    let b' := { b with
      dirty := b.dirty || decide (pkt.type = .write)
      isPrefetch := b.isPrefetch && pkt.prefetchFromThis }
    let response : Response := ⟨pkt.address,pkt.vAddress,b.data,pkt.instrDependOnMe⟩
    ({ s with
      block := Function.update s.block set ((s.block set).set way b')
      returned := s.returned ++ pkt.toReturn.map (·,response) },true)

/-- Whether the request that is forwarded asks for a response. -/
def responseRequested (pkt : TagLookup) : Bool := !pkt.prefetchFromThis || !pkt.skipFill

/-- `accepts` is whether the queue of the lower level takes the request. -/
def handleMiss (pkt : TagLookup) (accepts : Bool) : CacheLevel × Bool :=
  let toAllocate := MshrEntry.ofLookup pkt s.currentTime
  match s.mshr.findIdx? fun e => decide (line c e.address = line c pkt.address) with
  | some i => ({ s with mshr := s.mshr.modify i fun e => e.merge toAllocate },true)
  | none =>
    if s.mshr.length = c.mshrSize || !accepts then (s,false)
    else if responseRequested pkt then
      ({ s with mshr := s.mshr ++ [toAllocate], lowerLevel := s.lowerLevel ++ [pkt.address] },true)
    else (s,true)

def handleWrite (pkt : TagLookup) : CacheLevel × Bool :=
  let toAllocate := { MshrEntry.ofLookup pkt s.currentTime with
    dataPromise := some (0,s.readyTime c) }
  ({ s with inflightWrites := s.inflightWrites ++ [toAllocate] },true)

/-- Writes of lines are treated like fills. -/
def doHandleMiss (pkt : TagLookup) (accepts : Bool) : CacheLevel × Bool :=
  if pkt.type = .write ∧ c.matchOffsetBits = false then s.handleWrite c pkt
  else s.handleMiss c pkt accepts

/-- No result if no entry matches, or if no entry is unreturned. The entry is ordered after those
returned before. -/
def finishPacket (address data : ℕ) : Option CacheLevel := do
  let i ← s.mshr.findIdx? fun e => decide (line c e.address = line c address)
  let firstUnreturned ← s.mshr.findIdx? MshrEntry.hasUnknownReadiness
  let e ← s.mshr[i]?
  let f ← s.mshr[firstUnreturned]?
  let e := { e with dataPromise := some (data,s.readyTime c) }
  some { s with mshr := (s.mshr.set i f).set firstUnreturned e }

def fillBlock (e : MshrEntry) : CacheBlock where
  valid := true
  isPrefetch := e.prefetchFromThis
  dirty := decide (e.type = .write)
  address := e.address
  vAddress := e.vAddress
  data := e.data

/-- The replacement chooses the victim, or the end of the set to bypass it; no result if an
assertion fails. -/
def handleFill (e : MshrEntry) (victim : ℕ) (accepts : Bool) : Option (CacheLevel × Bool) :=
  let set := setIndex c e.address
  let way := ((s.block set).findIdx? fun b => !b.valid).getD victim
  let returned := s.returned ++ e.toReturn.map (·,e.response)
  match (s.block set)[way]? with
  | none =>
    if way = (s.block set).length ∧ e.type ≠ .write then some ({ s with returned },true) else none
  | some b =>
    if b.valid && b.dirty && !accepts then some (s,false)
    else some ({ s with
      block := Function.update s.block set ((s.block set).set way (fillBlock e))
      returned
      writebacks := if b.valid && b.dirty then s.writebacks ++ [b.address] else s.writebacks },true)

end CacheLevel

/-- What operate does in a cycle, one packet at a time, and the answer of the lower level to one of
its requests, with an address of the line. -/
inductive CacheEvent
  | tick (warmup : Bool)
  | respond (request address data : ℕ)
  | fillMshr (victim : ℕ) (accepts : Bool)
  | fillWrite (victim : ℕ) (accepts : Bool)
  | check (pkt : TagLookup)
  | miss (pkt : TagLookup) (accepts : Bool)

/-- The packet that is checked or missed. -/
def CacheEvent.packet : CacheEvent → Option TagLookup
  | .check pkt => some pkt
  | .miss pkt _ => some pkt
  | _ => none

namespace CacheLevel
variable (c : CacheConfig) (s : CacheLevel)

/-- The result is whether a packet or a fill is finished. -/
def step : CacheEvent → Option (CacheLevel × Bool)
  | .tick warmup => some ({ s with currentTime := s.currentTime + 1, warmup },false)
  | .respond request address data =>
    if (s.lowerLevel.map (line c))[request]? = some (line c address) then
      (finishPacket c { s with lowerLevel := s.lowerLevel.eraseIdx request } address data).map
        (·,false)
    else some (s,false)
  | .fillMshr victim accepts =>
    match s.mshr with
    | [] => some (s,false)
    | e :: rest =>
      if e.isReadyAt s.currentTime then
        (s.handleFill c e victim accepts).map fun r =>
          (if r.2 then { r.1 with mshr := rest } else r.1,r.2)
      else some (s,false)
  | .fillWrite victim accepts =>
    match s.inflightWrites with
    | [] => some (s,false)
    | e :: rest =>
      if e.isReadyAt s.currentTime then
        (s.handleFill c e victim accepts).map fun r =>
          (if r.2 then { r.1 with inflightWrites := rest } else r.1,r.2)
      else some (s,false)
  | .check pkt => some (s.tryHit c pkt)
  | .miss pkt accepts => some (s.doHandleMiss c pkt accepts)

end CacheLevel

/-- A level with the packets that were finished by a hit or taken as a miss, each with the number of
responses before it. -/
structure ObservedLevel where
  level : CacheLevel
  accepted : List (TagLookup × ℕ) := []

namespace ObservedLevel
variable (c : CacheConfig) (o : ObservedLevel)

def step (event : CacheEvent) : Option ObservedLevel :=
  (o.level.step c event).map fun (level,done) =>
    { level
      accepted :=
        match if done then event.packet else none with
        | some pkt => o.accepted ++ [(pkt,o.level.returned.length)]
        | none => o.accepted }

/-- No result if an assertion fails. -/
def run (events : List CacheEvent) : Option ObservedLevel := events.foldlM (step c) o

end ObservedLevel
end CaLabs.Lab4
