import CaLabs.Pipeline.Stages
import CaLabs.Lab2.MemController
import CaLabs.Lib.Runs

/-! The pipeline of lab 2, over any memory system with the interface of cache.h and
mem_controller.h, and the memory system of the repository. -/
namespace CaLabs.Lab2
open Mips Pipeline

/-- The calls of pipe.c into the caches and the memory controller. The flag selects
`icache` rather than `dcache`, the word before the address is stat_cycles. -/
structure MemSystem (σ : Type*) where
  l1CacheAccess : σ → Bool → Word → Word → CacheAccessResult × σ
  checkL1FillReady : σ → Bool → Word → Bool
  completeL1Fill : σ → Bool → Word → σ
  freeMshr : σ → Word → σ
  memoryControllerCycle : σ → Word → Except Abort σ

/-- The pipeline with its miss bookkeeping, the memory system and stat_cycles. -/
structure State (σ : Type*) where
  pipe : PipeState
  sys : σ
  l1FetchMissAddr : Word := 0
  l1FetchWaiting : Bool := false
  l1FetchCancelled : Bool := false
  l1MemMissAddr : Word := 0
  l1MemWaiting : Bool := false
  l1MemCancelled : Bool := false
  statCycles : Word := 0

namespace MemSystem
variable {σ : Type*} (M : MemSystem σ)

/-- l1_cache_access behind its assertion on the address. -/
def access (sys : σ) (isIcache : Bool) (statCycles address : Word) :
    Except Abort (CacheAccessResult × σ) :=
  if WordAligned address then .ok (M.l1CacheAccess sys isIcache statCycles address)
  else .error .unalignedAddress

/-- The cleanup of a cancelled memory miss whose fill has come. -/
def cleanupMem (s : State σ) : State σ :=
  if s.l1MemCancelled && M.checkL1FillReady s.sys false s.l1MemMissAddr then
    { s with sys := M.freeMshr s.sys s.l1MemMissAddr, l1MemCancelled := false,
             l1MemMissAddr := 0 }
  else s

/-- The access of pipe_stage_mem to the data cache. -/
def accessMem (op : PipeOp) (s : State σ) : Except Abort (State σ) :=
  if op.isMem then do
    let (result,sys) ← M.access s.sys false s.statCycles (wordOf op.memAddr)
    match result with
    | .cacheNoMshr => .error .noFreeMshr
    | .cacheMissWait =>
      .ok { s with sys := sys, l1MemWaiting := true, l1MemMissAddr := wordOf op.memAddr }
    | .cacheHit => .ok { s with sys := sys, pipe := finishMem op s.pipe }
  else .ok { s with pipe := finishMem op s.pipe }

def pipeStageMem (s : State σ) : Except Abort (State σ) :=
  match s.pipe.memOp with
  | none => .ok s
  | some op =>
    if s.l1MemWaiting then
      if M.checkL1FillReady s.sys false s.l1MemMissAddr then
        .ok { s with sys := M.freeMshr (M.completeL1Fill s.sys false s.l1MemMissAddr)
                       s.l1MemMissAddr,
                     l1MemWaiting := false, l1MemMissAddr := 0 }
      else .ok s
    else M.accessMem op (M.cleanupMem s)

/-- The cleanup of a cancelled fetch miss whose fill has come. -/
def cleanupFetch (s : State σ) : State σ :=
  if s.l1FetchCancelled && M.checkL1FillReady s.sys true s.l1FetchMissAddr then
    { s with sys := M.freeMshr s.sys s.l1FetchMissAddr, l1FetchCancelled := false,
             l1FetchMissAddr := 0 }
  else s

/-- The access of pipe_stage_fetch to the instruction cache. -/
def accessFetch (s : State σ) : Except Abort (State σ) := do
  let (result,sys) ← M.access s.sys true s.statCycles s.pipe.pc
  match result with
  | .cacheNoMshr => .error .noFreeMshr
  | .cacheMissWait =>
    .ok { s with sys := sys, l1FetchWaiting := true, l1FetchMissAddr := s.pipe.pc }
  | .cacheHit => .ok { s with sys := sys, pipe := finishFetch s.pipe }

def pipeStageFetch (s : State σ) : Except Abort (State σ) :=
  if s.pipe.decodeOp.isSome then .ok s
  else if s.l1FetchWaiting then
    if M.checkL1FillReady s.sys true s.l1FetchMissAddr then
      .ok { s with sys := M.freeMshr (M.completeL1Fill s.sys true s.l1FetchMissAddr)
                     s.l1FetchMissAddr,
                   l1FetchWaiting := false, l1FetchMissAddr := 0 }
    else .ok s
  else M.accessFetch (M.cleanupFetch s)

/-- The branch recovery of pipe_cycle with the cancellation of pending misses. -/
def recover (s : State σ) : State σ :=
  let cancelMem := s.pipe.branchRecover && (4 ≤ s.pipe.branchFlush) && s.l1MemWaiting
  let cancelFetch := s.pipe.branchRecover && s.l1FetchWaiting
  { s with pipe := recoverBranch s.pipe
           l1MemCancelled := s.l1MemCancelled || cancelMem
           l1MemWaiting := s.l1MemWaiting && !cancelMem
           l1FetchCancelled := s.l1FetchCancelled || cancelFetch
           l1FetchWaiting := s.l1FetchWaiting && !cancelFetch }

/-- The stages before the fetch stage. -/
def backStages (s : State σ) : Except Abort (State σ) := do
  let s ← M.pipeStageMem { s with pipe := pipeStageWb s.l1FetchWaiting s.pipe }
  .ok { s with pipe := pipeStageDecode (pipeStageExecute s.pipe) }

/-- The part of pipe_cycle before the call of the memory controller. -/
def stages (s : State σ) : Except Abort (State σ) := do
  let s ← M.backStages s
  let s ← M.pipeStageFetch s
  .ok (recover s)

def pipeCycle (s : State σ) : Except Abort (State σ) := do
  let s ← M.stages s
  let sys ← M.memoryControllerCycle s.sys s.statCycles
  .ok { s with sys := sys }

/-- cycle of shell.c. -/
def cycle (s : State σ) : Except Abort (State σ) := do
  let s ← M.pipeCycle s
  .ok { s with statCycles := s.statCycles + 1 }

/-- The shell's loop: it calls cycle while RUN_BIT is set. -/
def machine : Lib.Machine (State σ) Abort Retired where
  step := M.cycle
  running := fun s => s.pipe.runBit
  observe := fun s => s.pipe.retiring

end MemSystem

/-- The caches, MSHRs and controller of the repository. -/
structure Memories where
  icache : Cache
  dcache : Cache
  l2cache : Cache
  mshrs : MshrFile
  controller : MemController

namespace Memories

def l1 (m : Memories) (isIcache : Bool) : Cache := if isIcache then m.icache else m.dcache

def setL1 (m : Memories) (isIcache : Bool) (c : Cache) : Memories :=
  if isIcache then { m with icache := c } else { m with dcache := c }

def l1CacheAccess (m : Memories) (isIcache : Bool) (statCycles address : Word) :
    CacheAccessResult × Memories :=
  let c := m.l1 isIcache
  let set := c.setOf address
  match hitWay (c.sets set) (c.tagOf address) with
  | some b => (.cacheHit,m.setL1 isIcache (c.setBlocks set (updateLru (c.sets set) b)))
  | none =>
    match findMshrForAddress m.mshrs address with
    | some _ => (.cacheMissWait,m)
    | none =>
      let (result,l2cache,mshrs) :=
        l2CacheAccess m.l2cache m.mshrs statCycles isIcache address
      (result,{ m with l2cache := l2cache, mshrs := mshrs })

end Memories

/-- The memory system of lab 2. -/
def memSystem : MemSystem Memories where
  l1CacheAccess := Memories.l1CacheAccess
  checkL1FillReady m _ address := checkL1FillReady m.mshrs address
  completeL1Fill m isIcache address :=
    m.setL1 isIcache (completeL1Fill (m.l1 isIcache) address)
  freeMshr m address := { m with mshrs := freeMshr m.mshrs address }
  memoryControllerCycle m currentCycle := do
    let (mshrs,controller,l2cache) ←
      memoryControllerCycle m.mshrs m.controller m.l2cache currentCycle
    .ok { m with mshrs := mshrs, controller := controller, l2cache := l2cache }

/-- pipe_init. -/
def initialMemories : Memories where
  icache := initialCache icacheSize icacheWays
  dcache := initialCache dcacheSize dcacheWays
  l2cache := initialCache l2cacheSize l2cacheWays
  mshrs := fun _ => {}
  controller := initMemoryController 256

def initialState {σ : Type*} (sys : σ) (mem : Memory) (regs : Reg → Word) (hi lo : Word) :
    State σ where
  pipe := initialPipe mem regs hi lo
  sys := sys

end CaLabs.Lab2
