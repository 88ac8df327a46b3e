import CaLabs.Cache

/-! The caches and miss status holding registers of lab 2. -/
namespace CaLabs.Lab2
open Mips

abbrev blockSize : BitVec 8 := 32
abbrev icacheSize : Word := 8 * 1024
abbrev icacheWays : BitVec 8 := 4
abbrev dcacheSize : Word := 64 * 1024
abbrev dcacheWays : BitVec 8 := 8
abbrev l2cacheSize : Word := 256 * 1024
abbrev l2cacheWays : BitVec 8 := 16
abbrev l2HitLatency : Word := 15
abbrev numMshr : ℕ := 16

instance : NeZero numMshr := ⟨by decide⟩

inductive CacheAccessResult where
  | cacheHit | cacheMissWait | cacheNoMshr
  deriving DecidableEq, Repr

/-- The assertions of lab 2 that end the simulation. -/
inductive Abort where
  | unalignedAddress | noFreeMshr | memQueueFull
  deriving DecidableEq, Repr

structure Mshr where
  address : Word := 0
  valid : Bool := false
  done : Bool := false
  fillReadyCycle : Word := 0
  isIcache : Bool := false
  deriving DecidableEq, Repr

/-- The array mshrs; a pointer into it is an index. -/
abbrev MshrFile := Fin numMshr → Mshr

/-- The blocks come from calloc. -/
def allocCache (capacity : Word) (numWays blockSize : BitVec 8) : Option Cache :=
  Cache.alloc (fun _ => {}) capacity numWays blockSize

/-- The geometry that pipe_init asks for. -/
def initialCache (capacity : Word) (numWays : BitVec 8) : Cache :=
  (allocCache capacity numWays blockSize).getD ⟨0,0,0,0,0,fun _ => []⟩

lemma allocCache_initialCache {capacity : Word} {numWays : BitVec 8}
    (h : (allocCache capacity numWays blockSize).isSome = true) :
    allocCache capacity numWays blockSize = some (initialCache capacity numWays) := by
  obtain ⟨c,hc⟩ := Option.isSome_iff_exists.mp h
  rw [initialCache, hc, Option.getD_some]

/-- address & ~(BLOCK_SIZE - 1). -/
def blockAddr (address : Word) : Word := address &&& ~~~31#32

/-- Also the search of free_mshr. -/
def findMshrForAddress (mshrs : MshrFile) (address : Word) : Option (Fin numMshr) :=
  (List.finRange numMshr).find? fun i =>
    (mshrs i).valid && blockAddr (mshrs i).address == blockAddr address

def allocateMshr (mshrs : MshrFile) (address : Word) (isIcache : Bool) :
    Option (Fin numMshr × MshrFile) :=
  match (List.finRange numMshr).find? fun i => !(mshrs i).valid with
  | some i => some (i,Function.update mshrs i
      { address := blockAddr address, valid := true, done := false, fillReadyCycle := 0,
        isIcache := isIcache })
  | none => none

/-- The static free_mshr of pipe.c. -/
def freeMshr (mshrs : MshrFile) (address : Word) : MshrFile :=
  match findMshrForAddress mshrs address with
  | some i => Function.update mshrs i { mshrs i with valid := false, done := false }
  | none => mshrs

def checkL1FillReady (mshrs : MshrFile) (address : Word) : Bool :=
  match findMshrForAddress mshrs address with
  | some i => (mshrs i).done
  | none => false

/-- The way that complete_l1_fill and insert_l2_block replace: the first invalid one, else
the first whose recency is num_ways - 1, else way 0. -/
def victimWay (numWays : ℕ) (blocks : List Block) : ℕ :=
  match invalidWay blocks with
  | some b => b
  | none => (blocks.findIdx? fun b => b.recency == numWays - 1).getD 0

def completeL1Fill (c : Cache) (address : Word) : Cache :=
  let tag := c.tagOf address
  let set := c.setOf address
  let victim := victimWay c.numWays (c.sets set)
  c.setBlocks set (fillWay tag (c.sets set) victim)

def insertL2Block (l2cache : Cache) (address : Word) : Cache :=
  let tag := l2cache.tagOf address
  let set := l2cache.setOf address
  let victim := victimWay l2cache.numWays (l2cache.sets set)
  l2cache.setBlocks set ((l2cache.sets set).mapIdx fun b block =>
    if b = victim then { block with tag := tag, valid := true, recency := 0 }
    else if block.valid then { block with recency := block.recency + 1 }
    else block)

/-- l2_cache_access on the L2 cache and the MSHRs. -/
def l2CacheAccess (l2cache : Cache) (mshrs : MshrFile) (statCycles : Word) (isIcache : Bool)
    (address : Word) : CacheAccessResult × Cache × MshrFile :=
  match allocateMshr mshrs address isIcache with
  | none => (.cacheNoMshr,l2cache,mshrs)
  | some (i,mshrs) =>
    let set := l2cache.setOf address
    match hitWay (l2cache.sets set) (l2cache.tagOf address) with
    | some b => (.cacheMissWait,l2cache.setBlocks set (updateLru (l2cache.sets set) b),
        Function.update mshrs i { mshrs i with fillReadyCycle := statCycles + l2HitLatency })
    | none => (.cacheMissWait,l2cache,mshrs)

end CaLabs.Lab2
