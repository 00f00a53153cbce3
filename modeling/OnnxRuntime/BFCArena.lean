/-
The arena with best fit and coalescing: chunks of memory in doubly linked
lists, one for each region the device gave, with the free ones in bins by size.
Addresses are numbers, and zero is the null pointer.
-/
import OnnxRuntime.MachineInt
import OnnxRuntime.Tables
import OnnxRuntime.StateRuns

namespace OnnxRuntime

/-- An index into `chunks_`; where the source may hold `kInvalidChunkHandle`
the model has an option. -/
abbrev ChunkHandle := Nat

def kInvalidBinNum : Int := -1

def kNumBins : Nat := 21

def kMinAllocationSize : Nat := 256

structure Chunk where
  size : Nat := 0
  requestedSize : Nat := 0
  allocationId : Int := -1
  ptr : Nat := 0
  prev : Option ChunkHandle := none
  next : Option ChunkHandle := none
  binNum : Int := kInvalidBinNum
deriving Repr, DecidableEq

def Chunk.InUse (c : Chunk) : Prop := c.allocationId ≠ -1

instance Chunk.decidableInUse (c : Chunk) : Decidable c.InUse :=
  inferInstanceAs (Decidable (c.allocationId ≠ -1))

/-- Why a call did not return.  Only an `ORT_ENFORCE` is an exception that a
caller can catch. -/
inductive ArenaStop where
  | enforce (condition : String)
  | nullDereference
  | outOfBounds
  | diverges
  | awaitingDevice
deriving Repr, DecidableEq

section Sizes

/-- The check that the result is a multiple always holds. -/
def roundedBytes (bytes : Nat) : Nat :=
  sizeMul kMinAllocationSize
    (sizeAdd bytes (kMinAllocationSize - 1) / kMinAllocationSize)

/-- The bin of a size; the last one has no upper end. -/
def binNumForSize (bytes : Nat) : Nat :=
  min (kNumBins - 1) (Nat.log2 (max bytes 256 / kMinAllocationSize))

/-- The nearest number with 24 significant bits, ties to even. -/
def roundToFloat (n : Nat) : Nat :=
  if n < 2 ^ 24 then n
  else if 2 * (n % 2 ^ (Nat.log2 n - 23)) < 2 ^ (Nat.log2 n - 23) ∨
      2 * (n % 2 ^ (Nat.log2 n - 23)) = 2 ^ (Nat.log2 n - 23) ∧
        n / 2 ^ (Nat.log2 n - 23) % 2 = 0 then
    n / 2 ^ (Nat.log2 n - 23) * 2 ^ (Nat.log2 n - 23)
  else (n / 2 ^ (Nat.log2 n - 23) + 1) * 2 ^ (Nat.log2 n - 23)

/-- `bytes * kBackpedalFactor` in single precision, cut off.  The factor
`0.9f` is 15099494 / 2^24. -/
def backpedalBytes (bytes : Nat) : Nat :=
  roundToFloat (roundToFloat bytes * 15099494) / 2 ^ 24

/-- Doubling until a request fits; after 64 doublings the size is zero. -/
def growRegion (rounded : Nat) : Nat → Nat → Option Nat
  | 0, _ => none
  | fuel + 1, bytes =>
    if bytes < rounded then growRegion rounded fuel (sizeMul bytes 2)
    else some bytes

/-- `static_cast<int>`. -/
def toInt32 (value : Nat) : Int := Int.bmod value (2 ^ 32)

end Sizes

/-- One block of the device, with the table from addresses to chunks. -/
structure AllocationRegion where
  ptr : Nat
  memorySize : Nat
  handles : Nat → Option ChunkHandle := fun _ => none

namespace AllocationRegion

def endPtr (region : AllocationRegion) : Nat :=
  sizeAdd region.ptr region.memorySize

/-- `handles_[IndexFor(p)]` as a position in the table. -/
def indexFor (region : AllocationRegion) (p : Nat) : Except ArenaStop Nat :=
  if p < region.ptr then .error (.enforce "p_int >= base_int")
  else if sizeAdd region.ptr region.memorySize ≤ p then
    .error (.enforce "p_int < base_int + memory_size_")
  else if toInt32 ((p - region.ptr) / kMinAllocationSize) < 0 ∨
      ((region.memorySize / kMinAllocationSize : Nat) : Int) ≤
        toInt32 ((p - region.ptr) / kMinAllocationSize) then
    .error .outOfBounds
  else .ok (toInt32 ((p - region.ptr) / kMinAllocationSize)).toNat

def setHandle (region : AllocationRegion) (p : Nat)
    (h : Option ChunkHandle) : Except ArenaStop AllocationRegion := do
  let index ← region.indexFor p
  return { region with handles := Function.update region.handles index h }

end AllocationRegion

/-- The regions, in the order of their ends. -/
abbrev RegionManager := List AllocationRegion

namespace RegionManager

/-- Before the first region that ends behind the address. -/
def addAllocationRegion (new : AllocationRegion) : RegionManager → RegionManager
  | [] => [new]
  | region :: rest =>
    if new.ptr < region.endPtr then new :: region :: rest
    else region :: addAllocationRegion new rest

/-- The region is the first that ends behind the address. -/
def getHandle (p : Nat) : RegionManager → Except ArenaStop (Option ChunkHandle)
  | [] => .error .nullDereference
  | region :: rest =>
    if p < region.endPtr then return region.handles (← region.indexFor p)
    else getHandle p rest

def setHandle (p : Nat) (h : Option ChunkHandle) :
    RegionManager → Except ArenaStop RegionManager
  | [] => .error .nullDereference
  | region :: rest => do
      if p < region.endPtr then return (← region.setHandle p h) :: rest
      else return region :: (← setHandle p h rest)

end RegionManager

/-- The counters are `int64_t`. -/
structure AllocatorStats where
  numAllocs : Int := 0
  bytesInUse : Int := 0
  totalAllocatedBytes : Int := 0
  maxBytesInUse : Int := 0
  maxAllocSize : Int := 0
deriving Repr, DecidableEq

namespace AllocatorStats

/-- A chunk of the arena is handed out. -/
def allocated (stats : AllocatorStats) (size : Nat) : AllocatorStats :=
  { stats with
    numAllocs := toInt64 (stats.numAllocs + 1)
    bytesInUse := toInt64 (stats.bytesInUse + size)
    maxBytesInUse :=
      max stats.maxBytesInUse (toInt64 (stats.bytesInUse + size))
    maxAllocSize :=
      toInt64 (max (stats.maxAllocSize % sizeBound) (size : Int)) }

/-- A block of its own is handed out; the maxima compare as `size_t`. -/
def reserved (stats : AllocatorStats) (size : Nat) : AllocatorStats :=
  { stats with
    numAllocs := toInt64 (stats.numAllocs + 1)
    bytesInUse := toInt64 (stats.bytesInUse + size)
    maxAllocSize :=
      toInt64 (max (stats.maxAllocSize % sizeBound) (size : Int))
    maxBytesInUse := toInt64 (max (stats.maxBytesInUse % sizeBound)
      ((stats.bytesInUse + size) % sizeBound))
    totalAllocatedBytes := toInt64 (stats.totalAllocatedBytes + size) }

def freed (stats : AllocatorStats) (size : Nat) : AllocatorStats :=
  { stats with bytesInUse := toInt64 (stats.bytesInUse - size) }

def released (stats : AllocatorStats) (size : Nat) : AllocatorStats :=
  { stats with
    bytesInUse := toInt64 (stats.bytesInUse - size)
    totalAllocatedBytes := toInt64 (stats.totalAllocatedBytes - size) }

def extended (stats : AllocatorStats) (size : Nat) : AllocatorStats :=
  { stats with
    totalAllocatedBytes := toInt64 (stats.totalAllocatedBytes + size) }

end AllocatorStats

/-- A question to the device and its answer, null if it has none. -/
structure DeviceRequest where
  bytes : Nat
  answer : Nat
deriving Repr, DecidableEq

/-- The arena.  `answers` are what the device is going to answer during the
current call, `requests` what it was asked so far, last first.  The `int64_t`
`next_allocation_id_` only counts up from one, and is a natural number here. -/
structure BFCArena where
  memoryLimit : Nat
  currRegionAllocationBytes : Nat
  startedBackpedal : Bool := false
  regions : RegionManager := []
  chunk : ChunkHandle → Chunk := fun _ => {}
  numChunks : Nat := 0
  freeChunksList : Option ChunkHandle := none
  nextAllocationId : Nat := 1
  stats : AllocatorStats := {}
  reservedChunks : List (Nat × Nat) := []
  bins : Nat → List ChunkHandle := fun _ => []
  answers : List Nat := []
  requests : List DeviceRequest := []

abbrev ArenaM := EStateM ArenaStop BFCArena

namespace BFCArena

/-- The constructor. -/
def init (totalMemory : Nat) : BFCArena where
  memoryLimit := totalMemory
  currRegionAllocationBytes := roundedBytes (min totalMemory 1048576)

/-- `ChunkComparator`: by size, then by address. -/
def chunkBefore (s : BFCArena) (ha hb : ChunkHandle) : Bool :=
  if (s.chunk ha).size ≠ (s.chunk hb).size then
    (s.chunk ha).size < (s.chunk hb).size
  else (s.chunk ha).ptr < (s.chunk hb).ptr

def modifyChunk (s : BFCArena) (h : ChunkHandle) (f : Chunk → Chunk) :
    BFCArena :=
  { s with chunk := Function.update s.chunk h (f (s.chunk h)) }

def setBin (s : BFCArena) (binNum : Nat) (handles : List ChunkHandle) :
    BFCArena :=
  { s with bins := Function.update s.bins binNum handles }

/-- What the limit leaves, in whole units; the subtraction is unsigned. -/
def availableBytes (s : BFCArena) : Nat :=
  (((s.memoryLimit : Int) - s.stats.totalAllocatedBytes) %
    sizeBound).toNat / kMinAllocationSize * kMinAllocationSize

end BFCArena

namespace ArenaM

def enforce (condition : Prop) [Decidable condition] (text : String) :
    ArenaM Unit :=
  if condition then pure () else throw (.enforce text)

def chunkFromHandle (h : ChunkHandle) : ArenaM Chunk := do
  let s ← get
  enforce (h < s.numChunks) "h < chunks_.size()"
  return s.chunk h

def modifyChunk (h : ChunkHandle) (f : Chunk → Chunk) : ArenaM Unit :=
  modify fun s => s.modifyChunk h f

def setHandle (p : Nat) (h : Option ChunkHandle) : ArenaM Unit := do
  let s ← get
  match s.regions.setHandle p h with
  | .error stop => throw stop
  | .ok regions => modify fun s => { s with regions := regions }

def deviceAlloc (bytes : Nat) : ArenaM Nat := do
  let s ← get
  match s.answers with
  | [] => do
      modify fun s => { s with requests := ⟨bytes, 0⟩ :: s.requests }
      throw .awaitingDevice
  | answer :: answers => do
      modify fun s => { s with
        answers := answers
        requests := ⟨bytes, answer⟩ :: s.requests }
      return answer

def allocateChunk : ArenaM ChunkHandle := do
  let s ← get
  match s.freeChunksList with
  | some h => do
      let c ← chunkFromHandle h
      modify fun s => { s with freeChunksList := c.next }
      return h
  | none => do
      modify fun s => { s with
        chunk := Function.update s.chunk s.numChunks {}
        numChunks := s.numChunks + 1 }
      return s.numChunks

def deallocateChunk (h : ChunkHandle) : ArenaM Unit := do
  let s ← get
  let _ ← chunkFromHandle h
  modifyChunk h fun c => { c with next := s.freeChunksList }
  modify fun s => { s with freeChunksList := some h }

def insertFreeChunkIntoBin (h : ChunkHandle) : ArenaM Unit := do
  let c ← chunkFromHandle h
  enforce (¬ c.InUse ∧ c.binNum = kInvalidBinNum)
    "!c->in_use() && (c->bin_num == kInvalidBinNum)"
  modifyChunk h fun c => { c with binNum := binNumForSize c.size }
  modify fun s => s.setBin (binNumForSize c.size)
    (insertBy s.chunkBefore h (s.bins (binNumForSize c.size)))

def removeFreeChunkIterFromBin (binNum : Nat) (h : ChunkHandle) :
    ArenaM Unit := do
  let c ← chunkFromHandle h
  enforce (¬ c.InUse ∧ c.binNum ≠ kInvalidBinNum)
    "!c->in_use() && (c->bin_num != kInvalidBinNum)"
  modify fun s => s.setBin binNum ((s.bins binNum).erase h)
  modifyChunk h fun c => { c with binNum := kInvalidBinNum }

def removeFreeChunkFromBin (h : ChunkHandle) : ArenaM Unit := do
  let c ← chunkFromHandle h
  enforce (¬ c.InUse ∧ c.binNum ≠ kInvalidBinNum)
    "!c->in_use() && (c->bin_num != kInvalidBinNum)"
  let s ← get
  enforce ((eraseBy s.chunkBefore h (s.bins c.binNum.toNat)).length <
    (s.bins c.binNum.toNat).length) "Could not find chunk in bin"
  modify fun s => s.setBin c.binNum.toNat
    (eraseBy s.chunkBefore h (s.bins c.binNum.toNat))
  modifyChunk h fun c => { c with binNum := kInvalidBinNum }

/-- The neighbour of a chunk, if there is one, is told of it. -/
def setPrev (neighbor : Option ChunkHandle) (h : ChunkHandle) : ArenaM Unit :=
  match neighbor with
  | none => return
  | some hNeighbor => do
      let _ ← chunkFromHandle hNeighbor
      modifyChunk hNeighbor fun c => { c with prev := some h }

def splitChunk (h : ChunkHandle) (numBytes : Nat) : ArenaM Unit := do
  let hNewChunk ← allocateChunk
  let c ← chunkFromHandle h
  enforce (¬ c.InUse ∧ c.binNum = kInvalidBinNum)
    "!c->in_use() && (c->bin_num == kInvalidBinNum)"
  let _ ← chunkFromHandle hNewChunk
  modifyChunk hNewChunk fun new => { new with ptr := sizeAdd c.ptr numBytes }
  setHandle (sizeAdd c.ptr numBytes) (some hNewChunk)
  modifyChunk hNewChunk fun new => { new with
    size := sizeSub c.size numBytes
    allocationId := -1
    prev := some h
    next := c.next }
  modifyChunk h fun c => { c with size := numBytes, next := some hNewChunk }
  setPrev c.next hNewChunk
  insertFreeChunkIntoBin hNewChunk

/-- The first chunk of a bin that is large enough. -/
def searchBin (rounded : Nat) : List ChunkHandle → ArenaM (Option ChunkHandle)
  | [] => return none
  | h :: rest => do
      let c ← chunkFromHandle h
      enforce (¬ c.InUse) "!chunk->in_use()"
      if rounded ≤ c.size then return some h else searchBin rounded rest

def searchBins (rounded : Nat) : List Nat → ArenaM (Option (Nat × ChunkHandle))
  | [] => return none
  | binNum :: rest => do
      let s ← get
      match ← searchBin rounded (s.bins binNum) with
      | some h => return some (binNum, h)
      | none => searchBins rounded rest

/-- `kMaxInternalFragmentation`. -/
def maxInternalFragmentation : Nat := 128 * 2 ^ 20

/-- The chunk that was found is taken, without the part it can spare. -/
def takeChunk (binNum : Nat) (h : ChunkHandle) (rounded numBytes : Nat) :
    ArenaM Nat := do
  removeFreeChunkIterFromBin binNum h
  let c ← chunkFromHandle h
  if sizeMul rounded 2 ≤ c.size ∨
      maxInternalFragmentation ≤ sizeSub c.size rounded then
    splitChunk h rounded
  let s ← get
  let c ← chunkFromHandle h
  modifyChunk h fun c => { c with
    requestedSize := numBytes
    allocationId := s.nextAllocationId }
  modify fun s => { s with
    nextAllocationId := s.nextAllocationId + 1
    stats := s.stats.allocated c.size }
  return c.ptr

def findChunkPtr (binNum rounded numBytes : Nat) : ArenaM Nat := do
  match ← searchBins rounded (List.range' binNum (kNumBins - binNum)) with
  | none => return 0
  | some (binNum, h) => takeChunk binNum h rounded numBytes

/-- The loop that asks for less and less.  Every round takes an answer of the
device, so the number of answers bounds it. -/
def backpedal (shrink : Nat → Nat) (rounded : Nat) :
    Nat → Nat → ArenaM (Nat × Nat)
  | 0, _ => throw .awaitingDevice
  | fuel + 1, bytes => do
      if roundedBytes (shrink bytes) < rounded then
        return (0, roundedBytes (shrink bytes))
      let memAddr ← deviceAlloc (roundedBytes (shrink bytes))
      if memAddr = 0 then
        backpedal shrink rounded fuel (roundedBytes (shrink bytes))
      else return (memAddr, roundedBytes (shrink bytes))

/-- The device is asked for a block; the first time it has none it is asked
for less and less. -/
def askDevice (shrink : Nat → Nat) (rounded bytes : Nat) :
    ArenaM (Nat × Nat) := do
  let memAddr ← deviceAlloc bytes
  let s ← get
  if memAddr = 0 ∧ ¬ s.startedBackpedal then do
    modify fun s => { s with startedBackpedal := true }
    backpedal shrink rounded (s.answers.length + 1) bytes
  else return (memAddr, bytes)

/-- The new block becomes a region with one free chunk. -/
def addRegion (memAddr : Nat) (bytes : Nat) : ArenaM Unit := do
  modify fun s => { s with stats := s.stats.extended bytes }
  enforce (bytes % kMinAllocationSize = 0)
    "0 == memory_size % kMinAllocationSize"
  modify fun s => { s with
    regions := s.regions.addAllocationRegion ⟨memAddr, bytes, fun _ => none⟩ }
  let h ← allocateChunk
  let _ ← chunkFromHandle h
  modifyChunk h fun c => { c with
    ptr := memAddr
    size := bytes
    allocationId := -1
    prev := none
    next := none }
  setHandle memAddr (some h)
  insertFreeChunkIntoBin h

/-- `Extend`, with the product by `kBackpedalFactor` as a function. -/
def extendWith (shrink : Nat → Nat) (rounded : Nat) : ArenaM Bool := do
  let s ← get
  if s.availableBytes < rounded then return false
  match growRegion rounded 65 s.currRegionAllocationBytes with
  | none => throw .diverges
  | some curr => do
      modify fun s => { s with currRegionAllocationBytes := curr }
      let (memAddr, bytes) ←
        askDevice shrink rounded (min curr s.availableBytes)
      if memAddr = 0 then return false
      if rounded ≤ s.currRegionAllocationBytes then
        modify fun s => { s with
          currRegionAllocationBytes := sizeMul curr 2 }
      addRegion memAddr bytes
      return true

def extend (rounded : Nat) : ArenaM Bool := extendWith backpedalBytes rounded

def alloc (numBytes : Nat) : ArenaM Nat := do
  if numBytes = 0 then return 0
  let ptr ← findChunkPtr (binNumForSize (roundedBytes numBytes))
    (roundedBytes numBytes) numBytes
  if ptr ≠ 0 then return ptr
  if ← extend (roundedBytes numBytes) then
    findChunkPtr (binNumForSize (roundedBytes numBytes))
      (roundedBytes numBytes) numBytes
  else return 0

def reserve (size : Nat) : ArenaM Nat := do
  if size = 0 then return 0
  let ptr ← deviceAlloc size
  let s ← get
  enforce (ptr ∉ s.reservedChunks.map Prod.fst)
    "reserved_chunks_.find(ptr) == reserved_chunks_.end()"
  modify fun s => { s with
    reservedChunks := (ptr, size) :: s.reservedChunks
    stats := s.stats.reserved size }
  return ptr

def deleteChunk (h : ChunkHandle) : ArenaM Unit := do
  let c ← chunkFromHandle h
  setHandle c.ptr none
  deallocateChunk h

/-- The second chunk is merged into the first. -/
def merge (h1 h2 : ChunkHandle) : ArenaM Unit := do
  let c1 ← chunkFromHandle h1
  let c2 ← chunkFromHandle h2
  enforce (¬ c1.InUse ∧ ¬ c2.InUse) "!c1->in_use() && !c2->in_use()"
  modifyChunk h1 fun c => { c with next := c2.next }
  enforce (c2.prev = some h1) "c2->prev == h1"
  setPrev c2.next h1
  modifyChunk h1 fun c => { c with size := sizeAdd c.size c2.size }
  deleteChunk h2

/-- A free chunk that follows is merged into the chunk. -/
def coalesceNext (h : ChunkHandle) : ArenaM Unit := do
  let c ← chunkFromHandle h
  match c.next with
  | none => return
  | some hNext => do
      let cNext ← chunkFromHandle hNext
      if cNext.InUse then return
      removeFreeChunkFromBin hNext
      merge h hNext

/-- The chunk is merged into a free one before it; the result is the chunk to
reassign. -/
def coalescePrev (h : ChunkHandle) : ArenaM ChunkHandle := do
  let c ← chunkFromHandle h
  match c.prev with
  | none => return h
  | some hPrev => do
      let cPrev ← chunkFromHandle hPrev
      if cPrev.InUse then return h
      removeFreeChunkFromBin hPrev
      merge hPrev h
      return hPrev

def freeAndMaybeCoalesce (h : ChunkHandle) : ArenaM Unit := do
  let c ← chunkFromHandle h
  enforce (c.InUse ∧ c.binNum = kInvalidBinNum)
    "c->in_use() && (c->bin_num == kInvalidBinNum)"
  modifyChunk h fun c => { c with allocationId := -1 }
  modify fun s => { s with stats := s.stats.freed c.size }
  coalesceNext h
  let chunkToReassign ← coalescePrev h
  insertFreeChunkIntoBin chunkToReassign

def deallocateRawInternal (ptr : Nat) : ArenaM Unit := do
  let s ← get
  match s.regions.getHandle ptr with
  | .error stop => throw stop
  | .ok none => throw (.enforce "h != kInvalidChunkHandle")
  | .ok (some h) => freeAndMaybeCoalesce h

def free (p : Nat) : ArenaM Unit := do
  if p = 0 then return
  let s ← get
  match s.reservedChunks.lookup p with
  | some size =>
    modify fun s => { s with
      reservedChunks := s.reservedChunks.filter (·.1 ≠ p)
      stats := s.stats.released size }
  | none => deallocateRawInternal p

end ArenaM

/-- The calls of a client. -/
inductive ArenaCall where
  | alloc (size : Nat)
  | reserve (size : Nat)
  | free (p : Nat)
deriving Repr, DecidableEq

/-- A call returns a pointer, `Free` the null pointer. -/
def ArenaCall.run : ArenaCall → ArenaM Nat
  | .alloc size => ArenaM.alloc size
  | .reserve size => ArenaM.reserve size
  | .free p => do
      ArenaM.free p
      return 0

/-- A call during which the device gives the answers listed. -/
def BFCArena.perform (s : BFCArena) (call : ArenaCall) (answers : List Nat) :
    EStateM.Result ArenaStop BFCArena Nat :=
  call.run { s with answers := answers, requests := [] }

end OnnxRuntime
