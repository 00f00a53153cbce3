/-
How many bytes a tensor is given: the number of elements is a product in 64-bit
arithmetic that nobody checks.  Initializers are loaded into one buffer per
location, in which the memory-pattern planner gives each a block.
-/
import OnnxRuntime.ExecutionFrame
import Mathlib.Algebra.BigOperators.Group.List.Basic

namespace OnnxRuntime

open List

/-- The smallest multiple of the alignment that is not smaller. -/
def roundedUp (alignment bytes : Nat) : Nat :=
  bytes + (alignment - 1) - (bytes + (alignment - 1)) % alignment

variable {alignment : Nat} {shape : List Int}

theorem le_roundedUp (halign : 0 < alignment) (bytes : Nat) :
    bytes ≤ roundedUp alignment bytes := by
  have hlt := Nat.mod_lt (bytes + (alignment - 1)) halign
  rw [roundedUp]
  omega

theorem roundedUp_lt (halign : 0 < alignment) (bytes : Nat) :
    roundedUp alignment bytes < bytes + alignment := by
  rw [roundedUp]
  omega

/-- Two factors below the cheap bound cannot overflow. -/
theorem mul_lt_of_lt_maxAllowed {nmemb size : Nat}
    (hnmemb : nmemb < 2 ^ 32 - alignment) (hsize : size < 2 ^ 32 - alignment) :
    size * nmemb ≤ sizeMax - alignment := by
  have hfactor : size * nmemb ≤ (2 ^ 32 - alignment - 1) * 2 ^ 32 :=
    Nat.mul_le_mul (by omega) (by omega)
  have hmax : sizeMax = 2 ^ 64 - 1 := rfl
  omega

/-- The two tests together are the one test that matters. -/
theorem calcMemSizeForArrayWithAlignment_cases (hsmall : alignment < 2 ^ 32)
    (nmemb size : Nat) :
    calcMemSizeForArrayWithAlignment alignment nmemb size =
      if sizeMax - alignment < size * nmemb then none
      else if alignment = 0 then some (size * nmemb)
      else some (roundedUp alignment (size * nmemb)) := by
  have hdiv : 0 < nmemb → ((sizeMax - alignment) / nmemb < size ↔
      sizeMax - alignment < size * nmemb) := fun hpos =>
    Nat.div_lt_iff_lt_mul hpos
  have hmax : sizeMax = 2 ^ 64 - 1 := rfl
  have hbound : sizeBound = 2 ^ 64 := rfl
  by_cases hover : sizeMax - alignment < size * nmemb
  · have hpos : 0 < nmemb := Nat.pos_of_ne_zero fun hzero => by
      rw [hzero] at hover
      exact absurd hover (Nat.not_lt_zero _)
    simp only [calcMemSizeForArrayWithAlignment, if_pos hover]
    by_cases hnmemb : 2 ^ 32 - alignment ≤ nmemb
    · rw [if_pos ⟨hnmemb, (hdiv hpos).2 hover⟩]
    · have hsize : 2 ^ 32 - alignment ≤ size := by
        by_contra hsize
        exact absurd hover (Nat.not_lt.2
          (mul_lt_of_lt_maxAllowed (by omega) (by omega)))
      rw [if_neg fun h => hnmemb h.1, if_pos ⟨hsize, hpos, (hdiv hpos).2 hover⟩]
  · have hfirst : ¬ (2 ^ 32 - alignment ≤ nmemb ∧
        (sizeMax - alignment) / nmemb < size) := fun h =>
      hover ((hdiv (by omega)).1 h.2)
    have hsecond : ¬ (2 ^ 32 - alignment ≤ size ∧ 0 < nmemb ∧
        (sizeMax - alignment) / nmemb < size) := fun h =>
      hover ((hdiv h.2.1).1 h.2.2)
    simp only [calcMemSizeForArrayWithAlignment, if_neg hover, if_neg hfirst,
      if_neg hsecond]
    rw [sizeMul_eq (by omega)]
    by_cases hzero : alignment = 0
    · rw [if_pos hzero, if_pos hzero]
    · rw [if_neg hzero, if_neg hzero, sizeAdd_eq (by omega), roundedUp]

theorem calcMemSizeForArrayWithAlignment_eq (halign : 0 < alignment)
    (hsmall : alignment < 2 ^ 32) (nmemb size : Nat) :
    calcMemSizeForArrayWithAlignment alignment nmemb size =
      if sizeMax - alignment < size * nmemb then none
      else some (roundedUp alignment (size * nmemb)) := by
  rw [calcMemSizeForArrayWithAlignment_cases hsmall, if_neg halign.ne']

/-- Without alignment it is the product that must fit. -/
theorem calcMemSizeForArray_eq (nmemb size : Nat) :
    calcMemSizeForArrayWithAlignment 0 nmemb size =
      if size * nmemb < sizeBound then some (size * nmemb) else none := by
  have hmax : sizeMax = sizeBound - 1 := rfl
  have hpos := sizeBound_pos
  rw [calcMemSizeForArrayWithAlignment_cases (by decide), if_pos rfl]
  split_ifs
  · omega
  · rfl
  · rfl
  · omega

/-- The number of elements, without machine arithmetic. -/
def shapeVolume (shape : List Int) : Nat :=
  (shape.map Int.toNat).prod

@[simp] theorem shapeVolume_cons (dim : Int) (shape : List Int) :
    shapeVolume (dim :: shape) = dim.toNat * shapeVolume shape := by
  rw [shapeVolume, map_cons, prod_cons, shapeVolume]

theorem shapeSize_go (hshape : ∀ dim ∈ shape, 0 ≤ dim) (size : Int) :
    shapeSize.go (toInt64 size) shape = toInt64 (size * shapeVolume shape) := by
  induction shape generalizing size with
  | nil => rw [shapeSize.go, shapeVolume, map_nil, prod_nil,
      Nat.cast_one, mul_one]
  | cons dim rest ih =>
    have hdim : 0 ≤ dim := hshape dim (by simp)
    have hwrap : toInt64 (toInt64 size * dim) = toInt64 (size * dim) :=
      Int.bmod_mul_bmod
    rw [shapeSize.go, if_neg (not_lt.2 hdim), hwrap,
      ih fun other hother => hshape other (mem_cons_of_mem _ hother),
      shapeVolume_cons, Nat.cast_mul, Int.toNat_of_nonneg hdim, mul_assoc]

/-- The size of a shape is the number of its elements, wrapped. -/
theorem shapeSize_eq (hshape : ∀ dim ∈ shape, 0 ≤ dim) :
    shapeSize shape =
      if shapeVolume shape % 2 ^ 64 < 2 ^ 63 then
        ((shapeVolume shape % 2 ^ 64 : Nat) : Int)
      else (shapeVolume shape % 2 ^ 64 : Nat) - 2 ^ 64 := by
  have hgo : shapeSize shape = toInt64 (1 * shapeVolume shape) :=
    shapeSize_go hshape 1
  rw [hgo, toInt64, Int.bmod_def]
  split <;> split <;> omega

namespace SessionState

/-- The three outcomes of computing a tensor's bytes, by the number of elements
modulo `2 ^ 64`. -/
theorem tensorBytes_eq (session : SessionState) (elem : ElemType)
    {shape : List Int} (hshape : ∀ dim ∈ shape, 0 ≤ dim) :
    session.tensorBytes elem shape =
      if 2 ^ 63 ≤ shapeVolume shape % 2 ^ 64 then
        .error (.status .invalidArgument
          "Tensor shape cannot contain any negative value")
      else if sizeMax - 64 <
          session.elementSize elem * (shapeVolume shape % 2 ^ 64) then
        .error (.status .fail "size overflow")
      else .ok (roundedUp 64
        (session.elementSize elem * (shapeVolume shape % 2 ^ 64))) := by
  rw [tensorBytes, shapeSize_eq hshape]
  by_cases hwrapped : shapeVolume shape % 2 ^ 64 < 2 ^ 63
  · rw [if_pos hwrapped, if_neg (by omega), if_neg (by omega),
      Int.toNat_natCast,
      calcMemSizeForArrayWithAlignment_eq (by decide) (by decide)]
    split <;> simp_all
  · rw [if_pos (by omega), if_pos (by omega)]

end SessionState

namespace ExecutionFrame

section Enough

variable {session : SessionState} {frame placed : ExecutionFrame}
  {mlValueIdx : MLValueIndex} {elem : ElemType} {location : OrtAllocatorInfo}
  {shape : List Int}

/-- The tensor is in the buffer, which is a block of the pattern or the answer
to a request for its bytes; no bytes are a null pointer. -/
structure HeldIn (session : SessionState) (frame placed : ExecutionFrame)
    (mlValueIdx : MLValueIndex) (elem : ElemType) (location : OrtAllocatorInfo)
    (shape : List Int) (alloc : Nat → Nat) (buffer : Extent) : Prop where
  value_eq : placed.value mlValueIdx = .tensor elem shape buffer.offset
  provided : frame.patternAddress session mlValueIdx location buffer.size =
      some buffer.offset ∨
    buffer.offset = if buffer.size = 0 then 0 else alloc buffer.size

/-- Whatever the allocator answers, the tensor gets a buffer with at least the
bytes that its elements take, or an error is reported. -/
def AllocatesEnough (session : SessionState) (frame : ExecutionFrame)
    (mlValueIdx : MLValueIndex) (elem : ElemType)
    (location : OrtAllocatorInfo) (shape : List Int) : Prop :=
  ∀ alloc : Nat → Nat,
    match frame.allocateMLValueTensorSelfOwnBufferHelper session mlValueIdx elem
        location shape alloc with
    | .ok (placed, buffer) => ∃ held, buffer = some held ∧
        HeldIn session frame placed mlValueIdx elem location shape alloc held ∧
        shapeVolume shape * session.elementSize elem ≤ held.size
    | .error failure => ∃ code message, failure = .status code message

/-- A tensor that gets a buffer is in one of the computed size. -/
theorem selfOwnBufferHelper_holds (location : OrtAllocatorInfo)
    (alloc : Nat → Nat) (hlt : mlValueIdx < frame.allValues.length)
    (hnew : (frame.value mlValueIdx).isAllocated = false) {size : Nat}
    (hbytes : session.tensorBytes elem shape = .ok size) :
    ∃ placed held, frame.allocateMLValueTensorSelfOwnBufferHelper session
        mlValueIdx elem location shape alloc = .ok (placed, some held) ∧
      HeldIn session frame placed mlValueIdx elem location shape alloc held ∧
      held.size = size := by
  rw [allocateMLValueTensorSelfOwnBufferHelper, hnew, hbytes]
  cases haddress : frame.patternAddress session mlValueIdx location size with
  | some address =>
    refine ⟨_, ⟨address, size⟩, by simp [bind, Except.bind, haddress]; rfl,
      ⟨?_, .inl haddress⟩, rfl⟩
    rw [value_setValue hlt, if_pos rfl]
  | none =>
    refine ⟨_, ⟨_, size⟩, by simp [bind, Except.bind, haddress]; rfl,
      ⟨?_, .inr rfl⟩, rfl⟩
    obtain ⟨traced, htraced⟩ := allocateSeparately_eq session frame mlValueIdx
      elem shape size (alloc size)
    rw [htraced]
    exact (value_setValue hlt mlValueIdx).trans (if_pos rfl)

theorem allocatesEnough_of_tensorBytes
    (hlt : mlValueIdx < frame.allValues.length)
    (hnew : (frame.value mlValueIdx).isAllocated = false) :
    AllocatesEnough session frame mlValueIdx elem location shape ↔
      match session.tensorBytes elem shape with
      | .ok size => shapeVolume shape * session.elementSize elem ≤ size
      | .error failure => ∃ code message, failure = .status code message := by
  rw [AllocatesEnough]
  cases hbytes : session.tensorBytes elem shape with
  | error failure =>
    simp only [allocateMLValueTensorSelfOwnBufferHelper, hnew, hbytes]
    exact forall_const _
  | ok size =>
    constructor
    · intro henough
      obtain ⟨placed, held, hrun, -, hsize⟩ := selfOwnBufferHelper_holds
        location id hlt hnew hbytes
      have hheld := henough id
      rw [hrun] at hheld
      obtain ⟨_, ⟨⟩, -, hle⟩ := hheld
      rwa [hsize] at hle
    · intro hle alloc
      obtain ⟨placed, held, hrun, hheld, rfl⟩ := selfOwnBufferHelper_holds
        location alloc hlt hnew hbytes
      rw [hrun]
      exact ⟨held, rfl, hheld, hle⟩

/-- The buffer is large enough exactly when the number of elements fits into 64
bits, the elements take no bytes, or the wrapped number of elements is refused
itself, as negative or as too large for the elements. -/
theorem allocatesEnough_iff (hlt : mlValueIdx < frame.allValues.length)
    (hnew : (frame.value mlValueIdx).isAllocated = false)
    (hshape : ∀ dim ∈ shape, 0 ≤ dim) :
    AllocatesEnough session frame mlValueIdx elem location shape ↔
      shapeVolume shape < 2 ^ 64 ∨ session.elementSize elem = 0 ∨
      2 ^ 63 ≤ shapeVolume shape % 2 ^ 64 ∨
      2 ^ 64 - 65 <
        session.elementSize elem * (shapeVolume shape % 2 ^ 64) := by
  have hmax : sizeMax - 64 = 2 ^ 64 - 65 := rfl
  rw [allocatesEnough_of_tensorBytes hlt hnew,
    session.tensorBytes_eq elem hshape, hmax]
  generalize shapeVolume shape = volume
  generalize session.elementSize elem = size
  split_ifs with hnegative hover
  · exact ⟨fun _ => .inr (.inr (.inl hnegative)), fun _ => ⟨_, _, rfl⟩⟩
  · exact ⟨fun _ => .inr (.inr (.inr hover)), fun _ => ⟨_, _, rfl⟩⟩
  · simp only [hnegative, hover, or_false]
    have hlow := @le_roundedUp 64 (by decide) (size * (volume % 2 ^ 64))
    have hhigh := @roundedUp_lt 64 (by decide) (size * (volume % 2 ^ 64))
    constructor
    · intro henough
      by_contra hne
      have hwrap : volume % 2 ^ 64 + 2 ^ 64 ≤ volume := by omega
      have hmul := Nat.mul_le_mul_left size hwrap
      rw [Nat.mul_add, Nat.mul_comm size volume] at hmul
      omega
    · rintro (hvolume | hsize)
      · rw [Nat.mod_eq_of_lt hvolume] at hlow ⊢
        rwa [Nat.mul_comm volume]
      · rw [hsize]
        exact Nat.zero_le _

end Enough

/-- A session with one value, and a frame in which it is not allocated. -/
def oneValueSession : SessionState where
  executionPlan := { allocationPlan := [{}] }
  elementSize := ElemType.size

def oneValueFrame : ExecutionFrame where
  allValues := [.unallocated]

theorem allocatesEnough_oneValueFrame :
    AllocatesEnough oneValueSession oneValueFrame 0 .float default [2, 3] :=
  (allocatesEnough_iff (by decide) rfl (by decide)).2 (.inl (by decide))

/-- `2 ^ 64` floats are given a null pointer: their number wraps to zero. -/
theorem not_allocatesEnough_oneValueFrame :
    ¬ AllocatesEnough oneValueSession oneValueFrame 0 .float default
      [2 ^ 32, 2 ^ 32] := by
  have hbytes : oneValueSession.tensorBytes .float [2 ^ 32, 2 ^ 32] = .ok 0 :=
    rfl
  rw [allocatesEnough_of_tensorBytes (by decide) rfl, hbytes]
  decide

end ExecutionFrame

/-- What loading reads of a tensor.  A data type without a case in the switches
is `none`, and its number is what the message shows; `fieldData` are the entries
of the field that goes with the type. -/
structure WeightProto where
  dataTypeNumber : Int
  dataType : Option ElemType
  dims : List Int
  rawData : Option (List UInt8) := none
  fieldData : List Int := []
deriving Repr, DecidableEq

/-- What `SaveInitializedTensorsWithMemPattern` is given.  The index of a value
is the position of its name; `alloc` is asked for an initializer that has no
block, `bufferAt` once for the buffer of a location, and both answer with an
address that may be null.  `copyTensor` is the copy to a device, with the
message that is reported. -/
structure WeightLoader where
  plan : SequentialExecutionPlan
  names : List String
  hasAllocator : OrtAllocatorInfo → Bool
  bufferAt : OrtAllocatorInfo → Nat
  alloc : String → OrtAllocatorInfo → Nat → Nat
  stagingAlloc : String → Nat → Nat
  copyTensor : OrtAllocatorInfo → ElemType → List Int → Except Failure Unit

/-- An initializer that was saved, and the block it was decoded into. -/
structure SavedWeight where
  index : MLValueIndex
  value : MLValue
  block : Option MemoryBlock
deriving Repr, DecidableEq

/-- The buffers of the locations and the initializers, by name. -/
structure SavedWeights where
  buffers : List (OrtAllocatorInfo × Extent)
  weights : List (String × SavedWeight)

def OrtAllocatorInfo.toString (info : OrtAllocatorInfo) : String :=
  let memType := match info.memType with
    | .cpuInput => "-2"
    | .cpuOutput => "-1"
    | .default => "0"
  let type := match info.type with
    | .deviceAllocator => "0"
    | .arenaAllocator => "1"
  "OrtAllocatorInfo: [ name:" ++ info.name ++ " id:" ++
    ToString.toString info.id ++ " mem_type:" ++ memType ++ " type:" ++ type ++
    "]"

/-- `size` elements so far, and one more dimension. -/
def countDim (size : Nat) (dim : Int) : Except Failure Nat :=
  if dim < 0 then .error (.status .fail "Invalid TensorProto")
  else
    match calcMemSizeForArrayWithAlignment 0 size dim.toNat with
    | none => .error (.status .fail "Invalid TensorProto")
    | some next => .ok next

def elementCount (dims : List Int) : Except Failure Nat :=
  dims.foldlM countDim 1

def getSizeInBytesFromTensorProto (alignment : Nat) (proto : WeightProto) :
    Except Failure Nat := do
  let size ← elementCount proto.dims
  match proto.dataType with
  | none | some .string => .error (.status .notImplemented "")
  | some elem =>
    match calcMemSizeForArrayWithAlignment alignment size elem.size with
    | none => .error (.status .fail "Invalid TensorProto")
    | some bytes => .ok bytes

namespace WeightProto

/-- What is stored when there is nowhere to unpack it to. -/
def unpackToNull (proto : WeightProto) (elem : ElemType) :
    Except Failure Unit :=
  let size := match elem, proto.rawData with
    | .string, _ | _, none => proto.fieldData.length
    | _, some raw => raw.length
  if size = 0 then .ok () else .error (.status .invalidArgument "")

/-- `DEFINE_UNPACK_TENSOR`. -/
def unpackNumbers (proto : WeightProto) (elem : ElemType)
    (expectedSize : Int) : Except Failure Unit :=
  match proto.rawData with
  | some raw =>
    match calcMemSizeForArrayWithAlignment 0 expectedSize.toNat
        elem.size with
    | none => .error (.status .fail "size overflow")
    | some expected =>
      if raw.length ≠ expected then
        .error (.status .fail ("UnpackTensor: the pre-allocated size does " ++
          "not match the raw data size, expected " ++ toString expected ++
          ", got " ++ toString raw.length))
      else .ok ()
  | none =>
    if (proto.fieldData.length : Int) ≠ expectedSize then
      .error (.status .fail ("UnpackTensor: the pre-allocated size does not " ++
        "match the size in proto"))
    else .ok ()

/-- The variants for `bool` and for the two kinds of 16-bit floats, which look
at the entries of the field. -/
def unpackSmall (proto : WeightProto) (elem : ElemType)
    (expectedSize : Int) : Except Failure Unit :=
  match proto.rawData with
  | some raw =>
    if raw.length ≠ sizeMul expectedSize.toNat elem.size then
      .error (.status .fail ("UnpackTensor: the pre-allocate size does not " ++
        "match the raw data size"))
    else .ok ()
  | none =>
    if (proto.fieldData.length : Int) ≠ expectedSize then
      .error (.status .fail ("UnpackTensor: the pre-allocate size does not " ++
        "match the size in proto"))
    else if elem ≠ .bool ∧
        ∃ entry ∈ proto.fieldData, entry < 0 ∨ 2 ^ 16 - 1 < entry then
      .error (.status .fail "data overflow")
    else .ok ()

/-- The variant for strings, which are never raw. -/
def unpackStrings (proto : WeightProto) (expectedSize : Int) :
    Except Failure Unit :=
  if (proto.fieldData.length : Int) ≠ expectedSize then
    .error (.status .fail ("UnpackTensor: the pre-allocate size does not " ++
      "match the size in proto"))
  else .ok ()

/-- `TensorUtils::UnpackTensor` to an address that may be null. -/
def unpackTensor (proto : WeightProto) (elem : ElemType) (data : Nat)
    (expectedSize : Int) : Except Failure Unit :=
  if data = 0 then proto.unpackToNull elem
  else
    match elem with
    | .string => proto.unpackStrings expectedSize
    | .bool | .float16 | .bfloat16 => proto.unpackSmall elem expectedSize
    | _ => proto.unpackNumbers elem expectedSize

/-- The text for a shape without a size; strings and 16-bit floats have their
own. -/
def invalidShape (proto : WeightProto) : ElemType → String
  | .string | .float16 | .bfloat16 =>
    "Tensor shape cannot contain any negative value"
  | _ => "Invalid shape " ++ shapeToString proto.dims

def inconsistentSize (expected got : Nat) : ElemType → String
  | .string | .float16 | .bfloat16 =>
    "The buffer planner is not consistent with tensor buffer size"
  | _ => "The buffer planner is not consistent with tensor buffer size, " ++
      "expected " ++ toString expected ++ ", got " ++ toString got

/-- `GetTensorByTypeFromTensorProto`: the address of the tensor's data. -/
def getTensorByType (proto : WeightProto) (elem : ElemType)
    (alloc : Nat → Nat) (preallocated preallocatedSize : Nat) :
    Except Failure Nat := do
  let tensorSize := shapeSize proto.dims
  if tensorSize < 0 then
    .error (.status .invalidArgument (proto.invalidShape elem))
  else
    match calcMemSizeForArrayWithAlignment 256 tensorSize.toNat elem.size with
    | none => .error (.status .invalidArgument "size overflow")
    | some size =>
      if preallocated ≠ 0 ∧ preallocatedSize ≠ size then
        .error (.status .fail (inconsistentSize size preallocatedSize elem))
      else
        let data := if preallocated ≠ 0 then preallocated else alloc size
        proto.unpackTensor elem data tensorSize
        return data

/-- `GetTensorFromTensorProto`. -/
def getTensor (proto : WeightProto) (alloc : Nat → Nat)
    (preallocated preallocatedSize : Nat) :
    Except Failure (ElemType × Nat) :=
  match proto.dataType with
  | none => .error (.status .invalidArgument
      ("Initialized tensor with unexpected type: " ++
        toString proto.dataTypeNumber))
  | some elem => do
      let data ← proto.getTensorByType elem alloc preallocated preallocatedSize
      return (elem, data)

end WeightProto

namespace WeightLoader

/-- `MLValueNameIdxMap::GetIdx`. -/
def getIdx (loader : WeightLoader) (name : String) :
    Except Failure MLValueIndex :=
  if name ∈ loader.names then .ok (loader.names.idxOf name)
  else .error (.status .fail ("Could not find MLValue with name: " ++ name))

def locationOf (loader : WeightLoader) (name : String) : OrtAllocatorInfo :=
  (loader.plan.allocPlan (loader.names.idxOf name)).location

/-- `PlanTensor`. -/
def planTensor (loader : WeightLoader) (planner : MLValuePatternPlanner)
    (entry : String × WeightProto) : Except Failure MLValuePatternPlanner := do
  let mlValueIndex ← loader.getIdx entry.1
  match getSizeInBytesFromTensorProto 256 entry.2 with
  | .error (.status .notImplemented _) => .ok planner
  | .error failure => .error failure
  | .ok len => planner.traceAllocation loader.plan mlValueIndex len

/-- The buffer for a pattern; a pattern without bytes has a null pointer. -/
def bufferOf (loader : WeightLoader)
    (entry : OrtAllocatorInfo × MemoryPattern) : Extent :=
  ⟨if 0 < entry.2.peakSize then loader.bufferAt entry.1 else 0,
    entry.2.peakSize⟩

/-- One round of the second loop. -/
def allocateBuffer (loader : WeightLoader)
    (buffers : List (OrtAllocatorInfo × Extent))
    (entry : OrtAllocatorInfo × MemoryPattern) :
    Except Failure (List (OrtAllocatorInfo × Extent)) :=
  if (buffers.lookup entry.1).isSome then
    .error (.enforce ("Existing entry in weights buffer for " ++ entry.1.name))
  else if loader.hasAllocator entry.1 = false then
    .error (.status .fail ("Failed to get allocator for location: " ++
      entry.1.toString))
  else
    .ok (buffers ++ [(entry.1, loader.bufferOf entry)])

/-- `DeserializeTensorProto`: on the CPU a tensor is decoded where it belongs,
elsewhere it is decoded first and then copied. -/
def deserializeTensorProto (loader : WeightLoader)
    (entry : String × WeightProto) (location : OrtAllocatorInfo)
    (preallocated preallocatedSize : Nat) : Except Failure MLValue := do
  if loader.hasAllocator location = false then
    .error (.status .fail ("Failed to get allocator for alloc_info: " ++
      location.toString))
  else if location.name = cpuName ∨ location.memType = .cpuOutput then
    let (elem, data) ← entry.2.getTensor (loader.alloc entry.1 location)
      preallocated preallocatedSize
    return .tensor elem entry.2.dims data
  else
    let (elem, _) ← entry.2.getTensor (loader.stagingAlloc entry.1) 0 0
    let bytes := sizeMul (shapeSize entry.2.dims).toNat elem.size
    let data := if preallocated ≠ 0 then preallocated
      else loader.alloc entry.1 location bytes
    loader.copyTensor location elem entry.2.dims
    return .tensor elem entry.2.dims data

/-- The message names the initializer. -/
def reported (name : String) {α : Type} : Except Failure α → Except Failure α
  | .error (.status code message) =>
    .error (.status code ("Deserialize tensor " ++ name ++ " failed." ++
      message))
  | result => result

/-- One round of the last loop.  The block is forgotten when the location has
no buffer. -/
def saveTensor (loader : WeightLoader) (memPatterns : MemoryPatternGroup)
    (buffers : List (OrtAllocatorInfo × Extent))
    (entry : String × WeightProto) : Except Failure SavedWeight := do
  let mlValueIndex ← loader.getIdx entry.1
  let location := loader.locationOf entry.1
  match buffers.lookup location, memPatterns.getPatterns location with
  | none, _ => .error (.status .fail "Weight buffer not found")
  | some _, none => .error (.status .fail "mem pattern not found")
  | some buffer, some pattern =>
    let block :=
      if buffer.offset = 0 then none else pattern.getBlock mlValueIndex
    let value ← reported entry.1 (match block with
      | none => loader.deserializeTensorProto entry location 0 0
      | some block => loader.deserializeTensorProto entry location
          (buffer.offset + block.offset) block.size)
    return ⟨mlValueIndex, value, block⟩

/-- `save_tensor_func` is called with what was saved. -/
def appendTensor (loader : WeightLoader) (memPatterns : MemoryPatternGroup)
    (buffers : List (OrtAllocatorInfo × Extent))
    (weights : List (String × SavedWeight)) (entry : String × WeightProto) :
    Except Failure (List (String × SavedWeight)) := do
  let weight ← loader.saveTensor memPatterns buffers entry
  return weights ++ [(entry.1, weight)]

def planTensors (loader : WeightLoader)
    (tensors : List (String × WeightProto)) :
    Except Failure MLValuePatternPlanner :=
  tensors.foldlM loader.planTensor (.create loader.plan)

/-- `SaveInitializedTensorsWithMemPattern`, into no buffers or some. -/
def saveInitializedTensorsWithMemPattern (loader : WeightLoader)
    (weightsBuffers : List (OrtAllocatorInfo × Extent))
    (tensors : List (String × WeightProto)) :
    Except Failure SavedWeights := do
  if loader.names.length = 0 then
    .error (.enforce "MLValue indexes should have been populated.")
  else
    let planner ← loader.planTensors tensors
    let memPatterns := planner.generatePatterns
    let buffers ← (memPatterns.locations.zip memPatterns.patterns).foldlM
      loader.allocateBuffer weightsBuffers
    let weights ← tensors.foldlM (loader.appendTensor memPatterns buffers) []
    return ⟨buffers, weights⟩

end WeightLoader

end OnnxRuntime
