/-
The execution frame: where the values of one run live.  Outputs are allocated
as the plan says; a frame either records its allocations for a memory pattern
or replays a pattern recorded by an earlier run.
-/
import OnnxRuntime.ExceptRuns
import OnnxRuntime.ExecutionPlan
import OnnxRuntime.Lifetimes
import OnnxRuntime.MemPatternTrace
import OnnxRuntime.Status
import Mathlib.Data.List.Dedup

namespace OnnxRuntime

open List

variable {events : List FrameEvent}

/-- The patterns of all locations, in two parallel lists. -/
structure MemoryPatternGroup where
  locations : List OrtAllocatorInfo
  patterns : List MemoryPattern

def MemoryPatternGroup.getPatterns (group : MemoryPatternGroup)
    (location : OrtAllocatorInfo) : Option MemoryPattern :=
  (group.locations.zip group.patterns).lookup location

/-- One planner for each location of the plan. -/
structure MLValuePatternPlanner where
  plannerMap : List (OrtAllocatorInfo × MemPatternPlanner)

namespace MLValuePatternPlanner

/-- The constructor. -/
def create (plan : SequentialExecutionPlan) : MLValuePatternPlanner :=
  ⟨(plan.allocationPlan.map AllocPlanPerValue.location).dedup.map
    fun location => (location, {})⟩

def update (planner : MLValuePatternPlanner) (location : OrtAllocatorInfo)
    (op : TraceOp) : MLValuePatternPlanner :=
  ⟨planner.plannerMap.map fun entry =>
    (entry.1, if entry.1 = location then op.apply entry.2 else entry.2)⟩

/-- Pass a call on to the planner of a location. -/
def trace (planner : MLValuePatternPlanner) (location : OrtAllocatorInfo)
    (op : TraceOp) : Except Failure MLValuePatternPlanner :=
  match planner.plannerMap.lookup location with
  | none => .error (.status .invalidArgument "")
  | some _ => .ok (planner.update location op)

def traceAllocation (planner : MLValuePatternPlanner)
    (plan : SequentialExecutionPlan) (mlValueIdx : MLValueIndex)
    (size : Nat) : Except Failure MLValuePatternPlanner :=
  planner.trace (plan.allocPlan mlValueIdx).location
    (.allocation mlValueIdx size)

def traceFree (planner : MLValuePatternPlanner)
    (plan : SequentialExecutionPlan) (mlValueIdx : MLValueIndex) :
    Except Failure MLValuePatternPlanner :=
  planner.trace (plan.allocPlan mlValueIdx).location (.free mlValueIdx)

def generatePatterns (planner : MLValuePatternPlanner) : MemoryPatternGroup :=
  ⟨planner.plannerMap.map Prod.fst,
    planner.plannerMap.map fun entry => entry.2.generateMemPattern⟩

end MLValuePatternPlanner

/-- A value of a frame; a tensor keeps the address of its first byte. -/
inductive MLValue where
  | unallocated
  | tensor (elem : ElemType) (shape : List Int) (data : Nat)
  | traditional (type : TypeProto)
deriving Repr, DecidableEq, Inhabited

def MLValue.isAllocated : MLValue → Bool
  | .unallocated => false
  | _ => true

/-- What a frame reads of the session: the plan and the element sizes. -/
structure SessionState where
  executionPlan : SequentialExecutionPlan
  elementSize : ElemType → Nat

/-- A frame has a `planner` while it records, and `memPatterns` with one
pre-allocated buffer for each location while it replays. -/
structure ExecutionFrame where
  allValues : List MLValue
  outputIndices : List MLValueIndex := []
  memPatterns : Option MemoryPatternGroup := none
  planner : Option MLValuePatternPlanner := none
  buffers : List (OrtAllocatorInfo × Extent) := []

/-- A kernel asks for an output, or the executor releases a value.  `fresh` is
what the allocator answers if it is asked. -/
inductive FrameEvent where
  | output (mlValueIdx : MLValueIndex) (shape : List Int) (fresh : Nat)
  | release (mlValueIdx : MLValueIndex)
deriving Repr, DecidableEq

/-- The bytes `AllocateMLValueTensorSelfOwnBufferHelper` asks for. -/
def SessionState.tensorBytes (session : SessionState) (elem : ElemType)
    (shape : List Int) : Except Failure Nat :=
  if shapeSize shape < 0 then
    .error (.status .invalidArgument
      "Tensor shape cannot contain any negative value")
  else
    match calcMemSizeForArrayWithAlignment 64 (shapeSize shape).toNat
        (session.elementSize elem) with
    | none => .error (.status .fail "size overflow")
    | some size => .ok size

namespace ExecutionFrame

def value (frame : ExecutionFrame) (mlValueIdx : MLValueIndex) : MLValue :=
  frame.allValues.getD mlValueIdx .unallocated

def setValue (frame : ExecutionFrame) (mlValueIdx : MLValueIndex)
    (value : MLValue) : ExecutionFrame :=
  { frame with allValues := frame.allValues.set mlValueIdx value }

/-- A frame of a run for which no pattern is cached. -/
def recording (session : SessionState) (initial : List MLValue)
    (outputIndices : List MLValueIndex) : ExecutionFrame where
  allValues := initial
  outputIndices := outputIndices
  planner := some (.create session.executionPlan)

/-- A frame that replays a cached pattern.  `base` are the addresses of the
pre-allocated buffers; an empty one is a null pointer. -/
def replaying (group : MemoryPatternGroup) (base : OrtAllocatorInfo → Nat)
    (initial : List MLValue) (outputIndices : List MLValueIndex) :
    ExecutionFrame where
  allValues := initial
  outputIndices := outputIndices
  memPatterns := some group
  buffers := (group.locations.zip group.patterns).map fun entry =>
    (entry.1, ⟨if 0 < entry.2.peakSize then base entry.1 else 0,
      entry.2.peakSize⟩)

section

variable (session : SessionState) (frame : ExecutionFrame)
  (mlValueIdx : MLValueIndex)

/-- The address in the pre-allocated buffer, if the pattern has a block of the
right size. -/
def patternAddress (location : OrtAllocatorInfo) (size : Nat) : Option Nat := do
  let group ← frame.memPatterns
  guard ((session.executionPlan.allocPlan mlValueIdx).allocKind ≠
    .allocateOutput)
  let pattern ← group.getPatterns location
  let block ← pattern.getBlock mlValueIdx
  let buffer ← frame.buffers.lookup location
  guard (block.size = size)
  return buffer.offset + block.offset

/-- Take over what the planner did; a failed call is only logged. -/
def logged (result : Except Failure MLValuePatternPlanner) : ExecutionFrame :=
  match result with
  | .ok traced => { frame with planner := some traced }
  | .error _ => frame

def traceAllocate (size : Nat) : ExecutionFrame :=
  match frame.planner with
  | none => frame
  | some planner =>
    if (session.executionPlan.allocPlan mlValueIdx).allocKind =
        .allocateOutput then frame
    else
      frame.logged
        (planner.traceAllocation session.executionPlan mlValueIdx size)

/-- The end of `AllocateMLValueTensorSelfOwnBufferHelper`: no pattern, or the
pattern is not correct. -/
def allocateSeparately (elem : ElemType) (shape : List Int)
    (size fresh : Nat) : ExecutionFrame :=
  let placed := frame.setValue mlValueIdx
    (.tensor elem shape (if size = 0 then 0 else fresh))
  -- Strings need placement new and are never part of a pattern.
  if elem = .string then placed
  else placed.traceAllocate session mlValueIdx size

/-- With the frame the buffer that a tensor is given.  `alloc` is what the
allocator answers to a request. -/
def allocateMLValueTensorSelfOwnBufferHelper (elem : ElemType)
    (location : OrtAllocatorInfo) (shape : List Int) (alloc : Nat → Nat) :
    Except Failure (ExecutionFrame × Option Extent) :=
  if (frame.value mlValueIdx).isAllocated then .ok (frame, none)
  else do
    let size ← session.tensorBytes elem shape
    match frame.patternAddress session mlValueIdx location size with
    | some address =>
      return (frame.setValue mlValueIdx (.tensor elem shape address),
        some ⟨address, size⟩)
    | none =>
      return (frame.allocateSeparately session mlValueIdx elem shape size
          (alloc size),
        some ⟨if size = 0 then 0 else alloc size, size⟩)

def allocateMLValueTensorPreAllocateBuffer (reuse : MLValueIndex)
    (elem : ElemType) (shape : List Int) :
    Except Failure ExecutionFrame :=
  if frame.allValues.length ≤ reuse then
    .error (.enforce "mlvalue_index_reuse < all_values_.size()")
  else
    match frame.value reuse with
    | .tensor _ _ data =>
      if (frame.value mlValueIdx).isAllocated then .ok frame
      else .ok (frame.setValue mlValueIdx (.tensor elem shape data))
    | _ => .error (.enforce "DataTypeImpl::GetType<T>() == type_")

def allocateAsPerAllocationPlan (shape : List Int) (fresh : Nat) :
    Except Failure ExecutionFrame :=
  if frame.allValues.length ≤ mlValueIdx then
    .error (.status .invalidArgument
      ("Tried to allocated with invalid mlvalue index: " ++
        toString mlValueIdx))
  else if session.executionPlan.allocationPlan.length ≤ mlValueIdx then
    .error (.enforce "mlvalue_index >= 0 && mlvalue_index < alloc_plan.size()")
  else
    let perAllocPlan := session.executionPlan.allocPlan mlValueIdx
    match perAllocPlan.valueType with
    | none =>
      .error (.status .invalidArgument
        ("Tried to allocate without valid type information, mlvalue index=" ++
          toString mlValueIdx))
    | some (.tensorType elem) =>
      match perAllocPlan.allocKind with
      | .allocateOutput | .allocate => do
        let (frame, _) ← frame.allocateMLValueTensorSelfOwnBufferHelper session
          mlValueIdx elem perAllocPlan.location shape (fun _ => fresh)
        return frame
      | .reuse =>
        frame.allocateMLValueTensorPreAllocateBuffer mlValueIdx
          perAllocPlan.reusedBuffer elem shape
      | .preExisting =>
        .error (.status .fail "Invalid allocation kind: 2")
      | .allocateStatically =>
        .error (.status .fail "Invalid allocation kind: 3")
    | some type => .ok (frame.setValue mlValueIdx (.traditional type))

/-- For an output that exists, given by its value index. -/
def getOrCreateNodeOutputMLValue (shape : List Int) (fresh : Nat) :
    Except Failure ExecutionFrame :=
  match frame.value mlValueIdx with
  | .unallocated =>
    frame.allocateAsPerAllocationPlan session mlValueIdx shape fresh
  | .tensor _ current _ =>
    if current = shape then .ok frame
    else .error (.enforce
      ("MLValue shape verification failed. Current shape:" ++
        shapeToString current ++ " Requested shape:" ++
        shapeToString shape))
  | .traditional _ => .ok frame

def traceFree : Except Failure ExecutionFrame :=
  match frame.planner with
  | none => .ok frame
  | some planner =>
    if mlValueIdx ∈ frame.outputIndices then .ok frame
    else
      match (session.executionPlan.allocPlan mlValueIdx).valueType with
      | none => .error .nullDereference
      | some (.tensorType elem) =>
        if elem = .string then .ok frame
        else
          .ok (frame.logged
            (planner.traceFree session.executionPlan mlValueIdx))
      | some _ => .ok frame

def releaseMLValue : Except Failure ExecutionFrame :=
  if frame.allValues.length ≤ mlValueIdx then
    .error (.status .invalidArgument ("invalid index " ++ toString mlValueIdx))
  else (frame.setValue mlValueIdx .unallocated).traceFree session mlValueIdx

def apply : FrameEvent → Except Failure ExecutionFrame
  | .output mlValueIdx shape fresh =>
    frame.getOrCreateNodeOutputMLValue session mlValueIdx shape fresh
  | .release mlValueIdx => frame.releaseMLValue session mlValueIdx

/-- The frame after a history of events. -/
def run (events : List FrameEvent) : Except Failure ExecutionFrame :=
  events.foldlM (apply session) frame

end

def generatePatterns (frame : ExecutionFrame) :
    Except Failure MemoryPatternGroup :=
  match frame.planner with
  | none => .error (.status .fail
      "Memory pattern planner is not enabled on this execution framework.")
  | some planner => .ok planner.generatePatterns

theorem value_setValue {frame : ExecutionFrame} {changed : MLValueIndex}
    {value : MLValue} (hlt : changed < frame.allValues.length)
    (mlValueIdx : MLValueIndex) :
    (frame.setValue changed value).value mlValueIdx =
      if mlValueIdx = changed then value else frame.value mlValueIdx := by
  simp only [ExecutionFrame.value, setValue, getD_eq_getElem?_getD]
  by_cases heq : changed = mlValueIdx
  · subst heq
    simp [hlt]
  · simp [heq, Ne.symm heq]

end ExecutionFrame

/-- A tensor whose buffer the frame allocates for it alone. -/
structure SessionState.SelfOwned (session : SessionState)
    (mlValueIdx : MLValueIndex) (elem : ElemType) : Prop where
  isTensor : (session.executionPlan.allocPlan mlValueIdx).valueType =
    some (.tensorType elem)
  ownKind : (session.executionPlan.allocPlan mlValueIdx).allocKind = .allocate ∨
    (session.executionPlan.allocPlan mlValueIdx).allocKind = .allocateOutput

namespace ExecutionFrame

/-- Everything a successful request for an output can do. -/
inductive OutputStep (session : SessionState) (frame : ExecutionFrame)
    (mlValueIdx : MLValueIndex) (shape : List Int) (fresh : Nat) :
    ExecutionFrame → Prop
  | present (hallocated : (frame.value mlValueIdx).isAllocated = true) :
      OutputStep session frame mlValueIdx shape fresh frame
  | shared (value : MLValue) (hvalue : value.isAllocated = true)
      (hnew : frame.value mlValueIdx = .unallocated)
      (hlt : mlValueIdx < frame.allValues.length)
      (hshared : ∀ elem, ¬ session.SelfOwned mlValueIdx elem) :
      OutputStep session frame mlValueIdx shape fresh
        (frame.setValue mlValueIdx value)
  | placed (elem : ElemType) (size address : Nat)
      (hnew : frame.value mlValueIdx = .unallocated)
      (hlt : mlValueIdx < frame.allValues.length)
      (hown : session.SelfOwned mlValueIdx elem)
      (hbytes : session.tensorBytes elem shape = .ok size)
      (haddress : frame.patternAddress session mlValueIdx
        (session.executionPlan.allocPlan mlValueIdx).location size =
          some address) :
      OutputStep session frame mlValueIdx shape fresh
        (frame.setValue mlValueIdx (.tensor elem shape address))
  | separate (elem : ElemType) (size : Nat)
      (hnew : frame.value mlValueIdx = .unallocated)
      (hlt : mlValueIdx < frame.allValues.length)
      (hown : session.SelfOwned mlValueIdx elem)
      (hbytes : session.tensorBytes elem shape = .ok size)
      (haddress : frame.patternAddress session mlValueIdx
        (session.executionPlan.allocPlan mlValueIdx).location size = none) :
      OutputStep session frame mlValueIdx shape fresh
        (frame.allocateSeparately session mlValueIdx elem shape size fresh)

variable {session : SessionState} {frame next : ExecutionFrame}
  {mlValueIdx : MLValueIndex} {elem : ElemType} {shape : List Int} {fresh : Nat}

theorem allocateMLValueTensorSelfOwnBufferHelper_cases
    (hown : session.SelfOwned mlValueIdx elem)
    (hnew : frame.value mlValueIdx = .unallocated)
    (hlt : mlValueIdx < frame.allValues.length)
    {buffer : Option Extent}
    (h : frame.allocateMLValueTensorSelfOwnBufferHelper session mlValueIdx elem
      (session.executionPlan.allocPlan mlValueIdx).location shape
        (fun _ => fresh) = .ok (next, buffer)) :
    OutputStep session frame mlValueIdx shape fresh next := by
  rw [allocateMLValueTensorSelfOwnBufferHelper, hnew] at h
  simp only [MLValue.isAllocated, Bool.false_eq_true] at h
  obtain ⟨size, hbytes, hplace⟩ := except_bind_eq_ok.mp h
  cases haddress : frame.patternAddress session mlValueIdx
      (session.executionPlan.allocPlan mlValueIdx).location size with
  | some address =>
    rw [haddress] at hplace
    cases hplace
    exact .placed elem size address hnew hlt hown hbytes haddress
  | none =>
    rw [haddress] at hplace
    cases hplace
    exact .separate elem size hnew hlt hown hbytes haddress

theorem allocateMLValueTensorPreAllocateBuffer_cases {reuse : MLValueIndex}
    (hshared : ∀ elem, ¬ session.SelfOwned mlValueIdx elem)
    (hnew : frame.value mlValueIdx = .unallocated)
    (hlt : mlValueIdx < frame.allValues.length)
    (h : frame.allocateMLValueTensorPreAllocateBuffer mlValueIdx reuse elem
      shape = .ok next) :
    OutputStep session frame mlValueIdx shape fresh next := by
  rw [allocateMLValueTensorPreAllocateBuffer, hnew] at h
  split at h
  · cases h
  · split at h
    · simp only [MLValue.isAllocated, Bool.false_eq_true] at h
      cases h
      exact .shared _ rfl hnew hlt hshared
    · cases h

theorem allocateAsPerAllocationPlan_cases
    (hnew : frame.value mlValueIdx = .unallocated)
    (h : frame.allocateAsPerAllocationPlan session mlValueIdx shape fresh =
      .ok next) :
    OutputStep session frame mlValueIdx shape fresh next := by
  simp only [allocateAsPerAllocationPlan] at h
  split at h
  · cases h
  · rename_i hlt
    rw [Nat.not_le] at hlt
    split at h
    · cases h
    · split at h
      · cases h
      · rename_i elem htype
        split at h
        · rename_i hkind
          obtain ⟨⟨_, buffer⟩, hplace, hnext⟩ := except_bind_eq_ok.mp h
          cases hnext
          exact allocateMLValueTensorSelfOwnBufferHelper_cases
            ⟨htype, .inr hkind⟩ hnew hlt hplace
        · rename_i hkind
          obtain ⟨⟨_, buffer⟩, hplace, hnext⟩ := except_bind_eq_ok.mp h
          cases hnext
          exact allocateMLValueTensorSelfOwnBufferHelper_cases
            ⟨htype, .inl hkind⟩ hnew hlt hplace
        · rename_i hkind
          refine allocateMLValueTensorPreAllocateBuffer_cases ?_ hnew hlt h
          rintro _ ⟨_, hown | hown⟩ <;> simp [hkind] at hown
        · cases h
        · cases h
      · rename_i type htensor htype
        cases h
        refine .shared _ rfl hnew hlt ?_
        rintro elem ⟨hisTensor, _⟩
        rw [htype] at hisTensor
        exact htensor elem (Option.some.inj hisTensor)

theorem apply_output_cases
    (h : frame.apply session (.output mlValueIdx shape fresh) = .ok next) :
    OutputStep session frame mlValueIdx shape fresh next := by
  rw [apply, getOrCreateNodeOutputMLValue] at h
  split at h
  · rename_i hnew
    exact allocateAsPerAllocationPlan_cases hnew h
  · rename_i elem current data hvalue
    split at h
    · cases h
      exact .present (by rw [hvalue]; rfl)
    · cases h
  · rename_i type hvalue
    cases h
    exact .present (by rw [hvalue]; rfl)

theorem logged_eq (frame : ExecutionFrame)
    (result : Except Failure MLValuePatternPlanner) :
    ∃ traced, frame.logged result = { frame with planner := traced } := by
  cases result with
  | ok traced => exact ⟨some traced, rfl⟩
  | error _ => exact ⟨frame.planner, rfl⟩

theorem traceAllocate_eq (session : SessionState) (frame : ExecutionFrame)
    (mlValueIdx : MLValueIndex) (size : Nat) :
    ∃ traced, frame.traceAllocate session mlValueIdx size =
      { frame with planner := traced } := by
  rw [traceAllocate]
  split
  · exact ⟨_, rfl⟩
  · split
    · exact ⟨_, rfl⟩
    · exact logged_eq frame _

theorem allocateSeparately_eq (session : SessionState)
    (frame : ExecutionFrame) (mlValueIdx : MLValueIndex) (elem : ElemType)
    (shape : List Int) (size fresh : Nat) :
    ∃ traced, frame.allocateSeparately session mlValueIdx elem shape size
        fresh =
      { frame.setValue mlValueIdx
          (.tensor elem shape (if size = 0 then 0 else fresh)) with
        planner := traced } := by
  by_cases hstring : elem = .string
  · exact ⟨frame.planner, if_pos hstring⟩
  · simp only [allocateSeparately, hstring]
    exact traceAllocate_eq session _ mlValueIdx size

theorem traceFree_eq_ok (h : frame.traceFree session mlValueIdx = .ok next) :
    ∃ traced, next = { frame with planner := traced } := by
  rw [traceFree] at h
  split at h
  · cases h
    exact ⟨_, rfl⟩
  · split at h
    · cases h
      exact ⟨_, rfl⟩
    · split at h
      · cases h
      · split at h
        · cases h
          exact ⟨_, rfl⟩
        · cases h
          exact logged_eq frame _
      · cases h
        exact ⟨_, rfl⟩

/-- The table of values after a request, whichever way it was met. -/
theorem OutputStep.value_eq
    (h : OutputStep session frame mlValueIdx shape fresh next) :
    ∃ value traced, value.isAllocated = true ∧
      next = { frame.setValue mlValueIdx value with planner := traced } ∧
      ∀ other, next.value other =
        if other = mlValueIdx then value else frame.value other := by
  cases h with
  | present hallocated =>
    refine ⟨frame.value mlValueIdx, frame.planner, hallocated, ?_, ?_⟩
    · have hlt : mlValueIdx < frame.allValues.length := by
        by_contra hge
        rw [ExecutionFrame.value, getD_eq_default _ _
          (Nat.not_lt.mp hge)] at hallocated
        cases hallocated
      simp [setValue, ExecutionFrame.value, hlt]
    · intro other
      split
      · rename_i heq
        rw [heq]
      · rfl
  | shared value hvalue hnew hlt =>
    exact ⟨value, frame.planner, hvalue, rfl, value_setValue hlt⟩
  | placed elem size address hnew hlt =>
    exact ⟨_, frame.planner, rfl, rfl, value_setValue hlt⟩
  | separate elem size hnew hlt =>
    obtain ⟨traced, htraced⟩ := allocateSeparately_eq session frame
      mlValueIdx elem shape size fresh
    rw [htraced]
    exact ⟨_, traced, rfl, rfl, value_setValue hlt⟩

section

variable (h : frame.apply session (.release mlValueIdx) = .ok next)
include h

theorem apply_release_eq_ok : mlValueIdx < frame.allValues.length ∧
      (frame.setValue mlValueIdx .unallocated).traceFree session mlValueIdx =
        .ok next := by
  rw [apply, releaseMLValue] at h
  split at h
  · cases h
  · rename_i hlt
    exact ⟨Nat.not_le.mp hlt, h⟩

theorem value_apply_release (other : MLValueIndex) :
    next.value other =
      if other = mlValueIdx then .unallocated else frame.value other := by
  obtain ⟨hlt, hfree⟩ := apply_release_eq_ok h
  obtain ⟨traced, rfl⟩ := traceFree_eq_ok hfree
  exact value_setValue hlt other

end

/-- What no event of a run changes. -/
theorem apply_constant {event : FrameEvent}
    (h : frame.apply session event = .ok next) :
    next.memPatterns = frame.memPatterns ∧ next.buffers = frame.buffers := by
  cases event with
  | output mlValueIdx shape fresh =>
    obtain ⟨value, traced, _, rfl, _⟩ := (apply_output_cases h).value_eq
    exact ⟨rfl, rfl⟩
  | release mlValueIdx =>
    obtain ⟨traced, rfl⟩ := traceFree_eq_ok (apply_release_eq_ok h).2
    exact ⟨rfl, rfl⟩

theorem run_constant
    (h : frame.run session events = .ok next) :
    next.memPatterns = frame.memPatterns ∧ next.buffers = frame.buffers := by
  induction events generalizing frame with
  | nil =>
    rw [← foldlM_nil_eq_ok.mp h]
    exact ⟨rfl, rfl⟩
  | cons event rest ih =>
    obtain ⟨mid, hmid, hrest⟩ := foldlM_cons_eq_ok.mp h
    have hstep := apply_constant hmid
    rw [← hstep.1, ← hstep.2]
    exact ih hrest

/-- The address depends only on what no event changes. -/
theorem patternAddress_congr (session : SessionState) {other : ExecutionFrame}
    (h : other.memPatterns = frame.memPatterns ∧
      other.buffers = frame.buffers) :
    other.patternAddress session = frame.patternAddress session := by
  funext mlValueIdx location size
  simp only [patternAddress, h.1, h.2]

end ExecutionFrame

/-- What an event does to the lifetime of its value. -/
def FrameEvent.life : FrameEvent → LifeEvent MLValueIndex
  | .output mlValueIdx _ _ => .alloc mlValueIdx
  | .release mlValueIdx => .free mlValueIdx

namespace ExecutionFrame

/-- A value is allocated exactly while the events of the run keep it alive. -/
theorem isAllocated_run {session : SessionState} {frame next : ExecutionFrame}
    (h : frame.run session events = .ok next)
    (mlValueIdx : MLValueIndex) :
    (next.value mlValueIdx).isAllocated = true ↔
      aliveAfter (fun value => (frame.value value).isAllocated = true)
        (events.map FrameEvent.life) mlValueIdx := by
  induction events using reverseRecOn generalizing next with
  | nil =>
    rw [← foldlM_nil_eq_ok.mp h]
    rfl
  | append_singleton events event ih =>
    obtain ⟨mid, hmid, hstep⟩ := foldlM_snoc_eq_ok.mp h
    rw [map_append]
    cases event with
    | output changed shape fresh =>
      obtain ⟨value, _, hvalue, _, heq⟩ := (apply_output_cases hstep).value_eq
      rw [heq, map_singleton, FrameEvent.life, aliveAfter_snoc_alloc]
      by_cases hsame : mlValueIdx = changed
      · simp [hsame, hvalue]
      · simp [hsame, ih hmid]
    | release changed =>
      rw [value_apply_release hstep, map_singleton, FrameEvent.life,
        aliveAfter_snoc_free]
      by_cases hsame : mlValueIdx = changed
      · simp [hsame, MLValue.isAllocated]
      · simp [hsame, ih hmid]

end ExecutionFrame

end OnnxRuntime
