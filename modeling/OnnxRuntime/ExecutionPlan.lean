/-
The data of an execution plan: for every value how its buffer is obtained, for
every step which values are freed after it.
-/
import OnnxRuntime.DataTypes
import OnnxRuntime.MemPatternPlanner

namespace OnnxRuntime

abbrev NodeIndex := Nat

inductive OrtMemType where
  | cpuInput | cpuOutput | default
deriving Repr, DecidableEq, Inhabited

inductive OrtAllocatorType where
  | deviceAllocator | arenaAllocator
deriving Repr, DecidableEq, Inhabited

/-- Where a buffer lives.  Equality is that of all fields, as `operator==`. -/
structure OrtAllocatorInfo where
  name : String
  id : Int := 0
  memType : OrtMemType := .default
  type : OrtAllocatorType
deriving Repr, DecidableEq, Inhabited

/-- The name of the CPU allocator. -/
def cpuName : String := "Cpu"

inductive AllocKind where
  | allocate | reuse | preExisting | allocateStatically | allocateOutput
deriving Repr, DecidableEq, Inhabited

/-- How the buffer of one value is obtained; `reusedBuffer` counts only when
the kind is `reuse`. -/
structure AllocPlanPerValue where
  allocKind : AllocKind := .allocate
  valueType : Option TypeProto := none
  location : OrtAllocatorInfo := ⟨cpuName, 0, .default, .arenaAllocator⟩
  reusedBuffer : MLValueIndex := 0
  createFenceIfAsync : Bool := false
deriving Repr, DecidableEq, Inhabited

/-- One step; the default range of frees is empty. -/
structure NodeExecutionPlan where
  nodeIndex : NodeIndex
  freeFromIndex : Nat := 1
  freeToIndex : Nat := 0
deriving Repr, DecidableEq

structure SequentialExecutionPlan where
  allocationPlan : List AllocPlanPerValue := []
  executionPlan : List NodeExecutionPlan := []
  toBeFreed : List MLValueIndex := []
deriving Repr, DecidableEq

/-- The values `ReleaseNodeMLValues` frees after a step:
`to_be_freed[free_from_index .. free_to_index]`. -/
def NodeExecutionPlan.frees (toBeFreed : List MLValueIndex)
    (step : NodeExecutionPlan) : List MLValueIndex :=
  (toBeFreed.drop step.freeFromIndex).take
    (step.freeToIndex + 1 - step.freeFromIndex)

namespace SequentialExecutionPlan

/-- `allocation_plan[index]`, with the default entry behind the end. -/
def allocPlan (plan : SequentialExecutionPlan) (mlValueIndex : MLValueIndex) :
    AllocPlanPerValue :=
  plan.allocationPlan.getD mlValueIndex {}

/-- The value whose buffer a value lives in. -/
def bufferOf (plan : SequentialExecutionPlan) (mlValueIndex : MLValueIndex) :
    MLValueIndex :=
  if (plan.allocPlan mlValueIndex).allocKind = .reuse then
    (plan.allocPlan mlValueIndex).reusedBuffer
  else mlValueIndex

end SequentialExecutionPlan

end OnnxRuntime
