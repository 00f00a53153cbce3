/-
The allocation planner: which value lives in which buffer.  Use counts are
computed along the execution order, then each output is given a buffer of its
own, the buffer of an input, or a buffer that has become free.
-/
import OnnxRuntime.ExceptRuns
import OnnxRuntime.ExecutionPlan
import OnnxRuntime.Status

namespace OnnxRuntime

/-- A dimension of a symbolic shape. -/
inductive Dimension where
  | value (dimValue : Int)
  | param (dimParam : String)
  | unknown
deriving Repr, DecidableEq

/-- A named value; an empty name stands for a missing optional one. -/
structure NodeArg where
  name : String
  type : Option TypeProto := none
  dims : Option (List Dimension) := none
deriving Repr, DecidableEq

def NodeArg.Exists (arg : NodeArg) : Prop := arg.name ≠ ""

instance (arg : NodeArg) : Decidable arg.Exists :=
  inferInstanceAs (Decidable (arg.name ≠ ""))

/-- `NodeArg::Shape`. -/
def NodeArg.shape (arg : NodeArg) : Option (List Dimension) :=
  match arg.type with
  | some (.tensorType _) => arg.dims
  | some (.sparseTensorType _) => arg.dims
  | _ => none

/-- Alias and in-place pairs name an input and an output by position. -/
structure KernelDef where
  aliasMap : List (Int × Int) := []
  inplaceMap : List (Int × Int) := []
  inputMemoryType : Nat → OrtMemType := fun _ => .default
  outputMemoryType : Nat → OrtMemType := fun _ => .default
  execQueueId : Int := 0

structure ExecutionProvider where
  allocatorInfo : OrtMemType → OrtAllocatorInfo

/-- A node with the kernel and the provider it is bound to. -/
structure Node where
  index : NodeIndex
  name : String := ""
  opType : String := ""
  sinceVersion : Int := 1
  inputDefs : List NodeArg
  implicitInputDefs : List NodeArg := []
  outputDefs : List NodeArg
  kernelDef : Option KernelDef
  provider : Option ExecutionProvider

structure GraphViewer where
  inputs : List NodeArg
  outputs : List NodeArg
  initializers : List NodeArg
  nodes : List Node
  nodesInTopologicalOrder : List Node

/-- What the planner is given.  `names` is the `MLValueNameIdxMap`: the index
of a value is its position. -/
structure PlannerContext where
  graph : GraphViewer
  outerScopeNodeArgs : List NodeArg := []
  cpuProvider : ExecutionProvider
  names : List String
  elementSize : ElemType → Nat
  enableParallelExecution : Bool := false

structure MLValueInfo where
  defSite : Option NodeArg := none
  usecount : Int := 0
  reusedBufferIndex : MLValueIndex := 0

structure FreeBufferInfo where
  mlValue : MLValueIndex
  deallocatePoint : Nat
deriving Repr, DecidableEq

/-- The state of the planner; `allocation_plan` is completed in it. -/
structure PlannerImpl where
  mlValueInfo : MLValueIndex → MLValueInfo := fun _ => {}
  allocPlan : MLValueIndex → AllocPlanPerValue := fun _ => {}
  freelist : List FreeBufferInfo := []

namespace PlannerImpl

def useCount (s : PlannerImpl) (n : MLValueIndex) : Int :=
  (s.mlValueInfo n).usecount

def buffer (s : PlannerImpl) (n : MLValueIndex) : MLValueIndex :=
  (s.mlValueInfo n).reusedBufferIndex

def setInfo (s : PlannerImpl) (n : MLValueIndex) (info : MLValueInfo) :
    PlannerImpl :=
  { s with mlValueInfo := Function.update s.mlValueInfo n info }

def addUses (s : PlannerImpl) (n : MLValueIndex) (uses : Int) : PlannerImpl :=
  s.setInfo n { s.mlValueInfo n with usecount := s.useCount n + uses }

def setPlan (s : PlannerImpl) (n : MLValueIndex) (plan : AllocPlanPerValue) :
    PlannerImpl :=
  { s with allocPlan := Function.update s.allocPlan n plan }

def setKind (s : PlannerImpl) (n : MLValueIndex) (kind : AllocKind) :
    PlannerImpl :=
  s.setPlan n { s.allocPlan n with allocKind := kind }

def processDef (s : PlannerImpl) (id : MLValueIndex) (defSite : NodeArg) :
    PlannerImpl :=
  s.setInfo id { defSite := some defSite, usecount := 0, reusedBufferIndex := id }

def reuse (s : PlannerImpl) (reused reusedFor : MLValueIndex) :
    Except Failure PlannerImpl :=
  if reused = reusedFor then .error (.enforce "reused != reused_for")
  else
    let original := s.buffer reused
    let attached := s.setInfo reusedFor
      { s.mlValueInfo reusedFor with reusedBufferIndex := original }
    let counted := attached.addUses original (attached.useCount reusedFor)
    .ok (counted.setPlan reusedFor { counted.allocPlan reusedFor with
        allocKind := .reuse
        reusedBuffer := original })

end PlannerImpl

/-- `SameShape`: equal known dimensions or equal symbols. -/
def sameShape (shape1 shape2 : List Dimension) : Bool :=
  shape1.length = shape2.length ∧
    ∀ dims ∈ shape1.zip shape2, dims.1 = dims.2 ∧ dims.1 ≠ .unknown

namespace PlannerContext

variable (ctx : PlannerContext)

/-- `Index`. -/
def indexOf (name : String) : Except Failure MLValueIndex :=
  match ctx.names.idxOf? name with
  | some index => .ok index
  | none => .error (.enforce ("Could not find MLValue with name: " ++ name))

/-- `GetElementSize`, of a value type that may be missing. -/
def getElementSize (type : Option TypeProto) : Except Failure Nat :=
  match type with
  | none => .error .nullDereference
  | some (.tensorType elem) => .ok (ctx.elementSize elem)
  | some _ => .error (.enforce "nullptr != tensor_type_base")

def sameSize (shape1 : List Dimension) (type1 : Option TypeProto)
    (shape2 : List Dimension) (type2 : Option TypeProto) :
    Except Failure Bool := do
  let size1 ← ctx.getElementSize type1
  let size2 ← ctx.getElementSize type2
  return size1 == size2 && sameShape shape1 shape2

def sameSizeArgs (arg1 arg2 : NodeArg) : Except Failure Bool :=
  if ¬ arg1.Exists ∨ ¬ arg2.Exists then .ok false
  else
    match arg1.shape, arg2.shape with
    | some shape1, some shape2 =>
      ctx.sameSize shape1 arg1.type shape2 arg2.type
    | _, _ => .ok false

/-- The input a pair names, if it exists. -/
def pairInput (inputs : List NodeArg) (position : Int) : Option NodeArg :=
  if 0 ≤ position then
    match inputs[position.toNat]? with
    | some arg => if arg.Exists then some arg else none
    | none => none
  else none

/-- The first alias pair of an output whose input exists. -/
def findAlias (inputs : List NodeArg) (outputArgNum : Nat) :
    List (Int × Int) → Option NodeArg
  | [] => none
  | pair :: rest =>
    if pair.2 = outputArgNum then
      match pairInput inputs pair.1 with
      | some arg => some arg
      | none => findAlias inputs outputArgNum rest
    else findAlias inputs outputArgNum rest

/-- The first in-place pair of an output whose input is of the same size and
in its last use. -/
def findInplace (s : PlannerImpl) (inputs : List NodeArg)
    (outputArg : NodeArg) (outputArgNum : Nat) :
    List (Int × Int) → Except Failure (Option MLValueIndex)
  | [] => .ok none
  | pair :: rest =>
    if pair.2 = outputArgNum then
      match pairInput inputs pair.1 with
      | some arg => do
          let inputIndex ← ctx.indexOf arg.name
          if s.useCount (s.buffer inputIndex) = 1 then
            if ← ctx.sameSizeArgs arg outputArg then
              return some inputIndex
            else findInplace s inputs outputArg outputArgNum rest
          else findInplace s inputs outputArg outputArgNum rest
      | none => findInplace s inputs outputArg outputArgNum rest
    else findInplace s inputs outputArg outputArgNum rest

def findReusableInput (s : PlannerImpl) (node : Node) (outputArgNum : Nat) :
    Except Failure (Option MLValueIndex) :=
  match node.outputDefs[outputArgNum]?, node.kernelDef with
  | none, _ => .error .nullDereference
  | some _, none => .error (.enforce "nullptr != p_opkernel_def")
  | some outputArg, some kernelDef =>
    match findAlias node.inputDefs outputArgNum kernelDef.aliasMap with
    | some arg => do return some (← ctx.indexOf arg.name)
    | none => ctx.findInplace s node.inputDefs outputArg outputArgNum
        kernelDef.inplaceMap

/-- Whether a free buffer suits an output. -/
def reusable (s : PlannerImpl) (requiredShape : List Dimension)
    (requiredType : Option TypeProto) (requiredLocation : OrtAllocatorInfo)
    (item : FreeBufferInfo) : Except Failure Bool :=
  match (s.mlValueInfo item.mlValue).defSite with
  | none => .error .nullDereference
  | some arg => do
      let available ← ctx.indexOf arg.name
      if (s.allocPlan available).location ≠ requiredLocation then return false
      else
        match arg.shape with
        | none => return false
        | some shape => ctx.sameSize shape arg.type requiredShape requiredType

/-- The first free buffer that suits; the caller takes it off the list. -/
def findFree (s : PlannerImpl) (requiredShape : List Dimension)
    (requiredType : Option TypeProto) (requiredLocation : OrtAllocatorInfo) :
    List FreeBufferInfo → Except Failure (Option FreeBufferInfo)
  | [] => .ok none
  | item :: rest => do
      if ← ctx.reusable s requiredShape requiredType requiredLocation item then
        return some item
      else findFree s requiredShape requiredType requiredLocation rest

def findReusableTensor (s : PlannerImpl) (outputArg : NodeArg) :
    Except Failure (Option FreeBufferInfo) :=
  match outputArg.shape with
  | none => .ok none
  | some shape => do
      let index ← ctx.indexOf outputArg.name
      ctx.findFree s shape outputArg.type (s.allocPlan index).location
        s.freelist

/-- The definition of a graph input, an outer-scope value or an initializer;
the extra use stands for the owner. -/
def defineSource (s : PlannerImpl) (arg : NodeArg) :
    Except Failure PlannerImpl := do
  let index ← ctx.indexOf arg.name
  return (s.processDef index arg).addUses index 1

/-- A use of a value that need not exist. -/
def countUse (s : PlannerImpl) (arg : NodeArg) : Except Failure PlannerImpl :=
  if arg.Exists then do
    let index ← ctx.indexOf arg.name
    return s.addUses index 1
  else .ok s

def defineOutput (kernelDef : KernelDef) (provider : ExecutionProvider)
    (s : PlannerImpl) (output : NodeArg × Nat) :
    Except Failure PlannerImpl :=
  if output.1.Exists then do
    let index ← ctx.indexOf output.1.name
    let counted := (s.processDef index output.1).addUses index 1
    let default := provider.allocatorInfo .default
    if default.name ≠ cpuName then
      let memoryType := kernelDef.outputMemoryType output.2
      return counted.setPlan index
        { counted.allocPlan index with
          location := if memoryType = .default then default
            else provider.allocatorInfo memoryType }
    else return counted
  else .ok s

def markFence (s : PlannerImpl) (arg : NodeArg) : Except Failure PlannerImpl :=
  if arg.Exists then do
    let index ← ctx.indexOf arg.name
    return s.setPlan index { s.allocPlan index with createFenceIfAsync := true }
  else .ok s

/-- One step of the execution plan in `ComputeUseCounts`. -/
def countNode (s : PlannerImpl) (node : Node) : Except Failure PlannerImpl := do
  let s ← node.inputDefs.foldlM ctx.countUse s
  let s ← node.implicitInputDefs.foldlM ctx.countUse s
  match node.kernelDef with
  | none => .error (.status .fail
      ("No suitable kernel definition found for op " ++ node.opType ++ "(" ++
        toString node.sinceVersion ++ ")" ++
        if node.name = "" then "" else " (node " ++ node.name ++ ")"))
  | some kernelDef =>
    match node.provider with
    | none => .error (.enforce "exec_provider")
    | some provider =>
      let s ← node.outputDefs.zipIdx.foldlM
        (ctx.defineOutput kernelDef provider) s
      if kernelDef.execQueueId ≠ 0 then
        (node.inputDefs ++ node.implicitInputDefs ++
          node.outputDefs).foldlM ctx.markFence s
      else return s

/-- A graph output is used once more, by the caller. -/
def countGraphOutput (s : PlannerImpl) (arg : NodeArg) :
    Except Failure PlannerImpl := do
  let index ← ctx.indexOf arg.name
  return s.addUses index 1

def computeUseCounts (s : PlannerImpl) : Except Failure PlannerImpl := do
  let s ← ctx.graph.inputs.foldlM ctx.defineSource s
  let s ← ctx.outerScopeNodeArgs.foldlM ctx.defineSource s
  let s ← ctx.graph.initializers.foldlM ctx.defineSource s
  let s ← ctx.graph.nodesInTopologicalOrder.foldlM ctx.countNode s
  ctx.graph.outputs.foldlM ctx.countGraphOutput s

/-- An input of a node in `GeneratePlanForWeights`. -/
def planWeight (node : Node) (s : PlannerImpl) (input : NodeArg × Nat) :
    Except Failure PlannerImpl :=
  if input.1.Exists ∧
      input.1.name ∈ ctx.graph.initializers.map NodeArg.name then do
    let index ← ctx.indexOf input.1.name
    match node.provider, node.kernelDef with
    | none, _ => .error (.enforce "p_provider")
    | some _, none => .error .nullDereference
    | some provider, some kernelDef =>
      let onCpu := kernelDef.inputMemoryType input.2 ≠ .default
      return s.setPlan index
        { s.allocPlan index with
          allocKind := .allocateStatically
          location :=
            (if onCpu then ctx.cpuProvider else provider).allocatorInfo
              .default }
  else .ok s

def generatePlanForWeights (s : PlannerImpl) : Except Failure PlannerImpl :=
  ctx.graph.nodes.foldlM
    (fun s node => node.inputDefs.zipIdx.foldlM (ctx.planWeight node) s) s

def setupPreexisting (s : PlannerImpl) (arg : NodeArg) :
    Except Failure PlannerImpl := do
  let index ← ctx.indexOf arg.name
  match arg.type with
  | none => .error .nullDereference
  | some type =>
    return s.setPlan index
      { s.allocPlan index with
        allocKind := .preExisting
        valueType := some type }

/-- Where one existing output of a node goes. -/
def planOutput (node : Node) (s : PlannerImpl) (output : NodeArg)
    (outputArgNum : Nat) : Except Failure PlannerImpl := do
  let current ← ctx.indexOf output.name
  match output.type with
  | none => .error .nullDereference
  | some type =>
    let typed := s.setPlan current
      { s.allocPlan current with valueType := some type }
    if output.name ∈ ctx.graph.outputs.map NodeArg.name then
      return typed.setKind current .allocateOutput
    else if ¬ type.hasTensorType then
      return typed.setKind current .allocate
    else
      match ← ctx.findReusableInput typed node outputArgNum with
      | some reused => typed.reuse reused current
      | none =>
        -- A dead buffer is taken only when the nodes run one by one.
        if ctx.enableParallelExecution then
          return typed.setKind current .allocate
        else
          match ← ctx.findReusableTensor typed output with
          | some item =>
            PlannerImpl.reuse
              { typed with freelist := typed.freelist.erase item }
              item.mlValue current
          | none => return typed.setKind current .allocate

/-- A round of the loop over the outputs, with `output_arg_num`; only existing
outputs are numbered. -/
def outputStep (node : Node) (state : PlannerImpl × Nat) (output : NodeArg) :
    Except Failure (PlannerImpl × Nat) :=
  if output.Exists then do
    return (← ctx.planOutput node state.1 output state.2, state.2 + 1)
  else .ok state

def planOutputs (node : Node) (s : PlannerImpl) (outputArgNum : Nat)
    (outputs : List NodeArg) : Except Failure PlannerImpl := do
  return (← outputs.foldlM (ctx.outputStep node) (s, outputArgNum)).1

/-- One use of a value has taken place; a buffer without uses becomes free. -/
def releaseUse (programCounter : Nat) (s : PlannerImpl) (arg : NodeArg) :
    Except Failure PlannerImpl :=
  if arg.Exists then do
    let index ← ctx.indexOf arg.name
    let original := s.buffer index
    let dropped := s.addUses original (-1)
    if dropped.useCount original = 0 then
      return { dropped with
        freelist := ⟨original, programCounter⟩ :: dropped.freelist }
    else return dropped
  else .ok s

/-- One step of the execution plan in `ComputeReusePlan`. -/
def planNode (s : PlannerImpl) (step : Node × Nat) :
    Except Failure PlannerImpl := do
  let s ← ctx.planOutputs step.1 s 0 step.1.outputDefs
  let s ← step.1.inputDefs.foldlM (ctx.releaseUse step.2) s
  let s ← step.1.implicitInputDefs.foldlM (ctx.releaseUse step.2) s
  step.1.outputDefs.foldlM (ctx.releaseUse step.2) s

def computeReusePlan (s : PlannerImpl) : Except Failure PlannerImpl := do
  let s ← ctx.graph.inputs.foldlM ctx.setupPreexisting s
  let s ← ctx.outerScopeNodeArgs.foldlM ctx.setupPreexisting s
  let s ← ctx.generatePlanForWeights s
  ctx.graph.nodesInTopologicalOrder.zipIdx.foldlM ctx.planNode s

end PlannerContext

/-- The variables of the loop in `GenerateDeallocationPlan`. -/
structure DeallocationScan where
  executionPlan : List NodeExecutionPlan
  toBeFreed : List MLValueIndex := []
  hasPrevDeallocPoint : Bool := false
  prevDeallocPoint : Nat := 0
  current : Nat := 0

namespace DeallocationScan

/-- `execution_plan[prev_dealloc_point].free_to_index = current - 1`. -/
def close (scan : DeallocationScan) : List NodeExecutionPlan :=
  if scan.hasPrevDeallocPoint then
    scan.executionPlan.modify scan.prevDeallocPoint fun step =>
      { step with freeToIndex := scan.current - 1 }
  else scan.executionPlan

def visit (scan : DeallocationScan) (item : FreeBufferInfo) :
    DeallocationScan :=
  if item.deallocatePoint ≠ scan.prevDeallocPoint then
    { executionPlan := scan.close.modify item.deallocatePoint fun step =>
        { step with freeFromIndex := scan.current }
      toBeFreed := scan.toBeFreed ++ [item.mlValue]
      hasPrevDeallocPoint := true
      prevDeallocPoint := item.deallocatePoint
      current := scan.current + 1 }
  else
    { scan with
      toBeFreed := scan.toBeFreed ++ [item.mlValue]
      current := scan.current + 1 }

end DeallocationScan

/-- The steps and the list of values to be freed. -/
def generateDeallocationPlan (freelist : List FreeBufferInfo)
    (executionPlan : List NodeExecutionPlan) :
    List NodeExecutionPlan × List MLValueIndex :=
  let scan := freelist.reverse.foldl DeallocationScan.visit
    { executionPlan := executionPlan }
  (scan.close, scan.toBeFreed)

namespace PlannerContext

variable (ctx : PlannerContext)

/-- The state after both passes. -/
def planState : Except Failure PlannerImpl := do
  let s ← ctx.computeUseCounts {}
  ctx.computeReusePlan s

/-- There is one entry more than there are names. -/
def createPlan : Except Failure SequentialExecutionPlan := do
  let s ← ctx.planState
  let freed := generateDeallocationPlan s.freelist
    (ctx.graph.nodesInTopologicalOrder.map fun node =>
      { nodeIndex := node.index })
  return {
    allocationPlan := (List.range (ctx.names.length + 1)).map s.allocPlan
    executionPlan := freed.1
    toBeFreed := freed.2 }

end PlannerContext

end OnnxRuntime
