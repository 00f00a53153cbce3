/-
The insertion of casts: nodes without a provider that read float16 tensors are
moved to the CPU, where they compute in float between casts.  Casts that undo
each other are removed again, with those that are left without readers.
-/
import OnnxRuntime.GraphViewer
import OnnxRuntime.NamedGraphs

namespace OnnxRuntime

/-- `DataTypeImpl::TypeFromProto`.  `known` says which types it returns for: for
tensors the switch has no case for complex elements, other types have to be
registered. -/
def typeFromProto (known : TypeProto → Bool) (proto : TypeProto) :
    Except Failure TypeProto :=
  if known proto then .ok proto
  else .error (.thrown "type is not supported or not registered")

/-- A graph with the providers of its nodes and the `to` attributes of its
casts. -/
structure CastGraph where
  graph : Graph
  executionProviderType : NodeIndex → String
  castTo : NodeIndex → Option ElemType

namespace CastGraph

section Types

variable (known : TypeProto → Bool) (s : CastGraph)

/-- The type is known and that of a float16 tensor. -/
def isFloat16 (arg : GraphArg) : Except Failure Bool :=
  match s.graph.argType arg.pointer with
  | none => .ok false
  | some proto => do
      let type ← typeFromProto known proto
      return type = .tensorType .float16

def needInsertCast (index : NodeIndex) (input : GraphArg) :
    Except Failure Bool := do
  let float16 ← s.isFloat16 known input
  return float16 ∧ s.executionProviderType index = ""

def isInputFloat16 (index : NodeIndex) (node : GraphNode) :
    Except Failure Bool :=
  node.inputDefs.anyM fun input => do
    let float16 ← s.isFloat16 known input
    return float16 ∧ s.executionProviderType index ≠ ""

/-- `IsInputFloat16` of the node at the other end of an edge. -/
def isEndFloat16 (edge : EdgeEnd) : Except Failure Bool :=
  match s.graph.node edge.node with
  | none => .error .nullDereference
  | some node => s.isInputFloat16 known edge.node node

def isSingleInputNodeFloat16Node (index : NodeIndex) (node : GraphNode) :
    Except Failure Bool := do
  let float16 ← s.isInputFloat16 known index node
  if float16 ∧ s.executionProviderType index = cpuProviderType then
    let neighbour ← (node.inputEdges ++ node.outputEdges).anyM
      (s.isEndFloat16 known)
    return !neighbour
  else
    return false

end Types

section Force

variable (known : TypeProto → Bool)

def forceNode (s : CastGraph) (entry : NodeIndex × GraphNode) :
    Except Failure CastGraph := do
  let single ← s.isSingleInputNodeFloat16Node known entry.1 entry.2
  return if single then
      { s with executionProviderType :=
          Function.update s.executionProviderType entry.1 "" }
    else s

variable (subgraphUses : List (NodeIndex × List String))
  (inferTypes : Graph → Except Failure (Nat → Option TypeProto))

def resolve (s : CastGraph) : Except Failure CastGraph := do
  let graph ← s.graph.resolveWith subgraphUses inferTypes
  return { s with graph := graph }

def forceSingleNodeCPUFloat16ToFloat32 (s : CastGraph) :
    Except Failure CastGraph :=
  if s.graph.numOfNodes ≤ 1 then .ok s
  else do
    let s ← s.graph.liveNodes.foldlM (forceNode known) s
    s.resolve subgraphUses inferTypes

end Force

end CastGraph

/-- The state of the loop over the nodes. -/
structure CastInsertion extends CastGraph where
  nextId : Nat := 0
  inputDefUpdates : List (GraphArg × GraphArg) := []
  modified : Bool := false

/-- `replacements[key] = value`.  The order of the entries, which is that of
the addresses in the source, is the order of the calls. -/
def assign (replacements : List (GraphArg × GraphArg)) (key value : GraphArg) :
    List (GraphArg × GraphArg) :=
  replacements.filter (fun pair => pair.1.pointer ≠ key.pointer) ++
    [(key, value)]

/-- What is collected for one node. -/
structure NodeCasts where
  state : CastInsertion
  replacementDefs : List (GraphArg × GraphArg) := []
  casted : Bool := false

namespace CastInsertion

/-- The new argument has the type float in both directions. -/
def addCastNode (st : CastInsertion) (oldArg : GraphArg) (newOnInput : Bool)
    (toType : ElemType) : Except Failure (CastInsertion × GraphArg) := do
  let name := numbered "CastDef" st.nextId
  let (graph, newArg) :=
    st.graph.getOrCreateNodeArg name (some (.tensorType .float))
  let (graph, index) ← graph.addNode name "Cast"
    [if newOnInput then newArg else oldArg]
    [if newOnInput then oldArg else newArg]
  return ({ st with
    graph := graph
    executionProviderType :=
      Function.update st.executionProviderType index cpuProviderType
    castTo := Function.update st.castTo index (some toType)
    nextId := st.nextId + 1 }, newArg)

variable (known : TypeProto → Bool)

/-- An input that was cast before is not cast again. -/
def castInput (index : NodeIndex) (casts : NodeCasts) (input : GraphArg) :
    Except Failure NodeCasts := do
  let need ← casts.state.needInsertCast known index input
  if need then
    match casts.state.inputDefUpdates.find? (·.1.pointer = input.pointer) with
    | some update =>
      return { casts with
        replacementDefs := assign casts.replacementDefs input update.2
        casted := true }
    | none =>
      let (st, dstArg) ← casts.state.addCastNode input false .float
      return {
        state := { st with
          inputDefUpdates := st.inputDefUpdates ++ [(input, dstArg)] }
        replacementDefs := assign casts.replacementDefs input dstArg
        casted := true }
  else
    return casts

def castOutput (casts : NodeCasts) (output : GraphArg) :
    Except Failure NodeCasts := do
  let float16 ← casts.state.isFloat16 known output
  if float16 ∧ casts.casted then
    let (st, srcArg) ← casts.state.addCastNode output true .float16
    return { casts with
      state := st
      replacementDefs := assign casts.replacementDefs output srcArg }
  else
    return casts

/-- A node with a cast input is a CPU node. -/
def setProvider (index : NodeIndex) (casts : NodeCasts) : NodeCasts :=
  if casts.casted ∧ casts.state.executionProviderType index = "" then
    { casts with state := { casts.state with
        executionProviderType := Function.update
          casts.state.executionProviderType index cpuProviderType } }
  else casts

/-- The body of the loop. -/
def castNode (st : CastInsertion) (index : NodeIndex) :
    Except Failure CastInsertion :=
  match st.graph.node index with
  | none => .error (.status .invalidArgument "")
  | some node => do
      let casts ← node.inputDefs.foldlM (castInput known index) { state := st }
      let casts ← node.outputDefs.foldlM (castOutput known)
        (setProvider index casts)
      return { casts.state with
        graph := casts.state.graph.modifyNode index
          (·.replaceDefs casts.replacementDefs)
        modified := casts.state.modified || casts.casted }

end CastInsertion

namespace CastGraph

variable (known : TypeProto → Bool)

def insertCasts (s : CastGraph) : Except Failure CastInsertion := do
  let viewer ← s.graph.graphViewer
  viewer.nodesInTopologicalOrder.foldlM (CastInsertion.castNode known)
    { toCastGraph := s }

variable (subgraphUses : List (NodeIndex × List String))
  (inferTypes : Graph → Except Failure (Nat → Option TypeProto))

/-- Everything before the loop. -/
def prepare (forceCpuFp32 : Bool) (s : CastGraph) :
    Except Failure CastGraph := do
  let s ← s.resolve subgraphUses inferTypes
  if forceCpuFp32 then
    s.forceSingleNodeCPUFloat16ToFloat32 known subgraphUses inferTypes
  else
    return s

/-- `Apply` up to the second phase. -/
def applyInsertion (forceCpuFp32 : Bool) (s : CastGraph) :
    Except Failure (CastGraph × Bool) := do
  let s ← s.prepare known subgraphUses inferTypes forceCpuFp32
  let st ← s.insertCasts known
  let s ← st.resolve subgraphUses inferTypes
  return (s, st.modified)

end CastGraph

namespace Graph

/-- The readers of the second cast read the input of the first one. -/
def relinkReaders (g : Graph) (output input : GraphArg) (edges : EdgeSet) :
    Graph :=
  edges.foldl (fun g edge =>
    g.modifyNode edge.node (·.replaceDefs [(output, input)])) g

/-- The state of the loop over the readers of a cast. -/
structure CastReaders where
  graph : Graph
  removedNodes : List NodeIndex
  childRemoved : Nat := 0
  numChild : Nat := 0

/-- A cast whose result has the type of `input` is a second cast. -/
def visitReader (input output : GraphArg) (state : CastReaders)
    (edge : EdgeEnd) : Except Failure CastReaders :=
  match state.graph.node edge.node with
  | none => .error .nullDereference
  | some reader =>
    if reader.opType ≠ "Cast" then
      .ok { state with numChild := state.numChild + 1 }
    else
      match reader.inputDefs, reader.outputDefs with
      | input' :: _, output' :: _ =>
        let typeOf (arg : GraphArg) := state.graph.argType arg.pointer
        if typeOf input = typeOf output' ∧ typeOf input' = typeOf output then
          .ok {
            graph := state.graph.relinkReaders output' input reader.outputEdges
            removedNodes := state.removedNodes ++ [edge.node]
            childRemoved := state.childRemoved + 1
            numChild := state.numChild + 1 }
        else .ok { state with numChild := state.numChild + 1 }
      | _, _ => .error .nullDereference

def visitCast (state : Graph × List NodeIndex) (index : NodeIndex) :
    Except Failure (Graph × List NodeIndex) :=
  match state.1.node index with
  | none => .ok state
  | some node =>
    if node.opType ≠ "Cast" then .ok state
    else
      match node.inputDefs, node.outputDefs with
      | input :: _, output :: _ => do
          let readers ← node.outputEdges.foldlM (visitReader input output)
            { graph := state.1, removedNodes := state.2 }
          return (readers.graph, if readers.childRemoved = readers.numChild ∧
                0 < readers.childRemoved then
              readers.removedNodes ++ [index]
            else readers.removedNodes)
      | _, _ => .error .nullDereference

/-- The second phase of `Apply`, with what it adds to `modified`. -/
def removeCasts (g : Graph) : Except Failure (Graph × Bool) := do
  let (g, removedNodes) ←
    (List.range g.nodes.length).foldlM visitCast (g, [])
  let g ← removedNodes.foldlM (fun g index => do
    let (g, _) ← g.removeNode index
    return g) g
  return (g, removedNodes ≠ [])

end Graph

/-- `InsertCastTransformer::Apply`. -/
def CastGraph.apply (known : TypeProto → Bool)
    (subgraphUses : List (NodeIndex × List String))
    (inferTypes : Graph → Except Failure (Nat → Option TypeProto))
    (forceCpuFp32 : Bool) (s : CastGraph) :
    Except Failure (CastGraph × Bool) := do
  let (s, modified) ←
    s.applyInsertion known subgraphUses inferTypes forceCpuFp32
  let (graph, removed) ← s.graph.removeCasts
  return ({ s with graph := graph }, modified || removed)

end OnnxRuntime
