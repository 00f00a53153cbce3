/-
`GraphPartitioner`: the providers are asked in order what they can run, nodes
are assigned, subgraphs are fused and compiled, and a function that no provider
took is inlined before the graph is partitioned again.
-/
import OnnxRuntime.NodeIdentities
import OnnxRuntime.StateRuns

namespace OnnxRuntime

structure MetaDef where
  name : String
  inputs : List String
  outputs : List String
deriving Repr, DecidableEq

structure IndexedSubGraph where
  nodes : List NodeIndex
  metaDef : Option MetaDef := none
deriving Repr, DecidableEq

/-- A provider; an empty type is that of a node without one. -/
structure IExecutionProvider where
  type : String
  type_ne : type ≠ ""
deriving DecidableEq

/-- A node of a function body, and the types of its arguments. -/
structure BodyNode where
  name : String
  opType : String
  inputs : List (String × Option TypeProto)
  outputs : List (String × Option TypeProto)

/-- Which of the functions of a compiled node are set. -/
structure NodeComputeInfo where
  computeFunc : Bool
  createStateFunc : Bool
  releaseStateFunc : Bool

/-- The graph with what its nodes have besides their arguments, the names in
the `FuncManager`, and the calls of `Compile` so far, each with the names of
the nodes it was given. -/
structure PartitionState where
  graph : Graph
  providerType : NodeIndex → String := fun _ => ""
  functionBody : NodeIndex → Option (List BodyNode) := fun _ => none
  fusedFuncs : List String := []
  compiled : List (List String) := []

/-- What the providers and the schemas answer in one round.  `makeFunction`
stands for the schema and the resolved body of a fused function, which may
throw, and `instantiate` for the function bodies that `Resolve` finds. -/
structure RoundAnswers where
  getCapability : IExecutionProvider → PartitionState →
    List (Option IndexedSubGraph)
  tryFindKernel : IExecutionProvider → PartitionState → NodeIndex → Bool
  makeFunction : PartitionState → IndexedSubGraph → Except String Unit
  compileLibrary : IExecutionProvider → PartitionState → List NodeIndex →
    Except Failure Unit
  compile : IExecutionProvider → PartitionState → List NodeIndex →
    Except Failure (List NodeComputeInfo)
  subgraphUses : Graph → List (NodeIndex × List String)
  inferTypes : Graph → Except Failure (Nat → Option TypeProto)
  instantiate : Graph → NodeIndex → Option (List BodyNode)

namespace Graph

def lookupArgs (g : Graph) (names : List String) :
    Except Failure (List GraphArg) :=
  names.mapM fun name =>
    match g.getNodeArg name with
    | none => .error .nullDereference
    | some arg => .ok arg

/-- The output edges of a node are removed, and then the node. -/
def detachNode (g : Graph) (index : NodeIndex) : Except Failure Graph :=
  if g.nodes.length ≤ index then
    .error (.enforce
      "Validating no unexpected access using an invalid node_index.")
  else
    match g.node index with
    | none => .ok g
    | some node => do
        let g ← node.outputEdges.foldlM (fun g edge =>
          g.removeEdge index edge.node edge.srcArgIndex edge.dstArgIndex) g
        let (g, _) ← g.removeNode index
        return g

/-- Arguments of another graph are created with their types. -/
def createTypedArgs : Graph → List (String × Option TypeProto) →
    Graph × List GraphArg
  | g, [] => (g, [])
  | g, (name, type) :: rest =>
    let (g, created) := g.getOrCreateNodeArg name type
    let (g, others) := createTypedArgs g rest
    (g, created :: others)

def addBodyNode (g : Graph) (node : BodyNode) : Except Failure Graph := do
  let (g, inputs) := g.createTypedArgs node.inputs
  let (g, outputs) := g.createTypedArgs node.outputs
  let (g, _) ← g.addNode node.name node.opType inputs outputs
  return g

def typedArgs (g : Graph) (args : List GraphArg) :
    List (String × Option TypeProto) :=
  args.map fun arg => (arg.name, g.argType arg.pointer)

/-- The nodes of a fused subgraph, copied to its body. -/
def fusedBody (g : Graph) (nodes : List NodeIndex) : List BodyNode :=
  nodes.filterMap fun index => (g.node index).map fun node =>
    { name := node.name
      opType := node.opType
      inputs := g.typedArgs node.inputDefs
      outputs := g.typedArgs node.outputDefs }

end Graph

abbrev PartitionM := EStateM Failure PartitionState

namespace PartitionState

def nodeName (s : PartitionState) (index : NodeIndex) : String :=
  ((s.graph.node index).map (·.name)).getD ""

/-- The first node without a provider that has a function body. -/
def inlinable (s : PartitionState) : Option (NodeIndex × List BodyNode) :=
  s.graph.liveNodes.findSome? fun entry =>
    if s.providerType entry.1 = "" then
      (s.functionBody entry.1).map fun body => (entry.1, body)
    else none

end PartitionState

namespace GraphPartitioner

def liftFailure {α : Type} : Except Failure α → PartitionM α
  | .ok a => pure a
  | .error failure => throw failure

def changeGraph (change : Graph → Except Failure Graph) : PartitionM Unit := do
  let s ← get
  let g ← liftFailure (change s.graph)
  set { s with graph := g }

/-- Whether a node was neither fused nor assigned. -/
def isAvailable (index : NodeIndex) : PartitionM Bool := do
  let s ← get
  if s.graph.nodes.length ≤ index then
    throw (.enforce
      "Validating no unexpected access using an invalid node_index.")
  else
    return (s.graph.node index).isSome ∧ s.providerType index = ""

/-- The loop over the nodes of a subgraph ends at the first that is taken. -/
def allAvailable : List NodeIndex → PartitionM Bool
  | [] => return true
  | index :: rest => do
      if ← isAvailable index then allAvailable rest else return false

def setExecutionProviderType (index : NodeIndex)
    (provider : IExecutionProvider) : PartitionM Unit :=
  modify fun s => { s with
    providerType := Function.update s.providerType index provider.type }

def assignNode (provider : IExecutionProvider) (index : NodeIndex) :
    PartitionM Unit := do
  if ← isAvailable index then setExecutionProviderType index provider
  else return ()

variable (exportDll : Bool) (answers : RoundAnswers)

/-- `FuseSubGraph`. -/
def fuseSubGraph (subGraph : IndexedSubGraph) (metaDef : MetaDef)
    (fusedNodeName : String) : PartitionM NodeIndex := do
  let s ← get
  let inputs ← liftFailure (s.graph.lookupArgs metaDef.inputs)
  let outputs ← liftFailure (s.graph.lookupArgs metaDef.outputs)
  let (g, index) ← liftFailure
    (s.graph.addNode fusedNodeName metaDef.name inputs outputs)
  set { s with graph := g }
  let s ← get
  liftFailure ((answers.makeFunction s subGraph).mapError .thrown)
  set { s with functionBody :=
    Function.update s.functionBody index (s.graph.fusedBody subGraph.nodes) }
  changeGraph fun g => subGraph.nodes.foldlM Graph.detachNode g
  return index

/-- The counter in the names of the fused nodes, and the nodes to compile. -/
structure Fusing where
  count : Nat := 0
  nodesNeedCompile : List NodeIndex := []

/-- A subgraph is fused and its node assigned. -/
def fuse (provider : IExecutionProvider) (subGraph : IndexedSubGraph)
    (metaDef : MetaDef) (fusing : Fusing) : PartitionM Fusing := do
  let index ← fuseSubGraph answers subGraph metaDef
    (provider.type ++ "_" ++ metaDef.name ++ "_" ++ toString fusing.count)
  setExecutionProviderType index provider
  let s ← get
  return {
    count := fusing.count + 1
    nodesNeedCompile :=
      if answers.tryFindKernel provider s index then fusing.nodesNeedCompile
      else fusing.nodesNeedCompile ++ [index] }

/-- One capability of a provider. -/
def considerCapability (provider : IExecutionProvider) (fusing : Fusing) :
    Option IndexedSubGraph → PartitionM Fusing
  | none => return fusing
  | some subGraph =>
    match subGraph.metaDef with
    | none =>
      match subGraph.nodes with
      | [index] => do
          assignNode provider index
          return fusing
      | _ => throw (.enforce "1 == capability->sub_graph->nodes.size()")
    | some metaDef => do
        if ← allAvailable subGraph.nodes then
          fuse answers provider subGraph metaDef fusing
        else return fusing

/-- `FuncManager::AddFuncInfo` with a library, or with the functions. -/
def addFuncInfo (name : String) : PartitionM Unit := do
  let s ← get
  if name ∈ s.fusedFuncs then
    throw (.status .fail ("func info for node: " ++ name ++ " already exist."))
  else set { s with fusedFuncs := name :: s.fusedFuncs }

def addFunctions (entry : String × NodeComputeInfo) : PartitionM Unit := do
  let s ← get
  if entry.1 ∈ s.fusedFuncs then
    throw (.status .fail
      ("func info for node: " ++ entry.1 ++ " already exist."))
  else if ¬ (entry.2.computeFunc ∧ entry.2.createStateFunc ∧
      entry.2.releaseStateFunc) then
    throw (.status .fail "Can't use func with null ptr")
  else set { s with fusedFuncs := entry.1 :: s.fusedFuncs }

/-- The functions of the compiled nodes are registered. -/
def registerFunctions (names : List String) (infos : List NodeComputeInfo) :
    PartitionM Unit :=
  if infos.length = names.length then
    (names.zip infos).foldlM (fun _ entry => addFunctions entry) ()
  else throw (.enforce
    "Provider doesn't return correct number of compiled functions")

/-- The fused nodes of a provider that have no kernel. -/
def compileNodes (provider : IExecutionProvider) (nodes : List NodeIndex) :
    PartitionM Unit :=
  if nodes = [] then return ()
  else do
    let s ← get
    let names := nodes.map s.nodeName
    set { s with compiled := names :: s.compiled }
    if exportDll then
      liftFailure (answers.compileLibrary provider s nodes)
      names.foldlM (fun _ name => addFuncInfo name) ()
    else
      let infos ← liftFailure (answers.compile provider s nodes)
      registerFunctions names infos

def assignProvider
    (entry : IExecutionProvider × List (Option IndexedSubGraph)) :
    PartitionM Unit := do
  let fusing ← entry.2.foldlM (considerCapability answers entry.1) {}
  compileNodes exportDll answers entry.1 fusing.nodesNeedCompile

def assignProviders
    (capabilities : List (IExecutionProvider × List (Option IndexedSubGraph))) :
    PartitionM Unit :=
  capabilities.foldlM (fun _ entry => assignProvider exportDll answers entry) ()

/-- `Resolve`, which may also find function bodies for nodes. -/
def resolve : PartitionM Unit := do
  let s ← get
  let g ← liftFailure (s.graph.resolveWith (answers.subgraphUses s.graph)
    answers.inferTypes)
  set { s with
    graph := g
    functionBody := fun index =>
      if s.graph.graphResolveNeeded then
        (s.functionBody index).or (answers.instantiate g index)
      else s.functionBody index }

/-- `ORT_ENFORCE(graph.Resolve().IsOK())`. -/
def enforceResolve : PartitionM Unit := fun s =>
  match resolve answers s with
  | .ok _ s => .ok () s
  | .error (.status _ _) s => .error (.enforce "graph.Resolve().IsOK()") s
  | .error failure s => .error failure s

/-- `InlineFunction`. -/
def inlineFunction (index : NodeIndex) (body : List BodyNode) :
    PartitionM Unit := do
  changeGraph fun g => g.detachNode index
  changeGraph fun g => body.foldlM Graph.addBodyNode g
  resolve answers

/-- A function that can be inlined is, and the graph is resolved. -/
def inlineFirst : PartitionM Bool := do
  let s ← get
  match s.inlinable with
  | none => return false
  | some (index, body) => do
      inlineFunction answers index body
      resolve answers
      return true

/-- `Partition` up to the call of itself; whether there is such a call. -/
def partitionRound (providers : List IExecutionProvider) : PartitionM Bool := do
  if providers = [] then
    throw (.status .invalidArgument "No provider specified.")
  else
    let s ← get
    assignProviders exportDll answers
      (providers.map fun provider => (provider, answers.getCapability provider s))
    enforceResolve answers
    inlineFirst answers

/-- `Partition`, in which `rounds` of it can be nested.  The status of the inner
call is dropped; its exceptions are not. -/
def partition (providers : List IExecutionProvider) :
    (rounds : Nat) → (Nat → RoundAnswers) → PartitionState →
      Option (EStateM.Result Failure PartitionState Unit)
  | 0, _, _ => none
  | rounds + 1, answers, s =>
    match partitionRound exportDll (answers 0) providers s with
    | .error failure s => some (.error failure s)
    | .ok false s => some (.ok () s)
    | .ok true s =>
      match partition providers rounds (fun n => answers (n + 1)) s with
      | some (.error (.status _ _) s) => some (.ok () s)
      | result => result

end GraphPartitioner

end OnnxRuntime
