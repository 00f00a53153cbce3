/-
The graph: nodes at fixed positions, each with its own two sets of edge ends,
the calls that change edges and remove nodes, and `Graph::Resolve`: inputs and
outputs, the table of producers, the edges, and a topological order.
-/
import OnnxRuntime.ExceptRuns
import OnnxRuntime.ExecutionPlan
import OnnxRuntime.Status
import OnnxRuntime.Tables

namespace OnnxRuntime

variable {edges : EdgeSet}

/-- A `NodeArg`: the pointer by which it is compared, and its name. -/
structure GraphArg where
  pointer : Nat
  name : String
deriving Repr, DecidableEq

def GraphArg.Exists (arg : GraphArg) : Prop := arg.name ≠ ""

instance GraphArg.decidableExists (arg : GraphArg) : Decidable arg.Exists :=
  inferInstanceAs (Decidable (arg.name ≠ ""))

/-- One end of an edge as the node at the other end records it.  Both indices
of a control edge are `INT_MAX`. -/
structure EdgeEnd where
  node : NodeIndex
  srcArgIndex : Int
  dstArgIndex : Int
deriving Repr, DecidableEq

/-- `EdgeEndCompare`. -/
def EdgeEnd.before (lhs rhs : EdgeEnd) : Bool :=
  if lhs.node = rhs.node then
    if lhs.srcArgIndex = rhs.srcArgIndex then
      lhs.dstArgIndex < rhs.dstArgIndex
    else lhs.srcArgIndex < rhs.srcArgIndex
  else lhs.node < rhs.node

/-- Ends that the comparison does not separate are equal. -/
theorem EdgeEnd.eq_of_not_before {lhs rhs : EdgeEnd}
    (h : ¬ lhs.before rhs) (h' : ¬ rhs.before lhs) : lhs = rhs := by
  obtain ⟨node, src, dst⟩ := lhs
  obtain ⟨node', src', dst'⟩ := rhs
  grind [EdgeEnd.before]

/-- A `std::set` of edge ends, listed in its order. -/
abbrev EdgeSet := List EdgeEnd

namespace EdgeSet

def insert (edge : EdgeEnd) (edges : EdgeSet) : EdgeSet :=
  insertBy EdgeEnd.before edge edges

def erase (edge : EdgeEnd) (edges : EdgeSet) : EdgeSet :=
  eraseBy EdgeEnd.before edge edges

@[simp]
theorem mem_insert {edge other : EdgeEnd} :
    other ∈ insert edge edges ↔ other = edge ∨ other ∈ edges :=
  mem_insertBy fun _ _ hbefore hafter => EdgeEnd.eq_of_not_before hafter hbefore

end EdgeSet

/-- The entry of a vector at an `int` index; a negative one is out of range
once it is compared with the size. -/
def atSlot {α : Type} (defs : List α) : Int → Option α
  | .ofNat slot => defs[slot]?
  | .negSucc _ => none

structure GraphNode where
  name : String := ""
  opType : String := ""
  inputDefs : List GraphArg
  implicitInputDefs : List GraphArg := []
  outputDefs : List GraphArg
  inputEdges : EdgeSet := []
  outputEdges : EdgeSet := []
  controlInputs : List String := []
deriving Repr, DecidableEq

namespace GraphNode

/-- Slots past the explicit inputs are those of the implicit ones. -/
def inputAt (node : GraphNode) (slot : Int) : Option GraphArg :=
  atSlot (node.inputDefs ++ node.implicitInputDefs) slot

/-- `*dst_arg_pointer = arg`. -/
def setInputAt (node : GraphNode) (slot : Int) (arg : GraphArg) : GraphNode :=
  if slot.toNat < node.inputDefs.length then
    { node with inputDefs := node.inputDefs.set slot.toNat arg }
  else
    { node with implicitInputDefs :=
        node.implicitInputDefs.set (slot.toNat - node.inputDefs.length) arg }

def insertOutputEdge (node : GraphNode) (edge : EdgeEnd) : GraphNode :=
  { node with outputEdges := EdgeSet.insert edge node.outputEdges }

def insertInputEdge (node : GraphNode) (edge : EdgeEnd) : GraphNode :=
  { node with inputEdges := EdgeSet.insert edge node.inputEdges }

def eraseOutputEdge (node : GraphNode) (edge : EdgeEnd) : GraphNode :=
  { node with outputEdges := EdgeSet.erase edge node.outputEdges }

def eraseInputEdge (node : GraphNode) (edge : EdgeEnd) : GraphNode :=
  { node with inputEdges := EdgeSet.erase edge node.inputEdges }

/-- `Relationships::Clear` and the clearing of the implicit inputs. -/
def clearRelationships (node : GraphNode) : GraphNode :=
  { node with
    inputEdges := []
    outputEdges := []
    controlInputs := []
    implicitInputDefs := [] }

end GraphNode

/-- The names a `GraphProto` lists. -/
structure GraphProto where
  input : List String := []
  output : List String := []
  valueInfo : List String := []
  initializer : List String := []
deriving Repr, DecidableEq

/-- Inputs and outputs of the graph.  An initializer without a `NodeArg` is
entered as a null pointer. -/
structure GraphInputsOutputs where
  inputsIncludingInitializers : List (Option GraphArg) := []
  inputs : List GraphArg := []
  outputs : List (Option GraphArg) := []
  valueInfo : List GraphArg := []
deriving Repr, DecidableEq

structure ResolveContext where
  outputArgs : List (String × NodeIndex × Int) := []
  inputsAndInitializers : List String := []
  outerScopeNodeArgs : List String := []
  nodeNameToIndex : List (String × NodeIndex) := []
deriving Repr, DecidableEq

/-- One graph.  `parentGraph` is the lookup of names in the parent graphs;
the subgraphs of the nodes are not part of it. -/
structure Graph where
  nodes : List (Option GraphNode)
  numOfNodes : Int
  nodeArgs : List GraphArg
  argType : Nat → Option TypeProto := fun _ => none
  nameToInitialTensor : List String := []
  graphProto : GraphProto := {}
  graphInputOrder : List (Option GraphArg) := []
  graphOutputOrder : List (Option GraphArg) := []
  outerScopeNodeArgNames : List String := []
  parentGraph : Option (String → Option GraphArg) := none
  inputsOutputs : GraphInputsOutputs := {}
  resolveContext : ResolveContext := {}
  nodesInTopologicalOrder : List NodeIndex := []
  graphResolveNeeded : Bool := true

namespace Graph

variable (g : Graph)

def node (index : NodeIndex) : Option GraphNode := g.nodes[index]?.join

/-- `Nodes()`: the live nodes with their indices. -/
def liveNodes : List (NodeIndex × GraphNode) :=
  (List.range g.nodes.length).filterMap fun index =>
    (g.node index).map fun node => (index, node)

def getNodeArg (name : String) : Option GraphArg :=
  g.nodeArgs.find? fun arg => arg.name = name

/-- A change through `MutableDefinitions` or `MutableRelationships`. -/
def modifyNode (index : NodeIndex) (f : GraphNode → GraphNode) : Graph :=
  { g with
    nodes := g.nodes.modify index (Option.map f)
    graphResolveNeeded := true }

def addEdge (srcNodeIndex dstNodeIndex : NodeIndex)
    (srcArgSlot dstArgSlot : Int) : Except Failure Graph :=
  match g.node srcNodeIndex, g.node dstNodeIndex with
  | some srcNode, some dstNode =>
    match atSlot srcNode.outputDefs srcArgSlot with
    | none => .error (.thrown
        "Invalid source node arg slot specified when adding edge.")
    | some srcArg =>
      match dstNode.inputAt dstArgSlot with
      | none => .error (.thrown
          "Invalid destination node arg slot specified when adding edge.")
      | some dstArg =>
        if srcArg.pointer ≠ dstArg.pointer ∧
            g.argType srcArg.pointer ≠ g.argType dstArg.pointer then
          .error (.thrown "Argument type mismatch when adding edge.")
        else
          .ok (((g.modifyNode dstNodeIndex
              (·.setInputAt dstArgSlot srcArg)).modifyNode srcNodeIndex
              (·.insertOutputEdge
                ⟨dstNodeIndex, srcArgSlot, dstArgSlot⟩)).modifyNode
              dstNodeIndex (·.insertInputEdge
                ⟨srcNodeIndex, srcArgSlot, dstArgSlot⟩))
  | _, _ => .error (.thrown "Invalid node indexes specified when adding edge.")

def removeEdge (srcNodeIndex dstNodeIndex : NodeIndex)
    (srcArgSlot dstArgSlot : Int) : Except Failure Graph :=
  match g.node srcNodeIndex, g.node dstNodeIndex with
  | some srcNode, some dstNode =>
    match atSlot srcNode.outputDefs srcArgSlot with
    | none => .error (.thrown
        "Invalid source node arg slot specified when removing edge.")
    | some srcArg =>
      match dstNode.inputAt dstArgSlot with
      | none => .error (.thrown
          "Invalid destination node arg slot specified when removing edge.")
      | some dstArg =>
        if srcArg.pointer ≠ dstArg.pointer then
          .error (.thrown "Argument type mismatch when removing edge.")
        else
          .ok ((g.modifyNode dstNodeIndex (·.eraseInputEdge
              ⟨srcNodeIndex, srcArgSlot, dstArgSlot⟩)).modifyNode
              srcNodeIndex (·.eraseOutputEdge
                ⟨dstNodeIndex, srcArgSlot, dstArgSlot⟩))
  | _, _ =>
    .error (.thrown "Invalid node indexes specified when removing edge.")

def releaseNode (index : NodeIndex) : Graph × Bool :=
  if g.nodes.length ≤ index then (g, false)
  else if (g.node index).isSome then
    ({ g with
      nodes := g.nodes.set index none
      numOfNodes := g.numOfNodes - 1
      graphResolveNeeded := true }, true)
  else (g, true)

/-- The output edges of the node are left in place. -/
def removeNode (index : NodeIndex) : Except Failure (Graph × Bool) :=
  if g.nodes.length ≤ index then
    .error (.enforce
      "Validating no unexpected access using an invalid node_index.")
  else
    match g.node index with
    | none => .ok (g, false)
    | some node => do
        let g ← node.inputEdges.foldlM (fun g edge =>
          g.removeEdge edge.node index edge.srcArgIndex edge.dstArgIndex) g
        return g.releaseNode index

open List

section InputsOutputs

def loadedFromModelFile : Bool :=
  g.graphProto.input ≠ [] ∨ g.graphProto.output ≠ [] ∨
    g.graphProto.valueInfo ≠ []

def isSubgraph : Bool := g.parentGraph.isSome

def nodeOutputs : List GraphArg :=
  g.liveNodes.flatMap fun entry => entry.2.outputDefs

/-- The inputs of all nodes that exist. -/
def nodeInputs : List GraphArg :=
  (g.liveNodes.flatMap fun entry => entry.2.inputDefs).filter (·.Exists)

/-- The `NodeArg`s of the inputs the model file lists. -/
def specifiedInputArgs : Except Failure (List (String × GraphArg)) :=
  g.graphProto.input.mapM fun name =>
    match g.getNodeArg name with
    | none => .error (.enforce
        "Graph ctor should have created NodeArg for initializer.")
    | some arg => .ok (name, arg)

/-- Every input of a node is a graph input, an output or an initializer; the
value infos of the file that it names are collected. -/
def checkSpecifiedInput (outputNames : List String)
    (state : List String × List GraphArg) (arg : GraphArg) :
    Except Failure (List String × List GraphArg) :=
  if arg.name ∈ g.graphProto.input ∧
      arg.name ∉ g.graphProto.initializer then
    .ok state
  else if arg.name ∉ outputNames ∧ arg.name ∉ g.graphProto.initializer ∧
      ¬ g.isSubgraph then
    .error (.status .fail ("Node input (" ++ arg.name ++
      ") should be a graph input or initializer."))
  else if arg.name ∈ state.1 then
    .ok (state.1.filter (· ≠ arg.name), state.2 ++ [arg])
  else .ok state

/-- `SetGraphInputsOutputs` when the proto lists inputs or outputs.  In a
table the first entry of a name counts. -/
def setSpecifiedInputsOutputs : Except Failure GraphInputsOutputs := do
  let inputArgs ← g.specifiedInputArgs
  let produced := g.nodeOutputs.map fun arg => (arg.name, some arg)
  let missing := g.graphProto.output.filter (· ∉ produced.map Prod.fst)
  let outputArgs :=
    if missing = [] then produced
    else produced ++
      g.graphProto.initializer.map fun name => (name, g.getNodeArg name)
  let missing := missing.filter (· ∉ g.graphProto.initializer)
  if missing ≠ [] then
    .error (.status .fail ("Some graph outputs do not exist in the graph. (" ++
      String.join (missing.dedup.map (· ++ " ")) ++ ")"))
  let (_, valueInfo) ← g.nodeInputs.foldlM
    (g.checkSpecifiedInput (outputArgs.map Prod.fst))
    (g.graphProto.valueInfo, [])
  let inputs ← g.graphProto.input.mapM fun name =>
    match inputArgs.lookup name with
    | none => .error (.enforce
        ("All inputs and initializers should have entries. Missing " ++ name))
    | some arg => .ok (name, arg)
  let outputs ← g.graphProto.output.mapM fun name =>
    match outputArgs.lookup name with
    | none => .error (.thrown "map::at")
    | some arg => .ok arg
  return {
    inputsIncludingInitializers := inputs.map fun input => some input.2
    inputs := (inputs.filter fun input =>
      input.1 ∉ g.graphProto.initializer).map Prod.snd
    outputs := outputs
    valueInfo := valueInfo }

/-- The entries of an explicit order exist. -/
def checkOrder (entries : List (Option GraphArg)) (message : String) :
    Except Failure (List GraphArg) :=
  entries.mapM fun entry =>
    match entry with
    | none => .error (.status .fail message)
    | some arg =>
      if arg.Exists then .ok arg else .error (.status .fail message)

/-- What the loop over the inputs of the nodes has collected. -/
structure InferredInputs where
  added : List String
  inputs : List GraphArg
  outputNames : List String
  valueInfo : List GraphArg := []

/-- An input no node produces is a graph input; an output that is read is no
graph output. -/
def inferInput (produced : List String) (state : InferredInputs)
    (arg : GraphArg) : InferredInputs :=
  if arg.name ∉ produced then
    if arg.name ∈ state.added then state
    else
      { state with
        added := state.added ++ [arg.name]
        inputs := state.inputs ++ [arg] }
  else if arg.name ∈ state.outputNames then
    { state with
      outputNames := state.outputNames.filter (· ≠ arg.name)
      valueInfo := state.valueInfo ++ [arg] }
  else state

/-- An output is entered unless its name is. -/
def addOutput (table : List (String × GraphArg)) (arg : GraphArg) :
    List (String × GraphArg) :=
  if arg.Exists ∧ arg.name ∉ table.map Prod.fst then
    table ++ [(arg.name, arg)]
  else table

/-- `SetGraphInputsOutputs` of a graph that was built by calls. -/
def inferInputsOutputs : Except Failure GraphInputsOutputs := do
  let orderedInputs ← checkOrder g.graphInputOrder
    "Invalid entry in explicitly ordered inputs"
  let orderedOutputs ← checkOrder g.graphOutputOrder
    "Invalid entry in explicitly ordered outputs"
  let outputArgs := g.nodeOutputs.foldl addOutput
    (orderedOutputs.map fun arg => (arg.name, arg))
  let produced := outputArgs.map Prod.fst
  let state := g.nodeInputs.foldl (inferInput produced)
    { added := g.outerScopeNodeArgNames ++ orderedInputs.map (·.name)
      inputs := orderedInputs
      outputNames := produced }
  let unused := g.nameToInitialTensor.filter (· ∉ state.added)
  return {
    inputsIncludingInitializers :=
      state.inputs.map some ++ unused.map g.getNodeArg
    inputs := state.inputs.filter (·.name ∉ g.nameToInitialTensor)
    outputs := (produced.filter (· ∈ state.outputNames)).map
      fun name => outputArgs.lookup name
    valueInfo := state.valueInfo }

def setGraphInputsOutputs : Except Failure GraphInputsOutputs :=
  if g.loadedFromModelFile then g.setSpecifiedInputsOutputs
  else g.inferInputsOutputs

end InputsOutputs

def verifyInputAndInitializerNames : Except Failure (List String) := do
  let names ← g.inputsOutputs.inputs.foldlM (fun names input =>
    if input.name ∈ names then
      .error (.status .fail ("Error: Duplicate definition-site for (" ++
        input.name ++ ")."))
    else .ok (input.name :: names)) []
  return g.nameToInitialTensor ++ names

/-- The entry of one output in the table of producers. -/
def addOutputArg (index : NodeIndex) (ctx : ResolveContext)
    (output : GraphArg × Nat) : Except Failure ResolveContext :=
  if ¬ output.1.Exists then .ok ctx
  else if output.1.name ∈ ctx.inputsAndInitializers ∨
      output.1.name ∈ ctx.outputArgs.map Prod.fst then
    .error (.status .fail ("Error: Duplicate definition of name (" ++
      output.1.name ++ ")."))
  else
    .ok { ctx with
      outputArgs := (output.1.name, index, (output.2 : Int)) :: ctx.outputArgs }

def verifyNodeNames (ctx : ResolveContext) (entry : NodeIndex × GraphNode) :
    Except Failure ResolveContext :=
  if entry.2.name ≠ "" ∧ entry.2.name ∈ ctx.nodeNameToIndex.map Prod.fst then
    .error (.status .fail ("Error: two nodes with same node name (" ++
      entry.2.name ++ ")."))
  else
    entry.2.outputDefs.zipIdx.foldlM (addOutputArg entry.1)
      { ctx with
        nodeNameToIndex := (entry.2.name, entry.1) :: ctx.nodeNameToIndex }

def verifyNoDuplicateName : Except Failure ResolveContext :=
  g.liveNodes.foldlM verifyNodeNames
    { g.resolveContext with outputArgs := [], nodeNameToIndex := [] }

/-- All relationships are cleared, to be built again. -/
def clearNodes : Graph :=
  { g with
    nodes := g.nodes.map (Option.map GraphNode.clearRelationships)
    resolveContext := {} }

def initInputsInitializersOutputs : Except Failure Graph := do
  let inputsOutputs ← g.clearNodes.setGraphInputsOutputs
  let g := { g.clearNodes with inputsOutputs := inputsOutputs }
  let names ← g.verifyInputAndInitializerNames
  let g := { g with resolveContext :=
    { g.resolveContext with inputsAndInitializers := names } }
  let ctx ← g.verifyNoDuplicateName
  return { g with resolveContext := ctx }

section Connections

def nonConforming : String :=
  " Graph may not conform to the ONNX spec and contain initializers that " ++
    "are not graph inputs."

/-- The argument for a name that a subgraph reads from outside. -/
def outerArg (name : String) : Except Failure GraphArg :=
  match g.getNodeArg name, g.parentGraph with
  | some arg, _ => .ok arg
  | none, none => .error (.status .invalidGraph
      ("At top level graph without matching NodeArg that subgraph " ++
        "consumes. Name=" ++ name ++ nonConforming))
  | none, some lookup =>
    match lookup name with
    | some arg => .ok arg
    | none => .error (.status .invalidGraph
        ("Failed to find NodeArg in all parent graphs. Name=" ++ name ++
          nonConforming))

def addImplicitInput (node : GraphNode) (arg : GraphArg) : GraphNode :=
  if arg ∈ node.implicitInputDefs then node
  else { node with implicitInputDefs := node.implicitInputDefs ++ [arg] }

/-- A name read by a subgraph of a node becomes an implicit input of it. -/
def connectImplicit (index : NodeIndex) (state : Graph × List String)
    (name : String) : Except Failure (Graph × List String) := do
  let arg ← state.1.outerArg name
  let consumed :=
    if (state.1.getNodeArg name).isSome then state.2 else state.2 ++ [name]
  let g := state.1.modifyNode index (addImplicitInput · arg)
  match g.resolveContext.outputArgs.lookup name, g.node index with
  | some (source, slot), some node =>
    let input : Int := (node.inputDefs.length : Int) +
      node.implicitInputDefs.idxOf arg
    return (← g.addEdge source index slot input, consumed)
  | _, _ => return (g, consumed)

def connectInput (index : NodeIndex) (state : Graph × List String)
    (input : GraphArg × Nat) : Except Failure (Graph × List String) :=
  if ¬ input.1.Exists then .ok state
  else
    match state.1.resolveContext.outputArgs.lookup input.1.name with
    | none =>
      if input.1.name ∈ state.1.resolveContext.outerScopeNodeArgs then
        .ok (state.1, state.2 ++ [input.1.name])
      else .ok state
    | some (source, slot) => do
        return (← state.1.addEdge source index slot (input.2 : Int), state.2)

/-- A node without inputs and outputs is removed. -/
def connectNode (state : Graph × List String) (index : NodeIndex) :
    Except Failure (Graph × List String) :=
  match state.1.node index with
  | none => .ok state
  | some node =>
    if 0 < node.inputDefs.length then
      node.inputDefs.zipIdx.foldlM (connectInput index) state
    else if node.outputDefs.length ≤ 0 then do
      return ((← state.1.removeNode index).1, state.2)
    else .ok state

/-- `BuildConnections` of one graph; `subgraphUses` lists, for the nodes with
subgraphs, the outer names that each subgraph was found to consume. -/
def buildConnections (subgraphUses : List (NodeIndex × List String)) :
    Except Failure (Graph × List String) := do
  let state ← subgraphUses.foldlM (fun state uses =>
    uses.2.foldlM (connectImplicit uses.1) state) (g, [])
  (List.range g.nodes.length).foldlM connectNode state

end Connections

section TopologicalSort

/-- The state of the walk from the leaves upwards; the top of the stack is the
first entry. -/
structure TopologicalWalk where
  order : List NodeIndex
  processed : List NodeIndex
  outputNodes : List NodeIndex := []
  added : List NodeIndex
  stack : List NodeIndex

def isConstant (index : NodeIndex) : Bool :=
  (g.node index).any fun node => node.opType = "Constant"

/-- Nodes that only have constants as inputs. -/
def topLevelNodes : List NodeIndex :=
  (g.liveNodes.filter fun entry =>
    entry.2.inputEdges.all fun edge => g.isConstant edge.node).map Prod.fst

def leafNodes : List NodeIndex :=
  (g.liveNodes.filter fun entry => entry.2.outputEdges = []).map Prod.fst

/-- The source nodes of the input edges are pushed. -/
def pushInputNodes (outputNodes added : List NodeIndex)
    (stack : List NodeIndex) : EdgeSet → Except Failure (List NodeIndex)
  | [] => .ok stack
  | edge :: edges =>
    if edge.node ∈ outputNodes then
      .error (.status .fail "Error: the graph is not acyclic.")
    else if edge.node ∈ added then
      pushInputNodes outputNodes added stack edges
    else pushInputNodes outputNodes added (edge.node :: stack) edges

theorem length_pushInputNodes {outputNodes added stack stack' : List NodeIndex}
    (h : pushInputNodes outputNodes added stack edges = .ok stack') :
    stack'.length ≤ stack.length + edges.length := by
  induction edges generalizing stack with
  | nil =>
    cases h
    exact Nat.le_refl _
  | cons edge edges ih =>
    rw [pushInputNodes] at h
    split at h
    · cases h
    · split at h
      · have hle := ih h
        rw [length_cons]
        omega
      · have hle := ih h
        rw [length_cons] at hle ⊢
        omega

/-- What the nodes that were not expanded can still push. -/
def pushesLeft (added : List NodeIndex) : Nat :=
  (((List.range g.nodes.length).filter (· ∉ added)).map fun index =>
    2 + ((g.node index).map (·.inputEdges.length)).getD 0).sum

variable {g} in
theorem lt_length_of_node {index : NodeIndex} {node : GraphNode}
    (hnode : g.node index = some node) : index < g.nodes.length := by
  by_contra hout
  rw [Graph.node, getElem?_eq_none (Nat.le_of_not_lt hout)] at hnode
  cases hnode

theorem pushesLeft_cons {added : List NodeIndex} {current : NodeIndex}
    {node : GraphNode} (hnode : g.node current = some node)
    (hnew : current ∉ added) :
    g.pushesLeft (current :: added) + (2 + node.inputEdges.length) ≤
      g.pushesLeft added := by
  have hbound := lt_length_of_node hnode
  have hmem : current ∈ (range g.nodes.length).filter (· ∉ added) :=
    mem_filter.mpr ⟨mem_range.mpr hbound, decide_eq_true hnew⟩
  have hfilter : (range g.nodes.length).filter (· ∉ current :: added) =
      ((range g.nodes.length).filter (· ∉ added)).erase current := by
    rw [(nodup_range.filter _).erase_eq_filter, filter_filter]
    apply filter_congr
    intro index _
    by_cases heq : index = current <;> simp [heq]
  have hperm := (perm_cons_erase hmem).map fun index =>
    2 + ((g.node index).map (·.inputEdges.length)).getD 0
  rw [pushesLeft, pushesLeft, hfilter, hperm.sum_nat, map_cons, hnode]
  exact Nat.le_of_eq (Nat.add_comm _ _)

def topologicalWalk (walk : TopologicalWalk) : Except Failure TopologicalWalk :=
  match walk with
  | ⟨order, processed, outputNodes, added, []⟩ =>
    .ok ⟨order, processed, outputNodes, added, []⟩
  | ⟨order, processed, outputNodes, added, current :: stack⟩ =>
    if current ∈ processed then
      topologicalWalk ⟨order, processed, outputNodes, added, stack⟩
    else if current ∈ added then
      topologicalWalk ⟨order ++ [current], current :: processed,
        outputNodes.filter (· ≠ current), added, stack⟩
    else if g.nodes.length ≤ current then
      .error (.enforce
        "Validating no unexpected access using an invalid node_index.")
    else
      match _hnode : g.node current with
      | none => topologicalWalk ⟨order, processed, outputNodes, added, stack⟩
      | some node =>
        match _hpush : pushInputNodes (current :: outputNodes) added
            (current :: stack) node.inputEdges with
        | .error failure => .error failure
        | .ok pushed =>
          topologicalWalk ⟨order, processed, current :: outputNodes,
            current :: added, pushed⟩
termination_by walk.stack.length + g.pushesLeft walk.added
decreasing_by
  all_goals simp only [List.length_cons]
  · omega
  · omega
  · omega
  · have hleft := g.pushesLeft_cons _hnode ‹_›
    have hlength := length_pushInputNodes _hpush
    rw [List.length_cons] at hlength
    omega

def performTopologicalSortAndCheckIsAcyclic : Except Failure Graph := do
  let walk ← g.topologicalWalk
    { order := g.topLevelNodes
      processed := g.topLevelNodes
      added := g.topLevelNodes
      stack := g.leafNodes.reverse }
  if 0 ≤ g.numOfNodes ∧ g.numOfNodes = walk.order.length then
    return { g with nodesInTopologicalOrder := walk.order }
  else .error (.status .fail "Error: the graph is not acyclic.")

end TopologicalSort

/-- Initializers that are neither read nor graph inputs or outputs go. -/
def cleanUnusedInitializers : Except Failure Graph := do
  let outputs ← g.inputsOutputs.outputs.mapM fun output =>
    match output with
    | none => .error .nullDereference
    | some arg => .ok arg.name
  let used := g.inputsOutputs.inputs.map (·.name) ++ outputs ++
    g.liveNodes.flatMap fun entry =>
      (entry.2.inputDefs ++ entry.2.implicitInputDefs).map (·.name)
  return { g with
    nameToInitialTensor := g.nameToInitialTensor.filter (· ∈ used) }

/-- `Resolve` of a graph without a parent, where `subgraphUses` lists the outer
names that the subgraphs of its nodes were found to consume.  `inferTypes`
stands for `PerformTypeAndShapeInferencing`: it fails, or gives types to the
arguments. -/
def resolveWith (subgraphUses : List (NodeIndex × List String))
    (inferTypes : Graph → Except Failure (Nat → Option TypeProto)) :
    Except Failure Graph :=
  if ¬ g.graphResolveNeeded then .ok g
  else do
    let g ← g.initInputsInitializersOutputs
    let (g, consumed) ← g.buildConnections subgraphUses
    if consumed ≠ [] then
      .error (.enforce ("Shouldn't be possible to have NodeArgs that " ++
        "haven't been handled already."))
    let g ← g.performTopologicalSortAndCheckIsAcyclic
    let types ← inferTypes g
    let g ← cleanUnusedInitializers { g with argType := types }
    return { g with graphResolveNeeded := false }

/-- `Resolve` of a graph whose nodes have no subgraphs. -/
def resolve (inferTypes : Graph → Except Failure (Nat → Option TypeProto)) :
    Except Failure Graph :=
  g.resolveWith [] inferTypes

end Graph

end OnnxRuntime
