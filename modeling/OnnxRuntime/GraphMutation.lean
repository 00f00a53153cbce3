/-
Changing a graph between two calls of `Resolve`: nodes and edges are added and
removed, and edge ends must not be left behind.
-/
import OnnxRuntime.TopologicalSort

namespace OnnxRuntime

open List Option

variable {outputArgs inputArgs : List GraphArg} {opType : String}

/-- `INT_MAX`, the slot of a control edge. -/
def controlSlot : Int := 2147483647

def EdgeEnd.IsControl (e : EdgeEnd) : Prop :=
  e.srcArgIndex = controlSlot ∧ e.dstArgIndex = controlSlot

namespace Graph

variable (g : Graph)

section Calls

/-- An address at which no argument of the graph is. -/
def freshPointer : Nat :=
  ((g.nodeArgs ++ g.liveNodes.flatMap fun entry =>
    entry.2.inputDefs ++ entry.2.implicitInputDefs ++ entry.2.outputDefs).map
    (·.pointer)).foldr max 0 + 1

def getOrCreateNodeArg (name : String) (type : Option TypeProto) :
    Graph × GraphArg :=
  match g.getNodeArg name with
  | some arg => (g, arg)
  | none =>
    ({ g with
      nodeArgs := g.nodeArgs ++ [⟨g.freshPointer, name⟩]
      argType := Function.update g.argType g.freshPointer type },
      ⟨g.freshPointer, name⟩)

/-- The arguments of a new node, each looked up by its name. -/
def createNodeArgs : Graph → List GraphArg → Graph × List GraphArg
  | g, [] => (g, [])
  | g, arg :: rest =>
    let (g, created) := g.getOrCreateNodeArg arg.name (g.argType arg.pointer)
    let (g, others) := createNodeArgs g rest
    (g, created :: others)

def addNode (name opType : String) (inputArgs outputArgs : List GraphArg) :
    Except Failure (Graph × NodeIndex) :=
  let (g, inputs) := g.createNodeArgs inputArgs
  let (g, outputs) := g.createNodeArgs outputArgs
  if g.nodes.length < 2147483647 then
    .ok ({ g with
      nodes := g.nodes ++ [some {
        name := name
        opType := opType
        inputDefs := inputs
        outputDefs := outputs }]
      numOfNodes := g.numOfNodes + 1
      graphResolveNeeded := true }, g.nodes.length)
  else .error (.enforce "nodes_.size() < std::numeric_limits<int>::max()")

def addControlEdge (srcNodeIndex dstNodeIndex : NodeIndex) : Graph × Bool :=
  match g.node srcNodeIndex, g.node dstNodeIndex with
  | some srcNode, some _ =>
    (((g.modifyNode srcNodeIndex (·.insertOutputEdge
      ⟨dstNodeIndex, controlSlot, controlSlot⟩)).modifyNode dstNodeIndex
      (·.insertInputEdge ⟨srcNodeIndex, controlSlot, controlSlot⟩)).modifyNode
      dstNodeIndex fun node => { node with
        controlInputs := node.controlInputs.insert srcNode.name }, true)
  | _, _ => (g, false)

end Calls

end Graph

/-- The calls by which a graph is rewritten. -/
inductive GraphCall where
  | addNode (name opType : String) (inputArgs outputArgs : List GraphArg)
  | addEdge (srcNodeIndex dstNodeIndex : NodeIndex)
      (srcArgSlot dstArgSlot : Int)
  | removeEdge (srcNodeIndex dstNodeIndex : NodeIndex)
      (srcArgSlot dstArgSlot : Int)
  | addControlEdge (srcNodeIndex dstNodeIndex : NodeIndex)
  | removeNode (index : NodeIndex)

/-- What a call makes of the graph, and whether its arguments were valid. -/
def GraphCall.run (g : Graph) : GraphCall → Except Failure (Graph × Bool)
  | .addNode name opType inputArgs outputArgs => do
      let (g, _) ← g.addNode name opType inputArgs outputArgs
      return (g, true)
  | .addEdge source target srcArgSlot dstArgSlot => do
      return (← g.addEdge source target srcArgSlot dstArgSlot, true)
  | .removeEdge source target srcArgSlot dstArgSlot => do
      return (← g.removeEdge source target srcArgSlot dstArgSlot, true)
  | .addControlEdge source target => .ok (g.addControlEdge source target)
  | .removeNode index => g.removeNode index

/-- The graph that calls make of one without nodes. -/
def Graph.builtBy (calls : List GraphCall) : Except Failure Graph :=
  calls.foldlM (fun g call => (call.run g).map Prod.fst)
    { nodes := [], numOfNodes := 0, nodeArgs := [] }

namespace Graph

/-- No edge end is left behind: both ends of an edge are there, an input has
at most one data edge, and every node can be removed. -/
structure Intact (g : Graph) : Prop where
  live : ∀ index, ∀ e ∈ g.inputEdgesOf index ++ g.outputEdgesOf index,
    (g.node e.node).isSome
  mirrored : g.Mirrored
  single : ∀ index, ∀ e ∈ g.inputEdgesOf index,
    ∀ other ∈ g.inputEdgesOf index, ¬ e.IsControl → ¬ other.IsControl →
      e.dstArgIndex = other.dstArgIndex → e = other
  removable : ∀ index, (g.node index).isSome →
    ∃ g', g.removeNode index = .ok (g', true)

def outputArg (g : Graph) (index : NodeIndex) (slot : Int) : Option GraphArg :=
  (g.node index).bind fun node => atSlot node.outputDefs slot

def inputArg (g : Graph) (index : NodeIndex) (slot : Int) : Option GraphArg :=
  (g.node index).bind fun node => node.inputAt slot

/-- The slots of an edge hold the same argument. -/
def Joins (g : Graph) (edge : DataEdge) : Prop :=
  ∃ output input, g.outputArg edge.source edge.srcArgIndex = some output ∧
    g.inputArg edge.target edge.dstArgIndex = some input ∧
    output.pointer = input.pointer

variable {g g' : Graph}

section Removal

/-- The graph after `RemoveEdge`. -/
def unlinked (g : Graph) (edge : DataEdge) : Graph :=
  (g.modifyNode edge.target (·.eraseInputEdge edge.sourceEnd)).modifyNode
    edge.source (·.eraseOutputEdge edge.targetEnd)

theorem removeEdge_eq_ok_iff (edge : DataEdge) :
    g.removeEdge edge.source edge.target edge.srcArgIndex edge.dstArgIndex =
      .ok g' ↔ g.Joins edge ∧ g' = g.unlinked edge := by
  constructor
  · intro h
    revert h
    fun_cases removeEdge g edge.source edge.target edge.srcArgIndex
      edge.dstArgIndex <;> intro h <;> cases h
    rename_i source target htarget hsource output houtput input hinput hsame
    exact ⟨⟨output, input, by rw [outputArg, hsource]; exact houtput,
      by rw [inputArg, htarget]; exact hinput, not_not.mp hsame⟩, rfl⟩
  · rintro ⟨⟨output, input, houtput, hinput, hsame⟩, rfl⟩
    obtain ⟨source, hsource, houtput⟩ := bind_eq_some_iff.mp houtput
    obtain ⟨target, htarget, hinput⟩ := bind_eq_some_iff.mp hinput
    rw [removeEdge, hsource, htarget]
    simp only [houtput, hinput]
    exact if_neg (not_not.mpr hsame)

variable {edge e : EdgeEnd} {edges : EdgeSet} {index other : NodeIndex}

@[simp]
theorem mem_erase_edgeSet :
    e ∈ EdgeSet.erase edge edges ↔ e ∈ edges ∧ e ≠ edge := by
  refine mem_eraseBy ?_ fun _ _ hbefore hafter =>
    EdgeEnd.eq_of_not_before hafter hbefore
  simp [EdgeEnd.before]

theorem mem_outputEdgesOf_erase :
    e ∈ (g.modifyNode index (·.eraseOutputEdge edge)).outputEdgesOf other ↔
      e ∈ g.outputEdgesOf other ∧ ¬ (other = index ∧ e = edge) := by
  rw [outputEdgesOf, outputEdgesOf, node_modifyNode]
  by_cases hother : index = other
  · cases hnode : g.node other <;> simp [hother, GraphNode.eraseOutputEdge]
  · simp [hother, Ne.symm hother]

theorem mem_inputEdgesOf_erase :
    e ∈ (g.modifyNode index (·.eraseInputEdge edge)).inputEdgesOf other ↔
      e ∈ g.inputEdgesOf other ∧ ¬ (other = index ∧ e = edge) := by
  rw [inputEdgesOf, inputEdgesOf, node_modifyNode]
  by_cases hother : index = other
  · cases hnode : g.node other <;> simp [hother, GraphNode.eraseInputEdge]
  · simp [hother, Ne.symm hother]

theorem hasEdge_unlinked {edge other : DataEdge} :
    (g.unlinked edge).HasEdge other ↔ g.HasEdge other ∧ other ≠ edge := by
  rw [HasEdge, unlinked, mem_outputEdgesOf_erase, outputEdgesOf_modifyNode,
    ← DataEdge.eq_iff_targetEnd]
  · rfl
  · exact fun _ => rfl

theorem mem_inputEdgesOf_unlinked {edge other : DataEdge} :
    other.sourceEnd ∈ (g.unlinked edge).inputEdgesOf other.target ↔
      other.sourceEnd ∈ g.inputEdgesOf other.target ∧ other ≠ edge := by
  rw [unlinked, inputEdgesOf_modifyNode, mem_inputEdgesOf_erase,
    ← DataEdge.eq_iff_sourceEnd]
  exact fun _ => rfl

/-- The arguments of a node. -/
def defsOf (g : Graph) (index : NodeIndex) :
    Option (List GraphArg × List GraphArg × List GraphArg) :=
  (g.node index).map fun node =>
    (node.inputDefs, node.implicitInputDefs, node.outputDefs)

theorem defsOf_unlinked (g : Graph) (edge : DataEdge) (index : NodeIndex) :
    (g.unlinked edge).defsOf index = g.defsOf index := by
  rw [defsOf, unlinked, map_node_modifyNode, map_node_modifyNode]
  · rfl
  · exact fun _ _ => rfl
  · exact fun _ _ => rfl

theorem inputArg_eq_bind (g : Graph) (index : NodeIndex) (slot : Int) :
    g.inputArg index slot =
      (g.defsOf index).bind fun defs => atSlot (defs.1 ++ defs.2.1) slot := by
  rw [inputArg, defsOf]
  cases g.node index <;> rfl

/-- The edge that an input edge end of a node stands for. -/
def edgeInto (index : NodeIndex) (e : EdgeEnd) : DataEdge :=
  ⟨e.node, e.srcArgIndex, index, e.dstArgIndex⟩

/-- What is left after some of the edges into a node were removed. -/
structure Loses (g g' : Graph) (index : NodeIndex) (edges : EdgeSet) :
    Prop where
  defs : ∀ other, g'.defsOf other = g.defsOf other
  output : ∀ edge, g'.HasEdge edge ↔
    g.HasEdge edge ∧ ∀ e ∈ edges, edge ≠ edgeInto index e
  input : ∀ edge : DataEdge, edge.sourceEnd ∈ g'.inputEdgesOf edge.target ↔
    edge.sourceEnd ∈ g.inputEdgesOf edge.target ∧
      ∀ e ∈ edges, edge ≠ edgeInto index e
  numOfNodes : g'.numOfNodes = g.numOfNodes

section

variable (h : g'.defsOf index = g.defsOf index)
include h

theorem outputArg_congr (slot : Int) :
    g'.outputArg index slot = g.outputArg index slot := by
  have hread : ∀ g : Graph, g.outputArg index slot =
      (g.defsOf index).bind fun defs => atSlot defs.2.2 slot := by
    intro g
    rw [outputArg, defsOf]
    cases g.node index <;> rfl
  rw [hread, hread, h]

theorem inputArg_congr (slot : Int) :
    g'.inputArg index slot = g.inputArg index slot := by
  rw [inputArg_eq_bind, inputArg_eq_bind, h]

theorem isSome_eq_of_defsOf :
    (g'.node index).isSome = (g.node index).isSome := by
  have hsome := congrArg Option.isSome h
  rw [defsOf, defsOf, isSome_map, isSome_map] at hsome
  exact hsome

end

/-- Whether an edge joins depends on the arguments of its ends only. -/
theorem Joins.congr {edge : DataEdge} (h : g.Joins edge)
    (hsource : g'.defsOf edge.source = g.defsOf edge.source)
    (htarget : g'.defsOf edge.target = g.defsOf edge.target) :
    g'.Joins edge := by
  rw [Joins] at h ⊢
  rw [outputArg_congr hsource, inputArg_congr htarget]
  exact h

/-- Input edges are removed one after the other, if each of them joins. -/
theorem foldlM_removeEdge_spec :
    (∀ g', edges.foldlM (fun g edge => g.removeEdge edge.node index
      edge.srcArgIndex edge.dstArgIndex) g = .ok g' →
      Loses g g' index edges ∧ ∀ e ∈ edges, g.Joins (edgeInto index e)) ∧
    ((∀ e ∈ edges, g.Joins (edgeInto index e)) →
      ∃ g', edges.foldlM (fun g edge => g.removeEdge edge.node index
        edge.srcArgIndex edge.dstArgIndex) g = .ok g') := by
  induction edges generalizing g with
  | nil =>
    refine ⟨fun g' h => ?_, fun _ => ⟨g, rfl⟩⟩
    cases h
    exact ⟨⟨fun _ => rfl, by simp, by simp, rfl⟩, by simp⟩
  | cons edge rest ih =>
    have hdefs := fun other => g.defsOf_unlinked (edgeInto index edge) other
    constructor
    · intro g' h
      obtain ⟨middle, hremove, h⟩ := except_bind_eq_ok.mp h
      obtain ⟨hjoins, rfl⟩ :=
        (removeEdge_eq_ok_iff (edgeInto index edge)).mp hremove
      obtain ⟨hloses, hall⟩ := ih.1 g' h
      refine ⟨⟨fun other => ?_, fun other => ?_, fun other => ?_, ?_⟩, ?_⟩
      · rw [hloses.defs, hdefs]
      · rw [hloses.output, hasEdge_unlinked, forall_mem_cons, and_assoc]
      · rw [hloses.input, mem_inputEdgesOf_unlinked, forall_mem_cons, and_assoc]
      · exact hloses.numOfNodes
      · refine forall_mem_cons.mpr ⟨hjoins, fun e he => ?_⟩
        exact (hall e he).congr (hdefs _).symm (hdefs _).symm
    · intro hall
      rw [forall_mem_cons] at hall
      obtain ⟨g', h⟩ := ih.2 fun e he => (hall.2 e he).congr (hdefs _) (hdefs _)
      refine ⟨g', ?_⟩
      refine except_bind_eq_ok.mpr ⟨_, ?_, h⟩
      exact (removeEdge_eq_ok_iff (edgeInto index edge)).mpr ⟨hall.1, rfl⟩

/-- A node is removed with the edges into it. -/
theorem removeNode_eq_ok (h : g.removeNode index = .ok (g', true)) :
    ∃ middle, Loses g middle index (g.inputEdgesOf index) ∧
      g' = (middle.releaseNode index).1 := by
  rw [removeNode] at h
  split at h
  · cases h
  · split at h
    · cases h
    · rename_i node hnode
      obtain ⟨middle, hfold, h⟩ := except_bind_eq_ok.mp h
      have hinput : g.inputEdgesOf index = node.inputEdges := by
        rw [inputEdgesOf, hnode]
        rfl
      rw [hinput]
      exact ⟨middle, (foldlM_removeEdge_spec.1 middle hfold).1,
        (congrArg Prod.fst (Except.ok.inj h)).symm⟩

theorem releaseNode_snd (hlive : (g.node index).isSome) :
    (g.releaseNode index).2 = true := by
  have hbound : ¬ g.nodes.length ≤ index := by
    intro hout
    rw [Graph.node, getElem?_eq_none hout] at hlive
    cases hlive
  rw [releaseNode, if_neg hbound, if_pos hlive]

theorem removeNode_returns_iff (hlive : (g.node index).isSome) :
    (∃ g', g.removeNode index = .ok (g', true)) ↔
      ∀ e ∈ g.inputEdgesOf index, g.Joins (edgeInto index e) := by
  obtain ⟨node, hnode⟩ := isSome_iff_exists.mp hlive
  have hbound : ¬ g.nodes.length ≤ index := by
    intro hout
    rw [Graph.node, getElem?_eq_none hout] at hnode
    cases hnode
  have hinput : g.inputEdgesOf index = node.inputEdges := by
    rw [inputEdgesOf, hnode]
    rfl
  rw [removeNode, if_neg hbound, hnode, hinput]
  constructor
  · rintro ⟨g', h⟩
    obtain ⟨middle, hfold, -⟩ := except_bind_eq_ok.mp h
    exact (foldlM_removeEdge_spec.1 middle hfold).2
  · intro hall
    obtain ⟨middle, hfold⟩ := foldlM_removeEdge_spec.2 hall
    refine ⟨(middle.releaseNode index).1, except_bind_eq_ok.mpr
      ⟨middle, hfold, ?_⟩⟩
    have hmiddle : (middle.node index).isSome := by
      rw [isSome_eq_of_defsOf
        ((foldlM_removeEdge_spec.1 middle hfold).1.defs index)]
      exact hlive
    rw [← releaseNode_snd hmiddle]
    rfl

end Removal

section Invariant

/-- The invariant in terms of the edges: they join, and no two end at the same
slot. -/
theorem intact_iff : g.Intact ↔
    g.Mirrored ∧ (∀ edge, g.HasEdge edge → g.Joins edge) ∧
    ∀ edge other, g.HasEdge edge → g.HasEdge other →
      edge.target = other.target → ¬ edge.sourceEnd.IsControl →
      ¬ other.sourceEnd.IsControl → edge.dstArgIndex = other.dstArgIndex →
      edge = other := by
  constructor
  · intro h
    refine ⟨h.mirrored, fun edge hedge => ?_, ?_⟩
    · have htarget := h.mirrored.isSome_target ⟨edge, rfl, rfl, hedge⟩
      exact (removeNode_returns_iff htarget).mp
        (h.removable edge.target htarget) edge.sourceEnd
        ((h.mirrored edge).mp hedge)
    · intro edge other hedge hother htarget hdata hdata' hslot
      refine DataEdge.eq_iff_sourceEnd.mpr ⟨htarget, h.single edge.target _
        ((h.mirrored edge).mp hedge) _ ?_ hdata hdata' hslot⟩
      rw [htarget]
      exact (h.mirrored other).mp hother
  · rintro ⟨hmirror, hjoins, hsingle⟩
    have hinput : ∀ {index e}, e ∈ g.inputEdgesOf index →
        g.HasEdge (edgeInto index e) := fun {index e} he =>
      (hmirror (edgeInto index e)).mpr he
    refine ⟨fun index e he => ?_, hmirror, ?_, fun index hlive => ?_⟩
    · rcases mem_append.mp he with he | he
      · exact isSome_source ⟨edgeInto index e, rfl, rfl, hinput he⟩
      · exact hmirror.isSome_target (edge_iff_output.mpr ⟨e, he, rfl⟩)
    · intro index e he other hother hdata hdata' hslot
      have heq := hsingle _ _ (hinput he) (hinput hother) rfl hdata hdata' hslot
      exact (DataEdge.eq_iff_sourceEnd.mp heq).2
    · exact (removeNode_returns_iff hlive).mpr fun e he => hjoins _ (hinput he)

instance decidableJoins (g : Graph) (edge : DataEdge) :
    Decidable (g.Joins edge) :=
  match houtput : g.outputArg edge.source edge.srcArgIndex,
      hinput : g.inputArg edge.target edge.dstArgIndex with
  | some output, some input =>
    decidable_of_iff (output.pointer = input.pointer) (by
      rw [Joins, houtput, hinput]
      simp)
  | none, _ => .isFalse (by
      rw [Joins, houtput]
      simp)
  | some output, none => .isFalse (by
      rw [Joins, hinput]
      simp)

instance decidableIsControl (e : EdgeEnd) : Decidable e.IsControl :=
  inferInstanceAs (Decidable (_ ∧ _))

/-- It is enough to look at the input edges of each node. -/
theorem intact_iff_inputEdges : g.Intact ↔ g.Mirrored ∧
    ∀ entry ∈ g.liveNodes, ∀ e ∈ entry.2.inputEdges,
      g.Joins (edgeInto entry.1 e) ∧ ∀ other ∈ entry.2.inputEdges,
        ¬ e.IsControl → ¬ other.IsControl →
        e.dstArgIndex = other.dstArgIndex → e = other := by
  have hedges : ∀ {index node}, g.node index = some node →
      g.inputEdgesOf index = node.inputEdges := by
    intro index node hnode
    rw [inputEdgesOf, hnode]
    rfl
  constructor
  · intro h
    refine ⟨h.mirrored, ?_⟩
    rintro ⟨index, node⟩ hnode e he
    have hinput := hedges (mem_liveNodes.mp hnode)
    rw [← hinput] at he ⊢
    refine ⟨(intact_iff.mp h).2.1 _ ((h.mirrored (edgeInto index e)).mpr he), ?_⟩
    exact fun other hother => h.single index e he other hother
  · rintro ⟨hmirror, hall⟩
    have hentry : ∀ {edge : DataEdge}, g.HasEdge edge → ∃ node,
        (edge.target, node) ∈ g.liveNodes ∧
          edge.sourceEnd ∈ node.inputEdges := by
      intro edge hedge
      have he := (hmirror edge).mp hedge
      obtain ⟨node, hnode⟩ :=
        isSome_iff_exists.mp (isSome_of_mem_inputEdgesOf he)
      rw [hedges hnode] at he
      exact ⟨node, mem_liveNodes.mpr hnode, he⟩
    refine intact_iff.mpr ⟨hmirror, fun edge hedge => ?_, ?_⟩
    · obtain ⟨node, hnode, he⟩ := hentry hedge
      exact (hall _ hnode _ he).1
    · intro edge other hedge hother htarget hdata hdata' hslot
      obtain ⟨node, hnode, he⟩ := hentry hedge
      obtain ⟨node', hnode', he'⟩ := hentry hother
      rw [← htarget, mem_liveNodes, mem_liveNodes.mp hnode] at hnode'
      cases hnode'
      exact DataEdge.eq_iff_sourceEnd.mpr ⟨htarget,
        (hall _ hnode _ he).2 _ he' hdata hdata' hslot⟩

instance decidableIntact (g : Graph) : Decidable g.Intact :=
  decidable_of_iff _ intact_iff_inputEdges.symm

variable {old arg : GraphArg} {index : NodeIndex} {edge : DataEdge}

theorem inputAt_setInputAt {node : GraphNode} {slot : Int}
    (hslot : node.inputAt slot = some old) (other : Int) :
    (node.setInputAt slot arg).inputAt other =
      if other = slot then some arg else node.inputAt other := by
  have hset : (node.setInputAt slot arg).inputDefs ++
      (node.setInputAt slot arg).implicitInputDefs =
      (node.inputDefs ++ node.implicitInputDefs).set slot.toNat arg := by
    rw [GraphNode.setInputAt, set_append]
    split <;> rfl
  rw [GraphNode.inputAt, hset, GraphNode.inputAt]
  cases slot with
  | negSucc k => cases hslot
  | ofNat k =>
    obtain ⟨hbound, -⟩ := List.getElem?_eq_some_iff.mp hslot
    cases other with
    | negSucc l => rfl
    | ofNat l =>
      rw [atSlot, atSlot, Int.ofNat_eq_natCast, Int.toNat_natCast]
      grind

theorem defsOf_modifyNode {f : GraphNode → GraphNode}
    (hkeep : ∀ node, ((f node).inputDefs, (f node).implicitInputDefs,
      (f node).outputDefs) =
      (node.inputDefs, node.implicitInputDefs, node.outputDefs))
    (other : NodeIndex) :
    (g.modifyNode index f).defsOf other = g.defsOf other := by
  rw [defsOf, map_node_modifyNode fun node _ => hkeep node, defsOf]

/-- Of the arguments, `AddEdge` changes one input. -/
theorem defsOf_linked (g : Graph) (edge : DataEdge) (arg : GraphArg)
    (index : NodeIndex) : (g.linked edge arg).defsOf index =
      (g.modifyNode edge.target (·.setInputAt edge.dstArgIndex arg)).defsOf
        index := by
  rw [linked, defsOf_modifyNode, defsOf_modifyNode]
  · exact fun _ => rfl
  · exact fun _ => rfl

theorem outputArg_linked (index : NodeIndex) (slot : Int) :
    (g.linked edge arg).outputArg index slot = g.outputArg index slot := by
  rw [outputArg_congr (g.defsOf_linked edge arg index), outputArg, outputArg,
    node_modifyNode]
  split
  · cases g.node index with
    | none => rfl
    | some node =>
      exact congrArg (atSlot · slot) (setInputAt_rest node _ arg).1
  · rfl

theorem inputArg_linked
    (hold : g.inputArg edge.target edge.dstArgIndex = some old)
    (index : NodeIndex) (slot : Int) :
    (g.linked edge arg).inputArg index slot =
      if index = edge.target ∧ slot = edge.dstArgIndex then some arg
      else g.inputArg index slot := by
  rw [inputArg_congr (g.defsOf_linked edge arg index), inputArg, inputArg,
    node_modifyNode]
  by_cases hindex : edge.target = index
  · subst hindex
    obtain ⟨node, hnode, hslot⟩ := bind_eq_some_iff.mp hold
    rw [hnode]
    simp [inputAt_setInputAt hslot]
  · rw [if_neg hindex, if_neg fun h => hindex h.1.symm]

theorem nodes_getOrCreateNodeArg (g : Graph) (name : String)
    (type : Option TypeProto) :
    (g.getOrCreateNodeArg name type).1.nodes = g.nodes := by
  rw [getOrCreateNodeArg]
  split <;> rfl

theorem nodes_createNodeArgs (g : Graph) (args : List GraphArg) :
    (g.createNodeArgs args).1.nodes = g.nodes := by
  induction args generalizing g with
  | nil => rfl
  | cons arg rest ih =>
    exact (ih _).trans (g.nodes_getOrCreateNodeArg arg.name _)

/-- A new node has no edges and the next index. -/
theorem addNode_eq_ok {name : String}
    (h : g.addNode name opType inputArgs outputArgs = .ok (g', index)) :
    index = g.nodes.length ∧ g'.nodes = g.nodes ++ [some {
      name := name
      opType := opType
      inputDefs := (g.createNodeArgs inputArgs).2
      outputDefs :=
        ((g.createNodeArgs inputArgs).1.createNodeArgs outputArgs).2 }] := by
  rw [addNode] at h
  dsimp only at h
  split at h
  · cases h
    rw [nodes_createNodeArgs, nodes_createNodeArgs]
    exact ⟨rfl, rfl⟩
  · cases h

theorem node_of_append {new : GraphNode}
    (h : g'.nodes = g.nodes ++ [some new]) (other : NodeIndex) :
    g'.node other =
      if other = g.nodes.length then some new else g.node other := by
  rw [Graph.node, h, Graph.node, getElem?_append]
  split
  · rename_i hlt
    rw [if_neg (Nat.ne_of_lt hlt)]
  · rename_i hge
    rw [getElem?_singleton]
    by_cases heq : other = g.nodes.length
    · simp [heq]
    · have hout : g.nodes[other]? = none :=
        getElem?_eq_none (Nat.le_of_not_lt hge)
      rw [if_neg heq, hout, if_neg]
      exact Nat.sub_ne_zero_of_lt
        (Nat.lt_of_le_of_ne (Nat.le_of_not_lt hge) (Ne.symm heq))

namespace Intact

variable (h : g.Intact)
include h

theorem addEdge (edge : DataEdge)
    (hadd : g.addEdge edge.source edge.target edge.srcArgIndex
      edge.dstArgIndex = .ok g')
    (hfree : ∀ e ∈ g.inputEdgesOf edge.target,
      e.dstArgIndex = edge.dstArgIndex → e = edge.sourceEnd) :
    g'.Intact := by
  obtain ⟨source, target, output, input, hsource, htarget, houtput, hinput,
    rfl⟩ := addEdge_eq_ok hadd
  have hsourceLive : (g.node edge.source).isSome := by rw [hsource]; rfl
  have htargetLive : (g.node edge.target).isSome := by rw [htarget]; rfl
  have hold : g.inputArg edge.target edge.dstArgIndex = some input := by
    rw [inputArg, htarget]
    exact hinput
  have hedge : ∀ other, (g.linked edge output).HasEdge other ↔
      g.HasEdge other ∨ other = edge := by
    intro other
    rw [HasEdge, mem_outputEdgesOf_linked hsourceLive,
      ← DataEdge.eq_iff_targetEnd, or_comm, HasEdge]
  obtain ⟨hmirror, hjoins, hsingle⟩ := intact_iff.mp h
  -- The slot had no edge but this one.
  have hone : ∀ other, g.HasEdge other → other.target = edge.target →
      other.dstArgIndex = edge.dstArgIndex → other = edge := by
    intro other hother hend hslot
    refine DataEdge.eq_iff_sourceEnd.mpr ⟨hend, hfree _ ?_ hslot⟩
    rw [← hend]
    exact (hmirror other).mp hother
  refine intact_iff.mpr ⟨fun other => ?_, fun other hother => ?_, ?_⟩
  · rw [mem_inputEdgesOf_linked htargetLive, ← DataEdge.eq_iff_sourceEnd,
      or_comm, ← hmirror other]
    exact hedge other
  · rw [Joins, outputArg_linked, inputArg_linked hold]
    by_cases heq : other = edge
    · subst heq
      refine ⟨output, output, ?_, if_pos ⟨rfl, rfl⟩, rfl⟩
      rw [outputArg, hsource]
      exact houtput
    · have hprevious := ((hedge other).mp hother).resolve_right heq
      rw [if_neg fun hends => heq (hone other hprevious hends.1 hends.2)]
      exact hjoins other hprevious
  · intro first second hfirst hsecond hend hdata hdata' hslot
    rcases (hedge first).mp hfirst with hbefore | rfl
    · rcases (hedge second).mp hsecond with hbefore' | rfl
      · exact hsingle first second hbefore hbefore' hend hdata hdata' hslot
      · exact hone first hbefore hend hslot
    · rcases (hedge second).mp hsecond with hbefore' | rfl
      · exact (hone second hbefore' hend.symm hslot.symm).symm
      · rfl

/-- Fewer edges between nodes with the same arguments. -/
theorem of_fewer (hmirror : g'.Mirrored)
    (hfewer : ∀ edge, g'.HasEdge edge → g.HasEdge edge)
    (hdefs : ∀ index, (g.node index).isSome → (g'.node index).isSome →
      g'.defsOf index = g.defsOf index) : g'.Intact := by
  obtain ⟨-, hjoins, hsingle⟩ := intact_iff.mp h
  refine intact_iff.mpr ⟨hmirror, fun edge hedge => ?_,
    fun first second hfirst hsecond => hsingle first second
      (hfewer first hfirst) (hfewer second hsecond)⟩
  have hends : g'.Edge edge.source edge.target := ⟨edge, rfl, rfl, hedge⟩
  have hbefore : g.Edge edge.source edge.target :=
    ⟨edge, rfl, rfl, hfewer edge hedge⟩
  exact (hjoins edge (hfewer edge hedge)).congr
    (hdefs _ (isSome_source hbefore) (isSome_source hends))
    (hdefs _ (h.mirrored.isSome_target hbefore) (hmirror.isSome_target hends))

/-- Nothing but the nodes matters. -/
theorem of_nodes (hnodes : g.nodes = g'.nodes) : g'.Intact := by
  have hnode := node_congr hnodes
  refine h.of_fewer (fun edge => ?_) (fun edge hedge => ?_) fun index _ _ => ?_
  · rw [outputEdgesOf, inputEdgesOf, ← hnode, ← hnode]
    exact h.mirrored edge
  · rw [HasEdge, outputEdgesOf, ← hnode] at hedge
    exact hedge
  · rw [defsOf, defsOf, hnode]

theorem removeEdge (edge : DataEdge)
    (hremove : g.removeEdge edge.source edge.target edge.srcArgIndex
      edge.dstArgIndex = .ok g') : g'.Intact := by
  obtain ⟨-, rfl⟩ := (removeEdge_eq_ok_iff edge).mp hremove
  refine h.of_fewer (fun other => ?_) (fun other hother => ?_)
    fun index _ _ => g.defsOf_unlinked edge index
  · rw [mem_inputEdgesOf_unlinked, ← h.mirrored other]
    exact hasEdge_unlinked
  · exact (hasEdge_unlinked.mp hother).1

theorem removeNode {index : NodeIndex}
    (hremove : g.removeNode index = .ok (g', true))
    (hout : ∀ e ∈ g.outputEdgesOf index, e.node = index) : g'.Intact := by
  obtain ⟨middle, hloses, rfl⟩ := removeNode_eq_ok hremove
  -- No edge of the node is left.
  have hfar : ∀ edge, middle.HasEdge edge →
      edge.source ≠ index ∧ edge.target ≠ index := by
    intro edge hedge
    obtain ⟨hedge, hkept⟩ := (hloses.output edge).mp hedge
    have htarget : edge.target ≠ index := by
      intro heq
      refine hkept edge.sourceEnd ?_ ?_
      · rw [← heq]
        exact (h.mirrored edge).mp hedge
      · rw [← heq]
        rfl
    refine ⟨fun heq => htarget (hout edge.targetEnd ?_), htarget⟩
    rw [← heq]
    exact hedge
  have hmirror : middle.Mirrored := by
    intro edge
    rw [hloses.input, ← h.mirrored edge]
    exact hloses.output edge
  have hnode : ∀ other, other ≠ index →
      (middle.releaseNode index).1.node other = middle.node other := by
    intro other hother
    rw [node_releaseNode, if_neg hother.symm]
  have hgone : (middle.releaseNode index).1.node index = none := by
    rw [node_releaseNode, if_pos rfl]
  have hedge : ∀ edge, (middle.releaseNode index).1.HasEdge edge ↔
      middle.HasEdge edge := by
    intro edge
    by_cases hsource : edge.source = index
    · refine iff_of_false ?_ fun hedge => (hfar edge hedge).1 hsource
      rw [HasEdge, outputEdgesOf, hsource, hgone]
      exact not_mem_nil
    · rw [HasEdge, outputEdgesOf, hnode _ hsource]
      rfl
  refine h.of_fewer (fun edge => ?_) (fun edge hhas => ?_)
    fun other _ hother => ?_
  · refine (hedge edge).trans ((hmirror edge).trans ?_)
    by_cases htarget : edge.target = index
    · refine iff_of_false (fun hin => ?_) ?_
      · exact (hfar edge ((hmirror edge).mpr hin)).2 htarget
      · rw [inputEdgesOf, htarget, hgone]
        exact not_mem_nil
    · rw [inputEdgesOf, inputEdgesOf, hnode _ htarget]
  · exact ((hloses.output edge).mp ((hedge edge).mp hhas)).1
  · have hne : other ≠ index := by
      rintro rfl
      rw [hgone] at hother
      cases hother
    rw [defsOf, hnode _ hne]
    exact hloses.defs other

theorem addNode {name : String}
    {index : NodeIndex}
    (hadd : g.addNode name opType inputArgs outputArgs = .ok (g', index)) :
    g'.Intact := by
  have hnode := node_of_append (addNode_eq_ok hadd).2
  have hnone : g.node g.nodes.length = none := by
    rw [Graph.node, getElem?_eq_none (Nat.le_refl _)]
    rfl
  have houtput : ∀ other, g'.outputEdgesOf other = g.outputEdgesOf other := by
    intro other
    rw [outputEdgesOf, outputEdgesOf, hnode]
    split
    · rename_i heq
      rw [heq, hnone]
      rfl
    · rfl
  have hinput : ∀ other, g'.inputEdgesOf other = g.inputEdgesOf other := by
    intro other
    rw [inputEdgesOf, inputEdgesOf, hnode]
    split
    · rename_i heq
      rw [heq, hnone]
      rfl
    · rfl
  refine h.of_fewer (fun edge => ?_) (fun edge hedge => ?_)
    fun other hother _ => ?_
  · rw [houtput, hinput]
    exact h.mirrored edge
  · rw [HasEdge, houtput] at hedge
    exact hedge
  · rw [defsOf, hnode, if_neg, defsOf]
    rintro rfl
    rw [hnone] at hother
    cases hother

end Intact

end Invariant

end Graph

end OnnxRuntime
