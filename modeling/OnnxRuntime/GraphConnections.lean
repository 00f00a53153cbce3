/-
The edges that `Resolve` builds: exactly one for each input that names the
output of a node, recorded at both ends.
-/
import OnnxRuntime.Graph

namespace OnnxRuntime

open List Option

namespace Graph

variable {g g' start : Graph}

/-- The names of the inputs and outputs of a node. -/
def skeleton (g : Graph) (index : NodeIndex) :
    Option (List String × List String) :=
  (g.node index).map fun node =>
    (node.inputDefs.map (·.name), node.outputDefs.map (·.name))

def outputEdgesOf (g : Graph) (index : NodeIndex) : EdgeSet :=
  ((g.node index).map (·.outputEdges)).getD []

def inputEdgesOf (g : Graph) (index : NodeIndex) : EdgeSet :=
  ((g.node index).map (·.inputEdges)).getD []

/-- An edge from an output slot to an input slot, with both of its ends. -/
structure DataEdge where
  source : NodeIndex
  srcArgIndex : Int
  target : NodeIndex
  dstArgIndex : Int

namespace DataEdge

/-- The edge as its source records it. -/
def targetEnd (edge : DataEdge) : EdgeEnd :=
  ⟨edge.target, edge.srcArgIndex, edge.dstArgIndex⟩

/-- The edge as its target records it. -/
def sourceEnd (edge : DataEdge) : EdgeEnd :=
  ⟨edge.source, edge.srcArgIndex, edge.dstArgIndex⟩

theorem eq_iff_targetEnd {edge other : DataEdge} : edge = other ↔
      edge.source = other.source ∧ edge.targetEnd = other.targetEnd := by
  cases edge
  cases other
  simp only [targetEnd, mk.injEq]
  grind

theorem eq_iff_sourceEnd {edge other : DataEdge} : edge = other ↔
      edge.target = other.target ∧ edge.sourceEnd = other.sourceEnd := by
  cases edge
  cases other
  simp only [sourceEnd, mk.injEq]
  grind

end DataEdge

def HasEdge (g : Graph) (edge : DataEdge) : Prop :=
  edge.targetEnd ∈ g.outputEdgesOf edge.source

/-- The table has exactly the outputs that exist. -/
def Producers (g : Graph) (table : List (String × NodeIndex × Int)) : Prop :=
  ∀ name index slot, table.lookup name = some (index, slot) ↔
    name ≠ "" ∧ ∃ names, g.skeleton index = some names ∧
      atSlot names.2 slot = some name

section Edges

theorem node_modifyNode (index other : NodeIndex) (f : GraphNode → GraphNode) :
    (g.modifyNode index f).node other =
      if index = other then (g.node other).map f else g.node other := by
  rw [node, modifyNode, node]
  rw [getElem?_modify]
  split
  · cases g.nodes[other]? <;> rfl
  · cases g.nodes[other]? <;> rfl

variable {α β : Type} {k : Nat} {arg : GraphArg} {edge : DataEdge}
  {index other : NodeIndex} {f : GraphNode → GraphNode} {e : EdgeEnd}

theorem atSlot_map (f : α → β) (defs : List α) (slot : Int) :
    atSlot (defs.map f) slot = (atSlot defs slot).map f := by
  cases slot with
  | ofNat k => exact getElem?_map
  | negSucc k => rfl

/-- Replacing an explicit input by one of the same name. -/
theorem setInputAt_names {node : GraphNode}
    (h : (node.inputDefs.map (·.name))[k]? = some arg.name) :
    (node.setInputAt k arg).inputDefs.map (·.name) =
      node.inputDefs.map (·.name) := by
  obtain ⟨hk, hname⟩ := List.getElem?_eq_some_iff.mp h
  rw [length_map] at hk
  rw [GraphNode.setInputAt, Int.toNat_natCast, if_pos hk]
  rw [map_set, ← hname, set_getElem_self]

theorem setInputAt_rest (node : GraphNode) (slot : Int) (arg : GraphArg) :
    (node.setInputAt slot arg).outputDefs = node.outputDefs ∧
      (node.setInputAt slot arg).outputEdges = node.outputEdges ∧
      (node.setInputAt slot arg).inputEdges = node.inputEdges := by
  rw [GraphNode.setInputAt]
  split <;> exact ⟨rfl, rfl, rfl⟩

/-- The graph after `AddEdge`, where `arg` is the output of the source. -/
def linked (g : Graph) (edge : DataEdge) (arg : GraphArg) : Graph :=
  ((g.modifyNode edge.target (·.setInputAt edge.dstArgIndex arg)).modifyNode
    edge.source (·.insertOutputEdge edge.targetEnd)).modifyNode
    edge.target (·.insertInputEdge edge.sourceEnd)

theorem addEdge_eq_ok
    (h : g.addEdge edge.source edge.target edge.srcArgIndex edge.dstArgIndex =
      .ok g') :
    ∃ source target output input, g.node edge.source = some source ∧
      g.node edge.target = some target ∧
      atSlot source.outputDefs edge.srcArgIndex = some output ∧
      target.inputAt edge.dstArgIndex = some input ∧
      g' = g.linked edge output := by
  revert h
  fun_cases addEdge g edge.source edge.target edge.srcArgIndex
    edge.dstArgIndex <;> intro h <;> cases h
  rename_i source target htarget hsource output houtput input hinput _
  exact ⟨source, target, output, input, hsource, htarget, houtput, hinput, rfl⟩

/-- A change that keeps what is read of a node. -/
theorem map_node_modifyNode {read : GraphNode → α}
    (hkeep : ∀ node, g.node index = some node → read (f node) = read node)
    (other : NodeIndex) :
    ((g.modifyNode index f).node other).map read = (g.node other).map read := by
  rw [node_modifyNode]
  split
  · rename_i heq
    cases hnode : g.node other with
    | none => rfl
    | some node => exact congrArg some (hkeep node (heq ▸ hnode))
  · rfl

theorem outputEdgesOf_modifyNode
    (hkeep : ∀ node, (f node).outputEdges = node.outputEdges)
    (other : NodeIndex) :
    (g.modifyNode index f).outputEdgesOf other = g.outputEdgesOf other := by
  rw [outputEdgesOf, map_node_modifyNode (fun node _ => hkeep node),
    outputEdgesOf]

theorem inputEdgesOf_modifyNode
    (hkeep : ∀ node, (f node).inputEdges = node.inputEdges) (other : NodeIndex) :
    (g.modifyNode index f).inputEdgesOf other = g.inputEdgesOf other := by
  rw [inputEdgesOf, map_node_modifyNode (fun node _ => hkeep node),
    inputEdgesOf]

theorem mem_outputEdgesOf_insert {edge : EdgeEnd}
    (hlive : (g.node index).isSome) :
    e ∈ (g.modifyNode index (·.insertOutputEdge edge)).outputEdgesOf other ↔
      (other = index ∧ e = edge) ∨ e ∈ g.outputEdgesOf other := by
  obtain ⟨node, hnode⟩ := isSome_iff_exists.mp hlive
  rw [outputEdgesOf, outputEdgesOf, node_modifyNode]
  by_cases hother : other = index
  · subst hother
    simp [hnode, GraphNode.insertOutputEdge]
  · simp [hother, Ne.symm hother]

theorem mem_inputEdgesOf_insert {edge : EdgeEnd}
    (hlive : (g.node index).isSome) :
    e ∈ (g.modifyNode index (·.insertInputEdge edge)).inputEdgesOf other ↔
      (other = index ∧ e = edge) ∨ e ∈ g.inputEdgesOf other := by
  obtain ⟨node, hnode⟩ := isSome_iff_exists.mp hlive
  rw [inputEdgesOf, inputEdgesOf, node_modifyNode]
  by_cases hother : other = index
  · subst hother
    simp [hnode, GraphNode.insertInputEdge]
  · simp [hother, Ne.symm hother]

theorem isSome_modifyNode :
    ((g.modifyNode index f).node other).isSome = (g.node other).isSome := by
  rw [node_modifyNode]
  split <;> simp

theorem mem_outputEdgesOf_linked (hsource : (g.node edge.source).isSome) :
    e ∈ (g.linked edge arg).outputEdgesOf other ↔
      (other = edge.source ∧ e = edge.targetEnd) ∨ e ∈ g.outputEdgesOf other := by
  rw [linked, outputEdgesOf_modifyNode,
    mem_outputEdgesOf_insert (by rwa [isSome_modifyNode]),
    outputEdgesOf_modifyNode fun node => (setInputAt_rest node _ _).2.1]
  exact fun _ => rfl

theorem mem_inputEdgesOf_linked (htarget : (g.node edge.target).isSome) :
    e ∈ (g.linked edge arg).inputEdgesOf other ↔
      (other = edge.target ∧ e = edge.sourceEnd) ∨ e ∈ g.inputEdgesOf other := by
  rw [linked, mem_inputEdgesOf_insert
      (by rwa [isSome_modifyNode, isSome_modifyNode]),
    inputEdgesOf_modifyNode,
    inputEdgesOf_modifyNode fun node => (setInputAt_rest node _ _).2.2]
  exact fun _ => rfl

theorem node_releaseNode (index other : NodeIndex) :
    (g.releaseNode index).1.node other =
      if index = other then none else g.node other := by
  rw [releaseNode]
  split
  · rename_i hout
    split
    · rename_i heq
      rw [← heq, node, getElem?_eq_none hout]
      rfl
    · rfl
  · split
    · rw [node, node]
      grind
    · rename_i hnone
      split
      · rename_i heq
        rw [← heq]
        exact not_isSome_iff_eq_none.mp hnone
      · rfl

theorem releaseNode_keeps {proj : Graph → β}
    (h : ∀ (g : Graph) nodes numOfNodes graphResolveNeeded, proj { g with
      nodes := nodes
      numOfNodes := numOfNodes
      graphResolveNeeded := graphResolveNeeded } = proj g) (g : Graph)
    (index : NodeIndex) :
    proj (g.releaseNode index).1 = proj g := by
  rw [releaseNode]
  split
  · rfl
  · split
    · exact h g _ _ _
    · rfl

theorem length_releaseNode (index : NodeIndex) :
    (g.releaseNode index).1.nodes.length = g.nodes.length := by
  rw [releaseNode]
  split
  · rfl
  · split
    · exact length_set
    · rfl

theorem context_releaseNode (index : NodeIndex) :
    (g.releaseNode index).1.resolveContext = g.resolveContext :=
  releaseNode_keeps (fun _ _ _ _ => rfl) g index

/-- The names stay if the input already has the name of the output. -/
theorem skeleton_linked (hslot : edge.dstArgIndex = k)
    (hname : ∀ names, g.skeleton edge.target = some names →
      names.1[k]? = some arg.name) (other : NodeIndex) :
    (g.linked edge arg).skeleton other = g.skeleton other := by
  rw [skeleton, linked, map_node_modifyNode, map_node_modifyNode,
    map_node_modifyNode]
  · rfl
  · intro node hnode
    rw [hslot, setInputAt_names, (setInputAt_rest node k arg).1]
    exact hname _ (by rw [skeleton, hnode]; rfl)
  · exact fun _ _ => rfl
  · exact fun _ _ => rfl

end Edges

section Producers

variable {index : NodeIndex} {ctx ctx' : ResolveContext}

theorem mem_liveNodes {node : GraphNode} :
    (index, node) ∈ g.liveNodes ↔ g.node index = some node := by
  rw [liveNodes, mem_filterMap]
  constructor
  · rintro ⟨i, -, hi⟩
    obtain ⟨other, hother, heq⟩ := map_eq_some_iff.mp hi
    cases heq
    exact hother
  · intro hnode
    exact ⟨index, mem_range.mpr (lt_length_of_node hnode), by rw [hnode]; rfl⟩

/-- What an output that exists enters in the table. -/
def Declares (index : NodeIndex) (output : GraphArg × Nat)
    (entry : String × NodeIndex × Int) : Prop :=
  output.1.Exists ∧ entry = (output.1.name, index, (output.2 : Int))

theorem addOutputArg_spec {output : GraphArg × Nat}
    (hnodup : (ctx.outputArgs.map Prod.fst).Nodup)
    (h : addOutputArg index ctx output = .ok ctx') :
    (ctx'.outputArgs.map Prod.fst).Nodup ∧ ∀ entry, entry ∈ ctx'.outputArgs ↔
        entry ∈ ctx.outputArgs ∨ Declares index output entry := by
  rw [addOutputArg] at h
  split at h
  · rename_i hmissing
    cases h
    simp [hnodup, Declares, hmissing]
  · split at h
    · cases h
    · rename_i hexists hfresh
      cases h
      rw [not_or] at hfresh
      constructor
      · exact nodup_cons.mpr ⟨hfresh.2, hnodup⟩
      · intro entry
        rw [Declares, or_comm]
        simp [not_not.mp hexists]

theorem verifyNodeNames_spec {node : NodeIndex × GraphNode}
    (hnodup : (ctx.outputArgs.map Prod.fst).Nodup)
    (h : verifyNodeNames ctx node = .ok ctx') :
    (ctx'.outputArgs.map Prod.fst).Nodup ∧ ∀ entry,
      entry ∈ ctx'.outputArgs ↔ entry ∈ ctx.outputArgs ∨
        ∃ output ∈ node.2.outputDefs.zipIdx, Declares node.1 output entry := by
  rw [verifyNodeNames] at h
  split at h
  · cases h
  · have hcollects := foldlM_collects
      (fun ctx : ResolveContext => (ctx.outputArgs.map Prod.fst).Nodup)
      (fun ctx entry => entry ∈ ctx.outputArgs)
      (fun _ _ _ _ hinv hstep => addOutputArg_spec hinv hstep) ?_ h
    · exact hcollects
    · exact hnodup

variable (h : g.verifyNoDuplicateName = .ok ctx)
include h

theorem verifyNoDuplicateName_spec :
    (ctx.outputArgs.map Prod.fst).Nodup ∧ ∀ entry,
      entry ∈ ctx.outputArgs ↔ entry ∈ [] ∨ ∃ node ∈ g.liveNodes,
        ∃ output ∈ node.2.outputDefs.zipIdx, Declares node.1 output entry := by
  exact foldlM_collects
    (fun ctx : ResolveContext => (ctx.outputArgs.map Prod.fst).Nodup)
    (fun ctx entry => entry ∈ ctx.outputArgs)
    (fun _ _ _ _ hinv hstep => verifyNodeNames_spec hinv hstep)
    (by exact nodup_nil) h

theorem producers_of_verifyNoDuplicateName : g.Producers ctx.outputArgs := by
  obtain ⟨hnodup, hmem⟩ := verifyNoDuplicateName_spec h
  intro name index slot
  rw [lookup_eq_some_iff_mem hnodup, hmem]
  constructor
  · rintro (hnil | ⟨⟨i, node⟩, hnode, ⟨arg, k⟩, harg, hexists, heq⟩)
    · cases hnil
    · cases heq
      refine ⟨hexists, _, by rw [skeleton, mem_liveNodes.mp hnode]; rfl, ?_⟩
      rw [atSlot_map]
      exact congrArg _ (mem_zipIdx_iff_getElem?.mp harg)
  · rintro ⟨hname, names, hnames, hslot⟩
    obtain ⟨node, hnode, rfl⟩ := map_eq_some_iff.mp hnames
    rw [atSlot_map] at hslot
    obtain ⟨arg, harg, rfl⟩ := map_eq_some_iff.mp hslot
    cases slot with
    | negSucc k => cases harg
    | ofNat k =>
      exact .inr ⟨(index, node), mem_liveNodes.mpr hnode, (arg, k),
        mem_zipIdx_iff_getElem?.mpr harg, hname, rfl⟩

end Producers

section Connections

/-- The graph while its edges are built, starting from `start`: only nodes
without inputs and outputs are removed, both ends agree, and edges join nodes
that have a slot for them. -/
structure Connected (start g : Graph) : Prop where
  context : g.resolveContext = start.resolveContext
  kept : ∀ index, g.skeleton index = start.skeleton index ∨
    (start.skeleton index = some ([], []) ∧ g.skeleton index = none)
  mirrored : ∀ edge : DataEdge, g.HasEdge edge ↔
    edge.sourceEnd ∈ g.inputEdgesOf edge.target
  slots : ∀ edge : DataEdge, g.HasEdge edge →
    (∃ names, start.skeleton edge.source = some names ∧ names.2 ≠ []) ∧
      ∃ names, start.skeleton edge.target = some names ∧ names.1 ≠ []

/-- An input of `index` names the output at the source of the edge. -/
def Feeds (start : Graph) (index : NodeIndex) (edge : DataEdge) : Prop :=
  edge.target = index ∧ ∃ names name, start.skeleton index = some names ∧
    atSlot names.1 edge.dstArgIndex = some name ∧ name ≠ "" ∧
    start.resolveContext.outputArgs.lookup name =
      some (edge.source, edge.srcArgIndex)

namespace Connected

variable {index : NodeIndex} {names : List String × List String}
  {edge : DataEdge} {consumed : List String} {state : Graph × List String}

/-- The edges into a node, input by input. -/
theorem feeds_iff {node : GraphNode}
    (hskeleton : some (node.inputDefs.map (·.name),
      node.outputDefs.map (·.name)) = start.skeleton index) :
    start.Feeds index edge ↔ ∃ input ∈ node.inputDefs.zipIdx,
      edge.target = index ∧ edge.dstArgIndex = input.2 ∧ input.1.Exists ∧
        start.resolveContext.outputArgs.lookup input.1.name =
          some (edge.source, edge.srcArgIndex) := by
  rw [Feeds, ← hskeleton]
  constructor
  · rintro ⟨htarget, names, name, hnames, hname, hexists, hlookup⟩
    cases hnames
    rw [atSlot_map] at hname
    obtain ⟨arg, harg, rfl⟩ := map_eq_some_iff.mp hname
    cases hslot : edge.dstArgIndex with
    | negSucc k =>
      rw [hslot] at harg
      cases harg
    | ofNat k =>
      rw [hslot] at harg
      exact ⟨(arg, k), mem_zipIdx_iff_getElem?.mpr harg, htarget, rfl,
        hexists, hlookup⟩
  · rintro ⟨⟨arg, k⟩, harg, htarget, hdst, hexists, hlookup⟩
    refine ⟨htarget, _, arg.name, rfl, ?_, hexists, hlookup⟩
    rw [hdst, atSlot_map]
    exact congrArg _ (mem_zipIdx_iff_getElem?.mp harg)

variable (h : Connected start g)
include h

theorem skeleton_of_node (hlive : (g.node index).isSome) :
    g.skeleton index = start.skeleton index := by
  rcases h.kept index with hkept | ⟨-, hnone⟩
  · exact hkept
  · rw [map_eq_none_iff.mp hnone] at hlive
    cases hlive

theorem skeleton_eq_some_iff (hslots : names ≠ ([], [])) :
    g.skeleton index = some names ↔ start.skeleton index = some names := by
  rcases h.kept index with hkept | ⟨hempty, hnone⟩
  · rw [hkept]
  · rw [hempty, hnone]
    simp [hslots.symm]

section

variable (hskeleton : start.skeleton index = some ([], []))
include hskeleton

/-- No edge touches a node without slots. -/
theorem ends_ne (hedge : g.HasEdge edge) :
    edge.source ≠ index ∧ edge.target ≠ index := by
  obtain ⟨⟨outputs, houtputs, houtput⟩, inputs, hinputs, hinput⟩ :=
    h.slots edge hedge
  constructor
  · rintro rfl
    rw [hskeleton] at houtputs
    cases houtputs
    exact houtput rfl
  · rintro rfl
    rw [hskeleton] at hinputs
    cases hinputs
    exact hinput rfl

theorem inputEdgesOf_eq_nil : g.inputEdgesOf index = [] := by
  refine eq_nil_iff_forall_not_mem.mpr fun e he => ?_
  have hedge : g.HasEdge ⟨e.node, e.srcArgIndex, index, e.dstArgIndex⟩ :=
    (h.mirrored _).mpr he
  exact (h.ends_ne hskeleton hedge).2 rfl

theorem releaseNode : Connected start (g.releaseNode index).1 ∧ ∀ edge,
      (g.releaseNode index).1.HasEdge edge ↔ g.HasEdge edge := by
  have hgone : (g.releaseNode index).1.node index = none := by
    rw [node_releaseNode, if_pos rfl]
  have hkept : ∀ other, other ≠ index →
      (g.releaseNode index).1.node other = g.node other := by
    intro other hother
    rw [node_releaseNode, if_neg hother.symm]
  have hedge : ∀ edge, (g.releaseNode index).1.HasEdge edge ↔
      g.HasEdge edge := by
    intro edge
    by_cases hsource : edge.source = index
    · refine iff_of_false ?_ fun hedge => (h.ends_ne hskeleton hedge).1 hsource
      rw [HasEdge, outputEdgesOf, hsource, hgone]
      exact not_mem_nil
    · rw [HasEdge, outputEdgesOf, hkept _ hsource]
      rfl
  refine ⟨⟨?_, ?_, ?_, ?_⟩, hedge⟩
  · rw [context_releaseNode, h.context]
  · intro other
    by_cases hother : other = index
    · subst hother
      exact .inr ⟨hskeleton, by rw [skeleton, hgone]; rfl⟩
    · rw [skeleton, hkept _ hother]
      exact h.kept other
  · intro edge
    rw [hedge, h.mirrored]
    by_cases htarget : edge.target = index
    · rw [htarget, h.inputEdgesOf_eq_nil hskeleton, inputEdgesOf, hgone]
      rfl
    · rw [inputEdgesOf, inputEdgesOf, hkept _ htarget]
  · intro edge hhas
    exact h.slots edge ((hedge edge).mp hhas)

/-- Removing a node that has no inputs and no outputs. -/
theorem removeNode {removed : Bool}
    (hremove : g.removeNode index = .ok (g', removed)) :
    Connected start g' ∧ ∀ edge, g'.HasEdge edge ↔ g.HasEdge edge := by
  have hinputs := h.inputEdgesOf_eq_nil hskeleton
  rw [Graph.removeNode] at hremove
  split at hremove
  · cases hremove
  · split at hremove
    · cases hremove
      exact ⟨h, fun _ => Iff.rfl⟩
    · rename_i node hnode
      rw [inputEdgesOf, hnode] at hinputs
      rw [show node.inputEdges = [] from hinputs] at hremove
      cases congrArg Prod.fst (Except.ok.inj hremove)
      exact h.releaseNode hskeleton

end

variable (hproducers : start.Producers start.resolveContext.outputArgs)
include hproducers

/-- Adding an edge from the producer of a name to an input of this name. -/
theorem addEdge (edge : DataEdge) {k : Nat} {name : String}
    (hslot : edge.dstArgIndex = k)
    (hnames : start.skeleton edge.target = some names)
    (hname : names.1[k]? = some name)
    (hlookup : start.resolveContext.outputArgs.lookup name =
      some (edge.source, edge.srcArgIndex))
    (hadd : g.addEdge edge.source edge.target edge.srcArgIndex
      edge.dstArgIndex = .ok g') :
    Connected start g' ∧ ∀ other, g'.HasEdge other ↔
      g.HasEdge other ∨ other = edge := by
  obtain ⟨source, target, output, input, hsource, htarget, houtput, -, rfl⟩ :=
    addEdge_eq_ok hadd
  obtain ⟨-, outputs, houtputs, hproduced⟩ := (hproducers _ _ _).mp hlookup
  have hsourceLive : (g.node edge.source).isSome := by rw [hsource]; rfl
  have htargetLive : (g.node edge.target).isSome := by rw [htarget]; rfl
  have harg : output.name = name := by
    have hskeleton := h.skeleton_of_node hsourceLive
    rw [houtputs, skeleton, hsource] at hskeleton
    cases hskeleton
    rw [atSlot_map, houtput] at hproduced
    exact some_inj.mp hproduced
  have hkeep : ∀ index, (g.linked edge output).skeleton index =
      g.skeleton index := by
    refine skeleton_linked hslot fun others hothers => ?_
    rw [h.skeleton_of_node htargetLive, hnames] at hothers
    cases hothers
    rw [harg]
    exact hname
  have hedge : ∀ other, (g.linked edge output).HasEdge other ↔
      g.HasEdge other ∨ other = edge := by
    intro other
    rw [HasEdge, mem_outputEdgesOf_linked hsourceLive,
      ← DataEdge.eq_iff_targetEnd, or_comm, HasEdge]
  refine ⟨⟨h.context, ?_, ?_, ?_⟩, hedge⟩
  · intro index
    rw [hkeep]
    exact h.kept index
  · intro other
    rw [hedge, mem_inputEdgesOf_linked htargetLive,
      ← DataEdge.eq_iff_sourceEnd, or_comm, h.mirrored]
  · intro other hother
    rcases (hedge other).mp hother with hold | rfl
    · exact h.slots other hold
    · refine ⟨⟨outputs, houtputs, ?_⟩, names, hnames, ?_⟩
      · rintro hnil
        rw [hnil] at hproduced
        cases hslot : other.srcArgIndex <;> rw [hslot] at hproduced <;>
          cases hproduced
      · rintro hnil
        rw [hnil] at hname
        cases hname

theorem connectInput (hnames : start.skeleton index = some names)
    {input : GraphArg × Nat}
    (hinput : names.1[input.2]? = some input.1.name)
    (hconnect : connectInput index (g, consumed) input = .ok state) :
    Connected start state.1 ∧ ∀ edge, state.1.HasEdge edge ↔
      g.HasEdge edge ∨ (edge.target = index ∧ edge.dstArgIndex = input.2 ∧
        input.1.Exists ∧ start.resolveContext.outputArgs.lookup input.1.name =
          some (edge.source, edge.srcArgIndex)) := by
  rw [Graph.connectInput] at hconnect
  split at hconnect
  · rename_i hmissing
    cases hconnect
    simp [h, hmissing]
  · rename_i hexists
    rw [not_not] at hexists
    rw [h.context] at hconnect
    split at hconnect
    · rename_i hlookup
      have hstate : state.1 = g := by
        split at hconnect <;> cases hconnect <;> rfl
      rw [hstate]
      simp [h, hlookup]
    · rename_i source slot hlookup
      obtain ⟨added, hadded, hreturn⟩ := except_bind_eq_ok.mp hconnect
      cases hreturn
      obtain ⟨hconnected, hedges⟩ := h.addEdge hproducers
        ⟨source, slot, index, input.2⟩ rfl hnames hinput hlookup hadded
      refine ⟨hconnected, fun edge => ?_⟩
      rw [hedges, hlookup]
      refine or_congr_right ⟨?_, ?_⟩
      · rintro rfl
        exact ⟨rfl, rfl, hexists, rfl⟩
      · rintro ⟨htarget, hdst, -, hsource⟩
        cases hsource
        cases edge
        cases htarget
        cases hdst
        rfl

theorem connectNode (hconnect : connectNode (g, consumed) index = .ok state) :
    Connected start state.1 ∧ ∀ edge, state.1.HasEdge edge ↔
      g.HasEdge edge ∨ start.Feeds index edge := by
  rw [Graph.connectNode] at hconnect
  split at hconnect
  · rename_i hnone
    cases hconnect
    refine ⟨h, fun edge => (or_iff_left ?_).symm⟩
    rintro ⟨-, names, name, hnames, hname, -⟩
    rcases h.kept index with hkept | ⟨hempty, -⟩
    · rw [hnames, skeleton, hnone] at hkept
      cases hkept
    · rw [hempty] at hnames
      cases hnames
      cases hslot : edge.dstArgIndex <;> rw [hslot] at hname <;> cases hname
  · rename_i node hnode
    have hskeleton : g.skeleton index = start.skeleton index :=
      h.skeleton_of_node (by rw [hnode]; rfl)
    rw [skeleton, hnode] at hskeleton
    split at hconnect
    · obtain ⟨hconnected, hedges⟩ := foldlM_collects
        (fun state : Graph × List String => Connected start state.1)
        (fun state edge => state.1.HasEdge edge)
        (fun state state' input hinput hstate hstep =>
          hstate.connectInput hproducers hskeleton.symm
            (by rw [getElem?_map, mem_zipIdx_iff_getElem?.mp hinput]
                rfl) hstep) (by exact h) hconnect
      refine ⟨hconnected, fun edge => ?_⟩
      rw [hedges, feeds_iff hskeleton]
    · rename_i hinputs
      have hnil : node.inputDefs = [] :=
        eq_nil_of_length_eq_zero (Nat.eq_zero_of_not_pos hinputs)
      have hfeeds : ∀ edge, ¬ start.Feeds index edge := by
        intro edge
        rw [feeds_iff hskeleton, hnil]
        rintro ⟨input, hinput, -⟩
        cases hinput
      split at hconnect
      · rename_i houtputs
        obtain ⟨⟨removed, result⟩, hremove, hreturn⟩ :=
          except_bind_eq_ok.mp hconnect
        cases hreturn
        have houtput : node.outputDefs = [] :=
          eq_nil_of_length_eq_zero (Nat.le_zero.mp houtputs)
        rw [map_some, hnil, houtput] at hskeleton
        obtain ⟨hconnected, hedges⟩ := h.removeNode hskeleton.symm hremove
        refine ⟨hconnected, fun edge => ?_⟩
        rw [hedges, or_iff_left (hfeeds edge)]
      · cases hconnect
        exact ⟨h, fun edge => (or_iff_left (hfeeds edge)).symm⟩

end Connected

/-- After the nodes were cleared nothing is connected. -/
theorem connected_of_no_edges (hout : ∀ index, start.outputEdgesOf index = [])
    (hin : ∀ index, start.inputEdgesOf index = []) :
    Connected start start where
  context := rfl
  kept _ := .inl rfl
  mirrored edge := by
    rw [HasEdge, hout, hin]
    exact iff_of_false not_mem_nil not_mem_nil
  slots edge hedge := by
    rw [HasEdge, hout] at hedge
    cases hedge

theorem buildConnections_spec {consumed : List String}
    (hproducers : start.Producers start.resolveContext.outputArgs)
    (hout : ∀ index, start.outputEdgesOf index = [])
    (hin : ∀ index, start.inputEdgesOf index = [])
    (h : start.buildConnections [] = .ok (g, consumed)) :
    Connected start g ∧ ∀ edge, g.HasEdge edge ↔
      start.Feeds edge.target edge := by
  obtain ⟨hconnected, hedges⟩ := foldlM_collects
    (fun state : Graph × List String => Connected start state.1)
    (fun state edge => state.1.HasEdge edge)
    (fun _ _ _ _ hstate hstep => hstate.connectNode hproducers hstep)
    (by exact connected_of_no_edges hout hin) h
  refine ⟨hconnected, fun edge => (hedges edge).trans ⟨?_, ?_⟩⟩
  · rintro (hold | ⟨index, -, hfeeds⟩)
    · rw [HasEdge, hout] at hold
      cases hold
    · rw [hfeeds.1]
      exact hfeeds
  · intro hfeeds
    obtain ⟨-, names, name, hnames, -⟩ := id hfeeds
    obtain ⟨node, hnode, -⟩ := map_eq_some_iff.mp hnames
    exact .inr ⟨edge.target, mem_range.mpr (lt_length_of_node hnode), hfeeds⟩

end Connections

section Resolve

/-- The data flow joins the slots: the input exists and has the name of the
output. -/
def Dataflow (g : Graph) (edge : DataEdge) : Prop :=
  ∃ source target output input, g.node edge.source = some source ∧
    g.node edge.target = some target ∧
    atSlot source.outputDefs edge.srcArgIndex = some output ∧
    atSlot target.inputDefs edge.dstArgIndex = some input ∧
    input.Exists ∧ input.name = output.name

/-- The edges of a graph are those of the data flow; both ends record an edge
and are live, and an input slot has at most one. -/
structure DataflowEdges (g : Graph) : Prop where
  edge_iff : ∀ edge : DataEdge, g.HasEdge edge ↔ g.Dataflow edge
  mirrored : ∀ edge : DataEdge, g.HasEdge edge ↔
    edge.sourceEnd ∈ g.inputEdgesOf edge.target
  live : ∀ edge : DataEdge, g.HasEdge edge →
    (g.node edge.source).isSome ∧ (g.node edge.target).isSome
  single : ∀ edge other : DataEdge, g.HasEdge edge → g.HasEdge other →
    edge.target = other.target → edge.dstArgIndex = other.dstArgIndex →
    edge = other

/-- The data flow read off the names. -/
theorem dataflow_iff {edge : DataEdge} : g.Dataflow edge ↔
    ∃ inputs outputs name, g.skeleton edge.target = some inputs ∧
      g.skeleton edge.source = some outputs ∧
      atSlot inputs.1 edge.dstArgIndex = some name ∧
      atSlot outputs.2 edge.srcArgIndex = some name ∧ name ≠ "" := by
  constructor
  · rintro ⟨source, target, output, input, hsource, htarget, houtput, hinput,
      hexists, hname⟩
    refine ⟨_, _, input.name, by rw [skeleton, htarget]; rfl,
      by rw [skeleton, hsource]; rfl, ?_, ?_, hexists⟩
    · rw [atSlot_map, hinput]
      rfl
    · rw [atSlot_map, houtput, hname]
      rfl
  · rintro ⟨inputs, outputs, name, hinputs, houtputs, hinput, houtput, hname⟩
    obtain ⟨target, htarget, rfl⟩ := map_eq_some_iff.mp hinputs
    obtain ⟨source, hsource, rfl⟩ := map_eq_some_iff.mp houtputs
    rw [atSlot_map] at hinput houtput
    obtain ⟨input, harg, rfl⟩ := map_eq_some_iff.mp hinput
    obtain ⟨output, hout, heq⟩ := map_eq_some_iff.mp houtput
    exact ⟨source, target, output, input, hsource, htarget, hout, harg, hname,
      heq.symm⟩

theorem Connected.dataflowEdges (h : Connected start g)
    (hproducers : start.Producers start.resolveContext.outputArgs)
    (hedges : ∀ edge, g.HasEdge edge ↔ start.Feeds edge.target edge) :
    DataflowEdges g := by
  have hne : ∀ {inputs outputs : List String} {slot : Int} {name : String},
      atSlot inputs slot = some name ∨ atSlot outputs slot = some name →
      (inputs, outputs) ≠ ([], []) := by
    rintro inputs outputs slot name hslot hnil
    cases hnil
    cases slot <;> simp [atSlot] at hslot
  have hedge_iff : ∀ edge : DataEdge, g.HasEdge edge ↔ g.Dataflow edge := by
    intro edge
    rw [hedges, dataflow_iff]
    constructor
    · rintro ⟨-, inputs, name, hinputs, hinput, -, hlookup⟩
      obtain ⟨hname, outputs, houtputs, houtput⟩ := (hproducers _ _ _).mp hlookup
      exact ⟨inputs, outputs, name,
        (h.skeleton_eq_some_iff (hne (.inl hinput))).mpr hinputs,
        (h.skeleton_eq_some_iff (hne (.inr houtput))).mpr houtputs, hinput,
        houtput, hname⟩
    · rintro ⟨inputs, outputs, name, hinputs, houtputs, hinput, houtput, hname⟩
      refine ⟨rfl, inputs, name,
        (h.skeleton_eq_some_iff (hne (.inl hinput))).mp hinputs, hinput, hname,
        (hproducers _ _ _).mpr ⟨hname, outputs,
          (h.skeleton_eq_some_iff (hne (.inr houtput))).mp houtputs, houtput⟩⟩
  refine ⟨hedge_iff, h.mirrored, ?_, ?_⟩
  · intro edge hedge
    obtain ⟨source, target, -, -, hsource, htarget, -⟩ := (hedge_iff edge).mp hedge
    exact ⟨isSome_of_eq_some hsource, isSome_of_eq_some htarget⟩
  · intro edge other hedge hother htarget hslot
    obtain ⟨-, names, name, hnames, hname, -, hlookup⟩ := (hedges edge).mp hedge
    obtain ⟨-, names', name', hnames', hname', -, hlookup'⟩ :=
      (hedges other).mp hother
    rw [htarget, hnames'] at hnames
    cases hnames
    rw [hslot, hname'] at hname
    cases hname
    rw [hlookup'] at hlookup
    cases edge
    cases other
    cases htarget
    cases hslot
    cases hlookup
    rfl

/-- Everything before `BuildConnections`: the nodes are cleared and the table
of producers is filled. -/
theorem initInputsInitializersOutputs_spec
    (h : g.initInputsInitializersOutputs = .ok start) :
    start.nodes = g.clearNodes.nodes ∧
      start.Producers start.resolveContext.outputArgs := by
  obtain ⟨inputsOutputs, -, h⟩ := except_bind_eq_ok.mp h
  obtain ⟨names, -, h⟩ := except_bind_eq_ok.mp h
  obtain ⟨ctx, hctx, h⟩ := except_bind_eq_ok.mp h
  cases h
  have hproducers := producers_of_verifyNoDuplicateName hctx
  exact ⟨rfl, hproducers⟩

theorem node_congr (h : g.nodes = g'.nodes) (index : NodeIndex) :
    g.node index = g'.node index := by
  rw [node, node, h]

theorem node_clearNodes (index : NodeIndex) :
    g.clearNodes.node index =
      (g.node index).map GraphNode.clearRelationships := by
  rw [node, node, clearNodes]
  rw [getElem?_map]
  cases g.nodes[index]? <;> rfl

theorem outputEdgesOf_clearNodes (index : NodeIndex) :
    g.clearNodes.outputEdgesOf index = [] := by
  rw [outputEdgesOf, node_clearNodes]
  cases g.node index <;> rfl

theorem inputEdgesOf_clearNodes (index : NodeIndex) :
    g.clearNodes.inputEdgesOf index = [] := by
  rw [inputEdgesOf, node_clearNodes]
  cases g.node index <;> rfl

theorem DataflowEdges.congr (h : DataflowEdges g) (hnodes : g.nodes = g'.nodes) :
    DataflowEdges g' := by
  cases g
  cases g'
  cases hnodes
  exact ⟨h.edge_iff, h.mirrored, h.live, h.single⟩

variable {subgraphUses : List (NodeIndex × List String)}
  {inferTypes : Graph → Except Failure (Nat → Option TypeProto)}

section

variable (hneeded : g.graphResolveNeeded)
include hneeded

/-- The steps after `BuildConnections` set the order, the types and the
initializers. -/
theorem resolveWith_eq_built
    (h : g.resolveWith subgraphUses inferTypes = .ok g') :
    ∃ start built consumed, g.initInputsInitializersOutputs = .ok start ∧
      start.buildConnections subgraphUses = .ok (built, consumed) ∧
      ∃ order types tensors, g' = { built with
        nodesInTopologicalOrder := order
        argType := types
        nameToInitialTensor := tensors
        graphResolveNeeded := false } := by
  rw [resolveWith, if_neg (not_not.mpr hneeded)] at h
  obtain ⟨start, hstart, h⟩ := except_bind_eq_ok.mp h
  obtain ⟨⟨built, consumed⟩, hbuilt, h⟩ := except_bind_eq_ok.mp h
  refine ⟨start, built, consumed, hstart, hbuilt, ?_⟩
  dsimp only at h
  split at h
  · cases h
  · obtain ⟨sorted, hsorted, h⟩ := except_bind_eq_ok.mp h
    obtain ⟨types, -, h⟩ := except_bind_eq_ok.mp h
    obtain ⟨cleaned, hcleaned, h⟩ := except_bind_eq_ok.mp h
    cases h
    obtain ⟨walk, -, hwalk⟩ := except_bind_eq_ok.mp hsorted
    obtain ⟨outputs, -, houtputs⟩ := except_bind_eq_ok.mp hcleaned
    cases houtputs
    split at hwalk
    · cases hwalk
      exact ⟨_, _, _, rfl⟩
    · cases hwalk

theorem resolveWith_eq_ok (h : g.resolveWith subgraphUses inferTypes = .ok g') :
    ∃ start built consumed, g.initInputsInitializersOutputs = .ok start ∧
      start.buildConnections subgraphUses = .ok (built, consumed) ∧
      built.nodes = g'.nodes := by
  obtain ⟨start, built, consumed, hstart, hbuilt, _, _, _, rfl⟩ :=
    resolveWith_eq_built hneeded h
  exact ⟨start, built, consumed, hstart, hbuilt, rfl⟩

theorem resolve_eq_ok (h : g.resolve inferTypes = .ok g') :
    ∃ start built consumed, g.initInputsInitializersOutputs = .ok start ∧
      start.buildConnections [] = .ok (built, consumed) ∧
      built.nodes = g'.nodes := by
  exact resolveWith_eq_ok hneeded h

end

/-- What holds while the connections are built. -/
theorem buildConnections_preserves {motive : Graph → Prop}
    {consumed : List String}
    (himplicit : ∀ (state state' : Graph × List String) index name,
      motive state.1 → connectImplicit index state name = .ok state' →
        motive state'.1)
    (hnode : ∀ (state state' : Graph × List String) index, motive state.1 →
      connectNode state index = .ok state' → motive state'.1) (hg : motive g)
    (h : g.buildConnections subgraphUses = .ok (g', consumed)) :
    motive g' := by
  obtain ⟨state, hstate, h⟩ := except_bind_eq_ok.mp h
  have hmid : motive state.1 := by
    refine foldlM_preserves (motive := fun mid : Graph × List String =>
      motive mid.1) (fun mid after uses _ hmid hstep => ?_) hg hstate
    exact foldlM_preserves (motive := fun mid : Graph × List String =>
      motive mid.1) (fun mid after name _ => himplicit mid after uses.1 name)
      hmid hstep
  exact foldlM_preserves (motive := fun mid : Graph × List String =>
    motive mid.1) (fun mid after index _ => hnode mid after index) hmid h

/-- Before `BuildConnections` there are no edges. -/
theorem edges_eq_nil (h : start.nodes = g.clearNodes.nodes)
    (index : NodeIndex) :
    start.outputEdgesOf index = [] ∧ start.inputEdgesOf index = [] := by
  constructor
  · rw [outputEdgesOf, node_congr h, ← outputEdgesOf, outputEdgesOf_clearNodes]
  · rw [inputEdgesOf, node_congr h, ← inputEdgesOf, inputEdgesOf_clearNodes]

theorem skeleton_congr (h : g.nodes = g'.nodes) (index : NodeIndex) :
    g.skeleton index = g'.skeleton index := by
  rw [skeleton, skeleton, node_congr h]

theorem skeleton_clearNodes (index : NodeIndex) :
    g.clearNodes.skeleton index = g.skeleton index := by
  rw [skeleton, node_clearNodes, Option.map_map]
  rfl

/-- `Resolve` drops nodes without inputs and outputs only, keeps the arguments
of all others, and joins them by the data flow. -/
theorem resolve_dataflowEdges
    {inferTypes : Graph → Except Failure (Nat → Option TypeProto)}
    (hneeded : g.graphResolveNeeded) (h : g.resolve inferTypes = .ok g') :
    (∀ index, g'.skeleton index = g.skeleton index ∨
      (g.skeleton index = some ([], []) ∧ g'.skeleton index = none)) ∧
    DataflowEdges g' := by
  obtain ⟨start, built, consumed, hstart, hbuilt, hnodes⟩ :=
    resolve_eq_ok hneeded h
  obtain ⟨hcleared, hproducers⟩ := initInputsInitializersOutputs_spec hstart
  obtain ⟨hconnected, hedges⟩ := buildConnections_spec hproducers
    (fun index => (edges_eq_nil hcleared index).1)
    (fun index => (edges_eq_nil hcleared index).2) hbuilt
  refine ⟨fun index => ?_,
    (hconnected.dataflowEdges hproducers hedges).congr hnodes⟩
  have hstart : start.skeleton index = g.skeleton index := by
    rw [skeleton_congr hcleared, skeleton_clearNodes]
  rw [← skeleton_congr hnodes, ← hstart]
  exact hconnected.kept index

/-- Edges to removed nodes are left over, the second node is of no use, and
the last one reads both outputs of the first. -/
def staleGraph : Graph where
  nodes := [ some {
      inputDefs := [⟨0, "x"⟩]
      outputDefs := [⟨1, "a"⟩, ⟨2, "b"⟩]
      outputEdges := [⟨2, 0, 0⟩, ⟨7, 1, 3⟩] },
    some { inputDefs := [], outputDefs := [] },
    none,
    some {
      inputDefs := [⟨2, "b"⟩, ⟨3, ""⟩, ⟨1, "a"⟩]
      outputDefs := [⟨4, "y"⟩]
      inputEdges := [⟨2, 0, 0⟩] }]
  numOfNodes := 3
  nodeArgs := [⟨0, "x"⟩, ⟨1, "a"⟩, ⟨2, "b"⟩, ⟨4, "y"⟩]

theorem dataflowEdges_staleGraph :
    ∃ g', staleGraph.resolve (fun g => .ok g.argType) = .ok g' ∧
      (∀ index, g'.skeleton index = staleGraph.skeleton index ∨
        (staleGraph.skeleton index = some ([], []) ∧
          g'.skeleton index = none)) ∧
      DataflowEdges g' :=
  have h : (staleGraph.resolve fun g => .ok g.argType).isOk = true := by
    decide +kernel
  ⟨_, eq_ok_okValue _ h, resolve_dataflowEdges rfl (eq_ok_okValue _ h)⟩

end Resolve

end Graph

end OnnxRuntime
