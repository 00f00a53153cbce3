/-
What the calls that change a graph leave of its nodes: a node keeps its index,
its name and its arguments until it is removed.
-/
import OnnxRuntime.GraphMutation

namespace OnnxRuntime

open List Option

variable {node : GraphNode}

/-- What makes a node the node it is. -/
structure NodeIdentity where
  name : String
  opType : String
  inputs : List String
  outputs : List String
deriving Repr, DecidableEq

def GraphNode.identity (node : GraphNode) : NodeIdentity where
  name := node.name
  opType := node.opType
  inputs := node.inputDefs.map (·.name)
  outputs := node.outputDefs.map (·.name)

namespace Graph

variable {g g' start : Graph}

def identity (g : Graph) (index : NodeIndex) : Option NodeIdentity :=
  (g.node index).map GraphNode.identity

theorem identity_eq_none_iff {index : NodeIndex} :
    g.identity index = none ↔ g.node index = none :=
  map_eq_none_iff

theorem identity_of_node {index : NodeIndex}
    (h : g.node index = some node) :
    g.identity index = some node.identity := by
  rw [identity, h]
  rfl

theorem identity_congr (h : g.nodes = g'.nodes) (index : NodeIndex) :
    g.identity index = g'.identity index := by
  rw [identity, identity, node_congr h]

section Calls

theorem length_modifyNode (index : NodeIndex) (f : GraphNode → GraphNode) :
    (g.modifyNode index f).nodes.length = g.nodes.length :=
  length_modify ..

variable {index : NodeIndex} {removed : Bool}

theorem identity_modifyNode {f : GraphNode → GraphNode}
    (hkeep : ∀ node, g.node index = some node →
      (f node).identity = node.identity) (other : NodeIndex) :
    (g.modifyNode index f).identity other = g.identity other :=
  map_node_modifyNode hkeep other

/-- The nodes are those of `start`, except for some that were removed. -/
structure Thinned (start g : Graph) : Prop where
  length_eq : g.nodes.length = start.nodes.length
  kept : ∀ index, g.identity index = start.identity index ∨
    g.identity index = none

theorem Thinned.refl (g : Graph) : Thinned g g := ⟨rfl, fun _ => .inl rfl⟩

theorem Thinned.trans {mid : Graph} (h : Thinned start mid)
    (h' : Thinned mid g) : Thinned start g where
  length_eq := h'.length_eq.trans h.length_eq
  kept index := by
    rcases h'.kept index with hkept | hnone
    · rw [hkept]
      exact h.kept index
    · exact .inr hnone

theorem Thinned.of_nodes (h : Thinned start g) (hnodes : g.nodes = g'.nodes) :
    Thinned start g' where
  length_eq := hnodes ▸ h.length_eq
  kept index := identity_congr hnodes index ▸ h.kept index

theorem Thinned.identity_of_node (h : Thinned start g)
    (hnode : g.node index = some node) :
    start.identity index = some node.identity := by
  rcases h.kept index with hkept | hnone
  · rw [← hkept, Graph.identity_of_node hnode]
  · rw [identity_eq_none_iff, hnode] at hnone
    cases hnone

theorem removeEdge_identities {source target : NodeIndex}
    {srcArgSlot dstArgSlot : Int}
    (h : g.removeEdge source target srcArgSlot dstArgSlot = .ok g') :
    g'.nodes.length = g.nodes.length ∧
      ∀ index, g'.identity index = g.identity index := by
  obtain ⟨-, rfl⟩ :=
    (removeEdge_eq_ok_iff ⟨source, srcArgSlot, target, dstArgSlot⟩).mp h
  constructor
  · rw [unlinked, length_modifyNode, length_modifyNode]
  · intro index
    rw [unlinked, identity_modifyNode, identity_modifyNode]
    · exact fun _ _ => rfl
    · exact fun _ _ => rfl

theorem removeEdges_identities {edges : EdgeSet} {remove : Graph → EdgeEnd →
      Except Failure Graph}
    (hremove : ∀ g g' edge, remove g edge = .ok g' →
      g'.nodes.length = g.nodes.length ∧
        ∀ index, g'.identity index = g.identity index)
    (h : edges.foldlM remove g = .ok g') :
    g'.nodes.length = g.nodes.length ∧
      ∀ index, g'.identity index = g.identity index := by
  refine foldlM_preserves (motive := fun mid : Graph =>
    mid.nodes.length = g.nodes.length ∧
      ∀ index, mid.identity index = g.identity index)
    (fun mid after edge _ hmid hstep => ?_) ⟨rfl, fun _ => rfl⟩ h
  obtain ⟨hlength, hidentity⟩ := hremove mid after edge hstep
  exact ⟨hlength.trans hmid.1, fun index => (hidentity index).trans (hmid.2 index)⟩

theorem identity_releaseNode (index other : NodeIndex) :
    (g.releaseNode index).1.identity other =
      if index = other then none else g.identity other := by
  rw [identity, node_releaseNode]
  split <;> rfl

/-- The other nodes stay when a node is removed. -/
theorem removeNode_identities (h : g.removeNode index = .ok (g', removed)) :
    g'.nodes.length = g.nodes.length ∧ ∀ other, g'.identity other =
      if index = other then none else g.identity other := by
  rw [removeNode] at h
  split at h
  · cases h
  · split at h
    · rename_i hnone
      cases h
      refine ⟨rfl, fun other => ?_⟩
      split
      · rename_i heq
        rw [identity_eq_none_iff, ← heq, hnone]
      · rfl
    · obtain ⟨middle, hfold, h⟩ := except_bind_eq_ok.mp h
      obtain ⟨hlength, hidentity⟩ := removeEdges_identities
        (fun _ _ _ => removeEdge_identities) hfold
      obtain rfl : (middle.releaseNode index).1 = g' :=
        congrArg Prod.fst (except_pure_eq_ok.mp h)
      refine ⟨(length_releaseNode index).trans hlength, fun other => ?_⟩
      rw [identity_releaseNode, hidentity]

/-- What neither edges nor the list of nodes are part of. -/
theorem removeNode_keeps {β : Type} {proj : Graph → β}
    (hmodify : ∀ (g : Graph) index f, proj (g.modifyNode index f) = proj g)
    (hrelease : ∀ (g : Graph) index, proj (g.releaseNode index).1 = proj g)
    (h : g.removeNode index = .ok (g', removed)) : proj g' = proj g := by
  rw [removeNode] at h
  split at h
  · cases h
  · split at h
    · cases h
      rfl
    · obtain ⟨middle, hfold, h⟩ := except_bind_eq_ok.mp h
      obtain rfl : (middle.releaseNode index).1 = g' :=
        congrArg Prod.fst (except_pure_eq_ok.mp h)
      rw [hrelease]
      refine foldlM_preserves (motive := fun mid : Graph => proj mid = proj g)
        (fun mid after edge _ hmid hstep => ?_) rfl hfold
      obtain ⟨-, rfl⟩ := (removeEdge_eq_ok_iff (edgeInto index edge)).mp hstep
      rw [unlinked, hmodify, hmodify]
      exact hmid

theorem context_removeNode (h : g.removeNode index = .ok (g', removed)) :
    g'.resolveContext = g.resolveContext :=
  removeNode_keeps (fun _ _ _ => rfl) (fun _ _ => context_releaseNode _) h

theorem name_getOrCreateNodeArg (g : Graph) (name : String)
    (type : Option TypeProto) :
    (g.getOrCreateNodeArg name type).2.name = name := by
  rw [getOrCreateNodeArg]
  split
  · rename_i arg harg
    have hfound := find?_some harg
    exact of_decide_eq_true hfound
  · rfl

theorem names_createNodeArgs (g : Graph) (args : List GraphArg) :
    (g.createNodeArgs args).2.map (·.name) = args.map (·.name) := by
  induction args generalizing g with
  | nil => rfl
  | cons arg rest ih =>
    rw [map_cons, ← ih, createNodeArgs, map_cons, name_getOrCreateNodeArg]

/-- A new node gets the next index, and the others stay. -/
theorem addNode_identities {name opType : String}
    {inputArgs outputArgs : List GraphArg}
    (h : g.addNode name opType inputArgs outputArgs = .ok (g', index)) :
    index = g.nodes.length ∧ g'.nodes.length = g.nodes.length + 1 ∧
      ∀ other, g'.identity other =
        if other = index then some ⟨name, opType, inputArgs.map (·.name),
          outputArgs.map (·.name)⟩
        else g.identity other := by
  obtain ⟨rfl, hnew⟩ := addNode_eq_ok h
  refine ⟨rfl, by rw [hnew, length_append]; rfl, fun other => ?_⟩
  rw [identity, node_of_append hnew]
  split
  · rw [map_some, GraphNode.identity, names_createNodeArgs,
      names_createNodeArgs]
  · rfl

end Calls

section Resolve

/-- The graph while its edges are built. -/
structure Wiring (start g : Graph) : Prop where
  context : g.resolveContext = start.resolveContext
  thinned : Thinned start g

variable {edge : DataEdge} {k : Nat} {arg : GraphArg}

theorem identity_linked_input (hslot : edge.dstArgIndex = k)
    (hname : ∀ node, g.node edge.target = some node →
      (node.inputDefs.map (·.name))[k]? = some arg.name) (other : NodeIndex) :
    (g.linked edge arg).identity other = g.identity other := by
  rw [linked, identity_modifyNode, identity_modifyNode, identity_modifyNode]
  · intro node hnode
    have hnames := setInputAt_names (hname node hnode)
    rw [hslot, GraphNode.identity, hnames]
    rw [GraphNode.setInputAt]
    split <;> rfl
  · exact fun _ _ => rfl
  · exact fun _ _ => rfl

theorem identity_linked_implicit (hslot : edge.dstArgIndex = k)
    (hlength : ∀ node, g.node edge.target = some node →
      node.inputDefs.length ≤ k) (other : NodeIndex) :
    (g.linked edge arg).identity other = g.identity other := by
  rw [linked, identity_modifyNode, identity_modifyNode, identity_modifyNode]
  · intro node hnode
    rw [hslot, GraphNode.setInputAt, Int.toNat_natCast,
      if_neg (Nat.not_lt.mpr (hlength node hnode))]
    rfl
  · exact fun _ _ => rfl
  · exact fun _ _ => rfl

theorem length_linked (g : Graph) (edge : DataEdge) (arg : GraphArg) :
    (g.linked edge arg).nodes.length = g.nodes.length := by
  rw [linked, length_modifyNode, length_modifyNode, length_modifyNode]

namespace Wiring

theorem of_identities (h : Wiring start g)
    (hcontext : g'.resolveContext = g.resolveContext)
    (hlength : g'.nodes.length = g.nodes.length)
    (hidentity : ∀ index, g'.identity index = g.identity index) :
    Wiring start g' where
  context := hcontext.trans h.context
  thinned := h.thinned.trans ⟨hlength, fun index => .inl (hidentity index)⟩

variable {index : NodeIndex} {consumed consumed' : List String}

theorem connectImplicit (h : Wiring start g) {name : String}
    (hconnect : connectImplicit index (g, consumed) name =
      .ok (g', consumed')) : Wiring start g' := by
  obtain ⟨arg, -, hrest⟩ := except_bind_eq_ok.mp hconnect
  have hadd : ∀ other, (g.modifyNode index
      (addImplicitInput · arg)).identity other = g.identity other := by
    refine identity_modifyNode fun node _ => ?_
    rw [addImplicitInput]
    split <;> rfl
  have hmodified : Wiring start (g.modifyNode index (addImplicitInput · arg)) :=
    h.of_identities rfl (length_modifyNode _ _) hadd
  dsimp only at hrest
  split at hrest
  · rename_i source slot node hlookup hnode
    obtain ⟨after, hedge, hpure⟩ := except_bind_eq_ok.mp hrest
    cases hpure
    obtain ⟨-, -, output, -, -, -, -, -, rfl⟩ :=
      @addEdge_eq_ok _ _ ⟨source, slot, index, _⟩ hedge
    refine hmodified.of_identities rfl (length_linked _ _ _)
      (identity_linked_implicit (k := node.inputDefs.length +
        node.implicitInputDefs.idxOf arg) (by rfl) ?_)
    intro target htarget
    cases hnode.symm.trans htarget
    exact Nat.le_add_right _ _
  · cases hrest
    exact hmodified

theorem connectInput (h : Wiring start g)
    (hproducers : start.Producers start.resolveContext.outputArgs)
    {input : GraphArg × Nat}
    (hinput : ∀ identity, start.identity index = some identity →
      identity.inputs[input.2]? = some input.1.name)
    (hconnect : connectInput index (g, consumed) input =
      .ok (g', consumed')) : Wiring start g' := by
  rw [Graph.connectInput] at hconnect
  split at hconnect
  · cases hconnect
    exact h
  · split at hconnect
    · split at hconnect <;> cases hconnect <;> exact h
    · rename_i source slot hlookup
      obtain ⟨after, hedge, hpure⟩ := except_bind_eq_ok.mp hconnect
      cases hpure
      obtain ⟨producer, target, output, -, hproducer, -, houtput, -, rfl⟩ :=
        @addEdge_eq_ok _ _ ⟨source, slot, index, _⟩ hedge
      -- The table names the output that the producer has at this slot.
      have hname : output.name = input.1.name := by
        rw [h.context] at hlookup
        obtain ⟨-, names, hnames, hslot⟩ := (hproducers _ _ _).mp hlookup
        have hsame := h.thinned.identity_of_node hproducer
        obtain ⟨node, hnode, rfl⟩ := map_eq_some_iff.mp hnames
        rw [identity_of_node hnode] at hsame
        have houtputs : node.outputDefs.map (·.name) =
            producer.outputDefs.map (·.name) :=
          congrArg NodeIdentity.outputs (some.inj hsame)
        rw [houtputs, atSlot_map, houtput] at hslot
        exact some.inj hslot
      refine h.of_identities rfl (length_linked _ _ _)
        (identity_linked_input rfl fun node hnode => ?_)
      rw [hname]
      exact hinput _ (h.thinned.identity_of_node hnode)

theorem connectNode (h : Wiring start g)
    (hproducers : start.Producers start.resolveContext.outputArgs)
    (hconnect : connectNode (g, consumed) index = .ok (g', consumed')) :
    Wiring start g' := by
  rw [Graph.connectNode] at hconnect
  split at hconnect
  · cases hconnect
    exact h
  · rename_i node hnode
    split at hconnect
    · refine foldlM_preserves (motive := fun state : Graph × List String =>
        Wiring start state.1) (fun state after input hinput hstate hstep => ?_)
        h hconnect
      refine hstate.connectInput hproducers (fun identity hidentity => ?_) hstep
      cases (h.thinned.identity_of_node hnode).symm.trans hidentity
      rw [GraphNode.identity, getElem?_map, mem_zipIdx_iff_getElem?.mp hinput]
      rfl
    · split at hconnect
      · obtain ⟨⟨after, removed⟩, hremove, hpure⟩ :=
          except_bind_eq_ok.mp hconnect
        cases hpure
        obtain ⟨hlength, hidentity⟩ := removeNode_identities hremove
        refine ⟨?_, h.thinned.trans ⟨hlength, fun other => ?_⟩⟩
        · rw [← h.context]
          exact context_removeNode hremove
        · rw [hidentity]
          split
          · exact .inr rfl
          · exact .inl rfl
      · cases hconnect
        exact h

end Wiring

theorem identity_clearNodes (index : NodeIndex) :
    g.clearNodes.identity index = g.identity index := by
  rw [identity, node_clearNodes, Option.map_map]
  rfl

/-- `Resolve` removes nodes at most. -/
theorem resolveWith_thinned {subgraphUses : List (NodeIndex × List String)}
    {inferTypes : Graph → Except Failure (Nat → Option TypeProto)}
    (h : g.resolveWith subgraphUses inferTypes = .ok g') : Thinned g g' := by
  by_cases hneeded : g.graphResolveNeeded
  · obtain ⟨start, built, consumed, hstart, hbuilt, hnodes⟩ :=
      resolveWith_eq_ok hneeded h
    obtain ⟨hcleared, hproducers⟩ := initInputsInitializersOutputs_spec hstart
    have hthin : Thinned g start := by
      refine ⟨?_, fun index => .inl ?_⟩
      · rw [hcleared, clearNodes, length_map]
      · rw [identity_congr hcleared, identity_clearNodes]
    have hall : Wiring start built := buildConnections_preserves
      (fun _ _ _ _ hstate hstep => hstate.connectImplicit hstep)
      (fun _ _ _ hstate hstep => hstate.connectNode hproducers hstep)
      ⟨rfl, .refl start⟩ hbuilt
    exact (hthin.trans hall.thinned).of_nodes hnodes
  · rw [resolveWith, if_pos hneeded] at h
    cases h
    exact .refl g

end Resolve

end Graph

end OnnxRuntime
