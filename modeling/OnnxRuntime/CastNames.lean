/-
What cast insertion does to a resolved graph.  The names of the new values
come from a counter that starts at zero in every application, and the pass is
right exactly when these names are free.
-/
import OnnxRuntime.CastRuns
import OnnxRuntime.NodeIdentities

namespace OnnxRuntime

open Function List Option OnnxRuntime.Graph

namespace CastGraph

variable {s : CastGraph} {known : TypeProto → Bool}

section Force

/-- A node with a provider reads a float16 tensor. -/
def HasFloat16Input (s : CastGraph) (index : NodeIndex) : Prop :=
  s.executionProviderType index ≠ "" ∧ ∃ node ∈ s.graph.node index,
    ∃ input ∈ node.inputDefs, s.Float16 input

/-- A CPU node that reads float16 while no neighbour does. -/
def Lone (s : CastGraph) (index : NodeIndex) : Prop :=
  s.HasFloat16Input index ∧ s.executionProviderType index = cpuProviderType ∧
    ∀ edge ∈ s.graph.inputEdgesOf index ++ s.graph.outputEdgesOf index,
      ¬ s.HasFloat16Input edge.node

instance decidableHasFloat16Input (s : CastGraph) (index : NodeIndex) :
    Decidable (s.HasFloat16Input index) :=
  inferInstanceAs (Decidable (_ ∧ _))

instance decidableLone (s : CastGraph) (index : NodeIndex) :
    Decidable (s.Lone index) :=
  inferInstanceAs (Decidable (_ ∧ _))

/-- The graph on which casts are inserted. -/
def forced (s : CastGraph) (forceCpuFp32 : Bool) : CastGraph :=
  if forceCpuFp32 ∧ 1 < s.graph.numOfNodes then
    { s with executionProviderType := fun index =>
        if s.Lone index then "" else s.executionProviderType index }
  else s

/-- The sweep after the nodes of `done`. -/
structure Sweeping (s : CastGraph) (done : List NodeIndex) (t : CastGraph) :
    Prop where
  graph : t.graph = s.graph
  castTo : t.castTo = s.castTo
  provider : ∀ index, t.executionProviderType index =
    if index ∈ done ∧ s.Lone index then "" else s.executionProviderType index

namespace Sweeping

variable {done : List NodeIndex} {t : CastGraph}

theorem hasFloat16Input_iff (h : Sweeping s done t) (index : NodeIndex) :
    t.HasFloat16Input index ↔
      s.HasFloat16Input index ∧ ¬ (index ∈ done ∧ s.Lone index) := by
  simp only [HasFloat16Input, Float16, h.graph, h.provider]
  by_cases hlone : index ∈ done ∧ s.Lone index
  · simp [hlone]
  · simp [hlone]

variable {index : NodeIndex} {node : GraphNode}

theorem isInputFloat16_meets (h : Sweeping s done t)
    (hnode : s.graph.node index = some node) :
    Meets (¬ s.TypesKnown known)
      (fun hit : Bool => hit ↔ t.HasFloat16Input index)
      (t.isInputFloat16 known index node) := by
  have hany : Meets (¬ s.TypesKnown known)
      (fun hit : Bool => hit ↔ ∃ input ∈ node.inputDefs, t.Float16 input ∧
        t.executionProviderType index ≠ "")
      (t.isInputFloat16 known index node) := by
    apply anyM_meets
    intro input hinput
    apply (isFloat16_meets input).imp _ (fun _ => id) |>.bind
    · intro float16 hpost
      simp only [Meets, pure, Except.pure, decide_eq_true_eq, hpost.2]
    · intro hunknown htypes
      refine hunknown ?_
      rw [KnownType, h.graph]
      exact htypes index node hnode input (mem_append_left _ hinput)
  refine hany.imp id fun hit hhit => hhit.trans ?_
  rw [HasFloat16Input, h.graph, hnode]
  simp only [mem_some_iff, exists_eq_left']
  tauto

section

variable (h : Sweeping s done t) (hmirrored : s.graph.Mirrored)
include h hmirrored

/-- Whether a node is alone does not depend on the sweep: when an earlier
neighbour has lost its provider, this node did not read float16. -/
theorem exists_neighbour_iff (hfloat : s.HasFloat16Input index) :
    (∃ edge ∈ s.graph.inputEdgesOf index ++ s.graph.outputEdgesOf index,
      t.HasFloat16Input edge.node) ↔
    ∃ edge ∈ s.graph.inputEdgesOf index ++ s.graph.outputEdgesOf index,
      s.HasFloat16Input edge.node := by
  constructor
  · rintro ⟨edge, hedge, hhit⟩
    exact ⟨edge, hedge, ((h.hasFloat16Input_iff _).mp hhit).1⟩
  · rintro ⟨edge, hedge, hhit⟩
    refine ⟨edge, hedge, (h.hasFloat16Input_iff _).mpr ⟨hhit, ?_⟩⟩
    rintro ⟨-, hlone⟩
    -- The neighbour sees this node at the other end of the edge.
    rcases mem_append.mp hedge with hin | hout
    · have hback := (hmirrored ⟨edge.node, edge.srcArgIndex, index,
        edge.dstArgIndex⟩).mpr hin
      exact hlone.2.2 _ (mem_append_right _ hback) hfloat
    · have hback := (hmirrored ⟨index, edge.srcArgIndex, edge.node,
        edge.dstArgIndex⟩).mp hout
      exact hlone.2.2 _ (mem_append_left _ hback) hfloat

theorem isSingle_meets (hnew : index ∉ done)
    (hnode : s.graph.node index = some node) :
    Meets (¬ s.TypesKnown known) (fun hit : Bool => hit ↔ s.Lone index)
      (t.isSingleInputNodeFloat16Node known index node) := by
  have hprovider : t.executionProviderType index =
      s.executionProviderType index := by
    rw [h.provider, if_neg fun hand => hnew hand.1]
  have hfloat_iff : t.HasFloat16Input index ↔ s.HasFloat16Input index := by
    rw [h.hasFloat16Input_iff]
    tauto
  have hedges : node.inputEdges ++ node.outputEdges =
      s.graph.inputEdgesOf index ++ s.graph.outputEdgesOf index := by
    rw [inputEdgesOf, outputEdgesOf, hnode]
    rfl
  apply (h.isInputFloat16_meets hnode).bind
  intro float16 hfloat
  rw [hfloat_iff] at hfloat
  rw [hprovider]
  split
  · rename_i hcpu
    have hneighbours : Meets (¬ s.TypesKnown known)
        (fun hit : Bool => hit ↔ ∃ edge ∈ node.inputEdges ++ node.outputEdges,
          t.HasFloat16Input edge.node)
        ((node.inputEdges ++ node.outputEdges).anyM (t.isEndFloat16 known)) := by
      apply anyM_meets
      intro edge hedge
      rw [hedges] at hedge
      have hlive : (s.graph.node edge.node).isSome := by
        rcases mem_append.mp hedge with hin | hout
        · exact isSome_of_mem_outputEdgesOf ((hmirrored ⟨edge.node,
            edge.srcArgIndex, index, edge.dstArgIndex⟩).mpr hin)
        · exact isSome_of_mem_inputEdgesOf ((hmirrored ⟨index,
            edge.srcArgIndex, edge.node, edge.dstArgIndex⟩).mp hout)
      obtain ⟨other, hother⟩ := isSome_iff_exists.mp hlive
      rw [isEndFloat16, h.graph, hother]
      exact h.isInputFloat16_meets hother
    apply hneighbours.bind
    intro hit hhit
    rw [hedges, h.exists_neighbour_iff hmirrored (hfloat.mp hcpu.1)] at hhit
    have hlone : s.Lone index ↔ ¬ hit = true := by
      rw [hhit]
      simp only [not_exists, not_and]
      exact ⟨fun hlone => hlone.2.2, fun hnone => ⟨hfloat.mp hcpu.1, hcpu.2,
        hnone⟩⟩
    change (!hit) = true ↔ s.Lone index
    rw [hlone]
    simp
  · rename_i hcpu
    refine iff_of_false Bool.false_ne_true fun hlone => hcpu ?_
    exact ⟨hfloat.mpr hlone.1, hlone.2.1⟩

theorem forceNode_meets {entry : NodeIndex × GraphNode}
    (hentry : entry ∈ s.graph.liveNodes) (hnew : entry.1 ∉ done) :
    Meets (¬ s.TypesKnown known) (fun t' => Sweeping s (done ++ [entry.1]) t')
      (t.forceNode known entry) := by
  apply (h.isSingle_meets hmirrored hnew (mem_liveNodes.mp hentry)).bind
  intro single hsingle
  have hlast : ∀ index, (index ∈ done ++ [entry.1] ∧ s.Lone index) ↔
      (index ∈ done ∧ s.Lone index) ∨ index = entry.1 ∧ single = true := by
    intro index
    rw [hsingle, mem_append, mem_singleton]
    constructor
    · rintro ⟨hor | rfl, hlone⟩
      · exact .inl ⟨hor, hlone⟩
      · exact .inr ⟨rfl, hlone⟩
    · rintro (⟨hdone, hlone⟩ | ⟨rfl, hlone⟩)
      · exact ⟨.inl hdone, hlone⟩
      · exact ⟨.inr rfl, hlone⟩
  cases single with
  | true =>
    refine ⟨h.graph, h.castTo, fun index => ?_⟩
    simp only [hlast, if_true]
    by_cases heq : index = entry.1
    · rw [heq, update_self, if_pos (.inr ⟨rfl, trivial⟩)]
    · rw [update_of_ne heq, h.provider]
      simp [heq]
  | false =>
    refine ⟨h.graph, h.castTo, fun index => ?_⟩
    simp only [hlast]
    simpa using h.provider index

end

end Sweeping

variable {subgraphUses : List (NodeIndex × List String)}
  {inferTypes : Graph → Except Failure (Nat → Option TypeProto)}

theorem resolve_of_done (h : s.graph.graphResolveNeeded = false) :
    s.resolve subgraphUses inferTypes = .ok s := by
  rw [resolve, resolveWith, h]
  rfl

/-- The first steps of the pass take the providers of lone nodes. -/
theorem prepare_meets (hs : s.graph.Resolved) (forceCpuFp32 : Bool) :
    Meets (¬ s.TypesKnown known) (fun t => t = s.forced forceCpuFp32)
      (s.prepare known subgraphUses inferTypes forceCpuFp32) := by
  rw [prepare, resolve_of_done hs.done]
  cases forceCpuFp32 with
  | false => rfl
  | true =>
    change Meets _ _ (s.forceSingleNodeCPUFloat16ToFloat32 known subgraphUses
      inferTypes)
    rw [forceSingleNodeCPUFloat16ToFloat32, forced]
    by_cases hfew : s.graph.numOfNodes ≤ 1
    · rw [if_pos hfew, if_neg fun hand => Int.not_lt.mpr hfew hand.2]
      rfl
    · rw [if_neg hfew, if_pos ⟨rfl, Int.not_le.mp hfew⟩]
      have hsweep : Meets (¬ s.TypesKnown known)
          (fun t => Sweeping s (s.graph.liveNodes.map Prod.fst) t)
          (s.graph.liveNodes.foldlM (forceNode known) s) := by
        apply foldlM_meets (motive := fun done t =>
          Sweeping s (done.map Prod.fst) t)
        · intro done entry rest hsplit t h
          rw [map_append]
          apply h.forceNode_meets hs.mirrored
          · simp [hsplit]
          · have hnodup := nodup_liveIndices (g := s.graph)
            rw [liveIndices, hsplit, map_append, nodup_append] at hnodup
            intro hdone
            exact hnodup.2.2 _ hdone _ mem_cons_self rfl
        · exact ⟨rfl, rfl, by simp⟩
      apply hsweep.bind
      intro t h
      have hlive : ∀ index, s.Lone index →
          index ∈ s.graph.liveNodes.map Prod.fst := by
        rintro index ⟨⟨-, node, hnode, -⟩, -⟩
        exact mem_map.mpr ⟨(index, node), mem_liveNodes.mpr hnode, rfl⟩
      rw [resolve_of_done (by rw [h.graph]; exact hs.done)]
      obtain ⟨graph, providers, castTo⟩ := t
      obtain ⟨rfl, rfl, hproviders⟩ := h
      have heq : providers = fun index =>
          if s.Lone index then "" else s.executionProviderType index := by
        funext index
        refine (hproviders index).trans ?_
        by_cases hlone : s.Lone index
        · rw [if_pos ⟨hlive index hlone, hlone⟩, if_pos hlone]
        · rw [if_neg fun hand => hlone hand.2, if_neg hlone]
      rw [heq]
      rfl

end Force

/-- A node between its casts. -/
structure Viewed (s : CastGraph) (casts : List AddedCast)
    (node node' : GraphNode) : Prop where
  inputs : List.Forall₂ (fun arg arg' =>
    if s.Float16 arg then ⟨arg, arg', false⟩ ∈ casts else arg' = arg)
    node.inputDefs node'.inputDefs
  outputs : List.Forall₂ (fun arg arg' =>
    if s.Float16 arg then ⟨arg, arg', true⟩ ∈ casts else arg' = arg)
    node.outputDefs node'.outputDefs
  rest : node' = { node with
    inputDefs := node'.inputDefs
    outputDefs := node'.outputDefs }

/-- The casts are new nodes behind those of `s`, and give each node without a
provider that reads float16 a view of its data in float. -/
structure CastsInserted (s t : CastGraph) (casts : List AddedCast) : Prop where
  length : t.graph.nodes.length = s.graph.nodes.length + casts.length
  added : ∀ (k : Nat) cast, casts[k]? = some cast →
    (∃ name, t.graph.node (s.graph.nodes.length + k) = some (cast.node name)) ∧
    t.executionProviderType (s.graph.nodes.length + k) = cpuProviderType ∧
    t.castTo (s.graph.nodes.length + k) = some cast.toType
  original : ∀ cast ∈ casts, s.Float16 cast.old ∧
    (∃ index node, s.graph.node index = some node ∧
      cast.old ∈ node.inputDefs ++ node.outputDefs) ∧
    t.graph.argType cast.new.pointer = some (.tensorType .float)
  once : ∀ cast ∈ casts, ∀ other ∈ casts, cast.old = other.old →
    cast.back = other.back → cast = other
  kept : ∀ index node, s.graph.node index = some node →
    s.castReads index node.inputDefs = [] →
    t.graph.node index = some node ∧
      t.executionProviderType index = s.executionProviderType index
  moved : ∀ index node, s.graph.node index = some node →
    s.castReads index node.inputDefs ≠ [] →
    (∃ node', t.graph.node index = some node' ∧ Viewed s casts node node') ∧
      t.executionProviderType index = cpuProviderType
  definitions : ∀ name ≠ "", ((∃ site, s.graph.Defines name site) ∨
    ∃ cast ∈ casts, cast.new.name = name) → ∃! site, t.graph.Defines name site
  names : (casts.map (·.new.name)).Nodup ∧
    ∀ cast ∈ casts, cast.new.name ∉ s.graph.valueNames
  nodeNames : ∀ k < casts.length, ∀ index node other,
    t.graph.node (s.graph.nodes.length + k) = some node →
    t.graph.node index = some other → other.name = node.name →
    index = s.graph.nodes.length + k

/-- The names of the casts are free. -/
def CastNamesFree (s : CastGraph) : Prop :=
  ∀ k < s.castsNeeded, numbered "CastDef" k ∉ s.graph.valueNames ∧
    numbered "CastDef" k ∉ s.graph.liveNodes.map (·.2.name) ∧
    ∀ arg, s.graph.getNodeArg (numbered "CastDef" k) = some arg →
      s.graph.argType arg.pointer = some (.tensorType .float)

end CastGraph

namespace Pairs

variable {casts : List AddedCast} {olds : List (GraphArg × Bool)}
  {pairs : List (GraphArg × GraphArg)}

theorem replaceArg_of_mem (h : Pairs casts olds pairs)
    {pair : GraphArg × GraphArg} (hpair : pair ∈ pairs) :
    replaceArg pairs pair.1 = pair.2 := by
  have hfind : pairs.find? (fun other => pair.1.pointer = other.1.pointer) =
      some pair := by
    cases hfound : pairs.find? fun other =>
        pair.1.pointer = other.1.pointer with
    | none =>
      have hne := find?_eq_none.mp hfound pair hpair
      exact absurd (decide_eq_true rfl) hne
    | some found =>
      have hpointer : pair.1.pointer = found.1.pointer := by
        simpa using find?_some hfound
      rw [inj_on_of_nodup_map h.keys (mem_of_find?_eq_some hfound)
        hpair hpointer.symm]
  rw [replaceArg, hfind]
  rfl

theorem replaceArg_of_forall_ne (h : Pairs casts olds pairs) {arg : GraphArg}
    (hne : ∀ old ∈ olds, old.1.pointer ≠ arg.pointer) :
    replaceArg pairs arg = arg := by
  rw [replaceArg, find?_eq_none.mpr]
  · rfl
  · intro pair hpair
    obtain ⟨back, -, hold⟩ := h.sound pair hpair
    rw [decide_eq_true_eq]
    exact Ne.symm (hne _ hold)

theorem eq_nil (h : Pairs casts [] pairs) : pairs = [] := by
  cases pairs with
  | nil => rfl
  | cons pair rest =>
    obtain ⟨back, -, hold⟩ := h.sound pair mem_cons_self
    cases hold

end Pairs

section Lists

variable {α β : Type} {R : α → β → Prop} {left : List α} {right : List β}

theorem exists_left_of_forall₂ (h : Forall₂ R left right) {k : Nat}
    {b : β} (hb : right[k]? = some b) : ∃ a, left[k]? = some a ∧ R a b := by
  induction h generalizing k with
  | nil => cases hb
  | cons hrel _ ih =>
    cases k with
    | zero =>
      cases hb
      exact ⟨_, rfl, hrel⟩
    | succ k => exact ih hb

theorem exists_right_of_forall₂ (h : Forall₂ R left right) {k : Nat}
    {a : α} (ha : left[k]? = some a) : ∃ b, right[k]? = some b ∧ R a b :=
  exists_left_of_forall₂ h.flip ha

end Lists

namespace CastGraph

section Insertion

variable {s : CastGraph} {known : TypeProto → Bool} {order : List NodeIndex}
  {casts : List AddedCast} {st : CastInsertion} {index : NodeIndex}
  {node : GraphNode} {old : GraphArg × Bool} {arg : GraphArg} {cast : AddedCast}
  {name : String} {site site₁ site₂ : Option (NodeIndex × Nat)} {k : Nat}

/-- Everything that is replaced in a node is one of its float16 arguments. -/
theorem of_mem_replaced (h : old ∈ s.replaced index node) :
    s.Float16 old.1 ∧ s.castReads index node.inputDefs ≠ [] ∧
      old.1 ∈ if old.2 then node.outputDefs else node.inputDefs := by
  rcases mem_append.mp h with hread | hwrite
  · obtain ⟨arg, harg, rfl⟩ := mem_map.mp hread
    have hmem := mem_castReads.mp harg
    exact ⟨hmem.2.2, ne_nil_of_mem harg, hmem.2.1⟩
  · obtain ⟨arg, harg, rfl⟩ := mem_map.mp hwrite
    have hmem := mem_castWrites.mp harg
    exact ⟨hmem.2.2, hmem.1, hmem.2.1⟩

theorem mem_args_of_mem_replaced (h : old ∈ s.replaced index node) :
    old.1 ∈ node.inputDefs ++ node.outputDefs := by
  have hmem := (of_mem_replaced h).2.2
  split at hmem
  · exact mem_append_right _ hmem
  · exact mem_append_left _ hmem

theorem mem_valueNames_of_mem (hnode : s.graph.node index = some node)
    (harg : arg ∈ node.inputDefs ++ node.outputDefs) :
    arg.name ∈ s.graph.valueNames := by
  refine mem_append_left _ (mem_append_left _ (mem_flatMap.mpr
    ⟨(index, node), mem_liveNodes.mpr hnode, mem_map_of_mem ?_⟩))
  rw [GraphNode.defs]
  simp only [mem_append] at harg ⊢
  tauto

theorem mem_valueNames_of_defines (hsite : s.graph.Defines name site) :
    name ∈ s.graph.valueNames := by
  cases site with
  | none =>
    rcases hsite with hinput | hinitializer
    · exact mem_append_left _ (mem_append_right _ hinput)
    · exact mem_append_right _ hinitializer
  | some site =>
    obtain ⟨node, hnode, hname⟩ := hsite
    obtain ⟨arg, harg, rfl⟩ := mem_map.mp (mem_of_getElem? hname)
    exact mem_valueNames_of_mem hnode (mem_append_right _ harg)

/-- An output of a node is written by a cast. -/
def CastOut (s : CastGraph) (index : NodeIndex) (node : GraphNode)
    (arg : GraphArg) : Prop :=
  s.castReads index node.inputDefs ≠ [] ∧ s.Float16 arg

/-- Where a definition of the graph is after the insertion. -/
def Placed (s : CastGraph) (casts : List AddedCast) :
    Option (NodeIndex × Nat) → Option (NodeIndex × Nat) → Prop
  | none, site => site = none
  | some (index, slot), site => ∃ node arg, s.graph.node index = some node ∧
      node.outputDefs[slot]? = some arg ∧
      (¬ CastOut s index node arg ∧ site = some (index, slot) ∨
        CastOut s index node arg ∧ ∃ (k : Nat) (new : GraphArg),
          casts[k]? = some ⟨arg, new, true⟩ ∧
            site = some (s.graph.nodes.length + k, 0))

/-- Where the new value of a cast is defined. -/
def NewPlaced (s : CastGraph) (k : Nat) (cast : AddedCast)
    (site : Option (NodeIndex × Nat)) : Prop :=
  if cast.back then ∃ index slot node, s.graph.node index = some node ∧
    node.outputDefs[slot]? = some cast.old ∧ site = some (index, slot)
  else site = some (s.graph.nodes.length + k, 0)

variable (hs : s.graph.Resolved) (h : Looped s known order casts st)
  (horder : s.graph.TopologicalOrder order)
  (hfree : s.CastNamesFree)

section

include hs

section

variable (hnode : s.graph.node index = some node)
include hnode

theorem exists_of_float16 (harg : arg ∈ node.inputDefs ++ node.outputDefs)
    (hfloat : s.Float16 arg) :
    arg.Exists := by
  by_contra hnone
  have hentry := (getNodeArg_eq_some (hs.args index node hnode arg harg)).1
  rw [Float16, hs.typed arg hentry hnone] at hfloat
  cases hfloat

/-- No node of a resolved graph reads what it writes. -/
theorem not_mem_outputDefs (hinput : arg ∈ node.inputDefs)
    (hfloat : s.Float16 arg) :
    arg ∉ node.outputDefs := by
  intro houtput
  have hexists := exists_of_float16 hs hnode (mem_append_left _ hinput) hfloat
  exact hs.acyclic index (.single
    (hs.edges index node index node hnode hnode arg houtput hinput hexists))

/-- A float16 tensor is written at one slot. -/
theorem slot_unique {index' : NodeIndex} {node' : GraphNode}
    (hnode' : s.graph.node index' = some node') {slot slot' : Nat}
    (hslot : node.outputDefs[slot]? = some arg)
    (hslot' : node'.outputDefs[slot']? = some arg) (hfloat : s.Float16 arg) :
    index = index' ∧ slot = slot' := by
  have hexists := exists_of_float16 hs hnode
    (mem_append_right _ (mem_of_getElem? hslot)) hfloat
  have hsite := hs.definitions arg.name hexists _ _
    (defines_of_outputDefs hnode hslot) (defines_of_outputDefs hnode' hslot')
  simpa using hsite

end

include horder in
theorem nodup_writes : (order.flatMap s.writesAt).Nodup := by
  have hwrites : ∀ index arg, arg ∈ s.writesAt index → s.Float16 arg ∧
      ∃ node, s.graph.node index = some node ∧ arg ∈ node.outputDefs := by
    intro index arg harg
    rw [writesAt] at harg
    split at harg
    · cases harg
    · rename_i node hnode
      obtain ⟨-, houtput, hfloat⟩ := mem_castWrites.mp harg
      exact ⟨hfloat, node, hnode, houtput⟩
  rw [nodup_flatMap]
  constructor
  · intro index _
    rw [nodup_iff_forall_not_duplicate]
    intro arg hduplicate
    obtain ⟨hfloat, node, hnode, -⟩ := hwrites index arg hduplicate.mem
    have hsub : (s.writesAt index).Sublist node.outputDefs := by
      rw [writesAt, hnode]
      dsimp only
      rw [castWrites]
      split
      · exact nil_sublist _
      · exact filter_sublist
    obtain ⟨k, l, hlt, hk, hl⟩ := duplicate_iff_exists_distinct_get.mp
      (hduplicate.mono_sublist hsub)
    have hslots := (slot_unique hs hnode hnode
      (List.getElem?_eq_some_iff.mpr ⟨k.2, hk.symm⟩)
      (List.getElem?_eq_some_iff.mpr ⟨l.2, hl.symm⟩) hfloat).2
    exact absurd hslots (Nat.ne_of_lt hlt)
  · refine horder.nodup.imp fun hne arg hleft hright => hne ?_
    obtain ⟨hfloat, node, hnode, hmem⟩ := hwrites _ arg hleft
    obtain ⟨-, node', hnode', hmem'⟩ := hwrites _ arg hright
    obtain ⟨slot, hslot⟩ := getElem?_of_mem hmem
    obtain ⟨slot', hslot'⟩ := getElem?_of_mem hmem'
    exact (slot_unique hs hnode hnode' hslot hslot' hfloat).1

end

include h

theorem cast_of_node (hle : s.graph.nodes.length ≤ index)
    (hnode : st.graph.node index = some node) :
    ∃ k cast, casts[k]? = some cast ∧ index = s.graph.nodes.length + k ∧
      node = cast.node (numbered "CastDef" k) := by
  have hinserting := h.collecting.inserting
  have hlt := lt_length_of_node hnode
  rw [hinserting.length] at hlt
  obtain ⟨k, rfl⟩ := Nat.exists_eq_add_of_le hle
  have hk : k < casts.length := Nat.lt_of_add_lt_add_left hlt
  have hcast := getElem?_eq_getElem hk
  obtain ⟨-, hat, -⟩ := hinserting.added k _ hcast
  rw [hat] at hnode
  exact ⟨k, _, hcast, rfl, (some.inj hnode).symm⟩

theorem exists_slot_of_back (hcast : cast ∈ casts) (hback : cast.back) :
    ∃ (index : NodeIndex) (node : GraphNode) (slot : Nat),
      s.graph.node index = some node ∧
      node.outputDefs[slot]? = some cast.old ∧
      CastOut s index node cast.old := by
  have hmem : cast.old ∈ order.flatMap s.writesAt := by
    rw [← h.collecting.tally.writes]
    exact mem_map_of_mem (mem_filter.mpr ⟨hcast, hback⟩)
  obtain ⟨index, -, hwrite⟩ := mem_flatMap.mp hmem
  rw [writesAt] at hwrite
  cases hnode : s.graph.node index with
  | none =>
    rw [hnode] at hwrite
    cases hwrite
  | some node =>
    rw [hnode] at hwrite
    obtain ⟨hreads, houtput, hfloat⟩ := mem_castWrites.mp hwrite
    obtain ⟨slot, hslot⟩ := getElem?_of_mem houtput
    exact ⟨index, node, slot, hnode, hslot, hreads, hfloat⟩

theorem cast_injective {l : Nat} (hk : casts[k]? = some cast)
    (hl : casts[l]? = some cast) : k = l := by
  have hinserting := h.collecting.inserting
  have hname := (hinserting.added k cast hk).1
  rw [(hinserting.added l cast hl).1] at hname
  exact (numbered_injective _ hname).symm

theorem old_of_mem (hcast : cast ∈ casts) :
    s.Float16 cast.old ∧ ∃ index node, s.graph.node index = some node ∧
      cast.old ∈ node.inputDefs ++ node.outputDefs := by
  cases hback : cast.back with
  | true =>
    obtain ⟨index, node, slot, hnode, hslot, hout⟩ :=
      exists_slot_of_back h hcast hback
    exact ⟨hout.2, index, node, hnode,
      mem_append_right _ (mem_of_getElem? hslot)⟩
  | false =>
    have hread : cast.old ∈ order.flatMap s.readsAt := by
      rw [h.collecting.tally.mem_reads_iff]
      exact ⟨cast.new, by rw [← hback]; exact hcast⟩
    obtain ⟨index, -, hmem⟩ := mem_flatMap.mp hread
    rw [readsAt] at hmem
    split at hmem
    · cases hmem
    · rename_i node hnode
      obtain ⟨-, hinput, hfloat⟩ := mem_castReads.mp hmem
      exact ⟨hfloat, index, node, hnode, mem_append_left _ hinput⟩

include hs in
theorem newPlaced_unique (hk : casts[k]? = some cast)
    (h₁ : NewPlaced s k cast site₁) (h₂ : NewPlaced s k cast site₂) :
    site₁ = site₂ := by
  rw [NewPlaced] at h₁ h₂
  split at h₁
  · rename_i hback
    rw [if_pos hback] at h₂
    obtain ⟨index, slot, node, hnode, hslot, rfl⟩ := h₁
    obtain ⟨index', slot', node', hnode', hslot', rfl⟩ := h₂
    obtain ⟨_, _, _, -, -, -, hfloat⟩ :=
      exists_slot_of_back h (mem_of_getElem? hk) hback
    obtain ⟨rfl, rfl⟩ := slot_unique hs hnode hnode' hslot hslot' hfloat
    rfl
  · rename_i hback
    rw [if_neg hback] at h₂
    rw [h₁, h₂]

include horder

theorem node_eq_none (hlt : index < s.graph.nodes.length)
    (hnode : s.graph.node index = none) : st.graph.node index = none := by
  rw [(h.rest index hlt ?_).1, hnode]
  intro hmem
  have hlive := (horder.mem_iff index).mp hmem
  rw [hnode] at hlive
  cases hlive

/-- A name that is taken shows in the result. -/
theorem castNamesFree_of_castsInserted {casts' : List AddedCast}
    (hinserted : CastsInserted s st.toCastGraph casts') : s.CastNamesFree := by
  have hinserting := h.collecting.inserting
  intro k hk
  rw [← h.length_eq horder] at hk
  have hlength : casts.length = casts'.length :=
    Nat.add_left_cancel (hinserting.length.symm.trans hinserted.length)
  have hk' : k < casts'.length := hlength ▸ hk
  obtain ⟨hname, hat, -, hto⟩ :=
    hinserting.added k _ (getElem?_eq_getElem hk)
  obtain ⟨⟨name, hat'⟩, -, hto'⟩ :=
    hinserted.added k _ (getElem?_eq_getElem hk')
  -- The type a cast converts to says which of its arguments is the new one.
  have hnew : casts[k].new = casts'[k].new := by
    have hnodes := some.inj (hat.symm.trans hat')
    have htypes := some.inj (hto.symm.trans hto')
    generalize casts[k] = cast at hnodes htypes ⊢
    generalize casts'[k] = cast' at hnodes htypes ⊢
    obtain ⟨old, new, back⟩ := cast
    obtain ⟨old', new', back'⟩ := cast'
    cases back <;> cases back' <;> cases htypes <;> simp_all [AddedCast.node]
  have hmem' : casts'[k] ∈ casts' := getElem_mem hk'
  refine ⟨?_, ?_, ?_⟩
  · rw [← hname, hnew]
    exact hinserted.names.2 _ hmem'
  · intro htaken
    obtain ⟨⟨index, node⟩, hentry, hnode⟩ := mem_map.mp htaken
    have hstart := mem_liveNodes.mp hentry
    have hlt := lt_length_of_node hstart
    obtain ⟨⟨pairs, hnode', -⟩, -⟩ := h.treated index
      ((horder.mem_iff index).mpr (by rw [hstart]; rfl)) node hstart
    have heq := hinserted.nodeNames k hk' index _ _ hat hnode'
      ((node.name_replaceDefs pairs).trans hnode)
    rw [heq] at hlt
    exact absurd hlt (Nat.not_lt.mpr (Nat.le_add_right _ _))
  · intro arg harg
    have htable := (hinserting.table (numbered "CastDef" k) casts[k].new).mpr
      (.inr ⟨_, getElem_mem hk, rfl, hname⟩)
    cases some.inj ((hinserting.grown.table _ _ harg).symm.trans htable)
    rw [← hinserting.grown.types _ _ harg, hnew]
    exact (hinserted.original _ hmem').2.2

include hfree in
theorem new_not_mem_valueNames (hcast : cast ∈ casts) :
    cast.new.name ∉ s.graph.valueNames := by
  obtain ⟨k, hk, hname⟩ := h.collecting.inserting.name_eq hcast
  rw [h.length_eq horder] at hk
  rw [hname]
  exact (hfree k hk).1

include hfree in
theorem type_new (hcast : cast ∈ casts) :
    st.graph.argType cast.new.pointer = some (.tensorType .float) := by
  have hinserting := h.collecting.inserting
  have htable := (hinserting.table _ _).mpr (.inr ⟨cast, hcast, rfl, rfl⟩)
  obtain ⟨k, hk, hname⟩ := hinserting.name_eq hcast
  rw [h.length_eq horder] at hk
  cases hstart : s.graph.getNodeArg cast.new.name with
  | none => exact hinserting.floats cast hcast hstart
  | some arg =>
    have heq := (hinserting.grown.table _ _ hstart).symm.trans htable
    cases some.inj heq
    rw [hinserting.grown.types _ _ hstart]
    rw [hname] at hstart
    exact (hfree k hk).2.2 _ hstart

include hs

theorem cast_once {other : AddedCast} (hcast : cast ∈ casts)
    (hother : other ∈ casts) (hold : cast.old = other.old)
    (hback : cast.back = other.back) : cast = other := by
  have htally := h.collecting.tally
  cases hcase : cast.back with
  | false =>
    refine inj_on_of_nodup_map htally.nodup
      (mem_filter.mpr ⟨hcast, ?_⟩) (mem_filter.mpr ⟨hother, ?_⟩) hold
    · rw [hcase]
      rfl
    · rw [← hback, hcase]
      rfl
  | true =>
    have hnodup : ((casts.filter (·.back)).map (·.old)).Nodup := by
      rw [htally.writes]
      exact nodup_writes hs horder
    refine inj_on_of_nodup_map hnodup (mem_filter.mpr ⟨hcast, hcase⟩)
      (mem_filter.mpr ⟨hother, ?_⟩) hold
    rw [← hback, hcase]

theorem placed_unique (h₁ : Placed s casts site site₁)
    (h₂ : Placed s casts site site₂) :
    site₁ = site₂ := by
  cases site with
  | none => exact h₁.trans h₂.symm
  | some site =>
    obtain ⟨node, arg, hnode, hslot, hplace₁⟩ := h₁
    obtain ⟨node', arg', hnode', hslot', hplace₂⟩ := h₂
    cases hnode.symm.trans hnode'
    cases hslot.symm.trans hslot'
    rcases hplace₁ with ⟨hkept, rfl⟩ | ⟨hout, k, new, hk, rfl⟩
    · rcases hplace₂ with ⟨-, rfl⟩ | ⟨hout, -⟩
      · rfl
      · exact absurd hout hkept
    · rcases hplace₂ with ⟨hkept, -⟩ | ⟨-, l, new', hl, rfl⟩
      · exact absurd hout hkept
      · cases cast_once hs h horder (mem_of_getElem? hk)
          (mem_of_getElem? hl) rfl rfl
        rw [cast_injective h hk hl]

include hfree

theorem new_pointer_ne (hcast : cast ∈ casts)
    (hnode : s.graph.node index = some node)
    (harg : arg ∈ node.inputDefs ++ node.outputDefs) :
    cast.new.pointer ≠ arg.pointer := by
  intro hpointer
  have hinserting := h.collecting.inserting
  have heq : cast.new = arg := eq_of_pointer hinserting.grown.pointers
    ((hinserting.table _ _).mpr (.inr ⟨cast, hcast, rfl, rfl⟩))
    (hinserting.grown.table _ _ (hs.args index node hnode arg harg)) hpointer
  refine new_not_mem_valueNames h horder hfree hcast ?_
  rw [heq]
  exact mem_valueNames_of_mem hnode harg

theorem viewed_of_pairs (hnode : s.graph.node index = some node)
    (hreads : s.castReads index node.inputDefs ≠ [])
    {pairs : List (GraphArg × GraphArg)}
    (hpairs : Pairs casts (s.replaced index node) pairs) :
    Viewed s casts node (node.replaceDefs pairs) := by
  have hargs := hs.args index node hnode
  have hunassigned : s.executionProviderType index = "" := by
    by_contra hassigned
    exact hreads (castReads_eq_nil _ hassigned)
  have heq := @GraphNode.replaceDefs_eq pairs node
      fun pair hpair other hother => by
    obtain ⟨back, -, hold⟩ := hpairs.sound pair hpair
    obtain ⟨back', hcast, -⟩ := hpairs.sound other hother
    exact new_pointer_ne hs h horder hfree hcast hnode
      (mem_args_of_mem_replaced hold)
  -- An argument with another type is not replaced.
  have hother : ∀ arg, ¬ s.Float16 arg → replaceArg pairs arg = arg := by
    intro arg hfloat
    refine hpairs.replaceArg_of_forall_ne fun old hold hpointer => hfloat ?_
    rw [Float16, ← hpointer]
    exact (of_mem_replaced hold).1
  have hcast : ∀ arg back, (arg, back) ∈ s.replaced index node →
      (arg, !back) ∉ s.replaced index node →
      ⟨arg, replaceArg pairs arg, back⟩ ∈ casts := by
    intro arg back hmem hnot
    obtain ⟨pair, hpair, rfl⟩ := hpairs.complete (arg, back) hmem
    obtain ⟨back', hcast, hold⟩ := hpairs.sound pair hpair
    rw [hpairs.replaceArg_of_mem hpair]
    cases back <;> cases back' <;> first | exact hcast | exact absurd hold hnot
  have hread : ∀ arg, (arg, false) ∈ s.replaced index node →
      arg ∈ node.inputDefs ∧ s.Float16 arg := fun arg hmem =>
    ⟨(of_mem_replaced hmem).2.2, (of_mem_replaced hmem).1⟩
  have hwrite : ∀ arg, (arg, true) ∈ s.replaced index node →
      arg ∈ node.outputDefs := fun arg hmem => (of_mem_replaced hmem).2.2
  rw [heq]
  refine ⟨?_, ?_, rfl⟩
  · refine forall₂_map_right_iff.mpr (forall₂_same.mpr ?_)
    intro arg harg
    split
    · rename_i hfloat
      refine hcast arg false ?_ fun hmem =>
        not_mem_outputDefs hs hnode harg hfloat (hwrite arg hmem)
      exact mem_append_left _ (mem_map_of_mem
        (mem_castReads.mpr ⟨hunassigned, harg, hfloat⟩))
    · rename_i hfloat
      exact hother arg hfloat
  · refine forall₂_map_right_iff.mpr (forall₂_same.mpr ?_)
    intro arg harg
    split
    · rename_i hfloat
      refine hcast arg true ?_ fun hmem =>
        not_mem_outputDefs hs hnode (hread arg hmem).1 hfloat harg
      exact mem_append_right _ (mem_map_of_mem
        (mem_castWrites.mpr ⟨hreads, harg, hfloat⟩))
    · rename_i hfloat
      exact hother arg hfloat

theorem node_of_node (hnode : s.graph.node index = some node) :
    ∃ node', st.graph.node index = some node' ∧ node'.name = node.name ∧
      Forall₂ (fun arg arg' =>
        CastOut s index node arg ∧ ⟨arg, arg', true⟩ ∈ casts ∨
          ¬ CastOut s index node arg ∧ arg' = arg)
        node.outputDefs node'.outputDefs := by
  have hmem : index ∈ order := (horder.mem_iff index).mpr (by rw [hnode]; rfl)
  obtain ⟨⟨pairs, hat, hpairs⟩, -⟩ := h.treated index hmem node hnode
  refine ⟨_, hat, ?_⟩
  by_cases hreads : s.castReads index node.inputDefs = []
  · have hnil : s.replaced index node = [] := by
      rw [replaced, castWrites, if_pos hreads, hreads]
      rfl
    rw [hnil] at hpairs
    rw [hpairs.eq_nil]
    refine ⟨rfl, forall₂_same.mpr fun arg _ => .inr ⟨?_, rfl⟩⟩
    exact fun hout => hout.1 hreads
  · have hviewed := viewed_of_pairs hs h horder hfree hnode hreads hpairs
    refine ⟨by rw [hviewed.rest], hviewed.outputs.imp fun arg arg' hrel => ?_⟩
    split at hrel
    · rename_i hfloat
      exact .inl ⟨⟨hreads, hfloat⟩, hrel⟩
    · rename_i hfloat
      exact .inr ⟨fun hout => hfloat hout.2, hrel⟩

/-- Every definition after the insertion is one from before, or that of the
new value of a cast. -/
theorem defines_cases (hsite : st.graph.Defines name site) :
    (∃ site', s.graph.Defines name site' ∧ Placed s casts site' site) ∨
    ∃ k cast, casts[k]? = some cast ∧ cast.new.name = name ∧
      NewPlaced s k cast site := by
  have hgrown := h.collecting.inserting.grown
  cases site with
  | none =>
    refine .inl ⟨none, ?_, rfl⟩
    rw [Graph.Defines, hgrown.inputs, hgrown.initializers] at hsite
    exact hsite
  | some site =>
    obtain ⟨index, slot⟩ := site
    obtain ⟨node', hnode', hname⟩ := hsite
    rw [getElem?_map, map_eq_some_iff] at hname
    obtain ⟨arg', harg', rfl⟩ := hname
    by_cases hlt : index < s.graph.nodes.length
    · cases hnode : s.graph.node index with
      | none =>
        rw [node_eq_none h horder hlt hnode] at hnode'
        cases hnode'
      | some node =>
        obtain ⟨_, hat, -, houtputs⟩ :=
          node_of_node hs h horder hfree hnode
        cases hat.symm.trans hnode'
        obtain ⟨arg, harg, hrel⟩ := exists_left_of_forall₂ houtputs harg'
        rcases hrel with ⟨hout, hcast⟩ | ⟨hout, rfl⟩
        · obtain ⟨k, hk⟩ := getElem?_of_mem hcast
          refine .inr ⟨k, _, hk, rfl, ?_⟩
          exact ⟨index, slot, node, hnode, harg, rfl⟩
        · exact .inl ⟨some (index, slot), defines_of_outputDefs hnode harg,
            node, arg', hnode, harg, .inl ⟨hout, rfl⟩⟩
    · obtain ⟨k, cast, hcast, rfl, rfl⟩ :=
        cast_of_node h (Nat.le_of_not_lt hlt) hnode'
      rw [AddedCast.node, getElem?_singleton, ite_some_none_eq_some] at harg'
      obtain ⟨rfl, rfl⟩ := harg'
      cases hback : cast.back with
      | false =>
        refine .inr ⟨k, cast, hcast, rfl, ?_⟩
        rw [NewPlaced, if_neg (by simp [hback])]
      | true =>
        obtain ⟨index, node, slot, hnode, hslot, hout⟩ :=
          exists_slot_of_back h (mem_of_getElem? hcast) hback
        refine .inl ⟨some (index, slot),
          defines_of_outputDefs hnode hslot, node, cast.old, hnode, hslot,
          .inr ⟨hout, k, cast.new, ?_, rfl⟩⟩
        rw [hcast, ← hback]

theorem defines_of_placed (hsite : s.graph.Defines name site) :
    ∃ site', st.graph.Defines name site' := by
  have hinserting := h.collecting.inserting
  cases site with
  | none =>
    refine ⟨none, ?_⟩
    rw [Graph.Defines, hinserting.grown.inputs, hinserting.grown.initializers]
    exact hsite
  | some site =>
    obtain ⟨index, slot⟩ := site
    obtain ⟨node, hnode, hname⟩ := hsite
    rw [getElem?_map, map_eq_some_iff] at hname
    obtain ⟨arg, harg, rfl⟩ := hname
    obtain ⟨node', hat, -, houtputs⟩ := node_of_node hs h horder hfree hnode
    obtain ⟨arg', harg', hrel⟩ := exists_right_of_forall₂ houtputs harg
    rcases hrel with ⟨-, hcast⟩ | ⟨-, rfl⟩
    · obtain ⟨k, hk⟩ := getElem?_of_mem hcast
      exact ⟨some (_, 0), defines_of_outputDefs
        (hinserting.added k _ hk).2.1 rfl⟩
    · exact ⟨some (index, slot), defines_of_outputDefs hat harg'⟩

theorem defines_new (hcast : cast ∈ casts) :
    ∃ site, st.graph.Defines cast.new.name site := by
  have hinserting := h.collecting.inserting
  cases hback : cast.back with
  | false =>
    obtain ⟨k, hk⟩ := getElem?_of_mem hcast
    refine ⟨some (_, 0), defines_of_outputDefs
      (hinserting.added k cast hk).2.1 ?_⟩
    rw [AddedCast.node, hback]
    rfl
  | true =>
    obtain ⟨index, node, slot, hnode, hslot, hout⟩ :=
      exists_slot_of_back h hcast hback
    obtain ⟨node', hat, -, houtputs⟩ := node_of_node hs h horder hfree hnode
    obtain ⟨arg', harg', hrel⟩ := exists_right_of_forall₂ houtputs hslot
    rcases hrel with ⟨-, hother⟩ | ⟨hkept, -⟩
    · have heq := cast_once hs h horder hcast hother rfl hback
      rw [heq]
      exact ⟨some (index, slot), defines_of_outputDefs hat harg'⟩
    · exact absurd hout hkept

theorem defines_unique (hname : name ≠ "")
    (h₁ : st.graph.Defines name site₁) (h₂ : st.graph.Defines name site₂) :
    site₁ = site₂ := by
  have hnew : ∀ (k : Nat) cast, casts[k]? = some cast → cast.new.name = name →
      ∀ site, ¬ s.graph.Defines name site := by
    rintro k cast hk rfl site hsite
    exact new_not_mem_valueNames h horder hfree (mem_of_getElem? hk)
      (mem_valueNames_of_defines hsite)
  rcases defines_cases hs h horder hfree h₁ with
    ⟨site, hsite, hplace⟩ | ⟨k, cast, hk, hcast, hplace⟩
  · rcases defines_cases hs h horder hfree h₂ with
      ⟨site', hsite', hplace'⟩ | ⟨l, other, hl, hother, -⟩
    · cases hs.definitions name hname site site' hsite hsite'
      exact placed_unique hs h horder hplace hplace'
    · exact absurd hsite (hnew l other hl hother site)
  · rcases defines_cases hs h horder hfree h₂ with
      ⟨site', hsite', -⟩ | ⟨l, other, hl, hother, hplace'⟩
    · exact absurd hsite' (hnew k cast hk hcast site')
    · have hinserting := h.collecting.inserting
      have hsame : k = l := by
        rw [(hinserting.added k cast hk).1] at hcast
        rw [(hinserting.added l other hl).1, ← hcast] at hother
        exact (numbered_injective _ hother).symm
      subst hsame
      cases hk.symm.trans hl
      exact newPlaced_unique hs h hk hplace hplace'

theorem castsInserted : CastsInserted s st.toCastGraph casts where
  length := h.collecting.inserting.length
  added k cast hk := by
    obtain ⟨-, hat, hprovider, hto⟩ := h.collecting.inserting.added k cast hk
    exact ⟨⟨_, hat⟩, hprovider, hto⟩
  original cast hcast := by
    obtain ⟨hfloat, hold⟩ := old_of_mem h hcast
    exact ⟨hfloat, hold, type_new h horder hfree hcast⟩
  once cast hcast other hother hold hback :=
    cast_once hs h horder hcast hother hold hback
  kept index node hnode hreads := by
    have hmem := (horder.mem_iff index).mpr (by rw [hnode]; rfl)
    obtain ⟨⟨pairs, hat, hpairs⟩, hprovider⟩ := h.treated index hmem node hnode
    rw [replaced, castWrites, if_pos hreads, hreads] at hpairs
    rw [hpairs.eq_nil] at hat
    rw [if_pos hreads] at hprovider
    exact ⟨hat, hprovider⟩
  moved index node hnode hreads := by
    have hmem := (horder.mem_iff index).mpr (by rw [hnode]; rfl)
    obtain ⟨⟨pairs, hat, hpairs⟩, hprovider⟩ := h.treated index hmem node hnode
    rw [if_neg hreads] at hprovider
    exact ⟨⟨_, hat, viewed_of_pairs hs h horder hfree hnode hreads hpairs⟩,
      hprovider⟩
  definitions name hname hvalue := by
    have hexists : ∃ site, st.graph.Defines name site := by
      rcases hvalue with ⟨site, hsite⟩ | ⟨cast, hcast, rfl⟩
      · exact defines_of_placed hs h horder hfree hsite
      · exact defines_new hs h horder hfree hcast
    obtain ⟨site, hsite⟩ := hexists
    exact ⟨site, hsite, fun other hother =>
      defines_unique hs h horder hfree hname hother hsite⟩
  names := by
    refine ⟨?_, fun cast hcast =>
      new_not_mem_valueNames h horder hfree hcast⟩
    rw [h.collecting.inserting.names_eq]
    exact nodup_range.map (numbered_injective _)
  nodeNames k hk index node other hnode hother hname := by
    obtain ⟨-, hat, -⟩ := h.collecting.inserting.added k _
      (getElem?_eq_getElem hk)
    cases hat.symm.trans hnode
    by_cases hlt : index < s.graph.nodes.length
    · cases hstart : s.graph.node index with
      | none =>
        have hnone := node_eq_none h horder hlt hstart
        cases hnone.symm.trans hother
      | some node =>
        obtain ⟨node', hat', hname', -⟩ :=
          node_of_node hs h horder hfree hstart
        cases hat'.symm.trans hother
        rw [h.length_eq horder] at hk
        refine absurd (mem_map.mpr ⟨(index, node),
          mem_liveNodes.mpr hstart, ?_⟩) (hfree k hk).2.1
        exact hname'.symm.trans hname
    · obtain ⟨l, cast, hl, rfl, rfl⟩ :=
        cast_of_node h (Nat.le_of_not_lt hlt) hother
      rw [numbered_injective _ hname]

end Insertion

section Pass

variable (known : TypeProto → Bool)
  (subgraphUses : List (NodeIndex × List String))
  (inferTypes : Graph → Except Failure (Nat → Option TypeProto))
  (forceCpuFp32 : Bool) (s : CastGraph)

/-- The first phase of the pass gives every node without a provider that reads
float16 a float view of its data and touches nothing else.  Its last step is
`Resolve`, which changes no node, though it can reject the graph. -/
def InsertsCasts : Prop :=
  s.prepare known subgraphUses inferTypes forceCpuFp32 =
    .ok (s.forced forceCpuFp32) ∧
  ∃ st casts, (s.forced forceCpuFp32).insertCasts known = .ok st ∧
    CastsInserted (s.forced forceCpuFp32) st.toCastGraph casts ∧
    ∀ t modified, s.applyInsertion known subgraphUses inferTypes
      forceCpuFp32 = .ok (t, modified) →
      Graph.Thinned st.graph t.graph ∧
      t.executionProviderType = st.executionProviderType ∧
      t.castTo = st.castTo

variable {known subgraphUses inferTypes forceCpuFp32 s}

theorem forced_graph : (s.forced forceCpuFp32).graph = s.graph := by
  rw [forced]
  split <;> rfl

theorem applyInsertion_eq_ok {st : CastInsertion}
    (hprepare : s.prepare known subgraphUses inferTypes forceCpuFp32 =
      .ok (s.forced forceCpuFp32))
    (hinsert : (s.forced forceCpuFp32).insertCasts known = .ok st)
    {t : CastGraph} {modified : Bool}
    (h : s.applyInsertion known subgraphUses inferTypes forceCpuFp32 =
      .ok (t, modified)) : Graph.Thinned st.graph t.graph ∧
      t.executionProviderType = st.executionProviderType ∧
      t.castTo = st.castTo := by
  obtain ⟨_, hstart, h⟩ := except_bind_eq_ok.mp h
  cases hprepare.symm.trans hstart
  obtain ⟨_, hst, h⟩ := except_bind_eq_ok.mp h
  cases hinsert.symm.trans hst
  obtain ⟨after, hresolve, h⟩ := except_bind_eq_ok.mp h
  cases h
  obtain ⟨graph, hgraph, hafter⟩ := except_bind_eq_ok.mp hresolve
  cases hafter
  exact ⟨resolveWith_thinned hgraph, rfl, rfl⟩

theorem insertable_of_insertsCasts (hs : s.graph.Resolved)
    (h : s.InsertsCasts known subgraphUses inferTypes forceCpuFp32) :
    (s.forced forceCpuFp32).Insertable known ∧
      (s.forced forceCpuFp32).CastNamesFree := by
  obtain ⟨-, st, casts', hst, hinserted, -⟩ := h
  rw [← forced_graph] at hs
  obtain ⟨order, casts, horder, h⟩ := (@insertCasts_meets _ known hs.args
    hs.pointers hs.mirrored hs.acyclic).of_ok hst
  refine ⟨⟨?_, ?_⟩, castNamesFree_of_castsInserted h horder hinserted⟩
  · intro index node hnode
    exact h.types index ((horder.mem_iff index).mpr (by rw [hnode]; rfl))
      node hnode
  · rw [← h.length_eq horder]
    exact h.collecting.inserting.room

end Pass

section Example

/-- One node without a provider, from `x` to `y` in float16. -/
def halfRelu : CastGraph where
  graph := {
    nodes := [some {
      name := "relu"
      opType := "Relu"
      inputDefs := [⟨0, "x"⟩]
      outputDefs := [⟨1, "y"⟩] }]
    numOfNodes := 1
    nodeArgs := [⟨0, "x"⟩, ⟨1, "y"⟩]
    argType := fun pointer =>
      if pointer ≤ 1 then some (.tensorType .float16) else none
    inputsOutputs := { inputs := [⟨0, "x"⟩], outputs := [some ⟨1, "y"⟩] }
    graphResolveNeeded := false }
  executionProviderType _ := ""
  castTo _ := none

theorem resolved_halfRelu : halfRelu.graph.Resolved :=
  resolved_of_checks [0] (by decide +kernel)

theorem isOk_halfRelu : (halfRelu.applyInsertion TypeProto.hasTensorType []
    (fun g => .ok g.argType) true).isOk = true := by decide +kernel

/-- The graph after a first application. -/
def castRelu : CastGraph := (okValue _ isOk_halfRelu).1

theorem resolved_castRelu : castRelu.graph.Resolved :=
  resolved_of_checks [1, 0, 2] (by decide +kernel)

end Example

end CastGraph

end OnnxRuntime
