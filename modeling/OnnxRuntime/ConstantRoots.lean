/-
Constant nodes in the topological sort: nodes that only read constants are
listed first, in the order in which they were added.
-/
import OnnxRuntime.GraphMutation

namespace OnnxRuntime

open List

variable {target source : NodeIndex}

namespace Graph

open DepthFirst

/-- Every constant comes before the nodes that read it. -/
def ConstantsFirst (g : Graph) (order : List NodeIndex) : Prop :=
  ∀ source target, g.Edge source target → g.isConstant source →
    order.idxOf source < order.idxOf target

instance decidableConstantsFirst (g : Graph) (order : List NodeIndex) :
    Decidable (g.ConstantsFirst order) :=
  decidable_of_iff _ forall_edge_iff.symm

/-- The node reads nothing but constants. -/
def ReadsConstants (g : Graph) (index : NodeIndex) : Prop :=
  ∀ source, g.Edge source index → g.isConstant source

/-- A constant read by a node that only reads constants was added before it,
and reads constants at most. -/
def ConstantsAddedFirst (g : Graph) : Prop :=
  ∀ source target, g.Edge source target → g.isConstant source →
    g.ReadsConstants target → g.ReadsConstants source ∧ source < target

/-- The graph without the edges into some nodes. -/
def cutInto (g : Graph) (roots : List NodeIndex) : Graph :=
  { g with nodes := g.nodes.mapIdx fun index => Option.map fun node =>
      { node with
        inputEdges := if index ∈ roots then [] else node.inputEdges
        outputEdges := node.outputEdges.filter (·.node ∉ roots) } }

variable {g : Graph} {roots : List NodeIndex}

section CutInto

section

variable (index : NodeIndex)

theorem node_cutInto :
    (g.cutInto roots).node index = (g.node index).map fun node =>
      { node with
        inputEdges := if index ∈ roots then [] else node.inputEdges
        outputEdges := node.outputEdges.filter (·.node ∉ roots) } := by
  rw [node, node, cutInto, List.getElem?_mapIdx]
  cases g.nodes[index]? <;> rfl

theorem outputEdgesOf_cutInto :
    (g.cutInto roots).outputEdgesOf index =
      (g.outputEdgesOf index).filter (·.node ∉ roots) := by
  rw [outputEdgesOf, outputEdgesOf, node_cutInto]
  cases g.node index <;> rfl

theorem inputEdgesOf_cutInto :
    (g.cutInto roots).inputEdgesOf index =
      if index ∈ roots then [] else g.inputEdgesOf index := by
  rw [inputEdgesOf, inputEdgesOf, node_cutInto]
  cases g.node index <;> simp

theorem Mirrored.cutInto (hmirror : g.Mirrored) :
    (g.cutInto roots).Mirrored := by
  intro edge
  rw [outputEdgesOf_cutInto, inputEdgesOf_cutInto, mem_filter, hmirror edge]
  by_cases hroot : edge.target ∈ roots
  · simp [hroot, DataEdge.targetEnd]
  · simp [hroot, DataEdge.targetEnd]

theorem isSome_cutInto :
    ((g.cutInto roots).node index).isSome = (g.node index).isSome := by
  rw [node_cutInto, Option.isSome_map]

end

theorem edge_cutInto :
    (g.cutInto roots).Edge source target ↔
      g.Edge source target ∧ target ∉ roots := by
  simp only [edge_iff_output, outputEdgesOf_cutInto, mem_filter]
  grind

/-- What a node that was not added makes of the walk. -/
theorem topologicalWalk_enter {order processed outputNodes added rest :
      List NodeIndex} {current : NodeIndex} {node : GraphNode}
    (hopen : current ∉ processed) (hadded : current ∉ added)
    (hnode : g.node current = some node) :
    g.topologicalWalk ⟨order, processed, outputNodes, added, current :: rest⟩ =
      (pushInputNodes (current :: outputNodes) added (current :: rest)
        node.inputEdges).bind fun pushed => g.topologicalWalk
          ⟨order, processed, current :: outputNodes, current :: added,
            pushed⟩ := by
  have hin := Nat.not_le.mpr (lt_length_of_node hnode)
  rw [topologicalWalk, if_neg hopen, if_neg hadded, if_neg hin]
  split
  · rename_i hnone
    rw [hnode] at hnone
    cases hnone
  · rename_i other hother
    cases hnode.symm.trans hother
    split <;> rename_i hpush <;> rw [hpush] <;> rfl

/-- The walk does not look at the inputs of nodes that were added. -/
theorem topologicalWalk_cutInto (walk : TopologicalWalk)
    (hroots : ∀ index ∈ roots, index ∈ walk.added) :
    (g.cutInto roots).topologicalWalk walk = g.topologicalWalk walk := by
  have hlength : (g.cutInto roots).nodes.length = g.nodes.length :=
    length_mapIdx
  have hcut : ∀ {index node}, g.node index = some node → index ∉ roots →
      (g.cutInto roots).node index = some { node with
        outputEdges := node.outputEdges.filter (·.node ∉ roots) } := by
    intro index node hnode hroot
    rw [node_cutInto, hnode, Option.map_some, if_neg hroot]
  fun_induction topologicalWalk g walk with
  | case1 order processed outputNodes added => rw [topologicalWalk]
  | case2 order processed outputNodes added current rest hdone ih =>
    rw [topologicalWalk, if_pos hdone]
    exact ih hroots
  | case3 order processed outputNodes added current rest hopen hadded ih =>
    rw [@unattach_filter _ _ _ _ (fun index => decide (index ≠ current))
      fun _ _ => rfl, unattach_attach] at ih
    rw [topologicalWalk, if_neg hopen, if_pos hadded]
    exact ih hroots
  | case4 order processed outputNodes added current rest hopen hadded hout =>
    rw [topologicalWalk, if_neg hopen, if_neg hadded, hlength, if_pos hout]
  | case5 order processed outputNodes added current rest hopen hadded hin
      hnode ih =>
      rw [topologicalWalk, if_neg hopen, if_neg hadded, hlength, if_neg hin]
      split
      · exact ih hroots
      · rename_i other hother
        rw [node_cutInto, hnode] at hother
        cases hother
  | case6 order processed outputNodes added current rest hopen hadded hin
      node hnode failure hpush =>
      have hroot : current ∉ roots := fun hmem => hadded (hroots _ hmem)
      rw [topologicalWalk_enter hopen hadded (hcut hnode hroot), hpush]
      rfl
  | case7 order processed outputNodes added current rest hopen hadded hin
      node hnode pushed hpush ih =>
      have hroot : current ∉ roots := fun hmem => hadded (hroots _ hmem)
      rw [topologicalWalk_enter hopen hadded (hcut hnode hroot), hpush]
      exact ih fun index hmem => mem_cons_of_mem _ (hroots index hmem)

end CutInto

section Order

theorem topologicalWalk_order (walk : TopologicalWalk)
    {final : TopologicalWalk} (h : g.topologicalWalk walk = .ok final) :
    ∃ rest, final.order = walk.order ++ rest := by
  fun_induction topologicalWalk g walk with
  | case1 order processed outputNodes added =>
    cases h
    exact ⟨[], (append_nil _).symm⟩
  | case2 order processed outputNodes added current rest hdone ih => exact ih h
  | case3 order processed outputNodes added current rest hopen hadded ih =>
    rw [@unattach_filter _ _ _ _ (fun index => decide (index ≠ current))
      fun _ _ => rfl, unattach_attach] at ih
    obtain ⟨rest', hrest⟩ := ih h
    exact ⟨current :: rest', by rw [hrest, append_assoc]; rfl⟩
  | case4 => cases h
  | case5 order processed outputNodes added current rest hopen hadded hin
      hnode ih => exact ih h
  | case6 => cases h
  | case7 order processed outputNodes added current rest hopen hadded hin
      node hnode pushed hpush ih => exact ih h

/-- The order has all nodes: first those that only read constants, and each
of the others after everything it reads. -/
theorem exists_order_of_sort (hmirror : g.Mirrored) (hcount : g.Counted)
    {sorted : Graph}
    (h : g.performTopologicalSortAndCheckIsAcyclic = .ok sorted) :
    (∃ rest, sorted.nodesInTopologicalOrder = g.topLevelNodes ++ rest) ∧
      ∀ source target, g.Edge source target → target ∉ g.topLevelNodes →
        sorted.nodesInTopologicalOrder.idxOf source <
          sorted.nodesInTopologicalOrder.idxOf target := by
  obtain ⟨final, hfinal, h⟩ := except_bind_eq_ok.mp h
  have hcut : (g.cutInto g.topLevelNodes).topologicalWalk _ = _ :=
    topologicalWalk_cutInto ⟨g.topLevelNodes, g.topLevelNodes, [],
      g.topLevelNodes, g.leafNodes.reverse⟩ fun _ hmem => hmem
  have hstart : Sorts (g.cutInto g.topLevelNodes)
      ⟨g.topLevelNodes, g.topLevelNodes, [], g.topLevelNodes,
        g.leafNodes.reverse⟩ (g.leafNodes.reverse.map (·, false)) := by
    refine sorts_roots nodup_topLevelNodes (fun index hindex => ⟨?_, ?_⟩)
      fun index hindex => ?_
    · rw [isSome_cutInto]
      exact (hmirror.mem_topLevelNodes.mp hindex).1
    · exact fun source hedge => (edge_cutInto.mp hedge).2 hindex
    · rw [isSome_cutInto]
      exact isSome_of_mem_leafNodes hindex
  rcases topologicalWalk_spec hmirror.cutInto _ hstart with
    ⟨final', hfinal', hsorts, -⟩ | ⟨herror, -⟩
  · cases (hfinal'.symm.trans hcut).trans hfinal
    have hnodup : final.order.Nodup := hsorts.walks.nodup.of_append_left
    have hlive : ∀ index ∈ final.order, (g.node index).isSome := by
      intro index hindex
      rw [← isSome_cutInto]
      exact hsorts.live index (mem_append_left _ hindex)
    split at h
    · rename_i hlength
      cases h
      have hall := (hcount.length_eq_iff hnodup hlive).mp hlength
      refine ⟨topologicalWalk_order _ hfinal, fun source target hedge hroot =>
        hsorts.walks.ordered.idxOf_lt (hall target (mem_liveIndices.mpr
          (hmirror.isSome_target hedge))) (edge_cutInto.mpr ⟨hedge, hroot⟩)⟩
    · cases h
  · rw [hcut, hfinal] at herror
    cases herror

theorem pairwise_topLevelNodes : g.topLevelNodes.Pairwise (· < ·) :=
  pairwise_liveIndices.sublist (filter_sublist.map _)

/-- A constant comes before a node that is listed first exactly when it is
listed first as well and was added before. -/
theorem idxOf_lt_of_topLevel
    (htarget : target ∈ g.topLevelNodes) (rest : List NodeIndex) :
    (g.topLevelNodes ++ rest).idxOf source <
        (g.topLevelNodes ++ rest).idxOf target ↔
      source ∈ g.topLevelNodes ∧ source < target := by
  have hlt := idxOf_lt_length_of_mem htarget
  rw [idxOf_append_of_mem htarget]
  by_cases hsource : source ∈ g.topLevelNodes
  · rw [idxOf_append_of_mem hsource]
    have hlt' := idxOf_lt_length_of_mem hsource
    have hpairwise := pairwise_iff_getElem.mp (pairwise_topLevelNodes (g := g))
    constructor
    · intro h
      refine ⟨hsource, ?_⟩
      have hless := hpairwise _ _ hlt' hlt h
      rwa [getElem_idxOf, getElem_idxOf] at hless
    · rintro ⟨-, hless⟩
      by_contra hnot
      rcases Nat.lt_or_eq_of_le (Nat.not_lt.mp hnot) with h | h
      · have hmore := hpairwise _ _ hlt hlt' h
        rw [getElem_idxOf, getElem_idxOf] at hmore
        exact Nat.lt_asymm hless hmore
      · rw [idxOf_inj htarget] at h
        exact Nat.ne_of_lt hless h.symm
  · rw [idxOf_append_of_notMem hsource]
    constructor
    · intro h
      omega
    · exact fun h => absurd h.1 hsource

/-- Constants come first exactly when those read by a node that only reads
constants were added before it. -/
theorem constantsFirst_iff (g : Graph) (hmirror : g.Mirrored)
    (hcount : g.Counted) {sorted : Graph}
    (h : g.performTopologicalSortAndCheckIsAcyclic = .ok sorted) :
    g.ConstantsFirst sorted.nodesInTopologicalOrder ↔
      g.ConstantsAddedFirst := by
  obtain ⟨⟨rest, hrest⟩, hothers⟩ := exists_order_of_sort hmirror hcount h
  have htop : ∀ {index}, (g.node index).isSome →
      (index ∈ g.topLevelNodes ↔ g.ReadsConstants index) := by
    intro index hlive
    rw [hmirror.mem_topLevelNodes]
    exact and_iff_right hlive
  constructor
  · intro hfirst source target hedge hconstant hreads
    have htarget := (htop (hmirror.isSome_target hedge)).mpr hreads
    have hlt := hfirst source target hedge hconstant
    rw [hrest, idxOf_lt_of_topLevel htarget] at hlt
    exact ⟨(htop (isSome_source hedge)).mp hlt.1, hlt.2⟩
  · intro hadded source target hedge hconstant
    by_cases htarget : target ∈ g.topLevelNodes
    · have hreads := (htop (hmirror.isSome_target hedge)).mp htarget
      obtain ⟨hsource, hlt⟩ := hadded source target hedge hconstant hreads
      rw [hrest, idxOf_lt_of_topLevel htarget]
      exact ⟨(htop (isSome_source hedge)).mpr hsource, hlt⟩
    · exact hothers source target hedge htarget

end Order

/-- A constant and a node that reads it, added in this order or the other. -/
def constantCall : GraphCall := .addNode "c" "Constant" [] [⟨1, "x"⟩]

def readerCall : GraphCall := .addNode "r" "Relu" [⟨1, "x"⟩] [⟨2, "y"⟩]

theorem constantsFirst_constant_added_first :
    ∃ g sorted, builtBy [constantCall, readerCall, .addEdge 0 1 0 0] = .ok g ∧
      g.performTopologicalSortAndCheckIsAcyclic = .ok sorted ∧
        g.ConstantsAddedFirst := by
  have hbuilt : (builtBy [constantCall, readerCall,
      .addEdge 0 1 0 0]).isOk = true := by decide +kernel
  have hsorted : (okValue _ hbuilt
      ).performTopologicalSortAndCheckIsAcyclic.isOk = true := by
    decide +kernel +revert
  refine ⟨_, _, eq_ok_okValue _ hbuilt, eq_ok_okValue _ hsorted, ?_⟩
  rw [← constantsFirst_iff _ (by decide +kernel +revert)
    (by decide +kernel +revert) (eq_ok_okValue _ hsorted)]
  decide +kernel +revert

/-- A constant that is added after the node that reads it is listed after
it. -/
theorem not_constantsFirst_constant_added_last :
    ∃ g sorted, builtBy [readerCall, constantCall, .addEdge 1 0 0 0] = .ok g ∧
      g.Mirrored ∧ g.Acyclic ∧
      g.performTopologicalSortAndCheckIsAcyclic = .ok sorted ∧
        ¬ g.ConstantsFirst sorted.nodesInTopologicalOrder := by
  have hbuilt : (builtBy [readerCall, constantCall,
      .addEdge 1 0 0 0]).isOk = true := by decide +kernel
  have hsorted : (okValue _ hbuilt
      ).performTopologicalSortAndCheckIsAcyclic.isOk = true := by
    decide +kernel +revert
  have horder : (okValue _ hbuilt).TopologicalOrder [1, 0] := by
    decide +kernel +revert
  exact ⟨_, _, eq_ok_okValue _ hbuilt, by decide +kernel +revert,
    acyclic_of_idxOf_lt [1, 0] horder.before, eq_ok_okValue _ hsorted,
    by decide +kernel +revert⟩

end Graph

end OnnxRuntime
