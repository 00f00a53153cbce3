/-
The topological sort of `Resolve`: it succeeds exactly on graphs without
cycles, and then lists every node after the sources of its edges.
-/
import OnnxRuntime.DagRuns
import OnnxRuntime.GraphConnections

namespace OnnxRuntime

open List

namespace Graph

open Relation DepthFirst

/-- Every edge is recorded at both of its ends. -/
def Mirrored (g : Graph) : Prop :=
  ∀ edge : DataEdge, edge.targetEnd ∈ g.outputEdgesOf edge.source ↔
    edge.sourceEnd ∈ g.inputEdgesOf edge.target

/-- Some edge leads from one node to the other. -/
def Edge (g : Graph) (source target : NodeIndex) : Prop :=
  ∃ edge : DataEdge, edge.source = source ∧ edge.target = target ∧
    g.HasEdge edge

def Acyclic (g : Graph) : Prop := ∀ node, ¬ TransGen g.Edge node node

/-- `num_of_nodes_` is the number of nodes that were not removed. -/
def Counted (g : Graph) : Prop := g.numOfNodes = g.liveNodes.length

instance decidableCounted (g : Graph) : Decidable g.Counted :=
  inferInstanceAs (Decidable (g.numOfNodes = g.liveNodes.length))

structure TopologicalOrder (g : Graph) (order : List NodeIndex) : Prop where
  nodup : order.Nodup
  mem_iff : ∀ index, index ∈ order ↔ (g.node index).isSome
  before : ∀ source target, g.Edge source target →
    order.idxOf source < order.idxOf target

variable {g : Graph}

section Edges

variable {index source target : NodeIndex} {e : EdgeEnd} {node : GraphNode}
  {order : List NodeIndex}

theorem isSome_of_mem_outputEdgesOf (h : e ∈ g.outputEdgesOf index) :
    (g.node index).isSome := by
  rw [outputEdgesOf] at h
  cases hnode : g.node index with
  | none =>
    rw [hnode] at h
    cases h
  | some node => rfl

theorem isSome_of_mem_inputEdgesOf (h : e ∈ g.inputEdgesOf index) :
    (g.node index).isSome := by
  rw [inputEdgesOf] at h
  cases hnode : g.node index with
  | none =>
    rw [hnode] at h
    cases h
  | some node => rfl

theorem edge_iff_output :
    g.Edge source target ↔ ∃ e ∈ g.outputEdgesOf source, e.node = target := by
  constructor
  · rintro ⟨edge, rfl, rfl, hedge⟩
    exact ⟨edge.targetEnd, hedge, rfl⟩
  · rintro ⟨e, he, rfl⟩
    exact ⟨⟨source, e.srcArgIndex, e.node, e.dstArgIndex⟩, rfl, rfl, he⟩

theorem Mirrored.edge_iff_input (h : g.Mirrored) :
    g.Edge source target ↔ ∃ e ∈ g.inputEdgesOf target, e.node = source := by
  constructor
  · rintro ⟨edge, rfl, rfl, hedge⟩
    exact ⟨edge.sourceEnd, (h edge).mp hedge, rfl⟩
  · rintro ⟨e, he, rfl⟩
    exact ⟨⟨e.node, e.srcArgIndex, target, e.dstArgIndex⟩, rfl, rfl,
      (h ⟨e.node, e.srcArgIndex, target, e.dstArgIndex⟩).mpr he⟩

/-- It is enough to look at the edge ends that are recorded. -/
theorem mirrored_iff : g.Mirrored ↔
    (∀ entry ∈ g.liveNodes, ∀ e ∈ entry.2.outputEdges,
      ⟨entry.1, e.srcArgIndex, e.dstArgIndex⟩ ∈ g.inputEdgesOf e.node) ∧
    ∀ entry ∈ g.liveNodes, ∀ e ∈ entry.2.inputEdges,
      ⟨entry.1, e.srcArgIndex, e.dstArgIndex⟩ ∈ g.outputEdgesOf e.node := by
  constructor
  · intro h
    constructor
    · rintro ⟨index, node⟩ hmem e he
      refine (h ⟨index, e.srcArgIndex, e.node, e.dstArgIndex⟩).mp ?_
      rw [outputEdgesOf, mem_liveNodes.mp hmem]
      exact he
    · rintro ⟨index, node⟩ hmem e he
      refine (h ⟨e.node, e.srcArgIndex, index, e.dstArgIndex⟩).mpr ?_
      rw [inputEdgesOf, mem_liveNodes.mp hmem]
      exact he
  · rintro ⟨hout, hin⟩ edge
    constructor
    · intro hedge
      obtain ⟨node, hnode⟩ :=
        Option.isSome_iff_exists.mp (isSome_of_mem_outputEdgesOf hedge)
      rw [outputEdgesOf, hnode] at hedge
      exact hout (edge.source, node) (mem_liveNodes.mpr hnode) _ hedge
    · intro hedge
      obtain ⟨node, hnode⟩ :=
        Option.isSome_iff_exists.mp (isSome_of_mem_inputEdgesOf hedge)
      rw [inputEdgesOf, hnode] at hedge
      exact hin (edge.target, node) (mem_liveNodes.mpr hnode) _ hedge

instance decidableMirrored (g : Graph) : Decidable g.Mirrored :=
  decidable_of_iff _ mirrored_iff.symm

theorem isSome_source (h : g.Edge source target) : (g.node source).isSome := by
  obtain ⟨e, he, -⟩ := edge_iff_output.mp h
  exact isSome_of_mem_outputEdgesOf he

theorem Mirrored.isSome_target (h : g.Mirrored) (hedge : g.Edge source target) :
    (g.node target).isSome := by
  obtain ⟨e, he, -⟩ := h.edge_iff_input.mp hedge
  exact isSome_of_mem_inputEdgesOf he

/-- The indices of the nodes. -/
def liveIndices (g : Graph) : List NodeIndex := g.liveNodes.map Prod.fst

theorem mem_liveIndices : index ∈ g.liveIndices ↔ (g.node index).isSome := by
  rw [liveIndices, List.mem_map, Option.isSome_iff_exists]
  constructor
  · rintro ⟨⟨i, node⟩, hmem, rfl⟩
    exact ⟨node, mem_liveNodes.mp hmem⟩
  · rintro ⟨node, hnode⟩
    exact ⟨(index, node), mem_liveNodes.mpr hnode, rfl⟩

theorem pairwise_liveIndices : g.liveIndices.Pairwise (· < ·) := by
  have heq : g.liveIndices = (range g.nodes.length).filter
      fun index => (g.node index).isSome := by
    rw [liveIndices, liveNodes, map_filterMap, ← filterMap_eq_filter]
    refine filterMap_congr fun index _ => ?_
    cases hnode : g.node index <;> simp [Option.guard, hnode]
  rw [heq]
  exact pairwise_lt_range.filter _

theorem nodup_liveIndices : g.liveIndices.Nodup :=
  pairwise_liveIndices.imp Nat.ne_of_lt

theorem outputEdges_eq_nil_iff (hnode : g.node index = some node) :
    node.outputEdges = [] ↔ ∀ target, ¬ g.Edge index target := by
  have heq : g.outputEdgesOf index = node.outputEdges := by
    rw [outputEdgesOf, hnode]
    rfl
  simp only [edge_iff_output, heq, not_exists, not_and,
    eq_nil_iff_forall_not_mem]
  exact ⟨fun h _ e he _ => h e he, fun h e he => h e.node e he rfl⟩

theorem Mirrored.inputEdges_eq_nil_iff (h : g.Mirrored)
    (hnode : g.node index = some node) :
    node.inputEdges = [] ↔ ∀ source, ¬ g.Edge source index := by
  have heq : g.inputEdgesOf index = node.inputEdges := by
    rw [inputEdgesOf, hnode]
    rfl
  simp only [h.edge_iff_input, heq, not_exists, not_and,
    eq_nil_iff_forall_not_mem]
  exact ⟨fun h _ e he _ => h e he, fun h e he => h e.node e he rfl⟩

/-- The indices of the nodes with a property. -/
theorem mem_map_filter_liveNodes {p : NodeIndex × GraphNode → Bool} :
    index ∈ (g.liveNodes.filter p).map Prod.fst ↔
      ∃ node, g.node index = some node ∧ p (index, node) := by
  simp only [List.mem_map, List.mem_filter, Prod.exists, mem_liveNodes]
  grind

theorem mem_leafNodes : index ∈ g.leafNodes ↔
      (g.node index).isSome ∧ ∀ target, ¬ g.Edge index target := by
  rw [leafNodes, mem_map_filter_liveNodes, Option.isSome_iff_exists]
  constructor
  · rintro ⟨node, hnode, hnil⟩
    exact ⟨⟨node, hnode⟩,
      (outputEdges_eq_nil_iff hnode).mp (decide_eq_true_eq.mp hnil)⟩
  · rintro ⟨⟨node, hnode⟩, hleaf⟩
    exact ⟨node, hnode,
      decide_eq_true_eq.mpr ((outputEdges_eq_nil_iff hnode).mpr hleaf)⟩

/-- The edges are those the nodes record. -/
theorem forall_edge_iff {p : NodeIndex → NodeIndex → Prop} :
    (∀ source target, g.Edge source target → p source target) ↔
      ∀ entry ∈ g.liveNodes, ∀ e ∈ entry.2.outputEdges, p entry.1 e.node := by
  constructor
  · rintro h ⟨index, node⟩ hnode e he
    refine h index e.node (edge_iff_output.mpr ⟨e, ?_, rfl⟩)
    rw [outputEdgesOf, mem_liveNodes.mp hnode]
    exact he
  · intro h source target hedge
    obtain ⟨e, he, rfl⟩ := edge_iff_output.mp hedge
    obtain ⟨node, hnode⟩ := Option.isSome_iff_exists.mp (isSome_source hedge)
    rw [outputEdgesOf, hnode] at he
    exact h (source, node) (mem_liveNodes.mpr hnode) e he

theorem topologicalOrder_iff : g.TopologicalOrder order ↔ order.Nodup ∧
      (∀ index ∈ order, (g.node index).isSome) ∧
      (∀ index ∈ g.liveIndices, index ∈ order) ∧
      ∀ entry ∈ g.liveNodes, ∀ e ∈ entry.2.outputEdges,
        order.idxOf entry.1 < order.idxOf e.node := by
  constructor
  · rintro ⟨hnodup, hmem, hbefore⟩
    exact ⟨hnodup, fun index => (hmem index).mp, fun index hindex =>
      (hmem index).mpr (mem_liveIndices.mp hindex),
      forall_edge_iff.mp hbefore⟩
  · rintro ⟨hnodup, hlive, hall, hbefore⟩
    exact ⟨hnodup, fun index => ⟨hlive index, fun hindex =>
      hall index (mem_liveIndices.mpr hindex)⟩, forall_edge_iff.mpr hbefore⟩

instance decidableTopologicalOrder (g : Graph) (order : List NodeIndex) :
    Decidable (g.TopologicalOrder order) :=
  decidable_of_iff _ topologicalOrder_iff.symm

/-- An order in which every edge points forwards rules out cycles. -/
theorem acyclic_of_idxOf_lt (order : List NodeIndex)
    (h : ∀ source target, g.Edge source target →
      order.idxOf source < order.idxOf target) : g.Acyclic := by
  intro node hcycle
  have hlt : ∀ {target}, TransGen g.Edge node target →
      order.idxOf node < order.idxOf target := by
    intro target hpath
    induction hpath with
    | single hedge => exact h _ _ hedge
    | tail _ hedge ih => exact ih.trans (h _ _ hedge)
  exact Nat.lt_irrefl _ (hlt hcycle)

/-- Where a walk ends with all leaves, it has ordered the graph. -/
theorem topologicalOrder_of_ordered (hmirror : g.Mirrored)
    (hacyclic : g.Acyclic) (hordered : Ordered g.Edge order)
    (hnodup : order.Nodup) (hlive : ∀ index ∈ order, (g.node index).isSome)
    (hleaves : ∀ index ∈ g.leafNodes, index ∈ order) :
    g.TopologicalOrder order := by
  have hall : ∀ index ∈ g.liveIndices, index ∈ order := by
    refine hordered.mem_of_leaves (fun source target hedge => ?_) hacyclic ?_
    · exact mem_liveIndices.mpr (hmirror.isSome_target hedge)
    · exact fun index hindex hleaf => hleaves index
        (mem_leafNodes.mpr ⟨mem_liveIndices.mp hindex, hleaf⟩)
  refine ⟨hnodup, fun index => ⟨hlive index, fun hindex =>
    hall index (mem_liveIndices.mpr hindex)⟩, fun source target hedge => ?_⟩
  exact hordered.idxOf_lt (hall target
    (mem_liveIndices.mpr (hmirror.isSome_target hedge))) hedge

end Edges

section Walk

def notAcyclic : Failure := .status .fail "Error: the graph is not acyclic."

variable {outputNodes added stack : List NodeIndex} {edges : EdgeSet}
  {index : NodeIndex}

theorem pushInputNodes_eq_ok {stack' : List NodeIndex}
    (h : pushInputNodes outputNodes added stack edges = .ok stack') :
    (∀ e ∈ edges, e.node ∉ outputNodes) ∧ ∃ pushed, stack' = pushed ++ stack ∧
      ∀ node, node ∈ pushed ↔ (∃ e ∈ edges, e.node = node) ∧ node ∉ added := by
  induction edges generalizing stack with
  | nil =>
    cases h
    exact ⟨by simp, [], rfl, by simp⟩
  | cons edge edges ih =>
    rw [pushInputNodes] at h
    split at h
    · cases h
    · rename_i hnot
      split at h
      · obtain ⟨hclear, pushed, rfl, hpushed⟩ := ih h
        refine ⟨forall_mem_cons.mpr ⟨hnot, hclear⟩, pushed, rfl, ?_⟩
        intro node
        grind
      · obtain ⟨hclear, pushed, rfl, hpushed⟩ := ih h
        refine ⟨forall_mem_cons.mpr ⟨hnot, hclear⟩,
          pushed ++ [edge.node], by simp, ?_⟩
        intro node
        rw [mem_append]
        grind

theorem pushInputNodes_eq_error {failure : Failure}
    (h : pushInputNodes outputNodes added stack edges = .error failure) :
    failure = notAcyclic ∧ ∃ e ∈ edges, e.node ∈ outputNodes := by
  induction edges generalizing stack with
  | nil => cases h
  | cons edge edges ih =>
    rw [pushInputNodes] at h
    split at h
    · rename_i hmem
      cases h
      exact ⟨rfl, edge, mem_cons_self, hmem⟩
    · split at h <;>
      · obtain ⟨hfailure, e, he, hmem⟩ := ih h
        exact ⟨hfailure, e, mem_cons_of_mem _ he, hmem⟩

/-- The marks of the walk say which nodes are open and which are done. -/
structure Sorts (g : Graph) (walk : TopologicalWalk)
    (stack : List (NodeIndex × Bool)) : Prop where
  stack_eq : walk.stack = DepthFirst.nodes stack
  walks : DepthFirst.Walk g.Edge walk.order stack
  processed : ∀ index, index ∈ walk.processed ↔ index ∈ walk.order
  outputNodes : ∀ index, index ∈ walk.outputNodes ↔ index ∈ markers stack
  added : ∀ index, index ∈ walk.added ↔ index ∈ walk.order ++ markers stack
  live : ∀ index ∈ walk.order ++ walk.stack, (g.node index).isSome

namespace Sorts

variable {order processed outputNodes added rest : List NodeIndex}
  {current : NodeIndex} {stack : List (NodeIndex × Bool)}

section

variable
    (h : Sorts g ⟨order, processed, outputNodes, added, current :: rest⟩ stack)
include h

theorem exists_top : ∃ flag tail, stack = (current, flag) :: tail ∧
      rest = DepthFirst.nodes tail := by
  have heq := h.stack_eq
  cases stack with
  | nil => cases heq
  | cons top tail =>
    cases heq
    exact ⟨top.2, tail, rfl, rfl⟩

theorem skip (hdone : current ∈ processed) :
    ∃ stack', Sorts g ⟨order, processed, outputNodes, added, rest⟩ stack' := by
  obtain ⟨flag, tail, rfl, rfl⟩ := h.exists_top
  have hmem := (h.processed current).mp hdone
  cases flag with
  | true =>
    refine absurd ?_ (disjoint_of_nodup_append h.walks.nodup hmem)
    exact mem_cons_self
  | false =>
    exact ⟨tail, rfl, h.walks.skip hmem, h.processed, h.outputNodes, h.added,
      fun index hindex => h.live index (by simp at hindex ⊢; tauto)⟩

theorem leave (hopen : current ∉ processed) (hadded : current ∈ added) :
    ∃ stack', Sorts g ⟨order ++ [current], current :: processed,
      outputNodes.filter (· ≠ current), added, rest⟩ stack' := by
  obtain ⟨flag, tail, rfl, rfl⟩ := h.exists_top
  have hmem := (h.added current).mp hadded
  rw [mem_append, ← h.processed] at hmem
  have hmarker := hmem.resolve_left hopen
  cases flag with
  | false => exact absurd rfl (h.walks.transGen_of_mem_markers hmarker).1
  | true =>
    have hnodup := h.walks.nodup
    have hmarkers : markers ((current, true) :: tail) =
      current :: markers tail := rfl
    rw [hmarkers, nodup_middle, nodup_cons] at hnodup
    refine ⟨tail, rfl, h.walks.leave, ?_, ?_, ?_, ?_⟩
    · intro index
      have hprocessed := h.processed index
      simp only [mem_cons, mem_append, not_mem_nil, or_false] at hprocessed ⊢
      rw [hprocessed, or_comm]
    · intro index
      have hout := h.outputNodes index
      rw [hmarkers, mem_cons] at hout
      have hne : index ∈ markers tail → index ≠ current := fun hindex heq =>
        hnodup.1 (mem_append_right _ (heq ▸ hindex))
      simp only [List.mem_filter, decide_eq_true_eq] at hout ⊢
      tauto
    · intro index
      rw [h.added, append_assoc]
      rfl
    · intro index hindex
      exact h.live index (by simp at hindex ⊢; tauto)

end

section

variable (hmirror : g.Mirrored)
    (h : Sorts g ⟨order, processed, outputNodes, added, current :: rest⟩ stack)
    (hadded : current ∉ added)
include hmirror h hadded

theorem enter {node : GraphNode} (hnode : g.node current = some node)
    {pushed : List NodeIndex}
    (hpush : pushInputNodes (current :: outputNodes) added (current :: rest)
      node.inputEdges = .ok pushed) :
    ∃ stack', Sorts g ⟨order, processed, current :: outputNodes,
      current :: added, pushed⟩ stack' := by
  obtain ⟨flag, tail, rfl, rfl⟩ := h.exists_top
  rw [h.added] at hadded
  cases flag with
  | true =>
    exact absurd (mem_append_right _ mem_cons_self) hadded
  | false =>
    obtain ⟨hclear, new, rfl, hnew⟩ := pushInputNodes_eq_ok hpush
    have hedge : ∀ source, g.Edge source current ↔
        ∃ e ∈ node.inputEdges, e.node = source := by
      intro source
      rw [hmirror.edge_iff_input, inputEdgesOf, hnode]
      rfl
    have hout : ∀ index, index ∈ current :: outputNodes ↔
        index ∈ current :: markers tail := by
      intro index
      rw [mem_cons, mem_cons]
      exact or_congr_right (h.outputNodes index)
    have hmarkers : markers (new.map (·, false) ++ (current, true) :: tail) =
        current :: markers tail := by
      simp [markers]
    refine ⟨new.map (·, false) ++ (current, true) :: tail, ?_,
      h.walks.enter hadded ?_ ?_, h.processed, ?_, ?_, ?_⟩
    · simp
    · intro index hindex
      obtain ⟨⟨e, he, heq⟩, -⟩ := (hnew index).mp hindex
      refine ⟨(hedge index).mpr ⟨e, he, heq⟩, ?_⟩
      rw [← hout, ← heq]
      exact hclear e he
    · intro source hsource
      obtain ⟨e, he, heq⟩ := (hedge source).mp hsource
      -- A source with a mark that is not open was left before.
      by_cases hmark : source ∈ added
      · left
        rw [h.added, mem_append] at hmark
        refine hmark.resolve_right fun hmarker => hclear e he ?_
        rw [hout, heq]
        exact mem_cons_of_mem _ hmarker
      · exact .inr ((hnew source).mpr ⟨⟨e, he, heq⟩, hmark⟩)
    · rw [hmarkers]
      exact hout
    · intro index
      have hindex := h.added index
      rw [hmarkers]
      simp only [mem_cons, mem_append] at hindex ⊢
      tauto
    · intro index hindex
      simp only [mem_append] at hindex
      rcases hindex with hindex | hindex | hindex
      · exact h.live index (mem_append_left _ hindex)
      · obtain ⟨⟨e, he, heq⟩, -⟩ := (hnew index).mp hindex
        exact isSome_source ((hedge index).mpr ⟨e, he, heq⟩)
      · exact h.live index (mem_append_right _ hindex)

/-- An open node among the sources closes a cycle. -/
theorem not_acyclic {node : GraphNode} (hnode : g.node current = some node)
    {e : EdgeEnd} (he : e ∈ node.inputEdges)
    (hmem : e.node ∈ current :: outputNodes) :
    ¬ g.Acyclic := by
  obtain ⟨flag, tail, rfl, rfl⟩ := h.exists_top
  have hedge : g.Edge e.node current := by
    refine hmirror.edge_iff_input.mpr ⟨e, ?_, rfl⟩
    rw [inputEdgesOf, hnode]
    exact he
  intro hacyclic
  rcases mem_cons.mp hmem with heq | hmem
  · rw [heq] at hedge
    exact hacyclic current (.single hedge)
  · rw [h.outputNodes] at hmem
    rw [h.added] at hadded
    cases flag with
    | true =>
      exact hadded (mem_append_right _ mem_cons_self)
    | false =>
      exact hacyclic e.node
        (.head hedge (h.walks.transGen_of_mem_markers hmem).2)

end

end Sorts

/-- The walk orders everything it started with, or there is a cycle. -/
theorem topologicalWalk_spec (hmirror : g.Mirrored) (walk : TopologicalWalk)
    {stack : List (NodeIndex × Bool)} (h : Sorts g walk stack) :
    (∃ final, g.topologicalWalk walk = .ok final ∧ Sorts g final [] ∧
      ∀ index ∈ walk.order ++ walk.stack, index ∈ final.order) ∨
    (g.topologicalWalk walk = .error notAcyclic ∧ ¬ g.Acyclic) := by
  fun_induction topologicalWalk g walk generalizing stack with
  | case1 order processed outputNodes added =>
    have hstack : stack = [] := map_eq_nil_iff.mp h.stack_eq.symm
    exact .inl ⟨_, rfl, hstack ▸ h, by simp⟩
  | case2 order processed outputNodes added current rest hdone ih =>
    obtain ⟨stack', h'⟩ := h.skip hdone
    refine (ih h').imp_left (Exists.imp fun final => And.imp_right
      (And.imp_right fun hall index hindex => ?_))
    have hmem := (h.processed current).mp hdone
    exact hall index (by grind)
  | case3 order processed outputNodes added current rest hopen hadded ih =>
    obtain ⟨stack', h'⟩ := h.leave hopen hadded
    rw [@List.unattach_filter _ _ _ _ (fun index => decide (index ≠ current))
      fun _ _ => rfl, List.unattach_attach] at ih
    refine (ih h').imp_left (Exists.imp fun final => And.imp_right
      (And.imp_right fun hall index hindex => ?_))
    exact hall index (by grind)
  | case4 order processed outputNodes added current rest hopen hadded hout =>
    obtain ⟨node, hnode⟩ :=
      Option.isSome_iff_exists.mp (h.live current (by simp))
    rw [Graph.node, getElem?_eq_none hout] at hnode
    cases hnode
  | case5 order processed outputNodes added current rest hopen hadded hin
      hnode ih =>
      have hlive := h.live current (by simp)
      rw [hnode] at hlive
      cases hlive
  | case6 order processed outputNodes added current rest hopen hadded hin
      node hnode failure hpush =>
      obtain ⟨rfl, e, he, hmem⟩ := pushInputNodes_eq_error hpush
      exact .inr ⟨rfl, h.not_acyclic hmirror hadded hnode he hmem⟩
  | case7 order processed outputNodes added current rest hopen hadded hin
      node hnode pushed hpush ih =>
      obtain ⟨stack', h'⟩ := h.enter hmirror hadded hnode hpush
      refine (ih h').imp_left (Exists.imp fun final => And.imp_right
        (And.imp_right fun hall index hindex => ?_))
      obtain ⟨-, new, rfl, -⟩ := pushInputNodes_eq_ok hpush
      exact hall index (by grind)

/-- The walk starts with nodes without sources listed and others to be
entered. -/
theorem sorts_roots {roots starts : List NodeIndex} (hnodup : roots.Nodup)
    (hroots : ∀ index ∈ roots, (g.node index).isSome ∧
      ∀ source, ¬ g.Edge source index)
    (hstarts : ∀ index ∈ starts, (g.node index).isSome) :
    Sorts g { order := roots, processed := roots, added := roots,
              stack := starts } (starts.map (·, false)) := by
  have hnone : markers (starts.map (·, false)) = [] := by
    simp [markers]
  refine ⟨(nodes_map _).symm, Walk.start hnodup fun index hindex =>
    (hroots index hindex).2, fun _ => Iff.rfl, ?_, ?_, ?_⟩
  · rw [hnone]
    exact fun _ => Iff.rfl
  · rw [hnone, append_nil]
    exact fun _ => Iff.rfl
  · intro index hindex
    rcases mem_append.mp hindex with hindex | hindex
    · exact (hroots index hindex).1
    · exact hstarts index hindex

theorem nodup_topLevelNodes : g.topLevelNodes.Nodup :=
  nodup_liveIndices.sublist (filter_sublist.map _)

theorem Mirrored.mem_topLevelNodes (hmirror : g.Mirrored) :
    index ∈ g.topLevelNodes ↔ (g.node index).isSome ∧
      ∀ source, g.Edge source index → g.isConstant source := by
  rw [topLevelNodes, mem_map_filter_liveNodes, Option.isSome_iff_exists]
  simp only [hmirror.edge_iff_input, inputEdgesOf, List.all_eq_true]
  constructor
  · rintro ⟨node, hnode, hall⟩
    refine ⟨⟨node, hnode⟩, ?_⟩
    rintro source ⟨e, he, rfl⟩
    rw [hnode] at he
    exact hall e he
  · rintro ⟨⟨node, hnode⟩, hall⟩
    refine ⟨node, hnode, fun e he => hall e.node ⟨e, ?_, rfl⟩⟩
    rw [hnode]
    exact he

theorem isSome_of_mem_leafNodes (h : index ∈ g.leafNodes.reverse) :
    (g.node index).isSome :=
  (mem_leafNodes.mp (mem_reverse.mp h)).1

/-- Without constants the nodes listed first have no sources. -/
theorem sorts_start (hmirror : g.Mirrored)
    (hconstant : ∀ index node, g.node index = some node →
      node.opType ≠ "Constant") :
    Sorts g { order := g.topLevelNodes, processed := g.topLevelNodes,
              added := g.topLevelNodes, stack := g.leafNodes.reverse }
      (g.leafNodes.reverse.map (·, false)) := by
  refine sorts_roots nodup_topLevelNodes (fun index hindex => ?_)
    fun index => isSome_of_mem_leafNodes
  obtain ⟨hlive, hall⟩ := hmirror.mem_topLevelNodes.mp hindex
  refine ⟨hlive, fun source hedge => ?_⟩
  obtain ⟨node, hnode⟩ := Option.isSome_iff_exists.mp (isSome_source hedge)
  have hisConstant := hall source hedge
  rw [isConstant, hnode] at hisConstant
  exact hconstant source node hnode (decide_eq_true_eq.mp hisConstant)

/-- An order is complete exactly when its length is the number of nodes. -/
theorem Counted.length_eq_iff (hcount : g.Counted) {order : List NodeIndex}
    (hnodup : order.Nodup) (hlive : ∀ index ∈ order, (g.node index).isSome) :
    (0 ≤ g.numOfNodes ∧ g.numOfNodes = order.length) ↔
      ∀ index ∈ g.liveIndices, index ∈ order := by
  have hlen : g.numOfNodes = g.liveIndices.length := by
    rw [hcount, liveIndices, length_map]
  have hsub := subperm_of_subset hnodup fun index hindex =>
    mem_liveIndices.mpr (hlive index hindex)
  rw [hlen]
  constructor
  · rintro ⟨-, heq⟩
    have hperm := hsub.perm_of_length_le (Int.ofNat_inj.mp heq).le
    exact fun index hindex => hperm.mem_iff.mpr hindex
  · intro hsubset
    have hperm := hsub.antisymm (subperm_of_subset nodup_liveIndices hsubset)
    rw [hperm.length_eq]
    exact ⟨Int.natCast_nonneg _, rfl⟩

/-- The sort returns OK exactly on graphs without cycles, and the order it
leaves then is one of all nodes with every edge pointing forwards. -/
theorem performTopologicalSortAndCheckIsAcyclic_correct (g : Graph)
    (hmirror : g.Mirrored) (hcount : g.Counted)
    (hconstant : ∀ index node, g.node index = some node →
      node.opType ≠ "Constant") :
    (g.Acyclic → ∃ order, g.TopologicalOrder order ∧
      g.performTopologicalSortAndCheckIsAcyclic =
        .ok { g with nodesInTopologicalOrder := order }) ∧
    (¬ g.Acyclic →
      g.performTopologicalSortAndCheckIsAcyclic = .error notAcyclic) := by
  rw [performTopologicalSortAndCheckIsAcyclic]
  rcases topologicalWalk_spec hmirror _ (sorts_start hmirror hconstant) with
    ⟨final, hfinal, hsorts, hall⟩ | ⟨herror, hcycle⟩
  · rw [hfinal]
    have hnodup : final.order.Nodup := hsorts.walks.nodup.of_append_left
    have hlive : ∀ index ∈ final.order, (g.node index).isSome :=
      fun index hindex => hsorts.live index (mem_append_left _ hindex)
    have hlength := hcount.length_eq_iff hnodup hlive
    constructor
    · intro hacyclic
      have horder := topologicalOrder_of_ordered hmirror hacyclic
        hsorts.walks.ordered hnodup hlive fun index hindex =>
          hall index (mem_append_right _ (mem_reverse.mpr hindex))
      refine ⟨final.order, horder, if_pos (hlength.mpr ?_)⟩
      exact fun index hindex =>
        (horder.mem_iff index).mpr (mem_liveIndices.mp hindex)
    · intro hcycle
      refine if_neg fun hcomplete => hcycle fun node hpath => ?_
      have hmem : node ∈ final.order := by
        apply hlength.mp hcomplete
        obtain ⟨target, hedge, -⟩ := TransGen.head'_iff.mp hpath
        exact mem_liveIndices.mpr (isSome_source hedge)
      exact hsorts.walks.ordered.not_transGen hmem hpath
  · rw [herror]
    exact ⟨fun hacyclic => absurd hacyclic hcycle, fun _ => rfl⟩

end Walk

/-- Two parallel edges, an edge to a leaf and a node that was removed. -/
def parallelGraph : Graph where
  nodes := [
    some { opType := "Split", inputDefs := [⟨0, "x"⟩],
           outputDefs := [⟨1, "a"⟩, ⟨2, "b"⟩],
           outputEdges := [⟨3, 0, 0⟩, ⟨3, 1, 1⟩] },
    none,
    some { opType := "Relu", inputDefs := [⟨3, "c"⟩], outputDefs := [⟨4, "d"⟩],
           inputEdges := [⟨3, 0, 0⟩] },
    some { opType := "Add", inputDefs := [⟨1, "a"⟩, ⟨2, "b"⟩],
           outputDefs := [⟨3, "c"⟩], inputEdges := [⟨0, 0, 0⟩, ⟨0, 1, 1⟩],
           outputEdges := [⟨2, 0, 0⟩] }]
  numOfNodes := 3
  nodeArgs := []

theorem performTopologicalSort_parallelGraph :
    parallelGraph.Acyclic ∧ ∃ order, parallelGraph.TopologicalOrder order ∧
      parallelGraph.performTopologicalSortAndCheckIsAcyclic =
        .ok { parallelGraph with nodesInTopologicalOrder := order } := by
  have hconstant : ∀ entry ∈ parallelGraph.liveNodes,
      entry.2.opType ≠ "Constant" := by decide
  have hcorrect := performTopologicalSortAndCheckIsAcyclic_correct parallelGraph
    (by decide) (by decide) fun index node hnode =>
      hconstant (index, node) (mem_liveNodes.mpr hnode)
  have hok : parallelGraph.performTopologicalSortAndCheckIsAcyclic.isOk =
      true := by decide +kernel
  have hacyclic : parallelGraph.Acyclic := by
    by_contra hcycle
    rw [hcorrect.2 hcycle] at hok
    cases hok
  exact ⟨hacyclic, hcorrect.1 hacyclic⟩

end Graph

end OnnxRuntime
