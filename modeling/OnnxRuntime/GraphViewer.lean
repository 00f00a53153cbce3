/-
The order in which a graph is run: `GraphViewer` walks from the leaves against
the edges and lists the nodes as it leaves them.
-/
import OnnxRuntime.TopologicalSort

namespace OnnxRuntime

open List

variable {index : NodeIndex} {node : GraphNode}

/-- What the constructor of `GraphViewer` computes. -/
structure ViewerOrder where
  nodesInTopologicalOrder : List NodeIndex
  rootNodes : List NodeIndex
deriving Repr, DecidableEq

namespace Graph

open Relation DepthFirst

variable (g : Graph)

/-- The state of `ReverseDFSFrom`; the top of the stack is the first entry,
and an entry with `true` is a node to leave. -/
structure ReverseWalk where
  order : List NodeIndex := []
  visited : List NodeIndex := []
  stack : List (NodeIndex × Bool)

/-- `InputNodesBegin` to `InputNodesEnd`, sorted with `NodeCompare`. -/
def sortedInputNodes (node : GraphNode) : List NodeIndex :=
  (node.inputEdges.map (·.node)).insertionSort (· ≤ ·)

/-- The inputs that a node pushes when it is entered. -/
def unvisitedInputs (visited : List NodeIndex) (node : GraphNode) :
    List (NodeIndex × Bool) :=
  (((sortedInputNodes node).filter (· ∉ visited)).reverse).map (·, false)

theorem length_unvisitedInputs (visited : List NodeIndex) (node : GraphNode) :
    (unvisitedInputs visited node).length ≤ node.inputEdges.length := by
  have hfilter := length_filter_le (· ∉ visited) (sortedInputNodes node)
  rw [unvisitedInputs, length_map, length_reverse]
  rw [sortedInputNodes, length_insertionSort, length_map] at hfilter
  exact hfilter

/-- `ReverseDFSFrom` with the callbacks of `GraphViewer`: nothing on entering
a node, on leaving it an entry in the order. -/
def reverseDFSFrom (walk : ReverseWalk) : Except Failure ReverseWalk :=
  match walk with
  | ⟨order, visited, []⟩ => .ok ⟨order, visited, []⟩
  | ⟨order, visited, (current, true) :: stack⟩ =>
    reverseDFSFrom ⟨order ++ [current], visited, stack⟩
  | ⟨order, visited, (current, false) :: stack⟩ =>
    if current ∈ visited then reverseDFSFrom ⟨order, visited, stack⟩
    else
      match _hnode : g.node current with
      | none => .error .nullDereference
      | some node =>
        reverseDFSFrom ⟨order, current :: visited,
          unvisitedInputs (current :: visited) node ++ (current, true) :: stack⟩
termination_by walk.stack.length + g.pushesLeft walk.visited
decreasing_by
  all_goals simp only [List.length_cons, List.length_append]
  · omega
  · omega
  · have hleft := g.pushesLeft_cons _hnode ‹_›
    have hlength := length_unvisitedInputs (current :: visited) node
    omega

/-- The constructor of `GraphViewer`. -/
def graphViewer : Except Failure ViewerOrder := do
  let walk ← g.reverseDFSFrom { stack := (g.leafNodes.map (·, false)).reverse }
  return {
    nodesInTopologicalOrder := walk.order
    rootNodes := (g.liveNodes.filter fun entry =>
      entry.2.inputEdges = []).map Prod.fst }

variable {g}

section Order

/-- In a graph without cycles the marks of the walk are those of a depth-first
walk. -/
structure Traces (g : Graph) (walk : ReverseWalk) : Prop where
  walks : DepthFirst.Walk g.Edge walk.order walk.stack
  visited : ∀ index, index ∈ walk.visited ↔
    index ∈ walk.order ++ markers walk.stack

theorem mem_sortedInputNodes (hmirror : g.Mirrored) {current : NodeIndex}
    (hnode : g.node current = some node) :
    index ∈ sortedInputNodes node ↔ g.Edge index current := by
  rw [sortedInputNodes, mem_insertionSort, mem_map,
    hmirror.edge_iff_input, inputEdgesOf, hnode]
  rfl

namespace Traces

variable {order visited : List NodeIndex} {current : NodeIndex}
  {stack : List (NodeIndex × Bool)}

theorem leave (h : Traces g ⟨order, visited, (current, true) :: stack⟩) :
    Traces g ⟨order ++ [current], visited, stack⟩ where
  walks := h.walks.leave
  visited := by
    intro index
    rw [h.visited, append_assoc]
    rfl

section

variable (h : Traces g ⟨order, visited, (current, false) :: stack⟩)
include h

/-- A node that is to be entered again was left. -/
theorem mem_order (hvisited : current ∈ visited) : current ∈ order := by
  rw [h.visited, mem_append] at hvisited
  refine hvisited.resolve_right fun hopen => ?_
  exact (h.walks.transGen_of_mem_markers hopen).1 rfl

theorem skip (hvisited : current ∈ visited) :
    Traces g ⟨order, visited, stack⟩ where
  walks := h.walks.skip (h.mem_order hvisited)
  visited := h.visited

end

theorem enter (hmirror : g.Mirrored) (hacyclic : g.Acyclic)
    (h : Traces g ⟨order, visited, (current, false) :: stack⟩)
    (hnew : current ∉ visited)
    (hnode : g.node current = some node) :
    Traces g ⟨order, current :: visited,
      unvisitedInputs (current :: visited) node ++
        (current, true) :: stack⟩ := by
  have hpushed : ∀ index, index ∈ ((sortedInputNodes node).filter
      (· ∉ current :: visited)).reverse ↔
      g.Edge index current ∧ index ∉ current :: visited := by
    intro index
    rw [mem_reverse, mem_filter, mem_sortedInputNodes hmirror hnode,
      decide_eq_true_eq]
  constructor
  · refine h.walks.enter (fun hmem => hnew ((h.visited current).mpr hmem)) ?_ ?_
    · intro index hindex
      obtain ⟨hedge, hfresh⟩ := (hpushed index).mp hindex
      refine ⟨hedge, fun hmem => hfresh ?_⟩
      rcases mem_cons.mp hmem with rfl | hmem
      · exact mem_cons_self
      · exact mem_cons_of_mem _
          ((h.visited index).mpr (mem_append_right _ hmem))
    · intro source hedge
      by_cases hfresh : source ∈ current :: visited
      · left
        rcases mem_cons.mp hfresh with rfl | hfresh
        · exact absurd (.single hedge) (hacyclic source)
        · rw [h.visited, mem_append] at hfresh
          refine hfresh.resolve_right fun hopen => ?_
          exact hacyclic source
            (.head hedge (h.walks.transGen_of_mem_markers hopen).2)
      · exact .inr ((hpushed source).mpr ⟨hedge, hfresh⟩)
  · intro index
    have hvisited := h.visited index
    simp only [unvisitedInputs, markers, mem_cons] at hvisited ⊢
    rw [hvisited]
    simp [filter_append]
    tauto

end Traces

/-- The walk returns; without cycles it has left what it started with, every
node after the sources of its edges. -/
theorem reverseDFSFrom_spec (hmirror : g.Mirrored) (walk : ReverseWalk)
    (hlive : ∀ index ∈ walk.order ++ DepthFirst.nodes walk.stack,
      (g.node index).isSome) :
    ∃ final, g.reverseDFSFrom walk = .ok final ∧
      (∀ index ∈ final.order, (g.node index).isSome) ∧
      (g.Acyclic → Traces g walk → Traces g final ∧ final.stack = [] ∧
        ∀ index ∈ walk.order ++ DepthFirst.nodes walk.stack,
          index ∈ final.order) := by
  fun_induction reverseDFSFrom g walk with
  | case1 order visited =>
    refine ⟨_, rfl, fun index hindex => ?_, fun _ h => ⟨h, rfl, ?_⟩⟩
    · exact hlive index (mem_append_left _ hindex)
    · simp [DepthFirst.nodes]
  | case2 order visited current stack ih =>
    simp only [nodes_cons, mem_append, mem_cons] at hlive ih ⊢
    obtain ⟨final, hfinal, hin, hout⟩ := ih fun index hindex =>
      hlive index (by tauto)
    refine ⟨final, hfinal, hin, fun hacyclic h => ?_⟩
    obtain ⟨htraces, hempty, hall⟩ := hout hacyclic h.leave
    exact ⟨htraces, hempty, fun index hindex => hall index (by tauto)⟩
  | case3 order visited current stack hvisited ih =>
    simp only [nodes_cons, mem_append, mem_cons] at hlive ih ⊢
    obtain ⟨final, hfinal, hin, hout⟩ := ih fun index hindex =>
      hlive index (by tauto)
    refine ⟨final, hfinal, hin, fun hacyclic h => ?_⟩
    obtain ⟨htraces, hempty, hall⟩ := hout hacyclic (h.skip hvisited)
    have hleft := h.mem_order hvisited
    refine ⟨htraces, hempty, ?_⟩
    rintro index (hindex | rfl | hindex)
    · exact hall index (.inl hindex)
    · exact hall index (.inl hleft)
    · exact hall index (.inr hindex)
  | case4 order visited current stack hvisited hnode =>
    have hcurrent := hlive current (by simp)
    rw [hnode] at hcurrent
    cases hcurrent
  | case5 order visited current stack hvisited node hnode ih =>
    simp only [nodes_cons, nodes_append, mem_append, mem_cons] at hlive ih ⊢
    obtain ⟨final, hfinal, hin, hout⟩ := ih (by
      rintro index (hindex | hindex | rfl | hindex)
      · exact hlive index (.inl hindex)
      · rw [unvisitedInputs, nodes_map, mem_reverse,
          mem_filter, mem_sortedInputNodes hmirror hnode] at hindex
        exact isSome_source hindex.1
      · exact hlive index (.inr (.inl rfl))
      · exact hlive index (.inr (.inr hindex)))
    refine ⟨final, hfinal, hin, fun hacyclic h => ?_⟩
    obtain ⟨htraces, hempty, hall⟩ :=
      hout hacyclic (h.enter hmirror hacyclic hvisited hnode)
    exact ⟨htraces, hempty, fun index hindex => hall index (by tauto)⟩

end Order

section Determinism

variable {order visited : List NodeIndex} {front back : List (NodeIndex × Bool)}

/-- What lies deeper in the stack is walked afterwards. -/
theorem reverseDFSFrom_append :
    g.reverseDFSFrom ⟨order, visited, front ++ back⟩ =
      (g.reverseDFSFrom ⟨order, visited, front⟩).bind fun walk =>
        g.reverseDFSFrom ⟨walk.order, walk.visited, back⟩ := by
  generalize hwalk : (⟨order, visited, front⟩ : ReverseWalk) = walk
  fun_induction reverseDFSFrom g walk generalizing order visited front with
  | case1 order' visited' =>
    cases hwalk
    rfl
  | case2 order' visited' current stack ih =>
    cases hwalk
    rw [cons_append, reverseDFSFrom, ih rfl]
  | case3 order' visited' current stack hvisited ih =>
    cases hwalk
    rw [cons_append, reverseDFSFrom, if_pos hvisited, ih rfl]
  | case4 order' visited' current stack hvisited hnode =>
    cases hwalk
    rw [cons_append, reverseDFSFrom, if_neg hvisited]
    split
    · rfl
    · rename_i node hsome
      rw [hnode] at hsome
      cases hsome
  | case5 order' visited' current stack hvisited node hnode ih =>
    cases hwalk
    rw [cons_append, reverseDFSFrom, if_neg hvisited]
    split
    · rename_i hnone
      rw [hnode] at hnone
      cases hnone
    · rename_i other hother
      rw [hnode] at hother
      cases hother
      rw [← cons_append, ← append_assoc, ih rfl]

theorem mem_visited_of_reverseDFSFrom {walk final : ReverseWalk}
    (h : g.reverseDFSFrom walk = .ok final)
    (hmem : index ∈ walk.visited ∨ (index, false) ∈ walk.stack) :
    index ∈ final.visited := by
  fun_induction reverseDFSFrom g walk with
  | case1 order visited =>
    cases h
    simpa using hmem
  | case2 order visited current stack ih => exact ih h (by simpa using hmem)
  | case3 order visited current stack hvisited ih =>
    refine ih h ?_
    simp only [mem_cons, Prod.mk.injEq, and_true] at hmem ⊢
    rcases hmem with hmem | rfl | hmem
    · exact .inl hmem
    · exact .inl hvisited
    · exact .inr hmem
  | case4 order visited current stack hvisited hnode => cases h
  | case5 order visited current stack hvisited node hnode ih =>
    refine ih h ?_
    simp only [mem_cons, mem_append, Prod.mk.injEq] at hmem ⊢
    tauto

/-- An entry below one for the same node changes nothing. -/
theorem reverseDFSFrom_append_cons
    (hmem : (index, false) ∈ front) :
    g.reverseDFSFrom ⟨order, visited, front ++ (index, false) :: back⟩ =
      g.reverseDFSFrom ⟨order, visited, front ++ back⟩ := by
  rw [reverseDFSFrom_append, reverseDFSFrom_append]
  cases hfront : g.reverseDFSFrom ⟨order, visited, front⟩ with
  | error failure => rfl
  | ok walk =>
    have hvisited := mem_visited_of_reverseDFSFrom hfront (.inr hmem)
    rw [Except.bind, Except.bind, reverseDFSFrom, if_pos hvisited]

theorem reverseDFSFrom_dedup (inputs : List NodeIndex) :
    g.reverseDFSFrom ⟨order, visited, inputs.reverse.map (·, false) ++ back⟩ =
      g.reverseDFSFrom
        ⟨order, visited, inputs.dedup.reverse.map (·, false) ++ back⟩ := by
  induction inputs generalizing back with
  | nil => rfl
  | cons index rest ih =>
    rw [reverse_cons, map_append, append_assoc]
    by_cases hmem : index ∈ rest
    · rw [dedup_cons_of_mem hmem, ← ih]
      exact reverseDFSFrom_append_cons (by simpa using hmem)
    · rw [dedup_cons_of_notMem hmem, reverse_cons, map_append, append_assoc]
      exact ih

/-- Sorted lists of the same nodes differ in repetitions only. -/
theorem dedup_eq_of_mem_iff {inputs inputs' : List NodeIndex}
    (h : inputs.Pairwise (· ≤ ·)) (h' : inputs'.Pairwise (· ≤ ·))
    (hmem : ∀ index, index ∈ inputs ↔ index ∈ inputs') :
    inputs.dedup = inputs'.dedup := by
  have hsorted : ∀ {items : List NodeIndex}, items.Pairwise (· ≤ ·) →
      items.dedup.Pairwise (· < ·) := fun hitems =>
    (hitems.sublist (dedup_sublist _)).imp₂ (fun _ _ hle hne =>
      Nat.lt_of_le_of_ne hle hne) (nodup_dedup _)
  refine (hsorted h).eq_of_mem_iff (hsorted h') ?_
  intro index
  rw [mem_dedup, mem_dedup, hmem]

/-- Two graphs with the same nodes and the same relation between them. -/
structure SameEdges (g g' : Graph) : Prop where
  isSome_iff : ∀ index, (g.node index).isSome ↔ (g'.node index).isSome
  edge_iff : ∀ source target, g.Edge source target ↔ g'.Edge source target

variable {g' : Graph}

/-- The walk does not see how often or through which slots nodes are joined. -/
theorem SameEdges.reverseDFSFrom_eq (h : SameEdges g g') (hmirror : g.Mirrored)
    (hmirror' : g'.Mirrored) (walk : ReverseWalk) :
    g.reverseDFSFrom walk = g'.reverseDFSFrom walk := by
  fun_induction reverseDFSFrom g walk with
  | case1 order visited => rw [reverseDFSFrom]
  | case2 order visited current stack ih => rw [ih, reverseDFSFrom]
  | case3 order visited current stack hvisited ih =>
    rw [ih, reverseDFSFrom, if_pos hvisited]
  | case4 order visited current stack hvisited hnode =>
    have hnone : ¬ (g'.node current).isSome := by
      rw [← h.isSome_iff, hnode]
      exact Bool.false_ne_true
    rw [reverseDFSFrom, if_neg hvisited]
    split
    · rfl
    · rename_i node hnode'
      rw [hnode'] at hnone
      exact absurd rfl hnone
  | case5 order visited current stack hvisited node hnode ih =>
    have hsome : (g'.node current).isSome := by
      rw [← h.isSome_iff, hnode]
      rfl
    rw [ih]
    conv_rhs => rw [reverseDFSFrom, if_neg hvisited]
    split
    · rename_i hnone
      rw [hnone] at hsome
      cases hsome
    · rename_i node' hnode'
      have hsorted : ∀ node : GraphNode, ((sortedInputNodes node).filter
          (· ∉ current :: visited)).Pairwise (· ≤ ·) := fun node =>
        (pairwise_insertionSort _ _).sublist filter_sublist
      refine (reverseDFSFrom_dedup _).trans
        (Eq.trans ?_ (reverseDFSFrom_dedup _).symm)
      rw [dedup_eq_of_mem_iff (hsorted node) (hsorted node')]
      intro index
      rw [mem_filter, mem_filter, mem_sortedInputNodes hmirror
        hnode, mem_sortedInputNodes hmirror' hnode', h.edge_iff]

/-- Nodes chosen by a property that both graphs give to the same nodes. -/
theorem map_filter_liveNodes_eq {p p' : NodeIndex × GraphNode → Bool}
    (h : ∀ index, index ∈ (g.liveNodes.filter p).map Prod.fst ↔
      index ∈ (g'.liveNodes.filter p').map Prod.fst) :
    (g.liveNodes.filter p).map Prod.fst =
      (g'.liveNodes.filter p').map Prod.fst :=
  (pairwise_liveIndices.sublist (filter_sublist.map _)).eq_of_mem_iff
    (pairwise_liveIndices.sublist (filter_sublist.map _)) h

end Determinism

theorem mem_rootNodes (hmirror : g.Mirrored) :
    index ∈ (g.liveNodes.filter fun entry => entry.2.inputEdges = []).map
        Prod.fst ↔
      (g.node index).isSome ∧ ∀ source, ¬ g.Edge source index := by
  rw [mem_map_filter_liveNodes, Option.isSome_iff_exists]
  constructor
  · rintro ⟨node, hnode, hnil⟩
    exact ⟨⟨node, hnode⟩,
      (hmirror.inputEdges_eq_nil_iff hnode).mp (decide_eq_true_eq.mp hnil)⟩
  · rintro ⟨⟨node, hnode⟩, hroot⟩
    exact ⟨node, hnode,
      decide_eq_true_eq.mpr ((hmirror.inputEdges_eq_nil_iff hnode).mpr hroot)⟩

/-- Without cycles the viewer's order is one of all nodes with every edge
pointing forwards. -/
theorem graphViewer_sorts (hmirror : g.Mirrored) (hacyclic : g.Acyclic) :
    ∃ viewer, g.graphViewer = .ok viewer ∧
      g.TopologicalOrder viewer.nodesInTopologicalOrder := by
  have hnodes : DepthFirst.nodes (g.leafNodes.map (·, false)).reverse =
      g.leafNodes.reverse := by rw [← map_reverse, nodes_map]
  obtain ⟨final, hfinal, hlive, horder⟩ := reverseDFSFrom_spec hmirror
    { stack := (g.leafNodes.map (·, false)).reverse } (by
      rw [hnodes]
      exact fun index hindex =>
        (mem_leafNodes.mp (mem_reverse.mp hindex)).1)
  rw [hnodes] at horder
  refine ⟨_, by rw [graphViewer, hfinal]; rfl, ?_⟩
  have hnone : markers (g.leafNodes.reverse.map (·, false)) = [] := by
    simp [markers]
  have hstart : Traces g { stack := (g.leafNodes.map (·, false)).reverse } := by
    rw [← map_reverse]
    exact ⟨Walk.start nodup_nil (fun _ hnil => absurd hnil not_mem_nil),
      fun index => by rw [hnone]; rfl⟩
  obtain ⟨htraces, -, hall⟩ := horder hacyclic hstart
  refine topologicalOrder_of_ordered hmirror hacyclic htraces.walks.ordered
    htraces.walks.nodup.of_append_left hlive fun index hindex => ?_
  exact hall index (mem_reverse.mpr hindex)

/-- Without cycles the viewer's order is one of all nodes with every edge
pointing forwards, and with a cycle it cannot be.  The roots are the nodes
without incoming edges, and all of this depends on nothing but the relation
between the nodes. -/
theorem graphViewer_correct (g : Graph) (hmirror : g.Mirrored) :
    (∃ viewer, g.graphViewer = .ok viewer ∧
      (g.Acyclic → g.TopologicalOrder viewer.nodesInTopologicalOrder) ∧
      (¬ g.Acyclic → (∃ index, (g.node index).isSome ∧
          index ∉ viewer.nodesInTopologicalOrder) ∨
        ∃ source target, g.Edge source target ∧
          ¬ viewer.nodesInTopologicalOrder.idxOf source <
            viewer.nodesInTopologicalOrder.idxOf target) ∧
      viewer.rootNodes.Nodup ∧ ∀ index, index ∈ viewer.rootNodes ↔
        (g.node index).isSome ∧ ∀ source, ¬ g.Edge source index) ∧
    ∀ g' : Graph, g'.Mirrored → SameEdges g g' →
      g'.graphViewer = g.graphViewer := by
  have hnodes : DepthFirst.nodes (g.leafNodes.map (·, false)).reverse =
      g.leafNodes.reverse := by rw [← map_reverse, nodes_map]
  obtain ⟨final, hfinal, -⟩ := reverseDFSFrom_spec hmirror
    { stack := (g.leafNodes.map (·, false)).reverse } (by
      rw [hnodes]
      exact fun index hindex =>
        (mem_leafNodes.mp (mem_reverse.mp hindex)).1)
  have hviewer : g.graphViewer = .ok
      { nodesInTopologicalOrder := final.order, rootNodes :=
          (g.liveNodes.filter fun entry => entry.2.inputEdges = []).map
            Prod.fst } := by
    rw [graphViewer, hfinal]
    rfl
  constructor
  · refine ⟨_, hviewer, ?_, ?_, ?_, fun index => mem_rootNodes hmirror⟩
    · intro hacyclic
      obtain ⟨viewer, hviewer', horder⟩ := graphViewer_sorts hmirror hacyclic
      cases hviewer.symm.trans hviewer'
      exact horder
    · intro hcycle
      right
      by_contra hnone
      refine hcycle (acyclic_of_idxOf_lt final.order fun source target hedge => ?_)
      by_contra hlt
      exact hnone ⟨source, target, hedge, hlt⟩
    · exact nodup_liveIndices.sublist (filter_sublist.map _)
  · intro g' hmirror' hsame
    have hleaves : g'.leafNodes = g.leafNodes := map_filter_liveNodes_eq
      fun index => by
        rw [← leafNodes, ← leafNodes, mem_leafNodes, mem_leafNodes,
          hsame.isSome_iff]
        simp only [hsame.edge_iff]
    have hroots : (g'.liveNodes.filter fun entry =>
        entry.2.inputEdges = []).map Prod.fst =
        (g.liveNodes.filter fun entry => entry.2.inputEdges = []).map Prod.fst :=
      map_filter_liveNodes_eq fun index => by
        rw [mem_rootNodes hmirror', mem_rootNodes hmirror, hsame.isSome_iff]
        simp only [hsame.edge_iff]
    rw [graphViewer, graphViewer, hleaves, hroots,
      hsame.reverseDFSFrom_eq hmirror hmirror']

theorem graphViewer_parallelGraph :
    ∃ viewer, parallelGraph.graphViewer = .ok viewer ∧
      parallelGraph.TopologicalOrder viewer.nodesInTopologicalOrder ∧
      0 ∈ viewer.rootNodes := by
  have hacyclic : parallelGraph.Acyclic := by
    have horder : parallelGraph.TopologicalOrder [0, 3, 2] := by decide
    exact acyclic_of_idxOf_lt _ horder.before
  obtain ⟨viewer, hviewer, horder, -, -, hroots⟩ :=
    (graphViewer_correct parallelGraph (by decide)).1
  refine ⟨viewer, hviewer, horder hacyclic, (hroots 0).mpr ⟨rfl, ?_⟩⟩
  exact (Mirrored.inputEdges_eq_nil_iff (by decide) rfl).mp rfl

end Graph

end OnnxRuntime
