/-
The sweep over the casts.  Which casts undo others is read off the graph once
and for all; the sweep only moves readers up, from the result of a second cast
to the input of the first one.
-/
import OnnxRuntime.InsertCast

namespace OnnxRuntime

open List Relation

variable {first' : NodeIndex} {arg' : GraphArg}

namespace Graph

section Statics

variable (g : Graph)

/-- The edges join outputs with the inputs, explicit or implicit, that are the
same argument. -/
def FlowEdges : Prop :=
  ∀ edge : DataEdge, g.HasEdge edge ↔ ∃ producer consumer arg,
    g.node edge.source = some producer ∧
    g.node edge.target = some consumer ∧
    atSlot producer.outputDefs edge.srcArgIndex = some arg ∧
    consumer.inputAt edge.dstArgIndex = some arg ∧ arg.Exists

/-- A resolved graph in which casts have one input and one output. -/
structure CastReady : Prop extends Resolved g where
  flow : g.FlowEdges
  implicit : ∀ index node, g.node index = some node →
    ∀ arg ∈ node.implicitInputDefs, ∀ other,
      g.getNodeArg other.name = some other → arg.name = other.name →
      arg = other
  casts : ∀ index node, g.node index = some node → node.opType = "Cast" →
    ∃ input output, node.inputDefs = [input] ∧ node.outputDefs = [output] ∧
      node.implicitInputDefs = [] ∧ input.Exists ∧ output.Exists

/-- The input and the output of a cast. -/
def castArgs (index : NodeIndex) : Option (GraphArg × GraphArg) :=
  match g.node index with
  | none => none
  | some node =>
    if node.opType ≠ "Cast" then none
    else
      match node.inputDefs, node.outputDefs with
      | input :: _, output :: _ => some (input, output)
      | _, _ => none

/-- The second cast reads the first one and has the type of its input. -/
def Undoes (first second : NodeIndex) : Prop :=
  ∃ input output result, g.castArgs first = some (input, output) ∧
    g.castArgs second = some (output, result) ∧
    g.argType input.pointer = g.argType result.pointer

theorem undoes_iff (first second : NodeIndex) : g.Undoes first second ↔
      match g.castArgs first, g.castArgs second with
      | some (input, output), some (output', result) => output' = output ∧
          g.argType input.pointer = g.argType result.pointer
      | _, _ => False := by
  rw [Undoes]
  split
  · rename_i input output output' result hfirst hsecond
    rw [hfirst]
    grind
  · rename_i hnot
    refine iff_of_false ?_ id
    rintro ⟨input, output, result, hfirst, hsecond, -⟩
    exact hnot _ _ _ _ hfirst hsecond

instance decidableUndoes (first second : NodeIndex) :
    Decidable (g.Undoes first second) :=
  match hfirst : g.castArgs first, hsecond : g.castArgs second with
  | some (input, output), some (output', result) =>
    decidable_of_iff (output' = output ∧
      g.argType input.pointer = g.argType result.pointer)
      (by rw [undoes_iff, hfirst, hsecond])
  | none, _ => isFalse fun ⟨_, _, _, h, _⟩ => by cases hfirst.symm.trans h
  | some _, none =>
    isFalse fun ⟨_, _, _, _, h, _⟩ => by cases hsecond.symm.trans h

/-- The readers of a node, once for each edge. -/
def readers (index : NodeIndex) : List NodeIndex :=
  (g.outputEdgesOf index).map (·.node)

/-- The casts that undo a cast. -/
def undoing (first : NodeIndex) : List NodeIndex :=
  (g.readers first).filter (g.Undoes first ·)

/-- What the visit of a cast adds to `removed_nodes`. -/
def removalsAt (first : NodeIndex) : List NodeIndex :=
  g.undoing first ++ if (g.undoing first).length = (g.readers first).length ∧
        0 < (g.undoing first).length then [first]
    else []

def removals : List NodeIndex :=
  (List.range g.nodes.length).flatMap g.removalsAt

/-- The readers of the casts `seconds` read `input` instead. -/
def moveUp (f : NodeIndex → GraphArg → GraphArg) (input : GraphArg)
    (seconds : List NodeIndex) (reader : NodeIndex) (arg : GraphArg) :
    GraphArg :=
  if ∃ second ∈ seconds, reader ∈ g.readers second ∧
      (g.castArgs second).map Prod.snd = some (f reader arg) then input
  else f reader arg

/-- The arguments that the nodes have after the visit of a cast. -/
def sweepStep (f : NodeIndex → GraphArg → GraphArg) (first : NodeIndex) :
    NodeIndex → GraphArg → GraphArg :=
  match g.castArgs first with
  | none => f
  | some (input, _) => g.moveUp f (f first input) (g.undoing first)

/-- The arguments after the visits of the first `k` nodes. -/
def swept (k : Nat) : NodeIndex → GraphArg → GraphArg :=
  (List.range k).foldl g.sweepStep fun _ arg => arg

end Statics

section Facts

variable {g : Graph}

theorem mem_of_atSlot {α : Type} {defs : List α} {slot : Int} {a : α}
    (h : atSlot defs slot = some a) : a ∈ defs := by
  cases slot with
  | ofNat slot => exact mem_of_getElem? h
  | negSucc slot => cases h

variable {index other reader : NodeIndex} {node node' : GraphNode}
  {arg : GraphArg}

theorem castArgs_eq_some (hg : g.CastReady) {input output : GraphArg} :
    g.castArgs index = some (input, output) ↔ ∃ node,
      g.node index = some node ∧ node.opType = "Cast" ∧
      node.inputDefs = [input] ∧ node.outputDefs = [output] ∧
      node.implicitInputDefs = [] ∧ input.Exists ∧ output.Exists := by
  rw [castArgs]
  cases hnode : g.node index with
  | none => simp
  | some node =>
    by_cases hcast : node.opType = "Cast"
    · obtain ⟨input', output', hinputs, houtputs, himplicit, hexists⟩ :=
        hg.casts index node hnode hcast
      grind
    · simp [hcast]

/-- An argument of a node that some cast writes is its output. -/
theorem eq_of_pointer_eq (hg : g.CastReady) (hnode : g.node index = some node)
    (hnode' : g.node other = some node')
    (harg : arg ∈ node.inputDefs ++ node.outputDefs)
    (harg' : arg' ∈ node'.inputDefs ++ node'.outputDefs)
    (hpointer : arg.pointer = arg'.pointer) : arg = arg' :=
  eq_of_pointer hg.pointers (hg.args index node hnode arg harg)
    (hg.args other node' hnode' arg' harg') hpointer

/-- A value is the output of one node, at one slot. -/
theorem producer_unique (hg : g.CastReady) (hnode : g.node index = some node)
    (hnode' : g.node other = some node') (harg : arg ∈ node.outputDefs)
    (harg' : arg ∈ node'.outputDefs) (hexists : arg.Exists) :
    index = other := by
  obtain ⟨slot, hslot⟩ := getElem?_of_mem harg
  obtain ⟨slot', hslot'⟩ := getElem?_of_mem harg'
  have hsite := hg.definitions arg.name hexists _ _
    (defines_of_outputDefs hnode hslot) (defines_of_outputDefs hnode' hslot')
  simp only [Option.some.injEq, Prod.mk.injEq] at hsite
  exact hsite.1

/-- The readers of a node are the nodes that have one of its outputs among
their inputs. -/
theorem mem_readers (hg : g.CastReady) :
    reader ∈ g.readers index ↔ ∃ producer consumer arg,
      g.node index = some producer ∧ g.node reader = some consumer ∧
      arg ∈ producer.outputDefs ∧
      arg ∈ consumer.inputDefs ++ consumer.implicitInputDefs ∧
      arg.Exists := by
  rw [readers, List.mem_map]
  constructor
  · rintro ⟨edge, hedge, rfl⟩
    obtain ⟨producer, consumer, arg, hproducer, hconsumer, houtput, hinput,
      hexists⟩ := (hg.flow ⟨index, edge.srcArgIndex, edge.node,
        edge.dstArgIndex⟩).mp hedge
    exact ⟨producer, consumer, arg, hproducer, hconsumer,
      mem_of_atSlot houtput, mem_of_atSlot hinput, hexists⟩
  · rintro ⟨producer, consumer, arg, hproducer, hconsumer, houtput, hinput,
      hexists⟩
    obtain ⟨slot, hslot⟩ := getElem?_of_mem houtput
    obtain ⟨slot', hslot'⟩ := getElem?_of_mem hinput
    exact ⟨⟨reader, slot, slot'⟩, (hg.flow ⟨index, slot, reader, slot'⟩).mpr
      ⟨producer, consumer, arg, hproducer, hconsumer, hslot, hslot', hexists⟩,
      rfl⟩

section

variable {input output : GraphArg} (hg : g.CastReady)
  (hcast : g.castArgs index = some (input, output))
include hg hcast

theorem castArgs_input : ∃ node, g.node index = some node ∧
    input ∈ node.inputDefs := by
  obtain ⟨node, hnode, -, hinputs, -⟩ := (castArgs_eq_some hg).mp hcast
  exact ⟨node, hnode, by simp [hinputs]⟩

theorem castArgs_output : ∃ node, g.node index = some node ∧
    output ∈ node.outputDefs ∧ output.Exists := by
  obtain ⟨node, hnode, -, -, houtputs, -, -, hexists⟩ :=
    (castArgs_eq_some hg).mp hcast
  exact ⟨node, hnode, by simp [houtputs], hexists⟩

theorem mem_readers_of_castArgs (hnode : g.node reader = some node)
    (houtput : output ∈ node.inputDefs ++ node.implicitInputDefs) :
    reader ∈ g.readers index := by
  obtain ⟨cast, hcast, hwritten, hexists⟩ := castArgs_output hg hcast
  exact (mem_readers hg).mpr ⟨cast, node, output, hcast, hnode, hwritten,
    houtput, hexists⟩

end

theorem edge_of_mem_readers (h : reader ∈ g.readers index) :
    g.Edge index reader := by
  obtain ⟨edge, hedge, rfl⟩ := List.mem_map.mp h
  exact ⟨⟨index, edge.srcArgIndex, edge.node, edge.dstArgIndex⟩, rfl, rfl,
    hedge⟩

variable {first second : NodeIndex}

theorem Undoes.mem_readers (hg : g.CastReady) (h : g.Undoes first second) :
    second ∈ g.readers first := by
  obtain ⟨input, output, result, hfirst, hsecond, -⟩ := h
  obtain ⟨node, hnode, hinput⟩ := castArgs_input hg hsecond
  exact mem_readers_of_castArgs hg hfirst hnode (mem_append_left _ hinput)

theorem Undoes.not_mem_readers (hg : g.CastReady)
    (h : g.Undoes first second) : first ∉ g.readers second := fun hmem =>
  hg.acyclic first ((TransGen.single (edge_of_mem_readers
    (h.mem_readers hg))).tail (edge_of_mem_readers hmem))

theorem mem_undoing (hg : g.CastReady) :
    second ∈ g.undoing first ↔ g.Undoes first second := by
  rw [undoing, mem_filter, decide_eq_true_eq]
  exact ⟨And.right, fun h => ⟨h.mem_readers hg, h⟩⟩

/-- A cast undoes at most one other, the one that it reads. -/
theorem Undoes.unique (hg : g.CastReady)
    (h : g.Undoes first second) (h' : g.Undoes first' second) :
    first = first' := by
  obtain ⟨input, output, result, hfirst, hsecond, -⟩ := h
  obtain ⟨input', output', result', hfirst', hsecond', -⟩ := h'
  cases hsecond.symm.trans hsecond'
  obtain ⟨node, hnode, houtput, hexists⟩ := castArgs_output hg hfirst
  obtain ⟨node', hnode', houtput', -⟩ := castArgs_output hg hfirst'
  exact producer_unique hg hnode hnode' houtput houtput' hexists

end Facts

section Relabels

variable {g : Graph}

/-- The inputs of the nodes are those of `g` under `f`. -/
structure Relabels (g : Graph) (f : NodeIndex → GraphArg → GraphArg)
    (g' : Graph) : Prop where
  length : g'.nodes.length = g.nodes.length
  node : ∀ index, g'.node index = (g.node index).map fun node =>
    { node with inputDefs := node.inputDefs.map (f index) }
  types : g'.argType = g.argType
  outputs : g'.inputsOutputs = g.inputsOutputs
  initializers : g'.nameToInitialTensor = g.nameToInitialTensor

/-- The arguments of a relabelling are explicit inputs of nodes of `g`, of the
same types. -/
structure KeepsArgTypes (g : Graph) (f : NodeIndex → GraphArg → GraphArg) :
    Prop where
  table : ∀ index node, g.node index = some node → ∀ arg ∈ node.inputDefs,
    g.getNodeArg (f index arg).name = some (f index arg)
  types : ∀ index node, g.node index = some node → ∀ arg ∈ node.inputDefs,
    g.argType (f index arg).pointer = g.argType arg.pointer

theorem replaceDefs_twice (node : GraphNode) (old new : GraphArg) :
    (node.replaceDefs [(old, new)]).replaceDefs [(old, new)] =
      node.replaceDefs [(old, new)] := by
  have htwice : ∀ arg : GraphArg,
      (if (if arg.pointer = old.pointer then new else arg).pointer =
        old.pointer then new
      else if arg.pointer = old.pointer then new else arg) =
        if arg.pointer = old.pointer then new else arg := by
    intro arg
    by_cases heq : arg.pointer = old.pointer <;> simp [heq]
  simp only [GraphNode.replaceDefs, List.foldl_cons, List.foldl_nil,
    List.map_map, Function.comp_def, htwice]

variable {f : NodeIndex → GraphArg → GraphArg} {g' : Graph}
  {output input : GraphArg} {first : NodeIndex}

theorem moveUp_snoc (f : NodeIndex → GraphArg → GraphArg) (input : GraphArg)
    (seconds : List NodeIndex) (second : NodeIndex) :
    g.moveUp f input (seconds ++ [second]) = fun reader arg =>
      if reader ∈ g.readers second ∧ (g.castArgs second).map Prod.snd =
          some (g.moveUp f input seconds reader arg) then input
      else g.moveUp f input seconds reader arg := by
  funext reader arg
  rw [moveUp, moveUp]
  by_cases hmoved : ∃ second ∈ seconds, reader ∈ g.readers second ∧
      (g.castArgs second).map Prod.snd = some (f reader arg)
  · rw [if_pos hmoved, ite_self, if_pos]
    obtain ⟨moved, hmem, hmoved⟩ := hmoved
    exact ⟨moved, mem_append_left _ hmem, hmoved⟩
  · rw [if_neg hmoved]
    refine if_congr ⟨?_, fun hlast => ⟨second, by simp, hlast⟩⟩ rfl rfl
    rintro ⟨moved, hmem, hlast⟩
    rcases mem_append.mp hmem with hmem | hmem
    · exact absurd ⟨moved, hmem, hlast⟩ hmoved
    · rwa [mem_singleton.mp hmem] at hlast

/-- The casts that undo `first` among the readers at the edges. -/
def undoingAt (g : Graph) (first : NodeIndex) (edges : EdgeSet) :
    List NodeIndex :=
  (edges.map (·.node)).filter (g.Undoes first ·)

theorem removalsAt_of_not_cast (h : g.castArgs first = none) :
    g.removalsAt first = [] := by
  have hundoing : g.undoing first = [] := by
    rw [undoing, filter_eq_nil_iff]
    rintro second - hundoes
    obtain ⟨_, _, _, hfirst, -⟩ := of_decide_eq_true hundoes
    cases h.symm.trans hfirst
  simp [removalsAt, hundoing]

variable (hg : g.CastReady)
include hg

/-- Relinking the readers of the cast `second`. -/
theorem Relabels.relinkReaders (h : Relabels g f g')
    (htyped : KeepsArgTypes g f) {second : NodeIndex} {result : GraphArg}
    (hsecond : g.castArgs second = some (output, result)) (input : GraphArg) :
    Relabels g (fun reader arg =>
      if reader ∈ g.readers second ∧ f reader arg = result then input
      else f reader arg)
      (g'.relinkReaders result input (g.outputEdgesOf second)) := by
  obtain ⟨cast, hcast, houtput, hexists⟩ := castArgs_output hg hsecond
  have hfold : g'.relinkReaders result input (g.outputEdgesOf second) =
      (g.readers second).foldl (fun g index =>
        g.modifyNode index (·.replaceDefs [(result, input)])) g' := by
    rw [Graph.relinkReaders, readers, foldl_map]
  rw [hfold]
  refine ⟨?_, ?_, ?_, ?_, ?_⟩
  · rw [← h.length]
    exact @foldl_modifyNode_keeps _ (·.nodes.length) _
      (fun _ _ => length_modify ..) _ _
  · intro reader
    rw [node_foldl_modifyNode (replaceDefs_twice · result input), h.node]
    cases hnode : g.node reader with
    | none => simp
    | some node =>
      by_cases hreader : reader ∈ g.readers second
      · rw [if_pos hreader]
        simp only [Option.map_some, Option.some.injEq, GraphNode.replaceDefs,
          List.foldl_cons, List.foldl_nil, List.map_map, hreader, true_and]
        congr 1
        · apply List.map_congr_left
          intro arg harg
          have hpointer : (f reader arg).pointer = result.pointer ↔
              f reader arg = result := by
            refine ⟨fun heq => ?_, fun heq => by rw [heq]⟩
            exact eq_of_pointer hg.pointers (htyped.table _ _ hnode arg harg)
              (hg.args second cast hcast result (mem_append_right _ houtput))
              heq
          simp only [Function.comp_def, hpointer]
        · -- The readers do not write what they read.
          refine (List.map_congr_left fun arg harg => ?_).trans (map_id _)
          rw [if_neg, id]
          intro hpointer
          have heq := eq_of_pointer_eq hg hnode hcast
            (mem_append_right _ harg) (mem_append_right _ houtput) hpointer
          subst heq
          have hsame := producer_unique hg hnode hcast harg houtput hexists
          subst hsame
          exact hg.acyclic _ (.single (edge_of_mem_readers hreader))
      · simp [hreader]
  · rw [← h.types]
    exact foldl_modifyNode_keeps (fun _ _ => rfl) _ _
  · rw [← h.outputs]
    exact foldl_modifyNode_keeps (fun _ _ => rfl) _ _
  · rw [← h.initializers]
    exact foldl_modifyNode_keeps (fun _ _ => rfl) _ _

theorem KeepsArgTypes.moveUp (h : KeepsArgTypes g f)
    (hfirst : g.castArgs first = some (input, output))
    {seconds : List NodeIndex}
    (hseconds : ∀ second ∈ seconds, g.Undoes first second) :
    KeepsArgTypes g (g.moveUp f (f first input) seconds) := by
  obtain ⟨node, hnode, hinput⟩ := castArgs_input hg hfirst
  refine ⟨fun reader consumer hconsumer arg harg => ?_,
    fun reader consumer hconsumer arg harg => ?_⟩
  · rw [Graph.moveUp]
    split
    · exact h.table first node hnode input hinput
    · exact h.table reader consumer hconsumer arg harg
  · rw [Graph.moveUp]
    split
    · rename_i hmoved
      obtain ⟨second, hmem, -, hresult⟩ := hmoved
      obtain ⟨input', output', result, hfirst', hsecond, htype⟩ :=
        hseconds second hmem
      cases hfirst.symm.trans hfirst'
      rw [hsecond, Option.map_some, Option.some.injEq] at hresult
      rw [h.types first node hnode input hinput, htype,
        ← h.types reader consumer hconsumer arg harg, ← hresult]
    · exact h.types reader consumer hconsumer arg harg

/-- The loop over the readers of the cast `first`, after the edges `done`. -/
structure Visiting (g : Graph) (f : NodeIndex → GraphArg → GraphArg)
    (first : NodeIndex) (input : GraphArg) (removed : List NodeIndex)
    (done : EdgeSet) (state : CastReaders) : Prop where
  graph : Relabels g (g.moveUp f input (g.undoingAt first done)) state.graph
  removed : state.removedNodes = removed ++ g.undoingAt first done
  childRemoved : state.childRemoved = (g.undoingAt first done).length
  numChild : state.numChild = done.length

theorem visitReader_meets (htyped : KeepsArgTypes g f)
    (hfirst : g.castArgs first = some (input, output))
    {removed : List NodeIndex} {done : EdgeSet} {state : CastReaders}
    (h : Visiting g f first (f first input) removed done state) {edge : EdgeEnd}
    (hedge : edge ∈ g.outputEdgesOf first) :
    Meets False (Visiting g f first (f first input) removed (done ++ [edge]))
      (visitReader (f first input) output state edge) := by
  have hsnoc : g.undoingAt first (done ++ [edge]) = g.undoingAt first done ++
      if g.Undoes first edge.node then [edge.node] else [] := by
    simp [undoingAt, filter_singleton]
  have hseconds : ∀ second ∈ g.undoingAt first done, g.Undoes first second :=
    fun second hsecond => by simpa using (mem_filter.mp hsecond).2
  have hother : ¬ g.Undoes first edge.node →
      Visiting g f first (f first input) removed (done ++ [edge])
        { state with numChild := state.numChild + 1 } := by
    intro hundoes
    rw [if_neg hundoes, append_nil] at hsnoc
    refine ⟨?_, ?_, ?_, ?_⟩
    · rw [hsnoc]
      exact h.graph
    · rw [hsnoc]
      exact h.removed
    · rw [hsnoc]
      exact h.childRemoved
    · rw [length_append, ← h.numChild]
      rfl
  have hreader : edge.node ∈ g.readers first := mem_map_of_mem hedge
  have htyped' := htyped.moveUp hg hfirst hseconds
  obtain ⟨cast, consumer, arg, hcast, hconsumer, houtput, hinput, hexists⟩ :=
    (mem_readers hg).mp hreader
  obtain ⟨cast', hcast', -, hinputs, houtputs, -⟩ :=
    (castArgs_eq_some hg).mp hfirst
  cases hcast.symm.trans hcast'
  rw [houtputs, mem_singleton] at houtput
  subst houtput
  have hat := h.graph.node edge.node
  rw [hconsumer, Option.map_some] at hat
  rw [visitReader, hat]
  dsimp only
  by_cases hop : consumer.opType = "Cast"
  · obtain ⟨input', result, hinputs', houtputs', himplicit', hexists'⟩ :=
      hg.casts edge.node consumer hconsumer hop
    have hsecond : g.castArgs edge.node = some (input', result) :=
      (castArgs_eq_some hg).mpr ⟨consumer, hconsumer, hop, hinputs', houtputs',
        himplicit', hexists'⟩
    rw [hinputs', himplicit', append_nil, mem_singleton] at hinput
    subst hinput
    rw [if_neg (not_not.mpr hop), hinputs', houtputs', map_singleton]
    dsimp only
    have hinput_type : state.graph.argType (f first input).pointer =
        g.argType input.pointer := by
      rw [h.graph.types]
      exact htyped.types first cast hcast input (by simp [hinputs])
    have houtput_type : state.graph.argType (g.moveUp f (f first input)
        (g.undoingAt first done) edge.node arg).pointer =
          g.argType arg.pointer := by
      rw [h.graph.types]
      exact htyped'.types edge.node consumer hconsumer arg (by simp [hinputs'])
    have hcond : (state.graph.argType (f first input).pointer =
          state.graph.argType result.pointer ∧
        state.graph.argType (g.moveUp f (f first input)
          (g.undoingAt first done) edge.node arg).pointer =
            state.graph.argType arg.pointer) ↔
        g.Undoes first edge.node := by
      rw [hinput_type, houtput_type, h.graph.types, undoes_iff, hfirst, hsecond]
      simp
    by_cases hundoes : g.Undoes first edge.node
    · rw [if_pos (hcond.mpr hundoes)]
      rw [if_pos hundoes] at hsnoc
      refine ⟨?_, ?_, ?_, ?_⟩
      · have hedges : consumer.outputEdges = g.outputEdgesOf edge.node := by
          rw [outputEdgesOf, hconsumer]
          rfl
        rw [hsnoc, moveUp_snoc, hedges, hsecond]
        simpa only [Option.map_some, Option.some.injEq, eq_comm] using
          h.graph.relinkReaders hg htyped' hsecond (f first input)
      · rw [hsnoc, ← append_assoc, ← h.removed]
      · rw [hsnoc, length_append, ← h.childRemoved]
        rfl
      · rw [length_append, ← h.numChild]
        rfl
    · rw [if_neg (mt hcond.mp hundoes)]
      exact hother hundoes
  · rw [if_pos hop]
    refine hother ?_
    rintro ⟨_, _, _, -, hsecond, -⟩
    obtain ⟨node, hnode, hcastop, -⟩ := (castArgs_eq_some hg).mp hsecond
    cases hconsumer.symm.trans hnode
    exact hop hcastop

theorem visitCast_meets (htyped : KeepsArgTypes g f) (h : Relabels g f g')
    (first : NodeIndex) (removed : List NodeIndex) :
    Meets False (fun next => Relabels g (g.sweepStep f first) next.1 ∧
        KeepsArgTypes g (g.sweepStep f first) ∧
        next.2 = removed ++ g.removalsAt first)
      (visitCast (g', removed) first) := by
  rw [sweepStep]
  cases hfirst : g.castArgs first with
  | none =>
    rw [removalsAt_of_not_cast hfirst, append_nil, visitCast, h.node]
    cases hnode : g.node first with
    | none => exact ⟨h, htyped, rfl⟩
    | some node =>
      by_cases hop : node.opType = "Cast"
      · obtain ⟨input, output, hargs⟩ := hg.casts first node hnode hop
        cases hfirst.symm.trans
          ((castArgs_eq_some hg).mpr ⟨node, hnode, hop, hargs⟩)
      · rw [Option.map_some]
        dsimp only
        rw [if_pos hop]
        exact ⟨h, htyped, rfl⟩
  | some args =>
    obtain ⟨input, output⟩ := args
    obtain ⟨node, hnode, hop, hinputs, houtputs, -⟩ :=
      (castArgs_eq_some hg).mp hfirst
    have hedges : node.outputEdges = g.outputEdgesOf first := by
      rw [outputEdgesOf, hnode]
      rfl
    rw [visitCast, h.node, hnode, Option.map_some]
    dsimp only
    rw [if_neg (not_not.mpr hop), hinputs, houtputs, hedges]
    have hstart : Visiting g f first (f first input) removed []
        { graph := g', removedNodes := removed } := by
      refine ⟨?_, (append_nil removed).symm, rfl, rfl⟩
      rw [undoingAt, map_nil, filter_nil]
      exact h
    have hloop : Meets False (Visiting g f first (f first input) removed
        (g.outputEdgesOf first)) ((g.outputEdgesOf first).foldlM
          (visitReader (f first input) output)
          { graph := g', removedNodes := removed }) := by
      refine foldlM_meets ?_ hstart
      intro done edge rest hitems state hstate
      exact visitReader_meets hg htyped hfirst hstate (by simp [hitems])
    refine hloop.bind fun state hstate => ?_
    refine ⟨hstate.graph, htyped.moveUp hg hfirst fun second hsecond =>
      (mem_undoing hg).mp hsecond, ?_⟩
    have hlength : (g.readers first).length =
      (g.outputEdgesOf first).length := length_map _
    have hundoing : g.undoing first =
      g.undoingAt first (g.outputEdgesOf first) := rfl
    rw [removalsAt, ← append_assoc, hlength, ← hstate.numChild,
      hundoing, hstate.removed, hstate.childRemoved]
    split
    · rfl
    · rw [append_nil]

theorem sweep_meets :
    Meets False (fun next => Relabels g (g.swept g.nodes.length) next.1 ∧
        KeepsArgTypes g (g.swept g.nodes.length) ∧ next.2 = g.removals)
      ((range g.nodes.length).foldlM visitCast (g, [])) := by
  refine foldlM_meets (motive := fun done (next : Graph × List NodeIndex) =>
    Relabels g (done.foldl g.sweepStep fun _ arg => arg) next.1 ∧
      KeepsArgTypes g (done.foldl g.sweepStep fun _ arg => arg) ∧
      next.2 = done.flatMap g.removalsAt) ?_ ?_
  · rintro done first rest - ⟨graph, removed⟩ ⟨hgraph, htyped, rfl⟩
    rw [foldl_append]
    simpa using visitCast_meets hg htyped hgraph first _
  · refine ⟨⟨rfl, fun index => ?_, rfl, rfl, rfl⟩, ⟨fun index node hnode arg
      harg => ?_, fun _ _ _ _ _ => rfl⟩, rfl⟩
    · cases g.node index <;> simp
    · exact hg.args index node hnode arg (mem_append_left _ harg)

end Relabels

section Swept

variable {g : Graph}

/-- `second` undoes `first`: it gives `result` for `input`. -/
def CastPair (g : Graph) (first second : NodeIndex)
    (input result : GraphArg) : Prop :=
  ∃ output, g.castArgs first = some (input, output) ∧
    g.castArgs second = some (output, result) ∧
    g.argType input.pointer = g.argType result.pointer

variable {first second reader : NodeIndex} {input result arg : GraphArg}
  {k : Nat} {consumer : GraphNode}

theorem undoes_iff_castPair : g.Undoes first second ↔ ∃ input result,
      g.CastPair first second input result := by
  constructor
  · rintro ⟨input, output, result, hpair⟩
    exact ⟨input, result, output, hpair⟩
  · rintro ⟨input, result, output, hpair⟩
    exact ⟨input, output, result, hpair⟩

theorem CastPair.undoes (h : g.CastPair first second input result) :
    g.Undoes first second :=
  undoes_iff_castPair.mpr ⟨input, result, h⟩

/-- The result of a second cast tells which pair it is from. -/
theorem CastPair.unique (hg : g.CastReady) {second' : NodeIndex}
    {input' : GraphArg} (h : g.CastPair first second input result)
    (h' : g.CastPair first' second' input' result) :
    first = first' ∧ second = second' ∧ input = input' := by
  have hundoes := h.undoes
  have hundoes' := h'.undoes
  obtain ⟨output, hfirst, hsecond, -⟩ := h
  obtain ⟨output', hfirst', hsecond', -⟩ := h'
  obtain ⟨node, hnode, houtput, hexists⟩ := castArgs_output hg hsecond
  obtain ⟨node', hnode', houtput', -⟩ := castArgs_output hg hsecond'
  have hsame : second = second' :=
    producer_unique hg hnode hnode' houtput houtput' hexists
  subst hsame
  have hfirsts := hundoes.unique hg hundoes'
  subst hfirsts
  cases hfirst.symm.trans hfirst'
  exact ⟨rfl, rfl, rfl⟩

theorem swept_succ (k : Nat) : g.swept (k + 1) = g.sweepStep (g.swept k) k := by
  rw [swept, range_succ, foldl_append]
  rfl

/-- What one visit does to an argument. -/
theorem swept_succ_cases (hg : g.CastReady) (k : Nat) (reader : NodeIndex)
    (arg : GraphArg) :
    (g.swept (k + 1) reader arg = g.swept k reader arg ∧
      ∀ second input, reader ∈ g.readers second →
        ¬ g.CastPair k second input (g.swept k reader arg)) ∨
    ∃ second input, reader ∈ g.readers second ∧
      g.CastPair k second input (g.swept k reader arg) ∧
      g.swept (k + 1) reader arg = g.swept k k input := by
  rw [swept_succ, sweepStep]
  cases hfirst : g.castArgs k with
  | none =>
    refine .inl ⟨rfl, fun second input _ hpair => ?_⟩
    obtain ⟨output, hfirst', -⟩ := hpair
    cases hfirst.symm.trans hfirst'
  | some args =>
    obtain ⟨input, output⟩ := args
    dsimp only
    rw [moveUp]
    split
    · rename_i hmoved
      obtain ⟨second, hsecond, hreader, hresult⟩ := hmoved
      obtain ⟨input', output', result, hfirst', hargs, htype⟩ :=
        (mem_undoing hg).mp hsecond
      cases hfirst.symm.trans hfirst'
      rw [hargs, Option.map_some, Option.some.injEq] at hresult
      subst hresult
      exact .inr ⟨second, input, hreader, ⟨output, hfirst, hargs, htype⟩, rfl⟩
    · rename_i hmoved
      refine .inl ⟨rfl, fun second input' hreader hpair => hmoved ?_⟩
      have hundoes := hpair.undoes
      obtain ⟨output', -, hargs, -⟩ := hpair
      exact ⟨second, (mem_undoing hg).mpr hundoes, hreader, by rw [hargs]; rfl⟩

/-- From the result of a second cast to the input of the first one. -/
def Skips (g : Graph) (result input : GraphArg) : Prop :=
  ∃ first second, g.CastPair first second input result

theorem skips_swept_of_le (hg : g.CastReady) {k' : Nat} (hle : k ≤ k')
    (reader : NodeIndex) (arg : GraphArg) :
    ReflTransGen g.Skips (g.swept k reader arg) (g.swept k' reader arg) := by
  induction k' generalizing k reader arg with
  | zero => exact Nat.le_zero.1 hle ▸ .refl
  | succ k' ih =>
    rcases Nat.of_le_succ hle with hle | rfl
    · rcases swept_succ_cases hg k' reader arg with ⟨hsame, -⟩ |
        ⟨second, input, -, hpair, hmoved⟩
      · rw [hsame]
        exact ih hle reader arg
      · rw [hmoved]
        exact ((ih hle reader arg).tail ⟨k', second, hpair⟩).trans
          (ih k'.zero_le k' input)
    · exact .refl

theorem skips_swept (hg : g.CastReady) (k : Nat) (reader : NodeIndex)
    (arg : GraphArg) : ReflTransGen g.Skips arg (g.swept k reader arg) :=
  skips_swept_of_le hg k.zero_le reader arg

/-- Only results of second casts are moved. -/
theorem swept_of_not_result (hg : g.CastReady)
    (h : ∀ first second input, ¬ g.CastPair first second input arg) (k : Nat)
    (reader : NodeIndex) : g.swept k reader arg = arg := by
  rcases ReflTransGen.cases_head (skips_swept hg k reader arg) with
    hsame | ⟨input, ⟨first, second, hpair⟩, -⟩
  · exact hsame.symm
  · exact absurd hpair (h first second input)

variable {first second : NodeIndex} {input result : GraphArg}

section

variable (hg : g.CastReady) (h : g.CastPair first second input result)
include hg h

/-- The result of a second cast is not moved before the first one is
visited. -/
theorem swept_of_le (hle : k ≤ first) (reader : NodeIndex) :
    g.swept k reader result = result := by
  induction k with
  | zero => rfl
  | succ k ih =>
    have hsame := ih (Nat.le_of_succ_le hle)
    rcases swept_succ_cases hg k reader result with ⟨hnext, -⟩ |
      ⟨other, input', -, hpair, -⟩
    · rw [hnext, hsame]
    · rw [hsame] at hpair
      exact absurd (h.unique hg hpair).1 (Nat.ne_of_gt hle)

theorem swept_visited (hreader : reader ∈ g.readers second) :
    g.swept (first + 1) reader result = g.swept first first input := by
  have hsame := swept_of_le hg h Nat.le.refl reader
  rcases swept_succ_cases hg first reader result with ⟨-, hnone⟩ |
    ⟨other, input', -, hpair, hmoved⟩
  · rw [hsame] at hnone
    exact absurd h (hnone second input hreader)
  · rw [hsame] at hpair
    rw [hmoved, (h.unique hg hpair).2.2]

theorem Skips.exists_edges (hconsumer : g.node reader = some consumer)
    (hresult : result ∈ consumer.inputDefs ++ consumer.implicitInputDefs) :
    TransGen g.Edge first reader ∧ reader ∈ g.readers second := by
  have hundoes := h.undoes.mem_readers hg
  obtain ⟨output, -, hsecond, -⟩ := h
  have hreader := mem_readers_of_castArgs hg hsecond hconsumer hresult
  exact ⟨(TransGen.single (edge_of_mem_readers hundoes)).tail
    (edge_of_mem_readers hreader), hreader⟩

end

/-- What is read after some skips is computed before the reader. -/
theorem transGen_of_skips (hg : g.CastReady)
    (h : ReflTransGen g.Skips arg arg') {producer : NodeIndex}
    {node : GraphNode} (hconsumer : g.node reader = some consumer)
    (harg : arg ∈ consumer.inputDefs ++ consumer.implicitInputDefs)
    (hnode : g.node producer = some node) (houtput : arg' ∈ node.outputDefs)
    (hexists : arg'.Exists) : TransGen g.Edge producer reader := by
  induction h using ReflTransGen.head_induction_on generalizing reader
    consumer with
  | refl =>
    exact .single (edge_of_mem_readers ((mem_readers hg).mpr
      ⟨node, consumer, arg', hnode, hconsumer, houtput, harg, hexists⟩))
  | head hskip _ ih =>
    obtain ⟨first, second, hpair⟩ := hskip
    have hedges := (Skips.exists_edges hg hpair hconsumer harg).1
    obtain ⟨output, hfirst, -⟩ := hpair
    obtain ⟨cast, hcast, hinput⟩ := castArgs_input hg hfirst
    exact (ih hcast (mem_append_left _ hinput)).trans hedges

/-- Once moved, an argument does not come back. -/
theorem swept_ne (hg : g.CastReady) (h : g.CastPair first second input result)
    (hreader : reader ∈ g.readers second) (hlt : first < k) :
    g.swept k reader result ≠ result := by
  intro hback
  have hchain := (skips_swept hg first first input).trans
    (swept_visited hg h hreader ▸ skips_swept_of_le hg hlt reader result)
  rw [hback] at hchain
  have hundoes := h.undoes.mem_readers hg
  obtain ⟨output, hfirst, hsecond, -⟩ := h
  obtain ⟨cast, hcast, hinput⟩ := castArgs_input hg hfirst
  obtain ⟨node, hnode, houtput, hexists⟩ := castArgs_output hg hsecond
  have hpath := transGen_of_skips hg hchain hcast (mem_append_left _ hinput)
    hnode houtput hexists
  exact hg.acyclic _ (hpath.tail (edge_of_mem_readers hundoes))

/-- A first cast that reads a second cast visited later has moved its readers
too early: they have to be readers of that second cast, too. -/
def Untangled (g : Graph) : Prop :=
  ∀ first second first' second', g.Undoes first second →
    g.Undoes first' second' → first < first' → first ∈ g.readers second' →
    ∀ reader ∈ g.readers second, reader ∈ g.readers second'

/-- An argument that is the result of a second cast is still to be moved. -/
theorem Untangled.pending (h : g.Untangled) (hg : g.CastReady)
    (hconsumer : g.node reader = some consumer)
    (harg : arg ∈ consumer.inputDefs)
    (hpair : g.CastPair first second input (g.swept k reader arg)) :
    k ≤ first ∧ reader ∈ g.readers second := by
  induction k generalizing reader consumer arg first second input with
  | zero =>
    exact ⟨Nat.zero_le _, (Skips.exists_edges hg hpair hconsumer
      (mem_append_left _ harg)).2⟩
  | succ k ih =>
    rcases swept_succ_cases hg k reader arg with ⟨hsame, hnone⟩ |
      ⟨moved, input', hreader, hmoved, hnext⟩
    · rw [hsame] at hpair
      obtain ⟨hle, hmem⟩ := ih hconsumer harg hpair
      refine ⟨Nat.lt_of_le_of_ne hle ?_, hmem⟩
      rintro rfl
      exact hnone second input hmem hpair
    · rw [hnext] at hpair
      have hundoes := hmoved.undoes
      obtain ⟨output, hfirst, -⟩ := hmoved
      obtain ⟨cast, hcast, hinput⟩ := castArgs_input hg hfirst
      obtain ⟨hle, hmem⟩ := ih hcast hinput hpair
      have hlt : k < first := by
        refine Nat.lt_of_le_of_ne hle ?_
        rintro rfl
        exact hpair.undoes.not_mem_readers hg hmem
      exact ⟨hlt, h k moved first second hundoes hpair.undoes hlt hmem reader
        hreader⟩

/-- The readers of a second cast stay with what the first one reads. -/
theorem Untangled.swept_eq (h : g.Untangled) (hg : g.CastReady)
    (hpair : g.CastPair first second input result)
    (hconsumer : g.node reader = some consumer)
    (hresult : result ∈ consumer.inputDefs) (hlt : first < k) :
    g.swept k reader result = g.swept k first input := by
  have hreader := (Skips.exists_edges hg hpair hconsumer
    (mem_append_left _ hresult)).2
  obtain ⟨cast, hcast, hinput⟩ : ∃ cast, g.node first = some cast ∧
      input ∈ cast.inputDefs := by
    obtain ⟨output, hfirst, -⟩ := hpair
    exact castArgs_input hg hfirst
  induction k, hlt using Nat.le_induction with
  | base =>
    rw [swept_visited hg hpair hreader]
    rcases swept_succ_cases hg first first input with ⟨hsame, -⟩ |
      ⟨other, _, hmem, hother, -⟩
    · exact hsame.symm
    · exact absurd hmem (hother.undoes.not_mem_readers hg)
  | succ k _ ih =>
    rcases swept_succ_cases hg k reader result with ⟨hsame, hnone⟩ |
      ⟨other, input', -, hother, hnext⟩
    · rcases swept_succ_cases hg k first input with ⟨hsame', -⟩ |
        ⟨other, input', -, hother, -⟩
      · rw [hsame, hsame', ih]
      · rw [← ih] at hother
        exact absurd hother (hnone other input'
          (h.pending hg hconsumer hresult hother).2)
    · rcases swept_succ_cases hg k first input with ⟨-, hnone⟩ |
        ⟨other', input'', -, hother', hnext'⟩
      · rw [ih] at hother
        exact absurd hother (hnone other input'
          (h.pending hg hcast hinput hother).2)
      · rw [← ih] at hother'
        rw [hnext, hnext', (hother.unique hg hother').2.2]

end Swept

end Graph

end OnnxRuntime
