/-
`UnsqueezeElimination`: an `Unsqueeze` of an initializer is folded into the
shape of the initializer, which is to be the one the kernel computes.
-/
import OnnxRuntime.TensorInitializer
import OnnxRuntime.TopologicalSort

namespace OnnxRuntime

open List

/-- The attribute `axes` of a node; `other` is one of another type. -/
inductive AxesAttribute where
  | ints (values : List Int)
  | other
deriving Repr, DecidableEq

namespace Unsqueeze

/-- An `int64_t` where a `size_t` is expected. -/
def asSize (axis : Int) : Nat := (axis % (sizeBound : Int)).toNat

/-- Every entry that is zero is replaced by the next of the dimensions. -/
def fillDims : List Int → List Int → Except FusionStop (List Int)
  | [], _ => .ok []
  | 0 :: _, [] => .error .outOfBounds
  | 0 :: rest, dim :: dims => (fillDims rest dims).map (dim :: ·)
  | axis :: rest, dims => (fillDims rest dims).map (axis :: ·)

/-- One axis of `UnsqueezeBase::PrepareCompute`. -/
def prepareAxis (outputDims : List Int) (axis : Int) :
    Except FusionStop (List Int) :=
  match outputDims[asSize axis]? with
  | none => .error (.failure (.status .invalidArgument
      "'axes' has an out of range axis"))
  | some dim =>
    if dim ≠ 0 then
      .error (.failure (.status .invalidArgument "'axes' has a duplicate axis"))
    else .ok (outputDims.set (asSize axis) 1)

/-- The shape the kernel gives to its output. -/
def prepareCompute (axes dims : List Int) : Except FusionStop (List Int) := do
  let outputDims ← axes.foldlM prepareAxis
    (List.replicate (axes.length + dims.length) 0)
  fillDims outputDims dims

/-- `new_dims[axis] = 1`. -/
def setAxis (newDims : List Int) (axis : Int) : Except FusionStop (List Int) :=
  if asSize axis < newDims.length then .ok (newDims.set (asSize axis) 1)
  else .error .outOfBounds

/-- The shape the transformer gives to the initializer. -/
def foldDims (axes dims : List Int) : Except FusionStop (List Int) :=
  if 2147483647 ≤ axes.length + dims.length then
    .error (.failure (.status .fail "index out of range"))
  else do
    let newDims ← axes.foldlM setAxis
      (List.replicate (axes.length + dims.length) 0)
    fillDims newDims dims

end Unsqueeze

/-- A graph with its initializers and shapes, and the nodes to be removed. -/
structure UnsqueezeState (K : Type) where
  graph : Graph
  initializers : GraphInitializers (TensorData K)
  argShape : Nat → Option (List Int) := fun _ => none
  removedNodes : List NodeIndex := []

namespace UnsqueezeElimination

open Unsqueeze

variable {K : Type}

def isNodeOutputsInGraphOutputs (g : Graph) (node : GraphNode) : Bool :=
  node.outputDefs.any fun arg => g.inputsOutputs.outputs.any fun output =>
    output.map (·.pointer) = some arg.pointer

/-- A node that reads the output reads the initializer instead. -/
def replaceInput (inputDef outputDef : GraphArg) (g : Graph) (edge : EdgeEnd) :
    Except FusionStop Graph :=
  if (g.node edge.node).isSome then
    .ok (g.modifyNode edge.node fun node => { node with
      inputDefs := node.inputDefs.map fun arg =>
        if arg.pointer = outputDef.pointer then inputDef else arg })
  else .error (.failure (.status .invalidArgument ""))

/-- The tensor with another shape. -/
def withDims (tensor : NamedTensor (TensorData K)) (dims : List Int) :
    NamedTensor (TensorData K) :=
  ⟨tensor.name, { tensor.value with dims := dims }⟩

/-- The node with this input and this initializer is folded. -/
def foldNode (state : UnsqueezeState K) (index : NodeIndex)
    (node : GraphNode) (axes : List Int) (inputDef : GraphArg)
    (tensor : NamedTensor (TensorData K)) :
    Except FusionStop (UnsqueezeState K) := do
  let newDims ← foldDims axes tensor.value.dims
  match node.outputDefs with
  | [] => .error (.failure .nullDereference)
  | outputDef :: _ =>
    let graph ← node.outputEdges.foldlM (replaceInput inputDef outputDef)
      state.graph
    return {
      graph := graph
      initializers := (state.initializers.removeInitializedTensor
        inputDef.name).addInitializedTensor (withDims tensor newDims)
      argShape := Function.update state.argShape inputDef.pointer (some newDims)
      removedNodes := state.removedNodes ++ [index] }

section

variable (axesOf : NodeIndex → Option AxesAttribute) (state : UnsqueezeState K)

/-- One node of the loop.  A node without the attribute, or without inputs, is
read where there is nothing. -/
def visit (index : NodeIndex) : Except FusionStop (UnsqueezeState K) :=
  match state.graph.node index with
  | none => .ok state
  | some node =>
    if node.opType ≠ "Unsqueeze" ∨ node.inputEdges ≠ [] ∨
        isNodeOutputsInGraphOutputs state.graph node then
      .ok state
    else
      match axesOf index, node.inputDefs with
      | none, _ => .error (.failure .nullDereference)
      | some .other, _ => .ok state
      | some (.ints _), [] => .error (.failure .nullDereference)
      | some (.ints axes), inputDef :: _ =>
        match state.initializers.getInitializedTensor inputDef.name with
        | none => .ok state
        | some tensor => foldNode state index node axes inputDef tensor

/-- The nodes in the order of the loop. -/
def visitedNodes : List NodeIndex :=
  state.graph.liveNodes.map Prod.fst

/-- `UnsqueezeElimination::Apply`. -/
def apply (axesOf : NodeIndex → Option AxesAttribute)
    (inferTypes : Graph → Except Failure (Nat → Option TypeProto))
    (state : UnsqueezeState K) (modified : Bool) :
    Except FusionStop (UnsqueezeState K × Bool) := do
  let state ← (visitedNodes state).foldlM (visit axesOf) state
  let graph ← (state.removedNodes.foldlM (fun (g : Graph) index =>
    (g.removeNode index).map Prod.fst) state.graph).mapError .failure
  if state.removedNodes = [] then return (state, modified)
  else
    let graph ← (graph.resolve inferTypes).mapError .failure
    return ({ state with graph := graph }, true)

/-- The node is an `Unsqueeze` of an initializer that is to be folded. -/
structure Foldable (index : NodeIndex) (node : GraphNode)
    (axes : List Int) (inputDef : GraphArg)
    (tensor : NamedTensor (TensorData K)) : Prop where
  node_eq : state.graph.node index = some node
  opType_eq : node.opType = "Unsqueeze"
  inputEdges_eq : node.inputEdges = []
  not_output : ¬ isNodeOutputsInGraphOutputs state.graph node
  axes_eq : axesOf index = some (.ints axes)
  input_eq : node.inputDefs.head? = some inputDef
  tensor_eq :
    state.initializers.getInitializedTensor inputDef.name = some tensor

/-- The axes and the initializer of a node that is to be folded. -/
def Folds (index : NodeIndex) (axes : List Int)
    (tensor : NamedTensor (TensorData K)) : Prop :=
  ∃ node inputDef, Foldable axesOf state index node axes inputDef tensor

/-- What the node reads, as the graph had it at the `start`, has the shape that
the kernel gives to its output. -/
def AsKernel (start : UnsqueezeState K) (index : NodeIndex) : Prop :=
  ∃ axes tensor newDims, Folds axesOf start index axes tensor ∧
    prepareCompute axes tensor.value.dims = .ok newDims ∧
    state.initializers.getInitializedTensor tensor.name =
      some (withDims tensor newDims)

/-- After the round every node that was folded is replaced by what the kernel
computes; nothing is accessed out of bounds. -/
def RoundLikeKernel (start : UnsqueezeState K) (index : NodeIndex) : Prop :=
  match visit axesOf state index with
  | .ok state' => ∀ folded ∈ state'.removedNodes,
      AsKernel axesOf state' start folded
  | .error stop => stop ≠ .outOfBounds

/-- All rounds of the loop fold as the kernel computes. -/
def FoldsLikeKernel : Prop :=
  AlongRun (visit axesOf) (fun mid => RoundLikeKernel axesOf mid state) state
    (visitedNodes state)

/-- As indices the axes are different, and below the rank of the result. -/
def ValidAxes (axes dims : List Int) : Prop :=
  (∀ axis ∈ axes, asSize axis < axes.length + dims.length) ∧
    (axes.map asSize).Nodup

/-- There are too many dimensions to try, together with those that the earlier
nodes add to the same initializer. -/
def Overlong (done : List NodeIndex) (index : NodeIndex) : Prop :=
  ∃ axes tensor, Folds axesOf state index axes tensor ∧
    (2147483647 ≤ axes.length + tensor.value.dims.length ∨
      ∃ other ∈ done, ∃ axes', Folds axesOf state other axes' tensor ∧
        2147483647 ≤ axes.length + (axes'.length + tensor.value.dims.length))

/-- The axes are valid, and no earlier node is folded into the same initializer
unless neither has axes. -/
def FoldsApart (done : List NodeIndex) (index : NodeIndex) : Prop :=
  ∀ axes tensor, Folds axesOf state index axes tensor →
    ValidAxes axes tensor.value.dims ∧
    ∀ other ∈ done, ∀ axes', Folds axesOf state other axes' tensor →
      axes = [] ∧ axes' = []

/-- All nodes up to the first one with too many dimensions. -/
def AllFoldApart (done : List NodeIndex) : List NodeIndex → Prop
  | [] => True
  | index :: rest => Overlong axesOf state done index ∨
      FoldsApart axesOf state done index ∧ AllFoldApart (done ++ [index]) rest

/-- What a resolved graph has: edges at both ends, initializers by their names,
and the attribute and the arguments that the schema asks for. -/
structure Ready : Prop where
  mirrored : state.graph.Mirrored
  valid : state.initializers.Valid
  schema : ∀ index node, state.graph.node index = some node →
    node.opType = "Unsqueeze" →
      axesOf index ≠ none ∧ node.inputDefs ≠ [] ∧ node.outputDefs ≠ []
  none_removed : state.removedNodes = []

end

section Dims

variable {axes dims ones : List Int}

/-- All zeros are filled, or the dimensions do not suffice. -/
theorem fillDims_cases (ones dims : List Int) :
    (∃ newDims, fillDims ones dims = .ok newDims ∧ ones.count 0 ≤ dims.length) ∨
    (fillDims ones dims = .error .outOfBounds ∧
      dims.length < ones.count 0) := by
  fun_induction fillDims ones dims with
  | case1 dims => exact .inl ⟨[], rfl, Nat.zero_le _⟩
  | case2 rest =>
    rw [count_cons_self]
    exact .inr ⟨rfl, Nat.succ_pos _⟩
  | case3 rest dim dims ih =>
    rw [count_cons_self]
    rcases ih with ⟨newDims, hfill, hle⟩ | ⟨hfill, hlt⟩
    · rw [hfill]
      exact .inl ⟨dim :: newDims, rfl, Nat.succ_le_succ hle⟩
    · rw [hfill]
      exact .inr ⟨rfl, Nat.succ_lt_succ hlt⟩
  | case4 axis rest dims hnil hcons ih =>
    have hne : axis ≠ 0 := by
      rintro rfl
      cases dims with
      | nil => exact hnil rfl rfl
      | cons dim dims => exact hcons dim dims rfl rfl
    rw [count_cons_of_ne hne]
    rcases ih with ⟨newDims, hfill, hle⟩ | ⟨hfill, hlt⟩
    · rw [hfill]
      exact .inl ⟨axis :: newDims, rfl, hle⟩
    · rw [hfill]
      exact .inr ⟨rfl, hlt⟩

variable {newDims ones' : List Int} {axis : Int}

theorem fillDims_eq_ok (h : fillDims ones dims = .ok newDims) :
    ones.count 0 ≤ dims.length := by
  rcases fillDims_cases ones dims with ⟨-, -, hle⟩ | ⟨hfill, -⟩
  · exact hle
  · cases h.symm.trans hfill

theorem length_fillDims (h : fillDims ones dims = .ok newDims) :
    newDims.length = ones.length := by
  fun_induction fillDims ones dims generalizing newDims with
  | case1 =>
    cases h
    rfl
  | case2 => cases h
  | case3 rest dim dims ih | case4 dim rest dims _ _ ih =>
    cases hfill : fillDims rest dims with
    | error stop =>
      rw [hfill] at h
      cases h
    | ok filled =>
      rw [hfill] at h
      cases h
      exact congrArg Nat.succ (ih hfill)

theorem fillDims_replicate (dims : List Int) :
    fillDims (replicate dims.length 0) dims = .ok dims := by
  induction dims with
  | nil => rfl
  | cons dim rest ih =>
    rw [length_cons, replicate_succ, fillDims, ih]
    rfl

theorem prepareAxis_eq_ok_iff : prepareAxis ones axis = .ok ones' ↔
      ones[asSize axis]? = some 0 ∧ ones' = ones.set (asSize axis) 1 := by
  rw [prepareAxis]
  cases hdim : ones[asSize axis]? with
  | none => simp
  | some dim =>
    by_cases hzero : dim = 0
    · simp [hzero, eq_comm]
    · simp [hzero]

theorem setAxis_eq_ok_iff : setAxis ones axis = .ok ones' ↔
      asSize axis < ones.length ∧ ones' = ones.set (asSize axis) 1 := by
  rw [setAxis]
  by_cases hlt : asSize axis < ones.length
  · simp [hlt, eq_comm]
  · simp [hlt]

/-- An axis takes away one zero, or none where it was set before. -/
theorem count_set_axis (hlt : asSize axis < ones.length) :
    ones.count 0 ≤ (ones.set (asSize axis) 1).count 0 + 1 ∧
      ((ones.set (asSize axis) 1).count 0 + 1 = ones.count 0 ↔
        ones[asSize axis]? = some 0) := by
  rw [count_set hlt, getElem?_eq_getElem hlt]
  by_cases hzero : ones[asSize axis] = 0
  · have hpos : 0 < ones.count 0 :=
      count_pos_iff.mpr (hzero ▸ getElem_mem hlt)
    simp [hzero]
    omega
  · simp [hzero]

theorem foldlM_setAxis_count (h : axes.foldlM setAxis ones = .ok ones') :
    ones.count 0 ≤ ones'.count 0 + axes.length := by
  induction axes generalizing ones with
  | nil =>
    cases foldlM_nil_eq_ok.mp h
    exact Nat.le_refl _
  | cons axis rest ih =>
    obtain ⟨mid, hmid, hrest⟩ := foldlM_cons_eq_ok.mp h
    obtain ⟨hlt, rfl⟩ := setAxis_eq_ok_iff.mp hmid
    have hcount := (count_set_axis hlt).1
    have hle := ih hrest
    rw [length_cons]
    omega

/-- Without its checks the kernel would do the same, but for a zero that is
left for every axis set twice. -/
theorem foldlM_prepareAxis_iff : axes.foldlM prepareAxis ones = .ok ones' ↔
      axes.foldlM setAxis ones = .ok ones' ∧
        ones'.count 0 + axes.length ≤ ones.count 0 := by
  induction axes generalizing ones with
  | nil =>
    rw [foldlM_nil_eq_ok, foldlM_nil_eq_ok]
    constructor
    · rintro rfl
      exact ⟨rfl, Nat.le_refl _⟩
    · exact fun h => h.1
  | cons axis rest ih =>
    rw [foldlM_cons_eq_ok, foldlM_cons_eq_ok, length_cons]
    constructor
    · rintro ⟨mid, hmid, hrest⟩
      obtain ⟨hzero, rfl⟩ := prepareAxis_eq_ok_iff.mp hmid
      obtain ⟨hlt, -⟩ := List.getElem?_eq_some_iff.mp hzero
      obtain ⟨hset, hle⟩ := ih.mp hrest
      have hcount := (count_set_axis hlt).2.mpr hzero
      exact ⟨⟨_, setAxis_eq_ok_iff.mpr ⟨hlt, rfl⟩, hset⟩, by omega⟩
    · rintro ⟨⟨mid, hmid, hrest⟩, hle⟩
      obtain ⟨hlt, rfl⟩ := setAxis_eq_ok_iff.mp hmid
      have hcount := foldlM_setAxis_count hrest
      have hstep := (count_set_axis hlt).1
      have hzero := (count_set_axis hlt).2.mp (by omega)
      exact ⟨_, prepareAxis_eq_ok_iff.mpr ⟨hzero, rfl⟩,
        ih.mpr ⟨hrest, by omega⟩⟩

theorem foldlM_prepareAxis_isOk_iff :
    (∃ ones', axes.foldlM prepareAxis ones = .ok ones') ↔
      (∀ axis ∈ axes, ones[asSize axis]? = some 0) ∧
        (axes.map asSize).Nodup := by
  induction axes generalizing ones with
  | nil => exact ⟨fun _ => ⟨nofun, nodup_nil⟩, fun _ => ⟨ones, rfl⟩⟩
  | cons axis rest ih =>
    simp only [foldlM_cons_eq_ok, prepareAxis_eq_ok_iff, map_cons,
      nodup_cons, forall_mem_cons]
    constructor
    · rintro ⟨ones', mid, ⟨hzero, rfl⟩, hrest⟩
      obtain ⟨hall, hnodup⟩ := ih.mp ⟨ones', hrest⟩
      refine ⟨⟨hzero, fun other hother => ?_⟩, ?_, hnodup⟩
      · grind
      · intro hmem
        obtain ⟨other, hother, heq⟩ := mem_map.mp hmem
        have hset := hall other hother
        rw [heq] at hset
        grind
    · rintro ⟨⟨hzero, hall⟩, hnot, hnodup⟩
      have hset : ∀ other ∈ rest,
          (ones.set (asSize axis) 1)[asSize other]? = some 0 := by
        intro other hother
        have hne : asSize axis ≠ asSize other := fun heq =>
          hnot (heq ▸ mem_map_of_mem hother)
        rw [getElem?_set_ne hne]
        exact hall other hother
      obtain ⟨ones', hrest⟩ := ih.mpr ⟨hset, hnodup⟩
      exact ⟨ones', _, ⟨hzero, rfl⟩, hrest⟩

theorem length_prepareCompute (h : prepareCompute axes dims = .ok newDims) :
    newDims.length = axes.length + dims.length := by
  obtain ⟨ones, hones, hfill⟩ := except_bind_eq_ok.mp h
  rw [length_fillDims hfill]
  refine foldlM_preserves (motive := fun mid : List Int =>
    mid.length = axes.length + dims.length) (fun mid mid' axis _ hlen hstep =>
      ?_) length_replicate hones
  rw [(prepareAxis_eq_ok_iff.mp hstep).2, length_set, hlen]

theorem prepareCompute_nil (dims : List Int) :
    prepareCompute [] dims = .ok dims := by
  rw [prepareCompute, foldlM_nil, length_nil, Nat.zero_add]
  exact fillDims_replicate dims

theorem count_replicate_size :
    (replicate (axes.length + dims.length) (0 : Int)).count 0 =
      axes.length + dims.length := count_replicate_self

theorem prepareCompute_isOk_iff :
    (∃ newDims, prepareCompute axes dims = .ok newDims) ↔
      ValidAxes axes dims := by
  have hzero : ∀ axis, (replicate (axes.length + dims.length)
      (0 : Int))[asSize axis]? = some 0 ↔
        asSize axis < axes.length + dims.length := by
    intro axis
    rw [getElem?_replicate]
    split <;> simp_all
  rw [ValidAxes]
  simp only [← hzero]
  rw [← foldlM_prepareAxis_isOk_iff]
  simp only [prepareCompute, except_bind_eq_ok]
  constructor
  · rintro ⟨newDims, ones, hones, -⟩
    exact ⟨ones, hones⟩
  · rintro ⟨ones, hones⟩
    obtain ⟨-, hcount⟩ := foldlM_prepareAxis_iff.mp hones
    rw [count_replicate_size] at hcount
    rcases fillDims_cases ones dims with ⟨newDims, hfill, -⟩ | ⟨-, hlt⟩
    · exact ⟨newDims, ones, hones, hfill⟩
    · omega

theorem setAxis_eq_error (ones : List Int) (axis : Int) (stop : FusionStop)
    (h : setAxis ones axis = .error stop) : stop = .outOfBounds := by
  rw [setAxis] at h
  split at h
  · cases h
  · cases h
    rfl

variable (hsize : ¬ 2147483647 ≤ axes.length + dims.length)
include hsize

theorem foldDims_eq_ok_iff : foldDims axes dims = .ok newDims ↔
      prepareCompute axes dims = .ok newDims := by
  rw [foldDims, if_neg hsize, prepareCompute, except_bind_eq_ok,
    except_bind_eq_ok]
  refine exists_congr fun ones => and_congr_left fun hfill => ?_
  have hcount := fillDims_eq_ok hfill
  rw [foldlM_prepareAxis_iff, count_replicate_size]
  exact (and_iff_left (by omega)).symm

theorem foldDims_eq_error {stop : FusionStop}
    (h : foldDims axes dims = .error stop) : stop = .outOfBounds := by
  rw [foldDims, if_neg hsize] at h
  cases hones : axes.foldlM setAxis
      (replicate (axes.length + dims.length) 0) with
  | error stop' =>
    rw [hones] at h
    cases h
    exact foldlM_error_of_steps setAxis_eq_error hones
  | ok ones =>
    rw [hones] at h
    rcases fillDims_cases ones dims with ⟨newDims, hfill, -⟩ | ⟨hfill, -⟩
    · cases h.symm.trans hfill
    · exact Except.error.inj (h.symm.trans hfill)

end Dims

section Visits

variable {axesOf : NodeIndex → Option AxesAttribute} {state : UnsqueezeState K}
  {index : NodeIndex} {node : GraphNode} {axes : List Int}
  {inputDef : GraphArg} {tensor : NamedTensor (TensorData K)}

/-- The nodes without input edges are the same, and so are the outputs of the
graph. -/
structure KeepsRoots (g g' : Graph) : Prop where
  node_iff : ∀ index node, node.inputEdges = [] →
    (g'.node index = some node ↔ g.node index = some node)
  isSome_eq : ∀ index, (g'.node index).isSome = (g.node index).isSome
  outputs_eq : g'.inputsOutputs = g.inputsOutputs

theorem KeepsRoots.modifyNode {g g' : Graph} {f : GraphNode → GraphNode}
    (h : KeepsRoots g g') (hedges : g.inputEdgesOf index ≠ [])
    (hkeep : ∀ node, (f node).inputEdges = node.inputEdges) :
    KeepsRoots g (g'.modifyNode index f) where
  node_iff other root hroot := by
    rw [← h.node_iff other root hroot, Graph.node_modifyNode]
    split
    · rename_i heq
      subst heq
      cases hnode : g'.node index with
      | none => simp
      | some node =>
        have hne : node.inputEdges ≠ [] := by
          intro hnil
          rw [h.node_iff index node hnil] at hnode
          exact hedges (by rw [Graph.inputEdgesOf, hnode]; exact hnil)
        refine iff_of_false ?_ ?_
        · rintro ⟨⟩
          exact hne ((hkeep node).symm.trans hroot)
        · rintro ⟨⟩
          exact hne hroot
    · rfl
  isSome_eq other := by rw [Graph.isSome_modifyNode, h.isSome_eq]
  outputs_eq := h.outputs_eq

/-- The readers of a node have an input edge, so that no root is changed. -/
theorem KeepsRoots.replaceInputs {g g' : Graph} (h : KeepsRoots g g')
    (hmirror : g.Mirrored) (inputDef outputDef : GraphArg) {edges : EdgeSet}
    (hedges : ∀ e ∈ edges, e ∈ g.outputEdgesOf index) :
    ∃ g'', edges.foldlM (replaceInput inputDef outputDef) g' = .ok g'' ∧
      KeepsRoots g g'' := by
  induction edges generalizing g' with
  | nil => exact ⟨g', rfl, h⟩
  | cons e rest ih =>
    obtain ⟨he, hrest⟩ := forall_mem_cons.mp hedges
    have hmem := (hmirror ⟨index, e.srcArgIndex, e.node, e.dstArgIndex⟩).mp he
    have hlive : (g'.node e.node).isSome := by
      rw [h.isSome_eq]
      exact Graph.isSome_of_mem_inputEdgesOf hmem
    have hkept := h.modifyNode (ne_nil_of_mem hmem)
      (f := fun node => { node with
        inputDefs := node.inputDefs.map fun arg =>
          if arg.pointer = outputDef.pointer then inputDef else arg })
      fun _ => rfl
    obtain ⟨g'', hrun, hkept⟩ := ih hkept hrest
    refine ⟨g'', ?_, hkept⟩
    rw [foldlM_cons, replaceInput, if_pos hlive]
    exact hrun

/-- The initializers when one was replaced by another shape of it. -/
theorem getInitializedTensor_replaced {s : GraphInitializers (TensorData K)}
    (hvalid : s.Valid) (value : TensorData K)
    (hget : s.getInitializedTensor tensor.name = some tensor) (name : String) :
    ((s.removeInitializedTensor tensor.name).addInitializedTensor
        ⟨tensor.name, value⟩).getInitializedTensor name =
      if name = tensor.name then some ⟨tensor.name, value⟩
      else s.getInitializedTensor name := by
  have hsome := hvalid.getInitializedTensor_isSome.mp ⟨tensor, hget⟩
  by_cases hname : name = tensor.name
  · simp [GraphInitializers.removeInitializedTensor,
      GraphInitializers.addInitializedTensor,
      GraphInitializers.getInitializedTensor, hsome, hname]
  · simp only [GraphInitializers.removeInitializedTensor, hsome, if_true,
      GraphInitializers.addInitializedTensor, Function.update_self,
      Option.isSome_none, Bool.false_eq_true, if_false,
      GraphInitializers.getInitializedTensor, if_neg hname,
      Function.update_of_ne hname]
    cases hmap : s.nameToInitialTensor name with
    | none => rfl
    | some k =>
      obtain ⟨other, hother, -⟩ := hvalid.entry name k hmap
      exact getElem?_append_left (List.getElem?_eq_some_iff.mp hother).1

/-- The state after a fold. -/
structure FoldedInto (start state : UnsqueezeState K) (index : NodeIndex)
    (tensor : NamedTensor (TensorData K)) (newDims : List Int)
    (state' : UnsqueezeState K) : Prop where
  roots : KeepsRoots start.graph state'.graph
  valid : state'.initializers.Valid
  get_eq : ∀ name, state'.initializers.getInitializedTensor name =
    if name = tensor.name then some (withDims tensor newDims)
    else state.initializers.getInitializedTensor name
  removed_eq : state'.removedNodes = state.removedNodes ++ [index]

/-- A fold stops for too many dimensions, goes out of bounds where the axes are
not valid, or does what the kernel does. -/
theorem foldNode_cases {start : UnsqueezeState K}
    (hready : Ready axesOf start) (hroots : KeepsRoots start.graph state.graph)
    (hvalid : state.initializers.Valid)
    (h : Foldable axesOf state index node axes inputDef tensor) :
    (2147483647 ≤ axes.length + tensor.value.dims.length ∧ ∃ failure,
      foldNode state index node axes inputDef tensor =
        .error (.failure failure)) ∨
    ¬ 2147483647 ≤ axes.length + tensor.value.dims.length ∧
      ((¬ ValidAxes axes tensor.value.dims ∧
        foldNode state index node axes inputDef tensor = .error .outOfBounds) ∨
      ∃ newDims state', prepareCompute axes tensor.value.dims = .ok newDims ∧
        foldNode state index node axes inputDef tensor = .ok state' ∧
        FoldedInto start state index tensor newDims state') := by
  rw [foldNode]
  by_cases hsize : 2147483647 ≤ axes.length + tensor.value.dims.length
  · rw [foldDims, if_pos hsize]
    exact .inl ⟨hsize, _, rfl⟩
  refine .inr ⟨hsize, ?_⟩
  cases hfold : foldDims axes tensor.value.dims with
  | error stop =>
    cases foldDims_eq_error hsize hfold
    refine .inl ⟨fun hvalidAxes => ?_, rfl⟩
    obtain ⟨newDims, hok⟩ := prepareCompute_isOk_iff.mpr hvalidAxes
    cases hfold.symm.trans ((foldDims_eq_ok_iff hsize).mpr hok)
  | ok newDims =>
    have hnode := (hroots.node_iff index node h.inputEdges_eq).mp h.node_eq
    obtain ⟨-, hname⟩ := hvalid.mem_of_getInitializedTensor h.tensor_eq
    have hget := h.tensor_eq
    rw [← hname] at hget ⊢
    obtain ⟨outputDef, outputs, houtputs⟩ := exists_cons_of_ne_nil
      (hready.schema index node hnode h.opType_eq).2.2
    have hedges : ∀ e ∈ node.outputEdges,
        e ∈ start.graph.outputEdgesOf index := by
      intro e he
      rw [Graph.outputEdgesOf, hnode]
      exact he
    obtain ⟨graph, hgraph, hkept⟩ :=
      hroots.replaceInputs hready.mirrored inputDef outputDef hedges
    rw [houtputs]
    refine .inr ⟨newDims, _, (foldDims_eq_ok_iff hsize).mp hfold,
      by simp only [bind, Except.bind, hgraph]; rfl, hkept,
      (hvalid.removeInitializedTensor _).addInitializedTensor _,
      getInitializedTensor_replaced hvalid _ hget, rfl⟩

/-- A node is folded, or the visit leaves everything as it is. -/
theorem visit_cases (axesOf : NodeIndex → Option AxesAttribute)
    (state : UnsqueezeState K) (index : NodeIndex) :
    (∃ node axes inputDef tensor,
      Foldable axesOf state index node axes inputDef tensor ∧
      visit axesOf state index =
        foldNode state index node axes inputDef tensor) ∨
    (∀ node axes inputDef tensor,
      ¬ Foldable axesOf state index node axes inputDef tensor) ∧
      (visit axesOf state index = .ok state ∨
        ∃ node, state.graph.node index = some node ∧
          node.opType = "Unsqueeze" ∧ node.inputEdges = [] ∧
          (axesOf index = none ∨ node.inputDefs = [])) := by
  rw [visit]
  cases hnode : state.graph.node index with
  | none =>
    refine .inr ⟨fun _ _ _ _ h => ?_, .inl rfl⟩
    cases hnode.symm.trans h.node_eq
  | some node =>
    dsimp only
    split
    · rename_i hskip
      refine .inr ⟨fun _ _ _ _ h => ?_, .inl rfl⟩
      cases hnode.symm.trans h.node_eq
      rcases hskip with htype | hedges | houtputs
      · exact htype h.opType_eq
      · exact hedges h.inputEdges_eq
      · exact h.not_output houtputs
    · rename_i hkeep
      simp only [not_or, not_not] at hkeep
      split
      · rename_i haxes
        refine .inr ⟨fun _ _ _ _ h => ?_,
          .inr ⟨node, rfl, hkeep.1, hkeep.2.1, .inl haxes⟩⟩
        cases haxes.symm.trans h.axes_eq
      · rename_i haxes
        refine .inr ⟨fun _ _ _ _ h => ?_, .inl rfl⟩
        cases haxes.symm.trans h.axes_eq
      · rename_i haxes hinputs
        refine .inr ⟨fun _ _ _ _ h => ?_,
          .inr ⟨node, rfl, hkeep.1, hkeep.2.1, .inr hinputs⟩⟩
        cases hnode.symm.trans h.node_eq
        have hinput := h.input_eq
        rw [hinputs] at hinput
        cases hinput
      · rename_i axes inputDef rest haxes hinputs
        have hinput : node.inputDefs.head? = some inputDef := by
          rw [hinputs]
          rfl
        split
        · rename_i hnone
          refine .inr ⟨fun _ _ _ _ h => ?_, .inl rfl⟩
          cases hnode.symm.trans h.node_eq
          cases hinput.symm.trans h.input_eq
          cases hnone.symm.trans h.tensor_eq
        · rename_i tensor htensor
          exact .inl ⟨node, axes, inputDef, tensor, ⟨hnode, hkeep.1, hkeep.2.1,
            hkeep.2.2, haxes, hinput, htensor⟩, rfl⟩

theorem visit_of_foldable
    (h : Foldable axesOf state index node axes inputDef tensor) :
    visit axesOf state index =
      foldNode state index node axes inputDef tensor := by
  obtain ⟨rest, hinputs⟩ := head?_eq_some_iff.mp h.input_eq
  rw [visit, h.node_eq]
  simp only [h.opType_eq, h.inputEdges_eq, h.not_output, ne_eq, not_true,
    or_self, if_false, h.axes_eq, hinputs, h.tensor_eq, Bool.false_eq_true]

section Rounds

variable {start state' : UnsqueezeState K} {done : List NodeIndex}
  {axes' newDims : List Int} {tensor' : NamedTensor (TensorData K)}

theorem Folds.unique (h : Folds axesOf state index axes tensor)
    (h' : Folds axesOf state index axes' tensor') :
    axes = axes' ∧ tensor = tensor' := by
  obtain ⟨node, inputDef, h⟩ := h
  obtain ⟨node', inputDef', h'⟩ := h'
  cases h.node_eq.symm.trans h'.node_eq
  cases h.axes_eq.symm.trans h'.axes_eq
  cases h.input_eq.symm.trans h'.input_eq
  cases h.tensor_eq.symm.trans h'.tensor_eq
  exact ⟨rfl, rfl⟩

theorem Folds.get_eq (hvalid : state.initializers.Valid)
    (h : Folds axesOf state index axes tensor) :
    state.initializers.getInitializedTensor tensor.name = some tensor := by
  obtain ⟨node, inputDef, h⟩ := h
  rw [(hvalid.mem_of_getInitializedTensor h.tensor_eq).2]
  exact h.tensor_eq

theorem KeepsRoots.symm {g g' : Graph} (h : KeepsRoots g g') :
    KeepsRoots g' g where
  node_iff index node hroot := (h.node_iff index node hroot).symm
  isSome_eq index := (h.isSome_eq index).symm
  outputs_eq := h.outputs_eq.symm

theorem Foldable.of_roots (hroots : KeepsRoots state.graph state'.graph)
    (h : Foldable axesOf state index node axes inputDef tensor)
    (hget : state'.initializers.getInitializedTensor inputDef.name =
      some tensor') :
    Foldable axesOf state' index node axes inputDef tensor' where
  node_eq := (hroots.node_iff index node h.inputEdges_eq).mpr h.node_eq
  opType_eq := h.opType_eq
  inputEdges_eq := h.inputEdges_eq
  not_output := by
    rw [isNodeOutputsInGraphOutputs, hroots.outputs_eq]
    exact h.not_output
  axes_eq := h.axes_eq
  input_eq := h.input_eq
  tensor_eq := hget

/-- The state after the rounds for the nodes `done`, all of them as the kernel
has it. -/
structure Folded (axesOf : NodeIndex → Option AxesAttribute)
    (start : UnsqueezeState K) (done : List NodeIndex)
    (state : UnsqueezeState K) : Prop where
  roots : KeepsRoots start.graph state.graph
  valid : state.initializers.Valid
  removed_iff : ∀ index, index ∈ state.removedNodes ↔
    index ∈ done ∧ ∃ axes tensor, Folds axesOf start index axes tensor
  asKernel : ∀ index ∈ state.removedNodes, AsKernel axesOf state start index
  kept : ∀ name, (∀ index ∈ state.removedNodes, ∀ axes tensor,
      Folds axesOf start index axes tensor → tensor.name ≠ name) →
    state.initializers.getInitializedTensor name =
      start.initializers.getInitializedTensor name

/-- What the nodes `done` leave of the dimensions of a tensor, where all of them
are folded as the kernel has it. -/
structure LeftDims (axesOf : NodeIndex → Option AxesAttribute)
    (start : UnsqueezeState K) (done : List NodeIndex)
    (tensor : NamedTensor (TensorData K)) (dims : List Int) : Prop where
  kernel : ∀ other ∈ done, ∀ axes', Folds axesOf start other axes' tensor →
    prepareCompute axes' tensor.value.dims = .ok dims
  changed : dims = tensor.value.dims ∨
    ∃ other ∈ done, ∃ axes', Folds axesOf start other axes' tensor

namespace LeftDims

variable {dims : List Int} (h : LeftDims axesOf start done tensor dims)
include h

theorem length_eq {other : NodeIndex} (hother : other ∈ done)
    (hfolds : Folds axesOf start other axes' tensor) :
    dims.length = axes'.length + tensor.value.dims.length :=
  length_prepareCompute (h.kernel other hother axes' hfolds)

variable (hfolds : Folds axesOf start index axes tensor)
include hfolds

theorem overlong_iff : Overlong axesOf start done index ↔
      2147483647 ≤ axes.length + dims.length := by
  constructor
  · rintro ⟨_, _, hsame, hlong⟩
    obtain ⟨rfl, rfl⟩ := hfolds.unique hsame
    rcases hlong with hlong | ⟨other, hother, axes', hother', hlong⟩
    · rcases h.changed with rfl | ⟨other, hother, axes', hother'⟩
      · exact hlong
      · have hlen := h.length_eq hother hother'
        omega
    · rwa [h.length_eq hother hother']
  · intro hlong
    refine ⟨axes, tensor, hfolds, ?_⟩
    rcases h.changed with rfl | ⟨other, hother, axes', hother'⟩
    · exact .inl hlong
    · rw [h.length_eq hother hother'] at hlong
      exact .inr ⟨other, hother, axes', hother', hlong⟩

/-- Without axes the earlier nodes have left the initializer as it was. -/
theorem eq_of_foldsApart (hapart : FoldsApart axesOf start done index) :
    dims = tensor.value.dims := by
  rcases h.changed with heq | ⟨other, hother, axes', hother'⟩
  · exact heq
  · have hkernel := h.kernel other hother axes' hother'
    have hnil := (hapart axes tensor hfolds).2 other hother axes' hother'
    rw [hnil.2, prepareCompute_nil] at hkernel
    exact (Except.ok.inj hkernel).symm

end LeftDims

namespace Folded

variable (hready : Ready axesOf start) (h : Folded axesOf start done state)
include hready h

/-- What earlier nodes have made of an initializer, or the initializer. -/
theorem get_eq (hget : start.initializers.getInitializedTensor tensor.name =
      some tensor) :
    ∃ dims, state.initializers.getInitializedTensor tensor.name =
        some (withDims tensor dims) ∧
      LeftDims axesOf start done tensor dims := by
  have hdone : ∀ other ∈ done, ∀ axes', Folds axesOf start other axes' tensor →
      ∃ dims, prepareCompute axes' tensor.value.dims = .ok dims ∧
        state.initializers.getInitializedTensor tensor.name =
          some (withDims tensor dims) := by
    intro other hother axes' hfolds
    obtain ⟨_, _, dims, hfolds', hkernel⟩ := h.asKernel other
      ((h.removed_iff other).mpr ⟨hother, axes', tensor, hfolds⟩)
    obtain ⟨rfl, rfl⟩ := hfolds.unique hfolds'
    exact ⟨dims, hkernel⟩
  by_cases hshared : ∃ other ∈ done, ∃ axes',
      Folds axesOf start other axes' tensor
  · obtain ⟨other, hother, axes', hfolds⟩ := hshared
    obtain ⟨dims, -, hstate⟩ := hdone other hother axes' hfolds
    refine ⟨dims, hstate, fun other' hother' axes'' hfolds' => ?_,
      .inr ⟨other, hother, axes', hfolds⟩⟩
    obtain ⟨dims', hkernel, hstate'⟩ := hdone other' hother' axes'' hfolds'
    rw [hstate] at hstate'
    cases congrArg (·.value.dims) (Option.some.inj hstate')
    exact hkernel
  · refine ⟨tensor.value.dims, ?_, fun other hother axes' hfolds =>
      (hshared ⟨other, hother, axes', hfolds⟩).elim, .inl rfl⟩
    rw [h.kept, hget]
    · rfl
    rintro other hother axes' tensor' hfolds hname
    have hsame := hfolds.get_eq hready.valid
    rw [hname, hget] at hsame
    cases hsame
    exact hshared ⟨other, ((h.removed_iff other).mp hother).1, axes', hfolds⟩

/-- A round that folds as the kernel does, without harm to earlier ones. -/
theorem extend (hfolds : Folds axesOf start index axes tensor)
    {dims : List Int}
    (hinto : FoldedInto start state index (withDims tensor dims) newDims state')
    (hkernel : prepareCompute axes tensor.value.dims = .ok newDims)
    (hothers : ∀ other ∈ done, ∀ axes', Folds axesOf start other axes' tensor →
      prepareCompute axes' tensor.value.dims = .ok newDims) :
    Folded axesOf start (done ++ [index]) state' where
  roots := hinto.roots
  valid := hinto.valid
  removed_iff other := by
    rw [hinto.removed_eq, mem_append, h.removed_iff, mem_append, mem_singleton]
    constructor
    · rintro (⟨hdone, hother⟩ | rfl)
      · exact ⟨.inl hdone, hother⟩
      · exact ⟨.inr rfl, axes, tensor, hfolds⟩
    · rintro ⟨hdone | rfl, hother⟩
      · exact .inl ⟨hdone, hother⟩
      · exact .inr rfl
  asKernel other hother := by
    rw [hinto.removed_eq, mem_append, mem_singleton] at hother
    rcases hother with hother | rfl
    · obtain ⟨hdone, axes', tensor', hfolds'⟩ := (h.removed_iff other).mp hother
      by_cases hname : tensor'.name = tensor.name
      · have hsame := hfolds'.get_eq hready.valid
        rw [hname, hfolds.get_eq hready.valid] at hsame
        cases hsame
        exact ⟨axes', tensor, newDims, hfolds',
          hothers other hdone axes' hfolds',
          (hinto.get_eq _).trans (if_pos rfl)⟩
      · obtain ⟨dims', hget, hleft⟩ :=
          h.get_eq hready (hfolds'.get_eq hready.valid)
        exact ⟨axes', tensor', dims', hfolds',
          hleft.kernel other hdone axes' hfolds',
          ((hinto.get_eq _).trans (if_neg hname)).trans hget⟩
    · exact ⟨axes, tensor, newDims, hfolds, hkernel,
        (hinto.get_eq _).trans (if_pos rfl)⟩
  kept name hname := by
    rw [hinto.removed_eq, forall_mem_append, forall_mem_singleton] at hname
    exact ((hinto.get_eq name).trans
      (if_neg (hname.2 axes tensor hfolds).symm)).trans (h.kept name hname.1)

/-- A node that is not to be folded is left as it is. -/
theorem skip (hnone : ∀ axes tensor, ¬ Folds axesOf start index axes tensor) :
    visit axesOf state index = .ok state ∧
      Folded axesOf start (done ++ [index]) state := by
  constructor
  · rcases visit_cases axesOf state index with
      ⟨node, axes, inputDef, tensor, hfoldable, -⟩ |
      ⟨-, hsame | ⟨node, hnode, htype, hroot, hnull⟩⟩
    · exfalso
      by_cases hname : ∃ other ∈ done, ∃ axes' tensor',
          Folds axesOf start other axes' tensor' ∧ tensor'.name = inputDef.name
      · obtain ⟨other, -, axes', tensor', hfolds, hname⟩ := hname
        exact hnone axes tensor' ⟨node, inputDef, hfoldable.of_roots
          h.roots.symm (hname ▸ hfolds.get_eq hready.valid)⟩
      · refine hnone axes tensor ⟨node, inputDef, hfoldable.of_roots
          h.roots.symm ?_⟩
        rw [← h.kept, hfoldable.tensor_eq]
        intro other hother axes' tensor' hfolds heq
        exact hname ⟨other, ((h.removed_iff other).mp hother).1, axes', tensor',
          hfolds, heq⟩
    · exact hsame
    · obtain ⟨haxes, hinputs, -⟩ := hready.schema index node
        ((h.roots.node_iff index node hroot).mp hnode) htype
      exact (hnull.elim haxes hinputs).elim
  · refine ⟨h.roots, h.valid, fun other => ?_, h.asKernel, h.kept⟩
    rw [h.removed_iff, mem_append, mem_singleton]
    constructor
    · rintro ⟨hdone, hother⟩
      exact ⟨.inl hdone, hother⟩
    · rintro ⟨hdone | rfl, hother⟩
      · exact ⟨hdone, hother⟩
      · obtain ⟨axes, tensor, hfolds⟩ := hother
        exact (hnone axes tensor hfolds).elim

section Fold

variable {dims : List Int} (hfolds : Folds axesOf start index axes tensor)
  (hleft : LeftDims axesOf start done tensor dims)
  (hkernel : prepareCompute axes dims = .ok newDims)
  (hinto : FoldedInto start state index (withDims tensor dims) newDims state')
include hfolds hleft hkernel hinto

theorem extend_of_foldsApart (hapart : FoldsApart axesOf start done index) :
    Folded axesOf start (done ++ [index]) state' := by
  obtain rfl := hleft.eq_of_foldsApart hfolds hapart
  refine h.extend hready hfolds hinto hkernel
    fun other hother axes' hother' => ?_
  obtain ⟨rfl, rfl⟩ := (hapart axes tensor hfolds).2 other hother axes' hother'
  exact hkernel

omit hready

/-- If all nodes that were folded into the tensor have the dimensions that it
has now, all have as many axes, so that a second one has none. -/
theorem foldsApart_of_asKernel
    (hround : ∀ folded ∈ state'.removedNodes,
      AsKernel axesOf state' start folded) :
    FoldsApart axesOf start done index := by
  have hcount : ∀ folded ∈ state'.removedNodes, ∀ axes',
      Folds axesOf start folded axes' tensor →
        ValidAxes axes' tensor.value.dims ∧
        axes'.length + tensor.value.dims.length =
          axes.length + dims.length := by
    intro folded hfolded axes' hfolds'
    obtain ⟨_, _, dims', hsame, hdims', hgot⟩ := hround folded hfolded
    obtain ⟨rfl, rfl⟩ := hfolds'.unique hsame
    rw [(hinto.get_eq tensor.name).trans (if_pos rfl)] at hgot
    have heq : newDims = dims' :=
      congrArg (·.value.dims) (Option.some.inj hgot)
    refine ⟨prepareCompute_isOk_iff.mp ⟨dims', hdims'⟩, ?_⟩
    rw [← length_prepareCompute hdims', ← heq, length_prepareCompute hkernel]
  obtain ⟨hvalid, hlast⟩ :=
    hcount index (by simp [hinto.removed_eq]) axes hfolds
  intro _ _ hsame
  obtain ⟨rfl, rfl⟩ := hfolds.unique hsame
  refine ⟨hvalid, fun other hother axes' hother' => ?_⟩
  have hremoved : other ∈ state'.removedNodes := by
    rw [hinto.removed_eq, mem_append, h.removed_iff]
    exact .inl ⟨hother, axes', tensor, hother'⟩
  have hfirst := (hcount other hremoved axes' hother').2
  have hlen := hleft.length_eq hother hother'
  exact ⟨eq_nil_of_length_eq_zero (by omega),
    eq_nil_of_length_eq_zero (by omega)⟩

end Fold

/-- A round stops for too many dimensions, or folds as the kernel computes
exactly if the node does not get in the way of earlier ones. -/
theorem step (index : NodeIndex) :
    (Overlong axesOf start done index ∧
      ∃ failure, visit axesOf state index = .error (.failure failure)) ∨
    ¬ Overlong axesOf start done index ∧
      (RoundLikeKernel axesOf state start index ↔
        FoldsApart axesOf start done index) ∧
      (FoldsApart axesOf start done index → ∃ state',
        visit axesOf state index = .ok state' ∧
          Folded axesOf start (done ++ [index]) state') := by
  by_cases hnone : ∃ axes tensor, Folds axesOf start index axes tensor
  swap
  · obtain ⟨hvisit, hskip⟩ := h.skip hready fun axes tensor hfolds =>
      hnone ⟨axes, tensor, hfolds⟩
    refine .inr ⟨fun ⟨axes, tensor, hfolds, _⟩ => hnone ⟨axes, tensor, hfolds⟩,
      ?_⟩
    rw [RoundLikeKernel, hvisit]
    refine ⟨iff_of_true h.asKernel fun axes tensor hfolds => ?_,
      fun _ => ⟨state, rfl, hskip⟩⟩
    exact (hnone ⟨axes, tensor, hfolds⟩).elim
  obtain ⟨axes, tensor, node, inputDef, hfoldable⟩ := hnone
  have hfolds : Folds axesOf start index axes tensor :=
    ⟨node, inputDef, hfoldable⟩
  obtain ⟨dims, hget, hleft⟩ := h.get_eq hready (hfolds.get_eq hready.valid)
  have hname := (hready.valid.mem_of_getInitializedTensor hfoldable.tensor_eq).2
  have hstate : Foldable axesOf state index node axes inputDef
      (withDims tensor dims) := hfoldable.of_roots h.roots (hname ▸ hget)
  rw [RoundLikeKernel, visit_of_foldable hstate, hleft.overlong_iff hfolds]
  rcases foldNode_cases hready h.roots h.valid hstate with
    ⟨hsize, hfail⟩ |
    ⟨hsize, ⟨hinvalid, hrun⟩ | ⟨newDims, state', hkernel, hrun, hinto⟩⟩
  · exact .inl ⟨hsize, hfail⟩
  · have hnot : ¬ FoldsApart axesOf start done index := by
      intro hapart
      obtain rfl := hleft.eq_of_foldsApart hfolds hapart
      exact hinvalid (hapart axes tensor hfolds).1
    rw [hrun]
    exact .inr ⟨hsize, ⟨fun hne => (hne rfl).elim, fun h => (hnot h).elim⟩,
      fun h => (hnot h).elim⟩
  · have hnext := h.extend_of_foldsApart hready hfolds hleft hkernel hinto
    rw [hrun]
    exact .inr ⟨hsize, ⟨h.foldsApart_of_asKernel hfolds hleft hkernel hinto,
      fun hapart => (hnext hapart).asKernel⟩,
      fun hapart => ⟨state', rfl, hnext hapart⟩⟩

theorem alongRun_iff (rest : List NodeIndex) :
    AlongRun (visit axesOf) (fun mid => RoundLikeKernel axesOf mid start) state
        rest ↔ AllFoldApart axesOf start done rest := by
  induction rest generalizing done state with
  | nil => exact Iff.rfl
  | cons index rest ih =>
    rw [AlongRun, AllFoldApart]
    rcases h.step hready index with ⟨hlong, failure, hvisit⟩ |
      ⟨hlong, hround, hnext⟩
    · rw [RoundLikeKernel, hvisit]
      exact iff_of_true ⟨nofun, trivial⟩ (.inl hlong)
    · rw [or_iff_right hlong, hround]
      refine and_congr_right fun hapart => ?_
      obtain ⟨state', hvisit, hfolded⟩ := hnext hapart
      rw [hvisit]
      exact ih hfolded

end Folded

/-- The loop of `Apply` folds as the kernel computes exactly when each node that
is to be folded has valid axes and an initializer of its own, up to the first
node with too many dimensions. -/
theorem foldsLikeKernel_iff (axesOf : NodeIndex → Option AxesAttribute)
    (start : UnsqueezeState K) (hready : Ready axesOf start) :
    FoldsLikeKernel axesOf start ↔
      AllFoldApart axesOf start [] (visitedNodes start) := by
  refine Folded.alongRun_iff hready ⟨⟨fun _ _ _ => Iff.rfl, fun _ => rfl, rfl⟩,
    hready.valid, ?_, ?_, fun _ _ => rfl⟩ _
  · simp [hready.none_removed]
  · simp [hready.none_removed]

/-- What `Apply` returns has the initializers of the last round. -/
theorem apply_asKernel {inferTypes : Graph → Except Failure
      (Nat → Option TypeProto)} {modified modified' : Bool}
    (hready : Ready axesOf start) (h : FoldsLikeKernel axesOf start)
    (hrun : apply axesOf inferTypes start modified = .ok (state, modified')) :
    ∀ folded ∈ state.removedNodes, AsKernel axesOf state start folded := by
  obtain ⟨last, hlast, hrun⟩ := except_bind_eq_ok.mp hrun
  have hkernel : ∀ folded ∈ last.removedNodes,
      AsKernel axesOf last start folded := by
    rcases eq_nil_or_concat' (visitedNodes start) with hnil | ⟨front, x, heq⟩
    · rw [hnil] at hlast
      cases hlast
      simp [hready.none_removed]
    · rw [FoldsLikeKernel, heq] at h
      rw [heq, foldlM_snoc_eq_ok] at hlast
      obtain ⟨mid, hfront, hvisit⟩ := hlast
      have hround := h.cond_of_snoc hfront
      rw [RoundLikeKernel, hvisit] at hround
      exact hround
  obtain ⟨graph, -, hrun⟩ := except_bind_eq_ok.mp hrun
  split at hrun
  · cases hrun
    exact hkernel
  · obtain ⟨resolved, -, hrun⟩ := except_bind_eq_ok.mp hrun
    cases hrun
    exact hkernel

end Rounds

end Visits

/-- An `Unsqueeze` of an initializer with one dimension. -/
def unsqueezeState : UnsqueezeState Unit where
  graph := {
    nodes := [some {
      opType := "Unsqueeze"
      inputDefs := [⟨1, "w"⟩]
      outputDefs := [⟨2, "y"⟩] }]
    numOfNodes := 1
    nodeArgs := [⟨1, "w"⟩, ⟨2, "y"⟩] }
  initializers := .load [⟨"w", { dataType := .float, dims := [5] }⟩] []

theorem ready_unsqueezeState (axes : List Int) :
    Ready (fun _ => some (.ints axes)) unsqueezeState where
  mirrored := by decide +kernel
  valid := GraphInitializers.load_valid
  schema index node hnode _ := by
    have hlive := Graph.mem_liveNodes.mpr hnode
    rw [show unsqueezeState.graph.liveNodes = [(0, _)] from rfl,
      mem_singleton] at hlive
    cases hlive
    exact ⟨nofun, cons_ne_nil _ _, cons_ne_nil _ _⟩
  none_removed := rfl

theorem foldsLikeKernel_unsqueezeState :
    FoldsLikeKernel (fun _ => some (.ints [1])) unsqueezeState := by
  refine (foldsLikeKernel_iff _ _ (ready_unsqueezeState [1])).mpr
    (.inr ⟨?_, trivial⟩)
  rintro axes tensor ⟨node, inputDef, hfoldable⟩
  cases hfoldable.axes_eq
  cases hfoldable.node_eq
  cases hfoldable.input_eq
  cases hfoldable.tensor_eq
  exact ⟨⟨by decide, by decide⟩, nofun⟩

/-- A negative axis is written before the first of the new dimensions. -/
theorem not_foldsLikeKernel_unsqueezeState :
    Ready (fun _ => some (.ints [-1])) unsqueezeState ∧
      prepareCompute [-1] [5] = .error (.failure (.status .invalidArgument
        "'axes' has an out of range axis")) ∧
      ¬ FoldsLikeKernel (fun _ => some (.ints [-1])) unsqueezeState := by
  refine ⟨ready_unsqueezeState [-1], rfl, fun h => ?_⟩
  exact h.1 rfl

end UnsqueezeElimination

end OnnxRuntime
