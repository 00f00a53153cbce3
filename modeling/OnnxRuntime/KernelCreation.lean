/-
The end of `Initialize`: the memory plan of the graph, then the kernel of every
node.  `CreateOpKernel` makes and logs an error for a node without a provider,
does not return it and goes on with the null pointer; it is the planner that
refuses such a graph.
-/
import OnnxRuntime.GraphPartitioner
import OnnxRuntime.GraphViewer
import OnnxRuntime.PlanSoundness

namespace OnnxRuntime

open Option List

variable {κ : Type}

/-- A registered kernel; creating one may throw. -/
structure KernelCreateInfo (κ : Type) where
  kernelDef : KernelDef := {}
  kernelCreateFunc : NodeIndex → IExecutionProvider → Except String κ

/-- What `TryFindKernel` answers for a node and a provider type. -/
structure KernelRegistry (κ : Type) where
  tryFindKernel : NodeIndex → String → Option (KernelCreateInfo κ)

def KernelRegistry.createKernel (registry : KernelRegistry κ)
    (index : NodeIndex) (opType : String) (provider : IExecutionProvider) :
    Except Failure κ :=
  match registry.tryFindKernel index provider.type with
  | none => .error (.status .fail ("Failed to find kernel for " ++ opType))
  | some info =>
    match info.kernelCreateFunc index provider with
    | .error message => .error (.thrown message)
    | .ok kernel => .ok kernel

/-- The registries, those of high priority first. -/
abbrev KernelRegistryManager (κ : Type) := List (KernelRegistry κ)

namespace KernelRegistryManager

/-- The loop over the registries: the status of the last one is kept, an
exception ends it. -/
def createKernelFrom (index : NodeIndex) (opType : String)
    (provider : IExecutionProvider) :
    Failure → KernelRegistryManager κ → Except Failure κ
  | last, [] => .error last
  | _, registry :: rest =>
    match registry.createKernel index opType provider with
    | .ok kernel => .ok kernel
    | .error (.status code message) =>
      createKernelFrom index opType provider (.status code message) rest
    | .error failure => .error failure

def createKernel (registries : KernelRegistryManager κ) (index : NodeIndex)
    (opType : String) (provider : IExecutionProvider) : Except Failure κ :=
  createKernelFrom index opType provider (.status .fail "Kernel not found.")
    registries

/-- The first registry that has a kernel. -/
def firstInfo (registries : KernelRegistryManager κ) (index : NodeIndex)
    (provider : String) : Option (KernelCreateInfo κ) :=
  registries.findSome? fun registry => registry.tryFindKernel index provider

end KernelRegistryManager

open KernelRegistryManager

/-- The registered providers; a session registers each under its type. -/
abbrev ExecutionProviders := List IExecutionProvider

def ExecutionProviders.get (providers : ExecutionProviders)
    (providerId : String) : Option IExecutionProvider :=
  providers.find? fun provider => provider.type = providerId

/-- The kernels of a session by the nodes they are for. -/
abbrev SessionKernels (κ : Type) := NodeIndex → Option κ

/-- The provider `CreateOpKernel` finds for a node; `none` is a null pointer. -/
def PartitionState.execProvider (s : PartitionState)
    (providers : ExecutionProviders) (index : NodeIndex) :
    Option IExecutionProvider :=
  if s.providerType index = "" then none
  else providers.get (s.providerType index)

section Saving

variable (providers : ExecutionProviders)
  (registries : KernelRegistryManager κ) (s : PartitionState)

def createOpKernel (entry : NodeIndex × GraphNode) : Except Failure κ :=
  match s.execProvider providers entry.1 with
  -- The status made here goes out of scope; the pointer is used all the same.
  | none => .error .nullDereference
  | some provider =>
    registries.createKernel entry.1 entry.2.opType provider

def saveKernel (entry : NodeIndex × GraphNode) :
    EStateM Failure (SessionKernels κ) Unit :=
  match createOpKernel providers registries s entry with
  | .error failure => throw failure
  | .ok kernel =>
    modify fun kernels => Function.update kernels entry.1 (some kernel)

def saveKernels : EStateM Failure (SessionKernels κ) Unit :=
  s.graph.liveNodes.foldlM
    (fun _ entry => saveKernel providers registries s entry) ()

/-- The planner is given the nodes of the graph in the order of its viewer,
with what `GetKernelDef` and `ExecutionProviders::Get` find for each. -/
structure PlansGraph (ctx : PlannerContext) : Prop where
  order : ∃ viewer, s.graph.graphViewer = .ok viewer ∧
    ctx.graph.nodesInTopologicalOrder.map (·.index) =
      viewer.nodesInTopologicalOrder
  bound : ∀ node ∈ ctx.graph.nodesInTopologicalOrder,
    node.kernelDef = (registries.firstInfo node.index "").map (·.kernelDef) ∧
    node.provider.isSome = (providers.get (s.providerType node.index)).isSome

/-- `CreatePlan` and `InitializeAndSave`, where `saveTensors` stands for
`SaveInitializedTensors`. -/
def createPlanAndSave (saveTensors : SequentialExecutionPlan →
      Except Failure Unit) (ctx : PlannerContext) :
    EStateM Failure (SessionKernels κ) SequentialExecutionPlan :=
  match ctx.createPlan with
  | .error failure => throw failure
  | .ok plan =>
    match saveTensors plan with
    | .error failure => throw failure
    | .ok _ => do
      saveKernels providers registries s
      return plan

end Saving

namespace KernelRegistryManager

theorem createKernelFrom_eq (registries : KernelRegistryManager κ)
    (index : NodeIndex) (opType : String) (provider : IExecutionProvider)
    (last : Failure) :
    createKernelFrom index opType provider last registries =
      match registries.firstInfo index provider.type with
      | none => .error (if registries = [] then last else
          .status .fail ("Failed to find kernel for " ++ opType))
      | some info =>
        match info.kernelCreateFunc index provider with
        | .error message => .error (.thrown message)
        | .ok kernel => .ok kernel := by
  induction registries generalizing last with
  | nil => rfl
  | cons registry rest ih =>
    rw [createKernelFrom, KernelRegistry.createKernel, firstInfo,
      findSome?_cons]
    cases registry.tryFindKernel index provider.type with
    | none =>
      dsimp only
      rw [ih, ← firstInfo, if_neg (cons_ne_nil registry rest), ite_self]
    | some info =>
      dsimp only
      cases info.kernelCreateFunc index provider <;> rfl

end KernelRegistryManager

section Planning

namespace PlannerContext

variable {ctx : PlannerContext} {node : Node} {s s' : PlannerImpl}

theorem noNull_indexOf (name : String) : NoNull (ctx.indexOf name) := by
  rw [indexOf]
  split
  · exact .ok _
  · exact .error (by simp)

theorem noNull_countUse (s : PlannerImpl) (arg : NodeArg) :
    NoNull (ctx.countUse s arg) := by
  rw [countUse]
  split
  · exact (noNull_indexOf _).bind fun _ => .ok _
  · exact .ok s

theorem noNull_defineOutput (kernelDef : KernelDef)
    (provider : ExecutionProvider) (s : PlannerImpl) (output : NodeArg × Nat) :
    NoNull (ctx.defineOutput kernelDef provider s output) := by
  rw [defineOutput]
  split
  · refine (noNull_indexOf _).bind fun index => ?_
    dsimp only
    split <;> exact .ok _
  · exact .ok s

theorem noNull_markFence (s : PlannerImpl) (arg : NodeArg) :
    NoNull (ctx.markFence s arg) := by
  rw [markFence]
  split
  · exact (noNull_indexOf _).bind fun _ => .ok _
  · exact .ok s

theorem noNull_countNode (s : PlannerImpl) (node : Node) :
    NoNull (ctx.countNode s node) := by
  refine (FailsAs.foldlM _ noNull_countUse s).bind fun s => ?_
  refine (FailsAs.foldlM _ noNull_countUse s).bind fun s => ?_
  cases node.kernelDef with
  | none => exact .error (by simp)
  | some kernelDef =>
    cases node.provider with
    | none => exact .error (by simp)
    | some provider =>
      refine (FailsAs.foldlM _ (noNull_defineOutput kernelDef provider) s).bind
        fun s => ?_
      split
      · exact FailsAs.foldlM _ noNull_markFence s
      · exact .ok s

theorem noNull_computeUseCounts (s : PlannerImpl) :
    NoNull (ctx.computeUseCounts s) := by
  have hsource : ∀ s arg, NoNull (ctx.defineSource s arg) := fun _ _ =>
    (noNull_indexOf _).bind fun _ => .ok _
  refine (FailsAs.foldlM _ hsource s).bind fun s => ?_
  refine (FailsAs.foldlM _ hsource s).bind fun s => ?_
  refine (FailsAs.foldlM _ hsource s).bind fun s => ?_
  refine (FailsAs.foldlM _ noNull_countNode s).bind fun s => ?_
  exact FailsAs.foldlM _ (fun _ _ => (noNull_indexOf _).bind fun _ => .ok _) s

theorem provider_of_countNode (h : ctx.countNode s node = .ok s') :
    node.provider.isSome := by
  obtain ⟨counted, -, h⟩ := except_bind_eq_ok.mp h
  obtain ⟨counted, -, h⟩ := except_bind_eq_ok.mp h
  split at h
  · cases h
  · split at h
    · cases h
    · rename_i provider hprovider
      rw [hprovider]
      rfl

/-- `ComputeUseCounts` refuses a node without a provider: it returns a status
or throws, and nothing was made so far. -/
theorem createPlan_of_unplaced
    (hnode : node ∈ ctx.graph.nodesInTopologicalOrder)
    (hnone : node.provider.isSome = false) :
    ∃ failure, ctx.createPlan = .error failure ∧
      failure ≠ .nullDereference := by
  cases hcount : ctx.computeUseCounts {} with
  | error failure =>
    exact ⟨failure, by rw [createPlan, planState, hcount]; rfl,
      noNull_computeUseCounts _ failure hcount⟩
  | ok counted =>
    obtain ⟨_, -, hcount⟩ := except_bind_eq_ok.mp hcount
    obtain ⟨_, -, hcount⟩ := except_bind_eq_ok.mp hcount
    obtain ⟨_, -, hcount⟩ := except_bind_eq_ok.mp hcount
    obtain ⟨_, hnodes, -⟩ := except_bind_eq_ok.mp hcount
    obtain ⟨_, _, hstep⟩ := foldlM_step_of_mem hnode hnodes
    rw [provider_of_countNode hstep] at hnone
    cases hnone

end PlannerContext

end Planning

section Saving

open OnnxRuntime.Graph

variable {providers : ExecutionProviders} {registries : KernelRegistryManager κ}
  {s : PartitionState} {ctx : PlannerContext} {index : NodeIndex}

/-- No provider is registered under the empty string, so that both lookups
find the same. -/
theorem execProvider_eq :
    s.execProvider providers index = providers.get (s.providerType index) := by
  rw [PartitionState.execProvider]
  split
  · rename_i hempty
    rw [hempty, eq_comm, ExecutionProviders.get, find?_eq_none]
    intro provider _
    simpa using provider.type_ne
  · rfl

/-- A kernel is made or not, but for a node with a provider no null pointer is
used. -/
theorem noNull_createOpKernel (registries : KernelRegistryManager κ)
    {entry : NodeIndex × GraphNode}
    (hplaced : (s.execProvider providers entry.1).isSome) :
    NoNull (createOpKernel providers registries s entry) := by
  obtain ⟨provider, hprovider⟩ := isSome_iff_exists.mp hplaced
  rw [createOpKernel, hprovider]
  dsimp only
  rw [createKernel, createKernelFrom_eq]
  split
  · split <;> exact .error (by simp)
  · split
    · exact .error (by simp)
    · exact .ok _

theorem PlansGraph.exists_node (h : PlansGraph providers registries s ctx)
    (hmirror : s.graph.Mirrored) (hacyclic : s.graph.Acyclic)
    {entry : NodeIndex × GraphNode} (hentry : entry ∈ s.graph.liveNodes) :
    ∃ node ∈ ctx.graph.nodesInTopologicalOrder,
      node.provider.isSome = (s.execProvider providers entry.1).isSome := by
  obtain ⟨viewer, hviewer, horder⟩ := h.order
  obtain ⟨viewer', hviewer', hsorted⟩ := graphViewer_sorts hmirror hacyclic
  cases hviewer.symm.trans hviewer'
  have hlive : entry.1 ∈ viewer.nodesInTopologicalOrder := by
    rw [hsorted.mem_iff, mem_liveNodes.mp hentry]
    rfl
  rw [← horder, List.mem_map] at hlive
  obtain ⟨node, hnode, hindex⟩ := hlive
  refine ⟨node, hnode, ?_⟩
  rw [(h.bound node hnode).2, hindex, execProvider_eq]

/-- A graph with a node whose provider is missing is refused before any kernel
is made, and `SaveKernels` never uses a null provider on a graph that has a
plan. -/
theorem rejectsUnplaced (hmirror : s.graph.Mirrored)
    (hacyclic : s.graph.Acyclic) (hctx : PlansGraph providers registries s ctx)
    (saveTensors : SequentialExecutionPlan → Except Failure Unit)
    (kernels : SessionKernels κ) :
    ((∃ entry ∈ s.graph.liveNodes, s.execProvider providers entry.1 = none) →
      ∃ failure, createPlanAndSave providers registries s saveTensors ctx
          kernels = .error failure kernels ∧ failure ≠ .nullDereference) ∧
    ((ctx.createPlan).isOk → ∀ kernels',
      saveKernels providers registries s kernels ≠
        .error .nullDereference kernels') := by
  constructor
  · rintro ⟨entry, hentry, hnone⟩
    obtain ⟨node, hnode, hprovider⟩ := hctx.exists_node hmirror hacyclic hentry
    rw [hnone] at hprovider
    obtain ⟨failure, hplan, hne⟩ :=
      PlannerContext.createPlan_of_unplaced hnode hprovider
    exact ⟨failure, by rw [createPlanAndSave, hplan]; rfl, hne⟩
  · intro hplan kernels' hrun
    obtain ⟨front, entry, back, u, saved, hsplit, -, hstop⟩ :=
      foldlM_eq_error.1 hrun
    have hentry : entry ∈ s.graph.liveNodes := by simp [hsplit]
    obtain ⟨node, hnode, hprovider⟩ := hctx.exists_node hmirror hacyclic hentry
    have hplaced : (s.execProvider providers entry.1).isSome := by
      by_contra hnone
      rw [Bool.not_eq_true] at hnone
      obtain ⟨failure, hfail, -⟩ :=
        PlannerContext.createPlan_of_unplaced hnode (hprovider.trans hnone)
      rw [hfail] at hplan
      cases hplan
    have hcreate := noNull_createOpKernel registries hplaced
    rw [saveKernel] at hstop
    cases hkernel : createOpKernel providers registries s entry with
    | ok kernel => simp [hkernel] at hstop
    | error failure =>
      simp only [hkernel, throw_apply, EStateM.Result.error.injEq] at hstop
      exact hcreate failure hkernel hstop.1

end Saving

section Example

def cpuProvider : IExecutionProvider := ⟨"CPUExecutionProvider", by decide⟩

/-- The second node has no provider. -/
def customState : PartitionState where
  graph := {
    nodes := [
      some { opType := "Relu", inputDefs := [⟨0, "x"⟩],
             outputDefs := [⟨1, "y"⟩], outputEdges := [⟨1, 0, 0⟩] },
      some { opType := "Custom", inputDefs := [⟨1, "y"⟩],
             outputDefs := [⟨2, "z"⟩], inputEdges := [⟨0, 0, 0⟩] }]
    numOfNodes := 2
    nodeArgs := [⟨0, "x"⟩, ⟨1, "y"⟩, ⟨2, "z"⟩] }
  providerType index := if index = 0 then cpuProvider.type else ""

def reluRegistry : KernelRegistry Unit where
  tryFindKernel index _ :=
    if index = 0 then some { kernelCreateFunc := fun _ _ => .ok () } else none

def customContext : PlannerContext where
  graph := {
    inputs := [⟨"x", some (.tensorType .float), none⟩]
    outputs := [⟨"z", some (.tensorType .float), none⟩]
    initializers := []
    nodes := []
    nodesInTopologicalOrder := [
      { index := 0, opType := "Relu", kernelDef := some {},
        inputDefs := [⟨"x", some (.tensorType .float), none⟩],
        outputDefs := [⟨"y", some (.tensorType .float), none⟩],
        provider := some ⟨fun _ => ⟨cpuName, 0, .default, .arenaAllocator⟩⟩ },
      { index := 1, opType := "Custom", kernelDef := none, provider := none,
        inputDefs := [⟨"y", some (.tensorType .float), none⟩],
        outputDefs := [⟨"z", some (.tensorType .float), none⟩] }] }
  cpuProvider := ⟨fun _ => ⟨cpuName, 0, .default, .arenaAllocator⟩⟩
  names := ["x", "y", "z"]
  elementSize _ := 4

theorem plansGraph_customContext :
    PlansGraph [cpuProvider] [reluRegistry] customState customContext where
  order := by
    refine ⟨⟨[0, 1], [0]⟩, ?_, rfl⟩
    decide +kernel
  bound node hnode := by
    simp only [customContext, mem_cons, not_mem_nil, or_false] at hnode
    rcases hnode with rfl | rfl
    · exact ⟨rfl, by decide⟩
    · exact ⟨rfl, by decide⟩

theorem rejectsUnplaced_customState : ∃ failure,
    createPlanAndSave [cpuProvider] [reluRegistry] customState
        (fun _ => .ok ()) customContext (fun _ => none) =
      .error failure (fun _ => none) ∧ failure ≠ .nullDereference := by
  have hmirror : customState.graph.Mirrored := by decide +kernel
  have hsorted : customState.graph.TopologicalOrder [0, 1] := by
    decide +kernel
  refine (rejectsUnplaced hmirror (Graph.acyclic_of_idxOf_lt _ hsorted.before)
    plansGraph_customContext _ _).1 ?_
  obtain ⟨node, hnode⟩ : ∃ node, customState.graph.node 1 = some node :=
    ⟨_, rfl⟩
  exact ⟨(1, node), Graph.mem_liveNodes.mpr hnode, rfl⟩

end Example

end OnnxRuntime
