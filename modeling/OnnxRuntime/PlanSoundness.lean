/-
Soundness of the sequential memory plan: when the steps of the plan are run in
order, with the frees after each step, the buffer of a value that is read has
neither been released nor overwritten.
-/
import OnnxRuntime.ReusePlanRun

namespace OnnxRuntime

open List

variable {freelist : List FreeBufferInfo}

/-- What has happened to the buffers: the values written, the last one first,
and the values released. -/
structure PlanRun where
  written : List MLValueIndex := []
  released : List MLValueIndex := []

namespace PlannerContext

variable (ctx : PlannerContext) (plan : SequentialExecutionPlan)

/-- A node runs and writes its outputs; then the frees of its step follow. -/
def runStep (run : PlanRun) (step : Node × NodeExecutionPlan) : PlanRun where
  written := (ctx.writes step.1).reverse ++ run.written
  released := run.released ++ step.2.frees plan.toBeFreed

/-- The first `k` steps of the plan. -/
def runSteps (k : Nat) : PlanRun :=
  ((ctx.graph.nodesInTopologicalOrder.zip plan.executionPlan).take k).foldl
    (ctx.runStep plan) {}

/-- A value that exists, in a buffer that has not been released and in which
since then only values with its bytes were written. -/
structure Intact (run : PlanRun) (v : MLValueIndex) : Prop where
  exists_ : v ∈ run.written ++ ctx.sources
  not_released : plan.bufferOf v ∉ run.released
  not_overwritten : ∀ w ∈ run.written.takeWhile (fun w => w ≠ v),
    plan.bufferOf w = plan.bufferOf v → ctx.SameBytes v w

variable {ctx} {plan}

theorem foldl_runStep (steps : List (Node × NodeExecutionPlan))
    (run : PlanRun) :
    (steps.foldl (ctx.runStep plan) run).written =
        ((steps.map Prod.fst).flatMap ctx.writes).reverse ++ run.written ∧
      (steps.foldl (ctx.runStep plan) run).released =
        run.released ++ steps.flatMap fun step =>
          step.2.frees plan.toBeFreed := by
  induction steps generalizing run with
  | nil => simp
  | cons step rest ih =>
    obtain ⟨hwritten, hreleased⟩ := ih (ctx.runStep plan run step)
    rw [foldl_cons, hwritten, hreleased]
    simp [runStep]

/-- The steps of the plan free the buffers of the list. -/
def Frees (ctx : PlannerContext) (plan : SequentialExecutionPlan)
    (freelist : List FreeBufferInfo) : Prop :=
  (plan.executionPlan, plan.toBeFreed) = generateDeallocationPlan freelist
    (ctx.graph.nodesInTopologicalOrder.map fun node =>
      { nodeIndex := node.index })

theorem Frees.nodeIndex_eq
    (h : ctx.Frees plan freelist) : plan.executionPlan.map (·.nodeIndex) =
      ctx.graph.nodesInTopologicalOrder.map (·.index) := by
  have hindex := generateDeallocationPlan_nodeIndex freelist
    (ctx.graph.nodesInTopologicalOrder.map fun node =>
      { nodeIndex := node.index })
  rwa [← h, map_map] at hindex

theorem Frees.length_eq
    (h : ctx.Frees plan freelist) : plan.executionPlan.length =
      ctx.graph.nodesInTopologicalOrder.length := by
  simpa using congrArg List.length h.nodeIndex_eq

theorem createPlan_eq_ok (h : ctx.createPlan = .ok plan) :
    ∃ final, ctx.planState = .ok final ∧ plan.allocationPlan =
        (range (ctx.names.length + 1)).map final.allocPlan ∧
      ctx.Frees plan final.freelist := by
  obtain ⟨final, hfinal, h⟩ := except_bind_eq_ok.mp h
  cases h
  exact ⟨final, hfinal, rfl, rfl⟩

variable {final : PlannerImpl} {v : MLValueIndex} {k l : Nat}

theorem bufferOf_eq
    (h : plan.allocationPlan =
      (range (ctx.names.length + 1)).map final.allocPlan)
    (hv : v < ctx.names.length) :
    plan.bufferOf v = final.planBuffer v := by
  have hplan : plan.allocPlan v = final.allocPlan v := by
    rw [SequentialExecutionPlan.allocPlan, h, getD_eq_getElem?_getD,
      getElem?_map, getElem?_range (Nat.lt_succ_of_lt hv)]
    rfl
  rw [SequentialExecutionPlan.bufferOf, hplan, PlannerImpl.planBuffer]

theorem lt_of_idxOf? {name : String} (h : ctx.names.idxOf? name = some v) :
    v < ctx.names.length :=
  (idxOf?_eq_some_iff.mp h).1

theorem lt_of_mem_defined {nodes : List Node}
    (hv : v ∈ (nodes.flatMap ctx.writes).reverse ++ ctx.sources) :
    v < ctx.names.length := by
  rw [mem_append, mem_reverse, mem_flatMap] at hv
  rcases hv with ⟨node, _, hv⟩ | hv
  · obtain ⟨arg, _, _, hindex⟩ := mem_indices.mp hv
    exact lt_of_idxOf? hindex
  · obtain ⟨name, _, hindex⟩ := mem_sources.mp hv
    exact lt_of_idxOf? hindex

/-- What is released before step `k` became free before it. -/
theorem exists_of_mem_released (hsorted : Chronological final.freelist.reverse)
    (hfreed : ctx.Frees plan final.freelist) {b : MLValueIndex}
    (hb : b ∈ (ctx.runSteps plan k).released) :
    ∃ item ∈ final.freelist, item.mlValue = b ∧ item.deallocatePoint <
      (ctx.graph.nodesInTopologicalOrder.take k).length := by
  rw [runSteps, (foldl_runStep _ _).2, nil_append, mem_flatMap] at hb
  obtain ⟨⟨node, step⟩, hstep, hb⟩ := hb
  obtain ⟨point, hpoint⟩ := getElem?_of_mem hstep
  rw [getElem?_take] at hpoint
  split at hpoint
  · obtain ⟨hnode, hstep⟩ := getElem?_zip_eq_some.mp hpoint
    have hexecution := congrArg Prod.fst hfreed
    have htoBeFreed := congrArg Prod.snd hfreed
    simp only at hexecution htoBeFreed hstep hnode hb
    rw [hexecution] at hstep
    rw [htoBeFreed, generateDeallocationPlan_frees hsorted (by simp) hstep]
      at hb
    split at hb
    · exact nomatch hb
    · obtain ⟨item, hitem, rfl⟩ := mem_map.mp hb
      obtain ⟨hitem, hpointEq⟩ := mem_filter.mp hitem
      have hlength := (List.getElem?_eq_some_iff.mp hnode).1
      refine ⟨item, mem_reverse.mp hitem, rfl, ?_⟩
      rw [of_decide_eq_true hpointEq, length_take]
      omega
  · exact nomatch hpoint

theorem runSteps_written
    (hfreed : ctx.Frees plan freelist) (k : Nat) :
    (ctx.runSteps plan k).written =
      ((ctx.graph.nodesInTopologicalOrder.take k).flatMap
        ctx.writes).reverse := by
  rw [runSteps, (foldl_runStep _ _).1, append_nil, map_take,
    map_fst_zip hfreed.length_eq.ge]

/-- A value that is still to be used, or used permanently, is intact. -/
theorem intact_of_pos (hresolved : Resolved ctx)
    (htrailing : TrailingOutputs ctx) (hdistinct : DistinctPairs ctx)
    (hplan : ctx.createPlan = .ok plan)
    (hv : v ∈ (ctx.runSteps plan k).written ++ ctx.sources)
    (hpos : 0 < ctx.permanentUses v +
      (ctx.uses (ctx.graph.nodesInTopologicalOrder.drop k)).count v) :
    Intact ctx plan (ctx.runSteps plan k) v := by
  obtain ⟨final, hfinal, hallocation, hfreed⟩ := createPlan_eq_ok hplan
  obtain ⟨s, hplanned, hlater, hsorted⟩ :=
    planState_before hresolved (sharing_sameBytes hdistinct htrailing) hfinal k
  have hwritten := runSteps_written hfreed k
  -- The plan names the buffers the planner had in mind before this step.
  have hbuffer : ∀ w ∈ ((ctx.graph.nodesInTopologicalOrder.take k).flatMap
      ctx.writes).reverse ++ ctx.sources, plan.bufferOf w = s.buffer w := by
    intro w hw
    rw [bufferOf_eq hallocation (lt_of_mem_defined hw),
      hlater.keeps.plan_eq w hw, hplanned.plan_eq w hw]
  rw [hwritten] at hv
  constructor
  · rw [hwritten]
    exact hv
  · intro hreleased
    obtain ⟨item, hitem, hvalue, hlt⟩ :=
      exists_of_mem_released hsorted hfreed hreleased
    have hfree : item ∈ s.freelist :=
      (hlater.freed item hitem).resolve_right (by omega)
    rw [hbuffer v hv] at hvalue
    exact hplanned.settled.accounted.not_mem_free hv hpos
      (mem_map.mpr ⟨item, hfree, hvalue⟩)
  · rw [hwritten]
    intro w hw hsame
    have hdefined := mem_append_left ctx.sources (takeWhile_subset _ hw)
    rw [hbuffer w hdefined, hbuffer v hv] at hsame
    exact hplanned.settled.separated.since v hv hpos w hw hsame

/-- The memory plan is sound for a run of its steps in order. -/
structure SoundPlan (ctx : PlannerContext) (plan : SequentialExecutionPlan) :
    Prop where
  steps_eq : plan.executionPlan.map NodeExecutionPlan.nodeIndex =
    ctx.graph.nodesInTopologicalOrder.map Node.index
  reads_intact : ∀ k node, ctx.graph.nodesInTopologicalOrder[k]? = some node →
    ∀ v ∈ ctx.reads node, Intact ctx plan (ctx.runSteps plan k) v
  sources_intact : ∀ k, ∀ v ∈ ctx.sources,
    Intact ctx plan (ctx.runSteps plan k) v
  outputs_intact : ∀ k, ∀ v ∈ ctx.graphOutputs,
    v ∈ (ctx.runSteps plan k).written →
    Intact ctx plan (ctx.runSteps plan k) v
  outputs_not_released : ∀ k l, ∀ v ∈ ctx.graphOutputs,
    v ∈ (ctx.runSteps plan l).written →
    plan.bufferOf v ∉ (ctx.runSteps plan k).released

theorem released_mono (hle : k ≤ l) :
    (ctx.runSteps plan k).released ⊆ (ctx.runSteps plan l).released := by
  intro b hb
  rw [runSteps, (foldl_runStep _ _).2, nil_append, mem_flatMap] at hb ⊢
  obtain ⟨step, hstep, hb⟩ := hb
  exact ⟨step, (take_sublist_take_left hle).subset hstep, hb⟩

theorem written_mono (hle : k ≤ l) :
    (ctx.runSteps plan k).written ⊆ (ctx.runSteps plan l).written := by
  intro b hb
  rw [runSteps, (foldl_runStep _ _).1, append_nil, mem_reverse,
    mem_flatMap] at hb ⊢
  obtain ⟨node, hnode, hb⟩ := hb
  exact ⟨node, ((take_sublist_take_left hle).map _).subset hnode, hb⟩

theorem createPlan_sound (hresolved : Resolved ctx)
    (htrailing : TrailingOutputs ctx) (hdistinct : DistinctPairs ctx)
    (hplan : ctx.createPlan = .ok plan) : SoundPlan ctx plan := by
  obtain ⟨final, hfinal, hallocation, hfreed⟩ := createPlan_eq_ok hplan
  have houtput : ∀ v ∈ ctx.graphOutputs, 0 < ctx.permanentUses v := by
    intro v hv
    have hcount := count_pos_iff.mpr hv
    rw [permanentUses]
    omega
  constructor
  · exact hfreed.nodeIndex_eq
  · intro k node hnode v hv
    have hdrop : ctx.graph.nodesInTopologicalOrder.drop k =
        node :: ctx.graph.nodesInTopologicalOrder.drop (k + 1) := by
      obtain ⟨hlt, rfl⟩ := List.getElem?_eq_some_iff.mp hnode
      exact drop_eq_getElem_cons hlt
    have hsplit : ctx.graph.nodesInTopologicalOrder =
        ctx.graph.nodesInTopologicalOrder.take k ++
          node :: ctx.graph.nodesInTopologicalOrder.drop (k + 1) := by
      rw [← hdrop, take_append_drop]
    refine intact_of_pos hresolved htrailing hdistinct hplan ?_ ?_
    · have hdefined := hresolved.reads_subset hsplit hv
      rw [runSteps_written hfreed, mem_append, mem_reverse]
      exact (mem_append.mp hdefined).symm
    · have hread := count_pos_iff.mpr hv
      rw [hdrop, uses, flatMap_cons, count_append, count_append]
      omega
  · intro k v hv
    refine intact_of_pos hresolved htrailing hdistinct hplan
      (mem_append_right _ hv) ?_
    rw [permanentUses, if_pos hv]
    omega
  · intro k v hv hwritten
    exact intact_of_pos hresolved htrailing hdistinct hplan
      (mem_append_left _ hwritten) (Nat.add_pos_left (houtput v hv) _)
  · intro k l v hv hwritten hreleased
    have hintact := intact_of_pos hresolved htrailing hdistinct hplan
      (mem_append_left ctx.sources
        (written_mono (Nat.le_max_right k l) hwritten))
      (Nat.add_pos_left (houtput v hv) _)
    exact hintact.not_released (released_mono (Nat.le_max_left k l) hreleased)

/-- A vector of four floats. -/
def vectorArg (name : String) : NodeArg where
  name := name
  type := some (.tensorType .float)
  dims := some [.value 4]

def cpuExecutionProvider : ExecutionProvider where
  allocatorInfo _ := ⟨cpuName, 0, .default, .arenaAllocator⟩

def unaryNode (index : NodeIndex) (input output : String)
    (kernelDef : KernelDef) : Node where
  index := index
  inputDefs := [vectorArg input]
  outputDefs := [vectorArg output]
  kernelDef := some kernelDef
  provider := some cpuExecutionProvider

/-- A chain in which the buffer of `a` is shared by an alias, overwritten in
place, and recycled. -/
def chainNodes : List Node :=
  [unaryNode 0 "x" "a" {}, unaryNode 1 "a" "b" { aliasMap := [(0, 0)] },
    unaryNode 2 "b" "c" { inplaceMap := [(0, 0)] },
    unaryNode 3 "c" "d" {},
    unaryNode 4 "d" "e" {},
    unaryNode 5 "e" "y" {}]

def chainContext : PlannerContext where
  graph :=
    { inputs := [vectorArg "x"]
      outputs := [vectorArg "y"]
      initializers := []
      nodes := chainNodes
      nodesInTopologicalOrder := chainNodes }
  cpuProvider := cpuExecutionProvider
  names := ["x", "a", "b", "c", "d", "e", "y"]
  elementSize := ElemType.size

def chainPlan : SequentialExecutionPlan :=
  okValue chainContext.createPlan (by decide +kernel)

theorem resolved_chainContext : Resolved chainContext :=
  ⟨by decide +kernel, by decide +kernel, by decide +kernel⟩

theorem trailingOutputs_chainContext : TrailingOutputs chainContext := by
  rw [TrailingOutputs]
  decide +kernel

theorem distinctPairs_chainContext : DistinctPairs chainContext := by
  rw [DistinctPairs]
  decide +kernel

theorem sound_chainPlan :
    (List.range 7).map chainPlan.bufferOf = [0, 1, 1, 1, 4, 1, 6] ∧
      SoundPlan chainContext chainPlan :=
  ⟨by decide +kernel,
    createPlan_sound resolved_chainContext trailingOutputs_chainContext
      distinctPairs_chainContext (eq_ok_okValue _ _)⟩

end PlannerContext

end OnnxRuntime
