/-
The first pass of the allocation planner: after it every value has its own
buffer, and its use count is the number of its uses in the execution order plus
those of its owner.
-/
import OnnxRuntime.AllocationPlanner
import Mathlib.Data.List.Dedup

namespace OnnxRuntime

open List Function

namespace PlannerImpl

variable (s : PlannerImpl) (n v : MLValueIndex)

@[simp] theorem useCount_setInfo (info : MLValueInfo) :
    (s.setInfo n info).useCount v =
      if v = n then info.usecount else s.useCount v := by
  simp only [useCount, setInfo, update_apply]
  split <;> rfl

@[simp] theorem buffer_setInfo (info : MLValueInfo) :
    (s.setInfo n info).buffer v =
      if v = n then info.reusedBufferIndex else s.buffer v := by
  simp only [buffer, setInfo, update_apply]
  split <;> rfl

@[simp] theorem useCount_addUses (uses : Int) : (s.addUses n uses).useCount v =
      if v = n then s.useCount n + uses else s.useCount v :=
  useCount_setInfo s n v _

@[simp] theorem buffer_addUses (uses : Int) :
    (s.addUses n uses).buffer v = s.buffer v := by
  rw [addUses, buffer_setInfo]
  split
  · rename_i heq
    rw [heq]
    rfl
  · rfl

@[simp] theorem useCount_processDef (arg : NodeArg) :
    (s.processDef n arg).useCount v = if v = n then 0 else s.useCount v :=
  useCount_setInfo s n v _

@[simp] theorem buffer_processDef (arg : NodeArg) :
    (s.processDef n arg).buffer v = if v = n then n else s.buffer v :=
  buffer_setInfo s n v _

section

variable (plan : AllocPlanPerValue)

@[simp] theorem useCount_setPlan :
    (s.setPlan n plan).useCount v = s.useCount v := rfl

@[simp] theorem buffer_setPlan : (s.setPlan n plan).buffer v = s.buffer v := rfl

@[simp] theorem allocPlan_setPlan : (s.setPlan n plan).allocPlan v =
      if v = n then plan else s.allocPlan v := by
  simp [setPlan, update_apply]

end

@[simp] theorem allocPlan_setInfo (info : MLValueInfo) :
    (s.setInfo n info).allocPlan = s.allocPlan := rfl

@[simp] theorem allocPlan_addUses (uses : Int) :
    (s.addUses n uses).allocPlan = s.allocPlan := rfl

@[simp] theorem allocPlan_processDef (arg : NodeArg) :
    (s.processDef n arg).allocPlan = s.allocPlan := rfl

end PlannerImpl

namespace PlannerContext

variable {ctx : PlannerContext}

theorem indexOf_eq_ok {name : String} {index : MLValueIndex} :
    ctx.indexOf name = .ok index ↔ ctx.names.idxOf? name = some index := by
  rw [indexOf]
  cases ctx.names.idxOf? name with
  | none => simp
  | some found => simp

theorem idxOf?_injective {left right : String} {index : MLValueIndex}
    (hleft : ctx.names.idxOf? left = some index)
    (hright : ctx.names.idxOf? right = some index) : left = right := by
  obtain ⟨_, hleft, _⟩ := idxOf?_eq_some_iff.mp hleft
  obtain ⟨_, hright, _⟩ := idxOf?_eq_some_iff.mp hright
  exact hleft.symm.trans hright

end PlannerContext

/-- The names of the values of a list that exist. -/
def existingNames (args : List NodeArg) : List String :=
  (args.filter fun arg => arg.Exists).map NodeArg.name

namespace PlannerContext

section

variable (ctx : PlannerContext)

def indices (args : List NodeArg) : List MLValueIndex :=
  (existingNames args).filterMap ctx.names.idxOf?

/-- The values a node reads, explicitly or implicitly. -/
def reads (node : Node) : List MLValueIndex :=
  ctx.indices (node.inputDefs ++ node.implicitInputDefs)

def writes (node : Node) : List MLValueIndex :=
  ctx.indices node.outputDefs

/-- The values that are there before the first node runs. -/
def sourceArgs : List NodeArg :=
  ctx.graph.inputs ++ ctx.outerScopeNodeArgs ++ ctx.graph.initializers

def sources : List MLValueIndex :=
  (ctx.sourceArgs.filterMap fun arg => ctx.names.idxOf? arg.name).dedup

def graphOutputs : List MLValueIndex :=
  ctx.graph.outputs.filterMap fun arg => ctx.names.idxOf? arg.name

/-- The uses that do not end with the run. -/
def permanentUses (v : MLValueIndex) : Nat :=
  (if v ∈ ctx.sources then 1 else 0) + ctx.graphOutputs.count v

/-- The uses of all values by the nodes, the production of an output
included. -/
def uses (nodes : List Node) : List MLValueIndex :=
  nodes.flatMap fun node => ctx.reads node ++ ctx.writes node

end

variable {ctx : PlannerContext}

theorem indices_cons (arg : NodeArg) (rest : List NodeArg) :
    ctx.indices (arg :: rest) =
      if arg.Exists then
        (ctx.names.idxOf? arg.name).toList ++ ctx.indices rest
      else ctx.indices rest := by
  by_cases hexists : arg.Exists
  · cases hindex : ctx.names.idxOf? arg.name <;>
      simp [indices, existingNames, hexists, hindex]
  · simp [indices, existingNames, hexists]

theorem indices_append (front back : List NodeArg) :
    ctx.indices (front ++ back) = ctx.indices front ++ ctx.indices back := by
  simp [indices, existingNames]

variable {args : List NodeArg} {defined done : List MLValueIndex}
  {s s' : PlannerImpl} {index v : MLValueIndex} {kernelDef : KernelDef}
  {provider : ExecutionProvider} {arg : NodeArg} {node : Node}
  {front back : List Node}

/-- A loop over the existing values of a list is a loop over indices. -/
theorem foldlM_indices {σ : Type} {step : σ → NodeArg → Except Failure σ}
    {update : σ → MLValueIndex → σ}
    (hstep : ∀ s arg, step s arg = if arg.Exists then do
        let index ← ctx.indexOf arg.name
        return update s index
      else .ok s) {s s' : σ} (h : args.foldlM step s = .ok s') :
    s' = (ctx.indices args).foldl update s := by
  induction args generalizing s with
  | nil => exact (foldlM_nil_eq_ok.mp h).symm
  | cons arg rest ih =>
    obtain ⟨mid, hmid, hrest⟩ := foldlM_cons_eq_ok.mp h
    rw [hstep] at hmid
    rw [indices_cons]
    by_cases hexists : arg.Exists
    · rw [if_pos hexists] at hmid
      obtain ⟨index, hindex, hmid⟩ := except_bind_eq_ok.mp hmid
      rw [if_pos hexists, indexOf_eq_ok.mp hindex, ih hrest]
      cases hmid
      rfl
    · rw [if_neg hexists] at hmid
      cases hmid
      rw [if_neg hexists]
      exact ih hrest

theorem foldl_addUses_useCount (values : List MLValueIndex) (s : PlannerImpl)
    (v : MLValueIndex) :
    (values.foldl (fun s index => s.addUses index 1) s).useCount v =
      s.useCount v + values.count v := by
  induction values generalizing s with
  | nil => simp
  | cons index rest ih =>
    rw [foldl_cons, ih, PlannerImpl.useCount_addUses]
    by_cases heq : v = index
    · simp [heq]
      omega
    · simp [heq, Ne.symm heq]

theorem foldl_addUses_buffer (values : List MLValueIndex) (s : PlannerImpl)
    (v : MLValueIndex) :
    (values.foldl (fun s index => s.addUses index 1) s).buffer v =
      s.buffer v := by
  induction values generalizing s with
  | nil => rfl
  | cons index rest ih =>
    rw [foldl_cons, ih, PlannerImpl.buffer_addUses]

/-- What the first pass knows about the values defined so far. -/
structure Counted (ctx : PlannerContext) (defined done : List MLValueIndex)
    (s : PlannerImpl) : Prop where
  buffer_eq : ∀ v ∈ defined, s.buffer v = v
  useCount_eq : ∀ v ∈ defined, s.useCount v =
    (if v ∈ ctx.sources then 1 else 0 : Int) + done.count v

/-- What no part of the first pass touches. -/
structure Untouched (s : PlannerImpl) : Prop where
  freelist_eq : s.freelist = []
  not_reuse : ∀ v, (s.allocPlan v).allocKind ≠ .reuse

theorem Untouched.setPlan (h : Untouched s) {plan : AllocPlanPerValue}
    (hkind : plan.allocKind ≠ .reuse) : Untouched (s.setPlan index plan) where
  freelist_eq := h.freelist_eq
  not_reuse v := by
    rw [PlannerImpl.allocPlan_setPlan]
    split
    · exact hkind
    · exact h.not_reuse v

theorem markFence_eq_ok (h : ctx.markFence s arg = .ok s') :
    s'.mlValueInfo = s.mlValueInfo ∧ (Untouched s → Untouched s') := by
  rw [markFence] at h
  split at h
  · obtain ⟨index, _, h⟩ := except_bind_eq_ok.mp h
    cases h
    exact ⟨rfl, fun huntouched =>
      huntouched.setPlan (huntouched.not_reuse index)⟩
  · cases h
    exact ⟨rfl, id⟩

section

variable (h : Counted ctx defined done s)
include h

/-- Uses of defined values. -/
theorem Counted.addUses (values : List MLValueIndex) :
    Counted ctx defined (done ++ values)
      (values.foldl (fun s index => s.addUses index 1) s) where
  buffer_eq v hv := by
    rw [foldl_addUses_buffer, h.buffer_eq v hv]
  useCount_eq v hv := by
    rw [foldl_addUses_useCount, h.useCount_eq v hv, count_append]
    omega

/-- The definition of an output. -/
theorem Counted.define (arg : NodeArg) (hsource : index ∉ ctx.sources)
    (hdefined : index ∉ defined) (hdone : index ∉ done) :
    Counted ctx (defined ++ [index]) (done ++ [index])
      ((s.processDef index arg).addUses index 1) := by
  have hne : ∀ v ∈ defined, v ≠ index := fun v hv heq => hdefined (heq ▸ hv)
  constructor
  · intro v hv
    rcases mem_append.mp hv with hv | hv
    · simp [hne v hv, h.buffer_eq v hv]
    · simp [mem_singleton.mp hv]
  · intro v hv
    rcases mem_append.mp hv with hv | hv
    · simp [hne v hv, Ne.symm (hne v hv), h.useCount_eq v hv]
    · rw [mem_singleton.mp hv]
      simp [hsource, count_eq_zero_of_not_mem hdone]

omit h in
theorem foldlM_countUse (h : args.foldlM ctx.countUse s = .ok s') :
    s' = (ctx.indices args).foldl (fun s index => s.addUses index 1) s :=
  foldlM_indices (fun _ _ => rfl) h

omit h in
/-- The state after one output of a node has been counted. -/
theorem defineOutput_eq_ok {position : Nat}
    (h : ctx.defineOutput kernelDef provider s (arg, position) = .ok s') :
    (¬ arg.Exists ∧ s' = s) ∨
      ∃ index, arg.Exists ∧ ctx.names.idxOf? arg.name = some index ∧
        s'.mlValueInfo =
          ((s.processDef index arg).addUses index 1).mlValueInfo ∧
        (Untouched s → Untouched s') := by
  rw [defineOutput] at h
  by_cases hexists : arg.Exists
  · rw [if_pos hexists] at h
    obtain ⟨index, hindex, h⟩ := except_bind_eq_ok.mp h
    refine .inr ⟨index, hexists, indexOf_eq_ok.mp hindex, ?_⟩
    dsimp only at h
    split at h
    · cases h
      refine ⟨rfl, fun huntouched => ?_⟩
      have hcounted : Untouched ((s.processDef index arg).addUses index 1) :=
        ⟨huntouched.freelist_eq, huntouched.not_reuse⟩
      exact hcounted.setPlan (hcounted.not_reuse index)
    · cases h
      exact ⟨rfl, fun huntouched =>
        ⟨huntouched.freelist_eq, huntouched.not_reuse⟩⟩
  · rw [if_neg hexists] at h
    cases h
    exact .inl ⟨hexists, rfl⟩

/-- Only the values recorded for a value matter to the counts. -/
theorem Counted.congr (hinfo : s'.mlValueInfo = s.mlValueInfo) :
    Counted ctx defined done s' where
  buffer_eq v hv := by
    rw [PlannerImpl.buffer, hinfo]
    exact h.buffer_eq v hv
  useCount_eq v hv := by
    rw [PlannerImpl.useCount, hinfo]
    exact h.useCount_eq v hv

/-- All outputs of a node. -/
theorem Counted.defineOutputs (outputs : List (NodeArg × Nat))
    (hnodup : (ctx.indices (outputs.map Prod.fst)).Nodup)
    (hnew : ∀ v ∈ ctx.indices (outputs.map Prod.fst),
      v ∉ ctx.sources ∧ v ∉ defined ∧ v ∉ done)
    (hrun : outputs.foldlM (ctx.defineOutput kernelDef provider) s = .ok s') :
    Counted ctx (defined ++ ctx.indices (outputs.map Prod.fst))
      (done ++ ctx.indices (outputs.map Prod.fst)) s' := by
  induction outputs generalizing defined done s with
  | nil =>
    rw [← foldlM_nil_eq_ok.mp hrun]
    simpa [indices, existingNames] using h
  | cons output rest ih =>
    obtain ⟨arg, position⟩ := output
    obtain ⟨mid, hmid, hrest⟩ := foldlM_cons_eq_ok.mp hrun
    rw [map_cons, indices_cons] at hnodup hnew ⊢
    rcases defineOutput_eq_ok hmid with ⟨hmissing, rfl⟩ |
      ⟨index, hexists, hindex, hinfo, _⟩
    · rw [if_neg hmissing] at hnodup hnew ⊢
      exact ih h hnodup hnew hrest
    · rw [if_pos hexists, hindex] at hnodup hnew ⊢
      obtain ⟨hfirst, hnodup⟩ := nodup_cons.mp hnodup
      obtain ⟨hsource, hdefined, hdone⟩ := hnew index (by simp)
      have hcounted :=
        (h.define arg hsource hdefined hdone).congr hinfo
      have htail := ih hcounted hnodup (fun v hv => by
        obtain ⟨hvsource, hvdefined, hvdone⟩ := hnew v (by simp [hv])
        have hne : v ≠ index := fun heq => hfirst (heq ▸ hv)
        simp [hvsource, hvdefined, hvdone, hne]) hrest
      simpa using htail

omit h in
/-- The parts of a successful step of the first pass. -/
theorem countNode_eq_ok (h : ctx.countNode s node = .ok s') :
    ∃ kernelDef provider mid, node.kernelDef = some kernelDef ∧
      node.provider = some provider ∧
      node.outputDefs.zipIdx.foldlM (ctx.defineOutput kernelDef provider)
        ((ctx.reads node).foldl (fun s index => s.addUses index 1) s) =
          .ok mid ∧
      s'.mlValueInfo = mid.mlValueInfo ∧ (Untouched mid → Untouched s') := by
  obtain ⟨explicit, hexplicit, h⟩ := except_bind_eq_ok.mp h
  obtain ⟨implicit, himplicit, h⟩ := except_bind_eq_ok.mp h
  have hreads : implicit =
      (ctx.reads node).foldl (fun s index => s.addUses index 1) s := by
    rw [foldlM_countUse himplicit, foldlM_countUse hexplicit, reads,
      indices_append, foldl_append]
  split at h
  · cases h
  · rename_i kernelDef hkernel
    split at h
    · cases h
    · rename_i provider hprovider
      obtain ⟨mid, hmid, h⟩ := except_bind_eq_ok.mp h
      rw [hreads] at hmid
      refine ⟨kernelDef, provider, mid, hkernel, hprovider, hmid, ?_⟩
      split at h
      · refine foldlM_preserves (motive := fun t : PlannerImpl =>
          t.mlValueInfo = mid.mlValueInfo ∧ (Untouched mid → Untouched t))
          ?_ ⟨rfl, id⟩ h
        rintro t t' arg _ ⟨hinfo, huntouched⟩ hstep
        obtain ⟨hinfo', huntouched'⟩ := markFence_eq_ok hstep
        exact ⟨hinfo'.trans hinfo, huntouched' ∘ huntouched⟩
      · cases h
        exact ⟨rfl, id⟩

omit h in
theorem foldl_addUses_untouched {values : List MLValueIndex} (h : Untouched s) :
    Untouched (values.foldl (fun s index => s.addUses index 1) s) := by
  induction values generalizing s with
  | nil => exact h
  | cons index rest ih => exact ih ⟨h.freelist_eq, h.not_reuse⟩

omit h in
theorem Untouched.countNode (h : Untouched s)
    (hrun : ctx.countNode s node = .ok s') :
    Untouched s' := by
  obtain ⟨kernelDef, provider, mid, _, _, hmid, _, huntouched⟩ :=
    countNode_eq_ok hrun
  apply huntouched
  refine foldlM_preserves (motive := Untouched) ?_
    (foldl_addUses_untouched h) hmid
  rintro t t' ⟨arg, position⟩ _ ht hstep
  rcases defineOutput_eq_ok hstep with ⟨_, rfl⟩ | ⟨_, _, _, _, hkeep⟩
  · exact ht
  · exact hkeep ht

theorem Counted.countNode (hnodup : (ctx.writes node).Nodup)
    (hnew : ∀ v ∈ ctx.writes node, v ∉ ctx.sources ∧ v ∉ defined)
    (hdone : done ⊆ defined) (hreads : ctx.reads node ⊆ defined)
    (hrun : ctx.countNode s node = .ok s') :
    Counted ctx (defined ++ ctx.writes node)
      (done ++ (ctx.reads node ++ ctx.writes node)) s' := by
  obtain ⟨kernelDef, provider, mid, _, _, hmid, hinfo, _⟩ :=
    countNode_eq_ok hrun
  have hfst : node.outputDefs.zipIdx.map Prod.fst = node.outputDefs :=
    zipIdx_map_fst 0 node.outputDefs
  have hwritten := (h.addUses (ctx.reads node)).defineOutputs
    node.outputDefs.zipIdx (by rw [hfst]; exact hnodup)
    (by
      rw [hfst]
      intro v hv
      obtain ⟨hsource, hdefined⟩ := hnew v hv
      refine ⟨hsource, hdefined, ?_⟩
      rw [mem_append]
      rintro (hmem | hmem)
      · exact hdefined (hdone hmem)
      · exact hdefined (hreads hmem)) hmid
  rw [hfst, append_assoc] at hwritten
  exact hwritten.congr hinfo

end

theorem foldlM_defineSource (hs : Untouched s)
    (h : args.foldlM ctx.defineSource s = .ok s') :
    Untouched s' ∧ ∀ v ∈ args.filterMap fun arg => ctx.names.idxOf? arg.name,
        s'.buffer v = v ∧ s'.useCount v = 1 := by
  induction args using reverseRecOn generalizing s' with
  | nil =>
    rw [← foldlM_nil_eq_ok.mp h]
    exact ⟨hs, by simp⟩
  | append_singleton args arg ih =>
    obtain ⟨mid, hmid, hstep⟩ := foldlM_snoc_eq_ok.mp h
    obtain ⟨huntouched, hcounted⟩ := ih hmid
    obtain ⟨index, hindex, hdefine⟩ := except_bind_eq_ok.mp hstep
    cases hdefine
    refine ⟨⟨huntouched.freelist_eq, huntouched.not_reuse⟩, ?_⟩
    intro v hv
    by_cases heq : v = index
    · simp [heq]
    · simp only [filterMap_append, filterMap_cons, indexOf_eq_ok.mp hindex,
        filterMap_nil, mem_append, mem_singleton, heq, or_false] at hv
      simpa [heq] using hcounted v hv

/-- A resolved graph: values are defined once, and the execution order is
topological. -/
structure Resolved (ctx : PlannerContext) : Prop where
  defined_once : (ctx.graph.nodesInTopologicalOrder.flatMap fun node =>
    existingNames node.outputDefs).Nodup
  not_source : ∀ node ∈ ctx.graph.nodesInTopologicalOrder,
    ∀ name ∈ existingNames node.outputDefs,
      name ∉ ctx.sourceArgs.map NodeArg.name
  topological : ∀ step ∈ ctx.graph.nodesInTopologicalOrder.zipIdx,
    ∀ name ∈ existingNames (step.1.inputDefs ++ step.1.implicitInputDefs),
      name ∈ ctx.sourceArgs.map NodeArg.name ∨
        name ∈ (ctx.graph.nodesInTopologicalOrder.take step.2).flatMap
          fun node => existingNames node.outputDefs

/-- Missing optional outputs are the last ones of their node. -/
def TrailingOutputs (ctx : PlannerContext) : Prop :=
  ∀ node ∈ ctx.graph.nodesInTopologicalOrder,
    node.outputDefs.Pairwise fun first second => second.Exists → first.Exists

/-- No two pairs of a kernel name the same input. -/
def DistinctPairs (ctx : PlannerContext) : Prop :=
  ∀ node ∈ ctx.graph.nodesInTopologicalOrder, ∀ kernelDef ∈ node.kernelDef,
    ((kernelDef.aliasMap ++ kernelDef.inplaceMap).map Prod.fst).Nodup

theorem flatMap_writes (ctx : PlannerContext) (nodes : List Node) :
    nodes.flatMap ctx.writes =
      (nodes.flatMap fun node => existingNames node.outputDefs).filterMap
        ctx.names.idxOf? := by
  rw [filterMap_flatMap]
  rfl

theorem mem_sources :
    v ∈ ctx.sources ↔ ∃ name ∈ ctx.sourceArgs.map NodeArg.name,
      ctx.names.idxOf? name = some v := by
  simp [sources]

section

variable (h : Resolved ctx)
include h

theorem Resolved.writes_nodup :
    (ctx.graph.nodesInTopologicalOrder.flatMap ctx.writes).Nodup := by
  rw [flatMap_writes]
  exact h.defined_once.filterMap fun _ _ _ hleft hright =>
    idxOf?_injective hleft hright

theorem Resolved.not_mem_sources
    (hnode : node ∈ ctx.graph.nodesInTopologicalOrder)
    (hv : v ∈ ctx.writes node) : v ∉ ctx.sources := by
  intro hsource
  obtain ⟨name, hname, hindex⟩ := mem_filterMap.mp hv
  obtain ⟨other, hother, hindex'⟩ := mem_sources.mp hsource
  rw [idxOf?_injective hindex' hindex] at hother
  exact h.not_source node hnode name hname hother

section

variable (hsplit : ctx.graph.nodesInTopologicalOrder = front ++ node :: back)
include hsplit

theorem Resolved.reads_subset :
    ctx.reads node ⊆ ctx.sources ++ front.flatMap ctx.writes := by
  intro v hv
  obtain ⟨name, hname, hindex⟩ := mem_filterMap.mp hv
  rw [mem_append, flatMap_writes]
  have hstep : (node, front.length) ∈
      ctx.graph.nodesInTopologicalOrder.zipIdx := by
    rw [hsplit, mem_zipIdx_iff_getElem?]
    simp
  have hknown := h.topological _ hstep name hname
  rw [hsplit, take_left' rfl] at hknown
  rcases hknown with hsource | hdef
  · exact .inl (mem_sources.mpr ⟨name, hsource, hindex⟩)
  · exact .inr (mem_filterMap.mpr ⟨name, hdef, hindex⟩)

/-- The outputs of a node are new when it runs. -/
theorem Resolved.writes_new : (ctx.writes node).Nodup ∧ ∀ v ∈ ctx.writes node,
      v ∉ ctx.sources ∧ v ∉ ctx.sources ++ front.flatMap ctx.writes := by
  have hnodup := h.writes_nodup
  rw [hsplit, flatMap_append, nodup_append] at hnodup
  obtain ⟨_, hrest, hdisjoint⟩ := hnodup
  refine ⟨(nodup_append.mp hrest).1, fun v hv => ?_⟩
  have hsource := h.not_mem_sources (by simp [hsplit]) hv
  refine ⟨hsource, ?_⟩
  rw [mem_append]
  rintro (hmem | hmem)
  · exact hsource hmem
  · exact hdisjoint v hmem v (mem_append_left _ hv) rfl

end

theorem uses_subset
    (hsplit : ctx.graph.nodesInTopologicalOrder = front ++ back) :
    ctx.uses front ⊆ ctx.sources ++ front.flatMap ctx.writes := by
  induction front using reverseRecOn generalizing back with
  | nil => simp [uses]
  | append_singleton front node ih =>
    rw [append_assoc] at hsplit
    intro v hv
    simp only [uses, flatMap_append, flatMap_singleton, mem_append] at hv ⊢
    rcases hv with hv | hv | hv
    · have hmem := ih hsplit hv
      rw [mem_append] at hmem
      tauto
    · have hmem := h.reads_subset hsplit hv
      rw [mem_append] at hmem
      tauto
    · tauto

end

theorem Counted.countNodes (hresolved : Resolved ctx)
    (hsplit : ctx.graph.nodesInTopologicalOrder = front ++ back)
    (h : Counted ctx (ctx.sources ++ front.flatMap ctx.writes)
      (ctx.uses front) s) (hrun : back.foldlM ctx.countNode s = .ok s') :
    Counted ctx
      (ctx.sources ++ ctx.graph.nodesInTopologicalOrder.flatMap ctx.writes)
      (ctx.uses ctx.graph.nodesInTopologicalOrder) s' := by
  induction back generalizing front s with
  | nil =>
    rw [append_nil] at hsplit
    rw [hsplit, ← foldlM_nil_eq_ok.mp hrun]
    exact h
  | cons node back ih =>
    obtain ⟨mid, hmid, hrest⟩ := foldlM_cons_eq_ok.mp hrun
    obtain ⟨hnodup, hnew⟩ := hresolved.writes_new hsplit
    have hcounted := h.countNode hnodup hnew
      (uses_subset hresolved hsplit) (hresolved.reads_subset hsplit) hmid
    have hnext : ctx.graph.nodesInTopologicalOrder =
        (front ++ [node]) ++ back := by simp [hsplit]
    apply ih hnext _ hrest
    simpa [uses] using hcounted

theorem foldlM_countGraphOutput
    (h : args.foldlM ctx.countGraphOutput s = .ok s') :
    s' = (args.filterMap fun arg => ctx.names.idxOf? arg.name).foldl
      (fun s index => s.addUses index 1) s := by
  induction args generalizing s with
  | nil => exact (foldlM_nil_eq_ok.mp h).symm
  | cons arg rest ih =>
    obtain ⟨mid, hmid, hrest⟩ := foldlM_cons_eq_ok.mp h
    obtain ⟨index, hindex, hmid⟩ := except_bind_eq_ok.mp hmid
    rw [filterMap_cons, indexOf_eq_ok.mp hindex, ih hrest]
    cases hmid
    rfl

/-- The result of the first pass. -/
theorem computeUseCounts_spec (hresolved : Resolved ctx)
    (h : ctx.computeUseCounts {} = .ok s) :
    Untouched s ∧ ∀ v ∈ ctx.sources ++
        ctx.graph.nodesInTopologicalOrder.flatMap ctx.writes,
      s.buffer v = v ∧ s.useCount v = ((ctx.permanentUses v +
        (ctx.uses ctx.graph.nodesInTopologicalOrder).count v : Nat) : Int) := by
  obtain ⟨inputs, hinputs, h⟩ := except_bind_eq_ok.mp h
  obtain ⟨outer, houter, h⟩ := except_bind_eq_ok.mp h
  obtain ⟨weights, hweights, h⟩ := except_bind_eq_ok.mp h
  obtain ⟨nodes, hnodes, houtputs⟩ := except_bind_eq_ok.mp h
  have hsources : ctx.sourceArgs.foldlM ctx.defineSource {} = .ok weights :=
    foldlM_append_eq_ok.mpr ⟨outer, foldlM_append_eq_ok.mpr
      ⟨inputs, hinputs, houter⟩, hweights⟩
  obtain ⟨huntouched, hdefined⟩ := foldlM_defineSource
    ⟨rfl, fun _ => by simp⟩ hsources
  have hcounted : Counted ctx ctx.sources [] weights := by
    constructor
    · intro v hv
      exact (hdefined v (mem_dedup.mp hv)).1
    · intro v hv
      simp [hv, (hdefined v (mem_dedup.mp hv)).2]
  have hnodesCounted := Counted.countNodes hresolved
    (nil_append _).symm (by simpa [uses] using hcounted) hnodes
  have hnodesUntouched : Untouched nodes :=
    foldlM_preserves (motive := Untouched)
      (fun _ _ _ _ ht hstep => ht.countNode hstep) huntouched hnodes
  have hlast : s = ctx.graphOutputs.foldl
      (fun s index => s.addUses index 1) nodes :=
    foldlM_countGraphOutput houtputs
  rw [hlast]
  refine ⟨foldl_addUses_untouched hnodesUntouched, fun v hv => ?_⟩
  rw [foldl_addUses_buffer, foldl_addUses_useCount,
    hnodesCounted.buffer_eq v hv, hnodesCounted.useCount_eq v hv]
  refine ⟨rfl, ?_⟩
  simp only [permanentUses]
  split <;> push_cast <;> omega

end PlannerContext

end OnnxRuntime
