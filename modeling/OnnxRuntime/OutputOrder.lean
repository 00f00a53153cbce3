/-
The explicit order of the outputs: what `Resolve` makes of the list given to
`SetOutputOrder`.
-/
import OnnxRuntime.NodeIdentities

namespace OnnxRuntime

open List

namespace Graph

def setOutputOrder (g : Graph) (outputs : List (Option GraphArg)) : Graph :=
  { g with graphOutputOrder := outputs }

/-- A node reads the name, or a subgraph of a node does. -/
def Reads (g : Graph) (subgraphUses : List (NodeIndex × List String))
    (name : String) : Prop :=
  name ∈ g.nodeInputs.map (·.name) ∨ ∃ uses ∈ subgraphUses, name ∈ uses.2

instance decidableReads (g : Graph)
    (subgraphUses : List (NodeIndex × List String)) (name : String) :
    Decidable (g.Reads subgraphUses name) :=
  inferInstanceAs (Decidable (_ ∨ _))

/-- The listed outputs come first, and then the others that nothing reads, in
the order of the nodes. -/
def HonoursOrder (g : Graph) (subgraphUses : List (NodeIndex × List String))
    (order : List GraphArg) (outputs : List (Option GraphArg)) : Prop :=
  outputs = (order ++ g.nodeOutputs.filter fun arg => arg.Exists ∧
    arg ∉ order ∧ ¬ g.Reads subgraphUses arg.name).map some ∧ outputs.Nodup

instance decidableHonoursOrder (g : Graph)
    (subgraphUses : List (NodeIndex × List String)) (order : List GraphArg)
    (outputs : List (Option GraphArg)) :
    Decidable (g.HonoursOrder subgraphUses order outputs) :=
  inferInstanceAs (Decidable (_ ∧ _))

/-- No node reads a listed output, and what is read by a subgraph alone is
listed. -/
def OrderUnread (g : Graph) (subgraphUses : List (NodeIndex × List String))
    (order : List GraphArg) : Prop :=
  (∀ arg ∈ order, arg.name ∉ g.nodeInputs.map (·.name)) ∧
    ∀ arg ∈ g.nodeOutputs, arg.Exists → arg ∉ order →
      g.Reads subgraphUses arg.name → arg.name ∈ g.nodeInputs.map (·.name)

variable {g g' : Graph}

section Names

theorem liveNodes_clearNodes :
    g.clearNodes.liveNodes =
      g.liveNodes.map fun entry => (entry.1, entry.2.clearRelationships) := by
  rw [liveNodes, liveNodes, map_filterMap, clearNodes, length_map]
  refine filterMap_congr fun index _ => ?_
  rw [← clearNodes, node_clearNodes]
  cases g.node index <;> rfl

theorem nodeOutputs_clearNodes : g.clearNodes.nodeOutputs = g.nodeOutputs := by
  rw [nodeOutputs, liveNodes_clearNodes, flatMap_map]
  rfl

theorem nodeInputs_clearNodes : g.clearNodes.nodeInputs = g.nodeInputs := by
  rw [nodeInputs, liveNodes_clearNodes, flatMap_map]
  rfl

/-- The names of the outputs that exist. -/
def existingNames (outputs : List GraphArg) : List String :=
  (outputs.filter (·.Exists)).map (·.name)

theorem existingNames_flatMap {α : Type} (f : α → List GraphArg)
    (items : List α) :
    existingNames (items.flatMap f) =
      items.flatMap fun item => existingNames (f item) := by
  rw [existingNames, filter_flatMap, map_flatMap]
  rfl

theorem keys_verifyNodeNames {ctx ctx' : ResolveContext}
    {entry : NodeIndex × GraphNode}
    (h : verifyNodeNames ctx entry = .ok ctx') :
    ctx'.outputArgs.map Prod.fst = (existingNames entry.2.outputDefs).foldl
      (fun names name => name :: names) (ctx.outputArgs.map Prod.fst) := by
  rw [verifyNodeNames] at h
  split at h
  · cases h
  · have hkeys := foldlM_projects
      (fun ctx : ResolveContext => ctx.outputArgs.map Prod.fst)
      (fun output : GraphArg × Nat => existingNames [output.1])
      (fun names name => name :: names) (fun s s' output _ hstep => ?_) h
    · rw [hkeys, ← existingNames_flatMap, ← map_eq_flatMap, zipIdx_map_fst]
    · rw [addOutputArg] at hstep
      split at hstep
      · rename_i hmissing
        cases hstep
        simp [existingNames, hmissing]
      · rename_i hexists
        split at hstep
        · cases hstep
        · cases hstep
          simp [existingNames, not_not.mp hexists]

theorem nodup_existingNames {ctx : ResolveContext}
    (h : g.verifyNoDuplicateName = .ok ctx) :
    (existingNames g.nodeOutputs).Nodup := by
  have hnodup := (verifyNoDuplicateName_spec h).1
  rw [foldlM_projects (fun ctx : ResolveContext => ctx.outputArgs.map Prod.fst)
    (fun entry : NodeIndex × GraphNode => existingNames entry.2.outputDefs)
    (fun names name => name :: names)
    (fun _ _ _ _ => keys_verifyNodeNames) h, ← existingNames_flatMap] at hnodup
  rw [foldl_flip_cons_eq_append', map_nil, append_nil] at hnodup
  exact nodup_reverse.mp hnodup

end Names

section Inferred

variable {order args : List GraphArg}

theorem checkOrder_eq_ok {message : String}
    (h : checkOrder (order.map some) message = .ok args) :
    args = order ∧ ∀ arg ∈ order, arg.Exists := by
  induction order generalizing args with
  | nil =>
    cases h
    simp
  | cons arg rest ih =>
    rw [checkOrder, map_cons, mapM_cons] at h
    obtain ⟨first, hfirst, h⟩ := except_bind_eq_ok.mp h
    obtain ⟨others, hothers, h⟩ := except_bind_eq_ok.mp h
    cases h
    dsimp only at hfirst
    split at hfirst
    · rename_i hexists
      cases hfirst
      obtain ⟨rfl, hall⟩ := ih hothers
      exact ⟨rfl, forall_mem_cons.mpr ⟨hexists, hall⟩⟩
    · cases hfirst

/-- The outputs that exist and are not listed follow those that are. -/
theorem foldl_addOutput {outputs : List GraphArg}
    {table : List (String × GraphArg)}
    (hnodup : (existingNames outputs).Nodup) :
    outputs.foldl addOutput table = table ++ (outputs.filter fun arg =>
      arg.Exists ∧ arg.name ∉ table.map Prod.fst).map
        fun arg => (arg.name, arg) := by
  induction outputs generalizing table with
  | nil => simp
  | cons arg rest ih =>
    rw [foldl_cons, addOutput]
    by_cases hnew : arg.Exists ∧ arg.name ∉ table.map Prod.fst
    · have hsplit : existingNames (arg :: rest) =
          arg.name :: existingNames rest := by
        simp [existingNames, hnew.1]
      rw [hsplit, nodup_cons] at hnodup
      have hfilter : rest.filter (fun other => other.Exists ∧
          other.name ∉ (table ++ [(arg.name, arg)]).map Prod.fst) =
          rest.filter fun other => other.Exists ∧
            other.name ∉ table.map Prod.fst := by
        refine filter_congr fun other hother =>
          decide_eq_decide.mpr (and_congr_right fun hexists => ?_)
        have hne : other.name ≠ arg.name := fun heq => hnodup.1 (by
          rw [← heq]
          exact mem_map_of_mem
            (mem_filter.mpr ⟨hother, decide_eq_true hexists⟩))
        simp [hne]
      rw [if_pos hnew, ih hnodup.2, hfilter, filter_cons,
        if_pos (decide_eq_true hnew), append_assoc]
      rfl
    · have hrest : (existingNames rest).Nodup :=
        hnodup.sublist ((sublist_cons_self _ _).filter _ |>.map _)
      rw [if_neg hnew, ih hrest, filter_cons, if_neg]
      exact fun hdecide => hnew (decide_eq_true_eq.mp hdecide)

/-- Of the outputs those that are not read are left. -/
theorem outputNames_foldl_inferInput {produced : List String}
    {state : InferredInputs} (h : ∀ name ∈ state.outputNames, name ∈ produced) :
    (args.foldl (inferInput produced) state).outputNames =
      state.outputNames.filter (· ∉ args.map (·.name)) := by
  induction args generalizing state with
  | nil => simp
  | cons arg rest ih =>
    have hstep : (inferInput produced state arg).outputNames =
        state.outputNames.filter (· ≠ arg.name) := by
      have hself : arg.name ∉ state.outputNames →
          state.outputNames.filter (· ≠ arg.name) = state.outputNames := by
        intro hnot
        refine filter_eq_self.mpr fun name hname => decide_eq_true ?_
        exact fun heq => hnot (heq ▸ hname)
      rw [inferInput]
      split
      · rename_i hnot
        rw [hself fun hmem => hnot (h _ hmem)]
        split <;> rfl
      · split
        · rfl
        · rename_i hnot
          rw [hself hnot]
    rw [foldl_cons, ih, hstep, filter_filter]
    · refine filter_congr fun name _ => ?_
      rw [← Bool.decide_and]
      refine decide_eq_decide.mpr ?_
      rw [map_cons, mem_cons, not_or, and_comm]
    · intro name hname
      rw [hstep] at hname
      exact h name (mem_filter.mp hname).1

/-- The listed outputs and then the others, without what nodes read. -/
def candidates (g : Graph) (order : List GraphArg) : List GraphArg :=
  (order ++ g.nodeOutputs.filter fun arg => arg.Exists ∧ arg ∉ order).filter
    fun arg => arg.name ∉ g.nodeInputs.map (·.name)

variable (hunique : (existingNames g.nodeOutputs).Nodup)
include hunique

theorem nodup_listed (hnodup : order.Nodup) :
    (order ++ g.nodeOutputs.filter fun arg =>
      arg.Exists ∧ arg ∉ order).Nodup := by
  refine nodup_append.mpr ⟨hnodup, ?_, ?_⟩
  · refine List.Nodup.of_map (·.name) (hunique.sublist ?_)
    refine List.Sublist.map _ (monotone_filter_right _ ?_)
    exact fun arg harg => decide_eq_true (decide_eq_true_eq.mp harg).1
  · rintro arg harg other hother rfl
    exact (decide_eq_true_eq.mp (mem_filter.mp hother).2).2 harg

theorem outputs_inferInputsOutputs {inputsOutputs : GraphInputsOutputs}
    (hlisted : ∀ arg ∈ order, arg ∈ g.nodeOutputs) (hnodup : order.Nodup)
    (horder : g.graphOutputOrder = order.map some)
    (h : g.inferInputsOutputs = .ok inputsOutputs) :
    inputsOutputs.outputs = (g.candidates order).map some := by
  obtain ⟨orderedInputs, -, h⟩ := except_bind_eq_ok.mp h
  obtain ⟨orderedOutputs, hordered, h⟩ := except_bind_eq_ok.mp h
  rw [horder] at hordered
  obtain ⟨rfl, hexists⟩ := checkOrder_eq_ok hordered
  cases h
  have hinj : ∀ {arg other : GraphArg}, arg ∈ g.nodeOutputs → arg.Exists →
      other ∈ g.nodeOutputs → other.Exists → arg.name = other.name →
        arg = other := by
    intro arg other harg hexists hother hexists' heq
    exact inj_on_of_nodup_map hunique
      (mem_filter.mpr ⟨harg, decide_eq_true hexists⟩)
      (mem_filter.mpr ⟨hother, decide_eq_true hexists'⟩) heq
  have hrest : (g.nodeOutputs.filter fun arg =>
      arg.Exists ∧ arg.name ∉ orderedOutputs.map (·.name)) =
      g.nodeOutputs.filter fun arg => arg.Exists ∧ arg ∉ orderedOutputs := by
    refine filter_congr fun arg harg =>
      decide_eq_decide.mpr (and_congr_right fun hexist => not_congr ?_)
    constructor
    · intro hname
      obtain ⟨other, hother, heq⟩ := mem_map.mp hname
      rwa [hinj harg hexist (hlisted other hother) (hexists other hother)
        heq.symm]
    · exact mem_map_of_mem
  have hsame : ∀ args : List GraphArg,
      (args.map fun arg => (arg.name, arg)).map Prod.fst =
        args.map (·.name) := by
    intro args
    rw [map_map]
    rfl
  rw [foldl_addOutput hunique, hsame, hrest, ← map_append, candidates]
  generalize hall : orderedOutputs ++ g.nodeOutputs.filter _ = all
  have hmem : ∀ arg ∈ all, arg ∈ g.nodeOutputs ∧ arg.Exists := by
    intro arg harg
    rw [← hall, mem_append, mem_filter, decide_eq_true_eq] at harg
    rcases harg with harg | harg
    · exact ⟨hlisted arg harg, hexists arg harg⟩
    · exact ⟨harg.1, harg.2.1⟩
  have hnames : (all.map (·.name)).Nodup := by
    refine List.Nodup.map_on (fun arg harg other hother => ?_) ?_
    · exact hinj (hmem arg harg).1 (hmem arg harg).2 (hmem other hother).1
        (hmem other hother).2
    · rw [← hall]
      exact nodup_listed hunique hnodup
  have hlookup : ∀ arg ∈ all, (all.map fun arg => (arg.name, arg)).lookup
      arg.name = some arg := by
    intro arg harg
    rw [lookup_eq_some_iff_mem (by rwa [hsame])]
    exact mem_map_of_mem harg
  rw [hsame, outputNames_foldl_inferInput (by exact fun _ hname => hname),
    filter_map, map_map]
  have hfilter : all.filter ((fun name => decide (name ∈
      (all.map (·.name)).filter (· ∉ g.nodeInputs.map (·.name)))) ∘
        fun arg => arg.name) =
      all.filter fun arg => arg.name ∉ g.nodeInputs.map (·.name) := by
    refine filter_congr fun arg harg => decide_eq_decide.mpr ?_
    rw [mem_filter, decide_eq_true_eq]
    exact and_iff_right (mem_map_of_mem harg)
  rw [hfilter]
  exact map_congr_left fun arg harg =>
    hlookup arg (mem_filter.mp harg).1

end Inferred

section Resolved

theorem inputsOutputs_addEdge {source target : NodeIndex} {src dst : Int}
    (h : g.addEdge source target src dst = .ok g') :
    g'.inputsOutputs = g.inputsOutputs := by
  obtain ⟨_, _, output, _, -, -, -, -, rfl⟩ :=
    @addEdge_eq_ok g g' ⟨source, src, target, dst⟩ h
  rfl

variable {index : NodeIndex} {state state' : Graph × List String}
  {subgraphUses : List (NodeIndex × List String)}

theorem inputsOutputs_connectImplicit {name : String}
    (h : connectImplicit index state name = .ok state') :
    state'.1.inputsOutputs = state.1.inputsOutputs := by
  obtain ⟨arg, -, h⟩ := except_bind_eq_ok.mp h
  dsimp only at h
  split at h
  · obtain ⟨added, hadded, h⟩ := except_bind_eq_ok.mp h
    cases h
    exact (inputsOutputs_addEdge hadded).trans rfl
  · cases h
    rfl

theorem inputsOutputs_connectInput {input : GraphArg × Nat}
    (h : connectInput index state input = .ok state') :
    state'.1.inputsOutputs = state.1.inputsOutputs := by
  rw [connectInput] at h
  split at h
  · cases h
    rfl
  · split at h
    · split at h <;> cases h <;> rfl
    · obtain ⟨added, hadded, h⟩ := except_bind_eq_ok.mp h
      cases h
      exact inputsOutputs_addEdge hadded

theorem inputsOutputs_connectNode (h : connectNode state index = .ok state') :
    state'.1.inputsOutputs = state.1.inputsOutputs := by
  rw [connectNode] at h
  split at h
  · cases h
    rfl
  · split at h
    · exact foldlM_preserves (motive := fun mid : Graph × List String =>
        mid.1.inputsOutputs = state.1.inputsOutputs)
        (fun _ _ _ _ hmid hstep => (inputsOutputs_connectInput hstep).trans hmid)
        rfl h
    · split at h
      · obtain ⟨⟨removed, result⟩, hremove, h⟩ := except_bind_eq_ok.mp h
        cases h
        exact removeNode_keeps (fun _ _ _ => rfl)
          (releaseNode_keeps fun _ _ _ _ => rfl) hremove
      · cases h
        rfl

theorem inputsOutputs_buildConnections {consumed : List String}
    (h : g.buildConnections subgraphUses = .ok (g', consumed)) :
    g'.inputsOutputs = g.inputsOutputs := by
  exact buildConnections_preserves
    (motive := fun mid : Graph => mid.inputsOutputs = g.inputsOutputs)
    (fun _ _ _ _ hmid hstep => (inputsOutputs_connectImplicit hstep).trans hmid)
    (fun _ _ _ hmid hstep => (inputsOutputs_connectNode hstep).trans hmid) rfl h

/-- What `Resolve` returns as outputs when `order` lists outputs of nodes. -/
theorem outputs_resolveWith
    {inferTypes : Graph → Except Failure (Nat → Option TypeProto)}
    {order : List GraphArg} (hneeded : g.graphResolveNeeded)
    (hcalls : ¬ g.loadedFromModelFile)
    (horder : ∀ arg ∈ order, arg ∈ g.nodeOutputs) (hnodup : order.Nodup)
    (h : (g.setOutputOrder (order.map some)).resolveWith subgraphUses
      inferTypes = .ok g') :
    g'.inputsOutputs.outputs = (g.candidates order).map some ∧
      (g.candidates order).Nodup := by
  obtain ⟨start, built, consumed, hstart, hbuilt, _, _, _, rfl⟩ :=
    resolveWith_eq_built (by exact hneeded) h
  obtain ⟨inputsOutputs, hset, hstart⟩ := except_bind_eq_ok.mp hstart
  obtain ⟨names, -, hstart⟩ := except_bind_eq_ok.mp hstart
  obtain ⟨ctx, hctx, hstart⟩ := except_bind_eq_ok.mp hstart
  cases hstart
  have hsame : (g.setOutputOrder (order.map some)).clearNodes.nodeOutputs =
      g.nodeOutputs := nodeOutputs_clearNodes
  have hsame' : (g.setOutputOrder (order.map some)).clearNodes.nodeInputs =
      g.nodeInputs := nodeInputs_clearNodes
  have hunique := nodup_existingNames hctx
  have hunique : (existingNames g.nodeOutputs).Nodup := by
    rw [← hsame]
    exact hunique
  rw [setGraphInputsOutputs, if_neg (by exact hcalls)] at hset
  have houtputs := outputs_inferInputsOutputs (by rwa [hsame])
    (by rwa [hsame]) hnodup rfl hset
  rw [candidates, hsame, hsame'] at houtputs
  refine ⟨?_, ?_⟩
  · rw [inputsOutputs_buildConnections hbuilt]
    exact houtputs
  · exact (nodup_listed hunique hnodup).filter _

end Resolved

/-- Two nodes, of which the second reads the first. -/
def chainCalls : List GraphCall :=
  [.addNode "f" "Relu" [⟨1, "x"⟩] [⟨2, "a"⟩],
    .addNode "h" "Relu" [⟨2, "a"⟩] [⟨3, "b"⟩]]

end Graph

end OnnxRuntime
