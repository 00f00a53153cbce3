/-
Arguments are looked up by name and compared by address.  In a graph whose
nodes take their arguments from its table both say the same, and new names do
not collide with old ones; its arguments can be renamed.  `Resolve` leaves such
graphs, with edges along the data flow and one definition for each value.
-/
import OnnxRuntime.AllocationPlanner
import OnnxRuntime.GraphMutation
import OnnxRuntime.Initializers
import Mathlib.Data.List.Perm.Subperm
import Mathlib.Data.String.Basic

namespace OnnxRuntime

variable {arg : GraphArg}

/-- `base_name << "_" << counter`. -/
def numbered (base : String) (counter : Nat) : String :=
  base ++ "_" ++ toString counter

theorem numbered_injective (base : String) :
    Function.Injective (numbered base) := by
  intro m n h
  have hdigits : Nat.toDigits 10 m = Nat.toDigits 10 n := by
    apply String.ofList_injective
    simpa [numbered, Nat.repr_eq_ofList_toDigits] using h
  calc m = Nat.ofDigitChars 10 (Nat.toDigits 10 m) 0 := by simp
    _ = Nat.ofDigitChars 10 (Nat.toDigits 10 n) 0 := by rw [hdigits]
    _ = n := by simp

open Function List

/-- All arguments of a node. -/
def GraphNode.defs (node : GraphNode) : List GraphArg :=
  node.inputDefs ++ node.implicitInputDefs ++ node.outputDefs

/-- `Node::ReplaceDefs`, one replacement after the other. -/
def GraphNode.replaceDefs (node : GraphNode)
    (replacements : List (GraphArg × GraphArg)) : GraphNode :=
  replacements.foldl (fun node pair => { node with
    inputDefs := node.inputDefs.map fun arg =>
      if arg.pointer = pair.1.pointer then pair.2 else arg
    outputDefs := node.outputDefs.map fun arg =>
      if arg.pointer = pair.1.pointer then pair.2 else arg }) node

namespace Graph

variable {g : Graph}

theorem getNodeArg_eq_some {name : String}
    (h : g.getNodeArg name = some arg) :
    arg ∈ g.nodeArgs ∧ arg.name = name :=
  ⟨mem_of_find?_eq_some h, by simpa using find?_some h⟩

theorem getNodeArg_eq_none_iff {name : String} :
    g.getNodeArg name = none ↔ name ∉ g.nodeArgs.map (·.name) := by
  simp [getNodeArg]

/-- Arguments of the table with one address are the same argument. -/
theorem eq_of_pointer (h : (g.nodeArgs.map (·.pointer)).Nodup)
    {other : GraphArg}
    (harg : g.getNodeArg arg.name = some arg)
    (hother : g.getNodeArg other.name = some other)
    (hpointer : arg.pointer = other.pointer) : arg = other :=
  inj_on_of_nodup_map h (getNodeArg_eq_some harg).1
    (getNodeArg_eq_some hother).1 hpointer

theorem lt_freshPointer (h : arg ∈ g.nodeArgs) :
    arg.pointer < g.freshPointer := by
  rw [freshPointer]
  have hmem : arg.pointer ∈ ((g.nodeArgs ++ g.liveNodes.flatMap fun entry =>
      entry.2.inputDefs ++ entry.2.implicitInputDefs ++
        entry.2.outputDefs).map (·.pointer)) :=
    mem_map_of_mem (mem_append_left _ h)
  generalize ((g.nodeArgs ++ g.liveNodes.flatMap fun entry =>
      entry.2.inputDefs ++ entry.2.implicitInputDefs ++
        entry.2.outputDefs).map (·.pointer)) = pointers at hmem ⊢
  induction pointers with
  | nil => cases hmem
  | cons first rest ih =>
    rcases mem_cons.mp hmem with heq | hrest
    · rw [heq]
      exact Nat.lt_succ_of_le (Nat.le_max_left _ _)
    · exact Nat.lt_of_lt_of_le (ih hrest)
        (Nat.succ_le_succ (Nat.le_max_right _ _))

section NewArgs

theorem createNodeArgs_of_eq_some {args : List GraphArg}
    (h : ∀ arg ∈ args, g.getNodeArg arg.name = some arg) :
    g.createNodeArgs args = (g, args) := by
  induction args with
  | nil => rfl
  | cons arg rest ih =>
    rw [forall_mem_cons] at h
    rw [createNodeArgs, getOrCreateNodeArg, h.1]
    dsimp only
    rw [ih h.2]

variable {name : String} {type : Option TypeProto}

theorem getOrCreateNodeArg_of_new (hnew : name ∉ g.nodeArgs.map (·.name)) :
    g.getOrCreateNodeArg name type =
      ({ g with
        nodeArgs := g.nodeArgs ++ [⟨g.freshPointer, name⟩]
        argType := Function.update g.argType g.freshPointer type },
        ⟨g.freshPointer, name⟩) := by
  rw [getOrCreateNodeArg, getNodeArg_eq_none_iff.mpr hnew]

theorem getNodeArg_getOrCreateNodeArg
    (hnew : name ∉ g.nodeArgs.map (·.name)) (other : String) :
    (g.getOrCreateNodeArg name type).1.getNodeArg other =
      if other = name then some ⟨g.freshPointer, name⟩
      else g.getNodeArg other := by
  rw [getOrCreateNodeArg_of_new hnew, getNodeArg, getNodeArg, find?_append]
  split
  · rename_i heq
    have hnone : g.nodeArgs.find? (fun arg => arg.name = other) = none :=
      getNodeArg_eq_none_iff.mpr (heq ▸ hnew)
    rw [hnone, heq]
    simp
  · rename_i hne
    simp [Ne.symm hne]

/-- The table has only grown. -/
structure Grown (start g : Graph) : Prop where
  table : ∀ name arg, start.getNodeArg name = some arg →
    g.getNodeArg name = some arg
  types : ∀ name arg, start.getNodeArg name = some arg →
    g.argType arg.pointer = start.argType arg.pointer
  pointers : (g.nodeArgs.map (·.pointer)).Nodup
  inputs : g.inputsOutputs.inputs = start.inputsOutputs.inputs
  initializers : g.nameToInitialTensor = start.nameToInitialTensor

theorem Grown.trans {start mid : Graph} (h : Grown start mid)
    (h' : Grown mid g) : Grown start g where
  table name arg harg := h'.table name arg (h.table name arg harg)
  types name arg harg :=
    (h'.types name arg (h.table name arg harg)).trans (h.types name arg harg)
  pointers := h'.pointers
  inputs := h'.inputs.trans h.inputs
  initializers := h'.initializers.trans h.initializers

variable (h : (g.nodeArgs.map (·.pointer)).Nodup)
include h

theorem pointers_getOrCreateNodeArg (hnew : name ∉ g.nodeArgs.map (·.name)) :
    ((g.getOrCreateNodeArg name type).1.nodeArgs.map (·.pointer)).Nodup := by
  rw [getOrCreateNodeArg_of_new hnew]
  rw [map_append, nodup_append]
  refine ⟨h, nodup_singleton _, ?_⟩
  rintro _ hold _ hfresh rfl
  obtain ⟨arg, harg, hpointer⟩ := mem_map.mp hold
  rw [mem_singleton.mp hfresh] at hpointer
  exact Nat.ne_of_lt (lt_freshPointer harg) hpointer

theorem Grown.refl : Grown g g :=
  ⟨fun _ _ harg => harg, fun _ _ _ => rfl, h, rfl, rfl⟩

/-- An argument of that name is in the table afterwards, a new one with the
type that was asked for. -/
theorem getOrCreateNodeArg_grown (name : String) (type : Option TypeProto) :
    Grown g (g.getOrCreateNodeArg name type).1 ∧
      (g.getOrCreateNodeArg name type).2.name = name ∧
      (∀ other arg, (g.getOrCreateNodeArg name type).1.getNodeArg other =
        some arg ↔ g.getNodeArg other = some arg ∨
          other = name ∧ arg = (g.getOrCreateNodeArg name type).2) ∧
      (g.getNodeArg name = none → (g.getOrCreateNodeArg name type).1.argType
        (g.getOrCreateNodeArg name type).2.pointer = type) := by
  cases hfound : g.getNodeArg name with
  | some arg =>
    have hname := (getNodeArg_eq_some hfound).2
    have heq : g.getOrCreateNodeArg name type = (g, arg) := by
      rw [Graph.getOrCreateNodeArg, hfound]
    rw [heq]
    refine ⟨.refl h, hname, fun other found => ⟨.inl, ?_⟩, ?_⟩
    · rintro (hother | ⟨rfl, rfl⟩)
      · exact hother
      · exact hfound
    · intro hnone
      cases hnone
  | none =>
    have hnew := getNodeArg_eq_none_iff.mp hfound
    have htable : ∀ other arg, (g.getOrCreateNodeArg name type).1.getNodeArg
        other = some arg ↔ g.getNodeArg other = some arg ∨
          other = name ∧ arg = ⟨g.freshPointer, name⟩ := by
      intro other arg
      rw [getNodeArg_getOrCreateNodeArg hnew]
      by_cases heq : other = name
      · rw [heq]
        grind
      · grind
    have hpointers := @pointers_getOrCreateNodeArg g name type h hnew
    rw [getOrCreateNodeArg_of_new hnew] at htable hpointers ⊢
    refine ⟨⟨?_, ?_, hpointers, rfl, rfl⟩, rfl, htable,
      fun _ => update_self _ _ _⟩
    · intro other arg harg
      exact (htable other arg).mpr (.inl harg)
    · intro other arg harg
      have hlt := lt_freshPointer (getNodeArg_eq_some harg).1
      exact update_of_ne (Nat.ne_of_lt hlt) _ _

end NewArgs

end Graph

/-- The argument that a list of replacements gives for one. -/
def replaceArg (pairs : List (GraphArg × GraphArg)) (arg : GraphArg) :
    GraphArg :=
  ((pairs.find? fun pair => arg.pointer = pair.1.pointer).map Prod.snd).getD arg

namespace GraphNode

variable {pairs : List (GraphArg × GraphArg)}

/-- When nothing is replaced by an argument that is replaced itself, the order
of the replacements does not matter. -/
theorem replaceDefs_eq (node : GraphNode)
    (h : ∀ pair ∈ pairs, ∀ other ∈ pairs, other.2.pointer ≠ pair.1.pointer) :
    node.replaceDefs pairs = { node with
      inputDefs := node.inputDefs.map (replaceArg pairs)
      outputDefs := node.outputDefs.map (replaceArg pairs) } := by
  induction pairs generalizing node with
  | nil =>
    have hid : replaceArg [] = id := rfl
    rw [hid, map_id, map_id]
    rfl
  | cons pair rest ih =>
    have hrest : ∀ pair ∈ rest, ∀ other ∈ rest,
        other.2.pointer ≠ pair.1.pointer := fun pair' hpair other hother =>
      h pair' (mem_cons_of_mem pair hpair) other (mem_cons_of_mem pair hother)
    have hnew : replaceArg rest pair.2 = pair.2 := by
      rw [replaceArg, find?_eq_none.mpr]
      · rfl
      · intro pair' hpair
        simpa using h pair' (mem_cons_of_mem pair hpair) pair mem_cons_self
    have hstep : ∀ arg, replaceArg rest
        (if arg.pointer = pair.1.pointer then pair.2 else arg) =
          replaceArg (pair :: rest) arg := by
      intro arg
      by_cases heq : arg.pointer = pair.1.pointer
      · rw [if_pos heq, hnew, replaceArg, find?_cons_of_pos]
        · rfl
        · simpa using heq
      · rw [if_neg heq, replaceArg, replaceArg, find?_cons_of_neg]
        simpa using heq
    rw [replaceDefs, foldl_cons, ← replaceDefs, ih _ hrest]
    simp only [map_map, Function.comp_def, hstep]

theorem name_replaceDefs (node : GraphNode)
    (pairs : List (GraphArg × GraphArg)) :
    (node.replaceDefs pairs).name = node.name := by
  induction pairs generalizing node with
  | nil => rfl
  | cons pair rest ih => exact ih _

end GraphNode

namespace Graph

/-- Changing nodes one after the other, when a second change does nothing. -/
theorem node_foldl_modifyNode {f : GraphNode → GraphNode}
    (hf : ∀ node, f (f node) = f node) (indices : List NodeIndex) (g : Graph)
    (index : NodeIndex) :
    (indices.foldl (fun g i => g.modifyNode i f) g).node index =
      if index ∈ indices then (g.node index).map f else g.node index := by
  induction indices generalizing g with
  | nil => simp
  | cons first rest ih =>
    rw [foldl_cons, ih, node_modifyNode]
    by_cases hfirst : first = index
    · cases hnode : g.node index <;> simp [hfirst, hf]
    · simp [hfirst, Ne.symm hfirst]

/-- What a change of a node leaves alone. -/
theorem foldl_modifyNode_keeps {α : Type} {part : Graph → α}
    {f : GraphNode → GraphNode}
    (hpart : ∀ g index, part (g.modifyNode index f) = part g)
    (indices : List NodeIndex) (g : Graph) :
    part (indices.foldl (fun g i => g.modifyNode i f) g) = part g := by
  induction indices generalizing g with
  | nil => rfl
  | cons first rest ih => rw [foldl_cons, ih, hpart]

/-- Where a name is defined: outside of the nodes, or by an output slot. -/
def Defines (g : Graph) (name : String) : Option (NodeIndex × Nat) → Prop
  | none => name ∈ g.inputsOutputs.inputs.map (·.name) ∨
      name ∈ g.nameToInitialTensor
  | some (index, slot) => ∃ node, g.node index = some node ∧
      (node.outputDefs.map (·.name))[slot]? = some name

/-- The names that a graph has for values. -/
def valueNames (g : Graph) : List String :=
  (g.liveNodes.flatMap fun entry => entry.2.defs.map (·.name)) ++
    g.inputsOutputs.inputs.map (·.name) ++ g.nameToInitialTensor

/-- What `Resolve` leaves behind. -/
structure Resolved (g : Graph) : Prop where
  done : g.graphResolveNeeded = false
  mirrored : g.Mirrored
  acyclic : g.Acyclic
  pointers : (g.nodeArgs.map (·.pointer)).Nodup
  args : ∀ index node, g.node index = some node →
    ∀ arg ∈ node.inputDefs ++ node.outputDefs, g.getNodeArg arg.name = some arg
  typed : ∀ arg ∈ g.nodeArgs, ¬ arg.Exists → g.argType arg.pointer = none
  edges : ∀ source producer target consumer,
    g.node source = some producer → g.node target = some consumer →
    ∀ arg ∈ producer.outputDefs, arg ∈ consumer.inputDefs → arg.Exists →
      g.Edge source target
  definitions : ∀ name ≠ "", ∀ site site', g.Defines name site →
    g.Defines name site' → site = site'

variable {g : Graph}

theorem defines_of_outputDefs {index : NodeIndex}
    {node : GraphNode} {slot : Nat}
    (hnode : g.node index = some node)
    (harg : node.outputDefs[slot]? = some arg) :
    g.Defines arg.name (some (index, slot)) :=
  ⟨node, hnode, by rw [getElem?_map, harg]; rfl⟩

/-- The definitions of a graph as a list. -/
def definitionSites (g : Graph) : List (String × Option (NodeIndex × Nat)) :=
  (g.inputsOutputs.inputs.map (·.name) ++ g.nameToInitialTensor).map
      (·, none) ++
    g.liveNodes.flatMap fun entry => entry.2.outputDefs.zipIdx.map
      fun output => (output.1.name, some (entry.1, output.2))

theorem mem_definitionSites {name : String}
    {site : Option (NodeIndex × Nat)} (h : g.Defines name site) :
    (name, site) ∈ definitionSites g := by
  cases site with
  | none =>
    refine mem_append_left _ (mem_map.mpr ⟨name, ?_, rfl⟩)
    exact mem_append.mpr h
  | some site =>
    obtain ⟨node, hnode, hname⟩ := h
    rw [getElem?_map, Option.map_eq_some_iff] at hname
    obtain ⟨arg, harg, rfl⟩ := hname
    refine mem_append_right _ (mem_flatMap.mpr
      ⟨(site.1, node), mem_liveNodes.mpr hnode,
        mem_map.mpr ⟨(arg, site.2), ?_, rfl⟩⟩)
    exact mem_zipIdx_iff_getElem?.mpr harg

/-- `Resolved` in a form that can be evaluated. -/
theorem resolved_of_checks (order : List NodeIndex)
    (h : g.graphResolveNeeded = false ∧ g.Mirrored ∧
      g.TopologicalOrder order ∧ (g.nodeArgs.map (·.pointer)).Nodup ∧
      (∀ entry ∈ g.liveNodes, ∀ arg ∈ entry.2.inputDefs ++ entry.2.outputDefs,
        g.getNodeArg arg.name = some arg) ∧
      (∀ arg ∈ g.nodeArgs, ¬ arg.Exists → g.argType arg.pointer = none) ∧
      (∀ entry ∈ g.liveNodes, ∀ other ∈ g.liveNodes,
        ∀ arg ∈ entry.2.outputDefs, arg ∈ other.2.inputDefs → arg.Exists →
          ∃ edge ∈ g.outputEdgesOf entry.1, edge.node = other.1) ∧
      ∀ site ∈ definitionSites g, ∀ other ∈ definitionSites g,
        site.1 = other.1 → site.1 ≠ "" → site.2 = other.2) :
    g.Resolved := by
  obtain ⟨hdone, hmirrored, horder, hpointers, hargs, htyped, hedges, hsites⟩ := h
  refine ⟨hdone, hmirrored, acyclic_of_idxOf_lt order horder.before,
    hpointers, ?_, htyped, ?_, ?_⟩
  · intro index node hnode
    exact hargs (index, node) (mem_liveNodes.mpr hnode)
  · intro source producer target consumer hproducer hconsumer arg houtput
      hinput hexists
    obtain ⟨edge, hedge, rfl⟩ := hedges (source, producer)
      (mem_liveNodes.mpr hproducer) (target, consumer)
      (mem_liveNodes.mpr hconsumer) arg houtput hinput hexists
    exact ⟨⟨source, edge.srcArgIndex, edge.node, edge.dstArgIndex⟩, rfl, rfl,
      hedge⟩
  · intro name hname site site' hsite hsite'
    exact hsites _ (mem_definitionSites hsite) _ (mem_definitionSites hsite')
      rfl hname

end Graph

def memTypeOnCpuExplicitly (memType : OrtMemType) : Bool :=
  memType = .cpuInput ∨ memType = .cpuOutput

/-- `kCpuExecutionProvider`. -/
def cpuProviderType : String := "CPUExecutionProvider"

/-- A graph whose nodes are assigned to providers.  `kernelDef` is what the
kernel registries find for a node, which is nothing for a custom kernel. -/
structure PlacedGraph (τ : Type) where
  graph : Graph
  executionProviderType : NodeIndex → String
  kernelDef : NodeIndex → Option KernelDef
  initializers : GraphInitializers τ
  nameGenerator : Nat := 0

namespace PlacedGraph

variable {τ : Type} (s : PlacedGraph τ)

def inputOnCpu (index : NodeIndex) (slot : Nat) : Bool :=
  (s.kernelDef index).any fun kernelDef =>
    memTypeOnCpuExplicitly (kernelDef.inputMemoryType slot)

end PlacedGraph

end OnnxRuntime
