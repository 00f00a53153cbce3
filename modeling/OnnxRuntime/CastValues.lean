/-
What the removal of casts does to values.  Readers are moved from the result
of a second cast to the input of the first one, so the values stay if nothing
that is removed is still read and every round trip gives its input back.
-/
import OnnxRuntime.CastNames
import OnnxRuntime.CastRemoval
import OnnxRuntime.Valuations

namespace OnnxRuntime

open List Option Relation

/-- The values of the element types, and the conversions between them. -/
structure Conversions (V : Type) where
  hasType : Option TypeProto → V → Prop
  convert : Option TypeProto → Option TypeProto → V → V

/-- Where a value is used: an input of a node, or an output of the graph. -/
inductive ValueUse where
  | input (index : NodeIndex) (slot : Nat)
  | output (slot : Nat)

namespace Graph

section Values

variable {V : Type} (g : Graph) (c : Conversions V)

def TypedAs (name : String) (v : V) : Prop :=
  ∀ arg, g.getNodeArg name = some arg → c.hasType (g.argType arg.pointer) v

/-- Casts convert between the types of their arguments, and every node gives
values of the types of its outputs. -/
structure Interprets (meaning : NodeIndex → List V → Nat → V) : Prop where
  casts : ∀ index input output, g.castArgs index = some (input, output) →
    ∀ v, c.hasType (g.argType input.pointer) v → meaning index [v] 0 =
      c.convert (g.argType input.pointer) (g.argType output.pointer) v
  typed : ∀ index node, g.node index = some node → ∀ values : List V,
    List.Forall₂ (fun arg v => g.TypedAs c arg.name v)
      (node.inputDefs ++ node.implicitInputDefs) values →
    ∀ (slot : Nat) arg, node.outputDefs[slot]? = some arg →
      g.TypedAs c arg.name (meaning index values slot)

/-- What a node reads, writes and computes. -/
def operationAt (meaning : NodeIndex → List V → Nat → V) (index : NodeIndex) :
    Option (Operation String V) :=
  (g.defsOf index).map fun defs => {
    reads := (defs.1 ++ defs.2.1).map (·.name)
    writes := defs.2.2.map fun arg =>
      if arg.Exists then some arg.name else none
    meaning := meaning index }

/-- The names have the values that the nodes compute. -/
def Computes (meaning : NodeIndex → List V → Nat → V) (e : String → V) :
    Prop :=
  ∀ index op, g.operationAt meaning index = some op → op.Holds e

/-- Some node writes the name. -/
def Writes (name : String) : Prop :=
  ∃ index node, g.node index = some node ∧
    ∃ arg ∈ node.outputDefs, arg.Exists ∧ arg.name = name

def usedAt : ValueUse → Option GraphArg
  | .input index slot => g.inputArg index slot
  | .output slot => g.inputsOutputs.outputs[slot]?.join

/-- The graph outputs, and the inputs of the nodes that are there. -/
def Remains : ValueUse → Prop
  | .input index _ => (g.node index).isSome
  | .output _ => True

/-- Every graph output and every input of a remaining node is defined and has
the value that it had before. -/
def KeepsValues (after : Graph) : Prop :=
  ∀ use arg, g.usedAt use = some arg → after.Remains use →
    ∃ arg', after.usedAt use = some arg' ∧
      (∀ site, g.Defines arg'.name site → after.Defines arg'.name site) ∧
      ∀ meaning, g.Interprets c meaning → ∀ e e',
        g.Computes meaning e → (∀ name, g.TypedAs c name (e name)) →
        after.Computes meaning e' → (∀ name, g.TypedAs c name (e' name)) →
        (∀ name, ¬ g.Writes name → e' name = e name) →
        e' arg'.name = e arg.name

/-- The second phase completes and keeps the values. -/
def RemovesCasts : Prop :=
  ∃ after modified, g.removeCasts = .ok (after, modified) ∧
    g.KeepsValues c after

/-- Nothing that is removed is still used. -/
structure CastsSeparable : Prop where
  apart : g.RemovalsApart
  outputs : ∀ removed ∈ g.removals, ∀ input output,
    g.castArgs removed = some (input, output) →
    ∀ arg, some arg ∈ g.inputsOutputs.outputs → arg.name ≠ output.name
  explicit : ∀ first second input result, g.CastPair first second input result →
    ∀ index node, g.node index = some node → result ∉ node.implicitInputDefs
  untangled : g.Untangled

/-- The casts can be removed, and wherever the second cast of a pair is read
the round trip gives its input back. -/
structure CastsRemovable : Prop extends CastsSeparable g where
  lossless : ∀ meaning, g.Interprets c meaning → ∀ e : String → V,
    g.Computes meaning e → (∀ name, g.TypedAs c name (e name)) →
    ∀ first second input output result,
      g.castArgs first = some (input, output) →
      g.castArgs second = some (output, result) →
      g.argType input.pointer = g.argType result.pointer →
      (∃ reader node, g.node reader = some node ∧ result ∈ node.inputDefs) →
      c.convert (g.argType output.pointer) (g.argType result.pointer)
        (c.convert (g.argType input.pointer) (g.argType output.pointer)
          (e input.name)) = e input.name

end Values

section Outcome

variable {g after : Graph}

/-- What the second phase leaves. -/
structure CastsRemoved (g after : Graph) : Prop where
  defs : ∀ index, after.defsOf index = if index ∈ g.removals then none
    else (g.defsOf index).map fun defs =>
      (defs.1.map (g.swept g.nodes.length index), defs.2)
  outputs : after.inputsOutputs = g.inputsOutputs
  initializers : after.nameToInitialTensor = g.nameToInitialTensor

theorem removeCasts_spec (hg : g.CastReady) : Meets (¬ g.RemovalsApart)
      (fun result : Graph × Bool => g.RemovalsApart ∧
        CastsRemoved g result.1) g.removeCasts := by
  refine (removeCasts_meets hg).imp id ?_
  rintro ⟨after, modified⟩ ⟨hapart, middle, hrelabels, hremoved⟩
  refine ⟨hapart, fun index => ?_, hremoved.outputs.trans hrelabels.outputs,
    hremoved.initializers.trans hrelabels.initializers⟩
  rw [hremoved.defs]
  rw [defsOf, defsOf, hrelabels.node]
  cases g.node index <;> rfl

variable (h : CastsRemoved g after)
include h

theorem CastsRemoved.isSome_iff {index : NodeIndex} :
    (after.node index).isSome ↔ (g.node index).isSome ∧ index ∉ g.removals := by
  have hdefs := congrArg Option.isSome (h.defs index)
  rw [defsOf, isSome_map] at hdefs
  rw [hdefs]
  split
  · simp [*]
  · simp [*, defsOf]

variable {index : NodeIndex} {node : GraphNode} {arg : GraphArg}
  (hnode : g.node index = some node) (hindex : index ∉ g.removals)
include hnode hindex

theorem CastsRemoved.defsOf_eq : after.defsOf index =
    some (node.inputDefs.map (g.swept g.nodes.length index),
      node.implicitInputDefs, node.outputDefs) := by
  rw [h.defs, if_neg hindex, defsOf, hnode]
  rfl

/-- The inputs of a remaining node with what they become: the sweep moved the
explicit ones. -/
def movedInputs (g : Graph) (index : NodeIndex) (node : GraphNode) :
    List (GraphArg × GraphArg) :=
  node.inputDefs.map (fun arg => (arg, g.swept g.nodes.length index arg)) ++
    node.implicitInputDefs.map fun arg => (arg, arg)

theorem CastsRemoved.usedAt_input (slot : Nat) :
    g.usedAt (.input index slot) =
        (g.movedInputs index node)[slot]?.map Prod.fst ∧
      after.usedAt (.input index slot) =
        (g.movedInputs index node)[slot]?.map Prod.snd := by
  rw [usedAt, usedAt, inputArg, hnode, inputArg_eq_bind,
    h.defsOf_eq hnode hindex, ← getElem?_map, ← getElem?_map, movedInputs]
  simp only [map_append, List.map_map, Function.comp_def, List.map_id']
  exact ⟨rfl, rfl⟩

theorem CastsRemoved.exists_use {arg' : GraphArg}
    (harg : (arg, arg') ∈ g.movedInputs index node) :
    ∃ use, g.usedAt use = some arg ∧ after.Remains use ∧
      after.usedAt use = some arg' := by
  obtain ⟨slot, hslot⟩ := getElem?_of_mem harg
  obtain ⟨huse, huse'⟩ := h.usedAt_input hnode hindex slot
  rw [hslot] at huse huse'
  exact ⟨.input index slot, huse,
    h.isSome_iff.mpr ⟨by rw [hnode]; rfl, hindex⟩, huse'⟩

omit hnode hindex in
/-- Every use that remains is an output or one of these. -/
theorem CastsRemoved.use_cases {use : ValueUse}
    (huse : g.usedAt use = some arg) (hremains : after.Remains use) :
    (some arg ∈ g.inputsOutputs.outputs ∧ after.usedAt use = some arg) ∨
    ∃ index node, g.node index = some node ∧ index ∉ g.removals ∧
      (arg ∈ node.inputDefs ∧
          after.usedAt use = some (g.swept g.nodes.length index arg) ∨
        arg ∈ node.implicitInputDefs ∧ after.usedAt use = some arg) := by
  cases use with
  | output slot =>
    refine .inl ⟨?_, ?_⟩
    · rw [usedAt, join_eq_some_iff] at huse
      exact mem_of_getElem? huse
    · rw [← huse, usedAt, usedAt, h.outputs]
  | input index slot =>
    obtain ⟨hlive, hindex⟩ := h.isSome_iff.mp hremains
    obtain ⟨node, hnode⟩ := isSome_iff_exists.mp hlive
    refine .inr ⟨index, node, hnode, hindex, ?_⟩
    obtain ⟨hbefore, hafter⟩ := h.usedAt_input hnode hindex slot
    rw [huse] at hbefore
    obtain ⟨⟨_, arg'⟩, hslot, rfl⟩ := map_eq_some_iff.mp hbefore.symm
    rw [hafter, hslot]
    rcases List.mem_append.mp (mem_of_getElem? hslot) with hmem | hmem
    · obtain ⟨_, harg, heq⟩ := List.mem_map.mp hmem
      cases heq
      exact .inl ⟨harg, rfl⟩
    · obtain ⟨_, harg, heq⟩ := List.mem_map.mp hmem
      cases heq
      exact .inr ⟨harg, rfl⟩

end Outcome

section Definitions

variable {g after : Graph} (hg : g.CastReady)

/-- No cast that is removed writes the name. -/
def Keeps (g : Graph) (name : String) : Prop :=
  ∀ removed ∈ g.removals, ∀ input output,
    g.castArgs removed = some (input, output) → name ≠ output.name

variable {index : NodeIndex} {node : GraphNode} {arg : GraphArg}
include hg

theorem typed_swept : KeepsArgTypes g (g.swept g.nodes.length) := by
  obtain ⟨result, -, -, htyped, -⟩ := (sweep_meets hg).exists_ok id
  exact htyped

theorem Keeps.not_mem_removals (h : g.Keeps arg.name)
    (hnode : g.node index = some node) (harg : arg ∈ node.outputDefs) :
    index ∉ g.removals := by
  intro hremoved
  obtain ⟨input, output, hcast⟩ := exists_castArgs_of_mem_removals hg hremoved
  obtain ⟨node', hnode', -, -, houtputs, -⟩ := (castArgs_eq_some hg).mp hcast
  cases hnode.symm.trans hnode'
  rw [houtputs, mem_singleton] at harg
  exact h index hremoved input output hcast (by rw [harg])

/-- A definition stays unless it is the output of a cast that goes. -/
theorem CastsRemoved.keepsDefinition_iff (h : CastsRemoved g after)
    {name : String} :
    (∀ site, g.Defines name site → after.Defines name site) ↔ g.Keeps name := by
  constructor
  · rintro hkeeps removed hremoved input output hcast rfl
    obtain ⟨node, hnode, -, -, houtputs, -⟩ := (castArgs_eq_some hg).mp hcast
    obtain ⟨node', hnode', -⟩ := hkeeps (some (removed, 0))
      (defines_of_outputDefs hnode (by rw [houtputs]; rfl))
    exact (h.isSome_iff.mp (by rw [hnode']; rfl)).2 hremoved
  · intro hname site hsite
    cases site with
    | none =>
      rw [Defines, h.outputs, h.initializers]
      exact hsite
    | some site =>
      obtain ⟨node, hnode, hslot⟩ := hsite
      obtain ⟨arg, harg, rfl⟩ := List.mem_map.mp (mem_of_getElem? hslot)
      have hdefs := h.defsOf_eq hnode (hname.not_mem_removals hg hnode harg)
      rw [defsOf, map_eq_some_iff] at hdefs
      obtain ⟨node', hnode', hdefs⟩ := hdefs
      rw [Prod.mk.injEq, Prod.mk.injEq] at hdefs
      exact ⟨node', hnode', by rw [hdefs.2.2]; exact hslot⟩

/-- An argument from the table that has the name of the output of a cast is
that output. -/
theorem eq_of_name_eq {input output : GraphArg}
    (hcast : g.castArgs index = some (input, output))
    (harg : g.getNodeArg arg.name = some arg)
    (hname : arg.name = output.name) : arg = output := by
  obtain ⟨node, hnode, houtput, -⟩ := castArgs_output hg hcast
  have houtput := hg.args index node hnode output (mem_append_right _ houtput)
  rw [← hname] at houtput
  exact some.inj (harg.symm.trans houtput)

/-- A remaining node reads no cast that is removed. -/
theorem CastsSeparable.keeps_swept (h : g.CastsSeparable)
    (hnode : g.node index = some node) (hindex : index ∉ g.removals)
    (harg : arg ∈ node.inputDefs) :
    g.Keeps (g.swept g.nodes.length index arg).name := by
  intro removed hremoved input output hcast hname
  have heq := eq_of_name_eq hg hcast ((typed_swept hg).table index node hnode
    arg harg) hname
  rcases (mem_removals hg).mp hremoved with ⟨first, hundoes⟩ | hfull
  · -- The result of a second cast would have been moved on.
    obtain ⟨input', output', result, hfirst, hsecond, htype⟩ := hundoes
    cases hcast.symm.trans hsecond
    have hpair : g.CastPair first removed input'
        (g.swept g.nodes.length index arg) :=
      ⟨input, hfirst, by rw [hsecond, heq], by rw [htype, heq]⟩
    exact absurd (h.untangled.pending hg hnode harg hpair).1
      (Nat.not_le.mpr (hpair.undoes.lt_length hg))
  · -- A first cast that goes has no reader but its second casts, and those
    -- are not read by casts that go.
    rcases ReflTransGen.cases_tail (skips_swept hg g.nodes.length index arg)
      with hsame | ⟨middle, -, first, second, hpair⟩
    · rw [heq] at hsame
      have hreader := mem_readers_of_castArgs hg hcast hnode
        (mem_append_left _ (hsame ▸ harg))
      exact hindex ((mem_removals hg).mpr
        (.inl ⟨removed, hfull.2 index hreader⟩))
    · have hundoes := hpair.undoes
      obtain ⟨output', hfirst, -⟩ := hpair
      rw [heq] at hfirst
      obtain ⟨cast, hcast', hinput⟩ := castArgs_input hg hfirst
      have hreader := mem_readers_of_castArgs hg hcast hcast'
        (mem_append_left _ hinput)
      exact h.apart second ((mem_removals hg).mpr (.inl ⟨first, hundoes⟩))
        removed first (hfull.2 first hreader) (hundoes.mem_readers hg)

theorem CastsSeparable.keeps_implicit (h : g.CastsSeparable)
    (hnode : g.node index = some node) (hindex : index ∉ g.removals)
    (harg : arg ∈ node.implicitInputDefs) : g.Keeps arg.name := by
  intro removed hremoved input output hcast hname
  obtain ⟨cast, hnode', houtput, -⟩ := castArgs_output hg hcast
  have heq := hg.implicit index node hnode arg harg output
    (hg.args removed cast hnode' output (mem_append_right _ houtput)) hname
  subst heq
  rcases (mem_removals hg).mp hremoved with ⟨first, hundoes⟩ | hfull
  · obtain ⟨input', output', result, hfirst, hsecond, htype⟩ := hundoes
    cases hcast.symm.trans hsecond
    exact h.explicit first removed input' arg
      ⟨input, hfirst, hsecond, htype⟩ index node hnode harg
  · have hreader := mem_readers_of_castArgs hg hcast hnode
      (List.mem_append_right _ harg)
    exact hindex ((mem_removals hg).mpr (.inl ⟨removed, hfull.2 index hreader⟩))

/-- What is used afterwards would miss a definition otherwise. -/
theorem CastsRemoved.separable (h : CastsRemoved g after)
    (hapart : g.RemovalsApart)
    (hdefined : ∀ use arg, g.usedAt use = some arg → after.Remains use →
      ∃ arg', after.usedAt use = some arg' ∧
        ∀ site, g.Defines arg'.name site → after.Defines arg'.name site) :
    g.CastsSeparable := by
  have hused : ∀ use arg arg', g.usedAt use = some arg → after.Remains use →
      after.usedAt use = some arg' → g.Keeps arg'.name := by
    intro use arg arg' huse hremains huse'
    obtain ⟨arg'', huse'', hkeeps⟩ := hdefined use arg huse hremains
    cases huse'.symm.trans huse''
    exact (h.keepsDefinition_iff hg).mp hkeeps
  have hsecond : ∀ {first second input result},
      g.CastPair first second input result → second ∈ g.removals :=
    fun hpair => (mem_removals hg).mpr (.inl ⟨_, hpair.undoes⟩)
  have hexplicit : ∀ first second input result,
      g.CastPair first second input result → ∀ index node,
      g.node index = some node → result ∉ node.implicitInputDefs := by
    intro first second input result hpair index node hnode harg
    have hindex : index ∉ g.removals := by
      intro hremoved
      obtain ⟨_, _, hcast⟩ := exists_castArgs_of_mem_removals hg hremoved
      obtain ⟨node', hnode', -, -, -, himplicit, -⟩ :=
        (castArgs_eq_some hg).mp hcast
      cases hnode.symm.trans hnode'
      rw [himplicit] at harg
      cases harg
    obtain ⟨use, huse, hremains, huse'⟩ :=
      h.exists_use hnode hindex (mem_append_right _ (mem_map_of_mem harg))
    have hremoved := hsecond hpair
    obtain ⟨output, -, hargs, -⟩ := hpair
    exact hused use result result huse hremains huse' second hremoved output
      result hargs rfl
  refine ⟨hapart, ?_, hexplicit, ?_⟩
  · intro removed hremoved input output hcast arg harg hname
    obtain ⟨slot, hslot⟩ := getElem?_of_mem harg
    have huse : g.usedAt (.output slot) = some arg := by
      rw [usedAt, hslot]
      rfl
    have huse' : after.usedAt (.output slot) = some arg := by
      rw [← huse, usedAt, usedAt, h.outputs]
    exact hused (.output slot) arg arg huse trivial huse' removed hremoved
      input output hcast hname
  · intro first second first' second' hundoes hundoes' hlt hmem reader hreader
    by_contra hnot
    obtain ⟨input, result, hpair⟩ := undoes_iff_castPair.mp hundoes
    obtain ⟨output, hfirst, hargs, htype⟩ := hpair
    have hpair : g.CastPair first second input result :=
      ⟨output, hfirst, hargs, htype⟩
    obtain ⟨input', hpair'⟩ := castPair_of_mem_readers hg hfirst hundoes' hmem
    -- The reader is moved to the result of the later second cast, and stays.
    have hstays : ∀ k, first < k → g.swept k reader result = input := by
      intro k hk
      induction k, hk using Nat.le_induction with
      | base =>
        rw [swept_visited hg hpair hreader,
          swept_of_le hg hpair' (Nat.le_of_lt hlt)]
      | succ k _ ih =>
        rcases swept_succ_cases hg k reader result with ⟨hsame, -⟩ |
          ⟨other, _, hother, hmoved, -⟩
        · rw [hsame, ih]
        · rw [ih] at hmoved
          rw [← (hpair'.unique hg hmoved).2.1] at hother
          exact absurd hother hnot
    obtain ⟨producer, consumer, arg, hproducer, hconsumer, houtput, hinput,
      -⟩ := (mem_readers hg).mp hreader
    obtain ⟨cast, hcast, -, -, houtputs, -⟩ := (castArgs_eq_some hg).mp hargs
    cases hproducer.symm.trans hcast
    rw [houtputs, mem_singleton] at houtput
    subst houtput
    have hresult : arg ∈ consumer.inputDefs :=
      (List.mem_append.mp hinput).resolve_right
        (hexplicit first second input arg hpair reader consumer hconsumer)
    have hindex : reader ∉ g.removals := fun hremoved =>
      hapart reader hremoved first second hundoes hreader
    obtain ⟨use, huse, hremains, huse'⟩ :=
      h.exists_use hconsumer hindex (mem_append_left _ (mem_map_of_mem hresult))
    rw [hstays g.nodes.length (hundoes.lt_length hg)] at huse'
    have hremoved := hsecond hpair'
    obtain ⟨output', -, hargs', -⟩ := hpair'
    exact hused use arg input huse hremains huse' second' hremoved output'
      input hargs' rfl

end Definitions

section Computation

variable {V : Type} {g after : Graph} {c : Conversions V} (hg : g.CastReady)
  {meaning : NodeIndex → List V → Nat → V} {index : NodeIndex}
  {op : Operation String V} {node : GraphNode} {name : String}
  {order : List NodeIndex}

theorem operationAt_eq_some : g.operationAt meaning index = some op ↔ ∃ node,
      g.node index = some node ∧ op = {
        reads := (node.inputDefs ++ node.implicitInputDefs).map (·.name)
        writes := node.outputDefs.map fun arg =>
          if arg.Exists then some arg.name else none
        meaning := meaning index } := by
  rw [operationAt, defsOf]
  cases g.node index with
  | none => simp
  | some node => simp [eq_comm]

theorem CastsRemoved.operationAt_eq_some (h : CastsRemoved g after) :
    after.operationAt meaning index = some op ↔ ∃ node,
      g.node index = some node ∧ index ∉ g.removals ∧ op = {
        reads := (node.inputDefs.map (g.swept g.nodes.length index) ++
          node.implicitInputDefs).map (·.name)
        writes := node.outputDefs.map fun arg =>
          if arg.Exists then some arg.name else none
        meaning := meaning index } := by
  rw [operationAt, h.defs, defsOf]
  split
  · simp [*]
  · cases g.node index with
    | none => simp
    | some node => simp [*, eq_comm]

theorem mem_writes :
    some name ∈ (node.outputDefs.map fun arg =>
        if arg.Exists then some arg.name else none) ↔
      ∃ arg ∈ node.outputDefs, arg.Exists ∧ arg.name = name := by
  rw [List.mem_map]
  refine exists_congr fun arg => and_congr_right fun _ => ?_
  by_cases hexists : arg.Exists <;> simp [hexists]

theorem TopologicalOrder.lt_of_transGen (h : g.TopologicalOrder order)
    {source target : NodeIndex} (hpath : TransGen g.Edge source target) :
    order.idxOf source < order.idxOf target := by
  induction hpath with
  | single hedge => exact h.before _ _ hedge
  | tail _ hedge ih => exact Nat.lt_trans ih (h.before _ _ hedge)

include hg

/-- What a remaining node reads is written before it. -/
theorem CastsRemoved.transGen_of_mem_reads (h : CastsRemoved g after)
    (hop : after.operationAt meaning index = some op) {producer : NodeIndex}
    (hnode : g.node producer = some node) {arg : GraphArg}
    (harg : arg ∈ node.outputDefs) (hexists : arg.Exists)
    (hreads : arg.name ∈ op.reads) : TransGen g.Edge producer index := by
  obtain ⟨consumer, hconsumer, hindex, rfl⟩ := h.operationAt_eq_some.mp hop
  have htable := hg.args producer node hnode arg (List.mem_append_right _ harg)
  rw [List.map_append, List.mem_append, List.map_map, List.mem_map] at hreads
  rcases hreads with ⟨read, hread, hname⟩ | himplicit
  · have heq : g.swept g.nodes.length index read = arg := by
      have hread' :=
        (typed_swept hg).table index consumer hconsumer read hread
      dsimp only [Function.comp_apply] at hname
      rw [hname, htable] at hread'
      exact (some.inj hread').symm
    refine transGen_of_skips hg (skips_swept hg g.nodes.length index read)
      hconsumer (mem_append_left _ hread) hnode ?_ ?_
    · rw [heq]
      exact harg
    · rw [heq]
      exact hexists
  · obtain ⟨read, hread, hname⟩ := List.mem_map.mp himplicit
    have heq := hg.implicit index consumer hconsumer read hread arg htable hname
    subst heq
    exact .single (edge_of_mem_readers ((mem_readers hg).mpr
      ⟨node, consumer, read, hnode, hconsumer, harg,
        List.mem_append_right _ hread, hexists⟩))

/-- The order of the nodes before is one of the operations afterwards. -/
theorem CastsRemoved.ordered (h : CastsRemoved g after)
    (horder : g.TopologicalOrder order) :
    Operation.Ordered (order.filterMap (after.operationAt meaning)) := by
  refine ⟨?_, ?_, ?_⟩
  · rw [pairwise_filterMap]
    refine pairwise_iff_getElem.mpr ?_
    intro i j hi hj hlt op hop op' hop' name hname
    obtain ⟨node, hnode, -, hop''⟩ := h.operationAt_eq_some.mp hop
    obtain ⟨node', hnode', -, rfl⟩ := h.operationAt_eq_some.mp hop'
    obtain ⟨arg, harg, hexists, rfl⟩ := mem_writes.mp hname
    constructor
    · intro hreads
      have hbefore := horder.lt_of_transGen
        (h.transGen_of_mem_reads hg hop hnode' harg hexists hreads)
      rw [horder.nodup.idxOf_getElem, horder.nodup.idxOf_getElem] at hbefore
      exact Nat.lt_asymm hlt hbefore
    · rw [hop'']
      intro hwrites
      obtain ⟨arg', harg', -, hname'⟩ := mem_writes.mp hwrites
      obtain ⟨slot, hslot⟩ := getElem?_of_mem harg
      obtain ⟨slot', hslot'⟩ := getElem?_of_mem harg'
      have hsites := hg.definitions arg.name hexists _ _
        (defines_of_outputDefs hnode' hslot)
        (hname' ▸ defines_of_outputDefs hnode hslot')
      have hsame : order[j] = order[i] := by
        simpa using congrArg (Option.map Prod.fst) hsites
      exact Nat.ne_of_gt hlt
        ((List.Nodup.getElem_inj_iff horder.nodup).mp hsame)
  · intro op hop slot slot' name hslot hslot'
    obtain ⟨index, -, hop⟩ := mem_filterMap.mp hop
    obtain ⟨node, hnode, -, rfl⟩ := h.operationAt_eq_some.mp hop
    have hdefines : ∀ {slot : Nat}, (node.outputDefs.map fun arg =>
          if arg.Exists then some arg.name else none)[slot]? =
        some (some name) → name ≠ "" ∧ g.Defines name (some (index, slot)) := by
      intro slot hslot
      rw [getElem?_map, map_eq_some_iff] at hslot
      obtain ⟨arg, harg, hname⟩ := hslot
      split at hname
      · rename_i hexists
        cases hname
        exact ⟨hexists, defines_of_outputDefs hnode harg⟩
      · cases hname
    have hsites := hg.definitions name (hdefines hslot).1 _ _
      (hdefines hslot).2 (hdefines hslot').2
    simpa using hsites
  · intro op hop name hreads hwrites
    obtain ⟨index, -, hop⟩ := mem_filterMap.mp hop
    obtain ⟨node, hnode, -, heq⟩ := h.operationAt_eq_some.mp hop
    rw [heq] at hwrites
    obtain ⟨arg, harg, hexists, rfl⟩ := mem_writes.mp hwrites
    exact hg.acyclic index
      (h.transGen_of_mem_reads hg hop hnode harg hexists hreads)

/-- The remaining nodes keep giving values of the types of their outputs. -/
theorem CastsRemoved.typed_meaning (h : CastsRemoved g after)
    (hmeaning : g.Interprets c meaning)
    (hop : after.operationAt meaning index = some op) {e : String → V}
    (he : ∀ name, g.TypedAs c name (e name)) {slot : Nat}
    (hslot : op.writes[slot]? = some (some name)) :
    g.TypedAs c name (op.meaning (op.reads.map e) slot) := by
  obtain ⟨node, hnode, -, rfl⟩ := h.operationAt_eq_some.mp hop
  obtain ⟨arg, harg, hname⟩ : ∃ arg, node.outputDefs[slot]? = some arg ∧
      arg.name = name := by
    rw [getElem?_map, map_eq_some_iff] at hslot
    obtain ⟨arg, harg, hname⟩ := hslot
    split at hname
    · exact ⟨arg, harg, some.inj hname⟩
    · cases hname
  subst hname
  refine hmeaning.typed index node hnode _ ?_ slot arg harg
  rw [List.map_append, List.map_append]
  refine List.rel_append ?_ ?_
  · rw [List.map_map, List.map_map, List.forall₂_map_right_iff,
      List.forall₂_same]
    intro read hread other hother
    have htable := hg.args index node hnode read (mem_append_left _ hread)
    cases htable.symm.trans hother
    rw [← (typed_swept hg).types index node hnode read hread]
    exact he _ _ ((typed_swept hg).table index node hnode read hread)
  · rw [List.map_map, List.forall₂_map_right_iff, List.forall₂_same]
    exact fun read _ => he read.name

end Computation

section Preservation

variable {V : Type} {g after : Graph} {c : Conversions V}
  {meaning : NodeIndex → List V → Nat → V} {e : String → V}
  {index reader : NodeIndex} {input output arg : GraphArg}
  {consumer node : GraphNode} (hg : g.CastReady)
include hg

theorem Computes.cast (h : g.Computes meaning e)
    (hmeaning : g.Interprets c meaning)
    (he : ∀ name, g.TypedAs c name (e name))
    (hcast : g.castArgs index = some (input, output)) :
    e output.name = c.convert (g.argType input.pointer)
      (g.argType output.pointer) (e input.name) := by
  obtain ⟨node, hnode, -, hinputs, houtputs, himplicit, -, hexists⟩ :=
    (castArgs_eq_some hg).mp hcast
  have hop := h index _ (operationAt_eq_some.mpr ⟨node, hnode, rfl⟩) 0
    output.name (by simp [houtputs, hexists])
  rw [hop, hinputs, himplicit]
  exact hmeaning.casts index input output hcast _
    (he input.name input (hg.args index node hnode input (by simp [hinputs])))

/-- Skips do not change the value if the round trips do not. -/
theorem CastsRemovable.value_of_skips (h : g.CastsRemovable c)
    (hmeaning : g.Interprets c meaning)
    (hcomputes : g.Computes meaning e) (he : ∀ name, g.TypedAs c name (e name))
    {arg' : GraphArg} (hskips : ReflTransGen g.Skips arg arg')
    (hconsumer : g.node reader = some consumer)
    (harg : arg ∈ consumer.inputDefs) : e arg'.name = e arg.name := by
  induction hskips using ReflTransGen.head_induction_on generalizing reader
    consumer with
  | refl => rfl
  | head hskip _ ih =>
    obtain ⟨first, second, output, hfirst, hsecond, htype⟩ := hskip
    obtain ⟨cast, hcast, hinput⟩ := castArgs_input hg hfirst
    rw [ih hcast hinput, hcomputes.cast hg hmeaning he hsecond,
      hcomputes.cast hg hmeaning he hfirst,
      h.lossless meaning hmeaning e hcomputes he first second _ output _
        hfirst hsecond htype ⟨reader, consumer, hconsumer, harg⟩]

theorem keeps_of_mem_outputDefs
    (hnode : g.node index = some node) (hindex : index ∉ g.removals)
    (harg : arg ∈ node.outputDefs) (hexists : arg.Exists) :
    g.Keeps arg.name := by
  intro removed hremoved input output hcast hname
  obtain ⟨node', hnode', houtput, -⟩ := castArgs_output hg hcast
  have heq := eq_of_name_eq hg hcast (hg.args index node hnode arg
    (List.mem_append_right _ harg)) hname
  subst heq
  have hsame := producer_unique hg hnode hnode' harg houtput hexists
  exact hindex (hsame ▸ hremoved)

variable {e' : String → V}

/-- What no removed cast writes has the same value, if the values read by the
remaining nodes have.  The nodes that remain determine their values, and those
of before satisfy them. -/
theorem CastsRemoved.agrees (h : CastsRemoved g after)
    (hseparable : g.CastsSeparable) (hcomputes : g.Computes meaning e)
    (hcomputes' : after.Computes meaning e')
    (hsame : ∀ name, ¬ g.Writes name → e' name = e name)
    (hvalue : ∀ index node, g.node index = some node → index ∉ g.removals →
      ∀ arg ∈ node.inputDefs,
        e (g.swept g.nodes.length index arg).name = e arg.name)
    {name : String} (hname : g.Keeps name) : e' name = e name := by
  classical
  obtain ⟨viewer, -, horder⟩ := graphViewer_sorts hg.mirrored hg.acyclic
  have hordered : Operation.Ordered (viewer.nodesInTopologicalOrder.filterMap
    (after.operationAt meaning)) := h.ordered hg horder
  suffices hunique :
      (fun name => if g.Keeps name then e name else e' name) = e' by
    rw [← hunique]
    exact if_pos hname
  refine Operation.valuation_unique hordered (fun op hop => ?_)
    (fun op hop => ?_) (fun name hwritten => ?_)
  · obtain ⟨index, -, hop⟩ := mem_filterMap.mp hop
    exact hcomputes' index op hop
  · obtain ⟨index, -, hop⟩ := mem_filterMap.mp hop
    obtain ⟨node, hnode, hindex, rfl⟩ := h.operationAt_eq_some.mp hop
    intro slot name hslot
    obtain ⟨arg, harg, hexists, rfl⟩ :=
      mem_writes.mp (mem_of_getElem? hslot)
    have hkeeps := keeps_of_mem_outputDefs hg hnode hindex harg hexists
    have hholds := hcomputes index _ (Graph.operationAt_eq_some.mpr
      ⟨node, hnode, rfl⟩) slot arg.name hslot
    dsimp only at hholds ⊢
    rw [if_pos hkeeps, hholds]
    congr 1
    simp only [List.map_append, List.map_map]
    congr 1
    · refine List.map_congr_left fun read hread => ?_
      have hkeeps' := hseparable.keeps_swept hg hnode hindex hread
      dsimp only [Function.comp_apply]
      rw [if_pos hkeeps', hvalue index node hnode hindex read hread]
    · refine List.map_congr_left fun read hread => ?_
      have hkeeps' := hseparable.keeps_implicit hg hnode hindex hread
      dsimp only [Function.comp_apply]
      rw [if_pos hkeeps']
  · split
    · rename_i hkeeps
      refine (hsame name fun hwrites => ?_).symm
      obtain ⟨index, node, hnode, arg, harg, hexists, rfl⟩ := hwrites
      have hindex := hkeeps.not_mem_removals hg hnode harg
      refine hwritten _ (mem_filterMap.mpr ⟨index, ?_,
        h.operationAt_eq_some.mpr ⟨node, hnode, hindex, rfl⟩⟩)
        (mem_writes.mpr ⟨arg, harg, hexists, rfl⟩)
      exact (horder.mem_iff index).mpr (by rw [hnode]; rfl)
    · rfl

theorem CastsRemovable.keepsValues (h : g.CastsRemovable c)
    (hafter : CastsRemoved g after) :
    g.KeepsValues c after := by
  intro use arg huse hremains
  obtain ⟨arg', huse', hkeeps, hvalue⟩ : ∃ arg', after.usedAt use = some arg' ∧
      g.Keeps arg'.name ∧ ∀ meaning, g.Interprets c meaning → ∀ e,
        g.Computes meaning e → (∀ name, g.TypedAs c name (e name)) →
        e arg'.name = e arg.name := by
    rcases hafter.use_cases huse hremains with ⟨houtput, huse'⟩ |
      ⟨index, node, hnode, hindex, ⟨harg, huse'⟩ | ⟨harg, huse'⟩⟩
    · exact ⟨arg, huse', fun removed hremoved input output hcast =>
        h.outputs removed hremoved input output hcast arg houtput,
        fun _ _ _ _ _ => rfl⟩
    · exact ⟨_, huse', h.keeps_swept hg hnode hindex harg,
        fun meaning hmeaning e hcomputes he => h.value_of_skips hg hmeaning
          hcomputes he (skips_swept hg g.nodes.length index arg) hnode harg⟩
    · exact ⟨arg, huse', h.keeps_implicit hg hnode hindex harg,
        fun _ _ _ _ _ => rfl⟩
  refine ⟨arg', huse', (hafter.keepsDefinition_iff hg).mpr hkeeps, ?_⟩
  intro meaning hmeaning e e' hcomputes he hcomputes' _ hsame
  rw [← hvalue meaning hmeaning e hcomputes he]
  refine hafter.agrees hg h.toCastsSeparable hcomputes hcomputes' hsame ?_
    hkeeps
  intro index node hnode _ read hread
  exact h.value_of_skips hg hmeaning hcomputes he
    (skips_swept hg g.nodes.length index read) hnode hread

/-- The values kept tell that the round trips give their inputs back. -/
theorem KeepsValues.lossless (h : g.KeepsValues c after)
    (hafter : CastsRemoved g after) (hseparable : g.CastsSeparable)
    (hmeaning : g.Interprets c meaning) (hcomputes : g.Computes meaning e)
    (he : ∀ name, g.TypedAs c name (e name)) {first second : NodeIndex}
    {result : GraphArg} (hfirst : g.castArgs first = some (input, output))
    (hsecond : g.castArgs second = some (output, result))
    (htype : g.argType input.pointer = g.argType result.pointer)
    (hconsumer : g.node reader = some consumer)
    (hresult : result ∈ consumer.inputDefs) :
    e result.name = e input.name := by
  classical
  obtain ⟨viewer, -, horder⟩ := graphViewer_sorts hg.mirrored hg.acyclic
  have hordered : Operation.Ordered (viewer.nodesInTopologicalOrder.filterMap
    (after.operationAt meaning)) := hafter.ordered hg horder
  -- Values after the removal, from the same values of what no node writes.
  obtain ⟨e', hholds, he', hsame⟩ := Operation.exists_valuation hordered
    (fun op hop e he slot name hslot => by
      obtain ⟨index, -, hop⟩ := mem_filterMap.mp hop
      exact hafter.typed_meaning hg hmeaning hop he hslot) he
  have hcomputes' : after.Computes meaning e' := by
    intro index op hop
    obtain ⟨node, hnode, -⟩ := hafter.operationAt_eq_some.mp hop
    exact hholds op (mem_filterMap.mpr ⟨index,
      (horder.mem_iff index).mpr (by rw [hnode]; rfl), hop⟩)
  have hunwritten : ∀ name, ¬ g.Writes name → e' name = e name := by
    intro name hname
    refine hsame name fun op hop hwrites => hname ?_
    obtain ⟨index, -, hop⟩ := mem_filterMap.mp hop
    obtain ⟨node, hnode, -, rfl⟩ := hafter.operationAt_eq_some.mp hop
    exact ⟨index, node, hnode, mem_writes.mp hwrites⟩
  have hused : ∀ index node, g.node index = some node → index ∉ g.removals →
      (∀ arg ∈ node.inputDefs,
        e' (g.swept g.nodes.length index arg).name = e arg.name) ∧
      ∀ arg ∈ node.implicitInputDefs, e' arg.name = e arg.name := by
    intro index node hnode hindex
    have hvalue : ∀ arg arg', (∃ use, g.usedAt use = some arg ∧
        after.Remains use ∧ after.usedAt use = some arg') →
        e' arg'.name = e arg.name := by
      rintro arg arg' ⟨use, huse, hremains, huse'⟩
      obtain ⟨_, huse'', -, hvalue⟩ := h use arg huse hremains
      cases huse'.symm.trans huse''
      exact hvalue meaning hmeaning e e' hcomputes he hcomputes' he' hunwritten
    have hmoved := fun {arg arg'} =>
      @CastsRemoved.exists_use g after hafter index node arg hnode hindex arg'
    exact ⟨fun arg harg => hvalue _ _ (hmoved (mem_append_left _
      (mem_map_of_mem harg))), fun arg harg => hvalue _ _ (hmoved
        (mem_append_right _ (mem_map_of_mem harg)))⟩
  have hkept : ∀ name, g.Keeps name → e' name = e name := by
    intro name hkeeps
    by_cases hwrites : g.Writes name
    · obtain ⟨index, node, hnode, arg, harg, hexists, rfl⟩ := hwrites
      have hindex := hkeeps.not_mem_removals hg hnode harg
      obtain ⟨slot, hslot⟩ :=
        getElem?_of_mem (mem_writes.mpr ⟨arg, harg, hexists, rfl⟩)
      rw [hcomputes' index _ (hafter.operationAt_eq_some.mpr ⟨node, hnode,
          hindex, rfl⟩) slot arg.name hslot, hcomputes index _
          (operationAt_eq_some.mpr ⟨node, hnode, rfl⟩) slot arg.name hslot]
      simp only [List.map_append, List.map_map]
      obtain ⟨hinputs, himplicit⟩ := hused index node hnode hindex
      congr 2
      · exact List.map_congr_left hinputs
      · exact List.map_congr_left himplicit
    · exact hunwritten name hwrites
  have hpair : g.CastPair first second input result :=
    ⟨output, hfirst, hsecond, htype⟩
  have hreader := (Skips.exists_edges hg hpair hconsumer
    (mem_append_left _ hresult)).2
  have hstays : reader ∉ g.removals := fun hremoved =>
    hseparable.apart reader hremoved first second hpair.undoes hreader
  have hmoved := hseparable.untangled.swept_eq hg hpair hconsumer hresult
    (hpair.undoes.lt_length hg)
  have hread := (hused reader consumer hconsumer hstays).1 result hresult
  rw [hmoved] at hread
  obtain ⟨cast, hcast, hinput⟩ := castArgs_input hg hfirst
  by_cases hremoved : first ∈ g.removals
  · -- Then the first cast reads no second cast, and its input is kept.
    have hsame : g.swept g.nodes.length first input = input := by
      refine swept_of_not_result hg (fun first' second' input' hother => ?_) _ _
      exact hseparable.apart first hremoved first' second' hother.undoes
        (Skips.exists_edges hg hother hcast (mem_append_left _ hinput)).2
    have hkeeps := hseparable.keeps_swept hg hconsumer hstays hresult
    rw [hmoved, hsame] at hkeeps
    rw [hsame] at hread
    rw [← hread, hkept input.name hkeeps]
  · rw [← hread]
    exact (hused first cast hcast hremoved).1 input hinput

theorem KeepsValues.separable (h : g.KeepsValues c after)
    {modified : Bool} (hok : g.removeCasts = .ok (after, modified)) :
    CastsRemoved g after ∧ g.CastsSeparable := by
  obtain ⟨hapart, hafter⟩ := (removeCasts_spec hg).of_ok hok
  refine ⟨hafter, hafter.separable hg hapart fun use arg huse hremains => ?_⟩
  obtain ⟨arg', huse', hdefined, -⟩ := h use arg huse hremains
  exact ⟨arg', huse', hdefined⟩

omit hg

/-- The second phase completes and keeps the values exactly if no removed cast
is still used or read by another one, and the round trips that are skipped
lose nothing. -/
theorem removesCasts_iff (hg : g.CastReady) :
    g.RemovesCasts c ↔ g.CastsRemovable c := by
  constructor
  · rintro ⟨after, modified, hok, hkeeps⟩
    obtain ⟨hafter, hseparable⟩ := hkeeps.separable hg hok
    refine ⟨hseparable, ?_⟩
    rintro meaning hmeaning e hcomputes he first second input output result
      hfirst hsecond htype ⟨reader, consumer, hconsumer, hresult⟩
    rw [← hcomputes.cast hg hmeaning he hfirst,
      ← hcomputes.cast hg hmeaning he hsecond]
    exact hkeeps.lossless hg hafter hseparable hmeaning hcomputes he hfirst
      hsecond htype hconsumer hresult
  · intro h
    obtain ⟨⟨after, modified⟩, hok, -, hafter⟩ :=
      (removeCasts_spec hg).exists_ok (not_not.mpr h.apart)
    exact ⟨after, modified, hok, h.keepsValues hg hafter⟩

end Preservation

section Example

/-- `CastReady` in a form that can be evaluated. -/
theorem castReady_of_checks {g : Graph} (hg : g.Resolved)
    (hflow : ∀ entry ∈ g.liveNodes, ∀ e ∈ entry.2.outputEdges,
      ∃ other ∈ g.liveNodes, other.1 = e.node ∧
        ∃ arg ∈ entry.2.outputDefs, arg.Exists ∧
          atSlot entry.2.outputDefs e.srcArgIndex = some arg ∧
          other.2.inputAt e.dstArgIndex = some arg)
    (hedges : ∀ entry ∈ g.liveNodes, ∀ other ∈ g.liveNodes,
      ∀ output ∈ entry.2.outputDefs.zipIdx,
      ∀ input ∈ (other.2.inputDefs ++ other.2.implicitInputDefs).zipIdx,
        output.1 = input.1 → output.1.Exists →
        (⟨other.1, output.2, input.2⟩ : EdgeEnd) ∈ entry.2.outputEdges)
    (hcasts : ∀ entry ∈ g.liveNodes, entry.2.implicitInputDefs = [] ∧
      (entry.2.opType = "Cast" → entry.2.inputDefs.length = 1 ∧
        entry.2.outputDefs.length = 1 ∧
        ∀ arg ∈ entry.2.inputDefs ++ entry.2.outputDefs, arg.Exists)) :
    g.CastReady := by
  refine ⟨hg, fun edge => ⟨fun hedge => ?_, ?_⟩, ?_, ?_⟩
  · obtain ⟨producer, hproducer⟩ :=
      isSome_iff_exists.mp (isSome_of_mem_outputEdgesOf hedge)
    rw [HasEdge, outputEdgesOf, hproducer] at hedge
    obtain ⟨other, hother, htarget, arg, -, hexists, hsource, hinput⟩ :=
      hflow (edge.source, producer) (mem_liveNodes.mpr hproducer) _ hedge
    have hconsumer : g.node edge.target = some other.2 := by
      rw [← mem_liveNodes, show edge.target = other.1 from htarget.symm]
      exact hother
    exact ⟨producer, other.2, arg, hproducer, hconsumer, hsource, hinput,
      hexists⟩
  · rintro ⟨producer, consumer, arg, hproducer, hconsumer, houtput, hinput,
      hexists⟩
    obtain ⟨source, srcSlot, target, dstSlot⟩ := edge
    rw [HasEdge, outputEdgesOf, hproducer]
    cases srcSlot with
    | negSucc slot => cases houtput
    | ofNat srcSlot =>
      cases dstSlot with
      | negSucc slot => cases hinput
      | ofNat dstSlot =>
        exact hedges (source, producer) (mem_liveNodes.mpr hproducer)
          (target, consumer) (mem_liveNodes.mpr hconsumer) (arg, srcSlot)
          (mem_zipIdx_iff_getElem?.mpr houtput) (arg, dstSlot)
          (mem_zipIdx_iff_getElem?.mpr hinput) rfl hexists
  · intro index node hnode arg harg
    rw [(hcasts (index, node) (mem_liveNodes.mpr hnode)).1] at harg
    cases harg
  · intro index node hnode hop
    obtain ⟨himplicit, hcast⟩ :=
      hcasts (index, node) (mem_liveNodes.mpr hnode)
    obtain ⟨hinputs, houtputs, hexists⟩ := hcast hop
    obtain ⟨input, hinput⟩ := length_eq_one_iff.mp hinputs
    obtain ⟨output, houtput⟩ := length_eq_one_iff.mp houtputs
    rw [hinput, houtput] at hexists
    exact ⟨input, output, hinput, houtput, himplicit, hexists input (by simp),
      hexists output (by simp)⟩

/-- From `x` through float and back to float16, and one more node or none. -/
def roundTrip (nodes : List (Option GraphNode)) (output : GraphArg) : Graph where
  nodes := nodes
  numOfNodes := nodes.length
  nodeArgs := [⟨0, "x"⟩, ⟨1, "a"⟩, ⟨2, "b"⟩, ⟨3, "y"⟩]
  argType := fun pointer =>
    if pointer = 1 then some (.tensorType .float)
    else if pointer ≤ 3 then some (.tensorType .float16) else none
  inputsOutputs := { inputs := [⟨0, "x"⟩], outputs := [some output] }
  graphResolveNeeded := false

def reluAfterCasts : Graph := roundTrip
  [some { opType := "Cast", inputDefs := [⟨0, "x"⟩], outputDefs := [⟨1, "a"⟩],
          outputEdges := [⟨1, 0, 0⟩] },
    some { opType := "Cast", inputDefs := [⟨1, "a"⟩], outputDefs := [⟨2, "b"⟩],
           inputEdges := [⟨0, 0, 0⟩], outputEdges := [⟨2, 0, 0⟩] },
    some { opType := "Relu", inputDefs := [⟨2, "b"⟩], outputDefs := [⟨3, "y"⟩],
           inputEdges := [⟨1, 0, 0⟩] }] ⟨3, "y"⟩

def castsOnly : Graph := roundTrip
  [some { opType := "Cast", inputDefs := [⟨0, "x"⟩], outputDefs := [⟨1, "a"⟩],
          outputEdges := [⟨1, 0, 0⟩] },
    some { opType := "Cast", inputDefs := [⟨1, "a"⟩], outputDefs := [⟨2, "b"⟩],
           inputEdges := [⟨0, 0, 0⟩] }] ⟨2, "b"⟩

/-- Integers that float16 represents up to 2048. -/
def integerConversions : Conversions Nat where
  hasType type v := type = some (.tensorType .float16) → v ≤ 2048
  convert _ type v :=
    if type = some (.tensorType .float16) then min v 2048 else v

theorem castReady_reluAfterCasts : reluAfterCasts.CastReady :=
  castReady_of_checks (resolved_of_checks [0, 1, 2] (by decide +kernel))
    (by decide +kernel) (by decide +kernel) (by decide +kernel)

theorem castReady_castsOnly : castsOnly.CastReady :=
  castReady_of_checks (resolved_of_checks [0, 1] (by decide +kernel))
    (by decide +kernel) (by decide +kernel) (by decide +kernel)

theorem undoes_reluAfterCasts {first second : NodeIndex}
    (h : reluAfterCasts.Undoes first second) : first = 0 ∧ second = 1 := by
  have hlt : ∀ {index input output},
      reluAfterCasts.castArgs index = some (input, output) → index < 3 := by
    intro index input output hcast
    obtain ⟨node, hnode, -⟩ :=
      (castArgs_eq_some castReady_reluAfterCasts).mp hcast
    exact lt_length_of_node hnode
  have hpairs : ∀ first < 3, ∀ second < 3,
      reluAfterCasts.Undoes first second → first = 0 ∧ second = 1 := by
    decide +kernel
  have hundoes := h
  obtain ⟨_, _, _, hfirst, hsecond, -⟩ := h
  exact hpairs first (hlt hfirst) second (hlt hsecond) hundoes

/-- float16 values survive the round trip through float. -/
theorem removesCasts_reluAfterCasts : reluAfterCasts.CastReady ∧
    reluAfterCasts.RemovesCasts integerConversions := by
  refine ⟨castReady_reluAfterCasts,
    (removesCasts_iff castReady_reluAfterCasts).mpr ⟨⟨?_, ?_, ?_, ?_⟩, ?_⟩⟩
  · have hapart : ∀ removed ∈ reluAfterCasts.removals,
        removed ∉ reluAfterCasts.readers 1 := by decide +kernel
    intro removed hremoved first second hundoes
    rw [(undoes_reluAfterCasts hundoes).2]
    exact hapart removed hremoved
  · have hkeeps : ∀ removed ∈ reluAfterCasts.removals,
        ∀ args ∈ reluAfterCasts.castArgs removed, args.2.name ≠ "y" := by
      decide +kernel
    intro removed hremoved input output hcast arg harg hname
    obtain rfl : arg = ⟨3, "y"⟩ := by
      simpa [reluAfterCasts, roundTrip] using harg
    exact hkeeps removed hremoved _ hcast hname.symm
  · have himplicit : ∀ entry ∈ reluAfterCasts.liveNodes,
        entry.2.implicitInputDefs = [] := by decide +kernel
    intro first second input result _ index node hnode harg
    rw [himplicit (index, node) (mem_liveNodes.mpr hnode)] at harg
    cases harg
  · intro first second first' second' hundoes hundoes' hlt
    rw [(undoes_reluAfterCasts hundoes).1,
      (undoes_reluAfterCasts hundoes').1] at hlt
    exact absurd hlt (Nat.lt_irrefl 0)
  · intro meaning hmeaning e hcomputes he first second input output result
      hfirst hsecond htype _
    obtain ⟨rfl, rfl⟩ := undoes_reluAfterCasts
      ⟨input, output, result, hfirst, hsecond, htype⟩
    cases hfirst
    cases hsecond
    exact Nat.min_eq_left (he "x" ⟨0, "x"⟩ rfl rfl)

/-- Both casts are removed although the second one writes the graph output. -/
theorem not_removesCasts_castsOnly : castsOnly.CastReady ∧
    ¬ castsOnly.RemovesCasts integerConversions := by
  refine ⟨castReady_castsOnly, ?_⟩
  rintro ⟨after, modified, hok, hkeeps⟩
  have hseparable := (hkeeps.separable castReady_castsOnly hok).2
  exact hseparable.outputs 1 (by decide +kernel) ⟨1, "a"⟩ ⟨2, "b"⟩ rfl
    ⟨2, "b"⟩ (mem_singleton_self _) rfl

end Example

end Graph

namespace CastGraph

/-- `Apply` is the two phases, the second on what `Resolve` leaves of the first:
nodes without a provider get their float views, and the removal of pairs of
casts then keeps the values. -/
theorem apply_of_phases {V : Type} {c : Conversions V}
    {known : TypeProto → Bool} {subgraphUses : List (NodeIndex × List String)}
    {inferTypes : Graph → Except Failure (Nat → Option TypeProto)}
    {forceCpuFp32 modified : Bool} {s inserted : CastGraph}
    (h : s.InsertsCasts known subgraphUses inferTypes forceCpuFp32)
    (hinserted : s.applyInsertion known subgraphUses inferTypes forceCpuFp32 =
      .ok (inserted, modified))
    (hremoves : inserted.graph.RemovesCasts c) :
    ∃ st casts after removed,
      CastsInserted (s.forced forceCpuFp32) st casts ∧
      Graph.Thinned st.graph inserted.graph ∧
      inserted.graph.KeepsValues c after ∧
      s.apply known subgraphUses inferTypes forceCpuFp32 =
        .ok ({ inserted with graph := after }, modified || removed) := by
  obtain ⟨-, st, casts, -, hcasts, hthinned⟩ := h
  obtain ⟨after, removed, hok, hkeeps⟩ := hremoves
  refine ⟨st.toCastGraph, casts, after, removed, hcasts,
    (hthinned _ _ hinserted).1, hkeeps, ?_⟩
  exact except_bind_eq_ok.mpr ⟨_, hinserted,
    except_bind_eq_ok.mpr ⟨_, hok, rfl⟩⟩

end CastGraph

end OnnxRuntime
