/-
The removal of the casts that the sweep has queued.  A cast can be removed as
long as its input is still the output that the edge into it starts from.
-/
import OnnxRuntime.CastSweeps
import OnnxRuntime.NodeIdentities

namespace OnnxRuntime

open List Option Relation

namespace Graph

section Queue

variable {g : Graph}

/-- All readers of a cast undo it, and there are some. -/
def FullyUndone (g : Graph) (first : NodeIndex) : Prop :=
  g.readers first ≠ [] ∧ ∀ reader ∈ g.readers first, g.Undoes first reader

variable {first index : NodeIndex}

theorem FullyUndone.exists_undoes (h : g.FullyUndone first) :
    ∃ second, g.Undoes first second := by
  obtain ⟨reader, hreader⟩ := exists_mem_of_ne_nil _ h.1
  exact ⟨reader, h.2 reader hreader⟩

section

variable (hg : g.CastReady)
include hg

theorem mem_removalsAt : index ∈ g.removalsAt first ↔
      g.Undoes first index ∨ index = first ∧ g.FullyUndone first := by
  have hall : ((g.undoing first).length = (g.readers first).length ∧
      0 < (g.undoing first).length) ↔ g.FullyUndone first := by
    rw [undoing, length_filter_eq_length_iff]
    constructor
    · rintro ⟨hundoes, hpos⟩
      refine ⟨fun hnil => ?_, fun reader hreader => by
        simpa using hundoes reader hreader⟩
      rw [hnil] at hpos
      exact absurd hpos (Nat.lt_irrefl 0)
    · rintro ⟨hreaders, hundoes⟩
      refine ⟨fun reader hreader => by simpa using hundoes reader hreader, ?_⟩
      rw [filter_eq_self.mpr fun reader hreader => by
        simpa using hundoes reader hreader]
      exact length_pos_iff.mpr hreaders
  rw [removalsAt, mem_append, mem_undoing hg]
  by_cases hfull : g.FullyUndone first
  · rw [if_pos (hall.mpr hfull)]
    simp [hfull]
  · rw [if_neg (mt hall.mp hfull)]
    simp [hfull]

theorem Undoes.lt_length {second : NodeIndex} (h : g.Undoes first second) :
    first < g.nodes.length := by
  obtain ⟨_, _, _, hfirst, -⟩ := h
  obtain ⟨node, hnode, -⟩ := (castArgs_eq_some hg).mp hfirst
  exact lt_length_of_node hnode

/-- The second casts are removed, and the first ones that lose all readers. -/
theorem mem_removals : index ∈ g.removals ↔
      (∃ first, g.Undoes first index) ∨ g.FullyUndone index := by
  rw [removals, mem_flatMap]
  constructor
  · rintro ⟨first, -, hmem⟩
    rcases (mem_removalsAt hg).mp hmem with hundoes | ⟨rfl, hfull⟩
    · exact .inl ⟨first, hundoes⟩
    · exact .inr hfull
  · rintro (⟨first, hundoes⟩ | hfull)
    · exact ⟨first, mem_range.mpr (hundoes.lt_length hg),
        (mem_removalsAt hg).mpr (.inl hundoes)⟩
    · obtain ⟨second, hundoes⟩ := hfull.exists_undoes
      exact ⟨index, mem_range.mpr (hundoes.lt_length hg),
        (mem_removalsAt hg).mpr (.inr ⟨rfl, hfull⟩)⟩

theorem exists_castArgs_of_mem_removals (h : index ∈ g.removals) :
    ∃ input output, g.castArgs index = some (input, output) := by
  rcases (mem_removals hg).mp h with
    ⟨first, _, output, result, -, hsecond, -⟩ | hfull
  · exact ⟨output, result, hsecond⟩
  · obtain ⟨second, input, output, _, hfirst, -⟩ := hfull.exists_undoes
    exact ⟨input, output, hfirst⟩

end

/-- A cast that undoes no other is queued after the casts that undo it. -/
theorem undoing_subset_of_split {casts front back : List NodeIndex}
    (h : casts.flatMap g.removalsAt = front ++ index :: back)
    (hindex : ∀ first, index ∉ g.undoing first) :
    g.undoing index ⊆ front := by
  induction casts generalizing front with
  | nil => simp at h
  | cons first rest ih =>
    rw [flatMap_cons, append_eq_append_iff] at h
    rcases h with ⟨front', rfl, hrest⟩ | ⟨tail, hhere, htail⟩
    · exact fun other hother =>
        mem_append_right _ (ih hrest hother)
    · cases tail with
      | nil =>
        have hempty : g.undoing index ⊆ [] := ih htail.symm
        rw [subset_nil.mp hempty]
        exact nil_subset front
      | cons other tail =>
        obtain ⟨rfl, -⟩ := cons.inj htail
        have hself : index = first := by
          have hmem : index ∈ g.removalsAt first := by simp [hhere]
          rcases mem_append.mp hmem with hundoing | hlast
          · exact absurd hundoing (hindex first)
          · split at hlast
            · exact mem_singleton.mp hlast
            · cases hlast
        rw [removalsAt, append_eq_append_iff] at hhere
        rcases hhere with ⟨front', rfl, -⟩ | ⟨tail', hundoing, hlast⟩
        · rw [hself]
          exact subset_append_left _ _
        · cases tail' with
          | nil =>
            rw [hself, hundoing, append_nil]
            exact List.Subset.refl front
          | cons other tail' =>
            obtain ⟨rfl, -⟩ := cons.inj hlast
            exact absurd (by simp [hundoing]) (hindex first)

end Queue

section Loop

variable {g g' s s' : Graph} {f : NodeIndex → GraphArg → GraphArg}

/-- The nodes in `done` were removed from `g'`. -/
structure Removed (g' : Graph) (done : List NodeIndex) (s : Graph) :
    Prop where
  length : s.nodes.length = g'.nodes.length
  defs : ∀ index, s.defsOf index =
    if index ∈ done then none else g'.defsOf index
  inputs : ∀ index, index ∉ done → ∀ e,
    e ∈ s.inputEdgesOf index ↔ e ∈ g'.inputEdgesOf index
  outputs : s.inputsOutputs = g'.inputsOutputs
  initializers : s.nameToInitialTensor = g'.nameToInitialTensor

variable {index : NodeIndex} {removed : Bool} {done rest : List NodeIndex}
  {input output : GraphArg}

theorem removeNode_of_isSome (hlive : (s.node index).isSome)
    (h : s.removeNode index = .ok (s', removed)) : removed = true := by
  obtain ⟨node, hnode⟩ := isSome_iff_exists.mp hlive
  rw [removeNode, if_neg (Nat.not_le.mpr (lt_length_of_node hnode)), hnode] at h
  obtain ⟨middle, hfold, hrelease⟩ := except_bind_eq_ok.mp h
  have hloses := (foldlM_removeEdge_spec.1 middle hfold).1
  have hmiddle : (middle.node index).isSome := by
    rw [isSome_eq_of_defsOf (hloses.defs index)]
    exact hlive
  rw [← releaseNode_snd hmiddle, except_pure_eq_ok.mp hrelease]

theorem Removed.snoc (h : Removed g' done s) (hlive : (s.node index).isSome)
    (hstep : s.removeNode index = .ok (s', removed)) :
    Removed g' (done ++ [index]) s' := by
  have houtputs : s'.inputsOutputs = s.inputsOutputs := removeNode_keeps
    (fun _ _ _ => rfl) (releaseNode_keeps fun _ _ _ _ => rfl) hstep
  have hinitializers : s'.nameToInitialTensor = s.nameToInitialTensor :=
    removeNode_keeps (fun _ _ _ => rfl)
      (releaseNode_keeps fun _ _ _ _ => rfl) hstep
  obtain rfl := removeNode_of_isSome hlive hstep
  have hlength := (removeNode_identities hstep).1
  obtain ⟨middle, hloses, rfl⟩ := removeNode_eq_ok hstep
  refine ⟨hlength.trans h.length, ?_, ?_, houtputs.trans h.outputs,
    hinitializers.trans h.initializers⟩
  · intro other
    rw [defsOf, node_releaseNode]
    by_cases hother : index = other
    · simp [hother]
    · rw [if_neg hother, ← defsOf, hloses.defs, h.defs]
      simp [Ne.symm hother]
  · intro other hother e
    rw [mem_append, mem_singleton, not_or] at hother
    have hne : index ≠ other := Ne.symm hother.2
    rw [inputEdgesOf, node_releaseNode, if_neg hne]
    have hinput := hloses.input ⟨e.node, e.srcArgIndex, other, e.dstArgIndex⟩
    refine hinput.trans (Iff.trans ?_ (h.inputs other hother.1 e))
    refine and_iff_left fun e' _ heq => hne ?_
    exact (congrArg DataEdge.target heq).symm

/-- When the next cast of the queue can be removed. -/
theorem Removed.joins_iff (hg : g.CastReady) (hf : Relabels g f g')
    (h : Removed g' done s) (hindex : index ∉ done)
    (hcast : g.castArgs index = some (input, output)) {e : EdgeEnd}
    (he : e ∈ g.inputEdgesOf index) :
    s.Joins (edgeInto index e) ↔
      e.node ∉ done ∧ (f index input).pointer = input.pointer := by
  obtain ⟨node, hnode, -, hinputs, -, himplicit, -⟩ :=
    (castArgs_eq_some hg).mp hcast
  obtain ⟨producer, consumer, arg, hproducer, hconsumer, houtput, hinput, -⟩ :=
    (hg.flow (edgeInto index e)).mp ((hg.mirrored _).mpr he)
  cases hnode.symm.trans hconsumer
  rw [GraphNode.inputAt, hinputs, himplicit] at hinput
  have harg := mem_of_atSlot hinput
  rw [append_nil, mem_singleton] at harg
  subst harg
  have hleft : s.outputArg e.node e.srcArgIndex =
      if e.node ∈ done then none else some arg := by
    have hproducer' : g.node e.node = some producer := hproducer
    have houtput' : atSlot producer.outputDefs e.srcArgIndex = some arg :=
      houtput
    split
    · rename_i hmem
      have hgone : s.node e.node = none := by
        have hdefs := h.defs e.node
        rw [if_pos hmem, defsOf, map_eq_none_iff] at hdefs
        exact hdefs
      rw [outputArg, hgone]
      rfl
    · rename_i hmem
      have hdefs := h.defs e.node
      rw [if_neg hmem] at hdefs
      rw [outputArg_congr hdefs, outputArg, hf.node, hproducer',
        map_some, bind_some, houtput']
  have hright : s.inputArg index e.dstArgIndex = some (f index arg) := by
    have hdefs := h.defs index
    rw [if_neg hindex] at hdefs
    rw [inputArg_congr hdefs, inputArg, hf.node, hnode, map_some, bind_some,
      GraphNode.inputAt, himplicit, hinputs, append_nil, atSlot_map]
    exact congrArg (Option.map (f index)) hinput
  have hjoins : s.Joins (edgeInto index e) ↔ ∃ output input,
      s.outputArg e.node e.srcArgIndex = some output ∧
      s.inputArg index e.dstArgIndex = some input ∧
      output.pointer = input.pointer := Iff.rfl
  rw [hjoins, hleft, hright]
  by_cases hmem : e.node ∈ done
  · simp [hmem]
  · rw [if_neg hmem]
    constructor
    · rintro ⟨_, _, ⟨⟩, ⟨⟩, hpointer⟩
      exact ⟨hmem, hpointer.symm⟩
    · exact fun hpointer => ⟨arg, _, rfl, rfl, hpointer.2.symm⟩

/-- No cast that is removed reads the result of a second cast. -/
def RemovalsApart (g : Graph) : Prop :=
  ∀ removed ∈ g.removals, ∀ first second, g.Undoes first second →
    removed ∉ g.readers second

theorem exists_inputEdge (hg : g.CastReady) {reader : NodeIndex}
    (h : reader ∈ g.readers index) :
    ∃ e ∈ g.inputEdgesOf reader, e.node = index :=
  hg.mirrored.edge_iff_input.mp (edge_of_mem_readers h)

/-- A cast that reads a second cast reads its result. -/
theorem castPair_of_mem_readers (hg : g.CastReady)
    (hcast : g.castArgs index = some (input, output))
    {first second : NodeIndex} (hundoes : g.Undoes first second)
    (hreader : index ∈ g.readers second) :
    ∃ input', g.CastPair first second input' input := by
  obtain ⟨input', result, hpair⟩ := undoes_iff_castPair.mp hundoes
  obtain ⟨producer, consumer, arg, hproducer, hconsumer, houtput, hinput, -⟩ :=
    (mem_readers hg).mp hreader
  obtain ⟨node, hnode, -, hinputs, -, himplicit, -⟩ :=
    (castArgs_eq_some hg).mp hcast
  obtain ⟨middle, hfirst, hsecond, htype⟩ := hpair
  obtain ⟨node', hnode', -, -, houtputs, -⟩ :=
    (castArgs_eq_some hg).mp hsecond
  cases hconsumer.symm.trans hnode
  cases hproducer.symm.trans hnode'
  rw [hinputs, himplicit, append_nil, mem_singleton] at hinput
  rw [houtputs, mem_singleton] at houtput
  subst hinput houtput
  exact ⟨input', middle, hfirst, hsecond, htype⟩

/-- In a queue without casts that read second casts, the producers of what is
read are still there. -/
theorem RemovalsApart.producer_waits (h : g.RemovalsApart) (hg : g.CastReady)
    (hsplit : g.removals = done ++ index :: rest) (hindex : index ∉ done)
    {producer : NodeIndex} (hproducer : index ∈ g.readers producer) :
    producer ∉ done := by
  intro hdone
  have hqueued : index ∈ g.removals := by simp [hsplit]
  have hfirst : ∀ first, ¬ g.Undoes first producer := fun first hundoes =>
    h index hqueued first producer hundoes hproducer
  have hmem : producer ∈ g.removals := by
    rw [hsplit]
    exact mem_append_left _ hdone
  obtain ⟨-, hall⟩ := ((mem_removals hg).mp hmem).resolve_left
    fun ⟨first, hundoes⟩ => hfirst first hundoes
  obtain ⟨front, back, rfl⟩ := append_of_mem hdone
  rw [append_assoc] at hsplit
  have hsubset := undoing_subset_of_split hsplit fun first hundoing =>
    hfirst first ((mem_undoing hg).mp hundoing)
  exact hindex (mem_append_left _
    (hsubset ((mem_undoing hg).mpr (hall index hproducer))))

section

variable (hg : g.CastReady) (hf : Relabels g (g.swept g.nodes.length) g')
    (htyped : KeepsArgTypes g (g.swept g.nodes.length))
include hg hf htyped

/-- The removal of the next cast of the queue. -/
theorem Removed.removeNode_meets (hsplit : g.removals = done ++ index :: rest)
    (hindex : index ∉ done) (h : Removed g' done s) :
    Meets (¬ g.RemovalsApart)
      (fun next : Graph × Bool => Removed g' (done ++ [index]) next.1 ∧
        ∀ first second, g.Undoes first second → index ∉ g.readers second)
      (s.removeNode index) := by
  have hqueued : index ∈ g.removals := by simp [hsplit]
  obtain ⟨input, output, hcast⟩ := exists_castArgs_of_mem_removals hg hqueued
  obtain ⟨node, hnode, -, hinputs, -⟩ := (castArgs_eq_some hg).mp hcast
  have hlive : (s.node index).isSome := by
    have hdefs := h.defs index
    rw [if_neg hindex] at hdefs
    rw [isSome_eq_of_defsOf hdefs, hf.node, hnode]
    rfl
  have hedges : ∀ e, e ∈ s.inputEdgesOf index ↔ e ∈ g.inputEdgesOf index := by
    intro e
    rw [h.inputs index hindex, inputEdgesOf, inputEdgesOf, hf.node, hnode]
    rfl
  have hjoins : ∀ e ∈ g.inputEdgesOf index, s.Joins (edgeInto index e) ↔
      e.node ∉ done ∧
        (g.swept g.nodes.length index input).pointer = input.pointer :=
    fun e he => h.joins_iff hg hf hindex hcast he
  have hreturns := removeNode_returns_iff hlive
  cases hstep : s.removeNode index with
  | error failure =>
    intro hapart
    -- What the cast reads was not moved, and its producer is still there.
    have hinput : g.swept g.nodes.length index input = input := by
      refine swept_of_not_result hg (fun first second input' hpair => ?_) _ _
      exact hapart index hqueued first second hpair.undoes
        (Skips.exists_edges hg hpair hnode (by simp [hinputs])).2
    obtain ⟨s', hok⟩ := hreturns.mpr fun e he => by
      have he' := (hedges e).mp he
      refine (hjoins e he').mpr ⟨hapart.producer_waits hg hsplit hindex ?_,
        by rw [hinput]⟩
      obtain ⟨e', he'', htarget⟩ := edge_iff_output.mp
        (hg.mirrored.edge_iff_input.mpr ⟨e, he', rfl⟩)
      exact mem_map.mpr ⟨e', he'', htarget⟩
    rw [hstep] at hok
    cases hok
  | ok next =>
    obtain ⟨s', removed⟩ := next
    refine ⟨h.snoc hlive hstep, fun first second hundoes hreader => ?_⟩
    obtain rfl := removeNode_of_isSome hlive hstep
    obtain ⟨input', hpair⟩ := castPair_of_mem_readers hg hcast hundoes hreader
    obtain ⟨e, he, -⟩ := exists_inputEdge hg hreader
    have hsame := ((hjoins e he).mp
      (hreturns.mp ⟨s', hstep⟩ e ((hedges e).mpr he))).2
    refine swept_ne hg hpair hreader (hundoes.lt_length hg) ?_
    exact eq_of_pointer hg.pointers
      (htyped.table index node hnode input (by simp [hinputs]))
      (hg.args index node hnode input (by simp [hinputs])) hsame

/-- The queue is removed exactly if no cast in it reads a second cast. -/
theorem removeQueue_meets : Meets (¬ g.RemovalsApart)
      (fun after => g.RemovalsApart ∧ Removed g' g.removals after)
      (g.removals.foldlM (fun g index => do
        let (g, _) ← g.removeNode index
        return g) g') := by
  refine foldlM_meets (motive := fun done (s : Graph) =>
    (∀ removed ∈ done, ∀ first second, g.Undoes first second →
      removed ∉ g.readers second) ∧ Removed g' done s) ?_ ?_
  · rintro done index rest hsplit s ⟨hdone, hs⟩
    by_cases hindex : index ∈ done
    · -- A cast can be queued twice; then there is nothing left to remove.
      have hqueued : index ∈ g.removals := by simp [hsplit]
      obtain ⟨input, output, hcast⟩ :=
        exists_castArgs_of_mem_removals hg hqueued
      obtain ⟨node, hnode, -⟩ := (castArgs_eq_some hg).mp hcast
      have hgone : s.node index = none := by
        have hdefs := hs.defs index
        rw [if_pos hindex, defsOf, map_eq_none_iff] at hdefs
        exact hdefs
      have hlt : ¬ s.nodes.length ≤ index := by
        rw [hs.length, hf.length]
        exact Nat.not_le.mpr (lt_length_of_node hnode)
      rw [removeNode, if_neg hlt, hgone]
      have hmem : ∀ other, other ∈ done ++ [index] ↔ other ∈ done := by
        intro other
        rw [mem_append, mem_singleton, or_iff_left_of_imp]
        rintro rfl
        exact hindex
      refine ⟨fun removed hremoved => hdone removed ((hmem _).mp hremoved),
        hs.length, ?_, ?_, hs.outputs, hs.initializers⟩
      · simpa only [hmem] using hs.defs
      · simpa only [hmem] using hs.inputs
    · refine (hs.removeNode_meets hg hf htyped hsplit hindex).bind ?_
      rintro ⟨next, flag⟩ ⟨hnext, hindex⟩
      refine ⟨fun removed hremoved => ?_, hnext⟩
      rcases mem_append.mp hremoved with hremoved | hremoved
      · exact hdone removed hremoved
      · rw [mem_singleton.mp hremoved]
        exact hindex
  · exact ⟨fun _ hnil => absurd hnil not_mem_nil, rfl,
      fun index => by simp, fun _ _ _ => Iff.rfl, rfl, rfl⟩

end

/-- The second phase completes exactly if no cast that is removed reads a
second cast. -/
theorem removeCasts_meets (hg : g.CastReady) : Meets (¬ g.RemovalsApart)
      (fun result : Graph × Bool => g.RemovalsApart ∧ ∃ middle,
        Relabels g (g.swept g.nodes.length) middle ∧
        Removed middle g.removals result.1)
      g.removeCasts := by
  obtain ⟨⟨middle, removed⟩, hsweep, hrelabels, htyped, rfl⟩ :=
    (sweep_meets hg).exists_ok id
  rw [removeCasts, hsweep]
  refine (removeQueue_meets hg hrelabels htyped).bind fun after hafter => ?_
  exact ⟨hafter.1, middle, hrelabels, hafter.2⟩

end Loop

end Graph

end OnnxRuntime
