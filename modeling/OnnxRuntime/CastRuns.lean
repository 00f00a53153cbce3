/-
What the loop that inserts casts does: the casts it adds one after the other,
and the defs it replaces in the nodes.
-/
import OnnxRuntime.InsertCast

namespace OnnxRuntime

open List CastInsertion OnnxRuntime.Graph Function

variable {cast : AddedCast}

/-- A cast of the value `old`: to float under the name of `new`, or back from
it. -/
structure AddedCast where
  old : GraphArg
  new : GraphArg
  back : Bool
deriving Repr, DecidableEq

namespace AddedCast

def toType (cast : AddedCast) : ElemType :=
  if cast.back then .float16 else .float

def node (cast : AddedCast) (name : String) : GraphNode where
  name := name
  opType := "Cast"
  inputDefs := [if cast.back then cast.new else cast.old]
  outputDefs := [if cast.back then cast.old else cast.new]

end AddedCast

namespace CastGraph

variable (s : CastGraph)

def Float16 (arg : GraphArg) : Prop :=
  s.graph.argType arg.pointer = some (.tensorType .float16)

instance decidableFloat16 (arg : GraphArg) : Decidable (s.Float16 arg) :=
  inferInstanceAs (Decidable (_ = _))

/-- Those of the inputs for which a node asks for casts. -/
def castReads (index : NodeIndex) (inputs : List GraphArg) : List GraphArg :=
  if s.executionProviderType index = "" then inputs.filter (s.Float16 ·)
  else []

/-- Those of the outputs that are cast back, when some input is cast. -/
def castWrites (index : NodeIndex) (inputs outputs : List GraphArg) :
    List GraphArg :=
  if s.castReads index inputs = [] then [] else outputs.filter (s.Float16 ·)

def allReads : List GraphArg :=
  s.graph.liveNodes.flatMap fun entry => s.castReads entry.1 entry.2.inputDefs

def allWrites : List GraphArg :=
  s.graph.liveNodes.flatMap fun entry =>
    s.castWrites entry.1 entry.2.inputDefs entry.2.outputDefs

/-- One cast for each value that is read, however often, and one for each
output. -/
def castsNeeded : Nat := s.allReads.dedup.length + s.allWrites.length

variable (known : TypeProto → Bool)

def KnownType (arg : GraphArg) : Prop :=
  ∀ proto, s.graph.argType arg.pointer = some proto → known proto

def TypesKnown : Prop :=
  ∀ index node, s.graph.node index = some node →
    ∀ arg ∈ node.inputDefs ++ node.outputDefs, s.KnownType known arg

/-- The loop can run to its end: all types are known, and there is room for the
casts. -/
structure Insertable : Prop where
  types : s.TypesKnown known
  room : ∀ k < s.castsNeeded, s.graph.nodes.length + k < 2147483647

variable {s known}

theorem isFloat16_meets (arg : GraphArg) : Meets (¬ s.KnownType known arg)
      (fun float16 : Bool =>
        s.KnownType known arg ∧ (float16 ↔ s.Float16 arg))
      (s.isFloat16 known arg) := by
  rw [isFloat16, KnownType, Float16]
  cases s.graph.argType arg.pointer with
  | none => exact ⟨nofun, by simp⟩
  | some proto =>
    dsimp only [typeFromProto]
    split
    · rename_i hknown
      refine ⟨?_, by simp⟩
      rintro _ ⟨⟩
      exact hknown
    · rename_i hunknown
      exact fun htype => hunknown (htype _ rfl)

end CastGraph

/-- The nodes below `bound` are as they were. -/
structure SameNodes (bound : Nat) (s t : CastGraph) : Prop where
  node : ∀ index < bound, t.graph.node index = s.graph.node index
  provider : ∀ index < bound,
    t.executionProviderType index = s.executionProviderType index
  castTo : ∀ index < bound, t.castTo index = s.castTo index

theorem SameNodes.refl (bound : Nat) (s : CastGraph) : SameNodes bound s s :=
  ⟨fun _ _ => rfl, fun _ _ => rfl, fun _ _ => rfl⟩

theorem SameNodes.trans {bound : Nat} {s t u : CastGraph}
    (h : SameNodes bound s t) (h' : SameNodes bound t u) :
    SameNodes bound s u where
  node index hlt := (h'.node index hlt).trans (h.node index hlt)
  provider index hlt := (h'.provider index hlt).trans (h.provider index hlt)
  castTo index hlt := (h'.castTo index hlt).trans (h.castTo index hlt)

/-- The casts added so far are behind the nodes of the graph, each named by its
number. -/
structure Inserting (s : CastGraph) (casts : List AddedCast)
    (st : CastInsertion) : Prop where
  nextId : st.nextId = casts.length
  length : st.graph.nodes.length = s.graph.nodes.length + casts.length
  added : ∀ (k : Nat) cast, casts[k]? = some cast →
    cast.new.name = numbered "CastDef" k ∧
    st.graph.node (s.graph.nodes.length + k) =
      some (cast.node (numbered "CastDef" k)) ∧
    st.executionProviderType (s.graph.nodes.length + k) = cpuProviderType ∧
    st.castTo (s.graph.nodes.length + k) = some cast.toType
  room : ∀ k < casts.length, s.graph.nodes.length + k < 2147483647
  grown : s.graph.Grown st.graph
  table : ∀ name arg, st.graph.getNodeArg name = some arg ↔
    s.graph.getNodeArg name = some arg ∨
      ∃ cast ∈ casts, cast.new = arg ∧ arg.name = name
  old : ∀ cast ∈ casts, s.graph.getNodeArg cast.old.name = some cast.old
  floats : ∀ cast ∈ casts, s.graph.getNodeArg cast.new.name = none →
    st.graph.argType cast.new.pointer = some (.tensorType .float)

namespace Inserting

variable {s : CastGraph} {casts : List AddedCast} {st st' : CastInsertion}

theorem start (h : (s.graph.nodeArgs.map (·.pointer)).Nodup) :
    Inserting s [] { toCastGraph := s } where
  nextId := rfl
  length := rfl
  added := nofun
  room := nofun
  grown := .refl h
  table := by simp
  old := nofun
  floats := nofun

variable (h : Inserting s casts st)
include h

theorem isFloat16_meets {arg : GraphArg}
    (harg : s.graph.getNodeArg arg.name = some arg) {known : TypeProto → Bool} :
    Meets (¬ s.KnownType known arg)
      (fun float16 : Bool =>
        s.KnownType known arg ∧ (float16 ↔ s.Float16 arg))
      (st.isFloat16 known arg) := by
  have hmeets := @CastGraph.isFloat16_meets st.toCastGraph known arg
  rwa [CastGraph.KnownType, CastGraph.Float16, h.grown.types _ _ harg] at hmeets

theorem name_eq (hcast : cast ∈ casts) : ∃ k < casts.length,
      cast.new.name = numbered "CastDef" k := by
  obtain ⟨k, hk⟩ := getElem?_of_mem hcast
  exact ⟨k, (List.getElem?_eq_some_iff.mp hk).1, (h.added k cast hk).1⟩

theorem names_eq : casts.map (·.new.name) =
    (range casts.length).map (numbered "CastDef") := by
  apply ext_getElem?
  intro k
  rw [getElem?_map, getElem?_map]
  cases hk : casts[k]? with
  | none =>
    rw [List.getElem?_eq_none_iff] at hk
    rw [getElem?_eq_none (by rwa [length_range])]
    rfl
  | some cast =>
    rw [getElem?_range (List.getElem?_eq_some_iff.mp hk).1,
      Option.map_some, (h.added k cast hk).1]
    rfl

/-- One more cast, as long as there is room for it. -/
theorem addCastNode_meets {old : GraphArg}
    (hold : s.graph.getNodeArg old.name = some old) (back : Bool) :
    Meets (¬ s.graph.nodes.length + casts.length < 2147483647)
      (fun added => Inserting s (casts ++ [⟨old, added.2, back⟩]) added.1 ∧
        SameNodes s.graph.nodes.length st.toCastGraph added.1.toCastGraph ∧
        added.1.inputDefUpdates = st.inputDefUpdates ∧
        added.1.modified = st.modified)
      (st.addCastNode old back (if back then .float16 else .float)) := by
  have hgrown := getOrCreateNodeArg_grown h.grown.pointers
    (numbered "CastDef" st.nextId) (some (.tensorType .float))
  have hnodes := st.graph.nodes_getOrCreateNodeArg
    (numbered "CastDef" st.nextId) (some (.tensorType .float))
  rw [addCastNode]
  dsimp only
  generalize st.graph.getOrCreateNodeArg (numbered "CastDef" st.nextId)
    (some (.tensorType .float)) = created at hgrown hnodes ⊢
  obtain ⟨graph, new⟩ := created
  obtain ⟨hgrown, hname, htable, htype⟩ := hgrown
  have hnew : graph.getNodeArg new.name = some new :=
    (htable _ _).mpr (.inr ⟨hname, rfl⟩)
  have hold' : graph.getNodeArg old.name = some old :=
    hgrown.table _ _ (h.grown.table _ _ hold)
  rw [addNode, createNodeArgs_of_eq_some (by cases back <;> simpa)]
  dsimp only
  rw [createNodeArgs_of_eq_some (by cases back <;> simpa), hnodes, h.length]
  split
  · have hne : ∀ index < s.graph.nodes.length,
        index ≠ s.graph.nodes.length + casts.length := by omega
    rw [h.nextId] at hname htable htype ⊢
    have hnode : ∀ index, node { graph with
        nodes := st.graph.nodes ++ [some (AddedCast.node ⟨old, new, back⟩
          (numbered "CastDef" casts.length))] } index =
          if index = s.graph.nodes.length + casts.length then
            some (AddedCast.node ⟨old, new, back⟩
              (numbered "CastDef" casts.length))
          else st.graph.node index := by
      intro index
      rw [← h.length]
      exact node_of_append rfl index
    refine ⟨⟨?_, ?_, ?_, ?_, ?_, ?_, ?_, ?_⟩, ⟨?_, ?_, ?_⟩, rfl, rfl⟩
    · rw [length_append, length_singleton]
    · rw [length_append, length_append, h.length,
        length_singleton, length_singleton, Nat.add_assoc]
    · intro k cast hcast
      rw [getElem?_append] at hcast
      split at hcast
      · have hlt : s.graph.nodes.length + k ≠
            s.graph.nodes.length + casts.length := by omega
        obtain ⟨hnumber, hat, hprovider, hto⟩ := h.added k cast hcast
        exact ⟨hnumber, (hnode _).trans ((if_neg hlt).trans hat),
          (update_of_ne hlt _ _).trans hprovider,
          (update_of_ne hlt _ _).trans hto⟩
      · rw [getElem?_singleton] at hcast
        obtain ⟨hk', rfl⟩ := Option.ite_some_none_eq_some.mp hcast
        obtain rfl : k = casts.length := by omega
        exact ⟨hname, (hnode _).trans (if_pos rfl), update_self _ _ _,
          update_self _ _ _⟩
    · intro k hk
      rw [length_append, length_singleton] at hk
      omega
    · exact h.grown.trans ⟨hgrown.table, hgrown.types, hgrown.pointers,
        hgrown.inputs, hgrown.initializers⟩
    · intro name arg
      refine (htable name arg).trans ?_
      have hlast : (name = numbered "CastDef" casts.length ∧ arg = new) ↔
          new = arg ∧ arg.name = name := by grind
      rw [h.table, hlast, or_assoc]
      simp only [mem_append, mem_singleton, or_and_right, exists_or,
        exists_eq_left]
    · intro cast hcast
      rcases mem_append.mp hcast with hmem | hlast
      · exact h.old cast hmem
      · rw [mem_singleton.mp hlast]
        exact hold
    · intro cast hcast hfree
      rcases mem_append.mp hcast with hmem | hlast
      · have hcast' := (h.table cast.new.name cast.new).mpr
          (.inr ⟨cast, hmem, rfl, rfl⟩)
        exact (hgrown.types _ _ hcast').trans (h.floats cast hmem hfree)
      · rw [mem_singleton.mp hlast] at hfree ⊢
        refine htype (Option.eq_none_iff_forall_ne_some.mpr fun arg harg => ?_)
        rcases (h.table _ arg).mp harg with hstart | ⟨cast, hmem, rfl, hcast⟩
        · rw [hname, hstart] at hfree
          cases hfree
        · obtain ⟨k, hk, hnumber⟩ := h.name_eq hmem
          rw [hcast] at hnumber
          exact Nat.ne_of_gt hk (numbered_injective _ hnumber)
    · intro index hindex
      exact (hnode index).trans (if_neg (hne index hindex))
    · intro index hindex
      exact update_of_ne (hne index hindex) _ _
    · intro index hindex
      exact update_of_ne (hne index hindex) _ _
  · rename_i hfull
    exact hfull

/-- A change to the nodes of the original graph. -/
theorem congr (hid : st'.nextId = st.nextId)
    (hlength : st'.graph.nodes.length = st.graph.nodes.length)
    (hnode : ∀ index, s.graph.nodes.length ≤ index →
      st'.graph.node index = st.graph.node index)
    (hprovider : ∀ index, s.graph.nodes.length ≤ index →
      st'.executionProviderType index = st.executionProviderType index)
    (hto : st'.castTo = st.castTo)
    (hargs : st'.graph.nodeArgs = st.graph.nodeArgs)
    (htypes : st'.graph.argType = st.graph.argType)
    (hinputs : st'.graph.inputsOutputs = st.graph.inputsOutputs)
    (hinitializers : st'.graph.nameToInitialTensor =
      st.graph.nameToInitialTensor) : Inserting s casts st' := by
  have htable : ∀ name, st'.graph.getNodeArg name = st.graph.getNodeArg name :=
    fun name => by rw [getNodeArg, hargs, getNodeArg]
  have hgrown := h.grown
  refine ⟨hid.trans h.nextId, hlength.trans h.length, ?_, h.room,
    ⟨?_, ?_, ?_, ?_, ?_⟩, ?_, h.old, ?_⟩
  · intro k cast hcast
    rw [hnode _ (Nat.le_add_right _ k), hprovider _ (Nat.le_add_right _ k), hto]
    exact h.added k cast hcast
  · intro name arg harg
    rw [htable]
    exact hgrown.table name arg harg
  · rw [htypes]
    exact hgrown.types
  · rw [hargs]
    exact hgrown.pointers
  · rw [hinputs]
    exact hgrown.inputs
  · rw [hinitializers]
    exact hgrown.initializers
  · intro name arg
    rw [htable]
    exact h.table name arg
  · rw [htypes]
    exact h.floats

end Inserting

/-- The casts by what they convert: each value of `reads` once to float, and
those of `writes` one after the other back. -/
structure Tally (casts : List AddedCast) (reads writes : List GraphArg) :
    Prop where
  nodup : ((casts.filter (! ·.back)).map (·.old)).Nodup
  reads : ∀ arg, arg ∈ (casts.filter (! ·.back)).map (·.old) ↔ arg ∈ reads
  writes : (casts.filter (·.back)).map (·.old) = writes

namespace Tally

variable {casts : List AddedCast} {reads writes : List GraphArg}

section

variable (h : Tally casts reads writes)
include h

theorem length_eq : casts.length = reads.dedup.length + writes.length := by
  have hperm : ((casts.filter (! ·.back)).map (·.old)).Perm reads.dedup := by
    rw [perm_ext_iff_of_nodup h.nodup (nodup_dedup _)]
    intro arg
    rw [h.reads, mem_dedup]
  rw [← hperm.length_eq, ← h.writes, length_map, length_map, Nat.add_comm]
  exact length_eq_length_filter_add AddedCast.back

theorem mem_reads_iff {arg : GraphArg} :
    arg ∈ reads ↔ ∃ new, ⟨arg, new, false⟩ ∈ casts := by
  rw [← h.reads, mem_map]
  constructor
  · rintro ⟨⟨old, new, back⟩, hcast, rfl⟩
    rw [mem_filter] at hcast
    cases back with
    | false => exact ⟨new, hcast.1⟩
    | true => cases hcast.2
  · rintro ⟨new, hcast⟩
    exact ⟨_, mem_filter.mpr ⟨hcast, rfl⟩, rfl⟩

theorem read {arg : GraphArg} (hnew : arg ∉ reads) (new : GraphArg) :
    Tally (casts ++ [⟨arg, new, false⟩]) (reads ++ [arg]) writes where
  nodup := by
    rw [filter_append, map_append, nodup_append]
    refine ⟨h.nodup, nodup_singleton _, ?_⟩
    rintro _ hold _ hlast rfl
    rw [h.reads] at hold
    cases mem_singleton.mp hlast
    exact hnew hold
  reads other := by
    rw [filter_append, map_append, mem_append, h.reads, mem_append]
    rfl
  writes := by
    rw [filter_append, map_append, h.writes]
    exact append_nil _

/-- A value that was read before. -/
theorem reread {arg : GraphArg} (hold : arg ∈ reads) :
    Tally casts (reads ++ [arg]) writes where
  nodup := h.nodup
  reads other := by
    rw [h.reads, mem_append, mem_singleton]
    exact ⟨.inl, fun hor => hor.elim id fun heq => heq ▸ hold⟩
  writes := h.writes

theorem write (arg new : GraphArg) :
    Tally (casts ++ [⟨arg, new, true⟩]) reads (writes ++ [arg]) where
  nodup := by
    rw [filter_append]
    simpa using h.nodup
  reads other := by
    rw [← h.reads]
    simp
  writes := by
    rw [filter_append, map_append, h.writes]
    rfl

end

end Tally

/-- The replacements in one node: each is by a cast, and each of `olds` is
replaced. -/
structure Pairs (casts : List AddedCast) (olds : List (GraphArg × Bool))
    (pairs : List (GraphArg × GraphArg)) : Prop where
  sound : ∀ pair ∈ pairs, ∃ back,
    ⟨pair.1, pair.2, back⟩ ∈ casts ∧ (pair.1, back) ∈ olds
  complete : ∀ old ∈ olds, ∃ pair ∈ pairs, pair.1 = old.1
  keys : (pairs.map (·.1.pointer)).Nodup

namespace Pairs

variable {casts : List AddedCast} {olds : List (GraphArg × Bool)}
  {pairs : List (GraphArg × GraphArg)}

theorem start (casts : List AddedCast) : Pairs casts [] [] :=
  ⟨nofun, nofun, nodup_nil⟩

theorem mono (h : Pairs casts olds pairs) {casts' : List AddedCast}
    (hsub : casts ⊆ casts') : Pairs casts' olds pairs where
  sound pair hpair := by
    obtain ⟨back, hcast, hold⟩ := h.sound pair hpair
    exact ⟨back, hsub hcast, hold⟩
  complete := h.complete
  keys := h.keys

theorem assign (h : Pairs casts olds pairs) {key value : GraphArg}
    {back : Bool} (hcast : ⟨key, value, back⟩ ∈ casts)
    (hinj : ∀ old ∈ olds, old.1.pointer = key.pointer → old.1 = key) :
    Pairs casts (olds ++ [(key, back)]) (assign pairs key value) where
  sound pair hpair := by
    rcases mem_append.mp hpair with hkept | hlast
    · obtain ⟨back', hcast', hold⟩ := h.sound pair (mem_filter.mp hkept).1
      exact ⟨back', hcast', mem_append_left _ hold⟩
    · cases mem_singleton.mp hlast
      exact ⟨back, hcast, mem_append_right _ (mem_singleton_self _)⟩
  complete old hold := by
    by_cases heq : old.1 = key
    · exact ⟨(key, value), mem_append_right _ (mem_singleton_self _), heq.symm⟩
    · rcases mem_append.mp hold with hbefore | hlast
      · obtain ⟨pair, hpair, hkey⟩ := h.complete old hbefore
        refine ⟨pair, mem_append_left _ (mem_filter.mpr ⟨hpair, ?_⟩), hkey⟩
        rw [decide_eq_true_eq, hkey]
        exact fun hpointer => heq (hinj old hbefore hpointer)
      · cases mem_singleton.mp hlast
        exact absurd rfl heq
  keys := by
    rw [OnnxRuntime.assign, map_append, nodup_append]
    refine ⟨h.keys.sublist (filter_sublist.map _), nodup_singleton _, ?_⟩
    rintro _ hkept _ hlast rfl
    obtain ⟨pair, hpair, hpointer⟩ := mem_map.mp hkept
    have hne := (mem_filter.mp hpair).2
    rw [decide_eq_true_eq, hpointer] at hne
    exact hne (mem_singleton.mp hlast)

end Pairs

/-- A state within the loop: `reads` and `writes` are what was cast so far,
`olds` what the current node has replaced. -/
structure Collecting (s : CastGraph) (reads writes : List GraphArg)
    (olds : List (GraphArg × Bool)) (casts : List AddedCast)
    (node : NodeCasts) : Prop where
  inserting : Inserting s casts node.state
  shared : ∀ pair : GraphArg × GraphArg, pair ∈ node.state.inputDefUpdates ↔
    ⟨pair.1, pair.2, false⟩ ∈ casts
  tally : Tally casts reads writes
  pairs : Pairs casts olds node.replacementDefs

namespace Collecting

variable {s : CastGraph} {known : TypeProto → Bool}
  {reads writes : List GraphArg} {olds : List (GraphArg × Bool)}
  {casts : List AddedCast} {node : NodeCasts}

section

variable (h : Collecting s reads writes olds casts node)
    (hargs : ∀ old ∈ olds, s.graph.getNodeArg old.1.name = some old.1)
include h hargs

theorem old_injective {arg : GraphArg}
    (harg : s.graph.getNodeArg arg.name = some arg) :
    ∀ old ∈ olds, old.1.pointer = arg.pointer → old.1 = arg := by
  intro old hold hpointer
  exact eq_of_pointer h.inserting.grown.pointers
    (h.inserting.grown.table _ _ (hargs old hold))
    (h.inserting.grown.table _ _ harg) hpointer

/-- `castInput` for an input that has to be cast. -/
theorem castInput_meets {index : NodeIndex} {input : GraphArg}
    (hinput : s.graph.getNodeArg input.name = some input) :
    Meets (¬ s.KnownType known input ∨
        (s.Float16 input ∧ node.state.executionProviderType index = "") ∧
          input ∉ reads ∧ ¬ s.graph.nodes.length + casts.length < 2147483647)
      (fun node' => s.KnownType known input ∧
        SameNodes s.graph.nodes.length node.state.toCastGraph
          node'.state.toCastGraph ∧
        node'.state.modified = node.state.modified ∧
        if s.Float16 input ∧ node.state.executionProviderType index = "" then
          node'.casted = true ∧ ∃ casts', casts ⊆ casts' ∧
            Collecting s (reads ++ [input]) writes (olds ++ [(input, false)])
              casts' node'
        else node' = node)
      (castInput known index node input) := by
  rw [castInput, CastGraph.needInsertCast, bind_assoc]
  refine ((h.inserting.isFloat16_meets hinput).imp .inl fun _ => id).bind ?_
  rintro float16 ⟨hknown, hfloat16⟩
  rw [pure_bind]
  split
  · rename_i hneed
    rw [if_pos (decide_eq_true ⟨hfloat16.mpr hneed.1, hneed.2⟩)]
    have hinj := h.old_injective hargs hinput
    cases hfind : node.state.inputDefUpdates.find?
        (·.1.pointer = input.pointer) with
    | some update =>
      have hmem := (h.shared update).mp (mem_of_find?_eq_some hfind)
      have hpointer : update.1.pointer = input.pointer := by
        simpa using find?_some hfind
      have hold := h.inserting.old _ hmem
      obtain rfl : update.1 = input := eq_of_pointer
        h.inserting.grown.pointers (h.inserting.grown.table _ _ hold)
        (h.inserting.grown.table _ _ hinput) hpointer
      refine ⟨hknown, .refl _ _, rfl, rfl, casts, fun _ => id, h.inserting,
        h.shared, ?_, h.pairs.assign hmem hinj⟩
      exact h.tally.reread (h.tally.mem_reads_iff.mpr ⟨_, hmem⟩)
    | none =>
      have hnew : input ∉ reads := by
        rw [h.tally.mem_reads_iff]
        rintro ⟨new, hcast⟩
        have hnone := find?_eq_none.mp hfind (input, new)
          ((h.shared (input, new)).mpr hcast)
        exact hnone (decide_eq_true rfl)
      refine ((h.inserting.addCastNode_meets hinput false).imp
        (fun hfull => .inr ⟨hneed, hnew, hfull⟩) fun _ hpost => hpost).bind ?_
      rintro ⟨st, new⟩ ⟨hinserting, hsame, hupdates, hmodified⟩
      refine ⟨hknown, hsame, hmodified, rfl, casts ++ [⟨input, new, false⟩],
        subset_append_left _ _, ?_, ?_, h.tally.read hnew new, ?_⟩
      · exact ⟨hinserting.nextId, hinserting.length, hinserting.added,
          hinserting.room, hinserting.grown, hinserting.table,
          hinserting.old, hinserting.floats⟩
      · intro pair
        rw [hupdates, mem_append, h.shared, mem_singleton, Prod.ext_iff]
        simp
      · exact (h.pairs.mono (subset_append_left _ _)).assign
          (mem_append_right _ (mem_singleton_self _)) hinj
  · rename_i hneed
    rw [← hfloat16] at hneed
    rw [if_neg (mt of_decide_eq_true hneed)]
    exact ⟨hknown, .refl _ _, rfl, rfl⟩

theorem castOutput_meets {output : GraphArg}
    (houtput : s.graph.getNodeArg output.name = some output) :
    Meets (¬ s.KnownType known output ∨ (s.Float16 output ∧ node.casted) ∧
        ¬ s.graph.nodes.length + casts.length < 2147483647)
      (fun node' => s.KnownType known output ∧
        SameNodes s.graph.nodes.length node.state.toCastGraph
          node'.state.toCastGraph ∧
        node'.state.modified = node.state.modified ∧
        node'.casted = node.casted ∧
        if s.Float16 output ∧ node.casted then
          ∃ casts', casts ⊆ casts' ∧ Collecting s reads (writes ++ [output])
            (olds ++ [(output, true)]) casts' node'
        else node' = node)
      (castOutput known node output) := by
  refine ((h.inserting.isFloat16_meets houtput).imp .inl fun _ => id).bind ?_
  rintro float16 ⟨hknown, hfloat16⟩
  split
  · rename_i hneed
    rw [if_pos ⟨hfloat16.mpr hneed.1, hneed.2⟩]
    refine ((h.inserting.addCastNode_meets houtput true).imp
      (fun hfull => .inr ⟨hneed, hfull⟩) fun _ hpost => hpost).bind ?_
    rintro ⟨st, new⟩ ⟨hinserting, hsame, hupdates, hmodified⟩
    refine ⟨hknown, hsame, hmodified, rfl, casts ++ [⟨output, new, true⟩],
      subset_append_left _ _, hinserting, fun pair => ?_,
      h.tally.write output new, ?_⟩
    · rw [hupdates, h.shared]
      simp
    · exact (h.pairs.mono (subset_append_left _ _)).assign
        (mem_append_right _ (mem_singleton_self _))
        (h.old_injective hargs houtput)
  · rename_i hneed
    rw [← hfloat16] at hneed
    rw [if_neg hneed]
    exact ⟨hknown, .refl _ _, rfl, rfl, rfl⟩

end

end Collecting

namespace CastGraph

variable {s : CastGraph} {known : TypeProto → Bool} {index : NodeIndex}

theorem castReads_append (front rest : List GraphArg) :
    s.castReads index (front ++ rest) =
      s.castReads index front ++ s.castReads index rest := by
  rw [castReads, castReads, castReads]
  split
  · exact filter_append ..
  · rfl

theorem castReads_singleton (input : GraphArg) :
    s.castReads index [input] =
      if s.Float16 input ∧ s.executionProviderType index = "" then [input]
      else [] := by
  rw [castReads]
  by_cases hempty : s.executionProviderType index = ""
  · by_cases hfloat : s.Float16 input <;> simp [hfloat]
  · simp [hempty]

theorem castWrites_append (inputs front rest : List GraphArg) :
    s.castWrites index inputs (front ++ rest) =
      s.castWrites index inputs front ++ s.castWrites index inputs rest := by
  rw [castWrites, castWrites, castWrites]
  split
  · rfl
  · exact filter_append ..

theorem castWrites_singleton (inputs : List GraphArg) (output : GraphArg) :
    s.castWrites index inputs [output] =
      if s.Float16 output ∧ s.castReads index inputs ≠ [] then [output]
      else [] := by
  rw [castWrites]
  by_cases hempty : s.castReads index inputs = []
  · simp [hempty]
  · by_cases hfloat : s.Float16 output <;> simp [hfloat]

variable {casts : List AddedCast} {reads writes inputs : List GraphArg}
  {arg : GraphArg} {node : GraphNode} {st : CastInsertion}
  {order : List NodeIndex}

/-- There is no room for a cast that is needed. -/
theorem not_insertable_of_full
    (h : Tally (casts ++ [cast]) reads writes) (hreads : reads ⊆ s.allReads)
    (hwrites : writes.length ≤ s.allWrites.length)
    (hfull : ¬ s.graph.nodes.length + casts.length < 2147483647) :
    ¬ s.Insertable known := by
  intro hinsertable
  have hlength := h.length_eq
  have hsub : reads.dedup.length ≤ s.allReads.dedup.length := by
    refine ((nodup_dedup reads).subperm ?_).length_le
    intro arg harg
    exact mem_dedup.mpr (hreads (mem_dedup.mp harg))
  rw [length_append, length_singleton] at hlength
  refine hfull (hinsertable.room casts.length ?_)
  rw [castsNeeded]
  omega

theorem mem_castReads : arg ∈ s.castReads index inputs ↔
      s.executionProviderType index = "" ∧ arg ∈ inputs ∧ s.Float16 arg := by
  rw [castReads]
  split
  · rename_i hempty
    simp [hempty]
  · rename_i hassigned
    simp [hassigned]

theorem mem_castWrites {outputs : List GraphArg} :
    arg ∈ s.castWrites index inputs outputs ↔
      s.castReads index inputs ≠ [] ∧ arg ∈ outputs ∧ s.Float16 arg := by
  rw [castWrites]
  split
  · rename_i hnil
    simp [hnil]
  · rename_i hreads
    simp [hreads]

/-- After the loop over some inputs of a node. -/
def InputsCast (s : CastGraph) (known : TypeProto → Bool) (index : NodeIndex)
    (reads writes : List GraphArg) (casts : List AddedCast)
    (st : CastInsertion) (inputs : List GraphArg) (result : NodeCasts) : Prop :=
  (∀ arg ∈ inputs, s.KnownType known arg) ∧
  SameNodes s.graph.nodes.length st.toCastGraph result.state.toCastGraph ∧
  result.state.modified = st.modified ∧
  (result.casted ↔ s.castReads index inputs ≠ []) ∧
  ∃ casts', casts ⊆ casts' ∧
    Collecting s (reads ++ s.castReads index inputs) writes
      ((s.castReads index inputs).map (·, false)) casts' result

/-- After the loop over some of its outputs. -/
def OutputsCast (s : CastGraph) (known : TypeProto → Bool) (index : NodeIndex)
    (reads writes inputs : List GraphArg) (casts : List AddedCast)
    (start : NodeCasts) (outputs : List GraphArg) (result : NodeCasts) : Prop :=
  (∀ arg ∈ outputs, s.KnownType known arg) ∧
  SameNodes s.graph.nodes.length start.state.toCastGraph
    result.state.toCastGraph ∧
  result.state.modified = start.state.modified ∧
  result.casted = start.casted ∧
  ∃ casts', casts ⊆ casts' ∧
    Collecting s reads (writes ++ s.castWrites index inputs outputs)
      ((s.castReads index inputs).map (·, false) ++
        (s.castWrites index inputs outputs).map (·, true)) casts' result

theorem foldlM_castInput_meets (hnode : s.graph.node index = some node)
    (hargs : ∀ arg ∈ node.inputDefs, s.graph.getNodeArg arg.name = some arg)
    (h : Collecting s reads writes [] casts { state := st })
    (hprovider : st.executionProviderType index = s.executionProviderType index)
    (hreads : reads ++ s.castReads index node.inputDefs ⊆ s.allReads)
    (hwrites : writes.length ≤ s.allWrites.length) :
    Meets (¬ s.Insertable known)
      (s.InputsCast known index reads writes casts st node.inputDefs)
      (node.inputDefs.foldlM (castInput known index) { state := st }) := by
  have hlt := lt_length_of_node hnode
  apply foldlM_meets (motive := s.InputsCast known index reads writes casts st)
  · rintro front input rest hsplit result
      ⟨hknown, hsame, hmodified, hcasted, casts', hsub, hcollect⟩
    have hinput : input ∈ node.inputDefs := by simp [hsplit]
    have hfront : ∀ arg ∈ front, arg ∈ node.inputDefs := by
      intro arg harg
      simp [hsplit, harg]
    have hprovider' : result.state.executionProviderType index =
        s.executionProviderType index :=
      (hsame.provider index hlt).trans hprovider
    refine (hcollect.castInput_meets (fun old hold => ?_)
      (hargs input hinput)).imp ?_ ?_
    · obtain ⟨arg, harg, rfl⟩ := mem_map.mp hold
      exact hargs arg (hfront arg (mem_castReads.mp harg).2.1)
    · rintro (hunknown | ⟨hneed, hnew, hfull⟩)
      · exact fun hinsertable => hunknown (hinsertable.types index node hnode
          input (mem_append_left _ hinput))
      · rw [hprovider'] at hneed
        rw [← singleton_append] at hsplit
        have hsub' : reads ++ s.castReads index front ++ [input] ⊆
            reads ++ s.castReads index node.inputDefs := by
          rw [hsplit, castReads_append, castReads_append, castReads_singleton,
            if_pos hneed]
          intro arg harg
          simp only [mem_append] at harg ⊢
          tauto
        exact not_insertable_of_full (hcollect.tally.read hnew input)
          (Subset.trans hsub' hreads) hwrites hfull
    · rintro result' ⟨hknown', hsame', hmodified', hrest⟩
      rw [hprovider'] at hrest
      refine ⟨?_, hsame.trans hsame', hmodified'.trans hmodified, ?_⟩
      · exact forall_mem_append.mpr ⟨hknown, forall_mem_singleton.mpr hknown'⟩
      · rw [castReads_append, castReads_singleton]
        split at hrest
        · rename_i hneed
          obtain ⟨hcasted', casts'', hsub', hcollect'⟩ := hrest
          rw [if_pos hneed, map_append, ← append_assoc]
          exact ⟨by simp [hcasted'], casts'', Subset.trans hsub hsub',
            hcollect'⟩
        · rename_i hneed
          subst hrest
          rw [if_neg hneed, append_nil]
          exact ⟨hcasted, casts', hsub, hcollect⟩
  · refine ⟨nofun, .refl _ _, rfl, ?_, casts, fun _ => id, ?_⟩
    · simp [castReads]
    · have hnil : s.castReads index [] = [] := by simp [castReads]
      rw [hnil, append_nil]
      exact h

theorem foldlM_castOutput_meets (hnode : s.graph.node index = some node)
    (hargs : ∀ arg ∈ node.inputDefs ++ node.outputDefs,
      s.graph.getNodeArg arg.name = some arg) {start : NodeCasts}
    (h : Collecting s reads writes
      ((s.castReads index node.inputDefs).map (·, false)) casts start)
    (hcasted : start.casted ↔ s.castReads index node.inputDefs ≠ [])
    (hreads : reads ⊆ s.allReads)
    (hwrites : (writes ++ s.castWrites index node.inputDefs
      node.outputDefs).length ≤ s.allWrites.length) :
    Meets (¬ s.Insertable known)
      (s.OutputsCast known index reads writes node.inputDefs casts start
        node.outputDefs)
      (node.outputDefs.foldlM (castOutput known) start) := by
  apply foldlM_meets (motive := s.OutputsCast known index reads writes
    node.inputDefs casts start)
  · rintro front output rest hsplit result
      ⟨hknown, hsame, hmodified, hsame', casts', hsub, hcollect⟩
    have houtput : output ∈ node.outputDefs := by simp [hsplit]
    have hfront : ∀ arg ∈ front, arg ∈ node.outputDefs := by
      intro arg harg
      simp [hsplit, harg]
    have hneed_iff : (s.Float16 output ∧ result.casted) ↔
        s.Float16 output ∧ s.castReads index node.inputDefs ≠ [] := by
      rw [hsame', hcasted]
    refine (hcollect.castOutput_meets (fun old hold => ?_)
      (hargs output (mem_append_right _ houtput))).imp ?_ ?_
    · rcases mem_append.mp hold with hread | hwrite
      · obtain ⟨arg, harg, rfl⟩ := mem_map.mp hread
        exact hargs arg (mem_append_left _ (mem_castReads.mp harg).2.1)
      · obtain ⟨arg, harg, rfl⟩ := mem_map.mp hwrite
        exact hargs arg (mem_append_right _
          (hfront arg (mem_castWrites.mp harg).2.1))
    · rintro (hunknown | ⟨hneed, hfull⟩)
      · exact fun hinsertable => hunknown (hinsertable.types index node hnode
          output (mem_append_right _ houtput))
      · rw [hneed_iff] at hneed
        refine not_insertable_of_full (hcollect.tally.write output output)
          hreads (Nat.le_trans ?_ hwrites) hfull
        rw [← singleton_append] at hsplit
        rw [hsplit, castWrites_append, castWrites_append, castWrites_singleton,
          if_pos hneed]
        simp only [length_append]
        omega
    · rintro result' ⟨hknown', hsame'', hmodified', hcasted', hrest⟩
      simp only [hneed_iff] at hrest
      refine ⟨?_, hsame.trans hsame'', hmodified'.trans hmodified,
        hcasted'.trans hsame', ?_⟩
      · exact forall_mem_append.mpr ⟨hknown, forall_mem_singleton.mpr hknown'⟩
      · rw [castWrites_append, castWrites_singleton]
        split at hrest
        · rename_i hneed
          obtain ⟨casts'', hsub', hcollect'⟩ := hrest
          rw [if_pos hneed, map_append, ← append_assoc, ← append_assoc]
          exact ⟨casts'', Subset.trans hsub hsub', hcollect'⟩
        · rename_i hneed
          subst hrest
          rw [if_neg hneed, append_nil]
          exact ⟨casts', hsub, hcollect⟩
  · have hnil : s.castWrites index node.inputDefs [] = [] := by
      rw [castWrites]
      split <;> rfl
    rw [OutputsCast, hnil, append_nil, map_nil, append_nil]
    exact ⟨nofun, .refl _ _, rfl, rfl, casts, fun _ => id, h⟩

/-- What is replaced in a node. -/
def replaced (s : CastGraph) (index : NodeIndex) (node : GraphNode) :
    List (GraphArg × Bool) :=
  (s.castReads index node.inputDefs).map (·, false) ++
    (s.castWrites index node.inputDefs node.outputDefs).map (·, true)

def readsAt (s : CastGraph) (index : NodeIndex) : List GraphArg :=
  match s.graph.node index with
  | none => []
  | some node => s.castReads index node.inputDefs

def writesAt (s : CastGraph) (index : NodeIndex) : List GraphArg :=
  match s.graph.node index with
  | none => []
  | some node => s.castWrites index node.inputDefs node.outputDefs

/-- The loop after the nodes of `done`. -/
structure Looped (s : CastGraph) (known : TypeProto → Bool)
    (done : List NodeIndex) (casts : List AddedCast) (st : CastInsertion) :
    Prop where
  collecting : Collecting s (done.flatMap s.readsAt) (done.flatMap s.writesAt)
    [] casts { state := st }
  types : ∀ index ∈ done, ∀ node, s.graph.node index = some node →
    ∀ arg ∈ node.inputDefs ++ node.outputDefs, s.KnownType known arg
  rest : ∀ index < s.graph.nodes.length, index ∉ done →
    st.graph.node index = s.graph.node index ∧
    st.executionProviderType index = s.executionProviderType index
  treated : ∀ index ∈ done, ∀ node, s.graph.node index = some node →
    (∃ pairs, st.graph.node index = some (node.replaceDefs pairs) ∧
      Pairs casts (s.replaced index node) pairs) ∧
    st.executionProviderType index =
      if s.castReads index node.inputDefs = [] then
        s.executionProviderType index
      else cpuProviderType

theorem castReads_eq_nil (inputs : List GraphArg)
    (h : s.executionProviderType index ≠ "") :
    s.castReads index inputs = [] :=
  if_neg h

/-- Exactly the nodes with a cast input are CPU nodes afterwards. -/
theorem setProvider_spec {node : NodeCasts} {olds : List (GraphArg × Bool)}
    (hlt : index < s.graph.nodes.length)
    (h : Collecting s reads writes olds casts node)
    (hprovider : node.state.executionProviderType index =
      s.executionProviderType index)
    (hcasted : node.casted ↔ s.castReads index inputs ≠ []) :
    Collecting s reads writes olds casts (setProvider index node) ∧
    (setProvider index node).casted = node.casted ∧
    (setProvider index node).state.graph = node.state.graph ∧
    ∀ other, (setProvider index node).state.executionProviderType other =
        if other = index ∧ s.castReads index inputs ≠ [] then cpuProviderType
        else node.state.executionProviderType other := by
  rw [setProvider]
  split
  · rename_i hset
    have hreads := hcasted.mp hset.1
    refine ⟨⟨?_, h.shared, h.tally, h.pairs⟩, rfl, rfl, fun other => ?_⟩
    · refine h.inserting.congr rfl rfl (fun _ _ => rfl) (fun other hle => ?_)
        rfl rfl rfl rfl rfl
      exact update_of_ne (Nat.ne_of_gt (Nat.lt_of_lt_of_le hlt hle)) _ _
    · by_cases heq : other = index
      · subst heq
        rw [if_pos ⟨rfl, hreads⟩]
        exact update_self _ _ _
      · rw [if_neg fun hand => heq hand.1]
        exact update_of_ne heq _ _
  · rename_i hset
    refine ⟨h, rfl, rfl, fun other => ?_⟩
    rw [if_neg]
    rintro ⟨-, hreads⟩
    refine hset ⟨hcasted.mpr hreads, ?_⟩
    rw [hprovider]
    by_contra hassigned
    exact hreads (castReads_eq_nil inputs hassigned)

/-- The body of the loop for one more node. -/
theorem castNode_meets {done rest : List NodeIndex}
    (hargs : ∀ index node, s.graph.node index = some node →
      ∀ arg ∈ node.inputDefs ++ node.outputDefs,
        s.graph.getNodeArg arg.name = some arg)
    (hreads : order.flatMap s.readsAt ⊆ s.allReads)
    (hwrites : (order.flatMap s.writesAt).length ≤ s.allWrites.length)
    (horder : order = done ++ index :: rest) (hnew : index ∉ done)
    (hnode : s.graph.node index = some node) (h : Looped s known done casts st) :
    Meets (¬ s.Insertable known)
      (fun st' => ∃ casts', Looped s known (done ++ [index]) casts' st')
      (castNode known st index) := by
  have hlt := lt_length_of_node hnode
  obtain ⟨hsame, hprovider⟩ := h.rest index hlt hnew
  have hreadsAt : s.readsAt index = s.castReads index node.inputDefs := by
    rw [readsAt, hnode]
  have hwritesAt : s.writesAt index =
      s.castWrites index node.inputDefs node.outputDefs := by
    rw [writesAt, hnode]
  rw [horder, flatMap_append, flatMap_cons] at hreads hwrites
  rw [hreadsAt] at hreads
  rw [hwritesAt] at hwrites
  rw [castNode, hsame, hnode]
  refine (foldlM_castInput_meets hnode
    (fun arg harg => hargs index node hnode arg (mem_append_left _ harg))
    h.collecting hprovider (fun arg harg => hreads ?_) ?_).bind ?_
  · simp only [mem_append] at harg ⊢
    tauto
  · rw [length_append] at hwrites
    omega
  rintro inputs ⟨hknown, hsame₁, -, hcasted, casts₁, hsub₁, hcollect₁⟩
  obtain ⟨hcollect₂, hcasted₂, hgraph₂, hprovider₂⟩ := setProvider_spec hlt
    hcollect₁ ((hsame₁.provider index hlt).trans hprovider) hcasted
  refine (foldlM_castOutput_meets hnode (hargs index node hnode) hcollect₂
    (by rw [hcasted₂]; exact hcasted) (fun arg harg => hreads ?_) ?_).bind ?_
  · simp only [mem_append] at harg ⊢
    tauto
  · rw [length_append, length_append] at hwrites
    rw [length_append]
    omega
  rintro result ⟨hknown', hsame₃, -, -, casts₃, hsub₃, hcollect₃⟩
  have hsub : casts ⊆ casts₃ := Subset.trans hsub₁ hsub₃
  have hnodes : ∀ other < s.graph.nodes.length,
      (result.state.graph.modifyNode index
        (·.replaceDefs result.replacementDefs)).node other =
        if other = index then
          some (node.replaceDefs result.replacementDefs)
        else st.graph.node other := by
    intro other hother
    rw [node_modifyNode, hsame₃.node other hother, hgraph₂,
      hsame₁.node other hother]
    by_cases heq : other = index
    · rw [if_pos heq, if_pos heq.symm, heq, hsame, hnode]
      rfl
    · rw [if_neg heq, if_neg (Ne.symm heq)]
  have hproviders : ∀ other < s.graph.nodes.length,
      result.state.executionProviderType other =
        if other = index ∧ s.castReads index node.inputDefs ≠ [] then
          cpuProviderType
        else st.executionProviderType other := by
    intro other hother
    rw [hsame₃.provider other hother, hprovider₂, hsame₁.provider other hother]
  refine ⟨casts₃, ⟨?_, hcollect₃.shared, ?_, .start _⟩, ?_, ?_, ?_⟩
  · refine hcollect₃.inserting.congr rfl (length_modify ..)
      (fun other hle => ?_) (fun _ _ => rfl) rfl rfl rfl rfl rfl
    rw [node_modifyNode, if_neg]
    exact Nat.ne_of_lt (Nat.lt_of_lt_of_le hlt hle)
  · rw [flatMap_append, flatMap_singleton, hreadsAt,
      flatMap_append, flatMap_singleton, hwritesAt]
    exact hcollect₃.tally
  · intro other hother node' hnode' arg harg
    rcases mem_append.mp hother with hbefore | hlast
    · exact h.types other hbefore node' hnode' arg harg
    · rw [mem_singleton.mp hlast, hnode] at hnode'
      cases hnode'
      exact (mem_append.mp harg).elim (hknown arg) (hknown' arg)
  · intro other hother hout
    rw [mem_append, mem_singleton, not_or] at hout
    obtain ⟨hnode', hprovider'⟩ := h.rest other hother hout.1
    exact ⟨((hnodes other hother).trans (if_neg hout.2)).trans hnode',
      ((hproviders other hother).trans
        (if_neg fun hand => hout.2 hand.1)).trans hprovider'⟩
  · intro other hother node' hnode'
    have hlt' := lt_length_of_node hnode'
    rcases mem_append.mp hother with hbefore | hlast
    · have hne : other ≠ index := fun heq => hnew (heq ▸ hbefore)
      obtain ⟨⟨pairs, hat, hpairs⟩, hprovider'⟩ :=
        h.treated other hbefore node' hnode'
      refine ⟨⟨pairs, ((hnodes other hlt').trans (if_neg hne)).trans hat,
        hpairs.mono hsub⟩, ?_⟩
      exact ((hproviders other hlt').trans
        (if_neg fun hand => hne hand.1)).trans hprovider'
    · obtain rfl := mem_singleton.mp hlast
      rw [hnode] at hnode'
      cases hnode'
      refine ⟨⟨_, (hnodes other hlt').trans (if_pos rfl), hcollect₃.pairs⟩, ?_⟩
      rw [hproviders other hlt', hprovider]
      by_cases hnil : s.castReads other node.inputDefs = []
      · rw [if_neg fun hand => hand.2 hnil, if_pos hnil]
      · rw [if_pos ⟨rfl, hnil⟩, if_neg hnil]

theorem mem_allReads :
    arg ∈ s.allReads ↔ ∃ index node, s.graph.node index = some node ∧
      arg ∈ s.castReads index node.inputDefs := by
  rw [allReads, mem_flatMap]
  constructor
  · rintro ⟨⟨index, node⟩, hentry, harg⟩
    exact ⟨index, node, mem_liveNodes.mp hentry, harg⟩
  · rintro ⟨index, node, hnode, harg⟩
    exact ⟨(index, node), mem_liveNodes.mpr hnode, harg⟩

section

variable (horder : s.graph.TopologicalOrder order)
include horder

theorem mem_flatMap_readsAt :
    arg ∈ order.flatMap s.readsAt ↔ arg ∈ s.allReads := by
  rw [mem_allReads, mem_flatMap]
  constructor
  · rintro ⟨index, -, harg⟩
    rw [readsAt] at harg
    cases hnode : s.graph.node index with
    | none =>
      rw [hnode] at harg
      cases harg
    | some node =>
      rw [hnode] at harg
      exact ⟨index, node, hnode, harg⟩
  · rintro ⟨index, node, hnode, harg⟩
    refine ⟨index, (horder.mem_iff index).mpr (by rw [hnode]; rfl), ?_⟩
    rwa [readsAt, hnode]

/-- A list of all live indices counts the same writes as the graph. -/
theorem length_flatMap_writesAt :
    (order.flatMap s.writesAt).length = s.allWrites.length := by
  have hperm : order.Perm s.graph.liveIndices :=
    (perm_ext_iff_of_nodup horder.nodup nodup_liveIndices).mpr
      fun index => by rw [horder.mem_iff, mem_liveIndices]
  rw [(hperm.flatMap_right s.writesAt).length_eq, liveIndices, flatMap_map]
  refine congrArg List.length (flatMap_congr fun entry hentry => ?_)
  rw [writesAt, mem_liveNodes.mp hentry]

theorem Looped.length_eq (h : Looped s known order casts st) :
    casts.length = s.castsNeeded := by
  have hdedup : (order.flatMap s.readsAt).dedup.Perm s.allReads.dedup := by
    rw [perm_ext_iff_of_nodup (nodup_dedup _) (nodup_dedup _)]
    intro arg
    rw [mem_dedup, mem_dedup, mem_flatMap_readsAt horder]
  rw [h.collecting.tally.length_eq, hdedup.length_eq,
    length_flatMap_writesAt horder, castsNeeded]

end

/-- The whole loop. -/
theorem insertCasts_meets
    (hargs : ∀ index node, s.graph.node index = some node →
      ∀ arg ∈ node.inputDefs ++ node.outputDefs,
        s.graph.getNodeArg arg.name = some arg)
    (hpointers : (s.graph.nodeArgs.map (·.pointer)).Nodup)
    (hmirrored : s.graph.Mirrored) (hacyclic : s.graph.Acyclic) :
    Meets (¬ s.Insertable known)
      (fun st => ∃ order casts, s.graph.TopologicalOrder order ∧
        Looped s known order casts st)
      (s.insertCasts known) := by
  obtain ⟨viewer, hviewer, horder⟩ :=
    graphViewer_sorts hmirrored hacyclic
  have hloop : Meets (¬ s.Insertable known)
      (fun st => ∃ casts,
        Looped s known viewer.nodesInTopologicalOrder casts st)
      (viewer.nodesInTopologicalOrder.foldlM (castNode known)
        { toCastGraph := s }) := by
    apply foldlM_meets (motive := fun done st => ∃ casts,
      Looped s known done casts st)
    · rintro done index rest hsplit st ⟨casts, h⟩
      have hmem : index ∈ viewer.nodesInTopologicalOrder := by simp [hsplit]
      obtain ⟨node, hnode⟩ := Option.isSome_iff_exists.mp
        ((horder.mem_iff index).mp hmem)
      have hnew : index ∉ done := by
        have hnodup := horder.nodup
        rw [hsplit, nodup_append] at hnodup
        exact fun hdone => hnodup.2.2 index hdone index mem_cons_self rfl
      exact castNode_meets hargs
        (fun arg harg => (mem_flatMap_readsAt horder).mp harg)
        (Nat.le_of_eq (length_flatMap_writesAt horder)) hsplit hnew hnode h
    · refine ⟨[], ⟨.start hpointers, by simp, ⟨nodup_nil, by simp, rfl⟩,
        .start _⟩, nofun, fun _ _ _ => ⟨rfl, rfl⟩, nofun⟩
  rw [insertCasts, hviewer]
  exact hloop.imp id fun st ⟨casts, h⟩ => ⟨_, casts, horder, h⟩

end CastGraph

end OnnxRuntime
