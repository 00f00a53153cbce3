/-
Which node decides to which device a feed is copied: the mapping from input
names to their readers.  The error for readers on different devices is made and
not returned.
-/
import OnnxRuntime.NamedGraphs

namespace OnnxRuntime

open Function List

variable {τ : Type}

/-- A use of an input: by a slot of a node, by the subgraph of a node, or none
at all.  For the last two the index is the largest `size_t`, and for the last
the node is a null pointer. -/
inductive NodeInfo where
  | explicit (index : Nat) (node : NodeIndex)
  | implicit (node : NodeIndex)
  | unused
deriving Repr, DecidableEq

def NodeInfo.isExplicit : NodeInfo → Bool
  | .explicit _ _ => true
  | _ => false

abbrev NameNodeInfoMap := String → List NodeInfo

/-- The two mappings of a `SessionState`; a name without an entry has no
uses. -/
structure NameMappings where
  inputNames : NameNodeInfoMap := fun _ => []
  outputNames : NameNodeInfoMap := fun _ => []

/-- `arg->Name()` is read of each entry up to the first hit. -/
def isArgNameInInputsOutputs (name : String) :
    List (Option GraphArg) → Except Failure Bool
  | [] => .ok false
  | none :: _ => .error .nullDereference
  | some arg :: rest =>
    if arg.name = name then .ok true else isArgNameInInputsOutputs name rest

namespace PlacedGraph

variable (s : PlacedGraph τ)

/-- There is none to be asked of an unused input. -/
def getNodeInputProviderType : NodeInfo → Option String
  | .explicit index node =>
    some (if s.inputOnCpu node index then cpuProviderType
      else s.executionProviderType node)
  | .implicit node => some (s.executionProviderType node)
  | .unused => none

/-- What one more use does to the entries of its name. -/
def addEntry (entries : List NodeInfo) (info : NodeInfo) : List NodeInfo :=
  match entries with
  | [] => [info]
  | existing :: rest =>
    if ¬ info.isExplicit then existing :: rest
    else if ¬ existing.isExplicit then info :: rest
    else if s.getNodeInputProviderType existing =
        s.getNodeInputProviderType info then existing :: rest ++ [info]
    -- The status that is made here is not assigned to anything.
    else existing :: rest

def addInputNameToNodeInfoMapping (mapping : NameNodeInfoMap)
    (use : String × NodeInfo) : NameNodeInfoMap :=
  Function.update mapping use.1 (s.addEntry (mapping use.1) use.2)

def addOutputNameToNodeInfoMapping (mapping : NameNodeInfoMap)
    (use : String × NodeInfo) : NameNodeInfoMap :=
  Function.update mapping use.1 (mapping use.1 ++ [use.2])

variable (implicitInputs : List GraphArg)

/-- The callback for one input of a node. -/
def mapInput (node : NodeIndex) (maps : NameMappings)
    (input : GraphArg × Nat) : Except Failure NameMappings :=
  if input.1.Exists then do
    let use := (input.1.name, NodeInfo.explicit input.2 node)
    if ← isArgNameInInputsOutputs input.1.name
        s.graph.inputsOutputs.inputsIncludingInitializers then
      return { maps with inputNames :=
        s.addInputNameToNodeInfoMapping maps.inputNames use }
    else if input.1.name ∈ implicitInputs.map GraphArg.name then
      return { maps with inputNames :=
        s.addInputNameToNodeInfoMapping maps.inputNames use }
    else if ← isArgNameInInputsOutputs input.1.name
        s.graph.inputsOutputs.outputs then
      return { maps with outputNames :=
        addOutputNameToNodeInfoMapping maps.outputNames use }
    else return maps
  else return maps

def implicitUses (entry : NodeIndex × GraphNode) : List (String × NodeInfo) :=
  entry.2.implicitInputDefs.map fun arg => (arg.name, .implicit entry.1)

def mapNode (maps : NameMappings) (entry : NodeIndex × GraphNode) :
    Except Failure NameMappings := do
  let maps ← entry.2.inputDefs.zipIdx.foldlM
    (s.mapInput implicitInputs entry.1) maps
  let inputNames := (implicitUses entry).foldl
    s.addInputNameToNodeInfoMapping maps.inputNames
  return { maps with inputNames := inputNames }

/-- A graph input that has no entry yet gets a dummy one. -/
def mapUnused (maps : NameMappings) (input : Option GraphArg) :
    Except Failure NameMappings :=
  match input with
  | none => .error .nullDereference
  | some arg =>
    if maps.inputNames arg.name = [] then
      .ok { maps with inputNames :=
        s.addInputNameToNodeInfoMapping maps.inputNames (arg.name, .unused) }
    else .ok maps

def saveInputOutputNamesToNodeMapping : Except Failure NameMappings := do
  let maps ← s.graph.liveNodes.foldlM (s.mapNode implicitInputs) {}
  s.graph.inputsOutputs.inputsIncludingInitializers.foldlM s.mapUnused maps

/-- The name is that of a graph input or of a value of the outer scope. -/
def IsFeed (name : String) : Prop :=
  name ∈ s.graph.inputsOutputs.inputsIncludingInitializers.filterMap
      (Option.map GraphArg.name) ∨
    name ∈ implicitInputs.map GraphArg.name

instance IsFeed.decidable (name : String) :
    Decidable (s.IsFeed implicitInputs name) :=
  inferInstanceAs (Decidable (_ ∨ _))

/-- The slot of the node reads the value of that name. -/
def ReadsExplicitly (name : String) : NodeInfo → Prop
  | .explicit index node => ∃ reader arg, s.graph.node node = some reader ∧
      reader.inputDefs[index]? = some arg ∧ arg.Exists ∧ arg.name = name
  | _ => False

/-- An input that two nodes need on different devices is refused, and otherwise
an explicit reader comes first and all recorded ones agree with it. -/
structure RefusesTwoDevices : Prop where
  refused : ∀ name, s.IsFeed implicitInputs name →
    ∀ info other, s.ReadsExplicitly name info → s.ReadsExplicitly name other →
      s.getNodeInputProviderType info ≠ s.getNodeInputProviderType other →
      ∃ code message, s.saveInputOutputNamesToNodeMapping implicitInputs =
        .error (.status code message)
  recorded : ∀ maps,
    s.saveInputOutputNamesToNodeMapping implicitInputs = .ok maps →
    ∀ name, s.IsFeed implicitInputs name →
      (∃ info, s.ReadsExplicitly name info) →
      (∃ first rest, maps.inputNames name = first :: rest ∧
        s.ReadsExplicitly name first) ∧
      ∀ info ∈ maps.inputNames name, ∀ other ∈ maps.inputNames name,
        info.isExplicit → other.isExplicit →
        s.getNodeInputProviderType info = s.getNodeInputProviderType other

end PlacedGraph

section Entries

variable {s : PlacedGraph τ}

/-- What uses in this order leave behind: the first explicit one and those that
agree with it, or else the first use. -/
def PlacedGraph.recordedEntries (s : PlacedGraph τ) (uses : List NodeInfo) :
    List NodeInfo :=
  match uses.filter NodeInfo.isExplicit with
  | [] => uses.take 1
  | first :: rest => first :: rest.filter fun info =>
    s.getNodeInputProviderType first = s.getNodeInputProviderType info

theorem PlacedGraph.addEntry_recordedEntries (uses : List NodeInfo)
    (info : NodeInfo) :
    s.addEntry (s.recordedEntries uses) info =
      s.recordedEntries (uses ++ [info]) := by
  have hfilter : (uses ++ [info]).filter NodeInfo.isExplicit =
      uses.filter NodeInfo.isExplicit ++
        if info.isExplicit then [info] else [] := by
    rw [filter_append, filter_singleton]
    cases info.isExplicit <;> rfl
  rw [recordedEntries, recordedEntries, hfilter]
  cases hexplicit : uses.filter NodeInfo.isExplicit with
  | nil =>
    cases uses with
    | nil => cases hinfo : info.isExplicit <;> simp [addEntry]
    | cons first rest =>
      have hfirst : first.isExplicit = false := by
        by_contra hne
        have hmem : first ∈ (first :: rest).filter NodeInfo.isExplicit :=
          mem_filter.2 ⟨mem_cons_self, by simpa using hne⟩
        rw [hexplicit] at hmem
        exact absurd hmem not_mem_nil
      cases hinfo : info.isExplicit <;> simp [addEntry, hinfo, hfirst]
  | cons first rest =>
    have hfirst : first.isExplicit = true := by
      have hmem : first ∈ uses.filter NodeInfo.isExplicit := by
        rw [hexplicit]
        exact mem_cons_self
      exact (mem_filter.1 hmem).2
    cases hinfo : info.isExplicit with
    | false => simp [addEntry, hinfo]
    | true =>
      by_cases hsame : s.getNodeInputProviderType first =
          s.getNodeInputProviderType info <;>
        simp [addEntry, hinfo, hfirst, hsame]

/-- The uses of one name. -/
def usesOf (name : String) (uses : List (String × NodeInfo)) : List NodeInfo :=
  (uses.filter fun use => use.1 = name).map Prod.snd

variable {info : NodeInfo} {uses : List NodeInfo}

theorem mem_usesOf {name : String} {uses : List (String × NodeInfo)} :
    info ∈ usesOf name uses ↔ (name, info) ∈ uses := by
  simp [usesOf]

/-- Whatever the order of the uses, each name has the entries that are recorded
for its own. -/
theorem PlacedGraph.foldl_addInputName (uses : List (String × NodeInfo))
    (name : String) :
    uses.foldl s.addInputNameToNodeInfoMapping (fun _ => []) name =
      s.recordedEntries (usesOf name uses) := by
  induction uses using reverseRecOn with
  | nil => rfl
  | append_singleton uses use ih =>
    rw [foldl_append, foldl_cons, foldl_nil, addInputNameToNodeInfoMapping,
      usesOf, filter_append, map_append, ← usesOf]
    by_cases hname : use.1 = name
    · subst hname
      rw [ih, addEntry_recordedEntries]
      simp
    · rw [update_of_ne (Ne.symm hname), ih]
      simp [hname]

theorem PlacedGraph.mem_of_mem_recordedEntries
    (h : info ∈ s.recordedEntries uses) : info ∈ uses := by
  rw [recordedEntries] at h
  cases hexplicit : uses.filter NodeInfo.isExplicit with
  | nil =>
    rw [hexplicit] at h
    exact mem_of_mem_take h
  | cons first rest =>
    rw [hexplicit] at h
    have hmem : info ∈ uses.filter NodeInfo.isExplicit := by
      rw [hexplicit]
      rcases mem_cons.1 h with rfl | h
      · exact mem_cons_self
      · exact mem_cons_of_mem _ (mem_filter.1 h).1
    exact (mem_filter.1 hmem).1

/-- With an explicit use, an explicit one comes first and all agree. -/
theorem PlacedGraph.recordedEntries_of_explicit (hinfo : info ∈ uses)
    (hexplicit : info.isExplicit) :
    ∃ first rest, s.recordedEntries uses = first :: rest ∧
      first.isExplicit ∧ ∀ other ∈ s.recordedEntries uses,
        s.getNodeInputProviderType first =
          s.getNodeInputProviderType other := by
  rw [recordedEntries]
  cases hfilter : uses.filter NodeInfo.isExplicit with
  | nil =>
    have hmem := mem_filter.2 ⟨hinfo, hexplicit⟩
    rw [hfilter] at hmem
    exact absurd hmem not_mem_nil
  | cons first rest =>
    refine ⟨first, _, rfl, ?_, fun other hother => ?_⟩
    · have hmem : first ∈ uses.filter NodeInfo.isExplicit := by
        rw [hfilter]
        exact mem_cons_self
      exact (mem_filter.1 hmem).2
    · rcases mem_cons.1 hother with rfl | hother
      · rfl
      · simpa using (mem_filter.1 hother).2

end Entries

namespace PlacedGraph

variable {s : PlacedGraph τ} {implicitInputs : List GraphArg} {name : String}
  {maps maps' : NameMappings} {info : NodeInfo}

theorem isArgName_eq_ok {args : List (Option GraphArg)} {found : Bool}
    (h : isArgNameInInputsOutputs name args = .ok found) :
    found = true ↔ name ∈ args.filterMap (Option.map GraphArg.name) := by
  induction args with
  | nil =>
    cases h
    simp
  | cons arg rest ih =>
    cases arg with
    | none => cases h
    | some arg =>
      rw [isArgNameInInputsOutputs] at h
      split at h
      · rename_i hname
        cases h
        simp [hname]
      · rename_i hname
        rw [ih h]
        simp [Ne.symm hname]

theorem noStatus_isArgName (name : String) (args : List (Option GraphArg)) :
    NoStatus (isArgNameInInputsOutputs name args) := by
  induction args with
  | nil => exact .ok _
  | cons arg rest ih =>
    cases arg with
    | none => exact .error id
    | some arg =>
      rw [isArgNameInInputsOutputs]
      split
      · exact .ok _
      · exact ih

theorem noStatus_mapInput (node : NodeIndex) (maps : NameMappings)
    (input : GraphArg × Nat) :
    NoStatus (s.mapInput implicitInputs node maps input) := by
  rw [mapInput]
  split
  · refine (noStatus_isArgName _ _).bind fun found => ?_
    split
    · exact .ok _
    · split
      · exact .ok _
      · refine (noStatus_isArgName _ _).bind fun found => ?_
        split <;> exact .ok _
  · exact .ok _

/-- Nothing on the way hands back a status: the call succeeds or uses a null
pointer. -/
theorem noStatus_save :
    NoStatus (s.saveInputOutputNamesToNodeMapping implicitInputs) := by
  refine (FailsAs.foldlM _ (fun maps entry => ?_) _).bind fun maps =>
    FailsAs.foldlM _ (fun maps input => ?_) maps
  · exact (FailsAs.foldlM _ (noStatus_mapInput _) maps).bind fun _ => .ok _
  · cases input with
    | none => exact .error id
    | some arg =>
      rw [mapUnused]
      split <;> exact .ok _

/-- The explicit uses one input of a node registers. -/
def explicitUses (s : PlacedGraph τ) (implicitInputs : List GraphArg)
    (node : NodeIndex) (input : GraphArg × Nat) : List (String × NodeInfo) :=
  if input.1.Exists ∧ s.IsFeed implicitInputs input.1.name then
    [(input.1.name, .explicit input.2 node)]
  else []

theorem inputNames_mapInput {node : NodeIndex} {input : GraphArg × Nat}
    (h : s.mapInput implicitInputs node maps input = .ok maps') :
    maps'.inputNames = (s.explicitUses implicitInputs node input).foldl
      s.addInputNameToNodeInfoMapping maps.inputNames := by
  rw [mapInput] at h
  rw [explicitUses]
  split at h
  · rename_i hexists
    obtain ⟨found, hfound, h⟩ := except_bind_eq_ok.mp h
    have hiff := isArgName_eq_ok hfound
    split at h
    · rename_i htrue
      cases h
      rw [if_pos ⟨hexists, .inl (hiff.1 htrue)⟩]
      rfl
    · rename_i hfalse
      split at h
      · rename_i houter
        cases h
        rw [if_pos ⟨hexists, .inr houter⟩]
        rfl
      · rename_i houter
        rw [if_neg fun hfeed => Or.elim hfeed.2
          (fun hinput => hfalse (hiff.2 hinput)) houter]
        obtain ⟨out, -, h⟩ := except_bind_eq_ok.mp h
        split at h <;> cases h <;> rfl
  · rename_i hexists
    cases h
    rw [if_neg fun hfeed => hexists hfeed.1]
    rfl

/-- The uses a node registers. -/
def nodeUses (s : PlacedGraph τ) (implicitInputs : List GraphArg)
    (entry : NodeIndex × GraphNode) : List (String × NodeInfo) :=
  entry.2.inputDefs.zipIdx.flatMap (s.explicitUses implicitInputs entry.1) ++
    implicitUses entry

theorem inputNames_mapNode {entry : NodeIndex × GraphNode}
    (h : s.mapNode implicitInputs maps entry = .ok maps') :
    maps'.inputNames = (s.nodeUses implicitInputs entry).foldl
      s.addInputNameToNodeInfoMapping maps.inputNames := by
  obtain ⟨mid, hmid, h⟩ := except_bind_eq_ok.mp h
  cases h
  have hexplicit := foldlM_projects NameMappings.inputNames
    (s.explicitUses implicitInputs entry.1) s.addInputNameToNodeInfoMapping
    (fun _ _ _ _ => inputNames_mapInput) hmid
  rw [nodeUses, foldl_append, ← hexplicit]

/-- A dummy entry takes nothing away. -/
theorem inputNames_mapUnused {input : Option GraphArg}
    (h : s.mapUnused maps input = .ok maps')
    (hname : maps.inputNames name ≠ []) :
    maps'.inputNames name = maps.inputNames name := by
  cases input with
  | none => cases h
  | some arg =>
    rw [mapUnused] at h
    split at h
    · rename_i hempty
      cases h
      refine update_of_ne (fun heq => hname ?_) _ _
      rw [heq, hempty]
    · cases h
      rfl

theorem isExplicit_of_reads (h : s.ReadsExplicitly name info) :
    info.isExplicit := by
  cases info with
  | explicit index node => rfl
  | implicit node => cases h
  | unused => cases h

/-- The explicit uses that are registered are the reads of the inputs. -/
theorem mem_nodeUses (hexplicit : info.isExplicit) :
    (name, info) ∈ s.graph.liveNodes.flatMap (s.nodeUses implicitInputs) ↔
      s.IsFeed implicitInputs name ∧ s.ReadsExplicitly name info := by
  cases info with
  | implicit node => cases hexplicit
  | unused => cases hexplicit
  | explicit index node =>
    simp only [mem_flatMap, nodeUses, mem_append, explicitUses, implicitUses,
      mem_map, Prod.exists, Graph.mem_liveNodes, mem_zipIdx_iff_getElem?]
    constructor
    · rintro ⟨other, reader, hreader, ⟨arg, slot, harg, hmem⟩ | himplicit⟩
      · split at hmem
        · rename_i hfeed
          cases mem_singleton.1 hmem
          exact ⟨hfeed.2, reader, arg, hreader, harg, hfeed.1, rfl⟩
        · exact absurd hmem not_mem_nil
      · obtain ⟨arg, -, heq⟩ := himplicit
        cases heq
    · rintro ⟨hfeed, reader, arg, hreader, harg, hexists, rfl⟩
      refine ⟨node, reader, hreader, .inl ⟨arg, index, harg, ?_⟩⟩
      rw [if_pos ⟨hexists, hfeed⟩]
      exact mem_singleton_self _

section

variable (h : s.saveInputOutputNamesToNodeMapping implicitInputs = .ok maps)
    (hfeed : s.IsFeed implicitInputs name)
include h hfeed

/-- The entries of an input that is read explicitly. -/
theorem inputNames_save (hreads : s.ReadsExplicitly name info) :
    maps.inputNames name = s.recordedEntries (usesOf name
      (s.graph.liveNodes.flatMap (s.nodeUses implicitInputs))) := by
  obtain ⟨mid, hmid, hunused⟩ := except_bind_eq_ok.mp h
  have hnodes := foldlM_projects NameMappings.inputNames
    (s.nodeUses implicitInputs) s.addInputNameToNodeInfoMapping
    (fun _ _ _ _ => inputNames_mapNode) hmid
  have hentries : mid.inputNames name = s.recordedEntries (usesOf name
      (s.graph.liveNodes.flatMap (s.nodeUses implicitInputs))) := by
    rw [hnodes]
    exact foldl_addInputName _ name
  have hexplicit := isExplicit_of_reads hreads
  obtain ⟨first, rest, hfirst, -⟩ := recordedEntries_of_explicit (s := s)
    (mem_usesOf.2 ((mem_nodeUses hexplicit).2 ⟨hfeed, hreads⟩)) hexplicit
  have hne : mid.inputNames name ≠ [] := by
    rw [hentries, hfirst]
    exact cons_ne_nil first rest
  rw [← hentries]
  exact (foldlM_preserves (motive := fun maps : NameMappings =>
    maps.inputNames name = mid.inputNames name) (fun t t' x _ ht hstep =>
      (inputNames_mapUnused hstep (ht ▸ hne)).trans ht) rfl hunused)

/-- What is recorded of an input is right whatever the placement. -/
theorem recorded_of_save (hreads : ∃ info, s.ReadsExplicitly name info) :
    (∃ first rest, maps.inputNames name = first :: rest ∧
      s.ReadsExplicitly name first) ∧
    ∀ info ∈ maps.inputNames name, ∀ other ∈ maps.inputNames name,
      s.getNodeInputProviderType info = s.getNodeInputProviderType other := by
  obtain ⟨info, hinfo⟩ := hreads
  have hexplicit := isExplicit_of_reads hinfo
  rw [inputNames_save h hfeed hinfo]
  obtain ⟨first, rest, hfirst, hfirstExplicit, hagree⟩ :=
    recordedEntries_of_explicit (s := s)
      (mem_usesOf.2 ((mem_nodeUses hexplicit).2 ⟨hfeed, hinfo⟩)) hexplicit
  refine ⟨⟨first, rest, hfirst, ?_⟩, fun info hinfo other hother => ?_⟩
  · have hmem : first ∈ s.recordedEntries (usesOf name
        (s.graph.liveNodes.flatMap (s.nodeUses implicitInputs))) := by
      rw [hfirst]
      exact mem_cons_self
    exact ((mem_nodeUses hfirstExplicit).1
      (mem_usesOf.1 (mem_of_mem_recordedEntries hmem))).2
  · exact (hagree info hinfo).symm.trans (hagree other hother)

end

/-- Readers on different devices are never refused, so all is well exactly when
the explicit readers of each input agree. -/
theorem refusesTwoDevices_iff (s : PlacedGraph τ)
    (implicitInputs : List GraphArg) :
    s.RefusesTwoDevices implicitInputs ↔
      ∀ name, s.IsFeed implicitInputs name → ∀ info other,
        s.ReadsExplicitly name info → s.ReadsExplicitly name other →
        s.getNodeInputProviderType info = s.getNodeInputProviderType other := by
  constructor
  · intro h name hfeed info other hinfo hother
    by_contra hne
    obtain ⟨code, message, hstatus⟩ :=
      h.refused name hfeed info other hinfo hother hne
    exact noStatus_save _ hstatus trivial
  · intro hagree
    refine ⟨fun name hfeed info other hinfo hother hne =>
      absurd (hagree name hfeed info other hinfo hother) hne, ?_⟩
    intro maps hmaps name hfeed hreads
    obtain ⟨hfirst, hagree⟩ := recorded_of_save hmaps hfeed hreads
    exact ⟨hfirst, fun info hinfo other hother _ _ =>
      hagree info hinfo other hother⟩

section Example

/-- The input of a graph is read by a node on the CPU and by one on a GPU. -/
def twoDevices : PlacedGraph Unit where
  graph := {
    nodes := [
      some { name := "host", opType := "Relu", inputDefs := [⟨0, "x"⟩],
             outputDefs := [⟨1, "y"⟩] },
      some { name := "device", opType := "Relu", inputDefs := [⟨0, "x"⟩],
             outputDefs := [⟨2, "z"⟩] }]
    numOfNodes := 2
    nodeArgs := [⟨0, "x"⟩, ⟨1, "y"⟩, ⟨2, "z"⟩]
    inputsOutputs := {
      inputsIncludingInitializers := [some ⟨0, "x"⟩]
      inputs := [⟨0, "x"⟩]
      outputs := [some ⟨1, "y"⟩, some ⟨2, "z"⟩] } }
  executionProviderType index :=
    if index = 0 then cpuProviderType else "CUDAExecutionProvider"
  kernelDef _ := none
  initializers := {}

/-- The mapping is made, and the second reader is left out of it. -/
theorem not_refusesTwoDevices_twoDevices :
    ¬ twoDevices.RefusesTwoDevices [] := by
  intro h
  obtain ⟨code, message, hstatus⟩ := h.refused "x" (by decide)
    (.explicit 0 0) (.explicit 0 1) ⟨_, _, rfl, rfl, by decide, rfl⟩
    ⟨_, _, rfl, rfl, by decide, rfl⟩ (by decide)
  exact noStatus_save _ hstatus trivial

end Example

end PlacedGraph

end OnnxRuntime
