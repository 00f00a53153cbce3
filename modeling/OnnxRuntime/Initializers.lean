/-
The initializers of a graph live twice: in the repeated field of the proto and
in a map from names to entries of it.  What saving the graph writes.
-/
import OnnxRuntime.ExceptRuns
import Mathlib.Data.List.Nodup

namespace OnnxRuntime

open List Option Function

variable {τ : Type}

/-- A `TensorProto`: its name, and everything else of it. -/
structure NamedTensor (τ : Type) where
  name : String
  value : τ
deriving Repr, DecidableEq

/-- The initializers of a graph.  The map holds pointers to entries of the
proto's field, here their positions. -/
structure GraphInitializers (τ : Type) where
  initializer : List (NamedTensor τ) := []
  nameToInitialTensor : String → Option Nat := fun _ => none
  removedInitializerIndexes : List Nat := []
  graphProtoSyncNeeded : Bool := false

namespace GraphInitializers

variable (s : GraphInitializers τ)

/-- A later entry of a name replaces an earlier one. -/
def mapEntry (map : String → Option Nat) (tensor : NamedTensor τ × Nat) :
    String → Option Nat :=
  Function.update map tensor.1.name (some tensor.2)

/-- What the constructor of a graph takes from a proto: its initializers, and
the values of its `Constant` nodes, which it turns into initializers. -/
def load (tensors constants : List (NamedTensor τ)) : GraphInitializers τ where
  initializer := tensors ++ constants
  nameToInitialTensor :=
    (tensors ++ constants).zipIdx.foldl mapEntry fun _ => none

def getInitializedTensor (name : String) : Option (NamedTensor τ) :=
  (s.nameToInitialTensor name).bind fun index => s.initializer[index]?

def addInitializedTensor (tensor : NamedTensor τ) : GraphInitializers τ :=
  if (s.nameToInitialTensor tensor.name).isSome then s
  else { s with
    initializer := s.initializer ++ [tensor]
    nameToInitialTensor := Function.update s.nameToInitialTensor tensor.name
      (some s.initializer.length)
    graphProtoSyncNeeded := true }

def removeInitializedTensor (name : String) : GraphInitializers τ :=
  if (s.nameToInitialTensor name).isSome then
    { s with
      nameToInitialTensor := Function.update s.nameToInitialTensor name none
      graphProtoSyncNeeded := true }
  else s

/-- `used` are the inputs and outputs of the graph and what its nodes read. -/
def cleanUnusedInitializers (used : List String) : GraphInitializers τ :=
  { s with nameToInitialTensor := fun name =>
      if name ∈ used then s.nameToInitialTensor name else none }

section Saving

/-- Entries that were removed go from the end of the field as long as the last
one is among them. -/
def dropRemoved (removed : List Nat) (tensors : List (NamedTensor τ)) :
    List Nat × List (NamedTensor τ) :=
  match _hlast : removed.getLast? with
  | none => ([], tensors)
  | some last =>
    if tensors.length = last + 1 then
      dropRemoved removed.dropLast tensors.dropLast
    else (removed, tensors)
termination_by removed.length
decreasing_by
  have hne : removed ≠ [] := by
    rintro rfl
    cases _hlast
  rw [List.length_dropLast]
  exact Nat.sub_lt (List.length_pos_iff.mpr hne) Nat.one_pos

theorem length_dropRemoved_le (removed : List Nat)
    (tensors : List (NamedTensor τ)) :
    (dropRemoved removed tensors).1.length ≤ removed.length := by
  fun_induction dropRemoved removed tensors with
  | case1 => exact Nat.zero_le _
  | case2 removed tensors last hlast hlength ih =>
    rw [length_dropLast] at ih
    omega
  | case3 => exact Nat.le_refl _

/-- The last entry in use is moved to the first place that was removed. -/
def moveInitializers (removed : List Nat) (tensors : List (NamedTensor τ)) :
    List (NamedTensor τ) :=
  match _hdrop : dropRemoved removed tensors with
  | ([], kept) => kept
  | (first :: rest, kept) =>
    match kept.getLast? with
    | none => moveInitializers rest kept
    | some last => moveInitializers rest (kept.set first last).dropLast
termination_by removed.length
decreasing_by
  all_goals
    have hle := length_dropRemoved_le removed tensors
    rw [_hdrop, List.length_cons] at hle
    omega

/-- The initializers in what `ToGraphProto` returns. -/
def toGraphProto : List (NamedTensor τ) :=
  if ¬ s.graphProtoSyncNeeded then s.initializer
  else if s.removedInitializerIndexes = [] then s.initializer
  else moveInitializers (s.removedInitializerIndexes.mergeSort (· ≤ ·))
    s.initializer

end Saving

/-- A saved graph has every initializer once, with its value and nothing else,
so that loading it gives the same map. -/
structure Saved (s : GraphInitializers τ) : Prop where
  once : (s.toGraphProto.map (·.name)).Nodup
  mem_iff : ∀ tensor, tensor ∈ s.toGraphProto ↔
    s.getInitializedTensor tensor.name = some tensor
  reload : ∀ name, (load s.toGraphProto []).getInitializedTensor name =
    s.getInitializedTensor name

variable {s}

/-- The map points to entries of its names, and nothing was recorded for
compaction. -/
structure Valid (s : GraphInitializers τ) : Prop where
  entry : ∀ name index, s.nameToInitialTensor name = some index →
    ∃ tensor, s.initializer[index]? = some tensor ∧ tensor.name = name
  none_removed : s.removedInitializerIndexes = []

/-- Every entry of the field is the one of its name. -/
structure Complete (s : GraphInitializers τ) : Prop where
  nodup : (s.initializer.map (·.name)).Nodup
  mapped : ∀ tensor ∈ s.initializer, (s.nameToInitialTensor tensor.name).isSome

theorem Valid.toGraphProto_eq (h : s.Valid) : s.toGraphProto = s.initializer := by
  rw [toGraphProto, h.none_removed]
  split
  · rfl
  · exact if_pos rfl

variable {name : String} {tensor : NamedTensor τ}

theorem Valid.getInitializedTensor_isSome (h : s.Valid) :
    (∃ tensor, s.getInitializedTensor name = some tensor) ↔
      (s.nameToInitialTensor name).isSome := by
  rw [getInitializedTensor]
  cases hmap : s.nameToInitialTensor name with
  | none => simp
  | some index =>
    obtain ⟨tensor, hget, -⟩ := h.entry name index hmap
    simp [hget]

theorem Valid.mem_of_getInitializedTensor (h : s.Valid)
    (hget : s.getInitializedTensor name = some tensor) :
    tensor ∈ s.initializer ∧ tensor.name = name := by
  obtain ⟨index, hindex, htensor⟩ := bind_eq_some_iff.mp hget
  obtain ⟨other, hother, hname⟩ := h.entry name index hindex
  rw [htensor] at hother
  cases hother
  exact ⟨mem_of_getElem? htensor, hname⟩

/-- With every name once, the map and the field say the same. -/
theorem Complete.getInitializedTensor_iff (h : s.Complete) (hvalid : s.Valid) :
    s.getInitializedTensor name = some tensor ↔
      tensor ∈ s.initializer ∧ tensor.name = name := by
  refine ⟨hvalid.mem_of_getInitializedTensor, ?_⟩
  rintro ⟨hmem, rfl⟩
  obtain ⟨other, hother⟩ :=
    hvalid.getInitializedTensor_isSome.mpr (h.mapped tensor hmem)
  obtain ⟨hmem', hname⟩ := hvalid.mem_of_getInitializedTensor hother
  rw [hother, inj_on_of_nodup_map h.nodup hmem' hmem hname]

section Load

variable {tensors constants : List (NamedTensor τ)}

section

variable (entries : List (NamedTensor τ × Nat))

/-- Every entry that was put into the map is found there under its name. -/
theorem foldl_mapEntry_isSome (map : String → Option Nat) {name : String}
    (h : (map name).isSome ∨ ∃ entry ∈ entries, entry.1.name = name) :
    (entries.foldl mapEntry map name).isSome := by
  induction entries generalizing map with
  | nil => simpa using h
  | cons first rest ih =>
    refine ih _ ?_
    rw [mapEntry, update_apply]
    rcases h with hmap | ⟨entry, hentry, hname⟩
    · left
      split <;> simp [hmap]
    · rcases mem_cons.mp hentry with rfl | hrest
      · simp [hname]
      · exact .inr ⟨entry, hrest, hname⟩

/-- The map has no entries but those that were put into it. -/
theorem foldl_mapEntry_eq_some (map : String → Option Nat) {name : String}
    {index : Nat} (h : entries.foldl mapEntry map name = some index) :
    map name = some index ∨ ∃ entry ∈ entries, entry.1.name = name ∧
      entry.2 = index := by
  induction entries generalizing map with
  | nil => exact .inl h
  | cons first rest ih =>
    rcases ih _ h with hmap | ⟨entry, hentry, hfound⟩
    · rw [mapEntry, update_apply] at hmap
      split at hmap
      · rename_i hname
        exact .inr ⟨first, mem_cons_self, hname.symm, some.inj hmap⟩
      · exact .inl hmap
    · exact .inr ⟨entry, mem_cons_of_mem first hentry, hfound⟩

end

theorem load_valid : (load tensors constants).Valid where
  none_removed := rfl
  entry := by
    intro name index hmap
    rcases foldl_mapEntry_eq_some _ _ hmap with hnone | ⟨entry, hentry, rfl, rfl⟩
    · cases hnone
    · exact ⟨entry.1, mem_zipIdx_iff_getElem?.mp hentry, rfl⟩

theorem load_mapped : ∀ tensor ∈ tensors ++ constants,
    ((load tensors constants).nameToInitialTensor tensor.name).isSome := by
  intro tensor hmem
  obtain ⟨index, hindex⟩ := mem_iff_getElem?.mp hmem
  exact foldl_mapEntry_isSome _ _ (.inr ⟨(tensor, index),
    mem_zipIdx_iff_getElem?.mpr hindex, rfl⟩)

theorem load_complete_iff : (load tensors constants).Complete ↔
    ((tensors ++ constants).map (·.name)).Nodup :=
  ⟨fun h => h.nodup, fun h => ⟨h, load_mapped⟩⟩

end Load

/-- A graph is saved faithfully exactly when its entries are complete. -/
theorem Valid.saved_iff (h : s.Valid) : s.Saved ↔ s.Complete := by
  constructor
  · intro hsaved
    have hmem := hsaved.mem_iff
    rw [h.toGraphProto_eq] at hmem
    refine ⟨h.toGraphProto_eq ▸ hsaved.once, fun tensor htensor => ?_⟩
    exact h.getInitializedTensor_isSome.mp ⟨tensor, (hmem tensor).mp htensor⟩
  · intro hcomplete
    have hnodup : ((s.initializer ++ []).map NamedTensor.name).Nodup := by
      rw [append_nil]
      exact hcomplete.nodup
    refine ⟨?_, fun tensor => ?_, fun name => ?_⟩
    · rw [h.toGraphProto_eq]
      exact hcomplete.nodup
    · rw [h.toGraphProto_eq, hcomplete.getInitializedTensor_iff h]
      simp
    · refine Option.ext fun tensor => ?_
      rw [h.toGraphProto_eq, hcomplete.getInitializedTensor_iff h,
        (load_complete_iff.mpr hnodup).getInitializedTensor_iff load_valid]
      simp [load]

variable {map : String → Option Nat} {sync : Bool}

section

variable (h : s.Valid)
include h

/-- Taking names out of the map leaves it pointing to entries of its names. -/
theorem Valid.of_fewer
    (hmap : ∀ name index, map name = some index →
      s.nameToInitialTensor name = some index) :
    Valid { s with nameToInitialTensor := map, graphProtoSyncNeeded := sync } :=
  ⟨fun name index hindex => h.entry name index (hmap name index hindex),
    h.none_removed⟩

theorem Valid.addInitializedTensor (tensor : NamedTensor τ) :
    (s.addInitializedTensor tensor).Valid := by
  rw [GraphInitializers.addInitializedTensor]
  split
  · exact h
  · refine ⟨fun name index hmap => ?_, h.none_removed⟩
    dsimp only at hmap ⊢
    rw [update_apply] at hmap
    split at hmap
    · rename_i hname
      cases hmap
      exact ⟨tensor, getElem?_concat_length, hname.symm⟩
    · obtain ⟨other, hother, hname⟩ := h.entry name index hmap
      have hlt := (List.getElem?_eq_some_iff.mp hother).1
      exact ⟨other, (getElem?_append_left hlt).trans hother, hname⟩

theorem Valid.removeInitializedTensor (name : String) :
    (s.removeInitializedTensor name).Valid := by
  rw [GraphInitializers.removeInitializedTensor]
  split
  · refine h.of_fewer fun other index hmap => ?_
    rw [update_apply] at hmap
    split at hmap
    · cases hmap
    · exact hmap
  · exact h

theorem Valid.cleanUnusedInitializers (used : List String) :
    (s.cleanUnusedInitializers used).Valid := by
  refine h.of_fewer fun name index hmap => ?_
  split at hmap
  · exact hmap
  · cases hmap

variable (hname : (s.nameToInitialTensor name).isSome)
include hname

/-- A name of the map is the name of an entry. -/
theorem Valid.exists_mem : ∃ tensor ∈ s.initializer, tensor.name = name := by
  obtain ⟨index, hindex⟩ := isSome_iff_exists.mp hname
  obtain ⟨tensor, htensor, hname⟩ := h.entry name index hindex
  exact ⟨tensor, mem_of_getElem? htensor, hname⟩

/-- A name that is taken out of the map leaves its entry in the field. -/
theorem Valid.not_complete_of_fewer (hnone : map name = none) : ¬ Complete
      { s with nameToInitialTensor := map, graphProtoSyncNeeded := sync } := by
  intro hcomplete
  obtain ⟨tensor, hmem, rfl⟩ := h.exists_mem hname
  have hsome := hcomplete.mapped tensor hmem
  dsimp only at hsome
  rw [hnone] at hsome
  cases hsome

end

theorem complete_addInitializedTensor_iff (tensor : NamedTensor τ) :
    (s.addInitializedTensor tensor).Complete ↔ s.Complete := by
  rw [GraphInitializers.addInitializedTensor]
  split
  · rfl
  rename_i hnew
  constructor
  · rintro ⟨hnodup, hmapped⟩
    rw [map_append, nodup_append] at hnodup
    refine ⟨hnodup.1, fun other hother => ?_⟩
    have hne : other.name ≠ tensor.name :=
      hnodup.2.2 _ (mem_map_of_mem hother) _ mem_cons_self
    have hsome := hmapped other (mem_append_left _ hother)
    dsimp only at hsome
    rwa [update_of_ne hne] at hsome
  · rintro ⟨hnodup, hmapped⟩
    refine ⟨?_, fun other hother => ?_⟩
    · rw [map_append, map_singleton, nodup_append]
      refine ⟨hnodup, nodup_singleton _, ?_⟩
      rintro _ hold _ hname rfl
      obtain ⟨other, hother, hsame⟩ := mem_map.mp hold
      rw [mem_singleton.mp hname] at hsame
      exact hnew (hsame ▸ hmapped other hother)
    · dsimp only
      rw [update_apply]
      split
      · rfl
      · rename_i hne
        rcases mem_append.mp hother with hold | hadded
        · exact hmapped other hold
        · exact absurd (congrArg _ (mem_singleton.mp hadded)) hne

end GraphInitializers

/-- The calls by which passes change initializers. -/
inductive InitializerCall (τ : Type) where
  | addInitializedTensor (tensor : NamedTensor τ)
  | removeInitializedTensor (name : String)
  | cleanUnusedInitializers (used : List String)

namespace InitializerCall

def run (s : GraphInitializers τ) : InitializerCall τ → GraphInitializers τ
  | addInitializedTensor tensor => s.addInitializedTensor tensor
  | removeInitializedTensor name => s.removeInitializedTensor name
  | cleanUnusedInitializers used => s.cleanUnusedInitializers used

/-- The call takes no name out of the map. -/
def RemovesNone (s : GraphInitializers τ) : InitializerCall τ → Prop
  | addInitializedTensor _ => True
  | removeInitializedTensor name => s.nameToInitialTensor name = none
  | cleanUnusedInitializers used =>
    ∀ name, (s.nameToInitialTensor name).isSome → name ∈ used

variable {s : GraphInitializers τ}

theorem valid_run (h : s.Valid) (call : InitializerCall τ) :
    (call.run s).Valid := by
  cases call with
  | addInitializedTensor tensor => exact h.addInitializedTensor tensor
  | removeInitializedTensor name => exact h.removeInitializedTensor name
  | cleanUnusedInitializers used => exact h.cleanUnusedInitializers used

/-- A call keeps the entries complete exactly when it removes none of them: the
field never shrinks. -/
theorem complete_run_iff (h : s.Valid) (call : InitializerCall τ) :
    (call.run s).Complete ↔ s.Complete ∧ call.RemovesNone s := by
  cases call with
  | addInitializedTensor tensor =>
    rw [RemovesNone, and_true]
    exact GraphInitializers.complete_addInitializedTensor_iff tensor
  | removeInitializedTensor name =>
    rw [run, GraphInitializers.removeInitializedTensor]
    split
    · rename_i hsome
      refine iff_of_false (h.not_complete_of_fewer hsome (by simp)) ?_
      rintro ⟨-, hnone⟩
      rw [hnone] at hsome
      cases hsome
    · rename_i hsome
      rw [not_isSome_iff_eq_none] at hsome
      exact (and_iff_left hsome).symm
  | cleanUnusedInitializers used =>
    rw [run]
    constructor
    · intro hcomplete
      have hused : ∀ name, (s.nameToInitialTensor name).isSome →
          name ∈ used := by
        intro name hname
        by_contra hunused
        exact h.not_complete_of_fewer hname (if_neg hunused) hcomplete
      refine ⟨⟨hcomplete.nodup, fun tensor hmem => ?_⟩, hused⟩
      have hsome := hcomplete.mapped tensor hmem
      rw [GraphInitializers.cleanUnusedInitializers] at hsome
      dsimp only at hsome
      split at hsome
      · exact hsome
      · cases hsome
    · rintro ⟨hcomplete, hused⟩
      refine ⟨hcomplete.nodup, fun tensor hmem => ?_⟩
      have hsome := hcomplete.mapped tensor hmem
      rw [GraphInitializers.cleanUnusedInitializers]
      dsimp only
      rw [if_pos (hused _ hsome)]
      exact hsome

/-- Along a run from `s`, no call takes a name out of the map it finds. -/
def RunRemovesNone (s : GraphInitializers τ) : List (InitializerCall τ) → Prop
  | [] => True
  | call :: calls => call.RemovesNone s ∧ RunRemovesNone (call.run s) calls

theorem complete_foldl_run_iff (h : s.Valid) (calls : List (InitializerCall τ)) :
    (calls.foldl run s).Valid ∧
      ((calls.foldl run s).Complete ↔ s.Complete ∧ RunRemovesNone s calls) := by
  induction calls generalizing s with
  | nil => exact ⟨h, by simp [RunRemovesNone]⟩
  | cons call calls ih =>
    obtain ⟨hvalid, hiff⟩ := ih (valid_run h call)
    refine ⟨hvalid, ?_⟩
    rw [foldl_cons, hiff, complete_run_iff h, RunRemovesNone, and_assoc]

end InitializerCall

namespace GraphInitializers

/-- What is saved after a run of calls is what the graph has exactly when the
proto it was loaded from named every initializer once and no call removed one:
`RemoveInitializedTensor` and `CleanUnusedInitializers` erase the name from the
map and record no index, so that `ToGraphProto` has nothing to compact. -/
theorem saved_foldl_run_iff (tensors constants : List (NamedTensor τ))
    (calls : List (InitializerCall τ)) :
    (calls.foldl InitializerCall.run (load tensors constants)).Saved ↔
      ((tensors ++ constants).map (·.name)).Nodup ∧
        InitializerCall.RunRemovesNone (load tensors constants) calls := by
  obtain ⟨hvalid, hcomplete⟩ :=
    InitializerCall.complete_foldl_run_iff (@load_valid _ tensors constants)
      calls
  rw [hvalid.saved_iff, hcomplete, load_complete_iff]

/-- A weight that a fusion replaces is saved with its old value and its new
one. -/
theorem not_saved_replaced :
    let s := ([.removeInitializedTensor "W", .addInitializedTensor ⟨"W", 2⟩] :
      List (InitializerCall Nat)).foldl InitializerCall.run (load [⟨"W", 1⟩] [])
    ¬ s.Saved ∧ s.getInitializedTensor "W" = some ⟨"W", 2⟩ ∧
      s.toGraphProto = [⟨"W", 1⟩, ⟨"W", 2⟩] := by
  intro s
  have hproto : s.toGraphProto = [⟨"W", 1⟩, ⟨"W", 2⟩] := by decide
  refine ⟨fun hsaved => ?_, by decide, hproto⟩
  have honce := hsaved.once
  exact absurd honce (by decide)

end GraphInitializers

end OnnxRuntime
