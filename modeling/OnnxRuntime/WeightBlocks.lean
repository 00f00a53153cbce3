/-
What loading promises of the initializers it accepts: each lies in a block that
is large enough, and the blocks of a location lie apart in its buffer.
-/
import OnnxRuntime.InitializedTensors
import OnnxRuntime.PatternReplay

namespace OnnxRuntime

open List Option WeightProto MLValuePatternPlanner TraceOp

variable {planner' : MLValuePatternPlanner} {dims : List Int}

section Counts

theorem shapeVolume_snoc (shape : List Int) (dim : Int) :
    shapeVolume (shape ++ [dim]) = dim.toNat * shapeVolume shape := by
  rw [shapeVolume, shapeVolume, Nat.mul_comm]
  simp

theorem countDim_eq_ok_iff {size next : Nat} {dim : Int} :
    countDim size dim = .ok next ↔
      0 ≤ dim ∧ dim.toNat * size < sizeBound ∧ next = dim.toNat * size := by
  rw [countDim, calcMemSizeForArray_eq]
  split_ifs with hneg hfits
  · exact ⟨nofun, fun h => absurd h.1 (not_le.2 hneg)⟩
  · simp [not_lt.1 hneg, hfits, eq_comm]
  · exact ⟨nofun, fun h => absurd h.2.1 hfits⟩

/-- The elements can be counted exactly if no dimension is negative and no
product of leading dimensions overflows, whatever dimensions follow. -/
theorem elementCount_eq_ok_iff {count : Nat} :
    elementCount dims = .ok count ↔ (∀ dim ∈ dims, 0 ≤ dim) ∧
      (∀ front, front <+: dims → shapeVolume front < sizeBound) ∧
      count = shapeVolume dims := by
  induction dims using reverseRecOn generalizing count with
  | nil =>
    rw [elementCount, foldlM_nil_eq_ok]
    constructor
    · rintro rfl
      refine ⟨nofun, fun front hfront => ?_, rfl⟩
      rw [prefix_nil.1 hfront]
      decide
    · exact fun h => h.2.2.symm
  | append_singleton dims dim ih =>
    rw [elementCount, foldlM_snoc_eq_ok]
    constructor
    · rintro ⟨mid, hmid, hstep⟩
      obtain ⟨hdims, hfronts, rfl⟩ := ih.1 hmid
      obtain ⟨hdim, hfits, rfl⟩ := countDim_eq_ok_iff.1 hstep
      rw [shapeVolume_snoc]
      refine ⟨?_, ?_, rfl⟩
      · intro other hother
        rcases mem_append.1 hother with hother | hother
        · exact hdims other hother
        · rwa [mem_singleton.1 hother]
      · intro front hfront
        rcases prefix_concat_iff.1 hfront with rfl | hfront
        · rwa [shapeVolume_snoc]
        · exact hfronts front hfront
    · rintro ⟨hdims, hfronts, rfl⟩
      refine ⟨shapeVolume dims, ih.2 ⟨?_, ?_, rfl⟩,
        countDim_eq_ok_iff.2 ⟨?_, ?_, ?_⟩⟩
      · exact fun other hother => hdims other (mem_append_left _ hother)
      · exact fun front hfront =>
          hfronts front (hfront.trans (prefix_append _ _))
      · exact hdims dim (by simp)
      · have hall := hfronts _ prefix_rfl
        rwa [shapeVolume_snoc] at hall
      · exact shapeVolume_snoc dims dim

theorem elementCount_error {failure : Failure}
    (h : elementCount dims = .error failure) :
    failure = .status .fail "Invalid TensorProto" := by
  refine foldlM_error_of_steps (motive := fun failure =>
    failure = .status .fail "Invalid TensorProto")
    (fun size dim stop hstep => ?_) h
  rw [countDim] at hstep
  split at hstep
  · exact (Except.error.inj hstep).symm
  · split at hstep
    · exact (Except.error.inj hstep).symm
    · cases hstep

end Counts

namespace WeightProto

/-- The bytes that the planner is asked for. -/
def plannedBytes (proto : WeightProto) : Option Nat :=
  match proto.dataType with
  | none | some .string => none
  | some elem => some (roundedUp 256 (elem.size * shapeVolume proto.dims))

/-- The dimensions have a product, and so have the leading ones. -/
def Countable (proto : WeightProto) : Prop :=
  (∀ dim ∈ proto.dims, 0 ≤ dim) ∧
    ∀ front, front <+: proto.dims → shapeVolume front < sizeBound

variable {proto : WeightProto} {elem : ElemType}

theorem countable_iff :
    proto.Countable ↔ elementCount proto.dims =
      .ok (shapeVolume proto.dims) := by
  rw [elementCount_eq_ok_iff, Countable]
  simp

theorem plannedBytes_eq_some (htype : proto.dataType = some elem)
    (hne : elem ≠ .string) :
    proto.plannedBytes =
      some (roundedUp 256 (elem.size * shapeVolume proto.dims)) := by
  rw [plannedBytes, htype]
  cases elem <;> first | rfl | exact absurd rfl hne

theorem plannedBytes_eq_none
    (htype : proto.dataType = none ∨ proto.dataType = some .string) :
    proto.plannedBytes = none := by
  rw [plannedBytes]
  rcases htype with htype | htype <;> rw [htype]

/-- Every data type is planned or not. -/
theorem dataType_cases (proto : WeightProto) :
    (proto.dataType = none ∨ proto.dataType = some .string) ∨
      ∃ elem, proto.dataType = some elem ∧ elem ≠ .string := by
  cases htype : proto.dataType with
  | none => exact .inl (.inl rfl)
  | some elem =>
    by_cases heq : elem = .string
    · exact .inl (.inr (heq ▸ rfl))
    · exact .inr ⟨elem, rfl, heq⟩

theorem elementCount_of_not_countable (h : ¬ proto.Countable) :
    elementCount proto.dims = .error (.status .fail "Invalid TensorProto") := by
  cases hcount : elementCount proto.dims with
  | error failure => rw [elementCount_error hcount]
  | ok count =>
    obtain ⟨hdims, hfronts, -⟩ := elementCount_eq_ok_iff.1 hcount
    exact absurd ⟨hdims, hfronts⟩ h

theorem getSizeInBytes_of_not_countable (h : ¬ proto.Countable) :
    getSizeInBytesFromTensorProto 256 proto =
      .error (.status .fail "Invalid TensorProto") := by
  rw [getSizeInBytesFromTensorProto, elementCount_of_not_countable h]
  rfl

theorem getSizeInBytes_of_unplanned (h : proto.Countable)
    (htype : proto.dataType = none ∨ proto.dataType = some .string) :
    getSizeInBytesFromTensorProto 256 proto =
      .error (.status .notImplemented "") := by
  rw [getSizeInBytesFromTensorProto, countable_iff.1 h]
  rcases htype with htype | htype <;> rw [htype] <;> rfl

theorem getSizeInBytes_of_planned (h : proto.Countable)
    (htype : proto.dataType = some elem) (hne : elem ≠ .string) :
    getSizeInBytesFromTensorProto 256 proto =
      if sizeMax - 256 < elem.size * shapeVolume proto.dims then
        .error (.status .fail "Invalid TensorProto")
      else .ok (roundedUp 256 (elem.size * shapeVolume proto.dims)) := by
  have hcalc := @calcMemSizeForArrayWithAlignment_eq 256 (by decide)
    (by decide) (shapeVolume proto.dims) elem.size
  rw [getSizeInBytesFromTensorProto, countable_iff.1 h, htype]
  cases elem with
  | string => exact absurd rfl hne
  | _ =>
    simp only [bind, Except.bind, hcalc]
    split_ifs <;> rfl

end WeightProto

namespace WeightLoader

variable {loader : WeightLoader} {entry : String × WeightProto}

theorem getIdx_eq_ok_iff {name : String} {index : MLValueIndex} :
    loader.getIdx name = .ok index ↔
      name ∈ loader.names ∧ index = loader.names.idxOf name := by
  rw [getIdx]
  split_ifs with hname
  · simp [hname, eq_comm]
  · exact ⟨nofun, fun h => absurd h.1 hname⟩

/-- What planning an initializer asks and does. -/
theorem planTensor_eq_ok_iff {planner : MLValuePatternPlanner} :
    loader.planTensor planner entry = .ok planner' ↔
      entry.1 ∈ loader.names ∧ entry.2.Countable ∧
      ((entry.2.dataType = none ∨ entry.2.dataType = some .string) ∧
          planner' = planner ∨
        ∃ elem, entry.2.dataType = some elem ∧ elem ≠ .string ∧
          elem.size * shapeVolume entry.2.dims ≤ sizeMax - 256 ∧
          planner.trace (loader.locationOf entry.1)
            (.allocation (loader.names.idxOf entry.1)
              (roundedUp 256 (elem.size * shapeVolume entry.2.dims))) =
            .ok planner') := by
  rw [planTensor, except_bind_eq_ok]
  constructor
  · rintro ⟨index, hindex, hrest⟩
    obtain ⟨hname, rfl⟩ := getIdx_eq_ok_iff.1 hindex
    by_cases hcountable : entry.2.Countable
    · refine ⟨hname, hcountable, ?_⟩
      rcases entry.2.dataType_cases with htype | ⟨elem, htype, hne⟩
      · rw [getSizeInBytes_of_unplanned hcountable htype] at hrest
        exact .inl ⟨htype, (Except.ok.inj hrest).symm⟩
      · rw [getSizeInBytes_of_planned hcountable htype hne] at hrest
        by_cases hover : sizeMax - 256 < elem.size * shapeVolume entry.2.dims
        · rw [if_pos hover] at hrest
          cases hrest
        · rw [if_neg hover] at hrest
          exact .inr ⟨elem, htype, hne, not_lt.1 hover, hrest⟩
    · rw [getSizeInBytes_of_not_countable hcountable] at hrest
      cases hrest
  · rintro ⟨hname, hcountable, h⟩
    refine ⟨_, getIdx_eq_ok_iff.2 ⟨hname, rfl⟩, ?_⟩
    rcases h with ⟨htype, rfl⟩ | ⟨elem, htype, hne, hfits, htrace⟩
    · rw [getSizeInBytes_of_unplanned hcountable htype]
    · rw [getSizeInBytes_of_planned hcountable htype hne,
        if_neg (not_lt.2 hfits)]
      exact htrace

section Plans

/-- What the planner of a location is asked for by one initializer. -/
def request (loader : WeightLoader) (location : OrtAllocatorInfo)
    (entry : String × WeightProto) : Option (MLValueIndex × Nat) :=
  if loader.locationOf entry.1 = location then
    entry.2.plannedBytes.map fun bytes => (loader.names.idxOf entry.1, bytes)
  else none

def requests (loader : WeightLoader) (tensors : List (String × WeightProto))
    (location : OrtAllocatorInfo) : List (MLValueIndex × Nat) :=
  tensors.filterMap (loader.request location)

variable {location : OrtAllocatorInfo} {asked : MLValueIndex × Nat}
  {tensors : List (String × WeightProto)} {planner : MLValuePatternPlanner}

theorem request_eq_some_iff : loader.request location entry = some asked ↔
      loader.locationOf entry.1 = location ∧
      asked.1 = loader.names.idxOf entry.1 ∧
      entry.2.plannedBytes = some asked.2 := by
  obtain ⟨index, bytes⟩ := asked
  rw [request]
  split_ifs with hlocation
  · simp [hlocation, and_comm, eq_comm]
  · simp [hlocation]

theorem mem_requests : asked ∈ loader.requests tensors location ↔
      ∃ entry ∈ tensors, loader.locationOf entry.1 = location ∧
        asked.1 = loader.names.idxOf entry.1 ∧
        entry.2.plannedBytes = some asked.2 := by
  simp only [requests, mem_filterMap, request_eq_some_iff]

theorem planTensor_lookup
    (h : loader.planTensor planner entry = .ok planner')
    (location : OrtAllocatorInfo) :
    planner'.plannerMap.lookup location =
      (planner.plannerMap.lookup location).map fun old =>
        (allocations (loader.request location entry).toList).foldl
          apply old := by
  obtain ⟨-, -, ⟨htype, rfl⟩ | ⟨elem, htype, hne, -, htrace⟩⟩ :=
    planTensor_eq_ok_iff.1 h
  · rw [request, plannedBytes_eq_none htype, map_none, ite_self]
    exact map_id'.symm
  · rw [request, plannedBytes_eq_some htype hne]
    rw [trace] at htrace
    split at htrace
    · cases htrace
    · rw [← Except.ok.inj htrace, lookup_update]
      by_cases hlocation : location = loader.locationOf entry.1
      · simp only [if_pos hlocation, if_pos hlocation.symm]
        rfl
      · simp only [if_neg hlocation, if_neg (Ne.symm hlocation)]
        rfl

/-- After planning, the planner of a location has seen the requests of the
initializers there. -/
theorem planTensors_lookup (h : loader.planTensors tensors = .ok planner)
    (location : OrtAllocatorInfo) :
    planner.plannerMap.lookup location =
      ((create loader.plan).plannerMap.lookup location).map fun _ =>
          TraceOp.planner (allocations (loader.requests tensors location)) := by
  induction tensors using reverseRecOn generalizing planner with
  | nil =>
    rw [planTensors, foldlM_nil_eq_ok] at h
    subst h
    cases hcreate : (create loader.plan).plannerMap.lookup location with
    | none => rfl
    | some old =>
      rw [lookup_create _ hcreate]
      rfl
  | append_singleton tensors entry ih =>
    rw [planTensors, foldlM_snoc_eq_ok] at h
    obtain ⟨mid, hmid, hstep⟩ := h
    rw [planTensor_lookup hstep, ih hmid, Option.map_map]
    congr 1
    funext old
    rw [Function.comp_apply, requests, requests, filterMap_append]
    cases hrequest : loader.request location entry <;>
      simp [TraceOp.planner, allocations, hrequest]

end Plans

variable {buffers : List (OrtAllocatorInfo × Extent)}
  {memPatterns : MemoryPatternGroup}

/-- Every location of the patterns gets its buffer. -/
theorem allocateBuffers_lookup
    {entries : List (OrtAllocatorInfo × MemoryPattern)}
    {result : List (OrtAllocatorInfo × Extent)}
    (h : entries.foldlM loader.allocateBuffer buffers = .ok result) :
    (∀ location buffer, buffers.lookup location = some buffer →
      result.lookup location = some buffer) ∧
    ∀ entry ∈ entries,
      result.lookup entry.1 = some (loader.bufferOf entry) := by
  induction entries generalizing buffers with
  | nil =>
    cases foldlM_nil_eq_ok.1 h
    exact ⟨fun _ _ h => h, nofun⟩
  | cons entry rest ih =>
    obtain ⟨mid, hmid, hrest⟩ := foldlM_cons_eq_ok.1 h
    obtain ⟨hkeeps, hfound⟩ := ih hrest
    rw [allocateBuffer] at hmid
    split_ifs at hmid with hold hallocator
    cases hmid
    have hnone : buffers.lookup entry.1 = none :=
      not_isSome_iff_eq_none.1 hold
    refine ⟨fun location buffer hbuffer => hkeeps _ _ ?_, ?_⟩
    · rw [lookup_append, hbuffer]
      rfl
    · intro other hother
      rcases mem_cons.1 hother with rfl | hother
      · refine hkeeps _ _ ?_
        rw [lookup_append, hnone]
        simp
      · exact hfound other hother

section Tensors

variable {proto : WeightProto} {preallocated preallocatedSize : Nat}
  {elem : ElemType} {alloc : Nat → Nat} {data : Nat}

theorem getTensorByType_ok
    (h : proto.getTensorByType elem alloc preallocated preallocatedSize =
      .ok data) :
    0 ≤ shapeSize proto.dims ∧
      elem.size * (shapeSize proto.dims).toNat ≤ sizeMax - 256 ∧
      (preallocated ≠ 0 → data = preallocated) := by
  rw [getTensorByType] at h
  rw [calcMemSizeForArrayWithAlignment_eq (by decide) (by decide)] at h
  by_cases hneg : shapeSize proto.dims < 0
  · rw [if_pos hneg] at h
    cases h
  rw [if_neg hneg] at h
  by_cases hover : sizeMax - 256 < elem.size * (shapeSize proto.dims).toNat
  · rw [if_pos hover] at h
    cases h
  refine ⟨not_lt.1 hneg, not_lt.1 hover, fun hpre => ?_⟩
  rw [if_neg hover] at h
  dsimp only at h
  split at h
  · cases h
  · obtain ⟨-, -, hdata⟩ := except_bind_eq_ok.1 h
    exact (Except.ok.inj hdata).symm

theorem getTensor_ok
    (h : proto.getTensor alloc preallocated preallocatedSize =
      .ok (elem, data)) :
    proto.dataType = some elem ∧ 0 ≤ shapeSize proto.dims ∧
      elem.size * (shapeSize proto.dims).toNat ≤ sizeMax - 256 ∧
      (preallocated ≠ 0 → data = preallocated) := by
  rw [getTensor] at h
  cases htype : proto.dataType with
  | none =>
    rw [htype] at h
    cases h
  | some known =>
    rw [htype] at h
    obtain ⟨found, hfound, heq⟩ := except_bind_eq_ok.1 h
    cases heq
    exact ⟨rfl, getTensorByType_ok hfound⟩

/-- A tensor that is deserialized has a known type, its bytes fit into 64 bits
if the number of elements does not wrap, and it lies where it was asked to. -/
theorem deserializeTensorProto_ok {location : OrtAllocatorInfo}
    {value : MLValue}
    (h : loader.deserializeTensorProto entry location preallocated
      preallocatedSize = .ok value) :
    ∃ elem data, entry.2.dataType = some elem ∧
      value = .tensor elem entry.2.dims data ∧ 0 ≤ shapeSize entry.2.dims ∧
      elem.size * (shapeSize entry.2.dims).toNat ≤ sizeMax - 256 ∧
      (preallocated ≠ 0 → data = preallocated) := by
  rw [deserializeTensorProto] at h
  by_cases hallocator : loader.hasAllocator location = false
  · rw [if_pos hallocator] at h
    cases h
  rw [if_neg hallocator] at h
  by_cases hcpu : location.name = cpuName ∨ location.memType = .cpuOutput
  · rw [if_pos hcpu] at h
    obtain ⟨⟨elem, data⟩, htensor, hvalue⟩ := except_bind_eq_ok.1 h
    obtain ⟨htype, hsize, hbytes, hdata⟩ := getTensor_ok htensor
    exact ⟨elem, data, htype, (Except.ok.inj hvalue).symm, hsize, hbytes, hdata⟩
  · rw [if_neg hcpu] at h
    obtain ⟨⟨elem, staged⟩, htensor, hrest⟩ := except_bind_eq_ok.1 h
    obtain ⟨htype, hsize, hbytes, -⟩ := getTensor_ok htensor
    obtain ⟨-, -, hvalue⟩ := except_bind_eq_ok.1 hrest
    exact ⟨elem, _, htype, (Except.ok.inj hvalue).symm, hsize, hbytes,
      fun hpre => if_pos hpre⟩

theorem reported_eq_ok_iff {α : Type} {name : String}
    {result : Except Failure α} {a : α} :
    reported name result = .ok a ↔ result = .ok a := by
  match result with
  | .ok _ => rfl
  | .error (.status _ _) => exact ⟨nofun, nofun⟩
  | .error (.enforce _) => rfl
  | .error (.thrown _) => rfl
  | .error .nullDereference => rfl

end Tensors

/-- How an initializer was saved. -/
structure SavedFrom (loader : WeightLoader) (memPatterns : MemoryPatternGroup)
    (buffers : List (OrtAllocatorInfo × Extent))
    (entry : String × WeightProto) (weight : SavedWeight) (buffer : Extent)
    (pattern : MemoryPattern) (elem : ElemType) (data : Nat) : Prop where
  named : entry.1 ∈ loader.names
  buffer_eq : buffers.lookup (loader.locationOf entry.1) = some buffer
  pattern_eq :
    memPatterns.getPatterns (loader.locationOf entry.1) = some pattern
  block_eq : weight.block = if buffer.offset = 0 then none
    else pattern.getBlock (loader.names.idxOf entry.1)
  type_eq : entry.2.dataType = some elem
  value_eq : weight.value = .tensor elem entry.2.dims data
  size_nonneg : 0 ≤ shapeSize entry.2.dims
  bytes_le : elem.size * (shapeSize entry.2.dims).toNat ≤ sizeMax - 256
  data_eq : ∀ block, weight.block = some block →
    data = buffer.offset + block.offset

theorem saveTensor_ok {weight : SavedWeight}
    (h : loader.saveTensor memPatterns buffers entry = .ok weight) :
    ∃ buffer pattern elem data, loader.SavedFrom memPatterns buffers entry
      weight buffer pattern elem data := by
  obtain ⟨index, hindex, hrest⟩ := except_bind_eq_ok.1 h
  obtain ⟨hname, rfl⟩ := getIdx_eq_ok_iff.1 hindex
  dsimp only at hrest
  cases hbuffer : buffers.lookup (loader.locationOf entry.1) with
  | none =>
    rw [hbuffer] at hrest
    cases hrest
  | some buffer =>
    cases hpattern :
        memPatterns.getPatterns (loader.locationOf entry.1) with
    | none =>
      rw [hbuffer, hpattern] at hrest
      cases hrest
    | some pattern =>
      rw [hbuffer, hpattern] at hrest
      obtain ⟨value, hvalue, heq⟩ := except_bind_eq_ok.1 hrest
      cases heq
      rw [reported_eq_ok_iff] at hvalue
      cases hblock : (if buffer.offset = 0 then none
          else pattern.getBlock (loader.names.idxOf entry.1)) with
      | none =>
        rw [hblock] at hvalue
        obtain ⟨elem, data, htype, hval, hsize, hbytes, -⟩ :=
          deserializeTensorProto_ok hvalue
        exact ⟨buffer, pattern, elem, data, hname, hbuffer, hpattern,
          hblock.symm, htype, hval, hsize, hbytes, nofun⟩
      | some block =>
        rw [hblock] at hvalue
        obtain ⟨elem, data, htype, hval, hsize, hbytes, hdata⟩ :=
          deserializeTensorProto_ok hvalue
        have hne : buffer.offset ≠ 0 := by
          rintro hzero
          rw [if_pos hzero] at hblock
          cases hblock
        refine ⟨buffer, pattern, elem, data, hname, hbuffer, hpattern,
          hblock.symm, htype, hval, hsize, hbytes, ?_⟩
        rintro _ ⟨⟩
        exact hdata (by omega)

theorem mem_appendTensor {weights result : List (String × SavedWeight)}
    (h : loader.appendTensor memPatterns buffers weights entry = .ok result)
    (named : String × SavedWeight) :
    named ∈ result ↔ named ∈ weights ∨ (entry.1 = named.1 ∧
      loader.saveTensor memPatterns buffers entry = .ok named.2) := by
  obtain ⟨weight, hweight, heq⟩ := except_bind_eq_ok.1 h
  obtain rfl := Except.ok.inj heq
  rw [mem_append, mem_singleton, hweight]
  refine or_congr_right ⟨?_, ?_⟩
  · rintro rfl
    exact ⟨rfl, rfl⟩
  · rintro ⟨hname, hsaved⟩
    exact Prod.ext hname.symm (Except.ok.inj hsaved).symm

/-- What a run leaves that accepts all initializers. -/
theorem saveInitializedTensors_ok
    {weightsBuffers : List (OrtAllocatorInfo × Extent)}
    {tensors : List (String × WeightProto)} {saved : SavedWeights}
    (h : loader.saveInitializedTensorsWithMemPattern weightsBuffers tensors =
      .ok saved) :
    ∃ planner, loader.planTensors tensors = .ok planner ∧
      (∀ entry ∈ planner.generatePatterns.locations.zip
          planner.generatePatterns.patterns,
        saved.buffers.lookup entry.1 = some (loader.bufferOf entry)) ∧
      (∀ entry ∈ tensors, ∃ weight, (entry.1, weight) ∈ saved.weights ∧
        loader.saveTensor planner.generatePatterns saved.buffers entry =
          .ok weight) ∧
      ∀ named ∈ saved.weights, ∃ entry ∈ tensors, entry.1 = named.1 ∧
        loader.saveTensor planner.generatePatterns saved.buffers entry =
          .ok named.2 := by
  rw [saveInitializedTensorsWithMemPattern] at h
  by_cases hnames : loader.names.length = 0
  · rw [if_pos hnames] at h
    cases h
  rw [if_neg hnames] at h
  obtain ⟨planner, hplanner, h⟩ := except_bind_eq_ok.1 h
  obtain ⟨buffers, hbuffers, h⟩ := except_bind_eq_ok.1 h
  obtain ⟨weights, hweights, h⟩ := except_bind_eq_ok.1 h
  obtain rfl := Except.ok.inj h
  have hcollects := (foldlM_collects (fun _ => True)
    (fun weights (named : String × SavedWeight) => named ∈ weights)
    (fun _ _ _ _ _ hstep => ⟨trivial, mem_appendTensor hstep⟩)
    trivial hweights).2
  refine ⟨planner, hplanner, (allocateBuffers_lookup hbuffers).2, ?_, ?_⟩
  · intro entry hentry
    obtain ⟨s, s', hstep⟩ := foldlM_step_of_mem hentry hweights
    obtain ⟨weight, hweight, -⟩ := except_bind_eq_ok.1 hstep
    exact ⟨weight, (hcollects _).2 (.inr ⟨entry, hentry, rfl, hweight⟩),
      hweight⟩
  · intro named hnamed
    rcases (hcollects named).1 hnamed with hnil | hfound
    · cases hnil
    · exact hfound

end WeightLoader

end OnnxRuntime
