/-
Whether the initializers of a graph fit the blocks that are planned for them.
-/
import OnnxRuntime.WeightBlocks
import Mathlib.Algebra.BigOperators.Ring.List

namespace OnnxRuntime

open Option List WeightProto TraceOp

variable {pattern : MemoryPattern}

/-- The initializer holds no data. -/
structure WeightProto.IsEmpty (proto : WeightProto) : Prop where
  field_nil : proto.fieldData = []
  raw_nil : ∀ raw, proto.rawData = some raw → raw = []

namespace WeightLoader

/-- The initializer lies at its place in the buffer of its location, if it has
a block, and all its elements fit. -/
def DecodedInto (loader : WeightLoader) (saved : SavedWeights)
    (entry : String × WeightProto) (weight : SavedWeight) : Prop :=
  ∃ elem data, entry.2.dataType = some elem ∧
    weight.value = .tensor elem entry.2.dims data ∧
    ∀ block, weight.block = some block → ∃ buffer,
      saved.buffers.lookup (loader.locationOf entry.1) = some buffer ∧
      data = buffer.offset + block.offset ∧ block.Within 0 buffer.size ∧
      shapeVolume entry.2.dims * elem.size ≤ block.size

/-- The name has an index, and the location an allocator to which tensors can
be copied. -/
structure Served (loader : WeightLoader) (entry : String × WeightProto) :
    Prop where
  named : entry.1 ∈ loader.names
  allocator : loader.hasAllocator (loader.locationOf entry.1) = true
  copies : ∀ elem, loader.copyTensor (loader.locationOf entry.1) elem
    entry.2.dims = .ok ()

/-- Neither planning nor decoding refuses the initializer, whatever else was
planned and wherever its empty block lies. -/
structure Takes (loader : WeightLoader) (entry : String × WeightProto) :
    Prop where
  plans : ∀ planner : MLValuePatternPlanner,
    (planner.plannerMap.lookup (loader.locationOf entry.1)).isSome →
    ∃ planner', loader.planTensor planner entry = .ok planner'
  decodes : ∀ preallocated, ∃ value, loader.deserializeTensorProto entry
    (loader.locationOf entry.1) preallocated 0 = .ok value

/-- What `SaveInitializedTensorsWithMemPattern` promises. -/
structure WeightsFit (loader : WeightLoader)
    (weightsBuffers : List (OrtAllocatorInfo × Extent))
    (tensors : List (String × WeightProto)) : Prop where
  decoded : ∀ saved, loader.saveInitializedTensorsWithMemPattern
    weightsBuffers tensors = .ok saved → ∀ entry ∈ tensors, ∃ weight,
      (entry.1, weight) ∈ saved.weights ∧ loader.DecodedInto saved entry weight
  apart : ∀ saved, loader.saveInitializedTensorsWithMemPattern
    weightsBuffers tensors = .ok saved → ∀ left ∈ saved.weights,
      ∀ right ∈ saved.weights, left.1 ≠ right.1 →
      loader.locationOf left.1 = loader.locationOf right.1 →
      ∀ leftBlock rightBlock, left.2.block = some leftBlock →
      right.2.block = some rightBlock → leftBlock.Disjoint rightBlock
  /-- An initializer whose bytes do not fit into 64 bits is an error. -/
  rejects : ∀ entry ∈ tensors, ∀ elem, entry.2.dataType = some elem →
    (∀ dim ∈ entry.2.dims, 0 ≤ dim) →
    sizeBound ≤ shapeVolume entry.2.dims * elem.size →
    ∃ failure, loader.saveInitializedTensorsWithMemPattern weightsBuffers
      tensors = .error failure
  /-- An initializer without elements is none. -/
  takesEmpty : ∀ entry ∈ tensors, 0 ∈ entry.2.dims → entry.2.IsEmpty →
    loader.Served entry → loader.Takes entry

section Accepted

variable {loader : WeightLoader} {tensors : List (String × WeightProto)}
  {planner : MLValuePatternPlanner} {entry : String × WeightProto}
  {location : OrtAllocatorInfo}

section

variable (hplan : loader.planTensors tensors = .ok planner)
include hplan

theorem entry_of_planTensors (hentry : entry ∈ tensors) :
    entry.1 ∈ loader.names ∧ entry.2.Countable ∧
      ∀ bytes, entry.2.plannedBytes = some bytes → bytes < sizeBound := by
  obtain ⟨mid, mid', hstep⟩ := foldlM_step_of_mem hentry hplan
  obtain ⟨hname, hcountable, ⟨htype, -⟩ | ⟨elem, htype, hne, hfits, -⟩⟩ :=
    planTensor_eq_ok_iff.1 hstep
  · rw [plannedBytes_eq_none htype]
    exact ⟨hname, hcountable, nofun⟩
  · refine ⟨hname, hcountable, fun bytes hbytes => ?_⟩
    rw [plannedBytes_eq_some htype hne] at hbytes
    rw [← some.inj hbytes]
    have hlt := @roundedUp_lt 256 (by decide)
      (elem.size * shapeVolume entry.2.dims)
    have hmax : sizeMax = sizeBound - 1 := rfl
    have hbound : sizeBound = 2 ^ 64 := rfl
    omega

/-- Initializers have different indexes. -/
theorem eq_of_idxOf_eq (hnodup : (tensors.map Prod.fst).Nodup)
    {left right : String × WeightProto} (hleft : left ∈ tensors)
    (hright : right ∈ tensors)
    (h : loader.names.idxOf left.1 = loader.names.idxOf right.1) :
    left = right := by
  have hname : left.1 = right.1 :=
    (idxOf_inj (entry_of_planTensors hplan hleft).1).1 h
  exact (nodup_map_iff_inj_on hnodup.of_map).1 hnodup left hleft right
    hright hname

theorem wellFormed_requests (hnodup : (tensors.map Prod.fst).Nodup)
    (location : OrtAllocatorInfo) :
    WellFormed (allocations (loader.requests tensors location)) := by
  refine ⟨?_, ?_⟩
  · rw [allocated_allocations, nodup_iff_pairwise_ne,
      pairwise_map, requests, pairwise_filterMap]
    rw [nodup_iff_pairwise_ne, pairwise_map] at hnodup
    refine hnodup.imp_of_mem fun hleft hright hne asked hasked asked' hasked' =>
      ?_
    obtain ⟨-, hindex, -⟩ := request_eq_some_iff.1 hasked
    obtain ⟨-, hindex', -⟩ := request_eq_some_iff.1 hasked'
    rw [hindex, hindex']
    exact fun h => hne ((idxOf_inj (entry_of_planTensors hplan hleft).1).1 h)
  · intro index size hmem
    obtain ⟨asked, hasked, heq⟩ := mem_map.1 hmem
    cases heq
    obtain ⟨entry, hentry, -, -, hbytes⟩ := mem_requests.1 hasked
    exact (entry_of_planTensors hplan hentry).2.2 _ hbytes

end

/-- The pattern that was planned for a location. -/
def patternOf (loader : WeightLoader) (tensors : List (String × WeightProto))
    (location : OrtAllocatorInfo) : MemoryPattern :=
  (TraceOp.planner (TraceOp.allocations
    (loader.requests tensors location))).generateMemPattern

section

variable (hplan : loader.planTensors tensors = .ok planner)
include hplan

theorem getPatterns_eq
    (h : planner.generatePatterns.getPatterns location = some pattern) :
    pattern = loader.patternOf tensors location := by
  rw [MLValuePatternPlanner.getPatterns_generatePatterns,
    planTensors_lookup hplan, Option.map_map] at h
  obtain ⟨_, _, heq⟩ := Option.map_eq_some_iff.1 h
  exact heq.symm

/-- A block of the pattern has the size of the initializer it is for. -/
theorem size_of_getBlock (hnodup : (tensors.map Prod.fst).Nodup)
    (hentry : entry ∈ tensors) {block : MemoryBlock}
    (h : (loader.patternOf tensors location).getBlock
      (loader.names.idxOf entry.1) = some block) :
    (loader.names.idxOf entry.1, block.size) ∈
        loader.requests tensors location ∧
      entry.2.plannedBytes = some block.size := by
  have hwf := wellFormed_requests hplan hnodup location
  have hmem := mem_of_mem_allocs _ _
    ((MemPatternPlanner.getBlock_eq_some_iff hwf.allocs_nodup).1 h)
  obtain ⟨other, hother, -, hindex, hbytes⟩ := mem_requests.1 hmem
  rw [eq_of_idxOf_eq hplan hnodup hentry hother hindex]
  rw [eq_of_idxOf_eq hplan hnodup hentry hother hindex] at hmem
  exact ⟨hmem, hbytes⟩

/-- If the sizes at a location have a sum, its blocks lie apart and inside. -/
theorem sound_patternOf (hnodup : (tensors.map Prod.fst).Nodup)
    (htotal : totalSize (loader.requests tensors location) < sizeBound) :
    SoundAfter (allocations (loader.requests tensors location)) :=
  soundAfter_of_noWrap (wellFormed_requests hplan hnodup location)
    (packed_of_totalSize htotal).2

/-- How an initializer was saved, in terms of what was planned. -/
theorem savedFrom_patternOf {buffers : List (OrtAllocatorInfo × Extent)}
    (hbuffers : ∀ entry ∈ planner.generatePatterns.locations.zip
        planner.generatePatterns.patterns,
      buffers.lookup entry.1 = some (loader.bufferOf entry))
    {weight : SavedWeight}
    (hsave : loader.saveTensor planner.generatePatterns buffers entry =
      .ok weight) :
    ∃ elem data, loader.SavedFrom planner.generatePatterns buffers entry
      weight (loader.bufferOf (loader.locationOf entry.1,
        loader.patternOf tensors (loader.locationOf entry.1)))
      (loader.patternOf tensors (loader.locationOf entry.1)) elem data := by
  obtain ⟨buffer, pattern, elem, data, hsaved⟩ := saveTensor_ok hsave
  obtain rfl := getPatterns_eq hplan hsaved.pattern_eq
  have hbuffer := hbuffers _ (mem_of_lookup_eq_some hsaved.pattern_eq)
  obtain rfl := some.inj (hsaved.buffer_eq.symm.trans hbuffer)
  exact ⟨elem, data, hsaved⟩

end

/-- The bytes of an initializer that was saved fit into 64 bits. -/
theorem bytes_lt_of_saved (hcountable : entry.2.Countable) {elem : ElemType}
    (hsize : 0 ≤ shapeSize entry.2.dims)
    (hbytes : elem.size * (shapeSize entry.2.dims).toNat ≤ sizeMax - 256) :
    shapeVolume entry.2.dims * elem.size < sizeBound := by
  have hvolume := hcountable.2 _ prefix_rfl
  have hbound : sizeBound = 2 ^ 64 := rfl
  have hmax : sizeMax = 2 ^ 64 - 1 := rfl
  have heq : (shapeSize entry.2.dims).toNat = shapeVolume entry.2.dims := by
    rw [shapeSize_eq hcountable.1] at hsize ⊢
    split_ifs at hsize ⊢ <;> omega
  rw [heq] at hbytes
  rw [Nat.mul_comm]
  omega

end Accepted

section Empty

variable {loader : WeightLoader} {entry : String × WeightProto}

theorem shapeVolume_eq_zero {dims : List Int} (h : 0 ∈ dims) :
    shapeVolume dims = 0 :=
  prod_eq_zero (mem_map.2 ⟨0, h, rfl⟩)

theorem shapeSize_eq_zero {proto : WeightProto} (h : proto.Countable)
    (hzero : 0 ∈ proto.dims) : shapeSize proto.dims = 0 := by
  rw [shapeSize_eq h.1, shapeVolume_eq_zero hzero]
  rfl

section Unpack

variable {proto : WeightProto} (h : proto.IsEmpty) (elem : ElemType)

include h

theorem unpackToNull_empty : proto.unpackToNull elem = .ok () := by
  obtain ⟨hfield, hraw⟩ := h
  refine if_pos ?_
  split
  · rw [hfield, length_nil]
  · rw [hfield, length_nil]
  · rename_i raw hdata
    rw [hraw _ hdata, length_nil]

theorem unpackNumbers_empty : proto.unpackNumbers elem 0 = .ok () := by
  obtain ⟨hfield, hraw⟩ := h
  rw [unpackNumbers]
  cases hdata : proto.rawData with
  | none => simp [hfield]
  | some raw => simp [hraw raw hdata, calcMemSizeForArray_eq, sizeBound]

theorem unpackSmall_empty : proto.unpackSmall elem 0 = .ok () := by
  obtain ⟨hfield, hraw⟩ := h
  rw [unpackSmall]
  cases hdata : proto.rawData with
  | none => simp [hfield]
  | some raw => simp [hraw raw hdata, sizeMul]

theorem unpackStrings_empty : proto.unpackStrings 0 = .ok () := by
  rw [unpackStrings, h.field_nil]
  rfl

/-- No data can be unpacked to any address. -/
theorem unpackTensor_empty (data : Nat) :
    proto.unpackTensor elem data 0 = .ok () := by
  rw [unpackTensor.eq_def]
  split
  · exact unpackToNull_empty h elem
  · split
    · exact unpackStrings_empty h
    all_goals first
      | exact unpackSmall_empty h _
      | exact unpackNumbers_empty h _

end Unpack

theorem getTensor_empty {proto : WeightProto} (h : proto.IsEmpty)
    (hcountable : proto.Countable) (hzero : 0 ∈ proto.dims)
    {elem : ElemType} (htype : proto.dataType = some elem)
    (alloc : Nat → Nat) (preallocated : Nat) :
    ∃ data, proto.getTensor alloc preallocated 0 = .ok (elem, data) := by
  have hbytes : calcMemSizeForArrayWithAlignment 256 (0 : Int).toNat
      elem.size = some 0 := by
    rw [calcMemSizeForArrayWithAlignment_eq (by decide) (by decide)]
    simp [roundedUp]
  refine ⟨if preallocated ≠ 0 then preallocated else alloc 0, ?_⟩
  rw [getTensor, htype]
  dsimp only
  rw [getTensorByType, shapeSize_eq_zero hcountable hzero]
  rw [if_neg (lt_irrefl 0), hbytes]
  dsimp only
  rw [if_neg fun h => h.2 rfl, unpackTensor_empty h]
  rfl

/-- An initializer without elements is taken exactly if its leading dimensions
have products and its data type is known. -/
theorem takes_iff_of_empty (hserved : loader.Served entry)
    (hzero : 0 ∈ entry.2.dims) (hempty : entry.2.IsEmpty) :
    loader.Takes entry ↔ entry.2.Countable ∧ entry.2.dataType.isSome := by
  constructor
  · intro h
    obtain ⟨planner, hplan⟩ := h.plans ⟨[(loader.locationOf entry.1, {})]⟩
      (by simp)
    obtain ⟨value, hvalue⟩ := h.decodes 0
    obtain ⟨elem, -, htype, -⟩ := deserializeTensorProto_ok hvalue
    exact ⟨(planTensor_eq_ok_iff.1 hplan).2.1, by rw [htype]; rfl⟩
  · rintro ⟨hcountable, hknown⟩
    obtain ⟨elem, htype⟩ := isSome_iff_exists.1 hknown
    refine ⟨fun planner hplanner => ?_, fun preallocated => ?_⟩
    · rcases entry.2.dataType_cases with hunplanned | ⟨elem', htype', hne⟩
      · exact ⟨planner, planTensor_eq_ok_iff.2
          ⟨hserved.named, hcountable, .inl ⟨hunplanned, rfl⟩⟩⟩
      · obtain ⟨old, hold⟩ := isSome_iff_exists.1 hplanner
        have hfits : elem'.size * shapeVolume entry.2.dims ≤ sizeMax - 256 := by
          rw [shapeVolume_eq_zero hzero]
          exact Nat.zero_le _
        have htrace : ∀ op, planner.trace (loader.locationOf entry.1) op =
            .ok (planner.update (loader.locationOf entry.1) op) := by
          intro op
          rw [MLValuePatternPlanner.trace, hold]
        exact ⟨_, planTensor_eq_ok_iff.2 ⟨hserved.named, hcountable,
          .inr ⟨elem', htype', hne, hfits, htrace _⟩⟩⟩
    · rw [deserializeTensorProto, hserved.allocator, if_neg Bool.noConfusion]
      split_ifs with hcpu
      · obtain ⟨data, hdata⟩ := getTensor_empty hempty hcountable hzero htype
          (loader.alloc entry.1 (loader.locationOf entry.1)) preallocated
        rw [hdata]
        exact ⟨_, rfl⟩
      all_goals
        obtain ⟨data, hdata⟩ := getTensor_empty hempty hcountable hzero htype
          (loader.stagingAlloc entry.1) 0
        rw [hdata]
        dsimp only [bind, Except.bind]
        rw [hserved.copies]
        exact ⟨_, rfl⟩

end Empty

section Fits

variable {loader : WeightLoader}
  {weightsBuffers : List (OrtAllocatorInfo × Extent)}
  {tensors : List (String × WeightProto)} {saved : SavedWeights}

/-- In every accepted set the sizes at a location that has a buffer, rounded up
to the alignment, have a sum. -/
def TotalsFit (loader : WeightLoader)
    (weightsBuffers : List (OrtAllocatorInfo × Extent))
    (tensors : List (String × WeightProto)) : Prop :=
  ∀ saved, loader.saveInitializedTensorsWithMemPattern weightsBuffers tensors =
      .ok saved → ∀ location, loader.bufferAt location ≠ 0 →
    TraceOp.totalSize (loader.requests tensors location) < sizeBound

theorem bufferOf_offset_ne_zero {location : OrtAllocatorInfo}
    (h : (loader.bufferOf (location, pattern)).offset ≠ 0) :
    loader.bufferAt location ≠ 0 := by
  rw [bufferOf] at h
  split at h
  · exact h
  · exact absurd rfl h

section

variable (hnodup : (tensors.map Prod.fst).Nodup)
    (hfits : loader.TotalsFit weightsBuffers tensors)
    (hrun : loader.saveInitializedTensorsWithMemPattern weightsBuffers tensors =
      .ok saved)
include hnodup hfits hrun

theorem decoded_of_totalsFit {entry : String × WeightProto}
    (hentry : entry ∈ tensors) :
    ∃ weight, (entry.1, weight) ∈ saved.weights ∧
      loader.DecodedInto saved entry weight := by
  obtain ⟨planner, hplan, hbuffers, hweights, -⟩ :=
    saveInitializedTensors_ok hrun
  obtain ⟨weight, hmem, hsave⟩ := hweights entry hentry
  obtain ⟨elem, data, hsaved⟩ := savedFrom_patternOf hplan hbuffers hsave
  refine ⟨weight, hmem, elem, data, hsaved.type_eq, hsaved.value_eq,
    fun block hblock => ?_⟩
  refine ⟨_, hsaved.buffer_eq, hsaved.data_eq block hblock, ?_⟩
  rw [hsaved.block_eq] at hblock
  split_ifs at hblock with hnull
  have htotal := hfits saved hrun _ (bufferOf_offset_ne_zero hnull)
  have hsound := sound_patternOf hplan hnodup htotal
  obtain ⟨-, hbytes⟩ := size_of_getBlock hplan hnodup hentry hblock
  refine ⟨hsound.inPeak _ block hblock, ?_⟩
  have hne : elem ≠ .string := by
    rintro rfl
    rw [plannedBytes_eq_none (.inr hsaved.type_eq)] at hbytes
    cases hbytes
  rw [plannedBytes_eq_some hsaved.type_eq hne] at hbytes
  rw [← some.inj hbytes, Nat.mul_comm]
  exact le_roundedUp (by decide) _

theorem apart_of_totalsFit {left right : String × SavedWeight}
    (hleft : left ∈ saved.weights) (hright : right ∈ saved.weights)
    (hne : left.1 ≠ right.1)
    (hlocation : loader.locationOf left.1 = loader.locationOf right.1)
    {leftBlock rightBlock : MemoryBlock}
    (hleftBlock : left.2.block = some leftBlock)
    (hrightBlock : right.2.block = some rightBlock) :
    leftBlock.Disjoint rightBlock := by
  obtain ⟨planner, hplan, hbuffers, -, hweights⟩ :=
    saveInitializedTensors_ok hrun
  obtain ⟨entry, hentry, hname, hsave⟩ := hweights left hleft
  obtain ⟨entry', hentry', hname', hsave'⟩ := hweights right hright
  obtain ⟨elem, data, hsaved⟩ := savedFrom_patternOf hplan hbuffers hsave
  obtain ⟨elem', data', hsaved'⟩ := savedFrom_patternOf hplan hbuffers hsave'
  rw [hsaved.block_eq] at hleftBlock
  rw [hsaved'.block_eq] at hrightBlock
  split_ifs at hleftBlock hrightBlock with hnull hnull'
  have htotal := hfits saved hrun _ (bufferOf_offset_ne_zero hnull)
  have hsound := sound_patternOf hplan hnodup htotal
  have hsame : loader.locationOf entry'.1 = loader.locationOf entry.1 := by
    rw [hname', hname, hlocation]
  rw [hsame] at hrightBlock
  have hlive : ∀ {other : String × WeightProto} {block : MemoryBlock},
      other ∈ tensors → (loader.patternOf tensors
        (loader.locationOf entry.1)).getBlock
          (loader.names.idxOf other.1) = some block →
      loader.names.idxOf other.1 ∈ (live (allocations
        (loader.requests tensors (loader.locationOf entry.1)))).map
          Prod.fst := by
    intro other block hother hblock
    rw [live_allocations]
    exact mem_map_of_mem (size_of_getBlock hplan hnodup hother hblock).1
  refine hsound.lifetimes _ prefix_rfl _ _ ?_ (hlive hentry hleftBlock)
    (hlive hentry' hrightBlock) _ _ hleftBlock hrightBlock
  intro hindex
  have heq := eq_of_idxOf_eq hplan hnodup hentry hentry' hindex
  exact hne (by rw [← hname, ← hname', heq])

end

theorem rejects_large {entry : String × WeightProto} (hentry : entry ∈ tensors)
    {elem : ElemType} (htype : entry.2.dataType = some elem)
    (hlarge : sizeBound ≤ shapeVolume entry.2.dims * elem.size) :
    ∃ failure, loader.saveInitializedTensorsWithMemPattern weightsBuffers
      tensors = .error failure := by
  cases hrun : loader.saveInitializedTensorsWithMemPattern weightsBuffers
      tensors with
  | error failure => exact ⟨failure, rfl⟩
  | ok saved =>
    obtain ⟨planner, hplan, hbuffers, hweights, -⟩ :=
      saveInitializedTensors_ok hrun
    obtain ⟨weight, -, hsave⟩ := hweights entry hentry
    obtain ⟨known, data, hsaved⟩ := savedFrom_patternOf hplan hbuffers hsave
    obtain rfl := some.inj (htype.symm.trans hsaved.type_eq)
    have hlt := bytes_lt_of_saved (entry_of_planTensors hplan hentry).2.1
      hsaved.size_nonneg hsaved.bytes_le
    omega

/-- A location whose sizes have no sum gives some initializer a block that
sticks out of the buffer. -/
theorem totalsFit_of_decoded (hnodup : (tensors.map Prod.fst).Nodup)
    (hdecoded : ∀ saved, loader.saveInitializedTensorsWithMemPattern
      weightsBuffers tensors = .ok saved → ∀ entry ∈ tensors, ∃ weight,
        (entry.1, weight) ∈ saved.weights ∧
          loader.DecodedInto saved entry weight) :
    loader.TotalsFit weightsBuffers tensors := by
  intro saved hrun location hbuffer
  by_contra hover
  obtain ⟨planner, hplan, hbuffers, -, hweights⟩ :=
    saveInitializedTensors_ok hrun
  have hwf := wellFormed_requests hplan hnodup location
  obtain ⟨hpeak, alloc, halloc, hstop⟩ := exists_stop_of_totalSize
    (fun asked hasked => hwf.size_lt asked.1 asked.2
      (mem_map_of_mem hasked)) (not_lt.1 hover)
  have hblock := (MemPatternPlanner.getBlock_eq_some_iff hwf.allocs_nodup).2
    halloc
  obtain ⟨entry, hentry, rfl, hindex, -⟩ :=
    mem_requests.1 (mem_of_mem_allocs _ alloc halloc)
  obtain ⟨weight, hmem, elem, data, -, -, hinto⟩ :=
    hdecoded saved hrun entry hentry
  obtain ⟨other, hother, hname, hsave⟩ := hweights _ hmem
  obtain rfl := (nodup_map_iff_inj_on hnodup.of_map).1 hnodup other
    hother entry hentry hname
  obtain ⟨_, _, hsaved⟩ := savedFrom_patternOf hplan hbuffers hsave
  have hoffset : (loader.bufferOf (loader.locationOf other.1,
      loader.patternOf tensors (loader.locationOf other.1))).offset ≠ 0 := by
    exact ne_of_eq_of_ne (if_pos hpeak) hbuffer
  have hweight : weight.block = some alloc.block := by
    rw [hsaved.block_eq, if_neg hoffset, ← hindex]
    exact hblock
  obtain ⟨buffer, hlookup, -, hwithin, -⟩ := hinto _ hweight
  obtain rfl := some.inj (hlookup.symm.trans hsaved.buffer_eq)
  have hlt := bufferSize_lt (allocations
    (loader.requests tensors (loader.locationOf other.1)))
  exact absurd (Nat.le_trans hstop hwithin.2) (not_le.2 hlt)

/-- The initializers fit exactly if the sizes at every location have a sum, and
those without elements have leading dimensions with products and a known data
type. -/
theorem weightsFit_iff (hnodup : (tensors.map Prod.fst).Nodup) :
    loader.WeightsFit weightsBuffers tensors ↔
      loader.TotalsFit weightsBuffers tensors ∧
      ∀ entry ∈ tensors, 0 ∈ entry.2.dims → entry.2.IsEmpty →
        loader.Served entry →
        entry.2.Countable ∧ entry.2.dataType.isSome := by
  constructor
  · intro h
    refine ⟨totalsFit_of_decoded hnodup h.decoded,
      fun entry hentry hzero hempty hserved => ?_⟩
    exact (takes_iff_of_empty hserved hzero hempty).1
      (h.takesEmpty entry hentry hzero hempty hserved)
  · rintro ⟨hfits, hempties⟩
    exact {
      decoded := fun saved hrun entry hentry =>
        decoded_of_totalsFit hnodup hfits hrun hentry
      apart := fun saved hrun left hleft right hright hne hlocation
          leftBlock rightBlock hleftBlock hrightBlock =>
        apart_of_totalsFit hnodup hfits hrun hleft hright hne hlocation
          hleftBlock hrightBlock
      rejects := fun entry hentry elem htype _ hlarge =>
        rejects_large hentry htype hlarge
      takesEmpty := fun entry hentry hzero hempty hserved =>
        (takes_iff_of_empty hserved hzero hempty).2
          (hempties entry hentry hzero hempty hserved) }

end Fits

/-- A graph with two initializers on the CPU. -/
def cpuWeights : WeightLoader where
  plan := { allocationPlan := [{}, {}] }
  names := ["w", "b"]
  hasAllocator := fun _ => true
  bufferAt := fun _ => 4096
  alloc := fun _ _ _ => 65536
  stagingAlloc := fun _ _ => 131072
  copyTensor := fun _ _ _ => .ok ()

/-- Both lie in the buffer of one location. -/
theorem weightsFit_cpuWeights :
    cpuWeights.locationOf "w" = cpuWeights.locationOf "b" ∧
      cpuWeights.WeightsFit [] [
        ("w", ⟨1, some .float, [2, 3], none, [0, 0, 0, 0, 0, 0]⟩),
        ("b", ⟨7, some .int64, [2], none, [1, 2]⟩)] := by
  refine ⟨rfl, (weightsFit_iff (by decide)).2
    ⟨fun saved _ location _ => ?_, ?_⟩⟩
  · by_cases hlocation : cpuWeights.locationOf "w" = location
    · subst hlocation
      decide
    · have hother : cpuWeights.locationOf "b" ≠ location := hlocation
      rw [requests]
      simp [request, hlocation, hother, totalSize, sizeBound]
  · intro entry hentry hzero
    rcases mem_pair.1 hentry with rfl | rfl
    · exact absurd hzero (by decide)
    · exact absurd hzero (by decide)

/-- A tensor without elements is refused because of its leading dimensions. -/
theorem not_weightsFit_cpuWeights :
    ¬ cpuWeights.WeightsFit [] [("w", ⟨1, some .float,
      [2 ^ 40, 2 ^ 40, 0], none, []⟩)] ∧
    cpuWeights.saveInitializedTensorsWithMemPattern []
      [("w", ⟨1, some .float, [2 ^ 40, 2 ^ 40, 0], none, []⟩)] =
        .error (.status .fail "Invalid TensorProto") := by
  refine ⟨fun h => ?_, rfl⟩
  have hserved : cpuWeights.Served ("w", ⟨1, some .float,
      [2 ^ 40, 2 ^ 40, 0], none, []⟩) := ⟨by decide, rfl, fun _ => rfl⟩
  have htakes := h.takesEmpty _ mem_cons_self (by decide) ⟨rfl, nofun⟩ hserved
  have hfronts := ((takes_iff_of_empty hserved (by decide)
    ⟨rfl, nofun⟩).1 htakes).1.2
  exact absurd (hfronts [2 ^ 40, 2 ^ 40] ⟨[0], rfl⟩) (by decide)

end WeightLoader

end OnnxRuntime
