/-
A recording run seen by the planner of one location: which calls each event
makes, and what the history of calls knows about the run.
-/
import OnnxRuntime.ExecutionFrame
import OnnxRuntime.Tables

namespace OnnxRuntime

open List Option TraceOp

variable {elem : ElemType} {size : Nat}

theorem MLValuePatternPlanner.lookup_update (planner : MLValuePatternPlanner)
    (location changed : OrtAllocatorInfo) (op : TraceOp) :
    (planner.update changed op).plannerMap.lookup location =
      (planner.plannerMap.lookup location).map fun old =>
        if location = changed then op.apply old else old :=
  lookup_map_value
    (fun key old => if key = changed then op.apply old else old) _ location

/-- A value that the planner of a location hears about. -/
structure SessionState.Patterned (session : SessionState)
    (location : OrtAllocatorInfo) (mlValueIdx : MLValueIndex)
    (elem : ElemType) : Prop where
  isTensor : (session.executionPlan.allocPlan mlValueIdx).valueType =
    some (.tensorType elem)
  isAllocate : (session.executionPlan.allocPlan mlValueIdx).allocKind =
    .allocate
  atLocation : location = (session.executionPlan.allocPlan mlValueIdx).location
  notString : elem ≠ .string

theorem SessionState.tensorBytes_lt {session : SessionState}
    {shape : List Int}
    (h : session.tensorBytes elem shape = .ok size) : size < sizeBound := by
  rw [tensorBytes] at h
  split at h
  · cases h
  · split at h
    · cases h
    · rename_i bytes hbytes
      cases h
      exact calcMemSizeForArrayWithAlignment_lt hbytes

namespace ExecutionFrame

/-- The planner of a location, while the frame records. -/
def plannerAt (frame : ExecutionFrame) (location : OrtAllocatorInfo) :
    Option MemPatternPlanner :=
  frame.planner.bind fun planner => planner.plannerMap.lookup location

/-- A planner without an entry for the location is not touched, whether the
call goes through or is only logged. -/
theorem plannerAt_trace {frame : ExecutionFrame}
    {planner : MLValuePatternPlanner} (hplanner : frame.planner = some planner)
    (location changed : OrtAllocatorInfo) (op : TraceOp) :
    (frame.logged (planner.trace changed op)).plannerAt location =
      (frame.plannerAt location).map fun old =>
        if location = changed then op.apply old else old := by
  rw [MLValuePatternPlanner.trace]
  cases hlookup : planner.plannerMap.lookup changed with
  | some old => simp [logged, plannerAt, hplanner, planner.lookup_update]
  | none =>
    change frame.plannerAt location = _
    by_cases heq : location = changed
    · subst heq
      simp [plannerAt, hplanner, hlookup]
    · simp [heq]

/-- The calls one event makes to the planner of a location. -/
def callsAt (session : SessionState) (location : OrtAllocatorInfo)
    (frame : ExecutionFrame) : FrameEvent → List TraceOp
  | .output mlValueIdx shape _ =>
    let perAllocPlan := session.executionPlan.allocPlan mlValueIdx
    match perAllocPlan.valueType with
    | some (.tensorType elem) =>
      match session.tensorBytes elem shape with
      | .ok size =>
        if location = perAllocPlan.location ∧
            perAllocPlan.allocKind = .allocate ∧ elem ≠ .string ∧
            frame.value mlValueIdx = .unallocated then
          [.allocation mlValueIdx size]
        else []
      | .error _ => []
    | _ => []
  | .release mlValueIdx =>
    let perAllocPlan := session.executionPlan.allocPlan mlValueIdx
    match perAllocPlan.valueType with
    | some (.tensorType elem) =>
      if location = perAllocPlan.location ∧ elem ≠ .string ∧
          mlValueIdx ∉ frame.outputIndices then [.free mlValueIdx]
      else []
    | _ => []

variable {session : SessionState} {location : OrtAllocatorInfo}
  {frame mid next : ExecutionFrame} {mlValueIdx : MLValueIndex}
  {shape : List Int} {fresh : Nat} {front events : List FrameEvent}

section

variable (session location frame)

theorem callsAt_output_cases (mlValueIdx : MLValueIndex) (shape : List Int)
    (fresh : Nat) :
    frame.callsAt session location (.output mlValueIdx shape fresh) = [] ∨
      ∃ elem size, session.Patterned location mlValueIdx elem ∧
        session.tensorBytes elem shape = .ok size ∧
        frame.value mlValueIdx = .unallocated ∧
        frame.callsAt session location (.output mlValueIdx shape fresh) =
          [.allocation mlValueIdx size] := by
  simp only [callsAt]
  split
  · rename_i elem htype
    split
    · rename_i size hbytes
      split
      · rename_i hcond
        obtain ⟨hlocation, hkind, hstring, hnew⟩ := hcond
        exact .inr ⟨elem, size, ⟨htype, hkind, hlocation, hstring⟩, hbytes,
          hnew, rfl⟩
      · exact .inl rfl
    · exact .inl rfl
  · exact .inl rfl

theorem callsAt_release_cases (mlValueIdx : MLValueIndex) :
    frame.callsAt session location (.release mlValueIdx) = [] ∨
      frame.callsAt session location (.release mlValueIdx) =
        [.free mlValueIdx] := by
  simp only [callsAt]
  split
  · split
    · exact .inr rfl
    · exact .inl rfl
  · exact .inl rfl

/-- One event makes at most one call. -/
theorem callsAt_cases (event : FrameEvent) :
    frame.callsAt session location event = [] ∨
      ∃ op, frame.callsAt session location event = [op] := by
  cases event with
  | output mlValueIdx shape fresh =>
    rcases callsAt_output_cases session location frame mlValueIdx shape
      fresh with hcalls | ⟨_, size, _, _, _, hcalls⟩
    · exact .inl hcalls
    · exact .inr ⟨_, hcalls⟩
  | release mlValueIdx =>
    rcases callsAt_release_cases session location frame mlValueIdx with
      hcalls | hcalls
    · exact .inl hcalls
    · exact .inr ⟨_, hcalls⟩

end

theorem plannerAt_traceAllocate (size : Nat) :
    (frame.traceAllocate session mlValueIdx size).plannerAt location =
      (frame.plannerAt location).map fun old =>
        if location = (session.executionPlan.allocPlan mlValueIdx).location ∧
            (session.executionPlan.allocPlan mlValueIdx).allocKind ≠
              .allocateOutput then
          old.traceAllocation mlValueIdx size
        else old := by
  rw [traceAllocate]
  cases hplanner : frame.planner with
  | none => simp [plannerAt, hplanner]
  | some planner =>
    by_cases hkind : (session.executionPlan.allocPlan mlValueIdx).allocKind =
          .allocateOutput
    · simp [hkind]
    · simp only [hkind, ne_eq, not_false_eq_true, and_true]
      exact plannerAt_trace hplanner location _ _

theorem callsAt_of_new
    (htype : (session.executionPlan.allocPlan mlValueIdx).valueType =
      some (.tensorType elem))
    (hbytes : session.tensorBytes elem shape = .ok size)
    (hnew : frame.value mlValueIdx = .unallocated) :
    frame.callsAt session location (.output mlValueIdx shape fresh) =
      if location = (session.executionPlan.allocPlan mlValueIdx).location ∧
          (session.executionPlan.allocPlan mlValueIdx).allocKind =
            .allocate ∧ elem ≠ .string then
        [.allocation mlValueIdx size]
      else [] := by
  simp only [callsAt, htype, hbytes, hnew, and_true]

theorem plannerAt_apply_output (hpatterns : frame.memPatterns = none)
    (h : frame.apply session (.output mlValueIdx shape fresh) = .ok next) :
    next.plannerAt location = (frame.plannerAt location).map fun old =>
      (frame.callsAt session location
        (.output mlValueIdx shape fresh)).foldl TraceOp.apply old := by
  cases apply_output_cases h with
  | present hallocated =>
    rcases callsAt_output_cases session location frame mlValueIdx shape
      fresh with hcalls | ⟨_, _, _, _, hnew, _⟩
    · rw [hcalls]
      exact map_id'.symm
    · rw [hnew] at hallocated
      cases hallocated
  | shared value hvalue hnew hlt hshared =>
    rcases callsAt_output_cases session location frame mlValueIdx shape
      fresh with hcalls | ⟨elem, _, hpatterned, _⟩
    · rw [hcalls]
      exact map_id'.symm
    · exact absurd ⟨hpatterned.isTensor, .inl hpatterned.isAllocate⟩
        (hshared elem)
  | placed elem size address hnew hlt hown hbytes haddress =>
    simp [patternAddress, hpatterns] at haddress
  | separate elem size hnew hlt hown hbytes haddress =>
    rw [callsAt_of_new hown.isTensor hbytes hnew, allocateSeparately]
    by_cases hstring : elem = .string
    · simp [hstring, plannerAt, setValue]
    · simp only [hstring, if_false, plannerAt_traceAllocate,
        ne_eq, not_false_eq_true]
      congr 1
      funext old
      rcases hown.ownKind with hkind | hkind
      · by_cases hlocation : location =
            (session.executionPlan.allocPlan mlValueIdx).location
        · simp [hkind, hlocation, TraceOp.apply]
        · simp [hlocation]
      · simp [hkind]

theorem plannerAt_apply_release
    (h : frame.apply session (.release mlValueIdx) = .ok next) :
    next.plannerAt location = (frame.plannerAt location).map fun old =>
      (frame.callsAt session location
        (.release mlValueIdx)).foldl TraceOp.apply old := by
  have hfree := (apply_release_eq_ok h).2
  rw [traceFree] at hfree
  cases hplanner : frame.planner with
  | none =>
    simp only [setValue, hplanner] at hfree
    cases hfree
    simp [plannerAt, hplanner]
  | some planner =>
    simp only [setValue, hplanner] at hfree
    by_cases houtput : mlValueIdx ∈ frame.outputIndices
    · simp only [houtput] at hfree
      cases hfree
      simp only [callsAt, houtput]
      split <;> simp [plannerAt, hplanner]
    · simp only [houtput, if_false] at hfree
      split at hfree
      · cases hfree
      · rename_i elem htype
        by_cases hstring : elem = .string
        · simp only [hstring] at hfree
          cases hfree
          simp [callsAt, htype, hstring, plannerAt, hplanner]
        · simp only [hstring] at hfree
          cases hfree
          rw [MLValuePatternPlanner.traceFree, plannerAt_trace rfl]
          simp only [plannerAt, hplanner, callsAt, htype, ne_eq, hstring,
            houtput, not_false_eq_true, and_true]
          congr 1
          funext old
          split <;> rfl
      · rename_i type htensor htype
        cases hfree
        simp only [callsAt, htype]
        split
        · rename_i elem heq
          exact absurd (some.inj heq) (htensor elem)
        · simp [plannerAt, hplanner]

theorem plannerAt_apply {event : FrameEvent}
    (hpatterns : frame.memPatterns = none)
    (h : frame.apply session event = .ok next) :
    next.plannerAt location = (frame.plannerAt location).map fun old =>
      (frame.callsAt session location event).foldl TraceOp.apply old := by
  cases event with
  | output mlValueIdx shape fresh =>
    exact plannerAt_apply_output hpatterns h
  | release mlValueIdx => exact plannerAt_apply_release h

/-- All calls of a run to the planner of a location. -/
def callsOf (session : SessionState) (location : OrtAllocatorInfo) :
    ExecutionFrame → List FrameEvent → List TraceOp
  | _, [] => []
  | frame, event :: rest =>
    frame.callsAt session location event ++
      match frame.apply session event with
      | .ok next => callsOf session location next rest
      | .error _ => []

theorem callsOf_append (h : frame.run session front = .ok mid)
    (back : List FrameEvent) :
    callsOf session location frame (front ++ back) =
      callsOf session location frame front ++
        callsOf session location mid back := by
  induction front generalizing frame with
  | nil =>
    rw [foldlM_nil_eq_ok.mp h]
    rfl
  | cons event rest ih =>
    obtain ⟨step, hstep, hrest⟩ := foldlM_cons_eq_ok.mp h
    simp only [cons_append, callsOf, hstep, ih hrest, append_assoc]

theorem callsOf_snoc (h : frame.run session front = .ok mid)
    (event : FrameEvent) :
    callsOf session location frame (front ++ [event]) =
      callsOf session location frame front ++
        mid.callsAt session location event := by
  rw [callsOf_append h]
  congr 1
  simp only [callsOf]
  split <;> exact append_nil _

theorem plannerAt_run (hpatterns : frame.memPatterns = none)
    (h : frame.run session events = .ok next) :
    next.plannerAt location = (frame.plannerAt location).map fun old =>
      (callsOf session location frame events).foldl TraceOp.apply old := by
  induction events using reverseRecOn generalizing next with
  | nil =>
    rw [← foldlM_nil_eq_ok.mp h]
    exact map_id'.symm
  | append_singleton events event ih =>
    obtain ⟨mid, hmid, hstep⟩ := foldlM_snoc_eq_ok.mp h
    have hnone := (run_constant hmid).1.trans hpatterns
    rw [plannerAt_apply hnone hstep, ih hmid, callsOf_snoc hmid]
    simp [Function.comp_def]

/-- Where the allocations in a history come from. -/
theorem mem_callsOf_allocation (h : frame.run session events = .ok next)
    {mlValueIdx : Nat}
    (hmem : .allocation mlValueIdx size ∈
      callsOf session location frame events) :
    size < sizeBound ∧ .alloc mlValueIdx ∈ events.map FrameEvent.life ∧
      ∃ elem, session.Patterned location mlValueIdx elem := by
  induction events using reverseRecOn generalizing next with
  | nil => simp [callsOf] at hmem
  | append_singleton events event ih =>
    obtain ⟨mid, hmid, hstep⟩ := foldlM_snoc_eq_ok.mp h
    rw [callsOf_snoc hmid, mem_append] at hmem
    rcases hmem with hmem | hmem
    · obtain ⟨hlt, halloc, hpatterned⟩ := ih hmid hmem
      exact ⟨hlt, by simp [halloc], hpatterned⟩
    · cases event with
      | output changed shape fresh =>
        rcases callsAt_output_cases session location mid changed shape
          fresh with hcalls | ⟨elem, bytes, hpatterned, hbytes, _, hcalls⟩
        · simp [hcalls] at hmem
        · rw [hcalls, mem_singleton] at hmem
          cases hmem
          exact ⟨SessionState.tensorBytes_lt hbytes,
            by simp [FrameEvent.life], elem, hpatterned⟩
      | release changed =>
        rcases callsAt_release_cases session location mid changed with
          hcalls | hcalls <;> simp [hcalls] at hmem

/-- The history of a run of a schedule is well formed: an output is asked for
again only while it is still allocated. -/
theorem wellFormed_callsOf {schedule : List (ScheduleStep MLValueIndex)}
    {whole : List (LifeEvent MLValueIndex)}
    (hnodup : (schedule.flatMap ScheduleStep.outputs).Nodup)
    (hschedule : RunOf schedule whole)
    (hwhole : events.map FrameEvent.life <+: whole)
    (h : frame.run session events = .ok next) :
    WellFormed (callsOf session location frame events) := by
  refine ⟨?_, fun _ _ hmem => (mem_callsOf_allocation h hmem).1⟩
  induction events using reverseRecOn generalizing next with
  | nil => exact nodup_nil
  | append_singleton events event ih =>
    obtain ⟨mid, hmid, hstep⟩ := foldlM_snoc_eq_ok.mp h
    rw [map_append] at hwhole
    have hearlier := ih ((prefix_append _ _).trans hwhole) hmid
    rw [callsOf_snoc hmid]
    cases event with
    | output changed shape fresh =>
      rcases callsAt_output_cases session location mid changed shape
        fresh with hcalls | ⟨elem, bytes, hpatterned, _, hnew, hcalls⟩
      · rwa [hcalls, append_nil]
      · rw [hcalls, allocated_snoc_allocation, nodup_append]
        refine ⟨hearlier, nodup_singleton _, ?_⟩
        rintro index hindex _ hsingle rfl
        cases mem_singleton.mp hsingle
        obtain ⟨size, hmem⟩ := exists_of_mem_allocated hindex
        have halive := hschedule.alive_of_repeated hnodup hwhole
          (mem_callsOf_allocation hmid hmem).2.1
          (fun value => (frame.value value).isAllocated = true)
        rw [← isAllocated_run hmid, hnew] at halive
        cases halive
    | release changed =>
      rcases callsAt_release_cases session location mid changed with
        hcalls | hcalls
      · rwa [hcalls, append_nil]
      · rwa [hcalls, allocated_snoc_free]

theorem mem_live_of_new {other : ElemType}
    (hpatterned : session.Patterned location mlValueIdx elem)
    (calls : List TraceOp)
    (htype : (session.executionPlan.allocPlan mlValueIdx).valueType =
      some (.tensorType other))
    (hbytes : session.tensorBytes other shape = .ok size)
    (hnew : frame.value mlValueIdx = .unallocated) :
    mlValueIdx ∈ (live (calls ++ frame.callsAt session location
      (.output mlValueIdx shape fresh))).map Prod.fst := by
  cases htype.symm.trans hpatterned.isTensor
  rw [callsAt_of_new htype hbytes hnew, if_pos ⟨hpatterned.atLocation,
    hpatterned.isAllocate, hpatterned.notString⟩, live_snoc_allocation]
  simp

/-- A patterned value that is allocated is live for its planner. -/
theorem mem_live_callsOf (h : frame.run session events = .ok next)
    (hpatterned : session.Patterned location mlValueIdx elem)
    (hinitial : frame.value mlValueIdx = .unallocated)
    (hallocated : (next.value mlValueIdx).isAllocated = true) :
    mlValueIdx ∈
      (live (callsOf session location frame events)).map Prod.fst := by
  induction events using reverseRecOn generalizing next with
  | nil =>
    rw [← foldlM_nil_eq_ok.mp h, hinitial] at hallocated
    cases hallocated
  | append_singleton events event ih =>
    obtain ⟨mid, hmid, hstep⟩ := foldlM_snoc_eq_ok.mp h
    rw [callsOf_snoc hmid]
    cases event with
    | output changed shape fresh =>
      have hkeep : (mid.value mlValueIdx).isAllocated = true →
          mlValueIdx ∈ (live
            (callsOf session location frame events ++ mid.callsAt session
              location (.output changed shape fresh))).map Prod.fst := by
        intro hmidAllocated
        have hlive := ih hmid hmidAllocated
        rcases callsAt_output_cases session location mid changed shape
          fresh with hcalls | ⟨_, bytes, _, _, _, hcalls⟩
        · rwa [hcalls, append_nil]
        · rw [hcalls, live_snoc_allocation, map_append]
          exact mem_append_left _ hlive
      by_cases hsame : mlValueIdx = changed
      · subst hsame
        cases apply_output_cases hstep with
        | present hmidAllocated => exact hkeep hmidAllocated
        | shared value hvalue hnew hlt hshared =>
          exact absurd ⟨hpatterned.isTensor,
            .inl hpatterned.isAllocate⟩ (hshared elem)
        | placed other size address hnew hlt hown hbytes =>
          exact mem_live_of_new hpatterned _ hown.isTensor hbytes hnew
        | separate other size hnew hlt hown hbytes =>
          exact mem_live_of_new hpatterned _ hown.isTensor hbytes hnew
      · obtain ⟨value, _, _, _, heq⟩ := (apply_output_cases hstep).value_eq
        rw [heq, if_neg hsame] at hallocated
        exact hkeep hallocated
    | release changed =>
      rw [value_apply_release hstep] at hallocated
      by_cases hsame : mlValueIdx = changed
      · simp [hsame, MLValue.isAllocated] at hallocated
      · rw [if_neg hsame] at hallocated
        have hlive := ih hmid hallocated
        rcases callsAt_release_cases session location mid changed with
          hcalls | hcalls
        · rwa [hcalls, append_nil]
        · rw [hcalls, live_snoc_free]
          obtain ⟨entry, hentry, rfl⟩ := mem_map.mp hlive
          exact mem_map_of_mem (mem_filter.mpr ⟨hentry, by simp [hsame]⟩)

end ExecutionFrame

end OnnxRuntime
