/-
Replaying a recorded memory pattern.  The second run may ask for other sizes
than the first; what it places in the pre-allocated buffers was alive together
in the first run as well, so the recorded blocks do not overlap.
-/
import OnnxRuntime.PatternRecording

namespace OnnxRuntime

open List Option ExecutionFrame TraceOp FrameEvent

variable {event : FrameEvent} {elem : ElemType}

theorem of_guard_eq_some {p : Prop} [Decidable p] {u : Unit}
    (h : (guard p : Option Unit) = some u) : p := by
  by_contra hp
  simp [hp] at h

namespace SessionState

/-- The plan as a schedule; `outputsOf` are the values a node defines. -/
def schedule (session : SessionState)
    (outputsOf : NodeIndex → List MLValueIndex) :
    List (ScheduleStep MLValueIndex) :=
  session.executionPlan.executionPlan.map fun step =>
    ⟨outputsOf step.nodeIndex, step.frees session.executionPlan.toBeFreed⟩

/-- The element type of a tensor whose buffer the frame allocates for it. -/
def ownElem (session : SessionState) (mlValueIdx : MLValueIndex) :
    Option ElemType :=
  let perAllocPlan := session.executionPlan.allocPlan mlValueIdx
  match perAllocPlan.allocKind, perAllocPlan.valueType with
  | .allocate, some (.tensorType elem) => some elem
  | .allocateOutput, some (.tensorType elem) => some elem
  | _, _ => none

theorem ownElem_eq_some_iff {session : SessionState}
    {mlValueIdx : MLValueIndex} :
    session.ownElem mlValueIdx = some elem ↔
      session.SelfOwned mlValueIdx elem := by
  constructor
  · intro h
    simp only [ownElem] at h
    split at h
    · rename_i hkind htype
      cases h
      exact ⟨htype, .inl hkind⟩
    · rename_i hkind htype
      cases h
      exact ⟨htype, .inr hkind⟩
    · cases h
  · rintro ⟨htype, hkind | hkind⟩ <;> simp [ownElem, htype, hkind]

end SessionState

def FrameEvent.index : FrameEvent → MLValueIndex
  | .output mlValueIdx _ _ => mlValueIdx
  | .release mlValueIdx => mlValueIdx

namespace ExecutionFrame

/-- The bytes of a live tensor whose buffer is its own. -/
def ownExtent (session : SessionState) (frame : ExecutionFrame)
    (mlValueIdx : MLValueIndex) : Option Extent :=
  match session.ownElem mlValueIdx, frame.value mlValueIdx with
  | some _, .tensor elem shape data =>
    (session.tensorBytes elem shape).toOption.map fun size => ⟨data, size⟩
  | _, _ => none

/-- What an allocator guarantees: a block it hands out overlaps neither the
pre-allocated buffers nor the tensors that are live. -/
def Granted (session : SessionState) (frame : ExecutionFrame) :
    FrameEvent → Prop
  | .output mlValueIdx shape fresh =>
    ∀ elem ∈ session.ownElem mlValueIdx,
      ∀ size ∈ (session.tensorBytes elem shape).toOption,
        frame.value mlValueIdx = .unallocated →
        frame.patternAddress session mlValueIdx
          (session.executionPlan.allocPlan mlValueIdx).location size = none →
        (∀ buffer ∈ frame.buffers, Extent.Disjoint ⟨fresh, size⟩ buffer.2) ∧
        ∀ other < frame.allValues.length,
          ∀ extent ∈ frame.ownExtent session other,
            Extent.Disjoint ⟨fresh, size⟩ extent
  | .release _ => True

/-- The call of an event to the planner of its value's location does not wrap
the planned buffer. -/
def TraceFits (session : SessionState) (frame : ExecutionFrame)
    (event : FrameEvent) : Prop :=
  let location := (session.executionPlan.allocPlan event.index).location
  ∀ planner ∈ frame.plannerAt location,
    ∀ op ∈ frame.callsAt session location event, op.Fits planner

instance (session : SessionState) (frame : ExecutionFrame)
    (event : FrameEvent) : Decidable (Granted session frame event) :=
  match event with
  | .output mlValueIdx _ _ =>
    inferInstanceAs (Decidable (∀ elem ∈ session.ownElem mlValueIdx, _))
  | .release _ => isTrue trivial

instance (session : SessionState) (frame : ExecutionFrame)
    (event : FrameEvent) : Decidable (TraceFits session frame event) :=
  inferInstanceAs (Decidable (∀ planner ∈ frame.plannerAt
    (session.executionPlan.allocPlan event.index).location, _))

/-- What holds of a frame that replays a pattern, `start` being the frame at
the beginning of the run. -/
structure ReplaySound (session : SessionState)
    (start frame : ExecutionFrame) : Prop where
  /-- Live values do not share a byte. -/
  disjoint : ∀ left right, left ≠ right →
    start.value left = .unallocated → start.value right = .unallocated →
    ∀ leftExtent ∈ frame.ownExtent session left,
    ∀ rightExtent ∈ frame.ownExtent session right,
      leftExtent.Disjoint rightExtent
  /-- A value is in its block exactly when the sizes agree, and that block is
  in the buffer of its location. -/
  placed : ∀ mlValueIdx, start.value mlValueIdx = .unallocated →
    ∀ extent ∈ frame.ownExtent session mlValueIdx,
    ∀ address ∈ start.patternAddress session mlValueIdx
        (session.executionPlan.allocPlan mlValueIdx).location extent.size,
      extent.offset = address ∧
      ∃ buffer ∈ start.buffers.lookup
          (session.executionPlan.allocPlan mlValueIdx).location,
        extent.Within buffer.offset buffer.stop
  separate : ∀ mlValueIdx, start.value mlValueIdx = .unallocated →
    ∀ extent ∈ frame.ownExtent session mlValueIdx,
    start.patternAddress session mlValueIdx
        (session.executionPlan.allocPlan mlValueIdx).location extent.size =
      none →
    ∀ buffer ∈ start.buffers, extent.Disjoint buffer.2

variable {session : SessionState} {start frame next : ExecutionFrame}
  {mlValueIdx changed : MLValueIndex} {extent : Extent}

/-- What a pattern address is made of. -/
theorem patternAddress_eq_some {location : OrtAllocatorInfo}
    {size address : Nat}
    (h : frame.patternAddress session mlValueIdx location size = some address) :
    ∃ group pattern block buffer, frame.memPatterns = some group ∧
      (session.executionPlan.allocPlan mlValueIdx).allocKind ≠ .allocateOutput ∧
      group.getPatterns location = some pattern ∧
      pattern.getBlock mlValueIdx = some block ∧
      frame.buffers.lookup location = some buffer ∧ block.size = size ∧
      address = buffer.offset + block.offset := by
  simp only [patternAddress, Option.bind_eq_bind, Option.bind_eq_some_iff,
    Option.pure_def, Option.some.injEq] at h
  obtain ⟨group, hgroup, _, hkind, pattern, hpattern, block, hblock, buffer,
    hbuffer, _, hsize, rfl⟩ := h
  exact ⟨group, pattern, block, buffer, hgroup, of_guard_eq_some hkind,
    hpattern, hblock, hbuffer, of_guard_eq_some hsize, rfl⟩

theorem ownExtent_eq_some_iff :
    frame.ownExtent session mlValueIdx = some extent ↔
      (∃ own, session.SelfOwned mlValueIdx own) ∧
      ∃ elem shape, frame.value mlValueIdx = .tensor elem shape extent.offset ∧
        session.tensorBytes elem shape = .ok extent.size := by
  simp only [← SessionState.ownElem_eq_some_iff, ownExtent]
  constructor
  · intro h
    split at h
    · rename_i own elem shape data hown hvalue
      refine ⟨⟨own, hown⟩, elem, shape, ?_⟩
      cases hbytes : session.tensorBytes elem shape with
      | error failure =>
        rw [hbytes] at h
        cases h
      | ok size =>
        rw [hbytes] at h
        cases h
        exact ⟨hvalue, rfl⟩
    · cases h
  · rintro ⟨⟨own, hown⟩, elem, shape, hvalue, hbytes⟩
    rw [hown, hvalue]
    simp [hbytes, Except.toOption]

/-- The state of a replaying frame that its events preserve: what is not in
a recorded block is apart from the buffers and from all other values. -/
structure ReplayInv (session : SessionState)
    (start frame : ExecutionFrame) : Prop where
  located : ∀ mlValueIdx, start.value mlValueIdx = .unallocated →
    ∀ extent ∈ frame.ownExtent session mlValueIdx,
    ∀ address ∈ start.patternAddress session mlValueIdx
        (session.executionPlan.allocPlan mlValueIdx).location extent.size,
      extent.offset = address
  separate : ∀ mlValueIdx, start.value mlValueIdx = .unallocated →
    ∀ extent ∈ frame.ownExtent session mlValueIdx,
    start.patternAddress session mlValueIdx
        (session.executionPlan.allocPlan mlValueIdx).location extent.size =
      none →
    (∀ buffer ∈ start.buffers, extent.Disjoint buffer.2) ∧
    ∀ other, other ≠ mlValueIdx → start.value other = .unallocated →
      ∀ otherExtent ∈ frame.ownExtent session other, extent.Disjoint otherExtent

/-- Every block of the pattern lies in the buffer of its location. -/
def InBuffers (session : SessionState) (start : ExecutionFrame) : Prop :=
  ∀ mlValueIdx location size address,
    start.patternAddress session mlValueIdx location size = some address →
    ∃ buffer ∈ start.buffers.lookup location,
      Extent.Within ⟨address, size⟩ buffer.offset buffer.stop

theorem ReplayInv.initial (session : SessionState) (start : ExecutionFrame) :
    ReplayInv session start start := by
  have hnone : ∀ mlValueIdx, start.value mlValueIdx = .unallocated →
      start.ownExtent session mlValueIdx = none := by
    intro mlValueIdx hnew
    rw [ownExtent, hnew]
    cases session.ownElem mlValueIdx <;> rfl
  constructor
  · intro mlValueIdx hnew extent hextent
    rw [hnone mlValueIdx hnew] at hextent
    cases hextent
  · intro mlValueIdx hnew extent hextent
    rw [hnone mlValueIdx hnew] at hextent
    cases hextent

theorem ownExtent_congr {other : ExecutionFrame}
    (h : other.value mlValueIdx = frame.value mlValueIdx) :
    other.ownExtent session mlValueIdx =
      frame.ownExtent session mlValueIdx := by
  rw [ownExtent, ownExtent, h]

/-- Releasing a value, and sharing a buffer, only takes extents away. -/
theorem ReplayInv.of_fewer (h : ReplayInv session start frame)
    (hfewer : ∀ mlValueIdx, ∀ extent ∈ next.ownExtent session mlValueIdx,
      extent ∈ frame.ownExtent session mlValueIdx) :
    ReplayInv session start next where
  located mlValueIdx hnew extent hextent :=
    h.located mlValueIdx hnew extent (hfewer mlValueIdx extent hextent)
  separate mlValueIdx hnew extent hextent haddress := by
    obtain ⟨hbuffers, hothers⟩ := h.separate mlValueIdx hnew extent
      (hfewer mlValueIdx extent hextent) haddress
    exact ⟨hbuffers, fun other hne hother otherExtent hmem =>
      hothers other hne hother otherExtent (hfewer other otherExtent hmem)⟩

/-- A value gets its buffer: in its block if it has one, else apart from
everything that is there. -/
theorem ReplayInv.of_new (h : ReplayInv session start frame)
    (hin : InBuffers session start) (extent : Extent)
    (hvalue : ∀ other, other ≠ changed → next.value other = frame.value other)
    (hextent : next.ownExtent session changed = some extent)
    (hlocated : ∀ address ∈ start.patternAddress session changed
        (session.executionPlan.allocPlan changed).location extent.size,
      extent.offset = address)
    (hseparate : start.patternAddress session changed
        (session.executionPlan.allocPlan changed).location extent.size = none →
      (∀ buffer ∈ start.buffers, extent.Disjoint buffer.2) ∧
      ∀ other, other ≠ changed → ∀ otherExtent ∈ frame.ownExtent session other,
          extent.Disjoint otherExtent) :
    ReplayInv session start next := by
  constructor
  · intro mlValueIdx hnew current hcurrent address haddress
    by_cases hsame : mlValueIdx = changed
    · subst hsame
      rw [hextent] at hcurrent
      cases hcurrent
      exact hlocated address haddress
    · rw [ownExtent_congr (hvalue mlValueIdx hsame)] at hcurrent
      exact h.located mlValueIdx hnew current hcurrent address haddress
  · intro mlValueIdx hnew current hcurrent hnone
    by_cases hsame : mlValueIdx = changed
    · subst hsame
      rw [hextent] at hcurrent
      cases hcurrent
      obtain ⟨hbuffers, hothers⟩ := hseparate hnone
      refine ⟨hbuffers, fun other hne _ otherExtent hother => ?_⟩
      rw [ownExtent_congr (hvalue other hne)] at hother
      exact hothers other hne otherExtent hother
    · rw [ownExtent_congr (hvalue mlValueIdx hsame)] at hcurrent
      obtain ⟨hbuffers, hothers⟩ :=
        h.separate mlValueIdx hnew current hcurrent hnone
      refine ⟨hbuffers, fun other hne hother otherExtent hmem => ?_⟩
      by_cases hchanged : other = changed
      · subst hchanged
        rw [hextent] at hmem
        cases hmem
        -- The new value is in a block, hence in a buffer, or it is separate.
        cases haddress : start.patternAddress session other
            (session.executionPlan.allocPlan other).location extent.size with
        | none =>
          exact ((hseparate haddress).2 mlValueIdx hsame current hcurrent).symm
        | some address =>
          obtain ⟨buffer, hbuffer, hwithin⟩ :=
            hin other _ _ address haddress
          rw [← hlocated address haddress] at hwithin
          exact (hbuffers _ (mem_of_lookup_eq_some hbuffer)).of_within hwithin
      · rw [ownExtent_congr (hvalue other hchanged)] at hmem
        exact hothers other hne hother otherExtent hmem

theorem lt_length_of_ownExtent
    (h : frame.ownExtent session mlValueIdx = some extent) :
    mlValueIdx < frame.allValues.length := by
  obtain ⟨_, elem, shape, hvalue, _⟩ := ownExtent_eq_some_iff.mp h
  by_contra hge
  rw [value, getD_eq_default _ _ (Nat.not_lt.mp hge)] at hvalue
  cases hvalue

section

variable (h : ReplayInv session start frame) (hin : InBuffers session start)
    (hconst : frame.memPatterns = start.memPatterns ∧
      frame.buffers = start.buffers)
include h hin hconst

theorem ReplayInv.apply_output {shape : List Int} {fresh : Nat}
    (hgranted : Granted session frame (.output changed shape fresh))
    (happly : frame.apply session (.output changed shape fresh) = .ok next) :
    ReplayInv session start next := by
  have hstep := apply_output_cases happly
  obtain ⟨value, traced, _, _, hvalue⟩ := hstep.value_eq
  have hothers : ∀ other, other ≠ changed →
      next.value other = frame.value other := by
    intro other hne
    rw [hvalue, if_neg hne]
  have haddresses := patternAddress_congr session hconst
  cases hstep with
  | present hallocated => exact h
  | shared shared _ _ _ hshared =>
    refine h.of_fewer fun mlValueIdx extent hextent => ?_
    by_cases hsame : mlValueIdx = changed
    · obtain ⟨⟨own, hown⟩, _⟩ := ownExtent_eq_some_iff.mp hextent
      exact absurd (hsame ▸ hown) (hshared own)
    · rwa [← ownExtent_congr (hothers mlValueIdx hsame)]
  | placed elem size address hnew hlt hown hbytes haddress =>
    refine h.of_new hin ⟨address, size⟩ hothers
      (ownExtent_eq_some_iff.mpr ⟨⟨elem, hown⟩, elem, shape, ?_, hbytes⟩)
      ?_ ?_
    · exact (value_setValue hlt changed).trans (if_pos rfl)
    · intro other hother
      rw [haddresses] at haddress
      exact some.inj (haddress.symm.trans hother)
    · intro hnone
      rw [haddresses, hnone] at haddress
      cases haddress
  | separate elem size hnew hlt hown hbytes haddress =>
    refine h.of_new hin ⟨if size = 0 then 0 else fresh, size⟩ hothers
      (ownExtent_eq_some_iff.mpr ⟨⟨elem, hown⟩, elem, shape, ?_, hbytes⟩)
      ?_ ?_
    · obtain ⟨planner, heq⟩ := allocateSeparately_eq session frame changed
        elem shape size fresh
      rw [heq]
      exact (value_setValue hlt changed).trans (if_pos rfl)
    · intro address hsome
      rw [haddresses] at haddress
      exact absurd (haddress.symm.trans hsome) (by simp)
    · intro _
      by_cases hempty : size = 0
      · exact ⟨fun _ _ => Extent.disjoint_iff_arith.mpr (.inl hempty),
          fun _ _ _ _ => Extent.disjoint_iff_arith.mpr (.inl hempty)⟩
      · obtain ⟨hbuffers, hlive⟩ := hgranted elem
          (SessionState.ownElem_eq_some_iff.mpr hown) size
          (by rw [hbytes]; rfl) hnew haddress
        rw [if_neg hempty]
        exact ⟨hconst.2 ▸ hbuffers, fun other _ extent hextent =>
          hlive other (lt_length_of_ownExtent hextent) extent hextent⟩

theorem ReplayInv.apply
    (hgranted : Granted session frame event)
    (happly : frame.apply session event = .ok next) :
    ReplayInv session start next := by
  cases event with
  | output changed shape fresh =>
    exact h.apply_output hin hconst hgranted happly
  | release changed =>
    refine h.of_fewer fun mlValueIdx extent hextent => ?_
    have hvalue := value_apply_release happly mlValueIdx
    by_cases hsame : mlValueIdx = changed
    · rw [if_pos hsame] at hvalue
      obtain ⟨_, elem, shape, htensor, _⟩ := ownExtent_eq_some_iff.mp hextent
      rw [hvalue] at htensor
      cases htensor
    · rw [if_neg hsame] at hvalue
      rwa [← ownExtent_congr hvalue]

end

theorem ReplayInv.run {events : List FrameEvent} (hin : InBuffers session start)
    (hgranted : AlongRun (ExecutionFrame.apply session) (Granted session)
      start events)
    (h : start.run session events = .ok frame) :
    ReplayInv session start frame := by
  induction events using reverseRecOn generalizing frame with
  | nil =>
    rw [← foldlM_nil_eq_ok.mp h]
    exact .initial session start
  | append_singleton events event ih =>
    obtain ⟨mid, hmid, hstep⟩ := foldlM_snoc_eq_ok.mp h
    exact (ih hgranted.of_append hmid).apply hin (run_constant hmid)
      (hgranted.cond_of_snoc hmid) hstep

end ExecutionFrame

/-- A run that recorded its pattern.  Only graph inputs, initializers and
outputs are present before the run, never a value the plan allocates. -/
structure RecordedRun (session : SessionState)
    (outputsOf : NodeIndex → List MLValueIndex) where
  initial : List MLValue
  outputIndices : List MLValueIndex
  events : List FrameEvent
  final : ExecutionFrame
  group : MemoryPatternGroup
  initial_allocate : ∀ mlValueIdx,
    (session.executionPlan.allocPlan mlValueIdx).allocKind = .allocate →
      initial.getD mlValueIdx .unallocated = .unallocated
  scheduled : RunOf (session.schedule outputsOf) (events.map FrameEvent.life)
  run_eq : (ExecutionFrame.recording session initial outputIndices).run session
    events = .ok final
  generate_eq : final.generatePatterns = .ok group

def RecordedRun.start {session : SessionState}
    {outputsOf : NodeIndex → List MLValueIndex}
    (recorded : RecordedRun session outputsOf) : ExecutionFrame :=
  ExecutionFrame.recording session recorded.initial recorded.outputIndices

/-- A later run of the same plan on a recorded pattern.  It may fail on the
way, so nothing is said about its end. -/
structure ReplayedRun {session : SessionState}
    {outputsOf : NodeIndex → List MLValueIndex}
    (recorded : RecordedRun session outputsOf) where
  initial : List MLValue
  outputIndices : List MLValueIndex
  base : OrtAllocatorInfo → Nat
  events : List FrameEvent
  initial_allocate : ∀ mlValueIdx,
    (session.executionPlan.allocPlan mlValueIdx).allocKind = .allocate →
      initial.getD mlValueIdx .unallocated = .unallocated
  scheduled : RunOf (session.schedule outputsOf) (events.map FrameEvent.life)
  buffers_disjoint : (ExecutionFrame.replaying recorded.group base initial
    outputIndices).buffers.Pairwise fun left right => left.2.Disjoint right.2
  granted : AlongRun (ExecutionFrame.apply session)
    (ExecutionFrame.Granted session)
    (ExecutionFrame.replaying recorded.group base initial outputIndices) events

namespace ReplayedRun

variable {session : SessionState} {outputsOf : NodeIndex → List MLValueIndex}
  {recorded : RecordedRun session outputsOf}

def start (replayed : ReplayedRun recorded) : ExecutionFrame :=
  ExecutionFrame.replaying recorded.group replayed.base replayed.initial
    replayed.outputIndices

/-- The promise at every step of the run. -/
def Sound (replayed : ReplayedRun recorded) : Prop :=
  ∀ cut frame, cut <+: replayed.events →
    replayed.start.run session cut = .ok frame →
    ExecutionFrame.ReplaySound session replayed.start frame

end ReplayedRun

theorem MLValuePatternPlanner.getPatterns_generatePatterns
    (planner : MLValuePatternPlanner) (location : OrtAllocatorInfo) :
    planner.generatePatterns.getPatterns location =
      (planner.plannerMap.lookup location).map
        MemPatternPlanner.generateMemPattern := by
  rw [MemoryPatternGroup.getPatterns, generatePatterns, zip_map']
  exact lookup_map_value (fun _ => MemPatternPlanner.generateMemPattern) _ _

theorem MLValuePatternPlanner.lookup_create (plan : SequentialExecutionPlan)
    {location : OrtAllocatorInfo} {planner : MemPatternPlanner}
    (h : (create plan).plannerMap.lookup location = some planner) :
    planner = {} := by
  obtain ⟨_, _, heq⟩ := mem_map.1 (mem_of_lookup_eq_some h)
  cases heq
  rfl

namespace RecordedRun

variable {session : SessionState} {outputsOf : NodeIndex → List MLValueIndex}

/-- The history of the planner of a location. -/
def calls (recorded : RecordedRun session outputsOf)
    (location : OrtAllocatorInfo) : List TraceOp :=
  ExecutionFrame.callsOf session location recorded.start recorded.events

/-- No allocation traced in the run wraps the planned buffer. -/
def Fits (recorded : RecordedRun session outputsOf) : Prop :=
  AlongRun (ExecutionFrame.apply session) (ExecutionFrame.TraceFits session)
    recorded.start recorded.events

instance (recorded : RecordedRun session outputsOf) : Decidable recorded.Fits :=
  inferInstanceAs (Decidable (AlongRun _ _ _ _))

variable {recorded : RecordedRun session outputsOf}
  {location : OrtAllocatorInfo} {cut : List FrameEvent} {frame : ExecutionFrame}
  {pattern : MemoryPattern} {mlValueIdx : MLValueIndex}

/-- The planner of a location at any moment of the run. -/
theorem plannerAt_eq {planner : MemPatternPlanner}
    (h : recorded.start.run session cut = .ok frame)
    (hplanner : frame.plannerAt location = some planner) :
    planner = TraceOp.planner
      (callsOf session location recorded.start cut) := by
  rw [plannerAt_run rfl h] at hplanner
  obtain ⟨first, hfirst, rfl⟩ := map_eq_some_iff.mp hplanner
  rw [MLValuePatternPlanner.lookup_create _ hfirst]
  rfl

section

variable (h : recorded.group.getPatterns location = some pattern)
include h

theorem exists_plannerAt :
    ∃ last, recorded.final.plannerAt location = some last ∧
      pattern = last.generateMemPattern := by
  have hgenerate := recorded.generate_eq
  rw [generatePatterns] at hgenerate
  split at hgenerate
  · cases hgenerate
  · rename_i planner hplanner
    rw [← Except.ok.inj hgenerate, planner.getPatterns_generatePatterns] at h
    obtain ⟨last, hlast, rfl⟩ := map_eq_some_iff.mp h
    exact ⟨last, by rw [plannerAt, hplanner]; exact hlast, rfl⟩

/-- A cached pattern is that of the whole history of its location. -/
theorem getPatterns_eq :
    pattern =
      (TraceOp.planner (recorded.calls location)).generateMemPattern := by
  obtain ⟨last, hlast, rfl⟩ := exists_plannerAt h
  rw [plannerAt_eq recorded.run_eq hlast]
  rfl

end

theorem callsAt_eq_nil_of_ne
    (h : location ≠ (session.executionPlan.allocPlan event.index).location) :
    frame.callsAt session location event = [] := by
  cases event with
  | output mlValueIdx shape fresh =>
    rcases callsAt_output_cases session location frame
      mlValueIdx shape fresh with hcalls | ⟨_, _, hpatterned, _⟩
    · exact hcalls
    · exact absurd hpatterned.atLocation h
  | release mlValueIdx =>
    have hne : location ≠
        (session.executionPlan.allocPlan mlValueIdx).location := h
    simp only [callsAt, hne, false_and]
    split <;> rfl

theorem noWrap_calls (hfits : recorded.Fits)
    (hpattern : recorded.group.getPatterns location = some pattern) :
    NoWrap (recorded.calls location) := by
  have hplanner : ∃ first, recorded.start.plannerAt location = some first := by
    obtain ⟨last, hlast, _⟩ := exists_plannerAt hpattern
    rw [plannerAt_run rfl recorded.run_eq] at hlast
    obtain ⟨first, hfirst, _⟩ := map_eq_some_iff.mp hlast
    exact ⟨first, hfirst⟩
  have hcut : ∀ cut frame, recorded.start.run session cut = .ok frame →
      AlongRun (ExecutionFrame.apply session)
        (ExecutionFrame.TraceFits session) recorded.start cut →
      NoWrap (callsOf session location recorded.start cut) := by
    intro cut
    induction cut using reverseRecOn with
    | nil => exact fun _ _ _ => noWrap_nil
    | append_singleton cut event ih =>
      intro frame hrun halong
      obtain ⟨mid, hmid, _⟩ := foldlM_snoc_eq_ok.mp hrun
      have hearlier := ih mid hmid halong.of_append
      rw [callsOf_snoc hmid]
      by_cases hlocation : location =
          (session.executionPlan.allocPlan event.index).location
      · obtain ⟨first, hfirst⟩ := hplanner
        have hmidPlanner : mid.plannerAt location = _ :=
          plannerAt_run rfl hmid
        rw [hfirst] at hmidPlanner
        have hcond := halong.cond_of_snoc hmid
        simp only [ExecutionFrame.TraceFits, ← hlocation] at hcond
        have hfit := hcond _ hmidPlanner
        rw [plannerAt_eq hmid hmidPlanner] at hfit
        rcases callsAt_cases session location mid event with
          hcalls | ⟨op, hcalls⟩
        · rwa [hcalls, append_nil]
        · rw [hcalls] at hfit ⊢
          exact noWrap_snoc.mpr ⟨hearlier, hfit op (mem_singleton_self op)⟩
      · rwa [callsAt_eq_nil_of_ne hlocation, append_nil]
  exact hcut _ _ recorded.run_eq hfits

/-- What the pattern says about a value: it was traced in the run. -/
theorem patterned_of_getBlock
    (hwf : WellFormed (recorded.calls location))
    (hpattern : recorded.group.getPatterns location = some pattern)
    {block : MemoryBlock} (h : pattern.getBlock mlValueIdx = some block) :
    .alloc mlValueIdx ∈ recorded.events.map life ∧
      ∃ elem, session.Patterned location mlValueIdx elem := by
  rw [getPatterns_eq hpattern] at h
  have hmem := (MemPatternPlanner.getBlock_eq_some_iff hwf.allocs_nodup).mp h
  have hallocated : mlValueIdx ∈ allocated (recorded.calls location) := by
    rw [← allocs_map_index]
    exact mem_map_of_mem hmem
  obtain ⟨size, hsize⟩ := exists_of_mem_allocated hallocated
  exact (mem_callsOf_allocation recorded.run_eq hsize).2

/-- The frame at an earlier moment of the run. -/
theorem exists_frame_at {earlier : List (LifeEvent MLValueIndex)}
    (h : earlier <+: recorded.events.map life) :
    ∃ cut frame, cut <+: recorded.events ∧ earlier = cut.map life ∧
      recorded.start.run session cut = .ok frame := by
  have htake : earlier = (recorded.events.take earlier.length).map life := by
    rw [map_take]
    exact prefix_iff_eq_take.mp h
  have hrun := recorded.run_eq
  rw [← take_append_drop earlier.length recorded.events] at hrun
  obtain ⟨frame, hframe, _⟩ := foldlM_append_eq_ok.mp hrun
  exact ⟨_, frame, take_prefix _ _, htake, hframe⟩

theorem live_of_alive (hrun : recorded.start.run session cut = .ok frame)
    (hpatterned : session.Patterned location mlValueIdx elem)
    (halive : aliveAfter (fun _ => False) (cut.map life) mlValueIdx) :
    mlValueIdx ∈ (live (callsOf session location
      recorded.start cut)).map Prod.fst := by
  have hinitial : recorded.start.value mlValueIdx = .unallocated :=
    recorded.initial_allocate mlValueIdx hpatterned.isAllocate
  apply mem_live_callsOf hrun hpatterned hinitial
  rw [isAllocated_run hrun]
  refine (aliveAfter_congr ?_ _).mp halive
  rw [hinitial]
  simp [MLValue.isAllocated]

end RecordedRun

open RecordedRun

namespace ReplayedRun

variable {session : SessionState} {outputsOf : NodeIndex → List MLValueIndex}
  {recorded : RecordedRun session outputsOf} {replayed : ReplayedRun recorded}
  {cut : List FrameEvent} {mlValueIdx left right : MLValueIndex}
  {location : OrtAllocatorInfo}

theorem alive_of_ownExtent {frame : ExecutionFrame}
    (hrun : replayed.start.run session cut = .ok frame) {extent : Extent}
    (hinitial : replayed.start.value mlValueIdx = .unallocated)
    (hextent : frame.ownExtent session mlValueIdx = some extent) :
    aliveAfter (fun _ => False) (cut.map life) mlValueIdx := by
  obtain ⟨_, elem, shape, hvalue, _⟩ :=
    ownExtent_eq_some_iff.mp hextent
  refine (aliveAfter_congr ?_ _).mp
    ((isAllocated_run hrun mlValueIdx).mp (by rw [hvalue]; rfl))
  rw [hinitial]
  simp [MLValue.isAllocated]

theorem buffers_lookup (replayed : ReplayedRun recorded)
    (location : OrtAllocatorInfo) :
    replayed.start.buffers.lookup location =
      (recorded.group.getPatterns location).map fun pattern =>
        ⟨if 0 < pattern.peakSize then replayed.base location else 0,
          pattern.peakSize⟩ :=
  lookup_map_value (fun key (pattern : MemoryPattern) =>
    (⟨if 0 < pattern.peakSize then replayed.base key else 0,
      pattern.peakSize⟩ : Extent)) _ location

/-- The block behind a pattern address. -/
theorem exists_block {size address : Nat}
    (h : replayed.start.patternAddress session mlValueIdx location size =
      some address) :
    ∃ pattern block buffer, recorded.group.getPatterns location = some pattern ∧
      pattern.getBlock mlValueIdx = some block ∧
      replayed.start.buffers.lookup location = some buffer ∧
      buffer.size = pattern.peakSize ∧
      block.size = size ∧ address = buffer.offset + block.offset := by
  obtain ⟨group, pattern, block, buffer, hgroup, _, hpattern, hblock, hbuffer,
    hsize, haddress⟩ := patternAddress_eq_some h
  cases hgroup
  refine ⟨pattern, block, buffer, hpattern, hblock, hbuffer, ?_, hsize,
    haddress⟩
  rw [replayed.buffers_lookup, hpattern] at hbuffer
  cases hbuffer
  rfl

section

variable
    (hdefined : ((session.schedule outputsOf).flatMap
      ScheduleStep.outputs).Nodup) (hfits : recorded.Fits)
include hdefined

theorem wellFormed_calls (recorded : RecordedRun session outputsOf)
    (location : OrtAllocatorInfo) :
    WellFormed (recorded.calls location) :=
  wellFormed_callsOf hdefined recorded.scheduled (prefix_refl _) recorded.run_eq

include hfits

theorem inBuffers : ExecutionFrame.InBuffers session replayed.start := by
  intro mlValueIdx location size address haddress
  obtain ⟨pattern, block, buffer, hpattern, hblock, hbuffer, hpeak, rfl, rfl⟩ :=
    exists_block haddress
  rw [getPatterns_eq hpattern] at hpeak hblock
  have hwithin := (soundAfter_of_noWrap (wellFormed_calls hdefined _ _)
    (noWrap_calls hfits hpattern)).inPeak _ _ hblock
  refine ⟨buffer, hbuffer, Nat.le_add_right _ _, ?_⟩
  have hstop := hwithin.2
  simp only [Extent.stop] at hstop ⊢
  omega

/-- Two values that are live in the replay and share a location have disjoint
blocks: they were live together when the pattern was recorded. -/
theorem blocks_disjoint (hcut : cut <+: replayed.events)
    {pattern : MemoryPattern}
    (hpattern : recorded.group.getPatterns location = some pattern)
    (hne : left ≠ right)
    (hleft : aliveAfter (fun _ => False) (cut.map life) left)
    (hright : aliveAfter (fun _ => False) (cut.map life) right)
    {leftBlock rightBlock : MemoryBlock}
    (hleftBlock : pattern.getBlock left = some leftBlock)
    (hrightBlock : pattern.getBlock right = some rightBlock) :
    leftBlock.Disjoint rightBlock := by
  have hwf := wellFormed_calls hdefined recorded location
  obtain ⟨earlier, hearlier, htogether⟩ := exists_alive_together hdefined
    recorded.scheduled replayed.scheduled (hcut.map life)
  obtain ⟨moment, frame, hmoment, rfl, hrun⟩ :=
    exists_frame_at hearlier
  obtain ⟨hleftMem, leftElem, hleftPatterned⟩ :=
    patterned_of_getBlock hwf hpattern hleftBlock
  obtain ⟨hrightMem, rightElem, hrightPatterned⟩ :=
    patterned_of_getBlock hwf hpattern hrightBlock
  have hcalls : callsOf session location recorded.start moment
      <+: recorded.calls location := by
    obtain ⟨rest, hrest⟩ := hmoment
    rw [calls, ← hrest, callsOf_append hrun]
    exact prefix_append _ _
  rw [getPatterns_eq hpattern] at hleftBlock hrightBlock
  exact lifetimes_disjoint hwf (noWrap_calls hfits hpattern) hcalls hne
    (live_of_alive hrun hleftPatterned (htogether left hleftMem hleft))
    (live_of_alive hrun hrightPatterned
      (htogether right hrightMem hright)) hleftBlock hrightBlock

/-- Values in blocks are disjoint: in one buffer because their blocks are, in
two buffers because these are. -/
theorem placed_disjoint (hcut : cut <+: replayed.events) (hne : left ≠ right)
    (hleft : aliveAfter (fun _ => False) (cut.map life) left)
    (hright : aliveAfter (fun _ => False) (cut.map life) right)
    {leftLocation rightLocation : OrtAllocatorInfo}
    {leftExtent rightExtent : Extent}
    (hleftAddress : replayed.start.patternAddress session left leftLocation
      leftExtent.size = some leftExtent.offset)
    (hrightAddress : replayed.start.patternAddress session right rightLocation
      rightExtent.size = some rightExtent.offset) :
    leftExtent.Disjoint rightExtent := by
  by_cases hlocation : leftLocation = rightLocation
  · subst hlocation
    obtain ⟨pattern, leftBlock, buffer, hpattern, hleftBlock, hbuffer, _,
      hleftSize, hleftOffset⟩ := exists_block hleftAddress
    obtain ⟨_, rightBlock, other, hsame, hrightBlock, hother, _, hrightSize,
      hrightOffset⟩ := exists_block hrightAddress
    cases hpattern.symm.trans hsame
    cases hbuffer.symm.trans hother
    have hshift := (blocks_disjoint hdefined hfits hcut hpattern hne hleft
      hright hleftBlock hrightBlock).shift buffer.offset
    rwa [hleftSize, hrightSize, ← hleftOffset, ← hrightOffset] at hshift
  · obtain ⟨leftBuffer, hleftBuffer, hleftWithin⟩ :=
      inBuffers hdefined hfits left leftLocation _ _ hleftAddress
    obtain ⟨rightBuffer, hrightBuffer, hrightWithin⟩ :=
      inBuffers hdefined hfits right rightLocation _ _ hrightAddress
    have hsymm : Std.Symm fun left right : OrtAllocatorInfo × Extent =>
        left.2.Disjoint right.2 := ⟨fun _ _ h => h.symm⟩
    have hbuffers : leftBuffer.Disjoint rightBuffer :=
      replayed.buffers_disjoint.forall (mem_of_lookup_eq_some hleftBuffer)
        (mem_of_lookup_eq_some hrightBuffer)
        fun heq => hlocation (congrArg Prod.fst heq)
    exact ((hbuffers.of_within hrightWithin).symm.of_within hleftWithin).symm

end

/-- Replaying a pattern is safe at every step, for whatever sizes the second
run asks for, if no allocation wrapped while the pattern was recorded. -/
theorem sound_of_fits (replayed : ReplayedRun recorded)
    (hdefined : ((session.schedule outputsOf).flatMap
      ScheduleStep.outputs).Nodup) (hfits : recorded.Fits) :
    replayed.Sound := by
  intro cut frame hcut hrun
  have hin : ExecutionFrame.InBuffers session replayed.start :=
    inBuffers hdefined hfits
  have hinv : ExecutionFrame.ReplayInv session replayed.start frame := by
    obtain ⟨rest, hrest⟩ := hcut
    have hgranted := replayed.granted
    rw [← hrest] at hgranted
    exact ExecutionFrame.ReplayInv.run hin hgranted.of_append hrun
  constructor
  · intro left right hne hleft hright leftExtent hleftExtent rightExtent
      hrightExtent
    cases hleftAddress : replayed.start.patternAddress session left
        (session.executionPlan.allocPlan left).location leftExtent.size with
    | none =>
      exact (hinv.separate left hleft leftExtent hleftExtent
        hleftAddress).2 right hne.symm hright rightExtent hrightExtent
    | some leftAddress =>
      cases hrightAddress : replayed.start.patternAddress session right
          (session.executionPlan.allocPlan right).location
          rightExtent.size with
      | none =>
        exact ((hinv.separate right hright rightExtent hrightExtent
          hrightAddress).2 left hne hleft leftExtent hleftExtent).symm
      | some rightAddress =>
        rw [← hinv.located left hleft leftExtent hleftExtent leftAddress
          hleftAddress] at hleftAddress
        rw [← hinv.located right hright rightExtent hrightExtent
          rightAddress hrightAddress] at hrightAddress
        exact placed_disjoint hdefined hfits hcut hne
          (alive_of_ownExtent hrun hleft hleftExtent)
          (alive_of_ownExtent hrun hright hrightExtent)
          hleftAddress hrightAddress
  · intro mlValueIdx hnew extent hextent address haddress
    have hoffset := hinv.located mlValueIdx hnew extent hextent address haddress
    obtain ⟨buffer, hbuffer, hwithin⟩ := hin _ _ _ _ haddress
    rw [← hoffset] at hwithin
    exact ⟨hoffset, buffer, hbuffer, hwithin⟩
  · intro mlValueIdx hnew extent hextent haddress
    exact (hinv.separate mlValueIdx hnew extent hextent haddress).1

end ReplayedRun

/-- Four nodes in a row; values 0 and 1 are freed after the nodes 1 and 2. -/
def chainSession : SessionState where
  executionPlan :=
    { allocationPlan := List.replicate 4
        { valueType := some (.tensorType .int64) }
      executionPlan := [{ nodeIndex := 0 },
        { nodeIndex := 1, freeFromIndex := 0, freeToIndex := 0 },
        { nodeIndex := 2, freeFromIndex := 1, freeToIndex := 1 },
        { nodeIndex := 3 }]
      toBeFreed := [0, 1] }
  elementSize := ElemType.size

/-- A run of the chain: the number of elements and the address of each value. -/
def chainEvents (a b c d : Nat × Nat) : List FrameEvent :=
  [.output 0 [Int.ofNat a.1] a.2, .output 1 [Int.ofNat b.1] b.2, .release 0,
    .output 2 [Int.ofNat c.1] c.2, .release 1, .output 3 [Int.ofNat d.1] d.2]

theorem chainEvents_scheduled (a b c d : Nat × Nat) :
    RunOf (chainSession.schedule fun node => [node])
      ((chainEvents a b c d).map life) :=
  @RunOf.cons _ ⟨[0], []⟩ _ [0] _ (by simp)
    (@RunOf.cons _ ⟨[1], [0]⟩ _ [1] _ (by simp)
      (@RunOf.cons _ ⟨[2], [1]⟩ _ [2] _ (by simp)
        (@RunOf.cons _ ⟨[3], []⟩ _ [3] _ (by simp) .nil)))

theorem replicate_getD_unallocated (count mlValueIdx : Nat) :
    (replicate count MLValue.unallocated).getD mlValueIdx .unallocated =
      .unallocated := by
  rw [getD_eq_getElem?_getD, getElem?_replicate]
  split <;> rfl

/-- The chain with small values. -/
def smallRecorded : RecordedRun chainSession fun node => [node] where
  initial := List.replicate 4 .unallocated
  outputIndices := []
  events := chainEvents (8, 64) (16, 128) (8, 64) (8, 128)
  final := okValue _ (by decide +kernel)
  group := okValue _ (by decide +kernel)
  initial_allocate mlValueIdx _ := replicate_getD_unallocated 4 mlValueIdx
  scheduled := chainEvents_scheduled _ _ _ _
  run_eq := eq_ok_okValue _ _
  generate_eq := eq_ok_okValue _ _

/-- Its pattern replayed with a larger third value, which gets a buffer of its
own. -/
def smallReplayed : ReplayedRun smallRecorded where
  initial := List.replicate 4 .unallocated
  outputIndices := []
  base := fun _ => 1024
  events := chainEvents (8, 0) (16, 0) (24, 64) (8, 0)
  initial_allocate mlValueIdx _ := replicate_getD_unallocated 4 mlValueIdx
  scheduled := chainEvents_scheduled _ _ _ _
  buffers_disjoint := List.pairwise_singleton _ _
  granted := by decide +kernel

theorem sound_smallReplayed :
    ((chainSession.schedule fun node => [node]).flatMap
        ScheduleStep.outputs).Nodup ∧
      smallRecorded.Fits ∧ smallReplayed.Sound := by
  have hdefined : ((chainSession.schedule fun node => [node]).flatMap
      ScheduleStep.outputs).Nodup := by decide
  have hfits : smallRecorded.Fits := by decide
  exact ⟨hdefined, hfits, smallReplayed.sound_of_fits hdefined hfits⟩

/-- The chain with values of a quarter to a half of the address space.  No
two values that are live together exceed it. -/
def hugeRecorded : RecordedRun chainSession fun node => [node] where
  initial := List.replicate 4 .unallocated
  outputIndices := []
  events := chainEvents (2 ^ 59, 64) (2 ^ 59, 2 ^ 62 + 64)
    (2 ^ 59 + 8, 2 ^ 63 + 128) (2 ^ 60 + 8, 64)
  final := okValue _ (by decide +kernel)
  group := okValue _ (by decide +kernel)
  initial_allocate mlValueIdx _ := replicate_getD_unallocated 4 mlValueIdx
  scheduled := chainEvents_scheduled _ _ _ _
  run_eq := eq_ok_okValue _ _
  generate_eq := eq_ok_okValue _ _

def hugeReplayed : ReplayedRun hugeRecorded where
  initial := List.replicate 4 .unallocated
  outputIndices := []
  base := fun _ => 64
  events := hugeRecorded.events
  initial_allocate mlValueIdx _ := replicate_getD_unallocated 4 mlValueIdx
  scheduled := chainEvents_scheduled _ _ _ _
  buffers_disjoint := List.pairwise_singleton _ _
  granted := by decide +kernel

/-- The end of the fourth block wraps, so the planned buffer stays smaller
than it, and the replay puts the fourth value behind the end of the buffer. -/
theorem not_sound_hugeReplayed :
    ((chainSession.schedule fun node => [node]).flatMap
        ScheduleStep.outputs).Nodup ∧
      AlongRun (ExecutionFrame.apply chainSession)
        (ExecutionFrame.Granted chainSession) hugeRecorded.start
        hugeRecorded.events ∧
      ¬ hugeReplayed.Sound := by
  constructor
  · decide
  constructor
  · decide +kernel
  · intro hsound
    have hplaced := (hsound hugeReplayed.events _ (prefix_refl _)
      (eq_ok_okValue _ (by decide +kernel))).placed 3 rfl
      ⟨2 ^ 63 + 2 ^ 62 + 128, 2 ^ 63 + 64⟩ (by decide +kernel)
      (2 ^ 63 + 2 ^ 62 + 128) (by decide +kernel)
    obtain ⟨_, buffer, hbuffer, hwithin⟩ := hplaced
    cases hbuffer
    exact absurd hwithin (by decide)

end OnnxRuntime
