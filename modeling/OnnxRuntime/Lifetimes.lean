/-
Lifetimes under a fixed schedule.  A schedule lists, step by step, what may be
allocated and what is freed afterwards; a run picks what it allocates.  Two
runs of one schedule agree on which of the things both allocate are alive
together.
-/
import Mathlib.Data.List.Nodup
import Mathlib.Data.List.Infix

namespace OnnxRuntime

open List

universe u

variable {V : Type u}

/-- What one step of a schedule may allocate, and what is freed after it. -/
structure ScheduleStep (V : Type u) where
  outputs : List V
  frees : List V

inductive LifeEvent (V : Type u) where
  | alloc (value : V)
  | free (value : V)

/-- The events of a run: in each step some of the outputs are allocated, in
any order and possibly repeatedly, then the frees of the step take place. -/
inductive RunOf : List (ScheduleStep V) → List (LifeEvent V) → Prop
  | nil : RunOf [] []
  | cons {step : ScheduleStep V} {rest : List (ScheduleStep V)}
      {requests : List V} {events : List (LifeEvent V)}
      (hrequests : requests ⊆ step.outputs) (hrest : RunOf rest events) :
      RunOf (step :: rest)
        (requests.map .alloc ++ step.frees.map .free ++ events)

/-- What is alive after a list of events, given what was alive before. -/
def aliveAfter (carried : V → Prop) : List (LifeEvent V) → V → Prop
  | [] => carried
  | .alloc value :: rest => aliveAfter (fun w => w = value ∨ carried w) rest
  | .free value :: rest => aliveAfter (fun w => w ≠ value ∧ carried w) rest

section

variable (carried : V → Prop)

theorem aliveAfter_append (front back : List (LifeEvent V)) :
    aliveAfter carried (front ++ back) =
      aliveAfter (aliveAfter carried front) back := by
  induction front generalizing carried with
  | nil => rfl
  | cons event rest ih => cases event <;> exact ih _

theorem aliveAfter_allocs (requests : List V) (value : V) :
    aliveAfter carried (requests.map .alloc) value ↔
      value ∈ requests ∨ carried value := by
  induction requests generalizing carried with
  | nil => simp [aliveAfter]
  | cons head rest ih =>
    simp only [map_cons, aliveAfter, ih, mem_cons]
    tauto

theorem aliveAfter_frees (frees : List V) (value : V) :
    aliveAfter carried (frees.map .free) value ↔
      value ∉ frees ∧ carried value := by
  induction frees generalizing carried with
  | nil => simp [aliveAfter]
  | cons head rest ih =>
    simp only [map_cons, aliveAfter, ih, mem_cons]
    tauto

variable (events : List (LifeEvent V))

theorem aliveAfter_snoc_alloc (allocated value : V) :
    aliveAfter carried (events ++ [.alloc allocated]) value ↔
      value = allocated ∨ aliveAfter carried events value := by
  rw [aliveAfter_append]
  rfl

theorem aliveAfter_snoc_free (freed value : V) :
    aliveAfter carried (events ++ [.free freed]) value ↔
      value ≠ freed ∧ aliveAfter carried events value := by
  rw [aliveAfter_append]
  rfl

end

variable {carried : V → Prop} {value : V} {schedule : List (ScheduleStep V)}
  {events first second cut : List (LifeEvent V)} {α : Type u}
  {front back : List α}

/-- Only what was alive before matters to a value, and only for itself. -/
theorem aliveAfter_congr {carried' : V → Prop}
    (h : carried value ↔ carried' value) (events : List (LifeEvent V)) :
    aliveAfter carried events value ↔ aliveAfter carried' events value := by
  induction events using reverseRecOn with
  | nil => exact h
  | append_singleton events event ih =>
    cases event with
    | alloc other => simp only [aliveAfter_snoc_alloc, ih]
    | free other => simp only [aliveAfter_snoc_free, ih]

theorem alloc_mem_step {requests frees : List V} :
    .alloc value ∈ requests.map .alloc ++ frees.map .free ++ events ↔
      value ∈ requests ∨ .alloc value ∈ events := by
  simp

/-- Only listed outputs are ever allocated. -/
theorem RunOf.mem_outputs (h : RunOf schedule events)
    (hmem : .alloc value ∈ events) :
    value ∈ schedule.flatMap ScheduleStep.outputs := by
  induction h with
  | nil => simp at hmem
  | @cons step rest requests events hrequests _ ih =>
    rw [alloc_mem_step] at hmem
    rw [flatMap_cons, mem_append]
    rcases hmem with hmem | hmem
    · exact .inl (hrequests hmem)
    · exact .inr (ih hmem)

/-- An initial part of `front ++ back` ends in `front`, or covers it. -/
theorem initial_append_cases {cut : List α} (h : cut <+: front ++ back) :
    cut <+: front ∨ ∃ tail, cut = front ++ tail ∧ tail <+: back := by
  rcases prefix_or_prefix_of_prefix h (prefix_append front back) with
    hcut | ⟨tail, rfl⟩
  · exact .inl hcut
  · exact .inr ⟨tail, rfl, (prefix_append_right_inj front).mp h⟩

theorem aliveAfter_cases (h : aliveAfter carried events value) :
    .alloc value ∈ events ∨ carried value := by
  induction events using reverseRecOn with
  | nil => exact .inr h
  | append_singleton events event ih =>
    cases event with
    | alloc other =>
      rcases (aliveAfter_snoc_alloc carried events other value).mp h with
        rfl | h
      · exact .inl (by simp)
      · exact (ih h).imp_left (mem_append_left _)
    | free other =>
      have hold := ((aliveAfter_snoc_free carried events other value).mp h).2
      exact (ih hold).imp_left (mem_append_left _)

section

variable (hnodup : (schedule.flatMap ScheduleStep.outputs).Nodup)
    (hfirst : RunOf schedule first) (hsecond : RunOf schedule second)
    (hcut : cut <+: second)
include hnodup hfirst hsecond hcut

/-- The step lemma behind `exists_alive_together`.  `recorded` are the values
the first run allocates at all; what the second run carries into the schedule
and is recorded is carried by the first as well. -/
theorem exists_alive_together_from {recorded : V → Prop}
    {carriedFirst carriedSecond : V → Prop}
    (hrecorded : ∀ value ∈ schedule.flatMap ScheduleStep.outputs,
      recorded value → .alloc value ∈ first)
    (hcarried : ∀ value, recorded value → carriedSecond value →
      carriedFirst value) :
    ∃ earlier, earlier <+: first ∧ ∀ value, recorded value →
      aliveAfter carriedSecond cut value →
        aliveAfter carriedFirst earlier value := by
  induction schedule generalizing first second cut carriedFirst carriedSecond with
  | nil =>
    cases hsecond
    rw [prefix_nil.mp hcut]
    exact ⟨[], nil_prefix, hcarried⟩
  | cons step rest ih =>
    obtain _ | @⟨_, _, requests, firstRest, hrequests, hfirstRest⟩ := hfirst
    obtain _ | @⟨_, _, asked, secondRest, hasked, hsecondRest⟩ := hsecond
    rw [flatMap_cons, nodup_append] at hnodup
    have hask : ∀ value, recorded value → value ∈ step.outputs →
        value ∈ requests := by
      intro value hvalue houtput
      have hmem := hrecorded value (by simp [houtput]) hvalue
      rw [alloc_mem_step] at hmem
      rcases hmem with hmem | hmem
      · exact hmem
      · exact absurd rfl
          (hnodup.2.2 value houtput value (hfirstRest.mem_outputs hmem))
    rcases initial_append_cases hcut with hcut | ⟨tail, rfl, htail⟩
    · -- The cut lies in this step: compare right after the allocations.
      refine ⟨requests.map .alloc, ?_, ?_⟩
      · rw [append_assoc]
        exact prefix_append _ _
      · intro value hvalue halive
        rw [aliveAfter_allocs]
        rcases aliveAfter_cases halive with hmem | hold
        · have hmem : value ∈ asked := by simpa using hcut.subset hmem
          exact .inl (hask value hvalue (hasked hmem))
        · exact .inr (hcarried value hvalue hold)
    · have hstep : ∀ value, recorded value → aliveAfter carriedSecond
            (asked.map .alloc ++ step.frees.map .free) value →
          aliveAfter carriedFirst
            (requests.map .alloc ++ step.frees.map .free) value := by
        intro value hvalue halive
        rw [aliveAfter_append, aliveAfter_frees, aliveAfter_allocs] at halive ⊢
        refine ⟨halive.1, ?_⟩
        rcases halive.2 with hmem | hold
        · exact .inl (hask value hvalue (hasked hmem))
        · exact .inr (hcarried value hvalue hold)
      obtain ⟨earlier, hearlier, htogether⟩ := ih hnodup.2.1 hfirstRest
        hsecondRest htail (fun value houtput hvalue => by
          have hmem := hrecorded value (by simp [houtput]) hvalue
          rw [alloc_mem_step] at hmem
          rcases hmem with hmem | hmem
          · exact absurd rfl (hnodup.2.2 value (hrequests hmem) value houtput)
          · exact hmem) hstep
      refine ⟨requests.map .alloc ++ step.frees.map .free ++ earlier,
        (prefix_append_right_inj _).mpr hearlier, ?_⟩
      intro value hvalue halive
      rw [aliveAfter_append] at halive ⊢
      exact htogether value hvalue halive

/-- Whatever is alive at one moment of the second run, and was allocated in
the first run at all, was alive at one common moment of the first run. -/
theorem exists_alive_together :
    ∃ earlier, earlier <+: first ∧ ∀ value, .alloc value ∈ first →
      aliveAfter (fun _ => False) cut value →
        aliveAfter (fun _ => False) earlier value :=
  exists_alive_together_from hnodup hfirst hsecond hcut
    (fun _ _ hmem => hmem) (fun _ _ hfalse => hfalse)

end

theorem aliveAfter_of_allocs
    (hallocs : ∀ event ∈ events, ∃ other, event = .alloc other)
    (hmem : .alloc value ∈ events) (carried : V → Prop) :
    aliveAfter carried events value := by
  induction events using reverseRecOn with
  | nil => simp at hmem
  | append_singleton events event ih =>
    obtain ⟨other, rfl⟩ := hallocs event (by simp)
    rw [aliveAfter_snoc_alloc]
    rcases mem_append.mp hmem with hmem | hmem
    · exact .inr (ih (fun event hevent =>
        hallocs event (mem_append_left _ hevent)) hmem)
    · exact .inl (LifeEvent.alloc.inj (mem_singleton.mp hmem))

/-- An initial part of `front ++ back` that ends with `last` ends in `front`
or cuts `back` behind `last`. -/
theorem initial_snoc_cases {cut : List α} {last : α}
    (h : cut ++ [last] <+: front ++ back) :
    cut ++ [last] <+: front ∨
      ∃ tail, cut = front ++ tail ∧ tail ++ [last] <+: back := by
  rcases initial_append_cases h with hcut | ⟨tail, heq, htail⟩
  · exact .inl hcut
  · rcases eq_nil_or_concat tail with rfl | ⟨tail, other, rfl⟩
    · rw [append_nil] at heq
      exact .inl (heq ▸ prefix_refl _)
    · rw [concat_eq_append, ← append_assoc] at heq
      obtain ⟨rfl, hlast⟩ := append_inj' heq rfl
      rw [concat_eq_append, ← singleton_inj.mp hlast] at htail
      exact .inr ⟨tail, rfl, htail⟩

/-- A value is asked for again only while it is alive. -/
theorem RunOf.alive_of_repeated {earlier : List (LifeEvent V)}
    (hnodup : (schedule.flatMap ScheduleStep.outputs).Nodup)
    (h : RunOf schedule events)
    (hearlier : earlier ++ [.alloc value] <+: events)
    (hmem : .alloc value ∈ earlier) (carried : V → Prop) :
    aliveAfter carried earlier value := by
  induction h generalizing earlier carried with
  | nil => simp at hearlier
  | @cons step rest requests events hrequests hrest ih =>
    rw [flatMap_cons, nodup_append] at hnodup
    rw [append_assoc] at hearlier
    rcases initial_snoc_cases hearlier with hcut | ⟨tail, rfl, htail⟩
    · -- Nothing has been freed yet in this step.
      have hsubset : earlier ⊆ requests.map .alloc :=
        fun _ hevent => hcut.subset (mem_append_left _ hevent)
      exact aliveAfter_of_allocs (fun event hevent => by
        obtain ⟨request, _, rfl⟩ := mem_map.mp (hsubset hevent)
        exact ⟨request, rfl⟩) hmem carried
    · rcases initial_snoc_cases htail with hcut | ⟨rear, rfl, hrear⟩
      · have hlast : LifeEvent.alloc value ∈ step.frees.map .free :=
          hcut.subset (by simp)
        simp at hlast
      · have hlater : value ∈ rest.flatMap ScheduleStep.outputs :=
          hrest.mem_outputs (hrear.subset (by simp))
        rw [← append_assoc, aliveAfter_append]
        apply ih hnodup.2.1 hrear
        rw [← append_assoc, alloc_mem_step] at hmem
        rcases hmem with hmem | hmem
        · exact absurd rfl (hnodup.2.2 value (hrequests hmem) value hlater)
        · exact hmem

end OnnxRuntime
