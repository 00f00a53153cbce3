/-
When two kernel definitions are in conflict, and which definitions a registry
accepts.
-/
import OnnxRuntime.ExecutionPlan
import OnnxRuntime.ExceptRuns
import OnnxRuntime.Status
import OnnxRuntime.Tables

namespace OnnxRuntime

open List Option

/-- The value of the enumeration as a `size_t`. -/
def OrtMemType.key : OrtMemType → Nat
  | .cpuInput => 2 ^ 64 - 2
  | .cpuOutput => 2 ^ 64 - 1
  | .default => 0

/-- A `std::map` from positions to memory types, in its order. -/
abbrev MemTypeMap := List (Nat × OrtMemType)

/-- What `IsConflict` compares.  `τ` are the data types. -/
structure KernelDefinition (τ : Type) where
  opName : String
  provider : String
  opSinceVersionStart : Int := 1
  opSinceVersionEnd : Int := 2147483647
  typeConstraints : List (String × List τ) := []
  inplaceMap : List (Int × Int) := []
  aliasMap : List (Int × Int) := []
  inputMemoryTypeArgs : MemTypeMap := []
  outputMemoryTypeArgs : MemTypeMap := []
  constraintOnce : (typeConstraints.map Prod.fst).Nodup := by decide

namespace KernelDefinition

variable {τ : Type} [DecidableEq τ] (mine other : KernelDefinition τ)

def areIntervalsOverlap (start1 end1 start2 end2 : Int) : Bool :=
  start1 ≤ end2 ∧ start2 ≤ end1

def areVectorsOverlap (v1 v2 : List τ) : Bool := v1.any (· ∈ v2)

/-- There is no constraint of both whose types are apart. -/
def typeHasConflict : Bool :=
  mine.typeConstraints.all fun constraint =>
    match other.typeConstraints.lookup constraint.1 with
    | some types => areVectorsOverlap constraint.2 types
    | none => true

/-- The loop over output memory types: `find(it.second)` may be the end. -/
def checkOutputs (others : MemTypeMap) : MemTypeMap → Except Failure Bool
  | [] => .ok true
  | (position, memType) :: rest =>
    if (others.lookup position).isSome then
      match others.lookup memType.key with
      | none => .error .nullDereference
      | some found =>
        if found = memType then .ok false else checkOutputs others rest
    else checkOutputs others rest

def isConflict : Except Failure Bool :=
  if mine.opName ≠ other.opName ∨ mine.provider ≠ other.provider then
    .ok false
  else if ¬ areIntervalsOverlap mine.opSinceVersionStart mine.opSinceVersionEnd
      other.opSinceVersionStart other.opSinceVersionEnd then .ok false
  else if ¬ mine.typeHasConflict other then .ok false
  else if mine.inplaceMap = [] ∧ other.inplaceMap ≠ [] then .ok false
  else if ¬ mine.inplaceMap.all (· ∈ other.inplaceMap) then .ok false
  else if ¬ mine.aliasMap.all (· ∈ other.aliasMap) then .ok false
  else if mine.aliasMap = [] ∧ other.aliasMap ≠ [] then .ok false
  else if mine.inputMemoryTypeArgs.any fun entry =>
      other.inputMemoryTypeArgs.lookup entry.1 = some entry.2 then .ok false
  else if mine.inputMemoryTypeArgs = [] ∧ other.inputMemoryTypeArgs ≠ [] then
    .ok false
  else do
    let differ ← checkOutputs other.outputMemoryTypeArgs
      mine.outputMemoryTypeArgs
    return differ && ! decide (mine.outputMemoryTypeArgs = [] ∧
      other.outputMemoryTypeArgs ≠ [])

end KernelDefinition

/-- A registered definition, and whether its status is OK. -/
structure RegisteredKernel (τ : Type) where
  kernelDef : KernelDefinition τ
  accepted : Bool

/-- The definitions of a `KernelRegistry`, in the order of their insertion. -/
abbrev KernelDefRegistry (τ : Type) := List (RegisteredKernel τ)

namespace KernelDefRegistry

variable {τ : Type} [DecidableEq τ]

/-- Whether an accepted definition of the name is in conflict. -/
def conflicts (kernelDef : KernelDefinition τ) :
    KernelDefRegistry τ → Except Failure Bool
  | [] => .ok false
  | entry :: rest =>
    if entry.kernelDef.opName = kernelDef.opName ∧ entry.accepted then do
      let conflict ← entry.kernelDef.isConflict kernelDef
      if conflict then return true else conflicts kernelDef rest
    else conflicts kernelDef rest

/-- `Register`: a definition in conflict is kept with a failed status. -/
def register (registry : KernelDefRegistry τ)
    (kernelDef : KernelDefinition τ) : Except Failure (KernelDefRegistry τ) := do
  let conflict ← conflicts kernelDef registry
  return registry ++ [⟨kernelDef, !conflict⟩]

/-- The registry after definitions are registered one after the other. -/
def registerAll (defs : List (KernelDefinition τ)) :
    Except Failure (KernelDefRegistry τ) :=
  defs.foldlM register []

end KernelDefRegistry

namespace KernelDefinition

variable {τ : Type} [DecidableEq τ] {mine other : KernelDefinition τ}

section Relation

/-- The same operator on the same provider, for common versions and types. -/
structure Competing (mine other : KernelDefinition τ) : Prop where
  opName : mine.opName = other.opName
  provider : mine.provider = other.provider
  versions : areIntervalsOverlap mine.opSinceVersionStart
    mine.opSinceVersionEnd other.opSinceVersionStart other.opSinceVersionEnd
  types : mine.typeHasConflict other

/-- All pairs of one list are in the other; only both are empty. -/
def Covered (pairs others : List (Int × Int)) : Prop :=
  (∀ pair ∈ pairs, pair ∈ others) ∧ (pairs = [] → others = [])

/-- The in-place and alias pairs of one definition are those of the other, or
some of them. -/
def Covers (mine other : KernelDefinition τ) : Prop :=
  Covered mine.inplaceMap other.inplaceMap ∧
    Covered mine.aliasMap other.aliasMap

/-- The entry ends the loop over memory types. -/
def Stops (others : MemTypeMap) (entry : Nat × OrtMemType) : Prop :=
  (others.lookup entry.1).isSome ∧ others.lookup entry.2.key = some entry.2

/-- Where the loop comes to an entry of a common position, the position that
it looks up exists. -/
def Readable (memTypes others : MemTypeMap) : Prop :=
  ∀ front entry back, memTypes = front ++ entry :: back →
    (∀ earlier ∈ front, ¬ Stops others earlier) →
    (others.lookup entry.1).isSome → (others.lookup entry.2.key).isSome

/-- No entry ends the loop, and only both maps are empty. -/
def Differ (memTypes others : MemTypeMap) : Prop :=
  (∀ entry ∈ memTypes, (others.lookup entry.1).isSome →
    ∃ found, others.lookup entry.2.key = some found ∧ found ≠ entry.2) ∧
  (memTypes = [] → others = [])

variable {entry : Nat × OrtMemType} {rest others : MemTypeMap}

theorem readable_cons : Readable (entry :: rest) others ↔
      ((others.lookup entry.1).isSome → (others.lookup entry.2.key).isSome) ∧
      (¬ Stops others entry → Readable rest others) := by
  constructor
  · intro h
    refine ⟨h [] entry rest rfl nofun, fun hgo front later back hrest hfront =>
      h (entry :: front) later back (by rw [hrest]; rfl) ?_⟩
    intro earlier hearlier
    rcases mem_cons.1 hearlier with rfl | hmem
    · exact hgo
    · exact hfront earlier hmem
  · rintro ⟨hhead, htail⟩ front later back hsplit hfront
    cases front with
    | nil =>
      cases hsplit
      exact hhead
    | cons first front =>
      cases hsplit
      exact htail (hfront entry mem_cons_self) front later back rfl
        fun earlier hmem => hfront earlier (mem_cons_of_mem _ hmem)

theorem checkOutputs_cons_of_go (hgo : ¬ Stops others entry)
    (hread : (others.lookup entry.1).isSome →
      (others.lookup entry.2.key).isSome) :
    checkOutputs others (entry :: rest) = checkOutputs others rest := by
  obtain ⟨position, memType⟩ := entry
  rw [checkOutputs]
  split
  · rename_i hcommon
    obtain ⟨found, hfound⟩ := isSome_iff_exists.1 (hread hcommon)
    have hne : found ≠ memType := by
      rintro rfl
      exact hgo ⟨hcommon, hfound⟩
    rw [hfound]
    exact if_neg hne
  · rfl

/-- How the loop over output memory types ends. -/
theorem checkOutputs_cases (memTypes others : MemTypeMap) :
    (checkOutputs others memTypes = .ok true ∧ Readable memTypes others ∧
      ∀ entry ∈ memTypes, (others.lookup entry.1).isSome →
        ∃ found, others.lookup entry.2.key = some found ∧ found ≠ entry.2) ∨
    (checkOutputs others memTypes = .ok false ∧ Readable memTypes others ∧
      ∃ entry ∈ memTypes, Stops others entry) ∨
    (checkOutputs others memTypes = .error .nullDereference ∧
      ¬ Readable memTypes others) := by
  induction memTypes with
  | nil =>
    refine .inl ⟨rfl, fun front entry back hsplit => ?_, nofun⟩
    simp at hsplit
  | cons entry rest ih =>
    rw [readable_cons]
    by_cases hread : (others.lookup entry.1).isSome →
        (others.lookup entry.2.key).isSome
    · by_cases hstop : Stops others entry
      · refine .inr (.inl ⟨?_, ⟨hread, fun hgo => absurd hstop hgo⟩,
          entry, mem_cons_self, hstop⟩)
        simp only [checkOutputs, hstop.1, if_true, hstop.2]
      · rw [checkOutputs_cons_of_go hstop hread]
        rcases ih with ⟨hok, hrest, hall⟩ | ⟨hok, hrest, hlater⟩ |
          ⟨herror, hrest⟩
        · refine .inl ⟨hok, ⟨hread, fun _ => hrest⟩, ?_⟩
          intro later hlater hcommon
          rcases mem_cons.1 hlater with rfl | hmem
          · obtain ⟨found, hfound⟩ :=
              isSome_iff_exists.1 (hread hcommon)
            exact ⟨found, hfound, fun heq => hstop ⟨hcommon, heq ▸ hfound⟩⟩
          · exact hall later hmem hcommon
        · obtain ⟨later, hmem, hlater⟩ := hlater
          exact .inr (.inl ⟨hok, ⟨hread, fun _ => hrest⟩, later,
            mem_cons_of_mem _ hmem, hlater⟩)
        · exact .inr (.inr ⟨herror, fun h => hrest (h.2 hstop)⟩)
    · refine .inr (.inr ⟨?_, fun h => hread h.1⟩)
      obtain ⟨hcommon, hnone⟩ := Classical.not_imp.1 hread
      rw [not_isSome_iff_eq_none] at hnone
      simp only [checkOutputs, hcommon, if_true, hnone]

theorem not_stops_of_differ {memTypes : MemTypeMap}
    (h : Differ memTypes others) (hmem : entry ∈ memTypes) :
    ¬ Stops others entry := by
  rintro ⟨hcommon, hstop⟩
  obtain ⟨found, hfound, hne⟩ := h.1 entry hmem hcommon
  rw [hstop] at hfound
  exact hne (some.inj hfound).symm

theorem isConflict_of_not (h : ¬ (Competing mine other ∧ Covers mine other)) :
    mine.isConflict other = .ok false := by
  refine ite_eq_left_iff.2 fun hname => ite_eq_left_iff.2 fun hversions =>
    ite_eq_left_iff.2 fun htypes => ite_eq_left_iff.2 fun hinplaceNil =>
    ite_eq_left_iff.2 fun hinplace => ite_eq_left_iff.2 fun halias =>
    ite_eq_left_iff.2 fun haliasNil => ?_
  refine absurd ⟨⟨?_, ?_, not_not.1 hversions, not_not.1 htypes⟩, ⟨?_, ?_⟩,
    ?_, ?_⟩ h
  · exact not_not.1 (not_or.1 hname).1
  · exact not_not.1 (not_or.1 hname).2
  · simpa using hinplace
  · exact fun hnil => not_not.1 fun hne => hinplaceNil ⟨hnil, hne⟩
  · simpa using halias
  · exact fun hnil => not_not.1 fun hne => haliasNil ⟨hnil, hne⟩

theorem areVectorsOverlap_iff {v1 v2 : List τ} :
    areVectorsOverlap v1 v2 ↔ ∃ type ∈ v1, type ∈ v2 := by
  simp [areVectorsOverlap]

theorem typeHasConflict_iff : mine.typeHasConflict other ↔
    ∀ name types types', (name, types) ∈ mine.typeConstraints →
      (name, types') ∈ other.typeConstraints →
      ∃ type ∈ types, type ∈ types' := by
  simp only [typeHasConflict, List.all_eq_true]
  constructor
  · intro h name types types' hmem hmem'
    have hname := h (name, types) hmem
    rw [(lookup_eq_some_iff_mem other.constraintOnce).2 hmem'] at hname
    exact areVectorsOverlap_iff.1 hname
  · rintro h ⟨name, types⟩ hmem
    split
    · rename_i types' hlookup
      exact areVectorsOverlap_iff.2
        (h name types types' hmem (mem_of_lookup_eq_some hlookup))
    · rfl

theorem Competing.symm (h : Competing mine other) : Competing other mine where
  opName := h.opName.symm
  provider := h.provider.symm
  versions := by
    have hversions := h.versions
    simp only [areIntervalsOverlap, decide_eq_true_eq] at hversions ⊢
    exact hversions.symm
  types := by
    rw [typeHasConflict_iff]
    intro name types types' hmem hmem'
    obtain ⟨type, hleft, hright⟩ :=
      typeHasConflict_iff.1 h.types name types' types hmem' hmem
    exact ⟨type, hright, hleft⟩

/-- What makes a definition a copy of itself in conflict with it. -/
structure Sound (mine : KernelDefinition τ) : Prop where
  versions : mine.opSinceVersionStart ≤ mine.opSinceVersionEnd
  types : ∀ constraint ∈ mine.typeConstraints, constraint.2 ≠ []
  inputs : mine.inputMemoryTypeArgs = []
  outputs : Differ mine.outputMemoryTypeArgs mine.outputMemoryTypeArgs

omit [DecidableEq τ] in
theorem covers_self (mine : KernelDefinition τ) : Covers mine mine :=
  ⟨⟨fun _ => id, id⟩, fun _ => id, id⟩

theorem competing_self_iff : Competing mine mine ↔
    mine.opSinceVersionStart ≤ mine.opSinceVersionEnd ∧
      ∀ constraint ∈ mine.typeConstraints, constraint.2 ≠ [] := by
  constructor
  · intro h
    have hversions := h.versions
    simp only [areIntervalsOverlap, decide_eq_true_eq] at hversions
    refine ⟨hversions.1, ?_⟩
    rintro ⟨name, types⟩ hmem rfl
    obtain ⟨type, hnil, -⟩ := typeHasConflict_iff.1 h.types name [] [] hmem hmem
    cases hnil
  · rintro ⟨hversions, htypes⟩
    refine ⟨rfl, rfl, ?_, ?_⟩
    · simpa [areIntervalsOverlap] using hversions
    · rw [typeHasConflict_iff]
      intro name types types' hmem hmem'
      have hlookup := (lookup_eq_some_iff_mem mine.constraintOnce).2 hmem
      rw [(lookup_eq_some_iff_mem mine.constraintOnce).2 hmem'] at hlookup
      cases hlookup
      obtain ⟨type, htype⟩ := exists_mem_of_ne_nil _ (htypes _ hmem)
      exact ⟨type, htype, htype⟩

/-- An input memory type is equal to itself, which ends the comparison. -/
theorem isConflict_self_of_inputs (h : mine.inputMemoryTypeArgs ≠ []) :
    mine.isConflict mine = .ok false := by
  obtain ⟨⟨position, memType⟩, rest, hcons⟩ := exists_cons_of_ne_nil h
  have hany : mine.inputMemoryTypeArgs.any fun entry =>
      mine.inputMemoryTypeArgs.lookup entry.1 = some entry.2 := by
    simp [hcons]
  iterate 7 refine ite_eq_left_iff.2 fun _ => ?_
  exact if_pos hany

/-- Two definitions that compete agree on which is in conflict with which. -/
def Matching (mine other : KernelDefinition τ) : Prop :=
  Competing mine other → Covers mine other →
    Readable mine.outputMemoryTypeArgs other.outputMemoryTypeArgs ∧
    (Differ mine.outputMemoryTypeArgs other.outputMemoryTypeArgs →
      Covers other mine ∧
        Differ other.outputMemoryTypeArgs mine.outputMemoryTypeArgs)

section

variable (hmine : mine.inputMemoryTypeArgs = [])
  (hother : other.inputMemoryTypeArgs = [])
include hmine hother

/-- The comparisons before those of memory types. -/
theorem isConflict_eq (hcompeting : Competing mine other)
    (hcovers : Covers mine other) :
    mine.isConflict other = do
      let differ ← checkOutputs other.outputMemoryTypeArgs
        mine.outputMemoryTypeArgs
      return differ && ! decide (mine.outputMemoryTypeArgs = [] ∧
        other.outputMemoryTypeArgs ≠ []) := by
  obtain ⟨⟨hinplace, hinplaceNil⟩, halias, haliasNil⟩ := hcovers
  rw [isConflict, if_neg (by simp [hcompeting.opName, hcompeting.provider]),
    if_neg (not_not_intro hcompeting.versions),
    if_neg (not_not_intro hcompeting.types),
    if_neg fun h => h.2 (hinplaceNil h.1), if_neg (by simpa using hinplace),
    if_neg (by simpa using halias), if_neg fun h => h.2 (haliasNil h.1),
    if_neg (by simp [hmine]), if_neg fun h => h.2 hother]

/-- What the comparison of two definitions without input memory types can
say. -/
theorem isConflict_cases :
    (mine.isConflict other = .ok true ∧ Competing mine other ∧
      Covers mine other ∧
      Differ mine.outputMemoryTypeArgs other.outputMemoryTypeArgs) ∨
    (mine.isConflict other = .ok false ∧
      (Competing mine other → Covers mine other →
        Readable mine.outputMemoryTypeArgs other.outputMemoryTypeArgs ∧
        ¬ Differ mine.outputMemoryTypeArgs other.outputMemoryTypeArgs)) ∨
    (mine.isConflict other = .error .nullDereference ∧
      Competing mine other ∧ Covers mine other ∧
      ¬ Readable mine.outputMemoryTypeArgs other.outputMemoryTypeArgs) := by
  by_cases hreach : Competing mine other ∧ Covers mine other
  · obtain ⟨hcompeting, hcovers⟩ := hreach
    rw [isConflict_eq hmine hother hcompeting hcovers]
    rcases checkOutputs_cases mine.outputMemoryTypeArgs
      other.outputMemoryTypeArgs with ⟨hok, hread, hall⟩ |
        ⟨hok, hread, entry, hmem, hstop⟩ | ⟨herror, hread⟩
    · rw [hok]
      by_cases hnil : mine.outputMemoryTypeArgs = [] ∧
          other.outputMemoryTypeArgs ≠ []
      · refine .inr (.inl ⟨?_, fun _ _ => ⟨hread, fun h => ?_⟩⟩)
        · simp [hnil, bind, Except.bind, pure, Except.pure]
        · exact hnil.2 (h.2 hnil.1)
      · refine .inl ⟨?_, hcompeting, hcovers, hall, fun h => ?_⟩
        · simp [hnil, bind, Except.bind, pure, Except.pure]
        · exact not_not.1 fun hne => hnil ⟨h, hne⟩
    · rw [hok]
      refine .inr (.inl ⟨rfl, fun _ _ => ⟨hread, fun h => ?_⟩⟩)
      exact not_stops_of_differ h hmem hstop
    · rw [herror]
      exact .inr (.inr ⟨rfl, hcompeting, hcovers, hread⟩)
  · refine .inr (.inl ⟨isConflict_of_not hreach, fun hcompeting hcovers => ?_⟩)
    exact absurd ⟨hcompeting, hcovers⟩ hreach

theorem isConflict_of_matching (h : Matching mine other)
    (h' : Matching other mine) :
    ∃ result, mine.isConflict other = .ok result ∧
      other.isConflict mine = .ok result := by
  rcases isConflict_cases hmine hother with
    ⟨hok, hcompeting, hcovers, hdiffer⟩ | ⟨hok, hnot⟩ |
      ⟨-, hcompeting, hcovers, hread⟩
  · obtain ⟨hcovers', hdiffer'⟩ := (h hcompeting hcovers).2 hdiffer
    refine ⟨true, hok, ?_⟩
    rcases isConflict_cases hother hmine with ⟨hok', -⟩ | ⟨-, hnot'⟩ |
      ⟨-, -, -, hread'⟩
    · exact hok'
    · exact absurd hdiffer' (hnot' hcompeting.symm hcovers').2
    · exact absurd (h' hcompeting.symm hcovers').1 hread'
  · refine ⟨false, hok, ?_⟩
    rcases isConflict_cases hother hmine with
      ⟨-, hcompeting', hcovers', hdiffer'⟩ | ⟨hok', -⟩ |
        ⟨-, hcompeting', hcovers', hread'⟩
    · obtain ⟨hcovers, hdiffer⟩ := (h' hcompeting' hcovers').2 hdiffer'
      exact absurd hdiffer (hnot hcompeting'.symm hcovers).2
    · exact hok'
    · exact absurd (h' hcompeting' hcovers').1 hread'
  · exact absurd (h hcompeting hcovers).1 hread

theorem matching_of_isConflict {result : Bool}
    (h : mine.isConflict other = .ok result)
    (h' : other.isConflict mine = .ok result) : Matching mine other := by
  intro hcompeting hcovers
  rcases isConflict_cases hmine hother with ⟨hok, -, -, hdiffer⟩ |
    ⟨hok, hnot⟩ | ⟨herror, -⟩
  · rw [hok] at h
    cases h
    refine ⟨?_, fun _ => ?_⟩
    · intro front entry back hsplit _ hcommon
      obtain ⟨found, hfound, -⟩ := hdiffer.1 entry (by simp [hsplit]) hcommon
      rw [hfound]
      rfl
    · rcases isConflict_cases hother hmine with ⟨-, -, hcovers', hdiffer'⟩ |
        ⟨hok', -⟩ | ⟨herror', -⟩
      · exact ⟨hcovers', hdiffer'⟩
      · rw [hok'] at h'
        cases h'
      · rw [herror'] at h'
        cases h'
  · obtain ⟨hread, hdiffer⟩ := hnot hcompeting hcovers
    exact ⟨hread, fun h => absurd h hdiffer⟩
  · rw [herror] at h
    cases h

end

theorem isConflict_self_iff : mine.isConflict mine = .ok true ↔ Sound mine := by
  by_cases hinputs : mine.inputMemoryTypeArgs = []
  · rcases isConflict_cases hinputs hinputs with
      ⟨hok, hcompeting, -, hdiffer⟩ | ⟨hok, hnot⟩ | ⟨herror, -, -, hread⟩
    · refine ⟨fun _ => ?_, fun _ => hok⟩
      obtain ⟨hversions, htypes⟩ := competing_self_iff.1 hcompeting
      exact ⟨hversions, htypes, hinputs, hdiffer⟩
    · rw [hok]
      refine ⟨nofun, fun h => ?_⟩
      exact absurd h.outputs (hnot
        (competing_self_iff.2 ⟨h.versions, h.types⟩) (covers_self mine)).2
    · rw [herror]
      refine ⟨nofun, fun h => absurd ?_ hread⟩
      intro front entry back hsplit _ hcommon
      obtain ⟨found, hfound, -⟩ := h.outputs.1 entry (by simp [hsplit]) hcommon
      rw [hfound]
      rfl
  · rw [isConflict_self_of_inputs hinputs]
    exact ⟨nofun, fun h => absurd h.inputs hinputs⟩

end Relation

end KernelDefinition

namespace KernelDefRegistry

variable {τ : Type} [DecidableEq τ] {defs : List (KernelDefinition τ)}

/-- What conflict detection is to be on a set of definitions: the same in both
directions, true of a copy, and the same for every order of registration. -/
structure OrderIndependent (defs : List (KernelDefinition τ)) : Prop where
  symmetric : ∀ left ∈ defs, ∀ right ∈ defs, ∃ result,
    left.isConflict right = .ok result ∧ right.isConflict left = .ok result
  reflexive : ∀ copy ∈ defs, copy.isConflict copy = .ok true
  together : ∀ left ∈ defs, ∀ right ∈ defs, left.opName = right.opName →
    (registerAll [left, right] = .ok [⟨left, true⟩, ⟨right, true⟩] ↔
      registerAll [right, left] = .ok [⟨right, true⟩, ⟨left, true⟩])
  accepted : ∀ order, (∀ kernelDef ∈ order, kernelDef ∈ defs) →
    ∃ registry, registerAll order = .ok registry ∧
      registry.map (·.kernelDef) = order ∧
      registry.Pairwise fun earlier later => earlier.accepted →
        later.accepted → earlier.kernelDef.opName = later.kernelDef.opName →
        earlier.kernelDef.isConflict later.kernelDef = .ok false ∧
          later.kernelDef.isConflict earlier.kernelDef = .ok false

/-- Without null pointers, the search for a conflict is one over the accepted
definitions of the name. -/
theorem exists_conflicts {registry : KernelDefRegistry τ}
    {kernelDef : KernelDefinition τ}
    (h : ∀ entry ∈ registry, ∃ result,
      entry.kernelDef.isConflict kernelDef = .ok result) :
    ∃ conflict, conflicts kernelDef registry = .ok conflict ∧
      (conflict = false → ∀ entry ∈ registry, entry.accepted →
        entry.kernelDef.opName = kernelDef.opName →
        entry.kernelDef.isConflict kernelDef = .ok false) := by
  induction registry with
  | nil => exact ⟨false, rfl, nofun⟩
  | cons entry rest ih =>
    rw [forall_mem_cons] at h
    obtain ⟨conflict, hrest, hnone⟩ := ih h.2
    obtain ⟨result, hresult⟩ := h.1
    rw [conflicts]
    by_cases hentry : entry.kernelDef.opName = kernelDef.opName ∧ entry.accepted
    · rw [if_pos hentry, hresult]
      cases result with
      | true => exact ⟨true, rfl, nofun⟩
      | false =>
        refine ⟨conflict, hrest, fun hfalse other hother haccepted => ?_⟩
        rcases mem_cons.1 hother with rfl | hmem
        · exact fun _ => hresult
        · exact hnone hfalse other hmem haccepted
    · rw [if_neg hentry]
      refine ⟨conflict, hrest, fun hfalse other hother haccepted hname => ?_⟩
      rcases mem_cons.1 hother with rfl | hmem
      · exact absurd ⟨hname, haccepted⟩ hentry
      · exact hnone hfalse other hmem haccepted hname

theorem registerAll_accepted
    (hsymmetric : ∀ left ∈ defs, ∀ right ∈ defs, ∃ result,
      left.isConflict right = .ok result ∧ right.isConflict left = .ok result)
    (order : List (KernelDefinition τ))
    (horder : ∀ kernelDef ∈ order, kernelDef ∈ defs) :
    ∃ registry, registerAll order = .ok registry ∧
      registry.map (·.kernelDef) = order ∧
      registry.Pairwise fun earlier later => earlier.accepted →
        later.accepted → earlier.kernelDef.opName = later.kernelDef.opName →
        earlier.kernelDef.isConflict later.kernelDef = .ok false ∧
          later.kernelDef.isConflict earlier.kernelDef = .ok false := by
  induction order using reverseRecOn with
  | nil => exact ⟨[], rfl, rfl, List.Pairwise.nil⟩
  | append_singleton order last ih =>
    obtain ⟨registry, hrun, hdefs, hpairs⟩ := ih fun kernelDef hmem =>
      horder kernelDef (mem_append_left _ hmem)
    have hlast := horder last (mem_append_right _ mem_cons_self)
    have hentries : ∀ entry ∈ registry, entry.kernelDef ∈ defs := by
      intro entry hentry
      refine horder _ (mem_append_left _ ?_)
      rw [← hdefs]
      exact mem_map_of_mem hentry
    obtain ⟨conflict, hconflict, hnone⟩ :
        ∃ conflict, conflicts last registry = .ok conflict ∧ _ :=
      exists_conflicts fun entry hentry => by
        obtain ⟨result, hresult, -⟩ :=
          hsymmetric _ (hentries entry hentry) last hlast
        exact ⟨result, hresult⟩
    refine ⟨registry ++ [⟨last, !conflict⟩], ?_, ?_, ?_⟩
    · rw [registerAll, foldlM_snoc_eq_ok]
      refine ⟨registry, hrun, ?_⟩
      rw [register, hconflict]
      rfl
    · rw [map_append, hdefs]
      rfl
    · rw [pairwise_append]
      refine ⟨hpairs, pairwise_singleton _ _, ?_⟩
      intro entry hentry _ hnew haccepted hlater hname
      rw [mem_singleton.1 hnew] at hlater hname ⊢
      have hclear := hnone (by simpa using hlater) entry hentry haccepted hname
      refine ⟨hclear, ?_⟩
      obtain ⟨result, hresult, hback⟩ :=
        hsymmetric _ (hentries entry hentry) last hlast
      rw [hclear] at hresult
      cases hresult
      exact hback

/-- Two definitions of one name are both accepted when the first is not in
conflict with the second. -/
theorem registerAll_pair {left right : KernelDefinition τ}
    (hname : left.opName = right.opName) :
    registerAll [left, right] = .ok [⟨left, true⟩, ⟨right, true⟩] ↔
      left.isConflict right = .ok false := by
  have hconflicts : conflicts right [⟨left, true⟩] = left.isConflict right := by
    rw [conflicts, if_pos ⟨hname, rfl⟩]
    cases left.isConflict right with
    | error failure => rfl
    | ok conflict => cases conflict <;> rfl
  have hrun : registerAll [left, right] = do
      let conflict ← left.isConflict right
      return [⟨left, true⟩, ⟨right, !conflict⟩] := by
    rw [← hconflicts]
    exact bind_pure (register [⟨left, true⟩] right)
  rw [hrun]
  cases left.isConflict right with
  | error failure => exact ⟨nofun, nofun⟩
  | ok conflict => cases conflict <;> simp [bind, Except.bind, pure, Except.pure]

/-- Conflict detection is order independent exactly on definitions that are in
conflict with themselves and match each other. -/
theorem orderIndependent_iff (defs : List (KernelDefinition τ)) :
    OrderIndependent defs ↔ (∀ kernelDef ∈ defs, kernelDef.Sound) ∧
      ∀ left ∈ defs, ∀ right ∈ defs, left.Matching right := by
  constructor
  · intro h
    have hsound : ∀ kernelDef ∈ defs, kernelDef.Sound := fun kernelDef hmem =>
      KernelDefinition.isConflict_self_iff.1 (h.reflexive kernelDef hmem)
    refine ⟨hsound, fun left hleft right hright => ?_⟩
    obtain ⟨result, hresult, hback⟩ := h.symmetric left hleft right hright
    exact KernelDefinition.matching_of_isConflict (hsound left hleft).inputs
      (hsound right hright).inputs hresult hback
  · rintro ⟨hsound, hmatching⟩
    have hsymmetric : ∀ left ∈ defs, ∀ right ∈ defs, ∃ result,
        left.isConflict right = .ok result ∧
          right.isConflict left = .ok result :=
      fun left hleft right hright => KernelDefinition.isConflict_of_matching
        (hsound left hleft).inputs (hsound right hright).inputs
        (hmatching left hleft right hright) (hmatching right hright left hleft)
    refine ⟨hsymmetric, fun copy hcopy =>
      KernelDefinition.isConflict_self_iff.2 (hsound copy hcopy), ?_,
      registerAll_accepted hsymmetric⟩
    intro left hleft right hright hname
    obtain ⟨result, hresult, hback⟩ := hsymmetric left hleft right hright
    rw [registerAll_pair hname, registerAll_pair hname.symm, hresult, hback]

/-- A kernel that says of its first output where it is, and nothing else. -/
def pinnedOutput : KernelDefinition Nat where
  opName := "Op"
  provider := "CUDAExecutionProvider"
  outputMemoryTypeArgs := [(0, .cpuOutput)]

/-- One that may work in place, and one that may also do so for its second
input. -/
def inplaceKernel (pairs : List (Int × Int)) : KernelDefinition Nat where
  opName := "Op"
  provider := "CPUExecutionProvider"
  inplaceMap := pairs

/-- A copy of a definition reads an entry that does not exist, and two others
are in conflict in one direction only, so that registering them in one order
accepts both. -/
theorem not_orderIndependent_twoKernels :
    pinnedOutput.isConflict pinnedOutput = .error .nullDereference ∧
    (inplaceKernel [(0, 0)]).isConflict (inplaceKernel [(0, 0), (1, 0)]) =
      .ok true ∧
    (inplaceKernel [(0, 0), (1, 0)]).isConflict (inplaceKernel [(0, 0)]) =
      .ok false ∧
    ¬ OrderIndependent [pinnedOutput] ∧
    ¬ OrderIndependent
      [inplaceKernel [(0, 0)], inplaceKernel [(0, 0), (1, 0)]] := by
  have hpinned : pinnedOutput.isConflict pinnedOutput =
      .error .nullDereference := rfl
  have hone : (inplaceKernel [(0, 0)]).isConflict
      (inplaceKernel [(0, 0), (1, 0)]) = .ok true := rfl
  have hother : (inplaceKernel [(0, 0), (1, 0)]).isConflict
      (inplaceKernel [(0, 0)]) = .ok false := rfl
  refine ⟨hpinned, hone, hother, fun h => ?_, fun h => ?_⟩
  · have hself := h.reflexive pinnedOutput mem_cons_self
    cases hself
  · obtain ⟨result, hresult, hback⟩ := h.symmetric (inplaceKernel [(0, 0)])
      (by simp) (inplaceKernel [(0, 0), (1, 0)]) (by simp)
    cases hresult
    cases hback

end KernelDefRegistry

end OnnxRuntime
