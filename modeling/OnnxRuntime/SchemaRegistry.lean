/-
The registry of operator schemas: how versions of a domain and schemas are
registered, accepted or refused, and the search for the schema of a version.
-/
import OnnxRuntime.Tables
import OnnxRuntime.Status

namespace OnnxRuntime

open List Function

/-- What a registration reads of an `OpSchema`.  `finalize` is the exception
that `Finalize` throws, if it does. -/
structure OpSchema where
  name : String
  domain : String
  sinceVersion : Int
  file : String := ""
  line : Int := 0
  finalize : Option String := none
deriving Repr, DecidableEq

structure SchemaRegistryVersion where
  baselineOpsetVersion : Int
  opsetVersion : Int
deriving Repr, DecidableEq

/-- The `std::map` from versions to schemas, in its order. -/
abbrev VersionMap := List (Int × OpSchema)

namespace VersionMap

def before (lhs rhs : Int × OpSchema) : Bool := lhs.1 < rhs.1

/-- `emplace`: an entry that is there stays. -/
def emplace (entries : VersionMap) (version : Int) (schema : OpSchema) :
    VersionMap :=
  insertBy before (version, schema) entries

/-- The position of the first version that is not less. -/
def lowerBound (entries : VersionMap) (version : Int) : Nat :=
  entries.findIdx fun entry => version ≤ entry.1

end VersionMap

/-- The two tables of the registry.  `map` has an entry for a name and a domain
as soon as `map_[name][domain]` was evaluated. -/
structure SchemaRegistry where
  map : String → String → Option VersionMap := fun _ _ => none
  domainVersionRangeMap : String → Option SchemaRegistryVersion := fun _ => none

/-- A position past the end of a `std::map` is dereferenced. -/
inductive SchemaFault where
  | pastTheEnd
deriving Repr, DecidableEq

def intMax : Int := 2147483647

/-- The version from which an operator without schema is unchanged. -/
def SchemaRegistryVersion.unchangedSince (range : SchemaRegistryVersion)
    (opSetVersion : Int) : Int :=
  if range.baselineOpsetVersion ≤ opSetVersion then
    max 1 range.baselineOpsetVersion
  else intMax

namespace SchemaRegistry

variable (r : SchemaRegistry)

def setEntries (name domain : String) (entries : VersionMap) :
    SchemaRegistry :=
  { r with
    map := Function.update r.map name
      (Function.update (r.map name) domain (some entries)) }

def setBaselineAndOpsetVersionForDomain (domain : String)
    (baselineOpsetVersion opsetVersion : Int) :
    SchemaRegistry × Except Failure Unit :=
  if (r.domainVersionRangeMap domain).isSome then
    (r, .error (.status .fail "Domain already set in registry"))
  else
    ({ r with
      domainVersionRangeMap := Function.update r.domainVersionRangeMap domain
        (some ⟨baselineOpsetVersion, opsetVersion⟩) }, .ok ())

/-- What the three messages of a refusal have in common. -/
def refusal (schema : OpSchema) (why : String) : Except Failure Unit :=
  .error (.status .invalidArgument
    ("Trying to register schema with name " ++ schema.name ++ " (domain: " ++
      schema.domain ++ " version: " ++ toString schema.sinceVersion ++
      ") from file " ++ schema.file ++ " line " ++ toString schema.line ++
      why ++ "\n"))

/-- The entries that `map_[op_name][op_domain]` finds or makes. -/
def entriesOf (schema : OpSchema) : VersionMap :=
  (r.map schema.name schema.domain).getD []

/-- `map_[op_name][op_domain]` is evaluated before anything is checked. -/
def registerOpSchema (schema : OpSchema) :
    SchemaRegistry × Except Failure Unit :=
  match schema.finalize with
  | some what =>
    (r, .error (.status .invalidArgument ("Schema error: " ++ what)))
  | none =>
    let entries := r.entriesOf schema
    let r := r.setEntries schema.name schema.domain entries
    match entries.find? (·.1 = schema.sinceVersion) with
    | some registered =>
      (r, refusal schema (", but it is already registered from file " ++
        registered.2.file ++ " line " ++ toString registered.2.line))
    | none =>
      match r.domainVersionRangeMap schema.domain with
      | none =>
        (r, refusal schema ", but it its domain is notknown by the checker.")
      | some range =>
        if schema.sinceVersion > range.opsetVersion then
          (r, refusal schema
            (", but it its version is higherthan the operator set version "
              ++ toString range.opsetVersion))
        else
          (r.setEntries schema.name schema.domain
            (entries.emplace schema.sinceVersion schema), .ok ())

/-- The schema at a position of the search, if its version is low enough. -/
def answer (opSetVersion earliest : Int) (entry : Option (Int × OpSchema)) :
    Except SchemaFault (Option OpSchema × Int) :=
  match entry with
  | none => .error .pastTheEnd
  | some (_, schema) =>
    if schema.sinceVersion ≤ opSetVersion then
      .ok (some schema, schema.sinceVersion)
    else .ok (none, earliest)

/-- The search in the versions of one name and domain. -/
def search (entries : VersionMap) (opSetVersion earliest : Int) :
    Except SchemaFault (Option OpSchema × Int) :=
  let pos := entries.lowerBound opSetVersion
  match entries[pos]? with
  | none =>
    -- `begin() == pos` lets the end be read in an empty map
    if pos = 0 then .error .pastTheEnd
    else answer opSetVersion earliest entries[pos - 1]?
  | some entry =>
    if entry.1 > opSetVersion then
      if pos = 0 then .ok (none, earliest)
      else answer opSetVersion earliest entries[pos - 1]?
    else answer opSetVersion earliest (some entry)

/-- The latest schema and the earliest version where it is unchanged. -/
def getSchemaAndHistory (key : String) (opSetVersion : Int) (domain : String) :
    Except SchemaFault (Option OpSchema × Int) :=
  match r.domainVersionRangeMap domain with
  | none => .ok (none, intMax)
  | some range =>
    if range.opsetVersion < opSetVersion then .ok (none, intMax)
    else
      let earliest := range.unchangedSince opSetVersion
      match r.map key domain with
      | none => .ok (none, earliest)
      | some entries => search entries opSetVersion earliest

end SchemaRegistry

/-- A call that changes a registry. -/
inductive RegistryCall where
  | setBaselineAndOpsetVersionForDomain (domain : String)
      (baselineOpsetVersion opsetVersion : Int)
  | registerOpSchema (schema : OpSchema)
deriving Repr, DecidableEq

namespace RegistryCall

def run (r : SchemaRegistry) :
    RegistryCall → SchemaRegistry × Except Failure Unit
  | setBaselineAndOpsetVersionForDomain domain baseline opset =>
    r.setBaselineAndOpsetVersionForDomain domain baseline opset
  | registerOpSchema schema => r.registerOpSchema schema

/-- The registry after a history, from an empty one. -/
def after (calls : List RegistryCall) : SchemaRegistry :=
  calls.foldl (fun r call => (call.run r).1) {}

/-- The schemas of a history that were accepted. -/
inductive Accepted (calls : List RegistryCall) (schema : OpSchema) : Prop where
  | intro (front back : List RegistryCall)
      (hcalls : calls = front ++ registerOpSchema schema :: back)
      (haccepted : ((registerOpSchema schema).run (after front)).2 = .ok ())

/-- The versions of a domain are those it was given first. -/
def rangeOf (calls : List RegistryCall) (domain : String) :
    Option SchemaRegistryVersion :=
  calls.findSome? fun call =>
    match call with
    | setBaselineAndOpsetVersionForDomain known baseline opset =>
      if known = domain then some ⟨baseline, opset⟩ else none
    | registerOpSchema _ => none

/-- An accepted schema for the key that is visible at a version. -/
def Visible (calls : List RegistryCall) (key : String) (version : Int)
    (domain : String) (schema : OpSchema) : Prop :=
  (∃ range, rangeOf calls domain = some range ∧ version ≤ range.opsetVersion) ∧
  Accepted calls schema ∧ schema.name = key ∧ schema.domain = domain ∧
    schema.sinceVersion ≤ version

/-- What a lookup after the history is to return: the newest visible schema
with its version, and no schema exactly where none is visible. -/
def LooksUp (calls : List RegistryCall) (key : String) (version : Int)
    (domain : String) : Prop :=
  ∃ found earliest, (after calls).getSchemaAndHistory key version domain =
      .ok (found, earliest) ∧
    (∀ schema, found = some schema ↔ Visible calls key version domain schema ∧
      ∀ other, Visible calls key version domain other →
        other.sinceVersion ≤ schema.sinceVersion) ∧
    (found = none → ∀ schema, ¬ Visible calls key version domain schema) ∧
    ∀ schema, found = some schema → earliest = schema.sinceVersion

end RegistryCall

namespace SchemaRegistry

section Search

variable {entries : VersionMap} {version earliest : Int}

/-- Versions in increasing order, each with a schema of that version. -/
structure Ordered (entries : VersionMap) : Prop where
  sorted : entries.Pairwise fun lhs rhs => VersionMap.before lhs rhs
  since : ∀ entry ∈ entries, entry.2.sinceVersion = entry.1

/-- A search returns the newest entry that is not newer than the version. -/
structure Finds (entries : VersionMap) (version earliest : Int)
    (found : Option OpSchema) (unchanged : Int) : Prop where
  some_iff : ∀ schema, found = some schema ↔
    (schema.sinceVersion, schema) ∈ entries ∧ schema.sinceVersion ≤ version ∧
      ∀ entry ∈ entries, entry.1 ≤ version → entry.1 ≤ schema.sinceVersion
  unchanged_of_some : ∀ schema, found = some schema →
    unchanged = schema.sinceVersion
  unchanged_of_none : found = none → unchanged = earliest
  newer_of_none : found = none → ∀ entry ∈ entries, version < entry.1

variable {i : Nat} {entry : Int × OpSchema}

theorem lt_of_lt_lowerBound (hentry : entries[i]? = some entry)
    (hi : i < entries.lowerBound version) : entry.1 < version := by
  obtain ⟨hlt, rfl⟩ := List.getElem?_eq_some_iff.1 hentry
  have hnot := not_of_lt_findIdx hi
  simpa using hnot

theorem le_of_lowerBound
    (hentry : entries[entries.lowerBound version]? = some entry) :
    version ≤ entry.1 := by
  obtain ⟨hlt, rfl⟩ := List.getElem?_eq_some_iff.1 hentry
  have hfound := findIdx_getElem (w := hlt)
  simp only [decide_eq_true_eq] at hfound
  exact hfound

variable (h : Ordered entries)
include h

theorem Ordered.lt {j : Nat} (hij : i < j) (hj : j < entries.length) :
    (entries.get ⟨i, by omega⟩).1 < (entries.get ⟨j, hj⟩).1 := by
  have hpair := pairwise_iff_getElem.1 h.sorted i j (by omega) hj hij
  simpa [VersionMap.before] using hpair

theorem Ordered.eq_of_since {schema other : OpSchema}
    (hmem : (schema.sinceVersion, schema) ∈ entries)
    (hother : (other.sinceVersion, other) ∈ entries)
    (hsame : schema.sinceVersion = other.sinceVersion) : schema = other := by
  obtain ⟨i, hi, hgeti⟩ := getElem_of_mem hmem
  obtain ⟨j, hj, hgetj⟩ := getElem_of_mem hother
  rcases Nat.lt_trichotomy i j with hij | rfl | hji
  · have hlt := h.lt hij hj
    simp only [get_eq_getElem, hgeti, hgetj] at hlt
    omega
  · rw [hgeti] at hgetj
    exact congrArg Prod.snd hgetj
  · have hlt := h.lt hji hi
    simp only [get_eq_getElem, hgeti, hgetj] at hlt
    omega

/-- An entry is found when no other is newer and still old enough. -/
theorem Ordered.answer (hmem : entry ∈ entries) (hle : entry.1 ≤ version)
    (hnewest : ∀ other ∈ entries, other.1 ≤ version → other.1 ≤ entry.1) :
    ∃ found unchanged, answer version earliest (some entry) =
      .ok (found, unchanged) ∧
        Finds entries version earliest found unchanged := by
  obtain ⟨key, schema⟩ := entry
  have hsince : schema.sinceVersion = key := h.since _ hmem
  subst hsince
  refine ⟨some schema, schema.sinceVersion, if_pos hle, ?_, ?_, nofun, nofun⟩
  · intro other
    constructor
    · rintro ⟨⟩
      exact ⟨hmem, hle, hnewest⟩
    · rintro ⟨hother, hotherLe, hotherNewest⟩
      have hsame : schema.sinceVersion = other.sinceVersion :=
        Int.le_antisymm (hotherNewest _ hmem hle) (hnewest _ hother hotherLe)
      rw [h.eq_of_since hmem hother hsame]
  · rintro other ⟨⟩
    rfl

/-- The entry before a position is the newest when the rest is too new. -/
theorem Ordered.newest (hentry : entries[i]? = some entry)
    (hafter : ∀ j other, entries[j]? = some other → i < j → version < other.1)
    (other : Int × OpSchema) (hother : other ∈ entries)
    (hle : other.1 ≤ version) : other.1 ≤ entry.1 := by
  obtain ⟨hi, hgeti⟩ := List.getElem?_eq_some_iff.1 hentry
  obtain ⟨j, hj, hgetj⟩ := getElem_of_mem hother
  rcases Nat.lt_trichotomy i j with hij | rfl | hji
  · have hlt := hafter j other (List.getElem?_eq_some_iff.2 ⟨hj, hgetj⟩) hij
    omega
  · exact Int.le_of_eq (congrArg Prod.fst (hgetj.symm.trans hgeti))
  · have hlt := h.lt hji hi
    simp only [get_eq_getElem, hgeti, hgetj] at hlt
    exact Int.le_of_lt hlt

theorem Ordered.head_le {other : Int × OpSchema}
    (hentry : entries[0]? = some entry) (hother : other ∈ entries) :
    entry.1 ≤ other.1 := by
  cases entries with
  | nil => cases hother
  | cons first rest =>
    cases hentry
    rcases mem_cons.1 hother with rfl | hrest
    · exact Int.le_refl _
    · have hbefore := (pairwise_cons.1 h.sorted).1 other hrest
      exact Int.le_of_lt (by simpa [VersionMap.before] using hbefore)

/-- The entry before the lower bound. -/
theorem Ordered.answer_pred (hpos : entries.lowerBound version ≠ 0)
    (hafter : ∀ entry, entries[entries.lowerBound version]? = some entry →
      version < entry.1) :
    ∃ found unchanged, SchemaRegistry.answer version earliest
        entries[entries.lowerBound version - 1]? = .ok (found, unchanged) ∧
      Finds entries version earliest found unchanged := by
  have hle : entries.lowerBound version ≤ entries.length :=
    findIdx_le_length
  obtain ⟨entry, hentry⟩ : ∃ entry,
      entries[entries.lowerBound version - 1]? = some entry :=
    ⟨_, getElem?_eq_getElem (by omega)⟩
  rw [hentry]
  refine h.answer (mem_of_getElem? hentry)
    (Int.le_of_lt (lt_of_lt_lowerBound hentry (by omega))) ?_
  refine h.newest hentry fun j other hother hj => ?_
  obtain ⟨hjlt, hgetj⟩ := List.getElem?_eq_some_iff.1 hother
  rcases Nat.lt_or_eq_of_le (show entries.lowerBound version ≤ j by omega)
    with hlt | heq
  · have hhead := hafter _ (getElem?_eq_getElem (by omega))
    have hlt := h.lt hlt hjlt
    simp only [get_eq_getElem, hgetj] at hlt
    omega
  · rw [← heq] at hother
    exact hafter other hother

/-- The search of a map that has entries. -/
theorem Ordered.search (hne : entries ≠ []) (version earliest : Int) :
    ∃ found unchanged, SchemaRegistry.search entries version earliest =
      .ok (found, unchanged) ∧
        Finds entries version earliest found unchanged := by
  rw [SchemaRegistry.search]
  cases hpos : entries[entries.lowerBound version]? with
  | none =>
    have hlength := List.getElem?_eq_none_iff.1 hpos
    have hzero : entries.lowerBound version ≠ 0 := by
      have := length_pos_iff.2 hne
      omega
    rw [if_neg hzero]
    exact h.answer_pred hzero (by rw [hpos]; exact nofun)
  | some entry =>
    dsimp only
    split
    · rename_i hgt
      split
      · rename_i hzero
        rw [hzero] at hpos
        have hnewer : ∀ other ∈ entries, version < other.1 := fun other
          hother => Int.lt_of_lt_of_le hgt (h.head_le hpos hother)
        refine ⟨none, earliest, rfl, ?_, nofun, fun _ => rfl, fun _ => hnewer⟩
        refine fun schema => ⟨nofun, ?_⟩
        rintro ⟨hmem, hle, -⟩
        exact absurd hle (Int.not_le.2 (hnewer _ hmem))
      · rename_i hzero
        refine h.answer_pred hzero fun other hother => ?_
        rw [hpos] at hother
        cases hother
        exact hgt
    · rename_i hle
      refine h.answer (mem_of_getElem? hpos) (Int.not_lt.1 hle) ?_
      intro other hother hotherLe
      exact Int.le_trans hotherLe (le_of_lowerBound hpos)

end Search

section Registering

variable {r : SchemaRegistry} {schema : OpSchema} {key domain : String}

theorem map_setEntries (r : SchemaRegistry) (name domain : String)
    (entries : VersionMap) (key other : String) :
    (r.setEntries name domain entries).map key other =
      if key = name ∧ other = domain then some entries else r.map key other := by
  simp only [setEntries, update_apply]
  grind

/-- What a registration can do. -/
theorem registerOpSchema_cases (r : SchemaRegistry) (schema : OpSchema) :
    (schema.finalize ≠ none ∧ (r.registerOpSchema schema).1 = r ∧
      (r.registerOpSchema schema).2 ≠ .ok ()) ∨
    (schema.finalize = none ∧ (r.registerOpSchema schema).1 =
        r.setEntries schema.name schema.domain (r.entriesOf schema) ∧
      (r.registerOpSchema schema).2 ≠ .ok () ∧
      ((∃ entry ∈ r.entriesOf schema, entry.1 = schema.sinceVersion) ∨
        ¬ ∃ range, r.domainVersionRangeMap schema.domain = some range ∧
          schema.sinceVersion ≤ range.opsetVersion)) ∨
    (schema.finalize = none ∧ (r.registerOpSchema schema).1 =
        r.setEntries schema.name schema.domain
          ((r.entriesOf schema).emplace schema.sinceVersion schema) ∧
      (r.registerOpSchema schema).2 = .ok () ∧
      (∀ entry ∈ r.entriesOf schema, entry.1 ≠ schema.sinceVersion) ∧
      ∃ range, r.domainVersionRangeMap schema.domain = some range ∧
        schema.sinceVersion ≤ range.opsetVersion) := by
  cases hfinalize : schema.finalize with
  | some what =>
    refine .inl ⟨by simp, ?_, ?_⟩
    · simp [registerOpSchema, hfinalize]
    · simp [registerOpSchema, hfinalize]
  | none =>
    cases hfind : (r.entriesOf schema).find? (·.1 = schema.sinceVersion) with
    | some registered =>
      have hmem := mem_of_find?_eq_some hfind
      have hkey := find?_some hfind
      refine .inr (.inl ⟨rfl, ?_, ?_, .inl ⟨registered, hmem, ?_⟩⟩)
      · simp only [registerOpSchema, hfinalize, hfind]
      · simp only [registerOpSchema, hfinalize, hfind]
        exact nofun
      · simpa using hkey
    | none =>
      have hnone := find?_eq_none.1 hfind
      cases hrange : r.domainVersionRangeMap schema.domain with
      | none =>
        refine .inr (.inl ⟨rfl, ?_, ?_, .inr (by simp)⟩)
        · simp only [registerOpSchema, hfinalize, hfind, setEntries, hrange]
        · simp only [registerOpSchema, hfinalize, hfind, setEntries, hrange]
          exact nofun
      | some range =>
        by_cases hgt : schema.sinceVersion > range.opsetVersion
        · refine .inr (.inl ⟨rfl, ?_, ?_, .inr ?_⟩)
          · simp only [registerOpSchema, hfinalize, hfind, setEntries,
              hrange, if_pos hgt]
          · simp only [registerOpSchema, hfinalize, hfind, setEntries,
              hrange, if_pos hgt]
            exact nofun
          · rintro ⟨_, ⟨⟩, hle⟩
            omega
        · refine .inr (.inr ⟨rfl, ?_, ?_, ?_, range, rfl, by omega⟩)
          · simp only [registerOpSchema, hfinalize, hfind, setEntries,
              hrange, if_neg hgt, update_self, update_idem]
          · simp only [registerOpSchema, hfinalize, hfind, setEntries,
              hrange, if_neg hgt]
          · intro entry hentry
            simpa using hnone entry hentry

end Registering

end SchemaRegistry

end OnnxRuntime
