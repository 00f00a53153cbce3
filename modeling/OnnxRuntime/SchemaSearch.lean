/-
The search for a schema in several registries.  A registry without the schema
can lower the version, and then all of them are asked again.
-/
import OnnxRuntime.PartialRuns
import OnnxRuntime.SchemaLookups

namespace OnnxRuntime

variable {calls : List RegistryCall}

/-- The two work lists and the version of `SchemaRegistryManager`. -/
structure SchemaSearch where
  uncheckedRegistryIndices : List Nat
  checkedRegistryIndices : List Nat := []
  version : Int
deriving Repr, DecidableEq

/-- How the loop ends: with a schema of a registry, with the version to ask
the ONNX registry for, or past the end of a map or list. -/
inductive SearchOutcome where
  | found (schema : OpSchema) (earliest : Int)
  | fallThrough (version : Int)
  | pastTheEnd
deriving Repr, DecidableEq

namespace SchemaSearch

variable (registries : List SchemaRegistry) (key domain : String)

def start (opSetVersion : Int) : SchemaSearch where
  uncheckedRegistryIndices := List.range registries.length
  version := opSetVersion

/-- One round of the loop. -/
def step (s : SchemaSearch) : SearchOutcome ⊕ SchemaSearch :=
  match s.uncheckedRegistryIndices.getLast? with
  | none => .inl (.fallThrough s.version)
  | some index =>
    match registries[index]? with
    | none => .inl .pastTheEnd
    | some registry =>
      match registry.getSchemaAndHistory key s.version domain with
      | .error .pastTheEnd => .inl .pastTheEnd
      | .ok (some schema, newVersion) => .inl (.found schema newVersion)
      | .ok (none, newVersion) =>
        let unchecked := s.uncheckedRegistryIndices.dropLast
        if newVersion < s.version then
          .inr ⟨unchecked ++ s.checkedRegistryIndices, [index], newVersion⟩
        else
          .inr ⟨unchecked, s.checkedRegistryIndices ++ [index], s.version⟩

/-- `SchemaRegistryManager::GetSchemaAndHistory`, with a bound on its rounds.
The last argument is the registry of ONNX; `none` for the version means that
the caller's variable is left alone. -/
def getSchemaAndHistory (fuel : Nat) (opSetVersion : Int)
    (schema : String → Int → String → Option OpSchema) :
    Option (Except SchemaFault (Option OpSchema × Option Int)) :=
  (runLoop (step registries key domain) fuel
    (start registries opSetVersion)).map fun outcome =>
    match outcome with
    | .found schema earliest => .ok (some schema, some earliest)
    | .fallThrough version =>
      match schema key version domain with
      | some schema => .ok (some schema, some schema.sinceVersion)
      | none => .ok (none, none)
    | .pastTheEnd => .error .pastTheEnd

section Rounds

variable {registries : List SchemaRegistry} {key domain : String}
  {s t : SchemaSearch} {version : Int}

/-- A registry that has no schema names a positive version. -/
theorem one_le_of_none {r : SchemaRegistry} {newVersion : Int}
    (h : r.getSchemaAndHistory key version domain = .ok (none, newVersion)) :
    1 ≤ newVersion := by
  have hearliest : ∀ range : SchemaRegistryVersion,
      1 ≤ range.unchangedSince version := by
    intro range
    rw [SchemaRegistryVersion.unchangedSince]
    split
    · exact Int.le_max_left _ _
    · decide
  have hanswer : ∀ earliest entry, 1 ≤ earliest →
      SchemaRegistry.answer version earliest entry = .ok (none, newVersion) →
      1 ≤ newVersion := by
    intro earliest entry hle hanswer
    rcases entry with _ | ⟨since, schema⟩
    · cases hanswer
    · rw [SchemaRegistry.answer] at hanswer
      split at hanswer
      · cases hanswer
      · cases hanswer
        exact hle
  rw [SchemaRegistry.getSchemaAndHistory] at h
  split at h
  · cases h
    decide
  · rename_i range _
    split at h
    · cases h
      decide
    · split at h
      · cases h
        exact hearliest range
      · rw [SchemaRegistry.search] at h
        split at h
        · split at h
          · cases h
          · exact hanswer _ _ (hearliest range) h
        · split at h
          · split at h
            · cases h
              exact hearliest range
            · exact hanswer _ _ (hearliest range) h
          · exact hanswer _ _ (hearliest range) h

/-- A round that does not end the loop asked a registry without the schema. -/
theorem step_eq_inr (h : step registries key domain s = .inr t) :
    ∃ index registry newVersion,
      s.uncheckedRegistryIndices.getLast? = some index ∧
      registries[index]? = some registry ∧
      registry.getSchemaAndHistory key s.version domain =
        .ok (none, newVersion) ∧
      ((newVersion < s.version ∧
          t = ⟨s.uncheckedRegistryIndices.dropLast ++ s.checkedRegistryIndices,
            [index], newVersion⟩) ∨ (¬ newVersion < s.version ∧
          t = ⟨s.uncheckedRegistryIndices.dropLast,
            s.checkedRegistryIndices ++ [index], s.version⟩)) := by
  rw [step] at h
  split at h
  · cases h
  · rename_i index hindex
    split at h
    · cases h
    · rename_i registry hregistry
      split at h
      · cases h
      · cases h
      · rename_i newVersion hlookup
        refine ⟨index, registry, newVersion, hindex, hregistry, hlookup, ?_⟩
        split at h
        · rename_i hlt
          cases h
          exact .inl ⟨hlt, rfl⟩
        · rename_i hlt
          cases h
          exact .inr ⟨hlt, rfl⟩

/-- The rounds that can still come: every registry at each lower version, and
those not yet asked at this one. -/
def measure (registries : List SchemaRegistry) (s : SchemaSearch) : Nat :=
  s.version.toNat * (registries.length + 1) + s.uncheckedRegistryIndices.length

/-- The work lists hold every registry. -/
structure Covers (count : Nat) (s : SchemaSearch) : Prop where
  length : s.uncheckedRegistryIndices.length +
    s.checkedRegistryIndices.length = count
  mem_iff : ∀ index, index < count ↔ index ∈ s.uncheckedRegistryIndices ∨
    index ∈ s.checkedRegistryIndices

theorem covers_start (opSetVersion : Int) :
    Covers registries.length (start registries opSetVersion) where
  length := by simp [start]
  mem_iff index := by simp [start]

theorem Covers.step (h : Covers registries.length s)
    (hstep : SchemaSearch.step registries key domain s = .inr t) :
    Covers registries.length t ∧ t.measure registries < s.measure registries := by
  obtain ⟨index, registry, newVersion, hlast, -, hlookup, hcases⟩ :=
    step_eq_inr hstep
  obtain ⟨rest, hrest⟩ : ∃ rest, s.uncheckedRegistryIndices = rest ++ [index] :=
    ⟨_, (List.dropLast_append_getLast? index hlast).symm⟩
  obtain ⟨hlength, hmem⟩ := h
  rw [hrest] at hlength hmem
  simp only [List.length_append, List.length_singleton] at hlength
  simp only [List.mem_append] at hmem
  have hone := one_le_of_none hlookup
  rw [hrest, List.dropLast_concat] at hcases
  rcases hcases with ⟨hlower, rfl⟩ | ⟨-, rfl⟩
  · refine ⟨⟨?_, fun other => ?_⟩, ?_⟩
    · simp only [List.length_append, List.length_singleton]
      omega
    · rw [hmem, List.mem_append, List.mem_singleton]
      tauto
    · have hversion : newVersion.toNat + 1 ≤ s.version.toNat := by omega
      have hprod := Nat.mul_le_mul_right (registries.length + 1) hversion
      simp only [measure, List.length_append, hrest]
      rw [Nat.add_mul] at hprod
      omega
  · refine ⟨⟨?_, fun other => ?_⟩, ?_⟩
    · simp only [List.length_append, List.length_singleton]
      omega
    · rw [hmem, List.mem_append, List.mem_singleton]
      tauto
    · simp only [measure, hrest, List.length_append, List.length_singleton]
      omega

end Rounds

section Outcomes

open RegistryCall

variable {histories : List (List RegistryCall)} {key domain : String}
  {s t : SchemaSearch} {requested : Int}

/-- What the loop is to end with: nothing newer than what was asked for, and
nothing that a registry has. -/
def GoesBack (histories : List (List RegistryCall)) (key domain : String)
    (requested : Int) : SearchOutcome → Prop
  | .found schema earliest =>
    schema.sinceVersion ≤ requested ∧ earliest ≤ requested ∧
      ∃ calls ∈ histories, Accepted calls schema ∧ schema.name = key ∧
        schema.domain = domain
  | .fallThrough version =>
    version ≤ requested ∧ ∀ calls ∈ histories, ∀ schema,
      ¬ Visible calls key version domain schema
  | .pastTheEnd => False

/-- The search of registries with these histories returns, and goes back. -/
def Searches (histories : List (List RegistryCall)) (key domain : String)
    (requested : Int) : Prop :=
  ∃ outcome, LoopReturns (step (histories.map after) key domain)
      (start (histories.map after) requested) outcome ∧
    GoesBack histories key domain requested outcome

/-- Of what a state has checked, nothing is visible at its version. -/
structure Backward (histories : List (List RegistryCall)) (key domain : String)
    (requested : Int) (s : SchemaSearch) : Prop where
  covers : Covers (histories.map after).length s
  le_requested : s.version ≤ requested
  le_intMax : s.version ≤ intMax
  checked : ∀ index ∈ s.checkedRegistryIndices, ∀ calls,
    histories[index]? = some calls → ∀ schema,
      ¬ Visible calls key s.version domain schema

theorem backward_start (hint : requested ≤ intMax) :
    Backward histories key domain requested
      (start (histories.map after) requested) where
  covers := covers_start requested
  le_requested := Int.le_refl _
  le_intMax := hint
  checked := nofun

/-- A lookup that returns obeys the law of lookups. -/
theorem looksUp_of_ok {version : Int}
    {result : Option OpSchema × Int}
    (h : (after calls).getSchemaAndHistory key version domain = .ok result) :
    LooksUp calls key version domain := by
  rw [looksUp_iff]
  intro hknown htouched
  by_contra hadmitted
  rw [pastTheEnd_of_not_admitted hknown htouched hadmitted] at h
  cases h

theorem not_visible_of_ok {version earliest : Int}
    (h : (after calls).getSchemaAndHistory key version domain =
      .ok (none, earliest)) (schema : OpSchema) :
    ¬ Visible calls key version domain schema := by
  obtain ⟨found, earliest', hok, -, hnone, -⟩ := looksUp_of_ok h
  rw [h] at hok
  cases hok
  exact hnone rfl schema

theorem getElem?_after {index : Nat} {registry : SchemaRegistry}
    (h : (histories.map after)[index]? = some registry) :
    ∃ calls, histories[index]? = some calls ∧ registry = after calls := by
  rw [List.getElem?_map, Option.map_eq_some_iff] at h
  obtain ⟨calls, hcalls, rfl⟩ := h
  exact ⟨calls, hcalls, rfl⟩

theorem Backward.step (h : Backward histories key domain requested s)
    (hstep : SchemaSearch.step (histories.map after) key domain s = .inr t) :
    Backward histories key domain requested t := by
  have hcovers := (h.covers.step hstep).1
  obtain ⟨index, registry, newVersion, -, hregistry, hlookup, hcases⟩ :=
    step_eq_inr hstep
  obtain ⟨calls, hcalls, rfl⟩ := getElem?_after hregistry
  have hnone := not_visible_of_ok hlookup
  have hle := h.le_requested
  have hint := h.le_intMax
  rcases hcases with ⟨hlower, rfl⟩ | ⟨-, rfl⟩
  · -- only a registry that knows the domain at this version lowers it
    have hknown : Known calls domain s.version := by
      by_contra hnot
      rw [getSchemaAndHistory_of_not_known hnot] at hlookup
      cases hlookup
      omega
    refine ⟨hcovers, ?_, ?_, ?_⟩
    · dsimp only
      omega
    · dsimp only
      omega
    · intro other hother found hfound schema hvisible
      rw [List.mem_singleton.1 hother, hcalls] at hfound
      cases hfound
      obtain ⟨-, haccepted, hname, hdomain, hsince⟩ := hvisible
      exact hnone schema ⟨hknown, haccepted, hname, hdomain,
        Int.le_trans hsince (Int.le_of_lt hlower)⟩
  · refine ⟨hcovers, hle, hint, ?_⟩
    intro other hother found hfound
    rcases List.mem_append.1 hother with hold | hnew
    · exact h.checked other hold found hfound
    · rw [List.mem_singleton.1 hnew, hcalls] at hfound
      cases hfound
      exact hnone

/-- The round that ends the loop, in a state where no map is read past its
end. -/
theorem Backward.goesBack (h : Backward histories key domain requested s)
    (hreadable : ∀ index calls,
      s.uncheckedRegistryIndices.getLast? = some index →
      histories[index]? = some calls → Known calls domain s.version →
      Touched calls key domain → Admitted calls key domain)
    {outcome : SearchOutcome}
    (hstep : SchemaSearch.step (histories.map after) key domain s =
      .inl outcome) : GoesBack histories key domain requested outcome := by
  rw [SchemaSearch.step] at hstep
  split at hstep
  · rename_i hempty
    cases hstep
    refine ⟨h.le_requested, fun calls hcalls => ?_⟩
    obtain ⟨index, hindex, hget⟩ := List.getElem_of_mem hcalls
    have hmem := (h.covers.mem_iff index).1 (by rw [List.length_map]; exact hindex)
    rw [List.getLast?_eq_none_iff.1 hempty] at hmem
    exact h.checked index (hmem.resolve_left nofun) calls
      (List.getElem?_eq_some_iff.2 ⟨hindex, hget⟩)
  · rename_i index hindex
    split at hstep
    · rename_i hregistry
      have hlt := (h.covers.mem_iff index).2
        (.inl (List.mem_of_getLast? hindex))
      rw [List.getElem?_eq_none_iff] at hregistry
      omega
    · rename_i registry hregistry
      obtain ⟨calls, hcalls, rfl⟩ := getElem?_after hregistry
      obtain ⟨found, earliest, hok, hsome, -, hearliest⟩ :=
        looksUp_iff.2 (hreadable index calls hindex hcalls)
      rw [hok] at hstep
      cases found with
      | none =>
        dsimp only at hstep
        split at hstep <;> cases hstep
      | some schema =>
        cases hstep
        obtain ⟨-, haccepted, hname, hdomain, hle⟩ :=
          ((hsome schema).1 rfl).1
        have hbound := Int.le_trans hle h.le_requested
        refine ⟨hbound, ?_, calls, List.mem_of_getElem? hcalls, haccepted,
          hname, hdomain⟩
        rw [hearliest schema rfl]
        exact hbound

/-- The search returns what it is to return exactly when no registry that it
asks has, for the key, only schemas that were refused. -/
theorem searches_iff (histories : List (List RegistryCall))
    (key domain : String) {requested : Int} (hint : requested ≤ intMax) :
    Searches histories key domain requested ↔ ∀ s index calls,
        LoopReaches (step (histories.map after) key domain)
          (start (histories.map after) requested) s →
        s.uncheckedRegistryIndices.getLast? = some index →
        histories[index]? = some calls → Known calls domain s.version →
        Touched calls key domain → Admitted calls key domain := by
  constructor
  · rintro ⟨outcome, hreturns, hback⟩ s index calls hreach hindex hcalls
      hknown htouched
    by_contra hadmitted
    have hstep : step (histories.map after) key domain s =
        .inl .pastTheEnd := by
      rw [step, hindex]
      simp only [List.getElem?_map, hcalls, Option.map_some,
        pastTheEnd_of_not_admitted hknown htouched hadmitted]
    rw [hreturns.unique (.of_reaches hreach hstep)] at hback
    exact hback
  · intro hreadable
    obtain ⟨outcome, last, hreach, hlast, hreturns⟩ := exists_loopReturns
      (measure (histories.map after)) (fun s t hs hstep => hs.step hstep)
      (covers_start requested)
    refine ⟨outcome, hreturns, ?_⟩
    have hlastBackward := hreach.preserves (fun s t hs hstep => hs.step hstep)
      (backward_start hint)
    exact hlastBackward.goesBack (fun index calls => hreadable last index calls
      hreach) hlast

/-- `GetSchemaAndHistory` then returns, and what it returns, be it from a
registry or from ONNX, is not newer than what was asked for. -/
theorem Searches.getSchemaAndHistory_eq
    (h : Searches histories key domain requested)
    {schema : String → Int → String → Option OpSchema}
    (hschema : ∀ version found, schema key version domain = some found →
      found.sinceVersion ≤ version) :
    ∃ bound result, (∀ fuel, bound < fuel →
        getSchemaAndHistory (histories.map after) key domain fuel requested
          schema = some (.ok result)) ∧
      ∀ found, result.1 = some found → found.sinceVersion ≤ requested := by
  obtain ⟨outcome, ⟨bound, hruns⟩, hback⟩ := h
  cases outcome with
  | found entry earliest =>
    refine ⟨bound, (some entry, some earliest), fun fuel hfuel => ?_, ?_⟩
    · rw [getSchemaAndHistory, hruns fuel hfuel]
      rfl
    · rintro _ ⟨⟩
      exact hback.1
  | fallThrough version =>
    refine ⟨bound, (schema key version domain,
      (schema key version domain).map (·.sinceVersion)),
      fun fuel hfuel => ?_, fun found hfound => ?_⟩
    · rw [getSchemaAndHistory, hruns fuel hfuel]
      cases hasked : schema key version domain <;> simp [hasked]
    · exact Int.le_trans (hschema version found hfound) hback.1
  | pastTheEnd => exact hback.elim

/-- A registry that lowers the version, and one with the schema. -/
def twoHistories : List (List RegistryCall) :=
  [[setBaselineAndOpsetVersionForDomain "test" 1 9,
      registerOpSchema ⟨"Op", "test", 5, "", 0, none⟩],
    [setBaselineAndOpsetVersionForDomain "test" 7 9]]

theorem searches_twoHistories : Searches twoHistories "Op" "test" 9 := by
  refine (searches_iff twoHistories "Op" "test" (by decide)).2 ?_
  intro s index calls _ _ hcalls _ htouched
  rcases List.mem_cons.1 (List.mem_of_getElem? hcalls) with rfl | hrest
  · exact ⟨[setBaselineAndOpsetVersionForDomain "test" 1 9],
      ⟨"Op", "test", 5, "", 0, none⟩, [], rfl, rfl, rfl, rfl, ⟨1, 9⟩, rfl,
      by decide⟩
  · rw [List.mem_singleton.1 hrest] at htouched
    obtain ⟨schema, hmem, -⟩ := htouched
    cases List.mem_singleton.1 hmem

/-- The registry of a refused schema is asked for it. -/
theorem not_searches_refusedHistory :
    step ([refusedHistory].map after) "Op" "test"
      (start ([refusedHistory].map after) 8) = .inl .pastTheEnd ∧
    ¬ Searches [refusedHistory] "Op" "test" 8 := by
  have hstep : step ([refusedHistory].map after) "Op" "test"
      (start ([refusedHistory].map after) 8) = .inl .pastTheEnd := rfl
  refine ⟨hstep, ?_⟩
  rintro ⟨outcome, hreturns, hback⟩
  rw [hreturns.unique (.of_reaches .start hstep)] at hback
  exact hback

end Outcomes

end SchemaSearch

end OnnxRuntime
