/-
Histories of a schema registry: what its two tables hold after any sequence of
accepted and refused calls, and where a lookup returns what was accepted.
-/
import OnnxRuntime.SchemaRegistry
import Mathlib.Data.List.Induction

namespace OnnxRuntime

open List Option SchemaRegistry

namespace RegistryCall

variable {calls front : List RegistryCall} {call : RegistryCall}
  {schema : OpSchema} {key domain : String} {version : Int}

/-- A schema of the name and the domain came to the tables of the registry. -/
def Touched (calls : List RegistryCall) (key domain : String) : Prop :=
  ∃ schema, registerOpSchema schema ∈ calls ∧ schema.finalize = none ∧
    schema.name = key ∧ schema.domain = domain

/-- A schema of the name and the domain came after the versions of the domain
were set, and is not newer than they allow. -/
def Admitted (calls : List RegistryCall) (key domain : String) : Prop :=
  ∃ front schema back, calls = front ++ registerOpSchema schema :: back ∧
    schema.finalize = none ∧ schema.name = key ∧ schema.domain = domain ∧
    ∃ range, rangeOf front domain = some range ∧
      schema.sinceVersion ≤ range.opsetVersion

section Snoc

theorem after_snoc (calls : List RegistryCall) (call : RegistryCall) :
    after (calls ++ [call]) = (call.run (after calls)).1 := by
  rw [after, foldl_append]
  rfl

theorem eq_of_snoc_eq {front back : List RegistryCall} {last : RegistryCall}
    (h : calls ++ [call] = front ++ last :: back) :
    (calls = front ∧ call = last ∧ back = []) ∨
      ∃ rest, back = rest ++ [call] ∧ calls = front ++ last :: rest := by
  rcases eq_nil_or_concat' back with rfl | ⟨rest, final, rfl⟩
  · obtain ⟨rfl, hlast⟩ := append_inj' h rfl
    exact .inl ⟨rfl, head_eq_of_cons_eq hlast, rfl⟩
  · rw [← cons_append, ← append_assoc] at h
    obtain ⟨rfl, hlast⟩ := append_inj' h rfl
    cases hlast
    exact .inr ⟨rest, rfl, rfl⟩

theorem accepted_snoc : Accepted (calls ++ [call]) schema ↔
    Accepted calls schema ∨ (call = registerOpSchema schema ∧
      (call.run (after calls)).2 = .ok ()) := by
  constructor
  · rintro ⟨front, back, hcalls, haccepted⟩
    rcases eq_of_snoc_eq hcalls with ⟨rfl, rfl, rfl⟩ | ⟨rest, rfl, rfl⟩
    · exact .inr ⟨rfl, haccepted⟩
    · exact .inl ⟨front, rest, rfl, haccepted⟩
  · rintro (⟨front, back, rfl, haccepted⟩ | ⟨rfl, haccepted⟩)
    · exact ⟨front, back ++ [call], by simp, haccepted⟩
    · exact ⟨calls, [], rfl, haccepted⟩

theorem touched_snoc : Touched (calls ++ [call]) key domain ↔
    Touched calls key domain ∨ ∃ schema, call = registerOpSchema schema ∧
      schema.finalize = none ∧ schema.name = key ∧ schema.domain = domain := by
  simp only [Touched, mem_append, mem_singleton]
  constructor
  · rintro ⟨schema, hmem | rfl, hrest⟩
    · exact .inl ⟨schema, hmem, hrest⟩
    · exact .inr ⟨schema, rfl, hrest⟩
  · rintro (⟨schema, hmem, hrest⟩ | ⟨schema, rfl, hrest⟩)
    · exact ⟨schema, .inl hmem, hrest⟩
    · exact ⟨schema, .inr rfl, hrest⟩

end Snoc

section Histories

/-- What the tables of a registry hold after a history. -/
structure Represents (calls : List RegistryCall) (r : SchemaRegistry) :
    Prop where
  range : ∀ domain, r.domainVersionRangeMap domain = rangeOf calls domain
  touched : ∀ key domain, (r.map key domain).isSome ↔ Touched calls key domain
  ordered : ∀ key domain entries, r.map key domain = some entries →
    SchemaRegistry.Ordered entries
  mem_iff : ∀ key domain entries, r.map key domain = some entries →
    ∀ schema, (schema.sinceVersion, schema) ∈ entries ↔
      Accepted calls schema ∧ schema.name = key ∧ schema.domain = domain

variable {r : SchemaRegistry}

theorem rangeOf_snoc_register (schema : OpSchema) (domain : String) :
    rangeOf (calls ++ [registerOpSchema schema]) domain =
      rangeOf calls domain := by
  rw [rangeOf, findSome?_append, ← rangeOf]
  simp

theorem Represents.setBaseline (h : Represents calls (after calls))
    (domain : String) (baseline opset : Int) :
    Represents
      (calls ++ [setBaselineAndOpsetVersionForDomain domain baseline opset])
      ((after calls).setBaselineAndOpsetVersionForDomain domain baseline
        opset).1 := by
  have hmap : ((after calls).setBaselineAndOpsetVersionForDomain domain
      baseline opset).1.map = (after calls).map := by
    rw [SchemaRegistry.setBaselineAndOpsetVersionForDomain]
    split <;> rfl
  constructor
  · intro other
    rw [SchemaRegistry.setBaselineAndOpsetVersionForDomain, rangeOf,
      findSome?_append, ← rangeOf, ← h.range]
    by_cases hother : domain = other
    · subst hother
      cases hknown : (after calls).domainVersionRangeMap domain with
      | none => simp
      | some range => simp [hknown]
    · have hne : other ≠ domain := fun heq => hother heq.symm
      split <;> simp [hother, hne]
  · intro key other
    rw [hmap, h.touched, touched_snoc]
    simp
  · rw [hmap]
    exact h.ordered
  · rw [hmap]
    intro key other entries hentries schema
    rw [h.mem_iff key other entries hentries, accepted_snoc]
    simp

theorem touched_of_accepted (h : Accepted calls schema) :
    Touched calls schema.name schema.domain := by
  obtain ⟨front, back, rfl, haccepted⟩ := h
  refine ⟨schema, by simp, ?_, rfl, rfl⟩
  rcases (after front).registerOpSchema_cases schema with
    ⟨-, -, hrefused⟩ | ⟨hfinalize, -⟩ | ⟨hfinalize, -⟩
  · exact absurd haccepted hrefused
  · exact hfinalize
  · exact hfinalize

/-- The entries that a registration finds, or makes. -/
theorem Represents.entriesOf (h : Represents calls r) (schema : OpSchema) :
    Ordered (r.entriesOf schema) ∧
    ∀ other, (other.sinceVersion, other) ∈ r.entriesOf schema ↔
      Accepted calls other ∧ other.name = schema.name ∧
        other.domain = schema.domain := by
  rw [SchemaRegistry.entriesOf]
  cases hentries : r.map schema.name schema.domain with
  | some entries =>
    exact ⟨h.ordered _ _ entries hentries, h.mem_iff _ _ entries hentries⟩
  | none =>
    refine ⟨⟨List.Pairwise.nil, nofun⟩, fun other => ⟨nofun, ?_⟩⟩
    rintro ⟨haccepted, hname, hdomain⟩
    have htouched := touched_of_accepted haccepted
    rw [hname, hdomain, ← h.touched, hentries] at htouched
    cases htouched

/-- A registration changes the entries of its own name and domain only. -/
theorem Represents.setEntries (h : Represents calls r)
    (hfinalize : schema.finalize = none) {entries : VersionMap}
    (hordered : Ordered entries)
    (hmem : ∀ other, (other.sinceVersion, other) ∈ entries ↔
      Accepted (calls ++ [registerOpSchema schema]) other ∧
        other.name = schema.name ∧ other.domain = schema.domain)
    (hothers : ∀ other,
      other.name ≠ schema.name ∨ other.domain ≠ schema.domain →
      (Accepted (calls ++ [registerOpSchema schema]) other ↔
        Accepted calls other)) :
    Represents (calls ++ [registerOpSchema schema])
      (r.setEntries schema.name schema.domain entries) := by
  constructor
  · intro domain
    rw [rangeOf_snoc_register]
    exact h.range domain
  · intro key domain
    rw [map_setEntries, touched_snoc]
    by_cases hsame : key = schema.name ∧ domain = schema.domain
    · simp only [hsame, and_self, if_true, isSome_some, true_iff]
      exact .inr ⟨schema, rfl, hfinalize, rfl, rfl⟩
    · rw [if_neg hsame, h.touched]
      refine ⟨.inl, fun hor => hor.resolve_right ?_⟩
      rintro ⟨_, ⟨⟩, -, rfl, rfl⟩
      exact hsame ⟨rfl, rfl⟩
  · intro key domain found hfound
    rw [map_setEntries] at hfound
    split at hfound
    · cases hfound
      exact hordered
    · exact h.ordered key domain found hfound
  · intro key domain found hfound other
    rw [map_setEntries] at hfound
    split at hfound
    · rename_i hsame
      cases hfound
      rw [hsame.1, hsame.2]
      exact hmem other
    · rw [h.mem_iff key domain found hfound]
      constructor
      · rintro ⟨haccepted, rfl, rfl⟩
        exact ⟨(hothers other (by grind)).2 haccepted, rfl, rfl⟩
      · rintro ⟨haccepted, rfl, rfl⟩
        exact ⟨(hothers other (by grind)).1 haccepted, rfl, rfl⟩

theorem Represents.registerOpSchema (h : Represents calls (after calls))
    (schema : OpSchema) :
    Represents (calls ++ [.registerOpSchema schema])
      ((after calls).registerOpSchema schema).1 := by
  obtain ⟨hordered, hmem⟩ := h.entriesOf schema
  rcases (after calls).registerOpSchema_cases schema with
    ⟨hfinalize, hrun, hrefused⟩ | ⟨hfinalize, hrun, hrefused, -⟩ |
      ⟨hfinalize, hrun, haccepted, hnew, -⟩
  · have hsame : ∀ other, Accepted (calls ++ [.registerOpSchema schema])
        other ↔ Accepted calls other := by
      intro other
      rw [accepted_snoc]
      exact or_iff_left fun hlast => hrefused hlast.2
    rw [hrun]
    refine ⟨fun domain => ?_, fun key domain => ?_, h.ordered, ?_⟩
    · rw [rangeOf_snoc_register, h.range]
    · rw [touched_snoc, h.touched]
      refine ⟨.inl, fun hor => hor.resolve_right ?_⟩
      rintro ⟨_, ⟨⟩, hnone, -⟩
      exact hfinalize hnone
    · intro key domain entries hentries other
      rw [h.mem_iff key domain entries hentries, hsame]
  · have hsame : ∀ other, Accepted (calls ++ [.registerOpSchema schema])
        other ↔ Accepted calls other := by
      intro other
      rw [accepted_snoc]
      exact or_iff_left fun hlast => hrefused hlast.2
    rw [hrun]
    refine h.setEntries hfinalize hordered (fun other => ?_)
      fun other _ => hsame other
    rw [hmem, hsame]
  · have hlast : ∀ other, Accepted (calls ++ [.registerOpSchema schema])
        other ↔ Accepted calls other ∨ other = schema := by
      intro other
      rw [accepted_snoc]
      refine or_congr_right ⟨?_, ?_⟩
      · rintro ⟨⟨⟩, -⟩
        rfl
      · rintro rfl
        exact ⟨rfl, haccepted⟩
    have hseparates : Separates VersionMap.before
        (schema.sinceVersion, schema) ((after calls).entriesOf schema) := by
      intro entry hentry hbefore hafter
      have hne := hnew entry hentry
      simp only [VersionMap.before, decide_eq_true_eq] at hbefore hafter
      omega
    rw [hrun]
    refine h.setEntries hfinalize ⟨?_, ?_⟩ (fun other => ?_) ?_
    · apply pairwise_insertBy _ hordered.sorted
      intro a b c hab hbc
      simp only [VersionMap.before, decide_eq_true_eq] at hab hbc ⊢
      omega
    · intro entry hentry
      rw [VersionMap.emplace, mem_insertBy hseparates] at hentry
      rcases hentry with rfl | hentry
      · rfl
      · exact hordered.since entry hentry
    · rw [VersionMap.emplace, mem_insertBy hseparates, hmem, hlast]
      constructor
      · rintro (heq | ⟨hbefore, hname, hdomain⟩)
        · obtain rfl : other = schema := congrArg Prod.snd heq
          exact ⟨.inr rfl, rfl, rfl⟩
        · exact ⟨.inl hbefore, hname, hdomain⟩
      · rintro ⟨hbefore | rfl, hname, hdomain⟩
        · exact .inr ⟨hbefore, hname, hdomain⟩
        · exact .inl rfl
    · intro other hother
      rw [hlast]
      refine ⟨fun hor => hor.resolve_right ?_, .inl⟩
      rintro rfl
      exact hother.elim (fun hne => hne rfl) fun hne => hne rfl

/-- Every history, by the last of its calls. -/
theorem represents (calls : List RegistryCall) :
    Represents calls (after calls) := by
  induction calls using reverseRecOn with
  | nil =>
    refine ⟨fun _ => rfl, fun key domain => ?_, nofun, nofun⟩
    simp [after, Touched]
  | append_singleton calls call ih =>
    rw [after_snoc]
    cases call with
    | setBaselineAndOpsetVersionForDomain domain baseline opset =>
      exact ih.setBaseline domain baseline opset
    | registerOpSchema schema => exact ih.registerOpSchema schema

end Histories

section Lookups

theorem admitted_of_accepted (h : Accepted calls schema) :
    Admitted calls schema.name schema.domain := by
  obtain ⟨front, back, rfl, haccepted⟩ := h
  rcases (after front).registerOpSchema_cases schema with
    ⟨-, -, hrefused⟩ | ⟨-, -, hrefused, -⟩ | ⟨hfinalize, -, -, -, hrange⟩
  · exact absurd haccepted hrefused
  · exact absurd haccepted hrefused
  · rw [(represents front).range] at hrange
    exact ⟨front, schema, back, rfl, hfinalize, rfl, rfl, hrange⟩

/-- The first schema that can be accepted for a name and a domain is. -/
theorem exists_accepted (h : Admitted calls key domain) :
    ∃ schema, Accepted calls schema ∧ schema.name = key ∧
      schema.domain = domain := by
  obtain ⟨front, schema, back, rfl, hfinalize, rfl, rfl, hrange⟩ := h
  rcases (after front).registerOpSchema_cases schema with
    ⟨hnone, -⟩ | ⟨-, -, -, ⟨entry, hentry, -⟩ | hnone⟩ | ⟨-, -, haccepted, -⟩
  · exact absurd hfinalize hnone
  · obtain ⟨hordered, hmem⟩ := (represents front).entriesOf schema
    have hpair : (entry.2.sinceVersion, entry.2) = entry :=
      Prod.ext (hordered.since entry hentry) rfl
    rw [← hpair, hmem] at hentry
    obtain ⟨⟨first, rest, rfl, haccepted⟩, hname, hdomain⟩ := hentry
    refine ⟨entry.2, ⟨first, rest ++ .registerOpSchema schema :: back, ?_,
      haccepted⟩, hname, hdomain⟩
    simp
  · rw [(represents front).range] at hnone
    exact absurd hrange hnone
  · exact ⟨schema, ⟨front, back, rfl, haccepted⟩, rfl, rfl⟩

/-- The domain is known, with a version that is not older. -/
def Known (calls : List RegistryCall) (domain : String) (version : Int) :
    Prop :=
  ∃ range, rangeOf calls domain = some range ∧ version ≤ range.opsetVersion

theorem not_visible_of_not_known (h : ¬ Known calls domain version) :
    ¬ Visible calls key version domain schema :=
  fun hvisible => h hvisible.1

theorem getSchemaAndHistory_of_not_known (h : ¬ Known calls domain version) :
    (after calls).getSchemaAndHistory key version domain =
      .ok (none, intMax) := by
  rw [getSchemaAndHistory, (represents calls).range]
  cases hrange : rangeOf calls domain with
  | none => rfl
  | some range =>
    have hlt : range.opsetVersion < version := by
      by_contra hle
      exact h ⟨range, hrange, Int.not_lt.1 hle⟩
    exact if_pos hlt

/-- A lookup in a known domain comes to the entries of the key. -/
theorem getSchemaAndHistory_of_range {range : SchemaRegistryVersion}
    (hrange : rangeOf calls domain = some range)
    (hle : version ≤ range.opsetVersion) (key : String) :
    (after calls).getSchemaAndHistory key version domain =
      match (after calls).map key domain with
      | none => .ok (none, range.unchangedSince version)
      | some entries =>
        search entries version (range.unchangedSince version) := by
  rw [getSchemaAndHistory, (represents calls).range, hrange]
  exact if_neg (Int.not_lt.2 hle)

variable {entries : VersionMap} {earliest unchanged : Int}

/-- What a search of entries finds, in terms of the history. -/
theorem visible_of_finds (hknown : Known calls domain version)
    (hentries : (after calls).map key domain = some entries)
    {found : Option OpSchema}
    (hfinds : Finds entries version earliest found unchanged)
    (schema : OpSchema) :
    found = some schema ↔ Visible calls key version domain schema ∧
      ∀ other, Visible calls key version domain other →
        other.sinceVersion ≤ schema.sinceVersion := by
  have hordered := (represents calls).ordered _ _ entries hentries
  have hmem := (represents calls).mem_iff _ _ entries hentries
  rw [hfinds.some_iff, hmem]
  constructor
  · rintro ⟨⟨haccepted, hname, hdomain⟩, hle, hnewest⟩
    refine ⟨⟨hknown, haccepted, hname, hdomain, hle⟩, ?_⟩
    rintro other ⟨-, haccepted', hname', hdomain', hle'⟩
    exact hnewest _ ((hmem other).2 ⟨haccepted', hname', hdomain'⟩) hle'
  · rintro ⟨⟨-, haccepted, hname, hdomain, hle⟩, hnewest⟩
    refine ⟨⟨haccepted, hname, hdomain⟩, hle, fun entry hentry hentryLe => ?_⟩
    have hsince := hordered.since entry hentry
    have hpair : (entry.2.sinceVersion, entry.2) = entry := Prod.ext hsince rfl
    have hother := (hmem entry.2).1 (by rw [hpair]; exact hentry)
    rw [← hsince]
    exact hnewest entry.2 ⟨hknown, hother.1, hother.2.1, hother.2.2,
      hsince ▸ hentryLe⟩

theorem not_visible_of_finds
    (hentries : (after calls).map key domain = some entries)
    (hfinds : Finds entries version earliest none unchanged)
    (schema : OpSchema) : ¬ Visible calls key version domain schema := by
  rintro ⟨-, haccepted, hname, hdomain, hle⟩
  have hmem := ((represents calls).mem_iff _ _ entries hentries schema).2
    ⟨haccepted, hname, hdomain⟩
  exact absurd hle (Int.not_le.2 (hfinds.newer_of_none rfl _ hmem))

/-- The end of a map is read where a name has entries and no schema. -/
theorem pastTheEnd_of_not_admitted (hknown : Known calls domain version)
    (htouched : Touched calls key domain)
    (hadmitted : ¬ Admitted calls key domain) :
    (after calls).getSchemaAndHistory key version domain =
      .error .pastTheEnd := by
  obtain ⟨range, hrange, hle⟩ := hknown
  obtain ⟨entries, hentries⟩ := isSome_iff_exists.1
    (((represents calls).touched key domain).2 htouched)
  have hordered := (represents calls).ordered _ _ entries hentries
  have hmem := (represents calls).mem_iff _ _ entries hentries
  rw [getSchemaAndHistory_of_range hrange hle, hentries]
  rcases entries with _ | ⟨⟨since, schema⟩, rest⟩
  · rfl
  · obtain rfl : schema.sinceVersion = since :=
      hordered.since _ mem_cons_self
    obtain ⟨haccepted, rfl, rfl⟩ := (hmem schema).1 mem_cons_self
    exact absurd (admitted_of_accepted haccepted) hadmitted

/-- A lookup returns what was accepted, unless all that came to the tables for
the key was refused. -/
theorem looksUp_iff : LooksUp calls key version domain ↔
    (Known calls domain version → Touched calls key domain →
      Admitted calls key domain) := by
  by_cases hknown : Known calls domain version
  · constructor
    · rintro ⟨found, earliest, hok, -⟩ - htouched
      by_contra hadmitted
      rw [pastTheEnd_of_not_admitted hknown htouched hadmitted] at hok
      cases hok
    intro hadmitted
    obtain ⟨range, hrange, hle⟩ := id hknown
    have hlookup := getSchemaAndHistory_of_range hrange hle key
    cases hentries : (after calls).map key domain with
    | none =>
      have hnone : ∀ schema, ¬ Visible calls key version domain schema := by
        rintro schema ⟨-, haccepted, rfl, rfl, -⟩
        have htouched := touched_of_accepted haccepted
        rw [← (represents calls).touched, hentries] at htouched
        cases htouched
      rw [hentries] at hlookup
      refine ⟨none, _, hlookup, fun schema => ⟨nofun, ?_⟩, fun _ => hnone,
        nofun⟩
      exact fun h => absurd h.1 (hnone schema)
    | some entries =>
      have htouched : Touched calls key domain := by
        rw [← (represents calls).touched, hentries]
        rfl
      obtain ⟨schema, haccepted⟩ :=
        exists_accepted (hadmitted hknown htouched)
      have hne : entries ≠ [] := ne_nil_of_mem
        (((represents calls).mem_iff _ _ entries hentries schema).2 haccepted)
      obtain ⟨found, unchanged, hsearch, hfinds⟩ :=
        ((represents calls).ordered _ _ entries hentries).search hne version
          (range.unchangedSince version)
      rw [hentries] at hlookup
      refine ⟨found, unchanged, hlookup.trans hsearch,
        visible_of_finds hknown hentries hfinds, ?_, hfinds.unchanged_of_some⟩
      rintro rfl
      exact not_visible_of_finds hentries hfinds
  · refine ⟨fun _ h => absurd h hknown, fun _ => ?_⟩
    refine ⟨none, intMax, getSchemaAndHistory_of_not_known hknown,
      fun schema => ⟨nofun, fun h => ?_⟩,
      fun _ _ => not_visible_of_not_known hknown, nofun⟩
    exact absurd h.1 (not_visible_of_not_known hknown)

/-- After each call of a history every lookup returns what was accepted, and
no refused call changes a lookup. -/
structure Lawful (calls : List RegistryCall) : Prop where
  looksUp : ∀ front, front <+: calls → ∀ key version domain,
    LooksUp front key version domain
  refused : ∀ front call, front ++ [call] <+: calls →
    (call.run (after front)).2 ≠ .ok () → ∀ key version domain,
    (after (front ++ [call])).getSchemaAndHistory key version domain =
      (after front).getSchemaAndHistory key version domain

/-- A refused call leaves the tables as they are, or makes an entry without
schemas for its own name and domain. -/
theorem refused_cases (hrefused : (call.run (after front)).2 ≠ .ok ()) :
    after (front ++ [call]) = after front ∨
    ∃ schema, call = registerOpSchema schema ∧ schema.finalize = none ∧
      after (front ++ [call]) = (after front).setEntries schema.name
        schema.domain ((after front).entriesOf schema) := by
  rw [after_snoc]
  cases call with
  | setBaselineAndOpsetVersionForDomain domain baseline opset =>
    left
    simp only [run, SchemaRegistry.setBaselineAndOpsetVersionForDomain]
      at hrefused ⊢
    split
    · rfl
    · rename_i hset
      rw [if_neg hset] at hrefused
      exact absurd rfl hrefused
  | registerOpSchema schema =>
    rcases (after front).registerOpSchema_cases schema with
      ⟨-, hrun, -⟩ | ⟨hfinalize, hrun, -⟩ | ⟨-, -, haccepted, -⟩
    · exact .inl hrun
    · exact .inr ⟨schema, rfl, hfinalize, hrun⟩
    · exact absurd haccepted hrefused

/-- A lookup reads one entry of each table. -/
theorem getSchemaAndHistory_congr {r r' : SchemaRegistry}
    (hrange : r.domainVersionRangeMap domain = r'.domainVersionRangeMap domain)
    (hmap : r'.domainVersionRangeMap domain ≠ none →
      r.map key domain = r'.map key domain) :
    r.getSchemaAndHistory key version domain =
      r'.getSchemaAndHistory key version domain := by
  rw [getSchemaAndHistory, getSchemaAndHistory, hrange]
  cases hknown : r'.domainVersionRangeMap domain with
  | none => rfl
  | some range => rw [hmap (by rw [hknown]; exact nofun)]

/-- The lookups of a history are right exactly when, at each of its points, a
known domain has for no name only schemas that were refused. -/
theorem lawful_iff (calls : List RegistryCall) :
    Lawful calls ↔ ∀ front, front <+: calls → ∀ key domain,
      (rangeOf front domain).isSome → Touched front key domain →
        Admitted front key domain := by
  constructor
  · intro h front hfront key domain hknown
    obtain ⟨range, hrange⟩ := isSome_iff_exists.1 hknown
    exact looksUp_iff.1 (h.looksUp front hfront key range.opsetVersion domain)
      ⟨range, hrange, Int.le_refl _⟩
  · intro h
    refine ⟨fun front hfront key version domain => looksUp_iff.2 ?_, ?_⟩
    · rintro ⟨range, hrange, -⟩
      exact h front hfront key domain (by rw [hrange]; rfl)
    · intro front call hfront hrefused key version domain
      rcases refused_cases hrefused with hsame | ⟨schema, rfl, hfinalize, hset⟩
      · rw [hsame]
      · refine getSchemaAndHistory_congr (by rw [hset]; rfl) fun hknown => ?_
        rw [hset, map_setEntries]
        split
        · rename_i hown
          obtain ⟨rfl, rfl⟩ := hown
          cases hentries : (after front).map schema.name schema.domain with
          | some entries => rw [SchemaRegistry.entriesOf, hentries]; rfl
          | none =>
            -- an entry without schemas, in a domain that is known
            exfalso
            have hadmitted := h (front ++ [registerOpSchema schema]) hfront
              schema.name schema.domain
              (by
                rw [rangeOf_snoc_register, ← (represents front).range]
                exact isSome_iff_ne_none.2 hknown)
              (touched_snoc.2 (.inr ⟨schema, rfl, hfinalize, rfl, rfl⟩))
            obtain ⟨accepted, haccepted⟩ := exists_accepted hadmitted
            have hmap : (after (front ++ [registerOpSchema schema])).map
                schema.name schema.domain = some [] := by
              rw [hset, map_setEntries, if_pos ⟨rfl, rfl⟩,
                SchemaRegistry.entriesOf, hentries]
              rfl
            have hmem := ((represents _).mem_iff _ _ [] hmap accepted).2
              haccepted
            cases hmem
        · rfl

/-- A schema that is newer than its domain is refused. -/
def refusedHistory : List RegistryCall :=
  [setBaselineAndOpsetVersionForDomain "test" 1 8,
    registerOpSchema ⟨"Op", "test", 9, "", 0, none⟩]

/-- The next lookup of its name reads past the end of a map. -/
theorem not_lawful_refusedHistory :
    (after refusedHistory).getSchemaAndHistory "Op" 8 "test" =
      .error .pastTheEnd ∧ ¬ Lawful refusedHistory := by
  have hlookup : (after refusedHistory).getSchemaAndHistory "Op" 8 "test" =
      .error .pastTheEnd := rfl
  refine ⟨hlookup, fun h => ?_⟩
  obtain ⟨found, earliest, hok, -⟩ :=
    h.looksUp refusedHistory (prefix_refl _) "Op" 8 "test"
  cases hok

end Lookups

end RegistryCall

end OnnxRuntime
