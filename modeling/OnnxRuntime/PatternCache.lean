/-
The cache of memory patterns in a session: one group for each key, the key being
the XOR of all extents of the input shapes.  Which lookups find the group of
another list of shapes.
-/
import Mathlib.Data.List.Nodup

namespace OnnxRuntime

open List Option

/-- The dimensions of a tensor, as `int64_t`. -/
abbrev TensorShape := List (BitVec 64)

def calculateMemoryPatternsKey (shapes : List TensorShape) : BitVec 64 :=
  shapes.foldl (fun key shape => shape.foldl (fun key dim => key ^^^ dim) key) 0

/-- The patterns a session holds; `γ` are the groups, each owned by the map. -/
structure PatternCache (γ : Type) where
  memPatterns : BitVec 64 → Option γ := fun _ => none

/-- A call of `UpdateMemoryPatternGroupCache`. -/
structure PatternUpdate (γ : Type) where
  inputShapes : List TensorShape
  memPatterns : γ

variable {γ : Type}

namespace PatternCache

def getMemoryPatternGroup (cache : PatternCache γ)
    (inputShapes : List TensorShape) : Option γ :=
  cache.memPatterns (calculateMemoryPatternsKey inputShapes)

/-- An entry of the key is never replaced. -/
def updateMemoryPatternGroupCache (cache : PatternCache γ)
    (update : PatternUpdate γ) : PatternCache γ :=
  let key := calculateMemoryPatternsKey update.inputShapes
  match cache.memPatterns key with
  | some _ => cache
  | none => { memPatterns :=
      Function.update cache.memPatterns key (some update.memPatterns) }

/-- The cache of a session after a history of calls. -/
def afterUpdates (history : List (PatternUpdate γ)) : PatternCache γ :=
  history.foldl updateMemoryPatternGroupCache {}

end PatternCache

section Keys

/-- How many of the extents have a bit set. -/
def extentsWithBit (shapes : List TensorShape) (bit : Nat) : Nat :=
  shapes.flatten.countP fun dim => dim.getLsbD bit

/-- No bit position is set in an even number of the extents of one list and in
an odd number of those of the other. -/
def SameParities (shapes others : List TensorShape) : Prop :=
  ∀ bit < 64, extentsWithBit shapes bit % 2 = extentsWithBit others bit % 2

instance SameParities.decidable (shapes others : List TensorShape) :
    Decidable (SameParities shapes others) :=
  inferInstanceAs (Decidable (∀ _ < 64, _))

theorem getLsbD_foldl_xor (dims : TensorShape) (key : BitVec 64) (bit : Nat) :
    (dims.foldl (fun key dim => key ^^^ dim) key).getLsbD bit =
      (key.getLsbD bit ^^
        decide ((dims.countP fun dim => dim.getLsbD bit) % 2 = 1)) := by
  induction dims generalizing key with
  | nil => simp
  | cons dim rest ih =>
    rw [foldl_cons, ih, BitVec.getLsbD_xor, countP_cons, Bool.xor_assoc]
    congr 1
    cases hbit : dim.getLsbD bit with
    | false => simp
    | true =>
      rw [if_pos rfl, Bool.true_xor, ← decide_not, decide_eq_decide]
      omega

theorem getLsbD_calculateMemoryPatternsKey (shapes : List TensorShape)
    (bit : Nat) :
    (calculateMemoryPatternsKey shapes).getLsbD bit =
      decide (extentsWithBit shapes bit % 2 = 1) := by
  rw [calculateMemoryPatternsKey, ← foldl_flatten, getLsbD_foldl_xor,
    extentsWithBit, show (0 : BitVec 64) = 0#64 from rfl, BitVec.getLsbD_zero,
    Bool.false_xor]

/-- Two lists of shapes share a key exactly when all their bit counts have the
same parities. -/
theorem calculateMemoryPatternsKey_eq_iff {shapes others : List TensorShape} :
    calculateMemoryPatternsKey shapes = calculateMemoryPatternsKey others ↔
      SameParities shapes others := by
  constructor
  · intro heq bit _
    have hbit := congrArg (fun key => key.getLsbD bit) heq
    simp only [getLsbD_calculateMemoryPatternsKey, decide_eq_decide] at hbit
    omega
  · intro hsame
    apply BitVec.eq_of_getLsbD_eq
    intro bit hbit
    rw [getLsbD_calculateMemoryPatternsKey, getLsbD_calculateMemoryPatternsKey,
      hsame bit hbit]

end Keys

namespace PatternCache

/-- What the cache holds for a key is the group of the first call with it. -/
def firstWithKey (history : List (PatternUpdate γ)) (key : BitVec 64) :
    Option γ :=
  (history.find? fun update =>
    calculateMemoryPatternsKey update.inputShapes = key).map (·.memPatterns)

theorem memPatterns_update (cache : PatternCache γ) (update : PatternUpdate γ)
    (key : BitVec 64) :
    (cache.updateMemoryPatternGroupCache update).memPatterns key =
      (cache.memPatterns key).or
        (if calculateMemoryPatternsKey update.inputShapes = key then
          some update.memPatterns else none) := by
  rw [updateMemoryPatternGroupCache]
  by_cases hkey : calculateMemoryPatternsKey update.inputShapes = key
  · subst hkey
    cases hold : cache.memPatterns
        (calculateMemoryPatternsKey update.inputShapes) with
    | none => simp
    | some group => simp [hold]
  · rw [if_neg hkey, or_none]
    split
    · rfl
    · exact Function.update_of_ne (Ne.symm hkey) _ _

theorem memPatterns_foldl (history : List (PatternUpdate γ))
    (cache : PatternCache γ) (key : BitVec 64) :
    (history.foldl updateMemoryPatternGroupCache cache).memPatterns key =
      (cache.memPatterns key).or (firstWithKey history key) := by
  induction history generalizing cache with
  | nil => simp [firstWithKey]
  | cons update rest ih =>
    rw [foldl_cons, ih, memPatterns_update]
    by_cases hkey : calculateMemoryPatternsKey update.inputShapes = key <;>
      simp [firstWithKey, hkey]

theorem getMemoryPatternGroup_afterUpdates (history : List (PatternUpdate γ))
    (shapes : List TensorShape) :
    (afterUpdates history).getMemoryPatternGroup shapes =
      firstWithKey history (calculateMemoryPatternsKey shapes) := by
  rw [getMemoryPatternGroup, afterUpdates, memPatterns_foldl]
  rfl

/-- A group that is found for the shapes was recorded for them. -/
def LookupMatches (history : List (PatternUpdate γ))
    (shapes : List TensorShape) : Prop :=
  ∀ group, (afterUpdates history).getMemoryPatternGroup shapes = some group →
    ∃ update ∈ history, update.inputShapes = shapes ∧ update.memPatterns = group

/-- Shapes whose extents have the same bit parities as those looked up were
only recorded after the shapes looked up were. -/
def RecordedFirst (history : List (PatternUpdate γ))
    (shapes : List TensorShape) : Prop :=
  ∀ front update back, history = front ++ update :: back →
    SameParities update.inputShapes shapes →
      ∃ earlier ∈ front ++ [update], earlier.inputShapes = shapes

/-- The first item of a list with a given image. -/
theorem exists_first_eq {α β : Type} [DecidableEq β] (f : α → β)
    {items : List α} {image : β} (h : ∃ item ∈ items, f item = image) :
    ∃ front item back, items = front ++ item :: back ∧ f item = image ∧
      ∀ earlier ∈ front, f earlier ≠ image := by
  induction items with
  | nil => simp at h
  | cons head rest ih =>
    by_cases hhead : f head = image
    · exact ⟨[], head, rest, rfl, hhead, by simp⟩
    · obtain ⟨item, hitem, himage⟩ := h
      have hrest : item ∈ rest := by
        rcases mem_cons.mp hitem with rfl | hrest
        · exact absurd himage hhead
        · exact hrest
      obtain ⟨front, first, back, rfl, hfirst, hfront⟩ :=
        ih ⟨item, hrest, himage⟩
      refine ⟨head :: front, first, back, rfl, hfirst, ?_⟩
      simpa [hhead] using hfront

/-- The first call that shares the key decides the lookup. -/
theorem getMemoryPatternGroup_of_first
    {history front back : List (PatternUpdate γ)}
    {update : PatternUpdate γ} {shapes : List TensorShape}
    (hsplit : history = front ++ update :: back)
    (hkey : calculateMemoryPatternsKey update.inputShapes =
      calculateMemoryPatternsKey shapes)
    (hfront : ∀ earlier ∈ front,
      calculateMemoryPatternsKey earlier.inputShapes ≠
        calculateMemoryPatternsKey shapes) :
    (afterUpdates history).getMemoryPatternGroup shapes =
      some update.memPatterns := by
  have hfind : history.find? (fun update =>
      decide (calculateMemoryPatternsKey update.inputShapes =
        calculateMemoryPatternsKey shapes)) = some update := by
    rw [find?_eq_some_iff_append]
    refine ⟨decide_eq_true hkey, front, back, hsplit, fun earlier hearlier => ?_⟩
    rw [decide_eq_false (hfront earlier hearlier), Bool.not_false]
  rw [getMemoryPatternGroup_afterUpdates, firstWithKey, hfind, map_some]

/-- A lookup finds a group recorded for its shapes exactly when no other shapes
with the same bit parities were recorded before them.  The groups are owned by
their calls, so that no two calls record the same one. -/
theorem lookupMatches_iff (history : List (PatternUpdate γ))
    (hgroups : (history.map (·.memPatterns)).Nodup)
    (shapes : List TensorShape) :
    LookupMatches history shapes ↔ RecordedFirst history shapes := by
  constructor
  · intro hmatches front update back hsplit hsame
    -- Among the calls up to this one, the first that shares the key is found.
    have hshared : ∃ other ∈ front ++ [update],
        calculateMemoryPatternsKey other.inputShapes =
          calculateMemoryPatternsKey shapes :=
      ⟨update, by simp, calculateMemoryPatternsKey_eq_iff.mpr hsame⟩
    obtain ⟨before, first, after, heq, hkey, hbefore⟩ :=
      exists_first_eq _ hshared
    have hwhole : history = before ++ first :: (after ++ back) := by
      rw [hsplit, append_cons, heq]
      simp
    obtain ⟨recorded, hmem, hshapes, hgroup⟩ :=
      hmatches _ (getMemoryPatternGroup_of_first hwhole hkey hbefore)
    have hfirst : first ∈ history := by
      rw [hwhole]
      simp
    have hrecorded : recorded = first :=
      inj_on_of_nodup_map hgroups hmem hfirst hgroup
    refine ⟨first, ?_, hrecorded ▸ hshapes⟩
    rw [heq]
    simp
  · intro hfirst group hget
    rw [getMemoryPatternGroup_afterUpdates, firstWithKey,
      map_eq_some_iff] at hget
    obtain ⟨update, hfind, rfl⟩ := hget
    obtain ⟨hkey, front, back, hsplit, hfront⟩ :=
      find?_eq_some_iff_append.mp hfind
    obtain ⟨earlier, hearlier, hshapes⟩ := hfirst front update back hsplit
      (calculateMemoryPatternsKey_eq_iff.mp (of_decide_eq_true hkey))
    rcases mem_append.mp hearlier with hold | hself
    · have hne := hfront earlier hold
      simp [hshapes] at hne
    · rw [mem_singleton] at hself
      refine ⟨update, ?_, hself ▸ hshapes, rfl⟩
      rw [hsplit]
      simp

/-- A 2×3 and a 3×2 input share a key: the second is given the patterns that
were recorded for the first. -/
theorem not_lookupMatches_transposed :
    ¬ LookupMatches [⟨[[2, 3]], ()⟩] [[3, 2]] := by
  intro hmatches
  obtain ⟨update, hmem, hshapes, -⟩ := hmatches () (by decide)
  rw [mem_singleton] at hmem
  subst hmem
  exact absurd hshapes (by decide)

theorem lookupMatches_recorded :
    (afterUpdates [⟨[[2, 3]], 0⟩, ⟨[[3, 2]], 1⟩]).getMemoryPatternGroup
        [[2, 3]] = some 0 ∧
      LookupMatches [⟨[[2, 3]], 0⟩, ⟨[[3, 2]], 1⟩] [[2, 3]] := by
  refine ⟨by decide, (lookupMatches_iff _ (by decide) _).mpr ?_⟩
  intro front update back hsplit _
  refine ⟨⟨[[2, 3]], 0⟩, ?_, rfl⟩
  cases front with
  | nil =>
    cases hsplit
    simp
  | cons first rest =>
    obtain ⟨rfl, -⟩ := cons.inj hsplit
    simp

end PatternCache

end OnnxRuntime
