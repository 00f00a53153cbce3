/-
Sets with a comparison, as the lists of their elements in order: elements that
it does not separate are the same.  Tables, as lists of entries: the first entry
of a key counts.
-/
import Mathlib.Data.List.Nodup

namespace OnnxRuntime

open List

variable {κ α β : Type} [BEq κ] [LawfulBEq κ]

/-- Looking up in a table whose values are rewritten key by key. -/
theorem lookup_map_value (f : κ → α → β) (entries : List (κ × α)) (key : κ) :
    (entries.map fun entry => (entry.1, f entry.1 entry.2)).lookup key =
      (entries.lookup key).map (f key) := by
  induction entries with
  | nil => rfl
  | cons entry rest ih =>
    obtain ⟨head, value⟩ := entry
    simp only [map_cons, lookup_cons, ih]
    split
    · rename_i hkey
      rw [beq_iff_eq.mp hkey]
      rfl
    · rfl

variable {entries : List (κ × α)} {key : κ} {value : α}

theorem mem_of_lookup_eq_some (h : entries.lookup key = some value) :
    (key, value) ∈ entries := by
  obtain ⟨front, back, rfl, _⟩ := lookup_eq_some_iff.mp h
  simp

/-- With one entry for each key, looking up finds every entry. -/
theorem lookup_eq_some_iff_mem (hnodup : (entries.map Prod.fst).Nodup) :
    entries.lookup key = some value ↔ (key, value) ∈ entries := by
  refine ⟨mem_of_lookup_eq_some, fun hmem => ?_⟩
  obtain ⟨front, back, rfl⟩ := append_of_mem hmem
  rw [map_append] at hnodup
  refine lookup_eq_some_iff.mpr ⟨front, back, rfl, fun entry hentry => ?_⟩
  have hkey : key ≠ entry.1 := by
    rintro rfl
    exact (nodup_append.mp hnodup).2.2 _ (mem_map_of_mem hentry) _
      mem_cons_self rfl
  simpa using hkey

variable {before : α → α → Bool} {x y : α} {items : List α}

def insertBy (before : α → α → Bool) (x : α) : List α → List α
  | [] => [x]
  | first :: rest =>
    if before x first then x :: first :: rest
    else if before first x then first :: insertBy before x rest
    else first :: rest

def eraseBy (before : α → α → Bool) (x : α) (items : List α) : List α :=
  items.filter fun y => before x y || before y x

/-- An element the comparison tells from all others of the set. -/
def Separates (before : α → α → Bool) (x : α) (items : List α) : Prop :=
  ∀ y ∈ items, ¬ before x y → ¬ before y x → y = x

theorem mem_insertBy (h : Separates before x items) :
    y ∈ insertBy before x items ↔ y = x ∨ y ∈ items := by
  induction items with
  | nil => simp [insertBy]
  | cons first rest ih =>
    have hrest := ih fun z hz => h z (mem_cons_of_mem first hz)
    rw [insertBy]
    split
    · exact mem_cons
    · split
      · rw [mem_cons, hrest, mem_cons, or_left_comm]
      · rename_i hbefore hafter
        have heq := h first mem_cons_self hbefore hafter
        rw [heq, mem_cons, or_self_left]

theorem mem_of_mem_insertBy (h : y ∈ insertBy before x items) :
    y = x ∨ y ∈ items := by
  induction items with
  | nil => exact .inl (mem_singleton.mp h)
  | cons first rest ih =>
    rw [insertBy] at h
    split at h
    · exact mem_cons.mp h
    · split at h
      · rcases mem_cons.mp h with rfl | hrest
        · exact .inr mem_cons_self
        · exact (ih hrest).imp_right (mem_cons_of_mem first)
      · exact .inr h

/-- The elements stay in order. -/
theorem pairwise_insertBy
    (htrans : ∀ a b c, before a b → before b c → before a c)
    (h : items.Pairwise (before · ·)) :
    (insertBy before x items).Pairwise (before · ·) := by
  induction items with
  | nil => exact pairwise_singleton _ x
  | cons first rest ih =>
    rw [pairwise_cons] at h
    rw [insertBy]
    split
    · rename_i hbefore
      refine pairwise_cons.mpr ⟨?_, pairwise_cons.mpr h⟩
      intro y hy
      rcases mem_cons.mp hy with rfl | hrest
      · exact hbefore
      · exact htrans x first y hbefore (h.1 y hrest)
    · split
      · rename_i hafter
        refine pairwise_cons.mpr ⟨?_, ih h.2⟩
        intro y hy
        rcases mem_of_mem_insertBy hy with rfl | hrest
        · exact hafter
        · exact h.1 y hrest
      · exact pairwise_cons.mpr h

theorem mem_eraseBy (hirrefl : ¬ before x x) (h : Separates before x items) :
    y ∈ eraseBy before x items ↔ y ∈ items ∧ y ≠ x := by
  rw [eraseBy, mem_filter]
  refine and_congr_right fun hmem => ?_
  rw [Bool.or_eq_true]
  constructor
  · rintro hsome rfl
    exact hirrefl (or_self_iff.mp hsome)
  · intro hne
    by_contra hnone
    rw [not_or] at hnone
    exact hne (h y hmem hnone.1 hnone.2)

end OnnxRuntime
