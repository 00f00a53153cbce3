/-
Byte extents on a line: disjointness, lists of extents kept in address order
with the gaps between them, and what inserting into a gap or erasing an
element does to such a list.
-/
import Mathlib.Data.List.Basic
import Mathlib.Data.List.Pairwise
import Mathlib.Data.List.InsertIdx
import Mathlib.Tactic.Linarith

namespace OnnxRuntime

open List

/-- A half-open range of bytes. -/
structure Extent where
  offset : Nat
  size : Nat
deriving Repr, DecidableEq, Inhabited

namespace Extent

/-- The first byte behind the extent. -/
def stop (e : Extent) : Nat := e.offset + e.size

def Covers (e : Extent) (byte : Nat) : Prop :=
  e.offset ≤ byte ∧ byte < e.stop

/-- No byte lies in both extents. -/
def Disjoint (left right : Extent) : Prop :=
  ∀ byte, left.Covers byte → ¬ right.Covers byte

/-- Every byte of the extent lies in `[lo, hi)`. -/
def Within (e : Extent) (lo hi : Nat) : Prop :=
  lo ≤ e.offset ∧ e.stop ≤ hi

variable {left right : Extent}

theorem Disjoint.symm (h : left.Disjoint right) :
    right.Disjoint left :=
  fun byte hright hleft => h byte hleft hright

theorem disjoint_of_stop_le (hle : left.stop ≤ right.offset) :
    left.Disjoint right := by
  intro byte hleft hright
  exact absurd (Nat.lt_of_lt_of_le hleft.2 hle) (Nat.not_lt.mpr hright.1)

/-- For non-empty extents disjointness is an order statement. -/
theorem disjoint_iff (hleft : 0 < left.size) (hright : 0 < right.size) :
    left.Disjoint right ↔
      left.stop ≤ right.offset ∨ right.stop ≤ left.offset := by
  constructor
  · intro h
    by_contra hcross
    rw [not_or, Nat.not_le] at hcross
    apply h (max left.offset right.offset) <;>
      simp only [Covers, stop] at * <;> omega
  · rintro (h | h)
    · exact disjoint_of_stop_le h
    · exact (disjoint_of_stop_le h).symm

/-- The executable form, empty extents included. -/
theorem disjoint_iff_arith :
    left.Disjoint right ↔ left.size = 0 ∨ right.size = 0 ∨
      left.stop ≤ right.offset ∨ right.stop ≤ left.offset := by
  rcases Nat.eq_zero_or_pos left.size with hleft | hleft
  · simp only [hleft, true_or, iff_true]
    intro byte hcovers
    exact absurd hcovers (by simp only [Covers, stop]; omega)
  · rcases Nat.eq_zero_or_pos right.size with hright | hright
    · simp only [hright, true_or, or_true, iff_true]
      intro byte _
      simp only [Covers, stop]
      omega
    · rw [disjoint_iff hleft hright]
      omega

instance (left right : Extent) : Decidable (left.Disjoint right) :=
  decidable_of_iff _ disjoint_iff_arith.symm

instance (e : Extent) (lo hi : Nat) : Decidable (e.Within lo hi) :=
  inferInstanceAs (Decidable (_ ∧ _))

/-- Moving two extents by the same distance keeps them disjoint. -/
theorem Disjoint.shift (h : left.Disjoint right) (distance : Nat) :
    Disjoint ⟨distance + left.offset, left.size⟩
      ⟨distance + right.offset, right.size⟩ := by
  rw [disjoint_iff_arith] at h ⊢
  simp only [stop] at h ⊢
  omega

/-- What lies within an extent is disjoint from all the extent is. -/
theorem Disjoint.of_within {inner : Extent} (h : left.Disjoint right)
    (hwithin : inner.Within right.offset right.stop) :
    left.Disjoint inner :=
  fun byte hleft hinner => h byte hleft
    ⟨Nat.le_trans hwithin.1 hinner.1, Nat.lt_of_lt_of_le hinner.2 hwithin.2⟩

end Extent

/-- Non-empty extents in address order, the first not before `cursor`. -/
def Spaced : Nat → List Extent → Prop
  | _, [] => True
  | cursor, e :: rest => cursor ≤ e.offset ∧ 0 < e.size ∧ Spaced e.stop rest

/-- Where the last extent of the list stops; `cursor` when there is none. -/
def stopFrom : Nat → List Extent → Nat
  | cursor, [] => cursor
  | _, e :: rest => stopFrom e.stop rest

/-- The holes in front of each extent, possibly of size zero. -/
def gapsFrom : Nat → List Extent → List Extent
  | _, [] => []
  | cursor, e :: rest =>
    ⟨cursor, e.offset - cursor⟩ :: gapsFrom e.stop rest

@[simp] theorem stopFrom_append (cursor : Nat) (front back : List Extent) :
    stopFrom cursor (front ++ back) = stopFrom (stopFrom cursor front) back := by
  induction front generalizing cursor with
  | nil => rfl
  | cons e rest ih => exact ih e.stop

theorem stopFrom_eq_getLast? (cursor : Nat) (extents : List Extent) :
    stopFrom cursor extents = (extents.getLast?.map Extent.stop).getD cursor := by
  induction extents generalizing cursor with
  | nil => rfl
  | cons e rest ih =>
    rw [stopFrom, ih]
    cases rest with
    | nil => rfl
    | cons next rest => simp [getLast?_eq_some_getLast]

variable {cursor : Nat} {front back extents : List Extent} {e : Extent}

theorem spaced_append : Spaced cursor (front ++ back) ↔
      Spaced cursor front ∧ Spaced (stopFrom cursor front) back := by
  induction front generalizing cursor with
  | nil => simp [Spaced, stopFrom]
  | cons e rest ih => simp [Spaced, stopFrom, ih, and_assoc]

theorem Spaced.mono {low high : Nat} (h : Spaced high extents)
    (hle : low ≤ high) : Spaced low extents := by
  cases extents with
  | nil => trivial
  | cons e rest => exact ⟨Nat.le_trans hle h.1, h.2⟩

section

variable (h : Spaced cursor extents)
include h

theorem Spaced.le_offset (he : e ∈ extents) : cursor ≤ e.offset := by
  induction extents generalizing cursor with
  | nil => simp at he
  | cons head rest ih =>
    rcases mem_cons.mp he with rfl | hrest
    · exact h.1
    · have hlater := ih h.2.2 hrest
      have hstart := h.1
      simp only [Extent.stop] at hlater
      omega

theorem Spaced.size_pos (he : e ∈ extents) : 0 < e.size := by
  induction extents generalizing cursor with
  | nil => simp at he
  | cons head rest ih =>
    rcases mem_cons.mp he with rfl | hrest
    · exact h.2.1
    · exact ih h.2.2 hrest

/-- Each extent of a spaced list stops before the next ones start. -/
theorem Spaced.pairwise :
    extents.Pairwise fun left right => left.stop ≤ right.offset := by
  induction extents generalizing cursor with
  | nil => exact List.Pairwise.nil
  | cons e rest ih =>
    exact List.Pairwise.cons (fun _ hright => h.2.2.le_offset hright) (ih h.2.2)

theorem Spaced.pairwise_disjoint :
    extents.Pairwise Extent.Disjoint :=
  h.pairwise.imp Extent.disjoint_of_stop_le

theorem Spaced.pairwise_offset_lt :
    extents.Pairwise fun left right => left.offset < right.offset := by
  refine h.pairwise.imp_of_mem ?_
  intro left right hleft _ hle
  have hpos := h.size_pos hleft
  simp only [Extent.stop] at hle
  omega

/-- Dropping elements only widens the gaps. -/
theorem Spaced.sublist {kept : List Extent} (hsub : kept.Sublist extents) :
    Spaced cursor kept := by
  induction hsub generalizing cursor with
  | slnil => trivial
  | cons e _ ih =>
    apply (ih h.2.2).mono
    have hstart := h.1
    simp only [Extent.stop]
    omega
  | cons_cons e _ ih => exact ⟨h.1, h.2.1, ih h.2.2⟩

end

/-- A new extent may be put in front of `back` when it fits the hole there. -/
theorem Spaced.insert (h : Spaced cursor (front ++ back)) (hpos : 0 < e.size)
    (hstart : stopFrom cursor front ≤ e.offset)
    (hstop : ∀ next ∈ back.head?, e.stop ≤ next.offset) :
    Spaced cursor (front ++ e :: back) := by
  rw [spaced_append] at h ⊢
  refine ⟨h.1, hstart, hpos, ?_⟩
  cases back with
  | nil => trivial
  | cons next rest => exact ⟨hstop next rfl, h.2.2⟩

theorem gapsFrom_append (cursor : Nat) (front back : List Extent) :
    gapsFrom cursor (front ++ back) =
      gapsFrom cursor front ++ gapsFrom (stopFrom cursor front) back := by
  induction front generalizing cursor with
  | nil => rfl
  | cons e rest ih => simp [gapsFrom, stopFrom, ih]

theorem exists_mem_gap_size_le {gap : Extent}
    (hgap : gap ∈ gapsFrom cursor extents) :
    ∃ e ∈ extents, gap.size ≤ e.offset := by
  induction extents generalizing cursor with
  | nil => simp [gapsFrom] at hgap
  | cons e rest ih =>
    rcases mem_cons.mp hgap with rfl | hgap
    · exact ⟨e, mem_cons_self, Nat.sub_le _ _⟩
    · obtain ⟨found, hfound, hle⟩ := ih hgap
      exact ⟨found, mem_cons_of_mem e hfound, hle⟩

theorem dvd_stopFrom {step : Nat} (h : ∀ e ∈ extents, step ∣ e.stop) :
    step ∣ stopFrom 0 extents := by
  rw [stopFrom_eq_getLast?]
  cases hlast : extents.getLast? with
  | none => exact Nat.dvd_zero step
  | some last => exact h last (mem_of_getLast? hlast)

end OnnxRuntime
