/-
Values of a data flow.  Operations read and write names; in an order in which
nothing is read before it is written, the values of the names are determined.
-/
import Mathlib.Data.List.Induction
import Mathlib.Data.List.Nodup

namespace OnnxRuntime

open List

variable {ν V : Type} {e : ν → V}

/-- What an operation reads, what it writes at each of its slots (nothing at
one that is not used), and the values it computes. -/
structure Operation (ν V : Type) where
  reads : List ν
  writes : List (Option ν)
  meaning : List V → Nat → V

namespace Operation

/-- The names have the values that the operation computes. -/
def Holds (op : Operation ν V) (e : ν → V) : Prop :=
  ∀ (slot : Nat) name, op.writes[slot]? = some (some name) →
    e name = op.meaning (op.reads.map e) slot

theorem Holds.congr {op : Operation ν V} {e' : ν → V} (h : op.Holds e)
    (hreads : ∀ name ∈ op.reads, e' name = e name)
    (hwrites : ∀ name, some name ∈ op.writes → e' name = e name) :
    op.Holds e' := by
  intro slot name hslot
  rw [hwrites name (mem_of_getElem? hslot), h slot name hslot,
    map_congr_left hreads]

/-- Nothing is written twice, or read before it is written. -/
structure Ordered (ops : List (Operation ν V)) : Prop where
  later : ops.Pairwise fun earlier later => ∀ name, some name ∈ later.writes →
    name ∉ earlier.reads ∧ some name ∉ earlier.writes
  once : ∀ op ∈ ops, ∀ (slot slot' : Nat) name,
    op.writes[slot]? = some (some name) →
    op.writes[slot']? = some (some name) → slot = slot'
  apart : ∀ op ∈ ops, ∀ name ∈ op.reads, some name ∉ op.writes

variable {ops : List (Operation ν V)} {op : Operation ν V}

theorem Ordered.of_snoc (h : Ordered (ops ++ [op])) : Ordered ops where
  later := (pairwise_append.mp h.later).1
  once other hother := h.once other (mem_append_left _ hother)
  apart other hother := h.apart other (mem_append_left _ hother)

theorem Ordered.last (h : Ordered (ops ++ [op])) {other : Operation ν V}
    (hother : other ∈ ops) {name : ν} (hname : some name ∈ op.writes) :
    name ∉ other.reads ∧ some name ∉ other.writes :=
  (pairwise_append.mp h.later).2.2 other hother op
    (mem_singleton_self op) name hname

/-- The value of a name after the operation. -/
def update [DecidableEq ν] (op : Operation ν V) (e : ν → V) (name : ν) : V :=
  if some name ∈ op.writes then
    op.meaning (op.reads.map e) (op.writes.idxOf (some name))
  else e name

theorem holds_update [DecidableEq ν] (h : Ordered [op]) (e : ν → V) :
    op.Holds (op.update e) := by
  have hself := mem_singleton_self op
  intro slot name hslot
  have hmem : some name ∈ op.writes := mem_of_getElem? hslot
  have hidx : op.writes.idxOf (some name) = slot := by
    refine h.once op hself _ slot name ?_ hslot
    rw [getElem?_eq_getElem (idxOf_lt_length_of_mem hmem), getElem_idxOf]
  have hreads : op.reads.map (op.update e) = op.reads.map e := by
    apply map_congr_left
    intro other hother
    exact if_neg (h.apart op hself other hother)
  rw [hreads, update, if_pos hmem, hidx]

/-- The values can be computed, from any values of the other names; what every
operation keeps holds of all of them. -/
theorem exists_valuation [DecidableEq ν] {P : ν → V → Prop}
    (h : Ordered ops) (hops : ∀ op ∈ ops, ∀ e : ν → V,
      (∀ name, P name (e name)) → ∀ (slot : Nat) name,
      op.writes[slot]? = some (some name) →
        P name (op.meaning (op.reads.map e) slot))
    (he : ∀ name, P name (e name)) :
    ∃ e', (∀ op ∈ ops, op.Holds e') ∧ (∀ name, P name (e' name)) ∧
      ∀ name, (∀ op ∈ ops, some name ∉ op.writes) → e' name = e name := by
  induction ops using reverseRecOn with
  | nil => exact ⟨e, nofun, he, fun _ _ => rfl⟩
  | append_singleton ops op ih =>
    rw [forall_mem_append, forall_mem_singleton] at hops
    obtain ⟨e', hholds, hkeeps, hsame⟩ := ih h.of_snoc hops.1
    have hlast : Ordered [op] := by
      refine ⟨pairwise_singleton _ _, fun other hother => ?_,
        fun other hother => ?_⟩
      · exact h.once other (mem_append_right _ hother)
      · exact h.apart other (mem_append_right _ hother)
    refine ⟨op.update e', ?_, ?_, ?_⟩
    · intro other hother
      rcases mem_append.mp hother with hearlier | hself
      · refine (hholds other hearlier).congr ?_ ?_
        · intro name hname
          exact if_neg fun hwrites =>
            (h.last hearlier hwrites).1 hname
        · intro name hname
          exact if_neg fun hwrites =>
            (h.last hearlier hwrites).2 hname
      · rw [mem_singleton.mp hself]
        exact holds_update hlast e'
    · intro name
      rw [update]
      split
      · rename_i hmem
        refine hops.2 e' hkeeps _ name ?_
        rw [getElem?_eq_getElem (idxOf_lt_length_of_mem hmem), getElem_idxOf]
      · exact hkeeps name
    · intro name hname
      rw [forall_mem_append, forall_mem_singleton] at hname
      rw [update, if_neg hname.2, hsame name hname.1]

/-- The values are determined by those of the names that nothing writes. -/
theorem valuation_unique (h : Ordered ops) {e' : ν → V}
    (he : ∀ op ∈ ops, op.Holds e) (he' : ∀ op ∈ ops, op.Holds e')
    (hsame : ∀ name, (∀ op ∈ ops, some name ∉ op.writes) →
      e' name = e name) : e' = e := by
  -- Along the order: what an operation reads is known before it is reached.
  have hwritten : ∀ front back, ops = front ++ back →
      ∀ name, (∀ op ∈ back, some name ∉ op.writes) → e' name = e name := by
    intro front
    induction front using reverseRecOn with
    | nil =>
      intro back hops name hname
      exact hsame name fun op hop => hname op (by simpa [hops] using hop)
    | append_singleton front op ih =>
      intro back hops name hname
      rw [append_assoc, singleton_append] at hops
      have hop : op ∈ ops := by simp [hops]
      by_cases hwrites : some name ∈ op.writes
      · obtain ⟨slot, hslot⟩ := getElem?_of_mem hwrites
        have hreads : op.reads.map e' = op.reads.map e := by
          apply map_congr_left
          intro read hread
          refine ih (op :: back) hops read fun other hother => ?_
          rcases mem_cons.mp hother with rfl | hlater
          · exact h.apart other hop read hread
          · have hpairs := h.later
            rw [hops, pairwise_append, pairwise_cons] at hpairs
            intro hwritten
            exact (hpairs.2.1.1 other hlater read hwritten).1 hread
        rw [he' op hop slot name hslot, he op hop slot name hslot, hreads]
      · refine ih (op :: back) hops name fun other hother => ?_
        rcases mem_cons.mp hother with rfl | hlater
        · exact hwrites
        · exact hname other hlater
  funext name
  exact hwritten ops [] (append_nil _).symm name nofun

end Operation

end OnnxRuntime
