/-
The deallocation plan.  The items of the free list, oldest first, are grouped
by the step after which they became free; each step gets its group, except that
what became free after the first step is never freed.
-/
import OnnxRuntime.AllocationPlanner

namespace OnnxRuntime

open List NodeExecutionPlan DeallocationScan

variable {executionPlan : List NodeExecutionPlan}

/-- A list whose elements with a property all come first. -/
theorem eq_filter_append_filter_not {α : Type} (p : α → Bool) {items : List α}
    (h : items.Pairwise fun left right => p right = true → p left = true) :
    items = items.filter p ++ items.filter fun item => !p item := by
  induction items with
  | nil => rfl
  | cons item rest ih =>
    obtain ⟨hitem, hrest⟩ := pairwise_cons.mp h
    have hsplit := ih hrest
    by_cases hp : p item = true
    · simp only [filter_cons, hp, if_true, Bool.not_true,
        Bool.false_eq_true, if_false, cons_append]
      rw [← hsplit]
    · have hnone : rest.filter p = [] := by
        rw [filter_eq_nil_iff]
        exact fun other hother hpother => hp (hitem other hother hpother)
      rw [hnone, nil_append] at hsplit
      simp only [filter_cons, hp, hnone, Bool.not_false,
        Bool.false_eq_true, if_false, if_true, nil_append]
      rw [← hsplit]

/-- Items in the order in which they became free. -/
def Chronological (items : List FreeBufferInfo) : Prop :=
  items.Pairwise fun left right =>
    left.deallocatePoint ≤ right.deallocatePoint

/-- The group of one point is a segment. -/
theorem Chronological.segment {items : List FreeBufferInfo}
    (h : Chronological items) (point : Nat) :
    (items.drop (items.countP fun item => item.deallocatePoint < point)).take
        (items.countP fun item => item.deallocatePoint = point) =
      items.filter fun item => item.deallocatePoint = point := by
  have hbefore := eq_filter_append_filter_not
    (fun item : FreeBufferInfo => decide (item.deallocatePoint < point))
    (h.imp fun {left right} hle hlt => by
      simp only [decide_eq_true_eq] at hlt ⊢
      omega)
  have hdrop : items.drop
      (items.countP fun item => item.deallocatePoint < point) =
      items.filter fun item => !decide (item.deallocatePoint < point) := by
    conv_lhs => rw [hbefore]
    rw [countP_eq_length_filter, drop_left' (by simp)]
  have hrest : (items.filter fun item =>
      !decide (item.deallocatePoint < point)).Pairwise fun left right =>
        decide (right.deallocatePoint = point) = true →
          decide (left.deallocatePoint = point) = true := by
    apply (h.filter _).imp_of_mem
    intro left right hleft _ hle heq
    have hge := (mem_filter.mp hleft).2
    simp only [Bool.not_eq_true', decide_eq_false_iff_not,
      decide_eq_true_eq] at hge heq ⊢
    omega
  have hgroup : (items.filter fun item =>
      !decide (item.deallocatePoint < point)).filter
        (fun item => decide (item.deallocatePoint = point)) =
      items.filter fun item => item.deallocatePoint = point := by
    rw [List.filter_filter]
    apply List.filter_congr
    intro item _
    by_cases heq : item.deallocatePoint = point <;> simp [heq]
  rw [hdrop, eq_filter_append_filter_not _ hrest, hgroup,
    countP_eq_length_filter, take_left' rfl]

namespace DeallocationScan

/-- The range of a step once `items` have been visited. -/
def Covers (items : List FreeBufferInfo) (point : Nat)
    (step : NodeExecutionPlan) : Prop :=
  if point = 0 ∨ (items.countP fun item => item.deallocatePoint = point) = 0
  then step.freeFromIndex = 1 ∧ step.freeToIndex = 0
  else
    step.freeFromIndex =
      (items.countP fun item => item.deallocatePoint < point) ∧
    step.freeToIndex + 1 =
      (items.countP fun item => item.deallocatePoint < point) +
        items.countP fun item => item.deallocatePoint = point

/-- The state of the loop after the items visited so far. -/
structure Visited (items : List FreeBufferInfo)
    (scan : DeallocationScan) : Prop where
  toBeFreed_eq : scan.toBeFreed = items.map FreeBufferInfo.mlValue
  current_eq : scan.current = items.length
  point_le : ∀ item ∈ items, item.deallocatePoint ≤ scan.prevDeallocPoint
  prev_pos : scan.hasPrevDeallocPoint = true ↔ 0 < scan.prevDeallocPoint
  prev_mem : 0 < scan.prevDeallocPoint →
    ∃ item ∈ items, item.deallocatePoint = scan.prevDeallocPoint
  covers : ∀ point step, scan.close[point]? = some step →
    Covers items point step

variable {items : List FreeBufferInfo} {item : FreeBufferInfo}
  {step : NodeExecutionPlan} {scan : DeallocationScan}

theorem Covers.snoc_of_ne {point : Nat} (h : Covers items point step)
    (hlast : ∀ other ∈ items, other.deallocatePoint ≤ item.deallocatePoint)
    (hne : point ≠ item.deallocatePoint) :
    Covers (items ++ [item]) point step := by
  have hcount : ((items ++ [item]).countP fun other =>
      other.deallocatePoint = point) =
      items.countP fun other => other.deallocatePoint = point := by
    simp [Ne.symm hne]
  rw [Covers, hcount]
  rw [Covers] at h
  split
  · rename_i hempty
    rwa [if_pos hempty] at h
  · rename_i hsome
    rw [if_neg hsome] at h
    obtain ⟨other, hother, heq⟩ := countP_pos_iff.mp
      (Nat.pos_of_ne_zero fun hzero => hsome (.inr hzero))
    have hle := hlast other hother
    rw [decide_eq_true_eq] at heq
    have hlt : ¬ item.deallocatePoint < point := by omega
    simpa [hlt] using h

theorem covers_snoc_self
    (hlast : ∀ other ∈ items, other.deallocatePoint ≤ item.deallocatePoint)
    (hpos : 0 < item.deallocatePoint)
    (hfrom : step.freeFromIndex =
      items.countP fun other => other.deallocatePoint < item.deallocatePoint)
    (hto : step.freeToIndex = items.length) :
    Covers (items ++ [item]) item.deallocatePoint step := by
  have hall : items.length =
      (items.countP fun other =>
        other.deallocatePoint < item.deallocatePoint) +
      items.countP fun other =>
        other.deallocatePoint = item.deallocatePoint := by
    rw [length_eq_countP_add_countP fun other : FreeBufferInfo =>
      decide (other.deallocatePoint < item.deallocatePoint)]
    congr 1
    apply countP_congr
    intro other hother
    have hle := hlast other hother
    simp only [decide_eq_true_eq]
    omega
  rw [Covers, if_neg (by simp [countP_append]; omega)]
  simp only [countP_append, countP_singleton, Nat.lt_irrefl,
    decide_false, decide_true, if_true, Bool.false_eq_true, if_false]
  omega

/-- A new point opens a group: the old one is closed first. -/
theorem Visited.visit_of_ne (h : Visited items scan)
    (hlast : ∀ other ∈ items, other.deallocatePoint ≤ item.deallocatePoint)
    (hnew : scan.prevDeallocPoint < item.deallocatePoint) :
    Visited (items ++ [item]) (scan.visit item) := by
  have hvisit : scan.visit item =
      { executionPlan := scan.close.modify item.deallocatePoint fun step =>
          { step with freeFromIndex := scan.current }
        toBeFreed := scan.toBeFreed ++ [item.mlValue]
        hasPrevDeallocPoint := true
        prevDeallocPoint := item.deallocatePoint
        current := scan.current + 1 } := by
    rw [visit, if_pos (Nat.ne_of_gt hnew)]
  rw [hvisit]
  constructor
  · simp [h.toBeFreed_eq]
  · simp [h.current_eq]
  · intro other hother
    rcases mem_append.mp hother with hother | hother
    · exact hlast other hother
    · rw [mem_singleton.mp hother]
  · simp only [true_iff]
    omega
  · exact fun _ => ⟨item, by simp, rfl⟩
  · intro point step hstep
    simp only [close, if_true, List.getElem?_modify, Option.map_eq_map,
      Option.map_eq_some_iff] at hstep
    obtain ⟨opened, ⟨old, hold, rfl⟩, rfl⟩ := hstep
    by_cases heq : item.deallocatePoint = point
    · subst heq
      simp only [if_true]
      apply covers_snoc_self hlast (by omega)
      · rw [h.current_eq, eq_comm, countP_eq_length]
        intro other hother
        have hle := h.point_le other hother
        simp only [decide_eq_true_eq]
        omega
      · rw [h.current_eq, Nat.add_sub_cancel]
    · simp only [heq]
      exact (h.covers point old hold).snoc_of_ne hlast (Ne.symm heq)

/-- An item of the current group makes it longer. -/
theorem Visited.visit_of_eq (h : Visited items scan)
    (hsame : item.deallocatePoint = scan.prevDeallocPoint) :
    Visited (items ++ [item]) (scan.visit item) := by
  have hlast : ∀ other ∈ items,
      other.deallocatePoint ≤ item.deallocatePoint := by
    rw [hsame]
    exact h.point_le
  have hvisit : scan.visit item =
      { scan with
        toBeFreed := scan.toBeFreed ++ [item.mlValue]
        current := scan.current + 1 } := by
    rw [visit, if_neg (not_not_intro hsame)]
  rw [hvisit]
  constructor
  · simp [h.toBeFreed_eq]
  · simp [h.current_eq]
  · intro other hother
    rcases mem_append.mp hother with hother | hother
    · exact h.point_le other hother
    · rw [mem_singleton.mp hother, hsame]
  · exact h.prev_pos
  · intro hpos
    obtain ⟨other, hother, heq⟩ := h.prev_mem hpos
    exact ⟨other, mem_append_left _ hother, heq⟩
  · intro point step hstep
    by_cases hhas : scan.hasPrevDeallocPoint = true
    · have hpos := h.prev_pos.mp hhas
      simp only [close, hhas, if_true, List.getElem?_modify,
        Option.map_eq_map, Option.map_eq_some_iff] at hstep
      obtain ⟨old, hold, rfl⟩ := hstep
      by_cases heq : scan.prevDeallocPoint = point
      · -- The step before this item was closed at the previous end.
        have hclosed := h.covers point { old with
          freeToIndex := scan.current - 1 } (by
            simp [close, hhas, hold, heq])
        obtain ⟨other, hother, hpoint⟩ := h.prev_mem hpos
        have hcount : (items.countP fun other =>
            other.deallocatePoint = point) ≠ 0 := by
          apply Nat.pos_iff_ne_zero.mp
          rw [countP_pos_iff]
          exact ⟨other, hother, by simp [hpoint, heq]⟩
        rw [Covers, if_neg (by omega)] at hclosed
        rw [← heq, ← hsame] at hclosed ⊢
        simp only [hsame, if_true]
        rw [← hsame]
        apply covers_snoc_self hlast (by omega)
        · exact hclosed.1
        · rw [h.current_eq, Nat.add_sub_cancel]
      · have hclosed := h.covers point old (by
          simp [close, hhas, hold, heq])
        simp only [heq]
        exact hclosed.snoc_of_ne hlast (by rw [hsame]; exact Ne.symm heq)
    · have hzero : item.deallocatePoint = 0 := by
        have := mt h.prev_pos.mpr hhas
        omega
      have hclosed := h.covers point step (by
        simpa [close, hhas] using hstep)
      by_cases heq : point = 0
      · subst heq
        simpa [Covers] using hclosed
      · exact hclosed.snoc_of_ne hlast (by rw [hzero]; exact heq)

theorem visited_foldl (hsorted : Chronological items)
    (hunset : ∀ step ∈ executionPlan,
      step.freeFromIndex = 1 ∧ step.freeToIndex = 0) :
    Visited items (items.foldl visit { executionPlan := executionPlan }) := by
  induction items using reverseRecOn with
  | nil =>
    refine ⟨rfl, rfl, by simp, by simp, by simp, ?_⟩
    intro point step hstep
    simp only [Covers, countP_nil, or_true]
    exact hunset step (mem_of_getElem? hstep)
  | append_singleton items item ih =>
    obtain ⟨hitems, _, hlast⟩ := pairwise_append.mp hsorted
    have hvisited := ih hitems
    rw [foldl_concat]
    rcases Nat.lt_trichotomy (items.foldl visit
        { executionPlan := executionPlan }).prevDeallocPoint
        item.deallocatePoint with hlt | heq | hgt
    · exact hvisited.visit_of_ne
        (fun other hother => hlast other hother item (by simp)) hlt
    · exact hvisited.visit_of_eq heq.symm
    · obtain ⟨other, hother, hpoint⟩ := hvisited.prev_mem (by omega)
      have hle := hlast other hother item (by simp)
      omega

end DeallocationScan

/-- After a step exactly the buffers that became free by it are freed, but
none after the first step. -/
theorem generateDeallocationPlan_frees {freelist : List FreeBufferInfo}
    (hsorted : Chronological freelist.reverse)
    (hunset : ∀ step ∈ executionPlan,
      step.freeFromIndex = 1 ∧ step.freeToIndex = 0)
    {point : Nat} {step : NodeExecutionPlan}
    (hstep : (generateDeallocationPlan freelist executionPlan).1[point]? =
      some step) :
    step.frees (generateDeallocationPlan freelist executionPlan).2 =
      if point = 0 then []
      else (freelist.reverse.filter fun item =>
        item.deallocatePoint = point).map FreeBufferInfo.mlValue := by
  have hvisited := visited_foldl hsorted hunset
  have hcovers := hvisited.covers point step hstep
  rw [generateDeallocationPlan, hvisited.toBeFreed_eq, frees]
  rw [Covers] at hcovers
  split at hcovers
  · rename_i hempty
    rw [hcovers.1, hcovers.2, take_zero]
    rcases hempty with hzero | hnone
    · rw [if_pos hzero]
    · rw [countP_eq_length_filter, length_eq_zero_iff] at hnone
      rw [hnone]
      simp
  · rename_i hsome
    rw [if_neg fun hzero => hsome (.inl hzero), hcovers.1, hcovers.2,
      Nat.add_sub_cancel_left, ← map_drop, ← map_take,
      hsorted.segment]

theorem map_nodeIndex_modify {change : NodeExecutionPlan → NodeExecutionPlan}
    (hchange : ∀ step, (change step).nodeIndex = step.nodeIndex)
    (steps : List NodeExecutionPlan) (point : Nat) :
    (steps.modify point change).map nodeIndex = steps.map nodeIndex := by
  apply ext_getElem?
  intro i
  rw [getElem?_map, List.getElem?_modify, getElem?_map]
  cases steps[i]? with
  | none => rfl
  | some step => split <;> simp [hchange]

/-- The steps stay in their order. -/
theorem generateDeallocationPlan_nodeIndex (freelist : List FreeBufferInfo)
    (executionPlan : List NodeExecutionPlan) :
    (generateDeallocationPlan freelist executionPlan).1.map nodeIndex =
      executionPlan.map nodeIndex := by
  have hclose : ∀ scan : DeallocationScan, scan.close.map nodeIndex =
        scan.executionPlan.map nodeIndex := by
    intro scan
    rw [close]
    split
    · exact map_nodeIndex_modify (by simp) _ _
    · rfl
  have hfold : ∀ (items : List FreeBufferInfo) (scan : DeallocationScan),
      (items.foldl visit scan).executionPlan.map nodeIndex =
        scan.executionPlan.map nodeIndex := by
    intro items
    induction items with
    | nil => exact fun _ => rfl
    | cons item rest ih =>
      intro scan
      rw [foldl_cons, ih, visit]
      split
      · rw [map_nodeIndex_modify (by simp), hclose]
      · rfl
  exact (hclose _).trans (hfold _ _)

end OnnxRuntime
