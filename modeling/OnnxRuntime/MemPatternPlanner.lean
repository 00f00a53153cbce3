/-
The memory-pattern planner: allocations and frees of one traced run are packed
into a single buffer by best fit.  Offsets are `size_t`, so the packing is
sound exactly as long as the end of the buffer does not wrap.
-/
import OnnxRuntime.Extents
import OnnxRuntime.MachineInt
import Mathlib.Data.List.Perm.Basic
import Mathlib.Data.List.Infix
import Mathlib.Data.List.Nodup

namespace OnnxRuntime

open List

variable {block : MemoryBlock}

/-- Values of one graph are numbered by `MLValueNameIdxMap`. -/
abbrev MLValueIndex := Nat

/-- A block of the planned buffer. -/
abbrev MemoryBlock := Extent

structure MLValueAllocationBlock where
  index : MLValueIndex
  block : MemoryBlock
deriving Repr, DecidableEq, Inhabited

/-- `allocs` keeps every block ever handed out; `blocks` links the positions
of the live ones in order of their offset. -/
structure MemPatternPlanner where
  allocs : List MLValueAllocationBlock := []
  blocks : List Nat := []
  bufferSize : Nat := 0
deriving Repr, DecidableEq

/-- The variables of the loop over `blocks_`.  The iterator `best_fit_it` is a
position in the list, its end the length. -/
structure GapScan where
  current : Nat
  wasteBytes : Nat
  bestOffset : Nat
  bestFitIt : Nat
deriving Repr, DecidableEq

def GapScan.visit (size it : Nat) (block : MemoryBlock) (scan : GapScan) :
    GapScan :=
  let best :=
    if scan.current ≤ block.offset ∧ size ≤ block.offset - scan.current ∧
        block.offset - scan.current - size < scan.wasteBytes then
      { scan with
        bestFitIt := it
        wasteBytes := block.offset - scan.current - size
        bestOffset := scan.current }
    else scan
  { best with current := sizeAdd block.offset block.size }

def scanGaps (size : Nat) : Nat → List MemoryBlock → GapScan → GapScan
  | _, [], scan => scan
  | it, block :: rest, scan =>
    scanGaps size (it + 1) rest (scan.visit size it block)

namespace MemPatternPlanner

/-- `allocs_[position]`. -/
def allocAt (planner : MemPatternPlanner) (position : Nat) :
    MLValueAllocationBlock :=
  planner.allocs.getD position default

/-- The entries `blocks_` links, in list order. -/
def linkedAllocs (planner : MemPatternPlanner) : List MLValueAllocationBlock :=
  planner.blocks.map planner.allocAt

def linkedBlocks (planner : MemPatternPlanner) : List MemoryBlock :=
  planner.linkedAllocs.map MLValueAllocationBlock.block

/-- The offset a block gets when no gap is taken. -/
def endOffset (planner : MemPatternPlanner) : Nat :=
  match planner.linkedBlocks.getLast? with
  | none => 0
  | some last => sizeAdd last.offset last.size

def bestFit (planner : MemPatternPlanner) (size : Nat) : GapScan :=
  scanGaps size 0 planner.linkedBlocks
    ⟨0, sizeMax, planner.endOffset, planner.blocks.length⟩

def traceAllocation (planner : MemPatternPlanner) (mlValueIdx : MLValueIndex)
    (size : Nat) : MemPatternPlanner :=
  if size = 0 then
    { planner with allocs := planner.allocs ++ [⟨mlValueIdx, ⟨0, 0⟩⟩] }
  else
    let scan := planner.bestFit size
    { allocs := planner.allocs ++ [⟨mlValueIdx, ⟨scan.bestOffset, size⟩⟩]
      bufferSize := max planner.bufferSize (sizeAdd scan.bestOffset size)
      blocks := planner.blocks.insertIdx scan.bestFitIt planner.allocs.length }

/-- Unlink the first block of the value; its entry in `allocs` stays. -/
def traceFree (planner : MemPatternPlanner) (mlValueIndex : MLValueIndex) :
    MemPatternPlanner :=
  { planner with
    blocks := planner.blocks.eraseP fun position =>
      (planner.allocAt position).index == mlValueIndex }

end MemPatternPlanner

/-- The block of each value, and the size of the buffer that holds them. -/
structure MemoryPattern where
  patterns : MLValueIndex → Option MemoryBlock
  peakSize : Nat

def MemoryPattern.getBlock (pattern : MemoryPattern)
    (mlValueIdx : MLValueIndex) : Option MemoryBlock :=
  pattern.patterns mlValueIdx

/-- `pattern.patterns_[alloc.index_] = alloc.block_`. -/
def recordBlock (patterns : MLValueIndex → Option MemoryBlock)
    (alloc : MLValueAllocationBlock) : MLValueIndex → Option MemoryBlock :=
  Function.update patterns alloc.index (some alloc.block)

def MemPatternPlanner.generateMemPattern (planner : MemPatternPlanner) :
    MemoryPattern where
  peakSize := planner.bufferSize
  patterns := planner.allocs.foldl recordBlock fun _ => none

/-- How a scan that starts with `scan` in front of `blocks` may end: no gap
wastes less than `result`, and `result` is the start or one of the gaps. -/
structure GapChoice (size it : Nat) (blocks : List MemoryBlock)
    (scan result : GapScan) : Prop where
  waste_le : result.wasteBytes ≤ scan.wasteBytes
  least : ∀ gap ∈ gapsFrom scan.current blocks, size ≤ gap.size →
    result.wasteBytes ≤ gap.size - size
  chosen :
    (result.bestOffset = scan.bestOffset ∧ result.bestFitIt = scan.bestFitIt ∧
      result.wasteBytes = scan.wasteBytes) ∨
    ∃ front block back, blocks = front ++ block :: back ∧
      result.bestFitIt = it + front.length ∧
      result.bestOffset = stopFrom scan.current front ∧
      result.bestOffset + size + result.wasteBytes = block.offset

/-- One visit decides the gap in front of the visited block. -/
theorem GapScan.visit_choice (size it : Nat) (block : MemoryBlock)
    (scan : GapScan) (hle : scan.current ≤ block.offset) :
    GapChoice size it [block] scan (scan.visit size it block) := by
  by_cases htake : scan.current ≤ block.offset ∧
      size ≤ block.offset - scan.current ∧
      block.offset - scan.current - size < scan.wasteBytes
  · have hvisit : scan.visit size it block =
        ⟨sizeAdd block.offset block.size,
          block.offset - scan.current - size, scan.current, it⟩ := by
      simp [GapScan.visit, htake]
    rw [hvisit]
    refine ⟨le_of_lt htake.2.2, ?_, .inr ?_⟩
    · intro gap hgap _
      rw [mem_singleton.mp hgap]
    · refine ⟨[], block, [], rfl, rfl, rfl, ?_⟩
      simp only
      omega
  · have hvisit : scan.visit size it block =
        { scan with current := sizeAdd block.offset block.size } := by
      simp [GapScan.visit, htake]
    rw [hvisit]
    refine ⟨le_refl _, ?_, .inl ⟨rfl, rfl, rfl⟩⟩
    intro gap hgap hfits
    simp only [gapsFrom, mem_singleton] at hgap
    subst hgap
    by_contra hless
    exact htake ⟨hle, hfits, Nat.lt_of_not_le hless⟩

/-- Choices compose along the list. -/
theorem GapChoice.cons {size it : Nat}
    {rest : List MemoryBlock} {scan mid result : GapScan}
    (hfirst : GapChoice size it [block] scan mid)
    (hcurrent : mid.current = block.stop)
    (hrest : GapChoice size (it + 1) rest mid result) :
    GapChoice size it (block :: rest) scan result := by
  refine ⟨le_trans hrest.waste_le hfirst.waste_le, ?_, ?_⟩
  · intro gap hgap hfits
    rcases mem_cons.mp hgap with rfl | hgap
    · exact le_trans hrest.waste_le (hfirst.least _ mem_cons_self hfits)
    · exact hrest.least gap (by rwa [hcurrent]) hfits
  · rcases hrest.chosen with ⟨hoffset, hit, hwaste⟩ |
      ⟨front, found, back, hsplit, hit, hoffset, hsum⟩
    · rcases hfirst.chosen with ⟨hoffset', hit', hwaste'⟩ |
        ⟨front, found, back, hsplit, hit', hoffset', hsum⟩
      · exact .inl ⟨hoffset.trans hoffset', hit.trans hit',
          hwaste.trans hwaste'⟩
      · have hfront : front = [] ∧ block = found ∧ back = [] := by
          cases front with
          | nil => simpa using hsplit
          | cons head tail => simp at hsplit
        obtain ⟨rfl, rfl, rfl⟩ := hfront
        exact .inr ⟨[], block, rest, rfl, hit.trans hit',
          hoffset.trans hoffset', by rw [hoffset, hwaste]; exact hsum⟩
    · refine .inr ⟨block :: front, found, back, by rw [hsplit]; rfl, ?_, ?_,
        hsum⟩
      · rw [length_cons]
        omega
      · rw [hoffset, hcurrent]
        rfl

theorem scanGaps_choice (size it : Nat) (blocks : List MemoryBlock)
    (scan : GapScan) (hspaced : Spaced scan.current blocks)
    (hstop : ∀ block ∈ blocks, block.stop < sizeBound) :
    GapChoice size it blocks scan (scanGaps size it blocks scan) := by
  induction blocks generalizing it scan with
  | nil => exact ⟨le_refl _, by simp [gapsFrom], .inl ⟨rfl, rfl, rfl⟩⟩
  | cons block rest ih =>
    have hcurrent : (scan.visit size it block).current = block.stop :=
      sizeAdd_eq (hstop block mem_cons_self)
    refine GapChoice.cons (scan.visit_choice size it block hspaced.1)
      hcurrent ?_
    apply ih (it + 1) (scan.visit size it block)
    · rw [hcurrent]
      exact hspaced.2.2
    · exact fun other hother => hstop other (mem_cons_of_mem block hother)

namespace MemPatternPlanner

/-- The gaps between the linked blocks. -/
def gaps (planner : MemPatternPlanner) : List Extent :=
  gapsFrom 0 planner.linkedBlocks

/-- A request can be placed without wrapping: it fits a gap, or the buffer can
grow by it behind the last linked block. -/
def Fits (planner : MemPatternPlanner) (size : Nat) : Prop :=
  (∃ gap ∈ planner.gaps, size ≤ gap.size) ∨
    stopFrom 0 planner.linkedBlocks + size < sizeBound

instance (planner : MemPatternPlanner) (size : Nat) :
    Decidable (planner.Fits size) :=
  inferInstanceAs (Decidable (_ ∨ _))

/-- The shape of the planner that best fit relies on and keeps. -/
structure WellPlaced (planner : MemPatternPlanner) : Prop where
  linked_lt : ∀ position ∈ planner.blocks, position < planner.allocs.length
  spaced : Spaced 0 planner.linkedBlocks
  stop_le : ∀ alloc ∈ planner.allocs, alloc.block.stop ≤ planner.bufferSize
  bufferSize_lt : planner.bufferSize < sizeBound

variable {planner : MemPatternPlanner} {size : Nat}

theorem allocAt_mem {position : Nat} (hlt : position < planner.allocs.length) :
    planner.allocAt position ∈ planner.allocs := by
  simp [allocAt, hlt]

section

variable (h : planner.WellPlaced)
include h

theorem WellPlaced.linked_stop_lt
    (hblock : block ∈ planner.linkedBlocks) :
    block.stop < sizeBound := by
  obtain ⟨alloc, halloc, rfl⟩ := mem_map.mp hblock
  obtain ⟨position, hposition, rfl⟩ := mem_map.mp halloc
  exact lt_of_le_of_lt
    (h.stop_le _ (allocAt_mem (h.linked_lt position hposition)))
    h.bufferSize_lt

theorem WellPlaced.endOffset_eq :
    planner.endOffset = stopFrom 0 planner.linkedBlocks := by
  rw [endOffset, stopFrom_eq_getLast?]
  cases hlast : planner.linkedBlocks.getLast? with
  | none => rfl
  | some last =>
    exact sizeAdd_eq (h.linked_stop_lt (mem_of_getLast? hlast))

theorem WellPlaced.bestFit_choice (size : Nat) :
    GapChoice size 0 planner.linkedBlocks
      ⟨0, sizeMax, planner.endOffset, planner.blocks.length⟩
      (planner.bestFit size) :=
  scanGaps_choice size 0 planner.linkedBlocks _ h.spaced
    fun _ hblock => h.linked_stop_lt hblock

theorem WellPlaced.gap_size_lt {gap : Extent} (hgap : gap ∈ planner.gaps) :
    gap.size < sizeBound := by
  obtain ⟨block, hblock, hle⟩ := exists_mem_gap_size_le hgap
  have hstop := h.linked_stop_lt hblock
  simp only [Extent.stop] at hstop
  omega

/-- Where a request is linked: in front of `back`, at the stop of `front`. -/
structure Placement (planner : MemPatternPlanner) (size : Nat)
    (front back : List MemoryBlock) : Prop where
  split : planner.linkedBlocks = front ++ back
  position : (planner.bestFit size).bestFitIt = front.length
  offset : (planner.bestFit size).bestOffset = stopFrom 0 front
  room : ∀ next ∈ back.head?, stopFrom 0 front + size ≤ next.offset

theorem WellPlaced.exists_placement (size : Nat) :
    ∃ front back, planner.Placement size front back := by
  rcases (h.bestFit_choice size).chosen with ⟨hoffset, hit, _⟩ |
    ⟨front, block, back, hsplit, hit, hoffset, hsum⟩
  · refine ⟨planner.linkedBlocks, [], by simp, ?_, ?_, by simp⟩
    · simpa [linkedBlocks, linkedAllocs] using hit
    · simpa [h.endOffset_eq] using hoffset
  · refine ⟨front, block :: back, hsplit, by simpa using hit, hoffset, ?_⟩
    intro next hnext
    simp only [head?_cons, Option.mem_def, Option.some.injEq] at hnext
    subst hnext
    rw [← hoffset]
    omega

/-- The request stays below the limit exactly when it can be placed without
wrapping. -/
theorem WellPlaced.fits_iff (hpos : 0 < size) : planner.Fits size ↔
      (planner.bestFit size).bestOffset + size < sizeBound := by
  have hchoice := h.bestFit_choice size
  rcases hchoice.chosen with ⟨hoffset, _, hwaste⟩ |
    ⟨front, block, back, hsplit, _, hoffset, hsum⟩
  · -- No gap was taken, so none fits: a fitting gap wastes less than the
    -- initial `waste_bytes`.
    have hnone : ¬ ∃ gap ∈ planner.gaps, size ≤ gap.size := by
      rintro ⟨gap, hgap, hfits⟩
      have hle := hchoice.least gap hgap hfits
      have hlt := h.gap_size_lt hgap
      rw [hwaste] at hle
      simp only [sizeMax] at hle hlt
      omega
    rw [hoffset, h.endOffset_eq, Fits]
    simp [hnone]
  · have hblock : block ∈ planner.linkedBlocks := by simp [hsplit]
    have hstop := h.linked_stop_lt hblock
    simp only [Extent.stop] at hstop
    refine ⟨fun _ => by omega, fun _ => .inl ?_⟩
    refine ⟨⟨stopFrom 0 front, block.offset - stopFrom 0 front⟩, ?_, ?_⟩
    · simp [gaps, hsplit, gapsFrom_append, gapsFrom]
    · simp only at hoffset ⊢
      omega

/-- Appending an entry leaves the linked entries alone. -/
theorem WellPlaced.allocAt_append (alloc : MLValueAllocationBlock)
    (blocks : List Nat) (bufferSize : Nat) :
    planner.blocks.map
        (allocAt ⟨planner.allocs ++ [alloc], blocks, bufferSize⟩) =
      planner.linkedAllocs := by
  apply map_congr_left
  intro position hposition
  simp [allocAt, getElem?_append_left (h.linked_lt position hposition)]

end

/-- The entry a call of `TraceAllocation` records. -/
def newAlloc (planner : MemPatternPlanner) (mlValueIdx : MLValueIndex)
    (size : Nat) : MLValueAllocationBlock :=
  ⟨mlValueIdx, ⟨if size = 0 then 0 else (planner.bestFit size).bestOffset, size⟩⟩

theorem WellPlaced.linkedAllocs_traceAllocation_zero (h : planner.WellPlaced)
    (mlValueIdx : MLValueIndex) :
    (planner.traceAllocation mlValueIdx 0).linkedAllocs =
      planner.linkedAllocs :=
  h.allocAt_append _ _ _

theorem insertIdx_length_append {α : Type} (front back : List α) (x : α) :
    (front ++ back).insertIdx front.length x = front ++ x :: back := by
  induction front with
  | nil => simp
  | cons head rest ih => simp [ih]

section

variable (planner : MemPatternPlanner)

section

variable (mlValueIdx : MLValueIndex)

theorem traceAllocation_pos (hpos : 0 < size) :
    planner.traceAllocation mlValueIdx size =
      ⟨planner.allocs ++
          [⟨mlValueIdx, ⟨(planner.bestFit size).bestOffset, size⟩⟩],
        planner.blocks.insertIdx (planner.bestFit size).bestFitIt
          planner.allocs.length, max planner.bufferSize
          (sizeAdd (planner.bestFit size).bestOffset size)⟩ := by
  have hne : size ≠ 0 := pos_iff_ne_zero.mp hpos
  simp [traceAllocation, hne]

theorem traceAllocation_allocs (size : Nat) :
    (planner.traceAllocation mlValueIdx size).allocs =
      planner.allocs ++ [planner.newAlloc mlValueIdx size] := by
  by_cases hzero : size = 0 <;> simp [traceAllocation, newAlloc, hzero]

end

theorem linkedAllocs_traceFree (mlValueIndex : MLValueIndex) :
    (planner.traceFree mlValueIndex).linkedAllocs =
      planner.linkedAllocs.eraseP fun alloc => alloc.index == mlValueIndex := by
  rw [linkedAllocs, linkedAllocs, eraseP_map]
  rfl

end

theorem WellPlaced.linkedAllocs_traceAllocation_pos (h : planner.WellPlaced)
    (mlValueIdx : MLValueIndex) (hpos : 0 < size) :
    (planner.traceAllocation mlValueIdx size).linkedAllocs =
      planner.linkedAllocs.insertIdx (planner.bestFit size).bestFitIt
        ⟨mlValueIdx, ⟨(planner.bestFit size).bestOffset, size⟩⟩ := by
  rw [traceAllocation_pos planner mlValueIdx hpos, linkedAllocs,
    map_insertIdx, h.allocAt_append]
  simp [allocAt]

/-- An allocation that fits keeps the planner well placed. -/
theorem WellPlaced.traceAllocation (h : planner.WellPlaced)
    (mlValueIdx : MLValueIndex) (hfits : 0 < size → planner.Fits size) :
    (planner.traceAllocation mlValueIdx size).WellPlaced := by
  rcases eq_zero_or_pos size with rfl | hpos
  · refine ⟨?_, ?_, ?_, h.bufferSize_lt⟩
    · intro position hposition
      have hlt := h.linked_lt position hposition
      rw [traceAllocation_allocs, length_append]
      exact Nat.lt_add_right 1 hlt
    · rw [linkedBlocks, h.linkedAllocs_traceAllocation_zero]
      exact h.spaced
    · intro alloc halloc
      rcases mem_append.mp halloc with halloc | halloc
      · exact h.stop_le alloc halloc
      · rw [mem_singleton.mp halloc]
        exact Nat.zero_le _
  · have hbound := (h.fits_iff hpos).mp (hfits hpos)
    obtain ⟨front, back, hplace⟩ := h.exists_placement size
    have hlinked := h.linkedAllocs_traceAllocation_pos mlValueIdx hpos
    rw [traceAllocation_pos planner mlValueIdx hpos, sizeAdd_eq hbound] at *
    refine ⟨?_, ?_, ?_, max_lt h.bufferSize_lt hbound⟩
    · intro position hposition
      simp only [length_append, length_singleton]
      rcases eq_or_mem_of_mem_insertIdx hposition with rfl | hposition
      · omega
      · exact Nat.lt_succ_of_lt (h.linked_lt position hposition)
    · rw [linkedBlocks, hlinked, map_insertIdx]
      change Spaced 0 (planner.linkedBlocks.insertIdx _ _)
      rw [hplace.split, hplace.position, insertIdx_length_append]
      refine Spaced.insert (hplace.split ▸ h.spaced) hpos ?_ ?_
      · exact le_of_eq hplace.offset.symm
      · intro next hnext
        rw [hplace.offset]
        exact hplace.room next hnext
    · intro alloc halloc
      rcases mem_append.mp halloc with halloc | halloc
      · exact le_trans (h.stop_le alloc halloc) (le_max_left _ _)
      · rw [mem_singleton.mp halloc]
        exact le_max_right _ _

theorem WellPlaced.traceFree (h : planner.WellPlaced)
    (mlValueIndex : MLValueIndex) :
    (planner.traceFree mlValueIndex).WellPlaced := by
  have hsub : (planner.traceFree mlValueIndex).blocks.Sublist planner.blocks :=
    eraseP_sublist
  refine ⟨fun position hposition => h.linked_lt position (hsub.subset hposition),
    ?_, h.stop_le, h.bufferSize_lt⟩
  exact h.spaced.sublist ((hsub.map planner.allocAt).map _)

end MemPatternPlanner

/-- In a pattern of distinct values every recorded block can be looked up. -/
theorem foldl_recordBlock_apply {allocs : List MLValueAllocationBlock}
    (patterns : MLValueIndex → Option MemoryBlock)
    (hnodup : (allocs.map MLValueAllocationBlock.index).Nodup)
    (mlValueIdx : MLValueIndex) :
    allocs.foldl recordBlock patterns mlValueIdx =
      match allocs.find? fun alloc => alloc.index == mlValueIdx with
      | some alloc => some alloc.block
      | none => patterns mlValueIdx := by
  induction allocs generalizing patterns with
  | nil => rfl
  | cons head rest ih =>
    simp only [map_cons, nodup_cons] at hnodup
    rw [foldl_cons, ih _ hnodup.2]
    by_cases hhead : head.index = mlValueIdx
    · subst hhead
      have hnone : rest.find? (fun alloc => alloc.index == head.index) =
          none := by
        rw [find?_eq_none]
        intro alloc halloc
        simp only [beq_iff_eq]
        exact fun heq => hnodup.1 (heq ▸ mem_map_of_mem halloc)
      simp [hnone, recordBlock]
    · have hne : mlValueIdx ≠ head.index := Ne.symm hhead
      simp [hhead, recordBlock, Function.update_of_ne hne]

theorem MemPatternPlanner.getBlock_eq_some_iff {planner : MemPatternPlanner}
    (hnodup : (planner.allocs.map MLValueAllocationBlock.index).Nodup)
    {mlValueIdx : MLValueIndex} :
    planner.generateMemPattern.getBlock mlValueIdx = some block ↔
      ⟨mlValueIdx, block⟩ ∈ planner.allocs := by
  change planner.allocs.foldl recordBlock (fun _ => none) mlValueIdx =
    some block ↔ _
  rw [foldl_recordBlock_apply _ hnodup]
  cases hfind : planner.allocs.find? fun alloc => alloc.index == mlValueIdx with
  | none =>
    simp only [reduceCtorEq, false_iff]
    intro hmem
    have hne := find?_eq_none.mp hfind _ hmem
    simp at hne
  | some alloc =>
    have hmem := mem_of_find?_eq_some hfind
    have hindex : alloc.index = mlValueIdx := by
      simpa using find?_some hfind
    simp only [Option.some.injEq]
    constructor
    · rintro rfl
      rw [← hindex]
      exact hmem
    · intro hother
      have hsame := (nodup_map_iff_inj_on
        (List.Nodup.of_map _ hnodup)).mp hnodup alloc hmem _ hother hindex
      rw [hsame]

end OnnxRuntime
