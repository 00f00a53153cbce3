/-
Histories of traced calls.  The recorded pattern is sound for every history in
which no allocation wraps the end of the buffer, and for no other.  Without
frees the blocks are packed, and all that counts is the sum of the sizes.
-/
import OnnxRuntime.MemPatternPlanner

namespace OnnxRuntime

open List Function Extent

/-- A call traced by the planner. -/
inductive TraceOp where
  | allocation (mlValueIdx : MLValueIndex) (size : Nat)
  | free (mlValueIdx : MLValueIndex)
deriving Repr, DecidableEq

namespace TraceOp

open MemPatternPlanner

def apply (planner : MemPatternPlanner) : TraceOp → MemPatternPlanner
  | .allocation mlValueIdx size => planner.traceAllocation mlValueIdx size
  | .free mlValueIdx => planner.traceFree mlValueIdx

/-- The planner after a history of calls. -/
def planner (ops : List TraceOp) : MemPatternPlanner := ops.foldl apply {}

/-- The values allocated by a history, in order. -/
def allocated (ops : List TraceOp) : List MLValueIndex :=
  ops.filterMap fun
    | .allocation mlValueIdx _ => some mlValueIdx
    | .free _ => none

/-- The values a history has allocated and not freed since, with their
sizes. -/
def live (ops : List TraceOp) : List (MLValueIndex × Nat) :=
  ops.foldl (fun alive op =>
    match op with
    | .allocation mlValueIdx size => alive ++ [(mlValueIdx, size)]
    | .free mlValueIdx => alive.filter fun entry => entry.1 != mlValueIdx) []

/-- Histories the frame issues: every value is allocated at most once, and
sizes are `size_t`.  Freeing a value that is not allocated does nothing, so
nothing is asked of the frees. -/
structure WellFormed (ops : List TraceOp) : Prop where
  allocated_nodup : (allocated ops).Nodup
  size_lt : ∀ mlValueIdx size,
    .allocation mlValueIdx size ∈ ops → size < sizeBound

/-- An allocation meets the planner in a state where it can be placed. -/
def Fits (planner : MemPatternPlanner) : TraceOp → Prop
  | .allocation _ size => 0 < size → planner.Fits size
  | .free _ => True

instance (planner : MemPatternPlanner) (op : TraceOp) :
    Decidable (op.Fits planner) :=
  match op with
  | .allocation _ size =>
    inferInstanceAs (Decidable (0 < size → planner.Fits size))
  | .free _ => inferInstanceAs (Decidable True)

/-- No allocation of the history wraps the end of the buffer. -/
def NoWrap (ops : List TraceOp) : Prop :=
  ∀ earlier op later, ops = earlier ++ op :: later → op.Fits (planner earlier)

/-- What the planner promises after a history of calls. -/
structure SoundAfter (ops : List TraceOp) : Prop where
  /-- The linked blocks are those of the live values that are not empty. -/
  linked : ((planner ops).linkedAllocs.map fun alloc =>
      (alloc.index, alloc.block.size)).Perm
    ((live ops).filter fun entry => 0 < entry.2)
  increasing : (planner ops).linkedBlocks.Pairwise
    fun left right => left.offset < right.offset
  disjoint : (planner ops).linkedBlocks.Pairwise Extent.Disjoint
  inBuffer : ∀ alloc ∈ (planner ops).allocs,
    alloc.block.Within 0 (planner ops).bufferSize
  bestFit : ∀ earlier mlValueIdx size,
    ops = earlier ++ [.allocation mlValueIdx size] → 0 < size →
    (∃ gap ∈ (planner earlier).gaps, size ≤ gap.size) →
    ∃ chosen ∈ (planner earlier).gaps, size ≤ chosen.size ∧
      (∀ gap ∈ (planner earlier).gaps, size ≤ gap.size →
        chosen.size ≤ gap.size) ∧
      (planner ops).allocs.getLast? = some ⟨mlValueIdx, ⟨chosen.offset, size⟩⟩
  aligned : (∀ mlValueIdx size, .allocation mlValueIdx size ∈ ops →
    64 ∣ size) → ∀ alloc ∈ (planner ops).allocs, 64 ∣ alloc.block.offset
  /-- Values that were live together do not share a byte of the pattern. -/
  lifetimes : ∀ earlier, earlier <+: ops → ∀ left right,
    left ≠ right → left ∈ (live earlier).map Prod.fst →
    right ∈ (live earlier).map Prod.fst → ∀ leftBlock rightBlock,
    (planner ops).generateMemPattern.getBlock left = some leftBlock →
    (planner ops).generateMemPattern.getBlock right = some rightBlock →
    leftBlock.Disjoint rightBlock
  inPeak : ∀ mlValueIdx block,
    (planner ops).generateMemPattern.getBlock mlValueIdx = some block →
    block.Within 0 (planner ops).generateMemPattern.peakSize

/-- The promise after every call. -/
def Sound (ops : List TraceOp) : Prop :=
  ∀ earlier, earlier <+: ops → SoundAfter earlier

variable {ops earlier : List TraceOp} {mlValueIdx : MLValueIndex} {op : TraceOp}
  {size : Nat}

theorem exists_of_mem_allocated (hmem : mlValueIdx ∈ allocated ops) :
    ∃ size, .allocation mlValueIdx size ∈ ops := by
  rw [allocated, mem_filterMap] at hmem
  obtain ⟨op, hop, heq⟩ := hmem
  cases op with
  | allocation index size =>
    cases heq
    exact ⟨size, hop⟩
  | free index => cases heq

theorem noWrap_nil : NoWrap [] := by
  intro earlier op later h
  simp at h

theorem NoWrap.of_earlier (h : NoWrap ops) (hearlier : earlier <+: ops) :
    NoWrap earlier := by
  obtain ⟨later, rfl⟩ := hearlier
  intro front op back heq
  exact h front op (back ++ later) (by simp [heq])

theorem noWrap_snoc :
    NoWrap (ops ++ [op]) ↔ NoWrap ops ∧ op.Fits (planner ops) := by
  constructor
  · exact fun h => ⟨h.of_earlier (prefix_append ops [op]), h ops op [] rfl⟩
  · rintro ⟨h, hop⟩ earlier other later heq
    rcases eq_nil_or_concat later with rfl | ⟨later, last, rfl⟩
    · obtain ⟨rfl, hother⟩ := append_inj' heq rfl
      rw [← singleton_inj.mp hother]
      exact hop
    · rw [concat_eq_append, ← cons_append, ← append_assoc] at heq
      exact h earlier other later (append_inj' heq rfl).1

theorem WellFormed.of_earlier (h : WellFormed ops) (hearlier : earlier <+: ops) :
    WellFormed earlier := by
  obtain ⟨later, rfl⟩ := hearlier
  constructor
  · have hnodup := h.allocated_nodup
    rw [allocated, filterMap_append] at hnodup
    exact (nodup_append.mp hnodup).1
  · intro mlValueIdx size hmem
    exact h.size_lt mlValueIdx size (mem_append_left later hmem)

theorem WellFormed.of_snoc (h : WellFormed (ops ++ [op])) : WellFormed ops :=
  h.of_earlier (prefix_append ops [op])

/-- A recorded block as the history sees it. -/
def entry (alloc : MLValueAllocationBlock) : MLValueIndex × Nat :=
  (alloc.index, alloc.block.size)

/-- Entries with distinct keys lose the same ones to `eraseP` and `filter`. -/
theorem eraseP_eq_filter_of_nodup {α : Type} {entries : List α}
    (key : α → MLValueIndex) (h : (entries.map key).Nodup)
    (erased : MLValueIndex) :
    entries.eraseP (fun entry => key entry == erased) =
      entries.filter fun entry => key entry != erased := by
  induction entries with
  | nil => rfl
  | cons head rest ih =>
    simp only [map_cons, nodup_cons, mem_map] at h
    by_cases hkey : key head = erased
    · subst hkey
      have hrest : rest.filter (fun entry => key entry != key head) =
          rest := by
        rw [filter_eq_self]
        intro entry hentry
        simp only [bne_iff_ne]
        exact fun heq => h.1 ⟨entry, hentry, heq⟩
      simp [hrest]
    · simp [hkey, ih h.2]

section

variable (ops : List TraceOp)

@[simp] theorem planner_snoc (op : TraceOp) :
    planner (ops ++ [op]) = op.apply (planner ops) := by
  simp [planner]

section

variable (mlValueIdx : MLValueIndex)

theorem allocated_snoc_allocation (size : Nat) :
    allocated (ops ++ [.allocation mlValueIdx size]) =
      allocated ops ++ [mlValueIdx] := by
  simp [allocated]

theorem allocated_snoc_free :
    allocated (ops ++ [.free mlValueIdx]) = allocated ops := by
  simp [allocated]

theorem live_snoc_allocation (size : Nat) :
    live (ops ++ [.allocation mlValueIdx size]) =
      live ops ++ [(mlValueIdx, size)] := by
  simp [live]

theorem live_snoc_free :
    live (ops ++ [.free mlValueIdx]) =
      (live ops).filter fun entry => entry.1 != mlValueIdx := by
  simp [live]

end

theorem allocs_map_index :
    (planner ops).allocs.map MLValueAllocationBlock.index = allocated ops := by
  induction ops using reverseRecOn with
  | nil => rfl
  | append_singleton ops op ih =>
    rw [planner_snoc]
    cases op with
    | allocation mlValueIdx size =>
      rw [allocated_snoc_allocation, ← ih, apply, traceAllocation_allocs]
      simp [newAlloc]
    | free mlValueIdx =>
      rw [allocated_snoc_free, ← ih]
      rfl

theorem live_sublist : (live ops).Sublist ((planner ops).allocs.map entry) := by
  induction ops using reverseRecOn with
  | nil => exact List.Sublist.slnil
  | append_singleton ops op ih =>
    rw [planner_snoc]
    cases op with
    | allocation mlValueIdx size =>
      rw [live_snoc_allocation, apply, traceAllocation_allocs, map_append]
      exact ih.append (List.Sublist.refl _)
    | free mlValueIdx =>
      rw [live_snoc_free]
      exact filter_sublist.trans ih

theorem bufferSize_lt : (planner ops).bufferSize < sizeBound := by
  induction ops using reverseRecOn with
  | nil => decide
  | append_singleton ops op ih =>
    rw [planner_snoc]
    cases op with
    | free mlValueIdx => exact ih
    | allocation mlValueIdx size =>
      rw [apply, traceAllocation]
      split
      · exact ih
      · exact max_lt ih (sizeAdd_lt _ _)

end

theorem wellPlaced_of_noWrap (h : NoWrap ops) : (planner ops).WellPlaced := by
  induction ops using reverseRecOn with
  | nil => exact ⟨by simp [planner], trivial, by simp [planner], by decide⟩
  | append_singleton ops op ih =>
    obtain ⟨hops, hop⟩ := noWrap_snoc.mp h
    rw [planner_snoc]
    cases op with
    | allocation mlValueIdx size =>
      exact (ih hops).traceAllocation mlValueIdx hop
    | free mlValueIdx => exact (ih hops).traceFree mlValueIdx

theorem WellFormed.allocs_nodup (h : WellFormed ops) :
    ((planner ops).allocs.map MLValueAllocationBlock.index).Nodup := by
  rw [allocs_map_index]
  exact h.allocated_nodup

theorem allocs_earlier (h : earlier <+: ops) :
    (planner earlier).allocs <+: (planner ops).allocs := by
  obtain ⟨later, rfl⟩ := h
  induction later using reverseRecOn with
  | nil => simp
  | append_singleton later op ih =>
    rw [← append_assoc, planner_snoc]
    apply ih.trans
    cases op with
    | allocation mlValueIdx size =>
      rw [apply, traceAllocation_allocs]
      exact prefix_append _ _
    | free mlValueIdx => exact prefix_refl _

theorem WellFormed.live_nodup (h : WellFormed ops) :
    ((live ops).map Prod.fst).Nodup := by
  apply ((live_sublist ops).map Prod.fst).nodup
  simpa [entry, comp_def] using h.allocs_nodup

theorem linked_disjoint (h : NoWrap ops) {left right : MLValueAllocationBlock}
    (hleft : left ∈ (planner ops).linkedAllocs)
    (hright : right ∈ (planner ops).linkedAllocs)
    (hne : left.index ≠ right.index) :
    left.block.Disjoint right.block := by
  have hpairwise := (wellPlaced_of_noWrap h).spaced.pairwise_disjoint
  rw [linkedBlocks, pairwise_map] at hpairwise
  have hsymm : Std.Symm fun left right : MLValueAllocationBlock =>
      left.block.Disjoint right.block := ⟨fun _ _ h => h.symm⟩
  exact hpairwise.forall hleft hright fun heq => hne (congrArg _ heq)

theorem bestFit_least (h : NoWrap ops) (mlValueIdx : MLValueIndex)
    (hpos : 0 < size) (hfits : ∃ gap ∈ (planner ops).gaps, size ≤ gap.size) :
    ∃ chosen ∈ (planner ops).gaps, size ≤ chosen.size ∧
      (∀ gap ∈ (planner ops).gaps, size ≤ gap.size → chosen.size ≤ gap.size) ∧
      (planner (ops ++ [.allocation mlValueIdx size])).allocs.getLast? =
        some ⟨mlValueIdx, ⟨chosen.offset, size⟩⟩ := by
  have hplaced := wellPlaced_of_noWrap h
  have hchoice := hplaced.bestFit_choice size
  obtain ⟨gap, hgap, hsize⟩ := hfits
  have hleast := hchoice.least gap hgap hsize
  rcases hchoice.chosen with ⟨_, _, hwaste⟩ |
    ⟨front, block, back, hsplit, _, hoffset, hsum⟩
  · -- A fitting gap wastes less than the scan starts with.
    have hlt := hplaced.gap_size_lt hgap
    rw [hwaste] at hleast
    simp only [sizeMax] at hleast hlt
    omega
  · simp only at hoffset
    refine ⟨⟨stopFrom 0 front, block.offset - stopFrom 0 front⟩, ?_, ?_, ?_, ?_⟩
    · simp [gaps, hsplit, gapsFrom_append, gapsFrom]
    · simp only
      omega
    · intro other hother hfits
      have hother := hchoice.least other hother hfits
      simp only
      omega
    · rw [planner_snoc, apply, traceAllocation_allocs, newAlloc]
      simp [Nat.pos_iff_ne_zero.mp hpos, hoffset]

theorem offsets_aligned (h : NoWrap ops)
    (hsizes : ∀ mlValueIdx size, .allocation mlValueIdx size ∈ ops →
      64 ∣ size) :
    ∀ alloc ∈ (planner ops).allocs,
      64 ∣ alloc.block.offset ∧ 64 ∣ alloc.block.size := by
  induction ops using reverseRecOn with
  | nil => simp [planner]
  | append_singleton ops op ih =>
    obtain ⟨hops, _⟩ := noWrap_snoc.mp h
    have hrec := ih hops fun mlValueIdx size hmem =>
      hsizes mlValueIdx size (mem_append_left _ hmem)
    rw [planner_snoc]
    cases op with
    | free mlValueIdx => exact hrec
    | allocation mlValueIdx size =>
      have hplaced := wellPlaced_of_noWrap hops
      intro alloc halloc
      rw [apply, traceAllocation_allocs] at halloc
      rcases mem_append.mp halloc with halloc | halloc
      · exact hrec alloc halloc
      · rw [mem_singleton.mp halloc, newAlloc]
        refine ⟨?_, hsizes mlValueIdx size (by simp)⟩
        obtain ⟨front, back, hplace⟩ := hplaced.exists_placement size
        split
        · exact Nat.dvd_zero 64
        · rw [hplace.offset]
          apply dvd_stopFrom
          intro block hblock
          have hlinked : block ∈ (planner ops).linkedBlocks := by
            rw [hplace.split]
            exact mem_append_left back hblock
          obtain ⟨old, hold, rfl⟩ := mem_map.mp hlinked
          obtain ⟨position, hposition, rfl⟩ := mem_map.mp hold
          have hboth := hrec _ (allocAt_mem
            (hplaced.linked_lt position hposition))
          exact Nat.dvd_add hboth.1 hboth.2

section

variable (hwf : WellFormed ops) (h : NoWrap ops)
include hwf h

theorem linked_perm : ((planner ops).linkedAllocs.map entry).Perm
      ((live ops).filter fun entry => 0 < entry.2) := by
  induction ops using reverseRecOn with
  | nil => exact List.Perm.refl _
  | append_singleton ops op ih =>
    obtain ⟨hops, hop⟩ := noWrap_snoc.mp h
    have hplaced := wellPlaced_of_noWrap hops
    have hperm := ih hwf.of_snoc hops
    rw [planner_snoc]
    cases op with
    | allocation mlValueIdx size =>
      rw [live_snoc_allocation, apply]
      rcases Nat.eq_zero_or_pos size with rfl | hpos
      · rw [hplaced.linkedAllocs_traceAllocation_zero]
        simpa using hperm
      · obtain ⟨front, back, hplace⟩ := hplaced.exists_placement size
        have hit : (bestFit (planner ops) size).bestFitIt ≤
            ((planner ops).linkedAllocs.map entry).length := by
          have hlength := congrArg List.length hplace.split
          simp only [linkedBlocks, length_map, length_append] at hlength ⊢
          rw [hplace.position]
          omega
        rw [hplaced.linkedAllocs_traceAllocation_pos _ hpos, map_insertIdx]
        refine (perm_insertIdx _ _ hit).trans ?_
        refine (hperm.cons _).trans ?_
        simpa [entry, hpos] using
          (perm_append_singleton (mlValueIdx, size) _).symm
    | free mlValueIdx =>
      have hlinkedNodup :
          (((planner ops).linkedAllocs.map entry).map Prod.fst).Nodup :=
        (hperm.map Prod.fst).nodup_iff.mpr
          ((filter_sublist.map Prod.fst).nodup hwf.of_snoc.live_nodup)
      rw [live_snoc_free, apply, linkedAllocs_traceFree,
        eraseP_eq_filter_of_nodup MLValueAllocationBlock.index
          (by simpa [entry, comp_def] using hlinkedNodup)]
      have hfiltered := hperm.filter fun entry => entry.1 != mlValueIdx
      rw [filter_map] at hfiltered
      simpa [Bool.and_comm, entry, comp_def] using hfiltered

/-- A live value that is not empty is linked with the block recorded for
it. -/
theorem exists_linked_of_live {mlValueIdx : Nat}
    (hlive : (mlValueIdx, size) ∈ live ops) (hpos : 0 < size) :
    ∃ alloc ∈ (planner ops).linkedAllocs, alloc.index = mlValueIdx ∧
      alloc.block.size = size := by
  have hmem : (mlValueIdx, size) ∈ (planner ops).linkedAllocs.map entry := by
    apply (linked_perm hwf h).mem_iff.mpr
    simp [hlive, hpos]
  obtain ⟨alloc, halloc, heq⟩ := mem_map.mp hmem
  simp only [entry, Prod.mk.injEq] at heq
  exact ⟨alloc, halloc, heq⟩

/-- What a value live after `earlier` gets from the pattern of the whole
history: the empty block, or the one linked after `earlier`. -/
theorem getBlock_of_live (hearlier : earlier <+: ops)
    (hlive : mlValueIdx ∈ (live earlier).map Prod.fst) {block : MemoryBlock}
    (hblock : (planner ops).generateMemPattern.getBlock mlValueIdx =
      some block) :
    block.size = 0 ∨ ⟨mlValueIdx, block⟩ ∈ (planner earlier).linkedAllocs := by
  obtain ⟨⟨index, size⟩, hentry, rfl⟩ := mem_map.mp hlive
  have hrecorded := (getBlock_eq_some_iff hwf.allocs_nodup).mp hblock
  have hunique : ∀ alloc ∈ (planner earlier).allocs, alloc.index = index →
      alloc = ⟨index, block⟩ := fun alloc halloc hindex =>
    (nodup_map_iff_inj_on (List.Nodup.of_map _ hwf.allocs_nodup)).mp
      hwf.allocs_nodup alloc ((allocs_earlier hearlier).subset halloc) _
      hrecorded hindex
  rcases Nat.eq_zero_or_pos size with rfl | hpos
  · obtain ⟨alloc, halloc, heq⟩ :=
      mem_map.mp ((live_sublist earlier).subset hentry)
    simp only [entry, Prod.mk.injEq] at heq
    rw [hunique alloc halloc heq.1] at heq
    exact .inl heq.2
  · obtain ⟨alloc, halloc, hindex, _⟩ := exists_linked_of_live
      (hwf.of_earlier hearlier) (h.of_earlier hearlier) hentry hpos
    have hmem : alloc ∈ (planner earlier).allocs := by
      obtain ⟨position, hposition, rfl⟩ := mem_map.mp halloc
      exact allocAt_mem ((wellPlaced_of_noWrap
        (h.of_earlier hearlier)).linked_lt _ hposition)
    rw [← hunique alloc hmem hindex]
    exact .inr halloc

theorem lifetimes_disjoint (hearlier : earlier <+: ops)
    {left right : MLValueIndex} (hne : left ≠ right)
    (hleft : left ∈ (live earlier).map Prod.fst)
    (hright : right ∈ (live earlier).map Prod.fst)
    {leftBlock rightBlock : MemoryBlock}
    (hleftBlock : (planner ops).generateMemPattern.getBlock left =
      some leftBlock)
    (hrightBlock : (planner ops).generateMemPattern.getBlock right =
      some rightBlock) : leftBlock.Disjoint rightBlock := by
  rcases getBlock_of_live hwf h hearlier hleft hleftBlock with hempty | hleft
  · intro byte hcovers
    simp only [Covers, stop] at hcovers
    omega
  · rcases getBlock_of_live hwf h hearlier hright hrightBlock with
      hempty | hright
    · intro byte _ hcovers
      simp only [Covers, stop] at hcovers
      omega
    · exact linked_disjoint (h.of_earlier hearlier) hleft hright hne

theorem soundAfter_of_noWrap : SoundAfter ops where
  linked := linked_perm hwf h
  increasing := (wellPlaced_of_noWrap h).spaced.pairwise_offset_lt
  disjoint := (wellPlaced_of_noWrap h).spaced.pairwise_disjoint
  inBuffer := fun alloc halloc =>
    ⟨Nat.zero_le _, (wellPlaced_of_noWrap h).stop_le alloc halloc⟩
  bestFit := by
    rintro earlier mlValueIdx size rfl hpos hfits
    exact bestFit_least (noWrap_snoc.mp h).1 mlValueIdx hpos hfits
  aligned := fun hsizes alloc halloc =>
    (offsets_aligned h hsizes alloc halloc).1
  lifetimes := fun _ hearlier _ _ hne hleft hright _ _ hleftBlock hrightBlock =>
    lifetimes_disjoint hwf h hearlier hne hleft hright hleftBlock hrightBlock
  inPeak := fun mlValueIdx block hblock =>
    ⟨Nat.zero_le _, (wellPlaced_of_noWrap h).stop_le _
      ((getBlock_eq_some_iff hwf.allocs_nodup).mp hblock)⟩

end

/-- A history is planned soundly exactly when no allocation wraps: an
allocation that wraps gets a block that sticks out of the buffer. -/
theorem sound_iff_noWrap {ops : List TraceOp} (hwf : WellFormed ops) :
    Sound ops ↔ NoWrap ops := by
  constructor
  · intro hsound
    induction ops using reverseRecOn with
    | nil => exact noWrap_nil
    | append_singleton ops op ih =>
      have hops : NoWrap ops := ih hwf.of_snoc fun earlier hearlier =>
        hsound earlier (hearlier.trans (prefix_append ops [op]))
      refine noWrap_snoc.mpr ⟨hops, ?_⟩
      cases op with
      | free mlValueIdx => trivial
      | allocation mlValueIdx size =>
        intro hpos
        apply ((wellPlaced_of_noWrap hops).fits_iff hpos).mpr
        have hafter := hsound _ (prefix_refl _)
        have hstop := (hafter.inBuffer
          ((planner ops).newAlloc mlValueIdx size) (by
            rw [planner_snoc, apply, traceAllocation_allocs]
            simp)).2
        have hlt := bufferSize_lt (ops ++ [.allocation mlValueIdx size])
        simp only [newAlloc, stop,
          Nat.pos_iff_ne_zero.mp hpos, if_false] at hstop
        omega
  · intro h earlier hearlier
    exact soundAfter_of_noWrap (hwf.of_earlier hearlier) (h.of_earlier hearlier)

/-- A history with a gap: the third block goes into the hole that the freed
first one leaves. -/
theorem sound_gap_reused :
    WellFormed [.allocation 0 128, .allocation 1 64, .free 0,
        .allocation 2 64] ∧
      Sound [.allocation 0 128, .allocation 1 64, .free 0,
        .allocation 2 64] := by
  have hwf : WellFormed [.allocation 0 128, .allocation 1 64, .free 0,
      .allocation 2 64] := by
    refine ⟨by decide, ?_⟩
    intro mlValueIdx size hmem
    simp only [mem_cons, reduceCtorEq, not_mem_nil, or_false, false_or] at hmem
    rcases hmem with ⟨_, rfl⟩ | ⟨_, rfl⟩ | ⟨_, rfl⟩ <;> decide
  refine ⟨hwf, (sound_iff_noWrap hwf).mpr ?_⟩
  have hfirst : NoWrap [.allocation 0 128] :=
    noWrap_snoc.mpr ⟨noWrap_nil, by decide⟩
  have hsecond : NoWrap [.allocation 0 128, .allocation 1 64] :=
    noWrap_snoc.mpr ⟨hfirst, by decide⟩
  have hfreed : NoWrap [.allocation 0 128, .allocation 1 64, .free 0] :=
    noWrap_snoc.mpr ⟨hsecond, by decide⟩
  exact noWrap_snoc.mpr ⟨hfreed, by decide⟩

/-- Two blocks of half the address space fill it, so the end of the buffer
wraps to zero and the third block is put on top of the first. -/
theorem not_sound_wrapped :
    WellFormed [.allocation 0 (2 ^ 63), .allocation 1 (2 ^ 63),
        .allocation 2 64] ∧
      ¬ Sound [.allocation 0 (2 ^ 63), .allocation 1 (2 ^ 63),
        .allocation 2 64] := by
  constructor
  · refine ⟨by decide, ?_⟩
    intro mlValueIdx size hmem
    simp only [mem_cons, not_mem_nil, or_false] at hmem
    rcases hmem with ⟨_, rfl⟩ | ⟨_, rfl⟩ | ⟨_, rfl⟩ <;> decide
  · intro hsound
    have hdisjoint := (hsound _ (prefix_refl _)).disjoint
    have hlinked : (planner [.allocation 0 (2 ^ 63), .allocation 1 (2 ^ 63),
        .allocation 2 64]).linkedBlocks =
        [⟨0, 2 ^ 63⟩, ⟨2 ^ 63, 2 ^ 63⟩, ⟨0, 64⟩] := by
      decide
    rw [hlinked] at hdisjoint
    have hpair : Extent.Disjoint ⟨0, 2 ^ 63⟩ ⟨0, 64⟩ :=
      (pairwise_cons.mp hdisjoint).1 _ (by simp)
    exact hpair 0 (by simp [Covers, stop]) (by simp [Covers, stop])

end TraceOp

namespace MemPatternPlanner

/-- A planner without gaps. -/
structure Packed (planner : MemPatternPlanner)
    (total : Nat) : Prop where
  placed : planner.WellPlaced
  gaps_empty : ∀ gap ∈ planner.gaps, gap.size = 0
  stop_eq : stopFrom 0 planner.linkedBlocks = total
  bufferSize_eq : planner.bufferSize = total

section Packed

variable {planner : MemPatternPlanner} {total : Nat} (h : planner.Packed total)
include h

/-- There is no gap to take, so the block goes behind the last one. -/
theorem Packed.bestFit_eq {size : Nat} (hpos : 0 < size) :
    (planner.bestFit size).bestOffset = total ∧
      (planner.bestFit size).bestFitIt = planner.linkedAllocs.length := by
  rcases (h.placed.bestFit_choice size).chosen with ⟨hoffset, hit, -⟩ |
    ⟨front, block, back, hsplit, -, hoffset, hsum⟩
  · rw [hoffset, hit, linkedAllocs, length_map]
    exact ⟨h.placed.endOffset_eq.trans h.stop_eq, rfl⟩
  · have hempty := h.gaps_empty
      ⟨stopFrom 0 front, block.offset - stopFrom 0 front⟩ (by
        simp [gaps, hsplit, gapsFrom_append, gapsFrom])
    simp only at hoffset hempty
    omega

theorem Packed.fits_iff {size : Nat} (hpos : 0 < size) :
    planner.Fits size ↔ total + size < sizeBound := by
  rw [h.placed.fits_iff hpos, (h.bestFit_eq hpos).1]

theorem Packed.traceAllocation (mlValueIdx : MLValueIndex) {size : Nat}
    (hfits : total + size < sizeBound) :
    (planner.traceAllocation mlValueIdx size).Packed (total + size) := by
  have hplaced := h.placed.traceAllocation mlValueIdx
    fun hpos => (h.fits_iff hpos).2 hfits
  rcases Nat.eq_zero_or_pos size with rfl | hpos
  · have hlinked : (planner.traceAllocation mlValueIdx 0).linkedBlocks =
        planner.linkedBlocks := by
      rw [linkedBlocks, h.placed.linkedAllocs_traceAllocation_zero,
        linkedBlocks]
    refine ⟨hplaced, ?_, ?_, h.bufferSize_eq⟩
    · rw [gaps, hlinked]
      exact h.gaps_empty
    · rw [hlinked, h.stop_eq, Nat.add_zero]
  · obtain ⟨hoffset, hit⟩ := h.bestFit_eq hpos
    have hlinked : (planner.traceAllocation mlValueIdx size).linkedBlocks =
        planner.linkedBlocks ++ [⟨total, size⟩] := by
      rw [linkedBlocks, h.placed.linkedAllocs_traceAllocation_pos _ hpos,
        hoffset, hit, insertIdx_length_self, map_append]
      rfl
    refine ⟨hplaced, ?_, ?_, ?_⟩
    · rw [gaps, hlinked, gapsFrom_append, h.stop_eq]
      intro gap hgap
      rcases mem_append.1 hgap with hgap | hgap
      · exact h.gaps_empty gap hgap
      · rw [mem_singleton.1 hgap]
        exact Nat.sub_self total
    · rw [hlinked, stopFrom_append]
      rfl
    · rw [traceAllocation_pos _ _ hpos, hoffset, sizeAdd_eq hfits,
        h.bufferSize_eq]
      exact Nat.max_eq_right (Nat.le_add_right _ _)

end Packed

end MemPatternPlanner

namespace TraceOp

open MemPatternPlanner

/-- The history in which the values are allocated one after the other. -/
def allocations (requests : List (MLValueIndex × Nat)) : List TraceOp :=
  requests.map fun request => .allocation request.1 request.2

def totalSize (requests : List (MLValueIndex × Nat)) : Nat :=
  (requests.map Prod.snd).sum

section

variable (requests : List (MLValueIndex × Nat))
include requests

theorem allocations_snoc (request : MLValueIndex × Nat) :
    allocations (requests ++ [request]) =
      allocations requests ++ [.allocation request.1 request.2] := by
  rw [allocations, map_append]
  rfl

theorem totalSize_snoc (request : MLValueIndex × Nat) :
    totalSize (requests ++ [request]) = totalSize requests + request.2 := by
  rw [totalSize, totalSize]
  simp

theorem allocated_allocations :
    allocated (allocations requests) = requests.map Prod.fst := by
  rw [allocated, allocations, filterMap_map]
  exact congrFun filterMap_eq_map' requests

theorem live_allocations : live (allocations requests) = requests := by
  induction requests using reverseRecOn with
  | nil => rfl
  | append_singleton requests request ih =>
    rw [allocations_snoc, live_snoc_allocation, ih]

/-- A recorded block has the size that was asked for. -/
theorem mem_of_mem_allocs : ∀ alloc ∈ (planner (allocations requests)).allocs,
      (alloc.index, alloc.block.size) ∈ requests := by
  induction requests using reverseRecOn with
  | nil => exact nofun
  | append_singleton requests request ih =>
    intro alloc halloc
    rw [allocations_snoc, planner_snoc, apply, traceAllocation_allocs] at halloc
    rcases mem_append.1 halloc with halloc | halloc
    · exact mem_append_left _ (ih alloc halloc)
    · rw [mem_singleton.1 halloc]
      exact mem_append_right _ mem_cons_self

end

theorem packed_of_totalSize {requests : List (MLValueIndex × Nat)}
    (h : totalSize requests < sizeBound) :
    (planner (allocations requests)).Packed (totalSize requests) ∧
      NoWrap (allocations requests) := by
  induction requests using reverseRecOn with
  | nil =>
    exact ⟨⟨wellPlaced_of_noWrap noWrap_nil, nofun, rfl, rfl⟩, noWrap_nil⟩
  | append_singleton requests request ih =>
    rw [totalSize_snoc] at h ⊢
    obtain ⟨hpacked, hwrap⟩ := ih (by omega)
    rw [allocations_snoc, planner_snoc]
    exact ⟨hpacked.traceAllocation _ h, noWrap_snoc.2
      ⟨hwrap, fun hpos => (hpacked.fits_iff hpos).2 h⟩⟩

/-- If the sizes sum up to more than an address can tell, one of the blocks
sticks out of the buffer. -/
theorem exists_stop_of_totalSize {requests : List (MLValueIndex × Nat)}
    (hsizes : ∀ request ∈ requests, request.2 < sizeBound)
    (h : sizeBound ≤ totalSize requests) :
    0 < (planner (allocations requests)).bufferSize ∧
      ∃ alloc ∈ (planner (allocations requests)).allocs,
        sizeBound ≤ alloc.block.stop := by
  induction requests using reverseRecOn with
  | nil => exact absurd h (by decide)
  | append_singleton requests request ih =>
    have hsize := hsizes request (by simp)
    rw [allocations_snoc, planner_snoc, apply]
    by_cases hearlier : sizeBound ≤ totalSize requests
    · obtain ⟨hbuffer, alloc, halloc, hstop⟩ := ih
        (fun other hother => hsizes other (mem_append_left _ hother))
        hearlier
      refine ⟨?_, alloc, ?_, hstop⟩
      · rw [traceAllocation]
        split
        · exact hbuffer
        · exact Nat.lt_of_lt_of_le hbuffer (Nat.le_max_left _ _)
      · rw [traceAllocation_allocs]
        exact mem_append_left _ halloc
    · have hpacked := (packed_of_totalSize (Nat.lt_of_not_le hearlier)).1
      rw [totalSize_snoc] at h
      have hpos : 0 < request.2 := by omega
      refine ⟨?_, (planner (allocations requests)).newAlloc request.1
        request.2, ?_, ?_⟩
      · rw [traceAllocation_pos _ _ hpos]
        refine Nat.lt_of_lt_of_le ?_ (Nat.le_max_left _ _)
        rw [hpacked.bufferSize_eq]
        omega
      · rw [traceAllocation_allocs]
        exact mem_append_right _ mem_cons_self
      · rw [newAlloc, if_neg hpos.ne', (hpacked.bestFit_eq hpos).1]
        exact h

end TraceOp

end OnnxRuntime
