/-
Giving memory back: the chunk is merged with free neighbours on both sides, and
the outcome is in its bin again.  The search for a chunk looks through the bins
in the order of their sizes, so the chunk that is found fits best.
-/
import OnnxRuntime.ArenaChunks
import Mathlib.Data.Nat.Log

namespace OnnxRuntime

open List Option RegionLayout ArenaM

variable {s s' : BFCArena} {layout layout' : List RegionLayout}
  {recycled : List ChunkHandle} {loose pending : Set ChunkHandle}
  {h h' : ChunkHandle} {rounded : Nat}

/-- Larger chunks are in later bins. -/
theorem binNumForSize_mono {bytes bytes' : Nat} (hle : bytes ≤ bytes') :
    binNumForSize bytes ≤ binNumForSize bytes' := by
  have hdiv : max bytes 256 / kMinAllocationSize ≤
      max bytes' 256 / kMinAllocationSize :=
    Nat.div_le_div_right (by omega)
  rw [binNumForSize, binNumForSize, Nat.log2_eq_log_two, Nat.log2_eq_log_two]
  exact min_le_min_left _ (Nat.log_mono_right hdiv)

theorem binNumForSize_lt (bytes : Nat) : binNumForSize bytes < kNumBins :=
  (Nat.min_le_left _ _).trans_lt (by decide)

namespace ArenaM

open BFCArena

theorem searchBin_eq {handles : List ChunkHandle}
    (hall : ∀ h ∈ handles, h < s.numChunks ∧ ¬ (s.chunk h).InUse) :
    searchBin rounded handles s =
      .ok (handles.find? fun h => rounded ≤ (s.chunk h).size) s := by
  induction handles with
  | nil => rfl
  | cons h rest ih =>
    obtain ⟨hbound, hfree⟩ := hall h mem_cons_self
    have hrest := ih fun other hmem => hall other (mem_cons_of_mem h hmem)
    rw [searchBin, bind_eq_of_ok (chunkFromHandle_eq hbound),
      enforce_of hfree, bind_eq_of_ok (pure_apply _ _)]
    by_cases hfits : rounded ≤ (s.chunk h).size
    · rw [if_pos hfits, find?_cons_of_pos (by simpa using hfits)]
      rfl
    · rw [if_neg hfits, find?_cons_of_neg (by simpa using hfits), hrest]

/-- What the search through some bins finds. -/
def firstFit (s : BFCArena) (rounded binNum : Nat) :
    Option (Nat × ChunkHandle) :=
  ((s.bins binNum).find? fun h => rounded ≤ (s.chunk h).size).map (binNum, ·)

/-- What the search for a chunk finds. -/
def firstFitFrom (s : BFCArena) (rounded : Nat) : Option (Nat × ChunkHandle) :=
  (range' (binNumForSize rounded)
    (kNumBins - binNumForSize rounded)).findSome? (firstFit s rounded)

theorem searchBins_eq (hall : ∀ b, ∀ h ∈ s.bins b,
      h < s.numChunks ∧ ¬ (s.chunk h).InUse) (binNums : List Nat) :
    searchBins rounded binNums s =
      .ok (binNums.findSome? (firstFit s rounded)) s := by
  induction binNums with
  | nil => rfl
  | cons binNum rest ih =>
    rw [searchBins, bind_eq_of_ok (get_apply s), bind_eq_of_ok (searchBin_eq
      (hall binNum)), findSome?_cons, firstFit]
    cases (s.bins binNum).find? fun h => rounded ≤ (s.chunk h).size with
    | none => exact ih
    | some h => rfl

end ArenaM

namespace BFCArena

/-- A free chunk that is large enough. -/
structure Candidate (s : BFCArena) (layout : List RegionLayout)
    (rounded : Nat) (h : ChunkHandle) : Prop where
  mem : h ∈ handlesOf layout
  free : ¬ (s.chunk h).InUse
  fits : rounded ≤ (s.chunk h).size

/-- No candidate is smaller, or as small and at a lower address. -/
structure BestFit (s : BFCArena) (layout : List RegionLayout)
    (rounded : Nat) (h : ChunkHandle) : Prop
    extends s.Candidate layout rounded h where
  least : ∀ other, s.Candidate layout rounded other →
    other = h ∨ s.chunkBefore h other

/-- How much of a chunk is handed out. -/
def handedSize (size rounded : Nat) : Nat :=
  if rounded * 2 ≤ size ∨ ArenaM.maxInternalFragmentation ≤ size - rounded then
    rounded
  else size

/-- The chunk `h` is taken for `numBytes`, and no other chunk in use changes. -/
structure Takes (s : BFCArena) (layout : List RegionLayout) (h : ChunkHandle)
    (rounded numBytes : Nat) (s' : BFCArena) (layout' : List RegionLayout) :
    Prop where
  aside_eq : s'.aside = { s with
    nextAllocationId := s.nextAllocationId + 1
    stats := s.stats.allocated (handedSize (s.chunk h).size rounded) }.aside
  ends_eq : ends layout' = ends layout
  usedAt_self : s'.usedAt layout' h = some ((s.chunk h).ptr,
    handedSize (s.chunk h).size rounded, numBytes)
  usedAt_other : ∀ other, other ≠ h →
    s'.usedAt layout' other = s.usedAt layout other

theorem le_handedSize {size : Nat} (hle : rounded ≤ size) :
    rounded ≤ handedSize size rounded := by
  rw [handedSize]
  split
  · exact Nat.le_refl rounded
  · exact hle

/-- Only free chunks have changed. -/
structure Steady (s : BFCArena) (layout : List RegionLayout) (s' : BFCArena)
    (layout' : List RegionLayout) : Prop where
  aside_eq : s'.aside = s.aside
  ends_eq : ends layout' = ends layout
  usedAt_eq : ∀ h, s'.usedAt layout' h = s.usedAt layout h

namespace Steady

theorem refl (s : BFCArena) (layout : List RegionLayout) :
    Steady s layout s layout := ⟨rfl, rfl, fun _ => rfl⟩

theorem trans {s'' : BFCArena} {layout'' : List RegionLayout}
    (hfirst : Steady s layout s' layout')
    (hsecond : Steady s' layout' s'' layout'') :
    Steady s layout s'' layout'' :=
  ⟨hsecond.aside_eq.trans hfirst.aside_eq, hsecond.ends_eq.trans hfirst.ends_eq,
    fun h => (hsecond.usedAt_eq h).trans (hfirst.usedAt_eq h)⟩

/-- Putting a chunk into a bin or taking it out changes no other field. -/
theorem of_rebinned (haside : s'.aside = s.aside) (hr : Rebinned s s') :
    Steady s layout s' layout :=
  ⟨haside, rfl, usedAt_rebinned hr layout⟩

theorem inserted (s : BFCArena) (layout : List RegionLayout)
    (h : ChunkHandle) : Steady s layout (s.inserted h) layout :=
  of_rebinned rfl (s.rebinned_inserted h)

theorem removed (s : BFCArena) (layout : List RegionLayout)
    (h : ChunkHandle) : Steady s layout (s.removed h) layout :=
  of_rebinned rfl (s.rebinned_removed h)

end Steady

theorem FreePair.of_removed {left right : ChunkHandle}
    (hpair : (s.removed h).FreePair layout left right) :
    s.FreePair layout left right := by
  obtain ⟨hmem, hlink, hleft, hright⟩ := hpair
  have hr := s.rebinned_removed h
  rw [hr.inUse] at hleft hright
  rw [hr.next] at hlink
  exact ⟨hmem, hlink, hleft, hright⟩

/-- One chunk is marked as free or as in use. -/
def marked (s : BFCArena) (h : ChunkHandle) (requested : Nat) (allocId : Int)
    (nextId : Nat) (stats : AllocatorStats) : BFCArena :=
  { s.modifyChunk h (fun c => { c with
      requestedSize := requested, allocationId := allocId }) with
    nextAllocationId := nextId
    stats := stats }

variable {requested nextId : Nat} {allocId : Int} {stats : AllocatorStats}

theorem chunk_marked (other : ChunkHandle) :
    (s.marked h requested allocId nextId stats).chunk other =
      if other = h then { s.chunk other with
        requestedSize := requested, allocationId := allocId }
      else s.chunk other :=
  s.chunk_modifyChunk h other fun c => { c with
    requestedSize := requested, allocationId := allocId }

theorem node_chunk_marked (other : ChunkHandle) :
    ((s.marked h requested allocId nextId stats).chunk other).node =
      (s.chunk other).node := by
  rw [chunk_marked]
  split <;> rfl

theorem usedAt_marked_of_ne {other : ChunkHandle} (hne : other ≠ h) :
    (s.marked h requested allocId nextId stats).usedAt layout other =
      s.usedAt layout other := by
  refine usedAt_congr ?_ fun _ _ => ?_
  · rw [chunk_marked, if_neg hne]
  · rw [chunk_marked, if_neg hne]
    exact ⟨rfl, rfl, rfl⟩

namespace WellFormed

/-- A mark on a chunk that is in no bin leaves the bins as they are. -/
theorem binned_marked {loose' : Set ChunkHandle}
    (hw : s.WellFormed layout recycled loose pending)
    (hnot : ¬ s.Idle (handlesOf layout) loose h)
    (hnot' : ¬ (s.marked h requested allocId nextId stats).Idle
      (handlesOf layout) loose' h)
    (hloose : ∀ other, other ≠ h → (other ∈ loose' ↔ other ∈ loose)) :
    (s.marked h requested allocId nextId stats).Binned (handlesOf layout)
      loose' := by
  refine hw.binned.frame rfl (fun other => ?_) (fun other hidle => ?_)
    fun other hidle => ?_
  · by_cases hne : other = h
    · rw [hne]
      exact iff_of_false hnot' hnot
    · rw [Idle, Idle, chunk_marked, if_neg hne, hloose other hne]
  · have hne : other ≠ h := fun heq => hnot (heq ▸ hidle)
    rw [chunk_marked, if_neg hne]
    exact ⟨rfl, rfl, rfl⟩
  · have hbin := hw.binned.binNum_other other hidle
    rw [chunk_marked]
    split <;> exact hbin

/-- The loose chunk is handed out. -/
theorem taken (hw : s.WellFormed layout recycled {h} pending)
    (hpending : pending ⊆ {h}) (hid : allocId ≠ -1) :
    (s.marked h requested allocId nextId stats).WellFormed layout recycled
      ∅ ∅ := by
  have hused : ((s.marked h requested allocId nextId stats).chunk h).InUse := by
    rw [chunk_marked, if_pos rfl]
    exact hid
  refine ⟨hw.shape.congr rfl rfl rfl node_chunk_marked,
    hw.binned_marked (fun hidle => hidle.2.2 rfl)
      (fun hidle => hidle.2.1 hused) fun other hne => ?_, nofun, ?_⟩
  · exact iff_of_false id hne
  · rintro left right ⟨hleft, hlink, hfirst, hsecond⟩
    have hne : left ≠ h := fun heq => hfirst (heq ▸ hused)
    have hne' : right ≠ h := fun heq => hsecond (heq ▸ hused)
    rw [chunk_marked, if_neg hne] at hlink hfirst
    rw [chunk_marked, if_neg hne'] at hsecond
    rcases hw.apart left right ⟨hleft, hlink, hfirst, hsecond⟩ with hh | hh
    · exact absurd (hpending hh) hne
    · exact absurd (hpending hh) hne'

/-- A free chunk that is in its bin is taken out by its own handle. -/
theorem removeFreeChunkFromBin_eq
    (hw : s.WellFormed layout recycled loose pending)
    (hmem : h ∈ handlesOf layout) (hfree : ¬ (s.chunk h).InUse)
    (hloose : h ∉ loose) :
    removeFreeChunkFromBin h s = .ok () (s.removed h) :=
  ArenaM.removeFreeChunkFromBin_eq hw.binned (hw.bounded hmem)
    ⟨hmem, hfree, hloose⟩ (hw.ptr_eq hmem)

theorem coalesceNext (hw : s.WellFormed layout recycled {h} {h}) :
    ∃ s' layout' recycled', ArenaM.coalesceNext h s = .ok () s' ∧
      s'.WellFormed layout' recycled' {h} {h} ∧ Steady s layout s' layout' ∧
      ∀ next, (s'.chunk h).next = some next → (s'.chunk next).InUse := by
  obtain ⟨hmem, hfree⟩ := hw.free_of_loose h rfl
  rw [ArenaM.coalesceNext, bind_eq_of_ok (chunkFromHandle_eq (hw.bounded hmem))]
  cases hnext : (s.chunk h).next with
  | none =>
    refine ⟨s, layout, recycled, rfl, hw, .refl s layout, ?_⟩
    rw [hnext]
    exact nofun
  | some hNext =>
    have hmem' := hw.shape.next_mem hmem hnext
    have hne := hw.shape.next_ne hmem hnext
    dsimp only
    rw [bind_eq_of_ok (chunkFromHandle_eq (hw.bounded hmem'))]
    by_cases hused : (s.chunk hNext).InUse
    · rw [if_pos hused]
      refine ⟨s, layout, recycled, rfl, hw, .refl s layout, ?_⟩
      rw [hnext]
      rintro _ ⟨⟩
      exact hused
    · rw [if_neg hused,
        bind_eq_of_ok (hw.removeFreeChunkFromBin_eq hmem' hused hne)]
      have hnext' : ((s.removed hNext).chunk h).next = some hNext :=
        ((s.rebinned_removed hNext).next h).trans hnext
      obtain ⟨s', layout', hrun, hw', -, -, hlink, hback, hinUse, haside,
          hends, hsame⟩ := (hw.removed hmem' hused).merge
        (Set.mem_insert_of_mem hNext rfl) (Set.mem_insert hNext {h}) hnext'
        fun left right _ hpair => hpair.elim (fun hh => .inl hh.1)
          fun hh => hw.apart _ _ hh.2.2.of_removed
      refine ⟨s', layout', hNext :: recycled, hrun, ?_,
        (Steady.removed s layout hNext).trans ⟨haside, hends, hsame⟩, ?_⟩
      · rw [Set.insert_sdiff_self_of_notMem
          (Set.notMem_singleton_iff.2 hne)] at hw'
        exact hw'
      · intro next hh
        by_contra hfree'
        rw [hinUse] at hfree'
        rw [hlink] at hh
        have hpair : (s.removed hNext).FreePair layout hNext next :=
          ⟨hmem', hh, fun hh => hused (((s.rebinned_removed _).inUse _).1 hh),
            hfree'⟩
        rcases hw.apart _ _ hpair.of_removed with heq | heq
        · exact hne heq
        · exact hback (heq ▸ hh)

theorem coalescePrev (hw : s.WellFormed layout recycled {h} {h})
    (hnext : ∀ next, (s.chunk h).next = some next → (s.chunk next).InUse) :
    ∃ h' s' layout' recycled', ArenaM.coalescePrev h s = .ok h' s' ∧
      s'.WellFormed layout' recycled' {h'} ∅ ∧ Steady s layout s' layout' := by
  obtain ⟨hmem, hfree⟩ := hw.free_of_loose h rfl
  -- No free chunk before it is left, so no two free chunks are neighbours.
  have hdone (hprev : ∀ prev, (s.chunk h).prev = some prev →
      (s.chunk prev).InUse) : s.WellFormed layout recycled {h} ∅ := by
    refine ⟨hw.shape, hw.binned, hw.free_of_loose, fun left right hpair => ?_⟩
    rcases hw.apart left right hpair with heq | heq
    · obtain rfl : left = h := heq
      exact absurd (hnext right hpair.next) hpair.right
    · obtain rfl : right = h := heq
      exact absurd (hprev left (hw.shape.prev_of_next hpair.mem hpair.next))
        hpair.left
  rw [ArenaM.coalescePrev, bind_eq_of_ok (chunkFromHandle_eq (hw.bounded hmem))]
  cases hprev : (s.chunk h).prev with
  | none =>
    refine ⟨h, s, layout, recycled, rfl, hdone ?_, .refl s layout⟩
    rw [hprev]
    exact nofun
  | some hPrev =>
    obtain ⟨hmem', hlink⟩ := hw.shape.next_of_prev hmem hprev
    have hne := hw.shape.next_ne hmem' hlink
    dsimp only
    rw [bind_eq_of_ok (chunkFromHandle_eq (hw.bounded hmem'))]
    by_cases hused : (s.chunk hPrev).InUse
    · rw [if_pos hused]
      refine ⟨h, s, layout, recycled, rfl, hdone ?_, .refl s layout⟩
      rw [hprev]
      rintro _ ⟨⟩
      exact hused
    · rw [if_neg hused, bind_eq_of_ok
        (hw.removeFreeChunkFromBin_eq hmem' hused hne.symm)]
      have hlink' : ((s.removed hPrev).chunk hPrev).next = some h :=
        ((s.rebinned_removed hPrev).next hPrev).trans hlink
      have hapart : ∀ left right, right ≠ h → (left = hPrev ∧
          (s.removed hPrev).FreePair layout h right ∨ left ≠ hPrev ∧
          left ≠ h ∧ (s.removed hPrev).FreePair layout left right) →
            left ∈ (∅ : Set ChunkHandle) ∨ right ∈ (∅ : Set ChunkHandle) := by
        rintro left right hright (⟨-, hpair⟩ | ⟨-, hleft, hpair⟩)
        · exact absurd (hnext right hpair.of_removed.next)
            hpair.of_removed.right
        · exact absurd (hw.apart _ _ hpair.of_removed)
            (not_or.2 ⟨hleft, hright⟩)
      obtain ⟨s', layout', hrun, hw', -, -, -, -, -, haside, hends, hsame⟩ :=
        (hw.removed hmem' hused).merge (Set.mem_insert hPrev {h})
          (Set.mem_insert_of_mem hPrev rfl) hlink' hapart
      refine ⟨hPrev, s', layout', h :: recycled, ?_, ?_,
        (Steady.removed s layout hPrev).trans ⟨haside, hends, hsame⟩⟩
      · rw [bind_eq_of_ok hrun]
        rfl
      · rw [Set.pair_comm, Set.insert_sdiff_self_of_notMem
          (Set.notMem_singleton_iff.2 hne)] at hw'
        exact hw'

section

variable (hw : s.WellFormed layout recycled ∅ ∅) (hmem : h ∈ handlesOf layout)
  (hused : (s.chunk h).InUse)
include hw hmem hused

/-- A chunk in use becomes loose; its neighbours are still to be looked at. -/
theorem released :
    (s.marked h requested (-1) nextId stats).WellFormed layout recycled
      {h} {h} := by
  have hfree : ¬ ((s.marked h requested (-1) nextId stats).chunk h).InUse := by
    rw [chunk_marked, if_pos rfl]
    exact fun hh => hh rfl
  refine ⟨hw.shape.congr rfl rfl rfl node_chunk_marked,
    hw.binned_marked (fun hidle => hidle.2.1 hused)
      (fun hidle => hidle.2.2 rfl) fun other hne => ?_, ?_, ?_⟩
  · exact iff_of_false hne id
  · rintro other rfl
    exact ⟨hmem, hfree⟩
  · rintro left right ⟨hleft, hlink, hfirst, hsecond⟩
    by_contra hnot
    obtain ⟨hne, hne'⟩ : left ≠ h ∧ right ≠ h := not_or.1 hnot
    rw [chunk_marked, if_neg hne] at hlink hfirst
    rw [chunk_marked, if_neg hne'] at hsecond
    exact (hw.apart left right ⟨hleft, hlink, hfirst, hsecond⟩).elim id id

theorem freeAndMaybeCoalesce_eq :
    ArenaM.freeAndMaybeCoalesce h s = (do
        ArenaM.coalesceNext h
        let chunkToReassign ← ArenaM.coalescePrev h
        insertFreeChunkIntoBin chunkToReassign)
      (s.marked h (s.chunk h).requestedSize (-1) s.nextAllocationId
        (s.stats.freed (s.chunk h).size)) := by
  have hbin := hw.binned.binNum_other h fun hidle => hidle.2.1 hused
  rw [ArenaM.freeAndMaybeCoalesce, bind_eq_of_ok (chunkFromHandle_eq
    (hw.bounded hmem)), enforce_of ⟨hused, hbin⟩, bind_eq_of_ok
    (pure_apply _ _), bind_eq_of_ok (modifyChunk_apply _ _ _)]
  rfl

/-- The chunk is free afterwards, whatever it was merged with. -/
theorem freeAndMaybeCoalesce :
    ∃ s' layout' recycled', ArenaM.freeAndMaybeCoalesce h s = .ok () s' ∧
      s'.WellFormed layout' recycled' ∅ ∅ ∧
      s'.aside = { s with stats := s.stats.freed (s.chunk h).size }.aside ∧
      ends layout' = ends layout ∧
      s'.usedAt layout' h = none ∧
      ∀ other, other ≠ h → s'.usedAt layout' other = s.usedAt layout other := by
  have hreleased : (s.marked h (s.chunk h).requestedSize (-1)
      s.nextAllocationId (s.stats.freed (s.chunk h).size)).WellFormed layout
        recycled {h} {h} := hw.released hmem hused
  obtain ⟨s₂, layout₂, recycled₂, hrun₂, hw₂, hsteady₂, hnext⟩ :=
    hreleased.coalesceNext
  obtain ⟨h₃, s₃, layout₃, recycled₃, hrun₃, hw₃, hsteady₃⟩ :=
    hw₂.coalescePrev hnext
  obtain ⟨hmem₃, hfree₃⟩ := hw₃.free_of_loose h₃ rfl
  have hinserted := hw₃.inserted (Set.mem_singleton h₃)
  rw [Set.sdiff_self] at hinserted
  have hsteady := (hsteady₂.trans hsteady₃).trans (.inserted s₃ layout₃ h₃)
  refine ⟨s₃.inserted h₃, layout₃, recycled₃, ?_, hinserted,
    hsteady.aside_eq, hsteady.ends_eq, ?_, ?_⟩
  · rw [hw.freeAndMaybeCoalesce_eq hmem hused, bind_eq_of_ok hrun₂,
      bind_eq_of_ok hrun₃]
    exact insertFreeChunkIntoBin_eq (hw₃.bounded hmem₃) hfree₃
      (hw₃.binned.binNum_other h₃ fun hidle => hidle.2.2 rfl)
  · rw [hsteady.usedAt_eq, usedAt, if_neg]
    rw [chunk_marked, if_pos rfl]
    exact fun hh => hh.2 rfl
  · intro other hne
    rw [hsteady.usedAt_eq, usedAt_marked_of_ne hne]

end

/-- The chunk is found by its address. -/
theorem deallocateRawInternal_eq
    (hw : s.WellFormed layout recycled loose pending)
    (hmem : h ∈ handlesOf layout) :
    deallocateRawInternal (s.chunk h).ptr s =
      ArenaM.freeAndMaybeCoalesce h s := by
  rw [deallocateRawInternal, bind_eq_of_ok (get_apply s),
    hw.shape.getHandle_ptr hmem]

theorem of_mem_bins (hw : s.WellFormed layout recycled loose pending) {b : Nat}
    (hmem : h ∈ s.bins b) : h < s.numChunks ∧ ¬ (s.chunk h).InUse := by
  obtain ⟨⟨hlive, hfree, -⟩, -⟩ := (hw.binned.mem_iff b h).1 hmem
  exact ⟨hw.bounded hlive, hfree⟩

section

variable (hw : s.WellFormed layout recycled ∅ pending)
include hw

/-- A candidate is in one of the bins that are searched. -/
theorem candidate_mem (hcandidate : s.Candidate layout rounded h) :
    h ∈ s.bins (binNumForSize (s.chunk h).size) ∧
      binNumForSize (s.chunk h).size ∈ List.range' (binNumForSize rounded)
        (kNumBins - binNumForSize rounded) := by
  have hle := binNumForSize_mono hcandidate.fits
  have hlt := binNumForSize_lt (s.chunk h).size
  refine ⟨(hw.binned.mem_iff _ h).2
    ⟨⟨hcandidate.mem, hcandidate.free, id⟩, rfl⟩, mem_range'_1.2 ?_⟩
  omega

theorem searchBins_none (hnone : firstFitFrom s rounded = none)
    (h : ChunkHandle) :
    ¬ s.Candidate layout rounded h := by
  intro hcandidate
  obtain ⟨hmem, hbin⟩ := hw.candidate_mem hcandidate
  have hfind := findSome?_eq_none_iff.1 hnone _ hbin
  rw [firstFit, map_eq_none_iff] at hfind
  exact find?_eq_none.1 hfind h hmem (by simpa using hcandidate.fits)

/-- The first chunk that fits in the first bin that has one. -/
theorem searchBins_some {b : Nat}
    (hsome : firstFitFrom s rounded = some (b, h)) :
    b = binNumForSize (s.chunk h).size ∧ s.BestFit layout rounded h := by
  obtain ⟨front, bin, back, hsplit, hfind, hfront⟩ :=
    findSome?_eq_some_iff.1 hsome
  rw [firstFit, map_eq_some_iff] at hfind
  obtain ⟨_, hfind, ⟨⟩⟩ := hfind
  obtain ⟨hfits, before, after, hbin, hbefore⟩ :=
    find?_eq_some_iff_append.1 hfind
  have hmem : h ∈ s.bins b := by
    rw [hbin]
    simp
  obtain ⟨⟨hlive, hfree, -⟩, hb⟩ := (hw.binned.mem_iff b h).1 hmem
  have hsorted := hw.binned.sorted b
  rw [hbin, pairwise_append, pairwise_cons] at hsorted
  refine ⟨hb, ⟨hlive, hfree, by simpa using hfits⟩, fun other hother => ?_⟩
  obtain ⟨hmem', hrange⟩ := hw.candidate_mem hother
  rw [hsplit, mem_append, mem_cons] at hrange
  rcases hrange with hrange | hrange | hrange
  · -- The bins before it have no chunk that fits.
    have hnone := hfront _ hrange
    rw [firstFit, map_eq_none_iff] at hnone
    exact absurd (by simpa using hother.fits)
      (find?_eq_none.1 hnone other hmem')
  · rw [hrange, hbin, mem_append, mem_cons] at hmem'
    rcases hmem' with hmem' | heq | hmem'
    · have hsmall := hbefore other hmem'
      rw [Bool.not_eq_true', decide_eq_false_iff_not] at hsmall
      exact absurd hother.fits hsmall
    · exact .inl heq
    · exact .inr (hsorted.2.1.1 other hmem')
  · right
    have hlt : b < binNumForSize (s.chunk other).size := by
      have hpairs : (List.range' (binNumForSize rounded)
          (kNumBins - binNumForSize rounded)).Pairwise (· < ·) :=
        pairwise_lt_range'
      rw [hsplit, pairwise_append, pairwise_cons] at hpairs
      exact hpairs.2.1.1 _ hrange
    have hsize : (s.chunk h).size < (s.chunk other).size := by
      by_contra hle
      have hmono := binNumForSize_mono (Nat.le_of_not_lt hle)
      omega
    simp only [chunkBefore, ne_eq, hsize.ne, not_false_eq_true, if_true,
      decide_eq_true_eq]
    exact hsize

end

/-- The loose chunk is cut if it can spare something. -/
theorem spare (hw : s.WellFormed layout recycled {h} ∅) (hpos : 0 < rounded)
    (hdvd : kMinAllocationSize ∣ rounded) (hfits : rounded ≤ (s.chunk h).size) :
    ∃ s' layout' recycled' pending',
      (∀ rest : Unit → ArenaM Nat, (if sizeMul rounded 2 ≤ (s.chunk h).size ∨
          maxInternalFragmentation ≤ sizeSub (s.chunk h).size rounded then
        ArenaM.splitChunk h rounded >>= rest
      else rest ()) s = rest () s') ∧
      s'.WellFormed layout' recycled' {h} pending' ∧ pending' ⊆ {h} ∧
      (s'.chunk h).ptr = (s.chunk h).ptr ∧
      (s'.chunk h).size = handedSize (s.chunk h).size rounded ∧
      Steady s layout s' layout' := by
  obtain ⟨hmem, -⟩ := hw.free_of_loose h rfl
  obtain ⟨r, -, hbase, -, -, hend, -, hbound, hsmall⟩ :=
    hw.shape.chunk_within hmem
  have hlt : rounded * 2 < sizeBound := by
    rw [sizeBound]
    omega
  rw [handedSize, sizeMul_eq hlt, sizeSub_eq hfits (by omega)]
  split
  · rename_i hspare
    have hcut : rounded < (s.chunk h).size := by
      rw [maxInternalFragmentation] at hspare
      omega
    obtain ⟨s', layout', recycled', hrun, hw', hptr, hsize, haside, hends,
      hsame⟩ := hw.splitChunk hpos hcut hdvd
    exact ⟨s', layout', recycled', {h}, fun _ => bind_eq_of_ok hrun, hw',
      subset_rfl, hptr, hsize, haside, hends, hsame⟩
  · exact ⟨s, layout, recycled, ∅, fun _ => rfl, hw, Set.empty_subset _, rfl,
      rfl, .refl s layout⟩

variable (hw : s.WellFormed layout recycled ∅ ∅)
include hw

theorem takeChunk {numBytes : Nat} (hcandidate : s.Candidate layout rounded h)
    (hpos : 0 < rounded) (hdvd : kMinAllocationSize ∣ rounded) :
    ∃ s' layout' recycled',
      ArenaM.takeChunk (binNumForSize (s.chunk h).size) h rounded numBytes s =
        .ok (s.chunk h).ptr s' ∧
      s'.WellFormed layout' recycled' ∅ ∅ ∧
      s.Takes layout h rounded numBytes s' layout' := by
  obtain ⟨hmem, hfree, hfits⟩ := hcandidate
  have hremoved := hw.removed hmem hfree
  rw [insert_empty_eq] at hremoved
  have hsize₁ := (s.rebinned_removed h).size h
  have hptr₁ := (s.rebinned_removed h).ptr h
  obtain ⟨s₂, layout₂, recycled₂, pending₂, hrun₂, hw₂, hpending, hptr₂, hsize₂,
    hsteady₂⟩ := hremoved.spare hpos hdvd (by rw [hsize₁]; exact hfits)
  have hsteady := (Steady.removed s layout h).trans hsteady₂
  rw [hsize₁] at hsize₂
  rw [hptr₁] at hptr₂
  obtain ⟨hmem₂, -⟩ := hw₂.free_of_loose h rfl
  have hid : (s₂.nextAllocationId : Int) ≠ -1 := by omega
  have haside := hsteady.aside_eq
  refine ⟨s₂.marked h numBytes s₂.nextAllocationId (s₂.nextAllocationId + 1)
      (s₂.stats.allocated (s₂.chunk h).size), layout₂, recycled₂, ?_,
    hw₂.taken hpending hid, ?_, hsteady.ends_eq, ?_, ?_⟩
  · rw [ArenaM.takeChunk, bind_eq_of_ok (ArenaM.removeFreeChunkIterFromBin_eq
      hw.binned (hw.bounded hmem) ⟨hmem, hfree, id⟩ rfl),
      bind_eq_of_ok (chunkFromHandle_eq (hremoved.bounded hmem))]
    refine (hrun₂ _).trans ?_
    beta_reduce
    rw [bind_eq_of_ok (get_apply s₂), bind_eq_of_ok (chunkFromHandle_eq
      (hw₂.bounded hmem₂)), hptr₂]
    rfl
  · simp only [aside, Prod.mk.injEq] at haside
    obtain ⟨hlimit, hcurr, hstarted, hnextId, hstats, hreserved, hanswers,
      hrequests⟩ := haside
    rw [← hsize₂, aside, aside, marked]
    dsimp only [modifyChunk]
    rw [hlimit, hcurr, hstarted, hnextId, hstats, hreserved, hanswers,
      hrequests]
  · rw [usedAt, chunk_marked, if_pos rfl, if_pos ⟨hmem₂, hid⟩, ← hsize₂, ← hptr₂]
  · intro other hne
    rw [usedAt_marked_of_ne hne, hsteady.usedAt_eq]

/-- The search takes the chunk that fits best, if there is one. -/
theorem findChunkPtr (hpos : 0 < rounded) (hdvd : kMinAllocationSize ∣ rounded)
    (numBytes : Nat) :
    (∀ h, ¬ s.Candidate layout rounded h) ∧
      ArenaM.findChunkPtr (binNumForSize rounded) rounded numBytes s = .ok 0 s ∨
    ∃ h s' layout' recycled', s.BestFit layout rounded h ∧
      ArenaM.findChunkPtr (binNumForSize rounded) rounded numBytes s =
        .ok (s.chunk h).ptr s' ∧
      s'.WellFormed layout' recycled' ∅ ∅ ∧
      s.Takes layout h rounded numBytes s' layout' := by
  rw [ArenaM.findChunkPtr, bind_eq_of_ok
    (ArenaM.searchBins_eq (fun b other hmem => hw.of_mem_bins hmem) _),
    ← firstFitFrom]
  cases hsearch : firstFitFrom s rounded with
  | none => exact .inl ⟨hw.searchBins_none hsearch, rfl⟩
  | some found =>
    obtain ⟨b, h⟩ := found
    obtain ⟨rfl, hbest⟩ := hw.searchBins_some hsearch
    obtain ⟨s', layout', recycled', hrun, hw', htakes⟩ :=
      hw.takeChunk hbest.toCandidate hpos hdvd
    exact .inr ⟨h, s', layout', recycled', hbest, hrun, hw', htakes⟩

end WellFormed

end BFCArena

end OnnxRuntime
