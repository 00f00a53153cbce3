/-
The arena takes more memory from the device.  A block that is apart from all
regions becomes a region with one free chunk, and the search that failed before
then finds a chunk.
-/
import OnnxRuntime.ArenaSearch
import OnnxRuntime.ArenaExtend

namespace OnnxRuntime

open List Tiles RegionLayout ArenaM

variable {s s' : BFCArena} {layout layout' : List RegionLayout}
  {recycled : List ChunkHandle} {loose pending : Set ChunkHandle}
  {h h' : ChunkHandle} {rounded bytes base : Nat}

namespace RegionManager

/-- The table of a new region gets its first entry. -/
theorem setHandle_addAllocationRegion (hbytes : kMinAllocationSize ≤ bytes)
    (hstop : base + bytes < sizeBound) (value : Option ChunkHandle)
    (regions : RegionManager) :
    setHandle base value (regions.addAllocationRegion
        ⟨base, bytes, fun _ => none⟩) =
      .ok (regions.addAllocationRegion
        ⟨base, bytes, Function.update (fun _ => none) 0 value⟩) := by
  have hend : sizeAdd base bytes = base + bytes := sizeAdd_eq hstop
  have hlt : base < (AllocationRegion.mk base bytes fun _ => none).endPtr := by
    rw [AllocationRegion.endPtr, hend]
    exact Nat.lt_add_of_pos_right (Nat.lt_of_lt_of_le (by decide) hbytes)
  have hunits : 0 < bytes / kMinAllocationSize :=
    Nat.div_pos hbytes (by decide)
  have hindex : (AllocationRegion.mk base bytes fun _ => none).indexFor base =
      .ok 0 := by
    have hzero : toInt32 ((base - base) / kMinAllocationSize) = 0 := by
      rw [Nat.sub_self]
      rfl
    rw [AllocationRegion.endPtr] at hlt
    rw [AllocationRegion.indexFor, if_neg (Nat.lt_irrefl base),
      if_neg (Nat.not_le.2 hlt)]
    dsimp only
    rw [hzero, if_neg (by omega)]
    rfl
  have hset : (AllocationRegion.mk base bytes fun _ => none).setHandle base
      value = .ok ⟨base, bytes, Function.update (fun _ => none) 0 value⟩ := by
    rw [AllocationRegion.setHandle, hindex]
    rfl
  induction regions with
  | nil =>
    rw [addAllocationRegion, setHandle, if_pos hlt, hset]
    rfl
  | cons region rest ih =>
    rw [addAllocationRegion, addAllocationRegion]
    by_cases hbefore : base < region.endPtr
    · rw [if_pos hbefore, if_pos hbefore, setHandle, if_pos hlt, hset]
      rfl
    · rw [if_neg hbefore, if_neg hbefore, setHandle, if_neg hbefore, ih]
      rfl

end RegionManager

namespace BFCArena

/-- A region is there, and counted, but has no chunk yet. -/
def enlarged (s : BFCArena) (regions : RegionManager)
    (stats : AllocatorStats) : BFCArena :=
  { s with regions := regions, stats := stats }

/-- Finding a chunk record looks neither at the regions nor at the counters. -/
theorem allocateChunk_enlarged {regions : RegionManager}
    {stats : AllocatorStats} (hbound : ∀ first,
      s.freeChunksList = some first → first < s.numChunks)
    (hrun : allocateChunk s = .ok h s') :
    allocateChunk (s.enlarged regions stats) =
      .ok h (s'.enlarged regions stats) := by
  cases hlist : s.freeChunksList with
  | none =>
    rw [allocateChunk_of_none hlist] at hrun
    cases hrun
    exact allocateChunk_of_none hlist
  | some first =>
    have hlt := hbound first hlist
    rw [allocateChunk_of_some hlist hlt] at hrun
    cases hrun
    exact allocateChunk_of_some hlist hlt

/-- The chunks with all that keeps track of them. -/
def heap (s : BFCArena) : RegionManager × (ChunkHandle → Chunk) × Nat ×
    Option ChunkHandle × (Nat → List ChunkHandle) :=
  (s.regions, s.chunk, s.numChunks, s.freeChunksList, s.bins)

/-- The part of the arena that questions to the device leave alone. -/
def core (s : BFCArena) : (RegionManager × (ChunkHandle → Chunk) × Nat ×
    Option ChunkHandle × (Nat → List ChunkHandle)) × AllocatorStats ×
    List (Nat × Nat) × Nat :=
  (s.heap, s.stats, s.reservedChunks, s.nextAllocationId)

theorem WellFormed.of_heap (hw : s.WellFormed layout recycled loose pending)
    (hheap : s'.heap = s.heap) :
    s'.WellFormed layout recycled loose pending := by
  simp only [heap, Prod.mk.injEq] at hheap
  obtain ⟨hregions, hchunk, hnum, hlist, hbins⟩ := hheap
  refine ⟨hw.shape.congr hregions hnum hlist fun other => by rw [hchunk],
    hw.binned.frame hbins (fun other => ?_) (fun other _ => ?_)
      fun other hidle => ?_, ?_, ?_⟩
  · rw [Idle, Idle, hchunk]
  · rw [hchunk]
    exact ⟨rfl, rfl, rfl⟩
  · rw [hchunk]
    exact hw.binned.binNum_other other hidle
  · rw [hchunk]
    exact hw.free_of_loose
  · rintro left right ⟨hleft, hlink, hfirst, hsecond⟩
    rw [hchunk] at hlink hfirst hsecond
    exact hw.apart left right ⟨hleft, hlink, hfirst, hsecond⟩

theorem usedAt_of_heap (hheap : s'.heap = s.heap) :
    s'.usedAt layout h = s.usedAt layout h := by
  simp only [heap, Prod.mk.injEq] at hheap
  rw [usedAt, usedAt, hheap.2.1]

/-- A block that can become a region. -/
structure Usable (layout : List RegionLayout) (base bytes : Nat) : Prop where
  pos : 0 < base
  stop_lt : base + bytes < sizeBound
  small : bytes ≤ 2 ^ 39
  apart : ∀ r ∈ layout, r.stop ≤ base ∨ base + bytes ≤ r.base

/-- The chunk of a new region, not yet in a bin. -/
def started (s : BFCArena) (h : ChunkHandle) (base bytes : Nat) : BFCArena :=
  s.modifyChunk h fun c => { c with
    ptr := base
    size := bytes
    allocationId := -1
    prev := none
    next := none }

theorem WellFormed.recycled_lt (hw : s.WellFormed layout recycled loose pending)
    (hlist : s.freeChunksList = some h) : h < s.numChunks := by
  have hfree := hw.shape.freeList
  cases recycled with
  | nil => cases hlist.symm.trans hfree
  | cons first rest =>
    cases hlist.symm.trans hfree.1
    exact hw.shape.bounded h (by simp)

/-- Everything up to the bin of the new chunk. -/
theorem ArenaM.addRegion_eq {mid : BFCArena}
    (hbound : ∀ first, s.freeChunksList = some first → first < s.numChunks)
    (hrun : ArenaM.allocateChunk s = .ok h mid) (hmid : h < mid.numChunks)
    (hle : kMinAllocationSize ≤ bytes) (hstop : base + bytes < sizeBound)
    (hdvd : kMinAllocationSize ∣ bytes) :
    ArenaM.addRegion base bytes s = insertFreeChunkIntoBin h
      ((mid.started h base bytes).enlarged (s.regions.addAllocationRegion
        ⟨base, bytes, Function.update (fun _ => none) 0 (some h)⟩)
          (s.stats.extended bytes)) := by
  have hstart : ArenaM.addRegion base bytes s = (do
      let h ← ArenaM.allocateChunk
      let _ ← chunkFromHandle h
      ArenaM.modifyChunk h fun c => { c with
        ptr := base
        size := bytes
        allocationId := -1
        prev := none
        next := none }
      setHandle base (some h)
      insertFreeChunkIntoBin h) (s.enlarged
        (s.regions.addAllocationRegion ⟨base, bytes, fun _ => none⟩)
          (s.stats.extended bytes)) := by
    rw [ArenaM.addRegion, bind_eq_of_ok (modify_apply _ _), enforce_of
      (Nat.mod_eq_zero_of_dvd hdvd), bind_eq_of_ok (pure_apply _ _)]
    rfl
  rw [hstart, bind_eq_of_ok (allocateChunk_enlarged hbound hrun),
    bind_eq_of_ok (chunkFromHandle_eq ?_), bind_eq_of_ok
    (modifyChunk_apply _ _ _), bind_eq_of_ok (setHandle_apply ?_)]
  · rfl
  · exact RegionManager.setHandle_addAllocationRegion hle hstop (some h)
      s.regions
  · exact hmid

theorem WellFormed.addRegion (hw : s.WellFormed layout recycled ∅ ∅)
    (hblock : Usable layout base bytes) (hpos : 0 < bytes)
    (hdvd : kMinAllocationSize ∣ bytes) :
    ∃ s' layout' recycled' h, ArenaM.addRegion base bytes s = .ok () s' ∧
      s'.WellFormed layout' recycled' ∅ ∅ ∧
      s'.aside = { s with stats := s.stats.extended bytes }.aside ∧
      List.Perm (ends layout') ((base, base + bytes) :: ends layout) ∧
      (∀ other, s'.usedAt layout' other = s.usedAt layout other) ∧
      s'.Candidate layout' bytes h := by
  obtain ⟨h, mid, recycled', hrun, hmid, hnew, hbound, hregions, haside,
    hsame⟩ := hw.allocateChunk
  have hnewLive : h ∉ handlesOf layout := fun hh =>
    hnew (mem_append_left _ hh)
  have hrun₂ := ArenaM.addRegion_eq (fun _ => hw.recycled_lt) hrun hbound
    (Nat.le_of_dvd hpos hdvd) hblock.stop_lt hdvd
  generalize hs₂ : (mid.started h base bytes).enlarged
    (s.regions.addAllocationRegion
      ⟨base, bytes, Function.update (fun _ => none) 0 (some h)⟩)
        (s.stats.extended bytes) = s₂ at hrun₂
  have hself : s₂.chunk h = { mid.chunk h with
      ptr := base
      size := bytes
      allocationId := -1
      prev := none
      next := none } := by
    rw [← hs₂, enlarged, started, chunk_modifyChunk, if_pos rfl]
  have hother : ∀ other, other ≠ h → s₂.chunk other = mid.chunk other := by
    intro other hne
    rw [← hs₂, enlarged, started, chunk_modifyChunk, if_neg hne]
  have hfree : ¬ (s₂.chunk h).InUse := by
    rw [hself]
    exact fun hh => hh rfl
  obtain ⟨layout', hshape, hperm⟩ : ∃ layout', Shape s₂ layout' recycled' ∧
      List.Perm layout' (⟨base, [⟨h, bytes⟩]⟩ :: layout) :=
    hmid.shape.addRegion hnew hbound hblock.pos hpos hblock.stop_lt
      hblock.small hdvd hblock.apart (by rw [← hs₂, hregions]; rfl)
      (by rw [← hs₂]; rfl) (by rw [← hs₂]; rfl) (by rw [hself]; rfl)
      fun other hne => by rw [hother other hne]
  have hlive : ∀ other, other ∈ handlesOf layout' ↔
      other = h ∨ other ∈ handlesOf layout := fun other =>
    (hperm.flatMap_right _).mem_iff.trans (by simp [handlesOf, handles])
  have hw₂ : s₂.WellFormed layout' recycled' {h} ∅ := by
    refine ⟨hshape, hmid.binned.frame (by rw [← hs₂]; rfl) (fun other => ?_)
      (fun other hidle => ?_) fun other hidle => ?_, ?_, ?_⟩
    · rw [Idle, Idle, hlive]
      by_cases hne : other = h
      · simp [hne, hnewLive]
      · rw [hother other hne]
        simp [hne]
    · rw [hother other fun heq => hnewLive (heq ▸ hidle.1)]
      exact ⟨rfl, rfl, rfl⟩
    · have hbin := hmid.binned.binNum_other other hidle
      by_cases hne : other = h
      · rw [hne, hself]
        exact hne ▸ hbin
      · rw [hother other hne]
        exact hbin
    · rintro other rfl
      exact ⟨(hlive _).2 (.inl rfl), hfree⟩
    · rintro left right ⟨hleft, hlink, hfirst, hsecond⟩
      have hne : left ≠ h := by
        rintro rfl
        rw [hself] at hlink
        cases hlink
      have hleft := ((hlive left).1 hleft).resolve_left hne
      rw [hother left hne] at hlink hfirst
      have hright := hmid.shape.next_mem hleft hlink
      rw [hother right fun heq => hnewLive (heq ▸ hright)] at hsecond
      exact hmid.apart left right ⟨hleft, hlink, hfirst, hsecond⟩
  have hsteady := Steady.inserted s₂ layout' h
  have hfinal := hw₂.inserted (Set.mem_singleton h)
  rw [Set.sdiff_self] at hfinal
  refine ⟨s₂.inserted h, layout', recycled', h, ?_, hfinal, ?_, ?_, ?_, ?_⟩
  · rw [hrun₂]
    exact insertFreeChunkIntoBin_eq (hw₂.bounded ((hlive h).2 (.inl rfl)))
      hfree (hw₂.binned.binNum_other h fun hidle => hidle.2.2 rfl)
  · rw [← hs₂]
    simp only [aside, Prod.mk.injEq] at haside ⊢
    obtain ⟨hlimit, hcurr, hstarted, hnextId, -, hreserved, hanswers,
      hrequests⟩ := haside
    exact ⟨hlimit, hcurr, hstarted, hnextId, rfl, hreserved, hanswers, hrequests⟩
  · refine (hperm.map _).trans ?_
    simp [ends, stop]
  · intro other
    rw [hsteady.usedAt_eq]
    refine usedAt_congr ?_ fun hmem _ => ?_
    · rw [hlive]
      by_cases hne : other = h
      · rw [hne]
        exact iff_of_false (fun hh => hfree hh.2) fun hh => hnewLive hh.1
      · rw [hother other hne, or_iff_right hne]
        exact and_congr_right fun hmem => by rw [hsame other hmem]
    · rw [hother other fun heq => hnewLive (heq ▸ hmem), hsame other hmem]
      exact ⟨rfl, rfl, rfl⟩
  · refine ⟨(hlive h).2 (.inl rfl), ?_, ?_⟩
    · rw [(s₂.rebinned_inserted h).inUse]
      exact hfree
    · rw [(s₂.rebinned_inserted h).size, hself]

/-- The arena has at most one region more, and the chunks in use are the same. -/
structure Grown (s : BFCArena) (layout : List RegionLayout) (s' : BFCArena)
    (layout' : List RegionLayout) (block : Option DeviceRequest) : Prop where
  reserved_eq : s'.reservedChunks = s.reservedChunks
  stats_eq : s'.stats = block.elim s.stats fun b => s.stats.extended b.bytes
  ends_perm : List.Perm (ends layout') (block.toList.map (fun b =>
    (b.answer, b.answer + b.bytes)) ++ ends layout)
  usedAt_eq : ∀ h, s'.usedAt layout' h = s.usedAt layout h

theorem Grown.of_core {s₀ : BFCArena} {block : Option DeviceRequest}
    (hcore : s₀.core = s.core) (hgrown : s₀.Grown layout s' layout' block) :
    s.Grown layout s' layout' block := by
  simp only [core, Prod.mk.injEq] at hcore
  obtain ⟨hheap, hstats, hreserved, -⟩ := hcore
  exact ⟨hgrown.reserved_eq.trans hreserved, hstats ▸ hgrown.stats_eq,
    hgrown.ends_perm,
    fun h => (hgrown.usedAt_eq h).trans (usedAt_of_heap hheap)⟩

variable (hw : s.WellFormed layout recycled ∅ ∅)
include hw

/-- A block that was asked for and can be used becomes a region. -/
theorem WellFormed.addRegion_of_granted {s₁ : BFCArena}
    (hcore : s₁.core = s.core) (hgranted : ⟨bytes, base⟩ ∈ s₁.requests)
    (hbase : base ≠ 0) (hpos : 0 < rounded) (hle : rounded ≤ bytes)
    (hdvd : kMinAllocationSize ∣ bytes)
    (hdevice : ∀ request ∈ (endState ((ArenaM.addRegion base bytes >>=
      fun _ => pure true) s₁)).requests, request.answer ≠ 0 →
        Usable layout request.answer request.bytes) :
    ∃ s' layout' recycled' h request,
      (ArenaM.addRegion base bytes >>= fun _ => pure true) s₁ = .ok true s' ∧
      s'.WellFormed layout' recycled' ∅ ∅ ∧ request ∈ s'.requests ∧
      request.answer ≠ 0 ∧ s.Grown layout s' layout' (some request) ∧
      s'.Candidate layout' rounded h := by
  have hkept : (endState (ArenaM.addRegion base bytes s₁)).requests =
      s₁.requests := by
    have hledger := @ledger_addRegion base bytes hdvd s₁
    simp only [ledger, Prod.mk.injEq] at hledger
    exact hledger.2.2.2.2.2
  rw [endState_bind_pure, hkept] at hdevice
  have hblock := hdevice ⟨bytes, base⟩ hgranted hbase
  obtain ⟨s', layout', recycled', h, hrun, hw', haside, hends, hused,
      hcandidate⟩ :=
    (hw.of_heap (Prod.mk.inj hcore).1).addRegion hblock (hpos.trans_le hle) hdvd
  simp only [aside, Prod.mk.injEq] at haside
  obtain ⟨-, -, -, -, hstats, hreserved, -, hrequests⟩ := haside
  have hgrown : s₁.Grown layout s' layout' (some ⟨bytes, base⟩) :=
    ⟨hreserved, hstats, hends, hused⟩
  refine ⟨s', layout', recycled', h, ⟨bytes, base⟩, ?_, hw',
    hrequests ▸ hgranted, hbase, hgrown.of_core hcore, hcandidate.mem,
    hcandidate.free, hle.trans hcandidate.fits⟩
  rw [bind_eq_of_ok hrun]
  rfl

/-- What `Extend` comes to when the device only gives blocks that can be used:
nothing, a new region with a chunk that is large enough, or no end. -/
theorem WellFormed.extend
    (hunit : kMinAllocationSize ∣ s.currRegionAllocationBytes)
    (hpos : 0 < rounded)
    (hdevice : ∀ request ∈ (endState (ArenaM.extend rounded s)).requests,
      request.answer ≠ 0 → Usable layout request.answer request.bytes) :
    (∃ s', ArenaM.extend rounded s = .ok false s' ∧ s'.core = s.core) ∨
    (∃ s' layout' recycled' h request, ArenaM.extend rounded s = .ok true s' ∧
      s'.WellFormed layout' recycled' ∅ ∅ ∧ request ∈ s'.requests ∧
      request.answer ≠ 0 ∧ s.Grown layout s' layout' (some request) ∧
      s'.Candidate layout' rounded h) ∨
    Stalls (ArenaM.extend rounded s) := by
  rw [ArenaM.extend, extendWith, bind_eq_of_ok (get_apply s)] at hdevice ⊢
  by_cases hshort : s.availableBytes < rounded
  · rw [if_pos hshort]
    exact .inl ⟨s, rfl, rfl⟩
  rw [if_neg hshort] at hdevice ⊢
  cases hgrow : growRegion rounded 65 s.currRegionAllocationBytes with
  | none => exact .inr (.inr trivial)
  | some curr =>
    rw [hgrow] at hdevice
    dsimp only at hdevice ⊢
    rw [bind_eq_of_ok (modify_apply _ s)] at hdevice ⊢
    obtain ⟨-, hanswers, _, _, _, hkept⟩ :=
      asked_extend hunit (Nat.le_of_not_lt hshort) hgrow
    have hcore := congrArg core hkept
    cases hrun : askDevice backpedalBytes rounded (min curr s.availableBytes)
        { s with currRegionAllocationBytes := curr } with
    | error stop s₁ =>
      rw [bind_eq_of_error hrun, hanswers.stopped stop s₁ hrun]
      exact .inr (.inr trivial)
    | ok block s₁ =>
      obtain ⟨memAddr, granted⟩ := block
      rw [hrun] at hcore
      rw [bind_eq_of_ok hrun] at hdevice ⊢
      by_cases hnull : memAddr = 0
      · rw [if_pos hnull]
        exact .inl ⟨s₁, rfl, hcore⟩
      rw [if_neg hnull] at hdevice ⊢
      obtain ⟨hrequest, hle', hdvd'⟩ :=
        hanswers.granted memAddr granted s₁ hrun hnull
      right
      left
      split_ifs at hdevice ⊢
      · exact hw.addRegion_of_granted hcore hrequest hnull hpos hle' hdvd'
          hdevice
      · exact hw.addRegion_of_granted hcore hrequest hnull hpos hle' hdvd'
          hdevice

/-- A chunk is handed out for `n` bytes, perhaps from a new region. -/
structure Allocates (s : BFCArena) (layout : List RegionLayout) (n : Nat)
    (mid : BFCArena) (midLayout : List RegionLayout) (h : ChunkHandle)
    (s' : BFCArena) (layout' : List RegionLayout)
    (block : Option DeviceRequest) : Prop where
  grown : s.Grown layout mid midLayout block
  granted : ∀ b ∈ block, b.answer ≠ 0 ∧ b ∈ s'.requests
  best : mid.BestFit midLayout (roundedBytes n) h
  ptr_pos : 0 < (mid.chunk h).ptr
  takes : mid.Takes midLayout h (roundedBytes n) n s' layout'

omit hw in
theorem Takes.requests_eq {n : Nat}
    (htakes : s.Takes layout h rounded n s' layout') :
    s'.requests = s.requests := by
  have haside := htakes.aside_eq
  simp only [aside, Prod.mk.injEq] at haside
  exact haside.2.2.2.2.2.2.2

theorem WellFormed.ptr_pos (hmem : h ∈ handlesOf layout) :
    0 < (s.chunk h).ptr := by
  obtain ⟨r, -, hbase, -, -, -, hpos, -⟩ := hw.shape.chunk_within hmem
  exact hpos.trans_le hbase

/-- What `Alloc` comes to: no memory, a chunk, or no end. -/
theorem WellFormed.alloc {n : Nat}
    (hunit : kMinAllocationSize ∣ s.currRegionAllocationBytes) (hpos : 0 < n)
    (hn : n + 255 < sizeBound)
    (hdevice : ∀ request ∈ (endState (ArenaM.alloc n s)).requests,
      request.answer ≠ 0 → Usable layout request.answer request.bytes) :
    (∃ s', ArenaM.alloc n s = .ok 0 s' ∧ s'.core = s.core) ∨
    (∃ mid midLayout h s' layout' recycled' block,
      ArenaM.alloc n s = .ok (mid.chunk h).ptr s' ∧
      s'.WellFormed layout' recycled' ∅ ∅ ∧
      s.Allocates layout n mid midLayout h s' layout' block) ∨
    Stalls (ArenaM.alloc n s) := by
  have hrounded : 0 < roundedBytes n := hpos.trans_le (le_roundedBytes hn)
  have hdvd := kMinAllocationSize_dvd_roundedBytes n
  rw [ArenaM.alloc, if_neg hpos.ne'] at hdevice ⊢
  rcases hw.findChunkPtr hrounded hdvd n with ⟨-, hrun⟩ |
    ⟨h, s', layout', recycled', hbest, hrun, hw', htakes⟩
  · rw [bind_eq_of_ok hrun, if_neg (fun hh => hh rfl)] at hdevice ⊢
    have hkept : (endState (ArenaM.extend (roundedBytes n) s)).requests =
        (endState ((ArenaM.extend (roundedBytes n) >>= fun extended =>
          if extended then ArenaM.findChunkPtr (binNumForSize (roundedBytes n))
            (roundedBytes n) n else pure 0) s)).requests := by
      cases hextend : ArenaM.extend (roundedBytes n) s with
      | error stop s₁ => rw [bind_eq_of_error hextend]; rfl
      | ok extended s₁ =>
        rw [bind_eq_of_ok hextend]
        cases extended with
        | false => rfl
        | true =>
          have hledger := keeps_findChunkPtr
            (binNumForSize (roundedBytes n)) (roundedBytes n) n s₁
          simp only [ledger, Prod.mk.injEq] at hledger
          exact hledger.2.2.2.2.2.symm
    rcases hw.extend hunit hrounded (hkept ▸ hdevice) with
      ⟨s₁, hextend, hcore⟩ | ⟨s₁, layout₁, recycled₁, h₁, request, hextend,
        hw₁, hrequest, hanswer, hgrown, hcandidate⟩ | hstalls
    · rw [bind_eq_of_ok hextend]
      exact .inl ⟨s₁, rfl, hcore⟩
    · rw [bind_eq_of_ok hextend]
      rcases hw₁.findChunkPtr hrounded hdvd n with ⟨hnone, -⟩ |
        ⟨h, s', layout', recycled', hbest, hrun', hw', htakes⟩
      · exact absurd hcandidate (hnone h₁)
      · refine .inr (.inl ⟨s₁, layout₁, h, s', layout', recycled',
          some request, hrun', hw', hgrown, ?_, hbest, hw₁.ptr_pos hbest.mem,
          htakes⟩)
        rintro _ ⟨⟩
        exact ⟨hanswer, htakes.requests_eq ▸ hrequest⟩
    · right
      right
      cases hextend : ArenaM.extend (roundedBytes n) s with
      | ok extended s₁ =>
        rw [hextend] at hstalls
        cases hstalls
      | error stop s₁ =>
        rw [hextend] at hstalls
        rw [bind_eq_of_error hextend]
        cases stop <;> exact hstalls
  · rw [bind_eq_of_ok hrun, if_pos (hw.ptr_pos hbest.mem).ne']
    exact .inr (.inl ⟨s, layout, h, s', layout', recycled', none, rfl, hw',
      ⟨rfl, rfl, .refl _, fun _ => rfl⟩, fun _ hnone => (by cases hnone),
      hbest, hw.ptr_pos hbest.mem, htakes⟩)

end BFCArena

end OnnxRuntime
