/-
The operations on chunks: each one leads from a well-formed arena to another.
While an operation works on chunks they are loose, that is in no bin, and free
neighbours of pending chunks are still to be merged.
-/
import OnnxRuntime.ArenaBins
import OnnxRuntime.ArenaCuts

namespace OnnxRuntime

open Function List Tiles RegionLayout

variable {s s' : BFCArena} {layout : List RegionLayout}
  {recycled : List ChunkHandle} {loose pending : Set ChunkHandle}
  {h h' : ChunkHandle} {h2 h1 : ChunkHandle}

namespace BFCArena

/-- What the operations on chunks leave alone. -/
def aside (s : BFCArena) : Nat × Nat × Bool × Nat × AllocatorStats ×
    List (Nat × Nat) × List Nat × List DeviceRequest :=
  (s.memoryLimit, s.currRegionAllocationBytes, s.startedBackpedal,
    s.nextAllocationId, s.stats, s.reservedChunks, s.answers, s.requests)

/-- The address, the size and the requested size of a chunk that is in use. -/
def usedAt (s : BFCArena) (layout : List RegionLayout) (h : ChunkHandle) :
    Option (Nat × Nat × Nat) :=
  if h ∈ handlesOf layout ∧ (s.chunk h).InUse then
    some ((s.chunk h).ptr, (s.chunk h).size, (s.chunk h).requestedSize)
  else none

/-- A free chunk followed by a free chunk. -/
structure FreePair (s : BFCArena) (layout : List RegionLayout)
    (h h' : ChunkHandle) : Prop where
  mem : h ∈ handlesOf layout
  next : (s.chunk h).next = some h'
  left : ¬ (s.chunk h).InUse
  right : ¬ (s.chunk h').InUse

structure WellFormed (s : BFCArena) (layout : List RegionLayout)
    (recycled : List ChunkHandle) (loose pending : Set ChunkHandle) :
    Prop where
  shape : Shape s layout recycled
  binned : s.Binned (handlesOf layout) loose
  free_of_loose : ∀ h ∈ loose, h ∈ handlesOf layout ∧ ¬ (s.chunk h).InUse
  apart : ∀ h h', s.FreePair layout h h' → h ∈ pending ∨ h' ∈ pending

/-- The neighbour of a chunk, if there is one, gets another chunk before it. -/
def withPrev (s : BFCArena) (neighbor : Option ChunkHandle)
    (h : ChunkHandle) : BFCArena :=
  match neighbor with
  | none => s
  | some hNeighbor => s.modifyChunk hNeighbor fun c => { c with prev := some h }

def withRegions (s : BFCArena) (regions : RegionManager) : BFCArena :=
  { s with regions := regions }

theorem chunk_modifyChunk (s : BFCArena) (h h' : ChunkHandle)
    (f : Chunk → Chunk) : (s.modifyChunk h f).chunk h' =
      if h' = h then f (s.chunk h') else s.chunk h' := by
  by_cases heq : h' = h
  · simp [modifyChunk, heq]
  · simp [modifyChunk, heq]

theorem chunk_withPrev (s : BFCArena) (neighbor : Option ChunkHandle)
    (h h' : ChunkHandle) : (s.withPrev neighbor h).chunk h' =
      if neighbor = some h' then { s.chunk h' with prev := some h }
      else s.chunk h' := by
  cases neighbor with
  | none => simp [withPrev]
  | some hNeighbor =>
    rw [withPrev, chunk_modifyChunk]
    simp only [Option.some_inj, eq_comm]

/-- Nothing but a chunk changes. -/
theorem withPrev_frame (s : BFCArena) (neighbor : Option ChunkHandle)
    (h : ChunkHandle) : (s.withPrev neighbor h).regions = s.regions ∧
      (s.withPrev neighbor h).numChunks = s.numChunks ∧
      (s.withPrev neighbor h).freeChunksList = s.freeChunksList ∧
      (s.withPrev neighbor h).bins = s.bins ∧
      (s.withPrev neighbor h).aside = s.aside := by
  cases neighbor <;> exact ⟨rfl, rfl, rfl, rfl, rfl⟩

theorem Rebinned.node (hr : Rebinned s s') (h : ChunkHandle) :
    (s'.chunk h).node = (s.chunk h).node := by
  obtain ⟨binNum, hbinNum⟩ := hr h
  rw [hbinNum]
  rfl

theorem Rebinned.next (hr : Rebinned s s') (h : ChunkHandle) :
    (s'.chunk h).next = (s.chunk h).next :=
  congrArg TileNode.next (hr.node h)

/-- Where the regions begin and end. -/
def ends (layout : List RegionLayout) : List (Nat × Nat) :=
  layout.map fun r => (r.base, r.stop)

theorem ends_fill {place : Place} {tiles tiles' : List Tile}
    (htotal : total tiles' = total tiles) :
    ends (place.fill tiles') = ends (place.fill tiles) := by
  simp [ends, Place.fill, stop, htotal]

/-- The chunks in use are the same, and so is what is said about them. -/
theorem usedAt_congr {layout' : List RegionLayout}
    (hmem : h ∈ handlesOf layout' ∧ (s'.chunk h).InUse ↔
      h ∈ handlesOf layout ∧ (s.chunk h).InUse)
    (hsame : h ∈ handlesOf layout → (s.chunk h).InUse →
      (s'.chunk h).ptr = (s.chunk h).ptr ∧
      (s'.chunk h).size = (s.chunk h).size ∧
      (s'.chunk h).requestedSize = (s.chunk h).requestedSize) :
    s'.usedAt layout' h = s.usedAt layout h := by
  rw [usedAt, usedAt]
  by_cases hused : h ∈ handlesOf layout ∧ (s.chunk h).InUse
  · obtain ⟨hptr, hsize, hrequested⟩ := hsame hused.1 hused.2
    rw [if_pos hused, if_pos (hmem.2 hused), hptr, hsize, hrequested]
  · rw [if_neg hused, if_neg fun hh => hused (hmem.1 hh)]

theorem usedAt_rebinned (hr : Rebinned s s') (layout : List RegionLayout)
    (h : ChunkHandle) : s'.usedAt layout h = s.usedAt layout h := by
  obtain ⟨binNum, hbinNum⟩ := hr h
  rw [usedAt, hbinNum]
  rfl

end BFCArena

namespace ArenaM

open BFCArena

variable {regions : RegionManager}

theorem modifyChunk_apply (h : ChunkHandle) (f : Chunk → Chunk)
    (s : BFCArena) : modifyChunk h f s = .ok () (s.modifyChunk h f) := rfl

theorem setHandle_apply {p : Nat} {value : Option ChunkHandle}
    (hrun : s.regions.setHandle p value = .ok regions) :
    setHandle p value s = .ok () (s.withRegions regions) := by
  rw [setHandle, bind_eq_of_ok (get_apply s), hrun]
  rfl

theorem allocateChunk_of_some (hlist : s.freeChunksList = some h)
    (hbound : h < s.numChunks) :
    allocateChunk s = .ok h { s with freeChunksList := (s.chunk h).next } := by
  rw [allocateChunk, bind_eq_of_ok (get_apply s), hlist]
  dsimp only
  rw [bind_eq_of_ok (chunkFromHandle_eq hbound)]
  rfl

theorem allocateChunk_of_none (hlist : s.freeChunksList = none) :
    allocateChunk s = .ok s.numChunks { s with
      chunk := Function.update s.chunk s.numChunks {}
      numChunks := s.numChunks + 1 } := by
  rw [allocateChunk, bind_eq_of_ok (get_apply s)]
  nth_rewrite 1 [hlist]
  rfl

theorem setPrev_eq {neighbor : Option ChunkHandle}
    (hbound : ∀ other, neighbor = some other → other < s.numChunks) :
    setPrev neighbor h s = .ok () (s.withPrev neighbor h) := by
  cases neighbor with
  | none => rfl
  | some hNeighbor =>
    rw [setPrev, bind_eq_of_ok (chunkFromHandle_eq (hbound hNeighbor rfl))]
    rfl

/-- Everything `SplitChunk` does between finding a record for the new chunk and
putting it into its bin. -/
theorem splitChunk_eq {hNew : ChunkHandle} {n : Nat} {mid : BFCArena}
    (hrun : ArenaM.allocateChunk s = .ok hNew mid) (hbound : h < mid.numChunks)
    (hnew : hNew < mid.numChunks) (hne : h ≠ hNew)
    (hfree : ¬ (mid.chunk h).InUse)
    (hbin : (mid.chunk h).binNum = kInvalidBinNum)
    (hnext : ∀ other, (mid.chunk h).next = some other →
      other < mid.numChunks ∧ other ≠ h ∧ other ≠ hNew)
    (hadd : sizeAdd (mid.chunk h).ptr n = (mid.chunk h).ptr + n)
    (hsub : sizeSub (mid.chunk h).size n = (mid.chunk h).size - n)
    (hregions : mid.regions.setHandle ((mid.chunk h).ptr + n) (some hNew) =
      .ok regions) :
    ∃ s', splitChunk h n s = insertFreeChunkIntoBin hNew s' ∧
      s'.regions = regions ∧ s'.numChunks = mid.numChunks ∧
      s'.freeChunksList = mid.freeChunksList ∧ s'.bins = mid.bins ∧
      s'.aside = mid.aside ∧ ∀ other, s'.chunk other =
        if other = hNew then { mid.chunk hNew with
          ptr := (mid.chunk h).ptr + n
          size := (mid.chunk h).size - n
          allocationId := -1
          prev := some h
          next := (mid.chunk h).next }
        else if other = h then { mid.chunk h with
          size := n
          next := some hNew }
        else if (mid.chunk h).next = some other then
          { mid.chunk other with prev := some hNew }
        else mid.chunk other := by
  rw [splitChunk, bind_eq_of_ok hrun, bind_eq_of_ok (chunkFromHandle_eq hbound),
    enforce_of ⟨hfree, hbin⟩, bind_eq_of_ok (pure_apply _ _),
    bind_eq_of_ok (chunkFromHandle_eq hnew), hadd, hsub,
    bind_eq_of_ok (modifyChunk_apply _ _ _), bind_eq_of_ok (setHandle_apply
      (show (mid.modifyChunk hNew _).regions.setHandle _ _ = _ from hregions)),
    bind_eq_of_ok (modifyChunk_apply _ _ _),
    bind_eq_of_ok (modifyChunk_apply _ _ _), bind_eq_of_ok (setPrev_eq ?_)]
  · obtain ⟨hreg, hnum, hlist, hbins, haside⟩ := withPrev_frame _ _ hNew
    refine ⟨_, rfl, hreg, hnum, hlist, hbins, haside, fun other => ?_⟩
    simp only [chunk_withPrev, chunk_modifyChunk, withRegions]
    have hnotH : (mid.chunk h).next ≠ some h := fun heq =>
      (hnext h heq).2.1 rfl
    have hnotNew : (mid.chunk h).next ≠ some hNew := fun heq =>
      (hnext hNew heq).2.2 rfl
    by_cases hother : other = hNew
    · subst hother
      simp [hnotNew, hne.symm]
    · by_cases hother' : other = h
      · subst hother'
        simp [hnotH, hne]
      · simp [hother, hother']
  · exact fun other hother => (hnext other hother).1

/-- The record of a chunk goes to the front of the recycled ones. -/
theorem deleteChunk_eq (hbound : h < s.numChunks)
    (hregions : s.regions.setHandle (s.chunk h).ptr none = .ok regions) :
    deleteChunk h s = .ok () { (s.withRegions regions).modifyChunk h
      (fun c => { c with next := s.freeChunksList }) with
        freeChunksList := some h } := by
  rw [deleteChunk, bind_eq_of_ok (chunkFromHandle_eq hbound),
    bind_eq_of_ok (setHandle_apply hregions), deallocateChunk,
    bind_eq_of_ok (get_apply _), bind_eq_of_ok (chunkFromHandle_eq ?_)]
  · rfl
  · exact hbound

theorem merge_eq (hbound : h1 < s.numChunks)
    (hbound' : h2 < s.numChunks) (hne : h1 ≠ h2) (hfree : ¬ (s.chunk h1).InUse)
    (hfree' : ¬ (s.chunk h2).InUse) (hprev : (s.chunk h2).prev = some h1)
    (hnext : ∀ other, (s.chunk h2).next = some other →
      other < s.numChunks ∧ other ≠ h1 ∧ other ≠ h2)
    (hadd : sizeAdd (s.chunk h1).size (s.chunk h2).size =
      (s.chunk h1).size + (s.chunk h2).size)
    (hregions : s.regions.setHandle (s.chunk h2).ptr none = .ok regions) :
    ∃ s', merge h1 h2 s = .ok () s' ∧ s'.regions = regions ∧
      s'.numChunks = s.numChunks ∧ s'.freeChunksList = some h2 ∧
      s'.bins = s.bins ∧ s'.aside = s.aside ∧ ∀ other, s'.chunk other =
        if other = h2 then { s.chunk h2 with next := s.freeChunksList }
        else if other = h1 then { s.chunk h1 with
          size := (s.chunk h1).size + (s.chunk h2).size
          next := (s.chunk h2).next }
        else if (s.chunk h2).next = some other then
          { s.chunk other with prev := some h1 }
        else s.chunk other := by
  have hnot1 : (s.chunk h2).next ≠ some h1 := fun heq => (hnext h1 heq).2.1 rfl
  have hnot2 : (s.chunk h2).next ≠ some h2 := fun heq => (hnext h2 heq).2.2 rfl
  -- The state before the second chunk is deleted.
  obtain ⟨mid, hmid, hreg, hnum, hlist, hbins, haside, hchunk⟩ : ∃ mid,
      merge h1 h2 s = deleteChunk h2 mid ∧ mid.regions = s.regions ∧
      mid.numChunks = s.numChunks ∧ mid.freeChunksList = s.freeChunksList ∧
      mid.bins = s.bins ∧ mid.aside = s.aside ∧ ∀ other, mid.chunk other =
        if other = h1 then { s.chunk h1 with
          size := (s.chunk h1).size + (s.chunk h2).size
          next := (s.chunk h2).next }
        else if (s.chunk h2).next = some other then
          { s.chunk other with prev := some h1 }
        else s.chunk other := by
    rw [merge, bind_eq_of_ok (chunkFromHandle_eq hbound), bind_eq_of_ok
      (chunkFromHandle_eq hbound'), enforce_of ⟨hfree, hfree'⟩, bind_eq_of_ok
      (pure_apply _ _), bind_eq_of_ok (modifyChunk_apply _ _ _), enforce_of
      hprev, bind_eq_of_ok (pure_apply _ _), bind_eq_of_ok (setPrev_eq ?_)]
    · obtain ⟨hreg, hnum, hlist, hbins, haside⟩ := withPrev_frame _ _ h1
      refine ⟨_, rfl, hreg, hnum, hlist, hbins, haside, fun other => ?_⟩
      simp only [chunk_withPrev, chunk_modifyChunk]
      by_cases hother : other = h1
      · subst hother
        simp [hnot1, hadd]
      · simp [hother]
    · exact fun other hother => (hnext other hother).1
  have hsecond : mid.chunk h2 = s.chunk h2 := by
    rw [hchunk, if_neg hne.symm, if_neg hnot2]
  rw [hmid, deleteChunk_eq (hnum ▸ hbound') (by rw [hreg, hsecond, hregions])]
  refine ⟨_, rfl, rfl, hnum, rfl, hbins, haside, fun other => ?_⟩
  simp only [chunk_modifyChunk, withRegions]
  by_cases hother : other = h2
  · subst hother
    simp [hsecond, hlist]
  · rw [if_neg hother, if_neg hother, hchunk]

end ArenaM

namespace BFCArena.WellFormed

section

variable (hw : s.WellFormed layout recycled loose pending)
include hw

theorem rebinned {loose' : Set ChunkHandle} (hr : Rebinned s s')
    (hregions : s'.regions = s.regions) (hnum : s'.numChunks = s.numChunks)
    (hlist : s'.freeChunksList = s.freeChunksList)
    (hbinned : s'.Binned (handlesOf layout) loose')
    (hfree : ∀ h ∈ loose', h ∈ handlesOf layout ∧ ¬ (s.chunk h).InUse) :
    s'.WellFormed layout recycled loose' pending := by
  refine ⟨hw.shape.congr hregions hnum hlist hr.node, hbinned, ?_, ?_⟩
  · intro other hother
    rw [hr.inUse]
    exact hfree other hother
  · rintro left right ⟨hleft, hlink, hfirst, hsecond⟩
    rw [hr.inUse] at hfirst hsecond
    rw [hr.next] at hlink
    exact hw.apart left right ⟨hleft, hlink, hfirst, hsecond⟩

section

variable (hmem : h ∈ handlesOf layout)
include hmem

theorem bounded : h < s.numChunks :=
  hw.shape.bounded h (mem_append_left _ hmem)

theorem ptr_eq : ∀ other ∈ handlesOf layout,
      (s.chunk other).ptr = (s.chunk h).ptr → other = h :=
  fun _ hother => hw.shape.ptr_injective hother hmem

/-- An idle chunk becomes loose. -/
theorem removed (hfree : ¬ (s.chunk h).InUse) :
    (s.removed h).WellFormed layout recycled (insert h loose) pending := by
  refine hw.rebinned (s.rebinned_removed h) rfl rfl rfl (hw.binned.removed h)
    fun other hother => ?_
  rcases Set.mem_insert_iff.1 hother with rfl | hother
  · exact ⟨hmem, hfree⟩
  · exact hw.free_of_loose other hother

end

/-- A loose chunk goes into its bin. -/
theorem inserted (hloose : h ∈ loose) :
    (s.inserted h).WellFormed layout recycled (loose \ {h}) pending := by
  obtain ⟨hmem, hfree⟩ := hw.free_of_loose h hloose
  exact hw.rebinned (s.rebinned_inserted h) rfl rfl rfl
    (hw.binned.inserted hmem hfree (hw.ptr_eq hmem))
    fun other hother => hw.free_of_loose other hother.1

/-- A record for a new chunk is found or made. -/
theorem allocateChunk : ∃ h s' recycled', ArenaM.allocateChunk s = .ok h s' ∧
      s'.WellFormed layout recycled' loose pending ∧
      h ∉ handlesOf layout ++ recycled' ∧ h < s'.numChunks ∧
      s'.regions = s.regions ∧ s'.aside = s.aside ∧
      ∀ other ∈ handlesOf layout, s'.chunk other = s.chunk other := by
  have hlist := hw.shape.freeList
  cases recycled with
  | cons h recycled =>
    have hhead : s.freeChunksList = some h := hlist.1
    have hbound : h < s.numChunks :=
      hw.shape.bounded h (mem_append_right _ mem_cons_self)
    obtain ⟨hshape, hnew, hlt⟩ :
        Shape { s with freeChunksList := (s.chunk h).next } layout recycled ∧
          h ∉ handlesOf layout ++ recycled ∧ h < s.numChunks :=
      hw.shape.reuse rfl rfl rfl rfl
    refine ⟨h, { s with freeChunksList := (s.chunk h).next }, recycled, ?_,
      ⟨hshape, ?_, hw.free_of_loose, ?_⟩, hnew, hlt, rfl, rfl, fun _ _ => rfl⟩
    · exact ArenaM.allocateChunk_of_some hhead hbound
    · exact hw.binned.frame rfl (fun _ => Iff.rfl)
        (fun _ _ => ⟨rfl, rfl, rfl⟩) hw.binned.binNum_other
    · exact fun left right ⟨hleft, hlink, hfirst, hsecond⟩ =>
        hw.apart left right ⟨hleft, hlink, hfirst, hsecond⟩
  | nil =>
    have hhead : s.freeChunksList = none := hlist
    have hkeep : ∀ other, other ≠ s.numChunks →
        Function.update s.chunk s.numChunks {} other = s.chunk other :=
      fun other hne => update_of_ne hne _ _
    obtain ⟨hshape, hnew, hlt⟩ : Shape { s with
        chunk := Function.update s.chunk s.numChunks {}
        numChunks := s.numChunks + 1 } layout [] ∧
          s.numChunks ∉ handlesOf layout ++ [] ∧
          s.numChunks < s.numChunks + 1 :=
      hw.shape.fresh rfl rfl rfl fun other hne =>
        congrArg Chunk.node (hkeep other hne)
    have hlive : ∀ other ∈ handlesOf layout,
        Function.update s.chunk s.numChunks {} other = s.chunk other :=
      fun other hmem => hkeep other (hw.bounded hmem).ne
    refine ⟨s.numChunks, _, [], ?_, ⟨hshape, ?_, ?_, ?_⟩, hnew, hlt, rfl, rfl,
      hlive⟩
    · exact ArenaM.allocateChunk_of_none hhead
    · refine hw.binned.frame rfl (fun other => ?_) (fun other hidle => ?_)
        fun other hidle => ?_
      · refine and_congr_right fun hmem => ?_
        dsimp only
        rw [hlive other hmem]
      · dsimp only
        rw [hlive other hidle.1]
        exact ⟨rfl, rfl, rfl⟩
      · dsimp only
        rw [update_apply]
        split
        · rfl
        · exact hw.binned.binNum_other other hidle
    · intro other hother
      obtain ⟨hmem, hfree⟩ := hw.free_of_loose other hother
      dsimp only
      rw [hlive other hmem]
      exact ⟨hmem, hfree⟩
    · rintro left right ⟨hleft, hlink, hfirst, hsecond⟩
      dsimp only at hlink hfirst hsecond
      rw [hlive left hleft] at hlink hfirst
      have hright := hw.shape.next_mem hleft hlink
      rw [hlive right hright] at hsecond
      exact hw.apart left right ⟨hleft, hlink, hfirst, hsecond⟩

end

/-- A loose chunk is cut in two; the second half goes into a bin. -/
theorem splitChunk {n : Nat} (hw : s.WellFormed layout recycled {h} ∅)
    (hpos : 0 < n) (hlt : n < (s.chunk h).size)
    (hdvd : kMinAllocationSize ∣ n) :
    ∃ s' layout' recycled', ArenaM.splitChunk h n s = .ok () s' ∧
      s'.WellFormed layout' recycled' {h} {h} ∧
      (s'.chunk h).ptr = (s.chunk h).ptr ∧ (s'.chunk h).size = n ∧
      s'.aside = s.aside ∧ ends layout' = ends layout ∧
      ∀ other, s'.usedAt layout' other = s.usedAt layout other := by
  obtain ⟨hNew, mid, recycled', hrun, hmid, hnew, hnewBound, hregions, haside,
    hsame⟩ := hw.allocateChunk
  obtain ⟨hmem, hfree⟩ := hmid.free_of_loose h rfl
  rw [← hsame h hmem] at hlt ⊢
  have hnewLive : hNew ∉ handlesOf layout := fun hh =>
    hnew (mem_append_left _ hh)
  have hne : h ≠ hNew := fun heq => hnewLive (heq ▸ hmem)
  obtain ⟨r, -, -, -, -, hend, -, hbound, -⟩ := hmid.shape.chunk_within hmem
  obtain ⟨place, tile, htile, rfl, hplace⟩ := hmid.shape.exists_place hmem
  subst htile
  have hnode := Shape.node_eq hplace
  have hptr : (mid.chunk tile.handle).ptr = place.base + total place.before :=
    congrArg TileNode.start hnode
  have hsize : (mid.chunk tile.handle).size = tile.length :=
    congrArg TileNode.length hnode
  have hnext : ∀ other, (mid.chunk tile.handle).next = some other →
      other < mid.numChunks ∧ other ≠ tile.handle ∧ other ≠ hNew := by
    intro other hother
    have hlive := hmid.shape.next_mem hmem hother
    exact ⟨hmid.bounded hlive, hmid.shape.next_ne hmem hother,
      fun heq => hnewLive (heq ▸ hlive)⟩
  have hoffset : (mid.chunk tile.handle).ptr + n - place.base =
      total place.before + n := by omega
  have hset := hmid.shape.setHandle_at hplace
    (p := (mid.chunk tile.handle).ptr + n) (by omega) (by simp; omega)
    (some hNew)
  rw [hoffset] at hset
  obtain ⟨s₂, hsplit, hregions₂, hnum₂, hlist₂, hbins₂, haside₂, hchunk₂⟩ :=
    ArenaM.splitChunk_eq hrun (hmid.bounded hmem) hnewBound hne hfree
      (hmid.binned.binNum_other _ fun hidle => hidle.2.2 rfl) hnext
      (sizeAdd_eq (by omega)) (sizeSub_eq hlt.le (by omega)) hset
  have hNewChunk := hchunk₂ hNew
  have hChunk := hchunk₂ tile.handle
  rw [if_pos rfl] at hNewChunk
  rw [if_neg hne, if_pos rfl] at hChunk
  have hother : ∀ other, other ≠ hNew → other ≠ tile.handle →
      ∃ prev, s₂.chunk other = { mid.chunk other with prev := prev } := by
    intro other hne₁ hne₂
    rw [hchunk₂, if_neg hne₁, if_neg hne₂]
    split <;> exact ⟨_, rfl⟩
  have hshape : Shape s₂ (place.fill [⟨tile.handle, n⟩,
      ⟨hNew, tile.length - n⟩]) recycled' := by
    refine hmid.shape.cut hplace hnew hnewBound (by simp; omega) hpos
      (by simp; omega) hdvd hregions₂ hnum₂ hlist₂ ?_ ?_ ?_ ?_
    · rw [hChunk]
      rfl
    · rw [hNewChunk, Chunk.node]
      simp [hsize]
    · intro other hlink
      obtain ⟨-, hne₁, hne₂⟩ := hnext other hlink
      rw [hchunk₂, if_neg hne₂, if_neg hne₁, if_pos hlink]
      rfl
    · intro other hne₁ hne₂ hlink
      rw [hchunk₂, if_neg hne₂, if_neg hne₁, if_neg hlink]
  have hlive : ∀ other, other ∈ handlesOf (place.fill [⟨tile.handle, n⟩,
      ⟨hNew, tile.length - n⟩]) ↔
        other = hNew ∨ other ∈ handlesOf (place.fill [tile]) := by
    intro other
    rw [Place.mem_handlesOf_fill, Place.mem_handlesOf_fill]
    simp only [handles, map_cons, mem_cons]
    tauto
  have hfreeNew : ¬ (s₂.chunk hNew).InUse := by
    rw [hNewChunk]
    exact fun hh => hh rfl
  have hfree₂ : ¬ (s₂.chunk tile.handle).InUse := by
    rw [hChunk]
    exact hfree
  have hinUse : ∀ other, other ≠ hNew →
      ((s₂.chunk other).InUse ↔ (mid.chunk other).InUse) := by
    intro other hne₁
    by_cases hne₂ : other = tile.handle
    · rw [hne₂]
      exact iff_of_false hfree₂ hfree
    · obtain ⟨prev, hsame⟩ := hother other hne₁ hne₂
      rw [hsame]
      rfl
  have hw₂ : s₂.WellFormed (place.fill [⟨tile.handle, n⟩,
      ⟨hNew, tile.length - n⟩]) recycled' {hNew, tile.handle} {tile.handle} := by
    refine ⟨hshape, ?_, ?_, ?_⟩
    · refine hmid.binned.frame hbins₂ (fun other => ?_) (fun other hidle => ?_)
        fun other hidle => ?_
      · rw [Idle, Idle, hlive]
        by_cases hne₁ : other = hNew
        · simp [hne₁, hnewLive]
        · rw [hinUse other hne₁]
          simp [hne₁]
      · have hne₁ : other ≠ hNew := fun heq => hnewLive (heq ▸ hidle.1)
        obtain ⟨prev, hsame⟩ := hother other hne₁ hidle.2.2
        rw [hsame]
        exact ⟨rfl, rfl, rfl⟩
      · have hbin := hmid.binned.binNum_other other hidle
        rw [hchunk₂]
        split
        · rename_i heq
          rw [← heq]
          exact hbin
        · split
          · rename_i heq
            rw [← heq]
            exact hbin
          · split <;> exact hbin
    · rintro other (rfl | rfl)
      · exact ⟨(hlive _).2 (.inl rfl), hfreeNew⟩
      · exact ⟨(hlive _).2 (.inr hmem), hfree₂⟩
    · rintro left right ⟨hleft, hlink, hfirst, hsecond⟩
      by_contra hnot
      obtain ⟨hleftNe, hrightNe⟩ := not_or.1 hnot
      -- The pair was there before, or its second chunk followed the cut one.
      have hpair : mid.FreePair (place.fill [tile]) tile.handle right ∨
          mid.FreePair (place.fill [tile]) left right := by
        by_cases hne₁ : left = hNew
        · rw [hne₁, hNewChunk] at hlink
          rw [hinUse right (hnext right hlink).2.2] at hsecond
          exact .inl ⟨hmem, hlink, hfree, hsecond⟩
        · obtain ⟨prev, hsame⟩ := hother left hne₁ hleftNe
          rw [hsame] at hlink
          have hleft := ((hlive left).1 hleft).resolve_left hne₁
          have hright := hmid.shape.next_mem hleft hlink
          rw [hinUse left hne₁] at hfirst
          rw [hinUse right fun heq => hnewLive (heq ▸ hright)] at hsecond
          exact .inr ⟨hleft, hlink, hfirst, hsecond⟩
      rcases hpair with hpair | hpair <;>
        exact (hmid.apart _ _ hpair).elim id id
  have hr := s₂.rebinned_inserted hNew
  have hfinal := hw₂.inserted (Set.mem_insert hNew _)
  rw [Set.insert_sdiff_self_of_notMem
    (Set.notMem_singleton_iff.2 hne.symm)] at hfinal
  refine ⟨s₂.inserted hNew, _, recycled', ?_, hfinal, ?_, ?_, ?_, ?_, ?_⟩
  · rw [hsplit]
    exact ArenaM.insertFreeChunkIntoBin_eq (hw₂.bounded ((hlive _).2 (.inl rfl)))
      hfreeNew (hw₂.binned.binNum_other _ fun hidle =>
        hidle.2.2 (Set.mem_insert hNew _))
  · rw [hr.ptr, hChunk]
  · rw [hr.size, hChunk]
  · exact haside₂.trans haside
  · exact ends_fill (by simp; omega)
  · intro other
    refine (usedAt_rebinned hr _ other).trans
      (usedAt_congr ?_ fun hlive' hused => ?_)
    · rw [hlive]
      by_cases hne₁ : other = hNew
      · rw [hne₁]
        exact iff_of_false (fun hh => hfreeNew hh.2) fun hh => hnewLive hh.1
      · rw [hinUse other hne₁, or_iff_right hne₁]
        exact and_congr_right fun hh => by rw [hsame other hh]
    · have hne₁ : other ≠ hNew := fun heq => hnewLive (heq ▸ hlive')
      rw [← hsame other hlive'] at hused ⊢
      obtain ⟨prev, hkept⟩ := hother other hne₁ fun heq => hfree (heq ▸ hused)
      rw [hkept]
      exact ⟨rfl, rfl, rfl⟩

/-- Two loose neighbours become one; the record of the second is recycled. -/
theorem merge {pending' : Set ChunkHandle}
    (hw : s.WellFormed layout recycled loose pending) (hloose : h1 ∈ loose)
    (hloose' : h2 ∈ loose) (hnext : (s.chunk h1).next = some h2)
    (hpending : ∀ left right, right ≠ h2 → (left = h1 ∧
        s.FreePair layout h2 right ∨ left ≠ h1 ∧ left ≠ h2 ∧
        s.FreePair layout left right) → left ∈ pending' ∨ right ∈ pending') :
    ∃ s' layout', ArenaM.merge h1 h2 s = .ok () s' ∧
      s'.WellFormed layout' (h2 :: recycled) (loose \ {h2}) pending' ∧
      (s'.chunk h1).ptr = (s.chunk h1).ptr ∧
      (s'.chunk h1).prev = (s.chunk h1).prev ∧
      (s'.chunk h1).next = (s.chunk h2).next ∧
      (s.chunk h2).next ≠ some h1 ∧
      (∀ other, (s'.chunk other).InUse ↔ (s.chunk other).InUse) ∧
      s'.aside = s.aside ∧ ends layout' = ends layout ∧
      ∀ other, s'.usedAt layout' other = s.usedAt layout other := by
  obtain ⟨hmem, hfree⟩ := hw.free_of_loose h1 hloose
  obtain ⟨hmem', hfree'⟩ := hw.free_of_loose h2 hloose'
  obtain ⟨r, -, -, -, -, hend, -, hbound, -⟩ := hw.shape.chunk_within hmem'
  obtain ⟨place, left, right, hleft, hright, rfl, hplace⟩ :=
    hw.shape.exists_place_next hmem hnext
  subst hleft hright
  have hleftNode := Shape.node_left_eq hplace
  have hrightNode := Shape.node_right_eq hplace
  have hsize : (s.chunk left.handle).size = left.length :=
    congrArg TileNode.length hleftNode
  have hptr : (s.chunk right.handle).ptr =
      place.base + total place.before + left.length :=
    congrArg TileNode.start hrightNode
  have hsize' : (s.chunk right.handle).size = right.length :=
    congrArg TileNode.length hrightNode
  have hprev : (s.chunk right.handle).prev = some left.handle :=
    congrArg TileNode.prev hrightNode
  have hafter : (s.chunk right.handle).next = headHandle place.after none :=
    congrArg TileNode.next hrightNode
  obtain ⟨hnodup, hothers, hapart⟩ := Place.nodup_fill_iff.1 hw.shape.nodup
  have hne : left.handle ≠ right.handle := by simpa [handles] using hnodup
  have hbehind : ∀ other, (s.chunk right.handle).next = some other →
      other < s.numChunks ∧ other ≠ left.handle ∧ other ≠ right.handle := by
    intro other hother
    have hlive := Place.mem_others_of_mem_after
      (Shape.headHandle_mem (hafter ▸ hother))
    have hrest := mem_append_left recycled hlive
    refine ⟨hw.bounded (hw.shape.next_mem hmem' hother), fun heq => ?_,
      fun heq => ?_⟩
    · exact hapart left.handle (by simp) (heq ▸ hrest)
    · exact hapart right.handle (by simp) (heq ▸ hrest)
  have hpos : 0 < right.length := hplace.region_is.positive right (by simp)
  have hset := hw.shape.setHandle_at hplace (p := (s.chunk right.handle).ptr)
    (by omega) (by simp; omega) none
  have hoffset : (s.chunk right.handle).ptr - place.base =
      total place.before + left.length := by omega
  rw [hoffset] at hset
  obtain ⟨s', hrun, hregions, hnum, hlist, hbins, haside, hchunk⟩ :=
    ArenaM.merge_eq (hw.bounded hmem) (hw.bounded hmem') hne hfree hfree' hprev
      hbehind (sizeAdd_eq (by omega)) hset
  have hfirst := hchunk left.handle
  rw [if_neg hne, if_pos rfl] at hfirst
  have hsecond := hchunk right.handle
  rw [if_pos rfl] at hsecond
  have hother : ∀ other, other ≠ right.handle → other ≠ left.handle →
      ∃ prev, s'.chunk other = { s.chunk other with prev := prev } := by
    intro other hne₁ hne₂
    rw [hchunk, if_neg hne₁, if_neg hne₂]
    split <;> exact ⟨_, rfl⟩
  -- No chunk changes more than its size and its neighbours.
  have hany : ∀ other, ∃ size prev next, s'.chunk other =
      { s.chunk other with size := size, prev := prev, next := next } := by
    intro other
    by_cases hne₁ : other = right.handle
    · exact ⟨_, _, _, by rw [hne₁, hsecond]⟩
    · by_cases hne₂ : other = left.handle
      · exact ⟨_, _, _, by rw [hne₂, hfirst]⟩
      · obtain ⟨prev, hsame⟩ := hother other hne₁ hne₂
        exact ⟨_, _, _, hsame⟩
  have hinUse : ∀ other, (s'.chunk other).InUse ↔ (s.chunk other).InUse := by
    intro other
    obtain ⟨size, prev, next, hsame⟩ := hany other
    rw [hsame]
    rfl
  have hlive : ∀ other, other ∈ handlesOf (place.fill
      [⟨left.handle, left.length + right.length⟩]) ↔
        other ∈ handlesOf (place.fill [left, right]) ∧
          other ≠ right.handle := by
    intro other
    rw [Place.mem_handlesOf_fill, Place.mem_handlesOf_fill]
    simp only [handles, map_cons, map_nil, mem_cons, not_mem_nil, or_false]
    constructor
    · rintro (rfl | hmem)
      · exact ⟨.inl (.inl rfl), hne⟩
      · refine ⟨.inr hmem, fun heq => hapart right.handle (by simp) ?_⟩
        exact heq ▸ mem_append_left recycled hmem
    · rintro ⟨(rfl | heq) | hmem, hne₁⟩
      · exact .inl rfl
      · exact absurd heq hne₁
      · exact .inr hmem
  have hjoined : Shape { s' with freeChunksList := s.freeChunksList }
      (place.fill [⟨left.handle, left.length + right.length⟩]) recycled := by
    refine hw.shape.join hplace hregions hnum rfl ?_ ?_ ?_
    · rw [hfirst, hsize, hsize']
      rfl
    · intro other hlink
      obtain ⟨-, hne₁, hne₂⟩ := hbehind other hlink
      rw [hchunk, if_neg hne₂, if_neg hne₁, if_pos hlink]
      rfl
    · intro other hne₁ hne₂ hlink
      rw [hchunk, if_neg hne₂, if_neg hne₁, if_neg hlink]
  have hgone : right.handle ∉ handlesOf (place.fill
      [⟨left.handle, left.length + right.length⟩]) ++ recycled := by
    rw [mem_append, hlive]
    rintro (hmem | hmem)
    · exact hmem.2 rfl
    · exact hapart right.handle (by simp) (mem_append_right _ hmem)
  have hshape : Shape s' _ (right.handle :: recycled) := hjoined.recycle hgone
    (show _ < s'.numChunks from hnum ▸ hw.bounded hmem') rfl rfl hlist
    (by rw [hsecond]) fun _ _ => rfl
  refine ⟨s', _, hrun, ⟨hshape, ?_, ?_, ?_⟩, ?_, ?_, ?_, ?_, hinUse, haside,
    ends_fill (by simp), ?_⟩
  · refine hw.binned.frame hbins (fun other => ?_) (fun other hidle => ?_)
      fun other hidle => ?_
    · rw [Idle, Idle, hlive, hinUse]
      by_cases hne₁ : other = right.handle
      · simp [hne₁, hloose']
      · simp [hne₁]
    · obtain ⟨prev, hsame⟩ := hother other
        (fun heq => hidle.2.2 (heq ▸ hloose'))
        fun heq => hidle.2.2 (heq ▸ hloose)
      rw [hsame]
      exact ⟨rfl, rfl, rfl⟩
    · obtain ⟨size, prev, next, hsame⟩ := hany other
      rw [hsame]
      exact hw.binned.binNum_other other hidle
  · rintro other ⟨hmem, hne₁⟩
    rw [hinUse, hlive]
    obtain ⟨hlive', hfree'⟩ := hw.free_of_loose other hmem
    exact ⟨⟨hlive', hne₁⟩, hfree'⟩
  · rintro first second ⟨hfirstMem, hlink, hfirstFree, hsecondFree⟩
    rw [hinUse] at hfirstFree hsecondFree
    obtain ⟨hfirstMem, hne₁⟩ := (hlive first).1 hfirstMem
    by_cases hne₂ : first = left.handle
    · rw [hne₂, hfirst] at hlink
      exact hpending first second (hbehind second hlink).2.2
        (.inl ⟨hne₂, hmem', hlink, hfree', hsecondFree⟩)
    · obtain ⟨prev, hsame⟩ := hother first hne₁ hne₂
      rw [hsame] at hlink
      refine hpending first second (fun heq => hne₂ ?_)
        (.inr ⟨hne₂, hne₁, hfirstMem, hlink, hfirstFree, hsecondFree⟩)
      have hback := hw.shape.prev_of_next hfirstMem hlink
      rw [heq, hprev] at hback
      exact (Option.some.inj hback).symm
  · rw [hfirst]
  · rw [hfirst]
  · rw [hfirst]
  · exact fun heq => (hbehind _ heq).2.1 rfl
  · intro other
    refine usedAt_congr ?_ fun hmem hused => ?_
    · rw [hinUse, hlive]
      refine ⟨fun hh => ⟨hh.1.1, hh.2⟩, fun hh => ⟨⟨hh.1, fun heq => ?_⟩, hh.2⟩⟩
      exact hfree' (heq ▸ hh.2)
    · obtain ⟨prev, hsame⟩ := hother other
        (fun heq => hfree' (heq ▸ hused)) fun heq => hfree (heq ▸ hused)
      rw [hsame]
      exact ⟨rfl, rfl, rfl⟩

end BFCArena.WellFormed

end OnnxRuntime
