/-
Changes of the arena's layout: a chunk is cut in two, two chunks become one, a
new region is added; and which chunk starts at an address.
-/
import OnnxRuntime.ArenaLayout

namespace OnnxRuntime

open List Tiles RegionLayout Place

variable {s s' : BFCArena} {layout : List RegionLayout}
  {recycled : List ChunkHandle} {h h' : ChunkHandle}

/-- One entry of the table is overwritten. -/
def AllocationRegion.withHandle (region : AllocationRegion) (index : Nat)
    (value : Option ChunkHandle) : AllocationRegion :=
  { region with handles := Function.update region.handles index value }

namespace Place

variable {place : Place} {tiles : List Tile}

/-- The chunks at the place are apart from all others. -/
theorem nodup_fill_iff : (handlesOf (place.fill tiles) ++ recycled).Nodup ↔
      (handles tiles).Nodup ∧ (place.others ++ recycled).Nodup ∧
        ∀ h ∈ handles tiles, h ∉ place.others ++ recycled := by
  rw [(place.perm_fill tiles recycled).nodup_iff, nodup_append]
  refine and_congr_right fun _ => and_congr_right fun _ => ?_
  exact ⟨fun hne h hmem hother => hne h hmem h hother rfl,
    fun hnot h hmem other hother heq => hnot h hmem (heq ▸ hother)⟩

theorem mem_fill_iff : h ∈ handlesOf (place.fill tiles) ++ recycled ↔
      h ∈ handles tiles ∨ h ∈ place.others ++ recycled := by
  rw [(place.perm_fill tiles recycled).mem_iff, mem_append]

theorem mem_others_of_mem_after (hmem : h ∈ handles place.after) :
    h ∈ place.others := by
  simp [others, hmem]

end Place

namespace Shape

variable {place : Place} {tiles : List Tile} {right : Tile}
  {regions : RegionManager} {base bytes : Nat} {node : ChunkHandle → TileNode}

/-- The tiles at a place are replaced by others of the same total length; only
the first chunk behind the place is told. -/
theorem retile {tiles' : List Tile} {length : Nat} {value : Option ChunkHandle}
    (hs : Shape s (place.fill tiles) recycled) (hplace : place.Holds s tiles)
    (hregions : s'.regions = place.frontRegions ++ place.region.withHandle
      ((total place.before + length) / kMinAllocationSize) value ::
        place.backRegions)
    (hnum : s'.numChunks = s.numChunks)
    (hlist : s'.freeChunksList = s.freeChunksList)
    (htiles : Retiles (fun h => (s'.chunk h).node) place.base place.before tiles
      tiles' place.after length value)
    (hhead : ∀ other, headHandle place.after none = some other →
      (s'.chunk other).node = { (s.chunk other).node with
        prev := lastHandle (lastHandle none place.before) tiles' })
    (hkeep : ∀ other ∈ place.others ++ recycled,
      headHandle place.after none ≠ some other →
      (s'.chunk other).node = (s.chunk other).node)
    (hnodup : (handles tiles').Nodup)
    (hnew : ∀ h ∈ handles tiles', h ∉ place.others ++ recycled ∧
      h < s.numChunks) :
    Shape s' (place.fill tiles') recycled := by
  obtain ⟨-, hothers, -⟩ := nodup_fill_iff.1 hs.nodup
  obtain ⟨hafter, hapart⟩ := nodup_after hothers.of_append_left
  have hrecycled : ∀ other ∈ recycled,
      headHandle place.after none ≠ some other := fun other hmem heq =>
    disjoint_of_nodup_append hothers
      (mem_others_of_mem_after (headHandle_mem heq)) hmem
  have hregion := hplace.region_is.retile htiles hafter (fun other hmem =>
    hkeep other (by simp [others, hmem]) fun heq =>
      (hapart other (headHandle_mem heq)).2.1 hmem) hhead fun other hmem =>
    hkeep other (mem_append_left _ (mem_others_of_mem_after hmem))
  constructor
  · rw [hregions]
    refine rel_append (forall₂_is_congr hplace.front_is fun other hmem => ?_)
      (.cons hregion (forall₂_is_congr hplace.back_is fun other hmem => ?_))
    · refine hkeep other (by simp [others, hmem]) fun heq => ?_
      exact (hapart other (headHandle_mem heq)).1 hmem
    · refine hkeep other (by simp [others, hmem]) fun heq => ?_
      exact (hapart other (headHandle_mem heq)).2.2 hmem
  · have hsorted := hs.sorted
    rw [Place.fill] at hsorted ⊢
    simp only [pairwise_append, pairwise_cons, mem_cons, forall_eq_or_imp, stop,
      total_append, htiles.total_eq] at hsorted ⊢
    exact hsorted
  · exact nodup_fill_iff.2
      ⟨hnodup, hothers, fun other hmem => (hnew other hmem).1⟩
  · intro other hmem
    rw [hnum]
    rcases mem_fill_iff.1 hmem with hmem | hmem
    · exact (hnew other hmem).2
    · exact hs.bounded other (mem_fill_iff.2 (.inr hmem))
  · rw [hlist]
    exact hs.freeList.congr fun other hmem => congrArg TileNode.next
      (hkeep other (mem_append_right _ hmem) (hrecycled other hmem))

/-- A chunk is cut in two, and the second half gets a record that is not in
use. -/
theorem cut {whole : Tile} {length : Nat}
    (hs : Shape s (place.fill [whole]) recycled)
    (hplace : place.Holds s [whole])
    (hnew : right.handle ∉ handlesOf (place.fill [whole]) ++ recycled)
    (hbound : right.handle < s.numChunks)
    (hlength : length + right.length = whole.length) (hleft : 0 < length)
    (hright : 0 < right.length) (haligned : kMinAllocationSize ∣ length)
    (hregions : s'.regions = place.frontRegions ++ place.region.withHandle
      ((total place.before + length) / kMinAllocationSize)
      (some right.handle) :: place.backRegions)
    (hnum : s'.numChunks = s.numChunks)
    (hlist : s'.freeChunksList = s.freeChunksList)
    (hleftNode : (s'.chunk whole.handle).node =
      { (s.chunk whole.handle).node with
        length := length, next := some right.handle })
    (hrightNode : (s'.chunk right.handle).node =
      ⟨(s.chunk whole.handle).ptr + length, right.length, some whole.handle,
        (s.chunk whole.handle).next⟩)
    (hhead : ∀ other, (s.chunk whole.handle).next = some other →
      (s'.chunk other).node =
        { (s.chunk other).node with prev := some right.handle })
    (hkeep : ∀ other, other ≠ whole.handle → other ≠ right.handle →
      (s.chunk whole.handle).next ≠ some other →
      (s'.chunk other).node = (s.chunk other).node) :
    Shape s' (place.fill [⟨whole.handle, length⟩, right]) recycled := by
  have hnode := node_eq hplace
  obtain ⟨-, -, hwhole⟩ := nodup_fill_iff.1 hs.nodup
  have hwhole := hwhole whole.handle mem_cons_self
  have hwholeDvd := hplace.region_is.aligned whole (by simp)
  rw [mem_fill_iff, not_or] at hnew
  have hne : whole.handle ≠ right.handle := fun heq =>
    hnew.1 (heq ▸ mem_cons_self)
  have hptr : (s.chunk whole.handle).ptr = place.base + total place.before :=
    congrArg TileNode.start hnode
  have hnext : (s.chunk whole.handle).next = headHandle place.after none :=
    congrArg TileNode.next hnode
  rw [hnext] at hhead hkeep hrightNode
  refine hs.retile hplace hregions hnum hlist ⟨by simp [hlength], by simp,
    fun _ => rfl, ⟨?_, ?_, trivial⟩, ?_, haligned, ?_⟩ hhead ?_
    (nodup_cons.2 ⟨by simpa [handles] using hne, nodup_singleton _⟩) ?_
  · refine hleftNode.trans ?_
    rw [hnode]
    rfl
  · refine hrightNode.trans ?_
    rw [hptr]
    rfl
  · intro tile htile
    rcases mem_cons.1 htile with rfl | htile
    · exact ⟨hleft, haligned⟩
    · rw [mem_singleton.1 htile]
      exact ⟨hright, (Nat.dvd_add_right haligned).mp (hlength ▸ hwholeDvd)⟩
  · exact fun hbefore => tileAt_cut hbefore hleft hright rfl hlength
  · exact fun other hmem => hkeep other (fun heq => hwhole (heq ▸ hmem))
      fun heq => hnew.2 (heq ▸ hmem)
  · intro other hmem
    rcases mem_cons.1 hmem with rfl | hmem
    · exact ⟨hwhole, hs.bounded _ (mem_fill_iff.2 (.inl mem_cons_self))⟩
    · rw [mem_singleton.1 hmem]
      exact ⟨hnew.2, hbound⟩

/-- Two neighbouring chunks become one; the record of the second one is no
longer in use. -/
theorem join {left : Tile} (hs : Shape s (place.fill [left, right]) recycled)
    (hplace : place.Holds s [left, right])
    (hregions : s'.regions = place.frontRegions ++ place.region.withHandle
      ((total place.before + left.length) / kMinAllocationSize) none ::
        place.backRegions) (hnum : s'.numChunks = s.numChunks)
    (hlist : s'.freeChunksList = s.freeChunksList)
    (hleftNode : (s'.chunk left.handle).node = { (s.chunk left.handle).node with
        length := left.length + right.length
        next := (s.chunk right.handle).next })
    (hhead : ∀ other, (s.chunk right.handle).next = some other →
      (s'.chunk other).node =
        { (s.chunk other).node with prev := some left.handle })
    (hkeep : ∀ other, other ≠ left.handle → other ≠ right.handle →
      (s.chunk right.handle).next ≠ some other →
      (s'.chunk other).node = (s.chunk other).node) :
    Shape s' (place.fill [⟨left.handle, left.length + right.length⟩])
      recycled := by
  obtain ⟨-, -, hboth⟩ := nodup_fill_iff.1 hs.nodup
  have hnext : (s.chunk right.handle).next = headHandle place.after none :=
    congrArg TileNode.next (node_right_eq hplace)
  have hleft := hplace.region_is.positive left (by simp)
  have hleftDvd := hplace.region_is.aligned left (by simp)
  rw [hnext] at hhead hkeep hleftNode
  refine hs.retile hplace hregions hnum hlist ⟨by simp, by simp, fun _ => rfl,
    ⟨?_, trivial⟩, ?_, hleftDvd, ?_⟩ hhead ?_ (nodup_singleton _) ?_
  · refine hleftNode.trans ?_
    rw [node_left_eq hplace]
    rfl
  · intro tile htile
    rw [mem_singleton.1 htile]
    exact ⟨Nat.add_pos_left hleft _,
      Nat.dvd_add hleftDvd (hplace.region_is.aligned right (by simp))⟩
  · exact fun hbefore => tileAt_join hbefore hleft
      (hplace.region_is.positive right (by simp)) rfl rfl
  · exact fun other hmem => hkeep other
      (fun heq => hboth left.handle (by simp) (heq ▸ hmem))
      fun heq => hboth right.handle (by simp) (heq ▸ hmem)
  · intro other hmem
    rw [mem_singleton.1 hmem]
    exact ⟨hboth left.handle (by simp),
      hs.bounded _ (mem_fill_iff.2 (.inl (by simp)))⟩

/-- A record that is not in use is put on the list of recycled ones. -/
theorem recycle (hs : Shape s layout recycled)
    (hnew : h ∉ handlesOf layout ++ recycled) (hbound : h < s.numChunks)
    (hregions : s'.regions = s.regions) (hnum : s'.numChunks = s.numChunks)
    (hlist : s'.freeChunksList = some h)
    (hnext : (s'.chunk h).next = s.freeChunksList)
    (hkeep : ∀ other, other ≠ h →
      (s'.chunk other).node = (s.chunk other).node) :
    Shape s' layout (h :: recycled) where
  regions := by
    rw [hregions]
    refine forall₂_is_congr hs.regions fun other hmem => hkeep other ?_
    exact fun heq => hnew (heq ▸ mem_append_left _ hmem)
  sorted := hs.sorted
  nodup := nodup_middle.2 (nodup_cons.2 ⟨hnew, hs.nodup⟩)
  bounded := by
    intro other hmem
    rw [hnum]
    rcases mem_append.1 hmem with hmem | hmem
    · exact hs.bounded other (mem_append_left _ hmem)
    · rcases mem_cons.1 hmem with rfl | hmem
      · exact hbound
      · exact hs.bounded other (mem_append_right _ hmem)
  freeList := by
    refine ⟨hlist, ?_⟩
    dsimp only
    rw [hnext]
    refine hs.freeList.congr fun other hmem => congrArg TileNode.next
      (hkeep other fun heq => hnew ?_)
    exact heq ▸ mem_append_right _ hmem

/-- The first recycled record is taken off the list. -/
theorem reuse (hs : Shape s layout (h :: recycled))
    (hregions : s'.regions = s.regions) (hnum : s'.numChunks = s.numChunks)
    (hlist : s'.freeChunksList = (s.chunk h).next)
    (hchunk : s'.chunk = s.chunk) :
    Shape s' layout recycled ∧ h ∉ handlesOf layout ++ recycled ∧
      h < s'.numChunks := by
  obtain ⟨hnot, hnodup⟩ := nodup_cons.1 (nodup_middle.1 hs.nodup)
  have hbounded : ∀ other ∈ handlesOf layout ++ recycled,
      other < s'.numChunks := by
    intro other hmem
    rw [hnum]
    refine hs.bounded other (mem_append.2 ?_)
    exact (mem_append.1 hmem).imp_right (mem_cons_of_mem h)
  refine ⟨⟨?_, hs.sorted, hnodup, hbounded, ?_⟩, hnot, ?_⟩
  · rw [hregions, hchunk]
    exact hs.regions
  · rw [hlist, hchunk]
    exact hs.freeList.2
  · rw [hnum]
    exact hs.bounded h (mem_append_right _ mem_cons_self)

/-- A new record is added behind the last one. -/
theorem fresh (hs : Shape s layout recycled)
    (hregions : s'.regions = s.regions) (hnum : s'.numChunks = s.numChunks + 1)
    (hlist : s'.freeChunksList = s.freeChunksList)
    (hkeep : ∀ other, other ≠ s.numChunks →
      (s'.chunk other).node = (s.chunk other).node) :
    Shape s' layout recycled ∧ s.numChunks ∉ handlesOf layout ++ recycled ∧
      s.numChunks < s'.numChunks := by
  have hnot : s.numChunks ∉ handlesOf layout ++ recycled := fun hmem =>
    Nat.lt_irrefl _ (hs.bounded _ hmem)
  have hsame : ∀ other ∈ handlesOf layout ++ recycled,
      (s'.chunk other).node = (s.chunk other).node := fun other hmem =>
    hkeep other fun heq => hnot (heq ▸ hmem)
  refine ⟨⟨?_, hs.sorted, hs.nodup, ?_, ?_⟩, hnot, hnum ▸ Nat.lt_succ_self _⟩
  · rw [hregions]
    exact forall₂_is_congr hs.regions fun other hmem =>
      hsame other (mem_append_left _ hmem)
  · intro other hmem
    rw [hnum]
    exact Nat.lt_succ_of_lt (hs.bounded other hmem)
  · rw [hlist]
    exact hs.freeList.congr fun other hmem => congrArg TileNode.next
      (hsame other (mem_append_right _ hmem))

/-- An address at a place is looked up and entered in the table of its
region. -/
theorem setHandle_at {p : Nat} (hs : Shape s (place.fill tiles) recycled)
    (hplace : place.Holds s tiles) (hbase : place.base ≤ p)
    (hstop : p < place.base + total (place.before ++ (tiles ++ place.after)))
    (value : Option ChunkHandle) :
    s.regions.setHandle p value =
      .ok (place.frontRegions ++ place.region.withHandle
        ((p - place.base) / kMinAllocationSize) value ::
          place.backRegions) := by
  rw [hplace.regions_eq]
  exact setHandle_eq (endPtr_le_of_sorted hplace.front_is hs.sorted hbase)
    hplace.region_is hbase hstop value

section

variable (hs : Shape s layout recycled) (hmem : h ∈ handlesOf layout)
include hs hmem

theorem getHandle_ptr : s.regions.getHandle (s.chunk h).ptr = .ok (some h) := by
  obtain ⟨place, tile, rfl, rfl, hplace⟩ := hs.exists_place hmem
  have hregion := hplace.region_is
  have hptr : (s.chunk tile.handle).ptr = place.base + total place.before :=
    congrArg TileNode.start (node_eq hplace)
  have hpos : 0 < tile.length := hregion.positive tile (by simp)
  have hdvd := hregion.dvd_total_before
  rw [hplace.regions_eq, hptr, getHandle_eq
    (endPtr_le_of_sorted hplace.front_is hs.sorted (Nat.le_add_right _ _))
    hregion (Nat.le_add_right _ _) (by simp [stop]; omega),
    Nat.add_sub_cancel_left, Nat.mul_div_cancel' hdvd,
    (tileAt_eq_some_iff hregion.positive).2
      ⟨place.before, tile, place.after, rfl, rfl, rfl⟩]

/-- Chunks at the same address are the same. -/
theorem ptr_injective (hmem' : h' ∈ handlesOf layout)
    (hptr : (s.chunk h).ptr = (s.chunk h').ptr) : h = h' := by
  have hget := hs.getHandle_ptr hmem
  rw [hptr, hs.getHandle_ptr hmem'] at hget
  exact (Option.some.inj (Except.ok.inj hget)).symm

/-- A chunk lies in the memory of a region. -/
theorem chunk_within :
    ∃ r ∈ layout, r.base ≤ (s.chunk h).ptr ∧ 0 < (s.chunk h).size ∧
      kMinAllocationSize ∣ (s.chunk h).size ∧
      (s.chunk h).ptr + (s.chunk h).size ≤ r.stop ∧ 0 < r.base ∧
      r.stop < sizeBound ∧ r.stop ≤ r.base + 2 ^ 39 := by
  obtain ⟨place, tile, rfl, rfl, hplace⟩ := hs.exists_place hmem
  have hregion := hplace.region_is
  have hptr : (s.chunk tile.handle).ptr = place.base + total place.before :=
    congrArg TileNode.start (node_eq hplace)
  have hsize : (s.chunk tile.handle).size = tile.length :=
    congrArg TileNode.length (node_eq hplace)
  have hsmall := hregion.small
  refine ⟨_, mem_append_right _ mem_cons_self, ?_, ?_, ?_, ?_,
    hregion.base_pos, hregion.stop_lt, Nat.add_le_add_left hsmall _⟩
  · rw [hptr]
    exact Nat.le_add_right _ _
  · rw [hsize]
    exact hregion.positive tile (by simp)
  · rw [hsize]
    exact hregion.aligned tile (by simp)
  · rw [hptr]
    simp [stop]
    omega

theorem next_of_prev (hprev : (s.chunk h).prev = some h') :
    h' ∈ handlesOf layout ∧ (s.chunk h').next = some h := by
  obtain ⟨place, left, right, rfl, rfl, rfl, hplace⟩ :=
    hs.exists_place_prev hmem hprev
  exact ⟨mem_handlesOf_fill.2 (.inl (by simp)),
    congrArg TileNode.next (node_left_eq hplace)⟩

variable (hnext : (s.chunk h).next = some h')
include hnext

theorem next_mem : h' ∈ handlesOf layout := by
  obtain ⟨place, left, right, rfl, rfl, rfl, -⟩ :=
    hs.exists_place_next hmem hnext
  exact mem_handlesOf_fill.2 (.inl (by simp))

theorem prev_of_next : (s.chunk h').prev = some h := by
  obtain ⟨place, left, right, rfl, rfl, -, hplace⟩ :=
    hs.exists_place_next hmem hnext
  exact congrArg TileNode.prev (node_right_eq hplace)

theorem next_ne : h' ≠ h := by
  obtain ⟨place, left, right, rfl, rfl, rfl, -⟩ :=
    hs.exists_place_next hmem hnext
  obtain ⟨hnodup, -, -⟩ := nodup_fill_iff.1 hs.nodup
  have hne : left.handle ≠ right.handle := by simpa [handles] using hnodup
  exact hne.symm

end

/-- A chunk of a region lies between its ends. -/
theorem within_of_mem
    (hr : Forall₂ (Is fun h => (s.chunk h).node) regions layout)
    {r : RegionLayout} (hr' : r ∈ layout) (hmem : h ∈ handles r.tiles) :
    r.base ≤ (s.chunk h).ptr ∧ (s.chunk h).ptr + (s.chunk h).size ≤ r.stop := by
  obtain ⟨front, back, rfl⟩ := append_of_mem hr'
  obtain ⟨_, _, _, -, -, hregion, -⟩ := forall₂_append_cons hr
  exact hregion.linked.within hmem

/-- Different chunks do not overlap. -/
theorem chunks_apart (hs : Shape s layout recycled)
    (hmem : h ∈ handlesOf layout) (hmem' : h' ∈ handlesOf layout)
    (hne : h' ≠ h) :
    (s.chunk h').ptr + (s.chunk h').size ≤ (s.chunk h).ptr ∨
      (s.chunk h).ptr + (s.chunk h).size ≤ (s.chunk h').ptr := by
  obtain ⟨place, tile, rfl, rfl, hplace⟩ := hs.exists_place hmem
  obtain ⟨hbefore, -, hafter⟩ := linked_append.1 hplace.region_is.linked
  have hptr : (s.chunk tile.handle).ptr = place.base + total place.before :=
    congrArg TileNode.start (node_eq hplace)
  have hsize : (s.chunk tile.handle).size = tile.length :=
    congrArg TileNode.length (node_eq hplace)
  have hsorted := hs.sorted
  rw [Place.fill, pairwise_append, pairwise_cons] at hsorted
  have hstop : place.base + total place.before + tile.length ≤
      stop ⟨place.base, place.before ++ ([tile] ++ place.after)⟩ := by
    simp [stop]
    omega
  rw [hptr, hsize]
  rcases mem_handlesOf_fill.1 hmem' with hmem' | hmem'
  · exact absurd (mem_singleton.1 hmem') hne
  · simp only [others, mem_append] at hmem'
    rcases hmem' with ((hfront | hmem') | hmem') | hback
    · obtain ⟨r, hr, hmem'⟩ := mem_flatMap.1 hfront
      have hin := within_of_mem hplace.front_is hr hmem'
      have hle := hsorted.2.2 r hr _ mem_cons_self
      dsimp only at hle
      exact .inl (by omega)
    · exact .inl (hbefore.within hmem').2
    · exact .inr (hafter.within hmem').1
    · obtain ⟨r, hr, hmem'⟩ := mem_flatMap.1 hback
      have hin := within_of_mem hplace.back_is hr hmem'
      have hle := hsorted.2.1.1 r hr
      exact .inr (by omega)

/-- A block that is apart from all regions lies between two of them. -/
theorem exists_gap
    (hsorted : layout.Pairwise fun left right => left.stop ≤ right.base)
    (hapart : ∀ r ∈ layout, r.stop ≤ base ∨ base + bytes ≤ r.base) :
    ∃ front back, layout = front ++ back ∧ (∀ r ∈ front, r.stop ≤ base) ∧
      ∀ r ∈ back, base + bytes ≤ r.base := by
  induction layout with
  | nil => exact ⟨[], [], rfl, nofun, nofun⟩
  | cons r rest ih =>
    obtain ⟨hfirst, hrest⟩ := pairwise_cons.1 hsorted
    rcases hapart r mem_cons_self with hstop | hbase
    · obtain ⟨front, back, rfl, hfront, hback⟩ := ih hrest
        fun other hmem => hapart other (mem_cons_of_mem r hmem)
      refine ⟨r :: front, back, rfl, ?_, hback⟩
      intro other hmem
      rcases mem_cons.1 hmem with rfl | hmem
      · exact hstop
      · exact hfront other hmem
    · refine ⟨[], r :: rest, rfl, nofun, fun other hmem => ?_⟩
      rcases mem_cons.1 hmem with rfl | hmem
      · exact hbase
      · have hle := hfirst other hmem
        have hr : r.base ≤ r.stop := Nat.le_add_right _ _
        omega

theorem endPtr_of_mem (hr : Forall₂ (Is node) regions layout) :
    ∀ region ∈ regions, ∃ r ∈ layout, region.endPtr = r.stop := by
  induction hr with
  | nil => exact nofun
  | cons hfirst _ ih =>
    intro region hmem
    rcases mem_cons.1 hmem with rfl | hmem
    · exact ⟨_, mem_cons_self, hfirst.endPtr_eq⟩
    · obtain ⟨r, hr, hend⟩ := ih region hmem
      exact ⟨r, mem_cons_of_mem _ hr, hend⟩

/-- A region with one chunk. -/
theorem is_single (hbase : 0 < base) (hpos : 0 < bytes)
    (hstop : base + bytes < sizeBound) (hsmall : bytes ≤ 2 ^ 39)
    (hdvd : kMinAllocationSize ∣ bytes)
    (hnode : node h = ⟨base, bytes, none, none⟩) :
    Is node ⟨base, bytes, Function.update (fun _ => none) 0 (some h)⟩
      ⟨base, [⟨h, bytes⟩]⟩ where
  ptr_eq := rfl
  size_eq := by simp
  table := by
    intro index
    by_cases hzero : index = 0
    · simp [hzero, tileAt]
    · have hne : kMinAllocationSize * index ≠ 0 :=
        Nat.mul_ne_zero (by decide) hzero
      simp [Function.update_of_ne hzero, tileAt, hne]
  linked := ⟨hnode, trivial⟩
  positive := by
    intro tile htile
    rw [mem_singleton.1 htile]
    exact hpos
  aligned := by
    intro tile htile
    rw [mem_singleton.1 htile]
    exact hdvd
  nonempty := cons_ne_nil _ _
  base_pos := hbase
  stop_lt := by simpa [stop] using hstop
  small := by simpa using hsmall

/-- A block of the device that is apart from all regions becomes a region with
one chunk. -/
theorem addRegion (hs : Shape s layout recycled)
    (hnew : h ∉ handlesOf layout ++ recycled) (hbound : h < s.numChunks)
    (hbase : 0 < base) (hpos : 0 < bytes) (hstop : base + bytes < sizeBound)
    (hsmall : bytes ≤ 2 ^ 39) (hdvd : kMinAllocationSize ∣ bytes)
    (hapart : ∀ r ∈ layout, r.stop ≤ base ∨ base + bytes ≤ r.base)
    (hregions : s'.regions = s.regions.addAllocationRegion
      ⟨base, bytes, Function.update (fun _ => none) 0 (some h)⟩)
    (hnum : s'.numChunks = s.numChunks)
    (hlist : s'.freeChunksList = s.freeChunksList)
    (hnode : (s'.chunk h).node = ⟨base, bytes, none, none⟩)
    (hkeep : ∀ other, other ≠ h →
      (s'.chunk other).node = (s.chunk other).node) :
    ∃ layout', Shape s' layout' recycled ∧
      List.Perm layout' (⟨base, [⟨h, bytes⟩]⟩ :: layout) := by
  obtain ⟨front, back, rfl, hfront, hback⟩ := exists_gap hs.sorted hapart
  have hfrontIs := forall₂_take_append _ _ _ hs.regions
  have hbackIs := forall₂_drop_append _ _ _ hs.regions
  have hsame : ∀ other ∈ handlesOf (front ++ back) ++ recycled,
      (s'.chunk other).node = (s.chunk other).node := fun other hmem =>
    hkeep other fun heq => hnew (heq ▸ hmem)
  have hperm : List.Perm (handlesOf (front ++ ⟨base, [⟨h, bytes⟩]⟩ :: back) ++
      recycled) (h :: (handlesOf (front ++ back) ++ recycled)) := by
    simp only [handlesOf_append, append_assoc]
    exact perm_middle
  have hplaced : s'.regions = s.regions.take front.length ++
      ⟨base, bytes, Function.update (fun _ => none) 0 (some h)⟩ ::
        s.regions.drop front.length := by
    rw [hregions, ← addAllocationRegion_eq, take_append_drop]
    · intro other hmem
      obtain ⟨r, hr, hend⟩ := endPtr_of_mem hfrontIs other hmem
      have hle := hfront r hr
      rw [hend]
      exact Nat.not_lt.2 hle
    · intro other hmem
      obtain ⟨r, hr, hend⟩ := endPtr_of_mem hbackIs other hmem
      have hle := hback r hr
      have hr' : r.base ≤ r.stop := Nat.le_add_right _ _
      dsimp only
      omega
  refine ⟨front ++ ⟨base, [⟨h, bytes⟩]⟩ :: back, ?_, perm_middle⟩
  constructor
  · rw [hplaced]
    refine rel_append (forall₂_is_congr hfrontIs fun other hmem =>
      hsame other (by simp [hmem])) ?_
    exact .cons (is_single hbase hpos hstop hsmall hdvd hnode)
      (forall₂_is_congr hbackIs fun other hmem => hsame other (by simp [hmem]))
  · have hsorted := hs.sorted
    rw [pairwise_append] at hsorted
    rw [pairwise_append, pairwise_cons]
    refine ⟨hsorted.1, ⟨fun r hr => ?_, hsorted.2.1⟩, fun r hr other hmem => ?_⟩
    · simpa [stop] using hback r hr
    · rcases mem_cons.1 hmem with rfl | hmem
      · exact hfront r hr
      · exact hsorted.2.2 r hr other hmem
  · exact hperm.nodup_iff.2 (nodup_cons.2 ⟨hnew, hs.nodup⟩)
  · intro other hmem
    rw [hnum]
    rcases mem_cons.1 (hperm.mem_iff.1 hmem) with rfl | hmem
    · exact hbound
    · exact hs.bounded other hmem
  · rw [hlist]
    exact hs.freeList.congr fun other hmem => congrArg TileNode.next
      (hsame other (mem_append_right _ hmem))

end Shape

end OnnxRuntime
