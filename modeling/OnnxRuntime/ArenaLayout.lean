/-
How the arena lies in memory: every region is tiled by a doubly linked list of
chunks, its table knows where they start, and the remaining chunk records are
on the list of recycled ones.  A chunk can be found, and a part of one region
replaced, while the rest stays as it is.
-/
import OnnxRuntime.BFCArena
import OnnxRuntime.LinkedTilings

namespace OnnxRuntime

open Function List Tiles RegionManager

/-- The part of a chunk that places it. -/
def Chunk.node (c : Chunk) : TileNode := ⟨c.ptr, c.size, c.prev, c.next⟩

/-- A region as its chunks, in the order of their addresses. -/
structure RegionLayout where
  base : Nat
  tiles : List Tile

namespace RegionLayout

def stop (r : RegionLayout) : Nat := r.base + total r.tiles

def handlesOf (layout : List RegionLayout) : List ChunkHandle :=
  layout.flatMap fun r => handles r.tiles

/-- The chunks fill the region one after the other, and the table holds
exactly their starts. -/
structure Is (node : ChunkHandle → TileNode) (region : AllocationRegion)
    (r : RegionLayout) : Prop where
  ptr_eq : region.ptr = r.base
  size_eq : region.memorySize = total r.tiles
  table : ∀ index, region.handles index =
    tileAt r.tiles (kMinAllocationSize * index)
  linked : Linked node none r.base r.tiles none
  positive : Positive r.tiles
  aligned : ∀ tile ∈ r.tiles, kMinAllocationSize ∣ tile.length
  nonempty : r.tiles ≠ []
  base_pos : 0 < r.base
  stop_lt : r.stop < sizeBound
  small : total r.tiles ≤ 2 ^ 39

/-- Between `before` and `after` other chunks of the same total length replace
some, and one entry of the table is overwritten. -/
structure Retiles (node : ChunkHandle → TileNode) (base : Nat)
    (before tiles tiles' after : List Tile) (length : Nat)
    (value : Option ChunkHandle) : Prop where
  total_eq : total tiles' = total tiles
  ne_nil : tiles' ≠ []
  start : ∀ next, headHandle tiles' next = headHandle tiles next
  linked : Linked node (lastHandle none before) (base + total before) tiles'
    (headHandle after none)
  fit : ∀ tile ∈ tiles', 0 < tile.length ∧ kMinAllocationSize ∣ tile.length
  aligned : kMinAllocationSize ∣ length
  table : Positive before → ∀ offset,
    tileAt (before ++ (tiles' ++ after)) offset =
      if offset = total before + length then value
      else tileAt (before ++ (tiles ++ after)) offset

@[simp]
theorem handlesOf_append (front back : List RegionLayout) :
    handlesOf (front ++ back) = handlesOf front ++ handlesOf back :=
  flatMap_append

@[simp]
theorem handlesOf_cons (r : RegionLayout) (rest : List RegionLayout) :
    handlesOf (r :: rest) = handles r.tiles ++ handlesOf rest := rfl

end RegionLayout

open RegionLayout

/-- A list of recycled records, linked by `next`. -/
def FreeList (next : ChunkHandle → Option ChunkHandle) :
    Option ChunkHandle → List ChunkHandle → Prop
  | head, [] => head = none
  | head, h :: rest => head = some h ∧ FreeList next (next h) rest

theorem FreeList.congr {next next' : ChunkHandle → Option ChunkHandle}
    {head : Option ChunkHandle} {recycled : List ChunkHandle}
    (h : FreeList next head recycled)
    (hnext : ∀ handle ∈ recycled, next' handle = next handle) :
    FreeList next' head recycled := by
  induction recycled generalizing head with
  | nil => exact h
  | cons first rest ih =>
    obtain ⟨hhead, hrest⟩ := h
    constructor
    · exact hhead
    · rw [hnext first mem_cons_self]
      exact ih hrest fun handle hmem =>
        hnext handle (mem_cons_of_mem first hmem)

/-- Regions, chunk lists, tables and recycled records fit together. -/
structure Shape (s : BFCArena) (layout : List RegionLayout)
    (recycled : List ChunkHandle) : Prop where
  regions : List.Forall₂ (Is fun h => (s.chunk h).node) s.regions layout
  sorted : layout.Pairwise fun left right => left.stop ≤ right.base
  nodup : (handlesOf layout ++ recycled).Nodup
  bounded : ∀ h ∈ handlesOf layout ++ recycled, h < s.numChunks
  freeList : FreeList (fun h => (s.chunk h).next) s.freeChunksList recycled

section Regions

variable {node : ChunkHandle → TileNode} {region : AllocationRegion}
  {r : RegionLayout} {p : Nat}

namespace RegionLayout.Is

theorem toInt32_eq {value : Nat} (h : value < 2 ^ 31) :
    toInt32 value = value :=
  Int.bmod_eq_of_le (by norm_num) (by omega)

variable (h : Is node region r)
include h

theorem endPtr_eq : region.endPtr = r.stop := by
  have hlt := h.stop_lt
  rw [AllocationRegion.endPtr, h.ptr_eq, h.size_eq, sizeAdd_eq hlt, stop]

/-- No index overflows in a region of at most 2^39 bytes. -/
theorem indexFor_eq (hbase : r.base ≤ p) (hstop : p < r.stop) :
    region.indexFor p = .ok ((p - r.base) / kMinAllocationSize) := by
  obtain ⟨units, hunits⟩ := dvd_total h.aligned
  have hsmall := h.small
  have hend := h.endPtr_eq
  rw [AllocationRegion.endPtr] at hend
  have hindex : (p - r.base) / kMinAllocationSize < units := by
    rw [stop] at hstop
    exact Nat.div_lt_of_lt_mul (by omega)
  have hint := toInt32_eq
    (show (p - r.base) / kMinAllocationSize < 2 ^ 31 by
      rw [hunits, kMinAllocationSize] at hsmall
      omega)
  have hsize : region.memorySize / kMinAllocationSize = units := by
    rw [h.size_eq, hunits, Nat.mul_div_cancel_left _ (by decide)]
  have hbounds : ¬ (toInt32 ((p - r.base) / kMinAllocationSize) < 0 ∨
      ((region.memorySize / kMinAllocationSize : Nat) : Int) ≤
        toInt32 ((p - r.base) / kMinAllocationSize)) := by
    rw [hint]
    generalize (p - r.base) / kMinAllocationSize = index at hindex
    omega
  rw [AllocationRegion.indexFor, hend, h.ptr_eq, if_neg (by omega),
    if_neg (by omega), if_neg hbounds, hint, Int.toNat_natCast]

theorem setHandle_eq (hbase : r.base ≤ p) (hstop : p < r.stop)
    (value : Option ChunkHandle) :
    region.setHandle p value = .ok { region with
      handles := Function.update region.handles
        ((p - r.base) / kMinAllocationSize) value } := by
  rw [AllocationRegion.setHandle, h.indexFor_eq hbase hstop]
  rfl

end RegionLayout.Is

section Search

variable {front back : List RegionLayout}
  {frontRegions backRegions : RegionManager}

/-- The regions before the one that holds an address end before it. -/
theorem endPtr_le_of_sorted (h : Forall₂ (Is node) frontRegions front)
    (hsorted : (front ++ r :: back).Pairwise fun left right =>
      left.stop ≤ right.base) (hbase : r.base ≤ p) :
    ∀ other ∈ frontRegions, ¬ p < other.endPtr := by
  induction h with
  | nil => exact fun _ hother => nomatch hother
  | cons hregion _ ih =>
    obtain ⟨hfirst, hrest⟩ := pairwise_cons.mp hsorted
    intro other hother
    rcases mem_cons.mp hother with rfl | hother
    · have hle := hfirst r (by simp)
      rw [hregion.endPtr_eq]
      omega
    · exact ih hrest other hother

section

variable (hfront : ∀ other ∈ frontRegions, ¬ p < other.endPtr)
    (hregion : Is node region r) (hbase : r.base ≤ p) (hstop : p < r.stop)
include hfront hregion hbase hstop

theorem getHandle_eq :
    getHandle p (frontRegions ++ region :: backRegions) =
      .ok (tileAt r.tiles
        (kMinAllocationSize * ((p - r.base) / kMinAllocationSize))) := by
  induction frontRegions with
  | nil =>
    rw [nil_append, getHandle, hregion.endPtr_eq,
      if_pos hstop, hregion.indexFor_eq hbase hstop, ← hregion.table]
    rfl
  | cons first rest ih =>
    rw [cons_append, getHandle, if_neg (hfront first mem_cons_self)]
    exact ih fun other hother => hfront other (mem_cons_of_mem _ hother)

theorem setHandle_eq (value : Option ChunkHandle) :
    setHandle p value (frontRegions ++ region :: backRegions) =
      .ok (frontRegions ++ { region with
        handles := Function.update region.handles
          ((p - r.base) / kMinAllocationSize) value } :: backRegions) := by
  induction frontRegions with
  | nil =>
    rw [nil_append, setHandle, hregion.endPtr_eq,
      if_pos hstop, hregion.setHandle_eq hbase hstop]
    rfl
  | cons first rest ih =>
    rw [cons_append, setHandle, if_neg (hfront first mem_cons_self),
      ih fun other hother => hfront other (mem_cons_of_mem _ hother)]
    rfl

end

/-- A new block goes between the regions before it and those behind it. -/
theorem addAllocationRegion_eq {new : AllocationRegion}
    (hfront : ∀ other ∈ frontRegions, ¬ new.ptr < other.endPtr)
    (hback : ∀ other ∈ backRegions, new.ptr < other.endPtr) :
    addAllocationRegion new (frontRegions ++ backRegions) =
      frontRegions ++ new :: backRegions := by
  induction frontRegions with
  | nil =>
    cases backRegions with
    | nil => rfl
    | cons first rest =>
      rw [nil_append, addAllocationRegion, if_pos (hback first mem_cons_self)]
      rfl
  | cons first rest ih =>
    rw [cons_append, addAllocationRegion, if_neg (hfront first mem_cons_self),
      ih fun other hother => hfront other (mem_cons_of_mem _ hother)]
    rfl

end Search

namespace RegionLayout.Is

variable {node' : ChunkHandle → TileNode} {base : Nat}
  {before after : List Tile}

/-- An index of the table is hit when the address is. -/
theorem mul_eq_iff {offset index : Nat} (h : kMinAllocationSize ∣ offset) :
    kMinAllocationSize * index = offset ↔
      index = offset / kMinAllocationSize := by
  obtain ⟨units, rfl⟩ := h
  rw [Nat.mul_div_cancel_left _ (by decide)]
  exact ⟨Nat.eq_of_mul_eq_mul_left (by decide), fun h => by rw [h]⟩

theorem dvd_total_before {tiles : List Tile}
    (h : Is node region ⟨base, before ++ tiles⟩) :
    kMinAllocationSize ∣ total before :=
  dvd_total fun tile htile => h.aligned tile (mem_append_left tiles htile)

theorem retile {tiles tiles' : List Tile} {length : Nat}
    {value : Option ChunkHandle}
    (h : Is node region ⟨base, before ++ (tiles ++ after)⟩)
    (hnew : Retiles node' base before tiles tiles' after length value)
    (hafter : (handles after).Nodup)
    (hkeep : ∀ other ∈ handles before, node' other = node other)
    (hhead : ∀ other, headHandle after none = some other → node' other =
      { node other with prev := lastHandle (lastHandle none before) tiles' })
    (hrest : ∀ other ∈ handles after, headHandle after none ≠ some other →
      node' other = node other) :
    Is node' { region with
        handles := Function.update region.handles
          ((total before + length) / kMinAllocationSize) value }
      ⟨base, before ++ (tiles' ++ after)⟩ := by
  have hsame : total (before ++ (tiles' ++ after)) =
      total (before ++ (tiles ++ after)) := by
    simp only [total_append, hnew.total_eq]
  have hmem : ∀ tile ∈ before ++ (tiles' ++ after), tile ∈ tiles' ∨
      tile ∈ before ++ (tiles ++ after) := by
    intro tile htile
    simp only [mem_append] at htile ⊢
    tauto
  have hbefore : Positive before := fun tile htile =>
    h.positive tile (mem_append_left _ htile)
  obtain ⟨hlinkedBefore, hlinkedRest⟩ := linked_append.mp h.linked
  constructor
  · exact h.ptr_eq
  · rw [hsame]
    exact h.size_eq
  · intro index
    have hoffset : kMinAllocationSize ∣ total before + length :=
      Nat.dvd_add (dvd_total_before h) hnew.aligned
    rw [hnew.table hbefore]
    dsimp only
    rw [update_apply, h.table]
    exact if_congr (mul_eq_iff hoffset).symm rfl rfl
  · refine linked_append.mpr ⟨?_, linked_append.mpr ⟨hnew.linked, ?_⟩⟩
    · rw [headHandle_append, hnew.start, ← headHandle_append]
      exact hlinkedBefore.congr hkeep
    · rw [hnew.total_eq]
      exact (linked_append.mp hlinkedRest).2.relink hafter hhead hrest
  · intro tile htile
    rcases hmem tile htile with htile | htile
    · exact (hnew.fit tile htile).1
    · exact h.positive tile htile
  · intro tile htile
    rcases hmem tile htile with htile | htile
    · exact (hnew.fit tile htile).2
    · exact h.aligned tile htile
  · simp [hnew.ne_nil]
  · exact h.base_pos
  · rw [stop, hsame]
    exact h.stop_lt
  · rw [hsame]
    exact h.small

end RegionLayout.Is

end Regions

open Option RegionLayout

variable {s s' : BFCArena} {layout : List RegionLayout}
  {recycled : List ChunkHandle} {h h' : ChunkHandle}

/-- A position in a region, with what lies before and behind it. -/
structure Place where
  front : List RegionLayout
  base : Nat
  before : List Tile
  after : List Tile
  back : List RegionLayout
  frontRegions : RegionManager
  region : AllocationRegion
  backRegions : RegionManager

namespace Place

/-- The layout with the tiles given at the place. -/
def fill (place : Place) (tiles : List Tile) : List RegionLayout :=
  place.front ++ ⟨place.base, place.before ++ (tiles ++ place.after)⟩ ::
    place.back

/-- The tiles are at the place. -/
structure Holds (place : Place) (s : BFCArena) (tiles : List Tile) : Prop where
  regions_eq : s.regions =
    place.frontRegions ++ place.region :: place.backRegions
  front_is : List.Forall₂ (Is fun h => (s.chunk h).node) place.frontRegions
    place.front
  region_is : Is (fun h => (s.chunk h).node) place.region
    ⟨place.base, place.before ++ (tiles ++ place.after)⟩
  back_is : List.Forall₂ (Is fun h => (s.chunk h).node) place.backRegions
    place.back

/-- The chunks that are not at the place. -/
def others (place : Place) : List ChunkHandle :=
  handlesOf place.front ++ handles place.before ++ handles place.after ++
    handlesOf place.back

theorem perm_fill (place : Place) (tiles : List Tile)
    (recycled : List ChunkHandle) :
    List.Perm (handlesOf (place.fill tiles) ++ recycled)
      (handles tiles ++ (place.others ++ recycled)) := by
  simp only [fill, others, handlesOf_append, handlesOf_cons, handles_append,
    ← append_assoc]
  refine Perm.append_right _ (Perm.append_right _ (Perm.append_right _ ?_))
  rw [append_assoc (handles tiles)]
  exact perm_append_comm

theorem mem_handlesOf_fill {place : Place} {tiles : List Tile} :
    h ∈ handlesOf (place.fill tiles) ↔ h ∈ handles tiles ∨ h ∈ place.others := by
  have hperm := (place.perm_fill tiles []).mem_iff (a := h)
  simpa using hperm

/-- The chunks behind the place are apart from the rest. -/
theorem nodup_after {place : Place} (h : place.others.Nodup) :
    (handles place.after).Nodup ∧ ∀ other ∈ handles place.after,
      other ∉ handlesOf place.front ∧ other ∉ handles place.before ∧
        other ∉ handlesOf place.back := by
  simp only [others, nodup_append] at h
  grind

end Place

/-- Relating two lists, the first one splits where the second does. -/
theorem forall₂_append_cons {α β : Type} {R : α → β → Prop} {items : List α}
    {front back : List β} {b : β}
    (h : Forall₂ R items (front ++ b :: back)) :
    ∃ frontItems item backItems, items = frontItems ++ item :: backItems ∧
      Forall₂ R frontItems front ∧ R item b ∧
      Forall₂ R backItems back := by
  induction front generalizing items with
  | nil =>
    cases h with
    | cons hfirst hrest => exact ⟨[], _, _, rfl, .nil, hfirst, hrest⟩
  | cons first rest ih =>
    cases h with
    | cons hfirst hrest =>
      obtain ⟨frontItems, item, backItems, rfl, hfront, hitem, hback⟩ :=
        ih hrest
      exact ⟨_ :: frontItems, item, backItems, rfl, .cons hfirst hfront,
        hitem, hback⟩

theorem RegionLayout.Is.congr {node node' : ChunkHandle → TileNode}
    {region : AllocationRegion} {r : RegionLayout} (hr : Is node region r)
    (hnode : ∀ h ∈ handles r.tiles, node' h = node h) : Is node' region r :=
  { hr with linked := hr.linked.congr hnode }

theorem forall₂_is_congr {node node' : ChunkHandle → TileNode}
    {regions : RegionManager} (hr : Forall₂ (Is node) regions layout)
    (hnode : ∀ h ∈ handlesOf layout, node' h = node h) :
    Forall₂ (Is node') regions layout := by
  induction hr with
  | nil => exact .nil
  | cons hfirst _ ih =>
    exact .cons (hfirst.congr fun h hmem => hnode h (mem_append_left _ hmem))
      (ih fun h hmem => hnode h (mem_append_right _ hmem))

namespace Shape

/-- A change of the state that moves no chunk. -/
theorem congr (hs : Shape s layout recycled) (hregions : s'.regions = s.regions)
    (hnum : s'.numChunks = s.numChunks)
    (hlist : s'.freeChunksList = s.freeChunksList)
    (hnode : ∀ h, (s'.chunk h).node = (s.chunk h).node) :
    Shape s' layout recycled where
  regions := by
    rw [hregions]
    exact forall₂_is_congr hs.regions fun h _ => hnode h
  sorted := hs.sorted
  nodup := hs.nodup
  bounded := by
    rw [hnum]
    exact hs.bounded
  freeList := by
    rw [hlist]
    exact hs.freeList.congr fun h _ => congrArg TileNode.next (hnode h)

variable {place : Place} {tiles : List Tile} {left right : Tile}

theorem exists_place (hs : Shape s layout recycled)
    (hmem : h ∈ handlesOf layout) :
    ∃ (place : Place) (tile : Tile), tile.handle = h ∧
      layout = place.fill [tile] ∧ place.Holds s [tile] := by
  obtain ⟨r, hr, hmem⟩ := mem_flatMap.mp hmem
  obtain ⟨tile, htile, rfl⟩ := mem_map.mp hmem
  obtain ⟨front, back, rfl⟩ := append_of_mem hr
  obtain ⟨base, tiles⟩ := r
  obtain ⟨before, after, rfl⟩ := append_of_mem htile
  obtain ⟨frontRegions, region, backRegions, heq, hfront, hregion, hback⟩ :=
    forall₂_append_cons hs.regions
  exact ⟨⟨front, base, before, after, back, frontRegions, region, backRegions⟩,
    tile, rfl, rfl, heq, hfront, hregion, hback⟩

/-- The record of a chunk at its place. -/
theorem node_eq {tile : Tile} (hplace : place.Holds s [tile]) :
    (s.chunk tile.handle).node = ⟨place.base + total place.before,
      tile.length, lastHandle none place.before, headHandle place.after none⟩ :=
  Linked.node_eq hplace.region_is.linked

/-- A chunk with its successor. -/
theorem exists_place_next (hs : Shape s layout recycled)
    (hmem : h ∈ handlesOf layout) (hnext : (s.chunk h).next = some h') :
    ∃ (place : Place) (left right : Tile), left.handle = h ∧
      right.handle = h' ∧ layout = place.fill [left, right] ∧
      place.Holds s [left, right] := by
  obtain ⟨⟨front, base, before, after, back, frontRegions, region,
    backRegions⟩, left, rfl, rfl, hplace⟩ := hs.exists_place hmem
  have hnode := congrArg TileNode.next (node_eq hplace)
  cases after with
  | nil =>
    rw [Chunk.node, hnext] at hnode
    cases hnode
  | cons right after =>
    rw [Chunk.node, hnext] at hnode
    exact ⟨⟨front, base, before, after, back, frontRegions, region,
      backRegions⟩, left, right, rfl, (some_inj.mp hnode).symm, rfl,
      hplace.regions_eq, hplace.front_is, hplace.region_is, hplace.back_is⟩

/-- A chunk with its predecessor. -/
theorem exists_place_prev (hs : Shape s layout recycled)
    (hmem : h ∈ handlesOf layout) (hprev : (s.chunk h).prev = some h') :
    ∃ (place : Place) (left right : Tile), left.handle = h' ∧
      right.handle = h ∧ layout = place.fill [left, right] ∧
      place.Holds s [left, right] := by
  obtain ⟨⟨front, base, before, after, back, frontRegions, region,
    backRegions⟩, right, rfl, rfl, hplace⟩ := hs.exists_place hmem
  have hnode := congrArg TileNode.prev (node_eq hplace)
  rw [Chunk.node, hprev] at hnode
  rcases eq_nil_or_concat' before with rfl | ⟨rest, left, rfl⟩
  · cases hnode
  · rw [lastHandle_concat] at hnode
    have hsplit : rest ++ [left] ++ ([right] ++ after) =
        rest ++ ([left, right] ++ after) := by simp
    refine ⟨⟨front, base, rest, after, back, frontRegions, region,
      backRegions⟩, left, right, (some_inj.mp hnode).symm, rfl, ?_,
      hplace.regions_eq, hplace.front_is, ?_, hplace.back_is⟩
    · rw [Place.fill, Place.fill]
      rw [hsplit]
    · have hregion := hplace.region_is
      rw [hsplit] at hregion
      exact hregion

theorem node_left_eq (hplace : place.Holds s [left, right]) :
    (s.chunk left.handle).node = ⟨place.base + total place.before,
      left.length, lastHandle none place.before, some right.handle⟩ :=
  (linked_append.mp hplace.region_is.linked).2.1

theorem node_right_eq (hplace : place.Holds s [left, right]) :
    (s.chunk right.handle).node =
      ⟨place.base + total place.before + left.length, right.length,
        some left.handle, headHandle place.after none⟩ :=
  (linked_append.mp hplace.region_is.linked).2.2.1

theorem headHandle_mem (hhead : headHandle tiles none = some h) :
    h ∈ handles tiles := by
  cases tiles with
  | nil => cases hhead
  | cons tile rest =>
    cases hhead
    exact mem_cons_self

end Shape

end OnnxRuntime
