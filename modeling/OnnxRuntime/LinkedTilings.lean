/-
Doubly linked lists of tiles in a store: each tile starts where the one before
it ends.  Cutting a tile in two, joining two tiles, and the tile that starts at
an offset.  Blocks that do not overlap.
-/
import Mathlib.Algebra.GroupWithZero.Nat
import Mathlib.Data.List.Nodup
import Mathlib.Order.Interval.Finset.Nat

namespace OnnxRuntime

open List

/-- What the store says about a tile. -/
@[ext]
structure TileNode where
  start : Nat
  length : Nat
  prev : Option Nat
  next : Option Nat

/-- A tile with its name in the store. -/
structure Tile where
  handle : Nat
  length : Nat

namespace Tiles

def handles (tiles : List Tile) : List Nat := tiles.map (·.handle)

def total (tiles : List Tile) : Nat := (tiles.map (·.length)).sum

/-- The first tile, or what comes after the list. -/
def headHandle : List Tile → Option Nat → Option Nat
  | [], after => after
  | tile :: _, _ => some tile.handle

/-- The last tile, or what comes before the list. -/
def lastHandle : Option Nat → List Tile → Option Nat
  | before, [] => before
  | _, tile :: rest => lastHandle (some tile.handle) rest

def Linked (node : Nat → TileNode) :
    Option Nat → Nat → List Tile → Option Nat → Prop
  | _, _, [], _ => True
  | before, start, tile :: rest, after =>
    node tile.handle = ⟨start, tile.length, before, headHandle rest after⟩ ∧
      Linked node (some tile.handle) (start + tile.length) rest after

/-- The handle of the tile that starts at an offset. -/
def tileAt : List Tile → Nat → Option Nat
  | [], _ => none
  | tile :: rest, offset =>
    if offset = 0 then some tile.handle
    else if offset < tile.length then none
    else tileAt rest (offset - tile.length)

variable {node node' : Nat → TileNode} {before after : Option Nat}
  {start : Nat} {front back : List Tile}

@[simp]
theorem handles_append : handles (front ++ back) = handles front ++ handles back :=
  map_append

@[simp]
theorem handles_cons (tile : Tile) (rest : List Tile) :
    handles (tile :: rest) = tile.handle :: handles rest := rfl

@[simp]
theorem total_append : total (front ++ back) = total front + total back := by
  rw [total, map_append, sum_append, total, total]

@[simp]
theorem total_nil : total [] = 0 := rfl

@[simp]
theorem total_cons (tile : Tile) (rest : List Tile) :
    total (tile :: rest) = tile.length + total rest := by
  rw [total, map_cons, sum_cons, total]

variable {tiles : List Tile} {handle : Nat} {whole left right : Tile}

theorem dvd_total {unit : Nat} (h : ∀ tile ∈ tiles, unit ∣ tile.length) :
    unit ∣ total tiles := by
  induction tiles with
  | nil => exact Nat.dvd_zero unit
  | cons tile rest ih =>
    exact Nat.dvd_add (h tile mem_cons_self)
      (ih fun other hother => h other (mem_cons_of_mem tile hother))

theorem headHandle_append :
    headHandle (front ++ back) after =
      headHandle front (headHandle back after) := by
  cases front <;> rfl

theorem linked_append : Linked node before start (front ++ back) after ↔
      Linked node before start front (headHandle back after) ∧
        Linked node (lastHandle before front) (start + total front) back
          after := by
  induction front generalizing before start with
  | nil => simp [Linked, lastHandle]
  | cons tile rest ih =>
    rw [cons_append, Linked, Linked, ih, lastHandle, total_cons,
      headHandle_append, and_assoc, Nat.add_assoc]

/-- What the node of a tile in the list says. -/
theorem Linked.node_eq {tile : Tile}
    (h : Linked node before start (front ++ tile :: back) after) :
    node tile.handle = ⟨start + total front, tile.length,
      lastHandle before front, headHandle back after⟩ :=
  (linked_append.mp h).2.1

section

variable (h : Linked node before start tiles after)
include h

/-- Only the nodes of the tiles matter. -/
theorem Linked.congr
    (hnode : ∀ handle ∈ handles tiles, node' handle = node handle) :
    Linked node' before start tiles after := by
  induction tiles generalizing before start with
  | nil => trivial
  | cons tile rest ih =>
    obtain ⟨htile, hrest⟩ := h
    constructor
    · rw [hnode tile.handle mem_cons_self, htile]
    · exact ih hrest fun handle hmem =>
        hnode handle (mem_cons_of_mem _ hmem)

/-- The list gets another tile before it, of which its first node is told. -/
theorem Linked.relink {before' : Option Nat} (hnodup : (handles tiles).Nodup)
    (hhead : ∀ handle, headHandle tiles none = some handle →
      node' handle = { node handle with prev := before' })
    (hrest : ∀ handle ∈ handles tiles, headHandle tiles none ≠ some handle →
      node' handle = node handle) :
    Linked node' before' start tiles after := by
  cases tiles with
  | nil => trivial
  | cons tile rest =>
    obtain ⟨htile, htail⟩ := h
    obtain ⟨hnew, -⟩ := nodup_cons.mp hnodup
    constructor
    · rw [hhead tile.handle rfl, htile]
    · refine htail.congr fun handle hmem => ?_
      refine hrest handle (mem_cons_of_mem _ hmem) fun heq => ?_
      cases heq
      exact hnew hmem

/-- The tiles of a list lie between its start and its end. -/
theorem Linked.within (hmem : handle ∈ handles tiles) :
    start ≤ (node handle).start ∧
      (node handle).start + (node handle).length ≤ start + total tiles := by
  obtain ⟨tile, htile, rfl⟩ := mem_map.mp hmem
  obtain ⟨front, back, rfl⟩ := append_of_mem htile
  rw [h.node_eq, total_append, total_cons]
  dsimp only
  omega

theorem Linked.sum_lengths :
    ((handles tiles).map fun handle => (node handle).length).sum =
      total tiles := by
  induction tiles generalizing before start with
  | nil => rfl
  | cons tile rest ih =>
    rw [handles_cons, map_cons, sum_cons, ih h.2, h.1, total_cons]

end

theorem lastHandle_concat (tile : Tile) :
    lastHandle before (front ++ [tile]) = some tile.handle := by
  induction front generalizing before with
  | nil => rfl
  | cons first rest ih => exact ih

/-- No tile of the list is empty. -/
def Positive (tiles : List Tile) : Prop := ∀ tile ∈ tiles, 0 < tile.length

theorem tileAt_append (hfront : Positive front) (offset : Nat) :
    tileAt (front ++ back) offset =
      if offset < total front then tileAt front offset
      else tileAt back (offset - total front) := by
  induction front generalizing offset with
  | nil => simp
  | cons tile rest ih =>
    have hpos := hfront tile mem_cons_self
    have hrest := ih fun other hother =>
      hfront other (mem_cons_of_mem tile hother)
    rw [cons_append, tileAt, tileAt, total_cons]
    grind

section

variable (hfront : Positive front) (hleft : 0 < left.length)
    (hright : 0 < right.length) (hhandle : left.handle = whole.handle)
    (hlength : left.length + right.length = whole.length) (offset : Nat)
include hfront hleft hright hhandle hlength offset

/-- Cutting a tile in two adds the start of the second half. -/
theorem tileAt_cut :
    tileAt (front ++ left :: right :: back) offset =
      if offset = total front + left.length then some right.handle
      else tileAt (front ++ whole :: back) offset := by
  rw [tileAt_append hfront, tileAt_append hfront]
  simp only [tileAt, hhandle]
  grind

/-- Joining two tiles takes the start of the second one away. -/
theorem tileAt_join :
    tileAt (front ++ whole :: back) offset =
      if offset = total front + left.length then none
      else tileAt (front ++ left :: right :: back) offset := by
  rw [tileAt_append hfront, tileAt_append hfront]
  simp only [tileAt, hhandle]
  grind

end

/-- A tile that is found starts at the offset. -/
theorem tileAt_eq_some_iff (hpos : Positive tiles) {offset : Nat} :
    tileAt tiles offset = some handle ↔ ∃ front tile back,
      tiles = front ++ tile :: back ∧ tile.handle = handle ∧
        total front = offset := by
  constructor
  · intro h
    induction tiles generalizing offset with
    | nil => cases h
    | cons tile rest ih =>
      rw [tileAt] at h
      split at h
      · rename_i hzero
        cases h
        exact ⟨[], tile, rest, rfl, rfl, hzero.symm⟩
      · split at h
        · cases h
        · obtain ⟨front, found, back, hrest, hhandle, htotal⟩ :=
            ih (fun other hother =>
              hpos other (mem_cons_of_mem tile hother)) h
          refine ⟨tile :: front, found, back, ?_, hhandle, ?_⟩
          · rw [hrest, cons_append]
          · rw [total_cons]
            omega
  · rintro ⟨front, tile, back, rfl, rfl, rfl⟩
    have hfront : Positive front := fun other hother =>
      hpos other (mem_append_left _ hother)
    rw [tileAt_append hfront, if_neg (Nat.lt_irrefl _), Nat.sub_self, tileAt,
      if_pos rfl]

end Tiles

/-- One block ends where the other starts or before. -/
def BlocksApart (a b : Nat × Nat) : Prop := a.2 ≤ b.1 ∨ b.2 ≤ a.1

theorem BlocksApart.symm {a b : Nat × Nat} (h : BlocksApart a b) :
    BlocksApart b a := Or.symm h

/-- Blocks that are not empty, below `top`, and apart from one another. -/
structure SeparateBlocks (top : Nat) (blocks : List (Nat × Nat)) : Prop where
  apart : blocks.Pairwise BlocksApart
  inside : ∀ b ∈ blocks, b.1 < b.2 ∧ b.2 < top

namespace SeparateBlocks

variable {top : Nat} {blocks blocks' : List (Nat × Nat)} {b : Nat × Nat}

theorem nil (top : Nat) : SeparateBlocks top [] := ⟨.nil, nofun⟩

variable (h : SeparateBlocks top blocks)
include h

theorem cons (hinside : b.1 < b.2 ∧ b.2 < top)
    (hapart : ∀ other ∈ blocks, BlocksApart b other) :
    SeparateBlocks top (b :: blocks) := by
  refine ⟨pairwise_cons.2 ⟨hapart, h.apart⟩, fun other hmem => ?_⟩
  rcases mem_cons.1 hmem with rfl | hmem
  · exact hinside
  · exact h.inside other hmem

theorem perm (hperm : blocks'.Perm blocks) :
    SeparateBlocks top blocks' :=
  ⟨(hperm.pairwise_iff BlocksApart.symm).2 h.apart,
    fun b hmem => h.inside b (hperm.mem_iff.1 hmem)⟩

theorem sublist (hsub : blocks'.Sublist blocks) : SeparateBlocks top blocks' :=
  ⟨h.apart.sublist hsub, fun b hmem => h.inside b (hsub.subset hmem)⟩

end SeparateBlocks

/-- The addresses in some blocks. -/
def blockCells : List (Nat × Nat) → Finset Nat
  | [] => ∅
  | b :: rest => Finset.Ico b.1 b.2 ∪ blockCells rest

variable {blocks : List (Nat × Nat)}

theorem mem_blockCells {cell : Nat} :
    cell ∈ blockCells blocks ↔ ∃ b ∈ blocks, b.1 ≤ cell ∧ cell < b.2 := by
  induction blocks with
  | nil => simp [blockCells]
  | cons b rest ih => simp [blockCells, ih]

/-- No address is counted twice. -/
theorem card_blockCells (h : blocks.Pairwise BlocksApart) :
    (blockCells blocks).card = (blocks.map fun b => b.2 - b.1).sum := by
  induction blocks with
  | nil => rfl
  | cons b rest ih =>
    obtain ⟨hfirst, hrest⟩ := pairwise_cons.1 h
    have hdisjoint : Disjoint (Finset.Ico b.1 b.2) (blockCells rest) := by
      refine Finset.disjoint_left.2 fun cell hcell hother => ?_
      obtain ⟨other, hmem, hother⟩ := mem_blockCells.1 hother
      have hcell := Finset.mem_Ico.1 hcell
      rcases hfirst other hmem with hapart | hapart
      · omega
      · omega
    rw [blockCells, Finset.card_union_of_disjoint hdisjoint, ih hrest,
      Nat.card_Ico, map_cons, sum_cons]

/-- Together they are no longer than the space they are in. -/
theorem SeparateBlocks.sum_lt {top : Nat} (h : SeparateBlocks top blocks)
    (htop : 0 < top) :
    (blocks.map fun b => b.2 - b.1).sum < top := by
  rw [← card_blockCells h.apart]
  have hsub : blockCells blocks ⊆ Finset.range (top - 1) := by
    intro cell hcell
    obtain ⟨b, hmem, hcell⟩ := mem_blockCells.1 hcell
    have htop := (h.inside b hmem).2
    rw [Finset.mem_range]
    omega
  have hcard := Finset.card_le_card hsub
  rw [Finset.card_range] at hcard
  omega

end OnnxRuntime
