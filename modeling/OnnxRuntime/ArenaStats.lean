/-
Whole runs of the arena: the search, said without the layout (a chunk is what
some table of a region holds), and the counters, which are exact as long as the
device refuses no reservation and its blocks are below 2^63.
-/
import OnnxRuntime.ArenaRuns
import Mathlib.Algebra.BigOperators.Group.Finset.Basic
import Mathlib.Algebra.Order.BigOperators.Group.List

namespace OnnxRuntime

open List Tiles RegionLayout

variable {s s' : BFCArena} {layout layout' : List RegionLayout}
  {recycled recycled' : List ChunkHandle} {live : List (Nat × Nat)}
  {past : List BFCArena} {h h' : ChunkHandle} {r n : Nat}
  {node : ChunkHandle → TileNode}

/-- The table of a region holds exactly its chunks. -/
theorem RegionLayout.Is.mem_table_iff
    {region : AllocationRegion} {r : RegionLayout} (hr : Is node region r) :
    (∃ index, region.handles index = some h) ↔ h ∈ handles r.tiles := by
  constructor
  · rintro ⟨index, hindex⟩
    rw [hr.table] at hindex
    obtain ⟨front, tile, back, htiles, rfl, -⟩ :=
      (tileAt_eq_some_iff hr.positive).1 hindex
    rw [htiles]
    simp [handles]
  · intro hmem
    obtain ⟨tile, htile, rfl⟩ := mem_map.1 hmem
    obtain ⟨front, back, htiles⟩ := append_of_mem htile
    obtain ⟨units, hunits⟩ : kMinAllocationSize ∣ total front :=
      dvd_total fun other hother => hr.aligned other
        (htiles ▸ mem_append_left _ hother)
    refine ⟨units, ?_⟩
    rw [hr.table]
    exact (tileAt_eq_some_iff hr.positive).2
      ⟨front, tile, back, htiles, rfl, hunits⟩

namespace BFCArena

/-- A free chunk of at least `r` bytes in one of the regions. -/
structure FreeChunk (s : BFCArena) (r : Nat) (h : ChunkHandle) : Prop where
  mem : ∃ region ∈ s.regions, ∃ index, region.handles index = some h
  free : ¬ (s.chunk h).InUse
  fits : r ≤ (s.chunk h).size

/-- `FindChunkPtr` returns null exactly if no free chunk is large enough.
Otherwise it takes the smallest one, among equals the one at the lowest
address, and hands out `r` bytes of it or, if it can spare too little, all. -/
structure FindsBest (s : BFCArena) (r n : Nat) : Prop where
  returns : ∃ p s', ArenaM.findChunkPtr (binNumForSize r) r n s = .ok p s'
  null_iff : ∀ p s', ArenaM.findChunkPtr (binNumForSize r) r n s = .ok p s' →
    (p = 0 ↔ ∀ h, ¬ s.FreeChunk r h)
  best : ∀ p s', ArenaM.findChunkPtr (binNumForSize r) r n s = .ok p s' →
    p ≠ 0 → ∃ h, s.FreeChunk r h ∧ (s.chunk h).ptr = p ∧
      (∀ other, s.FreeChunk r other → (s.chunk h).size < (s.chunk other).size ∨
        (s.chunk h).size = (s.chunk other).size ∧ p ≤ (s.chunk other).ptr) ∧
      (s'.chunk h).InUse ∧ (s'.chunk h).ptr = p ∧
      (s'.chunk h).requestedSize = n ∧
      ((s'.chunk h).size = r ∨ (s'.chunk h).size = (s.chunk h).size ∧
        (s'.chunk h).size < 2 * r ∧ (s'.chunk h).size < r + 2 ^ 27)

/-- After `Extend` has returned true the search finds a chunk. -/
def ExtendServes (s : BFCArena) (r n : Nat) (answers : List Nat) : Prop :=
  ∀ s', ArenaM.extend r { s with answers := answers, requests := [] } =
      .ok true s' →
    ∃ p s'', ArenaM.findChunkPtr (binNumForSize r) r n s' = .ok p s'' ∧ p ≠ 0

section

variable (hw : s.WellFormed layout recycled ∅ ∅)
include hw

/-- The tables hold exactly the chunks. -/
theorem WellFormed.mem_handles_iff :
    (∃ region ∈ s.regions, ∃ index, region.handles index = some h) ↔
      h ∈ handlesOf layout := by
  have hr := hw.shape.regions
  clear hw
  generalize s.regions = regions at hr ⊢
  induction hr with
  | nil => exact iff_of_false nofun nofun
  | cons hfirst _ ih =>
    simp only [mem_cons, exists_eq_or_imp, ih, hfirst.mem_table_iff,
      handlesOf_cons, mem_append]

theorem WellFormed.candidate_iff :
    s.Candidate layout r h ↔ s.FreeChunk r h :=
  ⟨fun hh => ⟨hw.mem_handles_iff.2 hh.mem, hh.free, hh.fits⟩,
    fun hh => ⟨hw.mem_handles_iff.1 hh.mem, hh.free, hh.fits⟩⟩

theorem WellFormed.searches (hpos : 0 < r) (hdvd : kMinAllocationSize ∣ r) :
    s.FindsBest r n := by
  rcases hw.findChunkPtr hpos hdvd n with ⟨hnone, hrun⟩ |
    ⟨h, s₁, layout₁, recycled₁, hbest, hrun, hw₁, htakes⟩
  · have hno : ∀ h, ¬ s.FreeChunk r h := fun h hh =>
      hnone h (hw.candidate_iff.2 hh)
    refine ⟨⟨0, s, hrun⟩, ?_, ?_⟩
    · rw [hrun]
      rintro _ _ ⟨⟩
      exact iff_of_true rfl hno
    · rw [hrun]
      rintro _ _ ⟨⟩ hp
      exact absurd rfl hp
  · have hptr := hw.ptr_pos hbest.mem
    have hfree := hw.candidate_iff.1 hbest.toCandidate
    obtain ⟨⟨hmem, hused⟩, hptr', hsize, hrequested⟩ :=
      usedAt_eq_some.1 htakes.usedAt_self
    refine ⟨⟨_, s₁, hrun⟩, ?_, ?_⟩
    · rw [hrun]
      rintro _ _ ⟨⟩
      exact iff_of_false hptr.ne' fun hno => hno h hfree
    · rw [hrun]
      rintro _ _ ⟨⟩ -
      refine ⟨h, hfree, rfl, fun other hother => ?_, hused, hptr', hrequested,
        ?_⟩
      · rcases hbest.least other (hw.candidate_iff.2 hother) with rfl | hbefore
        · exact .inr ⟨rfl, Nat.le_refl _⟩
        · simp only [chunkBefore] at hbefore
          split at hbefore
          · exact .inl (of_decide_eq_true hbefore)
          · rename_i heq
            exact .inr ⟨not_not.1 heq, (of_decide_eq_true hbefore).le⟩
      · rw [hsize, handedSize, ArenaM.maxInternalFragmentation]
        split
        · exact .inl rfl
        · exact .inr ⟨rfl, by omega, by omega⟩

end

theorem Runs.findsBest {limit : Nat}
    (hrun : Runs sizeBound limit Safe s live past)
    (hpos : 0 < r) (hdvd : kMinAllocationSize ∣ r) :
    s.FindsBest r n ∧ ∀ answers,
      (∀ request ∈ (endState (ArenaM.extend r
        { s with answers := answers, requests := [] })).requests,
          s.Fair sizeBound request ∧
            (request.answer ≠ 0 → request.bytes ≤ 2 ^ 39)) →
      s.ExtendServes r n answers := by
  obtain ⟨layout, recycled, hs⟩ := hrun.sound (Nat.le_refl _)
  refine ⟨hs.wellFormed.searches hpos hdvd, fun answers hdevice s' hextend => ?_⟩
  have hs₀ : Sound sizeBound { s with answers := answers, requests := [] } live
      layout recycled := hs.of_core rfl
  rcases hs₀.wellFormed.extend hrun.reaches.balanced.unit hpos
      fun request hmem hne => hs₀.usable (Nat.le_refl _)
        (hdevice request hmem).1 hne ((hdevice request hmem).2 hne) with
    ⟨s₁, hrun₁, -⟩ | ⟨s₁, layout₁, recycled₁, h, request, hrun₁, hw₁, -, -, -,
      hcandidate⟩ | hstalls
  · rw [hrun₁] at hextend
    cases hextend
  · rw [hrun₁] at hextend
    cases hextend
    obtain ⟨⟨p, s'', hfind⟩, hnull, -⟩ := hw₁.searches (n := n) hpos hdvd
    refine ⟨p, s'', hfind, fun hp => ?_⟩
    exact (hnull p s'' hfind).1 hp h (hw₁.candidate_iff.1 hcandidate)
  · rw [hextend] at hstalls
    cases hstalls

theorem findsBest_oneAlloc : oneAlloc.FindsBest 512 500 :=
  ((runs_oneAlloc (by decide) safe_oneAlloc).findsBest (by decide)
    (by decide)).1

/-- The chunk of 2^40 bytes that `Extend` made is cut where the index of the
rest is no `int`. -/
theorem not_extendServes_init :
    (∀ request ∈ (endState (ArenaM.extend (2 ^ 39 + 256) { init (2 ^ 40) with
      answers := [4096], requests := [] })).requests,
        (init (2 ^ 40)).Fair sizeBound request) ∧
      ¬ (init (2 ^ 40)).ExtendServes (2 ^ 39 + 256) (2 ^ 39 + 256) [4096] := by
  refine ⟨?_, fun hserves => ?_⟩
  · rintro _ (_ | ⟨_, ⟨⟩⟩)
    exact fair_init (by decide)
  · have hextend := eq_ok_of_valueOf (show valueOf (ArenaM.extend
      (2 ^ 39 + 256) { init (2 ^ 40) with answers := [4096], requests := [] }) =
        .ok true by decide +kernel)
    obtain ⟨p, s'', hfind, -⟩ := hserves _ hextend
    have hstop : valueOf (ArenaM.findChunkPtr (binNumForSize (2 ^ 39 + 256))
        (2 ^ 39 + 256) (2 ^ 39 + 256) (endState (ArenaM.extend (2 ^ 39 + 256)
          { init (2 ^ 40) with answers := [4096], requests := [] }))) =
            .error .outOfBounds := by decide +kernel
    rw [hfind] at hstop
    cases hstop

end BFCArena

theorem toInt64_of_lt {value : Int} (hnonneg : 0 ≤ value)
    (hlt : value < 2 ^ 63) : toInt64 value = value :=
  Int.bmod_eq_of_le (by omega) (by omega)

/-- Two sums over the same range whose terms differ in one place. -/
theorem sum_range_change {f g : Nat → Nat} {index size : Nat}
    (hindex : index < size) (hother : ∀ other, other ≠ index →
      g other = f other) :
    ∑ i ∈ Finset.range size, g i + f index =
      ∑ i ∈ Finset.range size, f i + g index := by
  have hmem := Finset.mem_range.2 hindex
  have hrest : ∑ i ∈ (Finset.range size).erase index, g i =
      ∑ i ∈ (Finset.range size).erase index, f i :=
    Finset.sum_congr rfl fun other hmem =>
      hother other (Finset.ne_of_mem_erase hmem)
  rw [← Finset.sum_erase_add _ g hmem, ← Finset.sum_erase_add _ f hmem]
  omega

namespace BFCArena

/-- The size of a chunk that is in use. -/
def usedSize (s : BFCArena) (layout : List RegionLayout) (h : ChunkHandle) :
    Nat :=
  (s.usedAt layout h).elim 0 (·.2.1)

/-- The sizes of all chunks in use. -/
def usedBytes (s : BFCArena) (layout : List RegionLayout) : Nat :=
  (((handlesOf layout).filter fun h => (s.chunk h).InUse).map
    fun h => (s.chunk h).size).sum

def reservedBytes (s : BFCArena) : Nat := (s.reservedChunks.map Prod.snd).sum

/-- The chunks of the regions are as large as the regions. -/
theorem sum_sizes {regions : RegionManager}
    (hr : Forall₂ (Is node) regions layout) :
    ((handlesOf layout).map fun h => (node h).length).sum =
      (regions.map (·.memorySize)).sum := by
  induction hr with
  | nil => rfl
  | cons hfirst _ ih =>
    rw [handlesOf_cons, map_append, sum_append, ih, map_cons,
      sum_cons, hfirst.size_eq, hfirst.linked.sum_lengths]

namespace WellFormed

variable (hw : s.WellFormed layout recycled ∅ ∅)
include hw

theorem usedBytes_eq {size : Nat} (hsize : s.numChunks ≤ size) :
    s.usedBytes layout = ∑ h ∈ Finset.range size, s.usedSize layout h := by
  have hnodup : ((handlesOf layout).filter fun h => (s.chunk h).InUse).Nodup :=
    (nodup_append.1 hw.shape.nodup).1.filter _
  have hmem : ∀ h, h ∈ ((handlesOf layout).filter fun h =>
      (s.chunk h).InUse).toFinset ↔
        h ∈ handlesOf layout ∧ (s.chunk h).InUse := by
    simp
  rw [usedBytes, ← sum_toFinset _ hnodup]
  calc
    _ = ∑ h ∈ ((handlesOf layout).filter fun h =>
          (s.chunk h).InUse).toFinset, s.usedSize layout h := by
      refine Finset.sum_congr rfl fun h hh => ?_
      rw [usedSize, usedAt, if_pos ((hmem h).1 hh)]
      rfl
    _ = _ := by
      refine Finset.sum_subset (fun h hh => ?_) fun h _ hh => ?_
      · exact Finset.mem_range.2 ((hw.bounded ((hmem h).1 hh).1).trans_le hsize)
      · rw [usedSize, usedAt, if_neg fun hused => hh ((hmem h).2 hused)]
        rfl

/-- Only one chunk has changed. -/
theorem usedBytes_change (hw' : s'.WellFormed layout' recycled' ∅ ∅)
    (h : ChunkHandle)
    (hother : ∀ other, other ≠ h →
      s'.usedAt layout' other = s.usedAt layout other) :
    s'.usedBytes layout' + s.usedSize layout h =
      s.usedBytes layout + s'.usedSize layout' h := by
  have hmax : h < max (h + 1) (max s.numChunks s'.numChunks) :=
    Nat.lt_of_lt_of_le (Nat.lt_succ_self h) (Nat.le_max_left _ _)
  rw [hw.usedBytes_eq (Nat.le_trans (Nat.le_max_left _ s'.numChunks)
      (Nat.le_max_right (h + 1) _)), hw'.usedBytes_eq (Nat.le_trans
      (Nat.le_max_right s.numChunks _) (Nat.le_max_right (h + 1) _))]
  exact sum_range_change hmax fun other hne => by
    rw [usedSize, usedSize, hother other hne]

/-- The chunks in use fit into the regions. -/
theorem usedBytes_le :
    s.usedBytes layout ≤ (s.regions.map (·.memorySize)).sum := by
  rw [← sum_sizes hw.shape.regions]
  exact (filter_sublist.map _).sum_le_sum fun _ _ => Nat.zero_le _

end WellFormed

/-- The chunks in use and the reserved blocks. -/
def weight (s : BFCArena) (layout : List RegionLayout) : Nat :=
  s.usedBytes layout + s.reservedBytes

/-- The calls whose effect on the counters is exact. -/
def Granting (s : BFCArena) (c : ArenaCall) (answers : List Nat) : Prop :=
  s.Safe c answers ∧ ∀ n, c = .reserve n →
    ∀ request ∈ s.requestsOf c answers, request.answer ≠ 0

/-- The counters so far: the bytes in use are exact, and their maximum is the
largest value they ever had. -/
structure Counted (s : BFCArena) (layout : List RegionLayout)
    (past : List BFCArena) : Prop where
  nonNull : ∀ b ∈ s.reservedChunks, b.1 ≠ 0
  bytes : s.stats.bytesInUse = s.weight layout
  peak_lt : s.stats.maxBytesInUse < 2 ^ 63
  le_peak : ∀ t ∈ s :: past, t.stats.bytesInUse ≤ s.stats.maxBytesInUse
  peak_mem : ∃ t ∈ s :: past, t.stats.bytesInUse = s.stats.maxBytesInUse

theorem counted_init (limit : Nat) : Counted (init limit) [] [] where
  nonNull := nofun
  bytes := rfl
  peak_lt := show (0 : Int) < 2 ^ 63 by decide
  le_peak := by
    rintro t (_ | ⟨_, ⟨⟩⟩)
    exact Int.le_refl _
  peak_mem := ⟨_, mem_cons_self, rfl⟩

/-- All that is held fits below 2^63. -/
theorem Sound.held_lt (hs : Sound (2 ^ 63) s live layout recycled)
    (hnonNull : ∀ b ∈ s.reservedChunks, b.1 ≠ 0) : s.held < 2 ^ 63 := by
  have hsum := hs.separate.sum_lt (by decide)
  have hkeep : s.reservedChunks.filter (·.1 ≠ 0) = s.reservedChunks :=
    filter_eq_self.2 fun b hmem => by simpa using hnonNull b hmem
  rw [blocks, hkeep, map_append, map_map] at hsum
  simpa [Function.comp_def, held] using hsum

theorem Sound.weight_lt (hs : Sound (2 ^ 63) s live layout recycled)
    (hnonNull : ∀ b ∈ s.reservedChunks, b.1 ≠ 0) :
    s.weight layout < 2 ^ 63 := by
  have hheld := hs.held_lt hnonNull
  have hused := hs.wellFormed.usedBytes_le
  rw [held] at hheld
  rw [weight, reservedBytes]
  omega

namespace Counted

theorem peak_nonneg (hc : s.Counted layout past) :
    0 ≤ s.stats.maxBytesInUse := by
  have hle := hc.le_peak s mem_cons_self
  have hbytes := hc.bytes
  omega

section

variable (hc : s.Counted layout past)
    (hnonNull : ∀ b ∈ s'.reservedChunks, b.1 ≠ 0)
    (hbytes : s'.stats.bytesInUse = s'.weight layout')
include hc hnonNull hbytes

/-- The counter goes up and the maximum follows. -/
theorem up (hlt : s'.weight layout' < 2 ^ 63)
    (hpeak : s'.stats.maxBytesInUse =
      max s.stats.maxBytesInUse s'.stats.bytesInUse) :
    s'.Counted layout' (s :: past) := by
  have hbound := hc.peak_lt
  refine ⟨hnonNull, hbytes, by omega, ?_, ?_⟩
  · rintro t (_ | ⟨_, hmem⟩)
    · exact hpeak ▸ Int.le_max_right _ _
    · exact hpeak ▸ (hc.le_peak t hmem).trans (Int.le_max_left _ _)
  · rcases Int.le_total s'.stats.bytesInUse s.stats.maxBytesInUse with hle | hle
    · obtain ⟨t, hmem, heq⟩ := hc.peak_mem
      exact ⟨t, mem_cons_of_mem _ hmem, by omega⟩
    · exact ⟨s', mem_cons_self, by omega⟩

/-- The counter goes down, or stays, and the maximum stays. -/
theorem down (hle : s'.stats.bytesInUse ≤ s.stats.bytesInUse)
    (hpeak : s'.stats.maxBytesInUse = s.stats.maxBytesInUse) :
    s'.Counted layout' (s :: past) := by
  refine ⟨hnonNull, hbytes, hpeak ▸ hc.peak_lt, ?_, ?_⟩
  · rintro t (_ | ⟨_, hmem⟩)
    · exact hpeak ▸ hle.trans (hc.le_peak s mem_cons_self)
    · exact hpeak ▸ hc.le_peak t hmem
  · obtain ⟨t, hmem, heq⟩ := hc.peak_mem
    exact ⟨t, mem_cons_of_mem _ hmem, hpeak ▸ heq⟩

end

end Counted

theorem usedBytes_of_heap (hheap : s'.heap = s.heap) :
    s'.usedBytes layout = s.usedBytes layout := by
  simp only [heap, Prod.mk.injEq] at hheap
  rw [usedBytes, usedBytes, hheap.2.1]

theorem Allocates.stats_eq {n : Nat} {mid : BFCArena}
    {midLayout : List RegionLayout} {block : Option DeviceRequest}
    (ha : s.Allocates layout n mid midLayout h s' layout' block) :
    s'.stats.bytesInUse = toInt64 (s.stats.bytesInUse +
        handedSize (mid.chunk h).size (roundedBytes n)) ∧
      s'.stats.maxBytesInUse =
        max s.stats.maxBytesInUse s'.stats.bytesInUse := by
  have haside := ha.takes.aside_eq
  simp only [aside, Prod.mk.injEq] at haside
  obtain ⟨-, -, -, -, hstats, -⟩ := haside
  have hmid := ha.grown.stats_eq
  rw [hstats, hmid]
  cases block <;> exact ⟨rfl, rfl⟩

/-- The comparison of the maximum as a `size_t` is that of the numbers. -/
theorem reserved_peak {stats : AllocatorStats} {n : Nat}
    (hpeak : 0 ≤ stats.maxBytesInUse) (hpeakLt : stats.maxBytesInUse < 2 ^ 63)
    (hbytes : 0 ≤ stats.bytesInUse) (hlt : stats.bytesInUse + n < 2 ^ 63) :
    (stats.reserved n).maxBytesInUse =
      max stats.maxBytesInUse (stats.reserved n).bytesInUse := by
  have hbound : ((sizeBound : Nat) : Int) = 2 ^ 64 := rfl
  rw [AllocatorStats.reserved]
  dsimp only
  rw [Int.emod_eq_of_lt hpeak (by omega),
    Int.emod_eq_of_lt (by omega) (by omega), toInt64_of_lt (by omega) hlt,
    toInt64_of_lt (by omega) (by omega)]

/-- What a call does to the counters is what it does to the memory. -/
theorem Counted.effect {c : ArenaCall} {live' : List (Nat × Nat)}
    (hc : s.Counted layout past)
    (hnodup : (s.reservedChunks.map Prod.fst).Nodup)
    (hs : Sound (2 ^ 63) s live layout recycled)
    (hs' : Sound (2 ^ 63) s' live' layout' recycled')
    (hgrant : ∀ n, c = .reserve n → ∀ request ∈ s'.requests, request.answer ≠ 0)
    (heffect : Effect c s layout s' layout') :
    s'.Counted layout' (s :: past) := by
  have hbytes := hc.bytes
  rw [weight] at hbytes
  cases heffect with
  | quiet hcore hlayout =>
    subst hlayout
    simp only [core, Prod.mk.injEq] at hcore
    obtain ⟨hheap, hstats, hreserved, -⟩ := hcore
    refine hc.down (hreserved ▸ hc.nonNull) ?_ (hstats ▸ Int.le_refl _)
      (by rw [hstats])
    rw [weight, usedBytes_of_heap hheap, reservedBytes, hreserved, hstats]
    exact hbytes
  | @allocated n mid midLayout h block ha =>
    have hnonNull : ∀ b ∈ s'.reservedChunks, b.1 ≠ 0 :=
      ha.reserved_eq ▸ hc.nonNull
    have hchange := hs.wellFormed.usedBytes_change hs'.wellFormed h
      ha.usedAt_other
    rw [usedSize, usedSize, ha.usedAt_before, ha.takes.usedAt_self] at hchange
    have hweight : s'.weight layout' = s.usedBytes layout + s.reservedBytes +
        handedSize (mid.chunk h).size (roundedBytes n) := by
      rw [weight, reservedBytes, ha.reserved_eq, ← reservedBytes]
      dsimp only [Option.elim] at hchange
      omega
    have hlt := hs'.weight_lt hnonNull
    obtain ⟨hbytes', hpeak'⟩ := ha.stats_eq
    rw [toInt64_of_lt (by omega) (by omega)] at hbytes'
    exact hc.up hnonNull (by omega) hlt hpeak'
  | @reserved answer n hcall hrequest hheap hlayout hreserved hstats =>
    subst hlayout
    have hnonNull : ∀ b ∈ s'.reservedChunks, b.1 ≠ 0 := by
      rw [hreserved]
      rintro b (_ | ⟨_, hmem⟩)
      · exact hgrant n hcall _ hrequest
      · exact hc.nonNull b hmem
    have hweight : s'.weight layout' =
        s.usedBytes layout' + s.reservedBytes + n := by
      rw [weight, usedBytes_of_heap hheap, reservedBytes, hreserved,
        map_cons, sum_cons, reservedBytes]
      omega
    have hlt := hs'.weight_lt hnonNull
    have hbytes' : s'.stats.bytesInUse =
        toInt64 (s.stats.bytesInUse + n) := by rw [hstats]; rfl
    rw [toInt64_of_lt (by omega) (by omega)] at hbytes'
    refine hc.up hnonNull (by omega) hlt ?_
    rw [hstats]
    exact reserved_peak hc.peak_nonneg hc.peak_lt (by omega) (by omega)
  | @released p size hheap hlayout hlookup hreserved hstats =>
    subst hlayout
    have hnonNull : ∀ b ∈ s'.reservedChunks, b.1 ≠ 0 := fun b hmem =>
      hc.nonNull b (mem_of_mem_filter (hreserved ▸ hmem))
    have hsum := ArenaM.sum_filter_of_lookup hnodup hlookup
    rw [← hreserved] at hsum
    have hlt := hs.weight_lt hc.nonNull
    have hbytes' : s'.stats.bytesInUse =
        toInt64 (s.stats.bytesInUse - size) := by rw [hstats]; rfl
    rw [weight, reservedBytes] at hlt
    rw [reservedBytes] at hbytes
    rw [toInt64_of_lt (by omega) (by omega)] at hbytes'
    refine hc.down hnonNull ?_ (by omega) (by rw [hstats]; rfl)
    rw [weight, usedBytes_of_heap hheap, reservedBytes]
    omega
  | @freed h p size n hused hself hother hreserved hstats =>
    have hchange := hs.wellFormed.usedBytes_change hs'.wellFormed h hother
    rw [usedSize, usedSize, hused, hself] at hchange
    dsimp only [Option.elim] at hchange
    have hlt := hs.weight_lt hc.nonNull
    have hbytes' : s'.stats.bytesInUse =
        toInt64 (s.stats.bytesInUse - size) := by rw [hstats]; rfl
    rw [weight] at hlt
    rw [toInt64_of_lt (by omega) (by omega)] at hbytes'
    refine hc.down (hreserved ▸ hc.nonNull) ?_ (by omega) (by rw [hstats]; rfl)
    rw [weight, reservedBytes, hreserved, ← reservedBytes]
    omega

theorem Runs.counted {limit : Nat}
    (hrun : Runs (2 ^ 63) limit Granting s live past) :
    ∃ layout recycled, Sound (2 ^ 63) s live layout recycled ∧
      s.Counted layout past := by
  induction hrun with
  | init => exact ⟨[], [], .init limit, counted_init limit⟩
  | call hrun c answers hcall hgrant hreturn ih =>
    obtain ⟨layout, recycled, hs, hc⟩ := ih
    have hbalanced := hrun.reaches.balanced
    rcases hs.perform (by decide) hbalanced.unit hcall hgrant.1 with
      hstalls | ⟨p, s', layout', recycled', hreturn', heffect, hs'⟩
    · rw [hreturn] at hstalls
      cases hstalls
    · rw [hreturn] at hreturn'
      cases hreturn'
      refine ⟨layout', recycled', hs', hc.effect hbalanced.nodup hs hs' ?_
        heffect⟩
      intro n hcall
      have hgrant := hgrant.2 n hcall
      rw [requestsOf, hreturn] at hgrant
      exact hgrant

/-- Every region consists of one free chunk. -/
def Untouched (s : BFCArena) (layout : List RegionLayout) : Prop :=
  ∀ r ∈ layout, ∃ tile, r.tiles = [tile] ∧ ¬ (s.chunk tile.handle).InUse

theorem WellFormed.untouched (hw : s.WellFormed layout recycled ∅ ∅)
    (hfree : ∀ h ∈ handlesOf layout, ¬ (s.chunk h).InUse) :
    s.Untouched layout := by
  intro r hr
  obtain ⟨front, back, rfl⟩ := append_of_mem hr
  obtain ⟨_, _, _, -, -, hregion, -⟩ := forall₂_append_cons hw.shape.regions
  have hmem : ∀ tile ∈ r.tiles, tile.handle ∈ handlesOf (front ++ r :: back) :=
    fun tile htile => mem_flatMap.2 ⟨r, hr, mem_map.2 ⟨tile, htile, rfl⟩⟩
  have hlinked := hregion.linked
  cases htiles : r.tiles with
  | nil => exact absurd htiles hregion.nonempty
  | cons first rest =>
    rw [htiles] at hmem hlinked
    cases rest with
    | nil => exact ⟨first, rfl, hfree _ (hmem first mem_cons_self)⟩
    | cons second rest =>
      -- Two neighbours would both be free.
      have hfirst := hmem first mem_cons_self
      have hsecond := hmem second (by simp)
      have hnext : (s.chunk first.handle).next = some second.handle :=
        congrArg TileNode.next hlinked.1
      exact absurd (hw.apart _ _
        ⟨hfirst, hnext, hfree _ hfirst, hfree _ hsecond⟩) (or_self_iff.not.2 id)

/-- The counters agree with the memory and with the history. -/
def StatsExact (s : BFCArena) (live : List (Nat × Nat))
    (past : List BFCArena) : Prop :=
  ∃ layout recycled, s.WellFormed layout recycled ∅ ∅ ∧
    s.stats.bytesInUse = s.usedBytes layout + s.reservedBytes ∧
    s.stats.totalAllocatedBytes =
      (s.regions.map (·.memorySize)).sum + s.reservedBytes ∧
    (∀ t ∈ s :: past, t.stats.bytesInUse ≤ s.stats.maxBytesInUse) ∧
    (∃ t ∈ s :: past, t.stats.bytesInUse = s.stats.maxBytesInUse) ∧
    (live = [] → s.Untouched layout ∧ s.stats.bytesInUse = 0)

theorem Runs.statsExact {limit : Nat}
    (hrun : Runs (2 ^ 63) limit Granting s live past) :
    s.StatsExact live past := by
  obtain ⟨layout, recycled, hs, hc⟩ := hrun.counted
  have htotal := hrun.reaches.balanced.total
  have hheld := hs.held_lt hc.nonNull
  refine ⟨layout, recycled, hs.wellFormed, by rw [hc.bytes, weight]; omega, ?_,
    hc.le_peak, hc.peak_mem, fun hlive => ?_⟩
  · rw [htotal, toInt64_of_lt (by omega) (by omega), held, reservedBytes]
    omega
  · have hfree : ∀ h ∈ handlesOf layout, ¬ (s.chunk h).InUse := by
      intro h hmem hused
      have hlive' := (hs.mem_live _ _).2 ⟨(hs.wellFormed.ptr_pos hmem).ne',
        .inr ⟨h, _, usedAt_eq_some.2 ⟨⟨hmem, hused⟩, rfl, rfl, rfl⟩⟩⟩
      rw [hlive] at hlive'
      cases hlive'
    have hreserved : s.reservedChunks = [] := by
      refine eq_nil_iff_forall_not_mem.2 fun b hmem => ?_
      have hlive' := (hs.mem_live _ _).2 ⟨hc.nonNull b hmem, .inl hmem⟩
      rw [hlive] at hlive'
      cases hlive'
    have hused : (handlesOf layout).filter (fun h => (s.chunk h).InUse) = [] :=
      filter_eq_nil_iff.2 fun h hmem => by simpa using hfree h hmem
    refine ⟨hs.wellFormed.untouched hfree, ?_⟩
    rw [hc.bytes, weight, usedBytes, reservedBytes, hreserved, hused]
    rfl

/-- After one allocation a block is reserved, and the allocation is freed. -/
def reservedBlock : BFCArena :=
  endState (oneAlloc.perform (.reserve 100) [2 ^ 21])

def freedAlloc : BFCArena := endState (reservedBlock.perform (.free 4096) [])

theorem statsExact_freedAlloc : freedAlloc.StatsExact [(2 ^ 21, 100)]
    [reservedBlock, oneAlloc, init (2 ^ 20)] := by
  have hreserve : oneAlloc.perform (.reserve 100) [2 ^ 21] =
      .ok (2 ^ 21) reservedBlock := eq_ok_of_valueOf (by decide +kernel)
  have hfree : reservedBlock.perform (.free 4096) [] = .ok 0 freedAlloc :=
    eq_ok_of_valueOf (by decide +kernel)
  have hasked : oneAlloc.requestsOf (.reserve 100) [2 ^ 21] =
      [⟨100, 2 ^ 21⟩] := by decide +kernel
  have hfair : oneAlloc.Fair (2 ^ 63) ⟨100, 2 ^ 21⟩ := by
    rw [Fair, show oneAlloc.blocks = [(4096, 4096 + 2 ^ 20)] by decide +kernel]
    exact fun _ => ⟨by decide, forall_mem_singleton.mpr (.inr (by decide))⟩
  have hanswered : ∀ request ∈ oneAlloc.requestsOf (.reserve 100) [2 ^ 21],
      oneAlloc.Fair (2 ^ 63) request ∧ request.answer ≠ 0 := by
    rw [hasked]
    exact forall_mem_singleton.mpr ⟨hfair, by decide⟩
  have hsafe : oneAlloc.Safe (.reserve 100) [2 ^ 21] :=
    fun request hmem hnull => absurd hnull (hanswered request hmem).2
  have hrun : Runs (2 ^ 63) (2 ^ 20) Granting reservedBlock
      [(2 ^ 21, 100), (4096, 1)] [oneAlloc, init (2 ^ 20)] :=
    .call (runs_oneAlloc (by decide) ⟨safe_oneAlloc, nofun⟩) (.reserve 100)
      [2 ^ 21] ⟨nofun, fun request hmem => (hanswered request hmem).1⟩
      ⟨hsafe, fun _ _ request hmem => (hanswered request hmem).2⟩ hreserve
  refine (hrun.call (.free 4096) [] ⟨?_, nofun⟩ ⟨trivial, nofun⟩
    hfree).statsExact
  rintro _ ⟨⟩
  exact .inr (by decide)

/-- A new arena after a reservation that the device refused. -/
def refusedReserve : BFCArena :=
  endState ((init (2 ^ 20)).perform (.reserve 100) [0])

/-- A refused reservation is counted as in use, and cannot be freed. -/
theorem not_statsExact_refusedReserve :
    Disciplined (2 ^ 63) (init (2 ^ 20)) [] (.reserve 100) [0] ∧
      (init (2 ^ 20)).perform (.reserve 100) [0] = .ok 0 refusedReserve ∧
      ¬ refusedReserve.StatsExact [] [init (2 ^ 20)] := by
  refine ⟨⟨nofun, ?_⟩, eq_ok_of_valueOf (by decide +kernel), ?_⟩
  · rintro _ (_ | ⟨_, ⟨⟩⟩)
    exact fair_init (by decide)
  · rintro ⟨layout, recycled, -, -, -, -, -, hdone⟩
    have hbytes : refusedReserve.stats.bytesInUse = 100 := by decide +kernel
    have hzero := (hdone rfl).2
    omega

end BFCArena

namespace ArenaM

def chunkAt (ptr : Nat) : ArenaM Chunk := do
  let s ← get
  match s.regions.getHandle ptr with
  | .error stop => throw stop
  | .ok none => throw (.enforce "h != kInvalidChunkHandle")
  | .ok (some h) => chunkFromHandle h

def requestedSize (ptr : Nat) : ArenaM Nat := do
  return (← chunkAt ptr).requestedSize

def allocatedSize (ptr : Nat) : ArenaM Nat := do
  return (← chunkAt ptr).size

end ArenaM

open ArenaM

namespace BFCArena

/-- Of what the client holds and did not reserve, the arena tells the size asked
for and how many bytes are its own. -/
def TellsSizes (s : BFCArena) (live : List (Nat × Nat)) : Prop :=
  ∀ p n, (p, n) ∈ live → (p, n) ∉ s.reservedChunks → ∃ size,
    requestedSize p s = .ok n s ∧ allocatedSize p s = .ok size s ∧ n ≤ size ∧
    ∀ q m size', (q, m) ∈ live → (q, m) ∉ s.reservedChunks →
      allocatedSize q s = .ok size' s → q ≠ p → p + size ≤ q ∨ q + size' ≤ p

theorem Runs.tellsSizes {limit : Nat}
    (hrun : Runs sizeBound limit Safe s live past) : s.TellsSizes live := by
  obtain ⟨layout, recycled, hs⟩ := hrun.sound (Nat.le_refl _)
  have hchunk {p n} (hlive : (p, n) ∈ live) (hreserved : (p, n) ∉
      s.reservedChunks) : ∃ h, s.usedAt layout h = some (p, (s.chunk h).size, n) ∧
        chunkAt p s = .ok (s.chunk h) s := by
    obtain ⟨h, size, hused⟩ :=
      ((hs.mem_live p n).1 hlive).2.resolve_left hreserved
    obtain ⟨⟨hmem, -⟩, rfl, rfl, rfl⟩ := usedAt_eq_some.1 hused
    refine ⟨h, hused, ?_⟩
    rw [chunkAt, bind_eq_of_ok (get_apply s), hs.wellFormed.shape.getHandle_ptr
      hmem]
    exact chunkFromHandle_eq
      (hs.wellFormed.shape.bounded h (mem_append_left _ hmem))
  intro p n hlive hreserved
  obtain ⟨h, hused, hat⟩ := hchunk hlive hreserved
  refine ⟨(s.chunk h).size, ?_, bind_eq_of_ok hat,
    hs.requested_le h _ _ _ hused, ?_⟩
  · rw [requestedSize, bind_eq_of_ok hat, ← (usedAt_eq_some.1 hused).2.2.2]
    rfl
  · intro q m size' hlive' hreserved' hsize hne
    obtain ⟨h', hused', hat'⟩ := hchunk hlive' hreserved'
    rw [allocatedSize, bind_eq_of_ok hat'] at hsize
    cases hsize
    refine (hs.used_apart hused hused' ?_).symm
    rintro rfl
    cases hused.symm.trans hused'
    exact hne rfl

theorem tellsSizes_oneAlloc : oneAlloc.TellsSizes [(4096, 1)] :=
  (runs_oneAlloc (by decide) safe_oneAlloc).tellsSizes

end BFCArena

end OnnxRuntime
