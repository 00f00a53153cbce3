/-
Whole runs of the arena.  The client frees only what it got, the device gives
blocks of its own, and after every call the arena is well formed and knows
exactly what the client holds.
-/
import OnnxRuntime.ArenaGrowth

namespace OnnxRuntime

open List Tiles RegionLayout ArenaM

variable {s s' : BFCArena} {layout layout' : List RegionLayout}
  {recycled : List ChunkHandle} {live : List (Nat × Nat)}
  {past : List BFCArena} {h h' : ChunkHandle} {top : Nat}

/-- What the client holds after a call that returned `p`: addresses with the
sizes that were asked for. -/
def ArenaCall.after (p : Nat) (live : List (Nat × Nat)) :
    ArenaCall → List (Nat × Nat)
  | .alloc n => if p = 0 then live else (p, n) :: live
  | .reserve n => if p = 0 then live else (p, n) :: live
  | .free q => live.filter (·.1 ≠ q)

namespace BFCArena

/-- The blocks that the device gave and did not get back. -/
def blocks (s : BFCArena) : List (Nat × Nat) :=
  s.regions.map (fun region => (region.ptr, region.ptr + region.memorySize)) ++
    (s.reservedChunks.filter (·.1 ≠ 0)).map fun b => (b.1, b.1 + b.2)

/-- An answer of the device is null or a new block. -/
def Fair (top : Nat) (s : BFCArena) (request : DeviceRequest) : Prop :=
  request.answer ≠ 0 →
    request.answer + request.bytes < top ∧ ∀ block ∈ s.blocks,
      BlocksApart (request.answer, request.answer + request.bytes) block

/-- The questions to the device during a call. -/
def requestsOf (s : BFCArena) (call : ArenaCall) (answers : List Nat) :
    List DeviceRequest :=
  (endState (s.perform call answers)).requests

/-- The client frees null or what it holds, and the device is fair. -/
structure Disciplined (top : Nat) (s : BFCArena) (live : List (Nat × Nat))
    (call : ArenaCall) (answers : List Nat) : Prop where
  client : ∀ p, call = .free p → p = 0 ∨ p ∈ live.map Prod.fst
  device : ∀ request ∈ s.requestsOf call answers, s.Fair top request

/-- A call that keeps clear of the overflows: the size can be rounded up, the
index of every chunk fits an `int`, and no two reservations are refused. -/
def Safe (s : BFCArena) (call : ArenaCall) (answers : List Nat) : Prop :=
  match call with
  | .alloc n => n + 255 < sizeBound ∧
      ∀ request ∈ s.requestsOf call answers,
        request.answer ≠ 0 → request.bytes ≤ 2 ^ 39
  | .reserve _ => ∀ request ∈ s.requestsOf call answers,
      request.answer = 0 → 0 ∉ s.reservedChunks.map Prod.fst
  | .free _ => True

/-- Runs in which every call returns and meets a condition: the arena, what the
client holds, and the earlier states of the arena, last first. -/
inductive Runs (top limit : Nat)
    (condition : BFCArena → ArenaCall → List Nat → Prop) :
    BFCArena → List (Nat × Nat) → List BFCArena → Prop
  | init : Runs top limit condition (init limit) [] []
  | call {s s' : BFCArena} {live : List (Nat × Nat)} {past : List BFCArena}
      {p : Nat} (hrun : Runs top limit condition s live past) (c : ArenaCall)
      (answers : List Nat) (hcall : Disciplined top s live c answers)
      (hcondition : condition s c answers)
      (hreturn : s.perform c answers = .ok p s') :
      Runs top limit condition s' (c.after p live) (s :: past)

/-- The arena is well formed, the blocks of the device are separate, and what
the client holds are the non-null reservations and the chunks in use. -/
structure Sound (top : Nat) (s : BFCArena) (live : List (Nat × Nat))
    (layout : List RegionLayout) (recycled : List ChunkHandle) : Prop where
  wellFormed : s.WellFormed layout recycled ∅ ∅
  separate : SeparateBlocks top s.blocks
  mem_live : ∀ p n, (p, n) ∈ live ↔ p ≠ 0 ∧ ((p, n) ∈ s.reservedChunks ∨
    ∃ h size, s.usedAt layout h = some (p, size, n))
  requested_le : ∀ h p size n, s.usedAt layout h = some (p, size, n) → n ≤ size

/-- What a call does to the chunks and the counters. -/
inductive Effect (c : ArenaCall) (s : BFCArena) (layout : List RegionLayout)
    (s' : BFCArena) (layout' : List RegionLayout) : Prop
  | quiet (hcore : s'.core = s.core) (hlayout : layout' = layout)
  | allocated {n : Nat} {mid : BFCArena} {midLayout : List RegionLayout}
      {h : ChunkHandle} {block : Option DeviceRequest}
      (ha : s.Allocates layout n mid midLayout h s' layout' block)
  | reserved {answer n : Nat} (hcall : c = .reserve n)
      (hrequest : ⟨n, answer⟩ ∈ s'.requests) (hheap : s'.heap = s.heap)
      (hlayout : layout' = layout)
      (hreserved : s'.reservedChunks = (answer, n) :: s.reservedChunks)
      (hstats : s'.stats = s.stats.reserved n)
  | released {p size : Nat} (hheap : s'.heap = s.heap)
      (hlayout : layout' = layout)
      (hlookup : s.reservedChunks.lookup p = some size)
      (hreserved : s'.reservedChunks = s.reservedChunks.filter (·.1 ≠ p))
      (hstats : s'.stats = s.stats.released size)
  | freed {h : ChunkHandle} {p size n : Nat}
      (hused : s.usedAt layout h = some (p, size, n))
      (hself : s'.usedAt layout' h = none)
      (hother : ∀ other, other ≠ h →
        s'.usedAt layout' other = s.usedAt layout other)
      (hreserved : s'.reservedChunks = s.reservedChunks)
      (hstats : s'.stats = s.stats.freed size)

variable {limit n : Nat} {condition : BFCArena → ArenaCall → List Nat → Prop}
  {loose pending : Set ChunkHandle}

theorem Runs.reaches (hrun : Runs top limit condition s live past) :
    Reaches limit s := by
  induction hrun with
  | init => exact .init
  | call _ c answers _ _ hreturn ih =>
    refine .call ih c answers ?_
    rw [hreturn]
    rfl

theorem ends_eq {node : ChunkHandle → TileNode} {regions : RegionManager}
    (hr : Forall₂ (Is node) regions layout) :
    regions.map (fun region => (region.ptr, region.ptr + region.memorySize)) =
      ends layout := by
  induction hr with
  | nil => rfl
  | cons hfirst _ ih =>
    rw [map_cons, ih, hfirst.ptr_eq, hfirst.size_eq]
    rfl

theorem WellFormed.blocks_eq (hw : s.WellFormed layout recycled loose pending) :
    s.blocks = ends layout ++
      (s.reservedChunks.filter (·.1 ≠ 0)).map fun b => (b.1, b.1 + b.2) := by
  rw [blocks, ends_eq hw.shape.regions]

/-- No region is empty. -/
theorem WellFormed.base_lt_stop
    (hw : s.WellFormed layout recycled loose pending) {base stop : Nat}
    (hends : (base, stop) ∈ ends layout) : base < stop := by
  obtain ⟨r, hr, heq⟩ := mem_map.1 hends
  obtain ⟨front, back, rfl⟩ := append_of_mem hr
  obtain ⟨_, _, _, -, -, hregion, -⟩ := forall₂_append_cons hw.shape.regions
  obtain ⟨tile, rest, htiles⟩ := exists_cons_of_ne_nil hregion.nonempty
  have hpos := hregion.positive tile (htiles ▸ mem_cons_self)
  obtain ⟨rfl, rfl⟩ := Prod.mk.inj heq
  rw [stop, htiles]
  simp only [total_cons]
  omega

theorem usedAt_eq_some {p size : Nat} : s.usedAt layout h = some (p, size, n) ↔
      (h ∈ handlesOf layout ∧ (s.chunk h).InUse) ∧ (s.chunk h).ptr = p ∧
        (s.chunk h).size = size ∧ (s.chunk h).requestedSize = n := by
  rw [usedAt]
  split
  · rename_i hused
    simp [hused]
  · rename_i hused
    simp [hused]

namespace Allocates

variable {n : Nat} {mid : BFCArena} {midLayout : List RegionLayout}
  {block : Option DeviceRequest}

section

variable (ha : s.Allocates layout n mid midLayout h s' layout' block)
include ha

theorem reserved_eq : s'.reservedChunks = s.reservedChunks := by
  have haside := ha.takes.aside_eq
  simp only [aside, Prod.mk.injEq] at haside
  exact haside.2.2.2.2.2.1.trans ha.grown.reserved_eq

/-- The chunk was not in use before. -/
theorem usedAt_before : s.usedAt layout h = none := by
  rw [← ha.grown.usedAt_eq, usedAt, if_neg fun hh => ha.best.free hh.2]

theorem usedAt_other (other : ChunkHandle) (hne : other ≠ h) :
    s'.usedAt layout' other = s.usedAt layout other :=
  (ha.takes.usedAt_other other hne).trans (ha.grown.usedAt_eq other)

end

end Allocates

namespace Sound

theorem init (limit : Nat) : Sound top (init limit) [] [] [] where
  wellFormed := by
    refine ⟨⟨.nil, .nil, nodup_nil, nofun, rfl⟩, ⟨?_, ?_, ?_, ?_⟩, nofun, ?_⟩
    · exact fun b h => iff_of_false nofun fun hh => nomatch hh.1.1
    · exact fun b => .nil
    · exact fun h hh => nomatch hh.1
    · exact fun h _ => rfl
    · exact fun h h' hpair => nomatch hpair.mem
  separate := .nil top
  mem_live := by
    intro p n
    simp [usedAt, handlesOf, BFCArena.init]
  requested_le := by
    intro h p size n hused
    simp [usedAt, handlesOf] at hused

/-- The answers of the device for the next call are no part of the invariant. -/
theorem of_core (hs : Sound top s live layout recycled)
    (hcore : s'.core = s.core) : Sound top s' live layout recycled := by
  simp only [core, Prod.mk.injEq] at hcore
  obtain ⟨hheap, -, hreserved, -⟩ := hcore
  have hused : ∀ h, s'.usedAt layout h = s.usedAt layout h := fun _ =>
    usedAt_of_heap hheap
  have hw := hs.wellFormed.of_heap hheap
  refine ⟨hw, ?_, fun p n => ?_, fun h p size n => ?_⟩
  · rw [hw.blocks_eq, hreserved, ← hs.wellFormed.blocks_eq]
    exact hs.separate
  · rw [hs.mem_live, hreserved]
    simp only [hused]
  · rw [hused]
    exact hs.requested_le h p size n

variable {r : RegionLayout} {q m p size n : Nat} {block : Option DeviceRequest}
  {recycled' : List ChunkHandle} {c : ArenaCall} {answers : List Nat}

section

variable (hs : Sound top s live layout recycled)
include hs

theorem region_mem (hr : r ∈ layout) : (r.base, r.stop) ∈ s.blocks := by
  rw [hs.wellFormed.blocks_eq]
  exact mem_append_left _ (mem_map.2 ⟨r, hr, rfl⟩)

theorem reserved_mem (hmem : (q, m) ∈ s.reservedChunks) (hq : q ≠ 0) :
    (q, q + m) ∈ s.blocks ∧ 0 < m := by
  have hblock : (q, q + m) ∈ s.blocks :=
    mem_append_right _ (mem_map.2
      ⟨(q, m), mem_filter.2 ⟨hmem, by simpa using hq⟩, rfl⟩)
  have hinside := (hs.separate.inside _ hblock).1
  exact ⟨hblock, by omega⟩

/-- Regions and reserved blocks do not overlap. -/
theorem reserved_apart (hr : r ∈ layout) (hmem : (q, m) ∈ s.reservedChunks)
    (hq : q ≠ 0) :
    r.stop ≤ q ∨ q + m ≤ r.base := by
  have hapart := hs.separate.apart
  rw [hs.wellFormed.blocks_eq, pairwise_append] at hapart
  exact hapart.2.2 (r.base, r.stop) (mem_map.2 ⟨r, hr, rfl⟩) (q, q + m)
    (mem_map.2 ⟨(q, m), mem_filter.2 ⟨hmem, by simpa using hq⟩, rfl⟩)

/-- A new block of at most 2^39 bytes can become a region. -/
theorem usable (htop : top ≤ sizeBound) {request : DeviceRequest}
    (hfair : s.Fair top request) (hanswer : request.answer ≠ 0)
    (hsmall : request.bytes ≤ 2 ^ 39) :
    Usable layout request.answer request.bytes := by
  obtain ⟨hbelow, hapart⟩ := hfair hanswer
  refine ⟨Nat.pos_of_ne_zero hanswer, hbelow.trans_le htop, hsmall, ?_⟩
  exact fun r hr => (hapart _ (hs.region_mem hr)).symm

/-- The blocks after the arena has grown by a new block. -/
theorem separate_grown (hw : s'.WellFormed layout' recycled' ∅ ∅)
    (hreserved : s'.reservedChunks = s.reservedChunks)
    (hends : List.Perm (ends layout') (block.toList.map (fun b =>
      (b.answer, b.answer + b.bytes)) ++ ends layout))
    (hfair : ∀ b ∈ block, s.Fair top b ∧ b.answer ≠ 0) :
    SeparateBlocks top s'.blocks := by
  have hperm : List.Perm s'.blocks (block.toList.map (fun b =>
      (b.answer, b.answer + b.bytes)) ++ s.blocks) := by
    rw [hw.blocks_eq, hreserved, hs.wellFormed.blocks_eq, ← append_assoc]
    exact hends.append_right _
  refine SeparateBlocks.perm ?_ hperm
  cases block with
  | none => exact hs.separate
  | some b =>
    obtain ⟨hfair, hanswer⟩ := hfair b rfl
    obtain ⟨hbelow, hapart⟩ := hfair hanswer
    have hpos := hw.base_lt_stop (hends.mem_iff.2 mem_cons_self)
    exact hs.separate.cons ⟨hpos, hbelow⟩ hapart

theorem of_allocates {mid : BFCArena} {midLayout : List RegionLayout}
    (hn : n + 255 < sizeBound) (hw : s'.WellFormed layout' recycled' ∅ ∅)
    (ha : s.Allocates layout n mid midLayout h s' layout' block)
    (hfair : ∀ b ∈ block, s.Fair top b) :
    Sound top s' (((mid.chunk h).ptr, n) :: live) layout' recycled' := by
  have hself := ha.takes.usedAt_self
  refine ⟨hw, ?_, ?_, ?_⟩
  · exact hs.separate_grown hw ha.reserved_eq
      (ha.takes.ends_eq ▸ ha.grown.ends_perm)
      fun b hb => ⟨hfair b hb, (ha.granted b hb).1⟩
  · intro p m
    rw [mem_cons, hs.mem_live, ha.reserved_eq]
    constructor
    · rintro (heq | ⟨hp, hmem | ⟨other, size, hused⟩⟩)
      · obtain ⟨rfl, rfl⟩ := Prod.mk.inj heq
        exact ⟨ha.ptr_pos.ne', .inr ⟨h, _, hself⟩⟩
      · exact ⟨hp, .inl hmem⟩
      · refine ⟨hp, .inr ⟨other, size, ?_⟩⟩
        rw [ha.usedAt_other other fun heq => ?_]
        · exact hused
        · rw [heq, ha.usedAt_before] at hused
          cases hused
    · rintro ⟨hp, hmem | ⟨other, size, hused⟩⟩
      · exact .inr ⟨hp, .inl hmem⟩
      · by_cases hne : other = h
        · rw [hne, hself] at hused
          cases hused
          exact .inl rfl
        · rw [ha.usedAt_other other hne] at hused
          exact .inr ⟨hp, .inr ⟨other, size, hused⟩⟩
  · intro other p size m hused
    by_cases hne : other = h
    · rw [hne, hself] at hused
      cases hused
      exact (le_roundedBytes hn).trans (le_handedSize ha.best.fits)
    · rw [ha.usedAt_other other hne] at hused
      exact hs.requested_le other p size m hused

/-- `Alloc` keeps everything in order. -/
theorem alloc (htop : top ≤ sizeBound)
    (hunit : kMinAllocationSize ∣ s.currRegionAllocationBytes)
    (hn : n + 255 < sizeBound)
    (hfair : ∀ request ∈ (endState (alloc n s)).requests, s.Fair top request)
    (hsmall : ∀ request ∈ (endState (alloc n s)).requests,
      request.answer ≠ 0 → request.bytes ≤ 2 ^ 39) :
    Stalls (alloc n s) ∨ ∃ p s' layout' recycled',
      alloc n s = .ok p s' ∧ Effect (.alloc n) s layout s' layout' ∧
      Sound top s' (if p = 0 then live else (p, n) :: live) layout'
        recycled' := by
  by_cases hzero : n = 0
  · subst hzero
    exact .inr ⟨0, s, layout, recycled, rfl, .quiet rfl rfl, hs⟩
  · rcases hs.wellFormed.alloc hunit (Nat.pos_of_ne_zero hzero) hn
        fun request hmem hne =>
          hs.usable htop (hfair request hmem) hne (hsmall request hmem hne) with
      ⟨s', hrun, hcore⟩ | ⟨mid, midLayout, h, s', layout', recycled', block,
        hrun, hw, ha⟩ | hstalls
    · exact .inr ⟨0, s', layout, recycled, hrun, .quiet hcore rfl,
        hs.of_core hcore⟩
    · refine .inr ⟨_, s', layout', recycled', hrun, .allocated ha, ?_⟩
      rw [if_neg ha.ptr_pos.ne']
      rw [hrun] at hfair
      exact hs.of_allocates hn hw ha fun b hb => hfair b (ha.granted b hb).2
    · exact .inl hstalls

/-- A block of its own is entered; a refusal is entered too, but the client
holds nothing. -/
theorem of_reserved {answer : Nat} (hfair : s.Fair top ⟨n, answer⟩)
    (hn : n ≠ 0) (hheap : s'.heap = s.heap)
    (hreserved : s'.reservedChunks = (answer, n) :: s.reservedChunks) :
    Sound top s' (if answer = 0 then live else (answer, n) :: live) layout
      recycled := by
  have hw := hs.wellFormed.of_heap hheap
  have hused : ∀ h, s'.usedAt layout h = s.usedAt layout h := fun _ =>
    usedAt_of_heap hheap
  refine ⟨hw, ?_, fun p m => ?_, fun h p size m => ?_⟩
  · rw [hw.blocks_eq, hreserved]
    by_cases hanswer : answer = 0
    · rw [filter_cons_of_neg (by simpa using hanswer),
        ← hs.wellFormed.blocks_eq]
      exact hs.separate
    · obtain ⟨hbelow, hapart⟩ := hfair hanswer
      rw [filter_cons_of_pos (by simpa using hanswer)]
      refine SeparateBlocks.perm (hs.separate.cons ⟨?_, hbelow⟩ hapart) ?_
      · dsimp only
        omega
      · rw [hs.wellFormed.blocks_eq]
        exact perm_middle
  · simp only [hused, hreserved, mem_cons]
    by_cases hanswer : answer = 0
    · rw [if_pos hanswer, hs.mem_live]
      refine and_congr_right fun hp => or_congr_left ?_
      exact (or_iff_right fun heq => hp
        ((Prod.mk.inj heq).1.trans hanswer)).symm
    · rw [if_neg hanswer, mem_cons, hs.mem_live]
      constructor
      · rintro (heq | ⟨hp, hmem | hmem⟩)
        · exact ⟨(Prod.mk.inj heq).1 ▸ hanswer, .inl (.inl heq)⟩
        · exact ⟨hp, .inl (.inr hmem)⟩
        · exact ⟨hp, .inr hmem⟩
      · rintro ⟨hp, (heq | hmem) | hmem⟩
        · exact .inl heq
        · exact .inr ⟨hp, .inl hmem⟩
        · exact .inr ⟨hp, .inr hmem⟩
  · rw [hused]
    exact hs.requested_le h p size m

/-- `Reserve` enters a block of its own. -/
theorem reserve
    (hfair : ∀ request ∈ (endState (ArenaM.reserve n s)).requests,
      s.Fair top request)
    (hnull : ∀ request ∈ (endState (ArenaM.reserve n s)).requests,
      request.answer = 0 → 0 ∉ s.reservedChunks.map Prod.fst) :
    Stalls (ArenaM.reserve n s) ∨ ∃ p s', ArenaM.reserve n s = .ok p s' ∧
      Effect (.reserve n) s layout s' layout ∧
      Sound top s' (if p = 0 then live else (p, n) :: live) layout
        recycled := by
  by_cases hn : n = 0
  · subst hn
    exact .inr ⟨0, s, rfl, .quiet rfl rfl, hs⟩
  cases hanswers : s.answers with
  | nil =>
    left
    rw [ArenaM.reserve, if_neg hn,
      bind_eq_of_error (deviceAlloc_of_nil hanswers n)]
    trivial
  | cons answer rest =>
    have hrequest : ⟨n, answer⟩ ∈ (endState (ArenaM.reserve n s)).requests := by
      rw [reserve_of_cons hn hanswers]
      split
      · exact mem_cons_self
      · exact mem_cons_self
    have hfair := hfair _ hrequest
    have hkey : answer ∉ s.reservedChunks.map Prod.fst := by
      by_cases hanswer : answer = 0
      · exact hanswer ▸ hnull _ hrequest hanswer
      · intro hmem
        obtain ⟨⟨_, m⟩, hentry, rfl⟩ := mem_map.1 hmem
        obtain ⟨hblock, hm⟩ := hs.reserved_mem hentry hanswer
        have hapart := (hfair hanswer).2 _ hblock
        rw [BlocksApart] at hapart
        dsimp only at hapart
        omega
    exact .inr ⟨answer, _, (reserve_of_cons hn hanswers).trans
      (if_pos hkey), .reserved rfl mem_cons_self rfl rfl rfl rfl,
      hs.of_reserved hfair hn rfl rfl⟩

section

variable (hused : s.usedAt layout h = some (p, size, n))
include hused

/-- A chunk in use is apart from every reserved block. -/
theorem used_apart_reserved (hmem : (q, m) ∈ s.reservedChunks) (hq : q ≠ 0) :
    p + size ≤ q ∨ q + m ≤ p := by
  obtain ⟨⟨hlive, -⟩, rfl, rfl, rfl⟩ := usedAt_eq_some.1 hused
  obtain ⟨r, hr, hbase, -, -, hstop, -⟩ :=
    hs.wellFormed.shape.chunk_within hlive
  rcases hs.reserved_apart hr hmem hq with hapart | hapart
  · exact .inl (hstop.trans hapart)
  · exact .inr (hapart.trans hbase)

/-- Different chunks in use are apart. -/
theorem used_apart {size' : Nat}
    (hused' : s.usedAt layout h' = some (q, size', m)) (hne : h' ≠ h) :
    q + size' ≤ p ∨ p + size ≤ q := by
  obtain ⟨⟨hlive, -⟩, rfl, rfl, rfl⟩ := usedAt_eq_some.1 hused
  obtain ⟨⟨hlive', -⟩, rfl, rfl, rfl⟩ := usedAt_eq_some.1 hused'
  exact hs.wellFormed.shape.chunks_apart hlive hlive' hne

theorem used_pos : 0 < size := by
  obtain ⟨⟨hlive, -⟩, rfl, rfl, rfl⟩ := usedAt_eq_some.1 hused
  obtain ⟨-, -, -, hpos, -⟩ := hs.wellFormed.shape.chunk_within hlive
  exact hpos

/-- A chunk goes back to its bin. -/
theorem of_freed (hkey : p ∉ s.reservedChunks.map Prod.fst)
    (hw : s'.WellFormed layout' recycled' ∅ ∅)
    (hreserved : s'.reservedChunks = s.reservedChunks)
    (hends : ends layout' = ends layout) (hself : s'.usedAt layout' h = none)
    (hother : ∀ other, other ≠ h →
      s'.usedAt layout' other = s.usedAt layout other) :
    Sound top s' (live.filter (·.1 ≠ p)) layout' recycled' := by
  have hne : ∀ other q size' m, s'.usedAt layout' other = some (q, size', m) →
      other ≠ h := by
    rintro other q size' m hh rfl
    rw [hself] at hh
    cases hh
  refine ⟨hw, ?_, fun q m => ?_, fun other q size' m hh => ?_⟩
  · rw [hw.blocks_eq, hends, hreserved, ← hs.wellFormed.blocks_eq]
    exact hs.separate
  · simp only [hreserved, mem_filter, hs.mem_live, decide_eq_true_eq]
    constructor
    · rintro ⟨⟨hq, hmem | ⟨other, size', hmem⟩⟩, hqp⟩
      · exact ⟨hq, .inl hmem⟩
      · refine ⟨hq, .inr ⟨other, size', ?_⟩⟩
        rw [hother other]
        · exact hmem
        · rintro rfl
          rw [hused] at hmem
          cases hmem
          exact hqp rfl
    · rintro ⟨hq, hmem | ⟨other, size', hmem⟩⟩
      · refine ⟨⟨hq, .inl hmem⟩, fun heq => hkey ?_⟩
        exact mem_map.2 ⟨(q, m), hmem, heq⟩
      · have hother' := hne other q size' m hmem
        rw [hother other hother'] at hmem
        refine ⟨⟨hq, .inr ⟨other, size', hmem⟩⟩, ?_⟩
        rintro rfl
        have hapart := hs.used_apart hused hmem hother'
        have hpos := hs.used_pos hused
        have hpos' := hs.used_pos hmem
        omega
  · rw [hother other (hne other q size' m hh)] at hh
    exact hs.requested_le other q size' m hh

end

/-- A reserved block goes back to the device. -/
theorem of_released (hp : p ≠ 0) (hmem : (p, size) ∈ s.reservedChunks)
    (hheap : s'.heap = s.heap)
    (hreserved : s'.reservedChunks = s.reservedChunks.filter (·.1 ≠ p)) :
    Sound top s' (live.filter (·.1 ≠ p)) layout recycled := by
  have hw := hs.wellFormed.of_heap hheap
  have hused : ∀ h, s'.usedAt layout h = s.usedAt layout h := fun _ =>
    usedAt_of_heap hheap
  refine ⟨hw, ?_, fun q m => ?_, fun h q size m => ?_⟩
  · refine hs.separate.sublist ?_
    rw [hw.blocks_eq, hs.wellFormed.blocks_eq, hreserved]
    exact (List.Sublist.refl _).append ((filter_sublist.filter _).map _)
  · -- No chunk in use starts where the reserved block does.
    have hne : ∀ h size' m, s.usedAt layout h = some (q, size', m) → q ≠ p := by
      rintro h size' m hused rfl
      have hapart := hs.used_apart_reserved hused hmem hp
      have hpos := hs.used_pos hused
      have hpos' := (hs.reserved_mem hmem hp).2
      omega
    simp only [hused, hreserved, mem_filter, hs.mem_live, decide_eq_true_eq]
    constructor
    · rintro ⟨⟨hq, hmem | hmem⟩, hqp⟩
      · exact ⟨hq, .inl ⟨hmem, hqp⟩⟩
      · exact ⟨hq, .inr hmem⟩
    · rintro ⟨hq, ⟨hmem, hqp⟩ | ⟨h, size', hmem⟩⟩
      · exact ⟨⟨hq, .inl hmem⟩, hqp⟩
      · exact ⟨⟨hq, .inr ⟨h, size', hmem⟩⟩, hne h size' m hmem⟩
  · rw [hused]
    exact hs.requested_le h q size m

/-- `Free` takes back what the client holds. -/
theorem free (hclient : p = 0 ∨ p ∈ live.map Prod.fst) :
    ∃ s' layout' recycled', ArenaM.free p s = .ok () s' ∧
      Effect (.free p) s layout s' layout' ∧
      Sound top s' (live.filter (·.1 ≠ p)) layout' recycled' := by
  by_cases hp : p = 0
  · refine ⟨s, layout, recycled, ?_, .quiet rfl rfl, ?_⟩
    · rw [ArenaM.free, if_pos hp]
      rfl
    · have hkeep : live.filter (·.1 ≠ p) = live := by
        refine filter_eq_self.2 fun entry hmem => ?_
        have hentry := ((hs.mem_live entry.1 entry.2).1 hmem).1
        simpa [hp] using hentry
      rw [hkeep]
      exact hs
  obtain ⟨n, hlive⟩ : ∃ n, (p, n) ∈ live := by
    obtain ⟨⟨_, n⟩, hlive, rfl⟩ := mem_map.1 (hclient.resolve_left hp)
    exact ⟨n, hlive⟩
  rw [ArenaM.free, if_neg hp, bind_eq_of_ok (get_apply s)]
  cases hlookup : s.reservedChunks.lookup p with
  | some size =>
    obtain ⟨front, back, hsplit, -⟩ := lookup_eq_some_iff.1 hlookup
    have hmem : (p, size) ∈ s.reservedChunks := by
      rw [hsplit]
      simp
    exact ⟨_, layout, recycled, rfl, .released rfl rfl hlookup rfl rfl,
      hs.of_released hp hmem rfl rfl⟩
  | none =>
    have hkey : p ∉ s.reservedChunks.map Prod.fst := fun hmem => by
      obtain ⟨entry, hmem, heq⟩ := mem_map.1 hmem
      have hne := lookup_eq_none_iff.1 hlookup entry hmem
      simp [heq] at hne
    obtain ⟨-, hmem | ⟨h, size, hused⟩⟩ := (hs.mem_live p n).1 hlive
    · exact absurd (mem_map.2 ⟨_, hmem, rfl⟩) hkey
    · obtain ⟨⟨hmem, hinUse⟩, rfl, -⟩ := usedAt_eq_some.1 hused
      obtain ⟨s', layout', recycled', hrun, hw, haside, hends, hself,
        hother⟩ := hs.wellFormed.freeAndMaybeCoalesce hmem hinUse
      simp only [aside, Prod.mk.injEq] at haside
      obtain ⟨-, -, -, -, hstats, hreserved, -⟩ := haside
      obtain rfl := (usedAt_eq_some.1 hused).2.2.1
      exact ⟨s', layout', recycled',
        (hs.wellFormed.deallocateRawInternal_eq hmem).trans hrun,
        .freed hused hself hother hreserved hstats,
        hs.of_freed hused hkey hw hreserved hends hself hother⟩

end

/-- Setting the answers of the device is no part of the effect. -/
theorem effect_of_answers
    (heffect : Effect c { s with answers := answers, requests := [] } layout
      s' layout') : Effect c s layout s' layout' := by
  cases heffect with
  | quiet hcore hlayout => exact .quiet hcore hlayout
  | allocated ha =>
    have hcore : core { s with
      answers := answers, requests := [] } = s.core := rfl
    exact .allocated ⟨ha.grown.of_core hcore, ha.granted, ha.best,
      ha.ptr_pos, ha.takes⟩
  | reserved hcall hrequest hheap hlayout hreserved hstats =>
    exact .reserved hcall hrequest hheap hlayout hreserved hstats
  | released hheap hlayout hlookup hreserved hstats =>
    exact .released hheap hlayout hlookup hreserved hstats
  | freed hused hself hother hreserved hstats =>
    exact .freed hused hself hother hreserved hstats

/-- One call of a disciplined client with a fair device. -/
theorem perform (hs : Sound top s live layout recycled) (htop : top ≤ sizeBound)
    (hunit : kMinAllocationSize ∣ s.currRegionAllocationBytes)
    (hcall : Disciplined top s live c answers) (hsafe : s.Safe c answers) :
    Stalls (s.perform c answers) ∨ ∃ p s' layout' recycled',
      s.perform c answers = .ok p s' ∧
      Effect c s layout s' layout' ∧
      Sound top s' (c.after p live) layout' recycled' := by
  have hs₀ : Sound top { s with answers := answers, requests := [] } live layout
      recycled := hs.of_core rfl
  cases c with
  | alloc n =>
    rcases hs₀.alloc htop hunit hsafe.1 hcall.device hsafe.2 with hstalls |
      ⟨p, s', layout', recycled', hrun, heffect, hs'⟩
    · exact .inl hstalls
    · exact .inr ⟨p, s', layout', recycled', hrun,
        effect_of_answers heffect, hs'⟩
  | reserve n =>
    rcases hs₀.reserve hcall.device hsafe with hstalls |
      ⟨p, s', hrun, heffect, hs'⟩
    · exact .inl hstalls
    · exact .inr ⟨p, s', layout, recycled, hrun, effect_of_answers heffect, hs'⟩
  | free p =>
    obtain ⟨s', layout', recycled', hrun, heffect, hs'⟩ := hs₀.free
      (hcall.client p rfl)
    refine .inr ⟨0, s', layout', recycled', ?_, effect_of_answers heffect, hs'⟩
    rw [perform, ArenaCall.run, bind_eq_of_ok hrun]
    rfl

end Sound

/-- Every state of a safe run is in order. -/
theorem Runs.sound (htop : top ≤ sizeBound)
    (hrun : Runs top limit Safe s live past) :
    ∃ layout recycled, Sound top s live layout recycled := by
  induction hrun with
  | init => exact ⟨[], [], .init limit⟩
  | call hrun c answers hcall hsafe hreturn ih =>
    obtain ⟨layout, recycled, hs⟩ := ih
    rcases hs.perform htop hrun.reaches.balanced.unit hcall hsafe with
      hstalls | ⟨p, s', layout', recycled', hreturn', -, hs'⟩
    · rw [hreturn] at hstalls
      cases hstalls
    · rw [hreturn] at hreturn'
      cases hreturn'
      exact ⟨layout', recycled', hs'⟩

/-- The regions are tiled by their chunk lists and the tables hold exactly the
starts of the chunks; the free chunks, and only they, are in the bins of their
sizes; no two neighbours are free; and the recycled records are others. -/
def Represented (s : BFCArena) : Prop :=
  ∃ layout recycled, s.WellFormed layout recycled ∅ ∅

/-- A call returns in a state that is in order, or waits for the device
forever; in particular no check fails. -/
def CallKeeps (s : BFCArena) (c : ArenaCall) (answers : List Nat) : Prop :=
  Stalls (s.perform c answers) ∨
    ∃ p s', s.perform c answers = .ok p s' ∧ s'.Represented

theorem Runs.represented {limit : Nat}
    (hrun : Runs sizeBound limit Safe s live past) :
    s.Represented ∧ ∀ c answers, Disciplined sizeBound s live c answers →
      s.Safe c answers → s.CallKeeps c answers := by
  obtain ⟨layout, recycled, hs⟩ := hrun.sound (Nat.le_refl _)
  refine ⟨⟨layout, recycled, hs.wellFormed⟩, fun c answers hcall hsafe => ?_⟩
  rcases hs.perform (Nat.le_refl _) hrun.reaches.balanced.unit hcall hsafe with
    hstalls | ⟨p, s', layout', recycled', hreturn, -, hs'⟩
  · exact .inl hstalls
  · exact .inr ⟨p, s', hreturn, layout', recycled', hs'.wellFormed⟩

theorem not_stalls_of_valueOf {result : EStateM.Result ArenaStop BFCArena Nat}
    {stop : ArenaStop} (hstop : valueOf result = .error stop)
    (hdiverges : stop ≠ .diverges) (hwaits : stop ≠ .awaitingDevice) :
    ¬ Stalls result := by
  intro hstalls
  cases result with
  | ok p s => cases hstop
  | error other s =>
    cases hstop
    cases stop with
    | diverges => exact hdiverges rfl
    | awaitingDevice => exact hwaits rfl
    | enforce text => exact hstalls
    | nullDereference => exact hstalls
    | outOfBounds => exact hstalls

/-- A new arena after its first allocation, of one byte. -/
def oneAlloc : BFCArena :=
  endState ((init (2 ^ 20)).perform (.alloc 1) [4096])

/-- Whatever the device gives to a new arena is a new block. -/
theorem fair_init {bytes answer : Nat} (hbelow : answer + bytes < top) :
    (init limit).Fair top ⟨bytes, answer⟩ :=
  fun _ => ⟨hbelow, nofun⟩

theorem requestsOf_oneAlloc :
    (init (2 ^ 20)).requestsOf (.alloc 1) [4096] = [⟨2 ^ 20, 4096⟩] := by
  decide +kernel

theorem safe_oneAlloc : (init (2 ^ 20)).Safe (.alloc 1) [4096] := by
  refine ⟨by decide, ?_⟩
  rintro _ (_ | ⟨_, ⟨⟩⟩) -
  decide

theorem runs_oneAlloc (htop : 2 ^ 20 + 4096 < top)
    (hcondition : condition (init (2 ^ 20)) (.alloc 1) [4096]) :
    Runs top (2 ^ 20) condition oneAlloc [(4096, 1)] [init (2 ^ 20)] := by
  have hreturn : (init (2 ^ 20)).perform (.alloc 1) [4096] =
      .ok 4096 oneAlloc := eq_ok_of_valueOf (by decide +kernel)
  refine .call .init (.alloc 1) [4096] ⟨nofun, ?_⟩ hcondition hreturn
  rw [requestsOf_oneAlloc]
  rintro _ (_ | ⟨_, ⟨⟩⟩)
  exact fair_init (by omega)

theorem represented_oneAlloc : oneAlloc.Represented ∧
    oneAlloc.CallKeeps (.free 4096) [] := by
  obtain ⟨hstate, hcalls⟩ :=
    (runs_oneAlloc (by decide) safe_oneAlloc).represented
  refine ⟨hstate, hcalls (.free 4096) [] ⟨?_, ?_⟩ trivial⟩
  · rintro _ ⟨⟩
    exact .inr (by decide)
  · exact nofun

/-- In a region of 2^40 bytes a chunk can start at an index that is no `int`:
the handle of the rest is written in front of the table. -/
theorem not_callKeeps_init :
    Disciplined sizeBound (init (2 ^ 40)) [] (.alloc (2 ^ 39 + 256)) [4096] ∧
      ¬ (init (2 ^ 40)).CallKeeps (.alloc (2 ^ 39 + 256)) [4096] := by
  have hstop : valueOf ((init (2 ^ 40)).perform (.alloc (2 ^ 39 + 256))
      [4096]) = .error .outOfBounds := by decide +kernel
  refine ⟨⟨nofun, ?_⟩, ?_⟩
  · rintro _ (_ | ⟨_, ⟨⟩⟩)
    exact fair_init (by decide)
  · rintro (hstalls | ⟨p, s', hreturn, -⟩)
    · exact not_stalls_of_valueOf hstop nofun nofun hstalls
    · rw [hreturn] at hstop
      cases hstop

/-- What `Alloc` returns is the start of a chunk that is large enough, inside a
region, and apart from everything else the client holds. -/
def AllocatesApart (s : BFCArena) (live : List (Nat × Nat)) (n : Nat)
    (answers : List Nat) : Prop :=
  ∀ p s', s.perform (.alloc n) answers = .ok p s' → p ≠ 0 →
    ∃ h, s'.regions.getHandle p = .ok (some h) ∧ (s'.chunk h).ptr = p ∧
      n ≤ (s'.chunk h).size ∧
      (∃ region ∈ s'.regions, region.ptr ≤ p ∧
        p + (s'.chunk h).size ≤ region.ptr + region.memorySize) ∧
      ∀ other ∈ live, p + n ≤ other.1 ∨ other.1 + other.2 ≤ p

/-- A chunk lies in one of the regions of the device. -/
theorem WellFormed.region_of_mem (hw : s.WellFormed layout recycled ∅ ∅)
    (hmem : h ∈ handlesOf layout) : ∃ region ∈ s.regions,
      region.ptr ≤ (s.chunk h).ptr ∧
      (s.chunk h).ptr + (s.chunk h).size ≤ region.ptr + region.memorySize := by
  obtain ⟨r, hr, hbase, -, -, hstop, -⟩ := hw.shape.chunk_within hmem
  have hends : (r.base, r.stop) ∈ ends layout := mem_map.2 ⟨r, hr, rfl⟩
  rw [← ends_eq hw.shape.regions] at hends
  obtain ⟨region, hregion, heq⟩ := mem_map.1 hends
  obtain ⟨hptr, hend⟩ := Prod.mk.inj heq
  exact ⟨region, hregion, by omega, by omega⟩

/-- The new chunk is apart from what the client held before. -/
theorem Sound.allocated_apart (hs : Sound top s live layout recycled)
    {mid : BFCArena} {midLayout : List RegionLayout}
    {recycled' : List ChunkHandle} {block : Option DeviceRequest}
    (hs' : Sound top s' (((mid.chunk h).ptr, n) :: live) layout' recycled')
    (ha : s.Allocates layout n mid midLayout h s' layout' block)
    (other : Nat × Nat) (hother : other ∈ live) :
    (mid.chunk h).ptr + handedSize (mid.chunk h).size (roundedBytes n) ≤
        other.1 ∨ other.1 + other.2 ≤ (mid.chunk h).ptr := by
  have hself := ha.takes.usedAt_self
  obtain ⟨hp, hmem | ⟨h', size, hused⟩⟩ := (hs.mem_live _ _).1 hother
  · refine hs'.used_apart_reserved hself ?_ hp
    rw [ha.reserved_eq]
    exact hmem
  · have hne : h' ≠ h := by
      rintro rfl
      rw [ha.usedAt_before] at hused
      cases hused
    have hle := hs.requested_le h' _ _ _ hused
    rw [← ha.usedAt_other h' hne] at hused
    rcases hs'.used_apart hself hused hne with hapart | hapart
    · exact .inr (by omega)
    · exact .inl hapart

theorem Runs.allocatesApart {limit n : Nat} {answers : List Nat}
    (hrun : Runs sizeBound limit Safe s live past)
    (hcall : Disciplined sizeBound s live (.alloc n) answers)
    (hsafe : s.Safe (.alloc n) answers) : s.AllocatesApart live n answers := by
  intro p s' hreturn hp
  obtain ⟨layout, recycled, hs⟩ := hrun.sound (Nat.le_refl _)
  have hs₀ : Sound sizeBound { s with answers := answers, requests := [] } live
      layout recycled := hs.of_core rfl
  have hzero : n ≠ 0 := by
    rintro rfl
    cases hreturn
    exact hp rfl
  rcases hs₀.wellFormed.alloc hrun.reaches.balanced.unit
      (Nat.pos_of_ne_zero hzero) hsafe.1 fun request hmem hne =>
        hs₀.usable (Nat.le_refl _) (hcall.device request hmem) hne
          (hsafe.2 request hmem hne) with
    ⟨s₁, hrun₁, -⟩ | ⟨mid, midLayout, h, s₁, layout', recycled', block, hrun₁,
      hw, ha⟩ | hstalls
  · rw [perform, ArenaCall.run, hrun₁] at hreturn
    cases hreturn
    exact absurd rfl hp
  · rw [perform, ArenaCall.run, hrun₁] at hreturn
    cases hreturn
    have hs' := hs₀.of_allocates hsafe.1 hw ha fun b hb =>
      hcall.device b (by
        rw [requestsOf, perform, ArenaCall.run, hrun₁]
        exact (ha.granted b hb).2)
    obtain ⟨⟨hmem, -⟩, hptr, hsize, -⟩ :=
      usedAt_eq_some.1 ha.takes.usedAt_self
    have hle : n ≤ handedSize (mid.chunk h).size (roundedBytes n) :=
      (le_roundedBytes hsafe.1).trans (le_handedSize ha.best.fits)
    refine ⟨h, ?_, hptr, hsize ▸ hle, ?_, fun other hother => ?_⟩
    · rw [← hptr]
      exact hw.shape.getHandle_ptr hmem
    · rw [← hptr]
      exact hw.region_of_mem hmem
    · have hapart := hs₀.allocated_apart hs' ha other hother
      omega
  · rw [perform, ArenaCall.run] at hreturn
    rw [hreturn] at hstalls
    cases hstalls

theorem allocatesApart_oneAlloc :
    Disciplined sizeBound oneAlloc [(4096, 1)] (.alloc 1000) [] ∧
      oneAlloc.AllocatesApart [(4096, 1)] 1000 [] := by
  have hcall : Disciplined sizeBound oneAlloc [(4096, 1)] (.alloc 1000) [] := by
    refine ⟨nofun, ?_⟩
    exact nofun
  refine ⟨hcall, (runs_oneAlloc (by decide) safe_oneAlloc).allocatesApart hcall
    ⟨by decide, ?_⟩⟩
  exact nofun

/-- The largest request is rounded up to nothing: the client gets a chunk of
no bytes. -/
theorem not_allocatesApart_oneAlloc :
    Disciplined sizeBound oneAlloc [(4096, 1)] (.alloc (2 ^ 64 - 1)) [] ∧
      ¬ oneAlloc.AllocatesApart [(4096, 1)] (2 ^ 64 - 1) [] := by
  refine ⟨⟨nofun, ?_⟩, fun hapart => ?_⟩
  · exact nofun
  · have hreturn := eq_ok_of_valueOf (show valueOf (oneAlloc.perform
      (.alloc (2 ^ 64 - 1)) []) = .ok 4352 by decide +kernel)
    have hregions : (endState (oneAlloc.perform (.alloc (2 ^ 64 - 1))
        [])).regions.map (fun region => region.ptr + region.memorySize) =
          [4096 + 2 ^ 20] := by decide +kernel
    obtain ⟨h, -, -, hle, ⟨region, hregion, -, hend⟩, -⟩ :=
      hapart _ _ hreturn (by decide)
    have hmem := mem_map_of_mem (f := fun region : AllocationRegion =>
      region.ptr + region.memorySize) hregion
    rw [hregions, mem_singleton] at hmem
    omega

end BFCArena

end OnnxRuntime
