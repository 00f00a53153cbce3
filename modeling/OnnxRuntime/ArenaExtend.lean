/-
The loops of `Extend`: doubling the size of the next region until the request
fits, and asking a device that has nothing for less and less.
-/
import OnnxRuntime.ArenaLimit

namespace OnnxRuntime

open List

variable {rounded bytes : Nat}

/-- A call that does not end, or would wait for one more answer. -/
def ArenaStop.Stalling : ArenaStop → Prop
  | .diverges => True
  | .awaitingDevice => True
  | _ => False

def Stalls {α : Type} : EStateM.Result ArenaStop BFCArena α → Prop
  | .error stop _ => stop.Stalling
  | .ok _ _ => False

section Stalls

variable {α β : Type} {s : BFCArena}

theorem Stalls.bind_iff {x : ArenaM α} {f : α → ArenaM β} :
    Stalls ((x >>= f) s) ↔
      Stalls (x s) ∨ ∃ a s', x s = .ok a s' ∧ Stalls (f a s') := by
  cases hrun : x s with
  | ok a s' =>
    rw [bind_eq_of_ok hrun]
    refine ⟨fun h => .inr ⟨a, s', rfl, h⟩, ?_⟩
    rintro (hnot | ⟨_, _, ⟨⟩, h⟩)
    · exact hnot.elim
    · exact h
  | error stop s' =>
    rw [bind_eq_of_error hrun]
    refine ⟨fun h => .inl h, ?_⟩
    rintro (h | ⟨_, _, ⟨⟩, -⟩)
    exact h

/-- A call that returns or stops for another reason, in any state. -/
def NeverStalls (x : ArenaM α) : Prop := ∀ s, ¬ Stalls (x s)

namespace NeverStalls

theorem bind {x : ArenaM α} {f : α → ArenaM β} (hx : NeverStalls x)
    (hf : ∀ a, NeverStalls (f a)) : NeverStalls (x >>= f) := by
  intro s h
  rcases Stalls.bind_iff.mp h with h | ⟨a, s', -, h⟩
  · exact hx s h
  · exact hf a s' h

theorem pure (a : α) : NeverStalls (pure a : ArenaM α) := fun _ h => h

theorem get : NeverStalls (get : ArenaM BFCArena) := fun _ h => h

theorem modify (g : BFCArena → BFCArena) :
    NeverStalls (modify g : ArenaM PUnit) := fun _ h => h

theorem enforce (condition : Prop) [Decidable condition] (text : String) :
    NeverStalls (ArenaM.enforce condition text) := by
  intro s
  unfold ArenaM.enforce
  split <;> exact id

theorem chunkFromHandle (h : ChunkHandle) :
    NeverStalls (ArenaM.chunkFromHandle h) :=
  get.bind fun _ => (enforce _ _).bind fun _ => pure _

theorem allocateChunk : NeverStalls ArenaM.allocateChunk := by
  refine get.bind fun s => ?_
  cases s.freeChunksList with
  | some h =>
    exact (chunkFromHandle h).bind fun _ => (modify _).bind fun _ => pure _
  | none => exact (modify _).bind fun _ => pure _

theorem setHandle (p : Nat) (h : Option ChunkHandle) :
    NeverStalls (ArenaM.setHandle p h) := by
  refine get.bind fun s => ?_
  have hstop : ∀ stop, s.regions.setHandle p h = .error stop →
      ¬ stop.Stalling := by
    generalize s.regions = regions
    induction regions with
    | nil =>
      rintro _ ⟨⟩
      exact id
    | cons region rest ih =>
      intro stop hrun
      rw [RegionManager.setHandle] at hrun
      split at hrun
      · unfold AllocationRegion.setHandle AllocationRegion.indexFor at hrun
        split_ifs at hrun <;> cases hrun <;> exact id
      · cases hrest : RegionManager.setHandle p h rest with
        | ok regions =>
          rw [hrest] at hrun
          cases hrun
        | error stop' =>
          rw [hrest] at hrun
          cases hrun
          exact ih _ hrest
  cases hrun : s.regions.setHandle p h with
  | error stop => exact fun _ => hstop stop hrun
  | ok regions => exact modify _

theorem insertFreeChunkIntoBin (h : ChunkHandle) :
    NeverStalls (ArenaM.insertFreeChunkIntoBin h) :=
  (chunkFromHandle h).bind fun _ => (enforce _ _).bind fun _ =>
    (modify _).bind fun _ => modify _

theorem addRegion (memAddr bytes : Nat) :
    NeverStalls (ArenaM.addRegion memAddr bytes) :=
  (modify _).bind fun _ => (enforce _ _).bind fun _ => (modify _).bind fun _ =>
    allocateChunk.bind fun h => (chunkFromHandle h).bind fun _ =>
      (modify _).bind fun _ => (setHandle _ _).bind fun _ =>
        insertFreeChunkIntoBin h

end NeverStalls

end Stalls

section Loops

variable {s : BFCArena} {units request : Nat}

/-- The factor of the loop, as an exact number. -/
def nineTenths (bytes : Nat) : Nat := bytes * 9 / 10

theorem roundedBytes_nineTenths (h : kMinAllocationSize * units < sizeBound) :
    roundedBytes (nineTenths (kMinAllocationSize * units)) =
      kMinAllocationSize * ((9 * units + 9) / 10) := by
  rw [kMinAllocationSize, sizeBound] at h
  rw [roundedBytes_eq ?_, nineTenths, kMinAllocationSize]
  · congr 1
    omega
  · rw [nineTenths, kMinAllocationSize, sizeBound]
    omega

section Rounds

variable {shrink : Nat → Nat}

theorem stalls_backpedal_nil (hs : s.answers = []) (fuel : Nat) :
    Stalls (ArenaM.backpedal shrink rounded (fuel + 1) bytes s) ↔
      rounded ≤ roundedBytes (shrink bytes) := by
  rw [ArenaM.backpedal]
  split
  · rename_i hless
    exact iff_of_false id (not_le.mpr hless)
  · rename_i hle
    refine iff_of_true ?_ (not_lt.mp hle)
    rw [Stalls.bind_iff, ArenaM.deviceAlloc, bind_eq_of_ok (get_apply s), hs]
    exact .inl trivial

theorem stalls_backpedal_cons {answer fuel : Nat} {rest : List Nat}
    (hs : s.answers = answer :: rest) :
    Stalls (ArenaM.backpedal shrink rounded (fuel + 1) bytes s) ↔
      rounded ≤ roundedBytes (shrink bytes) ∧ answer = 0 ∧
        Stalls (ArenaM.backpedal shrink rounded fuel
          (roundedBytes (shrink bytes)) { s with
            answers := rest
            requests :=
              ⟨roundedBytes (shrink bytes), answer⟩ :: s.requests }) := by
  rw [ArenaM.backpedal]
  split
  · rename_i hless
    exact iff_of_false id fun h => absurd h.1 (not_le.mpr hless)
  · rename_i hle
    rw [and_iff_right (not_lt.mp hle)]
    have hanswer : ArenaM.deviceAlloc (roundedBytes (shrink bytes)) s =
        .ok answer { s with
          answers := rest
          requests :=
            ⟨roundedBytes (shrink bytes), answer⟩ :: s.requests } := by
      rw [ArenaM.deviceAlloc, bind_eq_of_ok (get_apply s), hs]
      rfl
    rw [bind_eq_of_ok hanswer]
    split
    · rename_i hnull
      exact (and_iff_right hnull).symm
    · rename_i hfound
      exact iff_of_false id fun h => hfound h.1

theorem not_stalls_backpedal_of_answer {answers : List Nat}
    (h : ∃ answer ∈ answers, answer ≠ 0) (hs : s.answers = answers)
    (bytes : Nat) : ¬ Stalls
      (ArenaM.backpedal shrink rounded (answers.length + 1) bytes s) := by
  induction answers generalizing s bytes with
  | nil =>
    obtain ⟨_, hmem, -⟩ := h
    cases hmem
  | cons answer rest ih =>
    rw [stalls_backpedal_cons hs]
    rintro ⟨-, hnull, hstalls⟩
    refine ih ?_ rfl _ hstalls
    obtain ⟨other, hmem, hother⟩ := h
    rcases mem_cons.mp hmem with rfl | hmem
    · exact absurd hnull hother
    · exact ⟨other, hmem, hother⟩

end Rounds

variable (hbound : kMinAllocationSize * units < sizeBound)
include hbound

/-- Above nine units the size shrinks until the request does not fit. -/
theorem exists_not_stalls_backpedal (hrequest : 9 < request)
    (device : Nat → Nat) :
    ∃ n, ∀ s : BFCArena, s.answers = (range n).map device →
      ¬ Stalls (ArenaM.backpedal nineTenths (kMinAllocationSize * request)
        (n + 1) (kMinAllocationSize * units) s) := by
  induction units using Nat.strong_induction_on generalizing device with
  | h units ih =>
    by_cases hfits : (9 * units + 9) / 10 < request
    · refine ⟨0, fun s hs => ?_⟩
      rw [stalls_backpedal_nil hs, roundedBytes_nineTenths hbound, not_le]
      exact mul_lt_mul_of_pos_left hfits (by decide)
    · have hless : (9 * units + 9) / 10 < units := by omega
      obtain ⟨n, hn⟩ := ih _ hless
        (lt_trans (mul_lt_mul_of_pos_left hless (by decide)) hbound)
        fun i => device (i + 1)
      refine ⟨n + 1, fun s hs => ?_⟩
      rw [range_succ_eq_map, map_cons, map_map] at hs
      rw [stalls_backpedal_cons hs, roundedBytes_nineTenths hbound]
      exact fun h => hn _ rfl h.2.2

/-- From nine units on the size stays, so the loop ends with the first answer
that is not null. -/
theorem stalls_backpedal_replicate (hrequest : request ≤ 9)
    (hle : request ≤ units) {n : Nat} (hs : s.answers = replicate n 0) :
    Stalls (ArenaM.backpedal nineTenths (kMinAllocationSize * request) (n + 1)
      (kMinAllocationSize * units) s) := by
  induction n generalizing units s with
  | zero =>
    rw [stalls_backpedal_nil hs, roundedBytes_nineTenths hbound]
    exact Nat.mul_le_mul_left _ (by omega)
  | succ n ih =>
    have hnext : request ≤ (9 * units + 9) / 10 := by omega
    rw [stalls_backpedal_cons hs, roundedBytes_nineTenths hbound]
    refine ⟨Nat.mul_le_mul_left _ hnext, rfl, ih ?_ hnext rfl⟩
    rw [kMinAllocationSize] at hbound ⊢
    omega

end Loops

section Doubling

/-- The loop ends at the first doubling that reaches the request. -/
theorem isSome_growRegion {fuel : Nat} :
    (growRegion rounded fuel bytes).isSome ↔
      ∃ k < fuel, rounded ≤ (fun size => sizeMul size 2)^[k] bytes := by
  induction fuel generalizing bytes with
  | zero => simp [growRegion]
  | succ fuel ih =>
    rw [growRegion]
    split
    · rename_i hless
      rw [ih]
      constructor
      · rintro ⟨k, hk, hle⟩
        exact ⟨k + 1, Nat.succ_lt_succ hk, hle⟩
      · rintro ⟨k, hk, hle⟩
        cases k with
        | zero => exact absurd hle (not_le.mpr hless)
        | succ k => exact ⟨k, Nat.lt_of_succ_lt_succ hk, hle⟩
    · rename_i hfits
      exact iff_of_true rfl ⟨0, Nat.succ_pos _, Nat.le_of_not_lt hfits⟩

theorem iterate_sizeMul_two (bytes k : Nat) :
    (fun size => sizeMul size 2)^[k + 1] bytes =
      bytes * 2 ^ (k + 1) % sizeBound := by
  induction k with
  | zero => rfl
  | succ k ih =>
    rw [Function.iterate_succ_apply', ih, sizeMul, Nat.mod_mul_mod,
      mul_assoc, ← pow_succ]

/-- After 64 doublings the size is zero. -/
theorem isSome_growRegion_iff : (growRegion rounded 65 bytes).isSome ↔
      rounded ≤ bytes ∨ ∃ k, rounded ≤ bytes * 2 ^ k % sizeBound := by
  rw [isSome_growRegion]
  constructor
  · rintro ⟨k, -, hle⟩
    cases k with
    | zero => exact .inl hle
    | succ k => exact .inr ⟨k + 1, iterate_sizeMul_two bytes k ▸ hle⟩
  · rintro (hle | ⟨k, hle⟩)
    · exact ⟨0, by decide, hle⟩
    · by_cases hk : 64 ≤ k
      · have hzero : bytes * 2 ^ k % sizeBound = 0 := by
          refine Nat.mod_eq_zero_of_dvd (dvd_mul_of_dvd_right ?_ _)
          exact pow_dvd_pow 2 hk
        exact ⟨0, by decide, (hzero ▸ hle).trans (Nat.zero_le _)⟩
      · cases k with
        | zero =>
          rw [pow_zero, mul_one] at hle
          exact ⟨0, by decide, hle.trans (Nat.mod_le _ _)⟩
        | succ k =>
          refine ⟨k + 1, by omega, ?_⟩
          rw [iterate_sizeMul_two]
          exact hle

end Doubling

namespace BFCArena

/-- The states that calls lead to from a new arena. -/
inductive Reaches (limit : Nat) : BFCArena → Prop
  | init : Reaches limit (init limit)
  | call {s s' : BFCArena} (hreach : Reaches limit s) (c : ArenaCall)
      (answers : List Nat) (hend : continues (s.perform c answers) = some s') :
      Reaches limit s'

theorem Reaches.balanced {limit : Nat} {s : BFCArena} (h : Reaches limit s) :
    s.Balanced := by
  induction h with
  | init => exact balanced_init limit
  | @call s s' hreach c answers hend ih =>
    have hstart := ih.asking answers
    rw [← endState_of_continues hend]
    cases c with
    | alloc size => exact (ArenaM.grows_alloc hstart size).balanced
    | reserve size => exact (ArenaM.balanced_reserve hstart size).1
    | free p =>
      rw [BFCArena.perform, ArenaCall.run, ArenaM.endState_bind_pure]
      exact (ArenaM.balanced_free hstart p).1

theorem availableBytes_lt (s : BFCArena) : s.availableBytes < sizeBound := by
  have hmod := Int.emod_lt_of_pos ((s.memoryLimit : Int) -
    s.stats.totalAllocatedBytes) (show (0 : Int) < sizeBound by decide)
  refine lt_of_le_of_lt (Nat.div_mul_le_self _ _) ?_
  exact (Int.toNat_lt (Int.emod_nonneg _ (by decide))).mpr hmod

section Extend

variable {s : BFCArena} {shrink : Nat → Nat} {rounded bytes : Nat}

theorem stalls_askDevice_nil (hs : s.answers = []) :
    Stalls (ArenaM.askDevice shrink rounded bytes s) := by
  rw [ArenaM.askDevice, Stalls.bind_iff, ArenaM.deviceAlloc,
    bind_eq_of_ok (get_apply s), hs]
  exact .inl trivial

theorem stalls_askDevice_cons {answer : Nat} {rest : List Nat}
    (hs : s.answers = answer :: rest) :
    Stalls (ArenaM.askDevice shrink rounded bytes s) ↔
      (answer = 0 ∧ s.startedBackpedal = false) ∧
        Stalls (ArenaM.backpedal shrink rounded (rest.length + 1) bytes { s with
          startedBackpedal := true
          answers := rest
          requests := ⟨bytes, answer⟩ :: s.requests }) := by
  have hanswer : ArenaM.deviceAlloc bytes s = .ok answer { s with
      answers := rest
      requests := ⟨bytes, answer⟩ :: s.requests } := by
    rw [ArenaM.deviceAlloc, bind_eq_of_ok (get_apply s), hs]
    rfl
  rw [ArenaM.askDevice, bind_eq_of_ok hanswer, bind_eq_of_ok (get_apply _)]
  simp only [Bool.not_eq_true]
  split
  · rename_i hnull
    exact (and_iff_right hnull).symm
  · rename_i hfound
    exact iff_of_false id fun h => hfound h.1

/-- Once the device has been asked, nothing in `Extend` waits. -/
theorem stalls_extendWith : Stalls (ArenaM.extendWith shrink rounded s) ↔
      rounded ≤ s.availableBytes ∧
        ∀ curr, growRegion rounded 65 s.currRegionAllocationBytes = some curr →
          Stalls (ArenaM.askDevice shrink rounded (min curr s.availableBytes)
            { s with currRegionAllocationBytes := curr }) := by
  rw [ArenaM.extendWith, bind_eq_of_ok (get_apply s)]
  split
  · rename_i hless
    exact iff_of_false id fun h => absurd h.1 (not_le.mpr hless)
  rename_i hle
  rw [and_iff_right (not_lt.mp hle)]
  cases growRegion rounded 65 s.currRegionAllocationBytes with
  | none => exact iff_of_true trivial (by rintro _ ⟨⟩)
  | some curr =>
    simp only [Option.some.injEq, forall_eq']
    rw [bind_eq_of_ok (modify_apply _ _), Stalls.bind_iff]
    refine or_iff_left ?_
    rintro ⟨⟨memAddr, asked⟩, s', -, hstalls⟩
    revert hstalls
    dsimp only
    split
    · exact id
    · split
      · exact ((NeverStalls.modify _).bind fun _ =>
          (NeverStalls.addRegion _ _).bind fun _ => NeverStalls.pure _) s'
      · exact ((NeverStalls.addRegion _ _).bind fun _ => NeverStalls.pure _) s'

end Extend

section Device

variable {s : BFCArena} {request units : Nat}

/-- The device is asked for whole units that hold the request. -/
theorem Balanced.asked_units (hs : s.Balanced)
    (havailable : kMinAllocationSize * request ≤ s.availableBytes) {curr : Nat}
    (hgrow : growRegion (kMinAllocationSize * request) 65
      s.currRegionAllocationBytes = some curr) :
    ∃ units, min curr s.availableBytes = kMinAllocationSize * units ∧
      kMinAllocationSize * units < sizeBound ∧ request ≤ units := by
  obtain ⟨⟨units, hunits⟩, hle⟩ :=
    ArenaM.min_growRegion hs.unit havailable hgrow
  refine ⟨units, hunits, ?_, ?_⟩
  · rw [← hunits]
    exact lt_of_le_of_lt (min_le_right _ _) (availableBytes_lt s)
  · refine le_of_mul_le_mul_left ?_ (show 0 < kMinAllocationSize by decide)
    exact hunits ▸ hle

variable (hbound : kMinAllocationSize * units < sizeBound)
include hbound

/-- A device that has nothing is asked for nine units without end. -/
theorem stalls_askDevice_replicate (hrequest : request ≤ 9)
    (hle : request ≤ units) (hstarted : s.startedBackpedal = false) {n : Nat}
    (hs : s.answers = replicate n 0) :
    Stalls (ArenaM.askDevice nineTenths (kMinAllocationSize * request)
      (kMinAllocationSize * units) s) := by
  cases n with
  | zero => exact stalls_askDevice_nil hs
  | succ n =>
    rw [replicate_succ] at hs
    refine (stalls_askDevice_cons hs).mpr ⟨⟨rfl, hstarted⟩, ?_⟩
    rw [length_replicate]
    exact stalls_backpedal_replicate hbound hrequest hle rfl

/-- Enough answers end the search: one of them is a block, the size shrinks
below the request, or it is not to be shrunk again. -/
theorem exists_not_stalls_askDevice {started : Bool} {device : Nat → Nat}
    (h : started = true ∨ 9 < request ∨ ∃ i, device i ≠ 0) :
    ∃ n, ∀ s : BFCArena, s.answers = (range n).map device →
      s.startedBackpedal = started →
      ¬ Stalls (ArenaM.askDevice nineTenths (kMinAllocationSize * request)
        (kMinAllocationSize * units) s) := by
  suffices hends : ∃ n, ∀ s : BFCArena,
      s.answers = (range n).map (fun i => device (i + 1)) →
      device 0 = 0 → started = false →
      ¬ Stalls (ArenaM.backpedal nineTenths (kMinAllocationSize * request)
        (n + 1) (kMinAllocationSize * units) s) by
    obtain ⟨n, hn⟩ := hends
    refine ⟨n + 1, fun s hs hstarted hstalls => ?_⟩
    rw [range_succ_eq_map, map_cons, map_map] at hs
    obtain ⟨⟨hnull, hfirst⟩, hloop⟩ := (stalls_askDevice_cons hs).mp hstalls
    rw [length_map, length_range] at hloop
    exact hn _ rfl hnull (hstarted.symm.trans hfirst) hloop
  rcases h with rfl | hlarge | ⟨i, hanswer⟩
  · exact ⟨0, fun _ _ _ hstarted => absurd hstarted (by decide)⟩
  · obtain ⟨n, hn⟩ := exists_not_stalls_backpedal hbound hlarge
      fun i => device (i + 1)
    exact ⟨n, fun s hs _ _ => hn s hs⟩
  · cases i with
    | zero => exact ⟨0, fun _ _ hnull _ => absurd hnull hanswer⟩
    | succ i =>
      refine ⟨i + 1, fun s hs _ _ => ?_⟩
      have hlength : i + 1 = s.answers.length := by simp [hs]
      rw [hlength]
      refine not_stalls_backpedal_of_answer ?_ rfl _
      rw [hs]
      exact ⟨device (i + 1), mem_map.mpr
        ⟨i, mem_range.mpr (Nat.lt_succ_self i), rfl⟩, hanswer⟩

end Device

/-- `Extend` ends after some number of answers of the device. -/
def ExtendEnds (shrink : Nat → Nat) (s : BFCArena) (rounded : Nat)
    (device : Nat → Nat) : Prop :=
  ∃ n, ¬ Stalls (ArenaM.extendWith shrink rounded
    { s with answers := (range n).map device, requests := [] })

/-- Extending ends exactly if doubling reaches the request before it wraps to
zero, and a device that has nothing is not asked for a request of at most nine
units. -/
theorem extendEnds_iff {limit : Nat} {s : BFCArena} (hs : Reaches limit s)
    {rounded : Nat} (hunit : kMinAllocationSize ∣ rounded)
    (device : Nat → Nat) :
    ExtendEnds nineTenths s rounded device ↔
      (rounded ≤ s.availableBytes → (rounded ≤ s.currRegionAllocationBytes ∨
          ∃ k, rounded ≤ s.currRegionAllocationBytes * 2 ^ k % sizeBound) ∧
        (s.startedBackpedal = true ∨ 9 * kMinAllocationSize < rounded ∨
          ∃ i, device i ≠ 0)) := by
  obtain ⟨request, rfl⟩ := hunit
  rw [mul_comm 9, mul_lt_mul_iff_right₀ (by decide)]
  constructor
  · rintro ⟨n, hn⟩ havailable
    obtain ⟨curr, hgrow, hends⟩ : ∃ curr, growRegion _ 65 _ = some curr ∧
        ¬ Stalls _ := by
      by_contra hnone
      exact hn (stalls_extendWith.mpr ⟨havailable, fun curr hgrow =>
        not_not.mp fun hends => hnone ⟨curr, hgrow, hends⟩⟩)
    refine ⟨isSome_growRegion_iff.mp (Option.isSome_iff_exists.mpr
      ⟨curr, hgrow⟩), ?_⟩
    obtain ⟨units, hunits, hbound, hle⟩ :=
      hs.balanced.asked_units havailable hgrow
    by_contra hnot
    simp only [not_or, not_exists, not_not, not_lt, Bool.not_eq_true] at hnot
    obtain ⟨hstarted, hsmall, hnull⟩ := hnot
    refine hends ?_
    change Stalls (ArenaM.askDevice _ _ (min curr s.availableBytes) _)
    rw [hunits]
    refine stalls_askDevice_replicate (n := n) hbound hsmall hle hstarted ?_
    exact eq_replicate_iff.mpr ⟨by simp, by simp [hnull]⟩
  · intro h
    by_cases havailable : kMinAllocationSize * request ≤ s.availableBytes
    · obtain ⟨hdoubled, hdevice⟩ := h havailable
      obtain ⟨curr, hgrow⟩ :=
        Option.isSome_iff_exists.mp (isSome_growRegion_iff.mpr hdoubled)
      obtain ⟨units, hunits, hbound, -⟩ :=
        hs.balanced.asked_units havailable hgrow
      obtain ⟨n, hn⟩ := exists_not_stalls_askDevice hbound hdevice
      refine ⟨n, fun hstalls => ?_⟩
      have hasked := (stalls_extendWith.mp hstalls).2 curr hgrow
      change Stalls (ArenaM.askDevice _ _ (min curr s.availableBytes) _)
        at hasked
      rw [hunits] at hasked
      refine hn _ ?_ ?_ hasked
      · rfl
      · rfl
    · exact ⟨0, fun hstalls => havailable (stalls_extendWith.mp hstalls).1⟩

/-- Ten units are given up on when the device has nothing. -/
theorem extendEnds_init : Reaches (2 ^ 20) (init (2 ^ 20)) ∧
    ExtendEnds nineTenths (init (2 ^ 20)) 2560 (fun _ => 0) :=
  ⟨.init, (extendEnds_iff .init (by decide) fun _ => 0).mpr fun _ =>
    ⟨.inl (by decide +kernel), .inr (.inl (by decide))⟩⟩

/-- A device that has nothing is asked for 2304 bytes again and again. -/
theorem not_extendEnds_init : Reaches (2 ^ 20) (init (2 ^ 20)) ∧
      ¬ ExtendEnds nineTenths (init (2 ^ 20)) 256 (fun _ => 0) := by
  refine ⟨.init, ?_⟩
  rintro ⟨n, hn⟩
  have havailable : 256 ≤ (init (2 ^ 20)).availableBytes := by decide +kernel
  refine hn (stalls_extendWith.mpr ⟨havailable, fun curr hgrow => ?_⟩)
  obtain rfl : 2 ^ 20 = curr := Option.some.inj
    ((by decide +kernel : growRegion 256 65 (2 ^ 20) = some (2 ^ 20)).symm.trans
      hgrow)
  change Stalls (ArenaM.askDevice _ (kMinAllocationSize * 1) (min (2 ^ 20)
    (init (2 ^ 20)).availableBytes) _)
  rw [show min (2 ^ 20) (init (2 ^ 20)).availableBytes =
    kMinAllocationSize * 4096 by decide +kernel]
  refine stalls_askDevice_replicate (n := n) (by decide) (by decide) (by decide)
    rfl ?_
  exact eq_replicate_iff.mpr ⟨by simp, by simp⟩

end BFCArena

end OnnxRuntime
