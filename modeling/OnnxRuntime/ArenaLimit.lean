/-
The memory limit of the arena: what the counter of `Extend` and `Reserve` says
about the bytes held, and what is asked of the device.
-/
import OnnxRuntime.BFCArena
import OnnxRuntime.ExceptRuns

namespace OnnxRuntime

open List ArenaM RegionManager

variable {memAddr n : Nat} {rest : List Nat} {s'' : BFCArena}

section Rounding

theorem dvd_sizeMul {left : Nat} (h : kMinAllocationSize ∣ left)
    (right : Nat) : kMinAllocationSize ∣ sizeMul left right := by
  have hbound : kMinAllocationSize ∣ sizeBound := ⟨2 ^ 56, rfl⟩
  rw [sizeMul, Nat.dvd_mod_iff hbound]
  exact Nat.dvd_mul_right_of_dvd h _

theorem kMinAllocationSize_dvd_roundedBytes (bytes : Nat) :
    kMinAllocationSize ∣ roundedBytes bytes := by
  exact dvd_sizeMul (dvd_refl _) _

theorem roundToFloat_le (n : Nat) : roundToFloat n ≤ n + n / 2 ^ 24 := by
  rw [roundToFloat]
  split
  · omega
  · rename_i hlarge
    rw [not_lt] at hlarge
    obtain ⟨k, hk⟩ := Nat.exists_eq_add_of_le
      ((Nat.le_log2 (ne_of_gt (lt_of_lt_of_le (by decide) hlarge))).mpr hlarge)
    have hself : 2 ^ 24 * 2 ^ k ≤ n := by
      rw [← pow_add, ← hk]
      exact Nat.log2_self_le (by omega)
    have hstep : 2 ^ (Nat.log2 n - 23) = 2 * 2 ^ k := by
      rw [hk, show 24 + k - 23 = k + 1 by omega, pow_succ, mul_comm]
    rw [hstep]
    generalize 2 ^ k = half at hself
    have hdiv := Nat.div_add_mod n (2 * half)
    rw [mul_comm] at hdiv
    split
    · omega
    · rw [add_mul]
      omega

theorem backpedalBytes_le (n : Nat) : backpedalBytes n ≤ n := by
  have hfirst := roundToFloat_le n
  have hlast := roundToFloat_le (roundToFloat n * 15099494)
  rw [backpedalBytes]
  omega

/-- Asking for less: a multiple of the unit stays an upper bound. -/
theorem roundedBytes_backpedalBytes_le {bytes : Nat}
    (hdvd : kMinAllocationSize ∣ bytes) :
    roundedBytes (backpedalBytes bytes) ≤ bytes := by
  have hle := backpedalBytes_le bytes
  obtain ⟨units, rfl⟩ := hdvd
  rw [roundedBytes, sizeMul]
  refine (Nat.mod_le _ _).trans (Nat.mul_le_mul_left _ ?_)
  refine (Nat.div_le_div_right (Nat.mod_le _ _)).trans ?_
  rw [kMinAllocationSize] at hle ⊢
  omega

theorem roundedBytes_eq (hn : n + 255 < sizeBound) :
    roundedBytes n = kMinAllocationSize * ((n + 255) / kMinAllocationSize) := by
  rw [roundedBytes, sizeAdd_eq (by exact hn)]
  refine sizeMul_eq ?_
  rw [kMinAllocationSize]
  omega

/-- The rounded size is the next multiple of the unit. -/
theorem le_roundedBytes (hn : n + 255 < sizeBound) :
    n ≤ roundedBytes n := by
  rw [roundedBytes_eq hn, kMinAllocationSize]
  omega

end Rounding

namespace BFCArena

/-- What decides how much is asked of the device, and what was asked. -/
def ledger (s : BFCArena) : Nat × Nat × List Nat × List (Nat × Nat) × Int ×
    List DeviceRequest :=
  (s.memoryLimit, s.currRegionAllocationBytes, s.regions.map (·.memorySize),
    s.reservedChunks, s.stats.totalAllocatedBytes, s.requests)

/-- The bytes in regions and in reserved blocks. -/
def held (s : BFCArena) : Nat :=
  (s.regions.map (·.memorySize)).sum + (s.reservedChunks.map Prod.snd).sum

end BFCArena

theorem RegionManager.sizes_setHandle {p : Nat} {h : Option ChunkHandle}
    {regions regions' : RegionManager}
    (hset : regions.setHandle p h = .ok regions') :
    regions'.map (·.memorySize) = regions.map (·.memorySize) := by
  induction regions generalizing regions' with
  | nil => cases hset
  | cons region rest ih =>
    rw [setHandle] at hset
    split at hset
    · obtain ⟨changed, hchanged, hreturn⟩ := except_bind_eq_ok.mp hset
      obtain ⟨index, -, hchanged⟩ := except_bind_eq_ok.mp hchanged
      cases hchanged
      cases hreturn
      rfl
    · obtain ⟨changed, hchanged, hreturn⟩ := except_bind_eq_ok.mp hset
      cases hreturn
      rw [map_cons, ih hchanged, map_cons]

namespace ArenaM

open BFCArena

section Ledger

/-- Chunks and bins are changed without the ledger. -/
theorem keeps_enforce {condition : Prop} [Decidable condition] {text : String} :
    Keeps ledger (enforce condition text) := by
  rw [enforce]
  split
  · exact Keeps.pure _
  · exact Keeps.throw _

theorem keeps_setHandle (p : Nat) (h : Option ChunkHandle) :
    Keeps ledger (setHandle p h) := by
  intro s
  rw [setHandle, bind_eq_of_ok (get_apply s)]
  cases hset : s.regions.setHandle p h with
  | error stop => rfl
  | ok regions =>
    simp only [modify_apply, endState, ledger, sizes_setHandle hset]

section

variable (h : ChunkHandle)
include h

theorem keeps_chunkFromHandle :
    Keeps ledger (chunkFromHandle h) :=
  Keeps.get.bind fun _ => keeps_enforce.bind fun _ => Keeps.pure _

theorem keeps_modifyChunk (f : Chunk → Chunk) :
    Keeps ledger (modifyChunk h f) :=
  Keeps.modify fun _ => rfl

omit h in
theorem keeps_allocateChunk : Keeps ledger allocateChunk := by
  refine Keeps.get.bind fun s => ?_
  split
  · exact (keeps_chunkFromHandle _).bind fun _ =>
      keeps_modify_bind (fun _ => rfl) fun _ => Keeps.pure _
  · exact keeps_modify_bind (fun _ => rfl) fun _ => Keeps.pure _

theorem keeps_insertFreeChunkIntoBin :
    Keeps ledger (insertFreeChunkIntoBin h) :=
  (keeps_chunkFromHandle h).bind fun _ => keeps_enforce.bind fun _ =>
    (keeps_modifyChunk _ _).bind fun _ => Keeps.modify fun _ => rfl

theorem keeps_removeFreeChunkFromBin :
    Keeps ledger (removeFreeChunkFromBin h) :=
  (keeps_chunkFromHandle h).bind fun _ => keeps_enforce.bind fun _ =>
    Keeps.get.bind fun _ => keeps_enforce.bind fun _ =>
      keeps_modify_bind (fun _ => rfl) fun _ => keeps_modifyChunk _ _

omit h in
theorem keeps_setPrev (neighbor : Option ChunkHandle) (h : ChunkHandle) :
    Keeps ledger (setPrev neighbor h) := by
  cases neighbor with
  | none => exact Keeps.pure _
  | some other =>
    exact (keeps_chunkFromHandle _).bind fun _ => keeps_modifyChunk _ _

theorem keeps_splitChunk (numBytes : Nat) :
    Keeps ledger (splitChunk h numBytes) :=
  keeps_allocateChunk.bind fun _ => (keeps_chunkFromHandle _).bind fun _ =>
    keeps_enforce.bind fun _ => (keeps_chunkFromHandle _).bind fun _ =>
      (keeps_modifyChunk _ _).bind fun _ => (keeps_setHandle _ _).bind fun _ =>
        (keeps_modifyChunk _ _).bind fun _ => (keeps_modifyChunk _ _).bind
          fun _ => (keeps_setPrev _ _).bind fun _ =>
            keeps_insertFreeChunkIntoBin _

theorem keeps_deallocateChunk :
    Keeps ledger (deallocateChunk h) :=
  Keeps.get.bind fun _ => (keeps_chunkFromHandle _).bind fun _ =>
    (keeps_modifyChunk _ _).bind fun _ => Keeps.modify fun _ => rfl

omit h in
theorem keeps_merge (h1 h2 : ChunkHandle) : Keeps ledger (merge h1 h2) :=
  (keeps_chunkFromHandle _).bind fun _ => (keeps_chunkFromHandle _).bind fun _ =>
    keeps_enforce.bind fun _ => (keeps_modifyChunk _ _).bind fun _ =>
      keeps_enforce.bind fun _ => (keeps_setPrev _ _).bind fun _ =>
        (keeps_modifyChunk _ _).bind fun _ => (keeps_chunkFromHandle _).bind
          fun _ => (keeps_setHandle _ _).bind fun _ => keeps_deallocateChunk _

theorem keeps_coalesceNext : Keeps ledger (coalesceNext h) := by
  refine (keeps_chunkFromHandle h).bind fun c => ?_
  split
  · exact Keeps.pure _
  · refine (keeps_chunkFromHandle _).bind fun c => ?_
    split
    · exact Keeps.pure _
    · exact (keeps_removeFreeChunkFromBin _).bind fun _ => keeps_merge _ _

theorem keeps_coalescePrev : Keeps ledger (coalescePrev h) := by
  refine (keeps_chunkFromHandle h).bind fun c => ?_
  split
  · exact Keeps.pure _
  · refine (keeps_chunkFromHandle _).bind fun c => ?_
    split
    · exact Keeps.pure _
    · exact (keeps_removeFreeChunkFromBin _).bind fun _ =>
        (keeps_merge _ _).bind fun _ => Keeps.pure _

end

theorem keeps_removeFreeChunkIterFromBin (binNum : Nat) (h : ChunkHandle) :
    Keeps ledger (removeFreeChunkIterFromBin binNum h) :=
  (keeps_chunkFromHandle h).bind fun _ => keeps_enforce.bind fun _ =>
    keeps_modify_bind (fun _ => rfl) fun _ => keeps_modifyChunk _ _

theorem keeps_searchBin (rounded : Nat) (handles : List ChunkHandle) :
    Keeps ledger (searchBin rounded handles) := by
  induction handles with
  | nil => exact Keeps.pure _
  | cons h rest ih =>
    refine (keeps_chunkFromHandle h).bind fun c =>
      keeps_enforce.bind fun _ => ?_
    split
    · exact Keeps.pure _
    · exact ih

theorem keeps_searchBins (rounded : Nat) (binNums : List Nat) :
    Keeps ledger (searchBins rounded binNums) := by
  induction binNums with
  | nil => exact Keeps.pure _
  | cons binNum rest ih =>
    refine Keeps.get.bind fun s => (keeps_searchBin _ _).bind fun found => ?_
    cases found with
    | none => exact ih
    | some h => exact Keeps.pure _

theorem keeps_takeChunk (binNum : Nat) (h : ChunkHandle)
    (rounded numBytes : Nat) :
    Keeps ledger (takeChunk binNum h rounded numBytes) := by
  refine (keeps_removeFreeChunkIterFromBin _ _).bind fun _ =>
    (keeps_chunkFromHandle h).bind fun c => ?_
  have hrest : Keeps ledger (do
      let s ← get
      let c ← chunkFromHandle h
      modifyChunk h fun c => { c with
        requestedSize := numBytes
        allocationId := s.nextAllocationId }
      modify fun s => { s with
        nextAllocationId := s.nextAllocationId + 1
        stats := s.stats.allocated c.size }
      return c.ptr : ArenaM Nat) :=
    Keeps.get.bind fun _ => (keeps_chunkFromHandle _).bind fun _ =>
      (keeps_modifyChunk _ _).bind fun _ =>
        keeps_modify_bind (fun _ => rfl) fun _ => Keeps.pure _
  split
  · exact (keeps_splitChunk _ _).bind fun _ => hrest
  · exact hrest

theorem keeps_findChunkPtr (binNum rounded numBytes : Nat) :
    Keeps ledger (findChunkPtr binNum rounded numBytes) := by
  refine (keeps_searchBins _ _).bind fun found => ?_
  cases found with
  | none => exact Keeps.pure _
  | some entry => exact keeps_takeChunk _ _ _ _

theorem keeps_deallocateRawInternal (ptr : Nat) :
    Keeps ledger (deallocateRawInternal ptr) := by
  refine Keeps.get.bind fun s => ?_
  split
  · exact Keeps.throw _
  · exact Keeps.throw _
  · exact (keeps_chunkFromHandle _).bind fun _ => keeps_enforce.bind fun _ =>
      (keeps_modifyChunk _ _).bind fun _ => keeps_modify_bind (fun _ => rfl)
        fun _ => (keeps_coalesceNext _).bind fun _ =>
          (keeps_coalescePrev _).bind fun _ => keeps_insertFreeChunkIntoBin _

end Ledger

section Requests

/-- The device is asked for at most `bound`. -/
def AsksAtMost (bound : Nat) (s s' : BFCArena) : Prop :=
  ∀ request ∈ s'.requests, request ∈ s.requests ∨ request.bytes ≤ bound

/-- What asking the device leaves alone. -/
def books (s : BFCArena) : Nat × Nat × List Nat × List (Nat × Nat) × Int :=
  (s.memoryLimit, s.currRegionAllocationBytes, s.regions.map (·.memorySize),
    s.reservedChunks, s.stats.totalAllocatedBytes)

variable {s : BFCArena} {bytes bound rounded : Nat}

theorem deviceAlloc_of_nil (h : s.answers = []) (bytes : Nat) :
    deviceAlloc bytes s = .error .awaitingDevice
      { s with requests := ⟨bytes, 0⟩ :: s.requests } := by
  cases s
  cases h
  rfl

theorem deviceAlloc_of_cons {answer : Nat}
    (h : s.answers = answer :: rest) (bytes : Nat) :
    deviceAlloc bytes s = .ok answer { s with
      answers := rest
      requests := ⟨bytes, answer⟩ :: s.requests } := by
  cases s
  cases h
  rfl

/-- `Reserve` with the answer of the device. -/
theorem reserve_of_cons {answer : Nat}
    (hn : n ≠ 0) (hanswers : s.answers = answer :: rest) :
    reserve n s =
      if answer ∉ s.reservedChunks.map Prod.fst then .ok answer { s with
        answers := rest
        requests := ⟨n, answer⟩ :: s.requests
        reservedChunks := (answer, n) :: s.reservedChunks
        stats := s.stats.reserved n }
      else .error
        (.enforce "reserved_chunks_.find(ptr) == reserved_chunks_.end()")
        { s with
          answers := rest
          requests := ⟨n, answer⟩ :: s.requests } := by
  rw [reserve, if_neg hn, bind_eq_of_ok (deviceAlloc_of_cons
    hanswers n), bind_eq_of_ok (get_apply _), enforce]
  split
  · rfl
  · rfl

/-- A question to the device: what it gets, at most `bound`, is what was asked
for last, and the books stay as they are. -/
structure Asks (bound : Nat) (s : BFCArena)
    (result : EStateM.Result ArenaStop BFCArena (Nat × Nat)) : Prop where
  books : books (endState result) = books s
  asked : AsksAtMost bound s (endState result)
  granted : ∀ block s', result = .ok block s' →
    block.2 ≤ bound ∧ kMinAllocationSize ∣ block.2

/-- What a question to the device can come to: no block, or one that was asked
for and is large enough. -/
structure Answers (rounded : Nat)
    (result : EStateM.Result ArenaStop BFCArena (Nat × Nat)) : Prop where
  granted : ∀ memAddr bytes s', result = .ok (memAddr, bytes) s' →
    memAddr ≠ 0 → ⟨bytes, memAddr⟩ ∈ s'.requests ∧ rounded ≤ bytes ∧
      kMinAllocationSize ∣ bytes
  stopped : ∀ stop s', result = .error stop s' → stop = .awaitingDevice

/-- All that a question to the device comes to: only the answers, the requests
and the flag change. -/
structure Asked (rounded bound : Nat) (s : BFCArena)
    (result : EStateM.Result ArenaStop BFCArena (Nat × Nat)) : Prop where
  asks : Asks bound s result
  answers : Answers rounded result
  kept : ∃ answers requests started, endState result = { s with
    answers := answers
    requests := requests
    startedBackpedal := started }

namespace Asked

theorem awaiting : Asked rounded bound s (.error .awaitingDevice s) where
  asks := ⟨rfl, fun _ => .inl, by rintro _ _ ⟨⟩⟩
  answers := ⟨by rintro _ _ _ ⟨⟩, by rintro _ _ ⟨⟩; rfl⟩
  kept := ⟨_, _, _, rfl⟩

theorem granted (hle : bytes ≤ bound)
    (hdvd : kMinAllocationSize ∣ bytes)
    (h : memAddr ≠ 0 → ⟨bytes, memAddr⟩ ∈ s.requests ∧ rounded ≤ bytes) :
    Asked rounded bound s (.ok (memAddr, bytes) s) where
  asks := ⟨rfl, fun _ => .inl, by rintro _ _ ⟨⟩; exact ⟨hle, hdvd⟩⟩
  answers := by
    refine ⟨?_, by rintro _ _ ⟨⟩⟩
    rintro _ _ _ ⟨⟩ hne
    exact ⟨(h hne).1, (h hne).2, hdvd⟩
  kept := ⟨_, _, _, rfl⟩

variable {result : EStateM.Result ArenaStop BFCArena (Nat × Nat)}

theorem of_start {answers : List Nat} {requests : List DeviceRequest}
    {started : Bool}
    (h : Asked rounded bound { s with
      answers := answers
      requests := requests
      startedBackpedal := started } result)
    (hasked : ∀ request ∈ requests,
      request ∈ s.requests ∨ request.bytes ≤ bound) :
    Asked rounded bound s result where
  asks := ⟨h.asks.books, fun request hrequest =>
    (h.asks.asked request hrequest).elim (hasked request) .inr,
    h.asks.granted⟩
  answers := h.answers
  kept := h.kept

end Asked

theorem asked_deviceAlloc_bind {f : Nat → ArenaM (Nat × Nat)}
    (hle : bytes ≤ bound) (s : BFCArena)
    (hf : ∀ memAddr s', ⟨bytes, memAddr⟩ ∈ s'.requests →
      Asked rounded bound s' (f memAddr s')) :
    Asked rounded bound s ((deviceAlloc bytes >>= f) s) := by
  have hasked : ∀ answer, ∀ request ∈ ⟨bytes, answer⟩ :: s.requests,
      request ∈ s.requests ∨ request.bytes ≤ bound := by
    rintro answer request (_ | ⟨_, hold⟩)
    · exact .inr hle
    · exact .inl hold
  cases hanswers : s.answers with
  | nil =>
    rw [bind_eq_of_error (deviceAlloc_of_nil hanswers bytes)]
    exact Asked.awaiting.of_start (hasked 0)
  | cons answer rest =>
    rw [bind_eq_of_ok (deviceAlloc_of_cons hanswers bytes)]
    exact (hf _ _ mem_cons_self).of_start (hasked answer)

theorem asked_backpedal (rounded fuel : Nat)
    (hdvd : kMinAllocationSize ∣ bytes) (hle : bytes ≤ bound) (s : BFCArena) :
    Asked rounded bound s (backpedal backpedalBytes rounded fuel bytes s) := by
  induction fuel generalizing bytes s with
  | zero => exact .awaiting
  | succ fuel ih =>
    have hnext := (roundedBytes_backpedalBytes_le hdvd).trans hle
    have hdvd' := kMinAllocationSize_dvd_roundedBytes (backpedalBytes bytes)
    rw [backpedal]
    generalize roundedBytes (backpedalBytes bytes) = less at hnext hdvd'
    split
    · exact .granted hnext hdvd' (absurd rfl)
    · rename_i hless
      refine asked_deviceAlloc_bind hnext s fun memAddr s' hrequest => ?_
      split
      · exact ih hdvd' hnext s'
      · exact .granted hnext hdvd' fun _ =>
          ⟨hrequest, Nat.le_of_not_lt hless⟩

theorem asked_askDevice (hdvd : kMinAllocationSize ∣ bytes)
    (hle : bytes ≤ bound) (hfits : rounded ≤ bytes) (s : BFCArena) :
    Asked rounded bound s (askDevice backpedalBytes rounded bytes s) := by
  refine asked_deviceAlloc_bind hle s fun memAddr s' hrequest => ?_
  rw [bind_eq_of_ok (get_apply s')]
  split
  · rw [bind_eq_of_ok (modify_apply _ s')]
    exact (asked_backpedal rounded _ hdvd hle _).of_start fun _ => .inl
  · exact .granted hle hdvd fun _ => ⟨hrequest, hfits⟩

end Requests

end ArenaM

theorem RegionManager.sum_addAllocationRegion (new : AllocationRegion)
    (regions : RegionManager) :
    ((regions.addAllocationRegion new).map (·.memorySize)).sum =
      (regions.map (·.memorySize)).sum + new.memorySize := by
  induction regions with
  | nil => simp [addAllocationRegion]
  | cons region rest ih =>
    rw [addAllocationRegion]
    split
    · simp only [map_cons, sum_cons]
      omega
    · simp only [map_cons, sum_cons]
      omega

namespace BFCArena

/-- The counter is the number of bytes held, as an `int64_t`. -/
structure Balanced (s : BFCArena) : Prop where
  total : s.stats.totalAllocatedBytes = toInt64 s.held
  unit : kMinAllocationSize ∣ s.currRegionAllocationBytes
  nodup : (s.reservedChunks.map Prod.fst).Nodup

variable {s s' : BFCArena}

theorem held_congr (hledger : s'.ledger = s.ledger) : s'.held = s.held := by
  simp only [ledger, Prod.mk.injEq] at hledger
  rw [held, held, hledger.2.2.1, hledger.2.2.2.1]

theorem balanced_init (limit : Nat) : (init limit).Balanced where
  total := by simp [init, held, toInt64]
  unit := kMinAllocationSize_dvd_roundedBytes _
  nodup := nodup_nil

theorem toInt64_add (a b : Int) : toInt64 (toInt64 a + b) = toInt64 (a + b) := by
  rw [toInt64, toInt64, toInt64, Int.bmod_add_bmod]

theorem toInt64_sub (a b : Int) : toInt64 (toInt64 a - b) = toInt64 (a - b) := by
  rw [Int.sub_eq_add_neg, toInt64_add, Int.sub_eq_add_neg]

theorem dvd_availableBytes (s : BFCArena) :
    kMinAllocationSize ∣ s.availableBytes :=
  dvd_mul_left _ _

/-- A call that may take more from the device, at most what is available. -/
structure Grows (s s' : BFCArena) : Prop where
  balanced : s'.Balanced
  limit : s'.memoryLimit = s.memoryLimit
  asked : ArenaM.AsksAtMost s.availableBytes s s'
  held : s'.held ≤ s.held + s.availableBytes

theorem Grows.of_start {s₁ : BFCArena} (h : Grows s₁ s')
    (hledger : s₁.ledger = s.ledger) : Grows s s' := by
  have hheld := held_congr hledger
  simp only [ledger, Prod.mk.injEq] at hledger
  obtain ⟨hlimit, -, -, -, htotal, hrequests⟩ := hledger
  have havailable : s₁.availableBytes = s.availableBytes := by
    rw [availableBytes, availableBytes, hlimit, htotal]
  refine ⟨h.balanced, h.limit.trans hlimit, ?_, ?_⟩
  · have hasked := h.asked
    rw [AsksAtMost, hrequests, havailable] at hasked
    exact hasked
  · rw [← hheld, ← havailable]
    exact h.held

section

variable (h : s.Balanced)
include h

theorem Balanced.congr (hledger : s'.ledger = s.ledger) :
    s'.Balanced := by
  simp only [ledger, Prod.mk.injEq] at hledger
  obtain ⟨-, hcurr, hsizes, hreserved, htotal, -⟩ := hledger
  refine ⟨?_, hcurr ▸ h.unit, hreserved ▸ h.nodup⟩
  rw [htotal, h.total, held, held, hsizes, hreserved]

/-- What is available fits under the limit when what is held does. -/
theorem Balanced.availableBytes_le (hlimit : s.memoryLimit < sizeBound)
    (hheld : s.held ≤ s.memoryLimit) :
    s.held + s.availableBytes ≤ s.memoryLimit := by
  have hwrap : ((s.memoryLimit : Int) - toInt64 s.held) % sizeBound =
      ((s.memoryLimit - s.held : Nat) : Int) := by
    rw [Int.sub_emod, toInt64, sizeBound]
    have hmod : (s.held : Int).bmod (2 ^ 64) % ((2 ^ 64 : Nat) : Int) =
        (s.held : Int) % ((2 ^ 64 : Nat) : Int) := Int.bmod_emod
    rw [hmod, ← Int.sub_emod, ← Int.ofNat_sub hheld]
    rw [sizeBound] at hlimit
    exact Int.emod_eq_of_lt (Int.natCast_nonneg _) (by omega)
  rw [availableBytes, h.total, hwrap, Int.toNat_natCast]
  have hdiv := Nat.div_mul_le_self (s.memoryLimit - s.held) kMinAllocationSize
  omega

theorem Balanced.asking (answers : List Nat) :
    Balanced { s with answers := answers, requests := [] } :=
  ⟨h.total, h.unit, h.nodup⟩

omit h in
theorem Grows.trans_ledger (h : Grows s s')
    (hledger : s''.ledger = s'.ledger) : Grows s s'' where
  balanced := h.balanced.congr hledger
  limit := (congrArg Prod.fst hledger).trans h.limit
  asked request hrequest := by
    simp only [ledger, Prod.mk.injEq] at hledger
    exact h.asked request (hledger.2.2.2.2.2 ▸ hrequest)
  held := by
    rw [held_congr hledger]
    exact h.held

theorem Grows.of_ledger (hledger : s'.ledger = s.ledger) : Grows s s' :=
  Grows.trans_ledger ⟨h, rfl, fun _ => .inl, Nat.le_add_right _ _⟩ hledger

theorem Grows.of_asked {rounded curr : Nat}
    {result : EStateM.Result ArenaStop BFCArena (Nat × Nat)}
    (hcurr : kMinAllocationSize ∣ curr)
    (hasked : Asked rounded s.availableBytes
      { s with currRegionAllocationBytes := curr } result) :
    Grows s (endState result) ∧ (endState result).held = s.held := by
  obtain ⟨hasks, -, answers, requests, started, hkept⟩ := hasked
  have hbound := hasks.asked
  rw [hkept] at hbound ⊢
  exact ⟨⟨⟨h.total, hcurr, h.nodup⟩, rfl, hbound, Nat.le_add_right _ _⟩, rfl⟩

end

/-- A block of the device becomes a region. -/
theorem Grows.addRegion (h : Grows s s')
    (hsame : s'.held = s.held) {curr : Nat}
    (hcurr : kMinAllocationSize ∣ curr) {bytes : Nat}
    (hbytes : bytes ≤ s.availableBytes)
    (hledger : s''.ledger = { s' with
      currRegionAllocationBytes := curr
      stats := s'.stats.extended bytes
      regions := s'.regions.addAllocationRegion
        ⟨memAddr, bytes, fun _ => none⟩ }.ledger) : Grows s s'' := by
  simp only [ledger, Prod.mk.injEq] at hledger
  obtain ⟨hlimit, hunit, hsizes, hreserved, htotal, hrequests⟩ := hledger
  have hheld : s''.held = s'.held + bytes := by
    rw [BFCArena.held, hsizes, hreserved, sum_addAllocationRegion]
    exact add_right_comm _ _ _
  refine ⟨⟨?_, hunit ▸ hcurr, hreserved ▸ h.balanced.nodup⟩,
    hlimit.trans h.limit, ?_, ?_⟩
  · rw [htotal, AllocatorStats.extended, h.balanced.total, toInt64_add, hheld,
      Nat.cast_add]
  · rw [AsksAtMost, hrequests]
    exact h.asked
  · rw [hheld, hsame]
    exact Nat.add_le_add_left hbytes _

end BFCArena

namespace ArenaM

open BFCArena

theorem endState_bind_pure {α β : Type} (x : ArenaM α) (b : β) (s : BFCArena) :
    endState ((x >>= fun _ => pure b) s) = endState (x s) := by
  cases hrun : x s with
  | ok a s' => rw [bind_eq_of_ok hrun]; rfl
  | error e s' => rw [bind_eq_of_error hrun]; rfl

section Growing

variable {s : BFCArena} {rounded fuel bytes curr : Nat}

theorem dvd_growRegion (hdvd : kMinAllocationSize ∣ bytes)
    (h : growRegion rounded fuel bytes = some curr) :
    kMinAllocationSize ∣ curr ∧ rounded ≤ curr := by
  induction fuel generalizing bytes with
  | zero => cases h
  | succ fuel ih =>
    rw [growRegion] at h
    split at h
    · exact ih (dvd_sizeMul hdvd 2) h
    · rename_i hfits
      cases h
      exact ⟨hdvd, Nat.le_of_not_lt hfits⟩

variable (hunit : kMinAllocationSize ∣ s.currRegionAllocationBytes)
  (hroom : rounded ≤ s.availableBytes)
  (hgrow : growRegion rounded fuel s.currRegionAllocationBytes = some curr)
include hunit hroom hgrow

theorem min_growRegion : kMinAllocationSize ∣ min curr s.availableBytes ∧
    rounded ≤ min curr s.availableBytes := by
  obtain ⟨hdvd, hle⟩ := dvd_growRegion hunit hgrow
  refine ⟨?_, le_min hle hroom⟩
  rw [min_def]
  split
  · exact hdvd
  · exact dvd_availableBytes s

theorem asked_extend : Asked rounded s.availableBytes
    { s with currRegionAllocationBytes := curr }
    (askDevice backpedalBytes rounded (min curr s.availableBytes)
      { s with currRegionAllocationBytes := curr }) := by
  obtain ⟨hdvd, hfits⟩ := min_growRegion hunit hroom hgrow
  exact asked_askDevice hdvd (min_le_right _ _) hfits _

end Growing

/-- The new region is entered in the books. -/
theorem ledger_addRegion {bytes : Nat}
    (hdvd : kMinAllocationSize ∣ bytes) (s : BFCArena) :
    (endState (addRegion memAddr bytes s)).ledger =
      { s with
        stats := s.stats.extended bytes
        regions := s.regions.addAllocationRegion
          ⟨memAddr, bytes, fun _ => none⟩ }.ledger := by
  have hrest : Keeps ledger (do
      let h ← allocateChunk
      let _ ← chunkFromHandle h
      modifyChunk h fun c => { c with
        ptr := memAddr
        size := bytes
        allocationId := -1
        prev := none
        next := none }
      setHandle memAddr (some h)
      insertFreeChunkIntoBin h : ArenaM Unit) :=
    keeps_allocateChunk.bind fun _ => (keeps_chunkFromHandle _).bind fun _ =>
      (keeps_modifyChunk _ _).bind fun _ => (keeps_setHandle _ _).bind fun _ =>
        keeps_insertFreeChunkIntoBin _
  have henforce : enforce (bytes % kMinAllocationSize = 0)
      "0 == memory_size % kMinAllocationSize" = pure () :=
    if_pos (Nat.mod_eq_zero_of_dvd hdvd)
  rw [addRegion, bind_eq_of_ok (modify_apply _ s), henforce,
    bind_eq_of_ok (pure_apply _ _)]
  exact hrest _

theorem sum_filter_of_lookup {entries : List (Nat × Nat)}
    (hnodup : (entries.map Prod.fst).Nodup) {p size : Nat}
    (hlookup : entries.lookup p = some size) :
    ((entries.filter (·.1 ≠ p)).map Prod.snd).sum + size =
      (entries.map Prod.snd).sum := by
  induction entries with
  | nil => cases hlookup
  | cons entry rest ih =>
    obtain ⟨other, bytes⟩ := entry
    rw [map_cons, nodup_cons] at hnodup
    rw [lookup_cons] at hlookup
    split at hlookup
    · rename_i heq
      rw [beq_iff_eq] at heq
      subst heq
      cases hlookup
      have hrest : rest.filter (·.1 ≠ p) = rest := by
        refine filter_eq_self.mpr fun entry hentry => ?_
        refine decide_eq_true fun heq => hnodup.1 ?_
        exact mem_map.mpr ⟨entry, hentry, heq⟩
      rw [filter_cons_of_neg (by simp), hrest, map_cons, sum_cons, add_comm]
    · rename_i hne
      rw [beq_eq_false_iff_ne] at hne
      rw [filter_cons_of_pos (by simp [hne.symm]), map_cons,
        sum_cons, map_cons, sum_cons, add_assoc,
        ih hnodup.2 hlookup]

section Calls

variable {s : BFCArena} (h : s.Balanced)
include h

theorem grows_extend (rounded : Nat) :
    Grows s (endState (extend rounded s)) := by
  rw [extend, extendWith, bind_eq_of_ok (get_apply s)]
  split
  · exact Grows.of_ledger h rfl
  · rename_i hroom
    cases hgrow : growRegion rounded 65 s.currRegionAllocationBytes with
    | none => exact Grows.of_ledger h rfl
    | some curr =>
      have hcurr := (dvd_growRegion h.unit hgrow).1
      have hasked := asked_extend h.unit (Nat.le_of_not_lt hroom) hgrow
      obtain ⟨hgrows, hsame⟩ := Grows.of_asked h hcurr hasked
      dsimp only
      rw [bind_eq_of_ok (modify_apply _ s)]
      cases hrun : askDevice backpedalBytes rounded (min curr s.availableBytes)
          { s with currRegionAllocationBytes := curr } with
      | error stop s' =>
        rw [hrun] at hgrows
        rw [bind_eq_of_error hrun]
        exact hgrows
      | ok block s' =>
        obtain ⟨hbytes, hdvd⟩ := hasked.asks.granted block s' hrun
        rw [hrun] at hgrows hsame
        rw [bind_eq_of_ok hrun]
        split
        · exact hgrows
        · split
          · rw [bind_eq_of_ok (modify_apply _ s'), endState_bind_pure]
            exact hgrows.addRegion hsame (dvd_sizeMul hcurr 2) hbytes
              (ledger_addRegion hdvd _)
          · rw [endState_bind_pure]
            exact hgrows.addRegion hsame hgrows.balanced.unit hbytes
              (ledger_addRegion hdvd _)

theorem grows_alloc (numBytes : Nat) :
    Grows s (endState (alloc numBytes s)) := by
  rw [alloc]
  split
  · exact Grows.of_ledger h rfl
  · generalize roundedBytes numBytes = rounded
    have hfind := keeps_findChunkPtr (binNumForSize rounded) rounded numBytes
    have hfirst := hfind s
    cases hrun : findChunkPtr (binNumForSize rounded) rounded numBytes s with
    | error stop s' =>
      rw [hrun] at hfirst
      rw [bind_eq_of_error hrun]
      exact Grows.of_ledger h hfirst
    | ok ptr s' =>
      rw [hrun, endState] at hfirst
      rw [bind_eq_of_ok hrun]
      split
      · exact Grows.of_ledger h hfirst
      · have hextend := (grows_extend (h.congr hfirst) rounded).of_start hfirst
        cases hrun' : extend rounded s' with
        | error stop s'' =>
          rw [hrun'] at hextend
          rw [bind_eq_of_error hrun']
          exact hextend
        | ok extended s'' =>
          rw [hrun'] at hextend
          rw [bind_eq_of_ok hrun']
          split
          · exact hextend.trans_ledger (hfind s'')
          · exact hextend

/-- A reserved block is counted, whatever the device answers. -/
theorem balanced_reserve (size : Nat) : (endState (reserve size s)).Balanced ∧
      (endState (reserve size s)).memoryLimit = s.memoryLimit ∧
      (endState (reserve size s)).held ≤ s.held + size := by
  by_cases hsize : size = 0
  · rw [reserve, if_pos hsize]
    exact ⟨h, rfl, Nat.le_add_right _ _⟩
  · have hasked : ∀ (answers : List Nat) (requests : List DeviceRequest),
        Balanced { s with answers := answers, requests := requests } :=
      fun _ _ => ⟨h.total, h.unit, h.nodup⟩
    cases hanswers : s.answers with
    | nil =>
      rw [reserve, if_neg hsize,
        bind_eq_of_error (deviceAlloc_of_nil hanswers size)]
      exact ⟨hasked _ _, rfl, Nat.le_add_right _ _⟩
    | cons ptr rest =>
      rw [reserve_of_cons hsize hanswers]
      split
      · rename_i hnew
        have hcons : BFCArena.held { s with
            reservedChunks := (ptr, size) :: s.reservedChunks } =
              s.held + size := by
          simp only [held, map_cons, sum_cons]
          omega
        refine ⟨⟨?_, h.unit, nodup_cons.mpr ⟨hnew, h.nodup⟩⟩, rfl, hcons.le⟩
        refine .trans ?_ (congrArg (fun n : Nat => toInt64 n) hcons.symm)
        rw [endState, AllocatorStats.reserved, h.total, toInt64_add,
          Nat.cast_add]
      · exact ⟨hasked _ _, rfl, Nat.le_add_right _ _⟩

theorem balanced_free (p : Nat) : (endState (free p s)).Balanced ∧
      (endState (free p s)).memoryLimit = s.memoryLimit ∧
      (endState (free p s)).held ≤ s.held := by
  rw [free]
  split
  · exact ⟨h, rfl, le_refl _⟩
  · rw [bind_eq_of_ok (get_apply s)]
    cases hlookup : s.reservedChunks.lookup p with
    | none =>
      have hledger := keeps_deallocateRawInternal p s
      exact ⟨h.congr hledger, congrArg Prod.fst hledger,
        (held_congr hledger).le⟩
    | some size =>
      have hsum := sum_filter_of_lookup h.nodup hlookup
      have hfilter : BFCArena.held { s with
          reservedChunks := s.reservedChunks.filter (·.1 ≠ p)
          stats := s.stats.released size } + size = s.held := by
        rw [held, held, ← hsum, add_assoc]
      refine ⟨⟨?_, h.unit, ?_⟩, rfl, ?_⟩
      · calc toInt64 (s.stats.totalAllocatedBytes - size)
          _ = toInt64 (s.held - size) := by rw [h.total, toInt64_sub]
          _ = _ := by rw [← hfilter, Nat.cast_add, Int.add_sub_cancel]; rfl
      · exact h.nodup.sublist (filter_sublist.map _)
      · exact hfilter ▸ Nat.le_add_right _ _

end Calls

end ArenaM

namespace BFCArena

/-- A reservation that fits under the limit, together with all that is held. -/
def Fits (s : BFCArena) : ArenaCall → Prop
  | .reserve size => s.held + size ≤ s.memoryLimit
  | _ => True

/-- The state in which a call ends if the client can go on from there: it
returned, or an `ORT_ENFORCE` threw. -/
def continues : EStateM.Result ArenaStop BFCArena Nat → Option BFCArena
  | .ok _ s => some s
  | .error (.enforce _) s => some s
  | .error _ _ => none

/-- The states that calls lead to from a new arena when every reservation
fits. -/
inductive ReachesWithin (limit : Nat) : BFCArena → Prop
  | init : ReachesWithin limit (init limit)
  | call {s s' : BFCArena} (hreach : ReachesWithin limit s) (c : ArenaCall)
      (answers : List Nat) (hfits : s.Fits c)
      (hend : continues (s.perform c answers) = some s') :
      ReachesWithin limit s'

theorem endState_of_continues {result : EStateM.Result ArenaStop BFCArena Nat}
    {s : BFCArena} (h : continues result = some s) : endState result = s := by
  cases result with
  | ok ptr s' => exact Option.some.inj h
  | error stop s' =>
    cases stop with
    | enforce text => exact Option.some.inj h
    | _ => cases h

/-- One call: the books stay balanced and what is held fits. -/
theorem Balanced.perform {s : BFCArena} (h : s.Balanced)
    (hlimit : s.memoryLimit < sizeBound) (hheld : s.held ≤ s.memoryLimit)
    (c : ArenaCall) (answers : List Nat) (hfits : s.Fits c) :
    (endState (s.perform c answers)).Balanced ∧
      (endState (s.perform c answers)).memoryLimit = s.memoryLimit ∧
      (endState (s.perform c answers)).held ≤ s.memoryLimit := by
  have hstart := h.asking answers
  cases c with
  | alloc size =>
    have hgrows := grows_alloc hstart size
    exact ⟨hgrows.balanced, hgrows.limit,
      hgrows.held.trans (h.availableBytes_le hlimit hheld)⟩
  | reserve size =>
    obtain ⟨hbalanced, hsame, hle⟩ := balanced_reserve hstart size
    exact ⟨hbalanced, hsame, hle.trans hfits⟩
  | free p =>
    rw [BFCArena.perform, ArenaCall.run, endState_bind_pure]
    obtain ⟨hbalanced, hsame, hle⟩ := balanced_free hstart p
    exact ⟨hbalanced, hsame, hle.trans hheld⟩

theorem ReachesWithin.balanced {limit : Nat} (hlimit : limit < sizeBound)
    {s : BFCArena} (h : ReachesWithin limit s) :
    s.Balanced ∧ s.memoryLimit = limit ∧ s.held ≤ limit := by
  induction h with
  | init => exact ⟨balanced_init limit, rfl, Nat.zero_le _⟩
  | call hreach c answers hfits hend ih =>
    obtain ⟨hbalanced, hsame, hheld⟩ := ih
    have hstep := hbalanced.perform (hsame ▸ hlimit) (hsame ▸ hheld) c answers
      hfits
    rw [endState_of_continues hend, hsame] at hstep
    exact hstep

/-- When every reservation fits, an allocation asks the device only for what
fits under the limit. -/
theorem ReachesWithin.requests_within {limit : Nat} (hlimit : limit < sizeBound)
    {s : BFCArena} (h : ReachesWithin limit s) (numBytes : Nat)
    (answers : List Nat) :
    ∀ request ∈ (endState (s.perform (.alloc numBytes) answers)).requests,
      s.held + request.bytes ≤ limit := by
  obtain ⟨hbalanced, hsame, hheld⟩ := h.balanced hlimit
  intro request hrequest
  rcases (grows_alloc (hbalanced.asking answers) numBytes).asked request
    hrequest with hold | hbytes
  · cases hold
  · have havailable := hbalanced.availableBytes_le (hsame ▸ hlimit)
      (hsame ▸ hheld)
    have hle := Nat.add_le_add_left hbytes s.held
    exact hle.trans (havailable.trans hsame.le)

/-- The arena after a reservation that the device granted. -/
def afterReserve (limit size : Nat) : BFCArena :=
  endState ((init limit).perform (.reserve size) [4096])

theorem requests_within_afterReserve :
    (endState ((afterReserve (2 ^ 20) 256).perform (.alloc 1)
      [2 ^ 30])).requests = [⟨2 ^ 20 - 256, 2 ^ 30⟩] ∧
    ∀ request ∈ (endState ((afterReserve (2 ^ 20) 256).perform (.alloc 1)
      [2 ^ 30])).requests,
      (afterReserve (2 ^ 20) 256).held + request.bytes ≤ 2 ^ 20 :=
  ⟨by decide +kernel, ReachesWithin.requests_within (by decide)
    (.call .init (.reserve 256) [4096] (show _ ≤ _ by decide +kernel) rfl) 1
    [2 ^ 30]⟩

/-- One byte more than the limit is reserved; the subtraction wraps and one
byte is enough to ask for the whole limit again. -/
theorem requests_exceed_afterReserve :
    (endState ((afterReserve (2 ^ 20) (2 ^ 20 + 1)).perform (.alloc 1)
      [2 ^ 30])).requests = [⟨2 ^ 20, 2 ^ 30⟩] ∧
    ¬ (afterReserve (2 ^ 20) (2 ^ 20 + 1)).held + 2 ^ 20 ≤ 2 ^ 20 := by
  decide +kernel

end BFCArena

end OnnxRuntime
