/-
The bins of the arena: every free chunk is in the bin of its size, in order,
except for the chunks that an operation is working on.
-/
import OnnxRuntime.BFCArena

namespace OnnxRuntime

open List Function

variable {s s' : BFCArena} {live : List ChunkHandle}
  {loose : Set ChunkHandle} {h h' : ChunkHandle}

namespace BFCArena

/-- A free chunk that no operation has taken out of its bin. -/
def Idle (s : BFCArena) (live : List ChunkHandle) (loose : Set ChunkHandle)
    (h : ChunkHandle) : Prop :=
  h ∈ live ∧ ¬ (s.chunk h).InUse ∧ h ∉ loose

/-- The idle chunks are in the bins of their sizes, and each bin is in order. -/
structure Binned (s : BFCArena) (live : List ChunkHandle)
    (loose : Set ChunkHandle) : Prop where
  mem_iff : ∀ b h, h ∈ s.bins b ↔
    s.Idle live loose h ∧ b = binNumForSize (s.chunk h).size
  sorted : ∀ b, (s.bins b).Pairwise (s.chunkBefore · ·)
  binNum_idle : ∀ h, s.Idle live loose h →
    (s.chunk h).binNum = binNumForSize (s.chunk h).size
  binNum_other : ∀ h, ¬ s.Idle live loose h →
    (s.chunk h).binNum = kInvalidBinNum

theorem chunkBefore_irrefl (s : BFCArena) (h : ChunkHandle) :
    ¬ s.chunkBefore h h := by
  simp [chunkBefore]

theorem chunkBefore_trans (s : BFCArena) (a b c : ChunkHandle)
    (hab : s.chunkBefore a b) (hbc : s.chunkBefore b c) :
    s.chunkBefore a c := by
  simp only [chunkBefore] at hab hbc ⊢
  grind

/-- The order only looks at sizes and addresses. -/
theorem chunkBefore_congr {a b : ChunkHandle}
    (ha : (s'.chunk a).size = (s.chunk a).size ∧
      (s'.chunk a).ptr = (s.chunk a).ptr)
    (hb : (s'.chunk b).size = (s.chunk b).size ∧
      (s'.chunk b).ptr = (s.chunk b).ptr) :
    s'.chunkBefore a b = s.chunkBefore a b := by
  rw [chunkBefore, chunkBefore, ha.1, ha.2, hb.1, hb.2]

/-- Chunks at different addresses are told apart. -/
theorem separates_chunkBefore {handles : List ChunkHandle}
    (hptr : ∀ other ∈ handles, (s.chunk other).ptr = (s.chunk h).ptr →
      other = h) : Separates s.chunkBefore h handles := by
  intro other hmem hbefore hafter
  refine hptr other hmem ?_
  simp only [chunkBefore] at hbefore hafter
  grind

/-- The chunks are the same but for the numbers of their bins. -/
def Rebinned (s s' : BFCArena) : Prop :=
  ∀ h, ∃ binNum, s'.chunk h = { s.chunk h with binNum := binNum }

namespace Rebinned

variable (hr : Rebinned s s') (h : ChunkHandle)
include hr

theorem size : (s'.chunk h).size = (s.chunk h).size := by
  obtain ⟨binNum, hbinNum⟩ := hr h
  rw [hbinNum]

theorem ptr : (s'.chunk h).ptr = (s.chunk h).ptr := by
  obtain ⟨binNum, hbinNum⟩ := hr h
  rw [hbinNum]

theorem inUse : (s'.chunk h).InUse ↔ (s.chunk h).InUse := by
  obtain ⟨binNum, hbinNum⟩ := hr h
  rw [hbinNum]
  rfl

theorem sorted {bin : List ChunkHandle}
    (hsorted : bin.Pairwise (s.chunkBefore · ·)) :
    bin.Pairwise (s'.chunkBefore · ·) := by
  refine hsorted.imp fun {a c} hac => ?_
  rw [chunkBefore_congr ⟨hr.size a, hr.ptr a⟩ ⟨hr.size c, hr.ptr c⟩]
  exact hac

end Rebinned

namespace Binned

/-- A change that touches neither the bins nor the idle chunks. -/
theorem frame {live' : List ChunkHandle} {loose' : Set ChunkHandle}
    (hb : s.Binned live loose) (hbins : s'.bins = s.bins)
    (hidle : ∀ h, s'.Idle live' loose' h ↔ s.Idle live loose h)
    (hkeep : ∀ h, s.Idle live loose h → (s'.chunk h).size = (s.chunk h).size ∧
      (s'.chunk h).ptr = (s.chunk h).ptr ∧
      (s'.chunk h).binNum = (s.chunk h).binNum)
    (hother : ∀ h, ¬ s.Idle live loose h →
      (s'.chunk h).binNum = kInvalidBinNum) :
    s'.Binned live' loose' where
  mem_iff := by
    intro b h
    rw [hbins, hb.mem_iff, hidle]
    exact and_congr_right fun h => by rw [(hkeep _ h).1]
  sorted := by
    intro b
    rw [hbins]
    refine (hb.sorted b).imp_of_mem fun {a c} ha hc hac => ?_
    obtain ⟨hsize, hptr, -⟩ := hkeep a ((hb.mem_iff b a).1 ha).1
    obtain ⟨hsize', hptr', -⟩ := hkeep c ((hb.mem_iff b c).1 hc).1
    rw [chunkBefore_congr ⟨hsize, hptr⟩ ⟨hsize', hptr'⟩]
    exact hac
  binNum_idle := by
    intro h hh
    have hh := (hidle h).1 hh
    rw [(hkeep h hh).2.2, (hkeep h hh).1, hb.binNum_idle h hh]
  binNum_other := fun h hh => hother h fun hidle' => hh ((hidle h).2 hidle')

theorem nodup (hb : s.Binned live loose) (b : Nat) : (s.bins b).Nodup :=
  (hb.sorted b).imp_of_mem fun {a c} _ _ hac heq => by
    rw [heq] at hac
    exact s.chunkBefore_irrefl c hac

end Binned

/-- The state after a chunk has been put into its bin. -/
def inserted (s : BFCArena) (h : ChunkHandle) : BFCArena :=
  let marked := s.modifyChunk h fun c => { c with
    binNum := binNumForSize c.size }
  marked.setBin (binNumForSize (s.chunk h).size)
    (insertBy marked.chunkBefore h (s.bins (binNumForSize (s.chunk h).size)))

/-- The state after a chunk has been taken out of its bin. -/
def removed (s : BFCArena) (h : ChunkHandle) : BFCArena :=
  (s.setBin (binNumForSize (s.chunk h).size)
    ((s.bins (binNumForSize (s.chunk h).size)).erase h)).modifyChunk h
      fun c => { c with binNum := kInvalidBinNum }

theorem chunk_inserted (s : BFCArena) (h h' : ChunkHandle) :
    (s.inserted h).chunk h' = if h' = h then
      { s.chunk h with binNum := binNumForSize (s.chunk h).size }
      else s.chunk h' := by
  by_cases heq : h' = h
  · simp [inserted, modifyChunk, setBin, heq]
  · simp [inserted, modifyChunk, setBin, heq]

theorem chunk_removed (s : BFCArena) (h h' : ChunkHandle) :
    (s.removed h).chunk h' = if h' = h then
      { s.chunk h with binNum := kInvalidBinNum } else s.chunk h' := by
  by_cases heq : h' = h
  · simp [removed, modifyChunk, setBin, heq]
  · simp [removed, modifyChunk, setBin, heq]

theorem rebinned_inserted (s : BFCArena) (h : ChunkHandle) :
    Rebinned s (s.inserted h) := by
  intro other
  rw [chunk_inserted]
  split
  · rename_i heq
    exact ⟨_, by rw [heq]⟩
  · exact ⟨_, rfl⟩

theorem rebinned_removed (s : BFCArena) (h : ChunkHandle) :
    Rebinned s (s.removed h) := by
  intro other
  rw [chunk_removed]
  split
  · rename_i heq
    exact ⟨_, by rw [heq]⟩
  · exact ⟨_, rfl⟩

theorem bins_inserted (s : BFCArena) (h : ChunkHandle) (b : Nat) :
    (s.inserted h).bins b = if b = binNumForSize (s.chunk h).size then
      insertBy (s.inserted h).chunkBefore h (s.bins b) else s.bins b := by
  rw [inserted]
  dsimp only [setBin]
  rw [update_apply]
  split
  · rename_i heq
    rw [heq]
    rfl
  · rfl

theorem bins_removed (s : BFCArena) (h : ChunkHandle) (b : Nat) :
    (s.removed h).bins b = if b = binNumForSize (s.chunk h).size then
      (s.bins b).erase h else s.bins b := by
  rw [removed]
  dsimp only [setBin, modifyChunk]
  rw [update_apply]
  split
  · rename_i heq
    rw [heq]
  · rfl

theorem idle_inserted (hmem : h ∈ live) (hfree : ¬ (s.chunk h).InUse) :
    (s.inserted h).Idle live (loose \ {h}) h' ↔
      s.Idle live loose h' ∨ h' = h := by
  rw [Idle, Idle, (s.rebinned_inserted h).inUse]
  by_cases heq : h' = h
  · simp [heq, hmem, hfree]
  · simp [heq]

theorem idle_removed : (s.removed h).Idle live (insert h loose) h' ↔
      s.Idle live loose h' ∧ h' ≠ h := by
  rw [Idle, Idle, (s.rebinned_removed h).inUse]
  simp only [Set.mem_insert_iff]
  tauto

namespace Binned

/-- A loose chunk goes into the bin of its size. -/
theorem inserted (hb : s.Binned live loose) (hmem : h ∈ live)
    (hfree : ¬ (s.chunk h).InUse)
    (hptr : ∀ other ∈ live, (s.chunk other).ptr = (s.chunk h).ptr →
      other = h) : (s.inserted h).Binned live (loose \ {h}) := by
  have hr := s.rebinned_inserted h
  have hseparates : ∀ b, Separates (s.inserted h).chunkBefore h (s.bins b) := by
    intro b
    refine separates_chunkBefore fun other hother => ?_
    rw [hr.ptr, hr.ptr]
    exact hptr other ((hb.mem_iff b other).1 hother).1.1
  constructor
  · intro b other
    rw [bins_inserted, idle_inserted hmem hfree, hr.size]
    split
    · rename_i heq
      rw [mem_insertBy (hseparates b), hb.mem_iff]
      by_cases hother : other = h
      · simp [hother, heq]
      · simp [hother]
    · rename_i hne
      rw [hb.mem_iff]
      by_cases hother : other = h
      · simp [hother, hne]
      · simp [hother]
  · intro b
    rw [bins_inserted]
    have hsorted := hr.sorted (hb.sorted b)
    split
    · exact pairwise_insertBy (chunkBefore_trans _) hsorted
    · exact hsorted
  · intro other hidle
    rw [chunk_inserted]
    split
    · rfl
    · rename_i hne
      exact hb.binNum_idle other
        (((idle_inserted hmem hfree).1 hidle).resolve_right hne)
  · intro other hidle
    rw [idle_inserted hmem hfree, not_or] at hidle
    rw [chunk_inserted, if_neg hidle.2]
    exact hb.binNum_other other hidle.1

/-- An idle chunk is taken out of its bin. -/
theorem removed (hb : s.Binned live loose) (h : ChunkHandle) :
    (s.removed h).Binned live (insert h loose) := by
  constructor
  · intro b other
    rw [bins_removed, idle_removed, (s.rebinned_removed h).size]
    split
    · rw [(hb.nodup b).mem_erase_iff, hb.mem_iff]
      tauto
    · rename_i hne
      rw [hb.mem_iff]
      constructor
      · rintro ⟨hidle, rfl⟩
        exact ⟨⟨hidle, fun heq => hne (by rw [heq])⟩, rfl⟩
      · rintro ⟨⟨hidle, -⟩, heq⟩
        exact ⟨hidle, heq⟩
  · intro b
    rw [bins_removed]
    have hsorted := (s.rebinned_removed h).sorted (hb.sorted b)
    split
    · exact hsorted.sublist erase_sublist
    · exact hsorted
  · intro other hidle
    obtain ⟨hidle, hne⟩ := idle_removed.1 hidle
    rw [chunk_removed, if_neg hne]
    exact hb.binNum_idle other hidle
  · intro other hidle
    rw [chunk_removed]
    split
    · rfl
    · rename_i hne
      exact hb.binNum_other other fun h => hidle (idle_removed.2 ⟨h, hne⟩)

end Binned

end BFCArena

namespace ArenaM

open BFCArena

theorem enforce_of {condition : Prop} [Decidable condition] {text : String}
    (hcondition : condition) : enforce condition text = pure () :=
  if_pos hcondition

theorem chunkFromHandle_eq (hbound : h < s.numChunks) :
    chunkFromHandle h s = .ok (s.chunk h) s := by
  rw [chunkFromHandle, bind_eq_of_ok (get_apply s), enforce_of hbound]
  rfl

/-- The bin operations do nothing but put a chunk into its bin and take it out
again. -/
theorem insertFreeChunkIntoBin_eq (hbound : h < s.numChunks)
    (hfree : ¬ (s.chunk h).InUse)
    (hbin : (s.chunk h).binNum = kInvalidBinNum) :
    insertFreeChunkIntoBin h s = .ok () (s.inserted h) := by
  rw [insertFreeChunkIntoBin, bind_eq_of_ok (chunkFromHandle_eq hbound),
    enforce_of ⟨hfree, hbin⟩]
  rfl

theorem removeFreeChunkIterFromBin_eq {b : Nat} (hb : s.Binned live loose)
    (hbound : h < s.numChunks) (hidle : s.Idle live loose h)
    (hbin : b = binNumForSize (s.chunk h).size) :
    removeFreeChunkIterFromBin b h s = .ok () (s.removed h) := by
  have hnum : (s.chunk h).binNum ≠ kInvalidBinNum := by
    rw [hb.binNum_idle h hidle, kInvalidBinNum]
    omega
  rw [removeFreeChunkIterFromBin, bind_eq_of_ok (chunkFromHandle_eq hbound),
    enforce_of ⟨hidle.2.1, hnum⟩, hbin]
  rfl

theorem removeFreeChunkFromBin_eq (hb : s.Binned live loose)
    (hbound : h < s.numChunks) (hidle : s.Idle live loose h)
    (hptr : ∀ other ∈ live, (s.chunk other).ptr = (s.chunk h).ptr → other = h) :
    removeFreeChunkFromBin h s = .ok () (s.removed h) := by
  have hnum := hb.binNum_idle h hidle
  have hvalid : (s.chunk h).binNum ≠ kInvalidBinNum := by
    rw [kInvalidBinNum]
    omega
  have hmem : h ∈ s.bins (binNumForSize (s.chunk h).size) :=
    (hb.mem_iff _ h).2 ⟨hidle, rfl⟩
  have hseparates : Separates s.chunkBefore h
      (s.bins (binNumForSize (s.chunk h).size)) :=
    separates_chunkBefore fun other hother =>
      hptr other ((hb.mem_iff _ other).1 hother).1.1
  have herase : eraseBy s.chunkBefore h
      (s.bins (binNumForSize (s.chunk h).size)) =
        (s.bins (binNumForSize (s.chunk h).size)).erase h := by
    rw [(hb.nodup _).erase_eq_filter]
    refine filter_congr fun other hother => ?_
    rw [Bool.eq_iff_iff, bne_iff_ne, Bool.or_eq_true]
    refine ⟨?_, fun hne => ?_⟩
    · rintro hsome rfl
      exact s.chunkBefore_irrefl other (or_self_iff.1 hsome)
    · by_contra hnone
      rw [not_or] at hnone
      exact hne (hseparates other hother hnone.1 hnone.2)
  have hlength : (eraseBy s.chunkBefore h
      (s.bins (s.chunk h).binNum.toNat)).length <
        (s.bins (s.chunk h).binNum.toNat).length := by
    rw [hnum, Int.toNat_natCast, herase, length_erase_of_mem hmem]
    exact Nat.sub_lt (length_pos_of_mem hmem) Nat.one_pos
  rw [removeFreeChunkFromBin, bind_eq_of_ok (chunkFromHandle_eq hbound),
    enforce_of ⟨hidle.2.1, hvalid⟩, bind_eq_of_ok (pure_apply _ _),
    bind_eq_of_ok (get_apply s), enforce_of hlength, bind_eq_of_ok (pure_apply _
    _), bind_eq_of_ok (modify_apply _ _), hnum, Int.toNat_natCast, herase]
  rfl

end ArenaM

end OnnxRuntime
