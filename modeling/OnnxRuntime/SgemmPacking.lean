/-
The packing of the right matrix of a product: a panel holds blocks of 16
columns, row after row, the last block filled up with zeros.
-/
import OnnxRuntime.PartialRuns
import Mathlib.Data.Nat.Bits
import Mathlib.Tactic.NormNum
import Mathlib.Tactic.Ring

namespace OnnxRuntime

variable {R : Type}

namespace Sgemm

/-- The panel with the pointers `D` into it and `B` into the source. -/
structure PackCursor (R : Type) where
  panel : Cells R
  dst : Nat
  src : Nat

section Model

variable [Zero R] (size : Nat) (B : Cells R) (ldb : Nat)

/-- Whole blocks of 16 are packed by `full`, which moves `D`; what remains is
packed by `last`. -/
def packBlocks (full : PackCursor R → Option (PackCursor R))
    (last : Nat → PackCursor R → Option (PackCursor R)) (stride : Nat)
    (count : Nat) (s : PackCursor R) : Option (Cells R) :=
  if 16 ≤ count then do
    let block ← full s
    packBlocks full last stride (count - 16)
      ⟨block.panel, block.dst, s.src + stride⟩
  else if 0 < count then do
    return (← last count s).panel
  else return s.panel
termination_by count

/-- One row of 16 columns. -/
def copyRow (s : PackCursor R) : Option (PackCursor R) := do
  let panel ← gather size B s.dst s.src 1 16 s.panel
  return ⟨panel, s.dst + 16, s.src + ldb⟩

/-- `width` columns, if `CountX` has this bit. -/
def copyTail (countX width : Nat) (s : PackCursor R) : Option (PackCursor R) :=
  if countX &&& width ≠ 0 then do
    let panel ← gather size B s.dst s.src 1 width s.panel
    return ⟨panel, s.dst + width, s.src + width⟩
  else return s

/-- One row of less than 16 columns. -/
def copyLastRow (countX : Nat) (s : PackCursor R) : Option (PackCursor R) := do
  let panel ← fill size 0 s.dst 16 s.panel
  let tail ← copyTail size B countX 8 ⟨panel, s.dst, s.src⟩
  let tail ← copyTail size B countX 4 tail
  let tail ← copyTail size B countX 2 tail
  let tail ← copyTail size B countX 1 tail
  return ⟨tail.panel, s.dst + 16, s.src + ldb⟩

/-- `MlasSgemmCopyPackB`. -/
def copyPackB (countX countY : Nat) (s : PackCursor R) : Option (Cells R) :=
  packBlocks (doWhile (copyRow size B ldb) countY)
    (fun countX => doWhile (copyLastRow size B ldb countX) countY) 16 countX s

/-- `width` rows of the source become lanes of so many rows of the panel. -/
def gatherColumns (dst src width : Nat) : Nat → Cells R → Option (Cells R)
  | 0, panel => some panel
  | cols + 1, panel => do
      let panel ← gatherColumns dst src width cols panel
      gather size B (dst + 16 * cols) (src + cols) ldb width panel

def fillColumns (dst width : Nat) : Nat → Cells R → Option (Cells R)
  | 0, panel => some panel
  | cols + 1, panel => do
      let panel ← fillColumns dst width cols panel
      fill size 0 (dst + 16 * cols) width panel

/-- `MlasSgemmTransposePackBNx4`: blocks of 4×4 are transposed. -/
def transposePackBNx4 (rows : Nat) (s : PackCursor R) : Option (PackCursor R) :=
  forLoop (fun s => do
    let panel ← gatherColumns size B ldb s.dst s.src 4 4 s.panel
    return ⟨panel, s.dst + 4, s.src + ldb * 4⟩) (rows / 4) s

/-- The columns of a block, four at a time and then one by one. -/
def transposeColumns (unit : Nat → PackCursor R → Option (Cells R))
    (x : Nat) (s : PackCursor R) : Option (PackCursor R) :=
  if 4 ≤ x then do
    let panel ← unit 4 s
    transposeColumns unit (x - 4) ⟨panel, s.dst + 16 * 4, s.src + 4⟩
  else if 0 < x then do
    let panel ← unit 1 s
    transposeColumns unit (x - 1) ⟨panel, s.dst + 16, s.src + 1⟩
  else return s
termination_by x

/-- `width` rows of some columns. -/
def transposeRows (width cols : Nat) (s : PackCursor R) : Option (Cells R) :=
  if cols = 4 ∧ 4 ≤ width then
    (transposePackBNx4 size B ldb width s).map PackCursor.panel
  else gatherColumns size B ldb s.dst s.src width cols s.panel

/-- `width` rows of some columns, if `CountY` has this bit; for the larger
widths the lanes after them are cleared otherwise. -/
def transposeTail (countY cols width : Nat) (clears : Bool)
    (s : PackCursor R) : Option (PackCursor R) :=
  if countY &&& width ≠ 0 then do
    let panel ← transposeRows size B ldb width cols s
    return ⟨panel, s.dst + width, s.src + ldb * width⟩
  else if clears then do
    let panel ← fillColumns size (s.dst + width) width cols s.panel
    return ⟨panel, s.dst, s.src⟩
  else return s

/-- Less than 16 rows of some columns. -/
def transposeLast (countY cols : Nat) (s : PackCursor R) :
    Option (Cells R) := do
  let tail ← transposeTail size B ldb countY cols 8 true s
  let tail ← transposeTail size B ldb countY cols 4 true tail
  let panel ← fillColumns size tail.dst 4 cols tail.panel
  let tail ← transposeTail size B ldb countY cols 2 false
    ⟨panel, tail.dst, tail.src⟩
  let tail ← transposeTail size B ldb countY cols 1 false tail
  return tail.panel

/-- `MlasSgemmTransposePackB`. -/
def transposePackB (countY countX : Nat) (s : PackCursor R) :
    Option (Cells R) :=
  packBlocks (transposeColumns (transposeRows size B ldb 16) countX)
    (fun countY => transposeColumns (transposeLast size B ldb countY) countX)
    (ldb * 16) countY s

end Model

section Layout

/-- The place of column `j` of row `k` in a panel of `countK` rows. -/
def panelIndex (countK k j : Nat) : Nat :=
  j / 16 * (16 * countK) + 16 * k + j % 16

/-- Lanes `lo` to `hi` of some rows of 16 are written. -/
structure Lanes (before after : Cells R) (dst rows lo hi : Nat)
    (values : Nat → Nat → R) : Prop where
  written : ∀ k < rows, ∀ lane, lo ≤ lane → lane < hi →
    after (dst + 16 * k + lane) = some (values k lane)
  kept : ∀ a, (∀ k < rows, ∀ lane, lo ≤ lane → lane < hi →
    a ≠ dst + 16 * k + lane) → after a = before a

variable {before mid after : Cells R} {dst rows lo hi : Nat}
  {values : Nat → Nat → R}

theorem Lanes.nothing : Lanes before before dst 0 lo hi values where
  written _ hk := absurd hk (Nat.not_lt_zero _)
  kept _ _ := rfl

theorem Lanes.row (h : Lanes before mid dst rows lo hi values)
    (hle : lo ≤ hi) (hhi : hi ≤ 16)
    (hrow : Wrote mid after (dst + 16 * rows + lo) (hi - lo)
      fun i => values rows (lo + i)) :
    Lanes before after dst (rows + 1) lo hi values where
  written k hk lane hlo hlt := by
    by_cases hlast : k = rows
    · have hlane := hrow.written (lane - lo) (by omega)
      rw [show dst + 16 * rows + lo + (lane - lo) = dst + 16 * rows + lane by
        omega, show lo + (lane - lo) = lane by omega] at hlane
      rw [hlast]
      exact hlane
    · rw [hrow.kept _ (.inl (by omega))]
      exact h.written k (by omega) lane hlo hlt
  kept a ha := by
    have hout : a < dst + 16 * rows + lo ∨
        dst + 16 * rows + lo + (hi - lo) ≤ a := by
      by_contra hin
      exact ha rows (Nat.lt_succ_self rows) (a - dst - 16 * rows) (by omega)
        (by omega) (by omega)
    rw [hrow.kept a hout]
    exact h.kept a fun k hk => ha k (by omega)

theorem Lanes.extend {cut : Nat} (h : Lanes before mid dst rows lo cut values)
    (h' : Lanes mid after dst rows cut hi values) (hlo : lo ≤ cut)
    (hcut : cut ≤ hi) (hhi : hi ≤ 16) :
    Lanes before after dst rows lo hi values where
  written k hk lane hle hlt := by
    by_cases hlane : cut ≤ lane
    · exact h'.written k hk lane hlane hlt
    · rw [h'.kept _ fun k' hk' lane' hle' hlt' => by omega]
      exact h.written k hk lane hle (by omega)
  kept a ha := by
    rw [h'.kept a fun k hk lane hle hlt => ha k hk lane (by omega) hlt]
    exact h.kept a fun k hk lane hle hlt => ha k hk lane hle (by omega)

theorem Lanes.congr {values' : Nat → Nat → R}
    (h : Lanes before after dst rows lo hi values)
    (hsame : ∀ k < rows, ∀ lane, lo ≤ lane → lane < hi →
      values k lane = values' k lane) :
    Lanes before after dst rows lo hi values' where
  written k hk lane hle hlt := by
    rw [h.written k hk lane hle hlt, hsame k hk lane hle hlt]
  kept := h.kept

/-- Rows after rows. -/
theorem Lanes.append {more : Nat} (h : Lanes before mid dst rows 0 16 values)
    (h' : Lanes mid after (dst + 16 * rows) more 0 16
      fun k lane => values (rows + k) lane) :
    Lanes before after dst (rows + more) 0 16 values where
  written k hk lane hle hlt := by
    by_cases hrow : k < rows
    · rw [h'.kept _ fun k' hk' lane' hle' hlt' => by omega]
      exact h.written k hrow lane hle hlt
    · have hlane := h'.written (k - rows) (by omega) lane hle hlt
      rw [show dst + 16 * rows + 16 * (k - rows) + lane = dst + 16 * k + lane by
        omega, show rows + (k - rows) = k by omega] at hlane
      exact hlane
  kept a ha := by
    rw [h'.kept a fun k hk lane hle hlt => by
      have hne := ha (rows + k) (by omega) lane hle hlt
      omega]
    exact h.kept a fun k hk => ha k (by omega)

/-- Some rows of 16 on the way: lanes below `c` have their values, those from
`c + gap` on are cleared. -/
structure Partly [Zero R] (before after : Cells R) (dst rows c gap : Nat)
    (values : Nat → Nat → R) : Prop where
  taken : ∀ k < rows, ∀ lane < c,
    after (dst + 16 * k + lane) = some (values k lane)
  cleared : ∀ k < rows, ∀ lane < 16, c + gap ≤ lane →
    after (dst + 16 * k + lane) = some 0
  kept : ∀ a, a < dst ∨ dst + 16 * rows ≤ a → after a = before a

variable [Zero R] {c gap width gap' : Nat}

theorem Partly.start : Partly before before dst rows 0 16 values where
  taken _ _ _ hlane := absurd hlane (Nat.not_lt_zero _)
  cleared k hk lane hlane hle := by omega
  kept _ _ := rfl

theorem Partly.take (h : Partly before mid dst rows c gap values)
    (hlanes : Lanes mid after dst rows c (c + width) values)
    (hgap : gap ≤ width + gap') (hfit : c + width ≤ 16) :
    Partly before after dst rows (c + width) gap' values where
  taken k hk lane hlane := by
    by_cases hnew : c ≤ lane
    · exact hlanes.written k hk lane hnew hlane
    · rw [hlanes.kept _ fun k' hk' lane' hle hlt => by omega]
      exact h.taken k hk lane (by omega)
  cleared k hk lane hlane hle := by
    rw [hlanes.kept _ fun k' hk' lane' hle' hlt' => by omega]
    exact h.cleared k hk lane hlane (by omega)
  kept a ha := by
    rw [hlanes.kept a fun k hk lane hle hlt => by omega]
    exact h.kept a ha

theorem Partly.clear (h : Partly before mid dst rows c gap values)
    (hlanes : Lanes mid after dst rows (c + gap') (c + gap' + width)
      fun _ _ => 0)
    (hgap : gap ≤ gap' + width) (hfit : c + gap' + width ≤ 16) :
    Partly before after dst rows c gap' values where
  taken k hk lane hlane := by
    rw [hlanes.kept _ fun k' hk' lane' hle' hlt' => by omega]
    exact h.taken k hk lane hlane
  cleared k hk lane hlane hle := by
    by_cases hnew : lane < c + gap' + width
    · exact hlanes.written k hk lane hle hnew
    · rw [hlanes.kept _ fun k' hk' lane' hle' hlt' => by omega]
      exact h.cleared k hk lane hlane (by omega)
  kept a ha := by
    rw [hlanes.kept a fun k hk lane hle hlt => by omega]
    exact h.kept a ha

theorem Partly.lanes (h : Partly before after dst rows c 0 values) :
    Lanes before after dst rows 0 16
      fun k lane => if lane < c then values k lane else 0 where
  written k hk lane _ hlane := by
    split
    · rename_i htaken
      exact h.taken k hk lane htaken
    · exact h.cleared k hk lane hlane (by omega)
  kept a ha := by
    refine h.kept a ?_
    by_contra hin
    exact ha ((a - dst) / 16) (by omega) ((a - dst) % 16) (Nat.zero_le _)
      (by omega) (by omega)

end Layout

section Rows

variable [Zero R] {size : Nat} {B : Cells R} {ldb : Nat} {before panel : Cells R}
  {base dst src rows c gap width count : Nat} {values : Nat → Nat → R}

/-- What a bit of the count contributes to it. -/
def bitPart (count width : Nat) : Nat := if count &&& width ≠ 0 then width else 0

theorem bitPart_sum (hcount : count < 16) :
    bitPart count 8 + bitPart count 4 + bitPart count 2 + bitPart count 1 =
      count := by
  have hall : ∀ count < 16, bitPart count 8 + bitPart count 4 +
      bitPart count 2 + bitPart count 1 = count := by decide
  exact hall count hcount

omit [Zero R] in
theorem gatherColumns_returns {lo : Nat} (hdst : dst = base + lo)
    (hread : ∀ k < rows, ∀ i < width,
      B (src + k + i * ldb) = some (values k (lo + i)))
    (hhi : lo + width ≤ 16) (hfit : base + 16 * rows ≤ size) :
    Returns (gatherColumns size B ldb dst src width rows panel) fun after =>
      Lanes panel after base rows lo (lo + width) values := by
  induction rows with
  | zero => exact Returns.pure .nothing
  | succ rows ih =>
    refine (ih (fun k hk => hread k (by omega)) (by omega)).bind
      fun mid hmid => ?_
    refine (gather_returns (hread rows (Nat.lt_succ_self rows))
      (by omega)).mono fun after hafter => ?_
    refine hmid.row (Nat.le_add_right lo width) hhi ?_
    rw [show base + 16 * rows + lo = dst + 16 * rows by omega,
      Nat.add_sub_cancel_left]
    exact hafter

theorem fillColumns_returns {lo : Nat} (hdst : dst = base + lo)
    (hhi : lo + width ≤ 16) (hfit : base + 16 * rows ≤ size) :
    Returns (fillColumns (R := R) size dst width rows panel) fun after =>
      Lanes panel after base rows lo (lo + width) fun _ _ => 0 := by
  induction rows with
  | zero => exact Returns.pure .nothing
  | succ rows ih =>
    refine (ih (by omega)).bind fun mid hmid => ?_
    have hbound : dst + 16 * rows + width ≤ size := by omega
    refine (fill_returns hbound).mono fun after hafter => ?_
    refine hmid.row (Nat.le_add_right lo width) hhi ?_
    rw [show base + 16 * rows + lo = dst + 16 * rows by omega,
      Nat.add_sub_cancel_left]
    exact hafter

/-- A cursor in the middle of some rows: `c` lanes of them are packed. -/
structure TailAt (before : Cells R) (dst src step rows c gap : Nat)
    (values : Nat → Nat → R) (s : PackCursor R) : Prop where
  partly : Partly before s.panel dst rows c gap values
  dst_eq : s.dst = dst + c
  src_eq : s.src = src + c * step

section Copy

variable {row : Nat → R} {s : PackCursor R}

theorem copyTail_returns (width : Nat)
    (h : TailAt before dst src 1 1 c 0 (fun _ => row) s)
    (hread : ∀ i < count, B (src + i) = some (row i))
    (htake : c + bitPart count width ≤ count) (hcount : count ≤ 16)
    (hfit : dst + 16 ≤ size) :
    Returns (copyTail size B count width s)
      (TailAt before dst src 1 1 (c + bitPart count width) 0 fun _ => row) := by
  rw [copyTail]
  by_cases hbit : count &&& width ≠ 0
  · rw [bitPart, if_pos hbit] at htake ⊢
    rw [if_pos hbit]
    have hsrc : ∀ i < width, B (s.src + i * 1) = some (row (c + i)) := by
      intro i hi
      rw [h.src_eq, mul_one, mul_one, add_assoc]
      exact hread (c + i) (by omega)
    have hbound : s.dst + width ≤ size := by
      rw [h.dst_eq]
      omega
    refine (gather_returns hsrc hbound).bind fun after hafter => Returns.pure ?_
    have hlanes : Lanes s.panel after dst 1 c (c + width) fun _ => row := by
      refine Lanes.nothing.row (Nat.le_add_right c width) (by omega) ?_
      rw [Nat.add_zero, ← h.dst_eq, Nat.add_sub_cancel_left]
      exact hafter
    refine ⟨h.partly.take hlanes (Nat.zero_le _) (by omega), ?_, ?_⟩
    · simp only [h.dst_eq]
      omega
    · simp only [h.src_eq]
      omega
  · rw [bitPart, if_neg hbit]
    rw [if_neg hbit]
    exact Returns.pure h

omit [Zero R] in
theorem copyRow_returns (hread : ∀ i < 16, B (s.src + i) = some (row i))
    (hfit : s.dst + 16 ≤ size) :
    Returns (copyRow size B ldb s) fun after =>
      Lanes s.panel after.panel s.dst 1 0 16 (fun _ => row) ∧
        after.dst = s.dst + 16 ∧ after.src = s.src + ldb := by
  have hsrc : ∀ i < 16, B (s.src + i * 1) = some (row i) := by
    intro i hi
    rw [mul_one]
    exact hread i hi
  refine (gather_returns hsrc hfit).bind fun after hafter => Returns.pure ?_
  refine ⟨Lanes.nothing.row (Nat.zero_le _) (le_refl _) ?_, rfl, rfl⟩
  simpa using hafter

theorem copyLastRow_returns (row : Nat → R) (hcount : count < 16)
    (hread : ∀ i < count, B (s.src + i) = some (row i))
    (hfit : s.dst + 16 ≤ size) :
    Returns (copyLastRow size B ldb count s) fun after =>
      Lanes s.panel after.panel s.dst 1 0 16
          (fun _ i => if i < count then row i else 0) ∧
        after.dst = s.dst + 16 ∧ after.src = s.src + ldb := by
  have hsum := bitPart_sum hcount
  have hle := le_of_lt hcount
  refine (fill_returns hfit).bind fun cleared hcleared => ?_
  have hstart : TailAt s.panel s.dst s.src 1 1 0 0 (fun _ => row)
      ⟨cleared, s.dst, s.src⟩ := by
    have hlanes : Lanes s.panel cleared s.dst 1 (0 + 0) (0 + 0 + 16)
        fun _ _ => 0 := by
      refine Lanes.nothing.row (by omega) (by omega) ?_
      simpa using hcleared
    exact ⟨Partly.start.clear hlanes (by omega) (by omega), rfl, by simp⟩
  refine (copyTail_returns 8 hstart hread (by omega) hle hfit).bind
    fun tail htail => ?_
  refine (copyTail_returns 4 htail hread (by omega) hle hfit).bind
    fun tail htail => ?_
  refine (copyTail_returns 2 htail hread (by omega) hle hfit).bind
    fun tail htail => ?_
  refine (copyTail_returns 1 htail hread (by omega) hle hfit).bind
    fun tail htail => ?_
  have hall : 0 + bitPart count 8 + bitPart count 4 + bitPart count 2 +
      bitPart count 1 = count := by omega
  rw [hall] at htail
  exact Returns.pure ⟨htail.partly.lanes, rfl, rfl⟩

end Copy

section Transpose

variable {s : PackCursor R}

omit [Zero R] in
theorem transposePackBNx4_returns {lo : Nat} (hdst : s.dst = base + lo)
    (hread : ∀ k < 4, ∀ i < width,
      B (s.src + k + i * ldb) = some (values k (lo + i)))
    (hwidth : width % 4 = 0) (hhi : lo + width ≤ 16)
    (hfit : base + 16 * 4 ≤ size) :
    Returns (transposePackBNx4 size B ldb width s) fun after =>
      Lanes s.panel after.panel base 4 lo (lo + width) values := by
  have hrun : Returns (transposePackBNx4 size B ldb width s) fun after =>
      Lanes s.panel after.panel base 4 lo (lo + 4 * (width / 4)) values ∧
        after.dst = base + (lo + 4 * (width / 4)) ∧
        after.src = s.src + 4 * (width / 4) * ldb := by
    refine forLoop_returns
      (fun i (after : PackCursor R) =>
        Lanes s.panel after.panel base 4 lo (lo + 4 * i) values ∧
          after.dst = base + (lo + 4 * i) ∧ after.src = s.src + 4 * i * ldb)
      ⟨⟨fun k _ lane hle hlt => by omega, fun _ _ => rfl⟩, hdst, by simp⟩ ?_
    rintro i hi mid ⟨hmid, hmidDst, hmidSrc⟩
    have hblock : ∀ k < 4, ∀ j < 4, B (mid.src + k + j * ldb) =
        some (values k (lo + 4 * i + j)) := by
      intro k hk j hj
      have hcell := hread k hk (4 * i + j) (by omega)
      rw [add_mul] at hcell
      rw [hmidSrc, add_assoc lo, ← hcell]
      congr 1
      omega
    refine (gatherColumns_returns hmidDst hblock (by omega) hfit).bind
      fun after hafter => Returns.pure ⟨?_, ?_, ?_⟩
    · exact hmid.extend hafter (by omega) (by omega) (by omega)
    · simp only [hmidDst]
      omega
    · simp only [hmidSrc, mul_add, add_mul, mul_one]
      rw [mul_comm ldb 4]
      omega
  refine hrun.mono fun after hafter => ?_
  have hlanes := hafter.1
  rwa [Nat.mul_div_cancel' (Nat.dvd_of_mod_eq_zero hwidth)] at hlanes

omit [Zero R] in
/-- Either way of moving rows into lanes. -/
theorem transposeRows_returns {lo : Nat} (hdst : s.dst = base + lo)
    (hread : ∀ k < rows, ∀ i < width,
      B (s.src + k + i * ldb) = some (values k (lo + i)))
    (hwidth : 4 ≤ width → width % 4 = 0) (hhi : lo + width ≤ 16)
    (hfit : base + 16 * rows ≤ size) :
    Returns (transposeRows size B ldb width rows s) fun after =>
      Lanes s.panel after base rows lo (lo + width) values := by
  rw [transposeRows]
  split
  · rename_i hfour
    obtain ⟨rfl, hle⟩ := hfour
    obtain ⟨after, hrun, hlanes⟩ :=
      transposePackBNx4_returns hdst hread (hwidth hle) hhi hfit
    rw [hrun]
    exact Returns.pure hlanes
  · exact gatherColumns_returns hdst hread hhi hfit

theorem transposeTail_returns (width : Nat) (clears : Bool) {gap' : Nat}
    (h : TailAt before dst src ldb rows c gap values s)
    (hread : ∀ k < rows, ∀ i < count, B (src + k + i * ldb) = some (values k i))
    (htake : c + bitPart count width ≤ count) (hcount : count < 16)
    (hwidth : 4 ≤ width → width % 4 = 0)
    (hgap : gap' = if clears then width else 0)
    (hprev : gap = if clears then 2 * width else 0)
    (hroom : c + gap' + width ≤ 16)
    (hfit : dst + 16 * rows ≤ size) :
    Returns (transposeTail size B ldb count rows width clears s)
      (TailAt before dst src ldb rows (c + bitPart count width) gap'
        values) := by
  rw [transposeTail]
  by_cases hbit : count &&& width ≠ 0
  · rw [bitPart, if_pos hbit] at htake ⊢
    rw [if_pos hbit]
    have hblock : ∀ k < rows, ∀ i < width, B (s.src + k + i * ldb) =
        some (values k (c + i)) := by
      intro k hk i hi
      have hcell := hread k hk (c + i) (by omega)
      rw [add_mul] at hcell
      rw [h.src_eq, ← hcell]
      congr 1
      omega
    refine (transposeRows_returns h.dst_eq hblock hwidth (by omega)
      hfit).bind fun after hafter => Returns.pure ⟨?_, ?_, ?_⟩
    · refine h.partly.take hafter ?_ (by omega)
      rw [hgap, hprev]
      split <;> omega
    · simp only [h.dst_eq]
      omega
    · simp only [h.src_eq]
      rw [add_mul, mul_comm ldb width]
      omega
  · rw [if_neg hbit, bitPart, if_neg hbit]
    cases clears with
    | false =>
      simp only [Bool.false_eq_true] at hgap hprev ⊢
      subst hgap hprev
      exact Returns.pure h
    | true =>
      simp only [if_true] at hgap hprev ⊢
      have hat : s.dst + width = dst + (c + gap') := by
        rw [h.dst_eq]
        omega
      refine (fillColumns_returns hat (by omega) hfit).bind
        fun after hafter => Returns.pure ⟨?_, h.dst_eq, h.src_eq⟩
      exact h.partly.clear hafter (by omega) (by omega)

theorem transposeLast_returns (hcount : count < 16)
    (hread : ∀ k < rows, ∀ i < count,
      B (s.src + k + i * ldb) = some (values k i))
    (hfit : s.dst + 16 * rows ≤ size) :
    Returns (transposeLast size B ldb count rows s) fun after =>
      Lanes s.panel after s.dst rows 0 16
        fun k i => if i < count then values k i else 0 := by
  have hsum := bitPart_sum hcount
  have hstart : TailAt s.panel s.dst s.src ldb rows 0 16 values s :=
    ⟨Partly.start, rfl, by simp⟩
  have hpart8 : bitPart count 8 = 0 ∨ bitPart count 8 = 8 := by
    rw [bitPart]
    split <;> simp
  have hpart4 : bitPart count 4 = 0 ∨ bitPart count 4 = 4 := by
    rw [bitPart]
    split <;> simp
  refine (transposeTail_returns 8 true hstart hread (by omega) hcount
    (by omega) rfl rfl (by simp) hfit).bind fun tail htail => ?_
  refine (transposeTail_returns 4 true htail hread (by omega) hcount
    (by omega) rfl rfl (by simp; omega) hfit).bind fun tail htail => ?_
  refine (fillColumns_returns htail.dst_eq (by omega) hfit).bind
    fun panel hpanel => ?_
  have hcleared : TailAt s.panel s.dst s.src ldb rows
      (0 + bitPart count 8 + bitPart count 4) 0 values
      ⟨panel, tail.dst, tail.src⟩ :=
    ⟨htail.partly.clear hpanel (by simp) (by omega), htail.dst_eq, htail.src_eq⟩
  refine (transposeTail_returns 2 false hcleared hread (by omega) hcount
    (by omega) rfl rfl (by simp; omega) hfit).bind fun tail htail => ?_
  refine (transposeTail_returns 1 false htail hread (by omega) hcount
    (by omega) rfl rfl (by simp; omega) hfit).bind fun tail htail => ?_
  have hall : 0 + bitPart count 8 + bitPart count 4 + bitPart count 2 +
      bitPart count 1 = count := by omega
  rw [hall] at htail
  exact Returns.pure htail.partly.lanes

omit [Zero R] in
/-- Four columns at a time or one by one, all of a block are packed. -/
theorem transposeColumns_returns (src : Nat)
    {unit : Nat → PackCursor R → Option (Cells R)} {total : Nat}
    (hunit : ∀ cols done, cols = 4 ∨ cols = 1 → done + cols ≤ total →
      ∀ s : PackCursor R, s.dst = dst + 16 * done → s.src = src + done →
        Returns (unit cols s) fun after =>
          Lanes s.panel after s.dst cols 0 16
            fun k lane => values (done + k) lane)
    (done : Nat) {x : Nat} (hx : done + x = total)
    (hdst : s.dst = dst + 16 * done) (hsrc : s.src = src + done)
    (hdone : Lanes before s.panel dst done 0 16 values) :
    Returns (transposeColumns unit x s) fun after =>
      Lanes before after.panel dst total 0 16 values ∧
        after.dst = dst + 16 * total := by
  induction x using Nat.strongRecOn generalizing done s with
  | ind x ih =>
    rw [transposeColumns]
    split
    · rename_i hfour
      refine (hunit 4 done (.inl rfl) (by omega) s hdst hsrc).bind
        fun panel hpanel => ?_
      rw [hdst] at hpanel
      exact ih (x - 4) (by omega) (done + 4) (by omega)
        (by simp only [hdst]; omega)
        (by simp only [hsrc]; omega) (hdone.append hpanel)
    · split
      · refine (hunit 1 done (.inr rfl) (by omega) s hdst hsrc).bind
          fun panel hpanel => ?_
        rw [hdst] at hpanel
        exact ih (x - 1) (by omega) (done + 1) (by omega)
          (by simp only [hdst]; omega)
          (by simp only [hsrc]; omega) (hdone.append hpanel)
      · have heq : done = total := by omega
        subst heq
        exact Returns.pure ⟨hdone, hdst⟩

end Transpose

section Panels

/-- The first columns of a panel, one block after the other. -/
def Packed (panel : Cells R) (countK width : Nat) (values : Nat → Nat → R) :
    Prop :=
  ∀ k < countK, ∀ j < width, panel (panelIndex countK k j) = some (values k j)

/-- So many columns and the zeros after them. -/
def padded (count : Nat) (values : Nat → Nat → R) (k j : Nat) : R :=
  if j < count then values k j else 0

def roundUp (count : Nat) : Nat := 16 * ((count + 15) / 16)

variable {countK : Nat}

omit [Zero R] in
theorem panelIndex_block {block k lane : Nat} (hlane : lane < 16) :
    panelIndex countK k (16 * block + lane) =
      block * (16 * countK) + 16 * k + lane := by
  rw [panelIndex, show (16 * block + lane) / 16 = block by omega,
    show (16 * block + lane) % 16 = lane by omega]

omit [Zero R] in
/-- One more block. -/
theorem Packed.block {panel after : Cells R} {block : Nat}
    (h : Packed panel countK (16 * block) values)
    (hlanes : Lanes panel after (block * (16 * countK)) countK 0 16
      fun k lane => values k (16 * block + lane)) :
    Packed after countK (16 * (block + 1)) values := by
  intro k hk j hj
  by_cases hnew : 16 * block ≤ j
  · have hlane := hlanes.written k hk (j - 16 * block) (Nat.zero_le _)
      (by omega)
    rw [← panelIndex_block (by omega)] at hlane
    rwa [Nat.add_sub_cancel' hnew] at hlane
  · rw [hlanes.kept _ fun k' hk' lane' _ hlane' => ?_]
    · exact h k hk j (by omega)
    · have hblock : j / 16 + 1 ≤ block := by omega
      have hmul := Nat.mul_le_mul_right (16 * countK) hblock
      rw [add_mul, one_mul] at hmul
      rw [panelIndex]
      omega

theorem packBlocks_returns (src : Nat)
    {full : PackCursor R → Option (PackCursor R)}
    {last : Nat → PackCursor R → Option (PackCursor R)} {stride : Nat}
    (hfull : ∀ block, 16 * (block + 1) ≤ count → ∀ s : PackCursor R,
      s.dst = block * (16 * countK) → s.src = src + block * stride →
        Returns (full s) fun after =>
          Lanes s.panel after.panel s.dst countK 0 16
            (fun k lane => values k (16 * block + lane)) ∧
            after.dst = s.dst + 16 * countK)
    (hlast : ∀ block rest, count = 16 * block + rest → 0 < rest → rest < 16 →
      ∀ s : PackCursor R, s.dst = block * (16 * countK) →
        s.src = src + block * stride →
        Returns (last rest s) fun after =>
          Lanes s.panel after.panel s.dst countK 0 16
            fun k lane => if lane < rest then values k (16 * block + lane)
              else 0)
    {block rest : Nat} (hrest : count = 16 * block + rest)
    {s : PackCursor R} (hdst : s.dst = block * (16 * countK))
    (hsrc : s.src = src + block * stride)
    (hpacked : Packed s.panel countK (16 * block) (padded count values)) :
    Returns (packBlocks full last stride rest s) fun after =>
      Packed after countK (roundUp count) (padded count values) := by
  induction rest using Nat.strongRecOn generalizing block s with
  | ind rest ih =>
    rw [packBlocks]
    split
    · refine (hfull block (by omega) s hdst hsrc).bind fun after hafter => ?_
      obtain ⟨hlanes, hdst'⟩ := hafter
      have hnext : count = 16 * (block + 1) + (rest - 16) := by omega
      refine ih (rest - 16) (by omega) hnext ?_ ?_ ?_
      · simp only [hdst', hdst]
        rw [add_mul, one_mul]
      · simp only [hsrc]
        rw [add_mul, one_mul, add_assoc]
      · refine hpacked.block ?_
        rw [← hdst]
        refine hlanes.congr fun k _ lane _ hlane => ?_
        rw [padded, if_pos (by omega)]
    · split
      · rename_i hless hpos
        refine (hlast block rest hrest hpos (by omega) s hdst hsrc).bind
          fun after hafter => Returns.pure ?_
        have hround : roundUp count = 16 * (block + 1) := by
          rw [roundUp]
          omega
        rw [hround]
        refine hpacked.block ?_
        rw [← hdst]
        refine hafter.congr fun k _ lane _ hlane => ?_
        rw [padded]
        split_ifs <;> first | rfl | omega
      · have hround : roundUp count = 16 * block := by
          rw [roundUp]
          omega
        rw [hround]
        exact Returns.pure hpacked

/-- The room a block needs. -/
theorem block_fits (block : Nat) (hblock : 16 * block < count)
    (hfit : roundUp count * countK ≤ size) :
    block * (16 * countK) + 16 * countK ≤ size := by
  have hround : 16 * (block + 1) ≤ roundUp count := by
    rw [roundUp]
    omega
  calc block * (16 * countK) + 16 * countK
      = 16 * (block + 1) * countK := by ring
    _ ≤ roundUp count * countK := Nat.mul_le_mul_right countK hround
    _ ≤ size := hfit

omit [Zero R] in
/-- A loop over the rows of a block. -/
theorem doWhile_rows_returns {body : PackCursor R → Option (PackCursor R)}
    {s : PackCursor R} (hpos : 0 < countK)
    (hbody : ∀ k < countK, ∀ row : PackCursor R, row.dst = s.dst + 16 * k →
      row.src = s.src + k * ldb → Returns (body row) fun after =>
          Lanes row.panel after.panel row.dst 1 0 16 (fun _ => values k) ∧
            after.dst = row.dst + 16 ∧ after.src = row.src + ldb) :
    Returns (doWhile body countK s) fun after =>
      Lanes s.panel after.panel s.dst countK 0 16 values ∧
        after.dst = s.dst + 16 * countK := by
  refine (doWhile_returns
    (fun k (after : PackCursor R) =>
      Lanes s.panel after.panel s.dst k 0 16 values ∧
        after.dst = s.dst + 16 * k ∧ after.src = s.src + k * ldb)
    hpos ⟨.nothing, rfl, by simp⟩ ?_).mono
    fun after hafter => ⟨hafter.1, hafter.2.1⟩
  rintro k hk row ⟨hlanes, hdst, hsrc⟩
  refine (hbody k hk row hdst hsrc).mono ?_
  rintro after ⟨hrow, hdst', hsrc'⟩
  rw [hdst] at hrow
  refine ⟨hlanes.append (hrow.congr fun j hj lane _ _ => ?_), ?_, ?_⟩
  · rw [show k + j = k by omega]
  · omega
  · rw [hsrc', hsrc, add_mul, one_mul, add_assoc]

theorem copyPackB_returns (hpos : 0 < countK)
    (hread : ∀ k < countK, ∀ j < count,
      B (src + k * ldb + j) = some (values k j))
    (hfit : roundUp count * countK ≤ size) :
    Returns (copyPackB size B ldb count countK ⟨panel, 0, src⟩) fun after =>
      Packed after countK (roundUp count) (padded count values) := by
  refine packBlocks_returns src ?_ ?_ (zero_add count).symm
    (zero_mul _).symm (by simp) (fun k hk j hj => absurd hj (Nat.not_lt_zero j))
  · intro block hblock s hdst hsrc
    have hroom := block_fits block (by omega) hfit
    refine doWhile_rows_returns hpos fun k hk row hrowDst hrowSrc =>
      copyRow_returns (fun i hi => ?_) (by omega)
    rw [← hread k hk (16 * block + i) (by omega), hrowSrc]
    congr 1
    omega
  · intro block rest hcount hrest hless s hdst hsrc
    have hroom := block_fits block (by omega) hfit
    refine (doWhile_rows_returns hpos fun k hk row hrowDst hrowSrc =>
      copyLastRow_returns (fun i => values k (16 * block + i)) hless
        (fun i hi => ?_) (by omega)).mono fun after hafter => hafter.1
    rw [← hread k hk (16 * block + i) (by omega), hrowSrc]
    congr 1
    omega

theorem transposePackB_returns
    (hread : ∀ k < countK, ∀ j < count,
      B (src + j * ldb + k) = some (values k j))
    (hfit : roundUp count * countK ≤ size) :
    Returns (transposePackB size B ldb count countK ⟨panel, 0, src⟩)
      fun after =>
        Packed after countK (roundUp count) (padded count values) := by
  have hcell : ∀ block k i, k < countK → 16 * block + i < count →
      B (src + block * (ldb * 16) + k + i * ldb) =
        some (values k (16 * block + i)) := by
    intro block k i hk hi
    rw [← hread k hk (16 * block + i) hi]
    congr 1
    ring
  refine packBlocks_returns src ?_ ?_ (zero_add count).symm
    (zero_mul _).symm (by simp) (fun k hk j hj => absurd hj (Nat.not_lt_zero j))
  · intro block hblock s hdst hsrc
    have hroom := block_fits block (by omega) hfit
    refine transposeColumns_returns s.src ?_ 0 (zero_add countK)
      (by simp) rfl .nothing
    intro cols done hcols hdone unit hunitDst hunitSrc
    refine transposeRows_returns (Nat.add_zero unit.dst).symm
      (fun k hk i hi => ?_) (by omega) (by omega) (by omega)
    rw [zero_add, ← hcell block (done + k) i (by omega) (by omega), hunitSrc]
    congr 1
    omega
  · intro block rest hcount hrest hless s hdst hsrc
    have hroom := block_fits block (by omega) hfit
    refine (transposeColumns_returns s.src ?_ 0 (zero_add countK)
      (by simp) rfl .nothing).mono fun after hafter => hafter.1
    intro cols done hcols hdone unit hunitDst hunitSrc
    refine transposeLast_returns hless (fun k hk i hi => ?_) (by omega)
    rw [← hcell block (done + k) i (by omega) (by omega), hunitSrc]
    congr 1
    omega

end Panels

end Rows

end Sgemm

end OnnxRuntime
