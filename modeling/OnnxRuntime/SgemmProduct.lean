/-
What the matrix product on one thread computes: each element of C is written
from the right products, beta is applied once, and nothing else changes.
-/
import OnnxRuntime.Sgemm

namespace OnnxRuntime

open Function Finset

namespace Sgemm

variable {R : Type}

/-- Rows and columns are determined by the place of an element. -/
theorem row_inj {ld i j i' j' : Nat} (hj : j < ld) (hj' : j' < ld)
    (h : i * ld + j = i' * ld + j') : i = i' ∧ j = j' := by
  have hpos : 0 < ld := lt_of_le_of_lt (Nat.zero_le j) hj
  have hdiv := congrArg (· / ld) h
  simp only [mul_comm _ ld, Nat.mul_add_div hpos, Nat.div_eq_of_lt hj,
    Nat.div_eq_of_lt hj'] at hdiv
  subst hdiv
  exact ⟨rfl, add_left_cancel h⟩

section Regions

/-- Columns `lo` to `hi` of some rows of C are written. -/
structure Region (before after : Nat → R) (c ldc rows lo hi : Nat)
    (values : Nat → Nat → R) : Prop where
  written : ∀ i < rows, ∀ j, lo ≤ j → j < hi →
    after (c + i * ldc + j) = values i j
  kept : ∀ address, (∀ i < rows, ∀ j, lo ≤ j → j < hi →
    address ≠ c + i * ldc + j) → after address = before address

variable {before mid after : Nat → R} {c ldc rows lo hi : Nat}
  {values : Nat → Nat → R}

theorem Region.no_rows : Region before before c ldc 0 lo hi values where
  written _ hi := absurd hi (Nat.not_lt_zero _)
  kept _ _ := rfl

theorem Region.no_columns (h : hi ≤ lo) :
    Region before before c ldc rows lo hi values where
  written _ _ _ hle hlt := absurd hlt (not_lt.mpr (le_trans h hle))
  kept _ _ := rfl

theorem Region.unchanged : Region before before c ldc rows lo hi
    fun i j => before (c + i * ldc + j) where
  written _ _ _ _ _ := rfl
  kept _ _ := rfl

theorem Region.outside {address : Nat} (hhi : hi ≤ ldc)
    (h : Region before after c ldc rows lo hi values) {i j : Nat} (hj : j < ldc)
    (hout : rows ≤ i ∨ j < lo ∨ hi ≤ j) (heq : address = c + i * ldc + j) :
    after address = before address := by
  subst heq
  refine h.kept _ fun i' hi' j' hle' hlt' heq => ?_
  have hsame : i * ldc + j = i' * ldc + j' := by omega
  obtain ⟨rfl, rfl⟩ := row_inj hj (by omega) hsame
  omega

theorem Region.congr {values' : Nat → Nat → R}
    (h : Region before after c ldc rows lo hi values)
    (hsame : ∀ i < rows, ∀ j, lo ≤ j → j < hi → values i j = values' i j) :
    Region before after c ldc rows lo hi values' where
  written i hi j hle hlt := by
    rw [h.written i hi j hle hlt, hsame i hi j hle hlt]
  kept := h.kept

/-- The same elements are written again. -/
theorem Region.again {values' : Nat → Nat → R}
    (h : Region before mid c ldc rows lo hi values)
    (h' : Region mid after c ldc rows lo hi values') :
    Region before after c ldc rows lo hi values' where
  written := h'.written
  kept address hout := (h'.kept address hout).trans (h.kept address hout)

/-- Rows after rows. -/
theorem Region.rows_append {more : Nat} (hhi : hi ≤ ldc)
    (h : Region before mid c ldc rows lo hi values)
    (h' : Region mid after (c + rows * ldc) ldc more lo hi
      fun i j => values (rows + i) j) :
    Region before after c ldc (rows + more) lo hi values where
  written i hi' j hle hlt := by
    by_cases hrow : i < rows
    · rw [h'.kept _ fun i' hi' j' hle' hlt' heq => ?_]
      · exact h.written i hrow j hle hlt
      · have hsame : i * ldc + j = (rows + i') * ldc + j' := by
          rw [add_mul]
          omega
        have hrows := (row_inj (by omega) (by omega) hsame).1
        omega
    · have hnew := h'.written (i - rows) (by omega) j hle hlt
      rw [add_assoc c, ← add_mul, Nat.add_sub_cancel' (by omega)] at hnew
      exact hnew
  kept address hout := by
    rw [h'.kept address fun i hi' j hle hlt heq =>
      hout (rows + i) (by omega) j hle hlt (by rw [add_mul]; omega)]
    exact h.kept address fun i hi' => hout i (by omega)

/-- Columns after columns. -/
theorem Region.columns_append {cut : Nat} (hlo : lo ≤ cut) (hcut : cut ≤ hi)
    (hhi : hi ≤ ldc) (h : Region before mid c ldc rows lo cut values)
    (h' : Region mid after c ldc rows cut hi values) :
    Region before after c ldc rows lo hi values where
  written i hi' j hle hlt := by
    by_cases hnew : cut ≤ j
    · exact h'.written i hi' j hnew hlt
    · rw [h'.outside hhi (by omega) (by omega) rfl]
      exact h.written i hi' j hle (by omega)
  kept address hout := by
    rw [h'.kept address fun i hi' j hle hlt =>
      hout i hi' j (by omega) hlt]
    exact h.kept address fun i hi' j hle hlt => hout i hi' j hle (by omega)

/-- Columns that begin at a pointer. -/
theorem Region.shift {n width : Nat}
    (h : Region before after (c + n) ldc rows 0 width
      fun i j => values i (n + j)) :
    Region before after c ldc rows n (n + width) values where
  written i hi j hle hlt := by
    have hnew := h.written i hi (j - n) (Nat.zero_le _) (by omega)
    rw [show c + n + i * ldc + (j - n) = c + i * ldc + j by omega,
      show n + (j - n) = j by omega] at hnew
    exact hnew
  kept address hout := h.kept address fun i hi j _ hlt heq =>
    hout i hi (n + j) (by omega) (by omega) (by omega)

end Regions

section Beta

variable [CommRing R] {beta : R} {C : Nat → R}

theorem scaleLanes_apply (c count : Nat) (C : Nat → R) (address : Nat) :
    scaleLanes beta c count C address =
      if c ≤ address ∧ address < c + count then C address * beta
      else C address := by
  induction count with
  | zero =>
    rw [if_neg (by omega)]
    rfl
  | succ count ih =>
    rw [scaleLanes]
    by_cases hlast : address = c + count
    · rw [hlast, update_self, if_pos (by omega), ← hlast, ih, if_neg (by omega)]
    · rw [update_of_ne hlast, ih]
      split_ifs <;> first | rfl | omega

theorem scaleRow_apply (n c : Nat) (C : Nat → R) (address : Nat) :
    scaleRow beta n c C address =
      if c ≤ address ∧ address < c + n then C address * beta
      else C address := by
  induction n using Nat.strongRecOn generalizing c C with
  | ind n ih =>
    rw [scaleRow]
    split
    · rw [ih (n - 4) (by omega), scaleLanes_apply]
      split_ifs <;> first | rfl | omega
    · split
      · rw [ih (n - 1) (by omega), scaleLanes_apply]
        split_ifs <;> first | rfl | omega
      · rw [if_neg (by omega)]

/-- Beta is applied to the columns of a slice. -/
theorem multiplyBeta_returns {countM countN ldc c : Nat} (hpos : 0 < countM)
    (hldc : countN ≤ ldc) :
    Returns (multiplyBeta countM countN ldc c beta C) fun after =>
      Region C after c ldc countM 0 countN
        fun i j => beta * C (c + i * ldc + j) := by
  refine (doWhile_returns
    (fun i (s : (Nat → R) × Nat) =>
      Region C s.1 c ldc i 0 countN (fun i j => beta * C (c + i * ldc + j)) ∧
        s.2 = c + i * ldc) hpos ⟨.no_rows, by simp⟩ ?_).bind
    fun s hs => Returns.pure hs.1
  rintro i hi ⟨D, d⟩ ⟨hregion, hd⟩
  dsimp only at hregion
  refine Returns.pure ⟨hregion.rows_append hldc ⟨?_, ?_⟩, ?_⟩
  · intro i' hi' j _ hlt
    have hzero : i' = 0 := by omega
    subst hzero
    dsimp only
    rw [zero_mul, add_zero, scaleRow_apply, if_pos (by omega),
      add_zero, mul_comm]
    rw [hregion.outside hldc (by omega) (.inl le_rfl) rfl]
  · intro address hout
    dsimp only
    rw [scaleRow_apply, if_neg fun hin => ?_]
    exact hout 0 one_pos (address - (c + i * ldc)) (Nat.zero_le _)
      (by omega) (by omega)
  · simp only [add_mul]
    omega

end Beta

section TransposeA

/-- The first columns of some rows of a panel of `ldd` columns. -/
def Filled (panel : Cells R) (ldd rows cols : Nat) (values : Nat → Nat → R) :
    Prop :=
  ∀ y < rows, ∀ x < cols, panel (y * ldd + x) = some (values y x)

variable {A : Cells R} {lda ldd countY width src done : Nat}
  {values : Nat → Nat → R} {s : PackCursor R}

/-- One row of a group of columns. -/
theorem Filled.wrote {panel after : Cells R} {y cols : Nat}
    (hfit : done + width ≤ ldd) (hcols : cols ≤ done)
    (h : Filled panel ldd countY cols values)
    (hwrote : Wrote panel after (done + y * ldd) width
      fun i => values y (done + i)) : Filled after ldd countY cols values := by
  intro y' hy x hx
  rw [hwrote.kept _ ?_]
  · exact h y' hy x hx
  · by_contra hin
    have hsame : y' * ldd + x = y * ldd + (y' * ldd + x - y * ldd) := by omega
    have hcol := (row_inj (by omega) (by omega) hsame).2
    omega

theorem transposeAColumns_returns (hpos : 0 < countY)
    (hread : ∀ y < countY, ∀ i < width,
      A (src + (done + i) * lda + y) = some (values y (done + i)))
    (hfit : done + width ≤ ldd) (hsize : countY * ldd ≤ panelASize)
    (hdst : s.dst = done) (hsrc : s.src = src + done * lda)
    (hdone : Filled s.panel ldd countY done values) :
    Returns (transposeAColumns A lda ldd countY width s) fun after =>
      Filled after.panel ldd countY (done + width) values ∧
        after.dst = done + width ∧ after.src = src + (done + width) * lda := by
  refine (doWhile_returns
    (fun y (after : PackCursor R) =>
      Filled after.panel ldd countY done values ∧
        Filled after.panel ldd y (done + width) values ∧
        after.dst = done + y * ldd ∧ after.src = src + done * lda + y)
    hpos ⟨hdone, fun y hy => absurd hy (Nat.not_lt_zero y), by simp [hdst],
      by simp [hsrc]⟩ ?_).bind fun after hafter => Returns.pure ⟨?_, ?_, ?_⟩
  · rintro y hy row ⟨hold, hnew, hrowDst, hrowSrc⟩
    have hcells : ∀ i < width, A (row.src + i * lda) =
        some (values y (done + i)) := by
      intro i hi
      rw [← hread y hy i hi, add_mul]
      congr 1
      omega
    have hrow : y * ldd + ldd ≤ countY * ldd := by
      rw [← Nat.succ_mul]
      exact Nat.mul_le_mul_right ldd hy
    refine (gather_returns hcells (by omega)).bind
      fun panel hpanel => Returns.pure ⟨?_, ?_, ?_, ?_⟩
    · rw [hrowDst] at hpanel
      exact hold.wrote hfit (le_refl _) hpanel
    · rw [hrowDst] at hpanel
      intro y' hy' x hx
      by_cases hlast : y' = y
      · subst hlast
        by_cases hcol : done ≤ x
        · have hcell := hpanel.written (x - done) (by omega)
          rw [show done + y' * ldd + (x - done) = y' * ldd + x by omega,
            show done + (x - done) = x by omega] at hcell
          exact hcell
        · exact hold.wrote hfit (le_refl _) hpanel y' hy x (by omega)
      · dsimp only
        rw [hpanel.kept _ ?_]
        · exact hnew y' (by omega) x hx
        · have hbefore : y' * ldd + ldd ≤ y * ldd := by
            rw [← Nat.succ_mul]
            exact Nat.mul_le_mul_right ldd (by omega)
          omega
    · simp only [add_mul]
      omega
    · simp only [hrowSrc]
      omega
  · exact hafter.2.1
  · simp only [hdst]
  · simp only [add_mul]
    rw [mul_comm lda width]
    omega

/-- So many columns are transposed, and so many remain. -/
structure TransposedTo (src lda ldd countY : Nat) (values : Nat → Nat → R)
    (s : PackCursor R × Nat) : Prop where
  rest_le : s.2 ≤ ldd
  dst_eq : s.1.dst = ldd - s.2
  src_eq : s.1.src = src + (ldd - s.2) * lda
  filled : Filled s.1.panel ldd countY (ldd - s.2) values

variable {state : PackCursor R × Nat} (hpos : 0 < countY)
  (hread : ∀ y < countY, ∀ x < ldd, A (src + x * lda + y) = some (values y x))
  (hsize : countY * ldd ≤ panelASize)
include hpos hread hsize

theorem TransposedTo.columns (h : TransposedTo src lda ldd countY values state)
    (hwidth : width ≤ state.2) :
    Returns (transposeAColumns A lda ldd countY width state.1) fun after =>
      TransposedTo src lda ldd countY values (after, state.2 - width) := by
  have hle := h.rest_le
  refine (transposeAColumns_returns hpos
    (fun y hy i hi => hread y hy (ldd - state.2 + i) (by omega)) (by omega)
    hsize h.dst_eq h.src_eq h.filled).mono ?_
  rintro after ⟨hfilled, hdst, hsrc⟩
  have hdone : ldd - (state.2 - width) = ldd - state.2 + width := by omega
  refine ⟨by omega, ?_, ?_, ?_⟩
  · rw [hdst, hdone]
  · rw [hsrc, hdone]
  · rw [hdone]
    exact hfilled

theorem transposeABlocks_returns {rest : Nat}
    (h : TransposedTo src lda ldd countY values (s, rest)) :
    Returns (transposeABlocks A lda ldd countY rest s) fun after =>
      after.2 < 4 ∧ TransposedTo src lda ldd countY values after := by
  induction rest using Nat.strongRecOn generalizing s with
  | ind rest ih =>
    rw [transposeABlocks]
    split
    · rename_i hfour
      exact (h.columns hpos hread hsize hfour).bind fun mid hmid =>
        ih (rest - 4) (by omega) hmid
    · exact Returns.pure ⟨by omega, h⟩

theorem transposeARest_returns (width : Nat) (hless : state.2 < 2 * width)
    (h : TransposedTo src lda ldd countY values state) :
    Returns (transposeARest A lda ldd countY width state) fun after =>
      after.2 < width ∧ TransposedTo src lda ldd countY values after := by
  rw [transposeARest]
  split
  · rename_i hwidth
    exact (h.columns hpos hread hsize hwidth).bind fun after hafter =>
      Returns.pure ⟨by omega, hafter⟩
  · exact Returns.pure ⟨by omega, h⟩

/-- Rows of the transposed matrix become rows of the panel. -/
theorem transposeA_returns {panel : Cells R} :
    Returns (transposeA A lda countY ldd ⟨panel, 0, src⟩) fun after =>
      Filled after ldd countY ldd values := by
  have hstart : TransposedTo src lda ldd countY values
      (⟨panel, 0, src⟩, ldd) := by
    refine ⟨le_refl ldd, (Nat.sub_self ldd).symm, by simp, ?_⟩
    rw [Nat.sub_self]
    exact fun y _ x hx => absurd hx (Nat.not_lt_zero x)
  refine (transposeABlocks_returns hpos hread hsize hstart).bind
    fun blocks hblocks => ?_
  refine (transposeARest_returns hpos hread hsize 2 hblocks.1 hblocks.2).bind
    fun pairs hpairs => ?_
  refine (transposeARest_returns hpos hread hsize 1 hpairs.1 hpairs.2).bind
    fun last hlast => Returns.pure ?_
  have hfilled := hlast.2.filled
  rwa [Nat.lt_one_iff.mp hlast.1] at hfilled

end TransposeA

section Rows

variable [CommRing R] {kernel : Kernel R} {zero : Bool} {alpha : R}
  {countK countN ldc lda a c rows : Nat} {A : Cells R} {b C : Nat → R}
  {va vb : Nat → Nat → R}

theorem readRows_returns {x cols ld : Nat} {values : Nat → Nat → R}
    (hread : ∀ i < rows, ∀ j < cols, A (x + i * ld + j) = some (values i j)) :
    Returns (readRows A x rows cols ld) fun read =>
      ∀ i < rows, ∀ j < cols, read (i * ld + j) = values i j := by
  refine ⟨_, if_pos fun i hi j hj => ?_, fun i hi j hj => ?_⟩
  · rw [hread i hi j hj]
    rfl
  · rw [← add_assoc, hread i hi j hj]
    rfl

/-- What a row of C becomes when a slice of the product is added. -/
def sliceSum (zero : Bool) (alpha : R) (countK : Nat) (va vb : Nat → Nat → R)
    (old : R) (i j : Nat) : R :=
  (if zero then 0 else old) + alpha * ∑ k ∈ range countK, va i k * vb k j

/-- Some rows, and then the rows behind them. -/
theorem Region.sums_append {D E : Nat → R} {handled : Nat}
    (hldc : countN ≤ ldc) (hle : handled ≤ rows)
    (h : Region C D c ldc handled 0 countN fun i j =>
      sliceSum zero alpha countK va vb (C (c + i * ldc + j)) i j)
    (h' : Region D E (c + handled * ldc) ldc (rows - handled) 0 countN
      fun i j => sliceSum zero alpha countK (fun i => va (handled + i)) vb
        (D (c + handled * ldc + i * ldc + j)) i j) :
    Region C E c ldc rows 0 countN fun i j =>
      sliceSum zero alpha countK va vb (C (c + i * ldc + j)) i j := by
  have happend := h.rows_append hldc (h'.congr ?_)
  · rwa [Nat.add_sub_cancel' hle] at happend
  · intro i _ j _ hj
    rw [h.outside hldc (hj.trans_le hldc) (.inl (Nat.le_add_right handled i))
      (by rw [add_mul]; omega), add_assoc c, ← add_mul]
    rfl

/-- One call of the kernel. -/
theorem Kernel.region (kernel : Kernel R) (hldc : countN ≤ ldc) {values : Nat → R}
    (ha : ∀ i < rows, ∀ k < countK, values (i * lda + k) = va i k)
    (hb : ∀ k < countK, ∀ j < countN, b (panelIndex countK k j) = vb k j)
    (call : KernelCall R) (hcall : call =
      ⟨zero, values, b, C, c, countK, rows, countN, lda, ldc, alpha⟩) :
    (kernel.run call).1 ≤ rows ∧
      Region C (kernel.run call).2 c ldc (kernel.run call).1 0 countN fun i j =>
        sliceSum zero alpha countK va vb (C (c + i * ldc + j)) i j := by
  have hle : (kernel.run call).1 ≤ rows := by
    have := kernel.rows_le call
    rwa [hcall] at this ⊢
  have hproduct := kernel.product call (by rw [hcall]; exact hldc)
  have hkept := kernel.kept call (by rw [hcall]; exact hldc)
  simp only [hcall] at hproduct hkept hle ⊢
  refine ⟨hle, fun i hi j _ hj => ?_, fun address hout => ?_⟩
  · rw [hproduct i hi j hj]
    congr 2
    refine sum_congr rfl fun k hk => ?_
    have hk := mem_range.mp hk
    rw [ha i (lt_of_lt_of_le hi hle) k hk, hb k hk j hj]
  · exact hkept address fun i hi j hj => hout i hi j (Nat.zero_le j) hj

/-- The loop over rows handles each row once. -/
theorem kernelRows_returns (hpos : 0 < rows) (hldc : countN ≤ ldc)
    (hread : ∀ i < rows, ∀ k < countK, A (a + i * lda + k) = some (va i k))
    (hb : ∀ k < countK, ∀ j < countN, b (panelIndex countK k j) = vb k j) :
    Returns (kernelRows kernel zero alpha countK countN ldc A lda b rows a c C)
      fun after =>
        Region C after.1 c ldc rows 0 countN (fun i j =>
          sliceSum zero alpha countK va vb (C (c + i * ldc + j)) i j) ∧
        after.2 = c + rows * ldc := by
  induction rows using Nat.strongRecOn generalizing a c C va with
  | ind rows ih =>
    rw [kernelRows, dif_neg (by omega)]
    refine (readRows_returns hread).bind fun values hvalues => ?_
    dsimp only
    generalize hcall : (⟨zero, values, b, C, c, countK, rows, countN, lda, ldc,
      alpha⟩ : KernelCall R) = call
    obtain ⟨hle, hregion⟩ := kernel.region hldc hvalues hb call hcall.symm
    have hone := kernel.rows_pos call (hcall ▸ hpos)
    generalize kernel.run call = result at *
    obtain ⟨handled, D⟩ := result
    dsimp only at *
    rw [mul_comm lda, mul_comm ldc]
    split
    · have hall : handled = rows := by omega
      subst hall
      exact Returns.pure ⟨hregion, rfl⟩
    · have hrest : ∀ i < rows - handled, ∀ k < countK,
          A (a + handled * lda + i * lda + k) = some (va (handled + i) k) := by
        intro i hi k hk
        rw [← hread (handled + i) (by omega) k hk, add_mul, add_assoc a]
      refine (ih (rows - handled) (by omega) (by omega) hrest).mono
        fun after hafter => ⟨hregion.sums_append hldc hle hafter.1, ?_⟩
      rw [hafter.2, add_assoc, ← add_mul, Nat.add_sub_cancel' hle]

/-- The loop over groups of rows of the transposed A. -/
theorem transposedRows_returns {panelA : Cells R} (hpos : 0 < rows)
    (hldc : countN ≤ ldc) (hcountK : countK ≤ defaultStrideK)
    (hread : ∀ i < rows, ∀ k < countK, A (a + k * lda + i) = some (va i k))
    (hb : ∀ k < countK, ∀ j < countN, b (panelIndex countK k j) = vb k j) :
    Returns (transposedRows kernel zero alpha countK countN ldc A lda b rows a c
      panelA C) fun after => Region C after.1 c ldc rows 0 countN fun i j =>
        sliceSum zero alpha countK va vb (C (c + i * ldc + j)) i j := by
  induction rows using Nat.strongRecOn generalizing a c C va panelA with
  | ind rows ih =>
    rw [transposedRows, if_neg (by omega)]
    dsimp only
    have hgroup : 0 < min rows transARows := by
      simp only [transARows]
      omega
    have hle := min_le_left rows transARows
    refine (transposeA_returns hgroup (fun i hi k hk => hread i (by omega) k hk)
      (Nat.mul_le_mul (min_le_right _ _) hcountK)).bind
      fun panel hpanel => ?_
    refine (kernelRows_returns hgroup hldc (fun i hi k hk => by
      rw [zero_add]
      exact hpanel i hi k hk) hb).bind fun result hresult => ?_
    obtain ⟨D, d⟩ := result
    obtain ⟨hregion, rfl⟩ := hresult
    generalize min rows transARows = group at *
    split
    · have hall : group = rows := by omega
      subst hall
      exact Returns.pure hregion
    · have hrest : ∀ i < rows - group, ∀ k < countK,
          A (a + group + k * lda + i) = some (va (group + i) k) := by
        intro i hi k hk
        rw [← hread (group + i) (by omega) k hk]
        congr 1
        omega
      exact (ih (rows - group) (by omega) (by omega) hrest).mono
        fun after hafter => hregion.sums_append hldc hle hafter

end Rows

end Sgemm

end OnnxRuntime
