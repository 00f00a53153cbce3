/-
A whole matrix product on one thread. The slices along K add up to the sum over
all of K, and the slices along N cover the columns of C once.
-/
import OnnxRuntime.SgemmProduct

namespace OnnxRuntime

open Finset

namespace Sgemm

variable {R : Type}

/-- The elements of `op(A)` and `op(B)` can be read and have these values. -/
structure Elements (call : Call R) (va vb : Nat → Nat → R) : Prop where
  a_eq : ∀ i < call.M, ∀ k < call.K,
    call.A (call.a + elementIndex call.transA call.lda i k) = some (va i k)
  b_eq : ∀ k < call.K, ∀ j < call.N,
    call.B (call.b + elementIndex call.transB call.ldb k j) = some (vb k j)

/-- A product that is not empty and has room in the rows of C. -/
structure Operands (call : Call R) (va vb : Nat → Nat → R) : Prop extends
    Elements call va vb where
  posM : 0 < call.M
  posK : 0 < call.K
  ldc_le : call.N ≤ call.ldc

/-- The slices of these strides fit into the panel for B. -/
structure Strides.Fits (s : Strides) : Prop where
  blocks : ∃ f, s.strideN = 16 * 2 ^ f
  area : s.strideN * s.strideK ≤ panelBSize

section StrideLoops

variable {s : Strides}

theorem widenN_fits (K : Nat) (h : s.Fits) :
    (widenN K s).Fits ∧ (widenN K s).strideK ≤ s.strideK := by
  fun_induction widenN K s with
  | case1 s hwiden ih =>
    obtain ⟨f, hf⟩ := h.blocks
    have hhalf := Nat.div_mul_le_self s.strideK 2
    have hnext := ih ⟨⟨f + 1, by dsimp only; rw [hf]; ring⟩, ?_⟩
    · exact ⟨hnext.1, le_trans hnext.2 (Nat.div_le_self _ _)⟩
    · calc s.strideN * 2 * (s.strideK / 2)
          = s.strideN * (s.strideK / 2 * 2) := by ring
        _ ≤ s.strideN * s.strideK := Nat.mul_le_mul_left _ hhalf
        _ ≤ panelBSize := h.area
  | case2 s _ => exact ⟨h, le_refl _⟩

theorem widenK_fits (N : Nat) (h : s.Fits) : (widenK N s).Fits := by
  fun_induction widenK N s with
  | case1 s hwiden ih =>
    obtain ⟨f, hf⟩ := h.blocks
    have hhalf := Nat.div_mul_le_self s.strideN 2
    refine ih ⟨?_, ?_⟩
    · cases f with
      | zero => omega
      | succ f => exact ⟨f, by dsimp only; rw [hf]; omega⟩
    · calc s.strideN / 2 * (s.strideK * 2)
          = s.strideN / 2 * 2 * s.strideK := by ring
        _ ≤ s.strideN * s.strideK := Nat.mul_le_mul_right _ hhalf
        _ ≤ panelBSize := h.area
  | case2 s _ => exact h

/-- Strides along K beyond the panel for A are only used when A is read as it
is. -/
theorem strides_returns (call : Call R) (hK : 0 < call.K) :
    Returns call.strides fun s =>
      s.Fits ∧ (call.transA → s.strideK ≤ defaultStrideK) := by
  have hdefault : Strides.Fits
      ⟨defaultStrideN, defaultStrideK, by decide, by decide⟩ :=
    ⟨⟨3, rfl⟩, le_refl _⟩
  rw [Call.strides]
  split
  · rw [if_neg (by omega)]
    have hwide := widenN_fits call.K hdefault
    exact Returns.pure ⟨hwide.1, fun _ => hwide.2⟩
  · split
    · exact Returns.pure ⟨hdefault, fun _ => le_refl _⟩
    · rename_i htrans
      exact Returns.pure ⟨widenK_fits call.N hdefault, fun h => absurd h htrans⟩

theorem Strides.Fits.panel {countN countK : Nat} (h : s.Fits)
    (hN : countN ≤ s.strideN) (hK : countK ≤ s.strideK) :
    roundUp countN * countK ≤ panelBSize := by
  obtain ⟨f, hf⟩ := h.blocks
  have hround : roundUp countN ≤ s.strideN := by
    rw [roundUp]
    omega
  exact le_trans (Nat.mul_le_mul hround hK) h.area

end StrideLoops

section Slices

variable [CommRing R] {kernel : Kernel R} {call : Call R}
  {va vb : Nat → Nat → R} {n countN k countK : Nat}

theorem exists_panelIndex {index : Nat}
    (hindex : index < roundUp countN * countK) :
    ∃ k < countK, ∃ j < roundUp countN, panelIndex countK k j = index := by
  have hpos : 0 < 16 * countK := by
    by_contra hzero
    have : countK = 0 := by omega
    simp [this] at hindex
  refine ⟨index % (16 * countK) / 16, ?_,
    16 * (index / (16 * countK)) + index % 16, ?_, ?_⟩
  · have := Nat.mod_lt index hpos
    omega
  · have hblock : index / (16 * countK) < (countN + 15) / 16 := by
      rw [Nat.div_lt_iff_lt_mul hpos]
      calc index < roundUp countN * countK := hindex
        _ = (countN + 15) / 16 * (16 * countK) := by rw [roundUp]; ring
    rw [roundUp]
    omega
  · rw [panelIndex_block (Nat.mod_lt _ (by decide))]
    have hdiv := Nat.div_add_mod index (16 * countK)
    have hmod : index % (16 * countK) % 16 = index % 16 :=
      Nat.mod_mul_right_mod index 16 countK
    rw [mul_comm] at hdiv
    omega

variable {panel : Cells R} {w : Workspace R} {s : Strides}

theorem readPanel_returns {values : Nat → Nat → R}
    (h : Packed panel countK (roundUp countN) values) :
    Returns (readRows panel 0 1 (roundUp countN * countK) 0) fun b =>
      ∀ k < countK, ∀ j < roundUp countN,
        b (panelIndex countK k j) = values k j := by
  refine ⟨_, if_pos fun i hi index hindex => ?_, fun k hk j hj => ?_⟩
  · obtain ⟨k, hk, j, hj, rfl⟩ := exists_panelIndex hindex
    rw [Nat.mul_zero, Nat.zero_add, h k hk j hj]
    rfl
  · rw [Nat.zero_add, h k hk j hj]
    rfl

section Elements

variable (helements : Elements call va vb)
include helements

theorem packB_returns (hpos : 0 < countK)
    (hn : n + countN ≤ call.N) (hk : k + countK ≤ call.K)
    (hfit : roundUp countN * countK ≤ panelBSize) :
    Returns (packB call n countN k countK panel) fun after =>
      Packed after countK (roundUp countN)
        (padded countN fun x y => vb (k + x) (n + y)) := by
  rw [packB]
  split
  · rename_i htrans
    refine transposePackB_returns (fun x hx j hj => ?_) hfit
    rw [← helements.b_eq (k + x) (by omega) (n + j) (by omega), elementIndex,
      if_pos htrans]
    congr 1
    ring
  · rename_i htrans
    refine copyPackB_returns hpos (fun x hx j hj => ?_) hfit
    rw [← helements.b_eq (k + x) (by omega) (n + j) (by omega), elementIndex,
      if_neg htrans]
    congr 1
    ring

theorem multiplyRows_returns {zero : Bool} {b : Nat → R} (hM : 0 < call.M)
    (hk : k + countK ≤ call.K) (hldc : countN ≤ call.ldc)
    (htransA : call.transA → countK ≤ defaultStrideK)
    (hb : ∀ x < countK, ∀ j < countN,
      b (panelIndex countK x j) = vb (k + x) (n + j)) :
    Returns (multiplyRows kernel call zero b n countN k countK w) fun after =>
      Region w.C after.C (call.c + n) call.ldc call.M 0 countN fun i j =>
        sliceSum zero call.alpha countK (fun i x => va i (k + x))
          (fun x j => vb (k + x) (n + j))
          (w.C (call.c + n + i * call.ldc + j)) i j := by
  rw [multiplyRows]
  split
  · rename_i htrans
    refine (transposedRows_returns hM hldc (htransA htrans)
      (fun i hi x hx => ?_) hb).bind fun after hafter => Returns.pure hafter
    rw [← helements.a_eq i hi (k + x) (by omega), elementIndex, if_pos htrans]
    congr 1
    ring
  · rename_i htrans
    refine (kernelRows_returns hM hldc
      (fun i hi x hx => ?_) hb).bind fun after hafter => Returns.pure hafter.1
    rw [← helements.a_eq i hi (k + x) (by omega), elementIndex, if_neg htrans]
    congr 1
    ring

end Elements

variable [DecidableEq R]

/-- The element of C after the slices from `k` on, where it was `old`. -/
def sumFrom (call : Call R) (va vb : Nat → Nat → R) (k hi : Nat) (old : R)
    (i j : Nat) : R :=
  (if k = 0 ∧ call.beta = 0 then 0 else old) +
    call.alpha * ∑ x ∈ Ico k hi, va i x * vb x j

theorem slice_returns (h : Operands call va vb)
    (hpos : 0 < countK) (hn : n + countN ≤ call.N) (hk : k + countK ≤ call.K)
    (hfit : roundUp countN * countK ≤ panelBSize)
    (htransA : call.transA → countK ≤ defaultStrideK) :
    Returns (slice kernel call n countN k countK w) fun after =>
      Region w.C after.C call.c call.ldc call.M n (n + countN) fun i j =>
        sumFrom call va vb k (k + countK) (w.C (call.c + i * call.ldc + j))
          i j := by
  have hldc := h.ldc_le
  refine (packB_returns h.toElements hpos hn hk hfit).bind
    fun panel hpanel => ?_
  refine (readPanel_returns hpanel).bind fun b hb => ?_
  have hcolumns : ∀ x < countK, ∀ j < countN,
      b (panelIndex countK x j) = vb (k + x) (n + j) := by
    intro x hx j hj
    rw [hb x hx j (by rw [roundUp]; omega), padded, if_pos hj]
  refine (multiplyRows_returns h.toElements h.posM hk (by omega) htransA
    hcolumns).mono fun after hafter => (hafter.congr ?_).shift
  intro i _ j _ _
  rw [sliceSum, sumFrom, sum_Ico_eq_sum_range, Nat.add_sub_cancel_left]
  simp only [decide_eq_true_eq]
  rw [show call.c + n + i * call.ldc + j = call.c + i * call.ldc + (n + j) by
    omega]

theorem sumFrom_add {mid hi : Nat} {old : R} {i j : Nat} (hlo : k < mid)
    (hmid : mid ≤ hi) :
    sumFrom call va vb mid hi (sumFrom call va vb k mid old i j) i j =
      sumFrom call va vb k hi old i j := by
  rw [sumFrom, if_neg (by omega), sumFrom, sumFrom, add_assoc, ← mul_add,
    sum_Ico_consecutive _ (le_of_lt hlo) hmid]

/-- The slices from `k` on. -/
theorem slicesK_returns (h : Operands call va vb) (hn : n + countN ≤ call.N)
    (hfits : s.Fits) (hcountN : countN ≤ s.strideN)
    (htransA : call.transA → s.strideK ≤ defaultStrideK) (hk : k ≤ call.K) :
    Returns (slicesK kernel call s n countN k w) fun after =>
      Region w.C after.C call.c call.ldc call.M n (n + countN) fun i j =>
        sumFrom call va vb k call.K (w.C (call.c + i * call.ldc + j)) i j := by
  fun_induction slicesK kernel call s n countN k w with
  | case1 k w hlt countK ih =>
    have hposK := s.posK
    refine (slice_returns h (by omega) hn (by omega)
      (hfits.panel hcountN (by omega))
      fun htrans => le_trans (by omega) (htransA htrans)).bind
      fun mid hmid => ?_
    refine (ih mid (by omega)).mono fun after hafter =>
      hmid.again (hafter.congr fun i hi j hle hlt => ?_)
    rw [hmid.written i hi j hle hlt, sumFrom_add (by omega) (by omega)]
  | case2 k w hge =>
    refine Returns.pure (Region.unchanged.congr fun i hi j _ _ => ?_)
    have hend : k = call.K := by omega
    have hposK := h.posK
    rw [sumFrom, if_neg (by omega), hend, Ico_self, sum_empty, mul_zero,
      add_zero]

theorem scaleColumns_returns {C : Nat → R} (hM : 0 < call.M)
    (hldc : countN ≤ call.ldc) :
    Returns (scaleColumns call n countN C) fun after =>
      Region C after call.c call.ldc call.M n (n + countN) fun i j =>
        if call.beta = 0 then C (call.c + i * call.ldc + j)
        else call.beta * C (call.c + i * call.ldc + j) := by
  rw [scaleColumns]
  split
  · rename_i hbeta
    refine (multiplyBeta_returns hM hldc).mono fun after hafter =>
      (hafter.congr fun i _ j _ _ => ?_).shift
    rw [if_neg hbeta.1]
    congr 2
    omega
  · rename_i hbeta
    refine Returns.pure (Region.unchanged.congr fun i hi j _ _ => ?_)
    split
    · rfl
    · rename_i hzero
      have hone : call.beta = 1 := by
        by_contra hone
        exact hbeta ⟨hzero, hone⟩
      rw [hone, one_mul]

/-- The element of C that a product should leave. -/
def gemm (call : Call R) (va vb : Nat → Nat → R) (old : R) (i j : Nat) : R :=
  call.alpha * ∑ k ∈ range call.K, va i k * vb k j + call.beta * old

/-- The product is in C, and nothing else has changed. -/
def Computes (call : Call R) (va vb : Nat → Nat → R) (C after : Nat → R) :
    Prop :=
  Region C after call.c call.ldc call.M 0 call.N fun i j =>
    gemm call va vb (C (call.c + i * call.ldc + j)) i j

/-- The slices from column `n` on. -/
theorem slicesN_returns (h : Operands call va vb) (hfits : s.Fits)
    (htransA : call.transA → s.strideK ≤ defaultStrideK) :
    Returns (slicesN kernel call s n w) fun after =>
      Region w.C after.C call.c call.ldc call.M n call.N fun i j =>
        gemm call va vb (w.C (call.c + i * call.ldc + j)) i j := by
  fun_induction slicesN kernel call s n w with
  | case1 n w hlt countN ih =>
    have hldc := h.ldc_le
    refine (scaleColumns_returns h.posM (by omega)).bind fun C hC => ?_
    refine (slicesK_returns h (by omega) hfits
      (by omega) htransA (Nat.zero_le _)).bind fun mid hmid => ?_
    have hslice : Region w.C mid.C call.c call.ldc call.M n (n + countN)
        fun i j => gemm call va vb (w.C (call.c + i * call.ldc + j)) i j := by
      refine hC.again (hmid.congr fun i hi j hle hlt => ?_)
      dsimp only
      rw [hC.written i hi j hle hlt, sumFrom, gemm, ← range_eq_Ico]
      by_cases hbeta : call.beta = 0
      · rw [if_pos ⟨rfl, hbeta⟩, hbeta]
        ring
      · rw [if_neg fun h => hbeta h.2, if_neg hbeta]
        ring
    refine (ih mid).mono fun after hafter =>
      hslice.columns_append (by omega) (by omega) hldc
        (hafter.congr fun i hi j hle hlt => ?_)
    rw [hslice.outside (by omega) (by omega) (.inr (.inr hle)) rfl]
  | case2 n w hge => exact Returns.pure (Region.no_columns (by omega))

end Slices

section Operation

variable [CommRing R] [DecidableEq R] {call : Call R} {va vb : Nat → Nat → R}
  {platform : Platform R} {C : Nat → R}

omit [DecidableEq R] in
theorem readB_returns (helements : Elements call va vb) :
    Returns (readB call) fun b => ∀ k < call.K, ∀ j < call.N,
      b (elementIndex call.transB call.ldb k j) = vb k j := by
  have hcell := helements.b_eq
  simp only [elementIndex] at hcell ⊢
  rw [readB]
  split
  · rename_i htrans
    simp only [htrans, if_true] at hcell ⊢
    refine (readRows_returns (fun j hj k hk => ?_)).mono
      fun b hb k hk j hj => hb j hj k hk
    rw [add_assoc]
    exact hcell k hk j hj
  · rename_i htrans
    simp only [htrans] at hcell ⊢
    refine readRows_returns fun k hk j hj => ?_
    rw [add_assoc]
    exact hcell k hk j hj

omit [DecidableEq R] in
/-- The kernel for one row computes the plain product. -/
theorem KernelM1.region (kernel : KernelM1 R call.transB) {a b : Nat → R}
    (hM : call.M = 1) (halpha : call.alpha = 1) (hK : 0 < call.K)
    (ha : ∀ k < call.K, a k = va 0 k)
    (hb : ∀ k < call.K, ∀ j < call.N,
      b (elementIndex call.transB call.ldb k j) = vb k j) :
    Computes call va vb C
      (kernel.run a b C call.c call.K call.N call.ldb call.beta) where
  written i hi j _ hj := by
    obtain rfl : i = 0 := by omega
    rw [zero_mul, add_zero,
      kernel.product _ _ _ _ _ _ _ _ (.inr hK) j hj, gemm, halpha, one_mul]
    congr 1
    refine sum_congr rfl fun k hk => ?_
    rw [ha k (mem_range.mp hk), hb k (mem_range.mp hk) j hj]
  kept address hout := by
    refine kernel.kept _ _ _ _ _ _ _ _ address fun _ j hj heq => ?_
    exact hout 0 (by omega) j (Nat.zero_le j) hj (by rw [heq]; omega)

theorem applies_of_kernelM1 {kernel : KernelM1 R call.transB}
    (h : call.kernelM1 platform = some kernel) :
    call.M = 1 ∧ call.transA = false ∧ call.alpha = 1 ∧
      (call.beta = 0 ∨ call.beta = 1) := by
  rw [Call.kernelM1] at h
  split at h
  · assumption
  · cases h

/-- Where the kernel for one row applies, it is all that runs. -/
theorem operation_of_kernelM1 {kernel : KernelM1 R call.transB}
    (hkernel : call.kernelM1 platform = some kernel)
    (helements : Elements call va vb) :
    Returns (operation call platform C) fun after => ∃ a b,
      after = kernel.run a b C call.c call.K call.N call.ldb call.beta ∧
      (∀ k < call.K, a k = va 0 k) ∧ ∀ k < call.K, ∀ j < call.N,
        b (elementIndex call.transB call.ldb k j) = vb k j := by
  obtain ⟨hone, htrans, -⟩ := applies_of_kernelM1 hkernel
  have hrow : ∀ i < 1, ∀ k < call.K,
      call.A (call.a + i * call.lda + k) = some (va i k) := by
    intro i hi k hk
    have hcell := helements.a_eq i (by omega) k hk
    rwa [htrans, elementIndex, if_neg (by decide), ← add_assoc] at hcell
  rw [operation, hkernel]
  refine (readRows_returns hrow).bind fun a ha => ?_
  refine (readB_returns helements).bind fun b hb =>
    Returns.pure ⟨a, b, rfl, fun k hk => ?_, hb⟩
  have := ha 0 one_pos k hk
  rwa [zero_mul, Nat.zero_add] at this

/-- One thread computes its product and touches no other element of C. -/
theorem operation_returns (h : Operands call va vb) :
    Returns (operation call platform C) (Computes call va vb C) := by
  cases hkernel : call.kernelM1 platform with
  | some kernel =>
    obtain ⟨hone, -, halpha, -⟩ := applies_of_kernelM1 hkernel
    refine (operation_of_kernelM1 hkernel h.toElements).mono ?_
    rintro after ⟨a, b, rfl, ha, hb⟩
    exact kernel.region hone halpha h.posK ha hb
  | none =>
    rw [operation, hkernel]
    refine (strides_returns call h.posK).bind fun s hs => ?_
    exact (slicesN_returns h hs.1 hs.2).bind
      fun after hafter => Returns.pure hafter

end Operation

end Sgemm

end OnnxRuntime
