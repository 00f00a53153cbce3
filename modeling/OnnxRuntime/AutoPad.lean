/-
Pads and output sizes of pooling and convolution along one axis.  The integer
divisions truncate: a kernel that is too large by less than a stride still gives
an output, and a stride beyond the kernel can ask for negative pads.
-/
import OnnxRuntime.ExceptRuns
import Mathlib.Tactic.Linarith

namespace OnnxRuntime

open Int

inductive AutoPadType where
  | notset | valid | sameUpper | sameLower
deriving Repr, DecidableEq

/-- How a size is not computed. -/
inductive PadStop where
  | enforce (message : String)
  | overflow
deriving Repr, DecidableEq

/-- The pads and the output size along an axis. -/
structure AxisSize where
  padHead : Int
  padTail : Int
  out : Int
deriving Repr, DecidableEq

namespace AxisSize

/-- The values of `int64_t`. -/
def IsInt64 (value : Int) : Prop := -2 ^ 63 ≤ value ∧ value < 2 ^ 63

instance : DecidablePred IsInt64 := fun _ => inferInstanceAs (Decidable (_ ∧ _))

/-- The result of an operation on `int64_t`, which overflow leaves undefined. -/
def int64 (value : Int) : Except PadStop Int :=
  if IsInt64 value then .ok value else .error .overflow

/-- `legacy_target_size` and `pad_needed`. -/
def padNeeded (inSize stride kernel : Int) : Except PadStop Int := do
  let legacyTargetSize :=
    (← int64 ((← int64 (inSize + stride)) - 1)).tdiv stride
  let start ← int64 ((← int64 (legacyTargetSize - 1)) * stride)
  int64 ((← int64 (start + kernel)) - inSize)

/-- The windows of a kernel over the padded input. -/
def windows (padded stride kernel : Int) : Except PadStop Int := do
  int64 ((← int64 (padded - kernel)).tdiv stride + 1)

/-- The windows with explicit pads: the source divides exactly, adds one and
truncates the sum. -/
def explicitWindows (inSize stride kernel padHead padTail : Int) :
    Except PadStop Int := do
  let padded ← int64 ((← int64 (inSize + padHead)) + padTail)
  int64 (((← int64 (padded - kernel)) + stride).tdiv stride)

/-- The pad before the input: `SAME_LOWER` rounds the half up. -/
def headPad (lower : Bool) (padNeeded : Int) : Except PadStop Int :=
  if lower then (·.tdiv 2) <$> int64 (padNeeded + 1) else .ok (padNeeded.tdiv 2)

/-- `PoolBase::ComputeSizeAndPad`. -/
def computeSizeAndPad (autoPad : AutoPadType)
    (inSize stride kernel padHead padTail : Int) : Except PadStop AxisSize :=
  match autoPad with
  | .notset => do
    return ⟨padHead, padTail,
      ← explicitWindows inSize stride kernel padHead padTail⟩
  | .valid => do return ⟨0, 0, ← windows inSize stride kernel⟩
  | .sameLower | .sameUpper => do
    let padNeeded ← padNeeded inSize stride kernel
    let head ← headPad (autoPad = .sameLower) padNeeded
    let tail ← int64 (padNeeded - head)
    return ⟨head, tail,
      ← windows (← int64 (inSize + padNeeded)) stride kernel⟩

/-- `ComputePadAndOutputShape`; forced symmetry rounds the padding up to an
even number. -/
def computePadAndOutputShape (forceSymmetric : Bool)
    (inDim stride kernel dilation : Int) (padType : AutoPadType)
    (padHead padTail : Int) : Except PadStop AxisSize := do
  let dkernel ← int64 ((← int64 (dilation * (← int64 (kernel - 1)))) + 1)
  match padType with
  | .notset =>
    return ⟨padHead, padTail,
      ← explicitWindows inDim stride dkernel padHead padTail⟩
  | .valid => return ⟨0, 0, ← windows inDim stride dkernel⟩
  | .sameUpper | .sameLower =>
    if dilation ≠ 1 then
      .error (.enforce ("Dilation not supported for AutoPadType::SAME_UPPER " ++
        "or AutoPadType::SAME_LOWER."))
    else do
      let padNeeded ← padNeeded inDim stride kernel
      let out ← windows (← int64 (inDim + padNeeded)) stride dkernel
      let padNeeded ← if forceSymmetric then
          (· / 2 * 2) <$> int64 (padNeeded + 1) else .ok padNeeded
      let head ← headPad (padType = .sameLower) padNeeded
      return ⟨head, ← int64 (padNeeded - head), out⟩

/-- The size that a kernel gives which moves over the padded input, and none
when it does not fit. -/
def FitsKernel (padded stride kernel out : Int) : Prop :=
  if kernel ≤ padded then out = (padded - kernel) / stride + 1 else out ≤ 0

/-- An output for every stride that begins in the input, with the padding on
two sides. -/
structure SamePads (inSize stride kernel small large out : Int) : Prop where
  out_eq : out = -(-inSize / stride)
  small_nonneg : 0 ≤ small
  close : large = small ∨ large = small + 1
  none_needed : (out - 1) * stride + kernel ≤ inSize → small = 0 ∧ large = 0

/-- The pads and the size that an operator is defined to have. -/
def Prescribed (autoPad : AutoPadType)
    (inSize stride kernel padHead padTail : Int) (size : AxisSize) : Prop :=
  match autoPad with
  | .notset => size.padHead = padHead ∧ size.padTail = padTail ∧
      FitsKernel (inSize + padHead + padTail) stride kernel size.out
  | .valid => size.padHead = 0 ∧ size.padTail = 0 ∧
      FitsKernel inSize stride kernel size.out
  | .sameUpper =>
    SamePads inSize stride kernel size.padHead size.padTail size.out
  | .sameLower =>
    SamePads inSize stride kernel size.padTail size.padHead size.out

/-- Where the last window of automatic padding begins. -/
def lastStart (inSize stride : Int) : Int := (-(-inSize / stride) - 1) * stride

/-- A kernel that does not fit is too large by a stride or more, and the last
window of automatic padding reaches the end of the input. -/
def Regular (autoPad : AutoPadType) (inSize stride kernel : Int) : Prop :=
  match autoPad with
  | .notset => True
  | .valid => kernel ≤ inSize ∨ inSize + stride ≤ kernel
  | .sameUpper | .sameLower =>
    inSize ≤ lastStart inSize stride + kernel

/-- No operation on the extents leaves `int64_t`. -/
def NoOverflow (autoPad : AutoPadType)
    (inSize stride kernel padHead padTail : Int) : Prop :=
  match autoPad with
  | .notset => IsInt64 (inSize + padHead) ∧
      IsInt64 (inSize + padHead + padTail) ∧
      IsInt64 (inSize + padHead + padTail - kernel)
  | .valid => IsInt64 (inSize - kernel)
  | .sameUpper | .sameLower => IsInt64 (inSize + stride) ∧
      IsInt64 (lastStart inSize stride + kernel)

/-- Automatic padding needs a kernel that is not dilated. -/
def Supported (autoPad : AutoPadType) (dilation : Int) : Prop :=
  autoPad = .sameUpper ∨ autoPad = .sameLower → dilation = 1

def exactHead (lower : Bool) (needed : Int) : Int :=
  if lower then (needed + 1).tdiv 2 else needed.tdiv 2

/-- The pads and the size in exact arithmetic. -/
def exactSize (autoPad : AutoPadType)
    (inSize stride kernel padHead padTail : Int) : AxisSize :=
  match autoPad with
  | .notset => ⟨padHead, padTail,
      (inSize + padHead + padTail - kernel + stride).tdiv stride⟩
  | .valid => ⟨0, 0, (inSize - kernel).tdiv stride + 1⟩
  | .sameUpper | .sameLower =>
    let needed := lastStart inSize stride + kernel - inSize
    let head := exactHead (autoPad = .sameLower) needed
    ⟨head, needed - head, -(-inSize / stride)⟩

variable {inSize stride kernel padded padHead padTail out : Int}

section Int64

variable {α : Type} {value : Int} {f : Int → Except PadStop α} {result : α}

@[simp]
theorem int64_eq_ok {result : Int} :
    int64 value = .ok result ↔ IsInt64 value ∧ value = result := by
  unfold int64
  split <;> simp [*]

@[simp]
theorem int64_bind_eq_ok : (int64 value >>= f) = .ok result ↔
      IsInt64 value ∧ f value = .ok result := by
  unfold int64
  split <;> simp [*, bind, Except.bind]

theorem ok_bind : (Except.ok value >>= f) = f value := rfl

end Int64

section Divisions

variable (hstride : 0 < stride)
include hstride

theorem legacyTargetSize_eq (hin : 0 < inSize) :
    (inSize + stride - 1).tdiv stride = -(-inSize / stride) := by
  have hlow := mul_ediv_add_emod (-inSize) stride
  have hnonneg := emod_nonneg (-inSize) hstride.ne'
  have hless := emod_lt_of_pos (-inSize) hstride
  rw [tdiv_eq_ediv_of_nonneg (by omega)]
  apply le_antisymm
  · refine lt_add_one_iff.mp (Int.ediv_lt_of_lt_mul hstride ?_)
    linarith
  · refine Int.le_ediv_of_mul_le hstride ?_
    linarith

theorem lastStart_bounds (hin : 0 < inSize) :
    0 ≤ lastStart inSize stride ∧ lastStart inSize stride < inSize ∧
      0 < -(-inSize / stride) ∧ -(-inSize / stride) ≤ inSize := by
  have hlow := mul_ediv_add_emod (-inSize) stride
  have hnonneg := emod_nonneg (-inSize) hstride.ne'
  have hless := emod_lt_of_pos (-inSize) hstride
  have hpos : 0 < -(-inSize / stride) := by
    have := Int.ediv_neg_of_neg_of_pos (a := -inSize) (by omega) hstride
    omega
  refine ⟨mul_nonneg (by omega) hstride.le, ?_, hpos, ?_⟩
  · unfold lastStart
    linarith
  · nlinarith

theorem fitsKernel_explicit (padded kernel : Int) :
    FitsKernel padded stride kernel
      ((padded - kernel + stride).tdiv stride) := by
  rw [FitsKernel]
  split
  · rw [tdiv_eq_ediv_of_nonneg (by omega),
      add_ediv_of_dvd_right (dvd_refl stride), Int.ediv_self hstride.ne']
  · by_cases hless : 0 ≤ padded - kernel + stride
    · rw [tdiv_eq_zero_of_lt hless (by omega)]
    · have hneg := Int.neg_tdiv (-(padded - kernel + stride)) stride
      have hpos := Int.tdiv_nonneg (a := -(padded - kernel + stride))
        (by omega) hstride.le
      rw [neg_neg] at hneg
      omega

theorem fitsKernel_valid_iff :
    FitsKernel inSize stride kernel ((inSize - kernel).tdiv stride + 1) ↔
      kernel ≤ inSize ∨ inSize + stride ≤ kernel := by
  rw [FitsKernel]
  split
  · rename_i hfits
    rw [tdiv_eq_ediv_of_nonneg (by omega)]
    exact iff_of_true rfl (.inl hfits)
  · rename_i hfits
    have hneg := Int.neg_tdiv (kernel - inSize) stride
    rw [neg_sub, tdiv_eq_ediv_of_nonneg (a := kernel - inSize) (by omega)]
      at hneg
    have hreach : 1 ≤ (kernel - inSize) / stride ↔
        stride ≤ kernel - inSize := by
      rw [Int.le_ediv_iff_mul_le hstride, one_mul]
    omega

/-- A quotient is no farther from zero than what is divided. -/
theorem tdiv_bounds (value : Int) :
    min value 0 ≤ value.tdiv stride ∧ value.tdiv stride ≤ max value 0 := by
  have hpos : ∀ value : Int, 0 ≤ value →
      0 ≤ value.tdiv stride ∧ value.tdiv stride ≤ value := by
    intro value hvalue
    rw [tdiv_eq_ediv_of_nonneg hvalue]
    exact ⟨Int.ediv_nonneg hvalue hstride.le, Int.ediv_le_self _ hvalue⟩
  rcases le_total 0 value with hvalue | hvalue
  · have := hpos value hvalue
    omega
  · have := hpos (-value) (by omega)
    rw [Int.neg_tdiv] at this
    omega

/-- Both sides of the padding add up to what is needed, so neither is negative
exactly when that is not. -/
theorem prescribed_exactSize_iff {autoPad : AutoPadType} :
    Prescribed autoPad inSize stride kernel padHead padTail
        (exactSize autoPad inSize stride kernel padHead padTail) ↔
      Regular autoPad inSize stride kernel := by
  have hlast : (-(-inSize / stride) - 1) * stride =
      lastStart inSize stride := rfl
  cases autoPad with
  | notset =>
    exact iff_of_true ⟨rfl, rfl, fitsKernel_explicit hstride _ _⟩ trivial
  | valid =>
    refine Iff.trans ?_ (fitsKernel_valid_iff hstride)
    exact ⟨fun h => h.2.2, fun h => ⟨rfl, rfl, h⟩⟩
  | sameUpper | sameLower =>
    constructor
    · rintro ⟨-, hsmall, hclose, -⟩
      simp only [exactSize] at hsmall hclose
      change inSize ≤ lastStart inSize stride + kernel
      omega
    · intro henough
      change inSize ≤ lastStart inSize stride + kernel at henough
      refine ⟨rfl, ?_, ?_, fun hnone => ?_⟩ <;>
        simp only [exactSize, exactHead, hlast, reduceCtorEq, decide_true,
          decide_false, Bool.false_eq_true, if_true, if_false] at * <;>
        rw [tdiv_eq_ediv_of_nonneg (by omega)] <;> omega

variable (hkernel : 0 < kernel)
include hkernel

theorem windows_eq_ok (hpadded : IsInt64 padded) :
    windows padded stride kernel = .ok out ↔ IsInt64 (padded - kernel) ∧
      (padded - kernel).tdiv stride + 1 = out := by
  have hbounds := tdiv_bounds hstride (padded - kernel)
  simp only [windows, int64_bind_eq_ok, int64_eq_ok]
  refine and_congr_right fun _ => and_iff_right ?_
  unfold IsInt64 at *
  omega

theorem explicitWindows_eq_ok :
    explicitWindows inSize stride kernel padHead padTail = .ok out ↔
      NoOverflow .notset inSize stride kernel padHead padTail ∧
        (inSize + padHead + padTail - kernel + stride).tdiv stride = out := by
  simp only [explicitWindows, int64_bind_eq_ok, int64_eq_ok, NoOverflow,
    and_assoc]
  refine and_congr_right fun _ => and_congr_right fun hpadded =>
    and_congr_right fun hspan => and_iff_right ?_
  have hfits := fitsKernel_explicit hstride (inSize + padHead + padTail) kernel
  have hbounds := tdiv_bounds hstride
    (inSize + padHead + padTail - kernel + stride)
  unfold FitsKernel at hfits
  unfold IsInt64 at *
  split at hfits
  · have hquotient := Int.ediv_le_self
      (a := inSize + padHead + padTail - kernel) stride (by omega)
    omega
  · omega

variable (hin : 0 < inSize) (hsize : IsInt64 inSize)
include hin hsize

theorem padNeeded_eq_ok {needed : Int} :
    padNeeded inSize stride kernel = .ok needed ↔
      NoOverflow .sameUpper inSize stride kernel 0 0 ∧
        lastStart inSize stride + kernel - inSize = needed := by
  have hstart := lastStart_bounds hstride hin
  have hlast : (-(-inSize / stride) - 1) * stride =
      lastStart inSize stride := rfl
  simp only [padNeeded, int64_bind_eq_ok, int64_eq_ok, NoOverflow, and_assoc,
    legacyTargetSize_eq hstride hin, hlast]
  unfold IsInt64 at *
  constructor
  · rintro ⟨hsum, -, -, -, hend, -, hneeded⟩
    exact ⟨hsum, hend, hneeded⟩
  · rintro ⟨hsum, hend, hneeded⟩
    refine ⟨hsum, ?_, ?_, ?_, hend, ?_, hneeded⟩ <;> omega

/-- Nothing overflows after the pads that are needed, and the size is the
number of strides that begin in the input. -/
theorem windows_padNeeded
    (hno : NoOverflow .sameUpper inSize stride kernel 0 0) {needed : Int}
    (hneeded : lastStart inSize stride + kernel - inSize = needed) :
    (int64 (inSize + needed) >>= fun padded => windows padded stride kernel) =
        .ok (-(-inSize / stride)) ∧
      (∀ lower, headPad lower needed = .ok (exactHead lower needed)) ∧
      ∀ lower, int64 (needed - exactHead lower needed) =
        .ok (needed - exactHead lower needed) := by
  have hstart := lastStart_bounds hstride hin
  have hend := hno.2
  have hupper := tdiv_bounds two_pos needed
  have hlower := tdiv_bounds two_pos (needed + 1)
  have hsum : inSize + needed = lastStart inSize stride + kernel := by omega
  have hout : (lastStart inSize stride + kernel - kernel).tdiv stride + 1 =
      -(-inSize / stride) := by
    rw [add_sub_cancel_right, lastStart, mul_tdiv_cancel _ hstride.ne',
      sub_add_cancel]
  have hone : int64 (needed + 1) = .ok (needed + 1) := by
    rw [int64_eq_ok]
    unfold IsInt64 at *
    omega
  rw [hsum, int64_bind_eq_ok, windows_eq_ok hstride hkernel hend, hout]
  simp only [int64_eq_ok, and_true, hend, true_and]
  refine ⟨?_, fun lower => ?_, fun lower => ?_⟩
  · unfold IsInt64 at *
    omega
  · simp only [headPad, hone]
    cases lower <;> rfl
  · unfold IsInt64 exactHead at *
    split <;> omega

theorem computeSizeAndPad_eq_ok {autoPad : AutoPadType} {size : AxisSize} :
    computeSizeAndPad autoPad inSize stride kernel padHead padTail = .ok size ↔
      NoOverflow autoPad inSize stride kernel padHead padTail ∧
        exactSize autoPad inSize stride kernel padHead padTail = size := by
  cases autoPad with
  | notset =>
    simp only [computeSizeAndPad, except_bind_eq_ok, except_pure_eq_ok,
      explicitWindows_eq_ok hstride hkernel, and_assoc, exists_and_left,
      exists_eq_left', exactSize]
  | valid =>
    simp only [computeSizeAndPad, except_bind_eq_ok, except_pure_eq_ok,
      windows_eq_ok hstride hkernel hsize, and_assoc, exists_and_left,
      exists_eq_left', exactSize, NoOverflow]
  | sameUpper | sameLower =>
    simp only [computeSizeAndPad, except_bind_eq_ok (x := padNeeded _ _ _),
      padNeeded_eq_ok hstride hkernel hin hsize, and_assoc, exists_and_left,
      exists_eq_left']
    refine and_congr_right fun hno => ?_
    obtain ⟨hout, hhead, htail⟩ :=
      windows_padNeeded hstride hkernel hin hsize hno rfl
    simp only [← bind_assoc, hout, hhead, ok_bind, htail]
    exact ⟨Except.ok.inj, congrArg _⟩

/-- Where convolution supports the dilation, it computes what pooling does with
the dilated kernel. -/
theorem computePadAndOutputShape_eq_ok {autoPad : AutoPadType} {dilation : Int}
    (hdilation : 0 < dilation) {size : AxisSize} :
    computePadAndOutputShape false inSize stride kernel dilation autoPad padHead
        padTail = .ok size ↔
      (Supported autoPad dilation ∧ IsInt64 (dilation * (kernel - 1) + 1)) ∧
        computeSizeAndPad autoPad inSize stride (dilation * (kernel - 1) + 1)
          padHead padTail = .ok size := by
  have hspan : kernel - 1 ≤ dilation * (kernel - 1) :=
    le_mul_of_one_le_left (by omega) hdilation
  have hkernels : (IsInt64 (kernel - 1) ∧ IsInt64 (dilation * (kernel - 1))) ∧
      IsInt64 (dilation * (kernel - 1) + 1) ↔
        IsInt64 (dilation * (kernel - 1) + 1) := by
    unfold IsInt64
    omega
  simp only [computePadAndOutputShape, int64_bind_eq_ok, ← and_assoc, hkernels]
  rw [and_comm (a := Supported _ _), and_assoc]
  refine and_congr_right fun _ => ?_
  cases autoPad with
  | notset | valid => simp [Supported, computeSizeAndPad]
  | sameUpper | sameLower =>
    by_cases hone : dilation = 1
    · subst hone
      have hkernel' : 1 * (kernel - 1) + 1 = kernel := by omega
      simp only [Supported, hkernel', computeSizeAndPad, ne_eq, not_true,
        if_false, except_bind_eq_ok (x := padNeeded _ _ _), Bool.false_eq_true,
        padNeeded_eq_ok hstride hkernel hin hsize, and_assoc, exists_and_left,
        exists_eq_left', implies_true, true_and]
      refine and_congr_right fun hno => ?_
      obtain ⟨hout, hhead, htail⟩ :=
        windows_padNeeded hstride hkernel hin hsize hno rfl
      simp only [← bind_assoc, hout, ok_bind, hhead, htail]
    · simp [Supported, hone]

end Divisions

/-- Pooling and convolution give an axis its pads and size exactly when nothing
overflows, the axis is regular and, for convolution, its dilation supported. -/
theorem prescribed_iff (autoPad : AutoPadType)
    (inSize stride kernel dilation padHead padTail : Int)
    (hin : 0 < inSize) (hsize : IsInt64 inSize) (hstride : 0 < stride)
    (hkernel : 0 < kernel) (hdilation : 0 < dilation) :
    ((∃ size, computeSizeAndPad autoPad inSize stride kernel padHead padTail =
        .ok size ∧
        Prescribed autoPad inSize stride kernel padHead padTail size) ↔
      NoOverflow autoPad inSize stride kernel padHead padTail ∧
        Regular autoPad inSize stride kernel) ∧
    ((∃ size, computePadAndOutputShape false inSize stride kernel dilation
        autoPad padHead padTail = .ok size ∧
        Prescribed autoPad inSize stride (dilation * (kernel - 1) + 1) padHead
          padTail size) ↔
      (Supported autoPad dilation ∧ IsInt64 (dilation * (kernel - 1) + 1)) ∧
        NoOverflow autoPad inSize stride (dilation * (kernel - 1) + 1) padHead
          padTail ∧
        Regular autoPad inSize stride (dilation * (kernel - 1) + 1)) := by
  have hdkernel : 0 < dilation * (kernel - 1) + 1 :=
    lt_add_one_of_le (mul_nonneg hdilation.le (by omega))
  simp only [computePadAndOutputShape_eq_ok hstride hkernel hin hsize hdilation,
    computeSizeAndPad_eq_ok hstride hkernel hin hsize,
    computeSizeAndPad_eq_ok hstride hdkernel hin hsize, and_assoc,
    exists_and_left, exists_eq_left', prescribed_exactSize_iff hstride,
    and_self]

theorem prescribed_dilated :
    (∃ size, computeSizeAndPad .valid 7 2 3 0 0 = .ok size ∧
      Prescribed .valid 7 2 3 0 0 size) ∧
    ∃ size, computePadAndOutputShape false 7 2 3 2 .valid 0 0 = .ok size ∧
      Prescribed .valid 7 2 (2 * (3 - 1) + 1) 0 0 size :=
  have h := prescribed_iff .valid 7 2 3 2 0 0 (by decide) (by decide)
    (by decide) (by decide) (by decide)
  ⟨h.1.mpr ⟨(by decide : IsInt64 (7 - 3)), .inl (by decide)⟩,
    h.2.mpr ⟨⟨by simp [Supported], by decide⟩, (by decide : IsInt64 (7 - 5)),
      .inl (by decide)⟩⟩

/-- An input of two elements, a kernel of three and stride two: one output where
the kernel does not fit.  An input of five elements, a kernel of one and stride
three: the pad behind the input is negative. -/
theorem not_prescribed_valid_sameUpper :
    computeSizeAndPad .valid 2 2 3 0 0 = .ok ⟨0, 0, 1⟩ ∧
    ¬ Prescribed .valid 2 2 3 0 0 ⟨0, 0, 1⟩ ∧
    computeSizeAndPad .sameUpper 5 3 1 0 0 = .ok ⟨0, -1, 2⟩ ∧
    ¬ Prescribed .sameUpper 5 3 1 0 0 ⟨0, -1, 2⟩ := by
  refine ⟨rfl, ?_, rfl, ?_⟩
  · rintro ⟨-, -, hout⟩
    exact absurd hout (by decide : ¬ (1 : Int) ≤ 0)
  · rintro ⟨-, -, hclose, -⟩
    exact absurd hclose (by decide : ¬ ((-1 : Int) = 0 ∨ (-1 : Int) = 0 + 1))

end AxisSize

end OnnxRuntime
