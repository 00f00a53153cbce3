/-
The matrix product on one thread: slices of B along N and K are packed into a
panel, and a platform kernel multiplies groups of rows of A with it.
-/
import OnnxRuntime.SgemmPacking
import Mathlib.Algebra.BigOperators.Ring.Finset
import Mathlib.Algebra.BigOperators.Intervals

namespace OnnxRuntime

open Finset

namespace Sgemm

/-- `MLAS_SGEMM_STRIDEN`, `MLAS_SGEMM_STRIDEK` and `MLAS_SGEMM_TRANSA_ROWS`. -/
def defaultStrideN : Nat := 128

def defaultStrideK : Nat := 128

def transARows : Nat := 12

def panelASize : Nat := transARows * defaultStrideK

def panelBSize : Nat := defaultStrideN * defaultStrideK

variable {R : Type}

section Kernels

variable [CommRing R]

/-- The arguments of a kernel: rows `a` of A, the packed panel `b`, and where
the rows of C begin. -/
structure KernelCall (R : Type) where
  zero : Bool
  a : Nat → R
  b : Nat → R
  C : Nat → R
  c : Nat
  countK : Nat
  countM : Nat
  countN : Nat
  lda : Nat
  ldc : Nat
  alpha : R

/-- The contract of the platform kernels: between one and all rows are handled,
whose products with the panel are stored to, or added to, the first columns of
C. -/
structure Kernel (R : Type) [CommRing R] where
  run : KernelCall R → Nat × (Nat → R)
  rows_pos : ∀ call, 0 < call.countM → 0 < (run call).1
  rows_le : ∀ call, (run call).1 ≤ call.countM
  product : ∀ call, call.countN ≤ call.ldc →
    ∀ r < (run call).1, ∀ j < call.countN,
      (run call).2 (call.c + r * call.ldc + j) =
        (if call.zero then 0 else call.C (call.c + r * call.ldc + j)) +
          call.alpha * ∑ k ∈ range call.countK,
            call.a (r * call.lda + k) * call.b (panelIndex call.countK k j)
  kept : ∀ call, call.countN ≤ call.ldc → ∀ address,
    (∀ r < (run call).1, ∀ j < call.countN,
      address ≠ call.c + r * call.ldc + j) →
    (run call).2 address = call.C address

/-- The place of `op(X)[i, j]` in the matrix `X`. -/
def elementIndex (trans : Bool) (ld i j : Nat) : Nat :=
  if trans then j * ld + i else i * ld + j

/-- The contract of a kernel for one row of A, with alpha one. The kernel for a
B that is not transposed steps along K, and writes nothing when K is zero. -/
structure KernelM1 (R : Type) [CommRing R] (transB : Bool) where
  run : (a b C : Nat → R) → (c countK countN ldb : Nat) → (beta : R) → Nat → R
  product : ∀ a b C c countK countN ldb beta, transB ∨ 0 < countK →
    ∀ j < countN, run a b C c countK countN ldb beta (c + j) =
      ∑ k ∈ range countK, a k * b (elementIndex transB ldb k j) +
        beta * C (c + j)
  kept : ∀ a b C c countK countN ldb beta address,
    (transB ∨ 0 < countK → ∀ j < countN, address ≠ c + j) →
      run a b C c countK countN ldb beta address = C address

/-- `MlasPlatform`; there need not be kernels for one row. -/
structure Platform (R : Type) [CommRing R] where
  kernel : Kernel R
  kernelM1 : (transB : Bool) → Option (KernelM1 R transB)

end Kernels

section Model

variable [CommRing R]

/-- The values of a matrix from a pointer on, if all of its elements can be
read. -/
def readRows (X : Cells R) (x rows cols ld : Nat) : Option (Nat → R) :=
  if ∀ i < rows, ∀ j < cols, (X (x + i * ld + j)).isSome then
    some fun index => (X (x + index)).getD 0
  else none

/-- `count` elements of the row from `c` on are multiplied by beta. -/
def scaleLanes (beta : R) (c : Nat) : Nat → (Nat → R) → Nat → R
  | 0, C => C
  | count + 1, C =>
    let C := scaleLanes beta c count C
    Function.update C (c + count) (C (c + count) * beta)

/-- A row of C, four elements at a time and then one by one. -/
def scaleRow (beta : R) (n c : Nat) (C : Nat → R) : Nat → R :=
  if 4 ≤ n then scaleRow beta (n - 4) (c + 4) (scaleLanes beta c 4 C)
  else if 0 < n then scaleRow beta (n - 1) (c + 1) (scaleLanes beta c 1 C)
  else C
termination_by n

/-- `MlasSgemmMultiplyBeta`. -/
def multiplyBeta (countM countN ldc c : Nat) (beta : R) (C : Nat → R) :
    Option (Nat → R) := do
  let result ← doWhile (fun s : (Nat → R) × Nat =>
    some (scaleRow beta countN s.2 s.1, s.2 + ldc)) countM (C, c)
  return result.1

/-- `width` rows of the source become columns of the panel. -/
def transposeAColumns (A : Cells R) (lda ldd countY width : Nat)
    (s : PackCursor R) : Option (PackCursor R) := do
  let result ← doWhile (fun s : PackCursor R => do
    let panel ← gather panelASize A s.dst s.src lda width s.panel
    return (⟨panel, s.dst + ldd, s.src + 1⟩ : PackCursor R)) countY s
  return ⟨result.panel, s.dst + width, s.src + lda * width⟩

/-- The blocks of four columns, and what remains of `CountX`. -/
def transposeABlocks (A : Cells R) (lda ldd countY countX : Nat)
    (s : PackCursor R) : Option (PackCursor R × Nat) :=
  if 4 ≤ countX then do
    let s ← transposeAColumns A lda ldd countY 4 s
    transposeABlocks A lda ldd countY (countX - 4) s
  else return (s, countX)
termination_by countX

/-- `width` columns, if so many remain. -/
def transposeARest (A : Cells R) (lda ldd countY width : Nat)
    (s : PackCursor R × Nat) : Option (PackCursor R × Nat) :=
  if width ≤ s.2 then do
    return (← transposeAColumns A lda ldd countY width s.1, s.2 - width)
  else return s

/-- `MlasSgemmTransposeA`. -/
def transposeA (A : Cells R) (lda countY countX : Nat) (s : PackCursor R) :
    Option (Cells R) := do
  let s ← transposeABlocks A lda countX countY countX s
  let s ← transposeARest A lda countX countY 2 s
  let s ← transposeARest A lda countX countY 1 s
  return s.1.panel

section Rows

variable (kernel : Kernel R) (zero : Bool) (alpha : R) (countK countN ldc : Nat)

/-- The loop over the rows of A, or of its transposed rows; it ends with the
pointer behind the last row of C. -/
def kernelRows (A : Cells R) (lda : Nat) (b : Nat → R) (rows a c : Nat)
    (C : Nat → R) : Option ((Nat → R) × Nat) :=
  if _hrows : rows = 0 then none
  else do
    let values ← readRows A a rows countK lda
    let call : KernelCall R :=
      ⟨zero, values, b, C, c, countK, rows, countN, lda, ldc, alpha⟩
    let handled := (kernel.run call).1
    if rows - handled = 0 then
      return ((kernel.run call).2, c + ldc * handled)
    else
      kernelRows A lda b (rows - handled) (a + lda * handled)
        (c + ldc * handled) (kernel.run call).2
termination_by rows
decreasing_by
  have hpos := kernel.rows_pos
    ⟨zero, values, b, C, c, countK, rows, countN, lda, ldc, alpha⟩
    (Nat.pos_of_ne_zero _hrows)
  exact Nat.sub_lt (Nat.pos_of_ne_zero _hrows) hpos

/-- The loop over groups of rows when A is transposed. -/
def transposedRows (A : Cells R) (lda : Nat) (b : Nat → R) (rows a c : Nat)
    (panelA : Cells R) (C : Nat → R) : Option ((Nat → R) × Cells R) :=
  if rows = 0 then none
  else do
    let transposed := min rows transARows
    let panelA ← transposeA A lda transposed countK ⟨panelA, 0, a⟩
    let (C, c) ← kernelRows kernel zero alpha countK countN ldc panelA countK b
      transposed 0 c C
    if rows - transposed = 0 then return (C, panelA)
    else
      transposedRows A lda b (rows - transposed) (a + transposed) c panelA C
termination_by rows
decreasing_by
  simp only [transARows]
  omega

end Rows

/-- The arguments of `MlasSgemm`; `a`, `b` and `c` are the pointers. -/
structure Call (R : Type) where
  transA : Bool
  transB : Bool
  M : Nat
  N : Nat
  K : Nat
  alpha : R
  A : Cells R
  a : Nat
  lda : Nat
  B : Cells R
  b : Nat
  ldb : Nat
  beta : R
  c : Nat
  ldc : Nat

/-- The strides along N and K. -/
structure Strides where
  strideN : Nat
  strideK : Nat
  posN : 0 < strideN
  posK : 0 < strideK

/-- A small K widens the slices along N. -/
def widenN (K : Nat) (s : Strides) : Strides :=
  if h : 0 < K ∧ K ≤ s.strideK / 2 then
    widenN K ⟨s.strideN * 2, s.strideK / 2, Nat.mul_pos s.posN Nat.two_pos,
      Nat.lt_of_lt_of_le h.1 h.2⟩
  else s
termination_by s.strideK
decreasing_by exact Nat.div_lt_self s.posK Nat.one_lt_two

/-- A small N widens the slices along K. -/
def widenK (N : Nat) (s : Strides) : Strides :=
  if h : 16 < s.strideN ∧ N ≤ s.strideN / 2 then
    widenK N ⟨s.strideN / 2, s.strideK * 2,
      Nat.div_pos (Nat.le_of_lt (Nat.lt_of_le_of_lt (by decide) h.1))
        Nat.two_pos, Nat.mul_pos s.posK Nat.two_pos⟩
  else s
termination_by s.strideN
decreasing_by exact Nat.div_lt_self s.posN Nat.one_lt_two

/-- The strides of a call; with K zero the loop would not end. -/
def Call.strides (call : Call R) : Option Strides :=
  let s : Strides := ⟨defaultStrideN, defaultStrideK, by decide, by decide⟩
  if call.K ≤ call.N then
    if call.K = 0 then none else some (widenN call.K s)
  else if call.transA then some s
  else some (widenK call.N s)

/-- C and the local panels. -/
structure Workspace (R : Type) where
  C : Nat → R
  panelA : Cells R := fun _ => none
  panelB : Cells R := fun _ => none

variable (kernel : Kernel R) (call : Call R) [DecidableEq R]

/-- A slice of B is packed. -/
def packB (n countN k countK : Nat) (panelB : Cells R) : Option (Cells R) :=
  if call.transB then
    transposePackB panelBSize call.B call.ldb countN countK
      ⟨panelB, 0, call.b + k + n * call.ldb⟩
  else
    copyPackB panelBSize call.B call.ldb countN countK
      ⟨panelB, 0, call.b + n + k * call.ldb⟩

/-- The rows of A are multiplied with a packed slice of B. -/
def multiplyRows (zero : Bool) (b : Nat → R) (n countN k countK : Nat)
    (w : Workspace R) : Option (Workspace R) :=
  if call.transA then do
    let (C, panelA) ← transposedRows kernel zero call.alpha countK countN
      call.ldc call.A call.lda b call.M (call.a + k * call.lda) (call.c + n)
      w.panelA w.C
    return { w with C := C, panelA := panelA }
  else do
    let (C, _) ← kernelRows kernel zero call.alpha countK countN call.ldc call.A
      call.lda b call.M (call.a + k) (call.c + n) w.C
    return { w with C := C }

/-- One slice of B; the kernel may read its panel to the last block. -/
def slice (n countN k countK : Nat) (w : Workspace R) :
    Option (Workspace R) := do
  let panelB ← packB call n countN k countK w.panelB
  let b ← readRows panelB 0 1 (roundUp countN * countK) 0
  multiplyRows kernel call (decide (k = 0 ∧ call.beta = 0)) b n countN k countK
    { w with panelB := panelB }

/-- The slices along K. -/
def slicesK (s : Strides) (n countN k : Nat) (w : Workspace R) :
    Option (Workspace R) :=
  if k < call.K then do
    let countK := min s.strideK (call.K - k)
    let w ← slice kernel call n countN k countK w
    slicesK s n countN (k + countK) w
  else return w
termination_by call.K - k
decreasing_by
  have hpos := s.posK
  omega

/-- Beta is applied to the columns of a slice, unless it is zero or one. -/
def scaleColumns (n countN : Nat) (C : Nat → R) : Option (Nat → R) :=
  if call.beta ≠ 0 ∧ call.beta ≠ 1 then
    multiplyBeta call.M countN call.ldc (call.c + n) call.beta C
  else some C

/-- The slices along N. -/
def slicesN (s : Strides) (n : Nat) (w : Workspace R) : Option (Workspace R) :=
  if n < call.N then do
    let countN := min s.strideN (call.N - n)
    let C ← scaleColumns call n countN w.C
    let w ← slicesK kernel call s n countN 0 { w with C := C }
    slicesN s (n + countN) w
  else return w
termination_by call.N - n
decreasing_by
  have hpos := s.posN
  omega

/-- The kernel for one row, where there is one and it applies. -/
def Call.kernelM1 (platform : Platform R) : Option (KernelM1 R call.transB) :=
  if call.M = 1 ∧ call.transA = false ∧ call.alpha = 1 ∧
      (call.beta = 0 ∨ call.beta = 1) then
    platform.kernelM1 call.transB
  else none

/-- All of B, as the kernel for one row reads it. -/
def readB : Option (Nat → R) :=
  if call.transB then readRows call.B call.b call.N call.K call.ldb
  else readRows call.B call.b call.K call.N call.ldb

/-- `MlasSgemmOperation`. -/
def operation (platform : Platform R) (C : Nat → R) : Option (Nat → R) :=
  match call.kernelM1 platform with
  | some kernel => do
      let a ← readRows call.A call.a 1 call.K call.lda
      let b ← readB call
      return kernel.run a b C call.c call.K call.N call.ldb call.beta
  | none => do
      let s ← call.strides
      let w ← slicesN platform.kernel call s 0 { C := C }
      return w.C

end Model

end Sgemm

end OnnxRuntime
