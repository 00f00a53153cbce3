/-
The matrix product across threads: columns or rows of C are split into segments,
each of them a product of its own, which the worker threads run in any order.
With K zero the loop over the strides does not end, and without rows the loops
over the rows do not, except for products without columns or of one row.
-/
import OnnxRuntime.SgemmOperation

namespace OnnxRuntime

open Finset

namespace Sgemm

/-- `MLAS_MAXIMUM_THREAD_COUNT`, the size of the table of segments. -/
def maximumThreadCount : Nat := 16

/-- `MLAS_SGEMM_THREAD_COMPLEXITY`, which depends on the platform, and what
`GetMaximumThreadCount` returns. -/
structure Threading where
  complexity : Nat
  maximum : Nat
  complexity_pos : 0 < complexity
  maximum_pos : 0 < maximum

/-- The order in which the worker threads come to the segments. -/
structure Schedule where
  order : List (Nat × Nat) → List (Nat × Nat)
  perm : ∀ parts, (order parts).Perm parts

variable {R : Type}

/-- The target thread count. The source computes the complexity in doubles,
which are exact where it is compared and divided. -/
def targetThreadCount (threads : Threading) (call : Call R) : Nat :=
  let complexity := call.M * call.N * call.K
  min threads.maximum
    (if complexity < threads.complexity * maximumThreadCount then
      complexity / threads.complexity + 1
    else maximumThreadCount)

/-- What is left over makes every part one longer. -/
def divideUp (size count : Nat) : Nat :=
  if size / count * count = size then size / count else size / count + 1

/-- The loop over the segments: where each begins and its length. It would not
end with a stride of zero, and the table is full after sixteen segments. -/
def splits (stride size index n : Nat) : Option (List (Nat × Nat)) :=
  if _hn : n < size then
    if _hstride : stride = 0 then none
    else if maximumThreadCount ≤ index then none
    else do
      let count := min stride (size - n)
      return (n, count) :: (← splits stride size (index + 1) (n + count))
  else return []
termination_by size - n

/-- The segment of columns from `n` on. -/
def Call.columns (call : Call R) (n count : Nat) : Call R :=
  { call with
    N := count
    b := call.b + n * (if call.transB then call.ldb else 1)
    c := call.c + n }

/-- The segment of rows from `m` on. -/
def Call.rows (call : Call R) (m count : Nat) : Call R :=
  { call with
    M := count
    a := call.a + m * (if call.transA then 1 else call.lda)
    c := call.c + m * call.ldc }

theorem elementIndex_add_column (trans : Bool) (ld n i j : Nat) :
    n * (if trans then ld else 1) + elementIndex trans ld i j =
      elementIndex trans ld i (n + j) := by
  cases trans <;> simp only [elementIndex, if_true, Bool.false_eq_true,
    if_false] <;> ring

theorem elementIndex_add_row (trans : Bool) (ld m i j : Nat) :
    m * (if trans then 1 else ld) + elementIndex trans ld i j =
      elementIndex trans ld (m + i) j := by
  cases trans <;> simp only [elementIndex, if_true, Bool.false_eq_true,
    if_false] <;> ring

section Model

variable [CommRing R] [DecidableEq R]

/-- `MlasExecuteThreaded`: the segments write to different elements of C, so a
segment is a step. -/
def executeThreaded (platform : Platform R) (segment : Nat → Nat → Call R) :
    List (Nat × Nat) → (Nat → R) → Option (Nat → R)
  | [], C => some C
  | part :: parts, C =>
    operation (segment part.1 part.2) platform C >>=
      executeThreaded platform segment parts

/-- `MlasSgemmTryMultithread`, where more than one thread is to be used. -/
def multithread (platform : Platform R) (count : Nat) (schedule : Schedule)
    (call : Call R) (C : Nat → R) : Option (Nat → R) :=
  if call.M < call.N then do
    let parts ← splits (roundUp (divideUp call.N count)) call.N 0 0
    executeThreaded platform call.columns (schedule.order parts) C
  else do
    let parts ← splits (divideUp call.M count) call.M 0 0
    executeThreaded platform call.rows (schedule.order parts) C

/-- `MlasSgemm`. -/
def mlasSgemm (platform : Platform R) (threads : Threading)
    (schedule : Schedule) (call : Call R) (C : Nat → R) : Option (Nat → R) :=
  if targetThreadCount threads call = 1 then operation call platform C
  else multithread platform (targetThreadCount threads call) schedule call C

end Model

section Splitting

/-- Segments that cover what lies between `n` and `size` once. -/
structure Splits (n size : Nat) (parts : List (Nat × Nat)) : Prop where
  within : ∀ part ∈ parts, n ≤ part.1 ∧ 0 < part.2 ∧ part.1 + part.2 ≤ size
  apart : parts.Pairwise fun part other =>
    part.1 + part.2 ≤ other.1 ∨ other.1 + other.2 ≤ part.1
  covers : ∀ x, n ≤ x → x < size →
    ∃ part ∈ parts, part.1 ≤ x ∧ x < part.1 + part.2

theorem splits_returns {stride size : Nat} (index n : Nat) (hstride : 0 < stride)
    (hroom : size ≤ n + stride * (maximumThreadCount - index)) :
    Returns (splits stride size index n) (Splits n size) := by
  fun_induction splits stride size index n with
  | case1 => omega
  | case2 index n hlt _ hfull =>
    rw [Nat.sub_eq_zero_of_le hfull] at hroom
    omega
  | case3 index n hlt _ hfull count ih =>
    have hnext : size ≤
        n + count + stride * (maximumThreadCount - (index + 1)) := by
      have hone : maximumThreadCount - index =
          maximumThreadCount - (index + 1) + 1 := by omega
      rw [hone, Nat.mul_succ] at hroom
      omega
    refine (ih hnext).bind fun parts hparts => Returns.pure ⟨?_, ?_, ?_⟩
    · intro part hpart
      rcases List.mem_cons.mp hpart with rfl | hrest
      · exact ⟨le_refl _, by omega, by omega⟩
      · have := hparts.within part hrest
        omega
    · refine List.pairwise_cons.mpr ⟨fun part hpart => ?_, hparts.apart⟩
      exact .inl (hparts.within part hpart).1
    · intro x hle hx
      by_cases hhere : x < n + count
      · exact ⟨_, List.mem_cons_self, hle, hhere⟩
      · obtain ⟨part, hpart, hin⟩ := hparts.covers x (by omega) hx
        exact ⟨part, List.mem_cons_of_mem _ hpart, hin⟩
  | case4 index n hge =>
    refine Returns.pure ⟨fun part h => absurd h List.not_mem_nil, .nil, ?_⟩
    intro x hle hx
    omega

theorem Splits.perm {n size : Nat} {parts others : List (Nat × Nat)}
    (h : Splits n size parts) (hperm : others.Perm parts) :
    Splits n size others where
  within part hpart := h.within part (hperm.mem_iff.mp hpart)
  apart := (hperm.pairwise_iff fun hapart => hapart.symm).mpr h.apart
  covers x hle hx := by
    obtain ⟨part, hpart, hin⟩ := h.covers x hle hx
    exact ⟨part, hperm.mem_iff.mpr hpart, hin⟩

theorem divideUp_covers (size : Nat) {count : Nat} (hcount : 0 < count) :
    size ≤ divideUp size count * count := by
  rw [divideUp]
  split
  · omega
  · have hmod := Nat.div_add_mod size count
    have hless := Nat.mod_lt size hcount
    rw [add_mul, mul_comm (size / count)]
    omega

theorem le_roundUp (count : Nat) : count ≤ roundUp count := by
  rw [roundUp]
  omega

/-- No more segments than threads are needed. -/
theorem splits_threads {stride size count : Nat} (hsize : 0 < size)
    (hcount : 0 < count) (hmaximum : count ≤ maximumThreadCount)
    (hstride : divideUp size count ≤ stride) :
    Returns (splits stride size 0 0) (Splits 0 size) := by
  have hcovers := divideUp_covers size hcount
  have hpos : 0 < divideUp size count := by
    by_contra hzero
    rw [Nat.eq_zero_of_not_pos hzero] at hcovers
    omega
  refine splits_returns 0 0 (by omega) ?_
  calc size ≤ divideUp size count * count := hcovers
    _ ≤ stride * maximumThreadCount := Nat.mul_le_mul hstride hmaximum
    _ = 0 + stride * (maximumThreadCount - 0) := (zero_add _).symm

theorem targetThreadCount_pos (threads : Threading) (call : Call R) :
    0 < targetThreadCount threads call := by
  refine Nat.lt_min.mpr ⟨threads.maximum_pos, ?_⟩
  split
  · exact Nat.succ_pos _
  · decide

theorem targetThreadCount_le (threads : Threading) (call : Call R) :
    targetThreadCount threads call ≤ maximumThreadCount := by
  refine le_trans (min_le_right _ _) ?_
  split
  · rename_i hless
    exact Nat.div_lt_of_lt_mul hless
  · exact le_refl _

end Splitting

section Segments

/-- The elements of C in one part of it are settled, and the others are not
touched. -/
structure Settled (before after : Nat → R) (call : Call R)
    (part : Nat → Nat → Prop) (value : Nat → Nat → R → R) : Prop where
  written : ∀ i < call.M, ∀ j < call.N, part i j →
    after (call.c + i * call.ldc + j) =
      value i j (before (call.c + i * call.ldc + j))
  kept : ∀ address, (∀ i < call.M, ∀ j < call.N, part i j →
    address ≠ call.c + i * call.ldc + j) → after address = before address

variable {before mid after : Nat → R} {call : Call R}
  {part other : Nat → Nat → Prop} {value : Nat → Nat → R → R}

theorem Settled.outside (hldc : call.N ≤ call.ldc)
    (h : Settled before after call part value) {i j : Nat} (hj : j < call.N)
    (hout : ¬ part i j) :
    after (call.c + i * call.ldc + j) = before (call.c + i * call.ldc + j) := by
  refine h.kept _ fun i' hi' j' hj' hpart heq => hout ?_
  have hsame : i * call.ldc + j = i' * call.ldc + j' := by omega
  obtain ⟨rfl, rfl⟩ := row_inj (by omega) (by omega) hsame
  exact hpart

/-- A thread does not see the elements that another thread has settled. -/
theorem Settled.append (hldc : call.N ≤ call.ldc)
    (hapart : ∀ i j, part i j → ¬ other i j)
    (h : Settled before mid call part value)
    (h' : Settled mid after call other value) :
    Settled before after call (fun i j => part i j ∨ other i j) value where
  written i hi j hj hin := by
    rcases hin with hpart | hother
    · rw [h'.outside hldc hj (hapart i j hpart), h.written i hi j hj hpart]
    · rw [h'.written i hi j hj hother,
        h.outside hldc hj fun hpart => hapart i j hpart hother]
  kept address hout := by
    rw [h'.kept address fun i hi j hj hother =>
      hout i hi j hj (.inr hother)]
    exact h.kept address fun i hi j hj hpart =>
      hout i hi j hj (.inl hpart)

theorem Settled.congr (h : Settled before after call part value)
    (hsame : ∀ i j, part i j ↔ other i j) :
    Settled before after call other value := by
  obtain rfl : part = other := by
    funext i j
    exact propext (hsame i j)
  exact h

variable [CommRing R] [DecidableEq R] {platform : Platform R} {C : Nat → R}
  {va vb : Nat → Nat → R} {count : Nat}

/-- Segments along one axis settle what they cover, in any order. -/
theorem executeThreaded_returns {segment : Nat → Nat → Call R}
    (axis : Nat → Nat → Nat) {parts : List (Nat × Nat)}
    (hldc : call.N ≤ call.ldc)
    (hapart : parts.Pairwise fun part other =>
      part.1 + part.2 ≤ other.1 ∨ other.1 + other.2 ≤ part.1)
    (hsegment : ∀ part ∈ parts, ∀ C,
      Returns (operation (segment part.1 part.2) platform C) fun after =>
        Settled C after call
          (fun i j => part.1 ≤ axis i j ∧ axis i j < part.1 + part.2) value) :
    Returns (executeThreaded platform segment parts C) fun after =>
      Settled C after call (fun i j => ∃ part ∈ parts,
        part.1 ≤ axis i j ∧ axis i j < part.1 + part.2) value := by
  induction parts generalizing C with
  | nil =>
    refine Returns.pure ⟨fun i hi j hj hin => ?_, fun _ _ => rfl⟩
    obtain ⟨part, hpart, -⟩ := hin
    exact absurd hpart List.not_mem_nil
  | cons part parts ih =>
    obtain ⟨hfirst, hrest⟩ := List.pairwise_cons.mp hapart
    refine (hsegment part List.mem_cons_self C).bind fun mid hmid => ?_
    refine (ih hrest fun other hother =>
      hsegment other (List.mem_cons_of_mem _ hother)).mono
      fun after hafter => (hmid.append hldc ?_ hafter).congr ?_
    · rintro i j hin ⟨other, hother, hin'⟩
      have := hfirst other hother
      omega
    · intro i j
      simp only [List.mem_cons, exists_eq_or_imp]

theorem columns_returns {n : Nat} (h : Operands call va vb)
    (hn : n + count ≤ call.N) :
    Returns (operation (call.columns n count) platform C) fun after =>
      Settled C after call (fun _ j => n ≤ j ∧ j < n + count)
        fun i j old => gemm call va vb old i j := by
  have hsegment : Operands (call.columns n count) va
      fun k j => vb k (n + j) := by
    refine ⟨⟨h.a_eq, fun k hk j hj => ?_⟩, h.posM, h.posK,
      (Nat.le_of_add_left_le hn).trans h.ldc_le⟩
    have hcell := h.b_eq k hk (n + j)
      (lt_of_lt_of_le (Nat.add_lt_add_left hj n) hn)
    rw [← hcell]
    rw [← elementIndex_add_column, ← add_assoc]
    rfl
  refine (operation_returns hsegment).mono fun after hafter => ?_
  have hregion : Region C after call.c call.ldc call.M n (n + count)
      fun i j => gemm call va vb (C (call.c + i * call.ldc + j)) i j := by
    refine (Region.congr hafter fun i _ j _ _ => ?_).shift
    simp only [Call.columns, gemm]
    congr 3
    omega
  exact ⟨fun i hi j _ hin => hregion.written i hi j hin.1 hin.2,
    fun address hout => hregion.kept address fun i hi j hle hlt =>
      hout i hi j (by omega) ⟨hle, hlt⟩⟩

theorem rows_returns {m : Nat} (h : Operands call va vb) (hcount : 0 < count)
    (hm : m + count ≤ call.M) :
    Returns (operation (call.rows m count) platform C) fun after =>
      Settled C after call (fun i _ => m ≤ i ∧ i < m + count)
        fun i j old => gemm call va vb old i j := by
  have hsegment : Operands (call.rows m count) (fun i k => va (m + i) k)
      vb := by
    refine ⟨⟨fun i hi k hk => ?_, h.b_eq⟩, hcount, h.posK, h.ldc_le⟩
    have hcell := h.a_eq (m + i)
      (lt_of_lt_of_le (Nat.add_lt_add_left hi m) hm) k hk
    rw [← hcell]
    rw [← elementIndex_add_row, ← add_assoc]
    rfl
  refine (operation_returns hsegment).mono fun after hafter => ?_
  have hplace : ∀ i j, m ≤ i → call.c + i * call.ldc + j =
      call.c + m * call.ldc + (i - m) * call.ldc + j := by
    intro i j hle
    rw [add_assoc call.c (m * call.ldc), ← add_mul, Nat.add_sub_cancel' hle]
  refine ⟨fun i hi j hj hin => ?_, fun address hout => ?_⟩
  · have hnew := hafter.written (i - m) (by simp only [Call.rows]; omega) j
      (Nat.zero_le j) hj
    simp only [Call.rows, gemm, Nat.add_sub_cancel' hin.1] at hnew
    rw [hplace i j hin.1, hnew, gemm]
  · refine hafter.kept address fun i hi j _ hj heq => ?_
    simp only [Call.rows] at hi heq
    refine hout (m + i) (by omega) j hj (by omega) ?_
    rw [hplace (m + i) j (by omega), heq, Nat.add_sub_cancel_left]

end Segments

section Threads

variable [CommRing R] [DecidableEq R] {platform : Platform R} {call : Call R}
  {va vb : Nat → Nat → R} {C : Nat → R}

omit [DecidableEq R] in
theorem Settled.all {part : Nat → Nat → Prop} {after : Nat → R}
    (hall : ∀ i < call.M, ∀ j < call.N, part i j)
    (h : Settled C after call part fun i j old => gemm call va vb old i j) :
    Computes call va vb C after where
  written i hi j _ hj := h.written i hi j hj (hall i hi j hj)
  kept address hout := h.kept address fun i hi j hj _ =>
    hout i hi j (Nat.zero_le j) hj

theorem multithread_returns {count : Nat} (schedule : Schedule)
    (h : Operands call va vb) (hcount : 0 < count)
    (hmaximum : count ≤ maximumThreadCount) :
    Returns (multithread platform count schedule call C)
      (Computes call va vb C) := by
  rw [multithread]
  split
  · refine (splits_threads (by omega) hcount hmaximum
      (le_roundUp _)).bind fun parts hparts => ?_
    have hsplits := hparts.perm (schedule.perm parts)
    refine (executeThreaded_returns (fun _ j => j) h.ldc_le hsplits.apart
      fun part hpart C => columns_returns h
        (hsplits.within part hpart).2.2).mono fun after hafter =>
      hafter.all fun i hi j hj => hsplits.covers j (Nat.zero_le j) hj
  · refine (splits_threads h.posM hcount hmaximum
      (le_refl _)).bind fun parts hparts => ?_
    have hsplits := hparts.perm (schedule.perm parts)
    refine (executeThreaded_returns (fun i _ => i) h.ldc_le hsplits.apart
      fun part hpart C => rows_returns h (hsplits.within part hpart).2.1
        (hsplits.within part hpart).2.2).mono fun after hafter =>
      hafter.all fun i hi j hj => hsplits.covers i (Nat.zero_le i) hi

/-- The product for every shape, every transposition and every number of
threads: no access leaves the panels, the segments or the elements of A and B,
every element of C gets its value, and nothing else changes. -/
theorem mlasSgemm_returns (platform : Platform R) (threads : Threading)
    (schedule : Schedule) (call : Call R) (va vb : Nat → Nat → R)
    (helements : Elements call va vb) (hM : 0 < call.M) (hK : 0 < call.K)
    (hldc : call.N ≤ call.ldc) (C : Nat → R) :
    Returns (mlasSgemm platform threads schedule call C) fun after =>
      (∀ i < call.M, ∀ j < call.N, after (call.c + i * call.ldc + j) =
        call.alpha * ∑ k ∈ range call.K, va i k * vb k j +
          call.beta * C (call.c + i * call.ldc + j)) ∧
      ∀ address, (∀ i < call.M, ∀ j < call.N,
        address ≠ call.c + i * call.ldc + j) → after address = C address := by
  have h : Operands call va vb := ⟨helements, hM, hK, hldc⟩
  have hregion : Returns (mlasSgemm platform threads schedule call C)
      (Computes call va vb C) := by
    rw [mlasSgemm]
    split
    · exact operation_returns h
    · exact multithread_returns schedule h
        (targetThreadCount_pos threads call) (targetThreadCount_le threads call)
  refine hregion.mono fun after hafter => ⟨fun i hi j hj => ?_, ?_⟩
  · exact hafter.written i hi j (Nat.zero_le j) hj
  · exact fun address hout => hafter.kept address fun i hi j _ hj =>
      hout i hi j hj

/-- A kernel that handles one row at a time. -/
def Kernel.reference : Kernel R where
  run call := (min 1 call.countM, fun address =>
    let j := address - call.c
    if 0 < call.countM ∧ call.c ≤ address ∧ j < call.countN then
      (if call.zero then 0 else call.C address) +
        call.alpha * ∑ k ∈ range call.countK,
          call.a k * call.b (panelIndex call.countK k j)
    else call.C address)
  rows_pos call hM := by
    dsimp only
    omega
  rows_le call := Nat.min_le_right _ _
  product call hldc r hr j hj := by
    obtain rfl : r = 0 := by omega
    simp only [Nat.zero_mul, Nat.add_zero, Nat.zero_add,
      Nat.add_sub_cancel_left]
    rw [if_pos (by omega)]
  kept call hldc address hout := by
    refine if_neg fun hin => ?_
    exact hout 0 (by omega) (address - call.c) hin.2.2 (by omega)

def KernelM1.reference (transB : Bool) : KernelM1 R transB where
  run a b C c countK countN ldb beta address :=
    let j := address - c
    if (transB ∨ 0 < countK) ∧ c ≤ address ∧ j < countN then
      ∑ k ∈ range countK, a k * b (elementIndex transB ldb k j) +
        beta * C address
    else C address
  product a b C c countK countN ldb beta hK j hj := by
    simp only [Nat.add_sub_cancel_left]
    rw [if_pos ⟨hK, by omega, hj⟩]
  kept a b C c countK countN ldb beta address hout := by
    refine if_neg fun hin => ?_
    exact hout hin.1 (address - c) hin.2.2 (by omega)

def Platform.reference : Platform R :=
  ⟨Kernel.reference, fun transB => some (KernelM1.reference transB)⟩

/-- Two threads multiply a transposed matrix with one of three columns. -/
def exampleCall : Call ℤ where
  transA := true
  transB := false
  M := 2
  N := 3
  K := 2
  alpha := 2
  A := fun address => if address < 4 then some address else none
  a := 0
  lda := 2
  B := fun address => if address < 6 then some (10 + address) else none
  b := 0
  ldb := 3
  beta := 5
  c := 0
  ldc := 4

theorem mlasSgemm_example :
    Returns (mlasSgemm Platform.reference
      ⟨1, 2, Nat.one_pos, Nat.two_pos⟩ ⟨List.reverse, List.reverse_perm⟩
      exampleCall fun address => address) fun after =>
        after 0 = 52 ∧ after 3 = 3 ∧ after 6 = 144 := by
  refine (mlasSgemm_returns Platform.reference
    ⟨1, 2, one_pos, two_pos⟩ ⟨List.reverse, List.reverse_perm⟩
    exampleCall (fun i k => 2 * k + i) (fun k j => 10 + (3 * k + j))
    ⟨by decide, by decide⟩ (by decide) (by decide) (by decide) _).mono
    fun after hafter => ⟨?_, ?_, ?_⟩
  · have := hafter.1 0 (by decide) 0 (by decide)
    simpa [exampleCall, sum_range_succ] using this
  · exact hafter.2 3 (by decide)
  · have := hafter.1 1 (by decide) 2 (by decide)
    simpa [exampleCall, sum_range_succ] using this

end Threads

open Option

variable [CommRing R] [DecidableEq R]

/-- The product returns, and leaves beta times what C was when K is zero. -/
def ReturnsOnEmpty (platform : Platform R) (threads : Threading)
    (schedule : Schedule) (call : Call R) : Prop :=
  ∀ C, Returns (mlasSgemm platform threads schedule call C) fun after =>
    (call.K = 0 → ∀ i < call.M, ∀ j < call.N,
      after (call.c + i * call.ldc + j) =
        call.beta * C (call.c + i * call.ldc + j)) ∧
    ∀ address, (∀ i < call.M, ∀ j < call.N,
      address ≠ call.c + i * call.ldc + j) → after address = C address

/-- The product that `MatMul` asks for when both operands are matrices. -/
def Call.matMul (M K N : Nat) (A B : Cells R) : Call R where
  transA := false
  transB := false
  M := M
  N := N
  K := K
  alpha := 1
  A := A
  a := 0
  lda := K
  B := B
  b := 0
  ldb := N
  beta := 0
  c := 0
  ldc := N

variable {platform : Platform R} {threads : Threading} {schedule : Schedule}
  {call : Call R} {va vb : Nat → Nat → R} {C : Nat → R}

/-- A product without elements is not worth a second thread. -/
theorem mlasSgemm_of_empty (hempty : call.M = 0 ∨ call.N = 0 ∨ call.K = 0) :
    mlasSgemm platform threads schedule call C = operation call platform C := by
  have hzero : call.M * call.N * call.K = 0 := by
    rcases hempty with h | h | h <;> simp [h]
  have hroom : 0 < threads.complexity * maximumThreadCount :=
    Nat.mul_pos threads.complexity_pos (by decide)
  rw [mlasSgemm, if_pos]
  rw [targetThreadCount, hzero, if_pos hroom, Nat.zero_div]
  exact Nat.min_eq_right threads.maximum_pos

section NoRows

variable {kernel : Kernel R} {s : Strides} {w : Workspace R}

theorem slice_of_no_rows (hM : call.M = 0) (n countN k countK : Nat) :
    slice kernel call n countN k countK w = none := by
  have hrows : ∀ zero b w,
      multiplyRows kernel call zero b n countN k countK w = none := by
    intro zero b w
    rw [multiplyRows, transposedRows, kernelRows, if_pos hM, dif_pos hM]
    split <;> rfl
  simp only [slice, hrows, bind, bind_fun_none]

theorem slicesN_of_no_rows (hM : call.M = 0) (hN : 0 < call.N)
    (hK : 0 < call.K) : slicesN kernel call s 0 w = none := by
  have hslices : ∀ n countN w, slicesK kernel call s n countN 0 w = none := by
    intro n countN w
    rw [slicesK, if_pos hK]
    simp only [slice_of_no_rows hM]
    rfl
  rw [slicesN, if_pos hN]
  simp only [hslices, bind, bind_none, bind_fun_none]

end NoRows

/-- Without a kernel for one row, there must be no columns and a K that is not
zero. -/
theorem operation_of_none (hkernel : call.kernelM1 platform = none)
    (hempty : call.M = 0 ∨ call.N = 0 ∨ call.K = 0) :
    operation call platform C =
      if 0 < call.K ∧ call.N = 0 then some C else none := by
  rw [operation, hkernel]
  by_cases hK : call.K = 0
  · rw [Call.strides, if_pos (by omega), if_pos hK, if_neg (by omega)]
    rfl
  · obtain ⟨s, hs, -⟩ := strides_returns call (Nat.pos_of_ne_zero hK)
    rw [hs]
    by_cases hN : call.N = 0
    · rw [if_pos ⟨Nat.pos_of_ne_zero hK, hN⟩]
      dsimp only [bind, Option.bind]
      rw [slicesN, if_neg (by omega)]
      rfl
    · rw [if_neg fun h => hN h.2]
      dsimp only [bind, Option.bind]
      rw [slicesN_of_no_rows (by omega) (by omega) (by omega)]

/-- `MlasSgemm` deals with empty operands exactly when there are no columns and
K is not zero, or a kernel for one row applies that stores to C even when K is
zero, or need not. -/
theorem returnsOnEmpty_iff (platform : Platform R) (threads : Threading)
    (schedule : Schedule) (call : Call R) (va vb : Nat → Nat → R)
    (helements : Elements call va vb)
    (hempty : call.M = 0 ∨ call.N = 0 ∨ call.K = 0) :
    ReturnsOnEmpty platform threads schedule call ↔
      0 < call.K ∧ call.N = 0 ∨ (call.kernelM1 platform).isSome ∧
        (call.N = 0 ∨ call.transB ∨ call.beta = 1) := by
  simp only [ReturnsOnEmpty, mlasSgemm_of_empty hempty]
  cases hkernel : call.kernelM1 platform with
  | none =>
    simp only [operation_of_none hkernel hempty, isSome_none,
      Bool.false_eq_true, false_and, or_false]
    constructor
    · intro h
      obtain ⟨after, hafter, -⟩ := h fun _ => 0
      by_contra hnot
      rw [if_neg hnot] at hafter
      cases hafter
    · intro hcolumns C
      rw [if_pos hcolumns]
      exact Returns.pure ⟨fun hK => by omega, fun _ _ => rfl⟩
  | some kernel =>
    obtain ⟨hone, -, -, hbeta⟩ := applies_of_kernelM1 hkernel
    simp only [isSome_some, true_and]
    constructor
    · intro h
      by_contra hnot
      simp only [not_or] at hnot
      obtain ⟨-, hN, htransB, hbeta'⟩ := hnot
      have hK : call.K = 0 := by omega
      obtain ⟨after, hafter, hzero, -⟩ := h fun _ => 1
      obtain ⟨_, hrun, a, b, rfl, -⟩ :=
        @operation_of_kernelM1 _ _ _ _ _ _ _ (fun _ => 1) _ hkernel helements
      cases hafter.symm.trans hrun
      have hfirst := hzero hK 0 (by omega) 0 (by omega)
      rw [kernel.kept _ _ _ _ _ _ _ _ _ fun hstores => ?_] at hfirst
      · exact hbeta' (by rw [← mul_one call.beta, ← hfirst])
      · exact absurd hstores (by simp [htransB, hK])
    · intro hstores C
      refine (operation_of_kernelM1 hkernel helements).mono ?_
      rintro after ⟨a, b, rfl, -⟩
      refine ⟨fun hK i hi j hj => ?_, fun address hout => ?_⟩
      · obtain rfl : i = 0 := by omega
        rw [Nat.zero_mul, Nat.add_zero]
        by_cases htransB : call.transB
        · rw [kernel.product _ _ _ _ _ _ _ _ (.inl htransB) j hj, hK,
            Finset.sum_range_zero, zero_add]
        · have hone : call.beta = 1 := by
            rcases hstores with h | h | h | h
            · omega
            · omega
            · exact absurd h htransB
            · exact h
          rw [hone, one_mul]
          refine kernel.kept _ _ _ _ _ _ _ _ _ fun hstores => ?_
          exact absurd hstores (by simp [htransB, hK])
      · refine kernel.kept _ _ _ _ _ _ _ _ address fun _ j hj heq => ?_
        exact hout 0 (by omega) j hj (by rw [heq]; omega)

/-- A matrix times one without columns. -/
theorem returnsOnEmpty_no_columns : ReturnsOnEmpty
    (⟨Kernel.reference, fun _ => none⟩ : Platform ℤ)
    ⟨1, 2, Nat.one_pos, Nat.two_pos⟩ ⟨List.reverse, List.reverse_perm⟩
    (Call.matMul 2 1 0 (fun address => some address) fun _ => none) :=
  (returnsOnEmpty_iff _ _ _ _ (fun i _ => (i : ℤ)) (fun _ _ => 0)
    ⟨by decide, by decide⟩ (by decide)).mpr (by decide)

/-- `MatMul` of a 2 x 0 and a 0 x 2 matrix does not return. -/
theorem not_returnsOnEmpty_matMul : ¬ ReturnsOnEmpty
    (⟨Kernel.reference, fun _ => none⟩ : Platform ℤ)
    ⟨1, 2, Nat.one_pos, Nat.two_pos⟩ ⟨List.reverse, List.reverse_perm⟩
    (Call.matMul 2 0 2 (fun _ => none) fun _ => none) := by
  intro h
  obtain ⟨after, hafter, -⟩ := h fun _ => 0
  rw [mlasSgemm_of_empty (by decide), operation_of_none rfl (by decide)] at hafter
  cases hafter

end Sgemm

end OnnxRuntime
