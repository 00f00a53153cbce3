/-
The simple `RNN` kernel.  Padding steps carry the previous frame on, in the
output itself, and are cleared after the last states have been read.
-/
import OnnxRuntime.ExceptRuns
import Mathlib.Algebra.BigOperators.Group.Finset.Basic
import Mathlib.Algebra.Ring.Int.Defs

namespace OnnxRuntime

open List Option Function

open Finset (range)

inductive RnnDirection where
  | forward | reverse | bidirectional
deriving Repr, DecidableEq

inductive RnnStop where
  | invalidArgument (message : String)
  | outOfBounds
  | gemm
deriving Repr, DecidableEq

/-- The operands of `Gemm` are not empty and their sizes are `int`s. -/
def GemmSizes (m n k : Nat) : Prop :=
  (0 < m ∧ m < 2 ^ 31) ∧ (0 < n ∧ n < 2 ^ 31) ∧ 0 < k ∧ k < 2 ^ 31

instance (m n k : Nat) : Decidable (GemmSizes m n k) :=
  inferInstanceAs (Decidable (_ ∧ _))

/-- The contract of `math::Gemm` with `B` transposed and alpha one.  It says
nothing of empty operands, on which some implementations never return, and of
sizes that the casts to `int` change. -/
structure Gemm (K : Type) [Semiring K] where
  run : (m n k : Nat) → (a b : Nat → Nat → K) → (beta : K) →
    (c : Nat → Nat → K) → Except RnnStop (Nat → Nat → K)
  product : ∀ m n k a b beta c, GemmSizes m n k →
    ∃ d, run m n k a b beta c = .ok d ∧ ∀ i < m, ∀ j < n,
      d i j = ∑ l ∈ range k, a i l * b j l + beta * c i j

/-- A `Gemm` that returns nothing but the product. -/
def Gemm.reference (K : Type) [Semiring K] : Gemm K where
  run m n k a b beta c :=
    if GemmSizes m n k then
      .ok fun i j => ∑ l ∈ range k, a i l * b j l + beta * c i j
    else .error .gemm
  product _ _ _ _ _ _ _ h := ⟨_, if_pos h, fun _ _ _ _ => rfl⟩

/-- Frames of an output: frame, batch item, feature. -/
abbrev RnnFrames (K : Type) := Nat → Nat → Nat → K

/-- Inputs and attributes of an `RNN` node.  `activation` is the function of a
direction after `Clip`; `hasYh` says if `Y_h` is requested. -/
structure Rnn (K : Type) where
  direction : RnnDirection
  seqLength : Nat
  batchSize : Nat
  inputSize : Nat
  hiddenSize : Nat
  X : Nat → Nat → Nat → K
  W : Nat → Nat → Nat → K
  R : Nat → Nat → Nat → K
  B : Option (Nat → Nat → K)
  sequenceLens : Option (Nat → Int)
  initialH : Option (RnnFrames K)
  activation : Nat → K → K
  hasYh : Bool

namespace Rnn

variable {K : Type} [Semiring K] (rnn : Rnn K) (gemm : Gemm K)

def numDirections : Nat := if rnn.direction = .bidirectional then 2 else 1

def isReverse (direction : Nat) : Bool :=
  rnn.direction = .reverse ∨ direction = 1

/-- The sums of the two halves of `B`, or zeros. -/
def bias (direction feature : Nat) : K :=
  rnn.B.elim 0 fun B => B direction feature +
    B direction (rnn.hiddenSize + feature)

/-- `X * W[direction]^t + B`, with a row for each time and item. -/
def xMatmulW (direction : Nat) : Except RnnStop (Nat → Nat → K) :=
  gemm.run (rnn.seqLength * rnn.batchSize) rnn.hiddenSize rnn.inputSize
    (fun row => rnn.X (row / rnn.batchSize) (row % rnn.batchSize))
    (rnn.W direction) 1 fun _ => rnn.bias direction

/-- `time_step` of round `t`. -/
def timeStep (direction t : Nat) : Nat :=
  if rnn.isReverse direction then rnn.seqLength - t - 1 else t

/-- `h_prev` of round `t`.  Either direction begins with the first data of
`initial_h`. -/
def hPrev (direction : Nat) (Y : RnnFrames K) (t : Nat) :
    Option (Nat → Nat → K) :=
  if t = 0 then rnn.initialH.map (· 0)
  else
    let frame := rnn.timeStep direction t * rnn.numDirections + direction
    some (Y (if rnn.isReverse direction then frame + rnn.numDirections
      else frame - rnn.numDirections))

/-- A round of the sequence loop, with `ApplyActivationToBatches`. -/
def sequenceStep (direction : Nat) (xMatmulW : Nat → Nat → K)
    (Y : RnnFrames K) (t : Nat) : Except RnnStop (RnnFrames K) := do
  let timeStep := rnn.timeStep direction t
  let frame := timeStep * rnn.numDirections + direction
  let hPrev := rnn.hPrev direction Y t
  let product ← hPrev.elim (.ok fun _ _ => 0) fun h =>
    gemm.run rnn.batchSize rnn.hiddenSize rnn.hiddenSize h (rnn.R direction) 0
      (Y frame)
  return Function.update Y frame fun batch feature =>
    if rnn.sequenceLens.all fun lens => (timeStep : Int) < lens batch then
      rnn.activation direction (product batch feature +
        xMatmulW (timeStep * rnn.batchSize + batch) feature)
    else hPrev.elim 0 fun h => h batch feature

def lastTimeStep (direction batch : Nat) : Int :=
  if rnn.isReverse direction then 0
  else rnn.sequenceLens.elim (rnn.seqLength : Int) (· batch) - 1

/-- `Assign_Y_h`. -/
def assignYh (direction : Nat) (Y Yh : RnnFrames K) :
    Except RnnStop (RnnFrames K) :=
  if ∃ batch < rnn.batchSize, 0 < rnn.hiddenSize ∧
      ¬ (0 ≤ rnn.lastTimeStep direction batch ∧
        rnn.lastTimeStep direction batch < rnn.seqLength) then
    .error .outOfBounds
  else .ok (Function.update Yh direction fun batch =>
    Y ((rnn.lastTimeStep direction batch).toNat * rnn.numDirections + direction)
      batch)

/-- `ClearMissingFrames`, over all directions. -/
def clearMissingFrames (Y : RnnFrames K) : RnnFrames K :=
  fun frame batch feature =>
    if rnn.sequenceLens.any fun lens =>
        lens batch ≤ ((frame / rnn.numDirections : Nat) : Int) ∧
          frame / rnn.numDirections < rnn.seqLength then 0
    else Y frame batch feature

abbrev invalidLens : Prop :=
  ∃ lens ∈ rnn.sequenceLens, ∃ batch < rnn.batchSize,
    lens batch ≤ 0 ∨ (rnn.seqLength : Int) < lens batch

/-- `Compute`, from what the memory of `Y` and `Y_h` holds. -/
def compute (Y Yh : RnnFrames K) : Except RnnStop (RnnFrames K × RnnFrames K) :=
  if rnn.invalidLens then .error (.invalidArgument
    ("Invalid value/s in sequence_lens. All values must be > 0 and < " ++
      "seq_length. seq_length=" ++ toString rnn.seqLength))
  else do
    let (Y, Yh) ← (List.range rnn.numDirections).foldlM
      (fun (outputs : RnnFrames K × RnnFrames K) direction => do
        let xMatmulW ← rnn.xMatmulW gemm direction
        let Y ← (List.range rnn.seqLength).foldlM
          (rnn.sequenceStep gemm direction xMatmulW) outputs.1
        if rnn.hasYh then
          let Yh ← rnn.assignYh direction Y outputs.2
          return (Y, Yh)
        else return (Y, outputs.2)) (Y, Yh)
    return (rnn.clearMissingFrames Y, Yh)

/-- The number of valid steps of an item. -/
def validLength (batch : Nat) : Nat :=
  rnn.sequenceLens.elim rnn.seqLength fun lens => (lens batch).toNat

/-- The time of an item's step `j`: the valid steps are taken backwards from
the last one for `reverse`. -/
def stepTime (batch j : Nat) : Nat :=
  if rnn.direction = .reverse then rnn.validLength batch - 1 - j else j

/-- What the input at a time adds to a feature. -/
def inputTerm (t batch feature : Nat) : K :=
  ∑ i ∈ range rnn.inputSize, rnn.X t batch i * rnn.W 0 feature i +
    rnn.bias 0 feature

/-- The state of an item after its first steps. -/
def recurrence (batch : Nat) : Nat → Nat → K
  | 0 => fun feature => rnn.initialH.elim 0 fun h => h 0 batch feature
  | j + 1 => fun feature => rnn.activation 0
      (∑ k ∈ range rnn.hiddenSize, recurrence batch j k * rnn.R 0 feature k +
        rnn.inputTerm (rnn.stepTime batch j) batch feature)

/-- `Y` at a time: the state after the step there, and zero in the padding. -/
def stateAt (t batch feature : Nat) : K :=
  if t < rnn.validLength batch then rnn.recurrence batch
    (if rnn.direction = .reverse then rnn.validLength batch - t else t + 1)
    feature
  else 0

/-- The outputs are those of the recurrence over the valid steps of each item,
whatever the memory of the outputs held. -/
def RespectsLengths : Prop :=
  ∀ Y Yh, ∃ outputs, rnn.compute gemm Y Yh = .ok outputs ∧
    ∀ batch < rnn.batchSize, ∀ feature < rnn.hiddenSize,
      (∀ t < rnn.seqLength, outputs.1 t batch feature =
        rnn.stateAt t batch feature) ∧
      (rnn.hasYh → outputs.2 0 batch feature =
        rnn.recurrence batch (rnn.validLength batch) feature)

/-- The valid steps of an item among the first `t` rounds. -/
def doneSteps (batch t : Nat) : Nat :=
  if rnn.direction = .reverse then
    rnn.validLength batch - (rnn.seqLength - t)
  else min t (rnn.validLength batch)

variable {rnn} {batch t : Nat} {Y : RnnFrames K}

section Steps

omit [Semiring K]

theorem isReverse_zero : rnn.isReverse 0 = true ↔ rnn.direction = .reverse := by
  simp [isReverse]

theorem doneSteps_zero (hle : rnn.validLength batch ≤ rnn.seqLength) :
    rnn.doneSteps batch 0 = 0 := by
  unfold doneSteps
  split <;> omega

variable (ht : t < rnn.seqLength)
include ht

theorem doneSteps_succ :
    if rnn.timeStep 0 t < rnn.validLength batch then
      rnn.doneSteps batch (t + 1) = rnn.doneSteps batch t + 1 ∧
        rnn.stepTime batch (rnn.doneSteps batch t) = rnn.timeStep 0 t
    else rnn.doneSteps batch (t + 1) = rnn.doneSteps batch t := by
  simp only [timeStep, isReverse_zero, doneSteps, stepTime]
  split_ifs <;> omega

theorem timeStep_lt : rnn.timeStep 0 t < rnn.seqLength := by
  unfold timeStep
  split <;> omega

theorem valid_iff :
    (rnn.sequenceLens.all fun lens => (t : Int) < lens batch) = true ↔
      t < rnn.validLength batch := by
  unfold validLength
  cases rnn.sequenceLens with
  | none => simpa using ht
  | some lens => simp [Int.lt_toNat]

end Steps

/-- The frames of the first rounds hold the states after them. -/
def RoundsDone (rnn : Rnn K) (Y : RnnFrames K) (n : Nat) : Prop :=
  ∀ i < n, ∀ batch < rnn.batchSize, ∀ feature < rnn.hiddenSize,
    Y (rnn.timeStep 0 i) batch feature =
      rnn.recurrence batch (rnn.doneSteps batch (i + 1)) feature

omit [Semiring K] in
theorem validLength_bounds (hlens : ¬ rnn.invalidLens)
    (hbatch : batch < rnn.batchSize) :
    rnn.validLength batch ≤ rnn.seqLength ∧
      (0 < rnn.seqLength → 0 < rnn.validLength batch) ∧
      rnn.sequenceLens.elim (rnn.seqLength : Int) (· batch) =
        rnn.validLength batch := by
  unfold validLength
  cases hsome : rnn.sequenceLens with
  | none => exact ⟨le_rfl, id, rfl⟩
  | some lens =>
    have hbounds : ¬ (lens batch ≤ 0 ∨ (rnn.seqLength : Int) < lens batch) :=
      fun h => hlens ⟨lens, hsome, batch, hbatch, h⟩
    simp only [elim_some]
    omega

/-- The frame of a time is written once, in that time's round. -/
theorem RoundsDone.frame (hY : rnn.RoundsDone Y rnn.seqLength)
    (ht : t < rnn.seqLength) {feature : Nat} (hbatch : batch < rnn.batchSize)
    (hfeature : feature < rnn.hiddenSize) :
    Y t batch feature = rnn.recurrence batch (if rnn.direction = .reverse then
      rnn.validLength batch - t else min (t + 1) (rnn.validLength batch))
      feature := by
  have hframe := hY (rnn.timeStep 0 t) (timeStep_lt ht) batch hbatch feature
    hfeature
  simp only [timeStep, isReverse_zero, doneSteps] at hframe
  split_ifs at hframe ⊢
  · rwa [show rnn.seqLength - (rnn.seqLength - t - 1) - 1 = t by omega,
      show rnn.seqLength - (rnn.seqLength - t - 1 + 1) = t by omega] at hframe
  · exact hframe

omit [Semiring K] in
/-- The last frames are inside a `Y` that has one. -/
theorem assignYh_eq (hlens : ¬ rnn.invalidLens) (hseq : 0 < rnn.seqLength)
    (Y Yh : RnnFrames K) :
    rnn.assignYh 0 Y Yh = .ok (Function.update Yh 0 fun batch =>
      Y ((rnn.lastTimeStep 0 batch).toNat * rnn.numDirections) batch) := by
  unfold assignYh
  rw [if_neg]
  · rfl
  rintro ⟨batch, hbatch, -, hout⟩
  obtain ⟨hle, hpos, hlast⟩ := validLength_bounds hlens hbatch
  simp only [lastTimeStep, hlast] at hout
  split at hout <;> omega

section OneDirection

variable (gemm : Gemm K) (hdir : rnn.direction ≠ .bidirectional)
  (hlens : ¬ rnn.invalidLens)
include hdir

section Rounds

variable (hsizes : GemmSizes (rnn.seqLength * rnn.batchSize) rnn.hiddenSize
  rnn.inputSize) {x : Nat → Nat → K}
  (hx : ∀ t < rnn.seqLength, ∀ batch < rnn.batchSize,
    ∀ feature < rnn.hiddenSize, x (t * rnn.batchSize + batch) feature =
      rnn.inputTerm t batch feature)
include hlens

/-- A round starts from the state after the steps so far. -/
theorem hPrev_elim (ht : t < rnn.seqLength) (hY : rnn.RoundsDone Y t)
    (batch : Nat) (hbatch : batch < rnn.batchSize) (feature : Nat)
    (hfeature : feature < rnn.hiddenSize) :
    ((rnn.hPrev 0 Y t).elim 0 fun h => h batch feature) =
      rnn.recurrence batch (rnn.doneSteps batch t) feature := by
  cases t with
  | zero =>
    rw [doneSteps_zero (validLength_bounds hlens hbatch).1]
    simp only [hPrev, recurrence]
    cases rnn.initialH <;> rfl
  | succ s =>
    have hframe : rnn.hPrev 0 Y (s + 1) = some (Y (rnn.timeStep 0 s)) := by
      simp only [hPrev, numDirections, if_neg hdir, timeStep, Nat.succ_ne_zero,
        if_false]
      congr 2
      split <;> omega
    rw [hframe, elim_some, hY s (Nat.lt_succ_self s) batch hbatch feature
      hfeature]

include hsizes

/-- The product with the previous states, which are zero if there are none. -/
theorem product_eq (ht : t < rnn.seqLength) (hY : rnn.RoundsDone Y t)
    (c : Nat → Nat → K) :
    ∃ d, ((rnn.hPrev 0 Y t).elim (.ok fun _ _ => 0) fun h =>
        gemm.run rnn.batchSize rnn.hiddenSize rnn.hiddenSize h (rnn.R 0) 0 c) =
          .ok d ∧
      ∀ batch < rnn.batchSize, ∀ feature < rnn.hiddenSize,
        d batch feature = ∑ k ∈ range rnn.hiddenSize, rnn.recurrence batch
          (rnn.doneSteps batch t) k * rnn.R 0 feature k := by
  have hprev := hPrev_elim hdir hlens ht hY
  cases h : rnn.hPrev 0 Y t with
  | none =>
    refine ⟨_, rfl, fun batch hbatch feature _ => ?_⟩
    rw [Finset.sum_eq_zero]
    intro k hk
    rw [← hprev batch hbatch k (Finset.mem_range.mp hk), h, elim_none, zero_mul]
  | some prev =>
    obtain ⟨⟨hm, hm'⟩, hn, -⟩ := hsizes
    have hbatch : rnn.batchSize ≤ rnn.seqLength * rnn.batchSize :=
      Nat.le_mul_of_pos_left _ (Nat.pos_of_mul_pos_right hm)
    obtain ⟨d, hd, hproduct⟩ := gemm.product rnn.batchSize rnn.hiddenSize
      rnn.hiddenSize prev (rnn.R 0) 0 c
      ⟨⟨Nat.pos_of_mul_pos_left hm, by omega⟩, hn, hn⟩
    refine ⟨d, hd, fun batch hbatch feature hfeature => ?_⟩
    rw [hproduct batch hbatch feature hfeature, zero_mul, add_zero]
    refine Finset.sum_congr rfl fun k hk => ?_
    rw [← hprev batch hbatch k (Finset.mem_range.mp hk), h, elim_some]

include hx

/-- A round takes the next step of each item, or carries its state on. -/
theorem sequenceStep_roundsDone (ht : t < rnn.seqLength)
    (hY : rnn.RoundsDone Y t) :
    ∃ Y', rnn.sequenceStep gemm 0 x Y t = .ok Y' ∧
      rnn.RoundsDone Y' (t + 1) := by
  obtain ⟨d, hd, hproduct⟩ := product_eq gemm hdir hlens hsizes ht hY
    (Y (rnn.timeStep 0 t * rnn.numDirections + 0))
  refine ⟨_, by rw [sequenceStep, hd]; rfl, ?_⟩
  simp only [numDirections, if_neg hdir, Nat.mul_one, Nat.add_zero]
  intro i hi batch hbatch feature hfeature
  rcases Nat.lt_succ_iff_lt_or_eq.1 hi with hlt | rfl
  · rw [update_of_ne, hY i hlt batch hbatch feature hfeature]
    unfold timeStep
    split <;> omega
  · have hnext := @doneSteps_succ _ _ batch i ht
    simp only [update_self, valid_iff (timeStep_lt ht),
      hPrev_elim hdir hlens ht hY batch hbatch feature hfeature,
      hproduct batch hbatch feature hfeature,
      hx _ (timeStep_lt ht) batch hbatch feature hfeature]
    split at hnext
    · rename_i hvalid
      simp only [hvalid, if_true, hnext.1, recurrence, hnext.2]
    · rename_i hvalid
      simp only [hvalid, if_false, hnext]

theorem foldlM_sequenceStep {n : Nat} (hn : n ≤ rnn.seqLength) :
    ∃ Y', (List.range n).foldlM (rnn.sequenceStep gemm 0 x) Y = .ok Y' ∧
      rnn.RoundsDone Y' n := by
  induction n with
  | zero => exact ⟨Y, rfl, fun i hi => absurd hi (Nat.not_lt_zero i)⟩
  | succ n ih =>
    obtain ⟨mid, hmid, hdone⟩ := ih (Nat.le_of_succ_le hn)
    obtain ⟨Y', hstep, hnext⟩ :=
      sequenceStep_roundsDone gemm hdir hlens hsizes hx hn hdone
    refine ⟨Y', ?_, hnext⟩
    rw [range_succ, foldlM_snoc_eq_ok]
    exact ⟨mid, hmid, hstep⟩

end Rounds

theorem clearMissingFrames_eq (ht : t < rnn.seqLength) (feature : Nat) :
    rnn.clearMissingFrames Y t batch feature =
      if t < rnn.validLength batch then Y t batch feature else 0 := by
  simp only [clearMissingFrames, numDirections, if_neg hdir, Nat.div_one,
    ← valid_iff ht, ht, and_true, ← not_lt]
  cases rnn.sequenceLens with
  | none => rfl
  | some lens => grind

include hlens in
theorem compute_eq {Yh : RnnFrames K} :
    rnn.compute gemm Y Yh =
      (rnn.xMatmulW gemm 0 >>= fun x => (List.range rnn.seqLength).foldlM
        (rnn.sequenceStep gemm 0 x) Y) >>= fun Y' =>
      (if rnn.hasYh then rnn.assignYh 0 Y' Yh else .ok Yh).map fun Yh' =>
        (rnn.clearMissingFrames Y', Yh') := by
  have honce : List.range rnn.numDirections = [0] := by
    simp [numDirections, hdir]
  simp only [compute, if_neg hlens, honce, foldlM_cons, foldlM_nil, bind,
    Except.bind]
  cases rnn.xMatmulW gemm 0 with
  | error stop => rfl
  | ok x =>
    dsimp only
    cases (List.range rnn.seqLength).foldlM (rnn.sequenceStep gemm 0 x) Y with
    | error stop => rfl
    | ok Y' =>
      cases rnn.hasYh with
      | false => rfl
      | true =>
        simp only [if_true]
        cases rnn.assignYh 0 Y' Yh <;> rfl

end OneDirection

/-- With a `Gemm` of which no more than its contract is known, the kernel
respects the lengths exactly when no operand is empty and no size is cut off. -/
theorem respectsLengths_iff (rnn : Rnn K)
    (hdir : rnn.direction ≠ .bidirectional) (hlens : ¬ rnn.invalidLens) :
    (∀ gemm, rnn.RespectsLengths gemm) ↔
      GemmSizes (rnn.seqLength * rnn.batchSize) rnn.hiddenSize
        rnn.inputSize := by
  simp only [RespectsLengths, compute_eq _ hdir hlens]
  constructor
  · intro h
    by_contra hsizes
    obtain ⟨_, houtputs, -⟩ := h (.reference K) (fun _ _ _ => 0) fun _ _ _ => 0
    rw [show rnn.xMatmulW (.reference K) 0 = .error .gemm from if_neg hsizes]
      at houtputs
    cases houtputs
  · intro hsizes gemm Y Yh
    obtain ⟨x, hx, hproduct⟩ := gemm.product (rnn.seqLength * rnn.batchSize)
      rnn.hiddenSize rnn.inputSize
      (fun row => rnn.X (row / rnn.batchSize) (row % rnn.batchSize)) (rnn.W 0) 1
      (fun _ => rnn.bias 0) hsizes
    have hseq : 0 < rnn.seqLength := Nat.pos_of_mul_pos_right hsizes.1.1
    have hinput : ∀ t < rnn.seqLength, ∀ batch < rnn.batchSize,
        ∀ feature < rnn.hiddenSize, x (t * rnn.batchSize + batch) feature =
          rnn.inputTerm t batch feature := by
      intro t ht batch hbatch feature hfeature
      have hrow : t * rnn.batchSize + batch < rnn.seqLength * rnn.batchSize :=
        calc t * rnn.batchSize + batch < (t + 1) * rnn.batchSize := by
              rw [Nat.succ_mul]
              omega
          _ ≤ rnn.seqLength * rnn.batchSize := Nat.mul_le_mul_right _ ht
      rw [hproduct _ hrow feature hfeature, one_mul, Nat.mul_comm t,
        Nat.mul_add_div (by omega), Nat.mul_add_mod, Nat.div_eq_of_lt hbatch,
        Nat.mod_eq_of_lt hbatch, Nat.add_zero, inputTerm]
    obtain ⟨Y', hY', hdone⟩ := foldlM_sequenceStep gemm (Y := Y) hdir
      hlens hsizes hinput le_rfl
    have hY : ∀ batch < rnn.batchSize, ∀ feature < rnn.hiddenSize,
        ∀ t < rnn.seqLength, rnn.clearMissingFrames Y' t batch feature =
          rnn.stateAt t batch feature := by
      intro batch hbatch feature hfeature t ht
      rw [clearMissingFrames_eq hdir ht, hdone.frame ht hbatch hfeature]
      refine ite_congr rfl (fun hvalid => ?_) fun _ => rfl
      rw [Nat.min_eq_left hvalid]
    rw [show rnn.xMatmulW gemm 0 = .ok x from hx]
    change ∃ outputs, (foldlM _ _ _ >>= _) = _ ∧ _
    rw [hY']
    cases hyh : rnn.hasYh with
    | false =>
      exact ⟨_, rfl, fun batch hbatch feature hfeature =>
        ⟨hY batch hbatch feature hfeature, fun h => by cases h⟩⟩
    | true =>
      refine ⟨(rnn.clearMissingFrames Y', _),
        congrArg (Except.map _) (assignYh_eq hlens hseq Y' Yh),
        fun batch hbatch feature hfeature =>
          ⟨hY batch hbatch feature hfeature, fun _ => ?_⟩⟩
      obtain ⟨hle, hpos, hlast⟩ := validLength_bounds hlens hbatch
      simp only [update_self, numDirections, lastTimeStep, isReverse_zero]
      rw [hdone.frame (by split <;> omega) hbatch hfeature]
      split
      · rfl
      · congr 1
        omega

/-- A node of one feature that adds up one item's inputs. -/
def adding (direction : RnnDirection) (seqLength inputSize : Nat)
    (length : Int) : Rnn Int where
  direction := direction
  seqLength := seqLength
  batchSize := 1
  inputSize := inputSize
  hiddenSize := 1
  X := fun t _ _ => t + 1
  W := fun _ _ _ => 1
  R := fun _ _ _ => 1
  B := none
  sequenceLens := if length = 0 then none else some fun _ => length
  initialH := none
  activation := fun _ value => value
  hasYh := true

theorem respectsLengths_adding_reverse :
    (adding .reverse 3 1 2).RespectsLengths (.reference Int) :=
  (respectsLengths_iff (adding .reverse 3 1 2) (by decide) (by decide)).2
    (by decide) _

/-- Two steps of an item without inputs, and no steps. -/
theorem not_respectsLengths_empty :
    (¬ (adding .forward 2 0 0).invalidLens ∧
      ¬ (adding .forward 2 0 0).RespectsLengths (.reference Int)) ∧
    ¬ (adding .forward 0 1 0).invalidLens ∧
      ¬ (adding .forward 0 1 0).RespectsLengths (.reference Int) := by
  refine ⟨⟨by decide, fun h => ?_⟩, by decide, fun h => ?_⟩ <;>
  · obtain ⟨_, houtputs, -⟩ := h (fun _ _ _ => 0) (fun _ _ _ => 0)
    cases houtputs

end Rnn

end OnnxRuntime
