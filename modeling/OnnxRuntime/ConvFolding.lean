/-
The arithmetic by which a `Mul`, an `Add` or a `BatchNormalization` goes into
the weight and the bias of the `Conv` before it, and what it has to equal.
-/
import OnnxRuntime.TensorInitializer
import Mathlib.Tactic.Ring
import Mathlib.Tactic.FieldSimp

namespace OnnxRuntime

open List Initializer

variable {K : Type} {channel : Nat} {other : Initializer K}

/-- A message that nothing was written to. -/
def TensorData.cleared : TensorData K where
  dataType := .float
  dims := []

namespace ConvAddFusion

/-- The new bias of a `Conv` that has one; `none` leaves the nodes alone. -/
def newBias [Add K] (convBProto addBProto : TensorProto K) :
    Except FusionStop (Option (TensorProto K)) := do
  let convB ← Initializer.ofProto convBProto
  let addB ← Initializer.ofProto addBProto
  if convB.size ≠ addB.size then
    return none
  else
    let convB ← convB.add addB
    let newConvB ← convB.toProto .cleared
    return some newConvB

/-- The bias of a `Conv` that has none is the operand, with one dimension. -/
def reshaped (convWProto addBProto : TensorProto K) : TensorProto K where
  name := addBProto.name
  value := { addBProto.value with dims := convWProto.value.dims.take 1 }

end ConvAddFusion

/-- What `ConvMulFusion` makes of a bias. -/
def ConvMulFusion.scaleBias [Mul K] (convB mulB : Initializer K) :
    Except FusionStop (Initializer K) :=
  if mulB.dims ≠ [] then convB.mul mulB else convB.scaleByAxis mulB 0

/-- The new weight and bias of `ConvMulFusion`. -/
def ConvMulFusion.newTensors [Mul K] (convWProto : TensorProto K)
    (convBProto : Option (TensorProto K)) (convW mulB : Initializer K) :
    Except FusionStop (TensorProto K × Option (TensorProto K)) :=
  match convBProto with
  | none => do
      let convW ← convW.scaleByAxis mulB 1
      let newConvW ← convW.toProto convWProto.value
      return (newConvW, none)
  | some convBProto => do
      let convB ← Initializer.ofProto convBProto
      let convW ← convW.scaleByAxis mulB 1
      let convB ← scaleBias convB mulB
      let newConvW ← convW.toProto convWProto.value
      let newConvB ← convB.toProto convBProto.value
      return (newConvW, some newConvB)

/-- The copies `ConvBNFusion` makes of the inputs of the normalization. -/
structure BatchNorm (τ : Type) where
  scale : τ
  bias : τ
  mean : τ
  var : τ

/-- The new weight and bias of `ConvBNFusion`.  `root` is `std::sqrt`. -/
def ConvBNFusion.newTensors [Add K] [Sub K] [Mul K] [Div K] (root : K → K)
    (epsilon : K) (convWProto : TensorProto K)
    (convBProto : Option (TensorProto K)) (bn : BatchNorm (Initializer K))
    (convW : Initializer K) :
    Except FusionStop (TensorProto K × TensorProto K) :=
  match convBProto with
  | some convBProto => do
      let convB ← Initializer.ofProto convBProto
      let var ← bn.var.addValue epsilon
      let var ← var.sqrt root
      let scale ← bn.scale.div var
      let convW ← convW.scaleByAxis scale 1
      let convB ← convB.sub bn.mean
      let convB ← convB.mul scale
      let convB ← convB.add bn.bias
      let newConvW ← convW.toProto convWProto.value
      let newConvB ← convB.toProto .cleared
      return (newConvW, newConvB)
  | none => do
      let var ← bn.var.addValue epsilon
      let var ← var.sqrt root
      let scale ← bn.scale.div var
      let convW ← convW.scaleByAxis scale 1
      let mean ← bn.mean.mul scale
      let bias ← bn.bias.sub mean
      let newConvW ← convW.toProto convWProto.value
      let newConvB ← bias.toProto .cleared
      return (newConvW, newConvB)

section Operators

/-- The input of a convolution. -/
structure ConvInput (K : Type) where
  extents : List Nat
  value : Nat → Nat → List Nat → K

/-- Zero outside of the extents. -/
def ConvInput.padded [Zero K] (input : ConvInput K) (batch channel : Nat)
    (position : List Int) : K :=
  if ∀ entry ∈ position.zip input.extents, 0 ≤ entry.1 ∧ entry.1 < entry.2 then
    input.value batch channel (position.map Int.toNat)
  else 0

structure ConvAttributes where
  group : Nat
  strides : List Nat
  dilations : List Nat
  pads : List Nat

/-- The coordinates of a position in row-major order. -/
def coordinates : List Nat → Nat → List Nat
  | [], _ => []
  | _ :: rest, k => k / rest.prod :: coordinates rest (k % rest.prod)

/-- The part of the input that the weights of an output channel are multiplied
with, for one position of the output. -/
def ConvAttributes.window [Zero K] (attrs : ConvAttributes)
    (weightDims : List Nat) (input : ConvInput K) (batch channel : Nat)
    (position : List Nat) (j : Nat) : K :=
  let kernel := weightDims.drop 2
  let perGroup := weightDims.headD 0 / attrs.group
  let offset := coordinates kernel (j % kernel.prod)
  input.padded batch
    (channel / perGroup * weightDims.tail.headD 0 + j / kernel.prod)
    ((List.range kernel.length).map fun d =>
      (position.getD d 0 * attrs.strides.getD d 1 : Int) +
        offset.getD d 0 * attrs.dilations.getD d 1 - attrs.pads.getD d 0)

def biasValue [Zero K] (bias : Option (TensorProto K)) (channel : Nat) : K :=
  match bias with
  | none => 0
  | some bias => bias.value.cells.getD channel 0

/-- One element of what `Conv` computes. -/
def ConvAttributes.conv [Semiring K] (attrs : ConvAttributes)
    (weight : TensorProto K) (bias : Option (TensorProto K))
    (input : ConvInput K) (batch channel : Nat) (position : List Nat) : K :=
  let weightDims := weight.value.dims.map Int.toNat
  let num := weightDims.tail.prod
  ∑ j ∈ Finset.range num, weight.value.cells.getD (channel * num + j) 0 *
    attrs.window weightDims input batch channel position j +
  biasValue bias channel

/-- Where broadcasting reads an operand for an index of the result. -/
def broadcastIndex (dims : List Int) (index : List Nat) : Nat :=
  (dims.zip (index.drop (index.length - dims.length))).foldl
    (fun k entry => k * entry.1.toNat + if entry.1 = 1 then 0 else entry.2) 0

/-- The operator after a `Conv`, with its other operands. -/
inductive ConvFollower (K : Type) where
  | mul (mulB : TensorProto K)
  | add (addB : TensorProto K)
  | batchNorm (bn : BatchNorm (TensorProto K)) (epsilon : K)

namespace ConvFollower

variable [Field K] (root : K → K)

/-- The operator by itself, on the elements of its input. -/
def operator (y : Nat → Nat → List Nat → K) (batch channel : Nat)
    (position : List Nat) : ConvFollower K → K
  | mul mulB =>
    y batch channel position * mulB.value.cells.getD (broadcastIndex
      mulB.value.dims (batch :: channel :: position)) 0
  | add addB =>
    y batch channel position + addB.value.cells.getD (broadcastIndex
      addB.value.dims (batch :: channel :: position)) 0
  | batchNorm bn epsilon =>
    bn.scale.value.cells.getD channel 0 *
      (y batch channel position - bn.mean.value.cells.getD channel 0) /
        root (bn.var.value.cells.getD channel 0 + epsilon) +
      bn.bias.value.cells.getD channel 0

/-- The weight and bias that the fusion of the operator computes. -/
def fold (convWProto : TensorProto K) (convBProto : Option (TensorProto K)) :
    ConvFollower K →
      Except FusionStop (Option (TensorProto K × Option (TensorProto K)))
  | mul mulB => do
      let convW ← Initializer.ofProto convWProto
      let mulB ← Initializer.ofProto mulB
      let new ← ConvMulFusion.newTensors convWProto convBProto convW mulB
      return some new
  | add addB =>
    match convBProto with
    | some convBProto => do
        let new ← ConvAddFusion.newBias convBProto addB
        return new.map fun new => (convWProto, some new)
    | none =>
      return some (convWProto, some (ConvAddFusion.reshaped convWProto addB))
  | batchNorm bn epsilon => do
      let scale ← Initializer.ofProto bn.scale
      let bias ← Initializer.ofProto bn.bias
      let mean ← Initializer.ofProto bn.mean
      let var ← Initializer.ofProto bn.var
      let convW ← Initializer.ofProto convWProto
      let new ← ConvBNFusion.newTensors root epsilon convWProto convBProto
        ⟨scale, bias, mean, var⟩ convW
      return some (new.1, some new.2)

end ConvFollower

end Operators

section Tensors

/-- A stored tensor of real numbers with these extents.  `fits` bounds the
product that is kept in an `int64_t`; the loops of `Initializer` go through the
cells with an `int`, which would overflow beyond `2 ^ 31` cells, where the model
counts on. -/
structure TensorData.Full (tensor : TensorData K) (elem : ElemType)
    (extents : List Nat) : Prop where
  real : elem.IsReal
  dataType : tensor.dataType = elem
  dims : tensor.dims = extents.map Nat.cast
  length : tensor.cells.length = extents.prod
  fits : extents.prod < 2 ^ 63

variable {elem : ElemType} {extents rest : List Nat} {channels : Nat}
  {tensor : TensorData K}

theorem TensorData.Full.is [Zero K] (h : tensor.Full elem extents) :
    tensor.Is extents.prod fun k => tensor.cells.getD k 0 := by
  refine ⟨h.dataType ▸ h.real, ?_, ?_⟩
  · rw [h.dims, extent_natCast h.fits]
  · rw [← h.length]
    refine ext_getElem (by simp) fun k hk hk' => ?_
    simp [getElem?_eq_getElem hk]

theorem TensorData.Full.isVector [Zero K] (h : tensor.Full elem [channels]) :
    tensor.Is channels fun k => tensor.cells.getD k 0 := by
  simpa using h.is

theorem TensorData.Is.getD [Zero K] {count : Nat} {f : Nat → K}
    (h : tensor.Is count f) {k : Nat} (hk : k < count) :
    tensor.cells.getD k 0 = f k := by
  simp [h.cells, hk]

variable (h : tensor.Full elem (channels :: rest))
include h

theorem TensorData.Full.extent_tail (hpos : 0 < channels) :
    extent (tensor.dims.drop 1) = rest.prod := by
  have hle : rest.prod ≤ (channels :: rest).prod := by
    exact Nat.le_mul_of_pos_left _ hpos
  rw [h.dims, drop_one]
  exact extent_natCast (lt_of_le_of_lt hle h.fits)

/-- Each output channel is one block of the weight. -/
theorem TensorData.Full.blocks (hnum : extent (tensor.dims.drop 1) ≠ 0) :
    (extent tensor.dims).tdiv (extent (tensor.dims.drop 1)) = channels ∧
      (channels :: rest).prod =
        channels * (extent (tensor.dims.drop 1)).toNat := by
  have hsize : extent tensor.dims = (channels * rest.prod : Nat) := by
    rw [h.dims, extent_natCast h.fits, prod_cons]
  rw [hsize]
  rcases eq_zero_or_pos channels with rfl | hpos
  · simp
  · rw [h.extent_tail hpos] at hnum ⊢
    rw [Nat.cast_mul, Int.mul_tdiv_cancel _ hnum]
    exact ⟨rfl, rfl⟩

end Tensors

section Folding

variable [Field K] {elem : ElemType} {rest : List Nat} {channels : Nat}
  {convW convB : TensorProto K} {W : Initializer K}

/-- The weights of each output channel are multiplied by one number. -/
structure ScaledBy (convW new : TensorProto K) (channels : Nat)
    (rest : List Nat) (s : Nat → K) : Prop where
  dims : new.value.dims = convW.value.dims
  cells : ∀ channel < channels, ∀ j < rest.prod,
    new.value.cells.getD (channel * rest.prod + j) 0 =
      convW.value.cells.getD (channel * rest.prod + j) 0 * s channel

/-- `Conv` is linear in its weights. -/
theorem ScaledBy.conv {new : TensorProto K} {s : Nat → K}
    (h : ScaledBy convW new channels rest s)
    (hdims : convW.value.dims = (channels :: rest).map Nat.cast)
    {bias newBias : Option (TensorProto K)} {t : K}
    (hchannel : channel < channels)
    (hbias : biasValue newBias channel = biasValue bias channel * s channel + t)
    (attrs : ConvAttributes) (input : ConvInput K) (batch : Nat)
    (position : List Nat) :
    attrs.conv new newBias input batch channel position =
      attrs.conv convW bias input batch channel position * s channel + t := by
  have hnum : (convW.value.dims.map Int.toNat).tail.prod = rest.prod := by
    rw [hdims]
    simp [Function.comp_def]
  rw [ConvAttributes.conv, ConvAttributes.conv, h.dims, hnum, add_mul,
    Finset.sum_mul, add_assoc]
  congr 1
  refine Finset.sum_congr rfl fun j hj => ?_
  rw [h.cells channel hchannel j (Finset.mem_range.1 hj)]
  ring

/-- What `scale_by_axis` makes of a weight. -/
theorem scaledBy_scaleByAxis
    (hweight : convW.value.Full elem (channels :: rest))
    (hcopy : W.Copies convW)
    (his : W.Is (channels :: rest).prod fun k => convW.value.cells.getD k 0)
    (hnum : extent (convW.value.dims.drop 1) ≠ 0)
    {operands : Nat} {g : Nat → K} (hother : other.Is operands g)
    (hone : operands = 1 ∨ operands = channels) :
    ∃ u, W.scaleByAxis other 1 = .ok u ∧
      ∃ new, u.toProto convW.value = .ok new ∧
        ScaledBy convW new channels rest fun channel =>
          g (if operands = 1 then 0 else channel) := by
  obtain ⟨hblocks, hprod⟩ := hweight.blocks hnum
  rw [← hcopy.dims] at hnum hprod
  rw [← hcopy.size, ← hcopy.dims] at hblocks
  rw [hprod] at his
  obtain ⟨u, hrun, hlike, hu⟩ :=
    his.scaleByAxis hnum hblocks hother (by omega)
  obtain ⟨new, hnew, hdims, hvalue⟩ := hcopy.toProto hlike hu _ (.inl rfl)
  refine ⟨u, hrun, new, hnew, hdims, fun channel hchannel j hj => ?_⟩
  have hwidth : (extent (W.dims.drop 1)).toNat = rest.prod := by
    rw [hcopy.dims, hweight.extent_tail (by omega), Int.toNat_natCast]
  rw [hwidth] at hvalue
  have hk : channel * rest.prod + j < channels * rest.prod := by
    have hle : (channel + 1) * rest.prod ≤ channels * rest.prod :=
      Nat.mul_le_mul_right _ hchannel
    rw [add_mul] at hle
    omega
  have hdiv : (channel * rest.prod + j) / rest.prod = channel := by
    rw [mul_comm, Nat.mul_add_div (by omega), Nat.div_eq_of_lt hj, add_zero]
  rw [hvalue.getD hk, hdiv]

theorem Initializer.Copies.extent_ne_zero (hcopy : W.Copies convW)
    {u : Initializer K} {axis : Nat}
    (h : W.scaleByAxis other axis = .ok u) :
    extent (convW.value.dims.drop axis) ≠ 0 := by
  intro hzero
  rw [scaleByAxis, hcopy.dims, if_pos hzero] at h
  cases h

end Folding

section Followers

theorem foldl_broadcast_ones (count : Nat) (position : List Nat) (k : Nat) :
    (((replicate count 1).map (Nat.cast : Nat → Int)).zip position).foldl
      (fun k entry => k * entry.1.toNat + if entry.1 = 1 then 0 else entry.2)
      k = k := by
  induction count generalizing position with
  | zero => rfl
  | succ count ih =>
    cases position with
    | nil => rfl
    | cons p position =>
      rw [replicate_succ, map_cons, zip_cons_cons]
      simpa using ih position

/-- An operand with one value for each channel is read at the channel. -/
theorem broadcastIndex_channel {count batch channels : Nat}
    {position : List Nat} (hcount : position.length = count) :
    broadcastIndex ((channels :: replicate count 1).map Nat.cast)
      (batch :: channel :: position) = if channels = 1 then 0 else channel := by
  have hdrop : (batch :: channel :: position).length -
      ((channels :: replicate count 1).map
        (Nat.cast : Nat → Int)).length = 1 := by
    simp [hcount]
  rw [broadcastIndex, hdrop, drop_one, tail_cons, map_cons,
    zip_cons_cons, foldl_cons, foldl_broadcast_ones]
  simp

variable [Field K] {root : K → K} {elem : ElemType} {rest : List Nat}
  {channels : Nat} {convW : TensorProto K} {convB : Option (TensorProto K)}

namespace ConvFollower

/-- The operands have the element type of the weight and either one value or
one for each output channel, where a fusion looks for that. -/
def Operands (elem : ElemType) (channels rank : Nat) : ConvFollower K → Prop
  | mul mulB => mulB.value.Full elem [] ∨
      mulB.value.Full elem (channels :: List.replicate (rank - 2) 1)
  | add addB => addB.value.Full elem (channels :: List.replicate (rank - 2) 1)
  | batchNorm bn _ =>
    bn.scale.value.Full elem [channels] ∧ bn.bias.value.Full elem [channels] ∧
      bn.mean.value.Full elem [channels] ∧ bn.var.value.Full elem [channels]

/-- The fusion computes a weight and a bias with which `Conv` alone does what
`Conv` and the operator after it did. -/
def Folds (root : K → K) (convW : TensorProto K)
    (convB : Option (TensorProto K)) (channels rank : Nat)
    (follower : ConvFollower K) : Prop :=
  ∃ newW newB, follower.fold root convW convB = .ok (some (newW, newB)) ∧
    ∀ (attrs : ConvAttributes) (input : ConvInput K) (batch channel : Nat)
      (position : List Nat), channel < channels → position.length + 2 = rank →
      attrs.conv newW newB input batch channel position =
        follower.operator root (attrs.conv convW convB input) batch channel
          position

/-- No number that a fusion divides by is zero: what one output channel of the
weight counts, and, for a single factor, what the bias counts. -/
def Divisible (convW : TensorProto K) (convB : Option (TensorProto K)) :
    ConvFollower K → Prop
  | mul mulB => extent (convW.value.dims.drop 1) ≠ 0 ∧
      (mulB.value.dims = [] → ∀ bias ∈ convB, extent bias.value.dims ≠ 0)
  | add _ => True
  | batchNorm _ _ => extent (convW.value.dims.drop 1) ≠ 0

theorem folds_of {follower : ConvFollower K} {newW : TensorProto K}
    {newB : Option (TensorProto K)} {s t : Nat → K}
    (hdims : convW.value.dims = (channels :: rest).map Nat.cast)
    (hfold : follower.fold root convW convB = .ok (some (newW, newB)))
    (hscaled : ScaledBy convW newW channels rest s)
    (hbias : ∀ channel < channels, biasValue newB channel =
      biasValue convB channel * s channel + t channel)
    (hoperator : ∀ (y : Nat → Nat → List Nat → K) batch channel position,
      channel < channels → position.length + 2 = rest.length + 1 →
      follower.operator root y batch channel position =
        y batch channel position * s channel + t channel) :
    follower.Folds root convW convB channels (rest.length + 1) := by
  refine ⟨newW, newB, hfold, ?_⟩
  intro attrs input batch channel position hchannel hposition
  rw [hoperator _ batch channel position hchannel hposition]
  exact hscaled.conv hdims hchannel (hbias channel hchannel) attrs input batch
    position

variable {addB mulB : TensorProto K} {bn : BatchNorm (TensorProto K)}
  {epsilon : K}

theorem channelIndex (hchannel : channel < channels) :
    (if channels = 1 then 0 else channel) = channel := by
  split <;> omega

theorem operator_add (hadd : addB.value.Full elem
      (channels :: replicate (rest.length + 1 - 2) 1))
    (y : Nat → Nat → List Nat → K) (batch channel : Nat) (position : List Nat)
    (hchannel : channel < channels)
    (hposition : position.length + 2 = rest.length + 1) :
    (add addB).operator root y batch channel position =
      y batch channel position * 1 + addB.value.cells.getD channel 0 := by
  rw [operator, hadd.dims, broadcastIndex_channel (by omega),
    channelIndex hchannel, mul_one]

theorem operator_mul {operands : List Nat}
    (hoperands : operands = [] ∨
      operands = channels :: replicate (rest.length + 1 - 2) 1)
    (hmul : mulB.value.Full elem operands)
    (y : Nat → Nat → List Nat → K) (batch channel : Nat) (position : List Nat)
    (_hchannel : channel < channels)
    (hposition : position.length + 2 = rest.length + 1) :
    (mul mulB).operator root y batch channel position =
      y batch channel position * mulB.value.cells.getD
        (if operands.prod = 1 then 0 else channel) 0 + 0 := by
  rw [operator, hmul.dims, add_zero]
  rcases hoperands with rfl | rfl
  · rfl
  · rw [broadcastIndex_channel (by omega)]
    simp

/-- The bias takes the factor of its channel, or the only one. -/
theorem exists_scaledBias {B M : Initializer K} {operands : List Nat}
    {b g : Nat → K} (hoperands : operands = [] ∨
      operands = channels :: replicate (rest.length + 1 - 2) 1)
    (hdims : M.dims = operands.map Nat.cast) (hM : M.Is operands.prod g)
    (hB : B.Is channels b) (hsize : B.size = extent B.dims)
    (hnum : M.dims = [] → extent B.dims ≠ 0) :
    ∃ u, ConvMulFusion.scaleBias B M = .ok u ∧ B.Like u ∧
      u.Is channels fun k => b k * g (if operands.prod = 1 then 0 else k) := by
  rcases hoperands with rfl | rfl
  · have hnil : M.dims = [] := hdims
    have hextent : extent (B.dims.drop 0) = channels := by
      rw [drop_zero, ← hsize, hB.size]
    have hne : extent (B.dims.drop 0) ≠ 0 := hnum hnil
    have hblocks : B.size.tdiv (extent (B.dims.drop 0)) = (1 : Nat) := by
      rw [hB.size, ← hextent, Int.tdiv_self hne]
      rfl
    have hB' : B.Is (1 * (extent (B.dims.drop 0)).toNat) b := by
      rw [hextent, one_mul]
      exact hB
    obtain ⟨u, hrun, hlike, hu⟩ :=
      hB'.scaleByAxis hne hblocks hM (.inl rfl)
    rw [hextent, one_mul] at hu
    rw [ConvMulFusion.scaleBias, if_neg (not_not_intro hnil)]
    exact ⟨u, hrun, hlike, hu⟩
  · have hcons : M.dims ≠ [] := by
      rw [hdims]
      exact cons_ne_nil _ _
    rw [prod_cons, prod_replicate, one_pow, mul_one] at hM ⊢
    rw [ConvMulFusion.scaleBias, if_pos hcons]
    refine hB.update (· * ·) fun k hk => ?_
    rw [channelIndex hk]
    exact hM.getElem? hk

/-- The factor that a normalization has for a channel. -/
def factor (root : K → K) (bn : BatchNorm (TensorProto K)) (epsilon : K)
    (channel : Nat) : K :=
  bn.scale.value.cells.getD channel 0 /
    root (bn.var.value.cells.getD channel 0 + epsilon)

theorem operator_batchNorm (y : Nat → Nat → List Nat → K)
    (batch channel : Nat) (position : List Nat) :
    (batchNorm bn epsilon).operator root y batch channel position =
      y batch channel position * factor root bn epsilon channel +
        (bn.bias.value.cells.getD channel 0 -
          bn.mean.value.cells.getD channel 0 *
            factor root bn epsilon channel) := by
  rw [operator, factor, div_eq_mul_inv]
  ring

section

variable (hweight : convW.value.Full elem (channels :: rest))
  (hbias : ∀ bias ∈ convB, bias.value.Full elem [channels])
include hweight hbias

theorem folds_add (hadd : addB.value.Full elem
      (channels :: replicate (rest.length + 1 - 2) 1)) :
    (add addB).Folds root convW convB channels (rest.length + 1) := by
  have hsame : ScaledBy convW convW channels rest fun _ => 1 :=
    ⟨rfl, fun channel _ j _ => (mul_one _).symm⟩
  have haddIs := hadd.is
  rw [prod_cons, prod_replicate, one_pow, mul_one] at haddIs
  cases convB with
  | none =>
    refine folds_of hweight.dims rfl hsame (fun channel hchannel => ?_)
      (operator_add hadd)
    rw [biasValue, zero_mul, zero_add]
    rfl
  | some bias =>
    obtain ⟨B, hB, hcopy, hBis⟩ := exists_ofProto (hbias bias rfl).isVector
    obtain ⟨A, hA, -, hAis⟩ := exists_ofProto haddIs
    obtain ⟨sum, hsum, hlike, hsumIs⟩ :=
      hBis.update (· + ·) fun k hk => hAis.getElem? hk
    obtain ⟨new, hnew, -, hnewIs⟩ :=
      hcopy.toProto hlike hsumIs .cleared (.inr rfl)
    have hsizes : ¬ B.size ≠ A.size := by
      rw [hBis.size, hAis.size]
      exact fun h => h rfl
    have hfold : (add addB).fold root convW (some bias) =
        .ok (some (convW, some new)) := by
      rw [fold, ConvAddFusion.newBias, hB, hA]
      simp only [bind, Except.bind, if_neg hsizes, Initializer.add, hsum, hnew]
      rfl
    refine folds_of hweight.dims hfold hsame (fun channel hchannel => ?_)
      (operator_add hadd)
    rw [biasValue, biasValue, hnewIs.getD hchannel, mul_one]

theorem folds_mul {operands : List Nat}
    (hoperands : operands = [] ∨
      operands = channels :: replicate (rest.length + 1 - 2) 1)
    (hmul : mulB.value.Full elem operands)
    (hdivisible : (mul mulB).Divisible convW convB) :
    (mul mulB).Folds root convW convB channels (rest.length + 1) := by
  obtain ⟨hnum, hnumB⟩ := hdivisible
  have hone : operands.prod = 1 ∨ operands.prod = channels := by
    rcases hoperands with rfl | rfl
    · exact .inl rfl
    · exact .inr (by simp)
  obtain ⟨W, hW, hcopyW, hWis⟩ := exists_ofProto hweight.is
  obtain ⟨M, hM, hcopyM, hMis⟩ := exists_ofProto hmul.is
  obtain ⟨U, hU, newW, hnewW, hscaled⟩ :=
    scaledBy_scaleByAxis hweight hcopyW hWis hnum hMis hone
  cases convB with
  | none =>
    have hfold : (mul mulB).fold root convW none = .ok (some (newW, none)) := by
      rw [fold, hW, hM]
      simp only [bind, Except.bind, ConvMulFusion.newTensors, hU, hnewW]
      rfl
    refine folds_of hweight.dims hfold hscaled (fun channel _ => ?_)
      (operator_mul hoperands hmul)
    rw [biasValue, zero_mul, zero_add]
  | some bias =>
    obtain ⟨B, hB, hcopyB, hBis⟩ := exists_ofProto (hbias bias rfl).isVector
    have hsize : B.size = extent B.dims := hcopyB.size.trans
      (congrArg extent hcopyB.dims.symm)
    obtain ⟨V, hV, hlike, hVis⟩ := exists_scaledBias hoperands
      (hcopyM.dims.trans hmul.dims) hMis hBis hsize fun hnil => by
        rw [hcopyB.dims]
        exact hnumB (hcopyM.dims ▸ hnil) bias rfl
    obtain ⟨newB, hnewB, -, hnewIs⟩ :=
      hcopyB.toProto hlike hVis _ (.inl rfl)
    have hfold : (mul mulB).fold root convW (some bias) =
        .ok (some (newW, some newB)) := by
      rw [fold, hW, hM]
      simp only [bind, Except.bind, ConvMulFusion.newTensors, hB, hU, hV,
        hnewW, hnewB]
      rfl
    refine folds_of hweight.dims hfold hscaled (fun channel hchannel => ?_)
      (operator_mul hoperands hmul)
    rw [biasValue, biasValue, hnewIs.getD hchannel, add_zero]

theorem folds_batchNorm (hscale : bn.scale.value.Full elem [channels])
    (hshift : bn.bias.value.Full elem [channels])
    (hmean : bn.mean.value.Full elem [channels])
    (hvar : bn.var.value.Full elem [channels])
    (hnum : extent (convW.value.dims.drop 1) ≠ 0) :
    (batchNorm bn epsilon).Folds root convW convB channels
      (rest.length + 1) := by
  obtain ⟨W, hW, hcopyW, hWis⟩ := exists_ofProto hweight.is
  obtain ⟨S, hS, -, hSis⟩ := exists_ofProto hscale.isVector
  obtain ⟨T, hT, hcopyT, hTis⟩ := exists_ofProto hshift.isVector
  obtain ⟨M, hM, -, hMis⟩ := exists_ofProto hmean.isVector
  obtain ⟨V, hV, -, hVis⟩ := exists_ofProto hvar.isVector
  obtain ⟨V₁, hV₁, -, hV₁is⟩ := hVis.update (· + ·)
    fun k _ => (rfl : some epsilon = _)
  obtain ⟨V₂, hV₂, -, hV₂is⟩ := hV₁is.update (fun _ a => root a)
    fun k hk => hV₁is.getElem? hk
  obtain ⟨F, hF, -, hFis⟩ := hSis.update (· / ·) fun k hk => hV₂is.getElem? hk
  obtain ⟨U, hU, newW, hnewW, hscaled⟩ :=
    scaledBy_scaleByAxis hweight hcopyW hWis hnum hFis (.inr rfl)
  have hfactor : ScaledBy convW newW channels rest
      (factor root bn epsilon) := by
    refine ⟨hscaled.dims, fun channel hchannel j hj => ?_⟩
    rw [hscaled.cells channel hchannel j hj, channelIndex hchannel]
    rfl
  cases convB with
  | none =>
    obtain ⟨M₁, hM₁, -, hM₁is⟩ := hMis.update (· * ·)
      fun k hk => hFis.getElem? hk
    obtain ⟨T₁, hT₁, hlike, hT₁is⟩ := hTis.update (· - ·)
      fun k hk => hM₁is.getElem? hk
    obtain ⟨newB, hnewB, -, hnewIs⟩ :=
      hcopyT.toProto hlike hT₁is .cleared (.inr rfl)
    have hfold : (batchNorm bn epsilon).fold root convW none =
        .ok (some (newW, some newB)) := by
      rw [fold, hS, hT, hM, hV, hW]
      simp only [bind, Except.bind, ConvBNFusion.newTensors,
        addValue, hV₁, sqrt, hV₂, div,
        hF, hU, Initializer.mul, hM₁, Initializer.sub, hT₁, hnewW, hnewB]
      rfl
    refine folds_of hweight.dims hfold hfactor (fun channel hchannel => ?_)
      fun y batch channel position _ _ => operator_batchNorm y batch channel
        position
    rw [biasValue, biasValue, hnewIs.getD hchannel, zero_mul, zero_add]
    rfl
  | some bias =>
    obtain ⟨B, hB, hcopyB, hBis⟩ := exists_ofProto (hbias bias rfl).isVector
    obtain ⟨B₁, hB₁, hlike₁, hB₁is⟩ := hBis.update (· - ·)
      fun k hk => hMis.getElem? hk
    obtain ⟨B₂, hB₂, hlike₂, hB₂is⟩ := hB₁is.update (· * ·)
      fun k hk => hFis.getElem? hk
    obtain ⟨B₃, hB₃, hlike₃, hB₃is⟩ := hB₂is.update (· + ·)
      fun k hk => hTis.getElem? hk
    obtain ⟨newB, hnewB, -, hnewIs⟩ := hcopyB.toProto
      ((hlike₁.trans hlike₂).trans hlike₃) hB₃is .cleared (.inr rfl)
    have hfold : (batchNorm bn epsilon).fold root convW (some bias) =
        .ok (some (newW, some newB)) := by
      rw [fold, hS, hT, hM, hV, hW]
      simp only [bind, Except.bind, ConvBNFusion.newTensors, hB, addValue, hV₁,
        sqrt, hV₂, div, hF, hU, Initializer.sub, hB₁, Initializer.mul, hB₂,
        Initializer.add, hB₃, hnewW, hnewB]
      rfl
    refine folds_of hweight.dims hfold hfactor (fun channel hchannel => ?_)
      fun y batch channel position _ _ => operator_batchNorm y batch channel
        position
    rw [biasValue, biasValue, hnewIs.getD hchannel, factor]
    ring

end

/-- A fold that returns has divided by no zero. -/
theorem divisible_of_fold {follower : ConvFollower K}
    (hweight : convW.value.dataType.IsReal)
    (hbias : ∀ bias ∈ convB, bias.value.dataType.IsReal)
    (hmulB : ∀ mulB, follower = mul mulB → mulB.value.dataType.IsReal)
    {new : Option (TensorProto K × Option (TensorProto K))}
    (hfold : follower.fold root convW convB = .ok new) :
    follower.Divisible convW convB := by
  cases follower with
  | add addB => trivial
  | mul mulB =>
    obtain ⟨W, hW, hfold⟩ := except_bind_eq_ok.1 hfold
    obtain ⟨M, hM, hfold⟩ := except_bind_eq_ok.1 hfold
    obtain ⟨tensors, hfold, -⟩ := except_bind_eq_ok.1 hfold
    have hcopyW := copies_of_ofProto hW hweight
    have hcopyM := copies_of_ofProto hM (hmulB mulB rfl)
    cases convB with
    | none =>
      obtain ⟨U, hU, -⟩ := except_bind_eq_ok.1 hfold
      exact ⟨hcopyW.extent_ne_zero hU, nofun⟩
    | some bias =>
      obtain ⟨B, hB, hfold⟩ := except_bind_eq_ok.1 hfold
      obtain ⟨U, hU, hfold⟩ := except_bind_eq_ok.1 hfold
      obtain ⟨V, hV, -⟩ := except_bind_eq_ok.1 hfold
      have hcopyB := copies_of_ofProto hB (hbias bias rfl)
      refine ⟨hcopyW.extent_ne_zero hU, ?_⟩
      rintro hnil _ ⟨⟩
      rw [← hcopyM.dims] at hnil
      rw [ConvMulFusion.scaleBias, if_neg (not_not_intro hnil)] at hV
      exact hcopyB.extent_ne_zero hV
  | batchNorm bn epsilon =>
    simp only [fold, except_bind_eq_ok] at hfold
    obtain ⟨S, -, T, -, M, -, V, -, W, hW, tensors, hfold, -⟩ := hfold
    have hcopyW := copies_of_ofProto hW hweight
    cases convB with
    | none =>
      simp only [ConvBNFusion.newTensors, except_bind_eq_ok] at hfold
      obtain ⟨V₁, -, V₂, -, F, -, U, hU, -⟩ := hfold
      exact hcopyW.extent_ne_zero hU
    | some bias =>
      simp only [ConvBNFusion.newTensors, except_bind_eq_ok] at hfold
      obtain ⟨B, -, V₁, -, V₂, -, F, -, U, hU, -⟩ := hfold
      exact hcopyW.extent_ne_zero hU

/-- Folding an operator into the `Conv` before it keeps every value, for every
input and all attributes, exactly where nothing is divided by zero. -/
theorem folds_iff_divisible (follower : ConvFollower K)
    (hweight : convW.value.Full elem (channels :: rest))
    (hbias : ∀ bias ∈ convB, bias.value.Full elem [channels])
    (hoperands : follower.Operands elem channels (rest.length + 1)) :
    follower.Folds root convW convB channels (rest.length + 1) ↔
      follower.Divisible convW convB := by
  constructor
  · rintro ⟨newW, newB, hfold, -⟩
    refine divisible_of_fold (hweight.dataType ▸ hweight.real)
      (fun bias hmem => ?_) ?_ hfold
    · exact (hbias bias hmem).dataType ▸ (hbias bias hmem).real
    · rintro mulB rfl
      rcases hoperands with hmul | hmul
      · exact hmul.dataType ▸ hmul.real
      · exact hmul.dataType ▸ hmul.real
  intro hdivisible
  cases follower with
  | mul mulB =>
    rcases hoperands with hmul | hmul
    · exact folds_mul hweight hbias (.inl rfl) hmul hdivisible
    · exact folds_mul hweight hbias (.inr rfl) hmul hdivisible
  | add addB => exact folds_add hweight hbias hoperands
  | batchNorm bn epsilon =>
    obtain ⟨hscale, hshift, hmean, hvar⟩ := hoperands
    exact folds_batchNorm hweight hbias hscale hshift hmean hvar hdivisible

/-- A float tensor with these extents and values. -/
def floatTensor (name : String) (dims : List Int) (cells : List ℚ) :
    TensorProto ℚ where
  name := name
  value := { dataType := .float, dims := dims, floatData := cells }

/-- Two output channels of one weight each, with a bias, and a factor for each
of the channels. -/
theorem folds_twoChannels : (mul (floatTensor "M" [2, 1] [5, 7])).Folds id
      (floatTensor "W" [2, 1, 1] [3, 4]) (some (floatTensor "B" [2] [1, 2]))
      2 3 := by
  have hweight : (floatTensor "W" [2, 1, 1] [3, 4]).value.Full .float
      [2, 1, 1] := ⟨.inl rfl, rfl, rfl, rfl, by decide⟩
  have hbias : ∀ bias ∈ some (floatTensor "B" [2] [1, 2]),
      bias.value.Full .float [2] := by
    rintro _ ⟨⟩
    exact ⟨.inl rfl, rfl, rfl, rfl, by decide⟩
  exact (folds_iff_divisible (mul (floatTensor "M" [2, 1] [5, 7])) hweight
    hbias (.inr ⟨.inl rfl, rfl, rfl, rfl, by decide⟩)).2 ⟨by decide, nofun⟩

/-- A weight without input channels.  `Conv` gives its bias for it, and the
fusion divides by zero. -/
theorem not_folds_noChannels :
    (floatTensor "W" [1, 0, 1, 1] []).value.Full .float [1, 0, 1, 1] ∧
    (mul (floatTensor "M" [] [5])).Operands .float 1 4 ∧
    (mul (floatTensor "M" [] [5])).fold id (floatTensor "W" [1, 0, 1, 1] [])
      none = .error .divisionByZero ∧
    ¬ (mul (floatTensor "M" [] [5])).Folds id
      (floatTensor "W" [1, 0, 1, 1] []) none 1 4 := by
  have hfold : (mul (floatTensor "M" [] [5])).fold id
      (floatTensor "W" [1, 0, 1, 1] []) none = .error .divisionByZero := rfl
  refine ⟨⟨.inl rfl, rfl, rfl, rfl, by decide⟩,
    .inl ⟨.inl rfl, rfl, rfl, rfl, by decide⟩, hfold, ?_⟩
  rintro ⟨newW, newB, hok, -⟩
  cases hok

end ConvFollower

end Followers

end OnnxRuntime
