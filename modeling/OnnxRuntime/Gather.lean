/-
Gather: a tensor of indices selects slices along an axis.  Offsets count bytes
for every element type.  A slice of fixed-size elements is copied whole; of a
slice of strings only the first is assigned.
-/
import OnnxRuntime.PartialRuns
import OnnxRuntime.Status
import Mathlib.Algebra.BigOperators.Group.List.Basic
import Mathlib.Tactic.Ring

namespace OnnxRuntime

open List Option

/-- `HandleNegativeAxis`. -/
def handleNegativeAxis (axis : Int) (tensorRank : Nat) :
    Except Failure (Fin tensorRank) :=
  if h : -tensorRank ≤ axis ∧ axis ≤ tensorRank - 1 then
    .ok ⟨(if axis < 0 then axis + tensorRank else axis).toNat, by omega⟩
  else
    .error (.enforce ("axis " ++ toString axis ++ " is not in valid range [-" ++
      toString tensorRank ++ "," ++ toString ((tensorRank : Int) - 1) ++ "]"))

namespace Gather

/-- A cell of a tensor is a byte, or a whole string. -/
structure Inputs (α : Type) where
  isStringType : Bool
  elementBytes : Nat
  elementBytes_pos : 0 < elementBytes
  shape : List Nat
  data : Nat → α
  indicesShape : List Nat
  indices : Nat → Int

structure Prepare (α : Type) extends Inputs α where
  axis : Fin shape.length

variable {α : Type} (p : Prepare α)

namespace Prepare

def m : Nat := (p.shape.take p.axis).prod

def n : Nat := p.indicesShape.prod

def extent : Nat := p.shape.get p.axis

def block : Nat := (p.shape.drop (p.axis + 1)).prod

def outputShape : List Nat :=
  p.shape.take p.axis ++ p.indicesShape ++ p.shape.drop (p.axis + 1)

/-- Cells of an element. -/
def cells : Nat := if p.isStringType then 1 else p.elementBytes

def input : Cells α := fun cell =>
  if cell < p.shape.prod * p.cells then some (p.data cell) else none

/-- A round of the loop in `GatherCopyData`. -/
def copyBlock (output : Cells α) (index : Nat) : Option (Cells α) :=
  let size := p.outputShape.prod * p.cells
  let blockSize := p.block * p.elementBytes
  let dataBatchBytes := (p.shape.drop p.axis).prod * p.elementBytes
  let gatheredBatchBytes := p.n * p.block * p.elementBytes
  let batch := index / p.n
  let i := index % p.n
  let srcOffset := batch * dataBatchBytes + (p.indices i).toNat * blockSize
  let dstOffset := batch * gatheredBatchBytes + i * blockSize
  if p.isStringType then
    gather size p.input (dstOffset / p.elementBytes)
      (srcOffset / p.elementBytes) 1 1 output
  else
    gather size p.input dstOffset srcOffset 1 blockSize output

def copyBlocks : Nat → Option (Cells α)
  | 0 => some fun _ => none
  | index + 1 => do
      let output ← copyBlocks index
      p.copyBlock output index

abbrev Inside (i : Nat) : Prop := 0 ≤ p.indices i ∧ p.indices i < p.extent

/-- `GatherCopyData`: the indices are checked first. -/
def gatherCopyData : Except Failure (Option (Cells α)) :=
  match (List.range p.n).find? fun i => ¬ p.Inside i with
  | some i => .error (.status .invalidArgument
      ("indices element out of data bounds, idx=" ++ toString (p.indices i) ++
        " data_dim=" ++ toString p.extent))
  | none => .ok (p.copyBlocks (p.m * p.n))

/-- Cells of a slice. -/
def width : Nat := p.block * p.cells

/-- The cell of the input where the slice for a position and an index begins. -/
def source (a i : Nat) : Nat :=
  (a * p.extent + (p.indices i).toNat) * p.width

/-- An index outside the axis is reported; otherwise the output has, at every
position and index, all cells of the slice. -/
structure GathersSlices (result : Except Failure (Option (Cells α))) :
    Prop where
  error_iff : (∃ failure, result = .error failure) ↔ ∃ i < p.n, ¬ p.Inside i
  slices : ∀ run, result = .ok run → Returns run fun output =>
    ∀ a < p.m, ∀ i < p.n, ∀ c < p.width,
      output ((a * p.n + i) * p.width + c) = some (p.data (p.source a i + c))

theorem flat_lt {a m i n : Nat} (ha : a < m) (hi : i < n) :
    a * n + i < m * n :=
  (Nat.add_lt_add_left hi _).trans_le
    (Nat.succ_mul a n ▸ Nat.mul_le_mul_right n ha)

theorem prod_drop : (p.shape.drop p.axis).prod = p.extent * p.block := by
  rw [drop_eq_getElem_cons p.axis.isLt, prod_cons]
  rfl

variable {p}

theorem input_eq {cell : Nat} (hcell : cell < p.m * p.extent * p.width) :
    p.input cell = some (p.data cell) := by
  refine if_pos (hcell.trans_eq ?_)
  rw [← prod_take_mul_prod_drop p.shape p.axis, prod_drop, width, m]
  ring

theorem copyBlock_eq (output : Cells α) (index : Nat) :
    p.copyBlock output index =
      gather (p.m * p.n * p.width) p.input (index * p.width)
        (p.source (index / p.n) (index % p.n)) 1
        (if p.isStringType then 1 else p.width) output := by
  have hsize : p.outputShape.prod * p.cells = p.m * p.n * p.width := by
    simp only [outputShape, prod_append, m, n, width, block]
    ring
  have hdst : index / p.n * (p.n * p.block * p.elementBytes) +
      index % p.n * (p.block * p.elementBytes) =
      index * p.block * p.elementBytes := by
    conv_rhs => rw [← Nat.div_add_mod' index p.n]
    ring
  have hsrc : ∀ a i, a * ((p.shape.drop p.axis).prod * p.elementBytes) +
      i * (p.block * p.elementBytes) =
      (a * p.extent + i) * p.block * p.elementBytes := by
    intro a i
    rw [prod_drop]
    ring
  simp only [copyBlock, hsize, hdst, hsrc]
  cases hstring : p.isStringType with
  | true => simp [source, width, cells, hstring, p.elementBytes_pos]
  | false => simp [source, width, cells, hstring, mul_assoc]

/-- Slices that are copied whole follow each other in the output. -/
theorem copyBlocks_returns (hinside : ∀ i < p.n, p.Inside i)
    (hwhole : p.isStringType = false ∨ p.block = 1 ∨ p.m * p.n = 0)
    {count : Nat} (hcount : count ≤ p.m * p.n) :
    Returns (p.copyBlocks count) fun output =>
      ∀ index < count, ∀ c < p.width, output (index * p.width + c) =
        some (p.data (p.source (index / p.n) (index % p.n) + c)) := by
  induction count with
  | zero => exact Returns.pure fun index hindex => absurd hindex (by omega)
  | succ count ih =>
    refine (ih (by omega)).bind fun output houtput => ?_
    have hmove : (if p.isStringType then 1 else p.width) = p.width := by
      rcases hwhole with h | h | h
      · rw [h, if_neg Bool.false_ne_true]
      · simp +contextual [width, cells, h]
      · omega
    have ha : count / p.n < p.m :=
      Nat.div_lt_of_lt_mul (Nat.mul_comm _ _ ▸ hcount)
    have hn : 0 < p.n := Nat.pos_of_mul_pos_left (Nat.zero_lt_of_lt hcount)
    have hi : (p.indices (count % p.n)).toNat < p.extent := by
      obtain ⟨hlow, hhigh⟩ := hinside (count % p.n) (Nat.mod_lt _ hn)
      omega
    have hread : ∀ c < p.width,
        p.input (p.source (count / p.n) (count % p.n) + c * 1) =
          some (p.data (p.source (count / p.n) (count % p.n) + c)) := by
      intro c hc
      rw [mul_one]
      exact input_eq (flat_lt (flat_lt ha hi) hc)
    rw [copyBlock_eq, hmove]
    refine (gather_returns hread ?_).mono fun _ hwrote index hindex c hc => ?_
    · exact Nat.succ_mul _ _ ▸ Nat.mul_le_mul_right _ hcount
    · rcases Nat.lt_succ_iff_lt_or_eq.mp hindex with hless | rfl
      · rw [hwrote.kept _ (.inl (flat_lt hless hc))]
        exact houtput index hless c hc
      · exact hwrote.written c hc

section Strings

variable (hstring : p.isStringType = true)
include hstring

/-- A round assigns one string. -/
theorem copyBlocks_string {index : Nat} {output' : Cells α}
    (h : p.copyBlocks (index + 1) = some output') :
    ∃ output, p.copyBlocks index = some output ∧ p.width ≠ 0 ∧
      ∀ cell ≠ index * p.width, output' cell = output cell := by
  obtain ⟨output, houtput, hround⟩ := bind_eq_some_iff.mp h
  rw [copyBlock_eq, if_pos hstring] at hround
  obtain ⟨value, -, hstore⟩ := bind_eq_some_iff.mp hround
  obtain ⟨hfit, ⟨⟩⟩ := ite_none_right_eq_some.mp hstore
  refine ⟨output, houtput, ?_, fun cell hcell => Function.update_of_ne hcell _ _⟩
  intro hwidth
  exact absurd hfit (by simp [hwidth])

theorem copyBlocks_second (hwidth : p.width ≠ 1) {count : Nat}
    {output : Cells α} (h : p.copyBlocks count = some output) :
    output 1 = none := by
  induction count generalizing output with
  | zero => exact (some.inj h) ▸ rfl
  | succ index ih =>
    obtain ⟨output', houtput', -, hkept⟩ := copyBlocks_string hstring h
    rw [hkept 1 fun hone => hwidth (Nat.eq_one_of_mul_eq_one_left hone.symm)]
    exact ih houtput'

end Strings

theorem gatherCopyData_cases : (∀ i < p.n, p.Inside i) ∧
      p.gatherCopyData = .ok (p.copyBlocks (p.m * p.n)) ∨
    (∃ i < p.n, ¬ p.Inside i) ∧ ∃ failure, p.gatherCopyData = .error failure := by
  rw [gatherCopyData]
  split
  · rename_i i hfind
    have hi := mem_range.mp (mem_of_find?_eq_some hfind)
    have hnot := find?_some hfind
    exact .inr ⟨⟨i, hi, of_decide_eq_true hnot⟩, _, rfl⟩
  · rename_i hfind
    exact .inl ⟨by simpa using hfind, rfl⟩

end Prepare

/-- `Gather::Compute`. -/
def compute (inputs : Inputs α) (axis : Int) :
    Except Failure (Option (Cells α)) := do
  let axis ← handleNegativeAxis axis inputs.shape.length
  (Prepare.mk inputs axis).gatherCopyData

open Prepare

/-- Gather selects whole slices except of strings, where a slice has to have
one element unless there is none to select. -/
theorem gathersSlices_iff {inputs : Inputs α} {axis : Int}
    {position : Fin inputs.shape.length}
    (haxis : handleNegativeAxis axis inputs.shape.length = .ok position) :
    let p := Prepare.mk inputs position
    p.GathersSlices (compute inputs axis) ↔ ((∀ i < p.n, p.Inside i) →
      p.isStringType = false ∨ p.block = 1 ∨ p.m * p.n = 0) := by
  intro p
  have hcompute : compute inputs axis = p.gatherCopyData := by
    rw [compute, haxis]
    rfl
  rw [hcompute]
  obtain ⟨hinside, hrun⟩ | ⟨houtside, failure, hrun⟩ := p.gatherCopyData_cases
  · rw [hrun]
    constructor
    · intro hslices _
      obtain ⟨output, houtput, hcells⟩ := hslices.slices _ rfl
      by_contra hcond
      simp only [not_or, Bool.not_eq_false] at hcond
      obtain ⟨hstring, hblock, hsome⟩ := hcond
      have hwidth : p.width = p.block := by simp [width, cells, hstring]
      have hsecond := copyBlocks_second hstring (hwidth ▸ hblock) houtput
      rw [← Nat.succ_pred hsome] at houtput
      obtain ⟨-, -, hpos, -⟩ := copyBlocks_string hstring houtput
      have hcell := hcells 0 (pos_of_ne_zero (left_ne_zero_of_mul hsome)) 0
        (pos_of_ne_zero (right_ne_zero_of_mul hsome)) 1 (by omega)
      rw [zero_mul, zero_add, zero_mul, zero_add, hsecond] at hcell
      cases hcell
    · intro hcond
      refine ⟨iff_of_false (by simp) (by simpa using hinside), ?_⟩
      rintro run ⟨⟩
      refine (copyBlocks_returns hinside (hcond hinside) le_rfl).mono
        fun output hall a ha i hi c hc => ?_
      have hcell := hall (a * p.n + i) (flat_lt ha hi) c hc
      have hdiv : (a * p.n + i) / p.n = a := by
        rw [Nat.mul_comm, Nat.mul_add_div (by omega), Nat.div_eq_of_lt hi,
          add_zero]
      rwa [hdiv, Nat.mul_add_mod', Nat.mod_eq_of_lt hi] at hcell
  · rw [hrun]
    refine iff_of_true ⟨iff_of_true ⟨failure, rfl⟩ houtside, fun run h => ?_⟩ ?_
    · cases h
    · intro hinside
      obtain ⟨i, hi, hnot⟩ := houtside
      exact absurd (hinside i hi) hnot

/-- Two elements of 32 bytes, selected as a whole. -/
def row (isString : Bool) : Inputs Nat :=
  ⟨isString, 32, by decide, [1, 2], id, [1], fun _ => 0⟩

theorem gathersSlices_row : (Prepare.mk (row false)
    ⟨0, by decide⟩).GathersSlices (compute (row false) (-2)) :=
  (gathersSlices_iff rfl).mpr fun _ => .inl rfl

/-- The second string of the row is not assigned. -/
theorem not_gathersSlices_row :
    ¬ (Prepare.mk (row true) ⟨0, by decide⟩).GathersSlices
      (compute (row true) 0) ∧
    ∃ output, compute (row true) 0 = .ok (some output) ∧
      output 0 = some 0 ∧ output 1 = none := by
  refine ⟨fun h => ?_, _, rfl, rfl, rfl⟩
  obtain ⟨output, ⟨⟩, hcells⟩ := h.slices _ rfl
  cases hcells 0 (by decide) 0 (by decide) 1 (by decide)

end Gather

end OnnxRuntime
