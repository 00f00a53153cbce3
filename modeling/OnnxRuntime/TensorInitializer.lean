/-
The copy of an initializer with which fusions compute: how it is made from a
`TensorProto`, its arithmetic, and how it is written back.
-/
import OnnxRuntime.DataTypes
import OnnxRuntime.Initializers
import OnnxRuntime.Status
import Mathlib.Algebra.BigOperators.Ring.Finset

namespace OnnxRuntime

open List

/-- Why a fusion stops: a call fails, or the program does what no check of
its own prevents. -/
inductive FusionStop where
  | failure (cause : Failure)
  | nullInitializer
  | outOfBounds
  | divisionByZero
deriving Repr, DecidableEq

/-- Bytes read as numbers of the element type, and the number of bytes after
the last whole one. -/
structure RawData (K : Type) where
  cells : List K := []
  rest : Nat := 0
deriving Repr, DecidableEq

variable {K : Type}

def RawData.Empty (raw : RawData K) : Prop := raw.cells = [] ∧ raw.rest = 0

instance RawData.decidableEmpty (raw : RawData K) : Decidable raw.Empty :=
  inferInstanceAs (Decidable (_ ∧ _))

/-- What a `TensorProto` holds besides its name. -/
structure TensorData (K : Type) where
  dataType : ElemType
  dims : List Int
  rawData : Option (RawData K) := none
  floatData : List K := []
  doubleData : List K := []
deriving Repr, DecidableEq

/-- The values of the tensor.  Raw data goes first. -/
def TensorData.cells (tensor : TensorData K) : List K :=
  match tensor.rawData with
  | some raw => raw.cells
  | none =>
    match tensor.dataType with
    | .float => tensor.floatData
    | .double => tensor.doubleData
    | _ => []

abbrev TensorProto (K : Type) := NamedTensor (TensorData K)

/-- The product of extents in 64-bit arithmetic. -/
def extent (dims : List Int) : Int :=
  dims.foldl (fun size dim => toInt64 (size * dim)) 1

/-- The two element types the fusions compute with. -/
def ElemType.IsReal (elem : ElemType) : Prop :=
  elem = .float ∨ elem = .double

structure Initializer (K : Type) where
  dataType : ElemType
  name : String
  dims : List Int
  size : Int
  rawData : RawData K := {}
  floatData : List K := []
  doubleData : List K := []
deriving Repr, DecidableEq

namespace Initializer

/-- The constructor from a `TensorProto`.  The length of raw data is not
looked at. -/
def ofProto (proto : TensorProto K) : Except FusionStop (Initializer K) :=
  let size := extent proto.value.dims
  let init : Initializer K :=
    { dataType := proto.value.dataType
      name := proto.name
      dims := proto.value.dims
      size := size }
  match proto.value.rawData with
  | some raw => .ok { init with rawData := raw }
  | none =>
    match proto.value.dataType with
    | .float =>
      if size = proto.value.floatData.length then
        .ok { init with floatData := proto.value.floatData }
      else .error (.failure (.enforce "size is different"))
    | .double =>
      if size = proto.value.doubleData.length then
        .ok { init with doubleData := proto.value.doubleData }
      else .error (.failure (.enforce "size is different"))
    | _ =>
      .error (.failure (.thrown "Initializerdata type is not supported"))

variable (t : Initializer K)

/-- The cells behind `data<T>()`. -/
def data : List K :=
  if ¬ t.rawData.Empty then t.rawData.cells
  else
    match t.dataType with
    | .float => t.floatData
    | .double => t.doubleData
    | _ => []

/-- Writes through `data<T>()`. -/
def withData (cells : List K) : Initializer K :=
  if ¬ t.rawData.Empty then { t with rawData.cells := cells }
  else
    match t.dataType with
    | .float => { t with floatData := cells }
    | .double => { t with doubleData := cells }
    | _ => t

section Arithmetic

/-- The loop that the element-wise operations share. -/
def update (op : K → K → K) (source : Nat → Option K) :
    Except FusionStop (Initializer K) :=
  match t.dataType with
  | .float | .double => do
      let cells ← updateCells .outOfBounds op source t.size.toNat t.data
      return t.withData cells
  | _ => return t

/-- `add(float value)`. -/
def addValue [Add K] (value : K) : Except FusionStop (Initializer K) :=
  t.update (· + ·) fun _ => some value

def add [Add K] (other : Initializer K) : Except FusionStop (Initializer K) :=
  t.update (· + ·) fun i => other.data[i]?

def sub [Sub K] (other : Initializer K) : Except FusionStop (Initializer K) :=
  t.update (· - ·) fun i => other.data[i]?

def mul [Mul K] (other : Initializer K) : Except FusionStop (Initializer K) :=
  t.update (· * ·) fun i => other.data[i]?

def div [Div K] (other : Initializer K) : Except FusionStop (Initializer K) :=
  t.update (· / ·) fun i => other.data[i]?

/-- `std::sqrt` of each cell, which is the only source of its new value. -/
def sqrt (root : K → K) : Except FusionStop (Initializer K) :=
  t.update (fun _ a => root a) fun i => t.data[i]?

def scaleByAxis [Mul K] (other : Initializer K) (axis : Nat) :
    Except FusionStop (Initializer K) :=
  let num := extent (t.dims.drop axis)
  if num = 0 then .error .divisionByZero
  else
    let n := t.size.tdiv num
    match t.dataType with
    | .float | .double => do
        let cells ← updateBlocks .outOfBounds (· * ·)
          (fun i => other.data[if other.size = 1 then 0 else i]?)
          n.toNat num.toNat t.data
        return t.withData cells
    | _ => return t

end Arithmetic

/-- `ToProto`, into a message that may hold something already. -/
def toProto (proto : TensorData K) : Except FusionStop (TensorProto K) :=
  let proto := { proto with dims := t.dims, dataType := t.dataType }
  if ¬ t.rawData.Empty then
    .ok ⟨t.name, { proto with rawData := some t.rawData }⟩
  else
    match t.dataType with
    | .float => do
        let cells ← readCells .outOfBounds t.floatData t.size.toNat
        return ⟨t.name, { proto with floatData := cells }⟩
    | .double => do
        let cells ← readCells .outOfBounds t.doubleData t.size.toNat
        return ⟨t.name, { proto with doubleData := cells }⟩
    | _ => .error (.failure (.thrown "ToProtodata type is not supported"))

end Initializer

section Extents

theorem foldl_extent (dims : List Int) (size : Int) :
    dims.foldl (fun size dim => toInt64 (size * dim)) (toInt64 size) =
      toInt64 (size * dims.prod) := by
  induction dims generalizing size with
  | nil => rw [foldl_nil, prod_nil, mul_one]
  | cons dim rest ih =>
    have hstep : toInt64 (toInt64 size * dim) = toInt64 (size * dim) :=
      Int.bmod_mul_bmod
    rw [foldl_cons, hstep, ih, prod_cons, mul_assoc]

theorem extent_eq (dims : List Int) : extent dims = toInt64 dims.prod := by
  have h := foldl_extent dims 1
  rw [one_mul] at h
  exact h

/-- The product is exact for a tensor that fits in memory. -/
theorem extent_natCast {dims : List Nat} (h : dims.prod < 2 ^ 63) :
    extent (dims.map (Nat.cast : Nat → Int)) = dims.prod := by
  rw [extent_eq, ← Nat.cast_list_prod]
  exact Int.bmod_eq_of_le_mul_two (by omega) (by omega)

end Extents

namespace Initializer

variable {t other : Initializer K}

section Storage

theorem data_of_raw (h : ¬ t.rawData.Empty) : t.data = t.rawData.cells :=
  if_pos h

/-- What no operation changes: all but the values of the cells. -/
structure Like (t u : Initializer K) : Prop where
  dataType : u.dataType = t.dataType
  name : u.name = t.name
  dims : u.dims = t.dims
  size : u.size = t.size
  raw : u.rawData.Empty ↔ t.rawData.Empty
  length : u.data.length = t.data.length

theorem Like.trans {t u v : Initializer K} (h : t.Like u) (h' : u.Like v) :
    t.Like v :=
  ⟨h'.dataType.trans h.dataType, h'.name.trans h.name, h'.dims.trans h.dims,
    h'.size.trans h.size, h'.raw.trans h.raw, h'.length.trans h.length⟩

variable (hreal : t.dataType.IsReal)
include hreal

theorem data_withData {cells : List K}
    (hlength : cells.length = t.data.length) :
    (t.withData cells).data = cells := by
  by_cases hraw : t.rawData.Empty
  · rcases hreal with htype | htype <;> simp [withData, data, hraw, htype]
  · have hkeeps : ¬ RawData.Empty { t.rawData with cells := cells } := by
      rintro ⟨hcells, hrest⟩
      rw [data_of_raw hraw] at hlength
      rw [show cells = [] from hcells] at hlength
      exact hraw ⟨length_eq_zero_iff.1 hlength.symm, hrest⟩
    simp [withData, data, hraw, hkeeps]

theorem like_withData {cells : List K}
    (hlength : cells.length = t.data.length) : t.Like (t.withData cells) := by
  have hdata := congrArg List.length (data_withData hreal hlength)
  by_cases hraw : t.rawData.Empty
  · rcases hreal with htype | htype <;> constructor <;> simp_all [withData]
  · have hcells : (t.withData cells).rawData.cells.length =
        t.rawData.cells.length := by
      rw [data_of_raw hraw] at hlength
      simp [withData, hraw, hlength]
    constructor <;> simp_all [withData, RawData.Empty, ← length_eq_zero_iff]

end Storage

section Values

/-- The tensor holds `count` cells with the values of `f`. -/
structure Is (t : Initializer K) (count : Nat) (f : Nat → K) : Prop where
  real : t.dataType.IsReal
  size : t.size = count
  data : t.data = (List.range count).map f

variable {count : Nat} {f g : Nat → K}

theorem Is.length (ht : t.Is count f) : t.data.length = count := by
  rw [ht.data, length_map, length_range]

theorem Is.getElem? (ht : t.Is count f) {k : Nat} (hk : k < count) :
    t.data[k]? = some (f k) := by
  rw [ht.data, getElem?_map, getElem?_range hk, Option.map_some]

variable {source : Nat → Option K} {value : Nat → K}

/-- The result of a loop that ran to its end. -/
theorem Is.updateCells (ht : t.Is count f) (op : K → K → K)
    (hsource : ∀ k < count, source k = some (value k)) :
    ∃ cells, OnnxRuntime.updateCells FusionStop.outOfBounds op source count
        t.data = .ok cells ∧ t.Like (t.withData cells) ∧
      (t.withData cells).Is count (fun k => op (f k) (value k)) := by
  refine ⟨_, updateCells_eq_ok ht.length.ge hsource, ?_⟩
  have hcells : (t.data.mapIdx fun k a =>
      if k < count then op a (value k) else a) =
        (range count).map fun k => op (f k) (value k) := by
    refine ext_getElem? fun k => ?_
    rw [getElem?_mapIdx, getElem?_map]
    by_cases hk : k < count
    · rw [ht.getElem? hk]
      simp [hk]
    · have hle : count ≤ k := Nat.le_of_not_lt hk
      rw [getElem?_eq_none (by rw [ht.length]; exact hle),
        getElem?_eq_none (by rw [length_range]; exact hle)]
      rfl
  rw [hcells]
  have hlength : ((range count).map fun k => op (f k) (value k)).length =
      t.data.length := by
    rw [length_map, length_range, ht.length]
  have hlike := like_withData ht.real hlength
  exact ⟨hlike, hlike.dataType ▸ ht.real, hlike.size.trans ht.size,
    data_withData ht.real hlength⟩

theorem Is.update (ht : t.Is count f) (op : K → K → K)
    (hsource : ∀ k < count, source k = some (value k)) :
    ∃ u, t.update op source = .ok u ∧ t.Like u ∧
      u.Is count (fun k => op (f k) (value k)) := by
  obtain ⟨cells, hrun, hlike, his⟩ := ht.updateCells op hsource
  refine ⟨_, ?_, hlike, his⟩
  rcases ht.real with htype | htype <;> simp only [Initializer.update, htype,
    ht.size, Int.toNat_natCast, hrun] <;> rfl

/-- Scaling of blocks, each by the cell of `other` for it. -/
theorem Is.scaleByAxis [Mul K] {axis blocks operands : Nat}
    (hnum : extent (t.dims.drop axis) ≠ 0)
    (hblocks : t.size.tdiv (extent (t.dims.drop axis)) = blocks)
    (ht : t.Is (blocks * (extent (t.dims.drop axis)).toNat) f)
    (hother : other.Is operands g) (hone : operands = 1 ∨ blocks ≤ operands) :
    ∃ u, t.scaleByAxis other axis = .ok u ∧ t.Like u ∧
      u.Is (blocks * (extent (t.dims.drop axis)).toNat) (fun k =>
        f k * g (if operands = 1 then 0
          else k / (extent (t.dims.drop axis)).toNat)) := by
  have hsource : ∀ k < blocks * (extent (t.dims.drop axis)).toNat,
      other.data[if other.size = 1 then 0
        else k / (extent (t.dims.drop axis)).toNat]? =
      some (g (if operands = 1 then 0
        else k / (extent (t.dims.drop axis)).toNat)) := by
    intro k hk
    have hsize : other.size = 1 ↔ operands = 1 := by
      rw [hother.size]
      omega
    simp only [hsize]
    apply hother.getElem?
    split
    · omega
    · have hlt := Nat.div_lt_of_lt_mul (Nat.mul_comm _ _ ▸ hk)
      omega
  obtain ⟨cells, hrun, hlike, his⟩ := ht.updateCells (· * ·) hsource
  refine ⟨_, ?_, hlike, his⟩
  rcases ht.real with htype | htype <;>
    simp only [Initializer.scaleByAxis, htype, if_neg hnum, updateBlocks_eq,
      hblocks, Int.toNat_natCast, hrun] <;> rfl

end Values

end Initializer

section Protos

/-- The repeated field of the tensor's own type is written. -/
def TensorData.withTyped (tensor : TensorData K) (cells : List K) :
    TensorData K :=
  match tensor.dataType with
  | .float => { tensor with floatData := cells }
  | .double => { tensor with doubleData := cells }
  | _ => tensor

namespace TensorData

variable {tensor : TensorData K} {cells : List K}

theorem dims_withTyped : (tensor.withTyped cells).dims = tensor.dims := by
  rw [withTyped]
  split <;> rfl

theorem dataType_withTyped :
    (tensor.withTyped cells).dataType = tensor.dataType := by
  rw [withTyped]
  split <;> rfl

theorem rawData_withTyped :
    (tensor.withTyped cells).rawData = tensor.rawData := by
  rw [withTyped]
  split <;> rfl

theorem cells_withTyped (hreal : tensor.dataType.IsReal)
    (hraw : tensor.rawData = none) : (tensor.withTyped cells).cells = cells := by
  rcases hreal with htype | htype <;>
    simp [withTyped, TensorData.cells, htype, hraw]

end TensorData

open TensorData

/-- The stored tensor has `count` cells with the values of `f`. -/
structure TensorData.Is (tensor : TensorData K) (count : Nat) (f : Nat → K) :
    Prop where
  real : tensor.dataType.IsReal
  size : extent tensor.dims = count
  cells : tensor.cells = (List.range count).map f

namespace Initializer

variable {t : Initializer K} {proto : TensorProto K} {count : Nat} {f : Nat → K}

/-- What a copy takes from the stored tensor. -/
structure Copies (t : Initializer K) (proto : TensorProto K) : Prop where
  dataType : t.dataType = proto.value.dataType
  name : t.name = proto.name
  dims : t.dims = proto.value.dims
  size : t.size = extent proto.value.dims
  data : t.data = proto.value.cells
  raw : ∀ raw, proto.value.rawData = some raw → t.rawData = raw

theorem copies_of_ofProto (hload : ofProto proto = .ok t)
    (hreal : proto.value.dataType.IsReal) : t.Copies proto := by
  obtain ⟨name, dataType, dims, rawData, floatData, doubleData⟩ := proto
  cases rawData with
  | some raw =>
    simp only [ofProto, Except.ok.injEq] at hload
    subst hload
    refine ⟨rfl, rfl, rfl, rfl, ?_, fun raw hraw => Option.some.inj hraw⟩
    by_cases hempty : raw.Empty
    · have hnil : raw.cells = [] := hempty.1
      rcases hreal with rfl | rfl <;> simp [data, cells, hnil]
    · simp [data, cells, hempty]
  | none =>
    have hempty : ({} : RawData K).Empty := ⟨rfl, rfl⟩
    rcases hreal with rfl | rfl
    all_goals
      simp only [ofProto] at hload
      split at hload
      · cases hload
        refine ⟨rfl, rfl, rfl, rfl, ?_, nofun⟩
        simp [data, cells, hempty]
      · cases hload

theorem exists_ofProto (h : proto.value.Is count f) :
    ∃ t, ofProto proto = .ok t ∧ t.Copies proto ∧ t.Is count f := by
  have hload : ∃ t, ofProto proto = .ok t := by
    obtain ⟨hreal, hsize, hcells⟩ := h
    have hlength := congrArg List.length hcells
    rw [length_map, length_range, cells] at hlength
    cases hraw : proto.value.rawData with
    | some raw => exact ⟨_, by simp only [ofProto, hraw]; rfl⟩
    | none =>
      rw [hraw] at hlength
      rcases hreal with htype | htype
      all_goals
        simp only [htype] at hlength
        rw [← hlength] at hsize
        exact ⟨_, by simp only [ofProto, hraw, htype, if_pos hsize]; rfl⟩
  obtain ⟨t, hload⟩ := hload
  have hcopy := copies_of_ofProto hload h.real
  exact ⟨t, hload, hcopy, hcopy.dataType ▸ h.real, hcopy.size.trans h.size,
    hcopy.data.trans h.cells⟩

/-- Writing back gives a tensor with the values of the copy. -/
theorem Is.toProto (ht : t.Is count f) (hsize : t.size = extent t.dims)
    {tensor : TensorData K}
    (hraw : ∀ raw, tensor.rawData = some raw → t.rawData.Empty →
      raw.cells = t.data) :
    ∃ proto, t.toProto tensor = .ok proto ∧ proto.value.dims = t.dims ∧
      proto.value.Is count f := by
  by_cases hempty : t.rawData.Empty
  · have hread : readCells FusionStop.outOfBounds t.data t.size.toNat =
        .ok t.data := by
      rw [ht.size, Int.toNat_natCast, ← ht.length, readCells_eq_ok _ le_rfl,
        take_length]
    refine ⟨⟨t.name, ({ tensor with
      dims := t.dims, dataType := t.dataType }).withTyped t.data⟩,
      ?_, dims_withTyped, ?_, ?_, ?_⟩
    · rcases ht.real with htype | htype <;>
        simp [Initializer.toProto, Initializer.data, withTyped, hempty,
          htype] at hread ⊢ <;> simp [hread]
    · rw [dataType_withTyped]
      exact ht.real
    · rw [dims_withTyped]
      exact hsize ▸ ht.size
    · rw [← ht.data]
      cases hstored : tensor.rawData with
      | none => exact cells_withTyped ht.real rfl
      | some raw =>
        rw [cells, rawData_withTyped]
        exact hraw raw hstored hempty
  · refine ⟨⟨t.name, { tensor with
      dims := t.dims, dataType := t.dataType, rawData := some t.rawData }⟩,
      ?_, rfl, ht.real, hsize ▸ ht.size, ?_⟩
    · rw [Initializer.toProto, if_pos hempty]
    · have hdata := ht.data
      rw [data_of_raw hempty] at hdata
      exact hdata

/-- The same for a copy that operations have changed, written to a new message
or to one that still holds the tensor it was copied from. -/
theorem Copies.toProto {u : Initializer K} (hcopy : t.Copies proto)
    (hlike : t.Like u) (hu : u.Is count f) (tensor : TensorData K)
    (htensor : tensor = proto.value ∨ tensor.rawData = none) :
    ∃ new, u.toProto tensor = .ok new ∧
      new.value.dims = proto.value.dims ∧ new.value.Is count f := by
  have hdims : u.dims = proto.value.dims := hlike.dims.trans hcopy.dims
  have hsize : u.size = extent u.dims := by
    rw [hdims, hlike.size, hcopy.size]
  rw [← hdims]
  apply hu.toProto hsize
  intro raw hstored hempty
  rcases htensor with rfl | hnone
  · have hraw : raw.cells = [] := by
      rw [← hcopy.raw raw hstored]
      exact (hlike.raw.1 hempty).1
    have hlength : u.data.length = 0 := by
      rw [hlike.length, hcopy.data, cells, hstored]
      simp [hraw]
    rw [hraw, length_eq_zero_iff.1 hlength]
  · rw [hnone] at hstored
    cases hstored

end Initializer

end Protos

end OnnxRuntime
