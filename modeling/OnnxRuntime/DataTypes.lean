/-
Element types, value types and shapes, and how many bytes a tensor asks for.
-/
import OnnxRuntime.MachineInt
import Mathlib.Data.Int.Bitwise

namespace OnnxRuntime

/-- The tensor element types with a C++ type; the ONNX data model also has an
undefined and two complex ones. -/
inductive ElemType where
  | float | uint8 | int8 | uint16 | int16 | int32 | int64 | string | bool
  | float16 | double | uint32 | uint64 | bfloat16
deriving Repr, DecidableEq, Inhabited

/-- `sizeof` on a 64-bit target. -/
def ElemType.size : ElemType → Nat
  | .uint8 | .int8 | .bool => 1
  | .uint16 | .int16 | .float16 | .bfloat16 => 2
  | .float | .int32 | .uint32 => 4
  | .int64 | .double | .uint64 => 8
  | .string => 32

/-- The type of a value, without the shape. -/
inductive TypeProto where
  | tensorType (elem : ElemType)
  | sparseTensorType (elem : ElemType)
  | sequenceType (elem : TypeProto)
  | mapType (key : ElemType) (value : TypeProto)
  | opaqueType (domain name : String)
deriving Repr, DecidableEq, Inhabited

def TypeProto.hasTensorType : TypeProto → Bool
  | .tensorType _ => true
  | _ => false

namespace TypeProto

/-- `data_types_internal::IsCompatible`, all fields being set. -/
def isCompatible : TypeProto → TypeProto → Bool
  | tensorType elem, tensorType elem' => elem' == elem
  | sparseTensorType elem, sparseTensorType elem' => elem' == elem
  | sequenceType elem, sequenceType elem' => elem.isCompatible elem'
  | mapType key value, mapType key' value' =>
    key' == key && value.isCompatible value'
  | opaqueType domain name, opaqueType domain' name' =>
    let lhsDomain := domain != ""
    let rhsDomain := domain' != ""
    -- `lhs.domain() != lhs.domain()`: the right domain is never compared
    if lhsDomain != rhsDomain ||
        (lhsDomain && rhsDomain && domain != domain) then false
    else
      let lhsName := name != ""
      let rhsName := name' != ""
      !(lhsName != rhsName || (lhsName && rhsName && name != name'))
  | _, _ => false

/-- The type with one text for every domain that is not empty. -/
def anyDomain : TypeProto → TypeProto
  | sequenceType elem => sequenceType elem.anyDomain
  | mapType key value => mapType key value.anyDomain
  | opaqueType domain name =>
    opaqueType (if domain = "" then "" else "*") name
  | type => type

theorem isCompatible_iff (a b : TypeProto) :
    a.isCompatible b = true ↔ a.anyDomain = b.anyDomain := by
  induction a generalizing b with
  | opaqueType domain name =>
    cases b with
    | opaqueType domain' name' =>
      simp only [isCompatible, anyDomain, opaqueType.injEq]
      grind
    | _ => simp [isCompatible, anyDomain]
  | _ => cases b <;> simp [isCompatible, anyDomain, @eq_comm ElemType, *]

/-- Compatibility of `a` and `b` is their equality, and compatibility is an
equivalence. -/
structure IsStructural (a b : TypeProto) : Prop where
  compatible_iff : a.isCompatible b = true ↔ a = b
  equivalence : Equivalence fun a b : TypeProto => a.isCompatible b = true

/-- Compatibility is structural at all pairs but those that differ in
domains only. -/
theorem isStructural_iff (a b : TypeProto) :
    IsStructural a b ↔ (a.anyDomain = b.anyDomain → a = b) := by
  have hequiv : Equivalence fun a b : TypeProto => a.isCompatible b = true := by
    simp only [isCompatible_iff]
    exact ⟨fun _ => rfl, Eq.symm, Eq.trans⟩
  constructor
  · intro h hany
    exact h.compatible_iff.mp ((isCompatible_iff a b).mpr hany)
  · intro h
    refine ⟨(isCompatible_iff a b).trans ⟨h, ?_⟩, hequiv⟩
    rintro rfl
    rfl

theorem not_isStructural_domains :
    ¬ IsStructural (opaqueType "a" "t") (opaqueType "b" "t") := by
  intro h
  exact absurd (h.compatible_iff.mp (by decide)) (by decide)

end TypeProto

/-- `TensorShape::SizeHelper` over all dimensions: `-1` as soon as a negative
one is met, otherwise the product in 64-bit arithmetic. -/
def shapeSize (dims : List Int) : Int :=
  go 1 dims
where
  go (size : Int) : List Int → Int
    | [] => size
    | dim :: rest => if dim < 0 then -1 else go (toInt64 (size * dim)) rest

/-- `TensorShape::ToString`. -/
def shapeToString (dims : List Int) : String :=
  "\x7b" ++ ",".intercalate (dims.map toString) ++ "\x7d"

/-- `IAllocator::CalcMemSizeForArrayWithAlignment`; `none` reports an
overflow.  The alignment is a power of two, so masking with its complement
rounds down to a multiple. -/
def calcMemSizeForArrayWithAlignment (alignment nmemb size : Nat) :
    Option Nat :=
  let maxAllowed := 2 ^ 32 - alignment
  let maxSize := sizeMax - alignment
  if maxAllowed ≤ nmemb ∧ maxSize / nmemb < size then none
  else if maxAllowed ≤ size ∧ 0 < nmemb ∧ maxSize / nmemb < size then none
  else if alignment = 0 then some (sizeMul size nmemb)
  else
    let padded := sizeAdd (sizeMul size nmemb) (alignment - 1)
    some (padded - padded % alignment)

theorem calcMemSizeForArrayWithAlignment_lt {alignment nmemb size bytes : Nat}
    (h : calcMemSizeForArrayWithAlignment alignment nmemb size =
      some bytes) : bytes < sizeBound := by
  simp only [calcMemSizeForArrayWithAlignment] at h
  split at h
  · simp at h
  · split at h
    · simp at h
    · split at h
      · rw [← Option.some.inj h]
        exact Nat.mod_lt _ sizeBound_pos
      · rw [← Option.some.inj h]
        exact Nat.lt_of_le_of_lt (Nat.sub_le _ _) (sizeAdd_lt _ _)

end OnnxRuntime
