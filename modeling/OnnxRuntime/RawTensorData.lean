/-
Raw data of an initializer, which is little-endian, unpacked into the elements
of a tensor on a host of either byte order.
-/
import OnnxRuntime.ExceptRuns
import OnnxRuntime.MachineInt

namespace OnnxRuntime

open List

variable {element : List UInt8}

/-- The number whose little-endian encoding these bytes are. -/
def littleEndian : List UInt8 → Nat
  | [] => 0
  | byte :: rest => byte.toNat + 256 * littleEndian rest

/-- Different bytes encode different numbers. -/
theorem littleEndian_inj {bytes bytes' : List UInt8}
    (hlength : bytes.length = bytes'.length)
    (h : littleEndian bytes = littleEndian bytes') : bytes = bytes' := by
  induction bytes generalizing bytes' with
  | nil => exact (length_eq_zero_iff.1 hlength.symm).symm
  | cons byte rest ih =>
    cases bytes' with
    | nil => cases hlength
    | cons byte' rest' =>
      have hlt := byte.toNat_lt
      have hlt' := byte'.toNat_lt
      simp only [littleEndian] at h
      have hbyte : byte.toNat = byte'.toNat := by omega
      rw [UInt8.toNat_inj.1 hbyte, ih (Nat.succ.inj hlength) (by omega)]

/-- The value of an element in memory. -/
def hostValue (isLittleEndianOrder : Bool) (element : List UInt8) : Nat :=
  if isLittleEndianOrder then littleEndian element
  else littleEndian element.reverse

/-- The elements of `typeSize` bytes that lie one after the other. -/
def elementsOf (typeSize count : Nat) (bytes : List UInt8) :
    List (List UInt8) :=
  (List.range count).map fun k => (bytes.drop (k * typeSize)).take typeSize

/-- A byte outside the raw data is read, or an element outside the buffer
written. -/
inductive UnpackFault where
  | outOfBounds
deriving Repr, DecidableEq

/-- `memcpy` into a buffer of elements. -/
def copyBytes (typeSize : Nat) (raw : List UInt8)
    (data : List (List UInt8)) : Except UnpackFault (List (List UInt8)) :=
  if data.flatten.length < raw.length then .error .outOfBounds
  else .ok (elementsOf typeSize data.length
    (raw ++ data.flatten.drop raw.length))

/-- The bytes of `result` in round `i`.  The pointer has advanced by `i`, the
index is one of the raw data from there and wraps around. -/
def resultBytes (typeSize : Nat) (raw : List UInt8) (i : Nat) :
    Option (List UInt8) :=
  (List.range typeSize).mapM fun _ =>
    raw[sizeAdd i (sizeSub (typeSize - 1) i)]?

/-- `UnpackTensorWithRawData`.  The loop counts bytes. -/
def unpackTensorWithRawData (isLittleEndianOrder : Bool) (typeSize : Nat)
    (raw : List UInt8) (data : List (List UInt8)) :
    Except UnpackFault (List (List UInt8)) :=
  if isLittleEndianOrder then copyBytes typeSize raw data
  else
    (List.range ((raw.length + typeSize - 1) / typeSize)).foldlM
      (fun data k => updateCell .outOfBounds (fun _ result => result)
        (resultBytes typeSize raw (k * typeSize)) data (k * typeSize)) data

/-- The elements that are written have the values of the raw data. -/
def Decodes (isLittleEndianOrder : Bool) (typeSize count : Nat)
    (raw : List UInt8) (data : List (List UInt8)) : Prop :=
  ∃ result, unpackTensorWithRawData isLittleEndianOrder typeSize raw data =
      .ok result ∧
    result.map (hostValue isLittleEndianOrder) =
      (elementsOf typeSize count raw).map littleEndian

section

variable {typeSize count : Nat} {raw : List UInt8} {data : List (List UInt8)}

theorem length_elementsOf (typeSize count : Nat) (bytes : List UInt8) :
    (elementsOf typeSize count bytes).length = count := by
  rw [elementsOf, length_map, length_range]

theorem length_of_mem_elementsOf (hraw : raw.length = count * typeSize)
    (h : element ∈ elementsOf typeSize count raw) :
    element.length = typeSize := by
  obtain ⟨k, hk, rfl⟩ := mem_map.1 h
  have hle : (k + 1) * typeSize ≤ count * typeSize :=
    Nat.mul_le_mul_right _ (mem_range.1 hk)
  rw [add_mul] at hle
  rw [length_take, length_drop]
  omega

theorem mem_of_mem_elementsOf
    (h : element ∈ elementsOf typeSize count raw) {byte : UInt8}
    (hbyte : byte ∈ element) : byte ∈ raw := by
  obtain ⟨k, -, rfl⟩ := mem_map.1 h
  exact mem_of_mem_drop (mem_of_mem_take hbyte)

theorem copyBytes_eq (hraw : raw.length = count * typeSize)
    (hdata : data.length = count) (hsizes : ∀ element ∈ data,
      element.length = typeSize) :
    copyBytes typeSize raw data = .ok (elementsOf typeSize count raw) := by
  have hflatten : data.flatten.length = raw.length := by
    rw [length_flatten, map_congr_left hsizes, map_const',
      sum_replicate_nat, hdata, hraw]
  rw [copyBytes, if_neg (by omega), ← hflatten, drop_length, append_nil, hdata]

/-- The wrapped index is that of the last byte of the first element. -/
theorem resultBytes_eq (hpos : 0 < typeSize) {i : Nat} (hi : i < sizeBound)
    (hsize : typeSize ≤ raw.length) (hfits : raw.length < sizeBound) :
    resultBytes typeSize raw i =
      some (replicate typeSize (raw.get ⟨typeSize - 1, by omega⟩)) := by
  have hindex : sizeAdd i (sizeSub (typeSize - 1) i) = typeSize - 1 := by
    rw [sizeAdd, sizeSub, Nat.mod_eq_of_lt hi, Nat.add_mod_mod]
    have heq : i + (typeSize - 1 + (sizeBound - i)) =
        typeSize - 1 + sizeBound := by omega
    rw [heq, Nat.add_mod_right, Nat.mod_eq_of_lt (by omega)]
  have hread : raw[typeSize - 1]? = some (raw.get ⟨typeSize - 1, by omega⟩) :=
    getElem?_eq_getElem (by omega)
  rw [resultBytes]
  simp only [hindex, hread]
  generalize raw.get ⟨typeSize - 1, by omega⟩ = byte
  clear hindex hread hpos hsize
  induction typeSize with
  | zero => rfl
  | succ typeSize ih =>
    rw [range_succ, mapM_append, ih, replicate_succ']
    rfl

/-- Different elements of one size have different values. -/
theorem map_littleEndian_inj {left right : List (List UInt8)}
    (hleft : ∀ element ∈ left, element.length = typeSize)
    (hright : ∀ element ∈ right, element.length = typeSize)
    (h : left.map littleEndian = right.map littleEndian) : left = right := by
  induction left generalizing right with
  | nil => exact (map_eq_nil_iff.1 h.symm).symm
  | cons element left ih =>
    cases right with
    | nil => cases h
    | cons element' right =>
      obtain ⟨hhead, htail⟩ := cons.inj h
      rw [littleEndian_inj ((hleft _ mem_cons_self).trans
          (hright _ mem_cons_self).symm) hhead,
        ih (fun _ hmem => hleft _ (mem_cons_of_mem _ hmem))
          (fun _ hmem => hright _ (mem_cons_of_mem _ hmem)) htail]

variable (hpos : 0 < typeSize) (hraw : raw.length = count * typeSize)
include hpos hraw

/-- Every byte of the raw data lies in one of the elements. -/
theorem mem_elementsOf_of_mem {byte : UInt8} (h : byte ∈ raw) :
    ∃ element ∈ elementsOf typeSize count raw, byte ∈ element := by
  obtain ⟨i, hi, rfl⟩ := getElem_of_mem h
  have hk : i / typeSize < count := by
    rw [hraw, mul_comm] at hi
    exact Nat.div_lt_of_lt_mul hi
  refine ⟨_, mem_map.2 ⟨i / typeSize, mem_range.2 hk, rfl⟩, ?_⟩
  rw [mem_iff_getElem?]
  refine ⟨i % typeSize, ?_⟩
  rw [getElem?_take_of_lt (Nat.mod_lt _ hpos), getElem?_drop,
    mul_comm, Nat.div_add_mod, getElem?_eq_getElem hi]

/-- All elements are copies of one byte exactly if all the bytes are. -/
theorem elementsOf_eq_replicate_iff (byte : UInt8) :
    elementsOf typeSize count raw = replicate count (replicate typeSize byte) ↔
      ∀ other ∈ raw, other = byte := by
  constructor
  · intro h other hother
    obtain ⟨element, helement, hmem⟩ := mem_elementsOf_of_mem hpos hraw hother
    rw [h] at helement
    rw [eq_of_mem_replicate helement] at hmem
    exact eq_of_mem_replicate hmem
  · intro h
    rw [eq_replicate_iff]
    refine ⟨length_elementsOf _ _ _, fun element helement => ?_⟩
    rw [eq_replicate_iff]
    exact ⟨length_of_mem_elementsOf hraw helement, fun other hother =>
      h other (mem_of_mem_elementsOf helement hother)⟩

theorem rounds_eq : (raw.length + typeSize - 1) / typeSize = count := by
  rw [hraw, Nat.add_sub_assoc hpos, mul_comm,
    Nat.mul_add_div hpos, Nat.div_eq_of_lt (by omega), add_zero]

variable (hcount : 0 < count) (hdata : data.length = count)
include hcount hdata

/-- The loop writes into the buffer only if elements have one byte or there is
one of them. -/
theorem small_of_unpack {result : List (List UInt8)}
    (h : unpackTensorWithRawData false typeSize raw data = .ok result) :
    typeSize = 1 ∨ count ≤ 1 := by
  obtain ⟨last, rfl⟩ := Nat.exists_eq_succ_of_ne_zero hcount.ne'
  rw [unpackTensorWithRawData, rounds_eq hpos hraw, range_succ] at h
  obtain ⟨mid, hmid, hstep⟩ := foldlM_snoc_eq_ok.1 h
  have hlength : mid.length = last + 1 := by
    refine foldlM_preserves
      (motive := fun data : List (List UInt8) => data.length = last + 1)
      (fun data next k _ hdata hnext => ?_) hdata hmid
    obtain ⟨a, b, -, rfl⟩ := of_updateCell_ok hnext
    rw [length_set, hdata]
  obtain ⟨a, b, ha, -⟩ := of_updateCell_ok hstep
  have hlt : last * typeSize < last + 1 := by
    rw [← hlength]
    exact (List.getElem?_eq_some_iff.1 ha).1
  by_contra hnot
  have htwo : last * 2 ≤ last * typeSize :=
    Nat.mul_le_mul_left _ (by omega)
  omega

/-- On the other byte order, all elements become copies of one byte. -/
theorem unpack_bigEndian (hfits : raw.length < sizeBound)
    (hsmall : typeSize = 1 ∨ count ≤ 1) (hlast : typeSize - 1 < raw.length) :
    unpackTensorWithRawData false typeSize raw data =
      .ok (replicate count (replicate typeSize
        (raw.get ⟨typeSize - 1, hlast⟩))) := by
  have hindex : ∀ k < count, k * typeSize = k := by
    intro k hk
    rcases hsmall with rfl | hone
    · exact mul_one k
    · rw [show k = 0 by omega, zero_mul]
  have hbytes : ∀ k < count, resultBytes typeSize raw (k * typeSize) =
      some (replicate typeSize (raw.get ⟨typeSize - 1, hlast⟩)) := by
    intro k hk
    have hmul : k * typeSize < count * typeSize :=
      mul_lt_mul_of_pos_right hk hpos
    exact resultBytes_eq hpos (by omega) (by omega) hfits
  have hloop : unpackTensorWithRawData false typeSize raw data =
      updateCells .outOfBounds (fun _ result => result)
        (fun k => resultBytes typeSize raw (k * typeSize)) count data := by
    rw [unpackTensorWithRawData, rounds_eq hpos hraw, updateCells]
    refine foldlM_congr (fun k hk data => ?_) data
    rw [hindex k (mem_range.1 hk)]
  rw [hloop, updateCells_eq_ok (le_of_eq hdata.symm) hbytes]
  refine congrArg Except.ok (eq_replicate_iff.2 ⟨?_, ?_⟩)
  · rw [length_mapIdx, hdata]
  · intro element helement
    obtain ⟨k, hk, rfl⟩ := mem_mapIdx.1 helement
    rw [if_pos (hdata ▸ hk)]

theorem decodes_bigEndian_iff (hfits : raw.length < sizeBound) :
    Decodes false typeSize count raw data ↔ (typeSize = 1 ∨ count ≤ 1) ∧
        ∀ byte ∈ raw, ∀ other ∈ raw, byte = other := by
  have hlast : typeSize - 1 < raw.length := by
    have hle : 1 * typeSize ≤ count * typeSize :=
      Nat.mul_le_mul_right _ hcount
    omega
  have hmem : raw.get ⟨typeSize - 1, hlast⟩ ∈ raw := get_mem ..
  -- the elements have the right values exactly if each is the one written
  have hvalues : ∀ byte : UInt8, (replicate count (replicate typeSize byte)).map
        (hostValue false) = (elementsOf typeSize count raw).map littleEndian ↔
      ∀ other ∈ raw, other = byte := by
    intro byte
    rw [← elementsOf_eq_replicate_iff hpos hraw byte]
    have hwritten : (replicate count
        (replicate typeSize byte)).map (hostValue false) =
        (replicate count (replicate typeSize byte)).map
          littleEndian := by
      rw [map_replicate, map_replicate, hostValue, reverse_replicate, ite_self]
    rw [hwritten]
    refine ⟨fun h => (map_littleEndian_inj (fun element helement => ?_)
      (fun element => length_of_mem_elementsOf hraw) h).symm, fun h => h ▸ rfl⟩
    rw [eq_of_mem_replicate helement, length_replicate]
  constructor
  · rintro ⟨result, hrun, hresult⟩
    have hsmall := small_of_unpack hpos hraw hcount hdata hrun
    rw [unpack_bigEndian hpos hraw hcount hdata hfits hsmall hlast] at hrun
    obtain rfl := Except.ok.inj hrun
    have hall := (hvalues _).1 hresult
    exact ⟨hsmall, fun byte hbyte other hother =>
      (hall byte hbyte).trans (hall other hother).symm⟩
  · rintro ⟨hsmall, hequal⟩
    exact ⟨_, unpack_bigEndian hpos hraw hcount hdata hfits hsmall hlast,
      (hvalues _).2 fun other hother => hequal other hother _ hmem⟩

end

/-- On a little-endian host raw data is always decoded; on a big-endian one
exactly when the elements have one byte or there is one of them, and all bytes
are the same. -/
theorem decodes_iff (isLittleEndianOrder : Bool) {typeSize count : Nat}
    {raw : List UInt8} {data : List (List UInt8)}
    (hsize : typeSize ∈ [1, 2, 4, 8])
    (hraw : raw.length = count * typeSize) (hfits : raw.length < sizeBound)
    (hdata : data.length = count)
    (hsizes : ∀ element ∈ data, element.length = typeSize) :
    Decodes isLittleEndianOrder typeSize count raw data ↔
      isLittleEndianOrder = true ∨ (typeSize = 1 ∨ count ≤ 1) ∧
          ∀ byte ∈ raw, ∀ other ∈ raw, byte = other := by
  have hpos : 0 < typeSize := by
    rcases typeSize with _ | typeSize
    · exact absurd hsize (by decide)
    · exact Nat.succ_pos _
  cases isLittleEndianOrder with
  | true =>
    refine iff_of_true ⟨_, copyBytes_eq hraw hdata hsizes, rfl⟩ (.inl rfl)
  | false =>
    simp only [Bool.false_eq_true, false_or]
    rcases eq_zero_or_pos count with rfl | hcount
    · obtain rfl : raw = [] :=
        length_eq_zero_iff.1 (hraw.trans (zero_mul _))
      obtain rfl : data = [] := length_eq_zero_iff.1 hdata
      refine iff_of_true ⟨[], ?_, rfl⟩ ⟨.inr (Nat.zero_le 1), nofun⟩
      have hrounds := rounds_eq hpos hraw
      rw [unpackTensorWithRawData, hrounds]
      rfl
    · rw [decodes_bigEndian_iff hpos hraw hcount hdata hfits]

/-- Two elements of four bytes on a little-endian host. -/
theorem decodes_twoElements :
    Decodes true 4 2 [1, 0, 0, 0, 2, 0, 0, 0] [[0, 0, 0, 0], [0, 0, 0, 0]] :=
  (decodes_iff true (by decide) rfl (by decide) rfl (by decide)).2 (.inl rfl)

/-- On a big-endian host the number one in two bytes becomes zero, and the
second of two elements is written outside the buffer. -/
theorem not_decodes_bigEndian : ¬ Decodes false 2 1 [1, 0] [[0, 0]] ∧
      unpackTensorWithRawData false 2 [1, 0] [[0, 0]] = .ok [[0, 0]] ∧
      unpackTensorWithRawData false 4 [1, 0, 0, 0, 2, 0, 0, 0]
        [[0, 0, 0, 0], [0, 0, 0, 0]] = .error .outOfBounds := by
  refine ⟨fun h => ?_, by decide, by decide⟩
  have hequal := ((decodes_bigEndian_iff (by decide) rfl (by decide) rfl
    (by decide)).1 h).2
  exact absurd (hequal 1 (by decide) 0 (by decide)) (by decide)

end OnnxRuntime
