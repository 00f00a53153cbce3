/-
Unsigned and signed 64-bit arithmetic as the C++ sources use it: `size_t`
values are naturals below `sizeBound`, every operation reduces its result.
-/
import Mathlib.Tactic.NormNum

namespace OnnxRuntime

variable {right left : Nat}

/-- One more than the largest `size_t`. -/
def sizeBound : Nat := 2 ^ 64

/-- `std::numeric_limits<size_t>::max()`. -/
def sizeMax : Nat := sizeBound - 1

def sizeAdd (left right : Nat) : Nat := (left + right) % sizeBound

def sizeMul (left right : Nat) : Nat := (left * right) % sizeBound

def sizeSub (left right : Nat) : Nat :=
  (left + (sizeBound - right % sizeBound)) % sizeBound

/-- `--value`. -/
def sizeDec (value : Nat) : Nat := if value = 0 then sizeMax else value - 1

/-- Conversion to `int64_t`. -/
def toInt64 (value : Int) : Int := value.bmod (2 ^ 64)

theorem sizeBound_pos : 0 < sizeBound := by decide

theorem sizeAdd_lt (left right : Nat) : sizeAdd left right < sizeBound :=
  Nat.mod_lt _ sizeBound_pos

theorem sizeAdd_eq (h : left + right < sizeBound) :
    sizeAdd left right = left + right :=
  Nat.mod_eq_of_lt h

theorem sizeMul_eq (h : left * right < sizeBound) :
    sizeMul left right = left * right :=
  Nat.mod_eq_of_lt h

theorem sizeSub_eq (hle : right ≤ left)
    (hlt : left < sizeBound) : sizeSub left right = left - right := by
  have hright : right % sizeBound = right :=
    Nat.mod_eq_of_lt (Nat.lt_of_le_of_lt hle hlt)
  have hsum : left + (sizeBound - right) = left - right + sizeBound := by omega
  rw [sizeSub, hright, hsum, Nat.add_mod_right]
  exact Nat.mod_eq_of_lt (Nat.lt_of_le_of_lt (Nat.sub_le _ _) hlt)

end OnnxRuntime
