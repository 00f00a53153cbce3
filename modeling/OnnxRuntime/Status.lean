/-
How a call can fail: a status handed back to the caller, an exception from
`ORT_THROW` or a violated `ORT_ENFORCE`, or a null pointer that is used.
-/
import Mathlib.Tactic.Common

namespace OnnxRuntime

inductive StatusCode where
  | fail | invalidArgument | noSuchFile | noModel | engineError
  | runtimeException | invalidProtobuf | modelLoaded | notImplemented
  | invalidGraph | shapeInferenceNotRegistered | requirementNotRegistered
deriving Repr, DecidableEq

/-- A call that does not succeed. -/
inductive Failure where
  | status (code : StatusCode) (message : String)
  | enforce (message : String)
  | thrown (message : String)
  | nullDereference
deriving Repr, DecidableEq

/-- The failure is a status that a call returns. -/
def Failure.IsStatus : Failure → Prop
  | .status _ _ => True
  | _ => False

/-- A call that succeeds or has a failure of this kind. -/
def FailsAs (kind : Failure → Prop) {α : Type} (x : Except Failure α) : Prop :=
  ∀ failure, x = .error failure → kind failure

/-- A call that succeeds, throws or uses a null pointer. -/
abbrev NoStatus {α : Type} (x : Except Failure α) : Prop :=
  FailsAs (fun failure => ¬ failure.IsStatus) x

/-- A call that succeeds, returns a status or throws. -/
abbrev NoNull {α : Type} (x : Except Failure α) : Prop :=
  FailsAs (fun failure => failure ≠ .nullDereference) x

namespace FailsAs

variable {kind : Failure → Prop} {α β ι : Type}

theorem ok (a : α) : FailsAs kind (.ok a) := fun _ h => by cases h

theorem error {failure : Failure} (h : kind failure) :
    FailsAs kind (.error failure : Except Failure α) := by
  rintro _ ⟨⟩
  exact h

theorem bind {x : Except Failure α} {f : α → Except Failure β}
    (hx : FailsAs kind x) (hf : ∀ a, FailsAs kind (f a)) :
    FailsAs kind (x >>= f) := by
  cases x with
  | ok a => exact hf a
  | error failure => exact error (hx failure rfl)

theorem foldlM {step : α → ι → Except Failure α} (items : List ι)
    (hstep : ∀ a x, FailsAs kind (step a x)) (a : α) :
    FailsAs kind (items.foldlM step a) := by
  induction items generalizing a with
  | nil => exact ok a
  | cons x rest ih => exact (hstep a x).bind ih

end FailsAs

end OnnxRuntime
