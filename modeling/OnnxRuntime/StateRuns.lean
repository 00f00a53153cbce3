/-
Computations that change a state and may stop with an exception, keeping the
state they had reached: running them step by step, and what they leave alone.
-/
import Mathlib.Tactic.Common

namespace OnnxRuntime

open List

universe u

variable {ε σ τ α β : Type u} {t : σ}

section Runs

variable {x : EStateM ε σ α} {f : α → EStateM ε σ β} {s s' : σ} {a : α} {e : ε}

theorem bind_eq_of_ok (h : x s = .ok a s') : (x >>= f) s = f a s' := by
  simp [bind, EStateM.bind, h]

theorem bind_eq_of_error (h : x s = .error e s') :
    (x >>= f) s = .error e s' := by
  simp [bind, EStateM.bind, h]

/-- A run that returns, taken apart. -/
theorem state_bind_eq_ok {b : β} :
    (x >>= f) s = .ok b t ↔ ∃ a s', x s = .ok a s' ∧ f a s' = .ok b t := by
  cases hrun : x s with
  | ok a s' =>
    rw [bind_eq_of_ok hrun]
    grind
  | error e s' =>
    rw [bind_eq_of_error hrun]
    grind

theorem state_get_bind {f : σ → EStateM ε σ β} {b : β} :
    (get >>= f) s = .ok b t ↔ f s s = .ok b t :=
  Iff.rfl

theorem state_set_bind {f : PUnit → EStateM ε σ β} {b : β} :
    (set s' >>= f) s = .ok b t ↔ f ⟨⟩ s' = .ok b t :=
  Iff.rfl

/-- A run that stops, taken apart. -/
theorem state_bind_eq_error : (x >>= f) s = .error e t ↔
      x s = .error e t ∨ ∃ a s', x s = .ok a s' ∧ f a s' = .error e t := by
  cases hrun : x s with
  | ok a s' =>
    rw [bind_eq_of_ok hrun]
    grind
  | error e s' =>
    rw [bind_eq_of_error hrun]
    grind

@[simp]
theorem pure_apply (a : α) (s : σ) : (pure a : EStateM ε σ α) s = .ok a s := rfl

@[simp]
theorem throw_apply (e : ε) (s : σ) :
    (throw e : EStateM ε σ α) s = .error e s := rfl

@[simp]
theorem get_apply (s : σ) : (get : EStateM ε σ σ) s = .ok s s := rfl

@[simp]
theorem modify_apply (g : σ → σ) (s : σ) :
    (modify g : EStateM ε σ PUnit) s = .ok ⟨⟩ (g s) := rfl

end Runs

section Loops

variable {ι : Type u} {step : α → ι → EStateM ε σ α}

/-- What one round of a loop carries from the items it has seen to one more
holds for all of them. -/
theorem foldlM_returns (done : List ι) {motive : List ι → α → σ → Prop}
    {items : List ι}
    (hstep : ∀ done x, x ∈ items → ∀ a s a' s', motive done a s →
      step a x s = .ok a' s' → motive (done ++ [x]) a' s')
    {a a' : α} {s s' : σ} (hs : motive done a s)
    (hrun : items.foldlM step a s = .ok a' s') :
    motive (done ++ items) a' s' := by
  induction items generalizing done a s with
  | nil =>
    cases hrun
    rwa [append_nil]
  | cons x rest ih =>
    rw [foldlM_cons, state_bind_eq_ok] at hrun
    obtain ⟨mid, t, hmid, hrest⟩ := hrun
    rw [append_cons]
    exact ih _ (fun done y hy => hstep done y (mem_cons_of_mem x hy))
      (hstep done x mem_cons_self a s mid t hs hmid) hrest

/-- A loop stops at one of its items. -/
theorem foldlM_eq_error {items : List ι} {a : α} {s : σ} {e : ε} :
    items.foldlM step a s = .error e t ↔ ∃ front x back mid u,
      items = front ++ x :: back ∧ front.foldlM step a s = .ok mid u ∧
        step mid x u = .error e t := by
  induction items generalizing a s with
  | nil =>
    refine iff_of_false (fun h => by cases h) ?_
    rintro ⟨front, x, back, -, -, hnil, -⟩
    cases front <;> cases hnil
  | cons y rest ih =>
    rw [foldlM_cons, state_bind_eq_error]
    constructor
    · rintro (hfirst | ⟨mid, u, hfirst, hrest⟩)
      · exact ⟨[], y, rest, a, s, rfl, rfl, hfirst⟩
      · obtain ⟨front, x, back, last, v, rfl, hfront, hstop⟩ := ih.mp hrest
        refine ⟨y :: front, x, back, last, v, rfl, ?_, hstop⟩
        exact state_bind_eq_ok.mpr ⟨mid, u, hfirst, hfront⟩
    · rintro ⟨front, x, back, mid, u, hitems, hfront, hstop⟩
      cases front with
      | nil =>
        cases hitems
        cases hfront
        exact .inl hstop
      | cons z front =>
        cases hitems
        obtain ⟨next, v, hfirst, hfront⟩ := state_bind_eq_ok.mp hfront
        exact .inr ⟨next, v, hfirst,
          ih.mpr ⟨front, x, back, mid, u, rfl, hfront, hstop⟩⟩

end Loops

/-- The state in which a computation ends, whether it returns or throws. -/
def endState : EStateM.Result ε σ α → σ
  | .ok _ s => s
  | .error _ s => s

/-- What a computation returns or throws. -/
def valueOf : EStateM.Result ε σ α → Except ε α
  | .ok a _ => .ok a
  | .error e _ => .error e

theorem eq_ok_of_valueOf {result : EStateM.Result ε σ α} {a : α}
    (h : valueOf result = .ok a) : result = .ok a (endState result) := by
  cases result with
  | ok b s =>
    cases h
    rfl
  | error e s => cases h

/-- A computation that leaves a part of the state as it is. -/
def Keeps (part : σ → τ) (x : EStateM ε σ α) : Prop :=
  ∀ s, part (endState (x s)) = part s

namespace Keeps

variable {part : σ → τ}

theorem pure (a : α) : Keeps part (pure a : EStateM ε σ α) := fun _ => rfl

theorem throw (e : ε) : Keeps part (throw e : EStateM ε σ α) := fun _ => rfl

theorem get : Keeps part (get : EStateM ε σ σ) := fun _ => rfl

theorem modify {g : σ → σ} (h : ∀ s, part (g s) = part s) :
    Keeps part (modify g : EStateM ε σ PUnit) := h

theorem bind {x : EStateM ε σ α} {f : α → EStateM ε σ β}
    (hx : Keeps part x) (hf : ∀ a, Keeps part (f a)) :
    Keeps part (x >>= f) := by
  intro s
  have hstart := hx s
  cases hrun : x s with
  | ok a s' =>
    rw [hrun] at hstart
    rw [bind_eq_of_ok hrun, hf a s']
    exact hstart
  | error e s' =>
    rw [hrun] at hstart
    rw [bind_eq_of_error hrun]
    exact hstart

end Keeps

theorem keeps_modify_bind {part : σ → τ} {g : σ → σ}
    {f : PUnit → EStateM ε σ β} (h : ∀ s, part (g s) = part s)
    (hf : ∀ a, Keeps part (f a)) : Keeps part (modify g >>= f) :=
  (Keeps.modify h).bind hf

end OnnxRuntime
