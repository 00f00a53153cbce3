/-
Computations that may fault: a run returns when every access in it is allowed.
Rules for what a run returns with, a loop that counts down, and arrays whose
elements are read only once they have been written.  Loops whose rounds return
or go on, with a measure that bounds how many rounds there are.
-/
import Mathlib.Tactic.Common
import Mathlib.Data.Nat.Basic

namespace OnnxRuntime

open Function

universe u v

variable {σ τ : Type u} {run : Option σ}

/-- The run does not fault, and its result has the property. -/
def Returns (run : Option σ) (post : σ → Prop) : Prop :=
  ∃ result, run = some result ∧ post result

namespace Returns

theorem pure {result : σ} {post : σ → Prop} (h : post result) :
    Returns (Pure.pure result) post :=
  ⟨result, rfl, h⟩

theorem mono {post post' : σ → Prop} (h : Returns run post)
    (hpost : ∀ result, post result → post' result) : Returns run post' := by
  obtain ⟨result, hrun, hresult⟩ := h
  exact ⟨result, hrun, hpost result hresult⟩

theorem bind {next : σ → Option τ} {mid : σ → Prop}
    {post : τ → Prop} (h : Returns run mid)
    (hnext : ∀ result, mid result → Returns (next result) post) :
    Returns (run >>= next) post := by
  obtain ⟨result, rfl, hresult⟩ := h
  exact hnext result hresult

end Returns

/-- `for (i = 0; i < count; i++) body`. -/
def forLoop (body : σ → Option σ) : Nat → σ → Option σ
  | 0, s => some s
  | count + 1, s => body s >>= forLoop body count

/-- `do body while (--count > 0)`; a count of zero would wrap around. -/
def doWhile (body : σ → Option σ) (count : Nat) (s : σ) : Option σ :=
  if count = 0 then none else forLoop body count s

variable {body : σ → Option σ} {count : Nat} {s : σ}

theorem forLoop_returns_from (start : Nat) {inv : Nat → σ → Prop}
    (hs : inv start s)
    (hstep : ∀ i < start + count, ∀ s, inv i s →
      Returns (body s) (inv (i + 1))) :
    Returns (forLoop body count s) (inv (start + count)) := by
  induction count generalizing s start with
  | zero => exact Returns.pure hs
  | succ rest ih =>
    refine (hstep start (by omega) s hs).bind fun mid hmid => ?_
    have hrest := ih (start + 1) hmid fun i hi => hstep i (by omega)
    rwa [Nat.add_assoc, Nat.add_comm 1] at hrest

/-- What the body establishes for one more round holds after all of them. -/
theorem forLoop_returns (inv : Nat → σ → Prop) (hs : inv 0 s)
    (hstep : ∀ i < count, ∀ s, inv i s → Returns (body s) (inv (i + 1))) :
    Returns (forLoop body count s) (inv count) := by
  have hsteps : ∀ i < 0 + count, ∀ s, inv i s →
      Returns (body s) (inv (i + 1)) := fun i hi => hstep i (by omega)
  have hrun := forLoop_returns_from 0 hs hsteps
  rwa [Nat.zero_add] at hrun

theorem doWhile_returns (inv : Nat → σ → Prop) (hpos : 0 < count) (hs : inv 0 s)
    (hstep : ∀ i < count, ∀ s, inv i s → Returns (body s) (inv (i + 1))) :
    Returns (doWhile body count s) (inv count) := by
  rw [doWhile, if_neg (Nat.ne_of_gt hpos)]
  exact forLoop_returns inv hs hstep

section Cells

variable {α : Type u}

/-- The elements of an array that may be read. -/
abbrev Cells (α : Type u) := Nat → Option α

/-- A write to an array of the given size. -/
def store (size : Nat) (cells : Cells α) (index : Nat) (value : α) :
    Option (Cells α) :=
  if index < size then some (Function.update cells index (some value))
  else none

/-- The elements from `dst` on take the values of a source array at `src`,
`src + step` and so on. -/
def gather (size : Nat) (source : Cells α) (dst src step : Nat) :
    Nat → Cells α → Option (Cells α)
  | 0, cells => some cells
  | count + 1, cells => do
      let cells ← gather size source dst src step count cells
      let value ← source (src + count * step)
      store size cells (dst + count) value

/-- The elements from `dst` on take one value. -/
def fill (size : Nat) (value : α) (dst : Nat) : Nat → Cells α → Option (Cells α)
  | 0, cells => some cells
  | count + 1, cells => do
      let cells ← fill size value dst count cells
      store size cells (dst + count) value

/-- What a write of several elements does to an array. -/
structure Wrote (before after : Cells α) (dst count : Nat)
    (values : Nat → α) : Prop where
  written : ∀ i < count, after (dst + i) = some (values i)
  kept : ∀ a, a < dst ∨ dst + count ≤ a → after a = before a

variable {size dst count : Nat} {before cells : Cells α} {values : Nat → α}

theorem Wrote.nothing : Wrote before before dst 0 values where
  written _ hi := absurd hi (Nat.not_lt_zero _)
  kept _ _ := rfl

theorem Wrote.store {value : α} (h : Wrote before cells dst count values)
    (hvalue : value = values count) (hfit : dst + count < size) :
    Returns (store size cells (dst + count) value) fun after =>
      Wrote before after dst (count + 1) values := by
  refine ⟨_, if_pos hfit, ?_, ?_⟩
  · intro i hi
    by_cases hlast : i = count
    · rw [hlast, update_self, hvalue]
    · rw [update_of_ne (by omega)]
      exact h.written i (by omega)
  · intro a ha
    rw [update_of_ne (by omega)]
    exact h.kept a (by omega)

theorem gather_returns {source : Cells α} {src step : Nat}
    (hread : ∀ i < count, source (src + i * step) = some (values i))
    (hfit : dst + count ≤ size) :
    Returns (gather size source dst src step count before) fun after =>
      Wrote before after dst count values := by
  induction count with
  | zero => exact Returns.pure .nothing
  | succ count ih =>
    refine (ih (fun i hi => hread i (by omega)) (by omega)).bind
      fun cells hcells => ?_
    rw [hread count (Nat.lt_succ_self count)]
    exact hcells.store rfl hfit

theorem fill_returns {value : α} (hfit : dst + count ≤ size) :
    Returns (fill size value dst count before) fun after =>
      Wrote before after dst count fun _ => value := by
  induction count with
  | zero => exact Returns.pure .nothing
  | succ count ih =>
    exact (ih (by omega)).bind fun cells hcells => hcells.store rfl hfit

end Cells

variable {ω : Type v} {step : σ → ω ⊕ σ} {t : σ}

/-- At most `fuel` rounds. -/
def runLoop (step : σ → ω ⊕ σ) : Nat → σ → Option ω
  | 0, _ => none
  | fuel + 1, s =>
    match step s with
    | .inl out => some out
    | .inr next => runLoop step fuel next

/-- The states at the beginnings of the rounds. -/
inductive LoopReaches (step : σ → ω ⊕ σ) (s : σ) : σ → Prop where
  | start : LoopReaches step s s
  | next {t u : σ} (h : LoopReaches step s t) (hstep : step t = .inr u) :
      LoopReaches step s u

theorem LoopReaches.head {u : σ} (hstep : step s = .inr t)
    (h : LoopReaches step t u) : LoopReaches step s u := by
  induction h with
  | start => exact .next .start hstep
  | next _ hlast ih => exact .next ih hlast

theorem LoopReaches.preserves {inv : σ → Prop} (h : LoopReaches step s t)
    (hstep : ∀ s t, inv s → step s = .inr t → inv t) (hs : inv s) : inv t := by
  induction h with
  | start => exact hs
  | next _ hlast ih => exact hstep _ _ ih hlast

/-- The loop returns with `out`, whatever fuel beyond some bound it has. -/
def LoopReturns (step : σ → ω ⊕ σ) (s : σ) (out : ω) : Prop :=
  ∃ bound, ∀ fuel, bound < fuel → runLoop step fuel s = some out

theorem LoopReturns.unique {out out' : ω} (h : LoopReturns step s out)
    (h' : LoopReturns step s out') : out = out' := by
  obtain ⟨bound, hbound⟩ := h
  obtain ⟨bound', hbound'⟩ := h'
  have hrun := hbound (max bound bound' + 1) (by omega)
  rw [hbound' (max bound bound' + 1) (by omega)] at hrun
  exact (Option.some.inj hrun).symm

theorem LoopReturns.of_reaches {out : ω} (h : LoopReaches step s t)
    (ht : step t = .inl out) : LoopReturns step s out := by
  suffices hall : ∀ t, LoopReaches step s t → LoopReturns step t out →
      LoopReturns step s out by
    refine hall t h ⟨0, fun fuel hfuel => ?_⟩
    obtain ⟨rest, rfl⟩ := Nat.exists_eq_succ_of_ne_zero (by omega : fuel ≠ 0)
    simp only [runLoop, ht]
  intro t h
  induction h with
  | start => exact id
  | @next t u _ hlast ih =>
    rintro ⟨bound, hbound⟩
    refine ih ⟨bound + 1, fun fuel hfuel => ?_⟩
    obtain ⟨rest, rfl⟩ := Nat.exists_eq_succ_of_ne_zero (by omega : fuel ≠ 0)
    simp only [runLoop, hlast]
    exact hbound rest (by omega)

/-- A loop with a measure that each round lowers returns from a state that it
comes to. -/
theorem exists_loopReturns {inv : σ → Prop} (measure : σ → Nat)
    (hstep : ∀ s t, inv s → step s = .inr t → inv t ∧ measure t < measure s)
    (hs : inv s) :
    ∃ out last, LoopReaches step s last ∧ step last = .inl out ∧
      LoopReturns step s out := by
  suffices h : ∀ bound s, inv s → measure s < bound →
      ∃ out last, LoopReaches step s last ∧ step last = .inl out ∧
        ∀ fuel, bound ≤ fuel → runLoop step fuel s = some out by
    obtain ⟨out, last, hreach, hlast, hrun⟩ :=
      h (measure s + 1) s hs (Nat.lt_succ_self _)
    exact ⟨out, last, hreach, hlast, measure s, hrun⟩
  intro bound
  induction bound with
  | zero => exact fun s _ hmeasure => absurd hmeasure (Nat.not_lt_zero _)
  | succ bound ih =>
    intro s hs hmeasure
    cases hround : step s with
    | inl out =>
      refine ⟨out, s, .start, hround, fun fuel hfuel => ?_⟩
      obtain ⟨rest, rfl⟩ := Nat.exists_eq_succ_of_ne_zero (by omega : fuel ≠ 0)
      simp only [runLoop, hround]
    | inr next =>
      obtain ⟨hnext, hlt⟩ := hstep s next hs hround
      obtain ⟨out, last, hreach, hlast, hrun⟩ := ih next hnext (by omega)
      refine ⟨out, last, .head hround hreach, hlast, fun fuel hfuel => ?_⟩
      obtain ⟨rest, rfl⟩ := Nat.exists_eq_succ_of_ne_zero (by omega : fuel ≠ 0)
      simp only [runLoop, hround]
      exact hrun rest (by omega)

end OnnxRuntime
