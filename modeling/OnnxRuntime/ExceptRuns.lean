/-
Runs of a fallible step function: taking a successful run apart, and the
induction that carries a property along it.  Loops that change the cells of an
array in place, and stop at the first cell that is not there.
-/
import Mathlib.Data.List.Basic

namespace OnnxRuntime

open List

universe u v w

variable {ε : Type u} {α : Type v} {σ : Type v} {s s' : σ}

theorem except_bind_eq_ok {x : Except ε α} {f : α → Except ε σ} {r : σ} :
    x >>= f = .ok r ↔ ∃ a, x = .ok a ∧ f a = .ok r := by
  cases x with
  | error e => simp [bind, Except.bind]
  | ok a => simp [bind, Except.bind]

theorem except_pure_eq_ok {a r : α} :
    (pure a : Except ε α) = .ok r ↔ a = r := by
  simp [pure, Except.pure]

/-- The value of a computation that is known to succeed. -/
def okValue (x : Except ε α) (h : x.isOk = true) : α :=
  match x, h with
  | .ok a, _ => a

theorem eq_ok_okValue (x : Except ε α) (h : x.isOk = true) :
    x = .ok (okValue x h) := by
  cases x with
  | ok a => rfl
  | error e => cases h

variable {ι : Type w} {step : σ → ι → Except ε σ}

theorem foldlM_cons_eq_ok {x : ι} {rest : List ι} :
    (x :: rest).foldlM step s = .ok s' ↔
      ∃ mid, step s x = .ok mid ∧ rest.foldlM step mid = .ok s' := by
  rw [foldlM_cons, except_bind_eq_ok]

theorem foldlM_append_eq_ok {front back : List ι} :
    (front ++ back).foldlM step s = .ok s' ↔
      ∃ mid, front.foldlM step s = .ok mid ∧ back.foldlM step mid = .ok s' := by
  rw [foldlM_append, except_bind_eq_ok]

theorem foldlM_nil_eq_ok :
    ([] : List ι).foldlM step s = .ok s' ↔ s = s' := by
  rw [foldlM_nil, except_pure_eq_ok]

theorem foldlM_snoc_eq_ok {front : List ι} {x : ι} :
    (front ++ [x]).foldlM step s = .ok s' ↔
      ∃ mid, front.foldlM step s = .ok mid ∧ step mid x = .ok s' := by
  simp only [foldlM_append_eq_ok, foldlM_cons_eq_ok, foldlM_nil_eq_ok,
    exists_eq_right]

theorem foldlM_congr {step' : σ → ι → Except ε σ} {items : List ι}
    (h : ∀ x ∈ items, ∀ s, step s x = step' s x) (s : σ) :
    items.foldlM step s = items.foldlM step' s := by
  induction items generalizing s with
  | nil => rfl
  | cons x rest ih =>
    rw [foldlM_cons, h x mem_cons_self]
    exact bind_congr (ih fun y hy => h y (mem_cons_of_mem x hy))

/-- The results of a successful pass over a list, position by position. -/
theorem mapM_getElem? {f : ι → Except ε α} {items : List ι} {results : List α}
    (h : items.mapM f = .ok results) {k : Nat} {x : ι}
    (hx : items[k]? = some x) : ∃ r, results[k]? = some r ∧ f x = .ok r := by
  induction items generalizing results k with
  | nil => simp at hx
  | cons y rest ih =>
    rw [mapM_cons] at h
    obtain ⟨first, hfirst, h⟩ := except_bind_eq_ok.mp h
    obtain ⟨others, hothers, h⟩ := except_bind_eq_ok.mp h
    cases h
    cases k with
    | zero =>
      cases hx
      exact ⟨first, rfl, hfirst⟩
    | succ k => exact ih hothers hx

theorem exists_mapM_eq_ok {f : ι → Except ε α} {items : List ι}
    (h : ∀ x ∈ items, ∃ r, f x = .ok r) :
    ∃ results, items.mapM f = .ok results := by
  induction items with
  | nil => exact ⟨[], rfl⟩
  | cons x rest ih =>
    obtain ⟨⟨first, hfirst⟩, hrest⟩ := forall_mem_cons.mp h
    obtain ⟨others, hothers⟩ := ih hrest
    refine ⟨first :: others, ?_⟩
    rw [mapM_cons, hfirst, hothers]
    rfl

/-- A property that every step keeps. -/
theorem foldlM_preserves {motive : σ → Prop} {items : List ι}
    (hstep : ∀ s s' x, x ∈ items → motive s → step s x = .ok s' → motive s')
    {s s' : σ} (hs : motive s) (hrun : items.foldlM step s = .ok s') :
    motive s' := by
  induction items generalizing s with
  | nil => exact foldlM_nil_eq_ok.mp hrun ▸ hs
  | cons x rest ih =>
    obtain ⟨mid, hmid, hrest⟩ := foldlM_cons_eq_ok.mp hrun
    exact ih (fun s s' y hy => hstep s s' y (mem_cons_of_mem x hy))
      (hstep s mid x mem_cons_self hs hmid) hrest

/-- Every step of a run that succeeds does. -/
theorem foldlM_step_of_mem {items : List ι} {x : ι} (hx : x ∈ items)
    (hrun : items.foldlM step s = .ok s') :
    ∃ mid mid', step mid x = .ok mid' := by
  obtain ⟨front, back, rfl⟩ := append_of_mem hx
  obtain ⟨mid, -, hrest⟩ := foldlM_append_eq_ok.mp hrun
  obtain ⟨mid', hstep, -⟩ := foldlM_cons_eq_ok.mp hrest
  exact ⟨mid, mid', hstep⟩

/-- What holds of the failures of all steps holds of that of a run. -/
theorem foldlM_error_of_steps {motive : ε → Prop} {items : List ι}
    (hstep : ∀ s x e, step s x = .error e → motive e) {e : ε}
    (hrun : items.foldlM step s = .error e) : motive e := by
  induction items generalizing s with
  | nil => cases hrun
  | cons x rest ih =>
    rw [foldlM_cons] at hrun
    cases hmid : step s x with
    | error _ =>
      rw [hmid] at hrun
      cases hrun
      exact hstep s x e hmid
    | ok mid =>
      rw [hmid] at hrun
      exact ih hrun

/-- What a run collects, when each step keeps `inv` and adds the same things
whatever came before it. -/
theorem foldlM_collects {α : Type u} (inv : σ → Prop) (holds : σ → α → Prop)
    {adds : ι → α → Prop} {items : List ι}
    (hstep : ∀ s s' x, x ∈ items → inv s → step s x = .ok s' →
      inv s' ∧ ∀ a, holds s' a ↔ holds s a ∨ adds x a)
    (hs : inv s) (hrun : items.foldlM step s = .ok s') :
    inv s' ∧ ∀ a, holds s' a ↔ holds s a ∨ ∃ x ∈ items, adds x a := by
  induction items generalizing s with
  | nil =>
    cases foldlM_nil_eq_ok.mp hrun
    simp [hs]
  | cons x rest ih =>
    obtain ⟨mid, hmid, hrest⟩ := foldlM_cons_eq_ok.mp hrun
    obtain ⟨hinv, hadds⟩ := hstep s mid x mem_cons_self hs hmid
    obtain ⟨hinv', hadds'⟩ := ih
      (fun s s' y hy => hstep s s' y (mem_cons_of_mem x hy)) hinv hrest
    refine ⟨hinv', fun a => ?_⟩
    rw [hadds', hadds, or_assoc, exists_mem_cons_iff]

/-- A part of the state that each step changes by a list of updates. -/
theorem foldlM_projects {τ υ : Type*} (part : σ → τ) (updates : ι → List υ)
    (update : τ → υ → τ) {items : List ι}
    (hstep : ∀ s s' x, x ∈ items → step s x = .ok s' →
      part s' = (updates x).foldl update (part s))
    (hrun : items.foldlM step s = .ok s') :
    part s' = (items.flatMap updates).foldl update (part s) := by
  induction items generalizing s with
  | nil =>
    cases foldlM_nil_eq_ok.mp hrun
    rfl
  | cons x rest ih =>
    obtain ⟨mid, hmid, hrest⟩ := foldlM_cons_eq_ok.mp hrun
    rw [flatMap_cons, foldl_append, ← hstep s mid x mem_cons_self hmid]
    exact ih (fun s s' y hy => hstep s s' y (mem_cons_of_mem x hy)) hrest

/-- A condition on state and item that every step of a run meets. -/
def AlongRun (step : σ → ι → Except ε σ) (cond : σ → ι → Prop) :
    σ → List ι → Prop
  | _, [] => True
  | s, x :: rest =>
    cond s x ∧
      match step s x with
      | .ok next => AlongRun step cond next rest
      | .error _ => True

instance AlongRun.decidable {cond : σ → ι → Prop}
    [∀ s x, Decidable (cond s x)] : (s : σ) → (items : List ι) →
      Decidable (AlongRun step cond s items)
  | _, [] => isTrue trivial
  | s, x :: rest =>
    have : Decidable (match step s x with
        | .ok next => AlongRun step cond next rest
        | .error _ => True) :=
      match step s x with
      | .ok next => AlongRun.decidable next rest
      | .error _ => isTrue trivial
    inferInstanceAs (Decidable (_ ∧ _))

theorem AlongRun.cond_of_snoc {cond : σ → ι → Prop} {mid : σ}
    {front : List ι} {x : ι} (h : AlongRun step cond s (front ++ [x]))
    (hfront : front.foldlM step s = .ok mid) : cond mid x := by
  induction front generalizing s with
  | nil =>
    rw [foldlM_nil_eq_ok] at hfront
    exact hfront ▸ h.1
  | cons y rest ih =>
    obtain ⟨next, hnext, hrest⟩ := foldlM_cons_eq_ok.mp hfront
    have htail := h.2
    rw [hnext] at htail
    exact ih htail hrest

theorem AlongRun.of_append {cond : σ → ι → Prop}
    {front back : List ι} (h : AlongRun step cond s (front ++ back)) :
    AlongRun step cond s front := by
  induction front generalizing s with
  | nil => trivial
  | cons y rest ih =>
    obtain ⟨hcond, htail⟩ := h
    constructor
    · exact hcond
    · cases hnext : step s y with
      | error e => trivial
      | ok next =>
        rw [hnext] at htail
        exact ih htail

section Specs

/-- The call returns something with the property, or fails for a reason. -/
def Meets (fails : Prop) (post : α → Prop) : Except ε α → Prop
  | .ok a => post a
  | .error _ => fails

variable {fails : Prop} {post : α → Prop} {x : Except ε α}

section

variable (h : Meets fails post x)
include h

theorem Meets.exists_ok (hfails : ¬ fails) : ∃ a, x = .ok a ∧ post a := by
  cases x with
  | ok a => exact ⟨a, rfl, h⟩
  | error e => exact absurd h hfails

theorem Meets.of_ok {a : α} (hx : x = .ok a) : post a := by
  subst hx
  exact h

theorem Meets.imp {fails' : Prop} {post' : α → Prop} (hfails : fails → fails')
    (hpost : ∀ a, post a → post' a) :
    Meets fails' post' x := by
  cases x with
  | ok a => exact hpost a h
  | error e => exact hfails h

theorem Meets.bind {post' : σ → Prop} {f : α → Except ε σ}
    (hf : ∀ a, post a → Meets fails post' (f a)) :
    Meets fails post' (x >>= f) := by
  cases x with
  | ok a => exact hf a h
  | error e => exact h

end

/-- A search that stops at the first hit. -/
theorem anyM_meets {ι : Type} {f : ι → Except ε Bool} {p : ι → Prop}
    {items : List ι}
    (h : ∀ x ∈ items, Meets fails (fun hit : Bool => hit ↔ p x) (f x)) :
    Meets fails (fun hit : Bool => hit ↔ ∃ x ∈ items, p x) (items.anyM f) := by
  induction items with
  | nil => exact ⟨nofun, fun ⟨x, hx, _⟩ => nomatch hx⟩
  | cons x rest ih =>
    rw [forall_mem_cons] at h
    apply h.1.bind
    intro hit hx
    cases hit with
    | true => exact ⟨fun _ => ⟨x, mem_cons_self, hx.mp rfl⟩, fun _ => rfl⟩
    | false =>
      apply (ih h.2).imp id
      intro hit' hrest
      rw [hrest, exists_mem_cons_iff]
      exact ⟨.inr, fun hor => hor.resolve_left fun hp => nomatch hx.mpr hp⟩

/-- A loop meets what its rounds carry from the items seen to one more. -/
theorem foldlM_meets {motive : List ι → σ → Prop} {items : List ι}
    (hstep : ∀ done x rest, items = done ++ x :: rest → ∀ s, motive done s →
      Meets fails (motive (done ++ [x])) (step s x))
    (hs : motive [] s) :
    Meets fails (motive items) (items.foldlM step s) := by
  suffices h : ∀ rest done, items = done ++ rest → ∀ s, motive done s →
      Meets fails (motive items) (rest.foldlM step s) from
    h items [] rfl s hs
  intro rest
  induction rest with
  | nil =>
    intro done hdone s hs
    rw [append_nil] at hdone
    rw [hdone]
    exact hs
  | cons x rest ih =>
    intro done hdone s hs
    apply (hstep done x rest hdone s hs).bind
    intro mid hmid
    exact ih (done ++ [x]) (by rw [hdone, append_assoc]; rfl) mid hmid

end Specs

variable {K : Type v} (outside : ε) (op : K → K → K)

/-- `cells[k] = op(cells[k], source)`. -/
def updateCell (source : Option K) (cells : List K) (k : Nat) :
    Except ε (List K) :=
  match cells[k]?, source with
  | some a, some b => .ok (cells.set k (op a b))
  | _, _ => .error outside

/-- A loop over the first `count` cells. -/
def updateCells (source : Nat → Option K) (count : Nat) (cells : List K) :
    Except ε (List K) :=
  (List.range count).foldlM
    (fun cells k => updateCell outside op (source k) cells k) cells

/-- A loop over blocks of `width` cells, each with one source. -/
def updateBlocks (source : Nat → Option K) (blocks width : Nat)
    (cells : List K) : Except ε (List K) :=
  (List.range blocks).foldlM (fun cells i =>
    (List.range width).foldlM (fun cells j =>
      updateCell outside op (source i) cells (i * width + j)) cells) cells

/-- The first `count` cells, read one after the other. -/
def readCells (cells : List K) (count : Nat) : Except ε (List K) :=
  (List.range count).foldlM (fun found k =>
    match cells[k]? with
    | some a => .ok (found ++ [a])
    | none => .error outside) []

variable {outside op} {source : Nat → Option K} {count : Nat} {cells : List K}

section Flat

theorem of_updateCell_ok {read : Option K} {k : Nat} {result : List K}
    (h : updateCell outside op read cells k = .ok result) :
    ∃ a b, cells[k]? = some a ∧ result = cells.set k (op a b) := by
  rw [updateCell.eq_def] at h
  split at h
  · rename_i a b hcell
    cases h
    exact ⟨a, b, hcell, rfl⟩
  · cases h

/-- A loop whose cells and sources are all there changes each cell once. -/
theorem updateCells_eq_ok {value : Nat → K} (hcount : count ≤ cells.length)
    (hsource : ∀ k < count, source k = some (value k)) :
    updateCells outside op source count cells =
      .ok (cells.mapIdx fun k a => if k < count then op a (value k) else a) := by
  induction count with
  | zero =>
    refine congrArg Except.ok (ext_getElem? fun k => ?_)
    simp
  | succ count ih =>
    have hbefore := ih (Nat.le_of_succ_le hcount) fun k hk =>
      hsource k (Nat.lt_succ_of_lt hk)
    rw [updateCells, range_succ, foldlM_append, ← updateCells, hbefore]
    simp only [foldlM_cons, foldlM_nil, bind, Except.bind,
      hsource count (Nat.lt_succ_self _), updateCell, getElem?_mapIdx,
      getElem?_eq_getElem hcount, Option.map_some, Nat.lt_irrefl, if_false]
    refine congrArg Except.ok (ext_getElem? fun k => ?_)
    rw [getElem?_set, getElem?_mapIdx, getElem?_mapIdx]
    by_cases hk : count = k
    · subst hk
      simp [Nat.lt_of_succ_le hcount]
    · have hiff : k < count + 1 ↔ k < count := by omega
      simp only [hk, if_false, hiff]

end Flat

section Blocks

/-- Two nested loops over blocks are one loop over all the cells. -/
theorem updateBlocks_eq (source : Nat → Option K) (blocks width : Nat)
    (cells : List K) :
    updateBlocks outside op source blocks width cells =
      updateCells outside op (fun k => source (k / width)) (blocks * width)
        cells := by
  induction blocks with
  | zero => rw [Nat.zero_mul]; rfl
  | succ blocks ih =>
    rw [updateBlocks, range_succ, foldlM_append, updateCells,
      Nat.succ_mul, range_add, foldlM_append, ← updateCells, ← ih]
    simp only [foldlM_cons, foldlM_nil, bind_pure, foldlM_map]
    refine bind_congr fun mid => foldlM_congr (fun j hj cells => ?_) mid
    have hlt := mem_range.1 hj
    have hdiv : (blocks * width + j) / width = blocks := by
      rw [Nat.mul_comm, Nat.mul_add_div (Nat.zero_lt_of_lt hlt),
        Nat.div_eq_of_lt hlt, Nat.add_zero]
    rw [hdiv]

end Blocks

/-- The cells that a loop of reads returns. -/
theorem readCells_eq_ok (outside : ε) {cells : List K} {count : Nat}
    (h : count ≤ cells.length) :
    readCells outside cells count = .ok (cells.take count) := by
  induction count with
  | zero => rfl
  | succ count ih =>
    rw [readCells, range_succ, foldlM_append, ← readCells, ih (by omega),
      take_add_one, getElem?_eq_getElem h]
    simp [bind, Except.bind, pure, Except.pure, getElem?_eq_getElem h]

end OnnxRuntime
