/-
`Loop`: the body is run until the trip count or its own condition ends it.  The
feeds are renewed when the next iteration begins, and the results for scan
outputs are stacked after the last one.
-/
import OnnxRuntime.DataTypes
import OnnxRuntime.ExceptRuns
import OnnxRuntime.Status
import Mathlib.Data.List.OfFn

namespace OnnxRuntime

open List

/-- A tensor whose elements are copied byte by byte. -/
@[ext]
structure LoopTensor where
  dims : List Nat
  elementSize : Nat
  bytes : List UInt8
  length_eq : bytes.length = dims.prod * elementSize
deriving DecidableEq

/-- What the body returns. -/
structure LoopResults (γ : Type) (vars outs : Nat) where
  condition : γ
  carried : Fin vars → LoopTensor
  scans : Fin outs → LoopTensor

/-- An iteration: what the body received and what it returned. -/
structure LoopRound (γ : Type) (vars outs : Nat) where
  iterNum : Int
  condition : γ
  carried : Fin vars → LoopTensor
  results : LoopResults γ vars outs

/-- A `Loop` node.  Conditions are tensors of a type `γ`, whose flag is `truth`;
`scalar` is `MakeScalarMLValue<bool>`, `output` is `context_.Output`, which
allocates and does not initialize. -/
structure Loop (γ : Type) (vars outs : Nat) where
  maxTripCount : Option Int
  condition : Option Bool
  inputs : Fin vars → LoopTensor
  body : Int → γ → (Fin vars → LoopTensor) →
    Except Failure (LoopResults γ vars outs)
  truth : γ → Bool
  scalar : Bool → γ
  truth_scalar : ∀ value, truth (scalar value) = value
  output : Fin outs → List Nat → LoopTensor
  dims_output : ∀ index dims, (output index dims).dims = dims

namespace Loop

/-- `INT64_MAX`. -/
def int64Max : Int := 2 ^ 63 - 1

/-- The members of `LoopImpl` and the variables of `Execute`.  `applied` lists
the iterations so far. -/
structure State (γ : Type) (vars outs : Nat) where
  iterNum : Int
  condition : γ
  feedCondition : γ
  feedCarried : Fin vars → LoopTensor
  fetches : Option (LoopResults γ vars outs) := none
  loopOutputTensors : Fin outs → List LoopTensor := fun _ => []
  applied : List (LoopRound γ vars outs) := []

/-- What a run leaves in the outputs. -/
structure Outputs (γ : Type) (vars outs : Nat) where
  carried : Fin vars → LoopTensor
  scans : List LoopTensor
  applied : List (LoopRound γ vars outs)

variable {γ : Type} {vars outs : Nat}

def updateFeeds (s : State γ vars outs) (lastOutput : LoopResults γ vars outs) :
    State γ vars outs :=
  { s with
    feedCondition := lastOutput.condition
    feedCarried := lastOutput.carried
    loopOutputTensors := fun index =>
      s.loopOutputTensors index ++ [lastOutput.scans index] }

/-- The feeds are renewed except in the first iteration. -/
def beginIteration (s : State γ vars outs) : State γ vars outs :=
  if s.iterNum ≠ 0 then s.fetches.elim s (updateFeeds s) else s

variable {tensors : List LoopTensor} {first tensor : LoopTensor}
  {outputIndex : Nat}

theorem length_flatMap_bytes {size : Nat}
    (h : ∀ tensor ∈ tensors, tensor.bytes.length = size) :
    (tensors.flatMap (·.bytes)).length = tensors.length * size := by
  rw [length_flatMap, map_congr_left h, map_const', sum_replicate_nat]

theorem length_eq_of_find?_eq_none
    (h : (tensors.find? fun tensor =>
      first.bytes.length ≠ tensor.bytes.length) = none) :
    ∀ tensor ∈ tensors, tensor.bytes.length = first.bytes.length := by
  intro tensor htensor
  have hnot := find?_eq_none.1 h tensor htensor
  exact (by simpa using hnot : first.bytes.length = _).symm

/-- Only the sizes in bytes are compared with that of the first result. -/
def concatenateLoopOutput (outputIndex : Nat) (perIteration : List LoopTensor) :
    Except Failure LoopTensor :=
  match perIteration with
  | [] => .error .nullDereference
  | first :: rest =>
    match h : (first :: rest).find? fun tensor =>
        first.bytes.length ≠ tensor.bytes.length with
    | some tensor =>
      .error (.status .fail
        ("Inconsistent shape in loop output for output " ++
          toString outputIndex ++ " Expected:" ++
          shapeToString (first.dims.map Int.ofNat) ++ " Got:" ++
          shapeToString (tensor.dims.map Int.ofNat)))
    | none => .ok {
        dims := (first :: rest).length :: first.dims
        elementSize := first.elementSize
        bytes := (first :: rest).flatMap (·.bytes)
        length_eq := by
          rw [length_flatMap_bytes (length_eq_of_find?_eq_none h),
            first.length_eq, List.prod_cons, Nat.mul_assoc] }

variable (loop : Loop γ vars outs)

/-- The `while` loop; the fuel is what is left of the trip count. -/
def iterate : Nat → State γ vars outs → Except Failure (State γ vars outs)
  | 0, s => .ok s
  | fuel + 1, s =>
    if loop.truth s.condition then do
      let s := beginIteration s
      let results ← loop.body s.iterNum s.feedCondition s.feedCarried
      iterate fuel { s with
        iterNum := s.iterNum + 1
        condition := results.condition
        fetches := some results
        applied := s.applied ++
          [⟨s.iterNum, s.feedCondition, s.feedCarried, results⟩] }
    else .ok s

def initialCondition : γ := loop.scalar (loop.condition.getD true)

def tripCount : Int := loop.maxTripCount.getD int64Max

def start : State γ vars outs where
  iterNum := 0
  condition := loop.initialCondition
  feedCondition := loop.initialCondition
  feedCarried := loop.inputs

def execute : Except Failure (Outputs γ vars outs) := do
  let s ← loop.iterate loop.tripCount.toNat loop.start
  if s.iterNum ≠ 0 then
    match s.fetches with
    | none => .error .nullDereference
    | some fetches => do
        let scans ← (List.finRange outs).mapM fun index : Fin _ =>
          concatenateLoopOutput (vars + index)
            (s.loopOutputTensors index ++ [fetches.scans index])
        return ⟨fetches.carried, scans, s.applied⟩
  else return {
    carried := s.feedCarried
    scans := (List.finRange outs).map fun index => loop.output index []
    applied := s.applied }

/-- The iterations from one on, without the delayed feeds. -/
def rounds : Nat → Int → γ → (Fin vars → LoopTensor) →
    Except Failure (List (LoopRound γ vars outs))
  | 0, _, _, _ => .ok []
  | fuel + 1, iterNum, condition, carried =>
    if loop.truth condition then do
      let results ← loop.body iterNum condition carried
      let rest ← rounds fuel (iterNum + 1) results.condition results.carried
      return ⟨iterNum, condition, carried, results⟩ :: rest
    else .ok []

/-- All iterations of the loop. -/
def allRounds : Except Failure (List (LoopRound γ vars outs)) :=
  loop.rounds loop.tripCount.toNat 0 loop.initialCondition loop.inputs

variable (done : List (LoopRound γ vars outs))

def nextCondition : γ :=
  done.getLast?.elim loop.initialCondition (·.results.condition)

def nextCarried : Fin vars → LoopTensor :=
  done.getLast?.elim loop.inputs (·.results.carried)

/-- The state after these iterations: the feeds are still those of the last
one, and its results are not yet among the collected ones. -/
def reached : State γ vars outs :=
  done.getLast?.elim loop.start fun last =>
    { iterNum := done.length
      condition := last.results.condition
      feedCondition := last.condition
      feedCarried := last.carried
      fetches := some last.results
      loopOutputTensors := fun index =>
        done.dropLast.map (·.results.scans index)
      applied := done }

section

variable (last : LoopRound γ vars outs)

theorem nextCondition_concat :
    loop.nextCondition (done ++ [last]) = last.results.condition := by
  simp [nextCondition]

theorem nextCarried_concat :
    loop.nextCarried (done ++ [last]) = last.results.carried := by
  simp [nextCarried]

theorem reached_concat :
    loop.reached (done ++ [last]) =
      { iterNum := done.length + 1
        condition := last.results.condition
        feedCondition := last.condition
        feedCarried := last.carried
        fetches := some last.results
        loopOutputTensors := fun index => done.map (·.results.scans index)
        applied := done ++ [last] } := by
  simp [reached]

end

/-- With renewed feeds nothing of the state is left behind. -/
theorem beginIteration_reached :
    beginIteration (loop.reached done) =
      { iterNum := done.length
        condition := loop.nextCondition done
        feedCondition := loop.nextCondition done
        feedCarried := loop.nextCarried done
        fetches := done.getLast?.map (·.results)
        loopOutputTensors := fun index => done.map (·.results.scans index)
        applied := done } := by
  rcases eq_nil_or_concat' done with rfl | ⟨front, last, rfl⟩
  · rfl
  · have hne : (front.length : Int) + 1 ≠ 0 := by omega
    rw [reached_concat, beginIteration, if_pos hne]
    simp [updateFeeds, nextCondition_concat, nextCarried_concat]

theorem iterate_reached (fuel : Nat) :
    loop.iterate fuel (loop.reached done) =
      (loop.rounds fuel done.length (loop.nextCondition done)
        (loop.nextCarried done)).map fun more => loop.reached (done ++ more) := by
  induction fuel generalizing done with
  | zero => simp [iterate, rounds, Except.map]
  | succ fuel ih =>
    have hcondition : (loop.reached done).condition =
        loop.nextCondition done := by
      rw [reached, nextCondition]
      cases done.getLast? <;> rfl
    rw [iterate, rounds, hcondition]
    by_cases htruth : loop.truth (loop.nextCondition done) = true
    · rw [if_pos htruth, if_pos htruth]
      dsimp only
      rw [beginIteration_reached]
      cases hbody : loop.body done.length (loop.nextCondition done)
        (loop.nextCarried done) with
      | error failure => rfl
      | ok results =>
        have hnext := ih (done ++ [⟨done.length, loop.nextCondition done,
          loop.nextCarried done, results⟩])
        rw [reached_concat] at hnext
        refine hnext.trans ?_
        rw [nextCondition_concat, nextCarried_concat]
        cases hrest : loop.rounds fuel (done.length + 1) results.condition
          results.carried with
        | error failure => simp [hrest, Except.map, bind, Except.bind]
        | ok more =>
          simp [hrest, Except.map, bind, Except.bind, pure, Except.pure]
    · rw [if_neg htruth, if_neg htruth, Except.map, append_nil]

/-- What is done after the last iteration. -/
def finish : Except Failure (Outputs γ vars outs) :=
  match done.getLast? with
  | none => .ok {
      carried := loop.inputs
      scans := (List.finRange outs).map fun index => loop.output index []
      applied := [] }
  | some last => do
      let scans ← (List.finRange outs).mapM fun index : Fin _ =>
        concatenateLoopOutput (vars + index) (done.map (·.results.scans index))
      return ⟨last.results.carried, scans, done⟩

theorem execute_eq : loop.execute = loop.allRounds >>= loop.finish := by
  have hrun : loop.iterate loop.tripCount.toNat loop.start =
      loop.allRounds.map loop.reached := loop.iterate_reached [] _
  rw [execute, hrun]
  cases loop.allRounds with
  | error failure => rfl
  | ok done =>
    rcases eq_nil_or_concat' done with rfl | ⟨front, last, rfl⟩
    · rfl
    · have hne : (front.length : Int) + 1 ≠ 0 := by omega
      simp [Except.map, bind, Except.bind, finish, reached_concat, hne]

theorem concatenateLoopOutput_eq_ok_iff :
    concatenateLoopOutput outputIndex tensors = .ok tensor ↔
      ∃ first, tensors.head? = some first ∧
        (∀ other ∈ tensors, other.bytes.length = first.bytes.length) ∧
        tensor.dims = tensors.length :: first.dims ∧
        tensor.elementSize = first.elementSize ∧
        tensor.bytes = tensors.flatMap (·.bytes) := by
  cases tensors with
  | nil => simp [concatenateLoopOutput]
  | cons first rest =>
    rw [concatenateLoopOutput]
    split
    · rename_i other hother
      have hmem := mem_of_find?_eq_some hother
      have hne := find?_some hother
      simp only [head?_cons, Option.some.injEq, exists_eq_left',
        reduceCtorEq, false_iff, not_and]
      intro hall
      exact absurd (hall other hmem).symm (by simpa using hne)
    · rename_i hnone
      have hall := length_eq_of_find?_eq_none hnone
      rw [Except.ok.injEq, LoopTensor.ext_iff]
      simp only [head?_cons, Option.some.injEq, exists_eq_left']
      rw [and_iff_right hall]
      exact and_congr eq_comm (and_congr eq_comm eq_comm)

theorem exists_concatenateLoopOutput {rest : List LoopTensor}
    (h : ∀ other ∈ rest, other.bytes.length = first.bytes.length) :
    ∃ tensor, concatenateLoopOutput outputIndex (first :: rest) =
      .ok tensor := by
  have hall : ∀ other ∈ first :: rest, other.bytes.length =
      first.bytes.length := forall_mem_cons.mpr ⟨rfl, h⟩
  refine ⟨⟨_, _, (first :: rest).flatMap (·.bytes), ?_⟩,
    concatenateLoopOutput_eq_ok_iff.mpr ⟨first, rfl, hall, rfl, rfl, rfl⟩⟩
  rw [length_flatMap_bytes hall, first.length_eq, prod_cons, Nat.mul_assoc]

/-- The scan outputs of a run that succeeds have the number of iterations as
their first extent, and behind it the shape that all results have. -/
def KeepsShapes : Prop :=
  ∀ outputs, loop.execute = .ok outputs → ∀ index : Fin outs,
    ∃ tensor common, outputs.scans[index.val]? = some tensor ∧
      tensor.dims = outputs.applied.length :: common ∧
      ∀ round ∈ outputs.applied, (round.results.scans index).dims = common

/-- Where sizes in bytes are the same in all iterations, so are shapes. -/
def SizesTellShapes : Prop :=
  ∀ done, loop.allRounds = .ok done →
    (∀ index, ∀ round ∈ done, ∀ other ∈ done,
      (round.results.scans index).bytes.length =
        (other.results.scans index).bytes.length) →
    ∀ index, ∀ round ∈ done, ∀ other ∈ done,
      (round.results.scans index).dims = (other.results.scans index).dims

variable {loop done}

theorem finish_eq_ok {outputs : Outputs γ vars outs}
    (h : loop.finish done = .ok outputs) (hne : done ≠ []) :
    outputs.applied = done ∧
      outputs.carried = (done.getLast hne).results.carried ∧
      ∀ index : Fin outs, ∃ tensor, outputs.scans[index.val]? = some tensor ∧
        concatenateLoopOutput (vars + index)
          (done.map (·.results.scans index)) = .ok tensor := by
  rw [finish, getLast?_eq_some_getLast hne] at h
  obtain ⟨scans, hscans, h⟩ := except_bind_eq_ok.mp h
  cases h
  refine ⟨rfl, rfl, fun index => mapM_getElem? hscans ?_⟩
  simp

theorem allRounds_eq_nil_iff : loop.allRounds = .ok [] ↔
    ¬ (0 < loop.tripCount ∧ loop.condition ≠ some false) := by
  have htruth : loop.truth loop.initialCondition = true ↔
      loop.condition ≠ some false := by
    rw [initialCondition, loop.truth_scalar]
    cases loop.condition <;> simp
  rw [allRounds, ← htruth]
  cases hfuel : loop.tripCount.toNat with
  | zero =>
    have hcount : ¬ 0 < loop.tripCount := by omega
    simp [rounds, hcount]
  | succ fuel =>
    have hcount : 0 < loop.tripCount := by omega
    rw [rounds]
    by_cases hstart : loop.truth loop.initialCondition = true
    · rw [if_pos hstart]
      simp only [except_bind_eq_ok, except_pure_eq_ok]
      simp [hcount, hstart]
    · simp [hstart]

/-- All results for a scan output have the same size in bytes. -/
theorem sizes_of_concatenate {index : Fin outs}
    (h : concatenateLoopOutput outputIndex (done.map (·.results.scans index)) =
      .ok tensor) :
    (∀ round ∈ done, ∀ other ∈ done, (round.results.scans index).bytes.length =
      (other.results.scans index).bytes.length) ∧
    ∃ round ∈ done,
      tensor.dims = done.length :: (round.results.scans index).dims := by
  obtain ⟨first, hfirst, hall, hdims, -, -⟩ :=
    concatenateLoopOutput_eq_ok_iff.mp h
  have hsize : ∀ round ∈ done, (round.results.scans index).bytes.length =
      first.bytes.length := fun round hround =>
    hall _ (mem_map_of_mem hround)
  obtain ⟨round, hround, rfl⟩ := mem_map.mp (mem_of_head? hfirst)
  refine ⟨fun round hround other hother => ?_, round, hround, ?_⟩
  · rw [hsize round hround, hsize other hother]
  · rw [hdims, length_map]

theorem exists_finish_eq_ok (hne : done ≠ [])
    (hsizes : ∀ index, ∀ round ∈ done, ∀ other ∈ done,
      (round.results.scans index).bytes.length =
        (other.results.scans index).bytes.length) :
    ∃ outputs, loop.finish done = .ok outputs := by
  obtain ⟨head, rest, rfl⟩ := exists_cons_of_ne_nil hne
  have hstack : ∀ index ∈ finRange outs, ∃ tensor,
      concatenateLoopOutput (vars + index)
        ((head :: rest).map (·.results.scans index)) = .ok tensor := by
    intro index _
    apply exists_concatenateLoopOutput
    intro other hother
    obtain ⟨round, hround, rfl⟩ := mem_map.mp hother
    exact hsizes index round (mem_cons_of_mem head hround) head mem_cons_self
  obtain ⟨scans, hscans⟩ := exists_mapM_eq_ok hstack
  rw [finish]
  exact ⟨_, except_bind_eq_ok.mpr ⟨scans, hscans, rfl⟩⟩

theorem keepsShapes_iff : loop.KeepsShapes ↔
    (0 < outs → 0 < loop.tripCount ∧ loop.condition ≠ some false) ∧
      loop.SizesTellShapes := by
  constructor
  · intro hkeeps
    refine ⟨fun hpos => ?_, fun done hdone hsizes => ?_⟩
    · by_contra hnot
      have hempty := allRounds_eq_nil_iff.mpr hnot
      obtain ⟨tensor, common, htensor, hdims, -⟩ := hkeeps _
        (by rw [execute_eq, hempty]; rfl) ⟨0, hpos⟩
      have hfresh : loop.output ⟨0, hpos⟩ [] = tensor := by
        simpa [hpos] using htensor
      rw [← hfresh, loop.dims_output] at hdims
      cases hdims
    · by_cases hne : done = []
      · simp [hne]
      · obtain ⟨outputs, houtputs⟩ : ∃ outputs, loop.finish done = .ok outputs :=
          exists_finish_eq_ok hne hsizes
        have hrun : loop.execute = .ok outputs := by
          rw [execute_eq, hdone]
          exact houtputs
        obtain ⟨happlied, -, -⟩ := finish_eq_ok houtputs hne
        intro index round hround other hother
        obtain ⟨-, common, -, -, hcommon⟩ := hkeeps outputs hrun index
        rw [happlied] at hcommon
        rw [hcommon round hround, hcommon other hother]
  · rintro ⟨hbegins, htell⟩ outputs hrun index
    rw [execute_eq] at hrun
    obtain ⟨done, hdone, hfinish⟩ := except_bind_eq_ok.mp hrun
    have hne : done ≠ [] := by
      rintro rfl
      exact allRounds_eq_nil_iff.mp hdone (hbegins (Fin.pos index))
    obtain ⟨happlied, -, hstacks⟩ := finish_eq_ok hfinish hne
    have hsizes := fun index => (hstacks index).elim fun tensor h =>
      (sizes_of_concatenate h.2).1
    obtain ⟨tensor, htensor, hstack⟩ := hstacks index
    obtain ⟨-, round, hround, hdims⟩ := sizes_of_concatenate hstack
    refine ⟨tensor, (round.results.scans index).dims, htensor, ?_, ?_⟩
    · rw [happlied, hdims]
    · rw [happlied]
      exact fun other hother => htell done hdone hsizes index other hother round
        hround

/-- A body that returns bytes, and a true condition up to a last iteration. -/
def countTo (outs : Nat) (last i : Int) (_ : Bool) (_ : Fin 0 → LoopTensor) :
    LoopResults Bool 0 outs :=
  ⟨i ≠ last, Fin.elim0, fun _ => ⟨[], 1, [0], rfl⟩⟩

def counting (outs : Nat) (maxTripCount : Option Int) (last : Int) :
    Loop Bool 0 outs where
  maxTripCount := maxTripCount
  condition := none
  inputs := Fin.elim0
  body i c x := .ok (countTo outs last i c x)
  truth := id
  scalar := id
  truth_scalar _ := rfl
  output _ dims := ⟨dims, 1, List.replicate dims.prod 0, by simp⟩
  dims_output _ _ := rfl

/-- Without iterations a scan output is a scalar, whose one element is not
initialized. -/
theorem not_keepsShapes_no_iterations :
    ¬ (counting 1 (some 0) 0).KeepsShapes := by
  intro h
  obtain ⟨tensor, common, htensor, hdims, -⟩ := h _ rfl 0
  cases htensor
  cases hdims

section Threading

variable (loop)
variable (f : Int → γ → (Fin vars → LoopTensor) → LoopResults γ vars outs)

/-- The iterations of a pure body: each receives its number and what the one
before returned. -/
def roundAt : Nat → LoopRound γ vars outs
  | 0 => ⟨0, loop.initialCondition, loop.inputs,
      f 0 loop.initialCondition loop.inputs⟩
  | i + 1 =>
    let last := (roundAt i).results
    ⟨i + 1, last.condition, last.carried, f (i + 1) last.condition last.carried⟩

/-- Iteration `k` is the first after which the trip count is reached or the
condition fails, `none` being no limit.  Then the body is run in the iterations
up to it, the carried values are its own, and the results are stacked. -/
def ThreadsValues (limit : Option Int) : Prop :=
  ∀ k, IsLeast {k : Nat | limit = some (k + 1 : Int) ∨
      loop.truth (loop.roundAt f k).results.condition = false} k →
    (∀ i ≤ k, ∀ index, ((loop.roundAt f i).results.scans index).dims =
        ((loop.roundAt f 0).results.scans index).dims ∧
      ((loop.roundAt f i).results.scans index).elementSize =
        ((loop.roundAt f 0).results.scans index).elementSize) →
    ∃ outputs, loop.execute = .ok outputs ∧
      outputs.applied = (List.range (k + 1)).map (loop.roundAt f) ∧
      outputs.carried = (loop.roundAt f k).results.carried ∧
      ∀ index : Fin outs, ∃ tensor, outputs.scans[index.val]? = some tensor ∧
        tensor.dims = (k + 1) :: ((loop.roundAt f 0).results.scans index).dims ∧
        tensor.elementSize =
          ((loop.roundAt f 0).results.scans index).elementSize ∧
        tensor.bytes = (List.range (k + 1)).flatMap fun i =>
          ((loop.roundAt f i).results.scans index).bytes

variable {loop f}
variable (hbody : ∀ i c x, loop.body i c x = .ok (f i c x))
include hbody

theorem rounds_succ_roundAt (fuel i : Nat)
    (hstart : loop.truth (loop.roundAt f i).condition = true) :
    loop.rounds (fuel + 1) i (loop.roundAt f i).condition
        (loop.roundAt f i).carried = do
      let rest ← loop.rounds fuel (i + 1 : Nat)
        (loop.roundAt f (i + 1)).condition (loop.roundAt f (i + 1)).carried
      return loop.roundAt f i :: rest := by
  rw [rounds, if_pos hstart, hbody]
  cases i <;> rfl

theorem rounds_roundAt {fuel i m : Nat}
    (hstart : loop.truth (loop.roundAt f i).condition = true)
    (hgoes : ∀ j < m,
      loop.truth (loop.roundAt f (i + j)).results.condition = true)
    (hfuel : m < fuel)
    (hends : m + 1 = fuel ∨
      loop.truth (loop.roundAt f (i + m)).results.condition = false) :
    loop.rounds fuel i (loop.roundAt f i).condition (loop.roundAt f i).carried =
      .ok ((List.range' i (m + 1)).map (loop.roundAt f)) := by
  induction m generalizing fuel i with
  | zero =>
    obtain ⟨fuel, rfl⟩ := Nat.exists_eq_succ_of_ne_zero hfuel.ne'
    rw [rounds_succ_roundAt hbody fuel i hstart]
    -- Either no fuel is left, or the condition of the next iteration fails.
    cases fuel with
    | zero => rfl
    | succ fuel =>
      have hfails : loop.truth (loop.roundAt f (i + 1)).condition = false :=
        hends.resolve_left (by omega)
      rw [rounds, if_neg (Bool.eq_false_iff.mp hfails)]
      rfl
  | succ m ih =>
    obtain ⟨fuel, rfl⟩ := Nat.exists_eq_succ_of_ne_zero hfuel.ne_bot
    have hshift : ∀ j, i + (j + 1) = i + 1 + j := fun j => by omega
    rw [rounds_succ_roundAt hbody fuel i hstart,
      ih (i := i + 1) (hgoes 0 (by omega))]
    · rfl
    · intro j hj
      rw [← hshift]
      exact hgoes (j + 1) (by omega)
    · omega
    · rw [← hshift]
      exact hends.imp_left (by omega)

theorem allRounds_roundAt {k : Nat}
    (hbegins : 0 < loop.tripCount ∧ loop.condition ≠ some false)
    (hleast : IsLeast {k : Nat | some loop.tripCount = some (k + 1 : Int) ∨
      loop.truth (loop.roundAt f k).results.condition = false} k) :
    loop.allRounds = .ok ((range (k + 1)).map (loop.roundAt f)) := by
  have hstart : loop.truth (loop.roundAt f 0).condition = true := by
    rw [roundAt, initialCondition, loop.truth_scalar]
    cases hcondition : loop.condition with
    | none => rfl
    | some value => cases value <;> simp [hcondition] at hbegins ⊢
  have hgoes : ∀ j < k,
      loop.truth (loop.roundAt f j).results.condition = true := by
    intro j hj
    by_contra hfails
    exact absurd (hleast.2 (.inr (Bool.eq_false_iff.mpr hfails))) (by omega)
  have hfuel : k < loop.tripCount.toNat := by
    by_contra hle
    have hreached : some loop.tripCount =
        some (((loop.tripCount.toNat - 1 : Nat) : Int) + 1) := by
      rw [Option.some.injEq]
      omega
    have hlater := mem_lowerBounds.mp hleast.2 _ (.inl hreached)
    omega
  rw [range_eq_range']
  refine rounds_roundAt hbody hstart ?_ hfuel (hleast.1.imp ?_ ?_)
  · simpa using hgoes
  · intro h
    have := Option.some.inj h
    omega
  · simp

/-- An absent trip count is the largest `int64_t`. -/
theorem threadsValues (hbegins : 0 < loop.tripCount ∧
    loop.condition ≠ some false) :
    loop.ThreadsValues f (some loop.tripCount) := by
  intro k hleast hshapes
  have hrounds := allRounds_roundAt hbody hbegins hleast
  have hne : (range (k + 1)).map (loop.roundAt f) ≠ [] := by simp
  have hround : ∀ round ∈ (range (k + 1)).map (loop.roundAt f),
      ∃ i ≤ k, loop.roundAt f i = round := by
    intro round hround
    obtain ⟨i, hi, rfl⟩ := mem_map.mp hround
    exact ⟨i, Nat.le_of_lt_succ (mem_range.mp hi), rfl⟩
  obtain ⟨outputs, hfinish⟩ : ∃ outputs, loop.finish
      ((range (k + 1)).map (loop.roundAt f)) = .ok outputs := by
    refine exists_finish_eq_ok hne fun index round hmem other hother => ?_
    obtain ⟨i, hi, rfl⟩ := hround round hmem
    obtain ⟨j, hj, rfl⟩ := hround other hother
    rw [LoopTensor.length_eq, LoopTensor.length_eq, (hshapes i hi index).1,
      (hshapes i hi index).2, (hshapes j hj index).1, (hshapes j hj index).2]
  obtain ⟨happlied, hcarried, hstacks⟩ := finish_eq_ok hfinish hne
  refine ⟨outputs, ?_, happlied, ?_, fun index => ?_⟩
  · rw [execute_eq, hrounds]
    exact hfinish
  · rw [hcarried]
    simp
  · obtain ⟨tensor, htensor, hstack⟩ := hstacks index
    obtain ⟨first, hfirst, -, hdims, hsize, hbytes⟩ :=
      concatenateLoopOutput_eq_ok_iff.mp hstack
    rw [range_succ_eq_map, map_cons] at hfirst
    cases hfirst
    refine ⟨tensor, htensor, ?_, hsize, ?_⟩
    · simpa using hdims
    · rw [hbytes, map_map, flatMap_map]
      rfl

omit hbody

theorem truth_roundAt_counting (outs : Nat) (limit : Option Int) (last : Int)
    (k : Nat) : (counting outs limit last).truth ((counting outs limit
      last).roundAt (countTo outs last) k).results.condition = false ↔
        (k : Int) = last := by
  have hcondition : (counting outs limit last).truth ((counting outs limit
      last).roundAt (countTo outs last) k).results.condition =
        decide ((k : Int) ≠ last) := by
    cases k <;> rfl
  rw [hcondition, decide_eq_false_iff_not, not_not]

theorem threadsValues_counting_two : ∃ outputs,
    (counting 1 (some 2) 5).execute = .ok outputs ∧
      outputs.applied.length = 2 := by
  have hthreads :
      (counting 1 (some 2) 5).ThreadsValues (countTo 1 5) (some 2) :=
    threadsValues (fun _ _ _ => rfl) ⟨by decide, by decide⟩
  obtain ⟨outputs, hrun, happlied, -⟩ := hthreads 1 ⟨.inl rfl, fun k hk => by
      rcases hk with hk | hk
      · have hk : (2 : Int) = k + 1 := Option.some.inj hk
        omega
      · have hk := (truth_roundAt_counting _ _ _ _).mp hk
        omega⟩
    fun i _ index => by cases i <;> exact ⟨rfl, rfl⟩
  exact ⟨outputs, hrun, by rw [happlied]; rfl⟩

/-- Without a trip count the loop ends after `2^63 - 1` iterations, also when
the condition would first fail in the next one. -/
theorem not_threadsValues_unbounded :
    ¬ (counting 0 none int64Max).ThreadsValues (countTo 0 int64Max) none := by
  intro h
  have hmax : int64Max = 9223372036854775807 := rfl
  obtain ⟨outputs, hrun, happlied, -⟩ := h 9223372036854775807
    ⟨.inr ((truth_roundAt_counting _ _ _ _).mpr rfl), fun k hk => by
      have hk := (truth_roundAt_counting _ _ _ _).mp (hk.resolve_left nofun)
      omega⟩
    fun i _ index => by cases i <;> exact ⟨rfl, rfl⟩
  have hbody : ∀ i c x, (counting 0 none int64Max).body i c x =
      .ok (countTo 0 int64Max i c x) := fun _ _ _ => rfl
  have hrounds : (counting 0 none int64Max).allRounds = .ok
      ((range (9223372036854775806 + 1)).map
        ((counting 0 none int64Max).roundAt (countTo 0 int64Max))) := by
    have hpos : 0 < int64Max := by omega
    refine allRounds_roundAt hbody ⟨hpos, nofun⟩
      ⟨.inl (congrArg some hmax), fun k hk => ?_⟩
    rcases hk with hk | hk
    · have hk : int64Max = k + 1 := Option.some.inj hk
      omega
    · have hk := (truth_roundAt_counting _ _ _ _).mp hk
      omega
  rw [execute_eq] at hrun
  obtain ⟨done, hdone, hfinish⟩ := except_bind_eq_ok.mp hrun
  have hlength : done.length = 9223372036854775806 + 1 := by
    rw [Except.ok.inj (hdone.symm.trans hrounds), length_map, length_range]
  have hne : done ≠ [] := ne_nil_of_length_eq_add_one hlength
  obtain ⟨hall, -, -⟩ := finish_eq_ok hfinish hne
  rw [← hall, happlied, length_map, length_range] at hlength
  omega

end Threading

end Loop

end OnnxRuntime
