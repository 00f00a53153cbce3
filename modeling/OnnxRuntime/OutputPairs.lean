/-
Which pairs of a kernel are looked up for which output.  The planner numbers
the existing outputs of a node only, while the pairs name outputs by position,
so that behind a missing output a pair is applied to another output.
-/
import OnnxRuntime.ReusePlan

namespace OnnxRuntime

open List Option

namespace PlannerContext

variable (ctx : PlannerContext) {outputArgNum : Nat} {inputs : List NodeArg}
  {arg output : NodeArg} {reused : MLValueIndex} {s : PlannerImpl}

/-- The kernel has a pair of an input with this index and the output at this
position, and if it is an in-place pair the two are of the same size. -/
def Pairs (node : Node) (position : Nat) (output : NodeArg)
    (reused : MLValueIndex) : Prop :=
  ∃ kernelDef, node.kernelDef = some kernelDef ∧
    ∃ pair : Int × Int, ∃ arg, pair.2 = position ∧
      pairInput node.inputDefs pair.1 = some arg ∧
      ctx.indexOf arg.name = .ok reused ∧
      (pair ∈ kernelDef.aliasMap ∨ pair ∈ kernelDef.inplaceMap ∧
          ctx.sameSizeArgs arg output = .ok true)

/-- The loop can reach the output behind these, with a number. -/
def Reached (node : Node) (front : List NodeArg) (outputArgNum : Nat) : Prop :=
  ∃ s mid, front.foldlM (ctx.outputStep node) (s, 0) = .ok (mid, outputArgNum)

/-- In every state of the planner, the round of an output that the loop reaches
places it in a buffer of its own, in a free one, or in that of an input by a
pair of its own position. -/
def AppliesPairs (node : Node) : Prop :=
  ∀ front output rest, node.outputDefs = front ++ output :: rest →
    output.Exists → ∀ outputArgNum, ctx.Reached node front outputArgNum →
    ∀ s next, ctx.outputStep node (s, outputArgNum) output = .ok next →
    ∀ current, ctx.indexOf output.name = .ok current →
      next.1.planBuffer current = current ∨
      (∃ item ∈ s.freelist,
        next.1.planBuffer current = s.buffer item.mlValue) ∨
      ∃ reused, ctx.Pairs node front.length output reused ∧
        next.1.planBuffer current = s.buffer reused

/-- The first pair of an output whose input exists. -/
def firstPair (inputs : List NodeArg) (outputArgNum : Nat)
    (pairs : List (Int × Int)) : Option (Int × Int) :=
  pairs.find? fun pair : Int × Int =>
    pair.2 = (outputArgNum : Int) ∧ (pairInput inputs pair.1).isSome

/-- The inputs that the pairs of a number offer: the input of the first alias
pair that has one, or else those of the size of the output that the number is
the position of. -/
def Offers (node : Node) (outputArgNum : Nat) (reused : MLValueIndex) : Prop :=
  ∃ kernelDef counted, node.kernelDef = some kernelDef ∧
    node.outputDefs[outputArgNum]? = some counted ∧
    match firstPair node.inputDefs outputArgNum kernelDef.aliasMap with
    | some pair => ∃ arg, pairInput node.inputDefs pair.1 = some arg ∧
        ctx.indexOf arg.name = .ok reused
    | none => ∃ pair ∈ kernelDef.inplaceMap, ∃ arg, pair.2 = outputArgNum ∧
        pairInput node.inputDefs pair.1 = some arg ∧
        ctx.indexOf arg.name = .ok reused ∧
        ctx.sameSizeArgs arg counted = .ok true

/-- What the pairs of the number of an output offer, the pairs of its position
offer, too. -/
def NumbersAgree (node : Node) : Prop :=
  ∀ front output rest, node.outputDefs = front ++ output :: rest →
    output.Exists → (∃ outputArgNum, ctx.Reached node front outputArgNum) →
    (∃ current, ctx.indexOf output.name = .ok current) →
    (∃ type, output.type = some type ∧ type.hasTensorType) →
    output.name ∉ ctx.graph.outputs.map NodeArg.name →
    ∀ reused, ctx.Offers node (numberOf front) reused →
      ctx.Pairs node front.length output reused

/-- The inputs of a node are known to the planner, each under its name, and are
none of its outputs. -/
structure InputsKnown (node : Node) : Prop where
  index : ∀ arg ∈ node.inputDefs, arg.Exists →
    ∃ index, ctx.indexOf arg.name = .ok index
  unique : ∀ arg ∈ node.inputDefs, ∀ other ∈ node.inputDefs,
    arg.name = other.name → arg = other
  apart : ∀ arg ∈ node.inputDefs, ∀ output ∈ node.outputDefs,
    output.Exists → arg.name ≠ output.name

variable {ctx} {node : Node}

theorem mem_of_pairInput {position : Int}
    (h : pairInput inputs position = some arg) :
    arg ∈ inputs ∧ arg.Exists := by
  obtain ⟨-, hget, hexists⟩ := pairInput_eq_some h
  exact ⟨mem_of_getElem? hget, hexists⟩

theorem findAlias_eq_firstPair (inputs : List NodeArg) (outputArgNum : Nat)
    (pairs : List (Int × Int)) :
    findAlias inputs outputArgNum pairs =
      (firstPair inputs outputArgNum pairs).bind
        fun pair => pairInput inputs pair.1 := by
  induction pairs with
  | nil => rfl
  | cons pair rest ih =>
    rw [findAlias, firstPair]
    split
    · rename_i hnum
      cases hinput : pairInput inputs pair.1 with
      | none =>
        rw [find?_cons_of_neg (by simp [hinput])]
        exact ih
      | some arg =>
        rw [find?_cons_of_pos (by simp [hinput, hnum]), bind_some, hinput]
    · rename_i hnum
      rw [find?_cons_of_neg (by simp [hnum])]
      exact ih

/-- In some state an in-place pair is taken. -/
theorem findInplace_of_mem {output : NodeArg}
    (hs : ∀ index, s.useCount (s.buffer index) = 1 ↔ index = reused)
    (hindex : ∀ arg ∈ inputs, arg.Exists →
      ∃ index, ctx.indexOf arg.name = .ok index)
    (hunique : ∀ other ∈ inputs, other.name = arg.name → other = arg)
    (harg : ctx.indexOf arg.name = .ok reused)
    (hsame : ctx.sameSizeArgs arg output = .ok true) {pairs : List (Int × Int)}
    {pair : Int × Int} (hpair : pair ∈ pairs) (hnum : pair.2 = outputArgNum)
    (hinput : pairInput inputs pair.1 = some arg) :
    ctx.findInplace s inputs output outputArgNum pairs = .ok (some reused) := by
  induction pairs with
  | nil => cases hpair
  | cons first rest ih =>
    have hrest : ¬ (first.2 = outputArgNum ∧
        pairInput inputs first.1 = some arg) →
        ctx.findInplace s inputs output outputArgNum rest =
          .ok (some reused) := by
      intro hfirst
      refine ih ((mem_cons.mp hpair).resolve_left ?_)
      rintro rfl
      exact hfirst ⟨hnum, hinput⟩
    rw [findInplace]
    split
    · split
      · rename_i hfirst other hother
        obtain ⟨hmem, hexists⟩ := mem_of_pairInput hother
        obtain ⟨index, hknown⟩ := hindex other hmem hexists
        rw [hknown]
        dsimp only [Bind.bind, Except.bind]
        by_cases hreused : index = reused
        · subst hreused
          obtain rfl : other = arg := hunique other hmem
            (idxOf?_injective (indexOf_eq_ok.mp hknown) (indexOf_eq_ok.mp harg))
          rw [if_pos ((hs index).mpr rfl), hsame]
          rfl
        · rw [if_neg (mt (hs index).mp hreused)]
          refine hrest fun hsame => hreused ?_
          rw [hother] at hsame
          cases hsame.2
          exact Except.ok.inj (hknown.symm.trans harg)
      · rename_i hnone
        refine hrest fun hsame => ?_
        cases hnone.symm.trans hsame.2
    · rename_i hne
      exact hrest fun hsame => hne hsame.1

theorem number_of_run {front : List NodeArg} {mid : PlannerImpl} {n m : Nat}
    (h : front.foldlM (ctx.outputStep node) (s, n) = .ok (mid, m)) :
    m = n + numberOf front := by
  induction front generalizing s n with
  | nil =>
    cases h
    rfl
  | cons output front ih =>
    obtain ⟨⟨next, number⟩, hstep, hrun⟩ := foldlM_cons_eq_ok.mp h
    rw [ih hrun, numberOf, numberOf, countP_cons]
    rw [outputStep] at hstep
    split at hstep
    · rename_i hexists
      obtain ⟨_, -, hstep⟩ := except_bind_eq_ok.mp hstep
      cases hstep
      simp only [hexists, decide_true, if_true]
      omega
    · rename_i hmissing
      cases hstep
      simp [hmissing]

theorem outputStep_eq_ok (hexists : output.Exists)
    {next : PlannerImpl × Nat} :
    ctx.outputStep node (s, outputArgNum) output = .ok next ↔
      ∃ s', ctx.planOutput node s output outputArgNum = .ok s' ∧
        (s', outputArgNum + 1) = next := by
  simp only [outputStep, if_pos hexists, except_bind_eq_ok, except_pure_eq_ok]

/-- Whatever the pairs of the number offer is taken in some state. -/
theorem exists_planOutput (hknown : ctx.InputsKnown node)
    (houtputs : output ∈ node.outputDefs) (hexists : output.Exists)
    {current : MLValueIndex} {type : TypeProto}
    (hcurrent : ctx.indexOf output.name = .ok current)
    (htype : output.type = some type) (htensor : type.hasTensorType)
    (houtput : output.name ∉ ctx.graph.outputs.map NodeArg.name)
    (h : ctx.Offers node outputArgNum reused) :
    ∃ s s', ctx.planOutput node s output outputArgNum = .ok s' ∧
      s.freelist = [] ∧ (∀ index, s.buffer index = index) ∧
      s'.planBuffer current = reused ∧ reused ≠ current := by
  obtain ⟨kernelDef, counted, hkernel, hcounted, hoffers⟩ := h
  generalize hs : ({ mlValueInfo := fun index => {
    usecount := if index = reused then 1 else 0
    reusedBufferIndex := index } } : PlannerImpl) = s
  have hbuffer : ∀ index, s.buffer index = index := by
    subst hs
    exact fun _ => rfl
  have hne : ∀ arg ∈ node.inputDefs, ctx.indexOf arg.name = .ok reused →
      reused ≠ current := by
    rintro arg harg hindex rfl
    exact hknown.apart arg harg output houtputs hexists
      (idxOf?_injective (indexOf_eq_ok.mp hindex) (indexOf_eq_ok.mp hcurrent))
  have hfound : ctx.findReusableInput (s.setPlan current
      { s.allocPlan current with valueType := some type }) node outputArgNum =
        .ok (some reused) ∧ reused ≠ current := by
    rw [findReusableInput, hcounted, hkernel]
    dsimp only
    rw [findAlias_eq_firstPair]
    cases hfirst : firstPair node.inputDefs outputArgNum kernelDef.aliasMap with
    | some pair =>
      rw [hfirst] at hoffers
      obtain ⟨arg, hinput, hindex⟩ := hoffers
      rw [bind_some, hinput]
      dsimp only
      rw [hindex]
      exact ⟨rfl, hne arg (mem_of_pairInput hinput).1 hindex⟩
    | none =>
      rw [hfirst] at hoffers
      obtain ⟨pair, hpair, arg, hnum, hinput, hindex, hsame⟩ := hoffers
      refine ⟨findInplace_of_mem (fun index => ?_) hknown.index ?_ hindex hsame
        hpair hnum hinput, hne arg (mem_of_pairInput hinput).1 hindex⟩
      · subst hs
        change (if index = reused then (1 : Int) else 0) = 1 ↔ _
        split <;> simp [*]
      · intro other hother hname
        exact hknown.unique other hother arg (mem_of_pairInput hinput).1 hname
  obtain ⟨s', hreuse⟩ : ∃ s', (s.setPlan current
      { s.allocPlan current with valueType := some type }).reuse reused
        current = .ok s' := ⟨_, by rw [PlannerImpl.reuse, if_neg hfound.2]⟩
  refine ⟨s, s', ?_, by subst hs; rfl, hbuffer, ?_, hfound.2⟩
  · refine except_bind_eq_ok.mpr ⟨current, hcurrent, ?_⟩
    rw [htype]
    dsimp only
    rw [if_neg houtput, if_neg (not_not.mpr htensor), hfound.1]
    exact hreuse
  · rw [(PlannerImpl.reuse_eq_ok hreuse).2.2.1]
    exact hbuffer reused

/-- A node with two inputs that two of its outputs are aliases of. -/
def pairedNode (outputs : List NodeArg) : Node where
  index := 0
  opType := "Paired"
  inputDefs := [⟨"a", some (.tensorType .float), none⟩,
    ⟨"b", some (.tensorType .float), none⟩]
  outputDefs := outputs
  kernelDef := some { aliasMap := [(0, 0), (1, 2)] }
  provider := none

def pairedContext (outputs : List NodeArg) : PlannerContext where
  graph := {
    inputs := []
    outputs := []
    initializers := []
    nodes := [pairedNode outputs]
    nodesInTopologicalOrder := [pairedNode outputs] }
  cpuProvider := ⟨fun _ => default⟩
  names := ["a", "b", "x", "y"]
  elementSize := fun _ => 4

def floatArg (name : String) : NodeArg :=
  ⟨name, some (.tensorType .float), none⟩

theorem inputsKnown_pairedNode {outputs : List NodeArg}
    (hapart : ∀ output ∈ outputs, output.name ≠ "a" ∧ output.name ≠ "b") :
    (pairedContext outputs).InputsKnown (pairedNode outputs) where
  index arg harg _ := by
    rcases mem_pair.mp harg with rfl | rfl
    · exact ⟨0, rfl⟩
    · exact ⟨1, rfl⟩
  unique := by
    have hunique : ∀ arg ∈ (pairedNode []).inputDefs,
        ∀ other ∈ (pairedNode []).inputDefs,
          arg.name = other.name → arg = other := by decide
    exact hunique
  apart arg harg output houtput _ := by
    rcases mem_pair.mp harg with rfl | rfl
    · exact (hapart output houtput).1.symm
    · exact (hapart output houtput).2.symm

end PlannerContext

end OnnxRuntime
