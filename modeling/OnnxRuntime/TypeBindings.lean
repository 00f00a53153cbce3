/-
The types that a kernel's constraints are checked against: a name stands for
the type of the first argument of a parameter that has it as its name or as its
type string, found in a table or by going through the arguments.
-/
import OnnxRuntime.Status
import Mathlib.Algebra.GroupWithZero.Nat
import Mathlib.Data.List.Basic

namespace OnnxRuntime

open Option List

/-- A loop over a list that its body can leave with `false`. -/
def foldStop {α σ : Type} (f : σ → α → σ × Bool) : List α → σ → σ × Bool
  | [], s => (s, true)
  | a :: rest, s =>
    match f s a with
    | (next, true) => foldStop f rest next
    | (next, false) => (next, false)

structure FormalParameter where
  name : String
  typeStr : String
deriving Repr, DecidableEq

/-- The parameters of an `OpSchema`. -/
structure FormalParameters where
  inputs : List FormalParameter
  outputs : List FormalParameter
deriving Repr, DecidableEq

/-- A `NodeArg` and its type, which may not be known. -/
structure TypedArg (τ : Type) where
  name : String
  typeAsProto : Option τ
deriving Repr, DecidableEq

def TypedArg.Exists {τ : Type} (arg : TypedArg τ) : Prop := arg.name ≠ ""

instance TypedArg.decidableExists {τ : Type} (arg : TypedArg τ) :
    Decidable arg.Exists :=
  inferInstanceAs (Decidable (arg.name ≠ ""))

/-- A node with the schema of its operator; `inputArgCount` tells how many of
its inputs belong to each formal one. -/
structure BoundNode (τ : Type) where
  opType : String
  domain : String
  executionProviderType : String
  sinceVersion : Int
  op : FormalParameters
  inputArgCount : List Nat
  inputDefs : List (TypedArg τ)
  outputDefs : List (TypedArg τ)

namespace BoundNode

variable {τ σ : Type}

section Traversal

variable (paramFilter : FormalParameter → Bool)
  (traverseFn : σ → FormalParameter → Option τ → σ × Bool)

/-- The arguments of one parameter. -/
def traverseArgs (param : FormalParameter) (args : List (TypedArg τ)) (s : σ) :
    σ × Bool :=
  foldStop (fun s arg =>
    if ¬ arg.Exists then (s, true) else traverseFn s param arg.typeAsProto)
    args s

/-- The loop over formal inputs; `args` begins at the actual index. -/
def traverseInputs : List (FormalParameter × Nat) → List (TypedArg τ) → σ →
    σ × Bool
  | [], _, s => (s, true)
  | (param, count) :: rest, args, s =>
    if paramFilter param then
      match traverseArgs traverseFn param (args.take count) s with
      | (next, true) => traverseInputs rest (args.drop count) next
      | (next, false) => (next, false)
    else traverseInputs rest (args.drop count) s

/-- The loop over actual outputs; the last formal one takes what is left. -/
def traverseOutputs (formals : List FormalParameter) (args : List (TypedArg τ))
    (s : σ) : σ × Bool :=
  foldStop (fun s (entry : TypedArg τ × Nat) =>
    match formals[min entry.2 (formals.length - 1)]? with
    | none => (s, true)
    | some formal =>
      if ¬ paramFilter formal then (s, true)
      else if ¬ entry.1.Exists then (s, true)
      else traverseFn s formal entry.1.typeAsProto) args.zipIdx s

def traverseFormalParametersWithTypeProto (node : BoundNode τ) (s : σ) :
    Except Failure σ :=
  if node.op.inputs.length < node.inputArgCount.length then
    .error (.enforce "len <= op_schema.inputs().size()")
  else
    match traverseInputs paramFilter traverseFn
        (node.op.inputs.zip node.inputArgCount) node.inputDefs s with
    | (next, false) => .ok next
    | (next, true) =>
      .ok (traverseOutputs paramFilter traverseFn node.op.outputs
        node.outputDefs next).1

end Traversal

/-- The lookup map of a resolver. -/
abbrev TypeBindingMap (τ : Type) := String → Option (Option τ)

/-- `emplace` keeps an entry that is there. -/
def TypeBindingMap.emplace (map : TypeBindingMap τ) (name : String)
    (type : Option τ) : TypeBindingMap τ :=
  if (map name).isSome then map else Function.update map name (some type)

/-- The map that the constructor of `TypeBindingResolver` makes. -/
def typeBindingMap (node : BoundNode τ) : Except Failure (TypeBindingMap τ) :=
  node.traverseFormalParametersWithTypeProto (fun _ => true)
    (fun map param type =>
      ((map.emplace param.name type).emplace param.typeStr type, true))
    fun _ => none

/-- `Resolve` without a map. -/
def resolveByTraversal (node : BoundNode τ) (nameOrTypeStr : String) :
    Except Failure (Option τ) :=
  node.traverseFormalParametersWithTypeProto
    (fun param => param.name = nameOrTypeStr ∨ param.typeStr = nameOrTypeStr)
    (fun _ _ type => (type, false)) none

/-- `Resolve`, with the map if there is one. -/
def resolve (node : BoundNode τ) (map : Option (TypeBindingMap τ))
    (nameOrTypeStr : String) : Except Failure (Option τ) :=
  match map with
  | some map => .ok ((map nameOrTypeStr).getD none)
  | none => node.resolveByTraversal nameOrTypeStr

end BoundNode

/-- What `VerifyKernelDef` reads of a kernel definition.  A type is compatible
with an actual one or not. -/
structure KernelConstraints (τ : Type) where
  domain : String
  provider : String
  startVersion : Int
  endVersion : Int
  typeConstraints : List (String × List (τ → Bool))

namespace KernelConstraints

variable {τ : Type} (node : BoundNode τ)

/-- `any_of` over the allowed types; each failure writes the error. -/
def anyCompatible (actual : τ) : List (τ → Bool) → String → Bool × String
  | [], errorStr => (false, errorStr)
  | expected :: rest, errorStr =>
    if expected actual then (true, errorStr)
    else anyCompatible actual rest
      ("Op: " ++ node.opType ++ " Incompatible types.")

/-- The loop over the type constraints. -/
def verifyTypes (map : Option (BoundNode.TypeBindingMap τ)) :
    List (String × List (τ → Bool)) → String → Except Failure (Bool × String)
  | [], errorStr => .ok (true, errorStr)
  | (name, allowedTypes) :: rest, errorStr => do
      let actualType ← node.resolve map name
      match actualType with
      | none => verifyTypes map rest errorStr
      | some actual =>
        match anyCompatible node actual allowedTypes errorStr with
        | (true, errorStr) => verifyTypes map rest errorStr
        | (false, errorStr) => .ok (false, errorStr)

/-- `VerifyKernelDef`: the answer and the error.  `threshold` selects whether
the resolver has a map. -/
def verifyKernelDef (threshold : Nat) (kernelDef : KernelConstraints τ)
    (execProvider errorStr : String) : Except Failure (Bool × String) :=
  if node.domain ≠ kernelDef.domain then
    .ok (false, "Op: " ++ node.opType ++ " Domain mismatch: " ++
      " Expected: " ++ kernelDef.domain ++ " Actual: " ++ node.domain)
  else
    let expectedProvider :=
      if node.executionProviderType = "" then execProvider
      else node.executionProviderType
    if expectedProvider ≠ kernelDef.provider then
      .ok (false, "Op: " ++ node.opType ++ " Execution provider mismatch." ++
        " Expected: " ++ expectedProvider ++ " Actual: " ++
        kernelDef.provider)
    else if ¬ (kernelDef.startVersion = node.sinceVersion ∨
        (kernelDef.startVersion < node.sinceVersion ∧
          kernelDef.endVersion ≠ 2147483647 ∧
          node.sinceVersion ≤ kernelDef.endVersion)) then
      .ok (false, "Op: " ++ node.opType ++ " Version mismatch." ++
        " node_version: " ++ toString node.sinceVersion ++
        " kernel start version: " ++ toString kernelDef.startVersion ++
        " kernel_end_version: " ++ toString kernelDef.endVersion)
    else if threshold < kernelDef.typeConstraints.length *
        (node.op.inputs.length + node.op.outputs.length) then do
      let map ← node.typeBindingMap
      verifyTypes node (some map) kernelDef.typeConstraints errorStr
    else verifyTypes node none kernelDef.typeConstraints errorStr

end KernelConstraints

section Loops

variable {α β σ : Type} {f : σ → α → σ × Bool}

theorem foldStop_append (front back : List α) (s : σ) :
    foldStop f (front ++ back) s =
      match foldStop f front s with
      | (next, true) => foldStop f back next
      | (next, false) => (next, false) := by
  induction front generalizing s with
  | nil => rfl
  | cons a rest ih =>
    rw [cons_append, foldStop, foldStop]
    split
    · exact ih _
    · rfl

theorem foldStop_map (g : β → α) (items : List β) (s : σ) :
    foldStop f (items.map g) s = foldStop (fun s b => f s (g b)) items s := by
  induction items generalizing s with
  | nil => rfl
  | cons b rest ih =>
    rw [map_cons, foldStop, foldStop]
    split
    · exact ih _
    · rfl

/-- Items that a loop passes over. -/
theorem foldStop_filterMap (g : β → Option α) (items : List β) (s : σ) :
    foldStop f (items.filterMap g) s =
      foldStop (fun s b =>
        match g b with
        | none => (s, true)
        | some a => f s a) items s := by
  induction items generalizing s with
  | nil => rfl
  | cons b rest ih =>
    rw [foldStop]
    cases hb : g b with
    | none =>
      rw [filterMap_cons_none hb]
      exact ih s
    | some a =>
      rw [filterMap_cons_some hb, foldStop]
      dsimp only
      split
      · exact ih _
      · rfl

end Loops

namespace BoundNode

variable {τ σ : Type}

section Pairs

/-- The arguments of the inputs, each with its formal parameter. -/
def inputPairs : List (FormalParameter × Nat) → List (TypedArg τ) →
    List (FormalParameter × TypedArg τ)
  | [], _ => []
  | (param, count) :: rest, args =>
    (args.take count).map (param, ·) ++ inputPairs rest (args.drop count)

def outputPairs (formals : List FormalParameter) (args : List (TypedArg τ)) :
    List (FormalParameter × TypedArg τ) :=
  args.zipIdx.filterMap fun entry =>
    formals[min entry.2 (formals.length - 1)]?.map (·, entry.1)

def pairs (node : BoundNode τ) : List (FormalParameter × TypedArg τ) :=
  inputPairs (node.op.inputs.zip node.inputArgCount) node.inputDefs ++
    outputPairs node.op.outputs node.outputDefs

variable (paramFilter : FormalParameter → Bool)
  (traverseFn : σ → FormalParameter → Option τ → σ × Bool)

/-- What a traversal does with one argument. -/
def visit (s : σ) (pair : FormalParameter × TypedArg τ) : σ × Bool :=
  if paramFilter pair.1 ∧ pair.2.Exists then
    traverseFn s pair.1 pair.2.typeAsProto
  else (s, true)

variable {paramFilter traverseFn}

theorem foldStop_visit_of_not (param : FormalParameter)
    (hfilter : ¬ paramFilter param) (args : List (TypedArg τ)) (s : σ) :
    foldStop (visit paramFilter traverseFn) (args.map (param, ·)) s =
      (s, true) := by
  induction args with
  | nil => rfl
  | cons arg rest ih =>
    rw [map_cons, foldStop, visit, if_neg fun h => hfilter h.1]
    exact ih

theorem traverseArgs_eq (param : FormalParameter)
    (hfilter : paramFilter param) (args : List (TypedArg τ)) (s : σ) :
    traverseArgs traverseFn param args s =
      foldStop (visit paramFilter traverseFn) (args.map (param, ·)) s := by
  rw [traverseArgs, foldStop_map]
  congr 1
  funext s arg
  by_cases harg : arg.Exists <;> simp [visit, hfilter]

theorem traverseInputs_eq (params : List (FormalParameter × Nat))
    (args : List (TypedArg τ)) (s : σ) :
    traverseInputs paramFilter traverseFn params args s =
      foldStop (visit paramFilter traverseFn) (inputPairs params args) s := by
  induction params generalizing args s with
  | nil => rfl
  | cons entry rest ih =>
    obtain ⟨param, count⟩ := entry
    rw [traverseInputs, inputPairs, foldStop_append]
    by_cases hfilter : paramFilter param
    · rw [if_pos hfilter, traverseArgs_eq param hfilter]
      split
      · exact ih _ _
      · rfl
    · rw [if_neg hfilter, foldStop_visit_of_not param hfilter]
      exact ih _ _

theorem traverseOutputs_eq (formals : List FormalParameter)
    (args : List (TypedArg τ)) (s : σ) :
    traverseOutputs paramFilter traverseFn formals args s =
      foldStop (visit paramFilter traverseFn) (outputPairs formals args) s := by
  rw [traverseOutputs, outputPairs, foldStop_filterMap]
  congr 1
  funext s entry
  cases formals[min entry.2 (formals.length - 1)]? with
  | none => rfl
  | some formal =>
    simp only [visit]
    by_cases hfilter : paramFilter formal
    · by_cases harg : entry.1.Exists <;> simp [hfilter]
    · simp [hfilter]

/-- A traversal is a loop over all the arguments in their order. -/
theorem traverse_eq (node : BoundNode τ)
    (hlength : ¬ node.op.inputs.length < node.inputArgCount.length) (s : σ) :
    node.traverseFormalParametersWithTypeProto paramFilter traverseFn s =
      .ok (foldStop (visit paramFilter traverseFn) node.pairs s).1 := by
  rw [traverseFormalParametersWithTypeProto, if_neg hlength, pairs,
    foldStop_append, traverseInputs_eq]
  split
  · rename_i hstop
    rw [hstop]
  · rename_i hnext
    rw [hnext, traverseOutputs_eq]

end Pairs

section Resolving

/-- The argument that a name stands for. -/
def binding (args : List (FormalParameter × TypedArg τ)) (name : String) :
    Option (FormalParameter × TypedArg τ) :=
  args.find? fun pair =>
    (pair.1.name = name ∨ pair.1.typeStr = name) ∧ pair.2.Exists

theorem binding_cons (pair : FormalParameter × TypedArg τ)
    (rest : List (FormalParameter × TypedArg τ)) (name : String) :
    binding (pair :: rest) name =
      if (pair.1.name = name ∨ pair.1.typeStr = name) ∧ pair.2.Exists then
        some pair
      else binding rest name := by
  rw [binding, find?_cons, ← binding]
  split <;> simp_all

theorem emplace_apply (map : TypeBindingMap τ) (key name : String)
    (type : Option τ) :
    map.emplace key type name =
      (map name).or (if key = name then some type else none) := by
  rw [TypeBindingMap.emplace]
  by_cases hname : key = name
  · subst hname
    cases hentry : map key with
    | none => simp
    | some found => simp [hentry]
  · have hne : name ≠ key := fun heq => hname heq.symm
    rw [if_neg hname, or_none]
    split
    · rfl
    · exact Function.update_of_ne hne _ _

section

variable (args : List (FormalParameter × TypedArg τ))

/-- The table keeps the first occurrence of each name. -/
theorem map_apply (map : TypeBindingMap τ) (name : String) :
    (foldStop (visit (fun _ => true) fun (map : TypeBindingMap τ) param type =>
        ((map.emplace param.name type).emplace param.typeStr type, true))
      args map).1 name =
      (map name).or ((binding args name).map (·.2.typeAsProto)) := by
  induction args generalizing map with
  | nil => simp [foldStop, binding]
  | cons pair rest ih =>
    rw [foldStop, visit]
    by_cases hexists : pair.2.Exists
    · simp only [hexists, and_self, if_true]
      rw [ih, emplace_apply, emplace_apply, binding_cons]
      cases hentry : map name with
      | some found => simp
      | none =>
        by_cases hname : pair.1.name = name
        · simp [hname, hexists]
        · by_cases htype : pair.1.typeStr = name
          · simp [hname, htype, hexists]
          · simp [hname, htype]
    · simp only [hexists, and_false, if_false]
      rw [ih, binding_cons, if_neg fun h => hexists h.2]

/-- A traversal for a name stops at its first occurrence. -/
theorem traversal_eq (name : String) (s : Option τ) :
    (foldStop (visit (fun param => param.name = name ∨ param.typeStr = name)
      fun _ _ type => (type, false)) args s).1 =
      ((binding args name).map (·.2.typeAsProto)).getD s := by
  induction args with
  | nil => rfl
  | cons pair rest ih =>
    rw [foldStop, visit, binding_cons]
    by_cases hpair : (pair.1.name = name ∨ pair.1.typeStr = name) ∧
        pair.2.Exists
    · simp [hpair.1, hpair.2]
    · simp only [decide_eq_true_eq, hpair]
      exact ih

end

/-- `Resolve` answers from the map what a traversal finds. -/
theorem resolve_map_eq (node : BoundNode τ) (name : String) :
    (node.typeBindingMap >>= fun map => node.resolve (some map) name) =
      node.resolve none name := by
  by_cases hlength : node.op.inputs.length < node.inputArgCount.length
  · simp only [typeBindingMap, resolve, resolveByTraversal,
      traverseFormalParametersWithTypeProto, if_pos hlength]
    rfl
  · simp only [resolve]
    rw [typeBindingMap, resolveByTraversal, node.traverse_eq hlength,
      node.traverse_eq hlength, traversal_eq]
    refine congrArg Except.ok ?_
    rw [map_apply, none_or]

end Resolving

end BoundNode

namespace KernelConstraints

variable {τ : Type} {node : BoundNode τ}

theorem verifyTypes_map_eq {map : BoundNode.TypeBindingMap τ}
    (hmap : node.typeBindingMap = .ok map)
    (constraints : List (String × List (τ → Bool))) (errorStr : String) :
    verifyTypes node (some map) constraints errorStr =
      verifyTypes node none constraints errorStr := by
  have hresolve : ∀ name, node.resolve (some map) name =
      node.resolve none name := by
    intro name
    rw [← node.resolve_map_eq, hmap]
    rfl
  induction constraints generalizing errorStr with
  | nil => rfl
  | cons constraint rest ih =>
    rw [verifyTypes, hresolve]
    refine bind_congr fun actualType => ?_
    cases actualType with
    | none => exact ih errorStr
    | some actual =>
      dsimp only
      split
      · exact ih _
      · rfl

/-- With a constraint to check, both ways fail where one does. -/
theorem verifyTypes_bind_eq {constraints : List (String × List (τ → Bool))}
    (hne : constraints ≠ []) (errorStr : String) :
    (node.typeBindingMap >>= fun map =>
      verifyTypes node (some map) constraints errorStr) =
      verifyTypes node none constraints errorStr := by
  cases hmap : node.typeBindingMap with
  | ok map => exact verifyTypes_map_eq hmap constraints errorStr
  | error failure =>
    cases constraints with
    | nil => exact absurd rfl hne
    | cons constraint rest =>
      obtain ⟨name, allowedTypes⟩ := constraint
      have hresolve := node.resolve_map_eq name
      rw [hmap] at hresolve
      rw [verifyTypes, ← hresolve]
      rfl

theorem verifyKernelDef_threshold (threshold threshold' : Nat)
    (kernelDef : KernelConstraints τ) (execProvider errorStr : String) :
    verifyKernelDef node threshold kernelDef execProvider errorStr =
      verifyKernelDef node threshold' kernelDef execProvider errorStr := by
  have hnone : ∀ threshold, (if threshold < kernelDef.typeConstraints.length *
      (node.op.inputs.length + node.op.outputs.length) then
        node.typeBindingMap >>= fun map =>
          verifyTypes node (some map) kernelDef.typeConstraints errorStr
      else verifyTypes node none kernelDef.typeConstraints errorStr) =
      verifyTypes node none kernelDef.typeConstraints errorStr := by
    intro threshold
    split
    · rename_i hlt
      apply verifyTypes_bind_eq
      intro hnil
      rw [hnil, length_nil, Nat.zero_mul] at hlt
      exact Nat.not_lt_zero _ hlt
    · rfl
  simp only [verifyKernelDef, hnone]

/-- A name has the same type with the lookup map and without it, and so the
answer of `VerifyKernelDef` is the same for every threshold. -/
theorem lookup_eq_traversal (node : BoundNode τ) :
    (∀ name, (node.typeBindingMap >>= fun map =>
      node.resolve (some map) name) = node.resolve none name) ∧
    ∀ (threshold threshold' : Nat) (kernelDef : KernelConstraints τ)
      (execProvider errorStr : String),
      verifyKernelDef node threshold kernelDef execProvider errorStr =
        verifyKernelDef node threshold' kernelDef execProvider errorStr :=
  ⟨node.resolve_map_eq, verifyKernelDef_threshold⟩

end KernelConstraints

end OnnxRuntime
