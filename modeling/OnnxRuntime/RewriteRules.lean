/-
Rule based transformers: how rewrite rules are registered for an operator, and
which of them a top-down pass tries on which nodes.
-/
import OnnxRuntime.ExecutionPlan
import OnnxRuntime.Status

namespace OnnxRuntime

open Function List

/-- `op_to_rules_`. -/
abbrev RewriteRuleSet (ρ : Type) := String → Option (List ρ)

namespace RewriteRuleSet

variable {ρ : Type} (rules : RewriteRuleSet ρ)

def hasRules (opType : String) : Bool := (rules opType).isSome

def getRewriteRules (opType : String) : Option (List ρ) := rules opType

/-- The list of an operator that has rules is replaced by an empty one. -/
def register (opType : String) (rule : ρ) : RewriteRuleSet ρ :=
  let rules :=
    if rules.hasRules opType then Function.update rules opType (some [])
    else rules
  Function.update rules opType (some ((rules opType).getD [] ++ [rule]))

/-- The rules after a sequence of registrations. -/
def after (calls : List (String × ρ)) : RewriteRuleSet ρ :=
  calls.foldl (fun rules call => rules.register call.1 call.2) fun _ => none

/-- The rules that were registered for an operator, in their order. -/
def registeredFor (calls : List (String × ρ)) (opType : String) : List ρ :=
  (calls.filter (·.1 = opType)).map (·.2)

end RewriteRuleSet

open RewriteRuleSet

/-- Graphs that rules rewrite.  New nodes get new indices, and a node keeps
its operator. -/
structure RewriteSystem (γ ρ : Type) where
  getNode : γ → NodeIndex → Option String
  maxNodeIndex : γ → Nat
  getNodesInTopologicalOrder : γ → List NodeIndex
  resolve : γ → Except Failure γ
  checkConditionAndApply : ρ → γ → NodeIndex → Bool → Except Failure (γ × Bool)
  order_lt : ∀ g, ∀ index ∈ getNodesInTopologicalOrder g, index < maxNodeIndex g
  keeps : ∀ rule g index modified g' modified',
    checkConditionAndApply rule g index modified = .ok (g', modified') →
    maxNodeIndex g ≤ maxNodeIndex g' ∧ ∀ other < maxNodeIndex g, ∀ opType,
        getNode g' other = some opType → getNode g other = some opType

namespace RewriteSystem

variable {γ ρ : Type} (system : RewriteSystem γ ρ)

/-- The rules for one node.  The reference to the node stays the same; it
dangles once a rule has removed the node. -/
def tryRules (index : NodeIndex) :
    List ρ → γ × Bool → List (NodeIndex × ρ) × Except Failure (γ × Bool)
  | [], s => ([], .ok s)
  | rule :: rest, s =>
    match system.getNode s.1 index with
    | none => ([], .error .nullDereference)
    | some _ =>
      match system.checkConditionAndApply rule s.1 index s.2 with
      | .error failure => ([(index, rule)], .error failure)
      | .ok next =>
        let tried := tryRules index rest next
        ((index, rule) :: tried.1, tried.2)

/-- The loop over the nodes, with what it tries. -/
def visitNodes (rules : RewriteRuleSet ρ) : List NodeIndex → γ × Bool →
      List (NodeIndex × ρ) × Except Failure (γ × Bool)
  | [], s => ([], .ok s)
  | index :: rest, s =>
    match system.getNode s.1 index with
    | none => ([], .error (.status .invalidArgument ""))
    | some opType =>
      match rules.getRewriteRules opType with
      | none => visitNodes rules rest s
      | some applicable =>
        match system.tryRules index applicable s with
        | (tried, .error failure) => (tried, .error failure)
        | (tried, .ok next) =>
          let later := visitNodes rules rest next
          (tried ++ later.1, later.2)

/-- `TopDownRuleBasedTransformer::Apply`. -/
def apply (rules : RewriteRuleSet ρ) (g : γ) (modified : Bool) :
    List (NodeIndex × ρ) × Except Failure (γ × Bool) :=
  match system.resolve g with
  | .error failure => ([], .error failure)
  | .ok g =>
    let visited := system.visitNodes rules
      (system.getNodesInTopologicalOrder g) (g, modified)
    (visited.1, do
      let (g, modified) ← visited.2
      if modified then
        let g ← system.resolve g
        return (g, modified)
      else return (g, modified))

/-- The registered rules, for each node of an order. -/
def toTry (calls : List (String × ρ)) (g : γ) (order : List NodeIndex) :
    List (NodeIndex × ρ) :=
  order.flatMap fun index =>
    match system.getNode g index with
    | none => []
    | some opType => (RewriteRuleSet.registeredFor calls opType).map (index, ·)

/-- All rules are kept, and a pass tries each of them on each of its nodes, up
to where it stops with an error. -/
structure KeepsRules (calls : List (String × ρ)) : Prop where
  kept : ∀ opType rules,
    (RewriteRuleSet.after calls).getRewriteRules opType = some rules ↔
      rules = RewriteRuleSet.registeredFor calls opType ∧ rules ≠ []
  tried : ∀ g resolved modified, system.resolve g = .ok resolved →
    (system.apply (RewriteRuleSet.after calls) g modified).1 <+:
      system.toTry calls resolved (system.getNodesInTopologicalOrder resolved) ∧
    ∀ result, (system.apply (RewriteRuleSet.after calls) g modified).2 =
      .ok result →
      (system.apply (RewriteRuleSet.after calls) g modified).1 =
        system.toTry calls resolved (system.getNodesInTopologicalOrder resolved)

end RewriteSystem

namespace RewriteRuleSet

variable {ρ : Type} {calls : List (String × ρ)}

theorem register_apply (rules : RewriteRuleSet ρ) (opType : String) (rule : ρ)
    (other : String) :
    rules.register opType rule other =
      if other = opType then some [rule] else rules other := by
  rw [register, hasRules]
  by_cases hother : other = opType
  · subst hother
    rw [if_pos rfl]
    cases hrules : rules other with
    | none => simp [hrules]
    | some found => simp
  · rw [update_of_ne hother]
    split
    · exact update_of_ne hother _ _
    · rfl

/-- Only the last rule of an operator is left. -/
theorem after_apply (calls : List (String × ρ)) (opType : String) :
    after calls opType =
      (registeredFor calls opType).getLast?.map fun rule => [rule] := by
  induction calls using reverseRecOn with
  | nil => rfl
  | append_singleton calls call ih =>
    rw [after, foldl_append, ← after, registeredFor, filter_append,
      map_append, ← registeredFor]
    simp only [foldl_cons, foldl_nil, register_apply, ih]
    by_cases hcall : opType = call.1
    · simp [hcall]
    · have hne : call.1 ≠ opType := fun heq => hcall heq.symm
      simp [hcall, hne]

theorem length_registeredFor (calls : List (String × ρ)) (opType : String) :
    (registeredFor calls opType).length =
      (calls.map Prod.fst).count opType := by
  rw [registeredFor, length_map, List.count, countP_map,
    countP_eq_length_filter]
  congr 2

/-- The rules are kept exactly when no operator has two. -/
theorem kept_iff : (∀ opType rules,
    (after calls).getRewriteRules opType = some rules ↔
      rules = registeredFor calls opType ∧ rules ≠ []) ↔
    (calls.map Prod.fst).Nodup := by
  rw [nodup_iff_count_le_one]
  simp only [getRewriteRules, after_apply, ← length_registeredFor]
  refine forall_congr' fun opType => ?_
  rcases eq_nil_or_concat' (registeredFor calls opType) with
    hnil | ⟨front, last, hconcat⟩
  · rw [hnil]
    simp
  · rw [hconcat, getLast?_concat, Option.map_some, length_append,
      length_singleton]
    have hfront : front.length + 1 ≤ 1 ↔ front = [] := by
      rw [← length_eq_zero_iff]
      omega
    rw [hfront]
    constructor
    · intro h
      have heq := ((h [last]).1 rfl).1
      exact append_left_eq_self.1 heq.symm
    · rintro rfl rules
      rw [Option.some.injEq, eq_comm]
      refine ⟨fun heq => ⟨heq, ?_⟩, fun heq => heq.1⟩
      rw [heq]
      exact cons_ne_nil _ _

end RewriteRuleSet

namespace RewriteSystem

variable {γ ρ : Type} {system : RewriteSystem γ ρ} {calls : List (String × ρ)}

/-- The nodes of an order that are still there have the operator that they had
in the graph `g`. -/
def Agrees (system : RewriteSystem γ ρ) (g : γ) (order : List NodeIndex)
    (h : γ) : Prop :=
  ∀ index ∈ order, index < system.maxNodeIndex h ∧ ∀ opType,
    system.getNode h index = some opType → system.getNode g index = some opType

theorem Agrees.step {g h h' : γ} {order : List NodeIndex}
    (hagrees : system.Agrees g order h) {rule : ρ} {index : NodeIndex}
    {modified modified' : Bool}
    (hrule : system.checkConditionAndApply rule h index modified =
      .ok (h', modified')) : system.Agrees g order h' := by
  obtain ⟨hmax, hkeeps⟩ := system.keeps rule h index modified h' modified' hrule
  intro other hother
  obtain ⟨hlt, hsame⟩ := hagrees other hother
  exact ⟨Nat.lt_of_lt_of_le hlt hmax, fun opType hnode =>
    hsame opType (hkeeps other hlt opType hnode)⟩

/-- What is tried on one node, and that it is all if there is no error. -/
theorem tryRules_prefix (system : RewriteSystem γ ρ) (index : NodeIndex)
    (rules : List ρ) (s : γ × Bool) :
    (system.tryRules index rules s).1 <+: rules.map (index, ·) ∧
    ∀ result, (system.tryRules index rules s).2 = .ok result →
      (system.tryRules index rules s).1 = rules.map (index, ·) ∧
      ∀ g order, system.Agrees g order s.1 →
        system.Agrees g order result.1 := by
  induction rules generalizing s with
  | nil =>
    refine ⟨prefix_refl _, ?_⟩
    rintro _ ⟨⟩
    exact ⟨rfl, fun _ _ => id⟩
  | cons rule rest ih =>
    rw [tryRules]
    cases hnode : system.getNode s.1 index with
    | none => exact ⟨List.nil_prefix, nofun⟩
    | some opType =>
      cases hrule : system.checkConditionAndApply rule s.1 index s.2 with
      | error failure =>
        refine ⟨?_, nofun⟩
        exact cons_prefix_cons.2 ⟨rfl, nil_prefix⟩
      | ok next =>
        obtain ⟨hinitial, hall⟩ := ih next
        refine ⟨?_, fun result hresult => ?_⟩
        · exact cons_prefix_cons.2 ⟨rfl, hinitial⟩
        · obtain ⟨htried, hagrees⟩ := hall result hresult
          refine ⟨?_, fun g order h => hagrees g order (h.step hrule)⟩
          exact congrArg _ htried

/-- What is tried on all nodes. -/
theorem visitNodes_prefix
    (hkept : ∀ opType rules, (after calls).getRewriteRules opType = some rules ↔
        rules = registeredFor calls opType ∧ rules ≠ [])
    (g : γ) (order : List NodeIndex) (s : γ × Bool)
    (hagrees : system.Agrees g order s.1) :
    (system.visitNodes (after calls) order s).1 <+: system.toTry calls g order ∧
    ∀ result, (system.visitNodes (after calls) order s).2 = .ok result →
      (system.visitNodes (after calls) order s).1 =
        system.toTry calls g order := by
  induction order generalizing s with
  | nil => exact ⟨prefix_refl _, fun _ _ => rfl⟩
  | cons index rest ih =>
    have hrest : system.Agrees g rest s.1 := fun other hother =>
      hagrees other (mem_cons_of_mem _ hother)
    rw [visitNodes, toTry, flatMap_cons, ← toTry]
    cases hnode : system.getNode s.1 index with
    | none => exact ⟨List.nil_prefix, nofun⟩
    | some opType =>
      rw [(hagrees index mem_cons_self).2 opType hnode]
      dsimp only
      cases hrules :
          (after calls).getRewriteRules opType with
      | none =>
        have hnil : registeredFor calls opType = [] := by
          by_contra hne
          rw [(hkept opType _).2 ⟨rfl, hne⟩] at hrules
          cases hrules
        rw [hnil, map_nil]
        exact ih s hrest
      | some rules =>
        rw [← ((hkept opType rules).1 hrules).1]
        obtain ⟨hinitial, hall⟩ := system.tryRules_prefix index rules s
        dsimp only
        split
        · rename_i tried failure hrun
          rw [hrun] at hinitial
          exact ⟨hinitial.trans (prefix_append _ _), nofun⟩
        · rename_i tried next hrun
          rw [hrun] at hall
          obtain ⟨htried, hnext⟩ := hall next rfl
          obtain ⟨hlater, hlaterAll⟩ := ih next (hnext g rest hrest)
          rw [← htried]
          refine ⟨(prefix_append_right_inj _).2 hlater,
            fun result hresult => ?_⟩
          rw [hlaterAll result hresult]

/-- Two nodes of one operator; no rule changes anything. -/
def twoNodes : RewriteSystem Unit Nat where
  getNode _ index := if index < 2 then some "Op" else none
  maxNodeIndex _ := 2
  getNodesInTopologicalOrder _ := [0, 1]
  resolve g := .ok g
  checkConditionAndApply _ g _ modified := .ok (g, modified)
  order_lt _ index hindex := by
    rcases List.mem_cons.1 hindex with rfl | hrest
    · decide
    · rw [List.mem_singleton.1 hrest]
      decide
  keeps _ _ _ _ _ _ _ := ⟨Nat.le_refl _, fun _ _ _ => id⟩

end RewriteSystem

end OnnxRuntime
