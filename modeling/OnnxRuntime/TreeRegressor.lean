/-
The regressor over an ensemble of trees: the votes of the leaves reached are
looked up and added up, and the aggregate function is applied to the sums.
-/
import OnnxRuntime.MachineInt
import Mathlib.Algebra.BigOperators.Group.List.Basic
import Mathlib.Algebra.Order.Field.Rat

namespace OnnxRuntime.TreeEnsembleRegressor

open List

inductive NodeMode
  | branchLeq | branchLt | branchGte | branchGt | branchEq | branchNeq | leaf
deriving DecidableEq

inductive AggregateFunction
  | average | sum | min | max

structure TreeNode where
  treeId : Int
  nodeId : Int
  mode : NodeMode
  featureId : Int
  value : ℚ
  trueNode : Int
  falseNode : Int
deriving DecidableEq

/-- A vote: a leaf's weight for a target. -/
structure LeafData where
  treeId : Int
  nodeId : Int
  target : Int
  weight : ℚ

/-- The order in which the votes are sorted. -/
abbrev LeafData.Before (a b : LeafData) : Prop :=
  a.treeId < b.treeId ∨ a.treeId = b.treeId ∧ a.nodeId ≤ b.nodeId

/-- The regressor as its constructor leaves it: node ids count from each tree's
first, and the votes are sorted. -/
structure Ensemble where
  nodes : Int → TreeNode
  roots : List Int
  leafnodeData : List LeafData
  sorted : leafnodeData.Pairwise LeafData.Before
  aggregateFunction : AggregateFunction
  baseValues : List ℚ
  nTargets : Nat

variable (nodes : Int → TreeNode) (x : Int → ℚ)

/-- The branch a node takes, if it is not a leaf. No rational is missing. -/
def TreeNode.branch (node : TreeNode) : Option Int :=
  let val := x node.featureId
  let select (test : Bool) :=
    some (if test then node.trueNode else node.falseNode)
  match node.mode with
  | .branchLeq => select (val ≤ node.value)
  | .branchLt => select (val < node.value)
  | .branchGte => select (node.value ≤ val)
  | .branchGt => select (node.value < val)
  | .branchEq => select (val = node.value)
  | .branchNeq => select (val ≠ node.value)
  | .leaf => none

/-- The walk down a tree, with the steps left up to `max_tree_depth_`. -/
def walk (root : Int) (depth : Nat) (index : Int) : Except String TreeNode :=
  match (nodes index).branch x with
  | none => .ok (nodes index)
  | some next =>
    if next < 0 then
      .error "treeindex evaluated to a negative value, which should not happen."
    else
      match depth with
      | 0 => .ok (nodes (next + root))
      | depth + 1 => walk root depth (next + root)

def leafId (treeId nodeId : Int) : Int :=
  toInt64 (treeId * 4000000000 + nodeId)

/-- The loop that fills `leafdata_map_`.  It remembers the id and the position
of the last vote it entered, and compares them with the next vote's tree and
node. -/
def indexLeaves : List LeafData → Nat → (field0 field1 : Int) →
    (Int → Option Nat) → Int → Option Nat
  | [], _, _, _, leafdataMap => leafdataMap
  | leaf :: rest, i, field0, field1, leafdataMap =>
    if leaf.treeId ≠ field0 ∨ leaf.nodeId ≠ field1 then
      let id := leafId leaf.treeId leaf.nodeId
      indexLeaves rest (i + 1) id i
        (Function.update leafdataMap id ((leafdataMap id).or (some i)))
    else indexLeaves rest (i + 1) field0 field1 leafdataMap

def Ensemble.leafdataMap (e : Ensemble) : Int → Option Nat :=
  indexLeaves e.leafnodeData 0 (-1) (-1) fun _ => none

def TreeNode.owns (node : TreeNode) (leaf : LeafData) : Bool :=
  leaf.treeId = node.treeId ∧ leaf.nodeId = node.nodeId

/-- The votes at a node: those from the position that the map has for its id. -/
def Ensemble.votes (e : Ensemble) (node : TreeNode) : List LeafData :=
  (e.leafdataMap (leafId node.treeId node.nodeId)).elim [] fun index =>
    (e.leafnodeData.drop index).takeWhile node.owns

def vote (classes : Int → Option ℚ) (leaf : LeafData) : Int → Option ℚ :=
  Function.update classes leaf.target
    (some ((classes leaf.target).elim leaf.weight (· + leaf.weight)))

def processTreeNode (e : Ensemble) (classes : Int → Option ℚ) (root : Int) :
    Except String (Int → Option ℚ) := do
  let node ← walk e.nodes x root 1000 root
  return (e.votes node).foldl vote classes

variable (e : Ensemble)

def Ensemble.base (j : Nat) : ℚ :=
  if e.baseValues.length = e.nTargets then e.baseValues.getD j 0 else 0

def Ensemble.output (scores : Int → Option ℚ) (j : Nat) : ℚ :=
  match scores j with
  | none => e.base j
  | some score =>
    match e.aggregateFunction with
    | .average => e.base j + score / e.roots.length
    | .sum => e.base j + score
    | .min => if score < e.base j then score else e.base j
    | .max => if e.base j < score then score else e.base j

/-- The outputs for one row of the input, before the transform. -/
def Ensemble.compute : Except String (List ℚ) := do
  let scores ← e.roots.foldlM (processTreeNode x e) fun _ => none
  return (range e.nTargets).map (e.output scores)

/-- The map leads to the votes of a node. -/
def Ensemble.Indexed (node : TreeNode) : Bool :=
  ((e.leafdataMap (leafId node.treeId node.nodeId)).bind
    (e.leafnodeData[·]?)).any node.owns

def votesFor (j : Int) (votes : List LeafData) : List ℚ :=
  (votes.filter (·.target = j)).map (·.weight)

/-- The values that trees give for a target: one for each tree that votes for
it, if no leaf votes twice. -/
def Ensemble.values (leaf : Int → TreeNode) (roots : List Int) (j : Nat) :
    List ℚ :=
  votesFor j (roots.flatMap fun root => e.leafnodeData.filter (leaf root).owns)

def AggregateFunction.Combines (values : List ℚ) (result : ℚ) :
    AggregateFunction → Prop
  | .average => result = values.sum / values.length
  | .sum => result = values.sum
  | .min => IsLeast {value | value ∈ values} result
  | .max => IsGreatest {value | value ∈ values} result

/-- The output for a target is its base value and what the aggregate function
makes of the values of the trees that vote for it, in any order of the trees. -/
def Ensemble.Aggregates (leaf : Int → TreeNode) (j : Nat) : Prop :=
  ∃ row out, row[j]? = some out ∧
    (∀ roots, roots.Perm e.roots →
      { e with roots := roots }.compute x = .ok row) ∧
    if e.values leaf e.roots j = [] then out = e.base j
    else e.aggregateFunction.Combines (e.values leaf e.roots j)
      (out - e.base j)

/-- The values of the trees whose leaves the map leads to, and of the others. -/
def Ensemble.found (leaf : Int → TreeNode) (j : Nat) : List ℚ :=
  e.values leaf (e.roots.filter fun root => e.Indexed (leaf root)) j

def Ensemble.lost (leaf : Int → TreeNode) (j : Nat) : List ℚ :=
  e.values leaf (e.roots.filter fun root => !e.Indexed (leaf root)) j

section Index

variable {node : TreeNode}

theorem indexLeaves_of_some {data : List LeafData} {i r : Nat}
    {field0 field1 id : Int} {leafdataMap : Int → Option Nat}
    (h : leafdataMap id = some r) :
    indexLeaves data i field0 field1 leafdataMap id = some r := by
  induction data generalizing i field0 field1 leafdataMap with
  | nil => exact h
  | cons leaf rest ih =>
    unfold indexLeaves
    split
    · refine ih ?_
      by_cases hid : id = leafId leaf.treeId leaf.nodeId
      · rw [← hid, Function.update_self, h]
        rfl
      · rw [Function.update_of_ne hid, h]
    · exact ih h

/-- A node's id leads to the first of its votes, or to those of another node
with its id: if the first is passed over, the ones that follow it are too. -/
theorem indexLeaves_eq_some {data : List LeafData}
    (hsorted : data.Pairwise LeafData.Before) {i r : Nat} {field0 field1 : Int}
    {leafdataMap : Int → Option Nat}
    (hnone : leafdataMap (leafId node.treeId node.nodeId) = none)
    (h : indexLeaves data i field0 field1 leafdataMap
      (leafId node.treeId node.nodeId) = some r) :
    ∃ front leaf back, data = front ++ leaf :: back ∧ r = i + front.length ∧
      (node.owns leaf → (∀ x ∈ front, ¬ node.owns x) ∧
        (field0 = node.treeId → field1 = node.nodeId → front ≠ [])) := by
  induction data generalizing i field0 field1 leafdataMap with
  | nil =>
    rw [indexLeaves, hnone] at h
    cases h
  | cons leaf rest ih =>
    obtain ⟨hleaf, hrest⟩ := pairwise_cons.mp hsorted
    rw [indexLeaves] at h
    split at h
    · rename_i hnew
      by_cases hid : leafId node.treeId node.nodeId =
          leafId leaf.treeId leaf.nodeId
      · rw [indexLeaves_of_some (r := i)
          (by rw [hid, Function.update_self, ← hid, hnone]; rfl)] at h
        cases h
        refine ⟨[], leaf, rest, rfl, rfl, fun howns => ⟨by simp, ?_⟩⟩
        simp only [TreeNode.owns, decide_eq_true_eq] at howns
        omega
      · obtain ⟨front, first, back, rfl, rfl, howns⟩ :=
          ih hrest (by rwa [Function.update_of_ne hid]) h
        refine ⟨leaf :: front, first, back, rfl, by simp; omega, fun hfirst =>
          ⟨forall_mem_cons.mpr ⟨fun hleaf => hid ?_, (howns hfirst).1⟩,
            fun _ _ => cons_ne_nil _ _⟩⟩
        simp only [TreeNode.owns, decide_eq_true_eq] at hleaf
        rw [hleaf.1, hleaf.2]
    · rename_i hold
      obtain ⟨front, first, back, rfl, rfl, howns⟩ := ih hrest hnone h
      refine ⟨leaf :: front, first, back, rfl, by simp; omega, fun hfirst => ?_⟩
      obtain ⟨hfront, hfields⟩ := howns hfirst
      refine ⟨forall_mem_cons.mpr ⟨fun hleafOwned => ?_, hfront⟩,
        fun _ _ => cons_ne_nil _ _⟩
      -- Between two votes of the node there are only votes of it.
      simp only [TreeNode.owns, decide_eq_true_eq] at hfirst hleafOwned
      cases front with
      | nil => exact hfields (by omega) (by omega) rfl
      | cons between front =>
        have hbefore := hleaf between (by simp)
        have hafter := (pairwise_cons.mp hrest).1 first (by simp)
        have hbetween := hfront between (by simp)
        simp only [TreeNode.owns, decide_eq_true_eq] at hbetween
        unfold LeafData.Before at hbefore hafter
        omega

theorem takeWhile_owns {leaf : LeafData} {rest : List LeafData}
    (hsorted : (leaf :: rest).Pairwise LeafData.Before)
    (hleaf : node.owns leaf) :
    rest.takeWhile node.owns = rest.filter node.owns := by
  induction rest with
  | nil => rfl
  | cons next rest ih =>
    obtain ⟨hbefore, hrest⟩ := pairwise_cons.mp hsorted
    by_cases hnext : node.owns next
    · rw [takeWhile_cons_of_pos hnext, filter_cons_of_pos hnext,
        ih (hsorted.sublist (by simp))]
    · rw [takeWhile_cons_of_neg hnext, filter_cons_of_neg hnext, eq_comm,
        filter_eq_nil_iff]
      intro last hlast howns
      have hfirst := hbefore next (by simp)
      have hafter := (pairwise_cons.mp hrest).1 last hlast
      simp only [TreeNode.owns, decide_eq_true_eq] at hleaf hnext howns
      unfold LeafData.Before at hfirst hafter
      omega

/-- The votes handed out at a node are all of its votes or none. -/
theorem votes_eq (node : TreeNode) : e.votes node =
    if e.Indexed node then e.leafnodeData.filter node.owns else [] := by
  unfold Ensemble.votes Ensemble.Indexed
  cases hmap : e.leafdataMap (leafId node.treeId node.nodeId) with
  | none => rfl
  | some r =>
    obtain ⟨front, leaf, back, hdata, hr, hfirst⟩ :=
      indexLeaves_eq_some e.sorted rfl hmap
    have hsorted := e.sorted
    rw [hdata] at hsorted
    rw [Nat.zero_add] at hr
    subst hr
    rw [Option.elim_some, hdata, drop_left, Option.bind_some,
      getElem?_append_right le_rfl, Nat.sub_self]
    by_cases hleaf : node.owns leaf
    · have hfront : front.filter node.owns = [] :=
        filter_eq_nil_iff.mpr (hfirst hleaf).1
      simp [hleaf, hfront, takeWhile_owns (hsorted.sublist
        (sublist_append_right _ _)) hleaf]
    · simp [hleaf]

end Index

theorem foldl_vote (j : Int) (votes : List LeafData)
    (classes : Int → Option ℚ) :
    votes.foldl vote classes j = if votesFor j votes = [] then classes j
      else some ((classes j).getD 0 + (votesFor j votes).sum) := by
  induction votes generalizing classes with
  | nil => rfl
  | cons leaf votes ih =>
    rw [foldl_cons, ih, vote]
    by_cases hleaf : leaf.target = j
    · have hcons : votesFor j (leaf :: votes) =
          leaf.weight :: votesFor j votes := by simp [votesFor, hleaf]
      rw [hcons, hleaf, Function.update_self]
      by_cases hrest : votesFor j votes = [] <;> cases classes j <;>
        simp [hrest, add_assoc]
    · have hcons : votesFor j (leaf :: votes) = votesFor j votes := by
        simp [votesFor, hleaf]
      rw [hcons, Function.update_of_ne (Ne.symm hleaf)]

def Ensemble.tally (leaf : Int → TreeNode) (roots : List Int) :
    Int → Option ℚ :=
  (roots.flatMap fun root => e.votes (leaf root)).foldl vote fun _ => none

variable {e} {leaf : Int → TreeNode}

theorem tally_apply (j : Nat) : e.tally leaf e.roots j =
    if e.found leaf j = [] then none else some (e.found leaf j).sum := by
  have hfound : ∀ roots : List Int, (roots.flatMap fun root =>
      e.votes (leaf root)) = (roots.filter fun root =>
        e.Indexed (leaf root)).flatMap fun root =>
          e.leafnodeData.filter (leaf root).owns := by
    intro roots
    induction roots with
    | nil => rfl
    | cons root roots ih =>
      rw [flatMap_cons, votes_eq, ih, filter_cons]
      split <;> rfl
  rw [Ensemble.tally, foldl_vote, hfound, ← Ensemble.values, ← Ensemble.found]
  simp

theorem found_append_lost_perm (e : Ensemble) (leaf : Int → TreeNode)
    (j : Nat) :
    (e.found leaf j ++ e.lost leaf j).Perm (e.values leaf e.roots j) := by
  rw [Ensemble.found, Ensemble.lost, Ensemble.values, Ensemble.values, votesFor,
    votesFor, ← map_append, ← filter_append, ← flatMap_append]
  exact (((filter_append_perm _ _).flatMap_right _).filter _).map _

section

variable
  (hleaf : ∀ root ∈ e.roots, walk e.nodes x root 1000 root = .ok (leaf root))
include hleaf

theorem compute_eq {roots : List Int} (hperm : roots.Perm e.roots) :
    { e with roots := roots }.compute x =
      .ok ((range e.nTargets).map (e.output (e.tally leaf e.roots))) := by
  have hfold : ∀ classes, roots.foldlM (processTreeNode x e) classes =
      .ok ((roots.flatMap fun root =>
        e.votes (leaf root)).foldl vote classes) := by
    replace hleaf := fun root hroot => hleaf root (hperm.subset hroot)
    clear hperm
    induction roots with
    | nil => exact fun _ => rfl
    | cons root roots ih =>
      intro classes
      obtain ⟨hroot, hroots⟩ := forall_mem_cons.mp hleaf
      rw [foldlM_cons, processTreeNode, hroot, flatMap_cons, foldl_append]
      exact ih hroots _
  have htally : e.tally leaf roots = e.tally leaf e.roots := by
    funext j
    have hvotes := ((hperm.flatMap_right fun root =>
      e.votes (leaf root)).filter (·.target = j)).map (·.weight)
    rw [Ensemble.tally, Ensemble.tally, foldl_vote, foldl_vote]
    simp only [← length_eq_zero_iff, votesFor, hvotes.sum_eq, hvotes.length_eq]
  -- Of the trees themselves only their number matters now.
  rw [Ensemble.compute]
  change (roots.foldlM (processTreeNode x e) _ >>= _) = _
  rw [hfold, ← htally]
  change Except.ok _ = _
  congr 2
  funext j
  simp only [Ensemble.output, Ensemble.base, hperm.length_eq]
  rfl

theorem aggregates_iff_output {j : Nat} (hj : j < e.nTargets) :
    e.Aggregates x leaf j ↔
      if e.values leaf e.roots j = [] then
        e.output (e.tally leaf e.roots) j = e.base j
      else e.aggregateFunction.Combines (e.values leaf e.roots j)
        (e.output (e.tally leaf e.roots) j - e.base j) := by
  constructor
  · rintro ⟨row, out, hout, hrow, h⟩
    cases (compute_eq x hleaf (.refl _)).symm.trans (hrow e.roots (.refl _))
    rw [getElem?_map, getElem?_range hj] at hout
    cases hout
    exact h
  · intro h
    refine ⟨_, _, ?_, fun _ hperm => compute_eq x hleaf hperm, h⟩
    rw [getElem?_map, getElem?_range hj]
    rfl

end

/-- A tree of a split and two leaves, of which one votes for the first target,
and a tree that is a leaf. -/
def twoTrees (aggregateFunction : AggregateFunction) (voter target : Int) :
    Ensemble where
  nodes := fun index =>
    if index = 0 then ⟨0, 0, .branchLeq, 0, 0, 1, 2⟩
    else if index < 3 then ⟨0, index, .leaf, 0, 0, 0, 0⟩
    else ⟨1, 0, .leaf, 0, 0, 0, 0⟩
  roots := [0, 3]
  leafnodeData := [⟨0, voter, 0, 1⟩, ⟨1, 0, target, 5⟩]
  sorted := by simp [LeafData.Before]
  aggregateFunction := aggregateFunction
  baseValues := []
  nTargets := 2

/-- The leaf that a row with one feature reaches. -/
def twoTreesLeaf (x : ℚ) (root : Int) : TreeNode :=
  if root = 0 then ⟨0, if x ≤ 0 then 1 else 2, .leaf, 0, 0, 0, 0⟩
  else ⟨1, 0, .leaf, 0, 0, 0, 0⟩

end OnnxRuntime.TreeEnsembleRegressor
