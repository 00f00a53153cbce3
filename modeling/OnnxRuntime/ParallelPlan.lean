/-
The memory plan when nodes run in parallel.  Dead buffers are not recycled
then, but an output may still be placed over an input in its last use along
the execution order; the plan is safe in every run if the other readers of what
may be there are ordered before the node by data edges.
-/
import Mathlib.Tactic.IntervalCases
import OnnxRuntime.GraphViewer
import OnnxRuntime.PlanSoundness

namespace OnnxRuntime

open List

namespace PlannerContext

variable {ctx : PlannerContext} {node : Node} {s s' : PlannerImpl}
  {outputArgNum k j : Nat} {log : List MLValueIndex} {output : NodeArg}
  {o v : MLValueIndex} {back : List Node} {plan : SequentialExecutionPlan}

section

variable (ctx : PlannerContext)

/-- Node `k` of the execution order reads `v`. -/
def ReadsAt (k : Nat) (v : MLValueIndex) : Prop :=
  ∃ node, ctx.graph.nodesInTopologicalOrder[k]? = some node ∧ v ∈ ctx.reads node

/-- Node `k` of the execution order produces `v`. -/
def ProducedAt (k : Nat) (v : MLValueIndex) : Prop :=
  ∃ node, ctx.graph.nodesInTopologicalOrder[k]? = some node ∧
    v ∈ ctx.writes node

def DataEdge (j k : Nat) : Prop :=
  ∃ v, ctx.ProducedAt j v ∧ ctx.ReadsAt k v

/-- Ordered by a path of data edges. -/
def Ordered : Nat → Nat → Prop := Relation.TransGen ctx.DataEdge

/-- There before node `k` in the execution order. -/
def Earlier (k : Nat) (v : MLValueIndex) : Prop :=
  v ∈ ctx.sources ∨ ∃ j < k, ctx.ProducedAt j v

/-- The values that are there before node `k`. -/
def definedBefore (k : Nat) : List MLValueIndex :=
  ((ctx.graph.nodesInTopologicalOrder.take k).flatMap ctx.writes).reverse ++
    ctx.sources

end

theorem split_of_getElem? {α : Type} {items : List α} {x : α}
    (h : items[k]? = some x) :
    items = items.take k ++ x :: items.drop (k + 1) := by
  obtain ⟨hlt, rfl⟩ := List.getElem?_eq_some_iff.mp h
  rw [← drop_eq_getElem_cons hlt, take_append_drop]

theorem mem_take_flatMap :
    v ∈ (ctx.graph.nodesInTopologicalOrder.take k).flatMap ctx.writes ↔
      ∃ j < k, ctx.ProducedAt j v := by
  simp only [mem_flatMap, mem_take_iff_getElem]
  constructor
  · rintro ⟨node, ⟨j, hj, rfl⟩, hv⟩
    refine ⟨j, by omega, _, getElem?_eq_getElem (by omega), hv⟩
  · rintro ⟨j, hj, node, hnode, hv⟩
    obtain ⟨hlt, rfl⟩ := List.getElem?_eq_some_iff.mp hnode
    exact ⟨_, ⟨j, by omega, rfl⟩, hv⟩

theorem mem_defined_iff :
    v ∈ ctx.definedBefore k ↔ ctx.Earlier k v := by
  rw [definedBefore, mem_append, mem_reverse, mem_take_flatMap, Earlier,
    or_comm]

section

variable (h : Resolved ctx)
include h

theorem Resolved.earlier_of_readsAt (hread : ctx.ReadsAt k v) :
    ctx.Earlier k v := by
  obtain ⟨node, hnode, hv⟩ := hread
  exact mem_defined_iff.mp (h.reads_defined (split_of_getElem? hnode) v hv)

theorem Resolved.not_earlier_of_producedAt (hproduced : ctx.ProducedAt k v) :
    ¬ ctx.Earlier k v := by
  obtain ⟨node, hnode, hv⟩ := hproduced
  exact fun hearlier => h.writes_not_defined (split_of_getElem? hnode) v hv
    (mem_defined_iff.mpr hearlier)

theorem Resolved.producedAt_unique (hj : ctx.ProducedAt j v)
    (hk : ctx.ProducedAt k v) :
    j = k := by
  rcases Nat.lt_trichotomy j k with hlt | heq | hlt
  · exact absurd (.inr ⟨j, hlt, hj⟩) (h.not_earlier_of_producedAt hk)
  · exact heq
  · exact absurd (.inr ⟨k, hlt, hk⟩) (h.not_earlier_of_producedAt hj)

theorem Resolved.lt_of_dataEdge (hedge : ctx.DataEdge j k) : j < k := by
  obtain ⟨v, hproduced, hread⟩ := hedge
  rcases h.earlier_of_readsAt hread with hsource | ⟨i, hlt, hi⟩
  · exact absurd (.inl hsource) (h.not_earlier_of_producedAt hproduced)
  · rw [h.producedAt_unique hproduced hi]
    exact hlt

end

section Storing

/-- Where an output is stored, as `buffer` tells it: by itself, with an input
that an alias pair names, over an input in its last use, or in a buffer that
was free. -/
inductive Stored (ctx : PlannerContext) (buffer : MLValueIndex → MLValueIndex)
    (k : Nat) (node : Node) (output : NodeArg) (outputArgNum : Nat)
    (o : MLValueIndex) : Prop
  | own (hbuffer : buffer o = o)
  | shared (w : MLValueIndex)
      (hchoice : AliasChoice ctx node output outputArgNum w)
      (hbuffer : buffer o = buffer w)
  | overwritten (w : MLValueIndex)
      (hchoice : InplaceChoice ctx node output outputArgNum w)
      (hbuffer : buffer o = buffer w) (hpermanent : ctx.permanentUses w = 0)
      (hlast : ∀ v ∈ ctx.definedBefore k, buffer v = buffer o →
        v ∉ ctx.uses (ctx.graph.nodesInTopologicalOrder.drop (k + 1)))
  | recycled (hsequential : ctx.enableParallelExecution = false)

/-- An output placed over an input is the last use of all values there. -/
theorem Round.last_use
    (h : Round ctx (fun _ _ => True) node (ctx.writes node ++ ctx.uses back)
      log s output outputArgNum o s') {reused : MLValueIndex}
    (hread : reused ∈ ctx.reads node)
    (hcount : s.useCount (s.buffer reused) = 1) :
    ctx.permanentUses reused = 0 ∧ ∀ v ∈ log ++ ctx.sources,
      s.buffer v = s.buffer reused → v ∉ ctx.uses back := by
  have haccounted := h.placing.writing.accounted
  have hreused := h.reads reused hread
  have hreadCount := count_pos_iff.mpr hread
  have hle : ((ctx.permanentUses reused + (ctx.reads node ++
      (ctx.writes node ++ ctx.uses back)).count reused : Nat) : Int) ≤
        s.useCount (s.buffer reused) := haccounted.rem_le_count hreused
  rw [count_append, count_append] at hle
  refine ⟨by omega, fun v hv hbuffer hused => ?_⟩
  have husedCount := count_pos_iff.mpr hused
  by_cases heq : v = reused
  · subst heq
    omega
  · have hboth : ((ctx.permanentUses v + (ctx.reads node ++ (ctx.writes node ++
        ctx.uses back)).count v : Nat) : Int) +
        ((ctx.permanentUses reused + (ctx.reads node ++ (ctx.writes node ++
          ctx.uses back)).count reused : Nat) : Int) ≤
          s.useCount (s.buffer reused) :=
      haccounted.add_le_count hv hreused heq hbuffer
    rw [count_append, count_append, count_append] at hboth
    omega

/-- A round stores its output. -/
theorem Round.stored
    (h : Round ctx (fun _ _ => True) node (ctx.writes node ++ ctx.uses
        (ctx.graph.nodesInTopologicalOrder.drop (k + 1)))
      log s output outputArgNum o s')
    (hdefined : ctx.definedBefore k ⊆ log ++ ctx.sources) :
    Stored ctx s'.planBuffer k node output outputArgNum o := by
  have hkept : ∀ v ∈ log ++ ctx.sources, s'.planBuffer v = s.buffer v :=
    fun v hv => (h.keeps.plan_eq v hv).trans (h.placing.plan_eq v hv)
  rcases h.placed with ⟨_, _, hplan⟩ | ⟨w, hchoice, _, _, hplan⟩ |
    ⟨w, hchoice, hcount, _, _, hplan⟩ | ⟨_, _, hsequential, _, _, _⟩
  · exact .own hplan
  · refine .shared w hchoice (hplan.trans (hkept w ?_).symm)
    exact h.reads w (aliasable_subset node hchoice.mem_aliasable)
  · have hread := hchoice.mem_reads
    obtain ⟨hpermanent, hlast⟩ := h.last_use hread hcount
    refine .overwritten w hchoice (hplan.trans (hkept w (h.reads w hread)).symm)
      hpermanent fun v hv hbuffer => hlast v (hdefined hv) ?_
    rw [← hkept v (hdefined hv), hbuffer, hplan]
  · exact .recycled hsequential

/-- Where an output is stored stays so. -/
theorem Stored.congr {buffer buffer' : MLValueIndex → MLValueIndex}
    (h : Stored ctx buffer k node output outputArgNum o)
    (ho : buffer' o = buffer o)
    (hreads : ∀ v ∈ ctx.reads node, buffer' v = buffer v)
    (hdefined : ∀ v ∈ ctx.definedBefore k, buffer' v = buffer v) :
    Stored ctx buffer' k node output outputArgNum o := by
  cases h with
  | own hbuffer => exact .own (ho.trans hbuffer)
  | shared w hchoice hbuffer =>
    refine .shared w hchoice ?_
    rw [ho, hreads w (aliasable_subset node hchoice.mem_aliasable), hbuffer]
  | overwritten w hchoice hbuffer hpermanent hlast =>
    refine .overwritten w hchoice ?_ hpermanent fun v hv heq => hlast v hv ?_
    · rw [ho, hreads w hchoice.mem_reads, hbuffer]
    · rw [← hdefined v hv, heq, ho]
  | recycled hsequential => exact .recycled hsequential

/-- An output of a node is stored. -/
def IsStored (ctx : PlannerContext) (buffer : MLValueIndex → MLValueIndex)
    (k : Nat) (node : Node) (o : MLValueIndex) : Prop :=
  ∃ output outputArgNum, Turn ctx node output outputArgNum o ∧
    Stored ctx buffer k node output outputArgNum o

/-- The outputs of a node that are placed are stored. -/
structure Storing (ctx : PlannerContext) (k : Nat) (node : Node)
    (log : List MLValueIndex) (s : PlannerImpl) : Prop where
  defined : ctx.definedBefore k ⊆ log ++ ctx.sources
  stored : ∀ o ∈ ctx.writes node, o ∈ log → ctx.IsStored s.planBuffer k node o

theorem Storing.round (h : Storing ctx k node log s)
    (hround : Round ctx (fun _ _ => True) node (ctx.writes node ++ ctx.uses
        (ctx.graph.nodesInTopologicalOrder.drop (k + 1)))
      log s output outputArgNum o s') : Storing ctx k node (o :: log) s' := by
  refine ⟨fun v hv => mem_cons_of_mem _ (h.defined hv), fun v hv hmem => ?_⟩
  rcases mem_cons.mp hmem with rfl | hmem
  · exact ⟨output, outputArgNum, hround.turn, hround.stored h.defined⟩
  · obtain ⟨output, outputArgNum, hturn, hstored⟩ := h.stored v hv hmem
    refine ⟨output, outputArgNum, hturn, hstored.congr ?_ ?_ ?_⟩
    · exact hround.keeps.plan_eq v (mem_append_left _ hmem)
    · exact fun w hw => hround.keeps.plan_eq w (hround.reads w hw)
    · exact fun w hw => hround.keeps.plan_eq w (h.defined hw)

/-- The outputs of the first nodes are stored. -/
def StoredBefore (ctx : PlannerContext) (n : Nat)
    (buffer : MLValueIndex → MLValueIndex) : Prop :=
  ∀ k < n, ∀ node, ctx.graph.nodesInTopologicalOrder[k]? = some node →
    ∀ o ∈ ctx.writes node, ctx.IsStored buffer k node o

theorem mem_definedBefore_of_le (hle : k ≤ j) :
    ctx.definedBefore k ⊆ ctx.definedBefore j := by
  intro v hv
  rw [mem_defined_iff] at hv ⊢
  rcases hv with hsource | ⟨i, hi, hproduced⟩
  · exact .inl hsource
  · exact .inr ⟨i, by omega, hproduced⟩

variable (hresolved : Resolved ctx)
include hresolved

theorem StoredBefore.congr {n : Nat}
    {buffer buffer' : MLValueIndex → MLValueIndex}
    (h : StoredBefore ctx n buffer)
    (hsame : ∀ v ∈ ctx.definedBefore n, buffer' v = buffer v) :
    StoredBefore ctx n buffer' := by
  intro k hk node hnode o ho
  obtain ⟨output, outputArgNum, hturn, hstored⟩ := h k hk node hnode o ho
  refine ⟨output, outputArgNum, hturn, hstored.congr ?_ (fun v hv => ?_)
    fun v hv => ?_⟩
  · exact hsame o (mem_defined_iff.mpr (.inr ⟨k, hk, node, hnode, ho⟩))
  · refine hsame v (mem_definedBefore_of_le (Nat.le_of_lt hk) ?_)
    exact hresolved.reads_defined (split_of_getElem? hnode) v hv
  · exact hsame v (mem_definedBefore_of_le (Nat.le_of_lt hk) hv)

/-- A step stores the outputs of its node. -/
theorem StoredBefore.planNode {front : List Node}
    (hsplit : ctx.graph.nodesInTopologicalOrder = front ++ node :: back)
    (hplanned : Planned ctx (fun _ _ => True) front (node :: back) s)
    (hrun : ctx.planNode s (node, front.length) = .ok s')
    (h : StoredBefore ctx front.length s.planBuffer) :
    StoredBefore ctx (front.length + 1) s'.planBuffer := by
  have hfront : ctx.graph.nodesInTopologicalOrder.take front.length =
      front := by simp [hsplit]
  have hback : ctx.graph.nodesInTopologicalOrder.drop (front.length + 1) =
      back := by simp [hsplit]
  have hdefined : ctx.definedBefore front.length =
      (front.flatMap ctx.writes).reverse ++ ctx.sources := by
    rw [definedBefore, hfront]
  obtain ⟨-, hlater⟩ :=
    hplanned.planNode hresolved hsplit (sharing_true ctx) hrun
  have hold := h.congr hresolved fun v hv =>
    hlater.keeps.plan_eq v (hdefined ▸ hv)
  intro k hk other hother o ho
  rcases Nat.lt_succ_iff_lt_or_eq.mp hk with hlt | rfl
  · exact hold k hlt other hother o ho
  · obtain rfl : node = other := by simpa [hsplit] using hother
    obtain ⟨placed, hplaced, rfl⟩ := planNode_eq_ok hrun
    obtain ⟨-, hstored⟩ := hplanned.planOutputs hresolved hsplit
      (sharing_true ctx) (motive := Storing ctx front.length node)
      (fun _ _ _ _ _ _ hround hstoring => hstoring.round (hback.symm ▸ hround))
      ⟨hdefined ▸ Subset.refl _, fun o ho hmem => absurd
        (mem_append_left _ hmem) (hresolved.writes_not_defined hsplit o ho)⟩
      hplaced
    rw [PlannerImpl.planBuffer_foldl_releaseAt]
    exact hstored.stored o ho (by simp [ho])

/-- The plan stores all outputs. -/
theorem createPlan_stored (hplan : ctx.createPlan = .ok plan) :
    (∀ v ∈ ctx.sources, plan.bufferOf v = v) ∧
      StoredBefore ctx ctx.graph.nodesInTopologicalOrder.length
        plan.bufferOf := by
  obtain ⟨final, hfinal, hallocation, -⟩ := createPlan_eq_ok hplan
  obtain ⟨-, hsources, hstored⟩ := planState_induction hresolved
    (sharing_true ctx) (motive := fun front s =>
      (∀ v ∈ ctx.sources, s.planBuffer v = v) ∧
        StoredBefore ctx front.length s.planBuffer)
    (fun s _ hown => ⟨hown, fun k hk => absurd hk (Nat.not_lt_zero k)⟩)
    (fun front node back s s' hsplit hplanned hrun h => by
      obtain ⟨-, hlater⟩ :=
        hplanned.planNode hresolved hsplit (sharing_true ctx) hrun
      refine ⟨fun v hv => ?_, ?_⟩
      · rw [hlater.keeps.plan_eq v (mem_append_right _ hv), h.1 v hv]
      · rw [length_append]
        exact h.2.planNode hresolved hsplit hplanned hrun) hfinal
  have hbufferOf : ∀ n, ∀ v ∈ ctx.definedBefore n,
      plan.bufferOf v = final.planBuffer v := fun n v hv =>
    bufferOf_eq hallocation (lt_of_mem_defined hv)
  refine ⟨fun v hv => ?_, hstored.congr hresolved (hbufferOf _)⟩
  rw [hbufferOf 0 v (mem_append_right _ hv), hsources v hv]

end Storing

theorem mem_uses_drop (hlt : k < j) (hread : ctx.ReadsAt j v) :
    v ∈ ctx.uses (ctx.graph.nodesInTopologicalOrder.drop (k + 1)) := by
  obtain ⟨node, hnode, hv⟩ := hread
  refine mem_flatMap.mpr ⟨node, ?_, mem_append_left _ hv⟩
  apply mem_of_getElem? (i := j - (k + 1))
  rw [getElem?_drop, Nat.add_sub_cancel' hlt]
  exact hnode

section

variable (ctx : PlannerContext) (plan : SequentialExecutionPlan)

/-- Node `k` writes the bytes of its output `o`; those of an alias it leaves
as they are. -/
def WritesAt (k : Nat) (o : MLValueIndex) : Prop :=
  ctx.ProducedAt k o ∧ ∀ w, ¬ ctx.AliasOf w o

/-- An in-place pair of node `n` names its output `o` and its input `w`, which
are of one size; no alias pair comes before it, and the input is neither the
caller's nor read by a later node. -/
structure MayOverwrite (n : Nat) (w o : MLValueIndex) : Prop where
  pair : ∃ node position output,
    ctx.graph.nodesInTopologicalOrder[n]? = some node ∧
    node.outputDefs[position]? = some output ∧ output.Exists ∧
    ctx.names.idxOf? output.name = some o ∧
    InplaceChoice ctx node output position w
  not_source : w ∉ ctx.sources
  not_output : w ∉ ctx.graphOutputs
  last : ∀ m > n, ¬ ctx.ReadsAt m w

/-- Values that pairs can bring into one buffer. -/
def MayShare : MLValueIndex → MLValueIndex → Prop :=
  Relation.EqvGen fun w o => ctx.AliasOf w o ∨ ∃ n, ctx.MayOverwrite n w o

/-- Where an output may be placed over an input, every earlier reader of a value
that can be there is ordered before the node. -/
def ReadersOrdered : Prop :=
  ∀ n w o, ctx.MayOverwrite n w o → ∀ v, ctx.Earlier n v → ctx.MayShare v w →
    ∀ m < n, ctx.ReadsAt m v → ctx.Ordered m n

/-- What the planner guarantees for a parallel plan. -/
structure PlacedPlan : Prop where
  source : ∀ v ∈ ctx.sources, plan.bufferOf v = v
  output : ∀ k o, ctx.ProducedAt k o → plan.bufferOf o = o ∨
    ∃ w, ctx.ReadsAt k w ∧ plan.bufferOf w = plan.bufferOf o ∧
      (ctx.AliasOf w o ∨ ctx.MayOverwrite k w o ∧
        ∀ v, ctx.Earlier k v → plan.bufferOf v = plan.bufferOf o →
          ∀ j > k, ¬ ctx.ReadsAt j v)

def IsStep (k : Nat) : Prop := k < ctx.graph.nodesInTopologicalOrder.length

/-- The states of all parallel runs of the nodes. -/
def ParallelRun (run : Progress Nat) : Prop :=
  Progress.Reachable ctx.IsStep ctx.DataEdge run

/-- While node `n` runs, it writes `o` into the buffer of `v`, which node `m`,
not ordered before `n`, still has to read. -/
structure Clobbered (run : Progress Nat) (n m : Nat) (o v : MLValueIndex) :
    Prop where
  started : n ∈ run.started
  running : n ∉ run.finished
  writes : ctx.WritesAt n o
  available : v ∈ ctx.sources ∨ ∃ j ∈ run.finished, ctx.ProducedAt j v
  reads : ctx.ReadsAt m v
  other : m ≠ n
  unfinished : m ∉ run.finished
  unordered : ¬ ctx.Ordered m n
  same_buffer : plan.bufferOf v = plan.bufferOf o

def SafeInParallel : Prop :=
  ∀ run, ctx.ParallelRun run → ∀ n m o v, ¬ ctx.Clobbered plan run n m o v

end

/-- As only trailing outputs are missing, the planner looks up the pairs of an
output under its position. -/
theorem placedPlan_of_createPlan (hresolved : Resolved ctx)
    (htrailing : TrailingOutputs ctx)
    (hparallel : ctx.enableParallelExecution = true)
    (hplan : ctx.createPlan = .ok plan) : PlacedPlan ctx plan := by
  obtain ⟨hsources, hstored⟩ := createPlan_stored hresolved hplan
  refine ⟨hsources, ?_⟩
  rintro k o ⟨node, hnode, ho⟩
  have hlt := (List.getElem?_eq_some_iff.mp hnode).1
  have hmem := mem_of_getElem? hnode
  obtain ⟨output, outputArgNum, hturn, hstored⟩ := hstored k hlt node hnode o ho
  have hget := hturn.getElem?_eq htrailing hmem
  cases hstored with
  | own hbuffer => exact .inl hbuffer
  | shared w hchoice hbuffer =>
    refine .inr ⟨w, ⟨node, hnode,
      aliasable_subset node hchoice.mem_aliasable⟩, hbuffer.symm, .inl ?_⟩
    obtain ⟨⟨houtput, htensor⟩, kernelDef, hkernel, arg, halias, hindex⟩ :=
      hchoice
    exact .intro hmem hkernel hget houtput htensor halias hindex hturn.index_eq
  | overwritten w hchoice hbuffer hpermanent hlast =>
    have hread : ctx.ReadsAt k w := ⟨node, hnode, hchoice.mem_reads⟩
    have hlast' : ∀ v, ctx.Earlier k v → plan.bufferOf v = plan.bufferOf o →
        ∀ j > k, ¬ ctx.ReadsAt j v := fun v hv heq j hj hreadv =>
      hlast v (mem_defined_iff.mpr hv) heq (mem_uses_drop hj hreadv)
    refine .inr ⟨w, hread, hbuffer.symm, .inr ⟨⟨⟨node, outputArgNum, output,
      hnode, hget, hturn.exists_, hturn.index_eq, hchoice⟩, ?_, ?_,
      hlast' w (hresolved.earlier_of_readsAt hread) hbuffer.symm⟩, hlast'⟩⟩
    · intro hsource
      rw [permanentUses, if_pos hsource] at hpermanent
      omega
    · intro houtput
      have hcount := count_pos_iff.mpr houtput
      rw [permanentUses] at hpermanent
      omega
  | recycled hsequential => cases hparallel.symm.trans hsequential

section

variable {n : Nat} (h : PlacedPlan ctx plan) (hresolved : Resolved ctx)
include h hresolved

/-- A value is in the buffer of an earlier one that pairs link it to. -/
theorem PlacedPlan.linked (hv : ctx.Earlier k v) :
    ctx.Earlier k (plan.bufferOf v) ∧ ctx.MayShare (plan.bufferOf v) v := by
  -- By induction along the values the buffer was handed on from.
  induction k using Nat.strong_induction_on generalizing v with
  | _ k ih =>
    rcases id hv with hsource | ⟨j, hj, hproduced⟩
    · rw [h.source v hsource]
      exact ⟨hv, .refl v⟩
    · rcases h.output j v hproduced with hown | ⟨w, hread, hbuffer, hpair⟩
      · rw [hown]
        exact ⟨hv, .refl v⟩
      · obtain ⟨hearlier, hshare⟩ :=
          ih j hj (hresolved.earlier_of_readsAt hread)
        rw [hbuffer] at hearlier hshare
        refine ⟨mem_defined_iff.mp (mem_definedBefore_of_le (Nat.le_of_lt hj)
          (mem_defined_iff.mpr hearlier)), hshare.trans _ _ _ (.rel _ _ ?_)⟩
        exact hpair.imp_right fun hover => ⟨j, hover.1⟩

/-- A node that writes into the buffer of an earlier value does so over an
input, which no later node reads. -/
theorem PlacedPlan.overwrites (ho : ctx.WritesAt n o) (hv : ctx.Earlier n v)
    (hbuffer : plan.bufferOf v = plan.bufferOf o) :
    ∃ w, ctx.MayOverwrite n w o ∧ ctx.MayShare v w ∧
      ∀ j > n, ¬ ctx.ReadsAt j v := by
  obtain ⟨hearlier, hshare⟩ := h.linked hresolved hv
  rcases h.output n o ho.1 with hown | ⟨w, hread, hsame, halias | hover⟩
  · rw [hbuffer, hown] at hearlier
    exact absurd hearlier (hresolved.not_earlier_of_producedAt ho.1)
  · exact absurd halias (ho.2 w)
  · have hshare' := (h.linked hresolved
      (hresolved.earlier_of_readsAt hread)).2
    rw [hsame, ← hbuffer] at hshare'
    exact ⟨w, hover.1, (hshare.symm _ _).trans _ _ _ hshare',
      hover.2 v hv hbuffer⟩

/-- A value in the buffer that is available while the node runs precedes it in
the execution order. -/
theorem PlacedPlan.lt_of_available {run : Progress Nat}
    (hrun : ctx.ParallelRun run) (hwrites : ctx.WritesAt n o)
    (hrunning : n ∉ run.finished) {j : Nat} (hproduced : ctx.ProducedAt j v)
    (hfinished : j ∈ run.finished)
    (hbuffer : plan.bufferOf v = plan.bufferOf o) : j < n := by
  -- By induction along the values the buffer was handed on from.
  induction j using Nat.strong_induction_on generalizing v with
  | _ j ih =>
    by_contra hge
    have hne : j ≠ n := fun heq => hrunning (heq ▸ hfinished)
    rcases h.output j v hproduced with hown | ⟨w, hread, hinput, -⟩
    · have hearlier := (h.linked hresolved (k := n + 1) (v := o)
        (.inr ⟨n, Nat.lt_succ_self n, hwrites.1⟩)).1
      rw [← hbuffer, hown] at hearlier
      rcases hearlier with hsource | ⟨i, hlt, hi⟩
      · exact hresolved.not_earlier_of_producedAt hproduced (.inl hsource)
      · have heq := hresolved.producedAt_unique hproduced hi
        omega
    · have hsame := hinput.trans hbuffer
      have hearlier : ctx.Earlier n w := by
        rcases hresolved.earlier_of_readsAt hread with hsource | ⟨i, hlt, hi⟩
        · exact .inl hsource
        · have hdone : i ∈ run.finished := hrun.consistent.ready j
            (hrun.consistent.finished_started hfinished) i ⟨w, hi, hread⟩
          exact .inr ⟨i, ih i hlt hi hdone hsame, hi⟩
      obtain ⟨_, -, -, hlast⟩ := h.overwrites hresolved hwrites hearlier hsame
      exact hlast j (by omega) hread

end

def parallelChainContext : PlannerContext :=
  { chainContext with enableParallelExecution := true }

def parallelChainPlan : SequentialExecutionPlan :=
  okValue parallelChainContext.createPlan (by decide +kernel)

/-- In a chain all nodes are ordered. -/
theorem readersOrdered_parallelChain :
    parallelChainContext.ReadersOrdered := by
  have hedge : ∀ k < 5, parallelChainContext.DataEdge k (k + 1) := by
    intro k hk
    interval_cases k <;>
      exact ⟨_, ⟨_, rfl, mem_singleton_self _⟩, _, rfl, mem_singleton_self _⟩
  have hordered : ∀ m n, m + 1 ≤ n → n < 6 →
      parallelChainContext.Ordered m n := by
    intro m n hle
    induction n, hle using Nat.le_induction with
    | base => exact fun hlt => .single (hedge m (by omega))
    | succ n hle ih =>
      exact fun hlt => (ih (by omega)).tail (hedge n (by omega))
  intro n w o hover v _ _ m hlt _
  obtain ⟨node, _, _, hnode, -⟩ := hover.pair
  exact hordered m n hlt (List.getElem?_eq_some_iff.mp hnode).1

/-- Two nodes read `a`; one of them may overwrite it. -/
def forkGraph : Graph where
  nodes := [
    some { inputDefs := [⟨0, "x"⟩], outputDefs := [⟨1, "a"⟩],
           outputEdges := [⟨1, 0, 0⟩, ⟨2, 0, 0⟩] },
    some { inputDefs := [⟨1, "a"⟩], outputDefs := [⟨2, "c"⟩],
           inputEdges := [⟨0, 0, 0⟩], outputEdges := [⟨3, 0, 0⟩] },
    some { inputDefs := [⟨1, "a"⟩], outputDefs := [⟨3, "b"⟩],
           inputEdges := [⟨0, 0, 0⟩], outputEdges := [⟨4, 0, 0⟩] },
    some { inputDefs := [⟨2, "c"⟩], outputDefs := [⟨4, "z"⟩],
           inputEdges := [⟨1, 0, 0⟩] },
    some { inputDefs := [⟨3, "b"⟩], outputDefs := [⟨5, "y"⟩],
           inputEdges := [⟨2, 0, 0⟩] }]
  numOfNodes := 5
  nodeArgs := [⟨0, "x"⟩, ⟨1, "a"⟩, ⟨2, "c"⟩, ⟨3, "b"⟩, ⟨4, "z"⟩, ⟨5, "y"⟩]

/-- In the order of the viewer the node that may overwrite `a` comes behind the
other reader. -/
def forkNodes : List Node :=
  [unaryNode 0 "x" "a" {}, unaryNode 2 "a" "b" {}, unaryNode 4 "b" "y" {},
    unaryNode 1 "a" "c" { inplaceMap := [(0, 0)] }, unaryNode 3 "c" "z" {}]

def forkContext : PlannerContext where
  graph :=
    { inputs := [vectorArg "x"]
      outputs := [vectorArg "y", vectorArg "z"]
      initializers := []
      nodes := forkNodes
      nodesInTopologicalOrder := forkNodes }
  cpuProvider := cpuExecutionProvider
  names := ["x", "a", "b", "c", "y", "z"]
  elementSize := ElemType.size
  enableParallelExecution := true

def forkPlan : SequentialExecutionPlan :=
  okValue forkContext.createPlan (by decide +kernel)

theorem resolved_forkContext : Resolved forkContext :=
  ⟨by decide +kernel, by decide +kernel, by decide +kernel⟩

/-- It can start before the other reader. -/
theorem parallelRun_fork : forkContext.ParallelRun ⟨[3, 0], [0]⟩ := by
  have hstep : ∀ k < 5, forkContext.IsStep k := fun k hk => hk
  have hfirst : forkContext.ParallelRun ⟨[0], []⟩ := by
    refine .tail .refl
      (.start (hstep 0 (by decide)) (by decide) fun j hedge => ?_)
    exact absurd (resolved_forkContext.lt_of_dataEdge hedge) (Nat.not_lt_zero j)
  have hdone : forkContext.ParallelRun ⟨[0], [0]⟩ :=
    hfirst.tail (.finish (mem_singleton_self 0) (by decide))
  refine hdone.tail (.start (hstep 3 (by decide)) (by decide) ?_)
  rintro j ⟨v, hproduced, node, hnode, hv⟩
  cases hnode
  obtain rfl : v = 1 := mem_singleton.mp hv
  have hfirstOutput : forkContext.ProducedAt 0 1 :=
    ⟨_, rfl, by decide +kernel⟩
  rw [resolved_forkContext.producedAt_unique hproduced hfirstOutput]
  exact mem_singleton_self 0

end PlannerContext

end OnnxRuntime
