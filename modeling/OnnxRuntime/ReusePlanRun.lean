/-
The second pass of the allocation planner along the execution order: outputs
are placed, uses are dropped, and the counts stay exact.
-/
import OnnxRuntime.DeallocationPlan
import OnnxRuntime.ReusePlan

namespace OnnxRuntime

open List Function PlannerImpl

namespace PlannerContext

variable {ctx : PlannerContext}

/-- `o` shares the bytes of `v` by an alias pair. -/
inductive AliasOf (ctx : PlannerContext) : MLValueIndex → MLValueIndex → Prop
  | intro {node : Node} {kernelDef : KernelDef} {position : Nat}
      {output arg : NodeArg} {v o : MLValueIndex}
      (hnode : node ∈ ctx.graph.nodesInTopologicalOrder)
      (hkernel : node.kernelDef = some kernelDef)
      (hget : node.outputDefs[position]? = some output)
      (houtput : output.name ∉ ctx.graph.outputs.map NodeArg.name)
      (htensor : ∃ elem, output.type = some (.tensorType elem))
      (halias : findAlias node.inputDefs position kernelDef.aliasMap = some arg)
      (hv : ctx.names.idxOf? arg.name = some v)
      (ho : ctx.names.idxOf? output.name = some o) : AliasOf ctx v o

/-- The values that have the same bytes through alias pairs. -/
def SameBytes (ctx : PlannerContext) : MLValueIndex → MLValueIndex → Prop :=
  Relation.EqvGen ctx.AliasOf

/-- A relation of values that may share a buffer: it holds between an alias
and its input, and unless it holds of all values, no pairs of a kernel
compete for an input and only trailing outputs are missing. -/
structure Sharing (ctx : PlannerContext)
    (same : MLValueIndex → MLValueIndex → Prop) : Prop where
  equivalence : Equivalence same
  of_alias : ∀ v o, AliasOf ctx v o → same v o
  distinct : DistinctPairs ctx ∧ TrailingOutputs ctx ∨ ∀ v w, same v w

theorem sharing_sameBytes (hdistinct : DistinctPairs ctx)
    (htrailing : TrailingOutputs ctx) : Sharing ctx ctx.SameBytes where
  equivalence := Relation.EqvGen.is_equivalence ctx.AliasOf
  of_alias := Relation.EqvGen.rel
  distinct := .inl ⟨hdistinct, htrailing⟩

/-- All values may share: only the counts are of interest. -/
theorem sharing_true (ctx : PlannerContext) : Sharing ctx fun _ _ => True where
  equivalence := ⟨fun _ => trivial, fun _ => trivial, fun _ _ => trivial⟩
  of_alias _ _ _ := trivial
  distinct := .inr fun _ _ => trivial

variable {same : MLValueIndex → MLValueIndex → Prop}

/-- The values some node writes. -/
def Writable (ctx : PlannerContext) (v : MLValueIndex) : Prop :=
  v ∈ ctx.graph.nodesInTopologicalOrder.flatMap ctx.writes

/-- The state of the planner while it places the outputs of a node; `pending`
are the uses after the inputs of the node. -/
structure Placing (ctx : PlannerContext)
    (same : MLValueIndex → MLValueIndex → Prop) (node : Node)
    (pending log : List MLValueIndex) (s : PlannerImpl) : Prop where
  writing : Buffers.Writing same ctx.sources ctx.Writable
    (fun v => ctx.permanentUses v + (ctx.reads node ++ pending).count v)
    (fun v => ctx.permanentUses v + pending.count v) (ctx.aliasable node)
    (s.buffers log)
  plan_eq : ∀ v ∈ log ++ ctx.sources, s.planBuffer v = s.buffer v

/-- What the planner has decided stays. -/
structure Keeps (defined : List MLValueIndex) (s s' : PlannerImpl) : Prop where
  buffer_eq : ∀ v ∈ defined, s'.buffer v = s.buffer v
  plan_eq : ∀ v ∈ defined, s'.planBuffer v = s.planBuffer v

theorem Keeps.refl (defined : List MLValueIndex) (s : PlannerImpl) :
    Keeps defined s s :=
  ⟨fun _ _ => rfl, fun _ _ => rfl⟩

variable {s s' : PlannerImpl} {node : Node} {pending log : List MLValueIndex}
  {outputArgNum : Nat} {front outputs : List NodeArg}

theorem Keeps.trans {defined defined' : List MLValueIndex} {s'' : PlannerImpl}
    (h : Keeps defined s s') (h' : Keeps defined' s' s'')
    (hsub : defined ⊆ defined') :
    Keeps defined s s'' where
  buffer_eq v hv := (h'.buffer_eq v (hsub hv)).trans (h.buffer_eq v hv)
  plan_eq v hv := (h'.plan_eq v (hsub hv)).trans (h.plan_eq v hv)

/-- The turn of an output in the loop over the outputs of a node. -/
structure Turn (ctx : PlannerContext) (node : Node) (output : NodeArg)
    (outputArgNum : Nat) (current : MLValueIndex) : Prop where
  exists_ : output.Exists
  index_eq : ctx.names.idxOf? output.name = some current
  split : ∃ before after, node.outputDefs = before ++ output :: after ∧
    outputArgNum = numberOf before

variable {output : NodeArg} {current : MLValueIndex}

theorem Turn.mem_writes (h : Turn ctx node output outputArgNum current) :
    current ∈ ctx.writes node := by
  obtain ⟨before, after, hsplit, -⟩ := h.split
  exact mem_indices.mpr ⟨output, by simp [hsplit], h.exists_, h.index_eq⟩

/-- As only trailing outputs are missing, the number of an output is its
position. -/
theorem Turn.getElem?_eq (h : Turn ctx node output outputArgNum current)
    (htrailing : TrailingOutputs ctx)
    (hnode : node ∈ ctx.graph.nodesInTopologicalOrder) :
    node.outputDefs[outputArgNum]? = some output := by
  obtain ⟨before, after, hsplit, rfl⟩ := h.split
  have hpairwise := htrailing node hnode
  rw [hsplit, pairwise_append] at hpairwise
  have hnumber : numberOf before = before.length :=
    countP_eq_length.mpr fun other hother => decide_eq_true
      (hpairwise.2.2 other hother output mem_cons_self h.exists_)
  rw [hsplit, hnumber]
  simp

/-- An input that an output overwrites is not aliased by another output. -/
theorem Placing.not_aliased (hdistinct : DistinctPairs ctx)
    (hnode : node ∈ ctx.graph.nodesInTopologicalOrder)
    (h : Placing ctx same node pending log s) {w : MLValueIndex}
    (hchoice : InplaceChoice ctx node output outputArgNum w)
    (hw : w ∈ (s.buffers log).defined ctx.sources)
    (hcount : s.useCount (s.buffer w) = 1) :
    ∀ x ∈ ctx.aliasable node, s.buffer x ≠ s.buffer w := by
  intro x hx hbuf
  obtain ⟨-, kernelDef, hkernel, -, _, -, pair, hpair, -, arg, hinput, hindex,
    -⟩ := id hchoice
  obtain ⟨kernelDef', hkernel', pair', hpair', arg', harg', hindex'⟩ :=
    mem_aliasable.mp hx
  rw [hkernel] at hkernel'
  cases hkernel'
  have hread := hchoice.mem_reads
  obtain ⟨hxdef, hxrem⟩ := h.writing.open_defined x hx
  by_cases hne : x = w
  · subst hne
    have hdistinct : pair'.1 ≠ pair.1 := by
      have hnodup := hdistinct node hnode kernelDef hkernel
      rw [map_append, nodup_append] at hnodup
      exact hnodup.2.2 _ (mem_map_of_mem hpair') _ (mem_map_of_mem hpair)
    obtain ⟨hpos, hget, hexists⟩ := pairInput_eq_some hinput
    obtain ⟨hpos', hget', hexists'⟩ := pairInput_eq_some harg'
    have htwice : 2 ≤ (ctx.indices node.inputDefs).count x := by
      rcases Nat.lt_or_gt_of_ne
        (show pair'.1.toNat ≠ pair.1.toNat by omega) with hlt | hlt
      · exact two_le_count_indices hlt hget' hget ⟨hexists', hexists⟩
          hindex' hindex
      · exact two_le_count_indices hlt hget hget' ⟨hexists, hexists'⟩
          hindex hindex'
    have hle : ((ctx.permanentUses x + (ctx.reads node ++ pending).count x :
        Nat) : Int) ≤ s.useCount (s.buffer x) :=
      h.writing.accounted.rem_le_count hw
    rw [reads, indices_append, count_append, count_append] at hle
    omega
  · have hboth : ((ctx.permanentUses x +
        (ctx.reads node ++ pending).count x : Nat) : Int) +
        ((ctx.permanentUses w + (ctx.reads node ++ pending).count w : Nat) :
          Int) ≤ s.useCount (s.buffer w) :=
      h.writing.accounted.add_le_count hxdef hw hne hbuf
    have hwpos := count_pos_iff.mpr hread
    have hwpos' : 0 < (ctx.reads node ++ pending).count w := by
      rw [count_append]
      omega
    omega

theorem map_erase_mlValue {items : List FreeBufferInfo}
    (hnodup : (items.map FreeBufferInfo.mlValue).Nodup) {item : FreeBufferInfo}
    (hmem : item ∈ items) :
    (items.erase item).map FreeBufferInfo.mlValue =
      (items.map FreeBufferInfo.mlValue).erase item.mlValue := by
  induction items with
  | nil => exact nomatch hmem
  | cons head rest ih =>
    obtain ⟨hhead, hrest⟩ := nodup_cons.mp hnodup
    by_cases heq : head = item
    · simp [heq]
    · have hitem := (mem_cons.mp hmem).resolve_left (Ne.symm heq)
      have hne : head.mlValue ≠ item.mlValue := fun hvalue =>
        hhead (hvalue ▸ mem_map_of_mem hitem)
      rw [erase_cons_tail (by simpa using heq), map_cons,
        map_cons, erase_cons_tail (by simpa using hne),
        ih hrest hitem]

/-- One output is placed. -/
theorem Placing.planOutput (hsharing : Sharing ctx same)
    (hnode : node ∈ ctx.graph.nodesInTopologicalOrder)
    (h : Placing ctx same node pending log s)
    (hreads : ∀ v ∈ ctx.reads node, v ∈ (s.buffers log).defined ctx.sources)
    (hturn : Turn ctx node output outputArgNum current)
    (hnew : current ∉ (s.buffers log).defined ctx.sources)
    (hplaced : OutputPlaced ctx node s output outputArgNum current s')
    (hothers : ∀ v, v ≠ current → s'.allocPlan v = s.allocPlan v) :
    Placing ctx same node pending (current :: log) s' ∧
      Keeps (log ++ ctx.sources) s s' ∧ s'.freelist.Sublist s.freelist := by
  have hwritable : ctx.Writable current :=
    mem_flatMap.mpr ⟨node, hnode, hturn.mem_writes⟩
  have hne : ∀ v ∈ log ++ ctx.sources, v ≠ current := fun v hv heq =>
    hnew (heq ▸ hv)
  -- Whatever buffer is chosen, the plan names it and nothing else changes.
  have hfinish : Buffers.Writing same ctx.sources ctx.Writable
        (fun v => ctx.permanentUses v + (ctx.reads node ++ pending).count v)
        (fun v => ctx.permanentUses v + pending.count v)
        (ctx.aliasable node) (s'.buffers (current :: log)) →
      (∀ v, v ≠ current → s'.buffer v = s.buffer v) →
      s'.planBuffer current = s'.buffer current →
      s'.freelist.Sublist s.freelist →
      Placing ctx same node pending (current :: log) s' ∧
        Keeps (log ++ ctx.sources) s s' ∧
        s'.freelist.Sublist s.freelist := by
    intro hwriting hbuffer hplan hfree
    have hplanBuffer : ∀ v ∈ log ++ ctx.sources,
        s'.planBuffer v = s.planBuffer v := fun v hv => by
      rw [planBuffer, hothers v (hne v hv), planBuffer]
    refine ⟨⟨hwriting, ?_⟩, ⟨fun v hv => hbuffer v (hne v hv),
      hplanBuffer⟩, hfree⟩
    intro v hv
    rcases mem_cons.mp hv with rfl | hv
    · exact hplan
    · rw [hplanBuffer v hv, h.plan_eq v hv, hbuffer v (hne v hv)]
  have hattached : ∀ {t : PlannerImpl} {w : MLValueIndex}, t.buffer = s.buffer →
      s'.buffers (current :: log) = (t.buffers log).attach current w →
      (∀ v, v ≠ current → s'.buffer v = s.buffer v) ∧
        s'.buffer current = s.buffer w := by
    intro t w ht hbuffers
    have hbuf : s'.buffer = Function.update t.buffer current (t.buffer w) :=
      congrArg Buffers.buf hbuffers
    rw [hbuf, ht]
    exact ⟨fun v hv => by simp [hv], by simp⟩
  have hle : ∀ v, ctx.permanentUses v + pending.count v ≤
      ctx.permanentUses v + (ctx.reads node ++ pending).count v := by
    intro v
    rw [count_append]
    omega
  rcases hplaced with ⟨hbuffers, hfree, hplan⟩ |
    ⟨reused, hchoice, hbuffers, hfree, hplan⟩ |
    ⟨reused, hchoice, hcount, hbuffers, hfree, hplan⟩ |
    ⟨item, hmem, -, hbuffers, hfree, hplan⟩
  · have hbuffer : s'.buffer = s.buffer := congrArg Buffers.buf (hbuffers log)
    refine hfinish ?_ (fun v _ => by rw [hbuffer]) ?_ (hfree ▸ .refl _)
    · rw [hbuffers]
      exact h.writing.fresh hsharing.equivalence hwritable hnew
    · rw [hplan, hbuffer]
      exact (h.writing.accounted.own current hwritable hnew).1.symm
  · obtain ⟨hold, hcur⟩ := hattached rfl (hbuffers log)
    refine hfinish ?_ hold (hplan.trans hcur.symm) (hfree ▸ .refl _)
    rw [hbuffers]
    refine h.writing.share hsharing.equivalence hwritable hnew
      hchoice.mem_aliasable ?_
    rcases hsharing.distinct with ⟨-, htrailing⟩ | hall
    · obtain ⟨⟨houtput, htensor⟩, kernelDef, hkernel, arg, halias, hreused⟩ :=
        hchoice
      exact hsharing.of_alias _ _ (.intro hnode hkernel
        (hturn.getElem?_eq htrailing hnode) houtput htensor halias hreused
        hturn.index_eq)
    · exact hall reused current
  · obtain ⟨hold, hcur⟩ := hattached rfl (hbuffers log)
    refine hfinish ?_ hold (hplan.trans hcur.symm) (hfree ▸ .refl _)
    rw [hbuffers]
    have hread := hchoice.mem_reads
    have hdefined := hreads reused hread
    have hpos : ctx.permanentUses reused + pending.count reused <
        ctx.permanentUses reused +
          (ctx.reads node ++ pending).count reused := by
      have hcountRead := count_pos_iff.mpr hread
      rw [count_append]
      omega
    rcases hsharing.distinct with ⟨hdistinct, -⟩ | hall
    · exact h.writing.overwrite hsharing.equivalence hwritable hnew hdefined
        hpos hle hcount (h.not_aliased hdistinct hnode hchoice hdefined hcount)
    · exact h.writing.attach hsharing.equivalence hwritable hnew hdefined
        (h.writing.accounted.not_mem_free hdefined (Nat.zero_lt_of_lt hpos))
        (fun u _ _ _ => hall u current) (fun x _ _ => hall current x)
  · obtain ⟨hold, hcur⟩ := hattached (t := { s with
      freelist := s.freelist.erase item }) rfl (hbuffers log)
    refine hfinish ?_ hold (hplan.trans hcur.symm) (hfree ▸ erase_sublist)
    have hrecycle : s'.buffers (current :: log) =
        (s.buffers log).recycle current item.mlValue := by
      rw [hbuffers]
      have hfreed := map_erase_mlValue h.writing.accounted.free_nodup hmem
      rw [buffers, hfreed]
      rfl
    rw [hrecycle]
    exact h.writing.recycle hsharing.equivalence hwritable hnew
      (mem_map_of_mem hmem) hle

/-- A round of the loop over the outputs of a node. -/
structure Round (ctx : PlannerContext)
    (same : MLValueIndex → MLValueIndex → Prop) (node : Node)
    (pending log : List MLValueIndex) (s : PlannerImpl) (output : NodeArg)
    (outputArgNum : Nat) (current : MLValueIndex) (s' : PlannerImpl) :
    Prop where
  turn : Turn ctx node output outputArgNum current
  placing : Placing ctx same node pending log s
  reads : ∀ v ∈ ctx.reads node, v ∈ log ++ ctx.sources
  new : current ∉ log ++ ctx.sources
  placed : OutputPlaced ctx node s output outputArgNum current s'
  keeps : Keeps (log ++ ctx.sources) s s'

/-- All outputs are placed.  `motive` is anything that a round keeps. -/
theorem Placing.planOutputs (hsharing : Sharing ctx same)
    (hnode : node ∈ ctx.graph.nodesInTopologicalOrder)
    (h : Placing ctx same node pending log s)
    (hreads : ∀ v ∈ ctx.reads node, v ∈ log ++ ctx.sources)
    (hsplit : node.outputDefs = front ++ outputs)
    (hnodup : (ctx.indices outputs).Nodup)
    (hnew : ∀ v ∈ ctx.indices outputs, v ∉ log ++ ctx.sources)
    {motive : List MLValueIndex → PlannerImpl → Prop}
    (hmotive : ∀ log s s' output outputArgNum current,
      Round ctx same node pending log s output outputArgNum current s' →
      motive log s → motive (current :: log) s') (hs : motive log s)
    (hrun : ctx.planOutputs node s (numberOf front) outputs = .ok s') :
    (Placing ctx same node pending ((ctx.indices outputs).reverse ++ log) s' ∧
      Keeps (log ++ ctx.sources) s s' ∧ s'.freelist.Sublist s.freelist) ∧
      motive ((ctx.indices outputs).reverse ++ log) s' := by
  induction outputs generalizing front log s with
  | nil =>
    cases hrun
    exact ⟨⟨h, .refl _ _, .refl _⟩, hs⟩
  | cons output outputs ih =>
    have hsplit' : node.outputDefs = (front ++ [output]) ++ outputs := by
      rw [hsplit, append_assoc]
      rfl
    have hnumber : numberOf (front ++ [output]) =
        numberOf front + if output.Exists then 1 else 0 := by
      simp [numberOf, countP_append, countP_singleton]
    rw [planOutputs_cons] at hrun
    rw [indices_cons] at hnodup hnew ⊢
    by_cases hexists : output.Exists
    · rw [if_pos hexists] at hrun hnodup hnew hnumber ⊢
      obtain ⟨mid, hmid, hrest⟩ := except_bind_eq_ok.mp hrun
      obtain ⟨current, hcurrent, hplaced, hothers⟩ := planOutput_cases hmid
      rw [hcurrent] at hnodup hnew ⊢
      have hturn : Turn ctx node output (numberOf front) current :=
        ⟨hexists, hcurrent, front, outputs, hsplit, rfl⟩
      have hfresh := hnew current (by simp)
      obtain ⟨hplacing, hkeeps, hsub⟩ :=
        h.planOutput hsharing hnode hreads hturn hfresh hplaced hothers
      obtain ⟨hfirst, hnodup⟩ := nodup_cons.mp hnodup
      obtain ⟨⟨hlast, hkeeps', hsub'⟩, hend⟩ := ih hplacing
        (fun v hv => mem_cons_of_mem _ (hreads v hv)) hsplit' hnodup
        (fun v hv hmem => by
          rcases mem_cons.mp hmem with rfl | hmem
          · exact hfirst hv
          · exact hnew v (mem_cons_of_mem _ hv) hmem)
        (hmotive _ _ _ _ _ _ ⟨hturn, h, hreads, hfresh, hplaced, hkeeps⟩ hs)
        (hnumber ▸ hrest)
      refine ⟨⟨?_, hkeeps.trans hkeeps' (subset_cons_self _ _),
        hsub'.trans hsub⟩, ?_⟩
      · simpa using hlast
      · simpa using hend
    · rw [if_neg hexists] at hrun hnodup hnew hnumber ⊢
      exact ih h hreads hsplit' hnodup hnew hs (hnumber ▸ hrun)

end PlannerContext

/-- One use of a value has taken place at a step. -/
def PlannerImpl.releaseAt (point : Nat) (s : PlannerImpl)
    (index : MLValueIndex) : PlannerImpl :=
  let dropped := s.addUses (s.buffer index) (-1)
  if dropped.useCount (s.buffer index) = 0 then
    { dropped with
      freelist := ⟨s.buffer index, point⟩ :: dropped.freelist }
  else dropped

namespace PlannerImpl

variable {s : PlannerImpl} (point : Nat)

theorem buffers_releaseAt (index : MLValueIndex) (log : List MLValueIndex) :
    (s.releaseAt point index).buffers log = (s.buffers log).drop index := by
  have hbuffer : (s.addUses (s.buffer index) (-1)).buffer = s.buffer := by
    funext v
    exact buffer_addUses s (s.buffer index) v (-1)
  have hcount : (s.addUses (s.buffer index) (-1)).useCount =
      Function.update s.useCount (s.buffer index)
        (s.useCount (s.buffer index) - 1) := by
    funext v
    rw [useCount_addUses, update_apply]
    rfl
  rw [releaseAt]
  split
  · rename_i hzero
    rw [hcount, update_self] at hzero
    exact Buffers.ext hbuffer hcount (if_pos hzero).symm rfl
  · rename_i hpos
    rw [hcount, update_self] at hpos
    exact Buffers.ext hbuffer hcount (if_neg hpos).symm rfl

theorem allocPlan_releaseAt (index : MLValueIndex) :
    (s.releaseAt point index).allocPlan = s.allocPlan := by
  rw [releaseAt]
  split <;> rfl

theorem freelist_releaseAt (index : MLValueIndex) :
    (s.releaseAt point index).freelist = s.freelist ∨
      ∃ b, (s.releaseAt point index).freelist = ⟨b, point⟩ :: s.freelist := by
  rw [releaseAt]
  split
  · exact .inr ⟨s.buffer index, rfl⟩
  · exact .inl rfl

theorem buffers_foldl_releaseAt (used log : List MLValueIndex) :
    (used.foldl (releaseAt point) s).buffers log =
      used.foldl Buffers.drop (s.buffers log) := by
  induction used generalizing s with
  | nil => rfl
  | cons index rest ih =>
    rw [foldl_cons, foldl_cons, ih, buffers_releaseAt]

theorem allocPlan_foldl_releaseAt (used : List MLValueIndex) :
    (used.foldl (releaseAt point) s).allocPlan = s.allocPlan := by
  induction used generalizing s with
  | nil => rfl
  | cons index rest ih => rw [foldl_cons, ih, allocPlan_releaseAt]

theorem planBuffer_foldl_releaseAt (used : List MLValueIndex) :
    (used.foldl (releaseAt point) s).planBuffer = s.planBuffer := by
  funext v
  rw [planBuffer, allocPlan_foldl_releaseAt, planBuffer]

theorem freelist_foldl_releaseAt (used : List MLValueIndex) :
    ∃ added, (used.foldl (releaseAt point) s).freelist = added ++ s.freelist ∧
        ∀ item ∈ added, item.deallocatePoint = point := by
  induction used using reverseRecOn with
  | nil => exact ⟨[], rfl, by simp⟩
  | append_singleton used index ih =>
    obtain ⟨added, hadded, hpoint⟩ := ih
    rw [foldl_concat]
    rcases freelist_releaseAt (s := used.foldl (releaseAt point) s) point
      index with hsame | ⟨b, hcons⟩
    · exact ⟨added, hsame.trans hadded, hpoint⟩
    · refine ⟨⟨b, point⟩ :: added, ?_, ?_⟩
      · rw [hcons, hadded]
        rfl
      · intro item hitem
        rcases mem_cons.mp hitem with rfl | hitem
        · rfl
        · exact hpoint item hitem

end PlannerImpl

namespace PlannerContext

variable {ctx : PlannerContext} {same : MLValueIndex → MLValueIndex → Prop}
  {point : Nat} {s s' final : PlannerImpl} {node : Node}
  {front back : List Node}

theorem foldlM_releaseUse {args : List NodeArg}
    (h : args.foldlM (ctx.releaseUse point) s = .ok s') :
    s' = (ctx.indices args).foldl (releaseAt point) s := by
  refine foldlM_indices (fun s arg => ?_) h
  rw [releaseUse]
  split
  · congr 1
    funext index
    rw [releaseAt]
    dsimp only
    split <;> rfl
  · rfl

/-- A step of the second pass: outputs are placed, then uses are dropped. -/
theorem planNode_eq_ok (h : ctx.planNode s (node, point) = .ok s') :
    ∃ placed, ctx.planOutputs node s 0 node.outputDefs = .ok placed ∧
      s' = (ctx.reads node ++ ctx.writes node).foldl
        (releaseAt point) placed := by
  simp only [planNode, except_bind_eq_ok] at h
  obtain ⟨placed, hplaced, explicit, hexplicit, implicit, himplicit, h⟩ := h
  refine ⟨placed, hplaced, ?_⟩
  rw [foldlM_releaseUse h, foldlM_releaseUse himplicit, foldlM_releaseUse
    hexplicit, foldl_append, reads, indices_append, foldl_append, writes]

/-- The state of the planner between two steps. -/
structure Planned (ctx : PlannerContext)
    (same : MLValueIndex → MLValueIndex → Prop) (front back : List Node)
    (s : PlannerImpl) : Prop where
  settled : Buffers.Settled same ctx.sources ctx.Writable
    ctx.permanentUses (ctx.uses back)
    (s.buffers (front.flatMap ctx.writes).reverse)
  plan_eq : ∀ v ∈ (front.flatMap ctx.writes).reverse ++ ctx.sources,
    s.planBuffer v = s.buffer v
  chronological : Chronological s.freelist.reverse
  point_lt : ∀ item ∈ s.freelist, item.deallocatePoint < front.length

/-- What later steps leave as it is. -/
structure Later (defined : List MLValueIndex) (point : Nat)
    (s s' : PlannerImpl) : Prop where
  keeps : Keeps defined s s'
  freed : ∀ item ∈ s'.freelist, item ∈ s.freelist ∨ point ≤ item.deallocatePoint

theorem keeps_foldl_releaseAt (point : Nat) (used defined : List MLValueIndex)
    (s : PlannerImpl) :
    Keeps defined s (used.foldl (releaseAt point) s) := by
  have hbuffers := buffers_foldl_releaseAt (s := s) point used []
  have hbuffer : (used.foldl (releaseAt point) s).buffer =
      s.buffer :=
    (congrArg Buffers.buf hbuffers).trans (Buffers.foldl_drop_buf _)
  constructor
  · intro v _
    rw [hbuffer]
  · intro v _
    rw [planBuffer_foldl_releaseAt]

section

variable (hresolved : Resolved ctx)
    (hsplit : ctx.graph.nodesInTopologicalOrder = front ++ node :: back)
include hresolved hsplit

theorem Resolved.reads_defined : ∀ v ∈ ctx.reads node,
      v ∈ (front.flatMap ctx.writes).reverse ++ ctx.sources := by
  intro v hv
  have hmem := hresolved.reads_subset hsplit hv
  rw [mem_append] at hmem ⊢
  rw [mem_reverse]
  exact hmem.symm

theorem Resolved.writes_not_defined : ∀ v ∈ ctx.writes node,
      v ∉ (front.flatMap ctx.writes).reverse ++ ctx.sources := by
  intro v hv hmem
  apply ((hresolved.writes_new hsplit).2 v hv).2
  rw [mem_append, mem_reverse] at hmem
  exact mem_append.mpr hmem.symm

/-- Before its outputs are placed, the uses of a node are still counted. -/
theorem Planned.placing (h : Planned ctx same front (node :: back) s) :
    Placing ctx same node (ctx.writes node ++ ctx.uses back)
      (front.flatMap ctx.writes).reverse s := by
  have huses : ctx.uses (node :: back) =
      ctx.reads node ++ (ctx.writes node ++ ctx.uses back) := by
    simp [uses]
  have hsettled := h.settled
  rw [huses] at hsettled
  exact ⟨hsettled.writing (hresolved.reads_defined hsplit)
    (aliasable_subset node), h.plan_eq⟩

/-- The outputs of a node are placed. -/
theorem Planned.planOutputs (hsharing : Sharing ctx same)
    {placed : PlannerImpl} (h : Planned ctx same front (node :: back) s)
    {motive : List MLValueIndex → PlannerImpl → Prop}
    (hmotive : ∀ log s s' output outputArgNum current,
      Round ctx same node (ctx.writes node ++ ctx.uses back) log s output
        outputArgNum current s' → motive log s → motive (current :: log) s')
    (hs : motive (front.flatMap ctx.writes).reverse s)
    (hrun : ctx.planOutputs node s 0 node.outputDefs = .ok placed) :
    (Placing ctx same node (ctx.writes node ++ ctx.uses back)
        ((front ++ [node]).flatMap ctx.writes).reverse placed ∧
      Keeps ((front.flatMap ctx.writes).reverse ++ ctx.sources) s placed ∧
      placed.freelist.Sublist s.freelist) ∧
      motive ((front ++ [node]).flatMap ctx.writes).reverse placed := by
  have hnode : node ∈ ctx.graph.nodesInTopologicalOrder := by simp [hsplit]
  have hlog : ((front ++ [node]).flatMap ctx.writes).reverse =
      (ctx.writes node).reverse ++ (front.flatMap ctx.writes).reverse := by
    simp
  rw [hlog]
  exact (h.placing hresolved hsplit).planOutputs hsharing hnode
    (hresolved.reads_defined hsplit) (nil_append _).symm
    (hresolved.writes_new hsplit).1 (hresolved.writes_not_defined hsplit)
    hmotive hs hrun

/-- What a node uses is there once its outputs are placed. -/
theorem Resolved.uses_defined : ∀ v ∈ ctx.reads node ++ ctx.writes node,
      v ∈ ((front ++ [node]).flatMap ctx.writes).reverse ++ ctx.sources := by
  intro v hv
  rcases mem_append.mp hv with hv | hv
  · have hmem := hresolved.reads_defined hsplit v hv
    simp only [flatMap_append, mem_append, mem_reverse] at hmem ⊢
    tauto
  · simp [hv]

/-- One step of the second pass. -/
theorem Planned.planNode (hsharing : Sharing ctx same)
    (h : Planned ctx same front (node :: back) s)
    (hrun : ctx.planNode s (node, front.length) = .ok s') :
    Planned ctx same (front ++ [node]) back s' ∧
      Later ((front.flatMap ctx.writes).reverse ++ ctx.sources) front.length
        s s' := by
  obtain ⟨placed, hplaced, rfl⟩ := planNode_eq_ok hrun
  obtain ⟨⟨hplacing, hkeeps, hsub⟩, -⟩ := h.planOutputs hresolved hsplit
    hsharing (motive := fun _ _ => True) (fun _ _ _ _ _ _ _ _ => trivial)
    trivial hplaced
  have hbuffers := buffers_foldl_releaseAt (s := placed)
    front.length (ctx.reads node ++ ctx.writes node)
    ((front ++ [node]).flatMap ctx.writes).reverse
  obtain ⟨added, hadded, hpoint⟩ := freelist_foldl_releaseAt
    (s := placed) front.length (ctx.reads node ++ ctx.writes node)
  have hreleased : ∀ defined, Keeps defined placed
      ((ctx.reads node ++ ctx.writes node).foldl
        (releaseAt front.length) placed) := fun defined =>
    keeps_foldl_releaseAt front.length _ defined placed
  generalize (ctx.reads node ++ ctx.writes node).foldl
    (releaseAt front.length) placed = s' at *
  have hkept : ∀ item ∈ placed.freelist,
      item.deallocatePoint < front.length := fun item hitem =>
    h.point_lt item (hsub.subset hitem)
  refine ⟨⟨?_, ?_, ?_, ?_⟩, hkeeps.trans (hreleased _) (.refl _), ?_⟩
  · rw [hbuffers]
    exact hplacing.writing.settled (hresolved.uses_defined hsplit)
  · intro v hv
    rw [(hreleased _).plan_eq v hv, (hreleased _).buffer_eq v hv]
    exact hplacing.plan_eq v hv
  · rw [hadded, Chronological, pairwise_reverse]
    refine pairwise_append.mpr ⟨?_, ?_, ?_⟩
    · refine pairwise_iff_forall_sublist.mpr fun {left right} hpair => ?_
      rw [hpoint left (hpair.subset (by simp)),
        hpoint right (hpair.subset (by simp))]
    · exact (pairwise_reverse.mp h.chronological).sublist hsub
    · intro left hleft right hright
      rw [hpoint left hleft]
      exact Nat.le_of_lt (hkept right hright)
  · intro item hitem
    rw [length_append]
    rw [hadded, mem_append] at hitem
    rcases hitem with hitem | hitem
    · rw [hpoint item hitem]
      exact Nat.lt_succ_self _
    · exact Nat.lt_succ_of_lt (hkept item hitem)
  · intro item hitem
    rw [hadded, mem_append] at hitem
    rcases hitem with hitem | hitem
    · exact .inr (hpoint item hitem).ge
    · exact .inl (hsub.subset hitem)

end

/-- Values that exist beforehand keep their buffers when their plans are
set up. -/
theorem Untouched.setup {inputs outer : PlannerImpl} (hs : Untouched s)
    (hinputs : ctx.graph.inputs.foldlM ctx.setupPreexisting s = .ok inputs)
    (houter : ctx.outerScopeNodeArgs.foldlM ctx.setupPreexisting inputs =
      .ok outer) (hweights : ctx.generatePlanForWeights outer = .ok s') :
    s'.mlValueInfo = s.mlValueInfo ∧ Untouched s' := by
  let motive (t : PlannerImpl) := t.mlValueInfo = s.mlValueInfo ∧ Untouched t
  have hstep : ∀ t t' arg, motive t → ctx.setupPreexisting t arg = .ok t' →
      motive t' := by
    rintro t t' arg ⟨hinfo, huntouched⟩ hrun
    obtain ⟨index, _, hrun⟩ := except_bind_eq_ok.mp hrun
    split at hrun
    · cases hrun
    · cases hrun
      exact ⟨hinfo, huntouched.setPlan (by simp)⟩
  have hweight : ∀ node t t' input, motive t →
      ctx.planWeight node t input = .ok t' → motive t' := by
    rintro node t t' input ⟨hinfo, huntouched⟩ hrun
    rw [planWeight] at hrun
    split at hrun
    · obtain ⟨index, _, hrun⟩ := except_bind_eq_ok.mp hrun
      split at hrun
      · cases hrun
      · cases hrun
      · cases hrun
        exact ⟨hinfo, huntouched.setPlan (by simp)⟩
    · cases hrun
      exact ⟨hinfo, huntouched⟩
  have hfirst := foldlM_preserves (motive := motive)
    (fun t t' arg _ => hstep t t' arg) ⟨rfl, hs⟩ hinputs
  have hsecond := foldlM_preserves (fun t t' arg _ => hstep t t' arg)
    hfirst houter
  exact foldlM_preserves (fun t t' node _ ht hrun => foldlM_preserves
    (fun t t' input _ => hweight node t t' input) ht hrun) hsecond hweights

theorem Untouched.planBuffer_eq (h : Untouched s) (v : MLValueIndex) :
    s.planBuffer v = v := by
  rw [planBuffer, if_neg (h.not_reuse v)]

variable (hresolved : Resolved ctx)
include hresolved

variable (hsharing : Sharing ctx same)
include hsharing

/-- A stretch of steps.  `motive` is anything that a step keeps. -/
theorem Planned.planNodes {mid : List Node}
    {motive : List Node → PlannerImpl → Prop}
    (hmotive : ∀ front node back s s',
      ctx.graph.nodesInTopologicalOrder = front ++ node :: back →
      Planned ctx same front (node :: back) s →
      ctx.planNode s (node, front.length) = .ok s' →
      motive front s → motive (front ++ [node]) s')
    (hsplit : ctx.graph.nodesInTopologicalOrder = front ++ (mid ++ back))
    (h : Planned ctx same front (mid ++ back) s) (hs : motive front s)
    (hrun : (mid.zipIdx front.length).foldlM ctx.planNode s = .ok s') :
    (Planned ctx same (front ++ mid) back s' ∧
      Later ((front.flatMap ctx.writes).reverse ++ ctx.sources) front.length
        s s') ∧ motive (front ++ mid) s' := by
  induction mid generalizing front s with
  | nil =>
    rw [← foldlM_nil_eq_ok.mp hrun, append_nil]
    exact ⟨⟨h, .refl _ _, fun _ hitem => .inl hitem⟩, hs⟩
  | cons node rest ih =>
    obtain ⟨next, hnext, hrest⟩ := foldlM_cons_eq_ok.mp hrun
    obtain ⟨hplanned, hlater⟩ := h.planNode hresolved hsplit hsharing hnext
    have hlength : (front ++ [node]).length = front.length + 1 := by simp
    obtain ⟨⟨hfinal, hlater'⟩, hend⟩ := ih (by simp [hsplit]) hplanned
      (hmotive _ _ _ _ _ hsplit h hnext hs) (hlength ▸ hrest)
    refine ⟨⟨by simpa using hfinal, hlater.keeps.trans hlater'.keeps ?_, ?_⟩,
      by simpa using hend⟩
    · intro v hv
      simp only [flatMap_append, reverse_append, mem_append] at hv ⊢
      tauto
    · intro item hitem
      rcases hlater'.freed item hitem with hitem | hpoint
      · exact hlater.freed item hitem
      · exact .inr (by omega)

/-- The second pass starts with a buffer for every value. -/
theorem planState_eq_ok (h : ctx.planState = .ok final) :
    ∃ s, Planned ctx same [] ctx.graph.nodesInTopologicalOrder s ∧
      (∀ v ∈ ctx.sources, s.planBuffer v = v) ∧
      ctx.graph.nodesInTopologicalOrder.zipIdx.foldlM ctx.planNode s =
        .ok final := by
  simp only [planState, computeReusePlan, except_bind_eq_ok] at h
  obtain ⟨counted, hcounted, inputs, hinputs, outer, houter, s, hweights,
    hnodes⟩ := h
  obtain ⟨hfirst, hown⟩ := computeUseCounts_spec hresolved hcounted
  obtain ⟨hinfo, hsetup⟩ := hfirst.setup hinputs houter hweights
  have hbuffers : s.buffers [] = counted.buffers [] :=
    buffers_congr hinfo (hsetup.freelist_eq.trans hfirst.freelist_eq.symm)
  have hfree : (counted.buffers []).free = [] := by
    rw [buffers, hfirst.freelist_eq]
    rfl
  refine ⟨s, ⟨?_, ?_, ?_, ?_⟩, fun v _ => hsetup.planBuffer_eq v, hnodes⟩
  · rw [flatMap_nil, reverse_nil, hbuffers]
    refine .init hsharing.equivalence (nodup_dedup _) (fun v hv => ?_) hfree rfl
    exact hown v (mem_append.mpr hv)
  · intro v hv
    have hbuffer : s.buffer v = v := by
      have hmem : v ∈ ctx.sources := by simpa using hv
      have hbuf := congrArg (fun b : Buffers MLValueIndex => b.buf v) hbuffers
      exact hbuf.trans (hown v (mem_append_left _ hmem)).1
    rw [hsetup.planBuffer_eq v, hbuffer]
  · rw [hsetup.freelist_eq]
    exact List.Pairwise.nil
  · rw [hsetup.freelist_eq]
    simp

/-- What holds at the start of the second pass and is kept by every step holds
at the end. -/
theorem planState_induction {motive : List Node → PlannerImpl → Prop}
    (hstart : ∀ s, Planned ctx same [] ctx.graph.nodesInTopologicalOrder s →
      (∀ v ∈ ctx.sources, s.planBuffer v = v) → motive [] s)
    (hmotive : ∀ front node back s s',
      ctx.graph.nodesInTopologicalOrder = front ++ node :: back →
      Planned ctx same front (node :: back) s →
      ctx.planNode s (node, front.length) = .ok s' →
      motive front s → motive (front ++ [node]) s')
    (h : ctx.planState = .ok final) :
    Planned ctx same ctx.graph.nodesInTopologicalOrder [] final ∧
      motive ctx.graph.nodesInTopologicalOrder final := by
  obtain ⟨s, hplanned, hown, hrun⟩ := planState_eq_ok hresolved hsharing h
  have hall : Planned ctx same [] (ctx.graph.nodesInTopologicalOrder ++ []) s :=
    by simpa using hplanned
  obtain ⟨⟨hlast, -⟩, hend⟩ := hall.planNodes hresolved hsharing hmotive
    (by simp) (hstart s hplanned hown) hrun
  exact ⟨hlast, hend⟩

/-- The state of the planner before step `k`, and what of it is in the plan. -/
theorem planState_before (h : ctx.planState = .ok final) (k : Nat) :
    ∃ s, Planned ctx same (ctx.graph.nodesInTopologicalOrder.take k)
        (ctx.graph.nodesInTopologicalOrder.drop k) s ∧
      Later (((ctx.graph.nodesInTopologicalOrder.take k).flatMap
        ctx.writes).reverse ++ ctx.sources)
        (ctx.graph.nodesInTopologicalOrder.take k).length s final ∧
      Chronological final.freelist.reverse := by
  obtain ⟨start, hstart, -, hrun⟩ := planState_eq_ok hresolved hsharing h
  generalize hfront : ctx.graph.nodesInTopologicalOrder.take k = front
  generalize hback : ctx.graph.nodesInTopologicalOrder.drop k = back
  have hsplit : ctx.graph.nodesInTopologicalOrder = front ++ back := by
    rw [← hfront, ← hback, take_append_drop]
  rw [hsplit, zipIdx_append, Nat.zero_add] at hrun
  obtain ⟨s, hbefore, hafter⟩ := foldlM_append_eq_ok.mp hrun
  rw [hsplit] at hstart
  obtain ⟨⟨hplanned, -⟩, -⟩ := hstart.planNodes hresolved hsharing
    (motive := fun _ _ => True) (fun _ _ _ _ _ _ _ _ _ => trivial) hsplit
    trivial hbefore
  have hrest : Planned ctx same front (back ++ []) s := by simpa using hplanned
  obtain ⟨⟨hlast, hlater⟩, -⟩ := hrest.planNodes hresolved hsharing
    (motive := fun _ _ => True) (fun _ _ _ _ _ _ _ _ _ => trivial)
    (by simp [hsplit]) trivial hafter
  exact ⟨s, hplanned, hlater, hlast.chronological⟩

end PlannerContext

end OnnxRuntime
