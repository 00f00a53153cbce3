/-
The second pass of the allocation planner refines shared buffers: an output
gets a fresh buffer, is attached to the buffer of an input, or recycles a free
one, and the uses of a node are dropped after it.
-/
import OnnxRuntime.SharedBuffers
import OnnxRuntime.UseCounts

namespace OnnxRuntime

open Option Function List

/-- The planner's view of the buffers, with the values written so far. -/
def PlannerImpl.buffers (s : PlannerImpl) (log : List MLValueIndex) :
    Buffers MLValueIndex where
  buf := s.buffer
  count := s.useCount
  free := s.freelist.map FreeBufferInfo.mlValue
  log := log

/-- The value whose buffer the allocation plan assigns. -/
def PlannerImpl.planBuffer (s : PlannerImpl) (v : MLValueIndex) :
    MLValueIndex :=
  if (s.allocPlan v).allocKind = .reuse then (s.allocPlan v).reusedBuffer
  else v

namespace PlannerImpl

theorem buffers_congr {s s' : PlannerImpl} {log : List MLValueIndex}
    (hinfo : s'.mlValueInfo = s.mlValueInfo)
    (hfree : s'.freelist = s.freelist) : s'.buffers log = s.buffers log := by
  have hbuffer : s'.buffer = s.buffer := by
    funext v
    rw [buffer, hinfo, buffer]
  have hcount : s'.useCount = s.useCount := by
    funext v
    rw [useCount, hinfo, useCount]
  rw [buffers, buffers, hbuffer, hcount, hfree]

theorem useCount_setBuffer (s : PlannerImpl) (n v buffer : MLValueIndex) :
    (s.setInfo n { s.mlValueInfo n with
      reusedBufferIndex := buffer }).useCount v = s.useCount v := by
  rw [useCount_setInfo]
  split
  · rename_i heq
    rw [heq]
    rfl
  · rfl

/-- Reuse attaches the value to the buffer. -/
theorem reuse_eq_ok {s s' : PlannerImpl} {reused reusedFor : MLValueIndex}
    (h : s.reuse reused reusedFor = .ok s') :
    (∀ log, s'.buffers (reusedFor :: log) =
      (s.buffers log).attach reusedFor reused) ∧
      s'.freelist = s.freelist ∧
      s'.planBuffer reusedFor = s.buffer reused ∧
      ∀ v, v ≠ reusedFor → s'.allocPlan v = s.allocPlan v := by
  rw [reuse] at h
  split at h
  · cases h
  · cases h
    refine ⟨fun log => ?_, rfl, ?_, ?_⟩
    · rw [buffers]
      congr 1
      · funext v
        simp only [buffer_setPlan, buffer_addUses, buffer_setInfo, update_apply]
        rfl
      · funext v
        change _ = Function.update s.useCount (s.buffer reused)
          (s.useCount (s.buffer reused) + s.useCount reusedFor) v
        simp only [useCount_setPlan, useCount_addUses, useCount_setBuffer,
          update_apply]
    · simp [planBuffer]
    · intro v hv
      simp [hv]

end PlannerImpl

namespace PlannerContext

variable {ctx : PlannerContext}

/-- The number of the output behind these. -/
def numberOf (front : List NodeArg) : Nat :=
  front.countP fun output => output.Exists

/-- An output that may be stored with another value: a tensor that is no output
of the graph. -/
structure Reusable (ctx : PlannerContext) (output : NodeArg) : Prop where
  not_output : output.name ∉ ctx.graph.outputs.map NodeArg.name
  tensor : ∃ elem, output.type = some (.tensorType elem)

/-- An alias pair attaches an output to an input. -/
structure AliasChoice (ctx : PlannerContext) (node : Node) (output : NodeArg)
    (outputArgNum : Nat) (reused : MLValueIndex) : Prop where
  reusable : ctx.Reusable output
  pair : ∃ kernelDef, node.kernelDef = some kernelDef ∧ ∃ arg,
    findAlias node.inputDefs outputArgNum kernelDef.aliasMap = some arg ∧
      ctx.names.idxOf? arg.name = some reused

/-- A pair of an input and an output of its size. -/
structure InplacePair (ctx : PlannerContext) (inputs : List NodeArg)
    (output : NodeArg) (outputArgNum : Nat) (pair : Int × Int)
    (reused : MLValueIndex) : Prop where
  num_eq : pair.2 = outputArgNum
  input : ∃ arg, pairInput inputs pair.1 = some arg ∧
    ctx.names.idxOf? arg.name = some reused ∧
    ctx.sameSizeArgs arg output = .ok true

/-- An in-place pair lets an output overwrite an input. -/
structure InplaceChoice (ctx : PlannerContext) (node : Node) (output : NodeArg)
    (outputArgNum : Nat) (reused : MLValueIndex) : Prop where
  reusable : ctx.Reusable output
  pair : ∃ kernelDef, node.kernelDef = some kernelDef ∧
    findAlias node.inputDefs outputArgNum kernelDef.aliasMap = none ∧
    ∃ counted, node.outputDefs[outputArgNum]? = some counted ∧
    ∃ pair ∈ kernelDef.inplaceMap,
      InplacePair ctx node.inputDefs counted outputArgNum pair reused

variable {s : PlannerImpl} {output : NodeArg} {outputArgNum : Nat}
  {reused : MLValueIndex} {item : FreeBufferInfo}

theorem findInplace_eq_some {inputs : List NodeArg} {pairs : List (Int × Int)}
    (h : ctx.findInplace s inputs output outputArgNum pairs =
      .ok (some reused)) :
    s.useCount (s.buffer reused) = 1 ∧ ∃ pair ∈ pairs,
      InplacePair ctx inputs output outputArgNum pair reused := by
  induction pairs with
  | nil => cases h
  | cons pair rest ih =>
    have hrest : ctx.findInplace s inputs output outputArgNum rest =
        .ok (some reused) → s.useCount (s.buffer reused) = 1 ∧
          ∃ other ∈ pair :: rest,
            InplacePair ctx inputs output outputArgNum other reused :=
      fun hfound => by
        obtain ⟨hcount, other, hmem, hpair⟩ := ih hfound
        exact ⟨hcount, other, mem_cons_of_mem _ hmem, hpair⟩
    rw [findInplace] at h
    split at h
    · rename_i hnum
      split at h
      · rename_i arg harg
        obtain ⟨index, hindex, h⟩ := except_bind_eq_ok.mp h
        split at h
        · rename_i hcount
          obtain ⟨same, hsame, h⟩ := except_bind_eq_ok.mp h
          cases same with
          | true =>
            cases h
            exact ⟨hcount, pair, mem_cons_self, hnum, arg, harg,
              indexOf_eq_ok.mp hindex, hsame⟩
          | false => exact hrest h
        · exact hrest h
      · exact hrest h
    · exact hrest h

theorem findReusableInput_eq_some {node : Node}
    (hreusable : ctx.Reusable output)
    (h : ctx.findReusableInput s node outputArgNum = .ok (some reused)) :
    AliasChoice ctx node output outputArgNum reused ∨
      InplaceChoice ctx node output outputArgNum reused ∧
        s.useCount (s.buffer reused) = 1 := by
  rw [findReusableInput] at h
  split at h
  · cases h
  · cases h
  · rename_i counted kernelDef hget hkernel
    split at h
    · rename_i arg halias
      obtain ⟨index, hindex, h⟩ := except_bind_eq_ok.mp h
      cases h
      exact .inl ⟨hreusable, kernelDef, hkernel, arg, halias,
        indexOf_eq_ok.mp hindex⟩
    · rename_i halias
      obtain ⟨hcount, hpair⟩ := findInplace_eq_some h
      exact .inr ⟨⟨hreusable, kernelDef, hkernel, halias, counted, hget, hpair⟩,
        hcount⟩

theorem findFree_eq_some {shape : List Dimension} {type : Option TypeProto}
    {location : OrtAllocatorInfo} {items : List FreeBufferInfo}
    (h : ctx.findFree s shape type location items = .ok (some item)) :
    item ∈ items := by
  induction items with
  | nil => cases h
  | cons head rest ih =>
    obtain ⟨suits, _, h⟩ := except_bind_eq_ok.mp h
    cases suits with
    | true =>
      cases h
      exact mem_cons_self
    | false => exact mem_cons_of_mem _ (ih h)

theorem findReusableTensor_eq_some
    (h : ctx.findReusableTensor s output = .ok (some item)) :
    item ∈ s.freelist := by
  rw [findReusableTensor] at h
  split at h
  · cases h
  · obtain ⟨_, _, h⟩ := except_bind_eq_ok.mp h
    exact findFree_eq_some h

theorem exists_elem_of_hasTensorType {type : TypeProto}
    (h : ¬ ¬ type.hasTensorType = true) :
    ∃ elem, some type = some (TypeProto.tensorType elem) := by
  cases type with
  | tensorType elem => exact ⟨elem, rfl⟩
  | _ => simp [TypeProto.hasTensorType] at h

/-- The ways in which an output gets its buffer. -/
inductive OutputPlaced (ctx : PlannerContext) (node : Node) (s : PlannerImpl)
    (output : NodeArg) (outputArgNum : Nat) (current : MLValueIndex)
    (s' : PlannerImpl) : Prop
  | fresh (hbuffers : ∀ log, s'.buffers (current :: log) =
        (s.buffers log).fresh current)
      (hfree : s'.freelist = s.freelist)
      (hplan : s'.planBuffer current = current)
  | shared (reused : MLValueIndex)
      (hchoice : AliasChoice ctx node output outputArgNum reused)
      (hbuffers : ∀ log, s'.buffers (current :: log) =
        (s.buffers log).attach current reused)
      (hfree : s'.freelist = s.freelist)
      (hplan : s'.planBuffer current = s.buffer reused)
  | overwritten (reused : MLValueIndex)
      (hchoice : InplaceChoice ctx node output outputArgNum reused)
      (hcount : s.useCount (s.buffer reused) = 1)
      (hbuffers : ∀ log, s'.buffers (current :: log) =
        (s.buffers log).attach current reused)
      (hfree : s'.freelist = s.freelist)
      (hplan : s'.planBuffer current = s.buffer reused)
  | recycled (item : FreeBufferInfo) (hmem : item ∈ s.freelist)
      (hsequential : ctx.enableParallelExecution = false)
      (hbuffers : ∀ log, s'.buffers (current :: log) =
        ({ s with freelist := s.freelist.erase item }.buffers log).attach
          current item.mlValue)
      (hfree : s'.freelist = s.freelist.erase item)
      (hplan : s'.planBuffer current = s.buffer item.mlValue)

end PlannerContext

namespace PlannerContext

variable {ctx : PlannerContext} {node : Node} {outputArgNum : Nat}
  {args inputs : List NodeArg} {v : MLValueIndex} {position : Int}
  {arg : NodeArg} {pairs : List (Int × Int)}

theorem planOutput_cases {s s' : PlannerImpl} {output : NodeArg}
    (h : ctx.planOutput node s output outputArgNum = .ok s') :
    ∃ current, ctx.names.idxOf? output.name = some current ∧
      OutputPlaced ctx node s output outputArgNum current s' ∧
      ∀ v, v ≠ current → s'.allocPlan v = s.allocPlan v := by
  obtain ⟨current, hcurrent, h⟩ := except_bind_eq_ok.mp h
  refine ⟨current, indexOf_eq_ok.mp hcurrent, ?_⟩
  split at h
  · cases h
  · rename_i type htype
    generalize htyped : s.setPlan current
      { s.allocPlan current with valueType := some type } = typed at h
    obtain ⟨hbuffers, hfreelist, hbuffer, huseCount⟩ :
        typed.buffers = s.buffers ∧ typed.freelist = s.freelist ∧
          typed.buffer = s.buffer ∧ typed.useCount = s.useCount := by
      rw [← htyped]
      exact ⟨rfl, rfl, rfl, rfl⟩
    have hothers : ∀ v, v ≠ current → typed.allocPlan v = s.allocPlan v := by
      intro v hv
      rw [← htyped]
      simp [hv]
    have hallocate : ∀ kind, kind ≠ AllocKind.reuse →
        s' = typed.setKind current kind →
        OutputPlaced ctx node s output outputArgNum current s' ∧
          ∀ v, v ≠ current → s'.allocPlan v = s.allocPlan v := by
      rintro kind hkind rfl
      refine ⟨.fresh (fun log => by rw [← hbuffers]; rfl) hfreelist ?_,
        fun v hv => ?_⟩
      · simp [PlannerImpl.planBuffer, PlannerImpl.setKind, hkind]
      · rw [← hothers v hv]
        simp [PlannerImpl.setKind, hv]
    split at h
    · rename_i houtput
      cases h
      exact hallocate .allocateOutput (by decide) rfl
    · rename_i houtput
      split at h
      · rename_i htensor
        cases h
        exact hallocate .allocate (by decide) rfl
      · rename_i htensor
        obtain ⟨found, hfound, h⟩ := except_bind_eq_ok.mp h
        cases found with
        | some reused =>
          obtain ⟨hattach, hfree, hplan, hrest⟩ :=
            PlannerImpl.reuse_eq_ok h
          refine ⟨?_, fun v hv => (hrest v hv).trans (hothers v hv)⟩
          have hbuffers' : ∀ log, s'.buffers (current :: log) =
              (s.buffers log).attach current reused := fun log => by
            rw [hattach, hbuffers]
          have hplan' : s'.planBuffer current = s.buffer reused := by
            rw [hplan, hbuffer]
          rcases findReusableInput_eq_some ⟨houtput,
            htype ▸ exists_elem_of_hasTensorType htensor⟩ hfound with
            hchoice | ⟨hchoice, hcount⟩
          · exact .shared reused hchoice hbuffers' (hfree.trans hfreelist)
              hplan'
          · rw [hbuffer, huseCount] at hcount
            exact .overwritten reused hchoice hcount hbuffers'
              (hfree.trans hfreelist) hplan'
        | none =>
          simp only at h
          split at h
          · cases h
            exact hallocate .allocate (by decide) rfl
          · rename_i hparallel
            obtain ⟨found, hfound, h⟩ := except_bind_eq_ok.mp h
            cases found with
            | none =>
              cases h
              exact hallocate .allocate (by decide) rfl
            | some item =>
              obtain ⟨hattach, hfree, hplan, hrest⟩ :=
                PlannerImpl.reuse_eq_ok h
              refine ⟨?_, fun v hv => (hrest v hv).trans (hothers v hv)⟩
              have hmem := findReusableTensor_eq_some hfound
              rw [hfreelist] at hmem hfree
              refine .recycled item hmem (by simpa using hparallel)
                (fun log => ?_) hfree (by rw [hplan, ← hbuffer]; rfl)
              rw [hattach, ← htyped]
              rfl

theorem planOutputs_cons {s : PlannerImpl} {output : NodeArg} :
    ctx.planOutputs node s outputArgNum (output :: args) =
      if output.Exists then do
        let s ← ctx.planOutput node s output outputArgNum
        ctx.planOutputs node s (outputArgNum + 1) args
      else ctx.planOutputs node s outputArgNum args := by
  rw [planOutputs, foldlM_cons, outputStep]
  split
  · cases ctx.planOutput node s output outputArgNum <;> rfl
  · rfl

theorem mem_indices : v ∈ ctx.indices args ↔
      ∃ arg ∈ args, arg.Exists ∧ ctx.names.idxOf? arg.name = some v := by
  simp [indices, existingNames, and_assoc]

theorem pairInput_eq_some (h : pairInput inputs position = some arg) :
    0 ≤ position ∧ inputs[position.toNat]? = some arg ∧ arg.Exists := by
  rw [pairInput] at h
  split at h
  · rename_i hpos
    cases hfound : inputs[position.toNat]? with
    | none => simp [hfound] at h
    | some found =>
      simp only [hfound] at h
      split at h
      · rename_i hexists
        cases h
        exact ⟨hpos, rfl, hexists⟩
      · cases h
  · cases h

theorem findAlias_eq_some (h : findAlias inputs outputArgNum pairs = some arg) :
    ∃ pair ∈ pairs, pairInput inputs pair.1 = some arg := by
  induction pairs with
  | nil => exact nomatch h
  | cons pair rest ih =>
    have hrest : findAlias inputs outputArgNum rest = some arg →
        ∃ other ∈ pair :: rest, pairInput inputs other.1 = some arg :=
      fun hfound => by
        obtain ⟨other, hmem, hother⟩ := ih hfound
        exact ⟨other, mem_cons_of_mem _ hmem, hother⟩
    rw [findAlias] at h
    split at h
    · split at h
      · rename_i found hfound
        exact ⟨pair, mem_cons_self, hfound.trans h⟩
      · exact hrest h
    · exact hrest h

/-- The inputs of a node that some output may share by an alias pair. -/
def aliasable (ctx : PlannerContext) (node : Node) : List MLValueIndex :=
  (node.kernelDef.toList.flatMap KernelDef.aliasMap).filterMap fun pair =>
    (pairInput node.inputDefs pair.1).bind fun arg =>
      ctx.names.idxOf? arg.name

theorem mem_aliasable :
    v ∈ ctx.aliasable node ↔ ∃ kernelDef, node.kernelDef = some kernelDef ∧
      ∃ pair ∈ kernelDef.aliasMap, ∃ arg,
        pairInput node.inputDefs pair.1 = some arg ∧
        ctx.names.idxOf? arg.name = some v := by
  simp only [aliasable, mem_filterMap, mem_flatMap,
    mem_toList, bind_eq_some_iff]
  constructor
  · rintro ⟨pair, ⟨kernelDef, hkernel, hpair⟩, arg, harg, hindex⟩
    exact ⟨kernelDef, hkernel, pair, hpair, arg, harg, hindex⟩
  · rintro ⟨kernelDef, hkernel, pair, hpair, arg, harg, hindex⟩
    exact ⟨pair, ⟨kernelDef, hkernel, hpair⟩, arg, harg, hindex⟩

theorem mem_reads_of_pairInput
    (harg : pairInput node.inputDefs position = some arg)
    (hindex : ctx.names.idxOf? arg.name = some v) : v ∈ ctx.reads node := by
  obtain ⟨_, hget, hexists⟩ := pairInput_eq_some harg
  exact mem_indices.mpr ⟨arg, mem_append_left _
    (mem_of_getElem? hget), hexists, hindex⟩

theorem AliasChoice.mem_aliasable {output : NodeArg}
    (h : AliasChoice ctx node output outputArgNum v) :
    v ∈ ctx.aliasable node := by
  obtain ⟨-, kernelDef, hkernel, arg, halias, hindex⟩ := h
  obtain ⟨pair, hpair, hinput⟩ := findAlias_eq_some halias
  exact PlannerContext.mem_aliasable.mpr
    ⟨kernelDef, hkernel, pair, hpair, arg, hinput, hindex⟩

theorem InplaceChoice.mem_reads {output : NodeArg}
    (h : InplaceChoice ctx node output outputArgNum v) :
    v ∈ ctx.reads node := by
  obtain ⟨-, _, -, -, _, -, _, -, -, arg, hinput, hindex, -⟩ := h
  exact mem_reads_of_pairInput hinput hindex

theorem aliasable_subset (node : Node) :
    ctx.aliasable node ⊆ ctx.reads node := by
  intro v hv
  obtain ⟨_, _, pair, _, arg, harg, hindex⟩ := mem_aliasable.mp hv
  exact mem_reads_of_pairInput harg hindex

/-- A value at two positions is read twice. -/
theorem two_le_count_indices {i j : Nat} {left right : NodeArg} (hlt : i < j)
    (hleft : args[i]? = some left) (hright : args[j]? = some right)
    (hexists : left.Exists ∧ right.Exists)
    (hindex : ctx.names.idxOf? left.name = some v)
    (hindex' : ctx.names.idxOf? right.name = some v) :
    2 ≤ (ctx.indices args).count v := by
  have hfront : v ∈ ctx.indices (args.take j) := by
    refine mem_indices.mpr ⟨left, ?_, hexists.1, hindex⟩
    apply mem_of_getElem? (i := i)
    rw [getElem?_take_of_lt hlt]
    exact hleft
  have hback : v ∈ ctx.indices (args.drop j) := by
    refine mem_indices.mpr ⟨right, ?_, hexists.2, hindex'⟩
    apply mem_of_getElem? (i := 0)
    rw [getElem?_drop]
    exact hright
  have hsplit : ctx.indices args =
      ctx.indices (args.take j) ++ ctx.indices (args.drop j) := by
    rw [← indices_append, take_append_drop]
  have hpos := count_pos_iff.mpr hfront
  have hpos' := count_pos_iff.mpr hback
  rw [hsplit, count_append]
  omega

end PlannerContext

end OnnxRuntime
