/-
Whole runs of calls that change a graph, from what `Resolve` leaves behind: the
edges stay intact.
-/
import OnnxRuntime.GraphMutation

namespace OnnxRuntime

open List

namespace Graph

variable {g g' : Graph}

section Resolved

variable {start : Graph}

/-- The graph while its edges are built: it stays intact. -/
structure Wired (start g : Graph) : Prop where
  connected : Connected start g
  intact : g.Intact
  feeds : ∀ edge, g.HasEdge edge → start.Feeds edge.target edge

namespace Wired

variable {consumed : List String} {index : NodeIndex}
  {state : Graph × List String}

theorem connectInput (h : Wired start g)
    (hproducers : start.Producers start.resolveContext.outputArgs)
    {names : List String × List String}
    (hnames : start.skeleton index = some names) {input : GraphArg × Nat}
    (hinput : names.1[input.2]? = some input.1.name)
    (hconnect : connectInput index (g, consumed) input = .ok state) :
    Wired start state.1 := by
  obtain ⟨hconnected, hedges⟩ :=
    h.connected.connectInput hproducers hnames hinput hconnect
  refine ⟨hconnected, ?_, fun edge hedge => ?_⟩
  · rw [Graph.connectInput] at hconnect
    split at hconnect
    · cases hconnect
      exact h.intact
    · rw [h.connected.context] at hconnect
      split at hconnect
      · split at hconnect <;> cases hconnect <;> exact h.intact
      · rename_i source slot hlookup
        obtain ⟨added, hadded, hreturn⟩ := except_bind_eq_ok.mp hconnect
        cases hreturn
        refine h.intact.addEdge ⟨source, slot, index, input.2⟩ hadded ?_
        intro e he hslot
        -- An edge that is there already was built for the same name.
        obtain ⟨-, names', name, hnames', hname, -, hlookup'⟩ :=
          h.feeds (edgeInto index e) ((h.intact.mirrored _).mpr he)
        rw [edgeInto] at hnames' hname hlookup'
        rw [hnames] at hnames'
        cases hnames'
        rw [hslot] at hname
        cases hname.symm.trans hinput
        rw [hlookup] at hlookup'
        obtain ⟨node, src, dst⟩ := e
        cases hlookup'
        cases hslot
        rfl
  · rcases (hedges edge).mp hedge with hedge | ⟨htarget, hdst, hexists, hlookup⟩
    · exact h.feeds edge hedge
    · refine ⟨rfl, names, input.1.name, htarget ▸ hnames, ?_, hexists, hlookup⟩
      rw [hdst]
      exact hinput

theorem connectNode (h : Wired start g)
    (hproducers : start.Producers start.resolveContext.outputArgs)
    (hconnect : connectNode (g, consumed) index = .ok state) :
    Wired start state.1 := by
  obtain ⟨hconnected, hedges⟩ := h.connected.connectNode hproducers hconnect
  rw [Graph.connectNode] at hconnect
  split at hconnect
  · cases hconnect
    exact h
  · rename_i node hnode
    have hskeleton : g.skeleton index = start.skeleton index :=
      h.connected.skeleton_of_node (by rw [hnode]; rfl)
    rw [skeleton, hnode] at hskeleton
    split at hconnect
    · exact foldlM_preserves (motive := fun state : Graph × List String =>
        Wired start state.1) (fun state state' input hinput hstate hstep =>
          hstate.connectInput hproducers hskeleton.symm
            (by rw [getElem?_map, mem_zipIdx_iff_getElem?.mp hinput]
                rfl) hstep) (by exact h) hconnect
    · rename_i hinputs
      split at hconnect
      · rename_i houtputs
        obtain ⟨⟨removed, result⟩, hremove, hreturn⟩ :=
          except_bind_eq_ok.mp hconnect
        cases hreturn
        obtain ⟨g', hremoved⟩ :=
          h.intact.removable index (by rw [hnode]; rfl)
        rw [hremove] at hremoved
        cases hremoved
        have hnil : node.inputDefs = [] :=
          eq_nil_of_length_eq_zero (Nat.eq_zero_of_not_pos hinputs)
        have houtput : node.outputDefs = [] :=
          eq_nil_of_length_eq_zero (Nat.le_zero.mp houtputs)
        rw [Option.map_some, hnil, houtput] at hskeleton
        refine ⟨hconnected, h.intact.removeNode hremove fun e he => ?_,
          fun edge hedge => ?_⟩
        · have hedge : g.HasEdge ⟨index, e.srcArgIndex, e.node, e.dstArgIndex⟩ :=
            he
          exact absurd rfl (h.connected.ends_ne hskeleton.symm hedge).1
        · rcases (hedges edge).mp hedge with hedge | hfeeds
          · exact h.feeds edge hedge
          · rw [hfeeds.1]
            exact hfeeds
      · cases hconnect
        exact h

end Wired

/-- A graph is intact when `Resolve` returns it. -/
theorem resolve_intact
    {inferTypes : Graph → Except Failure (Nat → Option TypeProto)}
    (hneeded : g.graphResolveNeeded) (h : g.resolve inferTypes = .ok g') :
    g'.Intact := by
  obtain ⟨start, built, consumed, hstart, hbuilt, hnodes⟩ :=
    resolve_eq_ok hneeded h
  obtain ⟨hcleared, hproducers⟩ := initInputsInitializersOutputs_spec hstart
  have hconnected := connected_of_no_edges
    (fun index => (edges_eq_nil hcleared index).1)
    (fun index => (edges_eq_nil hcleared index).2)
  have hnone : ∀ edge, ¬ start.HasEdge edge := by
    intro edge hedge
    rw [HasEdge, (edges_eq_nil hcleared edge.source).1] at hedge
    cases hedge
  have hwired : Wired start start :=
    ⟨hconnected, intact_iff.mpr ⟨hconnected.mirrored,
      fun edge hedge => absurd hedge (hnone edge),
      fun edge _ hedge => absurd hedge (hnone edge)⟩,
      fun edge hedge => absurd hedge (hnone edge)⟩
  have hfinal := foldlM_preserves
    (motive := fun state : Graph × List String => Wired start state.1)
    (fun _ _ _ _ hstate hstep => hstate.connectNode hproducers hstep)
    (by exact hwired) hbuilt
  exact hfinal.intact.of_nodes hnodes

theorem resolve_intact_staleGraph : ∃ g',
    staleGraph.resolve (fun g => .ok g.argType) = .ok g' ∧ g'.Intact :=
  have h : (staleGraph.resolve fun g => .ok g.argType).isOk = true := by
    decide +kernel
  ⟨_, eq_ok_okValue _ h, resolve_intact rfl (eq_ok_okValue _ h)⟩

end Resolved

end Graph

/-- Between two calls of `Resolve` the graph goes through the calls. -/
inductive Mutates (allowed : Graph → GraphCall → Prop) (start : Graph) :
    Graph → Prop
  | start : Mutates allowed start start
  | step {g g' : Graph} (call : GraphCall) (hrun : Mutates allowed start g)
      (hallowed : allowed g call) (hcall : call.run g = .ok (g', true)) :
      Mutates allowed start g'

/-- An edge goes to an input without another one, no control edge is added,
and a node is removed when nothing but itself reads it. -/
def GraphCall.LeavesNothing (g : Graph) : GraphCall → Prop
  | .addNode .. => True
  | .addEdge source target srcArgSlot dstArgSlot =>
    ∀ e ∈ g.inputEdgesOf target, e.dstArgIndex = dstArgSlot →
      e = ⟨source, srcArgSlot, dstArgSlot⟩
  | .removeEdge .. => True
  | .addControlEdge .. => False
  | .removeNode index => ∀ e ∈ g.outputEdgesOf index, e.node = index

instance GraphCall.decidableLeavesNothing (g : Graph) :
    (call : GraphCall) → Decidable (call.LeavesNothing g)
  | .addNode .. => inferInstanceAs (Decidable True)
  | .addEdge .. => inferInstanceAs (Decidable (∀ e ∈ _, _ → _))
  | .removeEdge .. => inferInstanceAs (Decidable True)
  | .addControlEdge .. => inferInstanceAs (Decidable False)
  | .removeNode _ => inferInstanceAs (Decidable (∀ e ∈ _, _))

theorem GraphCall.intact_run {g g' : Graph} {call : GraphCall} (h : g.Intact)
    (hallowed : call.LeavesNothing g) (hcall : call.run g = .ok (g', true)) :
    g'.Intact := by
  cases call with
  | addNode name opType inputArgs outputArgs =>
    obtain ⟨⟨added, index⟩, hadd, hreturn⟩ := except_bind_eq_ok.mp hcall
    cases hreturn
    exact h.addNode hadd
  | addEdge source target srcArgSlot dstArgSlot =>
    obtain ⟨added, hadd, hreturn⟩ := except_bind_eq_ok.mp hcall
    cases hreturn
    exact h.addEdge ⟨source, srcArgSlot, target, dstArgSlot⟩ hadd hallowed
  | removeEdge source target srcArgSlot dstArgSlot =>
    obtain ⟨removed, hremove, hreturn⟩ := except_bind_eq_ok.mp hcall
    cases hreturn
    exact h.removeEdge ⟨source, srcArgSlot, target, dstArgSlot⟩ hremove
  | addControlEdge source target => exact hallowed.elim
  | removeNode index => exact h.removeNode hcall hallowed

/-- Whatever the calls, if each leaves nothing behind then after each of them
both ends of every edge are there and every node can be removed. -/
theorem Mutates.intact {start g : Graph}
    (h : Mutates (fun g call => call.LeavesNothing g) start g)
    (hstart : start.Intact) : g.Intact := by
  induction h with
  | start => exact hstart
  | step call _ hallowed hcall ih => exact GraphCall.intact_run ih hallowed hcall

/-- Two producers of the same type, of which the last node reads the first. -/
def rewiredGraph : Graph where
  nodes := [
    some { inputDefs := [⟨0, "x"⟩], outputDefs := [⟨1, "a"⟩],
           outputEdges := [⟨2, 0, 0⟩] },
    some { inputDefs := [⟨0, "x"⟩], outputDefs := [⟨2, "b"⟩] },
    some { inputDefs := [⟨1, "a"⟩], outputDefs := [⟨3, "y"⟩],
           inputEdges := [⟨0, 0, 0⟩] }]
  numOfNodes := 3
  nodeArgs := [⟨0, "x"⟩, ⟨1, "a"⟩, ⟨2, "b"⟩, ⟨3, "y"⟩]

/-- The edge is replaced and then its source removed. -/
theorem mutates_intact_rewiredGraph :
    ∃ g, Mutates (fun g call => call.LeavesNothing g) rewiredGraph g ∧
      g.node 0 = none ∧ g.Intact := by
  have hstart : rewiredGraph.Intact := by decide
  have hremove : Mutates (fun g call => call.LeavesNothing g) rewiredGraph _ :=
    .step (.removeEdge 0 2 0 0) .start trivial rfl
  have hadd := hremove.step (.addEdge 1 2 0 0) (by decide) rfl
  have hnode := hadd.step (.removeNode 0) (by decide) rfl
  exact ⟨_, hnode, rfl, hnode.intact hstart⟩

/-- Adding the new edge first leaves two edges at one input. -/
theorem not_intact_rewiredGraph :
    rewiredGraph.Intact ∧ ∃ g, Mutates (fun _ _ => True) rewiredGraph g ∧
      ¬ g.Intact := by
  refine ⟨by decide, _, .step (.addEdge 1 2 0 0) .start trivial rfl, by decide⟩

end OnnxRuntime
