/-
What a round of partitioning assigns: every offer of a provider is granted when
no node of it was taken before, and refused as a whole otherwise.
-/
import OnnxRuntime.GraphPartitioner

namespace OnnxRuntime

open List Option Function OnnxRuntime.Graph

variable {u : Unit} {provider : IExecutionProvider} {name : String} {α : Type}
  {metaDef : MetaDef} {fusing : Fusing}

/-- A capability that a provider returned. -/
structure Offer where
  provider : IExecutionProvider
  subGraph : IndexedSubGraph
deriving DecidableEq

namespace Offer

abbrev nodes (offer : Offer) : List NodeIndex := offer.subGraph.nodes

abbrev IsFused (offer : Offer) : Prop := offer.subGraph.metaDef.isSome

end Offer

/-- Offers in their order, and those of them that are granted: first come,
first served. -/
inductive Granting (free : NodeIndex → Prop) :
    (offers granted : List Offer) → Prop where
  | nil : Granting free [] []
  | grant {offers granted offer} (h : Granting free offers granted)
      (hfree : ∀ index ∈ offer.nodes, free index ∧
        ∀ earlier ∈ granted, index ∉ earlier.nodes) :
      Granting free (offers ++ [offer]) (granted ++ [offer])
  | refuse {offers granted offer} (h : Granting free offers granted)
      (htaken : ∃ index ∈ offer.nodes, ¬ (free index ∧
        ∀ earlier ∈ granted, index ∉ earlier.nodes)) :
      Granting free (offers ++ [offer]) granted

namespace Granting

variable {free : NodeIndex → Prop} {offers granted : List Offer}

/-- No node is granted twice. -/
theorem disjoint (h : Granting free offers granted) :
    granted.Pairwise fun earlier later =>
      ∀ index ∈ earlier.nodes, index ∉ later.nodes := by
  induction h with
  | nil => exact .nil
  | grant h hfree ih =>
    refine pairwise_append.mpr ⟨ih, pairwise_singleton .., ?_⟩
    intro earlier hearlier later hlater index hindex
    cases mem_singleton.mp hlater
    exact fun hin => (hfree index hin).2 earlier hearlier hindex
  | refuse h htaken ih => exact ih

/-- Only what was free is granted. -/
theorem free_of_mem (h : Granting free offers granted) {offer : Offer}
    (hoffer : offer ∈ granted) {index : NodeIndex}
    (hindex : index ∈ offer.nodes) : free index := by
  induction h with
  | nil => exact absurd hoffer not_mem_nil
  | grant h hfree ih =>
    rcases mem_append.mp hoffer with hold | hnew
    · exact ih hold
    · cases mem_singleton.mp hnew
      exact (hfree index hindex).1
  | refuse h htaken ih => exact ih hoffer

end Granting

namespace PartitionState

/-- The node is there and has no provider. -/
def Free (s : PartitionState) (index : NodeIndex) : Prop :=
  (s.graph.node index).isSome ∧ s.providerType index = ""

theorem Free.lt_length {s : PartitionState} {index : Nat} (h : s.Free index) :
    index < s.graph.nodes.length := by
  obtain ⟨node, hnode⟩ := isSome_iff_exists.mp h.1
  exact lt_length_of_node hnode

variable {start s s' : PartitionState} {offers granted : List Offer}

/-- The state in which exactly these offers were granted since `start`. -/
structure Reflects (start : PartitionState) (granted : List Offer)
    (s : PartitionState) : Prop where
  length_eq : s.graph.nodes.length =
    start.graph.nodes.length + (granted.filter (·.IsFused)).length
  fusedAway : ∀ offer ∈ granted, offer.IsFused → ∀ index ∈ offer.nodes,
    s.graph.identity index = none
  kept : ∀ index < start.graph.nodes.length,
    (∀ offer ∈ granted, offer.IsFused → index ∉ offer.nodes) →
      s.graph.identity index = start.graph.identity index
  assigned : ∀ offer ∈ granted, ¬ offer.IsFused → ∀ index ∈ offer.nodes,
    s.providerType index = offer.provider.type
  providerKept : ∀ index < start.graph.nodes.length,
    (∀ offer ∈ granted, ¬ offer.IsFused → index ∉ offer.nodes) →
      s.providerType index = start.providerType index
  fusedNode : ∀ (k : Nat) offer, (granted.filter (·.IsFused))[k]? = some offer →
    ∃ name metaDef, offer.subGraph.metaDef = some metaDef ∧
      s.graph.identity (start.graph.nodes.length + k) =
        some ⟨name, metaDef.name, metaDef.inputs, metaDef.outputs⟩ ∧
      s.providerType (start.graph.nodes.length + k) = offer.provider.type
  bodyKept : ∀ index < start.graph.nodes.length,
    s.functionBody index = start.functionBody index

namespace Reflects

theorem refl (s : PartitionState) : Reflects s [] s where
  length_eq := rfl
  fusedAway _ h := absurd h not_mem_nil
  kept _ _ _ := rfl
  assigned _ h := absurd h not_mem_nil
  providerKept _ _ _ := rfl
  fusedNode _ _ h := absurd h (by simp)
  bodyKept _ _ := rfl

variable {index : Nat} {offer : Offer}

section

variable (h : Reflects start granted s)
include h

/-- A node with an index past the first ones is a fused one. -/
theorem exists_fused (hindex : start.graph.nodes.length ≤ index)
    (hbound : index < s.graph.nodes.length) :
    ∃ offer ∈ granted, s.providerType index = offer.provider.type ∧
      (s.graph.node index).isSome := by
  have hlength := h.length_eq
  have hlt : index - start.graph.nodes.length <
      (granted.filter (·.IsFused)).length := by omega
  obtain ⟨offer, hoffer⟩ : ∃ offer, (granted.filter (·.IsFused))[index -
      start.graph.nodes.length]? = some offer :=
    ⟨_, getElem?_eq_getElem hlt⟩
  obtain ⟨name, metaDef, -, hidentity, hprovider⟩ := h.fusedNode _ offer hoffer
  rw [Nat.add_sub_cancel' hindex] at hidentity hprovider
  obtain ⟨node, hnode, -⟩ := map_eq_some_iff.mp hidentity
  exact ⟨offer, (mem_filter.mp (mem_of_getElem? hoffer)).1, hprovider,
    isSome_iff_exists.mpr ⟨node, hnode⟩⟩

/-- What is available is what was free and was not granted. -/
theorem free_iff (hbound : index < s.graph.nodes.length) :
    s.Free index ↔ start.Free index ∧
      ∀ offer ∈ granted, index ∉ offer.nodes := by
  by_cases hindex : index < start.graph.nodes.length
  · have hsame (hnone : ∀ offer ∈ granted, index ∉ offer.nodes) :
        s.Free index ↔ start.Free index := by
      have hlive := congrArg Option.isSome
        (h.kept index hindex fun offer hoffer _ => hnone offer hoffer)
      rw [identity, identity, isSome_map, isSome_map] at hlive
      rw [Free, Free, hlive, h.providerKept index hindex fun offer hoffer _ =>
        hnone offer hoffer]
    refine ⟨fun hfree => ?_, fun hfree => (hsame hfree.2).mpr hfree.1⟩
    have hnone : ∀ offer ∈ granted, index ∉ offer.nodes := by
      intro offer hoffer hin
      obtain ⟨hlive, htype⟩ := hfree
      by_cases hisFused : offer.IsFused
      · rw [identity_eq_none_iff.mp
          (h.fusedAway offer hoffer hisFused index hin)] at hlive
        cases hlive
      · rw [h.assigned offer hoffer hisFused index hin] at htype
        exact offer.provider.type_ne htype
    exact ⟨(hsame hnone).mp hfree, hnone⟩
  · refine iff_of_false (fun hfree => ?_) fun hfree => ?_
    · obtain ⟨offer, -, htype, -⟩ :=
        h.exists_fused (Nat.le_of_not_lt hindex) hbound
      exact offer.provider.type_ne (htype.symm.trans hfree.2)
    · exact hindex hfree.1.lt_length

/-- A single node is assigned. -/
theorem assign (hsingle : ¬ offer.IsFused) (hnodes : offer.nodes = [index])
    (hstart : start.Free index)
    (hnew : ∀ earlier ∈ granted, index ∉ earlier.nodes) :
    Reflects start (granted ++ [offer]) { s with
      providerType :=
        Function.update s.providerType index offer.provider.type } := by
  have hfilter : (granted ++ [offer]).filter (·.IsFused) =
      granted.filter (·.IsFused) := by
    rw [filter_append]
    simp [hsingle]
  have hbound := hstart.lt_length
  constructor
  case length_eq => rw [hfilter]; exact h.length_eq
  case fusedAway =>
    exact forall_mem_append.mpr ⟨h.fusedAway, forall_mem_singleton.mpr
      fun hisFused => absurd hisFused hsingle⟩
  case kept =>
    exact fun other hother hnone =>
      h.kept other hother (forall_mem_append.mp hnone).1
  case assigned =>
    refine forall_mem_append.mpr ⟨?_, forall_mem_singleton.mpr ?_⟩
    · intro other hold hisSingle taken htaken
      dsimp only
      rw [update_of_ne]
      · exact h.assigned other hold hisSingle taken htaken
      · rintro rfl
        exact hnew other hold htaken
    · intro _ taken htaken
      rw [hnodes] at htaken
      cases mem_singleton.mp htaken
      exact update_self ..
  case providerKept =>
    intro other hother hnone
    rw [forall_mem_append, forall_mem_singleton, hnodes] at hnone
    dsimp only
    rw [update_of_ne (ne_of_not_mem_cons (hnone.2 hsingle))]
    exact h.providerKept other hother hnone.1
  case fusedNode =>
    intro k other hother
    rw [hfilter] at hother
    obtain ⟨name, metaDef, hmeta, hidentity, hprovider⟩ :=
      h.fusedNode k other hother
    refine ⟨name, metaDef, hmeta, hidentity, ?_⟩
    dsimp only
    rw [update_of_ne (Nat.ne_of_gt (by omega))]
    exact hprovider
  case bodyKept => exact h.bodyKept

/-- A subgraph is fused to a new node. -/
theorem fuse (hgranting : Granting start.Free offers granted)
    (hmeta : offer.subGraph.metaDef = some metaDef)
    (hnew : ∀ index ∈ offer.nodes, start.Free index ∧
      ∀ earlier ∈ granted, index ∉ earlier.nodes)
    (hlength : s'.graph.nodes.length = s.graph.nodes.length + 1)
    (hidentity : ∀ index : Nat, s'.graph.identity index =
      if index ∈ offer.nodes then none
      else if index = s.graph.nodes.length then
        some ⟨name, metaDef.name, metaDef.inputs, metaDef.outputs⟩
      else s.graph.identity index)
    (hprovider : s'.providerType = Function.update s.providerType
      s.graph.nodes.length offer.provider.type)
    (hbody : ∀ index < s.graph.nodes.length,
      s'.functionBody index = s.functionBody index) :
    Reflects start (granted ++ [offer]) s' := by
  have hisFused : offer.IsFused := by
    rw [Offer.IsFused, hmeta]
    rfl
  have hfilter : (granted ++ [offer]).filter (·.IsFused) =
      granted.filter (·.IsFused) ++ [offer] := by
    rw [filter_append]
    simp [hisFused]
  have hbound : ∀ index : Nat, index ∈ offer.nodes →
      index < start.graph.nodes.length :=
    fun index hin => (hnew index hin).1.lt_length
  have hold : ∀ earlier ∈ granted, ∀ index : Nat, index ∈ earlier.nodes →
      index < start.graph.nodes.length :=
    fun earlier hearlier index hin =>
      (hgranting.free_of_mem hearlier hin).lt_length
  have hmore := h.length_eq
  constructor
  case length_eq => rw [hlength, hfilter, length_append, h.length_eq]; rfl
  case fusedAway =>
    refine forall_mem_append.mpr ⟨?_, forall_mem_singleton.mpr ?_⟩
    · intro other hearlier hfused index hin
      have hlt := hold other hearlier index hin
      rw [hidentity, h.fusedAway other hearlier hfused index hin,
        if_neg (Nat.ne_of_lt (by omega)), ite_self]
    · exact fun _ index hin => (hidentity index).trans (if_pos hin)
  case kept =>
    intro index hindex hnone
    rw [forall_mem_append, forall_mem_singleton] at hnone
    rw [hidentity, if_neg (hnone.2 hisFused), if_neg (by omega)]
    exact h.kept index hindex hnone.1
  case assigned =>
    refine forall_mem_append.mpr ⟨?_, forall_mem_singleton.mpr
      fun hsingle => absurd hisFused hsingle⟩
    intro other hearlier hsingle index hin
    have hlt := hold other hearlier index hin
    rw [hprovider, update_of_ne (Nat.ne_of_lt (by omega))]
    exact h.assigned other hearlier hsingle index hin
  case providerKept =>
    intro index hindex hnone
    rw [hprovider, update_of_ne (Nat.ne_of_lt (by omega))]
    exact h.providerKept index hindex (forall_mem_append.mp hnone).1
  case fusedNode =>
    intro k other hother
    rw [hfilter] at hother
    by_cases hk : k < (granted.filter (·.IsFused)).length
    · rw [getElem?_append_left hk] at hother
      obtain ⟨name, metaDef, hmeta, hsame, htype⟩ := h.fusedNode k other hother
      refine ⟨name, metaDef, hmeta, ?_, ?_⟩
      · rw [hidentity, if_neg, if_neg (Nat.ne_of_lt (by omega))]
        · exact hsame
        · intro hin
          have := hbound _ hin
          omega
      · rw [hprovider, update_of_ne (Nat.ne_of_lt (by omega))]
        exact htype
    · have hlast : k = (granted.filter (·.IsFused)).length := by
        have hlt := (List.getElem?_eq_some_iff.mp hother).1
        rw [length_append] at hlt
        exact Nat.le_antisymm (Nat.le_of_lt_succ hlt) (Nat.le_of_not_lt hk)
      rw [hlast, getElem?_concat_length] at hother
      cases hother
      refine ⟨name, metaDef, hmeta, ?_, ?_⟩
      · rw [hlast, ← h.length_eq, hidentity, if_neg, if_pos rfl]
        intro hin
        have := hbound _ hin
        omega
      · rw [hprovider, hlast, ← h.length_eq]
        exact update_self ..
  case bodyKept =>
    intro index hindex
    rw [hbody index (by omega)]
    exact h.bodyKept index hindex

theorem congr (hgraph : s'.graph = s.graph)
    (hprovider : s'.providerType = s.providerType)
    (hbody : s'.functionBody = s.functionBody) :
    Reflects start granted s' := by
  obtain ⟨graph, providerType, functionBody, _, _⟩ := s
  cases hgraph
  cases hprovider
  cases hbody
  exact ⟨h.length_eq, h.fusedAway, h.kept, h.assigned, h.providerKept,
    h.fusedNode, h.bodyKept⟩

end

end Reflects

end PartitionState

namespace GraphPartitioner

open PartitionState

variable {exportDll : Bool} {answers : RoundAnswers}
  {start s s' : PartitionState} {offers granted : List Offer}

theorem liftFailure_eq_ok {x : Except Failure α} {a : α} :
    liftFailure x s = .ok a s' ↔ x = .ok a ∧ s = s' := by
  cases x with
  | ok b =>
    simp [liftFailure]
  | error failure => simp [liftFailure]

theorem liftFailure_bind {β : Type} {x : Except Failure α} {b : β}
    {f : α → PartitionM β} :
    (liftFailure x >>= f) s = .ok b s' ↔ ∃ a, x = .ok a ∧ f a s = .ok b s' := by
  simp [state_bind_eq_ok, liftFailure_eq_ok, and_assoc]

theorem changeGraph_eq_ok {change : Graph → Except Failure Graph} :
    changeGraph change s = .ok u s' ↔
      ∃ g, change s.graph = .ok g ∧ s' = { s with graph := g } := by
  constructor
  · intro h
    replace h := state_get_bind.mp h
    obtain ⟨g, hchange, h⟩ := liftFailure_bind.mp h
    cases h
    exact ⟨g, hchange, rfl⟩
  · rintro ⟨g, hchange, rfl⟩
    exact state_get_bind.mpr (liftFailure_bind.mpr ⟨g, hchange, rfl⟩)

variable {index : NodeIndex} {available : Bool} {nodes : List NodeIndex}
  {g g' : Graph}

theorem isAvailable_returns (h : isAvailable index s = .ok available s') :
    s' = s ∧ index < s.graph.nodes.length ∧
      (available = true ↔ s.Free index) := by
  replace h := state_get_bind.mp h
  split at h
  · cases h
  · rename_i hbound
    cases h
    exact ⟨rfl, Nat.lt_of_not_le hbound, decide_eq_true_iff⟩

theorem allAvailable_returns (h : allAvailable nodes s = .ok available s') :
    s' = s ∧
      (available = true → ∀ index ∈ nodes,
        index < s.graph.nodes.length ∧ s.Free index) ∧
      (available = false → ∃ index ∈ nodes,
        index < s.graph.nodes.length ∧ ¬ s.Free index) := by
  induction nodes with
  | nil =>
    cases h
    exact ⟨rfl, fun _ => by simp, fun hfalse => by cases hfalse⟩
  | cons index rest ih =>
    obtain ⟨first, t, hfirst, h⟩ := state_bind_eq_ok.mp h
    obtain ⟨rfl, hbound, hfree⟩ := isAvailable_returns hfirst
    cases first with
    | true =>
      obtain ⟨hsame, hall, hnone⟩ := ih h
      refine ⟨hsame, fun htrue => ?_, fun hfalse => ?_⟩
      · exact forall_mem_cons.mpr ⟨⟨hbound, hfree.mp rfl⟩, hall htrue⟩
      · obtain ⟨other, hother, htaken⟩ := hnone hfalse
        exact ⟨other, mem_cons_of_mem _ hother, htaken⟩
    | false =>
      cases h
      refine ⟨rfl, nofun, fun _ => ⟨index, mem_cons_self, hbound, ?_⟩⟩
      intro hin
      cases hfree.mpr hin

theorem detachNode_identities (h : g.detachNode index = .ok g') :
    g'.nodes.length = g.nodes.length ∧ ∀ other, g'.identity other =
      if index = other then none else g.identity other := by
  rw [detachNode] at h
  split at h
  · cases h
  · split at h
    · rename_i hnone
      cases h
      refine ⟨rfl, fun other => ?_⟩
      split
      · rename_i heq
        rw [identity_eq_none_iff, ← heq, hnone]
      · rfl
    · obtain ⟨middle, hedges, h⟩ := except_bind_eq_ok.mp h
      obtain ⟨⟨after, removed⟩, hremove, h⟩ := except_bind_eq_ok.mp h
      cases h
      obtain ⟨hlength, hidentity⟩ := removeEdges_identities
        (fun _ _ _ => removeEdge_identities) hedges
      obtain ⟨hlength', hidentity'⟩ := removeNode_identities hremove
      refine ⟨hlength'.trans hlength, fun other => ?_⟩
      rw [hidentity', hidentity]

theorem detachNodes_identities (h : nodes.foldlM detachNode g = .ok g') :
    g'.nodes.length = g.nodes.length ∧ ∀ other, g'.identity other =
      if other ∈ nodes then none else g.identity other := by
  induction nodes generalizing g with
  | nil =>
    cases h
    exact ⟨rfl, fun other => by simp⟩
  | cons index rest ih =>
    obtain ⟨mid, hfirst, hrest⟩ := foldlM_cons_eq_ok.mp h
    obtain ⟨hlength, hidentity⟩ := detachNode_identities hfirst
    obtain ⟨hlength', hidentity'⟩ := ih hrest
    refine ⟨hlength'.trans hlength, fun other => ?_⟩
    rw [hidentity', hidentity]
    by_cases hin : other ∈ rest
    · rw [if_pos hin, if_pos (mem_cons_of_mem _ hin)]
    · by_cases heq : index = other
      · rw [if_neg hin, if_pos heq, if_pos (heq ▸ mem_cons_self)]
      · rw [if_neg hin, if_neg heq, if_neg]
        intro hcons
        exact (mem_cons.mp hcons).elim (fun h => heq h.symm) hin

theorem lookupArgs_names {names : List String} {args : List GraphArg}
    (h : g.lookupArgs names = .ok args) :
    args.map (·.name) = names := by
  rw [lookupArgs] at h
  induction names generalizing args with
  | nil =>
    cases h
    rfl
  | cons name rest ih =>
    rw [mapM_cons] at h
    obtain ⟨arg, harg, h⟩ := except_bind_eq_ok.mp h
    obtain ⟨others, hothers, h⟩ := except_bind_eq_ok.mp h
    cases h
    rw [map_cons, ih hothers]
    congr 1
    split at harg
    · cases harg
    · rename_i found hfound
      cases harg
      have hname := find?_some hfound
      exact of_decide_eq_true hname

/-- A subgraph becomes a node with the next index. -/
theorem fuseSubGraph_returns {subGraph : IndexedSubGraph}
    (h : fuseSubGraph answers subGraph metaDef name s = .ok index s') :
    index = s.graph.nodes.length ∧
      s'.graph.nodes.length = s.graph.nodes.length + 1 ∧
      (∀ other : Nat, s'.graph.identity other =
        if other ∈ subGraph.nodes then none
        else if other = s.graph.nodes.length then
          some ⟨name, metaDef.name, metaDef.inputs, metaDef.outputs⟩
        else s.graph.identity other) ∧
      s'.providerType = s.providerType ∧
      (∀ other, other ≠ index → s'.functionBody other = s.functionBody other) ∧
      s'.fusedFuncs = s.fusedFuncs ∧ s'.compiled = s.compiled := by
  replace h := state_get_bind.mp h
  obtain ⟨inputs, hinputs, h⟩ := liftFailure_bind.mp h
  obtain ⟨outputs, houtputs, h⟩ := liftFailure_bind.mp h
  obtain ⟨⟨g, new⟩, hadd, h⟩ := liftFailure_bind.mp h
  replace h := state_set_bind.mp h
  replace h := state_get_bind.mp h
  obtain ⟨_, _, hlift, h⟩ := state_bind_eq_ok.mp h
  replace h := state_set_bind.mp h
  obtain ⟨_, _, hchange, h⟩ := state_bind_eq_ok.mp h
  cases h
  obtain ⟨after, hdetach, rfl⟩ := changeGraph_eq_ok.mp hchange
  obtain ⟨hindex, hlength, hidentity⟩ := addNode_identities hadd
  obtain ⟨hlength', hidentity'⟩ := detachNodes_identities hdetach
  refine ⟨hindex, hlength'.trans hlength, fun other => ?_, rfl, ?_, rfl, rfl⟩
  · rw [hidentity', hidentity, lookupArgs_names hinputs,
      lookupArgs_names houtputs, hindex]
  · exact fun other hother => update_of_ne hother ..

/-- The offers that a list of capabilities makes. -/
def offersOf (provider : IExecutionProvider)
    (capabilities : List (Option IndexedSubGraph)) : List Offer :=
  capabilities.flatMap fun capability => capability.toList.map (Offer.mk provider)

theorem considerCapability_reflects
    {fusing' : Fusing} {capability : Option IndexedSubGraph}
    (hgranting : Granting start.Free offers granted)
    (h : Reflects start granted s)
    (hrun : considerCapability answers provider fusing capability s =
      .ok fusing' s') :
    ∃ granted', Granting start.Free
        (offers ++ capability.toList.map (Offer.mk provider)) granted' ∧
      Reflects start granted' s' := by
  revert hrun
  fun_cases considerCapability answers provider fusing capability with
  | case1 =>
    intro hrun
    cases hrun
    exact ⟨granted, by rwa [toList_none, map_nil, append_nil], h⟩
  | case2 subGraph hmeta index hnodes =>
    intro hrun
    obtain ⟨_, t, hassign, hrun⟩ := state_bind_eq_ok.mp hrun
    cases hrun
    obtain ⟨available, _, havailable, hassign⟩ := state_bind_eq_ok.mp hassign
    obtain ⟨rfl, hbound, hfree⟩ := isAvailable_returns havailable
    rw [h.free_iff hbound] at hfree
    cases available with
    | true =>
      cases hassign
      have hnew := hfree.mp rfl
      have hgrant : Granting start.Free (offers ++ [⟨provider, subGraph⟩])
          (granted ++ [⟨provider, subGraph⟩]) := by
        refine hgranting.grant fun other hother => ?_
        rw [Offer.nodes, hnodes] at hother
        cases mem_singleton.mp hother
        exact hnew
      refine ⟨_, hgrant, h.assign ?_ hnodes hnew.1 hnew.2⟩
      rw [Offer.IsFused, hmeta]
      exact Bool.false_ne_true
    | false =>
      cases hassign
      have hrefuse : Granting start.Free (offers ++ [⟨provider, subGraph⟩])
          granted := by
        refine hgranting.refuse ⟨index, ?_, fun hin => ?_⟩
        · rw [Offer.nodes, hnodes]
          exact mem_singleton_self _
        · cases hfree.mpr hin
      exact ⟨granted, hrefuse, h⟩
  | case3 =>
    intro hrun
    cases hrun
  | case4 subGraph metaDef hmeta =>
    intro hrun
    obtain ⟨available, _, havailable, hrun⟩ := state_bind_eq_ok.mp hrun
    obtain ⟨rfl, hall, htaken⟩ := allAvailable_returns havailable
    cases available with
    | true =>
      have hnew : ∀ index ∈ subGraph.nodes, start.Free index ∧
          ∀ earlier ∈ granted, index ∉ earlier.nodes :=
        fun index hin => (h.free_iff (hall rfl index hin).1).mp
          (hall rfl index hin).2
      obtain ⟨index, fused, hfuse, hrun⟩ := state_bind_eq_ok.mp hrun
      obtain ⟨_, assigned, hassign, hrun⟩ := state_bind_eq_ok.mp hrun
      replace hrun := state_get_bind.mp hrun
      cases hrun
      cases hassign
      obtain ⟨rfl, hlength, hidentity, hprovider, hbody, -, -⟩ :=
        fuseSubGraph_returns hfuse
      have hgrant : Granting start.Free (offers ++ [⟨provider, subGraph⟩])
          (granted ++ [⟨provider, subGraph⟩]) := hgranting.grant hnew
      refine ⟨_, hgrant, h.fuse hgranting hmeta hnew hlength hidentity ?_ ?_⟩
      · dsimp only
        rw [hprovider]
      · exact fun other hother => hbody other (Nat.ne_of_lt hother)
    | false =>
      cases hrun
      obtain ⟨index, hin, hbound, hnot⟩ := htaken rfl
      have hrefuse : Granting start.Free (offers ++ [⟨provider, subGraph⟩])
          granted := hgranting.refuse ⟨index, hin, fun hfree =>
        hnot ((h.free_iff hbound).mpr hfree)⟩
      exact ⟨granted, hrefuse, h⟩

section Compile

theorem addFuncInfo_returns
    (h : addFuncInfo name s = .ok u s') :
    name ∉ s.fusedFuncs ∧
      s' = { s with fusedFuncs := name :: s.fusedFuncs } := by
  replace h := state_get_bind.mp h
  split at h
  · cases h
  · rename_i hnew
    cases h
    exact ⟨hnew, rfl⟩

theorem addFunctions_returns {entry : String × NodeComputeInfo}
    (h : addFunctions entry s = .ok u s') :
    entry.1 ∉ s.fusedFuncs ∧
      s' = { s with fusedFuncs := entry.1 :: s.fusedFuncs } := by
  replace h := state_get_bind.mp h
  split at h
  · cases h
  · rename_i hnew
    split at h
    · cases h
    · cases h
      exact ⟨hnew, rfl⟩

/-- Names that are entered one after the other are new and different. -/
theorem register_returns {ι : Type} (register : ι → PartitionM Unit)
    (nameOf : ι → String)
    (hregister : ∀ x s u s', register x s = .ok u s' → nameOf x ∉ s.fusedFuncs ∧
      s' = { s with fusedFuncs := nameOf x :: s.fusedFuncs })
    {items : List ι}
    (h : items.foldlM (fun _ x => register x) () s = .ok u s') :
    s' = { s with fusedFuncs := (items.map nameOf).reverse ++ s.fusedFuncs } ∧
      (items.map nameOf).Nodup ∧
      ∀ name ∈ items.map nameOf, name ∉ s.fusedFuncs := by
  induction items generalizing s with
  | nil =>
    cases h
    exact ⟨rfl, nodup_nil, by simp⟩
  | cons x rest ih =>
    rw [foldlM_cons, state_bind_eq_ok] at h
    obtain ⟨_, t, hfirst, hrest⟩ := h
    obtain ⟨hnew, rfl⟩ := hregister x s _ t hfirst
    obtain ⟨rfl, hnodup, hothers⟩ := ih hrest
    simp only [map_cons, reverse_cons, append_assoc,
      singleton_append, nodup_cons, forall_mem_cons]
    refine ⟨trivial, ⟨fun hin => ?_, hnodup⟩, hnew, fun name hname => ?_⟩
    · exact hothers _ hin mem_cons_self
    · exact fun hin => hothers name hname (mem_cons_of_mem _ hin)

/-- The nodes that were compiled are registered under new names. -/
theorem compileNodes_returns
    {nodes : List NodeIndex}
    (h : compileNodes exportDll answers provider nodes s = .ok u s') :
    (nodes = [] ∧ s' = s) ∨
      (s' = { s with
        compiled := nodes.map s.nodeName :: s.compiled
        fusedFuncs := (nodes.map s.nodeName).reverse ++ s.fusedFuncs } ∧
      (nodes.map s.nodeName).Nodup ∧
      ∀ name ∈ nodes.map s.nodeName, name ∉ s.fusedFuncs) := by
  rw [compileNodes] at h
  split at h
  · rename_i hnil
    cases h
    exact .inl ⟨hnil, rfl⟩
  · right
    replace h := state_get_bind.mp h
    replace h := state_set_bind.mp h
    split at h
    · obtain ⟨_, -, h⟩ := liftFailure_bind.mp h
      have hregister := register_returns addFuncInfo id
        (fun _ _ _ _ => addFuncInfo_returns) h
      rwa [List.map_id] at hregister
    · obtain ⟨infos, -, h⟩ := liftFailure_bind.mp h
      rw [registerFunctions] at h
      split at h
      · rename_i hlength
        have hregister := register_returns addFunctions Prod.fst
          (fun _ _ _ _ => addFunctions_returns) h
        rwa [map_fst_zip (Nat.le_of_eq hlength.symm)] at hregister
      · cases h

end Compile

section Runs

/-- While the capabilities of a provider are considered, and when its fused
nodes are compiled, the state reflects what was granted. -/
theorem considerAll_reflects
    {capabilities : List (Option IndexedSubGraph)}
    (hgranting : Granting start.Free offers granted)
    (h : Reflects start granted s)
    (hrun : capabilities.foldlM (considerCapability answers provider) {} s =
      .ok fusing s') :
    ∃ granted', Granting start.Free (offers ++ offersOf provider capabilities)
      granted' ∧ Reflects start granted' s' := by
  have hall := foldlM_returns [] (motive := fun done _ t =>
    ∃ granted', Granting start.Free (offers ++ offersOf provider done)
      granted' ∧ Reflects start granted' t) ?_ ?_ hrun
  · rwa [nil_append] at hall
  · rintro done capability - fusing t fusing' t' ⟨granted', hgranting', h'⟩ hstep
    obtain ⟨granted'', hgranting'', h''⟩ :=
      considerCapability_reflects hgranting' h' hstep
    refine ⟨granted'', ?_, h''⟩
    rw [offersOf, flatMap_append, flatMap_singleton, ← append_assoc]
    exact hgranting''
  · exact ⟨granted, by rwa [offersOf, flatMap_nil, append_nil], h⟩

/-- The offers of several providers. -/
def allOffers
    (capabilities : List (IExecutionProvider × List (Option IndexedSubGraph))) :
    List Offer :=
  capabilities.flatMap fun entry => offersOf entry.1 entry.2

theorem assignProviders_reflects
    {capabilities : List (IExecutionProvider × List (Option IndexedSubGraph))}
    (hrun : assignProviders exportDll answers capabilities start = .ok u s) :
    ∃ granted, Granting start.Free (allOffers capabilities) granted ∧
      Reflects start granted s := by
  have hall := foldlM_returns [] (motive := fun done _ t =>
    ∃ granted, Granting start.Free (allOffers done) granted ∧
      Reflects start granted t) ?_ ⟨[], .nil, .refl start⟩ hrun
  · rwa [nil_append] at hall
  · rintro done entry - _ t _ t' ⟨granted, hgranting, h⟩ hstep
    obtain ⟨fusing, mid, hconsider, hcompile⟩ := state_bind_eq_ok.mp hstep
    obtain ⟨granted', hgranting', h'⟩ :=
      considerAll_reflects hgranting h hconsider
    refine ⟨granted', ?_, ?_⟩
    · rw [allOffers, flatMap_append, flatMap_singleton]
      exact hgranting'
    · rcases compileNodes_returns hcompile with ⟨-, rfl⟩ | ⟨rfl, -⟩
      · exact h'
      · exact h'.congr rfl rfl rfl

theorem resolve_returns (h : resolve answers s = .ok u s') :
    Graph.Thinned s.graph s'.graph ∧ s'.providerType = s.providerType ∧
      s'.fusedFuncs = s.fusedFuncs ∧ s'.compiled = s.compiled ∧
      ∀ index, s'.functionBody index = s.functionBody index ∨
        s'.functionBody index = (s.functionBody index).or
          (answers.instantiate s'.graph index) := by
  replace h := state_get_bind.mp h
  obtain ⟨g, hresolve, h⟩ := liftFailure_bind.mp h
  cases h
  refine ⟨resolveWith_thinned hresolve, rfl, rfl, rfl, fun index => ?_⟩
  split
  · exact .inr rfl
  · exact .inl rfl

theorem enforceResolve_returns
    (h : enforceResolve answers s = .ok u s') : resolve answers s = .ok u s' := by
  rw [enforceResolve] at h
  split at h <;> cases h
  assumption

theorem inlinable_eq_none (hnone : ∀ index,
    (s.graph.node index).isSome → s.providerType index = "" →
      s.functionBody index = none) : s.inlinable = none := by
  refine findSome?_eq_none_iff.mpr fun entry hentry => ?_
  split
  · rename_i htype
    have hnode := mem_liveNodes.mp hentry
    rw [hnone entry.1 (by rw [hnode]; rfl) htype]
    rfl
  · rfl

/-- The state in which one more capability of a provider is considered: the
providers before it were asked, and the provider was for some capabilities. -/
def Considering (exportDll : Bool) (answers : RoundAnswers)
    (start : PartitionState)
    (front : List (IExecutionProvider × List (Option IndexedSubGraph)))
    (provider : IExecutionProvider) (earlier : List (Option IndexedSubGraph))
    (s : PartitionState) : Prop :=
  ∃ mid fusing, assignProviders exportDll answers front start = .ok () mid ∧
    earlier.foldlM (considerCapability answers provider) {} mid = .ok fusing s

/-- Without functions to inline there is one round, and no function of a fused
node is inlined. -/
theorem partition_eq_ok {providers : List IExecutionProvider} {rounds : Nat}
    {answers : Nat → RoundAnswers}
    (hbodies : ∀ index, start.functionBody index = none)
    (hinstantiate : ∀ g index, (answers 0).instantiate g index = none)
    (hrun : partition exportDll providers rounds answers start =
      some (.ok () s')) :
    ∃ assigned, assignProviders exportDll (answers 0)
      (providers.map fun provider =>
        (provider, (answers 0).getCapability provider start)) start =
          .ok () assigned ∧ resolve (answers 0) assigned = .ok () s' := by
  cases rounds with
  | zero => cases hrun
  | succ rounds =>
    have hround : ∀ inlines t, partitionRound exportDll (answers 0) providers
        start = .ok inlines t → inlines = false ∧ ∃ assigned,
        assignProviders exportDll (answers 0) (providers.map fun provider =>
          (provider, (answers 0).getCapability provider start)) start =
            .ok () assigned ∧ resolve (answers 0) assigned = .ok () t := by
      intro inlines t hround
      rw [partitionRound] at hround
      split at hround
      · cases hround
      · replace hround := state_get_bind.mp hround
        obtain ⟨_, assigned, hassigned, hround⟩ := state_bind_eq_ok.mp hround
        obtain ⟨_, resolved, henforce, hround⟩ := state_bind_eq_ok.mp hround
        have hresolve := enforceResolve_returns henforce
        obtain ⟨granted, -, hreflects⟩ := assignProviders_reflects hassigned
        obtain ⟨hthin, htype, -, -, hbody⟩ := resolve_returns hresolve
        have hnone : resolved.inlinable = none := by
          refine inlinable_eq_none fun index hlive hfree => ?_
          obtain ⟨node, hnode⟩ := isSome_iff_exists.mp hlive
          have hbound : index < assigned.graph.nodes.length := by
            rw [← hthin.length_eq]
            exact lt_length_of_node hnode
          by_cases hold : index < start.graph.nodes.length
          · have hassignedBody := hreflects.bodyKept index hold
            rw [hbodies] at hassignedBody
            rcases hbody index with hsame | hsame
            · rw [hsame, hassignedBody]
            · rw [hsame, hassignedBody, hinstantiate]
              rfl
          · obtain ⟨offer, -, hprovider, -⟩ :=
              hreflects.exists_fused (Nat.le_of_not_lt hold) hbound
            rw [htype, hprovider] at hfree
            exact absurd hfree offer.provider.type_ne
        have hinline := state_get_bind.mp hround
        rw [hnone] at hinline
        cases hinline
        exact ⟨rfl, assigned, hassigned, hresolve⟩
    rw [partition] at hrun
    split at hrun
    · cases hrun
    · rename_i t hok
      cases hrun
      exact (hround _ _ hok).2
    · rename_i t hok
      cases (hround _ _ hok).1

/-- Offers are considered in the order of the providers and of their
capabilities, first come, first served, and at every moment the nodes are those
of the beginning except for the ones that were fused. -/
theorem partition_greedy (exportDll : Bool)
    (providers : List IExecutionProvider) (rounds : Nat)
    (answers : Nat → RoundAnswers) (start result : PartitionState)
    (hbodies : ∀ index, start.functionBody index = none)
    (hinstantiate : ∀ g index, (answers 0).instantiate g index = none)
    (hrun : partition exportDll providers rounds answers start =
      some (.ok () result)) :
    (∀ front provider earlier later back,
      (providers.map fun provider =>
        (provider, (answers 0).getCapability provider start)) =
          front ++ (provider, earlier ++ later) :: back →
      ∀ s, Considering exportDll (answers 0) start front provider earlier s →
        ∃ granted, Granting start.Free
          (allOffers front ++ offersOf provider earlier) granted ∧
          Reflects start granted s) ∧
    ∃ granted assigned,
      Granting start.Free (allOffers (providers.map fun provider =>
        (provider, (answers 0).getCapability provider start))) granted ∧
      (granted.Pairwise fun earlier later =>
        ∀ index ∈ earlier.nodes, index ∉ later.nodes) ∧
      Reflects start granted assigned ∧
      Graph.Thinned assigned.graph result.graph ∧
      result.providerType = assigned.providerType ∧
      ∀ index, (start.graph.node index).isSome → start.providerType index ≠ "" →
        result.providerType index = start.providerType index := by
  obtain ⟨assigned, hassigned, hresolve⟩ :=
    partition_eq_ok hbodies hinstantiate hrun
  obtain ⟨granted, hgranting, hreflects⟩ := assignProviders_reflects hassigned
  obtain ⟨hthin, htype, -⟩ := resolve_returns hresolve
  refine ⟨?_, granted, assigned, hgranting, hgranting.disjoint, hreflects,
    hthin, htype, fun index hlive hprovider => ?_⟩
  · rintro front provider earlier later back - s ⟨mid, fusing, hfront, hearlier⟩
    obtain ⟨granted, hgranting, hmid⟩ := assignProviders_reflects hfront
    exact considerAll_reflects hgranting hmid hearlier
  · obtain ⟨node, hnode⟩ := isSome_iff_exists.mp hlive
    rw [htype]
    refine hreflects.providerKept index (lt_length_of_node hnode)
      fun offer hoffer _ hin => ?_
    exact hprovider (hgranting.free_of_mem hoffer hin).2

end Runs

section Example

/-- The value of a run that is known to return. -/
theorem exists_ok {ε σ : Type} {run : Option (EStateM.Result ε σ α)}
    (h : (run.any fun result =>
      match result with
      | .ok _ _ => true
      | .error _ _ => false) = true) : ∃ a s, run = some (.ok a s) := by
  match run with
  | none => cases h
  | some (.error _ _) => cases h
  | some (.ok a s) => exact ⟨a, s, rfl⟩

/-- Three nodes in a row; the last one has a provider. -/
def chainState : PartitionState where
  graph := {
    nodes := [
      some { opType := "Conv", inputDefs := [⟨0, "x"⟩],
             outputDefs := [⟨1, "a"⟩], outputEdges := [⟨1, 0, 0⟩] },
      some { opType := "Relu", inputDefs := [⟨1, "a"⟩],
             outputDefs := [⟨2, "b"⟩], inputEdges := [⟨0, 0, 0⟩],
             outputEdges := [⟨2, 0, 0⟩] },
      some { opType := "Relu", inputDefs := [⟨2, "b"⟩],
             outputDefs := [⟨3, "y"⟩], inputEdges := [⟨1, 0, 0⟩] }]
    numOfNodes := 3
    nodeArgs := [⟨0, "x"⟩, ⟨1, "a"⟩, ⟨2, "b"⟩, ⟨3, "y"⟩] }
  providerType := Function.update (fun _ => "") 2 "CUDA"

def accelerator : IExecutionProvider := ⟨"Accelerator", by decide⟩

def cpu : IExecutionProvider := ⟨"CPU", by decide⟩

/-- The accelerator takes the first two nodes, the other offers come late. -/
def chainAnswers : RoundAnswers where
  getCapability provider _ :=
    if provider = accelerator then
      [some ⟨[0, 1], some ⟨"ConvRelu", ["x"], ["b"]⟩⟩,
        some ⟨[1, 2], some ⟨"ReluRelu", ["a"], ["y"]⟩⟩]
    else [some ⟨[0], none⟩, some ⟨[2], none⟩]
  tryFindKernel _ _ _ := false
  makeFunction _ _ := .ok ()
  compileLibrary _ _ _ := .ok ()
  compile _ _ nodes := .ok (nodes.map fun _ => ⟨true, true, true⟩)
  subgraphUses _ := []
  inferTypes g := .ok g.argType
  instantiate _ _ := none

theorem partition_greedy_chain : ∃ result,
    partition false [accelerator, cpu] 1 (fun _ => chainAnswers) chainState =
      some (.ok () result) ∧ result.providerType 2 = "CUDA" := by
  obtain ⟨_, result, hrun⟩ : ∃ u result, partition false [accelerator, cpu] 1
      (fun _ => chainAnswers) chainState = some (.ok u result) :=
    exists_ok (by decide +kernel)
  obtain ⟨-, granted, assigned, -, -, -, -, -, hkept⟩ := partition_greedy false
    [accelerator, cpu] 1 (fun _ => chainAnswers) chainState result
    (fun _ => rfl) (fun _ _ => rfl) hrun
  exact ⟨result, hrun, hkept 2 rfl (by decide)⟩

end Example

end GraphPartitioner

end OnnxRuntime
