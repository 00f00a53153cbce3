/-
Runs of items that depend on each other: an item starts once everything with
an edge to it has finished, otherwise items overlap in any way.  Depth-first
walks with an explicit stack list every item after its predecessors.
-/
import Mathlib.Data.Set.Finite.Basic
import Mathlib.Order.WellFoundedSet

namespace OnnxRuntime

open List

universe u

variable {α : Type u} {items : List α}

/-- Induction along the edges of a finite acyclic relation. -/
theorem acyclic_induction {edge : α → α → Prop}
    (hends : ∀ y x, edge y x → y ∈ items)
    (hacyclic : ∀ x, ¬ Relation.TransGen edge x x) {motive : α → Prop}
    (hstep : ∀ x ∈ items, (∀ y, edge y x → motive y) → motive x) :
    ∀ x ∈ items, motive x := by
  let before : {x // x ∈ items} → {x // x ∈ items} → Prop := fun y x =>
    Relation.TransGen edge y.1 x.1
  have hfinite : Finite {x // x ∈ items} := items.finite_toSet
  have : Std.Irrefl before := ⟨fun x => hacyclic x.1⟩
  have hwf : WellFounded before := Finite.wellFounded_of_trans_of_irrefl before
  intro x hx
  refine hwf.induction (C := fun x => motive x.1) ⟨x, hx⟩ fun x ih => ?_
  exact hstep x.1 x.2 fun y hedge =>
    ih ⟨y, hends y x.1 hedge⟩ (.single hedge)

/-- The items started and finished so far, the last one first. -/
structure Progress (α : Type u) where
  started : List α := []
  finished : List α := []

namespace Progress

variable (item : α → Prop) (edge : α → α → Prop)

inductive Step : Progress α → Progress α → Prop
  | start {p : Progress α} {x : α} (hitem : item x) (hnew : x ∉ p.started)
      (hready : ∀ y, edge y x → y ∈ p.finished) :
      Step p { p with started := x :: p.started }
  | finish {p : Progress α} {x : α} (hstarted : x ∈ p.started)
      (hrunning : x ∉ p.finished) :
      Step p { p with finished := x :: p.finished }

def Reachable (p : Progress α) : Prop :=
  Relation.ReflTransGen (Step item edge) {} p

/-- What holds in every run. -/
structure Consistent (p : Progress α) : Prop where
  started_nodup : p.started.Nodup
  finished_nodup : p.finished.Nodup
  finished_started : p.finished ⊆ p.started
  items : ∀ x ∈ p.started, item x
  ready : ∀ x ∈ p.started, ∀ y, edge y x → y ∈ p.finished

variable {item edge}

theorem Consistent.step {p q : Progress α} (h : Consistent item edge p)
    (hstep : Step item edge p q) : Consistent item edge q := by
  rcases hstep with ⟨hitem, hnew, hready⟩ | ⟨hstarted, hrunning⟩
  · constructor
    · exact nodup_cons.mpr ⟨hnew, h.started_nodup⟩
    · exact h.finished_nodup
    · exact fun y hy => mem_cons_of_mem _ (h.finished_started hy)
    · intro y hy
      rcases mem_cons.mp hy with rfl | hy
      · exact hitem
      · exact h.items y hy
    · intro y hy
      rcases mem_cons.mp hy with rfl | hy
      · exact hready
      · exact h.ready y hy
  · constructor
    · exact h.started_nodup
    · exact nodup_cons.mpr ⟨hrunning, h.finished_nodup⟩
    · intro y hy
      rcases mem_cons.mp hy with rfl | hy
      · exact hstarted
      · exact h.finished_started hy
    · exact h.items
    · exact fun y hy z hedge => mem_cons_of_mem _ (h.ready y hy z hedge)

theorem Reachable.consistent {p : Progress α} (h : Reachable item edge p) :
    Consistent item edge p := by
  induction h with
  | refl => constructor <;> simp
  | tail _ hstep ih => exact ih.step hstep

/-- Whatever is ordered before a started item has finished. -/
theorem Consistent.finished_of_ordered {p : Progress α}
    (h : Consistent item edge p) {x y : α}
    (hordered : Relation.TransGen edge y x) (hx : x ∈ p.started) :
    y ∈ p.finished := by
  induction hordered with
  | single hedge => exact h.ready _ hx y hedge
  | tail _ hedge ih => exact ih (h.finished_started (h.ready _ hx _ hedge))

end Progress

open Relation

namespace DepthFirst

variable {α : Type} {edge : α → α → Prop} {order : List α}
  {stack : List (α × Bool)} {current : α}

/-- Every entry comes after the sources of the edges to it. -/
def Ordered (edge : α → α → Prop) (order : List α) : Prop :=
  ∀ front current back, order = front ++ current :: back →
    ∀ source, edge source current → source ∈ front

section

variable (h : Ordered edge order)
include h

theorem Ordered.concat
    (hsources : ∀ source, edge source current → source ∈ order) :
    Ordered edge (order ++ [current]) := by
  intro front entry back heq source hsource
  rcases eq_nil_or_concat' back with rfl | ⟨rest, last, rfl⟩
  · obtain ⟨rfl, hlast⟩ := append_inj' heq rfl
    cases hlast
    exact hsources source hsource
  · rw [← cons_append, ← append_assoc] at heq
    obtain ⟨rfl, -⟩ := append_inj' heq rfl
    exact h front entry rest rfl source hsource

theorem Ordered.mem_of_mem (hmem : current ∈ order) {source : α}
    (hsource : edge source current) : source ∈ order := by
  obtain ⟨front, back, rfl⟩ := append_of_mem hmem
  exact mem_append_left _ (h front current back rfl source hsource)

/-- With an edge, everything that leads to it comes before. -/
theorem Ordered.idxOf_lt [DecidableEq α] (hmem : current ∈ order) {source : α}
    (hsource : edge source current) :
    order.idxOf source < order.idxOf current := by
  have hlt := idxOf_lt_length_of_mem hmem
  have hsplit : order = order.take (order.idxOf current) ++
      current :: order.drop (order.idxOf current + 1) := by
    nth_rewrite 1 [← take_append_drop (order.idxOf current) order]
    rw [drop_eq_getElem_cons hlt, getElem_idxOf]
  have hfront := h _ _ _ hsplit source hsource
  have hbefore := idxOf_lt_length_of_mem hfront
  rw [length_take] at hbefore
  rw [hsplit, idxOf_append_of_mem hfront, ← hsplit]
  omega

/-- A list of all nodes in this order shows that there is no cycle. -/
theorem Ordered.not_transGen [DecidableEq α] (hmem : current ∈ order) :
    ¬ TransGen edge current current := by
  intro hcycle
  have hlt : ∀ {source target}, TransGen edge source target →
      target ∈ order → source ∈ order ∧
        order.idxOf source < order.idxOf target := by
    intro source target hpath htarget
    induction hpath with
    | single hedge => exact ⟨h.mem_of_mem htarget hedge, h.idxOf_lt htarget hedge⟩
    | tail _ hedge ih =>
      have hmiddle := h.mem_of_mem htarget hedge
      exact ⟨(ih hmiddle).1, (ih hmiddle).2.trans (h.idxOf_lt htarget hedge)⟩
  exact Nat.lt_irrefl _ (hlt hcycle hmem).2

/-- Without cycles, a list that holds the sources of its entries and all nodes
without a target holds every node. -/
theorem Ordered.mem_of_leaves {live : List α}
    (hlive : ∀ source target, edge source target → target ∈ live)
    (hacyclic : ∀ node, ¬ TransGen edge node node)
    (hleaves : ∀ node ∈ live, (∀ target, ¬ edge node target) → node ∈ order) :
    ∀ node ∈ live, node ∈ order := by
  have hstrict :
      IsStrictOrder α fun target source => TransGen edge source target :=
    { irrefl := hacyclic
      trans := fun _ _ _ htarget hsource => hsource.trans htarget }
  have hwell := (finite_toSet live).wellFoundedOn
    (r := fun target source => TransGen edge source target)
  intro node hnode
  refine hwell.induction hnode fun current hcurrent ih => ?_
  by_cases hleaf : ∀ target, ¬ edge current target
  · exact hleaves current hcurrent hleaf
  · obtain ⟨target, hedge⟩ := not_forall_not.mp hleaf
    exact h.mem_of_mem (ih target (hlive current target hedge) (.single hedge))
      hedge

end

/-- The nodes that were entered and not left. -/
def markers (stack : List (α × Bool)) : List α :=
  (stack.filter (·.2)).map (·.1)

def nodes (stack : List (α × Bool)) : List α := stack.map (·.1)

@[simp]
theorem nodes_cons (entry : α × Bool) (rest : List (α × Bool)) :
    nodes (entry :: rest) = entry.1 :: nodes rest := rfl

@[simp]
theorem nodes_append (front back : List (α × Bool)) :
    nodes (front ++ back) = nodes front ++ nodes back := map_append

@[simp]
theorem nodes_map (pushed : List α) : nodes (pushed.map (·, false)) = pushed := by
  simp [nodes, Function.comp_def]

/-- What holds between the steps of a walk that follows edges backwards.  An
entry of the stack is a node to be left, or one to be entered. -/
structure Walk (edge : α → α → Prop) (order : List α)
    (stack : List (α × Bool)) : Prop where
  ordered : Ordered edge order
  nodup : (order ++ markers stack).Nodup
  /-- What lies above an open node leads to it, and once this is done all its
  sources are. -/
  above : ∀ front node back, stack = front ++ (node, true) :: back →
    node ∉ nodes front ∧ (∀ other ∈ nodes front, TransGen edge other node) ∧
      ∀ source, edge source node → source ∈ order ∨ source ∈ nodes front

namespace Walk

/-- Roots come first, and nothing is open. -/
theorem start {starts : List α} (hnodup : order.Nodup)
    (hroots : ∀ node ∈ order, ∀ source, ¬ edge source node) :
    Walk edge order (starts.map (·, false)) where
  ordered := by
    intro front node back heq source hsource
    exact absurd hsource (hroots node (by simp [heq]) source)
  nodup := by
    have hnone : markers (starts.map (·, false)) = [] := by
      simp [markers]
    rw [hnone, append_nil]
    exact hnodup
  above := by
    intro front node back heq
    have hmem : (node, true) ∈ starts.map (·, false) := by simp [heq]
    simp at hmem

theorem leave (h : Walk edge order ((current, true) :: stack)) :
    Walk edge (order ++ [current]) stack where
  ordered := by
    refine h.ordered.concat fun source hsource => ?_
    obtain ⟨-, -, hsources⟩ := h.above [] current stack rfl
    rcases hsources source hsource with hmem | hmem
    · exact hmem
    · cases hmem
  nodup := by
    rw [append_assoc]
    exact h.nodup
  above := by
    intro front node back heq
    obtain ⟨hnot, hlead, hsources⟩ :=
      h.above ((current, true) :: front) node back (by rw [heq]; rfl)
    refine ⟨fun hmem => hnot (mem_cons_of_mem _ hmem),
      fun other hmem => hlead other (mem_cons_of_mem _ hmem), ?_⟩
    intro source hsource
    rcases hsources source hsource with hmem | hmem
    · exact .inl (mem_append_left _ hmem)
    · rcases mem_cons.mp hmem with rfl | hmem
      · exact .inl (by simp)
      · exact .inr hmem

/-- The open nodes of a stack after a node was entered. -/
theorem split_of_eq {pushed : List α} {front back : List (α × Bool)} {node : α}
    (heq : pushed.map (·, false) ++ (current, true) :: stack =
      front ++ (node, true) :: back) :
    (front = pushed.map (·, false) ∧ node = current ∧ back = stack) ∨
      ∃ middle, front = pushed.map (·, false) ++ (current, true) :: middle ∧
        stack = middle ++ (node, true) :: back := by
  rcases append_eq_append_iff.mp heq with ⟨rest, hfront, hrest⟩ |
    ⟨rest, hpushed, hrest⟩
  · cases rest with
    | nil =>
      cases hrest
      exact .inl ⟨by rw [hfront, append_nil], rfl, rfl⟩
    | cons first middle =>
      cases hrest
      exact .inr ⟨middle, hfront, rfl⟩
  · cases rest with
    | nil =>
      cases hrest
      exact .inl ⟨by rw [hpushed, append_nil], rfl, rfl⟩
    | cons first middle =>
      cases hrest
      have hmem : (node, true) ∈ pushed.map (·, false) := by simp [hpushed]
      simp at hmem

variable (h : Walk edge order ((current, false) :: stack))
include h

theorem skip (hdone : current ∈ order) : Walk edge order stack where
  ordered := h.ordered
  nodup := h.nodup
  above := by
    intro front node back heq
    obtain ⟨hnot, hlead, hsources⟩ :=
      h.above ((current, false) :: front) node back (by rw [heq]; rfl)
    refine ⟨fun hmem => hnot (mem_cons_of_mem _ hmem),
      fun other hmem => hlead other (mem_cons_of_mem _ hmem), ?_⟩
    intro source hsource
    rcases hsources source hsource with hmem | hmem
    · exact .inl hmem
    · rcases mem_cons.mp hmem with rfl | hmem
      · exact .inl hdone
      · exact .inr hmem

/-- A node to be entered is not open, and leads to every open node. -/
theorem transGen_of_mem_markers {node : α} (hopen : node ∈ markers stack) :
    current ≠ node ∧ TransGen edge current node := by
  obtain ⟨⟨node, flag⟩, hmem, rfl⟩ := mem_map.mp hopen
  obtain ⟨hmem, hflag⟩ := mem_filter.mp hmem
  obtain rfl : flag = true := hflag
  obtain ⟨front, back, rfl⟩ := append_of_mem hmem
  obtain ⟨hnot, hlead, -⟩ := h.above ((current, false) :: front) node back rfl
  exact ⟨fun heq => hnot (heq ▸ mem_cons_self), hlead current mem_cons_self⟩

theorem enter {pushed : List α} (hnew : current ∉ order ++ markers stack)
    (hpushed : ∀ node ∈ pushed,
      edge node current ∧ node ∉ current :: markers stack)
    (hsources : ∀ source, edge source current →
      source ∈ order ∨ source ∈ pushed) :
    Walk edge order (pushed.map (·, false) ++ (current, true) :: stack) where
  ordered := h.ordered
  nodup := by
    have hmarkers : markers (pushed.map (·, false) ++ (current, true) :: stack) =
        current :: markers stack := by
      simp [markers]
    rw [hmarkers, nodup_middle]
    exact nodup_cons.mpr ⟨hnew, h.nodup⟩
  above := by
    intro front node back heq
    rcases split_of_eq heq with ⟨rfl, rfl, rfl⟩ | ⟨middle, rfl, rfl⟩
    · rw [nodes_map]
      exact ⟨fun hmem => (hpushed node hmem).2 mem_cons_self,
        fun other hmem => .single (hpushed other hmem).1, hsources⟩
    · obtain ⟨hnot, hlead, hdone⟩ :=
        h.above ((current, false) :: middle) node back rfl
      have hopen : node ∈ markers (middle ++ (node, true) :: back) := by
        simp [markers]
      have hcurrent := hlead current mem_cons_self
      have hsplit : ∀ other, other ∈ nodes (pushed.map (·, false) ++
          (current, true) :: middle) ↔
          other ∈ pushed ∨ other ∈ nodes ((current, false) :: middle) := by
        intro other
        simp [nodes]
      refine ⟨?_, ?_, ?_⟩
      · rw [hsplit]
        rintro (hmem | hmem)
        · exact (hpushed node hmem).2 (mem_cons_of_mem _ hopen)
        · exact hnot hmem
      · intro other hother
        rcases (hsplit other).mp hother with hmem | hmem
        · exact .head (hpushed other hmem).1 hcurrent
        · exact hlead other hmem
      · intro source hsource
        rcases hdone source hsource with hmem | hmem
        · exact .inl hmem
        · exact .inr ((hsplit source).mpr (.inr hmem))

end Walk

end DepthFirst

end OnnxRuntime
