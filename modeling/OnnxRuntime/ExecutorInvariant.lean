/-
The accounts of the parallel executor: how often a node is scheduled, how many
edges are still to be released, and what the outstanding counter counts.
-/
import OnnxRuntime.ParallelExecutor
import Mathlib.Algebra.Order.BigOperators.Group.List

namespace OnnxRuntime

open List Option ExecutorShared WorkerPc ExecutorGraph

variable {shared : ExecutorShared} {pc' : WorkerPc}

namespace MainPc

/-- The roots still to be enqueued. -/
def roots : MainPc → List NodeIndex
  | .enqueue roots => roots
  | .push _ roots => roots
  | _ => []

/-- The root that is being enqueued. -/
def tokens : MainPc → List NodeIndex
  | .push root _ => [root]
  | _ => []

end MainPc

namespace WorkerPc

/-- The nodes a thread is about to run or to enqueue. -/
def tokens : WorkerPc → List NodeIndex
  | .begin node => [node]
  | .releasing _ _ next => next.toList
  | .counting _ target _ next => [target, next]
  | .pushing _ target _ next => [target, next]
  | _ => []

/-- The output edges of finished nodes that are still to be released. -/
def pending (g : ExecutorGraph) : WorkerPc → List NodeIndex
  | .computed node => g.outputEdges node
  | .releasing _ edges _ => edges
  | .counting _ _ edges _ => edges
  | .pushing _ _ edges _ => edges
  | _ => []

def running : WorkerPc → List NodeIndex
  | .computing node => [node]
  | _ => []

/-- What a thread contributes to `out_standings_`: its own task, and one that
is counted but not yet pushed. -/
def weight : WorkerPc → Nat
  | .idle => 0
  | .notifying => 0
  | .pushing _ _ _ _ => 2
  | _ => 1

/-- Whether a thread holds `ref_mutex_`. -/
def holds : WorkerPc → Nat
  | .releasing _ _ _ => 1
  | .counting _ _ _ _ => 1
  | .pushing _ _ _ _ => 1
  | _ => 0

end WorkerPc

theorem ExecutorShared.nodeRefs_release (s : ExecutorShared)
    (target node : NodeIndex) :
    (s.release target).nodeRefs node =
      if node = target then sizeDec (s.nodeRefs target)
      else s.nodeRefs node :=
  Function.update_apply _ _ _ _

/-- How often a node is scheduled outside the threads of the pool. -/
def ExecutorShared.scheduled (s : ExecutorShared) (node : NodeIndex) : Nat :=
  s.main.roots.count node + s.main.tokens.count node + s.tasks.count node +
    s.started.count node

namespace ExecutorState

/-- A sum over the threads of the pool. -/
def total (s : ExecutorState) (f : WorkerPc → Nat) : Nat :=
  (s.workers.map f).sum

/-- How often a node is, or was, scheduled. -/
def scheduled (s : ExecutorState) (node : NodeIndex) : Nat :=
  s.toExecutorShared.scheduled node + s.total fun pc => pc.tokens.count node

end ExecutorState

/-- The edges into a node from nodes that have finished. -/
def ExecutorGraph.arrived (g : ExecutorGraph) (finished : List NodeIndex)
    (node : NodeIndex) : Nat :=
  (finished.map fun source => (g.outputEdges source).count node).sum

structure ExecutorInvariant (g : ExecutorGraph) (s : ExecutorState) :
    Prop where
  scheduled_le : ∀ node, s.scheduled node ≤ 1
  scheduled_ready : ∀ node, 0 < s.scheduled node →
    node ∈ g.nodes ∧ s.nodeRefs node = 0
  ready_scheduled : ∀ node ∈ g.nodes, s.nodeRefs node = 0 →
    g.outcome node ≠ .missingKernel → s.scheduled node = 1
  refs_le : ∀ node, s.nodeRefs node ≤ (g.inputEdges node).length
  refs_eq : ∀ node, s.nodeRefs node + g.arrived s.finished node =
    (g.inputEdges node).length + s.total fun pc => (pc.pending g).count node
  running_eq : ∀ node, g.outcome node = .computed →
    s.finished.count node + (s.total fun pc => pc.running.count node) =
      s.started.count node
  finished_computed : ∀ node ∈ s.finished, g.outcome node = .computed
  outStandings_eq : s.outStandings =
    ((s.main.tokens.length + s.tasks.length + s.total WorkerPc.weight : Nat) :
      Int)
  locked_eq : s.total WorkerPc.holds = if s.refMutexLocked then 1 else 0
  waiting_ok : s.main = .waiting false →
    0 < s.outStandings ∨ WorkerPc.notifying ∈ s.workers
  returned_ok : s.main = .returned → s.outStandings = 0

variable {s : ExecutorState} {index : Nat} {pc : WorkerPc} {g : ExecutorGraph}
  {s' : ExecutorShared}

theorem ExecutorState.total_set (hpc : s.workers[index]? = some pc)
    (shared : ExecutorShared) (pc' : WorkerPc) (f : WorkerPc → Nat) :
    ExecutorState.total { shared with workers := s.workers.set index pc' } f +
      f pc = s.total f + f pc' := by
  rw [total, total]
  dsimp only
  generalize s.workers = workers at hpc
  induction workers generalizing index with
  | nil => exact nomatch hpc
  | cons head rest ih =>
    rcases index with _ | index
    · cases hpc
      simp only [set_cons_zero, map_cons, sum_cons]
      omega
    · have hrest := ih hpc
      simp only [set_cons_succ, map_cons, sum_cons]
      omega

theorem ExecutorState.total_eq_zero_iff {f : WorkerPc → Nat} :
    s.total f = 0 ↔ ∀ pc ∈ s.workers, f pc = 0 := by
  simp [total, sum_eq_zero_iff]

theorem ExecutorState.le_total (hpc : s.workers[index]? = some pc)
    (f : WorkerPc → Nat) :
    f pc ≤ s.total f :=
  single_le_sum (fun _ _ => Nat.zero_le _) _
    (mem_map_of_mem (mem_of_getElem? hpc))

/-- A list counts each member of a duplicate-free list. -/
theorem sum_count_eq_countP (items keys : List NodeIndex)
    (hnodup : keys.Nodup) :
    (keys.map fun key => items.count key).sum =
      items.countP fun item => item ∈ keys := by
  induction keys with
  | nil => simp
  | cons key keys ih =>
    obtain ⟨hkey, hkeys⟩ := nodup_cons.mp hnodup
    rw [map_cons, sum_cons, ih hkeys]
    clear ih hnodup hkeys
    induction items with
    | nil => rfl
    | cons item items ih =>
      rw [countP_cons, countP_cons]
      by_cases heq : item = key
      · subst heq
        simp [hkey] at ih ⊢
        omega
      · simp [heq] at ih ⊢
        omega

namespace ExecutorGraph.WellFormed

variable {finished : List NodeIndex} {node : NodeIndex} (h : g.WellFormed)
include h

theorem arrived_eq (hnodup : finished.Nodup) (node : NodeIndex) :
    g.arrived finished node =
      (g.inputEdges node).countP fun source => source ∈ finished := by
  rw [arrived, ← sum_count_eq_countP _ _ hnodup]
  congr 1
  apply map_congr_left
  intro source _
  exact h.mirrored source node

/-- If all edges into a node have arrived, their sources have finished. -/
theorem finished_of_arrived (hnodup : finished.Nodup)
    (harrived : (g.inputEdges node).length ≤ g.arrived finished node) :
    ∀ source, g.Edge source node → source ∈ finished := by
  rw [h.arrived_eq hnodup] at harrived
  have heq := Nat.le_antisymm countP_le_length harrived
  intro source hsource
  exact of_decide_eq_true (countP_eq_length.mp heq source hsource)

theorem inputEdges_eq_nil (hnode : node ∉ g.nodes) :
    g.inputEdges node = [] := by
  rw [eq_nil_iff_forall_not_mem]
  exact fun source hsource => hnode (h.ends source node hsource).2

end ExecutorGraph.WellFormed

namespace ExecutorInvariant

variable {node : NodeIndex} (h : ExecutorInvariant g s)
include h

theorem started_le (node : NodeIndex) : s.started.count node ≤ 1 := by
  have hle := h.scheduled_le node
  rw [ExecutorState.scheduled, scheduled] at hle
  omega

theorem finished_nodup : s.finished.Nodup := by
  rw [nodup_iff_count_le_one]
  intro node
  by_cases hmem : node ∈ s.finished
  · have hrunning := h.running_eq node (h.finished_computed node hmem)
    have hstarted := h.started_le node
    omega
  · rw [count_eq_zero_of_not_mem hmem]
    omega

variable (hg : g.WellFormed)
include hg

/-- Every edge that is still to be released is in the reference count. -/
theorem pending_le (node : NodeIndex) :
    (s.total fun pc => (pc.pending g).count node) ≤ s.nodeRefs node := by
  have hrefs := h.refs_eq node
  have hle : g.arrived s.finished node ≤ (g.inputEdges node).length := by
    rw [hg.arrived_eq h.finished_nodup]
    exact countP_le_length
  omega

/-- The reference count does not underflow. -/
theorem refs_pos {target : NodeIndex} {edges : List NodeIndex}
    {next : Option NodeIndex}
    (hpc : s.workers[index]? = some (.releasing node (target :: edges) next)) :
    0 < s.nodeRefs target := by
  have hle : (target :: edges).count target ≤
      s.total fun pc => (pc.pending g).count target :=
    ExecutorState.le_total hpc fun pc => (pc.pending g).count target
  have hpending := h.pending_le hg target
  rw [count_cons_self] at hle
  omega

/-- When a node is scheduled, all nodes with an edge to it have finished. -/
theorem finished_of_scheduled (hscheduled : 0 < s.scheduled node) :
    ∀ source, g.Edge source node → source ∈ s.finished := by
  have hzero := (h.scheduled_ready node hscheduled).2
  have hrefs := h.refs_eq node
  exact hg.finished_of_arrived h.finished_nodup (by omega)

end ExecutorInvariant

/-- The start of `Execute`. -/
theorem ExecutorGraph.WellFormed.start (hg : g.WellFormed) (poolSize : Nat) :
    ExecutorInvariant g (g.start poolSize) := by
  have htotal : ∀ f : WorkerPc → Nat, f .idle = 0 →
      (g.start poolSize).total f = 0 := by
    intro f hf
    simp [ExecutorState.total, ExecutorGraph.start, hf]
  have hrefs : ∀ node, (g.start poolSize).nodeRefs node =
      (g.inputEdges node).length := by
    intro node
    change (if node ∈ g.nodes then _ else _) = _
    split
    · rfl
    · rename_i hnode
      rw [hg.inputEdges_eq_nil hnode]
      rfl
  have hscheduled : ∀ node, (g.start poolSize).scheduled node =
      g.rootNodes.count node := by
    intro node
    rw [ExecutorState.scheduled, htotal _ rfl]
    rfl
  have hroots : g.rootNodes.Nodup := hg.nodup.filter _
  have hmem : ∀ node, node ∈ g.rootNodes ↔
      node ∈ g.nodes ∧ g.inputEdges node = [] := by
    simp [rootNodes]
  constructor
  · intro node
    rw [hscheduled]
    exact nodup_iff_count_le_one.mp hroots node
  · intro node hpos
    rw [hscheduled, count_pos_iff, hmem] at hpos
    rw [hrefs, hpos.2]
    exact ⟨hpos.1, rfl⟩
  · intro node hnode hzero _
    rw [hrefs, length_eq_zero_iff] at hzero
    rw [hscheduled]
    exact count_eq_one_of_mem hroots ((hmem node).mpr ⟨hnode, hzero⟩)
  · intro node
    rw [hrefs]
  · intro node
    rw [hrefs, htotal _ (by simp [pending])]
    rfl
  · intro node _
    rw [htotal _ (by simp [running])]
    rfl
  · intro node hnode
    exact nomatch hnode
  · rw [htotal _ rfl]
    rfl
  · rw [htotal _ rfl]
    rfl
  · intro hwaiting
    exact nomatch hwaiting
  · intro hreturned
    exact nomatch hreturned

/-- What a step of a thread of the pool changes. -/
structure ExecutorGraph.WorkerMove (g : ExecutorGraph) (s : ExecutorShared)
    (pc : WorkerPc) (s' : ExecutorShared) (pc' : WorkerPc) : Prop where
  main : s'.main = if pc = .notifying then s.main.notify else s.main
  outStandings : s'.outStandings + s.tasks.length + pc.weight =
    s.outStandings + s'.tasks.length + pc'.weight
  -- The thread that brings the counter to zero notifies.
  notifying : 0 < s.outStandings → s'.outStandings = 0 → pc' = .notifying
  locked : (if s'.refMutexLocked then 1 else 0) + pc.holds =
    (if s.refMutexLocked then 1 else 0) + pc'.holds
  running : ∀ node, g.outcome node = .computed →
    s'.finished.count node + pc'.running.count node + s.started.count node =
      s.finished.count node + pc.running.count node + s'.started.count node
  finished : ∀ node ∈ s'.finished,
    node ∈ s.finished ∨ g.outcome node = .computed
  refs_le : ∀ node, s'.nodeRefs node ≤ s.nodeRefs node
  -- A released edge leaves the reference count, and a finished node brings
  -- its edges in.
  refs : ∀ node,
    s'.nodeRefs node + g.arrived s'.finished node + (pc.pending g).count node =
      s.nodeRefs node + g.arrived s.finished node + (pc'.pending g).count node
  -- A node is scheduled when its reference count drops to zero.
  scheduled : ∀ node, s'.scheduled node + pc'.tokens.count node =
    s.scheduled node + pc.tokens.count node +
      if s'.nodeRefs node = 0 ∧ s.nodeRefs node ≠ 0 then 1 else 0

theorem ExecutorGraph.workerStep_move {s : ExecutorShared}
    (hrefs : ∀ node target edges next,
      pc = .releasing node (target :: edges) next → 0 < s.nodeRefs target)
    (hlocked : pc.holds = 1 → s.refMutexLocked = true)
    (h : g.workerStep s pc = some (s', pc')) : g.WorkerMove s pc s' pc' := by
  have hrelease : ∀ target, s.release target =
    { s with nodeRefs := (s.release target).nodeRefs } := fun _ => rfl
  have hnotify : s.main.notify.roots = s.main.roots ∧
      s.main.notify.tokens = s.main.tokens := by
    cases s.main <;> exact ⟨rfl, rfl⟩
  revert h
  fun_cases g.workerStep s pc <;> intro h <;> cases h <;> exact {
    main := by grind [enter, unlock]
    outStandings := by grind [weight, enter, unlock]
    notifying := by grind [enter, unlock]
    locked := by grind [holds, enter, unlock]
    running := by grind [running, enter, unlock]
    finished := by grind [enter, unlock]
    refs_le := by grind [sizeDec, nodeRefs_release, enter, unlock]
    refs := by
      grind [sizeDec, nodeRefs_release, enter, unlock, pending, arrived]
    scheduled := by
      grind [nodeRefs_release, scheduled, enter, unlock, tokens] }

/-- What a step of the main thread changes. -/
structure ExecutorGraph.MainMove (g : ExecutorGraph)
    (s s' : ExecutorShared) : Prop where
  scheduled_le : ∀ node, s'.scheduled node ≤ s.scheduled node
  scheduled_eq : ∀ node, g.outcome node ≠ .missingKernel →
    s'.scheduled node = s.scheduled node
  nodeRefs_eq : s'.nodeRefs = s.nodeRefs
  started_eq : s'.started = s.started
  finished_eq : s'.finished = s.finished
  locked_eq : s'.refMutexLocked = s.refMutexLocked
  outStandings : s'.outStandings + s.main.tokens.length + s.tasks.length =
    s.outStandings + s'.main.tokens.length + s'.tasks.length
  waiting : s'.main = .waiting false → 0 < s'.outStandings
  returned : s'.main = .returned →
    s'.outStandings ≤ 0 ∧ s'.outStandings = s.outStandings

theorem ExecutorGraph.mainStep_move {s : ExecutorShared}
    (h : g.mainStep s = some s') :
    g.MainMove s s' := by
  revert h
  fun_cases g.mainStep s <;> intro h <;> cases h <;> constructor <;>
    grind [scheduled, MainPc.roots, MainPc.tokens]

theorem ExecutorGraph.wakeStep_move {s : ExecutorShared}
    (h : wakeStep s = some s') :
    g.MainMove s s' := by
  revert h
  fun_cases wakeStep s <;> intro h <;> cases h
  constructor <;> grind [scheduled, MainPc.roots, MainPc.tokens]

/-- A step is one of the main thread or of a worker. -/
theorem ExecutorGraph.step_cases {s s' : ExecutorState} {actor : Actor}
    (h : g.step s actor = some s') :
    (∃ shared, g.MainMove s.toExecutorShared shared ∧
      s' = { shared with workers := s.workers }) ∨
    ∃ index pc shared pc', s.workers[index]? = some pc ∧
      g.workerStep s.toExecutorShared pc = some (shared, pc') ∧
      s' = { shared with workers := s.workers.set index pc' } := by
  cases actor with
  | main =>
    obtain ⟨shared, hshared, hs'⟩ := bind_eq_some_iff.mp h
    exact .inl ⟨shared, mainStep_move hshared, (some.inj hs').symm⟩
  | wakeup =>
    obtain ⟨shared, hshared, hs'⟩ := bind_eq_some_iff.mp h
    exact .inl ⟨shared, wakeStep_move hshared, (some.inj hs').symm⟩
  | worker index =>
    obtain ⟨pc, hpc, h⟩ := bind_eq_some_iff.mp h
    obtain ⟨⟨shared, pc'⟩, hshared, hs'⟩ := bind_eq_some_iff.mp h
    exact .inr ⟨index, pc, shared, pc', hpc, hshared, (some.inj hs').symm⟩

namespace ExecutorInvariant

variable {s' : ExecutorState} (h : ExecutorInvariant g s)
include h

theorem outStandings_nonneg : 0 ≤ s.outStandings := by
  rw [h.outStandings_eq]
  exact Int.natCast_nonneg _

/-- When nothing is outstanding, no thread is in a task. -/
theorem quiet (hzero : s.outStandings = 0) : s.main.tokens = [] ∧ s.tasks = [] ∧
      ∀ pc ∈ s.workers, pc = .idle ∨ pc = .notifying := by
  have hsum := h.outStandings_eq
  refine ⟨length_eq_zero_iff.mp (by omega),
    length_eq_zero_iff.mp (by omega), ?_⟩
  intro pc hpc
  obtain ⟨index, hindex⟩ := getElem?_of_mem hpc
  have hle := ExecutorState.le_total hindex weight
  have hweight : pc.weight = 0 := by omega
  cases pc with
  | idle => exact .inl rfl
  | notifying => exact .inr rfl
  | _ => simp [weight] at hweight

theorem workerStep (hg : g.WellFormed)
    (hpc : s.workers[index]? = some pc)
    (hstep : g.workerStep s.toExecutorShared pc = some (shared, pc')) :
    ExecutorInvariant g { shared with workers := s.workers.set index pc' } := by
  have hlocked : pc.holds = 1 → s.refMutexLocked = true := by
    intro hholds
    have hle := ExecutorState.le_total hpc holds
    rw [h.locked_eq] at hle
    by_contra hfree
    rw [if_neg hfree] at hle
    omega
  have hmove : g.WorkerMove s.toExecutorShared pc shared pc' := by
    refine workerStep_move ?_ hlocked hstep
    rintro node target edges next rfl
    exact h.refs_pos hg hpc
  have htotal := ExecutorState.total_set hpc shared pc'
  have hscheduled : ∀ node, ExecutorState.scheduled
      { shared with workers := s.workers.set index pc' } node =
        s.scheduled node +
          if shared.nodeRefs node = 0 ∧ s.nodeRefs node ≠ 0 then 1 else 0 := by
    intro node
    have hlocal := hmove.scheduled node
    have hsum := htotal fun pc => pc.tokens.count node
    rw [ExecutorState.scheduled, ExecutorState.scheduled]
    dsimp only
    omega
  have hcounter := hmove.outStandings
  have hmainTokens : shared.main.tokens = s.main.tokens := by
    rw [hmove.main]
    split
    · cases s.main <;> rfl
    · rfl
  have hweight := htotal weight
  have houtStandings : shared.outStandings =
      ((shared.main.tokens.length + shared.tasks.length +
        ExecutorState.total { shared with workers := s.workers.set index pc' }
          weight : Nat) : Int) := by
    have hold := h.outStandings_eq
    rw [hmainTokens]
    omega
  constructor
  · intro node
    have hle := h.scheduled_le node
    have hready := h.scheduled_ready node
    rw [hscheduled]
    split
    · rename_i hdropped
      by_contra hgt
      exact hdropped.2 (hready (by omega)).2
    · omega
  · intro node hpos
    rw [hscheduled] at hpos
    have hle := hmove.refs_le node
    split at hpos
    · rename_i hdropped
      refine ⟨?_, hdropped.1⟩
      by_contra hnode
      have hbound := h.refs_le node
      rw [hg.inputEdges_eq_nil hnode] at hbound
      exact hdropped.2 (Nat.le_zero.mp hbound)
    · obtain ⟨hnode, hzero⟩ := h.scheduled_ready node hpos
      rw [hzero] at hle
      exact ⟨hnode, Nat.le_zero.mp hle⟩
  · intro node hnode hzero houtcome
    rw [hscheduled]
    split
    · rename_i hdropped
      have hnone : s.scheduled node = 0 := by
        by_contra hpos
        exact hdropped.2 (h.scheduled_ready node (Nat.pos_of_ne_zero hpos)).2
      rw [hnone]
    · rename_i hkept
      have hold : s.nodeRefs node = 0 := by
        by_contra hpos
        exact hkept ⟨hzero, hpos⟩
      exact h.ready_scheduled node hnode hold houtcome
  · intro node
    exact Nat.le_trans (hmove.refs_le node) (h.refs_le node)
  · intro node
    have hold := h.refs_eq node
    have hlocal := hmove.refs node
    have hsum := htotal fun pc => (pc.pending g).count node
    dsimp only
    omega
  · intro node houtcome
    have hold := h.running_eq node houtcome
    have hlocal := hmove.running node houtcome
    have hsum := htotal fun pc => pc.running.count node
    dsimp only
    omega
  · intro node hnode
    rcases hmove.finished node hnode with hold | hnew
    · exact h.finished_computed node hold
    · exact hnew
  · exact houtStandings
  · have hold := h.locked_eq
    have hlocal := hmove.locked
    have hsum := htotal holds
    dsimp only
    omega
  · intro hwaiting
    dsimp only at hwaiting ⊢
    have hold : s.main = .waiting false ∧ pc ≠ .notifying := by
      rw [hmove.main] at hwaiting
      split at hwaiting
      · exact absurd hwaiting (by cases s.main <;> simp [MainPc.notify])
      · rename_i hpc
        exact ⟨hwaiting, hpc⟩
    rcases h.waiting_ok hold.1 with hpos | hnotifying
    · by_cases hzero : shared.outStandings = 0
      · right
        rw [hmove.notifying hpos hzero]
        exact mem_set (List.getElem?_eq_some_iff.mp hpc).1 _
      · left
        omega
    · right
      obtain ⟨other, hother⟩ := getElem?_of_mem hnotifying
      have hne : index ≠ other := by
        rintro rfl
        rw [hpc] at hother
        exact hold.2 (some.inj hother)
      apply mem_of_getElem? (i := other)
      rw [getElem?_set_ne hne]
      exact hother
  · intro hreturned
    have hold : s.main = .returned := by
      rw [hmove.main] at hreturned
      split at hreturned
      · revert hreturned
        cases s.main <;> simp [MainPc.notify]
      · exact hreturned
    have hzero := h.returned_ok hold
    obtain ⟨_, htasks, hworkers⟩ := h.quiet hzero
    rcases hworkers pc (mem_of_getElem? hpc) with rfl | rfl
    · rw [ExecutorGraph.workerStep, htasks] at hstep
      exact nomatch hstep
    · cases hstep
      exact hzero

theorem mainMove
    (hmove : g.MainMove s.toExecutorShared shared) :
    ExecutorInvariant g { shared with workers := s.workers } := by
  have hscheduled : ∀ node, ExecutorState.scheduled
      { shared with workers := s.workers } node ≤ s.scheduled node :=
    fun node => Nat.add_le_add_right (hmove.scheduled_le node) _
  constructor
  · intro node
    exact Nat.le_trans (hscheduled node) (h.scheduled_le node)
  · intro node hpos
    rw [hmove.nodeRefs_eq]
    exact h.scheduled_ready node (Nat.lt_of_lt_of_le hpos (hscheduled node))
  · intro node hnode hzero houtcome
    rw [hmove.nodeRefs_eq] at hzero
    have hold := h.ready_scheduled node hnode hzero houtcome
    rw [ExecutorState.scheduled] at hold ⊢
    rw [hmove.scheduled_eq node houtcome]
    exact hold
  · rw [hmove.nodeRefs_eq]
    exact h.refs_le
  · rw [hmove.nodeRefs_eq, hmove.finished_eq]
    exact h.refs_eq
  · rw [hmove.finished_eq, hmove.started_eq]
    exact h.running_eq
  · rw [hmove.finished_eq]
    exact h.finished_computed
  · have hold := h.outStandings_eq
    have hlocal := hmove.outStandings
    change shared.outStandings = ((shared.main.tokens.length +
      shared.tasks.length + s.total weight : Nat) : Int)
    omega
  · rw [hmove.locked_eq]
    exact h.locked_eq
  · intro hwaiting
    exact .inl (hmove.waiting hwaiting)
  · intro hreturned
    obtain ⟨hle, heq⟩ := hmove.returned hreturned
    have hnonneg := h.outStandings_nonneg
    dsimp only
    omega

theorem step (hg : g.WellFormed) {actor : Actor}
    (hstep : g.step s actor = some s') : ExecutorInvariant g s' := by
  obtain ⟨shared, hmove, rfl⟩ | ⟨index, pc, shared, pc', hpc, hshared, rfl⟩ :=
    step_cases hstep
  · exact h.mainMove hmove
  · exact h.workerStep hg hpc hshared

end ExecutorInvariant

theorem ExecutorGraph.Reachable.invariant (hg : g.WellFormed) {poolSize : Nat}
    (h : g.Reachable poolSize s) : ExecutorInvariant g s := by
  induction h with
  | start => exact hg.start poolSize
  | step _ hstep ih => exact ih.step hg hstep

end OnnxRuntime
