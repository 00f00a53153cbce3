/-
Runs of the parallel executor: they are runs of the nodes along the edges of
the graph.  As long as `Execute` has not returned, some thread can take a step,
and every step but a spurious wakeup brings the end nearer.  When no kernel
fails, every node has been executed once; a failure is not reported.
-/
import OnnxRuntime.DagRuns
import OnnxRuntime.ExecutorInvariant

namespace OnnxRuntime

open List ExecutorShared

variable {g : ExecutorGraph} {s s' : ExecutorState} {poolSize : Nat}
  {f : WorkerPc → Nat}

/-- `Execute` has enqueued all roots. -/
def ExecutorState.RootsEnqueued (s : ExecutorState) : Prop :=
  s.main.roots = [] ∧ s.main.tokens = []

namespace ExecutorInvariant

variable {index : Nat} {node : NodeIndex} (h : ExecutorInvariant g s)
include h

/-- The node a thread is about to run is scheduled there and nowhere else. -/
theorem begin_spec (hpc : s.workers[index]? = some (.begin node)) :
    0 < s.scheduled node ∧ node ∉ s.started := by
  have hle : [node].count node ≤ s.total fun pc => pc.tokens.count node :=
    ExecutorState.le_total hpc fun pc => pc.tokens.count node
  have honce := h.scheduled_le node
  rw [count_singleton_self] at hle
  rw [ExecutorState.scheduled, scheduled] at honce ⊢
  refine ⟨by omega, fun hstarted => ?_⟩
  have hpos := count_pos_iff.mpr hstarted
  omega

theorem computing_spec (hpc : s.workers[index]? = some (.computing node))
    (houtcome : g.outcome node = .computed) :
    node ∈ s.started ∧ node ∉ s.finished := by
  have hle : [node].count node ≤ s.total fun pc => pc.running.count node :=
    ExecutorState.le_total hpc fun pc => pc.running.count node
  have hrunning := h.running_eq node houtcome
  have honce := h.started_le node
  rw [count_singleton_self] at hle
  refine ⟨count_pos_iff.mp (by omega), fun hfinished => ?_⟩
  have hpos := count_pos_iff.mpr hfinished
  omega

/-- When nothing is outstanding, a sum over the threads that counts nothing in
idle threads is zero. -/
theorem total_eq_zero (hzero : s.outStandings = 0)
    (hidle : f .idle = 0) (hnotifying : f .notifying = 0) : s.total f = 0 := by
  rw [ExecutorState.total_eq_zero_iff]
  intro pc hpc
  rcases (h.quiet hzero).2.2 pc hpc with rfl | rfl
  · exact hidle
  · exact hnotifying

theorem outStandings_eq_zero_iff :
    s.outStandings = 0 ↔ s.main.tokens = [] ∧ s.tasks = [] ∧
      ∀ pc ∈ s.workers, pc = .idle ∨ pc = .notifying := by
  refine ⟨h.quiet, fun ⟨htokens, htasks, hworkers⟩ => ?_⟩
  have hweight : s.total WorkerPc.weight = 0 := by
    rw [ExecutorState.total_eq_zero_iff]
    intro pc hpc
    rcases hworkers pc hpc with rfl | rfl <;> rfl
  rw [h.outStandings_eq, htokens, htasks, hweight]
  rfl

variable (hg : g.WellFormed)
include hg

/-- When all roots are enqueued and nothing is outstanding, a node whose
predecessors have finished has been started. -/
theorem started_of_quiet (hroots : s.RootsEnqueued)
    (hzero : s.outStandings = 0) (hnode : node ∈ g.nodes)
    (houtcome : g.outcome node ≠ .missingKernel)
    (hedges : ∀ source, g.Edge source node → source ∈ s.finished) :
    s.started.count node = 1 := by
  have hpending := h.total_eq_zero hzero
    (f := fun pc => (pc.pending g).count node) rfl rfl
  have htokens := h.total_eq_zero hzero
    (f := fun pc => pc.tokens.count node) rfl rfl
  have harrived : g.arrived s.finished node = (g.inputEdges node).length := by
    rw [hg.arrived_eq h.finished_nodup, countP_eq_length]
    exact fun source hsource => decide_eq_true (hedges source hsource)
  have hrefs := h.refs_eq node
  have hscheduled := h.ready_scheduled node hnode (by omega) houtcome
  rw [ExecutorState.scheduled, scheduled, hroots.1, hroots.2,
    (h.quiet hzero).2.1, htokens] at hscheduled
  simpa using hscheduled

variable (hcomputed : ∀ node ∈ g.nodes, g.outcome node = .computed)
include hcomputed

theorem finished_of_quiet (hroots : s.RootsEnqueued)
    (hzero : s.outStandings = 0) :
    ∀ node ∈ g.nodes, s.started.count node = 1 ∧ node ∈ s.finished := by
  have hends : ∀ source target, g.Edge source target → source ∈ g.nodes :=
    fun source target hedge => (hg.ends source target hedge).1
  refine acyclic_induction hends hg.acyclic fun node hnode ih => ?_
  have houtcome := hcomputed node hnode
  have hstarted := h.started_of_quiet hg hroots hzero hnode
    (by rw [houtcome]; decide) fun source hedge => (ih source hedge).2
  have hrunning := h.running_eq node houtcome
  rw [h.total_eq_zero hzero (f := fun pc => pc.running.count node) rfl rfl]
    at hrunning
  exact ⟨hstarted, count_pos_iff.mp (by omega)⟩

/-- When `Execute` has returned, every node has been run. -/
theorem finished_of_returned (hreturned : s.main = .returned) :
    ∀ node ∈ g.nodes, s.started.count node = 1 ∧ node ∈ s.finished :=
  h.finished_of_quiet hg hcomputed
    (by rw [ExecutorState.RootsEnqueued, hreturned]; exact ⟨rfl, rfl⟩)
    (h.returned_ok hreturned)

end ExecutorInvariant

/-- A bound on the steps the main thread takes by itself. -/
def MainPc.rank : MainPc → Nat
  | .enqueue roots => 12 * roots.length + 3
  | .push _ roots => 12 * roots.length + 14
  | .check => 1
  | .waiting false => 0
  | .waiting true => 2
  | .returned => 0

/-- A bound on the steps of a thread until it takes up another node. -/
def WorkerPc.rank (g : ExecutorGraph) : WorkerPc → Nat
  | .idle => 0
  | .begin _ => 5
  | .computing node => 12 * (g.outputEdges node).length + 8
  | .computed node => 12 * (g.outputEdges node).length + 7
  | .releasing _ edges _ => 12 * edges.length + 6
  | .counting _ _ edges _ => 12 * edges.length + 17
  | .pushing _ _ edges _ => 12 * edges.length + 16
  | .finishing => 4
  | .notifying => 3

/-- What the nodes that have not been started may still cost. -/
def ExecutorGraph.future (g : ExecutorGraph) (started : List NodeIndex) : Nat :=
  ((g.nodes.filter fun node => node ∉ started).map fun node =>
    12 * (g.outputEdges node).length + 4).sum

/-- A bound on all steps that are still to come. -/
def ExecutorState.rank (g : ExecutorGraph) (s : ExecutorState) : Nat :=
  g.future s.started + s.total (WorkerPc.rank g) + 9 * s.tasks.length +
    s.main.rank

/-- From one state to another by steps of the threads. -/
def ExecutorGraph.Leads (g : ExecutorGraph) :
    ExecutorState → ExecutorState → Prop :=
  Relation.ReflTransGen fun s s' => ∃ actor, g.step s actor = some s'

/-- Every node is run once and after its predecessors; from the moment all
roots are enqueued the counter is positive until the last node has finished,
and it is zero exactly when no enqueued task is left. -/
structure SoundSchedule (g : ExecutorGraph) (s : ExecutorState) : Prop where
  started_once : s.started.Nodup
  started_nodes : s.started ⊆ g.nodes
  ordered : ∀ node ∈ s.started, ∀ source, g.Edge source node →
    source ∈ s.finished
  no_underflow : ∀ (index : Nat) node target edges next,
    s.workers[index]? = some (.releasing node (target :: edges) next) →
      0 < s.nodeRefs target
  positive : s.RootsEnqueued → (∃ node ∈ g.nodes, node ∉ s.finished) →
    0 < s.outStandings
  zero_iff : s.outStandings = 0 ↔ s.main.tokens = [] ∧ s.tasks = [] ∧
    ∀ pc ∈ s.workers, pc = .idle ∨ pc = .notifying
  returned : s.main = .returned → s.outStandings = 0 ∧
    ∀ node ∈ g.nodes, s.started.count node = 1 ∧ node ∈ s.finished
  completes : ∃ s', g.Leads s s' ∧ s'.main = .returned

open Option

namespace ExecutorGraph

variable {shared shared' : ExecutorShared} {pc pc' : WorkerPc}

/-- A step starts a node, finishes one, or does neither. -/
theorem workerStep_progress (h : g.workerStep shared pc = some (shared', pc')) :
    (shared'.started = shared.started ∧ shared'.finished = shared.finished) ∨
    (∃ node, pc = .begin node ∧ shared'.started = node :: shared.started ∧
      shared'.finished = shared.finished) ∨
    ∃ node, pc = .computing node ∧ g.outcome node = .computed ∧
      shared'.started = shared.started ∧
      shared'.finished = node :: shared.finished := by
  revert h
  fun_cases g.workerStep shared pc <;> intro h <;> cases h <;>
    grind [enter, release, unlock]

/-- The executor runs the nodes along the edges. -/
theorem Reachable.progress (hg : g.WellFormed) (h : g.Reachable poolSize s) :
    Progress.Reachable (fun node => node ∈ g.nodes) g.Edge
      ⟨s.started, s.finished⟩ := by
  induction h with
  | start => exact .refl
  | @step s s' actor hreach hstep ih =>
    have hinv := hreach.invariant hg
    obtain ⟨shared, hmove, rfl⟩ | ⟨_, pc, shared, pc', hpc, hshared, rfl⟩ :=
      step_cases hstep
    · rw [hmove.started_eq, hmove.finished_eq]
      exact ih
    · rcases workerStep_progress hshared with ⟨hstarted, hfinished⟩ |
        ⟨node, rfl, hstarted, hfinished⟩ |
        ⟨node, rfl, houtcome, hstarted, hfinished⟩
      · rw [hstarted, hfinished]
        exact ih
      · obtain ⟨hscheduled, hnew⟩ := hinv.begin_spec hpc
        rw [hstarted, hfinished]
        exact ih.tail (.start (hinv.scheduled_ready node hscheduled).1
          hnew (hinv.finished_of_scheduled hg hscheduled))
      · obtain ⟨hmem, hnew⟩ := hinv.computing_spec hpc houtcome
        rw [hstarted, hfinished]
        exact ih.tail (.finish hmem hnew)

theorem WellFormed.future_cons (hg : g.WellFormed)
    {started : List NodeIndex} {node : NodeIndex} (hnode : node ∈ g.nodes)
    (hnew : node ∉ started) :
    g.future (node :: started) + (12 * (g.outputEdges node).length + 4) =
      g.future started := by
  have hmem : node ∈ g.nodes.filter fun other => other ∉ started := by
    simp [hnode, hnew]
  have hnodup := hg.nodup.filter fun other => decide (other ∉ started)
  have herase : (g.nodes.filter fun other => other ∉ node :: started) =
      (g.nodes.filter fun other => other ∉ started).erase node := by
    rw [hnodup.erase_eq_filter, List.filter_filter]
    apply List.filter_congr
    intro other _
    by_cases heq : other = node <;> simp [heq]
  have hperm := (perm_cons_erase hmem).map fun other =>
    12 * (g.outputEdges other).length + 4
  have hsum := hperm.sum_eq
  rw [map_cons, sum_cons] at hsum
  rw [future, future, herase]
  omega

theorem workerStep_rank
    (hfuture : ∀ node, pc = .begin node → g.future (node :: shared.started) +
        (12 * (g.outputEdges node).length + 4) = g.future shared.started)
    (h : g.workerStep shared pc = some (shared', pc')) :
    g.future shared'.started + pc'.rank g + 9 * shared'.tasks.length +
        shared'.main.rank <
      g.future shared.started + pc.rank g + 9 * shared.tasks.length +
        shared.main.rank := by
  have hnotify : shared.main.notify.rank ≤ shared.main.rank + 2 := by
    rcases shared.main with _ | _ | _ | notified | _ <;>
      simp [MainPc.notify, MainPc.rank]
  revert h
  fun_cases g.workerStep shared pc <;> intro h <;> cases h <;>
    grind [ExecutorShared.enter, ExecutorShared.release,
      ExecutorShared.unlock, WorkerPc.rank]

theorem mainStep_rank (h : g.mainStep shared = some shared') :
    shared'.started = shared.started ∧
      9 * shared'.tasks.length + shared'.main.rank <
        9 * shared.tasks.length + shared.main.rank := by
  revert h
  fun_cases g.mainStep shared <;> intro h <;> cases h <;> grind [MainPc.rank]

/-- Every step but a spurious wakeup brings the end nearer. -/
theorem step_rank (hg : g.WellFormed) (h : ExecutorInvariant g s)
    {actor : Actor} (hactor : actor ≠ .wakeup)
    (hstep : g.step s actor = some s') : s'.rank g < s.rank g := by
  rw [ExecutorState.rank, ExecutorState.rank]
  cases actor with
  | main =>
    obtain ⟨shared, hshared, hs'⟩ := bind_eq_some_iff.mp hstep
    cases hs'
    obtain ⟨hstarted, hlt⟩ := mainStep_rank hshared
    have htotal : ExecutorState.total { shared with workers := s.workers }
        (WorkerPc.rank g) = s.total (WorkerPc.rank g) := rfl
    dsimp only
    rw [hstarted]
    omega
  | wakeup => exact absurd rfl hactor
  | worker index =>
    obtain ⟨pc, hpc, hstep⟩ := bind_eq_some_iff.mp hstep
    obtain ⟨⟨shared, pc'⟩, hshared, hs'⟩ := bind_eq_some_iff.mp hstep
    cases hs'
    have htotal := ExecutorState.total_set hpc shared pc' (WorkerPc.rank g)
    have hlt := workerStep_rank (fun node heq => by
      subst heq
      obtain ⟨hscheduled, hnew⟩ := h.begin_spec hpc
      exact hg.future_cons (h.scheduled_ready node hscheduled).1 hnew)
      hshared
    dsimp only
    omega

/-- A busy thread is blocked only by `ref_mutex_`. -/
theorem workerStep_isSome (hbusy : pc ≠ .idle)
    (hlocked : ∀ node, pc = .computed node → shared.refMutexLocked = false) :
    (g.workerStep shared pc).isSome := by
  fun_cases g.workerStep shared pc <;> grind

theorem mainStep_isSome (hwaiting : shared.main ≠ .waiting false)
    (hreturned : shared.main ≠ .returned) :
    (g.mainStep shared).isSome := by
  fun_cases g.mainStep shared <;> grind

theorem step_worker_isSome {index : Nat} (hpc : s.workers[index]? = some pc)
    (h : (g.workerStep s.toExecutorShared pc).isSome) :
    ∃ s', g.step s (.worker index) = some s' := by
  obtain ⟨⟨shared, pc'⟩, hshared⟩ := isSome_iff_exists.mp h
  refine ⟨{ shared with workers := s.workers.set index pc' }, ?_⟩
  rw [step, hpc]
  simp [hshared]

theorem exists_of_total_pos (h : 0 < s.total f) :
    ∃ (index : Nat) (pc : WorkerPc), s.workers[index]? = some pc ∧
      0 < f pc := by
  by_contra hnone
  push Not at hnone
  refine h.ne' (ExecutorState.total_eq_zero_iff.mpr fun pc hpc => ?_)
  obtain ⟨index, hindex⟩ := getElem?_of_mem hpc
  exact Nat.le_zero.mp (hnone index pc hindex)

/-- While the main thread waits, a thread of the pool is busy, or there is a
task for it. -/
theorem exists_workerStep (h : ExecutorInvariant g s) (hpool : s.workers ≠ [])
    (hwaiting : s.main = .waiting false) :
    ∃ (index : Nat) (pc : WorkerPc), s.workers[index]? = some pc ∧
      (g.workerStep s.toExecutorShared pc).isSome := by
  by_cases hlocked : s.refMutexLocked = true
  · have hholds := h.locked_eq
    rw [if_pos hlocked] at hholds
    obtain ⟨index, pc, hpc, hpos⟩ :=
      exists_of_total_pos (s := s) (f := WorkerPc.holds) (by omega)
    refine ⟨index, pc, hpc, workerStep_isSome ?_ ?_⟩
    · rintro rfl
      exact Nat.lt_irrefl 0 hpos
    · rintro node rfl
      exact absurd hpos (Nat.lt_irrefl 0)
  · by_cases hbusy : ∃ (index : Nat) (pc : WorkerPc),
        s.workers[index]? = some pc ∧ pc ≠ .idle
    · obtain ⟨index, pc, hpc, hbusy⟩ := hbusy
      exact ⟨index, pc, hpc, workerStep_isSome hbusy fun _ _ => by
        simpa using hlocked⟩
    · push Not at hbusy
      have hpos : 0 < s.outStandings := by
        rcases h.waiting_ok hwaiting with hpos | hnotifying
        · exact hpos
        · obtain ⟨index, hindex⟩ := getElem?_of_mem hnotifying
          exact nomatch hbusy index _ hindex
      have hweight : ¬ 0 < s.total WorkerPc.weight := by
        intro hweight
        obtain ⟨index, pc, hpc, hpos⟩ := exists_of_total_pos hweight
        rw [hbusy index pc hpc] at hpos
        exact Nat.lt_irrefl 0 hpos
      have htasks : s.tasks ≠ [] := by
        intro hempty
        have hcounter := h.outStandings_eq
        rw [hwaiting, hempty] at hcounter
        simp only [MainPc.tokens, length_nil] at hcounter
        omega
      obtain ⟨pc, rest, hworkers⟩ := exists_cons_of_ne_nil hpool
      obtain ⟨node, tasks, htasks⟩ := exists_cons_of_ne_nil htasks
      have hfirst : s.workers[0]? = some pc := by rw [hworkers]; rfl
      refine ⟨0, pc, hfirst, ?_⟩
      rw [hbusy 0 pc hfirst, workerStep, htasks]
      rfl

/-- As long as `Execute` has not returned, some thread can take a step. -/
theorem exists_step (h : ExecutorInvariant g s) (hpool : s.workers ≠ [])
    (hreturned : s.main ≠ .returned) :
    ∃ actor s', actor ≠ .wakeup ∧ g.step s actor = some s' := by
  by_cases hwaiting : s.main = .waiting false
  · obtain ⟨index, pc, hpc, hsome⟩ := exists_workerStep h hpool hwaiting
    obtain ⟨s', hstep⟩ := step_worker_isSome hpc hsome
    exact ⟨.worker index, s', nofun, hstep⟩
  · obtain ⟨shared, hshared⟩ := isSome_iff_exists.mp
      (mainStep_isSome (g := g) hwaiting hreturned)
    refine ⟨.main, { shared with workers := s.workers }, nofun, ?_⟩
    rw [step]
    simp [hshared]

theorem Reachable.length_workers (h : g.Reachable poolSize s) :
    s.workers.length = poolSize := by
  induction h with
  | start => exact length_replicate
  | @step s s' actor _ hstep ih =>
    obtain ⟨_, _, rfl⟩ | ⟨_, _, _, _, _, _, rfl⟩ := step_cases hstep
    · exact ih
    · exact length_set.trans ih

theorem Reachable.leads (h : g.Reachable poolSize s) (hleads : g.Leads s s') :
    g.Reachable poolSize s' := by
  induction hleads with
  | refl => exact h
  | tail _ hstep ih =>
    obtain ⟨actor, hstep⟩ := hstep
    exact ih.step hstep

/-- Every run can be completed. -/
theorem Reachable.leads_to_returned (hg : g.WellFormed)
    (hpool : 0 < poolSize) (h : g.Reachable poolSize s) :
    ∃ s', g.Leads s s' ∧ s'.main = .returned := by
  induction hrank : s.rank g using Nat.strong_induction_on generalizing s with
  | _ rank ih =>
    by_cases hreturned : s.main = .returned
    · exact ⟨s, .refl, hreturned⟩
    · have hworkers : s.workers ≠ [] := by
        rw [← length_pos_iff, h.length_workers]
        exact hpool
      obtain ⟨actor, next, hactor, hstep⟩ :=
        exists_step (h.invariant hg) hworkers hreturned
      have hlt := step_rank hg (h.invariant hg) hactor hstep
      rw [hrank] at hlt
      obtain ⟨s', hleads, hs'⟩ := ih _ hlt (h.step hstep) rfl
      exact ⟨s', .head ⟨actor, hstep⟩ hleads, hs'⟩

theorem Reachable.soundSchedule (hg : g.WellFormed)
    (hcomputed : ∀ node ∈ g.nodes, g.outcome node = .computed)
    (hpool : 0 < poolSize) (h : g.Reachable poolSize s) :
    SoundSchedule g s := by
  have hinv := h.invariant hg
  have hconsistent := (h.progress hg).consistent
  constructor
  · exact hconsistent.started_nodup
  · exact hconsistent.items
  · exact hconsistent.ready
  · intro index node target edges next hpc
    exact hinv.refs_pos hg hpc
  · rintro hroots ⟨node, hnode, hunfinished⟩
    have hnonneg := hinv.outStandings_nonneg
    by_contra hzero
    exact hunfinished (hinv.finished_of_quiet hg hcomputed hroots
      (by omega) node hnode).2
  · exact hinv.outStandings_eq_zero_iff
  · intro hreturned
    exact ⟨hinv.returned_ok hreturned,
      hinv.finished_of_returned hg hcomputed hreturned⟩
  · exact h.leads_to_returned hg hpool

/-- A graph with its edges given by a list. -/
def ofEdges (nodes : List NodeIndex) (edges : List (NodeIndex × NodeIndex))
    (outcome : NodeIndex → KernelOutcome) : ExecutorGraph where
  nodes := nodes
  inputEdges target := (edges.filter fun edge => edge.2 = target).map Prod.fst
  outputEdges source := (edges.filter fun edge => edge.1 = source).map Prod.snd
  outcome := outcome

theorem wellFormed_ofEdges {nodes : List NodeIndex}
    {edges : List (NodeIndex × NodeIndex)}
    {outcome : NodeIndex → KernelOutcome} (hnodup : nodes.Nodup)
    (hends : ∀ edge ∈ edges, edge.1 ∈ nodes ∧ edge.2 ∈ nodes)
    (hforward : ∀ edge ∈ edges, edge.1 < edge.2) :
    (ofEdges nodes edges outcome).WellFormed := by
  have hedge : ∀ source target, (ofEdges nodes edges outcome).Edge source
      target ↔ (source, target) ∈ edges := by
    intro source target
    simp [Edge, ofEdges]
  constructor
  · exact hnodup
  · intro source target
    change ((edges.filter _).map _).count target =
      ((edges.filter _).map _).count source
    clear hends hforward hedge
    induction edges with
    | nil => rfl
    | cons edge edges ih =>
      obtain ⟨first, second⟩ := edge
      by_cases hfirst : first = source <;>
        by_cases hsecond : second = target <;>
        simp [hfirst, hsecond, ih]
  · intro source target h
    exact hends _ ((hedge source target).mp h)
  · intro node hcycle
    have hlt : ∀ {first last}, Relation.TransGen
        (ofEdges nodes edges outcome).Edge first last → first < last := by
      intro first last hpath
      induction hpath with
      | single h => exact hforward _ ((hedge _ _).mp h)
      | tail _ h ih => exact Nat.lt_trans ih (hforward _ ((hedge _ _).mp h))
    exact Nat.lt_irrefl node (hlt hcycle)

/-- The state after the given threads have taken their steps. -/
theorem Reachable.of_run (actors : List Actor)
    (h : (actors.foldlM g.step (g.start poolSize)).isSome) :
    g.Reachable poolSize ((actors.foldlM g.step (g.start poolSize)).get h) := by
  have hrun : ∀ (actors : List Actor) (s s' : ExecutorState),
      g.Reachable poolSize s → actors.foldlM g.step s = some s' →
      g.Reachable poolSize s' := by
    intro actors
    induction actors with
    | nil =>
      intro s s' hs hs'
      cases hs'
      exact hs
    | cons actor rest ih =>
      intro s s' hs hs'
      obtain ⟨mid, hmid, hrest⟩ := Option.bind_eq_some_iff.mp hs'
      exact ih mid s' (hs.step hmid) hrest
  exact hrun actors _ _ .start (Option.some_get h).symm

/-- A diamond with a double edge. -/
def diamond (outcome : NodeIndex → KernelOutcome) : ExecutorGraph :=
  ofEdges [0, 1, 2, 3] [(0, 1), (0, 1), (0, 2), (1, 3), (2, 3)] outcome

theorem wellFormed_diamond (outcome : NodeIndex → KernelOutcome) :
    (diamond outcome).WellFormed :=
  wellFormed_ofEdges (by decide) (by decide) (by decide)

/-- The first node has run; its two readers run on the two threads. -/
def diamondRun : List Actor :=
  [.main, .main] ++ List.replicate 10 (.worker 0) ++
    [.worker 1, .worker 1, .worker 0]

theorem soundSchedule_diamond : ∃ s, s.finished = [0] ∧
    s.started = [1, 2, 0] ∧ SoundSchedule (diamond fun _ => .computed) s := by
  have hrun : ∃ s, (diamond fun _ => .computed).Reachable 2 s ∧
      s.finished = [0] ∧ s.started = [1, 2, 0] := by
    refine ⟨_, Reachable.of_run diamondRun (by decide +kernel), ?_⟩
    decide +kernel
  obtain ⟨s, hreach, hfinished, hstarted⟩ := hrun
  exact ⟨s, hfinished, hstarted, Reachable.soundSchedule
    (wellFormed_diamond _) (fun _ _ => rfl) (by decide : 0 < 2) hreach⟩

/-- A spurious wakeup makes the main thread check once more. -/
theorem wakeup_rank (hstep : g.step s .wakeup = some s') :
    s'.rank g ≤ s.rank g + 1 := by
  obtain ⟨shared, hshared, hs'⟩ := bind_eq_some_iff.mp hstep
  cases hs'
  rw [wakeStep] at hshared
  split at hshared <;> cases hshared
  exact Nat.add_le_add_right (Nat.le_add_right _ _) 1

/-- Whatever the kernels answer, `Execute` comes to its end: before that some
thread can go on, and only spurious wakeups make a schedule longer than a
bound. -/
def Terminates (g : ExecutorGraph) (s : ExecutorState) : Prop :=
  (s.main ≠ .returned →
    ∃ actor s', actor ≠ .wakeup ∧ g.step s actor = some s') ∧
  ∃ bound, ∀ (actors : List Actor) s', actors.foldlM g.step s = some s' →
    actors.length ≤ bound + 2 * actors.count .wakeup

theorem Reachable.terminates (hg : g.WellFormed) (hpool : 0 < poolSize)
    (h : g.Reachable poolSize s) : g.Terminates s := by
  refine ⟨exists_step (h.invariant hg) (length_pos_iff.1
    (h.length_workers ▸ hpool)), s.rank g, fun actors => ?_⟩
  induction actors generalizing s with
  | nil => exact fun _ _ => Nat.zero_le _
  | cons actor rest ih =>
    intro s' hrun
    obtain ⟨mid, hmid, hrest⟩ := bind_eq_some_iff.mp hrun
    have hle := ih (h.step hmid) s' hrest
    rw [length_cons, count_cons]
    by_cases hactor : actor = .wakeup
    · subst hactor
      have hrank := wakeup_rank hmid
      rw [if_pos (beq_self_eq_true _)]
      omega
    · have hrank := step_rank hg (h.invariant hg) hactor hmid
      omega

theorem terminates_diamond : (diamond fun _ => .terminated).Terminates
    ((diamond fun _ => .terminated).start 2) :=
  Reachable.terminates (wellFormed_diamond _) (by decide : 0 < 2) .start

/-- Two roots.  The first one is run before `Execute` enqueues the second. -/
def twoRoots : ExecutorGraph := ofEdges [0, 1] [] fun _ => .computed

def firstRootOnly : List Actor :=
  [.main, .main] ++ List.replicate 6 (.worker 0)

theorem outStandings_zero_before_last_root :
    ∃ s, twoRoots.Reachable 1 s ∧ s.started = [0] ∧ s.outStandings = 0 ∧
      1 ∈ twoRoots.nodes ∧ 1 ∉ s.finished := by
  refine ⟨_, Reachable.of_run firstRootOnly (by decide +kernel), ?_⟩
  decide +kernel

/-- Execute returns OK only if every node was run once and computed. -/
def ReportsFailures (g : ExecutorGraph) (poolSize : Nat) : Prop :=
  ∀ s, g.Reachable poolSize s → s.main = .returned →
    ∀ node ∈ g.nodes, s.started.count node = 1 ∧ node ∈ s.finished

theorem reportsFailures_iff (hg : g.WellFormed) (hpool : 0 < poolSize) :
    g.ReportsFailures poolSize ↔
      ∀ node ∈ g.nodes, g.outcome node = .computed := by
  constructor
  · intro h node hnode
    obtain ⟨s, hleads, hreturned⟩ :=
      (Reachable.start (g := g)).leads_to_returned hg hpool
    have hreach := Reachable.start.leads hleads
    exact (hreach.invariant hg).finished_computed node
      (h s hreach hreturned node hnode).2
  · intro hcomputed s hreach hreturned
    exact (hreach.invariant hg).finished_of_returned hg hcomputed hreturned

theorem reportsFailures_diamond :
    (diamond fun _ => .computed).ReportsFailures 2 :=
  (reportsFailures_iff (wellFormed_diamond _) (by decide)).mpr fun _ _ => rfl

/-- The one node fails. -/
def failing : ExecutorGraph :=
  ofEdges [0] [] fun _ => .computeFailed (.status .fail "Compute failed")

def failingRun : List Actor :=
  [.main, .main, .worker 0, .worker 0, .worker 0, .worker 0, .main, .main]

theorem not_reportsFailures_failing :
    (∃ s, failing.Reachable 1 s ∧ s.main = .returned ∧ s.finished = []) ∧
      ¬ failing.ReportsFailures 1 := by
  have hrun : ∃ s, failing.Reachable 1 s ∧ s.main = .returned ∧
      s.finished = [] := by
    refine ⟨_, Reachable.of_run failingRun (by decide +kernel), ?_⟩
    decide +kernel
  refine ⟨hrun, fun hreports => ?_⟩
  obtain ⟨s, hreach, hreturned, hfinished⟩ := hrun
  have hmem := (hreports s hreach hreturned 0 (by decide)).2
  rw [hfinished] at hmem
  exact nomatch hmem

end ExecutorGraph

end OnnxRuntime
