/-
The parallel executor: tasks on a thread pool, reference counts of the nodes
and a counter of outstanding tasks on which `Execute` waits.  A step is what a
thread does between two points at which others can observe it.
-/
import OnnxRuntime.ExecutionPlan
import OnnxRuntime.Status

namespace OnnxRuntime

/-- How the body of the loop for one node ends. -/
inductive KernelOutcome where
  | computed
  | computeFailed (failure : Failure)
  | terminated
  | missingKernel
deriving Repr, DecidableEq

/-- The nodes of a graph with the other ends of their edges, one entry for
every edge. -/
structure ExecutorGraph where
  nodes : List NodeIndex
  inputEdges : NodeIndex → List NodeIndex
  outputEdges : NodeIndex → List NodeIndex
  outcome : NodeIndex → KernelOutcome

namespace ExecutorGraph

variable (g : ExecutorGraph)

/-- `GetRootNodes`. -/
def rootNodes : List NodeIndex :=
  g.nodes.filter fun node => g.inputEdges node = []

def Edge (source target : NodeIndex) : Prop := source ∈ g.inputEdges target

/-- Each end of an edge knows the other one, both are nodes, and there is no
cycle. -/
structure WellFormed : Prop where
  nodup : g.nodes.Nodup
  mirrored : ∀ source target,
    (g.outputEdges source).count target = (g.inputEdges target).count source
  ends : ∀ source target, g.Edge source target →
    source ∈ g.nodes ∧ target ∈ g.nodes
  acyclic : ∀ node, ¬ Relation.TransGen g.Edge node node

end ExecutorGraph

/-- Where the thread in `Execute` is. -/
inductive MainPc where
  /-- The loop over the root nodes. -/
  | enqueue (roots : List NodeIndex)
  /-- In `EnqueueNode`, after `out_standings_++`. -/
  | push (root : NodeIndex) (roots : List NodeIndex)
  /-- The test of `while (out_standings_ > 0)`. -/
  | check
  /-- In `complete_cv_.wait`. -/
  | waiting (notified : Bool)
  /-- `FetchOutput` is reached and `Execute` returns OK. -/
  | returned
deriving Repr, DecidableEq

/-- Where a thread of the pool is. -/
inductive WorkerPc where
  | idle
  /-- The start of the loop in `RunNodeAsyncInternal`. -/
  | begin (node : NodeIndex)
  | computing (node : NodeIndex)
  /-- `Compute` has returned OK. -/
  | computed (node : NodeIndex)
  /-- The loop over the output edges, under `ref_mutex_`; `next` is the node
  to keep running with. -/
  | releasing (node : NodeIndex) (edges : List NodeIndex)
      (next : Option NodeIndex)
  /-- In `EnqueueNode`, before and after `out_standings_++`. -/
  | counting (node target : NodeIndex) (edges : List NodeIndex)
      (next : NodeIndex)
  | pushing (node target : NodeIndex) (edges : List NodeIndex)
      (next : NodeIndex)
  /-- In `FinishNodeRun`, after an exception as well. -/
  | finishing
  /-- `finished` is true, `notify_all` is to come. -/
  | notifying
deriving Repr, DecidableEq

/-- What the threads share.  `started` and `finished` record the nodes whose
loop body was entered and those whose `Compute` returned OK. -/
structure ExecutorShared where
  main : MainPc
  tasks : List NodeIndex := []
  refMutexLocked : Bool := false
  nodeRefs : NodeIndex → Nat
  outStandings : Int := 0
  started : List NodeIndex := []
  finished : List NodeIndex := []

namespace ExecutorShared

/-- The body of the loop is entered for a node. -/
def enter (s : ExecutorShared) (node : NodeIndex) : ExecutorShared :=
  { s with started := node :: s.started }

/-- `--node_refs_[target]`. -/
def release (s : ExecutorShared) (target : NodeIndex) : ExecutorShared :=
  { s with nodeRefs :=
      Function.update s.nodeRefs target (sizeDec (s.nodeRefs target)) }

def unlock (s : ExecutorShared) : ExecutorShared :=
  { s with refMutexLocked := false }

end ExecutorShared

structure ExecutorState extends ExecutorShared where
  workers : List WorkerPc

/-- `notify_all` reaches the main thread only if it waits. -/
def MainPc.notify : MainPc → MainPc
  | .waiting _ => .waiting true
  | pc => pc

/-- A spurious wakeup of the main thread. -/
def wakeStep (s : ExecutorShared) : Option ExecutorShared :=
  match s.main with
  | .waiting _ => some { s with main := .check }
  | _ => none

/-- Who takes the next step. -/
inductive Actor where
  | main
  | wakeup
  | worker (index : Nat)
deriving Repr, DecidableEq

namespace ExecutorGraph

variable (g : ExecutorGraph)

/-- The constructor, and the start of `Execute`. -/
def start (poolSize : Nat) : ExecutorState where
  main := .enqueue g.rootNodes
  nodeRefs node := if node ∈ g.nodes then (g.inputEdges node).length else 0
  workers := List.replicate poolSize .idle

/-- A step of the thread in `Execute`. -/
def mainStep (s : ExecutorShared) : Option ExecutorShared :=
  match s.main with
  | .enqueue [] => some { s with main := .check }
  | .enqueue (root :: roots) =>
    if g.outcome root = .missingKernel then
      some { s with main := .enqueue roots }
    else
      some { s with
        main := .push root roots
        outStandings := s.outStandings + 1 }
  | .push root roots =>
    some { s with main := .enqueue roots, tasks := s.tasks ++ [root] }
  | .check =>
    if 0 < s.outStandings then some { s with main := .waiting false }
    else some { s with main := .returned }
  | .waiting true => some { s with main := .check }
  | .waiting false => none
  | .returned => none

/-- A step of a thread of the pool. -/
def workerStep (s : ExecutorShared) :
    WorkerPc → Option (ExecutorShared × WorkerPc)
  | .idle =>
    match s.tasks with
    | [] => none
    | node :: tasks => some ({ s with tasks := tasks }, .begin node)
  | .begin node =>
    match g.outcome node with
    | .terminated => some (s.enter node, .finishing)
    | .missingKernel => some (s.enter node, .finishing)
    | .computed => some (s.enter node, .computing node)
    | .computeFailed _ => some (s.enter node, .computing node)
  | .computing node =>
    if g.outcome node = .computed then
      some ({ s with finished := node :: s.finished }, .computed node)
    else some (s, .finishing)
  | .computed node =>
    if s.refMutexLocked then none
    else
      some ({ s with refMutexLocked := true },
        .releasing node (g.outputEdges node) none)
  | .releasing node (target :: edges) next =>
    if (s.release target).nodeRefs target = 0 then
      match next with
      | none =>
        some (s.release target, .releasing node edges (some target))
      | some next =>
        some (s.release target, .counting node target edges next)
    else some (s.release target, .releasing node edges next)
  | .counting node target edges next =>
    some ({ s with outStandings := s.outStandings + 1 },
      .pushing node target edges next)
  | .pushing node target edges next =>
    some ({ s with tasks := s.tasks ++ [target] },
      .releasing node edges (some next))
  | .releasing _ [] next =>
    match next with
    | some next => some (s.unlock, .begin next)
    | none => some (s.unlock, .finishing)
  | .finishing =>
    some ({ s with outStandings := s.outStandings - 1 },
      if s.outStandings - 1 = 0 then .notifying else .idle)
  | .notifying => some ({ s with main := s.main.notify }, .idle)

def step (s : ExecutorState) : Actor → Option ExecutorState
  | .main => do
      let shared ← g.mainStep s.toExecutorShared
      return { shared with workers := s.workers }
  | .wakeup => do
      let shared ← wakeStep s.toExecutorShared
      return { shared with workers := s.workers }
  | .worker index => do
      let pc ← s.workers[index]?
      let (shared, pc) ← g.workerStep s.toExecutorShared pc
      return { shared with workers := s.workers.set index pc }

/-- The states of all interleavings. -/
inductive Reachable (poolSize : Nat) : ExecutorState → Prop
  | start : Reachable poolSize (g.start poolSize)
  | step {s s' : ExecutorState} {actor : Actor}
      (h : Reachable poolSize s) (hstep : g.step s actor = some s') :
      Reachable poolSize s'

end ExecutorGraph

end OnnxRuntime
