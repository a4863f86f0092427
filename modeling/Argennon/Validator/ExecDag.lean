import Argennon.Executor.ExecuteOne
import Mathlib.Logic.Relation

/- The execution of a block by several workers: `DagNode` and `RequestScheduler`
   (`validator/RequestScheduler.cpp`), the blocking queue of the requests that are next
   (`util/BlockingQueue.hpp`), and the loop of
   `RequestProcessor::parallelExecuteRequests` (`validator/RequestProcessor.hpp`).

   A worker makes one atomic step at a time: it waits for a request, executes it, decrements
   one in-degree, enqueues one node, resets its node, decrements `remaining`, removes its
   producer. The steps of the workers come in any order. A pointer to a node is its id,
   and a node that was reset is missing: to follow its pointer is the exception
   `undefined`. The texts of requests and their digests are not kept. -/
namespace Argennon

/-! ## The queue -/

/-- `BlockingQueue` -/
structure BlockingQueue (T : Type) where
  content : List T := []
  producerCount : Int := 0

namespace BlockingQueue
variable {T : Type}

/-- `enqueue` -/
def enqueue (q : BlockingQueue T) (value : T) : BlockingQueue T :=
  { q with content := q.content ++ [value] }

/-- `blockingDequeue`, nothing while it waits. -/
def blockingDequeue (q : BlockingQueue T) (addProducer : Bool) :
    Option (Except Exn T × BlockingQueue T) :=
  match q.content with
  | [] =>
    if q.producerCount > 0 then none
    else some (.error (.underflowError "empty queue without any producers"), q)
  | value :: content =>
    some (.ok value, {
      content
      producerCount := if addProducer then q.producerCount + 1 else q.producerCount })

/-- `removeProducer` -/
def removeProducer (q : BlockingQueue T) : BlockingQueue T :=
  { q with producerCount := q.producerCount - 1 }

/-- `isEmpty` -/
def isEmpty (q : BlockingQueue T) : Bool := q.content.isEmpty

end BlockingQueue

/-! ## The scheduler -/

/-- `DagNode`. The adjacency set is the list of its members in the order of its iterator. -/
structure DagNode where
  request : AppRequest
  adjList : List Nat
  inDegree : Int := 0

/-- `RequestScheduler`, without the indices of the storage. -/
structure RequestScheduler where
  nodeIndex : List (Option DagNode)
  zeroQueue : BlockingQueue Nat := {}
  remaining : Int

namespace RequestScheduler

/-- The node that `nodeIndex[id]` points to. -/
def nodeAt (s : RequestScheduler) (id : Nat) : Except Exn DagNode :=
  match s.nodeIndex[id]? with
  | some (some node) => .ok node
  | _ => .error .undefined

def setNode (s : RequestScheduler) (id : Nat) (node : Option DagNode) : RequestScheduler :=
  { s with nodeIndex := s.nodeIndex.set id node }

theorem nodeAt_setNode {s : RequestScheduler} {id : Nat} {node : Option DagNode} (v : Nat)
    (h : v ≠ id) :
    (s.setNode id node).nodeAt v = s.nodeAt v := by
  unfold setNode nodeAt
  rw [List.getElem?_set_ne h.symm]

theorem nodeAt_setNode_self {s : RequestScheduler} {id : Nat} {node : DagNode}
    (h : id < s.nodeIndex.length) :
    (s.setNode id (some node)).nodeAt id = .ok node := by
  unfold setNode nodeAt
  rw [List.getElem?_set_self h]

theorem lt_of_nodeAt {s : RequestScheduler} {id : Nat} {node : DagNode}
    (h : s.nodeAt id = .ok node) :
    id < s.nodeIndex.length := by
  by_contra hout
  unfold nodeAt at h
  rw [List.getElem?_eq_none (Nat.not_lt.mp hout)] at h
  cases h

/-- `incrementInDegree` of a node. -/
def incrementInDegree (s : RequestScheduler) (id : Nat) : Except Exn RequestScheduler := do
  let node ← s.nodeAt id
  .ok (s.setNode id (some { node with inDegree := node.inDegree + 1 }))

/-- `decrementInDegree` of a node: the new in-degree. -/
def decrementInDegree (s : RequestScheduler) (id : Nat) : Except Exn (Int × RequestScheduler) := do
  let node ← s.nodeAt id
  if node.inDegree > 0 then
    .ok (node.inDegree - 1, s.setNode id (some { node with inDegree := node.inDegree - 1 }))
  else .error (.assertion "inDegree > 0")

/-- The scheduler when every request was added, the nodes by their ids. -/
def loaded (requests : List (AppRequest × List Nat)) : RequestScheduler :=
  { nodeIndex := requests.map fun r => some { request := r.1, adjList := r.2 }
    remaining := requests.length }

/-- `finalizeRequest` -/
def finalizeRequest (s : RequestScheduler) (id : Nat) : Except Exn RequestScheduler := do
  let node ← s.nodeAt id
  node.adjList.foldlM incrementInDegree s

/-- The requests finalized in the order of `ids`. -/
def finalizeRequests (s : RequestScheduler) (ids : List Nat) : Except Exn RequestScheduler :=
  ids.foldlM finalizeRequest s

/-- The loop of `buildExecDag` over the ids that are left. -/
def enqueueSources (s : RequestScheduler) : List Nat → Except Exn RequestScheduler
  | [] => .ok s
  | i :: rest => do
    let node ← s.nodeAt i
    if node.inDegree = 0 then enqueueSources { s with zeroQueue := s.zeroQueue.enqueue i } rest
    else .ok s

/-- `buildExecDag` -/
def buildExecDag (s : RequestScheduler) : Except Exn RequestScheduler := do
  let s ← s.enqueueSources (List.range s.remaining.toNat)
  if s.zeroQueue.isEmpty then .error (.blockError "source node of the execution DAG is missing")
  else .ok s

end RequestScheduler

/-! ## Workers -/

/-- Where a worker is in its loop. -/
inductive Worker where
  /-- Before `nextRequest`. -/
  | waiting
  /-- In the exception handler of `nextRequest`. -/
  | drained
  /-- Before `executeOne`. -/
  | executing (id : Nat)
  /-- Before the check of `submitResult`. -/
  | submitting (id : Nat) (statusCode : Int)
  /-- In the loop of `submitResult`, with the adjacent nodes that are left. -/
  | releasing (id : Nat) (adjacent : List Nat)
  /-- In the loop, before `next` is enqueued. -/
  | enqueueing (id next : Nat) (adjacent : List Nat)
  /-- Before `--remaining`. -/
  | decrementing (id : Nat)
  /-- Before `removeProducer`. -/
  | removing (id : Nat)
  /-- Out of the loop: `nextRequest` has returned null. -/
  | returned
  /-- Out of the loop: `nextRequest` has thrown. -/
  | thrown (e : Exn)
  /-- Out of the loop: `executeOne` or `submitResult` has thrown. -/
  | failed (id : Nat) (e : Exn)

namespace Worker

/-- The next step of a worker, nothing if it waits or is out of its loop. -/
def step (executeOne : AppRequest → Except Exn Int) (s : RequestScheduler) :
    Worker → Option (Worker × RequestScheduler)
  | waiting =>
    match s.zeroQueue.blockingDequeue true with
    | none => none
    | some (.ok id, zeroQueue) => some (executing id, { s with zeroQueue })
    | some (.error _, zeroQueue) => some (drained, { s with zeroQueue })
  | drained =>
    if s.remaining ≠ 0 then some (thrown (.blockError "execution graph is not a dag"), s)
    else some (returned, s)
  | executing id =>
    match s.nodeAt id with
    | .error e => some (failed id e, s)
    | .ok node =>
      match executeOne node.request with
      | .error e => some (failed id e, s)
      | .ok statusCode => some (submitting id statusCode, s)
  | submitting id statusCode =>
    match s.nodeAt id with
    | .error e => some (failed id e, s)
    | .ok node =>
      if statusCode > 400 && !node.request.attachments.isEmpty then
        some (failed id (.blockError "block contains a failed fee payment"), s)
      else some (releasing id node.adjList, s)
  | releasing id [] => some (decrementing id, s.setNode id none)
  | releasing id (next :: adjacent) =>
    match s.decrementInDegree next with
    | .error e => some (failed id e, s)
    | .ok (inDegree, s) =>
      some (if inDegree = 0 then enqueueing id next adjacent else releasing id adjacent, s)
  | enqueueing id next adjacent =>
    match s.nodeAt next with
    | .error e => some (failed id e, s)
    | .ok _ => some (releasing id adjacent, { s with zeroQueue := s.zeroQueue.enqueue next })
  | decrementing id => some (removing id, { s with remaining := s.remaining - 1 })
  | removing _ => some (waiting, { s with zeroQueue := s.zeroQueue.removeProducer })
  | returned | thrown _ | failed _ _ => none

/-- The worker is out of its loop. -/
def Left : Worker → Prop
  | returned | thrown _ | failed _ _ => True
  | _ => False

/-- What `get` on the future of a worker that is out of its loop throws. -/
def get : Worker → Except Exn Unit
  | thrown e | failed _ e => .error e
  | _ => .ok ()

end Worker

/-! ## Runs -/

/-- The execution of a block. The last three lists, the newest entry first,
are not kept by the source. -/
structure BlockRun where
  scheduler : RequestScheduler
  workers : List Worker
  responseList : List (Option Int)
  /-- The requests that were executed. -/
  executed : List Nat := []
  /-- The requests whose results `submitResult` has accepted. -/
  submitted : List Nat := []
  /-- The requests for which `submitResult` has returned. -/
  completed : List Nat := []

namespace BlockRun

/-- What the step of a worker leaves outside the scheduler. -/
def record (s : BlockRun) : Worker → Worker → BlockRun
  | .executing id, .submitting _ statusCode =>
    { s with executed := id :: s.executed, responseList := s.responseList.set id (some statusCode) }
  | .executing id, _ => { s with executed := id :: s.executed }
  | .submitting id _, .releasing _ _ => { s with submitted := id :: s.submitted }
  | .removing id, _ => { s with completed := id :: s.completed }
  | _, _ => s

/-- A step of the worker `i`. -/
def step (executeOne : AppRequest → Except Exn Int) (s : BlockRun) (i : Nat) : Option BlockRun := do
  let worker ← s.workers[i]?
  let (worker', scheduler) ← worker.step executeOne s.scheduler
  pure { s.record worker worker' with scheduler, workers := s.workers.set i worker' }

/-- A step of some worker. -/
def Step (executeOne : AppRequest → Except Exn Int) (s t : BlockRun) : Prop :=
  ∃ i, s.step executeOne i = some t

/-- The steps of a run. -/
abbrev Reaches (executeOne : AppRequest → Except Exn Int) : BlockRun → BlockRun → Prop :=
  Relation.ReflTransGen (Step executeOne)

/-- The workers before their first step. -/
def start (scheduler : RequestScheduler) (workersCount : Nat) : BlockRun :=
  { scheduler
    workers := List.replicate workersCount .waiting
    responseList := List.replicate scheduler.nodeIndex.length none }

/-- No worker can make a step. -/
def Halted (executeOne : AppRequest → Except Exn Int) (s : BlockRun) : Prop :=
  ∀ i, s.step executeOne i = none

/-- Every worker is out of its loop. -/
def Finished (s : BlockRun) : Prop := ∀ w ∈ s.workers, w.Left

/-- What `parallelExecuteRequests` ends with when its workers have left:
the futures are asked in order. -/
def result (s : BlockRun) : Except Exn (List (Option Int)) := do
  forEach Worker.get s.workers
  .ok s.responseList

end BlockRun
end Argennon
