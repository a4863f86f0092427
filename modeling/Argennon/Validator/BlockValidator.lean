import Argennon.Storage.ChunkIndex
import Argennon.Storage.Page
import Argennon.Validator.ExecDag
import Argennon.Validator.FindCollisions
import Argennon.Validator.RunAll
import Argennon.Validator.SortAccessBlocks

/- The validation of a block: `BlockValidator::conditionalValidate`
   (`validator/BlockValidator.cpp`), and the two stages of `RequestProcessor` that look for defects,
   `loadRequests` and `checkDependencyGraph` (`validator/RequestProcessor.hpp`).

   The tasks of a stage write to different nodes, so what a task does depends on no other task.
   `BlockLoader` is a stub in the source: here it is what it may return. What the page cache
   prepares and what the execution of the requests gives are parameters: no defect that the two
   stages detect is found there. -/
namespace Argennon

/-! ## What a block has -/

/-- `AppRequestInfo::SignedMessage` -/
structure AppRequestInfo.SignedMessage where
  issuerAccount : LongID
  message : String
  signature : List Byte

/-- `AppRequestInfo`. The texts of requests and their digests are not kept. -/
structure AppRequestInfo where
  id : Nat
  calledAppID : LongID := 0
  maxClocks : Int := 0
  appAccessList : List LongID := []
  useControlledExecution : Bool := true
  stackSizeFailures : List Nat := []
  cpuTimeFailures : List Nat := []
  memoryAccessMap : AccessMapType
  adjList : List Nat := []
  attachments : List Nat := []
  signedMessagesList : List AppRequestInfo.SignedMessage := []

/-- `BlockLoader`, once the current block is set. -/
structure BlockLoader where
  /-- `createRequestStreams`: every stream is the list of the requests that it gives. -/
  createRequestStreams : Nat → List (List AppRequestInfo)
  numOfRequests : Nat
  writablePageList : List VarLenFullID := []
  proposedSizeBounds : OrderedStaticMap FullID ChunkBoundsInfo := ⟨[], [], rfl⟩

/-- `AppIndex`: for every application in the cache, whether it has a dispatcher. -/
structure AppIndex where
  cache : LongID → Option Bool := fun _ => none

/-- The dispatcher of an application, in the loop of `buildAppTable`. -/
def AppIndex.dispatcher (index : AppIndex) (appID : LongID) : Except Exn Bool :=
  match index.cache appID with
  | some dispatcher => .ok dispatcher
  | none =>
    .error (.blockError ("app:" ++ LongID.toString appID ++
      " was not declared in the block's call list"))

/-- `buildAppTable` -/
def AppIndex.buildAppTable (index : AppIndex) (sortedAppList : List LongID) :
    Except Exn AppTable := do
  let dispatchers ← sortedAppList.mapM index.dispatcher
  let callTable ← OrderedStaticMap.mk? sortedAppList dispatchers
  .ok { callTable }

/-- What the scheduler of a block refers to: the indices, the heap, and `CryptoSystem::verify`. -/
structure SchedulerIndices where
  heapIndex : ChunkIndex
  heap : Heap
  appIndex : AppIndex
  verify : (message : String) → (signature publicKey : List Byte) → Bool

namespace SchedulerIndices

/-- Whether the account that the chunk belongs to has signed the message. An account whose decision
nonce is 0 is owned by an app. -/
def verifies (x : SchedulerIndices) (chunk : Chunk) (msg : AppRequestInfo.SignedMessage) : Bool :=
  match chunk.getContentPointer 0 (decisionNonceSize + publicKeySize) with
  | .error _ => false
  | .ok contentPtr =>
    let decisionNonce := leNat (readAt chunk.content contentPtr decisionNonceSize)
    decisionNonce != 0 &&
      x.verify msg.message msg.signature
        (readAt chunk.content (contentPtr + decisionNonceSize) publicKeySize)

/-- The chunk of an account that holds its nonces and its owner. -/
def accountChunk (account : LongID) : FullID := toLex (argAppID, toLex (account, nonceChunkLocalID))

/-- The body of the loop of `getSigManagerFor`. -/
def signedMessage (x : SchedulerIndices) (msg : AppRequestInfo.SignedMessage) :
    Except Exn SignedMessage := do
  let ptr ← ChunkIndex.getChunk x.heapIndex.chunkIndex (accountChunk msg.issuerAccount)
  .ok { issuerAccount := msg.issuerAccount
        message := if x.verifies (x.heap ptr) msg then msg.message else "" }

/-- `getSigManagerFor` -/
def getSigManagerFor (x : SchedulerIndices) (messageList : List AppRequestInfo.SignedMessage) :
    Except Exn VirtualSignatureManager := do
  let messages ← messageList.mapM x.signedMessage
  .ok { messages }

/-- The constructor of `DagNode`: the members are initialized in this order. -/
def dagNode (x : SchedulerIndices) (data : AppRequestInfo) : Except Exn DagNode := do
  let modifier ← x.heapIndex.buildModifier x.heap data.memoryAccessMap
  let appTable ← x.appIndex.buildAppTable data.appAccessList
  let signatureManager ← x.getSigManagerFor data.signedMessagesList
  .ok { request :=
          { id := data.id
            calledAppID := data.calledAppID
            maxClocks := data.maxClocks
            modifier
            appTable
            useControlledExecution := data.useControlledExecution
            failureManager :=
              { stackFailures := data.stackSizeFailures, cpuTimeFailures := data.cpuTimeFailures }
            attachments := data.attachments
            signatureManager }
        adjList := data.adjList }

/-- `addRequest`: the node at `nodeIndex[id]`. -/
def addRequest (x : SchedulerIndices) (totalRequestCount : Nat) (data : AppRequestInfo) :
    Except Exn (AppRequestInfo × DagNode) :=
  if data.id < totalRequestCount then do
    let node ← x.dagNode data
    .ok (data, node)
  else .error .undefined

end SchedulerIndices

namespace RequestScheduler

/-- `isAdjacent`, of a node that is there. -/
def isAdjacent (s : RequestScheduler) : Dag := fun u v =>
  match s.nodeAt u with
  | .ok node => node.adjList.contains v
  | .error _ => false

/-- The scheduler with the nodes of the requests that were added. -/
def added (totalRequestCount : Nat) (requests : List (AppRequestInfo × DagNode)) :
    RequestScheduler :=
  { nodeIndex := (List.range totalRequestCount).map fun id =>
    (requests.find? fun r => r.1.id == id).map Prod.snd
    remaining := totalRequestCount }

end RequestScheduler

/-- `memoryAccessMaps`: that of a request which was not added is empty. -/
def memoryAccessMaps (totalRequestCount : Nat) (requests : List AppRequestInfo) :
    List AccessMapType :=
  (List.range totalRequestCount).map fun id =>
    ((requests.find? fun r => r.id == id).map AppRequestInfo.memoryAccessMap).getD .empty

namespace RequestProcessor

/-! ## The stages -/

/-- `runAll`, for the calls of every worker. A worker stops at the first of its tasks that throws.
The futures are asked in their order, and the first exception is rethrown when all workers are done:
a worker that ends the process ends it in any case. -/
def runTasks {α : Type} (task : Nat → Except Exn α) : List (List Nat) → Except Exn (List α)
  | [] => .ok []
  | ids :: workers =>
    match ids.mapM task, runTasks task workers with
    | .ok results, .ok rest => .ok (results ++ rest)
    | .ok _, .error e => .error e
    | .error e, .ok _ => .error e
    | .error e, .error e' => .error (if e'.IsThrown then e else e')

/-- `loadRequests`: the scheduler, and the requests in the order in which they are read. -/
def loadRequests (x : SchedulerIndices) (numOfRequests workersCount : Nat)
    (streams : List (List AppRequestInfo)) :
    Except Exn (RequestScheduler × List AppRequestInfo) := do
  let loaded ← runTasks (fun i => (streams.getD i []).mapM (x.addRequest numOfRequests))
    (runAll streams.length workersCount)
  -- the increments of in-degrees are atomic, their order does not show
  let scheduler ← (RequestScheduler.added numOfRequests loaded.flatten).finalizeRequests
    (finalizedRequests numOfRequests workersCount)
  .ok (scheduler, loaded.flatten.map Prod.fst)

/-- The chunk at a position of the merged access map, with its blocks. -/
def chunkAt (sortedMap : AccessMapType) (i j : Nat) : Option (FullID × List PlacedBlock) := do
  let appID ← sortedMap.keys[i]?
  let chunkList ← sortedMap.values[i]?
  let chunkLocalID ← chunkList.keys[j]?
  let blocks ← chunkList.values[j]?
  some (toLex (appID, chunkLocalID), blocks.entries.map fun e => ⟨e.1, e.2⟩)

/-- The task of `checkDependencyGraph`. -/
def checkChunk (index : ChunkIndex) (dag : Dag) (sortedMap : AccessMapType) (i j : Nat) :
    Except Exn Unit :=
  match chunkAt sortedMap i j with
  | none => .error .undefined
  | some (chunkID, blocks) =>
    RequestScheduler.checkCollisions dag (index.getSizeLowerBound chunkID) blocks

/-- `checkDependencyGraph`, with what its tasks throw. -/
def verifyDependencyGraph (index : ChunkIndex) (dag : Dag) (memoryAccessMaps : List AccessMapType)
    (workersCount : Nat) :
    Except Exn Unit := do
  let sortedMap ← RequestScheduler.sortAccessBlocks memoryAccessMaps workersCount
  forEach (fun i => do
    let _ ← runTasks (checkChunk index dag sortedMap i)
      (runAll ((sortedMap.values[i]?).elim 0 (·.size)) workersCount)
    .ok ()) (List.range sortedMap.size)

end RequestProcessor

/-! ## The validator -/

/-- `BlockValidator`. The constructor leaves the application index empty. -/
structure BlockValidator where
  workersCount : Nat
  appIndex : AppIndex := {}

namespace BlockValidator

/-- The stages that look for defects: the scheduler with all requests loaded,
if none is detected. -/
def loadAndCheck (v : BlockValidator) (loader : BlockLoader) (x : SchedulerIndices) :
    Except Exn RequestScheduler := do
  let (scheduler, requests) ← RequestProcessor.loadRequests x loader.numOfRequests v.workersCount
    (loader.createRequestStreams v.workersCount)
  RequestProcessor.verifyDependencyGraph x.heapIndex scheduler.isAdjacent
    (memoryAccessMaps loader.numOfRequests requests) v.workersCount
  .ok scheduler

/-- The guarded block of `conditionalValidate`. `preparedPages` is what the page cache prepares of
the two page lists, with the heap; `execute` stands for the execution of the requests, the commit
and the comparison of the digests. -/
def validate (v : BlockValidator) (loader : BlockLoader)
    (verify : String → List Byte → List Byte → Bool)
    (preparedPages : Except Exn (List Page × List Page × Heap))
    (execute : RequestScheduler → Heap → Except Exn Bool) :
    Except Exn Bool := do
  let (readonlyPages, writablePages, heap) ← preparedPages
  let (heapIndex, heap) ← ChunkIndex.new readonlyPages writablePages loader.proposedSizeBounds heap
  let scheduler ← v.loadAndCheck loader { heapIndex, heap, appIndex := v.appIndex, verify }
  execute scheduler heap

/-- `conditionalValidate`: its result, and the page lists that were rolled back. -/
def conditionalValidate (v : BlockValidator) (loader : BlockLoader)
    (verify : String → List Byte → List Byte → Bool)
    (preparedPages : Except Exn (List Page × List Page × Heap))
    (execute : RequestScheduler → Heap → Except Exn Bool) :
    Except Exn Bool × List (List VarLenFullID) :=
  match v.validate loader verify preparedPages execute with
  | .ok valid => (.ok valid, [])
  | .error (.blockError _) => (.ok false, [loader.writablePageList])
  | .error e => (.error e, [])

end BlockValidator
end Argennon
