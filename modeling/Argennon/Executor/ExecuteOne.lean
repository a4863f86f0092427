import Argennon.Executor.Calls

/- `Executor::executeOne` (`executor/Executor.cpp`): a request of a block from the session
   it starts to the write-back. The text of the request and its response are not kept;
   what the called application does with the text is its run. -/
namespace Argennon

/-- `AppRequest` -/
structure AppRequest where
  id : Nat
  calledAppID : LongID
  maxClocks : Int
  modifier : RestrictedModifier AccessBlock
  appTable : AppTable
  useControlledExecution : Bool
  failureManager : FailureManager
  attachments : List Nat
  signatureManager : VirtualSignatureManager

namespace AppRequest

/-- `CallResourceHandler(initialGas)`, the handler at the root of a controlled execution. -/
def rootResources (req : AppRequest) : CallResourceHandler :=
  { id := req.failureManager.nextInvocation.lastGeneratedID
    caller := 0
    gas := 0
    remainingExternalGas := req.maxClocks
    heapVersion := 0 }

/-- The session in which the application of the request is called. -/
def rootSession (req : AppRequest) : Session :=
  { callManager := if req.useControlledExecution then .controlled else .optimistic
    heapModifier := req.modifier
    appTable := req.appTable
    failureManager := if req.useControlledExecution then req.failureManager.nextInvocation
      else req.failureManager
    sigManager := req.signatureManager
    currentCall := { appID := 0 }
    currentResources := if req.useControlledExecution then .live req.rootResources else .dangling }

/-- The call of the application of the request, which makes `run`. -/
def callRoot (heap : Heap) (req : AppRequest) (run : Run) : Except Exn Int × Session :=
  run.execute heap 255 req.calledAppID req.rootSession

end AppRequest

/-- `executeOne`: the status code and the heap that the write-back leaves. -/
def executeOne (heap : Heap) (req : AppRequest) (run : Run) : Except Exn (Int × Heap) :=
  let result : Except Exn (Int × Heap) := match req.callRoot heap run with
    | (.error e, _) => .error e
    | (.ok statusCode, s) => (s.heapModifier.writeToHeap heap).map fun heap => (statusCode, heap)
  match result with
  | .error (.outOfRange _) => .error (.runtimeError "why???")
  | r => r

/-- A request with 1000 clocks that may call the applications 1 and 2 and has no memory. -/
def plainRequest : AppRequest :=
  { id := 0
    calledAppID := 1
    maxClocks := 1000
    modifier := { appsAccessMaps := .empty }
    appTable := ⟨⟨[1, 2], [true, true], rfl⟩⟩
    useControlledExecution := true
    failureManager := {}
    attachments := []
    signatureManager := {} }

/-- A heap of empty chunks. -/
def emptyHeap : Heap := fun _ => .empty

end Argennon
