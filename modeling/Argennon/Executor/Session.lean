import Argennon.Heap.RestrictedModifier

/- The session of a request: `Executor::SessionInfo` and the parts it refers to
   (`executor/Executor.h`, `executor/FailureManager.cpp`, `executor/AppTable.cpp`,
   `executor/VirtualSignatureManager.cpp`, `argc/StringBuffer.h`).

   The two pointers of the session to objects on the call stack, `currentCall` and
   `currentResources`, are the objects they point to: while a call runs nothing else
   can reach the objects of its callers, whose constructors keep the previous pointer. -/
namespace Argennon

/-! ## Strings and responses -/

/-- `StringView::size` -/
def StringView.size (str : String) : Except Exn Nat :=
  if str.utf8ByteSize > 2 ^ 31 - 1 then .error (.runtimeError "string is too big")
  else .ok str.utf8ByteSize

/-- `StringBuffer<maxSize>::append` to a buffer that holds `content`. -/
def StringBuffer.append (maxSize : Nat) (content str : String) : Except Exn String := do
  let size ← StringView.size str
  -- The sum is one of `int`: past its end it passes the test, and the copy runs over the
  -- stack of the thread. No buffer holds more than `maxSize` bytes.
  if content.utf8ByteSize ≤ maxSize ∧ 2 ^ 31 - 1 < content.utf8ByteSize + size then
    .error .terminate
  else if maxSize < content.utf8ByteSize + size then .error (.outOfRange "append: str is too long")
  else .ok (content ++ str)

/-- Several strings appended one after the other. -/
def StringBuffer.appendAll (maxSize : Nat) (content : String) : List String → Except Exn String
  | [] => .ok content
  | str :: rest => do
    let content ← StringBuffer.append maxSize content str
    appendAll maxSize content rest

/-- The size of `response_buffer_c` -/
def responseBufferSize : Nat := 8 * 1024

/-- `gReasonByStatusCode` -/
def gReasonByStatusCode : StatusCode → String
  | .bad_request => "Bad Request"
  | .not_found => "Not Found"
  | .limit_violated => "Declared Limits Violated"
  | .execution_timeout => "Execution Timeout"
  | .internal_error => "Internal Error"
  | .limit_exceeded => "Resource Limit Reached"
  | .invalid_operation => "Invalid Operation"
  | .arithmetic_error => "Arithmetic Error"
  | .reentrancy_attempt => "Reentrancy Attempt"
  | .forbidden => "Forbidden"
  | .memory_fault => "Internal Memory Fault"
  | .out_of_range => "Out of Range Access"

/-- The boundaries of `app_trie_g`, level by level. -/
def appTrieBoundary : List Nat := [0xa0 * 2 ^ 56, 0xc000 * 2 ^ 48, 0xd00000 * 2 ^ 40]

/-- The loop of `toDecimalStr` from level `i`, for what is left of the boundaries. -/
def decimalLoop (code : Nat) : Nat → List Nat → String → Except Exn String
  | _, [], _ => .error (.outOfRange "toDecimalStr: invalid identifier")
  | i, boundary :: rest, ret =>
    let ret := ret ++ toString (code / 2 ^ (8 * (7 - i)) % 256)
    if code < boundary then .ok ret else decimalLoop code (i + 1) rest (ret ++ ".")

/-- `app_trie_g.toDecimalStr` -/
def toDecimalStr (code : LongID) : Except Exn String := decimalLoop code.val 0 appTrieBoundary ""

/-- `Executor::Error::toHttpResponse` into a cleared response buffer. -/
def toHttpResponse (message : String) (code : StatusCode) (app : LongID) : Except Exn String := do
  let response ← StringBuffer.appendAll responseBufferSize ""
    ["HTTP/1.1 ", toString code.toInt, " ", gReasonByStatusCode code, "\r\n", "Server: "]
  let server ← toDecimalStr app
  StringBuffer.appendAll responseBufferSize response
    [server, "\r\n", "Content-Length: ", toString (message.utf8ByteSize + 8), "\r\n\r\n", "Error: ",
      message, "."]

/-! ## The parts of a session -/

/-- `AppTable`: whether the dispatcher of a declared application exists. -/
structure AppTable where
  callTable : OrderedStaticMap LongID Bool

/-- `checkApp` -/
def AppTable.checkApp (t : AppTable) (appID : LongID) : Except Exn Unit :=
  match t.callTable.at appID with
  | .ok true => .ok ()
  | .ok false => .error (.asceeError "app does not exist" .not_found)
  | .error (.outOfRange _) =>
    .error (.asceeError ("app/" ++ LongID.toString appID ++ " was not declared in the call list")
      .limit_violated)
  | .error e => .error e

/-- `MAX_CALL_DEPTH` -/
def maxCallDepth : Int := 16

/-- `FailureManager` -/
structure FailureManager where
  stackFailures : List Nat := []
  cpuTimeFailures : List Nat := []
  callDepth : Int := 0
  lastGeneratedID : Nat := 0

namespace FailureManager

/-- `nextInvocation`: the identifier is the new `lastGeneratedID`. -/
def nextInvocation (f : FailureManager) : FailureManager :=
  { f with lastGeneratedID := f.lastGeneratedID + 1, callDepth := f.callDepth + 1 }

/-- `completeInvocation` -/
def completeInvocation (f : FailureManager) : FailureManager :=
  { f with callDepth := f.callDepth - 1 }

/-- `getExecTime`, in nanoseconds. -/
def getExecTime (f : FailureManager) (id : Nat) (gas : Int) : Int :=
  if id ∈ f.cpuTimeFailures then 150000 * gas else 300000 * gas

/-- `getStackSize` -/
def getStackSize (f : FailureManager) (id : Nat) : Except Exn Nat :=
  if f.callDepth > maxCallDepth then .error (.asceeError "max call depth reached" .limit_exceeded)
  else if id ∈ f.stackFailures then .ok (1024 * 1024)
  else .ok (2 * 1024 * 1024)

end FailureManager

/-- `VirtualSignatureManager::SignedMessage` -/
structure SignedMessage where
  issuerAccount : LongID
  message : String
  deriving DecidableEq

/-- `VirtualSignatureManager` -/
structure VirtualSignatureManager where
  cost : Nat := 0
  messages : List SignedMessage := []

namespace VirtualSignatureManager

/-- `SIG_CONSTANT_COST` -/
def sigConstantCost : Nat := 8

/-- `MAX_COST` -/
def maxCost : Nat := 128 * 1024

/-- `sign`: the cost, an unsigned 64-bit number, grows also when there are too many signatures. -/
def sign (m : VirtualSignatureManager) (msg : String) (issuer : LongID) :
    Except Exn Nat × VirtualSignatureManager :=
  let cost := (m.cost + (msg.utf8ByteSize + sigConstantCost)) % 2 ^ 64
  if cost > maxCost then (.error (.asceeError "too many virtual signatures" .limit_exceeded),
    { m with cost })
  else (.ok m.messages.length, { cost, messages := m.messages ++ [⟨issuer, msg⟩] })

/-- `verify`: a negative index is past the end as an unsigned one. -/
def verify (m : VirtualSignatureManager) (msg : String) (issuer : LongID) (index : Int) : Bool :=
  if index < 0 then false
  else match m.messages[index.toNat]? with
    | some sig => sig.message == msg && sig.issuerAccount == issuer
    | none => false

/-- `verifyAndInvalidate` -/
def verifyAndInvalidate (m : VirtualSignatureManager) (msg : String) (issuer : LongID)
    (index : Int) :
    Bool × VirtualSignatureManager :=
  if m.verify msg issuer index then
    -- the cost of a message that was not signed in the session was never added
    (true, { cost := (m.cost + 2 ^ 64 - (msg.utf8ByteSize + sigConstantCost) % 2 ^ 64) % 2 ^ 64
             messages := m.messages.set index.toNat ⟨issuer, ""⟩ })
  else (false, m)

end VirtualSignatureManager

/-- `Executor::CallContext` -/
structure CallContext where
  appID : LongID
  hasLock : Bool := false
  deriving DecidableEq

/-- `ControlledCaller::CallResourceHandler` -/
structure CallResourceHandler where
  id : Nat
  caller : LongID
  gas : Int
  remainingExternalGas : Int
  heapVersion : Nat
  deriving DecidableEq

/-- What a pointer to a handler points to. -/
inductive ResourcesPointer where
  | live (handler : CallResourceHandler)
  /-- There is no object, or it is gone. -/
  | dangling
  deriving DecidableEq

/-- `CallManager`: a `ControlledCaller` or an `OptimisticCaller`. -/
inductive CallManager where
  | controlled | optimistic
  deriving DecidableEq

/-- An invocation that was given gas: what the caller had and was left with, the heap
version before. The source does not keep these. -/
structure Invocation where
  id : Nat
  callerGas : Int
  forwardedGas : Nat
  gas : Int
  remainingCallerGas : Int
  version : Nat

/-- `SessionInfo` -/
structure Session where
  callManager : CallManager
  heapModifier : RestrictedModifier AccessBlock
  appTable : AppTable
  failureManager : FailureManager := {}
  isLocked : LongID → Bool := fun _ => false
  sigManager : VirtualSignatureManager := {}
  currentCall : CallContext
  currentResources : ResourcesPointer
  /-- The invocations so far, the newest first. -/
  invocations : List Invocation := []

end Argennon
