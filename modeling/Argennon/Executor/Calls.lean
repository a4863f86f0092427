import Argennon.Executor.Library

/- The execution of calls (`executor/Executor.cpp`, `argc/functions/invoke.cpp`):
   `dependant_call`, the controlled caller with the thread it starts
   (`invoke_noexcept`), and the optimistic caller.

   An application is known by what it does: a `Run` lists its library calls with their
   arguments and its calls of other applications with the runs of those, and tells how
   its dispatcher ends. The code of a context gets the calls it defers by walking the
   same run once more, after the dispatcher has returned.

   Objects on the call stack are local values here: a constructor that throws leaves
   what it has done to the session, and no destructor runs for its object. -/
namespace Argennon

/-- What `sig_handler` tells the context of the interrupted call. -/
inductive Signal where
  | memory_fault | execution_timeout | arithmetic_error | other
  deriving DecidableEq

/-- The error `dependant_call` throws for a signal. -/
def Signal.error : Signal → String × StatusCode
  | .memory_fault => ("segmentation fault (possibly stack overflow)", .memory_fault)
  | .execution_timeout => ("cpu timer expired", .execution_timeout)
  | .arithmetic_error => ("SIGFPE was caught", .arithmetic_error)
  | .other => ("a signal was caught", .internal_error)

/-- How the code of an application ends when it does not throw. -/
inductive Ending where
  | returned (code : Int)
  | signalled (signal : Signal)
  /-- The timer expires inside a guarded area, of the library or of the end of the call. -/
  | overrun
  deriving DecidableEq

/-- What an application does from some point on. -/
inductive Run where
  | ending (e : Ending)
  | lib (call : LibCall) (rest : Run)
  /-- `invoke_dispatcher` -/
  | invoke (forwardedGas : Byte) (appID : LongID) (callee rest : Run)
  /-- `invoke_deferred` -/
  | defer (appID : LongID) (callee rest : Run)

/-! ## Contexts -/

/-- The context of the modifier is the one of the current call. -/
def Session.loadContext (s : Session) (appID : LongID) : Session :=
  { s with heapModifier := s.heapModifier.loadContext appID }

/-- The session in a new context. -/
def Session.entered (s : Session) (appID : LongID) : Session :=
  { s.loadContext appID with currentCall := { appID } }

/-- `CallContext::CallContext(app)` -/
def enterContext (appID : LongID) : ArgC Unit := fun s =>
  if s.currentCall.appID =
    appID then (.error (.executorError "calling self" .invalid_operation appID), s)
  else (.ok (), s.entered appID)

/-- `CallContext::~CallContext` -/
def leaveContext (prevCallInfo : CallContext) (s : Session) : Session :=
  { (ArgC.exitArea s).loadContext prevCallInfo.appID with currentCall := prevCallInfo }

/-- `checkApp`, its exceptions being given the current application. -/
def checkApp (appID : LongID) : ArgC Unit := fun s =>
  match s.appTable.checkApp appID with
  | .error (.asceeError msg code) => (.error (.executorError msg code s.currentCall.appID), s)
  | r => (r, s)

/-- The error of the current call for a signal. -/
def signalError (signal : Signal) (s : Session) : Exn :=
  .executorError signal.error.1 signal.error.2 s.currentCall.appID

/-- The dispatcher: an `out_of_range` that leaves it and a signal become errors. -/
def callDispatcher (app : ArgC Ending) : ArgC Int := fun s =>
  match app s with
  | (.error (.outOfRange what), s) =>
    (.error (.executorError what .out_of_range s.currentCall.appID), s)
  | (.error e, s) => (.error e, s)
  | (.ok (.signalled signal), s) => (.error (signalError signal s), s)
  | (.ok .overrun, s) =>
    -- `unGuard_` unblocks the signal before it clears `guardedArea`, which an optimistic
    -- caller never sets
    if s.callManager = .controlled then (.error .terminate, s)
    else (.error (signalError .execution_timeout s), s)
  | (.ok (.returned ret), s) =>
    if ret ≥ 400 then
      (.error (.executorError "returning a revert code normally" .invalid_operation
        s.currentCall.appID), s)
    else (.ok ret, s)

/-- `exit_area` -/
def exitArea : ArgC Unit := fun s => (.ok (), ArgC.exitArea s)

/-- `dependant_call` in its context: the dispatcher, and then the deferred calls, before
which the entrance lock is released. -/
def callInContext (app : ArgC Ending) (deferred : ArgC Unit) : ArgC Int := do
  let ret ← callDispatcher app
  exitArea
  deferred
  pure ret

/-- The body in the context of `appID`, which is left also by an exception. -/
def withContext {α : Type} (appID : LongID) (body : ArgC α) : ArgC α := fun s =>
  match enterContext appID s with
  | (.error e, s) => (.error e, s)
  | (.ok (), s') =>
    let (r, s') := body s'
    (r, leaveContext s.currentCall s')

/-- `dependant_call` -/
def dependantCall (appID : LongID) (app : ArgC Ending) (deferred : ArgC Unit) : ArgC Int := do
  checkApp appID
  withContext appID (callInContext app deferred)

/-! ## The controlled caller -/

/-- `Executor::Error(ae).toHttpResponse`, and the status code it reports. -/
def reportError (msg : String) (code : StatusCode) (app : LongID) : ArgC Int := fun s =>
  match toHttpResponse msg code app with
  | .error e => (.error e, s)
  | .ok _ => (.ok code.toInt, s)

/-- `invoke_noexcept`, the entry of the thread of an application. -/
def invokeNoexcept (appID : LongID) (app : ArgC Ending) (deferred : ArgC Unit) :
    ArgC Int := fun s =>
  match dependantCall appID app deferred s with
  | (.error (.executorError message code app), s) => reportError message code app s
  | r => r

/-- `min_clocks` -/
def minClocks : Int := 1

/-- `calculateExternalGas` -/
def calculateExternalGas (currentGas : Int) : Int := (2 * currentGas).tdiv 3

/-- The gas of a call: a fraction of what the caller may still give. -/
def forwardedGasOf (prevResources : CallResourceHandler) (forwardedGas : Byte) : Int :=
  prevResources.remainingExternalGas * forwardedGas.toNat / 2 ^ 8

/-- The resources of the caller when the gas of the call is taken. -/
def chargedFor (prevResources : CallResourceHandler) (forwardedGas : Byte) : CallResourceHandler :=
  { prevResources with
    remainingExternalGas :=
      prevResources.remainingExternalGas - forwardedGasOf prevResources forwardedGas }

/-- The record of the call. -/
def invocationOf (prevResources : CallResourceHandler) (forwardedGas : Byte) (s : Session) :
    Invocation :=
  { id := s.failureManager.nextInvocation.lastGeneratedID
    callerGas := prevResources.remainingExternalGas
    forwardedGas := forwardedGas.toNat
    gas := forwardedGasOf prevResources forwardedGas
    remainingCallerGas := (chargedFor prevResources forwardedGas).remainingExternalGas
    version := s.heapModifier.currentVersion }

/-- What the constructor of the handler has done when it saves the version. -/
def takeGas (prevResources : CallResourceHandler) (forwardedGas : Byte) (s : Session) : Session :=
  { s with
    failureManager := s.failureManager.nextInvocation
    invocations := invocationOf prevResources forwardedGas s :: s.invocations }

/-- The handler of the call, constructed. -/
def handlerFor (prevResources : CallResourceHandler) (forwardedGas : Byte) (s : Session) :
    CallResourceHandler :=
  { id := s.failureManager.nextInvocation.lastGeneratedID
    caller := s.currentCall.appID
    gas := forwardedGasOf prevResources forwardedGas
    remainingExternalGas := calculateExternalGas (forwardedGasOf prevResources forwardedGas)
    heapVersion := s.heapModifier.currentVersion }

/-- `CallResourceHandler::CallResourceHandler(forwardedGas)`: the handlers of the caller and
of the call. When the version cannot be saved the session keeps a pointer to the object
that is not constructed. -/
def newHandler (forwardedGas : Byte) : ArgC (CallResourceHandler × CallResourceHandler) := fun s =>
  match s.currentResources with
  | .dangling => (.error .undefined, s)
  | .live prevResources =>
    if forwardedGasOf prevResources forwardedGas ≤ minClocks then
      (.error (.asceeError "forwarded gas is too low" .invalid_operation), s)
    else
      match s.heapModifier.saveVersion with
      | (.error e, _) =>
        (.error e, { takeGas prevResources forwardedGas s with currentResources := .dangling })
      | (.ok _, heapModifier) =>
        (.ok (chargedFor prevResources forwardedGas, handlerFor prevResources forwardedGas s),
          { takeGas prevResources forwardedGas s with
            heapModifier
            currentResources := .live (handlerFor prevResources forwardedGas s) })

/-- The end of both handlers: the version is restored unless the call is completed. -/
def endVersion (caller : LongID) (heapVersion : Nat) (completed : Bool) : ArgC Unit := fun s =>
  let (r, heapModifier) := if completed then (.ok (), s.heapModifier)
    else s.heapModifier.restoreVersion heapVersion
  (r, { s with heapModifier := heapModifier.loadContext caller })

/-- `ControlledCaller::CallResourceHandler::~CallResourceHandler` -/
def destroyHandler (prevResources handler : CallResourceHandler) (completed : Bool) :
    ArgC Unit := fun s =>
  endVersion handler.caller handler.heapVersion completed
    { s with
      currentResources := .live prevResources
      failureManager := s.failureManager.completeInvocation }

/-- An exception that leaves a thread ends the process. -/
def leaveThread (e : Exn) : Exn := if e.IsThrown then .terminate else e

/-- The thread of a call. -/
def threadStart (appID : LongID) (app : ArgC Ending) (deferred : ArgC Unit) : ArgC Int := fun s =>
  match invokeNoexcept appID app deferred s with
  | (.error e, s) => (.error (leaveThread e), s)
  | (.ok ret, s) => (.ok ret, s)

/-- The call once its resources are there. -/
def callWithResources (appID : LongID) (app : ArgC Ending) (deferred : ArgC Unit)
    (prevResources handler : CallResourceHandler) : ArgC Int := fun s =>
  match s.failureManager.getStackSize handler.id with
  | .error (.asceeError msg code) => (do
      destroyHandler prevResources handler false
      reportError msg code s.currentCall.appID : ArgC Int) s
  | .error e => (.error e, s)
  | .ok _ => (do
      let ret ← threadStart appID app deferred
      destroyHandler prevResources handler (ret < 400)
      pure ret : ArgC Int) s

/-- `ControlledCaller::executeApp` -/
def ControlledCaller.executeApp (forwardedGas : Byte) (appID : LongID) (app : ArgC Ending)
    (deferred : ArgC Unit) :
    ArgC Int := fun s =>
  match newHandler forwardedGas s with
  | (.error (.asceeError msg code), s) => reportError msg code s.currentCall.appID s
  | (.error e, s) => (.error e, s)
  | (.ok (prevResources, handler), s) =>
    callWithResources appID app deferred prevResources handler s

/-! ## The optimistic caller -/

/-- What the handler of `OptimisticCaller::executeApp` makes of an exception. -/
def optimisticError : Exn → Exn
  | .asceeError _ _ | .executorError _ _ _ => .blockError "an optimistic call failed"
  | e => e

/-- `OptimisticCaller::executeApp` -/
def OptimisticCaller.executeApp (appID : LongID) (app : ArgC Ending) (deferred : ArgC Unit) :
    ArgC Int := fun s =>
  match s.heapModifier.saveVersion with
  | (.error e, _) => (.error (optimisticError e), s)
  | (.ok heapVersion, heapModifier) =>
    match dependantCall appID app deferred { s with heapModifier } with
    | (.error e, s') =>
      if e.IsThrown then (do
          endVersion s.currentCall.appID heapVersion false
          throw (optimisticError e) : ArgC Int) s'
      else (.error e, s')
    | (.ok ret, s') => (do
        endVersion s.currentCall.appID heapVersion (ret < 400)
        pure ret : ArgC Int) s'

/-- `Executor::callApp` -/
def callApp (forwardedGas : Byte) (appID : LongID) (app : ArgC Ending) (deferred : ArgC Unit) :
    ArgC Int := fun s =>
  match s.callManager with
  | .controlled => ControlledCaller.executeApp forwardedGas appID app deferred s
  | .optimistic => OptimisticCaller.executeApp appID app deferred s

/-! ## Runs -/

/-- A library call of an application: a null pointer that is followed raises SIGSEGV. Only
a controlled caller guards areas. -/
def libCall (heap : Heap) (call : LibCall) : ArgC (Option Signal) := fun s =>
  match call.exec heap s with
  | (.ok (), s) => (.ok none, s)
  | (.error .undefined, s) =>
    if call.guarded && s.callManager = .controlled then (.error .terminate, s)
    else (.ok (some .memory_fault), s)
  | (.error e, s) => (.error e, s)

mutual

/-- The code of an application. -/
def Run.app (heap : Heap) : Run → ArgC Ending
  | .ending e => pure e
  | .lib call rest => do
    match ← libCall heap call with
    | some signal => pure (.signalled signal)
    | none => rest.app heap
  | .invoke forwardedGas appID callee rest => do
    let _ ← callApp forwardedGas appID (callee.app heap) (callee.deferred heap)
    rest.app heap
  | .defer _ _ rest => rest.app heap

/-- The loop over the calls that the code has deferred. -/
def Run.deferred (heap : Heap) : Run → ArgC Unit
  | .ending _ => pure ()
  | .lib _ rest => rest.deferred heap
  | .invoke _ _ _ rest => rest.deferred heap
  | .defer appID callee rest => do
    let _ ← dependantCall appID (callee.app heap) (callee.deferred heap)
    rest.deferred heap

end

/-- A call of an application by the run it makes: `invoke_dispatcher`. -/
def Run.execute (heap : Heap) (forwardedGas : Byte) (appID : LongID) (run : Run) : ArgC Int :=
  callApp forwardedGas appID (run.app heap) (run.deferred heap)

end Argennon
