import Argennon.Executor.ExecuteOne
import Argennon.Executor.RunRule
import Mathlib.Logic.Relation

/- The call stack of a session, one step at a time (`executor/Executor.cpp`,
   `argc/functions/invoke.cpp`).

   Here the contexts that are live are explicit: the current one, and those of its callers
   with what each of them is waiting for. A context holds the list of the calls it has
   deferred, and the loop of `dependant_call` goes over that list. A signal is taken between
   two calls of the library, as an ending of the run, and between two deferred calls, where the
   area is not guarded, so that it may end the loop. An optimistic caller guards no area, so
   that the timer may also expire between the two assignments of `enter_area` and `exit_area`
   (`Cut`). Contexts are numbered and what happens to each is logged; the source keeps neither. -/
namespace Argennon

/-- `DeferredArgs`: what the application does with the request is its run. -/
structure DeferredArgs where
  appID : LongID
  callee : Run

/-- The frame of `executeApp`, when it has started the call. -/
inductive OpenCall where
  | controlled (prevResources handler : CallResourceHandler)
  | optimistic (caller : LongID) (heapVersion : Nat)

/-- What a live context does with the result of its call. -/
inductive Waiting where
  /-- `invoke_dispatcher`: the code goes on. -/
  | invoked (call : OpenCall) (rest : Run)
  /-- The loop over the deferred calls goes on, and then `ret` is returned. -/
  | deferred (ret : Int) (rest : List DeferredArgs)

/-- A live context that is waiting. -/
structure Frame where
  id : Nat
  call : CallContext
  deferredCalls : List DeferredArgs
  waiting : Waiting

/-- Where the current context is. -/
inductive Control where
  | app (run : Run)
  | ended (r : Except Exn Ending)
  | loop (ret : Int) (rest : List DeferredArgs)
  /-- `dependant_call` is called. -/
  | call (appID : LongID) (callee : Run) (waiting : Waiting)
  /-- The context is about to be destroyed. -/
  | leave (r : Except Exn Int)
  /-- `dependant_call` has ended. -/
  | back (waiting : Waiting) (r : Except Exn Int)

/-- What happens to a context. -/
inductive CallEvent where
  | entered (appID : LongID)
  | registered (args : DeferredArgs)
  | ended (r : Except Exn Ending)
  /-- A deferred call begins; the context that is current then. -/
  | started (args : DeferredArgs) (caller : CallContext)
  | finished (r : Except Exn Int)
  | interrupted (signal : Signal)
  | left (r : Except Exn Int)

/-- The execution of a request. -/
structure Execution where
  control : Control
  session : Session
  id : Nat := 0
  deferredCalls : List DeferredArgs := []
  /-- The contexts that are waiting, the innermost first. -/
  callers : List Frame := []
  lastID : Nat := 0
  log : List (Nat × CallEvent) := []

/-! ## `executeApp` around `dependant_call` -/

/-- `executeApp` up to `dependant_call`: a call that does not start has a status code. -/
def ControlledCaller.startCall (forwardedGas : Byte) : ArgC (Int ⊕ OpenCall) := fun s =>
  match newHandler forwardedGas s with
  | (.error (.asceeError msg code), s) =>
    (.inl <$> reportError msg code s.currentCall.appID : ArgC (Int ⊕ OpenCall)) s
  | (.error e, s) => (.error e, s)
  | (.ok (prevResources, handler), s) =>
    match s.failureManager.getStackSize handler.id with
    | .error (.asceeError msg code) => (do
        destroyHandler prevResources handler false
        .inl <$> reportError msg code s.currentCall.appID : ArgC (Int ⊕ OpenCall)) s
    | .error e => (.error e, s)
    | .ok _ => (.ok (.inr (.controlled prevResources handler)), s)

/-- `executeApp` up to `dependant_call` -/
def OptimisticCaller.startCall : ArgC (Int ⊕ OpenCall) := fun s =>
  match s.heapModifier.saveVersion with
  | (.error e, _) => (.error (optimisticError e), s)
  | (.ok heapVersion, heapModifier) =>
    (.ok (.inr (.optimistic s.currentCall.appID heapVersion)), { s with heapModifier })

/-- `Executor::callApp` up to `dependant_call` -/
def startCall (forwardedGas : Byte) : ArgC (Int ⊕ OpenCall) := fun s =>
  match s.callManager with
  | .controlled => ControlledCaller.startCall forwardedGas s
  | .optimistic => OptimisticCaller.startCall s

/-- `invoke_noexcept` and `threadStart` after `dependant_call` -/
def endThread (r : Except Exn Int) : ArgC Int := fun s =>
  match (match r with
    | .error (.executorError message code app) => reportError message code app s
    | r => (r, s)) with
  | (.error e, s) => (.error (leaveThread e), s)
  | (.ok ret, s) => (.ok ret, s)

/-- `executeApp` after `dependant_call` -/
def OpenCall.finish (r : Except Exn Int) : OpenCall → ArgC Int
  | .controlled prevResources handler => do
    let ret ← endThread r
    destroyHandler prevResources handler (ret < 400)
    pure ret
  | .optimistic caller heapVersion => fun s =>
    match r with
    | .error e =>
      if e.IsThrown then (do
        endVersion caller heapVersion false
        throw (optimisticError e) : ArgC Int) s
      else (.error e, s)
    | .ok ret => (do
      endVersion caller heapVersion (ret < 400)
      pure ret : ArgC Int) s

/-! ## Steps -/

namespace Execution

/-- The timer of an optimistic session expires between the two assignments of `enter_area` or
`exit_area`, and the handler jumps to the context of the call. In the destructor of a context
the jump comes back to that context, which is then destroyed once more. -/
inductive Cut (x : Execution) : Execution → Prop
  | enter {rest : Run} (h : x.control = .app (.lib .enter_area rest))
      (hcaller : x.session.callManager = .optimistic)
      (hlock : x.session.currentCall.hasLock = false)
      (hfree : x.session.isLocked x.session.currentCall.appID = false) :
      Cut x { x with
        control := .ended (.ok (.signalled .execution_timeout))
        session := x.session.setLocked true }
  | exit {rest : Run} (h : x.control = .app (.lib .exit_area rest))
      (hcaller : x.session.callManager = .optimistic)
      (hlock : x.session.currentCall.hasLock = true) :
      Cut x { x with
        control := .ended (.ok (.signalled .execution_timeout))
        session := x.session.setLocked false }
  /-- In `dependant_call`, when the dispatcher has returned. -/
  | returned {ret : Int} (h : x.control = .ended (.ok (.returned ret))) (hcallers : x.callers ≠ [])
      (hcaller : x.session.callManager = .optimistic)
      (hlock : x.session.currentCall.hasLock = true) :
      Cut x { x with
        control := .leave (.error (signalError .execution_timeout x.session))
        session := x.session.setLocked false
        log := x.log ++ [(x.id, .ended (.ok (.signalled .execution_timeout)))] }

/-- A step of the execution. -/
inductive Step (heap : Heap) (x : Execution) : Execution → Prop
  | ending {e : Ending} (h : x.control = .app (.ending e)) :
    Step heap x { x with control := .ended (.ok e) }
  | lib {call : LibCall} {rest : Run} {s : Session} (h : x.control = .app (.lib call rest))
      (hcall : libCall heap call x.session = (.ok none, s)) :
      Step heap x { x with control := .app rest, session := s }
  | libSignal {call : LibCall} {rest : Run} {signal : Signal} {s : Session}
      (h : x.control = .app (.lib call rest))
      (hcall : libCall heap call x.session = (.ok (some signal), s)) :
      Step heap x { x with control := .ended (.ok (.signalled signal)), session := s }
  | libError {call : LibCall} {rest : Run} {e : Exn} {s : Session}
      (h : x.control = .app (.lib call rest))
      (hcall : libCall heap call x.session = (.error e, s)) :
      Step heap x { x with control := .ended (.error e), session := s }
  | defer {appID : LongID} {callee rest : Run} (h : x.control = .app (.defer appID callee rest)) :
      Step heap x { x with
        control := .app rest
        deferredCalls := x.deferredCalls ++ [⟨appID, callee⟩]
        log := x.log ++ [(x.id, .registered ⟨appID, callee⟩)] }
  | refused {forwardedGas : Byte} {appID : LongID} {callee rest : Run} {ret : Int} {s : Session}
      (h : x.control = .app (.invoke forwardedGas appID callee rest))
      (hstart : startCall forwardedGas x.session = (.ok (.inl ret), s)) :
      Step heap x { x with control := .app rest, session := s }
  | notStarted {forwardedGas : Byte} {appID : LongID} {callee rest : Run} {e : Exn} {s : Session}
      (h : x.control = .app (.invoke forwardedGas appID callee rest))
      (hstart : startCall forwardedGas x.session = (.error e, s)) :
      Step heap x { x with control := .ended (.error e), session := s }
  | invoke {forwardedGas : Byte} {appID : LongID} {callee rest : Run} {call : OpenCall}
    {s : Session}
      (h : x.control = .app (.invoke forwardedGas appID callee rest))
      (hstart : startCall forwardedGas x.session = (.ok (.inr call), s)) :
      Step heap x { x with control := .call appID callee (.invoked call rest), session := s }
  | notEntered {appID : LongID} {callee : Run} {waiting : Waiting} {e : Exn} {s : Session}
      (h : x.control = .call appID callee waiting)
      (henter : (do checkApp appID; enterContext appID : ArgC Unit) x.session = (.error e, s)) :
      Step heap x { x with control := .back waiting (.error e), session := s }
  | enter {appID : LongID} {callee : Run} {waiting : Waiting} {s : Session}
      (h : x.control = .call appID callee waiting)
      (henter : (do checkApp appID; enterContext appID : ArgC Unit) x.session = (.ok (), s)) :
      Step heap x
        { control := .app callee
          session := s
          id := x.lastID + 1
          deferredCalls := []
          callers := ⟨x.id, x.session.currentCall, x.deferredCalls, waiting⟩ :: x.callers
          lastID := x.lastID + 1
          log := x.log ++ [(x.lastID + 1, .entered appID)] }
  | returned {r : Except Exn Ending} {ret : Int} {s : Session}
      (h : x.control = .ended r) (hcallers : x.callers ≠ [])
      (hcall : callDispatcher (fun s => (r, s)) x.session = (.ok ret, s)) :
      Step heap x { x with
        control := .loop ret x.deferredCalls
        session := ArgC.exitArea s
        log := x.log ++ [(x.id, .ended r)] }
  | failed {r : Except Exn Ending} {e : Exn} {s : Session}
      (h : x.control = .ended r) (hcallers : x.callers ≠ [])
      (hcall : callDispatcher (fun s => (r, s)) x.session = (.error e, s)) :
      Step heap x { x with
        control := .leave (.error e), session := s, log := x.log ++ [(x.id, .ended r)] }
  | deferred {ret : Int} {args : DeferredArgs} {rest : List DeferredArgs}
      (h : x.control = .loop ret (args :: rest)) :
      Step heap x { x with
        control := .call args.appID args.callee (.deferred ret rest)
        log := x.log ++ [(x.id, .started args x.session.currentCall)] }
  | interrupt {ret : Int} {rest : List DeferredArgs} (signal : Signal)
      (h : x.control = .loop ret rest) :
      Step heap x { x with
        control := .leave (.error (signalError signal x.session))
        log := x.log ++ [(x.id, .interrupted signal)] }
  | loopEnd {ret : Int} (h : x.control = .loop ret []) :
    Step heap x { x with control := .leave (.ok ret) }
  | deferredReturned {ret ret' : Int} {rest : List DeferredArgs}
      (h : x.control = .back (.deferred ret rest) (.ok ret')) :
      Step heap x { x with
        control := .loop ret rest, log := x.log ++ [(x.id, .finished (.ok ret'))] }
  | deferredFailed {ret : Int} {rest : List DeferredArgs} {e : Exn}
      (h : x.control = .back (.deferred ret rest) (.error e)) :
      Step heap x { x with
        control := .leave (.error e), log := x.log ++ [(x.id, .finished (.error e))] }
  | leave {r : Except Exn Int} {f : Frame} {callers : List Frame}
      (h : x.control = .leave r) (hcallers : x.callers = f :: callers) :
      Step heap x { x with
        control := .back f.waiting r
        session := leaveContext f.call x.session
        id := f.id
        deferredCalls := f.deferredCalls
        callers
        log := x.log ++ [(x.id, .left r)] }
  | invokeReturned {call : OpenCall} {rest : Run} {r : Except Exn Int} {ret : Int} {s : Session}
      (h : x.control = .back (.invoked call rest) r)
      (hfinish : call.finish r x.session = (.ok ret, s)) :
      Step heap x { x with control := .app rest, session := s }
  | invokeFailed {call : OpenCall} {rest : Run} {r : Except Exn Int} {e : Exn} {s : Session}
      (h : x.control = .back (.invoked call rest) r)
      (hfinish : call.finish r x.session = (.error e, s)) :
      Step heap x { x with control := .ended (.error e), session := s }
  | cut {y : Execution} (h : Cut x y) : Step heap x y

/-- Steps one after the other. -/
abbrev Steps (heap : Heap) : Execution → Execution → Prop := Relation.ReflTransGen (Step heap)

/-- The execution of a request, whose application makes `run`. -/
def root (req : AppRequest) (run : Run) : Execution :=
  { control := .app (.invoke 255 req.calledAppID run (.ending (.returned 0)))
    session := req.rootSession }

/-- The execution comes to `x`. -/
def Reachable (heap : Heap) (req : AppRequest) (run : Run) (x : Execution) : Prop :=
  Steps heap (root req run) x

/-- The context of the request has no more to do. -/
def Finished (x : Execution) : Prop := x.callers = [] ∧ ∃ r, x.control = .ended r

end Execution
end Argennon
