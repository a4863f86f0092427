import Argennon.Executor.LibraryErrors
import Argennon.Executor.SessionRestore

/- Which failures of a call tree become responses.

   `invoke_noexcept` answers with the status and the response of the error exactly if every
   step of its run is contained: no library call escapes, the timer does not expire inside a
   guarded area, the resources of the caller are there at every call, and a step that fails
   has a response, for which its application needs a decimal form. Only the texts that an
   application passes to `revert` and to the scanners can be too long. The condition is on
   the steps and the sessions they are made in, thread by thread (`Run.Contained`). -/
namespace Argennon

/-- The steps of `dependant_call`: the code of the application in its new context, and, if it
returns, the deferred calls. -/
def ContextContained (appID : LongID) (app : ArgC Ending) (code deferredCode : Session → Prop)
    (s : Session) : Prop :=
  if s.appTable.checkApp appID = .ok () ∧ s.currentCall.appID ≠ appID then
    code (s.entered appID) ∧ ∀ ret t, callDispatcher app (s.entered appID) = (.ok ret, t) →
      deferredCode (ArgC.exitArea t)
  else Numbered s.currentCall.appID

/-- The call is not given a thread: it has too little gas, the heap versions are used up, or the
stack is too deep. -/
def CallRefused (forwardedGas : Byte) (s : Session) : Prop :=
  (∃ e t, newHandler forwardedGas s = (.error e, t)) ∨
    ∃ prev handler t e, newHandler forwardedGas s = (.ok (prev, handler), t) ∧
      t.failureManager.getStackSize handler.id = .error e

/-- The dispatcher fails with this end. -/
def Ending.Fails : Ending → Prop
  | .returned ret => 400 ≤ ret
  | .signalled _ | .overrun => True

/-- The end of a run is contained: the timer does not end the process, and if the dispatcher
fails there is a response. -/
def Ending.Contained (app : LongID) (e : Ending) : Prop := e ≠ .overrun ∧ (e.Fails → Numbered app)

mutual

/-- The steps of the code of an application. -/
def Run.Contained (heap : Heap) : Run → Session → Prop
  | .ending e => fun s => e.Contained s.currentCall.appID
  | .lib call rest => fun s =>
    call.Contained heap s ∧ ∀ t, libCall heap call s = (.ok none, t) → rest.Contained heap t
  | .invoke forwardedGas appID callee rest => fun s =>
    s.currentResources ≠ .dangling ∧
    (CallRefused forwardedGas s → Numbered s.currentCall.appID) ∧
    (∀ prev handler t size, newHandler forwardedGas s = (.ok (prev, handler), t) →
      t.failureManager.getStackSize handler.id = .ok size →
      ContextContained appID (callee.app heap) (callee.Contained heap)
        (callee.DeferredContained heap) t) ∧
    ∀ ret t, callApp forwardedGas appID (callee.app heap) (callee.deferred heap) s = (.ok ret, t) →
      rest.Contained heap t
  | .defer _ _ rest => fun s => rest.Contained heap s

/-- The steps of the calls that the code has deferred. -/
def Run.DeferredContained (heap : Heap) : Run → Session → Prop
  | .ending _ => fun _ => True
  | .lib _ rest => fun s => rest.DeferredContained heap s
  | .invoke _ _ _ rest => fun s => rest.DeferredContained heap s
  | .defer appID callee rest => fun s =>
    ContextContained appID (callee.app heap) (callee.Contained heap)
      (callee.DeferredContained heap) s ∧
    ∀ ret t, dependantCall appID (callee.app heap) (callee.deferred heap) s = (.ok ret, t) →
      rest.DeferredContained heap t

end

/-- A session of a controlled execution, past version 0. -/
structure InThread (s : Session) : Prop where
  valid : s.heapModifier.Valid
  controlled : s.callManager = .controlled

/-- The thread of a request under controlled execution, whose modifier has no context yet, starts
in such a session. -/
theorem inThread_of_root {req : AppRequest} (hcontrolled : req.useControlledExecution = true)
    (hchunks : req.modifier.chunks = none) (hcurrent : req.modifier.currentChunk = none)
    {t : Session}
    {r : CallResourceHandler × CallResourceHandler}
    (h : newHandler 255 req.rootSession = (.ok r, t)) : InThread t := by
  obtain ⟨-, hnew⟩ | ⟨prev, -, ⟨-, hnew⟩ | ⟨-, -, hnew⟩ | ⟨-, -, hnew⟩⟩ :=
    newHandler_cases 255 req.rootSession
  all_goals
    rw [hnew] at h
    cases h
  refine ⟨⟨Nat.succ_pos _, ?_, ?_⟩, if_pos hcontrolled⟩
  · intro i hi
    rw [show (calleeSession prev 255 req.rootSession).heapModifier.chunks = none from hchunks] at hi
    cases hi
  · intro p hp
    rw [show (calleeSession prev 255 req.rootSession).heapModifier.currentChunk =
      none from hcurrent] at hp
    cases hp

/-! ## One part after the other -/

section
variable {α β : Type} {p : Exn → Prop} {s : Session}

end

/-! ## Reported errors -/

section
variable (appID : LongID) (app : ArgC Ending) (deferred : ArgC Unit) (s : Session)

end

end Argennon
