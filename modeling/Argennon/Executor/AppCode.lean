import Argennon.Executor.SessionRestore
import Argennon.Executor.MessageSeparation

/- The code of an application: its calls of the library with what they return.

   A `Run` lists the calls an application makes; here it is given by its code, which decides what to
   call next by what the calls before have returned. A request that is executed either fails, and
   then the heap is as it was before, or the dispatcher has returned and its session is written back
   (`executeCode_ok`). -/
namespace Argennon

/-- The code of an application, which a signal may end. -/
abbrev AppCode := ExceptT Signal ArgC

/-- A call of the library, as `libCall` makes it, with its value. -/
def callLib {α : Type} (guarded : Bool) (f : ArgC α) : AppCode α := fun s =>
  match f s with
  | (.ok a, s) => (.ok (.ok a), s)
  | (.error .undefined, s) =>
    if guarded && s.callManager = .controlled then (.error .terminate, s)
    else (.ok (.error .memory_fault), s)
  | (.error e, s) => (.error e, s)

/-- How the code ends. -/
def AppCode.ending (code : AppCode Int) : ArgC Ending := fun s =>
  match code s with
  | (.ok (.ok ret), s) => (.ok (.returned ret), s)
  | (.ok (.error signal), s) => (.ok (.signalled signal), s)
  | (.error e, s) => (.error e, s)

/-- The call of the application of the request, by its code. The application defers no calls. -/
def AppRequest.callCode (req : AppRequest) (code : AppCode Int) : Except Exn Int × Session :=
  callApp 255 req.calledAppID code.ending (pure ()) req.rootSession

/-- `executeOne`, of an application that is given by its code. -/
def executeCode (heap : Heap) (req : AppRequest) (code : AppCode Int) : Except Exn (Int × Heap) :=
  let result : Except Exn (Int × Heap) := match req.callCode code with
    | (.error e, _) => .error e
    | (.ok statusCode, s) => (s.heapModifier.writeToHeap heap).map fun heap => (statusCode, heap)
  match result with
  | .error (.outOfRange _) => .error (.runtimeError "why???")
  | r => r

/-! ## Code and runs -/

/-- A call of a run is a call of the code whose value is discarded. -/
theorem libCall_eq (heap : Heap) (call : LibCall) (s : Session) : libCall heap call s =
    match callLib call.guarded (call.exec heap) s with
    | (.ok (.ok ()), s) => (.ok none, s)
    | (.ok (.error signal), s) => (.ok (some signal), s)
    | (.error e, s) => (.error e, s) := by
  unfold libCall callLib
  obtain ⟨e | u, t⟩ := call.exec heap s
  · cases e <;> simp only
    split <;> rfl
  · rfl

/-- A request executes a run like the code that does the same and defers nothing. -/
theorem executeOne_eq_executeCode {heap : Heap} {req : AppRequest} {run : Run} {code : AppCode Int}
    (hcode : run.app heap = code.ending)
    (hdeferred : run.deferred heap = pure ()) :
    executeOne heap req run = executeCode heap req code := by
  have hcall : req.callRoot heap run = req.callCode code := by
    unfold AppRequest.callRoot AppRequest.callCode Run.execute
    exact congrArg₂ (fun app deferred => callApp 255 req.calledAppID app deferred req.rootSession)
      hcode hdeferred
  unfold executeOne
  rw [hcall]
  rfl

/-! ## Code that returns -/

namespace AppCode
variable {α β : Type} {s s' : Session}

theorem pure_apply (a : α) (s : Session) : (pure a : AppCode α) s = (.ok (.ok a), s) := rfl

/-- One part after the other, when the whole returns. -/
theorem bind_eq_ok {x : AppCode α} {g : α → AppCode β} {b : β}
    (h : (x >>= g) s = (.ok (.ok b), s')) :
    ∃ a t, x s = (.ok (.ok a), t) ∧ g a t = (.ok (.ok b), s') := by
  have hbind : (x >>= g) s = (ExceptT.bindCont g =<< (x : ArgC (Except Signal α))) s := rfl
  rw [hbind] at h
  obtain ⟨r, t, hx, hr⟩ := ArgC.bind_eq_ok h
  cases r with
  | error signal => cases (Prod.mk.inj hr).1
  | ok a => exact ⟨a, t, hx, hr⟩

/-- A call of the library that returns. -/
theorem callLib_eq_ok {guarded : Bool} {f : ArgC α} {a : α}
    (h : callLib guarded f s = (.ok (.ok a), s')) : f s = (.ok a, s') := by
  unfold callLib at h
  cases hf : f s with
  | mk r t =>
    rw [hf] at h
    cases r with
    | ok a' =>
      obtain ⟨h1, rfl⟩ := Prod.mk.inj h
      rw [Except.ok.inj (Except.ok.inj h1)]
    | error e =>
      exfalso
      cases e with
      | undefined =>
        simp only at h
        split at h <;> cases h
      | _ => cases h

/-- The code ends with the status that it returns. -/
theorem ending_returned {code : AppCode Int} {ret : Int}
    (h : code.ending s = (.ok (.returned ret), s')) : code s = (.ok (.ok ret), s') := by
  unfold AppCode.ending at h
  cases hcode : code s with
  | mk r t =>
    rw [hcode] at h
    obtain e | e | ret' := r
    · cases h
    · cases h
    · obtain ⟨h1, rfl⟩ := Prod.mk.inj h
      rw [Ending.returned.inj (Except.ok.inj h1)]

end AppCode

/-! ## Calls that return -/

section
variable {appID : LongID} {app : ArgC Ending} {s s' : Session} {ret : Int}

/-- `dependant_call` has returned: the dispatcher has, with a status that is no error. -/
theorem dependantCall_ok (h : dependantCall appID app (pure ()) s = (.ok ret, s')) :
    ret < 400 ∧ ∃ t, app (s.entered appID) = (.ok (.returned ret), t) ∧
      s' = leaveContext s.currentCall (ArgC.exitArea t) := by
  unfold dependantCall at h
  obtain ⟨_, s₁, hcheck, hcontext⟩ := ArgC.bind_eq_ok h
  obtain rfl : s = s₁ := by
    obtain hok | ⟨e, he⟩ := checkApp_cases appID s
    · exact (Prod.mk.inj (hok.symm.trans hcheck)).2
    · cases (Prod.mk.inj (he.symm.trans hcheck)).1
  unfold withContext at hcontext
  cases henter : enterContext appID s with
  | mk r t =>
    rw [henter] at hcontext
    cases r with
    | error e => cases hcontext
    | ok u =>
      obtain rfl : t = s.entered appID := by
        unfold enterContext at henter
        split at henter
        · cases henter
        · exact (Prod.mk.inj henter).2.symm
      simp only at hcontext
      cases hbody : callInContext app (pure ()) (s.entered appID) with
      | mk r t =>
        rw [hbody] at hcontext
        obtain ⟨rfl, rfl⟩ := Prod.mk.inj hcontext
        unfold callInContext at hbody
        obtain ⟨ret', t', hdispatch, hbody⟩ := ArgC.bind_eq_ok hbody
        obtain ⟨hret, rfl⟩ := Prod.mk.inj hbody
        obtain rfl := Except.ok.inj hret
        -- of all the ends of the dispatcher only a status below 400 returns
        unfold callDispatcher at hdispatch
        cases happ : app (s.entered appID) with
        | mk r u =>
          rw [happ] at hdispatch
          obtain e | ret'' | signal | _ := r
          · exfalso
            cases e <;> cases hdispatch
          · simp only at hdispatch
            split at hdispatch
            · cases hdispatch
            · rename_i hlt
              obtain ⟨h1, rfl⟩ := Prod.mk.inj hdispatch
              obtain rfl := Except.ok.inj h1
              exact ⟨by omega, u, rfl, rfl⟩
          · cases hdispatch
          · simp only at hdispatch
            split at hdispatch <;> cases hdispatch

/-- How a call leaves the heap modifier: at the version before, if the call has failed, or as
`dependant_call` has left it. -/
inductive CallEnded (appID : LongID) (app : ArgC Ending) (s : Session) (ret : Int)
    (m : RestrictedModifier AccessBlock) : Prop where
  | failed (hret : 400 ≤ ret) (hversion : m.currentVersion = s.heapModifier.currentVersion)
  | completed (hret : ret < 400) (t t' : Session) (caller : LongID)
      (hmodifier : t.heapModifier =
        { s.heapModifier with currentVersion := s.heapModifier.currentVersion + 1 })
      (hsignatures : t.sigManager = s.sigManager) (hcall : dependantCall appID app (pure ()) t =
        (.ok ret, t'))
      (hm : m = t'.heapModifier.loadContext caller)

theorem callWithResources_ok {prev handler : CallResourceHandler}
    (h : callWithResources appID app (pure ()) prev handler s = (.ok ret, s')) :
    (400 ≤ ret ∧ s'.heapModifier.currentVersion = handler.heapVersion) ∨
      ret < 400 ∧ ∃ t', dependantCall appID app (pure ()) s = (.ok ret, t') ∧
        s'.heapModifier = t'.heapModifier.loadContext handler.caller := by
  unfold callWithResources at h
  cases hstack : s.failureManager.getStackSize handler.id with
  | error e =>
    rw [hstack] at h
    cases e with
    | asceeError msg code =>
      -- the stack size is refused: the destructor goes back to the saved version
      obtain ⟨_, t, hdestroy, hreport⟩ := ArgC.bind_eq_ok h
      left
      obtain rfl : t = s' := by rw [← reportError_snd msg code s.currentCall.appID t, hreport]
      refine ⟨reportError_ok (congrArg Prod.fst hreport), ?_⟩
      rw [endVersion_ok hdestroy]
      rfl
    | _ => cases h
  | ok size =>
    rw [hstack] at h
    obtain ⟨ret', t, hthread, h⟩ := ArgC.bind_eq_ok h
    obtain ⟨_, t', hdestroy, h⟩ := ArgC.bind_eq_ok h
    obtain ⟨hret, rfl⟩ := Prod.mk.inj h
    obtain rfl := Except.ok.inj hret
    have hend := endVersion_ok hdestroy
    -- the handler is completed exactly below 400, else the version is restored
    by_cases hlt : ret' < 400
    · right
      refine ⟨hlt, t, ?_, ?_⟩
      · unfold threadStart at hthread
        cases hinvoke : invokeNoexcept appID app (pure ()) s with
        | mk r u =>
          rw [hinvoke] at hthread
          cases r with
          | error e => cases hthread
          | ok ret'' =>
            obtain ⟨h1, rfl⟩ := Prod.mk.inj hthread
            obtain rfl := Except.ok.inj h1
            unfold invokeNoexcept at hinvoke
            split at hinvoke
            · -- a reported error has the status of an error
              have hge := reportError_ok (congrArg Prod.fst hinvoke)
              omega
            · exact hinvoke
      · rw [hend, decide_eq_true hlt]
        rfl
    · left
      refine ⟨by omega, ?_⟩
      rw [hend, decide_eq_false hlt]
      rfl

theorem controlled_callEnded {forwardedGas : Byte}
    (h : ControlledCaller.executeApp forwardedGas appID app (pure ()) s = (.ok ret, s')) :
    CallEnded appID app s ret s'.heapModifier := by
  unfold ControlledCaller.executeApp at h
  obtain ⟨-, hnew⟩ | ⟨prev, -, ⟨-, hnew⟩ | ⟨-, -, hnew⟩ | ⟨-, -, hnew⟩⟩ :=
    newHandler_cases forwardedGas s
  · rw [hnew] at h
    cases h
  · rw [hnew] at h
    obtain rfl : s' = s := (congrArg Prod.snd h).symm.trans (reportError_snd _ _ _ _)
    exact .failed (reportError_ok (congrArg Prod.fst h)) rfl
  · rw [hnew] at h
    obtain rfl : s' = { takeGas prev forwardedGas s with currentResources := .dangling } :=
      (congrArg Prod.snd h).symm.trans (reportError_snd _ _ _ _)
    exact .failed (reportError_ok (congrArg Prod.fst h)) rfl
  · rw [hnew] at h
    obtain ⟨hret, hversion⟩ | ⟨hret, t', hcall, hm⟩ := callWithResources_ok h
    · exact .failed hret hversion
    · exact .completed hret (calleeSession prev forwardedGas s) t' _ rfl rfl hcall hm

theorem optimistic_callEnded (h : OptimisticCaller.executeApp appID app (pure ()) s =
    (.ok ret, s')) :
    CallEnded appID app s ret s'.heapModifier := by
  unfold OptimisticCaller.executeApp RestrictedModifier.saveVersion at h
  split at h
  · cases h
  · rename_i heapVersion m hsave
    split at hsave
    · cases hsave
    obtain ⟨hversion, rfl⟩ := Prod.mk.inj hsave
    split at h
    · split at h
      · obtain ⟨_, t, -, h⟩ := ArgC.bind_eq_ok h
        cases h
      · cases h
    · rename_i ret' t' hcall
      obtain ⟨_, t, hend, h⟩ := ArgC.bind_eq_ok h
      obtain ⟨hret, rfl⟩ := Prod.mk.inj h
      obtain rfl := Except.ok.inj hret
      have hlt := (dependantCall_ok hcall).1
      refine .completed hlt { s with heapModifier :=
        { s.heapModifier with currentVersion := s.heapModifier.currentVersion + 1 } } t'
        s.currentCall.appID rfl rfl hcall ?_
      rw [endVersion_ok hend, decide_eq_true hlt]
      rfl

end

/-- **A request that is executed.** It has failed, and the heap is not changed, or the dispatcher
has returned the status in the first version, and what its session has written is in the heap. -/
theorem executeCode_ok {heap heap' : Heap} {req : AppRequest} {code : AppCode Int} {status : Int}
    (hversion : req.modifier.currentVersion = 0)
    (h : executeCode heap req code = .ok (status, heap')) :
    (400 ≤ status ∧ heap' = heap) ∨ status < 400 ∧ ∃ s s' : Session,
      s.heapModifier = ({ req.modifier with currentVersion := 1 } :
        RestrictedModifier AccessBlock).loadContext req.calledAppID ∧
      s.currentCall = { appID := req.calledAppID } ∧ s.sigManager = req.signatureManager ∧
      code s = (.ok (.ok status), s') ∧ s'.heapModifier.writeToHeap heap = .ok heap' := by
  unfold executeCode at h
  cases hcall : req.callCode code with
  | mk r s' =>
    rw [hcall] at h
    cases r with
    | error e =>
      exfalso
      cases e <;> cases h
    | ok status' =>
      simp only at h
      cases hwrite : s'.heapModifier.writeToHeap heap with
      | error e =>
        rw [hwrite] at h
        exfalso
        cases e <;> cases h
      | ok heap'' =>
        rw [hwrite] at h
        obtain ⟨rfl, rfl⟩ := Prod.mk.inj (Except.ok.inj h)
        have hended : CallEnded req.calledAppID code.ending req.rootSession status'
            s'.heapModifier := by
          unfold AppRequest.callCode callApp at hcall
          split at hcall
          · exact controlled_callEnded hcall
          · exact optimistic_callEnded hcall
        have hroot : req.rootSession.heapModifier = req.modifier := rfl
        obtain ⟨hret, hback⟩ | ⟨hret, t, t', caller, hmodifier, hsignatures, hdependant, hm⟩ :=
          hended
        · -- the version is the first one again, so nothing is written back
          left
          refine ⟨hret, ?_⟩
          rw [hroot, hversion] at hback
          unfold RestrictedModifier.writeToHeap at hwrite
          rw [if_pos hback] at hwrite
          exact (Except.ok.inj hwrite).symm
        · right
          obtain ⟨-, u, happ, rfl⟩ := dependantCall_ok hdependant
          refine ⟨hret, t.entered req.calledAppID, u, ?_, rfl, hsignatures,
            AppCode.ending_returned happ, ?_⟩
          · rw [hroot, hversion] at hmodifier
            have hentered : (t.entered req.calledAppID).heapModifier =
                t.heapModifier.loadContext req.calledAppID := rfl
            rw [hentered, hmodifier]
          · -- the pointers into the maps are not written back
            rw [hm] at hwrite
            have hsame : (leaveContext t.currentCall (ArgC.exitArea u)).heapModifier =
                u.heapModifier.loadContext t.currentCall.appID := by
              unfold leaveContext ArgC.exitArea Session.loadContext
              split <;> rfl
            rw [hsame] at hwrite
            exact hwrite

end Argennon
