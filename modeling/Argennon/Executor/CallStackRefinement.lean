import Argennon.Executor.CallStack

/- The execution step by step computes what the calls compute at once: from the root it comes
   to the session and the outcome of `callRoot`. The loop over the list of deferred calls
   does what walking the run once more does. -/
namespace Argennon

/-- The calls that a run defers, when it comes to its end. -/
def Run.registered : Run → List DeferredArgs
  | .ending _ => []
  | .lib _ rest => rest.registered
  | .invoke _ _ _ rest => rest.registered
  | .defer appID callee rest => ⟨appID, callee⟩ :: rest.registered

/-! ## `executeApp` in two parts -/

theorem threadStart_eq (appID : LongID) (app : ArgC Ending) (deferred : ArgC Unit) (s : Session) :
    threadStart appID app deferred s =
      endThread (dependantCall appID app deferred s).1 (dependantCall appID app deferred s).2 := by
  unfold threadStart invokeNoexcept endThread
  generalize dependantCall appID app deferred s = r
  obtain ⟨e | ret, s'⟩ := r
  · cases e with
    | executorError message code app => rfl
    | _ => rfl
  · rfl

/-- What a call does, from what it does before `dependant_call`. -/
def afterStart (appID : LongID) (app : ArgC Ending) (deferred : ArgC Unit)
    (r : Except Exn (Int ⊕ OpenCall) × Session) :
    Except Exn Int × Session :=
  match r with
  | (.error e, s) => (.error e, s)
  | (.ok (.inl ret), s) => (.ok ret, s)
  | (.ok (.inr call), s) =>
    call.finish (dependantCall appID app deferred s).1 (dependantCall appID app deferred s).2

theorem afterStart_report (appID : LongID) (app : ArgC Ending) (deferred : ArgC Unit) (msg : String)
    (code : StatusCode)
    (a : LongID) (s : Session) :
    afterStart appID app deferred ((.inl <$> reportError msg code a : ArgC (Int ⊕ OpenCall)) s) =
      reportError msg code a s := by
  change afterStart appID app deferred
    ((reportError msg code a >>= fun ret => pure (Sum.inl ret) : ArgC (Int ⊕ OpenCall)) s) = _
  rw [ArgC.bind_apply]
  generalize reportError msg code a s = r
  obtain ⟨e | ret, s'⟩ := r <;> rfl

theorem callWithResources_eq (appID : LongID) (app : ArgC Ending) (deferred : ArgC Unit)
    (prevResources handler : CallResourceHandler) (s : Session) :
    callWithResources appID app deferred prevResources handler s = afterStart appID app deferred
      (match s.failureManager.getStackSize handler.id with
        | .error (.asceeError msg code) => (do
            destroyHandler prevResources handler false
            .inl <$> reportError msg code s.currentCall.appID : ArgC (Int ⊕ OpenCall)) s
        | .error e => (.error e, s)
        | .ok _ => (.ok (.inr (.controlled prevResources handler)), s)) := by
  unfold callWithResources
  generalize s.failureManager.getStackSize handler.id = stackSize
  cases stackSize with
  | error e =>
    cases e with
    | asceeError msg code =>
      simp only
      rw [ArgC.bind_apply, ArgC.bind_apply]
      generalize destroyHandler prevResources handler false s = r
      obtain ⟨e | u, s'⟩ := r
      · rfl
      · exact (afterStart_report appID app deferred msg code s.currentCall.appID s').symm
    | _ => rfl
  | ok size =>
    change _ = (OpenCall.controlled prevResources handler).finish _ _
    unfold OpenCall.finish
    simp only
    rw [ArgC.bind_apply, ArgC.bind_apply, threadStart_eq]

theorem callApp_eq (forwardedGas : Byte) (appID : LongID) (app : ArgC Ending) (deferred : ArgC Unit)
    (s : Session) :
    callApp forwardedGas appID app deferred s =
      afterStart appID app deferred (startCall forwardedGas s) := by
  unfold callApp startCall
  cases s.callManager with
  | controlled =>
    simp only
    unfold ControlledCaller.executeApp ControlledCaller.startCall
    generalize newHandler forwardedGas s = r
    obtain ⟨e | ⟨prevResources, handler⟩, s'⟩ := r
    · cases e with
      | asceeError msg code =>
        exact (afterStart_report appID app deferred msg code s'.currentCall.appID s').symm
      | _ => rfl
    · exact callWithResources_eq appID app deferred prevResources handler s'
  | optimistic =>
    simp only
    unfold OptimisticCaller.executeApp OptimisticCaller.startCall
    generalize s.heapModifier.saveVersion = r
    obtain ⟨e | heapVersion, heapModifier⟩ := r
    · rfl
    · change _ = (OpenCall.optimistic s.currentCall.appID heapVersion).finish _ _
      unfold OpenCall.finish
      simp only
      generalize dependantCall appID app deferred { s with heapModifier } = r
      obtain ⟨e | ret, s'⟩ := r <;> rfl

/-! ## Steps of a call -/

namespace Execution

open Relation.ReflTransGen (single)

variable {heap : Heap} {x : Execution}

/-- The execution comes from `x` to `control` in the same context, with `session`. -/
def ComesTo (heap : Heap) (x : Execution) (control : Control) (session : Session)
    (deferredCalls : List DeferredArgs) : Prop :=
  ∃ y, Steps heap x y ∧ y.control = control ∧ y.session = session ∧
    y.deferredCalls = deferredCalls ∧
    y.id = x.id ∧ y.callers = x.callers

theorem ComesTo.step {y : Execution} {control : Control} {session : Session}
    {deferredCalls : List DeferredArgs}
    (hstep : Step heap x y) (hid : y.id = x.id) (hcallers : y.callers = x.callers)
    (h : ComesTo heap y control session deferredCalls) :
    ComesTo heap x control session deferredCalls := by
  obtain ⟨z, hsteps, hcontrol, hsession, hdeferred, hzid, hzcallers⟩ := h
  exact ⟨z, .head hstep hsteps, hcontrol, hsession, hdeferred, hzid.trans hid,
    hzcallers.trans hcallers⟩

theorem ComesTo.trans {control control' : Control} {session session' : Session}
    {deferredCalls deferredCalls' : List DeferredArgs}
    (h : ComesTo heap x control session deferredCalls)
    (h' : ∀ y : Execution, y.control = control → y.session = session →
      y.deferredCalls = deferredCalls → y.callers = x.callers →
      ComesTo heap y control' session' deferredCalls') :
    ComesTo heap x control' session' deferredCalls' := by
  obtain ⟨y, hsteps, hcontrol, hsession, hdeferred, hid, hcallers⟩ := h
  obtain ⟨z, hsteps', hcontrol', hsession', hdeferred', hid', hcallers'⟩ :=
    h' y hcontrol hsession hdeferred hcallers
  exact ⟨z, hsteps.trans hsteps', hcontrol', hsession', hdeferred', hid'.trans hid,
    hcallers'.trans hcallers⟩

/-- The code of an application comes to its end, with what it has deferred if it returns. -/
def AppRuns (heap : Heap) (run : Run) : Prop :=
  ∀ x : Execution, x.control = .app run → ∃ deferredCalls,
    ComesTo heap x (.ended (run.app heap x.session).1) (run.app heap x.session).2 deferredCalls ∧
    ∀ ret, (run.app heap x.session).1 = .ok (.returned ret) →
      deferredCalls = x.deferredCalls ++ run.registered

/-- The loop over what a run defers comes to its end. -/
def LoopRuns (heap : Heap) (run : Run) : Prop :=
  ∀ (x : Execution) (ret : Int), x.control = .loop ret run.registered →
    ComesTo heap x (.leave ((run.deferred heap x.session).1.map fun _ => ret))
      (run.deferred heap x.session).2 x.deferredCalls

/-- A dispatcher depends on how the code ends. -/
theorem callDispatcher_of_eq {app : ArgC Ending} {s t : Session} {r : Except Exn Ending}
    (h : app s = (r, t)) :
    callDispatcher app s = callDispatcher (fun s => (r, s)) t := by
  unfold callDispatcher
  rw [h]

theorem callDispatcher_ok {app : ArgC Ending} {s t : Session} {ret : Int}
    (h : callDispatcher app s = (.ok ret, t)) :
    app s = (.ok (.returned ret), t) ∧ ret < 400 := by
  unfold callDispatcher at h
  generalize app s = r at h
  obtain ⟨e | ending, s'⟩ := r
  · cases e <;> cases (Prod.mk.inj h).1
  · cases ending with
    | signalled signal => cases (Prod.mk.inj h).1
    | overrun =>
      simp only at h
      split at h <;> cases (Prod.mk.inj h).1
    | returned ret' =>
      simp only at h
      split at h
      · cases (Prod.mk.inj h).1
      · obtain ⟨hret, rfl⟩ := Prod.mk.inj h
        obtain rfl := Except.ok.inj hret
        exact ⟨rfl, by omega⟩

theorem dependantCall_eq (appID : LongID) (app : ArgC Ending) (deferred : ArgC Unit) (s : Session) :
    dependantCall appID app deferred s =
      match (do checkApp appID; enterContext appID : ArgC Unit) s with
      | (.error e, s') => (.error e, s')
      | (.ok (), s') =>
        ((callInContext app deferred s').1, leaveContext s.currentCall
          (callInContext app deferred s').2) := by
  unfold dependantCall withContext
  rw [ArgC.bind_apply, ArgC.bind_apply]
  obtain hcheck | ⟨e, hcheck⟩ := checkApp_cases appID s
  · rw [hcheck]
    simp only
    generalize enterContext appID s = r
    obtain ⟨e | u, s'⟩ := r <;> rfl
  · rw [hcheck]

/-- The context that is entered, up to its end. -/
theorem context_runs {callee : Run} (happ : AppRuns heap callee) (hloop : LoopRuns heap callee)
    (h : x.control = .app callee)
    (hdeferred : x.deferredCalls = []) (hcallers : x.callers ≠ []) : ∃ deferredCalls,
    ComesTo heap x (.leave (callInContext (callee.app heap) (callee.deferred heap) x.session).1)
      (callInContext (callee.app heap) (callee.deferred heap) x.session).2 deferredCalls := by
  obtain ⟨deferredCalls, hcomes, hregistered⟩ := happ x h
  refine ⟨deferredCalls, hcomes.trans fun y hcontrol hsession hydeferred hycallers => ?_⟩
  have hycallers : y.callers ≠ [] := hycallers ▸ hcallers
  have hdispatch : callDispatcher (callee.app heap) x.session =
      callDispatcher (fun s => ((callee.app heap x.session).1, s)) y.session := by
    rw [hsession]
    exact callDispatcher_of_eq rfl
  unfold callInContext
  rw [ArgC.bind_apply, hdispatch]
  cases hcall : callDispatcher (fun s => ((callee.app heap x.session).1, s)) y.session with
  | mk r s =>
    cases r with
    | error e =>
      exact .step (.failed hcontrol hycallers hcall) rfl rfl ⟨_, .refl, rfl, rfl,
        hydeferred, rfl, rfl⟩
    | ok ret =>
      have hret := (Prod.mk.inj (callDispatcher_ok hcall).1).1
      have hlist := hregistered ret hret
      rw [hdeferred, List.nil_append] at hlist
      refine .step (.returned hcontrol hycallers hcall) rfl rfl ?_
      -- the area is left, and the loop runs what the dispatcher has registered
      have hrest := hloop
        { y with
          control := .loop ret y.deferredCalls
          session := ArgC.exitArea s
          log := y.log ++ [(y.id, .ended (callee.app heap x.session).1)] } ret
        (congrArg (Control.loop ret) (hydeferred.trans hlist))
      rw [hydeferred] at hrest ⊢
      have hbody : (exitArea >>= fun _ => callee.deferred heap >>= fun _ => pure ret : ArgC Int) s =
          ((callee.deferred heap (ArgC.exitArea s)).1.map fun _ => ret,
            (callee.deferred heap (ArgC.exitArea s)).2) := by
        have hexit : exitArea s = (.ok (), ArgC.exitArea s) := rfl
        rw [ArgC.bind_of_ok hexit, ArgC.bind_apply]
        generalize callee.deferred heap (ArgC.exitArea s) = result
        obtain ⟨e | u, t⟩ := result <;> rfl
      simp only [hbody]
      exact hrest

/-- `dependant_call` comes to its end. -/
theorem call_runs {appID : LongID} {callee : Run} {waiting : Waiting} (happ : AppRuns heap callee)
    (hloop : LoopRuns heap callee)
    (h : x.control = .call appID callee waiting) :
    ComesTo heap x (.back waiting
      (dependantCall appID (callee.app heap) (callee.deferred heap) x.session).1)
      (dependantCall appID (callee.app heap) (callee.deferred heap) x.session).2
      x.deferredCalls := by
  rw [dependantCall_eq]
  cases henter : (do checkApp appID; enterContext appID : ArgC Unit) x.session with
  | mk r s =>
    cases r with
    | error e => exact .step (.notEntered h henter) rfl rfl ⟨_, .refl, rfl, rfl, rfl, rfl, rfl⟩
    | ok u =>
      obtain ⟨deferredCalls, y, hsteps, hcontrol, hsession, -, -, hcallers⟩ :=
        context_runs (x := { control := .app callee
                             session := s
                             id := x.lastID + 1
                             deferredCalls := []
                             callers := ⟨x.id, x.session.currentCall, x.deferredCalls,
                               waiting⟩ :: x.callers
                             lastID := x.lastID + 1
                             log := x.log ++ [(x.lastID + 1, .entered appID)] }) happ hloop rfl rfl
                               (List.cons_ne_nil _ _)
      have hleave : Step heap y _ := .leave hcontrol hcallers
      exact ⟨_, .head (.enter h henter) (hsteps.trans (single hleave)), rfl,
        congrArg (leaveContext x.session.currentCall) hsession, rfl, rfl, rfl⟩

/-! ## Runs -/

theorem appRuns_lib {call : LibCall} {rest : Run} (hrest : AppRuns heap rest) :
    AppRuns heap (.lib call rest) := by
  intro x h
  rw [Run.app, ArgC.bind_apply]
  cases hcall : libCall heap call x.session with
  | mk r s =>
    obtain e | signal | signal := r
    · exact ⟨_, .step (.libError h hcall) rfl rfl ⟨_, .refl, rfl, rfl, rfl, rfl, rfl⟩,
        fun ret hret => by cases hret⟩
    · obtain ⟨deferredCalls, hcomes, hregistered⟩ :=
        hrest { x with control := .app rest, session := s } rfl
      exact ⟨deferredCalls, .step (.lib h hcall) rfl rfl hcomes, hregistered⟩
    · exact ⟨_, .step (.libSignal h hcall) rfl rfl ⟨_, .refl, rfl, rfl, rfl, rfl, rfl⟩,
        fun ret hret => by cases hret⟩

theorem appRuns_invoke {forwardedGas : Byte} {appID : LongID} {callee rest : Run}
    (happ : AppRuns heap callee)
    (hloop : LoopRuns heap callee) (hrest : AppRuns heap rest) :
    AppRuns heap (.invoke forwardedGas appID callee rest) := by
  intro x h
  have hrun : (Run.invoke forwardedGas appID callee rest).app heap =
      (callApp forwardedGas appID (callee.app heap) (callee.deferred heap) >>= fun _ =>
        rest.app heap) := rfl
  rw [hrun, ArgC.bind_apply, callApp_eq]
  cases hstart : startCall forwardedGas x.session with
  | mk r s =>
    obtain e | ret | call := r
    · exact ⟨_, .step (.notStarted h hstart) rfl rfl ⟨_, .refl, rfl, rfl, rfl, rfl, rfl⟩,
        fun ret hret => by cases hret⟩
    · obtain ⟨deferredCalls, hcomes, hregistered⟩ :=
        hrest { x with control := .app rest, session := s } rfl
      exact ⟨deferredCalls, .step (.refused h hstart) rfl rfl hcomes, hregistered⟩
    · have hcall := call_runs happ hloop
        (x := { x with control := .call appID callee (.invoked call rest), session := s }) rfl
      have hstarted := ComesTo.step (.invoke h hstart) rfl rfl hcall
      -- the call runs to its end, and the rest of the application follows, or does not
      simp only [afterStart]
      generalize dependantCall appID (callee.app heap) (callee.deferred heap) s =
        result at hstarted ⊢
      cases hfinish : call.finish result.1 result.2 with
      | mk r t =>
        cases r with
        | error e =>
          refine ⟨x.deferredCalls, hstarted.trans fun y hcontrol hsession hdeferred _ => ?_,
            fun ret hret => nomatch hret⟩
          exact .step (.invokeFailed hcontrol (hsession ▸ hfinish)) rfl rfl ⟨_, .refl, rfl, rfl,
            hdeferred, rfl, rfl⟩
        | ok ret =>
          obtain ⟨y, hsteps, hcontrol, hsession, hdeferred, hid, hcallers⟩ := hstarted
          obtain ⟨deferredCalls, hcomes, hregistered⟩ :=
            hrest { y with control := .app rest, session := t } rfl
          have hback : ComesTo heap y _ _ _ :=
            .step (.invokeReturned hcontrol (hsession ▸ hfinish)) rfl rfl hcomes
          obtain ⟨z, hsteps', hrestEnd⟩ := hback
          refine ⟨deferredCalls, ⟨z, hsteps.trans hsteps', hrestEnd.1, hrestEnd.2.1, hrestEnd.2.2.1,
            hrestEnd.2.2.2.1.trans hid, hrestEnd.2.2.2.2.trans hcallers⟩, fun ret' hret' => ?_⟩
          rw [← hdeferred]
          exact hregistered ret' hret'

theorem loopRuns_defer {appID : LongID} {callee rest : Run} (happ : AppRuns heap callee)
    (hloop : LoopRuns heap callee)
    (hrest : LoopRuns heap rest) : LoopRuns heap (.defer appID callee rest) := by
  intro x ret h
  have hrun : (Run.defer appID callee rest).deferred heap =
      (dependantCall appID (callee.app heap) (callee.deferred heap) >>= fun _ =>
        rest.deferred heap) := rfl
  rw [hrun, ArgC.bind_apply]
  have hcall := call_runs happ hloop
    (x := { x with
      control := .call appID callee (.deferred ret rest.registered)
      log := x.log ++ [(x.id, .started ⟨appID, callee⟩ x.session.currentCall)] }) rfl
  have hstarted := ComesTo.step (.deferred h) rfl rfl hcall
  change ComesTo heap x (.back
    _ (dependantCall appID (callee.app heap) (callee.deferred heap) x.session).1)
    (dependantCall appID (callee.app heap) (callee.deferred heap) x.session).2
      x.deferredCalls at hstarted
  generalize dependantCall appID (callee.app heap) (callee.deferred heap) x.session =
    result at hstarted ⊢
  obtain ⟨e | ret', s⟩ := result
  · refine hstarted.trans fun y hcontrol hsession hdeferred _ => ?_
    exact .step (.deferredFailed hcontrol) rfl rfl ⟨_, .refl, rfl, hsession, hdeferred, rfl, rfl⟩
  · refine hstarted.trans fun y hcontrol hsession hdeferred _ => ?_
    subst hsession
    have hend := hrest { y with
      control := .loop ret rest.registered
      log := y.log ++ [(y.id, .finished (.ok ret'))] } ret rfl
    rw [← hdeferred]
    exact .step (.deferredReturned hcontrol) rfl rfl hend

/-- Every run comes to its end, and so does the loop over what it defers. -/
theorem runs (heap : Heap) (run : Run) : AppRuns heap run ∧ LoopRuns heap run := by
  induction run with
  | ending e =>
    refine ⟨fun x h => ⟨x.deferredCalls, .step (.ending h) rfl rfl ⟨_, .refl, rfl, rfl, rfl, rfl,
      rfl⟩, fun ret _ => ?_⟩,
      fun x ret h => .step (.loopEnd h) rfl rfl ⟨_, .refl, rfl, rfl, rfl, rfl, rfl⟩⟩
    exact (List.append_nil _).symm
  | lib call rest ih => exact ⟨appRuns_lib ih.1, ih.2⟩
  | invoke forwardedGas appID callee rest ihCallee ihRest =>
    exact ⟨appRuns_invoke ihCallee.1 ihCallee.2 ihRest.1, ihRest.2⟩
  | defer appID callee rest ihCallee ihRest =>
    refine ⟨fun x h => ?_, loopRuns_defer ihCallee.1 ihCallee.2 ihRest.2⟩
    obtain ⟨deferredCalls, hcomes, hregistered⟩ := ihRest.1
      { x with
        control := .app rest
        deferredCalls := x.deferredCalls ++ [⟨appID, callee⟩]
        log := x.log ++ [(x.id, .registered ⟨appID, callee⟩)] } rfl
    refine ⟨deferredCalls, .step (.defer h) rfl rfl hcomes, fun ret hret => ?_⟩
    rw [hregistered ret hret]
    exact List.append_assoc _ _ _

/-- **Refinement.** The execution of a request comes to the session that `callRoot` leaves, and
fails exactly if `callRoot` fails. -/
theorem root_refines (heap : Heap) (req : AppRequest) (run : Run) :
    ∃ x, Reachable heap req run x ∧ x.callers = [] ∧
    x.control = .ended ((req.callRoot heap run).1.map fun _ => .returned 0) ∧
      x.session = (req.callRoot heap run).2 := by
  have hruns := (runs heap (.invoke 255 req.calledAppID run (.ending (.returned 0)))).1
  obtain ⟨_, ⟨x, hsteps, hcontrol, hsession, -, -, hcallers⟩, -⟩ := hruns (root req run) rfl
  have hroot : (Run.invoke 255 req.calledAppID run (.ending (.returned 0))).app heap
      req.rootSession =
        ((req.callRoot heap run).1.map fun _ => .returned 0, (req.callRoot heap run).2) := by
    change ((run.execute heap 255 req.calledAppID >>= fun _ => pure (.returned 0) : ArgC Ending)
      req.rootSession) = _
    rw [ArgC.bind_apply]
    unfold AppRequest.callRoot
    generalize run.execute heap 255 req.calledAppID req.rootSession = result
    obtain ⟨e | ret, s⟩ := result <;> rfl
  have hctl : x.control =
      .ended ((Run.invoke 255 req.calledAppID run (.ending (.returned 0))).app heap
        req.rootSession).1 := hcontrol
  have hsess : x.session =
      ((Run.invoke 255 req.calledAppID run (.ending (.returned 0))).app heap req.rootSession).2 :=
      hsession
  rw [hroot] at hctl hsess
  exact ⟨x, hsteps, hcallers, hctl, hsess⟩

end Execution
end Argennon
