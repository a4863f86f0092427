import Argennon.Executor.AreaLocks

/- The depth of calls (`executor/FailureManager.cpp`). The failure manager counts the handlers
   of dispatched calls, that of the request included, and refuses the call that makes it pass
   `MAX_CALL_DEPTH`. A deferred call has a context but no handler: nothing counts it, and
   nothing bounds how deep deferred calls are nested. -/
namespace Argennon

/-- The context was entered by `invoke_dispatcher`. -/
def Waiting.isInvoked : Waiting → Bool
  | .invoked _ _ => true
  | .deferred _ _ => false

/-- The dispatched calls that have a handler and no context. -/
def Control.pending : Control → Nat
  | .call _ _ (.invoked _ _) => 1
  | .back (.invoked _ _) _ => 1
  | _ => 0

/-- How many handlers count. -/
abbrev Session.callDepth (s : Session) : Int := s.failureManager.callDepth

/-! ## What a step does to the depth -/

/-- The caller is the same and no handler is forgotten. -/
structure DepthKept (s s' : Session) : Prop where
  callManager : s'.callManager = s.callManager
  callDepth : s.callDepth ≤ s'.callDepth

theorem depthKept_refl (s : Session) : DepthKept s s := ⟨rfl, Int.le_refl _⟩

theorem depthKept_libCall {heap : Heap} {call : LibCall} {s t : Session}
    {r : Except Exn (Option Signal)}
    (h : libCall heap call s = (r, t)) : DepthKept s t := by
  have hsnd := libCall_snd heap call s
  rw [h] at hsnd
  have hstep := call.keeps heap s fun _ _ => trivial
  rw [← hsnd] at hstep
  exact ⟨hstep.callManager, (congrArg (·.callDepth) hstep.failureManager).ge⟩

theorem reportError_fst (msg : String) (code : StatusCode) (a : LongID) (s t : Session) :
    (reportError msg code a s).1 = (reportError msg code a t).1 := by
  unfold reportError
  split <;> rfl

/-- The handler of a call is destroyed in the session that its constructor has left. -/
theorem destroyHandler_calleeSession (prev : CallResourceHandler) (forwardedGas : Byte)
    (s : Session) :
    ∃ t, destroyHandler (chargedFor prev forwardedGas)
      (handlerFor prev forwardedGas s) false (calleeSession prev forwardedGas s) =
      (.ok (), t) ∧ t.callManager = s.callManager ∧ t.callDepth = s.callDepth ∧ t.currentCall =
      s.currentCall := by
  have hok : (destroyHandler (chargedFor prev forwardedGas) (handlerFor prev forwardedGas s) false
      (calleeSession prev forwardedGas s)).1 = .ok () := by
    have hversion : s.heapModifier.currentVersion < s.heapModifier.currentVersion + 1 :=
      Nat.lt_succ_self _
    unfold destroyHandler endVersion RestrictedModifier.restoreVersion
    simp only [Bool.false_eq_true, if_false, calleeSession, handlerFor, hversion, if_true]
  obtain ⟨version, -, hsnd⟩ :=
    destroyHandler_snd (chargedFor prev forwardedGas) (handlerFor prev forwardedGas s) false
    (calleeSession prev forwardedGas s)
  refine ⟨_, Prod.ext hok hsnd, rfl, ?_, rfl⟩
  change s.failureManager.callDepth + 1 - 1 = s.failureManager.callDepth
  omega

theorem getStackSize_cases (f : FailureManager) (id : Nat) :
    (maxCallDepth < f.callDepth ∧
      f.getStackSize id = .error (.asceeError "max call depth reached" .limit_exceeded)) ∨
      (f.callDepth ≤ maxCallDepth ∧ ∃ size, f.getStackSize id = .ok size) := by
  unfold FailureManager.getStackSize
  by_cases hmax : f.callDepth > maxCallDepth
  · exact .inl ⟨hmax, if_pos hmax⟩
  · refine .inr ⟨Int.not_lt.mp hmax, ?_⟩
    rw [if_neg hmax]
    split <;> exact ⟨_, rfl⟩

/-- How a controlled call starts: it is refused, or it is counted. -/
theorem startCall_depth {forwardedGas : Byte} {s t : Session} {r : Except Exn (Int ⊕ OpenCall)}
    (hcontrolled : s.callManager = .controlled) (h : startCall forwardedGas s = (r, t)) :
    DepthKept s t ∧ ∀ call, r = .ok (.inr call) → t.callDepth = s.callDepth + 1 ∧
      t.callDepth ≤ maxCallDepth := by
  unfold startCall at h
  rw [hcontrolled] at h
  simp only [ControlledCaller.startCall] at h
  obtain ⟨-, hnew⟩ | ⟨prev, -, ⟨-, hnew⟩ | ⟨-, -, hnew⟩ | ⟨-, -, hnew⟩⟩ :=
    newHandler_cases forwardedGas s
  · rw [hnew] at h
    obtain ⟨rfl, rfl⟩ := Prod.mk.inj h
    exact ⟨depthKept_refl s, fun call hcall => nomatch hcall⟩
  · rw [hnew] at h
    simp only [report_snd] at h
    obtain ⟨rfl, rfl⟩ := Prod.mk.inj h
    refine ⟨depthKept_refl s, fun call hcall => ?_⟩
    generalize (reportError _ _ _ s).1 = result at hcall
    cases result <;> cases hcall
  · rw [hnew] at h
    simp only [report_snd] at h
    obtain ⟨rfl, rfl⟩ := Prod.mk.inj h
    -- at the version limit the depth is counted and no destructor takes it back
    refine ⟨⟨rfl, ?_⟩, fun call hcall => ?_⟩
    · change s.failureManager.callDepth ≤ s.failureManager.callDepth + 1
      omega
    · generalize (reportError _ _ _ _).1 = result at hcall
      cases result <;> cases hcall
  · rw [hnew] at h
    simp only at h
    have hdepth : (calleeSession prev forwardedGas s).callDepth = s.callDepth + 1 := rfl
    obtain ⟨-, hstack⟩ | ⟨hmax, size, hstack⟩ :=
      getStackSize_cases (calleeSession prev forwardedGas s).failureManager
        (handlerFor prev forwardedGas s).id
    · obtain ⟨u, hdestroy, hmanager, hsame, -⟩ := destroyHandler_calleeSession prev forwardedGas s
      rw [hstack] at h
      simp only [ArgC.bind_of_ok hdestroy, report_snd] at h
      obtain ⟨rfl, rfl⟩ := Prod.mk.inj h
      refine ⟨⟨hmanager, hsame.ge⟩, fun call hcall => ?_⟩
      generalize (reportError _ _ _ _).1 = result at hcall
      cases result <;> cases hcall
    · rw [hstack] at h
      obtain ⟨rfl, rfl⟩ := Prod.mk.inj h
      refine ⟨⟨rfl, ?_⟩, fun _ _ => ⟨rfl, hmax⟩⟩
      change s.failureManager.callDepth ≤ s.failureManager.callDepth + 1
      omega

/-- **Limit.** A call that has its handler when the depth is at the limit is refused with
`limit_exceeded`. -/
theorem startCall_limit {forwardedGas : Byte} {s : Session} {prev : CallResourceHandler}
    (hcontrolled : s.callManager = .controlled) (hlive : s.currentResources = .live prev)
    (hgas : ¬forwardedGasOf prev forwardedGas ≤ minClocks)
    (hversion : s.heapModifier.currentVersion ≠ maxVersion)
    (hdepth : maxCallDepth ≤ s.callDepth) : (startCall forwardedGas s).1 =
      (reportError "max call depth reached" .limit_exceeded s.currentCall.appID s).1.map .inl := by
  unfold startCall
  rw [hcontrolled]
  simp only [ControlledCaller.startCall]
  obtain ⟨hdangling, -⟩ | ⟨prev', hlive', ⟨hmin, -⟩ | ⟨-, hlimit, -⟩ | ⟨-, -, hnew⟩⟩ :=
    newHandler_cases forwardedGas s
  · cases hlive.symm.trans hdangling
  · obtain rfl := ResourcesPointer.live.inj (hlive.symm.trans hlive')
    exact absurd hmin hgas
  · exact absurd hlimit hversion
  · obtain ⟨-, hstack⟩ | ⟨hmax, -⟩ :=
      getStackSize_cases (calleeSession prev' forwardedGas s).failureManager
        (handlerFor prev' forwardedGas s).id
    · obtain ⟨u, hdestroy, -⟩ := destroyHandler_calleeSession prev' forwardedGas s
      rw [hnew]
      simp only [hstack, ArgC.bind_of_ok hdestroy, report_snd]
      exact congrArg _ (reportError_fst _ _ _ u s)
    · have hdepth' : (calleeSession prev' forwardedGas s).failureManager.callDepth =
          s.callDepth + 1 := rfl
      omega

theorem finish_depth {r r' : Except Exn Int} {call : OpenCall} {s t : Session}
    (h : call.finish r s = (r', t)) :
    t.callManager = s.callManager ∧ s.callDepth - 1 ≤ t.callDepth := by
  have hend : ∀ (caller : LongID) (heapVersion : Nat) (completed : Bool),
      (endVersion caller heapVersion completed s).2.callManager = s.callManager ∧
        s.callDepth - 1 ≤ (endVersion caller heapVersion completed s).2.callDepth := by
    intro caller heapVersion completed
    obtain ⟨version, -, hsnd⟩ := endVersion_snd caller heapVersion completed s
    rw [hsnd]
    exact ⟨rfl, Int.sub_le_self _ (by decide)⟩
  obtain rfl : (call.finish r s).2 = t := congrArg Prod.snd h
  unfold OpenCall.finish
  cases call with
  | controlled prevResources handler =>
    simp only
    rw [ArgC.bind_apply]
    have hsnd := endThread_snd r s
    generalize endThread r s = result at hsnd ⊢
    obtain ⟨e | ret, u⟩ := result
    · obtain rfl : u = s := hsnd
      exact ⟨rfl, Int.sub_le_self _ (by decide)⟩
    · obtain rfl : u = s := hsnd
      simp only
      rw [ArgC.bind_apply]
      obtain ⟨version, -, hdestroy⟩ := destroyHandler_snd prevResources handler (ret < 400) u
      generalize destroyHandler prevResources handler (ret < 400) u = result at hdestroy ⊢
      obtain ⟨result, v⟩ := result
      obtain rfl : v = _ := hdestroy
      obtain e | _ := result <;> exact ⟨rfl, Int.le_refl _⟩
  | optimistic caller heapVersion =>
    cases r with
    | error e =>
      simp only
      split
      · have hstep := hend caller heapVersion false
        rw [ArgC.bind_apply]
        generalize endVersion caller heapVersion false s = result at hstep ⊢
        obtain ⟨e | _, v⟩ := result <;> exact hstep
      · exact ⟨rfl, Int.sub_le_self _ (by decide)⟩
    | ok ret =>
      have hstep := hend caller heapVersion (ret < 400)
      simp only
      rw [ArgC.bind_apply]
      generalize endVersion caller heapVersion (ret < 400) s = result at hstep ⊢
      obtain ⟨e | _, v⟩ := result <;> exact hstep

/-! ## The invariant -/

namespace Execution
variable {heap : Heap} {x y : Execution}

/-- The live contexts of applications: all that are live but the one of the request. -/
def liveApps (x : Execution) : Nat := x.callers.length

/-- Those that were entered by `invoke_dispatcher`. -/
def dispatched (x : Execution) : Nat := x.callers.countP (·.waiting.isInvoked)

/-- Every handler of a live call is counted, and there are not too many. -/
structure DepthSound (x : Execution) : Prop where
  controlled : x.session.callManager = .controlled
  counted : (x.dispatched + x.control.pending : Nat) + 1 ≤ x.session.callDepth
  bounded : (x.dispatched + x.control.pending : Nat) + 1 ≤ maxCallDepth

theorem DepthSound.of_kept (h : DepthSound x) (hkept : DepthKept x.session y.session)
    (hcallers : y.callers = x.callers)
    (hpending : y.control.pending ≤ x.control.pending) : DepthSound y := by
  have hcounted := h.counted
  have hbounded := h.bounded
  have hdepth := hkept.callDepth
  have hdispatched : y.dispatched = x.dispatched := by rw [dispatched, dispatched, hcallers]
  exact ⟨hkept.callManager.trans h.controlled, by omega, by omega⟩

theorem DepthSound.of_finish (h : DepthSound x) {call : OpenCall} {rest : Run}
    {r r' : Except Exn Int}
    (hcontrol : x.control = .back (.invoked call rest) r)
    (hfinish : call.finish r x.session = (r', y.session))
    (hcallers : y.callers = x.callers) (hpending : y.control.pending = 0) : DepthSound y := by
  obtain ⟨hmanager, hdepth⟩ := finish_depth hfinish
  have hcounted := h.counted
  have hbounded := h.bounded
  have hone : x.control.pending = 1 := by rw [hcontrol]; rfl
  have hdispatched : y.dispatched = x.dispatched := by rw [dispatched, dispatched, hcallers]
  exact ⟨hmanager.trans h.controlled, by omega, by omega⟩

theorem pending_call (appID : LongID) (callee : Run) (waiting : Waiting) :
    (Control.call appID callee waiting).pending = if waiting.isInvoked then 1 else 0 := by
  cases waiting <;> rfl

theorem pending_back (waiting : Waiting) (r : Except Exn Int) :
    (Control.back waiting r).pending = if waiting.isInvoked then 1 else 0 := by
  cases waiting <;> rfl

/-- **Step lemma.** -/
theorem DepthSound.step (h : DepthSound x) (hstep : Step heap x y) : DepthSound y := by
  have hrefl := depthKept_refl x.session
  have hcounted := h.counted
  have hbounded := h.bounded
  cases hstep with
  | ending | defer | interrupt | loopEnd | deferred | deferredReturned | deferredFailed =>
    exact h.of_kept hrefl rfl (Nat.zero_le _)
  | lib _ hcall | libSignal _ hcall | libError _ hcall =>
    exact h.of_kept (depthKept_libCall hcall) rfl (Nat.zero_le _)
  | refused _ hstart | notStarted _ hstart =>
    exact h.of_kept (startCall_depth h.controlled hstart).1 rfl (Nat.zero_le _)
  -- the call is counted here, and the context that waits for it one step later
  | @invoke forwardedGas appID callee rest call s hcontrol hstart =>
    obtain ⟨hkept, hdepth⟩ := startCall_depth h.controlled hstart
    obtain ⟨hone, hmax⟩ := hdepth _ rfl
    have hzero : x.control.pending = 0 := by rw [hcontrol]; rfl
    refine ⟨hkept.callManager.trans h.controlled, ?_, ?_⟩
    · change ((x.dispatched + 1 : Nat) : Int) + 1 ≤ s.callDepth
      omega
    · change ((x.dispatched + 1 : Nat) : Int) + 1 ≤ _
      omega
  | @notEntered appID callee waiting e s hcontrol henter =>
    obtain rfl := enter_error henter
    refine h.of_kept hrefl rfl ?_
    rw [hcontrol, pending_call, pending_back]
  | @enter appID callee waiting s hcontrol henter =>
    obtain rfl := enter_ok henter
    rw [hcontrol, pending_call] at hcounted hbounded
    refine ⟨h.controlled, ?_, ?_⟩
    all_goals
      simp only [dispatched, List.countP_cons, Control.pending] at *
      assumption
  | @returned r ret s _ _ hcall =>
    obtain rfl := callDispatcher_snd hcall
    have hexit := ArgC.sameContext_exitArea x.session
    exact h.of_kept ⟨hexit.callManager, (congrArg (·.callDepth) hexit.failureManager).ge⟩ rfl
      (Nat.zero_le _)
  | @failed r e s _ _ hcall =>
    obtain rfl := callDispatcher_snd hcall
    exact h.of_kept hrefl rfl (Nat.zero_le _)
  | @leave r f callers hcontrol hcallers =>
    have hexit := ArgC.sameContext_exitArea x.session
    have hdepth : (leaveContext f.call x.session).callDepth = x.session.callDepth :=
      congrArg (·.callDepth) hexit.failureManager
    simp only [dispatched, hcallers, hcontrol, List.countP_cons,
      Control.pending] at hcounted hbounded
    refine ⟨hexit.callManager.trans h.controlled, ?_, ?_⟩
    all_goals
      simp only [dispatched, pending_back, hdepth]
      assumption
  | invokeReturned hcontrol hfinish | invokeFailed hcontrol hfinish =>
    exact h.of_finish hcontrol hfinish rfl rfl
  | cut hcut => exact absurd h.controlled hcut.not_controlled

/-- **Run lemma.** -/
theorem depthSound_reachable {req : AppRequest} {run : Run}
    (hcontrolled : req.useControlledExecution = true)
    (hdepth : req.failureManager.callDepth = 0) (h : Reachable heap req run x) : DepthSound x := by
  induction h with
  | refl =>
    refine ⟨if_pos hcontrolled, ?_, (by decide : ((0 : Nat) : Int) + 1 ≤ maxCallDepth)⟩
    change (0 : Int) + 1 ≤
      (if req.useControlledExecution then req.failureManager.nextInvocation
        else req.failureManager).callDepth
    rw [if_pos hcontrolled]
    change (0 : Int) + 1 ≤ req.failureManager.callDepth + 1
    omega
  | tail _ hstep ih => exact ih.step hstep

/-- In a controlled session the locked areas are exclusive in every state. -/
theorem areasExclusive_of_controlled {req : AppRequest} {run : Run}
    (hcontrolled : req.useControlledExecution = true) (hdepth : req.failureManager.callDepth = 0)
    (h : Reachable heap req run x) : AreasExclusive x := by
  have huncut : UncutReachable heap req run x := by
    induction h with
    | refl => exact .refl
    | tail hx hstep ih =>
      exact ih.tail (.of_controlled (depthSound_reachable hcontrolled hdepth hx).controlled hstep)
  exact (locksSound_reachable huncut).areasExclusive (rootFree_reachable h)

/-! ## The bound -/

/-- A context is entered for a deferred call, or for a call that is made while a
deferred call is live. -/
def EntersUncounted (x : Execution) : Prop :=
  ∃ appID callee waiting, x.control = .call appID callee waiting ∧
    (do checkApp appID; enterContext appID : ArgC Unit) x.session =
      (.ok (), x.session.entered appID) ∧
    (waiting.isInvoked = false ∨ ∃ f ∈ x.callers, f.waiting.isInvoked = false)

/-- The nesting of calls is bounded, and the call that is one too many is refused. -/
structure NestingBounded (x : Execution) : Prop where
  live : (x.liveApps : Int) ≤ maxCallDepth
  refused : ∀ forwardedGas appID callee rest prev, x.control =
    .app (.invoke forwardedGas appID callee rest) →
    x.session.currentResources = .live prev → ¬forwardedGasOf prev forwardedGas ≤ minClocks →
    x.session.heapModifier.currentVersion ≠ maxVersion → maxCallDepth ≤ (x.dispatched : Int) + 1 →
    (startCall forwardedGas x.session).1 =
      (reportError "max call depth reached" .limit_exceeded x.session.currentCall.appID
        x.session).1.map .inl

theorem dispatched_eq_liveApps (h : ∀ f ∈ x.callers, f.waiting.isInvoked = true) :
    x.dispatched = x.liveApps :=
  List.countP_eq_length.mpr h

/-- What a step does to the stack. -/
theorem liveApps_step (hstep : Step heap x y) :
    y.liveApps ≤ x.liveApps ∨ y.liveApps = x.liveApps + 1 ∧
    ∃ appID callee waiting, x.control = .call appID callee waiting ∧
      (do checkApp appID; enterContext appID : ArgC Unit) x.session =
      (.ok (), x.session.entered appID) := by
  cases hstep with
  | @enter appID callee waiting s hcontrol henter =>
    obtain rfl := enter_ok henter
    exact .inr ⟨rfl, appID, callee, waiting, hcontrol, henter⟩
  | leave _ hcallers =>
    refine .inl ?_
    unfold liveApps
    rw [hcallers]
    exact Nat.le_succ _
  | cut hcut => cases hcut <;> exact .inl (Nat.le_refl _)
  | _ => exact .inl (Nat.le_refl _)

/-- **Bounded nesting.** The contexts of applications that are live stay within `MAX_CALL_DEPTH`
exactly if no context is entered for a deferred call, or under one, when that many are live. -/
theorem nesting_bounded_iff (heap : Heap) (req : AppRequest) (run : Run)
    (hcontrolled : req.useControlledExecution = true)
    (hdepth : req.failureManager.callDepth = 0) :
    (∀ x, Reachable heap req run x → NestingBounded x) ↔
      ∀ x, Reachable heap req run x → EntersUncounted x → (x.liveApps : Int) < maxCallDepth := by
  constructor
  · rintro hbounded x hx ⟨appID, callee, waiting, hcontrol, henter, -⟩
    have hnext := (hbounded _ (hx.tail (.enter hcontrol henter))).live
    change ((x.liveApps + 1 : Nat) : Int) ≤ maxCallDepth at hnext
    omega
  · intro huncounted x hx
    have hsound := depthSound_reachable hcontrolled hdepth hx
    refine ⟨?_, fun forwardedGas appID callee rest prev _ hlive hgas hversion hmax => ?_⟩
    · induction hx with
      | refl => exact (by decide : (0 : Int) ≤ maxCallDepth)
      | @tail x y hx hstep ih =>
        have hsound := depthSound_reachable hcontrolled hdepth hx
        have ih := ih hsound
        obtain hle | ⟨hsucc, appID, callee, waiting, hcontrol, henter⟩ := liveApps_step hstep
        · omega
        · by_cases hdeferred : waiting.isInvoked = false ∨
            ∃ f ∈ x.callers, f.waiting.isInvoked = false
          · have hlt := huncounted x hx ⟨appID, callee, waiting, hcontrol, henter, hdeferred⟩
            omega
          · -- all live contexts have a handler, and so has the call
            obtain ⟨hinvoked, hall⟩ := not_or.mp hdeferred
            have hbounded := hsound.bounded
            rw [hcontrol, pending_call, if_pos (Bool.eq_true_of_not_eq_false hinvoked),
              dispatched_eq_liveApps fun f hf =>
              Bool.eq_true_of_not_eq_false fun hfalse => hall ⟨f, hf, hfalse⟩] at hbounded
            omega
    · have hcounted := hsound.counted
      exact startCall_limit hsound.controlled hlive hgas hversion (by omega)

/-! ## Deferred calls that are nested too deep -/

/-- The applications 1 and 2 in turn. -/
def turn (n : Nat) : LongID := if n % 2 = 0 then 1 else 2

/-- Calls that are deferred by deferred calls. -/
def deferRun : Nat → Run
  | 0 => .ending (.returned 200)
  | n + 1 => .defer (turn n) (deferRun n) (.ending (.returned 200))

/-- The code of `deferRun n` is about to begin under `depth` contexts. -/
structure AtRun (n depth : Nat) (x : Execution) : Prop where
  control : x.control = .app (deferRun n)
  deferredCalls : x.deferredCalls = []
  depth : x.callers.length = depth
  currentCall : x.session.currentCall = ⟨turn n, false⟩
  appTable : x.session.appTable = plainRequest.appTable

theorem turn_ne (n : Nat) : turn (n + 1) ≠ turn n := by
  unfold turn
  split <;> split
  · omega
  · decide
  · decide
  · omega

theorem checkApp_turn (n : Nat) : plainRequest.appTable.checkApp (turn n) = .ok () := by
  unfold turn
  split <;> rfl

/-- The deferred call is entered. -/
theorem AtRun.enter {n depth : Nat} (h : AtRun (n + 1) depth x) (hdepth : 0 < depth) :
    ∃ y, Steps heap x y ∧ AtRun n (depth + 1) y := by
  have hcallers : x.callers ≠ [] := List.ne_nil_of_length_pos (h.depth ▸ hdepth)
  have hexit : ArgC.exitArea x.session = x.session := by
    unfold ArgC.exitArea
    rw [h.currentCall]
    rfl
  have henter : (do checkApp (turn n); enterContext (turn n) : ArgC Unit)
      (ArgC.exitArea x.session) =
        (.ok (), x.session.entered (turn n)) := by
    rw [hexit]
    have hcheck : checkApp (turn n) x.session = (.ok (), x.session) := by
      unfold checkApp
      rw [h.appTable, checkApp_turn]
    rw [ArgC.bind_of_ok hcheck]
    unfold enterContext
    rw [h.currentCall, if_neg (turn_ne n)]
  have hlist : Control.loop 200 (x.deferredCalls ++ [⟨turn n, deferRun n⟩]) =
      .loop 200 [⟨turn n, deferRun n⟩] := by
    rw [h.deferredCalls]
    rfl
  refine ⟨_, .head (.defer h.control)
    (.head (.ending rfl) (.head (.returned rfl hcallers rfl) (.head (.deferred hlist)
    (.head (.enter rfl henter) .refl)))), rfl, rfl, ?_, rfl, h.appTable⟩
  rw [List.length_cons, h.depth]

theorem AtRun.enter_all {n : Nat} : ∀ {depth : Nat} {x : Execution}, AtRun n depth x → 0 < depth →
    ∃ y, Steps heap x y ∧ y.liveApps = depth + n := by
  induction n with
  | zero => exact fun h _ => ⟨_, .refl, h.depth⟩
  | succ n ih =>
    intro depth x h hdepth
    obtain ⟨y, hsteps, hy⟩ := h.enter hdepth
    obtain ⟨z, hsteps', hz⟩ := ih hy (Nat.succ_pos depth)
    exact ⟨z, hsteps.trans hsteps', by omega⟩

/-- Deferred calls are nested as deep as the request says. -/
theorem deferRun_reaches (n : Nat) (hn : turn n = 1) :
    ∃ x, Reachable emptyHeap plainRequest (deferRun n) x ∧ x.liveApps = n + 1 := by
  have hcall : (⟨1, false⟩ : CallContext) = ⟨turn n, false⟩ := by rw [hn]
  have henter :
    (do checkApp plainRequest.calledAppID; enterContext plainRequest.calledAppID : ArgC Unit)
      (calleeSession plainRequest.rootResources 255 plainRequest.rootSession) =
      (.ok (), (calleeSession plainRequest.rootResources 255 plainRequest.rootSession).entered 1) :=
        rfl
  have hreach : Reachable emptyHeap plainRequest (deferRun n) _ :=
    (Relation.ReflTransGen.single (.invoke rfl rfl)).tail (.enter rfl henter)
  have hfirst : ∃ x, Reachable emptyHeap plainRequest (deferRun n) x ∧ AtRun n 1 x :=
    ⟨_, hreach, rfl, rfl, rfl, hcall, rfl⟩
  obtain ⟨x, hx, hrun⟩ := hfirst
  obtain ⟨y, hsteps, hy⟩ := hrun.enter_all Nat.one_pos
  exact ⟨y, hx.trans hsteps, by omega⟩

/-- Seventeen live contexts of applications, by deferred calls alone. -/
theorem deferred_calls_exceed_depth :
    ¬ ∀ x, Reachable emptyHeap plainRequest (deferRun 16) x → NestingBounded x := by
  intro hbounded
  obtain ⟨x, hx, hlive⟩ := deferRun_reaches 16 rfl
  have := (hbounded x hx).live
  rw [hlive] at this
  exact absurd this (by decide)

/-- A context is entered for the seventeenth of them, while sixteen are live. -/
theorem nesting_bounded_iff_defer : ∃ x, Reachable emptyHeap plainRequest (deferRun 16) x ∧
    EntersUncounted x ∧
    ¬(x.liveApps : Int) < maxCallDepth := by
  by_contra hnone
  have hbounded := (nesting_bounded_iff emptyHeap plainRequest (deferRun 16) rfl rfl).mpr
    fun x hx henters => by
    by_contra hlt
    exact hnone ⟨x, hx, henters, hlt⟩
  obtain ⟨x, hx, hlive⟩ := deferRun_reaches 16 rfl
  have := (hbounded x hx).live
  rw [hlive] at this
  exact absurd this (by decide)

end Execution
end Argennon
