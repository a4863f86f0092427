import Argennon.Executor.Calls
import Argennon.Executor.LibraryFrame

/- The rule of runs: what every library call and every kind of call keeps, the run of an
   application keeps. The only induction is the one over the run, here; a property of
   runs is proved by saying what a call does with what its callee keeps. -/
namespace Argennon

/-- What a relation has to satisfy to be kept by every run. -/
structure RunRule (good : Exn → Prop) (R : Session → Session → Prop) : Prop where
  rel : StepRel R
  lib : ∀ {s s'}, LibStep s s' → R s s'
  /-- The only exception that a call of a dispatcher catches. -/
  outOfRange : ∀ what, good (.outOfRange what)
  context : ∀ (appID : LongID) {body : ArgC Int}, Keeps good R body →
    Keeps good R (withContext appID body)
  call : ∀ (forwardedGas : Byte) (appID : LongID) {app : ArgC Ending} {deferred : ArgC Unit},
    Keeps good R (dependantCall appID app deferred) →
      Keeps good R (callApp forwardedGas appID app deferred)

theorem libCall_snd (heap : Heap) (call : LibCall) (s : Session) :
    (libCall heap call s).2 = (call.exec heap s).2 := by
  unfold libCall
  obtain ⟨e | _, s'⟩ := call.exec heap s
  · cases e with
    | undefined => simp only; split <;> rfl
    | _ => rfl
  · rfl

/-! ## What a call does by itself -/

/-- The session of a call whose resources are there. -/
def calleeSession (prevResources : CallResourceHandler) (forwardedGas : Byte)
    (s : Session) : Session :=
  { takeGas prevResources forwardedGas s with
    heapModifier := { s.heapModifier with currentVersion := s.heapModifier.currentVersion + 1 }
    currentResources := .live (handlerFor prevResources forwardedGas s) }

/-- How the constructor of a handler ends. -/
theorem newHandler_cases (forwardedGas : Byte) (s : Session) :
    (s.currentResources = .dangling ∧ newHandler forwardedGas s = (.error .undefined, s)) ∨
    ∃ prev, s.currentResources = .live prev ∧
      ((forwardedGasOf prev forwardedGas ≤ minClocks ∧
          newHandler forwardedGas s =
            (.error (.asceeError "forwarded gas is too low" .invalid_operation), s)) ∨
        (¬forwardedGasOf prev forwardedGas ≤ minClocks ∧
            s.heapModifier.currentVersion = maxVersion ∧
          newHandler forwardedGas s = (.error (.asceeError "version limit reached" .limit_exceeded),
            { takeGas prev forwardedGas s with currentResources := .dangling })) ∨
        (¬forwardedGasOf prev forwardedGas ≤ minClocks ∧
            s.heapModifier.currentVersion ≠ maxVersion ∧
          newHandler forwardedGas s =
            (.ok (chargedFor prev forwardedGas, handlerFor prev forwardedGas s),
            calleeSession prev forwardedGas s))) := by
  unfold newHandler
  cases hres : s.currentResources with
  | dangling => exact .inl ⟨rfl, rfl⟩
  | live prev =>
    refine .inr ⟨prev, rfl, ?_⟩
    by_cases hgas : forwardedGasOf prev forwardedGas ≤ minClocks
    · exact .inl ⟨hgas, by simp [hgas]⟩
    · by_cases hversion : s.heapModifier.currentVersion = maxVersion
      · exact .inr (.inl ⟨hgas, hversion, by simp [hgas, RestrictedModifier.saveVersion, hversion]⟩)
      · exact .inr (.inr ⟨hgas, hversion,
          by simp [hgas, RestrictedModifier.saveVersion, hversion, calleeSession]⟩)

/-- Either the application calls itself, or the body runs in the new context, which is left
whatever happens. -/
theorem withContext_snd {α : Type} (appID : LongID) (body : ArgC α) (s : Session) :
    (withContext appID body s).2 = s ∨
    (withContext appID body s).2 = leaveContext s.currentCall (body (s.entered appID)).2 ∧
      (withContext appID body s).1 = (body (s.entered appID)).1 := by
  unfold withContext enterContext
  by_cases hself : s.currentCall.appID = appID
  · exact .inl (by rw [if_pos hself])
  · exact .inr (by rw [if_neg hself]; exact ⟨rfl, rfl⟩)

theorem reportError_snd (msg : String) (code : StatusCode) (app : LongID) (s : Session) :
    (reportError msg code app s).2 = s := by
  unfold reportError
  split <;> rfl

theorem invokeNoexcept_snd (appID : LongID) (app : ArgC Ending) (deferred : ArgC Unit)
    (s : Session) :
    (invokeNoexcept appID app deferred s).2 = (dependantCall appID app deferred s).2 := by
  unfold invokeNoexcept
  generalize dependantCall appID app deferred s = r
  split
  · exact reportError_snd _ _ _ _
  · rfl

theorem threadStart_snd (appID : LongID) (app : ArgC Ending) (deferred : ArgC Unit) (s : Session) :
    (threadStart appID app deferred s).2 = (dependantCall appID app deferred s).2 := by
  rw [← invokeNoexcept_snd]
  unfold threadStart
  generalize invokeNoexcept appID app deferred s = r
  obtain ⟨_ | _, _⟩ := r <;> rfl

theorem endVersion_snd (caller : LongID) (heapVersion : Nat) (completed : Bool) (s : Session) :
    ∃ version, (version = heapVersion ∨ version = s.heapModifier.currentVersion) ∧
      (endVersion caller heapVersion completed s).2 =
        { s with heapModifier :=
          { s.heapModifier with currentVersion := version }.loadContext caller } := by
  unfold endVersion RestrictedModifier.restoreVersion
  cases completed with
  | true => exact ⟨s.heapModifier.currentVersion, .inr rfl, rfl⟩
  | false =>
    simp only [Bool.false_eq_true, if_false]
    split
    · exact ⟨heapVersion, .inl rfl, rfl⟩
    · exact ⟨s.heapModifier.currentVersion, .inr rfl, rfl⟩

/-- A version is restored unless the call is completed. -/
theorem endVersion_ok {caller : LongID} {heapVersion : Nat} {completed : Bool} {s s' : Session}
    (h : endVersion caller heapVersion completed s = (.ok (), s')) :
    s' = { s with
      heapModifier := { s.heapModifier with
        currentVersion := if completed then s.heapModifier.currentVersion
          else heapVersion }.loadContext caller } := by
  unfold endVersion RestrictedModifier.restoreVersion at h
  cases completed with
  | true => exact (Prod.mk.inj h).2.symm
  | false =>
    simp only [Bool.false_eq_true, if_false] at h
    split at h
    · exact (Prod.mk.inj h).2.symm
    · cases (Prod.mk.inj h).1

/-- The handler is destroyed: its caller's resources and context are there again. -/
theorem destroyHandler_snd (prevResources handler : CallResourceHandler) (completed : Bool)
    (s : Session) :
    ∃ version, (version = handler.heapVersion ∨ version = s.heapModifier.currentVersion) ∧
      (destroyHandler prevResources handler completed s).2 =
        { s with
          heapModifier := { s.heapModifier with currentVersion := version }.loadContext
            handler.caller
          currentResources := .live prevResources
          failureManager := s.failureManager.completeInvocation } :=
  endVersion_snd handler.caller handler.heapVersion completed
    { s with
      currentResources := .live prevResources
      failureManager := s.failureManager.completeInvocation }

/-- What a call leaves when its resources are there: the end of the thread or, if the
thread could start and end, what the destroyed handler leaves of it. -/
theorem callWithResources_cases (appID : LongID) (app : ArgC Ending) (deferred : ArgC Unit)
    (prevResources handler : CallResourceHandler) (s : Session) :
    (callWithResources appID app deferred prevResources handler s).2 =
    (dependantCall appID app deferred s).2 ∨
    ∃ completed s', (s' = s ∨ s' = (dependantCall appID app deferred s).2) ∧
      (callWithResources appID app deferred prevResources handler s).2 =
        (destroyHandler prevResources handler completed s').2 := by
  unfold callWithResources
  cases hstack : s.failureManager.getStackSize handler.id with
  | error e =>
    refine .inr ⟨false, s, .inl rfl, ?_⟩
    -- the only error of `getStackSize` is one that is reported
    obtain ⟨msg, code, rfl⟩ : ∃ msg code, e = .asceeError msg code := by
      unfold FailureManager.getStackSize at hstack
      split at hstack
      · exact ⟨_, _, (Except.error.inj hstack).symm⟩
      · split at hstack <;> cases hstack
    simp only
    cases hdestroy : destroyHandler prevResources handler false s with
    | mk r s' =>
      cases r with
      | error e => rw [ArgC.bind_of_error hdestroy]
      | ok u => rw [ArgC.bind_of_ok hdestroy, reportError_snd]
  | ok size =>
    simp only
    cases hthread : threadStart appID app deferred s with
    | mk r s' =>
      have hs' : s' = (dependantCall appID app deferred s).2 := by rw [← threadStart_snd, hthread]
      cases r with
      | error e =>
        rw [ArgC.bind_of_error hthread]
        exact .inl hs'
      | ok ret =>
        refine .inr ⟨ret < 400, s', .inr hs', ?_⟩
        rw [ArgC.bind_of_ok hthread]
        cases hdestroy : destroyHandler prevResources handler (ret < 400) s' with
        | mk r s'' =>
          cases r with
          | error e => rw [ArgC.bind_of_error hdestroy]
          | ok u => rw [ArgC.bind_of_ok hdestroy]; rfl

/-- What an optimistic call leaves: nothing at all, or the end of `dependant_call` in a new
version, or what the destroyed handler leaves of it. -/
theorem optimistic_cases (appID : LongID) (app : ArgC Ending) (deferred : ArgC Unit) (s : Session) :
    (OptimisticCaller.executeApp appID app deferred s).2 = s ∨
    s.heapModifier.currentVersion ≠ maxVersion ∧
      ∃ m s', m = { s.heapModifier with currentVersion := s.heapModifier.currentVersion + 1 } ∧
      s' = (dependantCall appID app deferred { s with heapModifier := m }).2 ∧
      ((OptimisticCaller.executeApp appID app deferred s).2 = s' ∨ ∃ completed,
        (OptimisticCaller.executeApp appID app deferred s).2 =
          (endVersion s.currentCall.appID s.heapModifier.currentVersion completed s').2) := by
  unfold OptimisticCaller.executeApp RestrictedModifier.saveVersion
  by_cases hversion : s.heapModifier.currentVersion = maxVersion
  · exact .inl (by simp [hversion])
  · refine .inr ⟨hversion, _, _, rfl, rfl, ?_⟩
    simp only [hversion, if_false]
    generalize dependantCall appID app deferred _ = r
    obtain ⟨e | ret, s'⟩ := r
    · by_cases hthrown : e.IsThrown
      · refine .inr ⟨false, ?_⟩
        simp only [hthrown, if_true]
        cases hend : endVersion s.currentCall.appID s.heapModifier.currentVersion false s' with
        | mk r s'' =>
          cases r with
          | error e' => rw [ArgC.bind_of_error hend]
          | ok u => rw [ArgC.bind_of_ok hend]; rfl
      · exact .inl (by simp [hthrown])
    · refine .inr ⟨ret < 400, ?_⟩
      cases hend : endVersion s.currentCall.appID s.heapModifier.currentVersion (ret < 400) s' with
      | mk r s'' =>
        cases r with
        | error e' => simp only [ArgC.bind_of_error hend]
        | ok u => simp only [ArgC.bind_of_ok hend]; rfl

/-- An optimistic call fails with no worse an error than `dependant_call` does. -/
theorem optimistic_thrown {appID : LongID} {app : ArgC Ending} {deferred : ArgC Unit} {s : Session}
    (h : ∀ e, (OptimisticCaller.executeApp appID app deferred s).1 = .error e → e.IsThrown)
    (hsave : s.heapModifier.currentVersion ≠ maxVersion) :
    ∀ e, (dependantCall appID app deferred { s with
      heapModifier := { s.heapModifier with currentVersion := s.heapModifier.currentVersion + 1 }
        }).1 = .error e →
      e.IsThrown := by
  intro e he
  by_contra hthrown
  apply hthrown
  apply h
  unfold OptimisticCaller.executeApp RestrictedModifier.saveVersion
  simp only [hsave, if_false]
  generalize dependantCall appID app deferred _ = r at he ⊢
  obtain ⟨r, s'⟩ := r
  obtain rfl : r = .error e := he
  simp [hthrown]

theorem checkApp_cases (appID : LongID) (s : Session) :
    checkApp appID s = (.ok (), s) ∨ ∃ e, checkApp appID s = (.error e, s) := by
  unfold checkApp
  cases s.appTable.checkApp appID with
  | ok u => exact .inl rfl
  | error e => cases e <;> exact .inr ⟨_, rfl⟩

theorem keeps_checkApp {good : Exn → Prop} {R : Session → Session → Prop} (hrefl : ∀ s, R s s)
    (appID : LongID) :
    Keeps good R (checkApp appID) := by
  intro s _
  obtain h | ⟨e, h⟩ := checkApp_cases appID s <;> rw [h] <;> exact hrefl s

namespace RunRule
variable {good : Exn → Prop} {R : Session → Session → Prop}

theorem keeps_libCall (h : RunRule good R) (heap : Heap) (call : LibCall) :
    Keeps good R (libCall heap call) := by
  intro s _
  rw [libCall_snd]
  exact h.lib (call.keeps heap s fun _ _ => trivial)

theorem keeps_callDispatcher (h : RunRule good R) {app : ArgC Ending} (happ : Keeps good R app) :
    Keeps good R (callDispatcher app) := by
  intro s hgood
  have hstep := happ s
  unfold callDispatcher at hgood ⊢
  generalize app s = r at hstep hgood ⊢
  obtain ⟨e | ending, s'⟩ := r
  · have hR : good e → R s s' := fun hg => hstep fun e' he' => Except.error.inj he' ▸ hg
    cases e with
    | outOfRange what => exact hR (h.outOfRange what)
    | _ => exact hR (hgood _ rfl)
  · have hR : R s s' := hstep fun e he => nomatch he
    cases ending with
    | signalled signal => exact hR
    | _ =>
      simp only
      split <;> exact hR

theorem keeps_callInContext (h : RunRule good R) {app : ArgC Ending} {deferred : ArgC Unit}
    (happ : Keeps good R app)
    (hdeferred : Keeps good R deferred) : Keeps good R (callInContext app deferred) := by
  have hexit : Keeps good R exitArea := fun s _ => h.lib (ArgC.sameContext_exitArea s).libStep
  apply (h.keeps_callDispatcher happ).bind h.rel
  intro ret
  exact hexit.bind h.rel fun _ => hdeferred.bind h.rel fun _ => .pure h.rel ret

theorem keeps_dependantCall (h : RunRule good R) (appID : LongID) {app : ArgC Ending}
    {deferred : ArgC Unit}
    (happ : Keeps good R app) (hdeferred : Keeps good R deferred) :
    Keeps good R (dependantCall appID app deferred) :=
  (keeps_checkApp h.rel.refl appID).bind h.rel fun _ =>
    h.context appID (h.keeps_callInContext happ hdeferred)

/-- **Rule of runs.** -/
theorem keeps (h : RunRule good R) (heap : Heap) (run : Run) :
    Keeps good R (run.app heap) ∧ Keeps good R (run.deferred heap) := by
  induction run with
  | ending e => exact ⟨.pure h.rel _, .pure h.rel _⟩
  | lib call rest ih =>
    refine ⟨(h.keeps_libCall heap call).bind h.rel fun signal => ?_, ih.2⟩
    cases signal with
    | none => exact ih.1
    | some signal => exact .pure h.rel _
  | invoke forwardedGas appID callee rest ihCallee ihRest =>
    have hcallee := h.keeps_dependantCall appID ihCallee.1 ihCallee.2
    exact ⟨(h.call forwardedGas appID hcallee).bind h.rel fun _ => ihRest.1, ihRest.2⟩
  | defer appID callee rest ihCallee ihRest =>
    have hcallee := h.keeps_dependantCall appID ihCallee.1 ihCallee.2
    exact ⟨ihRest.1, hcallee.bind h.rel fun _ => ihRest.2⟩

theorem keeps_dependantRun (h : RunRule good R) (heap : Heap) (appID : LongID) (run : Run) :
    Keeps good R (dependantCall appID (run.app heap) (run.deferred heap)) :=
  h.keeps_dependantCall appID (h.keeps heap run).1 (h.keeps heap run).2

theorem keeps_execute (h : RunRule good R) (heap : Heap) (forwardedGas : Byte) (appID : LongID)
    (run : Run) :
    Keeps good R (run.execute heap forwardedGas appID) :=
  h.call forwardedGas appID (h.keeps_dependantRun heap appID run)

end RunRule
end Argennon
