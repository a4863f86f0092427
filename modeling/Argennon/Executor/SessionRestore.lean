import Argennon.Executor.ExecuteOne
import Argennon.Executor.RunRule

/- What a call gives back when it returns.

   The bookkeeping of a session is what belongs to its calls: the current call and its
   resources, the call depth, the locks, the loaded context, the heap version. A step of
   a run changes it in one way only (`CallStep`): it may add invocations, each of which
   takes gas and an identifier. The one defect is kept in the account: an invocation
   that finds the version at its limit has published its handler and raised the call
   depth before its constructor throws, and nothing undoes that. -/
namespace Argennon

/-- The invocations that find the heap version at its limit. -/
def limitHits (l : List Invocation) : Nat := (l.filter fun i => i.version == maxVersion).length

theorem limitHits_append (l l' : List Invocation) :
    limitHits (l ++ l') = limitHits l + limitHits l' := by
  simp [limitHits]

theorem limitHits_eq_zero {l : List Invocation} :
    limitHits l = 0 ↔ ∀ i ∈ l, i.version ≠ maxVersion := by
  simp [limitHits]

/-- The resources of the current call, some of whose gas is given away, or a dangling
pointer where the limit was hit. -/
def ResourcesKept (p p' : ResourcesPointer) (new : List Invocation) : Prop :=
  match p with
  | .dangling => p' = .dangling
  | .live handler =>
    (∃ gas ≤ handler.remainingExternalGas, p' =
      .live { handler with remainingExternalGas := gas }) ∨
      (p' = .dangling ∧ 0 < limitHits new)

/-- What a step of a run does to the bookkeeping. -/
structure CallStep (s s' : Session) : Prop where
  callManager : s'.callManager = s.callManager
  appTable : s'.appTable = s.appTable
  stackFailures : s'.failureManager.stackFailures = s.failureManager.stackFailures
  cpuTimeFailures : s'.failureManager.cpuTimeFailures = s.failureManager.cpuTimeFailures
  appID : s'.currentCall.appID = s.currentCall.appID
  callersLocks : s'.callersLocks = s.callersLocks
  keys : s'.heapModifier.appsAccessMaps.keys = s.heapModifier.appsAccessMaps.keys
  contextLoaded : s.ContextLoaded → s'.ContextLoaded
  version_le : s.heapModifier.currentVersion ≤ s'.heapModifier.currentVersion
  valid : s.heapModifier.Valid → s'.heapModifier.Valid
  signatures : s.sigManager.Changed s'.sigManager
  log : ∃ new, s'.invocations = new ++ s.invocations ∧
    s'.failureManager.lastGeneratedID = s.failureManager.lastGeneratedID + new.length ∧
    s'.failureManager.callDepth = s.failureManager.callDepth + limitHits new ∧
    ResourcesKept s.currentResources s'.currentResources new

theorem ResourcesKept.refl (p : ResourcesPointer) : ResourcesKept p p [] := by
  cases p with
  | dangling => rfl
  | live handler => exact .inl ⟨handler.remainingExternalGas, Int.le_refl _, rfl⟩

theorem ResourcesKept.trans {p q r : ResourcesPointer} {new₁ new₂ : List Invocation}
    (h₁ : ResourcesKept p q new₁)
    (h₂ : ResourcesKept q r new₂) : ResourcesKept p r (new₂ ++ new₁) := by
  have hhits : limitHits (new₂ ++ new₁) = limitHits new₂ + limitHits new₁ := limitHits_append _ _
  cases p with
  | dangling =>
    obtain rfl : q = .dangling := h₁
    exact h₂
  | live handler =>
    obtain ⟨gas, hle, rfl⟩ | ⟨rfl, hpos⟩ := h₁
    · obtain ⟨gas', hle', rfl⟩ | ⟨rfl, hpos⟩ := h₂
      · exact .inl ⟨gas', Int.le_trans hle' hle, rfl⟩
      · exact .inr ⟨rfl, by omega⟩
    · obtain rfl : r = .dangling := h₂
      exact .inr ⟨rfl, by omega⟩

theorem LibStep.callStep {s s' : Session} (h : LibStep s s') : CallStep s s' :=
  { callManager := h.callManager
    appTable := h.appTable
    stackFailures := congrArg (·.stackFailures) h.failureManager
    cpuTimeFailures := congrArg (·.cpuTimeFailures) h.failureManager
    appID := h.appID
    callersLocks := h.callersLocks
    keys := h.keys
    contextLoaded := h.contextLoaded
    version_le := h.currentVersion.ge
    valid := h.valid
    signatures := h.signatures
    log := ⟨[], h.invocations, congrArg (·.lastGeneratedID) h.failureManager,
      by rw [h.failureManager]; simp [limitHits], by rw [h.currentResources]; exact .refl _⟩ }

theorem callStep_stepRel : StepRel CallStep where
  refl s := (libStep_stepRel.refl s).callStep
  trans {s t u} h₁ h₂ := by
    obtain ⟨new₁, hinv₁, hid₁, hdepth₁, hres₁⟩ := h₁.log
    obtain ⟨new₂, hinv₂, hid₂, hdepth₂, hres₂⟩ := h₂.log
    exact
      { callManager := h₂.callManager.trans h₁.callManager
        appTable := h₂.appTable.trans h₁.appTable
        stackFailures := h₂.stackFailures.trans h₁.stackFailures
        cpuTimeFailures := h₂.cpuTimeFailures.trans h₁.cpuTimeFailures
        appID := h₂.appID.trans h₁.appID
        callersLocks := h₂.callersLocks.trans h₁.callersLocks
        keys := h₂.keys.trans h₁.keys
        contextLoaded := fun h => h₂.contextLoaded (h₁.contextLoaded h)
        version_le := h₁.version_le.trans h₂.version_le
        valid := fun h => h₂.valid (h₁.valid h)
        signatures := h₁.signatures.trans h₂.signatures
        log := by
          refine ⟨new₂ ++ new₁, ?_, ?_, ?_, hres₁.trans hres₂⟩
          · rw [hinv₂, hinv₁, List.append_assoc]
          · rw [hid₂, hid₁, List.length_append]
            omega
          · rw [hdepth₂, hdepth₁, limitHits_append]
            omega }

/-! ## Contexts -/

/-- `dependant_call` gives back the call context and the locks too. -/
structure ContextKept (s s' : Session) : Prop extends CallStep s s' where
  currentCall : s'.currentCall = s.currentCall
  isLocked : s'.isLocked = s.isLocked

theorem contextKept_refl (s : Session) : ContextKept s s := ⟨callStep_stepRel.refl s, rfl, rfl⟩

/-- Leaving a context gives back the lock that was taken in it. -/
theorem contextKept_leaveContext {s s' : Session} (appID : LongID)
    (h : CallStep (s.entered appID) s') :
    ContextKept s (leaveContext s.currentCall s') := by
  have hexit := ArgC.sameContext_exitArea s'
  have hlocked : (leaveContext s.currentCall s').isLocked = s.isLocked := h.callersLocks
  have hkeys : (leaveContext s.currentCall s').heapModifier.appsAccessMaps.keys =
      s.heapModifier.appsAccessMaps.keys :=
    hexit.keys.trans h.keys
  refine ⟨?_, rfl, hlocked⟩
  exact
    { callManager := hexit.callManager.trans h.callManager
      appTable := hexit.appTable.trans h.appTable
      stackFailures := (congrArg (·.stackFailures) hexit.failureManager).trans h.stackFailures
      cpuTimeFailures := (congrArg (·.cpuTimeFailures) hexit.failureManager).trans h.cpuTimeFailures
      appID := rfl
      callersLocks := Session.callersLocks_congr hlocked rfl
      keys := hkeys
      contextLoaded := fun _ => rfl
      version_le := h.version_le.trans hexit.currentVersion.ge
      valid := fun hs => (hexit.valid (h.valid (hs.loadContext_valid appID))).loadContext_valid
        s.currentCall.appID
      signatures := h.signatures.trans hexit.signatures
      log := by
        obtain ⟨new, hinv, hid, hdepth, hres⟩ := h.log
        refine ⟨new, hexit.invocations.trans hinv, ?_, ?_, ?_⟩
        · exact (congrArg (·.lastGeneratedID) hexit.failureManager).trans hid
        · exact (congrArg (·.callDepth) hexit.failureManager).trans hdepth
        · change ResourcesKept s.currentResources (ArgC.exitArea s').currentResources new
          rw [hexit.currentResources]
          exact hres }

variable {good : Exn → Prop}

theorem keeps_withContext (appID : LongID) {body : ArgC Int} (h : Keeps good CallStep body) :
    Keeps good ContextKept (withContext appID body) := by
  intro s hgood
  obtain hself | ⟨hleave, hresult⟩ := withContext_snd appID body s
  · rw [hself]
    exact contextKept_refl s
  · rw [hleave]
    apply contextKept_leaveContext appID
    apply h
    rw [← hresult]
    exact hgood

/-! ## Calls -/

theorem toInt_ge (code : StatusCode) : 400 ≤ code.toInt := by
  cases code <;> decide

theorem reportError_ok {msg : String} {code : StatusCode} {app : LongID} {s : Session} {ret : Int}
    (h : (reportError msg code app s).1 = .ok ret) : 400 ≤ ret := by
  unfold reportError at h
  split at h
  · cases h
  · cases h
    exact toInt_ge code

/-- How a thread ends that does not end the process: `dependant_call` has returned, or has
thrown an error that was reported. -/
theorem threadStart_thrown {appID : LongID} {app : ArgC Ending} {deferred : ArgC Unit} {s : Session}
    (h : ∀ e, (threadStart appID app deferred s).1 = .error e → e.IsThrown) :
    (∃ ret, (threadStart appID app deferred s).1 = .ok ret) ∧
      ∀ e, (dependantCall appID app deferred s).1 = .error e → e.IsThrown := by
  have hleave : ∀ e, ¬ (leaveThread e).IsThrown := by
    intro e
    unfold leaveThread
    split
    · exact not_false
    · assumption
  have hok : ∃ ret, (invokeNoexcept appID app deferred s).1 = .ok ret := by
    unfold threadStart at h
    generalize invokeNoexcept appID app deferred s = r at h
    obtain ⟨e | ret, s'⟩ := r
    · exact absurd (h _ rfl) (hleave e)
    · exact ⟨ret, rfl⟩
  constructor
  · obtain ⟨ret, hret⟩ := hok
    refine ⟨ret, ?_⟩
    unfold threadStart
    generalize invokeNoexcept appID app deferred s = r at hret
    obtain ⟨r, s'⟩ := r
    obtain rfl : r = .ok ret := hret
    rfl
  · intro e he
    obtain ⟨ret, hret⟩ := hok
    unfold invokeNoexcept at hret
    generalize dependantCall appID app deferred s = r at he hret
    obtain ⟨r, s'⟩ := r
    obtain rfl : r = .error e := he
    cases e with
    | executorError message code app => trivial
    | _ => cases hret

/-- What happens to the session between the constructor of a handler and its destructor:
nothing when the stack is too deep, or what `dependant_call` does. -/
def ThreadRan (appID : LongID) (app : ArgC Ending) (deferred : ArgC Unit) (s s' : Session) : Prop :=
  s' = s ∨ s' = (dependantCall appID app deferred s).2 ∧
    ∀ e, (dependantCall appID app deferred s).1 = .error e → e.IsThrown

/-- A handler fails to be destroyed only by an assertion. -/
theorem destroyHandler_error {prevResources handler : CallResourceHandler} {completed : Bool}
    {s t : Session} {e : Exn}
    (h : destroyHandler prevResources handler completed s = (.error e, t)) : ¬ e.IsThrown := by
  unfold destroyHandler endVersion RestrictedModifier.restoreVersion at h
  cases completed with
  | true => cases (Prod.mk.inj h).1
  | false =>
    simp only [Bool.false_eq_true, if_false] at h
    split at h
    · cases (Prod.mk.inj h).1
    · cases (Prod.mk.inj h).1
      exact not_false

/-- A call with its resources, unless it ends the process: the handler is destroyed, and
the call was completed exactly if it returns less than 400. -/
theorem callWithResources_thrown {appID : LongID} {app : ArgC Ending} {deferred : ArgC Unit}
    {prevResources handler : CallResourceHandler} {s : Session}
    (h : ∀ e, (callWithResources appID app deferred prevResources handler s).1 = .error e →
      e.IsThrown) :
    ∃ completed t, ThreadRan appID app deferred s t ∧
      destroyHandler prevResources handler completed t =
        (.ok (), (callWithResources appID app deferred prevResources handler s).2) ∧
      ∀ ret, (callWithResources appID app deferred prevResources handler s).1 = .ok ret →
        (completed = true ↔ ret < 400) := by
  unfold callWithResources at h ⊢
  split at h
  · -- no stack is left: the call is reported, and its thread is not started
    rename_i msg code hstack
    refine ⟨false, s, .inl rfl, ?_⟩
    cases hd : destroyHandler prevResources handler false s with
    | mk r s' =>
      cases r with
      | error e =>
        rw [ArgC.bind_of_error hd] at h
        exact absurd (h e rfl) (destroyHandler_error hd)
      | ok u =>
        rw [ArgC.bind_of_ok hd, reportError_snd]
        refine ⟨rfl, fun ret hret => ?_⟩
        have := reportError_ok hret
        simp only [Bool.false_eq_true, false_iff]
        omega
  · -- `getStackSize` has no other error
    rename_i e hne hstack
    exfalso
    unfold FailureManager.getStackSize at hstack
    split at hstack
    · exact hne _ _ (Except.error.inj hstack).symm
    · split at hstack <;> cases hstack
  · rename_i size hstack
    have hthrown : ∀ e, (threadStart appID app deferred s).1 = .error e → e.IsThrown := by
      intro e he
      apply h
      cases hthread : threadStart appID app deferred s with
      | mk r s' =>
        rw [hthread] at he
        obtain rfl : r = .error e := he
        rw [ArgC.bind_of_error hthread]
    obtain ⟨⟨ret, hret⟩, hcall⟩ := threadStart_thrown hthrown
    have hthread : threadStart appID app deferred s =
        (.ok ret, (dependantCall appID app deferred s).2) :=
      Prod.ext hret (threadStart_snd appID app deferred s)
    refine ⟨ret < 400, _, .inr ⟨rfl, hcall⟩, ?_⟩
    rw [ArgC.bind_of_ok hthread] at h ⊢
    cases hd : destroyHandler prevResources handler (ret < 400)
      (dependantCall appID app deferred s).2 with
    | mk r s' =>
      cases r with
      | error e =>
        rw [ArgC.bind_of_error hd] at h
        exact absurd (h e rfl) (destroyHandler_error hd)
      | ok u =>
        rw [ArgC.bind_of_ok hd]
        refine ⟨rfl, fun ret' hret' => ?_⟩
        obtain rfl := Except.ok.inj hret'
        simp

/-- How a controlled call ends that does not end the process: with too little gas, at the
version limit, or with its handler destroyed. -/
theorem controlled_thrown {forwardedGas : Byte} {appID : LongID} {app : ArgC Ending}
    {deferred : ArgC Unit} {s : Session}
    (h : ∀ e, (ControlledCaller.executeApp forwardedGas appID app deferred s).1 = .error e →
      e.IsThrown) :
    ((ControlledCaller.executeApp forwardedGas appID app deferred s).2 = s ∧
      s.currentResources ≠ .dangling) ∨
    ∃ prev, s.currentResources = .live prev ∧ ¬forwardedGasOf prev forwardedGas ≤ minClocks ∧
      ((s.heapModifier.currentVersion = maxVersion ∧
          (ControlledCaller.executeApp forwardedGas appID app deferred s).2 =
            { takeGas prev forwardedGas s with currentResources := .dangling }) ∨
        (s.heapModifier.currentVersion ≠ maxVersion ∧ ∃ completed t,
          ThreadRan appID app deferred (calleeSession prev forwardedGas s) t ∧
          destroyHandler (chargedFor prev forwardedGas)
            (handlerFor prev forwardedGas s) completed t =
            (.ok (), (ControlledCaller.executeApp forwardedGas appID app deferred s).2) ∧
          ∀ ret, (ControlledCaller.executeApp forwardedGas appID app deferred s).1 = .ok ret →
            (completed = true ↔ ret < 400))) := by
  unfold ControlledCaller.executeApp at h ⊢
  obtain ⟨-, hnew⟩ | ⟨prev, hlive, ⟨-, hnew⟩ | ⟨hmin, hversion, hnew⟩ | ⟨hmin, hversion, hnew⟩⟩ :=
    newHandler_cases forwardedGas s
  · rw [hnew] at h
    exact absurd (h _ rfl) not_false
  · rw [hnew]
    refine .inl ⟨reportError_snd _ _ _ _, ?_⟩
    rw [hlive]
    exact ResourcesPointer.noConfusion
  · rw [hnew]
    exact .inr ⟨prev, hlive, hmin, .inl ⟨hversion, reportError_snd _ _ _ _⟩⟩
  · rw [hnew] at h ⊢
    exact .inr ⟨prev, hlive, hmin, .inr ⟨hversion, callWithResources_thrown h⟩⟩

/-! ## The step of a call -/

/-- The record of a call, and its callee in the next version. -/
theorem callStep_calleeLog {s t : Session} {prev : CallResourceHandler} {forwardedGas : Byte}
    (h : CallStep (calleeSession prev forwardedGas s) t)
    (hversion : s.heapModifier.currentVersion ≠ maxVersion) :
    ∃ new, t.invocations = new ++ s.invocations ∧
      t.failureManager.lastGeneratedID = s.failureManager.lastGeneratedID + new.length ∧
      t.failureManager.callDepth = s.failureManager.callDepth + 1 + limitHits new := by
  obtain ⟨new, hinv, hid, hdepth, -⟩ := h.log
  refine ⟨new ++ [invocationOf prev forwardedGas s], ?_, ?_, ?_⟩
  · rw [hinv, List.append_assoc]
    rfl
  · rw [hid, List.length_append]
    change s.failureManager.lastGeneratedID + 1 + new.length = _
    simp only [List.length_singleton]
    omega
  · have hone : limitHits [invocationOf prev forwardedGas s] = 0 :=
      limitHits_eq_zero.mpr fun i hi => List.mem_singleton.mp hi ▸ hversion
    rw [hdepth, limitHits_append, hone]
    rfl

/-- The gas of the call is the only thing the caller's resources lose. -/
theorem resourcesKept_charged {prev : CallResourceHandler} {forwardedGas : Byte}
    (hmin : ¬forwardedGasOf prev forwardedGas ≤ minClocks) :
    ∃ gas ≤ prev.remainingExternalGas, chargedFor prev forwardedGas =
      { prev with remainingExternalGas := gas } := by
  refine ⟨_, ?_, rfl⟩
  unfold minClocks at hmin
  omega

/-- The destructor of the handler gives back what its constructor and the thread changed. -/
theorem callStep_destroyHandler {s t s' : Session} {prev : CallResourceHandler}
    {forwardedGas : Byte} {completed : Bool}
    (hlive : s.currentResources = .live prev) (hmin : ¬forwardedGasOf prev forwardedGas ≤ minClocks)
    (hversion : s.heapModifier.currentVersion ≠ maxVersion)
    (h : CallStep (calleeSession prev forwardedGas s) t)
    (hdestroy : destroyHandler (chargedFor prev forwardedGas) (handlerFor prev forwardedGas s)
      completed t = (.ok (), s')) :
    CallStep s s' := by
  obtain rfl := endVersion_ok hdestroy
  have hle := h.version_le
  have hstart : (calleeSession prev forwardedGas s).heapModifier.currentVersion =
      s.heapModifier.currentVersion + 1 := rfl
  have happ : t.currentCall.appID = s.currentCall.appID := h.appID
  exact
    { callManager := h.callManager
      appTable := h.appTable
      stackFailures := h.stackFailures
      cpuTimeFailures := h.cpuTimeFailures
      appID := happ
      callersLocks := by
        have hlocks : (calleeSession prev forwardedGas s).callersLocks = s.callersLocks :=
          Session.callersLocks_congr rfl rfl
        rw [← hlocks, ← h.callersLocks]
        exact Session.callersLocks_congr rfl rfl
      keys := h.keys
      contextLoaded := fun _ => by
        simp only [Session.ContextLoaded, RestrictedModifier.loadContext, handlerFor, happ]
      version_le := by
        cases completed with
        | true => simp only [RestrictedModifier.loadContext, if_true]; omega
        | false => simp [RestrictedModifier.loadContext, handlerFor]
      valid := fun hs => by
        have ht := h.valid (hs.withVersion (Nat.succ_pos _))
        apply RestrictedModifier.Valid.loadContext_valid
        apply ht.withVersion
        cases completed with
        | true => exact ht.version
        | false => exact hs.version
      signatures := h.signatures
      log := by
        -- the call itself is one of the invocations
        obtain ⟨new, hinv, hid, hdepth⟩ := callStep_calleeLog h hversion
        refine ⟨new, hinv, hid, ?_, ?_⟩
        · change t.failureManager.callDepth - 1 = _
          omega
        · rw [hlive]
          obtain ⟨gas, hgas, hcharged⟩ := resourcesKept_charged hmin
          exact .inl ⟨gas, hgas, congrArg ResourcesPointer.live hcharged⟩ }

/-- At the version limit the handler is published and the depth raised for good. -/
theorem callStep_limit {s : Session} {prev : CallResourceHandler} {forwardedGas : Byte}
    (hlive : s.currentResources = .live prev)
    (hversion : s.heapModifier.currentVersion = maxVersion) :
    CallStep s { takeGas prev forwardedGas s with currentResources := .dangling } := by
  have hone : limitHits [invocationOf prev forwardedGas s] = 1 := by
    simp [limitHits, invocationOf, hversion]
  refine ⟨rfl, rfl, rfl, rfl, rfl, Session.callersLocks_congr rfl rfl, rfl, fun h => h,
    Nat.le_refl _,
    fun h => h, .refl, ?_⟩
  refine ⟨[invocationOf prev forwardedGas s], rfl, rfl, ?_, ?_⟩
  · rw [hone]
    rfl
  · rw [hlive]
    exact .inr ⟨rfl, by omega⟩

theorem ThreadRan.callStep {appID : LongID} {app : ArgC Ending} {deferred : ArgC Unit}
    {s t : Session}
    (hran : ThreadRan appID app deferred s t)
    (h : Keeps Exn.IsThrown CallStep (dependantCall appID app deferred)) :
    CallStep s t := by
  obtain rfl | ⟨rfl, hthrown⟩ := hran
  · exact callStep_stepRel.refl t
  · exact h s hthrown

theorem callStep_controlled (forwardedGas : Byte) (appID : LongID) {app : ArgC Ending}
    {deferred : ArgC Unit}
    (h : Keeps Exn.IsThrown CallStep (dependantCall appID app deferred)) :
    Keeps Exn.IsThrown CallStep (ControlledCaller.executeApp forwardedGas appID app deferred) := by
  intro s hthrown
  obtain ⟨hsame, -⟩ | ⟨prev, hlive, hmin,
    ⟨hversion, hlimit⟩ | ⟨hversion, completed, t, hran, hdestroy, -⟩⟩ :=
    controlled_thrown hthrown
  · rw [hsame]
    exact callStep_stepRel.refl s
  · rw [hlimit]
    exact callStep_limit hlive hversion
  · exact callStep_destroyHandler hlive hmin hversion (hran.callStep h) hdestroy

theorem callStep_optimistic (appID : LongID) {app : ArgC Ending} {deferred : ArgC Unit}
    (h : Keeps Exn.IsThrown CallStep (dependantCall appID app deferred)) :
    Keeps Exn.IsThrown CallStep (OptimisticCaller.executeApp appID app deferred) := by
  intro s hthrown
  obtain hsame | ⟨hversion, m, s', hm, hs', hend⟩ := optimistic_cases appID app deferred s
  · rw [hsame]
    exact callStep_stepRel.refl s
  · have hsave : CallStep s { s with heapModifier := m } := by
      subst hm
      exact ⟨rfl, rfl, rfl, rfl, rfl, Session.callersLocks_congr rfl rfl, rfl, fun h => h,
        Nat.le_succ _,
        fun h => h.withVersion (Nat.succ_pos _), .refl, [], rfl, rfl, by simp [limitHits], .refl _⟩
    have hcall : CallStep s s' := by
      rw [hs']
      apply callStep_stepRel.trans hsave
      apply h
      rw [hm]
      exact optimistic_thrown hthrown hversion
    obtain hend | ⟨completed, hend⟩ := hend
    · rw [hend]
      exact hcall
    · obtain ⟨version, hcases, hstate⟩ :=
        endVersion_snd s.currentCall.appID s.heapModifier.currentVersion completed s'
      rw [hend, hstate]
      have happ := hcall.appID
      have hle := hcall.version_le
      exact
        { hcall with
          callersLocks := by
            rw [← hcall.callersLocks]
            exact Session.callersLocks_congr rfl rfl
          contextLoaded := fun _ => by
            simp only [Session.ContextLoaded, RestrictedModifier.loadContext, happ]
          version_le := by
            change s.heapModifier.currentVersion ≤ version
            omega
          valid := fun hs => by
            have hversion := hs.version
            exact ((hcall.valid hs).withVersion (by omega)).loadContext_valid _ }

/-- What every run keeps of the bookkeeping. -/
theorem callRule : RunRule Exn.IsThrown CallStep where
  rel := callStep_stepRel
  lib := LibStep.callStep
  outOfRange _ := trivial
  context appID body h := (keeps_withContext appID h).mono (fun _ h => h) fun _ _ =>
    ContextKept.toCallStep
  call forwardedGas appID app deferred h := by
    intro s hthrown
    unfold callApp at hthrown ⊢
    cases hmanager : s.callManager with
    | controlled =>
      exact callStep_controlled forwardedGas appID h s (by simpa [hmanager] using hthrown)
    | optimistic => exact callStep_optimistic appID h s (by simpa [hmanager] using hthrown)

/-- The session when a call has returned `ret`: everything that belongs to the caller is as
before the call, but for the gas it gave and the identifiers that were used. No chunk is
loaded, if the call was given its gas, and what the callees have signed or invalidated
stays so, whatever the call returns. -/
structure Restored (ret : Int) (s s' : Session) : Prop where
  currentCall : s'.currentCall = s.currentCall
  currentResources : ∃ handler gas, s.currentResources = .live handler ∧
    gas ≤ handler.remainingExternalGas ∧
    s'.currentResources = .live { handler with remainingExternalGas := gas }
  callDepth : s'.failureManager.callDepth = s.failureManager.callDepth
  chunks : s'.heapModifier.chunks = s.heapModifier.chunks
  currentChunk : s'.heapModifier.currentChunk = none ∨
    s'.heapModifier.currentChunk = s.heapModifier.currentChunk ∧ s'.invocations = s.invocations
  isLocked : s'.isLocked = s.isLocked
  version : 400 ≤ ret → s'.heapModifier.currentVersion = s.heapModifier.currentVersion
  lastGeneratedID : s.failureManager.lastGeneratedID ≤ s'.failureManager.lastGeneratedID
  failures : s'.failureManager.stackFailures = s.failureManager.stackFailures ∧
    s'.failureManager.cpuTimeFailures = s.failureManager.cpuTimeFailures
  callManager : s'.callManager = s.callManager
  appTable : s'.appTable = s.appTable
  keys : s'.heapModifier.appsAccessMaps.keys = s.heapModifier.appsAccessMaps.keys
  signatures : s.sigManager.Changed s'.sigManager

/-- The application 1 of a request in a version, with gas for its callees. -/
def sessionAt (version : Nat) : Session :=
  { plainRequest.rootSession with
    heapModifier := { plainRequest.modifier with currentVersion := version }
    currentCall := { appID := 1 } }

/-- At the version limit a call returns 520 and leaves the session with a pointer to a
handler that does not exist and with a greater call depth. -/
theorem executeApp_leaves_dangling :
    let run : Run := .ending (.returned 200)
    let call := ControlledCaller.executeApp 128 2 (run.app emptyHeap) (run.deferred emptyHeap)
      (sessionAt 30000)
    (sessionAt 30000).ContextLoaded ∧ call.1 = .ok 520 ∧ call.2.currentResources = .dangling ∧
      call.2.failureManager.callDepth = (sessionAt 30000).failureManager.callDepth + 1 ∧
      ¬ Restored 520 (sessionAt 30000) call.2 := by
  have hdepth : (ControlledCaller.executeApp 128 2 (Run.app emptyHeap (.ending (.returned 200)))
      (Run.deferred emptyHeap (.ending (.returned 200)))
        (sessionAt 30000)).2.failureManager.callDepth =
        (sessionAt 30000).failureManager.callDepth + 1 := by decide +kernel
  refine ⟨?_, by decide +kernel, by decide +kernel, hdepth, fun h => ?_⟩
  · unfold Session.ContextLoaded
    decide +kernel
  · have := h.callDepth
    omega

end Argennon
