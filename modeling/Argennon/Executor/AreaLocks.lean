import Argennon.Lib.LockStack
import Argennon.Executor.CallStack

/- Entrance locks over whole call trees (`argc/functions/invoke.cpp`). The session records
   which applications are locked and each context whether it holds the lock of its own. The
   library reaches a lock in `enter_area` and `exit_area` only; a context gives its lock back
   before its deferred calls and when it is destroyed. The two records agree as long as no
   signal comes between their assignments, which only a controlled caller prevents. -/
namespace Argennon

/-- The current call and the locks are the same. -/
structure SameLocks (s s' : Session) : Prop where
  currentCall : s'.currentCall = s.currentCall
  isLocked : s'.isLocked = s.isLocked

theorem sameLocks_stepRel : StepRel SameLocks where
  refl _ := ⟨rfl, rfl⟩
  trans h₁ h₂ := ⟨h₂.currentCall.trans h₁.currentCall, h₂.isLocked.trans h₁.isLocked⟩

theorem sameLocks_libRule : LibRule SameLocks SameLocks where
  rel := sameLocks_stepRel
  access _ _ _ := ⟨rfl, rfl⟩
  loadChunk _ _ _ _ := ⟨rfl, rfl⟩
  signatures _ _ _ := ⟨rfl, rfl⟩
  caller := sameLocks_stepRel
  inside h := h
  argContext h := ⟨h.currentCall, h.isLocked⟩

/-- The library reaches a lock in `enter_area` and `exit_area` only. -/
theorem sameLocks_exec (heap : Heap) {call : LibCall} (henter : call ≠ .enter_area)
    (hexit : call ≠ .exit_area) (s : Session) : SameLocks s (call.exec heap s).2 :=
  sameLocks_libRule.keeps_exec heap call (fun h => absurd h henter) (fun h => absurd h hexit) s
    fun _ _ => trivial

/-! ## Calls -/

theorem report_snd (msg : String) (code : StatusCode) (a : LongID) (s : Session) :
    (.inl <$> reportError msg code a : ArgC (Int ⊕ OpenCall)) s =
    ((reportError msg code a s).1.map .inl, s) := by
  change (reportError msg code a >>= fun ret => pure (Sum.inl ret) : ArgC (Int ⊕ OpenCall)) s = _
  rw [ArgC.bind_apply]
  have hsnd := reportError_snd msg code a s
  generalize reportError msg code a s = r at hsnd
  obtain ⟨e | ret, t⟩ := r
  · exact congrArg _ hsnd
  · exact congrArg _ hsnd

theorem sameLocks_startCall {forwardedGas : Byte} {s t : Session} {r : Except Exn (Int ⊕ OpenCall)}
    (h : startCall forwardedGas s = (r, t)) : SameLocks s t := by
  obtain rfl : (startCall forwardedGas s).2 = t := congrArg Prod.snd h
  have hrefl := sameLocks_stepRel.refl
  unfold startCall
  split
  · unfold ControlledCaller.startCall
    obtain ⟨-, hnew⟩ | ⟨prev, -, ⟨-, hnew⟩ | ⟨-, -, hnew⟩ | ⟨-, -, hnew⟩⟩ :=
      newHandler_cases forwardedGas s
    · rw [hnew]
      exact hrefl s
    · rw [hnew]
      simp only [report_snd]
      exact hrefl s
    · rw [hnew]
      simp only [report_snd]
      exact ⟨rfl, rfl⟩
    · rw [hnew]
      simp only
      -- the handler is made: its destructor runs if the stack size is refused
      cases (calleeSession prev forwardedGas s).failureManager.getStackSize
        (handlerFor prev forwardedGas s).id with
      | ok size => exact ⟨rfl, rfl⟩
      | error e =>
        cases e with
        | asceeError msg code =>
          simp only
          rw [ArgC.bind_apply]
          obtain ⟨version, -, hdestroy⟩ :=
            destroyHandler_snd (chargedFor prev forwardedGas) (handlerFor prev forwardedGas s) false
            (calleeSession prev forwardedGas s)
          generalize destroyHandler (chargedFor prev forwardedGas)
            (handlerFor prev forwardedGas s) false
            (calleeSession prev forwardedGas s) = r at hdestroy ⊢
          obtain ⟨r, t⟩ := r
          obtain rfl : t = _ := hdestroy
          cases r with
          | error e => exact ⟨rfl, rfl⟩
          | ok u =>
            simp only [report_snd]
            exact ⟨rfl, rfl⟩
        | _ => exact ⟨rfl, rfl⟩
  · unfold OptimisticCaller.startCall
    split <;> exact ⟨rfl, rfl⟩

theorem endThread_snd (r : Except Exn Int) (s : Session) : (endThread r s).2 = s := by
  obtain e | ret := r
  · cases e with
    | executorError message code app =>
      simp only [endThread]
      have hsnd := reportError_snd message code app s
      generalize reportError message code app s = result at hsnd
      obtain ⟨e | ret, t⟩ := result <;> exact hsnd
    | _ => rfl
  · rfl

theorem keeps_endThread (r : Except Exn Int) : Keeps (fun _ => True) SameLocks (endThread r) := by
  intro s _
  rw [endThread_snd]
  exact sameLocks_stepRel.refl s

theorem keeps_endVersion (caller : LongID) (heapVersion : Nat) (completed : Bool) :
    Keeps (fun _ => True) SameLocks (endVersion caller heapVersion completed) := by
  intro s _
  obtain ⟨version, -, hend⟩ := endVersion_snd caller heapVersion completed s
  rw [hend]
  exact ⟨rfl, rfl⟩

theorem keeps_destroyHandler (prevResources handler : CallResourceHandler) (completed : Bool) :
    Keeps (fun _ => True) SameLocks (destroyHandler prevResources handler completed) := by
  intro s _
  obtain ⟨version, -, hdestroy⟩ := destroyHandler_snd prevResources handler completed s
  rw [hdestroy]
  exact ⟨rfl, rfl⟩

theorem keeps_finish (r : Except Exn Int) (call : OpenCall) :
    Keeps (fun _ => True) SameLocks (call.finish r) := by
  have hrel := sameLocks_stepRel
  cases call with
  | controlled prevResources handler =>
    apply (keeps_endThread r).bind hrel
    intro ret
    exact (keeps_destroyHandler prevResources handler _).bind hrel fun _ => .pure hrel ret
  | optimistic caller heapVersion =>
    unfold OpenCall.finish
    cases r with
    | error e =>
      intro s _
      simp only
      split
      · exact ((keeps_endVersion caller heapVersion false).bind hrel fun _ => .throw hrel _) s
          fun _ _ => trivial
      · exact hrel.refl s
    | ok ret => exact (keeps_endVersion caller heapVersion _).bind hrel fun _ => .pure hrel ret

theorem sameLocks_finish {r r' : Except Exn Int} {call : OpenCall} {s t : Session}
    (h : call.finish r s = (r', t)) :
    SameLocks s t := by
  have hsame := keeps_finish r call s fun _ _ => trivial
  rw [h] at hsame
  exact hsame

theorem callDispatcher_snd {r : Except Exn Ending} {result : Except Exn Int} {s t : Session}
    (h : callDispatcher (fun s => (r, s)) s = (result, t)) : t = s := by
  obtain rfl : (callDispatcher (fun s => (r, s)) s).2 = t := congrArg Prod.snd h
  unfold callDispatcher
  obtain e | ending := r
  · cases e <;> rfl
  · cases ending with
    | signalled signal => rfl
    | _ =>
      simp only
      split <;> rfl

/-- A context is entered, or the session is as it was. -/
theorem enter_cases (appID : LongID) (s : Session) :
    (do checkApp appID; enterContext appID : ArgC Unit) s = (.ok (), s.entered appID) ∨
      ∃ e, (do checkApp appID; enterContext appID : ArgC Unit) s = (.error e, s) := by
  obtain hcheck | ⟨e, hcheck⟩ := checkApp_cases appID s
  · rw [ArgC.bind_of_ok hcheck]
    unfold enterContext
    split
    · exact .inr ⟨_, rfl⟩
    · exact .inl rfl
  · exact .inr ⟨e, ArgC.bind_of_error hcheck⟩

section
variable {appID : LongID} {s t : Session}

theorem enter_ok (h : (do checkApp appID; enterContext appID : ArgC Unit) s = (.ok (), t)) :
    t = s.entered appID := by
  obtain hok | ⟨e, herror⟩ := enter_cases appID s
  · exact (Prod.mk.inj (h.symm.trans hok)).2
  · cases (Prod.mk.inj (herror.symm.trans h)).1

theorem enter_error {e : Exn}
    (h : (do checkApp appID; enterContext appID : ArgC Unit) s = (.error e, t)) : t = s := by
  obtain hok | ⟨e', herror⟩ := enter_cases appID s
  · cases (Prod.mk.inj (hok.symm.trans h)).1
  · exact (Prod.mk.inj (h.symm.trans herror)).2

end

namespace Execution
variable {heap : Heap} {x y : Execution}

/-- The contexts that are live, the current one first. -/
def contexts (x : Execution) : List CallContext := x.session.currentCall :: x.callers.map (·.call)

/-- The locks of the live contexts. -/
def locks (x : Execution) : List (LongID × Bool) := x.contexts.map fun c => (c.appID, c.hasLock)

/-- The records of the locks agree. -/
def LocksSound (x : Execution) : Prop := LockStack.Sound x.session.isLocked x.locks

theorem LocksSound.of_same (h : LocksSound x) (hsame : SameLocks x.session y.session)
    (hcallers : y.callers = x.callers) :
    LocksSound y := by
  unfold LocksSound locks contexts
  rw [hsame.currentCall, hsame.isLocked, hcallers]
  exact h

/-- A lock of the current context is given back. -/
theorem sound_exitArea {s : Session} {calls : List (LongID × Bool)}
    (h : LockStack.Sound s.isLocked ((s.currentCall.appID, s.currentCall.hasLock) :: calls)) :
    LockStack.Sound (ArgC.exitArea s).isLocked ((s.currentCall.appID, false) :: calls) ∧
      (ArgC.exitArea s).currentCall = { s.currentCall with hasLock := false } := by
  unfold ArgC.exitArea
  split
  · rename_i hlock
    rw [hlock] at h
    exact ⟨h.release, rfl⟩
  · rename_i hlock
    rw [Bool.eq_false_iff.mpr hlock] at h
    refine ⟨h, ?_⟩
    rw [← Bool.eq_false_iff.mpr hlock]

/-- The current context takes its lock if it is free. -/
theorem sound_enterArea {s : Session} {calls : List (LongID × Bool)}
    (h : LockStack.Sound s.isLocked ((s.currentCall.appID, s.currentCall.hasLock) :: calls)) :
    LockStack.Sound (ArgC.enterArea s).2.isLocked
      (((ArgC.enterArea s).2.currentCall.appID, (ArgC.enterArea s).2.currentCall.hasLock) ::
        calls) := by
  unfold ArgC.enterArea
  split
  · exact h
  · rename_i hlock
    split
    · exact h
    · rename_i hfree
      rw [Bool.eq_false_iff.mpr hlock] at h
      exact h.acquire (Bool.eq_false_iff.mpr hfree)

theorem LocksSound.libCall_sound (h : LocksSound x) {call : LibCall} {s : Session}
    (hcall : (libCall heap call x.session).2 = s) (hsession : y.session = s)
    (hcallers : y.callers = x.callers) : LocksSound y := by
  rw [libCall_snd] at hcall
  by_cases henter : call = .enter_area
  · subst henter
    have := sound_enterArea h
    unfold LocksSound locks contexts
    rw [hcallers, hsession, ← hcall]
    exact this
  · by_cases hexit : call = .exit_area
    · subst hexit
      obtain ⟨hsound, hcurrent⟩ := sound_exitArea h
      have hs : s = ArgC.exitArea x.session := hcall.symm
      unfold LocksSound locks contexts
      rw [hcallers, hsession, hs]
      simp only [List.map_cons, hcurrent]
      exact hsound
    · have hsame : SameLocks x.session s := hcall ▸ sameLocks_exec heap henter hexit x.session
      exact h.of_same (hsession ▸ hsame) hcallers

/-- A step in which no signal comes between the assignments of a lock. -/
def UncutStep (heap : Heap) (x y : Execution) : Prop := Step heap x y ∧ ¬ Cut x y

/-- A controlled caller guards the areas. -/
theorem Cut.not_controlled (hcut : Cut x y) : x.session.callManager ≠ .controlled := by
  intro h
  cases hcut with
  | enter _ hcaller | exit _ hcaller | returned _ _ hcaller =>
    rw [h] at hcaller
    cases hcaller

theorem UncutStep.of_controlled (h : x.session.callManager = .controlled) (hstep : Step heap x y) :
    UncutStep heap x y := ⟨hstep, fun hcut => hcut.not_controlled h⟩

/-- **Step lemma.** -/
theorem LocksSound.step (h : LocksSound x) (hstep : UncutStep heap x y) : LocksSound y := by
  have hrefl := sameLocks_stepRel.refl x.session
  obtain ⟨hstep, huncut⟩ := hstep
  cases hstep with
  | cut hcut => exact absurd hcut huncut
  | ending | defer | deferred | interrupt | loopEnd | deferredReturned | deferredFailed =>
    exact h.of_same hrefl rfl
  | lib _ hcall | libSignal _ hcall | libError _ hcall =>
    exact h.libCall_sound (congrArg Prod.snd hcall) rfl rfl
  | refused _ hstart | notStarted _ hstart | invoke _ hstart =>
    exact h.of_same (sameLocks_startCall hstart) rfl
  | notEntered _ henter =>
    obtain rfl := enter_error henter
    exact h.of_same hrefl rfl
  | enter _ henter =>
    obtain rfl := enter_ok henter
    exact h.push _
  -- the lock of the context is released before its deferred calls
  | @returned r ret s _ _ hcall =>
    obtain rfl := callDispatcher_snd hcall
    obtain ⟨hsound, hcurrent⟩ := sound_exitArea h
    unfold LocksSound locks contexts
    simp only [List.map_cons, hcurrent]
    exact hsound
  | @failed r e s _ _ hcall =>
    obtain rfl := callDispatcher_snd hcall
    exact h.of_same hrefl rfl
  | @leave r f callers _ hcallers =>
    have hsound : LockStack.Sound x.session.isLocked
        ((x.session.currentCall.appID, x.session.currentCall.hasLock) ::
          ((f :: callers).map (·.call)).map fun c => (c.appID, c.hasLock)) := by
      rw [← hcallers]
      exact h
    exact (sound_exitArea hsound).1.pop
  | invokeReturned _ hfinish | invokeFailed _ hfinish =>
    exact h.of_same (sameLocks_finish hfinish) rfl

/-- The execution comes to `x` with no lock cut in two. -/
def UncutReachable (heap : Heap) (req : AppRequest) (run : Run) (x : Execution) : Prop :=
  Relation.ReflTransGen (UncutStep heap) (root req run) x

theorem UncutReachable.reachable {req : AppRequest} {run : Run}
    (h : UncutReachable heap req run x) : Reachable heap req run x :=
  Relation.ReflTransGen.mono (fun _ _ hstep => hstep.1) _ _ h

/-- **Run lemma.** -/
theorem locksSound_reachable {req : AppRequest} {run : Run} (h : UncutReachable heap req run x) :
    LocksSound x := by
  induction h with
  | refl => exact LockStack.sound_free 0
  | tail _ hstep ih => exact ih.step hstep

/-! ## The context of the request -/

/-- Nothing is left to do. -/
def Idle : Run → Prop
  | .ending _ => True
  | _ => False

/-- The context of the request waits for its one call. -/
def RootWaiting : Waiting → Prop
  | .invoked _ rest => Idle rest
  | .deferred _ _ => False

/-- The context of the request makes its one call. -/
def RootControl : Control → Prop
  | .app (.invoke _ _ _ rest) => Idle rest
  | .app run => Idle run
  | .ended _ => True
  | .call _ _ waiting => RootWaiting waiting
  | .back waiting _ => RootWaiting waiting
  | _ => False

theorem Idle.rootControl {run : Run} (h : Idle run) : RootControl (.app run) := by
  cases run with
  | ending e => trivial
  | _ => exact h.elim

/-- The context of the request, at the bottom of the stack, takes no lock. -/
def RootFree (x : Execution) : Prop :=
  (x.callers = [] ∧ RootControl x.control ∧ x.session.currentCall.hasLock = false) ∨
    ∃ callers f, x.callers = callers ++ [f] ∧ RootWaiting f.waiting ∧ f.call.hasLock = false

theorem RootFree.of_callers (h : x.callers ≠ []) (hroot : RootFree x)
    (hcallers : y.callers = x.callers) : RootFree y := by
  obtain ⟨hnil, -⟩ | ⟨callers, f, hlist, hrest⟩ := hroot
  · exact absurd hnil h
  · exact .inr ⟨callers, f, hcallers.trans hlist, hrest⟩

/-- A step that does not change the stack, if it keeps what the context of the request does. -/
theorem RootFree.of_same (hroot : RootFree x) (hcallers : y.callers = x.callers)
    (hsame : SameLocks x.session y.session)
    (hcontrol : RootControl x.control → RootControl y.control) : RootFree y := by
  obtain ⟨hnil, hctl, hfree⟩ | ⟨callers, f, hlist, hrest⟩ := hroot
  · exact .inl ⟨hcallers.trans hnil, hcontrol hctl, hsame.currentCall ▸ hfree⟩
  · exact .inr ⟨callers, f, hcallers.trans hlist, hrest⟩

/-- A step of a context that is not the one of the request. -/
theorem RootFree.of_not_root (hroot : RootFree x) (hcallers : y.callers = x.callers)
    (hcontrol : ¬RootControl x.control) :
    RootFree y := by
  obtain ⟨-, hctl, -⟩ | ⟨callers, f, hlist, hrest⟩ := hroot
  · exact absurd hctl hcontrol
  · exact .inr ⟨callers, f, hcallers.trans hlist, hrest⟩

theorem RootFree.step (hroot : RootFree x) (hstep : Step heap x y) : RootFree y := by
  have hrefl := sameLocks_stepRel.refl x.session
  cases hstep with
  | ending => exact hroot.of_same rfl hrefl fun _ => trivial
  | lib h | libSignal h | libError h => exact hroot.of_not_root rfl (by rw [h]; exact not_false)
  | defer h | deferred h | interrupt signal h | loopEnd h =>
    exact hroot.of_not_root rfl (by rw [h]; exact not_false)
  | deferredReturned h | deferredFailed h =>
    exact hroot.of_not_root rfl (by rw [h]; exact not_false)
  | refused h hstart =>
    exact hroot.of_same rfl (sameLocks_startCall hstart) (by rw [h]; exact Idle.rootControl)
  | notStarted h hstart => exact hroot.of_same rfl (sameLocks_startCall hstart) fun _ => trivial
  | invoke h hstart =>
    exact hroot.of_same rfl (sameLocks_startCall hstart) (by rw [h]; exact fun hctl => hctl)
  | notEntered h henter =>
    obtain rfl := enter_error henter
    exact hroot.of_same rfl hrefl (by rw [h]; exact fun hctl => hctl)
  | enter h =>
    obtain ⟨hnil, hctl, hfree⟩ | ⟨callers, f, hlist, hrest⟩ := hroot
    · rw [h] at hctl
      exact .inr ⟨[], ⟨x.id, x.session.currentCall, x.deferredCalls, _⟩, congrArg _ hnil,
        hctl, hfree⟩
    · exact .inr ⟨_ :: callers, f, by rw [hlist]; rfl, hrest⟩
  | returned h hcallers | failed h hcallers => exact hroot.of_callers hcallers rfl
  -- the context that is left is the last one above the root, or not
  | leave h hcallers =>
    obtain ⟨hnil, -⟩ | ⟨frames, g, hlist, hwaiting, hfree⟩ := hroot
    · rw [hnil] at hcallers
      cases hcallers
    · rw [hlist] at hcallers
      cases frames with
      | nil =>
        obtain ⟨rfl, rfl⟩ := List.cons.inj hcallers
        exact .inl ⟨rfl, hwaiting, hfree⟩
      | cons frame frames =>
        obtain ⟨-, rfl⟩ := List.cons.inj hcallers
        exact .inr ⟨frames, g, rfl, hwaiting, hfree⟩
  | invokeReturned h hfinish =>
    exact hroot.of_same rfl (sameLocks_finish hfinish) (by rw [h]; exact Idle.rootControl)
  | invokeFailed h hfinish => exact hroot.of_same rfl (sameLocks_finish hfinish) fun _ => trivial
  | cut hcut =>
    cases hcut with
    | enter h | exit h => exact hroot.of_not_root rfl (by rw [h]; exact not_false)
    | returned h hcallers => exact hroot.of_callers hcallers rfl

theorem rootFree_reachable {req : AppRequest} {run : Run} (h : Reachable heap req run x) :
    RootFree x := by
  induction h with
  | refl => exact .inl ⟨rfl, trivial, rfl⟩
  | tail _ hstep ih => exact ih.step hstep

/-! ## Mutual exclusion -/

theorem mem_locks {x : Execution} {app : LongID} :
    app ∈ LockStack.held x.locks ↔ ∃ c ∈ x.contexts, c.appID = app ∧ c.hasLock = true := by
  rw [LockStack.mem_held]
  unfold locks
  constructor
  · intro h
    obtain ⟨c, hc, heq⟩ := List.mem_map.mp h
    obtain ⟨happ, hlock⟩ := Prod.mk.inj heq
    exact ⟨c, hc, happ, hlock⟩
  · rintro ⟨c, hc, rfl, hlock⟩
    exact List.mem_map.mpr ⟨c, hc, by rw [hlock]⟩

/-- What holds of the locks in a state of a session. -/
structure AreasExclusive (x : Execution) : Prop where
  /-- Two live contexts of an application do not both have its lock. -/
  exclusive : x.contexts.Pairwise fun c d => c.hasLock = true → d.hasLock = true → c.appID ≠ d.appID
  /-- An application is locked exactly when one of its live contexts has the lock. -/
  locked : ∀ app, x.session.isLocked app = true ↔ ∃ c ∈ x.contexts, c.appID = app ∧ c.hasLock = true
  /-- While another call of the application has the lock the area is not entered,
  and nothing changes. -/
  refused : ∀ f ∈ x.callers, f.call.appID = x.session.currentCall.appID → f.call.hasLock = true →
    ArgC.enterArea x.session =
      (.error (.executorError "reentrancy is not allowed" .reentrancy_attempt
        x.session.currentCall.appID), x.session)
  /-- When a call is left, however it ends, the locks are those of the calls that are still live. -/
  left : ∀ f callers, x.callers = f :: callers →
    ∀ app, (leaveContext f.call x.session).isLocked app = true ↔
    ∃ g ∈ x.callers, g.call.appID = app ∧ g.call.hasLock = true
  /-- Before its deferred calls a context gives its lock back. -/
  released : (ArgC.exitArea x.session).currentCall.hasLock = false
  /-- When the context of the request is the only one, nothing is locked. -/
  free : x.callers = [] → ∀ app, x.session.isLocked app = false

theorem LocksSound.areasExclusive (h : LocksSound x) (hroot : RootFree x) : AreasExclusive x := by
  have hpairwise : x.contexts.Pairwise fun c d => c.hasLock = true → d.hasLock = true →
      c.appID ≠ d.appID :=
    List.pairwise_map.mp (LockStack.pairwise_of_nodup h.nodup)
  have hlocked : ∀ app, x.session.isLocked app = true ↔ ∃ c ∈ x.contexts, c.appID = app ∧
      c.hasLock = true :=
    fun app => (h.locked_iff app).trans mem_locks
  refine ⟨hpairwise, hlocked, ?_, ?_, ?_, ?_⟩
  · -- another context of the application has the lock: the area is refused
    intro f hf happ hlock
    have hfirst := List.rel_of_pairwise_cons hpairwise (List.mem_map_of_mem hf)
    have hcurrent : x.session.currentCall.hasLock = false := by
      by_contra hnot
      exact hfirst (Bool.eq_true_of_not_eq_false hnot) hlock happ.symm
    have hbusy : x.session.isLocked x.session.currentCall.appID = true :=
      (hlocked _).mpr ⟨f.call, List.mem_cons_of_mem _ (List.mem_map_of_mem hf), happ, hlock⟩
    unfold ArgC.enterArea
    rw [hcurrent, hbusy]
    rfl
  · intro f callers hcallers app
    have hsound : LockStack.Sound (ArgC.exitArea x.session).isLocked
        ((x.callers.map (·.call)).map fun c => (c.appID, c.hasLock)) :=
      (sound_exitArea h).1.pop
    refine (hsound.locked_iff app).trans (LockStack.mem_held.trans ?_)
    rw [List.map_map]
    constructor
    · intro hmem
      obtain ⟨g, hg, heq⟩ := List.mem_map.mp hmem
      obtain ⟨happ, hlock⟩ := Prod.mk.inj heq
      exact ⟨g, hg, happ, hlock⟩
    · rintro ⟨g, hg, rfl, hlock⟩
      exact List.mem_map.mpr ⟨g, hg, Prod.ext rfl hlock⟩
  · rw [(sound_exitArea h).2]
  · -- only the context of the request is left, and it has no lock
    intro hnil app
    have hfree : x.session.currentCall.hasLock = false := by
      obtain ⟨-, -, hfree⟩ | ⟨callers, f, hlist, -⟩ := hroot
      · exact hfree
      · rw [hnil] at hlist
        exact absurd hlist.symm (List.append_ne_nil_of_right_ne_nil _ (List.cons_ne_nil _ _))
    refine Bool.eq_false_iff.mpr fun happ => ?_
    obtain ⟨c, hc, -, hlock⟩ := (hlocked app).mp happ
    unfold contexts at hc
    rw [hnil] at hc
    obtain rfl := List.mem_singleton.mp hc
    rw [hfree] at hlock
    cases hlock

/-- After a step that is cut the records of a lock disagree. -/
theorem Cut.not_areasExclusive (h : AreasExclusive x) (hcut : Cut x y) : ¬ AreasExclusive y := by
  intro hy
  have hlocked := hy.locked x.session.currentCall.appID
  cases hcut with
  | enter _ _ hlock hfree =>
    -- locked, although no context has the lock
    obtain ⟨c, hc, happ, hheld⟩ := hlocked.mp (Function.update_self ..)
    have := (h.locked x.session.currentCall.appID).mpr ⟨c, hc, happ, hheld⟩
    rw [hfree] at this
    cases this
  | exit _ _ hlock | returned _ _ _ hlock =>
    -- free, although the current context has the lock
    have := hlocked.mpr ⟨x.session.currentCall, List.mem_cons_self, rfl, hlock⟩
    rw [show (x.session.setLocked false).isLocked x.session.currentCall.appID = false from
      Function.update_self ..] at this
    cases this

/-- **Mutual exclusion of locked areas.** In every state that an execution comes to with no
lock cut in two; a cut breaks it. -/
theorem areas_exclusive (heap : Heap) (req : AppRequest) (run : Run) (x : Execution)
    (h : UncutReachable heap req run x) :
    AreasExclusive x ∧ ∀ y, Cut x y → ¬ AreasExclusive y := by
  have hx := (locksSound_reachable h).areasExclusive (rootFree_reachable h.reachable)
  exact ⟨hx, fun y hcut => hcut.not_areasExclusive hx⟩

/-- An application that calls another one from its locked area, and is called back by it. -/
def reentrantRun : Run :=
  .lib .enter_area (.invoke 200 2 (.invoke 200 1 (.lib .enter_area (.ending (.returned 200)))
    (.ending (.returned 200))) (.ending (.returned 200)))

theorem areas_exclusive_reentrant : ∃ x, UncutReachable emptyHeap plainRequest reentrantRun x ∧
    x.contexts.length = 4 ∧ x.session.isLocked 1 = true ∧
      (AreasExclusive x ∧ ∀ y, Cut x y → ¬ AreasExclusive y) := by
  have hreach : UncutReachable emptyHeap plainRequest reentrantRun _ :=
    ((((((Relation.ReflTransGen.single (.of_controlled rfl (.invoke rfl rfl))).tail
      (.of_controlled rfl (.enter rfl rfl))).tail (.of_controlled rfl (.lib rfl rfl))).tail
      (.of_controlled rfl (.invoke rfl rfl))).tail (.of_controlled rfl (.enter rfl rfl))).tail
      (.of_controlled rfl (.invoke rfl rfl))).tail (.of_controlled rfl (.enter rfl rfl))
  exact ⟨_, hreach, rfl, rfl, areas_exclusive emptyHeap plainRequest reentrantRun _ hreach⟩

/-- A request that is executed optimistically. -/
def optimisticRequest : AppRequest := { plainRequest with useControlledExecution := false }

/-- The timer expires in `enter_area`: when its call has been left, the application is locked
and no context has the lock. -/
theorem areas_lock_survives :
    ∃ x, Reachable emptyHeap optimisticRequest (.lib .enter_area (.ending (.returned 200))) x ∧
      x.callers = [] ∧ x.session.isLocked 1 = true ∧ x.session.currentCall.hasLock = false ∧
      ¬ AreasExclusive x := by
  have hreach : Reachable emptyHeap optimisticRequest
      (.lib .enter_area (.ending (.returned 200))) _ :=
    ((((Relation.ReflTransGen.single (.invoke rfl rfl)).tail (.enter rfl rfl)).tail
      (.cut (.enter rfl rfl rfl rfl))).tail (.failed rfl (List.cons_ne_nil _ _) rfl)).tail
      (.leave rfl rfl)
  refine ⟨_, hreach, rfl, rfl, rfl, fun h => ?_⟩
  have := h.free rfl 1
  cases this

end Execution
end Argennon
