import Argennon.Executor.AreaLocks
import Argennon.Executor.CallStackRefinement

/- Deferred calls (`argc/functions/invoke.cpp`): what can happen to a call, from the moment it
   is entered to the moment it is left. The calls it registers are executed in the order in which
   it registered them, after its dispatcher has returned, until one of them fails or a signal
   is taken between two of them; no other call executes them. -/
namespace Argennon

/-! ## Histories -/

/-- The dispatcher returns normally with a status below 400. -/
def Returns (r : Except Exn Ending) : Prop := ∃ ret, r = .ok (.returned ret) ∧ ret < 400

/-- A call of `app` that has registered the deferred calls of the list. -/
def begun (app : LongID) (registered : List DeferredArgs) : List CallEvent :=
  .entered app :: registered.map .registered

/-- Deferred calls that were executed one after the other, each with its result. The context
that calls them is that of `app`, which holds no lock. -/
def loopEvents (app : LongID) : List (DeferredArgs × Int) → List CallEvent
  | [] => []
  | (args, ret) :: done =>
    .started args { appID := app } :: .finished (.ok ret) :: loopEvents app done

/-- A call of `app` whose dispatcher has returned,
and which has executed some of what it registered. -/
def executed (app : LongID) (registered : List DeferredArgs) (ret : Int)
    (done : List (DeferredArgs × Int)) : List CallEvent :=
  begun app registered ++ .ended (.ok (.returned ret)) :: loopEvents app done

/-- Where a call is. -/
inductive Position where
  | running
  /-- The deferred calls that are left. -/
  | looping (ret : Int) (rest : List DeferredArgs)
  /-- One of them is executed. -/
  | waiting (ret : Int) (rest : List DeferredArgs)
  | ending (r : Except Exn Int)
  | left (r : Except Exn Int)

/-- What has happened to a call of `app` that is at a position. -/
inductive HistoryAt (app : LongID) (registered : List DeferredArgs) :
    Position → List CallEvent → Prop
  | running : HistoryAt app registered .running (begun app registered)
  /-- The dispatcher fails: nothing is executed, and the call fails. -/
  | dispatcherFailed {r : Except Exn Ending} {e : Exn} (h : ¬Returns r) :
      HistoryAt app registered (.ending (.error e)) (begun app registered ++ [.ended r])
  /-- The dispatcher has returned: the first of the registered calls were executed. -/
  | looping {ret : Int} {done : List (DeferredArgs × Int)} {rest : List DeferredArgs}
    (hret : ret < 400)
      (h : registered = done.map Prod.fst ++ rest) :
      HistoryAt app registered (.looping ret rest) (executed app registered ret done)
  /-- The next one is executed. -/
  | waiting {ret : Int} {done : List (DeferredArgs × Int)} {args : DeferredArgs}
    {rest : List DeferredArgs} (hret : ret < 400)
      (h : registered = done.map Prod.fst ++ args :: rest) :
      HistoryAt app registered (.waiting ret rest)
        (executed app registered ret done ++ [.started args { appID := app }])
  /-- It fails: the others are not executed, and the call fails. -/
  | deferredFailed {ret : Int} {done : List (DeferredArgs × Int)} {args : DeferredArgs}
    {rest : List DeferredArgs} {e : Exn}
      (hret : ret < 400) (h : registered = done.map Prod.fst ++ args :: rest) :
      HistoryAt app registered (.ending (.error e))
        (executed app registered ret done ++ [.started args { appID := app }, .finished (.error e)])
  /-- A signal is taken between two of them: the others are not executed, and the call fails. -/
  | interrupted {ret : Int} {done : List (DeferredArgs × Int)} {rest : List DeferredArgs}
    {signal : Signal} (hret : ret < 400)
      (h : registered = done.map Prod.fst ++ rest) :
      HistoryAt app registered (.ending (.error (.executorError signal.error.1 signal.error.2 app)))
        (executed app registered ret done ++ [.interrupted signal])
  /-- All of them were executed: the call returns what its dispatcher did. -/
  | completed {ret : Int} {done : List (DeferredArgs × Int)} (hret : ret < 400) (h : registered =
    done.map Prod.fst) :
      HistoryAt app registered (.ending (.ok ret)) (executed app registered ret done)
  | left {r : Except Exn Int} {events : List CallEvent}
    (h : HistoryAt app registered (.ending r) events) :
      HistoryAt app registered (.left r) (events ++ [.left r])

theorem begun_append (app : LongID) (registered : List DeferredArgs) (args : DeferredArgs) :
    begun app (registered ++ [args]) = begun app registered ++ [.registered args] := by
  unfold begun
  rw [List.map_append]
  rfl

theorem loopEvents_append (app : LongID) (args : DeferredArgs) (ret : Int) :
    ∀ done : List (DeferredArgs × Int),
    loopEvents app (done ++ [(args, ret)]) = loopEvents app done ++ [.started args { appID := app },
      .finished (.ok ret)]
  | [] => rfl
  | (args', ret') :: done => by
    rw [List.cons_append, loopEvents, loopEvents, loopEvents_append app args ret done]
    rfl

theorem executed_append (app : LongID) (registered : List DeferredArgs) (ret : Int)
    (done : List (DeferredArgs × Int))
    (args : DeferredArgs) (ret' : Int) : executed app registered ret (done ++ [(args, ret')]) =
      executed app registered ret done ++ [.started args { appID := app },
        .finished (.ok ret')] := by
  unfold executed
  rw [loopEvents_append, List.append_assoc]
  rfl

/-! ## What one event does -/

namespace HistoryAt
variable {app : LongID} {registered rest : List DeferredArgs} {args : DeferredArgs}
  {events : List CallEvent} {ret : Int}

theorem register (h : HistoryAt app registered .running events) (args : DeferredArgs) :
    HistoryAt app (registered ++ [args]) .running (events ++ [.registered args]) := by
  cases h
  rw [← begun_append]
  exact .running

theorem dispatch (h : HistoryAt app registered .running events) (hret : ret < 400) :
    HistoryAt app registered (.looping ret registered)
      (events ++ [.ended (.ok (.returned ret))]) := by
  cases h
  exact @looping app registered ret [] registered hret rfl

theorem fail (h : HistoryAt app registered .running events) {r : Except Exn Ending}
    (hr : ¬Returns r) (e : Exn) :
    HistoryAt app registered (.ending (.error e)) (events ++ [.ended r]) := by
  cases h
  exact .dispatcherFailed hr

theorem start (h : HistoryAt app registered (.looping ret (args :: rest)) events) :
    HistoryAt app registered (.waiting ret rest) (events ++ [.started args { appID := app }]) := by
  cases h with
  | looping hret h => exact .waiting hret h

theorem interrupt (h : HistoryAt app registered (.looping ret rest) events) (signal : Signal) :
    HistoryAt app registered (.ending (.error (.executorError signal.error.1 signal.error.2 app)))
      (events ++ [.interrupted signal]) := by
  cases h with
  | looping hret h => exact .interrupted hret h

theorem complete (h : HistoryAt app registered (.looping ret []) events) :
    HistoryAt app registered (.ending (.ok ret)) events := by
  cases h with
  | looping hret h => exact .completed hret (h.trans (List.append_nil _))

theorem finish (h : HistoryAt app registered (.waiting ret rest) events) (ret' : Int) :
    HistoryAt app registered (.looping ret rest) (events ++ [.finished (.ok ret')]) := by
  cases h with
  | @waiting _ done args _ hret h =>
    rw [List.append_assoc]
    have hlist : registered = (done ++ [(args, ret')]).map Prod.fst ++ rest := by simp [h]
    have hlooping : HistoryAt app registered (.looping ret rest) _ := .looping hret hlist
    rw [executed_append] at hlooping
    exact hlooping

theorem finishError (h : HistoryAt app registered (.waiting ret rest) events) (e : Exn) :
    HistoryAt app registered (.ending (.error e)) (events ++ [.finished (.error e)]) := by
  cases h with
  | waiting hret h =>
    rw [List.append_assoc]
    exact .deferredFailed hret h

end HistoryAt

/-! ## What is executed -/

/-- The calls that a call registers. -/
def registrations (events : List CallEvent) : List DeferredArgs :=
  events.filterMap fun
    | .registered args => some args
    | _ => none

/-- The deferred calls that a call begins to execute. -/
def starts (events : List CallEvent) : List DeferredArgs :=
  events.filterMap fun
    | .started args _ => some args
    | _ => none

theorem registrations_append (l l' : List CallEvent) :
    registrations (l ++ l') = registrations l ++ registrations l' :=
  List.filterMap_append

theorem starts_append (l l' : List CallEvent) : starts (l ++ l') = starts l ++ starts l' :=
  List.filterMap_append

theorem readings_begun (app : LongID) (registered : List DeferredArgs) :
    registrations (begun app registered) = registered ∧ starts (begun app registered) = [] := by
  constructor
  · change registrations (registered.map .registered) = registered
    induction registered with
    | nil => rfl
    | cons args registered ih => exact congrArg (args :: ·) ih
  · change starts (registered.map .registered) = []
    induction registered with
    | nil => rfl
    | cons args registered ih => exact ih

theorem readings_loopEvents (app : LongID) : ∀ done : List (DeferredArgs × Int),
    registrations (loopEvents app done) = [] ∧ starts (loopEvents app done) = done.map Prod.fst
  | [] => ⟨rfl, rfl⟩
  | (args, ret) :: done => by
    obtain ⟨hregistrations, hstarts⟩ := readings_loopEvents app done
    exact ⟨hregistrations, congrArg (args :: ·) hstarts⟩

theorem readings_executed (app : LongID) (registered : List DeferredArgs) (ret : Int)
    (done : List (DeferredArgs × Int)) :
    registrations (executed app registered ret done) = registered ∧
      starts (executed app registered ret done) = done.map Prod.fst := by
  obtain ⟨hbegun, hbegun'⟩ := readings_begun app registered
  obtain ⟨hloop, hloop'⟩ := readings_loopEvents app done
  constructor
  · change registrations
      (begun app registered ++ ([.ended (.ok (.returned ret))] ++ loopEvents app done)) = registered
    rw [registrations_append, registrations_append, hbegun, hloop]
    exact List.append_nil _
  · change starts (begun app registered ++
      ([.ended (.ok (.returned ret))] ++ loopEvents app done)) = done.map Prod.fst
    rw [starts_append, starts_append, hbegun', hloop']
    rfl

namespace HistoryAt
variable {app : LongID} {registered : List DeferredArgs} {position : Position}
  {events : List CallEvent}

/-- A call executes what it has registered itself, in that order and each at most once. -/
theorem starts_prefix (h : HistoryAt app registered position events) :
    starts events <+: registrations events := by
  have hexecuted : ∀ (ret : Int) (done : List (DeferredArgs × Int)) (first rest : List
      DeferredArgs) (tail : List CallEvent),
        registered = done.map Prod.fst ++ (first ++ rest) → starts tail = first →
          registrations tail = [] →
        starts (executed app registered ret done ++ tail) <+:
          registrations (executed app registered ret done ++ tail) := by
    intro ret done first rest tail hlist hfirst htail
    obtain ⟨hregistrations, hstarts⟩ := readings_executed app registered ret done
    rw [starts_append, registrations_append, hregistrations, hstarts, hfirst, htail,
      List.append_nil]
    exact ⟨rest, by rw [List.append_assoc, ← hlist]⟩
  induction h with
  | running =>
    rw [(readings_begun app registered).2]
    exact List.nil_prefix
  | @dispatcherFailed r e hr =>
    rw [starts_append, (readings_begun app registered).2]
    exact List.nil_prefix
  | @looping ret done rest hret hlist =>
    have := hexecuted ret done [] rest [] hlist rfl rfl
    rwa [List.append_nil] at this
  | @waiting ret done args rest hret hlist => exact hexecuted ret done [args] rest _ hlist rfl rfl
  | @deferredFailed ret done args rest e hret hlist =>
    exact hexecuted ret done [args] rest _ hlist rfl rfl
  | @interrupted ret done rest signal hret hlist => exact hexecuted ret done [] rest _ hlist rfl rfl
  | @completed ret done hret hlist =>
    have := hexecuted ret done [] [] [] (hlist.trans (List.append_nil _).symm) rfl rfl
    rwa [List.append_nil] at this
  | left _ ih =>
    rw [starts_append, registrations_append]
    simpa [starts, registrations] using ih

theorem left_notMem_executed {r : Except Exn Int} {ret : Int} :
    ∀ {done : List (DeferredArgs × Int)},
    .left r ∉ executed app registered ret done := by
  have hbegun : .left r ∉ begun app registered := by simp [begun]
  have hloop : ∀ done : List (DeferredArgs × Int), .left r ∉ loopEvents app done := by
    intro done
    induction done with
    | nil => exact List.not_mem_nil
    | cons first done ih => simpa [loopEvents] using ih
  intro done hmem
  obtain hmem | hmem := List.mem_append.mp hmem
  · exact hbegun hmem
  · obtain hend | hmem := List.mem_cons.mp hmem
    · cases hend
    · exact hloop done hmem

/-- Nothing happens to a call after it is left. -/
theorem position_of_left {r : Except Exn Int} (h : HistoryAt app registered position events)
    (hmem : .left r ∈ events) :
    position = .left r := by
  have hbefore : ∀ {events : List CallEvent} {q : Except Exn Int},
      HistoryAt app registered (.ending q) events → .left r ∉ events := by
    intro events q h
    cases h with
    | dispatcherFailed => simp [begun]
    | deferredFailed | interrupted => simp [left_notMem_executed]
    | completed => exact left_notMem_executed
  cases h with
  | running => simp [begun] at hmem
  | dispatcherFailed => simp [begun] at hmem
  | looping | completed => exact absurd hmem left_notMem_executed
  | waiting | deferredFailed | interrupted => simp [left_notMem_executed] at hmem
  | left h =>
    obtain hmem | hmem := List.mem_append.mp hmem
    · exact absurd hmem (hbefore h)
    · obtain rfl := CallEvent.left.inj (List.mem_singleton.mp hmem)
      rfl

/-- A call that returns has executed everything that it has registered,
after its dispatcher has returned. -/
theorem starts_of_left {ret : Int} (h : HistoryAt app registered (.left (.ok ret)) events) :
    starts events = registrations events ∧ ret < 400 ∧ .ended (.ok (.returned ret)) ∈ events := by
  cases h with
  | left h =>
    cases h with
    | @completed _ done hret hlist =>
      obtain ⟨hregistrations, hstarts⟩ := readings_executed app registered ret done
      refine ⟨?_, hret, ?_⟩
      · rw [starts_append, registrations_append, hregistrations, hstarts, ← hlist]
        rfl
      · exact List.mem_append_left _ (List.mem_append_right _ List.mem_cons_self)

end HistoryAt

/-! ## The live calls -/

/-- Where a context is while it waits. -/
def Waiting.position : Waiting → Position
  | .invoked _ _ => .running
  | .deferred ret rest => .waiting ret rest

/-- Where the current context is. -/
def Control.position : Control → Position
  | .app _ => .running
  | .ended _ => .running
  | .loop ret rest => .looping ret rest
  | .call _ _ waiting => waiting.position
  | .leave r => .ending r
  | .back waiting _ => waiting.position

/-- The dispatcher has returned and the deferred calls are executed. -/
def Position.InLoop : Position → Prop
  | .looping _ _ => True
  | .waiting _ _ => True
  | _ => False

/-- The events of a call. -/
def eventsOf (log : List (Nat × CallEvent)) (id : Nat) : List CallEvent :=
  log.filterMap fun e => if e.1 = id then some e.2 else none

@[simp] theorem eventsOf_append_self (log : List (Nat × CallEvent)) (id : Nat) (event : CallEvent) :
    eventsOf (log ++ [(id, event)]) id = eventsOf log id ++ [event] := by
  simp [eventsOf]

theorem eventsOf_append_of_ne (log : List (Nat × CallEvent)) {id id' : Nat} (event : CallEvent)
    (h : id ≠ id') :
    eventsOf (log ++ [(id, event)]) id' = eventsOf log id' := by
  simp [eventsOf, h]

/-- A live context with its position. -/
structure LiveCall where
  id : Nat
  call : CallContext
  deferredCalls : List DeferredArgs
  position : Position

/-- The history of a live context is the one of its position; in the loop it holds no lock. The
context of the request, number 0, has no history. -/
def LiveCall.Sound (log : List (Nat × CallEvent)) (c : LiveCall) : Prop :=
  c.id = 0 ∨ (HistoryAt c.call.appID c.deferredCalls c.position (eventsOf log c.id) ∧
    (c.position.InLoop → c.call.hasLock = false))

theorem LiveCall.Sound.of_event {log : List (Nat × CallEvent)} {c : LiveCall} (h : c.Sound log)
    {id : Nat} (event : CallEvent)
    (hne : id ≠ c.id) : c.Sound (log ++ [(id, event)]) := by
  unfold Sound
  rw [eventsOf_append_of_ne log event hne]
  exact h

/-- A context that waits. -/
def Frame.live (f : Frame) : LiveCall := ⟨f.id, f.call, f.deferredCalls, f.waiting.position⟩

namespace Execution
variable {heap : Heap} {x y : Execution}

/-- The current context. -/
def current (x : Execution) : LiveCall :=
  ⟨x.id, x.session.currentCall, x.deferredCalls, x.control.position⟩

/-- The numbers of the live contexts, the current one first. -/
def liveIDs (x : Execution) : List Nat := x.id :: x.callers.map (·.id)

/-- The log is the histories of the live contexts and of those that were left. -/
structure LogSound (x : Execution) : Prop where
  current : x.current.Sound x.log
  callers : ∀ f ∈ x.callers, (Frame.live f).Sound x.log
  sorted : x.liveIDs.Pairwise (· > ·)
  last : x.id ≤ x.lastID
  root : 0 ∈ x.liveIDs
  dead : ∀ id ≤ x.lastID, id ∉ x.liveIDs →
    ∃ app registered r, HistoryAt app registered (.left r) (eventsOf x.log id)
  fresh : ∀ id, x.lastID < id → eventsOf x.log id = []

/-- A step that changes nothing of this. -/
theorem LogSound.of_same (h : LogSound x) (hcurrent : y.current.Sound y.log) (hid : y.id = x.id)
    (hcallers : y.callers = x.callers)
    (hlast : y.lastID = x.lastID) (hlog : y.log = x.log) : LogSound y := by
  have hlive : y.liveIDs = x.liveIDs := by rw [liveIDs, liveIDs, hid, hcallers]
  exact ⟨hcurrent,
    by
    rw [hcallers, hlog]; exact h.callers, hlive ▸ h.sorted, by
      rw [hid, hlast]; exact h.last, hlive ▸ h.root,
    by rw [hlast, hlive, hlog]; exact h.dead, by rw [hlast, hlog]; exact h.fresh⟩

/-- A step that is an event of the current context. -/
theorem LogSound.of_event (h : LogSound x) {event : CallEvent} (hcurrent : y.current.Sound y.log)
    (hid : y.id = x.id)
    (hcallers : y.callers = x.callers) (hlast : y.lastID = x.lastID)
    (hlog : y.log = x.log ++ [(x.id, event)]) : LogSound y := by
  have hlive : y.liveIDs = x.liveIDs := by rw [liveIDs, liveIDs, hid, hcallers]
  have hlt : ∀ f ∈ x.callers, x.id ≠ f.id := fun f hf =>
    (List.rel_of_pairwise_cons h.sorted (List.mem_map_of_mem hf)).ne'
  refine ⟨hcurrent, ?_, hlive ▸ h.sorted, by rw [hid, hlast]; exact h.last, hlive ▸ h.root, ?_, ?_⟩
  · rw [hcallers, hlog]
    exact fun f hf => (h.callers f hf).of_event event (hlt f hf)
  · rw [hlast, hlive, hlog]
    intro id hle hid
    have hne : x.id ≠ id := fun heq => hid (by rw [← heq]; exact List.mem_cons_self)
    rw [eventsOf_append_of_ne x.log event hne]
    exact h.dead id hle hid
  · rw [hlast, hlog]
    intro id hlt
    have := h.last
    rw [eventsOf_append_of_ne x.log event (by omega)]
    exact h.fresh id hlt

/-- A step of the code of the current context. -/
theorem LogSound.of_running (h : LogSound x) (hx : x.control.position = .running)
    (hy : y.control.position = .running)
    (happ : y.session.currentCall.appID = x.session.currentCall.appID) (hid : y.id = x.id)
    (hcallers : y.callers = x.callers)
    (hdeferred : y.deferredCalls = x.deferredCalls) (hlast : y.lastID = x.lastID)
    (hlog : y.log = x.log) : LogSound y := by
  refine h.of_same ?_ hid hcallers hlast hlog
  obtain hzero | ⟨hhistory, -⟩ := h.current
  · exact .inl (hid.trans hzero)
  · refine .inr ⟨?_, fun hloop => ?_⟩
    · change HistoryAt x.session.currentCall.appID x.deferredCalls x.control.position
        (eventsOf x.log x.id) at hhistory
      change HistoryAt y.session.currentCall.appID y.deferredCalls y.control.position
        (eventsOf y.log y.id)
      rw [happ, hdeferred, hy, hlog, hid, ← hx]
      exact hhistory
    · change y.control.position.InLoop at hloop
      rw [hy] at hloop
      exact hloop.elim

/-- The current context, if it is not the one of the request, has the history of its position. -/
theorem LogSound.history (h : LogSound x) :
    x.id = 0 ∨
      (HistoryAt x.session.currentCall.appID x.deferredCalls x.control.position
        (eventsOf x.log x.id) ∧
      (x.control.position.InLoop → x.session.currentCall.hasLock = false)) :=
  h.current

/-- A context that is in the loop holds no lock. -/
theorem currentCall_eq (h : x.session.currentCall.hasLock = false) :
    x.session.currentCall = { appID := x.session.currentCall.appID } := by
  cases hcall : x.session.currentCall with
  | mk appID hasLock =>
    rw [hcall] at h
    exact congrArg (CallContext.mk appID) h

theorem LogSound.enter (h : LogSound x) {appID : LongID} {callee : Run} {waiting : Waiting}
    (hcontrol : x.control = .call appID callee waiting) : LogSound
      { control := .app callee
        session := x.session.entered appID
        id := x.lastID + 1
        deferredCalls := []
        callers := ⟨x.id, x.session.currentCall, x.deferredCalls, waiting⟩ :: x.callers
        lastID := x.lastID + 1
        log := x.log ++ [(x.lastID + 1, .entered appID)] } := by
  -- the identifiers that are live are old ones, so the log of the new one is empty
  have hle : ∀ id ∈ x.liveIDs, id ≤ x.lastID := by
    intro id hid
    obtain rfl | hid := List.mem_cons.mp hid
    · exact h.last
    · exact Nat.le_trans (Nat.le_of_lt (List.rel_of_pairwise_cons h.sorted hid)) h.last
  refine ⟨.inr ⟨?_, fun hloop => hloop.elim⟩, ?_, ?_, Nat.le_refl _,
    List.mem_cons_of_mem _ h.root, ?_, ?_⟩
  · change HistoryAt appID [] .running
      (eventsOf (x.log ++ [(x.lastID + 1, .entered appID)]) (x.lastID + 1))
    rw [eventsOf_append_self, h.fresh _ (Nat.lt_succ_self _)]
    exact .running
  · intro f hf
    obtain rfl | hf := List.mem_cons.mp hf
    · have hcurrent := h.current
      unfold Execution.current at hcurrent
      rw [hcontrol] at hcurrent
      exact hcurrent.of_event _ (by have := h.last; exact Nat.ne_of_gt (Nat.lt_succ_of_le this))
    · exact (h.callers f hf).of_event
        _ (Nat.ne_of_gt (Nat.lt_succ_of_le
          (hle _ (List.mem_cons_of_mem _ (List.mem_map_of_mem hf)))))
  · exact .cons (fun id hid => Nat.lt_succ_of_le (hle id hid)) h.sorted
  · intro id hid hnot
    have hne : x.lastID + 1 ≠ id := fun heq => hnot (by rw [← heq]; exact List.mem_cons_self)
    change id ≤ x.lastID + 1 at hid
    rw [eventsOf_append_of_ne x.log _ hne]
    exact h.dead id (by omega) fun hmem => hnot (List.mem_cons_of_mem _ hmem)
  · intro id hid
    change x.lastID + 1 < id at hid
    rw [eventsOf_append_of_ne x.log _ (by omega)]
    exact h.fresh id (by omega)

theorem LogSound.leave (h : LogSound x) {r : Except Exn Int} {f : Frame} {callers : List Frame}
    (hcontrol : x.control = .leave r)
    (hcallers : x.callers = f :: callers) : LogSound
      { x with
        control := .back f.waiting r
        session := leaveContext f.call x.session
        id := f.id
        deferredCalls := f.deferredCalls
        callers
        log := x.log ++ [(x.id, .left r)] } := by
  have hsorted := h.sorted
  unfold liveIDs at hsorted
  rw [hcallers, List.map_cons] at hsorted
  obtain ⟨hgt, hrest⟩ := List.pairwise_cons.mp hsorted
  -- the context that is left is younger than all that wait for it
  have hne : ∀ g ∈ f :: callers, x.id ≠ g.id := fun g hg => (hgt g.id (List.mem_map_of_mem hg)).ne'
  have hpos : x.id ≠ 0 := by
    have := hgt f.id List.mem_cons_self
    omega
  have hlive : ∀ g ∈ f :: callers, (Frame.live g).Sound x.log := hcallers ▸ h.callers
  refine ⟨(hlive f List.mem_cons_self).of_event _ (hne f List.mem_cons_self), fun g hg =>
    (hlive g (List.mem_cons_of_mem _ hg)).of_event _ (hne g (List.mem_cons_of_mem _ hg)), hrest,
      ?_, ?_, ?_, ?_⟩
  · exact Nat.le_trans (Nat.le_of_lt (hgt f.id List.mem_cons_self)) h.last
  · have hroot := h.root
    unfold liveIDs at hroot
    rw [hcallers] at hroot
    exact (List.mem_cons.mp hroot).resolve_left hpos.symm
  · intro id hle hnot
    by_cases heq : x.id = id
    · subst heq
      obtain hzero | ⟨hhistory, -⟩ := h.history
      · exact absurd hzero hpos
      · rw [hcontrol] at hhistory
        refine ⟨x.session.currentCall.appID, x.deferredCalls, r, ?_⟩
        change HistoryAt _ _ (.left r) (eventsOf (x.log ++ [(x.id, .left r)]) x.id)
        rw [eventsOf_append_self]
        exact .left hhistory
    · rw [eventsOf_append_of_ne x.log _ heq]
      refine h.dead id hle fun hmem => hnot ?_
      unfold liveIDs at hmem
      rw [hcallers] at hmem
      exact (List.mem_cons.mp hmem).resolve_left fun h => heq h.symm
  · intro id hlt
    have hlast := h.last
    change eventsOf (x.log ++ [(x.id, .left r)]) id = []
    change x.lastID < id at hlt
    rw [eventsOf_append_of_ne x.log _ (by omega)]
    exact h.fresh id hlt

/-- An event of the current context, by what it does to the history. -/
theorem LogSound.of_history (h : LogSound x) {event : CallEvent} (hid : y.id = x.id)
    (hcallers : y.callers = x.callers)
    (hlast : y.lastID = x.lastID) (hlog : y.log = x.log ++ [(x.id, event)])
    (happ : y.session.currentCall.appID = x.session.currentCall.appID)
    (hlock : y.control.position.InLoop →
        (x.control.position.InLoop → x.session.currentCall.hasLock = false) →
      y.session.currentCall.hasLock = false)
    (hhistory : ∀ events, (x.control.position.InLoop → x.session.currentCall.hasLock = false) →
      HistoryAt x.session.currentCall.appID x.deferredCalls x.control.position events →
      HistoryAt x.session.currentCall.appID y.deferredCalls y.control.position
        (events ++ [event])) : LogSound y := by
  refine h.of_event ?_ hid hcallers hlast hlog
  obtain hzero | ⟨hold, hfree⟩ := h.history
  · exact .inl (hid.trans hzero)
  · refine .inr ⟨?_, fun hloop => hlock hloop hfree⟩
    change HistoryAt y.session.currentCall.appID y.deferredCalls y.control.position
      (eventsOf y.log y.id)
    rw [happ, hlog, hid, eventsOf_append_self]
    exact hhistory _ hfree hold

/-- A deferred call begins, ends or is cut short: the loop holds no lock. -/
theorem LogSound.of_loop (h : LogSound x) {event : CallEvent} (hx : x.control.position.InLoop)
    (hid : y.id = x.id)
    (hcallers : y.callers = x.callers) (hlast : y.lastID = x.lastID)
    (hlog : y.log = x.log ++ [(x.id, event)])
    (hcall : y.session.currentCall = x.session.currentCall)
    (hdeferred : y.deferredCalls = x.deferredCalls)
    (hhistory : ∀ events, x.session.currentCall = { appID := x.session.currentCall.appID } →
      HistoryAt x.session.currentCall.appID x.deferredCalls x.control.position events →
      HistoryAt x.session.currentCall.appID x.deferredCalls y.control.position
        (events ++ [event])) : LogSound y := by
  refine h.of_history hid hcallers hlast hlog (congrArg _ hcall) (fun _ hfree => ?_)
    fun events hfree hold => ?_
  · rw [hcall]
    exact hfree hx
  · rw [hdeferred]
    exact hhistory events (currentCall_eq (hfree hx)) hold

theorem not_returns {r : Except Exn Ending} {e : Exn} {s t : Session}
    (h : callDispatcher (fun s => (r, s)) s = (.error e, t)) : ¬Returns r := by
  rintro ⟨ret, rfl, hret⟩
  unfold callDispatcher at h
  simp only at h
  rw [if_neg (by omega)] at h
  cases (Prod.mk.inj h).1

/-- **Step lemma.** -/
theorem LogSound.step (h : LogSound x) (hstep : Step heap x y) : LogSound y := by
  cases hstep with
  | ending hcontrol => exact h.of_running (by rw [hcontrol]; rfl) rfl rfl rfl rfl rfl rfl rfl
  | @lib call rest s hcontrol hcall | @libSignal call rest _ s hcontrol hcall
  | @libError call rest _ s hcontrol hcall =>
    have hsnd := libCall_snd heap call x.session
    rw [hcall] at hsnd
    have happ := (call.keeps heap x.session fun _ _ => trivial).appID
    rw [← hsnd] at happ
    exact h.of_running (by rw [hcontrol]; rfl) rfl happ rfl rfl rfl rfl rfl
  | defer hcontrol =>
    have hrunning : x.control.position = .running := by rw [hcontrol]; rfl
    refine h.of_history rfl rfl rfl rfl rfl (fun hloop _ => hloop.elim) fun events _ hold => ?_
    rw [hrunning] at hold
    exact hold.register _
  | refused hcontrol hstart | notStarted hcontrol hstart | invoke hcontrol hstart =>
    have happ := congrArg (·.appID) (sameLocks_startCall hstart).currentCall
    exact h.of_running (by rw [hcontrol]; rfl) rfl happ rfl rfl rfl rfl rfl
  | @notEntered appID callee waiting e s hcontrol henter =>
    obtain rfl := enter_error henter
    refine h.of_same ?_ rfl rfl rfl rfl
    have hcurrent := h.current
    unfold Execution.current at hcurrent
    rw [hcontrol] at hcurrent
    exact hcurrent
  | @enter appID callee waiting s hcontrol henter =>
    obtain rfl := enter_ok henter
    exact h.enter hcontrol
  | @returned r ret s hcontrol hcallers hcall =>
    have hrunning : x.control.position = .running := by rw [hcontrol]; rfl
    obtain ⟨hr, hret⟩ := callDispatcher_ok hcall
    obtain ⟨rfl, rfl⟩ := Prod.mk.inj hr
    have hexit := ArgC.sameContext_exitArea x.session
    refine h.of_history rfl rfl rfl rfl hexit.appID (fun _ _ => ?_) fun events _ hold => ?_
    · -- no lock is held in the loop
      unfold ArgC.exitArea
      split
      · rfl
      · exact Bool.eq_false_iff.mpr ‹_›
    · rw [hrunning] at hold
      exact hold.dispatch hret
  | @failed r e s hcontrol hcallers hcall =>
    have hrunning : x.control.position = .running := by rw [hcontrol]; rfl
    obtain rfl := callDispatcher_snd hcall
    refine h.of_history rfl rfl rfl rfl rfl (fun hloop _ => hloop.elim) fun events _ hold => ?_
    rw [hrunning] at hold
    exact hold.fail (not_returns hcall) e
  | @deferred ret args rest hcontrol =>
    have hposition : x.control.position = .looping ret (args :: rest) := by rw [hcontrol]; rfl
    refine h.of_loop (by rw [hposition]; trivial) rfl rfl rfl rfl rfl rfl
      fun events hcall hold => ?_
    rw [hposition] at hold
    have hstart := hold.start
    rw [← hcall] at hstart
    exact hstart
  | @interrupt ret rest signal hcontrol =>
    have hposition : x.control.position = .looping ret rest := by rw [hcontrol]; rfl
    refine h.of_loop (by rw [hposition]; trivial) rfl rfl rfl rfl rfl rfl fun events _ hold => ?_
    rw [hposition] at hold
    exact hold.interrupt signal
  | @loopEnd ret hcontrol =>
    refine h.of_same ?_ rfl rfl rfl rfl
    obtain hzero | ⟨hold, hfree⟩ := h.history
    · exact .inl hzero
    · rw [hcontrol] at hold
      exact .inr ⟨hold.complete, fun hloop => hloop.elim⟩
  | @deferredReturned ret ret' rest hcontrol =>
    have hposition : x.control.position = .waiting ret rest := by rw [hcontrol]; rfl
    refine h.of_loop (by rw [hposition]; trivial) rfl rfl rfl rfl rfl rfl fun events _ hold => ?_
    rw [hposition] at hold
    exact hold.finish ret'
  | @deferredFailed ret rest e hcontrol =>
    have hposition : x.control.position = .waiting ret rest := by rw [hcontrol]; rfl
    refine h.of_loop (by rw [hposition]; trivial) rfl rfl rfl rfl rfl rfl fun events _ hold => ?_
    rw [hposition] at hold
    exact hold.finishError e
  | leave hcontrol hcallers => exact h.leave hcontrol hcallers
  | invokeReturned hcontrol hfinish | invokeFailed hcontrol hfinish =>
    have happ := congrArg (·.appID) (sameLocks_finish hfinish).currentCall
    exact h.of_running (by rw [hcontrol]; rfl) rfl happ rfl rfl rfl rfl rfl
  | cut hcut =>
    cases hcut with
    | enter hcontrol | exit hcontrol =>
      exact h.of_running (by rw [hcontrol]; rfl) rfl rfl rfl rfl rfl rfl rfl
    | returned hcontrol =>
      have hrunning : x.control.position = .running := by rw [hcontrol]; rfl
      refine h.of_history rfl rfl rfl rfl rfl (fun hloop _ => hloop.elim) fun events _ hold => ?_
      rw [hrunning] at hold
      refine hold.fail ?_ _
      rintro ⟨ret, hret, -⟩
      cases hret

/-- **Run lemma.** -/
theorem logSound_reachable {req : AppRequest} {run : Run} (h : Reachable heap req run x) :
    LogSound x := by
  induction h with
  | refl =>
    refine ⟨.inl rfl, fun f hf => (nomatch hf), List.pairwise_singleton _ _, Nat.le_refl _,
      List.mem_singleton_self _,
      fun id hle hnot => ?_, fun _ _ => rfl⟩
    exact absurd (List.mem_singleton.mpr (Nat.le_zero.mp hle)) hnot
  | tail _ hstep ih => exact ih.step hstep

end Execution

/-! ## The end of an execution -/

/-- What is left to do in a run. -/
def Run.weight : Run → Nat
  | .ending _ => 1
  | .lib _ rest => rest.weight + 1
  | .invoke _ _ callee rest => callee.weight + rest.weight + 7
  | .defer _ callee rest => callee.weight + rest.weight + 8

def deferredWeight (l : List DeferredArgs) : Nat := (l.map fun args => args.callee.weight + 7).sum

/-- What is left to do for a context that waits, with the calls it has deferred. -/
def Waiting.weight (deferredCalls : List DeferredArgs) : Waiting → Nat
  | .invoked _ rest => rest.weight + deferredWeight deferredCalls + 5
  | .deferred _ rest => deferredWeight rest + 3

def Control.weight (deferredCalls : List DeferredArgs) : Control → Nat
  | .app run => run.weight + deferredWeight deferredCalls + 4
  | .ended _ => deferredWeight deferredCalls + 3
  | .loop _ rest => deferredWeight rest + 2
  | .call _ callee waiting => callee.weight + waiting.weight deferredCalls + 5
  | .leave _ => 1
  | .back waiting _ => waiting.weight deferredCalls

namespace Execution
variable {heap : Heap} {x y : Execution}

def weight (x : Execution) : Nat :=
  x.control.weight x.deferredCalls + (x.callers.map fun f => f.waiting.weight f.deferredCalls).sum

/-- Every step leaves less to do. -/
theorem weight_step (hstep : Step heap x y) : y.weight < x.weight := by
  have hweight : ∀ run : Run, 0 < run.weight := fun run => by cases run <;> simp [Run.weight]
  unfold weight
  cases hstep with
  -- a registered call weighs one less than the statement that registers it
  | defer h =>
    rw [h]
    simp only [Control.weight, Run.weight, deferredWeight, List.map_append, List.sum_append,
      List.map_cons, List.map_nil,
      List.sum_cons, List.sum_nil]
    omega
  | deferred h | interrupt signal h =>
    rw [h]
    simp only [Control.weight, Waiting.weight, deferredWeight, List.map_cons, List.sum_cons]
    omega
  | leave h hcallers =>
    rw [h, hcallers]
    simp only [Control.weight, List.map_cons, List.sum_cons]
    omega
  | enter h =>
    rw [h]
    simp only [Control.weight, deferredWeight, List.map_cons, List.sum_cons, List.map_nil,
      List.sum_nil]
    omega
  | @invokeReturned call rest _ _ _ h | @invokeFailed call rest _ _ _ h =>
    have := hweight rest
    rw [h]
    simp only [Control.weight, Waiting.weight]
    omega
  | @lib call rest s h | @libSignal call rest _ s h | @libError call rest _ s h =>
    have := hweight rest
    rw [h]
    simp only [Control.weight, Run.weight]
    omega
  | ending h | refused h | notStarted h | invoke h | notEntered h | returned h | failed h
  | loopEnd h | deferredReturned h | deferredFailed h =>
    rw [h]
    simp only [Control.weight, Run.weight, Waiting.weight, deferredWeight]
    omega
  | cut hcut =>
    cases hcut with
    | @enter rest h | @exit rest h =>
      have := hweight rest
      rw [h]
      simp only [Control.weight, Run.weight]
      omega
    | returned h =>
      rw [h]
      simp only [Control.weight]
      omega

/-- An execution that is not finished goes on. -/
theorem progress (hroot : RootFree x) : (∃ y, Step heap x y) ∨ Finished x := by
  cases hcontrol : x.control with
  | app run =>
    refine .inl ?_
    cases run with
    | ending e => exact ⟨_, .ending hcontrol⟩
    | lib call rest =>
      cases hcall : libCall heap call x.session with
      | mk r s =>
        obtain e | signal | signal := r
        · exact ⟨_, .libError hcontrol hcall⟩
        · exact ⟨_, .lib hcontrol hcall⟩
        · exact ⟨_, .libSignal hcontrol hcall⟩
    | invoke forwardedGas appID callee rest =>
      cases hstart : startCall forwardedGas x.session with
      | mk r s =>
        obtain e | ret | call := r
        · exact ⟨_, .notStarted hcontrol hstart⟩
        · exact ⟨_, .refused hcontrol hstart⟩
        · exact ⟨_, .invoke hcontrol hstart⟩
    | defer appID callee rest => exact ⟨_, .defer hcontrol⟩
  | ended r =>
    by_cases hcallers : x.callers = []
    · exact .inr ⟨hcallers, r, hcontrol⟩
    · refine .inl ?_
      cases hcall : callDispatcher (fun s => (r, s)) x.session with
      | mk result s =>
        cases result with
        | error e => exact ⟨_, .failed hcontrol hcallers hcall⟩
        | ok ret => exact ⟨_, .returned hcontrol hcallers hcall⟩
  | loop ret rest =>
    refine .inl ?_
    cases rest with
    | nil => exact ⟨_, .loopEnd hcontrol⟩
    | cons args rest => exact ⟨_, .deferred hcontrol⟩
  | call appID callee waiting =>
    refine .inl ?_
    obtain henter | ⟨e, henter⟩ := enter_cases appID x.session
    · exact ⟨_, .enter hcontrol henter⟩
    · exact ⟨_, .notEntered hcontrol henter⟩
  | leave r =>
    refine .inl ?_
    cases hcallers : x.callers with
    | nil =>
      -- the context of the request is never left
      obtain ⟨-, hctl, -⟩ | ⟨callers, f, hlist, -⟩ := hroot
      · rw [hcontrol] at hctl
        exact hctl.elim
      · rw [hcallers] at hlist
        exact absurd hlist.symm (List.append_ne_nil_of_right_ne_nil _ (List.cons_ne_nil _ _))
    | cons f callers => exact ⟨_, .leave hcontrol hcallers⟩
  | back waiting r =>
    refine .inl ?_
    cases waiting with
    | deferred ret rest =>
      cases r with
      | error e => exact ⟨_, .deferredFailed hcontrol⟩
      | ok ret' => exact ⟨_, .deferredReturned hcontrol⟩
    | invoked call rest =>
      cases hfinish : call.finish r x.session with
      | mk result s =>
        cases result with
        | error e => exact ⟨_, .invokeFailed hcontrol hfinish⟩
        | ok ret => exact ⟨_, .invokeReturned hcontrol hfinish⟩

/-- Every execution comes to its end, whatever steps it takes. -/
theorem ends {req : AppRequest} {run : Run} (h : Reachable heap req run x) :
    ∃ y, Steps heap x y ∧ Finished y := by
  induction hn : x.weight using Nat.strong_induction_on generalizing x with
  | _ n ih =>
    obtain ⟨y, hstep⟩ | hfinished : (∃ y, Step heap x y) ∨ _ := progress (rootFree_reachable h)
    · obtain ⟨z, hsteps, hz⟩ := ih y.weight (hn ▸ weight_step hstep) (h.tail hstep) rfl
      exact ⟨z, .head hstep hsteps, hz⟩
    · exact ⟨x, .refl, hfinished⟩

/-! ## Deferred calls -/

/-- What holds of the deferred calls in a state of an execution. -/
structure DeferredCallsSound (heap : Heap) (x : Execution) : Prop where
  /-- Every call that was entered has the history of some position. -/
  history : ∀ id, 0 < id → id ≤ x.lastID →
    ∃ app registered position, HistoryAt app registered position (eventsOf x.log id)
  /-- It executes what it has registered itself, in that order and each at most once. -/
  inOrder : ∀ id, 0 < id → id ≤ x.lastID → starts (eventsOf x.log id) <+:
    registrations (eventsOf x.log id)
  /-- If it returns it has executed all of it, after its dispatcher has returned. -/
  returned : ∀ id ret, 0 < id → id ≤ x.lastID → .left (.ok ret) ∈ eventsOf x.log id →
    starts (eventsOf x.log id) = registrations (eventsOf x.log id) ∧ ret < 400 ∧
      .ended (.ok (.returned ret)) ∈ eventsOf x.log id
  /-- At the end of the execution every call was left. -/
  left : Finished x → ∀ id, 0 < id → id ≤ x.lastID →
    ∃ app registered r, HistoryAt app registered (.left r) (eventsOf x.log id)
  /-- The execution goes on to its end. -/
  ends : ∃ y, Steps heap x y ∧ Finished y
  /-- And it cannot go on for ever. -/
  decreases : ∀ y, Step heap x y → y.weight < x.weight

theorem LogSound.history_of_id (h : LogSound x) {id : Nat} (hpos : 0 < id) (hle : id ≤ x.lastID) :
    ∃ app registered position, HistoryAt app registered position (eventsOf x.log id) := by
  by_cases hlive : id ∈ x.liveIDs
  · obtain rfl | hmem := List.mem_cons.mp hlive
    · obtain hzero | ⟨hhistory, -⟩ := h.history
      · omega
      · exact ⟨_, _, _, hhistory⟩
    · obtain ⟨f, hf, rfl⟩ := List.mem_map.mp hmem
      obtain hzero | ⟨hhistory, -⟩ := h.callers f hf
      · exact absurd hzero (Nat.ne_of_gt hpos)
      · exact ⟨_, _, _, hhistory⟩
  · obtain ⟨app, registered, r, hhistory⟩ := h.dead id hle hlive
    exact ⟨app, registered, _, hhistory⟩

/-- **Deferred calls.** In every state that an execution comes to. -/
theorem deferred_calls_sound (heap : Heap) (req : AppRequest) (run : Run) (x : Execution)
    (h : Reachable heap req run x) :
    DeferredCallsSound heap x := by
  have hlog := logSound_reachable h
  refine ⟨fun id => hlog.history_of_id, fun id hpos hle => ?_, fun id ret hpos hle hleft => ?_,
    fun hfinished id hpos hle => hlog.dead id hle ?_, ends h, fun y => weight_step⟩
  · obtain ⟨app, registered, position, hhistory⟩ := hlog.history_of_id hpos hle
    exact hhistory.starts_prefix
  · obtain ⟨app, registered, position, hhistory⟩ := hlog.history_of_id hpos hle
    obtain rfl := hhistory.position_of_left hleft
    exact hhistory.starts_of_left
  have hroot := hlog.root
  unfold liveIDs at hroot ⊢
  rw [hfinished.1] at hroot ⊢
  have hzero : 0 = x.id := List.mem_singleton.mp hroot
  exact fun hmem => Nat.ne_of_gt hpos ((List.mem_singleton.mp hmem).trans hzero.symm)

/-- An application that defers a call of another one. -/
def deferOnce : Run := .defer 2 (.ending (.returned 200)) (.ending (.returned 200))

/-- The call is left when its timer expires before the deferred call begins. -/
theorem interrupted_reachable : ∃ x e, Reachable emptyHeap plainRequest deferOnce x ∧
    eventsOf x.log 1 =
      [.entered 1, .registered ⟨2, .ending (.returned 200)⟩, .ended (.ok (.returned 200)),
        .interrupted .execution_timeout, .left (.error e)] := by
  have hreach : Reachable emptyHeap plainRequest deferOnce _ :=
    ((((((Relation.ReflTransGen.single (.invoke rfl rfl)).tail (.enter rfl rfl)).tail
      (.defer rfl)).tail (.ending rfl)).tail
      (.returned rfl (List.cons_ne_nil _ _) rfl)).tail (.interrupt .execution_timeout rfl)).tail
        (.leave rfl rfl)
  exact ⟨_, _, hreach, rfl⟩

/-- A dispatcher has returned 200 and no deferred call has failed, but not all were executed. -/
theorem deferred_calls_cut_short : ¬∀ (heap : Heap) (req : AppRequest) (run : Run)
    (x : Execution), Reachable heap req run x →
    ∀ id ret r, .ended (.ok (.returned ret)) ∈ eventsOf x.log id → ret < 400 →
      .left r ∈ eventsOf x.log id →
      (∀ e, .finished (.error e) ∉ eventsOf x.log id) → starts (eventsOf x.log id) =
      registrations (eventsOf x.log id) := by
  intro hall
  obtain ⟨x, e, hreach, hevents⟩ := interrupted_reachable
  have hstarts := hall emptyHeap plainRequest deferOnce x hreach 1 200 (.error e)
  rw [hevents] at hstarts
  have := hstarts (by simp) (by decide) (by simp) (by simp)
  cases this

theorem deferred_calls_sound_once : ∃ x, Reachable emptyHeap plainRequest deferOnce x ∧
    x.lastID = 2 ∧
    DeferredCallsSound emptyHeap x := by
  have hreach : Reachable emptyHeap plainRequest deferOnce _ :=
    ((((((Relation.ReflTransGen.single (.invoke rfl rfl)).tail (.enter rfl rfl)).tail
      (.defer rfl)).tail (.ending rfl)).tail
      (.returned rfl (List.cons_ne_nil _ _) rfl)).tail (.deferred rfl)).tail (.enter rfl rfl)
  exact ⟨_, hreach, rfl, deferred_calls_sound emptyHeap plainRequest deferOnce _ hreach⟩

end Execution
end Argennon
