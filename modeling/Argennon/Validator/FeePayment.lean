import Argennon.Executor.SessionRestore
import Argennon.Validator.ExecDagStuck

/- Requests that pay the fees of others: those with attachments. `executeApp` completes a
   call that returns less than 400, and undoes every other one; `submitResult` rejects a request
   with attachments whose status code is greater than 400. The two differ on 400, the status
   code of `revert`. -/
namespace Argennon

/-! ## Calls that are undone -/

theorem callDispatcher_ok_lt {app : ArgC Ending} {s : Session} {ret : Int}
    (h : (callDispatcher app s).1 = .ok ret) :
    ret < 400 := by
  unfold callDispatcher at h
  split at h
  · cases h
  · cases h
  · cases h
  · split at h <;> cases h
  · split at h
    · cases h
    · cases h
      omega

theorem callInContext_ok_lt {app : ArgC Ending} {deferred : ArgC Unit} {s : Session} {ret : Int}
    (h : (callInContext app deferred s).1 = .ok ret) : ret < 400 := by
  unfold callInContext at h
  cases hcall : callDispatcher app s with
  | mk r s₁ =>
    cases r with
    | error e =>
      rw [ArgC.bind_of_error hcall] at h
      cases h
    | ok ret' =>
      have hlt := callDispatcher_ok_lt (congrArg Prod.fst hcall)
      have hexit : exitArea s₁ = (.ok (), ArgC.exitArea s₁) := rfl
      rw [ArgC.bind_of_ok hcall, ArgC.bind_of_ok hexit] at h
      cases hdeferred : deferred (ArgC.exitArea s₁) with
      | mk r s₂ =>
        cases r with
        | error e =>
          rw [ArgC.bind_of_error hdeferred] at h
          cases h
        | ok u =>
          rw [ArgC.bind_of_ok hdeferred] at h
          cases h
          exact hlt

/-- A call that ends without an error returns less than 400. -/
theorem dependantCall_ok_lt {appID : LongID} {app : ArgC Ending} {deferred : ArgC Unit}
    {s : Session} {ret : Int}
    (h : (dependantCall appID app deferred s).1 = .ok ret) : ret < 400 := by
  unfold dependantCall at h
  obtain hcheck | ⟨e, hcheck⟩ := checkApp_cases appID s
  · rw [ArgC.bind_of_ok hcheck] at h
    unfold withContext at h
    split at h
    · cases h
    · exact callInContext_ok_lt h
  · rw [ArgC.bind_of_error hcheck] at h
    cases h

/-- A reported error is a status code of 400 or more, and changes nothing. -/
theorem reportError_eq_ok {msg : String} {code : StatusCode} {app : LongID}
    {s s' : Session} {ret : Int}
    (h : reportError msg code app s = (.ok ret, s')) : s' = s ∧ 400 ≤ ret :=
  ⟨by rw [← reportError_snd msg code app s, h], reportError_ok (congrArg Prod.fst h)⟩

section
variable {heap : Heap} {forwardedGas : Byte} {appID : LongID} {run : Run}
  {s s' : Session} {ret : Int}

theorem controlled_version_iff
    (h : ControlledCaller.executeApp forwardedGas appID (run.app heap) (run.deferred heap) s =
      (.ok ret, s')) :
    s'.heapModifier.currentVersion = s.heapModifier.currentVersion ↔ 400 ≤ ret := by
  unfold ControlledCaller.executeApp at h
  obtain ⟨-, hnew⟩ | ⟨prev, hlive, ⟨-, hnew⟩ | ⟨-, -, hnew⟩ | ⟨-, -, hnew⟩⟩ :=
    newHandler_cases forwardedGas s
  · rw [hnew] at h
    cases (Prod.mk.inj h).1
  · -- too little gas
    rw [hnew] at h
    obtain ⟨rfl, hge⟩ := reportError_eq_ok h
    exact iff_of_true rfl hge
  · -- the version cannot be saved
    rw [hnew] at h
    obtain ⟨rfl, hge⟩ := reportError_eq_ok h
    exact iff_of_true rfl hge
  · rw [hnew] at h
    have hthrown : ∀ e, (callWithResources appID (run.app heap) (run.deferred heap)
        (chargedFor prev forwardedGas)
          (handlerFor prev forwardedGas s) (calleeSession prev forwardedGas s)).1 = .error e →
            e.IsThrown := by
      intro e he
      rw [show callWithResources appID (run.app heap) (run.deferred heap)
        (chargedFor prev forwardedGas)
        (handlerFor prev forwardedGas s) (calleeSession prev forwardedGas s) =
          (.ok ret, s') from h] at he
      cases he
    obtain ⟨completed, t, hran, hdestroy, hret⟩ := callWithResources_thrown hthrown
    have hcompleted := hret ret (congrArg Prod.fst h)
    have hle := (hran.callStep (callRule.keeps_dependantRun heap appID run)).version_le
    have hstate := endVersion_ok hdestroy
    rw [show (callWithResources appID (run.app heap) (run.deferred heap)
      (chargedFor prev forwardedGas)
      (handlerFor prev forwardedGas s) (calleeSession prev forwardedGas s)).2 =
        s' from congrArg Prod.snd h] at hstate
    rw [hstate]
    have hcallee : (calleeSession prev forwardedGas s).heapModifier.currentVersion =
        s.heapModifier.currentVersion + 1 := rfl
    cases completed with
    | true =>
      have hlt : ret < 400 := hcompleted.mp rfl
      refine iff_of_false (fun hsame => ?_) (by omega)
      have hsame : t.heapModifier.currentVersion = s.heapModifier.currentVersion := hsame
      omega
    | false =>
      have hge : ¬ ret < 400 := fun hlt => nomatch hcompleted.mpr hlt
      exact iff_of_true rfl (by omega)

theorem optimistic_version_iff
    (h : OptimisticCaller.executeApp appID (run.app heap) (run.deferred heap) s = (.ok ret, s')) :
    s'.heapModifier.currentVersion = s.heapModifier.currentVersion ↔ 400 ≤ ret := by
  unfold OptimisticCaller.executeApp RestrictedModifier.saveVersion at h
  by_cases hversion : s.heapModifier.currentVersion = maxVersion
  · simp only [hversion, if_true] at h
    cases (Prod.mk.inj h).1
  simp only [hversion, if_false] at h
  have hkeeps := callRule.keeps_dependantRun heap appID run
    { s with
      heapModifier := { s.heapModifier with currentVersion := s.heapModifier.currentVersion + 1 } }
  generalize hcall : dependantCall appID (run.app heap) (run.deferred heap) _ = r at h hkeeps
  obtain ⟨e | code, t⟩ := r
  · simp only at h
    split at h
    · cases hend : endVersion s.currentCall.appID s.heapModifier.currentVersion false t with
      | mk r t' =>
        cases r with
        | error e =>
          rw [ArgC.bind_of_error hend] at h
          cases (Prod.mk.inj h).1
        | ok u =>
          rw [ArgC.bind_of_ok hend] at h
          cases (Prod.mk.inj h).1
    · cases (Prod.mk.inj h).1
  · have hlt : code < 400 := dependantCall_ok_lt (congrArg Prod.fst hcall)
    have hle := (hkeeps fun e he => nomatch he).version_le
    simp only at h
    have hend : endVersion s.currentCall.appID s.heapModifier.currentVersion (code < 400) t =
        (.ok (), { t with heapModifier := t.heapModifier.loadContext s.currentCall.appID }) := by
      rw [decide_eq_true hlt]
      rfl
    rw [ArgC.bind_of_ok hend] at h
    obtain ⟨hcode, rfl⟩ := Prod.mk.inj h
    obtain rfl := Except.ok.inj hcode
    refine iff_of_false (fun hsame => ?_) (by omega)
    have hsame : t.heapModifier.currentVersion = s.heapModifier.currentVersion := hsame
    simp only at hle
    omega

/-- A call that returns is undone exactly if it returns 400 or more. -/
theorem execute_version_iff (h : run.execute heap forwardedGas appID s = (.ok ret, s')) :
    s'.heapModifier.currentVersion = s.heapModifier.currentVersion ↔ 400 ≤ ret := by
  unfold Run.execute callApp at h
  cases hmanager : s.callManager with
  | controlled =>
    rw [hmanager] at h
    exact controlled_version_iff h
  | optimistic =>
    rw [hmanager] at h
    exact optimistic_version_iff h

end

namespace AppRequest

/-- The effects of the request are undone: what is written back is the version of
before its root call. -/
def RolledBack (heap : Heap) (req : AppRequest) (run : Run) : Prop :=
  ∃ statusCode s, req.callRoot heap run = (.ok statusCode, s) ∧
    s.heapModifier.currentVersion = req.modifier.currentVersion

end AppRequest

/-- `executeOne` as the workers of a block call it: every request meets a heap, and makes a run. -/
def blockExecutor (heapOf : AppRequest → Heap) (runOf : AppRequest → Run) (req : AppRequest) :
    Except Exn Int :=
  (executeOne (heapOf req) req (runOf req)).map Prod.fst

section
variable {heapOf : AppRequest → Heap} {runOf : AppRequest → Run}

/-- What the executor undoes, by the status code it gives to `submitResult`. -/
theorem rolledBack_iff {req : AppRequest} {statusCode : Int}
    (h : blockExecutor heapOf runOf req = .ok statusCode) :
    req.RolledBack (heapOf req) (runOf req) ↔ 400 ≤ statusCode := by
  unfold blockExecutor executeOne at h
  cases hcall : req.callRoot (heapOf req) (runOf req) with
  | mk r s =>
    cases r with
    | error e =>
      rw [hcall] at h
      cases e <;> cases h
    | ok ret =>
      have hret : ret = statusCode := by
        rw [hcall] at h
        simp only at h
        cases hwrite : s.heapModifier.writeToHeap (heapOf req) with
        | error e =>
          rw [hwrite] at h
          cases e <;> cases h
        | ok heap =>
          rw [hwrite] at h
          exact Except.ok.inj h
      subst hret
      have hroot : req.rootSession.heapModifier.currentVersion = req.modifier.currentVersion := rfl
      rw [← execute_version_iff hcall, hroot]
      unfold AppRequest.RolledBack
      rw [hcall]
      refine ⟨fun ⟨statusCode, s', hs', hversion⟩ => ?_, fun hversion => ⟨ret, s, rfl, hversion⟩⟩
      obtain ⟨-, rfl⟩ := Prod.mk.inj hs'
      exact hversion

end

/-! ## The steps in which a request was executed -/

namespace BlockRun

section
variable {requests : BlockRequests} {executeOne : AppRequest → Except Exn Int} {k : Nat}
  {s t : BlockRun}

theorem mem_executed_record {w w' : Worker} {v : Nat} (h : v ∈ (s.record w w').executed) :
    v ∈ s.executed ∨ w = .executing v := by
  cases w with
  | executing id =>
    have h : v ∈ id :: s.executed := by cases w' <;> exact h
    obtain rfl | h := List.mem_cons.mp h
    · exact .inr rfl
    · exact .inl h
  | submitting id statusCode => cases w' <;> exact .inl h
  | _ => exact .inl h

theorem mem_record_executed (w w' : Worker) {v : Nat} (h : v ∈ s.executed) :
    v ∈ (s.record w w').executed := by
  cases w with
  | executing id => cases w' <;> exact List.mem_cons_of_mem _ h
  | submitting id statusCode => cases w' <;> exact h
  | _ => exact h

theorem executed_mono (hrun : Reaches executeOne s t) {v : Nat} (hv : v ∈ s.executed) :
    v ∈ t.executed := by
  induction hrun with
  | refl => exact hv
  | tail _ hstep ih =>
    obtain ⟨i, hi⟩ := hstep
    obtain ⟨w, w', scheduler, ws, -, -, rfl, -⟩ := step_parts hi
    exact mem_record_executed w w' ih

theorem step_executing {sched sched' : RequestScheduler} {w' : Worker} {v : Nat}
    (h : (Worker.executing v).step executeOne sched = some (w', sched')) :
    (∃ statusCode, w' = .submitting v statusCode) ∨ ∃ e, w' = .failed v e := by
  simp only [Worker.step] at h
  split at h
  · cases h
    exact .inr ⟨_, rfl⟩
  · split at h
    · cases h
      exact .inr ⟨_, rfl⟩
    · cases h
      exact .inl ⟨_, rfl⟩

/-- A request that was executed, and accepted, was about to be submitted in some
state of the run. -/
theorem exists_submitting (hwf : requests.WellFormed) (hk : k ≤ requests.length)
    (h : Sound requests executeOne k s)
    (hnew : s.executed = []) (hrun : Reaches executeOne s t) {v : Nat} (hv : v ∈ t.executed)
    (haccepted : Accepted requests executeOne v) :
    ∃ u statusCode, Reaches executeOne s u ∧ Reaches executeOne u t ∧
      .submitting v statusCode ∈ u.workers := by
  induction hrun with
  | refl =>
    rw [hnew] at hv
    cases hv
  | @tail t t' hrun hstep ih =>
    by_cases hbefore : v ∈ t.executed
    · obtain ⟨u, statusCode, hu, hut, hmem⟩ := ih hbefore
      exact ⟨u, statusCode, hu, hut.tail hstep, hmem⟩
    · have hrun' := hrun.tail hstep
      have hsound := h.reaches hwf hk hrun'
      obtain ⟨i, hi⟩ := hstep
      obtain ⟨w, w', scheduler, ws, -, hmove, rfl, -, hpool'⟩ := step_parts hi
      have hmem : w' ∈ t.workers.set i w' := by
        rw [← Multiset.mem_coe, hpool']
        exact Multiset.mem_cons_self w' ws
      obtain rfl := (mem_executed_record hv).resolve_left hbefore
      obtain ⟨statusCode, rfl⟩ | ⟨e, rfl⟩ := step_executing hmove
      · exact ⟨_, statusCode, hrun', .refl, hmem⟩
      · exact absurd haccepted (hsound.knows _ hmem).not_accepted

/-- A run that returns normally has submitted every request that it has executed. -/
theorem Sound.completed_of_result (h : Sound requests executeOne k s) (hfinished : s.Finished)
    (hresult : s.result = .ok s.responseList) {v : Nat} (hv : v ∈ s.executed) :
    v ∈ s.completed := by
  have hget : forEach Worker.get s.workers = .ok () := by
    unfold result at hresult
    cases hget : forEach Worker.get s.workers with
    | error e =>
      rw [hget] at hresult
      cases hresult
    | ok u => rfl
  rw [← Multiset.mem_coe, h.executed] at hv
  obtain hv | hv := Multiset.mem_add.mp hv
  · obtain ⟨w, hw, hwv⟩ := (Multiset.mem_filterMap _ _).mp hv
    have hw : w ∈ s.workers := Multiset.mem_coe.mp hw
    have hleft := hfinished w hw
    have hok := forEach_ok.mp hget w hw
    cases w with
    | failed id e => cases hok
    | returned => cases hwv
    | thrown e => cases hwv
    | _ => exact hleft.elim
  · exact hv

end

/-- **Failed fee payments.** In a run that returns normally no request with attachments was rolled
back, exactly if in no state of the run such a request is submitted with the status code 400. -/
theorem feePayments_kept_iff {requests : BlockRequests} {heapOf : AppRequest → Heap}
    {runOf : AppRequest → Run}
    (hwf : requests.WellFormed) {ids : List Nat} (hids : ids.Perm (List.range requests.length))
    {finalized built : RequestScheduler}
    (hfinalized : (RequestScheduler.loaded requests).finalizeRequests ids = .ok finalized)
    (hbuilt : finalized.buildExecDag = .ok built) {workersCount : Nat} {s : BlockRun}
    (hrun : Reaches (blockExecutor heapOf runOf) (start built workersCount) s)
    (hfinished : s.Finished)
    (hresult : s.result = .ok s.responseList) :
    (∀ v r, requests[v]? = some r → v ∈ s.executed → r.1.attachments ≠ [] →
      ¬ r.1.RolledBack (heapOf r.1) (runOf r.1)) ↔
    ∀ t, Reaches (blockExecutor heapOf runOf) (start built workersCount) t →
      Reaches (blockExecutor heapOf runOf) t s →
      ∀ v r, requests[v]? = some r → .submitting v 400 ∈ t.workers → r.1.attachments = [] := by
  obtain ⟨finalized', hfinalized', hloaded⟩ := RequestScheduler.loaded_finalizes hwf hids
  obtain rfl := Except.ok.inj (hfinalized.symm.trans hfinalized')
  obtain ⟨k, hk, ⟨-, hbuild⟩ | ⟨-, hbuild⟩⟩ := RequestScheduler.buildExecDag_cases hids hloaded
  · rw [hbuild] at hbuilt
    cases hbuilt
  obtain rfl := Except.ok.inj (hbuild.symm.trans hbuilt)
  have hstart := Sound.start (blockExecutor heapOf runOf) hwf hids hloaded hk workersCount
  constructor
  · intro hkept t hst hts v r hr hsubmitting
    by_contra hattached
    have hsound := hstart.reaches hwf hk.le hst
    obtain ⟨r', hr', hexec⟩ := hsound.knows _ hsubmitting
    obtain rfl := Option.some.inj (hr.symm.trans hr')
    have hexecuted : v ∈ t.executed := by
      rw [← Multiset.mem_coe, hsound.executed]
      exact Multiset.mem_add.mpr (.inl ((Multiset.mem_filterMap _ _).mpr ⟨_, hsubmitting, rfl⟩))
    exact hkept v r hr (executed_mono hts hexecuted) hattached
      ((rolledBack_iff hexec).mpr (Int.le_refl _))
  · intro hnone v r hr hv hattached hrolled
    have hsound := hstart.reaches hwf hk.le hrun
    have haccepted := hsound.accepted v (hsound.completed_of_result hfinished hresult hv)
    obtain ⟨t, code, hst, hts, hsubmitting⟩ :=
      exists_submitting hwf hk.le hstart rfl hrun hv haccepted
    obtain ⟨r', statusCode, hr', hexec, hfee⟩ := haccepted
    obtain rfl := Option.some.inj (hr.symm.trans hr')
    obtain ⟨r', hr', hexec'⟩ := (hstart.reaches hwf hk.le hst).knows _ hsubmitting
    obtain rfl := Option.some.inj (hr.symm.trans hr')
    obtain rfl := Except.ok.inj (hexec.symm.trans hexec')
    have hge := (rolledBack_iff hexec).mp hrolled
    obtain rfl : statusCode = 400 := by
      by_contra hne
      exact hfee ⟨by omega, hattached⟩
    exact hattached (hnone t hst hts v r hr hsubmitting)

/-- The payment of the fee of the request 0. -/
def feeRequest : AppRequest := { plainRequest with id := 1, attachments := [0] }

/-- A request, and the payment of its fee. -/
def feeBlock : BlockRequests := BlockRequests.unordered [plainRequest, feeRequest]

/-- The runs of `feeBlock`: the payment makes `payment`. -/
def feeRun (payment : Run) (req : AppRequest) : Run :=
  if req.id = 1 then payment else .ending (.returned 200)

/-- The execution of `feeBlock` over an empty heap. -/
abbrev feeExecutor (payment : Run) : AppRequest → Except Exn Int :=
  blockExecutor (fun _ => emptyHeap) (feeRun payment)

theorem exists_feeBlock_run {payment : Run} {statusCode : Int}
    (h : feeExecutor payment feeRequest = .ok statusCode)
    (hle : statusCode ≤ 400) :
    ∃ finalized built s, (RequestScheduler.loaded feeBlock).finalizeRequests [0, 1] =
      .ok finalized ∧
      finalized.buildExecDag = .ok built ∧ Reaches (feeExecutor payment)
        (start built 2) s ∧ s.Finished ∧
      (∀ v < 2, v ∈ s.executed) ∧ s.result = .ok s.responseList := by
  have hplain : (executeOne emptyHeap plainRequest (.ending (.returned 200))).map Prod.fst =
      .ok 200 := by decide +kernel
  have haccepted : ∀ v < feeBlock.length, Accepted feeBlock (feeExecutor payment) v := by
    intro v hv
    match v with
    | 0 => exact ⟨_, 200, rfl, hplain, fun hfee => absurd hfee.1 (by decide)⟩
    | 1 => exact ⟨_, statusCode, rfl, h, fun hfee => by omega⟩
    | _ + 2 => exact absurd hv (by simp [feeBlock, BlockRequests.unordered])
  have hne : feeBlock ≠ [] := List.cons_ne_nil _ _
  exact exists_normal_run BlockRequests.unordered_wellFormed hne
    (BlockRequests.unordered_executable (List.cons_ne_nil _ _)) Nat.two_pos haccepted

/-- A payment that succeeds. -/
theorem feePayments_kept_paid :
    let executor := feeExecutor (.ending (.returned 200))
    ∃ finalized built s, (RequestScheduler.loaded feeBlock).finalizeRequests [0, 1] =
      .ok finalized ∧
      finalized.buildExecDag = .ok built ∧
      ((∀ v r, feeBlock[v]? = some r → v ∈ s.executed → r.1.attachments ≠ [] →
        ¬ r.1.RolledBack emptyHeap (feeRun (.ending (.returned 200)) r.1)) ↔
      ∀ t, Reaches executor (start built 2) t → Reaches executor t s →
        ∀ v r, feeBlock[v]? = some r → .submitting v 400 ∈ t.workers → r.1.attachments = []) := by
  have hexec : feeExecutor (.ending (.returned 200)) feeRequest = .ok 200 := by decide +kernel
  obtain ⟨finalized, built, s, hfinalized, hbuilt, hrun, hfinished, -, hresult⟩ :=
    exists_feeBlock_run hexec (by decide)
  have hwf : feeBlock.WellFormed := BlockRequests.unordered_wellFormed
  have hids : [0, 1].Perm (List.range feeBlock.length) := List.Perm.refl _
  have hiff := feePayments_kept_iff hwf hids hfinalized hbuilt hrun hfinished hresult
  exact ⟨finalized, built, s, hfinalized, hbuilt, hiff⟩

/-- A payment that reverts: the run returns normally, and the payment is rolled back. -/
theorem reverted_feePayment_accepted :
    let payment : Run := .lib (.revert "no") (.ending (.returned 200))
    ∃ finalized built s, (RequestScheduler.loaded feeBlock).finalizeRequests [0, 1] =
      .ok finalized ∧
      finalized.buildExecDag = .ok built ∧ Reaches (feeExecutor payment) (start built 2) s ∧
      s.Finished ∧ s.result = .ok s.responseList ∧
      ∃ v r, feeBlock[v]? = some r ∧ v ∈ s.executed ∧ r.1.attachments ≠ [] ∧
        r.1.RolledBack emptyHeap (feeRun payment r.1) := by
  have hexec : feeExecutor (.lib (.revert "no") (.ending (.returned 200))) feeRequest =
      .ok 400 := by decide +kernel
  obtain ⟨finalized, built, s, hfinalized, hbuilt, hrun, hfinished, hexecuted, hresult⟩ :=
    exists_feeBlock_run hexec (Int.le_refl _)
  exact ⟨finalized, built, s, hfinalized, hbuilt, hrun, hfinished, hresult, 1, _, rfl,
    hexecuted 1 (by decide),
    List.cons_ne_nil _ _, (rolledBack_iff hexec).mpr (Int.le_refl _)⟩

end BlockRun
end Argennon
