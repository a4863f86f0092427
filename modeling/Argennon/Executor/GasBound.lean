import Argennon.Executor.ExecuteOne
import Argennon.Executor.RunRule
import Mathlib.Algebra.Order.BigOperators.Group.List

/- The gas of the calls of a request.

   The potential of a session is three times the gas that its current call may still
   give away. An invocation pays for its own gas and for the potential it starts with:
   the call gets `g`, its callees together `2 * g / 3`, and `g + 3 * (2 * g / 3) ≤ 3 * g`.
   So no step of a run raises the gas given so far plus the potential. -/
namespace Argennon

/-- The gas that the current call may still give. -/
def Session.remainingGas (s : Session) : Int :=
  match s.currentResources with
  | .live handler => handler.remainingExternalGas
  | .dangling => 0

/-- The gas given to all these invocations. -/
def totalGas (l : List Invocation) : Int := (l.map (·.gas)).sum

/-- An invocation whose gas is what the source computes, with every number non-negative
and at most `budget`. -/
structure Invocation.Sound (budget : Int) (i : Invocation) : Prop where
  forwarded : i.forwardedGas < 256
  gas_eq : i.gas = i.callerGas * i.forwardedGas / 2 ^ 8
  min : 2 ≤ i.gas
  rest : i.remainingCallerGas = i.callerGas - i.gas
  rest_nonneg : 0 ≤ i.remainingCallerGas
  external_nonneg : 0 ≤ calculateExternalGas i.gas
  budget : i.callerGas ≤ budget

/-- What a step does to the gas: it may add invocations, and pays for them. -/
structure GasStep (s s' : Session) : Prop where
  paid : 0 ≤ s.remainingGas → 0 ≤ s'.remainingGas ∧ ∃ new, s'.invocations = new ++ s.invocations ∧
    (∀ i ∈ new, i.Sound s.remainingGas) ∧ totalGas new + 3 * s'.remainingGas ≤ 3 * s.remainingGas

theorem totalGas_append (l l' : List Invocation) :
    totalGas (l ++ l') = totalGas l + totalGas l' := by
  simp [totalGas]

theorem totalGas_nonneg {budget : Int} {l : List Invocation} (h : ∀ i ∈ l, i.Sound budget) :
    0 ≤ totalGas l := by
  apply List.sum_nonneg
  intro g hg
  obtain ⟨i, hi, rfl⟩ := List.mem_map.mp hg
  have := (h i hi).min
  omega

theorem Invocation.Sound.mono {budget budget' : Int} {i : Invocation} (h : i.Sound budget)
    (hle : budget ≤ budget') :
    i.Sound budget' :=
  ⟨h.forwarded, h.gas_eq, h.min, h.rest, h.rest_nonneg, h.external_nonneg, h.budget.trans hle⟩

/-- A step that leaves the gas and the invocations alone. -/
theorem GasStep.of_same {s s' : Session} (hgas : s'.remainingGas = s.remainingGas)
    (hinv : s'.invocations = s.invocations) : GasStep s s' := by
  refine ⟨fun h => ⟨hgas ▸ h, [], hinv, by simp, ?_⟩⟩
  simp [totalGas, hgas]

/-- A step that only lowers the gas. -/
theorem gasStep_stepRel : StepRel GasStep where
  refl s := .of_same rfl rfl
  trans {s t u} h₁ h₂ := by
    refine ⟨fun h => ?_⟩
    obtain ⟨ht, new₁, hinv₁, hsound₁, hpaid₁⟩ := h₁.paid h
    obtain ⟨hu, new₂, hinv₂, hsound₂, hpaid₂⟩ := h₂.paid ht
    have hle : t.remainingGas ≤ s.remainingGas := by
      have := totalGas_nonneg hsound₁
      omega
    refine ⟨hu, new₂ ++ new₁, ?_, ?_, ?_⟩
    · rw [hinv₂, hinv₁, List.append_assoc]
    · intro i hi
      obtain hi | hi := List.mem_append.mp hi
      · exact (hsound₂ i hi).mono hle
      · exact hsound₁ i hi
    · rw [totalGas_append]
      omega

/-! ## The arithmetic of one call -/

theorem calculateExternalGas_bounds (gas : Int) (h : 0 ≤ gas) :
    0 ≤ calculateExternalGas gas ∧ 3 * calculateExternalGas gas ≤ 2 * gas := by
  have hdiv : calculateExternalGas gas = 2 * gas / 3 := Int.tdiv_eq_ediv_of_nonneg (by omega)
  omega

/-- A byte is a fraction: no call takes more than the caller has. -/
theorem forwardedGasOf_le {handler : CallResourceHandler} (forwardedGas : Byte)
    (h : 0 ≤ handler.remainingExternalGas) :
    forwardedGasOf handler forwardedGas ≤ handler.remainingExternalGas := by
  have hbyte := forwardedGas.toNat_lt
  have hprod : handler.remainingExternalGas * forwardedGas.toNat ≤
      handler.remainingExternalGas * 256 :=
    Int.mul_le_mul_of_nonneg_left (by omega) h
  unfold forwardedGasOf
  omega

/-- What the record of a new call says, of a caller that has gas. -/
theorem invocationOf_sound {prev : CallResourceHandler} {forwardedGas : Byte} (s : Session)
    (h : 0 ≤ prev.remainingExternalGas) (hmin : ¬forwardedGasOf prev forwardedGas ≤ minClocks) :
    (invocationOf prev forwardedGas s).Sound prev.remainingExternalGas := by
  have hle := forwardedGasOf_le forwardedGas h
  unfold minClocks at hmin
  exact
    { forwarded := forwardedGas.toNat_lt
      gas_eq := rfl
      min := by simp only [invocationOf]; omega
      rest := rfl
      rest_nonneg := by simp only [invocationOf, chargedFor]; omega
      external_nonneg := (calculateExternalGas_bounds _ (by simp only [invocationOf]; omega)).1
      budget := Int.le_refl _ }

/-! ## The steps of a run -/

theorem LibStep.gasStep {s s' : Session} (h : LibStep s s') : GasStep s s' := by
  apply GasStep.of_same
  · simp only [Session.remainingGas, h.currentResources]
  · exact h.invocations

/-- The callee starts with the external gas of its call. -/
theorem gasStep_calleeSession {s : Session} {prev : CallResourceHandler} {forwardedGas : Byte}
    (hlive : s.currentResources = .live prev) (hmin : ¬forwardedGasOf prev forwardedGas ≤ minClocks)
    {t : Session} (hinv : t.invocations = (takeGas prev forwardedGas s).invocations)
    (hrem : t.remainingGas = 0 ∨
      t.remainingGas = calculateExternalGas (forwardedGasOf prev forwardedGas)) :
    GasStep s t := by
  refine ⟨fun h => ?_⟩
  have hs : s.remainingGas = prev.remainingExternalGas := by simp [Session.remainingGas, hlive]
  rw [hs] at h ⊢
  have hle := forwardedGasOf_le forwardedGas h
  unfold minClocks at hmin
  have hexternal := calculateExternalGas_bounds (forwardedGasOf prev forwardedGas) (by omega)
  refine ⟨by omega, [invocationOf prev forwardedGas s], hinv, ?_, ?_⟩
  · intro i hi
    obtain rfl := List.mem_singleton.mp hi
    exact invocationOf_sound s h hmin
  · have htotal : totalGas [invocationOf prev forwardedGas s] =
        forwardedGasOf prev forwardedGas := by
      simp [totalGas, invocationOf]
    omega

/-- When the handler is destroyed the caller goes on with what it did not give, however
much of the callee's gas is left. -/
theorem gasStep_destroyHandler {s s' : Session} {prev : CallResourceHandler} {forwardedGas : Byte}
    (hlive : s.currentResources = .live prev) (hmin : ¬forwardedGasOf prev forwardedGas ≤ minClocks)
    (hcallee : GasStep (calleeSession prev forwardedGas s) s') (handler : CallResourceHandler)
    (completed : Bool) :
    GasStep s (destroyHandler (chargedFor prev forwardedGas) handler completed s').2 := by
  refine ⟨fun h => ?_⟩
  have hs : s.remainingGas = prev.remainingExternalGas := by simp [Session.remainingGas, hlive]
  rw [hs] at h ⊢
  have hle := forwardedGasOf_le forwardedGas h
  unfold minClocks at hmin
  -- the callee starts with two thirds of the gas, rounded down
  have hexternal := calculateExternalGas_bounds (forwardedGasOf prev forwardedGas) (by omega)
  have hstart : (calleeSession prev forwardedGas s).remainingGas =
      calculateExternalGas (forwardedGasOf prev forwardedGas) := rfl
  obtain ⟨hs', new, hinv, hsound, hpaid⟩ := hcallee.paid (hstart ▸ hexternal.1)
  rw [hstart] at hsound hpaid
  obtain ⟨version, -, hdestroy⟩ :=
    destroyHandler_snd (chargedFor prev forwardedGas) handler completed s'
  rw [hdestroy]
  refine ⟨?_, new ++ [invocationOf prev forwardedGas s], ?_, ?_, ?_⟩
  · change 0 ≤ prev.remainingExternalGas - forwardedGasOf prev forwardedGas
    omega
  · change s'.invocations = _
    rw [hinv, List.append_assoc]
    rfl
  · intro i hi
    obtain hi | hi := List.mem_append.mp hi
    · exact (hsound i hi).mono (by omega)
    · obtain rfl := List.mem_singleton.mp hi
      exact invocationOf_sound s h hmin
  · have htotal : totalGas [invocationOf prev forwardedGas s] =
        forwardedGasOf prev forwardedGas := by
      simp [totalGas, invocationOf]
    rw [totalGas_append, htotal]
    change _ + 3 * (prev.remainingExternalGas - forwardedGasOf prev forwardedGas) ≤ _
    omega

/-- A controlled call, for a thread that keeps the step. -/
theorem gasStep_controlled (forwardedGas : Byte) (appID : LongID) {app : ArgC Ending}
    {deferred : ArgC Unit}
    (h : ∀ s, GasStep s (dependantCall appID app deferred s).2) (s : Session) :
    GasStep s (ControlledCaller.executeApp forwardedGas appID app deferred s).2 := by
  unfold ControlledCaller.executeApp
  obtain ⟨-, hnew⟩ | ⟨prev, hlive, ⟨-, hnew⟩ | ⟨hmin, -, hnew⟩ | ⟨hmin, -, hnew⟩⟩ :=
    newHandler_cases forwardedGas s
  · rw [hnew]
    exact gasStep_stepRel.refl s
  · rw [hnew]
    simp only [reportError_snd]
    exact gasStep_stepRel.refl s
  · rw [hnew]
    simp only [reportError_snd]
    exact gasStep_calleeSession hlive hmin rfl (.inl rfl)
  · rw [hnew]
    simp only
    have hstart : GasStep s (calleeSession prev forwardedGas s) :=
      gasStep_calleeSession hlive hmin rfl (.inr rfl)
    have hthread := h (calleeSession prev forwardedGas s)
    obtain hend | ⟨completed, s', hs', hend⟩ := callWithResources_cases appID app deferred
      (chargedFor prev forwardedGas) (handlerFor prev forwardedGas s)
        (calleeSession prev forwardedGas s)
    · rw [hend]
      exact gasStep_stepRel.trans hstart hthread
    · rw [hend]
      apply gasStep_destroyHandler hlive hmin
      obtain rfl | rfl := hs'
      · exact gasStep_stepRel.refl _
      · exact hthread

theorem gasStep_optimistic (appID : LongID) {app : ArgC Ending} {deferred : ArgC Unit}
    (h : ∀ s, GasStep s (dependantCall appID app deferred s).2) (s : Session) :
    GasStep s (OptimisticCaller.executeApp appID app deferred s).2 := by
  obtain hsame | ⟨-, m, s', -, rfl, hend⟩ := optimistic_cases appID app deferred s
  · rw [hsame]
    exact gasStep_stepRel.refl s
  · have hsave : GasStep s { s with heapModifier := m } := .of_same rfl rfl
    have hcall := gasStep_stepRel.trans hsave (h _)
    obtain hend | ⟨completed, hend⟩ := hend
    · rw [hend]
      exact hcall
    · obtain ⟨version, -, hversion⟩ :=
        endVersion_snd s.currentCall.appID s.heapModifier.currentVersion completed
        (dependantCall appID app deferred { s with heapModifier := m }).2
      rw [hend, hversion]
      exact gasStep_stepRel.trans hcall (GasStep.of_same rfl rfl)

theorem gasRule : RunRule (fun _ => True) GasStep where
  rel := gasStep_stepRel
  lib := LibStep.gasStep
  outOfRange _ := trivial
  context appID body h := by
    intro s _
    obtain hself | ⟨hleave, -⟩ := withContext_snd appID body s
    · rw [hself]
      exact gasStep_stepRel.refl s
    · rw [hleave]
      have henter : GasStep s (s.entered appID) := .of_same rfl rfl
      have hbody := h (s.entered appID) fun _ _ => trivial
      have hexit := (ArgC.sameContext_exitArea (body (s.entered appID)).2).libStep.gasStep
      apply gasStep_stepRel.trans (gasStep_stepRel.trans henter hbody)
      exact gasStep_stepRel.trans hexit (.of_same rfl rfl)
  call forwardedGas appID app deferred h := by
    have hall : ∀ s, GasStep s (dependantCall appID app deferred s).2 :=
      fun s => h s fun _ _ => trivial
    intro s _
    unfold callApp
    cases s.callManager with
    | controlled => exact gasStep_controlled forwardedGas appID hall s
    | optimistic => exact gasStep_optimistic appID hall s

/-! ## The bound -/

/-- The CPU time granted to the invocations, in nanoseconds. -/
def totalExecTime (f : FailureManager) (l : List Invocation) : Int :=
  (l.map fun i => f.getExecTime i.id i.gas).sum

/-- The values of an `int64`. -/
def IsInt64 (i : Int) : Prop := -2 ^ 63 ≤ i ∧ i < 2 ^ 63

theorem getExecTime_le (f : FailureManager) (id : Nat) (gas : Int) (h : 0 ≤ gas) :
    0 ≤ f.getExecTime id gas ∧ f.getExecTime id gas ≤ 300000 * gas := by
  unfold FailureManager.getExecTime
  split <;> omega

theorem totalExecTime_le (f : FailureManager) {l : List Invocation} (h : ∀ i ∈ l, 2 ≤ i.gas) :
    0 ≤ totalExecTime f l ∧ totalExecTime f l ≤ 300000 * totalGas l := by
  induction l with
  | nil => simp [totalExecTime, totalGas]
  | cons i l ih =>
    have hi := h i List.mem_cons_self
    have hl := ih fun j hj => h j (List.mem_cons_of_mem _ hj)
    have hone := getExecTime_le f i.id i.gas (by omega)
    simp only [totalExecTime, totalGas, List.map_cons, List.sum_cons] at hl ⊢
    omega

/-- Every number that the source computes from the gas of an invocation: the product
before the shift, the caller's gas before and after, its double, its external gas, the
time. -/
structure Invocation.InRange (f : FailureManager) (i : Invocation) : Prop where
  product : IsInt64 (i.callerGas * i.forwardedGas)
  caller : 0 ≤ i.callerGas ∧ IsInt64 i.callerGas
  rest : 0 ≤ i.remainingCallerGas ∧ IsInt64 i.remainingCallerGas
  double : IsInt64 (2 * i.gas)
  external : 0 ≤ calculateExternalGas i.gas ∧ IsInt64 (calculateExternalGas i.gas)
  time : IsInt64 (f.getExecTime i.id i.gas)

theorem Invocation.Sound.inRange {budget : Int} {i : Invocation} (h : i.Sound budget)
    (hbudget : budget < 2 ^ 31)
    (f : FailureManager) : i.InRange f := by
  have hmin := h.min
  have hrest := h.rest
  have hnonneg := h.rest_nonneg
  have hle := h.budget
  have hforwarded := h.forwarded
  have hexternal := calculateExternalGas_bounds i.gas (by omega)
  have htime := getExecTime_le f i.id i.gas (by omega)
  have hproduct : i.callerGas * i.forwardedGas ≤ i.callerGas * 256 :=
    Int.mul_le_mul_of_nonneg_left (by omega) (by omega)
  have hproduct' : 0 ≤ i.callerGas * i.forwardedGas := Int.mul_nonneg (by omega) (by omega)
  constructor <;> unfold IsInt64 <;> omega

/-- The CPU time that a budget of clocks pays for fits in 64 bits. -/
theorem maxTime_inRange {maxClocks : Int} (h : 0 ≤ maxClocks) (hlt : maxClocks < 2 ^ 31) :
    IsInt64 (3 * maxClocks * 300000) := by
  unfold IsInt64
  omega

/-- **Bounded gas.** In every call tree under controlled execution, however it ends, every
invocation gets at least 2, all numbers are in range and no remaining gas is negative, and
all invocations together get at most `3 * maxClocks` and the time for that. -/
theorem callRoot_gas_bounded (heap : Heap) (req : AppRequest) (run : Run)
    (hcontrolled : req.useControlledExecution)
    (hmax : 0 ≤ req.maxClocks) (hlt : req.maxClocks < 2 ^ 31) (f : FailureManager) :
    (∀ i ∈ (req.callRoot heap run).2.invocations, 2 ≤ i.gas ∧ i.InRange f) ∧
    0 ≤ (req.callRoot heap run).2.remainingGas ∧
    totalGas (req.callRoot heap run).2.invocations ≤ 3 * req.maxClocks ∧
    totalExecTime f (req.callRoot heap run).2.invocations ≤ 3 * req.maxClocks * 300000 ∧
    IsInt64 (3 * req.maxClocks * 300000) := by
  have hroot : req.rootSession.remainingGas = req.maxClocks := by
    simp [Session.remainingGas, AppRequest.rootSession, AppRequest.rootResources, hcontrolled]
  have hstep : GasStep req.rootSession (req.callRoot heap run).2 :=
    gasRule.keeps_execute heap 255 req.calledAppID run req.rootSession fun _ _ => trivial
  obtain ⟨hnonneg, new, hinv, hsound, hpaid⟩ := hstep.paid (hroot ▸ hmax)
  have hempty : req.rootSession.invocations = [] := rfl
  rw [hempty, List.append_nil] at hinv
  rw [hroot] at hsound hpaid
  rw [hinv]
  have htotal : totalGas new ≤ 3 * req.maxClocks := by omega
  have htime := totalExecTime_le f fun i hi => (hsound i hi).min
  refine ⟨fun i hi => ⟨(hsound i hi).min, (hsound i hi).inRange hlt f⟩, hnonneg, htotal, ?_,
    maxTime_inRange hmax hlt⟩
  omega

/-- An application that gives half of its gas to another one, which gives all of its own
back to the first. -/
def halfRun : Run :=
  .invoke 128 2 (.invoke 255 1 (.ending (.returned 200)) (.ending (.returned 200)))
    (.ending (.returned 200))

/-- The calls get 996, 332 and 220 of the 1000 clocks. -/
theorem callRoot_gas_bounded_half :
    ((plainRequest.callRoot emptyHeap halfRun).2.invocations.map (·.gas) = [220, 332, 996]) ∧
    totalGas (plainRequest.callRoot emptyHeap halfRun).2.invocations ≤ 3 * 1000 :=
  ⟨by decide +kernel,
    (callRoot_gas_bounded emptyHeap plainRequest halfRun rfl (by decide) (by decide) {}).2.2.1⟩

end Argennon
