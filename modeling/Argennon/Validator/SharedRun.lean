import Argennon.Validator.ExecDagCorrect
import Argennon.Validator.SerialExecution
import Mathlib.Logic.Hydra

/- The execution of a block by several workers that share the heap
   (`RequestProcessor::parallelExecuteRequests`, `validator/RequestProcessor.hpp`).

   A worker that executes a request gives it turns until it has ended, and the turns of the workers
   come in any order. The scheduler sees to it that a request has no turn before its ancestors in
   the graph have ended, so the turns wait for each other (`Coherent`). -/
namespace Argennon

open RestrictedModifier Interleaving RequestState DagTraversal

/-- The workers with the scheduler, and what the requests share. -/
structure SharedRun where
  block : BlockRun
  shared : Shared

namespace SharedRun

/-- The next step of the worker `i`: while it executes a request that has not ended,
a turn of the request. -/
def step (s : SharedRun) (i : Nat) : Option SharedRun :=
  match s.block.workers[i]? with
  | some (.executing id) =>
    match s.shared.2 id with
    | .ended result => (s.block.step (fun _ => result) i).map fun block => { s with block }
    | _ => some { s with shared := takeTurn id s.shared }
  | _ => (s.block.step (fun _ => .error .undefined) i).map fun block => { s with block }

/-- A step of some worker. -/
def Step (s t : SharedRun) : Prop := ∃ i, s.step i = some t

/-- The steps of a run. -/
abbrev Reaches : SharedRun → SharedRun → Prop := Relation.ReflTransGen Step

/-- No worker can make a step. -/
def Halted (s : SharedRun) : Prop := ∀ i, s.step i = none

/-- Before the first step. -/
def start (scheduler : RequestScheduler) (workersCount : Nat) (requests : PreparedRequests)
    (heap : Heap) : SharedRun :=
  { block := BlockRun.start scheduler workersCount, shared := Shared.start requests heap }

section
variable {s t : SharedRun} {i : Nat}

/-- A step is the turn of a request, or the step of a worker whose request, if it executes one,
has ended. -/
theorem step_cases (h : s.step i = some t) :
    (∃ id, s.block.workers[i]? = some (.executing id) ∧ ¬ Shared.Over id s.shared ∧
      t = { s with shared := takeTurn id s.shared }) ∨
      ∃ executeOne block, s.block.step executeOne i = some block ∧ t = { s with block } ∧
        ∀ id, s.block.workers[i]? = some (.executing id) → ∃ result, s.shared.2 id = .ended result ∧
          executeOne = fun _ => result := by
  unfold step at h
  split at h
  · rename_i id hworker
    split at h
    · rename_i result hresult
      obtain ⟨block, hblock, rfl⟩ := Option.map_eq_some_iff.mp h
      refine .inr ⟨fun _ => result, block, hblock, rfl, fun id' hid => ?_⟩
      obtain rfl := Worker.executing.inj (Option.some.inj (hworker.symm.trans hid))
      exact ⟨result, hresult, rfl⟩
    · rename_i hnot
      refine .inl ⟨id, hworker, fun hover => ?_, (Option.some.inj h).symm⟩
      obtain ⟨result, hresult⟩ := RequestState.Over.eq hover
      exact hnot result hresult
  · rename_i hnot
    obtain ⟨block, hblock, rfl⟩ := Option.map_eq_some_iff.mp h
    exact .inr ⟨_, block, hblock, rfl, fun id hid => absurd hid (hnot id)⟩

/-- A worker that executes a request can make a step. -/
theorem step_executing {id : Nat} (h : s.block.workers[i]? = some (.executing id)) :
    s.step i ≠ none := by
  unfold step
  rw [h]
  simp only
  split
  · rename_i result _
    rw [ne_eq, Option.map_eq_none_iff, BlockRun.step_eq_none_iff h, Worker.step]
    cases s.block.scheduler.nodeAt id with
    | error e => exact fun hnone => by cases hnone
    | ok node => cases result <;> exact fun hnone => by cases hnone
  · exact Option.some_ne_none _

end
end SharedRun

namespace BlockRun
variable {s t : BlockRun} {i : Nat} {executeOne executeOne' : AppRequest → Except Exn Int}

/-- A step depends on the execution of the request that the worker executes. -/
theorem step_congr (h : ∀ id node, s.workers[i]? = some (.executing id) →
    s.scheduler.nodeAt id = .ok node →
    executeOne node.request = executeOne' node.request) : s.step executeOne i =
      s.step executeOne' i := by
  unfold step
  cases hw : s.workers[i]? with
  | none => rfl
  | some w =>
    have hstep : w.step executeOne s.scheduler = w.step executeOne' s.scheduler := by
      cases w with
      | executing id =>
        rw [Worker.step, Worker.step]
        cases hnode : s.scheduler.nodeAt id with
        | error e => rfl
        | ok node => simp only [h id node hw hnode]
      | releasing id adjacent => cases adjacent <;> rfl
      | _ => rfl
    change (w.step executeOne s.scheduler >>= _) = (w.step executeOne' s.scheduler >>= _)
    rw [hstep]

/-- A request is executed by the worker that has it. -/
theorem executed_of_step (h : s.step executeOne i = some t) : t.executed = s.executed ∨
    ∃ id, s.workers[i]? = some (.executing id) ∧ t.executed = id :: s.executed := by
  obtain ⟨w, w', scheduler, ws, hw, -, rfl, -, -⟩ := step_parts h
  cases w with
  | executing id =>
    refine .inr ⟨id, hw, ?_⟩
    cases w' <;> rfl
  | submitting id statusCode =>
    left
    cases w' <;> rfl
  | _ => exact .inl rfl

/-- There is a place for the response of every request. -/
theorem length_responseList (hrun : Reaches executeOne s t) :
    t.responseList.length = s.responseList.length := by
  induction hrun with
  | refl => rfl
  | tail _ hstep ih =>
    obtain ⟨i, hi⟩ := hstep
    obtain ⟨w, w', scheduler, ws, -, -, rfl, -⟩ := step_parts hi
    refine Eq.trans ?_ ih
    cases w with
    | executing id =>
      cases w' with
      | submitting id' statusCode => exact List.length_set
      | _ => rfl
    | submitting id statusCode => cases w' <;> rfl
    | _ => rfl

/-- The futures of workers that have left throw nothing only if all have returned. -/
theorem returned_of_result {responses : List (Option Int)} (hfinished : s.Finished)
    (h : s.result = .ok responses) :
    (∀ w ∈ s.workers, w = .returned) ∧ responses = s.responseList := by
  unfold result at h
  cases hget : forEach Worker.get s.workers with
  | error e =>
    rw [hget] at h
    cases h
  | ok u =>
    rw [hget] at h
    refine ⟨fun w hw => ?_, (Except.ok.inj h).symm⟩
    have hok := forEach_ok.mp hget w hw
    have hleft := hfinished w hw
    cases w with
    | returned => rfl
    | thrown e => cases hok
    | failed id e => cases hok
    | _ => exact hleft.elim

section
variable {requests : BlockRequests} {k : Nat}

/-- When the workers have returned every request is executed, and accepted. -/
theorem Sound.all_accepted (hwf : requests.WellFormed) (hk : k ≤ requests.length)
    (h : Sound requests executeOne k s)
    (hne : s.workers ≠ []) (hreturned : ∀ w ∈ s.workers, w = .returned) :
    ∀ v < requests.length, v ∈ s.completed ∧ v ∈ s.executed ∧ Accepted requests executeOne v := by
  obtain ⟨w, hw⟩ := List.exists_mem_of_ne_nil _ hne
  obtain rfl := hreturned w hw
  have hzero : s.scheduler.remaining = 0 := h.knows _ hw
  have hlength := h.length_completed (h.drained hw rfl)
  intro v hv
  have hcompleted := h.all_completed hwf hk (by omega) v hv
  refine ⟨hcompleted, ?_, h.accepted v hcompleted⟩
  rw [← Multiset.mem_coe, h.executed]
  exact Multiset.mem_add.mpr (.inr hcompleted)

theorem Sound.executed_of_submitted (h : Sound requests executeOne k s) {v : Nat}
    (hv : v ∈ s.submitted) : v ∈ s.executed := by
  rw [← Multiset.mem_coe, h.submitted] at hv
  rw [← Multiset.mem_coe, h.executed]
  obtain hv | hv := Multiset.mem_add.mp hv
  · obtain ⟨w, hw, hwv⟩ := (Multiset.mem_filterMap _ _).mp hv
    refine Multiset.mem_add.mpr (.inl ((Multiset.mem_filterMap _ _).mpr ⟨w, hw, ?_⟩))
    cases w <;> first | exact hwv | cases hwv
  · exact Multiset.mem_add.mpr (.inr hv)

/-- The ancestors of a request that was ready are executed. -/
theorem Sound.ancestor_executed (h : Sound requests executeOne k s) {u v : Nat}
    (hv : v ∈ s.config.tokens)
    (hpath : Relation.TransGen requests.Edge u v) : u ∈ s.executed := by
  induction hpath with
  | single hedge =>
    exact h.executed_of_submitted (h.submitted_of_released (h.traversal.ready _ hv _ hedge))
  | tail _ hedge ih => exact ih (h.traversal.ready _ hv _ hedge).mem_tokens

theorem Sound.executing_lt (hwf : requests.WellFormed) (hk : k ≤ requests.length)
    (h : Sound requests executeOne k s)
    {id : Nat} (hw : .executing id ∈ s.workers) : id ∈ s.config.tokens ∧ id < requests.length := by
  have htoken : id ∈ s.config.tokens := mem_tokens_of_holds (mem_config_workers hw) rfl
  exact ⟨htoken, tokens_lt hwf (fun _ hx => Nat.lt_of_lt_of_le (List.mem_range.mp hx) hk)
    h.traversal htoken⟩

/-- The node of the request that a worker executes. -/
theorem Sound.node_of_executing (h : Sound requests executeOne k s) {id : Nat} {node : DagNode}
    (hw : .executing id ∈ s.workers)
    (hnode : s.scheduler.nodeAt id = .ok node) :
    ∃ r, requests[id]? = some r ∧ node.request = r.1 := by
  obtain ⟨ws, hws⟩ := Multiset.exists_cons_of_mem (Multiset.mem_coe.mpr hw)
  have hconfig : s.config = ⟨s.scheduler.zeroQueue.content, .working id ::ₘ ws.map Worker.phase,
      s.completed⟩ := by
    rw [config, hws, Multiset.map_cons]
    rfl
  exact node_of_working (hconfig ▸ h.traversal) (hconfig ▸ h.tracks) hnode

end
end BlockRun

/-! ## Turns end -/

namespace RequestState

/-- A turn of a request that has not ended. -/
def Later (r' r : RequestState) : Prop := ¬ r.Over ∧ ∃ heap, r' = (r.turn heap).1

theorem acc_ended (result : Except Exn Int) : Acc Later (ended result) :=
  Acc.intro _ fun _ h => absurd trivial h.1

theorem acc_writing (statusCode : Int) (version : Nat) :
    ∀ chunks : List (ChunkInfo AccessBlock), Acc Later (writing statusCode version chunks)
  | [] => Acc.intro _ fun r' h => by
    obtain ⟨-, heap, rfl⟩ := h
    exact acc_ended _
  | c :: rest => Acc.intro _ fun r' h => by
    obtain ⟨-, heap, rfl⟩ := h
    rw [turn_writing_state]
    cases c.writeToHeap version (heap c.ptr) with
    | error e => exact acc_ended _
    | ok chunk => exact acc_writing statusCode version rest

theorem acc_running : ∀ (program : Program) (m : RestrictedModifier AccessBlock),
    Acc Later (running program m)
  | .ending (.error e), m => Acc.intro _ fun r' h => by
    obtain ⟨-, heap, rfl⟩ := h
    exact acc_ended _
  | .ending (.ok statusCode), m => Acc.intro _ fun r' h => by
    obtain ⟨-, heap, rfl⟩ := h
    exact acc_writing statusCode _ _
  | .step op next, m => Acc.intro _ fun r' h => by
    obtain ⟨-, heap, rfl⟩ := h
    exact acc_running (next (m.exec heap op).1) _

theorem later_wellFounded : WellFounded Later := ⟨fun r => match r with
  | running program m => acc_running program m
  | writing statusCode version chunks => acc_writing statusCode version chunks
  | ended result => acc_ended result⟩

end RequestState

namespace SharedRun

/-- One of the states is replaced by a later one. -/
theorem cutExpand_update {n id : Nat} {f : Nat → RequestState} {r : RequestState} (hid : id < n)
    (h : r.Later (f id)) :
    Relation.CutExpand RequestState.Later ((Multiset.range n).map (Function.update f id r))
      ((Multiset.range n).map f) := by
  obtain ⟨ids, hids⟩ := Multiset.exists_cons_of_mem (Multiset.mem_range.mpr hid)
  have hnot : id ∉ ids := by
    have hnodup := Multiset.nodup_range n
    rw [hids] at hnodup
    exact (Multiset.nodup_cons.mp hnodup).1
  have hothers : ids.map (Function.update f id r) = ids.map f :=
    Multiset.map_congr rfl fun v hv => Function.update_of_ne (ne_of_mem_of_not_mem hv hnot) _ _
  refine ⟨{r}, f id, fun r' hr' => Multiset.mem_singleton.mp hr' ▸ h, ?_⟩
  rw [hids, Multiset.map_cons, Multiset.map_cons, Function.update_self, hothers,
    ← Multiset.singleton_add, ← Multiset.singleton_add]
  abel

/-! ## What holds in every state -/

/-- A run whose turns wait for each other, and whose workers have got what the
serial execution gives. -/
structure Coherent (requests : BlockRequests) (prepared : PreparedRequests) (heap : Heap)
    (Indep : Nat → Nat → Prop) (k : Nat)
    (s : SharedRun) : Prop where
  sound : BlockRun.Sound requests (fun req => prepared.serialResult heap req.id) k s.block
  ended : ∀ v ∈ s.block.executed, Shared.Over v s.shared
  schedule : ∃ w : List Nat, s.shared = run takeTurn (Shared.start prepared heap) w ∧
    Permitted takeTurn Indep Shared.Over (Shared.start prepared heap) w ∧
      ∀ i ∈ w, i < requests.length

/-- Every request ends as in the serial execution if the turns wait for each other. -/
def EndsSerially (requests : BlockRequests) (prepared : PreparedRequests) (heap : Heap)
    (Indep : Nat → Nat → Prop) : Prop :=
  ∀ w : List Nat, Permitted takeTurn Indep Shared.Over (Shared.start prepared heap) w →
    (∀ i ∈ w, i < requests.length) →
    ∀ i < requests.length, ∀ result, (run takeTurn (Shared.start prepared heap) w).2 i =
      .ended result →
      result = prepared.serialResult heap i

/-- The requests know their ids. -/
def TruthfulIDs (requests : BlockRequests) : Prop :=
  ∀ (v : Nat) (r : AppRequest × List Nat), requests[v]? = some r → r.1.id = v

section
variable {requests : BlockRequests} {prepared : PreparedRequests} {heap : Heap}
  {Indep : Nat → Nat → Prop} {k : Nat} {s t : SharedRun}

section
variable (hwf : requests.WellFormed) (hids : TruthfulIDs requests) (hk : k ≤ requests.length)
  (hends : EndsSerially requests prepared heap Indep)
include hwf hids hk hends

/-- A step in a run of the block whose requests have the results of the serial execution. -/
theorem Coherent.step_cases (h : Coherent requests prepared heap Indep k s) {i : Nat}
    (hstep : s.step i = some t) :
    (∃ id, id ∈ s.block.config.tokens ∧ id < requests.length ∧ ¬ Shared.Over id s.shared ∧
      t = { s with shared := takeTurn id s.shared }) ∨
      ∃ block, s.block.step (fun req => prepared.serialResult heap req.id) i = some block ∧
        t = { s with block } ∧
        ∀ v ∈ block.executed, Shared.Over v s.shared := by
  obtain ⟨id, hworker, hnot, rfl⟩ | ⟨executeOne, block, hblock, rfl, hresult⟩ :=
    SharedRun.step_cases hstep
  · obtain ⟨htoken, hid⟩ := h.sound.executing_lt hwf hk (List.mem_of_getElem? hworker)
    exact .inl ⟨id, htoken, hid, hnot, rfl⟩
  · refine .inr ⟨block, ?_, rfl, fun v hv => ?_⟩
    · rw [← hblock]
      refine BlockRun.step_congr fun id node hworker hnode => ?_
      obtain ⟨result, hended, rfl⟩ := hresult id hworker
      have hmem : Worker.executing id ∈ s.block.workers := List.mem_of_getElem? hworker
      obtain ⟨r, hr, hrequest⟩ := h.sound.node_of_executing hmem hnode
      obtain ⟨w, hw, hpermitted, hlt⟩ := h.schedule
      have hid := (h.sound.executing_lt hwf hk hmem).2
      change prepared.serialResult heap node.request.id = result
      rw [hrequest, hids id r hr]
      exact (hends w hpermitted hlt id hid result (hw ▸ hended)).symm
    · obtain hsame | ⟨id, hworker, hexecuted⟩ := BlockRun.executed_of_step hblock
      · exact h.ended v (hsame ▸ hv)
      · rw [hexecuted] at hv
        obtain rfl | hv := List.mem_cons.mp hv
        · obtain ⟨result, hended, -⟩ := hresult v hworker
          unfold Shared.Over
          rw [hended]
          trivial
        · exact h.ended v hv

variable (hlinked : ∀ i j, j < i → i < requests.length → ¬ Indep j i →
    Relation.TransGen requests.Edge j i)
include hlinked

theorem Coherent.step (h : Coherent requests prepared heap Indep k s) {i : Nat}
    (hstep : s.step i = some t) :
    Coherent requests prepared heap Indep k t := by
  obtain ⟨w, hw, hpermitted, hlt⟩ := h.schedule
  obtain ⟨id, htoken, hid, hnot, rfl⟩ | ⟨block, hblock, rfl, hover⟩ :=
    h.step_cases hwf hids hk hends hstep
  · -- the ancestors of the request are executed, so they have ended
    refine ⟨h.sound, fun v hv => Shared.over_takeTurn v id s.shared (h.ended v hv), id :: w,
      congrArg (takeTurn id) hw,
      ⟨hpermitted, hw ▸ hnot, fun j hj hdep => hw ▸ ?_⟩, List.forall_mem_cons.mpr ⟨hid, hlt⟩⟩
    exact h.ended j (h.sound.ancestor_executed htoken (hlinked id j hj hid hdep))
  · exact ⟨h.sound.step hwf hk hblock, hover, w, hw, hpermitted, hlt⟩

theorem Coherent.reaches (h : Coherent requests prepared heap Indep k s) (hrun : Reaches s t) :
    Coherent requests prepared heap Indep k t := by
  induction hrun with
  | refl => exact h
  | tail _ hstep ih =>
    obtain ⟨i, hi⟩ := hstep
    exact ih.step hwf hids hk hends hlinked hi

/-- The workers make the steps of a run of the block. -/
theorem Coherent.reaches_block (h : Coherent requests prepared heap Indep k s)
    (hrun : Reaches s t) :
    BlockRun.Reaches (fun req => prepared.serialResult heap req.id) s.block t.block := by
  induction hrun with
  | refl => exact .refl
  | tail hrun hstep ih =>
    obtain ⟨i, hi⟩ := hstep
    obtain ⟨id, -, -, -, rfl⟩ | ⟨block, hblock, rfl, -⟩ :=
      (h.reaches hwf hids hk hends hlinked hrun).step_cases hwf hids hk hends hi
    · exact ih
    · exact ih.tail ⟨i, hblock⟩

/-- Every run ends: a turn brings a request closer to its end, and the workers make finitely many
steps beside. -/
theorem Coherent.terminates (h : Coherent requests prepared heap Indep k s) (run : Nat → SharedRun)
    (hstart : run 0 = s) :
    ∃ m, ¬ Step (run m) (run (m + 1)) := by
  have hless := WellFounded.prod_lex (wellFounded_lt : WellFounded ((· < ·) : Nat → Nat → Prop))
    later_wellFounded.cutExpand
  induction hx : (s.block.work requests, (Multiset.range requests.length).map
    s.shared.2) using hless.induction generalizing s run with
  | _ x ih =>
    by_cases hstep : Step (run 0) (run 1)
    swap
    · exact ⟨0, hstep⟩
    obtain ⟨i, hi⟩ := hstep
    rw [hstart] at hi
    have hnext : Prod.Lex (· < ·) (Relation.CutExpand RequestState.Later)
        ((run 1).block.work requests, (Multiset.range requests.length).map (run 1).shared.2) x := by
      rw [← hx]
      obtain ⟨id, -, hid, hnot, ht⟩ | ⟨block, hblock, ht, -⟩ := h.step_cases hwf hids hk hends hi
      · rw [ht]
        exact .right _ (cutExpand_update hid ⟨hnot, s.shared.1, rfl⟩)
      · rw [ht]
        exact .left _ _ (h.sound.work_lt hwf hk ⟨i, hblock⟩)
    obtain ⟨m, hm⟩ := ih _ hnext (h.step hwf hids hk hends hlinked hi) (fun m =>
      run (m + 1)) rfl rfl
    exact ⟨m + 1, hm⟩

end

/-- A run that cannot go on is one that the workers cannot continue. -/
theorem Halted.block (executeOne : AppRequest → Except Exn Int) (hhalted : s.Halted) :
    s.block.Halted executeOne := by
  intro i
  have hnone := hhalted i
  unfold SharedRun.step at hnone
  split at hnone
  · rename_i id hworker
    exact absurd (hhalted i) (step_executing hworker)
  · rename_i hnot
    rw [Option.map_eq_none_iff] at hnone
    rw [← hnone]
    exact BlockRun.step_congr fun id node hworker _ => absurd hworker (hnot id)

end
end SharedRun
end Argennon
