import Argennon.Validator.ExecDagTraversal

/- The invariant of the runs of a block: the configuration of the traversal with the
   scheduler that keeps its numbers, and what the workers and the lists of a run know about
   the requests. -/
namespace Argennon

open DagTraversal

/-! ## What a run records -/

/-- The request was executed, and `submitResult` accepts its result. -/
def Accepted (requests : BlockRequests) (executeOne : AppRequest → Except Exn Int)
    (v : Nat) : Prop :=
  ∃ r statusCode, requests[v]? = some r ∧ executeOne r.1 = .ok statusCode ∧
    ¬(400 < statusCode ∧ r.1.attachments ≠ [])

/-- The exception that the execution or the submission of the request throws. -/
def Throws (requests : BlockRequests) (executeOne : AppRequest → Except Exn Int) (v : Nat)
    (e : Exn) : Prop :=
  ∃ r, requests[v]? = some r ∧ (executeOne r.1 = .error e ∨
    ∃ statusCode, executeOne r.1 = .ok statusCode ∧ (400 < statusCode ∧ r.1.attachments ≠ []) ∧
      e = .blockError "block contains a failed fee payment")

theorem Throws.not_accepted {requests : BlockRequests} {executeOne : AppRequest → Except Exn Int}
    {v : Nat} {e : Exn}
    (h : Throws requests executeOne v e) : ¬ Accepted requests executeOne v := by
  rintro ⟨r, statusCode, hr, hexec, hfee⟩
  obtain ⟨r', hr', h⟩ := h
  obtain rfl := Option.some.inj (hr.symm.trans hr')
  obtain h | ⟨statusCode', h, hfee', -⟩ := h
  · rw [h] at hexec
    cases hexec
  · rw [h] at hexec
    cases hexec
    exact hfee hfee'

theorem Throws.lt {requests : BlockRequests} {executeOne : AppRequest → Except Exn Int}
    {v : Nat} {e : Exn}
    (h : Throws requests executeOne v e) : v < requests.length := by
  obtain ⟨r, hr, -⟩ := h
  exact (List.getElem?_eq_some_iff.mp hr).1

/-- The request that the worker has executed. -/
def Worker.executedID : Worker → Option Nat
  | .submitting id _ | .releasing id _ | .enqueueing id _ _ | .decrementing id | .removing
    id | .failed id _ => some id
  | _ => none

/-- The request whose result the worker has submitted. -/
def Worker.submittedID : Worker → Option Nat
  | .releasing id _ | .enqueueing id _ _ | .decrementing id | .removing id => some id
  | _ => none

/-- The request that `remaining` does not count although its worker has not left `submitResult`. -/
def Worker.removedID : Worker → Option Nat
  | .removing id => some id
  | _ => none

namespace BlockRun

/-- The configuration of the traversal. -/
def config (s : BlockRun) : Config Nat :=
  { queue := s.scheduler.zeroQueue.content
    workers := (s.workers : Multiset Worker).map Worker.phase
    done := s.completed }

/-- What a worker knows. -/
def Knows (requests : BlockRequests) (executeOne : AppRequest → Except Exn Int) (remaining : Int) :
    Worker → Prop
  | .submitting id statusCode => ∃ r, requests[id]? = some r ∧ executeOne r.1 = .ok statusCode
  | .releasing id _ | .enqueueing id _ _ | .decrementing id | .removing id =>
    Accepted requests executeOne id
  | .failed id e => Throws requests executeOne id e
  | .returned => remaining = 0
  | .thrown e => remaining ≠ 0 ∧ e = .blockError "execution graph is not a dag"
  | _ => True

/-- What holds in every state of a run whose first `k` requests were enqueued at the start. -/
structure Sound (requests : BlockRequests) (executeOne : AppRequest → Except Exn Int) (k : Nat)
    (s : BlockRun) : Prop where
  traversal : DagTraversal.Sound requests.adj (List.range k) s.config
  tracks : Tracks requests s.scheduler s.config
  remaining : s.scheduler.remaining + s.completed.length +
    ((s.workers : Multiset Worker).filterMap Worker.removedID).card = requests.length
  executed : (s.executed : Multiset Nat) =
    (s.workers : Multiset Worker).filterMap Worker.executedID + s.completed
  submitted : (s.submitted : Multiset Nat) =
    (s.workers : Multiset Worker).filterMap Worker.submittedID + s.completed
  knows : ∀ w ∈ s.workers, Knows requests executeOne s.scheduler.remaining w
  accepted : ∀ v ∈ s.completed, Accepted requests executeOne v
  responses : ∀ v r, requests[v]? = some r →
    s.responseList[v]? = some (if v ∈ s.executed then (executeOne r.1).toOption else none)

/-! ## A step -/

/-- The parts of a step: the worker, its step, and the others. -/
theorem step_parts {executeOne : AppRequest → Except Exn Int} {s t : BlockRun} {i : Nat}
    (h : s.step executeOne i = some t) :
    ∃ w w' scheduler ws, s.workers[i]? = some w ∧
      w.step executeOne s.scheduler = some (w', scheduler) ∧
      t = { s.record w w' with scheduler, workers := s.workers.set i w' } ∧
      (s.workers : Multiset Worker) = w ::ₘ ws ∧
      ((s.workers.set i w' : List Worker) : Multiset Worker) = w' ::ₘ ws := by
  unfold step at h
  obtain ⟨w, hw, h⟩ := Option.bind_eq_some_iff.mp h
  obtain ⟨⟨w', scheduler⟩, hstep, h⟩ := Option.bind_eq_some_iff.mp h
  obtain ⟨hi, rfl⟩ := List.getElem?_eq_some_iff.mp hw
  refine ⟨_, w', scheduler, (s.workers.eraseIdx i : List Worker), hw, hstep,
    (Option.some.inj h).symm, ?_, ?_⟩
  · exact (Multiset.coe_eq_coe.mpr (List.getElem_cons_eraseIdx_perm hi)).symm
  · have hi' : i < (s.workers.set i w').length := by rwa [List.length_set]
    have hperm := List.getElem_cons_eraseIdx_perm hi'
    rw [List.getElem_set_self, List.eraseIdx_set_eq] at hperm
    exact (Multiset.coe_eq_coe.mpr hperm).symm

theorem record_completed (s : BlockRun) (w w' : Worker) :
    (s.record w w').completed = w.completing s.completed := by
  cases w <;> cases w' <;> rfl

section
variable {requests : BlockRequests} {executeOne : AppRequest → Except Exn Int} {k : Nat}
  {s t : BlockRun}

/-- The lists of executed and submitted requests follow the workers. -/
theorem record_counts {w w' : Worker} {s' : RequestScheduler}
    (hm : w.Moves executeOne s.scheduler w' s') (ws : Multiset Worker)
    (hexecuted : (s.executed : Multiset Nat) = (w ::ₘ ws).filterMap Worker.executedID + s.completed)
    (hsubmitted : (s.submitted : Multiset Nat) =
      (w ::ₘ ws).filterMap Worker.submittedID + s.completed) :
    ((s.record w w').executed : Multiset Nat) =
    (w' ::ₘ ws).filterMap Worker.executedID + (s.record w w').completed ∧
      ((s.record w w').submitted : Multiset Nat) =
      (w' ::ₘ ws).filterMap Worker.submittedID + (s.record w w').completed := by
  cases hm
  all_goals
    simp only [Multiset.filterMap_cons, Worker.executedID, Worker.submittedID, Option.map_some,
      Option.map_none,
      Option.getD_some, Option.getD_none, zero_add] at hexecuted hsubmitted ⊢
    simp only [record, ← Multiset.cons_coe, hexecuted, hsubmitted, ← Multiset.singleton_add,
      add_assoc, and_self]
  case remove => exact ⟨add_left_comm _ _ _, add_left_comm _ _ _⟩

/-- The node of a request that a worker is about to execute or to submit. -/
theorem node_of_working {q : List Nat} {ws : Multiset (Phase Nat)} {d init : List Nat}
    {sched : RequestScheduler} {id : Nat}
    {node : DagNode} (hs : DagTraversal.Sound requests.adj init ⟨q, .working id ::ₘ ws, d⟩)
    (ht : Tracks requests sched ⟨q, .working id ::ₘ ws, d⟩) (hnode : sched.nodeAt id = .ok node) :
    ∃ r, requests[id]? = some r ∧ node.request = r.1 := by
  by_cases hlt : id < requests.length
  · obtain ⟨r, hr⟩ := getElem?_of_lt hlt
    obtain rfl := Except.ok.inj
      (hnode.symm.trans (ht.node id r hr (not_reset_of_mem hs.nodup nofun (.inl rfl))))
    exact ⟨r, hr, rfl⟩
  · unfold RequestScheduler.nodeAt at hnode
    rw [List.getElem?_eq_none (by rw [ht.length]; omega)] at hnode
    cases hnode

theorem moves_remaining {sched sched' : RequestScheduler} {w w' : Worker}
    (hm : w.Moves executeOne sched w' sched') :
    sched'.remaining = sched.remaining ∨ ∃ id, w = .decrementing id := by
  cases hm
  case decrement => exact .inr ⟨_, rfl⟩
  all_goals exact .inl rfl

/-- What a worker knows after its step. -/
theorem knows_step {q : List Nat} {ws : Multiset (Phase Nat)} {d init : List Nat}
    {sched sched' : RequestScheduler}
    {w w' : Worker} (hs : DagTraversal.Sound requests.adj init ⟨q, w.phase ::ₘ ws, d⟩)
    (ht : Tracks requests sched ⟨q, w.phase ::ₘ ws, d⟩) (hm : w.Moves executeOne sched w' sched')
    (hknows : Knows requests executeOne sched.remaining w) :
    Knows requests executeOne sched'.remaining w' := by
  cases hm with
  | execute hnode hexec =>
    obtain ⟨r, hr, hreq⟩ := node_of_working hs ht hnode
    exact ⟨r, hr, hreq ▸ hexec⟩
  | crash hnode hexec =>
    obtain ⟨r, hr, hreq⟩ := node_of_working hs ht hnode
    exact ⟨r, hr, .inl (hreq ▸ hexec)⟩
  | reject hnode hfee =>
    obtain ⟨r, hr, hreq⟩ := node_of_working hs ht hnode
    obtain ⟨r', hr', hexec⟩ := hknows
    obtain rfl := Option.some.inj (hr.symm.trans hr')
    exact ⟨r, hr, .inr ⟨_, hexec, hreq ▸ hfee, rfl⟩⟩
  | accept hnode hfee =>
    obtain ⟨r, hr, hreq⟩ := node_of_working hs ht hnode
    obtain ⟨r', hr', hexec⟩ := hknows
    obtain rfl := Option.some.inj (hr.symm.trans hr')
    exact ⟨r, _, hr, hexec, hreq ▸ hfee⟩
  | notDag hne => exact ⟨hne, rfl⟩
  | finish hzero => exact hzero
  | release hnode hlt => exact hknows
  | releaseLast hnode hone => exact hknows
  | enqueue hnode => exact hknows
  | reset => exact hknows
  | decrement => exact hknows
  | _ => trivial

/-- The responses follow the executed requests. -/
theorem responses_step {q : List Nat} {ws : Multiset (Phase Nat)} {d init : List Nat}
    {sched' : RequestScheduler}
    {w w' : Worker} (hs : DagTraversal.Sound requests.adj init ⟨q, w.phase ::ₘ ws, d⟩)
    (ht : Tracks requests s.scheduler ⟨q, w.phase ::ₘ ws, d⟩)
    (hm : w.Moves executeOne s.scheduler w' sched')
    (h : ∀ v r, requests[v]? = some r →
      s.responseList[v]? = some (if v ∈ s.executed then (executeOne r.1).toOption else none)) :
    ∀ v r, requests[v]? = some r → (s.record w w').responseList[v]? =
      some (if v ∈ (s.record w w').executed then (executeOne r.1).toOption else none) := by
  intro v r hr
  have hv := h v r hr
  cases hm with
  | @execute _ id node statusCode hnode hexec =>
    obtain ⟨r', hr', hreq⟩ := node_of_working hs ht hnode
    simp only [record, List.mem_cons]
    by_cases hvid : v = id
    · subst hvid
      obtain rfl := Option.some.inj (hr.symm.trans hr')
      have hlt : v < s.responseList.length := (List.getElem?_eq_some_iff.mp hv).1
      rw [List.getElem?_set_self hlt, if_pos (.inl rfl), ← hreq, hexec]
      rfl
    · rw [List.getElem?_set_ne (Ne.symm hvid), hv]
      simp only [hvid, false_or]
  | @crash _ id node e hnode hexec =>
    obtain ⟨r', hr', hreq⟩ := node_of_working hs ht hnode
    simp only [record, List.mem_cons]
    by_cases hvid : v = id
    · subst hvid
      obtain rfl := Option.some.inj (hr.symm.trans hr')
      have hnone : (executeOne r.1).toOption = none := by
        rw [← hreq, hexec]
        rfl
      rw [hv, hnone, ite_self, ite_self]
    · rw [hv]
      simp only [hvid, false_or]
  | _ => exact hv

/-- **Step.** Every step of a worker keeps the invariant. -/
theorem Sound.step (hwf : requests.WellFormed) (hk : k ≤ requests.length)
    (h : Sound requests executeOne k s) {i : Nat}
    (hstep : s.step executeOne i = some t) : Sound requests executeOne k t := by
  obtain ⟨w, w', sched, ws, hw, hmove, rfl, hpool, hpool'⟩ := step_parts hstep
  have hmem : w ∈ s.workers := List.mem_of_getElem? hw
  have hconfig : s.config = ⟨s.scheduler.zeroQueue.content, w.phase ::ₘ ws.map Worker.phase,
      s.completed⟩ := by
    unfold config
    rw [hpool, Multiset.map_cons]
  have htraversal := h.traversal
  have htracks := h.tracks
  rw [hconfig] at htraversal htracks
  have hinit : ∀ x ∈ List.range k, x < requests.length :=
    fun x hx => Nat.lt_of_lt_of_le (List.mem_range.mp hx) hk
  have hm := Worker.step_moves (htracks.nodesThere hwf hinit htraversal) hmove
  obtain ⟨htracks', hsim⟩ := htracks.moves hwf htraversal hm
  have hexecuted := h.executed
  have hsubmitted := h.submitted
  rw [hpool] at hexecuted hsubmitted
  obtain ⟨hexecuted', hsubmitted'⟩ := record_counts hm ws hexecuted hsubmitted
  have hcompleted := record_completed s w w'
  have hconfig' :
    (config { s.record w w' with scheduler := sched, workers := s.workers.set i w' }) =
      ⟨sched.zeroQueue.content, w'.phase ::ₘ ws.map Worker.phase, w.completing s.completed⟩ := by
    unfold config
    rw [hpool', Multiset.map_cons, ← hcompleted]
  exact
    { traversal := by
        rw [hconfig']
        obtain hsame | hstep' := hsim
        · rw [hsame]
          exact htraversal
        · exact htraversal.step hwf.nodup hstep'
      tracks := by
        rw [hconfig']
        exact htracks'
      remaining := by
        have hremaining := h.remaining
        rw [hpool] at hremaining
        simp only [hpool', hcompleted]
        cases hm <;>
          simp only [Multiset.filterMap_cons, Worker.removedID, Worker.completing, Option.map_some,
            Option.map_none,
            Option.getD_some, Option.getD_none, Multiset.card_add, Multiset.card_singleton,
              Multiset.card_zero,
            RequestScheduler.setNode, List.length_cons] at hremaining ⊢ <;>
          push_cast at hremaining ⊢ <;> omega
      executed := by
        rw [hpool']
        exact hexecuted'
      submitted := by
        rw [hpool']
        exact hsubmitted'
      knows := by
        intro w'' hw''
        have hw'' : w'' ∈ w' ::ₘ ws := hpool' ▸ Multiset.mem_coe.mpr hw''
        obtain rfl | hother := Multiset.mem_cons.mp hw''
        · exact knows_step htraversal htracks hm (h.knows w hmem)
        · have hknows := h.knows w'' (Multiset.mem_coe.mp (hpool ▸ Multiset.mem_cons_of_mem hother))
          obtain hsame | ⟨id, rfl⟩ := moves_remaining hm
          · rw [show (_ : BlockRun).scheduler.remaining = s.scheduler.remaining from hsame]
            exact hknows
          · have hout : Phase.out ∉ ws.map Worker.phase := htraversal.not_out rfl
            cases w'' with
            | returned => exact absurd (Multiset.mem_map_of_mem Worker.phase hother) hout
            | thrown e => exact absurd (Multiset.mem_map_of_mem Worker.phase hother) hout
            | _ => exact hknows
      accepted := by
        intro v hv
        simp only [hcompleted] at hv
        cases w with
        | removing id =>
          obtain rfl | hv := List.mem_cons.mp hv
          · exact h.knows _ hmem
          · exact h.accepted v hv
        | _ => exact h.accepted v hv
      responses := responses_step htraversal htracks hm h.responses }

theorem Sound.reaches (hwf : requests.WellFormed) (hk : k ≤ requests.length)
    (h : Sound requests executeOne k s)
    (hrun : Reaches executeOne s t) : Sound requests executeOne k t := by
  induction hrun with
  | refl => exact h
  | tail _ hstep ih =>
    obtain ⟨i, hi⟩ := hstep
    exact ih.step hwf hk hi

end
end BlockRun
end Argennon
