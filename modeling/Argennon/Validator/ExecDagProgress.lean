import Argennon.Validator.ExecDagRuns

/- The runs of a block end: the work that is left gets less with every step, and a worker that
   cannot make a step has left, or waits for requests that other workers hold. -/
namespace Argennon

open DagTraversal

theorem sum_map_set {α : Type} (f : α → Nat) {l : List α} {i : Nat} {a : α}
    (h : l[i]? = some a) (b : α) :
    ((l.set i b).map f).sum + f a = (l.map f).sum + f b := by
  obtain ⟨hi, rfl⟩ := List.getElem?_eq_some_iff.mp h
  have hi' : i < (l.set i b).length := by rwa [List.length_set]
  have hbefore := ((List.getElem_cons_eraseIdx_perm hi).map f).sum_eq
  have hafter := ((List.getElem_cons_eraseIdx_perm hi').map f).sum_eq
  rw [List.getElem_set_self, List.eraseIdx_set_eq] at hafter
  rw [List.map_cons, List.sum_cons] at hbefore hafter
  omega

/-! ## The work that is left -/

/-- The steps that a request needs from the queue on. -/
def requestWork (adjacent : List Nat) : Nat := 6 + 2 * adjacent.length

/-- The steps of the request of a node, as long as it waits for others. -/
def nodeWork : Option DagNode → Nat
  | some node => if 0 < node.inDegree then requestWork node.adjList else 0
  | none => 0

/-- The steps of a worker with what it has. -/
def Worker.work (requests : BlockRequests) : Worker → Nat
  | .waiting => 2
  | .drained => 1
  | .executing id => 7 + 2 * (requests.adj id).length
  | .submitting id _ => 6 + 2 * (requests.adj id).length
  | .releasing _ adjacent => 5 + 2 * adjacent.length
  | .enqueueing _ next adjacent => 6 + 2 * adjacent.length + requestWork (requests.adj next)
  | .decrementing _ => 4
  | .removing _ => 3
  | .returned | .thrown _ | .failed _ _ => 0

/-- The work in the nodes and in the queue. -/
def RequestScheduler.work (requests : BlockRequests) (s : RequestScheduler) : Nat :=
  (s.nodeIndex.map nodeWork).sum + (s.zeroQueue.content.map fun v =>
    requestWork (requests.adj v)).sum

namespace BlockRun

/-- The work that is left in a run. -/
def work (requests : BlockRequests) (s : BlockRun) : Nat :=
  s.scheduler.work requests + (s.workers.map (Worker.work requests)).sum

section
variable {requests : BlockRequests} {executeOne : AppRequest → Except Exn Int} {k : Nat}
  {s t : BlockRun}

theorem nodeIndex_of_nodeAt {sched : RequestScheduler} {id : Nat} {node : DagNode}
    (h : sched.nodeAt id = .ok node) :
    sched.nodeIndex[id]? = some (some node) := by
  unfold RequestScheduler.nodeAt at h
  split at h
  · rename_i node' hnode
    cases h
    exact hnode
  · cases h

/-- A node that is there has the adjacency list of its request. -/
theorem adjList_of_nodeAt {sched : RequestScheduler} {c : Config Nat}
    (ht : Tracks requests sched c) {id : Nat}
    {node : DagNode} (hnot : ¬ NodeReset c id) (hnode : sched.nodeAt id = .ok node) :
    node.adjList = requests.adj id := by
  have hlt : id < requests.length :=
    ht.length ▸ (List.getElem?_eq_some_iff.mp (nodeIndex_of_nodeAt hnode)).1
  obtain ⟨r, hr⟩ := getElem?_of_lt hlt
  obtain rfl := Except.ok.inj (hnode.symm.trans (ht.node id r hr hnot))
  exact (adj_of_getElem? hr).symm

/-- A step of a worker is work done. -/
theorem work_moves {q : List Nat} {ws : Multiset (Phase Nat)} {d init : List Nat}
    {sched sched' : RequestScheduler}
    {w w' : Worker} (hs : DagTraversal.Sound requests.adj init ⟨q, w.phase ::ₘ ws, d⟩)
    (ht : Tracks requests sched ⟨q, w.phase ::ₘ ws, d⟩) (hm : w.Moves executeOne sched w' sched') :
    sched'.work requests + w'.work requests < sched.work requests + w.work requests := by
  cases hm with
  | @take _ id content hq =>
    simp only [RequestScheduler.work, Worker.work, hq, List.map_cons, List.sum_cons, requestWork]
    omega
  | drain hq hp => simp [Worker.work]
  | notDag hne => simp [Worker.work]
  | finish hzero => simp [Worker.work]
  | execute hnode hexec => simp [Worker.work]
  | crash hnode hexec =>
    simp only [Worker.work]
    omega
  | reject hnode hfee =>
    simp only [Worker.work]
    omega
  | @accept _ id statusCode node hnode hfee =>
    have hadj := adjList_of_nodeAt ht (not_reset_of_mem hs.nodup nofun (.inl rfl)) hnode
    simp only [Worker.work, hadj]
    omega
  -- the node stays above zero, so it still counts as work
  | @release _ id next adjacent node hnode hlt =>
    have hsum := sum_map_set nodeWork (nodeIndex_of_nodeAt hnode)
      (some { node with inDegree := node.inDegree - 1 })
    have hsame : nodeWork (some { node with inDegree := node.inDegree - 1 }) =
      nodeWork (some node) := by
      simp only [nodeWork]
      rw [if_pos (by omega), if_pos (by omega)]
    simp only [RequestScheduler.work, RequestScheduler.setNode, Worker.work, List.length_cons]
    omega
  | @releaseLast _ id next adjacent node hnode hone =>
    have hedge : next ∈ requests.adj id :=
      (hs.left _ (Multiset.mem_cons_self _ _) id _ (.inl rfl)).subset List.mem_cons_self
    have hnot : ¬ NodeReset ⟨q, Phase.releasing id (next :: adjacent) ::ₘ ws, d⟩ next := fun hr =>
      hs.not_mem_of_not_released hedge hs.not_released hr.mem_tokens
    have hadj := adjList_of_nodeAt ht hnot hnode
    have hsum := sum_map_set nodeWork (nodeIndex_of_nodeAt hnode)
      (some { node with inDegree := node.inDegree - 1 })
    -- the work of the node moves from the index to the worker
    have hbefore : nodeWork (some node) = requestWork (requests.adj next) := by
      simp only [nodeWork, hadj]
      rw [if_pos (by omega)]
    have hafter : nodeWork (some { node with inDegree := node.inDegree - 1 }) = 0 := by
      simp only [nodeWork]
      rw [if_neg (by omega)]
    simp only [RequestScheduler.work, RequestScheduler.setNode, Worker.work, List.length_cons]
    omega
  | @enqueue _ id next adjacent node hnode =>
    simp only [RequestScheduler.work, Worker.work, BlockingQueue.enqueue, List.map_append,
      List.sum_append, List.map_cons,
      List.map_nil, List.sum_cons, List.sum_nil]
    omega
  | @reset _ id =>
    have hle : ((sched.nodeIndex.set id none).map nodeWork).sum ≤
        (sched.nodeIndex.map nodeWork).sum := by
      by_cases hlt : id < sched.nodeIndex.length
      · have hsum := sum_map_set nodeWork (List.getElem?_eq_getElem hlt) none
        have hnone : nodeWork none = 0 := rfl
        omega
      · rw [List.set_eq_of_length_le (by omega)]
    simp only [RequestScheduler.work, RequestScheduler.setNode, Worker.work, List.length_nil]
    omega
  | decrement => simp [RequestScheduler.work, Worker.work]
  | remove => simp [RequestScheduler.work, BlockingQueue.removeProducer, Worker.work]

theorem Sound.work_lt (hwf : requests.WellFormed) (hk : k ≤ requests.length)
    (h : Sound requests executeOne k s)
    (hstep : Step executeOne s t) : t.work requests < s.work requests := by
  obtain ⟨i, hi⟩ := hstep
  obtain ⟨w, w', sched, ws, hw, hmove, rfl, hpool, -⟩ := step_parts hi
  have hconfig : s.config = ⟨s.scheduler.zeroQueue.content, w.phase ::ₘ ws.map Worker.phase,
      s.completed⟩ := by
    unfold config
    rw [hpool, Multiset.map_cons]
  have htraversal := h.traversal
  have htracks := h.tracks
  rw [hconfig] at htraversal htracks
  have hinit : ∀ x ∈ List.range k, x < requests.length :=
    fun x hx => Nat.lt_of_lt_of_le (List.mem_range.mp hx) hk
  have hm := Worker.step_moves (htracks.nodesThere hwf hinit htraversal) hmove
  have hwork := work_moves htraversal htracks hm
  have hsum := sum_map_set (Worker.work requests) hw w'
  unfold work
  simp only
  omega

/-- **No run goes on for ever.** -/
theorem Sound.terminates (hwf : requests.WellFormed) (hk : k ≤ requests.length)
    (h : Sound requests executeOne k s)
    (run : Nat → BlockRun) (hstart : run 0 = s) : ∃ m, ¬ Step executeOne (run m) (run (m + 1)) := by
  by_contra hall
  have hstep : ∀ m, Step executeOne (run m) (run (m + 1)) := fun m => by
    by_contra hm
    exact hall ⟨m, hm⟩
  have hsound : ∀ m, Sound requests executeOne k (run m) ∧
      (run m).work requests + m ≤ s.work requests := by
    intro m
    induction m with
    | zero => exact ⟨hstart ▸ h, by rw [hstart, Nat.add_zero]⟩
    | succ m ih =>
      obtain ⟨i, hi⟩ := hstep m
      have hlt := ih.1.work_lt hwf hk (hstep m)
      exact ⟨ih.1.step hwf hk hi, by omega⟩
  have := (hsound (s.work requests + 1)).2
  omega

/-- From every state a state is reached in which no worker can make a step. -/
theorem Sound.halts (hwf : requests.WellFormed) (hk : k ≤ requests.length)
    (h : Sound requests executeOne k s) :
    ∃ t, Reaches executeOne s t ∧ t.Halted executeOne := by
  induction hn : s.work requests using Nat.strong_induction_on generalizing s with
  | _ n ih =>
    by_cases hhalted : s.Halted executeOne
    · exact ⟨s, .refl, hhalted⟩
    · obtain ⟨i, hi⟩ := not_forall.mp hhalted
      obtain ⟨t, ht⟩ := Option.ne_none_iff_exists'.mp hi
      obtain ⟨u, hu, hend⟩ := ih _ (hn ▸ h.work_lt hwf hk ⟨i, ht⟩) (h.step hwf hk ht) rfl
      exact ⟨u, .head ⟨i, ht⟩ hu, hend⟩

/-! ## Where a run ends -/

/-- The worker waits for a queue that is empty and has producers. -/
def Blocked (s : BlockRun) (w : Worker) : Prop :=
  w = .waiting ∧ s.scheduler.zeroQueue.content = [] ∧ 0 < s.scheduler.zeroQueue.producerCount

theorem step_eq_none_iff {i : Nat} {w : Worker} (hw : s.workers[i]? = some w) :
    s.step executeOne i = none ↔ w.step executeOne s.scheduler = none := by
  unfold step
  rw [hw]
  simp only [Option.bind_eq_bind, Option.bind_some]
  cases w.step executeOne s.scheduler with
  | none => exact iff_of_true rfl rfl
  | some r => exact iff_of_false nofun nofun

/-- A worker that can make no step. -/
theorem worker_halted {w : Worker} (h : w.step executeOne s.scheduler = none) :
    w.Left ∨ s.Blocked w := by
  cases w with
  | waiting =>
    simp only [Worker.step, BlockingQueue.blockingDequeue] at h
    cases hq : s.scheduler.zeroQueue.content with
    | cons id content =>
      rw [hq] at h
      cases h
    | nil =>
      rw [hq] at h
      by_cases hp : s.scheduler.zeroQueue.producerCount > 0
      · exact .inr ⟨rfl, hq, hp⟩
      · simp [hp] at h
  | drained =>
    simp only [Worker.step] at h
    split at h <;> cases h
  | executing id =>
    simp only [Worker.step] at h
    split at h
    · cases h
    · split at h <;> cases h
  | submitting id statusCode =>
    simp only [Worker.step] at h
    split at h
    · cases h
    · split at h <;> cases h
  | releasing id adjacent =>
    cases adjacent with
    | nil => cases h
    | cons next adjacent =>
      simp only [Worker.step] at h
      split at h <;> cases h
  | enqueueing id next adjacent =>
    simp only [Worker.step] at h
    split at h <;> cases h
  | decrementing id => cases h
  | removing id => cases h
  | returned => exact .inl trivial
  | thrown e => exact .inl trivial
  | failed id e => exact .inl trivial

theorem halted_worker (h : s.Halted executeOne) {w : Worker} (hw : w ∈ s.workers) :
    w.Left ∨ s.Blocked w := by
  obtain ⟨i, hi⟩ := List.mem_iff_getElem?.mp hw
  exact worker_halted ((step_eq_none_iff hi).mp (h i))

theorem mem_config_workers {w : Worker} (hw : w ∈ s.workers) : w.phase ∈ s.config.workers :=
  Multiset.mem_map_of_mem Worker.phase (Multiset.mem_coe.mpr hw)

/-- At the end nobody is about to release an edge. -/
theorem resting_of_halted (h : s.Halted executeOne) : ∀ p ∈ s.config.workers, p.Resting := by
  intro p hp
  have hp : p ∈ (s.workers : Multiset Worker).map Worker.phase := hp
  obtain ⟨w, hw, rfl⟩ := Multiset.mem_map.mp hp
  obtain hleft | ⟨rfl, -⟩ := halted_worker h (Multiset.mem_coe.mp hw)
  · cases w <;> first | exact hleft.elim | trivial
  · trivial

end
end BlockRun
end Argennon
