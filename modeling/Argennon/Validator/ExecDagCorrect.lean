import Argennon.Validator.ExecDagProgress
import Argennon.Validator.ExecDagStart
import Mathlib.Order.WellFounded

/- The concurrent execution of a block: what holds in every state of every run, and where a
   run ends. A run of a block whose graph has no cycle, and whose sources are the first
   requests, executes every request; every other run ends in a `BlockError`. -/
namespace Argennon

open DagTraversal

namespace BlockRequests

/-- The edges of the graph. -/
abbrev Edge (requests : BlockRequests) (u v : Nat) : Prop := v ∈ requests.adj u

/-- No request is its own ancestor. -/
def Acyclic (requests : BlockRequests) : Prop := ∀ v, ¬ Relation.TransGen requests.Edge v v

/-- The graphs that can be executed: without a cycle, the sources being the first requests. -/
def Executable (requests : BlockRequests) : Prop :=
  requests.Acyclic ∧ ∃ k, 0 < k ∧ ∀ v < requests.length, requests.Source v ↔ v < k

section
variable {requests : BlockRequests}

/-- In a graph without a cycle every request has finitely many ancestors in every direction. -/
theorem Acyclic.acc (hwf : requests.WellFormed) (h : requests.Acyclic) (v : Nat) :
    Acc requests.Edge v := by
  let r : Fin requests.length → Fin requests.length → Prop :=
    fun u v => Relation.TransGen requests.Edge u v
  have : IsTrans (Fin requests.length) r := ⟨fun _ _ _ => Relation.TransGen.trans⟩
  have : Std.Irrefl r := ⟨fun v => h v⟩
  have hacc : ∀ v : Fin requests.length, Acc requests.Edge v := by
    intro v
    induction v using (Finite.wellFounded_of_trans_of_irrefl r).induction with
    | _ v ih => exact Acc.intro _ fun u hu => ih ⟨u, lt_of_mem_adj hu⟩ (.single hu)
  by_cases hlt : v < requests.length
  · exact hacc ⟨v, hlt⟩
  · exact Acc.intro v fun u hu => absurd (hwf.lt u v hu) hlt

theorem not_rel_self_of_acc {α : Type} {r : α → α → Prop} {a : α} (h : Acc r a) : ¬ r a a := by
  induction h with
  | intro a _ ih => exact fun ha => ih a ha ha

theorem acyclic_of_acc (h : ∀ v < requests.length, Acc requests.Edge v) : requests.Acyclic := by
  intro v hv
  obtain ⟨x, hx, -⟩ := Relation.TransGen.head'_iff.mp hv
  exact not_rel_self_of_acc (h v (lt_of_mem_adj hx)).transGen hv

/-- The sources are the requests that were enqueued at the start,
if they are any first requests. -/
theorem SourcePrefix.eq {k k' : Nat} (h : requests.SourcePrefix k)
    (hk' : ∀ v < requests.length, requests.Source v ↔ v < k') {v : Nat} (hv : v < requests.length) :
    requests.Source v ↔ v < k := by
  refine ⟨fun hs => ?_, h.source v⟩
  by_contra hvk
  have hlt : k < requests.length := by omega
  have : v < k' := (hk' v hv).mp hs
  exact h.stop hlt ((hk' k hlt).mpr (by omega))

end

/-- Requests without edges. -/
def unordered (requests : List AppRequest) : BlockRequests := requests.map fun r => (r, [])

section
variable {requests : List AppRequest}

theorem unordered_adj (v : Nat) : (unordered requests).adj v = [] := by
  unfold unordered adj
  rw [List.getElem?_map]
  cases requests[v]? <;> rfl

theorem unordered_wellFormed : (unordered requests).WellFormed where
  nodup v := by
    rw [unordered_adj]
    exact List.nodup_nil
  lt v x hx := by
    rw [unordered_adj] at hx
    cases hx

theorem unordered_executable (hne : requests ≠ []) : (unordered requests).Executable := by
  have hedge : ∀ u v, ¬ (unordered requests).Edge u v := fun u v h => by
    rw [Edge, unordered_adj] at h
    cases h
  refine ⟨fun v hv => ?_, requests.length, List.length_pos_iff.mpr hne,
    fun v hv => iff_of_true (fun u => hedge u v) ?_⟩
  · obtain ⟨x, hx, -⟩ := Relation.TransGen.head'_iff.mp hv
    exact hedge v x hx
  · rwa [unordered, List.length_map] at hv

end
end BlockRequests

namespace BlockRun

/-- What holds in every state of a run. -/
structure Safe (requests : BlockRequests) (s : BlockRun) : Prop where
  /-- No request is executed twice. -/
  once : s.executed.Nodup
  /-- A request is executed after the results of its predecessors were submitted. -/
  after : ∀ v, (.executing v ∈ s.workers ∨ v ∈ s.executed) → ∀ u, requests.Edge u v →
    u ∈ s.submitted
  /-- Workers leave with one exception only: no assertion fails,
  and no node that was reset is used. -/
  leaves : ∀ w ∈ s.workers, ∀ e, w.get = .error e → e = .blockError "execution graph is not a dag"
  /-- A worker gets no request when every request was submitted. -/
  all : .returned ∈ s.workers → s.scheduler.remaining = 0 ∧ ∀ v < requests.length, v ∈ s.completed

/-- How a run ends: with every request executed if the graph can be executed, otherwise with a
`BlockError`. -/
structure Ended (requests : BlockRequests) (s : BlockRun) : Prop where
  finished : s.Finished
  result : (requests.Executable ∧ (∀ v < requests.length, v ∈ s.executed) ∧
    s.result = .ok s.responseList) ∨
    (¬ requests.Executable ∧ s.result = .error (.blockError "execution graph is not a dag"))

section
variable {requests : BlockRequests} {executeOne : AppRequest → Except Exn Int} {k : Nat}
  {s : BlockRun}

theorem mem_phase {p : Phase Nat} (h : p ∈ s.config.workers) : ∃ w ∈ s.workers, w.phase = p := by
  have h : p ∈ (s.workers : Multiset Worker).map Worker.phase := h
  obtain ⟨w, hw, rfl⟩ := Multiset.mem_map.mp h
  exact ⟨w, Multiset.mem_coe.mp hw, rfl⟩

theorem executedID_holds {w : Worker} {v : Nat} (h : w.executedID = some v) :
    w.phase.holds = some v := by
  cases w <;> first | exact h | cases h

theorem submittedID_of_released {w : Worker} {u v : Nat} (h : w.phase.Released u v) :
    w.submittedID = some u := by
  cases w with
  | releasing id adjacent => exact congrArg some h.1
  | enqueueing id next adjacent => exact congrArg some h.1
  | decrementing id => exact congrArg some h
  | removing id => exact congrArg some h
  | _ => exact h.elim

/-- A request that a worker has executed is one that it holds. -/
theorem filterMap_executedID_le (ws : Multiset Worker) :
    ws.filterMap Worker.executedID ≤ (ws.map Worker.phase).filterMap Phase.holds := by
  induction ws using Multiset.induction with
  | empty => exact le_rfl
  | cons w ws ih =>
    rw [Multiset.map_cons]
    cases hw : w.executedID with
    | some v =>
      rw [Multiset.filterMap_cons_some _ _ _ hw,
        Multiset.filterMap_cons_some _ _ _ (executedID_holds hw)]
      exact Multiset.cons_le_cons v ih
    | none =>
      rw [Multiset.filterMap_cons_none _ _ hw]
      cases hh : w.phase.holds with
      | none =>
        rw [Multiset.filterMap_cons_none _ _ hh]
        exact ih
      | some v =>
        rw [Multiset.filterMap_cons_some _ _ _ hh]
        exact ih.trans (Multiset.le_cons_self _ _)

/-- The executed requests are tokens. -/
theorem Sound.executed_le (h : Sound requests executeOne k s) :
    (s.executed : Multiset Nat) ≤ s.config.tokens := by
  rw [h.executed]
  unfold Config.tokens
  apply add_le_add_left
  exact (filterMap_executedID_le _).trans (Multiset.le_add_left _ _)

theorem Sound.submitted_of_released (h : Sound requests executeOne k s) {u v : Nat}
    (hr : s.config.Released u v) :
    u ∈ s.submitted := by
  rw [← Multiset.mem_coe, h.submitted]
  obtain hd | ⟨p, hp, hr⟩ := hr
  · exact Multiset.mem_add.mpr (.inr hd)
  · obtain ⟨w, hw, rfl⟩ := mem_phase hp
    exact Multiset.mem_add.mpr
      (.inl ((Multiset.mem_filterMap _ _).mpr ⟨w, hw, submittedID_of_released hr⟩))

/-- A worker has left the loop without a request: nothing is queued, and nobody has a request. -/
theorem Sound.drained (h : Sound requests executeOne k s) {w : Worker} (hw : w ∈ s.workers)
    (hout : w.phase = .out) :
    s.config.Drained := h.traversal.drained (hout ▸ mem_config_workers hw)

theorem removed_eq_zero (hdrained : s.config.Drained) :
    (s.workers : Multiset Worker).filterMap Worker.removedID = 0 := by
  rw [Multiset.eq_zero_iff_forall_notMem]
  intro v hv
  obtain ⟨w, hw, hwv⟩ := (Multiset.mem_filterMap _ _).mp hv
  have hmem : v ∈ s.config.workers.filterMap Phase.holds := by
    refine (Multiset.mem_filterMap _ _).mpr ⟨w.phase,
      mem_config_workers (Multiset.mem_coe.mp hw), ?_⟩
    cases w <;> first | exact hwv | cases hwv
  rw [hdrained.2] at hmem
  exact absurd hmem (Multiset.notMem_zero v)

theorem Sound.completed_nodup (h : Sound requests executeOne k s) : s.completed.Nodup := by
  have := h.traversal.nodup
  unfold Config.tokens at this
  exact (Multiset.nodup_add.mp this).2.1

theorem Sound.completed_lt (hwf : requests.WellFormed) (hk : k ≤ requests.length)
    (h : Sound requests executeOne k s)
    {v : Nat} (hv : v ∈ s.completed) : v < requests.length :=
  tokens_lt hwf (fun _ hx => Nat.lt_of_lt_of_le (List.mem_range.mp hx) hk) h.traversal
    (mem_tokens_of_done hv)

/-- Every request is completed when their number is that of all. -/
theorem Sound.all_completed (hwf : requests.WellFormed) (hk : k ≤ requests.length)
    (h : Sound requests executeOne k s)
    (hlength : s.completed.length = requests.length) : ∀ v < requests.length, v ∈ s.completed := by
  have hsubset : s.completed ⊆ List.range requests.length :=
    fun v hv => List.mem_range.mpr (h.completed_lt hwf hk hv)
  have hperm := (h.completed_nodup.subperm hsubset).perm_of_length_le
    (by rw [List.length_range, hlength])
  exact fun v hv => hperm.mem_iff.mpr (List.mem_range.mpr hv)

theorem Sound.length_completed (h : Sound requests executeOne k s) (hdrained : s.config.Drained) :
    s.scheduler.remaining + s.completed.length = requests.length := by
  have hremaining := h.remaining
  rw [removed_eq_zero hdrained, Multiset.card_zero] at hremaining
  omega

/-- The states of runs whose requests are all accepted. -/
theorem Sound.safe (hwf : requests.WellFormed) (hk : k ≤ requests.length)
    (h : Sound requests executeOne k s)
    (haccepted : ∀ v < requests.length, Accepted requests executeOne v) : Safe requests s where
  once := Multiset.nodup_of_le h.executed_le h.traversal.nodup
  after v hv u hu := by
    have htoken : v ∈ s.config.tokens := by
      obtain hv | hv := hv
      · exact mem_tokens_of_holds (mem_config_workers hv) rfl
      · exact Multiset.mem_of_le h.executed_le hv
    exact h.submitted_of_released (h.traversal.ready v htoken u hu)
  leaves w hw e he := by
    cases w with
    | thrown e' =>
      obtain rfl := Except.error.inj he
      exact (h.knows _ hw).2
    | failed id e' =>
      have hthrows : Throws requests executeOne id e' := h.knows _ hw
      exact absurd (haccepted _ hthrows.lt) hthrows.not_accepted
    | _ => cases he
  all hreturned := by
    have hzero : s.scheduler.remaining = 0 := h.knows _ hreturned
    have hlength := h.length_completed (h.drained hreturned rfl)
    exact ⟨hzero, h.all_completed hwf hk (by omega)⟩

/-! ## The end -/

/-- A worker that nobody waits for has no request at the end. -/
theorem Sound.finished (h : Sound requests executeOne k s) (hhalted : s.Halted executeOne)
    (haccepted : ∀ v < requests.length, Accepted requests executeOne v) :
    ∀ w ∈ s.workers, w.Left ∧ w.phase = .out := by
  have hnot : ∀ w ∈ s.workers, ∀ id e, w ≠ .failed id e := by
    rintro w hw id e rfl
    have hthrows : Throws requests executeOne id e := h.knows _ hw
    exact hthrows.not_accepted (haccepted _ hthrows.lt)
  have hholds : s.config.workers.filterMap Phase.holds = 0 := by
    rw [Multiset.eq_zero_iff_forall_notMem]
    intro v hv
    obtain ⟨p, hp, hpv⟩ := (Multiset.mem_filterMap _ _).mp hv
    obtain ⟨w, hw, rfl⟩ := mem_phase hp
    obtain hleft | ⟨rfl, -⟩ := halted_worker hhalted hw
    · cases w <;> first | exact hleft.elim | cases hpv
      exact hnot _ hw _ _ rfl
    · cases hpv
  intro w hw
  obtain hleft | ⟨-, -, hproducers⟩ := halted_worker hhalted hw
  · refine ⟨hleft, ?_⟩
    cases w with
    | returned => rfl
    | thrown e => rfl
    | failed id e => exact absurd rfl (hnot _ hw id e)
    | _ => exact hleft.elim
  · rw [h.tracks.producers, hholds] at hproducers
    exact absurd hproducers (by decide)

theorem length_workers {t : BlockRun} (hrun : Reaches executeOne s t) :
    t.workers.length = s.workers.length := by
  induction hrun with
  | refl => rfl
  | tail _ hstep ih =>
    obtain ⟨i, hi⟩ := hstep
    obtain ⟨w, w', scheduler, ws, -, -, rfl, -⟩ := step_parts hi
    exact (List.length_set).trans ih

/-- When every request was submitted the graph can be executed. -/
theorem Sound.executable (h : Sound requests executeOne k s) (hk : requests.SourcePrefix k)
    (hpos : 0 < k)
    (hall : ∀ v < requests.length, v ∈ s.completed) : requests.Executable := by
  have htoken : ∀ v < requests.length, v ∈ s.config.tokens :=
    fun v hv => mem_tokens_of_done (hall v hv)
  refine ⟨BlockRequests.acyclic_of_acc fun v hv => h.traversal.acc v (htoken v hv), k, hpos,
    fun v hv => ?_⟩
  refine ⟨fun hs => ?_, hk.source v⟩
  obtain hinit | ⟨u, hu⟩ := h.traversal.origin v (htoken v hv)
  · exact List.mem_range.mp hinit
  · exact absurd hu (hs u)

/-- In a graph that can be executed every request is submitted before the workers leave. -/
theorem Sound.completed_of_executable (hwf : requests.WellFormed)
    (h : Sound requests executeOne k s)
    (hk : requests.SourcePrefix k) (hexec : requests.Executable) (hquiet : Quiet s.config)
    (hout : ∀ w ∈ s.workers, w.phase = .out) {v : Nat} (hv : v < requests.length) :
    v ∈ s.completed := by
  obtain ⟨hacyclic, k', -, hprefix⟩ := hexec
  have hstopped : ∀ u, .stopped u ∉ s.config.workers := by
    intro u hu
    obtain ⟨w, hw, hphase⟩ := mem_phase hu
    rw [hout w hw] at hphase
    cases hphase
  have hmem : v ∈ s.config.tokens := by
    refine h.traversal.reached hquiet (hacyclic.acc hwf v) (fun u hu hsource => ?_) fun u _ =>
      hstopped u
    have hlt : u < requests.length := by
      obtain rfl | ⟨x, hux, -⟩ := Relation.ReflTransGen.cases_head hu
      · exact hv
      · exact BlockRequests.lt_of_mem_adj hux
    exact List.mem_range.mpr ((hk.eq hprefix hlt).mp hsource)
  obtain hs | hd := hquiet.mem_tokens.mp hmem
  · exact absurd hs (hstopped v)
  · exact hd

theorem result_ok (h : ∀ w ∈ s.workers, w = .returned) : s.result = .ok s.responseList := by
  have : forEach Worker.get s.workers = .ok () := forEach_ok.mpr fun w hw => by
    rw [h w hw]
    rfl
  unfold result
  rw [this]
  rfl

theorem result_error {e : Exn} (hne : s.workers ≠ []) (h : ∀ w ∈ s.workers, w = .thrown e) :
    s.result = .error e := by
  obtain ⟨w, rest, hws⟩ := List.exists_cons_of_ne_nil hne
  have hw : w = .thrown e := h w (hws ▸ List.mem_cons_self)
  unfold result
  rw [hws, hw]
  rfl

/-- How a run ends that started with the sources `0, ..., k - 1`. -/
theorem Sound.ends (hwf : requests.WellFormed) (h : Sound requests executeOne k s)
    (hk : requests.SourcePrefix k) (hpos : 0 < k)
    (haccepted : ∀ v < requests.length, Accepted requests executeOne v) (hne : s.workers ≠ [])
    (hhalted : s.Halted executeOne) : Ended requests s := by
  have hfinished := h.finished hhalted haccepted
  refine ⟨fun w hw => (hfinished w hw).1, ?_⟩
  have hexecuted : ∀ v ∈ s.completed, v ∈ s.executed := fun v hv => by
    rw [← Multiset.mem_coe, h.executed]
    exact Multiset.mem_add.mpr (.inr hv)
  obtain ⟨w₀, hw₀⟩ := List.exists_mem_of_ne_nil _ hne
  have hdrained := h.drained hw₀ (hfinished w₀ hw₀).2
  have hlength := h.length_completed hdrained
  have hout : ∀ w ∈ s.workers, w.phase = .out := fun w hw => (hfinished w hw).2
  have hquiet : Quiet s.config := ⟨hdrained.1, resting_of_halted hhalted⟩
  -- the counter of the requests that remain tells the two ends apart
  by_cases hzero : s.scheduler.remaining = 0
  · have hall := h.all_completed hwf hk.le (by omega)
    refine .inl ⟨h.executable hk hpos hall, fun v hv => hexecuted v (hall v hv),
      result_ok fun w hw => ?_⟩
    have hleft := hfinished w hw
    cases w with
    | returned => rfl
    | thrown e => exact absurd hzero (h.knows _ hw).1
    | failed id e => cases hleft.2
    | _ => exact hleft.1.elim
  · refine .inr ⟨fun hexec => hzero ?_, result_error hne fun w hw => ?_⟩
    · have hsubset : List.range requests.length ⊆ s.completed := fun v hv =>
        h.completed_of_executable hwf hk hexec hquiet hout (List.mem_range.mp hv)
      have hle := (List.nodup_range.subperm hsubset).length_le
      rw [List.length_range] at hle
      have hle' := (h.completed_nodup.subperm fun v hv =>
        List.mem_range.mpr (h.completed_lt hwf hk.le hv)).length_le
      rw [List.length_range] at hle'
      omega
    · have hleft := hfinished w hw
      cases w with
      | returned => exact absurd (h.knows _ hw) hzero
      | thrown e => rw [(h.knows _ hw).2]
      | failed id e => cases hleft.2
      | _ => exact hleft.1.elim

end

/-- A graph without requests at the start of its queue cannot be executed. -/
theorem not_executable_of_zero {requests : BlockRequests} (hne : requests ≠ [])
    (h : requests.SourcePrefix 0) :
    ¬ requests.Executable := by
  rintro ⟨-, k, hpos, hk⟩
  have hlt := List.length_pos_iff.mpr hne
  exact h.stop hlt ((hk 0 hlt).mpr hpos)

/-- **The concurrent execution of a block.** Every request is accepted: then `buildExecDag`
rejects a graph that cannot be executed, or, whatever the order of the steps, every state is
safe, the run ends, and it ends well if and only if the graph can be executed. The
constructor of `RequestProcessor` sees to it that there are workers. -/
theorem parallelExecuteRequests_correct {requests : BlockRequests}
    (executeOne : AppRequest → Except Exn Int)
    (hwf : requests.WellFormed) (hne : requests ≠ []) {ids : List Nat}
    (hids : ids.Perm (List.range requests.length))
    {workersCount : Nat} (hworkers : 0 < workersCount)
    (haccepted : ∀ v < requests.length, Accepted requests executeOne v) :
    ∃ finalized, (RequestScheduler.loaded requests).finalizeRequests ids = .ok finalized ∧
      ((¬ requests.Executable ∧
          finalized.buildExecDag =
            .error (.blockError "source node of the execution DAG is missing")) ∨
        ∃ built, finalized.buildExecDag = .ok built ∧
          (∀ s, Reaches executeOne (start built workersCount) s → Safe requests s) ∧
          (∀ run : Nat → BlockRun, run 0 = start built workersCount →
            ∃ m, ¬ Step executeOne (run m) (run (m + 1))) ∧
          ∀ s, Reaches executeOne (start built workersCount) s → s.Halted executeOne →
            Ended requests s) := by
  obtain ⟨finalized, hfinalized, hloaded⟩ := RequestScheduler.loaded_finalizes hwf hids
  refine ⟨finalized, hfinalized, ?_⟩
  obtain ⟨k, hk, ⟨rfl, hbuild⟩ | ⟨hpos, hbuild⟩⟩ := RequestScheduler.buildExecDag_cases hids hloaded
  · exact .inl ⟨not_executable_of_zero hne hk, hbuild⟩
  · have hstart := Sound.start executeOne hwf hids hloaded hk workersCount
    have hreaches {s} (hrun : Reaches executeOne (start _ workersCount) s) :=
      hstart.reaches hwf hk.le hrun
    refine .inr ⟨_, hbuild, fun s hrun => ?_, hstart.terminates hwf hk.le, fun s hrun hhalted => ?_⟩
    · exact (hreaches hrun).safe hwf hk.le haccepted
    · refine (hreaches hrun).ends hwf hk hpos haccepted ?_ hhalted
      rw [ne_eq, ← List.length_eq_zero_iff, length_workers hrun, start, List.length_replicate]
      omega

/-- A block that can be executed and whose requests are all accepted has a run that
returns normally. -/
theorem exists_normal_run {requests : BlockRequests} {executeOne : AppRequest → Except Exn Int}
    (hwf : requests.WellFormed)
    (hne : requests ≠ []) (hexec : requests.Executable) {workersCount : Nat}
    (hworkers : 0 < workersCount)
    (haccepted : ∀ v < requests.length, Accepted requests executeOne v) :
    ∃ finalized built s, (RequestScheduler.loaded requests).finalizeRequests
      (List.range requests.length) = .ok finalized ∧
      finalized.buildExecDag = .ok built ∧ Reaches executeOne (start built workersCount) s ∧
        s.Finished ∧
      (∀ v < requests.length, v ∈ s.executed) ∧ s.result = .ok s.responseList := by
  have hids : (List.range requests.length).Perm (List.range requests.length) := List.Perm.refl _
  obtain ⟨finalized, hfinalized, hloaded⟩ := RequestScheduler.loaded_finalizes hwf hids
  obtain ⟨k, hk, ⟨rfl, -⟩ | ⟨hpos, hbuild⟩⟩ := RequestScheduler.buildExecDag_cases hids hloaded
  · exact absurd hexec (not_executable_of_zero hne hk)
  have hstart := Sound.start executeOne hwf hids hloaded hk workersCount
  obtain ⟨s, hrun, hhalted⟩ := hstart.halts hwf hk.le
  have hended : Ended requests s := by
    refine (hstart.reaches hwf hk.le hrun).ends hwf hk hpos haccepted ?_ hhalted
    rw [ne_eq, ← List.length_eq_zero_iff, length_workers hrun, start, List.length_replicate]
    omega
  obtain ⟨-, hexecuted, hresult⟩ := hended.result.resolve_right fun h => h.1 hexec
  exact ⟨finalized, _, s, hfinalized, hbuild, hrun, hended.finished, hexecuted, hresult⟩

/-- Two requests, the second one after the first one. -/
def pairRequests : BlockRequests := [(plainRequest, [1]), (plainRequest, [])]

theorem pairRequests_wellFormed : pairRequests.WellFormed := by
  have hadj : ∀ v, pairRequests.adj v = if v = 0 then [1] else [] := fun v =>
    match v with
    | 0 => rfl
    | 1 => rfl
    | _ + 2 => rfl
  refine ⟨fun v => ?_, fun v x hx => ?_⟩
  · rw [hadj]
    split <;> decide
  · rw [hadj] at hx
    split at hx
    · rw [List.mem_singleton.mp hx]
      decide
    · cases hx

/-- Two workers execute two requests with one edge. -/
theorem parallelExecuteRequests_correct_pair :
    ∃ finalized, (RequestScheduler.loaded pairRequests).finalizeRequests [1, 0] = .ok finalized ∧
      ((¬ pairRequests.Executable ∧
          finalized.buildExecDag =
            .error (.blockError "source node of the execution DAG is missing")) ∨
        ∃ built, finalized.buildExecDag = .ok built ∧
          (∀ s, Reaches (fun _ => .ok 200) (start built 2) s → Safe pairRequests s) ∧
          (∀ run : Nat → BlockRun, run 0 = start built 2 →
            ∃ m, ¬ Step (fun _ => .ok 200) (run m) (run (m + 1))) ∧
          ∀ s, Reaches (fun _ => .ok 200) (start built 2) s → s.Halted (fun _ => .ok 200) →
            Ended pairRequests s) := by
  refine parallelExecuteRequests_correct (fun _ => .ok 200) pairRequests_wellFormed
    (List.cons_ne_nil _ _)
    (List.Perm.swap 0 1 []) (by decide) fun v hv => ?_
  exact ⟨_, 200, List.getElem?_eq_getElem hv, rfl, fun h => absurd h.1 (by decide)⟩

end BlockRun
end Argennon
