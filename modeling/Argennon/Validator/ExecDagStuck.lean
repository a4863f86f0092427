import Argennon.Validator.ExecDagCorrect

/- The concurrent execution of a block whose requests may fail. A worker whose request fails
   leaves the loop as a producer of the queue: nobody removes it, and the workers that find the
   queue empty wait for it for ever. A run escapes this only when it leaves no worker to
   wait, every one of them having failed with a request of its own. -/
namespace Argennon

open DagTraversal

/-- The request fails, and no request before it does. -/
def FailsFirst (requests : BlockRequests) (executeOne : AppRequest → Except Exn Int)
    (v : Nat) : Prop :=
  ¬ Accepted requests executeOne v ∧ ∀ u, Relation.TransGen requests.Edge u v →
    Accepted requests executeOne u

open Classical in
/-- The requests that fail first. -/
noncomputable def firstFailures (requests : BlockRequests)
    (executeOne : AppRequest → Except Exn Int) : Finset Nat :=
  (Finset.range requests.length).filter (FailsFirst requests executeOne)

namespace BlockRun

/-- Every worker that has not left waits for the queue,
which is empty while its producers are counted. -/
def Stuck (s : BlockRun) : Prop :=
  (∀ w ∈ s.workers, w.Left ∨ s.Blocked w) ∧ ∃ w ∈ s.workers, s.Blocked w

/-- The caller gets the exception of a request that has failed. -/
def Delivers (requests : BlockRequests) (executeOne : AppRequest → Except Exn Int)
    (s : BlockRun) : Prop :=
  s.Finished → (∃ v ∈ s.executed, ¬ Accepted requests executeOne v) →
    ∃ v e, Throws requests executeOne v e ∧ s.result = .error e

section
variable {requests : BlockRequests} {executeOne : AppRequest → Except Exn Int} {k : Nat}
  {s : BlockRun}

theorem mem_firstFailures {v : Nat} :
    v ∈ firstFailures requests executeOne ↔ v < requests.length ∧
      FailsFirst requests executeOne v := by
  simp only [firstFailures, Finset.mem_filter, Finset.mem_range]

theorem holders_le (ws : Multiset (Phase Nat)) : (ws.filterMap Phase.holds).card ≤ ws.card := by
  induction ws using Multiset.induction with
  | empty => exact le_rfl
  | cons p ws ih =>
    rw [holders_worker, Multiset.card_cons]
    split <;> omega

theorem holders_eq {ws : Multiset (Phase Nat)} (h : ∀ p ∈ ws, p.holds.isSome) :
    (ws.filterMap Phase.holds).card = ws.card := by
  induction ws using Multiset.induction with
  | empty => rfl
  | cons p ws ih =>
    rw [holders_worker, Multiset.card_cons, if_pos (h p (Multiset.mem_cons_self p ws)),
      ih fun q hq => h q (Multiset.mem_cons_of_mem hq), Nat.add_comm]

theorem card_config_workers (s : BlockRun) : s.config.workers.card = s.workers.length :=
  Multiset.card_map Worker.phase s.workers

/-! ## Workers that have left, or wait -/

theorem resting_of_left (h : ∀ w ∈ s.workers, w.Left ∨ s.Blocked w) :
    ∀ p ∈ s.config.workers, p.Resting := by
  intro p hp
  obtain ⟨w, hw, rfl⟩ := mem_phase hp
  obtain hleft | ⟨rfl, -⟩ := h w hw
  · cases w <;> first | exact hleft.elim | trivial
  · trivial

/-- A worker that has left with a request has failed. -/
theorem failed_of_holds (h : ∀ w ∈ s.workers, w.Left ∨ s.Blocked w) {v : Nat}
    (hv : v ∈ s.config.workers.filterMap Phase.holds) :
    ∃ e, .failed v e ∈ s.workers := by
  obtain ⟨p, hp, hpv⟩ := (Multiset.mem_filterMap _ _).mp hv
  obtain ⟨w, hw, rfl⟩ := mem_phase hp
  obtain hleft | ⟨rfl, -⟩ := h w hw
  · cases w with
    | failed id e =>
      obtain rfl := Option.some.inj hpv
      exact ⟨e, hw⟩
    | returned => cases hpv
    | thrown e => cases hpv
    | _ => exact hleft.elim
  · cases hpv

/-- A request with which a worker has failed fails first. -/
theorem Sound.failsFirst (h : Sound requests executeOne k s)
    (hleft : ∀ w ∈ s.workers, w.Left ∨ s.Blocked w) {v : Nat} {e : Exn}
    (hv : .failed v e ∈ s.workers) : v ∈ firstFailures requests executeOne := by
  have hthrows : Throws requests executeOne v e := h.knows _ hv
  refine mem_firstFailures.mpr ⟨hthrows.lt, hthrows.not_accepted, fun u hu => ?_⟩
  apply h.accepted
  exact h.traversal.done_of_ancestor (resting_of_left hleft)
    (mem_tokens_of_holds (mem_config_workers hv) rfl) hu

theorem Sound.holders_nodup (h : Sound requests executeOne k s) :
    (s.config.workers.filterMap Phase.holds).Nodup := by
  have hnodup := h.traversal.nodup
  unfold Config.tokens at hnodup
  exact (Multiset.nodup_add.mp (Multiset.nodup_add.mp hnodup).1).2.1

/-- The workers that have failed are at most as many as the requests that fail first. -/
theorem Sound.holders_le_firstFailures (h : Sound requests executeOne k s)
    (hleft : ∀ w ∈ s.workers, w.Left ∨ s.Blocked w) :
    (s.config.workers.filterMap Phase.holds).card ≤ (firstFailures requests executeOne).card := by
  rw [← Multiset.toFinset_card_of_nodup h.holders_nodup]
  apply Finset.card_le_card
  intro v hv
  obtain ⟨e, hfailed⟩ := failed_of_holds hleft (Multiset.mem_toFinset.mp hv)
  exact h.failsFirst hleft hfailed

/-- When the queue is empty, every request that fails first was executed,
and has stopped a worker. -/
theorem Sound.firstFailures_le_holders (hwf : requests.WellFormed)
    (h : Sound requests executeOne k s)
    (hk : requests.SourcePrefix k) (hexec : requests.Executable)
    (hleft : ∀ w ∈ s.workers, w.Left ∨ s.Blocked w)
    (hqueue : s.scheduler.zeroQueue.content = []) :
    (firstFailures requests executeOne).card ≤ (s.config.workers.filterMap Phase.holds).card := by
  obtain ⟨hacyclic, k', -, hprefix⟩ := hexec
  have hquiet : Quiet s.config := ⟨hqueue, resting_of_left hleft⟩
  rw [← Multiset.toFinset_card_of_nodup h.holders_nodup]
  apply Finset.card_le_card
  intro v hv
  obtain ⟨hlt, hnot, hbefore⟩ := mem_firstFailures.mp hv
  have hmem : v ∈ s.config.tokens := by
    refine h.traversal.reached hquiet (hacyclic.acc hwf v) (fun u hu hsource => ?_)
      fun u hu hstopped => ?_
    · have hlt : u < requests.length := by
        obtain rfl | ⟨x, hux, -⟩ := Relation.ReflTransGen.cases_head hu
        · exact hlt
        · exact BlockRequests.lt_of_mem_adj hux
      exact List.mem_range.mpr ((hk.eq hprefix hlt).mp hsource)
    · obtain ⟨e, hfailed⟩ :=
        failed_of_holds hleft ((Multiset.mem_filterMap _ _).mpr ⟨_, hstopped, rfl⟩)
      exact (h.knows _ hfailed).not_accepted (hbefore u hu)
  rw [Multiset.mem_toFinset]
  obtain hstopped | hdone := hquiet.mem_tokens.mp hmem
  · exact (Multiset.mem_filterMap _ _).mpr ⟨_, hstopped, rfl⟩
  · exact absurd (h.accepted v hdone) hnot

/-! ## Stuck states -/

/-- A run that is stuck has some request that fails first, but more workers than these. -/
theorem Sound.lt_of_stuck (hwf : requests.WellFormed) (h : Sound requests executeOne k s)
    (hk : requests.SourcePrefix k) (hexec : requests.Executable) (hstuck : s.Stuck) :
    0 < (firstFailures requests executeOne).card ∧
      (firstFailures requests executeOne).card < s.workers.length := by
  obtain ⟨hleft, w, hw, rfl, hqueue, hproducers⟩ := hstuck
  have hle := h.holders_le_firstFailures hleft
  have hge := h.firstFailures_le_holders hwf hk hexec hleft hqueue
  rw [h.tracks.producers] at hproducers
  have hidle : Phase.idle ∈ s.config.workers := mem_config_workers hw
  obtain ⟨ws, hws⟩ := Multiset.exists_cons_of_mem hidle
  have hothers := holders_le ws
  have hcard := card_config_workers s
  rw [hws, Multiset.card_cons] at hcard
  have hholders : (s.config.workers.filterMap Phase.holds).card =
      (ws.filterMap Phase.holds).card := by
    rw [hws, holders_worker]
    exact Nat.zero_add _
  omega

/-- Where a run ends that is not stuck, no request fails first, or every worker has failed. -/
theorem Sound.le_of_finished (hwf : requests.WellFormed) (h : Sound requests executeOne k s)
    (hk : requests.SourcePrefix k) (hexec : requests.Executable) (hfinished : s.Finished) :
    (firstFailures requests executeOne).card = 0 ∨ s.workers.length ≤
    (firstFailures requests executeOne).card := by
  have hleft : ∀ w ∈ s.workers, w.Left ∨ s.Blocked w := fun w hw => .inl (hfinished w hw)
  by_cases hout : ∃ w ∈ s.workers, w.phase = .out
  · obtain ⟨w, hw, hphase⟩ := hout
    have hdrained := h.drained hw hphase
    have hge := h.firstFailures_le_holders hwf hk hexec hleft hdrained.1
    rw [hdrained.2] at hge
    exact .inl (Nat.le_zero.mp hge)
  · right
    have hle := h.holders_le_firstFailures hleft
    rw [holders_eq] at hle
    · rwa [card_config_workers] at hle
    · intro p hp
      obtain ⟨w, hw, rfl⟩ := mem_phase hp
      have hleft := hfinished w hw
      cases w with
      | failed id e => rfl
      | returned => exact absurd ⟨_, hw, rfl⟩ hout
      | thrown e => exact absurd ⟨_, hw, rfl⟩ hout
      | _ => exact hleft.elim

theorem Sound.delivers (h : Sound requests executeOne k s) : Delivers requests executeOne s := by
  intro hfinished ⟨v, hv, hnot⟩
  have hfailed : ∃ e, .failed v e ∈ s.workers := by
    rw [← Multiset.mem_coe, h.executed] at hv
    obtain hv | hv := Multiset.mem_add.mp hv
    · obtain ⟨w, hw, hwv⟩ := (Multiset.mem_filterMap _ _).mp hv
      refine failed_of_holds (fun w hw => .inl (hfinished w hw))
        ((Multiset.mem_filterMap _ _).mpr ?_)
      exact ⟨w.phase, mem_config_workers (Multiset.mem_coe.mp hw), executedID_holds hwv⟩
    · exact absurd (h.accepted v hv) hnot
  obtain ⟨e, hfailed⟩ := hfailed
  have hout : ∀ w ∈ s.workers, w.phase ≠ .out := by
    intro w hw hphase
    have hnone := (h.drained hw hphase).2
    have hmem : v ∈ s.config.workers.filterMap Phase.holds :=
      (Multiset.mem_filterMap _ _).mpr ⟨_, mem_config_workers hfailed, rfl⟩
    rw [hnone] at hmem
    exact Multiset.notMem_zero v hmem
  obtain ⟨w, rest, hws⟩ := List.exists_cons_of_ne_nil (List.ne_nil_of_mem hfailed)
  have hw : w ∈ s.workers := hws ▸ List.mem_cons_self
  have hleft := hfinished w hw
  cases w with
  | failed id e' =>
    refine ⟨id, e', h.knows _ hw, ?_⟩
    unfold result
    rw [hws]
    rfl
  | returned => exact absurd rfl (hout _ hw)
  | thrown e' => exact absurd rfl (hout _ hw)
  | _ => exact hleft.elim

end

/-- **Failing requests.** A graph that can be executed: no run gets stuck, and the exceptions of
failed requests reach the caller, exactly if no request fails first or no fewer requests fail first
than there are workers. -/
theorem parallelExecuteRequests_unstuck_iff {requests : BlockRequests}
    (executeOne : AppRequest → Except Exn Int)
    (hwf : requests.WellFormed) (hne : requests ≠ []) {ids : List Nat}
    (hids : ids.Perm (List.range requests.length))
    (hexec : requests.Executable) (workersCount : Nat) :
    ∃ finalized built, (RequestScheduler.loaded requests).finalizeRequests ids = .ok finalized ∧
      finalized.buildExecDag = .ok built ∧
      ((∀ s, Reaches executeOne (start built workersCount) s →
          ¬ s.Stuck ∧ Delivers requests executeOne s) ↔
        (firstFailures requests executeOne).card = 0 ∨
          workersCount ≤ (firstFailures requests executeOne).card) := by
  obtain ⟨finalized, hfinalized, hloaded⟩ := RequestScheduler.loaded_finalizes hwf hids
  obtain ⟨k, hk, ⟨rfl, -⟩ | ⟨-, hbuild⟩⟩ := RequestScheduler.buildExecDag_cases hids hloaded
  · exact absurd hexec (not_executable_of_zero hne hk)
  have hstart := Sound.start executeOne hwf hids hloaded hk workersCount
  have hlength {s} (hrun : Reaches executeOne
      (start { finalized with zeroQueue := { content := List.range k } } workersCount) s) :
      s.workers.length = workersCount := by
    rw [length_workers hrun, start, List.length_replicate]
  refine ⟨finalized, _, hfinalized, hbuild, fun h => ?_, fun h s hrun => ?_⟩
  · obtain ⟨s, hrun, hhalted⟩ := hstart.halts hwf hk.le
    have hfinished : s.Finished := by
      intro w hw
      refine (halted_worker hhalted hw).resolve_right fun hblocked => (h s hrun).1 ?_
      exact ⟨fun w hw => halted_worker hhalted hw, w, hw, hblocked⟩
    have hle := (hstart.reaches hwf hk.le hrun).le_of_finished hwf hk hexec hfinished
    rwa [hlength hrun] at hle
  · have hsound := hstart.reaches hwf hk.le hrun
    refine ⟨fun hstuck => ?_, hsound.delivers⟩
    have hbounds := hsound.lt_of_stuck hwf hk hexec hstuck
    rw [hlength hrun] at hbounds
    omega

end BlockRun

/-- Two requests, the second one after the first. -/
def BlockRequests.chain : BlockRequests :=
  [(plainRequest, [1]), ({ plainRequest with id := 1 }, [])]

/-- The second one fails. -/
def chainResult (req : AppRequest) : Except Exn Int :=
  if req.id = 1 then .error (.blockError "an optimistic call failed") else .ok 200

namespace BlockRequests

theorem chain_edge {u v : Nat} : chain.Edge u v ↔ u = 0 ∧ v = 1 := by
  unfold Edge adj chain
  obtain _ | _ | u := u <;> simp

theorem chain_reaches {u v : Nat} : Relation.TransGen chain.Edge u v ↔ u = 0 ∧ v = 1 := by
  refine ⟨fun h => ?_, fun h => .single (chain_edge.mpr h)⟩
  induction h with
  | single h => exact chain_edge.mp h
  | tail _ h ih =>
    have hmiddle := (chain_edge.mp h).1
    omega

theorem chain_wellFormed : chain.WellFormed where
  nodup v := by
    obtain _ | _ | v := v
    · exact List.nodup_singleton 1
    · exact List.nodup_nil
    · exact List.nodup_nil
  lt v x hx := by
    obtain ⟨rfl, rfl⟩ := chain_edge.mp hx
    decide

theorem chain_executable : chain.Executable := by
  refine ⟨fun v hv => ?_, 1, Nat.one_pos, fun v hv => ⟨fun hsource => ?_, fun hlt u hu => ?_⟩⟩
  · have hends := chain_reaches.mp hv
    omega
  · have hlength : chain.length = 2 := rfl
    by_contra hge
    exact hsource 0 (chain_edge.mpr ⟨rfl, by omega⟩)
  · have hend := (chain_edge.mp hu).2
    omega

theorem chain_accepted {v : Nat} : Accepted chain chainResult v ↔ v = 0 := by
  refine ⟨?_, ?_⟩
  · rintro ⟨r, statusCode, hr, hresult, -⟩
    obtain _ | _ | v := v
    · rfl
    · obtain rfl := Option.some.inj hr
      cases hresult
    · cases hr
  · rintro rfl
    exact ⟨_, 200, rfl, rfl, by decide⟩

theorem chain_firstFailures : firstFailures chain chainResult = {1} := by
  ext v
  rw [BlockRun.mem_firstFailures, Finset.mem_singleton]
  unfold FailsFirst
  have hlength : chain.length = 2 := rfl
  constructor
  · rintro ⟨hlt, hnot, -⟩
    rw [chain_accepted] at hnot
    omega
  · rintro rfl
    refine ⟨by decide, by rw [chain_accepted]; decide, fun u hu => ?_⟩
    exact chain_accepted.mpr (chain_reaches.mp hu).1

end BlockRequests

namespace BlockRun

/-- A request after which another one fails, and two workers: some run gets stuck, or does not
deliver the exception. -/
theorem parallelExecuteRequests_unstuck_chain :
    ∃ finalized built, (RequestScheduler.loaded BlockRequests.chain).finalizeRequests [1, 0] =
      .ok finalized ∧
      finalized.buildExecDag = .ok built ∧
      ∃ s, Reaches chainResult (start built 2) s ∧
        ¬ (¬ s.Stuck ∧ Delivers BlockRequests.chain chainResult s) := by
  have hids : [1, 0].Perm (List.range BlockRequests.chain.length) := List.Perm.swap 0 1 []
  obtain ⟨finalized, built, hfinalized, hbuilt, hunstuck⟩ :=
    parallelExecuteRequests_unstuck_iff chainResult
    BlockRequests.chain_wellFormed (List.cons_ne_nil _ _) hids BlockRequests.chain_executable 2
  refine ⟨finalized, built, hfinalized, hbuilt, ?_⟩
  by_contra hnone
  have hcard := hunstuck.mp fun s hrun => by_contra fun h => hnone ⟨s, hrun, h⟩
  rw [BlockRequests.chain_firstFailures, Finset.card_singleton] at hcard
  omega

/-- One optimistic request that fails, and two workers: the first worker leaves, the second one
waits for ever. -/
theorem failed_request_leaves_worker :
    let requests := BlockRequests.unordered [plainRequest]
    requests.WellFormed ∧ requests.Executable ∧
      ∃ finalized built s, (RequestScheduler.loaded requests).finalizeRequests [0] = .ok finalized ∧
        finalized.buildExecDag = .ok built ∧
        Reaches (fun _ => .error (.blockError "an optimistic call failed")) (start built 2) s ∧
          s.Stuck := by
  refine ⟨BlockRequests.unordered_wellFormed,
    BlockRequests.unordered_executable (List.cons_ne_nil _ _), _, _, _, rfl, rfl,
    .tail (.tail .refl ⟨0, rfl⟩) ⟨0, rfl⟩, ?_, ?_⟩
  · intro w hw
    obtain rfl | hw := List.mem_cons.mp hw
    · exact .inl trivial
    · obtain rfl := List.mem_singleton.mp hw
      exact .inr ⟨rfl, rfl, by decide⟩
  · exact ⟨.waiting, List.mem_cons_of_mem _ List.mem_cons_self, rfl, rfl, by decide⟩

end BlockRun
end Argennon
