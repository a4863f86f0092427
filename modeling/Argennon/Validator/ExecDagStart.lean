import Argennon.Validator.ExecDagRuns
import Mathlib.Algebra.BigOperators.Ring.Finset

/- The start of a run: the in-degrees after every request was finalized, and the sources that
   `buildExecDag` enqueues. -/
namespace Argennon

open DagTraversal

namespace BlockRequests

/-- No edge leads to the request. -/
def Source (requests : BlockRequests) (v : Nat) : Prop := ∀ u, v ∉ requests.adj u

/-- The requests that `buildExecDag` enqueues: the sources before the first request that is none. -/
structure SourcePrefix (requests : BlockRequests) (k : Nat) : Prop where
  le : k ≤ requests.length
  source : ∀ v < k, requests.Source v
  stop : k < requests.length → ¬ requests.Source k

end BlockRequests

namespace RequestScheduler

/-- The scheduler of a block whose nodes have the in-degrees `degree`,
before anything is enqueued. -/
structure Loaded (requests : BlockRequests) (degree : Nat → Nat) (s : RequestScheduler) : Prop where
  queue : s.zeroQueue = {}
  remaining : s.remaining = requests.length
  length : s.nodeIndex.length = requests.length
  node : ∀ v r, requests[v]? = some r →
    s.nodeAt v = .ok { request := r.1, adjList := r.2, inDegree := degree v }

section
variable {requests : BlockRequests} {degree : Nat → Nat} {s : RequestScheduler}

theorem loaded_loaded (requests : BlockRequests) : Loaded requests (fun _ => 0)
    (loaded requests) where
  queue := rfl
  remaining := rfl
  length := List.length_map _
  node v r hr := by
    unfold loaded nodeAt
    simp [hr]

/-- An in-degree is incremented. -/
theorem Loaded.increment (h : Loaded requests degree s) {x : Nat} (hx : x < requests.length) :
    ∃ t, s.incrementInDegree x = .ok t ∧
      Loaded requests (fun v => degree v + if v = x then 1 else 0) t := by
  obtain ⟨r, hr⟩ := getElem?_of_lt hx
  have hnode := h.node x r hr
  refine ⟨s.setNode x (some { request := r.1, adjList := r.2, inDegree := (degree x : Int) + 1 }),
    ?_, h.queue, h.remaining, ?_, ?_⟩
  · simp [incrementInDegree, hnode, bind, Except.bind]
  · simp [setNode, h.length]
  · intro v r' hr'
    by_cases hv : v = x
    · subst hv
      obtain rfl := Option.some.inj (hr.symm.trans hr')
      rw [nodeAt_setNode_self (h.length.symm ▸ hx), if_pos rfl]
      rfl
    · rw [nodeAt_setNode v hv, if_neg hv]
      exact h.node v r' hr'

theorem Loaded.increments :
    ∀ {l : List Nat} {degree : Nat → Nat} {s : RequestScheduler}, Loaded requests degree s →
    (∀ x ∈ l, x < requests.length) →
    ∃ t, l.foldlM incrementInDegree s = .ok t ∧ Loaded requests (fun v => degree v + l.count v) t
  | [], degree, s, h, _ => ⟨s, rfl, by simpa using h⟩
  | x :: l, degree, s, h, hl => by
    obtain ⟨t, ht, hloaded⟩ := h.increment (hl x List.mem_cons_self)
    obtain ⟨t', ht', hloaded'⟩ := hloaded.increments fun y hy => hl y (List.mem_cons_of_mem _ hy)
    refine ⟨t', ?_, ?_⟩
    · rw [List.foldlM_cons, ht]
      exact ht'
    · have hcount : (fun v => degree v + (x :: l).count v) = fun v =>
          degree v + (if v = x then 1 else 0) + l.count v := by
        funext v
        rw [List.count_cons]
        simp only [beq_iff_eq, eq_comm (a := x)]
        omega
      rw [hcount]
      exact hloaded'

/-- The edges to `v` from the requests `ids`. -/
def edgesFrom (requests : BlockRequests) (ids : List Nat) (v : Nat) : Nat :=
  (ids.map fun u => (requests.adj u).count v).sum

theorem Loaded.finalizes (hwf : requests.WellFormed) :
    ∀ {ids : List Nat} {degree : Nat → Nat} {s : RequestScheduler},
    Loaded requests degree s → (∀ u ∈ ids, u < requests.length) →
    ∃ t, s.finalizeRequests ids = .ok t ∧
      Loaded requests (fun v => degree v + edgesFrom requests ids v) t
  | [], degree, s, h, _ => ⟨s, rfl, by simpa [edgesFrom] using h⟩
  | u :: ids, degree, s, h, hids => by
    obtain ⟨r, hr⟩ := getElem?_of_lt (hids u List.mem_cons_self)
    have hadj := adj_of_getElem? hr
    obtain ⟨t, ht, hloaded⟩ := h.increments fun x hx => hwf.lt u x (hadj.symm ▸ hx)
    obtain ⟨t', ht', hloaded'⟩ :=
      hloaded.finalizes hwf fun v hv => hids v (List.mem_cons_of_mem _ hv)
    have hfinalize : s.finalizeRequest u = .ok t := by
      unfold finalizeRequest
      rw [h.node u r hr]
      exact ht
    refine ⟨t', ?_, ?_⟩
    · unfold finalizeRequests at ht' ⊢
      rw [List.foldlM_cons, hfinalize]
      exact ht'
    · have hsum : (fun v => degree v + edgesFrom requests (u :: ids) v) =
          fun v => degree v + r.2.count v + edgesFrom requests ids v := by
        funext v
        simp only [edgesFrom, List.map_cons, List.sum_cons, hadj]
        omega
      rw [hsum]
      exact hloaded'

/-- The requests of a block that has been loaded can be finalized, in any order. -/
theorem loaded_finalizes (hwf : requests.WellFormed) {ids : List Nat}
    (hids : ids.Perm (List.range requests.length)) :
    ∃ finalized, (loaded requests).finalizeRequests ids = .ok finalized ∧
      finalized.Loaded requests (edgesFrom requests ids) := by
  have hlt : ∀ u ∈ ids, u < requests.length := fun u hu => List.mem_range.mp (hids.mem_iff.mp hu)
  obtain ⟨finalized, hfinalized, hloaded⟩ := (loaded_loaded requests).finalizes hwf hlt
  exact ⟨finalized, hfinalized, by simpa using hloaded⟩

/-! ## In-degrees -/

theorem edgesFrom_eq_zero_iff {ids : List Nat} {v : Nat} :
    edgesFrom requests ids v = 0 ↔ ∀ u ∈ ids, v ∉ requests.adj u := by
  unfold edgesFrom
  rw [List.sum_eq_zero_iff_forall_eq_nat]
  simp only [List.mem_map, forall_exists_index, and_imp, forall_apply_eq_imp_iff₂,
    List.count_eq_zero]

/-- When every request was finalized, in whatever order, the in-degrees count the edges. -/
theorem edgesFrom_all (hwf : requests.WellFormed) {ids : List Nat}
    (hids : ids.Perm (List.range requests.length))
    {c : Config Nat} (hc : ∀ u x, ¬ c.Released u x) (v : Nat) :
    edgesFrom requests ids v = (unreleased requests c v).card := by
  have hsum : edgesFrom requests ids v = ∑ u ∈ Finset.range requests.length,
      (requests.adj u).count v :=
    (hids.map fun u => (requests.adj u).count v).sum_eq
  classical
  have hcard : (unreleased requests c v).card = ∑ u ∈ Finset.range requests.length, if v ∈
      requests.adj u then 1 else 0 := by
    rw [← Finset.card_filter]
    congr 1
    ext u
    rw [mem_unreleased, Finset.mem_filter, Finset.mem_range, and_iff_left (hc u v)]
    exact ⟨fun h => ⟨BlockRequests.lt_of_mem_adj h, h⟩, fun h => h.2⟩
  rw [hsum, hcard]
  exact Finset.sum_congr rfl fun u _ => (hwf.nodup u).count

theorem edgesFrom_source {ids : List Nat} (hids : ids.Perm (List.range requests.length)) {v : Nat} :
    edgesFrom requests ids v = 0 ↔ requests.Source v := by
  rw [edgesFrom_eq_zero_iff]
  constructor
  · intro h u hu
    exact h u (hids.mem_iff.mpr (List.mem_range.mpr (BlockRequests.lt_of_mem_adj hu))) hu
  · exact fun h u _ => h u

/-! ## Sources -/

/-- The loop of `buildExecDag` from the request `i` on, when those before are enqueued. -/
theorem enqueueSources_range {ids : List Nat} (hids : ids.Perm (List.range requests.length)) :
    ∀ (m i : Nat) (s : RequestScheduler), i + m = requests.length →
      (∀ v r, requests[v]? = some r →
        s.nodeAt v = .ok { request := r.1, adjList := r.2, inDegree := edgesFrom requests ids v }) →
      s.zeroQueue = { content := List.range i } → (∀ v < i, requests.Source v) →
      ∃ k, requests.SourcePrefix k ∧
        s.enqueueSources (List.range' i m) = .ok { s with zeroQueue := { content := List.range k } }
  | 0, i, s, hi, _, hqueue, hsource => by
    refine ⟨i, ⟨by omega, hsource, by omega⟩, ?_⟩
    rw [← hqueue]
    rfl
  | m + 1, i, s, hi, hnode, hqueue, hsource => by
    obtain ⟨r, hr⟩ := getElem?_of_lt (show i < requests.length by omega)
    have hdegree : ((edgesFrom requests ids i : Nat) : Int) = 0 ↔ requests.Source i := by
      rw [← edgesFrom_source hids]
      omega
    rw [List.range'_succ]
    unfold enqueueSources
    rw [hnode i r hr]
    simp only [bind, Except.bind]
    by_cases hs : requests.Source i
    · rw [if_pos (hdegree.mpr hs)]
      obtain ⟨k, hk, hok⟩ :=
        enqueueSources_range hids m (i + 1) { s with zeroQueue := s.zeroQueue.enqueue i } (by omega)
        hnode (by rw [hqueue, List.range_succ]; rfl)
        fun v hv => (Nat.lt_succ_iff_lt_or_eq.mp hv).elim (hsource v) fun h => h ▸ hs
      exact ⟨k, hk, hok⟩
    · rw [if_neg fun h => hs (hdegree.mp h)]
      exact ⟨i, ⟨by omega, hsource, fun _ => hs⟩, by rw [← hqueue]⟩

/-- `buildExecDag` enqueues the sources before the first request that is none, and throws if
there are none. -/
theorem buildExecDag_cases {ids : List Nat} (hids : ids.Perm (List.range requests.length))
    (h : Loaded requests (edgesFrom requests ids) s) :
    ∃ k, requests.SourcePrefix k ∧
      ((k = 0 ∧ s.buildExecDag =
          .error (.blockError "source node of the execution DAG is missing")) ∨
        (0 < k ∧ s.buildExecDag = .ok { s with zeroQueue := { content := List.range k } })) := by
  obtain ⟨k, hk, hok⟩ := enqueueSources_range hids requests.length 0 s (by omega) h.node
    (by rw [h.queue]; rfl) fun v hv => absurd hv (Nat.not_lt_zero v)
  refine ⟨k, hk, ?_⟩
  unfold buildExecDag
  rw [h.remaining, Int.toNat_natCast, List.range_eq_range', hok]
  obtain rfl | hpos := Nat.eq_zero_or_pos k
  · exact .inl ⟨rfl, rfl⟩
  · refine .inr ⟨hpos, ?_⟩
    obtain ⟨k', rfl⟩ := Nat.exists_eq_succ_of_ne_zero hpos.ne'
    simp [bind, Except.bind, BlockingQueue.isEmpty, h.remaining]

end

end RequestScheduler

/-! ## The first state -/

/-- The invariant holds when the workers start. -/
theorem BlockRun.Sound.start {requests : BlockRequests} (executeOne : AppRequest → Except Exn Int)
    {k : Nat} {s : RequestScheduler}
    (hwf : requests.WellFormed) {ids : List Nat} (hids : ids.Perm (List.range requests.length))
    (h : s.Loaded requests (RequestScheduler.edgesFrom requests ids)) (hk : requests.SourcePrefix k)
    (workersCount : Nat) :
    BlockRun.Sound requests executeOne k
      (BlockRun.start { s with zeroQueue := { content := List.range k } } workersCount) := by
  have hidle :
      ∀ p ∈ ((List.replicate workersCount Worker.waiting : List Worker) : Multiset Worker).map
        Worker.phase, p = Phase.idle := by
    intro p hp
    obtain ⟨w, hw, rfl⟩ := Multiset.mem_map.mp hp
    rw [List.eq_of_mem_replicate (Multiset.mem_coe.mp hw)]
    rfl
  have hnone : ∀ {f : Worker → Option Nat}, f .waiting = none →
      ((List.replicate workersCount Worker.waiting : List Worker) : Multiset Worker).filterMap f =
        0 := by
    intro f hf
    rw [Multiset.eq_zero_iff_forall_notMem]
    intro v hv
    obtain ⟨w, hw, hwv⟩ := (Multiset.mem_filterMap _ _).mp hv
    rw [List.eq_of_mem_replicate (Multiset.mem_coe.mp hw), hf] at hwv
    cases hwv
  have hreleased : ∀ u x,
    ¬ (BlockRun.start { s with zeroQueue := { content := List.range k } }
      workersCount).config.Released u x := by
    rintro u x (hd | ⟨p, hp, hr⟩)
    · cases hd
    · rw [hidle p hp] at hr
      exact hr
  exact
    { traversal := DagTraversal.Sound.start hidle List.nodup_range fun v hv =>
      hk.source v (List.mem_range.mp hv)
      tracks :=
        { queue := rfl
          producers := by
            have hholds : (BlockRun.start { s with zeroQueue := { content := List.range k } }
              workersCount).config.workers.filterMap
                Phase.holds = 0 := by
              rw [Multiset.eq_zero_iff_forall_notMem]
              intro v hv
              obtain ⟨p, hp, hpv⟩ := (Multiset.mem_filterMap _ _).mp hv
              rw [hidle p hp] at hpv
              cases hpv
            rw [hholds]
            rfl
          length := h.length
          node := fun v r hr _ => by
            rw [← RequestScheduler.edgesFrom_all hwf hids hreleased v]
            exact h.node v r hr }
      remaining := by
        simp only [BlockRun.start, hnone (f := Worker.removedID) rfl, h.remaining, List.length_nil,
          Multiset.card_zero]
        omega
      executed := by simp only [BlockRun.start, hnone (f := Worker.executedID) rfl]; rfl
      submitted := by simp only [BlockRun.start, hnone (f := Worker.submittedID) rfl]; rfl
      knows := fun w hw => by
        rw [List.eq_of_mem_replicate hw]
        trivial
      accepted := fun v hv => nomatch hv
      responses := fun v r hr => by
        have hlt : v < s.nodeIndex.length := h.length ▸ (List.getElem?_eq_some_iff.mp hr).1
        simp [BlockRun.start, hlt] }

end Argennon
