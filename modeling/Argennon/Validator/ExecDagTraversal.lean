import Argennon.Lib.DagTraversal
import Argennon.Validator.ExecDag
import Mathlib.Data.Finset.Card
import Mathlib.Data.Finset.Range

/- The scheduler traverses the graph of the adjacency lists: every step of a worker is a step
   of the traversal, or leaves its configuration as it is. In between, the scheduler keeps
   only numbers: the in-degree of a node counts the edges to it that are not released,
   `producerCount` the workers that hold a request. -/
namespace Argennon

open DagTraversal

/-- The requests of a block by their ids, each with its adjacency list. -/
abbrev BlockRequests := List (AppRequest × List Nat)

namespace BlockRequests

/-- The adjacency list of a request. -/
def adj (requests : BlockRequests) (v : Nat) : List Nat := (requests[v]?.map Prod.snd).getD []

/-- Adjacency lists are sets of ids of the block. -/
structure WellFormed (requests : BlockRequests) : Prop where
  nodup : ∀ v, (requests.adj v).Nodup
  lt : ∀ v, ∀ x ∈ requests.adj v, x < requests.length

theorem lt_of_mem_adj {requests : BlockRequests} {u v : Nat} (h : v ∈ requests.adj u) :
    u < requests.length := by
  by_contra hu
  rw [adj, List.getElem?_eq_none (by omega)] at h
  cases h

end BlockRequests

/-- Where the worker is in the traversal. -/
def Worker.phase : Worker → Phase Nat
  | .waiting => .idle
  | .executing id | .submitting id _ => .working id
  | .releasing id adjacent => .releasing id adjacent
  | .enqueueing id next adjacent => .sending id next adjacent
  | .decrementing id | .removing id => .leaving id
  | .failed id _ => .stopped id
  | .drained | .returned | .thrown _ => .out

/-! ## Steps -/

/-- The steps of a worker, but for those with undefined behaviour. -/
inductive Worker.Moves (executeOne : AppRequest → Except Exn Int) :
    Worker → RequestScheduler → Worker → RequestScheduler → Prop
  | take {s id content} (h : s.zeroQueue.content = id :: content) :
    Moves executeOne .waiting s (.executing id)
      { s with zeroQueue := { content, producerCount := s.zeroQueue.producerCount + 1 } }
  | drain {s} (h : s.zeroQueue.content = []) (hp : s.zeroQueue.producerCount ≤ 0) :
    Moves executeOne .waiting s .drained s
  | notDag {s} (h : s.remaining ≠ 0) :
    Moves executeOne .drained s (.thrown (.blockError "execution graph is not a dag")) s
  | finish {s} (h : s.remaining = 0) : Moves executeOne .drained s .returned s
  | execute {s id node statusCode} (hnode : s.nodeAt id = .ok node)
    (h : executeOne node.request = .ok statusCode) :
    Moves executeOne (.executing id) s (.submitting id statusCode) s
  | crash {s id node e} (hnode : s.nodeAt id = .ok node) (h : executeOne node.request = .error e) :
    Moves executeOne (.executing id) s (.failed id e) s
  | reject {s id statusCode node} (hnode : s.nodeAt id = .ok node)
    (h : 400 < statusCode ∧ node.request.attachments ≠ []) :
    Moves executeOne (.submitting id statusCode) s
      (.failed id (.blockError "block contains a failed fee payment")) s
  | accept {s id statusCode node} (hnode : s.nodeAt id = .ok node)
    (h : ¬(400 < statusCode ∧ node.request.attachments ≠ [])) :
    Moves executeOne (.submitting id statusCode) s (.releasing id node.adjList) s
  | release {s id next adjacent node} (hnode : s.nodeAt next = .ok node) (h : 1 < node.inDegree) :
    Moves executeOne (.releasing id (next :: adjacent)) s (.releasing id adjacent)
      (s.setNode next (some { node with inDegree := node.inDegree - 1 }))
  | releaseLast {s id next adjacent node} (hnode : s.nodeAt next = .ok node)
    (h : node.inDegree = 1) :
    Moves executeOne (.releasing id (next :: adjacent)) s (.enqueueing id next adjacent)
      (s.setNode next (some { node with inDegree := node.inDegree - 1 }))
  | enqueue {s id next adjacent node} (hnode : s.nodeAt next = .ok node) :
    Moves executeOne (.enqueueing id next adjacent) s (.releasing id adjacent)
      { s with zeroQueue := s.zeroQueue.enqueue next }
  | reset {s id} : Moves executeOne (.releasing id []) s (.decrementing id) (s.setNode id none)
  | decrement {s id} :
    Moves executeOne (.decrementing id) s (.removing id) { s with remaining := s.remaining - 1 }
  | remove {s id} :
    Moves executeOne (.removing id) s .waiting { s with zeroQueue := s.zeroQueue.removeProducer }

/-- What a worker needs of the nodes for its next step. -/
def Worker.NodesThere (s : RequestScheduler) : Worker → Prop
  | .executing id | .submitting id _ => ∃ node, s.nodeAt id = .ok node
  | .releasing _ (next :: _) => ∃ node, s.nodeAt next = .ok node ∧ 0 < node.inDegree
  | .enqueueing _ next _ => ∃ node, s.nodeAt next = .ok node
  | _ => True

/-- **Steps.** Where the nodes are there, a step is one of those listed. -/
theorem Worker.step_moves {executeOne : AppRequest → Except Exn Int} {s s' : RequestScheduler}
    {w w' : Worker}
    (hthere : w.NodesThere s) (h : w.step executeOne s = some (w', s')) :
    w.Moves executeOne s w' s' := by
  cases w with
  | waiting =>
    simp only [Worker.step, BlockingQueue.blockingDequeue] at h
    cases hq : s.zeroQueue.content with
    | nil =>
      rw [hq] at h
      by_cases hp : s.zeroQueue.producerCount > 0
      · simp [hp] at h
      · simp only [hp, if_false, Option.some.injEq, Prod.mk.injEq] at h
        obtain ⟨rfl, rfl⟩ := h
        exact .drain hq (by omega)
    | cons id content =>
      rw [hq] at h
      simp only [if_true, Option.some.injEq, Prod.mk.injEq] at h
      obtain ⟨rfl, rfl⟩ := h
      exact .take hq
  | drained =>
    simp only [Worker.step] at h
    split at h
    · cases h
      exact .notDag ‹_›
    · rename_i hzero
      cases h
      exact .finish (not_not.mp hzero)
  | executing id =>
    obtain ⟨node, hnode⟩ := hthere
    simp only [Worker.step, hnode] at h
    cases hexec : executeOne node.request with
    | error e =>
      rw [hexec] at h
      cases h
      exact .crash hnode hexec
    | ok statusCode =>
      rw [hexec] at h
      cases h
      exact .execute hnode hexec
  | submitting id statusCode =>
    obtain ⟨node, hnode⟩ := hthere
    simp only [Worker.step, hnode] at h
    split at h
    · rename_i hfee
      cases h
      exact .reject hnode (by simpa using hfee)
    · rename_i hfee
      cases h
      exact .accept hnode (by simpa using hfee)
  | releasing id adjacent =>
    cases adjacent with
    | nil =>
      cases h
      exact .reset
    | cons next adjacent =>
      obtain ⟨node, hnode, hpos⟩ := hthere
      have hdecrement : s.decrementInDegree next =
          .ok (node.inDegree - 1,
            s.setNode next (some { node with inDegree := node.inDegree - 1 })) := by
        simp [RequestScheduler.decrementInDegree, hnode, hpos, bind, Except.bind]
      simp only [Worker.step, hdecrement, Option.some.injEq, Prod.mk.injEq] at h
      obtain ⟨rfl, rfl⟩ := h
      by_cases hone : node.inDegree = 1
      · rw [if_pos (by omega)]
        exact .releaseLast hnode hone
      · rw [if_neg (by omega)]
        exact .release hnode (by omega)
  | enqueueing id next adjacent =>
    obtain ⟨node, hnode⟩ := hthere
    simp only [Worker.step, hnode] at h
    cases h
    exact .enqueue hnode
  | decrementing id =>
    cases h
    exact .decrement
  | removing id =>
    cases h
    exact .remove
  | returned => cases h
  | thrown e => cases h
  | failed id e => cases h

/-! ## The numbers of the scheduler -/

open Classical in
/-- The requests whose edges to `v` are not released. -/
noncomputable def unreleased (requests : BlockRequests) (c : Config Nat) (v : Nat) : Finset Nat :=
  (Finset.range requests.length).filter fun u => v ∈ requests.adj u ∧ ¬ c.Released u v

theorem mem_unreleased {requests : BlockRequests} {c : Config Nat} {u v : Nat} :
    u ∈ unreleased requests c v ↔ v ∈ requests.adj u ∧ ¬ c.Released u v := by
  simp only [unreleased, Finset.mem_filter, Finset.mem_range, and_iff_right_iff_imp]
  exact fun h => BlockRequests.lt_of_mem_adj h.1

/-- The node of `v` was reset. -/
def NodeReset (c : Config Nat) (v : Nat) : Prop := v ∈ c.done ∨ .leaving v ∈ c.workers

theorem NodeReset.mem_tokens {c : Config Nat} {v : Nat} (h : NodeReset c v) : v ∈ c.tokens :=
  h.elim mem_tokens_of_done fun h => mem_tokens_of_holds h rfl

/-- The scheduler while the traversal is at `c`. -/
structure Tracks (requests : BlockRequests) (s : RequestScheduler) (c : Config Nat) : Prop where
  queue : s.zeroQueue.content = c.queue
  producers : s.zeroQueue.producerCount = (c.workers.filterMap Phase.holds).card
  length : s.nodeIndex.length = requests.length
  node : ∀ v r, requests[v]? = some r → ¬ NodeReset c v →
    s.nodeAt v = .ok { request := r.1, adjList := r.2, inDegree := (unreleased requests c v).card }

section
variable {requests : BlockRequests} {s s' : RequestScheduler} {c c' : Config Nat} {init : List Nat}

theorem adj_of_getElem? {v : Nat} {r : AppRequest × List Nat} (h : requests[v]? = some r) :
    requests.adj v = r.2 := by
  unfold BlockRequests.adj
  rw [h]
  rfl

/-- A change of the queue and of the workers that no node sees. -/
theorem Tracks.same (h : Tracks requests s c) (hnodes : s'.nodeIndex = s.nodeIndex)
    (hreset : ∀ v, NodeReset c' v ↔ NodeReset c v)
    (hreleased : ∀ u x, x ∈ requests.adj u → (c'.Released u x ↔ c.Released u x))
    (hqueue : s'.zeroQueue.content = c'.queue)
    (hproducers : s'.zeroQueue.producerCount = (c'.workers.filterMap Phase.holds).card) :
    Tracks requests s' c' where
  queue := hqueue
  producers := hproducers
  length := hnodes ▸ h.length
  node v r hr hnot := by
    have hsame : unreleased requests c' v = unreleased requests c v := by
      ext u
      rw [mem_unreleased, mem_unreleased]
      exact and_congr_right fun hu => not_congr (hreleased u v hu)
    have hnode := h.node v r hr fun h => hnot ((hreset v).mpr h)
    unfold RequestScheduler.nodeAt at hnode ⊢
    rw [hnodes, hsame]
    exact hnode

theorem tokens_lt (hwf : requests.WellFormed) (hinit : ∀ x ∈ init, x < requests.length)
    (hs : Sound requests.adj init c) {v : Nat} (hv : v ∈ c.tokens) : v < requests.length := by
  obtain hv | ⟨u, hu⟩ := hs.origin v hv
  · exact hinit v hv
  · exact hwf.lt u v hu

variable {q : List Nat} {ws : Multiset (Phase Nat)} {d : List Nat} {p : Phase Nat} {v : Nat}

/-- The node of a vertex that a worker has is not reset before it leaves. -/
theorem not_reset_of_mem (hnodup : (Config.tokens ⟨q, p ::ₘ ws, d⟩).Nodup) (hp : p ≠ .leaving v)
    (hv : p.holds = some v ∨ p.carries = some v) : ¬ NodeReset ⟨q, p ::ₘ ws, d⟩ v := by
  intro hreset
  have hrest : NodeReset ⟨q, ws, d⟩ v := by
    refine hreset.imp_right fun hmem => ?_
    exact (Multiset.mem_cons.mp hmem).resolve_left fun h => hp h.symm
  have hmem := hrest.mem_tokens
  rw [tokens_worker] at hnodup
  have hdisjoint := (Multiset.nodup_add.mp hnodup).2.2
  refine Multiset.disjoint_left.mp hdisjoint ?_ hmem
  obtain hv | hv := hv
  · rw [hv]
    exact Multiset.mem_add.mpr (.inr (Multiset.mem_singleton_self v))
  · rw [hv]
    exact Multiset.mem_add.mpr (.inl (Multiset.mem_singleton_self v))

theorem getElem?_of_lt (h : v < requests.length) : ∃ r, requests[v]? = some r :=
  ⟨_, List.getElem?_eq_getElem h⟩

/-- The nodes that a worker needs for its next step are there. -/
theorem Tracks.nodesThere (hwf : requests.WellFormed) (hinit : ∀ x ∈ init, x < requests.length)
    {w : Worker}
    (hs : Sound requests.adj init ⟨q, w.phase ::ₘ ws, d⟩)
    (ht : Tracks requests s ⟨q, w.phase ::ₘ ws, d⟩) :
    w.NodesThere s := by
  have hthere : ∀ v, v ∈ Config.tokens ⟨q, w.phase ::ₘ ws, d⟩ →
      ¬ NodeReset ⟨q, w.phase ::ₘ ws, d⟩ v →
        ∃ node, s.nodeAt v = .ok node := by
    intro v hv hnot
    obtain ⟨r, hr⟩ := getElem?_of_lt (tokens_lt hwf hinit hs hv)
    exact ⟨_, ht.node v r hr hnot⟩
  have hmem := Multiset.mem_cons_self w.phase ws
  cases w with
  | executing id =>
    exact hthere id (mem_tokens_of_holds hmem rfl) (not_reset_of_mem hs.nodup nofun (.inl rfl))
  | submitting id statusCode =>
    exact hthere id (mem_tokens_of_holds hmem rfl) (not_reset_of_mem hs.nodup nofun (.inl rfl))
  | releasing id adjacent =>
    cases adjacent with
    | nil => trivial
    | cons next adjacent =>
      have hedge : next ∈ requests.adj id :=
        (hs.left _ hmem id _ (.inl rfl)).subset List.mem_cons_self
      have hunreleased := hs.not_released
      have hnot := hs.not_mem_of_not_released hedge hunreleased
      obtain ⟨r, hr⟩ := getElem?_of_lt (hwf.lt id next hedge)
      refine ⟨_, ht.node next r hr fun h => hnot h.mem_tokens, ?_⟩
      exact Int.natCast_pos.mpr (Finset.card_pos.mpr ⟨id, mem_unreleased.mpr ⟨hedge, hunreleased⟩⟩)
  | enqueueing id next adjacent =>
    have hcarried : next ∈
        Config.tokens ⟨q, (Worker.enqueueing id next adjacent).phase ::ₘ ws, d⟩ := by
      rw [tokens_worker]
      exact Multiset.mem_add.mpr
        (.inl (Multiset.mem_add.mpr (.inl (Multiset.mem_singleton_self next))))
    exact hthere next hcarried (not_reset_of_mem hs.nodup nofun (.inr rfl))
  | _ => trivial

/-! ## A step -/

theorem nodeReset_worker : NodeReset ⟨q, p ::ₘ ws, d⟩ v ↔ p = .leaving v ∨
    NodeReset ⟨q, ws, d⟩ v := by
  unfold NodeReset
  simp only [Multiset.mem_cons, eq_comm]
  exact or_left_comm

theorem holders_worker : ((p ::ₘ ws).filterMap Phase.holds).card =
    (if p.holds.isSome then 1 else 0) + (ws.filterMap Phase.holds).card := by
  cases h : p.holds with
  | none => simp [Multiset.filterMap_cons_none _ _ h]
  | some v => simp [Multiset.filterMap_cons_some _ _ _ h, Nat.add_comm]

/-- A step of one worker that changes no node: what is left to say is about its two phases. -/
theorem Tracks.worker {p' : Phase Nat} {q' : List Nat} (h : Tracks requests s ⟨q, p ::ₘ ws, d⟩)
    (hnodes : s'.nodeIndex = s.nodeIndex) (hreset : ∀ v, p ≠ .leaving v ∧ p' ≠ .leaving v)
    (hreleased : ∀ u x, x ∈ requests.adj u → (p'.Released u x ↔ p.Released u x))
    (hqueue : s'.zeroQueue.content = q')
    (hproducers : s'.zeroQueue.producerCount + (if p.holds.isSome then 1 else 0) =
      s.zeroQueue.producerCount + (if p'.holds.isSome then 1 else 0)) :
        Tracks requests s' ⟨q', p' ::ₘ ws, d⟩ := by
  refine h.same hnodes (fun v => ?_) (fun u x hx => ?_) hqueue ?_
  · rw [nodeReset_worker, nodeReset_worker]
    exact or_congr (iff_of_false (hreset v).2 (hreset v).1) Iff.rfl
  · rw [released_worker, released_worker]
    exact or_congr (hreleased u x hx) Iff.rfl
  · have hp := h.producers
    simp only [holders_worker] at hp ⊢
    split at hproducers <;> split at hproducers <;> simp_all <;> omega

/-- A worker decrements the in-degree of `x`. -/
theorem Tracks.release (p' : Phase Nat) {x : Nat} {rest : List Nat} {node : DagNode}
    (hwf : requests.WellFormed)
    (hs : Sound requests.adj init ⟨q, .releasing v (x :: rest) ::ₘ ws, d⟩)
    (h : Tracks requests s ⟨q, .releasing v (x :: rest) ::ₘ ws, d⟩) (hnode : s.nodeAt x = .ok node)
    (hp' : ∀ u y, p'.Released u y ↔ v = u ∧ y ∉ rest) (hleaving : ∀ u, p' ≠ .leaving u)
    (hholds : p'.holds = some v) :
    node.inDegree = (unreleased requests ⟨q, .releasing v (x :: rest) ::ₘ ws, d⟩ x).card ∧
      Tracks requests (s.setNode x (some { node with inDegree := node.inDegree - 1 }))
        ⟨q, p' ::ₘ ws, d⟩ := by
  have hsuffix := hs.left _ (Multiset.mem_cons_self _ _) v (x :: rest) (.inl rfl)
  have hedge : x ∈ requests.adj v := hsuffix.subset List.mem_cons_self
  have hx : x ∉ rest := (List.nodup_cons.mp (hsuffix.sublist.nodup (hwf.nodup v))).1
  have hrel := released_release q ws d hx hp'
  have hresetx : ¬ NodeReset ⟨q, .releasing v (x :: rest) ::ₘ ws, d⟩ x := fun hr =>
    hs.not_mem_of_not_released hedge hs.not_released hr.mem_tokens
  obtain ⟨r, hr⟩ := getElem?_of_lt (hwf.lt v x hedge)
  obtain rfl : node = _ := Except.ok.inj (hnode.symm.trans (h.node x r hr hresetx))
  have hreset : ∀ u, NodeReset ⟨q, p' ::ₘ ws, d⟩ u ↔
      NodeReset ⟨q, .releasing v (x :: rest) ::ₘ ws, d⟩ u := fun u => by
    rw [nodeReset_worker, nodeReset_worker]
    exact or_congr (iff_of_false (hleaving u) nofun) Iff.rfl
  have hmem : v ∈ unreleased requests ⟨q, .releasing v (x :: rest) ::ₘ ws, d⟩ x :=
    mem_unreleased.mpr ⟨hedge, hs.not_released⟩
  have herase : unreleased requests ⟨q, p' ::ₘ ws, d⟩ x =
      (unreleased requests ⟨q, .releasing v (x :: rest) ::ₘ ws, d⟩ x).erase v := by
    ext u
    rw [Finset.mem_erase, mem_unreleased, mem_unreleased, hrel]
    constructor
    · intro hu
      exact ⟨fun huv => hu.2 (.inr ⟨huv.symm, rfl⟩), hu.1, fun hr => hu.2 (.inl hr)⟩
    · intro hu
      exact ⟨hu.2.1, fun hr => hr.elim hu.2.2 fun h => hu.1 h.1.symm⟩
  have hcard : (unreleased requests ⟨q, p' ::ₘ ws, d⟩ x).card + 1 =
      (unreleased requests ⟨q, .releasing v (x :: rest) ::ₘ ws, d⟩ x).card := by
    rw [herase]
    exact Finset.card_erase_add_one hmem
  refine ⟨rfl, h.queue, ?_, ?_, fun u r' hr' hnot => ?_⟩
  · rw [holders_worker, hholds]
    have hp := h.producers
    rw [holders_worker] at hp
    exact hp
  · simp [RequestScheduler.setNode, h.length]
  · rw [hreset] at hnot
    by_cases hux : u = x
    · subst hux
      obtain rfl : r = r' := Option.some.inj (hr.symm.trans hr')
      rw [RequestScheduler.nodeAt_setNode_self (by rw [h.length]; exact hwf.lt v u hedge)]
      congr 2
      push_cast [← hcard]
      omega
    · have hsame : unreleased requests ⟨q, p' ::ₘ ws, d⟩ u =
          unreleased requests ⟨q, .releasing v (x :: rest) ::ₘ ws, d⟩ u := by
        ext u'
        rw [mem_unreleased, mem_unreleased, hrel]
        exact and_congr_right fun _ => not_congr (or_iff_left fun h => hux h.2)
      rw [RequestScheduler.nodeAt_setNode u hux, hsame]
      exact h.node u r' hr' hnot

/-- A worker resets the node of the request it has released. -/
theorem Tracks.reset (h : Tracks requests s ⟨q, .releasing v [] ::ₘ ws, d⟩) :
    Tracks requests (s.setNode v none) ⟨q, .leaving v ::ₘ ws, d⟩ := by
  have hreleased : ∀ u x, Config.Released ⟨q, .leaving v ::ₘ ws, d⟩ u x ↔
      Config.Released ⟨q, .releasing v [] ::ₘ ws, d⟩ u x := by
    intro u x
    rw [released_worker, released_worker]
    exact or_congr ⟨fun hr => ⟨hr, List.not_mem_nil⟩, fun hr => hr.1⟩ Iff.rfl
  refine ⟨h.queue, ?_, ?_, fun u r hr hnot => ?_⟩
  · rw [holders_worker]
    have hp := h.producers
    rw [holders_worker] at hp
    exact hp
  · simp [RequestScheduler.setNode, h.length]
  · have hu : u ≠ v := fun huv => hnot (nodeReset_worker.mpr (.inl (huv ▸ rfl)))
    have hbefore : ¬ NodeReset ⟨q, .releasing v [] ::ₘ ws, d⟩ u := fun hr =>
      hnot (nodeReset_worker.mpr (.inr ((nodeReset_worker.mp hr).resolve_left nofun)))
    have hsame : unreleased requests ⟨q, .leaving v ::ₘ ws, d⟩ u =
        unreleased requests ⟨q, .releasing v [] ::ₘ ws, d⟩ u := by
      ext u'
      rw [mem_unreleased, mem_unreleased, hreleased]
    rw [RequestScheduler.nodeAt_setNode u hu, hsame]
    exact h.node u r hr hbefore

/-- A worker removes its producer. -/
theorem Tracks.remove (h : Tracks requests s ⟨q, .leaving v ::ₘ ws, d⟩) :
    Tracks requests { s with zeroQueue := s.zeroQueue.removeProducer }
      ⟨q, .idle ::ₘ ws, v :: d⟩ := by
  refine h.same rfl (fun u => ?_) (fun u x _ => ?_) h.queue ?_
  · rw [nodeReset_worker, nodeReset_worker]
    unfold NodeReset
    simp only [List.mem_cons, reduceCtorEq, false_or, Phase.leaving.injEq]
    rw [or_assoc, eq_comm]
  · rw [released_worker, released_worker]
    unfold Config.Released
    simp only [Phase.Released, false_or, List.mem_cons]
    rw [or_assoc, eq_comm]
  · have hp := h.producers
    simp only [holders_worker, Phase.holds, Option.isSome, if_true, Bool.false_eq_true, if_false,
      zero_add] at hp ⊢
    simp only [BlockingQueue.removeProducer, hp]
    push_cast
    omega

/-- The requests for which `submitResult` has returned, after the step of a worker. -/
def Worker.completing : Worker → List Nat → List Nat
  | .removing id, d => id :: d
  | _, d => d

/-- **Simulation.** The step of a worker is a step of the traversal, or leaves its configuration
as it is, and the scheduler keeps its numbers. -/
theorem Tracks.moves {executeOne : AppRequest → Except Exn Int} {w w' : Worker}
    (hwf : requests.WellFormed)
    (hs : Sound requests.adj init ⟨q, w.phase ::ₘ ws, d⟩)
    (h : Tracks requests s ⟨q, w.phase ::ₘ ws, d⟩)
    (hm : w.Moves executeOne s w' s') :
    Tracks requests s' ⟨s'.zeroQueue.content, w'.phase ::ₘ ws, w.completing d⟩ ∧
      ((⟨s'.zeroQueue.content, w'.phase ::ₘ ws, w.completing d⟩ : Config Nat) =
          ⟨q, w.phase ::ₘ ws, d⟩ ∨
        Step requests.adj ⟨q, w.phase ::ₘ ws, d⟩ ⟨s'.zeroQueue.content, w'.phase ::ₘ ws,
          w.completing d⟩) := by
  obtain rfl : s.zeroQueue.content = q := h.queue
  cases hm with
  | @take _ id content hq =>
    refine ⟨h.worker rfl (fun _ => by simp [Worker.phase]) (fun _ _ _ => Iff.rfl) rfl
      (by simp [Worker.phase, Phase.holds]), .inr ?_⟩
    rw [hq]
    exact .take id content ws d
  | drain hq hp =>
    refine ⟨h.worker rfl (fun _ => by simp [Worker.phase]) (fun _ _ _ => Iff.rfl) rfl rfl, .inr ?_⟩
    have hholds : ws.filterMap Phase.holds = 0 := by
      have hcount := h.producers
      rw [holders_worker] at hcount
      simp only [Worker.phase, Phase.holds, Option.isSome, Bool.false_eq_true, if_false,
        zero_add] at hcount
      exact Multiset.card_eq_zero.mp (by omega)
    rw [hq]
    exact .drain ws d hholds
  | notDag hne => exact ⟨h, .inl rfl⟩
  | finish hzero => exact ⟨h, .inl rfl⟩
  | execute hnode hexec => exact ⟨h, .inl rfl⟩
  | @crash _ id node e hnode hexec =>
    exact ⟨h.worker rfl (fun _ => by simp [Worker.phase]) (fun _ _ _ => Iff.rfl) rfl rfl,
      .inr (.stop id _ ws d)⟩
  | @reject _ id statusCode node hnode hfee =>
    exact ⟨h.worker rfl (fun _ => by simp [Worker.phase]) (fun _ _ _ => Iff.rfl) rfl rfl,
      .inr (.stop id _ ws d)⟩
  | @accept _ id statusCode node hnode hfee =>
    have hmem := mem_tokens_of_holds (c := ⟨s.zeroQueue.content, Phase.working id ::ₘ ws, d⟩)
      (Multiset.mem_cons_self (Phase.working id) ws) rfl
    have hadj : node.adjList = requests.adj id := by
      by_cases hlt : id < requests.length
      · obtain ⟨r, hr⟩ := getElem?_of_lt hlt
        rw [adj_of_getElem? hr]
        obtain rfl :=
          Except.ok.inj (hnode.symm.trans
            (h.node id r hr (not_reset_of_mem hs.nodup (by simp [Worker.phase]) (.inl rfl))))
        rfl
      · unfold RequestScheduler.nodeAt at hnode
        rw [List.getElem?_eq_none (by rw [h.length]; omega)] at hnode
        cases hnode
    simp only [Worker.phase, hadj]
    refine ⟨h.worker rfl (fun _ => by simp [Worker.phase]) (fun u x hx => ?_) rfl rfl,
      .inr (.accept id _ ws d)⟩
    exact iff_of_false (fun hr => hr.2 (hr.1 ▸ hx)) not_false
  | @release _ id next adjacent node hnode hlt =>
    obtain ⟨hcard, ht⟩ := h.release (.releasing id adjacent) hwf hs hnode
      (fun _ _ => Iff.rfl) (fun _ h => by cases h) rfl
    refine ⟨ht, .inr (.release id next adjacent _ ws d ?_)⟩
    have hone : 1 < (unreleased requests ⟨s.zeroQueue.content,
        Phase.releasing id (next :: adjacent) ::ₘ ws, d⟩ next).card := by
      omega
    obtain ⟨u, hu, hne⟩ := Finset.exists_mem_ne hone id
    exact ⟨u, hne, (mem_unreleased.mp hu).1, (mem_unreleased.mp hu).2⟩
  | @releaseLast _ id next adjacent node hnode hone =>
    obtain ⟨hcard, ht⟩ := h.release (.sending id next adjacent) hwf hs hnode
      (fun _ _ => Iff.rfl) (fun _ h => by cases h) rfl
    refine ⟨ht, .inr (.releaseLast id next adjacent _ ws d fun u hne hu => ?_)⟩
    have hedge : next ∈ requests.adj id :=
      (hs.left _ (Multiset.mem_cons_self _ _) id _ (.inl rfl)).subset List.mem_cons_self
    have hcard' : (unreleased requests ⟨s.zeroQueue.content,
        Phase.releasing id (next :: adjacent) ::ₘ ws, d⟩ next).card = 1 := by
      have : (node.inDegree : Int) = 1 := hone
      omega
    obtain ⟨u', hu'⟩ := Finset.card_eq_one.mp hcard'
    have hid : id = u' := Finset.mem_singleton.mp (hu' ▸ mem_unreleased.mpr ⟨hedge,
      hs.not_released⟩)
    by_contra hnot
    have huu : u = u' := Finset.mem_singleton.mp (hu' ▸ mem_unreleased.mpr ⟨hu, hnot⟩)
    exact hne (huu.trans hid.symm)
  | @enqueue _ id next adjacent node hnode =>
    exact ⟨h.worker rfl (fun _ => by simp [Worker.phase]) (fun _ _ _ => Iff.rfl) rfl rfl,
      .inr (.send id next adjacent _ ws d)⟩
  | @reset _ id => exact ⟨h.reset, .inr (.leave id _ ws d)⟩
  | @decrement _ id => exact ⟨⟨h.queue, h.producers, h.length, h.node⟩, .inl rfl⟩
  | @remove _ id => exact ⟨h.remove, .inr (.complete id _ ws d)⟩

end

end Argennon
