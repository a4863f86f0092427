import Argennon.Storage.Admission
import Argennon.Validator.BlockValidator
import Argennon.Validator.VerifierClusterSpec

/- Which defects of a block `conditionalValidate` reports as an invalid block. Only `BlockError` is
   caught. The stages look at their parts in a fixed order, and the first defect decides: an unknown
   chunk, an undeclared application, size bounds that are missing or violated and a write to a
   read-only chunk are a `BlockError`. An access block outside the memory of its chunk is an
   `out_of_range`, and an edge that is missing in the dependency graph is an `invalid_argument`. -/
namespace Argennon

/-- The first element that does not pass fails. -/
def FirstFails {α : Type} (passes fails : α → Prop) : List α → Prop
  | [] => False
  | a :: rest => fails a ∨ passes a ∧ FirstFails passes fails rest

theorem not_firstFails {α : Type} {passes fails : α → Prop} :
    ∀ {l : List α}, (∀ a ∈ l, ¬ fails a) → ¬ FirstFails passes fails l
  | [], _ => not_false
  | a :: rest, h => by
    rintro (hfails | ⟨-, hrest⟩)
    · exact h a List.mem_cons_self hfails
    · exact not_firstFails (fun b hb => h b (List.mem_cons_of_mem _ hb)) hrest

theorem throwsFirst_iff_firstFails {α β : Type} {f : α → Except Exn β} {p : Exn → Prop}
    {passes fails : α → Prop} : ∀ {l : List α},
    (∀ a ∈ l, ((∃ b, f a = .ok b) ↔ passes a) ∧ ((∃ e, f a = .error e ∧ p e) ↔ fails a)) →
      (ThrowsFirst f p l ↔ FirstFails passes fails l)
  | [], _ => Iff.rfl
  | a :: rest, h => by
    obtain ⟨hpass, hfail⟩ := h a List.mem_cons_self
    rw [ThrowsFirst, FirstFails, hpass, hfail, throwsFirst_iff_firstFails fun b hb =>
      h b (List.mem_cons_of_mem _ hb)]

theorem mapM_error_mem {α β : Type} {f : α → Except Exn β} {e : Exn} {l : List α}
    (h : l.mapM f = .error e) :
    ∃ a ∈ l, f a = .error e := by
  have hfirst : ThrowsFirst f (· = e) l := mapM_error_iff.mp ⟨e, h, rfl⟩
  clear h
  induction l with
  | nil => exact hfirst.elim
  | cons a l ih =>
    obtain ⟨e', hf, rfl⟩ | ⟨-, hrest⟩ := hfirst
    · exact ⟨a, List.mem_cons_self, hf⟩
    · obtain ⟨b, hb, hf⟩ := ih hrest
      exact ⟨b, List.mem_cons_of_mem _ hb, hf⟩

/-! ## Tasks -/

namespace RequestProcessor
variable {α : Type} {task : Nat → Except Exn α}

/-- The workers together do what one worker would do, unless the process is ended. -/
theorem runTasks_cases (task : Nat → Except Exn α) : ∀ workers : List (List Nat),
    (∃ results, runTasks task workers = .ok results ∧ workers.flatten.mapM task = .ok results) ∨
      (∃ e, runTasks task workers = .error e ∧ workers.flatten.mapM task = .error e) ∨
      ∃ e, runTasks task workers = .error e ∧ ¬ e.IsThrown ∧
        ∃ e', workers.flatten.mapM task = .error e'
  | [] => .inl ⟨[], rfl, rfl⟩
  | ids :: workers => by
    have ih := runTasks_cases task workers
    rw [List.flatten_cons, List.mapM_append]
    unfold runTasks
    cases ids.mapM task with
    | ok results =>
      obtain ⟨rest, hrun, hall⟩ | ⟨e, hrun, hall⟩ | ⟨e, hrun, hended, e', hall⟩ := ih
      · rw [hrun, hall]
        exact .inl ⟨_, rfl, rfl⟩
      · rw [hrun, hall]
        exact .inr (.inl ⟨e, rfl, rfl⟩)
      · rw [hrun, hall]
        exact .inr (.inr ⟨e, rfl, hended, e', rfl⟩)
    | error e =>
      cases runTasks task workers with
      | ok rest => exact .inr (.inl ⟨e, rfl, rfl⟩)
      | error e' =>
        by_cases hthrown : e'.IsThrown
        · refine .inr (.inl ⟨e, ?_, rfl⟩)
          dsimp only
          rw [if_pos hthrown]
        · refine .inr (.inr ⟨e', ?_, hthrown, e, rfl⟩)
          dsimp only
          rw [if_neg hthrown]

theorem runTasks_ok_iff {workers : List (List Nat)} {results : List α} :
    runTasks task workers = .ok results ↔ workers.flatten.mapM task = .ok results := by
  obtain ⟨rs, hrun, hall⟩ | ⟨e, hrun, hall⟩ | ⟨e, hrun, -, e', hall⟩ := runTasks_cases task workers
  · rw [hrun, hall]
  · rw [hrun, hall]
  · rw [hrun, hall]
    exact iff_of_false nofun nofun

theorem runTasks_thrown {workers : List (List Nat)} {e : Exn} (h : runTasks task workers = .error e)
    (hthrown : e.IsThrown) :
    workers.flatten.mapM task = .error e := by
  obtain ⟨rs, hrun, -⟩ | ⟨e', hrun, hall⟩ | ⟨e', hrun, hended, -⟩ := runTasks_cases task workers
  · rw [hrun] at h
    cases h
  · obtain rfl := Except.error.inj (hrun.symm.trans h)
    exact hall
  · obtain rfl := Except.error.inj (hrun.symm.trans h)
    exact absurd hthrown hended

end RequestProcessor

/-! ## A request -/

namespace SchedulerIndices
variable {x : SchedulerIndices} {data : AppRequestInfo}

/-- A request without a defect. -/
structure Accepted (x : SchedulerIndices) (data : AppRequestInfo) : Prop where
  chunks : ∀ e ∈ ChunkIndex.chunkEntries data.memoryAccessMap,
    ChunkIndex.Admitted x.heapIndex x.heap e
  apps : ∀ appID ∈ data.appAccessList, x.appIndex.cache appID ≠ none
  signatures : ∀ msg ∈ data.signedMessagesList, accountChunk msg.issuerAccount ∈
    x.heapIndex.chunkIndex

/-- A request whose first defect is a `BlockError`. -/
def Invalid (x : SchedulerIndices) (data : AppRequestInfo) : Prop :=
  ChunkIndex.RejectsFirst x.heapIndex x.heap (ChunkIndex.chunkEntries data.memoryAccessMap) ∨
    (∀ e ∈ ChunkIndex.chunkEntries data.memoryAccessMap, ChunkIndex.Admitted x.heapIndex x.heap e) ∧
      ((∃ appID ∈ data.appAccessList, x.appIndex.cache appID = none) ∨
        ∃ msg ∈ data.signedMessagesList, accountChunk msg.issuerAccount ∉ x.heapIndex.chunkIndex)

theorem dispatcher_cases (index : AppIndex) (appID : LongID) :
    (∃ d, index.cache appID = some d ∧ index.dispatcher appID = .ok d) ∨
      index.cache appID = none ∧
        ∃ message, index.dispatcher appID = .error (.blockError message) := by
  unfold AppIndex.dispatcher
  cases index.cache appID with
  | some d => exact .inl ⟨d, rfl, rfl⟩
  | none => exact .inr ⟨rfl, _, rfl⟩

theorem buildAppTable_cases (index : AppIndex) (apps : List LongID) :
    ((∀ appID ∈ apps, index.cache appID ≠ none) ∧ ∃ t, index.buildAppTable apps = .ok t) ∨
      (∃ appID ∈ apps, index.cache appID = none) ∧ ∃ message, index.buildAppTable apps =
      .error (.blockError message) := by
  unfold AppIndex.buildAppTable
  cases hmap : apps.mapM index.dispatcher with
  | ok dispatchers =>
    have hlength := (mapM_ok_iff.mp hmap).length_eq
    refine .inl ⟨fun appID happ hnone => ?_, ⟨⟨apps, dispatchers, hlength⟩⟩, ?_⟩
    · obtain ⟨d, hd⟩ := mapM_returns_iff.mp ⟨_, hmap⟩ appID happ
      obtain ⟨d', hsome, -⟩ | ⟨-, message, herror⟩ := dispatcher_cases index appID
      · rw [hnone] at hsome
        cases hsome
      · rw [herror] at hd
        cases hd
    · change (OrderedStaticMap.mk? apps dispatchers >>= fun callTable =>
        .ok { callTable } : Except Exn AppTable) = _
      rw [OrderedStaticMap.mk?, dif_pos hlength]
      rfl
  | error e =>
    obtain ⟨appID, happ, he⟩ := mapM_error_mem hmap
    obtain ⟨d, -, hok⟩ | ⟨hnone, message, herror⟩ := dispatcher_cases index appID
    · rw [hok] at he
      cases he
    · obtain rfl := Except.error.inj (herror.symm.trans he)
      exact .inr ⟨⟨appID, happ, hnone⟩, message, rfl⟩

theorem signedMessage_cases (x : SchedulerIndices) (msg : AppRequestInfo.SignedMessage) :
    (accountChunk msg.issuerAccount ∈ x.heapIndex.chunkIndex ∧ ∃ m, x.signedMessage msg = .ok m) ∨
      accountChunk msg.issuerAccount ∉ x.heapIndex.chunkIndex ∧
        ∃ message, x.signedMessage msg = .error (.blockError message) := by
  unfold signedMessage ChunkIndex.getChunk
  split
  · exact .inl ⟨‹_›, _, rfl⟩
  · exact .inr ⟨‹_›, _, rfl⟩

theorem getSigManagerFor_cases (x : SchedulerIndices)
    (messages : List AppRequestInfo.SignedMessage) :
    ((∀ msg ∈ messages, accountChunk msg.issuerAccount ∈ x.heapIndex.chunkIndex) ∧
      ∃ m, x.getSigManagerFor messages = .ok m) ∨
      (∃ msg ∈ messages, accountChunk msg.issuerAccount ∉ x.heapIndex.chunkIndex) ∧
        ∃ message, x.getSigManagerFor messages = .error (.blockError message) := by
  unfold getSigManagerFor
  cases hmap : messages.mapM x.signedMessage with
  | ok signed =>
    refine .inl ⟨fun msg hmsg => ?_, _, rfl⟩
    obtain ⟨m, hm⟩ := mapM_returns_iff.mp ⟨_, hmap⟩ msg hmsg
    obtain ⟨hin, -⟩ | ⟨-, message, herror⟩ := signedMessage_cases x msg
    · exact hin
    · rw [herror] at hm
      cases hm
  | error e =>
    obtain ⟨msg, hmsg, he⟩ := mapM_error_mem hmap
    obtain ⟨-, m, hok⟩ | ⟨hmissing, message, herror⟩ := signedMessage_cases x msg
    · rw [hok] at he
      cases he
    · obtain rfl := Except.error.inj (herror.symm.trans he)
      exact .inr ⟨⟨msg, hmsg, hmissing⟩, message, rfl⟩

/-- A node is made of a request without a defect, and a first defect that is not an access block
outside its chunk, and does not end the process, is a `BlockError`. -/
theorem dagNode_iff : ((∃ node, x.dagNode data = .ok node) ↔ x.Accepted data) ∧
    ((∃ e, x.dagNode data = .error e ∧ e.IsBlockError) ↔ x.Invalid data) := by
  have hok := @ChunkIndex.buildModifier_ok_iff x.heapIndex x.heap data.memoryAccessMap
  have herror := @ChunkIndex.buildModifier_blockError_iff x.heapIndex x.heap data.memoryAccessMap
  unfold dagNode
  cases hbuild : x.heapIndex.buildModifier x.heap data.memoryAccessMap with
  | error e =>
    rw [hbuild] at hok herror
    have hnot : ¬ ∀ e ∈ ChunkIndex.chunkEntries data.memoryAccessMap,
        ChunkIndex.Admitted x.heapIndex x.heap e :=
      fun hall => nomatch hok.mpr hall
    constructor
    · exact iff_of_false nofun fun h => hnot h.chunks
    · constructor
      · rintro ⟨e', he, hblock⟩
        obtain rfl : e = e' := Except.error.inj he
        exact .inl (herror.mp ⟨e, rfl, hblock⟩)
      · rintro (hrejects | ⟨hall, -⟩)
        · obtain ⟨e', he, hblock⟩ := herror.mpr hrejects
          obtain rfl := Except.error.inj he
          exact ⟨e, rfl, hblock⟩
        · exact absurd hall hnot
  | ok modifier =>
    rw [hbuild] at hok herror
    have hall := hok.mp ⟨modifier, rfl⟩
    have hnot : ¬ ChunkIndex.RejectsFirst x.heapIndex x.heap
        (ChunkIndex.chunkEntries data.memoryAccessMap) := by
      intro hrejects
      obtain ⟨e, he, -⟩ := herror.mpr hrejects
      cases he
    -- whatever is missing now is a `BlockError`
    obtain ⟨happs, t, ht⟩ | ⟨⟨appID, happ, hnone⟩, message, ht⟩ :=
      buildAppTable_cases x.appIndex data.appAccessList
    · obtain ⟨hsigs, m, hm⟩ | ⟨⟨msg, hmsg, hmissing⟩, message, hm⟩ :=
        getSigManagerFor_cases x data.signedMessagesList
      · rw [ht, hm]
        constructor
        · exact iff_of_true ⟨_, rfl⟩ ⟨hall, happs, hsigs⟩
        · refine iff_of_false nofun ?_
          rintro (hrejects | ⟨-, ⟨appID, happ, hnone⟩ | ⟨msg, hmsg, hmissing⟩⟩)
          · exact hnot hrejects
          · exact happs appID happ hnone
          · exact hmissing (hsigs msg hmsg)
      · rw [ht, hm]
        constructor
        · exact iff_of_false nofun fun h => hmissing (h.signatures msg hmsg)
        · exact iff_of_true ⟨.blockError message, rfl,
            trivial⟩ (.inr ⟨hall, .inr ⟨msg, hmsg, hmissing⟩⟩)
    · rw [ht]
      constructor
      · exact iff_of_false nofun fun h => h.apps appID happ hnone
      · exact iff_of_true ⟨.blockError message, rfl,
          trivial⟩ (.inr ⟨hall, .inl ⟨appID, happ, hnone⟩⟩)

theorem addRequest_iff {total : Nat} (hid : data.id < total) :
    ((∃ a, x.addRequest total data = .ok a) ↔ x.Accepted data) ∧
    ((∃ e, x.addRequest total data = .error e ∧ e.IsBlockError) ↔ x.Invalid data) := by
  rw [← dagNode_iff.1, ← dagNode_iff.2]
  unfold addRequest
  rw [if_pos hid]
  cases x.dagNode data with
  | ok node => exact ⟨iff_of_true ⟨_, rfl⟩ ⟨_, rfl⟩, iff_of_false nofun nofun⟩
  | error e =>
    refine ⟨iff_of_false nofun nofun, ?_⟩
    change (∃ e', (.error e : Except Exn (AppRequestInfo × DagNode)) = .error e' ∧ _) ↔ _
    simp only [Except.error.injEq]

/-- The node keeps the adjacency set of its request. -/
theorem addRequest_ok {total : Nat} {a : AppRequestInfo × DagNode}
    (h : x.addRequest total data = .ok a) :
    a.1 = data ∧ a.2.adjList = data.adjList := by
  unfold addRequest at h
  split at h
  · obtain ⟨node, hnode, h⟩ := bind_ok.mp h
    obtain rfl := Except.ok.inj h
    refine ⟨rfl, ?_⟩
    obtain ⟨modifier, -, hnode⟩ := bind_ok.mp hnode
    obtain ⟨appTable, -, hnode⟩ := bind_ok.mp hnode
    obtain ⟨signatureManager, -, hnode⟩ := bind_ok.mp hnode
    obtain rfl := Except.ok.inj hnode
    rfl
  · cases h

theorem Accepted.not_invalid (h : x.Accepted data) : ¬ x.Invalid data := by
  intro hinvalid
  obtain ⟨node, hnode⟩ := dagNode_iff.1.mpr h
  obtain ⟨e, he, -⟩ := dagNode_iff.2.mpr hinvalid
  rw [hnode] at he
  cases he

end SchedulerIndices

/-! ## Loading -/

/-- A loop in a loop is one loop over all elements. -/
theorem mapM_flatMap {α β γ : Type} (f : β → Except Exn γ) (h : α → List β) : ∀ l : List α,
    (l.flatMap h).mapM f = (l.mapM fun a => (h a).mapM f).map List.flatten
  | [] => rfl
  | a :: l => by
    rw [List.flatMap_cons, List.mapM_append, List.mapM_cons, mapM_flatMap f h l]
    cases (h a).mapM f with
    | error e => rfl
    | ok bs => cases l.mapM fun a => (h a).mapM f <;> rfl

theorem foldlM_rel {α β : Type} {f : β → α → Except Exn β} {R : β → β → Prop} (hrefl : ∀ b, R b b)
    (htrans : ∀ {a b c}, R a b → R b c → R a c) (hstep : ∀ {b a b'}, f b a = .ok b' → R b b') :
    ∀ {l : List α} {b b' : β},
    l.foldlM f b = .ok b' → R b b'
  | [], b, b', h => by
    obtain rfl := Except.ok.inj h
    exact hrefl b
  | a :: l, b, b', h => by
    rw [List.foldlM_cons] at h
    obtain ⟨c, hc, h⟩ := bind_ok.mp h
    exact htrans (hstep hc) (foldlM_rel hrefl htrans hstep h)

theorem foldlM_error {α β : Type} {f : β → α → Except Exn β} {p : Exn → Prop}
    (hstep : ∀ {b a e}, f b a = .error e → p e) :
    ∀ {l : List α} {b : β} {e : Exn}, l.foldlM f b = .error e → p e
  | [], b, e, h => nomatch h
  | a :: l, b, e, h => by
    rw [List.foldlM_cons] at h
    cases hf : f b a with
    | error e' =>
      rw [hf] at h
      obtain rfl : e' = e := Except.error.inj h
      exact hstep hf
    | ok c =>
      rw [hf] at h
      exact foldlM_error hstep h

namespace RequestScheduler
variable {s t : RequestScheduler}

/-- The increments of in-degrees leave the edges as they are. -/
theorem isAdjacent_incrementInDegree {id : Nat} (h : s.incrementInDegree id = .ok t) :
    t.isAdjacent = s.isAdjacent := by
  obtain ⟨node, hnode, h⟩ := bind_ok.mp h
  obtain rfl := Except.ok.inj h
  funext u v
  unfold isAdjacent
  by_cases hu : u = id
  · subst hu
    rw [nodeAt_setNode_self (lt_of_nodeAt hnode), hnode]
  · rw [nodeAt_setNode u hu]

theorem isAdjacent_finalizeRequests {ids : List Nat} (h : s.finalizeRequests ids = .ok t) :
    t.isAdjacent = s.isAdjacent := by
  let R (s t : RequestScheduler) : Prop := t.isAdjacent = s.isAdjacent
  have hrefl : ∀ s, R s s := fun _ => rfl
  have htrans : ∀ {s t u}, R s t → R t u → R s u := fun hst htu => htu.trans hst
  refine foldlM_rel hrefl htrans ?_ h
  intro s id t hstep
  obtain ⟨node, -, hstep⟩ := bind_ok.mp hstep
  exact foldlM_rel hrefl htrans isAdjacent_incrementInDegree hstep

/-- A node that is not there is no exception. -/
theorem nodeAt_error {id : Nat} {e : Exn} (h : s.nodeAt id = .error e) : ¬ e.IsThrown := by
  unfold nodeAt at h
  split at h
  · cases h
  · obtain rfl := Except.error.inj h
    exact not_false

theorem finalizeRequests_error {ids : List Nat} {e : Exn} (h : s.finalizeRequests ids = .error e) :
    ¬ e.IsThrown := by
  refine foldlM_error (p := fun e => ¬ e.IsThrown) ?_ h
  intro s id e hstep
  unfold finalizeRequest at hstep
  cases hnode : s.nodeAt id with
  | error e' =>
    rw [hnode] at hstep
    obtain rfl : e' = e := Except.error.inj hstep
    exact nodeAt_error hnode
  | ok node =>
    rw [hnode] at hstep
    refine foldlM_error (p := fun e => ¬ e.IsThrown) ?_
      (hstep : node.adjList.foldlM incrementInDegree s = .error e)
    intro s id e hincrement
    unfold incrementInDegree at hincrement
    cases hnode : s.nodeAt id with
    | error e' =>
      rw [hnode] at hincrement
      obtain rfl : e' = e := Except.error.inj hincrement
      exact nodeAt_error hnode
    | ok node =>
      rw [hnode] at hincrement
      cases hincrement

end RequestScheduler

/-- The edges that the requests declare. -/
def adjacency (requests : List AppRequestInfo) : Dag := fun u v =>
  ((requests.find? fun r => r.id == u).map fun r => r.adjList.contains v).getD false

theorem isAdjacent_added {x : SchedulerIndices} {total : Nat} {requests : List AppRequestInfo}
    {loaded : List (AppRequestInfo × DagNode)}
    (hids : ∀ r ∈ requests, r.id < total)
    (h : List.Forall₂ (fun r a => x.addRequest total r = .ok a) requests loaded) :
    loaded.map Prod.fst = requests ∧
      (RequestScheduler.added total loaded).isAdjacent = adjacency requests := by
  -- the node of an identifier is the one of the first request that has it
  have hfind : ∀ u, (loaded.find? fun a => a.1.id == u).map (fun a => a.2.adjList) =
      (requests.find? fun r => r.id == u).map AppRequestInfo.adjList := by
    intro u
    clear hids
    induction h with
    | nil => rfl
    | @cons r a requests loaded hadd _ ih =>
      obtain ⟨hdata, hadj⟩ := SchedulerIndices.addRequest_ok hadd
      rw [List.find?_cons, List.find?_cons, hdata]
      cases r.id == u with
      | true => exact congrArg some hadj
      | false => exact ih
  constructor
  · clear hids hfind
    induction h with
    | nil => rfl
    | cons hadd _ ih => rw [List.map_cons, ih, (SchedulerIndices.addRequest_ok hadd).1]
  · funext u v
    have hu := hfind u
    unfold RequestScheduler.isAdjacent adjacency RequestScheduler.nodeAt RequestScheduler.added
    dsimp only
    rw [List.getElem?_map]
    by_cases hlt : u < total
    · rw [List.getElem?_range hlt]
      cases hl : loaded.find? fun a => a.1.id == u with
      | none =>
        rw [hl] at hu
        cases hr : requests.find? fun r => r.id == u with
        | none => simp [hl]
        | some r =>
          rw [hr] at hu
          cases hu
      | some a =>
        rw [hl] at hu
        cases hr : requests.find? fun r => r.id == u with
        | none =>
          rw [hr] at hu
          cases hu
        | some r =>
          rw [hr] at hu
          have hadj : a.2.adjList = r.adjList := Option.some.inj hu
          simp [hl, hadj]
    · -- past the end of the index there is no request, and no node
      have hnone : (requests.find? fun r => r.id == u) = none := by
        rw [List.find?_eq_none]
        intro r hr heq
        have hid := hids r hr
        rw [beq_iff_eq] at heq
        omega
      rw [hnone, List.getElem?_eq_none (by simpa using hlt)]
      rfl

/-- What the loading of the requests comes to. -/
theorem loadRequests_cases {x : SchedulerIndices} {total workersCount : Nat}
    {streams : List (List AppRequestInfo)}
    (hids : ∀ r ∈ RequestProcessor.addedRequests streams workersCount, r.id < total) :
    (∀ s requests, RequestProcessor.loadRequests x total workersCount streams = .ok (s, requests) →
      requests = RequestProcessor.addedRequests streams workersCount ∧
        (∀ r ∈ requests, x.Accepted r) ∧
        s.isAdjacent = adjacency requests) ∧
    ∀ e, e.IsThrown → RequestProcessor.loadRequests x total workersCount streams = .error e →
      (¬ ∀ r ∈ RequestProcessor.addedRequests streams workersCount, x.Accepted r) ∧
        (e.IsBlockError ↔ FirstFails x.Accepted x.Invalid
          (RequestProcessor.addedRequests streams workersCount)) := by
  have hreads : (RequestProcessor.addedRequests streams workersCount).mapM (x.addRequest total) =
      ((RequestProcessor.runAll streams.length workersCount).flatten.mapM fun i =>
        (streams.getD i []).mapM (x.addRequest total)).map List.flatten := mapM_flatMap _ _ _
  have hfirst : ThrowsFirst (x.addRequest total) Exn.IsBlockError
      (RequestProcessor.addedRequests streams workersCount) ↔
        FirstFails x.Accepted x.Invalid (RequestProcessor.addedRequests streams workersCount) :=
    throwsFirst_iff_firstFails fun r hr => SchedulerIndices.addRequest_iff (hids r hr)
  constructor
  · intro s requests h
    unfold RequestProcessor.loadRequests at h
    obtain ⟨loaded, hloaded, h⟩ := bind_ok.mp h
    obtain ⟨t, ht, h⟩ := bind_ok.mp h
    obtain ⟨rfl, rfl⟩ := Prod.mk.inj (Except.ok.inj h)
    rw [RequestProcessor.runTasks_ok_iff.mp hloaded] at hreads
    have hall := mapM_ok_iff.mp hreads
    obtain ⟨hfst, hadjacent⟩ := isAdjacent_added hids hall
    rw [hfst]
    refine ⟨rfl, fun r hr => ?_, (RequestScheduler.isAdjacent_finalizeRequests ht).trans hadjacent⟩
    exact (SchedulerIndices.addRequest_iff (hids r hr)).1.mp (mapM_returns_iff.mp ⟨_, hreads⟩ r hr)
  · intro e hthrown h
    unfold RequestProcessor.loadRequests at h
    cases hrun : RequestProcessor.runTasks (fun i => (streams.getD i []).mapM (x.addRequest total))
        (RequestProcessor.runAll streams.length workersCount) with
    | ok loaded =>
      -- to finalize a request throws nothing
      rw [hrun] at h
      change ((RequestScheduler.added total loaded.flatten).finalizeRequests _ >>= fun s =>
        .ok (s, _) :
        Except Exn (RequestScheduler × List AppRequestInfo)) = _ at h
      cases hfinal : (RequestScheduler.added total loaded.flatten).finalizeRequests
          (RequestProcessor.finalizedRequests total workersCount) with
      | ok t =>
        rw [hfinal] at h
        cases h
      | error e' =>
        rw [hfinal] at h
        obtain rfl : e' = e := Except.error.inj h
        exact absurd hthrown (RequestScheduler.finalizeRequests_error hfinal)
    | error e' =>
      rw [hrun] at h
      obtain rfl : e' = e := Except.error.inj h
      rw [RequestProcessor.runTasks_thrown hrun hthrown] at hreads
      have herror : (RequestProcessor.addedRequests streams workersCount).mapM
          (x.addRequest total) = .error e' := hreads
      constructor
      · intro hall
        obtain ⟨r, hr, he⟩ := mapM_error_mem herror
        obtain ⟨a, ha⟩ := (SchedulerIndices.addRequest_iff (hids r hr)).1.mpr (hall r hr)
        rw [ha] at he
        cases he
      · rw [← hfirst, ← mapM_error_iff, herror]
        simp only [Except.error.injEq, exists_eq_left']

/-! ## Checking -/

/-- No `BlockError` is thrown. -/
def Unblocked {α : Type} (r : Except Exn α) : Prop := ∀ e, r = .error e → ¬ e.IsBlockError

section
variable {α β : Type}

theorem unblocked_ok (a : α) : Unblocked (.ok a : Except Exn α) := nofun

theorem unblocked_error {e : Exn} (h : ¬ e.IsBlockError) : Unblocked (.error e : Except Exn α) := by
  intro e' he
  obtain rfl := Except.error.inj he
  exact h

theorem Unblocked.bind {r : Except Exn α} {f : α → Except Exn β} (h : Unblocked r)
    (hf : ∀ a, Unblocked (f a)) : Unblocked (r >>= f) := by
  cases r with
  | ok a => exact hf a
  | error e =>
    intro e' he
    obtain rfl : e = e' := Except.error.inj he
    exact h e rfl

theorem unblocked_vecGet (v : List α) (k : Nat) : Unblocked (vecGet v k) := by
  unfold vecGet
  split
  · exact unblocked_ok _
  · exact unblocked_error not_false

theorem unblocked_vecSet (v : List α) (k : Nat) (a : α) : Unblocked (vecSet v k a) := by
  unfold vecSet
  split
  · exact unblocked_ok _
  · exact unblocked_error not_false

theorem unblocked_forEach {f : α → Except Exn Unit} (h : ∀ a, Unblocked (f a)) :
    ∀ l : List α, Unblocked (forEach f l)
  | [] => unblocked_ok ()
  | a :: l => (h a).bind fun _ => unblocked_forEach h l

end

namespace VerifierCluster
variable (dag : Dag)

theorem unblocked_registerAdjacency (u v : Nat) : Unblocked (registerAdjacency dag u v) := by
  unfold registerAdjacency
  split
  · exact unblocked_ok ()
  · exact unblocked_error not_false

theorem unblocked_addDependencyBetween (u v : Nat) : Unblocked (addDependencyBetween dag u v) := by
  unfold addDependencyBetween
  split
  · exact unblocked_registerAdjacency dag u v
  · exact unblocked_registerAdjacency dag v u

theorem unblocked_registerChain : ∀ l : List Nat, Unblocked (registerChain dag l)
  | [] => unblocked_ok ()
  | [_] => unblocked_ok ()
  | u :: v :: rest => (unblocked_registerAdjacency dag u v).bind fun _ =>
    unblocked_registerChain (v :: rest)

theorem unblocked_finalize (c : VerifierCluster) : Unblocked (c.finalize dag) := by
  unfold finalize
  split
  · exact unblocked_registerChain dag c.members
  · exact unblocked_ok ()

theorem unblocked_addDependency (c : VerifierCluster) (u : Nat) :
    Unblocked (c.addDependency dag u) := by
  unfold addDependency
  split
  · dsimp only
    split
    · exact (unblocked_vecGet _ _).bind fun previous => unblocked_registerAdjacency dag previous u
    · split
      · exact (unblocked_vecGet _ _).bind fun next => unblocked_registerAdjacency dag u next
      · refine (unblocked_vecGet _ _).bind fun previous =>
          (unblocked_registerAdjacency dag previous u).bind fun _ => ?_
        exact (unblocked_vecGet _ _).bind fun next => unblocked_registerAdjacency dag u next
  · exact unblocked_forEach (fun member => unblocked_addDependencyBetween dag member u) c.members

end VerifierCluster

namespace RequestScheduler
variable (dag : Dag)

theorem unblocked_shiftDown (stop : Int) :
    ∀ (fuel k : Nat) (slots : List Slot), Unblocked (shiftDown stop fuel k slots)
  | 0, _, _ => unblocked_error not_false
  | fuel + 1, k, slots => by
    unfold shiftDown
    refine (unblocked_vecGet _ _).bind fun s => ?_
    split
    · exact (unblocked_vecSet _ _ _).bind fun slots => unblocked_shiftDown stop fuel (k + 1) slots
    · exact unblocked_ok _

theorem unblocked_split (slots : List Slot) (i j : Nat) (stop : Int) :
    Unblocked (split slots i j stop) := by
  refine (unblocked_shiftDown _ _ _ _).bind fun (slots, k) => ?_
  refine (unblocked_vecGet _ _).bind fun left => ?_
  exact (unblocked_vecSet _ _ _).bind fun slots => unblocked_vecSet _ _ _

theorem unblocked_scan (i : Nat) (x : Slot) (stop : Int) :
    ∀ (n j : Nat) (slots : List Slot), Unblocked (scan dag i x stop n j slots)
  | 0, _, _ => unblocked_ok _
  | n + 1, j, slots => by
    unfold scan
    refine (unblocked_vecGet _ _).bind fun y => ?_
    split
    · split
      · have hcheck : Unblocked (checkDependency dag x y) := by
          unfold checkDependency
          split
          · exact VerifierCluster.unblocked_addDependency dag _ _
          · exact unblocked_ok ()
        exact hcheck.bind fun _ => unblocked_scan i x stop n (j + 1) slots
      · rw [VerifierCluster.merge_eq]
        refine (unblocked_vecSet _ _ _).bind fun slots => ?_
        split
        · dsimp only
          split
          · exact (unblocked_split _ _ _ _).bind fun _ => unblocked_ok _
          · exact unblocked_ok _
        · exact unblocked_ok _
    · exact unblocked_ok _

theorem unblocked_cliqueStep (slots : List Slot) (i : Nat) :
    Unblocked (cliqueStep dag slots i) := by
  refine (unblocked_vecGet _ _).bind fun x => ?_
  split
  · exact unblocked_ok _
  · rw [VerifierCluster.insert_eq]
    refine (unblocked_vecSet _ _ _).bind fun slots => ?_
    refine (unblocked_scan dag _ _ _ _ _ _).bind fun (slots, skipped, again) => ?_
    cases skipped with
    | true => exact unblocked_ok _
    | false => exact (VerifierCluster.unblocked_finalize dag _).bind fun _ => unblocked_ok _

theorem unblocked_cliqueLoop :
    ∀ (fuel : Nat) (slots : List Slot) (i : Nat), Unblocked (cliqueLoop dag fuel slots i)
  | 0, slots, i => by
    unfold cliqueLoop
    split
    · exact unblocked_error not_false
    · exact unblocked_ok ()
  | fuel + 1, slots, i => by
    unfold cliqueLoop
    split
    · exact (unblocked_cliqueStep dag slots i).bind fun (slots, i) =>
        unblocked_cliqueLoop fuel slots i
    · exact unblocked_ok ()

/-- The blocks of the requests that may resize the chunk ask for its size bounds, if there is a
memory block. -/
def AsksBounds (blocks : List PlacedBlock) : Prop :=
  (∃ w ∈ blocks, w.offset = -1) ∧ ∃ b ∈ blocks, 0 ≤ b.offset

/-- The only `BlockError` of the check is that of the size bounds. -/
theorem checkCollisions_blockError_iff {getSizeLowerBound : Except Exn Int}
    {blocks : List PlacedBlock}
    (hs : blocks.Pairwise fun a b => a.offset ≤ b.offset) :
    (∃ e, checkCollisions dag getSizeLowerBound blocks = .error e ∧ e.IsBlockError) ↔
      AsksBounds blocks ∧ ∃ e, getSizeLowerBound = .error e ∧ e.IsBlockError := by
  have hcliques : Unblocked (findCollisionCliques dag blocks) := unblocked_cliqueLoop dag _ _ _
  have hok := findResizingCollisions_ok dag getSizeLowerBound hs
  -- the lower bound is asked for first
  have hcases : findResizingCollisions dag getSizeLowerBound blocks = .ok () ∨
      ∃ check, (∀ lowerBound, Unblocked (check lowerBound)) ∧
        findResizingCollisions dag getSizeLowerBound blocks = getSizeLowerBound >>= check := by
    unfold findResizingCollisions
    dsimp only
    split
    · exact .inl rfl
    · split
      · exact .inl rfl
      · refine .inr ⟨_, fun lowerBound => ?_, rfl⟩
        refine unblocked_forEach (fun b => ?_) _
        split
        · exact unblocked_error not_false
        · split
          · refine unblocked_forEach (fun w => ?_) _
            split
            · exact VerifierCluster.unblocked_addDependencyBetween dag _ _
            · exact unblocked_ok ()
          · exact unblocked_ok ()
  unfold checkCollisions
  cases hbound : getSizeLowerBound with
  | ok lowerBound =>
    rw [hbound] at hcases
    refine iff_of_false ?_ fun ⟨_, e, he, _⟩ => nomatch he
    rintro ⟨e, he, hblock⟩
    have hresizing : Unblocked (findResizingCollisions dag (.ok lowerBound) blocks) := by
      obtain hreturns | ⟨check, hcheck, hsame⟩ := hcases
      · rw [hreturns]
        exact unblocked_ok ()
      · rw [hsame]
        exact hcheck lowerBound
    exact hresizing.bind (fun _ => hcliques) e he hblock
  | error e₀ =>
    rw [hbound] at hcases hok
    by_cases hasks : AsksBounds blocks
    · have herror : findResizingCollisions dag (.error e₀) blocks = .error e₀ := by
        obtain hreturns | ⟨check, -, hsame⟩ := hcases
        · obtain ⟨lowerBound, hnone, -⟩ := hok.mp hreturns hasks.1 hasks.2
          cases hnone
        · exact hsame
      rw [herror]
      constructor
      · rintro ⟨e, he, hblock⟩
        obtain rfl : e₀ = e := Except.error.inj he
        exact ⟨hasks, e₀, rfl, hblock⟩
      · rintro ⟨-, e, he, hblock⟩
        obtain rfl := Except.error.inj he
        exact ⟨e₀, rfl, hblock⟩
    · have hreturns : findResizingCollisions dag (.error e₀) blocks = .ok () :=
        hok.mpr fun hw hb => absurd ⟨hw, hb⟩ hasks
      rw [hreturns]
      refine iff_of_false ?_ fun h => hasks h.1
      rintro ⟨e, he, hblock⟩
      exact hcliques e he hblock

end RequestScheduler

namespace RequestProcessor
variable {index : ChunkIndex} {dag : Dag} {m : AccessMapType}

/-- The check of the chunk at a position finds nothing. -/
def ChunkVerified (index : ChunkIndex) (dag : Dag) (m : AccessMapType) (p : Nat × Nat) : Prop :=
  checkChunk index dag m p.1 p.2 = .ok ()

/-- The blocks of the chunk at a position ask for size bounds that the block does not propose. -/
def BoundsMissing (index : ChunkIndex) (m : AccessMapType) (p : Nat × Nat) : Prop :=
  ∃ c, chunkAt m p.1 p.2 = some c ∧ RequestScheduler.AsksBounds c.2 ∧
    ∀ bounds, index.sizeBoundsInfo.at c.1 ≠ .ok bounds

theorem getSizeLowerBound_blockError_iff (index : ChunkIndex) (id : FullID) :
    (∃ e, index.getSizeLowerBound id = .error e ∧ e.IsBlockError) ↔
    ∀ bounds, index.sizeBoundsInfo.at id ≠ .ok bounds := by
  unfold ChunkIndex.getSizeLowerBound
  obtain ⟨bounds, hat, -⟩ | hat := index.sizeBoundsInfo.at_cases id
  · rw [hat]
    exact iff_of_false (fun ⟨e, he, _⟩ => nomatch he) fun h => h bounds rfl
  · rw [hat]
    exact iff_of_true ⟨.blockError "missing chunk size bounds", rfl,
      trivial⟩ fun bounds hb => nomatch hb

/-- The blocks of a chunk of a merged map are sorted by offset. -/
theorem chunkAt_sorted {maps : List AccessMapType}
    (hmerge : RequestScheduler.MergeOf maps m) {i j : Nat}
    {c : FullID × List PlacedBlock} (h : chunkAt m i j = some c) :
    c.2.Pairwise fun a b => a.offset ≤ b.offset := by
  unfold chunkAt at h
  simp only [Option.bind_eq_bind, Option.bind_eq_some_iff] at h
  obtain ⟨appID, happ, chunkList, hlist, chunkLocalID, hchunk, blocks, hblocks, hc⟩ := h
  obtain rfl := Option.some.inj hc
  have hmem : (appID, chunkList) ∈ m.entries :=
    List.mem_of_getElem? (List.getElem?_zip_eq_some.mpr ⟨happ, hlist⟩)
  have hmem' : (chunkLocalID, blocks) ∈ chunkList.entries :=
    List.mem_of_getElem? (List.getElem?_zip_eq_some.mpr ⟨hchunk, hblocks⟩)
  refine List.pairwise_map.mpr ((hmerge.blocks_sorted _ hmem _ hmem').imp ?_)
  rintro a b (hlt | ⟨heq, -⟩)
  · exact Int.le_of_lt hlt
  · exact Int.le_of_eq heq

theorem checkChunk_blockError_iff {maps : List AccessMapType}
    (hmerge : RequestScheduler.MergeOf maps m) (p : Nat × Nat) :
    (∃ e, checkChunk index dag m p.1 p.2 = .error e ∧ e.IsBlockError) ↔
    BoundsMissing index m p := by
  unfold checkChunk BoundsMissing
  cases hc : chunkAt m p.1 p.2 with
  | none =>
    refine iff_of_false ?_ fun ⟨c, hnone, _⟩ => nomatch hnone
    rintro ⟨e, he, hblock⟩
    obtain rfl := Except.error.inj he
    exact hblock
  | some c =>
    dsimp only
    rw [RequestScheduler.checkCollisions_blockError_iff dag (chunkAt_sorted hmerge hc),
      getSizeLowerBound_blockError_iff]
    constructor
    · exact fun h => ⟨c, rfl, h⟩
    · rintro ⟨c', hc', h⟩
      obtain rfl := Option.some.inj hc'
      exact h

/-- The applications are checked one after the other. -/
theorem forEach_runTasks_thrown {task : Nat → Nat → Except Exn Unit}
    {workers : Nat → List (List Nat)} {e : Exn} (hthrown : e.IsThrown) :
    ∀ {l : List Nat}, forEach (fun i => do let _ ← runTasks (task i) (workers i); .ok ()) l =
      .error e →
      (l.mapM fun i => (workers i).flatten.mapM (task i)) = .error e
  | i :: l, h => by
    rw [List.mapM_cons]
    rw [forEach] at h
    cases hrun : runTasks (task i) (workers i) with
    | ok results =>
      rw [hrun] at h
      rw [runTasks_ok_iff.mp hrun]
      have hrest : (l.mapM fun i => (workers i).flatten.mapM (task i)) = .error e :=
        forEach_runTasks_thrown hthrown h
      rw [hrest]
      rfl
    | error e' =>
      rw [hrun] at h
      obtain rfl : e' = e := Except.error.inj h
      rw [runTasks_thrown hrun hthrown]
      rfl

/-- What the check of the dependency graph throws is what the first chunk throws
that is not verified. -/
theorem verifyDependencyGraph_thrown {maps : List AccessMapType}
    (hsorted : ∀ m ∈ maps, RequestScheduler.SortedMap m)
    {workersCount : Nat} {e : Exn} (hthrown : e.IsThrown)
    (h : verifyDependencyGraph index dag maps workersCount = .error e) :
    ∃ m, RequestScheduler.sortAccessBlocks maps workersCount = .ok m ∧
      (e.IsBlockError ↔ FirstFails (ChunkVerified index dag m) (BoundsMissing index m)
        (checkDependencyGraph m workersCount)) := by
  obtain ⟨m, hm, hlevels⟩ := RequestScheduler.sortAccessBlocks_levels hsorted workersCount
  have hmerge := hlevels.mergeOf
  refine ⟨m, hm, ?_⟩
  unfold verifyDependencyGraph at h
  rw [hm] at h
  have hloop := forEach_runTasks_thrown hthrown h
  have hall : (checkDependencyGraph m workersCount).mapM (fun p => checkChunk index dag m p.1 p.2) =
      .error e := by
    unfold checkDependencyGraph
    rw [mapM_flatMap]
    simp only [List.mapM_map, Function.comp_def]
    exact congrArg (Except.map List.flatten) hloop
  have hfirst : ThrowsFirst (fun p : Nat × Nat => checkChunk index dag m p.1 p.2) Exn.IsBlockError
      (checkDependencyGraph m workersCount) ↔
        FirstFails (ChunkVerified index dag m) (BoundsMissing index m)
          (checkDependencyGraph m workersCount) := by
    refine throwsFirst_iff_firstFails fun p _ => ⟨?_, checkChunk_blockError_iff hmerge p⟩
    exact ⟨fun ⟨_, h⟩ => h, fun h => ⟨(), h⟩⟩
  rw [← hfirst, ← mapM_error_iff, hall]
  simp only [Except.error.injEq, exists_eq_left']

end RequestProcessor

/-! ## The verdict -/

theorem error_of_bind_ok {α β : Type} {r : Except Exn α} {b : β} {e : Exn}
    (h : (r >>= fun _ => .ok b) = .error e) : r = .error e := by
  cases r with
  | ok a => cases h
  | error e' =>
    obtain rfl : e' = e := Except.error.inj h
    rfl

namespace BlockValidator

/-- The requests in the order in which they are read. -/
def reads (v : BlockValidator) (loader : BlockLoader) : List AppRequestInfo :=
  RequestProcessor.addedRequests (loader.createRequestStreams v.workersCount) v.workersCount

/-- The first defect of a block is one that the rules of a block speak of: a request that is invalid
before anything else is found, or, after all requests were loaded, a chunk without the size bounds
that it needs before any chunk with a missing edge. -/
def FirstDefectInvalid (v : BlockValidator) (loader : BlockLoader) (x : SchedulerIndices) : Prop :=
  FirstFails x.Accepted x.Invalid (v.reads loader) ∨
    (∀ r ∈ v.reads loader, x.Accepted r) ∧ ∃ m,
      RequestScheduler.sortAccessBlocks (memoryAccessMaps loader.numOfRequests (v.reads loader))
        v.workersCount = .ok m ∧
        FirstFails (RequestProcessor.ChunkVerified x.heapIndex (adjacency (v.reads loader)) m)
          (RequestProcessor.BoundsMissing x.heapIndex m)
            (RequestProcessor.checkDependencyGraph m v.workersCount)

/-- What the loader has checked. -/
structure WellFormed (v : BlockValidator) (loader : BlockLoader) : Prop where
  ids : ∀ r ∈ v.reads loader, r.id < loader.numOfRequests
  sorted : ∀ r ∈ v.reads loader, RequestScheduler.SortedMap r.memoryAccessMap

theorem sorted_memoryAccessMaps {total : Nat} {requests : List AppRequestInfo}
    (h : ∀ r ∈ requests, RequestScheduler.SortedMap r.memoryAccessMap) :
    ∀ m ∈ memoryAccessMaps total requests, RequestScheduler.SortedMap m := by
  intro m hm
  obtain ⟨id, -, rfl⟩ := List.mem_map.mp hm
  cases hfind : requests.find? fun r => r.id == id with
  | none => exact ⟨.nil, nofun, nofun⟩
  | some r => exact h r (List.mem_of_find?_eq_some hfind)

variable {v : BlockValidator} {loader : BlockLoader} {x : SchedulerIndices}

/-- A defect is a `BlockError` exactly if the first one is. -/
theorem loadAndCheck_blockError_iff (hwf : v.WellFormed loader) {e : Exn} (hthrown : e.IsThrown)
    (h : v.loadAndCheck loader x = .error e) : e.IsBlockError ↔ v.FirstDefectInvalid loader x := by
  obtain ⟨hok, herror⟩ := loadRequests_cases (x := x) hwf.ids
  unfold loadAndCheck at h
  cases hload : RequestProcessor.loadRequests x loader.numOfRequests v.workersCount
    (loader.createRequestStreams v.workersCount) with
  | error e' =>
    rw [hload] at h
    obtain rfl : e' = e := Except.error.inj h
    obtain ⟨hnot, hfirst⟩ := herror e' hthrown hload
    rw [hfirst]
    exact ⟨.inl, fun h => h.resolve_right fun hall => hnot hall.1⟩
  | ok loaded =>
    obtain ⟨scheduler, requests⟩ := loaded
    obtain ⟨rfl, hall, hadjacent⟩ := hok scheduler requests hload
    have hadjacent : scheduler.isAdjacent = adjacency (v.reads loader) := hadjacent
    rw [hload] at h
    have hverify : RequestProcessor.verifyDependencyGraph x.heapIndex (adjacency (v.reads loader))
        (memoryAccessMaps loader.numOfRequests (v.reads loader)) v.workersCount = .error e := by
      rw [← hadjacent]
      exact error_of_bind_ok h
    obtain ⟨m, hm, hfirst⟩ :=
      RequestProcessor.verifyDependencyGraph_thrown (sorted_memoryAccessMaps hwf.sorted)
        hthrown hverify
    rw [hfirst]
    constructor
    · exact fun hfails => .inr ⟨hall, m, hm, hfails⟩
    · rintro (hfails | ⟨-, m', hm', hfails⟩)
      · exact absurd hfails (not_firstFails fun r hr => (hall r hr).not_invalid)
      · obtain rfl := Except.ok.inj (hm.symm.trans hm')
        exact hfails

/-- **Defects and the verdict.** A block with a defect that is detected while its requests are
loaded or its dependency graph is checked is rolled back and found invalid exactly if its first
defect is a broken rule: not if it is an access block outside the memory of its chunk or an edge
that is missing. -/
theorem conditionalValidate_rejects_iff (hwf : v.WellFormed loader)
    {verify : String → List Byte → List Byte → Bool}
    {preparedPages : Except Exn (List Page × List Page × Heap)}
    (execute : RequestScheduler → Heap → Except Exn Bool)
    {readonlyPages writablePages : List Page} {heap heap' : Heap} {heapIndex : ChunkIndex}
    (hpages : preparedPages = .ok (readonlyPages, writablePages, heap))
    (hindex : ChunkIndex.new readonlyPages writablePages loader.proposedSizeBounds heap =
      .ok (heapIndex, heap')) {e : Exn}
    (hthrown : e.IsThrown)
    (hdefect : v.loadAndCheck loader ⟨heapIndex, heap', v.appIndex, verify⟩ = .error e) :
    v.conditionalValidate loader verify preparedPages execute =
      (.ok false, [loader.writablePageList]) ↔
      v.FirstDefectInvalid loader ⟨heapIndex, heap', v.appIndex, verify⟩ := by
  rw [← loadAndCheck_blockError_iff hwf hthrown hdefect]
  have hvalidate : v.validate loader verify preparedPages execute = .error e := by
    unfold validate
    rw [hpages]
    change (ChunkIndex.new readonlyPages writablePages loader.proposedSizeBounds heap >>= _) = _
    rw [hindex]
    change (v.loadAndCheck loader ⟨heapIndex, heap', v.appIndex, verify⟩ >>= _) = _
    rw [hdefect]
    rfl
  unfold conditionalValidate
  rw [hvalidate]
  cases e with
  | blockError message => exact iff_of_true rfl trivial
  | _ => exact iff_of_false nofun not_false

/-! A block of one chunk with 4 bytes. -/

/-- The requests that access the 4 bytes at an offset, without edges. -/
def oneChunkLoader (offset : Int) (accessType : Access) (numOfRequests : Nat) : BlockLoader :=
  { createRequestStreams := fun _ => [(List.range numOfRequests).map fun id =>
      { id, memoryAccessMap :=
          .single 0 (.single (toLex (0, 0)) ⟨[-3, offset],
            [⟨0, .check_only, id⟩, ⟨4, accessType, id⟩], rfl⟩) }]
    numOfRequests }

/-- What the page cache prepares for the block. -/
def oneChunkPages (writable : Bool) : List Page × List Page × Heap :=
  let page : Page := { id := toLex (0, toLex (0, 0)) }
  let heap : Heap := fun _ => { content := [1, 2, 3, 4], chunkSize := 4 }
  if writable then ([], [page], heap) else ([page], [], heap)

theorem reads_oneChunk (offset : Int) (accessType : Access) (numOfRequests : Nat) :
    reads { workersCount := 1 } (oneChunkLoader offset accessType numOfRequests) =
      (List.range numOfRequests).map fun id =>
      { id, memoryAccessMap :=
          .single 0 (.single (toLex (0, 0)) ⟨[-3, offset],
            [⟨0, .check_only, id⟩, ⟨4, accessType, id⟩], rfl⟩) } := by
  have hcalls : RequestProcessor.taskCalls 1 1 = [0] := by decide +kernel
  change (RequestProcessor.taskCalls 1 1).flatMap _ = _
  rw [hcalls, List.flatMap_cons, List.flatMap_nil, List.append_nil]
  rfl

theorem wellFormed_oneChunk {offset : Int} (hoffset : -3 < offset) (accessType : Access)
    (numOfRequests : Nat) :
    WellFormed { workersCount := 1 } (oneChunkLoader offset accessType numOfRequests) := by
  constructor
  · intro r hr
    rw [reads_oneChunk] at hr
    obtain ⟨id, hid, rfl⟩ := List.mem_map.mp hr
    exact List.mem_range.mp hid
  · intro r hr
    rw [reads_oneChunk] at hr
    obtain ⟨id, -, rfl⟩ := List.mem_map.mp hr
    refine ⟨List.pairwise_singleton _ _, fun app happ => ?_, fun app happ chunk hchunk => ?_⟩
    · obtain rfl := List.mem_singleton.mp happ
      exact List.pairwise_singleton _ _
    · obtain rfl := List.mem_singleton.mp happ
      obtain rfl := List.mem_singleton.mp hchunk
      exact List.pairwise_pair.mpr (.inl hoffset)

/-- The exception of a computation. -/
def thrownBy {α : Type} : Except Exn α → Option Exn
  | .ok _ => none
  | .error e => some e

theorem thrownBy_eq_some {α : Type} {r : Except Exn α} {e : Exn} (h : thrownBy r = some e) :
    r = .error e := by
  cases r with
  | ok a => cases h
  | error e' => exact congrArg Except.error (Option.some.inj h)

/-- A write to a read-only chunk. -/
theorem conditionalValidate_rejects_readonly : ∃ heapIndex heap,
    conditionalValidate { workersCount := 1 } (oneChunkLoader 0 .writable 1) (fun _ _ _ => false)
      (.ok (oneChunkPages false))
        (fun _ _ => .ok true) = (.ok false, [[]]) ↔
      FirstDefectInvalid { workersCount := 1 } (oneChunkLoader 0 .writable 1)
        ⟨heapIndex, heap, {}, fun _ _ _ => false⟩ :=
  ⟨_, _, conditionalValidate_rejects_iff (wellFormed_oneChunk (by decide) .writable 1) _ rfl rfl
    (e := .blockError "trying to modify a readonly chunk") trivial
      (thrownBy_eq_some (by decide +kernel))⟩

/-- A read of 4 bytes from the second one on leaves as `out_of_range`, and two writers without an
edge as `invalid_argument`. -/
theorem conditionalValidate_lets_escape :
    (WellFormed { workersCount := 1 } (oneChunkLoader 1 .read_only 1) ∧
      conditionalValidate { workersCount := 1 } (oneChunkLoader 1 .read_only 1) (fun _ _ _ => false)
        (.ok (oneChunkPages false))
        (fun _ _ => .ok true) = (.error (.outOfRange "out of allocated memory range"), [])) ∧
    WellFormed { workersCount := 1 } (oneChunkLoader 0 .writable 2) ∧
      conditionalValidate { workersCount := 1 } (oneChunkLoader 0 .writable 2) (fun _ _ _ => false)
        (.ok (oneChunkPages true))
        (fun _ _ => .ok true) =
        (.error (.invalidArgument "missing edge:\x7b0,1\x7d in the dependency graph"), []) :=
  ⟨⟨wellFormed_oneChunk (by decide) .read_only 1, by decide +kernel⟩,
    wellFormed_oneChunk (by decide) .writable 2, by decide +kernel⟩

end BlockValidator
end Argennon
