import Argennon.Executor.RunProgram
import Argennon.Validator.BlockDefects
import Argennon.Validator.Serializability

/- What the check of the dependency graph gives for the execution of the block.

   A chunk that is checked has its blocks from all requests, so a graph that passes joins every two
   requests whose blocks collide (`collisionsOrdered_of_verified`), but for chunks that no worker
   checks and for pairs that a split loses. A block that is verified is executed in parallel as it
   is executed serially (`parallelExecuteRequests_serializable`), and the serial execution decides
   whether it is accepted (`parallelExecuteRequests_verdict`). -/
namespace Argennon

open ForwardGraph RequestScheduler RequestProcessor ChunkIndex OrderedStaticMap

/-! ## A chunk -/

/-- All blocks that are declared for a chunk. -/
def blocksAt (rawAccessMaps : List AccessMapType) (id : FullID) : List PlacedBlock :=
  rawAccessMaps.flatMap fun m => (chunkEntries m).flatMap fun e => if e.1 =
    id then e.2.map asPlaced else []

section
variable {rawAccessMaps : List AccessMapType} {m : AccessMapType} {index : ChunkIndex} {dag : Dag}

theorem mem_blocksAt {id : FullID} {b : PlacedBlock} : b ∈ blocksAt rawAccessMaps id ↔
    ∃ m ∈ rawAccessMaps, ∃ e ∈ chunkEntries m, e.1 = id ∧ ∃ d ∈ e.2, asPlaced d = b := by
  simp only [blocksAt, List.mem_flatMap]
  refine exists_congr fun m => and_congr_right fun _ => exists_congr fun e =>
    and_congr_right fun _ => ?_
  split
  · rename_i hid
    rw [List.mem_map]
    exact (and_iff_right hid).symm
  · rename_i hid
    exact iff_of_false List.not_mem_nil fun h => hid h.1

/-- The split of a block loses a pair by the blocks alone. -/
theorem SplitLoss.mono {blocks blocks' : List PlacedBlock} (h : ∀ b ∈ blocks, b ∈ blocks')
    {u v : Nat} (hloss : SplitLoss blocks u v) :
    SplitLoss blocks' u v := by
  obtain ⟨a, ha, b, hb, c, hc, z, hz, hrest⟩ := hloss
  exact ⟨a, h a ha, b, h b hb, c, h c hc, z, h z hz, hrest⟩

/-- Two blocks of an accepted list that collide. -/
theorem path_of_pairCollides {getSizeLowerBound : Except Exn Int} {blocks : List PlacedBlock}
    (hf : Forward dag.Edge)
    (hwf : WellFormedBlocks blocks) (hshrink : ∀ lowerBound, getSizeLowerBound = .ok lowerBound →
      ∀ w ∈ blocks, w.offset = -1 → w.info.size ≤ 0 → lowerBound ≤ -w.info.size)
    (hloss : ∀ u v, u < v → SplitLoss blocks u v ∨ SplitLoss blocks v u → Path dag.Edge u v)
    (hok : checkCollisions dag getSizeLowerBound blocks = .ok ()) {a b : PlacedBlock}
    (ha : a ∈ blocks) (hb : b ∈ blocks)
    (hlt : a.info.requestID < b.info.requestID) (hcol : PairCollides getSizeLowerBound a b) :
    Path dag.Edge a.info.requestID b.info.requestID := by
  obtain ⟨_, hresizing, hcliques⟩ := bind_ok.mp hok
  have hlinkedLoss : ∀ u v, SplitLoss blocks u v → Linked dag.Edge u v := by
    intro u v hs
    obtain huv | rfl | huv := Nat.lt_trichotomy u v
    · exact .inr (.inl (hloss u v huv (.inl hs)))
    · exact .inl rfl
    · exact .inr (.inr (hloss v u huv (.inr hs)))
  have hne : a ≠ b := by
    rintro rfl
    exact lt_irrefl _ hlt
  have hlinked : Linked dag.Edge a.info.requestID b.info.requestID := by
    obtain hc | hc | hc | hc | hc := hcol
    · exact linked_of_collision hf hwf hlinkedLoss hcliques ha hb hne (.inl hc)
    · exact linked_of_collision hf hwf hlinkedLoss hcliques ha hb hne (.inr (.inl hc))
    · exact linked_of_collision hf hwf hlinkedLoss hcliques ha hb hne (.inr (.inr hc))
    · exact linked_of_resizing hf hwf hshrink hresizing ha hb hlt.ne' hc
    · exact (linked_of_resizing hf hwf hshrink hresizing hb ha hlt.ne hc).symm
  exact hlinked.path hf hlt

/-! ## All chunks -/

/-- A chunk of a request has a place in the merged map, with all its blocks. -/
theorem exists_chunkAt (hmerge : MergeOf rawAccessMaps m) {m' : AccessMapType}
    (hm' : m' ∈ rawAccessMaps)
    {e : FullID × List (Int × AccessBlockInfo)} (he : e ∈ chunkEntries m') :
    ∃ i chunks j blocks, m.values[i]? = some chunks ∧ j < chunks.size ∧
      chunkAt m i j = some (e.1, blocks) ∧
      ∀ b, b ∈ blocks ↔ b ∈ blocksAt rawAccessMaps e.1 := by
  obtain ⟨⟨appID, chunkMap⟩, happ, he⟩ := List.mem_flatMap.mp he
  obtain ⟨⟨localID, blockMap⟩, hchunk, rfl⟩ := List.mem_map.mp he
  have hkey : appID ∈ m.keys := (hmerge.apps appID).mpr ⟨m', hm', (List.of_mem_zip happ).1⟩
  obtain ⟨i, hi⟩ := List.mem_iff_getElem?.mp hkey
  obtain ⟨chunks, hchunks⟩ : ∃ chunks, m.values[i]? = some chunks := by
    have hlt := (List.getElem?_eq_some_iff.mp hi).1
    exact ⟨_, List.getElem?_eq_getElem (m.size_eq ▸ hlt)⟩
  have hentry : (appID, chunks) ∈ m.entries :=
    List.mem_of_getElem? (List.getElem?_zip_eq_some.mpr ⟨hi, hchunks⟩)
  have hkey' : localID ∈ chunks.keys :=
    (hmerge.chunks _ hentry localID).mpr ⟨m', hm', chunkMap, happ, (List.of_mem_zip hchunk).1⟩
  obtain ⟨j, hj⟩ := List.mem_iff_getElem?.mp hkey'
  have hjlt := (List.getElem?_eq_some_iff.mp hj).1
  obtain ⟨blocks, hblocks⟩ : ∃ blocks, chunks.values[j]? = some blocks :=
    ⟨_, List.getElem?_eq_getElem (chunks.size_eq ▸ hjlt)⟩
  have hentry' : (localID, blocks) ∈ chunks.entries :=
    List.mem_of_getElem? (List.getElem?_zip_eq_some.mpr ⟨hj, hblocks⟩)
  have hperm := hmerge.blocks _ hentry _ hentry'
  refine ⟨i, chunks, j, blocks.entries.map asPlaced, hchunks, hjlt, ?_, fun b => ?_⟩
  · unfold chunkAt
    rw [hi, hchunks]
    simp only [Option.bind_eq_bind, Option.bind_some, hj, hblocks]
    rfl
  · rw [mem_blocksAt, List.mem_map]
    simp only [hperm.mem_iff, RequestScheduler.declaredBlocks, List.mem_flatMap, mem_valuesAt]
    constructor
    · rintro ⟨d, ⟨blockMap', ⟨chunkMap', ⟨m'', hm'', happ'⟩, hchunk'⟩, hd⟩, rfl⟩
      exact ⟨m'', hm'', _, List.mem_flatMap.mpr ⟨_, happ', List.mem_map.mpr ⟨_, hchunk', rfl⟩⟩,
        rfl, d, hd, rfl⟩
    · rintro ⟨m'', hm'', e, he, hid, d, hd, rfl⟩
      obtain ⟨⟨appID', chunkMap'⟩, happ', he⟩ := List.mem_flatMap.mp he
      obtain ⟨⟨localID', blockMap'⟩, hchunk', rfl⟩ := List.mem_map.mp he
      obtain ⟨rfl, rfl⟩ := Prod.mk.inj (toLex.injective hid)
      exact ⟨d, ⟨blockMap', ⟨chunkMap', ⟨m'', hm'', happ'⟩, hchunk'⟩, hd⟩, rfl⟩

/-- Every chunk was checked, if the intervals of the workers reach up to their number. -/
theorem checkChunk_of_verified {workersCount : Nat} (hworkers : 0 < workersCount)
    (hm : sortAccessBlocks rawAccessMaps workersCount = .ok m)
    (hverified : verifyDependencyGraph index dag rawAccessMaps workersCount = .ok ()) {i j : Nat}
    {chunks : OrderedStaticMap LongLongID BlockMap} (hchunks : m.values[i]? = some chunks)
    (hcovers : RequestProcessor.Covers chunks.size workersCount) (hj : j < chunks.size) :
    checkChunk index dag m i j = .ok () := by
  unfold verifyDependencyGraph at hverified
  rw [hm] at hverified
  have hi : i < m.size := by
    have hlt := (List.getElem?_eq_some_iff.mp hchunks).1
    have hsize := m.size_eq
    unfold OrderedStaticMap.size
    omega
  have happ := forEach_ok.mp hverified i (List.mem_range.mpr hi)
  rw [hchunks] at happ
  obtain ⟨results, hrun, -⟩ := bind_ok.mp happ
  have hall := runTasks_ok_iff.mp hrun
  have hmem : j ∈ taskCalls chunks.size workersCount := by
    rw [← List.count_pos_iff, (taskCalls_exactlyOnce_iff hworkers).mpr hcovers j, if_pos hj]
    exact Nat.one_pos
  obtain ⟨u, -, hu⟩ := forall₂_mem_left (mapM_ok_iff.mp hall) hmem
  exact hu

/-- What the check of the graph relies on: the maps are well formed and truthful, the edges go to
larger ids, every chunk has a worker that checks it, and the pairs that a split loses are joined. -/
structure Checkable (requests : BlockRequests) (rawAccessMaps : List AccessMapType)
    (workersCount : Nat) : Prop where
  sorted : ∀ m ∈ rawAccessMaps, SortedMap m
  offsets : ∀ m ∈ rawAccessMaps, ∀ e ∈ chunkEntries m, ∀ b ∈ e.2, -3 ≤ b.1 ∧
    (b.1 = -2 → b.2.accessType = .read_only) ∧ (b.1 = -1 → b.2.accessType = .writable) ∧
    IsInt32 (b.1 + b.2.size)
  requestIDs : ∀ v < requests.length, ∀ e ∈ entriesAt rawAccessMaps v, ∀ b ∈ e.2, b.2.requestID = v
  forward : ∀ u, ∀ v ∈ requests.adj u, u < v
  covered : ∀ m, sortAccessBlocks rawAccessMaps workersCount = .ok m → ∀ chunks ∈ m.values,
    RequestProcessor.Covers chunks.size workersCount
  splits : ∀ id u v, u < v → SplitLoss (blocksAt rawAccessMaps id) u v ∨
    SplitLoss (blocksAt rawAccessMaps id) v u →
    Relation.TransGen requests.Edge u v

variable {requests : BlockRequests} {heap₀ : Heap} {program : AppRequest → Program}
  {finalized : RequestScheduler} {degree : Nat → Nat}

/-- The adjacency lists of the nodes are those of the requests. -/
theorem isAdjacent_iff (h : finalized.Loaded requests degree) (u v : Nat) :
    finalized.isAdjacent.Edge u v ↔ requests.Edge u v := by
  unfold Dag.Edge isAdjacent
  cases hr : requests[u]? with
  | some r =>
    rw [h.node u r hr, BlockRequests.Edge, adj_of_getElem? hr]
    exact List.contains_iff_mem
  | none =>
    have hout : requests.length ≤ u := List.getElem?_eq_none_iff.mp hr
    unfold nodeAt BlockRequests.Edge BlockRequests.adj
    rw [List.getElem?_eq_none (h.length ▸ hout), hr]
    exact iff_of_false (fun h => by cases h) List.not_mem_nil

/-- What is asked of the lists of the chunks that are checked. -/
structure Verifiable (index : ChunkIndex) (requests : BlockRequests)
    (rawAccessMaps : List AccessMapType) : Prop where
  offsets : ∀ m ∈ rawAccessMaps, ∀ e ∈ chunkEntries m, ∀ b ∈ e.2, -3 ≤ b.1 ∧
    (b.1 = -2 → b.2.accessType = .read_only) ∧ (b.1 = -1 → b.2.accessType = .writable) ∧
    IsInt32 (b.1 + b.2.size)
  requestIDs : ∀ v < requests.length, ∀ e ∈ entriesAt rawAccessMaps v, ∀ b ∈ e.2, b.2.requestID = v
  forward : ∀ u, ∀ v ∈ requests.adj u, u < v
  shrink : ∀ m ∈ rawAccessMaps, ∀ e ∈ chunkEntries m, ∀ b ∈ e.2, b.1 = -1 → b.2.size ≤ 0 →
    ∀ lower, index.getSizeLowerBound e.1 = .ok lower → lower ≤ -b.2.size
  splits : ∀ id u v, u < v → SplitLoss (blocksAt rawAccessMaps id) u v ∨
    SplitLoss (blocksAt rawAccessMaps id) v u →
    Relation.TransGen requests.Edge u v

/-- The map of a request is one of the block. -/
theorem exists_map_of_entriesAt {v : Nat} {e : FullID × List (Int × AccessBlockInfo)}
    (he : e ∈ entriesAt rawAccessMaps v) : ∃ m' ∈ rawAccessMaps, e ∈ chunkEntries m' := by
  unfold entriesAt at he
  cases hget : rawAccessMaps[v]? with
  | none =>
    rw [hget] at he
    cases he
  | some m' =>
    rw [hget] at he
    exact ⟨m', List.mem_of_getElem? hget, he⟩

/-- **What the check gives.** If every chunk has passed, the graph joins every two requests whose
blocks collide. -/
theorem collisionsOrdered_of_checked (h : Verifiable index requests rawAccessMaps)
    (hmerge : MergeOf rawAccessMaps m) (hloaded : finalized.Loaded requests degree)
    (hchecked : ∀ i chunks j, m.values[i]? = some chunks → j < chunks.size →
      checkChunk index finalized.isAdjacent m i j = .ok ()) :
    CollisionsOrdered index rawAccessMaps requests := by
  have hedge : finalized.isAdjacent.Edge = requests.Edge :=
    funext fun u => funext fun v => propext (isAdjacent_iff hloaded u v)
  intro u v hlt hv hcollide
  obtain ⟨e, he, e', he', hid, d, hd, d', hd', hcol⟩ := hcollide
  have hu : u < requests.length := hlt.trans hv
  obtain ⟨mu, hmu, hemu⟩ := exists_map_of_entriesAt he
  obtain ⟨mv, hmv, hemv⟩ := exists_map_of_entriesAt he'
  obtain ⟨i, chunks, j, blocks, hchunks, hj, hat, hblocks⟩ := exists_chunkAt hmerge hmu hemu
  have hok := hchecked i chunks j hchunks hj
  unfold checkChunk at hok
  rw [hat] at hok
  have ha : asPlaced d ∈ blocks :=
    (hblocks _).mpr (mem_blocksAt.mpr ⟨mu, hmu, e, hemu, rfl, d, hd, rfl⟩)
  have hb : asPlaced d' ∈ blocks :=
    (hblocks _).mpr (mem_blocksAt.mpr ⟨mv, hmv, e', hemv, hid, d', hd', rfl⟩)
  have hidu : (asPlaced d).info.requestID = u := h.requestIDs u hu e he d hd
  have hidv : (asPlaced d').info.requestID = v := h.requestIDs v hv e' he' d' hd'
  have hoffsets : ∀ b ∈ blocks, -3 ≤ b.offset ∧
      (b.offset = -2 → b.info.accessType = .read_only) ∧
      (b.offset = -1 → b.info.accessType = .writable) ∧ IsInt32 (b.offset + b.info.size) := by
    intro b hb
    obtain ⟨m', hm', e, he, -, d, hd, rfl⟩ := mem_blocksAt.mp ((hblocks b).mp hb)
    exact h.offsets m' hm' e he d hd
  have hshrink : ∀ lower, index.getSizeLowerBound e.1 = .ok lower → ∀ b ∈ blocks, b.offset = -1 →
      b.info.size ≤ 0 →
        lower ≤ -b.info.size := by
    intro lower hlower b hb hoff hsize
    obtain ⟨m', hm', e₁, he₁, hid₁, d₁, hd₁, rfl⟩ := mem_blocksAt.mp ((hblocks b).mp hb)
    exact h.shrink m' hm' e₁ he₁ d₁ hd₁ hoff hsize lower (hid₁ ▸ hlower)
  have hloss : ∀ u v, u < v → SplitLoss blocks u v ∨ SplitLoss blocks v u →
      Path finalized.isAdjacent.Edge u v := by
    intro u v huv hloss
    have hsub : ∀ b ∈ blocks, b ∈ blocksAt rawAccessMaps e.1 := fun b hb => (hblocks b).mp hb
    rw [hedge]
    exact h.splits e.1 u v huv (hloss.imp (SplitLoss.mono hsub) (SplitLoss.mono hsub))
  have hpath := path_of_pairCollides (hedge ▸ h.forward)
    ⟨chunkAt_sorted hmerge hat, fun b hb => (hoffsets b hb).1,
      fun b hb => (hoffsets b hb).2.1, fun b hb => (hoffsets b hb).2.2.1,
      fun b hb => (hoffsets b hb).2.2.2⟩
    hshrink hloss hok ha hb (by rw [hidu, hidv]; exact hlt) hcol
  rw [hidu, hidv, hedge] at hpath
  exact hpath

/-- The same for a graph that has passed `checkDependencyGraph`. -/
theorem collisionsOrdered_of_verified {workersCount : Nat} (hworkers : 0 < workersCount)
    (hblock : BlockPrepared index heap₀ requests rawAccessMaps program)
    (hcheckable : Checkable requests rawAccessMaps workersCount)
    (hloaded : finalized.Loaded requests degree)
    (hverified : verifyDependencyGraph index finalized.isAdjacent rawAccessMaps workersCount =
      .ok ()) :
    CollisionsOrdered index rawAccessMaps requests := by
  obtain ⟨m, hm, hlevels⟩ := sortAccessBlocks_levels hcheckable.sorted workersCount
  have hverifiable : Verifiable index requests rawAccessMaps :=
    ⟨hcheckable.offsets, hcheckable.requestIDs, hcheckable.forward, hblock.shrink,
      hcheckable.splits⟩
  refine collisionsOrdered_of_checked hverifiable hlevels.mergeOf hloaded
    fun i chunks j hchunks hj => ?_
  exact checkChunk_of_verified hworkers hm hverified hchunks
    (hcheckable.covered m hm chunks (List.mem_of_getElem? hchunks)) hj

/-! ## The serial execution -/

namespace RequestProcessor

/-- `serialExecuteRequests`: the status codes of the responses, and the heap at the end. What an
application calls depends on what it loads: `run` gives it for every heap. -/
def serialExecuteRequests (run : AppRequest → Heap → Run) (heap : Heap) :
    List AppRequest → Except Exn (List Int × Heap)
  | [] => .ok ([], heap)
  | req :: rest =>
    match executeOne heap req (run req heap) with
    | .error e => .error e
    | .ok (statusCode, heap) =>
      (serialExecuteRequests run heap rest).map fun r => (statusCode :: r.1, r.2)

end RequestProcessor

section
variable {run : AppRequest → Heap → Run}

/-- The programs do what the applications do. -/
theorem serialExecuteRequests_eq : ∀ {requests : BlockRequests} (heap : Heap),
    (∀ r ∈ requests, ∀ heap, (program r.1).Represents heap r.1 (run r.1 heap)) →
      serialExecuteRequests run heap (requests.map Prod.fst) =
        PreparedRequests.serialExecute heap (requests.prepared program)
  | [], _, _ => rfl
  | r :: rest, heap, h => by
    rw [List.map_cons, serialExecuteRequests,
      executeOne_eq_executeProgram (h r List.mem_cons_self heap)]
    have hprepared : BlockRequests.prepared (r :: rest) program = ⟨program r.1, r.1.modifier⟩ ::
        BlockRequests.prepared rest program := rfl
    rw [hprepared, PreparedRequests.serialExecute]
    obtain ⟨e | statusCode, heap'⟩ := executeProgram heap r.1.modifier (program r.1)
    · rfl
    · exact congrArg (Except.map _) (serialExecuteRequests_eq heap' fun r' hr' =>
        h r' (List.mem_cons_of_mem _ hr'))

/-- The serial execution returns status codes that `submitResult` accepts, if it accepts the result
of every request. -/
theorem accepted_iff_serial (hids : SharedRun.TruthfulIDs requests)
    (h : ∀ r ∈ requests, ∀ heap, (program r.1).Represents heap r.1 (run r.1 heap)) :
    (∀ v < requests.length, Accepted requests (fun req =>
      (requests.prepared program).serialResult heap₀ req.id) v) ↔
      ∃ statusCodes heap, serialExecuteRequests run heap₀ (requests.map Prod.fst) =
        .ok (statusCodes, heap) ∧
        ∀ (v : Nat) r statusCode, requests[v]? = some r → statusCodes[v]? = some statusCode →
          ¬(400 < statusCode ∧ r.1.attachments ≠ []) := by
  have hlength : (requests.prepared program).length = requests.length := List.length_map _
  rw [serialExecuteRequests_eq heap₀ h]
  constructor
  · intro hall
    have hcode : ∀ v < requests.length, ∃ r statusCode, requests[v]? = some r ∧
        (requests.prepared program).serialResult heap₀ v = .ok statusCode ∧
          ¬(400 < statusCode ∧ r.1.attachments ≠ []) := by
      intro v hv
      obtain ⟨r, statusCode, hr, hexec, hfee⟩ := hall v hv
      exact ⟨r, statusCode, hr, hids v r hr ▸ hexec, hfee⟩
    refine ⟨(List.range requests.length).map fun v =>
      ((requests.prepared program).serialResult heap₀ v).toOption.getD 0, _,
      PreparedRequests.serialExecute_eq_ok_iff.mpr ⟨?_, rfl⟩, fun v r statusCode hr hstatus => ?_⟩
    · rw [hlength, List.map_map]
      refine List.map_congr_left fun v hv => ?_
      obtain ⟨r, statusCode, -, hserial, -⟩ := hcode v (List.mem_range.mp hv)
      simp only [Function.comp_apply, hserial]
      rfl
    · have hv := (List.getElem?_eq_some_iff.mp hr).1
      obtain ⟨r', statusCode', hr', hserial, hfee⟩ := hcode v hv
      obtain rfl := Option.some.inj (hr.symm.trans hr')
      rw [List.getElem?_map, List.getElem?_range hv] at hstatus
      simp only [Option.map_some, hserial] at hstatus
      exact Option.some.inj hstatus ▸ hfee
  · rintro ⟨statusCodes, heap, hserial, hfees⟩ v hv
    obtain ⟨hcodes, -⟩ := PreparedRequests.serialExecute_eq_ok_iff.mp hserial
    obtain ⟨r, hr⟩ : ∃ r, requests[v]? = some r := ⟨_, List.getElem?_eq_getElem hv⟩
    have hat := congrArg (fun l => l[v]?) hcodes
    simp only [List.getElem?_map, hlength, List.getElem?_range hv, Option.map_some] at hat
    obtain ⟨statusCode, hstatus, hresult⟩ := Option.map_eq_some_iff.mp hat
    have hexec : (requests.prepared program).serialResult heap₀ r.1.id = .ok statusCode := by
      rw [hids v r hr]
      exact hresult.symm
    exact ⟨r, statusCode, hr, hexec, hfees v r statusCode hr hstatus⟩

end

/-! ## The execution of a verified block -/

section
variable {readonlyPages writablePages : List Page}
  {chunkBounds : OrderedStaticMap FullID ChunkBoundsInfo} {heap : Heap}
  {ids : List Nat} {built : RequestScheduler} {workersCount : Nat} {run : AppRequest → Heap → Run}
  (hnew : new readonlyPages writablePages chunkBounds heap = .ok (index, heap₀))
  (hblock : BlockPrepared index heap₀ requests rawAccessMaps program) (hwf : requests.WellFormed)
  (hrepresents : ∀ r ∈ requests, ∀ heap, (program r.1).Represents heap r.1 (run r.1 heap))
  (hcheckable : Checkable requests rawAccessMaps workersCount) (hworkers : 0 < workersCount)
  (hids : ids.Perm (List.range requests.length))
  (hfinalized : (loaded requests).finalizeRequests ids = .ok finalized)
  (hverified : verifyDependencyGraph index finalized.isAdjacent rawAccessMaps workersCount = .ok ())
  (hbuilt : finalized.buildExecDag = .ok built)
include hnew hblock hwf hrepresents hcheckable hworkers hids hfinalized hverified hbuilt

/-- **Serializability.** The graph of the block has passed the check. Whatever the order of the
steps of the workers, a request that has ended has ended as in the serial execution. If the parallel
execution returns, the serial one returns the same responses, and leaves the same heap. -/
theorem parallelExecuteRequests_serializable {s : SharedRun}
    (hrun : SharedRun.Reaches (.start built workersCount (requests.prepared program) heap₀) s) :
    (∀ (v : Nat) r, requests[v]? = some r → ∀ result, s.shared.2 v = .ended result →
        result = (executeOne ((requests.prepared program).serialHeap heap₀ v) r.1
          (run r.1 ((requests.prepared program).serialHeap heap₀ v))).map Prod.fst) ∧
      ∀ responses, s.block.Finished → s.block.result = .ok responses →
        ∃ statusCodes, responses = statusCodes.map some ∧
        serialExecuteRequests run heap₀ (requests.map Prod.fst) =
          .ok (statusCodes, s.shared.1) := by
  obtain ⟨finalized', hfinalized', hloaded⟩ := loaded_finalizes hwf hids
  obtain rfl := Except.ok.inj (hfinalized.symm.trans hfinalized')
  have hordered := collisionsOrdered_of_verified hworkers hblock hcheckable hloaded hverified
  obtain ⟨hended, hreturned⟩ :=
    serializable_of_ordered hnew hblock hwf hordered hids hfinalized hbuilt hworkers hrun
  rw [serialExecuteRequests_eq heap₀ hrepresents]
  refine ⟨fun v r hr result hresult => ?_, hreturned⟩
  rw [hended v (List.getElem?_eq_some_iff.mp hr).1 result hresult]
  have hat : (requests.prepared program).requestAt v = ⟨program r.1, r.1.modifier⟩ := by
    unfold BlockRequests.prepared PreparedRequests.requestAt
    rw [List.getD_eq_getElem?_getD, List.getElem?_map, hr]
    rfl
  unfold PreparedRequests.serialResult
  rw [hat, executeOne_eq_executeProgram (hrepresents r (List.mem_of_getElem? hr) _)]
  obtain ⟨_ | _, _⟩ := executeProgram ((requests.prepared program).serialHeap heap₀ v) r.1.modifier
    (program r.1) <;> rfl

/-- **The verdict.** Every run comes to a state in which no worker can make a step, and whether it
has returned there does not depend on the order of the steps: it is decided by the graph and by the
serial execution, which must return status codes that `submitResult` accepts. -/
theorem parallelExecuteRequests_verdict :
    (∀ run : Nat → SharedRun, run 0 = .start built workersCount (requests.prepared program) heap₀ →
        ∃ m, ¬ SharedRun.Step (run m) (run (m + 1))) ∧
      ∀ s, SharedRun.Reaches (.start built workersCount (requests.prepared program) heap₀) s →
        s.Halted →
        ((s.block.Finished ∧ ∃ responses, s.block.result = .ok responses) ↔
          requests.Executable ∧ ∃ statusCodes heap,
            serialExecuteRequests run heap₀ (requests.map Prod.fst) = .ok (statusCodes, heap) ∧
            ∀ (v : Nat) r statusCode, requests[v]? = some r → statusCodes[v]? = some statusCode →
              ¬(400 < statusCode ∧ r.1.attachments ≠ [])) := by
  obtain ⟨finalized', hfinalized', hloaded⟩ := loaded_finalizes hwf hids
  obtain rfl := Except.ok.inj (hfinalized.symm.trans hfinalized')
  have hordered := collisionsOrdered_of_verified hworkers hblock hcheckable hloaded hverified
  obtain ⟨hends, hverdict⟩ :=
    verdict_of_ordered hnew hblock hwf hordered hids hfinalized hbuilt hworkers
  refine ⟨hends, fun s hrun hhalted => ?_⟩
  rw [hverdict s hrun hhalted, accepted_iff_serial hblock.ids hrepresents]

end

end

/-! ## A block of three requests

Two requests add 5 to an integer of 8 bytes, in any order, and one loads it when they have ended and
stores the next integer. -/

/-- The chunk of the integer. -/
def tallyID : FullID := toLex (1, toLex (0, 0))

theorem tally_upper_le :
    ∀ e ∈ (OrderedStaticMap.empty : OrderedStaticMap FullID ChunkBoundsInfo).entries,
    toUInt32 e.2.sizeUpperBound ≤ maxAllowedCapacity :=
  fun _ h => absurd h List.not_mem_nil

/-- The index of a block that loads the page of the chunk for writing. -/
def tallyIndex : ChunkIndex := ⟨[tallyID], .empty, tally_upper_le⟩

/-- The heap with the chunk. -/
def tallyHeap : Heap := fun _ => { content := [0, 0, 0, 0, 0, 0, 0, 0], chunkSize := 8 }

/-- How a request accesses the integer. -/
def tallyAccess (id : Nat) : Access := if id = 2 then .writable else .int_additive

/-- The access map of a request. -/
def tallyMap (id : Nat) : AccessMapType :=
  .single 1 (.single (toLex (0, 0)) ⟨[-3, 0], [⟨0, .check_only, id⟩, ⟨8, tallyAccess id, id⟩], rfl⟩)

/-- The modifier of a request, with the block of the integer. -/
def tallyModifier (block : AccessBlock) : RestrictedModifier AccessBlock :=
  { appsAccessMaps := .single 1 (.single (toLex (0, 0))
      { accessTable := .single 0 block
        ptr := tallyID
        resizing := .non_accessible
        sizeBound := 0
        size := .unwritten 0 4 .read_only }) }

/-- A request, with its modifier. -/
def tallyRequest (id : Nat) : AppRequest :=
  { plainRequest with id, modifier := tallyModifier (.unwritten 0 8 (tallyAccess id)) }

/-- The block: the third request waits for the others. -/
def tallyBlock : BlockRequests :=
  [(tallyRequest 0, [2]), (tallyRequest 1, [2]), (tallyRequest 2, [])]

/-- The integer that a request loads. -/
def tallyOf (heap : Heap) : Int := leNat (readAt (heap tallyID).content 0 8)

/-- What the application of a request does. -/
def tallyRun (req : AppRequest) (heap : Heap) : Run :=
  .lib (.load_local_chunk 0) (if req.id = 2
    then .lib (.load_int64 0) (.lib (.store_int64 0 (tallyOf heap + 1)) (.ending (.returned 200)))
    else .lib (.add_int64_to 0 5) (.ending (.returned 200)))

/-- The end of a program. -/
def tallyReturn : Program :=
  .step (.loadContext 0) fun _ => .step (.loadContext 0) fun _ => .ending (.ok 200)

/-- The bytes of the next integer, if the integer was loaded. -/
def nextTally : Except Exn Value → List Byte
  | .ok (.bytes content) => leBytes 8 (LibCall.bits 8 (leNat content + 1))
  | _ => []

/-- The same, as a program, which learns the integer from its modifier. -/
def tallyProgram (req : AppRequest) : Program :=
  .step .saveVersion fun _ => .step (.loadContext 1) fun _ => .step (.loadChunk 0 0) fun _ =>
    if req.id = 2
    then .step (.access (.load 0 0 8)) fun r =>
      .step (.access (.store 0 0 (nextTally r))) fun _ => tallyReturn
    else .step (.access (.addInt 0 8 5)) fun _ => tallyReturn

theorem tally_represents :
    ∀ r ∈ tallyBlock, ∀ heap, (tallyProgram r.1).Represents heap r.1 (tallyRun r.1 heap) := by
  intro r hr heap
  obtain rfl | hr := List.mem_cons.mp hr
  · with_unfolding_all rfl
  obtain rfl | hr := List.mem_cons.mp hr
  · with_unfolding_all rfl
  obtain rfl := List.mem_singleton.mp hr
  -- the block shows the bytes of the chunk
  have hload : readAt (readAt (heap tallyID).content 0 8) 0 8 = readAt (heap tallyID).content 0 8 :=
    readAt_self (readAt_length _ _ _)
  have htally : tallyOf heap = leNat (readAt (readAt (heap tallyID).content 0 8) 0 8) := by
    rw [hload]
    rfl
  unfold tallyRun
  rw [htally]
  with_unfolding_all rfl

theorem tally_discreet : ∀ r ∈ tallyBlock, (tallyProgram r.1).Discreet r.1.modifier := by
  intro r hr
  have hreturn : ∀ m, tallyReturn.Discreet m :=
    fun _ => ⟨trivial, fun _ => ⟨trivial, fun _ => trivial⟩⟩
  refine ⟨trivial, fun _ => ⟨trivial, fun _ => ⟨trivial, fun _ => ?_⟩⟩⟩
  split
  · exact ⟨fun _ _ => trivial, fun _ => ⟨fun _ _ => trivial, fun _ => hreturn _⟩⟩
  · exact ⟨fun _ _ => trivial, fun _ => hreturn _⟩

/-- The access maps of the block. -/
def tallyMaps : List AccessMapType := [tallyMap 0, tallyMap 1, tallyMap 2]

theorem tally_new : new [] [⟨tallyID, []⟩] .empty tallyHeap =
    .ok (tallyIndex, Function.update tallyHeap tallyID (tallyHeap tallyID)) := rfl

theorem chunkEntries_tallyMap (id : Nat) :
    chunkEntries (tallyMap id) =
      [(tallyID, [(-3, ⟨0, .check_only, id⟩), (0, ⟨8, tallyAccess id, id⟩)])] := rfl

theorem mem_tallyMaps {m : AccessMapType} (h : m ∈ tallyMaps) : ∃ id < 3, m = tallyMap id := by
  obtain rfl | h := List.mem_cons.mp h
  · exact ⟨0, by decide, rfl⟩
  obtain rfl | h := List.mem_cons.mp h
  · exact ⟨1, by decide, rfl⟩
  exact ⟨2, by decide, List.mem_singleton.mp h⟩

/-- The blocks of a map of the block. -/
theorem mem_tally_blocks {m : AccessMapType} (h : m ∈ tallyMaps)
    {e : FullID × List (Int × AccessBlockInfo)} (he : e ∈ chunkEntries m)
    {b : Int × AccessBlockInfo} (hb : b ∈ e.2) :
    ∃ id < 3, b = (-3, ⟨0, .check_only, id⟩) ∨ b = (0, ⟨8, tallyAccess id, id⟩) := by
  obtain ⟨id, hid, rfl⟩ := mem_tallyMaps h
  rw [chunkEntries_tallyMap] at he
  obtain rfl := List.mem_singleton.mp he
  exact ⟨id, hid, List.mem_pair.mp hb⟩

theorem tally_truthful : SharedRun.TruthfulIDs tallyBlock := by
  intro v r hr
  rcases v with _ | _ | _ | v
  · obtain rfl := Option.some.inj hr
    rfl
  · obtain rfl := Option.some.inj hr
    rfl
  · obtain rfl := Option.some.inj hr
    rfl
  · cases hr

theorem tally_prepared :
    BlockPrepared tallyIndex (Function.update tallyHeap tallyID (tallyHeap tallyID)) tallyBlock
      tallyMaps tallyProgram where
  built := .cons rfl (.cons rfl (.cons rfl .nil))
  wellFormed m hm := by
    obtain ⟨id, -, rfl⟩ := mem_tallyMaps hm
    refine ⟨List.nodup_singleton _, fun e he => ?_⟩
    rw [chunkEntries_tallyMap] at he
    obtain rfl := List.mem_singleton.mp he
    have hoffset : (-3 : Int) < 0 := by decide
    have hneg : ¬ (0 : Int) ≤ -3 := by decide
    exact List.pairwise_pair.mpr ⟨hoffset, fun h => absurd h hneg⟩
  sizes m hm e he b hb := by
    obtain ⟨id, -, rfl | rfl⟩ := mem_tally_blocks hm he hb
    · exact (by decide : IsInt32 0)
    · exact (by decide : IsInt32 8)
  shrink m hm e he b hb hoffset := by
    obtain ⟨id, -, rfl | rfl⟩ := mem_tally_blocks hm he hb <;> cases hoffset
  discreet := tally_discreet
  ids := tally_truthful

theorem tally_adj (v : Nat) : tallyBlock.adj v = if v < 2 then [2] else [] := by
  rcases v with _ | _ | _ | v <;> rfl

theorem tally_edge {u v : Nat} (h : v ∈ tallyBlock.adj u) : u < 2 ∧ v = 2 := by
  rw [tally_adj] at h
  split at h
  · exact ⟨‹_›, List.mem_singleton.mp h⟩
  · cases h

theorem tally_wellFormed : tallyBlock.WellFormed := by
  refine ⟨fun v => ?_, fun v x hx => ?_⟩
  · rw [tally_adj]
    split <;> decide
  · rw [(tally_edge hx).2]
    decide

theorem tally_checkable : Checkable tallyBlock tallyMaps 2 where
  sorted m hm := by
    obtain ⟨id, -, rfl⟩ := mem_tallyMaps hm
    refine ⟨List.pairwise_singleton _ _, fun app happ => ?_, fun app happ chunk hchunk => ?_⟩
    · obtain rfl := List.mem_singleton.mp happ
      exact List.pairwise_singleton _ _
    · obtain rfl := List.mem_singleton.mp happ
      obtain rfl := List.mem_singleton.mp hchunk
      have hoffset : (-3 : Int) < 0 := by decide
      exact List.pairwise_pair.mpr (.inl hoffset)
  offsets m hm e he b hb := by
    obtain ⟨id, -, rfl | rfl⟩ := mem_tally_blocks hm he hb
    · exact ⟨(by decide : (-3 : Int) ≤ -3), fun h => (by cases h), fun h => (by cases h),
        (by decide : IsInt32 (-3 + 0))⟩
    · exact ⟨(by decide : (-3 : Int) ≤ 0), fun h => (by cases h), fun h => (by cases h),
        (by decide : IsInt32 (0 + 8))⟩
  requestIDs := by decide
  forward u v hv := by
    obtain ⟨hu, rfl⟩ := tally_edge hv
    exact hu
  covered m hm chunks hchunks := by
    have hsizes : (sortAccessBlocks tallyMaps 2).toOption.map (fun m =>
        m.values.map OrderedStaticMap.size) = some [1] := by decide +kernel
    rw [hm] at hsizes
    have hsize : chunks.size ∈ [1] := by
      rw [← Option.some.inj hsizes]
      exact List.mem_map_of_mem hchunks
    rw [List.mem_singleton.mp hsize]
    decide
  splits id u v _ hloss := by
    have hnone : ∀ u v, ¬ SplitLoss (blocksAt tallyMaps id) u v := by
      rintro u v ⟨a, -, b, -, c, -, z, hz, -, -, -, -, -, -, h0, h1, -, -, h2, -⟩
      obtain ⟨m, hm, e, he, -, d, hd, rfl⟩ := mem_blocksAt.mp hz
      have hz : (asPlaced d).offset ≤ 0 := by
        obtain ⟨_, -, rfl | rfl⟩ := mem_tally_blocks hm he hd
        · exact (by decide : (-3 : Int) ≤ 0)
        · exact Int.le_refl _
      omega
    exact absurd hloss (not_or.mpr ⟨hnone u v, hnone v u⟩)

/-- The scheduler with the graph. -/
def tallyScheduler : RequestScheduler :=
  ((loaded tallyBlock).finalizeRequests [0, 1, 2]).toOption.getD (loaded tallyBlock)

/-- The scheduler that the workers ask. -/
def tallyBuilt : RequestScheduler := tallyScheduler.buildExecDag.toOption.getD tallyScheduler

theorem tally_finalized : (loaded tallyBlock).finalizeRequests [0, 1, 2] = .ok tallyScheduler := by
  obtain ⟨finalized, h, -⟩ :=
    loaded_finalizes tally_wellFormed (List.Perm.refl (List.range tallyBlock.length))
  have hids : List.range tallyBlock.length = [0, 1, 2] := rfl
  rw [hids] at h
  unfold tallyScheduler
  rw [h]
  rfl

theorem tally_built : tallyScheduler.buildExecDag = .ok tallyBuilt :=
  eq_getD_of_isSome (by decide +kernel) _

theorem tally_verified :
    verifyDependencyGraph tallyIndex tallyScheduler.isAdjacent tallyMaps 2 = .ok () :=
  eq_getD_of_isSome (by decide +kernel) ()

/-- The state before the first step of the workers. -/
def tallyStart : SharedRun :=
  .start tallyBuilt 2 (tallyBlock.prepared tallyProgram)
    (Function.update tallyHeap tallyID (tallyHeap tallyID))

/-- The state that the workers come to by a schedule; who cannot make a step is passed over. -/
def SharedRun.follow (s : SharedRun) (schedule : List Nat) : SharedRun :=
  schedule.foldl (fun s i => (s.step i).getD s) s

theorem SharedRun.reaches_follow (schedule : List Nat) :
    ∀ s : SharedRun, s.Reaches (s.follow schedule) := by
  induction schedule with
  | nil => exact fun s => .refl
  | cons i schedule ih =>
    intro s
    refine Relation.ReflTransGen.trans ?_ (ih _)
    change s.Reaches ((s.step i).getD s)
    cases h : s.step i with
    | none => exact .refl
    | some t => exact .single ⟨i, h⟩

/-- The end of the run. -/
def tallyEnd : SharedRun := tallyStart.follow (List.replicate 60 [0, 1]).flatten

/-- The worker has left its loop without an exception. -/
def Worker.isReturned : Worker → Bool
  | returned => true
  | _ => false

namespace BlockRun
variable {s : BlockRun} {responses : List (Option Int)}

theorem returned_of_all (h : s.workers.all Worker.isReturned = true) :
    ∀ w ∈ s.workers, w = .returned := by
  intro w hw
  have hreturned := List.all_eq_true.mp h w hw
  cases w with
  | returned => rfl
  | _ => cases hreturned

theorem finished_of_all (h : s.workers.all Worker.isReturned = true) : s.Finished := by
  intro w hw
  rw [returned_of_all h w hw]
  exact trivial

theorem result_of_list (hfinished : s.Finished) (hresult : s.result.toOption.isSome)
    (hlist : s.responseList = responses) : s.result = .ok responses := by
  have heq := eq_getD_of_isSome hresult []
  rw [heq, ← hlist, ← (returned_of_result hfinished heq).2]

end BlockRun

theorem tallyEnd_all : tallyEnd.block.workers.all Worker.isReturned = true := by decide +kernel

theorem tallyEnd_finished : tallyEnd.block.Finished := BlockRun.finished_of_all tallyEnd_all

theorem tallyEnd_result : tallyEnd.block.result = .ok [some 200, some 200, some 200] :=
  BlockRun.result_of_list tallyEnd_finished (by decide +kernel) (by decide +kernel)

theorem tallyEnd_content : (tallyEnd.shared.1 tallyID).content = [11, 0, 0, 0, 0, 0, 0, 0] := by
  decide +kernel

theorem tallyEnd_halted : tallyEnd.Halted := by
  intro i
  have hblock : ∀ executeOne, tallyEnd.block.step executeOne i = none := by
    intro executeOne
    unfold BlockRun.step
    cases hw : tallyEnd.block.workers[i]? with
    | none => rfl
    | some w =>
      rw [BlockRun.returned_of_all tallyEnd_all w (List.mem_of_getElem? hw)]
      rfl
  unfold SharedRun.step
  cases hw : tallyEnd.block.workers[i]? with
  | none => exact congrArg (Option.map _) (hblock _)
  | some w =>
    rw [BlockRun.returned_of_all tallyEnd_all w (List.mem_of_getElem? hw)]
    exact congrArg (Option.map _) (hblock _)

theorem parallelExecuteRequests_serializable_tally :
    ∃ s, SharedRun.Reaches tallyStart s ∧ s.block.Finished ∧
    (s.shared.1 tallyID).content = [11, 0, 0, 0, 0, 0, 0, 0] ∧
    serialExecuteRequests tallyRun (Function.update tallyHeap tallyID (tallyHeap tallyID))
      (tallyBlock.map Prod.fst) =
      .ok ([200, 200, 200], s.shared.1) := by
  have hrun : SharedRun.Reaches tallyStart tallyEnd := SharedRun.reaches_follow _ _
  obtain ⟨-, h⟩ := parallelExecuteRequests_serializable tally_new tally_prepared tally_wellFormed
    tally_represents tally_checkable
    (by decide) (List.Perm.refl _) tally_finalized tally_verified tally_built hrun
  obtain ⟨statusCodes, hcodes, hserial⟩ := h _ tallyEnd_finished tallyEnd_result
  obtain rfl : [200, 200, 200] = statusCodes :=
    List.map_injective_iff.mpr (Option.some_injective _) hcodes
  exact ⟨tallyEnd, hrun, tallyEnd_finished, tallyEnd_content, hserial⟩

theorem parallelExecuteRequests_verdict_tally :
    (∀ run : Nat → SharedRun, run 0 = tallyStart → ∃ m, ¬ SharedRun.Step (run m) (run (m + 1))) ∧
      ∀ s, SharedRun.Reaches tallyStart s → s.Halted → s.block.Finished ∧
        ∃ responses, s.block.result = .ok responses := by
  obtain ⟨hends, hverdict⟩ :=
    parallelExecuteRequests_verdict tally_new tally_prepared tally_wellFormed tally_represents
      tally_checkable
    (by decide) (List.Perm.refl _) tally_finalized tally_verified tally_built
  have hserial := (hverdict tallyEnd (SharedRun.reaches_follow _ _) tallyEnd_halted).mp
    ⟨tallyEnd_finished, _, tallyEnd_result⟩
  exact ⟨hends, fun s hrun hhalted => (hverdict s hrun hhalted).mpr hserial⟩

end Argennon
