import Argennon.Validator.VerifiedOrder

/- Serializability of a block whose chunks have passed `checkCollisions`.

   The requests may run any program, which asks next what it likes by what it has read
   (`acceptedBlock_serializable`). The check leaves some collisions open. `RegularBlock` keeps clear
   of them; without it the parallel execution may give other responses
   (`acceptedBlock_diverges`). -/
namespace Argennon

open ForwardGraph RequestScheduler RequestProcessor ChunkIndex OrderedStaticMap

/-- A block that is accepted: the access maps are well formed and truthful, the modifiers were built
for them, the edges go to larger ids, and `checkCollisions` has returned on the merged list of every
chunk. -/
structure AcceptedBlock (index : ChunkIndex) (heap : Heap) (dag : Dag) (requests : BlockRequests)
    (rawAccessMaps : List AccessMapType) : Prop where
  built : List.Forall₂ (fun r rawAccessMap => index.buildModifier heap rawAccessMap =
    .ok r.1.modifier) requests rawAccessMaps
  sorted : ∀ m ∈ rawAccessMaps, SortedMap m
  apart : ∀ m ∈ rawAccessMaps, WellFormedAccess m
  sizeBlocks : ∀ m ∈ rawAccessMaps, ∀ e ∈ chunkEntries m,
    ∃ b, e.2.head? = some b ∧ -3 ≤ b.1 ∧ b.1 ≤ -1
  sizes : ∀ m ∈ rawAccessMaps, ∀ e ∈ chunkEntries m, ∀ b ∈ e.2, IsInt32 b.2.size
  ids : SharedRun.TruthfulIDs requests
  requestIDs : ∀ v < requests.length, ∀ e ∈ entriesAt rawAccessMaps v, ∀ b ∈ e.2,
    b.2.requestID = v
  forward : ∀ u, ∀ v ∈ requests.adj u, u < v
  checked : ∃ workersCount m, sortAccessBlocks rawAccessMaps workersCount = .ok m ∧
    ∀ i chunks j, m.values[i]? = some chunks → j < chunks.size →
      checkChunk index dag m i j = .ok ()

/-- What the check leaves open: ends that leave `int32`, size blocks of another type, pairs that a
split loses, shrinkages under the proposed bound, and programs that ask for the validity of nothing
or resize a chunk whose size they have not declared. -/
structure RegularBlock (index : ChunkIndex) (requests : BlockRequests)
    (rawAccessMaps : List AccessMapType) (program : AppRequest → Program) : Prop where
  offsets : ∀ m ∈ rawAccessMaps, ∀ e ∈ chunkEntries m, ∀ b ∈ e.2,
    (b.1 = -2 → b.2.accessType = .read_only) ∧ (b.1 = -1 → b.2.accessType = .writable) ∧
      IsInt32 (b.1 + b.2.size)
  splits : ∀ id u v, u < v →
    SplitLoss (blocksAt rawAccessMaps id) u v ∨ SplitLoss (blocksAt rawAccessMaps id) v u →
      Relation.TransGen requests.Edge u v
  shrink : ∀ m ∈ rawAccessMaps, ∀ e ∈ chunkEntries m, ∀ b ∈ e.2, b.1 = -1 → b.2.size ≤ 0 →
    ∀ lower, index.getSizeLowerBound e.1 = .ok lower → lower ≤ -b.2.size
  discreet : ∀ r ∈ requests, (program r.1).Discreet r.1.modifier

section
variable {rawAccessMaps : List AccessMapType} {index : ChunkIndex} {dag : Dag}
  {requests : BlockRequests} {heap₀ : Heap} {program : AppRequest → Program}

theorem AcceptedBlock.prepared (h : AcceptedBlock index heap₀ dag requests rawAccessMaps)
    (hregular : RegularBlock index requests rawAccessMaps program) :
    BlockPrepared index heap₀ requests rawAccessMaps program :=
  ⟨h.built, h.apart, h.sizes, hregular.shrink, hregular.discreet, h.ids⟩

/-- The first block has the lowest offset. -/
theorem AcceptedBlock.lowest (h : AcceptedBlock index heap₀ dag requests rawAccessMaps)
    {m : AccessMapType} (hm : m ∈ rawAccessMaps) {e : FullID × List (Int × AccessBlockInfo)}
    (he : e ∈ chunkEntries m) {b : Int × AccessBlockInfo} (hb : b ∈ e.2) : -3 ≤ b.1 := by
  obtain ⟨first, hfirst, hlow, -⟩ := h.sizeBlocks m hm e he
  have hapart := (h.apart m hm).apart e he
  obtain ⟨rest, hlist⟩ := List.head?_eq_some_iff.mp hfirst
  unfold BlocksApart at hapart
  rw [hlist] at hb hapart
  obtain rfl | hb := List.mem_cons.mp hb
  · exact hlow
  · have hlt := ((List.pairwise_cons.mp hapart).1 b hb).1
    omega

theorem AcceptedBlock.verifiable (h : AcceptedBlock index heap₀ dag requests rawAccessMaps)
    (hregular : RegularBlock index requests rawAccessMaps program) :
    Verifiable index requests rawAccessMaps where
  offsets m hm e he b hb := ⟨h.lowest hm he hb, hregular.offsets m hm e he b hb⟩
  requestIDs := h.requestIDs
  forward := h.forward
  shrink := hregular.shrink
  splits := hregular.splits

/-- The graph joins every two requests whose blocks collide. -/
theorem AcceptedBlock.ordered {finalized : RequestScheduler} {degree : Nat → Nat}
    (h : AcceptedBlock index heap₀ finalized.isAdjacent requests rawAccessMaps)
    (hregular : RegularBlock index requests rawAccessMaps program)
    (hloaded : finalized.Loaded requests degree) :
    CollisionsOrdered index rawAccessMaps requests := by
  obtain ⟨workersCount, m, hm, hchecked⟩ := h.checked
  obtain ⟨m', hm', hlevels⟩ := sortAccessBlocks_levels h.sorted workersCount
  obtain rfl := Except.ok.inj (hm'.symm.trans hm)
  exact collisionsOrdered_of_checked (h.verifiable hregular) hlevels.mergeOf hloaded hchecked

end

section
variable {readonlyPages writablePages : List Page}
  {chunkBounds : OrderedStaticMap FullID ChunkBoundsInfo} {heap heap₀ : Heap} {index : ChunkIndex}
  {requests : BlockRequests} {rawAccessMaps : List AccessMapType} {program : AppRequest → Program}
  {ids : List Nat} {finalized built : RequestScheduler} {workersCount : Nat}

/-- **Serializability of an accepted block.** Every run of the workers ends. In every state of a run
a request that has ended has ended as in the serial execution; if the parallel execution returns,
the serial one returns the same responses and leaves the same heap; and it returns if the graph can
be executed and the serial execution returns status codes that `submitResult` accepts. -/
theorem acceptedBlock_serializable
    (hnew : new readonlyPages writablePages chunkBounds heap = .ok (index, heap₀))
    (haccepted : AcceptedBlock index heap₀ finalized.isAdjacent requests rawAccessMaps)
    (hregular : RegularBlock index requests rawAccessMaps program) (hwf : requests.WellFormed)
    (hids : ids.Perm (List.range requests.length))
    (hfinalized : (loaded requests).finalizeRequests ids = .ok finalized)
    (hbuilt : finalized.buildExecDag = .ok built) (hworkers : 0 < workersCount) :
    (∀ run : Nat → SharedRun,
      run 0 = .start built workersCount (requests.prepared program) heap₀ →
        ∃ m, ¬ SharedRun.Step (run m) (run (m + 1))) ∧
      ∀ s, SharedRun.Reaches (.start built workersCount (requests.prepared program) heap₀) s →
        (∀ v < requests.length, ∀ result, s.shared.2 v = .ended result →
          result = (requests.prepared program).serialResult heap₀ v) ∧
        (∀ responses, s.block.Finished → s.block.result = .ok responses →
          ∃ statusCodes, responses = statusCodes.map some ∧
            PreparedRequests.serialExecute heap₀ (requests.prepared program) =
              .ok (statusCodes, s.shared.1)) ∧
        (s.Halted → requests.Executable →
          (∀ v < requests.length, Accepted requests (fun req =>
            (requests.prepared program).serialResult heap₀ req.id) v) →
          s.block.Finished ∧ ∃ responses, s.block.result = .ok responses) := by
  have hblock := haccepted.prepared hregular
  obtain ⟨finalized', hfinalized', hloaded⟩ := loaded_finalizes hwf hids
  obtain rfl := Except.ok.inj (hfinalized.symm.trans hfinalized')
  have hordered := haccepted.ordered hregular hloaded
  obtain ⟨hends, hverdict⟩ :=
    verdict_of_ordered hnew hblock hwf hordered hids hfinalized hbuilt hworkers
  refine ⟨hends, fun s hrun => ?_⟩
  obtain ⟨hended, hreturned⟩ :=
    serializable_of_ordered hnew hblock hwf hordered hids hfinalized hbuilt hworkers hrun
  exact ⟨hended, hreturned, fun hhalted hexecutable haccept =>
    (hverdict s hrun hhalted).mpr ⟨hexecutable, haccept⟩⟩

end

theorem tally_accepted :
    AcceptedBlock tallyIndex (Function.update tallyHeap tallyID (tallyHeap tallyID))
      tallyScheduler.isAdjacent tallyBlock tallyMaps where
  built := tally_prepared.built
  sorted := tally_checkable.sorted
  apart := tally_prepared.wellFormed
  sizeBlocks m hm e he := by
    obtain ⟨id, -, rfl⟩ := mem_tallyMaps hm
    rw [chunkEntries_tallyMap] at he
    obtain rfl := List.mem_singleton.mp he
    exact ⟨(-3, ⟨0, .check_only, id⟩), rfl, Int.le_refl _, (by decide : (-3 : Int) ≤ -1)⟩
  sizes := tally_prepared.sizes
  ids := tally_truthful
  requestIDs := tally_checkable.requestIDs
  forward := tally_checkable.forward
  checked := by
    obtain ⟨m, hm, -⟩ := sortAccessBlocks_levels tally_checkable.sorted 2
    refine ⟨2, m, hm, fun i chunks j hchunks hj => ?_⟩
    exact checkChunk_of_verified (by decide) hm tally_verified hchunks
      (tally_checkable.covered m hm chunks (List.mem_of_getElem? hchunks)) hj

theorem tally_regular : RegularBlock tallyIndex tallyBlock tallyMaps tallyProgram where
  offsets m hm e he b hb := (tally_checkable.offsets m hm e he b hb).2
  splits := tally_checkable.splits
  shrink := tally_prepared.shrink
  discreet := tally_discreet

/-- The three requests, of which the last one stores the next integer. -/
theorem acceptedBlock_serializable_tally : ∃ s, SharedRun.Reaches tallyStart s ∧
    (s.shared.1 tallyID).content = [11, 0, 0, 0, 0, 0, 0, 0] ∧
    PreparedRequests.serialExecute (Function.update tallyHeap tallyID (tallyHeap tallyID))
      (tallyBlock.prepared tallyProgram) = .ok ([200, 200, 200], s.shared.1) := by
  have hrun : SharedRun.Reaches tallyStart tallyEnd := SharedRun.reaches_follow _ _
  obtain ⟨-, h⟩ := acceptedBlock_serializable tally_new tally_accepted tally_regular
    tally_wellFormed (List.Perm.refl _) tally_finalized tally_built (by decide : 0 < 2)
  obtain ⟨statusCodes, hcodes, hserial⟩ := (h _ hrun).2.1 _ tallyEnd_finished tallyEnd_result
  obtain rfl : [200, 200, 200] = statusCodes :=
    List.map_injective_iff.mpr (Option.some_injective _) hcodes
  exact ⟨tallyEnd, hrun, tallyEnd_content, hserial⟩

/-! ## Two requests that the check does not join -/

def probeID : FullID := toLex (1, toLex (0, 0))

theorem probe_capacity_le : (List.replicate 8 (0 : Byte)).length ≤ maxAllowedCapacity := by decide

/-- Five bytes, with space for eight. -/
def probeHeap : Heap := fun _ =>
  { content := List.replicate 8 0, chunkSize := 5, capacity_le := probe_capacity_le }

def probeBounds : OrderedStaticMap FullID ChunkBoundsInfo :=
  ⟨[probeID], [{ sizeUpperBound := 8, sizeLowerBound := 4 }], rfl⟩

def probeIndex : ChunkIndex := ⟨[probeID], probeBounds, by decide⟩

def probeHeap₀ : Heap :=
  ((new [] [⟨probeID, []⟩] probeBounds probeHeap).toOption.map Prod.snd).getD probeHeap

/-- The first request may ask whether the fourth byte is there, and the second one cuts the chunk to
three, which is under the proposed bound. -/
def probeMap (id : Nat) : AccessMapType :=
  .single 1 (.single (toLex (0, 0))
    (if id = 0 then ⟨[-3, 3], [⟨0, .check_only, 0⟩, ⟨1, .writable, 0⟩], rfl⟩
    else ⟨[-1], [⟨-3, .writable, 1⟩], rfl⟩))

def probeRequest (id : Nat) : AppRequest :=
  { plainRequest with
    id
    modifier := ((probeIndex.buildModifier probeHeap₀ (probeMap id)).toOption).getD
      { appsAccessMaps := .empty } }

def probeBlock : BlockRequests := [(probeRequest 0, []), (probeRequest 1, [])]

/-- The response of the first request says what it was told. -/
def probeProgram (req : AppRequest) : Program :=
  .step .saveVersion fun _ => .step (.loadContext 1) fun _ => .step (.loadChunk 0 0) fun _ =>
    if req.id = 0 then
      .step (.access (.isValid 3 1)) fun r =>
        .ending (.ok (match r with | .ok (.bool true) => 200 | _ => 300))
    else .step (.access (.updateChunkSize 3)) fun _ => .ending (.ok 200)

def probeScheduler : RequestScheduler :=
  ((loaded probeBlock).finalizeRequests [0, 1]).toOption.getD (loaded probeBlock)

def probeBuilt : RequestScheduler := probeScheduler.buildExecDag.toOption.getD probeScheduler

def probeStart : SharedRun := .start probeBuilt 2 (probeBlock.prepared probeProgram) probeHeap₀

def probeEnd : SharedRun :=
  probeStart.follow ([0, 1] ++ List.replicate 30 1 ++ List.replicate 30 0 ++
    (List.replicate 10 [0, 1]).flatten)

def probeMaps : List AccessMapType := [probeMap 0, probeMap 1]

theorem probe_new : new [] [⟨probeID, []⟩] probeBounds probeHeap = .ok (probeIndex, probeHeap₀) :=
  rfl

theorem probe_built : ∀ id < 2,
    (probeIndex.buildModifier probeHeap₀ (probeMap id)).toOption.isSome := by decide +kernel

theorem probe_adj (v : Nat) : probeBlock.adj v = [] := by
  rcases v with _ | _ | v <;> rfl

theorem probe_wellFormed : probeBlock.WellFormed := by
  refine ⟨fun v => ?_, fun v x hx => ?_⟩
  · rw [probe_adj]
    exact List.nodup_nil
  · rw [probe_adj] at hx
    cases hx

theorem probe_finalized : (loaded probeBlock).finalizeRequests [0, 1] = .ok probeScheduler := by
  obtain ⟨finalized, h, -⟩ :=
    loaded_finalizes probe_wellFormed (List.Perm.refl (List.range probeBlock.length))
  have hids : List.range probeBlock.length = [0, 1] := rfl
  rw [hids] at h
  unfold probeScheduler
  rw [h]
  rfl

theorem probe_buildExecDag : probeScheduler.buildExecDag = .ok probeBuilt :=
  eq_getD_of_isSome (by decide +kernel) _

theorem mem_probeMaps {m : AccessMapType} (h : m ∈ probeMaps) : ∃ id < 2, m = probeMap id := by
  obtain rfl | h := List.mem_cons.mp h
  · exact ⟨0, by decide, rfl⟩
  · exact ⟨1, by decide, List.mem_singleton.mp h⟩

theorem probe_truthful : SharedRun.TruthfulIDs probeBlock := by
  intro v r hr
  rcases v with _ | _ | v
  · obtain rfl := Option.some.inj hr
    rfl
  · obtain rfl := Option.some.inj hr
    rfl
  · cases hr

theorem probe_checked : ∃ workersCount m, sortAccessBlocks probeMaps workersCount = .ok m ∧
    ∀ i chunks j, m.values[i]? = some chunks → j < chunks.size →
      checkChunk probeIndex probeScheduler.isAdjacent m i j = .ok () := by
  have hsorted : sortAccessBlocks probeMaps 2 =
      .ok ((sortAccessBlocks probeMaps 2).toOption.getD .empty) :=
    eq_getD_of_isSome (by decide +kernel) _
  have hsizes : ((sortAccessBlocks probeMaps 2).toOption.getD .empty).values.map
      OrderedStaticMap.size = [1] := by decide +kernel
  have hpassed : (checkChunk probeIndex probeScheduler.isAdjacent
      ((sortAccessBlocks probeMaps 2).toOption.getD .empty) 0 0).toOption.isSome := by
    decide +kernel
  refine ⟨2, _, hsorted, fun i chunks j hi hj => ?_⟩
  -- there is one chunk
  have hsize := congrArg (·[i]?) hsizes
  simp only [List.getElem?_map, hi, Option.map_some] at hsize
  obtain ⟨hlt, hone⟩ := List.getElem?_eq_some_iff.mp hsize.symm
  have hi0 : i = 0 := Nat.lt_one_iff.mp hlt
  subst hi0
  have hj0 : j = 0 := by
    have hone : 1 = chunks.size := hone
    omega
  rw [hj0]
  exact eq_getD_of_isSome hpassed ()

theorem chunkEntries_probeMap (id : Nat) : chunkEntries (probeMap id) =
    [(probeID, if id = 0 then [(-3, ⟨0, .check_only, 0⟩), (3, ⟨1, .writable, 0⟩)]
      else [(-1, ⟨-3, .writable, 1⟩)])] := by
  unfold probeMap
  split <;> rfl

theorem probe_accepted :
    AcceptedBlock probeIndex probeHeap₀ probeScheduler.isAdjacent probeBlock probeMaps where
  built := .cons (eq_getD_of_isSome (probe_built 0 (by decide)) { appsAccessMaps := .empty })
    (.cons (eq_getD_of_isSome (probe_built 1 (by decide)) { appsAccessMaps := .empty }) .nil)
  sorted m hm := by
    obtain ⟨id, hid, rfl⟩ := mem_probeMaps hm
    refine ⟨List.pairwise_singleton _ _, fun app happ => ?_, fun app happ chunk hchunk => ?_⟩
    · obtain rfl := List.mem_singleton.mp happ
      exact List.pairwise_singleton _ _
    · obtain rfl := List.mem_singleton.mp happ
      obtain rfl := List.mem_singleton.mp hchunk
      have hoffset : (-3 : Int) < 3 := by decide
      dsimp only
      split
      · exact List.pairwise_pair.mpr (.inl hoffset)
      · exact List.pairwise_singleton _ _
  apart m hm := by
    obtain ⟨id, hid, rfl⟩ := mem_probeMaps hm
    refine ⟨List.nodup_singleton _, fun e he => ?_⟩
    rw [chunkEntries_probeMap] at he
    obtain rfl := List.mem_singleton.mp he
    dsimp only
    split <;> decide
  sizeBlocks m hm e he := by
    obtain ⟨id, hid, rfl⟩ := mem_probeMaps hm
    rw [chunkEntries_probeMap] at he
    obtain rfl := List.mem_singleton.mp he
    dsimp only
    split
    · exact ⟨_, rfl, by decide, by decide⟩
    · exact ⟨_, rfl, by decide, by decide⟩
  sizes := by decide +kernel
  ids := probe_truthful
  requestIDs := by decide +kernel
  forward u v hv := by
    rw [probe_adj] at hv
    cases hv
  checked := probe_checked

theorem probeEnd_finished : probeEnd.block.Finished :=
  BlockRun.finished_of_all (by decide +kernel)

theorem probeEnd_result : probeEnd.block.result = .ok [some 300, some 200] :=
  BlockRun.result_of_list probeEnd_finished (by decide +kernel) (by decide +kernel)

/-- **The responses diverge.** The block is accepted. The serial execution tells the first request
that the byte is there; a run in which the second request comes first tells it that it is not. -/
theorem acceptedBlock_diverges :
    ∃ (index : ChunkIndex) (readonlyPages writablePages : List Page)
      (chunkBounds : OrderedStaticMap FullID ChunkBoundsInfo) (heap heap₀ : Heap)
      (requests : BlockRequests) (rawAccessMaps : List AccessMapType)
      (program : AppRequest → Program) (finalized built : RequestScheduler) (s : SharedRun),
      new readonlyPages writablePages chunkBounds heap = .ok (index, heap₀) ∧
      AcceptedBlock index heap₀ finalized.isAdjacent requests rawAccessMaps ∧
      requests.WellFormed ∧
      (loaded requests).finalizeRequests (List.range requests.length) = .ok finalized ∧
      finalized.buildExecDag = .ok built ∧
      SharedRun.Reaches (.start built 2 (requests.prepared program) heap₀) s ∧
      s.block.Finished ∧ s.block.result = .ok [some 300, some 200] ∧
      (PreparedRequests.serialExecute heap₀ (requests.prepared program)).map Prod.fst =
        .ok [200, 200] := by
  have hserial : (PreparedRequests.serialExecute probeHeap₀
      (probeBlock.prepared probeProgram)).map Prod.fst = .ok [200, 200] := by decide +kernel
  exact ⟨probeIndex, [], [⟨probeID, []⟩], probeBounds, probeHeap, probeHeap₀, probeBlock,
    probeMaps, probeProgram, probeScheduler, probeBuilt, probeEnd, probe_new, probe_accepted,
    probe_wellFormed, probe_finalized, probe_buildExecDag, SharedRun.reaches_follow _ _,
    probeEnd_finished, probeEnd_result, hserial⟩

end Argennon
