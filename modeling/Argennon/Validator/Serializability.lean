import Argennon.Validator.SharedRun

/- The parallel execution of a block gives what the serial execution gives.

   The requests of the block were prepared by `ChunkIndex::buildModifier`, and requests whose blocks
   collide are joined in the graph. Then in every run, whatever the order of the steps, a request
   ends as in the serial execution (`serializable_of_ordered`). Every run ends, and whether it ends
   well is decided by the serial execution (`verdict_of_ordered`). -/
namespace Argennon

open RestrictedModifier Interleaving RequestState ChunkIndex ChunkInfo

/-! ## Prepared blocks -/

/-- The requests of a block with the programs they run. -/
def BlockRequests.prepared (requests : BlockRequests) (program : AppRequest → Program) :
    PreparedRequests :=
  requests.map fun r => ⟨program r.1, r.1.modifier⟩

/-- The entries of the access map of a request. -/
def entriesAt (rawAccessMaps : List AccessMapType) (v : Nat) :
    List (FullID × List (Int × AccessBlockInfo)) :=
  (rawAccessMaps[v]?.map chunkEntries).getD []

/-- The requests declare blocks of one chunk that collide. -/
def RequestsCollide (index : ChunkIndex) (rawAccessMaps : List AccessMapType) (u v : Nat) : Prop :=
  ∃ e ∈ entriesAt rawAccessMaps u, ∃ e' ∈ entriesAt rawAccessMaps v, e'.1 = e.1 ∧
    BlocksCollide (index.getSizeLowerBound e.1) e.2 e'.2

/-- A block whose modifiers were built, from well-formed access maps that declare no shrinkage under
a proposed bound. The programs ask nothing that their access maps do not answer. -/
structure BlockPrepared (index : ChunkIndex) (heap : Heap) (requests : BlockRequests)
    (rawAccessMaps : List AccessMapType)
    (program : AppRequest → Program) : Prop where
  built : List.Forall₂ (fun r rawAccessMap => index.buildModifier heap rawAccessMap =
    .ok r.1.modifier) requests rawAccessMaps
  wellFormed : ∀ m ∈ rawAccessMaps, WellFormedAccess m
  sizes : ∀ m ∈ rawAccessMaps, ∀ e ∈ chunkEntries m, ∀ b ∈ e.2, IsInt32 b.2.size
  shrink : ∀ m ∈ rawAccessMaps, ∀ e ∈ chunkEntries m, ∀ b ∈ e.2, b.1 = -1 → b.2.size ≤ 0 →
    ∀ lower, index.getSizeLowerBound e.1 = .ok lower → lower ≤ -b.2.size
  discreet : ∀ r ∈ requests, (program r.1).Discreet r.1.modifier
  ids : SharedRun.TruthfulIDs requests

section
variable {index : ChunkIndex} {readonlyPages writablePages : List Page}
  {chunkBounds : OrderedStaticMap FullID ChunkBoundsInfo}
  {heap heap₀ : Heap} {requests : BlockRequests} {rawAccessMaps : List AccessMapType}
  {program : AppRequest → Program}

/-- A chunk that some request may resize. -/
def SomeResizes (index : ChunkIndex) (heap₀ : Heap) (rawAccessMaps : List AccessMapType)
    (id : FullID) : Prop :=
  ∃ m ∈ rawAccessMaps, ∃ e ∈ chunkEntries m, e.1 = id ∧ ∃ c₀, Built index heap₀ e c₀ ∧
    c₀.resizing.resizable

/-- The bound of a chunk that may be expanded is reserved. -/
theorem ChunkIndex.Built.reserved (hnew : new readonlyPages writablePages chunkBounds heap =
    .ok (index, heap₀))
    {e : FullID × List (Int × AccessBlockInfo)} {c₀ : ChunkInfo AccessBlock}
    (hb : Built index heap₀ e c₀)
    (hexp : c₀.resizing = .expandable) : c₀.sizeBound ≤ (heap₀ e.1).capacity := by
  obtain ⟨info, -, ⟨bounds, hat, hadm⟩, hbound, -⟩ := hb.resizable (by rw [hexp]; rfl)
  obtain ⟨v, hv, hmem⟩ | hv := index.sizeBoundsInfo.at_cases e.1
  · obtain rfl : bounds = v := Except.ok.inj (hat.symm.trans hv)
    have hcap := new_reserved hnew _ hmem
    have hup := toUInt32_nonneg bounds.upper_range ((abs_nonneg _).trans hadm.bound)
    have hle := hadm.bound
    simp only at hcap
    omega
  · rw [hat] at hv
    cases hv

theorem BlockPrepared.declared (h : BlockPrepared index heap₀ requests rawAccessMaps program)
    (hnew : new readonlyPages writablePages chunkBounds heap = .ok (index, heap₀))
    {m : AccessMapType} (hm : m ∈ rawAccessMaps)
    {modifier : RestrictedModifier AccessBlock}
    (hbuild : index.buildModifier heap₀ m = .ok modifier) :
    Prepared index heap₀ (SomeResizes index heap₀ rawAccessMaps) (chunkEntries m) modifier := by
  have hwf := h.wellFormed m hm
  refine ⟨List.forall₂_iff_get.mpr ⟨(buildModifier_built hbuild).length_eq, fun i h₁ h₂ => ?_⟩,
    hwf.distinct⟩
  have hb := (buildModifier_built hbuild).get h₁ h₂
  have he : (chunkEntries m).get ⟨i, h₁⟩ ∈ chunkEntries m := List.get_mem _ _
  refine ⟨hb, hb.placed (hwf.apart _ he), hb.sizesFit (h.sizes m hm _ he), hb.reserved hnew,
    fun hr => ⟨m, hm, _, he, rfl, _, hb, hr⟩, fun hr l hl => ?_⟩
  obtain ⟨info, hhead, -, hbound, ⟨hexp, -⟩ | ⟨-, hle⟩⟩ := hb.resizable (by rw [hr]; rfl)
  · rw [hexp] at hr
    cases hr
  · have hlower := h.shrink m hm _ he _ (List.mem_of_mem_head? hhead) rfl hle l hl
    simp only at hlower
    rw [abs_of_nonpos hle] at hbound
    omega

/-- The requests by their ids, with the entries of their maps. -/
theorem BlockPrepared.prepared (h : BlockPrepared index heap₀ requests rawAccessMaps program)
    (hnew : new readonlyPages writablePages chunkBounds heap = .ok (index, heap₀)) (v : Nat) :
    Prepared index heap₀ (SomeResizes index heap₀ rawAccessMaps) (entriesAt rawAccessMaps v)
      ((requests.prepared program).requestAt v).modifier := by
  unfold BlockRequests.prepared PreparedRequests.requestAt entriesAt
  rw [List.getD_eq_getElem?_getD, List.getElem?_map]
  obtain ⟨hnone, hnone'⟩ | ⟨r, m, hr, hm, hbuild⟩ := forall₂_getElem? h.built v
  · rw [hnone, hnone']
    exact ⟨.nil, List.nodup_nil⟩
  · rw [hr, hm]
    exact h.declared hnew (List.mem_of_getElem? hm) hbuild

theorem BlockPrepared.discreetAt (h : BlockPrepared index heap₀ requests rawAccessMaps program)
    (v : Nat) :
    ((requests.prepared program).requestAt v).program.Discreet
    ((requests.prepared program).requestAt v).modifier := by
  unfold BlockRequests.prepared PreparedRequests.requestAt
  rw [List.getD_eq_getElem?_getD, List.getElem?_map]
  cases hr : requests[v]? with
  | none => trivial
  | some r => exact h.discreet r (List.mem_of_getElem? hr)

/-- Before the block is executed the chunks are in their bounds. -/
theorem heapInBounds_start :
    HeapInBounds index heap₀ (SomeResizes index heap₀ rawAccessMaps) heap₀ := by
  refine fun id => ⟨rfl, rfl, ?_⟩
  rintro ⟨m, -, e, -, rfl, c₀, hb, hr⟩ l hl
  obtain ⟨l', hl', hle⟩ := hb.lowerBound hr
  obtain rfl := Except.ok.inj (hl.symm.trans hl')
  exact hle

theorem BlockPrepared.endsSerially (h : BlockPrepared index heap₀ requests rawAccessMaps program)
    (hnew : new readonlyPages writablePages chunkBounds heap = .ok (index, heap₀)) :
    SharedRun.EndsSerially requests (requests.prepared program) heap₀
      fun u v => Independent index (entriesAt rawAccessMaps u) (entriesAt rawAccessMaps v) := by
  intro w hw hlt v hv result hresult
  have hlength : (requests.prepared program).length = requests.length := List.length_map _
  exact (turns_serializable (h.prepared hnew) h.discreetAt heapInBounds_start hw (hlength ▸ hlt)).1
    v (hlength ▸ hv) result hresult

/-! ## The execution of the block -/

/-- Requests that collide are joined in the graph. -/
def CollisionsOrdered (index : ChunkIndex) (rawAccessMaps : List AccessMapType)
    (requests : BlockRequests) : Prop :=
  ∀ u v, u < v → v < requests.length → RequestsCollide index rawAccessMaps u v →
    Relation.TransGen requests.Edge u v

theorem CollisionsOrdered.linked (h : CollisionsOrdered index rawAccessMaps requests) :
    ∀ i j, j < i → i < requests.length →
    ¬ Independent index (entriesAt rawAccessMaps j) (entriesAt rawAccessMaps i) →
      Relation.TransGen requests.Edge j i := by
  intro i j hji hi hdep
  refine h j i hji hi ?_
  by_contra hno
  exact hdep fun e he e' he' hid hcol => hno ⟨e, he, e', he', hid, hcol⟩

section
variable {ids : List Nat} {finalized built : RequestScheduler} {workersCount : Nat} {s : SharedRun}
  (hnew : new readonlyPages writablePages chunkBounds heap = .ok (index, heap₀))
  (hblock : BlockPrepared index heap₀ requests rawAccessMaps program) (hwf : requests.WellFormed)
  (hordered : CollisionsOrdered index rawAccessMaps requests)
  (hids : ids.Perm (List.range requests.length))
  (hfinalized : (RequestScheduler.loaded requests).finalizeRequests ids = .ok finalized)
  (hbuilt : finalized.buildExecDag = .ok built)
include hnew hblock hwf hordered hids hfinalized hbuilt

/-- What holds in every state of a run of the block. -/
theorem coherent_of_reaches
    (hrun : SharedRun.Reaches (.start built workersCount (requests.prepared program) heap₀) s) :
    ∃ k, 0 < k ∧ requests.SourcePrefix k ∧
      SharedRun.Coherent requests (requests.prepared program) heap₀
        (fun u v => Independent index (entriesAt rawAccessMaps u) (entriesAt rawAccessMaps v)) k s ∧
      s.block.workers.length = workersCount ∧ s.block.responseList.length = requests.length := by
  obtain ⟨finalized', hfinalized', hloaded⟩ := RequestScheduler.loaded_finalizes hwf hids
  obtain rfl := Except.ok.inj (hfinalized.symm.trans hfinalized')
  obtain ⟨k, hk, ⟨-, hbuild⟩ | ⟨hpos, hbuild⟩⟩ := RequestScheduler.buildExecDag_cases hids hloaded
  · rw [hbuilt] at hbuild
    cases hbuild
  obtain rfl := Except.ok.inj (hbuilt.symm.trans hbuild)
  have hstart : SharedRun.Coherent requests (requests.prepared program) heap₀
      (fun u v => Independent index (entriesAt rawAccessMaps u) (entriesAt rawAccessMaps v)) k
        (.start _ workersCount (requests.prepared program) heap₀) :=
    ⟨BlockRun.Sound.start _ hwf hids hloaded hk workersCount,
      fun v hv => absurd hv List.not_mem_nil, [], rfl, trivial,
      fun i hi => absurd hi List.not_mem_nil⟩
  have hends := hblock.endsSerially hnew
  have hreaches := hstart.reaches_block hwf hblock.ids hk.le hends hordered.linked hrun
  refine ⟨k, hpos, hk, hstart.reaches hwf hblock.ids hk.le hends hordered.linked hrun, ?_, ?_⟩
  · exact (BlockRun.length_workers hreaches).trans List.length_replicate
  · exact (BlockRun.length_responseList hreaches).trans (List.length_replicate.trans hloaded.length)

/-- A request that has ended has ended as in the serial execution. If the parallel execution
returns, the serial one returns the same responses, and leaves the same heap. -/
theorem serializable_of_ordered (hworkers : 0 < workersCount)
    (hrun : SharedRun.Reaches (.start built workersCount (requests.prepared program) heap₀) s) :
    (∀ v < requests.length, ∀ result, s.shared.2 v = .ended result →
      result = (requests.prepared program).serialResult heap₀ v) ∧
      ∀ responses, s.block.Finished → s.block.result = .ok responses →
        ∃ statusCodes, responses = statusCodes.map some ∧
        PreparedRequests.serialExecute heap₀ (requests.prepared program) =
          .ok (statusCodes, s.shared.1) := by
  obtain ⟨k, hpos, hk, h, hlength, hresponses⟩ :=
    coherent_of_reaches hnew hblock hwf hordered hids hfinalized hbuilt hrun
  obtain ⟨w, hw, hpermitted, hlt⟩ := h.schedule
  have hsize : (requests.prepared program).length = requests.length := List.length_map _
  obtain ⟨hended, hheap⟩ :=
    turns_serializable (hblock.prepared hnew) hblock.discreetAt heapInBounds_start hpermitted
      (hsize ▸ hlt)
  rw [← hw, hsize] at hended hheap
  refine ⟨hended, fun responses hfinished hresult => ?_⟩
  obtain ⟨hreturned, rfl⟩ := BlockRun.returned_of_result hfinished hresult
  have hne : s.block.workers ≠ [] := by
    rw [ne_eq, ← List.length_eq_zero_iff]
    omega
  have hall := h.sound.all_accepted hwf hk.le hne hreturned
  -- the status codes that were accepted
  have hcode : ∀ v < requests.length, ∃ statusCode,
      (requests.prepared program).serialResult heap₀ v = .ok statusCode ∧
        s.block.responseList[v]? = some (some statusCode) := by
    intro v hv
    obtain ⟨-, hexecuted, r, statusCode, hr, hexec, -⟩ := hall v hv
    have hexec : (requests.prepared program).serialResult heap₀ r.1.id = .ok statusCode := hexec
    have hresponse := h.sound.responses v r hr
    rw [if_pos hexecuted, hexec] at hresponse
    rw [hblock.ids v r hr] at hexec
    exact ⟨statusCode, hexec, hresponse⟩
  let statusCodes := (List.range requests.length).map fun v =>
    ((requests.prepared program).serialResult heap₀ v).toOption.getD 0
  refine ⟨statusCodes, List.ext_getElem? fun v => ?_,
    PreparedRequests.serialExecute_eq_ok_iff.mpr ⟨?_, ?_⟩⟩
  · rw [List.getElem?_map, List.getElem?_map]
    obtain hv | hv := lt_or_ge v requests.length
    · obtain ⟨statusCode, hserial, hresponse⟩ := hcode v hv
      rw [hresponse, List.getElem?_range hv]
      simp only [Option.map_some, hserial]
      rfl
    · rw [List.getElem?_eq_none (by omega),
        List.getElem?_eq_none (by rw [List.length_range]; exact hv)]
      rfl
  · rw [hsize, List.map_map]
    refine List.map_congr_left fun v hv => ?_
    obtain ⟨statusCode, hserial, -⟩ := hcode v (List.mem_range.mp hv)
    simp only [Function.comp_apply, hserial]
    rfl
  · rw [hsize]
    exact hheap fun v hv => h.ended v (hall v hv).2.1

/-- Every run ends, and whether it returns is decided by the graph and by the serial execution. -/
theorem verdict_of_ordered (hworkers : 0 < workersCount) :
    (∀ run : Nat → SharedRun, run 0 = .start built workersCount (requests.prepared program) heap₀ →
        ∃ m, ¬ SharedRun.Step (run m) (run (m + 1))) ∧
      ∀ s, SharedRun.Reaches (.start built workersCount (requests.prepared program) heap₀) s →
        s.Halted →
        ((s.block.Finished ∧ ∃ responses, s.block.result = .ok responses) ↔
          requests.Executable ∧ ∀ v < requests.length,
            Accepted requests (fun req =>
              (requests.prepared program).serialResult heap₀ req.id) v) := by
  refine ⟨fun run hstart => ?_, fun s hrun hhalted => ?_⟩
  · obtain ⟨k, -, hk, h, -⟩ :=
      coherent_of_reaches hnew hblock hwf hordered hids hfinalized hbuilt .refl
    exact h.terminates hwf hblock.ids hk.le (hblock.endsSerially hnew) hordered.linked run hstart
  · obtain ⟨k, hpos, hk, h, hlength, -⟩ :=
      coherent_of_reaches hnew hblock hwf hordered hids hfinalized hbuilt hrun
    have hne : s.block.workers ≠ [] := by
      rw [ne_eq, ← List.length_eq_zero_iff]
      omega
    constructor
    · rintro ⟨hfinished, responses, hresult⟩
      have hall := h.sound.all_accepted hwf hk.le hne
        (BlockRun.returned_of_result hfinished hresult).1
      exact ⟨h.sound.executable hk hpos fun v hv => (hall v hv).1, fun v hv => (hall v hv).2.2⟩
    · rintro ⟨hexecutable, haccepted⟩
      have hended := h.sound.ends hwf hk hpos haccepted hne (hhalted.block _)
      obtain ⟨-, -, hresult⟩ := hended.result.resolve_right fun hnot => hnot.1 hexecutable
      exact ⟨hended.finished, _, hresult⟩

end

end
end Argennon
