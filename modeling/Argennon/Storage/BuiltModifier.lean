import Argennon.Storage.Admission

/- What the constructor of `ChunkIndex` leaves in the heap, and the modifier that
   `buildModifier` returns: new, with one `ChunkInfo` for each chunk of the access
   map whose blocks, size block and bound are those declared. -/
namespace Argennon

/-- The same chunks but for their bytes in use and their contents. -/
def SameSpace (heap heap' : Heap) : Prop :=
  ∀ id, (heap' id).capacity = (heap id).capacity ∧ (heap' id).isWritable = (heap id).isWritable

theorem SameSpace.refl (heap : Heap) : SameSpace heap heap := fun _ => ⟨rfl, rfl⟩

/-! ## The constructor of the index -/

theorem reserveSpace_ok {c c' : Chunk} {n : Nat} (h : c.reserveSpace n = .ok c') :
    n ≤ c'.capacity ∧ c.capacity ≤ c'.capacity ∧ c'.isWritable = c.isWritable := by
  unfold Chunk.reserveSpace at h
  split at h
  · split at h
    · rename_i hle
      obtain rfl := Except.ok.inj h
      exact ⟨hle, le_rfl, rfl⟩
    · rename_i hle
      obtain rfl := Except.ok.inj h
      have hs := c.size_le
      simp only [Chunk.capacity, Chunk.resize, List.length_append, List.length_take,
        List.length_replicate]
      exact ⟨by omega, by omega, rfl⟩
  · cases h

namespace ChunkIndex

/-- Space is reserved for every listed chunk, and no chunk loses any. -/
theorem reserve_ok {chunkIndex : List FullID} :
    ∀ {l : List (FullID × ChunkBoundsInfo)} {heap heap' : Heap},
    reserve chunkIndex l heap = .ok heap' →
    (∀ id, (heap id).capacity ≤ (heap' id).capacity ∧
      (heap' id).isWritable = (heap id).isWritable) ∧
      ∀ e ∈ l, toUInt32 e.2.sizeUpperBound ≤ (heap' e.1).capacity
  | [], heap, heap', h => by
    obtain rfl := Except.ok.inj h
    exact ⟨fun _ => ⟨le_rfl, rfl⟩, by simp⟩
  | (id, bounds) :: rest, heap, heap', h => by
    rw [reserve] at h
    obtain ⟨ptr, hptr, h⟩ := bind_ok.mp h
    obtain ⟨chunk, hchunk, h⟩ := bind_ok.mp h
    obtain ⟨hgrow, hrest⟩ := reserve_ok h
    obtain ⟨h1, h2, h3⟩ := reserveSpace_ok hchunk
    obtain rfl : id = ptr := by
      unfold getChunk at hptr
      split at hptr
      · exact Except.ok.inj hptr
      · cases hptr
    refine ⟨fun k => ?_, List.forall_mem_cons.mpr ⟨?_, hrest⟩⟩
    · have hk := hgrow k
      by_cases hid : k = id
      · subst hid
        rw [Function.update_self] at hk
        exact ⟨h2.trans hk.1, hk.2.trans h3⟩
      · rwa [Function.update_of_ne hid] at hk
    · have hk := (hgrow id).1
      rw [Function.update_self] at hk
      exact h1.trans hk

/-- Indexing pages sets the flag of their chunks and of no other. -/
theorem indexPages_writable (writable : Bool) (pages : List Page) (s : List FullID × Heap)
    (id : FullID) :
    ((pages.foldl (indexPage writable) s).2 id).isWritable =
      if ∃ p ∈ pages, id ∈ p.chunks then writable else (s.2 id).isWritable := by
  have hchunks : ∀ (ids : List FullID) (s : List FullID × Heap),
      ((ids.foldl (emplace writable) s).2 id).isWritable = if id ∈ ids then writable
        else (s.2 id).isWritable := by
    intro ids
    induction ids with
    | nil => simp
    | cons k ids ih =>
      intro s
      rw [List.foldl_cons, ih]
      by_cases hk : id = k
      · subst hk
        simp only [emplace, Function.update_self, List.mem_cons, true_or, if_true]
        split <;> rfl
      · simp [emplace, hk]
  induction pages generalizing s with
  | nil => simp
  | cons p pages ih =>
    rw [List.foldl_cons, ih, indexPage, hchunks]
    by_cases h1 : ∃ q ∈ pages, id ∈ q.chunks
    · simp [h1]
    · by_cases h2 : id ∈ p.chunks <;> simp [h1, h2]

section
variable {readonlyPages writablePages : List Page}
  {chunkBounds : OrderedStaticMap FullID ChunkBoundsInfo}
  {heap heap' : Heap} {index : ChunkIndex}

theorem new_ok (h : new readonlyPages writablePages chunkBounds heap = .ok (index, heap')) :
    index.sizeBoundsInfo = chunkBounds ∧
      reserve index.chunkIndex chunkBounds.entries
        (writablePages.foldl (indexPage true)
          (readonlyPages.foldl (indexPage false) ([], heap))).2 = .ok heap' := by
  unfold new at h
  simp only at h
  split at h
  · cases h
  · rename_i hres
    obtain ⟨rfl, rfl⟩ := Prod.mk.inj (Except.ok.inj h)
    exact ⟨rfl, hres⟩

/-- The space up to the upper bound of every chunk with bounds is allocated. -/
theorem new_reserved (h : new readonlyPages writablePages chunkBounds heap = .ok (index, heap')) :
    ∀ e ∈ index.sizeBoundsInfo.entries, toUInt32 e.2.sizeUpperBound ≤ (heap' e.1).capacity := by
  obtain ⟨hb, hres⟩ := new_ok h
  rw [hb]
  exact (reserve_ok hres).2

/-- The chunks of a page that is only read are not writable. -/
theorem new_readonly (h : new readonlyPages writablePages chunkBounds heap = .ok (index, heap'))
    {id : FullID}
    (hread : ∃ p ∈ readonlyPages, id ∈ p.chunks) (hwrite : ∀ p ∈ writablePages, id ∉ p.chunks) :
    (heap' id).isWritable = false := by
  obtain ⟨-, hres⟩ := new_ok h
  rw [((reserve_ok hres).1 id).2, indexPages_writable, if_neg (by simpa using hwrite),
    indexPages_writable, if_pos hread]

end

/-! ## The modifier -/

/-- The blocks of a chunk in the modifier, by offset. -/
def declaredBlocks (blocks : List (Int × AccessBlockInfo)) : List (Nat × AccessBlock) :=
  (blocks.filter fun b => 0 ≤ b.1).map fun b =>
    (b.1.toNat, { heapLocation := b.1.toNat, size := toUInt32 b.2.size,
                  accessType := b.2.accessType })

/-- The chunk information of an entry of the access map. -/
structure Built (index : ChunkIndex) (heap : Heap) (e : FullID × List (Int × AccessBlockInfo))
    (c : ChunkInfo AccessBlock) : Prop where
  ptr : c.ptr = e.1
  initialSize : c.initialSize = none
  blocks : c.accessTable.entries = declaredBlocks e.2
  size : c.size =
    { heapLocation := 0, size := 4,
      accessType := if c.resizing.resizable then .writable else .read_only }
  resizing : ∃ offset info chunkNewSize, e.2.head? = some (offset, info) ∧
    ChunkIndex.resizing offset info.size = .ok (c.resizing, chunkNewSize) ∧
      c.sizeBound = toUInt32 chunkNewSize
  admitted : Admitted index heap e

theorem toAccessBlocks_ok
    {chunk : Chunk} : ∀ {blocks : List (Int × AccessBlockInfo)} {l : List (Nat × AccessBlock)},
    toAccessBlocks chunk blocks = .ok l → l = declaredBlocks blocks
  | [], l, h => (Except.ok.inj h).symm
  | (offset, info) :: rest, l, h => by
    rw [toAccessBlocks] at h
    split at h
    · cases h
    split at h
    · rename_i h0
      obtain ⟨location, hloc, h⟩ := bind_ok.mp h
      obtain ⟨block, hblock, h⟩ := bind_ok.mp h
      obtain ⟨tail, htail, h⟩ := bind_ok.mp h
      obtain rfl := Except.ok.inj h
      obtain rfl : location = offset.toNat := by
        unfold Chunk.getContentPointer at hloc
        split at hloc
        · cases hloc
        · exact (Except.ok.inj hloc).symm
      obtain rfl :
          { heapLocation := offset.toNat, size := toUInt32 info.size
            accessType := info.accessType } = block := by
        unfold AccessBlock.new at hblock
        split at hblock
        · exact Except.ok.inj hblock
        · cases hblock
      simp [declaredBlocks, h0, toAccessBlocks_ok htail]
    · rename_i h0
      simp [declaredBlocks, h0, toAccessBlocks_ok h]

theorem buildChunk_built {index : ChunkIndex} {heap : Heap} {id : FullID}
    {blocks : List (Int × AccessBlockInfo)}
    {c : ChunkInfo AccessBlock} (h : index.buildChunk heap id blocks = .ok c) :
    Built index heap (id, blocks) c := by
  have hadm := buildChunk_ok_iff.mp ⟨c, h⟩
  unfold buildChunk at h
  obtain ⟨ptr, hptr, h⟩ := bind_ok.mp h
  obtain ⟨⟨offset, info⟩, hfirst, h⟩ := bind_ok.mp h
  obtain ⟨⟨type, n⟩, hres, h⟩ := bind_ok.mp h
  obtain ⟨-, -, h⟩ := bind_ok.mp h
  obtain rfl : id = ptr := by
    rw [getChunk, if_pos hadm.1] at hptr
    exact Except.ok.inj hptr
  have hhead : blocks.head? = some (offset, info) := by
    rw [List.head?_eq_getElem?]
    exact vecGet_ok.mp hfirst
  unfold ChunkInfo.new at h
  obtain ⟨l, hl, h⟩ := bind_ok.mp h
  split at h
  · obtain rfl := Except.ok.inj h
    refine ⟨rfl, rfl, ?_, rfl, ⟨offset, info, n, hhead, hres, rfl⟩, hadm⟩
    rw [← toAccessBlocks_ok hl]
    rw [OrderedStaticMap.entries, List.zip_map']
    simp
  · cases h

section
variable {index : ChunkIndex} {heap : Heap} {rawAccessMap : AccessMapType}
  {m : RestrictedModifier AccessBlock}

/-- The modifier stands at no chunk and has saved nothing. -/
theorem buildModifier_new (h : index.buildModifier heap rawAccessMap = .ok m) :
    m.currentVersion = 0 ∧ m.currentChunk = none ∧ m.chunks = none := by
  unfold buildModifier at h
  obtain ⟨l, -, h⟩ := bind_ok.mp h
  obtain ⟨maps, -, h⟩ := bind_ok.mp h
  obtain rfl := Except.ok.inj h
  exact ⟨rfl, rfl, rfl⟩

/-- Its chunks are those of the access map, in order. -/
theorem buildModifier_built (h : index.buildModifier heap rawAccessMap = .ok m) :
    List.Forall₂ (Built index heap) (chunkEntries rawAccessMap) m.appsAccessMaps.chunkInfos := by
  rw [buildModifier_eq] at h
  cases hmaps : (rawAccessMap.entries.mapM (fun e => index.buildChunkMap heap e.1 e.2) >>=
      OrderedStaticMap.mk? rawAccessMap.keys) with
  | error e =>
    rw [hmaps] at h
    cases h
  | ok maps =>
    rw [hmaps] at h
    obtain rfl := Except.ok.inj h
    have happs := (OrderedStaticMap.mapM_mk?_ok hmaps).2
    unfold chunkEntries AppMap.chunkInfos
    refine List.rel_flatMap (R := fun e c => index.buildChunkMap heap e.1 e.2 = .ok c)
      happs fun e c hc => ?_
    have hchunks := (OrderedStaticMap.mapM_mk?_ok hc).2
    exact List.forall₂_map_left_iff.mpr (hchunks.imp fun _ _ => buildChunk_built)

/-- A built modifier is new in the sense rollback asks for. -/
theorem buildModifier_fresh (h : index.buildModifier heap rawAccessMap = .ok m) :
    RestrictedModifier.Fresh m := by
  have hbuilt := buildModifier_built h
  refine ⟨(buildModifier_new h).1, fun c hc b hb => ?_, fun c hc => ?_⟩
  · obtain ⟨e, -, he⟩ := forall₂_mem_right hbuilt hc
    rcases hb with hb | rfl
    · rw [← c.accessTable.map_snd_entries, he.blocks] at hb
      obtain ⟨kb, hkb, rfl⟩ := List.mem_map.mp hb
      obtain ⟨info, -, rfl⟩ := List.mem_map.mp hkb
      rfl
    · rw [he.size]
  · obtain ⟨e, -, he⟩ := forall₂_mem_right hbuilt hc
    rw [he.size]

end

end ChunkIndex
end Argennon
