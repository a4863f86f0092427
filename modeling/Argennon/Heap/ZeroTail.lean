import Argennon.Heap.ChunkDelta
import Argennon.Heap.WriteFrame

/- The bytes of a chunk that are not persistent (`ascee/heap/Chunk.cpp`,
   `RestrictedModifier::writeToHeap`).

   What is proved:
     1. Every operation of a chunk that returns leaves zeros between the size and the capacity.
     2. A request that resizes a chunk writes below its new size. One that does not is cut at the
        size it has read first, which is the size of the chunk unless another request has shrunk
        the chunk since.
     3. So in every state that is reached from chunks that were just allocated the bytes past the
        size are zero, as long as every request that writes back has written below the size
        (`RestrictedModifier.Fits`). Nothing in the code asks for that (`shrunk_chunk_written`).

   What the callers promise is in the steps: memory is not moved while a request points to it. -/
namespace Argennon

namespace Chunk

/-- `Chunk(capacity)`; the default constructor is the one for no capacity. -/
def allocate (capacity : Nat) : Except Exn Chunk :=
  if h : capacity ≤ maxAllowedCapacity then
    .ok { content := List.replicate capacity 0
          size_le := Nat.zero_le _
          capacity_le := by simpa using h }
  else .error (.assertion "capacity <= maxAllowedCapacity")

/-- The bytes past the chunk size are zero. -/
def ZeroTail (c : Chunk) : Prop := ∀ i, c.chunkSize ≤ i → i < c.capacity → c.content[i]? = some 0

end Chunk

namespace ChunkInfo

/-- Of the bytes below the size it has read, a request has written only those below `n`. -/
def WrittenWithin (c : ChunkInfo AccessBlock) (version n : Nat) : Prop :=
  ∀ k, c.initialSize = some k → ∀ i < k, InWritten version c.accessTable.entries i → i < n

end ChunkInfo

/-- A request that may not resize a chunk has written nothing past its size, as the chunk is before
the write-back. -/
def RestrictedModifier.Fits (heap : Heap) (m : RestrictedModifier AccessBlock) : Prop :=
  ∀ c ∈ m.appsAccessMaps.chunkInfos, c.resizing.resizable = false → (heap c.ptr).isWritable →
    c.WrittenWithin m.currentVersion (heap c.ptr).getsize

/-- The chunks, and the modifiers of the requests that are not finished. -/
structure HeapState where
  heap : Heap
  live : List (RestrictedModifier AccessBlock)

namespace HeapState

/-- A request points into the memory of the chunk. -/
def Uses (s : HeapState) (id : FullID) : Prop :=
  ∃ m ∈ s.live, ∃ c ∈ m.appsAccessMaps.chunkInfos, c.ptr = id

/-- One step that returns normally, where a modifier is written back only if `admits` holds. -/
inductive Step (admits : Heap → RestrictedModifier AccessBlock → Prop) :
    HeapState → HeapState → Prop where
  | setSize {s : HeapState} {id : FullID} {newSize : Nat} {chunk : Chunk}
      (h : (s.heap id).setSize newSize = .ok chunk) :
      Step admits s { s with heap := Function.update s.heap id chunk }
  -- no request points into memory that is moved: these are called at the start and at the end of
  -- block validation
  | reserveSpace {s : HeapState} {id : FullID} {newCapacity : Nat} {chunk : Chunk}
      (h : (s.heap id).reserveSpace newCapacity = .ok chunk) (hlive : ¬ s.Uses id) :
      Step admits s { s with heap := Function.update s.heap id chunk }
  | shrinkSpace {s : HeapState} {id : FullID} (hlive : ¬ s.Uses id) :
      Step admits s { s with heap := Function.update s.heap id (s.heap id).shrinkSpace }
  | applyDelta {s : HeapState} {id : FullID} {delta next : List Byte} {chunk : Chunk}
      (h : (s.heap id).applyDelta delta = (chunk, .ok next)) (hlive : ¬ s.Uses id) :
      Step admits s { s with heap := Function.update s.heap id chunk }
  | setWritable {s : HeapState} {id : FullID} {writable : Bool} :
      Step admits s { s with heap := Function.update s.heap id ((s.heap id).setWritable writable) }
  -- a request begins
  | build {s : HeapState} {m : RestrictedModifier AccessBlock}
      (h : ∀ c ∈ m.appsAccessMaps.chunkInfos, ∃ type bound blocks,
        ChunkInfo.new c.ptr (s.heap c.ptr) type bound blocks = .ok c) :
      Step admits s { s with live := m :: s.live }
  -- the requests are interleaved, operation by operation
  | exec {heap : Heap} {before after : List (RestrictedModifier AccessBlock)}
      {m : RestrictedModifier AccessBlock} {op : Op} :
      Step admits ⟨heap, before ++ m :: after⟩ ⟨heap, before ++ (m.exec heap op).2 :: after⟩
  -- a request has one entry for each chunk, and writes once
  | writeToHeap {heap heap' : Heap} {before after : List (RestrictedModifier AccessBlock)}
      {m : RestrictedModifier AccessBlock} (h : m.writeToHeap heap = .ok heap')
      (honce : (m.appsAccessMaps.chunkInfos.map (·.ptr)).Nodup) (hadmits : admits heap m) :
      Step admits ⟨heap, before ++ m :: after⟩ ⟨heap', before ++ after⟩
  -- a request ends without writing
  | drop {heap : Heap} {before after : List (RestrictedModifier AccessBlock)}
      {m : RestrictedModifier AccessBlock} :
      Step admits ⟨heap, before ++ m :: after⟩ ⟨heap, before ++ after⟩

/-- Steps one after the other. -/
abbrev Steps (admits : Heap → RestrictedModifier AccessBlock → Prop) :
    HeapState → HeapState → Prop := Relation.ReflTransGen (Step admits)

end HeapState

/-! ## The operations of a chunk -/

namespace Chunk
variable {c c' : Chunk}

theorem ZeroTail.allocate {capacity : Nat} (h : Chunk.allocate capacity = .ok c) : c.ZeroTail := by
  unfold Chunk.allocate at h
  split at h
  · obtain rfl := Except.ok.inj h
    intro i _ hi
    exact List.getElem?_eq_some_iff.mpr ⟨hi, List.getElem_replicate _⟩
  · cases h

/-- A change of the bytes below the size. -/
theorem ZeroTail.congr (h : c.ZeroTail) (hsize : c'.chunkSize = c.chunkSize)
    (hcapacity : c'.content.length = c.content.length)
    (hsame : ∀ i, c.chunkSize ≤ i → c'.content[i]? = c.content[i]?) : c'.ZeroTail := by
  intro i hle hlt
  rw [hsize] at hle
  unfold capacity at hlt
  rw [hcapacity] at hlt
  rw [hsame i hle]
  exact h i hle hlt

/-- Of the bytes past the new size those past the old size were zero, and the others are zeroed. -/
theorem ZeroTail.setSize (h : c.ZeroTail) {newSize : Nat} (hset : c.setSize newSize = .ok c') :
    c'.ZeroTail := by
  obtain ⟨hsize, -, hcapacity, -, hbeyond⟩ := setSize_frame hset
  intro i hle hlt
  rw [hsize] at hle
  unfold capacity at hlt
  rw [hcapacity] at hlt
  obtain ⟨hpast, hsame⟩ | ⟨-, hzero⟩ := hbeyond i hle
  · rw [hsame]
    exact h i hpast hlt
  · exact hzero

theorem ZeroTail.reserveSpace (h : c.ZeroTail) {newCapacity : Nat}
    (hreserve : c.reserveSpace newCapacity = .ok c') :
    c'.ZeroTail ∧ c'.chunkSize = c.chunkSize := by
  unfold Chunk.reserveSpace at hreserve
  split at hreserve
  swap
  · cases hreserve
  split at hreserve
  · obtain rfl := Except.ok.inj hreserve
    exact ⟨h, rfl⟩
  · obtain rfl := Except.ok.inj hreserve
    have hsize := c.size_le
    refine ⟨fun i hle hlt => ?_, rfl⟩
    have hle : c.chunkSize ≤ i := hle
    have hlength : (c.content.take c.chunkSize).length = c.chunkSize := by
      rw [List.length_take]
      omega
    -- the new memory is zeroed after the bytes that are kept
    simp only [capacity, resize, List.length_append, hlength, List.length_replicate] at hlt
    simp only [resize]
    rw [List.getElem?_append_right (by omega), hlength]
    exact List.getElem?_eq_some_iff.mpr
      ⟨by rw [List.length_replicate]; omega, List.getElem_replicate _⟩

/-- A chunk without other bytes than its own. -/
theorem zeroTail_of_full (h : c.capacity ≤ c.chunkSize) : c.ZeroTail :=
  fun _ hle hlt => absurd (Nat.lt_of_lt_of_le hlt h) (Nat.not_lt.mpr hle)

theorem shrinkSpace_capacity (c : Chunk) : c.shrinkSpace.capacity ≤ c.shrinkSpace.chunkSize := by
  unfold capacity
  rw [shrinkSpace_content, shrinkSpace_chunkSize, List.length_take]
  exact Nat.min_le_left _ _

theorem ZeroTail.applyDelta (h : c.ZeroTail) {delta next : List Byte}
    (happly : c.applyDelta delta = (c', .ok next)) : c'.ZeroTail := by
  obtain rfl | hne := eq_or_ne delta []
  · obtain rfl : c = c' := (Prod.mk.inj happly).1
    exact h
  · obtain ⟨number, tail, reserved, -, -, -, hsize, hcontent⟩ := applyDelta_ok hne happly
    apply zeroTail_of_full
    unfold capacity
    rw [hcontent, hsize, List.length_take]
    exact Nat.min_le_left _ _

end Chunk

/-! ## What a request has declared and read -/

/-- Whatever a request has done, its blocks are those of `c₀`,
and the size it has read is a size. -/
structure Tracked (c₀ c : ChunkInfo AccessBlock) : Prop where
  keys : c.accessTable.keys = c₀.accessTable.keys
  blocks : List.Forall₂ BlockKept c₀.accessTable.values c.accessTable.values
  ptr : c.ptr = c₀.ptr
  resizing : c.resizing = c₀.resizing
  size : BlockKept c₀.size c.size
  cached : ∀ k, c.initialSize = some k → k < 2 ^ 32

/-- What the constructor of `ChunkInfo` gives. -/
structure Constructed (c₀ : ChunkInfo AccessBlock) : Prop where
  location : ∀ kb ∈ c₀.accessTable.entries, kb.2.heapLocation = kb.1
  unversioned : ∀ b ∈ c₀.accessTable.values, b.versionList = []
  initialSize : c₀.initialSize = none
  size : c₀.size =
    { heapLocation := 0, size := 4
      accessType := if c₀.resizing.resizable then .writable else .read_only }

theorem toAccessBlocks_constructed {chunk : Chunk} :
    ∀ {blocks : List (Int × AccessBlockInfo)} {l : List (Nat × AccessBlock)},
    toAccessBlocks chunk blocks = .ok l → ∀ kb ∈ l, kb.2.heapLocation = kb.1 ∧ kb.2.versionList = []
  | [], l, h, kb, hkb => by
    obtain rfl := Except.ok.inj h
    cases hkb
  | (offset, info) :: rest, l, h, kb, hkb => by
    rw [toAccessBlocks] at h
    split at h
    · cases h
    split at h
    swap
    · exact toAccessBlocks_constructed h kb hkb
    obtain ⟨location, hlocation, h⟩ := bind_ok.mp h
    obtain ⟨block, hblock, h⟩ := bind_ok.mp h
    obtain ⟨tail, htail, h⟩ := bind_ok.mp h
    obtain rfl := Except.ok.inj h
    obtain rfl | hkb := List.mem_cons.mp hkb
    · unfold Chunk.getContentPointer at hlocation
      split at hlocation
      · cases hlocation
      obtain rfl := Except.ok.inj hlocation
      unfold AccessBlock.new at hblock
      split at hblock
      · obtain rfl := Except.ok.inj hblock
        exact ⟨rfl, rfl⟩
      · cases hblock
    · exact toAccessBlocks_constructed htail kb hkb

theorem ChunkInfo.new_constructed {ptr : FullID} {chunk : Chunk} {type : ResizingType} {bound : Nat}
    {blocks : List (Int × AccessBlockInfo)} {c : ChunkInfo AccessBlock}
    (h : ChunkInfo.new ptr chunk type bound blocks = .ok c) :
    Constructed c := by
  unfold ChunkInfo.new at h
  obtain ⟨l, hl, h⟩ := bind_ok.mp h
  split at h
  swap
  · cases h
  obtain rfl := Except.ok.inj h
  have hconstructed := toAccessBlocks_constructed hl
  refine ⟨fun kb hkb => ?_, fun b hb => ?_, rfl, rfl⟩
  · have hentries : (l.map Prod.fst).zip (l.map Prod.snd) = l := by
      rw [List.zip_map']
      simp
    unfold OrderedStaticMap.entries at hkb
    rw [hentries] at hkb
    exact (hconstructed kb hkb).1
  · obtain ⟨kb, hkb, rfl⟩ := List.mem_map.mp hb
    exact (hconstructed kb hkb).2

theorem Constructed.tracked {c : ChunkInfo AccessBlock} (h : Constructed c) : Tracked c c where
  keys := rfl
  blocks := List.forall₂_same.mpr fun b hb => ⟨.refl b, fun _ => h.unversioned b hb⟩
  ptr := rfl
  resizing := rfl
  size := ⟨.refl _, fun _ => by rw [h.size]⟩
  cached := fun k hk => by
    rw [h.initialSize] at hk
    cases hk

namespace Tracked
variable {chunk : Chunk} {c₀ c : ChunkInfo AccessBlock}

/-- Another size block, after the chunk size is read if it was not. -/
theorem withSize (h : Tracked c₀ c) (chunk : Chunk) {b : AccessBlock} (hb : BlockKept c₀.size b) :
    Tracked c₀ { c with size := b, initialSize := some (c.initialSize.getD chunk.getsize) } :=
  ⟨h.keys, h.blocks, h.ptr, h.resizing, hb, fun k hk => by
    cases hinit : c.initialSize with
    | none =>
      rw [hinit] at hk
      obtain rfl : chunk.getsize = k := Option.some.inj hk
      exact Kept.getsize_lt chunk
    | some k' =>
      rw [hinit] at hk
      obtain rfl : k' = k := Option.some.inj hk
      exact h.cached k' hinit⟩

theorem readSize (h : Tracked c₀ c) (chunk : Chunk) (version : Nat) :
    Tracked c₀ (c.readSize chunk version).2 :=
  h.withSize chunk (h.size.read _ version 0 4)

theorem writeSize (h : Tracked c₀ c) (hwidth : c₀.size.size = 4) (version newSize : Nat) :
    Tracked c₀ (c.writeSize chunk version newSize).2 := by
  have hbase : (c.sizeBlock chunk).sizeBase.length = (c.sizeBlock chunk).size.size :=
    (leBytes_length _ _).trans (hwidth ▸ h.size.same.size).symm
  exact h.withSize chunk (h.size.write hbase version 0 (leBytes 4 newSize))

theorem onBlock {α : Type} (h : Tracked c₀ c) (chunk : Chunk) (offset : Nat)
    {f : AccessBlock → List Byte → Except Exn α × AccessBlock}
    (hf : ∀ b₀ b base, BlockKept b₀ b → base.length = b.size → BlockKept b₀ (f b base).2) :
    Tracked c₀ (c.onBlock chunk offset f).2 := by
  obtain ⟨table, heq, hkeys, hblocks⟩ := ChunkInfo.onBlock_kept h.blocks chunk offset hf
  rw [heq]
  exact ⟨hkeys.trans h.keys, hblocks, h.ptr, h.resizing, h.size, h.cached⟩

theorem updateChunkSize (h : Tracked c₀ c) (hwidth : c₀.size.size = 4) (version newSize : Nat) :
    Tracked c₀ (c.updateChunkSize chunk version newSize).2 := by
  have hread := h.readSize chunk version
  unfold ChunkInfo.updateChunkSize
  split
  · rename_i heq
    rw [heq] at hread
    exact hread
  · rename_i heq
    rw [heq] at hread
    split
    · exact hread
    split
    · split
      · exact hread
      · exact hread.writeSize hwidth version newSize
    · split
      · exact hread
      · exact hread.writeSize hwidth version newSize
    · exact hread
    · exact hread

/-- Every operation on the chunk, at every version. -/
theorem exec (h : Tracked c₀ c) (hwidth : c₀.size.size = 4) (version : Nat) (op : ChunkOp) :
    Tracked c₀ (c.exec chunk version op).2 := by
  cases op with
  | load offset index n =>
    exact h.onBlock chunk offset fun b₀ b base hb _ => hb.read base version index n
  | store offset index value =>
    exact h.onBlock chunk offset fun b₀ b base hb hbase => hb.write hbase version index value
  | addInt offset n value =>
    exact h.onBlock chunk offset fun b₀ b base hb _ => hb.addInt version n value
  | isValid offset size =>
    simp only [ChunkInfo.exec, ChunkInfo.isValid]
    split
    · exact h
    · split
      · exact h.readSize chunk version
      · exact h
  | getChunkSize =>
    simp only [ChunkInfo.exec, ChunkInfo.getChunkSize]
    split
    · exact h
    · exact h.readSize chunk version
  | updateChunkSize newSize => exact h.updateChunkSize hwidth version newSize

/-- The size that is read by a request that may not change it. -/
theorem readSize_fixed (h : Tracked c₀ c) (hc₀ : Constructed c₀)
    (hfixed : c₀.resizing.resizable = false) {version n : Nat}
    (hread : (c.readSize chunk version).1 = .ok n) : n = c.initialSize.getD chunk.getsize := by
  have htype : c₀.size.accessType = .read_only := by
    rw [hc₀.size, hfixed]
    rfl
  have hversions : c.size.versionList = [] := h.size.passive (by rw [htype]; rfl)
  have hlt : c.initialSize.getD chunk.getsize < 2 ^ 32 := by
    cases hinit : c.initialSize with
    | none => exact Kept.getsize_lt chunk
    | some k => exact h.cached k hinit
  rw [ChunkInfo.readSize_eq chunk version (h.size.same.size.trans (by rw [hc₀.size]))
    (by rw [h.size.same.accessType, htype]; rfl) hlt] at hread
  have hshown := Except.ok.inj hread
  unfold ChunkInfo.shownSize at hshown
  rw [hversions] at hshown
  exact hshown.symm

/-- The write-back of a request that has written below the size changes bytes below
the size it leaves. -/
theorem writeToHeap (h : Tracked c₀ c) (hc₀ : Constructed c₀) (hzero : chunk.ZeroTail)
    {version : Nat} {chunk' : Chunk}
    (hfits : c.resizing.resizable = false → chunk.isWritable →
      c.WrittenWithin version chunk.getsize)
    (hwrite : c.writeToHeap version chunk = .ok chunk') : chunk'.ZeroTail := by
  unfold ChunkInfo.writeToHeap at hwrite
  obtain ⟨n, hread, hwrite⟩ := bind_ok.mp hwrite
  obtain ⟨mid, hresize, hwrite⟩ := bind_ok.mp hwrite
  have hmid : mid.ZeroTail ∧ (mid.isWritable → ∀ i < n,
      InWritten version c.accessTable.entries i → i < mid.chunkSize) := by
    unfold ChunkInfo.resizeTo at hresize
    by_cases hresizable : c.resizing.resizable = true
    · -- the size is changed first, and the blocks are cut at it
      rw [if_pos hresizable] at hresize
      have hsize : mid.chunkSize = n := (setSize_frame hresize).1
      exact ⟨hzero.setSize hresize, fun _ i hi _ => hsize ▸ hi⟩
    · -- the blocks are cut at the size that was read, which may be an old one
      rw [if_neg hresizable] at hresize
      obtain rfl := Except.ok.inj hresize
      have hfixed : c.resizing.resizable = false := Bool.eq_false_iff.mpr hresizable
      have hn := h.readSize_fixed hc₀ (h.resizing ▸ hfixed) hread
      refine ⟨hzero, fun hwritable i hi hin => ?_⟩
      cases hinit : c.initialSize with
      | none =>
        rw [hinit] at hn
        exact Nat.lt_of_lt_of_le hi (Nat.le_of_eq hn)
      | some k =>
        rw [hinit] at hn
        obtain rfl : n = k := hn
        exact hfits hfixed hwritable n hinit i hi hin
  split at hwrite
  · rename_i hbranch
    have hentries := ChunkInfo.entries_declared h.keys h.blocks hc₀.location
    obtain ⟨hsize, -, hcapacity, hframe⟩ :=
      writeBlocks_frame (fun kb hkb => (hentries kb hkb).1.1) hwrite
    refine hmid.1.congr hsize hcapacity fun i hi => hframe i fun hlt hin => ?_
    exact absurd (hmid.2 hbranch.2 i hlt hin) (Nat.not_lt.mpr hi)
  · obtain rfl := Except.ok.inj hwrite
    exact hmid.1

end Tracked

/-! ## Requests -/

/-- The chunk of a request, as the request began and as it is. -/
def IsTracked (c : ChunkInfo AccessBlock) : Prop := ∃ c₀, Constructed c₀ ∧ Tracked c₀ c

theorem writeChunks_zeroTail {version : Nat} :
    ∀ {l : List (ChunkInfo AccessBlock)} {heap heap' : Heap},
    (∀ id, (heap id).ZeroTail) → (∀ c ∈ l, IsTracked c) → (l.map (·.ptr)).Nodup →
    (∀ c ∈ l, c.resizing.resizable = false → (heap c.ptr).isWritable →
      c.WrittenWithin version (heap c.ptr).getsize) →
    RestrictedModifier.writeChunks version l heap = .ok heap' → ∀ id, (heap' id).ZeroTail
  | [], heap, heap', hzero, _, _, _, h => by
    obtain rfl := Except.ok.inj h
    exact hzero
  | c :: rest, heap, heap', hzero, htracked, honce, hfits, h => by
    obtain ⟨⟨c₀, hc₀, hc⟩, hrest⟩ := List.forall_mem_cons.mp htracked
    obtain ⟨hnotin, honce⟩ := List.nodup_cons.mp honce
    obtain ⟨hfit, hfits⟩ := List.forall_mem_cons.mp hfits
    rw [RestrictedModifier.writeChunks] at h
    obtain ⟨chunk, hwrite, h⟩ := bind_ok.mp h
    refine writeChunks_zeroTail (fun id => ?_) hrest honce (fun c' hc' => ?_) h
    · obtain rfl | hne := eq_or_ne id c.ptr
      · rw [Function.update_self]
        exact hc.writeToHeap hc₀ (hzero _) hfit hwrite
      · rw [Function.update_of_ne hne]
        exact hzero id
    · -- the other chunks of the request are not touched
      have hne : c'.ptr ≠ c.ptr := fun heq => hnotin (List.mem_map.mpr ⟨c', hc', heq⟩)
      rw [Function.update_of_ne hne]
      exact hfits c' hc'

/-- An operation of a request leaves its chunks tracked. -/
theorem exec_tracked {heap : Heap} {m : RestrictedModifier AccessBlock}
    (h : ∀ c ∈ m.appsAccessMaps.chunkInfos, IsTracked c) (op : Op) :
    ∀ c ∈ (m.exec heap op).2.appsAccessMaps.chunkInfos, IsTracked c := by
  have hself : AppMap.Lift (fun _ c => IsTracked c) m.appsAccessMaps m.appsAccessMaps :=
    ⟨rfl, List.forall₂_same.mpr fun chunkMap hmap =>
      ⟨rfl, List.forall₂_same.mpr fun c hc => h c (List.mem_flatMap.mpr ⟨chunkMap, hmap, hc⟩)⟩⟩
  have hstep : ∀ (_ c : ChunkInfo AccessBlock) (version : Nat) (op : ChunkOp), IsTracked c →
      IsTracked (c.exec (heap c.ptr) version op).2 := by
    rintro _ c version op ⟨c₀, hc₀, hc⟩
    exact ⟨c₀, hc₀, hc.exec (by rw [hc₀.size]) version op⟩
  have hrun := RestrictedModifier.run_lift hstep [op] m hself
  intro c hc
  obtain ⟨-, -, htracked⟩ := forall₂_mem_right hrun.chunkInfos hc
  exact htracked

/-! ## Every state that is reached -/

namespace HeapState

/-- What holds in every state. -/
structure Sound (s : HeapState) : Prop where
  zero : ∀ id, (s.heap id).ZeroTail
  tracked : ∀ m ∈ s.live, ∀ c ∈ m.appsAccessMaps.chunkInfos, IsTracked c

/-- Another chunk, with zeros past its size. -/
theorem Sound.update {s : HeapState} (h : Sound s) {id : FullID} {chunk : Chunk}
    (hchunk : chunk.ZeroTail) : Sound { s with heap := Function.update s.heap id chunk } := by
  refine ⟨fun id' => ?_, h.tracked⟩
  obtain rfl | hne := eq_or_ne id' id
  · simp only [Function.update_self]
    exact hchunk
  · simp only [Function.update_of_ne hne]
    exact h.zero id'

/-- One step. -/
theorem Step.sound {s s' : HeapState} (h : Step RestrictedModifier.Fits s s') (hs : Sound s) :
    Sound s' := by
  cases h with
  | setSize h => exact hs.update ((hs.zero _).setSize h)
  | reserveSpace h => exact hs.update ((hs.zero _).reserveSpace h).1
  | shrinkSpace => exact hs.update (Chunk.zeroTail_of_full (Chunk.shrinkSpace_capacity _))
  | applyDelta h => exact hs.update ((hs.zero _).applyDelta h)
  | setWritable => exact hs.update (hs.zero _)
  | build h =>
    refine ⟨hs.zero, List.forall_mem_cons.mpr ⟨fun c hc => ?_, hs.tracked⟩⟩
    obtain ⟨type, bound, blocks, hnew⟩ := h c hc
    have hconstructed := ChunkInfo.new_constructed hnew
    exact ⟨c, hconstructed, hconstructed.tracked⟩
  | exec =>
    obtain ⟨hbefore, hrest⟩ := List.forall_mem_append.mp hs.tracked
    obtain ⟨hm, hafter⟩ := List.forall_mem_cons.mp hrest
    exact ⟨hs.zero, List.forall_mem_append.mpr
      ⟨hbefore, List.forall_mem_cons.mpr ⟨exec_tracked hm _, hafter⟩⟩⟩
  | writeToHeap h honce hfits =>
    obtain ⟨hbefore, hrest⟩ := List.forall_mem_append.mp hs.tracked
    obtain ⟨hm, hafter⟩ := List.forall_mem_cons.mp hrest
    refine ⟨?_, List.forall_mem_append.mpr ⟨hbefore, hafter⟩⟩
    unfold RestrictedModifier.writeToHeap at h
    split at h
    · obtain rfl := Except.ok.inj h
      exact hs.zero
    · exact writeChunks_zeroTail hs.zero hm honce hfits h
  | drop =>
    obtain ⟨hbefore, hrest⟩ := List.forall_mem_append.mp hs.tracked
    exact ⟨hs.zero, List.forall_mem_append.mpr ⟨hbefore, (List.forall_mem_cons.mp hrest).2⟩⟩

/-- Every state of a run. -/
theorem Steps.sound {s s' : HeapState} (h : Steps RestrictedModifier.Fits s s') (hs : Sound s) :
    Sound s' := by
  induction h with
  | refl => exact hs
  | tail _ hstep ih => exact hstep.sound ih

/-- **Non-persistent bytes are zero.** In every state that is reached from chunks that were just
allocated, by requests that write back below the size of the chunks they do not resize, the bytes
of a chunk between its size and its capacity are zero, and they are what a larger size or a larger
memory shows. -/
theorem nonPersistent_zero {s₀ s : HeapState}
    (hfresh : ∀ id, ∃ capacity, Chunk.allocate capacity = .ok (s₀.heap id))
    (hlive : s₀.live = []) (hrun : Steps RestrictedModifier.Fits s₀ s) (id : FullID) :
    (s.heap id).chunkSize ≤ (s.heap id).capacity ∧ (s.heap id).capacity ≤ 64 * 1024 ∧
      (∀ i, (s.heap id).chunkSize ≤ i → i < (s.heap id).capacity →
        (s.heap id).content[i]? = some 0) ∧
      (∀ newSize chunk, (s.heap id).setSize newSize = .ok chunk →
        ∀ i, (s.heap id).chunkSize ≤ i → i < newSize → chunk.content[i]? = some 0) ∧
      ∀ newCapacity chunk, (s.heap id).reserveSpace newCapacity = .ok chunk →
        ∀ i, (s.heap id).chunkSize ≤ i → i < newCapacity → chunk.content[i]? = some 0 := by
  have hstart : Sound s₀ := by
    refine ⟨fun id => ?_, fun m hm => ?_⟩
    · obtain ⟨capacity, hallocate⟩ := hfresh id
      exact .allocate hallocate
    · rw [hlive] at hm
      cases hm
  have hzero := (Steps.sound hrun hstart).zero id
  refine ⟨(s.heap id).size_le, (s.heap id).capacity_le, hzero, ?_, ?_⟩
  · intro newSize chunk hset i hle hlt
    obtain ⟨hsize, -, hcapacity, hbelow, -⟩ := setSize_frame hset
    have hfits : newSize ≤ (s.heap id).content.length := by
      rw [← hsize, ← hcapacity]
      exact chunk.size_le
    rw [hbelow i hlt]
    exact hzero i hle (Nat.lt_of_lt_of_le hlt hfits)
  · intro newCapacity chunk hreserve i hle hlt
    obtain ⟨hzero', hsize⟩ := hzero.reserveSpace hreserve
    exact hzero' i (hsize.symm ▸ hle) (Nat.lt_of_lt_of_le hlt (Chunk.reserveSpace_le hreserve))

/-! ## Runs of one chunk -/

/-- A chunk with memory for eight bytes. -/
def freshChunk : Chunk := { content := List.replicate 8 0, capacity_le := by decide }

/-- The chunk of the requests below. -/
def chunkZero : FullID := toLex (0, toLex (0, 0))

/-- A modifier of one chunk. -/
def requestOf (c : ChunkInfo AccessBlock) : RestrictedModifier AccessBlock where
  appsAccessMaps := .single 0 (.single (toLex (0, 0)) c)

/-- The modifier of one chunk after operations on it. -/
def requestAfter (heap : Heap) (c : ChunkInfo AccessBlock) (ops : List ChunkOp) :
    RestrictedModifier AccessBlock :=
  ((requestOf c).run heap ([.saveVersion, .loadContext 0, .loadChunk 0 0] ++ ops.map .access)).2

/-- The heap after a write-back that returns. -/
def writtenBack (heap : Heap) (m : RestrictedModifier AccessBlock) : Heap :=
  (m.writeToHeap heap).toOption.getD heap

section
variable {admits : Heap → RestrictedModifier AccessBlock → Prop} {heap : Heap}

/-- The operations of one request. -/
theorem steps_run (before after : List (RestrictedModifier AccessBlock)) :
    ∀ (ops : List Op) (m : RestrictedModifier AccessBlock),
    Steps admits ⟨heap, before ++ m :: after⟩ ⟨heap, before ++ (m.run heap ops).2 :: after⟩
  | [], _ => .refl
  | op :: ops, m => .head .exec (steps_run before after ops (m.exec heap op).2)

/-- A request of one chunk begins and makes its operations. -/
theorem steps_request {live : List (RestrictedModifier AccessBlock)} {c : ChunkInfo AccessBlock}
    (h : ∃ type bound blocks, ChunkInfo.new c.ptr (heap c.ptr) type bound blocks = .ok c)
    (ops : List ChunkOp) :
    Steps admits ⟨heap, live⟩ ⟨heap, requestAfter heap c ops :: live⟩ := by
  have hbuild : Step admits ⟨heap, live⟩ ⟨heap, requestOf c :: live⟩ := .build fun c' hc' => by
    obtain rfl : c' = c := List.mem_singleton.mp hc'
    exact h
  exact .head hbuild (steps_run [] live _ _)

/-- It writes back. -/
theorem step_written {before after : List (RestrictedModifier AccessBlock)}
    {m : RestrictedModifier AccessBlock} (hok : (m.writeToHeap heap).isOk)
    (honce : (m.appsAccessMaps.chunkInfos.map (·.ptr)).Nodup) (hadmits : admits heap m) :
    Step admits ⟨heap, before ++ m :: after⟩ ⟨writtenBack heap m, before ++ after⟩ := by
  refine .writeToHeap ?_ honce hadmits
  unfold writtenBack
  cases hwrite : m.writeToHeap heap with
  | error e =>
    rw [hwrite] at hok
    cases hok
  | ok heap' => rfl

end

/-- A request that may expand the chunk up to five bytes, and may write the third one. -/
def growingChunk : ChunkInfo AccessBlock where
  accessTable := .single 2 (.unwritten 2 1 .writable)
  ptr := chunkZero
  resizing := .expandable
  sizeBound := 5
  size := .unwritten 0 4 .writable

/-- It does both. -/
def growing : RestrictedModifier AccessBlock :=
  requestAfter (fun _ => freshChunk) growingChunk [.updateChunkSize 5, .store 2 0 [7]]

/-- A chunk of five bytes. -/
def grownHeap : Heap := writtenBack (fun _ => freshChunk) growing

/-- A request that may write the fourth byte. -/
def writingChunk : ChunkInfo AccessBlock where
  accessTable := .single 3 (.unwritten 3 1 .writable)
  ptr := chunkZero
  resizing := .non_accessible
  sizeBound := 0
  size := .unwritten 0 4 .read_only

/-- It asks if the chunk has this byte, and writes it. -/
def writing : RestrictedModifier AccessBlock :=
  requestAfter grownHeap writingChunk [.isValid 3 1, .store 3 0 [9]]

/-- A request that may shrink the chunk down to three bytes. -/
def shrinkingChunk : ChunkInfo AccessBlock where
  accessTable := .empty
  ptr := chunkZero
  resizing := .shrinkable
  sizeBound := 3
  size := .unwritten 0 4 .writable

def shrinking : RestrictedModifier AccessBlock :=
  requestAfter grownHeap shrinkingChunk [.updateChunkSize 3]

theorem steps_growing {admits : Heap → RestrictedModifier AccessBlock → Prop}
    (h : admits (fun _ => freshChunk) growing) :
    Steps admits ⟨fun _ => freshChunk, []⟩ ⟨grownHeap, []⟩ := by
  have hnew : ChunkInfo.new chunkZero freshChunk .expandable 5
      [(2, { size := 1, accessType := .writable, requestID := 0 })] = .ok growingChunk := rfl
  have hwrite : Step admits ⟨fun _ => freshChunk, [] ++ growing :: []⟩ ⟨grownHeap, [] ++ []⟩ :=
    step_written (by decide +kernel) (by decide +kernel) h
  exact (steps_request ⟨_, _, _, hnew⟩ _).tail hwrite

theorem writingChunk_new : ∃ type bound blocks,
    ChunkInfo.new chunkZero (grownHeap chunkZero) type bound blocks = .ok writingChunk :=
  ⟨.non_accessible, 0, [(3, { size := 1, accessType := .writable, requestID := 0 })], rfl⟩

theorem shrinkingChunk_new : ∃ type bound blocks,
    ChunkInfo.new chunkZero (grownHeap chunkZero) type bound blocks = .ok shrinkingChunk :=
  ⟨.shrinkable, 3, [], rfl⟩

theorem nonPersistent_zero_growing : ∃ s,
    Steps RestrictedModifier.Fits ⟨fun _ => freshChunk, []⟩ s ∧
    (s.heap chunkZero).content = [0, 0, 7, 9, 0, 0, 0, 0] ∧ (s.heap chunkZero).chunkSize = 5 ∧
    (∀ newSize chunk, (s.heap chunkZero).setSize newSize = .ok chunk →
      ∀ i, (s.heap chunkZero).chunkSize ≤ i → i < newSize → chunk.content[i]? = some 0) := by
  have hgrowing : growing.Fits fun _ => freshChunk := by
    have hresizable : ∀ c ∈ growing.appsAccessMaps.chunkInfos, c.resizing.resizable = true := by
      decide +kernel
    intro c hc hfixed
    rw [hresizable c hc] at hfixed
    cases hfixed
  have hwriting : writing.Fits grownHeap := by
    have hsize : ∀ c ∈ writing.appsAccessMaps.chunkInfos,
        c.initialSize = some 5 ∧ (grownHeap c.ptr).getsize = 5 := by
      decide +kernel
    intro c hc _ _ k hk i hi _
    obtain ⟨hinitial, hgetsize⟩ := hsize c hc
    obtain rfl : 5 = k := Option.some.inj (hinitial.symm.trans hk)
    rwa [hgetsize]
  have hwrite : Step RestrictedModifier.Fits ⟨grownHeap, [] ++ writing :: []⟩
      ⟨writtenBack grownHeap writing, [] ++ []⟩ :=
    step_written (by decide +kernel) (by decide +kernel) hwriting
  have hrun := ((steps_growing hgrowing).trans (steps_request writingChunk_new _)).tail hwrite
  have hzero := nonPersistent_zero (fun _ => ⟨8, rfl⟩) rfl hrun chunkZero
  exact ⟨_, hrun, by decide +kernel, by decide +kernel, hzero.2.2.2.1⟩

/-- A request has asked for the fourth byte of a chunk of five; another one shrinks the chunk to
three bytes and is written back before it: the fourth byte is written past the size, and shown when
the chunk is expanded. -/
theorem shrunk_chunk_written : ∃ s,
    Steps (fun _ _ => True) ⟨fun _ => freshChunk, []⟩ s ∧ (s.heap chunkZero).chunkSize = 3 ∧
    (s.heap chunkZero).content[3]? = some 9 ∧
    ∃ chunk, (s.heap chunkZero).setSize 4 = .ok chunk ∧ chunk.content[3]? = some 9 := by
  have hshrink : Step (fun _ _ => True) ⟨grownHeap, [] ++ shrinking :: [writing]⟩
      ⟨writtenBack grownHeap shrinking, [] ++ [writing]⟩ :=
    step_written (by decide +kernel) (by decide +kernel) trivial
  have hwrite : Step (fun _ _ => True) ⟨writtenBack grownHeap shrinking, [] ++ writing :: []⟩
      ⟨writtenBack (writtenBack grownHeap shrinking) writing, [] ++ []⟩ :=
    step_written (by decide +kernel) (by decide +kernel) trivial
  have hwriting : Steps (fun _ _ => True) ⟨grownHeap, []⟩ ⟨grownHeap, [writing]⟩ :=
    steps_request writingChunk_new _
  have hshrinking : Steps (fun _ _ => True) ⟨grownHeap, [writing]⟩
      ⟨grownHeap, [shrinking, writing]⟩ := steps_request shrinkingChunk_new _
  have hrequests := ((steps_growing trivial).trans hwriting).trans hshrinking
  have hbyte : (writtenBack (writtenBack grownHeap shrinking) writing chunkZero).content[3]? =
      some 9 := by
    decide +kernel
  obtain ⟨chunk, hset⟩ : ∃ chunk,
      (writtenBack (writtenBack grownHeap shrinking) writing chunkZero).setSize 4 = .ok chunk :=
    ⟨_, dif_pos (by decide +kernel)⟩
  refine ⟨_, (hrequests.tail hshrink).tail hwrite, by decide +kernel, hbyte, chunk, hset, ?_⟩
  rw [(setSize_frame hset).2.2.2.1 3 (by decide)]
  exact hbyte

end HeapState
end Argennon
