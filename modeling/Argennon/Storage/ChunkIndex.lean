import Argennon.Heap.Rollback

/- `ChunkIndex` (`storage/ChunkIndex.h`, `storage/ChunkIndex.cpp`): the chunks of the
   pages a block needs, the size bounds its proposer declared for them, and the
   modifier built for a request.

   A chunk pointer is the identifier of the chunk, so a page is given by the
   identifiers of the chunks it holds and the chunks themselves are in the heap. The
   index of chunks is the list of the identifiers it has a pointer for. -/
namespace Argennon

/-- `Page`: its native chunk has the identifier of the page. -/
structure Page where
  id : FullID
  migrants : List FullID := []

/-- The identifiers of the chunks of a page. -/
def Page.chunks (p : Page) : List FullID := p.id :: p.migrants

namespace ChunkIndex

/-- `chunkIndex.emplace`, after `setWritable` on the chunk. -/
def emplace (writable : Bool) (s : List FullID × Heap) (id : FullID) : List FullID × Heap :=
  (if id ∈ s.1 then s.1 else id :: s.1, Function.update s.2 id ((s.2 id).setWritable writable))

/-- `indexPage` -/
def indexPage (writable : Bool) (s : List FullID × Heap) (page : Page) : List FullID × Heap :=
  page.chunks.foldl (emplace writable) s

/-- `getChunk` -/
def getChunk (chunkIndex : List FullID) (id : FullID) : Except Exn FullID :=
  if id ∈ chunkIndex then .ok id else .error (.blockError "missing proof of non-existence")

/-- The last loop of the constructor: the space of every chunk with declared bounds. -/
def reserve (chunkIndex : List FullID) : List (FullID × ChunkBoundsInfo) → Heap → Except Exn Heap
  | [], heap => .ok heap
  | (id, bounds) :: rest, heap => do
    let ptr ← getChunk chunkIndex id
    let chunk ← (heap ptr).reserveSpace (toUInt32 bounds.sizeUpperBound)
    reserve chunkIndex rest (Function.update heap ptr chunk)

theorem reserveSpace_le {c c' : Chunk} {n : Nat} (h : c.reserveSpace n = .ok c') :
    n ≤ maxAllowedCapacity := by
  unfold Chunk.reserveSpace at h
  split at h
  · assumption
  · simp at h

/-- The loop asserts that no upper bound is over the allowed capacity. -/
theorem reserve_upper_le {chunkIndex : List FullID} :
    ∀ {l : List (FullID × ChunkBoundsInfo)} {heap heap' : Heap},
    reserve chunkIndex l heap = .ok heap' →
      ∀ e ∈ l, toUInt32 e.2.sizeUpperBound ≤ maxAllowedCapacity
  | [], _, _, _ => by simp
  | (id, bounds) :: rest, heap, heap', h => by
    rw [reserve] at h
    obtain ⟨ptr, -, h⟩ := bind_ok.mp h
    obtain ⟨chunk, hchunk, h⟩ := bind_ok.mp h
    exact List.forall_mem_cons.mpr ⟨reserveSpace_le hchunk, reserve_upper_le h⟩

end ChunkIndex

/-- `ChunkIndex`. The space of every chunk with bounds was reserved, so no upper bound
is over the allowed capacity. -/
structure ChunkIndex where
  chunkIndex : List FullID
  sizeBoundsInfo : OrderedStaticMap FullID ChunkBoundsInfo
  upper_le : ∀ e ∈ sizeBoundsInfo.entries, toUInt32 e.2.sizeUpperBound ≤ maxAllowedCapacity

namespace ChunkIndex

/-- The constructor, with the heap it leaves. -/
def new (readonlyPages writablePages : List Page)
    (chunkBounds : OrderedStaticMap FullID ChunkBoundsInfo)
    (heap : Heap) : Except Exn (ChunkIndex × Heap) :=
  let s := writablePages.foldl (indexPage true) (readonlyPages.foldl (indexPage false) ([], heap))
  match h : reserve s.1 chunkBounds.entries s.2 with
  | .error e => .error e
  | .ok heap => .ok (⟨s.1, chunkBounds, reserve_upper_le h⟩, heap)

/-- `getSizeLowerBound` -/
def getSizeLowerBound (index : ChunkIndex) (chunkID : FullID) : Except Exn Int :=
  match index.sizeBoundsInfo.at chunkID with
  | .ok bounds => .ok bounds.sizeLowerBound
  | .error (.outOfRange _) => .error (.blockError "missing chunk size bounds")
  | .error e => .error e

/-- The negation of an `int32`, which overflows at the smallest value. -/
def negate (value : Int) : Except Exn Int := if value = -2 ^ 31 then .error .undefined
  else .ok (-value)

/-- How the size block of a chunk lets the request resize it, with its bound. -/
def resizing (offset size : Int) : Except Exn (ResizingType × Int) :=
  if offset = -2 then .ok (.read_only, size)
  else if offset = -1 ∧ size > 0 then .ok (.expandable, size)
  else if offset = -1 ∧ size ≤ 0 then (negate size).map fun chunkNewSize =>
    (.shrinkable, chunkNewSize)
  else .ok (.non_accessible, size)

/-- How a chunk is named in the texts of the errors. -/
def chunkName (id : FullID) : String :=
  LongID.toString (ofLex id).1 ++ "::" ++ LongLongID.toString (ofLex id).2

/-- The check of the proposed bounds of a resizable chunk. The chunk size is unsigned,
and so is a bound that is compared with it. -/
def checkBounds (index : ChunkIndex) (id : FullID) (chunkSize : Nat) (chunkNewSize : Int) :
    Except Exn Unit :=
  match index.sizeBoundsInfo.at id with
  | .ok bounds =>
    if chunkSize < toUInt32 bounds.sizeLowerBound ∨ chunkSize > toUInt32 bounds.sizeUpperBound ∨
        (chunkNewSize > 0 ∧ chunkNewSize > bounds.sizeUpperBound) ∨
        (chunkNewSize ≤ 0 ∧ -chunkNewSize < bounds.sizeLowerBound) then
      .error (.blockError ("invalid sizeBounds for chunk [" ++ chunkName id ++ "]"))
    else .ok ()
  | .error (.outOfRange _) =>
    .error (.blockError ("missing sizeBounds for chunk [" ++ chunkName id ++ "]"))
  | .error e => .error e

/-- Only the bounds of a resizable chunk are checked. -/
def checkResizable (index : ChunkIndex) (id : FullID) (chunkSize : Nat)
    (offset chunkNewSize : Int) :
    Except Exn Unit :=
  if offset = -1 then index.checkBounds id chunkSize chunkNewSize else .ok ()

/-- The body of the inner loop of `buildModifier`. -/
def buildChunk (index : ChunkIndex) (heap : Heap) (id : FullID)
    (blocks : List (Int × AccessBlockInfo)) :
    Except Exn (ChunkInfo AccessBlock) := do
  let ptr ← getChunk index.chunkIndex id
  let (offset, info) ← vecGet blocks 0
  let (resizingType, chunkNewSize) ← resizing offset info.size
  index.checkResizable id (heap ptr).getsize offset chunkNewSize
  ChunkInfo.new ptr (heap ptr) resizingType (toUInt32 chunkNewSize) blocks

/-- The body of the outer loop of `buildModifier`. -/
def buildChunkMap (index : ChunkIndex) (heap : Heap) (appID : LongID)
    (chunkMap : OrderedStaticMap LongLongID BlockMap) :
    Except Exn (OrderedStaticMap LongLongID (ChunkInfo AccessBlock)) := do
  let chunkInfoList ← chunkMap.entries.mapM fun (localID, blocks) =>
    index.buildChunk heap (toLex (appID, localID)) blocks.entries
  OrderedStaticMap.mk? chunkMap.keys chunkInfoList

/-- `buildModifier` -/
def buildModifier (index : ChunkIndex) (heap : Heap) (rawAccessMap : AccessMapType) :
    Except Exn (RestrictedModifier AccessBlock) := do
  let chunkMapList ← rawAccessMap.entries.mapM fun (appID, chunkMap) =>
    index.buildChunkMap heap appID chunkMap
  let appsAccessMaps ← OrderedStaticMap.mk? rawAccessMap.keys chunkMapList
  .ok { appsAccessMaps }

/-- The chunks of an access map in the order of the loops, each with its blocks. -/
def chunkEntries (rawAccessMap : AccessMapType) : List (FullID × List (Int × AccessBlockInfo)) :=
  rawAccessMap.entries.flatMap fun (appID, chunkMap) =>
    chunkMap.entries.map fun (localID, blocks) => (toLex (appID, localID), blocks.entries)

end ChunkIndex
end Argennon
