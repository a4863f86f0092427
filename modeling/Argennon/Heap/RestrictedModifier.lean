import Argennon.Heap.AccessBlock

/- `RestrictedModifier` (`ascee/heap/RestrictedModifier.h`,
   `ascee/heap/RestrictedModifier.cpp`): the only way a request reads and writes the
   heap.

   A chunk pointer is the identifier of the chunk in the heap; a pointer into the
   modifier's own tables is a position in them. Every operation gets the heap as it
   stands and returns its result with the modifier it leaves, also when it throws. A
   null pointer that is followed is the exception `undefined`.

   The definitions are written over any type of blocks with the four block operations
   (`HeapBlock`). The modifier of the source is `RestrictedModifier AccessBlock`; a
   second block type gives the reference modifier its rollback is compared with. -/
namespace Argennon

/-- The block operations the modifier uses. An operation on bytes gets the bytes at
the block's heap location. -/
class HeapBlock (B : Type) where
  size : B → Nat
  heapLocation : B → Nat
  accessType : B → Access
  read : B → List Byte → (version index n : Nat) → Except Exn (List Byte) × B
  write : B → List Byte → (version index : Nat) → List Byte → Except Exn Unit × B
  addInt : B → (version n value : Nat) → Except Exn Unit × B
  wrToHeap : B → Chunk → (version maxWriteSize : Nat) → Except Exn Chunk

instance : HeapBlock AccessBlock where
  size := AccessBlock.size
  heapLocation := AccessBlock.heapLocation
  accessType := AccessBlock.accessType
  read := AccessBlock.read
  write := AccessBlock.write
  addInt := AccessBlock.addInt
  wrToHeap := AccessBlock.wrToHeap

/-- `ChunkInfo::ResizingType` -/
inductive ResizingType where
  | expandable | shrinkable | read_only | non_accessible
  deriving DecidableEq, Repr

/-- Whether the type allows a change of the chunk size. -/
def ResizingType.resizable (r : ResizingType) : Bool := r == .expandable || r == .shrinkable

/-- `ChunkInfo`; `initialSize` is `none` until the chunk size is first used. -/
structure ChunkInfo (B : Type) where
  accessTable : OrderedStaticMap Nat B
  ptr : FullID
  resizing : ResizingType
  sizeBound : Nat
  size : B
  initialSize : Option Nat := none

/-- `toAccessBlocks`: the blocks at the offsets that are not negative. -/
def toAccessBlocks (chunk : Chunk) :
    List (Int × AccessBlockInfo) → Except Exn (List (Nat × AccessBlock))
  | [] => .ok []
  | (offset, info) :: rest =>
    if info.accessType.mayWrite && !chunk.isWritable then
      .error (.blockError "trying to modify a readonly chunk")
    else if 0 ≤ offset then do
      let heapLocation ← chunk.getContentPointer offset.toNat (toUInt32 info.size)
      let block ← AccessBlock.new heapLocation (toUInt32 info.size) info.accessType
      let blocks ← toAccessBlocks chunk rest
      .ok ((offset.toNat, block) :: blocks)
    else toAccessBlocks chunk rest

/-- The constructor of `ChunkInfo`. -/
def ChunkInfo.new (ptr : FullID) (chunk : Chunk) (resizing : ResizingType) (sizeBound : Nat)
    (accessInfoList : List (Int × AccessBlockInfo)) : Except Exn (ChunkInfo AccessBlock) := do
  let blocks ← toAccessBlocks chunk accessInfoList
  if sizeBound ≤ maxChunkSize then
    .ok { accessTable := ⟨blocks.map Prod.fst, blocks.map Prod.snd, by simp⟩
          ptr
          resizing
          sizeBound
          size :=
            { heapLocation := 0
              size := 4
              accessType := if resizing.resizable then .writable else .read_only } }
  else .error (.assertion "sizeBound <= max_chunk_size")

/-- Replacing the value at a position. -/
def OrderedStaticMap.setValue {K V : Type} (m : OrderedStaticMap K V) (i : Nat) (v : V) :
    OrderedStaticMap K V :=
  { m with values := m.values.set i v, size_eq := by rw [List.length_set]; exact m.size_eq }

/-- The operations on the current chunk: `load`, `store`, `addInt`, `isValid`,
`getChunkSize`, `updateChunkSize`. -/
inductive ChunkOp where
  | load (offset index n : Nat)
  | store (offset index : Nat) (value : List Byte)
  | addInt (offset n value : Nat)
  | isValid (offset size : Nat)
  | getChunkSize
  | updateChunkSize (newSize : Nat)
  deriving DecidableEq

/-- What an operation returns. -/
inductive Value where
  | unit | bytes (content : List Byte) | bool (b : Bool) | number (n : Nat)
  deriving DecidableEq

namespace ChunkInfo
variable {B : Type} [HeapBlock B]

/-- `sizeBlock`: takes the chunk size on first use. -/
def sizeBlock (c : ChunkInfo B) (chunk : Chunk) : ChunkInfo B :=
  { c with initialSize := some (c.initialSize.getD chunk.getsize) }

/-- The bytes of `initialSize`, the heap location of the size block. -/
def sizeBase (c : ChunkInfo B) : List Byte := leBytes 4 (c.initialSize.getD 0)

/-- `sizeBlock().read<uint32>(version, 0)` -/
def readSize (c : ChunkInfo B) (chunk : Chunk) (version : Nat) : Except Exn Nat × ChunkInfo B :=
  let c := c.sizeBlock chunk
  let (r, b) := HeapBlock.read c.size c.sizeBase version 0 4
  (r.map leNat, { c with size := b })

/-- `sizeBlock().write(version, 0, newSize)` -/
def writeSize (c : ChunkInfo B) (chunk : Chunk) (version newSize : Nat) :
    Except Exn Unit × ChunkInfo B :=
  let c := c.sizeBlock chunk
  let (r, b) := HeapBlock.write c.size c.sizeBase version 0 (leBytes 4 newSize)
  (r, { c with size := b })

/-- `getAccessBlock` on a loaded chunk: the position of the block and the block. -/
def getAccessBlock (c : ChunkInfo B) (offset : Nat) : Except Exn (Nat × B) :=
  match OrderedStaticMap.find c.accessTable.keys offset with
  | .ok k => (vecGet c.accessTable.values k).map fun b => (k, b)
  | .error (.outOfRange _) =>
    .error (.outOfRange ("no access block is defined at offset: " ++ toString offset))
  | .error e => .error e

/-- An operation on the block at `offset`. -/
def onBlock {α : Type} (c : ChunkInfo B) (chunk : Chunk) (offset : Nat)
    (f : B → List Byte → Except Exn α × B) : Except Exn α × ChunkInfo B :=
  match c.getAccessBlock offset with
  | .error e => (.error e, c)
  | .ok (k, b) =>
    let (r, b') := f b (readAt chunk.content (HeapBlock.heapLocation b) (HeapBlock.size b))
    (r, { c with accessTable := c.accessTable.setValue k b' })

/-- `AccessBlock::defined` -/
def defined (b : B) (requiredSize : Nat) : Bool :=
  requiredSize ≤ HeapBlock.size b && !(HeapBlock.accessType b).denies .check

/-- `isValid` -/
def isValid (c : ChunkInfo B) (chunk : Chunk) (version offset size : Nat) :
    Except Exn Bool × ChunkInfo B :=
  match c.getAccessBlock offset with
  | .error e => (.error e, c)
  | .ok (_, b) =>
    if defined b size then
      let (r, c) := c.readSize chunk version
      (r.map fun chunkSize => decide (offset + size ≤ chunkSize), c)
    else (.error (.outOfRange "isValid: access block not defined"), c)

/-- `getChunkSize` -/
def getChunkSize (c : ChunkInfo B) (chunk : Chunk) (version : Nat) : Except Exn Nat × ChunkInfo B :=
  if c.resizing = .non_accessible then (.error (.outOfRange "chunkSize is not accessible"), c)
  else c.readSize chunk version

/-- `updateChunkSize` -/
def updateChunkSize (c : ChunkInfo B) (chunk : Chunk) (version newSize : Nat) :
    Except Exn Unit × ChunkInfo B :=
  match c.readSize chunk version with
  | (.error e, c) => (.error e, c)
  | (.ok oldSize, c) =>
    if newSize = oldSize then (.ok (), c)
    else match c.resizing with
      | .expandable =>
        if newSize < oldSize ∨ newSize > c.sizeBound then
          (.error (.outOfRange "invalid chunk size for expanding"), c)
        else c.writeSize chunk version newSize
      | .shrinkable =>
        if newSize > oldSize ∨ newSize < c.sizeBound then
          (.error (.outOfRange "invalid chunk size for shrinking"), c)
        else c.writeSize chunk version newSize
      | .read_only | .non_accessible => (.error (.outOfRange "chunk is not resizable"), c)

/-- An operation on the current chunk. -/
def exec (c : ChunkInfo B) (chunk : Chunk) (version : Nat) :
    ChunkOp → Except Exn Value × ChunkInfo B
  | .load offset index n =>
    let (r, c) := c.onBlock chunk offset fun b base => HeapBlock.read b base version index n
    (r.map .bytes, c)
  | .store offset index value =>
    let (r, c) := c.onBlock chunk offset fun b base => HeapBlock.write b base version index value
    (r.map fun _ => .unit, c)
  | .addInt offset n value =>
    let (r, c) := c.onBlock chunk offset fun b _ => HeapBlock.addInt b version n value
    (r.map fun _ => .unit, c)
  | .isValid offset size =>
    let (r, c) := c.isValid chunk version offset size
    (r.map .bool, c)
  | .getChunkSize =>
    let (r, c) := c.getChunkSize chunk version
    (r.map .number, c)
  | .updateChunkSize newSize =>
    let (r, c) := c.updateChunkSize chunk version newSize
    (r.map fun _ => .unit, c)

/-- The loop of `writeToHeap` over the blocks of a chunk, sorted by offset. -/
def writeBlocks (version chunkSize : Nat) : List (Nat × B) → Chunk → Except Exn Chunk
  | [], chunk => .ok chunk
  | (offset, b) :: rest, chunk =>
    if offset ≥ chunkSize then .ok chunk
    else do
      -- never outside the chunk
      let chunk ← HeapBlock.wrToHeap b chunk version (chunkSize - offset)
      writeBlocks version chunkSize rest chunk

/-- The change of size, for a chunk that may be resized. -/
def resizeTo (c : ChunkInfo B) (chunk : Chunk) (chunkSize : Nat) : Except Exn Chunk :=
  if c.resizing.resizable then chunk.setSize chunkSize else .ok chunk

/-- The body of `writeToHeap` for one chunk. -/
def writeToHeap (c : ChunkInfo B) (version : Nat) (chunk : Chunk) : Except Exn Chunk := do
  let chunkSize ← (c.readSize chunk version).1
  let chunk ← c.resizeTo chunk chunkSize
  if chunkSize > 0 ∧ chunk.isWritable then
    writeBlocks version chunkSize c.accessTable.entries chunk
  else .ok chunk

end ChunkInfo

/-- `RestrictedModifier::AppMap` -/
abbrev AppMap (B : Type) := OrderedStaticMap LongID (OrderedStaticMap LongLongID (ChunkInfo B))

namespace AppMap
variable {B : Type}

/-- The chunk at a position: of the application and inside it. -/
def get (m : AppMap B) (p : Nat × Nat) : Option (ChunkInfo B) := do
  let chunkMap ← m.values[p.1]?
  chunkMap.values[p.2]?

def set (m : AppMap B) (p : Nat × Nat) (c : ChunkInfo B) : AppMap B :=
  match m.values[p.1]? with
  | none => m
  | some chunkMap => m.setValue p.1 (chunkMap.setValue p.2 c)

/-- All chunks in the order of the maps. -/
def chunkInfos (m : AppMap B) : List (ChunkInfo B) := m.values.flatMap (·.values)

end AppMap

/-- `RestrictedModifier` -/
structure RestrictedModifier (B : Type) where
  currentVersion : Nat := 0
  currentChunk : Option (Nat × Nat) := none
  chunks : Option Nat := none
  appsAccessMaps : AppMap B

/-- The operations of a modifier. -/
inductive Op where
  | loadContext (appID : LongID)
  | loadChunk (accountID localID : LongID)
  | access (op : ChunkOp)
  | saveVersion
  | restoreVersion (version : Nat)
  deriving DecidableEq

/-- `MAX_VERSION` -/
def maxVersion : Nat := 30000

namespace RestrictedModifier
variable {B : Type}

/-- `loadContext`: an application that is not in the map leaves a null pointer. -/
def loadContext (m : RestrictedModifier B) (appID : LongID) : RestrictedModifier B :=
  { m with
    chunks := (OrderedStaticMap.find m.appsAccessMaps.keys appID).toOption
    currentChunk := none }

/-- `loadChunk` -/
def loadChunk (m : RestrictedModifier B) (accountID localID : LongID) :
    Except Exn Unit × RestrictedModifier B :=
  match m.chunks.bind (fun i => (m.appsAccessMaps.values[i]?).map fun chunkMap =>
    (i, chunkMap)) with
  | none => (.error .undefined, m)
  | some (i, chunkMap) =>
    match OrderedStaticMap.find chunkMap.keys (toLex (accountID, localID)) with
    | .ok j => (.ok (), { m with currentChunk := some (i, j) })
    | .error (.outOfRange _) =>
      (.error (.outOfRange ("chunk[" ++ LongID.toString accountID ++ "." ++
        LongID.toString localID ++
        "] is not defined")), m)
    | .error e => (.error e, m)

/-- `saveVersion` -/
def saveVersion (m : RestrictedModifier B) : Except Exn Nat × RestrictedModifier B :=
  if m.currentVersion =
    maxVersion then (.error (.asceeError "version limit reached" .limit_exceeded), m)
  else (.ok m.currentVersion, { m with currentVersion := m.currentVersion + 1 })

/-- `restoreVersion` -/
def restoreVersion (m : RestrictedModifier B) (version : Nat) :
    Except Exn Unit × RestrictedModifier B :=
  if version < m.currentVersion then (.ok (), { m with currentVersion := version })
  else (.error (.assertion "version < currentVersion && version >= 0"), m)

variable [HeapBlock B]

/-- How an operation fails when no chunk is loaded: `getAccessBlock` checks for it,
the two operations on the chunk size follow the null pointer. -/
def notLoaded : ChunkOp → Exn
  | .getChunkSize | .updateChunkSize _ => .undefined
  | _ => .outOfRange "chunk is not loaded"

/-- An operation on the current chunk. -/
def access (m : RestrictedModifier B) (heap : Heap) (op : ChunkOp) :
    Except Exn Value × RestrictedModifier B :=
  match m.currentChunk with
  | none => (.error (notLoaded op), m)
  | some p =>
    match m.appsAccessMaps.get p with
    | none => (.error .undefined, m)
    | some c =>
      let (r, c') := c.exec (heap c.ptr) m.currentVersion op
      (r, { m with appsAccessMaps := m.appsAccessMaps.set p c' })

/-- One operation. -/
def exec (heap : Heap) (m : RestrictedModifier B) : Op → Except Exn Value × RestrictedModifier B
  | .loadContext appID => (.ok .unit, m.loadContext appID)
  | .loadChunk accountID localID =>
    let (r, m) := m.loadChunk accountID localID
    (r.map fun _ => .unit, m)
  | .access op => m.access heap op
  | .saveVersion =>
    let (r, m) := m.saveVersion
    (r.map .number, m)
  | .restoreVersion version =>
    let (r, m) := m.restoreVersion version
    (r.map fun _ => .unit, m)

/-- A sequence of operations: the results, and the modifier at the end. -/
def run (heap : Heap) (m : RestrictedModifier B) :
    List Op → List (Except Exn Value) × RestrictedModifier B
  | [] => ([], m)
  | op :: ops =>
    let (r, m) := m.exec heap op
    let (rs, m) := m.run heap ops
    (r :: rs, m)

/-- The loop of `writeToHeap` over the chunks. -/
def writeChunks (version : Nat) : List (ChunkInfo B) → Heap → Except Exn Heap
  | [], heap => .ok heap
  | c :: rest, heap => do
    let chunk ← c.writeToHeap version (heap c.ptr)
    writeChunks version rest (Function.update heap c.ptr chunk)

/-- `writeToHeap` -/
def writeToHeap (m : RestrictedModifier B) (heap : Heap) : Except Exn Heap :=
  if m.currentVersion = 0 then .ok heap
  else writeChunks m.currentVersion m.appsAccessMaps.chunkInfos heap

end RestrictedModifier
end Argennon
