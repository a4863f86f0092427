import Argennon.Heap.ChunkDelta

/- Pages of the storage (`storage/Page.h`, `storage/Page.cpp`) with their identifiers
   (`core/tries.hpp`).

   What a page holds for a chunk is a parameter: the chunk itself where its content matters, a
   pointer where its owner does. What `applyDelta` does to a page stays when it throws, so a call
   gives the page beside its result. -/
namespace Argennon

/-- `app_trie_g` -/
def appTrie : PrefixTrie 8 3 := PrefixTrie.tables 8 3 fun i => [0xa0, 0xc000, 0xd00000].getD i 0

/-- `account_trie_g` -/
def accountTrie : PrefixTrie 8 3 := PrefixTrie.tables 8 3 fun i => [0x60, 0xd000, 0xe00000].getD i 0

/-- `local_trie_g` -/
def localTrie : PrefixTrie 8 3 := PrefixTrie.tables 8 3 fun i => [0xc0, 0xe000, 0xf00000].getD i 0

/-- `VarLenFullID`: the bytes of the identifier. -/
structure VarLenFullID where
  binary : List Byte
  deriving DecidableEq, Repr

/-- `VarLenFullID(binary, end)`: the identifier, and the bytes from the pointer to the end. -/
def VarLenFullID.read (binary : List Byte) : Except Exn (VarLenFullID × List Byte) := do
  let (_, reader) ← appTrie.readPrefixCodeAt binary
  let (_, reader) ← accountTrie.readPrefixCodeAt reader
  let (_, reader) ← localTrie.readPrefixCodeAt reader
  .ok (⟨binary.take (binary.length - reader.length)⟩, reader)

/-- `VarLenFullID::operator std::string` -/
def VarLenFullID.toString (id : VarLenFullID) : String :=
  id.binary.foldl (fun s b => s ++ String.ofList (Nat.toDigits 16 b.toNat)) "0x"

namespace Asa

/-- `Page::Migrant` -/
structure Migrant (γ : Type) where
  id : VarLenFullID
  chunk : γ

/-- `Page` -/
@[ext]
structure Page (γ : Type) where
  version : Int
  native : γ
  migrants : List (Migrant γ)

/-- `Page::Delta` -/
structure Delta (D : Type) where
  content : List Byte
  finalDigest : D

/-- `DigestCalculator`: the digest of a chunk from its size and its bytes in use, and the digest of
a page from the identifiers and digests of its chunks. -/
structure DigestCalculator (D : Type) where
  chunk : Nat → List Byte → D
  keys : List (VarLenFullID × D) → D

/-- `Chunk::calculateDigest` -/
def calculateDigest {D : Type} (calculator : DigestCalculator D) (c : Chunk) : D :=
  calculator.chunk c.chunkSize (c.content.take c.chunkSize)

namespace Page

/-- `extractMigrant`: the migrant and the page without it. A negative index is past the end when it
is converted. -/
def extractMigrant {γ : Type} (page : Page γ) (index : Int) : Except Exn (Migrant γ × Page γ) :=
  if h : 0 ≤ index ∧ index.toNat < page.migrants.length then
    .ok (page.migrants[index.toNat], { page with migrants := page.migrants.eraseIdx index.toNat })
  else .error (.blockError ("invalid migrant index: " ++ toString index))

/-- `addMigrant` -/
def addMigrant {γ : Type} (page : Page γ) (m : Migrant γ) : Page γ :=
  { page with migrants := page.migrants ++ [m] }

/-- The start of a round of the loop over the identifiers: the index and the identifier to set, if
the loop goes on. The index `count` is that of a new migrant. The test of `*reader` is undefined at
the end. -/
def nextID (count : Nat) (index : Int) (reader : List Byte) :
    Except Exn (Option (Nat × VarLenFullID) × List Byte) := do
  let (indexDiff, reader) ← varUIntTrie.decodeVarUIntAt reader
  if indexDiff = 0 then .ok (none, reader)
  else
    let index := (index + indexDiff).toNat
    if index = count then
      let (id, reader) ← VarLenFullID.read reader
      .ok (some (index, id), reader)
    else if reader = [] then .error .undefined
    else if reader.head? = some 0 then .error (.runtimeError "chunk removal not implemented")
    else
      let (id, reader) ← VarLenFullID.read reader
      if index < count then .ok (some (index, id), reader)
      else .error (.outOfRange "vector::_M_range_check")

/-- `emplace_back`, or the assignment of the identifier. -/
def setID (migrants : List (Migrant Chunk)) (index : Nat) (id : VarLenFullID) :
    List (Migrant Chunk) :=
  if index = migrants.length then migrants ++ [⟨id, .empty⟩] else migrants.modify index fun m =>
    { m with id }

/-- The loop over the identifiers, for as many rounds as there can be:
a round reads at least one byte. -/
def applyIDs : Nat → Int → List (Migrant Chunk) → List Byte → List (Migrant Chunk) ×
    Except Exn (List Byte)
  | 0, _, migrants, _ => (migrants, .error (.outOfRange "readPrefixCode: invalid identifier"))
  | n + 1, index, migrants, reader =>
    match nextID migrants.length index reader with
    | .error e => (migrants, .error e)
    | .ok (none, reader) => (migrants, .ok reader)
    | .ok (some (index, id), reader) => applyIDs n index (setID migrants index id) reader

/-- The loop over the chunks of the migrants. -/
def applyMigrants : List (Migrant Chunk) → List Byte → List (Migrant Chunk) × Except Exn (List Byte)
  | [], reader => ([], .ok reader)
  | m :: migrants, reader =>
    match m.chunk.applyDelta reader with
    | (chunk, .error e) => ({ m with chunk } :: migrants, .error e)
    | (chunk, .ok reader) =>
      let (migrants, result) := applyMigrants migrants reader
      ({ m with chunk } :: migrants, result)

variable {D : Type} [DecidableEq D]

/-- The digest of the chunks of a page. -/
def keysDigest (calculator : DigestCalculator D) (pageID : VarLenFullID) (page : Page Chunk) : D :=
  calculator.keys ((pageID, calculateDigest calculator page.native) :: page.migrants.map fun m =>
    (m.id, calculateDigest calculator m.chunk))

/-- `applyDelta` -/
def applyDelta (calculator : DigestCalculator D) (page : Page Chunk) (pageID : VarLenFullID)
    (delta : Delta D) (blockNumber : Int) :
    Page Chunk × Except Exn Unit :=
  if delta.content = [] then (page, .ok ())
  else match applyIDs delta.content.length (-1) page.migrants delta.content with
    | (migrants, .error e) => ({ page with migrants }, .error e)
    | (migrants, .ok reader) =>
      match page.native.applyDelta reader with
      | (native, .error e) => ({ page with native, migrants }, .error e)
      | (native, .ok reader) =>
        match applyMigrants migrants reader with
        | (migrants, .error e) => ({ page with native, migrants }, .error e)
        | (migrants, .ok _) =>
          let page := { page with native, migrants }
          if keysDigest calculator pageID page ≠ delta.finalDigest then
            (page, .error (.invalidArgument ("final digest of page[" ++ pageID.toString ++
              "] is not valid")))
          else if blockNumber ≥ page.version then ({ page with version := blockNumber }, .ok ())
          else (page, .error (.assertion "blockNumber >= version"))

end Page

/-- `PageLoader::updatePage`, for so many tries: `getDelta` is asked for a delta
from the block of the page. -/
def updatePage {D : Type} [DecidableEq D] (calculator : DigestCalculator D) (pageID : VarLenFullID)
    (getDelta : Int → Nat → Delta D)
    (blockNumber : Int) : Nat → Nat → Page Chunk → Page Chunk × Except Exn Unit
  | 0, _, page => (page, .error .outOfFuel)
  | n + 1, tries, page =>
    match page.applyDelta calculator pageID (getDelta page.version tries) blockNumber with
    | (page, .error (.invalidArgument _)) =>
      updatePage calculator pageID getDelta blockNumber n (tries + 1) page
    | result => result

end Asa

end Argennon
