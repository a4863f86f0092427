import Argennon.Storage.Page
import Argennon.Lib.Holdings

/- `PageCache::preparePages` (`storage/PageCache.cpp`). What matters of a chunk is which page owns
   it, so a page holds pointers. The loader gives empty deltas (`PageLoader::getDelta`), which leave
   a page as it is. -/
namespace Argennon.Asa

/-- `Chunk*` -/
abbrev ChunkPtr := Nat

/-- `MigrationInfo` -/
structure MigrationInfo where
  chunkIndex : Int
  fromIndex : Int
  toIndex : Int

/-- `PageCache`: the identifiers of the pages in the cache, and the pages. No chunk is allocated
from `next` on. -/
structure PageCache where
  ids : Finset VarLenFullID
  page : VarLenFullID → Page ChunkPtr
  next : ChunkPtr

namespace PageCache

/-- `cache.try_emplace(pageID, block.blockNumber)`: a new page has a new native chunk. -/
def tryEmplace (blockNumber : Int) (cache : PageCache) (pageID : VarLenFullID) : PageCache :=
  if pageID ∈ cache.ids then cache
  else
    { ids := insert pageID cache.ids
      page := Function.update cache.page pageID
        { version := blockNumber, native := cache.next, migrants := [] }
      next := cache.next + 1 }

/-- A page of the cache is modified. -/
def setPage (cache : PageCache) (id : VarLenFullID) (page : Page ChunkPtr) : PageCache :=
  { cache with page := Function.update cache.page id page }

end PageCache

/-- `v.at(index)`: a negative index is past the end when it is converted. -/
def vecAt {α : Type} (v : List α) (index : Int) : Except Exn α :=
  if h : 0 ≤ index ∧ index.toNat < v.length then .ok v[index.toNat]
  else .error (.outOfRange "vector::_M_range_check")

/-- What the loop over the migrations modifies: the pages, and the list `pageAccessList`. -/
structure Migrating where
  cache : PageCache
  pageAccessList : List VarLenFullID

/-- The identifier that `std::move` leaves. -/
def VarLenFullID.moved : VarLenFullID := ⟨[]⟩

/-- One migration. `result` has the pages in the order of the access list. The native chunk of the
page is given to the other page by its pointer. -/
def migrate (result : List VarLenFullID) (s : Migrating) (migration : MigrationInfo) :
    Migrating × Except Exn Unit :=
  match vecAt result migration.fromIndex, vecAt result migration.toIndex with
  | .error e, _ => (s, .error e)
  | .ok _, .error e => (s, .error e)
  | .ok source, .ok target =>
    if migration.chunkIndex = -1 then
      let id := s.pageAccessList.getD migration.fromIndex.toNat VarLenFullID.moved
      let migrant : Migrant ChunkPtr := ⟨id, (s.cache.page source).native⟩
      ({ cache := s.cache.setPage target ((s.cache.page target).addMigrant migrant)
         pageAccessList := s.pageAccessList.set migration.fromIndex.toNat VarLenFullID.moved },
           .ok ())
    else match (s.cache.page source).extractMigrant migration.chunkIndex with
      | .error e => (s, .error e)
      | .ok (migrant, page) =>
        let cache := s.cache.setPage source page
        ({ s with cache := cache.setPage target ((cache.page target).addMigrant migrant) }, .ok ())

/-- The loop over the migrations, with what it has done when it throws. -/
def migrateAll (result : List VarLenFullID) :
    Migrating → List MigrationInfo → Migrating × Except Exn Unit
  | s, [] => (s, .ok ())
  | s, migration :: chunkMigrations =>
    match migrate result s migration with
    | (s, .error e) => (s, .error e)
    | (s, .ok _) => migrateAll result s chunkMigrations

namespace PageCache

/-- The pages of the access list are in the cache. -/
def emplaceAll (cache : PageCache) (blockNumber : Int) (pageAccessList : List VarLenFullID) :
    PageCache :=
  pageAccessList.foldl (tryEmplace blockNumber) cache

/-- `preparePages`: the cache, and the pages of the access list. -/
def preparePages (cache : PageCache) (blockNumber : Int) (pageAccessList : List VarLenFullID)
    (chunkMigrations : List MigrationInfo) :
    PageCache × Except Exn (List VarLenFullID) :=
  let result := pageAccessList
  match migrateAll result ⟨cache.emplaceAll blockNumber pageAccessList,
    pageAccessList⟩ chunkMigrations with
  | (s, .error e) => (s.cache, .error e)
  | (s, .ok _) => (s.cache, .ok result)

end PageCache

end Argennon.Asa
