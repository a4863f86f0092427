import Argennon.Storage.PageCache

/- Migrations move chunks between the pages of a cache. A migrant is moved; a native chunk is given
   to the other page by a pointer that its own page keeps, so that two pages own it. -/
namespace Argennon.Asa
open Holdings

/-! ## Owners -/

/-- The identifiers and the chunks of a page. -/
def Page.pairs (id : VarLenFullID) (page : Page ChunkPtr) : Multiset (VarLenFullID × ChunkPtr) :=
  (id, page.native) ::ₘ ↑(page.migrants.map fun m => (m.id, m.chunk))

/-- The identifiers and the chunks of all pages. -/
def PageCache.pairs (cache : PageCache) : Multiset (VarLenFullID × ChunkPtr) :=
  total cache.ids fun id => (cache.page id).pairs id

/-- The chunks that pages own, as often as they are owned. -/
def PageCache.owned (cache : PageCache) : Multiset ChunkPtr := cache.pairs.map Prod.snd

/-- No chunk has two owners, and no chunk is allocated from `next` on. -/
structure PageCache.OwnsOnce (cache : PageCache) : Prop where
  nodup : cache.owned.Nodup
  lt_next : ∀ ptr ∈ cache.owned, ptr < cache.next

theorem pairs_update (page : VarLenFullID → Page ChunkPtr) (id : VarLenFullID) (p : Page ChunkPtr) :
    (fun i => (Function.update page id p i).pairs i) =
    Function.update (fun i => (page i).pairs i) id (p.pairs id) := by
  funext i
  exact Function.apply_update (fun i (p : Page ChunkPtr) => p.pairs i) page id p i

theorem Page.pairs_addMigrant (id : VarLenFullID) (page : Page ChunkPtr) (m : Migrant ChunkPtr) :
    (page.addMigrant m).pairs id = (m.id, m.chunk) ::ₘ page.pairs id := by
  unfold Page.pairs Page.addMigrant
  dsimp only
  rw [List.map_append, List.map_singleton, ← Multiset.coe_add, Multiset.coe_singleton,
    Multiset.cons_swap, add_comm,
    Multiset.singleton_add]

theorem Page.extractMigrant_ok {page page' : Page ChunkPtr} {index : Int} {m : Migrant ChunkPtr}
    (h : page.extractMigrant index = .ok (m, page')) (id : VarLenFullID) :
    page.pairs id = (m.id, m.chunk) ::ₘ page'.pairs id := by
  unfold Page.extractMigrant at h
  split at h
  · rename_i hin
    obtain ⟨rfl, rfl⟩ := Prod.mk.inj (Except.ok.inj h)
    have hperm := (List.getElem_cons_eraseIdx_perm hin.2).map fun m : Migrant ChunkPtr =>
      (m.id, m.chunk)
    unfold Page.pairs
    rw [Multiset.cons_swap]
    congr 1
    exact (Multiset.coe_eq_coe.mpr hperm).symm
  · cases h

theorem Page.extractMigrant_error {page : Page ChunkPtr} {index : Int} {e : Exn}
    (h : page.extractMigrant index = .error e) :
    e.IsBlockError := by
  unfold Page.extractMigrant at h
  split at h
  · cases h
  · obtain rfl := Except.error.inj h
    trivial

namespace PageCache
variable {cache : PageCache} {id : VarLenFullID}

/-- A migrant is added to a page. -/
theorem pairs_give (h : id ∈ cache.ids) (m : Migrant ChunkPtr) :
    (cache.setPage id ((cache.page id).addMigrant m)).pairs = (m.id, m.chunk) ::ₘ cache.pairs := by
  unfold setPage pairs
  rw [pairs_update, Page.pairs_addMigrant]
  exact total_give h

/-- A migrant is taken from a page. -/
theorem pairs_take (h : id ∈ cache.ids) {index : Int} {m : Migrant ChunkPtr} {page : Page ChunkPtr}
    (hextract : (cache.page id).extractMigrant index = .ok (m, page)) :
    (m.id, m.chunk) ::ₘ (cache.setPage id page).pairs = cache.pairs := by
  unfold setPage pairs
  rw [pairs_update]
  exact total_take h (Page.extractMigrant_ok hextract id)

theorem native_mem_owned (h : id ∈ cache.ids) : (cache.page id).native ∈ cache.owned :=
  Multiset.mem_map.mpr ⟨(id, (cache.page id).native), mem_total h (Multiset.mem_cons_self _ _), rfl⟩

theorem tryEmplace_ids (blockNumber : Int) (cache : PageCache) (id : VarLenFullID) :
    (cache.tryEmplace blockNumber id).ids = insert id cache.ids := by
  unfold tryEmplace
  split
  · rename_i h
    exact (Finset.insert_eq_of_mem h).symm
  · rfl

/-- A new page owns a new chunk. -/
theorem OwnsOnce.tryEmplace (h : cache.OwnsOnce) (blockNumber : Int) (id : VarLenFullID) :
    (cache.tryEmplace blockNumber id).OwnsOnce := by
  unfold PageCache.tryEmplace
  split
  · exact h
  · rename_i hnew
    have howned : owned { ids := insert id cache.ids
                          page := Function.update cache.page id
                            { version := blockNumber, native := cache.next, migrants := [] }
                          next := cache.next + 1 } = cache.next ::ₘ cache.owned := by
      unfold owned pairs
      rw [pairs_update, total_insert hnew, Multiset.map_add]
      rfl
    constructor
    · rw [howned]
      exact Multiset.nodup_cons.mpr ⟨fun hmem => Nat.lt_irrefl _ (h.lt_next _ hmem), h.nodup⟩
    · intro ptr hptr
      rw [howned] at hptr
      obtain rfl | hptr := Multiset.mem_cons.mp hptr
      · exact Nat.lt_succ_self _
      · exact Nat.lt_succ_of_lt (h.lt_next ptr hptr)

theorem OwnsOnce.emplaceAll (blockNumber : Int) :
    ∀ {pageAccessList : List VarLenFullID} {cache : PageCache}, cache.OwnsOnce →
    (cache.emplaceAll blockNumber pageAccessList).OwnsOnce
  | [], _, h => h
  | id :: pageAccessList, cache, h => by
    change ((cache.tryEmplace blockNumber id).emplaceAll blockNumber pageAccessList).OwnsOnce
    exact OwnsOnce.emplaceAll blockNumber (h.tryEmplace blockNumber id)

theorem emplaceAll_ids (blockNumber : Int) :
    ∀ {pageAccessList : List VarLenFullID} {cache : PageCache} {id : VarLenFullID},
    id ∈ (cache.emplaceAll blockNumber pageAccessList).ids ↔ id ∈ pageAccessList ∨ id ∈ cache.ids
  | [], _, _ => by simp [emplaceAll]
  | first :: pageAccessList, cache, id => by
    have hrest : id ∈ ((cache.tryEmplace blockNumber first).emplaceAll blockNumber
        pageAccessList).ids ↔ _ :=
      emplaceAll_ids blockNumber
    rw [tryEmplace_ids, Finset.mem_insert] at hrest
    rw [List.mem_cons, or_assoc, or_left_comm]
    exact hrest

end PageCache

/-! ## One migration -/

section
variable {result : List VarLenFullID} {s s' : Migrating} {migration : MigrationInfo}

theorem vecAt_ok {α : Type} {v : List α} {index : Int} {a : α}
    (h : vecAt v index = .ok a) : a ∈ v := by
  unfold vecAt at h
  split at h
  · obtain rfl := Except.ok.inj h
    exact List.getElem_mem _
  · cases h

/-- What a migration that succeeds has done. -/
theorem migrate_ok (h : migrate result s migration = (s', .ok ())) :
    ∃ source target, vecAt result migration.fromIndex = .ok source ∧
      vecAt result migration.toIndex = .ok target ∧
      (migration.chunkIndex = -1 ∧
        (∃ id, s'.cache = s.cache.setPage target
          ((s.cache.page target).addMigrant ⟨id, (s.cache.page source).native⟩)) ∨
        migration.chunkIndex ≠ -1 ∧
        ∃ m page, (s.cache.page source).extractMigrant migration.chunkIndex = .ok (m, page) ∧
        s'.cache = (s.cache.setPage source page).setPage target
          (((s.cache.setPage source page).page target).addMigrant m)) := by
  unfold migrate at h
  split at h
  · cases (Prod.mk.inj h).2
  · cases (Prod.mk.inj h).2
  · rename_i source target hsource htarget
    refine ⟨source, target, hsource, htarget, ?_⟩
    split at h
    · rename_i hnative
      obtain ⟨rfl, -⟩ := Prod.mk.inj h
      exact Or.inl ⟨hnative, _, rfl⟩
    · rename_i hnative
      split at h
      · cases (Prod.mk.inj h).2
      · rename_i m page hextract
        obtain ⟨rfl, -⟩ := Prod.mk.inj h
        exact Or.inr ⟨hnative, m, page, hextract, rfl⟩

/-- A migration between pages of the cache. -/
theorem pairs_migrate (hresult : ∀ id ∈ result, id ∈ s.cache.ids)
    (h : migrate result s migration = (s', .ok ())) :
    s'.cache.ids = s.cache.ids ∧
      (migration.chunkIndex ≠ -1 → s'.cache.pairs = s.cache.pairs) ∧
      (migration.chunkIndex = -1 → ∃ source id, source ∈ s.cache.ids ∧
        s'.cache.pairs = (id, (s.cache.page source).native) ::ₘ s.cache.pairs) := by
  obtain ⟨source, target, hsource, htarget, hmove⟩ := migrate_ok h
  have hsource := hresult source (vecAt_ok hsource)
  have htarget := hresult target (vecAt_ok htarget)
  obtain ⟨hnative, id, hcache⟩ | ⟨hnative, m, page, hextract, hcache⟩ := hmove
  · rw [hcache]
    refine ⟨rfl, fun h => absurd hnative h, fun _ => ⟨source, id, hsource, ?_⟩⟩
    exact PageCache.pairs_give htarget _
  · rw [hcache]
    refine ⟨rfl, fun _ => ?_, fun h => absurd h hnative⟩
    have hids : target ∈ (s.cache.setPage source page).ids := htarget
    rw [PageCache.pairs_give hids, PageCache.pairs_take hsource hextract]

/-- Pages that are not named by a migration are left as they are. -/
theorem migrate_frame {id : VarLenFullID} (h : migrate result s migration = (s', .ok ()))
    (hfrom : vecAt result migration.fromIndex ≠ .ok id)
    (hto : vecAt result migration.toIndex ≠ .ok id) : s'.cache.page id = s.cache.page id := by
  obtain ⟨source, target, hsource, htarget, hmove⟩ := migrate_ok h
  have hsource : id ≠ source := fun heq => hfrom (heq ▸ hsource)
  have htarget : id ≠ target := fun heq => hto (heq ▸ htarget)
  obtain ⟨-, _, hcache⟩ | ⟨-, m, page, -, hcache⟩ := hmove
  · rw [hcache]
    exact Function.update_of_ne htarget _ _
  · rw [hcache]
    exact (Function.update_of_ne htarget _ _).trans (Function.update_of_ne hsource _ _)

/-- The migration is that of a migrant, between pages of the list. -/
def Allowed (result : List VarLenFullID) (migration : MigrationInfo) : Prop :=
  migration.chunkIndex ≠ -1 ∧ (∃ source, vecAt result migration.fromIndex = .ok source) ∧
    ∃ target, vecAt result migration.toIndex = .ok target

theorem vecAt_error {α : Type} {v : List α} {index : Int} {e : Exn} (h : vecAt v index = .error e) :
    ¬ e.IsBlockError := by
  unfold vecAt at h
  split at h
  · cases h
  · obtain rfl := Except.error.inj h
    exact id

/-- A migration that throws changes nothing, and it throws a `BlockError` only if it is allowed. -/
theorem migrate_error {e : Exn} (h : migrate result s migration = (s', .error e)) :
    s' = s ∧ (e.IsBlockError ↔ Allowed result migration) := by
  unfold migrate at h
  split at h
  · rename_i hfrom
    obtain ⟨rfl, he⟩ := Prod.mk.inj h
    obtain rfl := Except.error.inj he
    refine ⟨rfl, iff_of_false (vecAt_error hfrom) ?_⟩
    rintro ⟨-, ⟨source, hsource⟩, -⟩
    cases hfrom.symm.trans hsource
  · rename_i hto
    obtain ⟨rfl, he⟩ := Prod.mk.inj h
    obtain rfl := Except.error.inj he
    refine ⟨rfl, iff_of_false (vecAt_error hto) ?_⟩
    rintro ⟨-, -, ⟨target, htarget⟩⟩
    cases hto.symm.trans htarget
  · rename_i source target hsource htarget
    split at h
    · cases (Prod.mk.inj h).2
    · rename_i hnative
      split at h
      · rename_i hextract
        obtain ⟨rfl, he⟩ := Prod.mk.inj h
        obtain rfl := Except.error.inj he
        exact ⟨rfl, iff_of_true (Page.extractMigrant_error hextract) ⟨hnative, ⟨source, hsource⟩,
          ⟨target, htarget⟩⟩⟩
      · cases (Prod.mk.inj h).2

end

/-! ## Lists of migrations -/

/-- The migrations that are reached are allowed. -/
def Regular (result : List VarLenFullID) : Migrating → List MigrationInfo → Prop
  | _, [] => True
  | s, migration :: chunkMigrations =>
    Allowed result migration ∧ ((migrate result s migration).2 = .ok () →
      Regular result (migrate result s migration).1 chunkMigrations)

/-- A native chunk is moved only out of a page that holds no migrants. -/
def NativesAlone (result : List VarLenFullID) : Migrating → List MigrationInfo → Prop
  | _, [] => True
  | s, migration :: chunkMigrations =>
    (migrate result s migration).2 = .ok () →
      (migration.chunkIndex = -1 → ∀ source, vecAt result migration.fromIndex = .ok source →
        (s.cache.page source).migrants = []) ∧
      NativesAlone result (migrate result s migration).1 chunkMigrations

/-- The page is the source or the target of a migration. -/
def Named (result : List VarLenFullID) (chunkMigrations : List MigrationInfo)
    (id : VarLenFullID) : Prop :=
  ∃ migration ∈ chunkMigrations, vecAt result migration.fromIndex = .ok id ∨
    vecAt result migration.toIndex = .ok id

/-- What the migrations of a call conserve, from the pages before them to those the call leaves. -/
structure Conserved (result : List VarLenFullID) (s : Migrating)
    (chunkMigrations : List MigrationInfo) (after : PageCache)
    (thrown : Exn → Prop) : Prop where
  owned : after.owned.Nodup
  ids : after.ids = s.cache.ids
  pairs : after.pairs = s.cache.pairs
  named : ∀ id, ¬ Named result chunkMigrations id → after.page id = s.cache.page id
  natives : NativesAlone result s chunkMigrations
  reported : ∀ e, thrown e → e.IsBlockError

section
variable {result : List VarLenFullID}

theorem migrateAll_error {s s' : Migrating} {migration : MigrationInfo} {e : Exn}
    (h : migrate result s migration = (s', .error e))
    (chunkMigrations : List MigrationInfo) :
    migrateAll result s (migration :: chunkMigrations) = (s', .error e) := by
  rw [migrateAll, h]

theorem migrateAll_ok {s s' : Migrating} {migration : MigrationInfo}
    (h : migrate result s migration = (s', .ok ()))
    (chunkMigrations : List MigrationInfo) :
    migrateAll result s (migration :: chunkMigrations) = migrateAll result s' chunkMigrations := by
  rw [migrateAll, h]

/-- No owner is lost. -/
theorem owned_le_migrateAll :
    ∀ {chunkMigrations : List MigrationInfo} {s : Migrating}, (∀ id ∈ result, id ∈ s.cache.ids) →
    s.cache.owned ≤ (migrateAll result s chunkMigrations).1.cache.owned
  | [], _, _ => le_refl _
  | migration :: chunkMigrations, s, hresult => by
    cases h : migrate result s migration with
    | mk s' r =>
      cases r with
      | error e =>
        rw [migrateAll_error h, (migrate_error h).1]
      | ok _ =>
        obtain ⟨hids, hmigrant, hnative⟩ := pairs_migrate hresult h
        rw [migrateAll_ok h]
        refine le_trans ?_ (owned_le_migrateAll fun id hid => hids ▸ hresult id hid)
        unfold PageCache.owned
        by_cases hindex : migration.chunkIndex = -1
        · obtain ⟨source, id, -, hpairs⟩ := hnative hindex
          rw [hpairs]
          exact Multiset.map_le_map (Multiset.le_cons_self _ _)
        · rw [hmigrant hindex]

/-- A native chunk that is moved has two owners from then on, and other errors are not those of the
block: if neither happens, all migrations that are reached are allowed. -/
theorem regular_of_conserved :
    ∀ {chunkMigrations : List MigrationInfo} {s : Migrating}, (∀ id ∈ result, id ∈ s.cache.ids) →
    (migrateAll result s chunkMigrations).1.cache.owned.Nodup →
    (∀ e, (migrateAll result s chunkMigrations).2 = .error e → e.IsBlockError) →
    Regular result s chunkMigrations
  | [], _, _, _, _ => trivial
  | migration :: chunkMigrations, s, hresult, hnodup, hreported => by
    unfold Regular
    cases h : migrate result s migration with
    | mk s' r =>
      cases r with
      | error e =>
        rw [migrateAll_error h] at hreported
        refine ⟨(migrate_error h).2.mp (hreported e rfl), fun hok => ?_⟩
        cases hok
      | ok _ =>
        obtain ⟨hids, -, hnative⟩ := pairs_migrate hresult h
        have hresult' : ∀ id ∈ result, id ∈ s'.cache.ids := fun id hid => hids ▸ hresult id hid
        rw [migrateAll_ok h] at hnodup hreported
        obtain ⟨source, target, hsource, htarget, -⟩ := migrate_ok h
        refine ⟨⟨fun hindex => ?_, ⟨source, hsource⟩, ⟨target, htarget⟩⟩,
          fun _ => regular_of_conserved hresult' hnodup hreported⟩
        obtain ⟨owner, id, howner, hpairs⟩ := hnative hindex
        have hnodup' := Multiset.nodup_of_le (owned_le_migrateAll hresult') hnodup
        unfold PageCache.owned at hnodup'
        rw [hpairs, Multiset.map_cons] at hnodup'
        exact (Multiset.nodup_cons.mp hnodup').1 (PageCache.native_mem_owned howner)

theorem conserved_of_regular :
    ∀ {chunkMigrations : List MigrationInfo} {s : Migrating}, (∀ id ∈ result, id ∈ s.cache.ids) →
    s.cache.owned.Nodup → Regular result s chunkMigrations →
    Conserved result s chunkMigrations (migrateAll result s chunkMigrations).1.cache fun e =>
      (migrateAll result s chunkMigrations).2 = .error e
  | [], s, _, hnodup, _ =>
    { owned := hnodup
      ids := rfl
      pairs := rfl
      named := fun _ _ => rfl
      natives := trivial
      reported := fun _ h => by cases h }
  | migration :: chunkMigrations, s, hresult, hnodup, hregular => by
    obtain ⟨hallowed, hrest⟩ := hregular
    cases h : migrate result s migration with
    | mk s' r =>
      rw [h] at hrest
      cases r with
      | error e =>
        -- a migration that fails has moved nothing
        obtain ⟨hsame, hblock⟩ := migrate_error h
        rw [migrateAll_error h, hsame]
        refine ⟨hnodup, rfl, rfl, fun _ _ => rfl, ?_, fun e' he' => ?_⟩
        · unfold NativesAlone
          rw [h]
          exact fun hok => by cases hok
        · obtain rfl := Except.error.inj he'
          exact hblock.mpr hallowed
      | ok _ =>
        obtain ⟨hids, hmigrant, -⟩ := pairs_migrate hresult h
        have hpairs := hmigrant hallowed.1
        have hnodup' : s'.cache.owned.Nodup := by
          unfold PageCache.owned
          rwa [hpairs]
        have hnext := conserved_of_regular (fun id hid => hids ▸ hresult id hid) hnodup' (hrest rfl)
        rw [migrateAll_ok h]
        refine ⟨hnext.owned, hnext.ids.trans hids, hnext.pairs.trans hpairs, fun id hid => ?_, ?_,
          hnext.reported⟩
        · -- a page that no migration names
          have hnamed : ¬ Named result chunkMigrations id := by
            rintro ⟨m, hm, hname⟩
            exact hid ⟨m, List.mem_cons_of_mem _ hm, hname⟩
          rw [hnext.named id hnamed]
          apply migrate_frame h
          · exact fun hfrom => hid ⟨migration, List.mem_cons_self, Or.inl hfrom⟩
          · exact fun hto => hid ⟨migration, List.mem_cons_self, Or.inr hto⟩
        · unfold NativesAlone
          rw [h]
          exact fun _ => ⟨fun hindex => absurd hindex hallowed.1, hnext.natives⟩

end

/-- **Migrations.** From any cache in which no chunk has two owners, a call conserves the chunks and
reports what it rejects as a `BlockError` exactly if each migration that it reaches is that of a
migrant and names pages of the list: a native chunk gets a second owner, and an index past the end
of the list is an `out_of_range`. -/
theorem PageCache.preparePages_conserved_iff (cache : PageCache) (blockNumber : Int)
    (pageAccessList : List VarLenFullID)
    (chunkMigrations : List MigrationInfo) (howns : cache.OwnsOnce) :
    Conserved pageAccessList ⟨cache.emplaceAll blockNumber pageAccessList,
      pageAccessList⟩ chunkMigrations
        (cache.preparePages blockNumber pageAccessList chunkMigrations).1
        (fun e => (cache.preparePages blockNumber pageAccessList chunkMigrations).2 = .error e) ↔
      Regular pageAccessList ⟨cache.emplaceAll blockNumber pageAccessList,
        pageAccessList⟩ chunkMigrations := by
  have hresult : ∀ id ∈ pageAccessList, id ∈ (cache.emplaceAll blockNumber pageAccessList).ids :=
    fun id hid => (PageCache.emplaceAll_ids blockNumber).mpr (Or.inl hid)
  have hcall : (cache.preparePages blockNumber pageAccessList chunkMigrations).1 =
      (migrateAll pageAccessList
        ⟨cache.emplaceAll blockNumber pageAccessList, pageAccessList⟩ chunkMigrations).1.cache ∧
      ∀ e, (cache.preparePages blockNumber pageAccessList chunkMigrations).2 = .error e ↔
        (migrateAll pageAccessList
          ⟨cache.emplaceAll blockNumber pageAccessList, pageAccessList⟩
          chunkMigrations).2 = .error e := by
    unfold PageCache.preparePages
    dsimp only
    cases migrateAll pageAccessList ⟨cache.emplaceAll blockNumber pageAccessList,
      pageAccessList⟩ chunkMigrations with
    | mk s r => cases r <;> simp
  rw [hcall.1]
  simp only [hcall.2]
  constructor
  · intro h
    exact regular_of_conserved hresult h.owned h.reported
  · exact conserved_of_regular hresult (howns.emplaceAll blockNumber).nodup

/-- A cache with the pages `1` and `2`, of which the first has a migrant. -/
def twoPages : PageCache where
  ids := {⟨[1]⟩, ⟨[2]⟩}
  page := fun id => if id = ⟨[1]⟩ then { version := 0, native := 0, migrants := [⟨⟨[3]⟩, 1⟩] }
    else { version := 0, native := 2, migrants := [] }
  next := 3

theorem twoPages_ownsOnce : twoPages.OwnsOnce := ⟨by decide +kernel, by decide +kernel⟩

theorem PageCache.preparePages_conserved_iff_migrant :
    (twoPages.preparePages 1 [⟨[1]⟩, ⟨[2]⟩] [⟨0, 0, 1⟩]).1.owned.Nodup ∧
      ((twoPages.preparePages 1 [⟨[1]⟩, ⟨[2]⟩] [⟨0, 0, 1⟩]).1.page ⟨[2]⟩).migrants.map
      Migrant.chunk = [1] := by
  refine ⟨?_, by decide +kernel⟩
  apply ((PageCache.preparePages_conserved_iff twoPages 1 [⟨[1]⟩, ⟨[2]⟩] [⟨0, 0, 1⟩]
    twoPages_ownsOnce).mpr _).owned
  exact ⟨⟨by decide, ⟨⟨[1]⟩, rfl⟩, ⟨⟨[2]⟩, rfl⟩⟩, fun _ => trivial⟩

/-- The native chunk of the first page, which has a migrant, is given to the second page:
both pages own it. -/
theorem PageCache.preparePages_native_twice :
    (twoPages.preparePages 1 [⟨[1]⟩, ⟨[2]⟩] [⟨-1, 0, 1⟩]).2 = .ok [⟨[1]⟩, ⟨[2]⟩] ∧
      ¬ (twoPages.preparePages 1 [⟨[1]⟩, ⟨[2]⟩] [⟨-1, 0, 1⟩]).1.owned.Nodup ∧
      ¬ Conserved [⟨[1]⟩, ⟨[2]⟩] ⟨twoPages.emplaceAll 1 [⟨[1]⟩, ⟨[2]⟩], [⟨[1]⟩, ⟨[2]⟩]⟩ [⟨-1, 0, 1⟩]
        (twoPages.preparePages 1 [⟨[1]⟩, ⟨[2]⟩] [⟨-1, 0, 1⟩]).1
        (fun e => (twoPages.preparePages 1 [⟨[1]⟩, ⟨[2]⟩] [⟨-1, 0, 1⟩]).2 = .error e) := by
  have htwice : ¬ (twoPages.preparePages 1 [⟨[1]⟩, ⟨[2]⟩] [⟨-1, 0, 1⟩]).1.owned.Nodup := by
    decide +kernel
  exact ⟨by decide +kernel, htwice, fun h => htwice h.owned⟩

end Argennon.Asa
