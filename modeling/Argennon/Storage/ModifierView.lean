import Argennon.Heap.ChunkView
import Argennon.Storage.WriteConfinement

/- What a request sees of its chunks at one version, and what its write-back makes of it.

   `Laid` is the layout that `buildModifier` gives a modifier for a well-formed access map. `Sees`
   says that a modifier shows a view of each of its chunks. An operation that returns changes the
   view of the current chunk (`Sees.access`), and the write-back leaves the views in the heap
   (`Sees.writeToHeap`). -/
namespace Argennon

/-! ## Positions in the maps -/

namespace AppMap
variable {B₁ B₂ : Type} {R : ChunkInfo B₁ → ChunkInfo B₂ → Prop} {m₁ : AppMap B₁} {m₂ : AppMap B₂}

/-- Maps of one shape whose chunks are related at each position. -/
theorem Lift.of_get {R' : ChunkInfo B₁ → ChunkInfo B₂ → Prop} (h : Lift R' m₁ m₂)
    (hget : ∀ p c₁ c₂, m₁.get p = some c₁ → m₂.get p = some c₂ → R c₁ c₂) : Lift R m₁ m₂ := by
  refine ⟨h.1, List.forall₂_iff_get.mpr ⟨h.2.length_eq, fun i h₁ h₂ => ?_⟩⟩
  obtain ⟨hkeys, hvalues⟩ := h.2.get h₁ h₂
  refine ⟨hkeys, List.forall₂_iff_get.mpr ⟨hvalues.length_eq,
    fun j h₁' h₂' => hget (i, j) _ _ ?_ ?_⟩⟩
  · exact Option.bind_eq_some_iff.mpr ⟨_, List.getElem?_eq_getElem h₁, List.getElem?_eq_getElem h₁'⟩
  · exact Option.bind_eq_some_iff.mpr ⟨_, List.getElem?_eq_getElem h₂, List.getElem?_eq_getElem h₂'⟩

end AppMap

/-! ## The layout -/

/-- The chunks of a modifier as they were built: each at the place of its identifier, none twice. -/
structure Laid (m : AppMap AccessBlock) : Prop where
  nodup : (m.chunkInfos.map ChunkInfo.ptr).Nodup
  ptr : ∀ (p : Nat × Nat) appID chunkMap localID c,
    m.keys[p.1]? = some appID → m.values[p.1]? = some chunkMap →
    chunkMap.keys[p.2]? = some localID → chunkMap.values[p.2]? = some c →
      c.ptr = toLex (appID, localID)
  placed : ∀ c ∈ m.chunkInfos, Placed c
  sizeBound : ∀ c ∈ m.chunkInfos, c.sizeBound ≤ maxChunkSize

/-- Two places of one chunk are one place. -/
theorem Laid.position_unique {m : AppMap AccessBlock} (h : Laid m) {p q : Nat × Nat}
    {c d : ChunkInfo AccessBlock}
    (hp : m.get p = some c) (hq : m.get q = some d) (hptr : c.ptr = d.ptr) : p = q := by
  obtain ⟨cs, hc1, hc2⟩ := Option.bind_eq_some_iff.mp hp
  obtain ⟨ds, hd1, hd2⟩ := Option.bind_eq_some_iff.mp hq
  have hnodup := h.nodup
  unfold AppMap.chunkInfos at hnodup
  rw [List.map_flatMap, List.nodup_flatMap] at hnodup
  obtain ⟨hinside, hbetween⟩ := hnodup
  have hcmem : c.ptr ∈ cs.values.map ChunkInfo.ptr := List.mem_map_of_mem (List.mem_of_getElem? hc2)
  have hdmem : c.ptr ∈ ds.values.map ChunkInfo.ptr :=
    hptr ▸ List.mem_map_of_mem (List.mem_of_getElem? hd2)
  obtain ⟨hclt, hcget⟩ := List.getElem?_eq_some_iff.mp hc1
  obtain ⟨hdlt, hdget⟩ := List.getElem?_eq_some_iff.mp hd1
  -- the chunks of two applications are not the same
  have hfirst : p.1 = q.1 := by
    rw [List.pairwise_iff_getElem] at hbetween
    obtain hlt | heq | hgt := Nat.lt_trichotomy p.1 q.1
    · have hdisjoint := hbetween p.1 q.1 hclt hdlt hlt
      rw [hcget, hdget] at hdisjoint
      exact absurd hdmem (hdisjoint hcmem)
    · exact heq
    · have hdisjoint := hbetween q.1 p.1 hdlt hclt hgt
      rw [hcget, hdget] at hdisjoint
      exact absurd hcmem (hdisjoint hdmem)
  obtain rfl : cs = ds := by
    rw [hfirst] at hc1
    exact Option.some.inj (hc1.symm.trans hd1)
  have hpos : (cs.values.map ChunkInfo.ptr)[p.2]? = (cs.values.map ChunkInfo.ptr)[q.2]? := by
    rw [List.getElem?_map, List.getElem?_map, hc2, hd2, Option.map_some, Option.map_some, hptr]
  obtain ⟨hlt, -⟩ := List.getElem?_eq_some_iff.mp hc2
  exact Prod.ext hfirst ((List.getElem?_inj (by rwa [List.length_map])
    (hinside cs (List.mem_of_getElem? hd1))).mp hpos)

/-- The blocks of a chunk are sorted and do not overlap. -/
def BlocksApart (blocks : List (Int × AccessBlockInfo)) : Prop :=
  blocks.Pairwise fun a b => a.1 < b.1 ∧ (0 ≤ a.1 → a.1 + (toUInt32 a.2.size : Int) ≤ b.1)

instance (blocks : List (Int × AccessBlockInfo)) : Decidable (BlocksApart blocks) :=
  inferInstanceAs (Decidable (List.Pairwise _ _))

/-- The chunks are laid out, and their blocks fit into the heap and into chunks that are writable
where they may write. -/
structure Ready (heap : Heap) (m : AppMap AccessBlock) : Prop where
  laid : Laid m
  fits : ∀ c ∈ m.chunkInfos, ∀ kb ∈ c.accessTable.entries, kb.1 + kb.2.size ≤ (heap c.ptr).capacity
  writable : ∀ c ∈ m.chunkInfos, ∀ kb ∈ c.accessTable.entries, kb.2.accessType.mayWrite →
    (heap c.ptr).isWritable

/-- A chunk of the heap belongs to one chunk of the modifier. -/
theorem Laid.unique {m : AppMap AccessBlock} (h : Laid m) {c d : ChunkInfo AccessBlock}
    (hc : c ∈ m.chunkInfos) (hd : d ∈ m.chunkInfos)
    (hptr : c.ptr = d.ptr) : c = d := List.inj_on_of_nodup_map h.nodup hc hd hptr

/-- An access map as `AppRequestInfo` requires it: no chunk is listed twice, and the blocks of a
chunk are sorted and do not overlap. -/
structure WellFormedAccess (rawAccessMap : AccessMapType) : Prop where
  distinct : ((ChunkIndex.chunkEntries rawAccessMap).map Prod.fst).Nodup
  apart : ∀ e ∈ ChunkIndex.chunkEntries rawAccessMap, BlocksApart e.2

namespace ChunkIndex
variable {index : ChunkIndex} {heap : Heap} {rawAccessMap : AccessMapType}
  {m : RestrictedModifier AccessBlock}

theorem Built.placed {e : FullID × List (Int × AccessBlockInfo)} {c : ChunkInfo AccessBlock}
    (h : Built index heap e c)
    (hapart : BlocksApart e.2) : Placed c := by
  refine ⟨h.heapLocation, ?_⟩
  rw [h.blocks]
  unfold declaredBlocks
  refine List.pairwise_map.mpr
    ((List.Pairwise.filter _ hapart).imp_of_mem fun {a b} ha hb hab => ?_)
  have ha : 0 ≤ a.1 := by simpa using (List.mem_filter.mp ha).2
  have hb : 0 ≤ b.1 := by simpa using (List.mem_filter.mp hb).2
  have hle := hab.2 ha
  have hlt := hab.1
  simp only
  omega

/-- The chunks of a built modifier are in the order of the access map. -/
theorem buildModifier_ptrs (h : index.buildModifier heap rawAccessMap = .ok m) :
    m.appsAccessMaps.chunkInfos.map ChunkInfo.ptr = (chunkEntries rawAccessMap).map Prod.fst := by
  refine (List.forall₂_eq_eq_eq ▸ List.forall₂_map_left_iff.mpr
    (List.forall₂_map_right_iff.mpr ?_) :)
  refine (buildModifier_built h).flip.imp fun c e hb => ?_
  exact Built.ptr (e := e) (c := c) hb

/-- A modifier that was built for a well-formed access map is laid out. -/
theorem buildModifier_laid (h : index.buildModifier heap rawAccessMap = .ok m)
    (hwf : WellFormedAccess rawAccessMap) :
    Laid m.appsAccessMaps := by
  have hbuilt := buildModifier_built h
  refine ⟨buildModifier_ptrs h ▸ hwf.distinct, ?_, fun c hc => ?_, fun c hc => ?_⟩
  · intro p appID chunkMap localID c hkey hmap hlocal hc
    rw [buildModifier_eq] at h
    cases hmaps : (rawAccessMap.entries.mapM (fun e => index.buildChunkMap heap e.1 e.2) >>=
        OrderedStaticMap.mk? rawAccessMap.keys) with
    | error e =>
      rw [hmaps] at h
      cases h
    | ok maps =>
      rw [hmaps] at h
      obtain rfl := Except.ok.inj h
      obtain ⟨hkeys, happs⟩ := OrderedStaticMap.mapM_mk?_ok hmaps
      obtain ⟨-, hnone⟩ | ⟨e, chunkMap', he, hmap', happ⟩ := forall₂_getElem? happs p.1
      · rw [hmap] at hnone
        cases hnone
      obtain rfl := Option.some.inj (hmap.symm.trans hmap')
      obtain ⟨hkeys', hchunks⟩ := OrderedStaticMap.mapM_mk?_ok happ
      obtain ⟨-, hnone⟩ | ⟨e', c', he', hc', hchunk⟩ := forall₂_getElem? hchunks p.2
      · rw [hc] at hnone
        cases hnone
      obtain rfl := Option.some.inj (hc.symm.trans hc')
      rw [(buildChunk_built hchunk).ptr]
      -- the keys are those of the entries
      have hfirst : appID = e.1 := by
        rw [hkeys, ← rawAccessMap.map_fst_entries, List.getElem?_map, he] at hkey
        exact (Option.some.inj hkey).symm
      have hsecond : localID = e'.1 := by
        rw [hkeys', ← e.2.map_fst_entries, List.getElem?_map, he'] at hlocal
        exact (Option.some.inj hlocal).symm
      rw [hfirst, hsecond]
  · obtain ⟨e, he, hb⟩ := forall₂_mem_right hbuilt hc
    exact hb.placed (hwf.apart e he)
  · obtain ⟨e, -, hb⟩ := forall₂_mem_right hbuilt hc
    exact hb.sizeBound_le

/-- A chunk with a block that may write is writable. -/
theorem buildModifier_writable (h : index.buildModifier heap rawAccessMap = .ok m)
    {c : ChunkInfo AccessBlock}
    (hc : c ∈ m.appsAccessMaps.chunkInfos) {kb : Nat × AccessBlock}
    (hkb : kb ∈ c.accessTable.entries)
    (hmay : kb.2.accessType.mayWrite) : (heap c.ptr).isWritable := by
  obtain ⟨e, -, hb⟩ := forall₂_mem_right (buildModifier_built h) hc
  rw [hb.blocks] at hkb
  obtain ⟨b, hmem, rfl⟩ := List.mem_map.mp hkb
  rw [hb.ptr]
  exact (hb.admitted.2.1 b (List.mem_filter.mp hmem).1).1 hmay

/-- A modifier that was built is ready for the heap with the same space. -/
theorem buildModifier_ready {heap' : Heap} (h : index.buildModifier heap rawAccessMap = .ok m)
    (hwf : WellFormedAccess rawAccessMap)
    (hspace : SameSpace heap heap') : Ready heap' m.appsAccessMaps := by
  refine ⟨buildModifier_laid h hwf, fun c hc kb hkb => ?_, fun c hc kb hkb hmay => ?_⟩
  · obtain ⟨e, -, hb⟩ := forall₂_mem_right (buildModifier_built h) hc
    rw [hb.blocks] at hkb
    obtain ⟨b, hmem, rfl⟩ := List.mem_map.mp hkb
    obtain ⟨hmem, hpos⟩ := List.mem_filter.mp hmem
    have hfits := (hb.admitted.2.1 b hmem).2 (by simpa using hpos)
    rw [hb.ptr, (hspace e.1).1]
    exact hfits
  · rw [(hspace c.ptr).2]
    exact buildModifier_writable h hc hkb hmay

end ChunkIndex

/-! ## Views -/

/-- The modifier, built as `m₀`, shows a view of each of its chunks. -/
def Sees (heap : Heap) (m₀ : AppMap AccessBlock) (m : RestrictedModifier AccessBlock)
    (views : FullID → ChunkView) : Prop :=
  AppMap.Lift (fun c₀ c => Shows m.currentVersion (heap c₀.ptr) c₀ c (views c₀.ptr)) m₀
    m.appsAccessMaps

namespace Sees
variable {heap heap' : Heap} {m₀ : AppMap AccessBlock} {m m' : RestrictedModifier AccessBlock}
  {views : FullID → ChunkView}

/-- Other pointers into the same maps. -/
theorem congr (h : Sees heap m₀ m views) (hmaps : m'.appsAccessMaps = m.appsAccessMaps)
    (hversion : m'.currentVersion = m.currentVersion) :
    Sees heap m₀ m' views := by
  unfold Sees at h ⊢
  rw [hmaps, hversion]
  exact h

/-- An operation on the current chunk that returns changes what is seen of this chunk only. -/
theorem access (h : Sees heap m₀ m views) (hlaid : Laid m₀) {p : Nat × Nat}
    {c₀ : ChunkInfo AccessBlock} (hp : m.currentChunk = some p)
    (hc₀ : m₀.get p = some c₀) {op : ChunkOp} {value : Value}
    (hrun : m.access heap op = (.ok value, m')) :
    ∃ c c', Shows m.currentVersion (heap c₀.ptr) c₀ c (views c₀.ptr) ∧
      c.exec (heap c₀.ptr) m.currentVersion op = (.ok value, c') ∧
      ∀ v', Shows m.currentVersion (heap c₀.ptr) c₀ c' v' →
        Sees heap m₀ m' (Function.update views c₀.ptr v') := by
  obtain ⟨hnone, -⟩ | ⟨c₀', c, hc₀', hc, hshows⟩ := AppMap.Lift.get h p
  · rw [hc₀] at hnone
    cases hnone
  obtain rfl := Option.some.inj (hc₀.symm.trans hc₀')
  have haccess : m.access heap op =
      ((c.exec (heap c.ptr) m.currentVersion op).1,
        { m with appsAccessMaps :=
          m.appsAccessMaps.set p (c.exec (heap c.ptr) m.currentVersion op).2 }) := by
    unfold RestrictedModifier.access
    simp only [hp, hc]
  rw [hshows.kept.ptr] at haccess
  rw [haccess] at hrun
  obtain ⟨hvalue, rfl⟩ := Prod.mk.inj hrun
  refine ⟨c, _, hshows, Prod.ext hvalue rfl, fun v' hv' => ?_⟩
  refine (AppMap.Lift.set_right (R := fun _ _ => True) (AppMap.Lift.mono h fun _ _ _ => trivial)
    hc₀ trivial).of_get fun q d₀ d hd₀ hd => ?_
  by_cases hq : q = p
  · subst hq
    obtain rfl := Option.some.inj (hc₀.symm.trans hd₀)
    obtain rfl := Option.some.inj ((AppMap.get_set_self hc).symm.trans hd)
    rw [Function.update_self]
    exact hv'
  · -- another place is the place of another chunk
    have hne : d₀.ptr ≠ c₀.ptr := fun hptr => hq (hlaid.position_unique hd₀ hc₀ hptr)
    rw [AppMap.get_set_of_ne _ _ hq] at hd
    obtain ⟨hnone, -⟩ | ⟨e₀, e, he₀, he, hshows'⟩ := AppMap.Lift.get h q
    · rw [hd₀] at hnone
      cases hnone
    obtain rfl := Option.some.inj (hd₀.symm.trans he₀)
    obtain rfl := Option.some.inj (hd.symm.trans he)
    rw [Function.update_of_ne hne]
    exact hshows'

/-- A chunk that is loaded is the chunk of its identifier. -/
theorem loadChunk (h : Sees heap m₀ m views) (hlaid : Laid m₀) {appID accountID localID : LongID}
    (hchunks : m.chunks = (OrderedStaticMap.find m.appsAccessMaps.keys appID).toOption)
    (hrun : m.loadChunk accountID localID = (.ok (), m')) :
    ∃ p c₀, m₀.get p = some c₀ ∧ c₀.ptr = toLex (appID, toLex (accountID, localID)) ∧
      m' = { m with currentChunk := some p } := by
  unfold RestrictedModifier.loadChunk at hrun
  split at hrun
  · cases (Prod.mk.inj hrun).1
  rename_i i chunkMap hbind
  split at hrun
  · rename_i j hj
    obtain ⟨i', hi', hmap⟩ := Option.bind_eq_some_iff.mp hbind
    obtain ⟨chunkMap', hmap', heq⟩ := Option.map_eq_some_iff.mp hmap
    obtain ⟨rfl, rfl⟩ := Prod.mk.inj heq
    have happ : m.appsAccessMaps.keys[i']? = some appID := by
      rw [hchunks] at hi'
      cases hfind : OrderedStaticMap.find m.appsAccessMaps.keys appID with
      | error e =>
        rw [hfind] at hi'
        cases hi'
      | ok k =>
        rw [hfind] at hi'
        obtain rfl := Option.some.inj hi'
        exact OrderedStaticMap.find_ok hfind
    have hlocal := OrderedStaticMap.find_ok hj
    -- the same place of the maps that were built
    obtain ⟨-, hnone⟩ | ⟨chunkMap₀, chunkMap'', hmap₀, hmap'', hkeys, hvalues⟩ :=
      forall₂_getElem? h.2 i'
    · rw [hmap'] at hnone
      cases hnone
    obtain rfl := Option.some.inj (hmap'.symm.trans hmap'')
    rw [← hkeys] at hlocal
    obtain ⟨hlt, -⟩ := List.getElem?_eq_some_iff.mp hlocal
    obtain ⟨c₀, hc₀⟩ : ∃ c₀, chunkMap₀.values[j]? = some c₀ :=
      ⟨chunkMap₀.values.get ⟨j, by rw [← chunkMap₀.size_eq]; exact hlt⟩, List.getElem?_eq_getElem _⟩
    refine ⟨(i', j), _, Option.bind_eq_some_iff.mpr ⟨chunkMap₀, hmap₀, hc₀⟩, ?_,
      (Prod.mk.inj hrun).2.symm⟩
    exact hlaid.ptr (i', j) _ chunkMap₀ _ _ (h.1 ▸ happ) hmap₀ hlocal hc₀
  · cases (Prod.mk.inj hrun).1
  · cases (Prod.mk.inj hrun).1

/-- The write-back leaves in each chunk what is seen of it, and no other chunk is changed. -/
theorem writeToHeap (h : Sees heap m₀ m views) (hready : Ready heap m₀)
    (hversion : m.currentVersion ≠ 0)
    (hrun : m.writeToHeap heap = .ok heap') :
    (∀ c₀ ∈ m₀.chunkInfos, WrittenBack (heap c₀.ptr) c₀ (views c₀.ptr) (heap' c₀.ptr)) ∧
      ∀ id, id ∉ m₀.chunkInfos.map ChunkInfo.ptr → heap' id = heap id := by
  have hchunks := AppMap.Lift.chunkInfos h
  have hptrs : m.appsAccessMaps.chunkInfos.map ChunkInfo.ptr = m₀.chunkInfos.map ChunkInfo.ptr := by
    refine (List.forall₂_eq_eq_eq ▸ List.forall₂_map_left_iff.mpr
      (List.forall₂_map_right_iff.mpr ?_) :)
    exact hchunks.flip.imp fun c c₀ (hshows : Shows m.currentVersion (heap c₀.ptr) c₀ c
      (views c₀.ptr)) => hshows.kept.ptr
  unfold RestrictedModifier.writeToHeap at hrun
  rw [if_neg hversion] at hrun
  obtain ⟨hin, hout⟩ := RestrictedModifier.writeChunks_ok (hptrs ▸ hready.laid.nodup) hrun
  refine ⟨fun c₀ hc₀ => ?_, fun id hid => hout id (hptrs ▸ hid)⟩
  obtain ⟨c, hc, hshows⟩ := forall₂_mem_left hchunks hc₀
  have hwrite := hin c hc
  rw [hshows.kept.ptr] at hwrite
  exact hshows.writeToHeap (hready.laid.placed c₀ hc₀) (hready.writable c₀ hc₀) hwrite

end Sees

/-- A modifier that was just built shows its chunks as they are. -/
theorem ChunkIndex.buildModifier_sees {index : ChunkIndex} {heap₁ heap : Heap}
    {rawAccessMap : AccessMapType}
    {m : RestrictedModifier AccessBlock} (h : index.buildModifier heap₁ rawAccessMap = .ok m)
    (version : Nat) :
    Sees heap m.appsAccessMaps { m with currentVersion := version } fun id =>
      .initial (heap id) := by
  refine ⟨rfl, List.forall₂_same.mpr fun chunkMap hmap =>
    ⟨rfl, List.forall₂_same.mpr fun c hc => ?_⟩⟩
  obtain ⟨e, -, hb⟩ := forall₂_mem_right (buildModifier_built h)
    (List.mem_flatMap.mpr ⟨chunkMap, hmap, hc⟩)
  exact hb.shows _ version

end Argennon
