import Argennon.Heap.ChunkView
import Argennon.Storage.BuiltModifier

/- Write confinement of a request: what the write-back of a modifier built by
   `buildModifier` can change of the heap, after any sequence of operations.

   `buildModifier` does not look at the access of a size block at -1, only whether it may
   write: one that may not is admitted also for a chunk of a page that is only read, and
   `writeToHeap` sets the size before it asks whether the chunk is writable. So a request is
   confined exactly if every size block that lets the size change is declared writable
   (`write_confinement_iff`). -/
namespace Argennon

/-! ## What an access map declares -/

/-- A byte of a declared block that may write. -/
def DeclaredWrite (blocks : List (Int × AccessBlockInfo)) (i : Nat) : Prop :=
  ∃ b ∈ blocks, b.2.accessType.mayWrite ∧ 0 ≤ b.1 ∧ b.1 ≤ i ∧ i < b.1 + toUInt32 b.2.size

/-- A change of size that the size block of the chunk declares: up to the bound of an
expansion, or down to the bound of a shrinkage. -/
def DeclaredSize (blocks : List (Int × AccessBlockInfo)) (old new : Nat) : Prop :=
  ∃ info, blocks.head? = some (-1, info) ∧
    (0 < info.size ∧ old ≤ new ∧ new ≤ info.size ∨ info.size ≤ 0 ∧ -info.size ≤ new ∧ new ≤ old)

/-- The size block lets the request give the chunk another size. -/
def LetsResize (blocks : List (Int × AccessBlockInfo)) (chunkSize : Nat) : Prop :=
  ∃ newSize, newSize ≠ chunkSize ∧ DeclaredSize blocks chunkSize newSize

/-- A size block at -1 is declared writable. -/
def SizeBlockWritable (blocks : List (Int × AccessBlockInfo)) : Prop :=
  ∀ info, blocks.head? = some (-1, info) → info.accessType = .writable

/-- The identifiers of an access map are sorted, as `OrderedStaticMap` asks of its keys. -/
structure SortedKeys (rawAccessMap : AccessMapType) : Prop where
  apps : rawAccessMap.keys.Pairwise (· < ·)
  chunks : ∀ app ∈ rawAccessMap.entries, app.2.keys.Pairwise (· < ·)

/-- The identifiers of a sorted map are distinct. -/
theorem SortedKeys.distinct {rawAccessMap : AccessMapType} (h : SortedKeys rawAccessMap) :
    ((ChunkIndex.chunkEntries rawAccessMap).map Prod.fst).Nodup := by
  have hchunks : ∀ app ∈ rawAccessMap.entries,
      (app.2.entries.map fun chunk => (toLex (app.1, chunk.1), chunk.2.entries)).map Prod.fst =
        app.2.keys.map fun key => (toLex (app.1, key) : FullID) := by
    intro app _
    rw [← app.2.map_fst_entries, List.map_map, List.map_map]
    rfl
  unfold ChunkIndex.chunkEntries
  rw [List.map_flatMap, List.nodup_flatMap]
  refine ⟨fun app happ => ?_, ?_⟩
  · rw [hchunks app happ]
    refine List.Nodup.map (fun a b hab => (Prod.mk.inj (toLex.injective hab)).2) ?_
    exact (h.chunks app happ).imp fun hlt => ne_of_lt hlt
  · have happs : rawAccessMap.entries.Pairwise fun a b => a.1 < b.1 := by
      rw [← List.pairwise_map (f := Prod.fst), rawAccessMap.map_fst_entries]
      exact h.apps
    refine happs.imp_of_mem fun {a b} ha hb hlt => ?_
    simp only [Function.onFun]
    rw [hchunks a ha, hchunks b hb]
    intro id hida hidb
    obtain ⟨ka, -, rfl⟩ := List.mem_map.mp hida
    obtain ⟨kb, -, heq⟩ := List.mem_map.mp hidb
    exact hlt.ne' (Prod.mk.inj (toLex.injective heq)).1

namespace ChunkIndex
variable {index : ChunkIndex} {heap : Heap} {e : FullID × List (Int × AccessBlockInfo)}
  {c : ChunkInfo AccessBlock}

/-- A resizable chunk has its size block at -1, and the bound is the absolute value of
the size field. -/
theorem Built.resizable (h : Built index heap e c) (hr : c.resizing.resizable) : ∃ info,
    e.2.head? = some (-1, info) ∧ SizeAdmitted index e.1 (heap e.1).getsize info.size ∧
      (c.sizeBound : Int) = |info.size| ∧
      (c.resizing = .expandable ∧ 0 < info.size ∨ c.resizing = .shrinkable ∧ info.size ≤ 0) := by
  obtain ⟨offset, info, n, hhead, hres, hbound⟩ := h.resizing
  obtain ⟨-, -, offset', info', hhead', hsize, -⟩ := h.admitted
  obtain ⟨rfl, rfl⟩ := Prod.mk.inj (Option.some.inj (hhead.symm.trans hhead'))
  unfold ChunkIndex.resizing at hres
  split at hres
  · obtain ⟨rt, -⟩ := Prod.mk.inj (Except.ok.inj hres)
    rw [← rt] at hr
    cases hr
  split at hres
  · rename_i hexp
    obtain ⟨rfl, hpos⟩ := hexp
    obtain ⟨rt, rfl⟩ := Prod.mk.inj (Except.ok.inj hres)
    have hadm := hsize rfl
    refine ⟨info, hhead, hadm, ?_, .inl ⟨rt.symm, hpos⟩⟩
    rw [hbound, ← abs_of_pos hpos, hadm.toUInt32_abs, abs_abs]
  split at hres
  · rename_i hshr
    obtain ⟨rfl, hle⟩ := hshr
    have hadm := hsize rfl
    have hneg : negate info.size = .ok (-info.size) := if_neg hadm.ne_min
    rw [hneg] at hres
    obtain ⟨rt, rfl⟩ := Prod.mk.inj (Except.ok.inj hres)
    refine ⟨info, hhead, hadm, ?_, .inr ⟨rt.symm, hle⟩⟩
    rw [hbound, ← abs_of_nonpos hle, hadm.toUInt32_abs]
  · obtain ⟨rt, -⟩ := Prod.mk.inj (Except.ok.inj hres)
    rw [← rt] at hr
    cases hr

theorem Built.sizeAllowed (h : Built index heap e c) {old new : Nat} (hs : SizeAllowed c old new) :
    DeclaredSize e.2 old new := by
  have hr : c.resizing.resizable := by
    cases hc : c.resizing <;> simp [SizeAllowed, hc, ResizingType.resizable] at hs ⊢
  obtain ⟨info, hhead, -, hbound, ⟨hc, hpos⟩ | ⟨hc, hle⟩⟩ := h.resizable hr
  · simp only [SizeAllowed, hc] at hs
    rw [abs_of_pos hpos] at hbound
    exact ⟨info, hhead, .inl ⟨hpos, hs.1, by omega⟩⟩
  · simp only [SizeAllowed, hc] at hs
    rw [abs_of_nonpos hle] at hbound
    exact ⟨info, hhead, .inr ⟨hle, by omega, hs.2⟩⟩

/-- A chunk with a declared change of its size is resizable. -/
theorem Built.resizable_of_declared (hb : Built index heap e c) {old new : Nat}
    (h : DeclaredSize e.2 old new) : c.resizing.resizable := by
  obtain ⟨info, hhead, -⟩ := h
  obtain ⟨offset, info', n, hhead', hres, -⟩ := hb.resizing
  obtain ⟨rfl, rfl⟩ := Prod.mk.inj (Option.some.inj (hhead.symm.trans hhead'))
  unfold ChunkIndex.resizing at hres
  split at hres
  · omega
  split at hres
  · rw [← (Prod.mk.inj (Except.ok.inj hres)).1]
    rfl
  split at hres
  · cases hneg : negate info.size with
    | error x =>
      rw [hneg] at hres
      cases hres
    | ok bound =>
      rw [hneg] at hres
      rw [← (Prod.mk.inj (Except.ok.inj hres)).1]
      rfl
  · omega

/-- A declared size is allowed. -/
theorem Built.sizeAllowed_of_declared (h : Built index heap e c) {old new : Nat}
    (hs : DeclaredSize e.2 old new) : SizeAllowed c old new := by
  obtain ⟨info, hhead, -, hbound, hkind⟩ := h.resizable (h.resizable_of_declared hs)
  obtain ⟨info', hhead', hchange⟩ := hs
  obtain ⟨-, rfl⟩ := Prod.mk.inj (Option.some.inj (hhead.symm.trans hhead'))
  obtain ⟨hc, hpos⟩ | ⟨hc, hle⟩ := hkind
  · rw [abs_of_pos hpos] at hbound
    simp only [SizeAllowed, hc]
    omega
  · rw [abs_of_nonpos hle] at hbound
    simp only [SizeAllowed, hc]
    omega

theorem Built.writes (h : Built index heap e c) {i : Nat}
    (hw : ∃ kb ∈ c.accessTable.entries, Writes kb i) :
    DeclaredWrite e.2 i := by
  obtain ⟨kb, hkb, hmay, hlo, hhi⟩ := hw
  rw [h.blocks] at hkb
  obtain ⟨b, hb, rfl⟩ := List.mem_map.mp hkb
  obtain ⟨hb, h0⟩ := List.mem_filter.mp hb
  have h0 : 0 ≤ b.1 := by simpa using h0
  have hlo : b.1.toNat ≤ i := hlo
  have hhi : i < b.1.toNat + toUInt32 b.2.size := hhi
  exact ⟨b, hb, hmay, h0, by omega, by omega⟩

theorem Built.sizeBound_le (h : Built index heap e c) : c.sizeBound ≤ maxChunkSize := by
  obtain ⟨offset, info, n, hhead, hres, hbound⟩ := h.resizing
  obtain ⟨-, -, offset', info', hhead', -, hle⟩ := h.admitted
  obtain ⟨rfl, rfl⟩ := Prod.mk.inj (Option.some.inj (hhead.symm.trans hhead'))
  have hn : n = sizeBoundOf offset info.size := by
    by_cases hoff : offset = -1
    · subst hoff
      by_cases hmin : info.size = -2 ^ 31
      · rw [hmin] at hres
        cases hres
      · obtain ⟨type, -, h1, h2⟩ := resizing_resizable hmin
        rw [h2]
        exact (Prod.mk.inj (Except.ok.inj (hres.symm.trans h1))).2
    · obtain ⟨type, -, h1, h2⟩ := resizing_fixed hoff info.size
      rw [h2]
      exact (Prod.mk.inj (Except.ok.inj (hres.symm.trans h1))).2
  rw [hbound, hn]
  exact hle

theorem Built.heapLocation (h : Built index heap e c) :
    ∀ kb ∈ c.accessTable.entries, kb.2.heapLocation = kb.1 := by
  intro kb hkb
  rw [h.blocks] at hkb
  obtain ⟨b, -, rfl⟩ := List.mem_map.mp hkb
  rfl

/-- A new chunk's information is as it was built. -/
theorem Built.kept (h : Built index heap e c) (chunk : Chunk) : Kept chunk c c := by
  refine ⟨rfl, List.forall₂_same.mpr fun b hb => ⟨.refl b, fun _ => ?_⟩, rfl, rfl, rfl,
    .inl h.initialSize,
    by rw [h.size], by rw [h.size], by rw [h.size]; simp⟩
  rw [← c.accessTable.map_snd_entries, h.blocks] at hb
  obtain ⟨kb, hkb, rfl⟩ := List.mem_map.mp hb
  obtain ⟨info, -, rfl⟩ := List.mem_map.mp hkb
  rfl

end ChunkIndex

/-! ## The write-back of all chunks -/

namespace RestrictedModifier
variable {version : Nat}

/-- With distinct chunks, each is written back as it stands in the heap. -/
theorem writeChunks_ok :
    ∀ {l : List (ChunkInfo AccessBlock)} {heap heap' : Heap}, (l.map ChunkInfo.ptr).Nodup →
    writeChunks version l heap = .ok heap' →
      (∀ c ∈ l, c.writeToHeap version (heap c.ptr) = .ok (heap' c.ptr)) ∧
      ∀ id, id ∉ l.map ChunkInfo.ptr → heap' id = heap id
  | [], heap, heap', _, h => by
    obtain rfl := Except.ok.inj h
    exact ⟨by simp, fun _ _ => rfl⟩
  | c :: rest, heap, heap', hnd, h => by
    obtain ⟨hc, hnd⟩ := List.nodup_cons.mp hnd
    rw [writeChunks] at h
    obtain ⟨chunk, hchunk, h⟩ := bind_ok.mp h
    obtain ⟨h1, h2⟩ := writeChunks_ok hnd h
    refine ⟨List.forall_mem_cons.mpr ⟨?_, fun d hd => ?_⟩, fun id hid => ?_⟩
    · rw [h2 _ hc, Function.update_self]
      exact hchunk
    · have hne : d.ptr ≠ c.ptr := fun heq => hc (heq ▸ List.mem_map_of_mem hd)
      have := h1 d hd
      rwa [Function.update_of_ne hne] at this
    · rw [List.map_cons, List.mem_cons, not_or] at hid
      rw [h2 _ hid.2, Function.update_of_ne hid.1]

theorem writeChunks_error : ∀ {l : List (ChunkInfo AccessBlock)} {heap : Heap} {e : Exn},
    (l.map ChunkInfo.ptr).Nodup → writeChunks version l heap = .error e →
    ∃ c ∈ l, c.writeToHeap version (heap c.ptr) = .error e
  | [], _, _, _, h => by cases h
  | c :: rest, heap, e, hnd, h => by
    obtain ⟨hc, hnd⟩ := List.nodup_cons.mp hnd
    rw [writeChunks] at h
    cases hchunk : c.writeToHeap version (heap c.ptr) with
    | error e' =>
      rw [hchunk] at h
      obtain rfl : e' = e := Except.error.inj h
      exact ⟨c, List.mem_cons_self, hchunk⟩
    | ok chunk =>
      rw [hchunk] at h
      obtain ⟨d, hd, hwrite⟩ := writeChunks_error hnd h
      have hne : d.ptr ≠ c.ptr := fun heq => hc (heq ▸ List.mem_map_of_mem hd)
      rw [Function.update_of_ne hne] at hwrite
      exact ⟨d, List.mem_cons_of_mem _ hd, hwrite⟩

end RestrictedModifier

namespace ChunkIndex
variable {index : ChunkIndex} {heap₁ heap : Heap} {rawAccessMap : AccessMapType}
  {m : RestrictedModifier AccessBlock}

/-- The information of the chunk of an entry after some operations. -/
def AfterRun (index : ChunkIndex) (heap₁ heap : Heap) (e : FullID × List (Int × AccessBlockInfo))
    (c : ChunkInfo AccessBlock) : Prop := ∃ c₀, Built index heap₁ e c₀ ∧ Kept (heap e.1) c₀ c

theorem AfterRun.ptr {e : FullID × List (Int × AccessBlockInfo)} {c : ChunkInfo AccessBlock}
    (h : AfterRun index heap₁ heap e c) : c.ptr = e.1 := by
  obtain ⟨c₀, hb, hk⟩ := h
  exact hk.ptr.trans hb.ptr

/-- After any run every chunk's information is kept as it was built. -/
theorem run_kept (heap : Heap) (hm : index.buildModifier heap₁ rawAccessMap = .ok m)
    (ops : List Op) :
    List.Forall₂ (AfterRun index heap₁ heap) (chunkEntries rawAccessMap)
      (m.run heap ops).2.appsAccessMaps.chunkInfos := by
  let R : ChunkInfo AccessBlock → ChunkInfo AccessBlock → Prop := fun c₀ c =>
    Kept (heap c₀.ptr) c₀ c ∧ c₀.sizeBound ≤ maxChunkSize
  have hstep : ∀ c₀ c version op, R c₀ c → R c₀ (c.exec (heap c.ptr) version op).2 := by
    intro c₀ c version op ⟨hk, hbound⟩
    rw [hk.ptr]
    exact ⟨hk.exec hbound version op, hbound⟩
  have hstart : AppMap.Lift R m.appsAccessMaps m.appsAccessMaps := by
    refine ⟨rfl, List.forall₂_same.mpr fun chunkMap hmap =>
      ⟨rfl, List.forall₂_same.mpr fun c hc => ?_⟩⟩
    obtain ⟨e, -, hb⟩ := forall₂_mem_right (buildModifier_built hm)
      (List.mem_flatMap.mpr ⟨chunkMap, hmap, hc⟩)
    exact ⟨hb.kept _, hb.sizeBound_le⟩
  have hrun := (RestrictedModifier.run_lift hstep ops m hstart).chunkInfos
  refine (forall₂_comp (buildModifier_built hm) hrun).imp fun e c ⟨c₀, hb, hk, _⟩ => ⟨c₀, hb, ?_⟩
  rwa [hb.ptr] at hk

/-- The write-back of one chunk of the map. -/
theorem AfterRun.writeToHeap {e : FullID × List (Int × AccessBlockInfo)} {c : ChunkInfo AccessBlock}
    (h : AfterRun index heap₁ heap e c) (version : Nat)
    (hreserved : ∀ e ∈ index.sizeBoundsInfo.entries, toUInt32 e.2.sizeUpperBound ≤
      (heap e.1).capacity) :
    (∀ x, c.writeToHeap version (heap e.1) = .error x → x = .assertion "size <= sizeof(int64_t)") ∧
      ∀ chunk', c.writeToHeap version (heap e.1) = .ok chunk' →
        ChunkFrame (DeclaredWrite e.2) (DeclaredSize e.2) (heap e.1) chunk' := by
  obtain ⟨c₀, hb, hk⟩ := h
  have hcap : c₀.resizing = .expandable → c₀.sizeBound ≤ (heap e.1).capacity := by
    intro hexp
    obtain ⟨info, -, ⟨bounds, hat, hadm⟩, hbound, -⟩ := hb.resizable (by rw [hexp]; rfl)
    rcases index.sizeBoundsInfo.at_cases e.1 with ⟨v, hv, hmem⟩ | hv
    · obtain rfl : bounds = v := Except.ok.inj (hat.symm.trans hv)
      have hcap := hreserved _ hmem
      have hup := toUInt32_nonneg bounds.upper_range ((abs_nonneg _).trans hadm.bound)
      have hle := hadm.bound
      simp only at hcap
      omega
    · rw [hat] at hv
      cases hv
  obtain ⟨h1, h2⟩ := hk.writeToHeap version hb.heapLocation hcap
  exact ⟨h1, fun chunk' hc' => (h2 chunk' hc').mono (fun i hw => hb.writes hw) hb.sizeAllowed⟩

/-- No block of a chunk that is not writable was admitted if it may write. -/
theorem AfterRun.unwritten {e : FullID × List (Int × AccessBlockInfo)} {c : ChunkInfo AccessBlock}
    (h : AfterRun index heap₁ heap e c) (hw : (heap₁ e.1).isWritable = false) :
    ∀ b ∈ e.2, b.2.accessType.mayWrite = false := by
  obtain ⟨c₀, hb, -⟩ := h
  intro b hmem
  by_contra hmay
  have hwritable := (hb.admitted.2.1 b hmem).1 (by simpa using hmay)
  rw [hw] at hwritable
  cases hwritable

/-! ## Confinement -/

/-- What a request may change of the heap: nothing outside its map and nothing of a page that is
only read, and of a chunk of its map the bytes of the blocks that may write, and the size as a
writable size block declares it. -/
structure Confined (readonlyPages writablePages : List Page) (rawAccessMap : AccessMapType)
    (heap heap' : Heap) : Prop where
  outside : ∀ id, id ∉ (chunkEntries rawAccessMap).map Prod.fst → heap' id = heap id
  readonly : ∀ id, (∃ p ∈ readonlyPages, id ∈ p.chunks) → (∀ p ∈ writablePages, id ∉ p.chunks) →
    heap' id = heap id
  inside : ∀ e ∈ chunkEntries rawAccessMap, ChunkFrame (DeclaredWrite e.2)
    (fun old new => SizeBlockWritable e.2 ∧ DeclaredSize e.2 old new) (heap e.1) (heap' e.1)

/-- Every write-back of a request whose size blocks are declared writable is confined. -/
theorem confined_of_writable (readonlyPages writablePages : List Page)
    (chunkBounds : OrderedStaticMap FullID ChunkBoundsInfo) (heap₀ : Heap)
    (hnew : new readonlyPages writablePages chunkBounds heap₀ = .ok (index, heap₁))
    (hsorted : SortedKeys rawAccessMap) (hm : index.buildModifier heap₁ rawAccessMap = .ok m)
    (hspace : SameSpace heap₁ heap)
    (hwritable : ∀ e ∈ chunkEntries rawAccessMap,
      LetsResize e.2 (heap e.1).getsize → SizeBlockWritable e.2) (ops : List Op) :
    (∀ x, (m.run heap ops).2.writeToHeap heap = .error x →
        x = .assertion "size <= sizeof(int64_t)") ∧
      ∀ heap', (m.run heap ops).2.writeToHeap heap = .ok heap' →
        Confined readonlyPages writablePages rawAccessMap heap heap' := by
  have hrun := run_kept heap hm ops
  have hreserved : ∀ e ∈ index.sizeBoundsInfo.entries,
      toUInt32 e.2.sizeUpperBound ≤ (heap e.1).capacity := by
    intro e he
    rw [(hspace e.1).1]
    exact new_reserved hnew e he
  generalize (m.run heap ops).2 = m' at hrun ⊢
  have hptrs : m'.appsAccessMaps.chunkInfos.map ChunkInfo.ptr =
      (chunkEntries rawAccessMap).map Prod.fst := by
    apply List.forall₂_eq_eq_eq ▸
      (List.forall₂_map_left_iff.mpr (List.forall₂_map_right_iff.mpr (hrun.flip.imp ?_)))
    intro c e h
    exact AfterRun.ptr (h : AfterRun index heap₁ heap e c)
  have hnodup := hptrs ▸ hsorted.distinct
  unfold RestrictedModifier.writeToHeap
  split
  · -- nothing was saved, so nothing is written
    refine ⟨fun x hx => (by cases hx), fun heap' h => ?_⟩
    obtain rfl := Except.ok.inj h
    exact ⟨fun _ _ => rfl, fun _ _ _ => rfl, fun _ _ => .refl _ _ _⟩
  refine ⟨fun x hx => ?_, fun heap' h => ?_⟩
  · obtain ⟨c, hc, hx⟩ := RestrictedModifier.writeChunks_error hnodup hx
    obtain ⟨e, -, hec⟩ := forall₂_mem_right hrun hc
    rw [hec.ptr] at hx
    exact (hec.writeToHeap _ hreserved).1 x hx
  obtain ⟨hin, hout⟩ := RestrictedModifier.writeChunks_ok hnodup h
  rw [hptrs] at hout
  -- chunk by chunk, a change of size is one that the size block declares
  have hchunk : ∀ e ∈ chunkEntries rawAccessMap, ∃ c, AfterRun index heap₁ heap e c ∧
      ChunkFrame (DeclaredWrite e.2) (fun old new => SizeBlockWritable e.2 ∧
        DeclaredSize e.2 old new)
        (heap e.1) (heap' e.1) := by
    intro e he
    obtain ⟨c, hc, hec⟩ := forall₂_mem_left hrun he
    have hwrite := hin c hc
    rw [hec.ptr] at hwrite
    have hframe := (hec.writeToHeap _ hreserved).2 _ hwrite
    refine ⟨c, hec, { hframe with size := ?_ }⟩
    obtain hsame | hne := eq_or_ne (heap' e.1).getsize (heap e.1).getsize
    · exact .inl hsame
    · have hdeclared := hframe.size.resolve_left hne
      exact .inr ⟨hwritable e he ⟨_, hne, hdeclared⟩, hdeclared⟩
  refine ⟨hout, fun id hread hwrite => ?_, fun e he => (hchunk e he).choose_spec.2⟩
  by_cases hid : id ∈ (chunkEntries rawAccessMap).map Prod.fst
  · -- no block of a chunk that is only read is declared writable
    obtain ⟨e, he, rfl⟩ := List.mem_map.mp hid
    obtain ⟨c, hec, hframe⟩ := hchunk e he
    have hpassive := hec.unwritten (new_readonly hnew hread hwrite)
    refine hframe.eq_of_fixed ?_ ?_
    · rintro i ⟨b, hb, hmay, -⟩
      rw [hpassive b hb] at hmay
      cases hmay
    · obtain hsame | ⟨hform, info, hhead, -⟩ := hframe.size
      · exact hsame
      · have hmay := hpassive (-1, info) (List.mem_of_mem_head? hhead)
        simp only [hform info hhead] at hmay
        cases hmay
  · exact hout id hid

/-! ## A request that resizes -/

/-- A chunk's information as it was built shows the chunk. -/
theorem Built.shows {e : FullID × List (Int × AccessBlockInfo)} {c : ChunkInfo AccessBlock}
    (h : Built index heap e c) (chunk : Chunk) (version : Nat) :
    Shows version chunk c c (.initial chunk) := by
  refine ⟨h.kept _, ?_, fun kb hkb => ?_⟩
  · unfold ChunkInfo.shownSize
    rw [h.size, h.initialSize]
    rfl
  · rw [h.blocks] at hkb
    obtain ⟨info, -, rfl⟩ := List.mem_map.mp hkb
    rfl

/-- Every chunk of a sorted map is found by its identifiers. -/
theorem buildModifier_load (hm : index.buildModifier heap rawAccessMap = .ok m)
    (hsorted : SortedKeys rawAccessMap) {e : FullID × List (Int × AccessBlockInfo)}
    (he : e ∈ chunkEntries rawAccessMap) :
    ∃ (appID accountID localID : LongID) (p : Nat × Nat) (c : ChunkInfo AccessBlock),
      m.appsAccessMaps.get p = some c ∧ Built index heap e c ∧
      (m.loadContext appID).loadChunk accountID localID =
        (.ok (), { m with chunks := some p.1, currentChunk := some p }) := by
  obtain ⟨⟨appID, chunkMap⟩, happ, he⟩ := List.mem_flatMap.mp he
  obtain ⟨⟨id, blocks⟩, hchunk, rfl⟩ := List.mem_map.mp he
  obtain ⟨i, hi⟩ := List.mem_iff_getElem?.mp happ
  obtain ⟨j, hj⟩ := List.mem_iff_getElem?.mp hchunk
  rw [buildModifier_eq] at hm
  cases hmaps : (rawAccessMap.entries.mapM (fun e => index.buildChunkMap heap e.1 e.2) >>=
      OrderedStaticMap.mk? rawAccessMap.keys) with
  | error x =>
    rw [hmaps] at hm
    cases hm
  | ok maps =>
    rw [hmaps] at hm
    obtain rfl := Except.ok.inj hm
    obtain ⟨hkeys, happs⟩ := OrderedStaticMap.mapM_mk?_ok hmaps
    obtain ⟨hnone, -⟩ | ⟨app, chunks, hi', hmap, hbuild⟩ := forall₂_getElem? happs i
    · rw [hi] at hnone
      cases hnone
    obtain rfl := Option.some.inj (hi.symm.trans hi')
    obtain ⟨hkeys', hchunks⟩ := OrderedStaticMap.mapM_mk?_ok hbuild
    obtain ⟨hnone, -⟩ | ⟨chunk, c, hj', hc, hbuild'⟩ := forall₂_getElem? hchunks j
    · rw [hj] at hnone
      cases hnone
    obtain rfl := Option.some.inj (hj.symm.trans hj')
    -- both searches end at the place of the entry, for the keys are sorted
    have hfirst : OrderedStaticMap.find maps.keys appID = .ok i :=
      hkeys ▸ OrderedStaticMap.find_entry hsorted.apps hi
    have hsecond : OrderedStaticMap.find chunks.keys id = .ok j :=
      hkeys' ▸ OrderedStaticMap.find_entry (hsorted.chunks _ happ) hj
    refine ⟨appID, (ofLex id).1, (ofLex id).2, (i, j), c,
      Option.bind_eq_some_iff.mpr ⟨chunks, hmap, hc⟩, buildChunk_built hbuild', ?_⟩
    have hid : toLex ((ofLex id).1, (ofLex id).2) = id := rfl
    simp only [RestrictedModifier.loadContext, RestrictedModifier.loadChunk, hfirst,
      Except.toOption, Option.bind_some, hmap, Option.map_some, hid, hsecond]

/-- The request loads the chunk, saves and gives the chunk another size. -/
def resizingOps (appID accountID localID : LongID) (newSize : Nat) : List Op :=
  [.loadContext appID, .loadChunk accountID localID, .saveVersion,
    .access (.updateChunkSize newSize)]

theorem run_resizingOps (heap : Heap) (hm : index.buildModifier heap₁ rawAccessMap = .ok m)
    {appID accountID localID : LongID} {p : Nat × Nat} {c : ChunkInfo AccessBlock}
    (hget : m.appsAccessMaps.get p = some c)
    (hload : (m.loadContext appID).loadChunk accountID localID =
      (.ok (), { m with chunks := some p.1, currentChunk := some p })) (newSize : Nat) :
    (m.run heap (resizingOps appID accountID localID newSize)).2.currentVersion = 1 ∧
      (m.run heap (resizingOps appID accountID localID newSize)).2.appsAccessMaps =
        m.appsAccessMaps.set p (c.exec (heap c.ptr) 1 (.updateChunkSize newSize)).2 := by
  have hversion := (buildModifier_new hm).1
  have hnew : 0 ≠ maxVersion := by decide
  simp only [resizingOps, RestrictedModifier.run, RestrictedModifier.exec, hload,
    RestrictedModifier.saveVersion, hversion, if_neg hnew, RestrictedModifier.access, hget]
  exact ⟨trivial, trivial⟩

/-- A chunk whose blocks hold nothing fails to be written back only by its size. -/
theorem AfterRun.writeToHeap_untouched {e : FullID × List (Int × AccessBlockInfo)}
    {c : ChunkInfo AccessBlock} (h : AfterRun index heap₁ heap e c)
    (huntouched : ∀ kb ∈ c.accessTable.entries, kb.2.versionList = []) {version : Nat} {x : Exn}
    (hx : c.writeToHeap version (heap e.1) = .error x) : x = .assertion "newSize <= capacity" := by
  obtain ⟨c₀, -, hk⟩ := h
  obtain ⟨n, c', hread, -, -⟩ := hk.readSize version
  unfold ChunkInfo.writeToHeap at hx
  rw [hread] at hx
  cases hmid : c.resizeTo (heap e.1) n with
  | error y =>
    simp only [bind, Except.bind, hmid] at hx
    obtain rfl := Except.error.inj hx
    unfold ChunkInfo.resizeTo Chunk.setSize at hmid
    split at hmid
    · split at hmid
      · cases hmid
      · exact (Except.error.inj hmid).symm
    · cases hmid
  | ok mid =>
    simp only [bind, Except.bind, hmid, writeBlocks_untouched huntouched, ite_self] at hx
    cases hx

/-- A request of which every write-back is confined has declared the size blocks writable that let
the size change. -/
theorem writable_of_confined {readonlyPages writablePages : List Page}
    (hsorted : SortedKeys rawAccessMap) (hm : index.buildModifier heap₁ rawAccessMap = .ok m)
    (hconfined : ∀ ops, (∀ x, (m.run heap ops).2.writeToHeap heap = .error x →
        x = .assertion "size <= sizeof(int64_t)") ∧
      ∀ heap', (m.run heap ops).2.writeToHeap heap = .ok heap' →
        Confined readonlyPages writablePages rawAccessMap heap heap')
    {e : FullID × List (Int × AccessBlockInfo)} (he : e ∈ chunkEntries rawAccessMap)
    (hlets : LetsResize e.2 (heap e.1).getsize) : SizeBlockWritable e.2 := by
  obtain ⟨newSize, hne, hdeclared⟩ := hlets
  obtain ⟨appID, accountID, localID, p, c, hget, hb, hload⟩ := buildModifier_load hm hsorted he
  obtain ⟨hversion, hmaps⟩ := run_resizingOps heap hm hget hload newSize
  have hkept := run_kept heap hm (resizingOps appID accountID localID newSize)
  have hresult := hconfined (resizingOps appID accountID localID newSize)
  generalize (m.run heap (resizingOps appID accountID localID newSize)).2 = m' at *
  -- the operation on the size returns
  have hallowed := hb.sizeAllowed_of_declared hdeclared
  have hlt : newSize < 2 ^ 32 := by
    have hbound := hb.sizeBound_le
    have hold := Chunk.getsize_le (heap e.1)
    cases hres : c.resizing <;> simp [SizeAllowed, hres, maxChunkSize] at hallowed hbound <;> omega
  have hshows := hb.shows (heap e.1) 1
  obtain ⟨c', hexec, htable⟩ := hshows.updateChunkSize_ok (Nat.le_refl 1) hallowed
  have hresized := hshows.updateChunkSize hb.sizeBound_le hlt hexec
  rw [hb.ptr, hexec] at hmaps
  -- no block is touched
  have hlift : AppMap.Lift (fun _ c => ∀ kb ∈ c.accessTable.entries, kb.2.versionList = [])
      m.appsAccessMaps m'.appsAccessMaps := by
    have hfresh : ∀ d ∈ m.appsAccessMaps.chunkInfos,
        ∀ kb ∈ d.accessTable.entries, kb.2.versionList = [] := by
      intro d hd kb hkb
      obtain ⟨e', -, hb'⟩ := forall₂_mem_right (buildModifier_built hm) hd
      rw [hb'.blocks] at hkb
      obtain ⟨info, -, rfl⟩ := List.mem_map.mp hkb
      rfl
    have hself : AppMap.Lift (fun _ c => ∀ kb ∈ c.accessTable.entries, kb.2.versionList = [])
        m.appsAccessMaps m.appsAccessMaps :=
      ⟨rfl, List.forall₂_same.mpr fun chunkMap hmap => ⟨rfl, List.forall₂_same.mpr fun d hd =>
        hfresh d (List.mem_flatMap.mpr ⟨chunkMap, hmap, hd⟩)⟩⟩
    rw [hmaps]
    exact hself.set_right hget (htable ▸ hfresh c (AppMap.get_mem hget))
  have hptrs : m'.appsAccessMaps.chunkInfos.map ChunkInfo.ptr =
      (chunkEntries rawAccessMap).map Prod.fst := by
    apply List.forall₂_eq_eq_eq ▸
      (List.forall₂_map_left_iff.mpr (List.forall₂_map_right_iff.mpr (hkept.flip.imp ?_)))
    intro d e' h
    exact AfterRun.ptr (h : AfterRun index heap₁ heap e' d)
  have hnodup := hptrs ▸ hsorted.distinct
  obtain ⟨herror, hok⟩ := hresult
  unfold RestrictedModifier.writeToHeap at herror hok
  rw [hversion, if_neg Nat.one_ne_zero] at herror hok
  cases hwrite : RestrictedModifier.writeChunks 1 m'.appsAccessMaps.chunkInfos heap with
  | error x =>
    obtain ⟨d, hd, hx⟩ := RestrictedModifier.writeChunks_error hnodup hwrite
    obtain ⟨e', -, hafter⟩ := forall₂_mem_right hkept hd
    obtain ⟨-, -, huntouched⟩ := forall₂_mem_right hlift.chunkInfos hd
    rw [hafter.ptr] at hx
    have hsize := hafter.writeToHeap_untouched huntouched hx
    rw [herror x hwrite] at hsize
    exact absurd (Exn.assertion.inj hsize) (by decide)
  | ok heap' =>
    have hframe := (hok heap' hwrite).inside e he
    have hmem : c' ∈ m'.appsAccessMaps.chunkInfos := by
      rw [hmaps]
      exact AppMap.get_mem (AppMap.get_set_self hget)
    have hchunk := (RestrictedModifier.writeChunks_ok hnodup hwrite).1 c' hmem
    rw [hresized.kept.ptr, hb.ptr] at hchunk
    have hsize : (heap' e.1).chunkSize = newSize := hresized.chunkSize_of_writeToHeap
      (hb.resizable_of_declared hdeclared) hb.heapLocation hchunk
    exact (hframe.size.resolve_left fun hsame => hne (hsize.symm.trans hsame)).1

/-- **Write confinement.** Whatever a modifier that was built runs, its write-back fails only for an
addition to an integer of more than 8 bytes and changes nothing but what the request has declared,
exactly if every size block that lets the size of its chunk change is declared writable. -/
theorem write_confinement_iff (readonlyPages writablePages : List Page)
    (chunkBounds : OrderedStaticMap FullID ChunkBoundsInfo) (heap₀ : Heap)
    (hnew : new readonlyPages writablePages chunkBounds heap₀ = .ok (index, heap₁))
    (hsorted : SortedKeys rawAccessMap) (hm : index.buildModifier heap₁ rawAccessMap = .ok m)
    (hspace : SameSpace heap₁ heap) :
    (∀ ops, (∀ x, (m.run heap ops).2.writeToHeap heap = .error x →
          x = .assertion "size <= sizeof(int64_t)") ∧
        ∀ heap', (m.run heap ops).2.writeToHeap heap = .ok heap' →
          Confined readonlyPages writablePages rawAccessMap heap heap') ↔
      ∀ e ∈ chunkEntries rawAccessMap, LetsResize e.2 (heap e.1).getsize → SizeBlockWritable e.2 :=
  ⟨fun hconfined _ he hlets => writable_of_confined hsorted hm hconfined he hlets,
    fun hwritable ops => confined_of_writable readonlyPages writablePages chunkBounds heap₀ hnew
      hsorted hm hspace hwritable ops⟩

/-- A request that expands a chunk of one byte to two, writing both, and reads a chunk of a page
that is only read. -/
theorem write_confinement_expand :
    let id : FullID := toLex (0, toLex (0, 0))
    let read : FullID := toLex (0, toLex (0, 1))
    let heap : Heap := fun _ => { content := [3, 0], chunkSize := 1 }
    let bounds : ChunkBoundsInfo := { sizeUpperBound := 2, sizeLowerBound := 1 }
    let blocks : BlockMap := ⟨[-1, 0], [⟨2, .writable, 0⟩, ⟨2, .writable, 0⟩], rfl⟩
    let readBlocks : BlockMap := ⟨[-3, 0], [⟨0, .check_only, 0⟩, ⟨1, .read_only, 0⟩], rfl⟩
    let rawAccessMap : AccessMapType :=
      ⟨[0], [⟨[toLex (0, 0), toLex (0, 1)], [blocks, readBlocks], rfl⟩], rfl⟩
    ∃ index heap₁ m, new [⟨read, []⟩] [⟨id, []⟩] ⟨[id], [bounds], rfl⟩ heap = .ok (index, heap₁) ∧
      index.buildModifier heap₁ rawAccessMap = .ok m ∧
      ∀ ops heap', (m.run heap₁ ops).2.writeToHeap heap₁ = .ok heap' →
        Confined [⟨read, []⟩] [⟨id, []⟩] rawAccessMap heap₁ heap' := by
  intro id read heap bounds blocks readBlocks rawAccessMap
  let heapRead : Heap := Function.update heap read ((heap read).setWritable false)
  let heapSet : Heap := Function.update heapRead id ((heapRead id).setWritable true)
  let heap₁ : Heap := Function.update heapSet id (heapSet id)
  let index : ChunkIndex := ⟨[id, read], ⟨[id], [bounds], rfl⟩, by decide⟩
  have hnew : new [⟨read, []⟩] [⟨id, []⟩] ⟨[id], [bounds], rfl⟩ heap = .ok (index, heap₁) := rfl
  have hentries : ∀ e ∈ chunkEntries rawAccessMap,
      e = (id, blocks.entries) ∨ e = (read, readBlocks.entries) := by
    intro e he
    obtain rfl | he := List.mem_cons.mp he
    · exact .inl rfl
    · exact .inr (List.mem_singleton.mp he)
  have hsorted : SortedKeys rawAccessMap := by
    refine ⟨List.pairwise_singleton _ _, fun app happ => ?_⟩
    obtain rfl := List.mem_singleton.mp happ
    decide
  have hadm : ∀ e ∈ chunkEntries rawAccessMap, Admitted index heap₁ e := by
    intro e he
    have hat : index.sizeBoundsInfo.at id = .ok bounds := by decide
    obtain rfl | rfl := hentries e he
    · exact ⟨by decide, by decide, -1, ⟨2, .writable, 0⟩, rfl,
        fun _ => ⟨_, hat, by decide, by decide, by decide, by decide, by decide⟩, by decide⟩
    · exact ⟨by decide, by decide, -3, ⟨0, .check_only, 0⟩, rfl, fun h => (by cases h), by decide⟩
  have hwritable : ∀ e ∈ chunkEntries rawAccessMap, SizeBlockWritable e.2 := by
    intro e he info hhead
    obtain rfl | rfl := hentries e he
    · obtain ⟨-, rfl⟩ := Prod.mk.inj (Option.some.inj hhead)
      rfl
    · cases (Prod.mk.inj (Option.some.inj hhead)).1
  obtain ⟨m, hm⟩ := buildModifier_ok_iff.mpr hadm
  have hconfined := (write_confinement_iff [⟨read, []⟩] [⟨id, []⟩] ⟨[id], [bounds], rfl⟩ heap hnew
    hsorted hm (.refl heap₁)).mpr fun e he _ => hwritable e he
  exact ⟨index, heap₁, m, hnew, hm, fun ops heap' h => (hconfined ops).2 heap' h⟩

/-- The size block of a chunk of a page that is only read is declared read-only: it is admitted, and
the request expands the chunk. -/
theorem write_confinement_resizes_readonly :
    let id : FullID := toLex (0, toLex (0, 0))
    let heap : Heap := fun _ => { content := [3, 0], chunkSize := 1 }
    let bounds : ChunkBoundsInfo := { sizeUpperBound := 2, sizeLowerBound := 1 }
    let blocks : BlockMap := ⟨[-1], [⟨2, .read_only, 0⟩], rfl⟩
    let rawAccessMap : AccessMapType := ⟨[0], [⟨[toLex (0, 0)], [blocks], rfl⟩], rfl⟩
    ∃ index heap₁ m heap', new [⟨id, []⟩] [] ⟨[id], [bounds], rfl⟩ heap = .ok (index, heap₁) ∧
      SortedKeys rawAccessMap ∧ index.buildModifier heap₁ rawAccessMap = .ok m ∧
      (m.run heap₁ (resizingOps 0 0 0 2)).2.writeToHeap heap₁ = .ok heap' ∧
      (heap₁ id).getsize = 1 ∧ (heap' id).getsize = 2 ∧
      ¬ Confined [⟨id, []⟩] [] rawAccessMap heap₁ heap' := by
  intro id heap bounds blocks rawAccessMap
  let heapRead : Heap := Function.update heap id ((heap id).setWritable false)
  let heap₁ : Heap := Function.update heapRead id (heapRead id)
  let index : ChunkIndex := ⟨[id], ⟨[id], [bounds], rfl⟩, by decide⟩
  have hnew : new [⟨id, []⟩] [] ⟨[id], [bounds], rfl⟩ heap = .ok (index, heap₁) := rfl
  have hsorted : SortedKeys rawAccessMap := by
    refine ⟨List.pairwise_singleton _ _, fun app happ => ?_⟩
    obtain rfl := List.mem_singleton.mp happ
    exact List.pairwise_singleton _ _
  have hsize : ((index.buildModifier heap₁ rawAccessMap).bind fun m =>
      ((m.run heap₁ (resizingOps 0 0 0 2)).2.writeToHeap heap₁).map fun heap' =>
        (heap' id).getsize).toOption = some 2 := by
    decide +kernel
  cases hm : index.buildModifier heap₁ rawAccessMap with
  | error x =>
    rw [hm] at hsize
    cases hsize
  | ok m =>
    rw [hm] at hsize
    cases hwrite : (m.run heap₁ (resizingOps 0 0 0 2)).2.writeToHeap heap₁ with
    | error x =>
      simp only [Except.bind, hwrite] at hsize
      cases hsize
    | ok heap' =>
      simp only [Except.bind, hwrite] at hsize
      have hexpanded : (heap' id).getsize = 2 := Option.some.inj hsize
      refine ⟨index, heap₁, m, heap', hnew, hsorted, hm, hwrite, rfl, hexpanded,
        fun hconfined => ?_⟩
      have hkept := hconfined.readonly id ⟨_, List.mem_singleton_self _, List.mem_cons_self⟩
        fun p hp => by cases hp
      rw [hkept] at hexpanded
      cases hexpanded

end ChunkIndex
end Argennon
