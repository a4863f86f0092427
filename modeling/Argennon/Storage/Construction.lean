import Argennon.Storage.Admission

/- Which block data ends the construction of the index and of the modifiers by a failed
   assertion, or by undefined behaviour, instead of an exception.

   Block sizes never do: a block is built inside the allocated memory. The upper bound
   of a chunk does when it is negative or over the allowed capacity, and so does the
   size field of a chunk that is not resizable, which no check looks at before the
   assertion of its constructor. -/
namespace Argennon

theorem toUInt32_le_iff {i : Int} (h : IsInt32 i) {n : Nat} (hn : n < 2 ^ 31) :
    toUInt32 i ≤ n ↔ 0 ≤ i ∧ i ≤ n := by
  by_cases h0 : 0 ≤ i
  · have := toUInt32_nonneg h h0
    omega
  · have := toUInt32_neg h (not_le.mp h0)
    omega

namespace ChunkIndex
variable {index : ChunkIndex} {heap : Heap}

/-! ## The bounds -/

/-- The first listed chunk that is in no page, or whose upper bound cannot be reserved,
is in a page. -/
def ReserveAborts (indexed : FullID → Prop) : List (FullID × ChunkBoundsInfo) → Prop
  | [] => False
  | (id, bounds) :: rest => indexed id ∧
    (¬ (0 ≤ bounds.sizeUpperBound ∧ bounds.sizeUpperBound ≤ 64 * 1024) ∨ ReserveAborts indexed rest)

/-- Reserving space depends on the upper bound alone. -/
theorem reserveSpace_cases (c : Chunk) (bounds : ChunkBoundsInfo) :
    (0 ≤ bounds.sizeUpperBound ∧ bounds.sizeUpperBound ≤ 64 * 1024 ∧
        ∃ c', c.reserveSpace (toUInt32 bounds.sizeUpperBound) = .ok c') ∨
      (¬ (0 ≤ bounds.sizeUpperBound ∧ bounds.sizeUpperBound ≤ 64 * 1024) ∧
        c.reserveSpace (toUInt32 bounds.sizeUpperBound) =
          .error (.assertion "newCapacity <= maxAllowedCapacity && newCapacity >= 0")) := by
  have hle : toUInt32 bounds.sizeUpperBound ≤ maxAllowedCapacity ↔
      0 ≤ bounds.sizeUpperBound ∧ bounds.sizeUpperBound ≤ 64 * 1024 :=
    toUInt32_le_iff bounds.upper_range (n := 64 * 1024) (by decide)
  unfold Chunk.reserveSpace
  by_cases h : toUInt32 bounds.sizeUpperBound ≤ maxAllowedCapacity
  · refine .inl ⟨(hle.mp h).1, (hle.mp h).2, ?_⟩
    rw [dif_pos h]
    split <;> exact ⟨_, rfl⟩
  · exact .inr ⟨fun hb => h (hle.mpr hb), dif_neg h⟩

theorem reserve_ends_iff (chunkIndex : List FullID) :
    ∀ (l : List (FullID × ChunkBoundsInfo)) (heap : Heap),
    Ends (reserve chunkIndex l heap) ↔ ¬ ReserveAborts (· ∈ chunkIndex) l
  | [], heap => iff_of_true (ends_ok rfl) id
  | (id, bounds) :: rest, heap => by
    by_cases hid : id ∈ chunkIndex
    · have hget : getChunk chunkIndex id = .ok id := if_pos hid
      rw [reserve, ReserveAborts, hget]
      simp only [bind, Except.bind, hid, true_and]
      rcases reserveSpace_cases (heap id) bounds with ⟨h0, hle, c', hc'⟩ | ⟨hno, hc'⟩
      · simp only [hc', h0, hle, and_self, not_true_eq_false, false_or]
        exact reserve_ends_iff chunkIndex rest _
      · simp only [hc', hno, not_false_eq_true, true_or, not_true_eq_false, iff_false]
        exact fun h => h _ rfl
    · have hget : getChunk chunkIndex id = .error (.blockError "missing proof of non-existence") :=
        if_neg hid
      rw [reserve, ReserveAborts, hget]
      exact iff_of_true ((ends_error rfl).mpr trivial) fun h => hid h.1

/-- The indexed chunks are those of the pages. -/
theorem indexPages_mem (writable : Bool) (pages : List Page) (s : List FullID × Heap)
    (id : FullID) :
    id ∈ (pages.foldl (indexPage writable) s).1 ↔ id ∈ s.1 ∨ ∃ p ∈ pages, id ∈ p.chunks := by
  have hchunks : ∀ (ids : List FullID) (s : List FullID × Heap),
      id ∈ (ids.foldl (emplace writable) s).1 ↔ id ∈ s.1 ∨ id ∈ ids := by
    intro ids
    induction ids with
    | nil => simp
    | cons k ids ih =>
      intro s
      have hk : id ∈ (emplace writable s k).1 ↔ id = k ∨ id ∈ s.1 := by
        unfold emplace
        by_cases h : k ∈ s.1
        · simp only [h, if_true]
          exact (or_iff_right_of_imp fun heq => heq ▸ h).symm
        · simp [h]
      rw [List.foldl_cons, ih, hk, List.mem_cons, or_comm (a := id = k), or_assoc]
  induction pages generalizing s with
  | nil => simp
  | cons p pages ih =>
    have hstep : id ∈ (indexPage writable s p).1 ↔ id ∈ s.1 ∨ id ∈ p.chunks := hchunks p.chunks s
    exact (ih (indexPage writable s p)).trans (by rw [hstep, List.exists_mem_cons_iff, or_assoc])

/-- The constructor ends in an assertion exactly when reserving the space does. -/
theorem new_ends_iff (readonlyPages writablePages : List Page)
    (chunkBounds : OrderedStaticMap FullID ChunkBoundsInfo) (heap : Heap) :
    Ends (new readonlyPages writablePages chunkBounds heap) ↔
      ¬ ReserveAborts (fun id => ∃ p ∈ readonlyPages ++ writablePages, id ∈ p.chunks)
        chunkBounds.entries := by
  have hmem : ∀ id, id ∈
      (writablePages.foldl (indexPage true) (readonlyPages.foldl (indexPage false) ([], heap))).1 ↔
        ∃ p ∈ readonlyPages ++ writablePages, id ∈ p.chunks := by
    intro id
    rw [indexPages_mem, indexPages_mem]
    simp [or_and_right, exists_or]
  have hres := reserve_ends_iff
    (writablePages.foldl (indexPage true) (readonlyPages.foldl (indexPage false) ([], heap))).1
    chunkBounds.entries (writablePages.foldl (indexPage true)
      (readonlyPages.foldl (indexPage false) ([], heap))).2
  simp only [hmem] at hres
  rw [← hres]
  unfold new
  simp only
  split
  · rename_i e he
    rw [ends_error rfl, ends_error he]
  · rename_i heap' he
    exact iff_of_true (ends_ok rfl) (ends_ok he)

/-! ## The modifiers -/

/-- The first chunk of the list that is not admitted ends the process. -/
def AbortsFirst (index : ChunkIndex) (heap : Heap) :
    List (FullID × List (Int × AccessBlockInfo)) → Prop
  | [] => False
  | e :: rest => Aborts index heap e ∨ (Admitted index heap e ∧ AbortsFirst index heap rest)

theorem buildChunk_aborts_iff {id : FullID} {blocks : List (Int × AccessBlockInfo)} :
    (∃ e, index.buildChunk heap id blocks = .error e ∧ ¬ e.IsThrown) ↔
    Aborts index heap (id, blocks) := by
  rcases buildChunk_cases index heap id blocks with ⟨-, -, h3, c, h⟩ | ⟨-, -, h3, message,
    h⟩ | ⟨-, -, h3, h⟩ |
    ⟨-, -, h3, e, h, he⟩
  · exact iff_of_false (by simp [h]) h3
  · exact iff_of_false (by simp [h, Exn.IsThrown]) h3
  · exact iff_of_false (by simp [h, Exn.IsThrown]) h3
  · refine iff_of_true ⟨e, h, ?_⟩ h3
    rcases he with rfl | rfl <;> exact not_false

theorem buildModifier_ends_iff {rawAccessMap : AccessMapType} :
    Ends (index.buildModifier heap rawAccessMap) ↔
      ¬ AbortsFirst index heap (chunkEntries rawAccessMap) := by
  rw [← not_iff_not, not_ends_iff, not_not, buildModifier_error_iff]
  induction chunkEntries rawAccessMap with
  | nil => exact Iff.rfl
  | cons e rest ih => rw [ThrowsFirst, AbortsFirst, ih, buildChunk_ok_iff, buildChunk_aborts_iff]

/-- Constructing the index and then the modifier of every request returns or throws. -/
def ConstructionEnds (readonlyPages writablePages : List Page)
    (chunkBounds : OrderedStaticMap FullID ChunkBoundsInfo)
    (heap : Heap) (rawAccessMaps : List AccessMapType) : Prop :=
  Ends (new readonlyPages writablePages chunkBounds heap) ∧
    ∀ index heap', new readonlyPages writablePages chunkBounds heap = .ok (index, heap') →
      ∀ rawAccessMap ∈ rawAccessMaps, Ends (index.buildModifier heap' rawAccessMap)

/-- **Assertions and block data.** The construction returns or throws exactly when the
first chunk with bounds that cannot be reserved is in no page and, in every access map,
the first chunk that is not admitted is rejected by an exception. -/
theorem constructionEnds_iff (readonlyPages writablePages : List Page)
    (chunkBounds : OrderedStaticMap FullID ChunkBoundsInfo) (heap : Heap)
    (rawAccessMaps : List AccessMapType) :
    ConstructionEnds readonlyPages writablePages chunkBounds heap rawAccessMaps ↔
      ¬ ReserveAborts (fun id => ∃ p ∈ readonlyPages ++ writablePages, id ∈ p.chunks)
          chunkBounds.entries ∧
        ∀ index heap', new readonlyPages writablePages chunkBounds heap = .ok (index, heap') →
          ∀ rawAccessMap ∈ rawAccessMaps,
            ¬ AbortsFirst index heap' (chunkEntries rawAccessMap) := by
  unfold ConstructionEnds
  rw [new_ends_iff]
  refine and_congr_right fun _ => forall₃_congr fun index heap' _ =>
    forall₂_congr fun rawAccessMap _ => ?_
  exact buildModifier_ends_iff

/-- An upper bound of one byte over the allowed capacity, and a request that declares
no use of the size of a chunk and leaves -1 in the free field of its size block: both
end in a failed assertion. -/
theorem construction_asserts :
    let id : FullID := toLex (0, toLex (0, 0))
    let heap : Heap := fun _ => { content := [3, 0], chunkSize := 1 }
    let rawAccessMap : AccessMapType :=
      ⟨[0], [⟨[toLex (0, 0)], [⟨[-3], [⟨-1, .check_only, 0⟩], rfl⟩], rfl⟩], rfl⟩
    (∃ c, new [] [⟨id, []⟩] ⟨[id], [⟨64 * 1024 + 1, 0, by decide, by decide⟩], rfl⟩ heap =
      .error (.assertion c)) ∧
      ∃ index heap' c, new [] [⟨id, []⟩] ⟨[], [], rfl⟩ heap = .ok (index, heap') ∧
        index.buildModifier heap' rawAccessMap = .error (.assertion c) :=
  ⟨⟨_, rfl⟩, _, _, _, rfl, rfl⟩

end ChunkIndex
end Argennon
