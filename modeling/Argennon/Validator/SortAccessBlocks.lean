import Argennon.Core.Info
import Argennon.Util.MergeMaps

/- The access blocks of a block of requests, merged and sorted
   (`RequestScheduler::sortAccessBlocks`): the lists of blocks that collisions are
   looked for in.

   The three levels of an access map are merged by the same loop: applications and
   chunks by merging the maps at equal keys, blocks by keeping all of them in the
   order of their offsets and of `AccessBlockInfo::operator<`. -/
namespace Argennon

open OrderedStaticMap

namespace AccessBlockInfo

/-- What `operator<` compares. -/
def rank (b : AccessBlockInfo) : Nat ×ₗ Nat := toLex (b.accessType.toNat, b.requestID)

theorem toNat_injective {a b : Access} (h : a.toNat = b.toNat) : a = b := by
  cases a <;> cases b <;> first | rfl | cases h

theorem lt_iff (a b : AccessBlockInfo) : a.lt b = true ↔ a.rank < b.rank := by
  have htype : (a.accessType == b.accessType) = true ↔ a.accessType.toNat = b.accessType.toNat := by
    rw [beq_iff_eq]
    exact ⟨congrArg _, toNat_injective⟩
  unfold AccessBlockInfo.lt rank
  rw [Prod.Lex.toLex_lt_toLex, Bool.or_eq_true, Bool.and_eq_true, htype]
  simp only [decide_eq_true_eq]

instance : MergeValues AccessBlockInfo := ⟨mergeLeaves AccessBlockInfo.lt⟩

end AccessBlockInfo

namespace RequestScheduler

/-- `sortAccessBlocks` -/
def sortAccessBlocks (memoryAccessMaps : List AccessMapType) (workersCount : Nat) :
    Except Exn AccessMapType :=
  mergeAllParallel memoryAccessMaps workersCount

/-- The block `b` may stand after `a` in a sorted list. -/
def InOrder (a b : Int × AccessBlockInfo) : Prop := a.1 < b.1 ∨ a.1 = b.1 ∧ b.2.lt a.2 = false

/-- An access map as a request has it: application and chunk identifiers strictly sorted,
the blocks of a chunk sorted by offset and by `operator<`. -/
structure SortedMap (m : AccessMapType) : Prop where
  apps : m.keys.Pairwise (· < ·)
  chunks : ∀ app ∈ m.entries, app.2.keys.Pairwise (· < ·)
  blocks : ∀ app ∈ m.entries, ∀ chunk ∈ app.2.entries, chunk.2.entries.Pairwise InOrder

/-- The blocks that the requests declare for a chunk, request by request. -/
def declaredBlocks (memoryAccessMaps : List AccessMapType) (appID : LongID) (chunkID : LongLongID) :
    List (Int × AccessBlockInfo) :=
  (valuesAt (valuesAt memoryAccessMaps appID) chunkID).flatMap entries

/-- A map that loses and invents nothing: its applications are those of the given maps,
the chunks of an application are those the maps have for it, and the blocks of a chunk
are those that they declare for it, in order. -/
structure MergeOf (memoryAccessMaps : List AccessMapType) (m : AccessMapType) : Prop where
  apps_sorted : m.keys.Pairwise (· < ·)
  apps : ∀ appID, appID ∈ m.keys ↔ ∃ m' ∈ memoryAccessMaps, appID ∈ m'.keys
  chunks_sorted : ∀ app ∈ m.entries, app.2.keys.Pairwise (· < ·)
  chunks : ∀ app ∈ m.entries, ∀ chunkID, chunkID ∈ app.2.keys ↔
    ∃ m' ∈ memoryAccessMaps, ∃ chunkMap, (app.1, chunkMap) ∈ m'.entries ∧ chunkID ∈ chunkMap.keys
  blocks_sorted : ∀ app ∈ m.entries, ∀ chunk ∈ app.2.entries, chunk.2.entries.Pairwise InOrder
  blocks : ∀ app ∈ m.entries, ∀ chunk ∈ app.2.entries,
    chunk.2.entries.Perm (declaredBlocks memoryAccessMaps app.1 chunk.1)

/-- No two different blocks are declared for a chunk at one offset with one type by one
request, which `operator<` would not tell apart. -/
def BlocksDistinct (memoryAccessMaps : List AccessMapType) : Prop :=
  ∀ appID chunkID, ∀ a ∈ declaredBlocks memoryAccessMaps appID chunkID,
    ∀ b ∈ declaredBlocks memoryAccessMaps appID chunkID, a ≠ b → a.1 = b.1 → a.2.lt b.2 ∨ b.2.lt a.2

/-! ## The three levels -/

/-- What the merge of access maps is, level by level. -/
abbrev Levels : List AccessMapType → AccessMapType → Prop :=
  MergedMap (MergedMap (Merged AccessBlockInfo.rank))

theorem entryRank_le_iff (a b : Int × AccessBlockInfo) :
    entryRank AccessBlockInfo.rank a ≤ entryRank AccessBlockInfo.rank b ↔ InOrder a b := by
  have hlt : b.2.lt a.2 = false ↔ a.2.rank ≤ b.2.rank := by
    rw [← not_lt, ← AccessBlockInfo.lt_iff, Bool.not_eq_true]
  rw [entryRank, entryRank, Prod.Lex.toLex_le_toLex, InOrder, hlt]

theorem Levels.single {m : AccessMapType} (h : SortedMap m) : Levels [m] m := by
  refine MergedMap.single h.apps fun app happ =>
    MergedMap.single (h.chunks app happ) fun chunk hchunk => ?_
  refine Merged.single ?_
  simpa only [entryRank_le_iff] using h.blocks app happ chunk hchunk

theorem Levels.append {l₁ l₂ : List AccessMapType} {m₁ m₂ : AccessMapType} (h₁ : Levels l₁ m₁)
    (h₂ : Levels l₂ m₂) :
    Levels (l₁ ++ l₂) (merge m₁ m₂) := by
  refine MergedMap.append (fun _ _ => rfl) (fun hc₁ hc₂ => ?_) h₁ h₂
  refine MergedMap.append (fun _ _ => rfl) (fun hb₁ hb₂ => ?_) hc₁ hc₂
  exact Merged.append AccessBlockInfo.lt_iff hb₁ hb₂

theorem mem_valuesAt {K V : Type} [LinearOrder K] {maps : List (OrderedStaticMap K V)}
    {k : K} {v : V} :
    v ∈ valuesAt maps k ↔ ∃ m ∈ maps, (k, v) ∈ m.entries := by
  simp only [valuesAt, List.mem_flatMap, List.mem_map, List.mem_filter, decide_eq_true_eq,
    Prod.exists]
  constructor
  · rintro ⟨m, hm, k', v', ⟨hmem, rfl⟩, rfl⟩
    exact ⟨m, hm, hmem⟩
  · rintro ⟨m, hm, hmem⟩
    exact ⟨m, hm, k, v, ⟨hmem, rfl⟩, rfl⟩

theorem Levels.mergeOf {maps : List AccessMapType} {m : AccessMapType} (h : Levels maps m) :
    MergeOf maps m := by
  refine ⟨h.sorted, h.keys, fun app happ => (h.values app happ).sorted, fun app happ chunkID => ?_,
    fun app happ chunk hchunk => ?_, fun app happ chunk hchunk =>
      ((h.values app happ).values chunk hchunk).perm⟩
  · rw [(h.values app happ).keys]
    simp only [mem_valuesAt]
    constructor
    · rintro ⟨chunkMap, ⟨m', hm', hmem⟩, hid⟩
      exact ⟨m', hm', chunkMap, hmem, hid⟩
    · rintro ⟨m', hm', chunkMap, hmem, hid⟩
      exact ⟨chunkMap, ⟨m', hm', hmem⟩, hid⟩
  · simpa only [entryRank_le_iff] using ((h.values app happ).values chunk hchunk).sorted

/-- Distinct blocks leave one result, in whatever order the maps are listed. -/
theorem Levels.unique {maps maps' : List AccessMapType} {m m' : AccessMapType}
    (hdistinct : BlocksDistinct maps)
    (hperm : maps.Perm maps') (h : Levels maps m) (h' : Levels maps' m') : m = m' := by
  refine MergedMap.unique (fun appID chunkMaps' hp {v v'} hv hv' => ?_) hperm h h'
  refine MergedMap.unique (fun chunkID blockMaps' hp' {b b'} hb hb' => ?_) hp hv hv'
  refine Merged.unique (fun x hx y hy hrank => ?_) hp' hb hb'
  by_contra hne
  obtain ⟨hoff, hrank⟩ := Prod.mk.inj (congrArg ofLex hrank)
  rcases hdistinct appID chunkID x hx y hy hne hoff with hlt | hlt
  · rw [AccessBlockInfo.lt_iff, hrank] at hlt
    exact lt_irrefl _ hlt
  · rw [AccessBlockInfo.lt_iff, hrank] at hlt
    exact lt_irrefl _ hlt

/-- The merge of sorted access maps returns. -/
theorem sortAccessBlocks_levels {memoryAccessMaps : List AccessMapType}
    (hsorted : ∀ m ∈ memoryAccessMaps, SortedMap m)
    (workersCount : Nat) : ∃ m, sortAccessBlocks memoryAccessMaps workersCount = .ok m ∧
    Levels memoryAccessMaps m := by
  obtain ⟨m, hm, hlevels⟩ := mergeIntervalParallel_ok (P := Levels) MergedMap.nil
    (fun m hmem => Levels.single (hsorted m hmem)) Levels.append 0 memoryAccessMaps.length
      (memoryAccessMaps.length / workersCount) le_rfl
  rw [List.take_length, List.drop_zero] at hlevels
  exact ⟨m, hm, hlevels⟩

/-- **Sorting the access blocks.** The merge of sorted access maps returns a map that
loses and invents nothing. When their blocks are distinct it returns the same for every
number of workers and every order in which the maps are listed. -/
theorem sortAccessBlocks_mergeOf (memoryAccessMaps : List AccessMapType)
    (hsorted : ∀ m ∈ memoryAccessMaps, SortedMap m)
    (workersCount : Nat) :
    ∃ m, sortAccessBlocks memoryAccessMaps workersCount = .ok m ∧ MergeOf memoryAccessMaps m ∧
      (BlocksDistinct memoryAccessMaps →
          ∀ memoryAccessMaps' workersCount', memoryAccessMaps.Perm memoryAccessMaps' →
        sortAccessBlocks memoryAccessMaps' workersCount' = .ok m) := by
  have hok : ∀ maps : List AccessMapType, (∀ m ∈ maps, SortedMap m) → ∀ workersCount,
      ∃ m, sortAccessBlocks maps workersCount = .ok m ∧ Levels maps m := by
    intro maps hmaps workersCount
    obtain ⟨m, hm, hlevels⟩ := mergeIntervalParallel_ok (P := Levels) MergedMap.nil
      (fun m hmem => Levels.single (hmaps m hmem)) Levels.append 0 maps.length
        (maps.length / workersCount) le_rfl
    rw [List.take_length, List.drop_zero] at hlevels
    exact ⟨m, hm, hlevels⟩
  obtain ⟨m, hm, hlevels⟩ := hok memoryAccessMaps hsorted workersCount
  refine ⟨m, hm, hlevels.mergeOf, fun hdistinct maps' workersCount' hperm => ?_⟩
  obtain ⟨m', hm', hlevels'⟩ :=
    hok maps' (fun x hx => hsorted x (hperm.mem_iff.mpr hx)) workersCount'
  rw [hm', hlevels.unique hdistinct hperm hlevels']

/-- Two requests that write one block of a chunk, listed in both orders. -/
theorem sortAccessBlocks_two_requests :
    let request : Nat → AccessMapType := fun id =>
      ⟨[0], [⟨[toLex (0, 0)], [⟨[-3, 4], [⟨0, .check_only, id⟩, ⟨2, .writable, id⟩], rfl⟩], rfl⟩],
        rfl⟩
    ∃ m, sortAccessBlocks [request 0, request 1] 2 = .ok m ∧ MergeOf [request 0, request 1] m ∧
      sortAccessBlocks [request 1, request 0] 1 = .ok m := by
  intro request
  have hsorted : ∀ id, SortedMap (request id) := by
    intro id
    refine ⟨List.pairwise_singleton _ _, fun app happ => ?_, fun app happ chunk hchunk => ?_⟩
    · obtain rfl := List.mem_singleton.mp happ
      exact List.pairwise_singleton _ _
    · obtain rfl := List.mem_singleton.mp happ
      obtain rfl := List.mem_singleton.mp hchunk
      have hoffset : (-3 : Int) < 4 := by decide
      exact List.pairwise_pair.mpr (.inl hoffset)
  obtain ⟨m, hm, hof, hsame⟩ := sortAccessBlocks_mergeOf [request 0, request 1]
    (List.forall_mem_cons.mpr ⟨hsorted 0, List.forall_mem_singleton.mpr (hsorted 1)⟩) 2
  refine ⟨m, hm, hof, hsame (fun appID chunkID a ha b hb => ?_) _ 1 (List.Perm.swap _ _ _)⟩
  -- the four declared blocks
  have hblocks : ∀ x ∈ declaredBlocks [request 0, request 1] appID chunkID,
      x ∈ [(-3, ⟨0, .check_only, 0⟩), (4, ⟨2, .writable, 0⟩), (-3, ⟨0, .check_only, 1⟩),
        (4, ⟨2, .writable, 1⟩)] := by
    intro x hx
    obtain ⟨blocks, hb, hx⟩ := List.mem_flatMap.mp hx
    obtain ⟨chunkMap, hc, hb⟩ := mem_valuesAt.mp hb
    obtain ⟨r, hr, hc⟩ := mem_valuesAt.mp hc
    rcases List.mem_pair.mp hr with rfl | rfl
    · obtain ⟨-, rfl⟩ := Prod.mk.inj (List.mem_singleton.mp hc)
      obtain ⟨-, rfl⟩ := Prod.mk.inj (List.mem_singleton.mp hb)
      exact List.mem_append_left [(-3, ⟨0, .check_only, 1⟩), (4, ⟨2, .writable, 1⟩)] hx
    · obtain ⟨-, rfl⟩ := Prod.mk.inj (List.mem_singleton.mp hc)
      obtain ⟨-, rfl⟩ := Prod.mk.inj (List.mem_singleton.mp hb)
      exact List.mem_append_right [(-3, ⟨0, .check_only, 0⟩), (4, ⟨2, .writable, 0⟩)] hx
  have hall : ∀ x ∈ [(-3, (⟨0, .check_only, 0⟩ : AccessBlockInfo)), (4, ⟨2, .writable, 0⟩),
    (-3, ⟨0, .check_only, 1⟩),
      (4, ⟨2, .writable, 1⟩)],
        ∀ y ∈ [((-3 : Int), (⟨0, .check_only, 0⟩ : AccessBlockInfo)), (4, ⟨2, .writable, 0⟩),
          (-3, ⟨0, .check_only, 1⟩), (4, ⟨2, .writable, 1⟩)], x ≠ y → x.1 = y.1 → x.2.lt y.2 ∨
        y.2.lt x.2 := by decide
  exact hall a (hblocks a ha) b (hblocks b hb)

end RequestScheduler
end Argennon
