import Argennon.Storage.ChunkIndex
import Mathlib.Algebra.Order.Group.Int
import Mathlib.Algebra.Order.Group.Abs

/- Which access maps `buildModifier` admits, and which it rejects with a `BlockError`.

   Both are stated chunk by chunk over the inputs (`Admitted`, `BlockCause`), and the
   function does at the whole map what the first chunk that is not admitted makes it
   do. The rules of the specification (`MeetsRules`) follow from admission except one:
   the bound of a shrink declaration is compared with `sizeLowerBound` only when it
   is zero, since the sign of the size field is gone when the check is made. -/
namespace Argennon

theorem toUInt32_nonneg {i : Int} (h : IsInt32 i) (h0 : 0 ≤ i) : (toUInt32 i : Int) = i := by
  obtain ⟨-, h2⟩ := h
  unfold toUInt32
  omega

/-- A negative number is large as an unsigned one. -/
theorem toUInt32_neg {i : Int} (h : IsInt32 i) (h0 : i < 0) : 2 ^ 31 ≤ toUInt32 i := by
  obtain ⟨h1, -⟩ := h
  unfold toUInt32
  omega

theorem Chunk.getsize_le (c : Chunk) : c.getsize ≤ 64 * 1024 := c.size_le.trans c.capacity_le

/-! ## The blocks of a chunk -/

/-- The block lies in the allocated memory of the chunk. -/
def Fits (chunk : Chunk) (offset : Int) (info : AccessBlockInfo) : Prop :=
  0 ≤ offset → offset.toNat + toUInt32 info.size ≤ chunk.capacity

/-- Every block lies in the memory, and none may write a chunk that is read-only. -/
def BlocksAdmitted (chunk : Chunk) (blocks : List (Int × AccessBlockInfo)) : Prop :=
  ∀ b ∈ blocks, (b.2.accessType.mayWrite → chunk.isWritable) ∧ Fits chunk b.1 b.2

instance (chunk : Chunk) (offset : Int) (info : AccessBlockInfo) :
    Decidable (Fits chunk offset info) :=
  inferInstanceAs (Decidable (_ → _))

instance (chunk : Chunk) (blocks : List (Int × AccessBlockInfo)) :
    Decidable (BlocksAdmitted chunk blocks) :=
  inferInstanceAs (Decidable (∀ b ∈ blocks, _))

/-- The first block that is not admitted may write a chunk that is read-only. -/
def WritesReadonly (chunk : Chunk) : List (Int × AccessBlockInfo) → Prop
  | [] => False
  | b :: rest => (b.2.accessType.mayWrite ∧ chunk.isWritable = false) ∨
    (Fits chunk b.1 b.2 ∧ WritesReadonly chunk rest)

theorem getContentPointer_ok {chunk : Chunk} {offset size : Nat}
    (h : offset + size ≤ chunk.capacity) :
    chunk.getContentPointer offset size = .ok offset := if_neg (Nat.not_lt.mpr h)

theorem getContentPointer_error {chunk : Chunk} {offset size : Nat}
    (h : ¬ offset + size ≤ chunk.capacity) :
    chunk.getContentPointer offset size = .error (.outOfRange "out of allocated memory range") :=
  if_pos (Nat.not_le.mp h)

/-- A block inside the memory is never too large for a block. -/
theorem accessBlock_new_ok {chunk : Chunk} {offset size : Nat} (h : offset + size ≤ chunk.capacity)
    (a : Access) :
    AccessBlock.new offset size a = .ok { heapLocation := offset, size, accessType := a } := by
  have hc := chunk.capacity_le
  have : size ≤ maxChunkSize := by
    unfold Chunk.capacity at h
    unfold maxAllowedCapacity at hc
    unfold maxChunkSize
    omega
  exact if_pos this

/-- What the constructor makes of the blocks. -/
theorem toAccessBlocks_cases (chunk : Chunk) : ∀ blocks : List (Int × AccessBlockInfo),
    (BlocksAdmitted chunk blocks ∧ ¬ WritesReadonly chunk blocks ∧
      ∃ l, toAccessBlocks chunk blocks = .ok l) ∨
    (¬ BlocksAdmitted chunk blocks ∧ WritesReadonly chunk blocks ∧
      toAccessBlocks chunk blocks = .error (.blockError "trying to modify a readonly chunk")) ∨
    (¬ BlocksAdmitted chunk blocks ∧ ¬ WritesReadonly chunk blocks ∧
      toAccessBlocks chunk blocks = .error (.outOfRange "out of allocated memory range"))
  | [] => .inl ⟨by simp [BlocksAdmitted], by simp [WritesReadonly], [], rfl⟩
  | (offset, info) :: rest => by
    have ih := toAccessBlocks_cases chunk rest
    have hcons : BlocksAdmitted chunk ((offset, info) :: rest) ↔
        ((info.accessType.mayWrite → chunk.isWritable) ∧ Fits chunk offset info) ∧
          BlocksAdmitted chunk rest :=
      List.forall_mem_cons
    by_cases hw : info.accessType.mayWrite = true ∧ chunk.isWritable = false
    · -- the write flag is tested first
      refine .inr (.inl ⟨fun h => ?_, .inl hw, ?_⟩)
      · have := (hcons.mp h).1.1 hw.1
        rw [hw.2] at this
        exact absurd this (by decide)
      · rw [toAccessBlocks, if_pos (by simp [hw.1, hw.2])]
    have hw' : info.accessType.mayWrite → chunk.isWritable := fun h =>
      Bool.not_eq_false _ ▸ fun hf => hw ⟨h, hf⟩
    have hif : ¬ (info.accessType.mayWrite && !chunk.isWritable) = true := by simpa using hw'
    have hro : WritesReadonly chunk ((offset, info) :: rest) ↔ Fits chunk offset info ∧
        WritesReadonly chunk rest :=
      or_iff_right hw
    rw [toAccessBlocks, if_neg hif, hcons, hro]
    by_cases h0 : 0 ≤ offset
    swap
    · -- a size block is only checked for writing
      have hfits : Fits chunk offset info := fun h => absurd h h0
      rw [if_neg h0, and_iff_right (And.intro hw' hfits), and_iff_right hfits]
      exact ih
    rw [if_pos h0]
    by_cases hfit : offset.toNat + toUInt32 info.size ≤ chunk.capacity
    · have hfits : Fits chunk offset info := fun _ => hfit
      rw [getContentPointer_ok hfit]
      simp only [bind, Except.bind, accessBlock_new_ok hfit]
      rcases ih with ⟨h1, h2, l, hl⟩ | ⟨h1, h2, hl⟩ | ⟨h1, h2, hl⟩
      · exact .inl ⟨⟨⟨hw', hfits⟩, h1⟩, fun h => h2 h.2, by rw [hl]; exact ⟨_, rfl⟩⟩
      · exact .inr (.inl ⟨fun h => h1 h.2, ⟨hfits, h2⟩, by rw [hl]⟩)
      · exact .inr (.inr ⟨fun h => h1 h.2, fun h => h2 h.2, by rw [hl]⟩)
    · have hfits : ¬ Fits chunk offset info := fun h => hfit (h h0)
      rw [getContentPointer_error hfit]
      exact .inr (.inr ⟨fun h => hfits h.1.2, fun h => hfits h.1, rfl⟩)

namespace ChunkIndex
variable {index : ChunkIndex} {heap : Heap}

/-! ## One chunk -/

/-- What the code asks of the bounds of a chunk of size `chunkSize` whose size block
declares `size`. -/
structure BoundsAdmit (bounds : ChunkBoundsInfo) (chunkSize : Nat) (size : Int) : Prop where
  lower_nonneg : 0 ≤ bounds.sizeLowerBound
  lower : bounds.sizeLowerBound ≤ chunkSize
  upper : (chunkSize : Int) ≤ bounds.sizeUpperBound
  bound : |size| ≤ bounds.sizeUpperBound
  zero : size = 0 → bounds.sizeLowerBound ≤ 0

/-- The proposed bounds admit the declaration `size` for the chunk. -/
def SizeAdmitted (index : ChunkIndex) (id : FullID) (chunkSize : Nat) (size : Int) : Prop :=
  ∃ bounds, index.sizeBoundsInfo.at id = .ok bounds ∧ BoundsAdmit bounds chunkSize size

theorem SizeAdmitted.ne_min {id : FullID} {chunkSize : Nat} {size : Int}
    (h : SizeAdmitted index id chunkSize size) :
    size ≠ -2 ^ 31 := by
  obtain ⟨bounds, -, hb⟩ := h
  have h1 := hb.bound
  have h2 := bounds.upper_range.2
  have h3 := neg_le_abs size
  omega

/-- What `size` means for a resizable chunk: the bound that is passed on. -/
def sizeBoundOf (offset size : Int) : Int := if offset = -1 ∧ size ≤ 0 then -size else size

/-- A chunk of an access map that `buildModifier` admits. -/
def Admitted (index : ChunkIndex) (heap : Heap)
    (e : FullID × List (Int × AccessBlockInfo)) : Prop :=
  e.1 ∈ index.chunkIndex ∧ BlocksAdmitted (heap e.1) e.2 ∧
    ∃ offset info, e.2.head? = some (offset, info) ∧
    (offset = -1 → SizeAdmitted index e.1 (heap e.1).getsize info.size) ∧
    toUInt32 (sizeBoundOf offset info.size) ≤ maxChunkSize

/-- A chunk of an access map for which `buildModifier` throws `BlockError`: it is not
in any page, its declared size is not admitted, or a block may write a read-only chunk. -/
def BlockCause (index : ChunkIndex) (heap : Heap)
    (e : FullID × List (Int × AccessBlockInfo)) : Prop :=
  e.1 ∉ index.chunkIndex ∨ ∃ offset info, e.2.head? = some (offset, info) ∧
    ((offset = -1 ∧ info.size ≠ -2 ^ 31 ∧ ¬ SizeAdmitted index e.1 (heap e.1).getsize info.size) ∨
      ((offset = -1 → SizeAdmitted index e.1 (heap e.1).getsize info.size) ∧
        WritesReadonly (heap e.1) e.2))

/-- A chunk of an access map at which `buildModifier` ends the process: it has no size
block, the negation of its size field overflows, or its size field, which is not a size
to check, is over the maximal chunk size as an unsigned number. -/
def Aborts (index : ChunkIndex) (heap : Heap) (e : FullID × List (Int × AccessBlockInfo)) : Prop :=
  e.1 ∈ index.chunkIndex ∧ (e.2 = [] ∨ ∃ offset info, e.2.head? = some (offset, info) ∧
    (offset = -1 ∧ info.size = -2 ^ 31 ∨
      offset ≠ -1 ∧ BlocksAdmitted (heap e.1) e.2 ∧ maxChunkSize < toUInt32 info.size))

/-- The comparisons of the check, for the absolute value of the size field. -/
theorem boundsAdmit_iff {bounds : ChunkBoundsInfo} {id : FullID}
    (hb : (id, bounds) ∈ index.sizeBoundsInfo.entries)
    {chunkSize : Nat} (hc : chunkSize ≤ 64 * 1024) (size : Int) :
    BoundsAdmit bounds chunkSize size ↔
      ¬ (chunkSize < toUInt32 bounds.sizeLowerBound ∨ chunkSize > toUInt32 bounds.sizeUpperBound ∨
        (|size| > 0 ∧ |size| > bounds.sizeUpperBound) ∨
        (|size| ≤ 0 ∧ -|size| < bounds.sizeLowerBound)) := by
  have hup := index.upper_le _ hb
  have hupper : 0 ≤ bounds.sizeUpperBound := by
    by_contra hneg
    have := toUInt32_neg bounds.upper_range (not_le.mp hneg)
    simp only [maxAllowedCapacity] at hup
    omega
  have hu := toUInt32_nonneg bounds.upper_range hupper
  have habs := abs_nonneg size
  have hzero : |size| ≤ 0 ↔ size = 0 := abs_nonpos_iff
  by_cases hl0 : 0 ≤ bounds.sizeLowerBound
  · have hl := toUInt32_nonneg bounds.lower_range hl0
    constructor
    · intro ⟨_, h2, h3, h4, h5⟩
      have h5' : |size| ≤ 0 → bounds.sizeLowerBound ≤ 0 := fun h => h5 (hzero.mp h)
      omega
    · intro h
      have h0 : size = 0 → |size| ≤ 0 := hzero.mpr
      exact ⟨hl0, by omega, by omega, by omega, fun hs => by have := h0 hs; omega⟩
  · have hl := toUInt32_neg bounds.lower_range (not_le.mp hl0)
    refine ⟨fun h => absurd h.lower_nonneg hl0, fun h => ?_⟩
    omega

theorem checkBounds_ok (id : FullID) {chunkSize : Nat} (hc : chunkSize ≤ 64 * 1024) {size : Int}
    (h : SizeAdmitted index id chunkSize size) :
    index.checkBounds id chunkSize |size| = .ok () := by
  obtain ⟨bounds, hat, hb⟩ := h
  rcases index.sizeBoundsInfo.at_cases id with ⟨v, hv, hmem⟩ | hv
  · obtain rfl : bounds = v := Except.ok.inj (hat.symm.trans hv)
    rw [checkBounds, hv]
    exact if_neg ((boundsAdmit_iff hmem hc size).mp hb)
  · rw [hat] at hv
    cases hv

theorem checkBounds_error (id : FullID) {chunkSize : Nat} (hc : chunkSize ≤ 64 * 1024) {size : Int}
    (h : ¬ SizeAdmitted index id chunkSize size) :
    ∃ message, index.checkBounds id chunkSize |size| = .error (.blockError message) := by
  rcases index.sizeBoundsInfo.at_cases id with ⟨bounds, hv, hmem⟩ | hv
  · refine ⟨"invalid sizeBounds for chunk [" ++ chunkName id ++ "]", ?_⟩
    rw [checkBounds, hv]
    have : ¬ BoundsAdmit bounds chunkSize size := fun hb => h ⟨bounds, hv, hb⟩
    exact if_pos (not_not.mp (mt (boundsAdmit_iff hmem hc size).mpr this))
  · refine ⟨"missing sizeBounds for chunk [" ++ chunkName id ++ "]", ?_⟩
    rw [checkBounds, hv]

/-- The size field of a resizable chunk is taken by its absolute value. -/
theorem resizing_resizable {size : Int} (h : size ≠ -2 ^ 31) :
    ∃ type : ResizingType, type.resizable ∧ resizing (-1) size = .ok (type, |size|) ∧
      sizeBoundOf (-1) size = |size| := by
  by_cases hpos : size > 0
  · refine ⟨.expandable, rfl, ?_, ?_⟩
    · rw [abs_of_pos hpos]
      simp [resizing, hpos]
    · rw [abs_of_pos hpos]
      simp [sizeBoundOf, hpos]
  · have hle : size ≤ 0 := not_lt.mp hpos
    refine ⟨.shrinkable, rfl, ?_, ?_⟩
    · rw [abs_of_nonpos hle]
      have hn : negate size = .ok (-size) := if_neg h
      simp [resizing, hpos, hle, hn, Except.map]
    · rw [abs_of_nonpos hle]
      simp [sizeBoundOf, hle]

theorem resizing_fixed {offset : Int} (h : offset ≠ -1) (size : Int) :
    ∃ type : ResizingType, type.resizable = false ∧ resizing offset size = .ok (type, size) ∧
      sizeBoundOf offset size = size := by
  have hs : sizeBoundOf offset size = size := by simp [sizeBoundOf, h]
  by_cases h2 : offset = -2
  · exact ⟨.read_only, rfl, by simp [resizing, h2], hs⟩
  · exact ⟨.non_accessible, rfl, by simp [resizing, h2, h], hs⟩

/-- What the constructor of a chunk's information does with a bound. -/
theorem chunkInfo_new_cases (ptr : FullID) (chunk : Chunk) (type : ResizingType) (sizeBound : Nat)
    (blocks : List (Int × AccessBlockInfo)) :
    (BlocksAdmitted chunk blocks ∧ ¬ WritesReadonly chunk blocks ∧ sizeBound ≤ maxChunkSize ∧
      ∃ c, ChunkInfo.new ptr chunk type sizeBound blocks = .ok c) ∨
    (¬ BlocksAdmitted chunk blocks ∧ WritesReadonly chunk blocks ∧
      ∃ message, ChunkInfo.new ptr chunk type sizeBound blocks = .error (.blockError message)) ∨
    (¬ BlocksAdmitted chunk blocks ∧ ¬ WritesReadonly chunk blocks ∧
      ChunkInfo.new ptr chunk type sizeBound blocks =
        .error (.outOfRange "out of allocated memory range")) ∨
    (BlocksAdmitted chunk blocks ∧ ¬ WritesReadonly chunk blocks ∧ maxChunkSize < sizeBound ∧
      ChunkInfo.new ptr chunk type sizeBound blocks =
        .error (.assertion "sizeBound <= max_chunk_size")) := by
  unfold ChunkInfo.new
  rcases toAccessBlocks_cases chunk blocks with ⟨h1, h2, l, hl⟩ | ⟨h1, h2, hl⟩ | ⟨h1, h2, hl⟩
  · simp only [hl, bind, Except.bind]
    by_cases hs : sizeBound ≤ maxChunkSize
    · exact .inl ⟨h1, h2, hs, _, if_pos hs⟩
    · exact .inr (.inr (.inr ⟨h1, h2, Nat.not_le.mp hs, if_neg hs⟩))
  · exact .inr (.inl ⟨h1, h2, _, by rw [hl]; rfl⟩)
  · exact .inr (.inr (.inl ⟨h1, h2, by rw [hl]; rfl⟩))

/-- An admitted size is its absolute value as a `uint32`. -/
theorem SizeAdmitted.toUInt32_abs {id : FullID} {chunkSize : Nat} {size : Int}
    (h : SizeAdmitted index id chunkSize size) :
    (toUInt32 |size| : Int) = |size| := by
  obtain ⟨bounds, -, hb⟩ := h
  refine toUInt32_nonneg ⟨?_, ?_⟩ (abs_nonneg size)
  · have := abs_nonneg size
    omega
  · exact lt_of_le_of_lt hb.bound bounds.upper_range.2

/-- An admitted size is not over the maximal chunk size, since no upper bound is. -/
theorem SizeAdmitted.abs_le {id : FullID} {chunkSize : Nat} {size : Int}
    (h : SizeAdmitted index id chunkSize size) :
    toUInt32 |size| ≤ maxChunkSize := by
  have habs := h.toUInt32_abs
  obtain ⟨bounds, hat, hb⟩ := h
  rcases index.sizeBoundsInfo.at_cases id with ⟨v, hv, hmem⟩ | hv
  · obtain rfl : bounds = v := Except.ok.inj (hat.symm.trans hv)
    have hup := toUInt32_nonneg bounds.upper_range ((abs_nonneg _).trans hb.bound)
    have hcap := index.upper_le _ hmem
    have hle := hb.bound
    simp only [maxAllowedCapacity] at hcap
    simp only [maxChunkSize]
    omega
  · rw [hat] at hv
    cases hv

/-- What `buildModifier` does at one chunk. -/
theorem buildChunk_cases (index : ChunkIndex) (heap : Heap) (id : FullID)
    (blocks : List (Int × AccessBlockInfo)) :
    (Admitted index heap (id, blocks) ∧ ¬ BlockCause index heap (id, blocks) ∧
        ¬ Aborts index heap (id, blocks) ∧
      ∃ c, index.buildChunk heap id blocks = .ok c) ∨
    (¬ Admitted index heap (id, blocks) ∧ BlockCause index heap (id, blocks) ∧
        ¬ Aborts index heap (id, blocks) ∧
      ∃ message, index.buildChunk heap id blocks = .error (.blockError message)) ∨
    (¬ Admitted index heap (id, blocks) ∧ ¬ BlockCause index heap (id, blocks) ∧
        ¬ Aborts index heap (id, blocks) ∧
      index.buildChunk heap id blocks = .error (.outOfRange "out of allocated memory range")) ∨
    (¬ Admitted index heap (id, blocks) ∧ ¬ BlockCause index heap (id, blocks) ∧
        Aborts index heap (id, blocks) ∧
      ∃ e, index.buildChunk heap id blocks = .error e ∧
        (e = .undefined ∨ e = .assertion "sizeBound <= max_chunk_size")) := by
  by_cases hid : id ∈ index.chunkIndex
  swap
  · refine .inr (.inl ⟨fun h => hid h.1, .inl hid, fun h => hid h.1,
      "missing proof of non-existence", ?_⟩)
    rw [buildChunk, getChunk, if_neg hid]
    rfl
  have hget : getChunk index.chunkIndex id = .ok id := if_pos hid
  cases blocks with
  | nil =>
    refine .inr (.inr (.inr
      ⟨fun h => by simp [Admitted] at h, fun h => by simp [BlockCause, hid] at h, ⟨hid, .inl rfl⟩,
      .undefined, ?_, .inl rfl⟩))
    rw [buildChunk, hget]
    rfl
  | cons b rest =>
    obtain ⟨offset, info⟩ := b
    -- the three predicates, for the first block at hand
    have hadm : Admitted index heap (id, (offset, info) :: rest) ↔
        (offset = -1 → SizeAdmitted index id (heap id).getsize info.size) ∧
          BlocksAdmitted (heap id) ((offset, info) :: rest) ∧
            toUInt32 (sizeBoundOf offset info.size) ≤ maxChunkSize := by
      simp [Admitted, hid, and_left_comm]
    have hcause : BlockCause index heap (id, (offset, info) :: rest) ↔
        (offset = -1 ∧ info.size ≠ -2 ^ 31 ∧ ¬ SizeAdmitted index id (heap id).getsize info.size) ∨
          ((offset = -1 → SizeAdmitted index id (heap id).getsize info.size) ∧
            WritesReadonly (heap id) ((offset, info) :: rest)) := by
      simp [BlockCause, hid]
    have habort : Aborts index heap (id, (offset, info) :: rest) ↔ offset = -1 ∧
        info.size = -2 ^ 31 ∨
          offset ≠ -1 ∧ BlocksAdmitted (heap id) ((offset, info) :: rest) ∧
            maxChunkSize < toUInt32 info.size := by
      simp [Aborts, hid]
    rw [hadm, hcause, habort, buildChunk, hget]
    have hfirst : vecGet ((offset, info) :: rest) 0 = .ok (offset, info) := rfl
    simp only [bind, Except.bind, hfirst]
    by_cases hoff : offset = -1
    · subst hoff
      by_cases hmin : info.size = -2 ^ 31
      · -- the negation overflows
        have hsize : ¬ SizeAdmitted index id (heap id).getsize info.size := fun h => h.ne_min hmin
        refine .inr (.inr (.inr ⟨fun h => hsize (h.1 rfl), fun h => ?_, .inl ⟨rfl, hmin⟩,
          .undefined, ?_, .inl rfl⟩))
        · rcases h with ⟨-, h, -⟩ | ⟨h, -⟩
          · exact h hmin
          · exact hsize (h rfl)
        · rw [hmin]
          rfl
      obtain ⟨type, -, hres, hsb⟩ := resizing_resizable hmin
      simp only [hres, hsb, checkResizable, if_true, forall_const, true_and, hmin, ne_eq,
        not_true_eq_false, false_and,
        or_false, not_false_eq_true]
      by_cases hsize : SizeAdmitted index id (heap id).getsize info.size
      · simp only [checkBounds_ok id (heap id).getsize_le hsize, hsize, not_true_eq_false,
          false_or, true_and]
        have hle := hsize.abs_le
        rcases chunkInfo_new_cases id (heap id) type (toUInt32 |info.size|)
          ((-1, info) :: rest) with
          ⟨h1, h2, h3, h4⟩ | ⟨h1, h2, h3⟩ | ⟨h1, h2, h3⟩ | ⟨-, -, h3, -⟩
        · exact .inl ⟨⟨h1, h3⟩, h2, h4⟩
        · exact .inr (.inl ⟨fun h => h1 h.1, h2, h3⟩)
        · exact .inr (.inr (.inl ⟨fun h => h1 h.1, h2, h3⟩))
        · exact absurd hle (Nat.not_le.mpr h3)
      · obtain ⟨message, he⟩ := checkBounds_error id (heap id).getsize_le hsize
        simp only [he, hsize, false_and, not_false_eq_true, true_and]
        exact .inr (.inl ⟨.inl trivial, message, rfl⟩)
    · obtain ⟨type, -, hres, hsb⟩ := resizing_fixed hoff info.size
      simp only [hres, hsb, checkResizable, hoff, if_false, false_and, false_or, IsEmpty.forall_iff,
        true_and, ne_eq,
        not_false_eq_true]
      rcases chunkInfo_new_cases id (heap id) type (toUInt32 info.size)
        ((offset, info) :: rest) with
        ⟨h1, h2, h3, h4⟩ | ⟨h1, h2, h3⟩ | ⟨h1, h2, h3⟩ | ⟨h1, h2, h3, h4⟩
      · exact .inl ⟨⟨h1, h3⟩, h2, fun h => absurd h3 (Nat.not_le.mpr h.2), h4⟩
      · exact .inr (.inl ⟨fun h => h1 h.1, h2, fun h => h1 h.1, h3⟩)
      · exact .inr (.inr (.inl ⟨fun h => h1 h.1, h2, fun h => h1 h.1, h3⟩))
      · exact .inr (.inr (.inr ⟨fun h => absurd h.2 (Nat.not_le.mpr h3), h2, ⟨h1, h3⟩, _,
          h4, .inr rfl⟩))

theorem buildChunk_ok_iff {id : FullID} {blocks : List (Int × AccessBlockInfo)} :
    (∃ c, index.buildChunk heap id blocks = .ok c) ↔ Admitted index heap (id, blocks) := by
  rcases buildChunk_cases index heap id blocks with ⟨h1, -, -, h⟩ | ⟨h1, -, -, message,
    h⟩ | ⟨h1, -, -, h⟩ |
    ⟨h1, -, -, e, h, -⟩
  · exact iff_of_true h h1
  · exact iff_of_false (by simp [h]) h1
  · exact iff_of_false (by simp [h]) h1
  · exact iff_of_false (by simp [h]) h1

theorem buildChunk_blockError_iff {id : FullID} {blocks : List (Int × AccessBlockInfo)} :
    (∃ e, index.buildChunk heap id blocks = .error e ∧ e.IsBlockError) ↔
    BlockCause index heap (id, blocks) := by
  rcases buildChunk_cases index heap id blocks with ⟨-, h2, -, c, h⟩ | ⟨-, h2, -, message,
    h⟩ | ⟨-, h2, -, h⟩ |
    ⟨-, h2, -, e, h, he⟩
  · exact iff_of_false (by simp [h]) h2
  · exact iff_of_true ⟨_, h, trivial⟩ h2
  · exact iff_of_false (by simp [h, Exn.IsBlockError]) h2
  · refine iff_of_false (fun ⟨e', he', hb⟩ => ?_) h2
    obtain rfl := Except.error.inj (h.symm.trans he')
    rcases he with rfl | rfl <;> exact hb

/-! ## The whole map -/

section
variable {rawAccessMap : AccessMapType} {p : Exn → Prop}

theorem buildChunkMap_ok_iff {appID : LongID} {chunkMap : OrderedStaticMap LongLongID BlockMap} :
    (∃ c, index.buildChunkMap heap appID chunkMap = .ok c) ↔
      ∀ e ∈ chunkMap.entries.map fun e => (toLex (appID, e.1), e.2.entries),
        ∃ c, index.buildChunk heap e.1 e.2 = .ok c := by
  rw [List.forall_mem_map]
  exact OrderedStaticMap.mapM_mk?_ok_iff

theorem buildChunkMap_error_iff {appID : LongID} {chunkMap : OrderedStaticMap LongLongID BlockMap} :
    (∃ e, index.buildChunkMap heap appID chunkMap = .error e ∧ p e) ↔
      ThrowsFirst (fun e => index.buildChunk heap e.1 e.2) p
        (chunkMap.entries.map fun e => (toLex (appID, e.1), e.2.entries)) := by
  rw [throwsFirst_map]
  exact OrderedStaticMap.mapM_mk?_error_iff

/-- The maps of the modifier. -/
theorem buildModifier_eq (index : ChunkIndex) (heap : Heap) (rawAccessMap : AccessMapType) :
    index.buildModifier heap rawAccessMap =
      (rawAccessMap.entries.mapM (fun e => index.buildChunkMap heap e.1 e.2) >>=
        OrderedStaticMap.mk? rawAccessMap.keys).map fun maps => { appsAccessMaps := maps } := by
  unfold buildModifier
  cases h : rawAccessMap.entries.mapM (fun e => index.buildChunkMap heap e.1 e.2) with
  | error e => rfl
  | ok l =>
    simp only [bind, Except.bind]
    cases OrderedStaticMap.mk? rawAccessMap.keys l <;> rfl

/-- An access map is admitted when each of its chunks is. -/
theorem buildModifier_ok_iff :
    (∃ m, index.buildModifier heap rawAccessMap = .ok m) ↔
    ∀ e ∈ chunkEntries rawAccessMap, Admitted index heap e := by
  have hmap : (∃ m, index.buildModifier heap rawAccessMap = .ok m) ↔
      ∃ maps, (rawAccessMap.entries.mapM (fun e => index.buildChunkMap heap e.1 e.2) >>=
        OrderedStaticMap.mk? rawAccessMap.keys) = .ok maps := by
    rw [buildModifier_eq]
    cases rawAccessMap.entries.mapM (fun e => index.buildChunkMap heap e.1 e.2) >>=
      OrderedStaticMap.mk? rawAccessMap.keys <;> simp [Except.map]
  rw [hmap, OrderedStaticMap.mapM_mk?_ok_iff, chunkEntries, List.forall_mem_flatMap]
  apply forall₂_congr
  intro e _
  rw [buildChunkMap_ok_iff]
  exact forall₂_congr fun e _ => buildChunk_ok_iff

/-- What the first chunk that is not admitted throws is what the function throws. -/
theorem buildModifier_error_iff :
    (∃ e, index.buildModifier heap rawAccessMap = .error e ∧ p e) ↔
      ThrowsFirst (fun e => index.buildChunk heap e.1 e.2) p (chunkEntries rawAccessMap) := by
  have hmap : (∃ e, index.buildModifier heap rawAccessMap = .error e ∧ p e) ↔
      ∃ e, (rawAccessMap.entries.mapM (fun e => index.buildChunkMap heap e.1 e.2) >>=
        OrderedStaticMap.mk? rawAccessMap.keys) = .error e ∧ p e := by
    rw [buildModifier_eq]
    cases rawAccessMap.entries.mapM (fun e => index.buildChunkMap heap e.1 e.2) >>=
      OrderedStaticMap.mk? rawAccessMap.keys <;> simp [Except.map]
  rw [hmap, OrderedStaticMap.mapM_mk?_error_iff]
  exact throwsFirst_flatMap (fun e _ => buildChunkMap_error_iff) fun e _ => buildChunkMap_ok_iff

/-- The first chunk of the list that is not admitted has a cause for a `BlockError`. -/
def RejectsFirst (index : ChunkIndex) (heap : Heap) :
    List (FullID × List (Int × AccessBlockInfo)) → Prop
  | [] => False
  | e :: rest => BlockCause index heap e ∨ (Admitted index heap e ∧ RejectsFirst index heap rest)

theorem buildModifier_blockError_iff :
    (∃ e, index.buildModifier heap rawAccessMap = .error e ∧ e.IsBlockError) ↔
      RejectsFirst index heap (chunkEntries rawAccessMap) := by
  rw [buildModifier_error_iff]
  induction chunkEntries rawAccessMap with
  | nil => exact Iff.rfl
  | cons e rest ih => rw [ThrowsFirst, RejectsFirst, ih, buildChunk_ok_iff,
    buildChunk_blockError_iff]

/-! ## The rules -/

/-- The rules for the bounds of a chunk: a size block at offset -1 has bounds around
the chunk size, an expand declaration stays below the upper one and a shrink
declaration above the lower one. -/
def MeetsRules (index : ChunkIndex) (heap : Heap)
    (e : FullID × List (Int × AccessBlockInfo)) : Prop :=
  ∀ info, e.2.head? = some (-1, info) → ∃ bounds, (e.1, bounds) ∈ index.sizeBoundsInfo.entries ∧
    bounds.sizeLowerBound ≤ (heap e.1).getsize ∧ (heap e.1).getsize ≤ bounds.sizeUpperBound ∧
    (0 < info.size → info.size ≤ bounds.sizeUpperBound) ∧
      (info.size ≤ 0 → bounds.sizeLowerBound ≤ -info.size)

/-- An admitted chunk meets the rules, but for a shrink declaration below the lower bound. -/
theorem Admitted.meetsRules {e : FullID × List (Int × AccessBlockInfo)} (h : Admitted index heap e)
    (hshrink : ∀ info, e.2.head? = some (-1, info) → info.size < 0 →
      ∀ bounds, (e.1, bounds) ∈ index.sizeBoundsInfo.entries → bounds.sizeLowerBound ≤ -info.size) :
    MeetsRules index heap e := by
  intro info hinfo
  obtain ⟨-, -, offset, info', hhead, hsize, -⟩ := h
  obtain ⟨rfl, rfl⟩ := Prod.mk.inj (Option.some.inj (hinfo.symm.trans hhead))
  obtain ⟨bounds, hat, hb⟩ := hsize rfl
  rcases index.sizeBoundsInfo.at_cases e.1 with ⟨v, hv, hmem⟩ | hv
  · obtain rfl : bounds = v := Except.ok.inj (hat.symm.trans hv)
    refine ⟨bounds, hmem, hb.lower, hb.upper, fun _ => (le_abs_self _).trans hb.bound,
      fun hle => ?_⟩
    by_cases h0 : info.size = 0
    · have := hb.zero h0
      omega
    · exact hshrink info hinfo (by omega) bounds hmem
  · rw [hat] at hv
    cases hv

/-- **Admission of resizing declarations.** What is admitted meets the rules and what
breaks them is a `BlockError`, exactly when every chunk meets the rules or the first
chunk that is not admitted has a cause for a `BlockError`. -/
theorem buildModifier_rules_iff (index : ChunkIndex) (heap : Heap) (rawAccessMap : AccessMapType) :
    ((∀ m, index.buildModifier heap rawAccessMap = .ok m →
        ∀ e ∈ chunkEntries rawAccessMap, MeetsRules index heap e) ∧
      ((∃ e ∈ chunkEntries rawAccessMap, ¬ MeetsRules index heap e) →
        ∃ message, index.buildModifier heap rawAccessMap = .error (.blockError message))) ↔
    ((∀ e ∈ chunkEntries rawAccessMap, MeetsRules index heap e) ∨
      RejectsFirst index heap (chunkEntries rawAccessMap)) := by
  rw [← buildModifier_blockError_iff]
  constructor
  · rintro ⟨-, h⟩
    by_cases hr : ∀ e ∈ chunkEntries rawAccessMap, MeetsRules index heap e
    · exact .inl hr
    · obtain ⟨message, hm⟩ := h (by simpa using hr)
      exact .inr ⟨_, hm, trivial⟩
  · rintro (hr | ⟨e, he, hblock⟩)
    · exact ⟨fun _ _ => hr, fun ⟨e, he, hn⟩ => absurd (hr e he) hn⟩
    · refine ⟨fun m hm => ?_, fun _ => ?_⟩
      · rw [he] at hm
        cases hm
      · cases e with
        | blockError message => exact ⟨message, he⟩
        | _ => exact hblock.elim

/-- A chunk of 5 bytes with the bounds 4 and 8, which a request may shrink to 3: the
map is admitted. -/
theorem buildModifier_admits_low_shrink :
    let id : FullID := toLex (0, toLex (0, 0))
    let index : ChunkIndex := ⟨[id], ⟨[id], [⟨8, 4, by decide, by decide⟩], rfl⟩, by decide⟩
    let heap : Heap := fun _ => { content := List.replicate 8 0, chunkSize := 5 }
    let rawAccessMap : AccessMapType :=
      ⟨[0], [⟨[toLex (0, 0)], [⟨[-1], [⟨-3, .writable, 0⟩], rfl⟩], rfl⟩], rfl⟩
    (∃ m, index.buildModifier heap rawAccessMap = .ok m) ∧
      ¬ ∀ e ∈ chunkEntries rawAccessMap, MeetsRules index heap e := by
  intro id index heap rawAccessMap
  refine ⟨buildModifier_ok_iff.mpr fun e he => ?_, fun h => ?_⟩
  · obtain rfl := List.mem_singleton.mp he
    have hat : index.sizeBoundsInfo.at id = .ok ⟨8, 4, by decide, by decide⟩ := by decide
    exact ⟨by decide, by decide, -1, ⟨-3, .writable, 0⟩, rfl,
      fun _ => ⟨_, hat, by decide, by decide, by decide, by decide, by decide⟩, by decide⟩
  obtain ⟨bounds, hmem, -, -, -, hs⟩ := h _ List.mem_cons_self _ rfl
  obtain rfl := (Prod.mk.inj (List.mem_singleton.mp hmem)).2
  exact absurd (hs (by decide)) (by decide)

end

end ChunkIndex
end Argennon
