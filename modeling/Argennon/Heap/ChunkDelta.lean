import Argennon.Heap.Chunk
import Argennon.Util.PrefixTrieCodec

/- `Chunk::applyDelta` (`ascee/heap/Chunk.cpp`): the delta `[ chunkSize (offsetDiff dataSize data)*
   0 ]` of a chunk. The bytes from the pointer `delta` to `boundary` are what is left of the delta
   of a page. What a call does to the chunk stays when the call throws, so a call gives the chunk
   beside its result. -/
namespace Argennon

theorem varUIntTrie_accepted : PrefixTrie.Accepted varUIntTrie :=
  PrefixTrie.accepted_of_make (Nat.le_refl 4) make_varUIntTrieArray

namespace Chunk

/-- The offset and size of a block, cut at the new size; `none`, if it starts past the new size. -/
def cutBlock (size offset blockSize : Nat) : Option (Nat × Nat) :=
  if offset + blockSize > size then
    if offset < size then some (offset, size - offset) else none
  else some (offset, blockSize)

/-- The start of a round of the loop: the block to copy, if the loop goes on. -/
def nextBlock (size offset : Nat) (delta : List Byte) :
    Except Exn (Option (Nat × Nat) × List Byte) :=
  if delta = [] then .ok (none, delta)
  else do
    let (diff, delta) ← varUIntTrie.decodeVarUIntAt delta
    if diff = 0 then .ok (none, delta)
    else
      let (blockSize, delta) ← varUIntTrie.decodeVarUIntAt delta
      .ok (cutBlock size (offset + (diff - 1)) blockSize, delta)

/-- The loop of `applyDelta`, for as many rounds as there can be: a round reads at least one byte.
`memcpy` past the boundary is undefined. -/
def applyBlocks (size : Nat) :
    Nat → Nat → List Byte → List Byte → List Byte × Except Exn (List Byte)
  | 0, _, content, delta => (content, .ok delta)
  | n + 1, offset, content, delta =>
    match nextBlock size offset delta with
    | .error e => (content, .error e)
    | .ok (none, delta) => (content, .ok delta)
    | .ok (some (offset, blockSize), delta) =>
      if delta.length < blockSize then (content, .error .undefined)
      else applyBlocks size n (offset + blockSize) (writeAt content offset (delta.take blockSize))
        (delta.drop blockSize)

theorem applyBlocks_length (size : Nat) : ∀ (n offset : Nat) (content delta : List Byte),
    (applyBlocks size n offset content delta).1.length = content.length
  | 0, _, _, _ => rfl
  | n + 1, offset, content, delta => by
    unfold applyBlocks
    split
    · rfl
    · rfl
    · split
      · rfl
      · rw [applyBlocks_length, writeAt_length]

/-- `shrinkSpace` -/
def shrinkSpace (c : Chunk) : Chunk :=
  if c.chunkSize = c.capacity then c
  else { c with
    content := c.content.take c.chunkSize
    size_le := by
      rw [List.length_take]
      exact Nat.le_min.mpr ⟨Nat.le_refl _, c.size_le⟩
    capacity_le := by
      rw [List.length_take]
      exact Nat.le_trans (Nat.min_le_right _ _) c.capacity_le }

theorem reserveSpace_le {c c' : Chunk} {newCapacity : Nat}
    (h : c.reserveSpace newCapacity = .ok c') : newCapacity ≤ c'.content.length := by
  unfold reserveSpace at h
  split at h
  · split at h
    · rename_i hle
      obtain rfl := Except.ok.inj h
      exact hle
    · obtain rfl := Except.ok.inj h
      have hsize := c.size_le
      simp only [resize, List.length_append, List.length_replicate, List.length_take]
      omega
  · cases h

/-- `chunkSize = size` -/
def assignSize (c : Chunk) (size : Nat) (h : size ≤ c.content.length) : Chunk :=
  { c with
    chunkSize := size
    size_le := h }

/-- What `applyDelta` does after the space is reserved. -/
def applyReserved (c : Chunk) (size : Nat) (h : size ≤ c.content.length) (delta : List Byte) :
    Chunk × Except Exn (List Byte) :=
  let applied := applyBlocks size delta.length 0 c.content delta
  have hlength : applied.1.length = c.content.length := applyBlocks_length _ _ _ _ _
  let written := c.withContent applied.1 hlength
  match applied.2 with
  | .error e => (written, .error e)
  | .ok delta =>
    ((written.assignSize size (Nat.le_trans h (Nat.le_of_eq hlength.symm))).shrinkSpace, .ok delta)

/-- `applyDelta`: the chunk, and what is left of the delta. -/
def applyDelta (c : Chunk) (delta : List Byte) : Chunk × Except Exn (List Byte) :=
  if delta = [] then (c, .ok delta)
  else match varUIntTrie.decodeVarUIntAt delta with
    | .error e => (c, .error e)
    | .ok (number, delta) =>
      match h : c.reserveSpace (c.chunkSize ^^^ number) with
      | .error e => (c, .error e)
      | .ok reserved => reserved.applyReserved (c.chunkSize ^^^ number) (reserveSpace_le h) delta

theorem shrinkSpace_content (c : Chunk) : c.shrinkSpace.content = c.content.take c.chunkSize := by
  unfold shrinkSpace
  split
  · rename_i h
    rw [h]
    exact List.take_length.symm
  · rfl

theorem shrinkSpace_chunkSize (c : Chunk) : c.shrinkSpace.chunkSize = c.chunkSize := by
  unfold shrinkSpace
  split <;> rfl

theorem applyReserved_error {c c' : Chunk} {size : Nat} {h : size ≤ c.content.length}
    {delta : List Byte} {e : Exn}
    (happlied : c.applyReserved size h delta = (c', .error e)) :
    (applyBlocks size delta.length 0 c.content delta).2 = .error e ∧ c'.chunkSize = c.chunkSize ∧
    c'.writable = c.writable ∧
      c'.content = (applyBlocks size delta.length 0 c.content delta).1 := by
  unfold applyReserved at happlied
  dsimp only at happlied
  split at happlied
  · rename_i e' hblocks
    obtain ⟨rfl, he⟩ := Prod.mk.inj happlied
    obtain rfl := Except.error.inj he
    exact ⟨hblocks, rfl, rfl, rfl⟩
  · cases (Prod.mk.inj happlied).2

theorem shrinkSpace_writable (c : Chunk) : c.shrinkSpace.writable = c.writable := by
  unfold shrinkSpace
  split <;> rfl

theorem applyReserved_ok {c c' : Chunk} {size : Nat} {h : size ≤ c.content.length}
    {delta next : List Byte}
    (happlied : c.applyReserved size h delta = (c', .ok next)) :
    (applyBlocks size delta.length 0 c.content delta).2 = .ok next ∧ c'.chunkSize = size ∧
    c'.writable = c.writable ∧
      c'.content = (applyBlocks size delta.length 0 c.content delta).1.take size := by
  unfold applyReserved at happlied
  dsimp only at happlied
  split at happlied
  · cases (Prod.mk.inj happlied).2
  · rename_i next' hblocks
    obtain ⟨rfl, hnext⟩ := Prod.mk.inj happlied
    obtain rfl := Except.ok.inj hnext
    refine ⟨hblocks, ?_, ?_, ?_⟩
    · rw [shrinkSpace_chunkSize]
      rfl
    · rw [shrinkSpace_writable]
      rfl
    · rw [shrinkSpace_content]
      rfl

/-- A call that returns, for a delta that is not empty. -/
theorem applyDelta_ok {c c' : Chunk} {delta next : List Byte} (hne : delta ≠ [])
    (h : c.applyDelta delta = (c', .ok next)) :
    ∃ number tail reserved, varUIntTrie.decodeVarUIntAt delta = .ok (number, tail) ∧
      c.reserveSpace (c.chunkSize ^^^ number) = .ok reserved ∧
      (applyBlocks (c.chunkSize ^^^ number) tail.length 0 reserved.content tail).2 = .ok next ∧
      c'.chunkSize = c.chunkSize ^^^ number ∧
      c'.content = (applyBlocks (c.chunkSize ^^^ number) tail.length 0 reserved.content tail).1.take
        (c.chunkSize ^^^ number) := by
  unfold applyDelta at h
  rw [if_neg hne] at h
  split at h
  · cases h
  · rename_i number tail hread
    split at h
    · cases h
    · rename_i reserved hreserve
      obtain ⟨hblocks, hsize, -, hcontent⟩ := applyReserved_ok h
      exact ⟨number, tail, reserved, hread, hreserve, hblocks, hsize, hcontent⟩

theorem applyDelta_returns {c reserved : Chunk} {delta tail next : List Byte} {number : Nat}
    (hne : delta ≠ [])
    (hread : varUIntTrie.decodeVarUIntAt delta = .ok (number, tail))
    (hreserve : c.reserveSpace (c.chunkSize ^^^ number) = .ok reserved)
    (hblocks : (applyBlocks (c.chunkSize ^^^ number) tail.length 0 reserved.content tail).2 =
      .ok next) :
    ∃ c', c.applyDelta delta = (c', .ok next) := by
  unfold applyDelta
  rw [if_neg hne, hread]
  dsimp only
  split
  · rename_i hfails
    cases hreserve.symm.trans hfails
  · rename_i reserved' hreserve'
    obtain rfl := Except.ok.inj (hreserve.symm.trans hreserve')
    cases happlied : reserved.applyReserved (c.chunkSize ^^^ number)
      (reserveSpace_le hreserve') tail with
    | mk c' result =>
      cases result with
      | error e => cases hblocks.symm.trans (applyReserved_error happlied).1
      | ok next' =>
        obtain rfl := Except.ok.inj (hblocks.symm.trans (applyReserved_ok happlied).1)
        exact ⟨c', rfl⟩

end Chunk

end Argennon
