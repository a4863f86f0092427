import Argennon.Heap.AdditiveUpdates
import Argennon.Heap.ChunkView
import Argennon.Heap.ZeroTail

/- A view as a memory.

   The blocks of a chunk that were stored to show one memory, of which the write-back keeps the
   bytes below the size. So a store is a write into this memory, and a load a read of it
   (`ShowsMemory.store`, `ShowsMemory.bytes`). -/
namespace Argennon

/-! ## Reads and writes -/

/-- A byte of the memory, by a read that covers it. -/
theorem readAt_getElem?_of_lt {mem : List Byte} {offset n i : Nat} (hlow : offset ≤ i)
    (hhigh : i < offset + n) (hlt : i < mem.length) :
    (readAt mem offset n)[i - offset]? = mem[i]? := by
  rw [readAt_getElem?, if_pos (by omega), Nat.add_sub_cancel' hlow, List.getD_eq_getElem _ _ hlt,
    List.getElem?_eq_getElem hlt]

/-- A read inside a part of the memory. -/
theorem readAt_readAt {mem : List Byte} {offset size index n : Nat} (h : index + n ≤ size) :
    readAt (readAt mem offset size) index n = readAt mem (offset + index) n := by
  apply List.ext_getElem?
  intro i
  rw [readAt_getElem?, readAt_getElem?]
  split
  · rw [List.getD_eq_getElem?_getD, readAt_getElem?, if_pos (by omega), Option.getD_some,
      Nat.add_assoc]
  · rfl

/-- A read beside the bytes that were written. -/
theorem readAt_writeAt_apart {mem bytes : List Byte} {offset offset' n : Nat}
    (h : offset' + n ≤ offset ∨ offset + bytes.length ≤ offset') :
    readAt (writeAt mem offset bytes) offset' n = readAt mem offset' n := by
  apply readAt_congr
  intro i hlow hhigh
  rw [List.getD_eq_getElem?_getD, List.getD_eq_getElem?_getD, writeAt_frame (by omega)]

/-- A write inside a part of the memory. -/
theorem readAt_writeAt_inside {mem bytes : List Byte} {offset size index : Nat}
    (hfit : offset + size ≤ mem.length) :
    readAt (writeAt mem (offset + index) bytes) offset size =
      writeAt (readAt mem offset size) index bytes := by
  apply List.ext_getElem?
  intro i
  by_cases hi : i < size
  · have hread : ∀ m : List Byte, m.length = mem.length →
        (readAt m offset size)[i]? = m[offset + i]? := by
      intro m hm
      have hread : (readAt m offset size)[offset + i - offset]? = m[offset + i]? :=
        readAt_getElem?_of_lt (Nat.le_add_right offset i) (by omega) (by omega)
      rwa [Nat.add_sub_cancel_left] at hread
    rw [hread _ (writeAt_length _ _ _), writeAt_getElem?, writeAt_getElem?, hread mem rfl,
      Nat.add_sub_add_left]
    congr 1
    funext b
    by_cases hindex : index ≤ i
    · rw [if_pos hindex, if_pos (by omega)]
    · rw [if_neg hindex, if_neg (by omega)]
  · rw [List.getElem?_eq_none (by rw [readAt_length]; omega),
      List.getElem?_eq_none (by rw [writeAt_length, readAt_length]; omega)]

/-! ## Memories -/

/-- Different blocks have no byte in common. -/
theorem Placed.disjoint {c₀ : ChunkInfo AccessBlock} (h : Placed c₀) {kb kb' : Nat × AccessBlock}
    (hkb : kb ∈ c₀.accessTable.entries)
    (hkb' : kb' ∈ c₀.accessTable.entries) (hne : kb.1 ≠ kb'.1) :
    kb.1 + kb.2.size ≤ kb'.1 ∨ kb'.1 + kb'.2.size ≤ kb.1 := by
  have hall := List.Pairwise.forall_of_forall_of_flip (l := c₀.accessTable.entries)
    (R := fun a b : Nat × AccessBlock => a.1 ≠ b.1 → a.1 + a.2.size ≤ b.1 ∨ b.1 + b.2.size ≤ a.1)
    (fun a _ hne => absurd rfl hne) (h.apart.imp fun hab _ =>
      .inl hab.2) (h.apart.imp fun hab _ => .inr hab.2)
  exact hall hkb hkb' hne

/-- The blocks that hold something hold the bytes of the memory, which is the memory of the chunk
everywhere else. -/
structure ShowsMemory (chunk : Chunk) (c₀ : ChunkInfo AccessBlock) (v : ChunkView)
    (mem : List Byte) : Prop where
  length : mem.length = chunk.content.length
  written : ∀ kb ∈ c₀.accessTable.entries, ∀ content, v.written kb.1 = some content →
    kb.2.accessType.isAdditive = false ∧ content = readAt mem kb.1 kb.2.size
  kept : ∀ i,
    (∀ kb ∈ c₀.accessTable.entries, v.written kb.1 ≠ none →
      i < kb.1 ∨ kb.1 + kb.2.size ≤ i) → mem[i]? = chunk.content[i]?

namespace ShowsMemory
variable {chunk chunk' : Chunk} {c₀ : ChunkInfo AccessBlock} {v : ChunkView} {mem : List Byte}

theorem initial (chunk : Chunk) (c₀ : ChunkInfo AccessBlock) :
    ShowsMemory chunk c₀ (.initial chunk) chunk.content :=
  ⟨rfl, fun _ _ _ h => (by cases h), fun _ _ => rfl⟩

theorem resize (h : ShowsMemory chunk c₀ v mem) (size : Nat) :
    ShowsMemory chunk c₀ (v.resize size) mem := ⟨h.length, h.written, h.kept⟩

/-- What is shown of a block. -/
theorem bytes (h : ShowsMemory chunk c₀ v mem) (hp : Placed c₀) {offset : Nat} {b₀ : AccessBlock}
    (hb₀ : (offset, b₀) ∈ c₀.accessTable.entries) :
    v.bytes chunk offset b₀.size = readAt mem offset b₀.size := by
  unfold ChunkView.bytes
  cases hwritten : v.written offset with
  | some content => exact (h.written _ hb₀ content hwritten).2
  | none =>
    refine (readAt_congr fun i hlow hhigh => ?_ : readAt chunk.content offset b₀.size = _)
    rw [List.getD_eq_getElem?_getD, List.getD_eq_getElem?_getD, h.kept i fun kb hkb hsome => ?_]
    have hne : kb.1 ≠ offset := fun heq => hsome (heq ▸ hwritten)
    have hdisjoint := hp.disjoint hkb hb₀ hne
    simp only at hdisjoint
    omega

/-- A store is a write into the memory. -/
theorem store (h : ShowsMemory chunk c₀ v mem) (hp : Placed c₀) {offset index : Nat}
    {b₀ : AccessBlock} {bytes : List Byte}
    (hb₀ : (offset, b₀) ∈ c₀.accessTable.entries) (hplain : b₀.accessType.isAdditive = false)
    (hle : index + bytes.length ≤ b₀.size)
    (hfit : offset + b₀.size ≤ chunk.content.length) :
    ShowsMemory chunk c₀ (v.write offset (writeAt (v.bytes chunk offset b₀.size) index bytes))
      (writeAt mem (offset + index) bytes) := by
  have hbytes := h.bytes hp hb₀
  refine ⟨by rw [writeAt_length, h.length], fun kb hkb content hcontent => ?_, fun i hi => ?_⟩
  · by_cases hsame : kb.1 = offset
    · obtain ⟨_, b⟩ := kb
      obtain rfl : _ = offset := hsame
      obtain rfl := hp.unique hb₀ hkb
      rw [ChunkView.write_written_self] at hcontent
      refine ⟨hplain, ?_⟩
      rw [← Option.some.inj hcontent, hbytes, readAt_writeAt_inside (by rw [h.length]; exact hfit)]
    · rw [ChunkView.write_written_of_ne _ _ hsame] at hcontent
      obtain ⟨hplain', rfl⟩ := h.written kb hkb content hcontent
      have hdisjoint := hp.disjoint hkb hb₀ hsame
      simp only at hdisjoint
      exact ⟨hplain', (readAt_writeAt_apart (by omega)).symm⟩
  · have hself := hi _ hb₀ (by rw [ChunkView.write_written_self]; exact Option.some_ne_none _)
    simp only at hself
    rw [writeAt_frame (by omega)]
    refine h.kept i fun kb hkb hsome => ?_
    by_cases hsame : kb.1 = offset
    · obtain ⟨_, b⟩ := kb
      obtain rfl : _ = offset := hsame
      obtain rfl := hp.unique hb₀ hkb
      exact hself
    · exact hi kb hkb (by rwa [ChunkView.write_written_of_ne _ _ hsame])

/-- The bytes below the size are written back as they are shown. -/
theorem persists (h : ShowsMemory chunk c₀ v mem) (hwritten : WrittenBack chunk c₀ v chunk') :
    ∀ i, i < chunk'.chunkSize → chunk'.content[i]? = mem[i]? := by
  intro i hi
  have hlength : i < mem.length := by
    rw [h.length, ← hwritten.length]
    exact Nat.lt_of_lt_of_le hi chunk'.size_le
  rw [hwritten.chunkSize] at hi
  by_cases hin : ∃ kb ∈ c₀.accessTable.entries, v.written kb.1 ≠ none ∧ kb.1 ≤ i ∧
    i < kb.1 + kb.2.size
  · obtain ⟨kb, hkb, hsome, hlow, hhigh⟩ := hin
    obtain ⟨content, hcontent⟩ := Option.ne_none_iff_exists'.mp hsome
    obtain ⟨hplain, rfl⟩ := h.written kb hkb content hcontent
    rw [hwritten.written kb hkb _ hcontent i hlow hhigh hi]
    unfold AccessBlock.writtenBytes
    rw [hplain]
    exact readAt_getElem?_of_lt hlow hhigh hlength
  · have hout : ∀ kb ∈ c₀.accessTable.entries, v.written kb.1 ≠ none → i < kb.1 ∨
        kb.1 + kb.2.size ≤ i := by
      intro kb hkb hsome
      by_contra hboth
      exact hin ⟨kb, hkb, hsome, by omega, by omega⟩
    rw [hwritten.kept i fun _ => hout, Chunk.sizedTo_below chunk hi, h.kept i hout]

end ShowsMemory

/-- The bytes past the size are zero if they were before. -/
theorem WrittenBack.zeroTail {chunk chunk' : Chunk} {c₀ : ChunkInfo AccessBlock} {v : ChunkView}
    (h : WrittenBack chunk c₀ v chunk')
    (hzero : chunk.ZeroTail) : chunk'.ZeroTail := by
  intro i hle hlt
  rw [h.chunkSize] at hle
  have hlength : i < chunk.content.length := h.length ▸ hlt
  rw [h.kept i fun hbelow => absurd hbelow (Nat.not_lt.mpr hle)]
  unfold Chunk.sizedTo
  by_cases hold : i < chunk.chunkSize
  · -- the chunk has lost this byte
    rw [writeAt_inside hle (by rw [List.length_replicate]; omega) hlength, List.getElem?_replicate,
      if_pos (by omega)]
  · rw [writeAt_frame (by rw [List.length_replicate]; omega)]
    exact hzero i (Nat.le_of_not_lt hold) hlength

/-! ## Sums -/

/-- A chunk of which only one additive block was changed, and which does not shrink. -/
theorem WrittenBack.added {chunk chunk' : Chunk} {c₀ : ChunkInfo AccessBlock} {v : ChunkView}
    (h : WrittenBack chunk c₀ v chunk')
    (hp : Placed c₀) {offset amount : Nat} {b₀ : AccessBlock}
    (hb₀ : (offset, b₀) ∈ c₀.accessTable.entries)
    (hadditive : b₀.accessType.isAdditive) (hsize : b₀.size = 8)
    (hfit : offset + 8 ≤ chunk.content.length)
    (hwritten : v.written = ((ChunkView.initial chunk).write offset (leBytes 8 amount)).written)
    (hgrow : chunk.chunkSize ≤ v.size) :
    ∀ i, chunk'.content[i]? =
      (if i < v.size then writeAt chunk.content offset
          (leBytes 8 (leNat (readAt chunk.content offset 8) + amount % 256 ^ 8))
        else chunk.content)[i]? := by
  have hsized := Chunk.sizedTo_of_le hgrow
  have hself : v.written offset = some (leBytes 8 amount) := by
    rw [hwritten, ChunkView.write_written_self]
  intro i
  by_cases hi : i < v.size
  · rw [if_pos hi]
    -- inside the block the number is increased; outside nothing was written
    by_cases hin : offset ≤ i ∧ i < offset + 8
    · rw [h.written _ hb₀ _ hself i hin.1 (by simp only; omega) hi]
      unfold AccessBlock.writtenBytes
      simp only
      rw [if_pos hadditive, hsized, hsize, leNat_leBytes,
        writeAt_inside hin.1 (by rw [leBytes_length]; omega) (by omega)]
    · rw [writeAt_frame (by rw [leBytes_length]; omega),
        h.kept i (fun _ kb hkb hsome => ?_), hsized]
      by_cases hsame : kb.1 = offset
      · obtain ⟨_, b⟩ := kb
        obtain rfl : _ = offset := hsame
        obtain rfl := hp.unique hb₀ hkb
        simp only
        omega
      · rw [hwritten, ChunkView.write_written_of_ne _ _ hsame] at hsome
        exact absurd rfl hsome
  · rw [if_neg hi, h.kept i fun hlt => absurd hlt hi, hsized]

end Argennon
