import Argennon.Heap.ModifierSimulation

/- What the operations on a chunk can leave behind, and what its write-back changes.

   `Kept` compares a chunk's information with the one it was built as: the blocks are
   the same, a block that may not write holds no version, and every version of the
   size block is a size the declaration allows. Every operation keeps it, whatever
   versions were saved and restored, so it holds when `writeToHeap` reads the blocks. -/
namespace Argennon

open VersionStack

/-! ## Blocks -/

/-- A block as it was declared, without versions when it may not write. -/
structure BlockKept (b₀ b : AccessBlock) : Prop where
  same : AccessBlock.SameBlock b₀ b
  passive : b₀.accessType.mayWrite = false → b.versionList = []

namespace BlockKept
variable {b₀ b b' : AccessBlock}

theorem syncTo (h : BlockKept b₀ b) (version : Nat) : BlockKept b₀ (b.syncTo version) :=
  ⟨⟨h.same.heapLocation, h.same.size, h.same.accessType⟩, fun hp => by
    have := h.passive hp
    simp [AccessBlock.syncTo, this, sync]⟩

theorem changed (h : BlockKept b₀ b) (hb : AccessBlock.SameBlock b b')
    (hw : b.accessType.mayWrite) : BlockKept b₀ b' := by
  refine ⟨⟨hb.heapLocation.trans h.same.heapLocation, hb.size.trans h.same.size,
    hb.accessType.trans h.same.accessType⟩,
    fun hp => ?_⟩
  rw [← h.same.accessType, hw] at hp
  cases hp

theorem mayWrite_of_write {a : Access} (h : a.denies .write = false) : a.mayWrite := by
  cases a <;> first | rfl | cases h

theorem mayWrite_of_addInt {a : Access} (h : a.denies .int_add = false) : a.mayWrite := by
  cases a <;> first | rfl | cases h

theorem read (h : BlockKept b₀ b) (base : List Byte) (version index n : Nat) :
    BlockKept b₀ (b.read base version index n).2 := by
  rcases b.read_cases base version index n with ⟨e, he⟩ | ⟨-, -, he⟩
  · rwa [he]
  · rw [he]
    exact h.syncTo version

theorem write (h : BlockKept b₀ b) {base : List Byte} (hb : base.length = b.size)
    (version index : Nat)
    (value : List Byte) : BlockKept b₀ (b.write base version index value).2 := by
  rcases b.write_cases hb version index value with ⟨e, he⟩ | ⟨e, he⟩ | ⟨-, hd, b', he, hsame, -⟩
  · rwa [he]
  · rw [he]
    exact h.syncTo version
  · rw [he]
    exact h.changed hsame (mayWrite_of_write hd)

theorem addInt (h : BlockKept b₀ b) (version n value : Nat) :
    BlockKept b₀ (b.addInt version n value).2 := by
  rcases b.addInt_cases version n value with ⟨e, he⟩ | ⟨e, he⟩ | ⟨-, hd, b', he, hsame, -⟩
  · rwa [he]
  · rw [he]
    exact h.syncTo version
  · rw [he]
    exact h.changed hsame (mayWrite_of_addInt hd)

end BlockKept

/-! ## The size block -/

/-- The content a block shows has the block's size. -/
theorem AccessBlock.view_length {b : AccessBlock} {base : List Byte} (h : base.length = b.size)
    (version : Nat) :
    ((view version b.versionList).getD base).length = b.size :=
  AccessBlock.latest_length (b := b.syncTo version) h

namespace ChunkInfo

/-- The chunk size that is shown at a version. -/
def shownSize (c : ChunkInfo AccessBlock) (chunk : Chunk) (version : Nat) : Nat :=
  ((view version c.size.versionList).map leNat).getD (c.initialSize.getD chunk.getsize)

theorem readSize_eq {c : ChunkInfo AccessBlock} (chunk : Chunk) (version : Nat)
    (hwidth : c.size.size = 4)
    (hread : c.size.accessType.denies .read = false)
    (hinit : c.initialSize.getD chunk.getsize < 2 ^ 32) :
    c.readSize chunk version = (.ok (c.shownSize chunk version),
      { c with
        size := c.size.syncTo version
        initialSize := some (c.initialSize.getD chunk.getsize) }) := by
  have hbase : (leBytes 4 (c.initialSize.getD chunk.getsize)).length = c.size.size := by
    rw [leBytes_length, hwidth]
  have hr : c.size.read (leBytes 4 (c.initialSize.getD chunk.getsize)) version 0 4 =
      (.ok ((view version c.size.versionList).getD (leBytes 4 (c.initialSize.getD chunk.getsize))),
        c.size.syncTo version) := by
    rw [AccessBlock.read_ok (by rw [hwidth]) hread,
      readAt_self ((AccessBlock.view_length hbase version).trans hwidth)]
  have hunfold : c.readSize chunk version =
      ((c.size.read (leBytes 4 (c.initialSize.getD chunk.getsize)) version 0 4).1.map leNat,
        { c with
          size := (c.size.read (leBytes 4 (c.initialSize.getD chunk.getsize)) version 0 4).2
          initialSize := some (c.initialSize.getD chunk.getsize) }) := rfl
  rw [hunfold, hr, shownSize]
  cases view version c.size.versionList with
  | none =>
    simp only [Option.getD_none, Option.map_none, Except.map, leNat_leBytes]
    rw [Nat.mod_eq_of_lt (by simpa using hinit)]
  | some content => rfl

theorem writeSize_eq (c : ChunkInfo AccessBlock) (chunk : Chunk) (version newSize : Nat) :
    (c.writeSize chunk version newSize).2 =
      { c with
        size :=
  (c.size.write (leBytes 4 (c.initialSize.getD chunk.getsize)) version 0 (leBytes 4 newSize)).2
        initialSize := some (c.initialSize.getD chunk.getsize) } := rfl

/-- An operation on one block replaces it in the table. -/
theorem onBlock_kept {α : Type} {c₀ c : ChunkInfo AccessBlock}
    (h : List.Forall₂ BlockKept c₀.accessTable.values c.accessTable.values) (chunk : Chunk)
    (offset : Nat)
    {f : AccessBlock → List Byte → Except Exn α × AccessBlock}
    (hf : ∀ b₀ b base, BlockKept b₀ b → base.length = b.size → BlockKept b₀ (f b base).2) :
    ∃ table, (c.onBlock chunk offset f).2 = { c with accessTable := table } ∧
      table.keys = c.accessTable.keys ∧
      List.Forall₂ BlockKept c₀.accessTable.values table.values := by
  unfold ChunkInfo.onBlock
  cases hget : c.getAccessBlock offset with
  | error e => exact ⟨c.accessTable, rfl, rfl, h⟩
  | ok kb =>
    obtain ⟨k, b⟩ := kb
    have hk := ChunkInfo.getAccessBlock_ok hget
    rcases forall₂_getElem? h k with ⟨-, h2⟩ | ⟨b₀, b₁, h1, h2, hkept⟩
    · rw [hk] at h2
      cases h2
    · obtain rfl : b = b₁ := Option.some.inj (hk.symm.trans h2)
      have hset :=
        forall₂_set h k (hf b₀ b _ hkept (readAt_length chunk.content b.heapLocation b.size))
      have hself : c₀.accessTable.values.set k b₀ = c₀.accessTable.values := by
        obtain ⟨hlt, rfl⟩ := List.getElem?_eq_some_iff.mp h1
        exact List.set_getElem_self hlt
      rw [hself] at hset
      exact ⟨_, rfl, rfl, hset⟩

/-- The entries of a table whose blocks are kept. -/
theorem entries_forall₂ {c₀ c : ChunkInfo AccessBlock}
    (hkeys : c.accessTable.keys = c₀.accessTable.keys)
    (hblocks : List.Forall₂ BlockKept c₀.accessTable.values c.accessTable.values) :
    List.Forall₂ (fun kb₀ kb => kb.1 = kb₀.1 ∧ BlockKept kb₀.2 kb.2) c₀.accessTable.entries
      c.accessTable.entries := by
  have hzip : ∀ (keys : List Nat) {l₀ l : List AccessBlock}, List.Forall₂ BlockKept l₀ l →
      List.Forall₂ (fun kb₀ kb => kb.1 = kb₀.1 ∧ BlockKept kb₀.2 kb.2) (keys.zip l₀)
        (keys.zip l) := by
    intro keys l₀ l h
    induction h generalizing keys with
    | nil => simp
    | cons hb _ ih =>
      cases keys with
      | nil => exact .nil
      | cons key keys => exact .cons ⟨rfl, hb⟩ (ih keys)
  unfold OrderedStaticMap.entries
  rw [hkeys]
  exact hzip _ hblocks

/-- The blocks stand where they were declared, and those that may not be written hold nothing. -/
theorem entries_declared {c₀ c : ChunkInfo AccessBlock}
    (hkeys : c.accessTable.keys = c₀.accessTable.keys)
    (hblocks : List.Forall₂ BlockKept c₀.accessTable.values c.accessTable.values)
    (hloc : ∀ kb ∈ c₀.accessTable.entries, kb.2.heapLocation = kb.1) :
    ∀ kb ∈ c.accessTable.entries,
      (kb.2.heapLocation = kb.1 ∧ (kb.2.accessType.mayWrite = false → kb.2.versionList = [])) ∧
      ∃ kb₀ ∈ c₀.accessTable.entries, kb₀.1 = kb.1 ∧ kb.2.size = kb₀.2.size ∧
        kb.2.accessType = kb₀.2.accessType := by
  intro kb hkb
  obtain ⟨kb₀, hmem, hkey, hkept⟩ := forall₂_mem_right (entries_forall₂ hkeys hblocks) hkb
  refine ⟨⟨?_, fun hp => hkept.passive ?_⟩, kb₀, hmem, hkey.symm, hkept.same.size,
    hkept.same.accessType⟩
  · rw [hkept.same.heapLocation, hkey]
    exact hloc kb₀ hmem
  · rw [← hkept.same.accessType]
    exact hp

end ChunkInfo

/-! ## Chunks -/

/-- The sizes a declaration allows for a chunk of size `old`. -/
def SizeAllowed (c : ChunkInfo AccessBlock) (old new : Nat) : Prop :=
  match c.resizing with
  | .expandable => old ≤ new ∧ new ≤ c.sizeBound
  | .shrinkable => c.sizeBound ≤ new ∧ new ≤ old
  | .read_only | .non_accessible => False

/-- A chunk's information as it was built as `c₀`, for the chunk `chunk` of the heap. -/
structure Kept (chunk : Chunk) (c₀ c : ChunkInfo AccessBlock) : Prop where
  keys : c.accessTable.keys = c₀.accessTable.keys
  blocks : List.Forall₂ BlockKept c₀.accessTable.values c.accessTable.values
  ptr : c.ptr = c₀.ptr
  resizing : c.resizing = c₀.resizing
  sizeBound : c.sizeBound = c₀.sizeBound
  initialSize : c.initialSize = none ∨ c.initialSize = some chunk.getsize
  size_width : c.size.size = 4
  size_type : c.size.accessType = if c₀.resizing.resizable then .writable else .read_only
  sizes : ∀ e ∈ c.size.versionList, SizeAllowed c₀ chunk.getsize (leNat e.content)

namespace Kept
variable {chunk : Chunk} {c₀ c : ChunkInfo AccessBlock}

theorem getsize_lt (chunk : Chunk) : chunk.getsize < 2 ^ 32 := by
  have h1 : chunk.getsize ≤ chunk.content.length := chunk.size_le
  have h2 : chunk.content.length ≤ 64 * 1024 := chunk.capacity_le
  omega

/-- Another size block of the same kind. -/
theorem withSize (h : Kept chunk c₀ c) {b : AccessBlock} {initialSize : Option Nat}
    (hinit : initialSize = none ∨ initialSize = some chunk.getsize)
    (hb : AccessBlock.SameBlock c.size b)
    (hsizes : ∀ e ∈ b.versionList, SizeAllowed c₀ chunk.getsize (leNat e.content)) :
    Kept chunk c₀ { c with size := b, initialSize } :=
  ⟨h.keys, h.blocks, h.ptr, h.resizing, h.sizeBound, hinit, hb.size.trans h.size_width,
    hb.accessType.trans h.size_type, hsizes⟩

theorem initialSize_getD (h : Kept chunk c₀ c) :
    c.initialSize.getD chunk.getsize = chunk.getsize := by
  rcases h.initialSize with hi | hi <;> rw [hi] <;> rfl

/-- Reading the size gives the size in the heap or one that the declaration allows. -/
theorem readSize (h : Kept chunk c₀ c) (version : Nat) : ∃ n c',
    c.readSize chunk version = (.ok n, c') ∧ Kept chunk c₀ c' ∧
      (n = chunk.getsize ∨ SizeAllowed c₀ chunk.getsize n) := by
  have hread : c.size.accessType.denies .read = false := by
    rw [h.size_type]
    split <;> rfl
  refine ⟨_, _, ChunkInfo.readSize_eq chunk version h.size_width hread (by
    rw [h.initialSize_getD]
    exact getsize_lt chunk), ?_, ?_⟩
  · rw [h.initialSize_getD]
    exact h.withSize (.inr rfl) ⟨rfl, rfl, rfl⟩ fun e he => h.sizes e (mem_of_mem_sync he)
  · unfold ChunkInfo.shownSize
    cases hv : view version c.size.versionList with
    | none => exact .inl h.initialSize_getD
    | some content =>
      exact .inr (view_of_forall (P := fun content => SizeAllowed c₀ chunk.getsize (leNat content))
        h.sizes content hv)

/-- Writing an allowed size. -/
theorem writeSize (h : Kept chunk c₀ c) (version : Nat) {newSize : Nat} (hlt : newSize < 2 ^ 32)
    (hnew : SizeAllowed c₀ chunk.getsize newSize) :
    Kept chunk c₀ (c.writeSize chunk version newSize).2 := by
  have hbase : (leBytes 4 chunk.getsize).length = c.size.size := by
    rw [leBytes_length, h.size_width]
  rw [ChunkInfo.writeSize_eq, h.initialSize_getD]
  rcases c.size.write_cases hbase version 0 (leBytes 4 newSize) with ⟨e, he⟩ | ⟨e, he⟩ | ⟨-, -, b',
    he, hsame, hl⟩
  · rw [he]
    exact h.withSize (.inr rfl) ⟨rfl, rfl, rfl⟩ h.sizes
  · rw [he]
    exact h.withSize (.inr rfl) ⟨rfl, rfl, rfl⟩ fun e he => h.sizes e (mem_of_mem_sync he)
  · rw [he]
    refine h.withSize (.inr rfl) hsame ?_
    -- the whole block is written
    have hlen := AccessBlock.view_length hbase version
    rw [hl, writeAt_all (by rw [hlen, leBytes_length]; exact h.size_width.symm)]
    refine forall_put (P := fun content => SizeAllowed c₀ chunk.getsize (leNat content))
      (fun e he => h.sizes e (mem_of_mem_sync he)) ?_
    rw [leNat_leBytes, Nat.mod_eq_of_lt (by simpa using hlt)]
    exact hnew

/-- An operation on one block. -/
theorem onBlock {α : Type} (h : Kept chunk c₀ c) (offset : Nat)
    {f : AccessBlock → List Byte → Except Exn α × AccessBlock}
    (hf : ∀ b₀ b base, BlockKept b₀ b → base.length = b.size → BlockKept b₀ (f b base).2) :
    Kept chunk c₀ (c.onBlock chunk offset f).2 := by
  obtain ⟨table, heq, hkeys, hblocks⟩ := ChunkInfo.onBlock_kept h.blocks chunk offset hf
  rw [heq]
  exact ⟨hkeys.trans h.keys, hblocks, h.ptr, h.resizing, h.sizeBound, h.initialSize, h.size_width,
    h.size_type, h.sizes⟩

theorem updateChunkSize (h : Kept chunk c₀ c) (version newSize : Nat)
    (hbound : c₀.sizeBound ≤ maxChunkSize) :
    Kept chunk c₀ (c.updateChunkSize chunk version newSize).2 := by
  have hsize : chunk.getsize < 2 ^ 32 := getsize_lt chunk
  have hbound : c₀.sizeBound < 2 ^ 32 := lt_of_le_of_lt hbound (by decide)
  obtain ⟨oldSize, c', hread, hc', hold⟩ := h.readSize version
  unfold ChunkInfo.updateChunkSize
  rw [hread]
  simp only [hc'.resizing, hc'.sizeBound]
  split
  · exact hc'
  cases hres : c₀.resizing with
  | expandable =>
    -- an expandable chunk was never below its first size
    have hold : chunk.getsize ≤ oldSize := by
      rcases hold with rfl | hold
      · exact le_rfl
      · simp only [SizeAllowed, hres] at hold
        exact hold.1
    simp only
    split
    · exact hc'
    · refine hc'.writeSize version (by omega) ?_
      simp only [SizeAllowed, hres]
      omega
  | shrinkable =>
    -- a shrinkable one was never above it
    have hold : oldSize ≤ chunk.getsize := by
      rcases hold with rfl | hold
      · exact le_rfl
      · simp only [SizeAllowed, hres] at hold
        exact hold.2
    simp only
    split
    · exact hc'
    · refine hc'.writeSize version (by omega) ?_
      simp only [SizeAllowed, hres]
      omega
  | read_only => exact hc'
  | non_accessible => exact hc'

/-- Every operation on the chunk, at every version. -/
theorem exec (h : Kept chunk c₀ c) (hbound : c₀.sizeBound ≤ maxChunkSize) (version : Nat)
    (op : ChunkOp) :
    Kept chunk c₀ (c.exec chunk version op).2 := by
  cases op with
  | load offset index n => exact h.onBlock offset fun b₀ b base hb _ => hb.read base version index n
  | store offset index value =>
    exact h.onBlock offset fun b₀ b base hb hbase => hb.write hbase version index value
  | addInt offset n value => exact h.onBlock offset fun b₀ b base hb _ => hb.addInt version n value
  | isValid offset size =>
    obtain ⟨n, c', hread, hc', -⟩ := h.readSize version
    simp only [ChunkInfo.exec, ChunkInfo.isValid]
    split
    · exact h
    · split
      · rw [hread]
        exact hc'
      · exact h
  | getChunkSize =>
    obtain ⟨n, c', hread, hc', -⟩ := h.readSize version
    simp only [ChunkInfo.exec, ChunkInfo.getChunkSize]
    split
    · exact h
    · rw [hread]
      exact hc'
  | updateChunkSize newSize => exact h.updateChunkSize version newSize hbound

end Kept

/-! ## The write-back -/

/-- The bytes a block may write. -/
def Writes (kb : Nat × AccessBlock) (i : Nat) : Prop :=
  kb.2.accessType.mayWrite ∧ kb.1 ≤ i ∧ i < kb.1 + kb.2.size

/-- A byte of a block that holds something. -/
def InWritten (version : Nat) (l : List (Nat × AccessBlock)) (i : Nat) : Prop :=
  ∃ kb ∈ l, view version kb.2.versionList ≠ none ∧ kb.1 ≤ i ∧ i < kb.1 + kb.2.size

/-- A block that may not be written holds nothing. -/
theorem InWritten.writes {version : Nat} {l : List (Nat × AccessBlock)} {i : Nat}
    (h : InWritten version l i)
    (hpassive : ∀ kb ∈ l, kb.2.accessType.mayWrite = false → kb.2.versionList = []) :
    ∃ kb ∈ l, Writes kb i := by
  obtain ⟨kb, hkb, hview, hlow, hhigh⟩ := h
  refine ⟨kb, hkb, ?_, hlow, hhigh⟩
  by_contra hno
  rw [hpassive kb hkb (by simpa using hno)] at hview
  exact hview rfl

theorem wrToHeap_frame {b : AccessBlock} {chunk chunk' : Chunk} {version maxWriteSize : Nat}
    (h : b.wrToHeap chunk version maxWriteSize = .ok chunk') :
    chunk'.chunkSize = chunk.chunkSize ∧ chunk'.writable = chunk.writable ∧
      chunk'.content.length = chunk.content.length ∧
      ∀ i, (view version b.versionList ≠ none →
          i < b.heapLocation ∨ b.heapLocation + min b.size maxWriteSize ≤ i) →
        chunk'.content[i]? = chunk.content[i]? := by
  have htop : top (b.syncTo version).versionList = view version b.versionList := rfl
  unfold AccessBlock.wrToHeap at h
  rw [htop] at h
  cases hview : view version b.versionList with
  | none =>
    rw [hview] at h
    obtain rfl := Except.ok.inj h
    exact ⟨rfl, rfl, rfl, fun _ _ => rfl⟩
  | some content =>
    rw [hview] at h
    have hwrite : ∀ bytes : List Byte, bytes.length ≤ min b.size maxWriteSize →
        chunk' = chunk.writeBytes b.heapLocation bytes →
        chunk'.chunkSize = chunk.chunkSize ∧ chunk'.writable = chunk.writable ∧
          chunk'.content.length = chunk.content.length ∧
          ∀ i, (some content ≠ none →
              i < b.heapLocation ∨ b.heapLocation + min b.size maxWriteSize ≤ i) →
            chunk'.content[i]? = chunk.content[i]? := by
      rintro bytes hlen rfl
      refine ⟨rfl, rfl, writeAt_length _ _ _, fun i hi => writeAt_frame ?_⟩
      have := hi (Option.some_ne_none content)
      omega
    simp only at h
    split at h
    · split at h
      · cases h
      · exact hwrite _ (by simp) (Except.ok.inj h).symm
    · exact hwrite _ (by simp) (Except.ok.inj h).symm

/-- The blocks of a chunk whose offsets are their heap locations write below the chunk
size and nowhere but in those that hold something. -/
theorem writeBlocks_frame {version chunkSize : Nat} :
    ∀ {l : List (Nat × AccessBlock)} {chunk chunk' : Chunk},
    (∀ kb ∈ l, kb.2.heapLocation = kb.1) →
    ChunkInfo.writeBlocks version chunkSize l chunk = .ok chunk' →
    chunk'.chunkSize = chunk.chunkSize ∧ chunk'.writable = chunk.writable ∧
      chunk'.content.length = chunk.content.length ∧
      ∀ i, (i < chunkSize → ¬ InWritten version l i) → chunk'.content[i]? = chunk.content[i]?
  | [], chunk, chunk', _, h => by
    obtain rfl := Except.ok.inj h
    exact ⟨rfl, rfl, rfl, fun _ _ => rfl⟩
  | (offset, b) :: rest, chunk, chunk', hl, h => by
    obtain ⟨hloc, hrest⟩ := List.forall_mem_cons.mp hl
    rw [ChunkInfo.writeBlocks] at h
    split at h
    · obtain rfl := Except.ok.inj h
      exact ⟨rfl, rfl, rfl, fun _ _ => rfl⟩
    rename_i hoff
    obtain ⟨mid, hmid, h⟩ := bind_ok.mp h
    obtain ⟨m1, m2, m3, m4⟩ := wrToHeap_frame hmid
    obtain ⟨r1, r2, r3, r4⟩ := writeBlocks_frame hrest h
    refine ⟨r1.trans m1, r2.trans m2, r3.trans m3, fun i hi => ?_⟩
    have hout : i < chunkSize → ¬ InWritten version rest i := by
      rintro hlt ⟨kb, hkb, hin⟩
      exact hi hlt ⟨kb, List.mem_cons_of_mem _ hkb, hin⟩
    rw [r4 i hout]
    refine m4 i fun hview => ?_
    simp only at hloc
    rw [hloc]
    by_contra hin
    have hin : ¬ (i < offset ∨ offset + min b.size (chunkSize - offset) ≤ i) := hin
    have hlt : i < chunkSize := by omega
    have hlow : offset ≤ i := by omega
    have hhigh : i < offset + b.size := by omega
    exact hi hlt ⟨(offset, b), List.mem_cons_self, hview, hlow, hhigh⟩

/-- Only a block that adds to an integer of more than 8 bytes fails to be written. -/
theorem writeBlocks_error {version chunkSize : Nat} {e : Exn} :
    ∀ {l : List (Nat × AccessBlock)} {chunk : Chunk},
    ChunkInfo.writeBlocks version chunkSize l chunk = .error e →
      e = .assertion "size <= sizeof(int64_t)"
  | [], _, h => by cases h
  | (offset, b) :: rest, chunk, h => by
    rw [ChunkInfo.writeBlocks] at h
    split at h
    · cases h
    cases hb : HeapBlock.wrToHeap b chunk version (chunkSize - offset) with
    | error e' =>
      rw [hb] at h
      obtain rfl : e' = e := Except.error.inj h
      have hb : b.wrToHeap chunk version (chunkSize - offset) = .error e' := hb
      unfold AccessBlock.wrToHeap at hb
      split at hb
      · cases hb
      · simp only at hb
        split at hb
        · split at hb
          · exact (Except.error.inj hb).symm
          · cases hb
        · cases hb
    | ok mid =>
      rw [hb] at h
      exact writeBlocks_error h

/-- Blocks that hold nothing are not written. -/
theorem writeBlocks_untouched {version chunkSize : Nat} {chunk : Chunk} :
    ∀ {l : List (Nat × AccessBlock)}, (∀ kb ∈ l, kb.2.versionList = []) →
    ChunkInfo.writeBlocks version chunkSize l chunk = .ok chunk
  | [], _ => rfl
  | (offset, b) :: rest, h => by
    obtain ⟨hb, hrest⟩ := List.forall_mem_cons.mp h
    have hwrite : HeapBlock.wrToHeap b chunk version (chunkSize - offset) = .ok chunk := by
      change b.wrToHeap chunk version (chunkSize - offset) = .ok chunk
      simp only at hb
      simp [AccessBlock.wrToHeap, AccessBlock.syncTo, hb, sync, top]
    rw [ChunkInfo.writeBlocks, hwrite]
    split
    · rfl
    · exact writeBlocks_untouched hrest

/-- What a request may change of a chunk it has written back: `Writes` tells the bytes
its blocks may write, `SizeChange` the sizes it may leave. -/
structure ChunkFrame (Writes : Nat → Prop) (SizeChange : Nat → Nat → Prop)
    (old new : Chunk) : Prop where
  capacity : new.capacity = old.capacity
  isWritable : new.isWritable = old.isWritable
  size : new.getsize = old.getsize ∨ SizeChange old.getsize new.getsize
  below : ∀ i, i < new.getsize → ¬ Writes i → new.content[i]? = old.content[i]?
  -- beyond the new size only the bytes that a shrink gave up are touched, and zeroed
  beyond : ∀ i, new.getsize ≤ i → new.content[i]? = old.content[i]? ∨
    (i < old.getsize ∧ new.content[i]? = some 0)

theorem ChunkFrame.mono {W W' : Nat → Prop} {S S' : Nat → Nat → Prop} {old new : Chunk}
    (h : ChunkFrame W S old new) (hW : ∀ i, W i → W' i)
    (hS : S old.getsize new.getsize → S' old.getsize new.getsize) : ChunkFrame W' S' old new :=
  ⟨h.capacity, h.isWritable, h.size.imp_right hS, fun i hi hno => h.below i hi fun hw =>
    hno (hW i hw),
    h.beyond⟩

theorem ChunkFrame.refl (W : Nat → Prop) (S : Nat → Nat → Prop) (chunk : Chunk) :
    ChunkFrame W S chunk chunk :=
  ⟨rfl, rfl, .inl rfl, fun _ _ _ => rfl, fun _ _ => .inl rfl⟩

/-- A chunk that keeps its size and of which no byte may be written keeps its value. -/
theorem ChunkFrame.eq_of_fixed {W : Nat → Prop} {S : Nat → Nat → Prop} {old new : Chunk}
    (h : ChunkFrame W S old new) (hW : ∀ i, ¬ W i) (hsize : new.getsize = old.getsize) :
    new = old := by
  have hcontent : new.content = old.content := by
    apply List.ext_getElem?
    intro i
    obtain hlt | hle := Nat.lt_or_ge i new.getsize
    · exact h.below i hlt (hW i)
    · obtain hsame | ⟨hlt, -⟩ := h.beyond i hle
      · exact hsame
      · omega
  have hwritable := h.isWritable
  obtain ⟨content, chunkSize, writable, _, _⟩ := old
  obtain ⟨content', chunkSize', writable', _, _⟩ := new
  obtain rfl : content' = content := hcontent
  obtain rfl : chunkSize' = chunkSize := hsize
  obtain rfl : writable' = writable := hwritable
  rfl

theorem setSize_frame {chunk chunk' : Chunk} {n : Nat} (h : chunk.setSize n = .ok chunk') :
    chunk'.chunkSize = n ∧ chunk'.writable = chunk.writable ∧
      chunk'.content.length = chunk.content.length ∧
      (∀ i, i < n → chunk'.content[i]? = chunk.content[i]?) ∧
      ∀ i, n ≤ i → (chunk.chunkSize ≤ i ∧ chunk'.content[i]? = chunk.content[i]?) ∨
        (i < chunk.chunkSize ∧ chunk'.content[i]? = some 0) := by
  unfold Chunk.setSize at h
  split at h
  swap
  · cases h
  obtain rfl := Except.ok.inj h
  refine ⟨rfl, rfl, writeAt_length _ _ _, fun i hi => writeAt_frame (.inl hi), fun i hi => ?_⟩
  rcases Nat.lt_or_ge i chunk.chunkSize with hlt | hge
  · have hc := chunk.size_le
    right
    rw [writeAt_getElem?, List.getElem?_eq_getElem (by omega), Option.map_some, if_pos hi,
      List.getD_eq_getElem _ _ (by simp; omega), List.getElem_replicate]
    exact ⟨hlt, rfl⟩
  · left
    refine ⟨hge, writeAt_frame (.inr ?_)⟩
    rw [List.length_replicate]
    omega

namespace Kept
variable {chunk : Chunk} {c₀ c : ChunkInfo AccessBlock}

/-- The positions of the blocks are those they were built with. -/
theorem entries_kept (h : Kept chunk c₀ c)
    (hloc : ∀ kb ∈ c₀.accessTable.entries, kb.2.heapLocation = kb.1) :
    ∀ kb ∈ c.accessTable.entries,
      (kb.2.heapLocation = kb.1 ∧ (kb.2.accessType.mayWrite = false → kb.2.versionList = [])) ∧
      ∃ kb₀ ∈ c₀.accessTable.entries, kb₀.1 = kb.1 ∧ kb.2.size = kb₀.2.size ∧
        kb.2.accessType = kb₀.2.accessType :=
  ChunkInfo.entries_declared h.keys h.blocks hloc

/-- The write-back of a chunk: it fails only on an over-long integer, and otherwise
changes the blocks that may write and the size. -/
theorem writeToHeap (h : Kept chunk c₀ c) (version : Nat)
    (hloc : ∀ kb ∈ c₀.accessTable.entries, kb.2.heapLocation = kb.1)
    (hcap : c₀.resizing = .expandable → c₀.sizeBound ≤ chunk.capacity) :
    (∀ e, c.writeToHeap version chunk = .error e → e = .assertion "size <= sizeof(int64_t)") ∧
    ∀ chunk', c.writeToHeap version chunk = .ok chunk' →
      ChunkFrame (fun i => ∃ kb ∈ c₀.accessTable.entries, Writes kb i)
        (SizeAllowed c₀) chunk chunk' := by
  obtain ⟨n, c', hread, hc', hn⟩ := h.readSize version
  have hcapacity : n ≤ chunk.content.length := by
    have hs := chunk.size_le
    rcases hn with rfl | hn
    · exact hs
    · cases hres : c₀.resizing with
      | expandable =>
        have := hcap hres
        simp only [SizeAllowed, hres] at hn
        exact hn.2.trans this
      | shrinkable =>
        simp only [SizeAllowed, hres] at hn
        exact hn.2.trans hs
      | read_only => simp [SizeAllowed, hres] at hn
      | non_accessible => simp [SizeAllowed, hres] at hn
  -- the change of size
  obtain ⟨mid, hmid, hm1, hm2, hm3, hm4, hm5⟩ : ∃ mid, c.resizeTo chunk n = .ok mid ∧
    mid.chunkSize = n ∧
      mid.writable = chunk.writable ∧ mid.content.length = chunk.content.length ∧
      (∀ i, i < n → mid.content[i]? = chunk.content[i]?) ∧
      ∀ i, n ≤ i → mid.content[i]? = chunk.content[i]? ∨
        (i < chunk.chunkSize ∧ mid.content[i]? = some 0) := by
    unfold ChunkInfo.resizeTo
    rw [h.resizing]
    by_cases hr : c₀.resizing.resizable = true
    · rw [if_pos hr]
      have hset : ∃ mid, chunk.setSize n = .ok mid := ⟨_, dif_pos hcapacity⟩
      obtain ⟨mid, hmid⟩ := hset
      obtain ⟨hsize, hwritable, hlength, hbelow, hbeyond⟩ := setSize_frame hmid
      exact ⟨mid, hmid, hsize, hwritable, hlength, hbelow,
        fun i hi => (hbeyond i hi).imp_left And.right⟩
    · rw [if_neg hr]
      have hsame : n = chunk.getsize := by
        rcases hn with hn | hn
        · exact hn
        · cases hres : c₀.resizing <;> simp [SizeAllowed, hres, ResizingType.resizable] at hn hr
      exact ⟨chunk, rfl, hsame.symm, rfl, rfl, fun _ _ => rfl, fun _ _ => .inl rfl⟩
  have hunfold : c.writeToHeap version chunk =
      if n > 0 ∧ mid.isWritable then ChunkInfo.writeBlocks version n c.accessTable.entries mid
      else .ok mid := by
    unfold ChunkInfo.writeToHeap
    rw [hread]
    simp only [bind, Except.bind, hmid]
  have hentries := h.entries_kept hloc
  rw [hunfold]
  by_cases hw : n > 0 ∧ mid.isWritable
  swap
  · rw [if_neg hw]
    refine ⟨fun e he => (by cases he), fun chunk' hchunk' => ?_⟩
    obtain rfl := Except.ok.inj hchunk'
    have hsize : mid.getsize = n := hm1
    rw [← hsize] at hn hm4 hm5
    exact ⟨hm3, hm2, hn, fun i hi _ => hm4 i hi, hm5⟩
  · rw [if_pos hw]
    refine ⟨fun e he => writeBlocks_error he, fun chunk' hchunk' => ?_⟩
    obtain ⟨f1, f2, f3, f4⟩ := writeBlocks_frame (fun kb hkb => (hentries kb hkb).1.1) hchunk'
    have hsize : chunk'.getsize = n := f1.trans hm1
    refine ⟨f3.trans hm3, f2.trans hm2, ?_, fun i hi hno => ?_, fun i hi => ?_⟩
    · rw [hsize]
      exact hn
    · rw [hsize] at hi
      rw [f4 i fun _ hin => hno ?_, hm4 i hi]
      obtain ⟨kb, hkb, hwr⟩ := hin.writes fun kb hkb => (hentries kb hkb).1.2
      obtain ⟨-, kb₀, hkb₀, hk, hs, ht⟩ := hentries kb hkb
      exact ⟨kb₀, hkb₀, ht ▸ hwr.1, hk ▸ hwr.2.1, by rw [hk, ← hs]; exact hwr.2.2⟩
    · rw [hsize] at hi
      rw [f4 i fun hlt => absurd hlt (by omega)]
      exact hm5 i hi

end Kept
end Argennon
