import Argennon.Heap.ModifierSimulation

/- Rollback of the modifier against a reference that takes complete snapshots.

   The source rolls back lazily: `restoreVersion` only lowers the current version, and
   a block drops its newer entries when it is next used. Version numbers are used
   again, so a block that is not used between a restore and the next save with the
   same number shows the entry that was rolled back. `NoStaleVersion` excludes that:
   no block holds an entry with the number that a save starts. In every run whose
   saves meet it the modifier does what the reference does. -/
namespace Argennon

open VersionStack

/-! ## The reference modifier -/

/-- A block that keeps its content (`none` until it is written) and, newest first,
the contents saved at each version. -/
structure SnapshotBlock where
  heapLocation : Nat
  size : Nat
  accessType : Access
  content : Option (List Byte) := none
  saved : List (Option (List Byte)) := []

namespace SnapshotBlock

def read (b : SnapshotBlock) (base : List Byte) (_version index n : Nat) :
    Except Exn (List Byte) × SnapshotBlock :=
  if index + n > b.size then (.error (.outOfRange "out of block read"), b)
  else if b.accessType.denies .read then (.error (.outOfRange "access block is not readable"), b)
  else (.ok (readAt (b.content.getD base) index n), b)

def write (b : SnapshotBlock) (base : List Byte) (version index : Nat) (value : List Byte) :
    Except Exn Unit × SnapshotBlock :=
  if index + value.length > b.size then (.error (.outOfRange "out of block write"), b)
  else if b.accessType.denies .write then (.error (.outOfRange "block is not writable"), b)
  else if version < 1 then (.error (.assertion "version >= 1"), b)
  else (.ok (), { b with content := some (writeAt (b.content.getD base) index value) })

def addInt (b : SnapshotBlock) (version n value : Nat) : Except Exn Unit × SnapshotBlock :=
  if n ≠ b.size then (.error (.outOfRange "addInt size"), b)
  else if b.accessType.denies .int_add then (.error (.outOfRange "block is not additive"), b)
  else if version < 1 then (.error (.assertion "version >= 1"), b)
  else (.ok (), { b with content := some (leBytes n ((b.content.map leNat).getD 0 + value)) })

def wrToHeap (b : SnapshotBlock) (chunk : Chunk) (_version maxWriteSize : Nat) : Except Exn Chunk :=
  match b.content with
  | none => .ok chunk
  | some content =>
    let writeSize := min b.size maxWriteSize
    if b.accessType.isAdditive then
      if b.size > 8 then .error (.assertion "size <= sizeof(int64_t)")
      else
        let s := leNat (readAt chunk.content b.heapLocation b.size)
        .ok (chunk.writeBytes b.heapLocation ((leBytes 8 (s + leNat content)).take writeSize))
    else .ok (chunk.writeBytes b.heapLocation (content.take writeSize))

/-- The content is saved as that of the current version. -/
def save (b : SnapshotBlock) : SnapshotBlock := { b with saved := b.content :: b.saved }

/-- The content saved at `version` is reinstated. -/
def restore (version : Nat) (b : SnapshotBlock) : SnapshotBlock :=
  match b.saved.drop (b.saved.length - 1 - version) with
  | [] => b
  | content :: saved => { b with content, saved }

instance : HeapBlock SnapshotBlock :=
  ⟨size, heapLocation, accessType, read, write, addInt, wrToHeap⟩

/-- The reference block of a declared block. -/
def ofBlock (b : AccessBlock) : SnapshotBlock :=
  { heapLocation := b.heapLocation, size := b.size, accessType := b.accessType }

end SnapshotBlock

/-- The same chunk with every block replaced. -/
def ChunkInfo.mapBlocks {B B' : Type} (f : B → B') (c : ChunkInfo B) : ChunkInfo B' :=
  { accessTable := ⟨c.accessTable.keys, c.accessTable.values.map f, by simp [c.accessTable.size_eq]⟩
    ptr := c.ptr
    resizing := c.resizing
    sizeBound := c.sizeBound
    size := f c.size
    initialSize := c.initialSize }

/-- The same map with every block replaced. -/
def AppMap.mapBlocks {B B' : Type} (f : B → B') (m : AppMap B) : AppMap B' :=
  ⟨m.keys, m.values.map fun chunkMap => ⟨chunkMap.keys, chunkMap.values.map (ChunkInfo.mapBlocks f),
    by simp [chunkMap.size_eq]⟩, by simp [m.size_eq]⟩

namespace RestrictedModifier

/-- One operation of the reference: a save takes a snapshot of every block, a restore
reinstates it; everything else is as in the source. -/
def execReference (heap : Heap) (m : RestrictedModifier SnapshotBlock) (op : Op) :
    Except Exn Value × RestrictedModifier SnapshotBlock :=
  match op with
  | .saveVersion =>
    if m.currentVersion =
      maxVersion then (.error (.asceeError "version limit reached" .limit_exceeded), m)
    else (.ok (.number m.currentVersion), { m with
      currentVersion := m.currentVersion + 1
      appsAccessMaps := m.appsAccessMaps.mapBlocks SnapshotBlock.save })
  | .restoreVersion version =>
    if version < m.currentVersion then (.ok .unit, { m with
      currentVersion := version
      appsAccessMaps := m.appsAccessMaps.mapBlocks (SnapshotBlock.restore version) })
    else (.error (.assertion "version < currentVersion && version >= 0"), m)
  | op => m.exec heap op

def runReference (heap : Heap) (m : RestrictedModifier SnapshotBlock) :
    List Op → List (Except Exn Value) × RestrictedModifier SnapshotBlock
  | [] => ([], m)
  | op :: ops =>
    let (r, m) := m.execReference heap op
    let (rs, m) := m.runReference heap ops
    (r :: rs, m)

/-- The reference of a modifier that was just built. -/
def reference (m : RestrictedModifier AccessBlock) : RestrictedModifier SnapshotBlock :=
  { currentVersion := m.currentVersion
    currentChunk := m.currentChunk
    chunks := m.chunks
    appsAccessMaps := m.appsAccessMaps.mapBlocks SnapshotBlock.ofBlock }

end RestrictedModifier

/-! ## Blocks -/

/-- At version `v` the block shows the content of the reference, and at every earlier
version the content the reference saved then. -/
structure Agrees (v : Nat) (b : AccessBlock) (r : SnapshotBlock) : Prop where
  heapLocation : b.heapLocation = r.heapLocation
  size : b.size = r.size
  accessType : b.accessType = r.accessType
  current : view v b.versionList = r.content
  saved_length : r.saved.length = v
  saved : ∀ i c, r.saved[i]? = some c → view (v - 1 - i) b.versionList = c

namespace Agrees
variable {v : Nat} {b b' : AccessBlock} {r : SnapshotBlock}

/-- A change of the block at the current version only. -/
theorem change (h : Agrees v b r) (hb : AccessBlock.SameBlock b b') {content : Option (List Byte)}
    (hcur : view v b'.versionList = content)
    (hold : ∀ w, w < v → view w b'.versionList = view w b.versionList) :
    Agrees v b' { r with content } := by
  refine ⟨hb.heapLocation.trans h.heapLocation, hb.size.trans h.size,
    hb.accessType.trans h.accessType, hcur,
    h.saved_length, fun i c hi => ?_⟩
  have hlt : i < v := h.saved_length ▸ (List.getElem?_eq_some_iff.mp hi).1
  rw [hold _ (by omega)]
  exact h.saved i c hi

theorem syncTo (h : Agrees v b r) : Agrees v (b.syncTo v) r := by
  have hcur : view v (b.syncTo v).versionList = r.content := (view_sync le_rfl _).trans h.current
  have hsame : AccessBlock.SameBlock b (b.syncTo v) := ⟨rfl, rfl, rfl⟩
  exact h.change hsame hcur fun w hw => view_sync hw.le _

theorem put (h : Agrees v b r) (hb : AccessBlock.SameBlock b b') {a : List Byte}
    (hl : b'.versionList = put v a (sync v b.versionList)) :
    Agrees v b' { r with content := some a } := by
  refine h.change hb ?_ fun w hw => ?_
  · rw [hl, view_put_self]
  · rw [hl, view_put_of_lt hw, view_sync hw.le]

theorem read (h : Agrees v b r) (base : List Byte) (index n : Nat) :
    (b.read base v index n).1 = (r.read base v index n).1 ∧
    Agrees v (b.read base v index n).2 (r.read base v index n).2 := by
  unfold AccessBlock.read SnapshotBlock.read
  rw [h.size, h.accessType]
  split
  · exact ⟨rfl, h⟩
  split
  · exact ⟨rfl, h⟩
  · refine ⟨?_, h.syncTo⟩
    simp only [AccessBlock.latest_syncTo, h.current]

theorem write (h : Agrees v b r) {base : List Byte} (hbase : base.length = b.size) (index : Nat)
    (value : List Byte) :
    (b.write base v index value).1 = (r.write base v index value).1 ∧
      Agrees v (b.write base v index value).2 (r.write base v index value).2 := by
  unfold SnapshotBlock.write
  rw [← h.size, ← h.accessType]
  split
  · rename_i hout
    rw [AccessBlock.write_out hout]
    exact ⟨rfl, h⟩
  rename_i hin
  have hin := Nat.le_of_not_lt hin
  split
  · rename_i hd
    rw [AccessBlock.write_denied hin hd]
    exact ⟨rfl, h⟩
  rename_i hd
  have hd : b.accessType.denies .write = false := by simpa using hd
  split
  · rename_i hv
    obtain rfl : v = 0 := by omega
    rw [AccessBlock.write_zero hin hd]
    exact ⟨rfl, h.syncTo⟩
  · have hv : 1 ≤ v := by omega
    obtain ⟨b', he, hsame, hl⟩ := AccessBlock.write_ok hbase hv hin hd
    rw [he]
    refine ⟨rfl, ?_⟩
    rw [h.current] at hl
    have hput := h.put hsame hl
    rw [← h.size, ← h.accessType] at hput
    exact hput

theorem addInt (h : Agrees v b r) (n value : Nat) :
    (b.addInt v n value).1 = (r.addInt v n value).1 ∧
    Agrees v (b.addInt v n value).2 (r.addInt v n value).2 := by
  unfold SnapshotBlock.addInt
  rw [← h.size, ← h.accessType]
  split
  · rename_i hn
    rw [AccessBlock.addInt_size hn]
    exact ⟨rfl, h⟩
  rename_i hn
  have hn : n = b.size := not_not.mp hn
  split
  · rename_i hd
    rw [AccessBlock.addInt_denied hn hd]
    exact ⟨rfl, h⟩
  rename_i hd
  have hd : b.accessType.denies .int_add = false := by simpa using hd
  split
  · rename_i hv
    obtain rfl : v = 0 := by omega
    rw [AccessBlock.addInt_zero hn hd]
    exact ⟨rfl, h.syncTo⟩
  · have hv : 1 ≤ v := by omega
    obtain ⟨b', he, hsame, hl⟩ := AccessBlock.addInt_ok hv hn hd
    rw [he]
    refine ⟨rfl, ?_⟩
    rw [h.current] at hl
    have hput := h.put hsame hl
    rw [← h.size, ← h.accessType] at hput
    exact hput

theorem wrToHeap (h : Agrees v b r) (chunk : Chunk) (maxWriteSize : Nat) :
    b.wrToHeap chunk v maxWriteSize = r.wrToHeap chunk v maxWriteSize := by
  have htop : top (b.syncTo v).versionList = r.content := h.current
  unfold AccessBlock.wrToHeap SnapshotBlock.wrToHeap
  rewrite [htop, h.size, h.accessType, h.heapLocation]
  cases r.content <;> rfl

/-- The next version starts with the content of this one, unless an entry has its number. -/
theorem save (h : Agrees v b r) (hfresh : ∀ e ∈ b.versionList, e.number ≠ v + 1) :
    Agrees (v + 1) b r.save := by
  refine ⟨h.heapLocation, h.size, h.accessType, ?_,
    by simp [SnapshotBlock.save, h.saved_length], ?_⟩
  · rw [view_succ hfresh, h.current]
    rfl
  · intro i c hi
    cases i with
    | zero =>
      obtain rfl : r.content = c := by simpa [SnapshotBlock.save] using hi
      exact h.current
    | succ i =>
      have := h.saved i c (by simpa [SnapshotBlock.save] using hi)
      rwa [show v + 1 - 1 - (i + 1) = v - 1 - i by omega]

/-- Lowering the version shows what was saved at it. -/
theorem restore (h : Agrees v b r) {w : Nat} (hw : w < v) : Agrees w b (r.restore w) := by
  have hlen := h.saved_length
  have hlt : v - 1 - w < r.saved.length := by omega
  have hd : r.saved.drop (r.saved.length - 1 - w) = r.saved[v - 1 - w] ::
      r.saved.drop (v - 1 - w + 1) := by
    rw [hlen, List.drop_eq_getElem_cons hlt]
  unfold SnapshotBlock.restore
  rw [hd]
  refine ⟨h.heapLocation, h.size, h.accessType, ?_, ?_, ?_⟩
  · have := h.saved (v - 1 - w) _ (List.getElem?_eq_getElem hlt)
    rwa [show v - 1 - (v - 1 - w) = w by omega] at this
  · simp only [List.length_drop]
    omega
  · intro i c hi
    have := h.saved (v - 1 - w + 1 + i) c (by simpa using hi)
    rwa [show v - 1 - (v - 1 - w + 1 + i) = w - 1 - i by omega] at this

end Agrees

/-! ## Chunks -/

/-- Chunks whose blocks agree one by one. -/
structure ChunkAgrees (v : Nat) (c : ChunkInfo AccessBlock)
    (r : ChunkInfo SnapshotBlock) : Prop where
  keys : c.accessTable.keys = r.accessTable.keys
  blocks : List.Forall₂ (Agrees v) c.accessTable.values r.accessTable.values
  ptr : c.ptr = r.ptr
  resizing : c.resizing = r.resizing
  sizeBound : c.sizeBound = r.sizeBound
  initialSize : c.initialSize = r.initialSize
  size : Agrees v c.size r.size
  size_width : c.size.size = 4

namespace ChunkAgrees
variable {v : Nat} {c : ChunkInfo AccessBlock} {r : ChunkInfo SnapshotBlock}

theorem getAccessBlock (h : ChunkAgrees v c r) (offset : Nat) :
    (∃ e, c.getAccessBlock offset = .error e ∧ r.getAccessBlock offset = .error e) ∨
      ∃ k b b', c.getAccessBlock offset = .ok (k, b) ∧ r.getAccessBlock offset = .ok (k, b') ∧
        Agrees v b b' := by
  unfold ChunkInfo.getAccessBlock
  rw [h.keys]
  split
  · rename_i k _
    rcases forall₂_getElem? h.blocks k with ⟨h1, h2⟩ | ⟨b, b', h1, h2, hb⟩
    · exact .inl ⟨.undefined, by simp [vecGet, h1, Except.map], by simp [vecGet, h2, Except.map]⟩
    · exact .inr ⟨k, b, b', by simp [vecGet, h1, Except.map], by simp [vecGet, h2, Except.map], hb⟩
  · exact .inl ⟨_, rfl, rfl⟩
  · exact .inl ⟨_, rfl, rfl⟩

/-- An operation on the block at an offset. -/
theorem onBlock {α : Type} (h : ChunkAgrees v c r) (chunk : Chunk) (offset : Nat)
    {f : AccessBlock → List Byte → Except Exn α × AccessBlock}
    {g : SnapshotBlock → List Byte → Except Exn α × SnapshotBlock}
    (hfg : ∀ b b' base, Agrees v b b' → base.length = b.size →
      (f b base).1 = (g b' base).1 ∧ Agrees v (f b base).2 (g b' base).2) :
    (c.onBlock chunk offset f).1 = (r.onBlock chunk offset g).1 ∧
      ChunkAgrees v (c.onBlock chunk offset f).2 (r.onBlock chunk offset g).2 := by
  unfold ChunkInfo.onBlock
  rcases h.getAccessBlock offset with ⟨e, h1, h2⟩ | ⟨k, b, b', h1, h2, hb⟩
  · rw [h1, h2]
    exact ⟨rfl, h⟩
  · have hloc : HeapBlock.heapLocation b' = HeapBlock.heapLocation b := hb.heapLocation.symm
    have hsize : HeapBlock.size b' = HeapBlock.size b := hb.size.symm
    simp only [h1, h2, hloc, hsize]
    obtain ⟨hr, hag⟩ :=
      hfg b b' (readAt chunk.content (HeapBlock.heapLocation b) (HeapBlock.size b)) hb
      (readAt_length _ _ _)
    exact ⟨hr, h.keys, forall₂_set h.blocks k hag, h.ptr, h.resizing, h.sizeBound, h.initialSize,
      h.size, h.size_width⟩

theorem sizeBlock (h : ChunkAgrees v c r) (chunk : Chunk) : ChunkAgrees v (c.sizeBlock chunk)
    (r.sizeBlock chunk) :=
  ⟨h.keys, h.blocks, h.ptr, h.resizing, h.sizeBound,
    by simp only [ChunkInfo.sizeBlock, h.initialSize], h.size, h.size_width⟩

theorem sizeBase (h : ChunkAgrees v c r) : c.sizeBase = r.sizeBase := by
  simp only [ChunkInfo.sizeBase, h.initialSize]

/-- A block keeps its size through an operation that keeps agreeing with the reference. -/
theorem withSize (h : ChunkAgrees v c r) {b : AccessBlock} {b' : SnapshotBlock} (hb : Agrees v b b')
    (hs : b'.size = r.size.size) : ChunkAgrees v { c with size := b } { r with size := b' } :=
  ⟨h.keys, h.blocks, h.ptr, h.resizing, h.sizeBound, h.initialSize, hb,
    by rw [hb.size, hs, ← h.size.size]; exact h.size_width⟩

theorem readSize (h : ChunkAgrees v c r) (chunk : Chunk) :
    (c.readSize chunk v).1 = (r.readSize chunk v).1 ∧
    ChunkAgrees v (c.readSize chunk v).2 (r.readSize chunk v).2 := by
  have hb := h.sizeBlock chunk
  obtain ⟨h1, h2⟩ := hb.size.read (c.sizeBlock chunk).sizeBase 0 4
  rw [hb.sizeBase] at h1 h2
  have hs : ((r.sizeBlock chunk).size.read (r.sizeBlock chunk).sizeBase v 0 4).2.size =
      (r.sizeBlock chunk).size.size := by
    unfold SnapshotBlock.read
    split
    · rfl
    split <;> rfl
  refine ⟨?_, ?_⟩
  · unfold ChunkInfo.readSize
    simp only [hb.sizeBase]
    exact congrArg (Except.map leNat) h1
  · unfold ChunkInfo.readSize
    simp only [hb.sizeBase]
    exact hb.withSize h2 hs

theorem writeSize (h : ChunkAgrees v c r) (chunk : Chunk) (newSize : Nat) :
    (c.writeSize chunk v newSize).1 = (r.writeSize chunk v newSize).1 ∧
      ChunkAgrees v (c.writeSize chunk v newSize).2 (r.writeSize chunk v newSize).2 := by
  have hb := h.sizeBlock chunk
  have hbase : (c.sizeBlock chunk).sizeBase.length = (c.sizeBlock chunk).size.size := by
    rw [hb.size_width]
    exact leBytes_length _ _
  obtain ⟨h1, h2⟩ := hb.size.write hbase 0 (leBytes 4 newSize)
  rw [hb.sizeBase] at h1 h2
  have hs : ((r.sizeBlock chunk).size.write (r.sizeBlock chunk).sizeBase v 0
      (leBytes 4 newSize)).2.size =
        (r.sizeBlock chunk).size.size := by
    unfold SnapshotBlock.write
    split
    · rfl
    split
    · rfl
    split <;> rfl
  refine ⟨?_, ?_⟩
  · unfold ChunkInfo.writeSize
    simp only [hb.sizeBase]
    exact h1
  · unfold ChunkInfo.writeSize
    simp only [hb.sizeBase]
    exact hb.withSize h2 hs

theorem isValid (h : ChunkAgrees v c r) (chunk : Chunk) (offset size : Nat) :
    (c.isValid chunk v offset size).1 = (r.isValid chunk v offset size).1 ∧
      ChunkAgrees v (c.isValid chunk v offset size).2 (r.isValid chunk v offset size).2 := by
  unfold ChunkInfo.isValid
  rcases h.getAccessBlock offset with ⟨e, h1, h2⟩ | ⟨k, b, b', h1, h2, hb⟩
  · rw [h1, h2]
    exact ⟨rfl, h⟩
  · have hdef : ChunkInfo.defined b size = ChunkInfo.defined b' size := by
      have hsize : HeapBlock.size b = HeapBlock.size b' := hb.size
      have htype : HeapBlock.accessType b = HeapBlock.accessType b' := hb.accessType
      rw [ChunkInfo.defined, ChunkInfo.defined, hsize, htype]
    obtain ⟨h3, h4⟩ := h.readSize chunk
    simp only [h1, h2, hdef]
    split
    · exact ⟨by rw [h3], h4⟩
    · exact ⟨rfl, h⟩

theorem updateChunkSize (h : ChunkAgrees v c r) (chunk : Chunk) (newSize : Nat) :
    (c.updateChunkSize chunk v newSize).1 = (r.updateChunkSize chunk v newSize).1 ∧
      ChunkAgrees v (c.updateChunkSize chunk v newSize).2
        (r.updateChunkSize chunk v newSize).2 := by
  unfold ChunkInfo.updateChunkSize
  obtain ⟨h1, h2⟩ := h.readSize chunk
  generalize c.readSize chunk v = x at h1 h2
  generalize r.readSize chunk v = y at h1 h2
  obtain ⟨x, c⟩ := x
  obtain ⟨y, r⟩ := y
  obtain rfl : x = y := h1
  have h2 : ChunkAgrees v c r := h2
  have hw := h2.writeSize chunk newSize
  cases x with
  | error e => exact ⟨rfl, h2⟩
  | ok oldSize =>
    simp only
    rw [h2.resizing, h2.sizeBound]
    by_cases heq : newSize = oldSize
    · rw [if_pos heq, if_pos heq]
      exact ⟨rfl, h2⟩
    rw [if_neg heq, if_neg heq]
    cases r.resizing with
    | expandable =>
      simp only
      split
      · exact ⟨rfl, h2⟩
      · exact hw
    | shrinkable =>
      simp only
      split
      · exact ⟨rfl, h2⟩
      · exact hw
    | read_only => exact ⟨rfl, h2⟩
    | non_accessible => exact ⟨rfl, h2⟩

/-- Every operation on the chunk. -/
theorem exec (h : ChunkAgrees v c r) (chunk : Chunk) (op : ChunkOp) :
    (c.exec chunk v op).1 = (r.exec chunk v op).1 ∧
    ChunkAgrees v (c.exec chunk v op).2 (r.exec chunk v op).2 := by
  cases op with
  | load offset index n =>
    obtain ⟨h1, h2⟩ := h.onBlock chunk offset fun b b' base hb _ => hb.read base index n
    exact ⟨congrArg (Except.map _) h1, h2⟩
  | store offset index value =>
    obtain ⟨h1, h2⟩ := h.onBlock chunk offset fun b b' base hb hbase => hb.write hbase index value
    exact ⟨congrArg (Except.map _) h1, h2⟩
  | addInt offset n value =>
    obtain ⟨h1, h2⟩ := h.onBlock chunk offset fun b b' base hb _ => hb.addInt n value
    exact ⟨congrArg (Except.map _) h1, h2⟩
  | isValid offset size =>
    obtain ⟨h1, h2⟩ := h.isValid chunk offset size
    exact ⟨congrArg (Except.map _) h1, h2⟩
  | getChunkSize =>
    simp only [ChunkInfo.exec, ChunkInfo.getChunkSize, h.resizing]
    split
    · exact ⟨rfl, h⟩
    · obtain ⟨h1, h2⟩ := h.readSize chunk
      exact ⟨congrArg (Except.map _) h1, h2⟩
  | updateChunkSize newSize =>
    obtain ⟨h1, h2⟩ := h.updateChunkSize chunk newSize
    exact ⟨congrArg (Except.map _) h1, h2⟩

theorem writeBlocks {chunkSize : Nat} {keys : List Nat} {l₁ : List AccessBlock}
    {l₂ : List SnapshotBlock}
    (h : List.Forall₂ (Agrees v) l₁ l₂) (chunk : Chunk) :
    ChunkInfo.writeBlocks v chunkSize (keys.zip l₁) chunk =
      ChunkInfo.writeBlocks v chunkSize (keys.zip l₂) chunk := by
  induction h generalizing keys chunk with
  | nil =>
    rw [List.zip_nil_right, List.zip_nil_right]
    rfl
  | @cons b b' l₁ l₂ hb _ ih =>
    cases keys with
    | nil => rfl
    | cons offset keys =>
      have hw : HeapBlock.wrToHeap b chunk v (chunkSize - offset) =
          HeapBlock.wrToHeap b' chunk v (chunkSize - offset) :=
        hb.wrToHeap chunk _
      simp only [List.zip_cons_cons, ChunkInfo.writeBlocks, hw]
      split
      · rfl
      · cases HeapBlock.wrToHeap b' chunk v (chunkSize - offset) with
        | error e => rfl
        | ok chunk => exact ih chunk

theorem writeToHeap (h : ChunkAgrees v c r) (chunk : Chunk) :
    c.writeToHeap v chunk = r.writeToHeap v chunk := by
  unfold ChunkInfo.writeToHeap ChunkInfo.resizeTo OrderedStaticMap.entries
  rw [(h.readSize chunk).1, h.resizing, h.keys]
  simp only [writeBlocks h.blocks]

end ChunkAgrees

/-! ## Maps -/

theorem forall₂_map_right {α β γ : Type} {R : α → β → Prop} {S : α → γ → Prop} {g : β → γ}
    {l₁ : List α} {l₂ : List β}
    (h : List.Forall₂ R l₁ l₂) (hg : ∀ a ∈ l₁, ∀ b, R a b → S a (g b)) :
    List.Forall₂ S l₁ (l₂.map g) := by
  induction h with
  | nil => exact .nil
  | cons hab _ ih =>
    exact .cons (hg _ List.mem_cons_self _ hab) (ih fun a ha => hg a (List.mem_cons_of_mem _ ha))

theorem forall₂_map_self {α β : Type} {R : α → β → Prop} {g : α → β} {l : List α}
    (h : ∀ a ∈ l, R a (g a)) :
    List.Forall₂ R l (l.map g) := by
  induction l with
  | nil => exact .nil
  | cons a l ih =>
    exact .cons (h a List.mem_cons_self) (ih fun b hb => h b (List.mem_cons_of_mem _ hb))

theorem mem_chunkInfos {B : Type} {m : AppMap B} {c : ChunkInfo B} :
    c ∈ m.chunkInfos ↔ ∃ chunkMap ∈ m.values, c ∈ chunkMap.values := List.mem_flatMap

/-- Replacing every block of the reference. -/
theorem lift_mapBlocks {v w : Nat} {m₁ : AppMap AccessBlock} {m₂ : AppMap SnapshotBlock}
    {f : SnapshotBlock → SnapshotBlock} (h : AppMap.Lift (ChunkAgrees v) m₁ m₂)
    (hf : ∀ c ∈ m₁.chunkInfos, ∀ b, b ∈ c.accessTable.values ∨ b = c.size → ∀ r, Agrees v b r →
      Agrees w b (f r)) :
    AppMap.Lift (ChunkAgrees w) m₁ (m₂.mapBlocks f) := by
  refine ⟨h.1, forall₂_map_right h.2 fun a ha b hab =>
    ⟨hab.1, forall₂_map_right hab.2 fun c hc r hcr => ?_⟩⟩
  have hmem : c ∈ m₁.chunkInfos := mem_chunkInfos.mpr ⟨a, ha, hc⟩
  exact ⟨hcr.keys, forall₂_map_right hcr.blocks fun b hb r hbr =>
    hf c hmem b (.inl hb) r hbr, hcr.ptr,
    hcr.resizing, hcr.sizeBound, hcr.initialSize, hf c hmem c.size (.inr rfl) _ hcr.size,
      hcr.size_width⟩

namespace RestrictedModifier

/-- As the constructor leaves it: version 0, no block has a version, and the size
blocks are 4 bytes wide. -/
structure Fresh (m : RestrictedModifier AccessBlock) : Prop where
  version : m.currentVersion = 0
  blocks : ∀ c ∈ m.appsAccessMaps.chunkInfos, ∀ b, b ∈ c.accessTable.values ∨ b = c.size →
    b.versionList = []
  size_width : ∀ c ∈ m.appsAccessMaps.chunkInfos, c.size.size = 4

/-- No block holds an entry with the number that the next save starts. -/
def NoStaleVersion (m : RestrictedModifier AccessBlock) : Prop :=
  ∀ c ∈ m.appsAccessMaps.chunkInfos, ∀ b, b ∈ c.accessTable.values ∨ b = c.size →
    ∀ e ∈ b.versionList, e.number ≠ m.currentVersion + 1

/-- Every save of the run starts a number that no block holds. -/
def SavesFresh (heap : Heap) : RestrictedModifier AccessBlock → List Op → Prop
  | _, [] => True
  | m, op :: ops => (op = .saveVersion → NoStaleVersion m) ∧ SavesFresh heap (m.exec heap op).2 ops

instance (m : RestrictedModifier AccessBlock) : Decidable (NoStaleVersion m) :=
  decidable_of_iff (∀ c ∈ m.appsAccessMaps.chunkInfos, ∀ b ∈ c.size :: c.accessTable.values,
    ∀ e ∈ b.versionList, e.number ≠ m.currentVersion + 1) (by simp [NoStaleVersion, or_comm])

instance decidableSavesFresh (heap : Heap) :
    ∀ (m : RestrictedModifier AccessBlock) (ops : List Op), Decidable (SavesFresh heap m ops)
  | _, [] => .isTrue trivial
  | m, op :: ops =>
    have := decidableSavesFresh heap (m.exec heap op).2 ops
    inferInstanceAs (Decidable ((op = .saveVersion → NoStaleVersion m) ∧
      SavesFresh heap (m.exec heap op).2 ops))

theorem Fresh.reference {m : RestrictedModifier AccessBlock} (h : Fresh m) :
    Related (ChunkAgrees m.currentVersion) m m.reference := by
  have hblock : ∀ b : AccessBlock, b.versionList = [] →
      Agrees m.currentVersion b (SnapshotBlock.ofBlock b) := by
    intro b hb
    refine ⟨rfl, rfl, rfl, ?_, ?_, fun i c hi => ?_⟩
    · rw [hb]
      rfl
    · rw [h.version]
      rfl
    · simp [SnapshotBlock.ofBlock] at hi
  refine ⟨rfl, rfl, rfl, rfl, forall₂_map_self fun a ha => ⟨rfl, forall₂_map_self fun c hc => ?_⟩⟩
  have hmem : c ∈ m.appsAccessMaps.chunkInfos := mem_chunkInfos.mpr ⟨a, ha, hc⟩
  exact ⟨rfl, forall₂_map_self fun b hb => hblock b (h.blocks c hmem b (.inl hb)), rfl,
    rfl, rfl, rfl,
    hblock _ (h.blocks c hmem _ (.inr rfl)), h.size_width c hmem⟩

/-- One operation. -/
theorem exec_reference {heap : Heap} {m : RestrictedModifier AccessBlock}
    {r : RestrictedModifier SnapshotBlock}
    (h : Related (ChunkAgrees m.currentVersion) m r) (op : Op)
    (hsave : op = .saveVersion → NoStaleVersion m) :
    (m.exec heap op).1 = (r.execReference heap op).1 ∧
      Related (ChunkAgrees (m.exec heap op).2.currentVersion)
        (m.exec heap op).2 (r.execReference heap op).2 := by
  cases op with
  | loadContext appID => exact ⟨rfl, h.loadContext appID⟩
  | loadChunk accountID localID =>
    obtain ⟨h1, h2⟩ := h.loadChunk accountID localID
    have hv : (m.loadChunk accountID localID).2.currentVersion = m.currentVersion := by
      unfold RestrictedModifier.loadChunk
      split
      · rfl
      split <;> rfl
    refine ⟨congrArg (Except.map _) h1, ?_⟩
    simp only [exec, execReference, hv]
    exact h2
  | access op =>
    have hstep : ∀ c₁ c₂, ChunkAgrees m.currentVersion c₁ c₂ →
        (c₁.exec (heap c₁.ptr) m.currentVersion op).1 =
          (c₂.exec (heap c₂.ptr) r.currentVersion op).1 ∧
          ChunkAgrees m.currentVersion (c₁.exec (heap c₁.ptr) m.currentVersion op).2
            (c₂.exec (heap c₂.ptr) r.currentVersion op).2 := by
      intro c₁ c₂ hc
      rw [hc.ptr, ← h.currentVersion]
      exact hc.exec _ op
    obtain ⟨h1, h2⟩ := h.access op hstep
    have hv : (m.access heap op).2.currentVersion = m.currentVersion := by
      unfold RestrictedModifier.access
      split
      · rfl
      split <;> rfl
    refine ⟨h1, ?_⟩
    simp only [exec, execReference, hv]
    exact h2
  | saveVersion =>
    simp only [exec, execReference, saveVersion, ← h.currentVersion]
    -- at the version limit nothing is saved
    split
    · exact ⟨rfl, h⟩
    · refine ⟨rfl, ?_, h.currentChunk, h.chunks, ?_⟩
      · simp only [h.currentVersion]
      · exact lift_mapBlocks h.maps fun c hc b hb r hbr => hbr.save (hsave rfl c hc b hb)
  | restoreVersion version =>
    simp only [exec, execReference, restoreVersion, ← h.currentVersion]
    split
    · rename_i hlt
      exact ⟨rfl, rfl, h.currentChunk, h.chunks, lift_mapBlocks h.maps fun c hc b hb r hbr =>
        hbr.restore hlt⟩
    · exact ⟨rfl, h⟩

/-- A run whose saves are fresh, by induction on the operations. -/
theorem run_related {heap : Heap} : ∀ {ops : List Op} {m : RestrictedModifier AccessBlock}
    {r : RestrictedModifier SnapshotBlock}, Related (ChunkAgrees m.currentVersion) m r →
    SavesFresh heap m ops →
    (m.run heap ops).1 = (r.runReference heap ops).1 ∧
      Related (ChunkAgrees (m.run heap ops).2.currentVersion)
        (m.run heap ops).2 (r.runReference heap ops).2
  | [], _, _, h, _ => ⟨rfl, h⟩
  | op :: ops, m, r, h, hs => by
    obtain ⟨h1, h2⟩ := @exec_reference heap _ _ h op hs.1
    obtain ⟨h3, h4⟩ := run_related h2 hs.2
    refine ⟨?_, h4⟩
    simp only [run, runReference, h1, h3]

/-- **Rollback.** In every run from a new modifier in which each save starts a version
number that no block still holds, every result and the heap written at the end are
those of the reference that takes complete snapshots. -/
theorem run_eq_reference (heap : Heap) (m : RestrictedModifier AccessBlock) (hm : Fresh m)
    (ops : List Op)
    (hs : SavesFresh heap m ops) :
    (m.run heap ops).1 = (m.reference.runReference heap ops).1 ∧
      (m.run heap ops).2.writeToHeap heap =
      (m.reference.runReference heap ops).2.writeToHeap heap := by
  obtain ⟨h1, h2⟩ := run_related hm.reference hs
  refine ⟨h1, ?_⟩
  unfold writeToHeap
  rw [← h2.currentVersion]
  split
  · rfl
  · exact writeChunks_related (h2.maps.chunkInfos.imp fun c r hc => ⟨hc.ptr, hc.writeToHeap⟩)

/-- One chunk that may grow to 2 bytes, with a writable block at its first byte. -/
def oneByte : RestrictedModifier AccessBlock :=
  { appsAccessMaps := .single 0 (.single (toLex (0, 0))
      { accessTable := .single 0 (.unwritten 0 1 .writable)
        ptr := toLex (0, toLex (0, 0))
        resizing := .expandable
        sizeBound := 2
        size := .unwritten 0 4 .writable }) }

theorem oneByte_fresh : Fresh oneByte := by
  refine ⟨rfl, fun c hc b hb => ?_, fun c hc => ?_⟩
  · obtain rfl := List.mem_singleton.mp hc
    rcases hb with hb | rfl
    · obtain rfl := List.mem_singleton.mp hb
      rfl
    · rfl
  · obtain rfl := List.mem_singleton.mp hc
    rfl

/-- A store that is rolled back, and a store after it at the same version number. -/
theorem run_eq_reference_oneByte :
    let heap : Heap := fun _ => { content := [3, 0], chunkSize := 1 }
    let ops : List Op := [.loadContext 0, .loadChunk 0 0, .saveVersion, .saveVersion,
      .access (.store 0 0 [7]),
      .restoreVersion 1, .access (.load 0 0 1), .saveVersion, .access (.store 0 0 [5])]
    (oneByte.run heap ops).1 = (oneByte.reference.runReference heap ops).1 ∧
      (oneByte.run heap ops).2.writeToHeap heap =
        (oneByte.reference.runReference heap ops).2.writeToHeap heap := by
  intro heap ops
  exact run_eq_reference heap oneByte oneByte_fresh ops (by decide)

/-- The block is not used between the restore and the save that uses the number again: the
store that was rolled back is read, and written to the heap. -/
theorem run_shows_rolled_back_store :
    let heap : Heap := fun _ => { content := [3, 0], chunkSize := 1 }
    let ops : List Op := [.loadContext 0, .loadChunk 0 0, .saveVersion, .saveVersion,
      .access (.store 0 0 [7]),
      .restoreVersion 1, .saveVersion, .access (.load 0 0 1)]
    (oneByte.run heap ops).1.getLast? = some (.ok (.bytes [7])) ∧
      (oneByte.reference.runReference heap ops).1.getLast? = some (.ok (.bytes [3])) ∧
      ((oneByte.run heap ops).2.writeToHeap heap).map (fun h =>
        (h (toLex (0, toLex (0, 0)))).content) = .ok [7, 0] ∧
      ((oneByte.reference.runReference heap ops).2.writeToHeap heap).map
        (fun h => (h (toLex (0, toLex (0, 0)))).content) = .ok [3, 0] := by
  intro heap ops
  exact ⟨by decide, by decide, by decide, by decide⟩

end RestrictedModifier
end Argennon
