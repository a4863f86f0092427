import Argennon.Storage.WriteConfinement

/- Read confinement of a request: two runs of one modifier over heaps that agree on
   what the access map declares.

   The two runs keep the same blocks and may differ in the recorded initial size of a
   chunk whose size is not accessible (`Twin`). Every operation returns the same on
   both, but for `updateChunkSize` on such a chunk: it returns without an exception
   when the given size is the size of the chunk, before it looks at the resizing type. -/
namespace Argennon

open VersionStack

/-! ## Agreement -/

/-- Two sizes of a chunk that its declared blocks do not tell apart: the size itself
when the size block may be read, and every question of validity about a declared
block for a size that is asked. -/
structure SizesAgree (asks : Nat → Prop) (blocks : List (Int × AccessBlockInfo))
    (s₁ s₂ : Nat) : Prop where
  readable : ∀ offset info, blocks.head? = some (offset, info) → offset = -1 ∨ offset = -2 → s₁ = s₂
  valid : ∀ b ∈ blocks, 0 ≤ b.1 → ∀ n, asks n → n ≤ toUInt32 b.2.size →
    (b.1.toNat + n ≤ s₁ ↔ b.1.toNat + n ≤ s₂)

/-- Two chunks that the declared blocks do not tell apart. -/
structure ChunksAgree (asks : Nat → Prop) (blocks : List (Int × AccessBlockInfo))
    (chunk₁ chunk₂ : Chunk) : Prop where
  bytes : ∀ b ∈ blocks, b.2.accessType = .read_only ∨ b.2.accessType = .writable → 0 ≤ b.1 →
    ∀ i, b.1 ≤ i → i < b.1 + toUInt32 b.2.size → chunk₁.content[i.toNat]? = chunk₂.content[i.toNat]?
  sizes : SizesAgree asks blocks chunk₁.getsize chunk₂.getsize

/-- The information of a chunk in two runs. -/
structure Twin (asks : Nat → Prop) (blocks : List (Int × AccessBlockInfo))
    (c₁ c₂ : ChunkInfo AccessBlock) : Prop where
  accessTable : c₁.accessTable = c₂.accessTable
  ptr : c₁.ptr = c₂.ptr
  resizing : c₁.resizing = c₂.resizing
  sizeBound : c₁.sizeBound = c₂.sizeBound
  size : c₁.size = c₂.size
  initialSize : c₁.initialSize = none ∧ c₂.initialSize = none ∨
    ∃ s₁ s₂, c₁.initialSize = some s₁ ∧ c₂.initialSize = some s₂ ∧ s₁ < 2 ^ 32 ∧
      SizesAgree asks blocks s₁ s₂

/-! ## One block -/

theorem readable_of {a : Access} (h : a.denies .read = false) : a = .read_only ∨ a = .writable := by
  cases a <;> simp_all [Access.denies]

theorem writable_of {a : Access} (h : a.denies .write = false) : a = .writable := by
  cases a <;> simp_all [Access.denies]

/-- Only a block that may be read or written depends on the bytes of the heap. -/
theorem read_congr {b : AccessBlock} {base base' : List Byte}
    (h : b.accessType = .read_only ∨ b.accessType = .writable → base = base')
    (version index n : Nat) :
    b.read base version index n = b.read base' version index n := by
  unfold AccessBlock.read
  cases hd : b.accessType.denies .read with
  | false => rw [h (readable_of hd)]
  | true => simp only [if_true]

theorem write_congr {b : AccessBlock} {base base' : List Byte}
    (h : b.accessType = .read_only ∨ b.accessType = .writable → base = base') (version index : Nat)
    (value : List Byte) : b.write base version index value = b.write base' version index value := by
  unfold AccessBlock.write
  cases hd : b.accessType.denies .write with
  | false => rw [h (.inr (writable_of hd))]
  | true => simp only [if_true]

/-! ## One chunk -/

namespace ChunkIndex
variable {index : ChunkIndex} {heap : Heap} {e : FullID × List (Int × AccessBlockInfo)}
  {asks : Nat → Prop}
  {c₀ c₁ c₂ : ChunkInfo AccessBlock} {chunk₁ chunk₂ : Chunk}

/-- A block of a chunk after some operations is one of the declared blocks. -/
theorem Built.declared (hb : Built index heap e c₀) (hk : Kept chunk₂ c₀ c₂) {offset : Nat}
    {b : AccessBlock}
    (h : (offset, b) ∈ c₂.accessTable.entries) : b.heapLocation = offset ∧ ∃ d ∈ e.2, 0 ≤ d.1 ∧
    d.1.toNat = offset ∧
      b.size = toUInt32 d.2.size ∧ b.accessType = d.2.accessType := by
  obtain ⟨⟨hloc, -⟩, kb₀, hkb₀, h1, h2, h3⟩ := hk.entries_kept hb.heapLocation _ h
  rw [hb.blocks] at hkb₀
  obtain ⟨d, hd, rfl⟩ := List.mem_map.mp hkb₀
  obtain ⟨hd, h0⟩ := List.mem_filter.mp hd
  exact ⟨hloc, d, hd, by simpa using h0, h1, h2, h3⟩

/-- A chunk whose size is accessible has its size block at -1 or -2. -/
theorem Built.accessible (hb : Built index heap e c₀) (h : c₀.resizing ≠ .non_accessible) :
    ∃ offset info, e.2.head? = some (offset, info) ∧ (offset = -1 ∨ offset = -2) := by
  obtain ⟨offset, info, n, hhead, hres, -⟩ := hb.resizing
  refine ⟨offset, info, hhead, ?_⟩
  unfold ChunkIndex.resizing at hres
  split at hres
  · exact .inr ‹_›
  split at hres
  · rename_i h1
    exact .inl h1.1
  split at hres
  · rename_i h1
    exact .inl h1.1
  · obtain ⟨rt, -⟩ := Prod.mk.inj (Except.ok.inj hres)
    exact absurd rt.symm h

end ChunkIndex

namespace Twin
open ChunkIndex
variable {index : ChunkIndex} {heap : Heap} {e : FullID × List (Int × AccessBlockInfo)}
  {asks : Nat → Prop}
  {c₀ c₁ c₂ : ChunkInfo AccessBlock} {chunk₁ chunk₂ : Chunk}

/-- The initial sizes the two runs go by agree. -/
theorem initial_agree (ht : Twin asks e.2 c₁ c₂) (ha : ChunksAgree asks e.2 chunk₁ chunk₂) :
    c₁.initialSize.getD chunk₁.getsize < 2 ^ 32 ∧
      SizesAgree asks e.2 (c₁.initialSize.getD chunk₁.getsize)
        (c₂.initialSize.getD chunk₂.getsize) := by
  rcases ht.initialSize with ⟨h1, h2⟩ | ⟨s₁, s₂, h1, h2, hlt, hs⟩
  · rw [h1, h2]
    exact ⟨Kept.getsize_lt chunk₁, ha.sizes⟩
  · rw [h1, h2]
    exact ⟨hlt, hs⟩

/-- Both runs read the size, and stay twins. -/
theorem readSize (hk : Kept chunk₂ c₀ c₂) (ht : Twin asks e.2 c₁ c₂)
    (ha : ChunksAgree asks e.2 chunk₁ chunk₂)
    (version : Nat) : ∃ c₁' c₂', c₁.readSize chunk₁ version =
    (.ok (c₁.shownSize chunk₁ version), c₁') ∧
      c₂.readSize chunk₂ version = (.ok (c₂.shownSize chunk₂ version), c₂') ∧
        Twin asks e.2 c₁' c₂' ∧
      Kept chunk₂ c₀ c₂' := by
  obtain ⟨hlt, hs⟩ := ht.initial_agree ha
  have hread : c₂.size.accessType.denies .read = false := by
    rw [hk.size_type]
    split <;> rfl
  have hlt₂ : c₂.initialSize.getD chunk₂.getsize < 2 ^ 32 := by
    rw [hk.initialSize_getD]
    exact Kept.getsize_lt chunk₂
  have h1 := ChunkInfo.readSize_eq (c := c₁) chunk₁ version (ht.size ▸ hk.size_width)
    (ht.size ▸ hread) hlt
  have h2 := ChunkInfo.readSize_eq (c := c₂) chunk₂ version hk.size_width hread hlt₂
  obtain ⟨n, c', hr, hkept, -⟩ := hk.readSize version
  refine ⟨_, _, h1, h2, ⟨ht.accessTable, ht.ptr, ht.resizing, ht.sizeBound, ?_,
    .inr ⟨_, _, rfl, rfl, hlt, hs⟩⟩, ?_⟩
  · simp only [ht.size]
  · rw [h2] at hr
    rw [(Prod.mk.inj hr).2]
    exact hkept

/-- The sizes that are shown are equal when the size is accessible; otherwise they are
the initial sizes. -/
theorem shownSize (hb : Built index heap e c₀) (ht : Twin asks e.2 c₁ c₂)
    (ha : ChunksAgree asks e.2 chunk₁ chunk₂) (version : Nat) :
    (c₀.resizing ≠ .non_accessible → c₁.shownSize chunk₁ version = c₂.shownSize chunk₂ version) ∧
      SizesAgree asks e.2 (c₁.shownSize chunk₁ version) (c₂.shownSize chunk₂ version) := by
  obtain ⟨-, hs⟩ := ht.initial_agree ha
  unfold ChunkInfo.shownSize
  rw [ht.size]
  cases view version c₂.size.versionList with
  | some content => exact ⟨fun _ => rfl, ⟨fun _ _ _ _ => rfl, fun _ _ _ _ _ _ => Iff.rfl⟩⟩
  | none =>
    refine ⟨fun hne => ?_, hs⟩
    obtain ⟨offset, info, hhead, hoff⟩ := hb.accessible hne
    exact hs.readable offset info hhead hoff

/-- A chunk whose size is not accessible shows the size in the heap. -/
theorem shownSize_hidden {c : ChunkInfo AccessBlock} {chunk : Chunk} (hk : Kept chunk c₀ c)
    (hr : c₀.resizing = .non_accessible) (version : Nat) :
    c.shownSize chunk version = chunk.getsize := by
  have hnil : c.size.versionList = [] := by
    rw [List.eq_nil_iff_forall_not_mem]
    intro e he
    have := hk.sizes e he
    rw [SizeAllowed, hr] at this
    exact this
  rw [ChunkInfo.shownSize, hnil]
  exact hk.initialSize_getD

/-- The bytes a block lies on are the same when it may be read or written. -/
theorem base_eq (hb : Built index heap e c₀) (hk : Kept chunk₂ c₀ c₂)
    (ha : ChunksAgree asks e.2 chunk₁ chunk₂)
    {offset : Nat} {b : AccessBlock} (hmem : (offset, b) ∈ c₂.accessTable.entries)
    (hr : b.accessType = .read_only ∨ b.accessType = .writable) :
    readAt chunk₁.content b.heapLocation b.size = readAt chunk₂.content b.heapLocation b.size := by
  obtain ⟨hloc, d, hd, h0, hoff, hsize, htype⟩ := hb.declared hk hmem
  rw [htype] at hr
  apply readAt_congr
  intro i hlo hhi
  have := ha.bytes d hd hr h0 i (by omega) (by omega)
  rw [Int.toNat_natCast] at this
  rw [List.getD_eq_getElem?_getD, List.getD_eq_getElem?_getD, this]

/-- An operation on one block that looks at the bytes only when it may. -/
theorem onBlock {α : Type} (hb : Built index heap e c₀) (hk : Kept chunk₂ c₀ c₂)
    (ht : Twin asks e.2 c₁ c₂)
    (ha : ChunksAgree asks e.2 chunk₁ chunk₂) (offset : Nat)
    {f : AccessBlock → List Byte → Except Exn α × AccessBlock}
    (hf : ∀ b base base', (b.accessType = .read_only ∨ b.accessType = .writable → base = base') →
      f b base = f b base') :
    (c₁.onBlock chunk₁ offset f).1 = (c₂.onBlock chunk₂ offset f).1 ∧
      Twin asks e.2 (c₁.onBlock chunk₁ offset f).2 (c₂.onBlock chunk₂ offset f).2 := by
  have hsame : c₁.getAccessBlock offset = c₂.getAccessBlock offset := by
    unfold ChunkInfo.getAccessBlock
    rw [ht.accessTable]
  unfold ChunkInfo.onBlock
  rw [hsame]
  cases hget : c₂.getAccessBlock offset with
  | error err => exact ⟨rfl, ht⟩
  | ok kb =>
    obtain ⟨k, b⟩ := kb
    have hbase := hf b _ _ (base_eq hb hk ha (ChunkInfo.getAccessBlock_mem hget))
    have hbase : f b (readAt chunk₁.content (HeapBlock.heapLocation b) (HeapBlock.size b)) =
        f b (readAt chunk₂.content (HeapBlock.heapLocation b) (HeapBlock.size b)) := hbase
    simp only [hbase]
    exact ⟨trivial,
      ⟨by rw [ht.accessTable], ht.ptr, ht.resizing, ht.sizeBound, ht.size, ht.initialSize⟩⟩

/-- A question of validity that is asked gets the same answer. -/
theorem isValid (hb : Built index heap e c₀) (hk : Kept chunk₂ c₀ c₂) (ht : Twin asks e.2 c₁ c₂)
    (ha : ChunksAgree asks e.2 chunk₁ chunk₂) (version offset n : Nat) (hn : asks n) :
    (c₁.isValid chunk₁ version offset n).1 = (c₂.isValid chunk₂ version offset n).1 ∧
      Twin asks e.2 (c₁.isValid chunk₁ version offset n).2
        (c₂.isValid chunk₂ version offset n).2 := by
  have hsame : c₁.getAccessBlock offset = c₂.getAccessBlock offset := by
    unfold ChunkInfo.getAccessBlock
    rw [ht.accessTable]
  unfold ChunkInfo.isValid
  rw [hsame]
  cases hget : c₂.getAccessBlock offset with
  | error err => exact ⟨rfl, ht⟩
  | ok kb =>
    obtain ⟨k, b⟩ := kb
    simp only
    split
    swap
    · exact ⟨rfl, ht⟩
    rename_i hdef
    have hle : n ≤ HeapBlock.size b := of_decide_eq_true (Bool.and_eq_true_iff.mp hdef).1
    change n ≤ b.size at hle
    obtain ⟨-, d, hd, h0, hoff, hsize, -⟩ := hb.declared hk (ChunkInfo.getAccessBlock_mem hget)
    obtain ⟨c₁', c₂', hr₁, hr₂, ht', -⟩ := ht.readSize hk ha version
    have hvalid := (ht.shownSize hb ha version).2.valid d hd h0 n hn (hsize ▸ hle)
    rw [hoff] at hvalid
    rw [hr₁, hr₂]
    refine ⟨?_, ht'⟩
    simp only [Except.map, hvalid]

theorem getChunkSize (hb : Built index heap e c₀) (hk : Kept chunk₂ c₀ c₂)
    (ht : Twin asks e.2 c₁ c₂)
    (ha : ChunksAgree asks e.2 chunk₁ chunk₂) (version : Nat) :
    (c₁.getChunkSize chunk₁ version).1 = (c₂.getChunkSize chunk₂ version).1 ∧
      Twin asks e.2 (c₁.getChunkSize chunk₁ version).2 (c₂.getChunkSize chunk₂ version).2 := by
  unfold ChunkInfo.getChunkSize
  rw [ht.resizing]
  split
  · exact ⟨rfl, ht⟩
  rename_i hr
  obtain ⟨c₁', c₂', hr₁, hr₂, ht', -⟩ := ht.readSize hk ha version
  rw [hr₁, hr₂, (ht.shownSize hb ha version).1 (hk.resizing ▸ hr)]
  exact ⟨rfl, ht'⟩

/-- Writing the size block of a chunk whose size is accessible. -/
theorem writeSize (hb : Built index heap e c₀) (hne : c₀.resizing ≠ .non_accessible)
    (ht : Twin asks e.2 c₁ c₂)
    (ha : ChunksAgree asks e.2 chunk₁ chunk₂) (version newSize : Nat) :
    (c₁.writeSize chunk₁ version newSize).1 = (c₂.writeSize chunk₂ version newSize).1 ∧
      Twin asks e.2 (c₁.writeSize chunk₁ version newSize).2
        (c₂.writeSize chunk₂ version newSize).2 := by
  obtain ⟨hlt, hs⟩ := ht.initial_agree ha
  obtain ⟨offset, info, hhead, hoff⟩ := hb.accessible hne
  have hinit := hs.readable offset info hhead hoff
  have hwrite : ∀ (c : ChunkInfo AccessBlock) (chunk : Chunk), c.writeSize chunk version newSize =
      ((c.size.write (leBytes 4 (c.initialSize.getD chunk.getsize)) version 0
        (leBytes 4 newSize)).1,
        { c with
          size := (c.size.write (leBytes 4 (c.initialSize.getD chunk.getsize)) version 0
            (leBytes 4 newSize)).2
          initialSize := some (c.initialSize.getD chunk.getsize) }) := fun _ _ => rfl
  rw [hwrite, hwrite, ht.size, hinit]
  exact ⟨rfl, ht.accessTable, ht.ptr, ht.resizing, ht.sizeBound, rfl,
    .inr ⟨_, _, rfl, rfl, hinit ▸ hlt, hinit ▸ hs⟩⟩

/-- Two runs whose chunk has the sizes `s₁` and `s₂` tell them apart: the request asks
for a new size that is the size of the chunk in one of them, though the size is not
accessible. -/
def Probes (resizing : ResizingType) (s₁ s₂ : Nat) : ChunkOp → Prop
  | .updateChunkSize newSize => resizing = .non_accessible ∧ ¬ (newSize = s₁ ↔ newSize = s₂)
  | _ => False

theorem updateChunkSize (hb : Built index heap e c₀) (hk₁ : Kept chunk₁ c₀ c₁)
    (hk : Kept chunk₂ c₀ c₂)
    (ht : Twin asks e.2 c₁ c₂) (ha : ChunksAgree asks e.2 chunk₁ chunk₂) (version newSize : Nat) :
    ((c₁.updateChunkSize chunk₁ version newSize).1 = (c₂.updateChunkSize chunk₂ version newSize).1 ↔
        ¬ Probes c₀.resizing chunk₁.getsize chunk₂.getsize (.updateChunkSize newSize)) ∧
      Twin asks e.2 (c₁.updateChunkSize chunk₁ version newSize).2
        (c₂.updateChunkSize chunk₂ version newSize).2 := by
  obtain ⟨c₁', c₂', hr₁, hr₂, ht', hk'⟩ := ht.readSize hk ha version
  unfold ChunkInfo.updateChunkSize
  rw [hr₁, hr₂]
  simp only [ht'.resizing, ht'.sizeBound, hk'.resizing]
  by_cases hne : c₀.resizing = .non_accessible
  · -- the size is compared before the resizing type is looked at
    rw [shownSize_hidden hk₁ hne, shownSize_hidden hk hne, hne]
    simp only [Probes, true_and, not_not]
    by_cases h1 : newSize = chunk₁.getsize <;> by_cases h2 : newSize = chunk₂.getsize
    · rw [if_pos h1, if_pos h2]
      exact ⟨iff_of_true rfl (iff_of_true h1 h2), ht'⟩
    · rw [if_pos h1, if_neg h2]
      exact ⟨iff_of_false (by simp) fun h => h2 (h.mp h1), ht'⟩
    · rw [if_neg h1, if_pos h2]
      exact ⟨iff_of_false (by simp) fun h => h1 (h.mpr h2), ht'⟩
    · rw [if_neg h1, if_neg h2]
      exact ⟨iff_of_true rfl (iff_of_false h1 h2), ht'⟩
  · have hno : ¬ Probes c₀.resizing chunk₁.getsize chunk₂.getsize (.updateChunkSize newSize) :=
      fun h => hne h.1
    rw [(ht.shownSize hb ha version).1 hne, iff_true_right hno]
    split
    · exact ⟨rfl, ht'⟩
    cases hres : c₀.resizing with
    | expandable =>
      simp only
      split
      · exact ⟨rfl, ht'⟩
      · exact ht'.writeSize hb hne ha version newSize
    | shrinkable =>
      simp only
      split
      · exact ⟨rfl, ht'⟩
      · exact ht'.writeSize hb hne ha version newSize
    | read_only => exact ⟨rfl, ht'⟩
    | non_accessible => exact absurd hres hne

/-- One operation on a chunk in two runs. -/
theorem exec (hb : Built index heap e c₀) (hk₁ : Kept chunk₁ c₀ c₁) (hk : Kept chunk₂ c₀ c₂)
    (ht : Twin asks e.2 c₁ c₂) (ha : ChunksAgree asks e.2 chunk₁ chunk₂) (version : Nat)
    (op : ChunkOp)
    (hasks : ∀ offset n, op = .isValid offset n → asks n) :
    ((c₁.exec chunk₁ version op).1 = (c₂.exec chunk₂ version op).1 ↔
        ¬ Probes c₀.resizing chunk₁.getsize chunk₂.getsize op) ∧
      Twin asks e.2 (c₁.exec chunk₁ version op).2 (c₂.exec chunk₂ version op).2 := by
  cases op with
  | load offset index n =>
    obtain ⟨h, ht'⟩ := ht.onBlock hb hk ha offset fun b base base' h => read_congr h version index n
    exact ⟨iff_of_true (congrArg (Except.map _) h) id, ht'⟩
  | store offset index value =>
    obtain ⟨h, ht'⟩ := ht.onBlock hb hk ha offset fun b base base' h =>
      write_congr h version index value
    exact ⟨iff_of_true (congrArg (Except.map _) h) id, ht'⟩
  | addInt offset n value =>
    obtain ⟨h, ht'⟩ := ht.onBlock hb hk ha offset (f := fun b _ =>
      AccessBlock.addInt b version n value)
      fun _ _ _ _ => rfl
    exact ⟨iff_of_true (congrArg (Except.map _) h) id, ht'⟩
  | isValid offset n =>
    obtain ⟨h, ht'⟩ := ht.isValid hb hk ha version offset n (hasks offset n rfl)
    exact ⟨iff_of_true (congrArg (Except.map _) h) id, ht'⟩
  | getChunkSize =>
    obtain ⟨h, ht'⟩ := ht.getChunkSize hb hk ha version
    exact ⟨iff_of_true (congrArg (Except.map _) h) id, ht'⟩
  | updateChunkSize newSize =>
    obtain ⟨h, ht'⟩ := ht.updateChunkSize hb hk₁ hk ha version newSize
    refine ⟨?_, ht'⟩
    rw [← h]
    simp only [ChunkInfo.exec]
    cases (c₁.updateChunkSize chunk₁ version newSize).1 <;>
      cases (c₂.updateChunkSize chunk₂ version newSize).1 <;>
      simp [Except.map]

end Twin

/-! ## Runs -/

namespace RestrictedModifier
open ChunkIndex
variable {index : ChunkIndex} {heap₀ heap₁ heap₂ : Heap} {asks : Nat → Prop}
  {m m₁ m₂ : RestrictedModifier AccessBlock}

/-- The information of the current chunk. -/
def currentInfo (m : RestrictedModifier AccessBlock) : Option (ChunkInfo AccessBlock) :=
  m.currentChunk.bind m.appsAccessMaps.get

/-- The operation tells the two heaps apart by the size of a chunk that is not accessible. -/
def Probing (heap₁ heap₂ : Heap) (m : RestrictedModifier AccessBlock) : Op → Prop
  | .access op => ∃ c, m.currentInfo = some c ∧
    Twin.Probes c.resizing (heap₁ c.ptr).getsize (heap₂ c.ptr).getsize op
  | _ => False

/-- No operation of the run does. -/
def NoProbes (heap₁ heap₂ : Heap) (m : RestrictedModifier AccessBlock) : List Op → Prop
  | [] => True
  | op :: ops => ¬ Probing heap₁ heap₂ m op ∧ NoProbes heap₁ heap₂ (m.exec heap₁ op).2 ops

/-- The information of the chunk of an entry, after the same operations on two heaps
that agree on the declared blocks of the chunk. -/
def TwinInfo (index : ChunkIndex) (heap₀ heap₁ heap₂ : Heap) (asks : Nat → Prop)
    (c₁ c₂ : ChunkInfo AccessBlock) : Prop :=
  ∃ (e : FullID × List (Int × AccessBlockInfo)) (c₀ : ChunkInfo AccessBlock),
    Built index heap₀ e c₀ ∧
    Kept (heap₁ e.1) c₀ c₁ ∧ Kept (heap₂ e.1) c₀ c₂ ∧ Twin asks e.2 c₁ c₂ ∧
      ChunksAgree asks e.2 (heap₁ e.1) (heap₂ e.1)

theorem TwinInfo.exec {c₁ c₂ : ChunkInfo AccessBlock}
    (h : TwinInfo index heap₀ heap₁ heap₂ asks c₁ c₂)
    (version : Nat) (op : ChunkOp) (hasks : ∀ offset n, op = .isValid offset n → asks n) :
    ((c₁.exec (heap₁ c₁.ptr) version op).1 = (c₂.exec (heap₂ c₂.ptr) version op).1 ↔
        ¬ Twin.Probes c₁.resizing (heap₁ c₁.ptr).getsize (heap₂ c₁.ptr).getsize op) ∧
      TwinInfo index heap₀ heap₁ heap₂ asks (c₁.exec (heap₁ c₁.ptr) version op).2
        (c₂.exec (heap₂ c₂.ptr) version op).2 := by
  obtain ⟨e, c₀, hb, hk₁, hk₂, ht, ha⟩ := h
  rw [hk₁.ptr, hk₂.ptr, hb.ptr, hk₁.resizing]
  obtain ⟨hr, ht'⟩ := ht.exec hb hk₁ hk₂ ha version op hasks
  exact ⟨hr, e, c₀, hb, hk₁.exec hb.sizeBound_le version op,
    hk₂.exec hb.sizeBound_le version op, ht', ha⟩

/-- One operation in two runs. -/
theorem Related.exec_twin (h : Related (TwinInfo index heap₀ heap₁ heap₂ asks) m₁ m₂) (op : Op)
    (hasks : ∀ offset n, op = .access (.isValid offset n) → asks n) :
    ((m₁.exec heap₁ op).1 = (m₂.exec heap₂ op).1 ↔ ¬ Probing heap₁ heap₂ m₁ op) ∧
      Related (TwinInfo index heap₀ heap₁ heap₂ asks)
        (m₁.exec heap₁ op).2 (m₂.exec heap₂ op).2 := by
  cases op with
  | loadContext appID => exact ⟨iff_of_true rfl id, h.loadContext appID⟩
  | loadChunk accountID localID =>
    obtain ⟨hr, h'⟩ := h.loadChunk accountID localID
    exact ⟨iff_of_true (congrArg (Except.map _) hr) id, h'⟩
  | saveVersion =>
    simp only [RestrictedModifier.exec, saveVersion, h.currentVersion, Probing,
      not_false_eq_true, iff_true]
    split
    · exact ⟨rfl, h⟩
    · exact ⟨rfl, rfl, h.currentChunk, h.chunks, h.maps⟩
  | restoreVersion version =>
    simp only [RestrictedModifier.exec, restoreVersion, h.currentVersion, Probing,
      not_false_eq_true, iff_true]
    split
    · exact ⟨rfl, rfl, h.currentChunk, h.chunks, h.maps⟩
    · exact ⟨rfl, h⟩
  -- only an operation on a chunk can tell the heaps apart
  | access op =>
    simp only [RestrictedModifier.exec, RestrictedModifier.access, Probing, currentInfo,
      h.currentChunk]
    cases m₂.currentChunk with
    | none => exact ⟨iff_of_true rfl (by simp), h⟩
    | some p =>
      rcases h.maps.get p with ⟨h1, h2⟩ | ⟨c₁, c₂, h1, h2, hc⟩
      · simp only [Option.bind_some, h1, h2]
        exact ⟨iff_of_true trivial (by simp), h⟩
      · obtain ⟨hr, hc'⟩ := hc.exec m₁.currentVersion op fun offset n hop =>
          hasks offset n (congrArg Op.access hop)
        simp only [Option.bind_some, h1, h2, Option.some.injEq, exists_eq_left']
        rw [h.currentVersion] at hr hc' ⊢
        exact ⟨hr, rfl, rfl, h.chunks, h.maps.set p hc'⟩

/-- The results of a run on two heaps are the same exactly when no operation probes. -/
theorem Related.run_twin : ∀ {ops : List Op} {m₁ m₂ : RestrictedModifier AccessBlock},
    Related (TwinInfo index heap₀ heap₁ heap₂ asks) m₁ m₂ →
    (∀ offset n, .access (.isValid offset n) ∈ ops → asks n) →
    ((m₁.run heap₁ ops).1 = (m₂.run heap₂ ops).1 ↔ NoProbes heap₁ heap₂ m₁ ops) ∧
      Related (TwinInfo index heap₀ heap₁ heap₂ asks) (m₁.run heap₁ ops).2 (m₂.run heap₂ ops).2
  | [], _, _, h, _ => ⟨iff_of_true rfl trivial, h⟩
  | op :: ops, m₁, m₂, h, hasks => by
    obtain ⟨hr, h'⟩ := h.exec_twin op fun offset n hop =>
      hasks offset n (by rw [hop]; exact List.mem_cons_self)
    obtain ⟨hrs, h''⟩ := Related.run_twin h' fun offset n hop =>
      hasks offset n (List.mem_cons_of_mem _ hop)
    refine ⟨?_, h''⟩
    rw [NoProbes, ← hr, ← hrs]
    simp only [RestrictedModifier.run, List.cons.injEq]

/-- Only a call of `updateChunkSize` probes. -/
theorem noProbes_of_no_update : ∀ {ops : List Op} {m : RestrictedModifier AccessBlock},
    (∀ newSize, .access (.updateChunkSize newSize) ∉ ops) → NoProbes heap₁ heap₂ m ops
  | [], _, _ => trivial
  | op :: ops, m, h => by
    refine ⟨fun hp => ?_, noProbes_of_no_update fun newSize hmem =>
      h newSize (List.mem_cons_of_mem _ hmem)⟩
    cases op with
    | access op =>
      obtain ⟨c, -, hp⟩ := hp
      cases op with
      | updateChunkSize newSize => exact h newSize List.mem_cons_self
      | _ => exact hp
    | _ => exact hp

end RestrictedModifier

namespace ChunkIndex
open RestrictedModifier
variable {index : ChunkIndex} {heap₀ heap₁ heap₂ : Heap} {asks : Nat → Prop}
  {rawAccessMap : AccessMapType}
  {m : RestrictedModifier AccessBlock}

/-- A built modifier starts the same on heaps that agree on the declared blocks. -/
theorem buildModifier_twin (hm : index.buildModifier heap₀ rawAccessMap = .ok m)
    (hagree : ∀ e ∈ chunkEntries rawAccessMap, ChunksAgree asks e.2 (heap₁ e.1) (heap₂ e.1)) :
    Related (TwinInfo index heap₀ heap₁ heap₂ asks) m m := by
  refine ⟨rfl, rfl, rfl, rfl, List.forall₂_same.mpr fun chunkMap hmap =>
    ⟨rfl, List.forall₂_same.mpr fun c hc => ?_⟩⟩
  obtain ⟨e, he, hb⟩ := forall₂_mem_right (buildModifier_built hm)
    (List.mem_flatMap.mpr ⟨chunkMap, hmap, hc⟩)
  exact ⟨e, c, hb, hb.kept _, hb.kept _,
    ⟨rfl, rfl, rfl, rfl, rfl, .inl ⟨hb.initialSize, hb.initialSize⟩⟩, hagree e he⟩

/-- **Read confinement.** Two runs of a modifier over heaps that agree on the declared
bytes, on the sizes declared accessible and on the validity of the declared blocks
return the same, operation by operation, exactly when no `updateChunkSize` asks for the
size that a chunk whose size is not accessible has in one of them only. -/
theorem read_confinement_iff (hm : index.buildModifier heap₀ rawAccessMap = .ok m)
    (hagree : ∀ e ∈ chunkEntries rawAccessMap,
      ChunksAgree (fun _ => True) e.2 (heap₁ e.1) (heap₂ e.1))
    (ops : List Op) : (m.run heap₁ ops).1 = (m.run heap₂ ops).1 ↔ NoProbes heap₁ heap₂ m ops :=
  (Related.run_twin (buildModifier_twin hm hagree) fun _ _ _ => trivial).1

/-- Any two chunks agree for a request that declares neither a block nor a use of the size. -/
theorem chunksAgree_of_hidden {blocks : List (Int × AccessBlockInfo)} (h : ∀ b ∈ blocks, b.1 < -2)
    (chunk₁ chunk₂ : Chunk) : ChunksAgree asks blocks chunk₁ chunk₂ := by
  refine ⟨fun b hb _ h0 => ?_, ⟨fun offset info hhead hoff => ?_, fun b hb h0 => ?_⟩⟩
  · have := h b hb
    omega
  · have := h _ (List.mem_of_mem_head? hhead)
    omega
  · have := h b hb
    omega

/-- Two chunks that begin with the same two bytes and have at least these agree for
a request that reads them. -/
theorem chunksAgree_of_two_bytes {chunk₁ chunk₂ : Chunk}
    (hbytes : ∀ i < 2, chunk₁.content[i]? = chunk₂.content[i]?)
    (hsize₁ : 2 ≤ chunk₁.getsize) (hsize₂ : 2 ≤ chunk₂.getsize) :
    ChunksAgree asks [(-3, ⟨0, .check_only, 0⟩), (0, ⟨2, .read_only, 0⟩)] chunk₁ chunk₂ := by
  have hsize : toUInt32 2 = 2 := by decide
  refine ⟨fun b hb haccess _ i hlow hhigh => ?_,
    ⟨fun offset info hhead hoffset => ?_, fun b hb h0 n _ hn => ?_⟩⟩
  · obtain rfl | hb := List.mem_cons.mp hb
    · obtain h | h := haccess <;> cases h
    · obtain rfl := List.mem_singleton.mp hb
      simp only [hsize] at hlow hhigh
      exact hbytes i.toNat (by omega)
  · obtain ⟨rfl, -⟩ := Prod.mk.inj (Option.some.inj hhead)
    omega
  · obtain rfl | hb := List.mem_cons.mp hb
    · exact absurd h0 (by decide)
    · obtain rfl := List.mem_singleton.mp hb
      simp only [hsize] at hn
      simp only [Int.toNat_zero]
      omega

/-- A request reads the two bytes that it has declared of chunks of 5 and of 6 bytes that differ
behind them, and asks for a size that none of them has. -/
theorem read_confinement_unprobed :
    let id : FullID := toLex (0, toLex (0, 0))
    let index : ChunkIndex := ⟨[id], ⟨[], [], rfl⟩, by decide⟩
    let heap : Byte → Nat → Heap := fun b n _ =>
      ⟨[1, 2, b, b, b, 0, 0, 0], n % 8, true, by simp; omega, by simp [maxAllowedCapacity]⟩
    let rawAccessMap : AccessMapType :=
      ⟨[0], [⟨[toLex (0, 0)], [⟨[-3, 0], [⟨0, .check_only, 0⟩, ⟨2, .read_only, 0⟩], rfl⟩], rfl⟩],
        rfl⟩
    let ops : List Op := [.loadContext 0, .loadChunk 0 0, .access (.load 0 0 2),
      .access (.load 0 1 2), .access (.updateChunkSize 4)]
    ∃ m, index.buildModifier (heap 7 5) rawAccessMap = .ok m ∧
      (m.run (heap 7 5) ops).1 = (m.run (heap 9 6) ops).1 := by
  intro id₀ index heap rawAccessMap ops
  have hm : index.buildModifier (heap 7 5) rawAccessMap = .ok _ := rfl
  refine ⟨_, hm, (read_confinement_iff hm (fun e he => ?_) ops).mpr ⟨id, id, ?_, ?_, ?_, trivial⟩⟩
  · obtain rfl := List.mem_singleton.mp he
    exact chunksAgree_of_two_bytes (by decide) (by decide) (by decide)
  · rintro ⟨c, -, hp⟩
    exact hp
  · rintro ⟨c, -, hp⟩
    exact hp
  · rintro ⟨c, -, -, hp⟩
    have h : 4 = 5 % 8 ↔ 4 = 6 % 8 := by decide
    exact hp h

/-- A request that declares no use of the size of a chunk asks for size 5: it is told
whether the chunk has 5 bytes or 6. -/
theorem read_confinement_leaks_size :
    let id : FullID := toLex (0, toLex (0, 0))
    let index : ChunkIndex := ⟨[id], ⟨[], [], rfl⟩, by decide⟩
    let heap : Nat → Heap := fun n _ => ⟨List.replicate 8 0, n % 8, true, by simp; omega, by decide⟩
    let rawAccessMap : AccessMapType :=
      ⟨[0], [⟨[toLex (0, 0)], [⟨[-3], [⟨0, .check_only, 0⟩], rfl⟩], rfl⟩], rfl⟩
    let ops : List Op := [.loadContext 0, .loadChunk 0 0, .access (.updateChunkSize 5)]
    ∃ m, index.buildModifier (heap 5) rawAccessMap = .ok m ∧
      (∀ e ∈ chunkEntries rawAccessMap, ChunksAgree (fun _ => True) e.2 (heap 5 e.1) (heap 6 e.1)) ∧
      (m.run (heap 5) ops).1 = [.ok .unit, .ok .unit, .ok .unit] ∧
      (m.run (heap 6) ops).1 =
        [.ok .unit, .ok .unit, .error (.outOfRange "chunk is not resizable")] := by
  intro id index heap rawAccessMap ops
  refine ⟨_, rfl, fun e he => ?_, by decide, by decide⟩
  obtain rfl := List.mem_singleton.mp he
  exact chunksAgree_of_hidden (by decide) _ _

end ChunkIndex
end Argennon
