import Argennon.Storage.ModifierView
import Argennon.Storage.ReadConfinement

/- A request that runs while other requests are written back.

   A request records the size of a chunk when it first uses it, and the chunk may have another size
   later if the request has not declared its use of the size. `Current` says that the request cannot
   tell: what it has recorded agrees with the chunk as it stands now. Then every operation returns
   what it returns with the size of now (`Current.exec`), and so does the write-back
   (`Current.writeToHeap`). -/
namespace Argennon

open VersionStack

/-- A validity question is about one byte at least. -/
abbrev AsksBytes (n : Nat) : Prop := 0 < n

namespace SizesAgree
variable {asks : Nat → Prop} {blocks : List (Int × AccessBlockInfo)} {s₁ s₂ s₃ : Nat}

theorem refl (s : Nat) : SizesAgree asks blocks s s :=
  ⟨fun _ _ _ _ => rfl, fun _ _ _ _ _ _ => Iff.rfl⟩

theorem trans (h : SizesAgree asks blocks s₁ s₂) (h' : SizesAgree asks blocks s₂ s₃) :
    SizesAgree asks blocks s₁ s₃ :=
  ⟨fun offset info hhead hoff =>
    (h.readable offset info hhead hoff).trans (h'.readable offset info hhead hoff),
    fun b hb h0 n hn hle => (h.valid b hb h0 n hn hle).trans (h'.valid b hb h0 n hn hle)⟩

end SizesAgree

theorem ChunksAgree.refl {asks : Nat → Prop} {blocks : List (Int × AccessBlockInfo)}
    (chunk : Chunk) :
    ChunksAgree asks blocks chunk chunk := ⟨fun _ _ _ _ _ _ _ => rfl, .refl _⟩

/-! ## The recorded size -/

namespace ChunkInfo

/-- The same with this size of the chunk recorded. -/
def recorded (c : ChunkInfo AccessBlock) (chunk : Chunk) : ChunkInfo AccessBlock :=
  { c with initialSize := some chunk.getsize }

/-- Nothing is recorded. -/
def forget (c : ChunkInfo AccessBlock) : ChunkInfo AccessBlock := { c with initialSize := none }

/-- The same but for the recorded size. -/
def SameInfo (c c' : ChunkInfo AccessBlock) : Prop := c.forget = c'.forget

namespace SameInfo
variable {c c' c'' : ChunkInfo AccessBlock}

theorem refl (c : ChunkInfo AccessBlock) : SameInfo c c := rfl

theorem symm (h : SameInfo c c') : SameInfo c' c := Eq.symm h

theorem trans (h : SameInfo c c') (h' : SameInfo c' c'') : SameInfo c c'' := Eq.trans h h'

theorem ptr (h : SameInfo c c') : c.ptr = c'.ptr :=
  (congrArg ChunkInfo.ptr h : c.forget.ptr = c'.forget.ptr)

theorem accessTable (h : SameInfo c c') : c.accessTable = c'.accessTable :=
  (congrArg ChunkInfo.accessTable h : c.forget.accessTable = c'.forget.accessTable)

theorem resizing (h : SameInfo c c') : c.resizing = c'.resizing :=
  (congrArg ChunkInfo.resizing h : c.forget.resizing = c'.forget.resizing)

theorem sizeBound (h : SameInfo c c') : c.sizeBound = c'.sizeBound :=
  (congrArg ChunkInfo.sizeBound h : c.forget.sizeBound = c'.forget.sizeBound)

theorem size (h : SameInfo c c') : c.size = c'.size :=
  (congrArg ChunkInfo.size h : c.forget.size = c'.forget.size)

theorem recorded (h : SameInfo c c') (chunk : Chunk) : c.recorded chunk = c'.recorded chunk :=
  congrArg (fun d => d.recorded chunk) h

end SameInfo

theorem sameInfo_recorded (c : ChunkInfo AccessBlock) (chunk : Chunk) :
    SameInfo c (c.recorded chunk) := rfl

end ChunkInfo

open ChunkInfo

theorem Twin.sameInfo {asks : Nat → Prop} {blocks : List (Int × AccessBlockInfo)}
    {c₁ c₂ : ChunkInfo AccessBlock}
    (h : Twin asks blocks c₁ c₂) : SameInfo c₁ c₂ := by
  obtain ⟨table₁, ptr₁, resizing₁, bound₁, size₁, initial₁⟩ := c₁
  obtain ⟨table₂, ptr₂, resizing₂, bound₂, size₂, initial₂⟩ := c₂
  obtain ⟨htable, hptr, hresizing, hbound, hsize, -⟩ := h
  simp only at htable hptr hresizing hbound hsize
  subst htable hptr hresizing hbound hsize
  rfl

theorem Twin.of_sameInfo {asks : Nat → Prop} {blocks : List (Int × AccessBlockInfo)}
    {c₁ c₂ : ChunkInfo AccessBlock} {s₁ s₂ : Nat}
    (h : SameInfo c₁ c₂) (h₁ : c₁.initialSize = some s₁) (h₂ : c₂.initialSize = some s₂)
    (hlt : s₁ < 2 ^ 32)
    (hs : SizesAgree asks blocks s₁ s₂) : Twin asks blocks c₁ c₂ :=
  ⟨h.accessTable, h.ptr, h.resizing, h.sizeBound, h.size, .inr ⟨s₁, s₂, h₁, h₂, hlt, hs⟩⟩

theorem Kept.recorded {chunk : Chunk} {c₀ c : ChunkInfo AccessBlock} (h : Kept chunk c₀ c) :
    Kept chunk c₀ (c.recorded chunk) :=
  ⟨h.keys, h.blocks, h.ptr, h.resizing, h.sizeBound, .inr rfl, h.size_width, h.size_type, h.sizes⟩

namespace ChunkInfo
variable {c : ChunkInfo AccessBlock} {chunk : Chunk}

/-- The size is taken from the chunk when nothing else is recorded. -/
theorem sizeBlock_eq (h : c.initialSize.getD chunk.getsize = chunk.getsize) :
    c.sizeBlock chunk = c.recorded chunk := by
  unfold sizeBlock recorded
  rw [h]

theorem readSize_recorded (h : c.initialSize.getD chunk.getsize = chunk.getsize) (version : Nat) :
    c.readSize chunk version = (c.recorded chunk).readSize chunk version := by
  unfold readSize
  rw [sizeBlock_eq h]
  rfl

theorem onBlock_initialSize {α : Type} (c : ChunkInfo AccessBlock) (chunk : Chunk) (offset : Nat)
    (f : AccessBlock → List Byte → Except Exn α × AccessBlock) :
    (c.onBlock chunk offset f).1 = ((c.recorded chunk).onBlock chunk offset f).1 ∧
      SameInfo (c.onBlock chunk offset f).2 ((c.recorded chunk).onBlock chunk offset f).2 ∧
      (c.onBlock chunk offset f).2.initialSize = c.initialSize := by
  have hget : (c.recorded chunk).getAccessBlock offset = c.getAccessBlock offset := rfl
  unfold onBlock
  rw [hget]
  cases c.getAccessBlock offset with
  | error e => exact ⟨rfl, rfl, rfl⟩
  | ok kb => exact ⟨rfl, rfl, rfl⟩

/-- A request that has recorded no other size acts as if it had recorded the size. -/
theorem exec_recorded (h : c.initialSize.getD chunk.getsize = chunk.getsize) (version : Nat)
    (op : ChunkOp) :
    (c.exec chunk version op).1 = ((c.recorded chunk).exec chunk version op).1 ∧
      SameInfo (c.exec chunk version op).2 ((c.recorded chunk).exec chunk version op).2 ∧
      ((c.exec chunk version op).2.initialSize = c.initialSize ∨
        (c.exec chunk version op).2 = ((c.recorded chunk).exec chunk version op).2) := by
  have hread := readSize_recorded h version
  cases op with
  | load offset index n =>
    obtain ⟨h1, h2, h3⟩ :=
      c.onBlock_initialSize chunk offset fun b base => HeapBlock.read b base version index n
    exact ⟨congrArg (Except.map _) h1, h2, .inl h3⟩
  | store offset index value =>
    obtain ⟨h1, h2, h3⟩ :=
      c.onBlock_initialSize chunk offset fun b base => HeapBlock.write b base version index value
    exact ⟨congrArg (Except.map _) h1, h2, .inl h3⟩
  | addInt offset n value =>
    obtain ⟨h1, h2, h3⟩ :=
      c.onBlock_initialSize chunk offset fun b _ => HeapBlock.addInt b version n value
    exact ⟨congrArg (Except.map _) h1, h2, .inl h3⟩
  -- the three operations that ask for the size record it
  | isValid offset n =>
    have hget : (c.recorded chunk).getAccessBlock offset = c.getAccessBlock offset := rfl
    simp only [ChunkInfo.exec, ChunkInfo.isValid, hget]
    cases c.getAccessBlock offset with
    | error e => exact ⟨rfl, rfl, .inl rfl⟩
    | ok kb =>
      simp only
      split
      · rw [hread]
        exact ⟨rfl, rfl, .inr rfl⟩
      · exact ⟨rfl, rfl, .inl rfl⟩
  | getChunkSize =>
    have hresizing : (c.recorded chunk).resizing = c.resizing := rfl
    simp only [ChunkInfo.exec, ChunkInfo.getChunkSize, hresizing]
    split
    · exact ⟨rfl, rfl, .inl rfl⟩
    · rw [hread]
      exact ⟨rfl, rfl, .inr rfl⟩
  | updateChunkSize newSize =>
    simp only [ChunkInfo.exec, ChunkInfo.updateChunkSize, hread]
    exact ⟨trivial, rfl, .inr trivial⟩

end ChunkInfo

/-! ## Requests that run -/

/-- The operation asks for one byte at least, and does not resize a chunk whose
size it may not use. -/
def ChunkOp.Discreet (resizing : ResizingType) : ChunkOp → Prop
  | .isValid _ n => 0 < n
  | .updateChunkSize _ => resizing ≠ .non_accessible
  | _ => True

/-- The information of a chunk of a request that runs, built as `c₀` of the blocks: no size is
recorded that the blocks tell apart from the size of now. -/
structure Current (blocks : List (Int × AccessBlockInfo)) (chunk : Chunk)
    (c₀ c : ChunkInfo AccessBlock) : Prop where
  kept : Kept chunk c₀ (c.recorded chunk)
  recorded : ∀ s, c.initialSize = some s → s < 2 ^ 32 ∧ SizesAgree AsksBytes blocks s chunk.getsize

namespace ChunkIndex
variable {index : ChunkIndex} {heap : Heap} {e : FullID × List (Int × AccessBlockInfo)}
  {c₀ : ChunkInfo AccessBlock}

/-- A request that has not started. -/
theorem Built.current (hb : Built index heap e c₀) (chunk : Chunk) : Current e.2 chunk c₀ c₀ :=
  ⟨(hb.kept chunk).recorded, fun s hs => by rw [hb.initialSize] at hs; cases hs⟩

end ChunkIndex

namespace Current
open ChunkIndex
variable {index : ChunkIndex} {heap : Heap} {e : FullID × List (Int × AccessBlockInfo)}
  {chunk chunk' : Chunk}
  {c₀ c c' : ChunkInfo AccessBlock}

/-- The size that is recorded is the size of now, if the request may use it. -/
theorem getD_of_accessible (hb : Built index heap e c₀) (h : Current e.2 chunk c₀ c)
    (hr : c₀.resizing ≠ .non_accessible) :
    c.initialSize.getD chunk.getsize = chunk.getsize := by
  cases hinit : c.initialSize with
  | none => rfl
  | some s =>
    obtain ⟨offset, info, hhead, hoff⟩ := hb.accessible hr
    exact (h.recorded s hinit).2.readable offset info hhead hoff

/-- A request that may not use the size has not changed it. -/
theorem versionList_eq_nil (h : Current e.2 chunk c₀ c) (hr : c₀.resizing = .non_accessible) :
    c.size.versionList = [] := by
  rw [List.eq_nil_iff_forall_not_mem]
  intro v hv
  have hallowed := h.kept.sizes v hv
  rw [SizeAllowed, hr] at hallowed
  exact hallowed

/-- An operation does what it does with the size of now. -/
theorem exec (hb : Built index heap e c₀) (h : Current e.2 chunk c₀ c) (version : Nat)
    {op : ChunkOp} (hop : op.Discreet c₀.resizing) :
    (c.exec chunk version op).1 = ((c.recorded chunk).exec chunk version op).1 ∧
      SameInfo (c.exec chunk version op).2 ((c.recorded chunk).exec chunk version op).2 ∧
      Current e.2 chunk c₀ (c.exec chunk version op).2 := by
  have hkept := h.kept.exec hb.sizeBound_le version op
  have hafter : SameInfo (c.exec chunk version op).2 ((c.recorded chunk).exec chunk version op).2 →
      Kept chunk c₀ ((c.exec chunk version op).2.recorded chunk) := fun hsame => by
    rw [hsame.recorded chunk]
    exact hkept.recorded
  by_cases hsize : c.initialSize.getD chunk.getsize = chunk.getsize
  · obtain ⟨h1, h2, h3⟩ := exec_recorded hsize version op
    refine ⟨h1, h2, hafter h2, fun s hs => ?_⟩
    obtain hinit | heq := h3
    · exact h.recorded s (hinit ▸ hs)
    · rw [heq] at hs
      obtain hnone | hsome := hkept.initialSize
      · rw [hnone] at hs
        cases hs
      · obtain rfl := Option.some.inj (hsome.symm.trans hs)
        exact ⟨Kept.getsize_lt chunk, .refl _⟩
  -- another size is recorded, so the request may not use the size
  have hr : c₀.resizing = .non_accessible := by
    by_contra hr
    exact hsize (h.getD_of_accessible hb hr)
  obtain ⟨s, hs⟩ : ∃ s, c.initialSize = some s := by
    cases hinit : c.initialSize with
    | none =>
      rw [hinit] at hsize
      exact absurd rfl hsize
    | some s => exact ⟨s, rfl⟩
  obtain ⟨hlt, hagree⟩ := h.recorded s hs
  have ht : Twin AsksBytes e.2 c (c.recorded chunk) :=
    Twin.of_sameInfo (sameInfo_recorded c chunk) hs rfl hlt hagree
  have ha : ChunksAgree AsksBytes e.2 chunk chunk := ChunksAgree.refl chunk
  obtain ⟨hresult, ht'⟩ : (c.exec chunk version op).1 =
    ((c.recorded chunk).exec chunk version op).1 ∧
      Twin AsksBytes e.2 (c.exec chunk version op).2
        ((c.recorded chunk).exec chunk version op).2 := by
    cases op with
    | load offset index n =>
      obtain ⟨h1, h2⟩ := ht.onBlock hb h.kept ha offset fun b base base' h =>
        read_congr h version index n
      exact ⟨congrArg (Except.map _) h1, h2⟩
    | store offset index value =>
      obtain ⟨h1, h2⟩ := ht.onBlock hb h.kept ha offset fun b base base' h =>
        write_congr h version index value
      exact ⟨congrArg (Except.map _) h1, h2⟩
    | addInt offset n value =>
      obtain ⟨h1, h2⟩ := ht.onBlock hb h.kept ha offset (f := fun b _ =>
        AccessBlock.addInt b version n value) fun _ _ _ _ => rfl
      exact ⟨congrArg (Except.map _) h1, h2⟩
    | isValid offset n =>
      obtain ⟨h1, h2⟩ := ht.isValid hb h.kept ha version offset n hop
      exact ⟨congrArg (Except.map _) h1, h2⟩
    | getChunkSize =>
      obtain ⟨h1, h2⟩ := ht.getChunkSize hb h.kept ha version
      exact ⟨congrArg (Except.map _) h1, h2⟩
    | updateChunkSize newSize => exact absurd hr hop
  refine ⟨hresult, ht'.sameInfo, hafter ht'.sameInfo, fun s' hs' => ?_⟩
  obtain ⟨hnone, -⟩ | ⟨s₁, s₂, h1, h2, hlt', hagree'⟩ := ht'.initialSize
  · rw [hnone] at hs'
    cases hs'
  · obtain rfl := Option.some.inj (h1.symm.trans hs')
    obtain hnone | hsome := hkept.initialSize
    · rw [hnone] at h2
      cases h2
    · obtain rfl := Option.some.inj (hsome.symm.trans h2)
      exact ⟨hlt', hagree'⟩

/-- Nothing that the request can tell apart has changed in the chunk. -/
theorem agree (hb : Built index heap e c₀) (h : Current e.2 chunk c₀ c)
    (ha : ChunksAgree AsksBytes e.2 chunk chunk') :
    Current e.2 chunk' c₀ c := by
  have hk := h.kept
  refine ⟨⟨hk.keys, hk.blocks, hk.ptr, hk.resizing, hk.sizeBound, .inr rfl, hk.size_width,
    hk.size_type, fun v hv => ?_⟩,
    fun s hs => ⟨(h.recorded s hs).1, (h.recorded s hs).2.trans ha.sizes⟩⟩
  by_cases hr : c₀.resizing = .non_accessible
  · have hnil : (c.recorded chunk').size.versionList = [] := h.versionList_eq_nil hr
    rw [hnil] at hv
    cases hv
  · obtain ⟨offset, info, hhead, hoff⟩ := hb.accessible hr
    rw [← ha.sizes.readable offset info hhead hoff]
    exact hk.sizes v hv

/-- An operation gives the same on chunks that the request cannot tell apart. -/
theorem exec_agree (hb : Built index heap e c₀) (h : Current e.2 chunk c₀ c)
    (h' : Current e.2 chunk' c₀ c') (hsame : SameInfo c c')
    (ha : ChunksAgree AsksBytes e.2 chunk chunk') (version : Nat) {op : ChunkOp}
    (hop : op.Discreet c₀.resizing) :
    (c.exec chunk version op).1 = (c'.exec chunk' version op).1 ∧
    SameInfo (c.exec chunk version op).2 (c'.exec chunk' version op).2 := by
  obtain ⟨h1, h2, -⟩ := h.exec hb version hop
  obtain ⟨h1', h2', -⟩ := h'.exec hb version hop
  have ht : Twin AsksBytes e.2 (c.recorded chunk) (c'.recorded chunk') :=
    Twin.of_sameInfo hsame rfl rfl (Kept.getsize_lt chunk) ha.sizes
  have hasks : ∀ offset n, op = .isValid offset n → AsksBytes n := by
    rintro offset n rfl
    exact hop
  obtain ⟨hresult, ht'⟩ := ht.exec hb h.kept h'.kept ha version op hasks
  have hno : ¬ Twin.Probes c₀.resizing chunk.getsize chunk'.getsize op := by
    cases op with
    | updateChunkSize newSize => exact fun hp => hop hp.1
    | _ => exact id
  exact ⟨h1.trans ((hresult.mpr hno).trans h1'.symm), h2.trans (ht'.sameInfo.trans h2'.symm)⟩

end Current
end Argennon
