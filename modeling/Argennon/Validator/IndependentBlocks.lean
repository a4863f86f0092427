import Argennon.Heap.WriteCommute
import Argennon.Storage.RecordedSize
import Argennon.Validator.CliqueSoundness

/- Two requests whose blocks of a chunk do not collide.

   What the one writes back to the chunk the other cannot tell apart (`ChunksAgree.of_frame`), and
   the two may be written back in any order (`Current.writeToHeap_swaps`). -/
namespace Argennon

open VersionStack CommutingActions RequestScheduler

/-! ## Collisions -/

/-- A declared block, as the verifier sees it. -/
def asPlaced (b : Int × AccessBlockInfo) : PlacedBlock := ⟨b.1, b.2⟩

/-- Two blocks of which one request may see what the other does to the other one. -/
def PairCollides (getSizeLowerBound : Except Exn Int) (a b : PlacedBlock) : Prop :=
  MemoryCollision a b ∨ SizeCollision a b ∨ SizeCollision b a ∨
    ResizingCollision getSizeLowerBound a b ∨
    ResizingCollision getSizeLowerBound b a

theorem PairCollides.symm {lower : Except Exn Int} {a b : PlacedBlock}
    (h : PairCollides lower a b) : PairCollides lower b a := by
  obtain h | h | h | h | h := h
  · exact .inl h.symm
  · exact .inr (.inr (.inl h))
  · exact .inr (.inl h)
  · exact .inr (.inr (.inr (.inr h)))
  · exact .inr (.inr (.inr (.inl h)))

/-- The blocks that two requests declare for a chunk collide. -/
def BlocksCollide (getSizeLowerBound : Except Exn Int)
    (blocks blocks' : List (Int × AccessBlockInfo)) : Prop :=
  ∃ a ∈ blocks, ∃ b ∈ blocks', PairCollides getSizeLowerBound (asPlaced a) (asPlaced b)

theorem BlocksCollide.symm {lower : Except Exn Int} {blocks blocks' : List (Int × AccessBlockInfo)}
    (h : BlocksCollide lower blocks blocks') :
    BlocksCollide lower blocks' blocks := by
  obtain ⟨a, ha, b, hb, hcol⟩ := h
  exact ⟨b, hb, a, ha, hcol.symm⟩

/-- The sizes of the memory blocks are what they are as unsigned numbers. -/
def SizesFit (blocks : List (Int × AccessBlockInfo)) : Prop :=
  ∀ b ∈ blocks, 0 ≤ b.1 → (toUInt32 b.2.size : Int) = b.2.size

namespace ChunkIndex
variable {index : ChunkIndex} {heap : Heap} {e : FullID × List (Int × AccessBlockInfo)}
  {c₀ : ChunkInfo AccessBlock}

/-- A block that is built lies in a chunk, so its size is not negative. -/
theorem Built.sizesFit (hb : Built index heap e c₀) (h32 : ∀ b ∈ e.2, IsInt32 b.2.size) :
    SizesFit e.2 := by
  intro b hmem h0
  obtain ⟨-, hblocks, -⟩ := hb.admitted
  have hfits := (hblocks b hmem).2 h0
  have hcapacity : (heap e.1).capacity ≤ 64 * 1024 := (heap e.1).capacity_le
  obtain hneg | hpos := lt_or_ge b.2.size 0
  · have := toUInt32_neg (h32 b hmem) hneg
    omega
  · exact toUInt32_nonneg (h32 b hmem) hpos

/-- A chunk that a request may resize has proposed bounds. -/
theorem Built.lowerBound (hb : Built index heap e c₀) (hr : c₀.resizing.resizable) :
    ∃ lower, index.getSizeLowerBound e.1 = .ok lower ∧ lower ≤ (heap e.1).getsize := by
  obtain ⟨info, -, ⟨bounds, hat, hadm⟩, -⟩ := hb.resizable hr
  refine ⟨bounds.sizeLowerBound, ?_, hadm.lower⟩
  unfold getSizeLowerBound
  rw [hat]

end ChunkIndex

/-! ## What the other request sees -/

section
variable {lower : Except Exn Int} {blocks blocks' : List (Int × AccessBlockInfo)} {old new : Nat}
  {X X' : Chunk}

/-- A declared change of the size. -/
theorem SizesAgree.of_declared (hind : ¬ BlocksCollide lower blocks blocks')
    (hfit : SizesFit blocks')
    (hlower : ∃ l, lower = .ok l ∧ l ≤ old) (h : DeclaredSize blocks old new) :
    SizesAgree AsksBytes blocks' old new := by
  obtain ⟨info, hhead, hchange⟩ := h
  have hmem : ((-1, info) : Int × AccessBlockInfo) ∈ blocks := List.mem_of_mem_head? hhead
  constructor
  · intro offset info' hhead' hoff
    refine absurd ⟨_, hmem, _, List.mem_of_mem_head? hhead', .inr (.inl ⟨rfl, hoff⟩)⟩ hind
  · intro b hb h0 n hn hle
    by_contra hne
    -- the block begins below the end of the change, and reaches over its start
    refine hind ⟨_, hmem, b, hb, .inr (.inr (.inr (.inl ⟨rfl, h0, ?_⟩)))⟩
    have hend : (asPlaced b).collidingEnd = b.1 + b.2.size := rfl
    have hsize := hfit b hb h0
    have hoffset : (asPlaced b).offset = b.1 := rfl
    have hsizeA : (asPlaced (-1, info)).info.size = info.size := rfl
    rw [hend, hoffset, hsizeA]
    obtain ⟨hpos, h1, h2⟩ | ⟨hnpos, h1, h2⟩ := hchange
    · obtain ⟨l, hl, hle'⟩ := hlower
      rw [if_pos hpos]
      exact ⟨⟨l, hl, by omega⟩, by omega⟩
    · rw [if_neg (by omega)]
      omega

/-- A write-back that does not collide with these blocks. -/
theorem ChunksAgree.of_frame (hind : ¬ BlocksCollide lower blocks blocks') (hfit : SizesFit blocks)
    (hfit' : SizesFit blocks')
    (hlower : DeclaredSize blocks X.getsize X'.getsize → ∃ l, lower = .ok l ∧ l ≤ X.getsize)
    (h : ChunkFrame (DeclaredWrite blocks) (DeclaredSize blocks) X X') :
    ChunksAgree AsksBytes blocks' X X' := by
  constructor
  · intro b hb htype h0 i hlow hhigh
    have hsize := hfit' b hb h0
    have hnat : ((i.toNat : Nat) : Int) = i := Int.toNat_of_nonneg (by omega)
    obtain hin | hout := lt_or_ge i.toNat X'.getsize
    · refine (h.below _ hin ?_).symm
      rintro ⟨a, ha, hmay, ha0, halow, hahigh⟩
      have hasize := hfit a ha ha0
      refine hind ⟨a, ha, b, hb, .inl ⟨ha0, h0, ?_, ?_, ?_⟩⟩
      · have hend : (asPlaced a).collidingEnd = a.1 + a.2.size := rfl
        have hend' : (asPlaced b).collidingEnd = b.1 + b.2.size := rfl
        have hoff : (asPlaced a).offset = a.1 := rfl
        have hoff' : (asPlaced b).offset = b.1 := rfl
        rw [hend, hend', hoff, hoff']
        omega
      · change a.2.accessType.collides b.2.accessType = true
        obtain htype | htype := htype <;> rw [htype] <;> cases ha' : a.2.accessType <;>
          first | rfl | (rw [ha'] at hmay; cases hmay)
      · change (a.2.accessType.isAdditive && a.2.accessType == b.2.accessType && a.1 ==
          b.1 && a.2.size == b.2.size) = false
        obtain htype | htype := htype <;> rw [htype] <;> cases a.2.accessType <;> rfl
    · obtain hsame | ⟨hlt, -⟩ := h.beyond _ hout
      · exact hsame.symm
      · -- a byte that was given up
        exfalso
        obtain heq | ⟨info, hhead, hchange⟩ := h.size
        · omega
        refine hind ⟨_, List.mem_of_mem_head? hhead, b, hb, .inr (.inr (.inr (.inl ⟨rfl, h0, ?_⟩)))⟩
        have hend : (asPlaced b).collidingEnd = b.1 + b.2.size := rfl
        have hsizeA : (asPlaced (-1, info)).info.size = info.size := rfl
        rw [hend, hsizeA, if_neg (by omega)]
        omega
  · obtain heq | hdeclared := h.size
    · rw [heq]
      exact .refl _
    · exact .of_declared hind hfit' (hlower hdeclared) hdeclared

end
/-! ## The write-back -/

namespace ChunkInfo

/-- What `writeToHeap` does with a chunk once its size is read. -/
def writeBack (c : ChunkInfo AccessBlock) (writable : Bool) (version size : Nat) (X : Chunk) :
    Except Exn Chunk :=
  c.resizeTo X size >>= fun X => if writable then writeBlocks version size c.accessTable.entries X
    else .ok X

theorem resizeTo_isWritable {c : ChunkInfo AccessBlock} {X X' : Chunk} {size : Nat}
    (h : c.resizeTo X size = .ok X') :
    X'.isWritable = X.isWritable := by
  unfold resizeTo at h
  split at h
  · exact (setSize_frame h).2.1
  · rw [← Except.ok.inj h]

theorem writeToHeap_eq {c c' : ChunkInfo AccessBlock} {X : Chunk} {version size : Nat}
    (h : c.readSize X version = (.ok size, c')) :
    c.writeToHeap version X = c.writeBack X.isWritable version size X := by
  unfold writeToHeap writeBack
  rw [h]
  change (c.resizeTo X size >>= _) = _
  cases hresize : c.resizeTo X size with
  | error e => rfl
  | ok X' =>
    change (if size > 0 ∧ X'.isWritable = true then _ else _) = if X.isWritable = true then _ else _
    rw [resizeTo_isWritable hresize]
    obtain rfl | hpos := Nat.eq_zero_or_pos size
    · -- in a chunk without bytes there is nothing to write
      rw [if_neg (by simp), writeBlocks_outside version (fun kb _ => Nat.zero_le _) X', ite_self]
    · simp only [gt_iff_lt, hpos, true_and]

end ChunkInfo

namespace Current
open ChunkIndex
variable {index : ChunkIndex} {heap : Heap} {e : FullID × List (Int × AccessBlockInfo)} {X : Chunk}
  {c₀ c : ChunkInfo AccessBlock}

/-- No byte of a block is between sizes that the declared blocks do not tell apart. -/
theorem sameBytesIn (hb : Built index heap e c₀) (h : Current e.2 X c₀ c) {n n' : Nat}
    (ha : SizesAgree AsksBytes e.2 n n') :
    ∀ kb ∈ c.accessTable.entries, SameBytesIn n n' kb := by
  intro kb hkb k h0 hk
  have hentry : (kb.1, kb.2) ∈ c.accessTable.entries := hkb
  obtain ⟨-, d, hd, hd0, hoff, hsize, -⟩ := hb.declared h.kept hentry
  have hvalid := ha.valid d hd hd0 k h0 (hsize ▸ hk)
  rwa [hoff] at hvalid

theorem sorted (h : Current e.2 X c₀ c) (hp : Placed c₀) :
    c.accessTable.entries.Pairwise fun kb kb' => kb.1 < kb'.1 := by
  have hkeys : c.accessTable.keys = c₀.accessTable.keys := h.kept.keys
  have hsorted : c₀.accessTable.keys.Pairwise (· < ·) := by
    rw [← c₀.accessTable.map_fst_entries]
    exact List.pairwise_map.mpr (hp.apart.imp And.left)
  rw [← hkeys, ← c.accessTable.map_fst_entries] at hsorted
  exact List.pairwise_map.mp hsorted

theorem size_readable (h : Current e.2 X c₀ c) : c.size.accessType.denies .read = false := by
  have htype : c.size.accessType = if c₀.resizing.resizable then .writable else .read_only :=
    h.kept.size_type
  rw [htype]
  split <;> rfl

theorem resizeTo_eq (h : Current e.2 X c₀ c) (hr : c₀.resizing.resizable = false) (Y : Chunk)
    (size : Nat) : c.resizeTo Y size = .ok Y := by
  have hresizing : c.resizing = c₀.resizing := h.kept.resizing
  rw [ChunkInfo.resizeTo, hresizing, hr]
  rfl

/-- A chunk that is not resized is written back in the same way with sizes that the
blocks do not tell apart. -/
theorem writeBack_agree (hb : Built index heap e c₀) (h : Current e.2 X c₀ c) (hp : Placed c₀)
    (hr : c₀.resizing.resizable = false)
    {n n' : Nat} (ha : SizesAgree AsksBytes e.2 n n') (writable : Bool) (version : Nat)
    (Y : Chunk) :
    c.writeBack writable version n Y = c.writeBack writable version n' Y := by
  rw [ChunkInfo.writeBack, ChunkInfo.writeBack, h.resizeTo_eq hr, h.resizeTo_eq hr]
  cases writable with
  | false => rfl
  | true => exact writeBlocks_agree (h.sorted hp) (h.sameBytesIn hb ha) Y

/-- The write-back goes by the size of now. -/
theorem writeToHeap_eq (hb : Built index heap e c₀) (h : Current e.2 X c₀ c) (hp : Placed c₀)
    (version : Nat) :
    c.writeToHeap version X =
      c.writeBack X.isWritable version ((c.recorded X).shownSize X version) X := by
  by_cases hsize : c.initialSize.getD X.getsize = X.getsize
  · have hread := ChunkInfo.readSize_eq (c := c.recorded X) X version h.kept.size_width
      h.size_readable (Kept.getsize_lt X)
    rw [← ChunkInfo.readSize_recorded hsize] at hread
    exact ChunkInfo.writeToHeap_eq hread
  -- the size that is recorded is another one, so the request may not use the size
  have hr : c₀.resizing = .non_accessible := by
    by_contra hr
    exact hsize (h.getD_of_accessible hb hr)
  cases hinit : c.initialSize with
  | none =>
    rw [hinit] at hsize
    exact absurd rfl hsize
  | some s =>
    obtain ⟨hlt, hagree⟩ := h.recorded s hinit
    have hread := ChunkInfo.readSize_eq (c := c) X version h.kept.size_width h.size_readable
      (by rwa [hinit])
    rw [ChunkInfo.writeToHeap_eq hread]
    have hshown : c.shownSize X version = s := by
      rw [ChunkInfo.shownSize, h.versionList_eq_nil hr, hinit]
      rfl
    have hshown' : (c.recorded X).shownSize X version = X.getsize := by
      rw [ChunkInfo.shownSize, ChunkInfo.recorded, h.versionList_eq_nil hr]
      rfl
    rw [hshown, hshown']
    exact h.writeBack_agree hb hp (by rw [hr]; rfl) hagree _ version X

theorem writeToHeap_recorded (hb : Built index heap e c₀) (h : Current e.2 X c₀ c) (hp : Placed c₀)
    (version : Nat) :
    c.writeToHeap version X = (c.recorded X).writeToHeap version X := by
  have hread := ChunkInfo.readSize_eq (c := c.recorded X) X version h.kept.size_width
    h.size_readable (Kept.getsize_lt X)
  rw [h.writeToHeap_eq hb hp, ChunkInfo.writeToHeap_eq hread]
  rfl

end Current

/-- What the map of a request declares for a chunk, built as `c₀`. The bound of a shrinkage is not
under the proposed bound. -/
structure Declared (index : ChunkIndex) (heap₀ : Heap) (Resized : FullID → Prop)
    (e : FullID × List (Int × AccessBlockInfo))
    (c₀ : ChunkInfo AccessBlock) : Prop where
  built : ChunkIndex.Built index heap₀ e c₀
  placed : Placed c₀
  sizesFit : SizesFit e.2
  reserved : c₀.resizing = .expandable → c₀.sizeBound ≤ (heap₀ e.1).capacity
  resized : c₀.resizing.resizable → Resized e.1
  shrink : c₀.resizing = .shrinkable → ∀ l, index.getSizeLowerBound e.1 = .ok l → l ≤ c₀.sizeBound

/-- A chunk of the heap while a block is executed. -/
structure InBounds (index : ChunkIndex) (heap₀ : Heap) (Resized : FullID → Prop) (id : FullID)
    (X : Chunk) : Prop where
  capacity : X.capacity = (heap₀ id).capacity
  isWritable : X.isWritable = (heap₀ id).isWritable
  lower : Resized id → ∀ l, index.getSizeLowerBound id = .ok l → l ≤ X.getsize

section
open ChunkIndex
variable {index : ChunkIndex} {heap₀ : Heap} {Resized : FullID → Prop}
  {e e' : FullID × List (Int × AccessBlockInfo)} {X X' : Chunk}
  {c₀ c₀' c c' : ChunkInfo AccessBlock}

/-- A change of the size is over a proposed bound. -/
theorem Declared.lower (hd : Declared index heap₀ Resized e c₀)
    (hx : InBounds index heap₀ Resized e.1 X) (hr : c₀.resizing.resizable) :
    ∃ l, index.getSizeLowerBound e.1 = .ok l ∧ l ≤ X.getsize := by
  obtain ⟨l, hl, -⟩ := hd.built.lowerBound hr
  exact ⟨l, hl, hx.lower (hd.resized hr) l hl⟩

theorem SizeAllowed.resizable {old new : Nat} (h : SizeAllowed c₀ old new) :
    c₀.resizing.resizable := by
  cases hr : c₀.resizing <;> simp [SizeAllowed, hr, ResizingType.resizable] at h ⊢

/-- The write-back of a chunk stays in its bounds. -/
theorem Declared.writeToHeap (hd : Declared index heap₀ Resized e c₀)
    (hx : InBounds index heap₀ Resized e.1 X) (h : Current e.2 X c₀ c)
    {version : Nat} (hwrite : c.writeToHeap version X = .ok X') :
    InBounds index heap₀ Resized e.1 X' ∧
      ChunkFrame (DeclaredWrite e.2)
        (DeclaredSize e.2) X X' ∧ (c₀.resizing.resizable = false → X'.getsize = X.getsize) := by
  rw [h.writeToHeap_recorded hd.built hd.placed] at hwrite
  have hframe := (h.kept.writeToHeap version hd.placed.heapLocation fun hexp =>
    hx.capacity ▸ hd.reserved hexp).2 X' hwrite
  refine ⟨⟨hframe.capacity.trans hx.capacity, hframe.isWritable.trans hx.isWritable,
    fun hresized l hl => ?_⟩,
    hframe.mono (fun i hw => hd.built.writes hw) hd.built.sizeAllowed, fun hr => ?_⟩
  · have hlow := hx.lower hresized l hl
    obtain heq | hallowed := hframe.size
    · rwa [heq]
    · cases hr : c₀.resizing with
      | expandable =>
        simp only [SizeAllowed, hr] at hallowed
        omega
      | shrinkable =>
        have := hd.shrink hr l hl
        simp only [SizeAllowed, hr] at hallowed
        omega
      | read_only => simp only [SizeAllowed, hr] at hallowed
      | non_accessible => simp only [SizeAllowed, hr] at hallowed
  · obtain heq | hallowed := hframe.size
    · exact heq
    · rw [hallowed.resizable] at hr
      cases hr

/-- What the one request writes back, the other does not see. -/
theorem Declared.agree (hd : Declared index heap₀ Resized e c₀) (hfit : SizesFit e'.2)
    (hx : InBounds index heap₀ Resized e.1 X)
    (hind : ¬ BlocksCollide (index.getSizeLowerBound e.1) e.2 e'.2) (h : Current e.2 X c₀ c)
    {version : Nat}
    (hwrite : c.writeToHeap version X = .ok X') : ChunksAgree AsksBytes e'.2 X X' := by
  obtain ⟨-, hframe, -⟩ := hd.writeToHeap hx h hwrite
  exact .of_frame hind hd.sizesFit hfit (fun hsize =>
    hd.lower hx (hd.built.resizable_of_declared hsize)) hframe

/-! ## Both write-backs -/

/-- Two blocks that may be written. -/
theorem mayCommute (hd : Declared index heap₀ Resized e c₀)
    (hd' : Declared index heap₀ Resized e' c₀')
    (hx : InBounds index heap₀ Resized e.1 X) (h : Current e.2 X c₀ c) (h' : Current e'.2 X c₀' c')
    (hind : ¬ BlocksCollide (index.getSizeLowerBound e.1) e.2 e'.2) {n n' : Nat}
    (ha : SizesAgree AsksBytes e'.2 n' n) {kb kb' : Nat × AccessBlock}
    (hkb : kb ∈ c.accessTable.entries) (hkb' : kb' ∈ c'.accessTable.entries) :
    MayCommute X.content.length kb.2 (n - kb.1) kb'.2 (n' - kb'.1) := by
  obtain ⟨⟨hloc, hpassive⟩, -⟩ := h.kept.entries_kept hd.placed.heapLocation kb hkb
  obtain ⟨⟨hloc', hpassive'⟩, -⟩ := h'.kept.entries_kept hd'.placed.heapLocation kb' hkb'
  cases hmay : kb.2.accessType.mayWrite with
  | false => exact .inl (hpassive hmay)
  | true =>
    cases hmay' : kb'.2.accessType.mayWrite with
    | false => exact .inr (.inl (hpassive' hmay'))
    | true =>
      have hentry : (kb.1, kb.2) ∈ c.accessTable.entries := hkb
      have hentry' : (kb'.1, kb'.2) ∈ c'.accessTable.entries := hkb'
      obtain ⟨-, d, hdm, hd0, hoff, hsize, htype⟩ := hd.built.declared h.kept hentry
      obtain ⟨-, d', hdm', hd0', hoff', hsize', htype'⟩ := hd'.built.declared h'.kept hentry'
      have hfit := hd.sizesFit d hdm hd0
      have hfit' := hd'.sizesFit d' hdm' hd0'
      have hnat : ((d.1.toNat : Nat) : Int) = d.1 := Int.toNat_of_nonneg hd0
      have hnat' : ((d'.1.toNat : Nat) : Int) = d'.1 := Int.toNat_of_nonneg hd0'
      right
      right
      cases hsame : additiveSameBlock (asPlaced d) (asPlaced d') with
      | true =>
        right
        have hparts : ((d.2.accessType.isAdditive = true ∧ d.2.accessType = d'.2.accessType) ∧
            d.1 = d'.1) ∧ d.2.size = d'.2.size := by
          simpa only [additiveSameBlock, asPlaced, Bool.and_eq_true, beq_iff_eq] using hsame
        obtain ⟨⟨⟨hadd, htypes⟩, hoffsets⟩, hsizes⟩ := hparts
        have hplace : kb.1 = kb'.1 := by rw [← hoff, ← hoff', hoffsets]
        have hwidth : kb.2.size = kb'.2.size := by rw [hsize, hsize', hsizes]
        have hin : kb.1 + kb.2.size ≤ X.capacity := by
          have hfits := (hd.built.admitted.2.1 d hdm).2 hd0
          rw [hx.capacity, ← hoff, hsize]
          exact hfits
        refine ⟨by rwa [htype], by rwa [htype', ← htypes], by rw [hloc, hloc', hplace], ?_,
          by rwa [hloc]⟩
        rw [(h'.sameBytesIn hd'.built ha kb' hkb').min_eq, hplace, hwidth]
      | false =>
        left
        have hcollides : d.2.accessType.collides d'.2.accessType = true := by
          rw [htype] at hmay
          rw [htype'] at hmay'
          revert hmay hmay'
          cases d.2.accessType <;> cases d'.2.accessType <;> decide
        intro i h1 h2 h3
        by_contra hlt
        refine hind ⟨d, hdm, d', hdm', .inl ⟨hd0, hd0', ?_, hcollides, hsame⟩⟩
        have hend : (asPlaced d).collidingEnd = d.1 + d.2.size := rfl
        have hend' : (asPlaced d').collidingEnd = d'.1 + d'.2.size := rfl
        have hplace : (asPlaced d).offset = d.1 := rfl
        have hplace' : (asPlaced d').offset = d'.1 := rfl
        rw [hend, hend', hplace, hplace']
        omega

/-- The blocks that are reached. -/
def reached (writable : Bool) (size : Nat) (l : List (Nat × AccessBlock)) :
    List (Nat × AccessBlock) :=
  if writable then l.takeWhile fun kb => kb.1 < size else []

theorem mem_of_mem_reached {writable : Bool} {size : Nat} {l : List (Nat × AccessBlock)}
    {kb : Nat × AccessBlock}
    (h : kb ∈ reached writable size l) : kb ∈ l := by
  unfold reached at h
  split at h
  · exact (List.takeWhile_sublist _).subset h
  · cases h

/-- The size first, and then the blocks one after the other. -/
theorem writeBack_eq (c : ChunkInfo AccessBlock) (writable : Bool) (version size : Nat) :
    c.writeBack writable version size =
    fun X => c.resizeTo X size >>=
      fun X => (reached writable size c.accessTable.entries).foldlM (writeOne version size) X := by
  funext X
  refine bind_congr fun Y => ?_
  cases writable with
  | false => rfl
  | true => exact writeBlocks_eq version size _ Y

section
variable {n size size' : Nat}

theorem resizeTo_keeps (c : ChunkInfo AccessBlock) (size : Nat) :
    Preserves (HasCapacity n) fun X => c.resizeTo X size := by
  intro X X' hX hX'
  simp only [ChunkInfo.resizeTo] at hX'
  split at hX'
  · exact setSize_keeps size X X' hX hX'
  · exact Except.ok.inj hX' ▸ hX

theorem resizeTo_steady (c : ChunkInfo AccessBlock) (size : Nat) :
    Steady (HasCapacity n) fun X => c.resizeTo X size := by
  intro X X' e hX hX' he
  simp only [ChunkInfo.resizeTo] at he ⊢
  split at he
  · rename_i hr
    rw [if_pos hr]
    exact setSize_steady size X X' e hX hX' he
  · cases he

theorem writeBack_keeps (c : ChunkInfo AccessBlock) (writable : Bool) (version size : Nat) :
    Preserves (HasCapacity n) (c.writeBack writable version size) := by
  rw [writeBack_eq]
  exact Preserves.bind (resizeTo_keeps c size) (Preserves.foldlM fun kb _ =>
    wrToHeap_keeps kb.2 version _)

theorem writeBack_steady (c : ChunkInfo AccessBlock) (writable : Bool) (version size : Nat) :
    Steady (HasCapacity n) (c.writeBack writable version size) := by
  rw [writeBack_eq]
  exact Steady.bind (resizeTo_keeps c size) (resizeTo_steady c size)
    (Steady.foldlM (fun kb _ => wrToHeap_keeps kb.2 version _) fun kb _ =>
      wrToHeap_steady kb.2 version _)

/-- The second request does not resize the chunk, and what it writes stays in it. -/
theorem writeBack_commute {c c' : ChunkInfo AccessBlock} (writable : Bool) (version version' : Nat)
    (hfixed : c'.resizing.resizable = false)
    (hmay : ∀ kb ∈ c.accessTable.entries, ∀ kb' ∈ c'.accessTable.entries, MayCommute n kb.2
      (size - kb.1) kb'.2 (size' - kb'.1))
    (hin : c.resizing.resizable → size ≤ n ∧
      ∀ kb' ∈ c'.accessTable.entries, 0 < min kb'.2.size (size' - kb'.1) →
        kb'.2.heapLocation + min kb'.2.size (size' - kb'.1) ≤ size) :
    CommutesOn (HasCapacity n) (c.writeBack writable version size)
      (c'.writeBack writable version' size') := by
  have hright : c'.writeBack writable version' size' = fun X =>
      (reached writable size' c'.accessTable.entries).foldlM (writeOne version' size') X := by
    rw [writeBack_eq]
    funext X
    have hsame : c'.resizeTo X size' = .ok X := by
      unfold ChunkInfo.resizeTo
      rw [hfixed]
      rfl
    rw [hsame]
    rfl
  rw [hright, writeBack_eq]
  refine CommutesOn.bind (resizeTo_keeps c size) ?_ ?_
  · -- the size and the blocks of the second request
    by_cases hr : c.resizing.resizable
    · obtain ⟨hle, hinside⟩ := hin hr
      have hset : (fun X => c.resizeTo X size) = fun X => Chunk.setSize X size := by
        funext X
        exact if_pos hr
      rw [hset]
      exact (CommutesOn.foldlM (fun kb' _ => wrToHeap_keeps kb'.2 version' _)
        fun kb' hkb' => wrToHeap_setSize hle fun _ => hinside kb' (mem_of_mem_reached hkb')).symm
    · have hset : (fun X => c.resizeTo X size) = Except.ok := by
        funext X
        exact if_neg hr
      rw [hset]
      exact CommutesOn.pure_left _
  · exact CommutesOn.foldlM₂ (fun kb _ => wrToHeap_keeps kb.2 version _) (fun kb' _ =>
      wrToHeap_keeps kb'.2 version' _)
      fun kb hkb kb' hkb' =>
        wrToHeap_commute (hmay kb (mem_of_mem_reached hkb) kb' (mem_of_mem_reached hkb'))

end

/-- The size that is written is the size of now, or one that is allowed. -/
theorem Current.shownSize_cases (h : Current e.2 X c₀ c) (version : Nat) :
    (c.recorded X).shownSize X version = X.getsize ∨
    SizeAllowed c₀ X.getsize ((c.recorded X).shownSize X version) := by
  obtain ⟨n, c', hread, -, hcases⟩ := h.kept.readSize version
  have hshown := ChunkInfo.readSize_eq (c := c.recorded X) X version h.kept.size_width
    h.size_readable (Kept.getsize_lt X)
  obtain rfl := Except.ok.inj (Prod.mk.inj (hshown.symm.trans hread)).1
  exact hcases

theorem Current.shownSize_fixed (h : Current e.2 X c₀ c) (hr : c₀.resizing.resizable = false)
    (version : Nat) :
    (c.recorded X).shownSize X version = X.getsize := by
  obtain hsame | hallowed := h.shownSize_cases version
  · exact hsame
  · rw [hallowed.resizable] at hr
    cases hr

theorem Current.shownSize_congr (c : ChunkInfo AccessBlock) {Y : Chunk} (h : Y.getsize = X.getsize)
    (version : Nat) :
    (c.recorded Y).shownSize Y version = (c.recorded X).shownSize X version := by
  have hsize : ∀ Z : Chunk, (c.recorded Z).shownSize Z version =
      ((view version c.size.versionList).map leNat).getD Z.getsize := fun _ => rfl
  rw [hsize, hsize, h]

/-- The other request does not see the size that is written. -/
theorem Declared.sizesAgree (hd : Declared index heap₀ Resized e c₀) (hfit : SizesFit e'.2)
    (hx : InBounds index heap₀ Resized e.1 X)
    (hind : ¬ BlocksCollide (index.getSizeLowerBound e.1) e.2 e'.2) (h : Current e.2 X c₀ c)
    (version : Nat) :
    SizesAgree AsksBytes e'.2 X.getsize ((c.recorded X).shownSize X version) := by
  obtain hsame | hallowed := h.shownSize_cases version
  · rw [hsame]
    exact .refl _
  · exact .of_declared hind hfit (hd.lower hx hallowed.resizable) (hd.built.sizeAllowed hallowed)

theorem Declared.shownSize_le (hd : Declared index heap₀ Resized e c₀)
    (hx : InBounds index heap₀ Resized e.1 X) (h : Current e.2 X c₀ c)
    (version : Nat) : (c.recorded X).shownSize X version ≤ X.content.length := by
  have hle : X.getsize ≤ X.content.length := X.size_le
  obtain hsame | hallowed := h.shownSize_cases version
  · rwa [hsame]
  · cases hr : c₀.resizing with
    | expandable =>
      have hbound : c₀.sizeBound ≤ X.capacity := hx.capacity ▸ hd.reserved hr
      simp only [SizeAllowed, hr] at hallowed
      exact hallowed.2.trans hbound
    | shrinkable =>
      simp only [SizeAllowed, hr] at hallowed
      exact hallowed.2.trans hle
    | read_only => simp only [SizeAllowed, hr] at hallowed
    | non_accessible => simp only [SizeAllowed, hr] at hallowed

/-- Requests whose blocks do not collide are written back in any order, if the second one does not
resize the chunk. -/
theorem writeToHeap_swaps_of_fixed (hd : Declared index heap₀ Resized e c₀)
    (hd' : Declared index heap₀ Resized e' c₀') (hid : e'.1 = e.1)
    (hx : InBounds index heap₀ Resized e.1 X) (h : Current e.2 X c₀ c) (h' : Current e'.2 X c₀' c')
    (hind : ¬ BlocksCollide (index.getSizeLowerBound e.1) e.2 e'.2)
    (hfixed : c₀'.resizing.resizable = false) (version version' : Nat) :
    Swaps (c.writeToHeap version) (c'.writeToHeap version') X := by
  have hx' : InBounds index heap₀ Resized e'.1 X := by rwa [hid]
  have hind' : ¬ BlocksCollide (index.getSizeLowerBound e'.1) e'.2 e.2 := by
    rw [hid]
    exact fun hcol => hind hcol.symm
  have hfirst := h.writeToHeap_eq hd.built hd.placed version
  have hsecond := h'.writeToHeap_eq hd'.built hd'.placed version'
  rw [h'.shownSize_fixed hfixed] at hsecond
  have ha := hd.sizesAgree hd'.sizesFit hx hind h version
  have hresizing : c'.resizing.resizable = false :=
    (congrArg ResizingType.resizable h'.kept.resizing).trans hfixed
  have hcommute := writeBack_commute X.isWritable version version' hresizing
    (fun kb hkb kb' hkb' => mayCommute hd hd' hx h h' hind ha hkb hkb') (fun hr =>
      ⟨?_, fun kb' hkb' hpos => ?_⟩)
  · have hswaps := hcommute.swaps (writeBack_keeps _ _ _ _) (writeBack_keeps _ _ _ _)
      (writeBack_steady _ _ _ _) (writeBack_steady _ _ _ _)
      (s := X) rfl
    refine hswaps.congr hfirst hsecond (fun Y hY => ?_) fun Y hY => ?_
    · rw [← hsecond] at hY
      obtain ⟨hy, -, hsame⟩ := hd'.writeToHeap hx' h' hY
      have hcurrent := h.agree hd.built (hd'.agree hd.sizesFit hx' hind' h' hY)
      rw [hcurrent.writeToHeap_eq hd.built hd.placed, Current.shownSize_congr c (hsame hfixed),
        hy.isWritable, hx'.isWritable]
    · rw [← hfirst] at hY
      obtain ⟨hy, -, -⟩ := hd.writeToHeap hx h hY
      have hagree := hd.agree hd'.sizesFit hx hind h hY
      have hcurrent := h'.agree hd'.built hagree
      rw [hcurrent.writeToHeap_eq hd'.built hd'.placed, hcurrent.shownSize_fixed hfixed,
        hy.isWritable, hx.isWritable]
      exact (h'.writeBack_agree hd'.built hd'.placed hfixed hagree.sizes _ version' Y).symm
  · exact hd.shownSize_le hx h version
  · have hloc' := (h'.kept.entries_kept hd'.placed.heapLocation kb' hkb').1.1
    rw [hloc']
    exact (h'.sameBytesIn hd'.built ha kb' hkb' _ hpos (Nat.min_le_left _ _)).mp (by omega)

/-- **Write-backs commute.** Requests whose blocks do not collide are written back in any order. -/
theorem writeToHeap_swaps (hd : Declared index heap₀ Resized e c₀)
    (hd' : Declared index heap₀ Resized e' c₀') (hid : e'.1 = e.1)
    (hx : InBounds index heap₀ Resized e.1 X) (h : Current e.2 X c₀ c) (h' : Current e'.2 X c₀' c')
    (hind : ¬ BlocksCollide (index.getSizeLowerBound e.1) e.2 e'.2) (version version' : Nat) :
    Swaps (c.writeToHeap version) (c'.writeToHeap version') X := by
  by_cases hr' : c₀'.resizing.resizable
  swap
  · exact writeToHeap_swaps_of_fixed hd hd' hid hx h h' hind (by simpa using hr') version version'
  by_cases hr : c₀.resizing.resizable
  · -- two writers of the size collide
    obtain ⟨info, hhead, -⟩ := hd.built.resizable hr
    obtain ⟨info', hhead', -⟩ := hd'.built.resizable hr'
    exact absurd ⟨_, List.mem_of_mem_head? hhead, _, List.mem_of_mem_head? hhead',
      .inr (.inl ⟨rfl, .inl rfl⟩)⟩ hind
  · have hind' : ¬ BlocksCollide (index.getSizeLowerBound e'.1) e'.2 e.2 := by
      rw [hid]
      exact fun hcol => hind hcol.symm
    exact (writeToHeap_swaps_of_fixed hd' hd hid.symm (by rwa [hid]) h' h hind' (by simpa using hr)
      version' version).symm

end
end Argennon
