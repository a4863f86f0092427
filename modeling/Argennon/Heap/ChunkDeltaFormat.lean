import Argennon.Heap.ChunkDelta

/- The documented format of a chunk's delta, what such a delta means, and when `applyDelta` does
   that: the content is always that of the blocks cut at the new size, but the cursor is not put
   behind the data that was cut. -/
namespace Argennon
open PrefixTrie

/-! ## The format -/

/-- The bytes of a number. -/
abbrev num (v : Nat) : List Byte := varUIntTrie.codeBytes v

/-- `offsetDiff dataSize data` -/
structure DeltaBlock where
  diff : Nat
  data : List Byte
  diff_pos : 0 < diff
  diff_lt : diff < varUIntTrie.capacity
  size_lt : data.length < varUIntTrie.capacity

namespace DeltaBlock

/-- `offsetDiff` is the distance from the end of the last block, plus one. -/
def start (b : DeltaBlock) (offset : Nat) : Nat := offset + (b.diff - 1)

def stop (b : DeltaBlock) (offset : Nat) : Nat := b.start offset + b.data.length

end DeltaBlock

/-- `(offsetDiff dataSize data)* 0` -/
def blockBytes : List DeltaBlock → List Byte
  | [] => num 0
  | b :: bs => num b.diff ++ (num b.data.length ++ (b.data ++ blockBytes bs))

/-- `[ chunkSize (offsetDiff dataSize data)* 0 ]` -/
structure ChunkDelta where
  sizeXor : Nat
  blocks : List DeltaBlock
  sizeXor_lt : sizeXor < varUIntTrie.capacity

def ChunkDelta.bytes (d : ChunkDelta) : List Byte := num d.sizeXor ++ blockBytes d.blocks

def ChunkDelta.newSize (d : ChunkDelta) (c : Chunk) : Nat := c.chunkSize ^^^ d.sizeXor

/-! ## What a delta means -/

/-- The content of a chunk, truncated or zero-extended to a size. -/
def Chunk.extended (c : Chunk) (size : Nat) : List Byte :=
  (c.content.take c.chunkSize ++ List.replicate (size - c.chunkSize) 0).take size

/-- The blocks, cut at the size, written one after the other. -/
def overlay (size : Nat) : Nat → List DeltaBlock → List Byte → List Byte
  | _, [], content => content
  | offset, b :: bs, content =>
    overlay size (b.stop offset) bs
      (writeAt content (b.start offset) (b.data.take (size - b.start offset)))

/-- The chunk is that of the delta, and the pointer is behind the delta. -/
def ChunkDelta.AppliedTo (d : ChunkDelta) (c : Chunk) (rest : List Byte) : Prop :=
  ∃ c', c.applyDelta (d.bytes ++ rest) = (c', .ok rest) ∧ c'.getsize = d.newSize c ∧
    c'.capacity = d.newSize c ∧
    c'.content = overlay (d.newSize c) 0 d.blocks (c.extended (d.newSize c))

/-! ## When the code does that -/

/-- A number is read before these bytes: the distance to the end, as an `int`,
is not shorter than it. -/
def Readable (v : Nat) (tail : List Byte) : Prop :=
  v < varUIntTrie.capacity ∧ ((num v).length : Int) ≤ toInt (num v ++ tail).length

instance (v : Nat) (tail : List Byte) : Decidable (Readable v tail) :=
  inferInstanceAs (Decidable (_ ∧ _))

/-- What is left of a block that was cut, and of the delta after it, reads as numbers that end the
loop where the delta ends. -/
inductive PassesOver (rest : List Byte) : List Byte → Prop
  /-- Nothing is left at all. -/
  | finished (h : rest = []) : PassesOver rest []
  /-- A terminator. -/
  | terminator (h : Readable 0 rest) : PassesOver rest (num 0)
  /-- A block past the new size. -/
  | past {diff n : Nat} (hdiff : 0 < diff) (hout : diff ≠ 1 ∨
    n ≠ 0) (hd : Readable diff (num n ++ rest)) (hn : Readable n rest) :
      PassesOver rest (num diff ++ num n)
  /-- An empty block at the new size. -/
  | empty {left : List Byte} (hd : Readable 1 (num 0 ++ (left ++ rest)))
    (hn : Readable 0 (left ++ rest)) (h : PassesOver rest left) :
      PassesOver rest (num 1 ++ (num 0 ++ left))

/-- The numbers of the blocks are read, and no block passes the new size, unless what is left of it
is passed over. -/
def BlocksPass (size : Nat) (rest : List Byte) : Nat → List DeltaBlock → Prop
  | _, [] => Readable 0 rest
  | offset, b :: bs =>
    Readable b.diff (num b.data.length ++ (b.data ++ blockBytes bs ++ rest)) ∧
      Readable b.data.length (b.data ++ blockBytes bs ++ rest) ∧
    if b.stop offset ≤ size then BlocksPass size rest (b.stop offset) bs
    else b.start offset < size ∧
      PassesOver rest (b.data.drop (size - b.start offset) ++ blockBytes bs)

/-- A byte is in a block. -/
def Covers (i : Nat) : Nat → List DeltaBlock → Prop
  | _, [] => False
  | offset, b :: bs => b.start offset ≤ i ∧ i < b.stop offset ∨ Covers i (b.stop offset) bs

/-- The memory past the size, as far as it comes into use without being written, is zero. -/
def ChunkDelta.TailZero (d : ChunkDelta) (c : Chunk) : Prop :=
  d.newSize c ≤ c.capacity → ∀ i, c.chunkSize ≤ i → i < d.newSize c → ¬ Covers i 0 d.blocks →
    c.content.getD i 0 = 0

/-! ## Numbers -/

theorem zero_lt_capacity : 0 < varUIntTrie.capacity := by decide +kernel

theorem num_ne_nil {v : Nat} (h : v < varUIntTrie.capacity) : num v ≠ [] :=
  varUIntTrie_accepted.codeBytes_ne_nil (by decide) h

theorem read_iff {reader next : List Byte} {v : Nat} :
    varUIntTrie.decodeVarUIntAt reader = .ok (v, next) ↔ reader = num v ++ next ∧
      Readable v next := by
  rw [varUIntTrie_accepted.decodeVarUIntAt_iff (by decide)]
  constructor
  · rintro ⟨hv, rfl, hmax⟩
    exact ⟨rfl, hv, hmax⟩
  · rintro ⟨rfl, hv, hmax⟩
    exact ⟨hv, rfl, hmax⟩

/-- One number stands at a place. -/
theorem num_inj {v v' : Nat} {tail tail' : List Byte} (hv : v < varUIntTrie.capacity)
    (h : num v ++ tail = num v' ++ tail')
    (hread : Readable v' tail') : v = v' ∧ tail = tail' :=
  varUIntTrie_accepted.codeBytes_append_inj (by decide) hv hread.1 h

/-! ## One round of the loop -/

/-- What a round reads, and the block it comes to. -/
inductive Round (size offset : Nat) : List Byte → Option (Nat × Nat) → List Byte → Prop
  | finished : Round size offset [] none []
  | terminator {next : List Byte} (h : Readable 0 next) :
    Round size offset (num 0 ++ next) none next
  | block {diff n : Nat} {next : List Byte} (hdiff : 0 < diff) (hd : Readable diff (num n ++ next))
    (hn : Readable n next) :
      Round size offset (num diff ++ (num n ++ next))
        (Chunk.cutBlock size (offset + (diff - 1)) n) next

theorem nextBlock_iff {size offset : Nat} {delta next : List Byte} {r : Option (Nat × Nat)} :
    Chunk.nextBlock size offset delta = .ok (r, next) ↔ Round size offset delta r next := by
  constructor
  · intro h
    unfold Chunk.nextBlock at h
    split at h
    · rename_i hnil
      obtain ⟨rfl, rfl⟩ := Prod.mk.inj (Except.ok.inj h)
      rw [hnil]
      exact .finished
    · obtain ⟨⟨diff, reader⟩, hdiff, hround⟩ := bind_ok.mp h
      obtain ⟨rfl, hreadable⟩ := read_iff.mp hdiff
      dsimp only at hround
      -- a zero in place of `offsetDiff` ends the blocks
      by_cases hzero : diff = 0
      · rw [if_pos hzero] at hround
        obtain ⟨rfl, rfl⟩ := Prod.mk.inj (Except.ok.inj hround)
        rw [hzero] at hreadable ⊢
        exact .terminator hreadable
      · rw [if_neg hzero] at hround
        obtain ⟨⟨n, reader'⟩, hn, hlast⟩ := bind_ok.mp hround
        obtain ⟨rfl, hreadable'⟩ := read_iff.mp hn
        obtain ⟨rfl, rfl⟩ := Prod.mk.inj (Except.ok.inj hlast)
        exact .block (Nat.pos_of_ne_zero hzero) hreadable hreadable'
  · intro h
    unfold Chunk.nextBlock
    cases h with
    | finished => rfl
    | terminator h =>
      have hne : num 0 ++ next ≠ [] := List.append_ne_nil_of_left_ne_nil (num_ne_nil h.1) _
      rw [if_neg hne]
      have hread : varUIntTrie.decodeVarUIntAt (num 0 ++ next) = .ok (0, next) :=
        read_iff.mpr ⟨rfl, h⟩
      rw [hread]
      rfl
    | @block diff n _ hdiff hd hn =>
      have hne : num diff ++ (num n ++ next) ≠ [] :=
        List.append_ne_nil_of_left_ne_nil (num_ne_nil hd.1) _
      rw [if_neg hne]
      refine bind_ok.mpr ⟨(diff, num n ++ next), read_iff.mpr ⟨rfl, hd⟩, ?_⟩
      dsimp only
      rw [if_neg (Nat.pos_iff_ne_zero.mp hdiff)]
      exact bind_ok.mpr ⟨(n, next), read_iff.mpr ⟨rfl, hn⟩, rfl⟩

theorem cutBlock_past {size diff n : Nat} (hdiff : 0 < diff) :
    Chunk.cutBlock size (size + (diff - 1)) n = if diff = 1 ∧ n = 0 then some (size, 0)
      else none := by
  unfold Chunk.cutBlock
  by_cases hempty : diff = 1 ∧ n = 0
  · rw [if_pos hempty, if_neg (by omega), hempty.1, hempty.2]
    rfl
  · rw [if_neg hempty, if_pos (by omega), if_neg (by omega)]

/-- A round at the terminator of a delta. -/
theorem Round.of_terminator {size offset : Nat} {tail next : List Byte} {r : Option (Nat × Nat)}
    (h : Round size offset (num 0 ++ tail) r next) : r = none ∧ next = tail ∧ Readable 0 tail := by
  generalize hdelta : num 0 ++ tail = delta at h
  cases h with
  | finished =>
    exact absurd hdelta (List.append_ne_nil_of_left_ne_nil (num_ne_nil zero_lt_capacity) _)
  | terminator h =>
    obtain ⟨-, rfl⟩ := num_inj zero_lt_capacity hdelta h
    exact ⟨rfl, rfl, h⟩
  | block hdiff hd hn =>
    obtain ⟨rfl, -⟩ := num_inj zero_lt_capacity hdelta hd
    exact absurd hdiff (Nat.lt_irrefl 0)

/-- A round at a block of a delta. -/
theorem Round.of_block {size offset : Nat} {b : DeltaBlock} {tail next : List Byte}
    {r : Option (Nat × Nat)}
    (h : Round size offset (num b.diff ++ (num b.data.length ++ tail)) r next) :
    r = Chunk.cutBlock size (b.start offset) b.data.length ∧ next = tail ∧
      Readable b.diff (num b.data.length ++ tail) ∧ Readable b.data.length tail := by
  generalize hdelta : num b.diff ++ (num b.data.length ++ tail) = delta at h
  cases h with
  | finished => exact absurd hdelta (List.append_ne_nil_of_left_ne_nil (num_ne_nil b.diff_lt) _)
  | terminator h =>
    have hpos := b.diff_pos
    obtain ⟨hzero, -⟩ := num_inj b.diff_lt hdelta h
    omega
  | block hdiff hd hn =>
    obtain ⟨rfl, htail⟩ := num_inj b.diff_lt hdelta hd
    obtain ⟨rfl, rfl⟩ := num_inj b.size_lt htail hn
    exact ⟨rfl, rfl, hd, hn⟩

/-! ## The rounds of the loop -/

section
open Chunk
variable {size n offset start blockSize : Nat} {content delta next rest : List Byte}

theorem applyBlocks_none (h : Round size offset delta none next) :
    applyBlocks size (n + 1) offset content delta = (content, .ok next) := by
  unfold applyBlocks
  rw [nextBlock_iff.mpr h]

theorem applyBlocks_some (h : Round size offset delta (some (start, blockSize)) next)
    (hlength : blockSize ≤ next.length) :
    applyBlocks size (n + 1) offset content delta =
      applyBlocks size n (start + blockSize) (writeAt content start (next.take blockSize))
        (next.drop blockSize) := by
  rw [applyBlocks, nextBlock_iff.mpr h]
  exact if_neg (Nat.not_lt.mpr hlength)

/-- The first round of a loop that returns. -/
theorem applyBlocks_ok (h : (applyBlocks size (n + 1) offset content delta).2 = .ok rest) :
    Round size offset delta none rest ∨
      ∃ start blockSize next, Round size offset delta (some (start, blockSize)) next ∧
      blockSize ≤ next.length := by
  unfold applyBlocks at h
  split at h
  · cases h
  · rename_i reader hround
    obtain rfl := Except.ok.inj h
    exact Or.inl (nextBlock_iff.mp hround)
  · rename_i start blockSize reader hround
    split at h
    · cases h
    · rename_i hlength
      exact Or.inr ⟨start, blockSize, reader, nextBlock_iff.mp hround, Nat.not_lt.mp hlength⟩

/-- What is left is the end of what there was. -/
theorem applyBlocks_suffix : ∀ {n offset : Nat} {content delta : List Byte},
    (applyBlocks size n offset content delta).2 = .ok rest → rest <:+ delta
  | 0, _, _, _, h => by
    obtain rfl := Except.ok.inj h
    exact List.suffix_refl _
  | n + 1, offset, content, delta, h => by
    have hsuffix : ∀ {r next}, Round size offset delta r next → next <:+ delta := by
      intro r next hround
      cases hround with
      | finished => exact List.suffix_refl _
      | terminator => exact List.suffix_append _ _
      | block => exact (List.suffix_append _ _).trans (List.suffix_append _ _)
    obtain hround | ⟨start, blockSize, next, hround, hlength⟩ := applyBlocks_ok h
    · exact hsuffix hround
    · rw [applyBlocks_some hround hlength] at h
      exact ((applyBlocks_suffix h).trans (List.drop_suffix _ _)).trans (hsuffix hround)

/-- Past the new size only an empty block at the new size is passed. -/
theorem Round.of_past (h : Round size size delta (some (start, blockSize)) next) :
    start = size ∧ blockSize = 0 ∧ delta = num 1 ++ (num 0 ++ next) ∧ Readable 1 (num 0 ++ next) ∧
      Readable 0 next := by
  generalize hr : some (start, blockSize) = r at h
  cases h with
  | finished => cases hr
  | terminator => cases hr
  | block hdiff hd hn =>
    rw [cutBlock_past hdiff] at hr
    split at hr
    · rename_i hempty
      obtain ⟨rfl, rfl⟩ := hempty
      obtain ⟨rfl, rfl⟩ := Prod.mk.inj (Option.some.inj hr)
      exact ⟨rfl, rfl, rfl, hd, hn⟩
    · cases hr

/-- Past the new size nothing is written. -/
theorem applyBlocks_past :
    ∀ {n : Nat} {delta : List Byte}, (applyBlocks size n size content delta).2 = .ok rest →
    (applyBlocks size n size content delta).1 = content
  | 0, _, _ => rfl
  | n + 1, delta, h => by
    obtain hround | ⟨start, blockSize, next, hround, hlength⟩ := applyBlocks_ok h
    · rw [applyBlocks_none hround]
    · obtain ⟨hstart, hblock, -⟩ := hround.of_past
      rw [applyBlocks_some hround hlength, hstart, hblock, List.take_zero, writeAt_nil] at h ⊢
      exact applyBlocks_past h

/-- What is left of a block that was cut is read as what follows the block. -/
theorem passesOver_of_applyBlocks : ∀ {n : Nat} {left : List Byte}, (left ++ rest).length ≤ n →
    (applyBlocks size n size content (left ++ rest)).2 = .ok rest → PassesOver rest left
  | 0, left, hn, _ => by
    rw [List.length_append] at hn
    obtain rfl := List.eq_nil_of_length_eq_zero (by omega : left.length = 0)
    exact .finished (List.eq_nil_of_length_eq_zero (by omega))
  | n + 1, left, hn, h => by
    obtain hround | ⟨start, blockSize, next, hround, hlength⟩ := applyBlocks_ok h
    · generalize hdelta : left ++ rest = delta at hround
      generalize hr : none = r at hround
      cases hround with
      | finished =>
        obtain ⟨rfl, -⟩ := List.append_eq_nil_iff.mp hdelta
        exact .finished rfl
      | terminator hzero =>
        obtain rfl := List.append_cancel_right hdelta
        exact .terminator hzero
      | @block diff k _ hdiff hd hk =>
        -- the loop ends at a block that lies past the size
        rw [← List.append_assoc] at hdelta
        obtain rfl := List.append_cancel_right hdelta
        rw [cutBlock_past hdiff] at hr
        apply PassesOver.past hdiff _ hd hk
        by_contra hempty
        rw [if_pos (by omega)] at hr
        cases hr
    · -- an empty block at the size: the loop goes on behind its two numbers
      obtain ⟨hstart, hblock, hdelta, hd, hk⟩ := hround.of_past
      rw [applyBlocks_some hround hlength, hstart, hblock, Nat.add_zero, List.drop_zero,
        List.take_zero, writeAt_nil] at h
      obtain ⟨left', rfl⟩ := applyBlocks_suffix h
      rw [← List.append_assoc, ← List.append_assoc] at hdelta
      have hleft := List.append_cancel_right hdelta
      rw [List.append_assoc] at hleft
      have hpos := List.length_pos_of_ne_nil (num_ne_nil hd.1)
      rw [hleft] at hn ⊢
      simp only [List.length_append] at hn
      have hrest : (left' ++ rest).length ≤ n := by
        rw [List.length_append]
        omega
      exact .empty hd hk (passesOver_of_applyBlocks hrest h)

theorem applyBlocks_of_passesOver {left : List Byte} (h : PassesOver rest left) :
    ∀ {n : Nat} {content : List Byte},
    (left ++ rest).length ≤ n → (applyBlocks size n size content (left ++ rest)).2 = .ok rest := by
  -- on what is left of the block that was cut
  induction h with
  | finished h =>
    intro n content _
    subst h
    cases n with
    | zero => rfl
    | succ n => rw [List.append_nil, applyBlocks_none .finished]
  | terminator h =>
    intro n content hn
    have hpos := List.length_pos_of_ne_nil (num_ne_nil h.1)
    rw [List.length_append] at hn
    obtain ⟨n, rfl⟩ : ∃ n', n = n' + 1 := ⟨n - 1, by omega⟩
    rw [applyBlocks_none (.terminator h)]
  | @past diff k hdiff hout hd hk =>
    intro n content hn
    have hpos := List.length_pos_of_ne_nil (num_ne_nil hd.1)
    rw [List.length_append, List.length_append] at hn
    obtain ⟨n, rfl⟩ : ∃ n', n = n' + 1 := ⟨n - 1, by omega⟩
    have hround := (Round.block hdiff hd hk : Round size size _ _ _)
    rw [cutBlock_past hdiff, if_neg (by omega)] at hround
    rw [List.append_assoc, applyBlocks_none hround]
  | @empty left hd hk _ ih =>
    intro n content hn
    have hpos := List.length_pos_of_ne_nil (num_ne_nil hd.1)
    simp only [List.length_append] at hn
    obtain ⟨n, rfl⟩ : ∃ n', n = n' + 1 := ⟨n - 1, by omega⟩
    have hround := (Round.block Nat.zero_lt_one hd hk : Round size size _ _ _)
    rw [cutBlock_past Nat.zero_lt_one, if_pos ⟨rfl, rfl⟩] at hround
    rw [List.append_assoc, List.append_assoc, applyBlocks_some hround (Nat.zero_le _), Nat.add_zero,
      List.drop_zero]
    apply ih
    rw [List.length_append]
    omega

/-! ## The blocks of a delta -/

theorem blockBytes_ne_nil : ∀ (bs : List DeltaBlock), blockBytes bs ≠ []
  | [] => by
    rw [blockBytes]
    exact num_ne_nil zero_lt_capacity
  | b :: _ => List.append_ne_nil_of_left_ne_nil (num_ne_nil b.diff_lt) _

theorem blockBytes_cons (b : DeltaBlock) (bs : List DeltaBlock) (rest : List Byte) :
    blockBytes (b :: bs) ++ rest =
      num b.diff ++ (num b.data.length ++ (b.data ++ (blockBytes bs ++ rest))) := by
  simp only [blockBytes, List.append_assoc]

/-- The first round of a loop that returns, at a block of a delta. -/
theorem applyBlocks_cons {b : DeltaBlock} {tail : List Byte}
    (h : (applyBlocks size (n + 1) offset content (num b.diff ++ (num b.data.length ++ tail))).2 =
      .ok rest) :
    Round size offset (num b.diff ++ (num b.data.length ++ tail))
      (cutBlock size (b.start offset) b.data.length) tail ∧
      Readable b.diff (num b.data.length ++ tail) ∧ Readable b.data.length tail := by
  obtain hround | ⟨_, _, _, hround, -⟩ := applyBlocks_ok h
  · obtain ⟨-, -, hd, hk⟩ := hround.of_block
    exact ⟨.block b.diff_pos hd hk, hd, hk⟩
  · obtain ⟨-, -, hd, hk⟩ := hround.of_block
    exact ⟨.block b.diff_pos hd hk, hd, hk⟩

/-- A block that does not pass the new size is copied. -/
theorem applyBlocks_fits {b : DeltaBlock} {tail : List Byte} (hfits : b.stop offset ≤ size)
    (h : Round size offset delta (cutBlock size (b.start offset) b.data.length) (b.data ++ tail)) :
    applyBlocks size (n + 1) offset content delta = applyBlocks size n (b.stop offset)
      (writeAt content (b.start offset) b.data) tail := by
  unfold cutBlock at h
  rw [if_neg (show ¬ b.start offset + b.data.length > size from Nat.not_lt.mpr hfits)] at h
  rw [applyBlocks_some h (by simp), List.take_left, List.drop_left]
  rfl

/-- One that does is cut, and the loop goes on in the middle of its data. -/
theorem applyBlocks_cut {b : DeltaBlock} {tail : List Byte} (hcut : size < b.stop offset)
    (hstart : b.start offset < size)
    (h : Round size offset delta (cutBlock size (b.start offset) b.data.length) (b.data ++ tail)) :
    applyBlocks size (n + 1) offset content delta =
      applyBlocks size n size
        (writeAt content (b.start offset) (b.data.take (size - b.start offset)))
        (b.data.drop (size - b.start offset) ++ tail) := by
  have hle : size - b.start offset ≤ b.data.length := by
    unfold DeltaBlock.stop at hcut
    omega
  have hsize : b.start offset + (size - b.start offset) = size := by omega
  unfold cutBlock at h
  rw [if_pos (show b.start offset + b.data.length > size from hcut), if_pos hstart] at h
  rw [applyBlocks_some h (by rw [List.length_append]; omega), List.take_append_of_le_length hle,
    List.drop_append_of_le_length hle, hsize]

/-- One that starts past the new size ends the loop in front of its data. -/
theorem applyBlocks_out {b : DeltaBlock} {tail : List Byte} (hcut : size < b.stop offset)
    (hstart : size ≤ b.start offset)
    (h : Round size offset delta (cutBlock size (b.start offset) b.data.length) tail) :
    applyBlocks size (n + 1) offset content delta = (content, .ok tail) := by
  unfold cutBlock at h
  rw [if_pos (show b.start offset + b.data.length > size from hcut),
    if_neg (Nat.not_lt.mpr hstart)] at h
  exact applyBlocks_none h

/-- The loop ends behind the delta exactly if the blocks pass. -/
theorem applyBlocks_iff : ∀ {bs : List DeltaBlock} {n offset : Nat} {content : List Byte},
    (blockBytes bs ++ rest).length ≤ n →
    ((applyBlocks size n offset content (blockBytes bs ++ rest)).2 = .ok rest ↔
      BlocksPass size rest offset bs)
  | [], n, offset, content, hn => by
    have hpos := List.length_pos_of_ne_nil (num_ne_nil zero_lt_capacity)
    rw [blockBytes, List.length_append] at hn
    obtain ⟨n, rfl⟩ : ∃ n', n = n' + 1 := ⟨n - 1, by omega⟩
    unfold blockBytes BlocksPass
    constructor
    · intro h
      obtain hround | ⟨_, _, _, hround, -⟩ := applyBlocks_ok h
      · exact hround.of_terminator.2.2
      · cases hround.of_terminator.1
    · intro h
      rw [applyBlocks_none (.terminator h)]
  | b :: bs, n, offset, content, hn => by
    have hpos := List.length_pos_of_ne_nil (num_ne_nil b.diff_lt)
    rw [blockBytes_cons, List.length_append, List.length_append, List.length_append] at hn
    obtain ⟨n, rfl⟩ : ∃ n', n = n' + 1 := ⟨n - 1, by omega⟩
    rw [blockBytes_cons]
    unfold BlocksPass
    rw [List.append_assoc]
    constructor
    · intro h
      obtain ⟨hround, hd, hk⟩ := applyBlocks_cons h
      refine ⟨hd, hk, ?_⟩
      split
      · rename_i hfits
        rw [applyBlocks_fits hfits hround] at h
        exact (applyBlocks_iff (by omega)).mp h
      · rename_i hcut
        obtain hstart | hstart := Nat.lt_or_ge (b.start offset) size
        · -- the block is cut, and the loop goes on inside its data
          rw [applyBlocks_cut (Nat.not_le.mp hcut) hstart hround, ← List.append_assoc] at h
          refine ⟨hstart, passesOver_of_applyBlocks ?_ h⟩
          rw [List.append_assoc, List.length_append, List.length_drop]
          omega
        · -- the bytes of the terminator, at least, are left
          rw [applyBlocks_out (Nat.not_le.mp hcut) hstart hround] at h
          have hlength := congrArg List.length (Except.ok.inj h)
          have hleft := List.length_pos_of_ne_nil (blockBytes_ne_nil bs)
          rw [List.length_append, List.length_append] at hlength
          omega
    · rintro ⟨hd, hk, hpass⟩
      have hround : Round size offset _ (cutBlock size (b.start offset) b.data.length)
          (b.data ++ (blockBytes bs ++ rest)) :=
        .block b.diff_pos hd hk
      split at hpass
      · rename_i hfits
        rw [applyBlocks_fits hfits hround]
        exact (applyBlocks_iff (by omega)).mpr hpass
      · rename_i hcut
        rw [applyBlocks_cut (Nat.not_le.mp hcut) hpass.1 hround, ← List.append_assoc]
        apply applyBlocks_of_passesOver hpass.2
        rw [List.append_assoc, List.length_append, List.length_drop]
        omega

/-! ## The content -/

theorem take_writeAt (mem bytes : List Byte) (offset k : Nat) :
    (writeAt mem offset bytes).take k = writeAt (mem.take k) offset bytes := by
  apply List.ext_getElem?
  intro i
  rw [List.getElem?_take, writeAt_getElem?, writeAt_getElem?, List.getElem?_take]
  split <;> rfl

theorem overlay_past :
    ∀ {bs : List DeltaBlock} {offset : Nat} {content : List Byte}, size ≤ offset →
    overlay size offset bs content = content
  | [], _, _, _ => rfl
  | b :: bs, offset, content, h => by
    have hstart : offset ≤ b.start offset := Nat.le_add_right _ _
    have hstop : b.start offset ≤ b.stop offset := Nat.le_add_right _ _
    have hzero : size - b.start offset = 0 := by omega
    rw [overlay, hzero, List.take_zero, writeAt_nil]
    exact overlay_past (by omega)

/-- Whenever the loop returns, what it has written up to the new size is right. -/
theorem applyBlocks_content : ∀ {bs : List DeltaBlock} {n offset : Nat} {content : List Byte},
    (blockBytes bs ++ rest).length ≤ n →
    (applyBlocks size n offset content (blockBytes bs ++ rest)).2 = .ok next →
    (applyBlocks size n offset content (blockBytes bs ++ rest)).1.take size =
    overlay size offset bs (content.take size)
  | [], n, offset, content, hn, h => by
    have hpos := List.length_pos_of_ne_nil (num_ne_nil zero_lt_capacity)
    rw [blockBytes, List.length_append] at hn
    obtain ⟨n, rfl⟩ : ∃ n', n = n' + 1 := ⟨n - 1, by omega⟩
    unfold blockBytes at h ⊢
    obtain hround | ⟨_, _, _, hround, -⟩ := applyBlocks_ok h
    · rw [applyBlocks_none hround]
      rfl
    · cases hround.of_terminator.1
  | b :: bs, n, offset, content, hn, h => by
    have hpos := List.length_pos_of_ne_nil (num_ne_nil b.diff_lt)
    rw [blockBytes_cons, List.length_append, List.length_append, List.length_append] at hn
    obtain ⟨n, rfl⟩ : ∃ n', n = n' + 1 := ⟨n - 1, by omega⟩
    rw [blockBytes_cons] at h ⊢
    obtain ⟨hround, -, -⟩ := applyBlocks_cons h
    rw [overlay]
    obtain hfits | hcut := (Nat.lt_or_ge size (b.stop offset)).symm
    · have hall : b.data.length ≤ size - b.start offset := by
        unfold DeltaBlock.stop at hfits
        omega
      rw [applyBlocks_fits hfits hround] at h ⊢
      rw [applyBlocks_content (by omega) h, take_writeAt, List.take_of_length_le hall]
    · obtain hstart | hstart := Nat.lt_or_ge (b.start offset) size
      · rw [applyBlocks_cut hcut hstart hround] at h ⊢
        rw [applyBlocks_past h, take_writeAt, overlay_past (Nat.le_of_lt hcut)]
      · have hzero : size - b.start offset = 0 := by omega
        rw [applyBlocks_out hcut hstart hround, hzero, List.take_zero, writeAt_nil,
          overlay_past (Nat.le_of_lt hcut)]

/-- A byte that is written is that of the block, any other one is as it was. -/
theorem writeAt_getElem?_congr {mem mem' bytes : List Byte} {i : Nat}
    (hlength : mem.length = mem'.length) :
    (writeAt mem offset bytes)[i]? = (writeAt mem' offset bytes)[i]? ↔
    (offset ≤ i ∧ i < offset + bytes.length ∨ mem[i]? = mem'[i]?) := by
  by_cases hin : offset ≤ i ∧ i < offset + bytes.length
  · rw [writeAt_getElem?, writeAt_getElem?]
    apply iff_of_true _ (Or.inl hin)
    obtain hi | hi := Nat.lt_or_ge i mem.length
    · rw [List.getElem?_eq_getElem hi, List.getElem?_eq_getElem (hlength ▸ hi)]
      simp only [Option.map_some, if_pos hin.1]
      rw [List.getD_eq_getElem _ _ (by omega), List.getD_eq_getElem _ _ (by omega)]
    · rw [List.getElem?_eq_none hi, List.getElem?_eq_none (hlength ▸ hi)]
  · rw [writeAt_frame (by omega), writeAt_frame (by omega)]
    constructor
    · exact Or.inr
    · intro h
      exact h.resolve_left hin

/-- The blocks hide what they cover, and nothing else. -/
theorem overlay_eq_iff : ∀ {bs : List DeltaBlock} {offset : Nat} {mem mem' : List Byte},
    mem.length = size → mem'.length = size →
    (overlay size offset bs mem = overlay size offset bs mem' ↔ ∀ i < size, ¬ Covers i offset bs →
      mem[i]? = mem'[i]?)
  | [], offset, mem, mem', hmem, hmem' => by
    unfold overlay Covers
    constructor
    · intro h i _ _
      rw [h]
    · intro h
      apply List.ext_getElem?
      intro i
      obtain hi | hi := Nat.lt_or_ge i size
      · exact h i hi not_false
      · rw [List.getElem?_eq_none (by omega), List.getElem?_eq_none (by omega)]
  | b :: bs, offset, mem, mem', hmem, hmem' => by
    rw [overlay, overlay, overlay_eq_iff (by rw [writeAt_length, hmem])
      (by rw [writeAt_length, hmem'])]
    -- what a block covers below the size is what it writes when it is cut there
    have hcovers : ∀ i < size, Covers i offset (b :: bs) ↔
        (b.start offset ≤ i ∧ i < b.start offset + (b.data.take (size - b.start offset)).length) ∨
          Covers i (b.stop offset) bs := by
      intro i hi
      rw [Covers, DeltaBlock.stop, List.length_take]
      have hcut : i < b.start offset + b.data.length ↔
          i < b.start offset + min (size - b.start offset) b.data.length := by omega
      rw [hcut]
    constructor
    · intro h i hi hnot
      rw [hcovers i hi] at hnot
      have hnext := h i hi fun hc => hnot (Or.inr hc)
      rw [writeAt_getElem?_congr (hmem.trans hmem'.symm)] at hnext
      exact hnext.resolve_left fun hc => hnot (Or.inl hc)
    · intro h i hi hnot
      rw [writeAt_getElem?_congr (hmem.trans hmem'.symm)]
      by_cases hin : b.start offset ≤ i ∧
        i < b.start offset + (b.data.take (size - b.start offset)).length
      · exact Or.inl hin
      · refine Or.inr (h i hi fun hc => ?_)
        exact (hcovers i hi).mp hc |>.elim hin hnot

/-! ## Chunks -/

theorem extended_length (c : Chunk) (size : Nat) : (c.extended size).length = size := by
  have hsize := c.size_le
  simp only [Chunk.extended, List.length_take, List.length_append, List.length_replicate]
  omega

theorem extended_getElem? (c : Chunk) {size i : Nat} (hi : i < size) :
    (c.extended size)[i]? = some (if i < c.chunkSize then c.content.getD i 0 else 0) := by
  have hsize := c.size_le
  have hlength : (c.content.take c.chunkSize).length = c.chunkSize := by
    rw [List.length_take]
    omega
  unfold Chunk.extended
  rw [List.getElem?_take, if_pos hi]
  split
  · rename_i hin
    rw [List.getElem?_append_left (by omega), List.getElem?_take, if_pos hin,
      List.getD_eq_getElem _ _ (by omega),
      List.getElem?_eq_getElem (by omega)]
  · rename_i hout
    rw [List.getElem?_append_right (by omega), List.getElem?_replicate, if_pos (by omega)]

/-- The memory that the blocks are written to. -/
theorem reserveSpace_content {c : Chunk} {size : Nat} (hsize : size ≤ maxAllowedCapacity) :
    ∃ reserved, c.reserveSpace size = .ok reserved ∧
      reserved.content.take size = if size ≤ c.capacity then c.content.take size
        else c.extended size := by
  unfold Chunk.reserveSpace
  rw [dif_pos hsize]
  by_cases hcapacity : size ≤ c.content.length
  · refine ⟨c, dif_pos hcapacity, ?_⟩
    rw [if_pos (show size ≤ c.capacity from hcapacity)]
  · refine ⟨_, dif_neg hcapacity, ?_⟩
    rw [if_neg (show ¬ size ≤ c.capacity from hcapacity)]
    rfl

theorem bytes_ne_nil (d : ChunkDelta) (rest : List Byte) : d.bytes ++ rest ≠ [] :=
  List.append_ne_nil_of_left_ne_nil
    (List.append_ne_nil_of_left_ne_nil (num_ne_nil d.sizeXor_lt) _) _

/-- The memory past the size is zero where it is seen exactly if the blocks are
written on the right bytes. -/
theorem tailZero_iff (d : ChunkDelta) (c : Chunk) :
    d.TailZero c ↔ overlay (d.newSize c) 0 d.blocks (if d.newSize c ≤
      c.capacity then c.content.take (d.newSize c) else c.extended (d.newSize c)) =
      overlay (d.newSize c) 0 d.blocks (c.extended (d.newSize c)) := by
  unfold ChunkDelta.TailZero
  by_cases hcapacity : d.newSize c ≤ c.capacity
  · have hlength : (c.content.take (d.newSize c)).length = d.newSize c := by
      rw [List.length_take]
      exact Nat.min_eq_left hcapacity
    have hbyte : ∀ i < d.newSize c, (c.content.take (d.newSize c))[i]? =
        (c.extended (d.newSize c))[i]? ↔
          i < c.chunkSize ∨ c.content.getD i 0 = 0 := by
      intro i hi
      have hin : i < c.content.length := Nat.lt_of_lt_of_le hi hcapacity
      rw [extended_getElem? c hi, List.getElem?_take, if_pos hi, List.getElem?_eq_getElem hin,
        List.getD_eq_getElem _ _ hin]
      split
      · rename_i hsize
        exact iff_of_true rfl (Or.inl hsize)
      · rename_i hsize
        rw [Option.some.injEq]
        exact (or_iff_right hsize).symm
    rw [if_pos hcapacity, overlay_eq_iff hlength (extended_length _ _)]
    constructor
    · intro h i hi hnot
      rw [hbyte i hi]
      obtain hsize | hsize := Nat.lt_or_ge i c.chunkSize
      · exact Or.inl hsize
      · exact Or.inr (h hcapacity i hsize hi hnot)
    · intro h _ i hsize hi hnot
      exact ((hbyte i hi).mp (h i hi hnot)).resolve_left (Nat.not_lt.mpr hsize)
  · rw [if_neg hcapacity]
    exact iff_of_true (fun h => absurd h hcapacity) rfl

end

/-- **Deltas of a chunk.** A delta of the documented format, whose new size is allowed, leaves the
chunk with the new size and the content of its blocks, and the pointer behind it, exactly if its
numbers are readable, no block passes the new size, unless what is left of the first one that does
is passed over, and no old byte past the size is seen. -/
theorem ChunkDelta.appliedTo_iff (d : ChunkDelta) (c : Chunk) (rest : List Byte)
    (hsize : d.newSize c ≤ maxAllowedCapacity) :
    d.AppliedTo c rest ↔
      Readable d.sizeXor (blockBytes d.blocks ++ rest) ∧ BlocksPass (d.newSize c) rest 0 d.blocks ∧
        d.TailZero c := by
  obtain ⟨reserved, hreserve, hcontent⟩ :=
    (reserveSpace_content hsize : ∃ reserved, c.reserveSpace (d.newSize c) = .ok reserved ∧ _)
  have hbytes : d.bytes ++ rest = num d.sizeXor ++ (blockBytes d.blocks ++ rest) :=
    List.append_assoc _ _ _
  have hlength := Nat.le_refl (blockBytes d.blocks ++ rest).length
  rw [tailZero_iff, ← hcontent]
  constructor
  · -- the overlay decides the old bytes that are seen
    rintro ⟨c', happlied, -, -, hoverlay⟩
    obtain ⟨number, tail, reserved', hread, hreserve', hblocks, -, hcontent'⟩ :=
      Chunk.applyDelta_ok (bytes_ne_nil d rest) happlied
    obtain ⟨heq, hreadable⟩ := read_iff.mp hread
    obtain ⟨rfl, rfl⟩ := num_inj d.sizeXor_lt (hbytes.symm.trans heq) hreadable
    obtain rfl := Except.ok.inj (hreserve.symm.trans hreserve')
    refine ⟨hreadable, (applyBlocks_iff hlength).mp hblocks, ?_⟩
    rw [← hoverlay, hcontent']
    exact (applyBlocks_content hlength hblocks).symm
  · rintro ⟨hreadable, hpass, hzero⟩
    have hblocks : (Chunk.applyBlocks (d.newSize c) _ 0 reserved.content
        (blockBytes d.blocks ++ rest)).2 = .ok rest :=
      (applyBlocks_iff hlength).mpr hpass
    have hread := read_iff.mpr ⟨hbytes, hreadable⟩
    obtain ⟨c', happlied⟩ := Chunk.applyDelta_returns (bytes_ne_nil d rest) hread hreserve hblocks
    obtain ⟨number, tail, reserved', hread', hreserve', hblocks', hsize', hcontent'⟩ :=
      Chunk.applyDelta_ok (bytes_ne_nil d rest) happlied
    obtain ⟨rfl, rfl⟩ := Prod.mk.inj (Except.ok.inj (hread.symm.trans hread'))
    obtain rfl := Except.ok.inj (hreserve.symm.trans hreserve')
    have hoverlay : c'.content = overlay (d.newSize c) 0 d.blocks (c.extended (d.newSize c)) := by
      rw [hcontent', ← hzero]
      exact applyBlocks_content hlength hblocks'
    refine ⟨c', happlied, hsize', ?_, hoverlay⟩
    rw [Chunk.capacity, hcontent', List.length_take, Chunk.applyBlocks_length]
    exact Nat.min_eq_left (Chunk.reserveSpace_le hreserve)

/-- A delta with one block, of ten bytes. -/
def tenBytesDelta (sizeXor : Nat) (h : sizeXor < varUIntTrie.capacity) : ChunkDelta where
  sizeXor := sizeXor
  blocks := [⟨1, [1, 2, 3, 4, 5, 6, 7, 8, 9, 10], by decide, by decide +kernel, by decide +kernel⟩]
  sizeXor_lt := h

theorem ChunkDelta.appliedTo_iff_tenBytes : (tenBytesDelta 10 (by decide +kernel)).AppliedTo {}
    [0, 0] := by
  apply (ChunkDelta.appliedTo_iff (tenBytesDelta 10 (by decide +kernel)) {} [0, 0] (by decide)).mpr
  refine ⟨by decide +kernel, ⟨by decide +kernel, by decide +kernel, ?_⟩, ?_⟩
  · rw [if_pos (by decide)]
    exact (by decide +kernel : Readable 0 [0, 0])
  · intro hcapacity
    exact absurd hcapacity (by decide)

/-- The block is cut at the new size 5. The bytes `6 7` of its data are then read as the next block,
which ends the loop. -/
theorem tenBytesDelta_not_appliedTo :
    let c : Chunk := { content := [0, 0, 0, 0, 0, 0, 0, 0, 0, 0], chunkSize := 10 }
    let d := tenBytesDelta 15 (by decide +kernel)
    d.newSize c ≤ maxAllowedCapacity ∧
      (c.applyDelta (d.bytes ++ [0, 0])).2 = .ok [8, 9, 10, 0, 0, 0] ∧ ¬ d.AppliedTo c [0, 0] := by
  intro c d
  have hcursor : (c.applyDelta (d.bytes ++ [0, 0])).2 = .ok [8, 9, 10, 0, 0, 0] := by decide +kernel
  refine ⟨by decide, hcursor, ?_⟩
  rintro ⟨c', happlied, -⟩
  rw [happlied] at hcursor
  cases hcursor

end Argennon
