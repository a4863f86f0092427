import Argennon.Storage.PageDelta

/- What an untrusted delta can do to `Page::applyDelta` and `Chunk::applyDelta`.

   A call ends: every round of its loops reads at least one byte. No copy leaves the memory of a
   chunk. But a delta can make the call read at or past its end, in the test `*reader == 0` after an
   index or in the copy of a block that is longer than what is left of the delta, and can make an
   assertion fail, by a size that no chunk may have. What follows is the exact form of such a delta.
   -/
namespace Argennon
open PrefixTrie

/-! ## Numbers and identifiers -/

theorem readLoop_error {size height : Nat} (t : PrefixTrie size height) :
    ∀ {n i id : Nat} {binary : List Byte} {e : Exn},
    n ≤ binary.length → t.readLoop n i id binary = .error e →
      e = .outOfRange "readPrefixCode: invalid identifier"
  | 0, _, _, _, _, _, h => (Except.error.inj h).symm
  | _ + 1, _, _, [], _, hn, _ => absurd hn (Nat.not_succ_le_zero _)
  | n + 1, i, id, byte :: binary, e, hn, h => by
    unfold readLoop at h
    dsimp only at h
    split at h
    · cases h
    · exact readLoop_error t (Nat.le_of_succ_le_succ hn) h

theorem toInt_le (n : Nat) : toInt n ≤ n := by
  unfold toInt
  split <;> omega

/-- A number that cannot be read makes the call throw. -/
theorem decodeVarUIntAt_error {size height : Nat} {t : PrefixTrie size height}
    {reader : List Byte} {e : Exn}
    (h : t.decodeVarUIntAt reader = .error e) :
    e = .outOfRange "readPrefixCode: invalid identifier" := by
  unfold decodeVarUIntAt decodeVarUInt readPrefixCode at h
  have hle := toInt_le reader.length
  dsimp only at h
  cases hread : t.readLoop (if toInt reader.length >
    height then (height : Int) else toInt reader.length).toNat 0 0 reader with
  | error e' =>
    rw [hread] at h
    obtain rfl : e' = e := Except.error.inj h
    exact readLoop_error t (by split <;> omega) hread
  | ok read =>
    rw [hread] at h
    cases h

theorem readPrefixCodeAt_error {size height : Nat} {t : PrefixTrie size height}
    {reader : List Byte} {e : Exn}
    (h : t.readPrefixCodeAt reader = .error e) :
    e = .outOfRange "readPrefixCode: invalid identifier" := by
  unfold readPrefixCodeAt at h
  cases hread : t.readLoop (min reader.length height) 0 0 reader with
  | error e' =>
    rw [hread] at h
    obtain rfl : e' = e := Except.error.inj h
    exact readLoop_error t (Nat.min_le_left _ _) hread
  | ok read =>
    rw [hread] at h
    cases h

theorem bind_error {α β : Type} {x : Except Exn α} {f : α → Except Exn β} {e : Exn} :
    x >>= f = .error e ↔ x = .error e ∨ ∃ a, x = .ok a ∧ f a = .error e := by
  cases x with
  | error e' =>
    change Except.error e' = .error e ↔ _
    simp
  | ok a =>
    change f a = .error e ↔ _
    simp

theorem VarLenFullID.read_error {binary : List Byte} {e : Exn}
    (h : VarLenFullID.read binary = .error e) :
    e = .outOfRange "readPrefixCode: invalid identifier" := by
  unfold VarLenFullID.read at h
  obtain happ | ⟨app, -, h⟩ := bind_error.mp h
  · exact readPrefixCodeAt_error happ
  obtain haccount | ⟨account, -, h⟩ := bind_error.mp h
  · exact readPrefixCodeAt_error haccount
  obtain hlocal | ⟨chunk, -, h⟩ := bind_error.mp h
  · exact readPrefixCodeAt_error hlocal
  · cases h

theorem readPrefixCodeAt_length {size height : Nat} {t : PrefixTrie size height}
    {reader next : List Byte} {id : Nat}
    (h : t.readPrefixCodeAt reader = .ok (id, next)) : next.length ≤ reader.length := by
  unfold readPrefixCodeAt at h
  obtain ⟨⟨id', len⟩, -, h⟩ := bind_ok.mp h
  obtain ⟨-, rfl⟩ := Prod.mk.inj (Except.ok.inj h)
  rw [List.length_drop]
  exact Nat.sub_le _ _

theorem VarLenFullID.read_length {binary next : List Byte} {id : VarLenFullID}
    (h : VarLenFullID.read binary = .ok (id, next)) :
    next.length ≤ binary.length := by
  unfold VarLenFullID.read at h
  obtain ⟨⟨app, reader⟩, happ, h⟩ := bind_ok.mp h
  obtain ⟨⟨account, reader'⟩, haccount, h⟩ := bind_ok.mp h
  obtain ⟨⟨chunk, reader''⟩, hlocal, h⟩ := bind_ok.mp h
  obtain ⟨-, rfl⟩ := Prod.mk.inj (Except.ok.inj h)
  exact Nat.le_trans (readPrefixCodeAt_length hlocal)
    (Nat.le_trans (readPrefixCodeAt_length haccount) (readPrefixCodeAt_length happ))

/-! ## Blocks -/

/-- A block is longer than what is left of the delta behind its size. -/
inductive BlocksOverrun (size : Nat) : Nat → List Byte → Prop where
  | here {offset start blockSize : Nat} {delta next : List Byte}
    (h : Round size offset delta (some (start, blockSize)) next)
      (hshort : next.length < blockSize) : BlocksOverrun size offset delta
  | later {offset start blockSize : Nat} {delta next : List Byte}
    (h : Round size offset delta (some (start, blockSize)) next)
      (hfits : blockSize ≤ next.length)
        (hrest : BlocksOverrun size (start + blockSize) (next.drop blockSize)) :
      BlocksOverrun size offset delta

/-- The blocks end, and `rest` is behind them. -/
inductive BlocksEnd (size : Nat) : Nat → List Byte → List Byte → Prop where
  | last {offset : Nat} {delta rest : List Byte} (h : Round size offset delta none rest) :
    BlocksEnd size offset delta rest
  | block {offset start blockSize : Nat} {delta next rest : List Byte}
    (h : Round size offset delta (some (start, blockSize)) next)
      (hfits : blockSize ≤ next.length)
        (hrest : BlocksEnd size (start + blockSize) (next.drop blockSize) rest) :
      BlocksEnd size offset delta rest

/-- A round reads one thing. -/
theorem Round.unique {size offset : Nat} {delta next next' : List Byte} {r r' : Option (Nat × Nat)}
    (h : Round size offset delta r next)
    (h' : Round size offset delta r' next') : r = r' ∧ next = next' := by
  have hread := nextBlock_iff.mpr h
  rw [nextBlock_iff.mpr h'] at hread
  obtain ⟨rfl, rfl⟩ := Prod.mk.inj (Except.ok.inj hread)
  exact ⟨rfl, rfl⟩

theorem Round.shorter {size offset start blockSize : Nat} {delta next : List Byte}
    (h : Round size offset delta (some (start, blockSize)) next) : next.length < delta.length := by
  generalize hr : some (start, blockSize) = r at h
  cases h with
  | finished => cases hr
  | terminator h => cases hr
  | block hdiff hd hn =>
    have hpos := List.length_pos_of_ne_nil (num_ne_nil hd.1)
    rw [List.length_append, List.length_append]
    omega

theorem nextBlock_error {size offset : Nat} {delta : List Byte} {e : Exn}
    (h : Chunk.nextBlock size offset delta = .error e) :
    e = .outOfRange "readPrefixCode: invalid identifier" := by
  unfold Chunk.nextBlock at h
  split at h
  · cases h
  obtain hdiff | ⟨⟨diff, tail⟩, -, h⟩ := bind_error.mp h
  · exact decodeVarUIntAt_error hdiff
  dsimp only at h
  split at h
  · cases h
  obtain hsize | ⟨read, -, h⟩ := bind_error.mp h
  · exact decodeVarUIntAt_error hsize
  · cases h

section
variable {size offset start blockSize : Nat} {delta next rest : List Byte}

theorem not_blocksOverrun_of_none (h : Round size offset delta none next) :
    ¬ BlocksOverrun size offset delta := by
  intro hoverrun
  cases hoverrun with
  | here h' => cases (h.unique h').1
  | later h' => cases (h.unique h').1

/-- The block of the first round, or a later one. -/
theorem blocksOverrun_iff (h : Round size offset delta (some (start, blockSize)) next) :
    BlocksOverrun size offset delta ↔
      next.length < blockSize ∨
        (blockSize ≤ next.length ∧
          BlocksOverrun size (start + blockSize) (next.drop blockSize)) := by
  constructor
  · intro hoverrun
    cases hoverrun with
    | here h' hshort =>
      obtain ⟨hblock, rfl⟩ := h.unique h'
      obtain ⟨rfl, rfl⟩ := Prod.mk.inj (Option.some.inj hblock)
      exact Or.inl hshort
    | later h' hfits hrest =>
      obtain ⟨hblock, rfl⟩ := h.unique h'
      obtain ⟨rfl, rfl⟩ := Prod.mk.inj (Option.some.inj hblock)
      exact Or.inr ⟨hfits, hrest⟩
  · rintro (hshort | ⟨hfits, hrest⟩)
    · exact .here h hshort
    · exact .later h hfits hrest

theorem blocksEnd_iff_of_none (h : Round size offset delta none next) :
    BlocksEnd size offset delta rest ↔ next = rest := by
  constructor
  · intro hend
    cases hend with
    | last h' => exact (h.unique h').2
    | block h' => cases (h.unique h').1
  · rintro rfl
    exact .last h

theorem blocksEnd_iff (h : Round size offset delta (some (start, blockSize)) next) :
    BlocksEnd size offset delta rest ↔ blockSize ≤ next.length ∧ BlocksEnd size (start + blockSize)
      (next.drop blockSize) rest := by
  constructor
  · intro hend
    cases hend with
    | last h' => cases (h.unique h').1
    | block h' hfits hrest =>
      obtain ⟨hblock, rfl⟩ := h.unique h'
      obtain ⟨rfl, rfl⟩ := Prod.mk.inj (Option.some.inj hblock)
      exact ⟨hfits, hrest⟩
  · rintro ⟨hfits, hrest⟩
    exact .block h hfits hrest

theorem BlocksOverrun.reads (h : BlocksOverrun size offset delta) :
    ∃ r next, Round size offset delta r next := by
  cases h with
  | here h => exact ⟨_, _, h⟩
  | later h => exact ⟨_, _, h⟩

theorem BlocksEnd.reads (h : BlocksEnd size offset delta rest) :
    ∃ r next, Round size offset delta r next := by
  cases h with
  | last h => exact ⟨_, _, h⟩
  | block h => exact ⟨_, _, h⟩

end

/-- The loop, with as many rounds as there are bytes: what makes it fail to end,
and where it ends. -/
theorem applyBlocks_spec {size : Nat} :
    ∀ {n offset : Nat} {content delta : List Byte}, delta.length ≤ n →
    (¬ Ends (Chunk.applyBlocks size n offset content delta).2 ↔ BlocksOverrun size offset delta) ∧
      ∀ rest, (Chunk.applyBlocks size n offset content delta).2 = .ok rest ↔
        BlocksEnd size offset delta rest
  | 0, offset, content, delta, hn => by
    obtain rfl := List.eq_nil_of_length_eq_zero (Nat.le_zero.mp hn)
    refine ⟨iff_of_false (not_not.mpr (ends_ok rfl)) (not_blocksOverrun_of_none .finished),
      fun rest => ?_⟩
    rw [blocksEnd_iff_of_none .finished]
    exact ⟨fun h => Except.ok.inj h, congrArg Except.ok⟩
  | n + 1, offset, content, delta, hn => by
    cases hround : Chunk.nextBlock size offset delta with
    | error e =>
      have hresult : Chunk.applyBlocks size (n + 1) offset content delta = (content, .error e) := by
        unfold Chunk.applyBlocks
        rw [hround]
      have hno : ¬ ∃ r next, Round size offset delta r next := by
        rintro ⟨r, next, h⟩
        cases hround.symm.trans (nextBlock_iff.mpr h)
      rw [hresult, nextBlock_error hround]
      exact ⟨iff_of_false (not_not.mpr ((ends_error rfl).mpr trivial)) fun h => hno h.reads,
        fun rest => iff_of_false (fun h => by cases h) fun h => hno h.reads⟩
    | ok read =>
      obtain ⟨block, next⟩ := read
      have hread := nextBlock_iff.mp hround
      cases block with
      | none =>
        rw [applyBlocks_none hread]
        refine ⟨iff_of_false (not_not.mpr (ends_ok rfl)) (not_blocksOverrun_of_none hread),
          fun rest => ?_⟩
        rw [blocksEnd_iff_of_none hread]
        exact ⟨fun h => Except.ok.inj h, congrArg Except.ok⟩
      | some block =>
        obtain ⟨start, blockSize⟩ := block
        obtain hshort | hfits := Nat.lt_or_ge next.length blockSize
        · -- the copy reads past the end of the delta
          have hresult : Chunk.applyBlocks size (n + 1) offset content delta =
              (content, .error .undefined) := by
            rw [Chunk.applyBlocks, hround]
            exact if_pos hshort
          rw [hresult]
          refine ⟨iff_of_true (fun h => (ends_error rfl).mp h) (.here hread hshort),
            fun rest => iff_of_false (fun h => by cases h) fun h => ?_⟩
          exact Nat.not_le.mpr hshort ((blocksEnd_iff hread).mp h).1
        · -- the block is copied: each round reads a byte, so the induction applies to the rest
          have hless := hread.shorter
          have hdrop : (next.drop blockSize).length ≤ n := by
            rw [List.length_drop]
            omega
          rw [applyBlocks_some hread hfits]
          obtain ⟨hoverrun, hend⟩ :=
            (applyBlocks_spec hdrop : (¬ Ends (Chunk.applyBlocks size n (start + blockSize)
              (writeAt content start (next.take blockSize)) (next.drop blockSize)).2 ↔ _) ∧ _)
          refine ⟨hoverrun.trans ?_, fun rest => (hend rest).trans ?_⟩
          · rw [blocksOverrun_iff hread, or_iff_right (Nat.not_lt.mpr hfits), and_iff_right hfits]
          · rw [blocksEnd_iff hread, and_iff_right hfits]

/-! ## Chunks -/

/-- The delta of a chunk of this size gives it a size that no chunk may have,
or overruns its end in a block. -/
inductive ChunkOverrun (chunkSize : Nat) : List Byte → Prop where
  | size {number : Nat} {tail : List Byte} (h : Readable number tail) (hlarge : maxAllowedCapacity <
    chunkSize ^^^ number) :
      ChunkOverrun chunkSize (num number ++ tail)
  | block {number : Nat} {tail : List Byte} (h : Readable number tail)
    (hallowed : chunkSize ^^^ number ≤ maxAllowedCapacity)
      (hblocks : BlocksOverrun (chunkSize ^^^ number) 0 tail) :
        ChunkOverrun chunkSize (num number ++ tail)

/-- The delta of a chunk of this size ends, and `rest` is behind it. -/
inductive ChunkEnd (chunkSize : Nat) : List Byte → List Byte → Prop where
  | nothing : ChunkEnd chunkSize [] []
  | blocks {number : Nat} {tail rest : List Byte} (h : Readable number tail)
    (hallowed : chunkSize ^^^ number ≤ maxAllowedCapacity)
      (hblocks : BlocksEnd (chunkSize ^^^ number) 0 tail rest) :
        ChunkEnd chunkSize (num number ++ tail) rest

theorem reserveSpace_spec (c : Chunk) (n : Nat) :
    (n ≤ maxAllowedCapacity ∧ ∃ reserved, c.reserveSpace n = .ok reserved) ∨
      (maxAllowedCapacity < n ∧ c.reserveSpace n =
        .error (.assertion "newCapacity <= maxAllowedCapacity && newCapacity >= 0")) := by
  unfold Chunk.reserveSpace
  by_cases h : n ≤ maxAllowedCapacity
  · rw [dif_pos h]
    refine Or.inl ⟨h, ?_⟩
    split
    · exact ⟨_, rfl⟩
    · exact ⟨_, rfl⟩
  · exact Or.inr ⟨Nat.not_le.mp h, dif_neg h⟩

theorem applyReserved_result (c : Chunk) (size : Nat) (h : size ≤ c.content.length)
    (delta : List Byte) :
    (c.applyReserved size h delta).2 =
    (Chunk.applyBlocks size delta.length 0 c.content delta).2 := by
  cases happlied : c.applyReserved size h delta with
  | mk c' result =>
    cases result with
    | error e => exact (Chunk.applyReserved_error happlied).1.symm
    | ok next => exact (Chunk.applyReserved_ok happlied).1.symm

section
variable {chunkSize number : Nat} {delta tail rest : List Byte}

theorem ChunkOverrun.reads (h : ChunkOverrun chunkSize delta) :
    delta ≠ [] ∧ ∃ read, varUIntTrie.decodeVarUIntAt delta = .ok read := by
  cases h with
  | size h => exact ⟨List.append_ne_nil_of_left_ne_nil (num_ne_nil h.1) _, _, read_iff.mpr ⟨rfl, h⟩⟩
  | block h => exact ⟨List.append_ne_nil_of_left_ne_nil (num_ne_nil h.1) _, _,
    read_iff.mpr ⟨rfl, h⟩⟩

theorem chunkOverrun_iff (hread : varUIntTrie.decodeVarUIntAt delta = .ok (number, tail)) :
    ChunkOverrun chunkSize delta ↔ maxAllowedCapacity < chunkSize ^^^ number ∨
      (chunkSize ^^^ number ≤ maxAllowedCapacity ∧
        BlocksOverrun (chunkSize ^^^ number) 0 tail) := by
  constructor
  · intro h
    cases h with
    | size h hlarge =>
      obtain ⟨rfl, rfl⟩ := Prod.mk.inj (Except.ok.inj (hread.symm.trans (read_iff.mpr ⟨rfl, h⟩)))
      exact Or.inl hlarge
    | block h hallowed hblocks =>
      obtain ⟨rfl, rfl⟩ := Prod.mk.inj (Except.ok.inj (hread.symm.trans (read_iff.mpr ⟨rfl, h⟩)))
      exact Or.inr ⟨hallowed, hblocks⟩
  · obtain ⟨rfl, h⟩ := read_iff.mp hread
    rintro (hlarge | ⟨hallowed, hblocks⟩)
    · exact .size h hlarge
    · exact .block h hallowed hblocks

theorem chunkEnd_nil_iff : ChunkEnd chunkSize [] rest ↔ [] = rest := by
  constructor
  · intro h
    generalize hdelta : ([] : List Byte) = delta at h
    cases h with
    | nothing => exact hdelta
    | blocks h => exact absurd hdelta.symm (List.append_ne_nil_of_left_ne_nil (num_ne_nil h.1) _)
  · rintro rfl
    exact .nothing

theorem ChunkEnd.reads (h : ChunkEnd chunkSize delta rest) (hne : delta ≠ []) :
    ∃ read, varUIntTrie.decodeVarUIntAt delta = .ok read := by
  cases h with
  | nothing => exact absurd rfl hne
  | blocks h => exact ⟨_, read_iff.mpr ⟨rfl, h⟩⟩

theorem chunkEnd_iff (hne : delta ≠ [])
    (hread : varUIntTrie.decodeVarUIntAt delta = .ok (number, tail)) :
    ChunkEnd chunkSize delta rest ↔ chunkSize ^^^ number ≤ maxAllowedCapacity ∧
      BlocksEnd (chunkSize ^^^ number) 0 tail rest := by
  constructor
  · intro h
    cases h with
    | nothing => exact absurd rfl hne
    | blocks h hallowed hblocks =>
      obtain ⟨rfl, rfl⟩ := Prod.mk.inj (Except.ok.inj (hread.symm.trans (read_iff.mpr ⟨rfl, h⟩)))
      exact ⟨hallowed, hblocks⟩
  · obtain ⟨rfl, h⟩ := read_iff.mp hread
    rintro ⟨hallowed, hblocks⟩
    exact .blocks h hallowed hblocks

end

/-- A call of `Chunk::applyDelta`: what makes it fail to end, and where it ends. -/
theorem applyDelta_spec (c : Chunk) (delta : List Byte) :
    (¬ Ends (c.applyDelta delta).2 ↔ ChunkOverrun c.chunkSize delta) ∧
      ∀ rest, (c.applyDelta delta).2 = .ok rest ↔ ChunkEnd c.chunkSize delta rest := by
  by_cases hnil : delta = []
  · subst hnil
    refine ⟨iff_of_false (not_not.mpr (ends_ok rfl)) fun h => h.reads.1 rfl, fun rest => ?_⟩
    rw [chunkEnd_nil_iff]
    exact ⟨fun h => Except.ok.inj h, congrArg Except.ok⟩
  cases hread : varUIntTrie.decodeVarUIntAt delta with
  | error e =>
    have hresult : c.applyDelta delta = (c, .error e) := by
      unfold Chunk.applyDelta
      rw [if_neg hnil, hread]
    rw [hresult, decodeVarUIntAt_error hread]
    refine ⟨iff_of_false (not_not.mpr ((ends_error rfl).mpr trivial)) fun h => ?_,
      fun rest => iff_of_false (fun h => by cases h) fun h => ?_⟩
    · obtain ⟨-, read, hread'⟩ := h.reads
      cases hread.symm.trans hread'
    · obtain ⟨read, hread'⟩ := h.reads hnil
      cases hread.symm.trans hread'
  | ok read =>
    obtain ⟨number, tail⟩ := read
    simp only [chunkOverrun_iff hread, chunkEnd_iff hnil hread]
    obtain ⟨hallowed, reserved, hreserve⟩ | ⟨hlarge, hreserve⟩ :=
      reserveSpace_spec c (c.chunkSize ^^^ number)
    · -- the new size is allowed: the blocks decide
      have hresult : (c.applyDelta delta).2 =
          (Chunk.applyBlocks (c.chunkSize ^^^ number) tail.length 0 reserved.content tail).2 := by
        unfold Chunk.applyDelta
        rw [if_neg hnil, hread]
        dsimp only
        split
        · rename_i hfails
          cases hreserve.symm.trans hfails
        · rename_i reserved' hreserve'
          obtain rfl := Except.ok.inj (hreserve.symm.trans hreserve')
          exact applyReserved_result _ _ _ _
      obtain ⟨hoverrun, hend⟩ :=
        (applyBlocks_spec (Nat.le_refl tail.length) :
          (¬ Ends (Chunk.applyBlocks (c.chunkSize ^^^ number) tail.length 0 reserved.content
            tail).2 ↔ _) ∧ _)
      rw [hresult, or_iff_right (Nat.not_lt.mpr hallowed), and_iff_right hallowed]
      exact ⟨hoverrun, fun rest => (hend rest).trans (and_iff_right hallowed).symm⟩
    · -- the new size is not allowed: an assertion
      have hresult : (c.applyDelta delta).2 =
          .error (.assertion "newCapacity <= maxAllowedCapacity && newCapacity >= 0") := by
        unfold Chunk.applyDelta
        rw [if_neg hnil, hread]
        dsimp only
        split
        · rename_i hfails
          obtain rfl := Except.error.inj (hreserve.symm.trans hfails)
          rfl
        · rename_i reserved' hreserve'
          cases hreserve.symm.trans hreserve'
      rw [hresult]
      refine ⟨iff_of_true (fun h => (ends_error rfl).mp h) (Or.inl hlarge),
        fun rest => iff_of_false (fun h => by cases h) ?_⟩
      exact fun hend => Nat.not_le.mpr hlarge hend.1

/-! ## Copies -/

/-- A call of `memcpy` to `start` in a memory of `capacity` bytes. -/
structure Copy where
  start : Nat
  size : Nat
  capacity : Nat

namespace Chunk

/-- The copies of the loop of `applyDelta`. -/
def blockCopies (size capacity : Nat) : Nat → Nat → List Byte → List Copy
  | 0, _, _ => []
  | n + 1, offset, delta =>
    match nextBlock size offset delta with
    | .ok (some (start, blockSize), delta) =>
      ⟨start, blockSize, capacity⟩ ::
        if delta.length < blockSize then []
        else blockCopies size capacity n (start + blockSize) (delta.drop blockSize)
    | _ => []

/-- The copies of `applyDelta`. -/
def copies (c : Chunk) (delta : List Byte) : List Copy :=
  if delta = [] then []
  else match varUIntTrie.decodeVarUIntAt delta with
    | .error _ => []
    | .ok (number, delta) =>
      match c.reserveSpace (c.chunkSize ^^^ number) with
      | .error _ => []
      | .ok reserved => blockCopies (c.chunkSize ^^^ number) reserved.capacity delta.length 0 delta

/-- No copy leaves the memory of the chunk, and more rounds of the loop than there are bytes would
change nothing. -/
structure CopiesSafely (c : Chunk) (delta : List Byte) : Prop where
  inside : ∀ copy ∈ c.copies delta, copy.start + copy.size ≤ copy.capacity
  rounds : ∀ size n offset content, delta.length ≤ n →
    applyBlocks size n offset content delta = applyBlocks size delta.length offset content delta

theorem blockCopies_inside {size capacity : Nat} (hle : size ≤ capacity) :
    ∀ {n offset : Nat} {delta : List Byte} {copy : Copy},
    copy ∈ blockCopies size capacity n offset delta → copy.start + copy.size ≤ copy.capacity
  | 0, _, _, _, h => by cases h
  | n + 1, offset, delta, copy, h => by
    unfold blockCopies at h
    split at h
    · rename_i start blockSize next hround
      obtain ⟨-, hbound⟩ := nextBlock_bounds hround
      obtain rfl | h := List.mem_cons.mp h
      · exact Nat.le_trans hbound hle
      · split at h
        · cases h
        · exact blockCopies_inside hle h
    · cases h

/-- The loop writes nothing but its copies. -/
theorem applyBlocks_copies {size capacity i : Nat} : ∀ {n offset : Nat} {content delta : List Byte},
    (∀ copy ∈ blockCopies size capacity n offset delta, i < copy.start ∨
      copy.start + copy.size ≤ i) →
    (applyBlocks size n offset content delta).1[i]? = content[i]?
  | 0, _, _, _, _ => rfl
  | n + 1, offset, content, delta, h => by
    unfold blockCopies at h
    unfold applyBlocks
    cases hround : nextBlock size offset delta with
    | error e => rfl
    | ok read =>
      obtain ⟨block, next⟩ := read
      cases block with
      | none => rfl
      | some block =>
        obtain ⟨start, blockSize⟩ := block
        rw [hround] at h
        obtain ⟨hfirst, hrest⟩ := List.forall_mem_cons.mp h
        dsimp only at hfirst hrest ⊢
        split
        · rfl
        · rename_i hfits
          rw [if_neg hfits] at hrest
          have hlength : (next.take blockSize).length ≤ blockSize := List.length_take_le _ _
          rw [applyBlocks_copies hrest, writeAt_frame (by omega)]

/-- A round reads at least one byte, so rounds are left over when all bytes are read. -/
theorem applyBlocks_rounds {size : Nat} :
    ∀ {n m offset : Nat} {content delta : List Byte}, delta.length ≤ n → delta.length ≤ m →
    applyBlocks size n offset content delta = applyBlocks size m offset content delta
  | 0, m, offset, content, delta, hn, _ => by
    obtain rfl := List.eq_nil_of_length_eq_zero (Nat.le_zero.mp hn)
    cases m with
    | zero => rfl
    | succ m => exact (applyBlocks_none .finished).symm
  | n + 1, 0, offset, content, delta, _, hm => by
    obtain rfl := List.eq_nil_of_length_eq_zero (Nat.le_zero.mp hm)
    exact applyBlocks_none .finished
  | n + 1, m + 1, offset, content, delta, hn, hm => by
    unfold applyBlocks
    split
    · rfl
    · rfl
    · rename_i start blockSize next hround
      have hless := (nextBlock_iff.mp hround).shorter
      split
      · rfl
      · apply applyBlocks_rounds
        · rw [List.length_drop]
          omega
        · rw [List.length_drop]
          omega

theorem copiesSafely (c : Chunk) (delta : List Byte) : c.CopiesSafely delta := by
  refine ⟨fun copy hcopy => ?_, fun size n offset content hn =>
    applyBlocks_rounds hn (Nat.le_refl _)⟩
  unfold copies at hcopy
  split at hcopy
  · cases hcopy
  split at hcopy
  · cases hcopy
  split at hcopy
  · cases hcopy
  · rename_i reserved hreserve
    exact blockCopies_inside (reserveSpace_le hreserve) hcopy

end Chunk

/-! ## The chunks of a page -/

/-- One of the deltas of chunks of these sizes, one after the other, is overrun. -/
inductive ChunksOverrun : List Nat → List Byte → Prop where
  | here {size : Nat} {sizes : List Nat} {delta : List Byte} (h : ChunkOverrun size delta) :
    ChunksOverrun (size :: sizes) delta
  | later {size : Nat} {sizes : List Nat} {delta rest : List Byte} (h : ChunkEnd size delta rest)
    (hrest : ChunksOverrun sizes rest) :
      ChunksOverrun (size :: sizes) delta

/-- The deltas of chunks of these sizes end. -/
inductive ChunksEnd : List Nat → List Byte → Prop where
  | nil {delta : List Byte} : ChunksEnd [] delta
  | cons {size : Nat} {sizes : List Nat} {delta rest : List Byte} (h : ChunkEnd size delta rest)
    (hrest : ChunksEnd sizes rest) :
      ChunksEnd (size :: sizes) delta

namespace Asa

/-- The sizes of the chunks of migrants. -/
def chunkSizes (migrants : List (Migrant Chunk)) : List Nat :=
  migrants.map fun m => m.chunk.chunkSize

theorem applyMigrants_spec : ∀ (migrants : List (Migrant Chunk)) (reader : List Byte),
    (¬ Ends (Page.applyMigrants migrants reader).2 ↔ ChunksOverrun (chunkSizes migrants) reader) ∧
      ((∃ rest, (Page.applyMigrants migrants reader).2 = .ok rest) ↔
        ChunksEnd (chunkSizes migrants) reader)
  | [], reader => by
    refine ⟨iff_of_false (not_not.mpr (ends_ok rfl)) fun h => ?_, iff_of_true ⟨_, rfl⟩ .nil⟩
    cases h
  | m :: migrants, reader => by
    obtain ⟨hoverrun, hend⟩ := applyDelta_spec m.chunk reader
    cases happly : m.chunk.applyDelta reader with
    | mk chunk result =>
      rw [happly] at hoverrun hend
      cases result with
      | error e =>
        have hresult : (Page.applyMigrants (m :: migrants) reader).2 = .error e := by
          unfold Page.applyMigrants
          rw [happly]
        have hno : ∀ rest, ¬ ChunkEnd m.chunk.chunkSize reader rest := fun rest h => by
          cases (hend rest).mpr h
        rw [hresult]
        refine ⟨⟨fun h => .here (hoverrun.mp h), fun h => ?_⟩,
          iff_of_false (fun h => ?_) fun h => ?_⟩
        · cases h with
          | here h => exact hoverrun.mpr h
          | later h => exact absurd h (hno _)
        · obtain ⟨_, h⟩ := h
          cases h
        · cases h with
          | cons h => exact hno _ h
      | ok rest =>
        have hresult : (Page.applyMigrants (m :: migrants) reader).2 =
            (Page.applyMigrants migrants rest).2 := by
          rw [Page.applyMigrants, happly]
        have hrest : ChunkEnd m.chunk.chunkSize reader rest := (hend rest).mp rfl
        -- the chunk ends at one place only
        have hsame : ∀ {rest'}, ChunkEnd m.chunk.chunkSize reader rest' → rest = rest' :=
          fun h => Except.ok.inj ((hend _).mpr h)
        obtain ⟨hoverrun', hend'⟩ := applyMigrants_spec migrants rest
        rw [hresult]
        refine ⟨hoverrun'.trans ⟨.later hrest, fun h => ?_⟩, hend'.trans ⟨.cons hrest, fun h => ?_⟩⟩
        · cases h with
          | here h => exact absurd (ends_ok rfl) (hoverrun.mpr h)
          | later h hlater =>
            rw [hsame h]
            exact hlater
        · cases h with
          | cons h hlater =>
            rw [hsame h]
            exact hlater

/-! ## Identifiers -/

/-- What a round of the loop over the identifiers reads. -/
inductive IDRound (count : Nat) (index : Int) :
    List Byte → Option (Nat × VarLenFullID) → List Byte → Prop where
  | terminator {next : List Byte} (h : Readable 0 next) :
    IDRound count index (num 0 ++ next) none next
  | id {diff : Nat} {id : VarLenFullID} {reader next : List Byte}
      (hdiff : 0 < diff) (h : Readable diff reader)
      (hindex : (index + diff).toNat ≤ count)
      (hremoval : (index + diff).toNat < count → reader.head? ≠ some 0)
      (hid : VarLenFullID.read reader = .ok (id, next)) :
        IDRound count index (num diff ++ reader) (some ((index + diff).toNat, id)) next

/-- The delta ends behind the index of a migrant that the page has. -/
def IndexOverrun (count : Nat) (index : Int) (reader : List Byte) : Prop :=
  ∃ diff, 0 < diff ∧ Readable diff [] ∧ (index + diff).toNat ≠ count ∧ reader = num diff

theorem VarLenFullID.read_nil : VarLenFullID.read [] =
    .error (.outOfRange "readPrefixCode: invalid identifier") := by decide +kernel

theorem nextID_iff {count : Nat} {index : Int} {reader next : List Byte}
    {r : Option (Nat × VarLenFullID)} :
    Page.nextID count index reader = .ok (r, next) ↔ IDRound count index reader r next := by
  constructor
  · intro h
    unfold Page.nextID at h
    obtain ⟨⟨diff, tail⟩, hread, hround⟩ := bind_ok.mp h
    obtain ⟨rfl, hreadable⟩ := read_iff.mp hread
    dsimp only at hround
    split at hround
    · rename_i hzero
      subst hzero
      obtain ⟨rfl, rfl⟩ := Prod.mk.inj (Except.ok.inj hround)
      exact .terminator hreadable
    rename_i hdiff
    have hdiff : 0 < diff := Nat.pos_of_ne_zero hdiff
    split at hround
    · -- a new migrant: there is nothing to remove
      rename_i hcount
      obtain ⟨⟨id, next'⟩, hid, hlast⟩ := bind_ok.mp hround
      obtain ⟨rfl, rfl⟩ := Prod.mk.inj (Except.ok.inj hlast)
      exact .id hdiff hreadable (Nat.le_of_eq hcount) (fun hlt =>
        absurd hcount (Nat.ne_of_lt hlt)) hid
    · -- an old index: a zero in place of the identifier would remove the migrant
      split at hround
      · cases hround
      split at hround
      · cases hround
      rename_i hremoval
      obtain ⟨⟨id, next'⟩, hid, hlast⟩ := bind_ok.mp hround
      dsimp only at hlast
      split at hlast
      · rename_i hlt
        obtain ⟨rfl, rfl⟩ := Prod.mk.inj (Except.ok.inj hlast)
        exact .id hdiff hreadable (Nat.le_of_lt hlt) (fun _ => hremoval) hid
      · cases hlast
  · intro h
    unfold Page.nextID
    cases h with
    | terminator h => exact bind_ok.mpr ⟨(0, next), read_iff.mpr ⟨rfl, h⟩, rfl⟩
    | @id diff id tail next hdiff h hindex hremoval hid =>
      refine bind_ok.mpr ⟨(diff, tail), read_iff.mpr ⟨rfl, h⟩, ?_⟩
      dsimp only
      rw [if_neg (Nat.pos_iff_ne_zero.mp hdiff)]
      have hne : tail ≠ [] := by
        rintro rfl
        cases VarLenFullID.read_nil.symm.trans hid
      by_cases hcount : (index + diff).toNat = count
      · rw [if_pos hcount]
        exact bind_ok.mpr ⟨(id, next), hid, rfl⟩
      · have hlt : (index + diff).toNat < count := Nat.lt_of_le_of_ne hindex hcount
        rw [if_neg hcount, if_neg hne, if_neg (hremoval hlt)]
        refine bind_ok.mpr ⟨(id, next), hid, ?_⟩
        exact if_pos hlt

/-- A round that throws, and one that reads past the end. -/
theorem nextID_error {count : Nat} {index : Int} {reader : List Byte} {e : Exn}
    (h : Page.nextID count index reader = .error e) :
    ¬ e.IsThrown ↔ IndexOverrun count index reader := by
  unfold Page.nextID at h
  cases hread : varUIntTrie.decodeVarUIntAt reader with
  | error e' =>
    rw [hread] at h
    obtain rfl : e' = e := Except.error.inj h
    rw [decodeVarUIntAt_error hread]
    refine iff_of_false (not_not.mpr trivial) ?_
    rintro ⟨diff, -, hreadable, -, rfl⟩
    have hok := read_iff.mpr ⟨(List.append_nil (num diff)).symm, hreadable⟩
    cases hread.symm.trans hok
  | ok read =>
    obtain ⟨diff, tail⟩ := read
    obtain ⟨rfl, hreadable⟩ := read_iff.mp hread
    have hoverrun : IndexOverrun count index (num diff ++ tail) ↔ 0 < diff ∧
        (index + diff).toNat ≠ count ∧ tail = [] := by
      constructor
      · rintro ⟨diff', hdiff, hreadable', hcount, heq⟩
        rw [← List.append_nil (num diff')] at heq
        obtain ⟨rfl, rfl⟩ := num_inj hreadable.1 heq hreadable'
        exact ⟨hdiff, hcount, rfl⟩
      · rintro ⟨hdiff, hcount, rfl⟩
        exact ⟨diff, hdiff, hreadable, hcount, List.append_nil _⟩
    rw [hread] at h
    change (if diff = 0 then _ else _) = _ at h
    rw [hoverrun]
    -- reading an identifier throws, or what comes after does
    have hthrown : ∀ {x : Except Exn (VarLenFullID × List Byte)} {f : VarLenFullID × List Byte →
        Except Exn (Option (Nat × VarLenFullID) × List Byte)},
          x = VarLenFullID.read tail → (∀ a e, f a = .error e → e.IsThrown) → x >>= f = .error e →
            e.IsThrown := by
      rintro _ f rfl hf hbind
      obtain hid | ⟨a, -, hlast⟩ := bind_error.mp hbind
      · rw [VarLenFullID.read_error hid]
        trivial
      · exact hf a e hlast
    split at h
    · cases h
    rename_i hdiff
    split at h
    · rename_i hcount
      refine iff_of_false (not_not.mpr (hthrown rfl (fun a e hlast => by cases hlast) h))
        fun hover => hover.2.1 hcount
    rename_i hcount
    split at h
    · rename_i hnil
      obtain rfl := Except.error.inj h
      exact iff_of_true id ⟨Nat.pos_of_ne_zero hdiff, hcount, hnil⟩
    rename_i hne
    refine iff_of_false (not_not.mpr ?_) fun hover => hne hover.2.2
    split at h
    · obtain rfl := Except.error.inj h
      trivial
    · refine hthrown rfl (fun a e hlast => ?_) h
      dsimp only at hlast
      split at hlast
      · cases hlast
      · obtain rfl := Except.error.inj hlast
        trivial

/-- The sizes of the chunks, when the migrant at the index is given an identifier. -/
def withMigrant (sizes : List Nat) (index : Nat) : List Nat :=
  if index = sizes.length then sizes ++ [0] else sizes

theorem chunkSizes_length (migrants : List (Migrant Chunk)) :
    (chunkSizes migrants).length = migrants.length := List.length_map _

theorem chunkSizes_setID (migrants : List (Migrant Chunk)) (index : Nat) (id : VarLenFullID) :
    chunkSizes (Page.setID migrants index id) = withMigrant (chunkSizes migrants) index := by
  unfold withMigrant Page.setID
  rw [chunkSizes_length]
  split
  · exact List.map_append
  · have hchunks := congrArg (List.map Chunk.chunkSize) (modifyID_chunks migrants index id)
    rw [List.map_map, List.map_map] at hchunks
    exact hchunks

/-- The delta of a page whose native chunk and migrants have these sizes is overrun: behind an
index, or in the delta of a chunk. -/
inductive DeltaOverrun (native : Nat) : List Nat → Int → List Byte → Prop where
  | index {sizes : List Nat} {index : Int} {reader : List Byte}
    (h : IndexOverrun sizes.length index reader) :
      DeltaOverrun native sizes index reader
  | id {sizes : List Nat} {index : Int} {reader next : List Byte} {index' : Nat} {id : VarLenFullID}
      (h : IDRound sizes.length index reader (some (index', id)) next)
        (hrest : DeltaOverrun native (withMigrant sizes index') index' next) :
      DeltaOverrun native sizes index reader
  | chunks {sizes : List Nat} {index : Int} {reader next : List Byte}
    (h : IDRound sizes.length index reader none next)
      (hrest : ChunksOverrun (native :: sizes) next) : DeltaOverrun native sizes index reader

/-- The delta ends: it is read up to the digest. -/
inductive DeltaEnd (native : Nat) : List Nat → Int → List Byte → Prop where
  | id {sizes : List Nat} {index : Int} {reader next : List Byte} {index' : Nat} {id : VarLenFullID}
      (h : IDRound sizes.length index reader (some (index', id)) next)
        (hrest : DeltaEnd native (withMigrant sizes index') index' next) :
      DeltaEnd native sizes index reader
  | chunks {sizes : List Nat} {index : Int} {reader next : List Byte}
    (h : IDRound sizes.length index reader none next)
      (hrest : ChunksEnd (native :: sizes) next) : DeltaEnd native sizes index reader

section
variable {native : Nat} {sizes : List Nat} {index : Int} {reader next next' : List Byte}
  {index' : Nat} {id : VarLenFullID}
  {r r' : Option (Nat × VarLenFullID)} {e : Exn}

theorem IDRound.unique {count : Nat} (h : IDRound count index reader r next)
    (h' : IDRound count index reader r' next') :
    r = r' ∧ next = next' := by
  have hread := nextID_iff.mpr h
  rw [nextID_iff.mpr h'] at hread
  obtain ⟨rfl, rfl⟩ := Prod.mk.inj (Except.ok.inj hread)
  exact ⟨rfl, rfl⟩

theorem IDRound.not_indexOverrun {count : Nat} (h : IDRound count index reader r next) :
    ¬ IndexOverrun count index reader := by
  rintro ⟨diff, hdiff, hreadable, -, heq⟩
  rw [← List.append_nil (num diff)] at heq
  cases h with
  | terminator h =>
    obtain ⟨rfl, -⟩ := num_inj h.1 heq hreadable
    exact Nat.lt_irrefl 0 hdiff
  | id _ h _ _ hid =>
    obtain ⟨-, rfl⟩ := num_inj h.1 heq hreadable
    cases VarLenFullID.read_nil.symm.trans hid

theorem deltaOverrun_iff_of_none (h : IDRound sizes.length index reader none next) :
    DeltaOverrun native sizes index reader ↔ ChunksOverrun (native :: sizes) next := by
  constructor
  · intro hoverrun
    cases hoverrun with
    | index h' => exact absurd h' h.not_indexOverrun
    | id h' => cases (h.unique h').1
    | chunks h' hrest =>
      rw [(h.unique h').2]
      exact hrest
  · exact .chunks h

theorem deltaOverrun_iff (h : IDRound sizes.length index reader (some (index', id)) next) :
    DeltaOverrun native sizes index reader ↔
      DeltaOverrun native (withMigrant sizes index') index' next := by
  constructor
  · intro hoverrun
    cases hoverrun with
    | index h' => exact absurd h' h.not_indexOverrun
    | id h' hrest =>
      obtain ⟨hid, rfl⟩ := h.unique h'
      obtain ⟨rfl, rfl⟩ := Prod.mk.inj (Option.some.inj hid)
      exact hrest
    | chunks h' => cases (h.unique h').1
  · exact .id h

theorem deltaOverrun_iff_of_error (h : Page.nextID sizes.length index reader = .error e) :
    DeltaOverrun native sizes index reader ↔ ¬ e.IsThrown := by
  rw [nextID_error h]
  constructor
  · intro hoverrun
    cases hoverrun with
    | index h' => exact h'
    | id h' => cases h.symm.trans (nextID_iff.mpr h')
    | chunks h' => cases h.symm.trans (nextID_iff.mpr h')
  · exact .index

theorem deltaEnd_iff_of_none (h : IDRound sizes.length index reader none next) :
    DeltaEnd native sizes index reader ↔ ChunksEnd (native :: sizes) next := by
  constructor
  · intro hend
    cases hend with
    | id h' => cases (h.unique h').1
    | chunks h' hrest =>
      rw [(h.unique h').2]
      exact hrest
  · exact .chunks h

theorem deltaEnd_iff (h : IDRound sizes.length index reader (some (index', id)) next) :
    DeltaEnd native sizes index reader ↔
      DeltaEnd native (withMigrant sizes index') index' next := by
  constructor
  · intro hend
    cases hend with
    | id h' hrest =>
      obtain ⟨hid, rfl⟩ := h.unique h'
      obtain ⟨rfl, rfl⟩ := Prod.mk.inj (Option.some.inj hid)
      exact hrest
    | chunks h' => cases (h.unique h').1
  · exact .id h

theorem not_deltaEnd_of_error (h : Page.nextID sizes.length index reader = .error e) :
    ¬ DeltaEnd native sizes index reader := by
  intro hend
  cases hend with
  | id h' => cases h.symm.trans (nextID_iff.mpr h')
  | chunks h' => cases h.symm.trans (nextID_iff.mpr h')

theorem IDRound.shorter {count : Nat} (h : IDRound count index reader (some (index', id)) next) :
    next.length < reader.length := by
  generalize hr : some (index', id) = r at h
  cases h with
  | terminator => cases hr
  | id _ h _ _ hid =>
    have hpos := List.length_pos_of_ne_nil (num_ne_nil h.1)
    have hle := VarLenFullID.read_length hid
    rw [List.length_append]
    omega

end

theorem nextID_nil (count : Nat) (index : Int) :
    Page.nextID count index [] = .error (.outOfRange "readPrefixCode: invalid identifier") := by
  have hread : varUIntTrie.decodeVarUIntAt [] =
      .error (.outOfRange "readPrefixCode: invalid identifier") := by decide +kernel
  unfold Page.nextID
  rw [hread]
  rfl

/-- The loop over the identifiers, with as many rounds as there are bytes: what is left to be read
is overrun, or ends, as the delta of the page does. -/
theorem applyIDs_spec {native : Nat} :
    ∀ {n : Nat} {index : Int} {migrants : List (Migrant Chunk)} {reader : List Byte},
    reader.length ≤ n →
    (∀ {e}, (Page.applyIDs n index migrants reader).2 = .error e →
      (DeltaOverrun native (chunkSizes migrants) index reader ↔ ¬ e.IsThrown) ∧
      ¬ DeltaEnd native (chunkSizes migrants) index reader) ∧
    ∀ {next}, (Page.applyIDs n index migrants reader).2 = .ok next →
      (DeltaOverrun native (chunkSizes migrants) index reader ↔
        ChunksOverrun (native :: chunkSizes (Page.applyIDs n index migrants reader).1) next) ∧
      (DeltaEnd native (chunkSizes migrants) index reader ↔
        ChunksEnd (native :: chunkSizes (Page.applyIDs n index migrants reader).1) next)
  | 0, index, migrants, reader, hn => by
    obtain rfl := List.eq_nil_of_length_eq_zero (Nat.le_zero.mp hn)
    refine ⟨fun h => ?_, fun h => by cases h⟩
    obtain rfl := Except.error.inj h
    exact ⟨deltaOverrun_iff_of_error (nextID_nil _ index),
      not_deltaEnd_of_error (nextID_nil _ index)⟩
  | n + 1, index, migrants, reader, hn => by
    have hlength := chunkSizes_length migrants
    cases hround : Page.nextID migrants.length index reader with
    | error e =>
      have hresult : Page.applyIDs (n + 1) index migrants reader = (migrants, .error e) := by
        unfold Page.applyIDs
        rw [hround]
      rw [← hlength] at hround
      rw [hresult]
      refine ⟨fun h => ?_, fun h => by cases h⟩
      obtain rfl := Except.error.inj h
      exact ⟨deltaOverrun_iff_of_error hround, not_deltaEnd_of_error hround⟩
    | ok read =>
      obtain ⟨id, next⟩ := read
      have hread := nextID_iff.mp hround
      rw [← hlength] at hread
      cases id with
      | none =>
        -- the identifiers end, and the chunks are left
        have hresult : Page.applyIDs (n + 1) index migrants reader = (migrants, .ok next) := by
          unfold Page.applyIDs
          rw [hround]
        rw [hresult]
        refine ⟨fun h => (by cases h), fun h => ?_⟩
        obtain rfl := Except.ok.inj h
        exact ⟨deltaOverrun_iff_of_none hread, deltaEnd_iff_of_none hread⟩
      | some id =>
        obtain ⟨index', id⟩ := id
        have hresult : Page.applyIDs (n + 1) index migrants reader =
            Page.applyIDs n index' (Page.setID migrants index' id) next := by
          rw [Page.applyIDs, hround]
        have hless := hread.shorter
        rw [hresult, deltaOverrun_iff hread, deltaEnd_iff hread,
          ← chunkSizes_setID migrants index' id]
        exact applyIDs_spec (by omega)

/-! ## Pages -/

variable {D : Type} [DecidableEq D]

/-- What is left to do for a page when the identifiers are read: the chunks, the native one first,
and then the digest. -/
theorem applyDelta_chunks (calculator : DigestCalculator D) {page : Page Chunk}
    (pageID : VarLenFullID) {content reader : List Byte}
    (blockNumber : Int) {migrants : List (Migrant Chunk)} (hne : content ≠ [])
    (hids : Page.applyIDs content.length (-1) page.migrants content = (migrants, .ok reader))
    (finalDigest : D) :
    (page.applyDelta calculator pageID ⟨content, finalDigest⟩ blockNumber).2 =
      match Page.applyMigrants (⟨pageID, page.native⟩ :: migrants) reader with
      | (_, .error e) => .error e
      | (chunks, .ok _) =>
        if calculator.keys (chunks.map fun m => (m.id, calculateDigest calculator m.chunk)) ≠
          finalDigest then
          .error (.invalidArgument ("final digest of page[" ++ pageID.toString ++ "] is not valid"))
        else if blockNumber ≥ page.version then .ok ()
          else .error (.assertion "blockNumber >= version") := by
  unfold Page.applyDelta
  dsimp only
  rw [if_neg hne, hids]
  dsimp only
  rw [Page.applyMigrants]
  dsimp only
  cases page.native.applyDelta reader with
  | mk native result =>
    cases result with
    | error e' => rfl
    | ok reader' =>
      dsimp only
      cases Page.applyMigrants migrants reader' with
      | mk migrants' result =>
        cases result with
        | error e' => rfl
        | ok rest' =>
          dsimp only
          unfold Page.keysDigest
          rw [List.map_cons]
          split
          · rfl
          · split <;> rfl

/-- A call for the delta with this content ends, whatever its digest is, exactly if the delta is not
overrun and, if it is read up to the digest, does not go back to an older block. -/
theorem applyDelta_ends_iff (calculator : DigestCalculator D) (page : Page Chunk)
    (pageID : VarLenFullID) (content : List Byte) (blockNumber : Int) :
    (∀ finalDigest, Ends (page.applyDelta calculator pageID ⟨content, finalDigest⟩ blockNumber).2) ↔
      ¬ DeltaOverrun page.native.chunkSize (chunkSizes page.migrants) (-1) content ∧
        (DeltaEnd page.native.chunkSize (chunkSizes page.migrants) (-1) content →
          page.version ≤ blockNumber) := by
  by_cases hnil : content = []
  · subst hnil
    have hround := nextID_nil (chunkSizes page.migrants).length (-1)
    refine iff_of_true (fun finalDigest => ends_ok rfl) ⟨?_,
      fun hend => absurd hend (not_deltaEnd_of_error hround)⟩
    rw [deltaOverrun_iff_of_error hround]
    exact not_not.mpr trivial
  have hspec : (∀ {e}, (Page.applyIDs content.length (-1) page.migrants content).2 = .error e →
      (DeltaOverrun page.native.chunkSize _ _ _ ↔ _) ∧ _) ∧
        _ := applyIDs_spec (Nat.le_refl content.length)
  obtain ⟨herror, hok⟩ := hspec
  cases hids : Page.applyIDs content.length (-1) page.migrants content with
  | mk migrants result =>
    rw [hids] at herror hok
    cases result with
    | error e =>
      have hresult : ∀ finalDigest,
          (page.applyDelta calculator pageID ⟨content, finalDigest⟩ blockNumber).2 = .error e := by
        intro finalDigest
        unfold Page.applyDelta
        dsimp only
        rw [if_neg hnil, hids]
      -- the identifiers fail: no digest is looked at
      obtain ⟨hoverrun, hend⟩ := herror rfl
      rw [hoverrun, not_not, and_iff_left fun h => absurd h hend]
      constructor
      · intro h
        exact (ends_error (hresult (calculator.keys []))).mp (h _)
      · intro h finalDigest
        exact (ends_error (hresult finalDigest)).mpr h
    | ok reader =>
      obtain ⟨hoverrun, hend⟩ := hok rfl
      obtain ⟨hchunks, hchunksEnd⟩ := applyMigrants_spec (⟨pageID, page.native⟩ :: migrants) reader
      have hresult := applyDelta_chunks calculator pageID blockNumber hnil hids
      rw [hoverrun, hend]
      change (¬ _ ↔ ChunksOverrun (page.native.chunkSize :: chunkSizes migrants) reader) at hchunks
      change (_ ↔ ChunksEnd (page.native.chunkSize :: chunkSizes migrants) reader) at hchunksEnd
      rw [← hchunks, ← hchunksEnd, not_not]
      cases happly : Page.applyMigrants (⟨pageID, page.native⟩ :: migrants) reader with
      | mk chunks result =>
        rw [happly] at hresult
        cases result with
        | error e =>
          rw [and_iff_left (fun ⟨_, h⟩ => by cases h)]
          constructor
          · intro h
            exact (ends_error rfl).mpr ((ends_error (hresult (calculator.keys []))).mp (h _))
          · intro h finalDigest
            exact (ends_error (hresult finalDigest)).mpr ((ends_error rfl).mp h)
        | ok rest =>
          rw [and_iff_right (ends_ok rfl)]
          dsimp only at hresult
          constructor
          · -- the digest that the check accepts
            intro h _
            by_contra hold
            have hends :=
              h (calculator.keys (chunks.map fun m => (m.id, calculateDigest calculator m.chunk)))
            have hassertion := hresult
              (calculator.keys (chunks.map fun m => (m.id, calculateDigest calculator m.chunk)))
            rw [if_neg (not_not.mpr rfl), if_neg hold] at hassertion
            exact (ends_error hassertion).mp hends
          · -- a wrong digest throws
            intro h finalDigest
            have hversion : blockNumber ≥ page.version := h ⟨rest, rfl⟩
            have hcall := hresult finalDigest
            rw [if_pos hversion] at hcall
            split at hcall
            · exact (ends_error hcall).mpr trivial
            · exact ends_ok hcall

theorem applyIDs_rounds :
    ∀ {n m : Nat} {index : Int} {migrants : List (Migrant Chunk)} {reader : List Byte},
    reader.length ≤ n →
    reader.length ≤ m →
      Page.applyIDs n index migrants reader = Page.applyIDs m index migrants reader
  | 0, m, index, migrants, reader, hn, _ => by
    obtain rfl := List.eq_nil_of_length_eq_zero (Nat.le_zero.mp hn)
    cases m with
    | zero => rfl
    | succ m =>
      rw [Page.applyIDs, Page.applyIDs, nextID_nil]
  | n + 1, 0, index, migrants, reader, _, hm => by
    obtain rfl := List.eq_nil_of_length_eq_zero (Nat.le_zero.mp hm)
    rw [Page.applyIDs, Page.applyIDs, nextID_nil]
  | n + 1, m + 1, index, migrants, reader, hn, hm => by
    unfold Page.applyIDs
    split
    · rfl
    · rfl
    · rename_i index' id next hround
      have hless := (nextID_iff.mp hround).shorter
      exact applyIDs_rounds (by omega) (by omega)

/-- The call ends for this content, whatever the digest of the delta is: it returns or throws, its
loops read their bytes only once, and it reads and writes no byte outside the delta and the memory
of the chunks. -/
structure Page.AppliesSafely (calculator : DigestCalculator D) (page : Page Chunk)
    (pageID : VarLenFullID) (content : List Byte) (blockNumber : Int) : Prop where
  ends : ∀ finalDigest,
    Ends (page.applyDelta calculator pageID ⟨content, finalDigest⟩ blockNumber).2
  rounds : ∀ n, content.length ≤ n →
    Page.applyIDs n (-1) page.migrants content =
      Page.applyIDs content.length (-1) page.migrants content
  chunks : ∀ (c : Chunk) (reader : List Byte), c.CopiesSafely reader

/-- **Untrusted deltas.** A delta is handled safely exactly if it does not end behind the index of a
migrant that the page has, gives no chunk a size that is not allowed, has no block that is longer
than what is left behind its size, and, if it is read up to the digest, is not for a block older
than the page. -/
theorem Page.appliesSafely_iff (calculator : DigestCalculator D) (page : Page Chunk)
    (pageID : VarLenFullID) (content : List Byte)
    (blockNumber : Int) : page.AppliesSafely calculator pageID content blockNumber ↔
      ¬ DeltaOverrun page.native.chunkSize (chunkSizes page.migrants) (-1) content ∧
        (DeltaEnd page.native.chunkSize (chunkSizes page.migrants) (-1) content →
          page.version ≤ blockNumber) := by
  rw [← applyDelta_ends_iff calculator page pageID content blockNumber]
  constructor
  · exact Page.AppliesSafely.ends
  · intro h
    exact ⟨h, fun n hn => applyIDs_rounds hn (Nat.le_refl _), Chunk.copiesSafely⟩

/-- For a page that was just created: a block of three bytes with one byte left, an index that is
not the next one with nothing left, and a chunk of 70000 bytes. -/
theorem Page.not_appliesSafely :
    let calculator : DigestCalculator Unit := ⟨fun _ _ => (), fun _ => ()⟩
    let page : Page Chunk := { version := 0, native := {}, migrants := [] }
    ¬ page.AppliesSafely calculator ⟨[0, 0, 0]⟩ [0, 5, 1, 3, 9] 1 ∧
      ¬ page.AppliesSafely calculator ⟨[0, 0, 0]⟩ [2] 1 ∧
      ¬ page.AppliesSafely calculator ⟨[0, 0, 0]⟩ [0, 240, 240, 160] 1 := by
  intro calculator page
  have hblock : (page.applyDelta calculator ⟨[0, 0, 0]⟩ ⟨[0, 5, 1, 3, 9], ()⟩ 1).2 =
      .error .undefined := by decide +kernel
  have hindex : (page.applyDelta calculator ⟨[0, 0, 0]⟩ ⟨[2], ()⟩ 1).2 = .error .undefined := by
    decide +kernel
  have hsize : (page.applyDelta calculator ⟨[0, 0, 0]⟩ ⟨[0, 240, 240, 160], ()⟩ 1).2 =
      .error (.assertion "newCapacity <= maxAllowedCapacity && newCapacity >= 0") := by
        decide +kernel
  exact ⟨fun h => (ends_error hblock).mp (h.ends ()), fun h => (ends_error hindex).mp (h.ends ()),
    fun h => (ends_error hsize).mp (h.ends ())⟩

end Asa
end Argennon
