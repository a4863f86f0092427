import Argennon.Validator.VerifierCluster
import Mathlib.Data.List.TakeWhile

/- The other parts of the verifier (`validator/RequestScheduler.h`,
   `validator/RequestScheduler.cpp`): resizing collisions, `checkCollisions`, and the
   plain pairwise algorithm `findCollisions`. `getSizeLowerBound` is the lookup of the
   chunk's proposed lower bound, which throws when there is none. -/
namespace Argennon

/-- The resizing collision of a size writer with a block, as both algorithms test
it once the block ends above the lower bound. -/
def resizeCollision (writer block : PlacedBlock) : Bool :=
  let newSize := writer.info.size
  if newSize > 0 then block.offset < newSize else block.collidingEnd > -newSize

namespace RequestScheduler
variable (dag : Dag) (getSizeLowerBound : Except Exn Int)

/-- The inner loop of `findResizingCollisions` over the size writers. -/
def checkWriters (writers : List PlacedBlock) (b : PlacedBlock) : Except Exn Unit :=
  forEach (fun w =>
    if b.info.requestID ≠ w.info.requestID ∧ resizeCollision w b then
      VerifierCluster.addDependencyBetween dag b.info.requestID w.info.requestID
    else .ok ()) writers

/-- `findResizingCollisions` -/
def findResizingCollisions (blocks : List PlacedBlock) : Except Exn Unit :=
  -- `std::upper_bound` and `std::lower_bound` of -1
  let sizeWritersEnd := (blocks.takeWhile fun b => b.offset ≤ -1).length
  let sizeWritersBegin := ((blocks.take sizeWritersEnd).takeWhile fun b => b.offset < -1).length
  if sizeWritersEnd = blocks.length then .ok ()
  else if sizeWritersBegin = sizeWritersEnd then .ok ()
  else do
    let lowerBound ← getSizeLowerBound
    forEach (fun b =>
      if b.offset < 0 then .error (.assertion "offset >= 0")
      else if b.collidingEnd > lowerBound then
        checkWriters dag ((blocks.take sizeWritersEnd).drop sizeWritersBegin) b
      else .ok ()) (blocks.drop sizeWritersEnd)

/-! What `findResizingCollisions` checks. -/

theorem take_takeWhile_length {α : Type} (p : α → Bool) (l : List α) :
    l.take (l.takeWhile p).length = l.takeWhile p :=
  (List.prefix_iff_eq_take.mp (List.takeWhile_prefix p)).symm

theorem drop_takeWhile_length {α : Type} (p : α → Bool) (l : List α) :
    l.drop (l.takeWhile p).length = l.dropWhile p := by
  conv_lhs =>
    arg 2
    rw [← List.takeWhile_append_dropWhile (p := p) (l := l)]
  exact List.drop_left

/-- In a list sorted by offset, the longest prefix whose offsets satisfy a downward
closed test has all of them, and the rest has the others. -/
theorem mem_split_offset {blocks : List PlacedBlock}
    (hs : blocks.Pairwise fun a b => a.offset ≤ b.offset)
    {p : PlacedBlock → Bool}
    (hp : ∀ a b : PlacedBlock, a.offset ≤ b.offset → p b = true → p a = true)
    {b : PlacedBlock} : (b ∈ blocks.takeWhile p ↔ b ∈ blocks ∧ p b = true) ∧
      (b ∈ blocks.dropWhile p ↔ b ∈ blocks ∧ p b = false) := by
  have hdrop : ∀ c ∈ blocks.dropWhile p, p c = false := by
    have hsd := hs.sublist (List.dropWhile_sublist p)
    have hh := List.head?_dropWhile_not p blocks
    intro c hc
    cases hd : blocks.dropWhile p with
    | nil => simp [hd] at hc
    | cons z post =>
      rw [hd] at hh hsd hc
      have hz : p z = false := by simpa using hh
      rcases List.mem_cons.mp hc with rfl | hc
      · exact hz
      · by_contra hne
        have := hp z c (List.rel_of_pairwise_cons hsd hc) (by simpa using hne)
        simp [hz] at this
  have hsplit : b ∈ blocks ↔ b ∈ blocks.takeWhile p ∨ b ∈ blocks.dropWhile p := by
    conv_lhs => rw [← List.takeWhile_append_dropWhile (p := p) (l := blocks)]
    exact List.mem_append
  have htake : b ∈ blocks.takeWhile p → p b = true := List.mem_takeWhile_imp
  have := hdrop b
  constructor <;> constructor
  · exact fun h => ⟨hsplit.mpr (.inl h), htake h⟩
  · rintro ⟨h, hb⟩
    rcases hsplit.mp h with h | h
    · exact h
    · simp [this h] at hb
  · exact fun h => ⟨hsplit.mpr (.inr h), this h⟩
  · rintro ⟨h, hb⟩
    rcases hsplit.mp h with h | h
    · simp [htake h] at hb
    · exact h

/-- The size writers: `sizeWritersBegin` and `sizeWritersEnd` delimit them. -/
theorem mem_sizeWriters {blocks : List PlacedBlock}
    (hs : blocks.Pairwise fun a b => a.offset ≤ b.offset)
    {w : PlacedBlock} :
    w ∈ (blocks.takeWhile fun b => b.offset ≤ -1).dropWhile (fun b => b.offset < -1) ↔
      w ∈ blocks ∧ w.offset = -1 := by
  have h1 := (mem_split_offset hs (p := fun b => decide (b.offset ≤ -1)) (b := w)
    (fun a b hab hb => by simp only [decide_eq_true_eq] at *; omega)).1
  have h2 := (mem_split_offset (hs.sublist (List.takeWhile_sublist fun b => decide (b.offset ≤ -1)))
    (p := fun b => decide (b.offset < -1))
    (b := w) (fun a b hab hb => by simp only [decide_eq_true_eq] at *; omega)).2
  rw [h2, h1]
  simp only [decide_eq_true_eq, decide_eq_false_iff_not]
  exact ⟨fun h => ⟨h.1.1, by omega⟩, fun h => ⟨⟨h.1, by omega⟩, by omega⟩⟩

/-- The edges `findResizingCollisions` asks for: between each size writer and each
block of another request that it could make valid or invalid. -/
theorem findResizingCollisions_ok {blocks : List PlacedBlock}
    (hs : blocks.Pairwise fun a b => a.offset ≤ b.offset) :
    findResizingCollisions dag getSizeLowerBound blocks = .ok () ↔
      ((∃ w ∈ blocks, w.offset = -1) → (∃ b ∈ blocks, 0 ≤ b.offset) →
        ∃ lowerBound, getSizeLowerBound = .ok lowerBound ∧
          ∀ b ∈ blocks, 0 ≤ b.offset → lowerBound < b.collidingEnd → ∀ w ∈ blocks, w.offset = -1 →
            b.info.requestID ≠ w.info.requestID → resizeCollision w b = true →
            VerifierCluster.addDependencyBetween dag b.info.requestID w.info.requestID =
              .ok ()) := by
  have hmem : ∀ b : PlacedBlock, b ∈ blocks.dropWhile (fun b => b.offset ≤ -1) ↔ b ∈ blocks ∧
      0 ≤ b.offset := by
    intro b
    rw [(mem_split_offset hs (p := fun b => decide (b.offset ≤ -1)) (b := b)
      (fun a b hab hb => by simp only [decide_eq_true_eq] at *; omega)).2]
    simp only [decide_eq_false_iff_not]
    exact ⟨fun h => ⟨h.1, by omega⟩, fun h => ⟨h.1, by omega⟩⟩
  unfold findResizingCollisions
  simp only [take_takeWhile_length, drop_takeWhile_length]
  have hwriters := @mem_sizeWriters blocks hs
  by_cases hend : (blocks.takeWhile fun b => b.offset ≤ -1).length = blocks.length
  · -- no memory block
    have hnil : blocks.dropWhile (fun b => b.offset ≤ -1) = [] := by
      rw [← drop_takeWhile_length, hend, List.drop_length]
    simp only [hend, if_true, true_iff]
    rintro - ⟨b, hb, h0⟩
    have := (hmem b).mpr ⟨hb, h0⟩
    simp [hnil] at this
  rw [if_neg hend]
  by_cases hbegin :
      ((blocks.takeWhile fun b => b.offset ≤ -1).takeWhile fun b => b.offset < -1).length =
        (blocks.takeWhile fun b => b.offset ≤ -1).length
  · -- no size writer
    have hnil :
        (blocks.takeWhile fun b => b.offset ≤ -1).dropWhile (fun b => b.offset < -1) = [] := by
      rw [← drop_takeWhile_length, hbegin, List.drop_length]
    simp only [hbegin, if_true, true_iff]
    rintro ⟨w, hw, h1⟩
    have := hwriters.mpr ⟨hw, h1⟩
    simp [hnil] at this
  rw [if_neg hbegin]
  obtain ⟨w₀, hw₀⟩ : ∃ w, w ∈ (blocks.takeWhile fun b => b.offset ≤ -1).dropWhile fun b =>
    b.offset < -1 := by
    refine List.exists_mem_of_ne_nil _ fun hnil => hbegin ?_
    rw [← drop_takeWhile_length, List.drop_eq_nil_iff] at hnil
    exact le_antisymm (List.takeWhile_prefix _).length_le hnil
  obtain ⟨b₀, hb₀⟩ : ∃ b, b ∈ blocks.dropWhile fun b => b.offset ≤ -1 := by
    refine List.exists_mem_of_ne_nil _ fun hnil => hend ?_
    rw [← drop_takeWhile_length, List.drop_eq_nil_iff] at hnil
    exact le_antisymm (List.takeWhile_prefix _).length_le hnil
  rw [bind_ok]
  constructor
  · rintro ⟨lowerBound, hl, hloop⟩ - -
    refine ⟨lowerBound, hl, fun b hb h0 hlt w hw h1 hne hres => ?_⟩
    have hb' := forEach_ok.mp hloop b ((hmem b).mpr ⟨hb, h0⟩)
    rw [if_neg (by omega), if_pos hlt] at hb'
    have := forEach_ok.mp hb' w (hwriters.mpr ⟨hw, h1⟩)
    rwa [if_pos ⟨hne, hres⟩] at this
  · intro h
    obtain ⟨lowerBound, hl, hall⟩ := h ⟨w₀, hwriters.mp hw₀⟩ ⟨b₀, (hmem b₀).mp hb₀⟩
    refine ⟨lowerBound, hl, forEach_ok.mpr fun b hb => ?_⟩
    obtain ⟨hb, h0⟩ := (hmem b).mp hb
    rw [if_neg (by omega)]
    split
    · rename_i hlt
      refine forEach_ok.mpr fun w hw => ?_
      obtain ⟨hw, h1⟩ := hwriters.mp hw
      split
      · rename_i hc
        exact hall b hb h0 hlt w hw h1 hc.1 hc.2
      · rfl
    · rfl

/-- `checkCollisions` -/
def checkCollisions (blocks : List PlacedBlock) : Except Exn Unit := do
  findResizingCollisions dag getSizeLowerBound blocks
  findCollisionCliques dag blocks

/-! The pairwise algorithm. -/

/-- `registerDependency` -/
def registerDependency (u v : Nat) : Except Exn Unit :=
  if u = v then .error (.assertion "u != v")
  else if !dag u v && !dag v u then
    .error (.blockError ("missing \x7b" ++ toString u ++ "," ++ toString v ++
      "\x7d edge in the dependency graph"))
  else .ok ()

/-- Additive blocks at the same location. -/
def additiveSameBlock (a b : PlacedBlock) : Bool :=
  a.info.accessType.isAdditive && a.info.accessType == b.info.accessType &&
    a.offset == b.offset && a.info.size == b.info.size

/-- The body of the inner loop of `findCollisions` for two overlapping blocks. -/
def dependOnOverlap (b c : PlacedBlock) : Except Exn Unit :=
  if b.info.accessType.collides c.info.accessType && !additiveSameBlock b c then
    registerDependency dag b.info.requestID c.info.requestID
  else .ok ()

/-- The inner loop of `findCollisions` over the blocks after `b`. -/
def overlapLoop (b : PlacedBlock) : List PlacedBlock → Except Exn Unit
  | [] => .ok ()
  | c :: rest =>
    if c.offset < b.stop then do
      dependOnOverlap dag b c
      overlapLoop b rest
    else .ok ()

/-- The size writers met so far. -/
structure WriterRange where
  sizeWritersBegin : Nat := 0
  sizeWritersEnd : Nat := 0
  inSizeWriterList : Bool := false
  lowerBound : Int := 0

/-- How block `i` at `offset` changes the range. -/
def WriterRange.next (st : WriterRange) (i : Nat) (offset : Int) : Except Exn WriterRange :=
  if !st.inSizeWriterList && offset == -1 then
    .ok { st with inSizeWriterList := true, sizeWritersBegin := i }
  else if st.inSizeWriterList && offset != -1 then do
    .ok { st with
      inSizeWriterList := false, sizeWritersEnd := i, lowerBound := ← getSizeLowerBound }
  else .ok st

/-- The last part of a turn: the size writers that `b` collides with. -/
def dependOnWriters (blocks : List PlacedBlock) (st : WriterRange) (b : PlacedBlock) :
    Except Exn Unit :=
  if b.stop > st.lowerBound then
    forEach (fun w =>
      if b.info.requestID ≠ w.info.requestID ∧
          (if w.info.size > 0 then b.offset < w.info.size else b.stop > -w.info.size) then
        registerDependency dag b.info.requestID w.info.requestID
      else .ok ()) ((blocks.take st.sizeWritersEnd).drop st.sizeWritersBegin)
  else .ok ()

/-- The outer loop from index `i` on. -/
def findCollisionsLoop (blocks : List PlacedBlock) :
    List PlacedBlock → Nat → WriterRange → Except Exn Unit
  | [], _, _ => .ok ()
  | b :: rest, i, st =>
    if b.offset = -3 then findCollisionsLoop blocks rest (i + 1) st
    else do
      overlapLoop dag b rest
      let st ← st.next getSizeLowerBound i b.offset
      dependOnWriters dag blocks st b
      findCollisionsLoop blocks rest (i + 1) st

/-- `findCollisions` -/
def findCollisions (blocks : List PlacedBlock) : Except Exn Unit :=
  findCollisionsLoop dag getSizeLowerBound blocks blocks 0 {}

end RequestScheduler
end Argennon
