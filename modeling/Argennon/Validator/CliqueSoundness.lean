import Argennon.Validator.CliqueRun

/- Soundness of the cluster-product verifier (`checkCollisions`).

   A cluster stands for the requests whose blocks were found to reach as far as the
   block it is merged into. What a run owes to a pair of slots is `PairOK`: every
   request that `x` carries and whose declared block reaches past the start of `y` is
   linked with the request of `y`. A turn is followed backwards: what the remaining
   slots are owed implies what the slots before the turn are owed.

   One step breaks this. A split leaves the second part of the block an empty
   cluster, so a member whose own block reaches past the split point is forgotten
   there. `SplitLoss` names the pairs lost so; for every other pair that collides
   the verifier is sound. -/
namespace Argennon.RequestScheduler

open ForwardGraph

/-! ## What collides by the specification -/

/-- Overlapping memory blocks whose types collide, and not the same additive block. -/
def MemoryCollision (a b : PlacedBlock) : Prop :=
  0 ≤ a.offset ∧ 0 ≤ b.offset ∧ max a.offset b.offset < min a.collidingEnd b.collidingEnd ∧
    a.info.accessType.collides b.info.accessType = true ∧ additiveSameBlock a b = false

/-- A writer of the chunk size against a reader or a writer of it. -/
def SizeCollision (a b : PlacedBlock) : Prop :=
  a.offset = -1 ∧ (b.offset = -1 ∨ b.offset = -2)

/-- A declared expansion or shrink against a block it could make valid or invalid. -/
def ResizingCollision (getSizeLowerBound : Except Exn Int) (w b : PlacedBlock) : Prop :=
  w.offset = -1 ∧ 0 ≤ b.offset ∧
    if 0 < w.info.size then
      (∃ lowerBound, getSizeLowerBound = .ok lowerBound ∧ lowerBound < b.collidingEnd) ∧
        b.offset < w.info.size
    else -w.info.size < b.collidingEnd

/-- Two requests that collide on the chunk. -/
def Collide (getSizeLowerBound : Except Exn Int) (blocks : List PlacedBlock) (u v : Nat) : Prop :=
  ∃ a ∈ blocks, ∃ b ∈ blocks, a.info.requestID = u ∧ b.info.requestID = v ∧
    (MemoryCollision a b ∨ SizeCollision a b ∨ SizeCollision b a ∨
      ResizingCollision getSizeLowerBound a b ∨ ResizingCollision getSizeLowerBound b a)

/-- What the access lists of a chunk satisfy: sorted by offset, no offset below -3,
`-2` only on read-only and `-1` only on writable size blocks, and no end outside `int32`.
The verifier checks none of it; past the last one its sums overflow. -/
structure WellFormedBlocks (blocks : List PlacedBlock) : Prop where
  sorted : blocks.Pairwise fun a b => a.offset ≤ b.offset
  lowest : ∀ b ∈ blocks, -3 ≤ b.offset
  readable : ∀ b ∈ blocks, b.offset = -2 → b.info.accessType = .read_only
  writable : ∀ b ∈ blocks, b.offset = -1 → b.info.accessType = .writable
  fits : ∀ b ∈ blocks, IsInt32 (b.offset + b.info.size)

/-- A pair that a split can lose. The block `a` of `u` reaches past the end of `b`
and over the start of `z`; the block `c` of another request reaches there too, so
that it is `c` that is split at the end of `b`; all three start before that end. -/
def SplitLoss (blocks : List PlacedBlock) (u v : Nat) : Prop :=
  ∃ a ∈ blocks, ∃ b ∈ blocks, ∃ c ∈ blocks, ∃ z ∈ blocks,
    a.info.requestID = u ∧ z.info.requestID = v ∧ c.info.requestID ≠ u ∧
    (a.info.accessType = .writable ∨ a.info.accessType = .read_only) ∧
    b.info.accessType = a.info.accessType ∧ c.info.accessType = a.info.accessType ∧
    0 ≤ a.offset ∧ a.offset < b.collidingEnd ∧ b.offset < b.collidingEnd ∧
      c.offset < b.collidingEnd ∧
    b.collidingEnd ≤ z.offset ∧ z.offset < a.collidingEnd ∧ z.offset < c.collidingEnd ∧
    z.offset < z.collidingEnd ∧ a.info.accessType.collides z.info.accessType = true

section
variable (dag : Dag) (blocks : List PlacedBlock)

/-- Request `m` declared a block of type `t` that starts by `o` and reaches `g`. -/
def Reaches (m : Nat) (t : Access) (o g : Int) : Prop :=
  ∃ a ∈ blocks, -2 ≤ a.offset ∧ a.info.requestID = m ∧ a.info.accessType = t ∧
    a.offset ≤ o ∧ g ≤ a.stop

/-- The slot stands at the start of a declared, non-empty block of its request. -/
def AtHead (y : Slot) : Prop :=
  ∃ z ∈ blocks, z.offset = y.offset ∧ z.info.requestID = y.info.requestID ∧
    z.info.accessType = y.info.accessType ∧ z.offset < z.stop

/-- The requests of a slot: its own and those of its cluster. -/
def Slot.carriers (x : Slot) : List Nat := x.info.requestID :: x.cluster.members

/-- A request `m` that `x` carries has to be linked with the request of `y`. -/
def Owed (x y : Slot) (m : Nat) : Prop :=
  (∃ g, Reaches blocks m x.info.accessType x.offset g ∧ g ≤ x.stop ∧ y.offset < g) ∧
    x.info.accessType.collides y.info.accessType = true ∧
    additiveSameBlock x.toPlacedBlock y.toPlacedBlock = false ∧ AtHead blocks y

def PairOK (x y : Slot) : Prop :=
  ∀ m ∈ Slot.carriers x, Owed blocks x y m → Linked dag.Edge m y.info.requestID

/-- The requests a writable slot carries are linked with each other. -/
def CliqueOK (x : Slot) : Prop :=
  x.info.accessType = .writable → x.offset ≠ -3 →
    ∀ m ∈ Slot.carriers x, ∀ m' ∈ Slot.carriers x, Linked dag.Edge m m'

/-- How a slot of the run comes from the declared blocks. -/
structure SlotOK (s : Slot) : Prop where
  lowest : -3 ≤ s.offset
  readable : s.offset = -2 → s.info.accessType = .read_only
  writable : s.offset = -1 → s.info.accessType = .writable
  /-- It is a part of a block of its request. -/
  origin : ∃ c ∈ blocks, c.info.requestID = s.info.requestID ∧
    c.info.accessType = s.info.accessType ∧
    c.offset ≤ s.offset ∧ s.collidingEnd ≤ c.collidingEnd
  /-- It ends where a block of its type ends, or it is a size block. -/
  cut : (s.offset < 0 ∧ s.collidingEnd ≤ 0) ∨ ∃ b ∈ blocks, b.info.accessType = s.info.accessType ∧
    b.offset ≤ s.offset ∧ b.collidingEnd = s.collidingEnd
  members_sorted : s.info.accessType = .writable → s.cluster.members.Pairwise (· ≤ ·)

end

/-! ## Slots -/

theorem stop_eq {b : PlacedBlock} (h : 0 ≤ b.offset) : b.stop = b.collidingEnd := by
  unfold PlacedBlock.stop PlacedBlock.collidingEnd
  rw [if_neg (by omega)]

theorem stop_eq_zero {b : PlacedBlock} (h : -2 ≤ b.offset) (h' : b.offset < 0) : b.stop = 0 := by
  unfold PlacedBlock.stop
  rw [if_pos (by omega)]

theorem entered_members_perm (x : Slot) : (Slot.entered x).cluster.members.Perm (Slot.carriers x) :=
  VerifierCluster.insertedMembers_perm _ _ _

theorem mem_entered_members {x : Slot} {m : Nat} :
    m ∈ (Slot.entered x).cluster.members ↔ m ∈ Slot.carriers x :=
  (entered_members_perm x).mem_iff

theorem absorb_carriers_perm (x y : Slot) :
    (Slot.carriers (Slot.absorb y (Slot.entered x))).Perm (Slot.carriers y ++ Slot.carriers x) :=
  ((VerifierCluster.mergedMembers_perm y.cluster (Slot.entered x).cluster).trans
    ((List.Perm.refl _).append (entered_members_perm x))).cons _

theorem mem_absorb_carriers {x y : Slot} {m : Nat} :
    m ∈ Slot.carriers (Slot.absorb y (Slot.entered x)) ↔ m ∈ Slot.carriers y ∨
      m ∈ Slot.carriers x := by
  rw [(absorb_carriers_perm x y).mem_iff, List.mem_append]

theorem not_passive_offset {x : Slot} (h : ¬ Slot.passive x) (h' : -3 ≤ x.offset) :
    -2 ≤ x.offset := by
  have : x.offset ≠ -3 := fun he => h (.inl he)
  omega

theorem canMerge_type {x y : PlacedBlock} (h : canMerge x y = true) :
    x.info.accessType = y.info.accessType := by
  simp only [canMerge, Bool.and_eq_true, beq_iff_eq] at h
  exact h.1

/-- Blocks that merge although they are additive are at the same place. -/
theorem canMerge_additive {x y : PlacedBlock} (h : canMerge x y = true)
    (ha : x.info.accessType = .int_additive) :
    x.offset = y.offset ∧ x.info.size = y.info.size := by
  simp only [canMerge, ha, Access.isAdditive, Bool.and_eq_true, beq_self_eq_true, Bool.not_true,
    Bool.false_or,
    Bool.true_and, beq_iff_eq] at h
  exact h.2

theorem additiveSameBlock_of_canMerge {x y : PlacedBlock} (h : canMerge x y = true)
    (ha : x.info.accessType = .int_additive) : additiveSameBlock x y = true := by
  obtain ⟨h1, h2⟩ := canMerge_additive h ha
  simp [additiveSameBlock, Access.isAdditive, ← canMerge_type h, h1, h2, ha]

/-- What the merge of `x` into a later slot `y` depends on. -/
structure MergeOK (x y : Slot) : Prop where
  start : -2 ≤ x.offset
  order : x.offset ≤ y.offset
  below : y.offset < x.stop
  type : x.info.accessType = y.info.accessType
  additive : x.info.accessType = .int_additive → x.offset = y.offset ∧ x.info.size = y.info.size
  reach : x.stop ≤ y.collidingEnd

section
variable {blocks : List PlacedBlock} {x y : Slot}

/-- Of the two slots of a merge either both are size blocks or both are memory blocks. -/
theorem MergeOK.sign (h : MergeOK x y) : (y.offset < 0 ∧ x.offset < 0 ∧ x.stop = 0) ∨
    (0 ≤ x.offset ∧ 0 ≤ y.offset ∧ x.stop = x.collidingEnd) := by
  have h1 := h.order
  have h2 := h.below
  rcases lt_or_ge x.offset 0 with hx | hx
  · have := stop_eq_zero h.start hx
    exact .inl ⟨by omega, hx, this⟩
  · exact .inr ⟨hx, by omega, stop_eq hx⟩

theorem MergeOK.stop_le (h : MergeOK x y) : x.stop ≤ y.stop := by
  rcases h.sign with ⟨hy, hx, h0⟩ | ⟨-, hy, -⟩
  · have h1 := h.start
    have h2 := h.order
    rw [h0, stop_eq_zero (by omega) hy]
  · rw [stop_eq hy]
    exact h.reach

theorem MergeOK.front_stop (h : MergeOK x y) :
    (Slot.front (Slot.absorb y (Slot.entered x)) x.stop).stop = x.stop := by
  have hoff : (Slot.front (Slot.absorb y (Slot.entered x)) x.stop).offset = y.offset := rfl
  have hend : (Slot.front (Slot.absorb y (Slot.entered x)) x.stop).collidingEnd = x.stop := by
    simp only [Slot.front, PlacedBlock.collidingEnd]
    omega
  rcases h.sign with ⟨hy, hx, h0⟩ | ⟨-, hy, -⟩
  · have h1 := h.start
    have h2 := h.order
    rw [stop_eq_zero (by omega) (by omega), h0]
  · rw [stop_eq (by omega), hend]

/-- An additive slot is never split. -/
theorem MergeOK.not_additive (h : MergeOK x y) (hx : SlotOK blocks x)
    (hlt : x.stop < y.collidingEnd) :
    x.info.accessType ≠ .int_additive := by
  intro ha
  obtain ⟨ho, hs⟩ := h.additive ha
  rcases h.sign with ⟨hy, hx0, -⟩ | ⟨-, -, hstop⟩
  · have h2 := h.start
    have : x.offset = -2 ∨ x.offset = -1 := by omega
    rcases this with he | he
    · simp [hx.readable he] at ha
    · simp [hx.writable he] at ha
  · rw [hstop] at hlt
    simp only [PlacedBlock.collidingEnd] at hlt
    omega

theorem SlotOK.entered_sorted (hx : SlotOK blocks x) (hw : x.info.accessType = .writable) :
    (Slot.entered x).cluster.members.Pairwise (· ≤ ·) := by
  have := VerifierCluster.insertedMembers_sorted x.info.requestID (hx.members_sorted hw)
  simpa only [Slot.entered, hw] using this

theorem SlotOK.absorb (hx : SlotOK blocks x) (hy : SlotOK blocks y) (h : MergeOK x y) :
    SlotOK blocks (Slot.absorb y (Slot.entered x)) where
  lowest := hy.lowest
  readable := hy.readable
  writable := hy.writable
  origin := hy.origin
  cut := hy.cut
  members_sorted := by
    intro hw
    have hyw : y.info.accessType = .writable := hw
    have hxw : x.info.accessType = .writable := h.type.trans hyw
    exact VerifierCluster.mergedMembers_sorted hxw (hy.members_sorted hyw) (hx.entered_sorted hxw)

theorem SlotOK.front (hx : SlotOK blocks x) (hy : SlotOK blocks y) (h : MergeOK x y)
    (hlt : x.stop < y.collidingEnd) :
    SlotOK blocks (Slot.front (Slot.absorb y (Slot.entered x)) x.stop) := by
  have hend : (Slot.front (Slot.absorb y (Slot.entered x)) x.stop).collidingEnd = x.stop := by
    simp only [Slot.front, PlacedBlock.collidingEnd]
    omega
  refine ⟨hy.lowest, hy.readable, hy.writable, ?_, ?_, (hx.absorb hy h).members_sorted⟩
  · obtain ⟨c, hc, h1, h2, h3, h4⟩ := hy.origin
    exact ⟨c, hc, h1, h2, h3, by rw [hend]; omega⟩
  · rcases h.sign with ⟨hy0, -, h0⟩ | ⟨hx0, hy0, hstop⟩
    · exact .inl ⟨hy0, by rw [hend, h0]⟩
    · rcases hx.cut with ⟨hneg, -⟩ | ⟨b, hb, h1, h2, h3⟩
      · omega
      · exact .inr ⟨b, hb, h1.trans h.type, h2.trans h.order, by rw [hend, hstop, h3]⟩

theorem SlotOK.tail (hy : SlotOK blocks y) (h : MergeOK x y) (hlt : x.stop < y.collidingEnd) :
    SlotOK blocks (Slot.tail (Slot.absorb y (Slot.entered x)) x.stop) := by
  have hend : (Slot.tail (Slot.absorb y (Slot.entered x)) x.stop).collidingEnd =
      y.collidingEnd := by
    simp only [Slot.tail, Slot.absorb, PlacedBlock.collidingEnd]
    omega
  have hoff : (Slot.tail (Slot.absorb y (Slot.entered x)) x.stop).offset = x.stop := rfl
  have hpos : 0 ≤ x.stop := by
    rcases h.sign with ⟨-, -, h0⟩ | ⟨hx0, -, -⟩
    · omega
    · have := h.order
      have := h.below
      omega
  have hbelow := h.below
  refine ⟨by omega, by omega, by omega, ?_, ?_, fun _ => List.Pairwise.nil⟩
  · obtain ⟨c, hc, h1, h2, h3, h4⟩ := hy.origin
    exact ⟨c, hc, h1, h2, by omega, by omega⟩
  · rcases hy.cut with ⟨hneg, hle⟩ | ⟨b, hb, h1, h2, h3⟩
    · omega
    · exact .inr ⟨b, hb, h1, by omega, by omega⟩

end

/-- A turn keeps the description of the slots. -/
theorem restStep_slotOK {dag : Dag} {blocks : List PlacedBlock} {x : Slot} {rest rest' : List Slot}
    (hs : Sorted (x :: rest)) (hok : ∀ s ∈ x :: rest, SlotOK blocks s)
    (h : restStep dag x rest = .ok rest') :
    ∀ s ∈ rest', SlotOK blocks s := by
  have hx := hok x List.mem_cons_self
  have hrest : ∀ s ∈ rest, SlotOK blocks s := fun s hs => hok s (List.mem_cons_of_mem _ hs)
  rcases restStep_cases h with ⟨-, rfl⟩ | ⟨-, rfl, -⟩ | ⟨hp, bef, y, aft, rfl, -, hy, hm,
    hreach, rfl⟩
  · exact hrest
  · exact hrest
  have hyok := hrest y (by simp)
  have hmerge : MergeOK x y :=
    ⟨not_passive_offset hp hx.lowest, List.rel_of_pairwise_cons hs (by simp), hy,
    canMerge_type hm, canMerge_additive hm, hreach⟩
  intro s hmem
  rcases List.mem_append.mp hmem with hmem | hmem
  · exact hrest s (by simp [hmem])
  rcases mergeInto_cases x.stop (Slot.absorb y (Slot.entered x)) aft with he | ⟨hlt, he⟩ <;>
    rw [he] at hmem
  · rcases List.mem_cons.mp hmem with rfl | hmem
    · exact hx.absorb hyok hmerge
    · exact hrest s (by simp [hmem])
  · rcases List.mem_cons.mp hmem with rfl | hmem
    · exact hx.front hyok hmerge hlt
    rcases mem_insertTail.mp hmem with rfl | hmem
    · exact hyok.tail hmerge hlt
    · exact hrest s (by simp [hmem])

/-! ## One turn, backwards -/

section
variable {dag : Dag} {blocks : List PlacedBlock} {x x' y y' w : Slot}

theorem CliqueOK.of_carriers (h : CliqueOK dag y') (ht : x.info.accessType = y'.info.accessType)
    (ho : y'.offset ≠ -3) (hm : ∀ m ∈ Slot.carriers x, m ∈ Slot.carriers y') : CliqueOK dag x :=
  fun hw _ m h1 m' h2 => h (ht ▸ hw) ho m (hm m h1) m' (hm m' h2)

/-- A slot that is passed over owes nothing. -/
theorem pairOK_of_passive (h : Slot.passive x) : PairOK dag blocks x w := by
  rintro m - ⟨⟨g, ⟨a, -, h1, -, -, h2, -⟩, -⟩, hcol, -⟩
  rcases h with h | h
  · omega
  · simp [h, Access.collides] at hcol

/-- Nor does a slot owe anything to one that starts at its end or later. -/
theorem pairOK_of_stop_le (h : x.stop ≤ w.offset) : PairOK dag blocks x w := by
  rintro m - ⟨⟨g, -, h1, h2⟩, -⟩
  omega

/-- The check of a slot that is scanned and not merged into pays what is owed to it. -/
theorem pairOK_of_passed (hf : Forward dag.Edge) (hx : SlotOK blocks x) (hc : CliqueOK dag x)
    (hnp : ¬ Slot.passive x) (h : Passed dag (Slot.entered x) x.stop w) :
    PairOK dag blocks x w := by
  rintro m hm ⟨-, hcol, -⟩
  have hdep := h.2.2
  have hcol' : (Slot.entered x).info.accessType.collides w.info.accessType = true := hcol
  rw [checkDependency, if_pos hcol'] at hdep
  refine VerifierCluster.addDependency_linked hf hdep (fun hw => ⟨?_, ?_⟩) m
    (mem_entered_members.mpr hm)
  · exact hx.entered_sorted hw
  · intro m h1 m' h2
    exact hc hw (fun he => hnp (.inl he)) m (mem_entered_members.mp h1) m'
      (mem_entered_members.mp h2)

/-- What `x` owes is owed by a later slot of the same type that carries the request
and reaches as far. -/
theorem PairOK.of_later (h : PairOK dag blocks y' w) (ht : x.info.accessType = y'.info.accessType)
    (ho : x.offset ≤ y'.offset)
    (ha : x.info.accessType = .int_additive → x.offset = y'.offset ∧ x.info.size = y'.info.size)
    {m : Nat} {g : Int} (hm : m ∈ Slot.carriers y')
    (hr : Reaches blocks m x.info.accessType x.offset g)
    (hg : g ≤ y'.stop) (hw : w.offset < g)
    (hcol : x.info.accessType.collides w.info.accessType = true)
    (hadd : additiveSameBlock x.toPlacedBlock w.toPlacedBlock = false) (hhead : AtHead blocks w) :
    Linked dag.Edge m w.info.requestID := by
  obtain ⟨a, h1, h2, h3, h4, h5, h6⟩ := hr
  refine h m hm ⟨⟨g, ⟨a, h1, h2, h3, h4.trans ht, h5.trans ho, h6⟩, hg, hw⟩, ht ▸ hcol, ?_, hhead⟩
  by_cases hx : x.info.accessType = .int_additive
  · obtain ⟨h7, h8⟩ := ha hx
    rw [additiveSameBlock, ← ht, ← h7, ← h8]
    exact hadd
  · have : y'.info.accessType.isAdditive = false := by
      rw [← ht]
      simpa [Access.isAdditive] using hx
    simp [additiveSameBlock, this]

/-- The slot `y'` that takes the place of `y` when `x` is merged into it. -/
structure Replaces (x y y' : Slot) : Prop where
  offset : y'.offset = y.offset
  request : y'.info.requestID = y.info.requestID
  type : y'.info.accessType = y.info.accessType
  additive : y.info.accessType = .int_additive → y'.info.size = y.info.size
  carriers : ∀ m, m ∈ Slot.carriers y' ↔ m ∈ Slot.carriers y ∨ m ∈ Slot.carriers x
  stop : x.stop ≤ y'.stop

theorem MergeOK.replaces_absorb (h : MergeOK x y) : Replaces x y (Slot.absorb y (Slot.entered x)) :=
  ⟨rfl, rfl, rfl, fun _ => rfl, fun _ => mem_absorb_carriers, h.stop_le⟩

theorem MergeOK.replaces_front (h : MergeOK x y) (hx : SlotOK blocks x)
    (hlt : x.stop < y.collidingEnd) :
    Replaces x y (Slot.front (Slot.absorb y (Slot.entered x)) x.stop) :=
  ⟨rfl, rfl, rfl, fun ha => absurd (h.type.trans ha) (h.not_additive hx hlt),
    fun _ => mem_absorb_carriers,
    h.front_stop.ge⟩

/-- What an earlier slot owes to `y` it owes to the slot in its place. -/
theorem Replaces.pairOK_right (h : Replaces x y y') (hw : PairOK dag blocks w y') :
    PairOK dag blocks w y := by
  rintro m hm ⟨⟨g, h1, h2, h3⟩, hcol, hadd, z, hz, h4, h5, h6, h7⟩
  rw [← h.request]
  refine hw m hm ⟨⟨g, h1, h2, h.offset ▸ h3⟩, h.type ▸ hcol, ?_, z, hz, ?_, ?_, ?_, h7⟩
  · by_cases ha : y.info.accessType = .int_additive
    · rw [additiveSameBlock, h.type, h.offset, h.additive ha]
      exact hadd
    · cases hw : w.info.accessType <;> simp [additiveSameBlock, Access.isAdditive, hw, h.type]
      exact fun he => absurd he.symm ha
  · rw [h4, h.offset]
  · rw [h5, h.request]
  · rw [h6, h.type]

/-- What `x` owes to the slots after `y` is owed by the slot in the place of `y`. -/
theorem Replaces.pairOK_left (h : Replaces x y y') (hm : MergeOK x y)
    (hw : PairOK dag blocks y' w) :
    PairOK dag blocks x w := by
  rintro m hmem ⟨⟨g, h1, h2, h3⟩, hcol, hadd, hhead⟩
  refine hw.of_later (hm.type.trans h.type.symm) (h.offset ▸ hm.order) ?_
    ((h.carriers m).mpr (.inr hmem)) h1
    (h2.trans h.stop) h3 hcol hadd hhead
  intro ha
  obtain ⟨h4, h5⟩ := hm.additive ha
  exact ⟨h4.trans h.offset.symm, h5.trans (h.additive (hm.type ▸ ha)).symm⟩

/-- Merged slots owe each other nothing beyond the clique they form. -/
theorem Replaces.pairOK_merged (h : Replaces x y y') (hm : MergeOK x y) (hc : CliqueOK dag y')
    (hmerge : canMerge x.toPlacedBlock y.toPlacedBlock = true) : PairOK dag blocks x y := by
  rintro m hmem ⟨-, hcol, hadd, -⟩
  cases ht : x.info.accessType with
  | check_only => simp [ht, Access.collides] at hcol
  | read_only => simp [← hm.type, ht, Access.collides] at hcol
  | int_additive => simp [additiveSameBlock_of_canMerge hmerge ht] at hadd
  | writable =>
    have hstart := hm.start
    have horder := hm.order
    refine hc (h.type.trans (hm.type.symm.trans ht)) (by rw [h.offset]; omega) m
      ((h.carriers m).mpr (.inr hmem)) _ ((h.carriers _).mpr (.inl List.mem_cons_self))

/-- What `y` owes past a split is owed by its second part, unless the request was
merged into `y` before: then the pair is one that the split loses. -/
theorem pairOK_of_split (hloss : ∀ u v, SplitLoss blocks u v → Linked dag.Edge u v)
    (hx : SlotOK blocks x)
    (hy : SlotOK blocks y) (hm : MergeOK x y) (hlt : x.stop < y.collidingEnd)
    (hfront : PairOK dag blocks (Slot.front (Slot.absorb y (Slot.entered x)) x.stop) w)
    (htail : x.stop ≤ w.offset →
      PairOK dag blocks (Slot.tail (Slot.absorb y (Slot.entered x)) x.stop) w) :
    PairOK dag blocks y w := by
  rintro m hmem ⟨⟨g, hr, hg, hw⟩, hcol, hadd, hhead⟩
  have hna := hm.not_additive hx hlt
  have hyadd : y.info.accessType ≠ .int_additive := hm.type ▸ hna
  rcases lt_or_ge w.offset x.stop with hbefore | hafter
  · -- `w` starts in the first part
    obtain ⟨a, h1, h2, h3, h4, h5, h6⟩ := hr
    refine hfront.of_later (x := y) (g := min g x.stop) rfl le_rfl (fun ha => absurd ha hyadd)
      (mem_absorb_carriers.mpr (.inl hmem)) ⟨a, h1, h2, h3, h4, h5, (min_le_left _ _).trans h6⟩ ?_
      (lt_min hw hbefore) hcol hadd hhead
    rw [hm.front_stop]
    exact min_le_right _ _
  -- `w` starts after the split, so these are memory blocks
  have hbelow := hm.below
  rcases hm.sign with ⟨hy0, -, h0⟩ | ⟨hx0, hy0, hstop⟩
  · have := stop_eq_zero (by have := hm.start; have := hm.order; omega) hy0
    omega
  rcases eq_or_ne m y.info.requestID with rfl | hne
  · refine (htail hafter).of_later (x := y) (g := g) rfl hbelow.le (fun ha => absurd ha hyadd)
      List.mem_cons_self hr ?_ hw hcol hadd hhead
    have hoff : (Slot.tail (Slot.absorb y (Slot.entered x)) x.stop).offset = x.stop := rfl
    have hend : (Slot.tail (Slot.absorb y (Slot.entered x)) x.stop).collidingEnd =
        y.collidingEnd := by
      simp only [Slot.tail, Slot.absorb, PlacedBlock.collidingEnd]
      omega
    rw [stop_eq (by omega), hend, ← stop_eq hy0]
    exact hg
  · obtain ⟨a, ha, h2, h3, h4, h5, h6⟩ := hr
    obtain ⟨z, hz, h7, h8, h9, h10⟩ := hhead
    obtain ⟨c, hc, h11, h12, h13, h14⟩ := hy.origin
    have ha0 : 0 ≤ a.offset := by
      by_contra hneg
      rw [stop_eq_zero h2 (by omega)] at h6
      omega
    rw [stop_eq ha0] at h6
    rw [stop_eq hy0] at hg
    rw [stop_eq (b := z) (by omega)] at h10
    rcases hx.cut with ⟨hneg, -⟩ | ⟨b, hb, h15, h16, h17⟩
    · omega
    have horder := hm.order
    have htype : a.info.accessType = .writable ∨ a.info.accessType = .read_only := by
      rw [h4]
      cases ht : y.info.accessType with
      | check_only => simp [ht, Access.collides] at hcol
      | int_additive => exact absurd ht hyadd
      | writable => exact .inl rfl
      | read_only => exact .inr rfl
    refine hloss m w.info.requestID ⟨a, ha, b, hb, c, hc, z, hz, h3, h8,
      by rw [h11]; exact hne.symm, htype,
      ?_, h12.trans h4.symm, ha0, by
        omega, by omega, by omega, by omega, by omega, by omega, by omega, ?_⟩
    · rw [h15, h4, hm.type]
    · rw [h4, h9]
      exact hcol

/-- A merge puts a slot in the place of `y`, and the pairs of `y` are paid if those of the slots
after the merge are. -/
theorem MergeOK.mergeInto_pairOK (hm : MergeOK x y)
    (hloss : ∀ u v, SplitLoss blocks u v → Linked dag.Edge u v)
    (hx : SlotOK blocks x) (hy : SlotOK blocks y) (aft : List Slot) : ∃ y' rest,
      mergeInto x.stop (Slot.absorb y (Slot.entered x)) aft = y' :: rest ∧ Replaces x y y' ∧
        (rest.Pairwise (PairOK dag blocks) → (∀ w ∈ rest, PairOK dag blocks y' w) →
          ∀ w ∈ aft, PairOK dag blocks y w) ∧
        aft.Sublist rest := by
  rcases mergeInto_cases x.stop (Slot.absorb y (Slot.entered x)) aft with he | ⟨hlt, he⟩
  · refine ⟨_, _, he, hm.replaces_absorb, fun _ hall w hw => ?_, List.Sublist.refl _⟩
    rintro m hmem ⟨⟨g, h1⟩, h2⟩
    exact hall w hw m (mem_absorb_carriers.mpr (.inl hmem)) ⟨⟨g, h1⟩, h2⟩
  · -- a split: what starts after the cut meets the second part instead of `y`
    have hlt' : x.stop < y.collidingEnd := hlt
    refine ⟨_, _, he, hm.replaces_front hx hlt', fun hpw hall w hw => ?_, ?_⟩
    · refine pairOK_of_split hloss hx hy hm hlt' (hall w (mem_insertTail.mpr (.inr hw))) ?_
      intro hge
      exact List.rel_of_pairwise_cons (List.pairwise_append.mp hpw).2.1
        (mem_dropWhile_of_stop_le hw hge)
    · conv_lhs => rw [← List.takeWhile_append_dropWhile
        (p := fun s : Slot => decide (s.offset < x.stop)) (l := aft)]
      exact (List.Sublist.refl _).append (List.sublist_cons_self _ _)

/-- One turn: the remaining slots are paid only if the slots before were. -/
theorem restStep_sound {rest rest' : List Slot} (hf : Forward dag.Edge)
    (hloss : ∀ u v, SplitLoss blocks u v → Linked dag.Edge u v) (hs : Sorted (x :: rest))
    (hok : ∀ s ∈ x :: rest, SlotOK blocks s) (h : restStep dag x rest = .ok rest')
    (hc : ∀ s ∈ rest', CliqueOK dag s) (hp : rest'.Pairwise (PairOK dag blocks)) :
    (∀ s ∈ x :: rest, CliqueOK dag s) ∧ (x :: rest).Pairwise (PairOK dag blocks) := by
  have hx := hok x List.mem_cons_self
  rw [List.forall_mem_cons, List.pairwise_cons]
  rcases restStep_cases h with ⟨hpas, rfl⟩ | ⟨hnp, rfl, hfin, bef, aft, rfl, hb, ha⟩ |
    ⟨hnp, bef, y, aft, rfl, hb, hy, hmg, hreach, rfl⟩
  · refine ⟨⟨?_, hc⟩, fun w _ => pairOK_of_passive hpas, hp⟩
    intro hw hne
    rcases hpas with he | he
    · exact absurd he hne
    · simp [he] at hw
  · -- the cluster is complete: its chain and the checks against the scanned slots
    have hcx : CliqueOK dag x := fun hw _ m h1 m' h2 =>
      VerifierCluster.finalize_linked hfin hw (mem_entered_members.mpr h1)
        (mem_entered_members.mpr h2)
    refine ⟨⟨hcx, hc⟩, fun w hw => ?_, hp⟩
    rcases List.mem_append.mp hw with hw | hw
    · exact pairOK_of_passed hf hx hcx hnp (hb w hw)
    · refine pairOK_of_stop_le ?_
      have hsaft : Sorted aft := hs.of_cons.sublist (List.sublist_append_right _ _)
      cases aft with
      | nil => simp at hw
      | cons z post =>
        have hz : ¬ z.offset < x.stop := ha z rfl
        rcases List.mem_cons.mp hw with rfl | hw
        · omega
        · have := List.rel_of_pairwise_cons hsaft hw
          omega
  · -- merged into `y`
    have hyok : SlotOK blocks y := hok y (by simp)
    have hmerge : MergeOK x y :=
      ⟨not_passive_offset hnp hx.lowest, List.rel_of_pairwise_cons hs (by simp), hy,
      canMerge_type hmg, canMerge_additive hmg, hreach⟩
    obtain ⟨y', rest'', heq, hrep, hyaft, haft⟩ := hmerge.mergeInto_pairOK hloss hx hyok aft
    rw [heq] at hc hp
    obtain ⟨hpb, hpy, hcross⟩ := List.pairwise_append.mp hp
    obtain ⟨hpy1, hpy2⟩ := List.pairwise_cons.mp hpy
    have hcy' : CliqueOK dag y' := hc y' (by simp)
    have hne : y'.offset ≠ -3 := by
      have h1 := hmerge.start
      have h2 := hmerge.order
      rw [hrep.offset]
      omega
    have hcx : CliqueOK dag x :=
      hcy'.of_carriers (hmerge.type.trans hrep.type.symm) hne fun m hm =>
        (hrep.carriers m).mpr (.inr hm)
    have hcy : CliqueOK dag y :=
      hcy'.of_carriers hrep.type.symm hne fun m hm => (hrep.carriers m).mpr (.inl hm)
    refine ⟨⟨hcx, fun s hs' => ?_⟩, fun w hw => ?_,
      List.pairwise_append.mpr ⟨hpb, List.pairwise_cons.mpr ⟨?_, ?_⟩, ?_⟩⟩
    · rcases List.mem_append.mp hs' with hs' | hs'
      · exact hc s (by simp [hs'])
      rcases List.mem_cons.mp hs' with rfl | hs'
      · exact hcy
      · exact hc s (by simp [haft.subset hs'])
    · rcases List.mem_append.mp hw with hw | hw
      · exact pairOK_of_passed hf hx hcx hnp (hb w hw)
      rcases List.mem_cons.mp hw with rfl | hw
      · exact hrep.pairOK_merged hmerge hcy' hmg
      · exact hrep.pairOK_left hmerge (hpy1 w (haft.subset hw))
    · exact hyaft hpy2 hpy1
    · exact hpy2.sublist haft
    · intro a ha w hw
      rcases List.mem_cons.mp hw with rfl | hw
      · exact hrep.pairOK_right (hcross a ha y' List.mem_cons_self)
      · exact hcross a ha w (List.mem_cons_of_mem _ (haft.subset hw))

end

/-- The whole run, by induction on the turns. -/
theorem restLoop_sound {dag : Dag} {blocks : List PlacedBlock} (hf : Forward dag.Edge)
    (hloss : ∀ u v, SplitLoss blocks u v → Linked dag.Edge u v) :
    ∀ (fuel : Nat) (slots : List Slot),
    Sorted slots → (∀ s ∈ slots, SlotOK blocks s) → restLoop dag fuel slots = .ok () →
    (∀ s ∈ slots, CliqueOK dag s) ∧ slots.Pairwise (PairOK dag blocks)
  | _, [], _, _, _ => by simp
  | 0, _ :: _, _, _, h => by simp [restLoop] at h
  | fuel + 1, x :: rest, hs, hok, h => by
    rw [restLoop] at h
    obtain ⟨rest', hstep, hrun⟩ := bind_ok.mp h
    obtain ⟨hc, hp⟩ := restLoop_sound hf hloss fuel rest' (restStep_sorted hs hstep)
      (restStep_slotOK hs hok hstep) hrun
    exact restStep_sound hf hloss hs hok hstep hc hp

/-! ## The whole check -/

theorem additiveSameBlock_comm (a b : PlacedBlock) :
    additiveSameBlock a b = additiveSameBlock b a := by
  rw [Bool.eq_iff_iff]
  simp only [additiveSameBlock, Bool.and_eq_true, beq_iff_eq, Access.isAdditive]
  constructor <;> rintro ⟨⟨⟨h1, h2⟩, h3⟩, h4⟩ <;>
    exact ⟨⟨⟨by rw [← h2, h1], h2.symm⟩, h3.symm⟩, h4.symm⟩

theorem MemoryCollision.symm {a b : PlacedBlock} (h : MemoryCollision a b) :
    MemoryCollision b a := by
  obtain ⟨h1, h2, h3, h4, h5⟩ := h
  exact ⟨h2, h1, by rw [max_comm, min_comm]; exact h3, by rw [Access.collides_comm]; exact h4,
    by rw [additiveSameBlock_comm]; exact h5⟩

theorem SlotOK.initial {blocks : List PlacedBlock} (hwf : WellFormedBlocks blocks) {b : PlacedBlock}
    (hb : b ∈ blocks) :
    SlotOK blocks { b with } :=
  ⟨hwf.lowest b hb, hwf.readable b hb, hwf.writable b hb, ⟨b, hb, rfl, rfl, le_rfl, le_rfl⟩,
    .inr ⟨b, hb, rfl, le_rfl, rfl⟩, fun _ => List.Pairwise.nil⟩

/-- What `findCollisionCliques` has checked of two declared blocks, the first being
the earlier one. -/
theorem findCollisionCliques_linked {dag : Dag} {blocks : List PlacedBlock} (hf : Forward dag.Edge)
    (hwf : WellFormedBlocks blocks) (hloss : ∀ u v, SplitLoss blocks u v → Linked dag.Edge u v)
    (h : findCollisionCliques dag blocks = .ok ()) :
    blocks.Pairwise fun a b => -2 ≤ a.offset → b.offset < a.stop → b.offset < b.stop →
      a.info.accessType.collides b.info.accessType = true → additiveSameBlock a b = false →
      Linked dag.Edge a.info.requestID b.info.requestID := by
  rw [findCollisionCliques, cliqueLoop_eq, List.drop_zero] at h
  have hs : Sorted (blocks.map fun b => ({ b with } : Slot)) := List.pairwise_map.mpr hwf.sorted
  obtain ⟨-, hp⟩ := restLoop_sound hf hloss _ _ hs
    (by
      intro s hs
      obtain ⟨b, hb, rfl⟩ := List.mem_map.mp hs
      exact SlotOK.initial hwf hb) h
  refine (List.pairwise_map.mp hp).imp_of_mem ?_
  intro a b ha hb hpair hlow hstart hhead hcol hadd
  exact hpair a.info.requestID List.mem_cons_self
    ⟨⟨a.stop, ⟨a, ha, hlow, rfl, rfl, le_rfl, le_rfl⟩, le_rfl, hstart⟩, hcol, hadd, b, hb, rfl,
      rfl, rfl, hhead⟩

/-- Overlapping memory blocks and size accesses that collide are linked. -/
theorem linked_of_collision {dag : Dag} {blocks : List PlacedBlock} (hf : Forward dag.Edge)
    (hwf : WellFormedBlocks blocks) (hloss : ∀ u v, SplitLoss blocks u v → Linked dag.Edge u v)
    (h : findCollisionCliques dag blocks = .ok ()) {a b : PlacedBlock} (ha : a ∈ blocks)
    (hb : b ∈ blocks)
    (hne : a ≠ b) (hcol : MemoryCollision a b ∨ SizeCollision a b ∨ SizeCollision b a) :
    Linked dag.Edge a.info.requestID b.info.requestID := by
  let R : PlacedBlock → PlacedBlock → Prop := fun a b =>
    MemoryCollision a b ∨ SizeCollision a b ∨ SizeCollision b a →
      Linked dag.Edge a.info.requestID b.info.requestID
  have hsymm : Std.Symm R := ⟨by
    intro a b hab hba
    refine (hab ?_).symm
    rcases hba with hm | hs | hs
    · exact .inl hm.symm
    · exact .inr (.inr hs)
    · exact .inr (.inl hs)⟩
  -- for sorted blocks the pair has one order, and the relation is symmetric
  have hR : blocks.Pairwise R := by
    refine (hwf.sorted.and (findCollisionCliques_linked hf hwf hloss h)).imp_of_mem ?_
    rintro a b ha hb ⟨hle, hpair⟩ (⟨h1, h2, h3, h4, h5⟩ | ⟨h1, h2⟩ | ⟨h1, h2⟩)
    · -- memory blocks: each starts before the end of the other
      have hstart : b.offset < a.collidingEnd :=
        lt_of_le_of_lt (le_max_right _ _) (h3.trans_le (min_le_left _ _))
      have hhead : b.offset < b.collidingEnd :=
        lt_of_le_of_lt (le_max_right _ _) (h3.trans_le (min_le_right _ _))
      exact hpair (by omega) (by rw [stop_eq h1]; exact hstart)
        (by rw [stop_eq h2]; exact hhead) h4 h5
    · have hb1 : b.offset = -1 := by omega
      have htypes := And.intro (hwf.writable a ha h1) (hwf.writable b hb hb1)
      refine hpair (by omega) ?_ ?_ (by simp [htypes, Access.collides])
        (by simp [additiveSameBlock, Access.isAdditive, htypes])
      · rw [stop_eq_zero (by omega) (by omega)]; omega
      · rw [stop_eq_zero (by omega) (by omega)]; omega
    · have htb := hwf.writable b hb h1
      have hta : a.info.accessType = .writable ∨ a.info.accessType = .read_only := by
        rcases h2 with h2 | h2
        · exact .inl (hwf.writable a ha h2)
        · exact .inr (hwf.readable a ha h2)
      refine hpair (by omega) ?_ ?_
        (by rcases hta with hta | hta <;> simp [hta, htb, Access.collides])
        (by rcases hta with hta | hta <;> simp [additiveSameBlock, Access.isAdditive, hta])
      · rw [stop_eq_zero (by omega) (by omega)]; omega
      · rw [stop_eq_zero (by omega) (by omega)]; omega
  exact hR.forall ha hb hne hcol

/-- Resizing collisions are linked. -/
theorem linked_of_resizing {dag : Dag} {blocks : List PlacedBlock}
    {getSizeLowerBound : Except Exn Int}
    (hf : Forward dag.Edge) (hwf : WellFormedBlocks blocks)
    (hshrink : ∀ lowerBound, getSizeLowerBound = .ok lowerBound →
      ∀ w ∈ blocks, w.offset = -1 → w.info.size ≤ 0 → lowerBound ≤ -w.info.size)
    (h : findResizingCollisions dag getSizeLowerBound blocks = .ok ()) {w b : PlacedBlock}
    (hw : w ∈ blocks)
    (hb : b ∈ blocks) (hne : b.info.requestID ≠ w.info.requestID)
    (hcol : ResizingCollision getSizeLowerBound w b) :
    Linked dag.Edge w.info.requestID b.info.requestID := by
  obtain ⟨h1, h0, hres⟩ := hcol
  obtain ⟨lowerBound, hl, hall⟩ := (findResizingCollisions_ok dag getSizeLowerBound hwf.sorted).mp h
    ⟨w, hw, h1⟩ ⟨b, hb, h0⟩
  have hedge : lowerBound < b.collidingEnd → resizeCollision w b = true →
      Linked dag.Edge w.info.requestID b.info.requestID := fun hlt hrc =>
    ((VerifierCluster.addDependencyBetween_ok hf).mp (hall b hb h0 hlt w hw h1 hne hrc)).linked.symm
  by_cases hpos : 0 < w.info.size
  · rw [if_pos hpos] at hres
    obtain ⟨⟨l, hl', hlt⟩, hoff⟩ := hres
    obtain rfl : lowerBound = l := by simpa [hl] using hl'
    exact hedge hlt (by simp [resizeCollision, hpos, hoff])
  · rw [if_neg hpos] at hres
    have := hshrink lowerBound hl w hw h1 (by omega)
    exact hedge (by omega) (by simp [resizeCollision, hpos, hres])

theorem SplitLoss.collide {blocks : List PlacedBlock}
    {getSizeLowerBound : Except Exn Int} {u v : Nat}
    (h : SplitLoss blocks u v) : Collide getSizeLowerBound blocks u v := by
  obtain ⟨a, ha, b, -, c, -, z, hz, hu, hv, -, htype, -, -, h0, h1, -, -, h2, h3, -, h4, hcol⟩ := h
  refine ⟨a, ha, z, hz, hu, hv, .inl ⟨h0, by omega, ?_, hcol, ?_⟩⟩
  · refine max_lt (lt_min (by omega) (by omega)) (lt_min h3 h4)
  · rcases htype with ht | ht <;> simp [additiveSameBlock, Access.isAdditive, ht]

theorem Collide.symm {blocks : List PlacedBlock} {getSizeLowerBound : Except Exn Int} {u v : Nat}
    (h : Collide getSizeLowerBound blocks u v) : Collide getSizeLowerBound blocks v u := by
  obtain ⟨a, ha, b, hb, hu, hv, hcol⟩ := h
  refine ⟨b, hb, a, ha, hv, hu, ?_⟩
  rcases hcol with h | h | h | h | h
  · exact .inl h.symm
  · exact .inr (.inr (.inl h))
  · exact .inr (.inl h)
  · exact .inr (.inr (.inr (.inr h)))
  · exact .inr (.inr (.inr (.inl h)))

/-- **Soundness of the verifier.** On the lists it accepts, every two requests that
collide are joined by a path exactly when those a split can lose are. -/
theorem checkCollisions_sound_iff (dag : Dag) (getSizeLowerBound : Except Exn Int)
    (blocks : List PlacedBlock)
    (hwf : WellFormedBlocks blocks)
    (hshrink : ∀ lowerBound, getSizeLowerBound = .ok lowerBound →
      ∀ w ∈ blocks, w.offset = -1 → w.info.size ≤ 0 → lowerBound ≤ -w.info.size)
    (hf : Forward dag.Edge) (hok : checkCollisions dag getSizeLowerBound blocks = .ok ()) :
    (∀ u v, u < v → Collide getSizeLowerBound blocks u v → Path dag.Edge u v) ↔
      (∀ u v, u < v → SplitLoss blocks u v ∨ SplitLoss blocks v u → Path dag.Edge u v) := by
  constructor
  · rintro h u v hlt (hs | hs)
    · exact h u v hlt hs.collide
    · exact h u v hlt hs.collide.symm
  intro h u v hlt ⟨a, ha, b, hb, hu, hv, hcol⟩
  obtain ⟨_, hres, hcl⟩ := bind_ok.mp hok
  have hloss : ∀ u v, SplitLoss blocks u v → Linked dag.Edge u v := by
    intro u v hs
    rcases Nat.lt_trichotomy u v with huv | huv | huv
    · exact .inr (.inl (h u v huv (.inl hs)))
    · exact .inl huv
    · exact .inr (.inr (h v u huv (.inr hs)))
  have hid : a.info.requestID ≠ b.info.requestID := by omega
  have hne : a ≠ b := fun he => hid (by rw [he])
  have hlinked : Linked dag.Edge a.info.requestID b.info.requestID := by
    rcases hcol with hc | hc | hc | hc | hc
    · exact linked_of_collision hf hwf hloss hcl ha hb hne (.inl hc)
    · exact linked_of_collision hf hwf hloss hcl ha hb hne (.inr (.inl hc))
    · exact linked_of_collision hf hwf hloss hcl ha hb hne (.inr (.inr hc))
    · exact linked_of_resizing hf hwf hshrink hres ha hb hid.symm hc
    · exact (linked_of_resizing hf hwf hshrink hres hb ha hid hc).symm
  rw [hu, hv] at hlinked
  exact hlinked.path hf hlt

/-- Two overlapping writers with an edge between them: no split, so no pair is lost. -/
theorem checkCollisions_sound_two_writers :
    let dag : Dag := fun u v => u == 0 && v == 1
    let blocks : List PlacedBlock :=
      [⟨-3, 0, .check_only, 0⟩, ⟨-3, 0, .check_only, 1⟩, ⟨0, 8, .writable, 0⟩, ⟨4, 8, .writable, 1⟩]
    checkCollisions dag (.ok 0) blocks = .ok () ∧ Collide (.ok 0) blocks 0 1 ∧
      ∀ u v, u < v → Collide (.ok 0) blocks u v → Path dag.Edge u v := by
  intro dag blocks
  have hok : checkCollisions dag (.ok 0) blocks = .ok () := by decide
  have hnoWriter : ∀ w ∈ blocks, w.offset ≠ -1 := by decide
  have hf : Forward dag.Edge := by
    intro u v huv
    simp only [Dag.Edge, dag, Bool.and_eq_true, beq_iff_eq] at huv
    omega
  have hnoLoss : ∀ u v, ¬ SplitLoss blocks u v := by
    have hends : ∀ a ∈ blocks, ∀ b ∈ blocks, ∀ z ∈ blocks, b.info.accessType = a.info.accessType →
        a.info.accessType = .writable ∨ a.info.accessType = .read_only →
          ¬ b.collidingEnd ≤ z.offset := by decide
    rintro u v ⟨a, ha, b, hb, c, -, z, hz, -, -, -, ht, hbt, -, -, -, -, -, hle, -⟩
    exact hends a ha b hb z hz hbt ht hle
  refine ⟨hok, ⟨⟨0, 8, .writable, 0⟩, by decide, ⟨4, 8, .writable, 1⟩, by decide, rfl, rfl,
    .inl ⟨by decide, by decide, by decide, by decide, by decide⟩⟩, ?_⟩
  exact (checkCollisions_sound_iff dag (.ok 0) blocks
    ⟨by decide, by decide, by decide, by decide, by decide⟩
    (fun _ _ w hw h1 => absurd h1 (hnoWriter w hw)) hf hok).mpr
    fun u v _ h => absurd h (not_or.mpr ⟨hnoLoss u v, hnoLoss v u⟩)

/-- Requests 1 and 2 both write byte 7. The cluster `{1, 3}` is merged into the block
of request 0 at offset 2, which is split at 5, so request 1 is forgotten from byte 5
on; there is no path from 1 to 2, and the list is accepted. -/
theorem checkCollisions_accepts_lost_pair :
    let dag : Dag := fun u v => (u, v) == (0, 1) || (u, v) == (1, 3) || (u, v) == (0, 2)
    let blocks : List PlacedBlock :=
      [⟨-3, 0, .check_only, 0⟩, ⟨-3, 0, .check_only, 1⟩, ⟨-3, 0, .check_only, 2⟩,
        ⟨-3, 0, .check_only, 3⟩,
        ⟨0, 10, .writable, 1⟩, ⟨1, 4, .writable, 3⟩, ⟨2, 10, .writable, 0⟩, ⟨7, 1, .writable, 2⟩]
    WellFormedBlocks blocks ∧ Forward dag.Edge ∧ checkCollisions dag (.ok 0) blocks = .ok () ∧
      Collide (.ok 0) blocks 1 2 ∧ ¬ Path dag.Edge 1 2 := by
  intro dag blocks
  have hedge : ∀ u v, dag.Edge u v ↔ (u = 0 ∧ v = 1) ∨ (u = 1 ∧ v = 3) ∨ (u = 0 ∧ v = 2) := by
    intro u v
    simp [Dag.Edge, dag, or_assoc]
  refine ⟨⟨by decide, by decide, by decide, by decide, by decide⟩, ?_, by decide,
    ⟨⟨0, 10, .writable, 1⟩, by decide, ⟨7, 1, .writable, 2⟩, by decide, rfl, rfl,
      .inl ⟨by decide, by decide, by decide, by decide, by decide⟩⟩, ?_⟩
  · intro u v huv
    have := (hedge u v).mp huv
    omega
  · -- request 3 is the only one reachable from 1
    have hreach : ∀ v, Path dag.Edge 1 v → v = 3 := by
      intro v hp
      induction hp with
      | single h =>
        have := (hedge _ _).mp h
        omega
      | tail _ h ih =>
        have := (hedge _ _).mp h
        omega
    intro hp
    have := hreach 2 hp
    omega

end Argennon.RequestScheduler
