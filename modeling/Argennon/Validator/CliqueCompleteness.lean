import Argennon.Validator.CliqueSoundness

/- Completeness of the cluster-product verifier against the pairwise algorithm.

   While a run goes on, every pair of slots that overlap and collide has all its
   carried requests adjacent (`Compatible`), and a clique has its members pairwise
   adjacent (`CliqueAdjacent`). Then no check of a turn fails, and the turn keeps
   both.

   A split of size blocks is the exception: the second part of a size block that
   reaches over byte 0 is a block at offset 0 that nobody declared. It arises when
   the size block follows another one at its offset, and it asks for edges that the
   pairwise algorithm does not ask for. `ShadowsAdjacent` says these exist. -/
namespace Argennon.RequestScheduler

open ForwardGraph

/-- The size block `y` follows another at its offset and reaches over the start of a
memory block that its type collides with: the request of `y` has an edge to the
request of that block. -/
def ShadowsAdjacent (dag : Dag) (blocks : List PlacedBlock) : Prop :=
  blocks.Pairwise fun x y => x.offset = y.offset → (y.offset = -1 ∨ y.offset = -2) →
    ∀ z ∈ blocks, 0 ≤ z.offset → z.offset < y.collidingEnd →
      y.info.accessType.collides z.info.accessType = true →
        dag.Adj y.info.requestID z.info.requestID

instance (dag : Dag) (u v : Nat) : Decidable (dag.Adj u v) := inferInstanceAs (Decidable (_ ∨ _))

instance (dag : Dag) (blocks : List PlacedBlock) : Decidable (ShadowsAdjacent dag blocks) :=
  inferInstanceAs (Decidable (List.Pairwise _ _))

/-! ## What the pairwise algorithm asks for -/

section
variable {dag : Dag} {getSizeLowerBound : Except Exn Int}

theorem registerDependency_ok (hf : Forward dag.Edge) {u v : Nat} :
    registerDependency dag u v = .ok () ↔ dag.Adj u v := by
  have h1 : dag u v = true → u < v := hf u v
  have h2 : dag v u = true → v < u := hf v u
  unfold registerDependency Dag.Adj
  split
  · rename_i he
    simp only [reduceCtorEq, false_iff]
    omega
  · rename_i hne
    cases huv : dag u v <;> cases hvu : dag v u <;> simp_all

/-- The inner loop asks for every block that starts before the end of `b`. -/
theorem overlapLoop_ok (hf : Forward dag.Edge) {b : PlacedBlock} : ∀ {rest : List PlacedBlock},
    rest.Pairwise (fun a b => a.offset ≤ b.offset) → overlapLoop dag b rest = .ok () →
    ∀ c ∈ rest, c.offset < b.stop → b.info.accessType.collides c.info.accessType = true →
      additiveSameBlock b c = false → dag.Adj b.info.requestID c.info.requestID
  | [], _, _ => by simp
  | c :: rest, hs, h => by
    rw [overlapLoop] at h
    split at h
    · obtain ⟨_, h1, h2⟩ := bind_ok.mp h
      refine List.forall_mem_cons.mpr ⟨fun _ hcol hadd => ?_, overlapLoop_ok hf hs.of_cons h2⟩
      rw [dependOnOverlap, if_pos (by simp [hcol, hadd])] at h1
      exact (registerDependency_ok hf).mp h1
    · rename_i hge
      intro d hd hlt
      rcases List.mem_cons.mp hd with rfl | hd
      · omega
      · have := List.rel_of_pairwise_cons hs hd
        omega

theorem findCollisionsLoop_overlap (hf : Forward dag.Edge) {blocks : List PlacedBlock} :
    ∀ {l : List PlacedBlock} {i : Nat} {st : WriterRange},
      l.Pairwise (fun a b => a.offset ≤ b.offset) →
    findCollisionsLoop dag getSizeLowerBound blocks l i st = .ok () →
    l.Pairwise fun b c => b.offset ≠ -3 → c.offset < b.stop →
      b.info.accessType.collides c.info.accessType = true → additiveSameBlock b c = false →
      dag.Adj b.info.requestID c.info.requestID
  | [], _, _, _, _ => List.Pairwise.nil
  | b :: rest, i, st, hs, h => by
    rw [findCollisionsLoop] at h
    split at h
    · rename_i h3
      exact List.pairwise_cons.mpr ⟨fun c _ hne => absurd h3 hne,
        findCollisionsLoop_overlap hf hs.of_cons h⟩
    · obtain ⟨_, h1, h2⟩ := bind_ok.mp h
      obtain ⟨st', -, h4⟩ := bind_ok.mp h2
      obtain ⟨_, -, h5⟩ := bind_ok.mp h4
      exact List.pairwise_cons.mpr ⟨fun c hc _ => overlapLoop_ok hf hs.of_cons h1 c hc,
        findCollisionsLoop_overlap hf hs.of_cons h5⟩

/-- Before the first size writer the range of writers stays empty. -/
theorem findCollisionsLoop_readers {blocks rest : List PlacedBlock} :
    ∀ {l : List PlacedBlock} {i : Nat},
    (∀ b ∈ l, b.offset < -1) →
    findCollisionsLoop dag getSizeLowerBound blocks (l ++ rest) i {} = .ok () →
    findCollisionsLoop dag getSizeLowerBound blocks rest (i + l.length) {} = .ok ()
  | [], _, _, h => by simpa using h
  | b :: l, i, hl, h => by
    have hb := hl b List.mem_cons_self
    rw [List.cons_append, findCollisionsLoop] at h
    have hnext : findCollisionsLoop dag getSizeLowerBound blocks (l ++ rest) (i + 1) {} =
        .ok () := by
      split at h
      · exact h
      · obtain ⟨_, -, h2⟩ := bind_ok.mp h
        obtain ⟨st', h3, h4⟩ := bind_ok.mp h2
        obtain ⟨_, -, h5⟩ := bind_ok.mp h4
        have hne : (b.offset == -1) = false := by simp; omega
        simp only [WriterRange.next, hne, Bool.and_false, Bool.false_and,
          Bool.false_eq_true, if_false,
          Except.ok.injEq] at h3
        rwa [h3]
    have := findCollisionsLoop_readers (fun b hb => hl b (List.mem_cons_of_mem _ hb)) hnext
    rwa [List.length_cons, show i + (l.length + 1) = i + 1 + l.length by omega]

/-- Over the size writers the range stays open. -/
theorem findCollisionsLoop_writers {blocks rest : List PlacedBlock} {st : WriterRange}
    (hst : st.inSizeWriterList = true) :
    ∀ {l : List PlacedBlock} {i : Nat}, (∀ b ∈ l, b.offset = -1) →
    findCollisionsLoop dag getSizeLowerBound blocks (l ++ rest) i st = .ok () →
    findCollisionsLoop dag getSizeLowerBound blocks rest (i + l.length) st = .ok ()
  | [], _, _, h => by simpa using h
  | b :: l, i, hl, h => by
    have hb := hl b List.mem_cons_self
    rw [List.cons_append, findCollisionsLoop, if_neg (by omega)] at h
    obtain ⟨_, -, h2⟩ := bind_ok.mp h
    obtain ⟨st', h3, h4⟩ := bind_ok.mp h2
    obtain ⟨_, -, h5⟩ := bind_ok.mp h4
    simp only [WriterRange.next, hst, hb, Bool.not_true, Bool.false_and,
      Bool.false_eq_true, if_false,
      bne_self_eq_false, Bool.and_false, Except.ok.injEq] at h3
    subst h3
    have := findCollisionsLoop_writers hst (fun b hb => hl b (List.mem_cons_of_mem _ hb)) h5
    rwa [List.length_cons, show i + (l.length + 1) = i + 1 + l.length by omega]

/-- Over the memory blocks the range is closed, and every block is compared with it. -/
theorem findCollisionsLoop_memory {blocks : List PlacedBlock} {st : WriterRange}
    (hst : st.inSizeWriterList = false) :
    ∀ {l : List PlacedBlock} {i : Nat}, (∀ b ∈ l, 0 ≤ b.offset) →
    findCollisionsLoop dag getSizeLowerBound blocks l i st = .ok () →
    ∀ b ∈ l, dependOnWriters dag blocks st b = .ok ()
  | [], _, _, _ => by simp
  | b :: l, i, hl, h => by
    have hb := hl b List.mem_cons_self
    rw [findCollisionsLoop, if_neg (by omega)] at h
    obtain ⟨_, -, h2⟩ := bind_ok.mp h
    obtain ⟨st', h3, h4⟩ := bind_ok.mp h2
    obtain ⟨_, h6, h5⟩ := bind_ok.mp h4
    have hne : (b.offset == -1) = false := by simp; omega
    simp only [WriterRange.next, hst, hne, Bool.and_false, Bool.false_and,
      Bool.false_eq_true, if_false,
      Except.ok.injEq] at h3
    subst h3
    exact List.forall_mem_cons.mpr
      ⟨h6, findCollisionsLoop_memory hst (fun b hb => hl b (List.mem_cons_of_mem _ hb)) h5⟩

/-- Where the pairwise algorithm returns, every resizing collision has its edge. -/
theorem findResizingCollisions_of_findCollisions (hf : Forward dag.Edge) {blocks : List PlacedBlock}
    (hs : blocks.Pairwise fun a b => a.offset ≤ b.offset)
    (h : findCollisions dag getSizeLowerBound blocks = .ok ()) :
    findResizingCollisions dag getSizeLowerBound blocks = .ok () := by
  rw [findResizingCollisions_ok dag getSizeLowerBound hs]
  rintro ⟨w₀, hw₀, hw₁⟩ ⟨b₀, hb₀, hb₁⟩
  have hmem : ∀ b, b ∈ blocks.dropWhile (fun b => b.offset ≤ -1) ↔ b ∈ blocks ∧ 0 ≤ b.offset := by
    intro b
    rw [(mem_split_offset hs (p := fun b => decide (b.offset ≤ -1)) (b := b)
      (fun a b hab hb => by simp only [decide_eq_true_eq] at *; omega)).2]
    simp only [decide_eq_false_iff_not]
    exact ⟨fun h => ⟨h.1, by omega⟩, fun h => ⟨h.1, by omega⟩⟩
  have hwriters := @mem_sizeWriters blocks hs
  -- the list is its blocks below -1, the size writers and the memory blocks
  generalize hW : (blocks.takeWhile fun b => b.offset ≤ -1).dropWhile (fun b => b.offset < -1) =
    writers at hwriters
  generalize hM : blocks.dropWhile (fun b => b.offset ≤ -1) = memory at hmem
  generalize hA : (blocks.takeWhile fun b => b.offset ≤ -1).takeWhile (fun b => b.offset < -1) =
    readers
  have hblocks : blocks = readers ++ (writers ++ memory) := by
    rw [← List.append_assoc, ← hA, ← hW, List.takeWhile_append_dropWhile, ← hM,
      List.takeWhile_append_dropWhile]
  have hrd : ∀ b ∈ readers, b.offset < -1 := by
    intro b hb
    rw [← hA] at hb
    simpa using List.mem_takeWhile_imp hb
  obtain ⟨w, ws, rfl⟩ := List.exists_cons_of_ne_nil (List.ne_nil_of_mem (hwriters.mpr ⟨hw₀, hw₁⟩))
  obtain ⟨m, ms, rfl⟩ := List.exists_cons_of_ne_nil (List.ne_nil_of_mem ((hmem b₀).mpr ⟨hb₀, hb₁⟩))
  have hw1 : ∀ b ∈ w :: ws, b.offset = -1 := fun b hb => (hwriters.mp hb).2
  have hm0 : ∀ b ∈ m :: ms, 0 ≤ b.offset := fun b hb => ((hmem b).mp hb).2
  unfold findCollisions at h
  nth_rewrite 2 [hblocks] at h
  have h1 := findCollisionsLoop_readers hrd h
  -- the first writer opens the range
  rw [List.cons_append, findCollisionsLoop,
    if_neg (by have := hw1 w List.mem_cons_self; omega)] at h1
  obtain ⟨_, -, h2⟩ := bind_ok.mp h1
  obtain ⟨st, hst, h3⟩ := bind_ok.mp h2
  obtain ⟨_, -, h4⟩ := bind_ok.mp h3
  simp only [WriterRange.next, hw1 w List.mem_cons_self, Bool.not_false, beq_self_eq_true,
    Bool.and_self, if_true,
    Except.ok.injEq] at hst
  subst hst
  have h5 := findCollisionsLoop_writers rfl (fun b hb => hw1 b (List.mem_cons_of_mem _ hb)) h4
  -- the first memory block closes it
  have hm := hm0 m List.mem_cons_self
  rw [findCollisionsLoop, if_neg (by omega)] at h5
  obtain ⟨_, -, h6⟩ := bind_ok.mp h5
  obtain ⟨st, hst, h7⟩ := bind_ok.mp h6
  obtain ⟨_, hdep, h8⟩ := bind_ok.mp h7
  have hne : (m.offset != -1) = true := by simp; omega
  simp only [WriterRange.next, Bool.not_true, Bool.false_and, Bool.false_eq_true, if_false, hne,
    Bool.and_self,
    if_true] at hst
  obtain ⟨lowerBound, hl, hst⟩ := bind_ok.mp hst
  simp only [Except.ok.injEq] at hst
  have hclosed : st.inSizeWriterList = false := by rw [← hst]
  have hall : ∀ b ∈ m :: ms, dependOnWriters dag blocks st b = .ok () :=
    List.forall_mem_cons.mpr
      ⟨hdep, findCollisionsLoop_memory hclosed (fun b hb => hm0 b (List.mem_cons_of_mem _ hb)) h8⟩
  have hrange : (blocks.take st.sizeWritersEnd).drop st.sizeWritersBegin = w :: ws := by
    have hlen : (readers ++ w :: ws).length = 0 + readers.length + 1 + ws.length := by
      simp only [List.length_append, List.length_cons]
      omega
    rw [← hst]
    simp only
    rw [← hlen, hblocks, ← List.append_assoc, List.take_left, Nat.zero_add, List.drop_left]
  refine ⟨lowerBound, hl, fun b hb h0 hlt v hv hv1 hid hres => ?_⟩
  rw [VerifierCluster.addDependencyBetween_ok hf, ← registerDependency_ok hf]
  have hb' := hall b ((hmem b).mpr ⟨hb, h0⟩)
  have hlow : st.lowerBound = lowerBound := by rw [← hst]
  rw [dependOnWriters, hlow, stop_eq h0, if_pos hlt, hrange] at hb'
  have := forEach_ok.mp hb' v (hwriters.mpr ⟨hv, hv1⟩)
  rwa [if_pos ⟨hid, by simpa [resizeCollision] using hres⟩] at this

end

/-! ## The invariant of a run -/

section
variable (dag : Dag)

/-- Two slots that overlap and collide: every two requests they carry are adjacent. -/
def Compatible (x y : Slot) : Prop :=
  x.offset ≠ -3 → y.offset < x.stop → x.info.accessType.collides y.info.accessType = true →
    additiveSameBlock x.toPlacedBlock y.toPlacedBlock = false →
    ∀ m ∈ Slot.carriers x, ∀ n ∈ Slot.carriers y, dag.Adj m n

/-- The requests a writable slot carries are pairwise adjacent. -/
def CliqueAdjacent (x : Slot) : Prop :=
  x.info.accessType = .writable → (Slot.carriers x).Pairwise dag.Adj

/-- What the second part of the size block `y` will ask for. -/
def ShadowAdjacent (slots : List Slot) (y : Slot) : Prop :=
  ∀ w ∈ slots, 0 ≤ w.offset → w.offset < y.collidingEnd →
    y.info.accessType.collides w.info.accessType = true →
      ∀ n ∈ Slot.carriers w, dag.Adj y.info.requestID n

/-- A size block after another at its offset is ready to be split. -/
def ShadowReady (slots : List Slot) (x y : Slot) : Prop :=
  x.offset = y.offset → (y.offset = -1 ∨ y.offset = -2) → ShadowAdjacent dag slots y

structure Demandable (blocks : List PlacedBlock) (slots : List Slot) : Prop where
  sorted : Sorted slots
  slotOK : ∀ s ∈ slots, SlotOK blocks s
  cliques : ∀ s ∈ slots, CliqueAdjacent dag s
  compatible : slots.Pairwise (Compatible dag)
  shadows : slots.Pairwise (ShadowReady dag slots)

end

section
variable {dag : Dag} {blocks : List PlacedBlock} {x y y' w : Slot}

theorem SlotOK.not_additive (h : SlotOK blocks x) (ho : x.offset = -1 ∨ x.offset = -2) :
    x.info.accessType ≠ .int_additive := by
  rcases ho with ho | ho
  · simp [h.writable ho]
  · simp [h.readable ho]

theorem additiveSameBlock_of_ne {a b : PlacedBlock} (h : a.info.accessType ≠ .int_additive) :
    additiveSameBlock a b = false := by
  have : a.info.accessType.isAdditive = false := by simpa [Access.isAdditive] using h
  simp [additiveSameBlock, this]

/-- The same additive block is merged, so it is never checked. -/
theorem additiveSameBlock_of_not_merged (hx : SlotOK blocks x) (hnp : ¬ Slot.passive x)
    (h : canMerge x.toPlacedBlock y.toPlacedBlock = false ∨ y.collidingEnd < x.stop) :
    additiveSameBlock x.toPlacedBlock y.toPlacedBlock = false := by
  by_contra hne
  have hsame : additiveSameBlock x.toPlacedBlock y.toPlacedBlock = true := by simpa using hne
  simp only [additiveSameBlock, Bool.and_eq_true, beq_iff_eq] at hsame
  obtain ⟨⟨⟨h1, h2⟩, h3⟩, h4⟩ := hsame
  have hm : canMerge x.toPlacedBlock y.toPlacedBlock = true := by simp [canMerge, h2, h3, h4]
  rcases h with h | h
  · simp [hm] at h
  · have hadd : x.info.accessType = .int_additive := by simpa [Access.isAdditive] using h1
    have hlow := not_passive_offset hnp hx.lowest
    rcases lt_or_ge x.offset 0 with hneg | hpos
    · exact hx.not_additive (by omega) hadd
    · rw [stop_eq hpos] at h
      simp only [PlacedBlock.collidingEnd] at h
      omega

/-- No check of a turn fails. -/
theorem restScan_returns {stop : Int} : ∀ {rest : List Slot},
    (∀ y ∈ rest, y.offset < stop → canMerge x.toPlacedBlock y.toPlacedBlock = false ∨
        y.collidingEnd < stop →
      checkDependency dag x y = .ok ()) → ∃ r, restScan dag x stop rest = .ok r
  | [], _ => ⟨none, rfl⟩
  | y :: rest, h => by
    rw [restScan]
    split
    swap
    · exact ⟨none, rfl⟩
    rename_i hy
    split
    · rename_i hm
      obtain ⟨r, hr⟩ : ∃ r, restScan dag x stop rest = .ok r :=
        restScan_returns fun z hz => h z (List.mem_cons_of_mem _ hz)
      rw [h y List.mem_cons_self hy (by simpa using hm), hr]
      exact ⟨_, rfl⟩
    · rw [VerifierCluster.merge_eq]
      exact ⟨_, rfl⟩

theorem restStep_returns {rest : List Slot} (hf : Forward dag.Edge)
    (h : Demandable dag blocks (x :: rest)) :
    ∃ rest', restStep dag x rest = .ok rest' := by
  have hx := h.slotOK x List.mem_cons_self
  unfold restStep
  split
  · exact ⟨_, rfl⟩
  rename_i hnp
  rw [VerifierCluster.insert_eq]
  -- every edge that is asked for joins two slots that are compatible
  have hcheck : ∀ y ∈ rest, y.offset < x.stop →
      canMerge x.toPlacedBlock y.toPlacedBlock = false ∨ y.collidingEnd < x.stop →
      checkDependency dag (Slot.entered x) y = .ok () := by
    intro y hy hlt hm
    unfold checkDependency
    split
    swap
    · rfl
    rename_i hcol
    refine VerifierCluster.addDependency_of_adj hf ?_ fun m hmem => ?_
    · exact List.ne_nil_of_mem (mem_entered_members.mpr List.mem_cons_self)
    · exact List.rel_of_pairwise_cons h.compatible hy (fun he => hnp (.inl he)) hlt hcol
        (additiveSameBlock_of_not_merged hx hnp hm) m (mem_entered_members.mp hmem)
          _ List.mem_cons_self
  obtain ⟨r, hr⟩ := restScan_returns (x := Slot.entered x) hcheck
  have hfin : (Slot.entered x).cluster.finalize dag = .ok () := by
    refine VerifierCluster.finalize_of_adj (fun hw => hx.entered_sorted hw) fun hw => ?_
    exact ((entered_members_perm x).pairwise_iff fun h => h.symm).mpr
      (h.cliques x List.mem_cons_self hw)
  simp only [bind, Except.bind]
  have hr' : restScan dag (Slot.entered x) (Slot.entered x).stop rest = .ok r := hr
  simp only [Slot.entered] at hr' hfin
  rw [hr']
  cases r with
  | none =>
    simp only [hfin]
    exact ⟨_, rfl⟩
  | some rest' => exact ⟨_, rfl⟩

/-! ## One turn -/

/-- Additive slots of one merge stand at the same place. -/
theorem additiveSameBlock_merge (hm : MergeOK x y) (hr : Replaces x y y')
    (h : additiveSameBlock y'.toPlacedBlock w.toPlacedBlock = false) :
    additiveSameBlock y.toPlacedBlock w.toPlacedBlock = false ∧
      additiveSameBlock x.toPlacedBlock w.toPlacedBlock = false := by
  by_cases ha : y.info.accessType = .int_additive
  · obtain ⟨h1, h2⟩ := hm.additive (hm.type.trans ha)
    have h3 := hr.additive ha
    rw [additiveSameBlock, hr.type, hr.offset, h3] at h
    exact ⟨h, by rw [additiveSameBlock, hm.type, h1, h2]; exact h⟩
  · exact ⟨additiveSameBlock_of_ne ha, additiveSameBlock_of_ne (hm.type ▸ ha)⟩

/-- An earlier slot and the slot in the place of `y`. -/
theorem Compatible.replace_right (hwy : Compatible dag w y) (hxw : Compatible dag x w)
    (hm : MergeOK x y)
    (hr : Replaces x y y') (hpass : w.offset < x.stop) : Compatible dag w y' := by
  intro hne hlt hcol hadd m hmw n hny
  rw [hr.offset] at hlt
  rw [hr.type] at hcol
  rw [additiveSameBlock_comm] at hadd
  obtain ⟨hay, hax⟩ := additiveSameBlock_merge hm hr hadd
  rcases (hr.carriers n).mp hny with hn | hn
  · exact hwy hne hlt hcol (by rw [additiveSameBlock_comm]; exact hay) m hmw n hn
  · have hx3 := hm.start
    exact (hxw (by omega) hpass (by rw [Access.collides_comm, hm.type]; exact hcol) hax n
      hn m hmw).symm

/-- The slot in the place of `y` and a later slot, which starts where `x` reaches too. -/
theorem Compatible.replace_left (hyw : Compatible dag y w) (hxw : Compatible dag x w)
    (hm : MergeOK x y)
    (hr : Replaces x y y') (hstop : w.offset < y'.stop → w.offset < x.stop) :
    Compatible dag y' w := by
  intro hne hlt hcol hadd m hmy n hnw
  have hx := hstop hlt
  rw [hr.offset] at hne
  rw [hr.type] at hcol
  obtain ⟨hay, hax⟩ := additiveSameBlock_merge hm hr hadd
  rcases (hr.carriers m).mp hmy with hn | hn
  · exact hyw hne (hx.trans_le hm.stop_le) hcol hay m hn n hnw
  · have hx3 := hm.start
    exact hxw (by omega) hx (by rw [hm.type]; exact hcol) hax m hn n hnw

theorem CliqueAdjacent.merge (hx : CliqueAdjacent dag x) (hy : CliqueAdjacent dag y)
    (hxy : Compatible dag x y) (hm : MergeOK x y) :
    CliqueAdjacent dag (Slot.absorb y (Slot.entered x)) := by
  intro hw
  have hyw : y.info.accessType = .writable := hw
  have hxw : x.info.accessType = .writable := hm.type.trans hyw
  rw [(absorb_carriers_perm x y).pairwise_iff fun h => h.symm]
  have hstart := hm.start
  refine List.pairwise_append.mpr ⟨hy hyw, hx hxw, fun n hn m hmem => ?_⟩
  exact (hxy (by omega) hm.below (by simp [hxw, hyw, Access.collides])
    (additiveSameBlock_of_ne (by simp [hxw])) m hmem n hn).symm

/-- Two size blocks of which one may write are adjacent. -/
theorem adj_of_size_blocks {b : Slot} (hb : SlotOK blocks b) (hy : SlotOK blocks y)
    (hbo : b.offset = -1 ∨ b.offset = -2) (hyo : y.offset = -1 ∨ y.offset = -2)
    (hcol : b.info.accessType.collides y.info.accessType = true)
    (h : Compatible dag b y ∨ Compatible dag y b) : dag.Adj b.info.requestID y.info.requestID := by
  have hb0 : b.stop = 0 := stop_eq_zero (by omega) (by omega)
  have hy0 : y.stop = 0 := stop_eq_zero (by omega) (by omega)
  rcases h with h | h
  · exact h (by omega) (by omega) hcol (additiveSameBlock_of_ne (hb.not_additive hbo))
      _ List.mem_cons_self _
      List.mem_cons_self
  · exact (h (by omega) (by omega) (by rw [Access.collides_comm]; exact hcol)
      (additiveSameBlock_of_ne (hy.not_additive hyo)) _ List.mem_cons_self
        _ List.mem_cons_self).symm

theorem ShadowAdjacent.mono {slots slots' : List Slot} (h : ShadowAdjacent dag slots y)
    (hsub : ∀ w ∈ slots', 0 ≤ w.offset → w ∈ slots) : ShadowAdjacent dag slots' y :=
  fun w hw h0 => h w (hsub w hw h0) h0

/-- No slot of a merge without a split starts between the two ends. -/
theorem lt_stop_of_not_startsBelow {stop bound : Int} {rest : List Slot} (hs : Sorted rest)
    (h : ¬ (stop < bound ∧ startsBelow stop bound rest = true)) (hw : w ∈ rest)
    (hlt : w.offset < bound) :
    w.offset < stop := by
  by_contra hge
  have hdw : w ∈ rest.dropWhile fun s => s.offset < stop := mem_dropWhile_of_stop_le hw (by omega)
  refine h ⟨by omega, ?_⟩
  have hsd : Sorted (rest.dropWhile fun s => s.offset < stop) :=
    hs.sublist (List.dropWhile_sublist _)
  unfold startsBelow
  cases hd : rest.dropWhile fun s => s.offset < stop with
  | nil => simp [hd] at hdw
  | cons z post =>
    rw [hd] at hdw hsd
    simp only [List.head?_cons, Option.any_some, decide_eq_true_eq]
    rcases List.mem_cons.mp hdw with rfl | hmem
    · exact hlt
    · exact (List.rel_of_pairwise_cons hsd hmem).trans_lt hlt

theorem pairwise_replace {α : Type} {P Q : α → α → Prop} {l r : List α} {a a' : α}
    (h : (l ++ a :: r).Pairwise P)
    (hlr : ∀ u ∈ l ++ r, ∀ v ∈ l ++ r, P u v → Q u v) (hl : ∀ u ∈ l, P u a → Q u a')
    (hr : ∀ v ∈ r, P a v → Q a' v) : (l ++ a' :: r).Pairwise Q := by
  obtain ⟨h1, h2, h3⟩ := List.pairwise_append.mp h
  obtain ⟨h4, h5⟩ := List.pairwise_cons.mp h2
  refine List.pairwise_append.mpr ⟨h1.imp_of_mem ?_,
    List.pairwise_cons.mpr ⟨fun v hv => hr v hv (h4 v hv), h5.imp_of_mem ?_⟩, ?_⟩
  · exact fun hu hv => hlr _ (List.mem_append_left _ hu) _ (List.mem_append_left _ hv)
  · exact fun hu hv => hlr _ (List.mem_append_right _ hu) _ (List.mem_append_right _ hv)
  · intro u hu v hv
    rcases List.mem_cons.mp hv with rfl | hv
    · exact hl u hu (h3 u hu a List.mem_cons_self)
    · exact hlr u (List.mem_append_left _ hu) v (List.mem_append_right _ hv)
        (h3 u hu v (List.mem_cons_of_mem _ hv))

theorem pairwise_insert {α : Type} {Q : α → α → Prop} {l r : List α} {a : α}
    (h : (l ++ r).Pairwise Q)
    (hl : ∀ u ∈ l, Q u a) (hr : ∀ v ∈ r, Q a v) : (l ++ a :: r).Pairwise Q := by
  obtain ⟨h1, h2, h3⟩ := List.pairwise_append.mp h
  refine List.pairwise_append.mpr ⟨h1, List.pairwise_cons.mpr ⟨hr, h2⟩, fun u hu v hv => ?_⟩
  rcases List.mem_cons.mp hv with rfl | hv
  · exact hl u hu
  · exact h3 u hu v hv

/-- The merge without a split: the slot in the place of `y` carries more requests. -/
theorem Demandable.merge {bef aft : List Slot} (h : Demandable dag blocks (x :: (bef ++ y :: aft)))
    (hm : MergeOK x y) (hb : ∀ b ∈ bef, b.offset < x.stop)
    (hns : ¬ (x.stop < y.collidingEnd ∧ startsBelow x.stop y.collidingEnd aft = true)) :
    let slots := bef ++ Slot.absorb y (Slot.entered x) :: aft
    (∀ s ∈ slots, CliqueAdjacent dag s) ∧ slots.Pairwise (Compatible dag) ∧
      slots.Pairwise (ShadowReady dag slots) := by
  intro slots
  have hr := hm.replaces_absorb
  obtain ⟨hcx, hc⟩ := List.pairwise_cons.mp h.compatible
  obtain ⟨hsx, hs⟩ := List.pairwise_cons.mp h.shadows
  have hsaft : Sorted aft :=
    h.sorted.of_cons.sublist ((List.sublist_cons_self y aft).trans (List.sublist_append_right _ _))
  have hxaft : ∀ w ∈ aft, Compatible dag x w := fun w hw => hcx w (by simp [hw])
  have hmem : ∀ w ∈ slots, w = Slot.absorb y (Slot.entered x) ∨ w ∈ bef ++ aft := by
    intro w hw
    simp only [slots, List.mem_append, List.mem_cons] at hw ⊢
    tauto
  refine ⟨fun s hs => ?_, ?_, ?_⟩
  · rcases hmem s hs with rfl | hs
    · exact (h.cliques x List.mem_cons_self).merge (h.cliques y (by simp)) (hcx y (by simp)) hm
    · exact h.cliques s (List.mem_cons_of_mem
        _ (by simp only [List.mem_append, List.mem_cons] at hs ⊢; tauto))
  · refine pairwise_replace hc (fun _ _ _ _ h => h) ?_ ?_
    · exact fun w hw hwy => hwy.replace_right (hcx w (by simp [hw])) hm hr (hb w hw)
    · intro w hw hyw
      -- the absorbed slot reaches as far as `y` did, and no slot after it starts in between
      refine hyw.replace_left (hxaft w hw) hm hr fun hlt => ?_
      have hlt' : w.offset < y.stop := hlt
      rcases hm.sign with ⟨hy0, -, h0⟩ | ⟨-, hy0, -⟩
      · rw [stop_eq_zero (by have := hm.start; have := hm.order; omega) hy0] at hlt'
        omega
      · rw [stop_eq hy0] at hlt'
        exact lt_stop_of_not_startsBelow hsaft hns hw hlt'
  · -- size blocks are where they were, and so are the memory blocks
    have hmono : ∀ {b : Slot}, (y.offset < 0) → ShadowAdjacent dag (x :: (bef ++ y :: aft)) b →
        ShadowAdjacent dag slots b := by
      intro b hy0 hsh
      refine hsh.mono fun w hw h0 => ?_
      rcases hmem w hw with rfl | hw
      · have : (Slot.absorb y (Slot.entered x)).offset = y.offset := rfl
        omega
      · simp only [List.mem_append, List.mem_cons] at hw ⊢
        tauto
    have hpos : ∀ b ∈ bef ++ aft, (b.offset = -1 ∨ b.offset = -2) → y.offset < 0 := by
      intro b hb' hbo
      rcases hm.sign with ⟨hy0, -⟩ | ⟨hx0, -⟩
      · exact hy0
      · have := (List.pairwise_cons.mp h.sorted).1 b
          (by simp only [List.mem_append, List.mem_cons] at hb' ⊢; tauto)
        omega
    refine pairwise_replace hs (fun a _ b hb' hab he ho => hmono (hpos b hb' ho) (hab he ho)) ?_ ?_
    · intro a _ hay he ho
      have hy0 : y.offset < 0 := by
        have : (Slot.absorb y (Slot.entered x)).offset = y.offset := rfl
        omega
      exact hmono hy0 (hay he ho)
    · exact fun b hb' hyb he ho => hmono (hpos b (List.mem_append_right _ hb') ho) (hyb he ho)

/-- The part of a split that stays in the place of `y`. -/
private abbrev splitFront (x y : Slot) : Slot := Slot.front (Slot.absorb y (Slot.entered x)) x.stop

/-- The part of a split that starts where `x` stops. -/
private abbrev splitTail (x y : Slot) : Slot := Slot.tail (Slot.absorb y (Slot.entered x)) x.stop

theorem splitTail_collidingEnd (hsp : x.stop < y.collidingEnd) :
    (splitTail x y).collidingEnd = y.collidingEnd := by
  have hpos : 0 < y.collidingEnd - x.stop := Int.sub_pos_of_lt hsp
  simp only [splitTail, Slot.tail, Slot.absorb, PlacedBlock.collidingEnd] at hpos ⊢
  omega

theorem splitFront_collidingEnd (hle : y.offset ≤ x.stop) :
    (splitFront x y).collidingEnd = x.stop := by
  have hpos : 0 ≤ x.stop - y.offset := Int.sub_nonneg_of_le hle
  simp only [splitFront, Slot.front, Slot.absorb, PlacedBlock.collidingEnd] at hpos ⊢
  omega

/-- The second part is a memory block. -/
theorem splitTail_offset_ne (hm : MergeOK x y) :
    ¬ ((splitTail x y).offset = -1 ∨ (splitTail x y).offset = -2) := by
  have hto : (splitTail x y).offset = x.stop := rfl
  have horder := hm.order
  have hbelow := hm.below
  rcases hm.sign with ⟨-, -, h0⟩ | ⟨-, hy0, -⟩ <;> omega

theorem insertTail_split (stop : Int) (bef aft : List Slot) (front tail : Slot) :
    bef ++ front :: insertTail stop tail aft =
    (bef ++ front :: aft.takeWhile fun s => s.offset < stop) ++ tail ::
    aft.dropWhile fun s => s.offset < stop := by
  simp [insertTail]

theorem split_whole (stop : Int) (bef aft : List Slot) (front : Slot) :
    (bef ++ front :: aft.takeWhile fun s => s.offset < stop) ++
        aft.dropWhile (fun s => s.offset < stop) = bef ++ front :: aft := by
  rw [List.append_assoc, List.cons_append, List.takeWhile_append_dropWhile]

/-- What stands before the second part of a split. -/
theorem compatible_splitTail {w : Slot} (hx : SlotOK blocks x) (hm : MergeOK x y)
    (hsp : x.stop < y.collidingEnd)
    (h : Compatible dag w y ∨ Compatible dag y w ∧ w.offset < x.stop) :
    Compatible dag w (splitTail x y) := by
  intro hne hlt hcol _ m hmw n hn
  obtain rfl : n = y.info.requestID := List.mem_singleton.mp hn
  have hna : y.info.accessType ≠ .int_additive := hm.type ▸ hm.not_additive hx hsp
  have hlt' : x.stop < w.stop := hlt
  have hcol' : w.info.accessType.collides y.info.accessType = true := hcol
  have hbelow := hm.below
  rcases h with h | ⟨h, hwlt⟩
  · refine h hne (hbelow.trans hlt') hcol' ?_ m hmw _ List.mem_cons_self
    rw [additiveSameBlock_comm]
    exact additiveSameBlock_of_ne hna
  · refine (h ?_ (hwlt.trans_le hm.stop_le) (by rwa [Access.collides_comm])
      (additiveSameBlock_of_ne hna) _ List.mem_cons_self
      m hmw).symm
    have hstart := hm.start
    have horder := hm.order
    omega

/-- What stands behind the second part of a split. A size block ends at 0,
so its second part is its shadow. -/
theorem Demandable.splitTail_compatible {bef aft : List Slot} {w : Slot}
    (h : Demandable dag blocks (x :: (bef ++ y :: aft)))
    (hm : MergeOK x y) (hsp : x.stop < y.collidingEnd) (hw : w ∈ aft) (hge : x.stop ≤ w.offset) :
    Compatible dag (splitTail x y) w := by
  intro hne hlt hcol _ m hmem n hnw
  obtain rfl : m = y.info.requestID := List.mem_singleton.mp hmem
  have hx := h.slotOK x List.mem_cons_self
  have hy := h.slotOK y (by simp)
  have hto : (splitTail x y).offset = x.stop := rfl
  have hte := splitTail_collidingEnd hsp
  have hstart := hm.start
  have horder := hm.order
  have hbelow := hm.below
  have hcol' : y.info.accessType.collides w.info.accessType = true := hcol
  rcases hm.sign with ⟨hy0, hx0, h0⟩ | ⟨-, hy0, -⟩
  · rw [stop_eq (by omega), hte] at hlt
    have hxy : x.offset = y.offset := by
      have h1 : x.offset = -2 ∨ x.offset = -1 := by omega
      have h2 : y.offset = -2 ∨ y.offset = -1 := by omega
      have htype := hm.type
      rcases h1 with h1 | h1 <;> rcases h2 with h2 | h2 <;>
        simp_all [hx.readable, hx.writable, hy.readable, hy.writable]
    have hshadow := (List.pairwise_cons.mp h.shadows).1 y (by simp) hxy (by omega)
    exact hshadow w (by simp [hw]) (by omega) hlt hcol' n hnw
  · rw [stop_eq (by omega), hte, ← stop_eq hy0] at hlt
    have hyw : Compatible dag y w :=
      List.rel_of_pairwise_cons
        (List.pairwise_append.mp (List.pairwise_cons.mp h.compatible).2).2.1 hw
    have hna : y.info.accessType ≠ .int_additive := hm.type ▸ hm.not_additive hx hsp
    exact hyw (by omega) hlt hcol' (additiveSameBlock_of_ne hna) _ List.mem_cons_self n hnw

/-- The slots after a split. -/
theorem mem_split {bef aft : List Slot} {w : Slot}
    (hw : w ∈ bef ++ splitFront x y :: insertTail x.stop (splitTail x y) aft) :
    w = splitFront x y ∨ w = splitTail x y ∨ w ∈ bef ++ aft := by
  simp only [List.mem_append, List.mem_cons, mem_insertTail] at hw ⊢
  tauto

/-- The shadow of a size block meets the second part of a split in `y` itself. -/
theorem Demandable.shadow_split {bef aft : List Slot} {b : Slot}
    (h : Demandable dag blocks (x :: (bef ++ y :: aft)))
    (hm : MergeOK x y) (hb : b ∈ bef ++ aft) (hbo : b.offset = -1 ∨ b.offset = -2)
    (hsh : ShadowAdjacent dag (x :: (bef ++ y :: aft)) b) :
    ShadowAdjacent dag (bef ++ splitFront x y :: insertTail x.stop (splitTail x y) aft) b := by
  intro w hw h0 hlt hcol n hn
  have hy := h.slotOK y (by simp)
  have hb' : b ∈ bef ++ y :: aft := by
    simp only [List.mem_append, List.mem_cons] at hb ⊢
    tauto
  have hxb : x.offset ≤ b.offset := (List.pairwise_cons.mp h.sorted).1 b hb'
  have hy0 : y.offset < 0 := by
    have hstart := hm.start
    rcases hm.sign with ⟨hy0, -⟩ | ⟨hx0, -⟩ <;> omega
  obtain ⟨hbef, hyaft, hcross⟩ := List.pairwise_append.mp (List.pairwise_cons.mp h.compatible).2
  rcases mem_split hw with rfl | rfl | hw
  · have hfo : (splitFront x y).offset = y.offset := rfl
    omega
  · obtain rfl : n = y.info.requestID := List.mem_singleton.mp hn
    have hstart := hm.start
    have horder := hm.order
    refine adj_of_size_blocks (h.slotOK b (List.mem_cons_of_mem _ hb')) hy hbo (by omega) hcol ?_
    rcases List.mem_append.mp hb with hb | hb
    · exact .inl (hcross b hb y List.mem_cons_self)
    · exact .inr (List.rel_of_pairwise_cons hyaft hb)
  · exact hsh w (by simp only [List.mem_append, List.mem_cons] at hw ⊢; tauto) h0 hlt hcol n hn

/-- The merge with a split. -/
theorem Demandable.split {bef aft : List Slot} (h : Demandable dag blocks (x :: (bef ++ y :: aft)))
    (hm : MergeOK x y) (hb : ∀ b ∈ bef, b.offset < x.stop) (hsp : x.stop < y.collidingEnd) :
    let slots := bef ++ splitFront x y :: insertTail x.stop (splitTail x y) aft
    (∀ s ∈ slots, CliqueAdjacent dag s) ∧ slots.Pairwise (Compatible dag) ∧
      slots.Pairwise (ShadowReady dag slots) := by
  intro slots
  have hx := h.slotOK x List.mem_cons_self
  have hr := hm.replaces_front hx hsp
  have hstart := hm.start
  have horder := hm.order
  obtain ⟨hcx, hc⟩ := List.pairwise_cons.mp h.compatible
  obtain ⟨-, hs⟩ := List.pairwise_cons.mp h.shadows
  have hsaft : Sorted aft :=
    h.sorted.of_cons.sublist ((List.sublist_cons_self y aft).trans (List.sublist_append_right _ _))
  have hslots : slots = _ := insertTail_split x.stop bef aft (splitFront x y) (splitTail x y)
  -- size blocks are split too, but what they reach is still there
  have hready : ∀ b ∈ bef ++ aft, ShadowAdjacent dag _ b → (b.offset = -1 ∨ b.offset = -2) →
      ShadowAdjacent dag slots b :=
    fun b hb' hsh hbo => h.shadow_split hm hb' hbo hsh
  refine ⟨fun s hs => ?_, ?_, ?_⟩
  · rcases mem_split hs with rfl | rfl | hs
    · exact (h.cliques x List.mem_cons_self).merge (h.cliques y (by simp)) (hcx y (by simp)) hm
    · -- the second part has its own request only
      exact fun _ => List.pairwise_singleton _ _
    · exact h.cliques s (List.mem_cons_of_mem
        _ (by simp only [List.mem_append, List.mem_cons] at hs ⊢; tauto))
  · rw [hslots]
    refine pairwise_insert ?_ ?_ ?_
    · rw [split_whole]
      refine pairwise_replace hc (fun _ _ _ _ h => h) ?_ ?_
      · exact fun w hw hwy => hwy.replace_right (hcx w (by simp [hw])) hm hr (hb w hw)
      · intro w hw hyw
        refine hyw.replace_left (hcx w (by simp [hw])) hm hr fun hlt => ?_
        rwa [hm.front_stop] at hlt
    · intro w hw
      obtain ⟨-, hyaft, hcross⟩ := List.pairwise_append.mp hc
      rcases List.mem_append.mp hw with hw | hw
      · exact compatible_splitTail hx hm hsp (.inl (hcross w hw y List.mem_cons_self))
      rcases List.mem_cons.mp hw with rfl | hw
      · -- the first part stops where the second one starts
        intro _ hlt
        have hto : (splitTail x y).offset = x.stop := rfl
        rw [hm.front_stop] at hlt
        omega
      · have hwlt : w.offset < x.stop := by simpa using List.mem_takeWhile_imp hw
        exact compatible_splitTail hx hm hsp
          (.inr ⟨List.rel_of_pairwise_cons hyaft ((List.takeWhile_prefix _).sublist.subset hw),
            hwlt⟩)
    · intro w hw
      exact h.splitTail_compatible hm hsp ((List.dropWhile_sublist _).subset hw)
        (stop_le_dropWhile hsaft w hw)
  · rw [hslots]
    refine pairwise_insert ?_ (fun u _ _ ho => absurd ho (splitTail_offset_ne hm)) ?_
    · rw [split_whole, ← hslots]
      refine pairwise_replace hs (fun a _ b hb' hab he ho => hready b hb' (hab he ho) ho) ?_ ?_
      · -- no memory block starts before the first part ends
        intro a _ _ _ ho w _ h0 hlt
        have hfo : (splitFront x y).offset = y.offset := rfl
        have hbelow := hm.below
        rw [splitFront_collidingEnd (Int.le_of_lt hbelow)] at hlt
        rcases hm.sign with ⟨-, -, hx0⟩ | ⟨-, hy0, -⟩ <;> omega
      · exact fun b hb' hyb he ho => hready b (List.mem_append_right _ hb') (hyb he ho) ho
    · intro v _ he ho
      exact absurd (he ▸ ho) (splitTail_offset_ne hm)

/-- One turn keeps the invariant. -/
theorem Demandable.restStep {rest rest' : List Slot} (h : Demandable dag blocks (x :: rest))
    (hstep : restStep dag x rest = .ok rest') : Demandable dag blocks rest' := by
  have hs := restStep_sorted h.sorted hstep
  have hok := restStep_slotOK h.sorted h.slotOK hstep
  have hx := h.slotOK x List.mem_cons_self
  have hrest : (∀ s ∈ rest, CliqueAdjacent dag s) ∧ rest.Pairwise (Compatible dag) ∧
      rest.Pairwise (ShadowReady dag rest) :=
    ⟨fun s hs => h.cliques s (List.mem_cons_of_mem _ hs), h.compatible.of_cons,
      h.shadows.of_cons.imp fun hab he ho => (hab he ho).mono fun w hw _ =>
        List.mem_cons_of_mem _ hw⟩
  suffices hnew : (∀ s ∈ rest', CliqueAdjacent dag s) ∧ rest'.Pairwise (Compatible dag) ∧
      rest'.Pairwise (ShadowReady dag rest') from ⟨hs, hok, hnew.1, hnew.2.1, hnew.2.2⟩
  rcases restStep_cases hstep with ⟨-, rfl⟩ | ⟨-, rfl, -⟩ | ⟨hnp, bef, y, aft, rfl, hb, hy, hmg,
    hreach, rfl⟩
  · exact hrest
  · exact hrest
  have hm : MergeOK x y :=
    ⟨not_passive_offset hnp hx.lowest, List.rel_of_pairwise_cons h.sorted (by simp), hy,
    canMerge_type hmg, canMerge_additive hmg, hreach⟩
  have hbef : ∀ b ∈ bef, b.offset < x.stop := fun b hb' => (hb b hb').1
  by_cases hsp : x.stop < y.collidingEnd ∧ startsBelow x.stop y.collidingEnd aft = true
  · have he : mergeInto x.stop (Slot.absorb y (Slot.entered x)) aft =
        Slot.front (Slot.absorb y (Slot.entered x)) x.stop ::
          insertTail x.stop (Slot.tail (Slot.absorb y (Slot.entered x)) x.stop) aft := if_pos hsp
    rw [he]
    exact h.split hm hbef hsp.1
  · have he : mergeInto x.stop (Slot.absorb y (Slot.entered x)) aft =
        Slot.absorb y (Slot.entered x) :: aft :=
      if_neg hsp
    rw [he]
    exact h.merge hm hbef hsp

end

/-- The run returns: no check fails, and the turns suffice. -/
theorem restLoop_returns {dag : Dag} {blocks : List PlacedBlock} {top : Int}
    (hf : Forward dag.Edge) :
    ∀ (fuel : Nat) (slots : List Slot), Demandable dag blocks slots → EndsBelow top slots →
      turns top slots ≤ fuel → restLoop dag fuel slots = .ok ()
  | _, [], _, _, _ => by simp [restLoop]
  | 0, x :: rest, _, _, ht => by simp [turns] at ht
  | fuel + 1, x :: rest, h, he, ht => by
    obtain ⟨rest', hstep⟩ := restStep_returns hf h
    obtain ⟨hlt, he'⟩ := turns_restStep h.sorted he hstep
    rw [restLoop, hstep]
    exact restLoop_returns hf fuel rest' (h.restStep hstep) he' (by omega)

theorem endsBelow_horizon : ∀ slots : List Slot, EndsBelow (horizon slots) slots
  | [] => by simp [EndsBelow]
  | s :: rest => by
    refine List.forall_mem_cons.mpr ⟨?_, fun t ht => (endsBelow_horizon rest t ht).trans ?_⟩
    · exact le_trans (le_max_right _ _) (le_max_right _ _)
    · exact le_max_left _ _

/-- The declared blocks before the first turn. -/
theorem demandable_initial {dag : Dag} {getSizeLowerBound : Except Exn Int}
    {blocks : List PlacedBlock}
    (hf : Forward dag.Edge) (hwf : WellFormedBlocks blocks) (hsh : ShadowsAdjacent dag blocks)
    (h : findCollisions dag getSizeLowerBound blocks = .ok ()) :
    Demandable dag blocks (blocks.map fun b => ({ b with } : Slot)) := by
  have hov := findCollisionsLoop_overlap hf hwf.sorted h
  refine ⟨List.pairwise_map.mpr hwf.sorted, ?_, ?_, List.pairwise_map.mpr (hov.imp ?_),
    List.pairwise_map.mpr (hsh.imp ?_)⟩
  · intro s hs
    obtain ⟨b, hb, rfl⟩ := List.mem_map.mp hs
    exact SlotOK.initial hwf hb
  · intro s hs _
    obtain ⟨b, -, rfl⟩ := List.mem_map.mp hs
    exact List.pairwise_singleton _ _
  · intro a b hab hne hlt hcol hadd m hm n hn
    obtain rfl := List.mem_singleton.mp hm
    obtain rfl := List.mem_singleton.mp hn
    exact hab hne hlt hcol hadd
  · intro a b hab he ho w hw h0 hlt hcol n hn
    obtain ⟨z, hz, rfl⟩ := List.mem_map.mp hw
    obtain rfl := List.mem_singleton.mp hn
    exact hab he ho z hz h0 hlt hcol

/-- **Completeness of the verifier.** Where the pairwise algorithm accepts, the
verifier accepts too, unless a size block that follows another one reaches over a
memory block whose request it has no edge to. -/
theorem checkCollisions_of_findCollisions (dag : Dag) (getSizeLowerBound : Except Exn Int)
    (blocks : List PlacedBlock) (hwf : WellFormedBlocks blocks) (hf : Forward dag.Edge)
    (hsh : ShadowsAdjacent dag blocks) (h : findCollisions dag getSizeLowerBound blocks = .ok ()) :
    checkCollisions dag getSizeLowerBound blocks = .ok () := by
  have hres := findResizingCollisions_of_findCollisions hf hwf.sorted h
  have hcl : findCollisionCliques dag blocks = .ok () := by
    rw [findCollisionCliques, cliqueLoop_eq, List.drop_zero]
    exact restLoop_returns hf _ _ (demandable_initial hf hwf hsh h) (endsBelow_horizon _) le_rfl
  rw [checkCollisions, hres]
  exact hcl

/-- Two expanding requests that write disjoint bytes above their size bounds,
and a reader of both. -/
theorem checkCollisions_of_findCollisions_expanders :
    let dag : Dag := fun u v => u < v
    let blocks : List PlacedBlock :=
      [⟨-2, 0, .read_only, 2⟩, ⟨-1, 4, .writable, 0⟩, ⟨-1, 8, .writable, 1⟩, ⟨8, 2, .writable, 0⟩,
        ⟨8, 4, .read_only, 2⟩, ⟨10, 2, .writable, 1⟩]
    checkCollisions dag (.ok 4) blocks = .ok () := by
  intro dag blocks
  exact checkCollisions_of_findCollisions dag (.ok 4) blocks
    ⟨by decide, by decide, by decide, by decide, by decide⟩
      (fun u v h => by simpa [Dag.Edge, dag] using h) (by decide) (by decide)

/-- Two expanding requests, the second writing the first two bytes: the split of its
size block asks for an edge from request 1 to itself. -/
theorem checkCollisions_rejects_full_graph :
    let dag : Dag := fun u v => u < v
    let blocks : List PlacedBlock :=
      [⟨-1, 10, .writable, 0⟩, ⟨-1, 10, .writable, 1⟩, ⟨0, 2, .writable, 1⟩]
    WellFormedBlocks blocks ∧ Forward dag.Edge ∧ findCollisions dag (.ok 5) blocks = .ok () ∧
      checkCollisions dag (.ok 5) blocks ≠ .ok () := by
  intro dag blocks
  exact ⟨⟨by decide, by decide, by decide, by decide, by decide⟩,
    fun u v h => by simpa [Dag.Edge, dag] using h, by decide, by decide⟩

end Argennon.RequestScheduler
