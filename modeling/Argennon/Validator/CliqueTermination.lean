import Argennon.Validator.CliqueCompleteness

/- The runs of `findCollisionCliques` on any sorted list of blocks: with a dag that has every edge
   the loop comes to its end and every index is in range, and with any dag the clusters of writable
   blocks keep their members in order. -/
namespace Argennon

namespace VerifierCluster
variable {dag : Dag} {c d : VerifierCluster} {u v : Nat}

/-! ## Checks that are always passed -/

theorem registerAdjacency_returns (hdag : ∀ u v, dag u v = true) :
    registerAdjacency dag u v = .ok () := if_pos (hdag u v)

theorem registerChain_returns (hdag : ∀ u v, dag u v = true) :
    ∀ members : List Nat, registerChain dag members = .ok ()
  | [] => rfl
  | [_] => rfl
  | u :: v :: rest => by
    rw [registerChain, registerAdjacency_returns hdag]
    exact registerChain_returns hdag (v :: rest)

theorem finalize_returns (hdag : ∀ u v, dag u v = true) : c.finalize dag = .ok () := by
  unfold finalize
  split
  · exact registerChain_returns hdag c.members
  · rfl

/-- The neighbours of a request in a clique are members: the clique is not empty. -/
theorem addDependency_returns (hdag : ∀ u v, dag u v = true) (hne : c.members ≠ []) :
    c.addDependency dag u = .ok () := by
  have hpos : 0 < c.members.length := List.length_pos_iff.mpr hne
  have hle : (c.members.takeWhile (· ≤ u)).length ≤ c.members.length :=
    (List.takeWhile_prefix _).length_le
  unfold addDependency
  split
  · dsimp only
    split
    · rw [vecGet_lt (by omega)]
      exact registerAdjacency_returns hdag
    · split
      · rw [vecGet_lt (by omega)]
        exact registerAdjacency_returns hdag
      · -- a member on each side
        rw [vecGet_lt (by omega), vecGet_lt (by omega)]
        simp only [bind, Except.bind, registerAdjacency_returns hdag]
  · apply forEach_ok.mpr
    intro member _
    unfold addDependencyBetween
    split
    · exact registerAdjacency_returns hdag
    · exact registerAdjacency_returns hdag

end VerifierCluster

namespace RequestScheduler
variable {dag : Dag}

/-! ## The loop ends -/

theorem restStep_returns_all (hdag : ∀ u v, dag u v = true) (x : Slot) (rest : List Slot) :
    ∃ rest', restStep dag x rest = .ok rest' := by
  have hne : (Slot.entered x).cluster.members ≠ [] :=
    List.ne_nil_of_mem (mem_entered_members.mpr List.mem_cons_self)
  have hscan : ∃ r, restScan dag (Slot.entered x) (Slot.entered x).stop rest = .ok r := by
    apply restScan_returns
    intro y _ _ _
    unfold checkDependency
    split
    · exact VerifierCluster.addDependency_returns hdag hne
    · rfl
  obtain ⟨r, hr⟩ := hscan
  unfold restStep
  split
  · exact ⟨_, rfl⟩
  · rw [VerifierCluster.insert_eq]
    simp only [bind, Except.bind]
    simp only [Slot.entered] at hr
    rw [hr]
    cases r with
    | none =>
      simp only [VerifierCluster.finalize_returns hdag]
      exact ⟨_, rfl⟩
    | some rest' => exact ⟨_, rfl⟩

/-- A turn takes a slot away, or makes one start later: the turns are bounded. -/
theorem restLoop_returns_all (hdag : ∀ u v, dag u v = true) {top : Int} :
    ∀ (fuel : Nat) (slots : List Slot), Sorted slots →
    EndsBelow top slots → turns top slots ≤ fuel → restLoop dag fuel slots = .ok ()
  | 0, [], _, _, _ => rfl
  | _ + 1, [], _, _, _ => rfl
  | 0, x :: rest, _, _, hfuel => by simp [turns] at hfuel
  | fuel + 1, x :: rest, hsorted, hends, hfuel => by
    obtain ⟨rest', hstep⟩ := restStep_returns_all hdag x rest
    obtain ⟨hless, hends'⟩ := turns_restStep hsorted hends hstep
    rw [restLoop, hstep]
    exact restLoop_returns_all hdag fuel rest' (restStep_sorted hsorted hstep) hends' (by omega)

/-- The slots before the first turn. -/
def initialSlots (blocks : List PlacedBlock) : List Slot := blocks.map fun b => { b with }

/-- **Termination and index safety.** For blocks sorted by offset and a dag that has every edge, the
loop ends after at most `turns` turns, however many it is given beyond, and no index is out of
range. -/
theorem findCollisionCliques_terminates {blocks : List PlacedBlock}
    (hsorted : blocks.Pairwise fun a b => a.offset ≤ b.offset) :
    findCollisionCliques (fun _ _ => true) blocks = .ok () ∧
      ∀ fuel, turns (horizon (initialSlots blocks)) (initialSlots blocks) ≤ fuel →
        cliqueLoop (fun _ _ => true) fuel (initialSlots blocks) 0 = .ok () := by
  have hslots : Sorted (initialSlots blocks) := List.pairwise_map.mpr hsorted
  have hloop : ∀ fuel, turns (horizon (initialSlots blocks)) (initialSlots blocks) ≤ fuel →
      cliqueLoop (fun _ _ => true) fuel (initialSlots blocks) 0 = .ok () := by
    intro fuel hfuel
    rw [cliqueLoop_eq, List.drop_zero]
    exact restLoop_returns_all (fun _ _ => rfl) fuel _ hslots (endsBelow_horizon _) hfuel
  exact ⟨hloop _ (Nat.le_refl _), hloop⟩

/-- A size block merged into one that reaches into the chunk,
and blocks of negative and of no size. -/
theorem findCollisionCliques_terminates_sizes :
    findCollisionCliques (fun _ _ => true)
      [⟨-1, ⟨5, .writable, 0⟩⟩, ⟨-1, ⟨40, .writable, 1⟩⟩, ⟨0, ⟨-3, .writable, 2⟩⟩,
          ⟨0, ⟨8, .writable, 3⟩⟩, ⟨4, ⟨0, .read_only, 4⟩⟩, ⟨4, ⟨60, .writable, 5⟩⟩,
        ⟨20, ⟨4, .writable, 6⟩⟩] = .ok () :=
  (findCollisionCliques_terminates (by decide)).1

/-! ## Clusters of writable blocks stay sorted -/

/-- The clusters of writable blocks have their members in order. -/
def CliquesSorted (slots : List Slot) : Prop :=
  ∀ s ∈ slots, s.info.accessType = .writable → s.cluster.members.Pairwise (· ≤ ·)

/-- The states of the outer loop. -/
inductive CliqueReached (dag : Dag) (blocks : List PlacedBlock) : List Slot → Nat → Prop
  | start : CliqueReached dag blocks (initialSlots blocks) 0
  | turn {slots slots' : List Slot} {i i' : Nat}
      (h : CliqueReached dag blocks slots i) (hlt : i < slots.length)
      (hstep : cliqueStep dag slots i = .ok (slots', i')) : CliqueReached dag blocks slots' i'

variable {slots slots' : List Slot} {i i' j k : Nat} {s : Slot}

theorem CliquesSorted.set (h : CliquesSorted slots)
    (hs : s.info.accessType = .writable → s.cluster.members.Pairwise (· ≤ ·)) :
    CliquesSorted (slots.set i s) := by
  intro t ht hw
  obtain ht | rfl := List.mem_or_eq_of_mem_set ht
  · exact h t ht hw
  · exact hs hw

theorem vecSet_ok {α : Type} {v v' : List α} {k : Nat} {a : α} (h : vecSet v k a = .ok v') :
    v' = v.set k a := by
  unfold vecSet at h
  split at h
  · exact (Except.ok.inj h).symm
  · cases h

theorem CliquesSorted.vecGet (h : CliquesSorted slots) (hget : vecGet slots k = .ok s) :
    s.info.accessType = .writable → s.cluster.members.Pairwise (· ≤ ·) :=
  h s (List.mem_of_getElem? (vecGet_ok.mp hget))

/-- A shift moves slots as they are. -/
theorem CliquesSorted.shiftDown {stop : Int} :
    ∀ {fuel k : Nat} {slots : List Slot}, CliquesSorted slots →
    shiftDown stop fuel k slots = .ok (slots', j) → CliquesSorted slots'
  | 0, _, _, _, hshift => by cases hshift
  | fuel + 1, k, slots, h, hshift => by
    rw [RequestScheduler.shiftDown] at hshift
    obtain ⟨t, hget, hshift⟩ := bind_ok.mp hshift
    split at hshift
    · obtain ⟨moved, hset, hshift⟩ := bind_ok.mp hshift
      obtain rfl := vecSet_ok hset
      exact CliquesSorted.shiftDown (h.set (h.vecGet hget)) hshift
    · obtain ⟨rfl, -⟩ := Prod.mk.inj (Except.ok.inj hshift)
      exact h

/-- The second part of a split has an empty cluster, the first part keeps its own. -/
theorem CliquesSorted.split {stop : Int} (h : CliquesSorted slots)
    (hsplit : split slots i j stop = .ok slots') : CliquesSorted slots' := by
  unfold RequestScheduler.split at hsplit
  obtain ⟨⟨shifted, k⟩, hshift, hsplit⟩ := bind_ok.mp hsplit
  obtain ⟨left, hget, hsplit⟩ := bind_ok.mp hsplit
  obtain ⟨tailed, hset, hsplit⟩ := bind_ok.mp hsplit
  obtain rfl := vecSet_ok hset
  obtain rfl := vecSet_ok hsplit
  have hshifted := h.shiftDown hshift
  have hleft := hshifted.vecGet hget
  apply CliquesSorted.set
  · exact hshifted.set fun _ => List.Pairwise.nil
  · exact hleft

/-- The inner loop merges a cluster only into one of its type. -/
theorem CliquesSorted.scan {x : Slot} {stop : Int} {skipped again : Bool}
    (htype : x.cluster.type = x.info.accessType)
    (hx : x.info.accessType = .writable → x.cluster.members.Pairwise (· ≤ ·)) :
    ∀ {n j : Nat} {slots : List Slot}, CliquesSorted slots →
      scan dag i x stop n j slots = .ok (slots', skipped, again) → CliquesSorted slots'
  | 0, _, _, h, hscan => by
    obtain ⟨rfl, -⟩ := Prod.mk.inj (Except.ok.inj hscan)
    exact h
  | n + 1, j, slots, h, hscan => by
    rw [RequestScheduler.scan] at hscan
    obtain ⟨y, hget, hscan⟩ := bind_ok.mp hscan
    split at hscan
    · split at hscan
      · obtain ⟨-, -, hscan⟩ := bind_ok.mp hscan
        exact CliquesSorted.scan htype hx h hscan
      · rename_i hmerge
        obtain ⟨c, hc, hscan⟩ := bind_ok.mp hscan
        obtain ⟨merged, hset, hscan⟩ := bind_ok.mp hscan
        obtain rfl := vecSet_ok hset
        rw [VerifierCluster.merge_eq] at hc
        obtain rfl := Except.ok.inj hc
        -- only slots of one type are merged
        have hsame : x.info.accessType = y.info.accessType := by
          apply canMerge_type (x := x.toPlacedBlock) (y := y.toPlacedBlock)
          simp only [Bool.or_eq_true, Bool.not_eq_true', not_or, Bool.not_eq_false] at hmerge
          exact hmerge.1
        have hmerged : CliquesSorted (slots.set j { y with cluster := { y.cluster with
            members := VerifierCluster.mergedMembers y.cluster x.cluster } }) := by
          apply h.set
          intro hw
          have hxw : x.info.accessType = .writable := hsame.trans hw
          exact VerifierCluster.mergedMembers_sorted (htype.trans hxw) (h.vecGet hget hw) (hx hxw)
        split at hscan
        · dsimp only at hscan
          split at hscan
          · obtain ⟨halves, hsplit, hscan⟩ := bind_ok.mp hscan
            obtain ⟨rfl, -⟩ := Prod.mk.inj (Except.ok.inj hscan)
            exact hmerged.split hsplit
          · obtain ⟨rfl, -⟩ := Prod.mk.inj (Except.ok.inj hscan)
            exact hmerged
        · obtain ⟨rfl, -⟩ := Prod.mk.inj (Except.ok.inj hscan)
          exact hmerged
    · obtain ⟨rfl, -⟩ := Prod.mk.inj (Except.ok.inj hscan)
      exact h

theorem CliquesSorted.cliqueStep (h : CliquesSorted slots)
    (hstep : cliqueStep dag slots i = .ok (slots', i')) : CliquesSorted slots' := by
  unfold RequestScheduler.cliqueStep at hstep
  obtain ⟨x, hget, hstep⟩ := bind_ok.mp hstep
  split at hstep
  · obtain ⟨rfl, -⟩ := Prod.mk.inj (Except.ok.inj hstep)
    exact h
  · rw [VerifierCluster.insert_eq] at hstep
    obtain ⟨c, hc, hstep⟩ := bind_ok.mp hstep
    obtain rfl := Except.ok.inj hc
    obtain ⟨entered, hset, hstep⟩ := bind_ok.mp hstep
    obtain rfl := vecSet_ok hset
    obtain ⟨⟨scanned, skipped, again⟩, hscan, hstep⟩ := bind_ok.mp hstep
    have hslots : scanned = slots' := by
      dsimp only at hstep
      split at hstep
      · obtain ⟨-, -, hstep⟩ := bind_ok.mp hstep
        exact (Prod.mk.inj (Except.ok.inj hstep)).1
      · obtain ⟨-, -, hstep⟩ := bind_ok.mp hstep
        exact (Prod.mk.inj (Except.ok.inj hstep)).1
    subst hslots
    -- the request of the slot enters its cluster before the scan
    have hentered : x.info.accessType = .writable →
        (VerifierCluster.insertedMembers x.cluster x.info.requestID x.info.accessType).Pairwise
          (· ≤ ·) := by
      intro hw
      have hsorted := VerifierCluster.insertedMembers_sorted x.info.requestID (h.vecGet hget hw)
      rwa [hw]
    exact (h.set hentered).scan rfl hentered hscan

theorem CliqueReached.sorted {blocks : List PlacedBlock} (h : CliqueReached dag blocks slots i) :
    CliquesSorted slots := by
  induction h with
  | start =>
    intro s hs _
    obtain ⟨b, -, rfl⟩ := List.mem_map.mp hs
    exact List.Pairwise.nil
  | turn _ _ hstep ih => exact ih.cliqueStep hstep

/-- `insert` and `merge` of clusters of writable blocks. -/
theorem members_sorted (c d : VerifierCluster) (requestID : Nat) (hc : c.members.Pairwise (· ≤ ·)) :
    (∃ c', c.insert requestID .writable = .ok c' ∧ c'.members.Pairwise (· ≤ ·)) ∧
      (d.type = .writable → d.members.Pairwise (· ≤ ·) → ∃ c', c.merge d = .ok c' ∧
        c'.members.Pairwise (· ≤ ·)) := by
  constructor
  · exact ⟨_, VerifierCluster.insert_eq c requestID .writable,
      VerifierCluster.insertedMembers_sorted requestID hc⟩
  · intro hd hsorted
    exact ⟨_, VerifierCluster.merge_eq c d, VerifierCluster.mergedMembers_sorted hd hc hsorted⟩

/-- **Sorted merges.** `mergeInsert` of two sorted vectors leaves them sorted in one, with every
index in range. So the member list of a cluster stays sorted when writable blocks are inserted and
merged, and is sorted in every state of a run. -/
theorem mergeInsert_sorts :
    (∀ (α : Type) [LinearOrder α] [Inhabited α] (l r : List α), l.Pairwise (· ≤ ·) →
        r.Pairwise (· ≤ ·) →
      ∃ m, mergeInsert l r = .ok m ∧ m.Pairwise (· ≤ ·) ∧ m.Perm (l ++ r)) ∧
    (∀ (c d : VerifierCluster) (requestID : Nat), c.members.Pairwise (· ≤ ·) →
      (∃ c', c.insert requestID .writable = .ok c' ∧ c'.members.Pairwise (· ≤ ·)) ∧
        (d.type = .writable → d.members.Pairwise (· ≤ ·) → ∃ c', c.merge d = .ok c' ∧
          c'.members.Pairwise (· ≤ ·))) ∧
    ∀ (dag : Dag) (blocks : List PlacedBlock) (slots : List Slot) (i : Nat),
      CliqueReached dag blocks slots i → CliquesSorted slots := by
  refine ⟨?_, members_sorted, fun _ _ _ _ h => h.sorted⟩
  intro α _ _ l r hl hr
  exact mergeInsert_sorted_perm hl hr

/-- Two clusters with a common member, and two writers after the first turn of the loop. -/
theorem mergeInsert_sorts_writers :
    let c : VerifierCluster := ⟨.writable, [0, 3, 3]⟩
    let d : VerifierCluster := ⟨.writable, [1, 3]⟩
    let blocks : List PlacedBlock := [⟨0, ⟨4, .writable, 1⟩⟩, ⟨2, ⟨4, .writable, 0⟩⟩]
    (∃ m, mergeInsert c.members d.members = .ok m ∧ m.Pairwise (· ≤ ·) ∧
      m.Perm (c.members ++ d.members)) ∧
    (∃ c', c.insert 2 .writable = .ok c' ∧ c'.members.Pairwise (· ≤ ·)) ∧
    (∃ c', c.merge d = .ok c' ∧ c'.members.Pairwise (· ≤ ·)) ∧
    ∃ slots i, cliqueStep (fun _ _ => true) (initialSlots blocks) 0 = .ok (slots, i) ∧
      CliquesSorted slots := by
  intro c d blocks
  have hc : c.members.Pairwise (· ≤ ·) := by decide
  have hd : d.members.Pairwise (· ≤ ·) := by decide
  obtain ⟨hmerge, hcluster, hruns⟩ := mergeInsert_sorts
  have hreached : CliqueReached (fun _ _ => true) blocks _ _ := .turn .start (by decide) rfl
  exact ⟨hmerge Nat _ _ hc hd, (hcluster c d 2 hc).1, (hcluster c d 2 hc).2 rfl hd, _, _, rfl,
    hruns _ _ _ _ hreached⟩

end RequestScheduler
end Argennon
