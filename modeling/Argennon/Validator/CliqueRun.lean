import Argennon.Validator.FindCollisions
import Argennon.Validator.VerifierClusterSpec

/- `findCollisionCliques` without indices. The loop never goes back before its
   index, so its state is the list of slots from there on: a turn takes the first
   slot and returns what remains (`restStep`). `cliqueLoop_eq` is the refinement:
   the indexed loop does the same and no access is out of range. -/
namespace Argennon

theorem vecGet_append {α : Type} (l r : List α) (a : α) :
    vecGet (l ++ a :: r) l.length = .ok a := by
  simp [vecGet]

theorem vecSet_append {α : Type} (l r : List α) (a b : α) :
    vecSet (l ++ a :: r) l.length b = .ok (l ++ b :: r) := by
  simp [vecSet]

namespace RequestScheduler

/-- The first part of a block split at `stop`. -/
def Slot.front (y : Slot) (stop : Int) : Slot :=
  { y with info := { y.info with size := stop - y.offset } }

/-- The second part, which starts with an empty cluster. -/
def Slot.tail (y : Slot) (stop : Int) : Slot :=
  { offset := stop, info := { y.info with size := y.info.size - (stop - y.offset) } }

/-- Whether the first slot starting at `stop` or later starts below `bound`. -/
def startsBelow (stop bound : Int) (rest : List Slot) : Bool :=
  ((rest.dropWhile fun s => s.offset < stop).head?).any fun s => s.offset < bound

/-- `tail` put before the first slot that starts at `stop` or later. -/
def insertTail (stop : Int) (tail : Slot) (rest : List Slot) : List Slot :=
  rest.takeWhile (fun s => s.offset < stop) ++ tail :: rest.dropWhile fun s => s.offset < stop

/-- What a merge leaves of the slot merged into and those after it. -/
def mergeInto (stop : Int) (y : Slot) (rest : List Slot) : List Slot :=
  if stop < y.collidingEnd ∧ startsBelow stop y.collidingEnd rest then
    Slot.front y stop :: insertTail stop (Slot.tail y stop) rest
  else y :: rest

/-- The inner loop over the slots after `x`; `none` when `x` was not merged. -/
def restScan (dag : Dag) (x : Slot) (stop : Int) : List Slot → Except Exn (Option (List Slot))
  | [] => .ok none
  | y :: rest =>
    if y.offset < stop then
      if !canMerge x.toPlacedBlock y.toPlacedBlock || y.collidingEnd < stop then do
        checkDependency dag x y
        .ok ((← restScan dag x stop rest).map (y :: ·))
      else do
        .ok (some (mergeInto stop { y with cluster := ← y.cluster.merge x.cluster } rest))
    else .ok none

/-- One turn: what remains after the first slot `x`. -/
def restStep (dag : Dag) (x : Slot) (rest : List Slot) : Except Exn (List Slot) :=
  if x.offset = -3 ∨ x.info.accessType = .check_only then .ok rest
  else do
    let x := { x with cluster := ← x.cluster.insert x.info.requestID x.info.accessType }
    match ← restScan dag x x.stop rest with
    | none => do
      x.cluster.finalize dag
      .ok rest
    | some rest => .ok rest

/-- The whole run. -/
def restLoop (dag : Dag) : Nat → List Slot → Except Exn Unit
  | _, [] => .ok ()
  | 0, _ :: _ => .error .outOfFuel
  | fuel + 1, x :: rest => do restLoop dag fuel (← restStep dag x rest)

/-! ## The indexed loop does the same -/

theorem shiftDown_eq (stop : Int) (z : Slot) (post : List Slot) (hz : ¬ z.offset < stop) :
    ∀ (mid : List Slot) (fuel : Nat) (pre : List Slot) (g : Slot),
      (∀ s ∈ mid, s.offset < stop) → mid.length < fuel →
      ∃ g', shiftDown stop fuel (pre.length + 1) (pre ++ g :: (mid ++ z :: post)) =
        .ok (pre ++ mid ++ g' :: z :: post, pre.length + mid.length + 1)
  | [], fuel + 1, pre, g, _, _ => by
    refine ⟨g, ?_⟩
    have h := vecGet_append (pre ++ [g]) post z
    simp only [List.length_append, List.length_singleton, List.append_assoc,
      List.singleton_append] at h
    simp [shiftDown, h, bind, Except.bind, hz]
  | m :: mid, fuel + 1, pre, g, hm, hf => by
    have h := vecGet_append (pre ++ [g]) (mid ++ z :: post) m
    simp only [List.length_append, List.length_singleton, List.append_assoc,
      List.singleton_append] at h
    have hset := vecSet_append pre (m :: (mid ++ z :: post)) g m
    have hlt : pre.length + 1 < (pre ++ g :: m :: (mid ++ z :: post)).length := by
      simp
    obtain ⟨g', ih⟩ := shiftDown_eq stop z post hz mid fuel (pre ++ [m]) m
      (fun s hs => hm s (List.mem_cons_of_mem _ hs)) (by simpa using hf)
    refine ⟨g', ?_⟩
    simp only [List.length_append, List.length_singleton, List.append_assoc,
      List.singleton_append] at ih
    rw [List.cons_append, shiftDown, h]
    simp only [bind, Except.bind, hm m List.mem_cons_self, hlt, and_self, if_true,
      Nat.add_sub_cancel, hset, ih, List.length_cons, List.append_assoc, List.cons_append]
    rw [show pre.length + 1 + mid.length + 1 = pre.length + (mid.length + 1) + 1 by omega]

/-- The split leaves the slots before `i`, drops the one at `i`,
and cuts the block at `j`. -/
theorem split_eq {stop : Int} {pre bef mid post : List Slot} {x y z : Slot}
    (hbef : ∀ s ∈ bef, s.offset < stop) (hy : y.offset < stop)
    (hmid : ∀ s ∈ mid, s.offset < stop) (hz : ¬ z.offset < stop) :
    split (pre ++ x :: (bef ++ y :: (mid ++ z :: post))) pre.length
      (pre.length + 1 + bef.length) stop =
      .ok (pre ++ (bef ++ Slot.front y stop :: (mid ++ Slot.tail y stop :: z :: post))) := by
  obtain ⟨g, hshift⟩ := shiftDown_eq stop z post hz (bef ++ y :: mid)
    (pre ++ x :: (bef ++ y :: (mid ++ z :: post))).length pre x
    (by
      intro s hs
      rcases List.mem_append.mp hs with h | h
      · exact hbef s h
      · rcases List.mem_cons.mp h with rfl | h
        · exact hy
        · exact hmid s h)
    (by simp; omega)
  simp only [List.append_assoc, List.cons_append] at hshift
  have hget := vecGet_append (pre ++ bef) (mid ++ g :: z :: post) y
  have hset := vecSet_append (pre ++ (bef ++ y :: mid)) (z :: post) g (Slot.tail y stop)
  have hset' := vecSet_append (pre ++ bef) (mid ++ Slot.tail y stop :: z ::
    post) y (Slot.front y stop)
  simp only [List.append_assoc, List.cons_append, List.length_append,
    List.length_cons] at hget hset hset'
  rw [split, hshift]
  simp only [bind, Except.bind]
  rw [show pre.length + 1 + bef.length - 1 = pre.length + bef.length by omega, hget]
  simp only [List.length_append, List.length_cons, Nat.add_sub_cancel]
  rw [show ({ offset := stop
              info := { y.info with size := y.info.size - (stop - y.offset) } } : Slot) =
    Slot.tail y stop from rfl, hset]
  simp only
  rw [show ({ y with info := { y.info with size := stop - y.offset } } : Slot) =
    Slot.front y stop from rfl,
    hset']

/-- The slot `std::lower_bound` finds, looked up in the whole vector. -/
theorem lowerBound_get {stop : Int} {pre bef rest : List Slot} {x : Slot}
    (hbef : ∀ s ∈ bef, s.offset < stop) :
    (pre ++ x :: (bef ++ rest))[lowerBound (pre ++ x :: (bef ++ rest)) (pre.length + 1) stop]? =
      (rest.dropWhile fun s => s.offset < stop).head? := by
  have hdrop : (pre ++ x :: (bef ++ rest)).drop (pre.length + 1) = bef ++ rest := by
    rw [List.drop_append]
    simp
  have htake : (bef ++ rest).takeWhile (fun s => s.offset < stop) =
      bef ++ rest.takeWhile fun s => s.offset < stop := by
    rw [List.takeWhile_append_of_pos]
    simpa using hbef
  rw [lowerBound, hdrop, htake, List.length_append, ← List.getElem?_drop, hdrop,
    List.getElem?_append_right (Nat.le_add_right _ _), Nat.add_sub_cancel_left,
      List.head?_eq_getElem?]
  conv_lhs => rw [← List.takeWhile_append_dropWhile
    (p := fun s : Slot => decide (s.offset < stop)) (l := rest)]
  rw [List.getElem?_append_right (by simp)]
  simp

/-- What the inner loop at index `i` returns, given what the list loop returns:
the slots from the next index on are those already scanned and the list's result. -/
def ScanAgrees (i : Nat) (bef : List Slot) (slots : List Slot) :
    Except Exn (Option (List Slot)) → Except Exn (List Slot × Bool × Bool) → Prop
  | .error e, r => r = .error e
  | .ok none, r => r = .ok (slots, false, false)
  | .ok (some rest), r => ∃ slots' again, r = .ok (slots', true, again) ∧
      slots'.drop (if again then i else i + 1) = bef ++ rest

theorem scan_agrees (dag : Dag) (x x₀ : Slot) (stop : Int) (pre : List Slot) :
    ∀ (rest bef : List Slot), (∀ s ∈ bef, s.offset < stop) →
      ScanAgrees pre.length bef (pre ++ x₀ :: (bef ++ rest)) (restScan dag x stop rest)
        (scan dag pre.length x stop rest.length (pre.length + 1 + bef.length)
          (pre ++ x₀ :: (bef ++ rest)))
  | [], bef, _ => by simp [restScan, scan, ScanAgrees]
  | y :: rest, bef, hbef => by
    have hget := vecGet_append (pre ++ x₀ :: bef) rest y
    have hset := vecSet_append (pre ++ x₀ :: bef) rest y
    simp only [List.append_assoc, List.cons_append, List.length_append,
      List.length_cons] at hget hset
    rw [show pre.length + (bef.length + 1) = pre.length + 1 + bef.length by omega] at hget hset
    simp only [List.length_cons, scan, restScan, hget, bind, Except.bind]
    by_cases hy : y.offset < stop
    swap
    · simp [hy, ScanAgrees]
    simp only [hy, if_true]
    by_cases hm : (!canMerge x.toPlacedBlock y.toPlacedBlock || decide (y.collidingEnd < stop)) =
      true
    · -- not merged: the edge is checked and the loop goes on
      simp only [hm, if_true]
      have hbef' : ∀ s ∈ bef ++ [y], s.offset < stop := by
        intro s hs
        rcases List.mem_append.mp hs with h | h
        · exact hbef s h
        · rw [List.mem_singleton.mp h]
          exact hy
      have ih := scan_agrees dag x x₀ stop pre rest (bef ++ [y]) hbef'
      simp only [List.append_assoc, List.singleton_append, List.length_append,
        List.length_singleton] at ih
      rw [show pre.length + 1 + (bef.length + 1) = pre.length + 1 + bef.length + 1 by omega] at ih
      cases checkDependency dag x y with
      | error e => simp [ScanAgrees]
      | ok _ =>
        simp only
        generalize restScan dag x stop rest = r at ih
        match r, ih with
        | .error e, ih => exact ih
        | .ok none, ih => exact ih
        | .ok (some rest'), ⟨slots', again, h1, h2⟩ => exact ⟨slots', again, h1, by simpa using h2⟩
    · -- merged
      simp only [hm]
      cases hmerge : y.cluster.merge x.cluster with
      | error e => simp [ScanAgrees]
      | ok c =>
        simp only [hset, Bool.false_eq_true, if_false]
        have hlow := @lowerBound_get stop pre bef ({ y with cluster := c } :: rest) x₀ hbef
        have hy' : ({ y with cluster := c } : Slot).offset < stop := hy
        simp only [List.dropWhile_cons, hy', decide_true, if_true] at hlow
        rw [hlow, mergeInto]
        have hce : ({ y with cluster := c } : Slot).collidingEnd = y.collidingEnd := rfl
        rw [hce]
        by_cases hlt : stop < y.collidingEnd
        swap
        · simp only [hlt, if_false, false_and, ScanAgrees]
          exact ⟨_, false, rfl, by simp⟩
        by_cases hs : startsBelow stop y.collidingEnd rest = true
        swap
        · simp only [hlt, hs, if_true, ScanAgrees]
          rw [startsBelow] at hs
          rw [if_neg hs]
          exact ⟨_, false, rfl, by simp⟩
        -- split: the first slot that starts at `stop` or later exists
        simp only [hlt, hs, and_self, if_true, ScanAgrees]
        rw [startsBelow] at hs
        rw [if_pos hs]
        obtain ⟨z, post, hdw⟩ : ∃ z post, rest.dropWhile (fun s => s.offset < stop) =
          z :: post := by
          cases h : rest.dropWhile fun s => s.offset < stop with
          | nil => simp [h] at hs
          | cons z post => exact ⟨z, post, rfl⟩
        have hz : ¬ z.offset < stop := by
          have := List.head?_dropWhile_not (fun s : Slot => decide (s.offset < stop)) rest
          simpa [hdw] using this
        have hrest : rest = rest.takeWhile (fun s => s.offset < stop) ++ z :: post := by
          conv_lhs => rw [← List.takeWhile_append_dropWhile
            (p := fun s : Slot => decide (s.offset < stop)) (l := rest), hdw]
        have hmid : ∀ s ∈ rest.takeWhile fun s => s.offset < stop, s.offset < stop := by
          intro s hs
          simpa using List.mem_takeWhile_imp hs
        have hsplit := @split_eq stop pre bef _ post x₀ { y with cluster := c } z hbef hy' hmid hz
        rw [← hrest] at hsplit
        rw [hsplit]
        refine ⟨_, true, rfl, ?_⟩
        rw [insertTail, hdw]
        simp

/-- A turn of the indexed loop leaves, from the next index on,
what the list turn leaves. -/
theorem cliqueStep_drop (dag : Dag) {slots rest : List Slot} {i : Nat} {x : Slot}
    (h : slots.drop i = x :: rest) :
    (cliqueStep dag slots i).map (fun p => p.1.drop p.2) = restStep dag x rest := by
  have hi : i < slots.length := by
    by_contra hc
    rw [List.drop_eq_nil_of_le (by omega)] at h
    cases h
  obtain ⟨pre, rfl, hlen⟩ : ∃ pre, slots = pre ++ x :: rest ∧ pre.length = i :=
    ⟨slots.take i, by rw [← h, List.take_append_drop], by simp; omega⟩
  subst hlen
  simp only [cliqueStep, vecGet_append, restStep, bind, Except.bind]
  by_cases hskip : x.offset = -3 ∨ x.info.accessType = .check_only
  · simp [hskip, Except.map]
  simp only [hskip, if_false]
  cases x.cluster.insert x.info.requestID x.info.accessType with
  | error e => rfl
  | ok c =>
    simp only [vecSet_append]
    have hn : (pre ++ { x with cluster := c } :: rest).length - (pre.length + 1) = rest.length := by
      simp only [List.length_append, List.length_cons]
      omega
    -- the inner loop, from the state it starts in
    have hs := scan_agrees dag { x with cluster := c } { x with cluster := c } x.stop pre rest []
      (by simp)
    simp only [List.nil_append, List.length_nil, Nat.add_zero] at hs
    rw [hn]
    rw [show ({ x with cluster := c } : Slot).stop = x.stop from rfl]
    generalize restScan dag { x with cluster := c } x.stop rest = r at hs
    match r, hs with
    | .error e, hs => simp only [ScanAgrees] at hs; rw [hs]; rfl
    | .ok none, hs =>
      simp only [ScanAgrees] at hs
      rw [hs]
      simp only [Bool.false_eq_true, if_false]
      cases VerifierCluster.finalize c dag with
      | error e => rfl
      | ok _ => simp [Except.map]
    | .ok (some rest'), ⟨slots', again, hs, hd⟩ =>
      rw [hs]
      simp only [if_true, Except.map, hd, List.nil_append]

/-- **Refinement.** The indexed loop returns or throws as the list loop does. -/
theorem cliqueLoop_eq (dag : Dag) : ∀ (fuel : Nat) (slots : List Slot) (i : Nat),
    cliqueLoop dag fuel slots i = restLoop dag fuel (slots.drop i)
  | 0, slots, i => by
    cases h : slots.drop i with
    | nil => simp [cliqueLoop, restLoop, List.drop_eq_nil_iff.mp h]
    | cons x rest =>
      have : i < slots.length := by
        by_contra hc
        rw [List.drop_eq_nil_of_le (by omega)] at h
        cases h
      simp [cliqueLoop, restLoop, this]
  | fuel + 1, slots, i => by
    cases h : slots.drop i with
    | nil => simp [cliqueLoop, restLoop, List.drop_eq_nil_iff.mp h]
    | cons x rest =>
      have hlt : i < slots.length := by
        by_contra hc
        rw [List.drop_eq_nil_of_le (by omega)] at h
        cases h
      have hstep := cliqueStep_drop dag h
      simp only [cliqueLoop, hlt, if_true, restLoop, ← hstep, bind, Except.bind]
      cases cliqueStep dag slots i with
      | error e => rfl
      | ok p => exact cliqueLoop_eq dag fuel p.1 p.2

/-! ## What one turn does -/

/-- A scanned slot that `x` was not merged into: its edge was checked. -/
def Passed (dag : Dag) (x : Slot) (stop : Int) (b : Slot) : Prop :=
  b.offset < stop ∧ (canMerge x.toPlacedBlock b.toPlacedBlock = false ∨ b.collidingEnd < stop) ∧
    checkDependency dag x b = .ok ()

/-- The two ways the inner loop returns. -/
theorem restScan_cases {dag : Dag} {x : Slot} {stop : Int} :
    ∀ {rest : List Slot} {r : Option (List Slot)},
    restScan dag x stop rest = .ok r →
    (r = none ∧ ∃ bef aft, rest = bef ++ aft ∧ (∀ b ∈ bef, Passed dag x stop b) ∧
        (∀ z ∈ aft.head?, ¬ z.offset < stop)) ∨
    (∃ bef y aft c, rest = bef ++ y :: aft ∧ (∀ b ∈ bef, Passed dag x stop b) ∧ y.offset < stop ∧
        canMerge x.toPlacedBlock y.toPlacedBlock = true ∧ stop ≤ y.collidingEnd ∧
        y.cluster.merge x.cluster = .ok c ∧
        r = some (bef ++ mergeInto stop { y with cluster := c } aft))
  | [], r, h => by
    simp only [restScan, Except.ok.injEq] at h
    exact .inl ⟨h.symm, [], [], rfl, by simp, by simp⟩
  | y :: rest, r, h => by
    simp only [restScan] at h
    split at h
    swap
    · rename_i hy
      simp only [Except.ok.injEq] at h
      exact .inl ⟨h.symm, [], y :: rest, rfl, by simp, by simpa using hy⟩
    rename_i hy
    split at h
    · rename_i hm
      obtain ⟨_, hdep, h1⟩ := bind_ok.mp h
      obtain ⟨r', hr, h2⟩ := bind_ok.mp h1
      simp only [Except.ok.injEq] at h2
      have hpass : Passed dag x stop y := ⟨hy, by simpa using hm, hdep⟩
      -- `y` is passed over, and the scan goes on behind it
      have hcons : ∀ {bef : List Slot}, (∀ b ∈ bef, Passed dag x stop b) →
          ∀ b ∈ y :: bef, Passed dag x stop b := by
        intro bef hb b hmem
        rcases List.mem_cons.mp hmem with rfl | hmem
        · exact hpass
        · exact hb b hmem
      rcases restScan_cases hr with ⟨rfl, bef, aft, rfl, hb, ha⟩ | ⟨bef, z, aft, c, rfl, hb, hz, hc,
        hs, hmg, rfl⟩
      · exact .inl ⟨by simpa using h2.symm, y :: bef, aft, rfl, hcons hb, ha⟩
      · exact .inr ⟨y :: bef, z, aft, c, rfl, hcons hb, hz, hc, hs, hmg, by simpa using h2.symm⟩
    · rename_i hm
      obtain ⟨c, hc, h1⟩ := bind_ok.mp h
      simp only [Except.ok.injEq] at h1
      simp only [Bool.or_eq_true, Bool.not_eq_true', decide_eq_true_eq, not_or, Bool.not_eq_false,
        Int.not_lt] at hm
      exact .inr ⟨[], y, rest, c, rfl, by simp, hy, hm.1, hm.2, hc, by simpa using h1.symm⟩

/-- The slot with its own request inserted into its cluster. -/
def Slot.entered (x : Slot) : Slot :=
  { x with cluster := {
      type := x.info.accessType
      members := VerifierCluster.insertedMembers x.cluster x.info.requestID x.info.accessType } }

/-- The slot with the cluster of `x` merged into its own. -/
def Slot.absorb (y x : Slot) : Slot :=
  { y with
    cluster := { y.cluster with members := VerifierCluster.mergedMembers y.cluster x.cluster } }

/-- Blocks the outer loop passes over. -/
def Slot.passive (x : Slot) : Prop := x.offset = -3 ∨ x.info.accessType = .check_only

/-- The three ways a turn returns: the slot is passed over; its cluster is complete;
its cluster is merged into the next slot that reaches as far. -/
theorem restStep_cases {dag : Dag} {x : Slot} {rest rest' : List Slot}
    (h : restStep dag x rest = .ok rest') :
    (Slot.passive x ∧ rest' = rest) ∨
    (¬ Slot.passive x ∧ rest' = rest ∧ (Slot.entered x).cluster.finalize dag = .ok () ∧
      ∃ bef aft, rest = bef ++ aft ∧ (∀ b ∈ bef, Passed dag (Slot.entered x) x.stop b) ∧
        (∀ z ∈ aft.head?, ¬ z.offset < x.stop)) ∨
    (¬ Slot.passive x ∧ ∃ bef y aft, rest = bef ++ y :: aft ∧
      (∀ b ∈ bef, Passed dag (Slot.entered x) x.stop b) ∧ y.offset < x.stop ∧
      canMerge x.toPlacedBlock y.toPlacedBlock = true ∧ x.stop ≤ y.collidingEnd ∧
      rest' = bef ++ mergeInto x.stop (Slot.absorb y (Slot.entered x)) aft) := by
  unfold restStep at h
  split at h
  · rename_i hp
    exact .inl ⟨hp, by simpa using h.symm⟩
  rename_i hp
  rw [VerifierCluster.insert_eq] at h
  obtain ⟨c, hc, h1⟩ := bind_ok.mp h
  simp only [Except.ok.injEq] at hc
  subst hc
  obtain ⟨r, hr, h2⟩ := bind_ok.mp h1
  rcases restScan_cases hr with ⟨rfl, bef, aft, hrest, hb, ha⟩ | ⟨bef, y, aft, c, hrest, hb, hy, hm,
    hs, hmg, rfl⟩
  · obtain ⟨_, hfin, h3⟩ := bind_ok.mp h2
    exact .inr (.inl ⟨hp, by simpa using h3.symm, hfin, bef, aft, hrest, hb, ha⟩)
  · rw [VerifierCluster.merge_eq, Except.ok.injEq] at hmg
    subst hmg
    simp only [Except.ok.injEq] at h2
    exact .inr (.inr ⟨hp, bef, y, aft, hrest, hb, hy, hm, hs, h2.symm⟩)

/-- A merge with or without a split. -/
theorem mergeInto_cases (stop : Int) (y : Slot) (rest : List Slot) :
    mergeInto stop y rest = y :: rest ∨
    (stop < y.collidingEnd ∧ mergeInto stop y rest = Slot.front y stop ::
      insertTail stop (Slot.tail y stop) rest) := by
  unfold mergeInto
  split
  · rename_i h
    exact .inr ⟨h.1, rfl⟩
  · exact .inl rfl

/-! ## Order and termination -/

/-- The slots are in the order of their offsets. -/
abbrev Sorted (slots : List Slot) : Prop := slots.Pairwise fun a b => a.offset ≤ b.offset

theorem mem_dropWhile_of_stop_le {stop : Int} {rest : List Slot} {w : Slot} (hw : w ∈ rest)
    (hge : stop ≤ w.offset) :
    w ∈ rest.dropWhile fun s => s.offset < stop := by
  rw [← List.takeWhile_append_dropWhile (p := fun s : Slot => decide (s.offset < stop))
    (l := rest)] at hw
  rcases List.mem_append.mp hw with hw | hw
  · have hlt : w.offset < stop := by simpa using List.mem_takeWhile_imp hw
    omega
  · exact hw

theorem stop_le_dropWhile {stop : Int} {rest : List Slot} (h : Sorted rest) :
    ∀ s ∈ rest.dropWhile (fun s => s.offset < stop), stop ≤ s.offset := by
  have hs : Sorted (rest.dropWhile fun s => s.offset < stop) := h.sublist (List.dropWhile_sublist _)
  have hh := List.head?_dropWhile_not (fun s : Slot => decide (s.offset < stop)) rest
  intro s hmem
  cases hd : rest.dropWhile fun s => s.offset < stop with
  | nil => simp [hd] at hmem
  | cons z post =>
    rw [hd] at hh hs hmem
    have hz : stop ≤ z.offset := by simpa using hh
    rcases List.mem_cons.mp hmem with rfl | hmem
    · exact hz
    · exact hz.trans (List.rel_of_pairwise_cons hs hmem)

theorem insertTail_sorted {stop : Int} {tail : Slot} {rest : List Slot} (h : Sorted rest)
    (ht : tail.offset = stop) : Sorted (insertTail stop tail rest) := by
  unfold insertTail
  refine List.pairwise_append.mpr ⟨h.sublist (List.takeWhile_sublist _), ?_, ?_⟩
  · refine List.pairwise_cons.mpr ⟨fun s hs => ht ▸ stop_le_dropWhile h s hs,
      h.sublist (List.dropWhile_sublist _)⟩
  · intro a ha b hb
    have halt : a.offset < stop := by simpa using List.mem_takeWhile_imp ha
    rcases List.mem_cons.mp hb with rfl | hb
    · omega
    · have := stop_le_dropWhile h b hb
      omega

theorem mem_insertTail {stop : Int} {tail s : Slot} {rest : List Slot} :
    s ∈ insertTail stop tail rest ↔ s = tail ∨ s ∈ rest := by
  conv_rhs => rw [← List.takeWhile_append_dropWhile
    (p := fun s : Slot => decide (s.offset < stop)) (l := rest)]
  simp only [insertTail, List.mem_append, List.mem_cons]
  tauto

/-- The slots after a merge: those of the scan, the slot merged into at its place,
and its second part when it is split. -/
theorem restStep_sorted {dag : Dag} {x : Slot} {rest rest' : List Slot} (hs : Sorted (x :: rest))
    (h : restStep dag x rest = .ok rest') : Sorted rest' := by
  have hrest : Sorted rest := hs.of_cons
  rcases restStep_cases h with ⟨-, rfl⟩ | ⟨-, rfl, -⟩ | ⟨-, bef, y, aft, rfl, hb, hy, -, -, rfl⟩
  · exact hrest
  · exact hrest
  obtain ⟨hbef, hya, hcross⟩ := List.pairwise_append.mp hrest
  have hoff : (Slot.absorb y (Slot.entered x)).offset = y.offset := rfl
  rcases mergeInto_cases x.stop (Slot.absorb y (Slot.entered x)) aft with he | ⟨-, he⟩ <;> rw [he]
  · refine List.pairwise_append.mpr ⟨hbef, List.pairwise_cons.mpr ?_, ?_⟩
    · exact ⟨fun s hs => List.rel_of_pairwise_cons hya hs, hya.of_cons⟩
    · intro a ha b hb
      rcases List.mem_cons.mp hb with rfl | hb
      · exact hcross a ha y List.mem_cons_self
      · exact hcross a ha b (List.mem_cons_of_mem _ hb)
  · refine List.pairwise_append.mpr ⟨hbef,
      List.pairwise_cons.mpr ⟨?_, insertTail_sorted hya.of_cons rfl⟩, ?_⟩
    · intro s hs
      rcases mem_insertTail.mp hs with rfl | hs
      · exact hy.le
      · exact List.rel_of_pairwise_cons hya hs
    · intro a ha b hb'
      rcases List.mem_cons.mp hb' with rfl | hb'
      · exact hcross a ha y List.mem_cons_self
      rcases mem_insertTail.mp hb' with rfl | hb'
      · exact (hb a ha).1.le
      · exact hcross a ha b (List.mem_cons_of_mem _ hb')

/-- No slot ends after `top`. -/
def EndsBelow (top : Int) (slots : List Slot) : Prop := ∀ s ∈ slots, s.collidingEnd ≤ top

theorem turns_insertTail (top stop : Int) (tail : Slot) (rest : List Slot) :
    turns top (insertTail stop tail rest) = (top - tail.offset).toNat + 1 + turns top rest := by
  conv_rhs => rw [← List.takeWhile_append_dropWhile
    (p := fun s : Slot => decide (s.offset < stop)) (l := rest)]
  simp only [turns, insertTail, List.map_append, List.map_cons, List.sum_append, List.sum_cons]
  omega

/-- A turn takes a slot away, or replaces it by one that starts later and before
the last end. -/
theorem turns_restStep {dag : Dag} {x : Slot} {rest rest' : List Slot} {top : Int}
    (hs : Sorted (x :: rest)) (ht : EndsBelow top (x :: rest))
    (h : restStep dag x rest = .ok rest') :
    turns top rest' < turns top (x :: rest) ∧ EndsBelow top rest' := by
  have hrest : EndsBelow top rest := fun s hs => ht s (List.mem_cons_of_mem _ hs)
  have hlt : turns top rest < turns top (x :: rest) := by
    simp only [turns, List.map_cons, List.sum_cons]
    omega
  rcases restStep_cases h with ⟨-, rfl⟩ | ⟨-, rfl, -⟩ | ⟨-, bef, y, aft, rfl, -, hy, -, -, rfl⟩
  · exact ⟨hlt, hrest⟩
  · exact ⟨hlt, hrest⟩
  have hxy : x.offset ≤ y.offset := List.rel_of_pairwise_cons hs (by simp)
  have hend : y.collidingEnd ≤ top := hrest y (by simp)
  have hce : (Slot.absorb y (Slot.entered x)).collidingEnd = y.collidingEnd := rfl
  have hmem : ∀ s ∈ bef, s.collidingEnd ≤ top := fun s hs => hrest s (by simp [hs])
  have hmem' : ∀ s ∈ aft, s.collidingEnd ≤ top := fun s hs => hrest s (by simp [hs])
  rcases mergeInto_cases x.stop (Slot.absorb y (Slot.entered x)) aft with he | ⟨hsp, he⟩ <;> rw [he]
  · have hoff : (Slot.absorb y (Slot.entered x)).offset = y.offset := rfl
    refine ⟨?_, ?_⟩
    · simp only [turns, List.map_append, List.map_cons, List.sum_append, List.sum_cons,
        hoff] at hlt ⊢
      exact hlt
    intro s hs
    rcases List.mem_append.mp hs with hs | hs
    · exact hmem s hs
    rcases List.mem_cons.mp hs with rfl | hs
    · exact hend
    · exact hmem' s hs
  · rw [hce] at hsp
    constructor
    · have htail :=
        turns_insertTail top x.stop (Slot.tail (Slot.absorb y (Slot.entered x)) x.stop) aft
      have hfront : (Slot.front (Slot.absorb y (Slot.entered x)) x.stop).offset = y.offset := rfl
      have hoff : (Slot.tail (Slot.absorb y (Slot.entered x)) x.stop).offset = x.stop := rfl
      rw [hoff] at htail
      simp only [turns, List.map_append, List.map_cons, List.sum_append, List.sum_cons,
        hfront] at htail ⊢
      omega
    · intro s hs
      rcases List.mem_append.mp hs with hs | hs
      · exact hmem s hs
      rcases List.mem_cons.mp hs with rfl | hs
      · have : (Slot.front (Slot.absorb y (Slot.entered x)) x.stop).collidingEnd = x.stop := by
          simp only [Slot.front, PlacedBlock.collidingEnd]
          omega
        omega
      rcases mem_insertTail.mp hs with rfl | hs
      · have : (Slot.tail (Slot.absorb y (Slot.entered x)) x.stop).collidingEnd =
            y.collidingEnd := by
          simp only [Slot.tail, Slot.absorb, PlacedBlock.collidingEnd]
          omega
        omega
      · exact hmem' s hs

end RequestScheduler
end Argennon
