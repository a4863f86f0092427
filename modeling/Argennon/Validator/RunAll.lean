import Argennon.Core.Info
import Mathlib.Algebra.BigOperators.Group.List.Basic
import Mathlib.Data.List.Count
import Mathlib.Tactic.Ring

/- `RequestProcessor::runAll` and the two stages built on it
   (`validator/RequestProcessor.hpp`): `loadRequests` and `checkDependencyGraph`.

   `runAll` starts `workersCount + 1` workers, worker `i` running the ids of
   `[i * step, (i + 1) * step)` below `tasksCount`, where `step` is the integer
   quotient `tasksCount / workersCount`, at least one. A run without exceptions
   makes exactly the calls listed here; their order across workers is open, so the
   statements count calls. -/
namespace Argennon.RequestProcessor

/-- The length of a worker's interval. -/
def step (tasksCount workersCount : Nat) : Nat := max (tasksCount / workersCount) 1

/-- One worker's loop: the ids passed to `task`, from `taskID` on. -/
def workerLoop (bound tasksCount taskID : Nat) : List Nat :=
  if taskID < bound ∧ taskID < tasksCount then
    taskID :: workerLoop bound tasksCount (taskID + 1)
  else []
termination_by bound - taskID
decreasing_by omega

/-- The calls of each worker of `runAll`, worker by worker. -/
def runAll (tasksCount workersCount : Nat) : List (List Nat) :=
  (List.range (workersCount + 1)).map fun i =>
    workerLoop ((i + 1) * step tasksCount workersCount) tasksCount
      (i * step tasksCount workersCount)

/-- All ids `runAll` passes to `task`. -/
def taskCalls (tasksCount workersCount : Nat) : List Nat := (runAll tasksCount workersCount).flatten

/-- The requests `loadRequests` adds: stream `i` is read to its end by the call for `i`. -/
def addedRequests {α : Type} (streams : List (List α)) (workersCount : Nat) : List α :=
  (taskCalls streams.length workersCount).flatMap fun i => streams.getD i []

/-- The request ids `loadRequests` finalizes after all streams were read. -/
def finalizedRequests (numOfRequests workersCount : Nat) : List Nat :=
  taskCalls numOfRequests workersCount

/-- The chunks of the merged access map, as (application index, chunk index), on
which `checkDependencyGraph` calls `checkCollisions`. -/
def checkDependencyGraph (sortedMap : AccessMapType) (workersCount : Nat) : List (Nat × Nat) :=
  (List.range sortedMap.size).flatMap fun i =>
    (taskCalls ((sortedMap.values[i]?).elim 0 (·.size)) workersCount).map fun j => (i, j)

/-- The intervals of the `workersCount + 1` workers reach up to `tasksCount`. -/
def Covers (tasksCount workersCount : Nat) : Prop :=
  tasksCount < workersCount ∨ tasksCount % workersCount ≤ tasksCount / workersCount

instance (t w : Nat) : Decidable (Covers t w) := inferInstanceAs (Decidable (_ ∨ _))

/-! ## Counting calls -/

theorem step_pos (t w : Nat) : 0 < step t w := by simp [step]

theorem count_workerLoop (bound t : Nat) : ∀ s id : Nat,
    (workerLoop bound t s).count id = if s ≤ id ∧ id < bound ∧ id < t then 1 else 0 := by
  intro s id
  fun_induction workerLoop bound t s with
  | case1 s hs ih =>
    rw [List.count_cons, ih]
    by_cases h : s = id
    · subst h
      simp [hs.1, hs.2]
    · have hne : ¬(s == id) = true := by simpa using h
      have hiff : (s + 1 ≤ id ∧ id < bound ∧ id < t) ↔ (s ≤ id ∧ id < bound ∧ id < t) := by omega
      rw [if_neg hne, Nat.add_zero, if_congr hiff rfl rfl]
  | case2 s hs =>
    have : ¬(s ≤ id ∧ id < bound ∧ id < t) := by omega
    simp [this]

/-- The interval an id lies in. -/
theorem interval_iff {st i id : Nat} (h : 0 < st) :
    (i * st ≤ id ∧ id < (i + 1) * st) ↔ i = id / st := by
  rw [eq_comm, Nat.div_eq_iff h, Nat.add_mul]
  omega

theorem count_range_eq (q n : Nat) :
    ((List.range n).map fun i => if i = q then 1 else 0).sum = if q < n then 1 else 0 := by
  induction n with
  | zero => simp
  | succ n ih =>
    rw [List.range_succ, List.map_append, List.sum_append, ih]
    simp only [List.map_cons, List.map_nil, List.sum_cons, List.sum_nil, Nat.add_zero]
    rcases Nat.lt_trichotomy q n with h | h | h
    · simp [h, Nat.ne_of_gt h, Nat.lt_succ_of_lt h]
    · simp [h]
    · simp [Nat.not_lt.mpr h.le, Nat.ne_of_lt h, Nat.not_lt.mpr (Nat.succ_le_of_lt h)]

/-- Every id is run once or not at all, and the ids run are those of the workers'
intervals below `tasksCount`. -/
theorem count_taskCalls (t w id : Nat) :
    (taskCalls t w).count id = if id / step t w ≤ w ∧ id < t then 1 else 0 := by
  have hstep := step_pos t w
  simp only [taskCalls, runAll, List.count_flatten, List.map_map]
  by_cases ht : id < t
  · have : (List.count id ∘ fun i => workerLoop ((i + 1) * step t w) t (i * step t w)) =
        fun i => if i = id / step t w then 1 else 0 := by
      funext i
      simp only [Function.comp_apply, count_workerLoop, ht, and_true, interval_iff hstep]
    rw [this, count_range_eq]
    have hle : id / step t w < w + 1 ↔ id / step t w ≤ w := Nat.lt_succ_iff
    simp only [hle, ht, and_true]
  · have : (List.count id ∘ fun i => workerLoop ((i + 1) * step t w) t (i * step t w)) =
        fun _ => 0 := by
      funext i
      simp [count_workerLoop, ht]
    rw [this]
    simp [ht]

/-- The last id has a worker exactly when the remainder is no larger than the quotient. -/
theorem covers_iff {t w : Nat} (hw : 0 < w) :
    (∀ id, id < t → id / step t w ≤ w) ↔ Covers t w := by
  have hdm := Nat.div_add_mod t w
  have hr := Nat.mod_lt t hw
  have hmul : w * (t / w) + t / w = (w + 1) * (t / w) := by ring
  constructor
  · intro h
    by_contra hc
    simp only [Covers, not_or, Nat.not_lt, Nat.not_le] at hc
    have hq : 1 ≤ t / w := (Nat.one_le_div_iff hw).mpr hc.1
    have hs : step t w = t / w := by simp [step, hq]
    have := h ((w + 1) * (t / w)) (by omega)
    rw [hs, Nat.mul_div_cancel _ (by omega)] at this
    omega
  · rintro (hlt | hle) id hid
    · have hs : step t w = 1 := by simp [step, Nat.div_eq_of_lt hlt]
      rw [hs, Nat.div_one]
      omega
    · rw [← Nat.lt_succ_iff, Nat.div_lt_iff_lt_mul (step_pos t w)]
      have hge : t / w ≤ step t w := le_max_left _ _
      have : (w + 1) * (t / w) ≤ w.succ * step t w := Nat.mul_le_mul_left _ hge
      omega

/-- Every task id below `n` occurs exactly once among the calls, and no other does. -/
def ExactlyOnce (calls : List Nat) (n : Nat) : Prop :=
  ∀ id, calls.count id = if id < n then 1 else 0

theorem taskCalls_exactlyOnce_iff {t w : Nat} (hw : 0 < w) :
    ExactlyOnce (taskCalls t w) t ↔ Covers t w := by
  rw [← covers_iff hw]
  constructor
  · intro h id hid
    have := h id
    rw [count_taskCalls] at this
    by_contra hc
    simp [hid, hc] at this
  · intro h id
    rw [count_taskCalls]
    by_cases hid : id < t
    · simp [hid, h id hid]
    · simp [hid]

theorem count_checkDependencyGraph (m : AccessMapType) (w i j : Nat) :
    (checkDependencyGraph m w).count (i, j) =
      if i < m.size then (taskCalls ((m.values[i]?).elim 0 (·.size)) w).count j else 0 := by
  have hinj : Function.Injective (Prod.mk i : Nat → Nat × Nat) := fun a b h => (Prod.mk.inj h).2
  have hrow : ∀ k,
      ((taskCalls ((m.values[k]?).elim 0 (·.size)) w).map fun j => (k, j)).count (i, j) =
        if k = i then (taskCalls ((m.values[i]?).elim 0 (·.size)) w).count j else 0 := by
    intro k
    by_cases hk : k = i
    · subst hk
      rw [List.count_map_of_injective _ _ hinj, if_pos rfl]
    · rw [if_neg hk, List.count_eq_zero]
      intro hmem
      obtain ⟨_, _, he⟩ := List.mem_map.mp hmem
      exact hk (Prod.mk.inj he).1
  rw [checkDependencyGraph, List.count_flatMap]
  induction m.size with
  | zero => simp
  | succ n ih =>
    rw [List.range_succ, List.map_append, List.sum_append, ih]
    simp only [List.map_cons, List.map_nil, List.sum_cons, List.sum_nil, Nat.add_zero,
      Function.comp_apply, hrow]
    rcases Nat.lt_trichotomy i n with h | h | h
    · simp [h, Nat.ne_of_gt h, Nat.lt_succ_of_lt h]
    · simp [h]
    · simp [Nat.not_lt.mpr h.le, Nat.ne_of_lt h, Nat.not_lt.mpr (Nat.succ_le_of_lt h)]

/-- `checkCollisions` is called once on every chunk of the map and on nothing else. -/
def ChecksEveryChunk (m : AccessMapType) (calls : List (Nat × Nat)) : Prop :=
  ∀ i j, calls.count (i, j) = if i < m.size ∧ j < (m.values[i]?).elim 0 (·.size) then 1 else 0

theorem checksEveryChunk_iff (m : AccessMapType) {w : Nat} (hw : 0 < w) :
    ChecksEveryChunk m (checkDependencyGraph m w) ↔ ∀ chunks ∈ m.values, Covers chunks.size w := by
  have hlen := m.size_eq
  constructor
  · intro h chunks hmem
    obtain ⟨i, hi, hget⟩ := List.getElem_of_mem hmem
    have hopt : m.values[i]? = some chunks := by rw [List.getElem?_eq_getElem hi, hget]
    have hsize : i < m.size := by unfold OrderedStaticMap.size; omega
    rw [← taskCalls_exactlyOnce_iff hw]
    intro j
    have := h i j
    rw [count_checkDependencyGraph] at this
    simpa [hopt, hsize] using this
  · intro h i j
    rw [count_checkDependencyGraph]
    by_cases hi : i < m.size
    · have hlt : i < m.values.length := by unfold OrderedStaticMap.size at hi; omega
      have hopt : m.values[i]? = some m.values[i] := List.getElem?_eq_getElem hlt
      have := (taskCalls_exactlyOnce_iff hw).mpr (h _ (List.getElem_mem hlt)) j
      simpa [hopt, hi] using this
    · simp [hi]

/-- **Coverage of `runAll`.** Every id below `tasksCount` is run exactly once, and
no other, exactly when `tasksCount % workersCount ≤ tasksCount / workersCount` or
there are fewer tasks than workers; so `loadRequests` finalizes every request, and
`checkDependencyGraph` checks every chunk, under that condition on their counts. -/
theorem runAll_covers_iff (workersCount : Nat) (hw : 0 < workersCount) :
    (∀ tasksCount, ExactlyOnce (taskCalls tasksCount workersCount) tasksCount ↔
      Covers tasksCount workersCount) ∧
    (∀ numOfRequests, ExactlyOnce (finalizedRequests numOfRequests workersCount) numOfRequests ↔
      Covers numOfRequests workersCount) ∧
    (∀ sortedMap : AccessMapType,
      ChecksEveryChunk sortedMap (checkDependencyGraph sortedMap workersCount) ↔
        ∀ chunks ∈ sortedMap.values, Covers chunks.size workersCount) :=
  ⟨fun _ => taskCalls_exactlyOnce_iff hw, fun _ => taskCalls_exactlyOnce_iff hw,
    fun m => checksEveryChunk_iff m hw⟩

/-- Nine tasks on four workers: the quotient 2 covers the remainder 1. -/
theorem runAll_covers_nine_four : 0 < 4 ∧ ExactlyOnce (taskCalls 9 4) 9 :=
  ⟨by decide, ((runAll_covers_iff 4 (by decide)).1 9).mpr (by decide)⟩

/-- Seven tasks on four workers: no worker's interval contains the ids 5 and 6. -/
theorem runAll_skips_seven_four :
    ¬ ExactlyOnce (taskCalls 7 4) 7 ∧ 5 ∉ taskCalls 7 4 ∧ 6 ∉ taskCalls 7 4 := by
  refine ⟨fun h => ?_, ?_, ?_⟩
  · have := h 5
    rw [count_taskCalls] at this
    exact absurd this (by decide)
  all_goals rw [← List.count_eq_zero, count_taskCalls]; decide

end Argennon.RequestProcessor
