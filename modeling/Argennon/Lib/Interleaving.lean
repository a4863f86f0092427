import Mathlib.Data.List.Sort
import Mathlib.Logic.Function.Iterate

/- Processes that take turns on one state, each by its own step.

   A process is ready while what it has seen of the state still holds. Turns of processes that are
   independent may change places, up to a relation of states that are alike for everybody. So a
   schedule in which a process comes before those that depend on it can be sorted: the processes run
   one after the other (`Commuting.run_serial`). -/
namespace Interleaving
variable {ι S : Type*}

/-- The state after the turns of a schedule, the newest turn first. -/
def run (step : ι → S → S) (s : S) : List ι → S
  | [] => s
  | i :: w => step i (run step s w)

/-- What the steps of the processes keep. -/
structure Commuting (step : ι → S → S) (Indep : ι → ι → Prop) (Alike : S → S → Prop)
    (Good : S → Prop)
    (Fresh Ready : ι → S → Prop) : Prop where
  refl : ∀ s, Alike s s
  trans : ∀ {s t u}, Alike s t → Alike t u → Alike s u
  symm : ∀ {i j}, Indep i j → Indep j i
  /-- A process that has not had a turn is ready, and stays fresh until its first turn. -/
  start : ∀ {i s}, Good s → Fresh i s → Ready i s
  fresh : ∀ {i j s}, i ≠ j → Fresh i s → Fresh i (step j s)
  good : ∀ {i s}, Good s → Ready i s → Good (step i s)
  own : ∀ {i s}, Good s → Ready i s → Ready i (step i s)
  other : ∀ {i j s}, i ≠ j → Indep i j → Good s → Ready i s → Ready j s → Ready i (step j s)
  congr : ∀ {i s t}, Good s → Good t → Ready i s → Ready i t → Alike s t →
    Alike (step i s) (step i t)
  swap : ∀ {i j s}, i ≠ j → Indep i j → Good s → Ready i s → Ready j s →
    Alike (step i (step j s)) (step j (step i s))

variable {step : ι → S → S} {Indep : ι → ι → Prop} {Alike : S → S → Prop} {Good : S → Prop}
  {Fresh Ready : ι → S → Prop}

/-- A process without a turn is fresh. -/
theorem Commuting.fresh_run (hc : Commuting step Indep Alike Good Fresh Ready) {s : S} {i : ι}
    (hfresh : Fresh i s) :
    ∀ {w : List ι}, i ∉ w → Fresh i (run step s w)
  | [], _ => hfresh
  | j :: w, hi => by
    rw [List.mem_cons, not_or] at hi
    exact hc.fresh hi.1 (hc.fresh_run hfresh hi.2)

section
variable [LinearOrder ι]

/-- Only independent processes have a turn before one that is smaller. -/
def Respectful (Indep : ι → ι → Prop) (w : List ι) : Prop :=
  w.Pairwise fun newer older => newer < older → Indep newer older

theorem Respectful.of_sorted {w : List ι} (h : w.Pairwise (· ≥ ·)) : Respectful Indep w :=
  h.imp fun hge hlt => absurd hlt (not_lt_of_ge hge)

namespace Commuting
variable (hc : Commuting step Indep Alike Good Fresh Ready) {s : S}
include hc

/-- The process that has the next turn of a respectful schedule is ready. -/
theorem ready (hgood : Good s) (hfresh : ∀ i, Fresh i s) :
    ∀ {w : List ι} {i : ι}, Respectful Indep (i :: w) →
    Good (run step s w) ∧ Ready i (run step s w)
  | [], i, _ => ⟨hgood, hc.start hgood (hfresh i)⟩
  | c :: w, i, h => by
    obtain ⟨hi, hw⟩ := List.pairwise_cons.mp h
    obtain ⟨hgoodw, hreadyc⟩ := ready hgood hfresh hw
    have hgoodc : Good (run step s (c :: w)) := hc.good hgoodw hreadyc
    refine ⟨hgoodc, ?_⟩
    have hskip : Respectful Indep (i :: w) :=
      List.pairwise_cons.mpr ⟨fun x hx => hi x (List.mem_cons_of_mem c hx), hw.of_cons⟩
    by_cases hsame : i = c
    · subst hsame
      exact hc.own hgoodw hreadyc
    by_cases hindep : Indep i c
    · exact hc.other hsame hindep hgoodw (ready hgood hfresh hskip).2 hreadyc
    · -- `c` comes before `i`, so `i` has not started
      have hlt : c < i := lt_of_le_of_ne (not_lt.mp fun hlt => hindep (hi c List.mem_cons_self hlt))
        (Ne.symm hsame)
      have hnone : i ∉ c :: w := by
        rw [List.mem_cons, not_or]
        exact ⟨hsame, fun hmem => hindep (hc.symm (List.rel_of_pairwise_cons hw hmem hlt))⟩
      exact hc.start hgoodc (hc.fresh_run (hfresh i) hnone)

/-- The newest turn moves to its place in a sorted schedule. -/
theorem run_orderedInsert (hgood : Good s) (hfresh : ∀ i, Fresh i s) {a : ι} :
    ∀ {l : List ι}, l.Pairwise (· ≥ ·) →
    Respectful Indep (a :: l) → Alike (run step s (a :: l)) (run step s (l.orderedInsert (· ≥ ·) a))
  | [], _, _ => hc.refl _
  | b :: l, hsorted, h => by
    by_cases hge : a ≥ b
    · rw [List.orderedInsert_cons_of_le (· ≥ ·) l hge]
      exact hc.refl _
    rw [List.orderedInsert_of_not_le (· ≥ ·) l hge]
    have hlt : a < b := lt_of_not_ge hge
    obtain ⟨ha, hbl⟩ := List.pairwise_cons.mp h
    obtain ⟨hb, hl⟩ := List.pairwise_cons.mp hsorted
    have hal : Respectful Indep (a :: l) :=
      List.pairwise_cons.mpr ⟨fun x hx => ha x (List.mem_cons_of_mem b hx), hbl.of_cons⟩
    have hbal : Respectful Indep (b :: a :: l) := by
      refine List.pairwise_cons.mpr ⟨fun x hx hbx => ?_, hal⟩
      obtain rfl | hx := List.mem_cons.mp hx
      · exact absurd hbx (not_lt_of_gt hlt)
      · exact absurd hbx (not_lt_of_ge (hb x hx))
    have hbins : (b :: l.orderedInsert (· ≥ ·) a).Pairwise (· ≥ ·) := by
      refine List.pairwise_cons.mpr ⟨fun x hx => ?_, hl.orderedInsert a l⟩
      obtain rfl | hx := (List.mem_orderedInsert (· ≥ ·)).mp hx
      · exact hlt.le
      · exact hb x hx
    obtain ⟨hgoodl, hreadya⟩ := hc.ready hgood hfresh hal
    obtain ⟨-, hreadyb⟩ := hc.ready hgood hfresh hbl
    obtain ⟨hgoodal, hreadyb'⟩ := hc.ready hgood hfresh hbal
    obtain ⟨hgoodins, hreadyb''⟩ := hc.ready hgood hfresh (Respectful.of_sorted hbins)
    have hswap := hc.swap hlt.ne (ha b List.mem_cons_self hlt) hgoodl hreadya hreadyb
    exact hc.trans hswap (hc.congr hgoodal hgoodins hreadyb' hreadyb''
      (run_orderedInsert hgood hfresh hl hal))

/-- A respectful schedule leaves the same as the sorted one. -/
theorem run_insertionSort (hgood : Good s) (hfresh : ∀ i, Fresh i s) :
    ∀ {w : List ι}, Respectful Indep w →
    Alike (run step s w) (run step s (w.insertionSort (· ≥ ·)))
  | [], _ => hc.refl _
  | a :: w, h => by
    obtain ⟨ha, hw⟩ := List.pairwise_cons.mp h
    have hsorted := List.pairwise_insertionSort (· ≥ ·) w
    have hins : Respectful Indep (a :: w.insertionSort (· ≥ ·)) :=
      List.pairwise_cons.mpr ⟨fun x hx => ha x ((List.mem_insertionSort (· ≥ ·)).mp hx),
        Respectful.of_sorted hsorted⟩
    obtain ⟨hgoodw, hready⟩ := hc.ready hgood hfresh h
    obtain ⟨hgoods, hready'⟩ := hc.ready hgood hfresh hins
    have hrest := hc.congr hgoodw hgoods hready hready' (run_insertionSort hgood hfresh hw)
    exact hc.trans hrest (hc.run_orderedInsert hgood hfresh hsorted hins)

end Commuting
end

/-! ## Processes by number -/

/-- The first `n` processes run one after the other, each with so many turns. -/
def serial (step : Nat → S → S) (turns : Nat → Nat) (s : S) : Nat → S
  | 0 => s
  | n + 1 => (step n)^[turns n] (serial step turns s n)

theorem run_replicate_append (step : Nat → S → S) (s : S) (i : Nat) (w : List Nat) :
    ∀ k, run step s (List.replicate k i ++ w) = (step i)^[k] (run step s w)
  | 0 => rfl
  | k + 1 => by
    rw [Function.iterate_succ_apply', List.replicate_succ, List.cons_append, run,
      run_replicate_append step s i w k]

/-- The turns of the last process are the newest of a sorted schedule. -/
theorem eq_replicate_append {n : Nat} :
    ∀ {w : List Nat}, w.Pairwise (· ≥ ·) → (∀ i ∈ w, i < n + 1) →
    w = List.replicate (w.count n) n ++ w.filter (· < n)
  | [], _, _ => rfl
  | i :: w, hsorted, hlt => by
    obtain ⟨hi, hw⟩ := List.pairwise_cons.mp hsorted
    obtain ⟨hlti, hltw⟩ := List.forall_mem_cons.mp hlt
    obtain rfl | hne := eq_or_ne i n
    · rw [List.count_cons_self, List.replicate_succ, List.cons_append,
        List.filter_cons_of_neg (by simp)]
      exact congrArg (i :: ·) (eq_replicate_append hw hltw)
    · have hin : i < n := lt_of_le_of_ne (Nat.lt_succ_iff.mp hlti) hne
      have hall : ∀ x ∈ i :: w, x < n :=
        List.forall_mem_cons.mpr ⟨hin, fun x hx => lt_of_le_of_lt (hi x hx) hin⟩
      have hnone : (i :: w).count n = 0 :=
        List.count_eq_zero.mpr fun hmem => lt_irrefl n (hall n hmem)
      rw [hnone, List.filter_eq_self.mpr fun x hx => decide_eq_true (hall x hx)]
      rfl

/-- A sorted schedule runs the processes one after the other. -/
theorem run_eq_serial (step : Nat → S → S) (s : S) :
    ∀ {n : Nat} {w : List Nat}, w.Pairwise (· ≥ ·) → (∀ i ∈ w, i < n) →
    run step s w = serial step w.count s n
  | 0, w, _, hlt => by
    obtain rfl : w = [] :=
      List.eq_nil_iff_forall_not_mem.mpr fun i hi => Nat.not_lt_zero i (hlt i hi)
    rfl
  | n + 1, w, hsorted, hlt => by
    have hrest : ∀ {m : Nat}, m ≤ n →
        serial step (w.filter (· < n)).count s m = serial step w.count s m := by
      intro m hm
      induction m with
      | zero => rfl
      | succ m ih =>
        have hcount : (w.filter (· < n)).count m = w.count m :=
          List.count_filter (decide_eq_true hm)
        rw [serial, serial, ih (Nat.le_of_succ_le hm), hcount]
    conv_lhs => rw [eq_replicate_append hsorted hlt]
    rw [run_replicate_append, serial, ← hrest (Nat.le_refl n)]
    congr 1
    exact run_eq_serial step s (hsorted.filter _) fun i hi =>
      of_decide_eq_true (List.mem_filter.mp hi).2

/-- **Serialization.** A respectful schedule leaves the same as the processes one
after the other. -/
theorem Commuting.run_serial {step : Nat → S → S} {Indep : Nat → Nat → Prop} {Alike : S → S → Prop}
    {Good : S → Prop}
    {Fresh Ready : Nat → S → Prop} (hc : Commuting step Indep Alike Good Fresh Ready) {s : S}
    (hgood : Good s)
    (hfresh : ∀ i, Fresh i s) {w : List Nat} (h : Respectful Indep w) {n : Nat}
    (hlt : ∀ i ∈ w, i < n) :
    Alike (run step s w) (serial step w.count s n) := by
  have hperm := List.perm_insertionSort (· ≥ ·) w
  have hserial := run_eq_serial step s (List.pairwise_insertionSort (· ≥ ·) w) fun i hi =>
    hlt i (hperm.mem_iff.mp hi)
  have hcount : (w.insertionSort (· ≥ ·)).count = w.count := funext fun i => hperm.count_eq i
  rw [hcount] at hserial
  rw [← hserial]
  exact hc.run_insertionSort hgood hfresh h

/-! ## Schedules that wait -/

section
variable [LinearOrder ι] {Over : ι → S → Prop} {s : S}

/-- A process has a turn only while it is not over, and after the processes before it that it
depends on are over. -/
def Permitted (step : ι → S → S) (Indep : ι → ι → Prop) (Over : ι → S → Prop) (s : S) :
    List ι → Prop
  | [] => True
  | i :: w => Permitted step Indep Over s w ∧ ¬ Over i (run step s w) ∧ ∀ j < i, ¬ Indep j i →
    Over j (run step s w)

/-- Where a process has had a turn, those it depends on are over. -/
theorem Permitted.over (hkeeps : ∀ i j s, Over i s → Over i (step j s)) :
    ∀ {w : List ι}, Permitted step Indep Over s w →
    ∀ i ∈ w, ∀ j < i, ¬ Indep j i → Over j (run step s w)
  | [], _, i, hi, _, _, _ => absurd hi List.not_mem_nil
  | c :: w, ⟨hw, _, hbefore⟩, i, hi, j, hlt, hdep => by
    apply hkeeps
    obtain rfl | hi := List.mem_cons.mp hi
    · exact hbefore j hlt hdep
    · exact hw.over hkeeps i hi j hlt hdep

/-- A schedule that waits is respectful. -/
theorem Permitted.respectful (hkeeps : ∀ i j s, Over i s → Over i (step j s)) :
    ∀ {w : List ι}, Permitted step Indep Over s w →
    Respectful Indep w
  | [], _ => List.Pairwise.nil
  | c :: w, ⟨hw, hnot, _⟩ => by
    refine List.pairwise_cons.mpr ⟨fun x hx hlt => ?_, hw.respectful hkeeps⟩
    by_contra hdep
    exact hnot (hw.over hkeeps x hx c hlt hdep)

end

/-- The processes that are not over are run to their end, one after the other. -/
theorem exists_completion {step : Nat → S → S} {Over : Nat → S → Prop}
    (hkeeps : ∀ i j s, Over i s → Over i (step j s))
    (hends : ∀ i s, ∃ k, Over i ((step i)^[k] s)) (s : S) (w : List Nat) :
    ∀ n, ∃ rest : List Nat, rest.Pairwise (· ≥ ·) ∧
      (∀ i ∈ rest, i < n ∧ ¬ Over i (run step s w)) ∧ ∀ i < n, Over i (run step s (rest ++ w))
  | 0 => ⟨[], List.Pairwise.nil, fun i hi => absurd hi List.not_mem_nil,
    fun i hi => absurd hi (Nat.not_lt_zero i)⟩
  | n + 1 => by
    obtain ⟨rest, hsorted, hrest, hover⟩ := exists_completion hkeeps hends s w n
    -- the turns of `n` leave the processes below it over
    have hafter : ∀ i k t, Over i t → Over i ((step n)^[k] t) := by
      intro i k t ht
      induction k with
      | zero => exact ht
      | succ k ih =>
        rw [Function.iterate_succ_apply']
        exact hkeeps i n _ ih
    by_cases hn : Over n (run step s w)
    · refine ⟨rest, hsorted, fun i hi => ⟨Nat.lt_succ_of_lt (hrest i hi).1, (hrest i hi).2⟩,
        fun i hi => ?_⟩
      obtain hlt | rfl := Nat.lt_succ_iff_lt_or_eq.mp hi
      · exact hover i hlt
      · have hlast : ∀ l : List Nat, Over i (run step s (l ++ w)) := by
          intro l
          induction l with
          | nil => exact hn
          | cons j l ih => exact hkeeps i j _ ih
        exact hlast rest
    · -- `n` goes last, after the processes below it
      obtain ⟨k, hk⟩ := hends n (run step s (rest ++ w))
      refine ⟨List.replicate k n ++ rest, ?_, fun i hi => ?_, fun i hi => ?_⟩
      · refine List.pairwise_append.mpr ⟨List.pairwise_replicate.mpr (.inr (le_refl n)), hsorted,
          fun a ha b hb => ?_⟩
        rw [List.eq_of_mem_replicate ha]
        exact (hrest b hb).1.le
      · obtain hi | hi := List.mem_append.mp hi
        · rw [List.eq_of_mem_replicate hi]
          exact ⟨Nat.lt_succ_self n, hn⟩
        · exact ⟨Nat.lt_succ_of_lt (hrest i hi).1, (hrest i hi).2⟩
      · rw [List.append_assoc, run_replicate_append]
        obtain hlt | rfl := Nat.lt_succ_iff_lt_or_eq.mp hi
        · exact hafter i k _ (hover i hlt)
        · exact hk

/-- **Serialization of a schedule that waits.** It can be completed, and then it leaves the same as
the processes one after the other. -/
theorem Commuting.serialization {step : Nat → S → S} {Indep : Nat → Nat → Prop}
    {Alike : S → S → Prop} {Good : S → Prop}
    {Fresh Ready : Nat → S → Prop} {Over : Nat → S → Prop}
    (hc : Commuting step Indep Alike Good Fresh Ready)
    (hkeeps : ∀ i j s, Over i s → Over i (step j s)) (hends : ∀ i s, ∃ k, Over i ((step i)^[k] s))
    {s : S} (hgood : Good s)
    (hfresh : ∀ i, Fresh i s) {w : List Nat} (h : Permitted step Indep Over s w) {n : Nat}
    (hlt : ∀ i ∈ w, i < n) :
    ∃ rest : List Nat, (∀ i ∈ rest, i < n ∧ ¬ Over i (run step s w)) ∧
      (∀ i < n, Over i (run step s (rest ++ w))) ∧
      Alike (run step s (rest ++ w)) (serial step (rest ++ w).count s n) := by
  obtain ⟨rest, hsorted, hrest, hover⟩ := exists_completion hkeeps hends s w n
  have hrespectful : Respectful Indep (rest ++ w) := by
    refine List.pairwise_append.mpr ⟨Respectful.of_sorted hsorted, h.respectful hkeeps,
      fun a ha b hb hab => ?_⟩
    by_contra hdep
    exact (hrest a ha).2 (h.over hkeeps b hb a hab hdep)
  refine ⟨rest, hrest, hover, hc.run_serial hgood hfresh hrespectful fun i hi => ?_⟩
  obtain hi | hi := List.mem_append.mp hi
  · exact (hrest i hi).1
  · exact hlt i hi

end Interleaving
