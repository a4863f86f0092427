import Argennon.Core.Primitives
import Mathlib.Data.List.Sort
import Mathlib.Data.List.Perm.Basic

/- `util::mergeInsert` (`util/OrderedStaticMap.hpp`): the in-place insertion of one
   sorted vector into another, filling the enlarged vector from its end.

   The source counts `j` down from `l.size() - 1` to `-1`; here `j` is that value
   plus one, the number of old elements not yet placed. -/
namespace Argennon

section
variable {α : Type} [LinearOrder α]

/-- The inner loop: while `l[j] > x`, move `l[j]` to `l[j + i + 1]`. -/
def shiftGreater (l : List α) (x : α) (i : Nat) : Nat → Except Exn (List α × Nat)
  | 0 => .ok (l, 0)
  | j + 1 => do
    let a ← vecGet l j
    if x < a then
      let l ← vecSet l (j + i + 1) a
      shiftGreater l x i j
    else .ok (l, j + 1)

/-- The outer loop over `r[i - 1], …, r[0]`. -/
def mergeInsertLoop (r : List α) : Nat → List α → Nat → Except Exn (List α)
  | 0, l, _ => .ok l
  | i + 1, l, j => do
    let x ← vecGet r i
    let (l, j) ← shiftGreater l x i j
    let l ← vecSet l (j + i) x
    mergeInsertLoop r i l j

/-- `mergeInsert` -/
def mergeInsert [Inhabited α] (l r : List α) : Except Exn (List α) :=
  mergeInsertLoop r r.length (l ++ List.replicate r.length default) l.length

/-! ## The result, and that every index is in range -/

/-- Two ascending lists merged from their ends. -/
def mergeBack (l r : List α) : List α :=
  (List.merge r.reverse l.reverse fun a b => decide (b ≤ a)).reverse

theorem mergeInsertLoop_zero_left {r l : List α} {i : Nat} (hi : i < r.length) (hl : i < l.length) :
    mergeInsertLoop r (i + 1) l 0 = mergeInsertLoop r i (l.set i r[i]) 0 := by
  rw [mergeInsertLoop, vecGet_lt hi]
  simp only [bind, Except.bind, shiftGreater]
  rw [Nat.zero_add, vecSet_lt _ hl]

theorem mergeInsertLoop_succ {r l : List α} {i j : Nat} (hi : i < r.length)
    (hl : j + i + 1 < l.length) :
    mergeInsertLoop r (i + 1) l (j + 1) =
      if r[i] < l[j] then mergeInsertLoop r (i + 1) (l.set (j + i + 1) l[j]) j
      else mergeInsertLoop r i (l.set (j + i + 1) r[i]) (j + 1) := by
  have hj : j < l.length := by omega
  rw [mergeInsertLoop, vecGet_lt hi]
  simp only [bind, Except.bind, shiftGreater, vecGet_lt hj]
  by_cases hlt : r[i] < l[j]
  · simp only [hlt, if_true, vecSet_lt _ hl]
    rw [mergeInsertLoop, vecGet_lt hi]
    rfl
  · simp only [hlt, if_false]
    rw [show j + 1 + i = j + i + 1 by omega, vecSet_lt _ hl]

omit [LinearOrder α] in
theorem take_succ_reverse {l : List α} {j : Nat} (h : j < l.length) :
    (l.take (j + 1)).reverse = l[j] :: (l.take j).reverse := by
  rw [List.take_add_one, List.getElem?_eq_getElem h]
  simp

omit [LinearOrder α] in
theorem drop_set_self {l : List α} {k : Nat} (a : α) (h : k < l.length) :
    (l.set k a).drop k = a :: l.drop (k + 1) := by
  have hk := List.drop_eq_getElem_cons h
  rw [List.drop_set, if_neg (Nat.lt_irrefl k), Nat.sub_self, hk, List.set_cons_zero]

/-- What the loop leaves: the merge of what is still to be placed, before what
already stands at the end. -/
theorem mergeInsertLoop_eq (r : List α) : ∀ (i j : Nat) (l : List α), i ≤ r.length →
    j + i ≤ l.length →
    mergeInsertLoop r i l j = .ok (mergeBack (l.take j) (r.take i) ++ l.drop (j + i))
  | 0, j, l, _, _ => by simp [mergeInsertLoop, mergeBack]
  | i + 1, 0, l, hi, hl => by
    have hil : i < l.length := by omega
    rw [mergeInsertLoop_zero_left hi hil,
      mergeInsertLoop_eq r i 0 _ (by omega) (by rw [List.length_set]; omega)]
    simp only [Nat.zero_add, drop_set_self _ hil, List.take_zero, mergeBack, List.reverse_nil,
      List.merge_right, take_succ_reverse (show i < r.length from hi), List.reverse_reverse,
      List.reverse_cons, List.append_assoc, List.cons_append, List.nil_append]
  | i + 1, j + 1, l, hi, hl => by
    have hjl : j < l.length := by omega
    have hlast : j + i + 1 < l.length := by omega
    have hdrop : ∀ a, (l.set (j + i + 1) a).drop (j + i + 1) = a :: l.drop (j + 1 + (i + 1)) := by
      intro a
      rw [drop_set_self a hlast, show j + i + 1 + 1 = j + 1 + (i + 1) by omega]
    rw [mergeInsertLoop_succ hi hlast]
    split
    · rename_i hlt
      -- `l[j]` is the larger: it goes to the end and `r[i]` stays to be placed
      rw [mergeInsertLoop_eq r (i + 1) j _ hi (by rw [List.length_set]; omega),
        List.take_set_of_le (by omega), show j + (i + 1) = j + i + 1 by omega, hdrop]
      simp only [mergeBack, take_succ_reverse hjl, take_succ_reverse (show i < r.length from hi)]
      rw [List.cons_merge_cons_neg _ _ _ (by simpa using hlt)]
      simp
    · rename_i hge
      rw [mergeInsertLoop_eq r i (j + 1) _ (by omega) (by rw [List.length_set]; omega),
        List.take_set_of_le (by omega), show j + 1 + i = j + i + 1 by omega, hdrop]
      simp only [mergeBack, take_succ_reverse hjl, take_succ_reverse (show i < r.length from hi)]
      rw [List.cons_merge_cons_pos _ _ _ (by simpa using hge)]
      simp

/-- Every index `mergeInsert` uses is in range, and it computes the merge. -/
theorem mergeInsert_eq [Inhabited α] (l r : List α) : mergeInsert l r = .ok (mergeBack l r) := by
  rw [mergeInsert, mergeInsertLoop_eq r r.length l.length _ (Nat.le_refl _) (by simp)]
  simp

theorem mergeBack_perm (l r : List α) : (mergeBack l r).Perm (l ++ r) := by
  have h : (List.merge r.reverse l.reverse fun a b => decide (b ≤ a)).Perm
      (r.reverse ++ l.reverse) :=
    List.merge_perm_append _
  refine (List.reverse_perm _).trans (h.trans ?_)
  exact ((List.reverse_perm r).append (List.reverse_perm l)).trans List.perm_append_comm

theorem mergeBack_sorted {l r : List α} (hl : l.Pairwise (· ≤ ·)) (hr : r.Pairwise (· ≤ ·)) :
    (mergeBack l r).Pairwise (· ≤ ·) := by
  have h := @List.pairwise_merge _ (fun a b : α => decide (b ≤ a))
    (fun a b c hab hbc => by simpa using le_trans (by simpa using hbc) (by simpa using hab))
    (fun a b => by simpa using le_total b a) r.reverse l.reverse
    (by simpa [List.pairwise_reverse] using hr) (by simpa [List.pairwise_reverse] using hl)
  rw [mergeBack, List.pairwise_reverse]
  simpa using h

/-- Of two sorted lists `mergeInsert` makes a sorted one, with the elements of both. -/
theorem mergeInsert_sorted_perm [Inhabited α] {l r : List α} (hl : l.Pairwise (· ≤ ·))
    (hr : r.Pairwise (· ≤ ·)) :
    ∃ m, mergeInsert l r = .ok m ∧ m.Pairwise (· ≤ ·) ∧ m.Perm (l ++ r) :=
  ⟨mergeBack l r, mergeInsert_eq l r, mergeBack_sorted hl hr, mergeBack_perm l r⟩

example : mergeInsert [1, 3, 3] [2, 3] = .ok [1, 2, 3, 3, 3] := by decide

end
end Argennon
