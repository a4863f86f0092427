import Mathlib.Algebra.BigOperators.Group.Finset.Piecewise
import Mathlib.Algebra.Order.BigOperators.Group.Finset
import Mathlib.Algebra.Order.Group.Multiset

/- Places that hold things. What all places hold together is a multiset, so a thing that is held
   twice is in it twice: giving a thing to a place adds it, and taking one from a place removes it.
   -/
namespace Holdings
variable {ι α : Type} {places : Finset ι} {holds : ι → Multiset α} {i : ι} {a : α} {m : Multiset α}

/-- What all places hold. -/
def total (places : Finset ι) (holds : ι → Multiset α) : Multiset α := ∑ i ∈ places, holds i

theorem mem_total (h : i ∈ places) (ha : a ∈ holds i) : a ∈ total places holds := by
  unfold total
  rw [Multiset.mem_sum]
  exact ⟨i, h, ha⟩

variable [DecidableEq ι]

/-- A place gets other things. -/
theorem total_update (h : i ∈ places) :
    holds i + total places (Function.update holds i m) = m + total places holds := by
  unfold total
  rw [Finset.sum_update_of_mem h, ← Finset.add_sum_erase _ _ h, Finset.sdiff_singleton_eq_erase]
  exact add_left_comm _ _ _

theorem total_give (h : i ∈ places) : total places (Function.update holds i (a ::ₘ holds i)) =
    a ::ₘ total places holds := by
  have hupdate : holds i + total places (Function.update holds i (a ::ₘ holds i)) = _ :=
    total_update h
  rw [Multiset.cons_add, ← Multiset.add_cons] at hupdate
  exact add_left_cancel hupdate

theorem total_take (h : i ∈ places) (ha : holds i = a ::ₘ m) :
    a ::ₘ total places (Function.update holds i m) = total places holds := by
  have hupdate : holds i + total places (Function.update holds i m) = _ := total_update h
  rw [ha, Multiset.cons_add, ← Multiset.add_cons] at hupdate
  exact add_left_cancel hupdate

theorem total_insert (h : i ∉ places) : total (insert i places)
    (Function.update holds i m) = m + total places holds := by
  unfold total
  rw [Finset.sum_insert h, Function.update_self]
  congr 1
  exact Finset.sum_congr rfl fun j hj => Function.update_of_ne (ne_of_mem_of_not_mem hj h) _ _

end Holdings
