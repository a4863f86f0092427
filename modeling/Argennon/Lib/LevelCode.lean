import Mathlib.Algebra.Order.Ring.Nat
import Mathlib.Tactic.Ring
import Mathlib.Tactic.Linarith
import Mathlib.Tactic.GCongr

/- Prefix codes by boundaries.

   A code of level `i` is a number of `i + 1` digits in base `b`. Each level has a boundary
   `t i`: a number below it is a code, any other one goes on with a digit of the next level. So
   the codes of a level are the numbers from `start` to the boundary, and the codes of all levels
   number the naturals in their order, up to a total for each level. -/
namespace LevelCode
variable {b : ℕ} {t : ℕ → ℕ} {h i j v c : ℕ}

/-- What is past a boundary goes on in the next level, whose boundary is not below it. -/
def Grows (b : ℕ) (t : ℕ → ℕ) (h : ℕ) : Prop := ∀ i, i + 1 < h → b * t i ≤ t (i + 1)

/-- The first number of a level. -/
def start (b : ℕ) (t : ℕ → ℕ) : ℕ → ℕ
  | 0 => 0
  | i + 1 => b * t i

/-- How many codes there are up to a level. -/
def total (b : ℕ) (t : ℕ → ℕ) : ℕ → ℕ
  | 0 => t 0
  | i + 1 => total b t i + (t (i + 1) - b * t i)

/-- How many codes there are before a level. -/
def before (b : ℕ) (t : ℕ → ℕ) : ℕ → ℕ
  | 0 => 0
  | i + 1 => total b t i

/-- The code of a number at a level. -/
def code (b : ℕ) (t : ℕ → ℕ) (i v : ℕ) : ℕ := t i - (total b t i - v)

/-- The number of a code. -/
def value (b : ℕ) (t : ℕ → ℕ) (i c : ℕ) : ℕ := total b t i + c - t i

theorem start_le (hgrows : Grows b t h) (hi : i < h) : start b t i ≤ t i := by
  cases i with
  | zero => exact Nat.zero_le _
  | succ i => exact hgrows i hi

theorem total_eq (hgrows : Grows b t h) (hi : i < h) :
    total b t i + start b t i = before b t i + t i := by
  cases i with
  | zero => simp [total, start, before]
  | succ i =>
    have := hgrows i hi
    simp only [total, start, before]
    omega

theorem total_le (hb : 1 ≤ b) (hgrows : Grows b t h) : ∀ {i : ℕ}, i < h → total b t i ≤ t i
  | 0, _ => Nat.le_refl _
  | i + 1, hi => by
    have hprev := total_le hb hgrows (Nat.lt_of_succ_lt hi)
    have hnext := hgrows i hi
    have hmul : t i ≤ b * t i := Nat.le_mul_of_pos_left _ hb
    rw [total]
    omega

theorem total_mono (b : ℕ) (t : ℕ → ℕ) (hij : i ≤ j) : total b t i ≤ total b t j := by
  induction hij with
  | refl => exact Nat.le_refl _
  | step _ ih => exact Nat.le_trans ih (Nat.le_add_right _ _)

/-- The level of a number. -/
structure AtLevel (b : ℕ) (t : ℕ → ℕ) (i v : ℕ) : Prop where
  before : before b t i ≤ v
  below : v < total b t i

theorem code_bounds (hb : 1 ≤ b) (hgrows : Grows b t h) (hi : i < h) (hv : AtLevel b t i v) :
    start b t i ≤ code b t i v ∧ code b t i v < t i := by
  have htotal := total_eq hgrows hi
  have hle := total_le hb hgrows hi
  have hbefore := hv.before
  have hbelow := hv.below
  unfold code
  omega

theorem value_bounds (hgrows : Grows b t h) (hi : i < h) (hstart : start b t i ≤ c) (hc : c < t i) :
    AtLevel b t i (value b t i c) := by
  have htotal := total_eq hgrows hi
  unfold value
  constructor <;> omega

theorem value_code (hb : 1 ≤ b) (hgrows : Grows b t h) (hi : i < h) (hv : AtLevel b t i v) :
    value b t i (code b t i v) = v := by
  have hle := total_le hb hgrows hi
  have hbelow := hv.below
  unfold value code
  omega

theorem code_value (hgrows : Grows b t h) (hi : i < h) (hstart : start b t i ≤ c) (hc : c < t i) :
    code b t i (value b t i c) = c := by
  have htotal := total_eq hgrows hi
  unfold code value
  omega

/-- A boundary is passed by all that is at a later level. -/
theorem pow_mul_le_start (hgrows : Grows b t h) :
    ∀ {i : ℕ}, i < h → j < i → b ^ (i - j) * t j ≤ start b t i
  | i + 1, hi, hj => by
    rw [start]
    obtain rfl | hlt := Nat.eq_or_lt_of_le (Nat.le_of_lt_succ hj)
    · rw [Nat.add_sub_cancel_left, pow_one]
    · have hprev : b ^ (i - j) * t j ≤ t i :=
        Nat.le_trans (pow_mul_le_start hgrows (Nat.lt_of_succ_lt hi) hlt)
          (start_le hgrows (Nat.lt_of_succ_lt hi))
      have hsub : i + 1 - j = i - j + 1 := by omega
      rw [hsub, pow_succ', Nat.mul_assoc]
      exact Nat.mul_le_mul_left b hprev

/-- No beginning of a code is a code. -/
theorem boundary_le_prefix (hb : 1 ≤ b) (hgrows : Grows b t h) (hi : i < h) (hj : j < i)
    (hstart : start b t i ≤ c) :
    t j ≤ c / b ^ (i - j) := by
  rw [Nat.le_div_iff_mul_le (Nat.pow_pos hb), Nat.mul_comm]
  exact Nat.le_trans (pow_mul_le_start hgrows hi hj) hstart

/-- Codes are in the order of the numbers when they are aligned to the left. -/
theorem code_lt_code {k v' i' : ℕ} (hb : 1 ≤ b) (hgrows : Grows b t h) (hi : i < h) (hi' : i' < h)
    (hk : h ≤ k) (hv : AtLevel b t i v)
    (hv' : AtLevel b t i' v') (hlt : v < v') : code b t i v * b ^ (k - i - 1) <
    code b t i' v' * b ^ (k - i' - 1) := by
  have hcode := code_bounds hb hgrows hi hv
  have hcode' := code_bounds hb hgrows hi' hv'
  obtain hii | rfl | hii := Nat.lt_trichotomy i i'
  · have hpass : b ^ (i' - i) * (code b t i v + 1) ≤ code b t i' v' :=
      calc b ^ (i' - i) * (code b t i v + 1) ≤ b ^ (i' - i) * t i := Nat.mul_le_mul_left _ hcode.2
        _ ≤ start b t i' := pow_mul_le_start hgrows hi' hii
        _ ≤ code b t i' v' := hcode'.1
    have hpow : b ^ (k - i - 1) = b ^ (i' - i) * b ^ (k - i' - 1) := by
      rw [← Nat.pow_add]
      congr 1
      omega
    calc code b t i v * b ^ (k - i - 1) =
        b ^ (i' - i) * code b t i v * b ^ (k - i' - 1) := by rw [hpow]; ring
      _ < b ^ (i' - i) * (code b t i v + 1) * b ^ (k - i' - 1) := by
        apply Nat.mul_lt_mul_of_pos_right _ (Nat.pow_pos hb)
        exact Nat.mul_lt_mul_of_pos_left (Nat.lt_succ_self _) (Nat.pow_pos hb)
      _ ≤ code b t i' v' * b ^ (k - i' - 1) := Nat.mul_le_mul_right _ hpass
  · apply Nat.mul_lt_mul_of_pos_right _ (Nat.pow_pos hb)
    have hle := total_le hb hgrows hi
    have hbelow := hv'.below
    unfold code
    omega
  · -- the level of the smaller number cannot be the later one
    have hbefore : total b t i' ≤ before b t i := by
      cases i with
      | zero => omega
      | succ i => exact total_mono b t (Nat.le_of_lt_succ hii)
    have h₁ := hv.before
    have h₂ := hv'.below
    omega

end LevelCode
