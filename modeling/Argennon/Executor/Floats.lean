import Argennon.Executor.Library
import Argennon.Lib.BinaryFloat

/- The arithmetic of floats in the library of the contract language (`argc/functions/float.cpp`).

   A `float64` is its pattern of 64 bits. What a pattern denotes is a rational number, so that
   the sum of two patterns is exact here; the sum of the machine is the pattern of that number,
   when there is one. -/
namespace Argennon
open BinaryFloat

/-- `float64` -/
abbrev binary64 : Format := ⟨52, 11⟩

namespace ArgC

/-- `truncate_float64`, after its shift is known. -/
def clearBits (f : Nat) (shift : Int) : Nat :=
  if shift ≤ 0 then f
  else if shift > 52 then 0
  else f &&& (2 ^ 64 - 1) <<< shift.toNat % 2 ^ 64

/-- `truncate_float64`: the shift is an `int`, and undefined if it overflows. -/
def truncateFloat64 (f : Nat) (n : Int) : Except Exn Nat :=
  let shift : Int := (52 - n) - ((extractExp f : Int) - 1023)
  if IsInt32 (52 - n) ∧ IsInt32 shift then .ok (clearBits f shift) else .error .undefined

/-! ## Addition -/

/-- The number that a pattern denotes, in units of exponent `e`. -/
def unitsAt (f e : Nat) : Int :=
  signed (negative binary64 f) (significand binary64 f / 2 ^ (e - scale binary64 f) : Nat)

/-- The larger of the exponents of the units of two patterns. -/
def sumScale (a b : Nat) : Nat := max (scale binary64 a) (scale binary64 b)

/-- The sum in units of the last place of the number with the larger exponent. -/
def sumUnits (a b : Nat) : Int := unitsAt a (sumScale a b) + unitsAt b (sumScale a b)

/-- The sum has no more bits than a significand, or one more that is zero and an exponent that is
not the last one. -/
def SumFits (a b : Nat) : Prop := |sumUnits a b| < 2 ^ 53 ∨ 2 ∣ sumUnits a b ∧ sumScale a b < 2046

instance (a b : Nat) : Decidable (SumFits a b) := inferInstanceAs (Decidable (_ ∨ _))

variable {a b f e : Nat}

theorem abs_unitsAt_lt (f e : Nat) : |unitsAt f e| < 2 ^ 53 := by
  have hlt : significand binary64 f < 2 ^ 53 := significand_lt binary64 f
  have hle := Nat.div_le_self (significand binary64 f) (2 ^ (e - scale binary64 f))
  unfold unitsAt
  rw [abs_signed]
  exact_mod_cast Nat.lt_of_le_of_lt hle hlt

theorem value_eq_unitsAt (he : scale binary64 f ≤ e)
    (hdvd : 2 ^ (e - scale binary64 f) ∣ significand binary64 f) :
    value binary64 f = unitsAt f e * unit binary64 e := by
  obtain ⟨k, hk⟩ := hdvd
  have hunit := unit_eq binary64 (d := (scale binary64 f : Int)) (e := (e : Int)) (by omega)
  have hexp : ((e : Int) - (scale binary64 f : Int)).toNat = e - scale binary64 f := by omega
  unfold value unitsAt
  rw [hunit, hexp, hk, Nat.mul_div_cancel_left k (Nat.two_pow_pos _), Nat.mul_comm,
    Nat.cast_mul, signed_mul]
  push_cast
  ring

theorem lossTooLarge_comm (a b maxLoss : Nat) :
    lossTooLarge a b maxLoss = lossTooLarge b a maxLoss := by
  unfold lossTooLarge
  obtain hlt | heq | hlt := Nat.lt_trichotomy (extractExp a) (extractExp b)
  · rw [if_neg (Nat.lt_asymm hlt), if_pos hlt, if_pos hlt]
  · rw [if_neg (by omega), if_neg (by omega), if_neg (by omega), if_neg (by omega)]
  · rw [if_pos hlt, if_neg (Nat.lt_asymm hlt), if_pos hlt]

/-- The guard leaves no bit below the unit of the number with the larger exponent. -/
theorem dvd_of_guard (h : lossTooLarge a b 0 = false) :
    2 ^ (sumScale a b - scale binary64 b) ∣ significand binary64 b := by
  have hexponent (f : Nat) : exponent binary64 f = extractExp f := rfl
  unfold lossTooLarge at h
  split at h
  · rename_i hlt
    simp only [Bool.or_eq_false_iff, decide_eq_false_iff_not, Nat.not_lt, Nat.le_zero] at h
    obtain ⟨hdiff, hlow⟩ := h
    have hpow : 2 ^ (extractExp a - extractExp b) ∣ 2 ^ 52 := Nat.pow_dvd_pow 2 (by omega)
    have hfraction : 2 ^ (extractExp a - extractExp b) ∣ fraction binary64 b := by
      apply Nat.dvd_of_mod_eq_zero
      exact (Nat.mod_mod_of_dvd b hpow).trans hlow
    have hsignificand : 2 ^ (extractExp a - extractExp b) ∣ significand binary64 b := by
      unfold significand
      split
      · exact hfraction
      · exact Nat.dvd_add hpow hfraction
    -- a subnormal number has the unit of exponent one, so its bits start one place higher
    have hscale : sumScale a b - scale binary64 b ≤ extractExp a - extractExp b := by
      simp only [sumScale, scale, hexponent]
      omega
    exact Nat.dvd_trans (Nat.pow_dvd_pow 2 hscale) hsignificand
  · rename_i hle
    have hscale : sumScale a b - scale binary64 b = 0 := by
      simp only [sumScale, scale, hexponent]
      omega
    rw [hscale]
    exact Nat.one_dvd _

theorem sum_eq (h : lossTooLarge a b 0 = false) :
    value binary64 a + value binary64 b = sumUnits a b * unit binary64 (sumScale a b) := by
  have hcomm : sumScale b a = sumScale a b := Nat.max_comm _ _
  have hdvd : 2 ^ (sumScale a b - scale binary64 a) ∣ significand binary64 a := by
    rw [← hcomm]
    exact dvd_of_guard (lossTooLarge_comm a b 0 ▸ h)
  have ha := value_eq_unitsAt (Nat.le_max_left _ _) hdvd
  have hb := value_eq_unitsAt (Nat.le_max_right _ _) (dvd_of_guard h)
  change value binary64 a = unitsAt a (sumScale a b) * unit binary64 (sumScale a b) at ha
  change value binary64 b = unitsAt b (sumScale a b) * unit binary64 (sumScale a b) at hb
  rw [ha, hb, sumUnits]
  push_cast
  ring

theorem sumScale_lt (ha : IsFinite binary64 a) (hb : IsFinite binary64 b) :
    sumScale a b < binary64.top := by
  have hexpA : exponent binary64 a < 2047 := ha.exponent
  have hexpB : exponent binary64 b < 2047 := hb.exponent
  have htop : binary64.top = 2047 := rfl
  simp only [sumScale, scale]
  omega

theorem representable_sum_iff (ha : IsFinite binary64 a) (hb : IsFinite binary64 b)
    (h : lossTooLarge a b 0 = false) :
    (∃ c, IsFinite binary64 c ∧ value binary64 c = value binary64 a + value binary64 b) ↔
    SumFits a b := by
  have hone : 1 ≤ sumScale a b := Nat.le_trans (Nat.le_max_right _ 1) (Nat.le_max_left _ _)
  have hbound : |sumUnits a b| < 2 ^ 54 :=
    calc |sumUnits a b| ≤ |unitsAt a (sumScale a b)| + |unitsAt b (sumScale a b)| := abs_add_le _ _
      _ < 2 ^ 53 + 2 ^ 53 := add_lt_add (abs_unitsAt_lt _ _) (abs_unitsAt_lt _ _)
      _ = 2 ^ 54 := by norm_num
  have hiff := exists_value_iff (F := binary64) hone (sumScale_lt ha hb) hbound
  have htop : sumScale a b + 1 < binary64.top ↔ sumScale a b < 2046 := by
    change sumScale a b + 1 < 2047 ↔ _
    omega
  rw [sum_eq h]
  rw [htop] at hiff
  exact hiff

/-- **Exact addition.** For two finite numbers that the guard of `exact_addf64` lets pass, the sum
is the number of a pattern exactly if it has no carry out of the 53 bits of a significand, or the
carry moves out a zero and does not overflow. -/
theorem safeAdd64_exact_iff (ha : IsFinite binary64 a) (hb : IsFinite binary64 b)
    (hguard : safeAdd64 a b 0 = .ok ()) :
    (∃ c, IsFinite binary64 c ∧ value binary64 c = value binary64 a + value binary64 b) ↔
    SumFits a b := by
  have hloss : lossTooLarge a b 0 = false := by
    unfold safeAdd64 at hguard
    split at hguard
    · cases hguard
    · rename_i hnot
      exact Bool.eq_false_of_not_eq_true hnot
  exact representable_sum_iff ha hb hloss

/-- One and a half and one. -/
theorem safeAdd64_exact_two_and_half :
    ∃ c, IsFinite binary64 c ∧
      value binary64 c = value binary64 0x3ff8000000000000 + value binary64 0x3ff0000000000000 := by
  have ha : IsFinite binary64 0x3ff8000000000000 := ⟨by decide, by decide⟩
  have hb : IsFinite binary64 0x3ff0000000000000 := ⟨by decide, by decide⟩
  exact (safeAdd64_exact_iff ha hb rfl).mpr (by decide)

/-- One, and the next number: equal exponents are not checked, and the carry moves out a one. -/
theorem safeAdd64_inexact_carry :
    IsFinite binary64 0x3ff0000000000001 ∧ IsFinite binary64 0x3ff0000000000000 ∧
    safeAdd64 0x3ff0000000000001 0x3ff0000000000000 0 = .ok () ∧
    ¬ ∃ c, IsFinite binary64 c ∧
      value binary64 c = value binary64 0x3ff0000000000001 + value binary64 0x3ff0000000000000 := by
  have ha : IsFinite binary64 0x3ff0000000000001 := ⟨by decide, by decide⟩
  have hb : IsFinite binary64 0x3ff0000000000000 := ⟨by decide, by decide⟩
  refine ⟨ha, hb, rfl, ?_⟩
  rw [representable_sum_iff ha hb rfl]
  decide

/-! ## Truncation -/

/-- The result has the units of its argument, less the low bits. -/
theorem clearBits_spec (hf : IsFinite binary64 f) (shift : Int) :
    IsFinite binary64 (clearBits f shift) ∧
    value binary64 (clearBits f shift) = signed (negative binary64 f)
      (significand binary64 f / 2 ^ shift.toNat * 2 ^ shift.toNat : Nat) *
      unit binary64 (scale binary64 f) := by
  have hlt : f < 2 ^ 64 := hf.lt
  unfold clearBits
  split
  · rename_i hnone
    have hzero : shift.toNat = 0 := by omega
    rw [hzero, Nat.pow_zero, Nat.div_one, Nat.mul_one]
    exact ⟨hf, rfl⟩
  · split
    · -- all bits of the significand are below
      have hall : significand binary64 f / 2 ^ shift.toNat = 0 := by
        apply Nat.div_eq_of_lt
        calc significand binary64 f < 2 ^ 53 := significand_lt binary64 f
          _ ≤ 2 ^ shift.toNat := Nat.pow_le_pow_right (by decide) (by omega)
      rw [hall, Nat.zero_mul]
      refine ⟨⟨by decide, by decide⟩, ?_⟩
      have hzero : significand binary64 0 = 0 := rfl
      unfold value
      rw [hzero]
      simp
    · rw [and_highMask hlt]
      have hs : shift.toNat ≤ binary64.fractionBits := by
        change _ ≤ 52
        omega
      exact ⟨isFinite_clear hs hf, value_clear hs hf⟩

/-- What is asked of the number `f` without its bits of a significance below `2 ^ (-n)`. -/
structure IsTruncation (f : Nat) (n : Int) (r : Nat) : Prop where
  finite : IsFinite binary64 r
  magnitude : |value binary64 r| ≤ |value binary64 f|
  sign : value binary64 r = 0 ∨ 0 < value binary64 r * value binary64 f
  multiple : ∃ k : Int, value binary64 r = k * 2 ^ (-n)
  error : |value binary64 r - value binary64 f| < 2 ^ (-n)

/-- The number is not subnormal, or it has no bit of significance `2 ^ (-n)` in its fraction. -/
def NoBitAt (f : Nat) (n : Int) : Prop :=
  extractExp f ≠ 0 ∨ n < 1023 ∨ 1074 < n ∨ f.testBit (1074 - n).toNat = false

instance (f : Nat) (n : Int) : Decidable (NoBitAt f n) :=
  inferInstanceAs (Decidable (_ ∨ _ ∨ _ ∨ _))

theorem unit_eq_two_pow (n : Int) : unit binary64 (1075 - n) = 2 ^ (-n) := by
  have hexp : 1075 - n - binary64.offset = -n := by
    change 1075 - n - 1075 = -n
    omega
  unfold unit
  rw [hexp]

section
variable {r s : Nat} (hvalue : value binary64 r =
  signed (negative binary64 f)
    (significand binary64 f / 2 ^ s * 2 ^ s : Nat) * unit binary64 (scale binary64 f))
include hvalue

theorem cleared_magnitude : |value binary64 r| ≤ |value binary64 f| := by
  have hle : ((significand binary64 f / 2 ^ s * 2 ^ s : Nat) : ℚ) ≤ significand binary64 f :=
    Nat.cast_le.mpr (Nat.div_mul_le_self _ _)
  rw [abs_value binary64 f, hvalue, abs_mul, abs_of_pos (unit_pos _ _), ← Int.cast_abs, abs_signed,
    Int.cast_natCast]
  exact mul_le_mul_of_nonneg_right hle (unit_pos _ _).le

theorem cleared_sign : value binary64 r = 0 ∨ 0 < value binary64 r * value binary64 f := by
  obtain hzero | hpos := Nat.eq_zero_or_pos (significand binary64 f / 2 ^ s * 2 ^ s)
  · left
    rw [hvalue, hzero]
    simp
  · right
    have hm : 0 < significand binary64 f := Nat.lt_of_lt_of_le hpos (Nat.div_mul_le_self _ _)
    have hunit := unit_pos binary64 (scale binary64 f)
    have hpos' : (0 : ℚ) < (significand binary64 f / 2 ^ s * 2 ^ s : Nat) := Nat.cast_pos.mpr hpos
    have hm' : (0 : ℚ) < significand binary64 f := Nat.cast_pos.mpr hm
    rw [hvalue, value]
    have hproduct := mul_pos (mul_pos hpos' hunit) (mul_pos hm' hunit)
    cases negative binary64 f with
    | false => exact hproduct
    | true =>
      simp only [signed, if_true, Int.cast_neg, Int.cast_natCast, neg_mul, mul_neg, neg_neg]
      exact hproduct

/-- The units of the result are `2 ^ s` of those of the argument. -/
theorem cleared_multiple {g : Int} (hg : g ≤ s + scale binary64 f) :
    ∃ k : Int, value binary64 r = k * unit binary64 g := by
  have hraise := unit_eq binary64 (d := (scale binary64 f : Int)) (e := s + scale binary64 f)
    (by omega)
  have hlower := unit_eq binary64 hg
  have hexp : ((s : Int) + scale binary64 f - scale binary64 f).toNat = s := by omega
  rw [hexp] at hraise
  refine ⟨signed (negative binary64 f) (significand binary64 f / 2 ^ s : Nat) *
    2 ^ (s + scale binary64 f - g).toNat, ?_⟩
  calc value binary64 r = signed (negative binary64 f) (significand binary64 f / 2 ^ s : Nat) *
    unit binary64 (s + scale binary64 f) := by
        rw [hvalue, Nat.cast_mul, signed_mul, hraise]
        push_cast
        ring
    _ = _ := by
        rw [hlower]
        push_cast
        ring

theorem cleared_error : |value binary64 r - value binary64 f| =
    (significand binary64 f % 2 ^ s : Nat) * unit binary64 (scale binary64 f) := by
  have hsplit : (significand binary64 f : Int) =
      (significand binary64 f / 2 ^ s * 2 ^ s : Nat) + (significand binary64 f % 2 ^ s : Nat) := by
    exact_mod_cast (Nat.div_add_mod' _ _).symm
  have hdiff : value binary64 r - value binary64 f =
      -(signed (negative binary64 f) (significand binary64 f % 2 ^ s : Nat) *
        unit binary64 (scale binary64 f)) := by
    have hlost : ((significand binary64 f % 2 ^ s : Nat) : Int) =
        significand binary64 f - (significand binary64 f / 2 ^ s * 2 ^ s : Nat) := by
      omega
    rw [hvalue, value, hlost, signed_sub]
    push_cast
    ring
  rw [hdiff, abs_neg, abs_mul, abs_of_pos (unit_pos _ _), ← Int.cast_abs, abs_signed,
    Int.cast_natCast]

end

/-- The bits that are lost are below a power of two exactly if the bit of that
power is not among them. -/
theorem mod_lt_iff_testBit (m s : Nat) : m % 2 ^ (s + 1) < 2 ^ s ↔ m.testBit s = false := by
  have hmod : m % 2 ^ (s + 1) = m % 2 ^ s + 2 ^ s * (m / 2 ^ s % 2) := Nat.mod_mul
  have hlow := Nat.mod_lt m (Nat.two_pow_pos s)
  rw [hmod, Nat.testBit_eq_decide_div_mod_eq, decide_eq_false_iff_not]
  obtain hbit | hbit := Nat.mod_two_eq_zero_or_one (m / 2 ^ s)
  · rw [hbit]
    omega
  · rw [hbit]
    omega

theorem shift_eq (f : Nat) (n : Int) :
    (52 - n) - ((extractExp f : Int) - 1023) = 1075 - n - extractExp f := by ring

/-- What is lost is below `2 ^ (-n)`, but for a subnormal number,
whose shift is by one too large. -/
theorem error_lt_iff (f : Nat) (n : Int) :
    (significand binary64 f % 2 ^ (1075 - n - extractExp f).toNat : Nat) *
    unit binary64 (scale binary64 f) < unit binary64 (1075 - n) ↔ NoBitAt f n := by
  have hscale : scale binary64 f = max (extractExp f) 1 := rfl
  obtain hnone | hsome := le_or_gt (1075 - n - (extractExp f : Int)) 0
  · -- no bit is cleared
    have hzero : (1075 - n - extractExp f).toNat = 0 := by omega
    have hbit : NoBitAt f n := by
      unfold NoBitAt
      omega
    rw [hzero, Nat.pow_zero, Nat.mod_one, Nat.cast_zero, zero_mul]
    exact iff_of_true (unit_pos _ _) hbit
  · have hraise := unit_eq binary64 (d := (scale binary64 f : Int)) (e := 1075 - n) (by omega)
    rw [hraise, mul_lt_mul_iff_of_pos_right (unit_pos _ _), Nat.cast_lt]
    by_cases hexp : extractExp f = 0
    · obtain ⟨s, hs⟩ : ∃ s : Nat, 1075 - n - extractExp f = s + 1 :=
        ⟨(1074 - n - extractExp f).toNat, by omega⟩
      have htarget : (1075 - n - (scale binary64 f : Int)).toNat = s := by omega
      have hshift : (1075 - n - extractExp f).toNat = s + 1 := by omega
      have hindex : (1074 - n).toNat = s := by omega
      have hfraction : significand binary64 f = f % 2 ^ 52 := if_pos hexp
      rw [hshift, htarget, mod_lt_iff_testBit, hfraction, Nat.testBit_mod_two_pow]
      have hlow : ¬ s < 52 ↔ n < 1023 := by omega
      have hhigh : ¬ 1074 < n := by omega
      unfold NoBitAt
      rw [hindex, Bool.and_eq_false_iff, decide_eq_false_iff_not, hlow]
      simp [hexp, hhigh]
    · have htarget : (1075 - n - (scale binary64 f : Int)).toNat =
          (1075 - n - extractExp f).toNat := by omega
      rw [htarget]
      exact iff_of_true (Nat.mod_lt _ (Nat.two_pow_pos _)) (Or.inl hexp)

theorem isTruncation_iff (hf : IsFinite binary64 f) (n : Int) :
    IsTruncation f n (clearBits f (1075 - n - extractExp f)) ↔ NoBitAt f n := by
  obtain ⟨hfinite, hvalue⟩ := clearBits_spec hf (1075 - n - extractExp f)
  have hscale : scale binary64 f = max (extractExp f) 1 := rfl
  have herror := cleared_error hvalue
  rw [← error_lt_iff]
  constructor
  · intro h
    have hlt := h.error
    rw [herror, ← unit_eq_two_pow] at hlt
    exact hlt
  · intro hlt
    refine ⟨hfinite, cleared_magnitude hvalue, cleared_sign hvalue, ?_, ?_⟩
    · rw [← unit_eq_two_pow]
      exact cleared_multiple hvalue (by omega)
    · rw [herror, ← unit_eq_two_pow]
      exact hlt

theorem truncateFloat64_eq {n : Int} (hf : IsFinite binary64 f) (hn : |n| ≤ 10000) :
    truncateFloat64 f n = .ok (clearBits f (1075 - n - extractExp f)) := by
  have hexp : extractExp f < 2047 := hf.exponent
  obtain ⟨hlow, hhigh⟩ := abs_le.mp hn
  unfold truncateFloat64
  rw [shift_eq]
  apply if_pos
  unfold IsInt32
  omega

/-- **Truncation.** `truncate_float64` truncates a finite number exactly if the number is not
subnormal with a bit of significance `2 ^ (-n)` in its fraction. -/
theorem truncateFloat64_truncates_iff {n : Int} (hf : IsFinite binary64 f) (hn : |n| ≤ 10000) :
    (∃ r, truncateFloat64 f n = .ok r ∧ IsTruncation f n r) ↔ NoBitAt f n := by
  rw [truncateFloat64_eq hf hn, ← isTruncation_iff hf]
  constructor
  · rintro ⟨r, hr, htruncation⟩
    rwa [Except.ok.inj hr]
  · exact fun htruncation => ⟨_, rfl, htruncation⟩

/-- The float next to 3.14, which loses the bits behind the fourteenth place after the point. -/
theorem truncateFloat64_truncates_pi :
    ∃ r, truncateFloat64 0x40091eb851eb851f 14 = .ok r ∧ r ≠ 0x40091eb851eb851f ∧
      IsTruncation 0x40091eb851eb851f 14 r := by
  have hlost : truncateFloat64 0x40091eb851eb851f 14 = .ok 0x40091ea000000000 := by decide
  obtain ⟨r, hr, htruncation⟩ :=
    (truncateFloat64_truncates_iff ⟨by decide, by decide⟩ (by decide)).mpr
      (show NoBitAt 0x40091eb851eb851f 14 by decide)
  obtain rfl := Except.ok.inj (hlost.symm.trans hr)
  exact ⟨_, hr, by decide, htruncation⟩

/-- The least positive number is a multiple of `2 ^ (-1074)`, and is truncated to zero there. -/
theorem truncateFloat64_least : IsFinite binary64 1 ∧ truncateFloat64 1 1074 = .ok 0 ∧
    ¬ IsTruncation 1 1074 0 := by
  have hf : IsFinite binary64 1 := ⟨by decide, by decide⟩
  have hbits : clearBits 1 (1075 - 1074 - extractExp 1) = 0 := by decide
  refine ⟨hf, by decide, ?_⟩
  rw [← hbits, isTruncation_iff hf]
  decide

end ArgC

end Argennon
