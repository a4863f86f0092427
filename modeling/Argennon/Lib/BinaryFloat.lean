import Mathlib.Algebra.Order.Field.Power
import Mathlib.Data.Rat.Cast.Order
import Mathlib.Data.Nat.Bitwise
import Mathlib.Tactic.Ring
import Mathlib.Tactic.Linarith
import Mathlib.Tactic.Positivity

/- Binary floating-point formats.

   A pattern is a number: a sign bit, the exponent and the fraction, from the highest bit down.
   A finite pattern denotes its significand, with its sign, in units that the exponent gives; a
   pattern with exponent zero has the units of exponent one and no leading bit. What is proved
   is which multiples of a unit are denoted by a pattern. -/
namespace BinaryFloat

/-- A format: how many bits the fraction and the exponent have. -/
structure Format where
  fractionBits : ℕ
  exponentBits : ℕ

variable (F : Format)

/-- The number of patterns. -/
def Format.patterns : ℕ := 2 * 2 ^ F.exponentBits * 2 ^ F.fractionBits

/-- The exponent of infinities and of what is not a number. -/
def Format.top : ℕ := 2 ^ F.exponentBits - 1

/-- The unit of exponent zero would be this power of two, with its sign changed. -/
def Format.offset : ℤ := 2 ^ (F.exponentBits - 1) - 1 + F.fractionBits

def fraction (f : ℕ) : ℕ := f % 2 ^ F.fractionBits

def exponent (f : ℕ) : ℕ := f / 2 ^ F.fractionBits % 2 ^ F.exponentBits

def negative (f : ℕ) : Bool := f / 2 ^ F.fractionBits / 2 ^ F.exponentBits % 2 = 1

/-- A pattern of a number. -/
structure IsFinite (f : ℕ) : Prop where
  lt : f < F.patterns
  exponent : exponent F f < F.top

/-- The exponent of the unit. -/
def scale (f : ℕ) : ℕ := max (exponent F f) 1

/-- The number of units. -/
def significand (f : ℕ) : ℕ := if exponent F f = 0 then fraction F f
  else 2 ^ F.fractionBits + fraction F f

/-- A number with a sign. -/
def signed (s : Bool) (m : ℤ) : ℤ := if s then -m else m

/-- The unit of an exponent. -/
def unit (e : ℤ) : ℚ := 2 ^ (e - F.offset)

/-- The number that a finite pattern denotes. -/
def value (f : ℕ) : ℚ := signed (negative F f) (significand F f) * unit F (scale F f)

/-- The pattern with these fields. -/
def pack (s : Bool) (e m : ℕ) : ℕ := (s.toNat * 2 ^ F.exponentBits + e) * 2 ^ F.fractionBits + m

/-! ## Fields -/

variable {F} {s : Bool} {e m f : ℕ}

theorem fraction_lt (F : Format) (f : ℕ) : fraction F f < 2 ^ F.fractionBits :=
  Nat.mod_lt _ (Nat.two_pow_pos _)

theorem pack_div (hm : m < 2 ^ F.fractionBits) :
    pack F s e m / 2 ^ F.fractionBits = s.toNat * 2 ^ F.exponentBits + e := by
  unfold pack
  rw [Nat.mul_comm, Nat.mul_add_div (Nat.two_pow_pos _), Nat.div_eq_of_lt hm, Nat.add_zero]

theorem fraction_pack (hm : m < 2 ^ F.fractionBits) : fraction F (pack F s e m) = m := by
  unfold fraction pack
  rw [Nat.mul_comm, Nat.mul_add_mod, Nat.mod_eq_of_lt hm]

theorem exponent_pack (he : e < 2 ^ F.exponentBits) (hm : m < 2 ^ F.fractionBits) :
    exponent F (pack F s e m) = e := by
  unfold exponent
  rw [pack_div hm, Nat.mul_comm, Nat.mul_add_mod, Nat.mod_eq_of_lt he]

theorem negative_pack (he : e < 2 ^ F.exponentBits) (hm : m < 2 ^ F.fractionBits) :
    negative F (pack F s e m) = s := by
  unfold negative
  rw [pack_div hm, Nat.mul_comm, Nat.mul_add_div (Nat.two_pow_pos _), Nat.div_eq_of_lt he]
  cases s <;> rfl

theorem pack_lt (he : e < 2 ^ F.exponentBits) (hm : m < 2 ^ F.fractionBits) :
    pack F s e m < F.patterns := by
  have hs : s.toNat ≤ 1 := Bool.toNat_le s
  have hfields : s.toNat * 2 ^ F.exponentBits + e + 1 ≤ 2 * 2 ^ F.exponentBits := by
    have hsign := Nat.mul_le_mul_right (2 ^ F.exponentBits) hs
    omega
  calc pack F s e m < (s.toNat * 2 ^ F.exponentBits + e + 1) * 2 ^ F.fractionBits := by
        unfold pack
        rw [Nat.add_mul _ 1, Nat.one_mul]
        exact Nat.add_lt_add_left hm _
    _ ≤ F.patterns := Nat.mul_le_mul_right _ hfields

/-- A pattern is made of its fields. -/
theorem pack_fields (hf : f < F.patterns) : pack F (negative F f) (exponent F f)
    (fraction F f) = f := by
  have hsign : f / 2 ^ F.fractionBits / 2 ^ F.exponentBits < 2 := by
    rw [Nat.div_div_eq_div_mul,
      Nat.div_lt_iff_lt_mul (Nat.mul_pos (Nat.two_pow_pos _) (Nat.two_pow_pos _))]
    unfold Format.patterns at hf
    rwa [Nat.mul_comm (2 ^ F.fractionBits), ← Nat.mul_assoc]
  have hbit : (negative F f).toNat = f / 2 ^ F.fractionBits / 2 ^ F.exponentBits := by
    unfold negative
    rw [Nat.mod_eq_of_lt hsign]
    obtain hzero | hone := Nat.le_one_iff_eq_zero_or_eq_one.mp (Nat.le_of_lt_succ hsign)
    · rw [hzero]
      rfl
    · rw [hone]
      rfl
  unfold pack exponent fraction
  rw [hbit, Nat.div_add_mod', Nat.div_add_mod']

theorem isFinite_pack (he : e < F.top) (hm : m < 2 ^ F.fractionBits) :
    IsFinite F (pack F s e m) := by
  have he' : e < 2 ^ F.exponentBits := Nat.lt_of_lt_of_le he (Nat.sub_le _ _)
  refine ⟨pack_lt he' hm, ?_⟩
  rw [exponent_pack he' hm]
  exact he

theorem significand_lt (F : Format) (f : ℕ) : significand F f < 2 ^ (F.fractionBits + 1) := by
  have hfraction := fraction_lt F f
  unfold significand
  rw [Nat.pow_succ]
  split <;> omega

/-! ## Signs -/

@[simp] theorem signed_zero (s : Bool) : signed s 0 = 0 := by cases s <;> rfl

theorem abs_signed (s : Bool) (m : ℕ) : |signed s m| = m := by
  cases s
  · exact Nat.abs_cast m
  · exact (abs_neg _).trans (Nat.abs_cast m)

theorem signed_mul (s : Bool) (m k : ℤ) : signed s (m * k) = signed s m * k := by
  cases s
  · rfl
  · exact (Int.neg_mul m k).symm

theorem signed_sub (s : Bool) (m k : ℤ) : signed s (m - k) = signed s m - signed s k := by
  cases s
  · rfl
  · simp only [signed, if_true]
    ring

/-- Every number is its magnitude with a sign. -/
theorem exists_signed (z : ℤ) : ∃ s, z = signed s z.natAbs := by
  obtain hz | hz := Int.natAbs_eq z
  · exact ⟨false, hz⟩
  · exact ⟨true, hz⟩

/-! ## Units -/

theorem unit_pos (F : Format) (e : ℤ) : 0 < unit F e := by
  unfold unit
  positivity

/-- A larger unit is so many smaller ones. -/
theorem unit_eq (F : Format) {d e : ℤ} (h : d ≤ e) :
    unit F e = ((2 ^ (e - d).toNat : ℕ) : ℚ) * unit F d := by
  have hexp : e - F.offset = ((e - d).toNat : ℤ) + (d - F.offset) := by omega
  unfold unit
  rw [hexp, zpow_add₀ (by decide), zpow_natCast, Nat.cast_pow, Nat.cast_ofNat]

theorem abs_value (F : Format) (f : ℕ) : |value F f| = significand F f * unit F (scale F f) := by
  unfold value
  rw [abs_mul, abs_of_pos (unit_pos F _), ← Int.cast_abs, abs_signed, Int.cast_natCast]

/-! ## The numbers of a format -/

/-- Every number of units with one bit more than the fraction is denoted. -/
theorem exists_value (s : Bool) : ∀ {e m : ℕ}, 1 ≤ e → e < F.top → m < 2 ^ (F.fractionBits + 1) →
    ∃ f, IsFinite F f ∧ value F f = signed s m * unit F e
  | e + 1, m, _, he, hm => by
    have he' : e + 1 < 2 ^ F.exponentBits := Nat.lt_of_lt_of_le he (Nat.sub_le _ _)
    obtain hlow | hhigh := Nat.lt_or_ge m (2 ^ F.fractionBits)
    · cases e with
      | zero =>
        -- below the first normal number
        have hpack := exponent_pack (s := s) (Nat.two_pow_pos F.exponentBits) hlow
        refine ⟨pack F s 0 m, isFinite_pack (by omega) hlow, ?_⟩
        unfold value significand scale
        rw [negative_pack (Nat.two_pow_pos _) hlow, hpack, fraction_pack hlow]
        rfl
      | succ e =>
        -- the leading bit is missing: twice as many of the next smaller unit
        obtain ⟨f, hf, hvalue⟩ :=
          exists_value s (e := e + 1) (m := 2 * m) (by omega) (by omega)
            (by rw [Nat.pow_succ]; omega)
        refine ⟨f, hf, ?_⟩
        have hunit := unit_eq F (d := ((e + 1 : ℕ) : ℤ)) (e := ((e + 1 + 1 : ℕ) : ℤ)) (by omega)
        have hone : (((e + 1 + 1 : ℕ) : ℤ) - ((e + 1 : ℕ) : ℤ)).toNat = 1 := by omega
        rw [hone] at hunit
        have htwice : signed s ((2 * m : ℕ) : ℤ) = signed s m * 2 := by
          rw [← signed_mul, Nat.cast_mul, Int.mul_comm]
          rfl
        rw [hvalue, hunit, htwice]
        push_cast
        ring
    · have hm' : m - 2 ^ F.fractionBits < 2 ^ F.fractionBits := by
        rw [Nat.pow_succ] at hm
        omega
      refine ⟨pack F s (e + 1) (m - 2 ^ F.fractionBits), isFinite_pack he hm', ?_⟩
      unfold value significand scale
      rw [negative_pack he' hm', exponent_pack he' hm', fraction_pack hm',
        if_neg (Nat.succ_ne_zero e), Nat.add_sub_cancel' hhigh,
        Nat.max_eq_left (by omega)]

/-- A number of units that a pattern denotes has one bit more than the fraction, or it is even and
of a unit below the last one. -/
theorem even_of_value {e : ℕ} {z : ℤ} (he : 1 ≤ e) (hf : IsFinite F f)
    (hvalue : value F f = z * unit F e) :
    |z| < 2 ^ (F.fractionBits + 1) ∨ 2 ∣ z ∧ e + 1 < F.top := by
  have hlt := significand_lt F f
  obtain hle | hgt := Nat.lt_or_ge e (scale F f)
  · -- the unit of the pattern is larger
    right
    have hunit := unit_eq F (d := (e : ℤ)) (e := (scale F f : ℤ)) (by omega)
    have hexp : ((scale F f : ℤ) - (e : ℤ)).toNat = scale F f - e - 1 + 1 := by omega
    have hz : (signed (negative F f) (significand F f) * 2 ^ (scale F f - e - 1 + 1 : ℕ) : ℤ) =
        z := by
      unfold value at hvalue
      rw [hunit, hexp, ← mul_assoc] at hvalue
      have hcancel := mul_right_cancel₀ (ne_of_gt (unit_pos F e)) hvalue
      exact_mod_cast hcancel
    constructor
    · rw [← hz, pow_succ, ← mul_assoc]
      exact Dvd.intro_left _ rfl
    · have hexponent := hf.exponent
      have hscale : scale F f = exponent F f ∨ scale F f = 1 := by
        unfold scale
        omega
      omega
  · -- the unit of the pattern is at most `e`, so its significand bounds `z`
    left
    have hunit := unit_eq F (d := (scale F f : ℤ)) (e := (e : ℤ)) (by omega)
    have hz : (signed (negative F f) (significand F f) : ℤ) =
        z * 2 ^ ((e : ℤ) - (scale F f : ℤ)).toNat := by
      unfold value at hvalue
      rw [hunit, ← mul_assoc] at hvalue
      have hcancel := mul_right_cancel₀ (ne_of_gt (unit_pos F (scale F f))) hvalue
      exact_mod_cast hcancel
    have habs : |z| ≤ significand F f :=
      calc |z| ≤ |z| * 2 ^ ((e : ℤ) - (scale F f : ℤ)).toNat :=
        le_mul_of_one_le_right (abs_nonneg z) (one_le_pow₀ (by decide))
        _ = |z * 2 ^ ((e : ℤ) - (scale F f : ℤ)).toNat| := by
          rw [abs_mul, abs_of_pos (pow_pos (by decide : (0 : ℤ) < 2) _)]
        _ = significand F f := by rw [← hz, abs_signed]
    calc |z| ≤ significand F f := habs
      _ < 2 ^ (F.fractionBits + 1) := by exact_mod_cast hlt

/-- **The numbers of a format.** A number of units with at most two bits more than the fraction is
denoted exactly if it has one bit more, or it is even and its unit is not the last one. -/
theorem exists_value_iff {e : ℕ} {z : ℤ} (he : 1 ≤ e) (htop : e < F.top)
    (hz : |z| < 2 ^ (F.fractionBits + 2)) :
    (∃ f, IsFinite F f ∧ value F f = z * unit F e) ↔ |z| < 2 ^ (F.fractionBits + 1) ∨ 2 ∣ z ∧
    e + 1 < F.top := by
  constructor
  · rintro ⟨f, hf, hvalue⟩
    exact even_of_value he hf hvalue
  · rintro (hlt | ⟨⟨k, rfl⟩, hlast⟩)
    · obtain ⟨s, hs⟩ := exists_signed z
      have hm : z.natAbs < 2 ^ (F.fractionBits + 1) := by
        rw [Int.abs_eq_natAbs] at hlt
        exact_mod_cast hlt
      rw [hs]
      exact exists_value s he htop hm
    · obtain ⟨s, hs⟩ := exists_signed k
      have hm : k.natAbs < 2 ^ (F.fractionBits + 1) := by
        rw [Int.abs_eq_natAbs, Int.natAbs_mul, pow_succ] at hz
        have hnat : 2 * k.natAbs < 2 ^ (F.fractionBits + 1) * 2 := by exact_mod_cast hz
        omega
      obtain ⟨f, hf, hvalue⟩ := exists_value s (e := e + 1) (by omega) hlast hm
      refine ⟨f, hf, ?_⟩
      have hunit := unit_eq F (d := (e : ℤ)) (e := ((e + 1 : ℕ) : ℤ)) (by omega)
      have hone : (((e + 1 : ℕ) : ℤ) - (e : ℤ)).toNat = 1 := by omega
      rw [hone] at hunit
      rw [hvalue, ← hs, hunit]
      push_cast
      ring

/-! ## Clearing low bits -/

theorem clear_add (k m s : ℕ) :
    (k * 2 ^ s + m) / 2 ^ s * 2 ^ s = k * 2 ^ s + m / 2 ^ s * 2 ^ s := by
  rw [Nat.add_comm, Nat.add_mul_div_right _ _ (Nat.two_pow_pos s), Nat.add_mul, Nat.add_comm]

/-- The low bits of a fraction are cleared; the other fields stay. -/
theorem clear_eq_pack {s : ℕ} (hs : s ≤ F.fractionBits) (hf : f < F.patterns) :
    f / 2 ^ s * 2 ^ s = pack F (negative F f) (exponent F f) (fraction F f / 2 ^ s * 2 ^ s) := by
  have hpow : 2 ^ F.fractionBits = 2 ^ (F.fractionBits - s) * 2 ^ s := by
    rw [← Nat.pow_add, Nat.sub_add_cancel hs]
  conv_lhs => rw [← pack_fields hf]
  unfold pack
  rw [hpow, ← Nat.mul_assoc, clear_add]

theorem clear_lt (F : Format) (f s : ℕ) : fraction F f / 2 ^ s * 2 ^ s < 2 ^ F.fractionBits :=
  Nat.lt_of_le_of_lt (Nat.div_mul_le_self _ _) (fraction_lt F f)

theorem isFinite_clear {s : ℕ} (hs : s ≤ F.fractionBits) (hf : IsFinite F f) :
    IsFinite F (f / 2 ^ s * 2 ^ s) := by
  rw [clear_eq_pack hs hf.lt]
  exact isFinite_pack hf.exponent (clear_lt F f s)

/-- The number of units loses its low bits. -/
theorem value_clear {s : ℕ} (hs : s ≤ F.fractionBits) (hf : IsFinite F f) :
    value F (f / 2 ^ s * 2 ^ s) = signed (negative F f)
      (significand F f / 2 ^ s * 2 ^ s : ℕ) * unit F (scale F f) := by
  have he : exponent F f < 2 ^ F.exponentBits := Nat.lt_of_lt_of_le hf.exponent (Nat.sub_le _ _)
  have hpow : 2 ^ F.fractionBits = 2 ^ (F.fractionBits - s) * 2 ^ s := by
    rw [← Nat.pow_add, Nat.sub_add_cancel hs]
  have hm : significand F (f / 2 ^ s * 2 ^ s) = significand F f / 2 ^ s * 2 ^ s := by
    unfold significand
    rw [clear_eq_pack hs hf.lt, exponent_pack he (clear_lt F f s), fraction_pack (clear_lt F f s)]
    split
    · rfl
    · rw [hpow, clear_add]
  have hscale : scale F (f / 2 ^ s * 2 ^ s) = scale F f := by
    unfold scale
    rw [clear_eq_pack hs hf.lt, exponent_pack he (clear_lt F f s)]
  have hsign : negative F (f / 2 ^ s * 2 ^ s) = negative F f := by
    rw [clear_eq_pack hs hf.lt, negative_pack he (clear_lt F f s)]
  unfold value
  rw [hm, hscale, hsign]

end BinaryFloat
