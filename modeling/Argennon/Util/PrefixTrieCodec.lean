import Argennon.Util.PrefixTrie

/- What the codes of a `PrefixTrie` are: those of `LevelCode` in base 256. No arithmetic of the
   tables and of the codec wraps. -/
namespace Argennon.PrefixTrie
open LevelCode
variable {size height : Nat} {t : PrefixTrie size height}

/-! ## Arithmetic of the template type -/

theorem two_pow_eight_mul (n : Nat) : 2 ^ (8 * n) = 256 ^ n := Nat.pow_mul 2 8 n

theorem shift_pow (size i : Nat) : 2 ^ shift size i = 256 ^ (size - i - 1) := by
  unfold shift
  rw [Nat.mul_comm]
  exact two_pow_eight_mul _

theorem wrap_of_lt {n : Nat} (h : n < 256 ^ size) : wrap size n = n := by
  unfold wrap
  rw [two_pow_eight_mul]
  exact Nat.mod_eq_of_lt h

/-- A difference that is a number of the type, whatever has wrapped before. -/
theorem sub_wrap {a b : Nat} (hb : b < 256 ^ size) (hle : b ≤ a) (hlt : a - b < 256 ^ size) :
    sub size (wrap size a) b = a - b := by
  unfold sub wrap
  rw [two_pow_eight_mul]
  obtain ha | ha := Nat.lt_or_ge a (256 ^ size)
  · have heq : a + 256 ^ size - b = a - b + 256 ^ size := by omega
    rw [Nat.mod_eq_of_lt ha, heq, Nat.add_mod_right, Nat.mod_eq_of_lt hlt]
  · have hmod : a % 256 ^ size = a - 256 ^ size := by
      rw [Nat.mod_eq_sub_mod ha, Nat.mod_eq_of_lt (by omega)]
    have heq : a - 256 ^ size + 256 ^ size - b = a - b := by omega
    rw [hmod, heq, Nat.mod_eq_of_lt hlt]

theorem sub_of_le {a b : Nat} (ha : a < 256 ^ size) (hle : b ≤ a) : sub size a b = a - b := by
  have h : sub size (wrap size a) b = a - b := sub_wrap (Nat.lt_of_le_of_lt hle ha) hle (by omega)
  rwa [wrap_of_lt ha] at h

/-! ## The tables -/

/-- The tables of a trie that the constructor accepts. -/
structure Accepted (t : PrefixTrie size height) : Prop where
  fits : height ≤ size
  trie_lt : ∀ i < height, t.trie i < 256 ^ (i + 1)
  grows : Grows 256 t.trie height
  boundary : ∀ i < height, t.boundary i = t.trie i * 256 ^ (size - i - 1)
  sum : ∀ i < height, t.sum i = total 256 t.trie i

theorem masked_eq {i : Nat} (h : i < size) (n : Nat) :
    n &&& ((2 ^ (8 * size) - 1) >>> shift size i) = n % 256 ^ (i + 1) := by
  have hmask : (2 ^ (8 * size) - 1) >>> shift size i = 2 ^ (8 * (i + 1)) - 1 := by
    have hsize : 8 * size = 8 * (i + 1) + shift size i := by
      unfold shift
      omega
    rw [Nat.shiftRight_eq_div_pow, hsize, Nat.pow_add]
    have hpos := Nat.two_pow_pos (shift size i)
    have hpos' := Nat.two_pow_pos (8 * (i + 1))
    rw [Nat.div_eq_iff hpos]
    obtain ⟨m, hm⟩ : ∃ m, 2 ^ (8 * (i + 1)) = m + 1 := ⟨_, (Nat.succ_pred_eq_of_pos hpos').symm⟩
    rw [hm, Nat.add_sub_cancel, Nat.add_mul]
    omega
  rw [hmask, Nat.and_two_pow_sub_one_eq_mod, two_pow_eight_mul]

theorem boundary_eq {i : Nat} (h : i < size) (n : Nat) :
    wrap size (n <<< shift size i) = n % 256 ^ (i + 1) * 256 ^ (size - i - 1) := by
  have hsize : 256 ^ size = 256 ^ (i + 1) * 256 ^ (size - i - 1) := by
    rw [← Nat.pow_add]
    congr 1
    omega
  unfold wrap
  rw [two_pow_eight_mul, Nat.shiftLeft_eq, shift_pow, hsize, Nat.mul_mod_mul_right]

theorem pow_le_pow {i j : Nat} (h : i ≤ j) : 256 ^ i ≤ 256 ^ j := Nat.pow_le_pow_right (by decide) h

theorem sumTable_eq {trie : Nat → Nat} (hfits : height ≤ size)
    (hlt : ∀ i < height, trie i < 256 ^ (i + 1))
    (hgrows : Grows 256 trie height) :
    ∀ {i : Nat}, i < height → sumTable size trie i = total 256 trie i
  | 0, _ => rfl
  | i + 1, hi => by
    have hprev := sumTable_eq hfits hlt hgrows (Nat.lt_of_succ_lt hi)
    have hnext := hgrows i hi
    have hle : trie (i + 1) < 256 ^ size :=
      Nat.lt_of_lt_of_le (hlt (i + 1) hi) (pow_le_pow (by omega))
    have htotal := total_le (by decide) hgrows hi
    have hshift : trie i <<< 8 = 256 * trie i := by
      rw [Nat.shiftLeft_eq]
      exact Nat.mul_comm _ _
    rw [total] at htotal
    have hwrap : wrap size (256 * trie i) = 256 * trie i := wrap_of_lt (by omega)
    rw [sumTable, total, hprev, hshift, hwrap, sub_wrap (by omega) (by omega) (by omega)]
    omega

/-- What the constructor has checked. -/
theorem accepted_of_make {trie : Nat → Nat} (hfits : height ≤ size)
    (h : make size height trie = .ok t) : Accepted t := by
  unfold make at h
  simp only at h
  split at h
  · cases h
  · rename_i hsorted
    have hmasked : ∀ i < height, trie i &&& ((2 ^ (8 * size) - 1) >>> shift size i) =
        trie i % 256 ^ (i + 1) :=
      fun i hi => masked_eq (by omega) _
    obtain rfl := Except.ok.inj h
    have hlt : ∀ i < height, trie i &&& ((2 ^ (8 * size) - 1) >>> shift size i) <
        256 ^ (i + 1) := by
      intro i hi
      rw [hmasked i hi]
      exact Nat.mod_lt _ (Nat.pow_pos (by decide))
    have hboundary : ∀ i < height, wrap size (trie i <<< shift size i) =
        (trie i &&& ((2 ^ (8 * size) - 1) >>> shift size i)) * 256 ^ (size - i - 1) := by
      intro i hi
      rw [hmasked i hi, boundary_eq (by omega)]
    have hgrows : Grows 256 (fun i => trie i &&& ((2 ^ (8 * size) - 1) >>> shift size i))
        height := by
      intro i hi
      have hle : ¬ wrap size (trie i <<< shift size i) >
          wrap size (trie (i + 1) <<< shift size (i + 1)) := fun hgt =>
        hsorted ⟨i + 1, hi, Nat.succ_pos i, hgt⟩
      rw [hboundary i (by omega), hboundary (i + 1) hi] at hle
      have hpow : 256 ^ (size - i - 1) = 256 * 256 ^ (size - (i + 1) - 1) := by
        rw [← Nat.pow_succ']
        congr 1
        omega
      rw [hpow, ← Nat.mul_assoc, Nat.mul_comm _ 256] at hle
      exact Nat.le_of_mul_le_mul_right (Nat.not_lt.mp hle) (Nat.pow_pos (by decide))
    exact ⟨hfits, hlt, hgrows, hboundary, fun i hi => sumTable_eq hfits hlt hgrows hi⟩

/-! ## Encoding -/

/-- The values that have a code. -/
def capacity (t : PrefixTrie size height) : Nat := t.sum (height - 1)

theorem total_le_of_atLevel {k i v : Nat} (hv : AtLevel 256 t.trie k v) (hi : i < k) :
    total 256 t.trie i ≤ v := by
  have hbefore := hv.before
  cases k with
  | zero => omega
  | succ k => exact Nat.le_trans (total_mono 256 t.trie (Nat.le_of_lt_succ hi)) hbefore

section
variable (h : Accepted t)
include h

/-- A value below the capacity is at one level. -/
theorem Accepted.exists_level {v : Nat} (hpos : 0 < height) (hv : v < t.capacity) :
    ∃ k < height, AtLevel 256 t.trie k v := by
  unfold capacity at hv
  rw [h.sum (height - 1) (by omega)] at hv
  have hex : ∃ k, v < total 256 t.trie k := ⟨_, hv⟩
  have hle : Nat.find hex ≤ height - 1 := Nat.find_min' hex hv
  refine ⟨Nat.find hex, by omega, ?_, Nat.find_spec hex⟩
  cases hk : Nat.find hex with
  | zero => exact Nat.zero_le _
  | succ k => exact Nat.not_lt.mp (Nat.find_min hex (hk ▸ Nat.lt_succ_self k))

theorem Accepted.code_lt {k v : Nat} (hk : k < height) (hv : AtLevel 256 t.trie k v) :
    code 256 t.trie k v * 256 ^ (size - k - 1) < 256 ^ size := by
  have hfits := h.fits
  have hcode := (code_bounds (by decide) h.grows hk hv).2
  have htrie := h.trie_lt k hk
  calc code 256 t.trie k v * 256 ^ (size - k - 1) < 256 ^ (k + 1) * 256 ^ (size - k - 1) :=
        Nat.mul_lt_mul_of_pos_right (by omega) (Nat.pow_pos (by decide))
    _ = 256 ^ size := by
      rw [← Nat.pow_add]
      congr 1
      omega

/-- A value is encoded at its level. -/
theorem Accepted.encodeVarUInt_eq {k v : Nat} (hk : k < height) (hv : AtLevel 256 t.trie k v) :
    t.encodeVarUInt v = .ok (code 256 t.trie k v * 256 ^ (size - k - 1), k + 1) := by
  have hfits := h.fits
  have hloop : ∀ n i, i + n = height → i ≤ k →
      t.encodeLoop v n i = .ok (code 256 t.trie k v * 256 ^ (size - k - 1), k + 1) := by
    intro n
    induction n with
    | zero => omega
    | succ n ih =>
      intro i hn hik
      have hsum := h.sum i (by omega)
      unfold encodeLoop
      obtain rfl | hlt := Nat.eq_or_lt_of_le hik
      · have htrie : t.trie i < 256 ^ size :=
          Nat.lt_of_lt_of_le (h.trie_lt i hk) (pow_le_pow (by omega))
        have htotal := total_le (by decide) h.grows hk
        have hbelow := hv.below
        have hsub : sub size (t.trie i) (sub size (t.sum i) v) = code 256 t.trie i v := by
          rw [hsum, sub_of_le (a := total 256 t.trie i) (by omega) (by omega),
            sub_of_le htrie (by omega)]
          rfl
        rw [if_pos (hsum ▸ hbelow)]
        simp only [hsub, Nat.shiftLeft_eq, shift_pow]
        rw [wrap_of_lt (h.code_lt hk hv)]
      · rw [if_neg (by rw [hsum]; exact Nat.not_lt.mpr (total_le_of_atLevel hv hlt))]
        exact ih (i + 1) (by omega) hlt
  exact hloop height 0 (by omega) (Nat.zero_le k)

theorem Accepted.lt_capacity {k v : Nat} (hk : k < height) (hv : AtLevel 256 t.trie k v) :
    v < t.capacity := by
  unfold capacity
  rw [h.sum (height - 1) (by omega)]
  exact Nat.lt_of_lt_of_le hv.below (total_mono 256 t.trie (by omega))

/-- Other values have no code. -/
theorem Accepted.encodeVarUInt_error {v : Nat} (hpos : 0 < height) (hv : t.capacity ≤ v) :
    t.encodeVarUInt v = .error (.overflowError "encodeVarUInt: value too large") := by
  unfold capacity at hv
  rw [h.sum (height - 1) (by omega)] at hv
  have hloop : ∀ n i, i + n = height →
      t.encodeLoop v n i = .error (.overflowError "encodeVarUInt: value too large") := by
    intro n
    induction n with
    | zero => exact fun _ _ => rfl
    | succ n ih =>
      intro i hn
      have hle := Nat.le_trans (total_mono 256 t.trie (by omega : i ≤ height - 1)) hv
      unfold encodeLoop
      rw [if_neg (by rw [h.sum i (by omega)]; exact Nat.not_lt.mpr hle)]
      exact ih (i + 1) (by omega)
  exact hloop height 0 (by omega)

end

/-! ## Bytes -/

/-- The bytes of the digits of `c` from digit `i` of `k + 1`. -/
def digitBytes (c k i : Nat) : List Byte :=
  (List.range' i (k + 1 - i)).map fun j => UInt8.ofNat (c / 256 ^ (k - j))

theorem digitBytes_cons {c k i : Nat} (hi : i ≤ k) :
    digitBytes c k i = UInt8.ofNat (c / 256 ^ (k - i)) :: digitBytes c k (i + 1) := by
  unfold digitBytes
  have hlen : k + 1 - i = k + 1 - (i + 1) + 1 := by omega
  rw [hlen, List.range'_succ, List.map_cons]

theorem digitBytes_length (c k : Nat) : (digitBytes c k 0).length = k + 1 := by
  simp [digitBytes]

theorem writeBigEndian_eq {c k : Nat} (hk : k < size) :
    writeBigEndian size (c * 256 ^ (size - k - 1)) (k + 1) = digitBytes c k 0 := by
  unfold writeBigEndian digitBytes
  rw [List.range_eq_range']
  apply List.map_congr_left
  intro i hi
  have hi : i ≤ k := by
    have := List.mem_range'.mp hi
    omega
  have hpow : 256 ^ (size - i - 1) = 256 ^ (k - i) * 256 ^ (size - k - 1) := by
    rw [← Nat.pow_add]
    congr 1
    omega
  rw [Nat.shiftRight_eq_div_pow, shift_pow, hpow,
    Nat.mul_div_mul_right _ _ (Nat.pow_pos (by decide))]

/-- The next digit of a code. -/
theorem or_byte {i p : Nat} (hi : i < size) (byte : Byte) :
    p * 256 ^ (size - i) ||| wrap size (byte.toNat <<< shift size i) =
    (256 * p + byte.toNat) * 256 ^ (size - i - 1) := by
  have hbyte : byte.toNat < 256 := byte.toNat_lt
  have hpow : 256 ^ (size - i) = 256 * 256 ^ (size - i - 1) := by
    rw [← Nat.pow_succ']
    congr 1
    omega
  have hlt : byte.toNat * 256 ^ (size - i - 1) < 256 ^ (size - i) := by
    rw [hpow]
    exact Nat.mul_lt_mul_of_pos_right hbyte (Nat.pow_pos (by decide))
  have hwrap : wrap size (byte.toNat <<< shift size i) = byte.toNat * 256 ^ (size - i - 1) := by
    rw [Nat.shiftLeft_eq, shift_pow, wrap_of_lt (Nat.lt_of_lt_of_le hlt (pow_le_pow (by omega)))]
  rw [hwrap, ← two_pow_eight_mul, Nat.mul_comm p,
    ← Nat.two_pow_add_eq_or_of_lt (by rw [two_pow_eight_mul]; exact hlt),
    two_pow_eight_mul, hpow]
  ring

theorem ofNat_digit (p : Nat) (byte : Byte) : UInt8.ofNat (256 * p + byte.toNat) = byte := by
  apply UInt8.toNat_inj.mp
  have hbyte : byte.toNat < 256 := byte.toNat_lt
  rw [UInt8.toNat_ofNat']
  omega

theorem div_pow_succ (c n : Nat) : c / 256 ^ (n + 1) = c / 256 ^ n / 256 := by
  rw [Nat.pow_succ, Nat.div_div_eq_div_mul]

theorem lt_boundary_iff (h : Accepted t) {i q : Nat} (hi : i < height) :
    q * 256 ^ (size - i - 1) < t.boundary i ↔ q < t.trie i := by
  rw [h.boundary i hi]
  exact Nat.mul_lt_mul_right (Nat.pow_pos (by decide))

/-- A code that is written is read, if its bytes may be read. -/
theorem Accepted.readLoop_eq (h : Accepted t) {k c : Nat} (hk : k < height)
    (hstart : start 256 t.trie k ≤ c) (hc : c < t.trie k)
    (rest : List Byte) : ∀ m i n, i + m = k → m + 1 ≤ n →
      t.readLoop n i (c / 256 ^ (k + 1 - i) * 256 ^ (size - i))
        (digitBytes c k i ++ rest) = .ok (c * 256 ^ (size - k - 1), k + 1) := by
  have hfits := h.fits
  intro m
  induction m with
  | zero =>
    intro i n hi hn
    -- the last byte: the code is below the boundary of its level
    obtain rfl : i = k := by omega
    obtain ⟨n, rfl⟩ : ∃ n', n = n' + 1 := ⟨n - 1, by omega⟩
    have hdigit : 256 * (c / 256 ^ (i + 1 - i)) + (UInt8.ofNat (c / 256 ^ (i - i))).toNat = c := by
      rw [Nat.add_sub_cancel_left, Nat.sub_self, UInt8.toNat_ofNat']
      omega
    rw [digitBytes_cons (Nat.le_refl i), List.cons_append]
    unfold readLoop
    simp only [or_byte (by omega : i < size), hdigit]
    rw [if_pos ((lt_boundary_iff h hk).mpr hc)]
  | succ m ih =>
    intro i n hi hn
    obtain ⟨n, rfl⟩ : ∃ n', n = n' + 1 := ⟨n - 1, by omega⟩
    have hexp : k + 1 - i = k - i + 1 := by omega
    have hdigit : 256 * (c / 256 ^ (k + 1 - i)) + (UInt8.ofNat (c / 256 ^ (k - i))).toNat =
        c / 256 ^ (k - i) := by
      rw [hexp, div_pow_succ, UInt8.toNat_ofNat']
      omega
    -- an earlier byte: the prefix of the code is not below the boundary of its level
    have hpass : t.trie i ≤ c / 256 ^ (k - i) :=
      boundary_le_prefix (by decide) h.grows hk (by omega) hstart
    rw [digitBytes_cons (by omega), List.cons_append]
    unfold readLoop
    simp only [or_byte (by omega : i < size), hdigit]
    rw [if_neg (by rw [lt_boundary_iff h (by omega)]; omega)]
    have hnext := ih (i + 1) n (by omega) (by omega)
    have hexp' : k + 1 - (i + 1) = k - i := by omega
    rw [hexp', ← Nat.sub_sub] at hnext
    exact hnext

/-- What is read is a code, written in the bytes that are read. -/
theorem Accepted.readLoop_ok (h : Accepted t) :
    ∀ {n i p : Nat} {binary : List Byte} {code len : Nat}, i + n ≤ height →
    start 256 t.trie i ≤ 256 * p → t.readLoop n i (p * 256 ^ (size - i)) binary = .ok (code, len) →
    ∃ k c, len = k + 1 ∧ i ≤ k ∧ k < i + n ∧ code = c * 256 ^ (size - k - 1) ∧
      start 256 t.trie k ≤ c ∧ c < t.trie k ∧
      c / 256 ^ (k + 1 - i) = p ∧ digitBytes c k i <+: binary
  | 0, _, _, _, _, _, _, _, hread => by cases hread
  | n + 1, _, _, [], _, _, _, _, hread => by cases hread
  | n + 1, i, p, byte :: binary, code, len, hn, hp, hread => by
    have hfits := h.fits
    have hbyte : byte.toNat < 256 := byte.toNat_lt
    have hdigit : UInt8.ofNat (256 * p + byte.toNat) = byte := ofNat_digit p byte
    unfold readLoop at hread
    simp only [or_byte (by omega : i < size)] at hread
    split at hread
    · rename_i hlt
      -- the loop ends at level `i`
      obtain ⟨rfl, rfl⟩ := Prod.mk.inj (Except.ok.inj hread)
      refine ⟨i, 256 * p + byte.toNat, rfl, Nat.le_refl i,
        by omega, rfl, by omega, (lt_boundary_iff h (by omega)).mp hlt, ?_, ?_⟩
      · rw [Nat.add_sub_cancel_left, Nat.pow_one]
        omega
      · rw [digitBytes_cons (Nat.le_refl i), Nat.sub_self, Nat.pow_zero, Nat.div_one, hdigit]
        have hnil : digitBytes (256 * p + byte.toNat) i (i + 1) = [] := by simp [digitBytes]
        rw [hnil]
        exact ⟨binary, rfl⟩
    · rename_i hnot
      -- the loop goes on: the prefix read so far starts at the next level
      rw [lt_boundary_iff h (by omega)] at hnot
      rw [Nat.sub_sub] at hread
      obtain ⟨k, c, hlen, hik, hkn, hcode, hstart, hc, hprefix, hbytes⟩ :=
        Accepted.readLoop_ok h (by omega) (by rw [start]; omega) hread
      have hexp : k + 1 - (i + 1) = k - i := by omega
      have hexp' : k + 1 - i = k - i + 1 := by omega
      rw [hexp] at hprefix
      refine ⟨k, c, hlen, by omega, by omega, hcode, hstart, hc, ?_, ?_⟩
      · rw [hexp', div_pow_succ, hprefix]
        omega
      · rw [digitBytes_cons (by omega), hprefix, hdigit]
        exact (List.prefix_cons_inj byte).mpr hbytes

/-- The value of a code. -/
theorem Accepted.value_eq (h : Accepted t) {k c : Nat} (hk : k < height)
    (hstart : start 256 t.trie k ≤ c) (hc : c < t.trie k) :
    sub size (wrap size (t.sum k + (c * 256 ^ (size - k - 1)) >>> ((size - (k + 1)) * 8)))
      (t.trie k) = value 256 t.trie k c := by
  have hfits := h.fits
  have htotal := total_eq h.grows hk
  have hle := total_le (by decide) h.grows hk
  have htrie : t.trie k < 256 ^ size := Nat.lt_of_lt_of_le (h.trie_lt k hk) (pow_le_pow (by omega))
  have hcode : (c * 256 ^ (size - k - 1)) >>> ((size - (k + 1)) * 8) = c := by
    rw [Nat.shiftRight_eq_div_pow, Nat.mul_comm _ 8, two_pow_eight_mul, Nat.sub_sub]
    exact Nat.mul_div_cancel _ (Nat.pow_pos (by decide))
  rw [hcode, h.sum k hk, sub_wrap htrie (by omega) (by omega)]
  rfl

/-- A code that is written is decoded, if all of it may be read. -/
theorem Accepted.decodeVarUInt_eq (h : Accepted t) {k v : Nat} (hk : k < height)
    (hv : AtLevel 256 t.trie k v) (rest : List Byte)
    {maxLength : Int} (hmax : (k : Int) + 1 ≤ maxLength) :
    t.decodeVarUInt (digitBytes (code 256 t.trie k v) k 0 ++ rest) maxLength = .ok (v, k + 1) := by
  obtain ⟨hstart, hc⟩ := code_bounds (by decide) h.grows hk hv
  have hread : t.readPrefixCode (digitBytes (code 256 t.trie k v) k 0 ++ rest) maxLength =
      .ok (code 256 t.trie k v * 256 ^ (size - k - 1), k + 1) := by
    have hzero : code 256 t.trie k v / 256 ^ (k + 1 - 0) * 256 ^ (size - 0) = 0 := by
      rw [Nat.sub_zero, Nat.div_eq_of_lt (Nat.lt_trans hc (h.trie_lt k hk)), Nat.zero_mul]
    unfold readPrefixCode
    simp only
    have hloop := h.readLoop_eq hk hstart hc rest k 0 (if maxLength >
      height then (height : Int) else maxLength).toNat
      (Nat.zero_add k) (by split <;> omega)
    rw [hzero] at hloop
    exact hloop
  unfold decodeVarUInt
  rw [hread]
  change Except.ok (sub size (wrap size (t.sum k + _ >>> ((size - (k + 1)) * 8)))
    (t.trie k), k + 1) = _
  rw [h.value_eq hk hstart hc, value_code (by decide) h.grows hk hv]

/-- What is decoded has its code in the bytes that are read. -/
theorem Accepted.decodeVarUInt_ok (h : Accepted t) {binary : List Byte}
    {maxLength : Int} {v n : Nat}
    (hdecode : t.decodeVarUInt binary maxLength = .ok (v, n)) :
    ∃ k < height, AtLevel 256 t.trie k v ∧ n = k + 1 ∧
      digitBytes (code 256 t.trie k v) k 0 <+: binary ∧ (k : Int) + 1 ≤ maxLength := by
  unfold decodeVarUInt at hdecode
  obtain ⟨⟨id, len⟩, hread, hvalue⟩ := bind_ok.mp hdecode
  unfold readPrefixCode at hread
  simp only at hread
  have hbound : 0 + (if maxLength > height then (height : Int) else maxLength).toNat ≤ height := by
    split <;> omega
  have hread : t.readLoop (if maxLength > height then (height : Int) else maxLength).toNat 0
      (0 * 256 ^ (size - 0)) binary =
        .ok (id, len) := by
    rw [Nat.zero_mul]
    exact hread
  obtain ⟨k, c, rfl, -, hk, rfl, hstart, hc, -, hbytes⟩ :=
    h.readLoop_ok hbound (Nat.zero_le _) hread
  have hmax : (k : Int) + 1 ≤ maxLength := by split at hk <;> omega
  have hk : k < height := by omega
  change Except.ok
    (sub size (wrap size (t.sum k + _ >>> ((size - (k + 1)) * 8))) (t.trie k), k + 1) = _ at hvalue
  rw [h.value_eq hk hstart hc] at hvalue
  obtain ⟨rfl, rfl⟩ := Prod.mk.inj (Except.ok.inj hvalue)
  refine ⟨k, hk, value_bounds h.grows hk hstart hc, rfl, ?_, hmax⟩
  rw [code_value h.grows hk hstart hc]
  exact hbytes

/-! ## Numbers in a stream -/

/-- The bytes that `writeBigEndian` writes for a value. -/
def codeBytes (t : PrefixTrie size height) (value : Nat) : List Byte :=
  match t.encodeVarUInt value with
  | .ok (code, n) => writeBigEndian size code n
  | .error _ => []

theorem Accepted.codeBytes_eq (h : Accepted t) {k v : Nat} (hk : k < height)
    (hv : AtLevel 256 t.trie k v) :
    t.codeBytes v = digitBytes (code 256 t.trie k v) k 0 := by
  have hfits := h.fits
  unfold codeBytes
  rw [h.encodeVarUInt_eq hk hv]
  exact writeBigEndian_eq (by omega)

theorem Accepted.codeBytes_ne_nil (h : Accepted t) (hpos : 0 < height) {v : Nat}
    (hv : v < t.capacity) : t.codeBytes v ≠ [] := by
  obtain ⟨k, hk, hlevel⟩ := h.exists_level hpos hv
  apply List.ne_nil_of_length_pos
  rw [h.codeBytes_eq hk hlevel, digitBytes_length]
  exact Nat.succ_pos k

/-- A number is read exactly where its bytes stand, if the distance to the end, as an `int`,
is not shorter. -/
theorem Accepted.decodeVarUIntAt_iff (h : Accepted t) (hpos : 0 < height)
    {reader next : List Byte} {v : Nat} :
    t.decodeVarUIntAt reader = .ok (v, next) ↔
      v < t.capacity ∧ reader = t.codeBytes v ++ next ∧
        ((t.codeBytes v).length : Int) ≤ toInt reader.length := by
  constructor
  · intro hread
    unfold decodeVarUIntAt at hread
    obtain ⟨⟨v', len⟩, hdecode, hread⟩ := bind_ok.mp hread
    obtain ⟨rfl, rfl⟩ := Prod.mk.inj (Except.ok.inj hread)
    obtain ⟨k, hk, hv, rfl, hbytes, hmax⟩ := h.decodeVarUInt_ok hdecode
    rw [h.codeBytes_eq hk hv, digitBytes_length]
    refine ⟨h.lt_capacity hk hv, ?_, by exact_mod_cast hmax⟩
    obtain ⟨next, rfl⟩ := hbytes
    rw [List.drop_left' (digitBytes_length _ k)]
  · rintro ⟨hv, rfl, hmax⟩
    obtain ⟨k, hk, hlevel⟩ := h.exists_level hpos hv
    rw [h.codeBytes_eq hk hlevel] at hmax ⊢
    rw [digitBytes_length] at hmax
    unfold decodeVarUIntAt
    rw [h.decodeVarUInt_eq hk hlevel next (by exact_mod_cast hmax)]
    change Except.ok (v, (digitBytes (code 256 t.trie k v) k 0 ++ next).drop (k + 1)) = _
    rw [List.drop_left' (digitBytes_length _ k)]

/-- No code is the beginning of another one. -/
theorem Accepted.codeBytes_append_inj (h : Accepted t) (hpos : 0 < height) {v v' : Nat}
    {rest rest' : List Byte} (hv : v < t.capacity)
    (hv' : v' < t.capacity) (heq : t.codeBytes v ++ rest = t.codeBytes v' ++ rest') :
    v = v' ∧ rest = rest' := by
  obtain ⟨k, hk, hlevel⟩ := h.exists_level hpos hv
  obtain ⟨k', hk', hlevel'⟩ := h.exists_level hpos hv'
  have hread := h.decodeVarUInt_eq hk hlevel rest (show (k : Int) + 1 ≤ height by omega)
  have hread' := h.decodeVarUInt_eq hk' hlevel' rest' (show (k' : Int) + 1 ≤ height by omega)
  rw [← h.codeBytes_eq hk hlevel, heq, h.codeBytes_eq hk' hlevel', hread'] at hread
  obtain rfl := (Prod.mk.inj (Except.ok.inj hread)).1
  exact ⟨rfl, List.append_cancel_left heq⟩

/-! ## Streams -/

/-- The number of bytes that a value takes. -/
def codeLength (t : PrefixTrie size height) (v : Nat) : Nat :=
  (List.range height).countP (fun i => t.sum i ≤ v) + 1

/-- The number of bytes that the values take. -/
def streamLength (t : PrefixTrie size height) (values : List Nat) : Nat :=
  (values.map t.codeLength).sum

theorem countP_range_lt (k : Nat) : ∀ n, (List.range n).countP (fun i => i < k) = min n k
  | 0 => by simp
  | n + 1 => by
    rw [List.range_succ, List.countP_append, countP_range_lt k n]
    simp only [List.countP_cons, List.countP_nil, decide_eq_true_eq]
    split <;> omega

theorem Accepted.codeLength_eq (h : Accepted t) {k v : Nat} (hk : k < height)
    (hv : AtLevel 256 t.trie k v) :
    t.codeLength v = k + 1 := by
  have hcount : (List.range height).countP (fun i => t.sum i ≤ v) =
      (List.range height).countP (fun i => i < k) := by
    apply List.countP_congr
    intro i hi
    have hi := List.mem_range.mp hi
    rw [decide_eq_true_eq, decide_eq_true_eq, h.sum i hi]
    constructor
    · intro hle
      by_contra hnot
      have := total_mono 256 t.trie (Nat.not_lt.mp hnot)
      have := hv.below
      omega
    · exact total_le_of_atLevel hv
  unfold codeLength
  rw [hcount, countP_range_lt]
  omega

theorem toInt_of_lt {n : Nat} (hlt : n < 2 ^ 31) : toInt n = n := by
  unfold toInt
  rw [Nat.mod_eq_of_lt (by omega), if_pos hlt]

/-- A longer distance is not that of an `int`: it is not positive just below the next multiple. -/
theorem toInt_nonpos {n : Nat} (hn : 2 ^ 31 ≤ n) (hle : n ≤ 2 ^ 32) : toInt n ≤ 0 := by
  unfold toInt
  split <;> omega

/-- The values that are written are read in the order they were written, if there are fewer than `2
^ 31` bytes. -/
theorem Accepted.encodeAll_ok (h : Accepted t) (hpos : 0 < height) :
    ∀ {values : List Nat}, (∀ v ∈ values, v < t.capacity) →
    ∃ bytes, t.encodeAll values = .ok bytes ∧ bytes.length = t.streamLength values ∧
      (bytes.length < 2 ^ 31 → t.decodeAll values.length bytes = .ok (values, []))
  | [], _ => ⟨[], rfl, rfl, fun _ => rfl⟩
  | v :: values, hvalues => by
    have hfits := h.fits
    obtain ⟨k, hk, hv⟩ := h.exists_level hpos (hvalues v List.mem_cons_self)
    obtain ⟨bytes, hencode, hlength, hdecode⟩ :=
      h.encodeAll_ok hpos fun v' hv' => hvalues v' (List.mem_cons_of_mem _ hv')
    have hwrite := writeBigEndian_eq (c := code 256 t.trie k v) (by omega : k < size)
    refine ⟨digitBytes (code 256 t.trie k v) k 0 ++ bytes, ?_, ?_, fun hlt => ?_⟩
    · unfold encodeAll
      rw [h.encodeVarUInt_eq hk hv, hencode]
      change Except.ok (writeBigEndian size _ (k + 1) ++ bytes) = _
      rw [hwrite]
    · rw [List.length_append, digitBytes_length, hlength]
      unfold streamLength
      rw [List.map_cons, List.sum_cons, h.codeLength_eq hk hv]
    · have htotal : (digitBytes (code 256 t.trie k v) k 0 ++ bytes).length =
          k + 1 + bytes.length := by
        rw [List.length_append, digitBytes_length]
      have hread : t.decodeVarUIntAt (digitBytes (code 256 t.trie k v) k 0 ++ bytes) =
          .ok (v, bytes) := by
        unfold decodeVarUIntAt
        rw [toInt_of_lt (by omega), h.decodeVarUInt_eq hk hv bytes (by omega)]
        change Except.ok (v, (digitBytes (code 256 t.trie k v) k 0 ++ bytes).drop (k + 1)) = _
        rw [List.drop_left' (digitBytes_length _ k)]
      rw [List.length_cons]
      unfold decodeAll
      exact bind_ok.mpr ⟨_, hread, bind_ok.mpr ⟨_, hdecode (by omega), rfl⟩⟩

/-- A reader that is `2 ^ 31` bytes or more before the end has to be `2 ^ 32` bytes before it to
read a value. -/
theorem Accepted.decodeVarUIntAt_far (h : Accepted t) {reader next : List Byte} {v : Nat}
    (hfar : 2 ^ 31 ≤ reader.length)
    (hread : t.decodeVarUIntAt reader = .ok (v, next)) :
    2 ^ 32 < reader.length ∧ reader.length ≤ next.length + height := by
  unfold decodeVarUIntAt at hread
  obtain ⟨⟨v', len⟩, hdecode, hread⟩ := bind_ok.mp hread
  obtain ⟨-, rfl⟩ := Prod.mk.inj (Except.ok.inj hread)
  obtain ⟨k, hk, -, rfl, -, hmax⟩ := h.decodeVarUInt_ok hdecode
  constructor
  · by_contra hnear
    have hle := toInt_nonpos hfar (Nat.not_lt.mp hnear)
    omega
  · simp only [List.length_drop]
    omega

/-- Such a reader does not come to the end. -/
theorem Accepted.decodeAll_far (h : Accepted t) (hheight : height ≤ 8) (n : Nat) :
    ∀ {reader rest : List Byte} {values : List Nat},
    2 ^ 31 ≤ reader.length → t.decodeAll n reader = .ok (values, rest) → 2 ^ 31 ≤ rest.length := by
  induction n with
  | zero =>
    intro reader rest values hfar hdecode
    obtain ⟨-, rfl⟩ := Prod.mk.inj (Except.ok.inj hdecode)
    exact hfar
  | succ n ih =>
    intro reader rest values hfar hdecode
    unfold decodeAll at hdecode
    obtain ⟨⟨v, next⟩, hread, hdecode⟩ := bind_ok.mp hdecode
    obtain ⟨⟨values', rest'⟩, hall, hdecode⟩ := bind_ok.mp hdecode
    obtain ⟨-, rfl⟩ := Prod.mk.inj (Except.ok.inj hdecode)
    obtain ⟨hlong, hnext⟩ := h.decodeVarUIntAt_far hfar hread
    exact ih (by omega) hall

/-! ## The codec -/

/-- What the codec is for: streams of values, and codes that are in the order of the values. -/
structure CodecSound (t : PrefixTrie size height) (values : List Nat) : Prop where
  roundTrip : ∃ bytes, t.encodeAll values = .ok bytes ∧
    t.decodeAll values.length bytes = .ok (values, [])
  increasing : ∀ {v v' code code' n n'}, t.encodeVarUInt v = .ok (code, n) →
    t.encodeVarUInt v' = .ok (code', n') → v < v' → code < code'
  encodes : ∀ v, v < t.capacity → ∃ code n, t.encodeVarUInt v = .ok (code, n)
  throws : ∀ v, t.capacity ≤ v →
    t.encodeVarUInt v = .error (.overflowError "encodeVarUInt: value too large")
  reencodes : ∀ {binary maxLength v n}, t.decodeVarUInt binary maxLength = .ok (v, n) →
    ∃ code, t.encodeVarUInt v = .ok (code, n) ∧ writeBigEndian size code n = binary.take n ∧
      n ≤ binary.length

/-- A value that is encoded is at one level. -/
theorem Accepted.encodeVarUInt_ok (h : Accepted t) (hpos : 0 < height) {v c n : Nat}
    (hencode : t.encodeVarUInt v = .ok (c, n)) :
    ∃ k < height, AtLevel 256 t.trie k v ∧ c = code 256 t.trie k v * 256 ^ (size - k - 1) ∧
      n = k + 1 := by
  obtain hv | hv := Nat.lt_or_ge v t.capacity
  · obtain ⟨k, hk, hlevel⟩ := h.exists_level hpos hv
    rw [h.encodeVarUInt_eq hk hlevel] at hencode
    obtain ⟨rfl, rfl⟩ := Prod.mk.inj (Except.ok.inj hencode)
    exact ⟨k, hk, hlevel, rfl, rfl⟩
  · rw [h.encodeVarUInt_error hpos hv] at hencode
    cases hencode

theorem Accepted.encodeVarUInt_lt (h : Accepted t) (hpos : 0 < height) {v v' c c' n n' : Nat}
    (hencode : t.encodeVarUInt v = .ok (c, n))
    (hencode' : t.encodeVarUInt v' = .ok (c', n')) (hlt : v < v') : c < c' := by
  obtain ⟨k, hk, hv, rfl, -⟩ := h.encodeVarUInt_ok hpos hencode
  obtain ⟨k', hk', hv', rfl, -⟩ := h.encodeVarUInt_ok hpos hencode'
  exact code_lt_code (by decide) h.grows hk hk' h.fits hv hv' hlt

/-- The bytes that were read are written again. -/
theorem Accepted.reencode (h : Accepted t) {binary : List Byte} {maxLength : Int} {v n : Nat}
    (hdecode : t.decodeVarUInt binary maxLength = .ok (v, n)) :
    ∃ c, t.encodeVarUInt v = .ok (c, n) ∧ writeBigEndian size c n = binary.take n ∧
      n ≤ binary.length := by
  have hfits := h.fits
  obtain ⟨k, hk, hv, rfl, hbytes, -⟩ := h.decodeVarUInt_ok hdecode
  have hlength := digitBytes_length (code 256 t.trie k v) k
  refine ⟨_, h.encodeVarUInt_eq hk hv, ?_, ?_⟩
  · rw [writeBigEndian_eq (by omega), List.prefix_iff_eq_take.mp hbytes, hlength]
  · rw [← hlength]
    exact hbytes.length_le

/-- The values come back if, and only if, `int(end - *reader)` is the distance to the end. -/
theorem Accepted.roundTrip_iff (h : Accepted t) (hpos : 0 < height) (hheight : height ≤ 8)
    {values : List Nat}
    (hvalues : ∀ v ∈ values, v < t.capacity) :
    (∃ bytes, t.encodeAll values = .ok bytes ∧ t.decodeAll values.length bytes = .ok (values, [])) ↔
    t.streamLength values < 2 ^ 31 := by
  obtain ⟨bytes, hencode, hlength, hdecode⟩ := h.encodeAll_ok hpos hvalues
  constructor
  · intro hround
    obtain ⟨bytes', hencode', hdecode'⟩ := hround
    obtain rfl := Except.ok.inj (hencode.symm.trans hencode')
    by_contra hlong
    have hfar : 2 ^ 31 ≤ bytes.length := by
      rw [hlength]
      exact Nat.not_lt.mp hlong
    have hrest := h.decodeAll_far hheight _ hfar hdecode'
    rw [List.length_nil] at hrest
    omega
  · intro hshort
    exact ⟨bytes, hencode, hdecode (hlength ▸ hshort)⟩

/-- **The codec.** For a trie that the constructor accepts, codes are in the order of the values,
exactly the values below the capacity have one, and what is decoded is encoded to the same bytes.
Values that are written one after the other are read again, up to the end, exactly if they take
fewer than `2 ^ 31` bytes: the reader passes the distance to the end as an `int`. -/
theorem codecSound_iff {trie : Nat → Nat} {values : List Nat} (hsize : size = 4 ∨ size = 8)
    (hpos : 0 < height) (hfits : height ≤ size)
    (hmake : make size height trie = .ok t) (hvalues : ∀ v ∈ values, v < t.capacity) :
    CodecSound t values ↔ t.streamLength values < 2 ^ 31 := by
  have h := accepted_of_make hfits hmake
  have hround := h.roundTrip_iff hpos (by omega) hvalues
  constructor
  · intro hsound
    exact hround.mp hsound.roundTrip
  · intro hshort
    refine ⟨hround.mpr hshort, h.encodeVarUInt_lt hpos, ?_,
      fun v => h.encodeVarUInt_error hpos, h.reencode⟩
    intro v hv
    obtain ⟨k, hk, hlevel⟩ := h.exists_level hpos hv
    exact ⟨_, _, h.encodeVarUInt_eq hk hlevel⟩

theorem codecSound_iff_varUIntTrie :
    CodecSound varUIntTrie [0, 207, 208, 8192, 8192, 600000, 50000000] := by
  apply (codecSound_iff (Or.inl rfl) (by decide) (by decide) make_varUIntTrieArray
    (by decide +kernel)).mpr
  decide +kernel

/-- Zeros are not read again when there are `2 ^ 31` of them. -/
theorem not_codecSound_zeros : make 4 4 varUIntTrieArray = .ok varUIntTrie ∧
    (∀ v ∈ List.replicate (2 ^ 31) 0, v < varUIntTrie.capacity) ∧
    ¬ CodecSound varUIntTrie (List.replicate (2 ^ 31) 0) := by
  have hvalues : ∀ v ∈ List.replicate (2 ^ 31) 0, v < varUIntTrie.capacity := by
    intro v hv
    rw [List.eq_of_mem_replicate hv]
    decide +kernel
  refine ⟨make_varUIntTrieArray, hvalues, fun hsound => ?_⟩
  have hshort := ((accepted_of_make (by decide) make_varUIntTrieArray).roundTrip_iff (by decide)
    (by decide) hvalues).mp hsound.roundTrip
  have hlength : varUIntTrie.codeLength 0 = 1 := by decide +kernel
  unfold streamLength at hshort
  rw [List.map_replicate, List.sum_replicate_nat, hlength, Nat.mul_one] at hshort
  exact absurd hshort (Nat.lt_irrefl _)

end Argennon.PrefixTrie
