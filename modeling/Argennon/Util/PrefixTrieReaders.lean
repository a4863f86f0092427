import Argennon.Util.PrefixTrieCodec

/- The overloads of `readPrefixCode`, and `equals` (`util/PrefixTrie.hpp`).

   The same codes are read from a byte array, from a pointer that is moved past them, and from a
   number whose highest bytes they are. `equals` reads two byte arrays at once, up to the first byte
   that differs. -/
namespace Argennon.PrefixTrie
open LevelCode
variable {size height : Nat} {t : PrefixTrie size height}

/-- `readPrefixCode(reader)`, without an end: the code, and the bytes from the reader on. -/
def readPrefixCodeOn (t : PrefixTrie size height) (reader : List Byte) :
    Except Exn (Nat × List Byte) := do
  let (id, len) ← t.readLoop height 0 0 reader
  .ok (id, reader.drop len)

/-- The loop of `equals` from byte `i`: the bytes after two equal codes,
or `none` if the codes differ. -/
def equalsLoop (t : PrefixTrie size height) :
    Nat → Nat → Nat → List Byte → List Byte → Except Exn (Option (List Byte × List Byte))
  | 0, _, _, _, _ => .error (.outOfRange "equals: invalid identifier")
  | n + 1, i, id, x :: a, y :: b =>
    if x ≠ y then .ok none
    else
      let id := id ||| wrap size (x.toNat <<< shift size i)
      if id < t.boundary i then .ok (some (a, b)) else equalsLoop t n (i + 1) id a b
  | _ + 1, _, _, _, _ => .error .undefined

/-- `equals(a, b, maxLength)`: the pointers are moved past two equal codes. -/
def equals (t : PrefixTrie size height) (a b : List Byte) (maxLength : Int) :
    Except Exn (Option (List Byte × List Byte)) :=
  let maxLength := if maxLength > height then (height : Int) else maxLength
  t.equalsLoop maxLength.toNat 0 0 a b

/-- The loop of `readPrefixCode` for a number, from byte `i`. -/
def readNumberLoop (t : PrefixTrie size height) (binary : Nat) : Nat → Nat → Except Exn (Nat × Nat)
  | 0, _ => .error (.outOfRange "readPrefixCode: invalid identifier")
  | n + 1, i =>
    if binary < t.boundary i then .ok
      (binary &&& wrap size ((2 ^ (8 * size) - 1) <<< shift size i), i + 1)
    else readNumberLoop t binary n (i + 1)

/-- `readPrefixCode(binary, len, maxLength)` for a number of type `T`. -/
def readPrefixCodeOf (t : PrefixTrie size height) (binary : Nat) (maxLength : Int) :
    Except Exn (Nat × Nat) :=
  let maxLength := if maxLength > height then (height : Int) else maxLength
  t.readNumberLoop binary maxLength.toNat 0

/-- The number with these bytes, the highest first. -/
def bigEndian : List Byte → Nat
  | [] => 0
  | byte :: bytes => byte.toNat * 256 ^ bytes.length + bigEndian bytes

theorem bigEndian_lt : ∀ bytes : List Byte, bigEndian bytes < 256 ^ bytes.length
  | [] => Nat.one_pos
  | byte :: bytes => by
    have hrest := bigEndian_lt bytes
    have hbyte : byte.toNat + 1 ≤ 256 := byte.toNat_lt
    calc bigEndian (byte :: bytes) < (byte.toNat + 1) * 256 ^ bytes.length := by
          rw [bigEndian, Nat.add_mul, Nat.one_mul]
          exact Nat.add_lt_add_left hrest _
      _ ≤ 256 * 256 ^ bytes.length := Nat.mul_le_mul_right _ hbyte
      _ = 256 ^ (byte :: bytes).length := (Nat.pow_succ').symm

/-! ## Codes and their bytes -/

/-- `c` is a code of `k + 1` bytes. -/
structure IsCode (t : PrefixTrie size height) (k c : Nat) : Prop where
  level : k < height
  start : start 256 t.trie k ≤ c
  below : c < t.trie k

/-- A code, aligned to the left. -/
def aligned (size k c : Nat) : Nat := c * 256 ^ (size - k - 1)

section
variable (h : Accepted t)
include h

theorem Accepted.aligned_lt {k c : Nat} (hc : IsCode t k c) : aligned size k c < 256 ^ size := by
  have hfits := h.fits
  have hlevel := hc.level
  have hlt : c < 256 ^ (k + 1) := Nat.lt_trans hc.below (h.trie_lt k hlevel)
  calc aligned size k c < 256 ^ (k + 1) * 256 ^ (size - k - 1) :=
    Nat.mul_lt_mul_of_pos_right hlt (Nat.pow_pos (by decide))
    _ = 256 ^ size := by
      rw [← Nat.pow_add]
      congr 1
      omega

/-- Different codes are different numbers when they are aligned. -/
theorem Accepted.aligned_inj {k k' c c' : Nat} (hc : IsCode t k c) (hc' : IsCode t k' c')
    (heq : aligned size k c = aligned size k' c') :
    k = k' ∧ c = c' := by
  have hfits := h.fits
  -- the shorter of two codes would be the beginning of the other one
  have hshorter : ∀ {k k' c c' : Nat}, IsCode t k c → IsCode t k' c' →
      aligned size k c = aligned size k' c' → ¬ k < k' := by
    intro k k' c c' hc hc' heq hlt
    have hlevel := hc'.level
    have hpow : 256 ^ (size - k - 1) = 256 ^ (k' - k) * 256 ^ (size - k' - 1) := by
      rw [← Nat.pow_add]
      congr 1
      omega
    have hcode : c * 256 ^ (k' - k) = c' := by
      unfold aligned at heq
      rw [hpow, ← Nat.mul_assoc] at heq
      exact Nat.eq_of_mul_eq_mul_right (Nat.pow_pos (by decide)) heq
    have hpass := boundary_le_prefix (by decide) h.grows hlevel hlt hc'.start
    rw [← hcode, Nat.mul_div_cancel _ (Nat.pow_pos (by decide))] at hpass
    exact absurd hc.below (Nat.not_lt.mpr hpass)
  obtain hlt | rfl | hlt := Nat.lt_trichotomy k k'
  · exact absurd hlt (hshorter hc hc' heq)
  · exact ⟨rfl, Nat.eq_of_mul_eq_mul_right (Nat.pow_pos (by decide)) heq⟩
  · exact absurd hlt (hshorter hc' hc heq.symm)

/-- The loop reads a code that is written. -/
theorem Accepted.readLoop_code {k c : Nat} (hc : IsCode t k c) (rest : List Byte) {n : Nat}
    (hn : k + 1 ≤ n) :
    t.readLoop n 0 0 (digitBytes c k 0 ++ rest) = .ok (aligned size k c, k + 1) := by
  have hzero : c / 256 ^ (k + 1 - 0) * 256 ^ (size - 0) = 0 := by
    rw [Nat.sub_zero, Nat.div_eq_of_lt (Nat.lt_trans hc.below (h.trie_lt k hc.level)), Nat.zero_mul]
  have hread := h.readLoop_eq hc.level hc.start hc.below rest k 0 n (Nat.zero_add k) hn
  rw [hzero] at hread
  exact hread

/-- What the loop reads is a code, written in the bytes that are read. -/
theorem Accepted.code_of_readLoop {n : Nat} {binary : List Byte} {id len : Nat} (hn : n ≤ height)
    (hread : t.readLoop n 0 0 binary = .ok (id, len)) :
    ∃ k c, IsCode t k c ∧ id = aligned size k c ∧ len = k + 1 ∧ k < n ∧
      ∃ rest, binary = digitBytes c k 0 ++ rest := by
  have hread : t.readLoop n 0 (0 * 256 ^ (size - 0)) binary = .ok (id, len) := by
    rw [Nat.zero_mul]
    exact hread
  obtain ⟨k, c, rfl, -, hk, rfl, hstart, hc, -, hbytes⟩ :=
    h.readLoop_ok (by omega) (Nat.zero_le _) hread
  obtain ⟨rest, rfl⟩ := hbytes
  exact ⟨k, c, ⟨by omega, hstart, hc⟩, rfl, rfl, by omega, rest, rfl⟩

theorem Accepted.readPrefixCodeOn_eq {k c : Nat} (hc : IsCode t k c) (rest : List Byte) :
    t.readPrefixCodeOn (digitBytes c k 0 ++ rest) = .ok (aligned size k c, rest) := by
  have hlevel := hc.level
  unfold readPrefixCodeOn
  rw [h.readLoop_code hc rest (by omega : k + 1 ≤ height)]
  change Except.ok (_, (digitBytes c k 0 ++ rest).drop (k + 1)) = _
  rw [List.drop_left' (digitBytes_length c k)]

theorem Accepted.readPrefixCodeAt_ok {reader next : List Byte} {id : Nat}
    (hread : t.readPrefixCodeAt reader = .ok (id, next)) :
    ∃ k c, IsCode t k c ∧ id = aligned size k c ∧ reader = digitBytes c k 0 ++ next := by
  unfold readPrefixCodeAt at hread
  obtain ⟨⟨id', len⟩, hloop, hnext⟩ := bind_ok.mp hread
  obtain ⟨rfl, rfl⟩ := Prod.mk.inj (Except.ok.inj hnext)
  obtain ⟨k, c, hc, hid, rfl, -, rest, rfl⟩ := h.code_of_readLoop (Nat.min_le_right _ _) hloop
  refine ⟨k, c, hc, hid, ?_⟩
  rw [List.drop_left' (digitBytes_length c k)]

/-- Codes with the same bytes are the same. -/
theorem Accepted.digitBytes_inj {k k' c c' : Nat} (hc : IsCode t k c) (hc' : IsCode t k' c')
    {rest rest' : List Byte}
    (heq : digitBytes c k 0 ++ rest = digitBytes c' k' 0 ++ rest') :
    k = k' ∧ c = c' ∧ rest = rest' := by
  have hread := h.readPrefixCodeOn_eq hc rest
  rw [heq, h.readPrefixCodeOn_eq hc' rest'] at hread
  obtain ⟨hid, hrest⟩ := Prod.mk.inj (Except.ok.inj hread)
  obtain ⟨hk, hcode⟩ := h.aligned_inj hc hc' hid.symm
  exact ⟨hk, hcode, hrest.symm⟩

/-! ## Comparing -/

/-- The codes agree up to byte `i`: they go on together until they differ or both end. -/
theorem Accepted.equalsLoop_eq {k k' c c' : Nat} (hc : IsCode t k c) (hc' : IsCode t k' c')
    (a b : List Byte) : ∀ n i,
    i ≤ k → i ≤ k' → k < i + n → c / 256 ^ (k + 1 - i) = c' / 256 ^ (k' + 1 - i) →
    t.equalsLoop n i (c / 256 ^ (k + 1 - i) * 256 ^ (size - i)) (digitBytes c k i ++ a)
      (digitBytes c' k' i ++ b) =
      .ok (if k = k' ∧ c = c' then some (a, b) else none) := by
  have hfits := h.fits
  have hlevel := hc.level
  have hlevel' := hc'.level
  intro n
  induction n with
  | zero => omega
  | succ n ih =>
    intro i hi hi' hn hagree
    have hexp : k + 1 - i = k - i + 1 := by omega
    have hexp' : k' + 1 - i = k' - i + 1 := by omega
    have hdigit : 256 * (c / 256 ^ (k + 1 - i)) + (UInt8.ofNat (c / 256 ^ (k - i))).toNat =
        c / 256 ^ (k - i) := by
      rw [hexp, div_pow_succ, UInt8.toNat_ofNat']
      omega
    have hdigit' : 256 * (c / 256 ^ (k + 1 - i)) + (UInt8.ofNat (c' / 256 ^ (k' - i))).toNat =
        c' / 256 ^ (k' - i) := by
      rw [hagree, hexp', div_pow_succ, UInt8.toNat_ofNat']
      omega
    rw [digitBytes_cons hi, digitBytes_cons hi', List.cons_append, List.cons_append]
    unfold equalsLoop
    by_cases hbyte : UInt8.ofNat (c / 256 ^ (k - i)) = UInt8.ofNat (c' / 256 ^ (k' - i))
    swap
    · -- a byte differs
      have hne : ¬ (k = k' ∧ c = c') := by
        rintro ⟨rfl, rfl⟩
        exact hbyte rfl
      rw [if_pos hbyte, if_neg hne]
    have hsame : c / 256 ^ (k - i) = c' / 256 ^ (k' - i) := by
      rw [← hdigit, ← hdigit', hbyte]
    rw [if_neg (not_not.mpr hbyte)]
    simp only [or_byte (by omega : i < size), hdigit, lt_boundary_iff h (by omega : i < height)]
    -- the code ends at byte `i` exactly if it is below the boundary there
    have hends : ∀ {k c : Nat}, IsCode t k c → i ≤ k → (c / 256 ^ (k - i) < t.trie i ↔ k = i) := by
      intro k c hc hi
      constructor
      · intro hlt
        by_contra hne
        have hpass := boundary_le_prefix (by decide) h.grows hc.level (by omega : i < k) hc.start
        omega
      · rintro rfl
        rw [Nat.sub_self, Nat.pow_zero, Nat.div_one]
        exact hc.below
    by_cases hlt : c / 256 ^ (k - i) < t.trie i
    · obtain rfl := (hends hc hi).mp hlt
      obtain rfl := (hends hc' hi').mp (hsame ▸ hlt)
      rw [Nat.sub_self, Nat.pow_zero, Nat.div_one, Nat.div_one] at hsame
      have hnil : ∀ c k : Nat, digitBytes c k (k + 1) = [] := fun c k => by simp [digitBytes]
      rw [if_pos hlt, if_pos ⟨rfl, hsame⟩, hnil, hnil, List.nil_append, List.nil_append]
    · have hk : k ≠ i := fun heq => hlt ((hends hc hi).mpr heq)
      have hk' : k' ≠ i := fun heq => hlt (hsame ▸ (hends hc' hi').mpr heq)
      have hnext := ih (i + 1) (by omega) (by omega) (by omega)
      have hsub : k + 1 - (i + 1) = k - i := by omega
      have hsub' : k' + 1 - (i + 1) = k' - i := by omega
      rw [hsub, hsub', ← Nat.sub_sub] at hnext
      rw [if_neg hlt]
      exact hnext hsame

/-- `equals` tells whether two codes are the same, and reads no byte after them. -/
theorem Accepted.equals_eq {k k' c c' : Nat} (hc : IsCode t k c) (hc' : IsCode t k' c')
    (a b : List Byte) :
    t.equals (digitBytes c k 0 ++ a)
      (digitBytes c' k' 0 ++ b) height = .ok (if k = k' ∧ c = c' then some (a, b) else none) := by
  have hlevel := hc.level
  have hzero : ∀ {k c : Nat}, IsCode t k c → c / 256 ^ (k + 1 - 0) = 0 := by
    intro k c hc
    rw [Nat.sub_zero]
    exact Nat.div_eq_of_lt (Nat.lt_trans hc.below (h.trie_lt k hc.level))
  have hloop := h.equalsLoop_eq hc hc' a b height 0 (Nat.zero_le _) (Nat.zero_le _) (by omega)
    ((hzero hc).trans (hzero hc').symm)
  rw [hzero hc, Nat.zero_mul] at hloop
  unfold equals
  simp only [gt_iff_lt, Int.lt_irrefl, if_false, Int.toNat_natCast]
  exact hloop

/-! ## Reading from a number -/

theorem Accepted.readNumberLoop_eq {pad : List Byte} :
    ∀ {n i p : Nat} {binary : List Byte}, n + i ≤ height → n ≤ binary.length →
    i + (binary ++ pad).length = size → p < 256 ^ i →
    t.readNumberLoop (p * 256 ^ (size - i) + bigEndian (binary ++ pad)) n i =
      t.readLoop n i (p * 256 ^ (size - i)) binary
  | 0, _, _, _, _, _, _, _ => rfl
  | n + 1, _, _, [], _, hlength, _, _ => absurd hlength (Nat.not_succ_le_zero n)
  | n + 1, i, p, byte :: binary, hn, hlength, hsize, hp => by
    have hfits := h.fits
    have hbyte : byte.toNat < 256 := byte.toNat_lt
    rw [List.cons_append, List.length_cons] at hsize
    have hrest : (binary ++ pad).length = size - i - 1 := by omega
    have hlow : bigEndian (binary ++ pad) < 256 ^ (size - i - 1) :=
      hrest ▸ bigEndian_lt (binary ++ pad)
    have hpow : 256 ^ (size - i) = 256 * 256 ^ (size - i - 1) := by
      rw [← Nat.pow_succ']
      congr 1
      omega
    -- one more byte of the number is read
    have hnumber : p * 256 ^ (size - i) + bigEndian (byte :: binary ++ pad) =
        (256 * p + byte.toNat) * 256 ^ (size - i - 1) + bigEndian (binary ++ pad) := by
      rw [List.cons_append, bigEndian, hrest, hpow]
      ring
    have hp' : 256 * p + byte.toNat < 256 ^ (i + 1) := by
      rw [Nat.pow_succ]
      omega
    have htotal : (256 * p + byte.toNat) * 256 ^ (size - i - 1) + bigEndian (binary ++ pad) <
        256 ^ size :=
      calc (256 * p + byte.toNat) * 256 ^ (size - i - 1) + bigEndian (binary ++ pad)
          < (256 * p + byte.toNat + 1) * 256 ^ (size - i - 1) := by
            rw [Nat.add_mul (256 * p + byte.toNat) 1, Nat.one_mul]
            exact Nat.add_lt_add_left hlow _
        _ ≤ 256 ^ (i + 1) * 256 ^ (size - i - 1) := Nat.mul_le_mul_right _ hp'
        _ = 256 ^ size := by
          rw [← Nat.pow_add]
          congr 1
          omega
    have hdiv : ((256 * p + byte.toNat) * 256 ^ (size - i - 1) + bigEndian (binary ++ pad)) /
        256 ^ (size - i - 1) = 256 * p + byte.toNat := by
      rw [Nat.mul_comm, Nat.mul_add_div (Nat.pow_pos (by decide)), Nat.div_eq_of_lt hlow,
        Nat.add_zero]
    have hboundary : (256 * p + byte.toNat) * 256 ^ (size - i - 1) + bigEndian (binary ++ pad) <
        t.boundary i ↔
          256 * p + byte.toNat < t.trie i := by
      rw [h.boundary i (by omega), ← Nat.div_lt_iff_lt_mul (Nat.pow_pos (by decide)), hdiv]
    have hmask : ((256 * p + byte.toNat) * 256 ^ (size - i - 1) + bigEndian (binary ++ pad)) &&&
        wrap size ((2 ^ (8 * size) - 1) <<< shift size i) =
          (256 * p + byte.toNat) * 256 ^ (size - i - 1) := by
      unfold wrap
      rw [and_highMask (by rw [two_pow_eight_mul]; exact htotal), shift_pow, hdiv]
    have hlength' : n ≤ binary.length := Nat.le_of_succ_le_succ hlength
    have hsize' : i + 1 + (binary ++ pad).length = size := by omega
    have hnext := Accepted.readNumberLoop_eq (n := n) (by omega : n + (i + 1) ≤ height)
      hlength' hsize' hp'
    rw [← Nat.sub_sub] at hnext
    rw [hnumber]
    unfold readNumberLoop readLoop
    simp only [or_byte (by omega : i < size), hboundary,
      lt_boundary_iff h (by omega : i < height), hmask]
    split
    · rfl
    · exact hnext

end

/-! ## The overloads agree -/

/-- A loop that may read `n` bytes reads no others. -/
theorem readLoop_take (t : PrefixTrie size height) :
    ∀ {n m i id : Nat} {binary : List Byte}, n ≤ m →
    t.readLoop n i id (binary.take m) = t.readLoop n i id binary
  | 0, _, _, _, _, _ => rfl
  | n + 1, 0, _, _, _, hle => absurd hle (Nat.not_succ_le_zero n)
  | n + 1, m + 1, i, id, [], _ => rfl
  | n + 1, m + 1, i, id, byte :: binary, hle => by
    rw [List.take_succ_cons]
    simp only [readLoop, readLoop_take t (Nat.le_of_succ_le_succ hle)]

/-- The overloads of `readPrefixCode` on the same bytes: the array of the bytes, of which
`maxLength` may be read, the pointer to them with the end after `maxLength` of them, and the number
that begins with them. -/
structure ReadersAgree (t : PrefixTrie size height) : Prop where
  pointer : ∀ (bytes : List Byte) (maxLength : Nat), maxLength ≤ bytes.length →
    t.readPrefixCodeAt (bytes.take maxLength) =
    (t.readPrefixCode bytes maxLength).map fun (id, len) => (id, (bytes.take maxLength).drop len)
  endless : ∀ bytes : List Byte, t.readPrefixCodeOn bytes =
    (t.readPrefixCode bytes height).map fun (id, len) => (id, bytes.drop len)
  number : ∀ (bytes pad : List Byte) (maxLength : Int), maxLength ≤ bytes.length →
    (bytes ++ pad).length = size →
    t.readPrefixCodeOf (bigEndian (bytes ++ pad)) maxLength = t.readPrefixCode bytes maxLength

theorem Accepted.readersAgree (h : Accepted t) : ReadersAgree t where
  pointer := by
    intro bytes maxLength hle
    have hlength : min (bytes.take maxLength).length height = min maxLength height := by
      rw [List.length_take, Nat.min_eq_left hle]
    have hclamp : (if (maxLength : Int) > height then (height : Int) else maxLength).toNat =
        min maxLength height := by
      split <;> omega
    unfold readPrefixCodeAt readPrefixCode
    dsimp only
    rw [hlength, hclamp, readLoop_take t (Nat.min_le_left _ _)]
    cases t.readLoop (min maxLength height) 0 0 bytes with
    | error e => rfl
    | ok read => rfl
  endless := by
    intro bytes
    unfold readPrefixCodeOn readPrefixCode
    simp only [gt_iff_lt, Int.lt_irrefl, if_false, Int.toNat_natCast]
    cases t.readLoop height 0 0 bytes with
    | error e => rfl
    | ok read => rfl
  number := by
    intro bytes pad maxLength hle hsize
    have hn : (if maxLength > height then (height : Int) else maxLength).toNat + 0 ≤ height := by
      split <;> omega
    have hlength : (if maxLength > height then (height : Int) else maxLength).toNat ≤
        bytes.length := by split <;> omega
    have hsize' : 0 + (bytes ++ pad).length = size := by omega
    have hloop := h.readNumberLoop_eq hn hlength hsize' (Nat.one_pos : 0 < 256 ^ 0)
    rw [Nat.zero_mul, Nat.zero_add] at hloop
    exact hloop

end Argennon.PrefixTrie
