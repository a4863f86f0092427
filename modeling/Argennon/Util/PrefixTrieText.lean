import Argennon.Core.Numerals
import Argennon.Util.PrefixTrieReaders

/- Identifiers as texts (`uncheckedParse`, `parsePrefixCode` and `toDecimalStr` of
   `util/PrefixTrie.hpp`).

   A code is written in three ways: the decimal numbers of its bytes with dots between them, its
   aligned number in hexadecimal digits, and the number of its bytes alone. The last two are told
   apart by the magnitude of the number only: a code of more than one byte must not begin with a
   zero byte. -/
namespace Argennon.PrefixTrie
open LevelCode
variable {size height : Nat} {t : PrefixTrie size height}

/-- `num > bound ? num : num << shift` -/
def moveLeft (bound shift num : Nat) : Nat := if num > bound then num else num <<< shift % 2 ^ 64

/-- `uncheckedParse` -/
def uncheckedParse (size : Nat) (str : String) : Except Exn Nat := do
  let num ← stoull "stoull" str.toList
  let num := moveLeft 0xffffffff 32 num
  let num := moveLeft 0xffffffffffff 16 num
  let num := moveLeft 0xffffffffffffff 8 num
  .ok (wrap size (num >>> (64 - size * 8)))

example : (uncheckedParse 4 "0x00ab00").toOption = some 0xab000000 := by decide +kernel

/-- The loop of `parsePrefixCode` over the tokens, with the components that are in the buffer. -/
def readComponents (height : Nat) : List (List Char) → List Byte → Except Exn (List Byte)
  | [], buffer => .ok buffer
  | token :: tokens, buffer =>
    if buffer.length = height then .error (.invalidArgument "parsePrefixCode: input too long")
    else do
      let component ← stoull "stoul" token
      if component > 255 then .error (.overflowError "identifier component is larger than 255")
      else readComponents height tokens (buffer ++ [UInt8.ofNat component])

/-- `parsePrefixCode` -/
def parsePrefixCode (t : PrefixTrie size height) (symbolicRep : String) : Except Exn Nat := do
  let buffer ← readComponents height (strtok symbolicRep.toList '.') []
  let (id, n) ← t.readPrefixCode buffer buffer.length
  if n ≠ buffer.length then .error (.invalidArgument "parsePrefixCode: input too long") else .ok id

/-- The loop of `toDecimalStr` from byte `i`. -/
def decimalLoop (t : PrefixTrie size height) (code : Nat) : Nat → Nat → String → Except Exn String
  | 0, _, _ => .error (.outOfRange "toDecimalStr: invalid identifier")
  | n + 1, i, ret =>
    let ret := ret ++ toString (UInt8.ofNat (code >>> shift size i)).toNat
    if code < t.boundary i then .ok ret else decimalLoop t code n (i + 1) (ret ++ ".")

/-- `toDecimalStr` -/
def toDecimalStr (t : PrefixTrie size height) (code : Nat) : Except Exn String :=
  t.decimalLoop code height 0 ""

/-- The hexadecimal digits of bytes, two for each. -/
def byteDigits (bytes : List Byte) : List Char :=
  bytes.flatMap fun byte => [Nat.digitChar (byte.toNat / 16), Nat.digitChar (byte.toNat % 16)]

/-- The bytes in hexadecimal. -/
def hexBytes (bytes : List Byte) : String := "0x" ++ String.ofList (byteDigits bytes)

/-- A number in hexadecimal, with zeros before its digits. -/
def hexNumber (zeros value : Nat) : String :=
  "0x" ++ String.ofList (List.replicate zeros '0' ++ Nat.toDigits 16 value)

/-- An overload of `readPrefixCode` has returned the code, and these are its bytes. -/
inductive Returned (t : PrefixTrie size height) : Nat → List Byte → Prop where
  | array {binary : List Byte} {maxLength : Int} {code n : Nat} :
    t.readPrefixCode binary maxLength = .ok (code, n) →
      Returned t code (binary.take n)
  | pointer {bytes next : List Byte} {code : Nat} : t.readPrefixCodeAt (bytes ++ next) =
    .ok (code, next) → Returned t code bytes
  | endless {bytes next : List Byte} {code : Nat} : t.readPrefixCodeOn (bytes ++ next) =
    .ok (code, next) → Returned t code bytes
  | number {binary : Nat} {maxLength : Int} {code n : Nat} : binary < 2 ^ (8 * size) →
      t.readPrefixCodeOf binary maxLength = .ok (code, n) →
        Returned t code (writeBigEndian size code n)

/-! ## Codes that are returned -/

theorem bigEndian_digitBytes (c k : Nat) :
    ∀ m i, i + m = k + 1 → bigEndian (digitBytes c k i) = c % 256 ^ m
  | 0, i, hi => by
    obtain rfl : i = k + 1 := hi
    simp [digitBytes, bigEndian, Nat.mod_one]
  | m + 1, i, hi => by
    have hexp : k - i = m := by omega
    have hlength : (digitBytes c k (i + 1)).length = m := by
      unfold digitBytes
      rw [List.length_map, List.length_range']
      omega
    have hmod : c % 256 ^ (m + 1) = c % 256 ^ m + 256 ^ m * (c / 256 ^ m % 256) := by
      rw [Nat.pow_succ, Nat.mod_mul]
    rw [digitBytes_cons (by omega), bigEndian, bigEndian_digitBytes c k m (i + 1) (by omega),
      hlength, hexp, UInt8.toNat_ofNat', hmod,
      Nat.mul_comm (256 ^ m)]
    exact Nat.add_comm _ _

section
variable (h : Accepted t)
include h

/-- The number of a code's bytes is the code. -/
theorem Accepted.bigEndian_code {k c : Nat} (hc : IsCode t k c) :
    bigEndian (digitBytes c k 0) = c := by
  rw [bigEndian_digitBytes c k (k + 1) 0 (Nat.zero_add _)]
  exact Nat.mod_eq_of_lt (Nat.lt_trans hc.below (h.trie_lt k hc.level))

theorem Accepted.readPrefixCode_ok {binary : List Byte} {maxLength : Int} {code n : Nat}
    (hread : t.readPrefixCode binary maxLength = .ok (code, n)) :
    ∃ k c, IsCode t k c ∧ code = aligned size k c ∧ n = k + 1 ∧
      binary.take n = digitBytes c k 0 := by
  have hclamp : (if maxLength > height then (height : Int) else maxLength).toNat ≤ height := by
    split <;> omega
  obtain ⟨k, c, hc, hcode, rfl, -, rest, rfl⟩ := h.code_of_readLoop hclamp hread
  exact ⟨k, c, hc, hcode, rfl, List.take_left' (digitBytes_length c k)⟩

/-- A number is read as its bytes are. -/
theorem Accepted.readPrefixCodeOf_eq {binary : Nat} (hlt : binary < 256 ^ size) (hpos : 0 < size)
    (maxLength : Int) :
    t.readPrefixCodeOf binary maxLength =
      t.readPrefixCode (digitBytes binary (size - 1) 0) maxLength := by
  have hfits := h.fits
  have hsize : size - 1 + 1 = size := by omega
  have hlength : (digitBytes binary (size - 1) 0).length = size := by rw [digitBytes_length, hsize]
  have hbytes : bigEndian (digitBytes binary (size - 1) 0 ++ []) = binary := by
    rw [List.append_nil, bigEndian_digitBytes binary (size - 1) size 0 (by omega),
      Nat.mod_eq_of_lt hlt]
  have hshort : ∀ maxLength : Int, maxLength ≤ size →
      t.readPrefixCodeOf binary maxLength =
        t.readPrefixCode (digitBytes binary (size - 1) 0) maxLength := by
    intro maxLength hle
    have hagree := h.readersAgree.number (digitBytes binary (size - 1) 0) [] maxLength
      (by rw [hlength]; exact hle)
      (by rw [List.append_nil, hlength])
    rw [hbytes] at hagree
    exact hagree
  by_cases hle : maxLength ≤ height
  · exact hshort maxLength (by omega)
  · -- no more than `height` bytes are read
    have hclamp : (if maxLength > height then (height : Int) else maxLength) = if (height : Int) >
        height then (height : Int) else height := by
      rw [if_pos (by omega), if_neg (Int.lt_irrefl _)]
    have hheight := hshort height (by omega)
    unfold readPrefixCodeOf readPrefixCode at hheight ⊢
    rw [hclamp]
    exact hheight

theorem Accepted.isCode_of_returned {code : Nat} {bytes : List Byte}
    (hread : Returned t code bytes) :
    ∃ k c, IsCode t k c ∧ code = aligned size k c ∧ bytes = digitBytes c k 0 := by
  cases hread with
  | array hread =>
    obtain ⟨k, c, hc, hcode, -, hbytes⟩ := h.readPrefixCode_ok hread
    exact ⟨k, c, hc, hcode, hbytes⟩
  | pointer hread =>
    obtain ⟨k, c, hc, hcode, hbytes⟩ := h.readPrefixCodeAt_ok hread
    exact ⟨k, c, hc, hcode, List.append_cancel_right hbytes⟩
  | @endless bytes next code hread =>
    unfold readPrefixCodeOn at hread
    obtain ⟨⟨id, len⟩, hloop, hnext⟩ := bind_ok.mp hread
    obtain ⟨rfl, hrest⟩ := Prod.mk.inj (Except.ok.inj hnext)
    obtain ⟨k, c, hc, hcode, rfl, -, rest, hbytes⟩ := h.code_of_readLoop (Nat.le_refl height) hloop
    rw [hbytes, List.drop_left' (digitBytes_length c k)] at hrest
    exact ⟨k, c, hc, hcode, List.append_cancel_right (hrest ▸ hbytes)⟩
  | @number binary maxLength code n hlt hread =>
    obtain rfl | hpos := Nat.eq_zero_or_pos size
    · -- there is no level to read
      have hheight : height = 0 := Nat.le_zero.mp h.fits
      subst hheight
      have hclamp : (if maxLength > (0 : Nat) then ((0 : Nat) : Int) else maxLength).toNat = 0 := by
        split <;> omega
      unfold readPrefixCodeOf at hread
      dsimp only at hread
      rw [hclamp] at hread
      cases hread
    · rw [h.readPrefixCodeOf_eq (by rw [← two_pow_eight_mul]; exact hlt) hpos] at hread
      obtain ⟨k, c, hc, rfl, rfl, -⟩ := h.readPrefixCode_ok hread
      have hfits := h.fits
      have hlevel := hc.level
      exact ⟨k, c, hc, rfl, writeBigEndian_eq (by omega)⟩

end

/-! ## Decimal numbers with dots -/

/-- The text of bytes: their decimal numbers, with dots between them. -/
def dotted (bytes : List Byte) : List Char :=
  ['.'].intercalate (bytes.map fun byte => Nat.toDigits 10 byte.toNat)

theorem dotted_singleton (byte : Byte) : dotted [byte] = Nat.toDigits 10 byte.toNat :=
  List.intercalate_singleton

theorem dotted_cons_cons (byte next : Byte) (bytes : List Byte) :
    dotted (byte :: next :: bytes) = Nat.toDigits 10 byte.toNat ++ '.' ::
      dotted (next :: bytes) := by
  unfold dotted
  rw [List.map_cons, List.map_cons, List.intercalate_cons_cons, List.append_assoc]
  rfl

section
variable (h : Accepted t)
include h

/-- The loop goes on to the last byte of a code. -/
theorem Accepted.decimalLoop_eq {k c : Nat} (hc : IsCode t k c) :
    ∀ m i n ret, i + m = k → m + 1 ≤ n →
    ∃ text, t.decimalLoop (aligned size k c) n i ret = .ok text ∧
      text.toList = ret.toList ++ dotted (digitBytes c k i) := by
  have hfits := h.fits
  have hlevel := hc.level
  -- the byte and the boundary test of a turn
  have hbyte : ∀ i ≤ k, aligned size k c >>> shift size i = c / 256 ^ (k - i) := by
    intro i hi
    have hpow : 256 ^ (size - i - 1) = 256 ^ (k - i) * 256 ^ (size - k - 1) := by
      rw [← Nat.pow_add]
      congr 1
      omega
    rw [Nat.shiftRight_eq_div_pow, shift_pow, hpow]
    exact Nat.mul_div_mul_right _ _ (Nat.pow_pos (by decide))
  have hbelow : ∀ i ≤ k, aligned size k c < t.boundary i ↔ c / 256 ^ (k - i) < t.trie i := by
    intro i hi
    rw [h.boundary i (by omega), ← shift_pow, ← Nat.div_lt_iff_lt_mul (Nat.two_pow_pos _),
      ← Nat.shiftRight_eq_div_pow, hbyte i hi]
  intro m
  induction m with
  | zero =>
    intro i n ret hi hn
    obtain rfl : i = k := hi
    obtain ⟨n, rfl⟩ : ∃ n', n = n' + 1 := ⟨n - 1, by omega⟩
    have hlast : digitBytes c i i = [UInt8.ofNat (c / 256 ^ (i - i))] := by simp [digitBytes]
    have hend : aligned size i c < t.boundary i := by
      rw [hbelow i (Nat.le_refl i), Nat.sub_self, Nat.pow_zero, Nat.div_one]
      exact hc.below
    refine ⟨_, if_pos hend, ?_⟩
    rw [String.toList_append, hbyte i (Nat.le_refl i), toList_toString, hlast, dotted_singleton]
  | succ m ih =>
    intro i n ret hi hn
    obtain ⟨n, rfl⟩ : ∃ n', n = n' + 1 := ⟨n - 1, by omega⟩
    have hpass : ¬ aligned size k c < t.boundary i := by
      rw [hbelow i (by omega)]
      have hstart := boundary_le_prefix (by decide) h.grows hlevel (by omega : i < k) hc.start
      exact Nat.not_lt.mpr hstart
    obtain ⟨text, hloop, htext⟩ :=
      ih (i + 1) n (ret ++ toString (UInt8.ofNat (c / 256 ^ (k - i))).toNat ++ ".")
        (by omega) (by omega)
    refine ⟨text, ?_, ?_⟩
    · unfold decimalLoop
      dsimp only
      rw [if_neg hpass, hbyte i (by omega)]
      exact hloop
    · -- the next byte is not the last one, and a dot is before it
      rw [htext, digitBytes_cons (by omega : i ≤ k), digitBytes_cons (by omega : i + 1 ≤ k),
        dotted_cons_cons, String.toList_append,
        String.toList_append, toList_toString, List.append_assoc, List.append_assoc]
      rfl

end

theorem readComponents_digits {height : Nat} :
    ∀ {bytes buffer : List Byte}, buffer.length + bytes.length ≤ height →
    readComponents height (bytes.map fun byte => Nat.toDigits 10 byte.toNat) buffer =
      .ok (buffer ++ bytes)
  | [], buffer, _ => by rw [List.append_nil]; rfl
  | byte :: bytes, buffer, hle => by
    have hbyte : ¬ byte.toNat > 255 := Nat.not_lt.mpr (Nat.le_of_lt_succ byte.toNat_lt)
    rw [List.length_cons] at hle
    have hroom : (buffer ++ [byte]).length + bytes.length ≤ height := by
      rw [List.length_append, List.length_singleton]
      omega
    have hnext := readComponents_digits hroom
    rw [List.append_assoc] at hnext
    rw [List.map_cons, readComponents, if_neg (by omega), stoull_byte]
    change (if byte.toNat > 255 then _ else _) = _
    rw [if_neg hbyte, UInt8.ofNat_toNat]
    exact hnext

theorem strtok_dotted (bytes : List Byte) :
    strtok (dotted bytes) '.' = bytes.map fun byte => Nat.toDigits 10 byte.toNat := by
  have hplain : ∀ d : Fin 10, Nat.digitChar d ≠ '.' ∧ Nat.digitChar d ≠ Char.ofNat 0 := by decide
  refine strtok_intercalate (by decide) ?_
  intro token hmem
  obtain ⟨byte, -, rfl⟩ := List.mem_map.mp hmem
  have hdigit : ∀ c ∈ Nat.toDigits 10 byte.toNat, c ≠ '.' ∧ c ≠ Char.ofNat 0 := by
    intro c hc
    obtain ⟨d, hd, rfl⟩ := mem_toDigits (by decide) hc
    exact hplain ⟨d, hd⟩
  exact ⟨toDigits_ne_nil (by decide) _, fun hc => (hdigit _ hc).1 rfl,
    fun hc => (hdigit _ hc).2 rfl⟩

/-- The bytes of a code are read back from their text. -/
theorem Accepted.parsePrefixCode_dotted (h : Accepted t) {k c : Nat} (hc : IsCode t k c)
    {text : String}
    (htext : text.toList = dotted (digitBytes c k 0)) :
    t.parsePrefixCode text = .ok (aligned size k c) := by
  have hlevel := hc.level
  have hlength : (digitBytes c k 0).length = k + 1 := digitBytes_length c k
  have hcomponents : readComponents height (strtok text.toList '.') [] =
      .ok (digitBytes c k 0) := by
    rw [htext, strtok_dotted, readComponents_digits (by rw [hlength, List.length_nil]; omega),
      List.nil_append]
  have hread : t.readPrefixCode (digitBytes c k 0) (digitBytes c k 0).length =
      .ok (aligned size k c, k + 1) := by
    have hclamp : ¬ ((k + 1 : Nat) : Int) > height := by omega
    have hloop := h.readLoop_code hc [] (Nat.le_refl (k + 1))
    rw [List.append_nil] at hloop
    unfold readPrefixCode
    dsimp only
    rw [hlength, if_neg hclamp]
    exact hloop
  unfold parsePrefixCode
  rw [hcomponents]
  change (t.readPrefixCode (digitBytes c k 0) (digitBytes c k 0).length >>= fun p =>
    if p.2 ≠ (digitBytes c k 0).length then _ else Except.ok p.1) = _
  rw [hread]
  exact if_neg (not_not.mpr hlength.symm)

/-! ## Hexadecimal numbers -/

/-- A test moves a number of `k + 1` bytes by `n` bytes if they are free. -/
theorem moveLeft_eq {n k v : Nat} (hn : n ≤ 8) (hlow : 256 ^ k ≤ v) (hlt : v < 256 ^ (k + 1)) :
    moveLeft (256 ^ (8 - n) - 1) (8 * n) v = v * 256 ^ (if k < 8 - n then n else 0) := by
  have hpos : 0 < 256 ^ (8 - n) := Nat.pow_pos (by decide)
  unfold moveLeft
  by_cases hfree : k < 8 - n
  · have hshort : v < 256 ^ (8 - n) := Nat.lt_of_lt_of_le hlt (pow_le_pow hfree)
    have hfits : v * 256 ^ n < 2 ^ 64 := by
      calc v * 256 ^ n < 256 ^ (8 - n) * 256 ^ n :=
        Nat.mul_lt_mul_of_pos_right hshort (Nat.pow_pos (by decide))
        _ = 256 ^ 8 := by rw [← Nat.pow_add, Nat.sub_add_cancel hn]
        _ = 2 ^ 64 := by decide
    rw [if_neg (by omega), if_pos hfree, Nat.shiftLeft_eq, two_pow_eight_mul,
      Nat.mod_eq_of_lt hfits]
  · have hlong : 256 ^ (8 - n) ≤ v := Nat.le_trans (pow_le_pow (by omega)) hlow
    rw [if_pos (by omega), if_neg hfree, Nat.pow_zero, Nat.mul_one]

/-- The tests find the length of a number that does not begin with a zero byte. -/
theorem leftAlign_eq {k v : Nat} (hk : k < 8) (hlow : v ≠ 0 → 256 ^ k ≤ v)
    (hlt : v < 256 ^ (k + 1)) :
    moveLeft 0xffffffffffffff 8 (moveLeft 0xffffffffffff 16 (moveLeft 0xffffffff 32 v)) =
      v * 256 ^ (7 - k) := by
  obtain rfl | hne := eq_or_ne v 0
  · rw [Nat.zero_mul]
    decide
  have hstep : ∀ n e : Nat, n ≤ 8 → k + e < 8 → moveLeft (256 ^ (8 - n) - 1) (8 * n) (v * 256 ^ e) =
      v * 256 ^ (e + if k + e < 8 - n then n else 0) := by
    intro n e hn he
    have hlow' : 256 ^ (k + e) ≤ v * 256 ^ e := by
      rw [Nat.pow_add]
      exact Nat.mul_le_mul_right _ (hlow hne)
    have hlt' : v * 256 ^ e < 256 ^ (k + e + 1) := by
      rw [Nat.add_right_comm, Nat.pow_add]
      exact Nat.mul_lt_mul_of_pos_right hlt (Nat.pow_pos (by decide))
    rw [moveLeft_eq hn hlow' hlt', Nat.mul_assoc, ← Nat.pow_add]
  have hfirst : moveLeft 0xffffffff 32 v = _ := Nat.mul_one v ▸ hstep 4 0 (by decide) hk
  have hsecond : ∀ e, k + e < 8 → moveLeft 0xffffffffffff 16 (v * 256 ^ e) = _ :=
    fun e => hstep 2 e (by decide)
  have hthird : ∀ e, k + e < 8 → moveLeft 0xffffffffffffff 8 (v * 256 ^ e) = _ :=
    fun e => hstep 1 e (by decide)
  -- four bytes, two bytes and one byte: together the bytes that are free
  rw [hfirst, hsecond _ (by split <;> omega), hthird _ (by split <;> split <;> omega)]
  congr 2
  split <;> split <;> split <;> omega

/-- A text in hexadecimal digits is parsed to the aligned number. -/
theorem uncheckedParse_eq {text : String} {digits : List Char} {k v : Nat}
    (htext : text.toList = '0' :: 'x' :: digits) (hne : digits ≠ [])
    (hdigit : ∀ c ∈ digits, digitValue c < 16) (hvalue : digitsValue 16 digits = v) (hk : k < 8)
    (hlow : v ≠ 0 → 256 ^ k ≤ v)
    (hlt : v < 256 ^ (k + 1)) : uncheckedParse 8 text = .ok (v * 256 ^ (7 - k)) := by
  have hlt64 : v < 2 ^ 64 := Nat.lt_of_lt_of_le hlt (pow_le_pow hk : 256 ^ (k + 1) ≤ 256 ^ 8)
  have haligned : v * 256 ^ (7 - k) < 256 ^ 8 := by
    calc v * 256 ^ (7 - k) < 256 ^ (k + 1) * 256 ^ (7 - k) :=
      Nat.mul_lt_mul_of_pos_right hlt (Nat.pow_pos (by decide))
      _ = 256 ^ 8 := by
        rw [← Nat.pow_add]
        congr 1
        omega
  have hread := stoull_hex "stoull" hne hdigit (by rw [hvalue]; exact hlt64)
  unfold uncheckedParse
  rw [htext, hread, hvalue]
  change Except.ok (wrap 8
    (moveLeft 0xffffffffffffff 8 (moveLeft 0xffffffffffff 16 (moveLeft 0xffffffff 32 v)) >>> 0)) = _
  rw [leftAlign_eq hk hlow hlt, Nat.shiftRight_zero, wrap_of_lt haligned]

theorem digitValue_of_mem_toDigits {value : Nat} {c : Char} (hc : c ∈ Nat.toDigits 16 value) :
    digitValue c < 16 := by
  obtain ⟨d, hd, rfl⟩ := mem_toDigits (by decide) hc
  rw [digitValue_digitChar hd]
  exact hd

theorem digitValue_of_mem_byteDigits {bytes : List Byte} {c : Char} (hc : c ∈ byteDigits bytes) :
    digitValue c < 16 := by
  obtain ⟨byte, -, hc⟩ := List.mem_flatMap.mp hc
  have hbyte : byte.toNat < 256 := byte.toNat_lt
  obtain rfl | hc := List.mem_cons.mp hc
  · rw [digitValue_digitChar (by omega)]
    omega
  · obtain rfl := List.mem_singleton.mp hc
    rw [digitValue_digitChar (by omega)]
    omega

/-- Two digits for each byte make the number of the bytes. -/
theorem digitsValue_byteDigits (bytes : List Byte) :
    digitsValue 16 (byteDigits bytes) = bigEndian bytes := by
  have hfold : ∀ (bytes : List Byte) (value : Nat),
      (byteDigits bytes).foldl (fun value c => 16 * value + digitValue c) value =
        value * 256 ^ bytes.length + bigEndian bytes := by
    intro bytes
    induction bytes with
    | nil => simp [byteDigits, bigEndian]
    | cons byte bytes ih =>
      intro value
      have hbyte : byte.toNat < 256 := byte.toNat_lt
      have hhigh : digitValue (Nat.digitChar (byte.toNat / 16)) = byte.toNat / 16 :=
        digitValue_digitChar (by omega)
      have hlow : digitValue (Nat.digitChar (byte.toNat % 16)) = byte.toNat % 16 :=
        digitValue_digitChar (by omega)
      have hsplit : 16 * (16 * value + byte.toNat / 16) + byte.toNat % 16 =
          256 * value + byte.toNat := by omega
      change (byteDigits bytes).foldl
        _ (16 * (16 * value + digitValue (Nat.digitChar (byte.toNat / 16))) +
        digitValue (Nat.digitChar (byte.toNat % 16))) = _
      rw [hhigh, hlow, hsplit, ih, bigEndian, List.length_cons]
      ring
  calc digitsValue 16 (byteDigits bytes) = 0 * 256 ^ bytes.length + bigEndian bytes := hfold bytes 0
    _ = bigEndian bytes := by rw [Nat.zero_mul, Nat.zero_add]

section
variable {t : PrefixTrie 8 height} (h : Accepted t)
include h

/-- A code does not begin with a zero byte, unless it is zero. -/
theorem Accepted.pow_le_code (hfirst : t.boundary 0 ≠ 0) {k c : Nat} (hc : IsCode t k c)
    (hne : c ≠ 0) : 256 ^ k ≤ c := by
  have hlevel := hc.level
  have htrie : 1 ≤ t.trie 0 := by
    rw [h.boundary 0 (by omega)] at hfirst
    exact Nat.pos_of_ne_zero (left_ne_zero_of_mul hfirst)
  obtain rfl | hpos := Nat.eq_zero_or_pos k
  · exact Nat.pos_of_ne_zero hne
  · calc 256 ^ k ≤ 256 ^ (k - 0) * t.trie 0 := Nat.le_mul_of_pos_right _ htrie
      _ ≤ start 256 t.trie k := pow_mul_le_start h.grows hlevel hpos
      _ ≤ c := hc.start

/-- A code is read from its number, and from the numbers of its bytes. -/
theorem Accepted.uncheckedParse_code (hfirst : t.boundary 0 ≠ 0) {k c : Nat} (hc : IsCode t k c) :
    uncheckedParse 8 (toHex (aligned 8 k c)) = .ok (aligned 8 k c) ∧
      uncheckedParse 8 (hexBytes (digitBytes c k 0)) = .ok (aligned 8 k c) ∧
      ∀ zeros, uncheckedParse 8 (hexNumber zeros (bigEndian (digitBytes c k 0))) =
        .ok (aligned 8 k c) := by
  have hfits := h.fits
  have hlevel := hc.level
  have hk : k < 8 := by omega
  have hlow := h.pow_le_code hfirst hc
  have hlt : c < 256 ^ (k + 1) := Nat.lt_trans hc.below (h.trie_lt k hlevel)
  have haligned : aligned 8 k c = c * 256 ^ (7 - k) := by
    unfold aligned
    congr 2
    omega
  have hvalue := h.bigEndian_code hc
  refine ⟨?_, ?_, fun zeros => ?_⟩
  · -- the aligned number has eight bytes
    have hhigh : aligned 8 k c ≠ 0 → 256 ^ 7 ≤ aligned 8 k c := by
      rw [haligned]
      intro hne
      calc 256 ^ 7 = 256 ^ k * 256 ^ (7 - k) := by
            rw [← Nat.pow_add]
            congr 1
            omega
        _ ≤ c * 256 ^ (7 - k) := Nat.mul_le_mul_right _ (hlow (left_ne_zero_of_mul hne))
    have hparse := uncheckedParse_eq (toList_toHex (aligned 8 k c)) (toDigits_ne_nil (by decide) _)
      (fun _ => digitValue_of_mem_toDigits)
      (digitsValue_toDigits (by decide) (by decide) _) (by decide : 7 < 8) hhigh (h.aligned_lt hc)
    rw [Nat.sub_self, Nat.pow_zero, Nat.mul_one] at hparse
    exact hparse
  · -- the digits of the bytes are the code, `k + 1` bytes of it
    have hne : byteDigits (digitBytes c k 0) ≠ [] := by
      rw [digitBytes_cons (Nat.zero_le k)]
      exact List.cons_ne_nil _ _
    rw [haligned]
    exact uncheckedParse_eq (toList_hexText _) hne (fun _ => digitValue_of_mem_byteDigits)
      ((digitsValue_byteDigits _).trans hvalue)
      hk hlow hlt
  · -- zeros in front do not change the number
    have hne : List.replicate zeros '0' ++ Nat.toDigits 16 c ≠ [] :=
      List.append_ne_nil_of_right_ne_nil _ (toDigits_ne_nil (by decide) c)
    have hdigit : ∀ x ∈ List.replicate zeros '0' ++ Nat.toDigits 16 c, digitValue x < 16 := by
      intro x hx
      obtain hx | hx := List.mem_append.mp hx
      · rw [List.eq_of_mem_replicate hx]
        decide
      · exact digitValue_of_mem_toDigits hx
    rw [haligned, hvalue]
    exact uncheckedParse_eq (toList_hexText _) hne hdigit
      ((digitsValue_zeros 16 zeros _).trans (digitsValue_toDigits (by decide) (by decide) c))
      hk hlow hlt

end

/-! ## Identifiers that are printed are read back -/

/-- **Textual identifiers.** A code that `readPrefixCode` has returned is read back from its decimal
text. If the first boundary of the trie is not zero, it is read back from its number in hexadecimal
and from the bytes of the code in hexadecimal, with the zeros before them or without them, and with
more of them. -/
theorem textual_identifiers {trie : Nat → Nat} {t : PrefixTrie 8 height} (hfits : height ≤ 8)
    (hmake : make 8 height trie = .ok t)
    {code : Nat} {bytes : List Byte} (hread : Returned t code bytes) :
    (∃ text, t.toDecimalStr code = .ok text ∧ t.parsePrefixCode text = .ok code) ∧
      (t.boundary 0 ≠ 0 →
        uncheckedParse 8 (toHex code) = .ok code ∧ uncheckedParse 8 (hexBytes bytes) = .ok code ∧
          ∀ zeros, uncheckedParse 8 (hexNumber zeros (bigEndian bytes)) = .ok code) := by
  have h := accepted_of_make hfits hmake
  obtain ⟨k, c, hc, rfl, rfl⟩ := h.isCode_of_returned hread
  have hlevel := hc.level
  obtain ⟨text, hprint, htext⟩ := h.decimalLoop_eq hc k 0 height "" (Nat.zero_add k) (by omega)
  exact ⟨⟨text, hprint, h.parsePrefixCode_dotted hc htext⟩,
    fun hfirst => h.uncheckedParse_code hfirst hc⟩

/-- A trie with codes of up to four bytes. -/
def symbolicTrieArray : Nat → Nat
  | 0 => 0x40
  | 1 => 0x7050
  | 2 => 0x800010
  | _ => 0xbb001122

theorem make_symbolicTrieArray :
    make 8 4 symbolicTrieArray = .ok (tables 8 4 symbolicTrieArray) := by
  unfold make
  exact if_neg (by decide +kernel)

/-- A code of two bytes, of a longer array. -/
theorem textual_identifiers_two_bytes :
    (∃ text, (tables 8 4 symbolicTrieArray).toDecimalStr 0x4511000000000000 = .ok text ∧
      (tables 8 4 symbolicTrieArray).parsePrefixCode text = .ok 0x4511000000000000) ∧
    uncheckedParse 8 (toHex 0x4511000000000000) = .ok 0x4511000000000000 ∧
      uncheckedParse 8 (hexBytes [0x45, 0x11]) = .ok 0x4511000000000000 ∧
      ∀ zeros, uncheckedParse 8 (hexNumber zeros (bigEndian [0x45, 0x11])) =
        .ok 0x4511000000000000 := by
  have hread : Returned (tables 8 4 symbolicTrieArray) 0x4511000000000000
      ([0x45, 0x11, 0x12, 0x54].take 2) :=
    .array (by decide +kernel :
      (tables 8 4 symbolicTrieArray).readPrefixCode [0x45, 0x11, 0x12, 0x54] 4 =
        .ok (0x4511000000000000, 2))
  have hround := textual_identifiers (by decide) make_symbolicTrieArray hread
  exact ⟨hround.1, hround.2 (by decide +kernel)⟩

end Argennon.PrefixTrie
