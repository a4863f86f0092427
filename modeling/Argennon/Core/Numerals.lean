import Argennon.Core.Primitives
import Mathlib.Data.List.TakeWhile
import Mathlib.Data.Nat.Digits.Defs

/- Numbers as texts. A number is written in the digits of a base; `std::stoul` and `std::stoull`
   with base 0 find the base in the text and read the digits that follow. `strtok` cuts a text at a
   separator. -/
namespace Argennon

/-! ## Digits -/

theorem digitChar_injective {m n : Nat} (hm : m < 16) (hn : n < 16)
    (h : Nat.digitChar m = Nat.digitChar n) : m = n := by
  have hall : ∀ i j : Fin 16, Nat.digitChar i = Nat.digitChar j → i = j := by decide
  exact congrArg Fin.val (hall ⟨m, hm⟩ ⟨n, hn⟩ h)

theorem mem_toDigits {b n : Nat} (hb : 1 < b) {c : Char} (h : c ∈ Nat.toDigits b n) :
    ∃ d < b, c = Nat.digitChar d := by
  induction n using Nat.strong_induction_on with
  | _ n ih =>
    rw [Nat.toDigits_eq_if hb] at h
    split at h
    · exact ⟨n, ‹_›, List.mem_singleton.mp h⟩
    · obtain h | h := List.mem_append.mp h
      · exact ih _ (Nat.div_lt_self (by omega) hb) h
      · exact ⟨n % b, Nat.mod_lt _ (by omega), List.mem_singleton.mp h⟩

/-- Two numbers with the same digits are one. -/
theorem toDigits_injective {b : Nat} (hb : 1 < b) (hb' : b ≤ 16) :
    ∀ {m n : Nat}, Nat.toDigits b m = Nat.toDigits b n → m = n := by
  have hne : ∀ n, Nat.toDigits b n ≠ [] := fun n hnil => by
    rw [Nat.toDigits_eq_if hb] at hnil
    split at hnil
    · cases hnil
    · exact absurd hnil (by simp)
  intro m
  induction m using Nat.strong_induction_on with
  | _ m ih =>
    intro n h
    rw [Nat.toDigits_eq_if hb, Nat.toDigits_eq_if hb (n := n)] at h
    split at h <;> split at h
    · exact digitChar_injective (by omega) (by omega) (List.cons.inj h).1
    · have := congrArg List.length h
      have hpos := List.length_pos_iff.mpr (hne (n / b))
      simp only [List.length_append, List.length_singleton] at this
      omega
    · have := congrArg List.length h
      have hpos := List.length_pos_iff.mpr (hne (m / b))
      simp only [List.length_append, List.length_singleton] at this
      omega
    · obtain ⟨hdiv, hmod⟩ := List.append_inj' h rfl
      have hquot := ih (m / b) (Nat.div_lt_self (by omega) hb) hdiv
      have hrem := digitChar_injective (Nat.lt_of_lt_of_le (Nat.mod_lt m (by omega)) hb')
        (Nat.lt_of_lt_of_le (Nat.mod_lt n (by omega)) hb') (List.cons.inj hmod).1
      rw [← Nat.div_add_mod m b, ← Nat.div_add_mod n b, hquot, hrem]

theorem toList_hexText (digits : List Char) :
    ("0x" ++ String.ofList digits).toList = '0' :: 'x' :: digits := by
  rw [String.toList_append, String.toList_ofList, String.toList_ofList]
  rfl

theorem toList_toHex (value : Nat) : (toHex value).toList = '0' :: 'x' :: Nat.toDigits 16 value :=
  toList_hexText _

theorem toList_toString (n : Nat) : (toString n).toList = Nat.toDigits 10 n := by
  have hrepr : toString n = String.ofList (Nat.toDigits 10 n) := Nat.toString_eq_ofList_toDigits
  rw [hrepr, String.toList_ofList]

/-! ## Reading -/

/-- The value of a digit; 36 if the character is none. -/
def digitValue (c : Char) : Nat :=
  if '0' ≤ c ∧ c ≤ '9' then c.toNat - 48
  else if 'a' ≤ c ∧ c ≤ 'z' then c.toNat - 87
  else if 'A' ≤ c ∧ c ≤ 'Z' then c.toNat - 55
  else 36

/-- The number with these digits, the highest first. -/
def digitsValue (base : Nat) (digits : List Char) : Nat :=
  digits.foldl (fun value c => base * value + digitValue c) 0

/-- `isspace` -/
def isSpace (c : Char) : Bool := c = ' ' || (9 ≤ c.toNat && c.toNat ≤ 13)

/-- The sign, if there is one: whether it is a minus, and what follows. -/
def readSign : List Char → Bool × List Char
  | '-' :: s => (true, s)
  | '+' :: s => (false, s)
  | s => (false, s)

/-- The base that the beginning of a text selects, and where its digits begin. -/
def detectBase : List Char → Nat × List Char
  | '0' :: x :: c :: s =>
    if (x = 'x' ∨ x = 'X') ∧ digitValue c < 16 then (16, c :: s) else (8, '0' :: x :: c :: s)
  | '0' :: s => (8, '0' :: s)
  | s => (10, s)

/-- `std::stoull(str, nullptr, 0)`, and `std::stoul` of the same width. -/
def stoull (name : String) (str : List Char) : Except Exn Nat :=
  let (negative, s) := readSign (str.dropWhile isSpace)
  let (base, s) := detectBase s
  let digits := s.takeWhile fun c => digitValue c < base
  if digits = [] then .error (.invalidArgument name)
  else if digitsValue base digits ≥ 2 ^ 64 then .error (.outOfRange name)
  else .ok (if negative then (2 ^ 64 - digitsValue base digits) %
    2 ^ 64 else digitsValue base digits)

/-- The tokens that calls of `strtok` return, one after the other. -/
def strtok (str : List Char) (delimiter : Char) : List (List Char) :=
  ((str.takeWhile fun c => c ≠ Char.ofNat 0).splitOn delimiter).filter fun token => token ≠ []

/-! ## What is written is read -/

theorem digitValue_digitChar {d : Nat} (h : d < 16) : digitValue (Nat.digitChar d) = d := by
  have hall : ∀ i : Fin 16, digitValue (Nat.digitChar i) = i := by decide
  exact hall ⟨d, h⟩

theorem toDigits_ne_nil {b : Nat} (hb : 1 < b) (n : Nat) : Nat.toDigits b n ≠ [] := by
  intro hnil
  rw [Nat.toDigits_eq_if hb] at hnil
  split at hnil
  · cases hnil
  · exact List.cons_ne_nil _ _ (List.append_eq_nil_iff.mp hnil).2

theorem digitsValue_append (base : Nat) (digits : List Char) (c : Char) :
    digitsValue base (digits ++ [c]) = base * digitsValue base digits + digitValue c := by
  unfold digitsValue
  rw [List.foldl_append]
  rfl

/-- The last digit is the remainder, and the digits before it are those of the quotient. -/
theorem digitsValue_toDigits {b : Nat} (hb : 1 < b) (hb' : b ≤ 16) (n : Nat) :
    digitsValue b (Nat.toDigits b n) = n := by
  induction n using Nat.strong_induction_on with
  | _ n ih =>
    rw [Nat.toDigits_eq_if hb]
    split
    · rename_i hlt
      calc digitsValue b [Nat.digitChar n] = b * 0 + digitValue (Nat.digitChar n) := rfl
        _ = n := by
          rw [digitValue_digitChar (Nat.lt_of_lt_of_le hlt hb'), Nat.mul_zero, Nat.zero_add]
    · have hmod : n % b < 16 := Nat.lt_of_lt_of_le (Nat.mod_lt n (by omega)) hb'
      rw [digitsValue_append, ih (n / b) (Nat.div_lt_self (by omega) hb), digitValue_digitChar hmod]
      exact Nat.div_add_mod n b

theorem digitsValue_zeros (base zeros : Nat) (digits : List Char) :
    digitsValue base (List.replicate zeros '0' ++ digits) = digitsValue base digits := by
  induction zeros with
  | zero => rfl
  | succ zeros ih =>
    rw [List.replicate_succ, List.cons_append]
    exact ih

/-- A text in hexadecimal digits after `0x` is read to its end. -/
theorem stoull_hex (name : String) {digits : List Char} (hne : digits ≠ [])
    (hdigit : ∀ c ∈ digits, digitValue c < 16)
    (hlt : digitsValue 16 digits < 2 ^ 64) :
    stoull name ('0' :: 'x' :: digits) = .ok (digitsValue 16 digits) := by
  cases digits with
  | nil => exact absurd rfl hne
  | cons c digits =>
    have hbase : detectBase ('0' :: 'x' :: c :: digits) = (16, c :: digits) :=
      if_pos ⟨Or.inl rfl, hdigit c List.mem_cons_self⟩
    have hrun : (c :: digits).takeWhile (fun c => decide (digitValue c < 16)) = c :: digits :=
      List.takeWhile_eq_self_iff.mpr fun c hc => decide_eq_true (hdigit c hc)
    have htext : readSign (('0' :: 'x' :: c :: digits).dropWhile isSpace) =
        (false, '0' :: 'x' :: c :: digits) := rfl
    unfold stoull
    rw [htext]
    dsimp only
    rw [hbase]
    dsimp only
    rw [hrun, if_neg hne, if_neg (Nat.not_le.mpr hlt)]
    rfl

/-- A byte that is written in decimal digits is read as one:
no digit before its last one is zero. -/
theorem stoull_byte (byte : Byte) :
    stoull "stoul" (Nat.toDigits 10 byte.toNat) = .ok byte.toNat := by
  have hall : ∀ i : Fin 256, (stoull "stoul" (Nat.toDigits 10 i)).toOption = some i.val := by
    decide +kernel
  have hbyte := hall ⟨byte.toNat, byte.toNat_lt⟩
  dsimp only at hbyte
  cases hread : stoull "stoul" (Nat.toDigits 10 byte.toNat) with
  | error e =>
    rw [hread] at hbyte
    cases hbyte
  | ok value =>
    rw [hread] at hbyte
    exact congrArg Except.ok (Option.some.inj hbyte)

theorem mem_intercalate {c delimiter : Char} :
    ∀ {tokens : List (List Char)}, c ∈ [delimiter].intercalate tokens →
    c = delimiter ∨ ∃ token ∈ tokens, c ∈ token
  | [], hc => absurd hc List.not_mem_nil
  | [token], hc => by
    rw [List.intercalate_singleton] at hc
    exact Or.inr ⟨token, List.mem_singleton_self token, hc⟩
  | token :: next :: tokens, hc => by
    rw [List.intercalate_cons_cons, List.append_assoc] at hc
    obtain hc | hc := List.mem_append.mp hc
    · exact Or.inr ⟨token, List.mem_cons_self, hc⟩
    obtain rfl | hc := List.mem_cons.mp hc
    · exact Or.inl rfl
    obtain rfl | ⟨token', hmem, hc⟩ := mem_intercalate hc
    · exact Or.inl rfl
    · exact Or.inr ⟨token', List.mem_cons_of_mem token hmem, hc⟩

/-- The tokens of texts that are joined by the separator. -/
theorem strtok_intercalate {tokens : List (List Char)} {delimiter : Char}
    (hzero : delimiter ≠ Char.ofNat 0)
    (htoken : ∀ token ∈ tokens, token ≠ [] ∧ delimiter ∉ token ∧ Char.ofNat 0 ∉ token) :
    strtok ([delimiter].intercalate tokens) delimiter = tokens := by
  have hplain : ∀ c ∈ [delimiter].intercalate tokens, c ≠ Char.ofNat 0 := by
    rintro c hc rfl
    obtain heq | ⟨token, hmem, hc⟩ := mem_intercalate hc
    · exact hzero heq.symm
    · exact (htoken token hmem).2.2 hc
  have hwhole : ([delimiter].intercalate tokens).takeWhile (fun c => decide (c ≠ Char.ofNat 0)) =
      [delimiter].intercalate tokens :=
    List.takeWhile_eq_self_iff.mpr fun c hc => decide_eq_true (hplain c hc)
  unfold strtok
  rw [hwhole]
  obtain rfl | hne := eq_or_ne tokens []
  · rfl
  · rw [List.splitOn_intercalate delimiter (fun token hmem => (htoken token hmem).2.1) hne]
    exact List.filter_eq_self.mpr fun token hmem => decide_eq_true (htoken token hmem).1

end Argennon
