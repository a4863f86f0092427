import Argennon.Storage.Page
import Argennon.Util.PrefixTrieReaders

/- Compound identifiers (`VarLenFullID` in `core/tries.hpp`, `FullID` in `core/primitives.h`).

   The bytes of an identifier are the codes of an application, an account and a local identifier,
   one after the other. Their length is not stored: it is found again by reading the codes. -/
namespace Argennon
open PrefixTrie LevelCode

/-- The conversion of a `uint64_t` to `LongID`. -/
def LongID.ofNat (id : Nat) : LongID := Fin.ofNat (2 ^ 64) id

/-- `LongLongID::Hash` -/
def LongLongID.hash (key : LongLongID) : Nat :=
  (ofLex key).1.val % 8602280293 ^^^ (ofLex key).2.val % 17184414901

/-- `FullID::Hash` -/
def FullID.hash (key : FullID) : Nat :=
  (ofLex key).1.val % 15236479477 ^^^ LongLongID.hash (ofLex key).2

namespace VarLenFullID

/-- `getLen` -/
def getLen (id : VarLenFullID) : Except Exn Nat := do
  let (_, ptr) ← appTrie.readPrefixCodeOn id.binary
  let (_, ptr) ← accountTrie.readPrefixCodeOn ptr
  let (_, ptr) ← localTrie.readPrefixCodeOn ptr
  .ok (id.binary.length - ptr.length)

/-- `operator FullID` -/
def toFullID (id : VarLenFullID) : Except Exn FullID := do
  let (up, ptr) ← appTrie.readPrefixCodeOn id.binary
  let (middle, ptr) ← accountTrie.readPrefixCodeOn ptr
  let (down, _) ← localTrie.readPrefixCodeOn ptr
  .ok (toLex (LongID.ofNat up, toLex (LongID.ofNat middle, LongID.ofNat down)))

/-- `operator==` -/
def equal (self rhs : VarLenFullID) : Except Exn Bool := do
  match ← appTrie.equals self.binary rhs.binary 3 with
  | none => .ok false
  | some (a, b) =>
    match ← accountTrie.equals a b 3 with
    | none => .ok false
    | some (a, b) => .ok (← localTrie.equals a b 3).isSome

/-- `Hash`, which is `noexcept`. -/
def hash (key : VarLenFullID) : Except Exn Nat :=
  match key.toFullID with
  | .ok id => .ok (FullID.hash id)
  | .error _ => .error .terminate

end VarLenFullID

/-! ## The tries -/

theorem make_appTrie : PrefixTrie.make 8 3 (fun i => [0xa0, 0xc000, 0xd00000].getD i 0) =
    .ok appTrie := by
  unfold PrefixTrie.make
  exact if_neg (by decide +kernel)

theorem make_accountTrie : PrefixTrie.make 8 3 (fun i => [0x60, 0xd000, 0xe00000].getD i 0) =
    .ok accountTrie := by
  unfold PrefixTrie.make
  exact if_neg (by decide +kernel)

theorem make_localTrie : PrefixTrie.make 8 3 (fun i => [0xc0, 0xe000, 0xf00000].getD i 0) =
    .ok localTrie := by
  unfold PrefixTrie.make
  exact if_neg (by decide +kernel)

theorem appTrie_accepted : Accepted appTrie := accepted_of_make (by decide) make_appTrie

theorem accountTrie_accepted : Accepted accountTrie := accepted_of_make (by decide) make_accountTrie

theorem localTrie_accepted : Accepted localTrie := accepted_of_make (by decide) make_localTrie

namespace VarLenFullID

/-! ## The codes of an identifier -/

/-- The codes of the application, the account and the local identifier, each with its level. -/
structure Codes where
  up : Nat × Nat
  middle : Nat × Nat
  down : Nat × Nat

/-- The bytes of a code. -/
abbrev bytesOf (code : Nat × Nat) : List Byte := digitBytes code.2 code.1 0

def Codes.bytes (codes : Codes) : List Byte :=
  bytesOf codes.up ++ (bytesOf codes.middle ++ bytesOf codes.down)

structure Codes.Valid (codes : Codes) : Prop where
  up : IsCode appTrie codes.up.1 codes.up.2
  middle : IsCode accountTrie codes.middle.1 codes.middle.2
  down : IsCode localTrie codes.down.1 codes.down.2

variable {codes codes' : Codes} {id id' : VarLenFullID} {binary rest : List Byte}

/-- The constructor accepts what begins with the codes of an identifier. -/
theorem read_ok (h : read binary = .ok (id, rest)) :
    ∃ codes : Codes, codes.Valid ∧ id.binary = codes.bytes ∧ binary = codes.bytes ++ rest := by
  unfold read at h
  obtain ⟨⟨_, reader₁⟩, happ, h⟩ := bind_ok.mp h
  obtain ⟨⟨_, reader₂⟩, haccount, h⟩ := bind_ok.mp h
  obtain ⟨⟨_, reader₃⟩, hlocal, h⟩ := bind_ok.mp h
  obtain ⟨rfl, rfl⟩ := Prod.mk.inj (Except.ok.inj h)
  obtain ⟨k, c, hc, -, rfl⟩ := appTrie_accepted.readPrefixCodeAt_ok happ
  obtain ⟨k', c', hc', -, rfl⟩ := accountTrie_accepted.readPrefixCodeAt_ok haccount
  obtain ⟨k'', c'', hc'', -, rfl⟩ := localTrie_accepted.readPrefixCodeAt_ok hlocal
  have hbytes : digitBytes c k 0 ++ (digitBytes c' k' 0 ++ (digitBytes c'' k'' 0 ++ reader₃)) =
      (⟨(k, c), (k', c'), (k'', c'')⟩ : Codes).bytes ++ reader₃ := by simp [Codes.bytes]
  refine ⟨⟨(k, c), (k', c'), (k'', c'')⟩, ⟨hc, hc', hc''⟩, ?_, hbytes⟩
  dsimp only
  rw [hbytes]
  apply List.take_left'
  rw [List.length_append, Nat.add_sub_cancel]

theorem getLen_eq (hcodes : codes.Valid) (hbinary : id.binary = codes.bytes) :
    id.getLen = .ok id.binary.length := by
  have hlocal := localTrie_accepted.readPrefixCodeOn_eq hcodes.down []
  rw [List.append_nil] at hlocal
  unfold getLen
  rw [hbinary, Codes.bytes, appTrie_accepted.readPrefixCodeOn_eq hcodes.up]
  simp only [bind, Except.bind]
  rw [accountTrie_accepted.readPrefixCodeOn_eq hcodes.middle]
  dsimp only
  rw [hlocal]
  rfl

/-- The identifier with these codes. -/
def Codes.fullID (codes : Codes) : FullID :=
  toLex (LongID.ofNat (aligned 8 codes.up.1 codes.up.2),
    toLex (LongID.ofNat (aligned 8 codes.middle.1 codes.middle.2),
    LongID.ofNat (aligned 8 codes.down.1 codes.down.2)))

theorem toFullID_eq (hcodes : codes.Valid) (hbinary : id.binary = codes.bytes) :
    id.toFullID = .ok codes.fullID := by
  have hlocal := localTrie_accepted.readPrefixCodeOn_eq hcodes.down []
  rw [List.append_nil] at hlocal
  unfold toFullID
  rw [hbinary, Codes.bytes, appTrie_accepted.readPrefixCodeOn_eq hcodes.up]
  simp only [bind, Except.bind]
  rw [accountTrie_accepted.readPrefixCodeOn_eq hcodes.middle]
  dsimp only
  rw [hlocal]
  rfl

/-- Aligned codes are 64-bit numbers, so the conversion keeps them apart. -/
theorem code_eq_of_ofNat {t : PrefixTrie 8 3} (ht : Accepted t) {code code' : Nat × Nat}
    (hc : IsCode t code.1 code.2)
    (hc' : IsCode t code'.1 code'.2)
    (heq : LongID.ofNat (aligned 8 code.1 code.2) = LongID.ofNat (aligned 8 code'.1 code'.2)) :
    code = code' := by
  have hlt : aligned 8 code.1 code.2 < 2 ^ 64 := ht.aligned_lt hc
  have hlt' : aligned 8 code'.1 code'.2 < 2 ^ 64 := ht.aligned_lt hc'
  have hval := congrArg Fin.val heq
  simp only [LongID.ofNat, Fin.val_ofNat, Nat.mod_eq_of_lt hlt, Nat.mod_eq_of_lt hlt'] at hval
  obtain ⟨hk, hcode⟩ := ht.aligned_inj hc hc' hval
  exact Prod.ext hk hcode

theorem Codes.fullID_inj (hcodes : codes.Valid) (hcodes' : codes'.Valid)
    (heq : codes.fullID = codes'.fullID) : codes = codes' := by
  obtain ⟨happ, hdown⟩ := Prod.mk.inj (toLex.injective heq)
  obtain ⟨haccount, hlocal⟩ := Prod.mk.inj (toLex.injective hdown)
  have happ := code_eq_of_ofNat appTrie_accepted hcodes.up hcodes'.up happ
  have haccount := code_eq_of_ofNat accountTrie_accepted hcodes.middle hcodes'.middle haccount
  have hlocal := code_eq_of_ofNat localTrie_accepted hcodes.down hcodes'.down hlocal
  cases codes
  cases codes'
  simp only [Codes.mk.injEq]
  exact ⟨happ, haccount, hlocal⟩

theorem Codes.bytes_inj (hcodes : codes.Valid) (hcodes' : codes'.Valid)
    (heq : codes.bytes = codes'.bytes) : codes = codes' := by
  obtain ⟨happ, happ', hrest⟩ := appTrie_accepted.digitBytes_inj hcodes.up hcodes'.up heq
  obtain ⟨haccount, haccount', hlocal⟩ :=
    accountTrie_accepted.digitBytes_inj hcodes.middle hcodes'.middle hrest
  have hlocal : bytesOf codes.down ++ [] = bytesOf codes'.down ++ [] := by rw [hlocal]
  obtain ⟨hlocal, hlocal', -⟩ := localTrie_accepted.digitBytes_inj hcodes.down hcodes'.down hlocal
  cases codes
  cases codes'
  simp only [Codes.mk.injEq]
  exact ⟨Prod.ext happ happ', Prod.ext haccount haccount', Prod.ext hlocal hlocal'⟩

/-- The comparison stops at the first code that differs, and does not throw. -/
theorem equal_eq (hcodes : codes.Valid) (hcodes' : codes'.Valid) (hbinary : id.binary = codes.bytes)
    (hbinary' : id'.binary = codes'.bytes) :
    ∃ r, id.equal id' = .ok r ∧ (r = true ↔ codes = codes') := by
  have happ := appTrie_accepted.equals_eq hcodes.up hcodes'.up
    (bytesOf codes.middle ++ bytesOf codes.down)
    (bytesOf codes'.middle ++ bytesOf codes'.down)
  have haccount := accountTrie_accepted.equals_eq hcodes.middle hcodes'.middle (bytesOf codes.down)
    (bytesOf codes'.down)
  have hlocal := localTrie_accepted.equals_eq hcodes.down hcodes'.down [] []
  rw [List.append_nil, List.append_nil] at hlocal
  obtain ⟨⟨k₁, c₁⟩, ⟨k₂, c₂⟩, ⟨k₃, c₃⟩⟩ := codes
  obtain ⟨⟨k₁', c₁'⟩, ⟨k₂', c₂'⟩, ⟨k₃', c₃'⟩⟩ := codes'
  unfold equal
  rw [hbinary, hbinary']
  simp only [Codes.bytes, Codes.mk.injEq, Prod.mk.injEq] at happ haccount hlocal ⊢
  rw [show ((3 : Nat) : Int) = 3 from rfl] at happ haccount hlocal
  rw [happ]
  by_cases h₁ : k₁ = k₁' ∧ c₁ = c₁'
  · rw [if_pos h₁]
    simp only [bind, Except.bind]
    rw [haccount]
    by_cases h₂ : k₂ = k₂' ∧ c₂ = c₂'
    · rw [if_pos h₂]
      dsimp only
      rw [hlocal]
      by_cases h₃ : k₃ = k₃' ∧ c₃ = c₃'
      · rw [if_pos h₃]
        exact ⟨true, rfl, by simp [h₁, h₂, h₃]⟩
      · rw [if_neg h₃]
        exact ⟨false, rfl, by simp [h₃]⟩
    · rw [if_neg h₂]
      exact ⟨false, rfl, by simp [h₂]⟩
  · rw [if_neg h₁]
    exact ⟨false, rfl, by simp [h₁]⟩

/-! ## Identifiers that are read -/

/-- The identifier holds the bytes that the constructor has passed. -/
structure HoldsRead (binary rest : List Byte) (id : VarLenFullID) : Prop where
  getLen : ∃ len, id.getLen = .ok len ∧ len ≤ binary.length ∧ rest = binary.drop len ∧
    id.binary = binary.take len

/-- How two identifiers compare: `operator==` returns, and tells, as their conversions do, whether
their bytes are equal. -/
structure Compared (id id' : VarLenFullID) : Prop where
  equal : ∃ r, id.equal id' = .ok r ∧ (r = true ↔ id.binary = id'.binary)
  fullID : ∃ full full', id.toFullID = .ok full ∧ id'.toFullID = .ok full' ∧
    (full = full' ↔ id.binary = id'.binary)
  hash : ∃ n n', id.hash = .ok n ∧ id'.hash = .ok n' ∧ (id.binary = id'.binary → n = n')

theorem holdsRead_of_read (h : read binary = .ok (id, rest)) : HoldsRead binary rest id := by
  obtain ⟨codes, hcodes, hbinary, rfl⟩ := read_ok h
  refine ⟨id.binary.length, getLen_eq hcodes hbinary, ?_, ?_, ?_⟩
  · rw [hbinary, List.length_append]
    exact Nat.le_add_right _ _
  · rw [hbinary, List.drop_left]
  · rw [hbinary, List.take_left]

theorem compared_of_codes (hcodes : codes.Valid) (hcodes' : codes'.Valid)
    (hbinary : id.binary = codes.bytes)
    (hbinary' : id'.binary = codes'.bytes) : Compared id id' := by
  have hbytes : codes = codes' ↔ id.binary = id'.binary := by
    rw [hbinary, hbinary']
    exact ⟨congrArg Codes.bytes, Codes.bytes_inj hcodes hcodes'⟩
  have hfull := toFullID_eq hcodes hbinary
  have hfull' := toFullID_eq hcodes' hbinary'
  constructor
  · rw [← hbytes]
    exact equal_eq hcodes hcodes' hbinary hbinary'
  · refine ⟨_, _, hfull, hfull', ?_⟩
    rw [← hbytes]
    exact ⟨Codes.fullID_inj hcodes hcodes', congrArg Codes.fullID⟩
  · refine ⟨_, _, by rw [VarLenFullID.hash, hfull], by rw [VarLenFullID.hash, hfull'], ?_⟩
    intro heq
    rw [hbytes.mpr heq]

/-- **Identifiers.** An identifier that the constructor reads holds the bytes that the reader
passes, as many as `getLen` tells. Two of them are compared without an exception and without a byte
after either: they are equal if, and only if, their bytes are, and if, and only if, their `FullID`s
are. The overloads of `readPrefixCode` read the same codes of every trie. -/
theorem read_compared {binary' rest' : List Byte} (h : read binary = .ok (id, rest))
    (h' : read binary' = .ok (id', rest')) :
    HoldsRead binary rest id ∧ HoldsRead binary' rest' id' ∧ Compared id id' ∧
      ∀ (size height : Nat) (trie : Nat → Nat) (t : PrefixTrie size height), height ≤ size →
        make size height trie = .ok t → ReadersAgree t := by
  obtain ⟨codes, hcodes, hbinary, -⟩ := read_ok h
  obtain ⟨codes', hcodes', hbinary', -⟩ := read_ok h'
  refine ⟨holdsRead_of_read h, holdsRead_of_read h',
    compared_of_codes hcodes hcodes' hbinary hbinary', ?_⟩
  intro size height trie t hfits hmake
  exact (accepted_of_make hfits hmake).readersAgree

/-- Two identifiers of an application and an account whose local identifiers differ
in the last byte. -/
theorem read_compared_siblings :
    Compared ⟨[0xa1, 0x00, 0x5f, 0xe1, 0x02, 0x03]⟩ ⟨[0xa1, 0x00, 0x5f, 0xe1, 0x02, 0x04]⟩ := by
  have h : read [0xa1, 0x00, 0x5f, 0xe1, 0x02, 0x03, 0xff] =
      .ok (⟨[0xa1, 0x00, 0x5f, 0xe1, 0x02, 0x03]⟩, [0xff]) := by decide +kernel
  have h' : read [0xa1, 0x00, 0x5f, 0xe1, 0x02, 0x04] =
      .ok (⟨[0xa1, 0x00, 0x5f, 0xe1, 0x02, 0x04]⟩, []) := by decide +kernel
  exact (read_compared h h').2.2.1

end VarLenFullID

end Argennon
