import Argennon.Core.Primitives
import Argennon.Lib.LevelCode

/- `PrefixTrie` (`util/PrefixTrie.hpp`): codes of a variable number of bytes, by a boundary for
   each number of bytes. A value of the template type `T`, of `size` bytes, is a number below
   `2 ^ (8 * size)`, and its arithmetic is modulo that. A pointer into a byte array is what is
   left of the array. -/
namespace Argennon

/-- `PrefixTrie<T, height>`: its tables. -/
structure PrefixTrie (size height : Nat) where
  boundary : Nat → Nat
  sum : Nat → Nat
  trie : Nat → Nat

namespace PrefixTrie
variable {size height : Nat}

/-- `(sizeof(T) - i - 1) * 8` -/
def shift (size i : Nat) : Nat := (size - i - 1) * 8

/-- Reduces a number to one of type `T`. -/
def wrap (size n : Nat) : Nat := n % 2 ^ (8 * size)

/-- Subtraction of numbers of type `T`. -/
def sub (size a b : Nat) : Nat := wrap size (a + 2 ^ (8 * size) - b)

/-- The loop that fills `sum`. -/
def sumTable (size : Nat) (trie : Nat → Nat) : Nat → Nat
  | 0 => trie 0
  | i + 1 => sub size (wrap size (sumTable size trie i + trie (i + 1))) (wrap size (trie i <<< 8))

/-- The tables that the constructor fills from the array `trie` of `height` numbers. -/
def tables (size height : Nat) (trie : Nat → Nat) : PrefixTrie size height where
  boundary := fun i => wrap size (trie i <<< shift size i)
  sum := sumTable size fun i => trie i &&& ((2 ^ (8 * size) - 1) >>> shift size i)
  trie := fun i => trie i &&& ((2 ^ (8 * size) - 1) >>> shift size i)

/-- The constructor. -/
def make (size height : Nat) (trie : Nat → Nat) : Except Exn (PrefixTrie size height) :=
  let t := tables size height trie
  if ∃ i < height, 0 < i ∧ t.boundary (i - 1) > t.boundary i then
    .error (.invalidArgument "malformed trie")
  else .ok t

/-- The loop of `readPrefixCode(binary, len, maxLength)` from byte `i`, for what is left of the
bytes: the code and its length. -/
def readLoop (t : PrefixTrie size height) : Nat → Nat → Nat → List Byte → Except Exn (Nat × Nat)
  | 0, _, _, _ => .error (.outOfRange "readPrefixCode: invalid identifier")
  | _ + 1, _, _, [] => .error .undefined
  | n + 1, i, id, byte :: binary =>
    let id := id ||| wrap size (byte.toNat <<< shift size i)
    if id < t.boundary i then .ok (id, i + 1) else readLoop t n (i + 1) id binary

/-- `readPrefixCode(binary, len, maxLength)` -/
def readPrefixCode (t : PrefixTrie size height) (binary : List Byte) (maxLength : Int) :
    Except Exn (Nat × Nat) :=
  let maxLength := if maxLength > height then (height : Int) else maxLength
  t.readLoop maxLength.toNat 0 0 binary

/-- `readPrefixCode(reader, end)`: the code, and the bytes from the reader to the end. -/
def readPrefixCodeAt (t : PrefixTrie size height) (reader : List Byte) :
    Except Exn (Nat × List Byte) := do
  let (id, len) ← t.readLoop (min reader.length height) 0 0 reader
  .ok (id, reader.drop len)

/-- The loop of `encodeVarUInt` from level `i`. -/
def encodeLoop (t : PrefixTrie size height) (value : Nat) : Nat → Nat → Except Exn (Nat × Nat)
  | 0, _ => .error (.overflowError "encodeVarUInt: value too large")
  | n + 1, i =>
    if value < t.sum i then
      let bound := t.trie i
      .ok (wrap size (sub size bound (sub size (t.sum i) value) <<< shift size i), i + 1)
    else encodeLoop t value n (i + 1)

/-- `encodeVarUInt(value, len)`: the code, aligned to the left, and its length. -/
def encodeVarUInt (t : PrefixTrie size height) (value : Nat) : Except Exn (Nat × Nat) :=
  t.encodeLoop value height 0

/-- `decodeVarUInt(binary, len, maxLength)` for a byte array:
the value and the length of its code. -/
def decodeVarUInt (t : PrefixTrie size height) (binary : List Byte) (maxLength : Int) :
    Except Exn (Nat × Nat) := do
  let (code, n) ← t.readPrefixCode binary maxLength
  let code := code >>> ((size - n) * 8)
  let bound := t.trie (n - 1)
  .ok (sub size (wrap size (t.sum (n - 1) + code)) bound, n)

/-- The conversion of a distance in bytes, a `ptrdiff_t`, to `int`. -/
def toInt (n : Nat) : Int := if n % 2 ^ 32 < 2 ^ 31 then (n % 2 ^ 32 : Nat)
  else (n % 2 ^ 32 : Nat) - 2 ^ 32

/-- `decodeVarUInt(reader, end)`: the value, and the bytes from the reader to the end. -/
def decodeVarUIntAt (t : PrefixTrie size height) (reader : List Byte) :
    Except Exn (Nat × List Byte) := do
  let (ret, len) ← t.decodeVarUInt reader (toInt reader.length)
  .ok (ret, reader.drop len)

/-- `writeBigEndian(dest, value, n)`: the bytes that are written. -/
def writeBigEndian (size value n : Nat) : List Byte :=
  (List.range n).map fun i => UInt8.ofNat (value >>> shift size i)

/-! ## Streams -/

/-- The values are written one after the other. -/
def encodeAll (t : PrefixTrie size height) : List Nat → Except Exn (List Byte)
  | [] => .ok []
  | value :: values => do
    let (code, len) ← t.encodeVarUInt value
    let rest ← t.encodeAll values
    .ok (writeBigEndian size code len ++ rest)

/-- Values are read one after the other; what is left of the bytes. -/
def decodeAll (t : PrefixTrie size height) : Nat → List Byte → Except Exn (List Nat × List Byte)
  | 0, reader => .ok ([], reader)
  | n + 1, reader => do
    let (value, reader) ← t.decodeVarUIntAt reader
    let (values, reader) ← t.decodeAll n reader
    .ok (value :: values, reader)

end PrefixTrie

/-- The array of `var_uint_trie_g`. -/
def varUIntTrieArray : Nat → Nat
  | 0 => 0xd0
  | 1 => 0xf000
  | 2 => 0xfc0000
  | _ => 0xffffff00

/-- `var_uint_trie_g`, of type `PrefixTrie<uint32_t, 4>`. -/
def varUIntTrie : PrefixTrie 4 4 := PrefixTrie.tables 4 4 varUIntTrieArray

theorem make_varUIntTrieArray : PrefixTrie.make 4 4 varUIntTrieArray = .ok varUIntTrie := by
  unfold PrefixTrie.make
  exact if_neg (by decide +kernel)

example : (varUIntTrie.encodeVarUInt 8192).toOption = some (0xef300000, 2) := by decide +kernel

end Argennon
