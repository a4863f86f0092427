import Argennon.Core.Info
import Mathlib.Data.List.GetD

/- Chunks of the heap (`ascee/heap/Chunk.h`, `ascee/heap/Chunk.cpp`).

   A chunk owns an allocated memory (`content`, of length `capacity`), of which the
   first `chunkSize` bytes are in use. Numbers are stored little-endian. -/
namespace Argennon

/-- The `n` bytes of a number, the lowest first. -/
def leBytes : Nat → Nat → List Byte
  | 0, _ => []
  | n + 1, v => UInt8.ofNat (v % 256) :: leBytes n (v / 256)

/-- The number stored in the bytes. -/
def leNat : List Byte → Nat
  | [] => 0
  | b :: bs => b.toNat + 256 * leNat bs

/-- `memcpy(mem + offset, bytes, len)`: the memory keeps its length. -/
def writeAt (mem : List Byte) (offset : Nat) (bytes : List Byte) : List Byte :=
  mem.mapIdx fun i b => if offset ≤ i then bytes.getD (i - offset) b else b

/-- The `n` bytes at `offset`. Every caller has checked that they are in the memory. -/
def readAt (mem : List Byte) (offset n : Nat) : List Byte :=
  (List.range n).map fun i => mem.getD (offset + i) 0

/-! ## Bytes -/

@[simp] theorem leBytes_length (n v : Nat) : (leBytes n v).length = n := by
  induction n generalizing v with
  | zero => rfl
  | succ n ih => simp [leBytes, ih]

theorem leNat_leBytes (n v : Nat) : leNat (leBytes n v) = v % 256 ^ n := by
  induction n generalizing v with
  | zero => simp [leBytes, leNat, Nat.mod_one]
  | succ n ih =>
    have hb : (UInt8.ofNat (v % 256)).toNat = v % 256 := by
      rw [UInt8.toNat_ofNat']
      omega
    rw [leBytes, leNat, ih, hb, Nat.pow_succ, Nat.mul_comm _ 256, Nat.mod_mul]

@[simp] theorem writeAt_length (mem : List Byte) (offset : Nat) (bytes : List Byte) :
    (writeAt mem offset bytes).length = mem.length := by
  simp [writeAt]

theorem writeAt_getElem? (mem : List Byte) (offset : Nat) (bytes : List Byte) (i : Nat) :
    (writeAt mem offset bytes)[i]? =
      mem[i]?.map fun b => if offset ≤ i then bytes.getD (i - offset) b else b := by
  simp [writeAt]

/-- Bytes outside the written range keep their value. -/
theorem writeAt_frame {mem : List Byte} {offset : Nat} {bytes : List Byte} {i : Nat}
    (h : i < offset ∨ offset + bytes.length ≤ i) : (writeAt mem offset bytes)[i]? = mem[i]? := by
  rw [writeAt_getElem?]
  cases mem[i]? with
  | none => rfl
  | some b =>
    simp only [Option.map_some]
    split
    · rw [List.getD_eq_default _ _ (by omega)]
    · rfl

theorem writeAt_nil (mem : List Byte) (offset : Nat) : writeAt mem offset [] = mem := by
  apply List.ext_getElem?
  intro i
  exact writeAt_frame (by rw [List.length_nil]; omega)

@[simp] theorem readAt_length (mem : List Byte) (offset n : Nat) :
    (readAt mem offset n).length = n := by
  simp [readAt]

theorem readAt_getElem? (mem : List Byte) (offset n i : Nat) :
    (readAt mem offset n)[i]? = if i < n then some (mem.getD (offset + i) 0) else none := by
  by_cases h : i < n <;> simp [readAt, h]

@[simp] theorem readAt_getElem {mem : List Byte} {offset n i : Nat}
    (h : i < (readAt mem offset n).length) :
    (readAt mem offset n)[i] = mem.getD (offset + i) 0 := by
  simp [readAt]

/-- A read depends only on the bytes it reads. -/
theorem readAt_congr {mem mem' : List Byte} {offset n : Nat}
    (h : ∀ i, offset ≤ i → i < offset + n → mem.getD i 0 = mem'.getD i 0) :
    readAt mem offset n = readAt mem' offset n := by
  unfold readAt
  apply List.map_congr_left
  intro i hi
  exact h _ (by omega) (by have := List.mem_range.mp hi; omega)

/-- The whole memory. -/
theorem readAt_self {mem : List Byte} {n : Nat} (h : mem.length = n) : readAt mem 0 n = mem := by
  subst h
  apply List.ext_getElem?
  intro i
  rw [readAt_getElem?]
  split
  · rename_i hi
    rw [Nat.zero_add, List.getD_eq_getElem _ _ hi, List.getElem?_eq_getElem hi]
  · rw [List.getElem?_eq_none (by omega)]

/-- A write that covers the memory leaves its own bytes. -/
theorem writeAt_all {mem bytes : List Byte} (h : bytes.length = mem.length) :
    writeAt mem 0 bytes = bytes := by
  apply List.ext_getElem?
  intro i
  rw [writeAt_getElem?]
  rcases Nat.lt_or_ge i mem.length with hi | hi
  · have hi' : i < bytes.length := h ▸ hi
    simp [List.getElem?_eq_getElem hi, List.getElem?_eq_getElem hi']
  · rw [List.getElem?_eq_none hi, List.getElem?_eq_none (h ▸ hi)]
    rfl

/-! ## Chunks -/

/-- `Chunk::maxAllowedCapacity` -/
def maxAllowedCapacity : Nat := 64 * 1024

/-- `Chunk` -/
@[ext]
structure Chunk where
  content : List Byte := []
  chunkSize : Nat := 0
  writable : Bool := true
  size_le : chunkSize ≤ content.length := by decide
  capacity_le : content.length ≤ maxAllowedCapacity := by decide

namespace Chunk

/-- The default constructor. -/
def empty : Chunk := {}

def capacity (c : Chunk) : Nat := c.content.length

def getsize (c : Chunk) : Nat := c.chunkSize

def isWritable (c : Chunk) : Bool := c.writable

def setWritable (c : Chunk) (writable : Bool) : Chunk := { c with writable }

/-- `getContentPointer`: the checked offset. The sum is of unsigned 32-bit values. -/
def getContentPointer (c : Chunk) (offset size : Nat) : Except Exn Nat :=
  if offset + size > c.capacity then .error (.outOfRange "out of allocated memory range")
  else .ok offset

/-- Replacing the content by one of the same length. -/
def withContent (c : Chunk) (content : List Byte) (h : content.length = c.content.length) : Chunk :=
  { c with
    content
    size_le := by rw [h]; exact c.size_le
    capacity_le := by rw [h]; exact c.capacity_le }

/-- A write into the chunk's memory. -/
def writeBytes (c : Chunk) (offset : Nat) (bytes : List Byte) : Chunk :=
  c.withContent (writeAt c.content offset bytes) (writeAt_length _ _ _)

/-- `setSize`: the bytes given up by a shrink are zeroed. -/
def setSize (c : Chunk) (newSize : Nat) : Except Exn Chunk :=
  if h : newSize ≤ c.content.length then
    .ok { c with
      content := writeAt c.content newSize (List.replicate (c.chunkSize - newSize) 0)
      chunkSize := newSize
      size_le := by simpa using h
      capacity_le := by simpa using c.capacity_le }
  else .error (.assertion "newSize <= capacity")

/-- `resize`, for a capacity that is no smaller. -/
def resize (c : Chunk) (newCapacity : Nat) (h : c.content.length ≤ newCapacity)
    (h' : newCapacity ≤ maxAllowedCapacity) : Chunk :=
  { c with
    content := c.content.take c.chunkSize ++ List.replicate (newCapacity - c.chunkSize) 0
    size_le := by
      have := c.size_le
      simp
      omega
    capacity_le := by
      have := c.size_le
      simp
      omega }

/-- `reserveSpace` -/
def reserveSpace (c : Chunk) (newCapacity : Nat) : Except Exn Chunk :=
  if h : newCapacity ≤ maxAllowedCapacity then
    if h' : newCapacity ≤ c.content.length then .ok c
    else .ok (c.resize newCapacity (Nat.le_of_not_le h') h)
  else .error (.assertion "newCapacity <= maxAllowedCapacity && newCapacity >= 0")

end Chunk

/-- The chunk of each identifier. -/
abbrev Heap := FullID → Chunk

end Argennon
