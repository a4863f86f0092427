import Argennon.Heap.Chunk
import Argennon.Lib.VersionStack

/- `RestrictedModifier::AccessBlock` (`ascee/heap/RestrictedModifier.h`,
   `ascee/heap/RestrictedModifier.cpp`): a declared block of a chunk and the stack of
   its versions.

   The source appends to `versionList`; here the newest version is the head. An
   operation gets the bytes at `heapLocation` as `base` and returns its result with
   the block it leaves, also when it throws. An integer is given by its two's
   complement bytes, so sums are taken modulo the width. -/
namespace Argennon

open VersionStack

/-- `max_chunk_size` -/
def maxChunkSize : Nat := 64 * 1024

/-- `AccessBlock::Version` -/
abbrev Version := VersionStack.Entry (List Byte)

/-- `AccessBlock` -/
structure AccessBlock where
  heapLocation : Nat
  size : Nat
  accessType : Access
  versionList : List Version := []
  content_length : ∀ v ∈ versionList, v.content.length = size := by simp

namespace AccessBlock

/-- The constructor. -/
def new (heapLocation size : Nat) (accessType : Access) : Except Exn AccessBlock :=
  if size ≤ maxChunkSize then .ok { heapLocation, size, accessType }
  else .error (.assertion "size <= max_chunk_size")

/-- A block without versions. -/
def unwritten (heapLocation size : Nat) (accessType : Access) : AccessBlock :=
  { heapLocation, size, accessType }

/-- `syncTo` -/
def syncTo (b : AccessBlock) (version : Nat) : AccessBlock :=
  { b with
    versionList := sync version b.versionList
    content_length := fun v hv => b.content_length v (mem_of_mem_sync hv) }

/-- The content on top, or the bytes of the heap when there is no version. -/
def latest (b : AccessBlock) (base : List Byte) : List Byte := (top b.versionList).getD base

/-- `versionList.emplace_back(version, size)`: the new content is zeroed. -/
def push (b : AccessBlock) (version : Nat) : AccessBlock :=
  { b with
    versionList := ⟨version, List.replicate b.size 0⟩ :: b.versionList
    content_length := List.forall_mem_cons.mpr ⟨by simp, b.content_length⟩ }

/-- `ensureExists`; the flag tells whether a version was added. -/
def ensureExists (b : AccessBlock) (version : Nat) : Except Exn (AccessBlock × Bool) :=
  if version < 1 then .error (.assertion "version >= 1")
  else match b.versionList with
    | [] => .ok (b.push version, true)
    | v :: _ =>
      if version < v.number then .error (.assertion "latestVersion <= version")
      else if v.number = version then .ok (b, false)
      else .ok (b.push version, true)

/-- A change of the bytes of the version on top. -/
def mapTop (b : AccessBlock) (f : List Byte → List Byte) (hf : ∀ l, (f l).length = l.length) :
    AccessBlock :=
  { b with
    versionList := match b.versionList with
      | [] => []
      | v :: rest => { v with content := f v.content } :: rest
    content_length := by
      have h := b.content_length
      cases hl : b.versionList with
      | nil => simp
      | cons v rest =>
        rw [hl] at h
        obtain ⟨hv, hrest⟩ := List.forall_mem_cons.mp h
        exact List.forall_mem_cons.mpr ⟨(hf _).trans hv, hrest⟩ }

/-- `memcpy` into the version on top. -/
def writeTop (b : AccessBlock) (offset : Nat) (bytes : List Byte) : AccessBlock :=
  b.mapTop (fun l => writeAt l offset bytes) fun _ => writeAt_length _ _ _

/-- `read<T>`, `n` being the size of `T`: `prepareToRead` and the copy out. -/
def read (b : AccessBlock) (base : List Byte) (version index n : Nat) :
    Except Exn (List Byte) × AccessBlock :=
  if index + n > b.size then (.error (.outOfRange "out of block read"), b)
  else if b.accessType.denies .read then (.error (.outOfRange "access block is not readable"), b)
  else
    let b := b.syncTo version
    (.ok (readAt (b.latest base) index n), b)

/-- `write<T>`: `prepareToWrite` and the copy in. -/
def write (b : AccessBlock) (base : List Byte) (version index : Nat) (value : List Byte) :
    Except Exn Unit × AccessBlock :=
  let writeSize := value.length
  if index + writeSize > b.size then (.error (.outOfRange "out of block write"), b)
  else if b.accessType.denies .write then (.error (.outOfRange "block is not writable"), b)
  else
    let b := b.syncTo version
    let oldContent := b.latest base
    match b.ensureExists version with
    | .error e => (.error e, b)
    | .ok (b, added) =>
      let b :=
        if added ∧ b.size ≠ writeSize then
          (b.writeTop 0 (readAt oldContent 0 index)).writeTop (index + writeSize)
            (readAt oldContent (index + writeSize) (b.size - writeSize - index))
        else b
      (.ok (), b.writeTop index value)

/-- `addInt<T>`, `n` being the size of `T`: the block holds the sum added so far. -/
def addInt (b : AccessBlock) (version n value : Nat) : Except Exn Unit × AccessBlock :=
  if n ≠ b.size then (.error (.outOfRange "addInt size"), b)
  else if b.accessType.denies .int_add then (.error (.outOfRange "block is not additive"), b)
  else
    let b := b.syncTo version
    let current := ((top b.versionList).map leNat).getD 0
    match b.ensureExists version with
    | .error e => (.error e, b)
    | .ok (b, _) => (.ok (), b.writeTop 0 (leBytes n (current + value)))

/-- `wrToHeap` -/
def wrToHeap (b : AccessBlock) (chunk : Chunk) (version maxWriteSize : Nat) : Except Exn Chunk :=
  match top (b.syncTo version).versionList with
  | none => .ok chunk
  | some content =>
    let writeSize := min b.size maxWriteSize
    if b.accessType.isAdditive then
      if b.size > 8 then .error (.assertion "size <= sizeof(int64_t)")
      else
        let s := leNat (readAt chunk.content b.heapLocation b.size)
        let a := leNat content
        .ok (chunk.writeBytes b.heapLocation ((leBytes 8 (s + a)).take writeSize))
    else .ok (chunk.writeBytes b.heapLocation (content.take writeSize))

/-! ## What the operations compute -/

section
variable {b b' : AccessBlock} {version : Nat}

/-- Two blocks that differ at most in their versions. -/
structure SameBlock (b b' : AccessBlock) : Prop where
  heapLocation : b'.heapLocation = b.heapLocation
  size : b'.size = b.size
  accessType : b'.accessType = b.accessType

theorem SameBlock.refl (b : AccessBlock) : SameBlock b b := ⟨rfl, rfl, rfl⟩

theorem latest_syncTo (b : AccessBlock) (version : Nat) (base : List Byte) :
    (b.syncTo version).latest base = (view version b.versionList).getD base := rfl

/-- The content a block shows has the block's size. -/
theorem latest_length {base : List Byte} (h : base.length = b.size) :
    (b.latest base).length = b.size := by
  unfold latest top
  cases hl : b.versionList with
  | nil => exact h
  | cons v rest => exact b.content_length v (by rw [hl]; exact List.mem_cons_self)

/-- After a sync, `ensureExists` fails only at version 0, and leaves the version on top. -/
theorem ensureExists_syncTo (b : AccessBlock) (version : Nat) (hv : 1 ≤ version) :
    (∃ rest c, (b.syncTo version).versionList = ⟨version, c⟩ :: rest ∧
      (b.syncTo version).ensureExists version = .ok (b.syncTo version, false)) ∨
    ((∀ e ∈ (b.syncTo version).versionList.head?, e.number ≠ version) ∧
      (b.syncTo version).ensureExists version = .ok ((b.syncTo version).push version, true)) := by
  have h0 : ¬ version < 1 := by omega
  cases hl : (b.syncTo version).versionList with
  | nil => exact .inr ⟨by simp, by simp [ensureExists, h0, hl]⟩
  | cons e rest =>
    have hle : e.number ≤ version := sync_head_le (s := b.versionList) hl
    have hnlt : ¬ version < e.number := by omega
    by_cases he : e.number = version
    · subst he
      exact .inl ⟨rest, e.content, rfl, by simp [ensureExists, h0, hl]⟩
    · exact .inr ⟨by simpa using he, by simp [ensureExists, h0, hl, hnlt, he]⟩

/-- The copy of the old content around the written bytes. -/
theorem copy_around {old value : List Byte} {index size : Nat} (ho : old.length = size)
    (hi : index + value.length ≤ size) :
    writeAt (writeAt (writeAt (List.replicate size 0) 0 (readAt old 0 index)) (index + value.length)
      (readAt old (index + value.length) (size - value.length - index))) index value =
      writeAt old index value := by
  subst ho
  apply List.ext_getElem?
  intro i
  rcases Nat.lt_or_ge i old.length with h | h
  swap
  · rw [List.getElem?_eq_none (by simpa using h), List.getElem?_eq_none (by simpa using h)]
  simp only [writeAt_getElem?, List.getElem?_eq_getElem h,
    List.getElem?_eq_getElem (show i <
      (List.replicate old.length (0 : Byte)).length by simpa using h),
    Option.map_some, Option.some.injEq, Nat.zero_le, if_true, Nat.sub_zero,
      List.getD_eq_getElem?_getD]
  by_cases h1 : index ≤ i
  · by_cases h2 : i < index + value.length
    · have : i - index < value.length := by omega
      simp [h1, this]
    · have h3 : ¬ i - index < value.length := by omega
      have h4 : index + value.length ≤ i := by omega
      have h5 : i - (index + value.length) < old.length - value.length - index := by omega
      have h6 : index + value.length + (i - (index + value.length)) = i := by omega
      simp [h1, h3, h4, h5, h6, h]
  · have h2 : ¬ index + value.length ≤ i := by omega
    have h3 : i < index := by omega
    simp [h1, h2, h3, h]

/-- A write at a version puts the changed content on top of the synced stack. -/
theorem write_ok {base value : List Byte} {index : Nat} (hb : base.length = b.size)
    (hv : 1 ≤ version)
    (hi : index + value.length ≤ b.size) (hd : b.accessType.denies .write = false) :
    ∃ b', b.write base version index value = (.ok (), b') ∧ SameBlock b b' ∧
      b'.versionList = put version (writeAt ((view version b.versionList).getD base) index value)
        (sync version b.versionList) := by
  have hlen := @latest_length (b.syncTo version) base hb
  have hsize : (b.syncTo version).size = b.size := rfl
  unfold write
  simp only [Nat.not_lt.mpr hi, if_false, hd, Bool.false_eq_true]
  rcases ensureExists_syncTo b version hv with ⟨rest, c, hl, he⟩ | ⟨hne, he⟩
  · -- the version exists: its content is changed in place
    simp only [he, Bool.false_eq_true, false_and, if_false]
    refine ⟨_, rfl, ⟨rfl, rfl, rfl⟩, ?_⟩
    have hl' : sync version b.versionList = ⟨version, c⟩ :: rest := hl
    simp only [writeTop, mapTop, hl, hl', view, top, put_cons, List.head?_cons, Option.map_some,
      Option.getD_some,
      if_true]
  · -- a version is pushed: the old content is copied unless the write covers the block
    simp only [he, true_and]
    refine ⟨_, rfl, ⟨?_, ?_, ?_⟩, ?_⟩
    · split <;> rfl
    · split <;> rfl
    · split <;> rfl
    have hput : put version (writeAt ((view version b.versionList).getD base) index value)
        (sync version b.versionList) =
        ⟨version, writeAt ((b.syncTo version).latest base) index value⟩ ::
          (b.syncTo version).versionList := by
      have hne' : ∀ e ∈ (sync version b.versionList).head?, e.number ≠ version := hne
      rw [latest_syncTo]
      change _ = _ :: sync version b.versionList
      cases hs : sync version b.versionList with
      | nil => rfl
      | cons e rest =>
        rw [hs] at hne'
        rw [put_cons, if_neg (hne' e rfl)]
    rw [hput]
    by_cases hw : b.size = value.length
    · -- the whole block is written: nothing is copied
      have hi0 : index = 0 := by omega
      subst hi0
      have hskip : ¬ ((b.syncTo version).push version).size ≠ value.length := by
        simpa [push, hsize] using hw
      rw [if_neg hskip]
      simp only [writeTop, mapTop, push]
      rw [writeAt_all (by simp [hsize, hw]), writeAt_all (by rw [hlen, hsize, hw])]
    · have hcopy : ((b.syncTo version).push version).size ≠ value.length := by
        simpa [push, hsize] using hw
      rw [if_pos hcopy]
      simp only [writeTop, mapTop, push, hsize]
      rw [copy_around (by rw [hlen, hsize]) hi]

theorem addInt_ok {n value : Nat} (hv : 1 ≤ version) (hn : n = b.size)
    (hd : b.accessType.denies .int_add = false) :
    ∃ b', b.addInt version n value = (.ok (), b') ∧ SameBlock b b' ∧
      b'.versionList = put version
        (leBytes n (((view version b.versionList).map leNat).getD 0 + value))
        (sync version b.versionList) := by
  subst hn
  have hsize : (b.syncTo version).size = b.size := rfl
  unfold addInt
  simp only [ne_eq, not_true_eq_false, if_false, hd, Bool.false_eq_true]
  have htop : top (b.syncTo version).versionList = view version b.versionList := rfl
  rw [htop]
  rcases ensureExists_syncTo b version hv with ⟨rest, c, hl, he⟩ | ⟨hne, he⟩
  · simp only [he]
    refine ⟨_, rfl, ⟨rfl, rfl, rfl⟩, ?_⟩
    have hl' : sync version b.versionList = ⟨version, c⟩ :: rest := hl
    have hc : c.length = b.size :=
      (b.syncTo version).content_length ⟨version, c⟩ (by rw [hl]; exact List.mem_cons_self)
    simp only [writeTop, mapTop, hl, hl', put_cons, if_true]
    rw [writeAt_all (by rw [hc, leBytes_length])]
  · simp only [he]
    refine ⟨_, rfl, ⟨rfl, rfl, rfl⟩, ?_⟩
    have hne' : ∀ e ∈ (sync version b.versionList).head?, e.number ≠ version := hne
    simp only [writeTop, mapTop, push]
    rw [writeAt_all (by simp [hsize])]
    change _ :: sync version b.versionList = _
    cases hs : sync version b.versionList with
    | nil => rfl
    | cons e rest =>
      rw [hs] at hne'
      rw [put_cons, if_neg (hne' e rfl)]

/-! How the operations fail. -/

theorem write_out {base value : List Byte} {index : Nat} (h : index + value.length > b.size) :
    b.write base version index value = (.error (.outOfRange "out of block write"), b) := if_pos h

theorem write_denied {base value : List Byte} {index : Nat} (h : index + value.length ≤ b.size)
    (hd : b.accessType.denies .write = true) :
    b.write base version index value = (.error (.outOfRange "block is not writable"), b) :=
  (if_neg (Nat.not_lt.mpr h)).trans (if_pos hd)

theorem write_zero {base value : List Byte} {index : Nat} (h : index + value.length ≤ b.size)
    (hd : b.accessType.denies .write = false) :
    b.write base 0 index value = (.error (.assertion "version >= 1"), b.syncTo 0) :=
  (if_neg (Nat.not_lt.mpr h)).trans (if_neg (by simp [hd]))

theorem addInt_size {n value : Nat} (h : n ≠ b.size) :
    b.addInt version n value = (.error (.outOfRange "addInt size"), b) := if_pos h

theorem addInt_denied {n value : Nat} (h : n = b.size) (hd : b.accessType.denies .int_add = true) :
    b.addInt version n value = (.error (.outOfRange "block is not additive"), b) :=
  (if_neg (not_not.mpr h)).trans (if_pos hd)

theorem addInt_zero {n value : Nat} (h : n = b.size) (hd : b.accessType.denies .int_add = false) :
    b.addInt 0 n value = (.error (.assertion "version >= 1"), b.syncTo 0) :=
  (if_neg (not_not.mpr h)).trans (if_neg (by simp [hd]))

/-! What an operation can do, in one statement each. -/

theorem read_cases (b : AccessBlock) (base : List Byte) (version index n : Nat) :
    (∃ e, b.read base version index n = (.error e, b)) ∨
      index + n ≤ b.size ∧ b.accessType.denies .read = false ∧ b.read base version index n =
        (.ok (readAt ((view version b.versionList).getD base) index n), b.syncTo version) := by
  unfold read
  split
  · exact .inl ⟨_, rfl⟩
  split
  · exact .inl ⟨_, rfl⟩
  · rename_i hi hd
    exact .inr ⟨Nat.le_of_not_lt hi, by simpa using hd, rfl⟩

theorem read_ok {b : AccessBlock} {base : List Byte} {version index n : Nat}
    (hi : index + n ≤ b.size)
    (hd : b.accessType.denies .read = false) : b.read base version index n =
      (.ok (readAt ((view version b.versionList).getD base) index n), b.syncTo version) :=
  (if_neg (Nat.not_lt.mpr hi)).trans (if_neg (by simp [hd]))

theorem write_cases (b : AccessBlock) {base : List Byte} (hb : base.length = b.size)
    (version index : Nat)
    (value : List Byte) :
    (∃ e, b.write base version index value = (.error e, b)) ∨
      (∃ e, b.write base version index value = (.error e, b.syncTo version)) ∨
      index + value.length ≤ b.size ∧ b.accessType.denies .write = false ∧
        ∃ b', b.write base version index value = (.ok (), b') ∧ SameBlock b b' ∧
          b'.versionList = put version
            (writeAt ((view version b.versionList).getD base) index value)
            (sync version b.versionList) := by
  rcases Nat.lt_or_ge b.size (index + value.length) with hi | hi
  · exact .inl ⟨_, write_out hi⟩
  cases hd : b.accessType.denies .write with
  | true => exact .inl ⟨_, write_denied hi hd⟩
  | false =>
    rcases Nat.eq_zero_or_pos version with rfl | hv
    · exact .inr (.inl ⟨_, write_zero hi hd⟩)
    · exact .inr (.inr ⟨hi, rfl, write_ok hb hv hi hd⟩)

theorem addInt_cases (b : AccessBlock) (version n value : Nat) :
    (∃ e, b.addInt version n value = (.error e, b)) ∨
    (∃ e, b.addInt version n value = (.error e, b.syncTo version)) ∨
      n = b.size ∧ b.accessType.denies .int_add = false ∧
        ∃ b', b.addInt version n value = (.ok (), b') ∧ SameBlock b b' ∧
          b'.versionList = put version
            (leBytes n (((view version b.versionList).map leNat).getD 0 + value))
            (sync version b.versionList) := by
  by_cases hn : n = b.size
  swap
  · exact .inl ⟨_, addInt_size hn⟩
  cases hd : b.accessType.denies .int_add with
  | true => exact .inl ⟨_, addInt_denied hn hd⟩
  | false =>
    rcases Nat.eq_zero_or_pos version with rfl | hv
    · exact .inr (.inl ⟨_, addInt_zero hn hd⟩)
    · exact .inr (.inr ⟨hn, rfl, addInt_ok hv hn hd⟩)

end

end AccessBlock
end Argennon
