import Argennon.Heap.AdditiveUpdates
import Argennon.Lib.CommutingActions

/- The write-backs of blocks of different requests to one chunk, in either order.

   A block that is written back does nothing, or fails wherever it is written, or patches the bytes
   at its place (`wrToHeap_cases`). Two patches may change places when they have no byte in common,
   or when both are additions to one integer; a patch and a change of the size may when the bytes
   that it writes stay in the chunk. -/
namespace Argennon

open VersionStack CommutingActions

/-! ## Bytes -/

theorem leBytes_mod : ∀ (k v : Nat), leBytes k (v % 256 ^ k) = leBytes k v
  | 0, _ => rfl
  | k + 1, v => by
    have hlow : v % 256 ^ (k + 1) % 256 = v % 256 :=
      Nat.mod_mod_of_dvd v (Dvd.intro_left (256 ^ k) rfl)
    have hhigh : v % 256 ^ (k + 1) / 256 = v / 256 % 256 ^ k := by
      rw [Nat.pow_succ, Nat.mul_comm, Nat.mod_mul_right_div_self]
    rw [leBytes, leBytes, hlow, hhigh, leBytes_mod k]

/-- The low bytes hold the number modulo their width. -/
theorem leNat_take : ∀ (l : List Byte) (k : Nat), leNat (l.take k) = leNat l % 256 ^ k
  | l, 0 => by rw [List.take_zero, leNat, Nat.pow_zero, Nat.mod_one]
  | [], k + 1 => by rw [List.take_nil, leNat, Nat.zero_mod]
  | x :: l, k + 1 => by
    have hx := x.toNat_lt
    have hsmall : (x.toNat + 256 * leNat l) % 256 = x.toNat := by omega
    have hrest : (x.toNat + 256 * leNat l) / 256 = leNat l := by omega
    rw [List.take_succ_cons, leNat, leNat, leNat_take l k, Nat.pow_succ, Nat.mul_comm (256 ^ k),
      Nat.mod_mul, hsmall, hrest]

theorem readAt_take (mem : List Byte) (offset : Nat) {k n : Nat} (h : k ≤ n) :
    (readAt mem offset n).take k = readAt mem offset k := by
  apply List.ext_getElem?
  intro i
  rw [List.getElem?_take, readAt_getElem?, readAt_getElem?]
  by_cases hi : i < k
  · rw [if_pos hi, if_pos (Nat.lt_of_lt_of_le hi h), if_pos hi]
  · rw [if_neg hi, if_neg hi]

/-- The ranges have no byte in common. -/
def RangesApart (offset n offset' n' : Nat) : Prop :=
  ∀ i, offset ≤ i → i < offset + n → offset' ≤ i → offset' + n' ≤ i

theorem RangesApart.symm {offset n offset' n' : Nat} (h : RangesApart offset n offset' n') :
    RangesApart offset' n' offset n := by
  intro i h1 h2 h3
  by_contra hlt
  exact absurd (h i h3 (Nat.not_le.mp hlt) h1) (Nat.not_le.mpr h2)

/-- A byte of the memory after a write. -/
theorem writeAt_getElem?_cases (mem : List Byte) (offset : Nat) (bytes : List Byte) (i : Nat) :
    (offset ≤ i ∧ i < offset + bytes.length ∧ (writeAt mem offset bytes)[i]? = mem[i]?.map fun _ =>
      bytes.getD (i - offset) 0) ∨
      (¬ (offset ≤ i ∧ i < offset + bytes.length) ∧ (writeAt mem offset bytes)[i]? = mem[i]?) := by
  by_cases hin : offset ≤ i ∧ i < offset + bytes.length
  · left
    have hlt : i - offset < bytes.length := by omega
    refine ⟨hin.1, hin.2, ?_⟩
    rw [writeAt_getElem?]
    cases mem[i]? with
    | none => rfl
    | some x => rw [Option.map_some, Option.map_some, if_pos hin.1, List.getD_eq_getElem _ _ hlt,
      List.getD_eq_getElem _ _ hlt]
  · exact .inr ⟨hin, writeAt_frame (by omega)⟩

theorem writeAt_comm (mem : List Byte) {offset offset' : Nat} {bytes bytes' : List Byte}
    (h : RangesApart offset bytes.length offset' bytes'.length) :
    writeAt (writeAt mem offset bytes) offset' bytes' =
      writeAt (writeAt mem offset' bytes') offset bytes := by
  apply List.ext_getElem?
  intro i
  obtain ⟨h1, h2, hin⟩ | ⟨hout, hsame⟩ :=
    writeAt_getElem?_cases (writeAt mem offset bytes) offset' bytes' i
  · have hframe : ¬ (offset ≤ i ∧ i < offset + bytes.length) :=
      fun hboth => absurd (h i hboth.1 hboth.2 h1) (Nat.not_le.mpr h2)
    have hleft : (writeAt mem offset bytes)[i]? = mem[i]? := writeAt_frame (by omega)
    have hright : (writeAt (writeAt mem offset' bytes') offset bytes)[i]? =
        (writeAt mem offset' bytes')[i]? := writeAt_frame (by omega)
    obtain ⟨-, -, hin'⟩ | ⟨hno, -⟩ := writeAt_getElem?_cases mem offset' bytes' i
    · rw [hin, hright, hin', hleft]
    · exact absurd ⟨h1, h2⟩ hno
  · rw [hsame, writeAt_getElem?, writeAt_getElem?]
    have hright : (writeAt mem offset' bytes')[i]? = mem[i]? := writeAt_frame (by omega)
    rw [hright]

theorem readAt_writeAt_rangesApart (mem : List Byte) {offset offset' n : Nat} {bytes : List Byte}
    (h : RangesApart offset bytes.length offset' n) :
    readAt (writeAt mem offset bytes) offset' n = readAt mem offset' n := by
  apply readAt_congr
  intro i hlow hhigh
  have hout : i < offset ∨ offset + bytes.length ≤ i := by
    by_contra hin
    have hle := h i (by omega) (by omega) hlow
    omega
  rw [List.getD_eq_getElem?_getD, List.getD_eq_getElem?_getD, writeAt_frame hout]

/-- A second write to the same place. -/
theorem writeAt_writeAt (mem : List Byte) (offset : Nat) {bytes bytes' : List Byte}
    (h : bytes.length = bytes'.length) :
    writeAt (writeAt mem offset bytes) offset bytes' = writeAt mem offset bytes' := by
  apply List.ext_getElem?
  intro i
  obtain ⟨h1, h2, hin⟩ | ⟨hout, hsame⟩ :=
    writeAt_getElem?_cases (writeAt mem offset bytes) offset bytes' i
  · obtain ⟨-, -, hin'⟩ | ⟨hno, -⟩ := writeAt_getElem?_cases mem offset bytes' i
    · have hlen : (writeAt mem offset bytes)[i]?.map (fun _ => bytes'.getD (i - offset) 0) =
          mem[i]?.map fun _ => bytes'.getD (i - offset) 0 := by
        rw [writeAt_getElem?, Option.map_map]
        rfl
      rw [hin, hin', hlen]
    · exact absurd ⟨h1, h2⟩ hno
  · have hframe : (writeAt mem offset bytes')[i]? = mem[i]? := writeAt_frame (by omega)
    have hframe' : (writeAt mem offset bytes)[i]? = mem[i]? := writeAt_frame (by omega)
    rw [hsame, hframe, hframe']

/-! ## Patches -/

namespace Chunk

/-- The `w` bytes at `loc` replaced by what `f` makes of them. -/
def patch (X : Chunk) (loc w : Nat) (f : List Byte → List Byte) : Chunk :=
  X.writeBytes loc (f (readAt X.content loc w))

variable {X : Chunk} {loc loc' w w' : Nat} {f g : List Byte → List Byte}

theorem patch_content (X : Chunk) (loc w : Nat) (f : List Byte → List Byte) :
    (X.patch loc w f).content = writeAt X.content loc (f (readAt X.content loc w)) := rfl

theorem patch_comm (hf : ∀ l, l.length = w → (f l).length = w)
    (hg : ∀ l, l.length = w' → (g l).length = w')
    (h : RangesApart loc w loc' w') :
    (X.patch loc w f).patch loc' w' g = (X.patch loc' w' g).patch loc w f := by
  have hlen := hf _ (readAt_length X.content loc w)
  have hlen' := hg _ (readAt_length X.content loc' w')
  have hread : readAt (X.patch loc w f).content loc' w' = readAt X.content loc' w' :=
    readAt_writeAt_rangesApart X.content (by rwa [hlen])
  have hread' : readAt (X.patch loc' w' g).content loc w = readAt X.content loc w :=
    readAt_writeAt_rangesApart X.content (by rw [hlen']; exact h.symm)
  refine Chunk.ext ?_ rfl rfl
  rw [patch_content (X.patch loc w f), patch_content (X.patch loc' w' g), hread, hread',
    patch_content, patch_content]
  exact writeAt_comm X.content (by rwa [hlen, hlen'])

/-- Two patches of the same bytes. -/
theorem patch_patch (hf : ∀ l, l.length = w → (f l).length = w)
    (hg : ∀ l, l.length = w → (g l).length = w)
    (hfits : loc + w ≤ X.content.length) :
    (X.patch loc w f).patch loc w g = X.patch loc w (g ∘ f) := by
  have hlen := hf _ (readAt_length X.content loc w)
  have hread : readAt (X.patch loc w f).content loc w = f (readAt X.content loc w) := by
    have h : readAt (writeAt X.content loc (f (readAt X.content loc w))) loc
      (f (readAt X.content loc w)).length =
        f (readAt X.content loc w) := readAt_writeAt (by rwa [hlen])
    rwa [hlen] at h
  refine Chunk.ext ?_ rfl rfl
  rw [patch_content (X.patch loc w f), hread, patch_content, patch_content]
  exact writeAt_writeAt X.content loc (by rw [hlen, hg _ hlen])

end Chunk

/-! ## One block -/

/-- An addition to the number in so many bytes. -/
def addTo (w amount : Nat) (l : List Byte) : List Byte := leBytes w (leNat l + amount)

theorem addTo_comm (w a a' : Nat) : addTo w a ∘ addTo w a' = addTo w a' ∘ addTo w a := by
  have h : ∀ a a' l, addTo w a (addTo w a' l) = leBytes w (leNat l + a' + a) := by
    intro a a' l
    unfold addTo
    rw [leNat_leBytes, ← leBytes_mod, Nat.mod_add_mod, leBytes_mod]
  funext l
  rw [Function.comp_apply, Function.comp_apply, h, h, Nat.add_right_comm]

/-- What the bytes of a block become when it is written back. -/
inductive Replaces (b : AccessBlock) (w : Nat) : (List Byte → List Byte) → Prop
  | add (h : b.accessType.isAdditive = true) (amount : Nat) : Replaces b w (addTo w amount)
  | put (h : b.accessType.isAdditive = false) (bytes : List Byte) (hlen : bytes.length = w) :
    Replaces b w fun _ => bytes

theorem Replaces.length {b : AccessBlock} {w : Nat} {f : List Byte → List Byte} (h : Replaces b w f)
    (l : List Byte) : (f l).length = w := by
  cases h with
  | add _ amount => exact leBytes_length w _
  | put _ bytes hlen => exact hlen

/-- The bytes that an addition writes depend on these bytes only. -/
theorem take_add_eq {mem : List Byte} {loc size w amount : Nat} (hw : w ≤ size) (hsize : size ≤ 8) :
    (leBytes 8 (leNat (readAt mem loc size) + amount)).take w =
    addTo w amount (readAt mem loc w) := by
  have hlow : leNat (readAt mem loc w) = leNat (readAt mem loc size) % 256 ^ w := by
    rw [← leNat_take, readAt_take mem loc hw]
  unfold addTo
  rw [take_leBytes _ (Nat.le_trans hw hsize), hlow, ← leBytes_mod, ← leBytes_mod w (_ % _ + _),
    Nat.mod_add_mod]

/-- The assertion that an addition to an integer of more than 8 bytes fails. -/
def tooLong : Exn := .assertion "size <= sizeof(int64_t)"

/-- The write-back of a block: it does nothing, or fails everywhere,
or patches the bytes of the block. -/
theorem wrToHeap_cases (b : AccessBlock) (version maxWriteSize : Nat) :
    (∀ X : Chunk, b.wrToHeap X version maxWriteSize = .ok X) ∨
      (8 < b.size ∧ ∀ X : Chunk, b.wrToHeap X version maxWriteSize = .error tooLong) ∨
      (b.versionList ≠ [] ∧ ∃ f, Replaces b (min b.size maxWriteSize) f ∧
        ∀ X : Chunk, b.wrToHeap X version maxWriteSize =
          .ok (X.patch b.heapLocation (min b.size maxWriteSize) f)) := by
  unfold AccessBlock.wrToHeap
  cases htop : top (b.syncTo version).versionList with
  | none => exact .inl fun X => rfl
  | some content =>
    right
    have hne : b.versionList ≠ [] := by
      intro hnil
      simp [AccessBlock.syncTo, hnil, sync, top] at htop
    have hlen : content.length = b.size := by
      obtain ⟨e, he, rfl⟩ := Option.map_eq_some_iff.mp htop
      exact (b.syncTo version).content_length e (List.mem_of_mem_head? he)
    cases hadd : b.accessType.isAdditive with
    | true =>
      by_cases hlong : b.size > 8
      · refine .inl ⟨hlong, fun X => ?_⟩
        simp only [if_true, if_pos hlong]
        rfl
      · refine .inr ⟨hne, addTo (min b.size maxWriteSize) (leNat content), .add hadd _, fun X => ?_⟩
        simp only [if_true, if_neg hlong]
        rw [take_add_eq (Nat.min_le_left _ _) (Nat.not_lt.mp hlong)]
        rfl
    | false =>
      refine .inr ⟨hne, fun _ => content.take (min b.size maxWriteSize),
        .put hadd _ (by rw [List.length_take]; omega), fun X => rfl⟩

/-! ## Two blocks -/

/-- The chunks with so much memory. -/
def HasCapacity (n : Nat) (X : Chunk) : Prop := X.content.length = n

section
variable {b b' : AccessBlock} {n version version' k k' : Nat}

theorem wrToHeap_keeps (b : AccessBlock) (version k : Nat) :
    Preserves (HasCapacity n) fun X => b.wrToHeap X version k := by
  intro X X' hX hX'
  obtain h | ⟨-, h⟩ | ⟨-, f, -, h⟩ := wrToHeap_cases b version k
  · simp only [h] at hX'
    exact Except.ok.inj hX' ▸ hX
  · simp only [h] at hX'
    cases hX'
  · simp only [h] at hX'
    obtain rfl := Except.ok.inj hX'
    exact (writeAt_length _ _ _).trans hX

theorem wrToHeap_steady (b : AccessBlock) (version k : Nat) :
    Steady (HasCapacity n) fun X => b.wrToHeap X version k := by
  intro X X' e _ _ he
  obtain h | ⟨-, h⟩ | ⟨-, f, -, h⟩ := wrToHeap_cases b version k
  · simp only [h] at he
    cases he
  · simp only [h] at he ⊢
    exact he
  · simp only [h] at he
    cases he

/-- The blocks may be written back in any order: one has not changed, or they have no byte in
common, or both add to one integer. -/
def MayCommute (n : Nat) (b : AccessBlock) (k : Nat) (b' : AccessBlock) (k' : Nat) : Prop :=
  b.versionList = [] ∨ b'.versionList = [] ∨
    RangesApart b.heapLocation (min b.size k) b'.heapLocation (min b'.size k') ∨
    (b.accessType.isAdditive = true ∧ b'.accessType.isAdditive = true ∧
      b.heapLocation = b'.heapLocation ∧
      min b.size k = min b'.size k' ∧ b.heapLocation + b.size ≤ n)

theorem wrToHeap_commute (h : MayCommute n b k b' k') :
    CommutesOn (HasCapacity n)
      (fun X => b.wrToHeap X version k) fun X => b'.wrToHeap X version' k' := by
  intro X hX
  obtain hidle | ⟨-, herror⟩ | ⟨hne, f, hf, hpatch⟩ := wrToHeap_cases b version k
  · -- the first block does nothing
    simp only [hidle]
    cases hX' : b'.wrToHeap X version' k' with
    | error e => exact hX'
    | ok X' => exact hX'
  · -- the first block fails, whatever the chunk holds
    simp only [herror]
    obtain hidle' | ⟨-, herror'⟩ | ⟨-, g, -, hpatch'⟩ := wrToHeap_cases b' version' k'
    · simp only [hidle']
      rfl
    · simp only [herror']
    · simp only [hpatch']
      rfl
  · obtain hidle' | ⟨-, herror'⟩ | ⟨hne', g, hg, hpatch'⟩ := wrToHeap_cases b' version' k'
    · simp only [hpatch, hidle']
      rfl
    · simp only [hpatch, herror']
      rfl
    · have hboth : ((b.wrToHeap X version k >>= fun X => b'.wrToHeap X version' k') : Except
          Exn Chunk) =
            .ok ((X.patch b.heapLocation (min b.size k) f).patch b'.heapLocation
              (min b'.size k') g) := by
        rw [hpatch]
        exact hpatch' _
      have hboth' : ((b'.wrToHeap X version' k' >>= fun X => b.wrToHeap X version k) : Except
          Exn Chunk) =
            .ok ((X.patch b'.heapLocation (min b'.size k') g).patch b.heapLocation
              (min b.size k) f) := by
        rw [hpatch']
        exact hpatch _
      rw [hboth, hboth']
      obtain hnil | hnil | hapart | ⟨hadd, hadd', hloc, hwidth, hfits⟩ := h
      · exact absurd hnil hne
      · exact absurd hnil hne'
      · exact congrArg Except.ok
          (Chunk.patch_comm (fun l _ => hf.length l) (fun l _ => hg.length l) hapart)
      · -- the same additive block: the amounts are added in either order
        obtain ⟨-, amount⟩ | ⟨hput, -, -⟩ := hf
        swap
        · rw [hadd] at hput
          cases hput
        obtain ⟨-, amount'⟩ | ⟨hput, -, -⟩ := hg
        swap
        · rw [hadd'] at hput
          cases hput
        have hin : b.heapLocation + min b.size k ≤ X.content.length := by
          rw [hX]
          exact Nat.le_trans (Nat.add_le_add_left (Nat.min_le_left _ _) _) hfits
        have hlen : ∀ a l, l.length = min b.size k →
            (addTo (min b.size k) a l).length = min b.size k := fun a l _ => leBytes_length _ _
        rw [← hloc, ← hwidth, Chunk.patch_patch (hlen amount) (hlen amount') hin,
          Chunk.patch_patch (hlen amount') (hlen amount) hin,
          addTo_comm]

/-! ## A block and the size -/

theorem setSize_keeps (size : Nat) : Preserves (HasCapacity n) fun X => X.setSize size := by
  intro X X' hX hX'
  change X.setSize size = .ok X' at hX'
  unfold Chunk.setSize at hX'
  split at hX'
  · obtain rfl := Except.ok.inj hX'
    exact (writeAt_length _ _ _).trans hX
  · cases hX'

theorem setSize_steady (size : Nat) : Steady (HasCapacity n) fun X => X.setSize size := by
  intro X X' e hX hX' he
  change X.setSize size = .error e at he
  change X'.setSize size = .error e
  unfold Chunk.setSize at he ⊢
  split at he
  · cases he
  · rename_i hlt
    rw [dif_neg (by rwa [hX', ← hX])]
    exact he

theorem Chunk.setSize_ok {X : Chunk} {size : Nat} (h : size ≤ X.content.length) :
    ∃ X', X.setSize size = .ok X' ∧
    X'.content = writeAt X.content size (List.replicate (X.chunkSize - size) 0) ∧
      X'.chunkSize = size ∧ X'.writable = X.writable :=
  ⟨_, dif_pos h, rfl, rfl, rfl⟩

/-- A change of the size that the bytes of a patch do not see. -/
theorem Chunk.setSize_patch {X X' : Chunk} {size loc w : Nat} {f : List Byte → List Byte}
    (hf : ∀ l, l.length = w → (f l).length = w)
    (hin : 0 < w → loc + w ≤ size) (h : X.setSize size = .ok X') :
    (X.patch loc w f).setSize size = .ok (X'.patch loc w f) := by
  have hle : size ≤ X.content.length := by
    by_contra hlt
    unfold Chunk.setSize at h
    rw [dif_neg hlt] at h
    cases h
  obtain ⟨Y, hY, hcontent, hsize, hwritable⟩ := Chunk.setSize_ok hle
  obtain rfl := Except.ok.inj (hY.symm.trans h)
  have hle' : size ≤ (X.patch loc w f).content.length := hle.trans_eq (writeAt_length _ _ _).symm
  obtain ⟨Z, hZ, hcontent', hsize', hwritable'⟩ := Chunk.setSize_ok hle'
  have hlen := hf _ (readAt_length X.content loc w)
  -- the zeroed bytes are behind those of the patch
  have hapart : RangesApart loc w size (List.replicate (X.chunkSize - size) (0 : Byte)).length := by
    intro i h1 h2 h3
    have := hin (by omega)
    omega
  have hread : readAt Y.content loc w = readAt X.content loc w := by
    rw [hcontent]
    exact readAt_writeAt_rangesApart X.content hapart.symm
  rw [hZ]
  refine congrArg Except.ok
    (Chunk.ext ?_ (hsize'.trans hsize.symm) (hwritable'.trans hwritable.symm))
  rw [hcontent', Chunk.patch_content, Chunk.patch_content, hread, hcontent]
  exact writeAt_comm X.content (by rwa [hlen])

/-- A block whose bytes stay in the chunk, and the size. -/
theorem wrToHeap_setSize {size : Nat} (hle : size ≤ n)
    (h : b.versionList ≠ [] → 0 < min b.size k → b.heapLocation + min b.size k ≤ size) :
    CommutesOn (HasCapacity n) (fun X => b.wrToHeap X version k) fun X => X.setSize size := by
  intro X hX
  have hfits : size ≤ X.content.length := by rwa [hX]
  obtain ⟨X', hX', -⟩ := Chunk.setSize_ok hfits
  have hright : ((X.setSize size >>= fun X => b.wrToHeap X version k) : Except Exn Chunk) =
      b.wrToHeap X' version k := by
    rw [hX']
    rfl
  rw [hright]
  obtain hidle | ⟨-, herror⟩ | ⟨hne, f, hf, hpatch⟩ := wrToHeap_cases b version k
  · simp only [hidle]
    exact hX'
  · simp only [herror]
    rfl
  · simp only [hpatch]
    exact Chunk.setSize_patch (fun l _ => hf.length l) (h hne) hX'

end

/-! ## The blocks of a chunk -/

/-- The write-back of a block of a chunk of this size. -/
def writeOne (version size : Nat) (X : Chunk) (kb : Nat × AccessBlock) : Except Exn Chunk :=
  kb.2.wrToHeap X version (size - kb.1)

/-- The blocks that begin in the chunk are written, one after the other. -/
theorem writeBlocks_eq (version size : Nat) : ∀ (l : List (Nat × AccessBlock)) (X : Chunk),
    ChunkInfo.writeBlocks version size l X =
      (l.takeWhile fun kb => kb.1 < size).foldlM (writeOne version size) X
  | [], _ => rfl
  | (offset, b) :: l, X => by
    rw [ChunkInfo.writeBlocks]
    by_cases hle : offset ≥ size
    · rw [if_pos hle, List.takeWhile_cons_of_neg (by simpa using hle)]
      rfl
    · rw [if_neg hle, List.takeWhile_cons_of_pos (by simpa using hle), List.foldlM_cons]
      refine bind_congr fun Y => ?_
      exact writeBlocks_eq version size l Y

/-- Two sizes of a chunk between which no byte of a block is. -/
def SameBytesIn (n n' : Nat) (kb : Nat × AccessBlock) : Prop :=
  ∀ k, 0 < k → k ≤ kb.2.size → (kb.1 + k ≤ n ↔ kb.1 + k ≤ n')

theorem SameBytesIn.symm {n n' : Nat} {kb : Nat × AccessBlock} (h : SameBytesIn n n' kb) :
    SameBytesIn n' n kb :=
  fun k h0 hk => (h k h0 hk).symm

/-- As many bytes of the block are in the chunk with the one size as with the other. -/
theorem SameBytesIn.min_eq {n n' : Nat} {kb : Nat × AccessBlock} (h : SameBytesIn n n' kb) :
    min kb.2.size (n - kb.1) = min kb.2.size (n' - kb.1) := by
  have hle : ∀ {n n' : Nat}, SameBytesIn n n' kb →
      min kb.2.size (n - kb.1) ≤ min kb.2.size (n' - kb.1) := by
    intro n n' h
    obtain hzero | hpos := Nat.eq_zero_or_pos (min kb.2.size (n - kb.1))
    · rw [hzero]
      exact Nat.zero_le _
    · have := (h _ hpos (Nat.min_le_left _ _)).mp (by omega)
      omega
  exact le_antisymm (hle h) (hle h.symm)

/-- What a block writes depends on how many of its bytes are in the chunk. -/
theorem wrToHeap_min (b : AccessBlock) (X : Chunk) (version k : Nat) :
    b.wrToHeap X version k = b.wrToHeap X version (min b.size k) := by
  unfold AccessBlock.wrToHeap
  rw [← Nat.min_assoc, Nat.min_self]

theorem writeOne_congr {n n' : Nat} {kb : Nat × AccessBlock} (h : SameBytesIn n n' kb)
    (version : Nat) (X : Chunk) :
    writeOne version n X kb = writeOne version n' X kb := by
  unfold writeOne
  rw [wrToHeap_min, h.min_eq, ← wrToHeap_min]

/-- A block without bytes writes nothing. -/
theorem writeOne_empty {kb : Nat × AccessBlock} (h : kb.2.size = 0) (version size : Nat)
    (X : Chunk) : writeOne version size X kb = .ok X := by
  unfold writeOne
  obtain hidle | ⟨hlong, -⟩ | ⟨-, f, hf, hpatch⟩ := wrToHeap_cases kb.2 version (size - kb.1)
  · exact hidle X
  · omega
  · have hnil : f (readAt X.content kb.2.heapLocation (min kb.2.size (size - kb.1))) = [] := by
      apply List.eq_nil_of_length_eq_zero
      rw [hf.length, h, Nat.zero_min]
    rw [hpatch]
    refine congrArg Except.ok (Chunk.ext ?_ rfl rfl)
    rw [Chunk.patch_content, hnil, writeAt_nil]

/-- Blocks behind the chunk are not written. -/
theorem writeBlocks_outside (version : Nat) {size : Nat} {l : List (Nat × AccessBlock)}
    (h : ∀ kb ∈ l, size ≤ kb.1) (X : Chunk) :
    ChunkInfo.writeBlocks version size l X = .ok X := by
  cases l with
  | nil => rfl
  | cons kb l => exact if_pos (h kb List.mem_cons_self)

theorem writeBlocks_cons_empty {version size : Nat} {kb : Nat × AccessBlock}
    {l : List (Nat × AccessBlock)} (h : kb.2.size = 0) {X : Chunk}
    (hrest : ChunkInfo.writeBlocks version size l X = .ok X) :
    ChunkInfo.writeBlocks version size (kb :: l) X = .ok X := by
  rw [ChunkInfo.writeBlocks]
  split
  · rfl
  · have hone : HeapBlock.wrToHeap kb.2 X version (size - kb.1) = .ok X :=
      writeOne_empty h version size X
    rw [hone]
    exact hrest

/-- The write-back with one size and with the other, when no byte of a block is between them. -/
theorem writeBlocks_agree {version n n' : Nat} :
    ∀ {l : List (Nat × AccessBlock)}, (l.Pairwise fun kb kb' => kb.1 < kb'.1) →
    (∀ kb ∈ l, SameBytesIn n n' kb) → ∀ X : Chunk, ChunkInfo.writeBlocks version n l X =
    ChunkInfo.writeBlocks version n' l X
  | [], _, _, _ => rfl
  | kb :: l, hsorted, h, X => by
    obtain ⟨hfirst, hsorted⟩ := List.pairwise_cons.mp hsorted
    obtain ⟨hkb, hl⟩ := List.forall_mem_cons.mp h
    have ih : ∀ X, ChunkInfo.writeBlocks version n l X = ChunkInfo.writeBlocks version n' l X :=
      writeBlocks_agree hsorted hl
    by_cases hin : kb.1 < n ∧ kb.1 < n'
    · have hone : HeapBlock.wrToHeap kb.2 X version (n - kb.1) =
          HeapBlock.wrToHeap kb.2 X version (n' - kb.1) :=
        writeOne_congr hkb version X
      rw [ChunkInfo.writeBlocks, ChunkInfo.writeBlocks, if_neg (Nat.not_le.mpr hin.1),
        if_neg (Nat.not_le.mpr hin.2), hone]
      exact bind_congr fun Y => ih Y
    obtain hzero | hpos := Nat.eq_zero_or_pos kb.2.size
    · -- an empty block at the end of the one chunk: what follows is behind it
      have hrest : ChunkInfo.writeBlocks version n l X = .ok X ∧
          ChunkInfo.writeBlocks version n' l X = .ok X := by
        have hih := ih X
        obtain hle | hle : n ≤ kb.1 ∨ n' ≤ kb.1 := by omega
        · have hout := writeBlocks_outside version (fun kb' hkb' =>
            hle.trans (hfirst kb' hkb').le) X
          exact ⟨hout, hih ▸ hout⟩
        · have hout := writeBlocks_outside version (fun kb' hkb' =>
            hle.trans (hfirst kb' hkb').le) X
          exact ⟨hih ▸ hout, hout⟩
      rw [writeBlocks_cons_empty hzero hrest.1, writeBlocks_cons_empty hzero hrest.2]
    · have hboth := hkb 1 Nat.one_pos hpos
      have hout : n ≤ kb.1 ∧ n' ≤ kb.1 := by omega
      rw [ChunkInfo.writeBlocks, ChunkInfo.writeBlocks, if_pos hout.1, if_pos hout.2]

end Argennon
