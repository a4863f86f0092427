import Argennon.Heap.WriteFrame

/- A chunk as a request sees it at one version: the size it has set and the contents of
   the blocks it has written.

   `Shows` says that a chunk's information holds this view. Each operation that returns
   changes the view as the operation says (one lemma for each), and the write-back makes the
   memory of the chunk what the view shows (`Shows.writeToHeap`). The blocks of a chunk are
   sorted and apart from each other, as an access map declares them. -/
namespace Argennon

open VersionStack

/-- The size of a chunk, and what was written to its blocks, by offset. -/
structure ChunkView where
  size : Nat
  written : Nat → Option (List Byte)

namespace ChunkView

/-- Nothing is changed. -/
def initial (chunk : Chunk) : ChunkView := ⟨chunk.getsize, fun _ => none⟩

def resize (v : ChunkView) (size : Nat) : ChunkView := { v with size }

def write (v : ChunkView) (offset : Nat) (content : List Byte) : ChunkView :=
  { v with written := Function.update v.written offset (some content) }

/-- The bytes of the block at an offset. -/
def bytes (v : ChunkView) (chunk : Chunk) (offset size : Nat) : List Byte :=
  (v.written offset).getD (readAt chunk.content offset size)

@[simp] theorem resize_size (v : ChunkView) (size : Nat) : (v.resize size).size = size := rfl

@[simp] theorem resize_written (v : ChunkView) (size : Nat) :
    (v.resize size).written = v.written := rfl

@[simp] theorem write_size (v : ChunkView) (offset : Nat) (content : List Byte) :
    (v.write offset content).size = v.size := rfl

@[simp] theorem write_written_self (v : ChunkView) (offset : Nat) (content : List Byte) :
    (v.write offset content).written offset = some content := Function.update_self ..

theorem write_written_of_ne (v : ChunkView) {offset i : Nat} (content : List Byte)
    (h : i ≠ offset) :
    (v.write offset content).written i = v.written i := Function.update_of_ne h ..

end ChunkView

/-- The blocks of a chunk where they were declared: sorted, and apart from each other. -/
structure Placed (c₀ : ChunkInfo AccessBlock) : Prop where
  heapLocation : ∀ kb ∈ c₀.accessTable.entries, kb.2.heapLocation = kb.1
  apart : c₀.accessTable.entries.Pairwise fun a b => a.1 < b.1 ∧ a.1 + a.2.size ≤ b.1

theorem Placed.nodup {c₀ : ChunkInfo AccessBlock} (h : Placed c₀) : c₀.accessTable.keys.Nodup := by
  rw [← c₀.accessTable.map_fst_entries]
  exact List.pairwise_map.mpr (h.apart.imp fun hab => Nat.ne_of_lt hab.1)

/-- Two blocks of one offset are one block. -/
theorem Placed.unique {c₀ : ChunkInfo AccessBlock} (h : Placed c₀) {offset : Nat}
    {b b' : AccessBlock}
    (hb : (offset, b) ∈ c₀.accessTable.entries) (hb' : (offset, b') ∈ c₀.accessTable.entries) :
    b = b' := by
  have hnodup : (c₀.accessTable.entries.map Prod.fst).Nodup := by
    rw [c₀.accessTable.map_fst_entries]
    exact h.nodup
  exact (Prod.mk.inj (List.inj_on_of_nodup_map hnodup hb hb' rfl)).2

/-- The chunk's information, which was built as `c₀`, shows `v` at the version. -/
structure Shows (version : Nat) (chunk : Chunk) (c₀ c : ChunkInfo AccessBlock)
    (v : ChunkView) : Prop where
  kept : Kept chunk c₀ c
  size : c.shownSize chunk version = v.size
  written : ∀ kb ∈ c.accessTable.entries, view version kb.2.versionList = v.written kb.1

/-! ## Operations on a block -/

/-- After a block is replaced the other entries are as they were. -/
theorem OrderedStaticMap.mem_entries_setValue {K V : Type} {m : OrderedStaticMap K V}
    (hnodup : m.keys.Nodup) {k : Nat} {key : K}
    (hk : m.keys[k]? = some key) {v : V} {e : K × V} (he : e ∈ (m.setValue k v).entries) :
    e = (key, v) ∨ e ∈ m.entries ∧ e.1 ≠ key := by
  obtain ⟨i, hi⟩ := List.mem_iff_getElem?.mp he
  obtain ⟨hkey, hvalue⟩ : m.keys[i]? = some e.1 ∧ (m.values.set k v)[i]? = some e.2 :=
    List.getElem?_zip_eq_some.mp hi
  by_cases hik : i = k
  · subst hik
    left
    have hlt : i < m.values.length := by
      obtain ⟨hlt, -⟩ := List.getElem?_eq_some_iff.mp hvalue
      rwa [List.length_set] at hlt
    rw [List.getElem?_set_self hlt] at hvalue
    exact Prod.ext (Option.some.inj (hkey.symm.trans hk)) (Option.some.inj hvalue).symm
  · right
    rw [List.getElem?_set_ne (Ne.symm hik)] at hvalue
    refine ⟨List.mem_iff_getElem?.mpr ⟨i, List.getElem?_zip_eq_some.mpr ⟨hkey, hvalue⟩⟩,
      fun hsame => hik ?_⟩
    rw [hsame] at hkey
    obtain ⟨hlt, -⟩ := List.getElem?_eq_some_iff.mp hkey
    exact (List.getElem?_inj hlt hnodup).mp (hkey.trans hk.symm)

/-- An operation on a block that returns found the block, and replaced it. -/
theorem ChunkInfo.onBlock_ok {α : Type} {c c' : ChunkInfo AccessBlock} (chunk : Chunk)
    {offset : Nat}
    (f : AccessBlock → List Byte → Except Exn α × AccessBlock) (toValue : α → Value) {value : Value}
    (h : ((c.onBlock chunk offset f).1.map toValue, (c.onBlock chunk offset f).2) =
      (.ok value, c')) :
    ∃ a k b b', value = toValue a ∧ c.accessTable.keys[k]? = some offset ∧
      (offset, b) ∈ c.accessTable.entries ∧
      f b (readAt chunk.content b.heapLocation b.size) = (.ok a, b') ∧
      (c.onBlock chunk offset f).2 = c' ∧
      c' = { c with accessTable := c.accessTable.setValue k b' } := by
  obtain ⟨h1, h2⟩ := Prod.mk.inj h
  unfold ChunkInfo.onBlock at h1
  cases hget : c.getAccessBlock offset with
  | error e =>
    rw [hget] at h1
    cases h1
  | ok kb =>
    obtain ⟨k, b⟩ := kb
    rw [hget] at h1
    have hsecond : (c.onBlock chunk offset f).2 =
        { c with accessTable :=
          c.accessTable.setValue k (f b (readAt chunk.content b.heapLocation b.size)).2 } := by
      unfold ChunkInfo.onBlock
      rw [hget]
      rfl
    cases hf : f b (readAt chunk.content b.heapLocation b.size) with
    | mk r b' =>
      have h1 : (f b (readAt chunk.content b.heapLocation b.size)).1.map toValue = .ok value := h1
      rw [hf] at h1 hsecond
      cases r with
      | error e => cases h1
      | ok a =>
        exact ⟨a, k, b, b', (Except.ok.inj h1).symm, getAccessBlock_key hget,
          getAccessBlock_mem hget, hf, h2,
          h2.symm.trans hsecond⟩

namespace Shows
variable {version : Nat} {chunk : Chunk} {c₀ c c' : ChunkInfo AccessBlock} {v : ChunkView}

/-- The block at an offset as it was declared. -/
theorem declared (h : Shows version chunk c₀ c v) (hp : Placed c₀) {offset : Nat} {b : AccessBlock}
    (hb : (offset, b) ∈ c.accessTable.entries) : b.heapLocation = offset ∧
      ∃ b₀, (offset, b₀) ∈ c₀.accessTable.entries ∧ b.size = b₀.size ∧
        b.accessType = b₀.accessType := by
  obtain ⟨⟨hloc, -⟩, ⟨offset₀, b₀⟩, hb₀, rfl, hsize, htype⟩ :=
    h.kept.entries_kept hp.heapLocation _ hb
  exact ⟨hloc, b₀, hb₀, hsize, htype⟩

/-- What a block shows. -/
theorem bytes_eq (h : Shows version chunk c₀ c v) {offset : Nat} {b : AccessBlock}
    (hb : (offset, b) ∈ c.accessTable.entries) :
    (view version b.versionList).getD (readAt chunk.content offset b.size) =
    v.bytes chunk offset b.size := by
  rw [h.written _ hb]
  rfl

/-- A block is replaced by one that shows `content`, or what it showed before. -/
theorem setValue (h : Shows version chunk c₀ c v) (hp : Placed c₀) {k offset : Nat}
    {b' : AccessBlock} {v' : ChunkView}
    (hk : c.accessTable.keys[k]? = some offset)
    (hkept : Kept chunk c₀ { c with accessTable := c.accessTable.setValue k b' })
    (hsize : v'.size = v.size) (hself : view version b'.versionList = v'.written offset)
    (hother : ∀ i, i ≠ offset → v'.written i = v.written i) :
    Shows version chunk c₀ { c with accessTable := c.accessTable.setValue k b' } v' := by
  refine ⟨hkept, h.size.trans hsize.symm, fun kb hkb => ?_⟩
  have hnodup : c.accessTable.keys.Nodup := by
    rw [h.kept.keys]
    exact hp.nodup
  obtain rfl | ⟨hmem, hne⟩ := OrderedStaticMap.mem_entries_setValue hnodup hk hkb
  · exact hself
  · rw [hother _ hne]
    exact h.written kb hmem

/-- `load` gives the bytes that are shown. -/
theorem load (h : Shows version chunk c₀ c v) (hp : Placed c₀) {offset index n : Nat}
    {value : Value}
    (hrun : c.exec chunk version (.load offset index n) = (.ok value, c')) :
    Shows version chunk c₀ c' v ∧ ∃ b₀, (offset, b₀) ∈ c₀.accessTable.entries ∧
      b₀.accessType.denies .read = false ∧
      index + n ≤ b₀.size ∧ value = .bytes (readAt (v.bytes chunk offset b₀.size) index n) := by
  have hkept := h.kept.onBlock offset fun b₁ b base hb _ => hb.read base version index n
  obtain ⟨content, k, b, b', rfl, hk, hb, hread, hc', rfl⟩ :=
    ChunkInfo.onBlock_ok chunk (fun b base => HeapBlock.read b base version index n) .bytes hrun
  obtain ⟨hloc, b₀, hb₀, hsize, htype⟩ := h.declared hp hb
  have hread : b.read (readAt chunk.content b.heapLocation b.size) version index n =
      (.ok content, b') := hread
  obtain ⟨e, he⟩ | ⟨hle, hreadable, he⟩ :=
    b.read_cases (readAt chunk.content b.heapLocation b.size) version index n
  · rw [he] at hread
    cases (Prod.mk.inj hread).1
  · obtain ⟨hcontent, rfl⟩ := Prod.mk.inj (he.symm.trans hread)
    rw [hloc, h.bytes_eq hb, hsize] at hcontent
    refine ⟨h.setValue hp hk (hc' ▸ hkept) rfl ?_ fun _ _ => rfl, b₀, hb₀, htype ▸ hreadable,
      hsize ▸ hle, ?_⟩
    · rw [← h.written _ hb]
      exact view_sync (Nat.le_refl version) b.versionList
    · rw [Except.ok.inj hcontent]

/-- `store` changes the bytes of its block. -/
theorem store (h : Shows version chunk c₀ c v) (hp : Placed c₀) {offset index : Nat}
    {bytes : List Byte} {value : Value}
    (hrun : c.exec chunk version (.store offset index bytes) = (.ok value, c')) :
    ∃ b₀, (offset, b₀) ∈ c₀.accessTable.entries ∧ b₀.accessType.denies .write = false ∧
      index + bytes.length ≤ b₀.size ∧
      Shows version chunk c₀ c'
        (v.write offset (writeAt (v.bytes chunk offset b₀.size) index bytes)) := by
  have hkept := h.kept.onBlock offset fun b₁ b base hb hbase => hb.write hbase version index bytes
  obtain ⟨_, k, b, b', _, hk, hb, hwrite, hc', rfl⟩ :=
    ChunkInfo.onBlock_ok chunk (fun b base => HeapBlock.write b base version index bytes)
      (fun _ => .unit) hrun
  obtain ⟨hloc, b₀, hb₀, hsize, htype⟩ := h.declared hp hb
  have hwrite : b.write (readAt chunk.content b.heapLocation b.size) version index bytes =
      (.ok (), b') := hwrite
  obtain ⟨e, he⟩ | ⟨e, he⟩ | ⟨hle, hwritable, b₁, he, -, hlist⟩ :=
    b.write_cases (readAt_length chunk.content b.heapLocation b.size) version index bytes
  · rw [he] at hwrite
    cases (Prod.mk.inj hwrite).1
  · rw [he] at hwrite
    cases (Prod.mk.inj hwrite).1
  · obtain ⟨-, rfl⟩ := Prod.mk.inj (he.symm.trans hwrite)
    refine ⟨b₀, hb₀, htype ▸ hwritable, hsize ▸ hle,
      h.setValue hp hk (hc' ▸ hkept) rfl ?_ fun i hi => v.write_written_of_ne _ hi⟩
    rw [hlist, view_put_self, hloc, h.bytes_eq hb, hsize, ChunkView.write_written_self]

/-- `addInt` adds to the sum of its block. -/
theorem addInt (h : Shows version chunk c₀ c v) (hp : Placed c₀) {offset n amount : Nat}
    {value : Value}
    (hrun : c.exec chunk version (.addInt offset n amount) = (.ok value, c')) :
    ∃ b₀, (offset, b₀) ∈ c₀.accessTable.entries ∧ b₀.accessType.denies .int_add = false ∧
      b₀.size = n ∧
      Shows version chunk c₀ c'
        (v.write offset (leBytes n (((v.written offset).map leNat).getD 0 + amount))) := by
  have hkept := h.kept.onBlock offset fun b₁ b base hb _ => hb.addInt version n amount
  obtain ⟨_, k, b, b', _, hk, hb, hadd, hc', rfl⟩ :=
    ChunkInfo.onBlock_ok chunk (fun b _ => HeapBlock.addInt b version n amount)
      (fun _ => .unit) hrun
  obtain ⟨hloc, b₀, hb₀, hsize, htype⟩ := h.declared hp hb
  have hadd : b.addInt version n amount = (.ok (), b') := hadd
  obtain ⟨e, he⟩ | ⟨e, he⟩ | ⟨hn, hadditive, b₁, he, -, hlist⟩ := b.addInt_cases version n amount
  · rw [he] at hadd
    cases (Prod.mk.inj hadd).1
  · rw [he] at hadd
    cases (Prod.mk.inj hadd).1
  · obtain ⟨-, rfl⟩ := Prod.mk.inj (he.symm.trans hadd)
    refine ⟨b₀, hb₀, htype ▸ hadditive, hsize ▸ hn.symm,
      h.setValue hp hk (hc' ▸ hkept) rfl ?_ fun i hi => v.write_written_of_ne _ hi⟩
    rw [hlist, view_put_self, h.written _ hb, ChunkView.write_written_self]

/-! ## The size -/

/-- Reading the size gives the size that is shown. -/
theorem readSize (h : Shows version chunk c₀ c v) :
    ∃ c₁, c.readSize chunk version = (.ok v.size, c₁) ∧ Shows version chunk c₀ c₁ v ∧
    c₁.accessTable = c.accessTable ∧ c₁.resizing = c.resizing := by
  have hread : c.size.accessType.denies .read = false := by
    rw [h.kept.size_type]
    split <;> rfl
  have hlt : c.initialSize.getD chunk.getsize < 2 ^ 32 := by
    rw [h.kept.initialSize_getD]
    exact Kept.getsize_lt chunk
  have heq := ChunkInfo.readSize_eq chunk version h.kept.size_width hread hlt
  obtain ⟨n, c₁, hread', hkept, -⟩ := h.kept.readSize version
  obtain ⟨hn, rfl⟩ := Prod.mk.inj (heq.symm.trans hread')
  rw [h.size] at heq
  refine ⟨_, heq, ⟨hkept, ?_, h.written⟩, rfl, rfl⟩
  rw [← h.size]
  unfold ChunkInfo.shownSize
  simp only [AccessBlock.syncTo, view_sync (Nat.le_refl version), Option.getD_some]

/-- `isValid` compares with the size that is shown. -/
theorem isValid (h : Shows version chunk c₀ c v) (hp : Placed c₀) {offset size : Nat}
    {value : Value}
    (hrun : c.exec chunk version (.isValid offset size) = (.ok value, c')) :
    Shows version chunk c₀ c' v ∧ value = .bool (decide (offset + size ≤ v.size)) ∧
      ∃ b₀, (offset, b₀) ∈ c₀.accessTable.entries ∧ size ≤ b₀.size := by
  have hrun : ((c.isValid chunk version offset size).1.map Value.bool,
      (c.isValid chunk version offset size).2) = (.ok value, c') := hrun
  unfold ChunkInfo.isValid at hrun
  cases hget : c.getAccessBlock offset with
  | error e =>
    rw [hget] at hrun
    cases (Prod.mk.inj hrun).1
  | ok kb =>
    obtain ⟨k, b⟩ := kb
    obtain ⟨-, b₀, hb₀, hsize, -⟩ := h.declared hp (ChunkInfo.getAccessBlock_mem hget)
    obtain ⟨c₁, hread, hshows, -, -⟩ := h.readSize
    rw [hget] at hrun
    by_cases hdefined : ChunkInfo.defined b size = true
    · simp only [hdefined, if_true, hread] at hrun
      obtain ⟨hvalue, rfl⟩ := Prod.mk.inj hrun
      have hle : size ≤ b.size := by
        rw [ChunkInfo.defined, Bool.and_eq_true, decide_eq_true_eq] at hdefined
        exact hdefined.1
      exact ⟨hshows, (Except.ok.inj hvalue).symm, b₀, hb₀, hsize ▸ hle⟩
    · simp only [hdefined, Bool.false_eq_true, if_false] at hrun
      cases (Prod.mk.inj hrun).1

theorem writeSize (h : Shows version chunk c₀ c v) {newSize : Nat} (hlt : newSize < 2 ^ 32)
    (hrun : c.writeSize chunk version newSize = (.ok (), c')) (hkept : Kept chunk c₀ c') :
    Shows version chunk c₀ c' (v.resize newSize) := by
  have hbase : (leBytes 4 (c.initialSize.getD chunk.getsize)).length = c.size.size := by
    rw [leBytes_length, h.kept.size_width]
  have hfirst : (c.size.write (leBytes 4 (c.initialSize.getD chunk.getsize)) version 0
      (leBytes 4 newSize)).1 = .ok () :=
    congrArg Prod.fst hrun
  have hsecond := (ChunkInfo.writeSize_eq c chunk version newSize).symm.trans
    (congrArg Prod.snd hrun)
  obtain ⟨e, he⟩ | ⟨e, he⟩ | ⟨-, -, b', he, -, hlist⟩ :=
    c.size.write_cases hbase version 0 (leBytes 4 newSize)
  · rw [he] at hfirst
    cases hfirst
  · rw [he] at hfirst
    cases hfirst
  · rw [he] at hsecond
    subst hsecond
    refine ⟨hkept, ?_, h.written⟩
    -- the whole size block is written
    have hlength := AccessBlock.view_length hbase version
    unfold ChunkInfo.shownSize
    rw [hlist, view_put_self,
      writeAt_all (by rw [hlength, leBytes_length]; exact h.kept.size_width.symm), Option.map_some,
      Option.getD_some, leNat_leBytes, Nat.mod_eq_of_lt (by simpa using hlt)]
    rfl

/-- `updateChunkSize` sets the size that is shown. -/
theorem updateChunkSize (h : Shows version chunk c₀ c v) (hbound : c₀.sizeBound ≤ maxChunkSize)
    {newSize : Nat} (hlt : newSize < 2 ^ 32)
    {value : Value} (hrun : c.exec chunk version (.updateChunkSize newSize) = (.ok value, c')) :
    Shows version chunk c₀ c' (v.resize newSize) := by
  have hkept := h.kept.updateChunkSize version newSize hbound
  have hrun : ((c.updateChunkSize chunk version newSize).1.map fun _ => Value.unit,
      (c.updateChunkSize chunk version newSize).2) = (.ok value, c') := hrun
  obtain ⟨h1, rfl⟩ := Prod.mk.inj hrun
  obtain ⟨c₁, hread, hshows, -, -⟩ := h.readSize
  unfold ChunkInfo.updateChunkSize at h1 hkept ⊢
  rw [hread] at h1 hkept ⊢
  simp only at h1 hkept ⊢
  -- the source returns before it looks at the resizing type
  by_cases hsame : newSize = v.size
  · rw [if_pos hsame, hsame]
    exact hshows
  rw [if_neg hsame] at h1 hkept ⊢
  have hwrite : ∀ {r : Except Exn Unit × ChunkInfo AccessBlock},
      r = c₁.writeSize chunk version newSize → r.1.map (fun _ => Value.unit) = .ok value →
        Kept chunk c₀ r.2 → Shows version chunk c₀ r.2 (v.resize newSize) := by
    rintro ⟨r | u, c₂⟩ hr hok hkept
    · cases hok
    · exact hshows.writeSize hlt hr.symm hkept
  cases hres : c₁.resizing with
  | expandable =>
    rw [hres] at h1 hkept
    simp only at h1 hkept ⊢
    split at h1
    · cases h1
    · rename_i hno
      rw [if_neg hno] at hkept ⊢
      exact hwrite rfl h1 hkept
  | shrinkable =>
    rw [hres] at h1 hkept
    simp only at h1 hkept ⊢
    split at h1
    · cases h1
    · rename_i hno
      rw [if_neg hno] at hkept ⊢
      exact hwrite rfl h1 hkept
  | read_only =>
    rw [hres] at h1
    cases h1
  | non_accessible =>
    rw [hres] at h1
    cases h1

/-- The size block of a chunk that may be resized can be written. -/
theorem writeSize_ok (h : Shows version chunk c₀ c v) (hr : c₀.resizing.resizable)
    (hversion : 1 ≤ version) (newSize : Nat) :
    ∃ c', c.writeSize chunk version newSize = (.ok (), c') ∧
      c'.accessTable = c.accessTable := by
  have hbase : (leBytes 4 (c.initialSize.getD chunk.getsize)).length = c.size.size := by
    rw [leBytes_length, h.kept.size_width]
  have hwidth : 0 + (leBytes 4 newSize).length ≤ c.size.size := by
    rw [leBytes_length, h.kept.size_width]
  have hwritable : c.size.accessType.denies .write = false := by
    rw [h.kept.size_type, if_pos hr]
    rfl
  obtain ⟨b', hwrite, -, -⟩ := AccessBlock.write_ok hbase hversion hwidth hwritable
  have hfirst : (c.writeSize chunk version newSize).1 = .ok () := congrArg Prod.fst hwrite
  exact ⟨_, Prod.ext hfirst rfl, rfl⟩

/-- A size that the declaration allows is accepted. -/
theorem updateChunkSize_ok (h : Shows version chunk c₀ c v) (hversion : 1 ≤ version) {newSize : Nat}
    (hallowed : SizeAllowed c₀ v.size newSize) :
    ∃ c', c.exec chunk version (.updateChunkSize newSize) = (.ok .unit, c') ∧
      c'.accessTable = c.accessTable := by
  obtain ⟨c₁, hread, hshows, htable, hresizing⟩ := h.readSize
  obtain ⟨c', hupdate, htable'⟩ : ∃ c', c.updateChunkSize chunk version newSize = (.ok (), c') ∧
      c'.accessTable = c.accessTable := by
    unfold ChunkInfo.updateChunkSize
    simp only [hread, hshows.kept.resizing, hshows.kept.sizeBound]
    split
    · exact ⟨c₁, rfl, htable⟩
    rename_i hne
    cases hres : c₀.resizing with
    | expandable =>
      simp only [SizeAllowed, hres] at hallowed ⊢
      rw [if_neg (by omega)]
      obtain ⟨c', hwrite, htable'⟩ := hshows.writeSize_ok (by rw [hres]; rfl) hversion newSize
      exact ⟨c', hwrite, htable'.trans htable⟩
    | shrinkable =>
      simp only [SizeAllowed, hres] at hallowed ⊢
      rw [if_neg (by omega)]
      obtain ⟨c', hwrite, htable'⟩ := hshows.writeSize_ok (by rw [hres]; rfl) hversion newSize
      exact ⟨c', hwrite, htable'.trans htable⟩
    | read_only => simp [SizeAllowed, hres] at hallowed
    | non_accessible => simp [SizeAllowed, hres] at hallowed
  refine ⟨c', ?_, htable'⟩
  simp only [ChunkInfo.exec, hupdate]
  rfl

end Shows

/-! ## The write-back -/

/-- The bytes that the write-back of a block puts in the place of `old`. -/
def AccessBlock.writtenBytes (b : AccessBlock) (old content : List Byte) : List Byte :=
  if b.accessType.isAdditive then leBytes 8 (leNat old + leNat content) else content

/-- The write-back of one block. -/
theorem wrToHeap_written {b : AccessBlock} {chunk chunk' : Chunk} {version maxWriteSize : Nat}
    (h : b.wrToHeap chunk version maxWriteSize = .ok chunk') :
    (view version b.versionList = none → chunk' = chunk) ∧
    ∀ content, view version b.versionList = some content →
      chunk'.chunkSize = chunk.chunkSize ∧ chunk'.writable = chunk.writable ∧
        chunk'.content = writeAt chunk.content b.heapLocation
          ((b.writtenBytes (readAt chunk.content b.heapLocation b.size) content).take
            (min b.size maxWriteSize)) := by
  have htop : top (b.syncTo version).versionList = view version b.versionList := rfl
  unfold AccessBlock.wrToHeap at h
  rw [htop] at h
  constructor
  · intro hnone
    rw [hnone] at h
    exact (Except.ok.inj h).symm
  · intro content hsome
    rw [hsome] at h
    simp only at h
    unfold AccessBlock.writtenBytes
    split at h
    · rename_i hadd
      rw [if_pos hadd]
      split at h
      · cases h
      · obtain rfl := Except.ok.inj h
        exact ⟨rfl, rfl, rfl⟩
    · rename_i hadd
      rw [if_neg hadd]
      obtain rfl := Except.ok.inj h
      exact ⟨rfl, rfl, rfl⟩

/-- A byte that is written. -/
theorem writeAt_inside {mem bytes : List Byte} {offset i : Nat} (hlow : offset ≤ i)
    (hhigh : i < offset + bytes.length)
    (hlt : i < mem.length) : (writeAt mem offset bytes)[i]? = bytes[i - offset]? := by
  rw [writeAt_getElem?, List.getElem?_eq_getElem hlt, Option.map_some, if_pos hlow,
    List.getD_eq_getElem _ _ (by omega),
    List.getElem?_eq_getElem (by omega)]

/-- What a block holds at a version fills the block, but for the sum of an additive one, of which no
more than 8 bytes are written. -/
theorem AccessBlock.size_le_writtenBytes {b : AccessBlock} {version : Nat} {old content : List Byte}
    (hview : view version b.versionList = some content)
    (hsize : b.accessType.isAdditive → b.size ≤ 8) :
    b.size ≤ (b.writtenBytes old content).length := by
  unfold AccessBlock.writtenBytes
  split
  · rename_i hadditive
    rw [leBytes_length]
    exact hsize hadditive
  · have hlength := AccessBlock.view_length (b := b) (readAt_length [] 0 b.size) version
    rw [hview] at hlength
    exact Nat.le_of_eq hlength.symm

/-- The write-back of the blocks: the bytes below the size that are in a block that holds something
are those of the block, and all the others are kept. -/
structure BlocksWritten (version size : Nat) (l : List (Nat × AccessBlock))
    (chunk chunk' : Chunk) : Prop where
  chunkSize : chunk'.chunkSize = chunk.chunkSize
  writable : chunk'.writable = chunk.writable
  length : chunk'.content.length = chunk.content.length
  kept : ∀ i, (i < size → ¬ InWritten version l i) → chunk'.content[i]? = chunk.content[i]?
  written : ∀ kb ∈ l, ∀ content, view version kb.2.versionList = some content → ∀ i, kb.1 ≤ i →
    i < kb.1 + kb.2.size →
    i < size → chunk'.content[i]? =
      (kb.2.writtenBytes (readAt chunk.content kb.1 kb.2.size) content)[i - kb.1]?

/-- The write-back of one block, as far as it lies below the size. -/
theorem wrToHeap_blocksWritten {b : AccessBlock} {chunk chunk' : Chunk} {version size offset : Nat}
    (hloc : b.heapLocation = offset)
    (hoffset : offset < size) (hsize : size ≤ chunk.content.length)
    (h : b.wrToHeap chunk version (size - offset) = .ok chunk') :
    BlocksWritten version size [(offset, b)] chunk chunk' := by
  obtain ⟨hnone, hsome⟩ := wrToHeap_written h
  cases hview : view version b.versionList with
  | none =>
    obtain rfl := hnone hview
    refine ⟨rfl, rfl, rfl, fun _ _ => rfl, fun kb hkb content hcontent => ?_⟩
    obtain rfl := List.mem_singleton.mp hkb
    rw [hview] at hcontent
    cases hcontent
  | some content =>
    obtain ⟨hchunkSize, hwritable, hcontent⟩ := hsome content hview
    have hframe := (wrToHeap_frame h).2.2.2
    rw [hloc] at hcontent hframe
    -- a wider additive block is an assertion that fails
    have hadditive : b.accessType.isAdditive → b.size ≤ 8 := by
      intro hadditive
      by_contra hlarge
      have htop : top (b.syncTo version).versionList = some content := hview
      unfold AccessBlock.wrToHeap at h
      rw [htop] at h
      simp only at h
      rw [if_pos hadditive, if_pos (Nat.lt_of_not_le hlarge)] at h
      cases h
    have hfill : b.size ≤ (b.writtenBytes (readAt chunk.content offset b.size) content).length :=
      AccessBlock.size_le_writtenBytes hview hadditive
    refine ⟨hchunkSize, hwritable, by rw [hcontent, writeAt_length],
      fun i hi => hframe i fun hholds => ?_,
      fun kb hkb content' hcontent' i hlow hhigh hlt => ?_⟩
    · by_contra hin
      have hlow : offset ≤ i := by omega
      have hlt : i < size := by omega
      have hhigh : i < offset + b.size := by omega
      exact hi hlt ⟨(offset, b), List.mem_singleton_self _, hholds, hlow, hhigh⟩
    · obtain rfl := List.mem_singleton.mp hkb
      obtain rfl := Option.some.inj (hview.symm.trans hcontent')
      simp only at hlow hhigh ⊢
      rw [hcontent, writeAt_inside hlow (by rw [List.length_take]; omega) (by omega),
        List.getElem?_take_of_lt (by omega)]

/-- The loop over the blocks, which are apart. -/
theorem writeBlocks_written {version size : Nat} {l : List (Nat × AccessBlock)}
    {chunk chunk' : Chunk}
    (hloc : ∀ kb ∈ l, kb.2.heapLocation = kb.1)
    (hapart : l.Pairwise fun a b => a.1 < b.1 ∧ a.1 + a.2.size ≤ b.1)
    (hsize : size ≤ chunk.content.length)
    (h : ChunkInfo.writeBlocks version size l chunk = .ok chunk') :
    BlocksWritten version size l chunk chunk' := by
  induction l generalizing chunk with
  | nil =>
    obtain rfl := Except.ok.inj h
    exact ⟨rfl, rfl, rfl, fun _ _ => rfl, fun kb hkb => by cases hkb⟩
  | cons kb₀ rest ih =>
    obtain ⟨offset, b⟩ := kb₀
    obtain ⟨hlocHead, hlocRest⟩ := List.forall_mem_cons.mp hloc
    obtain ⟨hapartHead, hapartRest⟩ := List.pairwise_cons.mp hapart
    rw [ChunkInfo.writeBlocks] at h
    split at h
    · -- this block and those after it lie past the size
      rename_i hpast
      obtain rfl := Except.ok.inj h
      refine ⟨rfl, rfl, rfl, fun _ _ => rfl, fun kb hkb content _ i hlow _ hlt => ?_⟩
      have hge : offset ≤ kb.1 := by
        obtain rfl | hkb := List.mem_cons.mp hkb
        · exact Nat.le_refl _
        · exact Nat.le_of_lt (hapartHead kb hkb).1
      omega
    rename_i hoffset
    obtain ⟨mid, hmid, h⟩ := bind_ok.mp h
    have hhead := wrToHeap_blocksWritten hlocHead (Nat.lt_of_not_le hoffset) hsize hmid
    have hrest := ih hlocRest hapartRest (by rw [hhead.length]; exact hsize) h
    refine ⟨hrest.chunkSize.trans hhead.chunkSize, hrest.writable.trans hhead.writable,
      hrest.length.trans hhead.length,
      fun i hi => ?_, fun kb hkb content hcontent i hlow hhigh hlt => ?_⟩
    · rw [hrest.kept i]
      · refine hhead.kept i ?_
        rintro hlt ⟨kb, hkb, hin⟩
        refine hi hlt ⟨kb, ?_, hin⟩
        rw [List.mem_singleton.mp hkb]
        exact List.mem_cons_self
      · rintro hlt ⟨kb, hkb, hin⟩
        exact hi hlt ⟨kb, List.mem_cons_of_mem _ hkb, hin⟩
    · obtain rfl | hmem := List.mem_cons.mp hkb
      · -- the blocks after it do not reach it
        rw [hrest.kept i]
        · exact hhead.written _ (List.mem_singleton_self _) content hcontent i hlow hhigh hlt
        · rintro _ ⟨kb', hkb', _, hlow', _⟩
          have := (hapartHead kb' hkb').2
          simp only at this hhigh
          omega
      · -- a block further on: this one does not reach it, so its bytes are still the old ones
        rw [hrest.written kb hmem content hcontent i hlow hhigh hlt]
        have hbefore := (hapartHead kb hmem).2
        have hsame : readAt mid.content kb.1 kb.2.size = readAt chunk.content kb.1 kb.2.size := by
          refine readAt_congr fun j hlow' hhigh' => ?_
          rw [List.getD_eq_getElem?_getD, List.getD_eq_getElem?_getD, hhead.kept j]
          rintro _ ⟨kb', hkb', _, _, hhigh''⟩
          obtain rfl := List.mem_singleton.mp hkb'
          simp only at hbefore hhigh''
          omega
        rw [hsame]

/-- The memory of a chunk when its size is set. -/
def Chunk.sizedTo (chunk : Chunk) (size : Nat) : List Byte :=
  writeAt chunk.content size (List.replicate (chunk.chunkSize - size) 0)

/-- A chunk that does not shrink keeps its memory. -/
theorem Chunk.sizedTo_of_le {chunk : Chunk} {size : Nat} (h : chunk.chunkSize ≤ size) :
    chunk.sizedTo size = chunk.content := by
  unfold Chunk.sizedTo
  apply List.ext_getElem?
  intro i
  rw [writeAt_frame]
  rw [List.length_replicate]
  omega

theorem Chunk.sizedTo_below (chunk : Chunk) {size i : Nat} (h : i < size) :
    (chunk.sizedTo size)[i]? = chunk.content[i]? :=
  writeAt_frame (.inl h)

/-- The chunk that the write-back leaves of what is shown. -/
structure WrittenBack (chunk : Chunk) (c₀ : ChunkInfo AccessBlock) (v : ChunkView)
    (chunk' : Chunk) : Prop where
  chunkSize : chunk'.chunkSize = v.size
  writable : chunk'.writable = chunk.writable
  length : chunk'.content.length = chunk.content.length
  kept : ∀ i, (i < v.size → ∀ kb ∈ c₀.accessTable.entries, v.written kb.1 ≠ none → i < kb.1 ∨
    kb.1 + kb.2.size ≤ i) →
    chunk'.content[i]? = (chunk.sizedTo v.size)[i]?
  written : ∀ kb ∈ c₀.accessTable.entries, ∀ content, v.written kb.1 = some content →
    ∀ i, kb.1 ≤ i → i < kb.1 + kb.2.size →
    i < v.size → chunk'.content[i]? =
      (kb.2.writtenBytes (readAt (chunk.sizedTo v.size) kb.1 kb.2.size) content)[i - kb.1]?

namespace Shows
variable {version : Nat} {chunk chunk' : Chunk} {c₀ c : ChunkInfo AccessBlock} {v : ChunkView}

/-- The blocks are as far apart as they were declared. -/
theorem apart (h : Shows version chunk c₀ c v) (hp : Placed c₀) :
    c.accessTable.entries.Pairwise fun a b => a.1 < b.1 ∧ a.1 + a.2.size ≤ b.1 := by
  have hsame : c.accessTable.entries.map (fun kb => (kb.1, kb.2.size)) =
      c₀.accessTable.entries.map (fun kb => (kb.1, kb.2.size)) := by
    refine (List.forall₂_eq_eq_eq ▸ List.forall₂_map_left_iff.mpr
      (List.forall₂_map_right_iff.mpr ?_) :)
    exact (ChunkInfo.entries_forall₂ h.kept.keys h.kept.blocks).flip.imp fun kb kb₀ hkb =>
      Prod.ext hkb.1 hkb.2.same.size
  have hapart : (c₀.accessTable.entries.map fun kb => (kb.1, kb.2.size)).Pairwise fun a b => a.1 <
      b.1 ∧ a.1 + a.2 ≤ b.1 :=
    List.pairwise_map.mpr hp.apart
  rw [← hsame] at hapart
  exact List.pairwise_map.mp hapart

/-- The size that is shown is the size of the chunk unless it may be resized. -/
theorem size_of_not_resizable (h : Shows version chunk c₀ c v)
    (hr : c₀.resizing.resizable = false) : v.size = chunk.getsize := by
  obtain ⟨n, c₁, hread, -, hn⟩ := h.kept.readSize version
  obtain ⟨c₂, hread', -⟩ := h.readSize
  obtain rfl := Except.ok.inj (Prod.mk.inj (hread.symm.trans hread')).1
  obtain hn | hn := hn
  · exact hn
  · cases hres : c₀.resizing <;> simp [SizeAllowed, hres, ResizingType.resizable] at hn hr

/-- The write-back of a chunk that may be resized gives it the size that is shown. -/
theorem chunkSize_of_writeToHeap (h : Shows version chunk c₀ c v) (hr : c₀.resizing.resizable)
    (hloc : ∀ kb ∈ c₀.accessTable.entries, kb.2.heapLocation = kb.1)
    (hrun : c.writeToHeap version chunk = .ok chunk') : chunk'.chunkSize = v.size := by
  obtain ⟨c₁, hread, -⟩ := h.readSize
  unfold ChunkInfo.writeToHeap at hrun
  rw [hread] at hrun
  obtain ⟨size, hsize, hrun⟩ := bind_ok.mp hrun
  obtain rfl := Except.ok.inj hsize
  obtain ⟨mid, hmid, hrun⟩ := bind_ok.mp hrun
  unfold ChunkInfo.resizeTo at hmid
  rw [h.kept.resizing, if_pos hr] at hmid
  have hsize := (setSize_frame hmid).1
  split at hrun
  · have hdeclared := h.kept.entries_kept hloc
    exact (writeBlocks_frame (fun kb hkb => (hdeclared kb hkb).1.1) hrun).1.trans hsize
  · obtain rfl := Except.ok.inj hrun
    exact hsize

/-- The write-back of a chunk leaves in its memory what is shown. -/
theorem writeToHeap (h : Shows version chunk c₀ c v) (hp : Placed c₀)
    (hwritable : ∀ kb ∈ c₀.accessTable.entries, kb.2.accessType.mayWrite → chunk.isWritable)
    (hrun : c.writeToHeap version chunk = .ok chunk') : WrittenBack chunk c₀ v chunk' := by
  obtain ⟨c₁, hread, -⟩ := h.readSize
  -- the change of size
  obtain ⟨mid, hmid, hsize, hmidWritable, hmidContent⟩ : ∃ mid, c.resizeTo chunk v.size = .ok mid ∧
    mid.chunkSize = v.size ∧
      mid.writable = chunk.writable ∧ mid.content = chunk.sizedTo v.size := by
    unfold ChunkInfo.writeToHeap at hrun
    rw [hread] at hrun
    obtain ⟨size, hsize, hrun⟩ := bind_ok.mp hrun
    obtain rfl := Except.ok.inj hsize
    obtain ⟨mid, hmid, -⟩ := bind_ok.mp hrun
    refine ⟨mid, hmid, ?_⟩
    unfold ChunkInfo.resizeTo at hmid
    rw [h.kept.resizing] at hmid
    split at hmid
    · unfold Chunk.setSize at hmid
      split at hmid
      · obtain rfl := Except.ok.inj hmid
        exact ⟨rfl, rfl, rfl⟩
      · cases hmid
    · rename_i hfixed
      obtain rfl := Except.ok.inj hmid
      have hsame := h.size_of_not_resizable (by simpa using hfixed)
      rw [hsame]
      exact ⟨rfl, rfl, (Chunk.sizedTo_of_le (Nat.le_refl _)).symm⟩
  have hlength : mid.content.length = chunk.content.length := by
    rw [hmidContent, Chunk.sizedTo, writeAt_length]
  have hunfold : c.writeToHeap version chunk =
      if v.size > 0 ∧ mid.isWritable then ChunkInfo.writeBlocks version v.size c.accessTable.entries
        mid else .ok mid := by
    unfold ChunkInfo.writeToHeap
    rw [hread]
    simp only [bind, Except.bind, hmid]
  rw [hunfold] at hrun
  -- the blocks are those that were declared
  have hdeclared := h.kept.entries_kept hp.heapLocation
  have hpresent {kb₀ : Nat × AccessBlock} (hkb₀ : kb₀ ∈ c₀.accessTable.entries) :
      ∃ kb ∈ c.accessTable.entries,
        kb.1 = kb₀.1 ∧ BlockKept kb₀.2 kb.2 :=
    forall₂_mem_left (ChunkInfo.entries_forall₂ h.kept.keys h.kept.blocks) hkb₀
  have hmayWrite {kb₀ : Nat × AccessBlock} (hkb₀ : kb₀ ∈ c₀.accessTable.entries)
      {content : List Byte}
        (hcontent : v.written kb₀.1 = some content) : chunk.isWritable := by
    obtain ⟨kb, hkb, hkey, hkept⟩ := hpresent hkb₀
    refine hwritable kb₀ hkb₀ ?_
    by_contra hpassive
    have hview := h.written kb hkb
    rw [hkey, hcontent, hkept.passive (by simpa using hpassive)] at hview
    cases hview
  split at hrun
  · have hbound : v.size ≤ mid.content.length := hsize ▸ mid.size_le
    have hblocks := writeBlocks_written (fun kb hkb => (hdeclared kb hkb).1.1)
      (h.apart hp) hbound hrun
    refine ⟨hblocks.chunkSize.trans hsize, hblocks.writable.trans hmidWritable,
      hblocks.length.trans hlength, fun i hi => ?_,
      fun kb₀ hkb₀ content hcontent i hlow hhigh hlt => ?_⟩
    · rw [← hmidContent]
      refine hblocks.kept i ?_
      rintro hlt ⟨kb, hkb, hview, hlow, hhigh⟩
      obtain ⟨-, kb₀, hkb₀, hkey, hwidth, -⟩ := hdeclared kb hkb
      rw [h.written kb hkb, ← hkey] at hview
      have hout := hi hlt kb₀ hkb₀ hview
      rw [hkey, ← hwidth] at hout
      omega
    · obtain ⟨kb, hkb, hkey, hkept⟩ := hpresent hkb₀
      have hbytes := hblocks.written kb hkb content (by rw [h.written kb hkb, hkey, hcontent]) i
        (hkey ▸ hlow)
        (by rw [hkey, hkept.same.size]; exact hhigh) hlt
      rw [hbytes, hmidContent, hkey, hkept.same.size]
      unfold AccessBlock.writtenBytes
      rw [hkept.same.accessType]
  · rename_i hno
    obtain rfl := Except.ok.inj hrun
    refine ⟨hsize, hmidWritable, hlength,
      fun i _ => by rw [hmidContent], fun kb₀ hkb₀ content hcontent i _ _ hlt => ?_⟩
    -- nothing is shown in a block of a chunk that is not writable
    refine absurd ⟨Nat.lt_of_le_of_lt (Nat.zero_le i) hlt, ?_⟩ hno
    have hmay := hmayWrite hkb₀ hcontent
    unfold Chunk.isWritable at hmay ⊢
    rw [hmidWritable]
    exact hmay

end Shows

/-- A chunk of which nothing is changed is written back as it was. -/
theorem WrittenBack.unchanged {chunk chunk' : Chunk} {c₀ : ChunkInfo AccessBlock}
    (h : WrittenBack chunk c₀ (.initial chunk) chunk') :
    chunk' = chunk := by
  have hcontent : chunk'.content = chunk.content := by
    apply List.ext_getElem?
    intro i
    rw [h.kept i fun _ _ _ hwritten => absurd rfl hwritten]
    exact congrArg (·[i]?) (Chunk.sizedTo_of_le (Nat.le_refl _))
  have hsize : chunk'.chunkSize = chunk.chunkSize := h.chunkSize
  obtain ⟨content, chunkSize, writable, _, _⟩ := chunk
  obtain ⟨content', chunkSize', writable', _, _⟩ := chunk'
  obtain rfl : content' = content := hcontent
  obtain rfl : chunkSize' = chunkSize := hsize
  obtain rfl : writable' = writable := h.writable
  rfl

end Argennon
